/-!
# UTF-8

Text as bytes. `encode` writes the characters of a text one after another, `decode` reads them back
and says of other bytes where the first one stands that is no part of a character. Characters have
one to four bytes; the first byte tells how many follow.
-/

namespace JobIndex.Text

/-! ### Writing -/

/-- The byte with a number. -/
def byte (n : Nat) : UInt8 :=
  UInt8.ofNat n

/-- The bytes of the character with a code. -/
def encodeCode (n : Nat) : List UInt8 :=
  if n < 0x80 then [byte n]
  else if n < 0x800 then [byte (0xC0 + n / 64), byte (0x80 + n % 64)]
  else if n < 0x10000 then
    [byte (0xE0 + n / 4096), byte (0x80 + n / 64 % 64), byte (0x80 + n % 64)]
  else
    [byte (0xF0 + n / 262144), byte (0x80 + n / 4096 % 64), byte (0x80 + n / 64 % 64),
      byte (0x80 + n % 64)]

/-- The bytes of a text. -/
def encode (text : String) : List UInt8 :=
  text.toList.flatMap fun c => encodeCode c.toNat

/-! ### Reading -/

/-- What is wrong with bytes that are no text: some of them, or that there are too few. -/
inductive Utf8Fault where
  | invalid (length : Nat) (index : Nat)
  | incomplete (index : Nat)
deriving Repr, DecidableEq

/-- The words for what is wrong with bytes that are no text. -/
def Utf8Fault.message : Utf8Fault → String
  | .invalid length index =>
    "invalid utf-8 sequence of " ++ toString length ++ " bytes from index " ++ toString index
  | .incomplete index => "incomplete utf-8 byte sequence from index " ++ toString index

/-- The number of bytes before the fault. -/
def Utf8Fault.index : Utf8Fault → Nat
  | .invalid _ index => index
  | .incomplete index => index

/-- Whether a byte may follow in a character. -/
def isFollowing (b : UInt8) : Bool :=
  0x80 ≤ b && b ≤ 0xBF

/-- Whether a byte may come second in a character; after some first bytes the range is narrower, so
that each character has one form and surrogates have none. -/
def isSecond (first b : UInt8) : Bool :=
  if first == 0xE0 then 0xA0 ≤ b && b ≤ 0xBF
  else if first == 0xED then 0x80 ≤ b && b ≤ 0x9F
  else if first == 0xF0 then 0x90 ≤ b && b ≤ 0xBF
  else if first == 0xF4 then 0x80 ≤ b && b ≤ 0x8F
  else isFollowing b

/-- What a first byte says of the bytes that follow. -/
inductive Lead where
  | alone
  | one
  | two
  | three
  | none
deriving Repr, DecidableEq

/-- What a first byte says of the bytes that follow. -/
def Lead.ofByte (b : UInt8) : Lead :=
  if b < 0x80 then .alone
  else if 0xC2 ≤ b && b ≤ 0xDF then .one
  else if 0xE0 ≤ b && b ≤ 0xEF then .two
  else if 0xF0 ≤ b && b ≤ 0xF4 then .three
  else .none

/-- The bits that a following byte adds to a code. -/
def bits (b : UInt8) : Nat :=
  b.toNat % 64

/-- What stands at a place in bytes. -/
inductive CharAt where
  /-- A character, and how many bytes follow its first one. -/
  | char (c : Char) (following : Nat)
  /-- Bytes that are no character, and how many. -/
  | invalid (length : Nat)
  /-- A character whose last bytes are missing. -/
  | incomplete
deriving Repr, DecidableEq

/-- A character of two bytes. -/
def charOfTwo (a : UInt8) : List UInt8 → CharAt
  | [] => .incomplete
  | b :: _ =>
    if isSecond a b then .char (Char.ofNat (a.toNat % 32 * 64 + bits b)) 1 else .invalid 1

/-- A character of three bytes. -/
def charOfThree (a : UInt8) : List UInt8 → CharAt
  | [] => .incomplete
  | b :: bs =>
    if isSecond a b then
      match bs with
      | [] => .incomplete
      | c :: _ =>
        if isFollowing c then .char (Char.ofNat (a.toNat % 16 * 4096 + bits b * 64 + bits c)) 2
        else .invalid 2
    else .invalid 1

/-- A character of four bytes. -/
def charOfFour (a : UInt8) : List UInt8 → CharAt
  | [] => .incomplete
  | b :: bs =>
    if isSecond a b then
      match bs with
      | [] => .incomplete
      | c :: cs =>
        if isFollowing c then
          match cs with
          | [] => .incomplete
          | d :: _ =>
            if isFollowing d then
              .char (Char.ofNat (a.toNat % 8 * 262144 + bits b * 4096 + bits c * 64 + bits d)) 3
            else .invalid 3
        else .invalid 2
    else .invalid 1

/-- What stands at the byte `a`, which `bs` follow. -/
def charAt (a : UInt8) (bs : List UInt8) : CharAt :=
  match Lead.ofByte a with
  | .alone => .char (Char.ofNat a.toNat) 0
  | .one => charOfTwo a bs
  | .two => charOfThree a bs
  | .three => charOfFour a bs
  | .none => .invalid 1

/-- The characters from place `i` on, after those in `done`, which are in reverse; the first `skip`
bytes belong to the last one of them. -/
def decodeFrom : Nat → Nat → List Char → List UInt8 → Except Utf8Fault (List Char)
  | _, _, done, [] => .ok done.reverse
  | i, skip + 1, done, _ :: bs => decodeFrom (i + 1) skip done bs
  | i, 0, done, a :: bs =>
    match charAt a bs with
    | .char c following => decodeFrom (i + 1) following (c :: done) bs
    | .invalid length => .error (.invalid length i)
    | .incomplete => .error (.incomplete i)

/-- The text that bytes stand for. -/
def decode (bytes : List UInt8) : Except Utf8Fault String :=
  (decodeFrom 0 0 [] bytes).map String.ofList

end JobIndex.Text
