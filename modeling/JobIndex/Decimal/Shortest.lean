/-!
# Shortest decimals

The decimal with the fewest digits that is read back as a given binary number. A finite number of
double width is `m · 2 ^ q`; the decimals that are read back as it lie between the midpoints to its
two neighbours, and on the midpoints too if `m` is even. With more and more digits, the two decimals
around the number are tried, all in whole numbers.
-/

namespace JobIndex.Decimal

/-- The positive number `m · 2 ^ q`. -/
structure Binary where
  m : Nat
  q : Int
  /-- The neighbour below is half as far away as the one above. -/
  narrow : Bool
deriving Repr, DecidableEq

/-- The number with the given bits, without its sign. -/
def Binary.ofBits (bits : Nat) : Binary :=
  let fraction := bits % Nat.pow 2 52
  let exponent : Nat := bits / Nat.pow 2 52 % Nat.pow 2 11
  if exponent == 0 then ⟨fraction, -1074, false⟩
  else ⟨Nat.pow 2 52 + fraction, Int.ofNat exponent - 1075, fraction == 0 && exponent != 1⟩

/-- The decimal `digits · 10 ^ exponent`. -/
structure Numeral where
  digits : Nat
  exponent : Int
deriving Repr, DecidableEq

/-- What quarters of `2 ^ q` and units of `10 ^ e` are to be multiplied by, so that both count the
same. -/
def scales (q e : Int) : Nat × Nat :=
  (Nat.pow 2 (q - 2).toNat * Nat.pow 10 (-e).toNat, Nat.pow 10 e.toNat * Nat.pow 2 (2 - q).toNat)

/-- Whether `digits · 10 ^ e` is read back as a number. -/
def Binary.covers (b : Binary) (e : Int) (digits : Nat) : Bool :=
  let (quarter, unit) := scales b.q e
  let below := (4 * b.m - (if b.narrow then 1 else 2)) * quarter
  let above := (4 * b.m + 2) * quarter
  let value := digits * unit
  if b.m % 2 == 0 then decide (below ≤ value) && decide (value ≤ above)
  else decide (below < value) && decide (value < above)

/-- The decimal nearer to a number among `digits · 10 ^ e` and its successor, the one with even
digits if they are equally near. -/
def Binary.nearer (b : Binary) (e : Int) (digits : Nat) : Nat :=
  let (quarter, unit) := scales b.q e
  let left := 4 * b.m * quarter - digits * unit
  let right := (digits + 1) * unit - 4 * b.m * quarter
  if left < right || (left == right && digits % 2 == 0) then digits else digits + 1

/-- The decimal next to a number that counts units of `10 ^ e`, if it is read back. -/
def Binary.atScale? (b : Binary) (e : Int) : Option Numeral :=
  let (quarter, unit) := scales b.q e
  let digits := 4 * b.m * quarter / unit
  match b.covers e digits, b.covers e (digits + 1) with
  | true, true => some ⟨b.nearer e digits, e⟩
  | true, false => some ⟨digits, e⟩
  | false, true => some ⟨digits + 1, e⟩
  | false, false => none

/-- Whether a number is at least `10 ^ e`. -/
def Binary.reaches (b : Binary) (e : Int) : Bool :=
  let (quarter, unit) := scales b.q e
  decide (unit ≤ 4 * b.m * quarter)

/-- The place of the first digit of a number. -/
def Binary.magnitude (b : Binary) : Int :=
  ((List.range 640).map fun i => 310 - Int.ofNat i).find? b.reaches |>.getD 0

/-- The decimal with the fewest digits that is read back as a number. -/
def Binary.shortest (b : Binary) : Numeral :=
  ((List.range 17).findSome? fun k => b.atScale? (b.magnitude - Int.ofNat k)).getD ⟨0, 0⟩

/-- The same decimal without zeros at the end; at most `n` of them are dropped. -/
def Numeral.trim : Nat → Numeral → Numeral
  | 0, d => d
  | n + 1, d => if d.digits % 10 == 0 then Numeral.trim n ⟨d.digits / 10, d.exponent + 1⟩ else d

/-- So many zeros. -/
def zeros (n : Nat) : String :=
  String.ofList (List.replicate n '0')

/-- An exponent with its sign. -/
def exponentText (e : Int) : String :=
  if 0 ≤ e then "e+" ++ toString e else "e" ++ toString e

/-- A decimal as text: positional between `10 ^ -5` and `10 ^ 16`, and with an exponent beyond. -/
def Numeral.text (d : Numeral) : String :=
  let digits := (toString d.digits).toList
  let point := (digits.length : Int) + d.exponent
  if 0 ≤ d.exponent && point ≤ 16 then String.ofList digits ++ zeros d.exponent.toNat ++ ".0"
  else if 0 < point && point ≤ 16 then
    String.ofList (digits.take point.toNat) ++ "." ++ String.ofList (digits.drop point.toNat)
  else if -5 < point && point ≤ 0 then "0." ++ zeros (-point).toNat ++ String.ofList digits
  else
    let fraction := digits.drop 1
    String.ofList (digits.take 1)
      ++ (if fraction.isEmpty then "" else "." ++ String.ofList fraction)
      ++ exponentText (point - 1)

/-- The shortest text of a finite number. -/
def floatText (f : Float) : String :=
  let bits := f.toBits.toNat
  let sign := if bits ≥ Nat.pow 2 63 then "-" else ""
  let b := Binary.ofBits (bits % Nat.pow 2 63)
  if b.m == 0 then sign ++ "0.0" else sign ++ (b.shortest.trim 20).text

end JobIndex.Decimal
