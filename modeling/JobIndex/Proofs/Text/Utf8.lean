import JobIndex.Text.Line
import JobIndex.Text.Utf8
import Mathlib.Tactic.SplitIfs

/-!
# Text read back from its bytes

What `encode` writes, `decode` reads back: the first byte of a character tells how many bytes
follow, each of these is in its range, and together they give the code of the character again.
The ranges leave each character one form only, so `decode` reads a text from nothing but its bytes.
-/

namespace JobIndex.Text

/-! ### Bytes by their numbers -/

theorem toNat_byte {n : Nat} (h : n < 256) :
  (byte n).toNat = n
  := by
  rw [byte, UInt8.toNat_ofNat']
  omega

theorem isFollowing_iff (b : UInt8) :
  isFollowing b = true ↔ 0x80 ≤ b.toNat ∧ b.toNat ≤ 0xBF
  := by
  simp [isFollowing, UInt8.le_iff_toNat_le]

/-- A second byte is one that may follow, from which some first bytes cut a part. -/
theorem isSecond_iff (first b : UInt8) :
  isSecond first b = true ↔ (0x80 ≤ b.toNat ∧ b.toNat ≤ 0xBF) ∧
    (first.toNat = 0xE0 → 0xA0 ≤ b.toNat) ∧ (first.toNat = 0xED → b.toNat ≤ 0x9F) ∧
    (first.toNat = 0xF0 → 0x90 ≤ b.toNat) ∧ (first.toNat = 0xF4 → b.toNat ≤ 0x8F)
  := by
  simp only [isSecond, isFollowing, beq_iff_eq, ← UInt8.toNat_inj, UInt8.le_iff_toNat_le,
    UInt8.reduceToNat]
  split_ifs <;> simp only [Bool.and_eq_true, decide_eq_true_eq] <;> omega

theorem ofByte_eq (a : UInt8) :
  Lead.ofByte a =
    if a.toNat < 0x80 then .alone
    else if 0xC2 ≤ a.toNat ∧ a.toNat ≤ 0xDF then .one
    else if 0xE0 ≤ a.toNat ∧ a.toNat ≤ 0xEF then .two
    else if 0xF0 ≤ a.toNat ∧ a.toNat ≤ 0xF4 then .three
    else .none
  := by
  simp only [Lead.ofByte, UInt8.lt_iff_toNat_lt, UInt8.le_iff_toNat_le, UInt8.reduceToNat,
    Bool.and_eq_true, decide_eq_true_eq]

/-! ### A character from its bytes -/

variable {n : Nat} (bs : List UInt8)

theorem charAt_one (h : n < 0x80) :
  charAt (byte n) bs = .char (Char.ofNat n) 0
  := by
  have hfirst := toNat_byte (n := n) (by omega)
  rw [charAt, ofByte_eq, hfirst, if_pos h]

theorem charAt_two (h : 0x80 ≤ n) (h' : n < 0x800) :
  charAt (byte (0xC0 + n / 64)) (byte (0x80 + n % 64) :: bs) = .char (Char.ofNat n) 1
  := by
  have hfirst := toNat_byte (n := 0xC0 + n / 64) (by omega)
  have hsecond := toNat_byte (n := 0x80 + n % 64) (by omega)
  have hlead : Lead.ofByte (byte (0xC0 + n / 64)) = .one := by
    rw [ofByte_eq, hfirst, if_neg (by omega), if_pos (by omega)]
  have hin : isSecond (byte (0xC0 + n / 64)) (byte (0x80 + n % 64)) = true := by
    rw [isSecond_iff, hfirst, hsecond]
    omega
  have hcode : (0xC0 + n / 64) % 32 * 64 + (0x80 + n % 64) % 64 = n := by omega
  simp only [charAt, hlead, charOfTwo, hin, if_true, bits, hfirst, hsecond, hcode]

theorem charAt_three (h : 0x800 ≤ n) (h' : n < 0x10000) (hsurrogate : n < 0xD800 ∨ 0xDFFF < n) :
  charAt (byte (0xE0 + n / 4096)) (byte (0x80 + n / 64 % 64) :: byte (0x80 + n % 64) :: bs)
    = .char (Char.ofNat n) 2
  := by
  have hfirst := toNat_byte (n := 0xE0 + n / 4096) (by omega)
  have hsecond := toNat_byte (n := 0x80 + n / 64 % 64) (by omega)
  have hthird := toNat_byte (n := 0x80 + n % 64) (by omega)
  have hlead : Lead.ofByte (byte (0xE0 + n / 4096)) = .two := by
    rw [ofByte_eq, hfirst, if_neg (by omega), if_neg (by omega), if_pos (by omega)]
  have hin : isSecond (byte (0xE0 + n / 4096)) (byte (0x80 + n / 64 % 64)) = true := by
    rw [isSecond_iff, hfirst, hsecond]
    omega
  have hin' : isFollowing (byte (0x80 + n % 64)) = true := by
    rw [isFollowing_iff, hthird]
    omega
  have hcode : (0xE0 + n / 4096) % 16 * 4096 + (0x80 + n / 64 % 64) % 64 * 64
      + (0x80 + n % 64) % 64 = n := by omega
  simp only [charAt, hlead, charOfThree, hin, hin', if_true, bits, hfirst, hsecond, hthird, hcode]

theorem charAt_four (h : 0x10000 ≤ n) (h' : n < 0x110000) :
  charAt (byte (0xF0 + n / 262144)) (byte (0x80 + n / 4096 % 64) :: byte (0x80 + n / 64 % 64)
      :: byte (0x80 + n % 64) :: bs)
    = .char (Char.ofNat n) 3
  := by
  have hfirst := toNat_byte (n := 0xF0 + n / 262144) (by omega)
  have hsecond := toNat_byte (n := 0x80 + n / 4096 % 64) (by omega)
  have hthird := toNat_byte (n := 0x80 + n / 64 % 64) (by omega)
  have hfourth := toNat_byte (n := 0x80 + n % 64) (by omega)
  have hlead : Lead.ofByte (byte (0xF0 + n / 262144)) = .three := by
    rw [ofByte_eq, hfirst, if_neg (by omega), if_neg (by omega), if_neg (by omega),
      if_pos (by omega)]
  have hin : isSecond (byte (0xF0 + n / 262144)) (byte (0x80 + n / 4096 % 64)) = true := by
    rw [isSecond_iff, hfirst, hsecond]
    omega
  have hin' : isFollowing (byte (0x80 + n / 64 % 64)) = true := by
    rw [isFollowing_iff, hthird]
    omega
  have hin'' : isFollowing (byte (0x80 + n % 64)) = true := by
    rw [isFollowing_iff, hfourth]
    omega
  have hcode : (0xF0 + n / 262144) % 8 * 262144 + (0x80 + n / 4096 % 64) % 64 * 4096
      + (0x80 + n / 64 % 64) % 64 * 64 + (0x80 + n % 64) % 64 = n := by omega
  simp only [charAt, hlead, charOfFour, hin, hin', hin'', if_true, bits, hfirst, hsecond, hthird,
    hfourth, hcode]

/-- At the bytes of a character stands that character, whatever follows. -/
theorem charAt_encodeCode (c : Char) :
  ∃ a following, encodeCode c.toNat = a :: following ∧
    ∀ bs, charAt a (following ++ bs) = .char c following.length
  := by
  have hvalid : c.toNat < 0xD800 ∨ 0xDFFF < c.toNat ∧ c.toNat < 0x110000 := c.valid
  have hc : Char.ofNat c.toNat = c := Char.ofNat_toNat c
  unfold encodeCode
  split_ifs with h1 h2 h3
  · refine ⟨_, _, rfl, fun bs => ?_⟩
    rw [List.nil_append, charAt_one bs h1, hc]
    rfl
  · refine ⟨_, _, rfl, fun bs => ?_⟩
    rw [List.cons_append, List.nil_append, charAt_two bs (by omega) h2, hc]
    rfl
  · refine ⟨_, _, rfl, fun bs => ?_⟩
    rw [List.cons_append, List.cons_append, List.nil_append,
      charAt_three bs (by omega) h3 (by omega), hc]
    rfl
  · refine ⟨_, _, rfl, fun bs => ?_⟩
    rw [List.cons_append, List.cons_append, List.cons_append, List.nil_append,
      charAt_four bs (by omega) (by omega), hc]
    rfl

/-! ### Whole texts -/

theorem decodeFrom_skip (i : Nat) (done : List Char) (skipped bs : List UInt8) :
  decodeFrom i skipped.length done (skipped ++ bs) = decodeFrom (i + skipped.length) 0 done bs
  := by
  induction skipped generalizing i with
  | nil => rfl
  | cons b skipped ih =>
      rw [List.length_cons, List.cons_append, decodeFrom, ih]
      congr 1
      omega

theorem decodeFrom_encodeCode (i : Nat) (done : List Char) (c : Char) (bs : List UInt8) :
  ∃ j, decodeFrom i 0 done (encodeCode c.toNat ++ bs) = decodeFrom j 0 (c :: done) bs
  := by
  obtain ⟨a, following, hcode, hchar⟩ := charAt_encodeCode c
  rw [hcode, List.cons_append, decodeFrom, hchar]
  dsimp only
  rw [decodeFrom_skip]
  exact ⟨_, rfl⟩

theorem decodeFrom_flatMap (i : Nat) (done cs : List Char) :
  decodeFrom i 0 done (cs.flatMap fun c => encodeCode c.toNat) = .ok (done.reverse ++ cs)
  := by
  induction cs generalizing i done with
  | nil => rw [List.flatMap_nil, decodeFrom, List.append_nil]
  | cons c cs ih =>
      rw [List.flatMap_cons]
      obtain ⟨j, hj⟩ := decodeFrom_encodeCode i done c (cs.flatMap fun c => encodeCode c.toNat)
      rw [hj, ih, List.reverse_cons, List.append_assoc, List.singleton_append]

/-- A text is read back from its bytes. -/
theorem decode_encode (text : String) :
  decode (encode text) = .ok text
  := by
  rw [decode, encode, decodeFrom_flatMap, List.reverse_nil, List.nil_append]
  show Except.ok (String.ofList text.toList) = .ok text
  rw [String.ofList_toList]

/-! ### Bytes from what has been read -/

theorem byte_eq {n : Nat} {b : UInt8} (h : n = b.toNat) :
  byte n = b
  := by
  rw [h, byte, UInt8.ofNat_toNat]

theorem toNat_ofNat {n : Nat} (h : n.isValidChar) :
  (Char.ofNat n).toNat = n
  := by
  rw [Char.ofNat, dif_pos h]
  rfl

variable {a : UInt8} {bs : List UInt8} {c : Char} {following : Nat}

theorem encodeCode_of_charOfTwo (hlead : 0xC2 ≤ a.toNat ∧ a.toNat ≤ 0xDF)
    (h : charOfTwo a bs = .char c following) :
  encodeCode c.toNat ++ bs.drop following = a :: bs
  := by
  revert h
  fun_cases charOfTwo a bs <;> intro h <;> cases h
  next b bs hb =>
  have hb := (isSecond_iff a b).mp hb
  rw [bits, toNat_ofNat (Or.inl (by omega)), encodeCode, if_neg (by omega), if_pos (by omega),
    byte_eq (b := a) (by omega), byte_eq (b := b) (by omega)]
  rfl

theorem encodeCode_of_charOfThree (hlead : 0xE0 ≤ a.toNat ∧ a.toNat ≤ 0xEF)
    (h : charOfThree a bs = .char c following) :
  encodeCode c.toNat ++ bs.drop following = a :: bs
  := by
  revert h
  fun_cases charOfThree a bs <;> intro h <;> cases h
  next b hb d bs hd =>
  have hb := (isSecond_iff a b).mp hb
  have hd := (isFollowing_iff d).mp hd
  have hvalid : (a.toNat % 16 * 4096 + b.toNat % 64 * 64 + d.toNat % 64).isValidChar := by
    unfold Nat.isValidChar
    omega
  rw [bits, bits, toNat_ofNat hvalid, encodeCode, if_neg (by omega), if_neg (by omega),
    if_pos (by omega), byte_eq (b := a) (by omega), byte_eq (b := b) (by omega),
    byte_eq (b := d) (by omega)]
  rfl

theorem encodeCode_of_charOfFour (hlead : 0xF0 ≤ a.toNat ∧ a.toNat ≤ 0xF4)
    (h : charOfFour a bs = .char c following) :
  encodeCode c.toNat ++ bs.drop following = a :: bs
  := by
  revert h
  fun_cases charOfFour a bs <;> intro h <;> cases h
  next b hb d hd e bs he =>
  have hb := (isSecond_iff a b).mp hb
  have hd := (isFollowing_iff d).mp hd
  have he := (isFollowing_iff e).mp he
  have hvalid : (a.toNat % 8 * 262144 + b.toNat % 64 * 4096 + d.toNat % 64 * 64
      + e.toNat % 64).isValidChar := by
    unfold Nat.isValidChar
    omega
  rw [bits, bits, bits, toNat_ofNat hvalid, encodeCode, if_neg (by omega), if_neg (by omega),
    if_neg (by omega), byte_eq (b := a) (by omega), byte_eq (b := b) (by omega),
    byte_eq (b := d) (by omega), byte_eq (b := e) (by omega)]
  rfl

/-- A character that has been read from bytes has these bytes. -/
theorem encodeCode_of_charAt (h : charAt a bs = .char c following) :
  encodeCode c.toNat ++ bs.drop following = a :: bs
  := by
  rw [charAt, ofByte_eq] at h
  split_ifs at h with h1 h2 h3 h4
  · cases h
    rw [toNat_ofNat (Or.inl (by omega)), encodeCode, if_pos h1, byte_eq rfl]
    rfl
  · apply encodeCode_of_charOfTwo h2 h
  · apply encodeCode_of_charOfThree h3 h
  · apply encodeCode_of_charOfFour h4 h

theorem flatMap_of_decodeFrom {i skip : Nat} {done cs : List Char}
    (h : decodeFrom i skip done bs = .ok cs) :
  ∃ read, cs = done.reverse ++ read ∧ read.flatMap (fun c => encodeCode c.toNat) = bs.drop skip
  := by
  induction bs generalizing i skip done with
  | nil =>
      obtain rfl : done.reverse = cs := by
        cases skip <;> exact Except.ok.inj h
      refine ⟨[], ?_, ?_⟩
      · rw [List.append_nil]
      · rw [List.drop_nil, List.flatMap_nil]
  | cons a bs ih =>
      cases skip with
      | succ skip => apply ih h
      | zero =>
          rw [decodeFrom] at h
          split at h
          · next c following hchar =>
            obtain ⟨read, rfl, hread⟩ := ih h
            refine ⟨c :: read, ?_, ?_⟩
            · rw [List.reverse_cons, List.append_assoc, List.singleton_append]
            · rw [List.flatMap_cons, hread, encodeCode_of_charAt hchar, List.drop_zero]
          · cases h
          · cases h

/-- A text that has been read from bytes has these bytes. -/
theorem encode_of_decode {bytes : List UInt8} {text : String} (h : decode bytes = .ok text) :
  encode text = bytes
  := by
  rw [decode] at h
  cases hfrom : decodeFrom 0 0 [] bytes with
  | error e =>
      rw [hfrom] at h
      cases h
  | ok cs =>
      rw [hfrom] at h
      obtain rfl := Except.ok.inj h
      obtain ⟨read, hcs, hread⟩ := flatMap_of_decodeFrom hfrom
      rw [encode, String.toList_ofList, hcs, List.reverse_nil, List.nil_append, hread,
        List.drop_zero]

end JobIndex.Text
