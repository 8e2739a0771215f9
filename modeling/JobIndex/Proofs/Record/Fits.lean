import JobIndex.Proofs.Cache.Format
import JobIndex.Proofs.Record.Locations
import JobIndex.Proofs.Text.Utf8
import JobIndex.Workspace.Indexer
import Mathlib.Tactic.SplitIfs

/-!
# Records that fit words

A text has no more bytes than it was read from, and the numbers of an exact location count
characters, lines or bytes of the text. So all numbers in the records of a file are at most the
number of its bytes, and fit words if that does.
-/

namespace JobIndex

/-! ### The bytes of a text -/

namespace Text

theorem length_le_byteSize (cs : List Char) :
  cs.length ≤ byteSize cs
  := by
  induction cs with
  | nil => apply Nat.le_refl
  | cons c cs ih =>
      have hpos := c.utf8Size_pos
      rw [List.length_cons, byteSize]
      omega

theorem byteSize_reverse (cs : List Char) :
  byteSize cs.reverse = byteSize cs
  := by
  induction cs with
  | nil => rfl
  | cons c cs ih =>
      rw [List.reverse_cons, byteSize_append, ih, byteSize, byteSize, byteSize]
      apply Nat.add_comm

theorem toNat_ofNat_le (n : Nat) :
  (Char.ofNat n).toNat ≤ n
  := by
  by_cases h : n.isValidChar
  · rw [toNat_ofNat h]
  · rw [Char.ofNat, dif_neg h]
    apply Nat.zero_le

theorem bits_lt (b : UInt8) :
  bits b < 64
  := Nat.mod_lt _ (by decide)

/-- Characters with small codes have few bytes. -/
theorem utf8Size_le (c : Char) :
  c.utf8Size ≤ if c.toNat < 0x80 then 1 else if c.toNat < 0x800 then 2
    else if c.toNat < 0x10000 then 3 else 4
  := by
  simp only [Char.utf8Size, UInt32.le_iff_toNat_le, Char.toNat, UInt32.toNat_ofNatLT]
  split_ifs <;> omega

variable {a : UInt8} {bs : List UInt8} {c : Char} {following : Nat}

theorem charOfTwo_eq (h : charOfTwo a bs = .char c following) :
  c.toNat < 0x800 ∧ following = 1 ∧ 1 ≤ bs.length
  := by
  revert h
  fun_cases charOfTwo a bs <;> intro h <;> cases h
  next b bs _ =>
  have hcode := toNat_ofNat_le (a.toNat % 32 * 64 + bits b)
  have hb := bits_lt b
  rw [List.length_cons]
  omega

theorem charOfThree_eq (h : charOfThree a bs = .char c following) :
  c.toNat < 0x10000 ∧ following = 2 ∧ 2 ≤ bs.length
  := by
  revert h
  fun_cases charOfThree a bs <;> intro h <;> cases h
  next b _ d bs _ =>
  have hcode := toNat_ofNat_le (a.toNat % 16 * 4096 + bits b * 64 + bits d)
  have hb := bits_lt b
  have hd := bits_lt d
  rw [List.length_cons, List.length_cons]
  omega

theorem charOfFour_eq (h : charOfFour a bs = .char c following) :
  following = 3 ∧ 3 ≤ bs.length
  := by
  revert h
  fun_cases charOfFour a bs <;> intro h <;> cases h
  rw [List.length_cons, List.length_cons, List.length_cons]
  omega

/-- A character has no more bytes than it was read from, and these are there. -/
theorem utf8Size_of_charAt (h : charAt a bs = .char c following) :
  c.utf8Size ≤ following + 1 ∧ following ≤ bs.length
  := by
  have hsize := utf8Size_le c
  unfold charAt at h
  split at h
  · next hlead =>
    have ha : a.toNat < 0x80 := by
      rw [ofByte_eq] at hlead
      split_ifs at hlead
      assumption
    cases h
    rw [if_pos (Nat.lt_of_le_of_lt (toNat_ofNat_le _) ha)] at hsize
    exact ⟨hsize, Nat.zero_le _⟩
  · obtain ⟨hcode, rfl, hlength⟩ := charOfTwo_eq h
    split_ifs at hsize <;> omega
  · obtain ⟨hcode, rfl, hlength⟩ := charOfThree_eq h
    split_ifs at hsize <;> omega
  · obtain ⟨rfl, hlength⟩ := charOfFour_eq h
    split_ifs at hsize <;> omega
  · cases h

theorem byteSize_of_decodeFrom {i skip : Nat} {done cs : List Char} {bs : List UInt8}
    (hskip : skip ≤ bs.length) (h : decodeFrom i skip done bs = .ok cs) :
  byteSize cs + skip ≤ byteSize done + bs.length
  := by
  induction bs generalizing i skip done with
  | nil =>
      obtain rfl : done.reverse = cs := by
        cases skip <;> exact Except.ok.inj h
      rw [byteSize_reverse]
      apply Nat.add_le_add_left hskip
  | cons a bs ih =>
      cases skip with
      | succ skip =>
          have hrest := ih (Nat.le_of_succ_le_succ hskip) h
          rw [List.length_cons]
          omega
      | zero =>
          rw [decodeFrom] at h
          split at h
          · next c following hchar =>
            obtain ⟨hsize, hfollowing⟩ := utf8Size_of_charAt hchar
            have hrest := ih hfollowing h
            rw [byteSize] at hrest
            rw [List.length_cons]
            omega
          · cases h
          · cases h

/-- A text has no more bytes than it was read from. -/
theorem byteSize_of_decode {bytes : List UInt8} {text : String} (h : decode bytes = .ok text) :
  byteSize text.toList ≤ bytes.length
  := by
  rw [decode] at h
  cases hfrom : decodeFrom 0 0 [] bytes with
  | error e =>
      rw [hfrom] at h
      cases h
  | ok cs =>
      rw [hfrom] at h
      obtain rfl := Except.ok.inj h
      have hsize := byteSize_of_decodeFrom (Nat.zero_le _) hfrom
      rw [String.toList_ofList]
      simpa [byteSize] using hsize

theorem blanks_le_length (cs : List Char) :
  blanks cs ≤ cs.length
  := by
  apply List.Sublist.length_le
  apply List.takeWhile_sublist

end Text

/-! ### Locations and records -/

/-- The numbers of an exact location are at most the number of bytes of its text. -/
theorem Location.ExactIn.fits {l : Location} {file : Path} {text : String}
    (h : l.ExactIn file text) (hsize : Text.byteSize text.toList < 2 ^ 64) :
  l.Fits
  := by
  obtain ⟨before, lead, tail, ending, after, hline, hindent, hcol, hbyte⟩ := h.stands
  have hcount : l.line ≤ before.length := by
    rw [← hline.number_eq]
    apply List.count_le_length
  have hblanks := Text.blanks_le_length (lead ++ (l.value.toList ++ tail))
  have hbefore := Text.length_le_byteSize before
  have hlead := Text.length_le_byteSize lead
  have hvalue := Text.length_le_byteSize l.value.toList
  have htail := Text.length_le_byteSize tail
  have hendCol := h.endCol_eq
  have hendByte := h.endByte_eq
  rw [← hindent] at hblanks
  rw [hline.text_eq] at hsize
  rw [← String.length_toList] at hendCol
  rw [← Text.byteSize_toList] at hendByte
  simp only [Text.byteSize_append, List.length_append] at hsize hblanks hbyte
  constructor <;> omega

namespace Document

/-- The records in fewer than `2 ^ 64` bytes fit words. -/
theorem ofBytes_fits (sealedTags : List String) (file : Path) {bytes : List UInt8}
    (hsize : bytes.length < 2 ^ 64) :
  (ofBytes sealedTags file bytes).1.Fits
  := by
  unfold ofBytes
  split
  · next text htext =>
    have htextSize := Nat.lt_of_le_of_lt (Text.byteSize_of_decode htext) hsize
    obtain ⟨hjobs, htemplates⟩ := parse_all sealedTags file text
    have hfits : ∀ l, (∃ c ∈ nodes sealedTags text, c.FoundAs file text l) → l.Fits := by
      rintro l ⟨c, hc, hfound⟩
      apply (hfound.exactIn (Yaml.Assembly.indent_of_mem_closings hc)).fits htextSize
    constructor
    · intro job hjob l hl
      apply hfits l ((hjobs job hjob).2 l hl)
    · intro t ht l hl
      apply hfits l ((htemplates t ht).2 l hl)
  · exact ⟨fun _ h => (nomatch h), fun _ h => (nomatch h)⟩

end Document

end JobIndex
