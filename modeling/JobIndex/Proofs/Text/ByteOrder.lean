import JobIndex.Proofs.Text.Utf8
import Mathlib.Data.String.Basic

/-!
# The order of bytes

Texts are ordered by the codes of their characters. This is the order of their bytes
(`encode_lt_encode`): a character with a smaller code has, at the first byte where the two differ,
the smaller one, and its bytes are not the beginning of those of the other.
-/

namespace JobIndex.Text

/-- A byte comes first if it is smaller, or if it is the same and what follows comes first. -/
theorem byte_cons_lt {m n : Nat} {bs cs : List UInt8} (hn : n < 256) (hle : m ≤ n)
    (h : m = n → bs < cs) :
  byte m :: bs < byte n :: cs
  := by
  apply List.cons_lt_cons_iff.mpr
  rcases Nat.lt_or_eq_of_le hle with hlt | heq
  · left
    rw [UInt8.lt_iff_toNat_lt]
    simp only [byte, UInt8.toNat_ofNat']
    omega
  · right
    exact ⟨congrArg byte heq, h heq⟩

/-- The bytes of a character come before those of one with a larger code, whatever follows. -/
theorem encodeCode_append_lt {m n : Nat} (h : m < n) (hn : n < 0x110000) (bs cs : List UInt8) :
  encodeCode m ++ bs < encodeCode n ++ cs
  := by
  unfold encodeCode
  split_ifs
  -- a character with more bytes has a larger first byte; of as many bytes, the first ones may be
  -- the same, but not all
  all_goals apply byte_cons_lt (by omega) (by omega)
  all_goals try omega
  · intro h1
    apply byte_cons_lt (by omega) (by omega)
    omega
  · intro h1
    apply byte_cons_lt (by omega) (by omega)
    intro h2
    apply byte_cons_lt (by omega) (by omega)
    omega
  · intro h1
    apply byte_cons_lt (by omega) (by omega)
    intro h2
    apply byte_cons_lt (by omega) (by omega)
    intro h3
    apply byte_cons_lt (by omega) (by omega)
    omega

theorem flatMap_encodeCode_lt {cs ds : List Char} (h : cs < ds) :
  cs.flatMap (fun c => encodeCode c.toNat) < ds.flatMap (fun c => encodeCode c.toNat)
  := by
  induction cs generalizing ds with
  | nil =>
      cases ds with
      | nil => exact absurd h (List.not_lt_nil [])
      | cons d ds =>
          obtain ⟨a, following, hcode, -⟩ := charAt_encodeCode d
          rw [List.flatMap_nil, List.flatMap_cons, hcode]
          exact List.nil_lt_cons a _
  | cons c cs ih =>
      cases ds with
      | nil => exact absurd h (List.not_lt_nil _)
      | cons d ds =>
          rw [List.flatMap_cons, List.flatMap_cons]
          rcases List.cons_lt_cons_iff.mp h with hlt | ⟨rfl, hlt⟩
          · have hvalid : d.toNat < 0xD800 ∨ 0xDFFF < d.toNat ∧ d.toNat < 0x110000 := d.valid
            have hcode : c.toNat < d.toNat := hlt
            apply encodeCode_append_lt hcode (by omega)
          · apply List.append_left_lt (ih hlt)

/-- Texts are in the order of their bytes. -/
theorem encode_lt_encode {s t : String} (h : s < t) :
  encode s < encode t
  := by
  apply flatMap_encodeCode_lt (String.lt_iff_toList_lt.mp h)

end JobIndex.Text
