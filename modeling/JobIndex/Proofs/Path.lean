import JobIndex.Path

/-!
# Paths as keys

Paths are equal when they have the same parts, however they are spelled. This is an equivalence, and
the order of paths is a linear order whose equality it is.
-/

namespace JobIndex.Path

/-- Paths are equal exactly when they have the same parts. -/
theorem beq_iff_parts {p q : Path} :
  (p == q) = true ↔ p.parts = q.parts
  := by
  show (p.parts == q.parts) = true ↔ p.parts = q.parts
  apply beq_iff_eq

instance : EquivBEq Path where
  rfl := beq_iff_parts.mpr rfl
  symm h := beq_iff_parts.mpr (beq_iff_parts.mp h).symm
  trans h h' := beq_iff_parts.mpr ((beq_iff_parts.mp h).trans (beq_iff_parts.mp h'))

theorem map_toNat_injective {cs ds : List Char} (h : cs.map Char.toNat = ds.map Char.toNat) :
  cs = ds
  := by
  apply List.map_inj_right _ |>.mp h
  intro c d hcd
  apply Char.ext
  apply UInt32.toNat.inj hcd

/-- A part is determined by its place in the order of parts. -/
theorem Part.key_injective {a b : Part} (h : a.key = b.key) :
  a = b
  := by
  cases a <;> cases b <;> simp_all [Part.key]
  apply String.toList_injective
  apply map_toNat_injective h

theorem key_eq_iff {p q : Path} :
  p.key = q.key ↔ p.parts = q.parts
  := by
  constructor
  · intro h
    apply List.map_inj_right _ |>.mp h
    intro a b
    apply Part.key_injective
  · intro h
    rw [key, key, h]

instance : Std.TransOrd Path where
  eq_swap := Std.OrientedOrd.eq_swap (α := List (List Nat))
  isLE_trans := Std.TransOrd.isLE_trans (α := List (List Nat))

/-- Equal paths have the same place in the order. -/
instance : Std.LawfulBEqOrd Path where
  compare_eq_iff_beq {p q} := by
    rw [beq_iff_parts, ← key_eq_iff]
    apply Std.LawfulEqOrd.compare_eq_iff_eq (α := List (List Nat))

/-- Of what is left when a file has been taken out, nothing stands in that file, and all else stands
where it stood. -/
theorem filter_filter_not {α : Type} (fileOf : α → Path) (as : List α) (file other : Path) :
  (as.filter fun a => !(fileOf a == file)).filter (fun a => fileOf a == other)
    = if file == other then [] else as.filter fun a => fileOf a == other
  := by
  rw [List.filter_filter]
  split
  · next h =>
    apply List.filter_eq_nil_iff.mpr
    intro a _
    rw [BEq.congr_right h]
    cases fileOf a == other <;> simp
  · next h =>
    apply List.filter_congr
    intro a _
    cases hother : fileOf a == other with
    | false => rfl
    | true =>
        cases hfile : fileOf a == file with
        | false => rfl
        | true =>
            exfalso
            apply h (BEq.trans (BEq.symm hfile) hother)

/-- Of what stands in one file, all or nothing stands in another one. -/
theorem filter_of_standsIn {α : Type} (fileOf : α → Path) {as : List α} {file : Path}
    (h : ∀ a ∈ as, (fileOf a == file) = true) (other : Path) :
  as.filter (fun a => fileOf a == other) = if file == other then as else []
  := by
  cases hother : file == other with
  | true =>
      apply List.filter_eq_self.mpr
      intro a ha
      apply BEq.trans (h a ha) hother
  | false =>
      apply List.filter_eq_nil_iff.mpr
      intro a ha
      rw [BEq.congr_left (h a ha), hother]
      exact Bool.false_ne_true

end JobIndex.Path
