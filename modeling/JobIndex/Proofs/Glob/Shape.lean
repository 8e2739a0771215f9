import JobIndex.Glob.Shape
import Mathlib.Data.List.Basic

/-!
# Deciding shapes

The marks that `Shape.reach` keeps say where sequences of the shape end that start at a mark
(`Shape.reach_iff`): each kind of shape takes marks to marks, and one shape after another takes them
in two steps. With a single mark at the start, the one at the end says whether all bytes are of the
shape (`Shape.fits_iff_holds`).
-/

namespace JobIndex.Glob.Shape

variable {a b : Shape} {s : ByteSet} {bytes bs : List UInt8} {marks : List Bool} {i j : Nat}

/-! ### Which bytes are of a shape -/

@[simp] theorem holds_nothing_iff :
  Holds .nothing bs ↔ bs = []
  := by
  constructor
  · rintro ⟨⟩
    rfl
  · rintro rfl
    apply Holds.nothing

@[simp] theorem holds_one_iff :
  Holds (.one s) bs ↔ ∃ b, s.has b = true ∧ bs = [b]
  := by
  constructor
  · rintro ⟨⟩
    next b hb => exact ⟨b, hb, rfl⟩
  · rintro ⟨b, hb, rfl⟩
    apply Holds.one hb

@[simp] theorem holds_many_iff :
  Holds (.many s) bs ↔ ∀ b ∈ bs, s.has b = true
  := by
  constructor
  · rintro ⟨⟩
    assumption
  · apply Holds.many

theorem holds_followed_iff :
  Holds (.followed a b) bs ↔ ∃ front rest, Holds a front ∧ Holds b rest ∧ bs = front ++ rest
  := by
  constructor
  · rintro ⟨⟩
    next front rest hfront hrest => exact ⟨front, rest, hfront, hrest, rfl⟩
  · rintro ⟨front, rest, hfront, hrest, rfl⟩
    apply Holds.followed hfront hrest

@[simp] theorem holds_either_iff :
  Holds (.either a b) bs ↔ Holds a bs ∨ Holds b bs
  := by
  constructor
  · rintro ⟨⟩
    · next h => exact Or.inl h
    · next h => exact Or.inr h
  · rintro (h | h)
    · apply Holds.left h
    · apply Holds.right h

/-- One shape after another holds what both hold one after the other. -/
theorem holds_andThen_iff :
  Holds (a.andThen b) bs ↔ ∃ front rest, Holds a front ∧ Holds b rest ∧ bs = front ++ rest
  := by
  cases a
  case nothing => simp [andThen]
  all_goals apply holds_followed_iff

/-! ### Where marks lead to -/

/-- The bytes between two points. -/
def between (bytes : List UInt8) (i j : Nat) : List UInt8 :=
  (bytes.take j).drop i

theorem length_between (hj : j ≤ bytes.length) :
  (between bytes i j).length = j - i
  := by
  rw [between, List.length_drop, List.length_take, Nat.min_eq_left hj]

/-- Bytes between two points are cut in two at a point between these. -/
theorem between_eq_append_iff {front rest : List UInt8} (hij : i ≤ j) (hj : j ≤ bytes.length) :
  between bytes i j = front ++ rest ↔
    ∃ k, i ≤ k ∧ k ≤ j ∧ between bytes i k = front ∧ between bytes k j = rest
  := by
  -- cutting after `n` bytes is cutting at the point `i + n`
  have hcut : ∀ n, i + n ≤ j →
      (between bytes i j).take n = between bytes i (i + n) ∧
        (between bytes i j).drop n = between bytes (i + n) j := by
    intro n hn
    constructor
    · rw [between, between, List.take_drop, List.take_take, Nat.min_eq_left hn]
    · rw [between, between, List.drop_drop]
  constructor
  · intro h
    have hlength : j - i = front.length + rest.length := by
      rw [← length_between hj, h, List.length_append]
    obtain ⟨htake, hdrop⟩ := hcut front.length (by omega)
    rw [h, List.take_left] at htake
    rw [h, List.drop_left] at hdrop
    exact ⟨i + front.length, by omega, by omega, htake.symm, hdrop.symm⟩
  · rintro ⟨k, hik, hkj, rfl, rfl⟩
    obtain ⟨n, rfl⟩ := Nat.exists_eq_add_of_le hik
    obtain ⟨htake, hdrop⟩ := hcut n hkj
    rw [← htake, ← hdrop, List.take_append_drop]

/-- There is a mark before each of the bytes, and one for their end. -/
def MarksPoints (bytes : List UInt8) (marks : List Bool) : Prop :=
  marks.length = bytes.length + 1

theorem MarksPoints.afterOne (h : MarksPoints bytes marks) (s : ByteSet) :
  MarksPoints bytes (afterOne s bytes marks)
  := by
  unfold MarksPoints at *
  rw [Shape.afterOne, List.length_cons, List.length_zipWith]
  omega

theorem MarksPoints.afterMany (h : MarksPoints bytes marks) (s : ByteSet) (reached : Bool) :
  MarksPoints bytes (afterMany s reached bytes marks)
  := by
  unfold MarksPoints at *
  induction bytes generalizing reached marks with
  | nil =>
      obtain ⟨m, rfl⟩ := List.length_eq_one_iff.mp h
      rfl
  | cons b bytes ih =>
      cases marks with
      | nil => cases h
      | cons m marks =>
          rw [Shape.afterMany, List.length_cons, ih (Nat.succ_inj.mp h), List.length_cons]

/-- Marks at all points lead to marks at all points. -/
theorem MarksPoints.reach (h : MarksPoints bytes marks) (a : Shape) :
  MarksPoints bytes (a.reach bytes marks)
  := by
  induction a generalizing marks with
  | nothing => exact h
  | one s => apply h.afterOne
  | many s => apply h.afterMany
  | followed a b iha ihb => apply ihb (iha h)
  | either a b iha ihb =>
      have ha := iha h
      have hb := ihb h
      unfold MarksPoints at *
      rw [Shape.reach, List.length_zipWith, ha, hb, Nat.min_self]

theorem between_succ (hi : i < bytes.length) :
  between bytes i (i + 1) = [bytes[i]]
  := by
  rw [between, List.take_add_one, List.getElem?_eq_getElem hi, Option.toList_some,
    List.drop_append_of_le_length (by rw [List.length_take]; omega),
    List.drop_eq_nil_of_le (List.length_take_le ..), List.nil_append]

/-- One byte of a set leads from a mark to the next point. -/
theorem afterOne_iff (hj : j ≤ bytes.length) :
  (afterOne s bytes marks)[j]? = some true ↔
    ∃ i ≤ j, marks[i]? = some true ∧ ∃ b, s.has b = true ∧ between bytes i j = [b]
  := by
  cases j with
  | zero => simp [afterOne, between]
  | succ j =>
      rw [afterOne, List.getElem?_cons_succ, List.getElem?_zipWith_eq_some]
      constructor
      · rintro ⟨b, m, hb, hm, hmark⟩
        rw [Bool.and_eq_true] at hmark
        obtain ⟨rfl, hhas⟩ := hmark
        obtain ⟨hj', rfl⟩ := List.getElem?_eq_some_iff.mp hb
        exact ⟨j, by omega, hm, _, hhas, between_succ hj'⟩
      · rintro ⟨i, -, hm, b, hhas, hbetween⟩
        have hlength := length_between (i := i) hj
        rw [hbetween, List.length_singleton] at hlength
        obtain rfl : i = j := by omega
        rw [between_succ hj] at hbetween
        obtain ⟨rfl⟩ := List.cons.inj hbetween
        exact ⟨_, true, List.getElem?_eq_getElem hj, hm, by rw [hhas, Bool.and_true]⟩

/-- Bytes of a set lead from a mark to all points behind them; `reached` counts as a mark at the
first point. -/
theorem afterMany_iff (s : ByteSet) (reached : Bool) (h : MarksPoints bytes marks)
    (hj : j ≤ bytes.length) :
  (afterMany s reached bytes marks)[j]? = some true ↔
    (reached = true ∧ ∀ b ∈ bytes.take j, s.has b = true) ∨
      ∃ i ≤ j, marks[i]? = some true ∧ ∀ b ∈ between bytes i j, s.has b = true
  := by
  induction bytes generalizing reached marks j with
  | nil =>
      obtain ⟨m, rfl⟩ := List.length_eq_one_iff.mp h
      obtain rfl : j = 0 := Nat.le_zero.mp hj
      simp [afterMany, between]
  | cons b bytes ih =>
      cases marks with
      | nil => cases h
      | cons m marks =>
          cases j with
          | zero => simp [afterMany, between]
          | succ j =>
              rw [afterMany, List.getElem?_cons_succ,
                ih _ (Nat.succ_inj.mp h) (Nat.le_of_succ_le_succ hj)]
              -- the first mark, and those behind it
              have hmarks : ∀ P : Nat → Prop,
                  (∃ i ≤ j + 1, (m :: marks)[i]? = some true ∧ P i) ↔
                    (m = true ∧ P 0) ∨ ∃ i ≤ j, marks[i]? = some true ∧ P (i + 1) := by
                intro P
                constructor
                · rintro ⟨i, hi, hm, hP⟩
                  cases i with
                  | zero => exact Or.inl ⟨Option.some.inj hm, hP⟩
                  | succ i => exact Or.inr ⟨i, by omega, hm, hP⟩
                · rintro (⟨rfl, hP⟩ | ⟨i, hi, hm, hP⟩)
                  · exact ⟨0, by omega, rfl, hP⟩
                  · exact ⟨i + 1, by omega, hm, hP⟩
              rw [hmarks]
              simp only [between, List.take_succ_cons, List.drop_zero, List.drop_succ_cons,
                List.forall_mem_cons, Bool.and_eq_true, Bool.or_eq_true]
              tauto

/-- Bytes of a shape lead from a mark to the point behind them. -/
theorem reach_iff (a : Shape) (h : MarksPoints bytes marks) (hj : j ≤ bytes.length) :
  (a.reach bytes marks)[j]? = some true ↔
    ∃ i ≤ j, marks[i]? = some true ∧ Holds a (between bytes i j)
  := by
  induction a generalizing marks j with
  | nothing =>
      simp only [holds_nothing_iff, reach]
      constructor
      · intro hmark
        refine ⟨j, Nat.le_refl j, hmark, ?_⟩
        rw [← List.length_eq_zero_iff, length_between hj, Nat.sub_self]
      · rintro ⟨i, hi, hmark, hbetween⟩
        rw [← List.length_eq_zero_iff, length_between hj] at hbetween
        obtain rfl : i = j := by omega
        exact hmark
  | one s =>
      simp only [holds_one_iff]
      apply afterOne_iff hj
  | many s =>
      simp only [holds_many_iff]
      rw [reach, afterMany_iff s false h hj]
      simp
  | followed a b iha ihb =>
      rw [reach, ihb (h.reach a) hj]
      constructor
      · rintro ⟨k, hk, hmark, hb⟩
        obtain ⟨i, hi, hmark, ha⟩ := (iha h (Nat.le_trans hk hj)).mp hmark
        refine ⟨i, Nat.le_trans hi hk, hmark, holds_followed_iff.mpr ⟨_, _, ha, hb, ?_⟩⟩
        apply (between_eq_append_iff (Nat.le_trans hi hk) hj).mpr
        exact ⟨k, hi, hk, rfl, rfl⟩
      · rintro ⟨i, hi, hmark, hab⟩
        obtain ⟨front, rest, ha, hb, hbetween⟩ := holds_followed_iff.mp hab
        obtain ⟨k, hik, hk, rfl, rfl⟩ := (between_eq_append_iff hi hj).mp hbetween
        exact ⟨k, hk, (iha h (Nat.le_trans hk hj)).mpr ⟨i, hik, hmark, ha⟩, hb⟩
  | either a b iha ihb =>
      have hlength := h.reach a
      have hlength' := h.reach b
      unfold MarksPoints at hlength hlength'
      simp only [holds_either_iff, and_or_left, exists_or, ← iha h hj, ← ihb h hj, reach]
      rw [List.getElem?_zipWith, List.getElem?_eq_getElem (by omega),
        List.getElem?_eq_getElem (by omega)]
      simp

/-- A shape fits exactly the bytes that are of it. -/
theorem fits_iff_holds :
  a.fits bytes = true ↔ a.Holds bytes
  := by
  have hstart : MarksPoints bytes (true :: bytes.map fun _ => false) := by
    rw [MarksPoints, List.length_cons, List.length_map]
  have hlast : (a.reach bytes (true :: bytes.map fun _ => false)).getLast?
      = (a.reach bytes (true :: bytes.map fun _ => false))[bytes.length]? := by
    rw [List.getLast?_eq_getElem?, hstart.reach a, Nat.add_sub_cancel]
  have hfits : a.fits bytes = true ↔
      (a.reach bytes (true :: bytes.map fun _ => false))[bytes.length]? = some true := by
    rw [fits, hlast]
    cases (a.reach bytes (true :: bytes.map fun _ => false))[bytes.length]? <;> simp
  rw [hfits, reach_iff a hstart (Nat.le_refl _)]
  have hall : between bytes 0 bytes.length = bytes := by
    rw [between, List.take_length, List.drop_zero]
  constructor
  · rintro ⟨i, -, hmark, hholds⟩
    -- the only mark is that at the start
    cases i with
    | zero => rwa [hall] at hholds
    | succ i =>
        rw [List.getElem?_cons_succ, List.getElem?_map, Option.map_eq_some_iff] at hmark
        obtain ⟨b, -, hfalse⟩ := hmark
        cases hfalse
  · intro h
    refine ⟨0, Nat.zero_le _, rfl, ?_⟩
    rwa [hall]

end JobIndex.Glob.Shape
