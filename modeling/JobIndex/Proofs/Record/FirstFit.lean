import JobIndex.Proofs.Record.LeafLocations

/-!
# Leaves take the first location that fits

The leaves of a job look for their locations one after the other, each behind the location that was
given last (`locateLeaves`). A location fits a leaf if it has the text of the leaf; one that is no
item has to stand right behind a location with the last key of its path, and that one must not be
passed over either (`FitsAt`). Told by their indices in the list of locations (`Placed`),

* each leaf is given the first location that fits it, and none if no location fits
  (`locateLeaves_placed`);
* the indices increase, so that no location is given twice (`Placed.pairwise`);
* what has been passed over is never more than there is (`Placed.cursorAfter_le`).

A location that was given to a leaf is not taken for the key of the next one, even if it has the
text of that key (`locatedLeaves_used_key`).
-/

namespace JobIndex

variable {ls : List Location} {cursor i : Nat} {key value : String}

/-! ### Locations that fit a leaf -/

/-- The location with the index `i` fits a leaf with a last key and a value, if `cursor` locations
are passed over. -/
structure FitsAt (ls : List Location) (cursor : Nat) (key value : String) (i : Nat) : Prop where
  unused : cursor ≤ i
  /-- The location has the value of the leaf. -/
  value_eq : ls[i]?.map (·.value) = some value
  /-- The location right before it has the key of the leaf, unless the leaf is an item. -/
  key_eq : isIndexKey key = false →
    ∃ j, cursor ≤ j ∧ i = j + 1 ∧ ls[j]?.map (·.value) = some key

/-- The location with the index `i` is the first one that fits. -/
def FirstFit (ls : List Location) (cursor : Nat) (key value : String) (i : Nat) : Prop :=
  FitsAt ls cursor key value i ∧ ∀ j < i, ¬ FitsAt ls cursor key value j

theorem FitsAt.lt_length (h : FitsAt ls cursor key value i) :
  i < ls.length
  := by
  obtain ⟨l, hl, -⟩ := Option.map_eq_some_iff.mp h.value_eq
  apply (List.getElem?_eq_some_iff.mp hl).choose

/-- To pass locations over is to look in the list without them. -/
theorem fitsAt_drop :
  FitsAt (ls.drop cursor) 0 key value i ↔ FitsAt ls cursor key value (cursor + i)
  := by
  constructor
  · rintro ⟨-, hvalue, hkey⟩
    rw [List.getElem?_drop] at hvalue
    refine ⟨Nat.le_add_right cursor i, hvalue, fun hword => ?_⟩
    obtain ⟨j, -, rfl, hj⟩ := hkey hword
    rw [List.getElem?_drop] at hj
    use cursor + j, Nat.le_add_right cursor j, rfl
  · rintro ⟨-, hvalue, hkey⟩
    rw [← List.getElem?_drop] at hvalue
    refine ⟨Nat.zero_le i, hvalue, fun hword => ?_⟩
    obtain ⟨j, hcursor, hij, hj⟩ := hkey hword
    obtain ⟨j, rfl⟩ := Nat.exists_eq_add_of_le hcursor
    rw [← List.getElem?_drop] at hj
    use j, Nat.zero_le j
    exact ⟨by omega, hj⟩

theorem firstFit_drop (h : FirstFit (ls.drop cursor) 0 key value i) :
  FirstFit ls cursor key value (cursor + i)
  := by
  refine ⟨fitsAt_drop.mp h.1, fun j hj hfits => ?_⟩
  obtain ⟨j, rfl⟩ := Nat.exists_eq_add_of_le hfits.unused
  apply h.2 j (by omega) (fitsAt_drop.mpr hfits)

/-! ### The search for one leaf -/

/-- What a search finds: the first location that fits and what is behind it, or nothing, if there is
no such location. -/
def FindsFirst (ls : List Location) (key value : String) :
    Option (Location × List Location) → Prop
  | some (l, rest) => ∃ i, FirstFit ls 0 key value i ∧ ls[i]? = some l ∧ rest = ls.drop (i + 1)
  | none => ∀ i, ¬ FitsAt ls 0 key value i

/-- One more location in front, which does not make the next one fit, moves what is found. -/
theorem FindsFirst.cons {l : Location} {found : Option (Location × List Location)}
    (h : FindsFirst ls key value found)
    (hfits : ∀ i, FitsAt (l :: ls) 0 key value i → ∃ j, i = j + 1 ∧ FitsAt ls 0 key value j)
    (hmoved : ∀ i, FitsAt ls 0 key value i → FitsAt (l :: ls) 0 key value (i + 1)) :
  FindsFirst (l :: ls) key value found
  := by
  cases found with
  | none =>
      intro i hi
      obtain ⟨j, -, hj⟩ := hfits i hi
      apply h j hj
  | some found =>
      obtain ⟨i, ⟨hi, hfirst⟩, hl, hrest⟩ := h
      refine ⟨i + 1, ⟨hmoved i hi, fun j hj hjfits => ?_⟩, hl, hrest⟩
      obtain ⟨k, rfl, hk⟩ := hfits j hjfits
      apply hfirst k (by omega) hk

theorem not_fitsAt_nil :
  ¬ FitsAt [] 0 key value i
  := by
  intro h
  cases h.lt_length

theorem findsFirst_splitAtItem (hitem : isIndexKey key = true) (value : String)
    (ls : List Location) :
  FindsFirst ls key value (splitAtItem value ls)
  := by
  have hfits : ∀ {ls : List Location} {i : Nat},
      FitsAt ls 0 key value i ↔ ls[i]?.map (·.value) = some value := by
    intro ls i
    refine ⟨fun h => h.value_eq, fun h => ⟨Nat.zero_le i, h, fun hword => ?_⟩⟩
    rw [hitem] at hword
    cases hword
  induction ls with
  | nil => exact fun i => not_fitsAt_nil
  | cons l ls ih =>
      rw [splitAtItem]
      split
      · next hvalue =>
        refine ⟨0, ⟨hfits.mpr (congrArg some (beq_iff_eq.mp hvalue)), ?_⟩, rfl, rfl⟩
        exact fun j hj => absurd hj (Nat.not_lt_zero j)
      · next hvalue =>
        apply ih.cons
        · intro i hi
          cases i with
          | zero => exact absurd (beq_iff_eq.mpr (Option.some.inj hi.value_eq)) hvalue
          | succ i => exact ⟨i, rfl, hfits.mpr hi.value_eq⟩
        · exact fun i hi => hfits.mpr hi.value_eq

theorem findsFirst_splitAtKeyed (hword : isIndexKey key = false) (value : String)
    (ls : List Location) :
  FindsFirst ls key value (splitAtKeyed key value ls)
  := by
  have hbehind : ∀ {ls : List Location} {i : Nat}, FitsAt ls 0 key value i ↔
      ∃ j, i = j + 1 ∧ ls[j]?.map (·.value) = some key ∧
        ls[j + 1]?.map (·.value) = some value := by
    intro ls i
    constructor
    · intro h
      obtain ⟨j, -, rfl, hj⟩ := h.key_eq hword
      exact ⟨j, rfl, hj, h.value_eq⟩
    · rintro ⟨j, rfl, hj, hvalue⟩
      exact ⟨Nat.zero_le _, hvalue, fun _ => ⟨j, Nat.zero_le j, rfl, hj⟩⟩
  induction ls with
  | nil => exact fun i => not_fitsAt_nil
  | cons k ls ih =>
      cases ls with
      | nil =>
          intro i hi
          obtain ⟨j, -, -, hvalue⟩ := hbehind.mp hi
          cases hvalue
      | cons l ls =>
          rw [splitAtKeyed]
          split
          · next hpair =>
            rw [Bool.and_eq_true, beq_iff_eq, beq_iff_eq] at hpair
            refine ⟨1, ⟨hbehind.mpr ⟨0, rfl, congrArg some hpair.1, congrArg some hpair.2⟩, ?_⟩,
              rfl, rfl⟩
            intro j hj hfits
            obtain ⟨m, rfl, -⟩ := hbehind.mp hfits
            omega
          · next hpair =>
            rw [Bool.and_eq_true, beq_iff_eq, beq_iff_eq] at hpair
            apply ih.cons
            · intro i hi
              obtain ⟨j, rfl, hkey, hvalue⟩ := hbehind.mp hi
              cases j with
              | zero => exact absurd ⟨Option.some.inj hkey, Option.some.inj hvalue⟩ hpair
              | succ j => exact ⟨j + 1, rfl, hbehind.mpr ⟨j, rfl, hkey, hvalue⟩⟩
            · intro i hi
              obtain ⟨j, rfl, hkey, hvalue⟩ := hbehind.mp hi
              exact hbehind.mpr ⟨j + 1, rfl, hkey, hvalue⟩

/-- The search for a leaf finds the first location that fits it. -/
theorem findsFirst_splitAtLeaf (key value : String) (ls : List Location) :
  FindsFirst ls key value (splitAtLeaf key value ls)
  := by
  rw [splitAtLeaf]
  split
  · next hitem => exact findsFirst_splitAtItem hitem value ls
  · next hitem => exact findsFirst_splitAtKeyed (Bool.eq_false_of_not_eq_true hitem) value ls

/-! ### The search for all leaves -/

/-- The indices of the locations that leaves are given one after the other, if `cursor` locations
are passed over: for each leaf the first one that fits, behind the one given last. -/
inductive Placed (ls : List Location) :
    Nat → List (String × String) → List (Option Nat) → Prop where
  | nil {cursor : Nat} : cursor ≤ ls.length → Placed ls cursor [] []
  | found {cursor i : Nat} {path value : String} {leaves : List (String × String)}
      {places : List (Option Nat)} : cursor ≤ ls.length →
      FirstFit ls cursor (lastKey path) value i → Placed ls (i + 1) leaves places →
      Placed ls cursor ((path, value) :: leaves) (some i :: places)
  | missed {cursor : Nat} {path value : String} {leaves : List (String × String)}
      {places : List (Option Nat)} : cursor ≤ ls.length →
      (∀ i, ¬ FitsAt ls cursor (lastKey path) value i) → Placed ls cursor leaves places →
      Placed ls cursor ((path, value) :: leaves) (none :: places)

/-- Leaves that are located behind the locations that are passed over have such indices. -/
theorem locateLeaves_placed (leaves : List (String × String)) (hcursor : cursor ≤ ls.length) :
  ∃ places, Placed ls cursor leaves places ∧
    (locateLeaves leaves (ls.drop cursor)).map (·.location?) = places.map (·.bind (ls[·]?))
  := by
  induction leaves generalizing cursor with
  | nil => exact ⟨[], .nil hcursor, rfl⟩
  | cons leaf leaves ih =>
      obtain ⟨path, value⟩ := leaf
      have hfinds := findsFirst_splitAtLeaf (lastKey path) value (ls.drop cursor)
      rw [locateLeaves]
      split
      · next l rest hfound =>
        rw [hfound] at hfinds
        obtain ⟨i, hfirst, hl, rfl⟩ := hfinds
        rw [List.getElem?_drop] at hl
        have hfit := firstFit_drop hfirst
        obtain ⟨places, hplaced, hlocations⟩ := ih (Nat.succ_le_of_lt hfit.1.lt_length)
        refine ⟨some (cursor + i) :: places, .found hcursor hfit hplaced, ?_⟩
        rw [List.drop_drop, List.map_cons, List.map_cons, ← hlocations, Option.bind_some, hl]
        rfl
      · next hfound =>
        rw [hfound] at hfinds
        have hmissed : ∀ i, ¬ FitsAt ls cursor (lastKey path) value i := by
          intro i hi
          obtain ⟨i, rfl⟩ := Nat.exists_eq_add_of_le hi.unused
          apply hfinds i (fitsAt_drop.mpr hi)
        obtain ⟨places, hplaced, hlocations⟩ := ih hcursor
        refine ⟨none :: places, .missed hcursor hmissed hplaced, ?_⟩
        rw [List.map_cons, List.map_cons, ← hlocations]
        rfl

/-- How many locations are passed over once places have been given: those up to the last one. -/
def cursorAfter (cursor : Nat) (places : List (Option Nat)) : Nat :=
  places.foldl (fun cursor place? => place?.elim cursor (· + 1)) cursor

namespace Placed

variable {leaves : List (String × String)} {places : List (Option Nat)}

theorem length_eq (h : Placed ls cursor leaves places) :
  places.length = leaves.length
  := by
  induction h with
  | nil => rfl
  | found _ _ _ ih => rw [List.length_cons, List.length_cons, ih]
  | missed _ _ _ ih => rw [List.length_cons, List.length_cons, ih]

/-- The indices increase, from those passed over on. -/
theorem pairwise (h : Placed ls cursor leaves places) :
  (∀ i ∈ places.filterMap id, cursor ≤ i) ∧ (places.filterMap id).Pairwise (· < ·)
  := by
  induction h with
  | nil => exact ⟨fun i hi => (nomatch hi), List.Pairwise.nil⟩
  | @found cursor i path value leaves places _ hfit _ ih =>
      obtain ⟨hbehind, hpairwise⟩ := ih
      rw [List.filterMap_cons_some (show id (some i) = some i from rfl)]
      constructor
      · intro j hj
        have hcursor := hfit.1.unused
        rcases List.mem_cons.mp hj with rfl | hj
        · exact hcursor
        · have hij := hbehind j hj
          omega
      · apply List.pairwise_cons.mpr
        exact ⟨hbehind, hpairwise⟩
  | missed _ _ _ ih => exact ih

/-- What follows after places have been given. -/
theorem drop (h : Placed ls cursor leaves places) (n : Nat) :
  Placed ls (cursorAfter cursor (places.take n)) (leaves.drop n) (places.drop n)
  := by
  induction n generalizing cursor leaves places with
  | zero => exact h
  | succ n ih =>
      cases h with
      | nil hcursor => exact .nil hcursor
      | found _ _ hplaced => exact ih hplaced
      | missed _ _ hplaced => exact ih hplaced

theorem cursor_le (h : Placed ls cursor leaves places) :
  cursor ≤ ls.length
  := by
  cases h <;> assumption

/-- What is passed over is never more than there is. -/
theorem cursorAfter_le (h : Placed ls cursor leaves places) (n : Nat) :
  cursorAfter cursor (places.take n) ≤ ls.length
  := (h.drop n).cursor_le

/-- A leaf has the place of the first location that fits it, behind all places given before. -/
theorem getElem?_eq_some_iff (h : Placed ls cursor leaves places) {n : Nat} {path value : String}
    (hleaf : leaves[n]? = some (path, value)) :
  (∀ i, places[n]? = some (some i) ↔
      FirstFit ls (cursorAfter cursor (places.take n)) (lastKey path) value i) ∧
    (places[n]? = some none ↔
      ∀ i, ¬ FitsAt ls (cursorAfter cursor (places.take n)) (lastKey path) value i)
  := by
  have hrest := h.drop n
  obtain ⟨hn, hget⟩ := List.getElem?_eq_some_iff.mp hleaf
  have hn' : n < places.length := by rwa [h.length_eq]
  rw [List.getElem?_eq_getElem hn']
  rw [List.drop_eq_getElem_cons hn, List.drop_eq_getElem_cons hn', hget] at hrest
  generalize places[n] = place? at hrest ⊢
  cases hrest with
  | found _ hfit _ =>
      simp only [Option.some.injEq, reduceCtorEq, false_iff]
      constructor
      · intro i
        constructor
        · rintro rfl
          exact hfit
        · intro hi
          apply Nat.le_antisymm
          · apply Nat.le_of_not_lt
            exact fun hlt => hfit.2 _ hlt hi.1
          · apply Nat.le_of_not_lt
            exact fun hlt => hi.2 _ hlt hfit.1
      · exact fun hnone => hnone _ hfit.1
  | missed _ hmissed _ =>
      simp only [Option.some.injEq, reduceCtorEq, false_iff, true_iff]
      exact ⟨fun i hi => hmissed i hi.1, hmissed⟩

end Placed

namespace Job

/-- `places` are the indices of the locations that the leaves of a job are given. -/
structure HasPlaces (job : Job) (places : List (Option Nat)) : Prop where
  /-- There is a place, or none, for each of the leaves, -/
  length_eq : places.length = job.leaves.length
  /-- which keep their paths, their values and their order. -/
  leaves_eq : job.locatedLeaves.map (fun leaf => (leaf.path, leaf.value)) = job.leaves
  locations_eq : job.locatedLeaves.map (·.location?) = places.map (·.bind (job.locations[·]?))
  /-- No place is given twice, and none lies before another that was given earlier. -/
  pairwise : (places.filterMap id).Pairwise (· < ·)
  /-- What is passed over before a search is a part of the locations. -/
  cursor_le : ∀ n, cursorAfter 0 (places.take n) ≤ job.locations.length
  /-- A leaf is given the first location that fits it and is not passed over, -/
  some_iff : ∀ n path value, job.leaves[n]? = some (path, value) → ∀ i,
    places[n]? = some (some i) ↔
      FirstFit job.locations (cursorAfter 0 (places.take n)) (lastKey path) value i
  /-- and none exactly if there is no such location. -/
  none_iff : ∀ n path value, job.leaves[n]? = some (path, value) →
    (places[n]? = some none ↔
      ∀ i, ¬ FitsAt job.locations (cursorAfter 0 (places.take n)) (lastKey path) value i)

/-- Whatever its attributes and its locations are, the leaves of a job are given the first locations
that fit them, one behind the other. -/
theorem locatedLeaves_hasPlaces (job : Job) :
  ∃ places, job.HasPlaces places
  := by
  obtain ⟨places, hplaced, hlocations⟩ :=
    locateLeaves_placed job.leaves (Nat.zero_le job.locations.length)
  use places
  constructor
  · exact hplaced.length_eq
  · exact (locateLeaves_sound job.leaves job.locations).1
  · exact hlocations
  · exact hplaced.pairwise.2
  · exact hplaced.cursorAfter_le
  · exact fun n path value hleaf => (hplaced.getElem?_eq_some_iff hleaf).1
  · exact fun n path value hleaf => (hplaced.getElem?_eq_some_iff hleaf).2

/-- The second leaf of a job is given no location. Yet the last location has its value, stands right
behind one with its key, and stands behind the one given to the first leaf. But that one is the
one with the key. -/
theorem locatedLeaves_used_key :
  let word (value : String) (col : Nat) : Location :=
    ⟨value, ⟨"a.yaml"⟩, 0, 0, col, col + 1, col, col + 1⟩
  let job : Job := ⟨⟨"a.yaml"⟩, [("a", .scalar "b"), ("b", .scalar "c")],
    [word "a" 0, word "b" 3, word "c" 6]⟩
  job.leaves = [("a", "b"), ("b", "c")] ∧ isIndexKey (lastKey "b") = false ∧
    job.locations.map (·.value) = ["a", "b", "c"] ∧
    job.locatedLeaves.map (fun leaf => leaf.location?.map (·.startCol)) = [some 3, none]
  := by
  decide

end Job

end JobIndex
