import JobIndex.Index.Table
import Mathlib.Data.List.Basic

/-!
# Tables as finite maps

What a table says of a key after another key has been written or erased. A table is `Distinct` when
no two of its keys are equal; then every entry of the table is what the table says of its key. A
table of lists is `Filled` when none of its lists is empty; then it has the keys whose lists are not
empty.
-/

namespace JobIndex.Table

variable {κ ν : Type} [BEq κ]

/-- No two keys are equal. -/
def Distinct (t : Table κ ν) : Prop :=
  t.keys.Pairwise fun a b => (a == b) = false

theorem distinct_nil :
  Distinct ([] : Table κ ν)
  := List.Pairwise.nil

@[simp]
theorem get?_nil (k : κ) :
  get? ([] : Table κ ν) k = none
  := rfl

theorem get?_cons (e : κ × ν) (t : Table κ ν) (k : κ) :
  get? (e :: t) k = if e.1 == k then some e.2 else get? t k
  := by
  unfold get?
  rw [List.find?_cons]
  cases e.1 == k <;> rfl

/-- A table has the keys for which it has a value. -/
theorem has_eq_isSome (t : Table κ ν) (k : κ) :
  t.has k = (t.get? k).isSome
  := by
  rw [has, get?, Option.isSome_map, List.isSome_find?]

/-- A value of a table stands in it with a key equal to the one asked for. -/
theorem mem_of_get? {t : Table κ ν} {k : κ} {v : ν} (h : t.get? k = some v) :
  ∃ k', (k' == k) = true ∧ (k', v) ∈ t
  := by
  obtain ⟨⟨k', v'⟩, hfind, rfl⟩ := Option.map_eq_some_iff.mp h
  use k'
  constructor
  · apply List.find?_some hfind
  · apply List.mem_of_find?_eq_some hfind

/-- Writing a key keeps the keys, and adds this one at the end if it is new. -/
theorem keys_put (t : Table κ ν) (k : κ) (v : ν) :
  (t.put k v).keys = if t.has k then t.keys else t.keys ++ [k]
  := by
  induction t with
  | nil => rfl
  | cons e t ih =>
      rw [put, has, List.any_cons]
      cases he : e.1 == k with
      | true => rfl
      | false =>
          simp only [keys, List.map_cons, Bool.false_or, if_false, Bool.false_eq_true] at ih ⊢
          rw [ih, ← has]
          split <;> rfl

/-- The entries after a key has been written are those there were before and one with the new
value. -/
theorem mem_put {t : Table κ ν} {k : κ} {v : ν} {e : κ × ν} (he : e ∈ t.put k v) :
  e.2 = v ∨ e ∈ t
  := by
  induction t with
  | nil =>
      obtain rfl := List.mem_singleton.mp he
      exact Or.inl rfl
  | cons a t ih =>
      rw [put] at he
      split at he
      · rcases List.mem_cons.mp he with rfl | he
        · exact Or.inl rfl
        · exact Or.inr (List.mem_cons_of_mem a he)
      · rcases List.mem_cons.mp he with rfl | he
        · exact Or.inr List.mem_cons_self
        · apply Or.imp_right (List.mem_cons_of_mem a) (ih he)

theorem Distinct.put {t : Table κ ν} (ht : t.Distinct) (k : κ) (v : ν) :
  (t.put k v).Distinct
  := by
  rw [Distinct, keys_put]
  split
  · apply ht
  · next hk =>
    apply List.pairwise_append.mpr
    refine ⟨ht, List.pairwise_singleton _ _, ?_⟩
    intro a ha b hb
    obtain rfl := List.mem_singleton.mp hb
    obtain ⟨e, he, rfl⟩ := List.mem_map.mp ha
    rw [has, List.any_eq_true] at hk
    rw [← Bool.not_eq_true]
    intro heb
    apply hk ⟨e, he, heb⟩

theorem Distinct.erase {t : Table κ ν} (ht : t.Distinct) (k : κ) :
  (t.erase k).Distinct
  := by
  apply List.Pairwise.sublist _ ht
  apply List.Sublist.map
  apply List.filter_sublist

theorem mem_keys_iff_has [LawfulBEq κ] {t : Table κ ν} {k : κ} :
  k ∈ t.keys ↔ t.has k = true
  := by
  simp only [keys, has, List.mem_map, List.any_eq_true, beq_iff_eq]

theorem Distinct.nodup_keys [LawfulBEq κ] {t : Table κ ν} (ht : t.Distinct) :
  t.keys.Nodup
  := by
  apply List.Pairwise.imp _ ht
  intro a b hab
  apply beq_eq_false_iff_ne.mp hab

variable [EquivBEq κ]

/-- Equal keys have the same value. -/
theorem get?_congr (t : Table κ ν) {k k' : κ} (h : (k == k') = true) :
  t.get? k = t.get? k'
  := by
  unfold get?
  congr 2
  funext e
  apply BEq.congr_right h

/-- After a key has been written it has the new value, and all others have theirs. -/
theorem get?_put (t : Table κ ν) (k : κ) (v : ν) (k' : κ) :
  (t.put k v).get? k' = if k == k' then some v else t.get? k'
  := by
  induction t with
  | nil => rw [put, get?_cons]
  | cons e t ih =>
      rw [put]
      cases he : e.1 == k with
      | true =>
          rw [if_pos rfl, get?_cons, get?_cons, BEq.congr_left he]
          split <;> rfl
      | false =>
          rw [if_neg Bool.false_ne_true, get?_cons, get?_cons, ih]
          cases hk : k == k' with
          | true => simp only [← BEq.congr_right hk, he, Bool.false_eq_true, if_false, if_true]
          | false => rfl

/-- After a key has been erased it has no value, and all others have theirs. -/
theorem get?_erase (t : Table κ ν) (k k' : κ) :
  (t.erase k).get? k' = if k == k' then none else t.get? k'
  := by
  induction t with
  | nil => simp [erase]
  | cons e t ih =>
      rw [erase] at ih ⊢
      rw [List.filter_cons, get?_cons]
      cases he : e.1 == k with
      | true =>
          rw [BEq.congr_left he]
          simp only [Bool.not_true, Bool.false_eq_true, if_false, ih]
          split <;> rfl
      | false =>
          simp only [Bool.not_false, if_true, get?_cons, ih]
          cases hk : k == k' with
          | true => simp only [← BEq.congr_right hk, he, Bool.false_eq_true, if_false, if_true]
          | false => rfl

/-- Of two values written to a key the second one counts. -/
theorem put_put (t : Table κ ν) (k : κ) (v w : ν) :
  (t.put k v).put k w = t.put k w
  := by
  induction t with
  | nil => simp only [put, BEq.rfl, if_true]
  | cons e t ih =>
      rw [put, put]
      split
      · next he => rw [put, if_pos he]
      · next he => rw [put, if_neg he, ih]

/-- What was written to a key that is erased does not matter. -/
theorem erase_put (t : Table κ ν) (k : κ) (v : ν) :
  (t.put k v).erase k = t.erase k
  := by
  induction t with
  | nil => simp only [put, erase, List.filter_cons, BEq.rfl, Bool.not_true, Bool.false_eq_true, if_false]
  | cons e t ih =>
      rw [erase, erase] at ih
      rw [put, erase, erase]
      cases he : e.1 == k with
      | true => simp only [if_true, List.filter_cons, he, Bool.not_true, Bool.false_eq_true, if_false]
      | false => simp only [Bool.false_eq_true, if_false, List.filter_cons, he, ih]

theorem has_congr (t : Table κ ν) {k k' : κ} (h : (k == k') = true) :
  t.has k = t.has k'
  := by
  rw [has_eq_isSome, has_eq_isSome, t.get?_congr h]

theorem has_put (t : Table κ ν) (k : κ) (v : ν) (k' : κ) :
  (t.put k v).has k' = (k == k' || t.has k')
  := by
  rw [has_eq_isSome, has_eq_isSome, get?_put]
  cases k == k' <;> rfl

theorem has_erase (t : Table κ ν) (k k' : κ) :
  (t.erase k).has k' = (!(k == k') && t.has k')
  := by
  rw [has_eq_isSome, has_eq_isSome, get?_erase]
  cases k == k' <;> rfl

/-- An entry of a table with distinct keys is what the table says of its key. -/
theorem Distinct.get?_of_mem {t : Table κ ν} (ht : t.Distinct) {e : κ × ν} (he : e ∈ t) :
  t.get? e.1 = some e.2
  := by
  induction t with
  | nil => cases he
  | cons a t ih =>
      obtain ⟨hfirst, hrest⟩ := List.pairwise_cons.mp ht
      rw [get?_cons]
      rcases List.mem_cons.mp he with rfl | he
      · rw [if_pos BEq.rfl]
      · rw [hfirst e.1 (List.mem_map_of_mem he), if_neg Bool.false_ne_true]
        apply ih hrest he

/-- Entries of a table with distinct keys that have equal keys are one entry. -/
theorem Distinct.eq_of_mem {t : Table κ ν} (ht : t.Distinct) {e e' : κ × ν} (he : e ∈ t)
    (he' : e' ∈ t) (h : (e.1 == e'.1) = true) :
  e = e'
  := by
  induction t with
  | nil => cases he
  | cons a t ih =>
      obtain ⟨hfirst, hrest⟩ := List.pairwise_cons.mp ht
      obtain rfl | hmem := List.mem_cons.mp he
      · obtain rfl | hmem' := List.mem_cons.mp he'
        · rfl
        · rw [hfirst e'.1 (List.mem_map_of_mem hmem')] at h
          cases h
      · obtain rfl | hmem' := List.mem_cons.mp he'
        · rw [BEq.comm, hfirst e.1 (List.mem_map_of_mem hmem)] at h
          cases h
        · apply ih hrest hmem hmem'

/-- What a table with distinct keys says of a key stands in it. -/
theorem Distinct.get?_eq_some_iff {t : Table κ ν} (ht : t.Distinct) {k : κ} {v : ν} :
  t.get? k = some v ↔ ∃ k', (k' == k) = true ∧ (k', v) ∈ t
  := by
  constructor
  · apply mem_of_get?
  · rintro ⟨k', hk, hmem⟩
    rw [← t.get?_congr hk]
    apply ht.get?_of_mem hmem

/-- A table with fewer entries says nothing else. -/
theorem Distinct.get?_of_subset {t t' : Table κ ν} (ht : t.Distinct) (ht' : t'.Distinct)
    (h : ∀ e ∈ t', e ∈ t) {k : κ} {v : ν} (hget : t'.get? k = some v) :
  t.get? k = some v
  := by
  obtain ⟨k', hk, hmem⟩ := ht'.get?_eq_some_iff.mp hget
  apply ht.get?_eq_some_iff.mpr ⟨k', hk, h _ hmem⟩

/-- Tables with the same entries say the same. -/
theorem Distinct.get?_eq_of_mem_iff {t t' : Table κ ν} (ht : t.Distinct) (ht' : t'.Distinct)
    (h : ∀ e, e ∈ t ↔ e ∈ t') (k : κ) :
  t.get? k = t'.get? k
  := by
  apply Option.ext
  intro v
  simp only [ht.get?_eq_some_iff, ht'.get?_eq_some_iff, h]

/-! ### Tables of lists -/

variable {α : Type}

/-- No key has an empty list. -/
def Filled (t : Table κ (List α)) : Prop :=
  ∀ e ∈ t, e.2 ≠ []

omit [BEq κ] [EquivBEq κ] in
theorem filled_nil :
  Filled ([] : Table κ (List α))
  := by
  intro e he
  cases he

omit [EquivBEq κ] in
theorem Filled.put {t : Table κ (List α)} (ht : t.Filled) (k : κ) {as : List α} (has : as ≠ []) :
  (t.put k as).Filled
  := by
  intro e he
  rcases mem_put he with heq | he
  · rwa [heq]
  · apply ht e he

omit [EquivBEq κ] in
theorem Filled.erase {t : Table κ (List α)} (ht : t.Filled) (k : κ) :
  (t.erase k).Filled
  := by
  intro e he
  apply ht e (List.mem_of_mem_filter he)

omit [EquivBEq κ] in
/-- A list that is not empty stands in the table, with a key equal to the one asked for. -/
theorem mem_of_list_ne_nil {t : Table κ (List α)} {k : κ} (h : t.list k ≠ []) :
  ∃ k', (k' == k) = true ∧ (k', t.list k) ∈ t
  := by
  cases hget : t.get? k with
  | none =>
      exfalso
      apply h
      rw [list, hget, Option.getD_none]
  | some as =>
      rw [list, hget]
      apply mem_of_get? hget

omit [EquivBEq κ] in
/-- A table without empty lists has the keys whose lists are not empty. -/
theorem Filled.get?_eq_none_iff {t : Table κ (List α)} (ht : t.Filled) (k : κ) :
  t.get? k = none ↔ t.list k = []
  := by
  constructor
  · intro hnone
    rw [list, hnone, Option.getD_none]
  · intro hnil
    cases hget : t.get? k with
    | none => rfl
    | some as =>
        obtain ⟨k', -, hmem⟩ := mem_of_get? hget
        exfalso
        apply ht _ hmem
        rwa [list, hget] at hnil

omit [EquivBEq κ] in
theorem Filled.has_iff {t : Table κ (List α)} (ht : t.Filled) (k : κ) :
  t.has k = true ↔ t.list k ≠ []
  := by
  rw [has_eq_isSome, ne_eq, ← ht.get?_eq_none_iff, ← ne_eq, ← Option.isSome_iff_ne_none]

theorem list_congr (t : Table κ (List α)) {k k' : κ} (h : (k == k') = true) :
  t.list k = t.list k'
  := by
  rw [list, list, t.get?_congr h]

theorem list_put (t : Table κ (List α)) (k : κ) (as : List α) (k' : κ) :
  (t.put k as).list k' = if k == k' then as else t.list k'
  := by
  rw [list, get?_put]
  split <;> rfl

theorem list_erase (t : Table κ (List α)) (k k' : κ) :
  (t.erase k).list k' = if k == k' then [] else t.list k'
  := by
  rw [list, get?_erase]
  split <;> rfl

/-- A list as the entry of a key; no key has an empty list. -/
def asEntry : List α → Option (List α)
  | [] => none
  | a :: as => some (a :: as)

omit [BEq κ] [EquivBEq κ] in
@[simp]
theorem getD_asEntry (as : List α) :
  (asEntry as).getD [] = as
  := by
  cases as <;> rfl

/-- Sifting a key filters its entry and leaves all others. -/
theorem get?_sift (keep : α → Bool) (t : Table κ (List α)) (k k' : κ) :
  (t.sift keep k).get? k'
    = if k == k' then asEntry (((t.get? k').getD []).filter keep) else t.get? k'
  := by
  unfold sift
  split
  · next h =>
    split
    · next hk =>
      rw [← t.get?_congr hk, Option.map_eq_none_iff.mp h]
      rfl
    · rfl
  · next h =>
    obtain ⟨as, has, hnil⟩ := Option.map_eq_some_iff.mp h
    rw [get?_erase]
    split
    · next hk => rw [← t.get?_congr hk, has, Option.getD_some, hnil, asEntry]
    · rfl
  · next a as h =>
    obtain ⟨bs, hbs, hkept⟩ := Option.map_eq_some_iff.mp h
    rw [get?_put]
    split
    · next hk => rw [← t.get?_congr hk, hbs, Option.getD_some, hkept, asEntry]
    · rfl

/-- Sifting several keys filters their entries and leaves all others. -/
theorem get?_foldl_sift (keep : α → Bool) (ks : List κ) (t : Table κ (List α)) (k : κ) :
  (ks.foldl (sift keep) t).get? k =
    if ks.any (· == k) then asEntry (((t.get? k).getD []).filter keep) else t.get? k
  := by
  induction ks generalizing t with
  | nil => rfl
  | cons k' ks ih =>
      rw [List.foldl_cons, ih, get?_sift, List.any_cons]
      cases k' == k with
      | false => rfl
      | true =>
          simp only [if_true, Bool.true_or, getD_asEntry, List.filter_filter, Bool.and_self]
          split <;> rfl

/-- So the lists of these keys are filtered. -/
theorem list_foldl_sift (keep : α → Bool) (ks : List κ) (t : Table κ (List α)) (k : κ) :
  (ks.foldl (sift keep) t).list k =
    if ks.any (· == k) then (t.list k).filter keep else t.list k
  := by
  rw [list, get?_foldl_sift]
  split
  · apply getD_asEntry
  · rfl

omit [EquivBEq κ] in
theorem Distinct.sift {t : Table κ (List α)} (ht : t.Distinct) (keep : α → Bool) (k : κ) :
  (t.sift keep k).Distinct
  := by
  unfold Table.sift
  split
  · exact ht
  · apply ht.erase
  · apply ht.put

omit [EquivBEq κ] in
theorem Filled.sift {t : Table κ (List α)} (ht : t.Filled) (keep : α → Bool) (k : κ) :
  (t.sift keep k).Filled
  := by
  unfold Table.sift
  split
  · exact ht
  · apply ht.erase
  · apply ht.put k (List.cons_ne_nil _ _)

omit [EquivBEq κ] in
theorem Distinct.foldl_sift {t : Table κ (List α)} (ht : t.Distinct) (keep : α → Bool)
    (ks : List κ) :
  (ks.foldl (Table.sift keep) t).Distinct
  := by
  induction ks generalizing t with
  | nil => exact ht
  | cons k ks ih => apply ih (ht.sift keep k)

omit [EquivBEq κ] in
theorem Filled.foldl_sift {t : Table κ (List α)} (ht : t.Filled) (keep : α → Bool) (ks : List κ) :
  (ks.foldl (Table.sift keep) t).Filled
  := by
  induction ks generalizing t with
  | nil => exact ht
  | cons k ks ih => apply ih (ht.sift keep k)

end JobIndex.Table
