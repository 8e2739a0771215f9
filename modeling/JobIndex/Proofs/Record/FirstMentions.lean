import JobIndex.Proofs.Record.JobLists
import Mathlib.Data.List.Induction
import Mathlib.Data.List.Nodup

/-!
# The jobs of a template in the order of their first mention

The jobs that a template names are found on one walk, which looks back at those found so far on
every level of the attributes (`addBelow`, `addList`). They are what the walk that does not look
back finds (`namesBelow`, `namesListed`), without empty names and each name where it comes first. So
what is found in some entries does not depend on the entries behind them: those only add names at
the end. The result is `Template.references_firstMentions`.
-/

namespace JobIndex

/-! ### First occurrences -/

/-- The first occurrences among the elements that are kept are the first occurrences that are
kept. -/
theorem eraseDups_filter {α : Type} [BEq α] [LawfulBEq α] (keep : α → Bool) : (as : List α) →
    (as.filter keep).eraseDups = as.eraseDups.filter keep
  | [] => rfl
  | a :: as => by
      have hothers := eraseDups_filter keep (as.filter fun b => !b == a)
      rw [List.eraseDups_cons, List.filter_cons, List.filter_cons, ← hothers, List.filter_comm]
      by_cases ha : keep a = true
      · rw [if_pos ha, if_pos ha, List.eraseDups_cons]
      · have hkept : ∀ b ∈ as.filter keep, (!b == a) = true := by
          intro b hb
          rw [Bool.not_eq_true', beq_eq_false_iff_ne]
          rintro rfl
          exact ha (List.of_mem_filter hb)
        rw [if_neg ha, if_neg ha, List.filter_eq_self.mpr hkept]
  termination_by as => as.length
  decreasing_by
    have hle := List.length_filter_le (fun b => !b == a) as
    rw [List.length_cons]
    omega

/-- What follows other elements adds those first occurrences of its own that are not among them. -/
theorem eraseDups_append_eq {α : Type} [BEq α] [LawfulBEq α] (as bs : List α) :
  (as ++ bs).eraseDups = as.eraseDups ++ bs.eraseDups.removeAll as.eraseDups
  := by
  have hsame (b : α) : List.elem b as.eraseDups = List.elem b as := by
    rw [Bool.eq_iff_iff, List.elem_iff, List.elem_iff, List.mem_eraseDups]
  simp only [List.eraseDups_append, List.removeAll, eraseDups_filter, hsame]

/-! ### Adding names one by one -/

theorem nodup_addName {names : List String} (h : names.Nodup) (name : String) :
  (addName names name).Nodup
  := by
  rw [addName]
  split
  · exact h
  · next hname =>
    rw [Bool.or_eq_true, List.contains_iff_mem, not_or] at hname
    rw [← List.concat_eq_append]
    apply h.concat hname.2

theorem nodup_foldl_addName {names : List String} (h : names.Nodup) (given : List String) :
  (given.foldl addName names).Nodup
  := by
  induction given generalizing names with
  | nil => exact h
  | cons name given ih => apply ih (nodup_addName h name)

/-- Adding names one by one gives their first occurrences, except for the empty name. -/
theorem foldl_addName (given : List String) :
  given.foldl addName [] = (given.filter (· ≠ "")).eraseDups
  := by
  -- The last name is compared with all before it, so the induction takes names from the end.
  induction given using List.reverseRecOn with
  | nil => rfl
  | append_singleton given name ih =>
      rw [List.foldl_append, List.foldl_cons, List.foldl_nil, ih, List.filter_append,
        List.eraseDups_append, addName]
      by_cases hempty : name = ""
      · simp [hempty, List.removeAll]
      · by_cases hmem : name ∈ given
        · simp [hempty, hmem, List.removeAll]
        · simp [hempty, hmem, List.removeAll, List.eraseDups_cons]

/-! ### Templates -/

theorem namesBelow_append (entries more : List (String × Attribute)) :
  namesBelow (entries ++ more) = namesBelow entries ++ namesBelow more
  := by rw [namesBelow_eq, namesBelow_eq, namesBelow_eq, List.flatMap_append]

theorem jobReferences_eq (attributes : Attributes) :
  jobReferences attributes = ((namesBelow attributes).filter (· ≠ "")).eraseDups
  := by rw [jobReferences, addBelow_eq, foldl_addName]

theorem nodup_jobReferences (attributes : Attributes) :
  (jobReferences attributes).Nodup
  := by
  rw [jobReferences, addBelow_eq]
  apply nodup_foldl_addName List.nodup_nil

/-- Further entries add the jobs that they name and the entries before them do not. -/
theorem jobReferences_append (attributes more : Attributes) :
  jobReferences (attributes ++ more)
    = jobReferences attributes ++ (jobReferences more).removeAll (jobReferences attributes)
  := by
  simp only [jobReferences_eq, namesBelow_append, List.filter_append, eraseDups_append_eq]

/-- The jobs that a template names are the names on a walk through its attributes which are not
empty, each where it comes first, so there are none twice. With further entries at the end, the
names that are new come behind the others. -/
theorem Template.references_firstMentions (file : Path) (attributes : Attributes)
    (locations : List Location) :
  (ofAttributes file attributes locations).references.Nodup ∧
  "" ∉ (ofAttributes file attributes locations).references ∧
  (ofAttributes file attributes locations).references
    = ((namesBelow attributes).filter (· ≠ "")).eraseDups ∧
  ∀ more : Attributes, (ofAttributes file (attributes ++ more) locations).references
    = (ofAttributes file attributes locations).references
      ++ (ofAttributes file more locations).references.removeAll
          (ofAttributes file attributes locations).references
  := by
  refine ⟨nodup_jobReferences attributes, ?_, jobReferences_eq attributes, ?_⟩
  · intro hempty
    exact (mem_jobReferences.mp hempty).1 rfl
  · intro more
    apply jobReferences_append

end JobIndex
