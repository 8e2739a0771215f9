import JobIndex.Proofs.Record.FirstFit
import Mathlib.Data.List.Sort

/-!
# The leaves of a job

A leaf is reached from the attributes of a job by going down from entry to entry
(`Attribute.LeadsTo`). The numbers of the entries on the way tell the leaves apart, also where keys
are repeated, and give their order. The keys on the way are joined to the path, where the empty keys
at its beginning leave no trace (`Descent.path`), so that different leaves can have one path.

The leaves that a job is asked for are all of these, each once and in order
(`Attribute.map_leaves`, `Attribute.lists_descents`), with the locations that fit them first
(`Job.exists_hasLeaves`).
-/

namespace JobIndex

/-- A way down to a leaf: the numbers and the keys of the entries on it, and the value at its
end. -/
@[ext]
structure Descent where
  numbers : List Nat
  keys : List String
  value : String

namespace Descent

/-- A way that begins with an entry of a group. -/
def through (n : Nat) (key : String) (d : Descent) : Descent where
  numbers := n :: d.numbers
  keys := key :: d.keys
  value := d.value

/-- The path of a leaf: its keys from the first one on that is not empty, joined by dots. -/
def path (d : Descent) : String :=
  ".".intercalate (d.keys.dropWhile (· == ""))

end Descent

namespace Attribute

/-- A way down from an attribute to a leaf. -/
inductive LeadsTo : Attribute → Descent → Prop where
  | scalar (value : String) : LeadsTo (.scalar value) ⟨[], [], value⟩
  | group {entries : Attributes} {n : Nat} {key : String} {a : Attribute} {d : Descent} :
      entries[n]? = some (key, a) → LeadsTo a d → LeadsTo (.group entries) (d.through n key)

/-- All ways down from an attribute, in order and each of them once. -/
structure Lists (a : Attribute) (ds : List Descent) : Prop where
  ordered : ds.Pairwise fun d d' => d.numbers < d'.numbers
  mem_iff : ∀ d, d ∈ ds ↔ a.LeadsTo d

/-- Two such lists are the same. -/
theorem Lists.eq {a : Attribute} {ds ds' : List Descent} (h : a.Lists ds) (h' : a.Lists ds') :
  ds = ds'
  := by
  have : Std.Irrefl fun d d' : Descent => d.numbers < d'.numbers := ⟨fun _ => List.lt_irrefl _⟩
  have : Std.Antisymm fun d d' : Descent => d.numbers < d'.numbers :=
    ⟨fun _ _ hlt hgt => absurd hgt (List.lt_asymm hlt)⟩
  apply h.ordered.eq_of_mem_iff h'.ordered
  intro d
  rw [h.mem_iff, h'.mem_iff]

end Attribute

/-! ### Ways down, one after the other -/

mutual

/-- The ways down from an attribute. -/
def Attribute.descents : Attribute → List Descent
  | .scalar value => [⟨[], [], value⟩]
  | .group entries => descentsFrom 0 entries

/-- The ways down through entries, the first of which has the number `n`. -/
def descentsFrom (n : Nat) : List (String × Attribute) → List Descent
  | [] => []
  | (key, a) :: entries => a.descents.map (.through n key) ++ descentsFrom (n + 1) entries

end

/-- The ways down through entries begin with one of these. -/
theorem mem_descentsFrom {n : Nat} {entries : List (String × Attribute)} {d : Descent} :
  d ∈ descentsFrom n entries ↔
    ∃ (i : Nat) (key : String) (a : Attribute) (d' : Descent),
      entries[i]? = some (key, a) ∧ d' ∈ a.descents ∧ d = d'.through (n + i) key
  := by
  induction entries generalizing n with
  | nil => simp [descentsFrom]
  | cons entry entries ih =>
      obtain ⟨key, a⟩ := entry
      rw [descentsFrom, List.mem_append, List.mem_map, ih]
      constructor
      · rintro (⟨d', hd', rfl⟩ | ⟨i, key', a', d', hentry, hd', rfl⟩)
        · exact ⟨0, key, a, d', rfl, hd', rfl⟩
        · use i + 1, key', a', d', hentry, hd'
          rw [Nat.add_right_comm, Nat.add_assoc]
      · rintro ⟨i, key', a', d', hentry, hd', rfl⟩
        cases i with
        | zero =>
            cases hentry
            exact Or.inl ⟨d', hd', rfl⟩
        | succ i =>
            right
            use i, key', a', d', hentry, hd'
            rw [Nat.add_right_comm, Nat.add_assoc]

namespace Attribute

mutual

theorem leadsTo_of_mem_descents : (a : Attribute) → ∀ d ∈ a.descents, a.LeadsTo d
  | .scalar value => by
      intro d hd
      rw [descents, List.mem_singleton] at hd
      rw [hd]
      apply LeadsTo.scalar
  | .group entries => by
      intro d hd
      obtain ⟨i, key, a, d', hentry, hd', rfl⟩ := mem_descentsFrom.mp hd
      rw [Nat.zero_add]
      apply LeadsTo.group hentry
      apply leadsTo_of_mem_entries entries _ (List.mem_of_getElem? hentry) d' hd'

theorem leadsTo_of_mem_entries : (entries : List (String × Attribute)) →
    ∀ entry ∈ entries, ∀ d ∈ entry.2.descents, entry.2.LeadsTo d
  | [] => fun _ h => nomatch h
  | (key, a) :: entries => by
      rw [List.forall_mem_cons]
      exact ⟨leadsTo_of_mem_descents a, leadsTo_of_mem_entries entries⟩

end

theorem mem_descents_iff {a : Attribute} {d : Descent} :
  d ∈ a.descents ↔ a.LeadsTo d
  := by
  constructor
  · apply leadsTo_of_mem_descents
  · intro h
    induction h with
    | scalar value => apply List.mem_singleton_self
    | @group entries n key a d hentry _ ih =>
        rw [descents, mem_descentsFrom]
        use n, key, a, d, hentry, ih
        rw [Nat.zero_add]

mutual

theorem pairwise_descents : (a : Attribute) →
    a.descents.Pairwise fun d d' => d.numbers < d'.numbers
  | .scalar _ => List.pairwise_singleton _ _
  | .group entries => pairwise_descentsFrom entries 0

theorem pairwise_descentsFrom : (entries : List (String × Attribute)) → (n : Nat) →
    (descentsFrom n entries).Pairwise fun d d' => d.numbers < d'.numbers
  | [], _ => List.Pairwise.nil
  | (key, a) :: entries, n => by
      rw [descentsFrom, List.pairwise_append]
      refine ⟨?_, pairwise_descentsFrom entries (n + 1), ?_⟩
      · rw [List.pairwise_map]
        apply (pairwise_descents a).imp
        intro d d' hlt
        apply List.cons_lt_cons_iff.mpr
        exact Or.inr ⟨rfl, hlt⟩
      · -- the number of the first entry on the way is smaller
        intro d hd d' hd'
        obtain ⟨e, -, rfl⟩ := List.mem_map.mp hd
        obtain ⟨i, key', a', e', -, -, rfl⟩ := mem_descentsFrom.mp hd'
        apply List.cons_lt_cons_iff.mpr
        left
        omega

end

theorem lists_descents (a : Attribute) :
  a.Lists a.descents
  where
  ordered := pairwise_descents a
  mem_iff _ := mem_descents_iff

end Attribute

/-! ### The paths of leaves -/

/-- Below a path that is not empty, all keys are joined to it. -/
theorem foldl_entryPath_of_ne {path : String} (hpath : path ≠ "") (keys : List String) :
  keys.foldl entryPath path = ".".intercalate (path :: keys)
  := by
  induction keys generalizing path with
  | nil => rw [List.foldl_nil, String.intercalate_singleton]
  | cons key keys ih =>
      have hentry : entryPath path key = path ++ "." ++ key := by
        simp [entryPath, hpath]
      have hne : path ++ "." ++ key ≠ "" := by
        simp [hpath]
      rw [List.foldl_cons, hentry, ih hne, String.intercalate_cons_append,
        String.intercalate_cons_cons]

/-- At the root, the empty keys at the beginning leave the path empty. -/
theorem foldl_entryPath_root (keys : List String) :
  keys.foldl entryPath "" = ".".intercalate (keys.dropWhile (· == ""))
  := by
  induction keys with
  | nil => rfl
  | cons key keys ih =>
      rw [List.foldl_cons, List.dropWhile_cons, show entryPath "" key = key from rfl]
      split
      · next hkey => rw [beq_iff_eq.mp hkey, ih]
      · next hkey =>
        apply foldl_entryPath_of_ne
        simpa using hkey

mutual

theorem Attribute.leaves_eq : (a : Attribute) → (path : String) →
    a.leaves path = a.descents.map fun d => (d.keys.foldl entryPath path, d.value)
  | .scalar _, _ => rfl
  | .group entries, path => leavesOf_eq entries path 0

theorem leavesOf_eq : (entries : List (String × Attribute)) → (path : String) → (n : Nat) →
    leavesOf path entries
      = (descentsFrom n entries).map fun d => (d.keys.foldl entryPath path, d.value)
  | [], _, _ => rfl
  | (key, a) :: entries, path, n => by
      rw [leavesOf, descentsFrom, List.map_append, List.map_map,
        Attribute.leaves_eq a (entryPath path key), leavesOf_eq entries path (n + 1)]
      rfl

end

namespace Job

/-- A job has a leaf with a path. -/
def HasPath (job : Job) (path : String) : Prop :=
  ∃ d, (Attribute.group job.attributes).LeadsTo d ∧ d.path = path

/-- The leaves of a job in order, and the indices of the locations that they are given. -/
structure HasLeaves (job : Job) (ds : List Descent) (places : List (Option Nat)) : Prop where
  lists : (Attribute.group job.attributes).Lists ds
  placed : Placed job.locations 0 (ds.map fun d => (d.path, d.value)) places

theorem leaves_eq_descents (job : Job) :
  job.leaves = (Attribute.group job.attributes).descents.map fun d => (d.path, d.value)
  := by
  have hpath : ∀ d : Descent, d.keys.foldl entryPath "" = d.path := fun d =>
    foldl_entryPath_root d.keys
  simp only [leaves, leavesOf_eq job.attributes "" 0, hpath]
  rfl

/-- A job is asked for its leaves, each with its path, its value and the location it is given. -/
theorem exists_hasLeaves (job : Job) :
  ∃ ds places, job.HasLeaves ds places ∧
    job.locatedLeaves.map (fun leaf => (leaf.path, leaf.value))
      = ds.map (fun d => (d.path, d.value)) ∧
    job.locatedLeaves.map (·.location?) = places.map (·.bind (job.locations[·]?))
  := by
  obtain ⟨places, hplaced, hlocations⟩ :=
    locateLeaves_placed job.leaves (Nat.zero_le job.locations.length)
  rw [leaves_eq_descents] at hplaced
  use (Attribute.group job.attributes).descents, places
  refine ⟨⟨Attribute.lists_descents _, hplaced⟩, ?_, hlocations⟩
  rw [← leaves_eq_descents]
  apply (locateLeaves_sound job.leaves job.locations).1

/-- The paths that a job is asked for are those of its leaves. -/
theorem hasPath_iff {job : Job} {path : String} :
  job.HasPath path ↔ path ∈ job.leaves.map Prod.fst
  := by
  rw [leaves_eq_descents, List.map_map, List.mem_map]
  apply exists_congr
  intro d
  rw [Attribute.mem_descents_iff]
  rfl

/-- A group with the empty key, and one without entries: two leaves have one path. -/
example :
  let job : Job := ⟨⟨"a.yaml"⟩, [("name", .scalar "unit"),
    ("", .group [("name", .scalar "other"), ("vars", .group [("", .scalar "on")])]),
    ("nodes", .group [])], []⟩
  job.leaves = [("name", "unit"), ("name", "other"), ("vars.", "on")] ∧
    (Attribute.group job.attributes).descents.map (·.numbers) = [[0], [1, 0], [1, 1, 0]]
  := by
  decide

end Job

end JobIndex
