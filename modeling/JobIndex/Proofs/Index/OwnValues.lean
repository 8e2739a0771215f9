import JobIndex.Proofs.Index.Resolution
import JobIndex.Record.Reading

/-!
# The own values of a job

A job tells its name and its parent by the first entry at the top that has the key
(`Attributes.scalar?`). In the merged attributes it has all its leaves, by path, and of several with
one path the last. The two views can differ, because

* a key may be repeated at the top;
* a group with the empty key adds nothing to the path, so that its entries have the paths of those
  at the top.

So a merged value is the last text that stands at its path (`textsAt`), and it is the one that the
job tells if no other text stands behind that one.
-/

namespace JobIndex

/-! ### Leaves at the top -/

mutual

/-- The texts at the top path `key` that an attribute with the key `own` has, in order. -/
def Attribute.textsAt (key own : String) : Attribute → List String
  | .scalar value => if own == key then [value] else []
  | .group entries => if own == "" then textsAt key entries else []

/-- The texts at the top path `key` that entries have, in order. -/
def textsAt (key : String) : List (String × Attribute) → List String
  | [] => []
  | (own, a) :: entries => a.textsAt key own ++ textsAt key entries

end

/-- The values of the leaves with a path, in order. -/
def valuesAt (path : String) (leaves : List (String × String)) : List String :=
  leaves.filterMap fun leaf => if leaf.1 == path then some leaf.2 else none

@[simp]
theorem valuesAt_append (path : String) (ls ms : List (String × String)) :
  valuesAt path (ls ++ ms) = valuesAt path ls ++ valuesAt path ms
  := by
  apply List.filterMap_append

theorem valuesAt_eq_nil {path : String} {leaves : List (String × String)}
    (h : ∀ leaf ∈ leaves, leaf.1 ≠ path) :
  valuesAt path leaves = []
  := by
  rw [valuesAt, List.filterMap_eq_nil_iff]
  intro leaf hleaf
  rw [if_neg]
  simpa using h leaf hleaf

@[simp]
theorem valuesAt_cons_self (path value : String) (leaves : List (String × String)) :
  valuesAt path ((path, value) :: leaves) = value :: valuesAt path leaves
  := by
  apply List.filterMap_cons_some
  simp

/-- Below a key the paths of entries go on with a dot. -/
theorem toList_entryPath {path : String} (hpath : path ≠ "") (key : String) :
  (entryPath path key).toList = path.toList ++ '.' :: key.toList
  := by
  simp [entryPath, hpath, String.toList_append]

theorem entryPath_ne {path : String} (hpath : path ≠ "") (key : String) :
  entryPath path key ≠ ""
  := by
  intro h
  have hlist := toList_entryPath hpath key
  rw [h] at hlist
  simp at hlist

@[simp]
theorem entryPath_root (key : String) :
  entryPath "" key = key
  := by
  rfl

-- Below a key, the path of a leaf is that of the attribute, or has a dot.
mutual

theorem dot_mem_leaves : (a : Attribute) → (path : String) → path ≠ "" → '.' ∈ path.toList →
    ∀ leaf ∈ a.leaves path, '.' ∈ leaf.1.toList
  | .scalar value, path, _, hdot => by
      intro leaf hleaf
      rw [Attribute.leaves, List.mem_singleton] at hleaf
      rw [hleaf]
      exact hdot
  | .group entries, path, hpath, _ => dot_mem_leavesOf entries path hpath

theorem dot_mem_leavesOf : (entries : List (String × Attribute)) → (path : String) → path ≠ "" →
    ∀ leaf ∈ leavesOf path entries, '.' ∈ leaf.1.toList
  | [], _, _ => fun _ h => nomatch h
  | (key, a) :: entries, path, hpath => by
      have hdot : '.' ∈ (entryPath path key).toList := by
        rw [toList_entryPath hpath]
        simp
      rw [leavesOf, List.forall_mem_append]
      exact ⟨dot_mem_leaves a _ (entryPath_ne hpath key) hdot, dot_mem_leavesOf entries path hpath⟩

end

-- The recursion is into groups with the empty key only, whose entries have the root as their path.
mutual

theorem valuesAt_leaves {key : String} (hkey : '.' ∉ key.toList) : (a : Attribute) →
    (own : String) → valuesAt key (a.leaves own) = a.textsAt key own
  | .scalar value, own => by
      rw [Attribute.leaves, Attribute.textsAt, valuesAt]
      split <;> simp_all
  | .group entries, own => by
      rw [Attribute.leaves, Attribute.textsAt]
      split
      · next hown =>
        rw [beq_iff_eq.mp hown]
        exact valuesAt_leavesOf hkey entries
      · next hown =>
        apply valuesAt_eq_nil
        intro leaf hleaf heq
        apply hkey
        rw [← heq]
        apply dot_mem_leavesOf entries own _ leaf hleaf
        simpa using hown

theorem valuesAt_leavesOf {key : String} (hkey : '.' ∉ key.toList) :
    (entries : List (String × Attribute)) →
    valuesAt key (leavesOf "" entries) = textsAt key entries
  | [] => rfl
  | (own, a) :: entries => by
      rw [leavesOf, textsAt, valuesAt_append, entryPath_root, valuesAt_leaves hkey a own,
        valuesAt_leavesOf hkey entries]

end

/-- Entries have no text at a top path if none of them has its key or the empty key. -/
theorem textsAt_eq_nil {key : String} {entries : List (String × Attribute)}
    (h : ∀ entry ∈ entries, entry.1 ≠ key ∧ entry.1 ≠ "") :
  textsAt key entries = []
  := by
  induction entries with
  | nil => rfl
  | cons entry entries ih =>
      obtain ⟨own, a⟩ := entry
      rw [List.forall_mem_cons] at h
      obtain ⟨⟨hkey, hroot⟩, hrest⟩ := h
      rw [textsAt, ih hrest]
      cases a with
      | scalar value => simpa [Attribute.textsAt] using hkey
      | group inner =>
          rw [Attribute.textsAt, if_neg]
          · rfl
          · simpa using hroot

theorem textsAt_append (key : String) (entries others : List (String × Attribute)) :
  textsAt key (entries ++ others) = textsAt key entries ++ textsAt key others
  := by
  induction entries with
  | nil => rfl
  | cons entry entries ih => rw [List.cons_append, textsAt, textsAt, ih, List.append_assoc]

/-! ### What a job tells -/

/-- A text that a job tells stands in a first entry with the key. -/
theorem Attributes.exists_append_of_scalar? {key value : String} {entries : Attributes}
    (h : entries.scalar? key = some value) :
  ∃ front back, entries = front ++ (key, .scalar value) :: back ∧ key ∉ front.map Prod.fst
  := by
  obtain ⟨a, hlookup, ha⟩ := Option.bind_eq_some_iff.mp h
  obtain ⟨front, back, rfl, hfront⟩ := List.lookup_eq_some_iff.mp hlookup
  cases a with
  | scalar text =>
      cases ha
      refine ⟨front, back, rfl, fun hmem => ?_⟩
      obtain ⟨entry, hentry, hkey⟩ := List.mem_map.mp hmem
      apply bne_iff_ne.mp (hfront entry hentry) hkey.symm
  | group inner => cases ha

/-! ### Leaves and merged values -/

/-- The last leaf with a path has the last of the values there. -/
theorem Job.LastLeaf.getLast?_valuesAt {job : Job} {path : String} {leaf : Leaf}
    (h : job.LastLeaf path leaf) :
  (valuesAt path job.leaves).getLast? = some leaf.value
  := by
  obtain ⟨earlier, d, later, places, place?, hleaves, hpath, hlater, -, rfl⟩ := h
  have hnone : valuesAt path (later.map fun d => (d.path, d.value)) = [] := by
    apply valuesAt_eq_nil
    rw [List.forall_mem_map]
    exact hlater
  rw [leaves_eq_descents, (Attribute.lists_descents _).eq hleaves.lists, List.map_append,
    List.map_cons, valuesAt_append, hpath, valuesAt_cons_self, hnone, List.getLast?_append]
  rfl

namespace JobRegistry

/-- A path of the first job of a chain has the last value that this job gives for it. -/
theorem MergedFrom.exists_own {job : Job} {chain : List Job} {entries : List ResolvedAttribute}
    (h : MergedFrom (job :: chain) entries) {path : String} (hpath : job.HasPath path) :
  ∃ a, entries.find? (·.path == path) = some a ∧ job.name? = some a.provenance ∧
    (valuesAt path job.leaves).getLast? = some a.value
  := by
  obtain ⟨a, ha, rfl⟩ := (h.paths path).mpr ⟨job, List.mem_cons_self, hpath⟩
  refine ⟨a, h.ordered.mem_iff_find?.mp ha, ?_⟩
  obtain ⟨closer, other, farther, leaf, hchain, hcloser, hlast, hvalue, -, hname, -⟩ :=
    h.nearest a ha
  cases closer with
  | nil =>
      obtain ⟨rfl, -⟩ := List.cons.inj hchain
      rw [hvalue]
      exact ⟨hname, hlast.getLast?_valuesAt⟩
  | cons first closer =>
      obtain ⟨rfl, -⟩ := List.cons.inj hchain
      exact absurd hpath (hcloser job List.mem_cons_self)

end JobRegistry

/-- The merged attributes have, at a key that the job tells a text for, a value of the job: the last
of the texts that stand at the path of the key behind the one that is told, or that one. It is that
one if no key behind it is the same or empty. -/
def Resolution.HoldsOwn (r : Resolution) (job : Job) (key value : String) : Prop :=
  ∃ a front back, r.entries.find? (·.path == key) = some a ∧ a.provenance = r.job ∧
    job.attributes = front ++ (key, .scalar value) :: back ∧ key ∉ front.map Prod.fst ∧
    a.value = (textsAt key back).getLast?.getD value ∧
    ((∀ entry ∈ back, entry.1 ≠ key ∧ entry.1 ≠ "") → a.value = value)

namespace JobRegistry

/-- What a job tells under a key without a dot is held by the attributes merged from it. -/
theorem MergedFrom.holdsOwn {r : Resolution} {job : Job} {chain : List Job}
    (h : MergedFrom (job :: chain) r.entries) (hname : job.name? = some r.job) {key value : String}
    (hkey : '.' ∉ key.toList) (hvalue : job.attributes.scalar? key = some value) :
  r.HoldsOwn job key value
  := by
  obtain ⟨front, back, heq, hfront⟩ := Attributes.exists_append_of_scalar? hvalue
  have htexts : valuesAt key job.leaves = textsAt key front ++ value :: textsAt key back := by
    rw [Job.leaves, valuesAt_leavesOf hkey, heq, textsAt_append, textsAt, Attribute.textsAt,
      if_pos (beq_self_eq_true key)]
    rfl
  have hpath : job.HasPath key := by
    rw [Job.hasPath_iff]
    by_contra hno
    have hnone : valuesAt key job.leaves = [] := by
      apply valuesAt_eq_nil
      intro leaf hleaf hleafKey
      apply hno
      rw [← hleafKey]
      apply List.mem_map_of_mem hleaf
    simp [hnone] at htexts
  obtain ⟨a, hfind, hprovenance, hlast⟩ := h.exists_own hpath
  rw [hname, Option.some.injEq] at hprovenance
  rw [htexts, List.getLast?_append, List.getLast?_cons] at hlast
  have hown : a.value = (textsAt key back).getLast?.getD value := (Option.some.inj hlast).symm
  refine ⟨a, front, back, hfind, hprovenance.symm, heq, hfront, hown, fun hback => ?_⟩
  rw [hown, textsAt_eq_nil hback]
  rfl

/-- After any sequence of operations, the attributes of a job with a name, stored or not, are found,
and hold the name and the parent that the job tells, as far as no text behind these has their
path. -/
theorem resolve_holdsOwn (operations : List Operation) {job : Job} {name : String}
    (hname : job.name? = some name) :
  ∃ resolution reported, (run operations).resolve job = .ok (resolution, reported) ∧
    resolution.job = name ∧ resolution.HoldsOwn job "name" name ∧
    ∀ parent, job.parent? = some parent → resolution.HoldsOwn job "parent" parent
  := by
  obtain ⟨a, entries, reported, -, hresolve, hclimb, hentries⟩ :=
    (run_represents operations).exists_resolve hname
  obtain ⟨rest, hjobs, -⟩ := hclimb.jobs_eq_cons
  rw [hjobs] at hentries
  refine ⟨_, reported, hresolve, rfl, ?_, fun parent hparent => ?_⟩
  · apply MergedFrom.holdsOwn hentries hname (by decide) hname
  · apply MergedFrom.holdsOwn hentries hname (by decide) hparent

/-- A job that tells another parent first than last. -/
theorem resolve_holdsOwn_repeated :
  let unit : Job := ⟨⟨"a.yaml"⟩, [("parent", .scalar "base"), ("name", .scalar "unit"),
    ("parent", .scalar "other")], []⟩
  unit.name? = some "unit" ∧ unit.parent? = some "base" ∧
    ∃ resolution reported, (run [.add unit]).resolve unit = .ok (resolution, reported) ∧
      resolution.job = "unit" ∧ resolution.HoldsOwn unit "name" "unit" ∧
      ∀ parent, unit.parent? = some parent → resolution.HoldsOwn unit "parent" parent
  := by
  intro unit
  have hname : unit.name? = some "unit" := by decide
  have hparent : unit.parent? = some "base" := by decide
  exact ⟨hname, hparent, resolve_holdsOwn [.add unit] hname⟩

/-- The name of a job is merged from a group with the empty key, and its parent from a repeated
key. -/
theorem resolve_holdsOwn_other_texts :
  let text :=
    "- job:\n    name: unit\n    parent: base\n    parent: tests\n    \"\":\n      name: other\n"
  ∃ job ∈ (Document.parse [] ⟨"a.yaml"⟩ text).1.jobs,
    job.name? = some "unit" ∧ job.parent? = some "base" ∧
    ((run [.add job]).resolve job).toOption.map
        (fun answer => answer.1.entries.map fun a => (a.path, a.value, a.provenance))
      = some [("name", "other", "unit"), ("parent", "tests", "unit")]
  := by
  decide +kernel

end JobRegistry

end JobIndex
