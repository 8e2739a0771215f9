import JobIndex.Proofs.Index.Ancestors
import JobIndex.Proofs.Record.Leaves

/-!
# The nearest definition wins

The attributes of a job are merged from the root of its ancestors down to the job itself, and what
is inserted later replaces what was there. So for each path the value is the one of the ancestor
closest to the job that has a leaf with this path, and of several such leaves the last.
-/

namespace JobIndex

/-- `leaf` is the last leaf of `job` with the path `path`, with the location that it is given. -/
def Job.LastLeaf (job : Job) (path : String) (leaf : Leaf) : Prop :=
  ∃ earlier d later places place?, job.HasLeaves (earlier ++ d :: later) places ∧
    d.path = path ∧ (∀ other ∈ later, other.path ≠ path) ∧
    places[earlier.length]? = some place? ∧
    leaf = ⟨path, d.value, place?.bind (job.locations[·]?)⟩

theorem Job.LastLeaf.hasPath {job : Job} {path : String} {leaf : Leaf}
    (h : job.LastLeaf path leaf) :
  job.HasPath path
  := by
  obtain ⟨earlier, d, later, places, place?, hleaves, hpath, -⟩ := h
  use d, (hleaves.lists.mem_iff d).mp (by simp)

/-- The last of the located leaves with a path is the last leaf with it. -/
theorem Job.lastLeaf_of_locatedLeaves_eq {job : Job} {path : String} {leaf : Leaf}
    {earlier later : List Leaf} (hleaves : job.locatedLeaves = earlier ++ leaf :: later)
    (hpath : leaf.path = path) (hlater : ∀ other ∈ later, other.path ≠ path) :
  job.LastLeaf path leaf
  := by
  obtain ⟨ds, places, hds, htexts, hlocations⟩ := job.exists_hasLeaves
  rw [hleaves, List.map_append, List.map_cons] at htexts hlocations
  obtain ⟨before, back, rfl, hbefore, hback⟩ := List.map_eq_append_iff.mp htexts.symm
  obtain ⟨d, behind, rfl, hd, hbehind⟩ := List.map_eq_cons_iff.mp hback
  obtain ⟨hdpath, hvalue⟩ := Prod.mk.inj hd
  have hlength : before.length = earlier.length := by
    rw [← List.length_map (f := fun d : Descent => (d.path, d.value)), hbefore, List.length_map]
  have hplace : (places.map (·.bind (job.locations[·]?)))[before.length]? = some leaf.location? := by
    rw [← hlocations, List.getElem?_append_right (by simp [hlength])]
    simp [hlength]
  rw [List.getElem?_map, Option.map_eq_some_iff] at hplace
  obtain ⟨place?, hplace, hlocation⟩ := hplace
  refine ⟨before, d, behind, places, place?, hds, hdpath.trans hpath, ?_, hplace, ?_⟩
  · intro other hother
    have hmem : (other.path, other.value) ∈ later.map fun leaf => (leaf.path, leaf.value) := by
      rw [← hbehind]
      apply List.mem_map_of_mem hother
    obtain ⟨leaf', hleaf', heq⟩ := List.mem_map.mp hmem
    rw [← (Prod.mk.inj heq).1]
    apply hlater leaf' hleaf'
  · rw [hlocation, hvalue, ← hpath]

/-! ### Entries in the order of their paths -/

namespace Resolution

/-- Entries stand in the order of their paths, no path twice. -/
def Ordered (entries : List ResolvedAttribute) : Prop :=
  entries.Pairwise fun a b => compare a.path b.path = .lt

theorem mem_insertAttribute {a e : ResolvedAttribute} {entries : List ResolvedAttribute}
    (h : e ∈ insertAttribute a entries) :
  e = a ∨ e ∈ entries
  := by
  induction entries with
  | nil => simpa [insertAttribute] using h
  | cons b entries ih =>
      rw [insertAttribute] at h
      split at h
      · simpa using h
      · rcases List.mem_cons.mp h with rfl | h
        · exact Or.inl rfl
        · exact Or.inr (List.mem_cons_of_mem b h)
      · rcases List.mem_cons.mp h with rfl | h
        · exact Or.inr List.mem_cons_self
        · apply Or.imp_right (List.mem_cons_of_mem b) (ih h)

theorem Ordered.insertAttribute {entries : List ResolvedAttribute} (h : Ordered entries)
    (a : ResolvedAttribute) :
  Ordered (insertAttribute a entries)
  := by
  induction entries with
  | nil => apply List.pairwise_singleton
  | cons b entries ih =>
      obtain ⟨hfirst, hrest⟩ := List.pairwise_cons.mp h
      rw [JobIndex.insertAttribute]
      split
      · next hlt =>
        apply List.pairwise_cons.mpr
        refine ⟨?_, h⟩
        intro e he
        rcases List.mem_cons.mp he with rfl | he
        · exact hlt
        · apply Std.TransCmp.lt_trans hlt (hfirst e he)
      · next heq =>
        apply List.pairwise_cons.mpr
        refine ⟨?_, hrest⟩
        intro e he
        rw [Std.LawfulEqCmp.eq_of_compare heq]
        apply hfirst e he
      · next hgt =>
        apply List.pairwise_cons.mpr
        refine ⟨?_, ih hrest⟩
        intro e he
        rcases mem_insertAttribute he with rfl | he
        · apply Std.OrientedCmp.lt_of_gt hgt
        · apply hfirst e he

/-- The entry of a path after an entry has been inserted. -/
theorem find?_insertAttribute (a : ResolvedAttribute) (entries : List ResolvedAttribute)
    (path : String) :
  (insertAttribute a entries).find? (·.path == path)
    = ([a].find? (·.path == path)).or (entries.find? (·.path == path))
  := by
  induction entries with
  | nil => simp [insertAttribute]
  | cons b entries ih =>
      rw [insertAttribute]
      split
      · rw [← List.find?_append]
        rfl
      · next heq =>
        have hpath : a.path = b.path := Std.LawfulEqCmp.eq_of_compare heq
        simp only [List.find?_cons, List.find?_nil, hpath]
        split <;> rfl
      · next hgt =>
        have hpath : a.path ≠ b.path := by
          intro heq
          rw [Std.LawfulEqOrd.compare_eq_iff_eq.mpr heq] at hgt
          cases hgt
        rw [List.find?_cons, ih, List.find?_cons, List.find?_cons, List.find?_nil]
        cases hb : b.path == path with
        | false => rfl
        | true =>
            have ha : (a.path == path) = false := by
              rw [beq_eq_false_iff_ne, ← beq_iff_eq.mp hb]
              exact hpath
            rw [ha]
            rfl

/-- The entry of a path after entries have been inserted one after another is the last of them with
that path, or else the one there was. -/
theorem find?_foldl_insertAttribute (given entries : List ResolvedAttribute) (path : String) :
  (given.foldl (fun entries a => insertAttribute a entries) entries).find? (·.path == path)
    = (given.reverse.find? (·.path == path)).or (entries.find? (·.path == path))
  := by
  induction given generalizing entries with
  | nil => rfl
  | cons a given ih =>
      rw [List.foldl_cons, ih, find?_insertAttribute, List.reverse_cons, List.find?_append,
        Option.or_assoc]

theorem Ordered.foldl_insertAttribute {entries : List ResolvedAttribute} (h : Ordered entries)
    (given : List ResolvedAttribute) :
  Ordered (given.foldl (fun entries a => JobIndex.insertAttribute a entries) entries)
  := by
  induction given generalizing entries with
  | nil => exact h
  | cons a given ih => apply ih (h.insertAttribute a)

/-- An entry is the one that is found under its path. -/
theorem Ordered.mem_iff_find? {entries : List ResolvedAttribute} (h : Ordered entries)
    {a : ResolvedAttribute} :
  a ∈ entries ↔ entries.find? (·.path == a.path) = some a
  := by
  constructor
  · intro ha
    induction entries with
    | nil => cases ha
    | cons b entries ih =>
        obtain ⟨hfirst, hrest⟩ := List.pairwise_cons.mp h
        rcases List.mem_cons.mp ha with rfl | ha
        · simp
        · have hne : b.path ≠ a.path := by
            intro heq
            have hlt := hfirst a ha
            rw [Std.LawfulEqOrd.compare_eq_iff_eq.mpr heq] at hlt
            cases hlt
          simp only [List.find?_cons, beq_eq_false_iff_ne.mpr hne]
          apply ih hrest ha
  · apply List.mem_of_find?_eq_some

end Resolution

/-! ### Merging along a chain -/

namespace JobRegistry

/-- The values that a job gives under a name. -/
def given (depth : Nat) (name : String) (job : Job) : List ResolvedAttribute :=
  job.locatedLeaves.map fun leaf => ⟨leaf.path, leaf.value, name, leaf.location?, depth⟩

theorem contribution_of_name {job : Job} {name : String} (h : job.name? = some name) (depth : Nat) :
  contribution depth job = .ok (given depth name job)
  := by
  simp [contribution, Job.name, h, given]

/-- Of the values that a job gives for a path, the last is that of its last leaf with the path. -/
theorem lastLeaf_of_find?_given {depth : Nat} {name path : String} {job : Job}
    {a : ResolvedAttribute} (h : (given depth name job).reverse.find? (·.path == path) = some a) :
  ∃ leaf, job.LastLeaf path leaf ∧ a = ⟨path, leaf.value, name, leaf.location?, depth⟩
  := by
  obtain ⟨hpath, later, earlier, hsplit, hlater⟩ := List.find?_eq_some_iff_append.mp h
  rw [beq_iff_eq] at hpath
  have hgiven : given depth name job = earlier.reverse ++ a :: later.reverse := by
    rw [← List.reverse_reverse (given depth name job), hsplit]
    simp
  obtain ⟨front, back, hleaves, hfront, hback⟩ := List.map_eq_append_iff.mp hgiven
  obtain ⟨leaf, rest, rfl, rfl, hrest⟩ := List.map_eq_cons_iff.mp hback
  refine ⟨leaf, Job.lastLeaf_of_locatedLeaves_eq hleaves hpath ?_, ?_⟩
  · intro other hother heq
    have hmem : (⟨other.path, other.value, name, other.location?, depth⟩ : ResolvedAttribute)
        ∈ later.reverse := by
      rw [← hrest]
      apply List.mem_map_of_mem hother
    have hno := hlater _ (List.mem_reverse.mp hmem)
    simp [heq] at hno
  · rw [← hpath]

theorem find?_given_eq_none_iff {depth : Nat} {name path : String} {job : Job} :
  (given depth name job).reverse.find? (·.path == path) = none ↔ ¬ job.HasPath path
  := by
  rw [List.find?_eq_none, Job.hasPath_iff, ← (locateLeaves_sound job.leaves job.locations).1]
  simp [given, Job.locatedLeaves]

/-- Merging a list of jobs and then one more. -/
theorem merge_append_singleton (depth : Nat) (jobs : List Job) (job : Job)
    (entries : List ResolvedAttribute) {merged : List ResolvedAttribute} {name : String}
    (hjobs : merge depth jobs entries = .ok merged) (hname : job.name? = some name) :
  merge depth (jobs ++ [job]) entries = .ok
    ((given (depth + jobs.length) name job).foldl (fun entries a => insertAttribute a entries)
      merged)
  := by
  induction jobs generalizing depth entries with
  | nil =>
      rw [merge, Except.ok.injEq] at hjobs
      simp [merge, contribution_of_name hname, hjobs]
  | cons first jobs ih =>
      rw [merge] at hjobs
      rw [List.cons_append, merge]
      cases hfirst : contribution depth first with
      | error e =>
          rw [hfirst] at hjobs
          cases hjobs
      | ok given =>
          rw [hfirst] at hjobs
          simp only at hjobs ⊢
          rw [ih (depth + 1) _ hjobs, List.length_cons]
          congr 3
          omega

/-- `a` is what a chain of jobs, the closest first, gives for its path: of the first job that has
the path its last leaf. The place of that job is counted from the end of the chain. -/
def FromNearest (chain : List Job) (a : ResolvedAttribute) : Prop :=
  ∃ closer job farther leaf, chain = closer ++ job :: farther ∧
    (∀ other ∈ closer, ¬ other.HasPath a.path) ∧ job.LastLeaf a.path leaf ∧
    a.value = leaf.value ∧ a.location? = leaf.location? ∧ job.name? = some a.provenance ∧
    a.depth = farther.length

/-- The entries merged from a chain: in order, one for each path of the chain, and each from the
nearest job that has its path. -/
structure MergedFrom (chain : List Job) (entries : List ResolvedAttribute) : Prop where
  ordered : Resolution.Ordered entries
  paths : ∀ path, (∃ a ∈ entries, a.path = path) ↔ ∃ job ∈ chain, job.HasPath path
  nearest : ∀ a ∈ entries, FromNearest chain a

/-- One more job in front of a chain replaces the entries of its paths. -/
theorem MergedFrom.cons {chain : List Job} {entries : List ResolvedAttribute}
    (h : MergedFrom chain entries) {job : Job} {name : String} (hname : job.name? = some name) :
  MergedFrom (job :: chain) ((given chain.length name job).foldl
    (fun entries a => insertAttribute a entries) entries)
  := by
  have hordered := h.ordered.foldl_insertAttribute (given chain.length name job)
  constructor
  · exact hordered
  · intro path
    have hfind := Resolution.find?_foldl_insertAttribute (given chain.length name job) entries path
    have hold := h.paths path
    have hsome : ∀ l : List ResolvedAttribute,
        (∃ a ∈ l, a.path = path) ↔ (l.find? (·.path == path)).isSome := by
      intro l
      simp [List.find?_isSome]
    rw [hsome] at hold
    rw [hsome, hfind, Option.isSome_or, Bool.or_eq_true, hold, Option.isSome_iff_ne_none, ne_eq,
      find?_given_eq_none_iff, not_not]
    simp
  · intro a ha
    rw [hordered.mem_iff_find?, Resolution.find?_foldl_insertAttribute, Option.or_eq_some_iff] at ha
    rcases ha with hgiven | ⟨hnone, hentry⟩
    · obtain ⟨leaf, hlast, heq⟩ := lastLeaf_of_find?_given hgiven
      refine ⟨[], job, chain, leaf, rfl, by simp, hlast, ?_⟩
      rw [heq]
      exact ⟨rfl, rfl, hname, rfl⟩
    · have hmem := h.ordered.mem_iff_find?.mpr hentry
      obtain ⟨closer, other, farther, leaf, hchain, hcloser, hother⟩ := h.nearest a hmem
      refine ⟨job :: closer, other, farther, leaf, by rw [hchain]; rfl, ?_, hother⟩
      intro j hj
      rcases List.mem_cons.mp hj with rfl | hj
      · apply find?_given_eq_none_iff.mp hnone
      · apply hcloser j hj

/-- Merging a chain of jobs with names from its end succeeds. -/
theorem merge_reverse (chain : List Job) (hnamed : ∀ job ∈ chain, ∃ name, job.name? = some name) :
  ∃ entries, merge 0 chain.reverse [] = .ok entries ∧ MergedFrom chain entries
  := by
  induction chain with
  | nil => exact ⟨[], rfl, ⟨List.Pairwise.nil, by simp, by simp⟩⟩
  | cons job chain ih =>
      obtain ⟨name, hname⟩ := hnamed job List.mem_cons_self
      obtain ⟨entries, hmerge, hentries⟩ := ih fun j hj => hnamed j (List.mem_cons_of_mem job hj)
      refine ⟨_, ?_, hentries.cons hname⟩
      rw [List.reverse_cons, merge_append_singleton 0 chain.reverse job [] hmerge hname,
        List.length_reverse, Nat.zero_add]

/-- In a registry that is in step with a log, the active job of a name has that name. -/
theorem Represents.name_of_get? {r : JobRegistry} {log : JobLog} (hr : r.Represents log)
    {name : String} {job : Job} (h : r.get? name = some job) :
  job.name? = some name
  := by
  rw [hr.get?_eq] at h
  apply JobLog.name_of_newest? h

end JobRegistry

/-! ### The attributes of a job -/

namespace Ancestry

/-- The parent of the last ancestor is itself among the ancestors. -/
def Returns (a : Ancestry) : Prop :=
  ∃ last parent, a.jobs.getLast? = some last ∧ last.parent? = some parent ∧ parent ∈ a.names

/-- All ancestors have names, so that the names are those of the ancestors one by one. -/
theorem map_some_names {a : Ancestry} (h : ∀ job ∈ a.jobs, ∃ name, job.name? = some name) :
  a.names.map some = a.jobs.map Job.name?
  := by
  unfold names
  generalize a.jobs = jobs at h
  induction jobs with
  | nil => rfl
  | cons job jobs ih =>
      obtain ⟨name, hname⟩ := h job List.mem_cons_self
      rw [List.filterMap_cons_some hname, List.map_cons, List.map_cons, hname, ih]
      intro j hj
      apply h j (List.mem_cons_of_mem job hj)

end Ancestry

namespace JobRegistry

/-- All ancestors of a job with a name have names. -/
theorem Climb.named {r : JobRegistry} {log : JobLog} (hr : r.Represents log) {start name : String}
    {seen : List String} {job : Job} {a : Ancestry} {reported : List Diagnostic}
    (h : Climb r start seen job a reported) (hname : job.name? = some name) :
  ∀ j ∈ a.jobs, ∃ n, j.name? = some n
  := by
  obtain ⟨rest, hjobs, hrest⟩ := h.jobs_eq_cons
  rw [hjobs]
  intro j hj
  rcases List.mem_cons.mp hj with rfl | hj
  · exact ⟨name, hname⟩
  · obtain ⟨n, hget⟩ := hrest j hj
    exact ⟨n, hr.name_of_get? hget⟩

/-- The walk from a job with a name is cut exactly when it comes back to one of the ancestors. -/
theorem Climb.isTruncated_iff_returns {r : JobRegistry} {log : JobLog} (hr : r.Represents log)
    {name : String} {job : Job} {a : Ancestry} {reported : List Diagnostic}
    (h : Climb r name [name] job a reported) (hname : job.name? = some name) :
  a.isTruncated = true ↔ a.Returns
  := by
  obtain ⟨rest, hjobs, -⟩ := h.jobs_eq_cons
  have hnames : a.names = name :: rest.filterMap Job.name? := by
    rw [Ancestry.names, hjobs, List.filterMap_cons_some hname]
  rw [h.isTruncated_iff fun _ _ => hr.name_of_get?, Ancestry.Returns, hnames, hjobs]
  simp

/-- The attributes of a job with a name are those merged from its ancestors. -/
theorem Represents.exists_resolve {r : JobRegistry} {log : JobLog} (hr : r.Represents log)
    {job : Job} {name : String} (hname : job.name? = some name) :
  ∃ a entries reported, r.ancestors job = .ok (a, reported) ∧
    r.resolve job = .ok (⟨name, a.names.reverse, a.isTruncated, entries⟩, reported) ∧
    Climb r name [name] job a reported ∧ MergedFrom a.jobs entries
  := by
  obtain ⟨a, reported, hancestors, hclimb⟩ := r.ancestors_climb hname
  obtain ⟨entries, hmerge, hentries⟩ := merge_reverse a.jobs (hclimb.named hr hname)
  refine ⟨a, entries, reported, hancestors, ?_, hclimb, hentries⟩
  simp only [resolve, hancestors, Job.name, hname, hmerge]

/-- After any sequence of operations, the attributes of a job with a name, stored or not, are found:
they have the paths of the leaves of its ancestors, each with the value, the location and the name
of the nearest ancestor that has this path. They are cut exactly when the ancestors return. -/
theorem resolve_nearest_definition (operations : List Operation) {job : Job} {name : String}
    (hname : job.name? = some name) :
  ∃ a resolution reported,
    (run operations).ancestors job = .ok (a, reported) ∧
    (run operations).resolve job = .ok (resolution, reported) ∧
    resolution.job = name ∧
    MergedFrom a.jobs resolution.entries ∧
    resolution.chain = a.names.reverse ∧
    a.names.map some = a.jobs.map Job.name? ∧
    (resolution.truncated = true ↔ a.Returns)
  := by
  have hr := run_represents operations
  obtain ⟨a, entries, reported, hancestors, hresolve, hclimb, hentries⟩ := hr.exists_resolve hname
  exact ⟨a, ⟨name, a.names.reverse, a.isTruncated, entries⟩, reported, hancestors, hresolve, rfl,
    hentries, rfl, Ancestry.map_some_names (hclimb.named hr hname),
    hclimb.isTruncated_iff_returns hr hname⟩

/-- Two jobs that are each other's parent. The first has two leaves with one path, of which the last
counts, and it hides what the second has there. -/
theorem resolve_nearest_definition_mutual :
  let file : Path := ⟨"b.yaml"⟩
  let base : Job := ⟨⟨"a.yaml"⟩, [("name", .scalar "base"), ("parent", .scalar "unit"),
    ("timeout", .scalar "60"), ("vars", .group [("debug", .scalar "no")])], []⟩
  let unit : Job := ⟨file, [("name", .scalar "unit"), ("parent", .scalar "base"),
    ("vars.debug", .scalar "off"), ("vars", .group [("debug", .scalar "yes")])],
    [⟨"debug", file, 5, 8, 8, 13, 60, 65⟩, ⟨"yes", file, 5, 8, 15, 18, 67, 70⟩]⟩
  unit.name? = some "unit" ∧ ∃ a resolution reported,
    (run [.add unit, .add base, .add unit]).ancestors unit = .ok (a, reported) ∧
    (run [.add unit, .add base, .add unit]).resolve unit = .ok (resolution, reported) ∧
    resolution.job = "unit" ∧
    MergedFrom a.jobs resolution.entries ∧
    resolution.chain = a.names.reverse ∧
    a.names.map some = a.jobs.map Job.name? ∧
    (resolution.truncated = true ↔ a.Returns) ∧
    resolution.entries.map (fun e => (e.path, e.value, e.provenance, e.location?.map (·.startCol)))
      = [("name", "unit", "unit", none), ("parent", "base", "unit", none),
        ("timeout", "60", "base", none), ("vars.debug", "yes", "unit", some 15)] ∧
    resolution.chain = ["base", "unit"] ∧ resolution.truncated = true
  := by
  intro file base unit
  have hname : unit.name? = some "unit" := by decide
  have hentries : ((run [.add unit, .add base, .add unit]).resolve unit).toOption.map
      (fun answer => answer.1.entries.map fun e => (e.path, e.value, e.provenance,
        e.location?.map (·.startCol)))
      = some [("name", "unit", "unit", none), ("parent", "base", "unit", none),
        ("timeout", "60", "base", none), ("vars.debug", "yes", "unit", some 15)] := by
    decide +kernel
  have hcircle : ((run [.add unit, .add base, .add unit]).resolve unit).toOption.map
      (fun answer => (answer.1.chain, answer.1.truncated)) = some (["base", "unit"], true) := by
    decide +kernel
  obtain ⟨a, resolution, reported, hancestors, hresolve, hjob, hmerged, hchain, hnames, hcut⟩ :=
    resolve_nearest_definition [.add unit, .add base, .add unit] hname
  rw [hresolve] at hentries hcircle
  obtain ⟨hroot, htruncated⟩ := Prod.mk.inj (Option.some.inj hcircle)
  use hname, a, resolution, reported, hancestors, hresolve, hjob, hmerged, hchain, hnames, hcut
  exact ⟨Option.some.inj hentries, hroot, htruncated⟩

end JobRegistry

end JobIndex
