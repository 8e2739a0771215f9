import JobIndex.Proofs.Index.Resolution
import JobIndex.Query.Hierarchy
import Mathlib.Data.List.Chain

/-!
# Descendants and ancestors

The tree of descendants is built downwards, and enters no name that is on the way from the root. The
ancestors are collected upwards, and no name is met again. Both follow ways through the registry
that meet no name twice (`Way`): a name is in the tree exactly when a way leads down to it from the
root, and among the ancestors exactly when a way leads up to it. A way up is a way down read
backwards, so the two are dual.

An active job has one parent, so of two ways up from a name one begins the other. For this reason no
name comes twice in a tree.
-/

namespace JobIndex

/-! ### The nodes of a tree -/

namespace Hierarchy

mutual

/-- The nodes of a tree: the name of a job, its file and the line of its name. -/
def nodes : Hierarchy → List (String × Path × Option Nat)
  | .node name file line? children => (name, file, line?) :: nodesOf children

/-- The nodes of trees. -/
def nodesOf : List Hierarchy → List (String × Path × Option Nat)
  | [] => []
  | h :: hs => h.nodes ++ nodesOf hs

end

/-- The names of the jobs in a tree. -/
def names (h : Hierarchy) : List String :=
  h.nodes.map Prod.fst

theorem nodesOf_eq_flatMap (hs : List Hierarchy) :
  nodesOf hs = hs.flatMap nodes
  := by
  induction hs with
  | nil => rfl
  | cons h hs ih => rw [nodesOf, ih, List.flatMap_cons]

theorem names_node (name : String) (file : Path) (line? : Option Nat) (children : List Hierarchy) :
  (node name file line? children).names = name :: children.flatMap names
  := by
  rw [names, nodes, nodesOf_eq_flatMap, List.map_cons, List.map_flatMap]
  rfl

mutual

/-- The size of a tree is the number of its nodes. -/
theorem length_nodes : (h : Hierarchy) → h.nodes.length = h.size
  | .node name file line? children => by
      rw [nodes, List.length_cons, length_nodesOf children, size, Nat.add_comm]

theorem length_nodesOf : (hs : List Hierarchy) → (nodesOf hs).length = sizes hs
  | [] => rfl
  | h :: hs => by
      rw [nodesOf, List.length_append, length_nodes h, length_nodesOf hs, sizes]

end

end Hierarchy

/-! ### Ways -/

/-- A way along a relation: it meets no name twice, and none of those in `avoid`. -/
structure Way (next : String → String → Prop) (avoid way : List String) : Prop where
  chain : way.IsChain next
  nodup : way.Nodup
  fresh : ∀ name ∈ way, name ∉ avoid

namespace Way

variable {next : String → String → Prop} {avoid way : List String} {name other : String}

theorem singleton_iff :
  Way next avoid [name] ↔ name ∉ avoid
  := by
  constructor
  · intro h
    apply h.fresh name List.mem_cons_self
  · intro h
    exact ⟨List.isChain_singleton name, List.nodup_singleton name, by simpa using h⟩

/-- A way goes on with a way that also avoids its first name. -/
theorem cons_cons_iff :
  Way next avoid (name :: other :: way)
    ↔ name ∉ avoid ∧ next name other ∧ Way next (name :: avoid) (other :: way)
  := by
  constructor
  · intro h
    obtain ⟨hnext, hchain⟩ := List.isChain_cons_cons.mp h.chain
    obtain ⟨hname, hnodup⟩ := List.nodup_cons.mp h.nodup
    refine ⟨h.fresh name List.mem_cons_self, hnext, hchain, hnodup, ?_⟩
    intro n hn havoid
    obtain rfl | havoid := List.mem_cons.mp havoid
    · apply hname hn
    · apply h.fresh n (List.mem_cons_of_mem name hn) havoid
  · rintro ⟨hname, hnext, h⟩
    constructor
    · apply List.isChain_cons_cons.mpr ⟨hnext, h.chain⟩
    · apply List.nodup_cons.mpr ⟨?_, h.nodup⟩
      intro hmem
      apply h.fresh name hmem List.mem_cons_self
    · intro n hn
      obtain rfl | hn := List.mem_cons.mp hn
      · exact hname
      · intro havoid
        apply h.fresh n hn (List.mem_cons_of_mem name havoid)

/-- A way that avoids nothing can be read backwards. -/
theorem reverse (h : Way next [] way) :
  Way (fun b a => next a b) [] way.reverse
  := ⟨List.isChain_reverse.mpr h.chain, List.nodup_reverse.mpr h.nodup, fun _ _ => List.not_mem_nil⟩

end Way

namespace JobRegistry

variable {r : JobRegistry} {log : JobLog}

/-- The active job of the name `child` has the parent `parent`. -/
def IsChild (r : JobRegistry) (child parent : String) : Prop :=
  ∃ job, r.get? child = some job ∧ job.parent? = some parent

/-- `way` leads down from the name `name` to the name `below`. -/
def WayDown (r : JobRegistry) (above : List String) (name below : String) (way : List String) :
    Prop :=
  Way (fun parent child => r.IsChild child parent) above (name :: way) ∧
    (name :: way).getLast? = some below

/-- A name has one parent. -/
theorem IsChild.unique {child parent parent' : String} (h : r.IsChild child parent)
    (h' : r.IsChild child parent') :
  parent = parent'
  := by
  obtain ⟨job, hget, hparent⟩ := h
  obtain ⟨job', hget', hparent'⟩ := h'
  obtain rfl : job = job' := Option.some.inj (hget ▸ hget')
  apply Option.some.inj (hparent ▸ hparent')

/-- The children of a name are the jobs that have it as their parent. -/
theorem Represents.mem_children_iff_get? (hr : r.Represents log) {parent child : String}
    {job : Job} (hname : job.name? = some child) :
  job ∈ r.children parent ↔ r.get? child = some job ∧ job.parent? = some parent
  := by
  rw [hr.mem_children]
  constructor
  · rintro ⟨⟨name, hnewest⟩, hparent⟩
    rw [← hr.get?_eq] at hnewest
    obtain rfl : name = child := Option.some.inj (hr.name_of_get? hnewest ▸ hname)
    exact ⟨hnewest, hparent⟩
  · rintro ⟨hget, hparent⟩
    rw [hr.get?_eq] at hget
    exact ⟨⟨child, hget⟩, hparent⟩

theorem Represents.exists_name_of_mem_children (hr : r.Represents log) {parent : String}
    {job : Job} (h : job ∈ r.children parent) :
  ∃ child, job.name? = some child
  := by
  obtain ⟨⟨child, hnewest⟩, -⟩ := (hr.mem_children parent job).mp h
  exact ⟨child, JobLog.name_of_newest? hnewest⟩

/-! ### The subtrees of a tree -/

/-- The trees below a name, at most `depth` deep: of each child that is not on the way to it. -/
def subtrees (r : JobRegistry) (depth : Nat) (above : List String) (name : String) :
    List Hierarchy :=
  (r.children name).filterMap fun child =>
    match child.name? with
    | none => none
    | some childName =>
      if (name :: above).contains childName then none
      else some (r.descend depth (name :: above) childName child)

theorem descend_succ (r : JobRegistry) (depth : Nat) (above : List String) (name : String)
    (job : Job) :
  r.descend (depth + 1) above name job
    = .node name job.file (job.nameLocation?.map Location.line) (r.subtrees depth above name)
  := rfl

/-- The trees below a name are those of its children that are not on the way to it. -/
theorem Represents.mem_subtrees (hr : r.Represents log) {depth : Nat} {above : List String}
    {name : String} {tree : Hierarchy} :
  tree ∈ r.subtrees depth above name ↔ ∃ child job, r.get? child = some job ∧
    job.parent? = some name ∧ child ∉ name :: above ∧
    tree = r.descend depth (name :: above) child job
  := by
  rw [subtrees, List.mem_filterMap]
  constructor
  · rintro ⟨job, hjob, htree⟩
    obtain ⟨child, hname⟩ := hr.exists_name_of_mem_children hjob
    obtain ⟨hget, hparent⟩ := (hr.mem_children_iff_get? hname).mp hjob
    simp only [hname] at htree
    split at htree
    · cases htree
    · next hfresh =>
      rw [List.contains_iff_mem] at hfresh
      exact ⟨child, job, hget, hparent, hfresh, (Option.some.inj htree).symm⟩
  · rintro ⟨child, job, hget, hparent, hfresh, rfl⟩
    have hname := hr.name_of_get? hget
    use job, (hr.mem_children_iff_get? hname).mpr ⟨hget, hparent⟩
    simp only [hname, List.contains_iff_mem, hfresh, if_false]

/-! ### The tree holds what ways lead down to -/

/-- A tree of some depth holds the names that ways of at most this length lead to. -/
theorem Represents.mem_names_descend (hr : r.Represents log) {depth : Nat} {above : List String}
    {name below : String} {job : Job} (hname : name ∉ above) :
  below ∈ (r.descend depth above name job).names
    ↔ ∃ way, r.WayDown above name below way ∧ way.length ≤ depth
  := by
  have hhere : r.WayDown above name name [] := ⟨Way.singleton_iff.mpr hname, rfl⟩
  induction depth generalizing above name job with
  | zero =>
      rw [descend, Hierarchy.names_node, List.flatMap_nil, List.mem_singleton]
      constructor
      · rintro rfl
        exact ⟨[], hhere, le_rfl⟩
      · rintro ⟨way, ⟨-, hlast⟩, hlength⟩
        obtain rfl := List.eq_nil_of_length_eq_zero (Nat.le_zero.mp hlength)
        exact (Option.some.inj hlast).symm
  | succ depth ih =>
      rw [descend_succ, Hierarchy.names_node, List.mem_cons, List.mem_flatMap]
      constructor
      · rintro (rfl | ⟨tree, htree, hbelow⟩)
        · exact ⟨[], hhere, Nat.zero_le _⟩
        · obtain ⟨child, job', hget, hparent, hfresh, rfl⟩ := hr.mem_subtrees.mp htree
          obtain ⟨way, ⟨hway, hlast⟩, hlength⟩ :=
            (ih hfresh ⟨Way.singleton_iff.mpr hfresh, rfl⟩).mp hbelow
          refine ⟨child :: way, ⟨?_, ?_⟩, Nat.succ_le_succ hlength⟩
          · apply Way.cons_cons_iff.mpr ⟨hname, ⟨job', hget, hparent⟩, hway⟩
          · rw [List.getLast?_cons_cons, hlast]
      · rintro ⟨way, ⟨hway, hlast⟩, hlength⟩
        cases way with
        | nil => exact Or.inl (Option.some.inj hlast).symm
        | cons child way =>
            obtain ⟨-, ⟨job', hget, hparent⟩, hway⟩ := Way.cons_cons_iff.mp hway
            have hfresh := hway.fresh child List.mem_cons_self
            rw [List.getLast?_cons_cons] at hlast
            right
            refine ⟨_, hr.mem_subtrees.mpr ⟨child, job', hget, hparent, hfresh, rfl⟩, ?_⟩
            apply (ih hfresh ⟨Way.singleton_iff.mpr hfresh, rfl⟩).mpr
            exact ⟨way, ⟨hway, hlast⟩, Nat.le_of_succ_le_succ hlength⟩

/-- Below the first name of a way all names are names of the registry. -/
theorem WayDown.mem_keys {above way : List String} {name below : String}
    (h : r.WayDown above name below way) :
  ∀ n ∈ way, n ∈ r.byName.keys
  := by
  obtain ⟨hway, -⟩ := h
  clear below
  induction way generalizing above name with
  | nil => exact fun _ hn => (nomatch hn)
  | cons child way ih =>
      obtain ⟨-, ⟨job, hget, -⟩, hway⟩ := Way.cons_cons_iff.mp hway
      intro n hn
      obtain rfl | hn := List.mem_cons.mp hn
      · apply mem_keys_of_get? hget
      · apply ih hway n hn

/-- No way is longer than there are names. -/
theorem WayDown.length_le {above way : List String} {name below : String}
    (h : r.WayDown above name below way) :
  way.length ≤ r.count
  := by
  have hsub : way ⊆ r.byName.keys := h.mem_keys
  have hle := (List.subperm_of_subset (List.nodup_cons.mp h.1.nodup).2 hsub).length_le
  rwa [Table.keys, List.length_map] at hle

/-! ### The bound on the depth -/

/-- A tree does not depend on its depth, if that is at least the number of names that have not been
met. -/
theorem Represents.descend_eq (hr : r.Represents log) {depth depth' : Nat} {above : List String}
    {name : String} (job : Job) (h : (r.unseen (name :: above)).length ≤ depth)
    (h' : (r.unseen (name :: above)).length ≤ depth') :
  r.descend depth above name job = r.descend depth' above name job
  := by
  -- A child that is entered was a name not yet met, so where none is left there is no subtree.
  have hnone : ∀ {above : List String} {name : String},
      (r.unseen (name :: above)).length ≤ 0 → ∀ depth, r.subtrees depth above name = [] := by
    intro above name hzero depth
    apply List.eq_nil_iff_forall_not_mem.mpr
    intro tree htree
    obtain ⟨child, job', hget, -, hfresh, -⟩ := hr.mem_subtrees.mp htree
    have hlt := length_unseen_cons_lt (mem_keys_of_get? hget) hfresh
    omega
  have hzero : ∀ (depth : Nat) {above : List String} {name : String} (job : Job),
      (r.unseen (name :: above)).length ≤ 0 →
      r.descend depth above name job = r.descend 0 above name job := by
    intro depth above name job hzero
    cases depth with
    | zero => rfl
    | succ depth => rw [descend_succ, hnone hzero, descend]
  induction depth generalizing depth' above name job with
  | zero => exact (hzero depth' job h).symm
  | succ depth ih =>
      cases depth' with
      | zero => exact hzero (depth + 1) job h'
      | succ depth' =>
          rw [descend_succ, descend_succ, subtrees, subtrees]
          congr 1
          apply List.filterMap_congr
          intro job' hjob'
          obtain ⟨child, hname⟩ := hr.exists_name_of_mem_children hjob'
          obtain ⟨hget, -⟩ := (hr.mem_children_iff_get? hname).mp hjob'
          simp only [hname]
          split
          · rfl
          · next hfresh =>
            rw [List.contains_iff_mem] at hfresh
            have hlt := length_unseen_cons_lt (mem_keys_of_get? hget) hfresh
            have hleft : (r.unseen (child :: name :: above)).length ≤ depth := by omega
            have hright : (r.unseen (child :: name :: above)).length ≤ depth' := by omega
            rw [ih job' hleft hright]

/-! ### No name twice -/

/-- Of two ways up from a name one begins the other. -/
theorem isPrefix_of_chain {up up' : List String} {name : String}
    (h : (name :: up).IsChain r.IsChild) (h' : (name :: up').IsChain r.IsChild) :
  name :: up <+: name :: up' ∨ name :: up' <+: name :: up
  := by
  induction up generalizing name up' with
  | nil => exact Or.inl (by simp)
  | cons parent up ih =>
      cases up' with
      | nil => exact Or.inr (by simp)
      | cons parent' up' =>
          obtain ⟨hparent, hup⟩ := List.isChain_cons_cons.mp h
          obtain ⟨hparent', hup'⟩ := List.isChain_cons_cons.mp h'
          obtain rfl := hparent.unique hparent'
          obtain hprefix | hprefix := ih hup hup'
          · exact Or.inl (List.cons_prefix_cons.mpr ⟨rfl, hprefix⟩)
          · exact Or.inr (List.cons_prefix_cons.mpr ⟨rfl, hprefix⟩)

/-- A way down that avoids a name has no child of that name but its first name. -/
theorem eq_of_isChild_of_mem {above way : List String} {name first child : String}
    (hway : Way (fun parent child => r.IsChild child parent) above (first :: way))
    (habove : name ∈ above) (hchild : r.IsChild child name) (hmem : child ∈ first :: way) :
  child = first
  := by
  induction way generalizing above first with
  | nil => exact List.mem_singleton.mp hmem
  | cons second way ih =>
      obtain ⟨hfirst, hsecond, hrest⟩ := Way.cons_cons_iff.mp hway
      obtain rfl | hmem := List.mem_cons.mp hmem
      · rfl
      · obtain rfl := ih hrest (List.mem_cons_of_mem first habove) hmem
        -- the parent of the second name is the first, which is not the name to be avoided
        obtain rfl := hchild.unique hsecond
        exact absurd habove hfirst

/-- Ways down from two children of a name, which avoid that name, lead to different names. -/
theorem WayDown.child_unique {above way way' : List String} {name child child' below : String}
    (hchild : r.IsChild child name) (hchild' : r.IsChild child' name)
    (h : r.WayDown (name :: above) child below way)
    (h' : r.WayDown (name :: above) child' below way') :
  child = child'
  := by
  obtain ⟨hway, hlast⟩ := h
  obtain ⟨hway', hlast'⟩ := h'
  obtain ⟨up, hup⟩ : ∃ up, (child :: way).reverse = below :: up :=
    List.head?_eq_some_iff.mp (by rw [List.head?_reverse, hlast])
  obtain ⟨up', hup'⟩ : ∃ up', (child' :: way').reverse = below :: up' :=
    List.head?_eq_some_iff.mp (by rw [List.head?_reverse, hlast'])
  have hchain := List.isChain_reverse.mpr hway.chain
  have hchain' := List.isChain_reverse.mpr hway'.chain
  rw [hup] at hchain
  rw [hup'] at hchain'
  obtain hprefix | hprefix := isPrefix_of_chain hchain hchain'
  · rw [← hup, ← hup', List.reverse_prefix] at hprefix
    apply eq_of_isChild_of_mem hway' List.mem_cons_self hchild
    apply hprefix.subset List.mem_cons_self
  · rw [← hup, ← hup', List.reverse_prefix] at hprefix
    symm
    apply eq_of_isChild_of_mem hway List.mem_cons_self hchild'
    apply hprefix.subset List.mem_cons_self

/-- Different subtrees have no name in common. -/
theorem Represents.subtrees_pairwise (hr : r.Represents log) (depth : Nat) (above : List String)
    (name : String) :
  (r.subtrees depth above name).Pairwise fun tree tree' => tree.names.Disjoint tree'.names
  := by
  rw [subtrees, List.pairwise_filterMap]
  apply (hr.children_sorted name).imp_of_mem
  rintro job job' hjob hjob' ⟨child, child', hname, hname', hlt⟩ tree htree tree' htree'
  obtain ⟨hget, hparent⟩ := (hr.mem_children_iff_get? hname).mp hjob
  obtain ⟨hget', hparent'⟩ := (hr.mem_children_iff_get? hname').mp hjob'
  simp only [hname, hname'] at htree htree'
  split at htree
  · cases htree
  · next hfresh =>
    split at htree'
    · cases htree'
    · next hfresh' =>
      obtain rfl := Option.some.inj htree
      obtain rfl := Option.some.inj htree'
      rw [List.contains_iff_mem] at hfresh hfresh'
      intro below hbelow hbelow'
      obtain ⟨way, hway, -⟩ := (hr.mem_names_descend hfresh).mp hbelow
      obtain ⟨way', hway', -⟩ := (hr.mem_names_descend hfresh').mp hbelow'
      have heq := WayDown.child_unique ⟨job, hget, hparent⟩ ⟨job', hget', hparent'⟩ hway hway'
      exact absurd heq (ne_of_lt hlt)

/-- No name comes twice in a tree. -/
theorem Represents.nodup_names_descend (hr : r.Represents log) {depth : Nat} {above : List String}
    {name : String} {job : Job} :
  (r.descend depth above name job).names.Nodup
  := by
  induction depth generalizing above name job with
  | zero => simp [descend, Hierarchy.names_node]
  | succ depth ih =>
      rw [descend_succ, Hierarchy.names_node, List.nodup_cons, List.mem_flatMap,
        List.nodup_flatMap]
      refine ⟨?_, ?_, hr.subtrees_pairwise depth above name⟩
      · rintro ⟨tree, htree, hmem⟩
        obtain ⟨child, job', -, -, hfresh, rfl⟩ := hr.mem_subtrees.mp htree
        -- a way below a child avoids the name itself
        obtain ⟨way, ⟨hway, hlast⟩, -⟩ := (hr.mem_names_descend hfresh).mp hmem
        apply hway.fresh name (List.mem_of_getLast? hlast) List.mem_cons_self
      · intro tree htree
        obtain ⟨child, job', -, -, -, rfl⟩ := hr.mem_subtrees.mp htree
        apply ih

/-- The nodes of a tree are active jobs, each under its name. -/
theorem Represents.get?_of_mem_nodes (hr : r.Represents log) {depth : Nat} {above : List String}
    {name : String} {job : Job} (hget : r.get? name = some job) :
  ∀ e ∈ (r.descend depth above name job).nodes, ∃ other, r.get? e.1 = some other ∧
    e.2 = (other.file, other.nameLocation?.map Location.line)
  := by
  induction depth generalizing above name job with
  | zero =>
      intro e he
      obtain rfl := List.mem_singleton.mp he
      exact ⟨job, hget, rfl⟩
  | succ depth ih =>
      rw [descend_succ, Hierarchy.nodes, Hierarchy.nodesOf_eq_flatMap]
      intro e he
      obtain rfl | he := List.mem_cons.mp he
      · exact ⟨job, hget, rfl⟩
      · obtain ⟨tree, htree, he⟩ := List.mem_flatMap.mp he
        obtain ⟨child, job', hget', -, -, rfl⟩ := hr.mem_subtrees.mp htree
        apply ih hget' e he

/-! ### The ancestors are what ways lead up to -/

/-- `way` leads up from the name `name` to the name `above`. -/
def WayUp (r : JobRegistry) (avoid : List String) (name above : String) (way : List String) :
    Prop :=
  Way r.IsChild avoid (name :: way) ∧ (name :: way).getLast? = some above

/-- Where the parent is none, has been met or is no job, a way up to a job does not go on. -/
theorem exists_wayUp_iff_eq {avoid : List String} {name above : String} (hname : name ∉ avoid)
    (habove : (r.get? above).isSome)
    (hstop : ∀ parent, r.IsChild name parent → parent ∈ name :: avoid ∨ r.get? parent = none) :
  (∃ way, r.WayUp avoid name above way) ↔ above = name
  := by
  constructor
  · rintro ⟨way, hway, hlast⟩
    cases way with
    | nil => exact (Option.some.inj hlast).symm
    | cons parent way =>
        obtain ⟨-, hparent, hrest⟩ := Way.cons_cons_iff.mp hway
        obtain hmet | hnone := hstop parent hparent
        · exact absurd hmet (hrest.fresh parent List.mem_cons_self)
        · -- the way ends at a job, or goes on from one
          exfalso
          cases way with
          | nil =>
              rw [List.getLast?_cons_cons] at hlast
              obtain rfl : parent = above := Option.some.inj hlast
              rw [hnone] at habove
              cases habove
          | cons grandparent way =>
              obtain ⟨-, ⟨next, hnext, -⟩, -⟩ := Way.cons_cons_iff.mp hrest
              rw [hnone] at hnext
              cases hnext
  · rintro rfl
    exact ⟨[], Way.singleton_iff.mpr hname, rfl⟩

/-- A way up goes on from the parent. -/
theorem exists_wayUp_iff_parent {avoid : List String} {name parent above : String}
    (hname : name ∉ avoid) (hchild : r.IsChild name parent) :
  (∃ way, r.WayUp avoid name above way)
    ↔ above = name ∨ ∃ way, r.WayUp (name :: avoid) parent above way
  := by
  constructor
  · rintro ⟨way, hway, hlast⟩
    cases way with
    | nil => exact Or.inl (Option.some.inj hlast).symm
    | cons parent' way =>
        obtain ⟨-, hchild', hrest⟩ := Way.cons_cons_iff.mp hway
        obtain rfl := hchild.unique hchild'
        rw [List.getLast?_cons_cons] at hlast
        exact Or.inr ⟨way, hrest, hlast⟩
  · rintro (rfl | ⟨way, hway, hlast⟩)
    · exact ⟨[], Way.singleton_iff.mpr hname, rfl⟩
    · refine ⟨parent :: way, Way.cons_cons_iff.mpr ⟨hname, hchild, hway⟩, ?_⟩
      rw [List.getLast?_cons_cons, hlast]

/-- The names of the ancestors are those of jobs that ways lead up to. -/
theorem Climb.mem_names_iff (hr : r.Represents log) {start name above : String}
    {avoid : List String} {job : Job} {a : Ancestry} {reported : List Diagnostic}
    (h : Climb r start (name :: avoid) job a reported) (hget : r.get? name = some job)
    (hname : name ∉ avoid) (habove : (r.get? above).isSome) :
  above ∈ a.names ↔ ∃ way, r.WayUp avoid name above way
  := by
  generalize hseen : name :: avoid = seen at h
  induction h generalizing name avoid with
  | @root seen job hparent =>
      rw [exists_wayUp_iff_eq hname habove]
      · simp [Ancestry.names, hr.name_of_get? hget]
      · rintro parent ⟨job', hget', hparent'⟩
        obtain rfl : job = job' := Option.some.inj (hget ▸ hget')
        rw [hparent] at hparent'
        cases hparent'
  | @cycle seen job parent hparent hmem =>
      rw [exists_wayUp_iff_eq hname habove]
      · simp [Ancestry.names, hr.name_of_get? hget]
      · intro parent' hchild
        rw [hchild.unique ⟨job, hget, hparent⟩, hseen]
        exact Or.inl hmem
  | @missing seen job parent hparent _ hmissing =>
      rw [exists_wayUp_iff_eq hname habove]
      · simp [Ancestry.names, hr.name_of_get? hget]
      · intro parent' hchild
        rw [hchild.unique ⟨job, hget, hparent⟩]
        exact Or.inr hmissing
  | @up seen job next parent a reported hparent hfresh hnext _ ih =>
      subst hseen
      rw [exists_wayUp_iff_parent hname ⟨job, hget, hparent⟩, ← ih hnext hfresh rfl]
      simp [Ancestry.names, hr.name_of_get? hget]

/-! ### Duality -/

/-- A way down is a way up read backwards. -/
theorem exists_wayDown_iff_wayUp {name below : String} :
  (∃ way, r.WayDown [] name below way) ↔ ∃ way, r.WayUp [] below name way
  := by
  constructor
  · rintro ⟨way, hway, hlast⟩
    obtain ⟨up, hup⟩ : ∃ up, (name :: way).reverse = below :: up :=
      List.head?_eq_some_iff.mp (by rw [List.head?_reverse, hlast])
    use up
    constructor
    · rw [← hup]
      apply hway.reverse
    · rw [← hup, List.getLast?_reverse, List.head?_cons]
  · rintro ⟨way, hway, hlast⟩
    obtain ⟨down, hdown⟩ : ∃ down, (below :: way).reverse = name :: down :=
      List.head?_eq_some_iff.mp (by rw [List.head?_reverse, hlast])
    use down
    constructor
    · rw [← hdown]
      apply hway.reverse
    · rw [← hdown, List.getLast?_reverse, List.head?_cons]

/-- `tree` is the tree of the descendants of the job `job` with the name `name`. -/
structure HoldsDescendants (r : JobRegistry) (name : String) (job : Job) (tree : Hierarchy) :
    Prop where
  /-- The bound on the depth is never reached: no greater one gives another tree. -/
  bound : ∀ depth, r.count ≤ depth → r.descend depth [] name job = tree
  /-- The nodes are active jobs, -/
  active : ∀ e ∈ tree.nodes, ∃ other, r.get? e.1 = some other ∧
    e.2 = (other.file, other.nameLocation?.map Location.line)
  /-- no two of them with the same name, -/
  nodup : tree.names.Nodup
  /-- and an active job is among them exactly when the root is one of its ancestors. -/
  dual : ∀ below other, r.get? below = some other →
    ∃ a reported, r.ancestors other = .ok (a, reported) ∧ (below ∈ tree.names ↔ name ∈ a.names)
  /-- So there are not more nodes than names. -/
  size_le : tree.size ≤ r.count

/-- After any sequence of operations, the active job of a name has a tree of descendants: the active
jobs that have it among their ancestors, each once. -/
theorem hierarchy_holdsDescendants (operations : List Operation) {name : String} {job : Job}
    (hget : (run operations).get? name = some job) :
  ∃ tree, (run operations).hierarchy? name = some tree ∧
    (run operations).HoldsDescendants name job tree
  := by
  have hr := run_represents operations
  generalize run operations = r at hr hget
  have hfresh : name ∉ ([] : List String) := List.not_mem_nil
  have hactive : ∀ e ∈ (r.descend r.count [] name job).nodes, ∃ other, r.get? e.1 = some other ∧
      e.2 = (other.file, other.nameLocation?.map Location.line) := hr.get?_of_mem_nodes hget
  have hnodup : (r.descend r.count [] name job).names.Nodup := hr.nodup_names_descend
  use r.descend r.count [] name job
  refine ⟨by rw [hierarchy?, hget, Option.map_some], ?_, hactive, hnodup, ?_, ?_⟩
  · intro depth hdepth
    have hunseen := r.length_unseen_le [name]
    apply hr.descend_eq job (hunseen.trans hdepth) hunseen
  · intro below other hother
    obtain ⟨a, reported, hancestors, hclimb⟩ := r.ancestors_climb (hr.name_of_get? hother)
    refine ⟨a, reported, hancestors, ?_⟩
    rw [hclimb.mem_names_iff hr hother List.not_mem_nil (by rw [hget]; rfl),
      ← exists_wayDown_iff_wayUp, hr.mem_names_descend hfresh]
    constructor
    · rintro ⟨way, hway, -⟩
      exact ⟨way, hway⟩
    · rintro ⟨way, hway⟩
      exact ⟨way, hway, hway.length_le⟩
  · have hsub : (r.descend r.count [] name job).names ⊆ r.byName.keys := by
      intro n hn
      obtain ⟨e, he, rfl⟩ := List.mem_map.mp hn
      obtain ⟨other, hother, -⟩ := hactive e he
      apply mem_keys_of_get? hother
    have hle := (List.subperm_of_subset hnodup hsub).length_le
    rwa [Hierarchy.names, List.length_map, Hierarchy.length_nodes, Table.keys, List.length_map]
      at hle

/-- Two jobs that are each other's parent, and a third one below them. -/
theorem hierarchy_holdsDescendants_mutual :
  let base : Job := ⟨⟨"a.yaml"⟩, [("name", .scalar "base"), ("parent", .scalar "unit")], []⟩
  let unit : Job := ⟨⟨"b.yaml"⟩, [("name", .scalar "unit"), ("parent", .scalar "base")], []⟩
  let lint : Job := ⟨⟨"b.yaml"⟩, [("name", .scalar "lint"), ("parent", .scalar "unit")], []⟩
  (run [.add base, .add unit, .add lint]).get? "base" = some base ∧
    ∃ tree, (run [.add base, .add unit, .add lint]).hierarchy? "base" = some tree ∧
      (run [.add base, .add unit, .add lint]).HoldsDescendants "base" base tree
  := by
  intro base unit lint
  have hget : (run [.add base, .add unit, .add lint]).get? "base" = some base := by rfl
  exact ⟨hget, hierarchy_holdsDescendants [.add base, .add unit, .add lint] hget⟩

end JobRegistry

end JobIndex
