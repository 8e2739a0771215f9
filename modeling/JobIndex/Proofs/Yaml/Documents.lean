import JobIndex.Proofs.Yaml.Tree

/-!
# A text is written by trees

The events of a text without a fault are those of documents, each of which is a tree
(`exists_writes`). What is expected in a slot is part of a tree (`Brings`):

* an event in front of events that bring what is expected after it makes them bring what is expected
  before it;
* hence all events of a text bring documents.

With what is told of a tree this gives the finished nodes of a text in terms of its trees
(`Writes.nodes_eq`).
-/

namespace JobIndex.Yaml

/-- A document of a stream: its node, and where it begins and ends. -/
structure Root where
  start : Mark
  node : Node
  finish : Mark

/-- The events of a document. -/
def Root.events (d : Root) : List MarkedEvent :=
  ⟨d.start, .documentStart⟩ :: (d.node.events ++ [⟨d.finish, .documentEnd⟩])

/-- A text is read without a fault as the given documents. -/
structure Writes (text : String) (docs : List Root) : Prop where
  no_fault : (EventStream.ofText text).fault = none
  events_eq : (EventStream.ofText text).events = docs.flatMap Root.events

/-! ### Trees from events -/

open Node (eventsOf eventsOfEntries)

/-- Events that begin with the trees that are expected in slots, and go on with documents. -/
def Brings : List Slot → List MarkedEvent → Prop
  | [], events => ∃ docs : List Root, events = docs.flatMap Root.events
  | .content :: slots, events => ∃ (n : Node) (later : List MarkedEvent),
      events = n.events ++ later ∧ Brings slots later
  | .ended :: slots, events => ∃ (finish : Mark) (later : List MarkedEvent),
      events = ⟨finish, .documentEnd⟩ :: later ∧ Brings slots later
  | .item :: slots, events => ∃ (items : List Node) (finish : Mark) (later : List MarkedEvent),
      events = eventsOf items ++ ⟨finish, .sequenceEnd⟩ :: later ∧ Brings slots later
  | .key :: slots, events =>
      ∃ (entries : List (Node × Node)) (finish : Mark) (later : List MarkedEvent),
        events = eventsOfEntries entries ++ ⟨finish, .mappingEnd⟩ :: later ∧ Brings slots later
  | .value :: slots, events =>
      ∃ (n : Node) (entries : List (Node × Node)) (finish : Mark) (later : List MarkedEvent),
        events = n.events ++ (eventsOfEntries entries ++ ⟨finish, .mappingEnd⟩ :: later) ∧
        Brings slots later

variable {slots slots' : List Slot} {events : List MarkedEvent}

/-- A node in the first slot. -/
theorem Passes.brings (h : Passes slots slots') (hlater : Brings slots' events) (n : Node) :
  Brings slots (n.events ++ events)
  := by
  cases h with
  | content => exact ⟨n, events, rfl, hlater⟩
  | item =>
      obtain ⟨items, finish, later, rfl, hlater⟩ := hlater
      refine ⟨n :: items, finish, later, ?_, hlater⟩
      rw [eventsOf, List.append_assoc]
  | key =>
      obtain ⟨value, entries, finish, later, rfl, hlater⟩ := hlater
      refine ⟨(n, value) :: entries, finish, later, ?_, hlater⟩
      rw [eventsOfEntries, List.append_assoc, List.append_assoc]
  | value =>
      obtain ⟨entries, finish, later, rfl, hlater⟩ := hlater
      exact ⟨n, entries, finish, later, rfl, hlater⟩

theorem Event.Turns.brings {e : MarkedEvent} (h : e.event.Turns slots slots')
    (hlater : Brings slots' events) :
  Brings slots (e :: events)
  := by
  obtain ⟨mark, event⟩ := e
  cases h with
  | documentStart =>
      obtain ⟨n, _, rfl, finish, _, rfl, docs, rfl⟩ := hlater
      use ⟨mark, n, finish⟩ :: docs
      simp [Root.events]
  | documentEnd => exact ⟨mark, events, rfl, hlater⟩
  | @reference anchor _ _ h => exact h.brings hlater (.reference mark anchor)
  | @scalar style text p _ _ h => exact h.brings hlater (.scalar mark style text p)
  | @sequenceStart p _ _ h =>
      obtain ⟨items, finish, later, rfl, hlater⟩ := hlater
      have hnode := h.brings hlater (.sequence mark p items finish)
      simpa [Node.events] using hnode
  | sequenceEnd => exact ⟨[], mark, events, rfl, hlater⟩
  | @mappingStart p _ _ h =>
      obtain ⟨entries, finish, later, rfl, hlater⟩ := hlater
      have hnode := h.brings hlater (.mapping mark p entries finish)
      simpa [Node.events] using hnode
  | mappingEnd => exact ⟨[], mark, events, rfl, hlater⟩

theorem Turning.brings (h : Turning slots events) :
  Brings slots events
  := by
  induction h with
  | nil => exact ⟨[], rfl⟩
  | cons hturns _ ih => exact hturns.brings ih

/-- A text without a fault is written by documents. -/
theorem exists_writes {text : String} (hfault : (EventStream.ofText text).fault = none) :
  ∃ docs, Writes text docs
  := by
  obtain ⟨docs, hdocs⟩ := (EventStream.turning_ofText hfault).brings
  exact ⟨docs, hfault, hdocs⟩

/-! ### What is told of documents -/

/-- The nodes of a document, each after those in it. -/
def Root.visits (sealedTags : List String) (d : Root) : List Visit :=
  d.node.visits sealedTags .root (Assembly.known [])

variable {indents : Array Nat} {sealedTags : List String}

/-- A document is told node by node, and leaves nothing behind. -/
theorem Root.runs (d : Root) :
  Assembly.Runs indents sealedTags .empty d.events .empty
    ((d.visits sealedTags).filterMap (Visit.closing? indents sealedTags))
  := by
  obtain ⟨anchors, -, hnode, -⟩ := d.node.rebuilt indents sealedTags []
  have hstart : Assembly.Runs indents sealedTags .empty [⟨d.start, .documentStart⟩] .empty [] :=
    Assembly.runs_singleton (Assembly.counts_of_ne Event.noConfusion) rfl
  have hfinish : Assembly.Runs indents sealedTags ⟨[], anchors, 0⟩ [⟨d.finish, .documentEnd⟩]
      .empty [] :=
    Assembly.runs_singleton (Assembly.counts_of_ne Event.noConfusion) rfl
  have hdocument := hstart.append (hnode.append hfinish)
  rwa [List.nil_append, List.append_nil] at hdocument

theorem runs_roots (docs : List Root) :
  Assembly.Runs indents sealedTags .empty (docs.flatMap Root.events) .empty
    ((docs.flatMap (Root.visits sealedTags)).filterMap (Visit.closing? indents sealedTags))
  := by
  induction docs with
  | nil => exact .nil
  | cons d docs ih =>
      rw [List.flatMap_cons, List.flatMap_cons, List.filterMap_append]
      exact d.runs.append ih

/-- The finished nodes of a text are those of its trees that are told. -/
theorem Writes.nodes_eq {text : String} {docs : List Root} (h : Writes text docs)
    (sealedTags : List String) :
  Document.nodes sealedTags text = (docs.flatMap (Root.visits sealedTags)).filterMap
    (Visit.closing? (Text.indentations text) sealedTags)
  := by
  rw [Document.nodes, closings, h.events_eq]
  exact (runs_roots docs).closings_eq

/-- What is told of a node. -/
structure Visit.Told (indents : Array Nat) (sealedTags : List String) (v : Visit) (c : Closing) :
    Prop where
  isInside_eq : v.site.isInside = false
  kind_eq : v.node.kind? sealedTags = some c.kind
  value_eq : (v.node.meaning sealedTags v.anchors).1 = c.value
  line_eq : c.line = v.node.mark.line - 1
  column_eq : c.column = v.node.mark.col
  indent_eq : c.indent = indents[c.line]?.getD 0
  depth_eq : c.depth = v.site.around.length
  parent_eq : c.parent? = v.site.around.head?
  isKey_eq : c.isKey = v.site.isKey

theorem Visit.told_of_closing? {v : Visit} {c : Closing}
    (h : v.closing? indents sealedTags = some c) :
  v.Told indents sealedTags c
  := by
  rw [closing?] at h
  split at h
  · cases h
  · next hinside =>
    obtain ⟨kind, hkind, rfl⟩ := Option.map_eq_some_iff.mp h
    exact ⟨by simpa using hinside, hkind, rfl, rfl, rfl, rfl, rfl, rfl, rfl⟩

/-! ### Nodes inside of a node -/

variable (sealedTags) in
/-- The nodes inside of a collection, each after those in it. -/
def Visit.below (v : Visit) : List Visit :=
  match v.node with
  | .reference .. | .scalar .. => []
  | .sequence _ p items _ =>
    Node.visitsOf sealedTags items (v.site.item (p.IsSealedBy sealedTags)) v.anchors
  | .mapping _ _ entries _ => Node.visitsOfEntries sealedTags entries v.site v.anchors

/-- Nothing is inside of a scalar. -/
theorem Visit.Told.below_eq_nil {v : Visit} {c : Closing} (h : v.Told indents sealedTags c)
    (hkind : c.kind = .scalar) :
  v.below sealedTags = []
  := by
  have hkind' := h.kind_eq
  rw [hkind] at hkind'
  cases hnode : v.node with
  | scalar => rw [below, hnode]
  | reference => rw [below, hnode]
  | sequence => simp [hnode, Node.kind?] at hkind'
  | mapping => simp [hnode, Node.kind?] at hkind'

theorem Visit.visits_eq (v : Visit) :
  v.node.visits sealedTags v.site v.anchors = v.below sealedTags ++ [v]
  := by
  obtain ⟨n, site, anchors⟩ := v
  cases n <;> rfl

theorem Node.mem_visits_self (n : Node) (site : Site) (anchors : Anchors) :
  ⟨n, site, anchors⟩ ∈ n.visits sealedTags site anchors
  := by
  rw [Visit.visits_eq ⟨n, site, anchors⟩]
  simp

/-- The first item of a document that is not sealed is one of its nodes. -/
theorem Root.mem_visits_item {d : Root} {start finish : Mark} {p : Properties} {n : Node}
    {ns : List Node} (h : d.node = .sequence start p (n :: ns) finish)
    (hp : Assembly.isSealed sealedTags p = false) :
  ⟨n, Site.root.item false, Assembly.known []⟩ ∈ d.visits sealedTags
  := by
  rw [Root.visits, h, Node.visits, decide_isSealedBy, hp]
  apply List.mem_append_left
  apply List.mem_append_left
  apply Node.mem_visits_self

variable (sealedTags) in
/-- Each node comes right after those inside of it. -/
def PostOrder (vs : List Visit) : Prop :=
  ∀ before v after, vs = before ++ v :: after → ∃ earlier, before = earlier ++ v.below sealedTags

theorem postOrder_nil :
  PostOrder sealedTags []
  := by
  intro before v after heq
  simp at heq

theorem PostOrder.append {vs ws : List Visit} (hvs : PostOrder sealedTags vs)
    (hws : PostOrder sealedTags ws) :
  PostOrder sealedTags (vs ++ ws)
  := by
  intro before v after heq
  obtain ⟨between, hbefore, hws'⟩ | ⟨between, hvs', hafter⟩ := List.append_eq_append_iff.mp heq
  · obtain ⟨earlier, hearlier⟩ := hws between v after hws'
    use vs ++ earlier
    rw [hbefore, hearlier, List.append_assoc]
  · cases between with
    | nil =>
        obtain ⟨earlier, hearlier⟩ := hws [] v after hafter.symm
        use vs ++ earlier
        rw [List.append_assoc, ← hearlier, List.append_nil, hvs', List.append_nil]
    | cons w between =>
        obtain ⟨rfl, -⟩ := List.cons.inj hafter
        exact hvs before v between hvs'

/-- A node is finished after those inside of it. -/
theorem PostOrder.finish {v : Visit} (h : PostOrder sealedTags (v.below sealedTags)) :
  PostOrder sealedTags (v.below sealedTags ++ [v])
  := by
  intro before w after heq
  obtain rfl | ⟨after', last, rfl⟩ := List.eq_nil_or_concat after
  · obtain ⟨rfl, hlast⟩ := List.append_inj' heq rfl
    obtain rfl := List.singleton_inj.mp hlast
    exact ⟨[], rfl⟩
  · rw [List.concat_eq_append, ← List.cons_append, ← List.append_assoc] at heq
    exact h before w after' (List.append_inj' heq rfl).1

namespace Node

mutual

theorem visits_postOrder : (n : Node) → (site : Site) → (anchors : Anchors) →
    PostOrder sealedTags (n.visits sealedTags site anchors)
  | .reference mark anchor, site, anchors =>
    PostOrder.finish (v := ⟨.reference mark anchor, site, anchors⟩) postOrder_nil
  | .scalar mark style text p, site, anchors =>
    PostOrder.finish (v := ⟨.scalar mark style text p, site, anchors⟩) postOrder_nil
  | .sequence start p items finish, site, anchors =>
    PostOrder.finish (v := ⟨.sequence start p items finish, site, anchors⟩)
      (visitsOf_postOrder items (site.item (p.IsSealedBy sealedTags)) anchors)
  | .mapping start p entries finish, site, anchors =>
    PostOrder.finish (v := ⟨.mapping start p entries finish, site, anchors⟩)
      (visitsOfEntries_postOrder entries site anchors)

theorem visitsOf_postOrder : (ns : List Node) → (site : Site) → (anchors : Anchors) →
    PostOrder sealedTags (visitsOf sealedTags ns site anchors)
  | [], _, _ => postOrder_nil
  | n :: ns, site, anchors =>
    (visits_postOrder n site anchors).append (visitsOf_postOrder ns site _)

theorem visitsOfEntries_postOrder : (entries : List (Node × Node)) → (site : Site) →
    (anchors : Anchors) → PostOrder sealedTags (visitsOfEntries sealedTags entries site anchors)
  | [], _, _ => postOrder_nil
  | (key, n) :: entries, site, anchors =>
    (visits_postOrder key (site.entry true) anchors).append
      ((visits_postOrder n (site.entry false) _).append (visitsOfEntries_postOrder entries site _))

end

/-! ### Depths -/

-- What is inside of a node is deeper than the node; of entries, only keys and values themselves are
-- not deeper than their mapping by more than one.
mutual

theorem mem_visits : (n : Node) → (site : Site) → (anchors : Anchors) → ∀ v : Visit,
    v ∈ n.visits sealedTags site anchors →
    (v.node = n ∧ v.site = site) ∨ site.around.length < v.site.around.length
  | .reference mark anchor, site, anchors, v, hv => by
      obtain rfl := List.mem_singleton.mp hv
      exact Or.inl ⟨rfl, rfl⟩
  | .scalar mark style text p, site, anchors, v, hv => by
      obtain rfl := List.mem_singleton.mp hv
      exact Or.inl ⟨rfl, rfl⟩
  | .sequence start p items finish, site, anchors, v, hv => by
      rw [visits, List.mem_append, List.mem_singleton] at hv
      obtain hv | rfl := hv
      · have hdepth := mem_visitsOf items _ anchors v hv
        exact Or.inr hdepth
      · exact Or.inl ⟨rfl, rfl⟩
  | .mapping start p entries finish, site, anchors, v, hv => by
      rw [visits, List.mem_append, List.mem_singleton] at hv
      obtain hv | rfl := hv
      · right
        obtain ⟨_, -, ⟨-, hsite⟩ | ⟨-, hsite⟩⟩ | hdepth :=
          mem_visitsOfEntries entries site anchors v hv
        · simp [hsite, Site.entry]
        · simp [hsite, Site.entry]
        · omega
      · exact Or.inl ⟨rfl, rfl⟩

theorem mem_visitsOf : (ns : List Node) → (site : Site) → (anchors : Anchors) → ∀ v : Visit,
    v ∈ visitsOf sealedTags ns site anchors → site.around.length ≤ v.site.around.length
  | [], _, _, v, hv => nomatch hv
  | n :: ns, site, anchors, v, hv => by
      rw [visitsOf, List.mem_append] at hv
      obtain hv | hv := hv
      · obtain ⟨-, hsite⟩ | hdepth := mem_visits n site anchors v hv
        · rw [hsite]
        · omega
      · exact mem_visitsOf ns site _ v hv

theorem mem_visitsOfEntries : (entries : List (Node × Node)) → (site : Site) →
    (anchors : Anchors) → ∀ v : Visit, v ∈ visitsOfEntries sealedTags entries site anchors →
    (∃ e ∈ entries, (v.node = e.1 ∧ v.site = site.entry true) ∨
      (v.node = e.2 ∧ v.site = site.entry false)) ∨
    site.around.length + 1 < v.site.around.length
  | [], _, _, v, hv => nomatch hv
  | (key, n) :: entries, site, anchors, v, hv => by
      rw [visitsOfEntries, List.mem_append, List.mem_append] at hv
      obtain hv | hv | hv := hv
      · obtain hkey | hdepth := mem_visits key _ anchors v hv
        · exact Or.inl ⟨_, List.mem_cons_self, Or.inl hkey⟩
        · exact Or.inr hdepth
      · obtain hn | hdepth := mem_visits n _ _ v hv
        · exact Or.inl ⟨_, List.mem_cons_self, Or.inr hn⟩
        · exact Or.inr hdepth
      · obtain ⟨e, he, hv⟩ | hdepth := mem_visitsOfEntries entries site _ v hv
        · exact Or.inl ⟨e, List.mem_cons_of_mem _ he, hv⟩
        · exact Or.inr hdepth

end

end Node

/-- What is inside of a node is deeper than the node. -/
theorem Visit.length_around_lt {v w : Visit} (h : w ∈ v.below sealedTags) :
  v.site.around.length < w.site.around.length
  := by
  rw [below] at h
  split at h
  · cases h
  · cases h
  · next p items _ _ =>
    exact Node.mem_visitsOf items _ v.anchors w h
  · next entries _ _ =>
    obtain ⟨_, -, ⟨-, hsite⟩ | ⟨-, hsite⟩⟩ | hdepth :=
      Node.mem_visitsOfEntries entries v.site v.anchors w h
    · simp [hsite, Site.entry]
    · simp [hsite, Site.entry]
    · omega

/-! ### Parts of a mapping -/

namespace Node

theorem meaningOfEntries_append (entries later : List (Node × Node)) (anchors : Anchors) :
  meaningOfEntries sealedTags (entries ++ later) anchors =
    let (vs, anchors) := meaningOfEntries sealedTags entries anchors
    let (ws, anchors) := meaningOfEntries sealedTags later anchors
    (vs ++ ws, anchors)
  := by
  induction entries generalizing anchors with
  | nil => rfl
  | cons e entries ih => simp only [List.cons_append, meaningOfEntries, ih]

theorem visitsOfEntries_append (entries later : List (Node × Node)) (site : Site)
    (anchors : Anchors) :
  visitsOfEntries sealedTags (entries ++ later) site anchors =
    visitsOfEntries sealedTags entries site anchors ++
      visitsOfEntries sealedTags later site (meaningOfEntries sealedTags entries anchors).2
  := by
  induction entries generalizing anchors with
  | nil => rfl
  | cons e entries ih =>
      simp only [List.cons_append, visitsOfEntries, meaningOfEntries, ih, List.append_assoc]

end Node

/-- An entry of a mapping, and those before and after it. -/
structure Entry where
  before : List (Node × Node)
  key : Node
  value : Node
  after : List (Node × Node)

namespace Entry

/-- A node is a mapping with an entry. -/
def In (e : Entry) (m : Visit) : Prop :=
  ∃ start p finish, m.node = .mapping start p (e.before ++ (e.key, e.value) :: e.after) finish

variable (sealedTags) (e : Entry) (m : Visit)

/-- The values of the entries before an entry. -/
def earlier : List (String × Value) :=
  (Node.meaningOfEntries sealedTags e.before m.anchors).1

/-- The key of an entry. -/
def keyVisit : Visit :=
  ⟨e.key, m.site.entry true, (Node.meaningOfEntries sealedTags e.before m.anchors).2⟩

/-- The value of an entry. -/
def valueVisit : Visit :=
  ⟨e.value, m.site.entry false, (e.key.meaning sealedTags (e.keyVisit sealedTags m).anchors).2⟩

/-- The nodes of the entries before an entry. -/
def visitsBefore : List Visit :=
  Node.visitsOfEntries sealedTags e.before m.site m.anchors

/-- The nodes of the entries after an entry. -/
def visitsAfter : List Visit :=
  Node.visitsOfEntries sealedTags e.after m.site
    (e.value.meaning sealedTags (e.valueVisit sealedTags m).anchors).2

variable {sealedTags e m}

theorem In.below_eq (h : e.In m) :
  m.below sealedTags = e.visitsBefore sealedTags m ++
    ((e.keyVisit sealedTags m).below sealedTags ++ e.keyVisit sealedTags m ::
      ((e.valueVisit sealedTags m).below sealedTags ++ e.valueVisit sealedTags m ::
        e.visitsAfter sealedTags m))
  := by
  obtain ⟨start, p, finish, hnode⟩ := h
  have hkey := @Visit.visits_eq sealedTags (e.keyVisit sealedTags m)
  have hvalue := @Visit.visits_eq sealedTags (e.valueVisit sealedTags m)
  rw [List.append_cons, List.append_cons (Visit.below _ (valueVisit ..)), ← hkey, ← hvalue,
    Visit.below, hnode]
  exact Node.visitsOfEntries_append ..

/-- The value of a mapping has the value of an entry behind those of the entries before it. -/
theorem In.exists_meaning_eq (h : e.In m) :
  ∃ later, (m.node.meaning sealedTags m.anchors).1 = .mapping (e.earlier sealedTags m ++
    ((e.key.meaning sealedTags (e.keyVisit sealedTags m).anchors).1.toKey,
      (e.value.meaning sealedTags (e.valueVisit sealedTags m).anchors).1) :: later)
  := by
  obtain ⟨start, p, finish, hnode⟩ := h
  rw [hnode, Node.meaning, Node.meaningOfEntries_append, ← keyText_eq]
  exact ⟨_, rfl⟩

end Entry

theorem Root.visits_postOrder (docs : List Root) :
  PostOrder sealedTags (docs.flatMap (Root.visits sealedTags))
  := by
  induction docs with
  | nil => exact postOrder_nil
  | cons d docs ih =>
      rw [List.flatMap_cons]
      exact (d.node.visits_postOrder _ _).append ih

end JobIndex.Yaml
