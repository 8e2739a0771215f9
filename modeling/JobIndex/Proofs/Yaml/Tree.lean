import JobIndex.Proofs.Record.Values

/-!
# Trees are rebuilt from their events

A document is a tree of nodes (`Node`), which a stream writes out as events. What a node means is
given by the tree alone: `Node.meaning` is its value, in which a reference stands for what its
anchor meant when that was closed last, and `Node.visits` lists the nodes in the order in which they
are finished, each with what is around it. What single scalars and keys mean is told first
(`scalarMeaning`, `keyText`).

* The events of a node lead every assembly to the same one with the value of the node attached, and
  tell the nodes that are not inside of a sealed sequence (`Node.runs`), by induction on the tree.
* Where nothing is open at the start, nothing is open at the end, and what has been told follows
  from the tree (`Node.rebuilt`).
-/

namespace JobIndex.Yaml

/-! ### What scalars and keys mean -/

/-- The tag of a node, written out in full, is one of those that seal. -/
def Properties.IsSealedBy (p : Properties) (sealedTags : List String) : Prop :=
  ∃ tag, p.tag = some tag ∧ tag.handle ++ tag.suffix ∈ sealedTags

instance (p : Properties) (sealedTags : List String) : Decidable (p.IsSealedBy sealedTags) :=
  match p with
  | ⟨_, none⟩ => isFalse fun ⟨_, h, _⟩ => nomatch h
  | ⟨_, some tag⟩ =>
    decidable_of_iff (tag.handle ++ tag.suffix ∈ sealedTags) <| by simp [Properties.IsSealedBy]

/-- The value of a scalar. Sealed it is a sequence of its text, whatever that is; not sealed it is
null, if it is plain and one of the words for that, and otherwise its text. -/
def scalarMeaning (sealedTags : List String) (style : Style) (text : String) (p : Properties) :
    Value :=
  if p.IsSealedBy sealedTags then .sequence [.scalar text]
  else if style = .plain ∧ text ∈ ["", "~", "null", "Null", "NULL"] then .null
  else .scalar text

/-- The text of a key with a value. All collections have the same. -/
def keyText : Value → String
  | .scalar text => text
  | .null => ""
  | .sequence _ => "<complex-key>"
  | .mapping _ => "<complex-key>"

@[simp]
theorem Properties.isSealedBy_iff {sealedTags : List String} {p : Properties} :
  p.IsSealedBy sealedTags ↔ Assembly.isSealed sealedTags p = true
  := by
  obtain ⟨anchor, _ | tag⟩ := p <;> simp [IsSealedBy, Assembly.isSealed, Tag.name]

theorem decide_isSealedBy (sealedTags : List String) (p : Properties) :
  decide (p.IsSealedBy sealedTags) = Assembly.isSealed sealedTags p
  := by
  simp

@[simp]
theorem scalarMeaning_eq (sealedTags : List String) (style : Style) (text : String)
    (p : Properties) :
  scalarMeaning sealedTags style text p = Assembly.scalarValue sealedTags style text p
  := by
  have hnull : (style = .plain ∧ text ∈ ["", "~", "null", "Null", "NULL"])
      ↔ (style == .plain && Assembly.isNullText text) = true := by
    simp [Assembly.isNullText, or_assoc]
  simp only [scalarMeaning, Assembly.scalarValue, Properties.isSealedBy_iff, hnull]

@[simp]
theorem keyText_eq (v : Value) :
  keyText v = v.toKey
  := by
  cases v <;> rfl

/-! ### Trees -/

/-- A node of a document: where it begins and, if it is a collection, where it ends. Any node can be
a key of a mapping. -/
inductive Node where
  | reference (mark : Mark) (anchor : Nat)
  | scalar (mark : Mark) (style : Style) (text : String) (properties : Properties)
  | sequence (start : Mark) (properties : Properties) (items : List Node) (finish : Mark)
  | mapping (start : Mark) (properties : Properties) (entries : List (Node × Node)) (finish : Mark)

/-- The values of the anchors that have been closed. -/
abbrev Anchors := Nat → Option Value

/-- One more anchor has been closed. A node with the number zero has no anchor. -/
def Anchors.closed (anchors : Anchors) (anchor : Nat) (v : Value) : Anchors :=
  fun other => if 0 < anchor ∧ other = anchor then some v else anchors other

namespace Node

/-- Where a node begins. -/
def mark : Node → Mark
  | .reference mark _ => mark
  | .scalar mark .. => mark
  | .sequence start .. => start
  | .mapping start .. => start

mutual

/-- The events of a node in the order of the text. -/
def events : Node → List MarkedEvent
  | .reference mark anchor => [⟨mark, .reference anchor⟩]
  | .scalar mark style text p => [⟨mark, .scalar style text p⟩]
  | .sequence start p items finish =>
    ⟨start, .sequenceStart p⟩ :: (eventsOf items ++ [⟨finish, .sequenceEnd⟩])
  | .mapping start p entries finish =>
    ⟨start, .mappingStart p⟩ :: (eventsOfEntries entries ++ [⟨finish, .mappingEnd⟩])

/-- The events of items. -/
def eventsOf : List Node → List MarkedEvent
  | [] => []
  | n :: ns => n.events ++ eventsOf ns

/-- The events of entries, each key before its value. -/
def eventsOfEntries : List (Node × Node) → List MarkedEvent
  | [] => []
  | (key, n) :: entries => key.events ++ (n.events ++ eventsOfEntries entries)

end

section

variable (sealedTags : List String)

mutual

/-- The value of a node, and the anchors that have been closed after it, by those before. -/
def meaning : Node → Anchors → Value × Anchors
  | .reference _ anchor, anchors => ((anchors anchor).getD .null, anchors)
  | .scalar _ style text p, anchors =>
    let v := scalarMeaning sealedTags style text p
    (v, anchors.closed p.anchor v)
  | .sequence _ p items _, anchors =>
    let (vs, anchors) := meaningOf items anchors
    (.sequence vs, anchors.closed p.anchor (.sequence vs))
  | .mapping _ p entries _, anchors =>
    let (vs, anchors) := meaningOfEntries entries anchors
    (.mapping vs, anchors.closed p.anchor (.mapping vs))

/-- The values of items. -/
def meaningOf : List Node → Anchors → List Value × Anchors
  | [], anchors => ([], anchors)
  | n :: ns, anchors =>
    let (v, anchors) := n.meaning anchors
    let (vs, anchors) := meaningOf ns anchors
    (v :: vs, anchors)

/-- The values of entries, under the texts of their keys. -/
def meaningOfEntries : List (Node × Node) → Anchors → List (String × Value) × Anchors
  | [], anchors => ([], anchors)
  | (key, n) :: entries, anchors =>
    let (k, anchors) := key.meaning anchors
    let (v, anchors) := n.meaning anchors
    let (vs, anchors) := meaningOfEntries entries anchors
    ((keyText k, v) :: vs, anchors)

end

end

/-- The kind under which a node is told; a sealed scalar is told as a sequence, a reference is not
told. -/
def kind? (sealedTags : List String) : Node → Option NodeKind
  | .reference .. => none
  | .scalar _ _ _ p => some (if p.IsSealedBy sealedTags then .sequence else .scalar)
  | .sequence .. => some .sequence
  | .mapping .. => some .mapping

end Node

/-! ### Nodes in the order in which they are finished -/

/-- Where a node stands in a tree. -/
structure Site where
  /-- The kinds of the collections around it, innermost first. -/
  around : List NodeKind
  isKey : Bool
  /-- Whether a sealed sequence is around it. -/
  isInside : Bool

namespace Site

/-- The place of the whole tree. -/
def root : Site :=
  ⟨[], false, false⟩

/-- The place of an item of a sequence, which may be sealed. -/
def item (site : Site) (isSealed : Bool) : Site :=
  ⟨.sequence :: site.around, false, site.isInside || isSealed⟩

/-- The place of a key of a mapping, or of a value. -/
def entry (site : Site) (isKey : Bool) : Site :=
  ⟨.mapping :: site.around, isKey, site.isInside⟩

end Site

/-- A node of a tree, where it stands, and the anchors that have been closed before it begins. -/
structure Visit where
  node : Node
  site : Site
  anchors : Anchors

/-- What is told of a node when it is finished. -/
def Visit.closing? (indents : Array Nat) (sealedTags : List String) (visit : Visit) :
    Option Closing :=
  if visit.site.isInside then none
  else (visit.node.kind? sealedTags).map fun kind =>
    { kind
      value := (visit.node.meaning sealedTags visit.anchors).1
      line := visit.node.mark.line - 1
      column := visit.node.mark.col
      indent := indents[visit.node.mark.line - 1]?.getD 0
      depth := visit.site.around.length
      parent? := visit.site.around.head?
      isKey := visit.site.isKey }

namespace Node

variable (sealedTags : List String)

mutual

/-- The nodes of a tree, each after those in it. -/
def visits : Node → Site → Anchors → List Visit
  | .reference mark anchor, site, anchors => [⟨.reference mark anchor, site, anchors⟩]
  | .scalar mark style text p, site, anchors => [⟨.scalar mark style text p, site, anchors⟩]
  | .sequence start p items finish, site, anchors =>
    visitsOf items (site.item (p.IsSealedBy sealedTags)) anchors
      ++ [⟨.sequence start p items finish, site, anchors⟩]
  | .mapping start p entries finish, site, anchors =>
    visitsOfEntries entries site anchors ++ [⟨.mapping start p entries finish, site, anchors⟩]

/-- The nodes of items that stand at a place. -/
def visitsOf : List Node → Site → Anchors → List Visit
  | [], _, _ => []
  | n :: ns, site, anchors =>
    n.visits site anchors ++ visitsOf ns site (n.meaning sealedTags anchors).2

/-- The nodes of the entries of a mapping that stands at a place. -/
def visitsOfEntries : List (Node × Node) → Site → Anchors → List Visit
  | [], _, _ => []
  | (key, n) :: entries, site, anchors =>
    let between := (key.meaning sealedTags anchors).2
    key.visits (site.entry true) anchors
      ++ (n.visits (site.entry false) between
        ++ visitsOfEntries entries site (n.meaning sealedTags between).2)

end

end Node

/-! ### Runs of an assembly -/

namespace Assembly

variable {indents : Array Nat} {sealedTags : List String}

/-- Where an event closes a sealed sequence, sealed collections are counted as open. -/
def Counts (a : Assembly) (e : MarkedEvent) : Prop :=
  e.event = .sequenceEnd → ∀ items start anchor frames,
    a.frames = .sequence items start anchor true :: frames → 0 < a.sealedDepth

/-- Events lead from one assembly to another and tell closings, and the number of open sealed
collections is never lowered below zero. -/
inductive Runs (indents : Array Nat) (sealedTags : List String) :
    Assembly → List MarkedEvent → Assembly → List Closing → Prop
  | nil {a : Assembly} : Runs indents sealedTags a [] a []
  | cons {a b : Assembly} {e : MarkedEvent} {events : List MarkedEvent} {told : List Closing}
      (hcounts : a.Counts e)
      (hruns : Runs indents sealedTags (a.step indents sealedTags e).1 events b told) :
      Runs indents sealedTags a (e :: events) b ((a.step indents sealedTags e).2.toList ++ told)

variable {a b c : Assembly} {events later : List MarkedEvent} {told told' : List Closing}

theorem Runs.append (h : Runs indents sealedTags a events b told)
    (h' : Runs indents sealedTags b later c told') :
  Runs indents sealedTags a (events ++ later) c (told ++ told')
  := by
  induction h with
  | nil => exact h'
  | cons hcounts _ ih =>
      rw [List.append_assoc]
      exact .cons hcounts (ih h')

/-- The closings of events are what their run tells. -/
theorem Runs.closings_eq (h : Runs indents sealedTags a events b told) :
  a.closings indents sealedTags events = told
  := by
  induction h with
  | nil => rfl
  | cons _ _ ih => rw [closings_cons, ih]

/-- One event is a run. -/
theorem runs_singleton {e : MarkedEvent} {closing? : Option Closing} (hcounts : a.Counts e)
    (hstep : a.step indents sealedTags e = (b, closing?)) :
  Runs indents sealedTags a [e] b closing?.toList
  := by
  have h : Runs indents sealedTags a [e] _ _ := .cons hcounts .nil
  rwa [hstep, List.append_nil] at h

theorem counts_of_ne {e : MarkedEvent} (h : e.event ≠ .sequenceEnd) :
  a.Counts e
  := by
  intro hend
  exact absurd hend h

/-! ### What an assembly knows -/

/-- The values of anchors of which the latest come first. -/
def known (anchors : List (Nat × Value)) : Anchors :=
  fun anchor => anchors.lookup anchor

/-- Where the next node stands. -/
def site (a : Assembly) : Site :=
  ⟨a.frames.map Frame.kind, (a.frames.head?.map Frame.expectsKey).getD false,
    decide (0 < a.sealedDepth)⟩

/-- The assembly inside of one more collection, with the given anchors. -/
def inside (a : Assembly) (frame : Frame) (anchors : List (Nat × Value)) : Assembly :=
  ⟨frame :: a.frames, anchors, if frame.isSealed then a.sealedDepth + 1 else a.sealedDepth⟩

variable {frame : Frame} {anchors : List (Nat × Value)}

theorem site_inside_sequence {items : List Value} {start : Mark} {anchor : Nat} {isSealed : Bool} :
  (a.inside (.sequence items start anchor isSealed) anchors).site = a.site.item isSealed
  := by
  cases isSealed <;> simp [site, inside, Site.item, Frame.isSealed, Frame.kind, Frame.expectsKey]

theorem site_inside_mapping {entries : List (String × Value)} {key? : Option String} {start : Mark}
    {anchor : Nat} :
  (a.inside (.mapping entries key? start anchor) anchors).site = a.site.entry key?.isNone
  := by
  cases key? <;> rfl

theorem attach_inside (v : Value) :
  (a.inside frame anchors).attach v = a.inside (frame.attach v) anchors
  := by
  simp only [inside, attach, Frame.isSealed_attach]

theorem inside_with_anchors (anchors' : List (Nat × Value)) :
  { a.inside frame anchors with anchors := anchors' } = a.inside frame anchors'
  := rfl

/-! ### Steps -/

theorem known_closed (anchor : Nat) (v : Value) :
  known (if anchor > 0 then (anchor, v) :: anchors else anchors) = (known anchors).closed anchor v
  := by
  funext other
  rw [Anchors.closed]
  split
  · next hpos =>
    simp only [known, List.lookup_cons, hpos, true_and]
    by_cases hother : other = anchor
    · simp [hother]
    · simp [hother, beq_eq_false_iff_ne.mpr hother]
  · next hzero => rw [if_neg fun h => hzero h.1]

/-- A finished node is told as the tree says. -/
theorem close_eq {n : Node} {kind : NodeKind} {before : Anchors} {v : Value} {start : Mark}
    (anchor : Nat) (hkind : n.kind? sealedTags = some kind)
    (hvalue : (n.meaning sealedTags before).1 = v) (hstart : n.mark = start) :
  a.close indents kind v start anchor
    = ({ a with anchors := if anchor > 0 then (anchor, v) :: a.anchors else a.anchors }.attach v,
      Visit.closing? indents sealedTags ⟨n, a.site, before⟩)
  := by
  subst hvalue hstart
  rw [close, Visit.closing?, hkind]
  simp only [site, decide_eq_true_eq, Option.map_some, closing, List.length_map, List.head?_map]

/-- An event that finishes a node is a run. -/
theorem runs_close {n : Node} {e : MarkedEvent} {kind : NodeKind} {before : Anchors} {v : Value}
    {start : Mark} {anchor : Nat} (hcounts : b.Counts e)
    (hstep : b.step indents sealedTags e = a.close indents kind v start anchor)
    (hkind : n.kind? sealedTags = some kind) (hvalue : (n.meaning sealedTags before).1 = v)
    (hstart : n.mark = start) :
  Runs indents sealedTags b [e]
    ({ a with anchors := if anchor > 0 then (anchor, v) :: a.anchors else a.anchors }.attach v)
    ([(⟨n, a.site, before⟩ : Visit)].filterMap (Visit.closing? indents sealedTags))
  := by
  rw [List.filterMap_eq_flatMap_toList, List.flatMap_singleton]
  apply runs_singleton hcounts
  rw [hstep]
  exact close_eq anchor hkind hvalue hstart

theorem step_scalar (mark : Mark) (style : Style) (text : String) (p : Properties) :
  a.step indents sealedTags ⟨mark, .scalar style text p⟩
    = a.close indents (scalarKind (scalarMeaning sealedTags style text p))
      (scalarMeaning sealedTags style text p) mark p.anchor
  := by
  rw [scalarMeaning_eq]
  rfl

theorem step_sequenceStart (start : Mark) (p : Properties) :
  a.step indents sealedTags ⟨start, .sequenceStart p⟩
    = (a.inside (.sequence [] start p.anchor (p.IsSealedBy sealedTags)) a.anchors, none)
  := by
  rw [decide_isSealedBy]
  rfl

theorem step_mappingStart (start : Mark) (p : Properties) :
  a.step indents sealedTags ⟨start, .mappingStart p⟩
    = (a.inside (.mapping [] none start p.anchor) a.anchors, none)
  := rfl

theorem step_sequenceEnd {items : List Value} {start finish : Mark} {anchor : Nat}
    {isSealed : Bool} :
  (a.inside (.sequence items.reverse start anchor isSealed) anchors).step indents sealedTags
      ⟨finish, .sequenceEnd⟩
    = { a with anchors }.close indents .sequence (.sequence items) start anchor
  := by
  nth_rewrite 2 [← List.reverse_reverse items]
  cases isSealed <;> rfl

theorem step_mappingEnd {entries : List (String × Value)} {key? : Option String}
    {start finish : Mark} {anchor : Nat} :
  (a.inside (.mapping entries.reverse key? start anchor) anchors).step indents sealedTags
      ⟨finish, .mappingEnd⟩
    = { a with anchors }.close indents .mapping (.mapping entries) start anchor
  := by
  nth_rewrite 2 [← List.reverse_reverse entries]
  rfl

/-- A sealed sequence that is closed has been counted. -/
theorem counts_inside_sequence {items : List Value} {start finish : Mark} {anchor : Nat}
    {isSealed : Bool} :
  (a.inside (.sequence items start anchor isSealed) anchors).Counts ⟨finish, .sequenceEnd⟩
  := by
  intro _ items' start' anchor' frames' hframes
  have hsealed : isSealed = true := by
    simp only [inside, List.cons.injEq, Frame.sequence.injEq] at hframes
    exact hframes.1.2.2.2
  rw [hsealed]
  apply Nat.succ_pos

end Assembly

open Assembly (Runs known counts_of_ne runs_singleton runs_close)

/-! ### Runs over trees -/

namespace Node

variable {indents : Array Nat} {sealedTags : List String}

theorem kind?_scalar (mark : Mark) (style : Style) (text : String) (p : Properties) :
  (scalar mark style text p).kind? sealedTags
    = some (Assembly.scalarKind (scalarMeaning sealedTags style text p))
  := by
  rw [kind?, scalarMeaning]
  split
  · rfl
  · split <;> rfl

variable (indents sealedTags) in
/-- The events of a node attach its value and tell its nodes. -/
def Rebuilt (n : Node) : Prop :=
  ∀ a : Assembly, ∃ anchors, known anchors = (n.meaning sealedTags (known a.anchors)).2 ∧
    Runs indents sealedTags a n.events
      ({ a with anchors }.attach (n.meaning sealedTags (known a.anchors)).1)
      ((n.visits sealedTags a.site (known a.anchors)).filterMap
        (Visit.closing? indents sealedTags))

theorem Rebuilt.inside {n : Node} (h : n.Rebuilt indents sealedTags) (a : Assembly) (frame : Frame)
    (anchors : List (Nat × Value)) :
  ∃ anchors', known anchors' = (n.meaning sealedTags (known anchors)).2 ∧
    Runs indents sealedTags (a.inside frame anchors) n.events
      (a.inside (frame.attach (n.meaning sealedTags (known anchors)).1) anchors')
      ((n.visits sealedTags (a.inside frame anchors).site (known anchors)).filterMap
        (Visit.closing? indents sealedTags))
  := by
  obtain ⟨anchors', hanchors', hruns⟩ := h (a.inside frame anchors)
  use anchors', hanchors'
  rwa [Assembly.inside_with_anchors, Assembly.attach_inside] at hruns

-- By recursion on the tree; items and entries are followed inside of the frame that collects them,
-- with what it holds already.
mutual

theorem runs : (n : Node) → n.Rebuilt indents sealedTags
  | .reference mark anchor => by
      intro a
      use a.anchors, rfl
      have hnone : Visit.closing? indents sealedTags
          ⟨.reference mark anchor, a.site, known a.anchors⟩ = none := by
        simp [Visit.closing?, kind?]
      rw [visits, List.filterMap_cons_none hnone, List.filterMap_nil]
      exact runs_singleton (counts_of_ne Event.noConfusion) rfl
  | .scalar mark style text p => by
      intro a
      refine ⟨_, Assembly.known_closed p.anchor _, ?_⟩
      exact runs_close (counts_of_ne Event.noConfusion) (Assembly.step_scalar mark style text p)
        (kind?_scalar mark style text p) rfl rfl
  | .sequence start p items finish => by
      intro a
      obtain ⟨anchors, hanchors, hitems⟩ :=
        runsOf items a [] start p.anchor (p.IsSealedBy sealedTags) a.anchors
      rw [List.append_nil] at hitems
      let v := Value.sequence (meaningOf sealedTags items (known a.anchors)).1
      use if p.anchor > 0 then (p.anchor, v) :: anchors else anchors
      constructor
      · rw [Assembly.known_closed, hanchors, meaning]
      · have hstart : Runs indents sealedTags a [⟨start, .sequenceStart p⟩] _ _ :=
          runs_singleton (counts_of_ne Event.noConfusion) (Assembly.step_sequenceStart start p)
        rw [events, visits, List.filterMap_append]
        apply hstart.append
        apply hitems.append
        exact runs_close Assembly.counts_inside_sequence Assembly.step_sequenceEnd rfl rfl rfl
  | .mapping start p entries finish => by
      intro a
      obtain ⟨anchors, hanchors, hentries⟩ := runsOfEntries entries a [] start p.anchor a.anchors
      rw [List.append_nil] at hentries
      let v := Value.mapping (meaningOfEntries sealedTags entries (known a.anchors)).1
      use if p.anchor > 0 then (p.anchor, v) :: anchors else anchors
      constructor
      · rw [Assembly.known_closed, hanchors, meaning]
      · have hstart : Runs indents sealedTags a [⟨start, .mappingStart p⟩] _ _ :=
          runs_singleton (counts_of_ne Event.noConfusion) (Assembly.step_mappingStart start p)
        rw [events, visits, List.filterMap_append]
        apply hstart.append
        apply hentries.append
        exact runs_close (counts_of_ne Event.noConfusion) Assembly.step_mappingEnd rfl rfl rfl

theorem runsOf : (ns : List Node) → (a : Assembly) → (items : List Value) → (start : Mark) →
    (anchor : Nat) → (isSealed : Bool) → (anchors : List (Nat × Value)) →
    ∃ anchors', known anchors' = (meaningOf sealedTags ns (known anchors)).2 ∧
      Runs indents sealedTags (a.inside (.sequence items start anchor isSealed) anchors)
        (eventsOf ns)
        (a.inside (.sequence ((meaningOf sealedTags ns (known anchors)).1.reverse ++ items) start
          anchor isSealed) anchors')
        ((visitsOf sealedTags ns (a.site.item isSealed) (known anchors)).filterMap
          (Visit.closing? indents sealedTags))
  | [], a, items, start, anchor, isSealed, anchors => by
      use anchors, rfl
      exact .nil
  | n :: ns, a, items, start, anchor, isSealed, anchors => by
      obtain ⟨between, hbetween, hn⟩ :=
        (runs n).inside a (.sequence items start anchor isSealed) anchors
      obtain ⟨anchors', hanchors', hns⟩ :=
        runsOf ns a ((n.meaning sealedTags (known anchors)).1 :: items) start anchor isSealed
          between
      rw [hbetween] at hanchors' hns
      rw [Assembly.site_inside_sequence] at hn
      use anchors', hanchors'
      rw [eventsOf, visitsOf, meaningOf, List.filterMap_append, List.reverse_cons,
        List.append_assoc]
      exact hn.append hns

theorem runsOfEntries : (es : List (Node × Node)) → (a : Assembly) →
    (entries : List (String × Value)) → (start : Mark) → (anchor : Nat) →
    (anchors : List (Nat × Value)) →
    ∃ anchors', known anchors' = (meaningOfEntries sealedTags es (known anchors)).2 ∧
      Runs indents sealedTags (a.inside (.mapping entries none start anchor) anchors)
        (eventsOfEntries es)
        (a.inside (.mapping ((meaningOfEntries sealedTags es (known anchors)).1.reverse ++ entries)
          none start anchor) anchors')
        ((visitsOfEntries sealedTags es a.site (known anchors)).filterMap
          (Visit.closing? indents sealedTags))
  | [], a, entries, start, anchor, anchors => by
      use anchors, rfl
      exact .nil
  | (key, n) :: es, a, entries, start, anchor, anchors => by
      let k := (key.meaning sealedTags (known anchors)).1.toKey
      obtain ⟨between, hbetween, hkey⟩ :=
        (runs key).inside a (.mapping entries none start anchor) anchors
      obtain ⟨after, hafter, hn⟩ :=
        (runs n).inside a (.mapping entries (some k) start anchor) between
      obtain ⟨anchors', hanchors', hes⟩ :=
        runsOfEntries es a ((k, (n.meaning sealedTags (known between)).1) :: entries) start anchor
          after
      rw [hafter] at hanchors' hes
      rw [hbetween] at hanchors' hes hn
      rw [Assembly.site_inside_mapping] at hkey hn
      use anchors', hanchors'
      rw [eventsOfEntries, visitsOfEntries, List.filterMap_append, List.filterMap_append]
      simp only [meaningOfEntries, keyText_eq, List.reverse_cons, List.append_assoc]
      exact hkey.append (hn.append hes)

end

variable (indents sealedTags) in
/-- What is told of a whole tree. -/
def told (n : Node) (anchors : Anchors) : List Closing :=
  (n.visits sealedTags .root anchors).filterMap (Visit.closing? indents sealedTags)

variable (indents sealedTags) in
/-- Where nothing is open at the start, nothing is open at the end, and each node that is not inside
of a sealed sequence is told once, after those in it. -/
theorem rebuilt (n : Node) (anchors : List (Nat × Value)) :
  ∃ anchors', known anchors' = (n.meaning sealedTags (known anchors)).2 ∧
    Runs indents sealedTags ⟨[], anchors, 0⟩ n.events ⟨[], anchors', 0⟩
      (n.told indents sealedTags (known anchors)) ∧
    Assembly.closings indents sealedTags ⟨[], anchors, 0⟩ n.events
      = n.told indents sealedTags (known anchors)
  := by
  obtain ⟨anchors', hanchors', hruns⟩ := @runs indents sealedTags n ⟨[], anchors, 0⟩
  exact ⟨anchors', hanchors', hruns, hruns.closings_eq⟩

/-- A mapping with an anchor that is referred to as a key, and with an unknown one; with nulls, a
quoted one, a sealed scalar, and a sealed sequence whose items are not told. -/
example :
  let mark : Mark := ⟨0, 1, 0⟩
  let plain (anchor : Nat) (text : String) : Node := .scalar mark .plain text ⟨anchor, none⟩
  let vault : Properties := ⟨0, some ⟨"!", "vault"⟩⟩
  let n : Node := .mapping mark .none [
    (plain 0 "name", plain 1 "unit"),
    (.reference mark 1, .scalar mark .doubleQuoted "null" .none),
    (.sequence mark .none [plain 0 "a"] mark, plain 0 "~"),
    (plain 0 "null", .scalar mark .plain "secret" vault),
    (.reference mark 2, .sequence mark vault [plain 0 "b", plain 0 ""] mark)] mark
  let value : Value := .mapping [("name", .scalar "unit"), ("unit", .scalar "null"),
    ("<complex-key>", .null), ("", .sequence [.scalar "secret"]), ("", .sequence [.scalar "b", .null])]
  let told := Assembly.closings #[0] ["!vault"] ⟨[], [], 0⟩ n.events
  (n.meaning ["!vault"] (known [])).1 = value ∧ told.getLast?.map (·.value) = some value ∧
    told.map (fun c => (c.kind, c.depth, c.isKey))
      = [(.scalar, 1, true), (.scalar, 1, false), (.scalar, 1, false), (.scalar, 2, false),
        (.sequence, 1, true), (.scalar, 1, false), (.scalar, 1, true), (.sequence, 1, false),
        (.sequence, 1, false), (.mapping, 0, false)]
  := by
  exact ⟨rfl, rfl, by decide⟩

end Node

end JobIndex.Yaml
