import JobIndex.Proofs.Yaml.Tree

/-!
# What is sealed is not told

A node can be sealed by its tag. While a sealed sequence is open, the assembly is inside of it
(`Assembly.Within`), which every event keeps that opens, closes or adds a node there, and no such
event tells anything. Hence, behind whatever events,

* a sealed scalar is told as a sequence of one item;
* from the start of a sealed sequence on nothing is told, and at its end the sequence as a whole.

A mapping cannot be sealed. Its tag makes no difference, so that all nodes inside of it are told and
then the mapping as what it is (`Assembly.closings_tagged_mapping`).
-/

namespace JobIndex.Yaml

/-! ### Events inside of a collection -/

/-- The kinds of the collections that are open inside of a collection after an event, innermost
first; none if the event does not stay inside, or closes a collection as what it is not. -/
def Event.within? (kinds : List NodeKind) : Event → Option (List NodeKind)
  | .reference _ | .scalar .. => some kinds
  | .sequenceStart _ => some (.sequence :: kinds)
  | .mappingStart _ => some (.mapping :: kinds)
  | .sequenceEnd =>
    match kinds with
    | .sequence :: kinds => some kinds
    | _ => none
  | .mappingEnd =>
    match kinds with
    | .mapping :: kinds => some kinds
    | _ => none
  | .documentStart | .documentEnd => none

/-- The kinds of the collections that are open inside of a collection after events. -/
def within? (kinds : List NodeKind) (events : List MarkedEvent) : Option (List NodeKind) :=
  events.foldlM (fun kinds e => e.event.within? kinds) kinds

namespace Assembly

variable {indents : Array Nat} {sealedTags : List String}

variable (indents sealedTags) in
/-- The assembly after events. -/
def after (a : Assembly) (events : List MarkedEvent) : Assembly :=
  events.foldl (fun a e => (a.step indents sealedTags e).1) a

theorem closings_append (a : Assembly) (events later : List MarkedEvent) :
  a.closings indents sealedTags (events ++ later)
    = a.closings indents sealedTags events
      ++ (a.after indents sealedTags events).closings indents sealedTags later
  := by
  induction events generalizing a with
  | nil => rfl
  | cons e events ih =>
      rw [List.cons_append, closings_cons, closings_cons, ih, List.append_assoc]
      rfl

/-! ### Inside of a sealed sequence -/

/-- The assembly `b` is inside of a sealed sequence that began where `a` was, and collections of the
given kinds are open inside of the sequence. -/
def Within (a : Assembly) (start : Mark) (anchor : Nat) (kinds : List NodeKind) (b : Assembly) :
    Prop :=
  ∃ inner items, b.frames = inner ++ .sequence items start anchor true :: a.frames ∧
    inner.map Frame.kind = kinds ∧
    b.sealedDepth = a.sealedDepth + 1 + inner.countP Frame.isSealed

variable {a b : Assembly} {start : Mark} {anchor : Nat} {kinds kinds' : List NodeKind}

/-- The start of a sealed sequence leads inside of it. -/
theorem within_sequenceStart {p : Properties} (hsealed : isSealed sealedTags p = true) :
  a.Within start p.anchor [] (a.step indents sealedTags ⟨start, .sequenceStart p⟩).1
  := by
  refine ⟨[], [], ?_, rfl, ?_⟩
  · simp [step, hsealed]
  · simp [step, hsealed]

theorem Within.attach (h : a.Within start anchor kinds b) (v : Value) :
  a.Within start anchor kinds (b.attach v)
  := by
  obtain ⟨inner, items, hframes, hkinds, hdepth⟩ := h
  cases inner with
  | nil =>
      refine ⟨[], v :: items, ?_, hkinds, ?_⟩
      · simp [Assembly.attach, hframes, Frame.attach]
      · simp [Assembly.attach, hframes, hdepth]
  | cons frame inner =>
      refine ⟨frame.attach v :: inner, items, ?_, ?_, ?_⟩
      · simp [Assembly.attach, hframes]
      · simpa using hkinds
      · simpa [Assembly.attach, hframes, List.countP_cons] using hdepth

/-- A node that is finished inside of a sealed sequence is not told. -/
theorem Within.close (h : a.Within start anchor kinds b) (kind : NodeKind) (v : Value)
    (mark : Mark) (anchor' : Nat) :
  a.Within start anchor kinds (b.close indents kind v mark anchor').1 ∧
    (b.close indents kind v mark anchor').2 = none
  := by
  constructor
  · have hanchors : a.Within start anchor kinds
        { b with anchors := if anchor' > 0 then (anchor', v) :: b.anchors else b.anchors } := h
    exact hanchors.attach v
  · obtain ⟨inner, _, _, _, hdepth⟩ := h
    have hpos : b.sealedDepth > 0 := by omega
    rw [Assembly.close, if_pos hpos]

/-- What happens inside of a sealed sequence is not told. -/
theorem Within.step {e : MarkedEvent} (h : a.Within start anchor kinds b)
    (he : e.event.within? kinds = some kinds') :
  a.Within start anchor kinds' (b.step indents sealedTags e).1 ∧
    (b.step indents sealedTags e).2 = none
  := by
  obtain ⟨mark, event⟩ := e
  cases event with
  | documentStart => cases he
  | documentEnd => cases he
  | reference other =>
      obtain rfl := Option.some.inj he
      exact ⟨h.attach _, rfl⟩
  | scalar style text p =>
      obtain rfl := Option.some.inj he
      apply h.close
  | sequenceStart p =>
      obtain rfl := Option.some.inj he
      obtain ⟨inner, items, hframes, hkinds, hdepth⟩ := h
      refine ⟨⟨.sequence [] mark p.anchor (isSealed sealedTags p) :: inner, items, ?_, ?_, ?_⟩, rfl⟩
      · simp [Assembly.step, hframes]
      · simp [hkinds, Frame.kind]
      · cases hsealed : isSealed sealedTags p with
        | false => simp [Assembly.step, hsealed, hdepth, Frame.isSealed]
        | true =>
            simp [Assembly.step, hsealed, hdepth, Frame.isSealed, List.countP_cons, Nat.add_assoc]
  | mappingStart p =>
      obtain rfl := Option.some.inj he
      obtain ⟨inner, items, hframes, hkinds, hdepth⟩ := h
      refine ⟨⟨.mapping [] none mark p.anchor :: inner, items, ?_, ?_, ?_⟩, rfl⟩
      · simp [Assembly.step, hframes]
      · simp [hkinds, Frame.kind]
      · simp [Assembly.step, hdepth, Frame.isSealed]
  | sequenceEnd =>
      obtain ⟨inner, items, hframes, rfl, hdepth⟩ := h
      cases inner with
      | nil => cases he
      | cons frame inner =>
          cases frame with
          | mapping => cases he
          | sequence items' start' anchor' isSealed' =>
              obtain rfl := Option.some.inj he
              simp only [Assembly.step, hframes, List.cons_append]
              apply Within.close
              refine ⟨inner, items, rfl, rfl, ?_⟩
              cases isSealed' with
              | false => simp [hdepth, Frame.isSealed]
              | true => simp [hdepth, Frame.isSealed, List.countP_cons, ← Nat.add_assoc]
  | mappingEnd =>
      obtain ⟨inner, items, hframes, rfl, hdepth⟩ := h
      cases inner with
      | nil => cases he
      | cons frame inner =>
          cases frame with
          | sequence => cases he
          | mapping entries key? start' anchor' =>
              obtain rfl := Option.some.inj he
              simp only [Assembly.step, hframes, List.cons_append]
              apply Within.close
              refine ⟨inner, items, rfl, rfl, ?_⟩
              simp [hdepth, Frame.isSealed]

theorem Within.run {events : List MarkedEvent} (h : a.Within start anchor kinds b)
    (hevents : Yaml.within? kinds events = some kinds') :
  a.Within start anchor kinds' (b.after indents sealedTags events) ∧
    b.closings indents sealedTags events = []
  := by
  induction events generalizing b kinds with
  | nil =>
      obtain rfl := Option.some.inj hevents
      exact ⟨h, rfl⟩
  | cons e events ih =>
      rw [Yaml.within?, List.foldlM_cons] at hevents
      obtain ⟨between, he, hevents⟩ := Option.bind_eq_some_iff.mp hevents
      obtain ⟨hstep, hsilent⟩ := @Within.step indents sealedTags _ _ _ _ _ _ e h he
      obtain ⟨hafter, hclosings⟩ := ih hstep hevents
      refine ⟨hafter, ?_⟩
      rw [closings_cons, hsilent, hclosings]
      rfl

/-! ### Sealed nodes -/

variable (indents sealedTags) in
/-- The events of a node tell at most the node itself, as a sequence of the given value: it is told
unless something sealed is around it, and its value is attached. -/
def ClosesAs (a : Assembly) (node : List MarkedEvent) (v : Value) (start : Mark) (anchor : Nat) :
    Prop :=
  ∃ anchors, ∀ later,
    let (b, told?) := { a with anchors }.close indents .sequence v start anchor
    a.closings indents sealedTags (node ++ later)
      = told?.toList ++ b.closings indents sealedTags later

variable {p : Properties} {inside : List MarkedEvent}

theorem closesAs_scalar (a : Assembly) (start : Mark) (style : Style) (text : String)
    (hsealed : isSealed sealedTags p = true) :
  a.ClosesAs indents sealedTags [⟨start, .scalar style text p⟩] (.sequence [.scalar text]) start
    p.anchor
  := by
  use a.anchors
  intro later
  have hstep : a.step indents sealedTags ⟨start, .scalar style text p⟩
      = a.close indents .sequence (.sequence [.scalar text]) start p.anchor := by
    simp [step, scalarValue, scalarKind, hsealed]
  rw [List.singleton_append, closings_cons, hstep]

/-- What is inside of a sealed sequence is not told, whether it ends or not. -/
theorem closings_sequenceStart (a : Assembly) (start : Mark)
    (hsealed : isSealed sealedTags p = true) (hinside : Yaml.within? [] inside = some kinds) :
  a.closings indents sealedTags (⟨start, .sequenceStart p⟩ :: inside) = []
  := by
  obtain ⟨-, hsilent⟩ := (within_sequenceStart hsealed).run hinside
  rw [closings_cons, hsilent]
  rfl

theorem closesAs_sequence (a : Assembly) (start finish : Mark)
    (hsealed : isSealed sealedTags p = true) (hinside : Yaml.within? [] inside = some []) :
  ∃ items, a.ClosesAs indents sealedTags
    (⟨start, .sequenceStart p⟩ :: (inside ++ [⟨finish, .sequenceEnd⟩])) (.sequence items) start
    p.anchor
  := by
  let b := a.after indents sealedTags (⟨start, .sequenceStart p⟩ :: inside)
  obtain ⟨inner, items, hframes, hinner, hdepth⟩ : a.Within start p.anchor [] b :=
    ((within_sequenceStart hsealed).run hinside).1
  obtain rfl := List.map_eq_nil_iff.mp hinner
  use items.reverse, b.anchors
  intro later
  have hend : b.step indents sealedTags ⟨finish, .sequenceEnd⟩
      = { a with anchors := b.anchors }.close indents .sequence (.sequence items.reverse) start
        p.anchor := by
    simp [step, hframes, hdepth]
  rw [List.cons_append, List.append_assoc, List.singleton_append, ← List.cons_append,
    closings_append, closings_sequenceStart a start hsealed hinside, List.nil_append, closings_cons,
    hend]

/-- Whatever comes before it, a node that is sealed by its tag is closed as a sequence and nothing
inside of it is told, if it is a scalar or a sequence. The tag of a mapping makes no difference. -/
theorem closings_sealed (indents : Array Nat) (sealedTags : List String)
    (before inside : List MarkedEvent) (start finish : Mark) (p : Properties)
    (hsealed : isSealed sealedTags p = true) :
  let a := empty.after indents sealedTags before
  (∀ later, empty.closings indents sealedTags (before ++ later)
    = empty.closings indents sealedTags before ++ a.closings indents sealedTags later) ∧
  (∀ style text, a.ClosesAs indents sealedTags [⟨start, .scalar style text p⟩]
    (.sequence [.scalar text]) start p.anchor) ∧
  (∀ kinds, within? [] inside = some kinds →
    a.closings indents sealedTags (⟨start, .sequenceStart p⟩ :: inside) = []) ∧
  (within? [] inside = some [] → ∃ items, a.ClosesAs indents sealedTags
    (⟨start, .sequenceStart p⟩ :: (inside ++ [⟨finish, .sequenceEnd⟩])) (.sequence items) start
    p.anchor) ∧
  ∀ later, a.closings indents sealedTags (⟨start, .mappingStart p⟩ :: later)
    = a.closings indents sealedTags (⟨start, .mappingStart { p with tag := none }⟩ :: later)
  := by
  intro a
  refine ⟨closings_append empty before, ?_, ?_, ?_, ?_⟩
  · intro style text
    exact closesAs_scalar a start style text hsealed
  · intro kinds hinside
    exact closings_sequenceStart a start hsealed hinside
  · intro hinside
    exact closesAs_sequence a start finish hsealed hinside
  · intro later
    rfl

/-- A sealed sequence in a mapping in a sealed sequence. -/
theorem closings_sealed_twice :
  let mark : Mark := ⟨0, 1, 0⟩
  let p : Properties := ⟨0, some ⟨"!", "s"⟩⟩
  let before : List MarkedEvent := [⟨mark, .documentStart⟩, ⟨mark, .sequenceStart .none⟩]
  let inner : List MarkedEvent :=
    [⟨mark, .sequenceStart p⟩, ⟨mark, .scalar .plain "b" .none⟩, ⟨mark, .sequenceEnd⟩]
  let inside : List MarkedEvent :=
    ⟨mark, .mappingStart p⟩ :: ⟨mark, .scalar .plain "a" p⟩ :: (inner ++ [⟨mark, .mappingEnd⟩])
  isSealed ["!s"] p = true ∧ within? [] inside = some [] ∧
    ∃ items, (empty.after #[] ["!s"] before).ClosesAs #[] ["!s"]
      (⟨mark, .sequenceStart p⟩ :: (inside ++ [⟨mark, .sequenceEnd⟩])) (.sequence items) mark 0
  := by
  intro mark p before inner inside
  have hsealed : isSealed ["!s"] p = true := by decide
  have hinside : within? [] inside = some [] := by decide
  obtain ⟨-, -, -, hsequence, -⟩ := closings_sealed #[] ["!s"] before inside mark mark p hsealed
  exact ⟨hsealed, hinside, hsequence hinside⟩

/-- A mapping with the tag of sealed nodes is told as what it is, after the scalars inside of it. -/
theorem closings_tagged_mapping :
  let text : String := "!s \x7ba: b\x7d\n"
  let isTagged (e : MarkedEvent) : Bool :=
    match e.event with
    | .mappingStart p => isSealed ["!s"] p
    | _ => false
  (EventStream.ofText text).fault = none ∧ (EventStream.ofText text).events.any isTagged = true ∧
    (Document.nodes ["!s"] text).map (fun c => (c.kind, c.value.asText, c.depth))
      = [(.scalar, some "a", 1), (.scalar, some "b", 1), (.mapping, none, 0)]
  := by decide +kernel

end Assembly

end JobIndex.Yaml
