import JobIndex.Yaml.Closing
import JobIndex.Yaml.Event.Grammar

/-!
# The events of a text are nested

A stream of documents opens and closes its collections in pairs, each document holds one node, and
keys of a mapping alternate with values (`Turning`). The machine that yields the events knows what
is expected next, and what after that, from its position and from the positions it goes on from
(`Grammar.path`, `openSlots`):

* a step of the machine yields an event that leads from what is expected to what is expected
  afterwards, whatever tokens it reads;
* hence the events of a text without a fault turn from slot to slot, and they are nested (`Nested`):
  nothing is open at the ends of a document, and each collection is closed as what it is.
-/

namespace JobIndex.Yaml

/-! ### Nested events -/

/-- The kinds of the collections that are open, innermost first, before and after an event. -/
inductive Event.Nests : Event → List NodeKind → List NodeKind → Prop where
  | documentStart : documentStart.Nests [] []
  | documentEnd : documentEnd.Nests [] []
  | reference {anchor kinds} : (reference anchor).Nests kinds kinds
  | scalar {style text properties kinds} : (scalar style text properties).Nests kinds kinds
  | sequenceStart {properties kinds} : (sequenceStart properties).Nests kinds (.sequence :: kinds)
  | sequenceEnd {kinds} : sequenceEnd.Nests (.sequence :: kinds) kinds
  | mappingStart {properties kinds} : (mappingStart properties).Nests kinds (.mapping :: kinds)
  | mappingEnd {kinds} : mappingEnd.Nests (.mapping :: kinds) kinds

/-- Events that close all that is open and all that they open, each collection as what it is. -/
inductive Nested : List NodeKind → List MarkedEvent → Prop where
  | nil : Nested [] []
  | cons {kinds kinds' e events} (hnests : e.event.Nests kinds kinds')
      (hnested : Nested kinds' events) : Nested kinds (e :: events)

/-! ### Slots -/

/-- What is expected next: the node or the end of a document, an item or the end of a sequence, a
key or the end of a mapping, or a value. -/
inductive Slot where
  | content
  | ended
  | item
  | key
  | value
deriving DecidableEq

/-- The kind of the collection that is open where a slot is expected. -/
def Slot.kind? : Slot → Option NodeKind
  | .content | .ended => none
  | .item => some .sequence
  | .key | .value => some .mapping

/-- A node stands in the first slot; what is expected after it. -/
inductive Passes : List Slot → List Slot → Prop where
  | content {slots} : Passes (.content :: slots) slots
  | item {slots} : Passes (.item :: slots) (.item :: slots)
  | key {slots} : Passes (.key :: slots) (.value :: slots)
  | value {slots} : Passes (.value :: slots) (.key :: slots)

/-- What is expected before and after an event. What is expected after a collection is noted where
the collection begins. -/
inductive Event.Turns : Event → List Slot → List Slot → Prop where
  | documentStart : documentStart.Turns [] [.content, .ended]
  | documentEnd : documentEnd.Turns [.ended] []
  | reference {anchor slots slots'} (h : Passes slots slots') : (reference anchor).Turns slots slots'
  | scalar {style text properties slots slots'} (h : Passes slots slots') :
      (scalar style text properties).Turns slots slots'
  | sequenceStart {properties slots slots'} (h : Passes slots slots') :
      (sequenceStart properties).Turns slots (.item :: slots')
  | sequenceEnd {slots} : sequenceEnd.Turns (.item :: slots) slots
  | mappingStart {properties slots slots'} (h : Passes slots slots') :
      (mappingStart properties).Turns slots (.key :: slots')
  | mappingEnd {slots} : mappingEnd.Turns (.key :: slots) slots

/-- Events that bring all that is expected, and nothing else but whole documents. -/
inductive Turning : List Slot → List MarkedEvent → Prop where
  | nil : Turning [] []
  | cons {slots slots' e events} (hturns : e.event.Turns slots slots')
      (hturning : Turning slots' events) : Turning slots (e :: events)

/-- The kinds of the collections that are open. -/
def Slot.kinds (slots : List Slot) : List NodeKind :=
  slots.filterMap Slot.kind?

theorem Passes.kinds_eq {slots slots' : List Slot} (h : Passes slots slots') :
  Slot.kinds slots' = Slot.kinds slots
  := by
  cases h <;> rfl

theorem Event.Turns.nests {e : Event} {slots slots' : List Slot} (h : e.Turns slots slots') :
  e.Nests (Slot.kinds slots) (Slot.kinds slots')
  := by
  cases h with
  | documentStart => exact .documentStart
  | documentEnd => exact .documentEnd
  | reference h =>
      rw [h.kinds_eq]
      exact .reference
  | scalar h =>
      rw [h.kinds_eq]
      exact .scalar
  | sequenceStart h =>
      rw [← h.kinds_eq]
      exact .sequenceStart
  | sequenceEnd => exact .sequenceEnd
  | mappingStart h =>
      rw [← h.kinds_eq]
      exact .mappingStart
  | mappingEnd => exact .mappingEnd

theorem Turning.nested {slots : List Slot} {events : List MarkedEvent} (h : Turning slots events) :
  Nested (Slot.kinds slots) events
  := by
  induction h with
  | nil => exact .nil
  | cons hturns _ ih => exact .cons hturns.nests ih

/-! ### Slots of the machine -/

/-- What is expected at a position, without what it comes back to. -/
def Position.slots : Position → List Slot
  | .implicitDocument | .explicitDocument | .finished => []
  | .documentContent | .blockNode => [.content]
  | .documentEnd => [.ended]
  | .blockMappingFirstKey | .blockMappingKey | .flowMappingFirstKey | .flowMappingKey => [.key]
  | .blockMappingValue | .flowMappingValue | .flowMappingNoValue => [.value]
  | .blockSequenceFirstEntry | .blockSequenceEntry | .indentlessEntry | .flowSequenceFirstEntry
  | .flowSequenceEntry => [.item]
  | .flowPairKey | .flowPairEnd => [.key, .item]
  | .flowPairValue => [.value, .item]

/-- The position of the machine and those it goes on from, innermost first. -/
def Grammar.path (g : Grammar) : List Position :=
  g.position :: g.stack

/-- What is expected along a path. -/
def openSlots (path : List Position) : List Slot :=
  path.flatMap Position.slots

@[simp]
theorem openSlots_cons (p : Position) (path : List Position) :
  openSlots (p :: path) = p.slots ++ openSlots path
  := rfl

/-- A position between documents or at the end of one. -/
def Position.IsOuter (p : Position) : Prop :=
  p.slots = [] ∨ p.slots = [.ended]

instance (p : Position) : Decidable p.IsOuter :=
  inferInstanceAs (Decidable (_ ∨ _))

/-- A path on which nothing is expected after a position that is outside of a document's node. -/
def Settled : List Position → Prop
  | [] => True
  | p :: path => (p.IsOuter → openSlots path = []) ∧ Settled path

theorem Settled.cons {p : Position} {path : List Position} (hpath : Settled path)
    (hp : ¬ p.IsOuter) :
  Settled (p :: path)
  := by
  exact ⟨fun h => absurd h hp, hpath⟩

/-- Between documents nothing is expected. -/
theorem Settled.openSlots_eq_nil {g : Grammar} (hpath : Settled g.path)
    (hslots : g.position.slots = []) :
  openSlots g.path = []
  := by
  rw [Grammar.path, openSlots_cons, hslots, hpath.1 (Or.inl hslots), List.append_nil]

/-- The path on which the machine goes on after a node. -/
def continued (stack : List Position) : List Position :=
  stack.headD .finished :: stack.drop 1

theorem openSlots_continued (stack : List Position) :
  openSlots (continued stack) = openSlots stack
  := by
  cases stack <;> rfl

theorem Settled.continued {stack : List Position} (h : Settled stack) :
  Settled (continued stack)
  := by
  cases stack with
  | nil => exact ⟨fun _ => rfl, trivial⟩
  | cons p path => exact h

namespace Derive

variable {α β : Type} {g : Grammar}

/-! ### What a step yields -/

/-- Whatever a step of the machine yields from a state, if it does not stop. -/
def Ensures (act : Derive α) (g : Grammar) (post : α → Grammar → Prop) : Prop :=
  ∀ x g', act.run g = .ok (x, g') → post x g'

@[simp]
theorem ensures_pure {x : α} {post : α → Grammar → Prop} :
  Ensures (pure x) g post ↔ post x g
  := by
  constructor
  · intro h
    apply h x g rfl
  · intro h x g' hrun
    cases hrun
    exact h

@[simp]
theorem ensures_bind {act : Derive α} {f : α → Derive β} {post : β → Grammar → Prop} :
  Ensures (act >>= f) g post ↔ Ensures act g fun x g' => Ensures (f x) g' post
  := by
  constructor
  · intro h x g' hact y g'' hf
    apply h y g''
    rw [StateT.run_bind, hact]
    exact hf
  · intro h y g'' hrun
    rw [StateT.run_bind] at hrun
    cases hact : act.run g with
    | error fault =>
        rw [hact] at hrun
        cases hrun
    | ok r =>
        rw [hact] at hrun
        apply h r.1 r.2 hact y g'' hrun

@[simp]
theorem ensures_map {act : Derive α} {f : α → β} {post : β → Grammar → Prop} :
  Ensures (f <$> act) g post ↔ Ensures act g fun x g' => post (f x) g'
  := by
  simp only [← bind_pure_comp, ensures_bind, ensures_pure]

@[simp]
theorem ensures_get {post : Grammar → Grammar → Prop} :
  Ensures get g post ↔ post g g
  := ensures_pure (x := g) (g := g)

@[simp]
theorem ensures_modify {f : Grammar → Grammar} {post : Unit → Grammar → Prop} :
  Ensures (modify f) g post ↔ post () (f g)
  := ensures_pure (x := ()) (g := f g)

@[simp]
theorem ensures_set {g' : Grammar} {post : Unit → Grammar → Prop} :
  Ensures (set g') g post ↔ post () g'
  := ensures_pure (x := ()) (g := g')

@[simp]
theorem ensures_throw {fault : Fault} {post : α → Grammar → Prop} :
  Ensures (throw fault) g post
  := by
  intro x g' hrun
  cases hrun

@[simp]
theorem ensures_failAt {mark : Mark} {cause : Cause} {post : α → Grammar → Prop} :
  Ensures (failAt mark cause) g post
  := ensures_throw

theorem ensures_peek {post : Token → Grammar → Prop} (h : ∀ token, post token g) :
  Ensures peek g post
  := by
  simp only [peek, ensures_bind, ensures_get]
  split
  · apply ensures_pure.mpr (h _)
  · apply ensures_throw

theorem Ensures.mono {act : Derive α} {post post' : α → Grammar → Prop} (h : Ensures act g post)
    (hpost : ∀ x g', post x g' → post' x g') :
  Ensures act g post'
  := by
  intro x g' hrun
  apply hpost x g' (h x g' hrun)

/-! ### Parts of a step that leave the machine where it is -/

/-- A part of a step that moves to no other position. -/
def Stays (act : Derive α) : Prop :=
  ∀ g, Ensures act g fun _ g' => g'.path = g.path

theorem Stays.pure (x : α) :
  Stays (pure x)
  := by
  intro g
  rw [ensures_pure]

theorem Stays.bind {act : Derive α} {f : α → Derive β} (hact : Stays act)
    (hf : ∀ x, Stays (f x)) :
  Stays (act >>= f)
  := by
  intro g
  rw [ensures_bind]
  refine (hact g).mono ?_
  intro x g' hpath
  rw [← hpath]
  apply hf x g'

theorem Stays.get :
  Stays get
  := by
  intro g
  rw [ensures_get]

theorem Stays.modify {f : Grammar → Grammar} (hf : ∀ g, (f g).path = g.path) :
  Stays (modify f)
  := by
  intro g
  rw [ensures_modify, hf]

theorem Stays.failAt (mark : Mark) (cause : Cause) :
  Stays (failAt mark cause : Derive α)
  := by
  intro g
  apply ensures_failAt

theorem peek_stays :
  Stays peek
  := by
  intro g
  apply ensures_peek
  intro token
  rfl

theorem skip_stays :
  Stays skip
  := Stays.modify fun _ => rfl

theorem declareAnchor_stays (name : String) :
  Stays (declareAnchor name)
  := by
  intro g
  simp only [declareAnchor, ensures_bind, ensures_get, ensures_set, ensures_pure]
  rfl

theorem resolveTag_stays (mark : Mark) (handle suffix : String) :
  Stays (resolveTag mark handle suffix)
  := by
  apply Stays.get.bind
  intro g
  split
  · apply Stays.pure
  · split
    · apply Stays.pure
    · split
      · apply (Stays.failAt _ _).bind
        intro _
        apply Stays.pure
      · apply Stays.pure

theorem properties_stays :
  Stays properties
  := by
  apply peek_stays.bind
  intro token
  split
  · apply skip_stays.bind
    intro _
    apply (declareAnchor_stays _).bind
    intro anchor
    apply peek_stays.bind
    intro token'
    split
    · apply skip_stays.bind
      intro _
      apply (resolveTag_stays _ _ _).bind
      intro tag
      apply Stays.pure
    · apply Stays.pure
  · apply skip_stays.bind
    intro _
    apply (resolveTag_stays _ _ _).bind
    intro tag
    apply peek_stays.bind
    intro token'
    split
    · apply skip_stays.bind
      intro _
      apply (declareAnchor_stays _).bind
      intro anchor
      apply Stays.pure
    · apply Stays.pure
  · apply Stays.pure

theorem directives_stays (tokens : List Token) (versioned : Bool) :
  Stays (directives tokens versioned)
  := by
  induction tokens generalizing versioned with
  | nil => apply Stays.pure
  | cons token tokens ih =>
      have hnext : ∀ (handle? : Option (String × String)) (versioned : Bool), Stays (do
          modify fun g => { g with tokens := tokens, handle? := handle? }
          directives tokens versioned) := by
        intro handle? versioned
        refine Stays.bind (Stays.modify ?_) ?_
        · intro g
          rfl
        · intro _
          apply ih
      rw [directives]
      split
      · split
        · apply (Stays.failAt _ _).bind
          intro _
          apply hnext
        · apply hnext
      · apply hnext
      · apply Stays.pure

/-! ### Steps of the machine -/

/-- An event leads from what is expected to where the machine stands afterwards. -/
structure Leads (slots : List Slot) (e : MarkedEvent) (g : Grammar) : Prop where
  settled : Settled g.path
  turns : e.event.Turns slots (openSlots g.path)

/-- From every position at which the given slots are expected, a step yields an event that leads
from there to where it ends. -/
def Advances (act : Derive MarkedEvent) (slots : List Slot) : Prop :=
  ∀ g, Settled g.path → g.position.slots = slots → Ensures act g (Leads (openSlots g.path))

/-- A position at which a document's node goes on after a node in the given slots. -/
structure Follows (slots : List Slot) (after : Position) : Prop where
  inner : ¬ after.IsOuter
  passes : ∀ around, Passes (slots ++ around) (after.slots ++ around)

variable {slots : List Slot}

/-- Reading first makes no difference. -/
theorem Stays.bind_advances {read : Derive α} {f : α → Derive MarkedEvent} (hread : Stays read)
    (hf : ∀ x, Advances (f x) slots) :
  Advances (read >>= f) slots
  := by
  intro g hpath hslots
  rw [ensures_bind]
  refine (hread g).mono ?_
  intro x g' heq
  rw [← heq] at hpath ⊢
  apply hf x g' hpath
  rw [← hslots, (List.cons.inj heq).1]

theorem failAt_advances (mark : Mark) (cause : Cause) :
  Advances (failAt mark cause) slots
  := by
  intro g _ _
  apply ensures_failAt

/-- The machine goes to a position inside of a document's node. -/
theorem goto_advances {mark : Mark} {event : Event} {position : Position}
    (hposition : ¬ position.IsOuter)
    (hevent : ∀ around, event.Turns (slots ++ around) (position.slots ++ around)) :
  Advances (do goto position; emit mark event) slots
  := by
  intro g hpath hslots
  simp only [goto, emit, ensures_bind, ensures_modify, ensures_pure]
  constructor
  · apply hpath.2.cons hposition
  · simp only [Grammar.path, openSlots_cons, hslots]
    apply hevent

theorem absent_advances {mark : Mark} {position : Position} (h : Follows slots position) :
  Advances (absent mark position) slots
  := by
  apply goto_advances h.inner
  exact fun around => .scalar (h.passes around)

/-- The machine leaves a collection. -/
theorem pop_advances {mark : Mark} {event : Event} {slot : Slot} {read : Derive Unit}
    (hread : Stays read) (hevent : ∀ slots, event.Turns (slot :: slots) slots) :
  Advances (do pop; read; emit mark event) [slot]
  := by
  intro g hpath hslots
  simp only [pop, emit, ensures_bind, ensures_modify, ensures_pure]
  refine (hread _).mono ?_
  intro _ g' heq
  have hcontinued : g'.path = continued g.stack := heq
  constructor
  · rw [hcontinued]
    apply hpath.2.continued
  · rw [hcontinued, openSlots_continued, Grammar.path, openSlots_cons, hslots]
    apply hevent

theorem close_advances {mark : Mark} {event : Event} {slot : Slot}
    (hevent : ∀ slots, event.Turns (slot :: slots) slots) :
  Advances (close mark event) [slot]
  := pop_advances skip_stays hevent

/-! ### Nodes -/

/-- The machine goes on after a node that is no collection. -/
theorem Leads.of_continued {path : List Position} {e : MarkedEvent} (hpath : Settled path)
    (heq : g.path = continued path) (hevent : e.event.Turns slots (openSlots path)) :
  Leads slots e g
  := by
  constructor
  · rw [heq]
    apply hpath.continued
  · rwa [heq, openSlots_continued]

/-- The machine goes into a collection. -/
theorem ensures_enter {position : Position} {slot : Slot} {mark : Mark} {event : Event}
    (hstack : Settled g.stack) (hposition : ¬ position.IsOuter) (hslots : position.slots = [slot])
    (hevent : event.Turns slots (slot :: openSlots g.stack)) :
  Ensures (do goto position; emit mark event) g (Leads slots)
  := by
  simp only [goto, emit, ensures_bind, ensures_modify, ensures_pure]
  constructor
  · apply hstack.cons hposition
  · simp only [Grammar.path, openSlots_cons, hslots]
    exact hevent

theorem ensures_content (block indentless : Bool) (p : Properties) (hstack : Settled g.stack)
    (hpasses : Passes slots (openSlots g.stack)) :
  Ensures (content block indentless p) g (Leads slots)
  := by
  simp only [content, ensures_bind]
  apply ensures_peek
  intro token
  split
  · simp only [pop, skip, emit, ensures_bind, ensures_modify, ensures_pure]
    exact .of_continued hstack rfl (.scalar hpasses)
  · exact ensures_enter hstack (by decide) rfl (.sequenceStart hpasses)
  · exact ensures_enter hstack (by decide) rfl (.mappingStart hpasses)
  · split
    · exact ensures_enter hstack (by decide) rfl (.sequenceStart hpasses)
    · split
      · exact ensures_enter hstack (by decide) rfl (.sequenceStart hpasses)
      · split
        · exact ensures_enter hstack (by decide) rfl (.mappingStart hpasses)
        · split
          · simp only [pop, emit, ensures_bind, ensures_modify, ensures_pure]
            exact .of_continued hstack rfl (.scalar hpasses)
          · apply ensures_failAt

theorem ensures_node (block indentless : Bool) (hstack : Settled g.stack)
    (hpasses : Passes slots (openSlots g.stack)) :
  Ensures (node block indentless) g (Leads slots)
  := by
  simp only [node, ensures_bind]
  apply ensures_peek
  intro token
  split
  · simp only [pop, skip, ensures_bind, ensures_modify, ensures_get]
    split
    · rw [emit, ensures_pure]
      exact .of_continued hstack rfl (.reference hpasses)
    · apply ensures_failAt
  · rw [ensures_bind]
    refine (properties_stays g).mono ?_
    intro p g' hpath
    obtain ⟨-, hstack'⟩ := List.cons.inj hpath
    rw [← hstack'] at hstack hpasses
    apply ensures_content _ _ _ hstack hpasses

/-- After a node the machine goes on from the position that follows it. -/
theorem nodeThen_advances {block indentless : Bool} {after : Position} (h : Follows slots after) :
  Advances (nodeThen block indentless after) slots
  := by
  intro g hpath hslots
  simp only [nodeThen, push, ensures_bind, ensures_modify]
  apply ensures_node _ _ (hpath.2.cons h.inner)
  rw [Grammar.path, openSlots_cons, hslots]
  apply h.passes

/-- After a token a node stands or is left out. -/
theorem optional_advances {isAbsent : Token → Bool} {mark : Token → Mark}
    {block indentless : Bool} {after : Position} (h : Follows slots after) :
  Advances (do
    skip
    let token ← peek
    if isAbsent token then absent (mark token) after else nodeThen block indentless after) slots
  := by
  apply skip_stays.bind_advances
  intro _
  apply peek_stays.bind_advances
  intro token
  split
  · apply absent_advances h
  · apply nodeThen_advances h

/-! ### Collections -/

theorem blockMappingKey_advances :
  Advances blockMappingKey [.key]
  := by
  have hfollows : Follows [.key] .blockMappingValue := ⟨by decide, fun _ => .key⟩
  apply peek_stays.bind_advances
  intro token
  split
  · apply optional_advances hfollows
  · apply absent_advances hfollows
  · apply close_advances
    exact fun _ => .mappingEnd
  · apply failAt_advances

theorem blockMappingValue_advances :
  Advances blockMappingValue [.value]
  := by
  have hfollows : Follows [.value] .blockMappingKey := ⟨by decide, fun _ => .value⟩
  apply peek_stays.bind_advances
  intro token
  split
  · apply optional_advances hfollows
  · apply absent_advances hfollows

theorem blockSequenceEntry_advances :
  Advances blockSequenceEntry [.item]
  := by
  apply peek_stays.bind_advances
  intro token
  split
  · apply close_advances
    exact fun _ => .sequenceEnd
  · apply optional_advances
    exact ⟨by decide, fun _ => .item⟩
  · apply failAt_advances

theorem indentlessEntry_advances :
  Advances indentlessEntry [.item]
  := by
  apply peek_stays.bind_advances
  intro token
  split
  · apply optional_advances
    exact ⟨by decide, fun _ => .item⟩
  · apply pop_advances (Stays.pure ())
    exact fun _ => .sequenceEnd

theorem flowEntry_advances :
  Advances flowEntry [.item]
  := by
  apply peek_stays.bind_advances
  intro token
  split
  · apply close_advances
    exact fun _ => .sequenceEnd
  · apply skip_stays.bind_advances
    intro _
    apply goto_advances (by decide)
    exact fun _ => .mappingStart .item
  · apply nodeThen_advances
    exact ⟨by decide, fun _ => .item⟩

theorem flowSequenceEntry_advances (first : Bool) :
  Advances (flowSequenceEntry first) [.item]
  := by
  apply peek_stays.bind_advances
  intro token
  split
  · apply close_advances
    exact fun _ => .sequenceEnd
  · split
    · apply flowEntry_advances
    · split
      · apply skip_stays.bind_advances
        intro _
        apply flowEntry_advances
      · apply failAt_advances

theorem flowPairKey_advances :
  Advances flowPairKey [.key, .item]
  := by
  have hfollows : Follows [.key, .item] .flowPairValue := ⟨by decide, fun _ => .key⟩
  apply peek_stays.bind_advances
  intro token
  split
  · apply skip_stays.bind_advances
    intro _
    apply absent_advances hfollows
  · apply nodeThen_advances hfollows

theorem flowPairValue_advances :
  Advances flowPairValue [.value, .item]
  := by
  have hfollows : Follows [.value, .item] .flowPairEnd := ⟨by decide, fun _ => .value⟩
  apply peek_stays.bind_advances
  intro token
  split
  · apply optional_advances hfollows
  · apply absent_advances hfollows

theorem flowKey_advances (mark : Mark) :
  Advances (flowKey mark) [.key]
  := by
  have hfollows : Follows [.key] .flowMappingValue := ⟨by decide, fun _ => .key⟩
  apply peek_stays.bind_advances
  intro token
  split
  · apply optional_advances hfollows
  · apply absent_advances hfollows
  · apply close_advances
    exact fun _ => .mappingEnd
  · apply nodeThen_advances
    exact ⟨by decide, fun _ => .key⟩

theorem flowMappingKey_advances (first : Bool) :
  Advances (flowMappingKey first) [.key]
  := by
  apply peek_stays.bind_advances
  intro token
  split
  · apply close_advances
    exact fun _ => .mappingEnd
  · split
    · apply flowKey_advances
    · split
      · apply skip_stays.bind_advances
        intro _
        apply flowKey_advances
      · apply failAt_advances

theorem flowMappingValue_advances :
  Advances flowMappingValue [.value]
  := by
  have hfollows : Follows [.value] .flowMappingKey := ⟨by decide, fun _ => .value⟩
  apply peek_stays.bind_advances
  intro token
  split
  · apply optional_advances hfollows
  · apply absent_advances hfollows

theorem flowPairEnd_advances (mark : Mark) :
  Advances (flowPairEnd mark) [.key, .item]
  := by
  apply goto_advances (by decide)
  exact fun _ => .mappingEnd

/-! ### Documents -/

theorem node_advances (block indentless : Bool) :
  Advances (node block indentless) [.content]
  := by
  intro g hpath hslots
  apply ensures_node block indentless hpath.2
  rw [Grammar.path, openSlots_cons, hslots]
  exact .content

theorem documentContent_advances :
  Advances documentContent [.content]
  := by
  apply peek_stays.bind_advances
  intro token
  dsimp only
  split
  · intro g hpath hslots
    simp only [pop, emit, ensures_bind, ensures_modify, ensures_pure]
    apply Leads.of_continued hpath.2 rfl
    rw [Grammar.path, openSlots_cons, hslots]
    exact .scalar .content
  · apply node_advances

/-- A document is closed, after which none is open. -/
theorem goto_outside_advances {mark : Mark} {position : Position}
    (hposition : position.slots = []) :
  Advances (do goto position; emit mark .documentEnd) [.ended]
  := by
  intro g hpath hslots
  have hopen := hpath.1 (Or.inr hslots)
  simp only [goto, emit, ensures_bind, ensures_modify, ensures_pure]
  constructor
  · exact ⟨fun _ => hopen, hpath.2⟩
  · simp only [Grammar.path, openSlots_cons, hslots, hposition, hopen]
    exact .documentEnd

theorem closeDocument_advances :
  Advances closeDocument [.ended]
  := by
  apply peek_stays.bind_advances
  intro token
  apply Stays.bind_advances
  · apply Stays.modify
    intro g
    rfl
  · intro _
    dsimp only
    split
    · apply skip_stays.bind_advances
      intro _
      apply goto_outside_advances rfl
    · split
      · apply (Stays.failAt _ _).bind_advances
        intro _
        apply goto_outside_advances rfl
      · apply goto_outside_advances rfl

/-- A document is opened, to which the machine comes back when its content is read. -/
theorem open_advances (mark : Mark) {position : Position}
    (hposition : position.slots = [.content]) :
  Advances (do push .documentEnd; goto position; emit mark .documentStart) []
  := by
  intro g hpath hslots
  have hopen := hpath.1 (Or.inl hslots)
  have hinner : ¬ position.IsOuter := by
    simp [Position.IsOuter, hposition]
  simp only [push, goto, emit, ensures_bind, ensures_modify, ensures_pure]
  constructor
  · apply Settled.cons _ hinner
    exact ⟨fun _ => hopen, hpath.2⟩
  · simp only [Grammar.path, openSlots_cons, hslots, hposition, hopen]
    exact .documentStart

theorem openExplicit_advances :
  Advances openExplicit []
  := by
  apply Stays.get.bind_advances
  intro g
  apply (directives_stays _ _).bind_advances
  intro _
  apply peek_stays.bind_advances
  intro token
  dsimp only
  split
  · apply (Stays.failAt _ _).bind_advances
    intro _
    apply skip_stays.bind_advances
    intro _
    apply open_advances _ rfl
  · apply skip_stays.bind_advances
    intro _
    apply open_advances _ rfl

/-- What a step yields: an event, or nothing where nothing is expected. -/
def Proceeds (slots : List Slot) : Option MarkedEvent → Grammar → Prop
  | some e, g => Leads slots e g
  | none, _ => slots = []

theorem Advances.proceeds {act : Derive MarkedEvent} (hact : Advances act slots)
    (hpath : Settled g.path) (hslots : g.position.slots = slots) :
  Ensures (some <$> act) g (Proceeds (openSlots g.path))
  := by
  rw [ensures_map]
  apply hact g hpath hslots

theorem openDocument_proceeds (implicit : Bool) (hpath : Settled g.path)
    (hslots : g.position.slots = []) :
  Ensures (openDocument implicit) g (Proceeds (openSlots g.path))
  := by
  rw [openDocument, ensures_bind, ensures_modify, ensures_bind]
  generalize hg' : Grammar.mk _ _ _ _ _ _ _ = g'
  have heq : g'.path = g.path := by
    rw [← hg']
    rfl
  obtain ⟨hposition, -⟩ := List.cons.inj heq
  rw [← heq] at hpath ⊢
  rw [← hposition] at hslots
  apply ensures_peek
  intro token
  split
  · simp only [goto, ensures_bind, ensures_modify, ensures_pure]
    exact hpath.openSlots_eq_nil hslots
  · split
    · simp only [ensures_bind, ensures_pure]
      apply openExplicit_advances g' hpath hslots
    · have hblock : Position.blockNode.slots = [.content] := rfl
      have hopen := open_advances token.mark hblock g' hpath hslots
      simp only [ensures_bind, ensures_pure] at hopen ⊢
      exact hopen

theorem opened_advances {act : Derive MarkedEvent} (hact : Advances act slots) :
  Advances (opened act) slots
  := by
  apply peek_stays.bind_advances
  intro _
  apply skip_stays.bind_advances
  intro _
  exact hact

theorem step_proceeds (hpath : Settled g.path) :
  Ensures step g (Proceeds (openSlots g.path))
  := by
  simp only [step, ensures_bind, ensures_get]
  cases hposition : g.position with
  | implicitDocument => exact openDocument_proceeds true hpath (congrArg _ hposition)
  | explicitDocument => exact openDocument_proceeds false hpath (congrArg _ hposition)
  | documentContent => exact documentContent_advances.proceeds hpath (congrArg _ hposition)
  | documentEnd => exact closeDocument_advances.proceeds hpath (congrArg _ hposition)
  | blockNode => exact (node_advances true false).proceeds hpath (congrArg _ hposition)
  | blockMappingFirstKey =>
      exact (opened_advances blockMappingKey_advances).proceeds hpath (congrArg _ hposition)
  | blockMappingKey => exact blockMappingKey_advances.proceeds hpath (congrArg _ hposition)
  | blockMappingValue => exact blockMappingValue_advances.proceeds hpath (congrArg _ hposition)
  | blockSequenceFirstEntry =>
      exact (opened_advances blockSequenceEntry_advances).proceeds hpath (congrArg _ hposition)
  | blockSequenceEntry => exact blockSequenceEntry_advances.proceeds hpath (congrArg _ hposition)
  | indentlessEntry => exact indentlessEntry_advances.proceeds hpath (congrArg _ hposition)
  | flowSequenceFirstEntry =>
      apply (opened_advances (flowSequenceEntry_advances true)).proceeds hpath
      exact congrArg _ hposition
  | flowSequenceEntry =>
      exact (flowSequenceEntry_advances false).proceeds hpath (congrArg _ hposition)
  | flowPairKey => exact flowPairKey_advances.proceeds hpath (congrArg _ hposition)
  | flowPairValue => exact flowPairValue_advances.proceeds hpath (congrArg _ hposition)
  | flowPairEnd =>
      simp only [ensures_bind, ensures_get]
      exact (flowPairEnd_advances _).proceeds hpath (congrArg _ hposition)
  | flowMappingFirstKey =>
      apply (opened_advances (flowMappingKey_advances true)).proceeds hpath
      exact congrArg _ hposition
  | flowMappingKey => exact (flowMappingKey_advances false).proceeds hpath (congrArg _ hposition)
  | flowMappingValue => exact flowMappingValue_advances.proceeds hpath (congrArg _ hposition)
  | flowMappingNoValue =>
      have hfollows : Follows [.value] .flowMappingKey := ⟨by decide, fun _ => .value⟩
      have hslots : g.position.slots = [.value] := congrArg _ hposition
      simp only [ensures_bind, ensures_pure]
      apply ensures_peek
      intro token
      exact absent_advances hfollows g hpath hslots
  | finished =>
      rw [ensures_pure]
      exact hpath.openSlots_eq_nil (congrArg _ hposition)

/-! ### Runs of the machine -/

theorem eventsLoop_turning {n : Nat} (hpath : Settled g.path)
    (hfault : (eventsLoop n g).fault = none) :
  Turning (openSlots g.path) (eventsLoop n g).events
  := by
  fun_induction eventsLoop n g with
  | case1 g => cases hfault
  | case2 n g fault hstep => cases hfault
  | case3 n g g' hstep =>
      have hopen : openSlots g.path = [] := step_proceeds hpath none g' hstep
      rw [hopen]
      exact .nil
  | case4 n g e g' hstep stream ih =>
      have hleads : Leads (openSlots g.path) e g' := step_proceeds hpath (some e) g' hstep
      apply Turning.cons hleads.turns
      apply ih hleads.settled hfault

end Derive

/-- The events of a text without a fault are whole documents, in which keys and values alternate. -/
theorem EventStream.turning_ofText {text : String} (hfault : (ofText text).fault = none) :
  Turning [] (ofText text).events
  := by
  apply Derive.eventsLoop_turning _ hfault
  exact ⟨fun _ => rfl, trivial⟩

/-- The events of a text without a fault are nested. -/
theorem EventStream.nested_ofText {text : String} (hfault : (ofText text).fault = none) :
  Nested [] (ofText text).events
  := (turning_ofText hfault).nested

end JobIndex.Yaml
