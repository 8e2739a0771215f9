import JobIndex.Proofs.Record.Locations
import JobIndex.Proofs.Yaml.Nesting

/-!
# The records of a text are those of its values

Records are read from nodes as they are finished; the values of the documents are known only when
their last nodes are finished (`Yaml.roots`). The two agree for texts whose sequences of documents
are plain (`Yaml.PlainRoots`): what has been told of an open sequence is the part of its items that
is known so far (`Yaml.told`), which

* one event keeps, whatever it opens, closes or adds;
* hence all events of a text keep, and at their end nothing is open.
-/

namespace JobIndex

namespace Yaml

/-! ### Plain documents -/

/-- The kinds of the collections that are open after an event. -/
def Event.openAfter (kinds : List NodeKind) : Event → List NodeKind
  | .sequenceStart _ => .sequence :: kinds
  | .mappingStart _ => .mapping :: kinds
  | .sequenceEnd | .mappingEnd => kinds.drop 1
  | _ => kinds

theorem Event.Nests.openAfter_eq {e : Event} {kinds kinds' : List NodeKind}
    (h : e.Nests kinds kinds') :
  e.openAfter kinds = kinds'
  := by
  cases h <;> rfl

/-- An event neither seals the sequence of a document nor puts a reference into it. -/
def Event.IsPlain (sealedTags : List String) (kinds : List NodeKind) : Event → Prop
  | .sequenceStart p => kinds = [] → Assembly.isSealed sealedTags p = false
  | .reference _ => kinds ≠ [.sequence]
  | _ => True

/-- The sequences of the documents are not sealed and have no references as items. -/
def PlainRoots (sealedTags : List String) : List NodeKind → List MarkedEvent → Prop
  | _, [] => True
  | kinds, e :: events =>
    e.event.IsPlain sealedTags kinds ∧ PlainRoots sealedTags (e.event.openAfter kinds) events

instance Event.decidableIsPlain (sealedTags : List String) (kinds : List NodeKind) (e : Event) :
    Decidable (e.IsPlain sealedTags kinds) :=
  match e with
  | .sequenceStart p => inferInstanceAs (Decidable (_ → Assembly.isSealed sealedTags p = false))
  | .reference _ => inferInstanceAs (Decidable (kinds ≠ [.sequence]))
  | .documentStart | .documentEnd | .scalar .. | .sequenceEnd | .mappingStart _ | .mappingEnd =>
    isTrue trivial

instance decidablePlainRoots (sealedTags : List String) (kinds : List NodeKind) :
    (events : List MarkedEvent) → Decidable (PlainRoots sealedTags kinds events)
  | [] => isTrue trivial
  | e :: events =>
    have := decidablePlainRoots sealedTags (e.event.openAfter kinds) events
    inferInstanceAs (Decidable (_ ∧ _))

/-! ### Items of documents -/

/-- The items of a sequence. -/
def Value.items : Value → List Value
  | .sequence items => items
  | _ => []

/-- Whether a value is a mapping. -/
def Value.isMapping : Value → Bool
  | .mapping _ => true
  | _ => false

/-- The items of a value that can be records. -/
def Value.records (v : Value) : List Value :=
  v.items.filter Value.isMapping

/-- The records among finished nodes. -/
def records (closings : List Closing) : List Value :=
  (closings.filter fun c => c.kind == .mapping && Reading.isRecord c).map Closing.value

theorem records_append (cs ds : List Closing) :
  records (cs ++ ds) = records cs ++ records ds
  := by
  simp [records]

theorem roots_append (cs ds : List Closing) :
  roots (cs ++ ds) = roots cs ++ roots ds
  := by
  simp [roots]

/-- Whether an open collection is sealed. -/
def Frame.isSealed : Frame → Bool
  | .sequence _ _ _ isSealed => isSealed
  | .mapping .. => false

/-- The records among the items of an open sequence. -/
def Frame.records : Frame → List Value
  | .sequence items _ _ _ => items.reverse.filter Value.isMapping
  | .mapping .. => []

@[simp]
theorem Frame.kind_attach (v : Value) (frame : Frame) :
  (frame.attach v).kind = frame.kind
  := by
  unfold attach
  split <;> rfl

@[simp]
theorem Frame.isSealed_attach (v : Value) (frame : Frame) :
  (frame.attach v).isSealed = frame.isSealed
  := by
  unfold attach
  split <;> rfl

theorem Frame.records_attach (v : Value) (frame : Frame) :
  (frame.attach v).records =
    frame.records ++ if frame.kind = .sequence ∧ v.isMapping then [v] else []
  := by
  unfold attach
  split
  · cases hv : v.isMapping <;> simp [records, kind, hv]
  · simp [records, kind]
  · simp [records, kind]

/-- What has been told of the document that is open: the records of its sequence so far. -/
def told : List Frame → List Value
  | [] => []
  | [frame] => frame.records
  | _ :: frames => told frames

theorem told_cons (frame : Frame) (frames : List Frame) :
  told (frame :: frames) = if frames = [] then frame.records else told frames
  := by
  cases frames <;> rfl

/-- A collection without items adds nothing. -/
theorem told_cons_empty {frame : Frame} (frames : List Frame) (h : frame.records = []) :
  told (frame :: frames) = told frames
  := by
  rw [told_cons, h]
  split
  · next hnil => rw [hnil, told]
  · rfl

namespace Assembly

/-! ### Open collections -/

/-- The open collections of an assembly are of the given kinds, those that are sealed are counted,
and the outermost is not sealed. -/
structure Opens (a : Assembly) (kinds : List NodeKind) : Prop where
  kinds_eq : a.frames.map Frame.kind = kinds
  sealedDepth_eq : a.sealedDepth = a.frames.countP Frame.isSealed
  plain : ∀ frame ∈ a.frames.getLast?, frame.isSealed = false

variable {a : Assembly} {kinds : List NodeKind}

theorem opens_empty :
  empty.Opens []
  := by
  refine ⟨rfl, rfl, ?_⟩
  simp [empty]

theorem Opens.attach (h : a.Opens kinds) (v : Value) :
  (a.attach v).Opens kinds
  := by
  obtain ⟨hkinds, hsealed, hplain⟩ := h
  unfold Assembly.attach
  split
  · exact ⟨hkinds, hsealed, hplain⟩
  · next frame frames heq =>
    rw [heq] at hkinds hsealed hplain
    refine ⟨by simpa using hkinds, by simpa [List.countP_cons] using hsealed, ?_⟩
    cases frames with
    | nil => simpa using hplain
    | cons _ _ => simpa using hplain

/-- A collection is opened; that of a document must not be sealed. -/
theorem Opens.push {depth : Nat} (h : a.Opens kinds) (frame : Frame)
    (hdepth : depth = a.sealedDepth + if frame.isSealed then 1 else 0)
    (hplain : kinds = [] → frame.isSealed = false) :
  ({ a with frames := frame :: a.frames, sealedDepth := depth } : Assembly).Opens
    (frame.kind :: kinds)
  := by
  obtain ⟨hkinds, hsealed, hroot⟩ := h
  refine ⟨by simp [hkinds], ?_, ?_⟩
  · rw [hdepth, hsealed, List.countP_cons]
  · cases hframes : a.frames with
    | nil =>
        simp only [hframes, List.map_nil] at hkinds
        simpa using hplain hkinds.symm
    | cons _ _ => simpa [hframes] using hroot

/-- The innermost collection is closed. -/
theorem Opens.pop {frame : Frame} {frames : List Frame} {kind : NodeKind} {depth : Nat}
    (h : a.Opens (kind :: kinds)) (hframes : a.frames = frame :: frames)
    (hdepth : depth = a.sealedDepth - if frame.isSealed then 1 else 0) :
  ({ a with frames := frames, sealedDepth := depth } : Assembly).Opens kinds
  := by
  obtain ⟨hkinds, hsealed, hroot⟩ := h
  rw [hframes] at hkinds hsealed hroot
  refine ⟨(List.cons.inj hkinds).2, ?_, ?_⟩
  · rw [hdepth, hsealed, List.countP_cons]
    apply Nat.add_sub_cancel
  · intro last hlast
    apply hroot
    cases frames with
    | nil => cases hlast
    | cons _ _ => exact hlast

/-- Nothing is sealed where at most the sequence of a document is open. -/
theorem Opens.two_le_length (h : a.Opens kinds) (hsealed : 0 < a.sealedDepth) :
  2 ≤ a.frames.length
  := by
  rw [h.sealedDepth_eq] at hsealed
  have hplain := h.plain
  match hframes : a.frames with
  | [] => simp [hframes] at hsealed
  | [frame] =>
      rw [hframes] at hsealed hplain
      simp [hplain frame rfl] at hsealed
  | _ :: _ :: _ => simp

/-! ### What one event tells -/

theorem told_attach (a : Assembly) (v : Value) :
  told (a.attach v).frames =
    told a.frames ++ if a.frames.map Frame.kind = [.sequence] ∧ v.isMapping then [v] else []
  := by
  unfold Assembly.attach
  split
  · next heq => simp [heq]
  · next frame frames heq =>
    cases frames with
    | nil => simp [heq, told, Frame.records_attach]
    | cons _ _ => simp [heq, told]

/-- A finished node is a record if it is a mapping and only a sequence is open. -/
theorem records_closing (indents : Array Nat) (a : Assembly) (kind : NodeKind) (v : Value)
    (start : Mark) :
  records [a.closing indents kind v start] =
    if a.frames.map Frame.kind = [.sequence] ∧ kind = .mapping then [v] else []
  := by
  have hrecord : Reading.isRecord (a.closing indents kind v start) = true ↔
      a.frames.map Frame.kind = [.sequence] := by
    match hframes : a.frames with
    | [] => simp [Reading.isRecord, closing, hframes]
    | [frame] => simp [Reading.isRecord, closing, hframes]
    | _ :: _ :: _ => simp [Reading.isRecord, closing, hframes]
  have htest : ((a.closing indents kind v start).kind == .mapping &&
      Reading.isRecord (a.closing indents kind v start)) = true ↔
      a.frames.map Frame.kind = [.sequence] ∧ kind = .mapping := by
    rw [Bool.and_eq_true, hrecord, beq_iff_eq, and_comm]
    rfl
  rw [records, List.filter_cons]
  simp only [htest]
  split <;> rfl

/-- A finished node is a root if nothing is open. -/
theorem roots_closing (indents : Array Nat) (a : Assembly) (kind : NodeKind) (v : Value)
    (start : Mark) :
  roots [a.closing indents kind v start] = if a.frames = [] then [v] else []
  := by
  by_cases hnil : a.frames = [] <;> simp [roots, closing, hnil]

/-- An event leads to collections of the given kinds, and what it tells makes up for what it changes
in what has been told: the records of a root have been told before. -/
structure Tells (a : Assembly) (s : Assembly × Option Closing) (kinds : List NodeKind) : Prop where
  opens : s.1.Opens kinds
  records_eq : told a.frames ++ records s.2.toList =
    (roots s.2.toList).flatMap Value.records ++ told s.1.frames

theorem Tells.of_silent {b : Assembly} (hopens : b.Opens kinds)
    (htold : told b.frames = told a.frames) :
  a.Tells (b, none) kinds
  := by
  refine ⟨hopens, ?_⟩
  simp [htold, records, roots]

/-- A node is finished in `b`: it is a root, of which all records have been told, or stands in a
collection, where it may be a record itself. -/
theorem Opens.tells_close {b : Assembly} {indents : Array Nat} {kind : NodeKind} {v : Value}
    {start : Mark} {anchor : Nat} (h : b.Opens kinds)
    (hkind : kind = .mapping ↔ v.isMapping = true)
    (htold : told a.frames = if b.frames = [] then v.records else told b.frames) :
  a.Tells (b.close indents kind v start anchor) kinds
  := by
  constructor
  · apply Opens.attach
    exact ⟨h.kinds_eq, h.sealedDepth_eq, h.plain⟩
  · have hattach : told (b.close indents kind v start anchor).1.frames = told b.frames ++
        if b.frames.map Frame.kind = [.sequence] ∧ v.isMapping then [v] else [] := by
      apply told_attach
    rw [htold, hattach]
    by_cases hsealed : 0 < b.sealedDepth
    · -- inside of a sealed collection nothing is told, and nothing is a root or a record
      have hlength := h.two_le_length hsealed
      have hnil : b.frames ≠ [] := by
        intro hnil
        simp [hnil] at hlength
      have hone : b.frames.map Frame.kind ≠ [.sequence] := by
        intro hone
        have hone := congrArg List.length hone
        simp only [List.length_map, List.length_singleton] at hone
        omega
      simp [close, hsealed, hnil, hone, records, roots]
    · have hclosing : (b.close indents kind v start anchor).2.toList =
          [b.closing indents kind v start] := by
        simp [close, hsealed]
      rw [hclosing, records_closing, roots_closing]
      simp only [hkind]
      by_cases hnil : b.frames = [] <;> simp [hnil, told]

/-- A scalar is no record and holds none, also if it is sealed. -/
theorem scalarValue_no_record (sealedTags : List String) (style : Style) (text : String)
    (p : Properties) :
  let v := scalarValue sealedTags style text p
  (scalarKind v = .mapping ↔ v.isMapping = true) ∧ v.records = []
  := by
  dsimp only [scalarValue]
  split
  · simp [scalarKind, Value.isMapping, Value.records, Value.items]
  · split <;> simp [scalarKind, Value.isMapping, Value.records, Value.items]

theorem Opens.tells_step (indents : Array Nat) {sealedTags : List String} {e : MarkedEvent}
    {kinds' : List NodeKind} (h : a.Opens kinds) (hnests : e.event.Nests kinds kinds')
    (hplain : e.event.IsPlain sealedTags kinds) :
  a.Tells (a.step indents sealedTags e) kinds'
  := by
  obtain ⟨mark, event⟩ := e
  dsimp only at hnests hplain
  cases hnests with
  | documentStart => exact .of_silent h rfl
  | documentEnd =>
      have hframes : a.frames = [] := List.map_eq_nil_iff.mp h.kinds_eq
      apply Tells.of_silent opens_empty
      rw [hframes]
      rfl
  | @reference anchor kinds =>
      apply Tells.of_silent (h.attach _)
      rw [told_attach, h.kinds_eq]
      have hne : kinds ≠ [.sequence] := hplain
      simp [hne]
  | @scalar style text p kinds =>
      obtain ⟨hkind, hrecords⟩ := scalarValue_no_record sealedTags style text p
      apply h.tells_close hkind
      rw [hrecords]
      split
      · next hnil => rw [hnil, told]
      · rfl
  | @sequenceStart p kinds =>
      apply Tells.of_silent
      · apply h.push (.sequence [] mark p.anchor (isSealed sealedTags p)) _ hplain
        cases isSealed sealedTags p <;> rfl
      · apply told_cons_empty _ rfl
  | @mappingStart p kinds =>
      apply Tells.of_silent
      · apply h.push (.mapping [] none mark p.anchor) rfl
        exact fun _ => rfl
      · apply told_cons_empty _ rfl
  | @sequenceEnd kinds =>
      obtain ⟨frame, frames, hframes, hkind, -⟩ := List.map_eq_cons_iff.mp h.kinds_eq
      cases frame with
      | mapping entries key? start anchor => cases hkind
      | sequence items start anchor isSealed =>
          simp only [Assembly.step, hframes]
          apply Opens.tells_close
          · apply h.pop hframes
            cases isSealed <;> rfl
          · simp [Value.isMapping]
          · rw [hframes, told_cons]
            rfl
  | @mappingEnd kinds =>
      obtain ⟨frame, frames, hframes, hkind, -⟩ := List.map_eq_cons_iff.mp h.kinds_eq
      cases frame with
      | sequence items start anchor isSealed => cases hkind
      | mapping entries key? start anchor =>
          simp only [Assembly.step, hframes]
          apply Opens.tells_close
          · apply h.pop hframes rfl
          · simp [Value.isMapping]
          · rw [hframes, told_cons]
            rfl

/-! ### What all events tell -/

theorem closings_cons (indents : Array Nat) (sealedTags : List String) (a : Assembly)
    (e : MarkedEvent) (events : List MarkedEvent) :
  a.closings indents sealedTags (e :: events) = (a.step indents sealedTags e).2.toList ++
    (a.step indents sealedTags e).1.closings indents sealedTags events
  := by
  rw [closings]
  split <;> next heq => simp [heq]

/-- What has been told of the open document and what the events tell are the records of the roots
that they tell. -/
theorem Opens.records_closings {indents : Array Nat} {sealedTags : List String}
    {events : List MarkedEvent} (h : a.Opens kinds) (hnested : Nested kinds events)
    (hplain : PlainRoots sealedTags kinds events) :
  told a.frames ++ records (a.closings indents sealedTags events) =
    (roots (a.closings indents sealedTags events)).flatMap Value.records
  := by
  induction hnested generalizing a with
  | nil =>
      rw [List.map_eq_nil_iff.mp h.kinds_eq]
      rfl
  | @cons kinds kinds' e events hnests hnested ih =>
      obtain ⟨hfirst, hrest⟩ := hplain
      rw [hnests.openAfter_eq] at hrest
      obtain ⟨hopens, htells⟩ := h.tells_step indents hnests hfirst
      rw [closings_cons, records_append, roots_append, List.flatMap_append, ← List.append_assoc,
        htells, List.append_assoc, ih hopens hrest]

end Assembly

/-- The records that a text tells are the mappings among the items of its documents. -/
theorem records_closings {text : String} {sealedTags : List String} {events : List MarkedEvent}
    (hnested : Nested [] events) (hplain : PlainRoots sealedTags [] events) :
  records (closings text sealedTags events) =
    (roots (closings text sealedTags events)).flatMap Value.records
  := Assembly.opens_empty.records_closings hnested hplain

/-! ### Records as attributes -/

/-- The attributes of the job that an item of a document is: those of its first entry `job`. -/
def Value.jobAttributes? (v : Value) : Option Attributes :=
  (v.get? "job").map Attributes.ofValue

/-- The attributes of the template that an item of a document is: those of its first entry
`project-template`, if it is no job. -/
def Value.templateAttributes? (v : Value) : Option Attributes :=
  if (v.get? "job").isSome then none else (v.get? "project-template").map Attributes.ofValue

theorem Value.get?_of_not_mapping {v : Value} (h : v.isMapping = false) (key : String) :
  v.get? key = none
  := by
  cases v with
  | mapping _ => cases h
  | _ => rfl

/-- Only a mapping is a job or a template. -/
theorem filterMap_records {f : Value → Option Attributes} (vs : List Value)
    (hf : ∀ v, v.isMapping = false → f v = none) :
  (vs.flatMap Value.records).filterMap f = (vs.flatMap Value.items).filterMap f
  := by
  simp only [Value.records, List.filterMap_flatMap, List.filterMap_filter]
  congr 1
  funext v
  congr 1
  funext item
  cases hitem : item.isMapping with
  | true => rfl
  | false => rw [hf item hitem, if_neg Bool.false_ne_true]

end Yaml

/-- A text has not been read as a stream of documents. -/
def Diagnostic.IsUnparseable (d : Diagnostic) : Prop :=
  ∃ file message, d = .unparseableDocument file message

namespace Reading

variable {file : Path} {lines : Array Text.Line} {r s : Reading} {vs : List Yaml.Value}

/-- The jobs and the templates that have been read have the attributes of the given records, and
nothing has been found that is no stream of documents. -/
structure Holds (r : Reading) (vs : List Yaml.Value) : Prop where
  jobs : r.jobs.reverse.map Job.attributes = vs.filterMap Yaml.Value.jobAttributes?
  templates : r.templates.reverse.map Template.attributes =
    vs.filterMap Yaml.Value.templateAttributes?
  parseable : ∀ d ∈ r.diagnostics, ¬ d.IsUnparseable

theorem holds_empty :
  empty.Holds []
  := by
  refine ⟨rfl, rfl, ?_⟩
  simp [empty]

theorem Holds.report {d : Diagnostic} (h : r.Holds vs) (hd : ¬ d.IsUnparseable) :
  (r.report d).Holds vs
  := by
  refine ⟨h.jobs, h.templates, ?_⟩
  intro d' hd'
  obtain rfl | hd' := List.mem_cons.mp hd'
  · exact hd
  · apply h.parseable d' hd'

/-- Diagnostics apart, only the records matter. -/
theorem Holds.congr (h : r.Holds vs) (hj : s.jobs = r.jobs) (ht : s.templates = r.templates)
    (hd : s.diagnostics = r.diagnostics) :
  s.Holds vs
  := by
  obtain ⟨hjobs, htemplates, hparseable⟩ := h
  rw [← hj] at hjobs
  rw [← ht] at htemplates
  rw [← hd] at hparseable
  exact ⟨hjobs, htemplates, hparseable⟩

theorem Holds.closeRecord (h : r.Holds vs) (v : Yaml.Value) :
  (r.closeRecord file v).Holds (vs ++ [v])
  := by
  have htaken : r.takeLocations.2.Holds vs := h.congr rfl rfl rfl
  unfold Reading.closeRecord
  split
  · next body hbody =>
    have hadd : ∀ s : Reading, s.Holds vs → ∀ locations,
        ({ s with jobs := ⟨file, Attributes.ofValue body, locations⟩ :: s.jobs } : Reading).Holds
          (vs ++ [v]) := by
      intro s hs locations
      refine ⟨?_, ?_, hs.parseable⟩
      · simp [hs.jobs, Yaml.Value.jobAttributes?, hbody]
      · simp [hs.templates, Yaml.Value.templateAttributes?, hbody]
    dsimp only
    apply hadd
    split
    · apply htaken.report
      rintro ⟨_, _, heq⟩
      cases heq
    · exact htaken
  · next hjob =>
    split
    · next body hbody =>
      refine ⟨?_, ?_, h.parseable⟩
      · simp [Reading.takeLocations, h.jobs, Yaml.Value.jobAttributes?, hjob]
      · simp [Reading.takeLocations, h.templates, Yaml.Value.templateAttributes?, hjob, hbody,
          Template.ofAttributes]
    · next hbody =>
      refine ⟨?_, ?_, h.parseable⟩
      · simp [h.jobs, Yaml.Value.jobAttributes?, hjob]
      · simp [h.templates, Yaml.Value.templateAttributes?, hjob, hbody]

theorem Holds.locate (h : r.Holds vs) (c : Yaml.Closing) (value : String) :
  (r.locate file lines c value).Holds vs
  := by
  unfold Reading.locate
  split
  · apply h.report
    rintro ⟨_, _, heq⟩
    cases heq
  · split
    · exact h
    · split
      · exact ⟨h.jobs, h.templates, h.parseable⟩
      · exact h

theorem Holds.step (h : r.Holds vs) (c : Yaml.Closing) :
  (r.step file lines c).Holds (vs ++ Yaml.records [c])
  := by
  unfold Reading.step
  split
  · next hkind =>
    have hrecords : Yaml.records [c] = [] := by
      simp [Yaml.records, hkind]
    rw [hrecords, List.append_nil]
    split
    · exact h
    · split
      · exact h.congr rfl rfl rfl
      · split
        · exact h
        · apply h.locate
  · next hkind =>
    split
    · next hrecord =>
      have hrecords : Yaml.records [c] = [c.value] := by
        simp [Yaml.records, hkind, hrecord]
      rw [hrecords]
      apply h.closeRecord
    · next hrecord =>
      have hrecords : Yaml.records [c] = [] := by
        simp [Yaml.records, hrecord]
      rwa [hrecords, List.append_nil]
  · next hkind =>
    have hrecords : Yaml.records [c] = [] := by
      simp [Yaml.records, hkind]
    rwa [hrecords, List.append_nil]

theorem Holds.foldl_step (h : r.Holds vs) (cs : List Yaml.Closing) :
  (cs.foldl (Reading.step file lines) r).Holds (vs ++ Yaml.records cs)
  := by
  induction cs generalizing r vs with
  | nil => simpa [Yaml.records] using h
  | cons c cs ih =>
      rw [← List.singleton_append, Yaml.records_append, ← List.append_assoc]
      apply ih (h.step c)

end Reading

/-! ### Documents -/

namespace Document

/-- The state of reading after all nodes of a text. -/
def reading (sealedTags : List String) (file : Path) (text : String) : Reading :=
  (nodes sealedTags text).foldl (Reading.step file (Text.lines text)) Reading.empty

theorem parse_of_no_fault (sealedTags : List String) (file : Path) {text : String}
    (h : (Yaml.EventStream.ofText text).fault = none) :
  let r := reading sealedTags file text
  parse sealedTags file text =
    (⟨file, r.jobs.reverse, r.templates.reverse⟩, r.diagnostics.reverse)
  := by
  unfold parse reading nodes
  generalize Yaml.EventStream.ofText text = stream at h ⊢
  simp only [h]

theorem parse_of_fault (sealedTags : List String) (file : Path) {text : String}
    {fault : Yaml.Fault} (h : (Yaml.EventStream.ofText text).fault = some fault) :
  let r := reading sealedTags file text
  parse sealedTags file text =
    (empty file, r.diagnostics.reverse ++ [.unparseableDocument file fault.message])
  := by
  unfold parse reading nodes
  generalize Yaml.EventStream.ofText text = stream at h ⊢
  simp only [h, Reading.report, List.reverse_cons]

theorem reading_holds (sealedTags : List String) (file : Path) (text : String) :
  (reading sealedTags file text).Holds (Yaml.records (nodes sealedTags text))
  := by
  rw [← List.nil_append (Yaml.records _)]
  apply Reading.holds_empty.foldl_step

theorem records_nodes {sealedTags : List String} {text : String}
    (hfault : (Yaml.EventStream.ofText text).fault = none)
    (hplain : Yaml.PlainRoots sealedTags [] (Yaml.EventStream.ofText text).events) :
  Yaml.records (nodes sealedTags text) =
    (Yaml.roots (nodes sealedTags text)).flatMap Yaml.Value.records
  := by
  have hnested := Yaml.EventStream.nested_ofText hfault
  unfold nodes
  generalize (Yaml.EventStream.ofText text).events = events at hnested hplain
  apply Yaml.records_closings hnested hplain

/-- A text without a fault has the records of its documents: the jobs and the templates are, in
order, those among the items of their sequences, if these are plain. A text with a fault has none,
and says so once, at the end. -/
theorem parse_agrees_with_roots (sealedTags : List String) (file : Path) (text : String) :
  let stream := Yaml.EventStream.ofText text
  let items := (Yaml.roots (nodes sealedTags text)).flatMap Yaml.Value.items
  let read := parse sealedTags file text
  (stream.fault = none → Yaml.PlainRoots sealedTags [] stream.events →
    read.1.jobs.map Job.attributes = items.filterMap Yaml.Value.jobAttributes? ∧
    read.1.templates.map Template.attributes = items.filterMap Yaml.Value.templateAttributes?) ∧
  (∀ fault, stream.fault = some fault →
    read.1 = empty file ∧
    ∃ others, read.2 = others ++ [.unparseableDocument file fault.message] ∧
      ∀ d ∈ others, ¬ d.IsUnparseable)
  := by
  have hholds := reading_holds sealedTags file text
  dsimp only
  constructor
  · intro hfault hplain
    rw [records_nodes hfault hplain] at hholds
    simp only [parse_of_no_fault sealedTags file hfault, hholds.jobs, hholds.templates]
    constructor
    · apply Yaml.filterMap_records
      intro v hv
      rw [Yaml.Value.jobAttributes?, Yaml.Value.get?_of_not_mapping hv, Option.map_none]
    · apply Yaml.filterMap_records
      intro v hv
      simp [Yaml.Value.templateAttributes?, Yaml.Value.get?_of_not_mapping hv]
  · intro fault hfault
    simp only [parse_of_fault sealedTags file hfault]
    refine ⟨trivial, _, rfl, ?_⟩
    intro d hd
    apply hholds.parseable d (List.mem_reverse.mp hd)

/-- In two documents, a reference stands inside of a job, and a sealed sequence and another one hold
what would be a job elsewhere. -/
theorem parse_agrees_with_roots_two_documents :
  let text := "- job: [&a b, *a]\n---\n- [job: c]\n- project-template: !s [job: d]\n"
  let stream := Yaml.EventStream.ofText text
  let items := (Yaml.roots (nodes ["!s"] text)).flatMap Yaml.Value.items
  let document := (parse ["!s"] ⟨"a.yaml"⟩ text).1
  (stream.fault = none ∧ Yaml.PlainRoots ["!s"] [] stream.events) ∧ items.length = 3 ∧
    document.jobs.map Job.attributes = items.filterMap Yaml.Value.jobAttributes? ∧
    document.templates.map Template.attributes = items.filterMap Yaml.Value.templateAttributes?
  := by
  intro text stream items document
  have hplain : stream.fault = none ∧ Yaml.PlainRoots ["!s"] [] stream.events := by
    decide +kernel
  have hlength : items.length = 3 := by
    decide +kernel
  exact ⟨hplain, hlength, (parse_agrees_with_roots ["!s"] _ text).1 hplain.1 hplain.2⟩

end Document

end JobIndex
