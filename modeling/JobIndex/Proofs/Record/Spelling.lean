import JobIndex.Proofs.Path
import JobIndex.Proofs.Record.Locations
import JobIndex.Workspace.Indexer

/-!
# Records and the spelling of their file

A path is compared by its parts, however it is spelled. The view of a record is the record with the
parts of its path in the place of the path, so records have one view when they are equal up to the
spelling of paths. What is read from a text under two spellings of one path has one view: the path
is put into the records and otherwise not looked at.
-/

namespace JobIndex

/-! ### Views -/

/-- A location by the parts of its path. -/
def Location.view (l : Location) : List Path.Part × Location :=
  (l.file.parts, { l with file := ⟨""⟩ })

/-- A job by the parts of its paths. -/
def Job.view (job : Job) : List Path.Part × Attributes × List (List Path.Part × Location) :=
  (job.file.parts, job.attributes, job.locations.map Location.view)

/-- A template by the parts of its paths. -/
def Template.view (t : Template) :
    List Path.Part × Attributes × List String × List (List Path.Part × Location) :=
  (t.file.parts, t.attributes, t.references, t.locations.map Location.view)

/-- Documents have the same records up to the spelling of paths. -/
structure Document.SameView (d d' : Document) : Prop where
  jobs : d.jobs.map Job.view = d'.jobs.map Job.view
  templates : d.templates.map Template.view = d'.templates.map Template.view

theorem Document.SameView.trans {d d' d'' : Document} (h : d.SameView d') (h' : d'.SameView d'') :
  d.SameView d''
  := ⟨h.jobs.trans h'.jobs, h.templates.trans h'.templates⟩

theorem Document.SameView.symm {d d' : Document} (h : d.SameView d') :
  d'.SameView d
  := ⟨h.jobs.symm, h.templates.symm⟩

theorem Location.sameOccurrence_congr {l l' m m' : Location} (hl : l.view = l'.view)
    (hm : m.view = m'.view) :
  l.sameOccurrence m = l'.sameOccurrence m'
  := by
  simp only [view, Prod.mk.injEq, Location.mk.injEq] at hl hm
  obtain ⟨-, hvalue, -, hline, hindentation, -⟩ := hl
  obtain ⟨-, hvalue', -, hline', hindentation', -⟩ := hm
  rw [sameOccurrence, sameOccurrence, hvalue, hvalue', hline, hline', hindentation, hindentation']

/-- Locations are taken as one whatever the spelling of their paths. -/
theorem Location.view_collapse {ls ls' : List Location} (h : ls.map view = ls'.map view) :
  (collapse ls).map view = (collapse ls').map view
  := by
  have hafter : ∀ (ls ls' : List Location) (last last' : Location), last.view = last'.view →
      ls.map view = ls'.map view →
      (collapseAfter last ls).map view = (collapseAfter last' ls').map view := by
    intro ls
    induction ls with
    | nil =>
        intro ls' last last' _ h
        rw [List.map_eq_nil_iff.mp h.symm]
        rfl
    | cons l ls ih =>
        intro ls' last last' hlast h
        obtain ⟨l', ls', rfl, hl, hls⟩ := List.map_eq_cons_iff.mp h.symm
        rw [collapseAfter, collapseAfter, Location.sameOccurrence_congr hlast hl.symm]
        split
        · apply ih ls' last last' hlast hls.symm
        · rw [List.map_cons, List.map_cons, hl, ih ls' l l' hl.symm hls.symm]
  cases ls with
  | nil =>
      rw [List.map_eq_nil_iff.mp h.symm]
  | cons l ls =>
      obtain ⟨l', ls', rfl, hl, hls⟩ := List.map_eq_cons_iff.mp h.symm
      rw [collapse, collapse, List.map_cons, List.map_cons, hl,
        hafter ls ls' l l' hl.symm hls.symm]

/-! ### Reading under two spellings -/

namespace Reading

variable {p q : Path} {lines : Array Text.Line} {r s : Reading}

/-- Two states of reading have found the same, up to the spelling of paths. -/
structure SameView (r s : Reading) : Prop where
  locations : r.locations.map Location.view = s.locations.map Location.view
  jobs : r.jobs.map Job.view = s.jobs.map Job.view
  templates : r.templates.map Template.view = s.templates.map Template.view

theorem SameView.locate (h : r.SameView s) (hpq : p.parts = q.parts) (c : Yaml.Closing)
    (value : String) :
  (r.locate p lines c value).SameView (s.locate q lines c value)
  := by
  unfold Reading.locate
  split
  · exact ⟨h.locations, h.jobs, h.templates⟩
  · split
    · exact h
    · next line _ =>
      unfold Location.ofScalar?
      cases line.find? value.toList c.column with
      | none => exact h
      | some startCol =>
          refine ⟨?_, h.jobs, h.templates⟩
          simp only [Option.map_some, List.map_cons, h.locations, Location.view, hpq]

theorem SameView.report (h : r.SameView s) (d d' : Diagnostic) :
  (r.report d).SameView (s.report d')
  := ⟨h.locations, h.jobs, h.templates⟩

theorem SameView.takeLocations (h : r.SameView s) :
  r.takeLocations.1.map Location.view = s.takeLocations.1.map Location.view ∧
    r.takeLocations.2.SameView s.takeLocations.2
  := by
  constructor
  · apply Location.view_collapse
    rw [List.map_reverse, List.map_reverse, h.locations]
  · exact ⟨rfl, h.jobs, h.templates⟩

theorem SameView.closeRecord (h : r.SameView s) (hpq : p.parts = q.parts) (v : Yaml.Value) :
  (r.closeRecord p v).SameView (s.closeRecord q v)
  := by
  obtain ⟨hlocations, htaken⟩ := h.takeLocations
  unfold Reading.closeRecord
  split
  · next body _ =>
    have hview : (Job.mk p (Attributes.ofValue body) r.takeLocations.1).view
        = (Job.mk q (Attributes.ofValue body) s.takeLocations.1).view := by
      simp only [Job.view, hpq, hlocations]
    have hadd : ∀ r' s' : Reading, r'.SameView s' →
        Reading.SameView
          { r' with jobs := ⟨p, Attributes.ofValue body, r.takeLocations.1⟩ :: r'.jobs }
          { s' with jobs := ⟨q, Attributes.ofValue body, s.takeLocations.1⟩ :: s'.jobs } := by
      intro r' s' h'
      refine ⟨h'.locations, ?_, h'.templates⟩
      rw [List.map_cons, List.map_cons, hview, h'.jobs]
    -- whether there is a name depends on the attributes only
    cases hname : (Attributes.ofValue body).scalar? "name" with
    | none =>
        simp only [Job.name?, hname]
        apply hadd _ _ (htaken.report _ _)
    | some name =>
        simp only [Job.name?, hname]
        apply hadd _ _ htaken
  · split
    · refine ⟨htaken.locations, htaken.jobs, ?_⟩
      simp only [Template.ofAttributes, List.map_cons, Template.view, hpq, hlocations]
      rw [htaken.templates]
    · exact h

theorem SameView.step (h : r.SameView s) (hpq : p.parts = q.parts) (c : Yaml.Closing) :
  (r.step p lines c).SameView (s.step q lines c)
  := by
  unfold Reading.step
  split
  · split
    · exact h
    · split
      · exact ⟨rfl, h.jobs, h.templates⟩
      · split
        · exact h
        · apply h.locate hpq
  · split
    · apply h.closeRecord hpq
    · exact h
  · exact h

theorem SameView.foldl_step (h : r.SameView s) (hpq : p.parts = q.parts)
    (cs : List Yaml.Closing) :
  (cs.foldl (Reading.step p lines) r).SameView (cs.foldl (Reading.step q lines) s)
  := by
  induction cs generalizing r s with
  | nil => exact h
  | cons c cs ih => apply ih (h.step hpq c)

end Reading

/-! ### Documents under two spellings -/

namespace Document

/-- What a text says under two spellings of one path has one view. -/
theorem parse_sameView (sealedTags : List String) {p q : Path} (hpq : p.parts = q.parts)
    (text : String) :
  (parse sealedTags p text).1.SameView (parse sealedTags q text).1
  := by
  unfold parse
  generalize Yaml.EventStream.ofText text = stream
  have hempty : Reading.empty.SameView Reading.empty := ⟨rfl, rfl, rfl⟩
  have hread : ∀ closings : List Yaml.Closing,
      (closings.foldl (Reading.step p (Text.lines text)) Reading.empty).SameView
        (closings.foldl (Reading.step q (Text.lines text)) Reading.empty) := by
    intro closings
    apply hempty.foldl_step hpq
  dsimp only
  split
  · constructor
    · rw [List.map_reverse, List.map_reverse, (hread _).jobs]
    · rw [List.map_reverse, List.map_reverse, (hread _).templates]
  · exact ⟨rfl, rfl⟩

/-- What bytes say under two spellings of one path has one view. -/
theorem ofBytes_sameView (sealedTags : List String) {p q : Path} (hpq : p.parts = q.parts)
    (bytes : List UInt8) :
  (ofBytes sealedTags p bytes).1.SameView (ofBytes sealedTags q bytes).1
  := by
  unfold ofBytes
  split
  · apply parse_sameView sealedTags hpq
  · exact ⟨rfl, rfl⟩

end Document

end JobIndex
