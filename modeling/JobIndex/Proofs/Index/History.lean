import JobIndex.Proofs.Index.StateLog
import JobIndex.Proofs.Record.Locations
import JobIndex.Record.Reading

/-!
# The texts behind an index

An index is made of texts: the records of a text take the place of those that its file had before,
or a file is removed. Of all that happened the last text of each file counts. A state has the files
that have a text, and holds the records of these texts and no others
(`IndexState.exists_holdsTexts`).
-/

namespace JobIndex

/-- A text to be indexed: the tags that seal in it, its file and the text. -/
structure Source where
  sealedTags : List String
  file : Path
  text : String

namespace Source

/-- The records of a text. -/
def document (x : Source) : Document :=
  (Document.parse x.sealedTags x.file x.text).1

variable {x : Source}

theorem file_of_mem_jobs {job : Job} (h : job ∈ x.document.jobs) :
  job.file = x.file
  := by
  rw [document] at h
  apply ((Document.parse_all x.sealedTags x.file x.text).1 job h).1

theorem file_of_mem_templates {t : Template} (h : t ∈ x.document.templates) :
  t.file = x.file
  := by
  rw [document] at h
  apply ((Document.parse_all x.sealedTags x.file x.text).2 t h).1

theorem standsIn {file : Path} (hfile : (x.file == file) = true) :
  x.document.StandsIn file
  where
  jobs job hjob := by rwa [file_of_mem_jobs hjob]
  templates t ht := by rwa [file_of_mem_templates ht]

end Source

/-- The log of a document holds its jobs with a name, -/
theorem IndexLog.mem_jobs_empty_append {d : Document} {job : Job} :
  job ∈ (empty.append d).jobs ↔ job ∈ d.jobs ∧ job.name?.isSome = true
  := List.mem_filter

/-- and its templates. -/
theorem IndexLog.mem_templates_empty_append {d : Document} {t : Template} :
  t ∈ (empty.append d).templates ↔ t ∈ d.templates
  := Iff.rfl

namespace IndexState

/-! ### Operations -/

/-- What happens to an index. -/
inductive Operation where
  | replace (x : Source)
  | clear (file : Path)

/-- The state after an operation. -/
def perform (s : IndexState) : Operation → IndexState
  | .replace x => (s.replaceFile x.file x.document).1
  | .clear file => (s.clearFile file).1

/-- The state that operations lead to. -/
def run (operations : List Operation) : IndexState :=
  operations.foldl perform empty

/-- The text of a file after an operation, by that before. -/
def Operation.textOf (file : Path) (before : Option Source) : Operation → Option Source
  | .replace x => if x.file == file then some x else before
  | .clear other => if other == file then none else before

/-- The text of a file after operations. -/
def text? (operations : List Operation) (file : Path) : Option Source :=
  operations.foldl (Operation.textOf file) none

theorem run_append_singleton (operations : List Operation) (operation : Operation) :
  run (operations ++ [operation]) = (run operations).perform operation
  := List.foldl_append

theorem text?_append_singleton (operations : List Operation) (operation : Operation) :
  text? (operations ++ [operation])
    = fun file => operation.textOf file (text? operations file)
  := by
  funext file
  apply List.foldl_append

theorem isTracked_replaceFile (s : IndexState) (file : Path) (d : Document) (other : Path) :
  (s.replaceFile file d).1.isTracked other = (file == other || s.isTracked other)
  := Table.has_put s.files file .indexed other

theorem isTracked_clearFile (s : IndexState) (file other : Path) :
  (s.clearFile file).1.isTracked other = (!(file == other) && s.isTracked other)
  := Table.has_erase s.files file other

/-! ### The records of texts -/

/-- A state that represents a log has the files with a text, and holds the records of these
texts. -/
structure HoldsTexts (s : IndexState) (log : IndexLog) (text? : Path → Option Source) : Prop where
  represents : s.Represents log
  congr : ∀ file other, (file == other) = true → text? file = text? other
  isTracked_eq : ∀ file, s.isTracked file = (text? file).isSome
  file_beq : ∀ file x, text? file = some x → (x.file == file) = true
  inFile_eq : ∀ file x, text? file = some x → log.inFile file = IndexLog.empty.append x.document

variable {s : IndexState} {log : IndexLog} {texts : Path → Option Source}

theorem holdsTexts_empty :
  empty.HoldsTexts IndexLog.empty fun _ => none
  := ⟨represents_empty, fun _ _ _ => rfl, fun _ => rfl, fun _ _ h => (nomatch h),
    fun _ _ h => (nomatch h)⟩

theorem HoldsTexts.replaceFile (h : s.HoldsTexts log texts) (x : Source) :
  (s.replaceFile x.file x.document).1.HoldsTexts (log.replaceFile x.file x.document)
    fun file => if x.file == file then some x else texts file
  := by
  have hx : x.document.StandsIn x.file := Source.standsIn BEq.rfl
  constructor
  · apply h.represents.replaceFile hx
  · intro file other hfile
    rw [BEq.congr_right hfile, h.congr file other hfile]
  · intro file
    rw [isTracked_replaceFile, h.isTracked_eq]
    cases x.file == file <;> rfl
  · intro file y hy
    split at hy
    · next hfile =>
      obtain rfl := Option.some.inj hy
      exact hfile
    · apply h.file_beq file y hy
  · intro file y hy
    rw [IndexLog.inFile_replaceFile log hx]
    split at hy
    · next hfile =>
      obtain rfl := Option.some.inj hy
      rw [if_pos hfile]
    · next hfile =>
      rw [if_neg hfile]
      apply h.inFile_eq file y hy

theorem HoldsTexts.clearFile (h : s.HoldsTexts log texts) (file : Path) :
  (s.clearFile file).1.HoldsTexts (log.removeFile file)
    fun other => if file == other then none else texts other
  := by
  constructor
  · apply h.represents.clearFile
  · intro other other' hother
    rw [BEq.congr_right hother, h.congr other other' hother]
  · intro other
    rw [isTracked_clearFile, h.isTracked_eq]
    cases file == other <;> rfl
  · intro other y hy
    split at hy
    · cases hy
    · apply h.file_beq other y hy
  · intro other y hy
    rw [IndexLog.inFile_removeFile]
    split at hy
    · cases hy
    · next hother =>
      rw [if_neg hother]
      apply h.inFile_eq other y hy

/-- After any operations a state holds the last text of each file. -/
theorem exists_holdsTexts (operations : List Operation) :
  ∃ log, (run operations).HoldsTexts log (text? operations)
  := by
  induction operations using List.reverseRecOn with
  | nil => exact ⟨_, holdsTexts_empty⟩
  | append_singleton operations operation ih =>
      obtain ⟨log, hlog⟩ := ih
      rw [run_append_singleton, text?_append_singleton]
      cases operation with
      | replace x => exact ⟨_, hlog.replaceFile x⟩
      | clear file => exact ⟨_, hlog.clearFile file⟩

section

variable {file : Path} {x : Source} {job : Job} {t : Template}

/-- The jobs of a file are those of its text that have a name. -/
theorem HoldsTexts.mem_jobs (h : s.HoldsTexts log texts) (hx : texts file = some x) :
  job ∈ log.jobs.inFile file ↔ job ∈ x.document.jobs ∧ job.name?.isSome = true
  := by
  have hjobs : log.jobs.inFile file = (IndexLog.empty.append x.document).jobs := by
    rw [← h.inFile_eq file x hx]
    rfl
  rw [hjobs, IndexLog.mem_jobs_empty_append]

/-- Its templates are those of its text. -/
theorem HoldsTexts.mem_templates (h : s.HoldsTexts log texts) (hx : texts file = some x) :
  t ∈ log.templates.inFile file ↔ t ∈ x.document.templates
  := by
  have htemplates : log.templates.inFile file = (IndexLog.empty.append x.document).templates := by
    rw [← h.inFile_eq file x hx]
    rfl
  rw [htemplates, IndexLog.mem_templates_empty_append]

/-- A job of an index comes from a text, which spells the file in the same way, -/
theorem HoldsTexts.exists_of_mem_jobs (h : s.HoldsTexts log texts) (hjob : job ∈ log.jobs) :
  ∃ x, texts job.file = some x ∧ job ∈ x.document.jobs ∧ job.file = x.file
  := by
  have htracked := h.represents.tracked.jobs job hjob
  rw [h.isTracked_eq] at htracked
  obtain ⟨x, hx⟩ := Option.isSome_iff_exists.mp htracked
  obtain ⟨hmem, -⟩ := (h.mem_jobs hx).mp (JobLog.mem_inFile.mpr ⟨hjob, BEq.rfl⟩)
  exact ⟨x, hx, hmem, Source.file_of_mem_jobs hmem⟩

/-- and so does a template. -/
theorem HoldsTexts.exists_of_mem_templates (h : s.HoldsTexts log texts) (ht : t ∈ log.templates) :
  ∃ x, texts t.file = some x ∧ t ∈ x.document.templates ∧ t.file = x.file
  := by
  have htracked := h.represents.tracked.templates t ht
  rw [h.isTracked_eq] at htracked
  obtain ⟨x, hx⟩ := Option.isSome_iff_exists.mp htracked
  have hmem := (h.mem_templates hx).mp (List.mem_filter.mpr ⟨ht, BEq.rfl⟩)
  exact ⟨x, hx, hmem, Source.file_of_mem_templates hmem⟩

end

end IndexState

end JobIndex
