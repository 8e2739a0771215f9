import JobIndex.Proofs.Index.History
import JobIndex.Proofs.Index.References
import JobIndex.Query.Reference
import JobIndex.Workspace.Indexer

/-!
# What a rename edits

The edits that rename a job come from three places: the name of its active definition, the parents
of its active children, and the templates that name it.

* All locations come from the texts behind the index, so they are exact, and equal ones are the same
  (`IndexState.HoldsTexts.exists_exactIn`).
* Putting them in order loses none of them, so the edits are those of the three places
  (`IndexState.HoldsTexts.mem_renameEdits_iff`).
* Of a template that names the job, every location with that value is edited, and no other one,
  whatever stands there (`IndexState.mem_renameEdits_of_template`).

Nothing tells the places where a template names a job from others with the same value. A template
that has the name of a job that it lists is renamed with the job, and a job that is listed twice on
a line has one location there (`renameEdits_template_name`).
-/

namespace JobIndex

/-! ### Locations in order -/

namespace Location

variable {l m : Location} {ls : List Location}

/-- Equal locations differ at most in the spelling of their files. -/
theorem beq_iff :
  (l == m) = true ↔ (l.file == m.file) = true ∧ { l with file := m.file } = m
  := by
  obtain ⟨value, file, line, indentation, startCol, endCol, startByte, endByte⟩ := l
  obtain ⟨value', file', line', indentation', startCol', endCol', startByte', endByte'⟩ := m
  show instBEqLocation.beq _ _ = true ↔ _
  simp only [instBEqLocation.beq, Bool.and_eq_true, beq_iff_eq, mk.injEq, true_and]
  tauto

/-- Leaving out equal neighbours loses no location, if equal ones are the same. -/
theorem mem_dedupAfter {last : Location}
    (hsame : ∀ l ∈ last :: ls, ∀ m ∈ last :: ls, (l == m) = true → l = m) :
  l ∈ last :: dedupAfter last ls ↔ l ∈ last :: ls
  := by
  induction ls generalizing last with
  | nil => rfl
  | cons m ls ih =>
      have htail : ∀ l ∈ m :: ls, ∀ l' ∈ m :: ls, (l == l') = true → l = l' := by
        intro l hl l' hl'
        apply hsame l (List.mem_cons_of_mem last hl) l' (List.mem_cons_of_mem last hl')
      rw [dedupAfter]
      split
      · next heq =>
        obtain rfl : last = m := by
          apply hsame last List.mem_cons_self m _ heq
          apply List.mem_cons_of_mem last List.mem_cons_self
        rw [ih htail, List.mem_cons, List.mem_cons, List.mem_cons, ← or_assoc, or_self]
      · rw [List.mem_cons, ih htail, ← List.mem_cons]

theorem mem_dedup (hsame : ∀ l ∈ ls, ∀ m ∈ ls, (l == m) = true → l = m) :
  l ∈ dedup ls ↔ l ∈ ls
  := by
  cases ls with
  | nil => rfl
  | cons last ls => apply mem_dedupAfter hsame

/-- Putting locations in order loses none, if equal ones are the same. -/
theorem mem_ordered (hsame : ∀ l ∈ ls, ∀ m ∈ ls, (l == m) = true → l = m) :
  l ∈ ordered ls ↔ l ∈ ls
  := by
  have hmem : ∀ l, l ∈ ls.mergeSort le ↔ l ∈ ls := fun l => List.mem_mergeSort
  rw [ordered, mem_dedup, hmem]
  intro l hl m hm
  apply hsame l ((hmem l).mp hl) m ((hmem m).mp hm)

end Location

/-! ### Where names stand -/

theorem mem_of_afterKey? {key value : String} {ls : List Location} {l : Location}
    (h : afterKey? key value ls = some l) :
  l ∈ ls ∧ l.value = value
  := by
  fun_induction afterKey? key value ls with
  | case1 first second rest hfound =>
      obtain rfl := Option.some.inj h
      simp only [Bool.and_eq_true, beq_iff_eq] at hfound
      exact ⟨by simp, hfound.1.2⟩
  | case2 first second rest _ ih =>
      obtain ⟨hmem, hvalue⟩ := ih h
      exact ⟨List.mem_cons_of_mem _ hmem, hvalue⟩
  | case3 => cases h

/-- What stands after a key is one of the locations, and has the value. -/
theorem mem_of_keyedLocation? {key value : String} {ls : List Location} {l : Location}
    (h : keyedLocation? ls key value = some l) :
  l ∈ ls ∧ l.value = value
  := by
  rw [keyedLocation?, Option.or_eq_some_iff] at h
  obtain hafter | ⟨-, hfind⟩ := h
  · apply mem_of_afterKey? hafter
  · have hvalue := List.find?_some hfind
    exact ⟨List.mem_of_find?_eq_some hfind, eq_of_beq hvalue⟩

/-- The name of a job, or of its parent, stands where it has been written. -/
theorem mem_of_bind_keyedLocation? {key : String} {value? : Option String} {ls : List Location}
    {l : Location} (h : value?.bind (keyedLocation? ls key) = some l) :
  l ∈ ls ∧ value? = some l.value
  := by
  obtain ⟨value, hvalue, hl⟩ := Option.bind_eq_some_iff.mp h
  obtain ⟨hmem, rfl⟩ := mem_of_keyedLocation? hl
  exact ⟨hmem, hvalue⟩

/-! ### The locations of an index -/

/-- A location belongs to a record of a log. -/
def IndexLog.HasLocation (log : IndexLog) (l : Location) : Prop :=
  (∃ job ∈ log.jobs, l ∈ job.locations) ∨ ∃ t ∈ log.templates, l ∈ t.locations

theorem Source.exactIn_of_hasLocation {x : Source} {l : Location} (h : x.document.HasLocation l) :
  l.ExactIn x.file x.text
  := by
  rw [document] at h
  apply Document.exactIn_of_hasLocation h

namespace IndexState

variable {s : IndexState} {log : IndexLog} {texts : Path → Option Source} {l m : Location}

/-- The locations of an index are exact in the text of their file. -/
theorem HoldsTexts.exists_exactIn (h : s.HoldsTexts log texts) (hl : log.HasLocation l) :
  ∃ x, texts l.file = some x ∧ l.ExactIn x.file x.text
  := by
  obtain ⟨x, hx, hhas⟩ : ∃ x, texts x.file = some x ∧ x.document.HasLocation l := by
    obtain ⟨job, hjob, hmem⟩ | ⟨t, ht, hmem⟩ := hl
    · obtain ⟨x, hx, hdocument, hfile⟩ := h.exists_of_mem_jobs hjob
      use x
      rw [← hfile]
      exact ⟨hx, Or.inl ⟨job, hdocument, hmem⟩⟩
    · obtain ⟨x, hx, hdocument, hfile⟩ := h.exists_of_mem_templates ht
      use x
      rw [← hfile]
      exact ⟨hx, Or.inr ⟨t, hdocument, hmem⟩⟩
  have hexact := Source.exactIn_of_hasLocation hhas
  use x
  rw [hexact.file_eq]
  exact ⟨hx, hexact⟩

/-- Equal locations of an index are the same. -/
theorem HoldsTexts.eq_of_beq (h : s.HoldsTexts log texts) (hl : log.HasLocation l)
    (hm : log.HasLocation m) (heq : (l == m) = true) :
  l = m
  := by
  obtain ⟨hfile, hrest⟩ := Location.beq_iff.mp heq
  obtain ⟨x, hx, hexact⟩ := h.exists_exactIn hl
  obtain ⟨y, hy, hexact'⟩ := h.exists_exactIn hm
  rw [h.congr _ _ hfile, hy] at hx
  obtain rfl := Option.some.inj hx
  rw [hexact'.file_eq, ← hexact.file_eq] at hrest
  exact hrest

/-- Locations of an index at the same bytes of a file have the same value. -/
theorem HoldsTexts.value_eq (h : s.HoldsTexts log texts) (hl : log.HasLocation l)
    (hm : log.HasLocation m) (hfile : l.file = m.file) (hstart : l.startByte = m.startByte)
    (hend : l.endByte = m.endByte) :
  l.value = m.value
  := by
  obtain ⟨x, hx, hexact⟩ := h.exists_exactIn hl
  obtain ⟨y, hy, hexact'⟩ := h.exists_exactIn hm
  rw [hfile, hy] at hx
  obtain rfl := Option.some.inj hx
  apply String.toByteArray_inj.mp
  rw [← hexact.bytes_eq, ← hexact'.bytes_eq, hstart, hend]

/-! ### The edits of a rename -/

/-- Where a job is edited when it is renamed. -/
inductive RenamedAt (s : IndexState) (name : String) (l : Location) : Prop
  | definition {job : Job} (hjob : s.jobs.get? name = some job) (hl : job.nameLocation? = some l)
  | child {job : Job} (hjob : job ∈ s.jobs.children name) (hl : job.parentLocation? = some l)
  | template {t : Template} (ht : t ∈ s.templates.naming name) (hl : l ∈ t.locations)
    (hvalue : l.value = name)

variable {name : String}

/-- The text has the name of the job wherever it is edited. -/
theorem RenamedAt.value_eq (hl : s.RenamedAt name l) (hs : s.Represents log) :
  l.value = name
  := by
  cases hl with
  | definition hjob hl =>
      rw [hs.jobs.get?_eq] at hjob
      have hname := JobLog.name_of_newest? hjob
      rw [(mem_of_bind_keyedLocation? hl).2] at hname
      exact Option.some.inj hname
  | child hjob hl =>
      have hparent := ((hs.jobs.mem_children name _).mp hjob).2
      rw [(mem_of_bind_keyedLocation? hl).2] at hparent
      exact Option.some.inj hparent
  | template _ _ hvalue => exact hvalue

theorem RenamedAt.hasLocation (hl : s.RenamedAt name l) (hs : s.Represents log) :
  log.HasLocation l
  := by
  cases hl with
  | definition hjob hl =>
      rw [hs.jobs.get?_eq] at hjob
      exact Or.inl ⟨_, JobLog.mem_of_newest? hjob, (mem_of_bind_keyedLocation? hl).1⟩
  | child hjob hl =>
      obtain ⟨⟨_, hnewest⟩, -⟩ := (hs.jobs.mem_children name _).mp hjob
      exact Or.inl ⟨_, JobLog.mem_of_newest? hnewest, (mem_of_bind_keyedLocation? hl).1⟩
  | template ht hl _ =>
      have hlog := (hs.templates.naming_perm name).mem_iff.mp ht
      exact Or.inr ⟨_, List.mem_of_mem_filter hlog, hl⟩

/-- A job is referred to by its children and by templates. -/
theorem HoldsTexts.mem_findReferences (h : s.HoldsTexts log texts) :
  l ∈ findReferences s.jobs s.templates name
    ↔ (∃ job ∈ s.jobs.children name, job.parentLocation? = some l) ∨
      ∃ t ∈ s.templates.naming name, l ∈ t.locations ∧ l.value = name
  := by
  have hmem : ∀ l, l ∈ (s.jobs.children name).filterMap Job.parentLocation?
        ++ s.templates.referenceLocations name
      ↔ (∃ job ∈ s.jobs.children name, job.parentLocation? = some l) ∨
        ∃ t ∈ s.templates.naming name, l ∈ t.locations ∧ l.value = name := by
    intro l
    rw [List.mem_append, List.mem_filterMap, TemplateRegistry.referenceLocations_eq]
    simp only [List.mem_flatMap, List.mem_filter, beq_iff_eq]
  have hlocation : ∀ l, l ∈ (s.jobs.children name).filterMap Job.parentLocation?
      ++ s.templates.referenceLocations name → log.HasLocation l := by
    intro l hl
    obtain ⟨job, hjob, hl⟩ | ⟨t, ht, hl, hvalue⟩ := (hmem l).mp hl
    · exact (RenamedAt.child hjob hl).hasLocation h.represents
    · exact (RenamedAt.template ht hl hvalue).hasLocation h.represents
  rw [findReferences, Location.mem_ordered, hmem]
  exact fun l hl m hm => h.eq_of_beq (hlocation l hl) (hlocation m hm)

/-- The locations that a rename puts in order are those where the job is edited. -/
theorem HoldsTexts.mem_renamed_iff (h : s.HoldsTexts log texts) {job : Job}
    (hjob : s.jobs.get? name = some job) :
  l ∈ job.nameLocation?.toList ++ findReferences s.jobs s.templates name ↔ s.RenamedAt name l
  := by
  rw [List.mem_append, Option.mem_toList, h.mem_findReferences]
  constructor
  · rintro (hl | ⟨child, hchild, hl⟩ | ⟨t, ht, hl, hvalue⟩)
    · exact .definition hjob hl
    · exact .child hchild hl
    · exact .template ht hl hvalue
  · intro hl
    cases hl with
    | definition hjob' hl =>
        rw [hjob] at hjob'
        obtain rfl := Option.some.inj hjob'
        exact Or.inl hl
    | child hchild hl => exact Or.inr (Or.inl ⟨_, hchild, hl⟩)
    | template ht hl hvalue => exact Or.inr (Or.inr ⟨_, ht, hl, hvalue⟩)

/-- A registered job is edited at its definition and where it is referred to. -/
theorem HoldsTexts.mem_renameEdits_iff (h : s.HoldsTexts log texts) {job : Job}
    (hjob : s.jobs.get? name = some job) (new : String) (e : TextEdit) :
  e ∈ renameEdits s.jobs s.templates name new
    ↔ ∃ l, s.RenamedAt name l ∧ e = TextEdit.replacing new l
  := by
  have hsame : ∀ l ∈ job.nameLocation?.toList ++ findReferences s.jobs s.templates name,
      ∀ m ∈ job.nameLocation?.toList ++ findReferences s.jobs s.templates name,
      (l == m) = true → l = m := by
    intro l hl m hm
    apply h.eq_of_beq (((h.mem_renamed_iff hjob).mp hl).hasLocation h.represents)
      (((h.mem_renamed_iff hjob).mp hm).hasLocation h.represents)
  rw [renameEdits, hjob]
  simp only [List.mem_map, Location.mem_ordered hsame, h.mem_renamed_iff hjob, eq_comm]

/-! ### Templates -/

/-- Of a template that names a registered job, exactly the locations with that value are edited,
whether the template names the job there or not. -/
theorem mem_renameEdits_of_template (operations : List Operation) {old : String} (new : String)
    {job : Job} (hjob : (run operations).jobs.get? old = some job) {t : Template}
    (ht : t ∈ (run operations).templates.all) (hmentions : t.mentions old = true)
    (hl : l ∈ t.locations) :
  TextEdit.replacing new l ∈ renameEdits (run operations).jobs (run operations).templates old new
    ↔ l.value = old
  := by
  obtain ⟨log, h⟩ := exists_holdsTexts operations
  have htemplate : t ∈ log.templates := h.represents.templates.all_perm.mem_iff.mp ht
  rw [h.mem_renameEdits_iff hjob]
  constructor
  · rintro ⟨m, hm, heq⟩
    have hfile : l.file = m.file := congrArg TextEdit.file heq
    have hstart : l.startByte = m.startByte := congrArg TextEdit.startByte heq
    have hend : l.endByte = m.endByte := congrArg TextEdit.endByte heq
    rw [h.value_eq (Or.inr ⟨t, htemplate, hl⟩) (hm.hasLocation h.represents) hfile hstart hend]
    apply hm.value_eq h.represents
  · intro hvalue
    have hnaming : t ∈ (run operations).templates.naming old := by
      rw [(h.represents.templates.naming_perm old).mem_iff]
      apply List.mem_filter.mpr ⟨htemplate, hmentions⟩
    exact ⟨l, .template hnaming hl hvalue, rfl⟩

/-- The template has the name of the job that it lists, and its name is edited. -/
theorem mem_renameEdits_of_template_name :
  let text : String :=
    "- job:\n    name: unit\n- project-template:\n    name: unit\n    jobs: [unit, unit]\n"
  let operations : List Operation := [.replace ⟨[], ⟨"a.yaml"⟩, text⟩]
  ∃ job t l, (run operations).jobs.get? "unit" = some job ∧ t ∈ (run operations).templates.all ∧
    t.mentions "unit" = true ∧ l ∈ t.locations ∧ l.line = 3 ∧ l.value = "unit" ∧
    TextEdit.replacing "tests" l
      ∈ renameEdits (run operations).jobs (run operations).templates "unit" "tests"
  := by
  intro text operations
  obtain ⟨hregistered, hfound⟩ : ((run operations).jobs.get? "unit").isSome = true ∧
      ((run operations).templates.all.any fun t => t.mentions "unit" &&
        t.locations.any fun l => l.line == 3 && l.value == "unit") = true := by decide +kernel
  obtain ⟨job, hjob⟩ := Option.isSome_iff_exists.mp hregistered
  simp only [List.any_eq_true, Bool.and_eq_true, beq_iff_eq] at hfound
  obtain ⟨t, ht, hmentions, l, hl, hline, hvalue⟩ := hfound
  exact ⟨job, t, l, hjob, ht, hmentions, hl, hline, hvalue,
    (mem_renameEdits_of_template operations "tests" hjob ht hmentions hl).mpr hvalue⟩

end IndexState

/-! ### Edits in a text -/

/-- The bytes of a file after an edit. -/
def TextEdit.apply (e : TextEdit) (bytes : List UInt8) : List UInt8 :=
  bytes.take e.startByte ++ e.newText.toUTF8.toList ++ bytes.drop e.endByte

/-- The bytes of a file after edits that come in the order of the file. The last one is made first,
so that none of them moves what is still to be edited. -/
def applyEdits (edits : List TextEdit) (bytes : List UInt8) : List UInt8 :=
  edits.foldr TextEdit.apply bytes

/-- Locations that come in order need not be sorted. -/
theorem renameEdits_of_pairwise {jobs : JobRegistry} {templates : TemplateRegistry} {old : String}
    (new : String) {references locations : List Location}
    (hreferences : (jobs.children old).filterMap Job.parentLocation?
      ++ templates.referenceLocations old = references)
    (hlocations : ((jobs.get? old).bind Job.nameLocation?).toList ++ Location.dedup references
      = locations)
    (h : (jobs.get? old).isSome = true ∧ (references.Pairwise fun a b => a.le b = true) ∧
      locations.Pairwise fun a b => a.le b = true) :
  renameEdits jobs templates old new = (Location.dedup locations).map (TextEdit.replacing new)
  := by
  obtain ⟨hregistered, hsorted, hsorted'⟩ := h
  obtain ⟨job, hjob⟩ := Option.isSome_iff_exists.mp hregistered
  have hfound : findReferences jobs templates old = Location.dedup references := by
    rw [findReferences, Location.ordered, hreferences, List.mergeSort_of_pairwise hsorted]
  rw [hjob, Option.bind_some] at hlocations
  rw [renameEdits, hjob]
  dsimp only
  rw [hfound, hlocations, Location.ordered, List.mergeSort_of_pairwise hsorted']

/-- A template has the name of the job that it lists twice on one line. The edits give it another
name, and leave the job in its list under the old name as well. -/
theorem renameEdits_template_name :
  let file : Path := ⟨"a.yaml"⟩
  let text : String :=
    "- job:\n    name: unit\n- project-template:\n    name: unit\n    jobs: [unit, unit]\n"
  let s : IndexState := IndexState.run [.replace ⟨[], file, text⟩]
  let edits : List TextEdit := renameEdits s.jobs s.templates "unit" "tests"
  let renamed : Document := (Document.ofBytes [] file (applyEdits edits text.toUTF8.toList)).1
  let shown (t : Template) : Option String × List String := (t.name?, t.references)
  s.templates.all.map shown = [(some "unit", ["unit"])] ∧
    renamed.jobs.map Job.name? = [some "tests"] ∧
    renamed.templates.map shown = [(some "tests", ["tests", "unit"])]
  := by
  dsimp only
  rw [renameEdits_of_pairwise "tests" rfl rfl (by decide +kernel)]
  decide +kernel

end JobIndex
