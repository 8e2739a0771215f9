import JobIndex.Command.Run
import JobIndex.Proofs.Workspace.FileTree
import Mathlib.Data.List.Basic

/-!
# Asking for the references to a name

A request for the references to a name is answered from the index after a full pass
(`Command.Reads`). Whether the name is known is decided by the active job with this name and by the
templates that name it. The references themselves also are where jobs tell the name as that of their
parent. So a name that is only told as a parent is unknown, and its references are not shown
(`Command.run_references`).
-/

namespace JobIndex

/-! ### References in an index -/

theorem Location.dedup_eq_nil_iff {ls : List Location} :
  dedup ls = [] ↔ ls = []
  := by
  cases ls with
  | nil => rfl
  | cons l ls => simp [dedup]

theorem Location.ordered_eq_nil_iff {ls : List Location} :
  ordered ls = [] ↔ ls = []
  := by
  rw [ordered, dedup_eq_nil_iff, ← List.length_eq_zero_iff, List.length_mergeSort,
    List.length_eq_zero_iff]

theorem JobRegistry.mem_children_iff {r : JobRegistry} {parent : String} {job : Job} :
  job ∈ r.children parent ↔ job ∈ r.active ∧ job.parent? = some parent
  := by
  rw [children, List.mem_mergeSort, List.mem_filter, beq_iff_eq]

/-- Without references in templates, there is a reference exactly if a job tells the name as that of
its parent at some place. -/
theorem findReferences_eq_nil_iff {jobs : JobRegistry} {templates : TemplateRegistry}
    {name : String} (h : templates.referenceLocations name = []) :
  findReferences jobs templates name = [] ↔
    ∀ job ∈ jobs.active, job.parent? = some name → job.parentLocation? = none
  := by
  rw [findReferences, h, List.append_nil, Location.ordered_eq_nil_iff, List.filterMap_eq_nil_iff]
  simp only [JobRegistry.mem_children_iff, and_imp]

namespace Command

/-! ### From the request to its answer -/

/-- The index that a use of the program answers from: the one after a full pass. -/
def Reads (t : FileTree) (i : Invocation) (x : Indexer) : Prop :=
  ∃ root config start reported, root = (t.canonical? i.options.workspace).getD i.options.workspace ∧
    configure t i.options root = .ok config ∧
    Indexer.ofConfig t root config = .ok (start, reported) ∧
    x = (if i.request.isForced then start.rebuild t else start.indexAll t).1

variable {t : FileTree} {i : Invocation} {x : Indexer} {name : String}

/-- A request is answered from the index alone. -/
theorem Reads.run_eq (h : Reads t i x) :
  ∃ report, (∀ e, answer x report i.request = .error e → (run t i).2 = .error e) ∧
    ∀ a reported, answer x report i.request = .ok (a, reported) →
      ∃ diagnostics?, (run t i).2 = .ok ⟨a, diagnostics?⟩
  := by
  obtain ⟨root, config, start, opening, rfl, hconfig, hopen, rfl⟩ := h
  refine ⟨(if i.request.isForced then start.rebuild t else start.indexAll t).2.2.2, ?_, ?_⟩
  · intro e he
    simp only [run, hconfig, hopen, he]
  · intro a reported ha
    simp only [run, hconfig, hopen, ha]
    exact ⟨_, rfl⟩

/-- The name is neither that of a job nor named by a template at some place. -/
def IsUnknown (x : Indexer) (name : String) : Prop :=
  x.state.jobs.get? name = none ∧ x.state.templates.referenceLocations name = []

theorem answerReferences_of_isUnknown (h : IsUnknown x name) :
  answerReferences x name = .error (.unknownJob name)
  := by
  simp [answerReferences, h.1, TemplateRegistry.referenceCount, h.2]

theorem answerReferences_of_known (h : ¬ IsUnknown x name) :
  answerReferences x name = .ok (.references name
    ((findReferences x.state.jobs x.state.templates name).map (LocationView.ofLocation x.root)))
  := by
  rw [answerReferences, if_neg]
  intro hunknown
  rw [Bool.and_eq_true, Option.isNone_iff_eq_none, beq_iff_eq, TemplateRegistry.referenceCount,
    List.length_eq_zero_iff] at hunknown
  exact h hunknown

/-- How a request for the references to a name ends, if it is answered from the index `x`. -/
structure TellsReferences (t : FileTree) (i : Invocation) (x : Indexer) (name : String) :
    Prop where
  /-- It fails exactly if no job has the name and no template names it. -/
  fails_iff : (run t i).2 = .error (.unknownJob name) ↔ IsUnknown x name
  /-- Otherwise it shows all references. -/
  shows : ¬ IsUnknown x name → ∃ diagnostics?, (run t i).2 = .ok ⟨.references name
    ((findReferences x.state.jobs x.state.templates name).map (LocationView.ofLocation x.root)),
    diagnostics?⟩
  /-- References that are not shown are where jobs tell the name as that of their parent, -/
  hidden : IsUnknown x name → findReferences x.state.jobs x.state.templates name
    = Location.ordered ((x.state.jobs.children name).filterMap Job.parentLocation?)
  /-- so that nothing is hidden exactly if no job does so at some place. -/
  nothing_hidden_iff : IsUnknown x name →
    (findReferences x.state.jobs x.state.templates name = [] ↔
      ∀ job ∈ x.state.jobs.active, job.parent? = some name → job.parentLocation? = none)

theorem Reads.tellsReferences (hrequest : i.request = .references name) (h : Reads t i x) :
  TellsReferences t i x name
  := by
  obtain ⟨report, hfails, hanswers⟩ := h.run_eq
  rw [hrequest] at hfails hanswers
  have hshows : ¬ IsUnknown x name → ∃ diagnostics?, (run t i).2 = .ok ⟨.references name
      ((findReferences x.state.jobs x.state.templates name).map
        (LocationView.ofLocation x.root)), diagnostics?⟩ := by
    intro hknown
    apply hanswers _ []
    rw [answer, answerReferences_of_known hknown]
    rfl
  constructor
  · constructor
    · intro herror
      by_contra hknown
      obtain ⟨diagnostics?, hok⟩ := hshows hknown
      rw [herror] at hok
      cases hok
    · intro hunknown
      apply hfails
      rw [answer, answerReferences_of_isUnknown hunknown]
      rfl
  · exact hshows
  · intro hunknown
    rw [findReferences, hunknown.2, List.append_nil]
  · intro hunknown
    exact findReferences_eq_nil_iff hunknown.2

/-- A use of the program fails before there is an index: it has no configuration, or a pattern of
the configuration is none. -/
def FailsToOpen (t : FileTree) (i : Invocation) : Prop :=
  ∃ root, root = (t.canonical? i.options.workspace).getD i.options.workspace ∧
    ((∃ e, configure t i.options root = .error e ∧ (run t i).2 = .error (.config e)) ∨
      ∃ config e, configure t i.options root = .ok config ∧
        Indexer.ofConfig t root config = .error e ∧ (run t i).2 = .error (.workspace root e))

/-- A use of the program stops, or it answers from an index. -/
theorem failsToOpen_or_reads (t : FileTree) (i : Invocation) :
  FailsToOpen t i ∨ ∃ x, Reads t i x
  := by
  let root := (t.canonical? i.options.workspace).getD i.options.workspace
  cases hconfig : configure t i.options root with
  | error e =>
      left
      use root, rfl
      left
      use e, hconfig
      simp only [run, hconfig, root]
  | ok config =>
      cases hopen : Indexer.ofConfig t root config with
      | error e =>
          left
          use root, rfl
          right
          use config, e, hconfig, hopen
          simp only [run, hconfig, hopen, root]
      | ok opened =>
          right
          obtain ⟨start, opening⟩ := opened
          exact ⟨_, root, config, start, opening, rfl, hconfig, hopen, rfl⟩

/-- Whatever files and options there are, a request for the references to a name is answered from an
index after a full pass, and shows all references there, unless the name is known to neither the
jobs nor the templates. -/
theorem run_references (t : FileTree) (options : Options) (name : String) :
  let i : Invocation := ⟨options, .references name⟩
  FailsToOpen t i ∨ ∃ x, Reads t i x ∧ TellsReferences t i x name
  := by
  intro i
  rcases failsToOpen_or_reads t i with hfails | ⟨x, hx⟩
  · exact Or.inl hfails
  · exact Or.inr ⟨x, hx, hx.tellsReferences rfl⟩

/-- A name that a job tells as that of its parent is unknown if no job has it, though it has been
found where it is told. -/
theorem run_references_parent :
  let text := "- job:\n    name: unit\n    parent: base\n"
  let t : FileTree :=
    ⟨.directory [("ws", .directory [("zuul.yaml", .file text.toUTF8.toList ⟨0⟩)])], [], ⟨0⟩, none⟩
  let i : Invocation := ⟨⟨⟨"/ws"⟩, false, none, true, [], false⟩, .references "base"⟩
  ∃ x, Reads t i x ∧ (run t i).2 = .error (.unknownJob "base") ∧
    (findReferences x.state.jobs x.state.templates "base").map
      (fun l => (l.value, l.file.spelling, l.line, l.startCol))
      = [("base", "/ws/zuul.yaml", 2, 12)]
  := by
  intro text t i
  have hspelling : (t.canonical? ⟨"/ws"⟩).map Path.spelling = some "/ws" := by decide +kernel
  obtain ⟨⟨root⟩, hroot, rfl⟩ := Option.map_eq_some_iff.mp hspelling
  have hchecked : ((configure t i.options ⟨"/ws"⟩).toOption.any fun config =>
      (Indexer.ofConfig t ⟨"/ws"⟩ config).toOption.any fun opened =>
        let s := (opened.1.indexAll t).1.state
        (s.jobs.get? "base").isNone && (s.templates.referenceLocations "base").isEmpty
          && (findReferences s.jobs s.templates "base").map
            (fun l => (l.value, l.file.spelling, l.line, l.startCol))
            == [("base", "/ws/zuul.yaml", 2, 12)]) = true := by
    decide +kernel
  obtain ⟨config, hconfig, hchecked⟩ := exists_ok_of_any hchecked
  obtain ⟨⟨start, opening⟩, hopen, hchecked⟩ := exists_ok_of_any hchecked
  simp only [Bool.and_eq_true, Option.isNone_iff_eq_none, List.isEmpty_iff, beq_iff_eq] at hchecked
  obtain ⟨⟨hjob, htemplates⟩, hfound⟩ := hchecked
  have hreads : Reads t i (start.indexAll t).1 :=
    ⟨_, config, start, opening, by rw [hroot]; rfl, hconfig, hopen, rfl⟩
  exact ⟨_, hreads, (hreads.tellsReferences rfl).fails_iff.mpr ⟨hjob, htemplates⟩, hfound⟩

end Command

end JobIndex
