import JobIndex.Proofs.Index.Reindexing
import JobIndex.Proofs.Query.Renaming

/-!
# The edits of a rename are in order

A rename puts locations in order by file, line and column and takes equal neighbours as one. That
leaves no two edits at one place only because places are exact.

* Locations of one value at one line and column of a text are the same
  (`Location.ExactIn.eq_of_place`), and an index has one text for each file.
* So of the locations in order each comes before the next (`Location.pairwise_ordered`).

With what a rename edits this says all there is to know of the edits (`IndexState.RenamesExactly`):
they come in order, each stands on the old name in the text, and they are those of the definition,
of the children and of the templates.
-/

namespace JobIndex

/-! ### Places -/

namespace Location

variable {l m : Location} {ls : List Location}

/-- The order of locations by file, line and column. -/
def comparePlace (l m : Location) : Ordering :=
  (compare l.file m.file).then ((compare l.line m.line).then (compare l.startCol m.startCol))

instance : Std.TransCmp comparePlace :=
  inferInstanceAs (Std.TransCmp (compareLex (compareOn file)
    (compareLex (compareOn line) (compareOn startCol))))

theorem comparePlace_eq_iff :
  l.comparePlace m = .eq ↔ (l.file == m.file) = true ∧ l.line = m.line ∧ l.startCol = m.startCol
  := by
  rw [comparePlace, Ordering.then_eq_eq, Ordering.then_eq_eq, Std.LawfulBEqOrd.compare_eq_iff_beq,
    Std.LawfulEqOrd.compare_eq_iff_eq, Std.LawfulEqOrd.compare_eq_iff_eq]

/-- A value stands at a line and column of a text in one way. -/
theorem ExactIn.eq_of_place {file : Path} {text : String} (hl : l.ExactIn file text)
    (hm : m.ExactIn file text) (hvalue : l.value = m.value) (hline : l.line = m.line)
    (hcol : l.startCol = m.startCol) :
  l = m
  := by
  obtain ⟨before, lead, tail, ending, after, hat, hindent, hlead, hstart⟩ := hl.stands
  obtain ⟨before', lead', tail', ending', after', hat', hindent', hlead', hstart'⟩ := hm.stands
  have hcontent := hat.getElem?_linesFrom 0
  rw [hline, hat'.getElem?_linesFrom 0, Option.some.injEq, Text.Line.mk.injEq] at hcontent
  obtain ⟨hcontent, hbefore⟩ := hcontent
  obtain rfl : lead' = lead := by
    have hlength : lead'.length = lead.length := by
      rw [← hlead, ← hlead', hcol]
    apply (List.append_inj hcontent hlength).1
  have hbyte : l.startByte = m.startByte := by
    rw [hstart, hstart', Text.byteSize_append, Text.byteSize_append]
    omega
  have hindentation : l.indentation = m.indentation := by
    rw [hindent, hindent', hcontent]
  have hend : l.endCol = m.endCol := by
    rw [hl.endCol_eq, hm.endCol_eq, hcol, hvalue]
  have hendByte : l.endByte = m.endByte := by
    rw [hl.endByte_eq, hm.endByte_eq, hbyte, hvalue]
  have hfile : l.file = m.file := hl.file_eq.trans hm.file_eq.symm
  cases l
  cases m
  simp_all

/-! ### Locations in order -/

/-- After equal neighbours have been left out, locations in order strictly increase, if those at the
same place are equal. -/
theorem pairwise_dedupAfter {last : Location}
    (hsorted : (last :: ls).Pairwise fun l m => (l.comparePlace m).isLE = true)
    (hsame : ∀ l ∈ last :: ls, ∀ m ∈ last :: ls, l.comparePlace m = .eq → (l == m) = true) :
  (last :: dedupAfter last ls).Pairwise fun l m => l.comparePlace m = .lt
  := by
  induction ls generalizing last with
  | nil => apply List.pairwise_singleton
  | cons m ls ih =>
      obtain ⟨hfirst, htail⟩ := List.pairwise_cons.mp hsorted
      rw [dedupAfter]
      split
      · have hsub : (last :: ls).Sublist (last :: m :: ls) :=
          (List.sublist_cons_self m ls).cons_cons last
        apply ih (hsorted.sublist hsub)
        intro l hl l' hl'
        apply hsame l (hsub.subset hl) l' (hsub.subset hl')
      · next hne =>
        have hrest := ih htail fun l hl l' hl' =>
          hsame l (List.mem_cons_of_mem last hl) l' (List.mem_cons_of_mem last hl')
        have hlt : last.comparePlace m = .lt := by
          have hle := hfirst m List.mem_cons_self
          cases hcompare : last.comparePlace m with
          | lt => rfl
          | eq =>
              exfalso
              apply hne
              apply hsame last List.mem_cons_self m _ hcompare
              apply List.mem_cons_of_mem last List.mem_cons_self
          | gt =>
              rw [hcompare] at hle
              cases hle
        apply List.pairwise_cons.mpr ⟨?_, hrest⟩
        intro l hl
        obtain rfl | hl := List.mem_cons.mp hl
        · exact hlt
        · apply Std.TransCmp.lt_trans hlt ((List.pairwise_cons.mp hrest).1 l hl)

/-- Locations that have been put in order strictly increase, if those at the same place are
equal. -/
theorem pairwise_ordered
    (hsame : ∀ l ∈ ls, ∀ m ∈ ls, l.comparePlace m = .eq → (l == m) = true) :
  (ordered ls).Pairwise fun l m => l.comparePlace m = .lt
  := by
  have hsorted : (ls.mergeSort le).Pairwise fun l m => (l.comparePlace m).isLE = true :=
    pairwise_mergeSort_isLE comparePlace ls
  have hmem : ∀ l, l ∈ ls.mergeSort le ↔ l ∈ ls := fun l => List.mem_mergeSort
  rw [ordered]
  cases hlist : ls.mergeSort le with
  | nil => apply List.Pairwise.nil
  | cons last rest =>
      rw [hlist] at hsorted
      apply pairwise_dedupAfter hsorted
      simp only [← hlist, hmem]
      exact hsame

end Location

/-- The order of edits by file, line and column. -/
def TextEdit.comparePlace (d e : TextEdit) : Ordering :=
  (compare d.file e.file).then ((compare d.line e.line).then (compare d.startCol e.startCol))

theorem TextEdit.comparePlace_replacing (new : String) (l m : Location) :
  (replacing new l).comparePlace (replacing new m) = l.comparePlace m
  := rfl

/-! ### The edits of a rename -/

namespace IndexState

variable {s : IndexState} {log : IndexLog} {texts : Path → Option Source} {l m : Location}
  {name : String}

/-- A job is edited at its definition, at the parents of the active jobs that have it as their
parent, and in the templates that name it. -/
theorem Represents.renamedAt_iff (hs : s.Represents log) {job : Job}
    (hjob : s.jobs.get? name = some job) :
  s.RenamedAt name l ↔ job.nameLocation? = some l ∨
    (∃ child ∈ s.jobs.active, child.parent? = some name ∧ child.parentLocation? = some l) ∨
    ∃ t ∈ s.templates.all, t.mentions name = true ∧ l ∈ t.locations ∧ l.value = name
  := by
  have hchildren : ∀ child, child ∈ s.jobs.children name
      ↔ child ∈ s.jobs.active ∧ child.parent? = some name := by
    intro child
    rw [hs.jobs.mem_children, hs.jobs.mem_active]
  have hnaming : ∀ t, t ∈ s.templates.naming name
      ↔ t ∈ s.templates.all ∧ t.mentions name = true := by
    intro t
    rw [(hs.templates.naming_perm name).mem_iff, List.mem_filter, hs.templates.all_perm.mem_iff]
  constructor
  · intro hl
    cases hl with
    | definition hjob' hl =>
        obtain rfl := Option.some.inj (hjob.symm.trans hjob')
        exact Or.inl hl
    | child hchild hl =>
        obtain ⟨hactive, hparent⟩ := (hchildren _).mp hchild
        exact Or.inr (Or.inl ⟨_, hactive, hparent, hl⟩)
    | template ht hl hvalue =>
        obtain ⟨hall, hmentions⟩ := (hnaming _).mp ht
        exact Or.inr (Or.inr ⟨_, hall, hmentions, hl, hvalue⟩)
  · rintro (hl | ⟨child, hactive, hparent, hl⟩ | ⟨t, hall, hmentions, hl, hvalue⟩)
    · exact .definition hjob hl
    · exact .child ((hchildren child).mpr ⟨hactive, hparent⟩) hl
    · exact .template ((hnaming t).mpr ⟨hall, hmentions⟩) hl hvalue

/-- Where a job is edited, no two locations stand at the same place. -/
theorem HoldsTexts.eq_of_renamedAt (h : s.HoldsTexts log texts) (hl : s.RenamedAt name l)
    (hm : s.RenamedAt name m) (hplace : l.comparePlace m = .eq) :
  l = m
  := by
  obtain ⟨hfile, hline, hcol⟩ := Location.comparePlace_eq_iff.mp hplace
  obtain ⟨x, hx, hexact⟩ := h.exists_exactIn (hl.hasLocation h.represents)
  obtain ⟨y, hy, hexact'⟩ := h.exists_exactIn (hm.hasLocation h.represents)
  rw [h.congr _ _ hfile, hy] at hx
  obtain rfl := Option.some.inj hx
  apply hexact.eq_of_place hexact' _ hline hcol
  rw [hl.value_eq h.represents, hm.value_eq h.represents]

/-- The edits of a registered job strictly increase. -/
theorem HoldsTexts.pairwise_renameEdits (h : s.HoldsTexts log texts) {job : Job}
    (hjob : s.jobs.get? name = some job) (new : String) :
  (renameEdits s.jobs s.templates name new).Pairwise fun d e => d.comparePlace e = .lt
  := by
  rw [renameEdits, hjob]
  simp only [List.pairwise_map, TextEdit.comparePlace_replacing]
  apply Location.pairwise_ordered
  intro l hl m hm hplace
  obtain rfl := h.eq_of_renamedAt ((h.mem_renamed_iff hjob).mp hl) ((h.mem_renamed_iff hjob).mp hm)
    hplace
  apply Location.beq_iff.mpr ⟨BEq.rfl, rfl⟩

/-- What a rename edits in an index in which files have texts. -/
structure RenamesExactly (s : IndexState) (text? : Path → Option Source) (old new : String) :
    Prop where
  /-- Each edit stands before the next one, by file, line and column. -/
  increasing : (renameEdits s.jobs s.templates old new).Pairwise fun d e => d.comparePlace e = .lt
  /-- It gives the new name to bytes of the text that are the old one. -/
  replaces : ∀ e ∈ renameEdits s.jobs s.templates old new, e.newText = new ∧
    ∃ x, text? e.file = some x ∧
      x.text.toByteArray.extract e.startByte e.endByte = old.toByteArray
  /-- What is no job is not edited. -/
  unregistered : s.jobs.get? old = none → renameEdits s.jobs s.templates old new = []
  /-- A job is edited at the name of its active definition, at the parents of its active children
  and wherever its name stands in a template that names it. -/
  spans : ∀ job, s.jobs.get? old = some job → ∀ e,
    e ∈ renameEdits s.jobs s.templates old new ↔ ∃ l, e = TextEdit.replacing new l ∧
      (job.nameLocation? = some l ∨
        (∃ child ∈ s.jobs.active, child.parent? = some old ∧ child.parentLocation? = some l) ∨
        ∃ t ∈ s.templates.all, t.mentions old = true ∧ l ∈ t.locations ∧ l.value = old)

/-- After any operations, a rename edits what there is to edit, each place once and in order. -/
theorem run_renamesExactly (operations : List Operation) (old new : String) :
  (run operations).RenamesExactly (text? operations) old new
  := by
  obtain ⟨log, h⟩ := exists_holdsTexts operations
  have hnone : (run operations).jobs.get? old = none →
      renameEdits (run operations).jobs (run operations).templates old new = [] := by
    intro hget
    rw [renameEdits, hget]
  constructor
  · cases hjob : (run operations).jobs.get? old with
    | none =>
        rw [hnone hjob]
        apply List.Pairwise.nil
    | some job => apply h.pairwise_renameEdits hjob
  · intro e he
    cases hjob : (run operations).jobs.get? old with
    | none =>
        rw [hnone hjob] at he
        cases he
    | some job =>
        obtain ⟨l, hl, rfl⟩ := (h.mem_renameEdits_iff hjob new e).mp he
        obtain ⟨x, hx, hexact⟩ := h.exists_exactIn (hl.hasLocation h.represents)
        refine ⟨rfl, x, hx, ?_⟩
        rw [← hl.value_eq h.represents]
        exact hexact.bytes_eq
  · exact hnone
  · intro job hjob e
    rw [h.mem_renameEdits_iff hjob]
    simp only [h.represents.renamedAt_iff hjob, and_comm]

-- a definition and a child in one file, and a template in the next one
example :
  let a : Source := ⟨[], ⟨"a.yaml"⟩, "- job:\n    name: unit\n- job:\n    name: é\n    parent: unit\n"⟩
  let b : Source := ⟨[], ⟨"b.yaml"⟩, "- project-template:\n    name: all\n    jobs: [unit]\n"⟩
  let s := run [.replace b, .replace a]
  (renameEdits s.jobs s.templates "unit" "base").map
    (fun e => (e.file.spelling, e.line, e.startCol, e.startByte, e.endByte, e.newText))
    = [("a.yaml", 1, 10, 17, 21, "base"), ("a.yaml", 4, 12, 54, 58, "base"),
      ("b.yaml", 2, 11, 45, 49, "base")]
  := by
  dsimp only
  rw [renameEdits_of_pairwise "base" rfl rfl (by decide +kernel)]
  decide +kernel

end IndexState

end JobIndex
