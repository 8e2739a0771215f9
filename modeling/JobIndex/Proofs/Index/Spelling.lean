import JobIndex.Index.State
import JobIndex.Proofs.Record.Spelling
import JobIndex.Proofs.Table

/-!
# The index and the spelling of paths

Two indexes have the same view when their tables hold, entry by entry, records that have one view
under paths with the same parts. All that an index does with paths is to compare them, so whatever
is done to both, replacing and removing the records of files, they keep the same view.
-/

namespace JobIndex

/-! ### Tables with other keys -/

namespace Table

variable {κ κ' ν ν' α α' : Type} [BEq κ] [BEq κ'] {f : κ → κ'}

/-- The table with other keys and values. -/
def mapWith (f : κ → κ') (g : ν → ν') (t : Table κ ν) : Table κ' ν' :=
  t.map (Prod.map f g)

-- keys are as equal as what they are taken to
variable (hf : ∀ a b, (f a == f b) = (a == b))
include hf

theorem get?_mapWith (g : ν → ν') (t : Table κ ν) (k : κ) :
  (t.mapWith f g).get? (f k) = (t.get? k).map g
  := by
  induction t with
  | nil => rfl
  | cons e t ih =>
      rw [mapWith] at ih
      rw [mapWith, List.map_cons, get?_cons, get?_cons, Prod.map_fst, hf, ih]
      split <;> rfl

theorem mapWith_put (g : ν → ν') (t : Table κ ν) (k : κ) (v : ν) :
  (t.put k v).mapWith f g = (t.mapWith f g).put (f k) (g v)
  := by
  induction t with
  | nil => rfl
  | cons e t ih =>
      rw [mapWith, mapWith] at ih
      rw [mapWith, mapWith, put, List.map_cons, put, Prod.map_fst, hf]
      split
      · rfl
      · rw [List.map_cons, ih]

theorem mapWith_erase (g : ν → ν') (t : Table κ ν) (k : κ) :
  (t.erase k).mapWith f g = (t.mapWith f g).erase (f k)
  := by
  rw [mapWith, mapWith, erase, erase, List.filter_map]
  congr 1
  apply List.filter_congr
  intro e _
  rw [Function.comp_apply, Prod.map_fst, hf]

theorem list_mapWith (g : α → α') (t : Table κ (List α)) (k : κ) :
  (t.mapWith f (List.map g)).list (f k) = (t.list k).map g
  := by
  rw [list, list, get?_mapWith hf]
  cases t.get? k <;> rfl

theorem mapWith_sift (g : α → α') (keep : α' → Bool) (t : Table κ (List α)) (k : κ) :
  (t.sift (fun a => keep (g a)) k).mapWith f (List.map g)
    = (t.mapWith f (List.map g)).sift keep (f k)
  := by
  have hfilter : ∀ as : List α,
      (as.map g).filter keep = (as.filter fun a => keep (g a)).map g := fun as => List.filter_map
  rw [sift, sift, get?_mapWith hf]
  cases t.get? k with
  | none => rfl
  | some as =>
      simp only [Option.map_some, hfilter]
      cases as.filter fun a => keep (g a) with
      | nil => apply mapWith_erase hf
      | cons a as => apply mapWith_put hf

theorem mapWith_foldl_sift (g : α → α') (keep : α' → Bool) (ks : List κ) (t : Table κ (List α)) :
  (ks.foldl (sift fun a => keep (g a)) t).mapWith f (List.map g)
    = (ks.map f).foldl (sift keep) (t.mapWith f (List.map g))
  := by
  induction ks generalizing t with
  | nil => rfl
  | cons k ks ih => rw [List.foldl_cons, List.map_cons, List.foldl_cons, ih, mapWith_sift hf]

omit hf [BEq κ'] in
theorem id_beq_id (a b : κ) :
  (id a == id b) = (a == b)
  := rfl

end Table

theorem Path.parts_beq_parts (p q : Path) :
  (p.parts == q.parts) = (p == q)
  := rfl

/-! ### Jobs -/

theorem Job.name?_congr {job job' : Job} (h : job.view = job'.view) :
  job.name? = job'.name?
  := by
  simp only [view, Prod.mk.injEq] at h
  rw [name?, name?, h.2.1]

namespace JobRegistry

variable {r r' : JobRegistry}

/-- Two registries hold the same jobs, up to the spelling of paths. -/
structure SameView (r r' : JobRegistry) : Prop where
  byName : r.byName.mapWith id (List.map Job.view) = r'.byName.mapWith id (List.map Job.view)
  byFile : r.byFile.mapWith Path.parts id = r'.byFile.mapWith Path.parts id

theorem SameView.view_definitions (h : r.SameView r') (name : String) :
  (r.definitions name).map Job.view = (r'.definitions name).map Job.view
  := by
  rw [definitions, definitions, ← Table.list_mapWith Table.id_beq_id,
    ← Table.list_mapWith Table.id_beq_id, h.byName]

theorem SameView.get?_byFile (h : r.SameView r') {p q : Path} (hpq : p.parts = q.parts) :
  r.byFile.get? p = r'.byFile.get? q
  := by
  have hget := Table.get?_mapWith Path.parts_beq_parts id r.byFile p
  have hget' := Table.get?_mapWith Path.parts_beq_parts id r'.byFile q
  rw [Option.map_id, id] at hget hget'
  rw [← hget, ← hget', h.byFile, hpq]

theorem SameView.add (h : r.SameView r') {job job' : Job} (hjob : job.view = job'.view) :
  (r.add job).1.SameView (r'.add job').1
  := by
  have hfile : job.file.parts = job'.file.parts := congrArg Prod.fst hjob
  rw [JobRegistry.add, JobRegistry.add, Job.name?_congr hjob]
  cases job'.name? with
  | none => exact h
  | some name =>
      constructor
      · rw [Table.mapWith_put Table.id_beq_id, Table.mapWith_put Table.id_beq_id, h.byName,
          List.map_append, List.map_append, h.view_definitions, List.map_singleton,
          List.map_singleton, hjob]
      · rw [Table.mapWith_put Path.parts_beq_parts, Table.mapWith_put Path.parts_beq_parts,
          h.byFile, hfile, Table.list, Table.list, h.get?_byFile hfile]

theorem SameView.addAll (h : r.SameView r') {jobs jobs' : List Job}
    (hjobs : jobs.map Job.view = jobs'.map Job.view) :
  (r.addAll jobs).1.SameView (r'.addAll jobs').1
  := by
  induction jobs generalizing r r' jobs' with
  | nil =>
      rw [List.map_eq_nil_iff.mp hjobs.symm]
      exact h
  | cons job jobs ih =>
      obtain ⟨job', jobs', rfl, hjob, hrest⟩ := List.map_eq_cons_iff.mp hjobs.symm
      apply ih (h.add hjob.symm) hrest.symm

theorem SameView.removeFile (h : r.SameView r') (file : Path) :
  (r.removeFile file).1.SameView (r'.removeFile file).1
  := by
  rw [JobRegistry.removeFile, JobRegistry.removeFile, h.get?_byFile rfl]
  cases r'.byFile.get? file with
  | none => exact h
  | some names =>
      constructor
      · have hfold := Table.mapWith_foldl_sift Table.id_beq_id Job.view
          (fun v => !(v.1 == file.parts)) names
        apply (hfold r.byName).trans
        rw [h.byName]
        apply (hfold r'.byName).symm
      · rw [Table.mapWith_erase Path.parts_beq_parts, Table.mapWith_erase Path.parts_beq_parts,
          h.byFile]

end JobRegistry

/-! ### Templates -/

/-- Where a path is inserted depends on parts only. -/
theorem parts_insertPath {p q : Path} (hpq : p.parts = q.parts) {ps qs : List Path}
    (h : ps.map Path.parts = qs.map Path.parts) :
  (insertPath p ps).map Path.parts = (insertPath q qs).map Path.parts
  := by
  induction ps generalizing qs with
  | nil =>
      rw [List.map_eq_nil_iff.mp h.symm]
      simp only [insertPath, List.map_cons, hpq]
  | cons a ps ih =>
      obtain ⟨b, qs, rfl, hb, hqs⟩ := List.map_eq_cons_iff.mp h.symm
      have hcompare : compare p a = compare q b := by
        show compare p.key a.key = compare q.key b.key
        rw [Path.key, Path.key, Path.key, Path.key, hpq, hb]
      rw [insertPath, insertPath, hcompare]
      split
      · simp only [List.map_cons, hpq, hb, hqs]
      · exact h
      · rw [List.map_cons, List.map_cons, hb, ih hqs.symm]

namespace TemplateRegistry

variable {r r' : TemplateRegistry}

/-- Two registries hold the same templates, up to the spelling of paths. -/
structure SameView (r r' : TemplateRegistry) : Prop where
  byFile : r.byFile.mapWith Path.parts (List.map Template.view)
    = r'.byFile.mapWith Path.parts (List.map Template.view)
  referencedBy : r.referencedBy.mapWith id (List.map Path.parts)
    = r'.referencedBy.mapWith id (List.map Path.parts)

/-- Noting a file for a job keeps tables of files alike. -/
theorem mapWith_addReference {table table' : Table String (List Path)}
    (h : table.mapWith id (List.map Path.parts) = table'.mapWith id (List.map Path.parts))
    {p q : Path} (hpq : p.parts = q.parts) (job : String) :
  (addReference p table job).mapWith id (List.map Path.parts)
    = (addReference q table' job).mapWith id (List.map Path.parts)
  := by
  have hlist : (table.list job).map Path.parts = (table'.list job).map Path.parts := by
    rw [← Table.list_mapWith Table.id_beq_id, ← Table.list_mapWith Table.id_beq_id, h]
  rw [addReference, addReference, Table.mapWith_put Table.id_beq_id,
    Table.mapWith_put Table.id_beq_id, h, parts_insertPath hpq hlist]

theorem mapWith_foldl_addReference {table table' : Table String (List Path)}
    (h : table.mapWith id (List.map Path.parts) = table'.mapWith id (List.map Path.parts))
    {p q : Path} (hpq : p.parts = q.parts) (jobs : List String) :
  (jobs.foldl (addReference p) table).mapWith id (List.map Path.parts)
    = (jobs.foldl (addReference q) table').mapWith id (List.map Path.parts)
  := by
  induction jobs generalizing table table' with
  | nil => exact h
  | cons job jobs ih => apply ih (mapWith_addReference h hpq job)

theorem SameView.view_inFile (h : r.SameView r') {p q : Path} (hpq : p.parts = q.parts) :
  (r.inFile p).map Template.view = (r'.inFile q).map Template.view
  := by
  rw [inFile, inFile, ← Table.list_mapWith Path.parts_beq_parts,
    ← Table.list_mapWith Path.parts_beq_parts, h.byFile, hpq]

theorem SameView.add (h : r.SameView r') {t t' : Template} (ht : t.view = t'.view) :
  (r.add t).SameView (r'.add t')
  := by
  have hview := ht
  simp only [Template.view, Prod.mk.injEq] at hview
  obtain ⟨hfile, -, hreferences, -⟩ := hview
  constructor
  · rw [TemplateRegistry.add, TemplateRegistry.add, Table.mapWith_put Path.parts_beq_parts,
      Table.mapWith_put Path.parts_beq_parts, h.byFile, hfile, List.map_append, List.map_append,
      h.view_inFile hfile, List.map_singleton, List.map_singleton, ht]
  · rw [TemplateRegistry.add, TemplateRegistry.add, hreferences]
    apply mapWith_foldl_addReference h.referencedBy hfile

theorem SameView.addAll (h : r.SameView r') {ts ts' : List Template}
    (hts : ts.map Template.view = ts'.map Template.view) :
  (r.addAll ts).SameView (r'.addAll ts')
  := by
  induction ts generalizing r r' ts' with
  | nil =>
      rw [List.map_eq_nil_iff.mp hts.symm]
      exact h
  | cons t ts ih =>
      obtain ⟨t', ts', rfl, ht, hrest⟩ := List.map_eq_cons_iff.mp hts.symm
      apply ih (h.add ht.symm) hrest.symm

/-- Templates with one view name the same jobs. -/
theorem references_congr {ts ts' : List Template}
    (h : ts.map Template.view = ts'.map Template.view) :
  ts.flatMap Template.references = ts'.flatMap Template.references
  := by
  have hview : ∀ ts : List Template,
      (ts.map Template.view).flatMap (fun v => v.2.2.1) = ts.flatMap Template.references := by
    intro ts
    rw [List.flatMap_map]
    rfl
  rw [← hview ts, h, hview]

theorem SameView.removeFile (h : r.SameView r') (file : Path) :
  (r.removeFile file).1.SameView (r'.removeFile file).1
  := by
  have hget := Table.get?_mapWith Path.parts_beq_parts (List.map Template.view) r.byFile file
  rw [h.byFile, Table.get?_mapWith Path.parts_beq_parts] at hget
  rw [TemplateRegistry.removeFile, TemplateRegistry.removeFile]
  cases hts : r.byFile.get? file with
  | none =>
      rw [hts, Option.map_none, Option.map_eq_none_iff] at hget
      rw [hget]
      exact h
  | some ts =>
      rw [hts, Option.map_some, Option.map_eq_some_iff] at hget
      obtain ⟨ts', hts', hview⟩ := hget
      rw [hts']
      constructor
      · rw [Table.mapWith_erase Path.parts_beq_parts, Table.mapWith_erase Path.parts_beq_parts,
          h.byFile]
      · have hfold := Table.mapWith_foldl_sift Table.id_beq_id Path.parts
          (fun parts => !(parts == file.parts)) (ts'.flatMap Template.references)
        dsimp only
        rw [← references_congr hview]
        apply (hfold r.referencedBy).trans
        rw [h.referencedBy]
        apply (hfold r'.referencedBy).symm

end TemplateRegistry

/-! ### The state of the index -/

namespace IndexState

variable {s s' : IndexState}

/-- Two indexes hold the same records, up to the spelling of paths, and have the same files. -/
structure SameView (s s' : IndexState) : Prop where
  jobs : s.jobs.SameView s'.jobs
  templates : s.templates.SameView s'.templates
  files : s.files = s'.files

theorem sameView_refl (s : IndexState) :
  s.SameView s
  := ⟨⟨rfl, rfl⟩, ⟨rfl, rfl⟩, rfl⟩

theorem SameView.clearFile (h : s.SameView s') (file : Path) :
  (s.clearFile file).1.SameView (s'.clearFile file).1
  := by
  refine ⟨h.jobs.removeFile file, h.templates.removeFile file, ?_⟩
  show s.files.erase file = s'.files.erase file
  rw [h.files]

theorem SameView.replaceFile (h : s.SameView s') (file : Path) {d d' : Document}
    (hd : d.SameView d') :
  (s.replaceFile file d).1.SameView (s'.replaceFile file d').1
  := by
  refine ⟨(h.jobs.removeFile file).addAll hd.jobs,
    (h.templates.removeFile file).addAll hd.templates, ?_⟩
  show s.files.put file .indexed = s'.files.put file .indexed
  rw [h.files]

theorem SameView.beginReindex (h : s.SameView s') (file : Path) :
  (s.beginReindex file).SameView (s'.beginReindex file)
  := by
  rw [IndexState.beginReindex, IndexState.beginReindex, isTracked, isTracked, h.files]
  split
  · exact ⟨h.jobs, h.templates, rfl⟩
  · exact h

theorem SameView.markIndexed (h : s.SameView s') :
  s.markIndexed.SameView s'.markIndexed
  := ⟨h.jobs, h.templates, h.files⟩

end IndexState

end JobIndex
