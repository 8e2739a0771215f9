import JobIndex.Proofs.Glob.Directory
import JobIndex.Proofs.Workspace.Admission
import JobIndex.Proofs.Workspace.FullPass
import JobIndex.Proofs.Workspace.RelativePath

/-!
# The directory of the cache

The files in the directory of the cache are to be kept out of the index by one of its patterns. The
pattern is the path of the directory as the configuration spells it, between `**/` and `/**`, and is
matched against paths from the root. So it keeps out the paths in which the segments of that
spelling stand one after another and others follow them (`Discovery.KeepsOut.accepts_iff`).

If no segment of the spelling leads nowhere, these are all paths in the directory that a search
could find (`Discovery.KeepsOut.search`). Other spellings of the same directory, from the root or
with a `.` or an empty segment, keep out none of these paths (`Discovery.KeepsOut.futile`).
-/

namespace JobIndex

/-! ### Paths in a directory -/

namespace Path

/-- The path leads into a directory: it has the parts of the directory and further ones. -/
def IsInside (p dir : Path) : Prop :=
  ∃ part more, p.parts = dir.parts ++ part :: more

instance (p dir : Path) : Decidable (p.IsInside dir) :=
  decidable_of_iff (dir.parts.isPrefixOf p.parts = true ∧ dir.parts.length < p.parts.length) <| by
    rw [List.isPrefixOf_iff_prefix]
    constructor
    · rintro ⟨⟨rest, hrest⟩, hlength⟩
      cases rest with
      | nil =>
          rw [← hrest, List.append_nil] at hlength
          exact absurd hlength (Nat.lt_irrefl _)
      | cons part more => exact ⟨part, more, hrest.symm⟩
    · rintro ⟨part, more, hparts⟩
      refine ⟨⟨_, hparts.symm⟩, ?_⟩
      rw [hparts, List.length_append, List.length_cons]
      omega

/-- The segments of a directory stand one after another in a path, and others follow them. -/
def PassesThrough (p dir : Path) : Prop :=
  ∃ before after, after ≠ [] ∧ p.segments = before ++ dir.segments ++ after

variable {p dir root : Path}

theorem passesThrough_iff :
  p.PassesThrough dir ↔ ∃ before after, after ≠ [] ∧ p.pieces = before ++ dir.pieces ++ after
  := by
  have hid : String.toList ∘ String.ofList = id := funext fun _ => String.toList_ofList
  constructor
  · rintro ⟨before, after, hafter, h⟩
    refine ⟨before.map String.toList, after.map String.toList, by simpa using hafter, ?_⟩
    have hpieces := congrArg (List.map String.toList) h
    simpa only [segments_eq, List.map_append, List.map_map, hid, List.map_id] using hpieces
  · rintro ⟨before, after, hafter, h⟩
    refine ⟨before.map String.ofList, after.map String.ofList, by simpa using hafter, ?_⟩
    rw [segments_eq, h, List.map_append, List.map_append, segments_eq]

/-- A plain path passes through plain directories only. -/
theorem IsPlain.of_passesThrough (hp : p.IsPlain) (h : p.PassesThrough dir) :
  dir.IsPlain
  := by
  obtain ⟨before, after, -, hpieces⟩ := passesThrough_iff.mp h
  intro s hs
  apply hp
  rw [hpieces]
  exact List.mem_append_left _ (List.mem_append_right _ hs)

/-- What is inside a directory is reached through it, at least on a path without segments that lead
nowhere, or if the directory is a single name. -/
theorem passesThrough_of_isInside (hdir : dir.IsPlain) (h : p.IsInside (root.join dir))
    (hspelled : (root.relative p).IsPlain ∨ dir.segments.length = 1) :
  (root.relative p).PassesThrough dir
  := by
  obtain ⟨part, more, hparts⟩ := h
  obtain ⟨a, as, hdirParts, hroot, hhere, hdirPieces⟩ := hdir.exists_parts
  rw [parts_join root hdir, hdirParts, List.append_assoc, List.cons_append] at hparts
  obtain ⟨s, tail, hpieces, hs, htail⟩ := exists_pieces_relative hparts hroot hhere
  rw [passesThrough_iff, hpieces, hdirPieces, Part.segment_of_ofSegment hs]
  rcases hspelled with hplain | hone
  · -- the other segments are told by their parts too
    have htailPlain : ∀ s' ∈ tail, isIdle s' = false := by
      intro s' hs'
      apply hplain
      rw [hpieces]
      exact List.mem_cons_of_mem _ hs'
    rw [← map_segment_filterMap htailPlain, htail, List.map_append]
    exact ⟨[], _, by simp, rfl⟩
  · have has : as = [] := by
      rw [segments_eq, List.length_map, hdirPieces] at hone
      simpa using hone
    refine ⟨[], tail, ?_, by rw [has]; rfl⟩
    rintro rfl
    rw [has] at htail
    cases htail

end Path

/-! ### Patterns in a list -/

/-- One of the texts can be left out of the patterns. -/
theorem Glob.compileAll_append_cons {texts others : List String} {text : String}
    {globs : List Glob} (h : compileAll (texts ++ text :: others) = .ok globs) :
  ∃ before g after, compile text = .ok g ∧ globs = before ++ g :: after ∧
    compileAll (texts ++ others) = .ok (before ++ after)
  := by
  induction texts generalizing globs with
  | nil =>
      rw [List.nil_append, compileAll] at h
      split at h
      · cases h
      · next g hg =>
        split at h
        · cases h
        · next after hafter =>
          obtain rfl := Except.ok.inj h
          exact ⟨[], g, after, hg, rfl, hafter⟩
  | cons t texts ih =>
      rw [List.cons_append, compileAll] at h
      split at h
      · cases h
      · next g' hg' =>
        split at h
        · cases h
        · next globs' hglobs' =>
          obtain rfl := Except.ok.inj h
          obtain ⟨before, g, after, hg, rfl, hothers⟩ := ih hglobs'
          refine ⟨g' :: before, g, after, hg, rfl, ?_⟩
          simp only [List.cons_append, compileAll, hg', hothers]

namespace Discovery

variable {root : Path} {config : IndexConfig} {d : Discovery}

/-- A pattern asks for a path from the root. -/
def AsksFor (d : Discovery) (p : Path) : Prop :=
  d.includes.any (·.accepts (d.root.relative p).spelling) = true

/-- What belongs to the index besides the files in the directory of the cache, if `others` are the
patterns that exclude further files. -/
structure KeepsOut (d : Discovery) (config : IndexConfig) (others : List Glob) : Prop where
  /-- A path is kept out by its segments. -/
  accepts_iff : ∀ p, d.accepts p = true ↔ d.AsksFor p ∧
    others.any (·.accepts (d.root.relative p).spelling) = false ∧
    ¬ (d.root.relative p).PassesThrough config.cacheDir
  /-- If no segment of the directory leads nowhere, then what is in it is kept out on all paths that
  have no such segments either, and on all others if the directory is a single name. -/
  inside : config.cacheDir.IsPlain → ∀ p, p.IsInside (config.cacheDirIn d.root) →
    (d.root.relative p).IsPlain ∨ config.cacheDir.segments.length = 1 → d.accepts p = false
  /-- Then a search finds nothing in it. -/
  search : config.cacheDir.IsPlain → ∀ t, t.root.WellFormed → ∀ p ∈ d.search t,
    ¬ p.IsInside (config.cacheDirIn d.root)
  /-- Otherwise none of these paths is kept out. -/
  futile : ¬ config.cacheDir.IsPlain → ∀ p, (d.root.relative p).IsPlain →
    (d.accepts p = true ↔ d.AsksFor p ∧
      others.any (·.accepts (d.root.relative p).spelling) = false)

variable {others : List Glob}

/-- What is known of the pattern for the directory of the cache carries over to all paths. -/
theorem keepsOut_of_accepts_iff (h : ∀ p, d.accepts p = true ↔ d.AsksFor p ∧
      others.any (·.accepts (d.root.relative p).spelling) = false ∧
      ¬ (d.root.relative p).PassesThrough config.cacheDir) :
  d.KeepsOut config others
  := by
  have hinside : config.cacheDir.IsPlain → ∀ p, p.IsInside (config.cacheDirIn d.root) →
      (d.root.relative p).IsPlain ∨ config.cacheDir.segments.length = 1 →
      d.accepts p = false := by
    intro hdir p hp hspelled
    rw [← Bool.not_eq_true, h]
    rintro ⟨-, -, hkept⟩
    exact hkept (Path.passesThrough_of_isInside hdir hp hspelled)
  refine ⟨h, hinside, ?_, ?_⟩
  · intro hdir t ht p hp hin
    obtain ⟨hwalk, haccepts, -⟩ := mem_search.mp hp
    obtain ⟨⟨hroot, names, hnames, rfl⟩, -⟩ := of_mem_walk ht hwalk
    have hne : names ≠ [] := by
      rintro rfl
      obtain ⟨part, more, hparts⟩ := hin
      have hlength := congrArg List.length hparts
      rw [IndexConfig.cacheDirIn, Path.parts_join d.root hdir, pathOf, List.foldl_nil,
        List.length_append, List.length_append, List.length_cons] at hlength
      omega
    rw [hinside hdir _ hin (Or.inl (Path.isPlain_relative_pathOf hroot hne hnames))] at haccepts
    cases haccepts
  · intro hdir p hp
    rw [h]
    have hkept : ¬ (d.root.relative p).PassesThrough config.cacheDir := by
      intro hpasses
      exact hdir (hp.of_passesThrough hpasses)
    simp only [hkept, not_false_eq_true, and_true]

/-- Whatever a configuration asks for and excludes, the directory of the cache is kept out as far as
its spelling goes, provided that all characters of the spelling stand for themselves. -/
theorem ofConfig_keepsOut (h : ofConfig root config = .ok d)
    (hliteral : Glob.IsLiteral config.cacheDir.spelling) :
  d.root = root ∧ ∃ others,
    Glob.compileAll (fixedExcludes ++ config.excludePatterns) = .ok others ∧
    d.KeepsOut config others
  := by
  obtain ⟨hroot, -, hexcludes⟩ := of_ofConfig h
  obtain ⟨before, g, after, hg, hglobs, hothers⟩ := Glob.compileAll_append_cons hexcludes
  obtain ⟨g', hg', haccepts⟩ := Glob.compile_directory hliteral
  rw [cacheExclude, hg'] at hg
  obtain rfl := Except.ok.inj hg
  refine ⟨hroot, before ++ after, hothers, keepsOut_of_accepts_iff ?_⟩
  intro p
  have hpasses : (d.root.relative p).PassesThrough config.cacheDir ↔
      g'.accepts (d.root.relative p).spelling = true := by
    rw [haccepts, Path.passesThrough_iff]
    rfl
  rw [hpasses, accepts, AsksFor, hglobs]
  simp only [Bool.and_eq_true, Bool.not_eq_true', List.any_append, List.any_cons,
    Bool.or_eq_false_iff, Bool.not_eq_true]
  tauto

/-- Unless it is configured otherwise, the directory is plain. A path in it is kept out though one
of the patterns asks for it. -/
theorem ofConfig_keepsOut_default :
  let config := IndexConfig.default
  let p : Path := ⟨"ws/.zuul-index//zuul.d/./a.yaml"⟩
  ∃ d others, ofConfig ⟨"ws"⟩ config = .ok d ∧ Glob.IsLiteral config.cacheDir.spelling ∧
    config.cacheDir.IsPlain ∧ d.KeepsOut config others ∧
    p.IsInside (config.cacheDirIn d.root) ∧ d.AsksFor p ∧ d.accepts p = false
  := by
  intro config p
  have hliteral : Glob.IsLiteral config.cacheDir.spelling := by decide +kernel
  have hplain : config.cacheDir.IsPlain := by decide +kernel
  have hin : p.IsInside (config.cacheDirIn ⟨"ws"⟩) := by decide +kernel
  have hname : config.cacheDir.segments.length = 1 := by decide +kernel
  have hasked : ((ofConfig ⟨"ws"⟩ config).toOption.any fun d =>
      d.includes.any (·.accepts (d.root.relative p).spelling)) = true := by
    decide +kernel
  obtain ⟨d, hd, hasked⟩ := exists_ok_of_any hasked
  obtain ⟨hroot, others, -, hkeepsOut⟩ := ofConfig_keepsOut hd hliteral
  rw [← hroot] at hin
  exact ⟨d, others, hd, hliteral, hplain, hkeepsOut, hin, hasked,
    hkeepsOut.inside hplain p hin (Or.inr hname)⟩

/-- A path in the directory is accepted if the directory is spelled with a `.`, with a slash at its
end, from the root, or with brackets, and if the path is spelled with two slashes. -/
theorem ofConfig_accepts_spelled :
  let spellings : List (String × String × String) :=
    [("ws", "./.zuul-index", "ws/./.zuul-index/zuul.d/x.yaml"),
      ("ws", "cache/", "ws/cache/zuul.d/x.yaml"),
      ("/ws", "/ws/.cache", "/ws/.cache/zuul.d/x.yaml"),
      ("ws", "a[b]", "ws/a[b]/zuul.d/x.yaml"),
      ("ws", "a/b", "ws/a//b/zuul.d/x.yaml")]
  ∀ x ∈ spellings,
    let root : Path := ⟨x.1⟩
    let config := { IndexConfig.default with cacheDir := ⟨x.2.1⟩ }
    let p : Path := ⟨x.2.2⟩
    ∃ d, ofConfig root config = .ok d ∧ p.IsInside (config.cacheDirIn root) ∧ p.IsInside root ∧
      d.accepts p = true
  := by
  intro spellings
  have hinside : ∀ x ∈ spellings,
      Path.IsInside ⟨x.2.2⟩ (Path.join ⟨x.1⟩ ⟨x.2.1⟩) ∧ Path.IsInside ⟨x.2.2⟩ ⟨x.1⟩ := by
    decide +kernel
  have haccepts : spellings.all (fun x =>
      (ofConfig ⟨x.1⟩ { IndexConfig.default with cacheDir := ⟨x.2.1⟩ }).toOption.any
        (·.accepts ⟨x.2.2⟩)) = true := by
    decide +kernel
  intro x hx root config p
  obtain ⟨d, hd, haccepted⟩ := exists_ok_of_any (List.all_eq_true.mp haccepts x hx)
  exact ⟨d, hd, (hinside x hx).1, (hinside x hx).2, haccepted⟩

end Discovery

end JobIndex
