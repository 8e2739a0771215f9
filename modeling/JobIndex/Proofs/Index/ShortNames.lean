import JobIndex.Proofs.Index.Resolution
import JobIndex.Proofs.Text.ByteOrder
import Mathlib.Data.List.TakeWhile

/-!
# Looking up a value by its last key

The values of a job are looked up by their paths, or else by the last keys of these
(`Resolution.get?`). Of several values with a last key the one that comes from the closest job
counts, and of those the one whose path comes first. The closeness is read off the depth that a
value carries; since later values replace earlier ones together with their depths, this is the
place of the job that the value comes from (`JobRegistry.FromNearest.givenAt_iff`). The result is
`JobRegistry.resolve_looksUp`.
-/

namespace JobIndex

/-! ### Last keys -/

/-- A key is the last one of a path: it has no dot, and is all of the path or stands behind a
dot. -/
def IsLastKey (key path : String) : Prop :=
  '.' ∉ key.toList ∧ (path = key ∨ ∃ front, path = front ++ "." ++ key)

theorem toList_lastKey (path : String) :
  (lastKey path).toList = (path.toList.reverse.takeWhile (· != '.')).reverse
  := by
  rw [lastKey, String.toList_ofList]

theorem isLastKey_lastKey (path : String) :
  IsLastKey (lastKey path) path
  := by
  have hsplit := List.takeWhile_append_dropWhile (p := (· != '.')) (l := path.toList.reverse)
  constructor
  · rw [toList_lastKey, List.mem_reverse]
    intro hdot
    simpa using List.mem_takeWhile_imp hdot
  · cases hrest : path.toList.reverse.dropWhile (· != '.') with
    | nil =>
        left
        apply String.toList_injective
        rw [hrest, List.append_nil] at hsplit
        rw [toList_lastKey, hsplit, List.reverse_reverse]
    | cons c rest =>
        right
        have hc := List.head?_dropWhile_not (· != '.') path.toList.reverse
        rw [hrest] at hc
        have hlist := congrArg List.reverse hsplit
        rw [hrest, List.reverse_append, List.reverse_reverse, ← toList_lastKey,
          List.reverse_cons] at hlist
        use String.ofList rest.reverse
        apply String.toList_injective
        rw [← hlist, String.toList_append, String.toList_append, String.toList_ofList,
          bne_eq_false_iff_eq.mp hc]
        rfl

theorem IsLastKey.lastKey_eq {key path : String} (h : IsLastKey key path) :
  lastKey path = key
  := by
  obtain ⟨hdot, hpath⟩ := h
  have hkey : ∀ c ∈ key.toList.reverse, (c != '.') = true := by
    intro c hc
    rw [bne_iff_ne]
    rintro rfl
    exact hdot (List.mem_reverse.mp hc)
  apply String.toList_injective
  rw [toList_lastKey]
  rcases hpath with rfl | ⟨front, rfl⟩
  · rw [List.takeWhile_eq_self_iff.mpr hkey, List.reverse_reverse]
  · rw [String.toList_append, List.reverse_append, List.takeWhile_append_of_pos hkey,
      String.toList_append, List.reverse_append]
    simp

theorem lastKey_eq_iff {key path : String} :
  lastKey path = key ↔ IsLastKey key path
  := by
  constructor
  · rintro rfl
    apply isLastKey_lastKey
  · apply IsLastKey.lastKey_eq

/-! ### The closest of several values -/

/-- The closest of some values, the first of which has been looked at: none before it is as close,
and none behind it is closer. -/
theorem exists_foldl_closer (best : ResolvedAttribute) (as : List ResolvedAttribute) :
  ∃ front a back, best :: as = front ++ a :: back ∧ as.foldl closer (some best) = some a ∧
    (∀ b ∈ front, b.depth < a.depth) ∧ ∀ b ∈ back, b.depth ≤ a.depth
  := by
  induction as generalizing best with
  | nil => exact ⟨[], best, [], rfl, rfl, by simp, by simp⟩
  | cons next as ih =>
      rw [List.foldl_cons, closer]
      split
      · next hkept =>
        obtain ⟨front, a, back, heq, hfold, hfront, hback⟩ := ih best
        cases front with
        | nil =>
            obtain ⟨rfl, rfl⟩ := List.cons.inj heq
            refine ⟨[], best, next :: as, rfl, hfold, hfront, ?_⟩
            exact List.forall_mem_cons.mpr ⟨hkept, hback⟩
        | cons first front =>
            obtain ⟨rfl, hrest⟩ := List.cons.inj heq
            have hbest := hfront best List.mem_cons_self
            refine ⟨best :: next :: front, a, back, ?_, hfold, ?_, hback⟩
            · exact congrArg (best :: next :: ·) hrest
            · rw [List.forall_mem_cons, List.forall_mem_cons]
              refine ⟨hbest, by omega, fun b hb => ?_⟩
              apply hfront b (List.mem_cons_of_mem best hb)
      · next hreplaced =>
        obtain ⟨front, a, back, heq, hfold, hfront, hback⟩ := ih next
        have hbest : best.depth < a.depth := by
          cases front with
          | nil =>
              obtain ⟨rfl, -⟩ := List.cons.inj heq
              omega
          | cons first front =>
              obtain ⟨rfl, -⟩ := List.cons.inj heq
              have hnext := hfront next List.mem_cons_self
              omega
        refine ⟨best :: front, a, back, congrArg (best :: ·) heq, hfold, ?_, hback⟩
        rw [List.forall_mem_cons]
        exact ⟨hbest, hfront⟩

namespace Resolution

/-- A look-up by a last key finds a value whenever there is one. It is the closest, and the first of
those that are as close. -/
theorem get?_of_path_ne {r : Resolution} (hordered : Ordered r.entries) {key : String}
    (hpath : ∀ a ∈ r.entries, a.path ≠ key) :
  (r.get? key = none ∧ ∀ a ∈ r.entries, a.shortName ≠ key) ∨
    ∃ a ∈ r.entries, r.get? key = some a ∧ a.shortName = key ∧
      ∀ b ∈ r.entries, b.shortName = key →
        b = a ∨ b.depth < a.depth ∨ b.depth = a.depth ∧ a.path < b.path
  := by
  have hnone : r.entries.find? (·.path == key) = none := by
    simpa [List.find?_eq_none] using hpath
  rw [get?, hnone]
  cases hfound : r.entries.filter (·.shortName == key) with
  | nil =>
      left
      rw [List.filter_eq_nil_iff] at hfound
      refine ⟨rfl, fun a ha => ?_⟩
      simpa using hfound a ha
  | cons first rest =>
      right
      obtain ⟨front, a, back, heq, hfold, hfront, hback⟩ := exists_foldl_closer first rest
      rw [heq] at hfound
      have hmem : ∀ b, b ∈ front ++ a :: back ↔ b ∈ r.entries ∧ b.shortName = key := by
        intro b
        rw [← hfound, List.mem_filter, beq_iff_eq]
      obtain ⟨ha, hshort⟩ := (hmem a).mp (by simp)
      refine ⟨a, ha, hfold, hshort, fun b hb hbshort => ?_⟩
      have hsorted : (front ++ a :: back).Pairwise fun a b => compare a.path b.path = .lt := by
        rw [← hfound]
        apply hordered.filter
      rcases List.mem_append.mp ((hmem b).mpr ⟨hb, hbshort⟩) with hb | hb
      · exact Or.inr (Or.inl (hfront b hb))
      · rcases List.mem_cons.mp hb with rfl | hb
        · exact Or.inl rfl
        · right
          have hlt := (List.pairwise_cons.mp (List.pairwise_append.mp hsorted).2.1).1 b hb
          rcases Nat.lt_or_eq_of_le (hback b hb) with hdepth | hdepth
          · exact Or.inl hdepth
          · exact Or.inr ⟨hdepth, compare_lt_iff_lt.mp hlt⟩

end Resolution

/-! ### Where values come from -/

namespace JobRegistry

/-- A value comes from the job that is `n` steps away from the first one of a chain: that job has
its path, and none before it has. -/
def GivenAt (chain : List Job) (a : ResolvedAttribute) (n : Nat) : Prop :=
  ∃ job, chain[n]? = some job ∧ job.name? = some a.provenance ∧ job.HasPath a.path ∧
    ∀ other ∈ chain.take n, ¬ other.HasPath a.path

/-- The job that a value comes from is told by the depth of the value. -/
theorem FromNearest.givenAt_iff {chain : List Job} {a : ResolvedAttribute}
    (h : FromNearest chain a) (n : Nat) :
  GivenAt chain a n ↔ n + a.depth + 1 = chain.length
  := by
  obtain ⟨closer, job, farther, leaf, rfl, hcloser, hlast, -, -, hname, hdepth⟩ := h
  have hlength : (closer ++ job :: farther).length = closer.length + a.depth + 1 := by
    rw [List.length_append, List.length_cons, hdepth]
    omega
  have hgiven : GivenAt (closer ++ job :: farther) a closer.length := by
    refine ⟨job, by simp, hname, hlast.hasPath, ?_⟩
    rw [List.take_left]
    exact hcloser
  constructor
  · rintro ⟨other, hother, -, hpath, hbefore⟩
    have hn : n = closer.length := by
      rcases Nat.lt_trichotomy n closer.length with hlt | heq | hgt
      · rw [List.getElem?_append_left hlt] at hother
        exact absurd hpath (hcloser other (List.mem_of_getElem? hother))
      · exact heq
      · have hjob : job ∈ (closer ++ job :: farther).take n := by
          apply List.mem_of_getElem? (i := closer.length)
          rw [List.getElem?_take_of_lt hgt, List.getElem?_append_right (Nat.le_refl _),
            Nat.sub_self]
          rfl
        exact absurd hlast.hasPath (hbefore job hjob)
    omega
  · intro hn
    obtain rfl : n = closer.length := by omega
    exact hgiven

end JobRegistry

/-- What a look-up of a key answers among values that come from a chain of jobs. -/
structure Resolution.LooksUp (r : Resolution) (chain : List Job) (key : String) : Prop where
  /-- Each value comes from one job of the chain. -/
  givenAt : ∀ a ∈ r.entries, ∃! n, JobRegistry.GivenAt chain a n
  /-- A value with the key as its path is the answer. -/
  path : ∀ a ∈ r.entries, a.path = key → r.get? key = some a
  /-- Without such a value there is no answer exactly if the key is the last one of no path, -/
  none_iff : (∀ a ∈ r.entries, a.path ≠ key) →
    (r.get? key = none ↔ ∀ a ∈ r.entries, ¬ IsLastKey key a.path)
  /-- and the answer is the value with this last key from the closest job, the first in the order
  of the bytes of their paths if there are several. -/
  closest : (∀ a ∈ r.entries, a.path ≠ key) → ∀ a, r.get? key = some a →
    a ∈ r.entries ∧ IsLastKey key a.path ∧
      ∀ b ∈ r.entries, IsLastKey key b.path → ∀ m n, JobRegistry.GivenAt chain a m →
        JobRegistry.GivenAt chain b n →
        b = a ∨ m < n ∨ m = n ∧ Text.encode a.path < Text.encode b.path

namespace JobRegistry

theorem MergedFrom.looksUp {r : Resolution} {chain : List Job} (h : MergedFrom chain r.entries)
    (key : String) :
  r.LooksUp chain key
  := by
  constructor
  · intro a ha
    obtain ⟨closer, job, farther, leaf, hchain, -, -, -, -, -, hdepth⟩ := h.nearest a ha
    have hlength : closer.length + a.depth + 1 = chain.length := by
      rw [hchain, List.length_append, List.length_cons, hdepth]
      omega
    refine ⟨closer.length, ((h.nearest a ha).givenAt_iff _).mpr hlength, fun n hn => ?_⟩
    have hn := ((h.nearest a ha).givenAt_iff n).mp hn
    omega
  · rintro a ha rfl
    rw [Resolution.get?, h.ordered.mem_iff_find?.mp ha]
  · intro hpath
    rcases Resolution.get?_of_path_ne h.ordered hpath with ⟨hget, hno⟩ | ⟨a, ha, hget, hshort, -⟩
    · simp only [hget, true_iff]
      intro a ha hlast
      apply hno a ha (lastKey_eq_iff.mpr hlast)
    · simp only [hget, reduceCtorEq, false_iff]
      intro hno
      apply hno a ha (lastKey_eq_iff.mp hshort)
  · intro hpath a hget
    rcases Resolution.get?_of_path_ne h.ordered hpath with ⟨hnone, -⟩ | ⟨c, hc, hsome, hshort, hall⟩
    · rw [hnone] at hget
      cases hget
    · obtain rfl : c = a := Option.some.inj (hsome.symm.trans hget)
      refine ⟨hc, lastKey_eq_iff.mp hshort, fun b hb hlast m n hm hn => ?_⟩
      have hm := ((h.nearest c hc).givenAt_iff m).mp hm
      have hn := ((h.nearest b hb).givenAt_iff n).mp hn
      rcases hall b hb (lastKey_eq_iff.mpr hlast) with rfl | hfarther | ⟨hequal, hlt⟩
      · exact Or.inl rfl
      · right
        left
        omega
      · right
        right
        exact ⟨by omega, Text.encode_lt_encode hlt⟩

/-- After any sequence of operations, the attributes of a job with a name, stored or not, are found.
Looked up by a key, they answer with the value at that path, or else with the value that has the key
as its last one, from the ancestor closest to the job. -/
theorem resolve_looksUp (operations : List Operation) {job : Job} {name : String}
    (hname : job.name? = some name) :
  ∃ a resolution reported,
    (run operations).ancestors job = .ok (a, reported) ∧
    (run operations).resolve job = .ok (resolution, reported) ∧
    ∀ key, resolution.LooksUp a.jobs key
  := by
  obtain ⟨a, entries, reported, hancestors, hresolve, -, hentries⟩ :=
    (run_represents operations).exists_resolve hname
  exact ⟨a, _, reported, hancestors, hresolve, fun key => MergedFrom.looksUp hentries key⟩

/-- The key `debug` is the last one of a path of the parent, and of two paths of the job itself. The
parent's path comes first in the order of the bytes, but the answer is the job's own value with the
first of its two paths. -/
theorem resolve_looksUp_ties :
  let base : Job := ⟨⟨"a.yaml"⟩, [("name", .scalar "base"),
    ("env", .group [("debug", .scalar "no")])], []⟩
  let unit : Job := ⟨⟨"b.yaml"⟩, [("name", .scalar "unit"), ("parent", .scalar "base"),
    ("vars", .group [("debug", .scalar "yes")]), ("tags", .group [("debug", .scalar "on")])], []⟩
  unit.name? = some "unit" ∧ ∃ a resolution reported,
    (run [.add unit, .add base]).ancestors unit = .ok (a, reported) ∧
    (run [.add unit, .add base]).resolve unit = .ok (resolution, reported) ∧
    (∀ key, resolution.LooksUp a.jobs key) ∧
    resolution.entries.map (fun e => (e.path, e.provenance))
      = [("env.debug", "base"), ("name", "unit"), ("parent", "unit"), ("tags.debug", "unit"),
        ("vars.debug", "unit")] ∧
    (resolution.get? "debug").map (fun e => (e.path, e.value, e.provenance))
      = some ("tags.debug", "on", "unit") ∧
    resolution.get? "timeout" = none
  := by
  intro base unit
  have hname : unit.name? = some "unit" := by decide
  have hcomputed : ((run [.add unit, .add base]).resolve unit).toOption.map
      (fun answer => (answer.1.entries.map fun e => (e.path, e.provenance),
        (answer.1.get? "debug").map fun e => (e.path, e.value, e.provenance),
        (answer.1.get? "timeout").isNone))
      = some ([("env.debug", "base"), ("name", "unit"), ("parent", "unit"),
        ("tags.debug", "unit"), ("vars.debug", "unit")], some ("tags.debug", "on", "unit"),
        true) := by
    decide +kernel
  obtain ⟨a, resolution, reported, hancestors, hresolve, hlooksUp⟩ :=
    resolve_looksUp [.add unit, .add base] hname
  rw [hresolve] at hcomputed
  obtain ⟨hentries, hrest⟩ := Prod.mk.inj (Option.some.inj hcomputed)
  obtain ⟨hdebug, htimeout⟩ := Prod.mk.inj hrest
  use hname, a, resolution, reported, hancestors, hresolve, hlooksUp, hentries, hdebug
  apply Option.isNone_iff_eq_none.mp htimeout

end JobRegistry

end JobIndex
