import JobIndex.Proofs.Record.Scopes
import Mathlib.Data.List.Chain

/-!
# Where a name is found

The name of a job and the name of its parent are looked up among the locations of the job: a
location with the text of the key, followed by one with the text of the value on the same line.
These texts say neither in which mapping they stand nor which of them is a key, so that the place
that is found need not be that of the name. `Source.keyLocations_eq` says which place it is:

* an earlier one where the same text stands behind the same key on one line, if there is one;
* otherwise that of the name itself;
* if the name is its own key, where that text stands first: key and value are then neighbours of the
  same occurrence, and only the key is kept (`afterKey?_self`).

`Source.nameLocation?_elsewhere` has a text for the first and one for the last case.
-/

namespace JobIndex

open Yaml (Closing Visit Node Site Anchors Root Writes Entry)

/-! ### A key and its value among locations -/

namespace Location

theorem sameOccurrence_iff {l m : Location} :
  l.sameOccurrence m = true
    ↔ l.value = m.value ∧ l.line = m.line ∧ l.indentation = m.indentation
  := by
  simp [sameOccurrence, and_assoc]

theorem exists_collapseAfter_append (ls : List Location) (previous l : Location) :
  ∃ kept last, last.sameOccurrence l = true ∧ ∀ rest,
    previous :: collapseAfter previous (ls ++ l :: rest) = kept ++ last :: collapseAfter last rest
  := by
  induction ls generalizing previous with
  | nil =>
      cases hsame : previous.sameOccurrence l with
      | true =>
          refine ⟨[], previous, hsame, ?_⟩
          intro rest
          simp [collapseAfter, hsame]
      | false =>
          refine ⟨[previous], l, sameOccurrence_iff.mpr ⟨rfl, rfl, rfl⟩, ?_⟩
          intro rest
          simp [collapseAfter, hsame]
  | cons m ls ih =>
      cases hsame : previous.sameOccurrence m with
      | true =>
          obtain ⟨kept, last, hlast, heq⟩ := ih previous
          refine ⟨kept, last, hlast, ?_⟩
          intro rest
          rw [← heq, List.cons_append, collapseAfter, if_pos hsame]
      | false =>
          obtain ⟨kept, last, hlast, heq⟩ := ih m
          refine ⟨previous :: kept, last, hlast, ?_⟩
          intro rest
          simp only [List.cons_append, collapseAfter, hsame, Bool.false_eq_true, if_false, heq]

/-- Up to a location the same ones are kept, whatever follows it, and the last of them is of its
occurrence. -/
theorem exists_collapse_append (ls : List Location) (l : Location) :
  ∃ kept last, last.sameOccurrence l = true ∧ ∀ rest,
    collapse (ls ++ l :: rest) = kept ++ last :: collapseAfter last rest
  := by
  cases ls with
  | nil => exact ⟨[], l, sameOccurrence_iff.mpr ⟨rfl, rfl, rfl⟩, fun _ => rfl⟩
  | cons m ls => exact exists_collapseAfter_append ls m l

end Location

theorem afterKey?_append (key value : String) (ls : List Location) (l m : Location)
    (rest : List Location) :
  afterKey? key value (ls ++ l :: m :: rest) = (afterKey? key value (ls ++ [l])).or
    (if l.value == key && m.value == value && l.line == m.line then some m
      else afterKey? key value (m :: rest))
  := by
  induction ls with
  | nil => simp [afterKey?]
  | cons first ls ih =>
      cases ls with
      | nil =>
          simp only [List.cons_append, List.nil_append, afterKey?] at ih ⊢
          split <;> simp
      | cons second ls =>
          simp only [List.cons_append, afterKey?] at ih ⊢
          split
          · rfl
          · exact ih

/-- Nothing is found if no two neighbours on one line are the key and the value. -/
theorem afterKey?_eq_none_iff {key value : String} {ls : List Location} :
  afterKey? key value ls = none ↔
    ls.IsChain fun l m => ¬ (l.value = key ∧ m.value = value ∧ l.line = m.line)
  := by
  induction ls with
  | nil => exact iff_of_true rfl .nil
  | cons l ls ih =>
      cases ls with
      | nil => exact iff_of_true rfl (.singleton l)
      | cons m ls =>
          have hpair : (l.value == key && m.value == value && l.line == m.line) = true ↔
              l.value = key ∧ m.value = value ∧ l.line = m.line := by
            simp [and_assoc]
          rw [afterKey?, List.isChain_cons_cons, ← ih, ← hpair]
          split
          · next hfound => simp [hfound]
          · next hother => simp [hother]

/-- A value that is its own key is not found behind it, since the two are taken as one. -/
theorem afterKey?_self {ls : List Location} (key : String)
    (hchain : ls.IsChain fun l m => l.sameOccurrence m = false)
    (hindent : ∀ l ∈ ls, ∀ m ∈ ls, l.line = m.line → l.indentation = m.indentation) :
  afterKey? key key ls = none
  := by
  rw [afterKey?_eq_none_iff]
  apply hchain.imp_of_mem_imp
  rintro l m hl hm hother ⟨rfl, hvalue, hline⟩
  have hsame : l.sameOccurrence m = true :=
    Location.sameOccurrence_iff.mpr ⟨hvalue.symm, hline, hindent l hl m hm hline⟩
  rw [hother] at hsame
  cases hsame

/-- Where a value is found that stands at `own?` right behind its key, if `upTo` are the locations
up to the key: at an earlier place where it stands behind such a key on one line, or else there. A
value that is its own key is found where that text stands first. -/
def behindKey? (key value : String) (upTo : List Location) (own? : Option Location) :
    Option Location :=
  if value = key then upTo.find? (·.value == key)
  else (afterKey? key value upTo).or own?

/-- A value is found where it stands, if it is not its own key and nothing earlier looks like it. -/
theorem behindKey?_eq_own {key value : String} {upTo : List Location} (own? : Option Location)
    (hother : value ≠ key)
    (hfirst : upTo.IsChain fun l m => ¬ (l.value = key ∧ m.value = value ∧ l.line = m.line)) :
  behindKey? key value upTo own? = own?
  := by
  rw [behindKey?, if_neg hother, afterKey?_eq_none_iff.mpr hfirst, Option.none_or]

theorem keyedLocation?_collapse {before rest : List Location} {k v : Location}
    (hline : k.line = v.line)
    (hindent : ∀ l ∈ before ++ k :: v :: rest, ∀ m ∈ before ++ k :: v :: rest,
      l.line = m.line → l.indentation = m.indentation) :
  keyedLocation? (Location.collapse (before ++ k :: v :: rest)) k.value v.value =
    behindKey? k.value v.value (Location.collapse (before ++ [k])) (some v)
  := by
  obtain ⟨kept, last, hsame, heq⟩ := Location.exists_collapse_append before k
  obtain ⟨hvalue, hlast, -⟩ := Location.sameOccurrence_iff.mp hsame
  rw [behindKey?]
  split
  · next hself =>
    have hnone :
        afterKey? k.value k.value (Location.collapse (before ++ k :: v :: rest)) = none := by
      apply afterKey?_self _ (Location.isChain_collapse _)
      intro l hl m hm
      exact hindent l ((Location.collapse_sublist _).subset hl) m
        ((Location.collapse_sublist _).subset hm)
    rw [keyedLocation?, hself, hnone, Option.none_or, heq, heq, List.find?_append,
      List.find?_append, List.find?_cons_of_pos (by simpa using hvalue),
      List.find?_cons_of_pos (by simpa using hvalue)]
  · next hother =>
    have hkept : last.sameOccurrence v = false := by
      rw [← Bool.not_eq_true, Location.sameOccurrence_iff, hvalue]
      rintro ⟨hself, -⟩
      exact hother hself.symm
    have hafter : Location.collapseAfter last (v :: rest) = v :: Location.collapseAfter v rest := by
      simp [Location.collapseAfter, hkept]
    rw [keyedLocation?, heq, heq, hafter, Location.collapseAfter, afterKey?_append]
    simp [hvalue, hlast, hline]

/-! ### Scalars that stand where they begin -/

namespace Yaml

theorem Value.asText_eq_some_iff {v : Value} {text : String} :
  v.asText = some text ↔ v = .scalar text
  := by
  cases v <;> simp [asText]

/-- A scalar stands where its node begins if its line goes on with its text there. -/
theorem Closing.standsVerbatim_iff {c : Closing} {text value : String} :
  c.StandsVerbatim text value ↔
    c.kind = .scalar ∧ c.value.asText = some value ∧ value ≠ "" ∧
    ∃ line ∈ (Text.lines text)[c.line]?, c.column ≤ line.content.length ∧
      value.toList <+: line.content.drop c.column
  := by
  constructor
  · rintro ⟨hkind, hvalue, hne, before, lead, tail, ending, after, hat, hcolumn⟩
    let line : Text.Line := ⟨lead ++ (value.toList ++ tail), Text.byteSize before⟩
    have hline : (Text.lines text)[c.line]? = some line :=
      Text.getElem?_lines_iff.mpr ⟨before, ending, after, hat, rfl⟩
    refine ⟨hkind, Value.asText_eq_some_iff.mpr hvalue, hne, line, hline, ?_, ?_⟩
    · simp [line, ← hcolumn]
    · simp [line, ← hcolumn]
  · rintro ⟨hkind, hvalue, hne, line, hline, hcolumn, tail, htail⟩
    obtain ⟨before, ending, after, hat, -⟩ := Text.getElem?_lines_iff.mp hline
    refine ⟨hkind, Value.asText_eq_some_iff.mp hvalue, hne, before, line.content.take c.column,
      tail, ending, after, ?_, ?_⟩
    · rwa [htail, List.take_append_drop]
    · simpa using hcolumn

instance {c : Closing} {text value : String} : Decidable (c.StandsVerbatim text value) :=
  decidable_of_iff _ Closing.standsVerbatim_iff.symm

end Yaml

/-! ### The body of a job -/

theorem attributesOfEntries_append (vs ws : List (String × Yaml.Value)) :
  attributesOfEntries (vs ++ ws) = attributesOfEntries vs ++ attributesOfEntries ws
  := by
  induction vs with
  | nil => rfl
  | cons v vs ih =>
      simp only [List.cons_append, attributesOfEntries, ih]
      split <;> rfl

namespace Yaml.Node

variable {sealedTags : List String} {site : Site} {anchors : Anchors}

theorem behindWord_eq_none {entries : List (Node × Node)}
    (h : ∀ e ∈ entries, e.1.isRecordWord sealedTags = false) :
  behindWord sealedTags entries site anchors = none
  := by
  induction entries generalizing anchors with
  | nil => rfl
  | cons e entries ih =>
      rw [List.forall_mem_cons] at h
      simp [behindWord, ih h.2, h.1]

theorem behindWord_append {entries later : List (Node × Node)} {inner : List Visit}
    (h : behindWord sealedTags later site (meaningOfEntries sealedTags entries anchors).2
      = some inner) :
  behindWord sealedTags (entries ++ later) site anchors = some inner
  := by
  induction entries generalizing anchors with
  | nil => exact h
  | cons e entries ih => simp only [List.cons_append, behindWord, ih h]

end Yaml.Node

namespace Source

variable {x : Source} {docs : List Root} {scopes : List Scope} {scope : Scope} {job : Job}
  {b e : Entry}

variable (x) in
/-- The body of a job is the value of the first entry `job` of its record `r`, the key of which is
written as this word and is the last one that begins a record. -/
structure HasBody (r : Visit) (b : Entry) : Prop where
  entry : b.In r
  first : (b.earlier x.sealedTags r).lookup "job" = none
  isRecordWord : b.key.isRecordWord x.sealedTags = true
  key_eq : (b.key.meaning x.sealedTags (b.keyVisit x.sealedTags r).anchors).1 = .scalar "job"
  last : ∀ later ∈ b.after, later.1.isRecordWord x.sealedTags = false

variable (x) in
/-- The body of a job. -/
def body (r : Visit) (b : Entry) : Visit :=
  b.valueVisit x.sealedTags r

theorem HasBody.get?_eq {r : Visit} (hbody : x.HasBody r b) :
  (r.node.meaning x.sealedTags r.anchors).1.get? "job"
    = some ((x.body r b).node.meaning x.sealedTags (x.body r b).anchors).1
  := by
  obtain ⟨later, hmeaning⟩ := @Entry.In.exists_meaning_eq x.sealedTags _ _ hbody.entry
  rw [hmeaning, hbody.key_eq, Yaml.Value.get?, List.lookup_append, hbody.first, Yaml.Value.toKey,
    List.lookup_cons_self, Option.none_or, body, Entry.valueVisit]

/-- A job has the locations of its body and of what follows it in its record, -/
theorem HasBody.nodes_eq (hbody : x.HasBody scope.mapping b) (h : x.Scoped docs scopes)
    (hscope : scope ∈ scopes) :
  scope.nodes = (x.body scope.mapping b).below x.sealedTags ++
    x.body scope.mapping b :: b.visitsAfter x.sealedTags scope.mapping
  := by
  obtain ⟨start, p, finish, hnode⟩ := hbody.entry
  apply h.segmented.nodes_eq (Root.visits_postOrder docs) hscope hnode
  apply Node.behindWord_append
  simp only [Node.behindWord, Node.behindWord_eq_none hbody.last, hbody.isRecordWord, if_true]
  rw [List.append_cons, body, ← Visit.visits_eq]
  rfl

/-- and the attributes of its body. -/
theorem HasBody.record_eq (hbody : x.HasBody scope.mapping b) (hrecords : x.Records scope) :
  scope.record = .job ⟨x.file,
    Attributes.ofValue ((x.body scope.mapping b).node.meaning x.sealedTags
      (x.body scope.mapping b).anchors).1,
    Location.collapse (x.located scope.nodes)⟩
  := by
  obtain ⟨c, hc, hrecord⟩ := hrecords
  rw [Record.ofValue?, ← (Visit.told_of_closing? hc).value_eq, hbody.get?_eq] at hrecord
  exact (Option.some.inj hrecord).symm

/-- The first item of a text is a job if it has a body. -/
theorem HasBody.exists_job {r : Visit} {d : Root} {start finish : Yaml.Mark} {p : Yaml.Properties}
    {n : Node} {ns : List Node} (hbody : x.HasBody r b)
    (hr : r = ⟨n, Site.root.item false, Yaml.Assembly.known []⟩)
    (hwrites : Writes x.text (d :: docs)) (hitem : d.node = .sequence start p (n :: ns) finish)
    (hp : Yaml.Assembly.isSealed x.sealedTags p = false) :
  ∃ scopes, ∃ scope ∈ scopes, ∃ job, x.Scoped (d :: docs) scopes ∧ scope.mapping = r ∧
    scope.record = .job job
  := by
  subst hr
  obtain ⟨scopes, h⟩ := exists_scoped_of_writes hwrites
  have hends : x.Ends ⟨n, Site.root.item false, Yaml.Assembly.known []⟩ := by
    have hget := hbody.get?_eq
    obtain ⟨start, p, finish, rfl⟩ := hbody.entry
    refine ⟨_, rfl, rfl, rfl, Or.inl ?_⟩
    rw [hget]
    exact Option.some_ne_none _
  have hmem : ⟨n, Site.root.item false, Yaml.Assembly.known []⟩ ∈ x.visits (d :: docs) :=
    List.mem_flatMap.mpr ⟨d, List.mem_cons_self, Root.mem_visits_item hitem hp⟩
  obtain ⟨scope, hscope, hmapping⟩ := h.segmented.exists_scope hmem hends
  rw [← hmapping] at hbody
  exact ⟨scopes, scope, hscope, _, h, hmapping, hbody.record_eq (h.records scope hscope)⟩

/-! ### Locations of nodes -/

/-- Locations on one line have the same indentation. -/
theorem indentation_of_mem_located {l : Location} {vs : List Visit} (h : l ∈ x.located vs) :
  l.indentation = (Text.indentations x.text)[l.line]?.getD 0
  := by
  obtain ⟨v, -, hv⟩ := List.mem_filterMap.mp h
  obtain ⟨c, hc, hl⟩ := Option.bind_eq_some_iff.mp hv
  obtain ⟨line, -, hfound⟩ := (Closing.location?_eq_some_iff.mp hl).found
  obtain ⟨_, -, heq⟩ := Option.map_eq_some_iff.mp hfound
  rw [← heq]
  exact (Visit.told_of_closing? hc).indent_eq

/-- A node that stands where it begins has its location there, unless it begins a record. -/
theorem exists_location?_eq {v : Visit} {c : Closing} {value : String}
    (hc : x.closing? v = some c) (hstands : c.StandsVerbatim x.text value)
    (hdepth : v.site.around.length ≠ 2) :
  ∃ l, x.location? v = some l ∧ l.value = value ∧ l.line = c.line ∧ l.startCol = c.column
  := by
  have hrecord : ¬ c.BeginsRecord := by
    rintro ⟨hkey, -⟩
    apply hdepth
    rw [← (Visit.told_of_closing? hc).depth_eq]
    simp only [Reading.isRecordKey, Bool.and_eq_true, beq_iff_eq] at hkey
    exact hkey.1.1
  obtain ⟨l, hfound, hl⟩ := hstands.exists_foundAs hrecord x.file
  refine ⟨l, ?_, hl⟩
  rw [location?, hc]
  exact Closing.location?_eq_some_iff.mpr hfound

/-! ### Entries of a job -/

variable (x) in
/-- An entry of a mapping is the first attribute under a key. Key and value stand on one line, each
where its node begins. -/
structure HasEntry (m : Visit) (e : Entry) (key value : String) (k v : Closing) : Prop where
  entry : e.In m
  first : (attributesOfEntries (e.earlier x.sealedTags m)).lookup key = none
  key_told : x.closing? (e.keyVisit x.sealedTags m) = some k
  key_stands : k.StandsVerbatim x.text key
  value_told : x.closing? (e.valueVisit x.sealedTags m) = some v
  value_stands : v.StandsVerbatim x.text value
  line_eq : k.line = v.line

variable {m : Visit} {key value : String} {k v : Closing}

theorem HasEntry.scalar?_eq (hentry : x.HasEntry m e key value k v) :
  (Attributes.ofValue (m.node.meaning x.sealedTags m.anchors).1).scalar? key = some value
  := by
  obtain ⟨later, hmeaning⟩ := @Entry.In.exists_meaning_eq x.sealedTags _ _ hentry.entry
  have hk : (e.key.meaning x.sealedTags (e.keyVisit x.sealedTags m).anchors).1 = .scalar key :=
    (Visit.told_of_closing? hentry.key_told).value_eq.trans hentry.key_stands.value_eq
  have hv : (e.value.meaning x.sealedTags (e.valueVisit x.sealedTags m).anchors).1
      = .scalar value :=
    (Visit.told_of_closing? hentry.value_told).value_eq.trans hentry.value_stands.value_eq
  rw [hmeaning, hk, hv, Attributes.ofValue, Attribute.ofValue?, attributesOfEntries_append]
  simp [Attributes.scalar?, List.lookup_append, hentry.first, attributesOfEntries,
    Attribute.ofValue?, Yaml.Value.toKey, Attribute.asScalar]

theorem HasEntry.below_eq (hentry : x.HasEntry m e key value k v) :
  m.below x.sealedTags = e.visitsBefore x.sealedTags m ++ e.keyVisit x.sealedTags m ::
    e.valueVisit x.sealedTags m :: e.visitsAfter x.sealedTags m
  := by
  have hkey := (Visit.told_of_closing? hentry.key_told).below_eq_nil hentry.key_stands.kind_eq
  have hvalue :=
    (Visit.told_of_closing? hentry.value_told).below_eq_nil hentry.value_stands.kind_eq
  rw [hentry.entry.below_eq, hkey, hvalue, List.nil_append, List.nil_append]

variable (x) in
/-- The locations of a job up to the key of an entry of its body. -/
def upToKey (m : Visit) (e : Entry) : List Location :=
  Location.collapse (x.located (e.visitsBefore x.sealedTags m ++ [e.keyVisit x.sealedTags m]))

/-- A name is found at an earlier place where it stands behind such a key on one line, or else where
it stands; but if it is its own key, where that text stands first. -/
theorem keyedLocation?_eq (h : x.Scoped docs scopes) (hscope : scope ∈ scopes)
    (hbody : x.HasBody scope.mapping b)
    (hentry : x.HasEntry (x.body scope.mapping b) e key value k v) :
  (∃ l, x.location? (e.valueVisit x.sealedTags (x.body scope.mapping b)) = some l ∧
    l.value = value ∧ l.line = v.line ∧ l.startCol = v.column) ∧
  keyedLocation? (Location.collapse (x.located scope.nodes)) key value =
    behindKey? key value (x.upToKey (x.body scope.mapping b) e)
      (x.location? (e.valueVisit x.sealedTags (x.body scope.mapping b)))
  := by
  obtain ⟨_, _, -, -, -, hends⟩ := h.segmented.exists_passed hscope
  have hdepth : ∀ isKey, ((x.body scope.mapping b).site.entry isKey).around.length ≠ 2 := by
    intro isKey
    simp [Site.entry, body, Entry.valueVisit, hends.site_eq.1]
  obtain ⟨lk, hlk, hkvalue, hkline, -⟩ :=
    exists_location?_eq hentry.key_told hentry.key_stands (hdepth true)
  obtain ⟨lv, hlv, hvvalue, hvline, hvcolumn⟩ :=
    exists_location?_eq hentry.value_told hentry.value_stands (hdepth false)
  refine ⟨⟨lv, hlv, hvvalue, hvline, hvcolumn⟩, ?_⟩
  have hlocated : x.located scope.nodes
      = x.located (e.visitsBefore x.sealedTags (x.body scope.mapping b)) ++ lk :: lv ::
        x.located (e.visitsAfter x.sealedTags (x.body scope.mapping b) ++
          x.body scope.mapping b :: b.visitsAfter x.sealedTags scope.mapping) := by
    rw [hbody.nodes_eq h hscope, hentry.below_eq]
    simp [located, hlk, hlv]
  have hupTo : x.upToKey (x.body scope.mapping b) e = Location.collapse
      (x.located (e.visitsBefore x.sealedTags (x.body scope.mapping b)) ++ [lk]) := by
    rw [upToKey, located_append, located_singleton, hlk]
    rfl
  rw [hlv, hupTo, hlocated, ← hkvalue, ← hvvalue]
  apply keyedLocation?_collapse
  · rw [hkline, hvline, hentry.line_eq]
  · rw [← hlocated]
    intro l hl m hm hline
    rw [indentation_of_mem_located hl, indentation_of_mem_located hm, hline]

/-- The name and the parent of a job, if written on one line with their keys, are found at an
earlier place where the same text stands behind the same key on one line, be it the key of another
mapping; or else where they stand. One that is its own key is found where that text stands first,
which is never behind the key. So they are found where they stand if they are not their own keys and
nothing earlier looks like them. -/
theorem keyLocations_eq (h : x.Scoped docs scopes) (hscope : scope ∈ scopes)
    (hjob : scope.record = .job job) (hbody : x.HasBody scope.mapping b)
    (hentry : x.HasEntry (x.body scope.mapping b) e key value k v) :
  let own? := x.location? (e.valueVisit x.sealedTags (x.body scope.mapping b))
  let found? := behindKey? key value (x.upToKey (x.body scope.mapping b) e) own?
  (∃ l, own? = some l ∧ l.value = value ∧ l.line = v.line ∧ l.startCol = v.column) ∧
    (key = "name" → job.name? = some value ∧ job.nameLocation? = found?) ∧
    (key = "parent" → job.parent? = some value ∧ job.parentLocation? = found?) ∧
    (value ≠ key →
      ((x.upToKey (x.body scope.mapping b) e).IsChain
        fun l m => ¬ (l.value = key ∧ m.value = value ∧ l.line = m.line)) →
      found? = own?)
  := by
  intro own? found?
  obtain ⟨hown, hfound⟩ := keyedLocation?_eq h hscope hbody hentry
  have hscalar := hentry.scalar?_eq
  have hrecord := hbody.record_eq (h.records scope hscope)
  obtain rfl := Record.job.inj (hjob.symm.trans hrecord)
  refine ⟨hown, ?_, ?_, behindKey?_eq_own own?⟩
  · rintro rfl
    refine ⟨hscalar, ?_⟩
    rw [Job.nameLocation?, Job.name?, hscalar]
    exact hfound
  · rintro rfl
    refine ⟨hscalar, ?_⟩
    rw [Job.parentLocation?, Job.parent?, hscalar]
    exact hfound

/-- The job of a scope is a job of the text. -/
theorem Scoped.mem_jobs (h : x.Scoped docs scopes) (hscope : scope ∈ scopes)
    (hjob : scope.record = .job job) :
  job ∈ x.document.jobs
  := by
  rw [h.jobs_eq, List.mem_filterMap]
  exact ⟨scope, hscope, by rw [hjob]; rfl⟩

/-- Another name in front of the name of a job does no harm. -/
theorem keyLocations_eq_other_name :
  let x : Source := ⟨[], ⟨"a.yaml"⟩, "- job: \x7ba: \x7bname: b\x7d, name: c\x7d\n"⟩
  ∃ job ∈ x.document.jobs, job.name? = some "c" ∧
    job.nameLocation?.map (fun l => (l.line, l.startCol)) = some (0, 28)
  := by
  intro x
  let plain (col : Nat) (text : String) : Node := .scalar ⟨col, 1, col⟩ .plain text .none
  let other : Node := .mapping ⟨11, 1, 11⟩ .none [(plain 12 "name", plain 18 "b")] ⟨19, 1, 19⟩
  let e : Entry := ⟨[(plain 8 "a", other)], plain 22 "name", plain 28 "c", []⟩
  let body : Node := .mapping ⟨7, 1, 7⟩ .none (e.before ++ [(e.key, e.value)]) ⟨29, 1, 29⟩
  let b : Entry := ⟨[], plain 2 "job", body, []⟩
  let finish : Yaml.Mark := ⟨31, 2, 0⟩
  let record : Node := .mapping ⟨5, 1, 5⟩ .none [(b.key, b.value)] finish
  let doc : Root := ⟨⟨0, 1, 0⟩, .sequence ⟨0, 1, 0⟩ .none [record] finish, finish⟩
  let r : Visit := ⟨record, Site.root.item false, Yaml.Assembly.known []⟩
  have hwrites : Writes x.text [doc] := ⟨by decide +kernel, by decide +kernel⟩
  have hbody : x.HasBody r b := ⟨⟨_, _, _, rfl⟩, rfl, rfl, rfl, nofun⟩
  have hentry : x.HasEntry (x.body r b) e "name" "c" _ _ :=
    ⟨⟨_, _, _, rfl⟩, rfl, rfl, by decide +kernel, rfl, by decide +kernel, rfl⟩
  obtain ⟨scopes, scope, hscope, job, h, hmapping, hjob⟩ := hbody.exists_job rfl hwrites rfl rfl
  rw [← hmapping] at hbody hentry
  obtain ⟨-, hname, -⟩ := keyLocations_eq h hscope hjob hbody hentry
  obtain ⟨hname, hlocation⟩ := hname rfl
  refine ⟨job, h.mem_jobs hscope hjob, hname, ?_⟩
  rw [hlocation, hmapping]
  decide +kernel

/-- The name of the nodes of a job is found in place of the name of the job, and the key in place of
a name that is its own key. -/
theorem nameLocation?_elsewhere :
  let nested : Source :=
    ⟨[], ⟨"a.yaml"⟩, "- job:\n    nodeset:\n      name: unit\n    name: unit\n"⟩
  let own : Source := ⟨[], ⟨"a.yaml"⟩, "- job:\n    name: name\n"⟩
  let found (x : Source) : List (Option String × Option (Nat × Nat)) :=
    x.document.jobs.map fun job => (job.name?, job.nameLocation?.map fun l => (l.line, l.startCol))
  let entries (x : Source) : List (Option String × Bool × Nat × Nat) :=
    ((Document.nodes x.sealedTags x.text).filter fun c => c.depth == 3 && c.kind == .scalar).map
      fun c => (c.value.asText, c.isKey, c.line, c.column)
  found nested = [(some "unit", some (2, 12))] ∧
    entries nested = [(some "nodeset", true, 1, 4), (some "name", true, 3, 4),
      (some "unit", false, 3, 10)] ∧
    found own = [(some "name", some (1, 4))] ∧
    entries own = [(some "name", true, 1, 4), (some "name", false, 1, 10)]
  := by decide +kernel

end Source

end JobIndex
