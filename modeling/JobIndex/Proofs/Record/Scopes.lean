import JobIndex.Proofs.Index.History
import JobIndex.Proofs.Record.Collected
import JobIndex.Proofs.Yaml.Documents
import Mathlib.Data.List.Flatten

/-!
# Locations stay with their records

The locations of scalars are collected in one list, which the key of a record empties and the end of
a record takes. A text is written by trees, and the nodes of its trees fall into scopes, one for
each record (`Segmented`): the nodes since the last record began or ended. It follows that

* each record has the locations of the scalars of its own scope, so that no scalar gives its
  location to two records and the locations come in the order of the text;
* the scope of a record that begins with a key of its own is inside of that record, behind its last
  such key.

What a node does to reading is said in `Reading.step_begins`, `Reading.step_ends` and
`Reading.step_goes`; the rest follows by induction on the nodes of a text.
-/

namespace JobIndex

open Yaml (Closing Visit Node Site Anchors Root Writes)

/-! ### Neighbours of the same occurrence -/

namespace Location

theorem collapseAfter_sublist (last : Location) (ls : List Location) :
  (collapseAfter last ls).Sublist ls
  := by
  induction ls generalizing last with
  | nil => exact List.Sublist.refl []
  | cons l ls ih =>
      rw [collapseAfter]
      split
      · exact (ih last).cons l
      · exact (ih l).cons_cons l

theorem collapse_sublist (ls : List Location) :
  (collapse ls).Sublist ls
  := by
  cases ls with
  | nil => exact List.Sublist.refl []
  | cons l ls => exact (collapseAfter_sublist l ls).cons_cons l

theorem isChain_collapseAfter (last : Location) (ls : List Location) :
  (last :: collapseAfter last ls).IsChain fun l m => l.sameOccurrence m = false
  := by
  induction ls generalizing last with
  | nil => exact .singleton last
  | cons l ls ih =>
      rw [collapseAfter]
      split
      · exact ih last
      · next hother => exact .cons_cons (by simpa using hother) (ih l)

/-- No two neighbours are of the same occurrence. -/
theorem isChain_collapse (ls : List Location) :
  (collapse ls).IsChain fun l m => l.sameOccurrence m = false
  := by
  cases ls with
  | nil => exact .nil
  | cons l ls => exact isChain_collapseAfter l ls

end Location

/-! ### Keys that begin a record -/

namespace Yaml.Node

variable (sealedTags : List String)

/-- Whether a node is written as the word that begins a record. -/
def isRecordWord : Node → Bool
  | .scalar _ _ text p => !Assembly.isSealed sealedTags p && Reading.isRecordWord text
  | _ => false

/-- The nodes of entries behind the last key that is written as the word of a record. -/
def behindWord : List (Node × Node) → Site → Anchors → Option (List Visit)
  | [], _, _ => none
  | (key, n) :: entries, site, anchors =>
    let between := (key.meaning sealedTags anchors).2
    let after := (n.meaning sealedTags between).2
    match behindWord entries site after with
    | some vs => some vs
    | none =>
      if key.isRecordWord sealedTags then
        some (n.visits sealedTags (site.entry false) between
          ++ visitsOfEntries sealedTags entries site after)
      else none

variable {sealedTags}

/-- A scalar with the text of a word is written as that word. -/
theorem isRecordWord_of_meaning {n : Node} {anchors : Anchors} {text : String}
    (hkind : n.kind? sealedTags = some .scalar)
    (hvalue : (n.meaning sealedTags anchors).1 = .scalar text)
    (hword : Reading.isRecordWord text = true) :
  n.isRecordWord sealedTags = true
  := by
  cases n with
  | scalar mark style text' p =>
      have hsealed : Assembly.isSealed sealedTags p = false := by
        simpa [kind?] using hkind
      simp only [meaning, scalarMeaning_eq, Assembly.scalarValue, hsealed, Bool.false_eq_true,
        if_false] at hvalue
      split at hvalue
      · cases hvalue
      · cases hvalue
        simp [isRecordWord, hsealed, hword]
  | _ => simp [kind?] at hkind

theorem isRecordWord_of_behindWord_eq_none {entries : List (Node × Node)} {site : Site}
    {anchors : Anchors} (h : behindWord sealedTags entries site anchors = none) :
  ∀ e ∈ entries, e.1.isRecordWord sealedTags = false
  := by
  induction entries generalizing anchors with
  | nil => exact fun _ h => nomatch h
  | cons e entries ih =>
      obtain ⟨key, n⟩ := e
      simp only [behindWord] at h
      split at h
      · cases h
      · next hnone =>
        rw [List.forall_mem_cons]
        exact ⟨by simpa using h, ih hnone⟩

/-- What is behind the last word: nodes deeper than the entries, values, and keys that are no
words. -/
def Follows (sealedTags : List String) (site : Site) (v : Visit) : Prop :=
  site.around.length + 1 < v.site.around.length ∨ v.site = site.entry false ∨
    v.node.isRecordWord sealedTags = false ∧ v.site = site.entry true

theorem exists_word_of_behindWord {entries : List (Node × Node)} {site : Site} {anchors : Anchors}
    {inner : List Visit} (h : behindWord sealedTags entries site anchors = some inner) :
  ∃ earlier key before, key.isRecordWord sealedTags = true ∧
    visitsOfEntries sealedTags entries site anchors
      = earlier ++ ⟨key, site.entry true, before⟩ :: inner ∧
    ∀ v ∈ inner, Follows sealedTags site v
  := by
  induction entries generalizing anchors with
  | nil => cases h
  | cons e entries ih =>
      obtain ⟨key, n⟩ := e
      simp only [behindWord] at h
      split at h
      · next vs hvs =>
        obtain rfl := Option.some.inj h
        obtain ⟨earlier, word, before, hword, heq, hinner⟩ := ih hvs
        rw [visitsOfEntries, heq, ← List.append_assoc, ← List.append_assoc]
        exact ⟨_, word, before, hword, rfl, hinner⟩
      · next hnone =>
        split at h
        · next hkey =>
          obtain rfl := Option.some.inj h
          refine ⟨[], key, anchors, hkey, ?_, ?_⟩
          · cases key with
            | scalar => rfl
            | _ => cases hkey
          · intro v hv
            obtain hv | hv := List.mem_append.mp hv
            · obtain ⟨-, hsite⟩ | hdepth := mem_visits n _ _ v hv
              · exact Or.inr (Or.inl hsite)
              · exact Or.inl hdepth
            · obtain ⟨e, he, ⟨hnode, hsite⟩ | ⟨-, hsite⟩⟩ | hdepth :=
                mem_visitsOfEntries entries site _ v hv
              · right; right
                exact ⟨hnode ▸ isRecordWord_of_behindWord_eq_none hnone e he, hsite⟩
              · exact Or.inr (Or.inl hsite)
              · exact Or.inl hdepth
        · cases h

end Yaml.Node

/-! ### Scopes -/

/-- A record, the mapping that it is, and the nodes whose locations it has. -/
structure Scope where
  nodes : List Visit
  mapping : Visit
  record : Record

namespace Source

variable (x : Source)

/-- What is told of a node. -/
def closing? (v : Visit) : Option Closing :=
  v.closing? (Text.indentations x.text) x.sealedTags

/-- A node is a key that begins a record. -/
def Begins (v : Visit) : Prop :=
  ∃ c ∈ x.closing? v, c.Begins

/-- A node is a record. -/
def Ends (v : Visit) : Prop :=
  ∃ c ∈ x.closing? v, c.Ends

/-- The location of a node. -/
def location? (v : Visit) : Option Location :=
  (x.closing? v).bind (Closing.location? x.file x.text)

/-- The locations of nodes. -/
def located (vs : List Visit) : List Location :=
  vs.filterMap x.location?

/-- A record has the locations of its scope, neighbours of the same occurrence taken as one. -/
def Records (s : Scope) : Prop :=
  ∃ c ∈ x.closing? s.mapping,
    Record.ofValue? x.file (Location.collapse (x.located s.nodes)) c.value = some s.record

/-- What has been passed since the last record ended: nodes of no use to the next one, up to a key
that begins a record if there is one, and the nodes behind it. -/
structure Passed (before nodes : List Visit) : Prop where
  begun : before = [] ∨ ∃ earlier v, before = earlier ++ [v] ∧ x.Begins v
  before_open : ∀ v ∈ before, ¬ x.Ends v
  nodes_open : ∀ v ∈ nodes, ¬ x.Begins v ∧ ¬ x.Ends v

/-- The nodes of a text in the order in which they are finished fall into the scopes of its records.
Between two scopes is the record itself, and what has been passed up to the last key that begins a
record. -/
inductive Segmented : List Visit → List Scope → Prop where
  | rest {vs : List Visit} (hopen : ∀ v ∈ vs, ¬ x.Ends v) : Segmented vs []
  | scope {before after : List Visit} {s : Scope} {scopes : List Scope}
      (hpassed : x.Passed before s.nodes) (hends : x.Ends s.mapping)
      (hafter : Segmented after scopes) :
      Segmented (before ++ (s.nodes ++ s.mapping :: after)) (s :: scopes)

/-- Reads a node, if it is told. -/
def read (r : Reading) (v : Visit) : Reading :=
  match x.closing? v with
  | some c => r.step x.file (Text.lines x.text) c
  | none => r

variable {x} {before nodes vs : List Visit} {v : Visit}

theorem located_append (vs ws : List Visit) :
  x.located (vs ++ ws) = x.located vs ++ x.located ws
  := List.filterMap_append

theorem located_singleton (v : Visit) :
  x.located [v] = (x.location? v).toList
  := by
  cases h : x.location? v <;> simp [located, h]

theorem passed_nil :
  x.Passed [] []
  := by
  refine ⟨Or.inl rfl, ?_, ?_⟩ <;> exact fun _ h => nomatch h

theorem Passed.begins (h : x.Passed before nodes) (hv : x.Begins v) (hopen : ¬ x.Ends v) :
  x.Passed (before ++ (nodes ++ [v])) []
  := by
  refine ⟨Or.inr ⟨before ++ nodes, v, (List.append_assoc ..).symm, hv⟩, ?_, fun _ h => nomatch h⟩
  simp only [List.mem_append, List.mem_singleton]
  rintro w (hw | hw | rfl)
  · exact h.before_open w hw
  · exact (h.nodes_open w hw).2
  · exact hopen

theorem Passed.goes (h : x.Passed before nodes) (hv : ¬ x.Begins v ∧ ¬ x.Ends v) :
  x.Passed before (nodes ++ [v])
  := by
  refine ⟨h.begun, h.before_open, ?_⟩
  simp only [List.mem_append, List.mem_singleton]
  rintro w (hw | rfl)
  · exact h.nodes_open w hw
  · exact hv

theorem Passed.open (h : x.Passed before nodes) :
  ∀ v ∈ before ++ nodes, ¬ x.Ends v
  := by
  intro v hv
  obtain hv | hv := List.mem_append.mp hv
  · exact h.before_open v hv
  · exact (h.nodes_open v hv).2

/-! ### Reading nodes -/

variable {r s : Reading}

theorem Begins.not_ends (h : x.Begins v) :
  ¬ x.Ends v
  := by
  rintro ⟨c, hc, hkind, -⟩
  obtain ⟨d, hd, hkind', -⟩ := h
  obtain rfl := Option.mem_unique hc hd
  rw [hkind] at hkind'
  cases hkind'

theorem read_begins (hv : x.Begins v) (r : Reading) :
  x.read r v = { r with locations := [] }
  := by
  obtain ⟨c, hc, hbegins⟩ := hv
  rw [read, Option.mem_def.mp hc]
  exact Reading.step_begins hbegins _ r

theorem read_ends (hv : x.Ends v) (r : Reading) :
  ∃ c ∈ x.closing? v, ∃ record,
    Record.ofValue? x.file (Location.collapse r.locations.reverse) c.value = some record ∧
    (x.read r v).locations = [] ∧
    (x.read r v).jobs = record.job?.toList ++ r.jobs ∧
    (x.read r v).templates = record.template?.toList ++ r.templates
  := by
  obtain ⟨c, hc, hends⟩ := hv
  rw [read, Option.mem_def.mp hc]
  exact ⟨c, rfl, Reading.step_ends hends _ r⟩

theorem read_goes (hv : ¬ x.Begins v ∧ ¬ x.Ends v) (r : Reading) :
  (x.read r v).locations = (x.location? v).toList ++ r.locations ∧
    (x.read r v).jobs = r.jobs ∧ (x.read r v).templates = r.templates
  := by
  rw [read, location?]
  cases hc : x.closing? v with
  | none => exact ⟨rfl, rfl, rfl⟩
  | some c =>
      apply Reading.step_goes
      · exact fun hbegins => hv.1 ⟨c, hc, hbegins⟩
      · exact fun hends => hv.2 ⟨c, hc, hends⟩

/-- Reading has added the records of scopes. -/
structure Adds (r s : Reading) (scopes : List Scope) : Prop where
  jobs_eq : s.jobs.reverse = r.jobs.reverse ++ scopes.filterMap (·.record.job?)
  templates_eq : s.templates.reverse = r.templates.reverse ++ scopes.filterMap (·.record.template?)

/-- The nodes of a text fall into the scopes of the records that are read from them. -/
theorem exists_segmented (vs : List Visit) (hpassed : x.Passed before nodes)
    (hlocations : r.locations.reverse = x.located nodes) :
  ∃ scopes, x.Segmented (before ++ (nodes ++ vs)) scopes ∧ (∀ s ∈ scopes, x.Records s) ∧
    Adds r (vs.foldl x.read r) scopes
  := by
  induction vs generalizing r before nodes with
  | nil =>
      rw [List.append_nil]
      exact ⟨[], .rest hpassed.open, fun _ h => (nomatch h), ⟨by simp, by simp⟩⟩
  | cons v vs ih =>
      by_cases hbegins : x.Begins v
      · have hread := read_begins hbegins r
        have hlocations' : (x.read r v).locations.reverse = x.located [] := by
          rw [hread]
          rfl
        obtain ⟨scopes, hsegmented, hrecords, hadds⟩ :=
          ih (hpassed.begins hbegins hbegins.not_ends) hlocations'
        refine ⟨scopes, by simpa using hsegmented, hrecords, ?_⟩
        rw [hread] at hadds
        rw [List.foldl_cons, hread]
        exact ⟨hadds.jobs_eq, hadds.templates_eq⟩
      · by_cases hends : x.Ends v
        · obtain ⟨c, hc, record, hrecord, hl, hj, ht⟩ := read_ends hends r
          have hlocations' : (x.read r v).locations.reverse = x.located [] := by
            rw [hl]
            rfl
          obtain ⟨scopes, hsegmented, hrecords, hadds⟩ := ih passed_nil hlocations'
          have hscope : x.Segmented (before ++ (nodes ++ v :: vs)) (⟨nodes, v, record⟩ :: scopes) :=
            .scope (s := ⟨nodes, v, record⟩) hpassed hends hsegmented
          refine ⟨_, hscope, ?_, ?_⟩
          · rw [List.forall_mem_cons]
            refine ⟨⟨c, hc, ?_⟩, hrecords⟩
            rw [← hlocations]
            exact hrecord
          · rw [List.foldl_cons]
            constructor
            · rw [hadds.jobs_eq, hj]
              cases record <;> simp [Record.job?]
            · rw [hadds.templates_eq, ht]
              cases record <;> simp [Record.template?]
        · obtain ⟨hl, hj, ht⟩ := read_goes ⟨hbegins, hends⟩ r
          have hlocations' : (x.read r v).locations.reverse = x.located (nodes ++ [v]) := by
            rw [hl, located_append, located_singleton, List.reverse_append, hlocations]
            cases x.location? v <;> rfl
          obtain ⟨scopes, hsegmented, hrecords, hadds⟩ :=
            ih (hpassed.goes ⟨hbegins, hends⟩) hlocations'
          refine ⟨scopes, by simpa using hsegmented, hrecords, ?_⟩
          rw [List.foldl_cons]
          constructor
          · rw [hadds.jobs_eq, hj]
          · rw [hadds.templates_eq, ht]

/-! ### Where scopes are -/

/-- The scopes come one after the other. -/
theorem Segmented.nodes_sublist {scopes : List Scope} (h : x.Segmented vs scopes) :
  (scopes.flatMap (·.nodes)).Sublist vs
  := by
  induction h with
  | rest _ => exact List.nil_sublist _
  | scope _ _ _ ih =>
      rw [List.flatMap_cons]
      apply List.sublist_append_of_sublist_right
      apply List.Sublist.append_left
      exact ih.cons _

/-- A scope reaches back to the key that begins its record, or to the record before it. -/
theorem Segmented.exists_passed {scopes : List Scope} {scope : Scope} (h : x.Segmented vs scopes)
    (hscope : scope ∈ scopes) :
  ∃ before after, vs = before ++ (scope.nodes ++ scope.mapping :: after) ∧
    (before = [] ∨ ∃ earlier v, before = earlier ++ [v] ∧ (x.Begins v ∨ x.Ends v)) ∧
    (∀ v ∈ scope.nodes, ¬ x.Begins v ∧ ¬ x.Ends v) ∧ x.Ends scope.mapping
  := by
  induction h with
  | rest _ => cases hscope
  | @scope before after s scopes hpassed hends hafter ih =>
      obtain rfl | hscope := List.mem_cons.mp hscope
      · refine ⟨before, after, rfl, ?_, hpassed.nodes_open, hends⟩
        obtain hnil | ⟨earlier, v, hv, hbegins⟩ := hpassed.begun
        · exact Or.inl hnil
        · exact Or.inr ⟨earlier, v, hv, Or.inl hbegins⟩
      · obtain ⟨between, last, rfl, hbetween, hnodes⟩ := ih hscope
        refine ⟨before ++ (s.nodes ++ s.mapping :: between), last, by simp, Or.inr ?_, hnodes⟩
        obtain rfl | ⟨earlier, v, rfl, hv⟩ := hbetween
        · exact ⟨before ++ s.nodes, s.mapping, by simp, Or.inr hends⟩
        · exact ⟨before ++ (s.nodes ++ s.mapping :: earlier), v, by simp, hv⟩

/-- Every record has a scope. -/
theorem Segmented.exists_scope {scopes : List Scope} (h : x.Segmented vs scopes) (hv : v ∈ vs)
    (hends : x.Ends v) :
  ∃ scope ∈ scopes, scope.mapping = v
  := by
  induction h with
  | rest hopen => exact absurd hends (hopen v hv)
  | @scope before after s scopes hpassed _ _ ih =>
      simp only [List.mem_append, List.mem_cons] at hv
      obtain hv | hv | rfl | hv := hv
      · exact absurd hends (hpassed.before_open v hv)
      · exact absurd hends (hpassed.nodes_open v hv).2
      · exact ⟨s, List.mem_cons_self, rfl⟩
      · obtain ⟨scope, hscope, hmapping⟩ := ih hv
        exact ⟨scope, List.mem_cons_of_mem s hscope, hmapping⟩

/-- Nodes up to the last one that begins or ends a record can be cut off in one way only. -/
theorem eq_of_append_eq {inner : List Visit} {earlier : List Visit}
    (heq : before ++ nodes = earlier ++ v :: inner)
    (hbefore : before = [] ∨ ∃ earlier v, before = earlier ++ [v] ∧ (x.Begins v ∨ x.Ends v))
    (hnodes : ∀ v ∈ nodes, ¬ x.Begins v ∧ ¬ x.Ends v) (hv : x.Begins v)
    (hinner : ∀ v ∈ inner, ¬ x.Begins v ∧ ¬ x.Ends v) :
  nodes = inner
  := by
  rw [List.append_cons] at heq
  obtain ⟨between, hearlier, rfl⟩ | ⟨between, rfl, rfl⟩ := List.append_eq_append_iff.mp heq
  · -- the key would be among the nodes behind it
    obtain rfl | ⟨between', w, rfl⟩ := List.eq_nil_or_concat between
    · exact List.nil_append inner
    · rw [List.concat_eq_append, ← List.append_assoc] at hearlier
      obtain ⟨-, hlast⟩ := List.append_inj' hearlier rfl
      obtain rfl := List.singleton_inj.mp hlast
      exact absurd hv (hnodes v (by simp)).1
  · obtain rfl | ⟨between', w, rfl⟩ := List.eq_nil_or_concat between
    · exact List.nil_append nodes
    · -- what `before` ends with would be behind the key
      have hw := hinner w (by simp)
      obtain hnil | ⟨_, _, hlast, hturn⟩ := hbefore
      · simp at hnil
      · rw [List.concat_eq_append, ← List.append_assoc] at hlast
        obtain ⟨-, hlast⟩ := List.append_inj' hlast rfl
        obtain rfl := List.singleton_inj.mp hlast
        exact absurd hturn (not_or.mpr hw)

/-- A record is an item of the sequence of a document, which is not sealed. -/
theorem Ends.site_eq (h : x.Ends v) :
  v.site.around = [.sequence] ∧ v.site.isInside = false
  := by
  obtain ⟨c, hc, -, hrecord, -⟩ := h
  have htold := Visit.told_of_closing? hc
  refine ⟨?_, htold.isInside_eq⟩
  simp only [Reading.isRecord, Bool.and_eq_true, beq_iff_eq, htold.depth_eq, htold.parent_eq]
    at hrecord
  obtain ⟨kind, haround⟩ := List.length_eq_one_iff.mp hrecord.1
  rw [haround] at hrecord ⊢
  simpa using hrecord.2

/-- A record is a mapping. -/
theorem Ends.exists_node_eq (h : x.Ends v) :
  ∃ start p entries finish, v.node = .mapping start p entries finish
  := by
  obtain ⟨c, hc, hkind, -⟩ := h
  have hkind' := (Visit.told_of_closing? hc).kind_eq
  rw [hkind] at hkind'
  cases hnode : v.node with
  | mapping start p entries finish => exact ⟨start, p, entries, finish, rfl⟩
  | reference => simp [hnode, Node.kind?] at hkind'
  | scalar =>
      rw [hnode, Node.kind?] at hkind'
      split at hkind' <;> cases hkind'
  | sequence => simp [hnode, Node.kind?] at hkind'

/-- A scalar that is neither sealed nor null is told with its text. -/
theorem closing?_scalar {mark : Yaml.Mark} {style : Yaml.Style} {text : String}
    {p : Yaml.Properties} {site : Site} {anchors : Anchors}
    (hsealed : Yaml.Assembly.isSealed x.sealedTags p = false)
    (hnull : (style == .plain && Yaml.Assembly.isNullText text) = false)
    (hinside : site.isInside = false) :
  x.closing? ⟨.scalar mark style text p, site, anchors⟩ = some {
    kind := .scalar
    value := .scalar text
    line := mark.line - 1
    column := mark.col
    indent := (Text.indentations x.text)[mark.line - 1]?.getD 0
    depth := site.around.length
    parent? := site.around.head?
    isKey := site.isKey }
  := by
  simp [closing?, Visit.closing?, Node.kind?, Node.meaning, Node.mark, Yaml.Assembly.scalarValue,
    hsealed, hnull, hinside]

theorem begins_of_isRecordWord {key : Node} {site : Site} {anchors : Anchors}
    (hkey : key.isRecordWord x.sealedTags = true) (haround : site.around = [.sequence])
    (hinside : site.isInside = false) :
  x.Begins ⟨key, site.entry true, anchors⟩
  := by
  cases key with
  | scalar mark style text p =>
      simp only [Node.isRecordWord, Bool.and_eq_true, Bool.not_eq_true', Reading.isRecordWord,
        Bool.or_eq_true, beq_iff_eq] at hkey
      obtain ⟨hsealed, htext⟩ := hkey
      have hnull : (style == .plain && Yaml.Assembly.isNullText text) = false := by
        obtain rfl | rfl := htext <;> simp [Yaml.Assembly.isNullText]
      refine ⟨_, closing?_scalar hsealed hnull hinside, rfl, ?_, ?_⟩
      · simp [Reading.isRecordKey, Site.entry, haround]
      · simpa using htext
  | _ => cases hkey

theorem not_turns_of_follows {site : Site} (haround : site.around = [.sequence])
    (hv : Node.Follows x.sealedTags site v) :
  ¬ x.Begins v ∧ ¬ x.Ends v
  := by
  constructor
  · rintro ⟨c, hc, hkind, hkey, hvalue⟩
    have htold := Visit.told_of_closing? hc
    simp only [Reading.isRecordKey, Bool.and_eq_true, beq_iff_eq, htold.depth_eq, htold.isKey_eq]
      at hkey
    obtain hdepth | hsite | ⟨hword, -⟩ := hv
    · simp only [haround, List.length_singleton] at hdepth
      omega
    · simp [hsite, Site.entry] at hkey
    · have hword' : v.node.isRecordWord x.sealedTags = true := by
        have hkind' := htold.kind_eq
        rw [hkind] at hkind'
        obtain hvalue | hvalue := hvalue <;>
          exact Node.isRecordWord_of_meaning hkind' (htold.value_eq.trans hvalue) rfl
      rw [hword] at hword'
      cases hword'
  · intro hends
    obtain ⟨haround', -⟩ := hends.site_eq
    obtain hdepth | hsite | ⟨-, hsite⟩ := hv
    · simp [haround, haround'] at hdepth
    · simp [hsite, Site.entry, haround] at haround'
    · simp [hsite, Site.entry, haround] at haround'

/-- The scope of a record that is begun by a key of its own is inside of the record, behind its last
such key. -/
theorem Segmented.nodes_eq {scopes : List Scope} {scope : Scope} (h : x.Segmented vs scopes)
    (horder : Yaml.PostOrder x.sealedTags vs) (hscope : scope ∈ scopes) {start finish : Yaml.Mark}
    {p : Yaml.Properties} {entries : List (Node × Node)} {inner : List Visit}
    (hnode : scope.mapping.node = .mapping start p entries finish)
    (hinner : Node.behindWord x.sealedTags entries scope.mapping.site scope.mapping.anchors
      = some inner) :
  scope.nodes = inner
  := by
  obtain ⟨before, after, heq, hbefore, hnodes, hends⟩ := h.exists_passed hscope
  obtain ⟨haround, hinside⟩ := hends.site_eq
  obtain ⟨earlier, key, anchors, hkey, hentries, hfollows⟩ := Node.exists_word_of_behindWord hinner
  rw [← List.append_assoc] at heq
  obtain ⟨outside, hbelow⟩ := horder _ _ _ heq
  have hvisits : before ++ scope.nodes
      = (outside ++ earlier) ++ ⟨key, scope.mapping.site.entry true, anchors⟩ :: inner := by
    rw [hbelow, Visit.below, hnode]
    dsimp only
    rw [hentries, List.append_assoc]
  apply eq_of_append_eq hvisits hbefore hnodes (begins_of_isRecordWord hkey haround hinside)
  intro v hv
  exact not_turns_of_follows haround (hfollows v hv)

/-! ### Documents -/

variable (x) in
/-- The nodes of documents, each after those in it. -/
def visits (docs : List Root) : List Visit :=
  docs.flatMap (Root.visits x.sealedTags)

/-- Reading a text is reading the nodes of its documents. -/
theorem reading_eq {docs : List Root} (h : Writes x.text docs) :
  Document.reading x.sealedTags x.file x.text = (x.visits docs).foldl x.read Reading.empty
  := by
  rw [Document.reading, h.nodes_eq, List.foldl_filterMap, visits]
  congr 1
  funext r v
  rw [read, closing?]
  cases v.closing? (Text.indentations x.text) x.sealedTags <;> rfl

variable (x) in
/-- A text is written by documents whose nodes fall into the scopes of its records, in the order in
which the records end. -/
structure Scoped (docs : List Root) (scopes : List Scope) : Prop where
  writes : Writes x.text docs
  segmented : x.Segmented (x.visits docs) scopes
  records : ∀ s ∈ scopes, x.Records s
  jobs_eq : x.document.jobs = scopes.filterMap (·.record.job?)
  templates_eq : x.document.templates = scopes.filterMap (·.record.template?)

/-- Whatever the documents are by which a text is written, their nodes fall into scopes. -/
theorem exists_scoped_of_writes {docs : List Root} (h : Writes x.text docs) :
  ∃ scopes, x.Scoped docs scopes
  := by
  obtain ⟨scopes, hsegmented, hrecords, hadds⟩ :=
    exists_segmented (r := .empty) (x.visits docs) (passed_nil (x := x)) rfl
  rw [← reading_eq h] at hadds
  have hparse := Document.parse_of_no_fault x.sealedTags x.file h.no_fault
  refine ⟨scopes, h, hsegmented, hrecords, ?_, ?_⟩
  · simp only [document, hparse, hadds.jobs_eq, Reading.empty, List.reverse_nil, List.nil_append]
  · simp only [document, hparse, hadds.templates_eq, Reading.empty, List.reverse_nil,
      List.nil_append]

theorem exists_scoped (hfault : (Yaml.EventStream.ofText x.text).fault = none) :
  ∃ docs scopes, x.Scoped docs scopes
  := by
  obtain ⟨docs, hdocs⟩ := Yaml.exists_writes hfault
  exact ⟨docs, exists_scoped_of_writes hdocs⟩

variable {docs : List Root} {scopes : List Scope}

theorem Records.locations_eq {s : Scope} (h : x.Records s) :
  s.record.locations = Location.collapse (x.located s.nodes)
  := by
  obtain ⟨c, -, hrecord⟩ := h
  exact Record.locations_of_ofValue? hrecord

/-- The locations of all records come in the order of the text, none of them twice. -/
theorem Scoped.locations_sublist (h : x.Scoped docs scopes) :
  (scopes.flatMap (·.record.locations)).Sublist (x.located (x.visits docs))
  := by
  have hscopes : (scopes.flatMap (·.record.locations)).Sublist
      (x.located (scopes.flatMap (·.nodes))) := by
    rw [located, List.filterMap_flatMap]
    apply List.Sublist.flatMap_right
    intro s hs
    rw [(h.records s hs).locations_eq]
    apply Location.collapse_sublist
  exact hscopes.trans (h.segmented.nodes_sublist.filterMap _)

/-- The nodes of a text without a fault fall into scopes, one for each record in the order in which
the records end, and a record has the locations of the scalars of its scope. Hence no scalar gives
its location to two records, and the locations of all records come in the order of the text. The
scope of a record that is begun by a key of its own is inside of the record, behind its last such
key. No two neighbours among the locations of a record are of the same occurrence. -/
theorem locations_scoped (x : Source) (hfault : (Yaml.EventStream.ofText x.text).fault = none) :
  ∃ docs scopes, x.Scoped docs scopes ∧
    (scopes.flatMap (·.record.locations)).Sublist (x.located (x.visits docs)) ∧
    ∀ scope ∈ scopes,
      scope.record.locations = Location.collapse (x.located scope.nodes) ∧
      (∃ start p entries finish, scope.mapping.node = .mapping start p entries finish ∧
        ∀ inner, Node.behindWord x.sealedTags entries scope.mapping.site scope.mapping.anchors
          = some inner → scope.nodes = inner) ∧
      scope.record.locations.IsChain fun l m => l.sameOccurrence m = false
  := by
  obtain ⟨docs, scopes, h⟩ := exists_scoped hfault
  refine ⟨docs, scopes, h, h.locations_sublist, ?_⟩
  intro scope hscope
  have hlocations := (h.records scope hscope).locations_eq
  refine ⟨hlocations, ?_, ?_⟩
  · obtain ⟨_, _, -, -, -, hends⟩ := h.segmented.exists_passed hscope
    obtain ⟨start, p, entries, finish, hnode⟩ := hends.exists_node_eq
    refine ⟨start, p, entries, finish, hnode, ?_⟩
    intro inner hinner
    exact h.segmented.nodes_eq (Root.visits_postOrder docs) hscope hnode hinner
  · rw [hlocations]
    apply Location.isChain_collapse

/-- A record that is neither a job nor a template comes first, one of the jobs has two keys that
begin a record, and the last one is in another document. -/
theorem locations_scoped_two_documents :
  let x : Source := ⟨[], ⟨"a.yaml"⟩,
    "- secret: a\n- b: c\n  job: d\n  project-template: [e, e]\n---\n- job:\n    name: h\n"⟩
  (Yaml.EventStream.ofText x.text).fault = none ∧
    x.document.jobs.map (fun job => job.locations.map (·.value)) = [["e"], ["name", "h"]] ∧
    ∃ docs scopes, x.Scoped docs scopes ∧
      (scopes.flatMap (·.record.locations)).Sublist (x.located (x.visits docs)) ∧
      ∀ scope ∈ scopes,
        scope.record.locations = Location.collapse (x.located scope.nodes) ∧
        (∃ start p entries finish, scope.mapping.node = .mapping start p entries finish ∧
          ∀ inner, Node.behindWord x.sealedTags entries scope.mapping.site scope.mapping.anchors
            = some inner → scope.nodes = inner) ∧
        scope.record.locations.IsChain fun l m => l.sameOccurrence m = false
  := by
  intro x
  obtain ⟨hfault, hvalues⟩ : (Yaml.EventStream.ofText x.text).fault = none ∧
      x.document.jobs.map (fun job => job.locations.map (·.value)) = [["e"], ["name", "h"]] := by
    decide +kernel
  exact ⟨hfault, hvalues, locations_scoped x hfault⟩

end Source

end JobIndex
