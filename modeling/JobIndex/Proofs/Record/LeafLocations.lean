import JobIndex.Proofs.Record.KeyedLocations

/-!
# Where leaves are found

The leaves of a job are looked up among its locations one after the other: an item by its text, any
other leaf by the text of its key and its own right behind it, each behind the leaf before
(`locateLeaves`). Whatever they are given are locations of the job with their texts, in the order of
the text (`locateLeaves_sound`).

These need not be their own locations. The body of a job is a tree of which keys and leaves are the
words (`Yaml.Visit.words`). If each word stands where it begins, the locations of a job are those of
its words, and its leaves are those words that are leaves (`Yaml.Node.spells`, by induction on the
tree). Then each leaf has its own location (`Source.locatedLeaves_eq`) if the leaves can be told
apart (`StandsApart`):

* nothing between the leaf before and a leaf looks like it;
* a leaf that is no item is behind the last key of its path, which a key with a dot is not;
* no neighbour of a leaf has its text on the same line, since the two would be taken as one.

`Source.locatedLeaves_elsewhere` has a text for each of these conditions.
-/

namespace JobIndex

open Yaml (Closing Visit Node Site Anchors Root Writes Entry)

/-! ### Neighbours that are taken as one -/

namespace Location

/-- Of two locations of one occurrence either tells what is of the same occurrence. -/
theorem sameOccurrence_congr_left {l m : Location} (h : l.sameOccurrence m = true) (n : Location) :
  l.sameOccurrence n = m.sameOccurrence n
  := by
  obtain ⟨hvalue, hline, hindentation⟩ := sameOccurrence_iff.mp h
  rw [sameOccurrence, sameOccurrence, hvalue, hline, hindentation]

theorem collapseAfter_append {ls : List Location} {previous l : Location}
    (h : ∀ k ∈ (previous :: ls).getLast?, k.sameOccurrence l = false) (rest : List Location) :
  collapseAfter previous (ls ++ l :: rest) = collapseAfter previous ls ++ l :: collapseAfter l rest
  := by
  induction ls generalizing previous with
  | nil => simp [collapseAfter, h previous rfl]
  | cons m ls ih =>
      rw [List.getLast?_cons_cons] at h
      cases hsame : previous.sameOccurrence m with
      | false =>
          simp only [List.cons_append, collapseAfter, hsame, Bool.false_eq_true, if_false, ih h]
      | true =>
          simp only [List.cons_append, collapseAfter, hsame, if_true]
          apply ih
          intro k hk
          cases ls with
          | nil =>
              obtain rfl : previous = k := by simpa using hk
              rw [sameOccurrence_congr_left hsame]
              exact h m rfl
          | cons n ls =>
              rw [List.getLast?_cons_cons] at hk h
              exact h k hk

/-- A location that differs from its neighbours is kept. -/
theorem collapse_append_cons {ls rest : List Location} {l : Location}
    (hbefore : ∀ k ∈ ls.getLast?, k.sameOccurrence l = false)
    (hafter : ∀ m ∈ rest.head?, l.sameOccurrence m = false) :
  collapse (ls ++ l :: rest) = collapse ls ++ l :: collapse rest
  := by
  have hrest : collapseAfter l rest = collapse rest := by
    cases rest with
    | nil => rfl
    | cons m rest => simp [collapseAfter, collapse, hafter m rfl]
  cases ls with
  | nil => simp [collapse, hrest]
  | cons k ls => simp [collapse, collapseAfter_append hbefore, hrest]

theorem isChain_collapseAfter_of_isChain {R : Location → Location → Prop}
    (hR : ∀ k l m, k.sameOccurrence l = true → R l m → R k m) {last previous : Location}
    {ls : List Location} (hsame : last.sameOccurrence previous = true)
    (h : (previous :: ls).IsChain R) :
  (last :: collapseAfter last ls).IsChain R
  := by
  induction ls generalizing last previous with
  | nil => exact .singleton last
  | cons m ls ih =>
      rw [List.isChain_cons_cons] at h
      rw [collapseAfter]
      split
      · next hkept => exact ih hkept h.2
      · refine .cons_cons (hR _ _ _ hsame h.1) (ih ?_ h.2)
        exact sameOccurrence_iff.mpr ⟨rfl, rfl, rfl⟩

/-- What holds between neighbours holds between neighbours of those kept, if it does not depend on
which location of an occurrence comes first. -/
theorem isChain_collapse_of_isChain {R : Location → Location → Prop}
    (hR : ∀ k l m, k.sameOccurrence l = true → R l m → R k m) {ls : List Location}
    (h : ls.IsChain R) :
  (collapse ls).IsChain R
  := by
  cases ls with
  | nil => exact .nil
  | cons l ls =>
      exact isChain_collapseAfter_of_isChain hR (sameOccurrence_iff.mpr ⟨rfl, rfl, rfl⟩) h

/-- What is kept ends with a location of the same occurrence. -/
theorem exists_collapse_eq (ls : List Location) (k : Location) :
  ∃ kept last, last.value = k.value ∧ collapse (ls ++ [k]) = kept ++ [last]
  := by
  obtain ⟨kept, last, hsame, heq⟩ := exists_collapse_append ls k
  exact ⟨kept, last, (sameOccurrence_iff.mp hsame).1, heq []⟩

end Location

/-! ### Finding a leaf -/

/-- An item is found where its text stands first. -/
theorem splitAtItem_append {value : String} {ls : List Location} {l : Location}
    (hfirst : ∀ k ∈ ls, k.value ≠ value) (hvalue : l.value = value) (rest : List Location) :
  splitAtItem value (ls ++ l :: rest) = some (l, rest)
  := by
  induction ls with
  | nil => simp [splitAtItem, hvalue]
  | cons m ls ih =>
      rw [List.forall_mem_cons] at hfirst
      rw [List.cons_append, splitAtItem, if_neg (by simpa using hfirst.1)]
      exact ih hfirst.2

/-- Any other leaf is found where it stands first behind its key. -/
theorem splitAtKeyed_append {key value : String} {ls : List Location} {k l : Location}
    (hfirst : (ls ++ [k]).IsChain fun k m => k.value = key → m.value ≠ value)
    (hkey : k.value = key) (hvalue : l.value = value) (rest : List Location) :
  splitAtKeyed key value (ls ++ k :: l :: rest) = some (l, rest)
  := by
  induction ls with
  | nil => simp [splitAtKeyed, hkey, hvalue]
  | cons m ls ih =>
      cases ls with
      | nil =>
          rw [List.cons_append, List.nil_append, List.isChain_cons_cons] at hfirst
          rw [List.cons_append, List.nil_append, splitAtKeyed, if_neg (by simpa using hfirst.1)]
          exact ih hfirst.2
      | cons n ls =>
          rw [List.cons_append, List.cons_append, List.isChain_cons_cons] at hfirst
          rw [List.cons_append, List.cons_append, splitAtKeyed, if_neg (by simpa using hfirst.1)]
          exact ih hfirst.2

theorem exists_append_of_splitAtItem {value : String} {ls rest : List Location} {l : Location}
    (h : splitAtItem value ls = some (l, rest)) :
  l.value = value ∧ ∃ before, ls = before ++ l :: rest
  := by
  induction ls with
  | nil => cases h
  | cons m ls ih =>
      rw [splitAtItem] at h
      split at h
      · next hvalue =>
        cases h
        exact ⟨by simpa using hvalue, [], rfl⟩
      · obtain ⟨hvalue, before, rfl⟩ := ih h
        exact ⟨hvalue, m :: before, rfl⟩

theorem exists_append_of_splitAtKeyed {key value : String} {ls rest : List Location} {l : Location}
    (h : splitAtKeyed key value ls = some (l, rest)) :
  l.value = value ∧ ∃ before, ls = before ++ l :: rest
  := by
  induction ls with
  | nil => cases h
  | cons k ls ih =>
      cases ls with
      | nil => cases h
      | cons m ls =>
          rw [splitAtKeyed] at h
          split at h
          · next hpair =>
            cases h
            simp only [Bool.and_eq_true, beq_iff_eq] at hpair
            exact ⟨hpair.2, [k], rfl⟩
          · obtain ⟨hvalue, before, heq⟩ := ih h
            exact ⟨hvalue, k :: before, by rw [heq]; rfl⟩

/-- A leaf is found at a location with its text, and what is left are the locations behind it. -/
theorem exists_append_of_splitAtLeaf {key value : String} {ls rest : List Location} {l : Location}
    (h : splitAtLeaf key value ls = some (l, rest)) :
  l.value = value ∧ ∃ before, ls = before ++ l :: rest
  := by
  rw [splitAtLeaf] at h
  split at h
  · exact exists_append_of_splitAtItem h
  · exact exists_append_of_splitAtKeyed h

/-- Whatever the locations are, the leaves keep their order, the locations given to them have their
texts, and no location is given twice. -/
theorem locateLeaves_sound (leaves : List (String × String)) (ls : List Location) :
  (locateLeaves leaves ls).map (fun leaf => (leaf.path, leaf.value)) = leaves ∧
    ((locateLeaves leaves ls).filterMap (·.location?)).Sublist ls ∧
    ∀ leaf ∈ locateLeaves leaves ls, ∀ l ∈ leaf.location?, l.value = leaf.value
  := by
  induction leaves generalizing ls with
  | nil => exact ⟨rfl, List.nil_sublist ls, fun _ h => nomatch h⟩
  | cons leaf leaves ih =>
      obtain ⟨path, value⟩ := leaf
      rw [locateLeaves]
      split
      · next l rest hfound =>
        obtain ⟨hvalue, before, rfl⟩ := exists_append_of_splitAtLeaf hfound
        obtain ⟨hleaves, hsublist, hvalues⟩ := ih rest
        refine ⟨by rw [List.map_cons, hleaves], ?_, ?_⟩
        · simp only [List.filterMap_cons]
          exact List.sublist_append_of_sublist_right (hsublist.cons_cons l)
        · rw [List.forall_mem_cons]
          refine ⟨?_, hvalues⟩
          intro m hm
          obtain rfl := Option.some.inj hm
          exact hvalue
      · obtain ⟨hleaves, hsublist, hvalues⟩ := ih ls
        refine ⟨by rw [List.map_cons, hleaves], ?_, ?_⟩
        · simpa only [List.filterMap_cons] using hsublist
        · rw [List.forall_mem_cons]
          refine ⟨?_, hvalues⟩
          intro m hm
          cases hm

/-! ### Leaves that are found where they stand -/

/-- A word with its location: a leaf with its path, or a key. -/
structure Spot where
  path? : Option String
  location : Location

/-- A key. -/
def Spot.key (l : Location) : Spot :=
  ⟨none, l⟩

/-- The path and the text of a leaf. -/
def Spot.text? (s : Spot) : Option (String × String) :=
  s.path?.map fun path => (path, s.location.value)

/-- A leaf with its own location. -/
def Spot.leaf? (s : Spot) : Option Leaf :=
  s.path?.map fun path => ⟨path, s.location.value, some s.location⟩

/-- A leaf can be found where it stands, if `keys` stand between the leaf before and it, and `next?`
behind it. Neither of its neighbours is of the same occurrence. If it is an item, none of the keys
has its text; otherwise the last key of its path is right in front of it, and no key with its text
is behind a key like that. -/
structure StandsApart (keys : List Location) (path : String) (l : Location)
    (next? : Option Location) : Prop where
  before : ∀ k ∈ keys.getLast?, k.sameOccurrence l = false
  after : ∀ m ∈ next?, l.sameOccurrence m = false
  item : isIndexKey (lastKey path) = true → ∀ k ∈ keys, k.value ≠ l.value
  keyed : isIndexKey (lastKey path) = false →
    keys.getLast?.map (·.value) = some (lastKey path) ∧
      keys.IsChain fun k m => k.value = lastKey path → m.value ≠ l.value

/-- All leaves among words can be found where they stand, if `keys` are in front of the first word
since the leaf before. -/
def AllApart : List Location → List Spot → Prop
  | _, [] => True
  | keys, ⟨none, l⟩ :: spots => AllApart (keys ++ [l]) spots
  | keys, ⟨some path, l⟩ :: spots =>
    StandsApart keys path l (spots.head?.map (·.location)) ∧ AllApart [] spots

instance {keys : List Location} {path : String} {l : Location} {next? : Option Location} :
    Decidable (StandsApart keys path l next?) :=
  decidable_of_iff (_ ∧ _ ∧ _ ∧ _)
    ⟨fun ⟨hbefore, hafter, hitem, hkeyed⟩ => ⟨hbefore, hafter, hitem, hkeyed⟩,
      fun ⟨hbefore, hafter, hitem, hkeyed⟩ => ⟨hbefore, hafter, hitem, hkeyed⟩⟩

instance decidableAllApart :
    (keys : List Location) → (spots : List Spot) → Decidable (AllApart keys spots)
  | _, [] => isTrue trivial
  | keys, ⟨none, l⟩ :: spots => decidableAllApart (keys ++ [l]) spots
  | _, ⟨some _, _⟩ :: spots =>
    have := decidableAllApart [] spots
    inferInstanceAs (Decidable (_ ∧ _))

theorem StandsApart.splitAtLeaf_eq {keys rest : List Location} {path : String} {l : Location}
    (h : StandsApart keys path l rest.head?) :
  splitAtLeaf (lastKey path) l.value (Location.collapse (keys ++ l :: rest))
    = some (l, Location.collapse rest)
  := by
  rw [Location.collapse_append_cons h.before h.after, splitAtLeaf]
  split
  · next hindex =>
    apply splitAtItem_append _ rfl
    intro k hk
    exact h.item hindex k ((Location.collapse_sublist keys).subset hk)
  · next hindex =>
    obtain ⟨hlast, hchain⟩ := h.keyed (by simpa using hindex)
    obtain ⟨k, hk, hkey⟩ := Option.map_eq_some_iff.mp hlast
    obtain ⟨keys', rfl⟩ := List.getLast?_eq_some_iff.mp hk
    have hkept := Location.isChain_collapse_of_isChain (fun k l m hsame hpair hkey =>
      hpair ((Location.sameOccurrence_iff.mp hsame).1.symm.trans hkey)) hchain
    obtain ⟨kept, last, hvalue, heq⟩ := Location.exists_collapse_eq keys' k
    rw [heq] at hkept ⊢
    rw [List.append_assoc, List.singleton_append]
    exact splitAtKeyed_append hkept (hvalue.trans hkey) rfl _

/-- Leaves that can be found where they stand are given their own locations. -/
theorem AllApart.locateLeaves_eq {keys : List Location} {spots : List Spot}
    (h : AllApart keys spots) :
  locateLeaves (spots.filterMap Spot.text?)
      (Location.collapse (keys ++ spots.map (·.location)))
    = spots.filterMap Spot.leaf?
  := by
  induction spots generalizing keys with
  | nil => rfl
  | cons s spots ih =>
      obtain ⟨path?, l⟩ := s
      cases path? with
      | none =>
          rw [List.filterMap_cons_none rfl, List.filterMap_cons_none rfl, List.map_cons,
            List.append_cons]
          exact ih h
      | some path =>
          obtain ⟨hleaf, hspots⟩ := h
          rw [← List.head?_map] at hleaf
          have htext : Spot.text? ⟨some path, l⟩ = some (path, l.value) := rfl
          have hown : Spot.leaf? ⟨some path, l⟩ = some ⟨path, l.value, some l⟩ := rfl
          rw [List.filterMap_cons_some htext, List.filterMap_cons_some hown, List.map_cons,
            locateLeaves, hleaf.splitAtLeaf_eq]
          exact congrArg _ (ih hspots)

/-! ### Words of a tree -/

/-- The leaves that a value has at `path`. -/
def leavesOfValue (path : String) (v : Yaml.Value) : List (String × String) :=
  match Attribute.ofValue? v with
  | some a => a.leaves path
  | none => []

theorem leavesOf_attributesOfItems (path : String) (i : Nat) (v : Yaml.Value)
    (vs : List Yaml.Value) :
  leavesOf path (attributesOfItems i (v :: vs))
    = leavesOfValue (entryPath path (toString i)) v ++ leavesOf path (attributesOfItems (i + 1) vs)
  := by
  rw [attributesOfItems, leavesOfValue]
  cases Attribute.ofValue? v <;> rfl

theorem leavesOf_attributesOfEntries (path key : String) (v : Yaml.Value)
    (vs : List (String × Yaml.Value)) :
  leavesOf path (attributesOfEntries ((key, v) :: vs))
    = leavesOfValue (entryPath path key) v ++ leavesOf path (attributesOfEntries vs)
  := by
  rw [attributesOfEntries, leavesOfValue]
  cases Attribute.ofValue? v <;> rfl

namespace Yaml

/-- A word of a tree: a leaf with its path, or a key. -/
structure Word where
  path? : Option String
  visit : Visit

variable (sealedTags : List String)

/-- Whether a node is a scalar that stands for null. -/
def Node.isNull : Node → Bool
  | .scalar _ style text p =>
    !Assembly.isSealed sealedTags p && (style == .plain && Assembly.isNullText text)
  | _ => false

namespace Node

mutual

/-- The words of a node at `path`, in the order of the text. -/
def words : Node → String → Site → Anchors → List Word
  | .reference .., _, _, _ => []
  | .scalar mark style text p, path, site, anchors =>
    if (scalar mark style text p).isNull sealedTags then []
    else [⟨some path, .scalar mark style text p, site, anchors⟩]
  | .sequence _ p items _, path, site, anchors =>
    wordsOf 0 items path (site.item (p.IsSealedBy sealedTags)) anchors
  | .mapping _ _ entries _, path, site, anchors => wordsOfEntries entries path site anchors

/-- The words of items of the sequence at `path`, of which the first has number `i`. -/
def wordsOf : Nat → List Node → String → Site → Anchors → List Word
  | _, [], _, _, _ => []
  | i, n :: ns, path, site, anchors =>
    n.words (entryPath path (toString i)) site anchors
      ++ wordsOf (i + 1) ns path site (n.meaning sealedTags anchors).2

/-- The words of entries of the mapping at `path`. -/
def wordsOfEntries : List (Node × Node) → String → Site → Anchors → List Word
  | [], _, _, _ => []
  | (key, n) :: entries, path, site, anchors =>
    let (k, between) := key.meaning sealedTags anchors
    ⟨none, key, site.entry true, anchors⟩
      :: (n.words (entryPath path (keyText k)) (site.entry false) between
        ++ wordsOfEntries entries path site (n.meaning sealedTags between).2)

end

end Node

/-- The words inside of a collection. -/
def Visit.words (v : Visit) : List Word :=
  match v.node with
  | .reference .. | .scalar .. => []
  | .sequence _ p items _ =>
    Node.wordsOf sealedTags 0 items "" (v.site.item (p.IsSealedBy sealedTags)) v.anchors
  | .mapping _ _ entries _ => Node.wordsOfEntries sealedTags entries "" v.site v.anchors

end Yaml

open Yaml (Word)

namespace Source

variable (x : Source)

/-- A scalar stands in the text where its node begins. -/
def Stands (v : Visit) : Prop :=
  ∃ c ∈ x.closing? v, ∃ value ∈ c.value.asText, c.StandsVerbatim x.text value

/-- A node is written as what it is: it is no reference, a scalar stands where it begins unless it
is null, and a key is a scalar that is not null. -/
def IsPlain (v : Visit) : Prop :=
  match v.node with
  | .reference .. => False
  | .scalar .. => x.Stands v ∨ v.node.isNull x.sealedTags = true ∧ v.site.isKey = false
  | .sequence .. | .mapping .. => v.site.isKey = false

instance (v : Visit) : Decidable (x.Stands v) :=
  inferInstanceAs (Decidable (∃ c ∈ x.closing? v, ∃ value ∈ c.value.asText, _))

instance : DecidablePred x.IsPlain
  | ⟨.reference .., _, _⟩ => isFalse id
  | ⟨.scalar .., _, _⟩ => inferInstanceAs (Decidable (_ ∨ _ ∧ _))
  | ⟨.sequence .., _, _⟩ | ⟨.mapping .., _, _⟩ => inferInstanceAs (Decidable (_ = false))

/-- The locations of words. -/
def spots (ws : List Word) : List Spot :=
  ws.filterMap fun w => (x.location? w.visit).map fun l => ⟨w.path?, l⟩

/-- A scalar has its location where it begins. -/
def Located (v : Visit) : Prop :=
  ∃ c l, x.closing? v = some c ∧ x.location? v = some l ∧ c.value = .scalar l.value ∧
    l.line = c.line ∧ l.startCol = c.column

/-- The words among nodes have their own locations, and the leaves among these words are the given
ones. -/
structure Spells (vs : List Visit) (leaves : List (String × String)) (ws : List Word) : Prop where
  located_eq : x.located vs = (x.spots ws).map (·.location)
  leaves_eq : leaves = (x.spots ws).filterMap Spot.text?
  located : ∀ w ∈ ws, x.Located w.visit

variable {x} {vs vs' : List Visit} {leaves leaves' : List (String × String)} {ws ws' : List Word}
  {v : Visit}

theorem spots_append (ws ws' : List Word) :
  x.spots (ws ++ ws') = x.spots ws ++ x.spots ws'
  := List.filterMap_append

theorem Spells.nil :
  x.Spells [] [] []
  := ⟨rfl, rfl, fun _ h => nomatch h⟩

theorem Spells.append (h : x.Spells vs leaves ws) (h' : x.Spells vs' leaves' ws') :
  x.Spells (vs ++ vs') (leaves ++ leaves') (ws ++ ws')
  := by
  refine ⟨?_, ?_, ?_⟩
  · rw [located_append, spots_append, List.map_append, h.located_eq, h'.located_eq]
  · rw [spots_append, List.filterMap_append, ← h.leaves_eq, ← h'.leaves_eq]
  · rw [List.forall_mem_append]
    exact ⟨h.located, h'.located⟩

/-- A node without a location is no word. -/
theorem Spells.append_silent (h : x.Spells vs leaves ws) (hv : x.location? v = none) :
  x.Spells (vs ++ [v]) leaves ws
  := by
  refine ⟨?_, h.leaves_eq, h.located⟩
  rw [located_append, located_singleton, hv, ← h.located_eq]
  apply List.append_nil

theorem spells_singleton (hv : x.Located v) (path? : Option String) {text : String}
    (htext : (v.node.meaning x.sealedTags v.anchors).1 = .scalar text) :
  x.Spells [v] (path?.map fun path => (path, text)).toList [⟨path?, v⟩]
  := by
  have hv' := hv
  obtain ⟨c, l, hc, hl, hvalue, -⟩ := hv'
  have hspots : x.spots [⟨path?, v⟩] = [⟨path?, l⟩] := by
    simp [spots, hl]
  refine ⟨?_, ?_, ?_⟩
  · rw [located_singleton, hl, hspots]
    rfl
  · obtain rfl : text = l.value := by
      have h := (Visit.told_of_closing? hc).value_eq
      rw [htext, hvalue] at h
      exact Yaml.Value.scalar.inj h
    rw [hspots]
    cases path? <;> rfl
  · intro w hw
    obtain rfl := List.mem_singleton.mp hw
    exact hv

/-- A node whose value is no text has no location. -/
theorem location?_eq_none
    (h : ∀ text, (v.node.meaning x.sealedTags v.anchors).1 ≠ .scalar text) :
  x.location? v = none
  := by
  rw [Option.eq_none_iff_forall_ne_some]
  intro l hl
  obtain ⟨c, hc, hl⟩ := Option.bind_eq_some_iff.mp hl
  have hfound := Closing.location?_eq_some_iff.mp hl
  exact h l.value ((Visit.told_of_closing? hc).value_eq.trans hfound.value_eq)

theorem Stands.exists_meaning_eq (h : x.Stands v) :
  ∃ text, (v.node.meaning x.sealedTags v.anchors).1 = .scalar text
  := by
  obtain ⟨c, hc, text, -, hstands⟩ := h
  exact ⟨text, (Visit.told_of_closing? hc).value_eq.trans hstands.value_eq⟩

theorem Stands.located (h : x.Stands v) (hdepth : v.site.around.length ≠ 2) :
  x.Located v
  := by
  obtain ⟨c, hc, text, -, hstands⟩ := h
  obtain ⟨l, hl, rfl, hline, hcolumn⟩ := exists_location?_eq hc hstands hdepth
  exact ⟨c, l, hc, hl, hstands.value_eq, hline, hcolumn⟩

/-- A key that is written as what it is stands where it begins. -/
theorem IsPlain.stands_key {key : Node} {site : Site} {anchors : Anchors}
    (h : x.IsPlain ⟨key, site.entry true, anchors⟩) :
  x.Stands ⟨key, site.entry true, anchors⟩ ∧
    key.visits x.sealedTags (site.entry true) anchors = [⟨key, site.entry true, anchors⟩]
  := by
  cases key with
  | reference => exact absurd h id
  | scalar =>
      obtain hstands | ⟨-, hkey⟩ := h
      · exact ⟨hstands, rfl⟩
      · cases hkey
  | sequence => cases h
  | mapping => cases h

end Source

namespace Yaml.Node

variable {x : Source}

theorem meaning_of_isNull {n : Node} {sealedTags : List String} (h : n.isNull sealedTags = true)
    (anchors : Anchors) :
  (n.meaning sealedTags anchors).1 = .null
  := by
  cases n with
  | scalar mark style text p =>
      simp only [isNull, Bool.and_eq_true, Bool.not_eq_true'] at h
      simp [meaning, Assembly.scalarValue, h]
  | _ => cases h

theorem spells_scalar {mark : Mark} {style : Style} {text : String} {p : Properties} {site : Site}
    {anchors : Anchors} (path : String)
    (hplain : x.IsPlain ⟨.scalar mark style text p, site, anchors⟩)
    (hdepth : site.around.length ≠ 2) :
  x.Spells [⟨.scalar mark style text p, site, anchors⟩]
    (leavesOfValue path ((scalar mark style text p).meaning x.sealedTags anchors).1)
    ((scalar mark style text p).words x.sealedTags path site anchors)
  := by
  obtain hstands | ⟨hnull, -⟩ := hplain
  · obtain ⟨text', hmeaning⟩ := hstands.exists_meaning_eq
    have hnull : ¬ (scalar mark style text p).isNull x.sealedTags = true := by
      intro hnull
      rw [meaning_of_isNull hnull] at hmeaning
      cases hmeaning
    have hword := Source.spells_singleton (hstands.located hdepth) (some path) hmeaning
    have hleaves : leavesOfValue path ((scalar mark style text p).meaning x.sealedTags anchors).1
        = [(path, text')] := by
      rw [hmeaning]
      rfl
    rw [words, if_neg hnull, hleaves]
    exact hword
  · have hmeaning := meaning_of_isNull hnull anchors
    rw [words, if_pos hnull, hmeaning]
    apply Source.Spells.nil.append_silent
    apply Source.location?_eq_none
    intro text'
    rw [hmeaning]
    exact Value.noConfusion

-- By recursion on the tree: a scalar is a word or null, a key is a word, and what a collection
-- spells is what its items or entries spell one after the other.
mutual

theorem spells : (n : Node) → (path : String) → (site : Site) → (anchors : Anchors) →
    (∀ v ∈ n.visits x.sealedTags site anchors, x.IsPlain v ∧ v.site.around.length ≠ 2) →
    x.Spells (n.visits x.sealedTags site anchors)
      (leavesOfValue path (n.meaning x.sealedTags anchors).1)
      (n.words x.sealedTags path site anchors)
  | .reference mark anchor, path, site, anchors, hplain => by
      have h := (hplain _ List.mem_cons_self).1
      exact absurd h id
  | .scalar mark style text p, path, site, anchors, hplain => by
      obtain ⟨hscalar, hdepth⟩ := hplain _ List.mem_cons_self
      exact spells_scalar path hscalar hdepth
  | .sequence start p items finish, path, site, anchors, hplain => by
      rw [visits, List.forall_mem_append] at hplain
      have hitems := spellsOf items 0 path _ anchors hplain.1
      exact hitems.append_silent (Source.location?_eq_none fun _ => Value.noConfusion)
  | .mapping start p entries finish, path, site, anchors, hplain => by
      rw [visits, List.forall_mem_append] at hplain
      have hentries := spellsOfEntries entries path site anchors hplain.1
      exact hentries.append_silent (Source.location?_eq_none fun _ => Value.noConfusion)

theorem spellsOf : (ns : List Node) → (i : Nat) → (path : String) → (site : Site) →
    (anchors : Anchors) →
    (∀ v ∈ visitsOf x.sealedTags ns site anchors, x.IsPlain v ∧ v.site.around.length ≠ 2) →
    x.Spells (visitsOf x.sealedTags ns site anchors)
      (leavesOf path (attributesOfItems i (meaningOf x.sealedTags ns anchors).1))
      (wordsOf x.sealedTags i ns path site anchors)
  | [], i, path, site, anchors, _ => Source.Spells.nil
  | n :: ns, i, path, site, anchors, hplain => by
      rw [visitsOf, List.forall_mem_append] at hplain
      rw [visitsOf, meaningOf, wordsOf, leavesOf_attributesOfItems]
      exact (spells n _ site anchors hplain.1).append (spellsOf ns (i + 1) path site _ hplain.2)

theorem spellsOfEntries : (entries : List (Node × Node)) → (path : String) → (site : Site) →
    (anchors : Anchors) →
    (∀ v ∈ visitsOfEntries x.sealedTags entries site anchors,
      x.IsPlain v ∧ v.site.around.length ≠ 2) →
    x.Spells (visitsOfEntries x.sealedTags entries site anchors)
      (leavesOf path (attributesOfEntries (meaningOfEntries x.sealedTags entries anchors).1))
      (wordsOfEntries x.sealedTags entries path site anchors)
  | [], path, site, anchors, _ => Source.Spells.nil
  | (key, n) :: entries, path, site, anchors, hplain => by
      rw [visitsOfEntries, List.forall_mem_append, List.forall_mem_append] at hplain
      obtain ⟨hkey, hn, hentries⟩ := hplain
      have hkey := hkey ⟨key, site.entry true, anchors⟩ (mem_visits_self key _ anchors)
      obtain ⟨hstands, hvisits⟩ := hkey.1.stands_key
      obtain ⟨text, htext⟩ := hstands.exists_meaning_eq
      have hword := Source.spells_singleton (hstands.located hkey.2) none htext
      rw [visitsOfEntries, meaningOfEntries, wordsOfEntries, leavesOf_attributesOfEntries, hvisits]
      exact hword.append ((spells n _ _ _ hn).append (spellsOfEntries entries path site _ hentries))

end

end Yaml.Node

namespace Source

variable {x : Source} {docs : List Root} {scopes : List Scope} {scope : Scope} {job : Job}
  {b : Entry} {m : Visit} {leaves : List (String × String)}

/-- What the body of a job spells. -/
theorem spells_body (hbody : x.IsPlain m)
    (hplain : ∀ v ∈ m.below x.sealedTags, x.IsPlain v ∧ v.site.around.length ≠ 2) :
  x.Spells (m.below x.sealedTags)
    (leavesOf "" (Attributes.ofValue (m.node.meaning x.sealedTags m.anchors).1))
    (m.words x.sealedTags)
  := by
  obtain ⟨n, site, anchors⟩ := m
  cases n with
  | reference => exact absurd hbody id
  | scalar =>
      obtain hstands | ⟨hnull, -⟩ := hbody
      · obtain ⟨text, htext⟩ := hstands.exists_meaning_eq
        rw [htext]
        exact Spells.nil
      · rw [Node.meaning_of_isNull hnull]
        exact Spells.nil
  | sequence start p items finish => exact Node.spellsOf items 0 "" _ anchors hplain
  | mapping start p entries finish => exact Node.spellsOfEntries entries "" site anchors hplain

variable (x) in
/-- The words of a job: those of its body, and behind them what follows the body in its record. -/
def jobSpots (r : Visit) (b : Entry) : List Spot :=
  x.spots ((x.body r b).words x.sealedTags) ++
    (x.located (x.body r b :: b.visitsAfter x.sealedTags r)).map Spot.key

theorem filterMap_jobSpots {α : Type} {f : Spot → Option α} (hf : ∀ l, f (.key l) = none)
    (r : Visit) (b : Entry) :
  (x.jobSpots r b).filterMap f = (x.spots ((x.body r b).words x.sealedTags)).filterMap f
  := by
  have hkeys : ∀ ls : List Location, (ls.map Spot.key).filterMap f = [] := by
    intro ls
    rw [List.filterMap_map, List.filterMap_eq_nil_iff]
    exact fun l _ => hf l
  rw [jobSpots, List.filterMap_append, hkeys, List.append_nil]

/-- The words of a job have the locations of its scope, if its body is written as what it is. -/
theorem HasBody.jobSpots_eq (hbody : x.HasBody scope.mapping b) (h : x.Scoped docs scopes)
    (hscope : scope ∈ scopes)
    (hspells : x.Spells ((x.body scope.mapping b).below x.sealedTags) leaves
      ((x.body scope.mapping b).words x.sealedTags)) :
  (x.jobSpots scope.mapping b).map (·.location) = x.located scope.nodes ∧
    (x.jobSpots scope.mapping b).filterMap Spot.text? = leaves
  := by
  constructor
  · have hkeys : (fun s : Spot => s.location) ∘ Spot.key = id := rfl
    rw [hbody.nodes_eq h hscope, located_append, hspells.located_eq, jobSpots, List.map_append,
      List.map_map, hkeys, List.map_id]
  · rw [filterMap_jobSpots fun _ => rfl, ← hspells.leaves_eq]

/-- The leaves of a job keep their order, what they are given are locations of the job with their
texts, and none is given twice. If the body of the job is written as what it is and all leaves can
be found where they stand, each leaf is given the location of its own scalar. -/
theorem locatedLeaves_eq (h : x.Scoped docs scopes) (hscope : scope ∈ scopes)
    (hjob : scope.record = .job job) :
  (job.locatedLeaves.map fun leaf => (leaf.path, leaf.value)) = job.leaves ∧
  (job.locatedLeaves.filterMap (·.location?)).Sublist job.locations ∧
  (∀ leaf ∈ job.locatedLeaves, ∀ l ∈ leaf.location?, l.value = leaf.value) ∧
  ∀ b, x.HasBody scope.mapping b →
    (∀ v ∈ x.body scope.mapping b :: (x.body scope.mapping b).below x.sealedTags, x.IsPlain v) →
    AllApart [] (x.jobSpots scope.mapping b) →
    job.locatedLeaves
        = (x.spots ((x.body scope.mapping b).words x.sealedTags)).filterMap Spot.leaf? ∧
      ∀ w ∈ (x.body scope.mapping b).words x.sealedTags, x.Located w.visit
  := by
  obtain ⟨hleaves, hsublist, hvalues⟩ := locateLeaves_sound job.leaves job.locations
  refine ⟨hleaves, hsublist, hvalues, ?_⟩
  clear hleaves hsublist hvalues
  intro b hbody hplain hapart
  rw [List.forall_mem_cons] at hplain
  obtain ⟨_, _, -, -, -, hends⟩ := h.segmented.exists_passed hscope
  have hinside : ∀ v ∈ (x.body scope.mapping b).below x.sealedTags,
      x.IsPlain v ∧ v.site.around.length ≠ 2 := by
    intro v hv
    have hdepth := Visit.length_around_lt hv
    simp only [body, Entry.valueVisit, Site.entry, hends.site_eq.1, List.length_cons,
      List.length_nil] at hdepth
    exact ⟨hplain.2 v hv, by omega⟩
  have hspells := spells_body hplain.1 hinside
  refine ⟨?_, hspells.located⟩
  obtain ⟨hlocations, htexts⟩ := hbody.jobSpots_eq h hscope hspells
  obtain rfl := Record.job.inj (hjob.symm.trans (hbody.record_eq (h.records scope hscope)))
  have hfound := hapart.locateLeaves_eq
  rw [List.nil_append, hlocations, htexts, filterMap_jobSpots fun _ => rfl] at hfound
  exact hfound

/-- Texts that stand twice are found in their own places. -/
theorem locatedLeaves_eq_repeated :
  let x : Source := ⟨[], ⟨"a.yaml"⟩, "- job: \x7bname: a, b: [c, a], d: \x7bname: c\x7d\x7d\n"⟩
  ∃ job ∈ x.document.jobs, job.locatedLeaves.map
      (fun leaf => (leaf.path, leaf.value, leaf.location?.map fun l => (l.line, l.startCol)))
    = [("name", "a", some (0, 14)), ("b.0", "c", some (0, 21)), ("b.1", "a", some (0, 24)),
      ("d.name", "c", some (0, 38))]
  := by
  intro x
  let plain (col : Nat) (text : String) : Node := .scalar ⟨col, 1, col⟩ .plain text .none
  let items : Node := .sequence ⟨20, 1, 20⟩ .none [plain 21 "c", plain 24 "a"] ⟨25, 1, 25⟩
  let other : Node := .mapping ⟨31, 1, 31⟩ .none [(plain 32 "name", plain 38 "c")] ⟨39, 1, 39⟩
  let body : Node := .mapping ⟨7, 1, 7⟩ .none
    [(plain 8 "name", plain 14 "a"), (plain 17 "b", items), (plain 28 "d", other)] ⟨40, 1, 40⟩
  let b : Entry := ⟨[], plain 2 "job", body, []⟩
  let finish : Yaml.Mark := ⟨42, 2, 0⟩
  let record : Node := .mapping ⟨5, 1, 5⟩ .none [(b.key, b.value)] finish
  let doc : Root := ⟨⟨0, 1, 0⟩, .sequence ⟨0, 1, 0⟩ .none [record] finish, finish⟩
  let r : Visit := ⟨record, Site.root.item false, Yaml.Assembly.known []⟩
  have hwrites : Writes x.text [doc] := ⟨by decide +kernel, by decide +kernel⟩
  have hbody : x.HasBody r b := ⟨⟨_, _, _, rfl⟩, rfl, rfl, rfl, nofun⟩
  have hplain : ∀ v ∈ x.body r b :: (x.body r b).below x.sealedTags, x.IsPlain v := by
    decide +kernel
  have hapart : AllApart [] (x.jobSpots r b) := by decide +kernel
  obtain ⟨scopes, scope, hscope, job, h, hmapping, hjob⟩ := hbody.exists_job rfl hwrites rfl rfl
  rw [← hmapping] at hbody hplain hapart
  obtain ⟨-, -, -, hown⟩ := locatedLeaves_eq h hscope hjob
  obtain ⟨hleaves, -⟩ := hown b hbody hplain hapart
  refine ⟨job, h.mem_jobs hscope hjob, ?_⟩
  rw [hleaves, hmapping]
  decide +kernel

/-- A leaf that is its own key has no location, an item is found at a key with its text, and a leaf
behind a key with a dot or behind a key that is the leaf before has none. -/
theorem locatedLeaves_elsewhere :
  let found (text : String) : List (String × Option (Nat × Nat)) :=
    ((Document.parse [] ⟨"a.yaml"⟩ text).1.jobs.flatMap Job.locatedLeaves).map
      fun leaf => (leaf.path, leaf.location?.map fun l => (l.line, l.startCol))
  let standing (text : String) : List (Nat × Nat) :=
    ((Document.nodes [] text).filter fun c => c.kind == .scalar && !c.isKey).map
      fun c => (c.line, c.column)
  let compared (text : String) := (found text, standing text)
  compared "- job:\n    name: name\n" = ([("name", none)], [(1, 10)]) ∧
    compared "- job:\n    roles:\n      - roles\n" = ([("roles.0", some (1, 4))], [(2, 8)]) ∧
    compared "- job:\n    a.b: c\n" = ([("a.b", none)], [(1, 9)]) ∧
    compared "- job: \x7ba: b, b: c\x7d\n"
      = ([("a", some (0, 11)), ("b", none)], [(0, 11), (0, 17)])
  := by
  refine ⟨?_, ?_, ?_, ?_⟩ <;> decide +kernel

end Source

end JobIndex
