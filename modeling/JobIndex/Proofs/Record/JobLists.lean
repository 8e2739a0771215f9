import JobIndex.Record.Reading

/-!
# The jobs that a template names

The jobs named by a template are collected on one walk through its attributes, which adds each name
to those found so far. Without these, the walk has the names in their order, some of them twice
(`namesBelow`); adding them one by one is what the walk does.

Which names these are is told of the body of the template itself. A value mentions a name if a list
below it, under one of the keys for lists, names it (`Yaml.Value.Mentions`, `Yaml.Value.Lists`). An
item of a list names a job by its text, by the key `name` of a mapping, or by its keys
(`Yaml.Value.Names`). Since a sequence is kept as a group whose keys are the numbers of its items,

* the value of a key that is made of digits is taken for an item;
* a key without a value is not kept;
* of an item with a name, nothing else is read;
* of an item that is a sequence, the numbers are the keys.
-/

namespace JobIndex

/-! ### The walk without the names found so far -/

mutual

/-- The names in the lists below an attribute. -/
def Attribute.mentioned : Attribute → List String
  | .scalar _ => []
  | .group entries => namesBelow entries

/-- The names in the lists below entries. -/
def namesBelow : List (String × Attribute) → List String
  | [] => []
  | (key, a) :: entries =>
    (if isJobListKey key then a.listed else a.mentioned) ++ namesBelow entries

/-- The names that an attribute has as a list. -/
def Attribute.listed : Attribute → List String
  | .scalar value => [value]
  | .group entries => namesListed entries

/-- The names that the keys of entries are, each with those in the lists below it. -/
def namesOfKeys : List (String × Attribute) → List String
  | [] => []
  | (key, a) :: entries => (key :: a.mentioned) ++ namesOfKeys entries

/-- The names that an attribute has as an item of a list. -/
def Attribute.itemNames : Attribute → List String
  | .scalar value => [value]
  | .group fields =>
    match Attributes.scalar? fields "name" with
    | some name => [name]
    | none => namesOfKeys fields

/-- The names that entries have as a list. -/
def namesListed : List (String × Attribute) → List String
  | [] => []
  | (key, a) :: entries =>
    (if isIndexKey key then a.itemNames else key :: a.mentioned) ++ namesListed entries

end

-- Each walk adds, to the names found so far, those that it has without them.
mutual

theorem addListed_eq (names : List String) (key : String) : (a : Attribute) →
    a.addListed names key = (if isJobListKey key then a.listed else a.mentioned).foldl addName names
  | .scalar value => by
      rw [Attribute.addListed]
      split <;> rfl
  | .group entries => by
      rw [Attribute.addListed]
      split
      · exact addList_eq names entries
      · exact addBelow_eq names entries

theorem addBelow_eq (names : List String) : (entries : List (String × Attribute)) →
    addBelow names entries = (namesBelow entries).foldl addName names
  | [] => rfl
  | (key, a) :: entries => by
      rw [addBelow, addListed_eq names key a, addBelow_eq _ entries, namesBelow, List.foldl_append]

theorem addConfigured_eq (names : List String) : (a : Attribute) →
    a.addConfigured names = a.mentioned.foldl addName names
  | .scalar _ => rfl
  | .group config => addBelow_eq names config

theorem addKeys_eq (names : List String) : (entries : List (String × Attribute)) →
    addKeys names entries = (namesOfKeys entries).foldl addName names
  | [] => rfl
  | (key, a) :: entries => by
      rw [addKeys, addConfigured_eq _ a, addKeys_eq _ entries, namesOfKeys, List.foldl_append,
        List.foldl_cons]

theorem addItem_eq (names : List String) : (a : Attribute) →
    a.addItem names = a.itemNames.foldl addName names
  | .scalar _ => rfl
  | .group fields => by
      rw [Attribute.addItem, Attribute.itemNames]
      cases Attributes.scalar? fields "name" with
      | none => exact addKeys_eq names fields
      | some name => rfl

theorem addList_eq (names : List String) : (entries : List (String × Attribute)) →
    addList names entries = (namesListed entries).foldl addName names
  | [] => rfl
  | (key, a) :: entries => by
      rw [addList, addList_eq _ entries, namesListed, List.foldl_append, addItem_eq names a,
        addConfigured_eq _ a]
      split <;> rfl

end

theorem mem_addName {x name : String} {names : List String} :
  x ∈ addName names name ↔ x ∈ names ∨ (x ≠ "" ∧ x = name)
  := by
  rw [addName]
  split
  · next h =>
    rw [Bool.or_eq_true, beq_iff_eq, List.contains_iff_mem] at h
    constructor
    · exact Or.inl
    · rintro (hx | ⟨hne, rfl⟩)
      · exact hx
      · apply h.resolve_left hne
  · next h =>
    rw [Bool.or_eq_true, beq_iff_eq, not_or] at h
    rw [List.mem_append, List.mem_singleton]
    constructor
    · rintro (hx | rfl)
      · exact Or.inl hx
      · exact Or.inr ⟨h.1, rfl⟩
    · apply Or.imp_right And.right

/-- What adding names one by one ends with. -/
theorem mem_foldl_addName {x : String} {names given : List String} :
  x ∈ given.foldl addName names ↔ x ∈ names ∨ (x ≠ "" ∧ x ∈ given)
  := by
  induction given generalizing names with
  | nil => simp
  | cons name given ih =>
      rw [List.foldl_cons, ih, mem_addName, List.mem_cons, or_assoc, ← and_or_left]

/-- The jobs that attributes name are those of the walk, if they are not empty. -/
theorem mem_jobReferences {name : String} {attributes : Attributes} :
  name ∈ jobReferences attributes ↔ name ≠ "" ∧ name ∈ namesBelow attributes
  := by
  rw [jobReferences, addBelow_eq, mem_foldl_addName]
  simp

/-! ### Entries one by one -/

section

variable (entries : List (String × Attribute))

theorem namesBelow_eq :
  namesBelow entries = entries.flatMap fun entry =>
    if isJobListKey entry.1 then entry.2.listed else entry.2.mentioned
  := by
  induction entries with
  | nil => rfl
  | cons entry entries ih => rw [namesBelow, ih, List.flatMap_cons]

theorem namesOfKeys_eq :
  namesOfKeys entries = entries.flatMap fun entry => entry.1 :: entry.2.mentioned
  := by
  induction entries with
  | nil => rfl
  | cons entry entries ih => rw [namesOfKeys, ih, List.flatMap_cons]

theorem namesListed_eq :
  namesListed entries = entries.flatMap fun entry =>
    if isIndexKey entry.1 then entry.2.itemNames else entry.1 :: entry.2.mentioned
  := by
  induction entries with
  | nil => rfl
  | cons entry entries ih => rw [namesListed, ih, List.flatMap_cons]

end

/-- The attributes of a mapping are those of its entries that have a value. -/
theorem mem_attributesOfEntries {key : String} {a : Attribute}
    {entries : List (String × Yaml.Value)} :
  (key, a) ∈ attributesOfEntries entries
    ↔ ∃ v, (key, v) ∈ entries ∧ Attribute.ofValue? v = some a
  := by
  have heq : attributesOfEntries entries = entries.filterMap fun entry =>
      (Attribute.ofValue? entry.2).map (Prod.mk entry.1) := by
    induction entries with
    | nil => rfl
    | cons entry entries ih =>
        obtain ⟨own, v⟩ := entry
        rw [attributesOfEntries, List.filterMap_cons, ih]
        cases Attribute.ofValue? v <;> rfl
  simp only [heq, List.mem_filterMap, Prod.exists, Option.map_eq_some_iff, Prod.mk.injEq]
  constructor
  · rintro ⟨own, v, hv, b, hb, rfl, rfl⟩
    exact ⟨v, hv, hb⟩
  · rintro ⟨v, hv, ha⟩
    exact ⟨key, v, hv, a, ha, rfl, rfl⟩

/-- The items of a sequence as the entries of a mapping, of which the first has the key `i`. -/
def numbered (i : Nat) (items : List Yaml.Value) : List (String × Yaml.Value) :=
  (items.zipIdx i).map fun item => (toString item.2, item.1)

/-- The attributes of a sequence are those of a mapping with numbers as keys. -/
theorem attributesOfItems_eq (i : Nat) (items : List Yaml.Value) :
  attributesOfItems i items = attributesOfEntries (numbered i items)
  := by
  induction items generalizing i with
  | nil => rfl
  | cons v items ih =>
      rw [attributesOfItems, ih, numbered, numbered, List.zipIdx_cons, List.map_cons,
        attributesOfEntries]

theorem mem_numbered {key : String} {v : Yaml.Value} {items : List Yaml.Value} :
  (key, v) ∈ numbered 0 items ↔ ∃ i : Nat, items[i]? = some v ∧ toString i = key
  := by
  simp only [numbered, List.mem_map, Prod.exists, Prod.mk.injEq, List.mem_zipIdx_iff_getElem?]
  constructor
  · rintro ⟨w, i, hi, hkey, rfl⟩
    exact ⟨i, hi, hkey⟩
  · rintro ⟨i, hi, hkey⟩
    exact ⟨v, i, hi, hkey, rfl⟩

/-- The number of an item is made of digits. -/
theorem isIndexKey_toString (i : Nat) :
  isIndexKey (toString i) = true
  := by
  rw [isIndexKey, Nat.toString_eq_ofList_toDigits, Bool.and_eq_true, bne_iff_ne]
  constructor
  · intro h
    have hlist := congrArg String.toList h
    rw [String.toList_ofList] at hlist
    exact Nat.toDigits_ne_nil hlist
  · rw [String.toList_ofList, List.all_eq_true]
    intro c hc
    have hdigit := Nat.isDigit_of_mem_toDigits (by decide) (by decide) hc
    simpa [Char.isDigit, Char.le_def] using hdigit

/-- The number of an item is not a word. -/
theorem toString_ne {i : Nat} {key : String} (hkey : isIndexKey key = false) :
  toString i ≠ key
  := by
  rintro rfl
  rw [isIndexKey_toString] at hkey
  cases hkey

theorem isJobListKey_toString (i : Nat) :
  isJobListKey (toString i) = false
  := by
  rw [isJobListKey, Bool.or_eq_false_iff, beq_eq_false_iff_ne, beq_eq_false_iff_ne]
  exact ⟨toString_ne rfl, toString_ne rfl⟩

/-! ### What a template says -/

namespace Yaml.Value

/-- The text at the key `name` of a mapping, of which the first entry with a value counts. -/
def objectName? (entries : List (String × Value)) : Option String :=
  Attributes.scalar? (attributesOfEntries entries) "name"

mutual

/-- A value mentions a name: a list below it does. -/
inductive Mentions (name : String) : Value → Prop where
  | list {entries : List (String × Value)} {key : String} {v : Value} :
      (key, v) ∈ entries → isJobListKey key = true → Lists name v → Mentions name (.mapping entries)
  | entry {entries : List (String × Value)} {key : String} {v : Value} :
      (key, v) ∈ entries → isJobListKey key = false → Mentions name v →
      Mentions name (.mapping entries)
  | item {items : List Value} {v : Value} :
      v ∈ items → Mentions name v → Mentions name (.sequence items)

/-- A value that stands for a list names a job, or its entries mention one. -/
inductive Lists (name : String) : Value → Prop where
  | scalar : Lists name (.scalar name)
  | item {items : List Value} {v : Value} :
      v ∈ items → Names name v → Lists name (.sequence items)
  | numbered {entries : List (String × Value)} {key : String} {v : Value} :
      (key, v) ∈ entries → isIndexKey key = true → Names name v → Lists name (.mapping entries)
  | key {entries : List (String × Value)} {v : Value} :
      (name, v) ∈ entries → isIndexKey name = false → v ≠ .null → Lists name (.mapping entries)
  | entry {entries : List (String × Value)} {key : String} {v : Value} :
      (key, v) ∈ entries → isIndexKey key = false → Mentions name v → Lists name (.mapping entries)

/-- An item of a list names a job, or its entries mention one. -/
inductive Names (name : String) : Value → Prop where
  | scalar : Names name (.scalar name)
  | object {entries : List (String × Value)} :
      objectName? entries = some name → Names name (.mapping entries)
  | key {entries : List (String × Value)} {v : Value} :
      objectName? entries = none →
      (name, v) ∈ entries → v ≠ .null → Names name (.mapping entries)
  | entry {entries : List (String × Value)} {key : String} {v : Value} :
      objectName? entries = none →
      (key, v) ∈ entries → Mentions name v → Names name (.mapping entries)
  | place {items : List Value} {i : Nat} {v : Value} :
      items[i]? = some v → v ≠ .null → toString i = name → Names name (.sequence items)
  | item {items : List Value} {v : Value} :
      v ∈ items → Mentions name v → Names name (.sequence items)

end

/-- The names that the attribute of a value has are those that the value tells. -/
structure Tells (name : String) (v : Value) : Prop where
  mentioned : (∃ a, Attribute.ofValue? v = some a ∧ name ∈ a.mentioned) ↔ v.Mentions name
  listed : (∃ a, Attribute.ofValue? v = some a ∧ name ∈ a.listed) ↔ v.Lists name
  itemNames : (∃ a, Attribute.ofValue? v = some a ∧ name ∈ a.itemNames) ↔ v.Names name

theorem ne_null_iff {v : Value} :
  v ≠ .null ↔ ∃ a, Attribute.ofValue? v = some a
  := by
  cases v <;> simp [Attribute.ofValue?]

section

variable {name : String} {entries : List (String × Value)}

theorem mem_flatMap_attributes {f : String × Attribute → List String} :
  name ∈ (attributesOfEntries entries).flatMap f ↔
    ∃ key v, (key, v) ∈ entries ∧ ∃ a, Attribute.ofValue? v = some a ∧ name ∈ f (key, a)
  := by
  simp only [List.mem_flatMap, Prod.exists, mem_attributesOfEntries]
  constructor
  · rintro ⟨key, a, ⟨v, hv, ha⟩, hname⟩
    exact ⟨key, v, hv, a, ha, hname⟩
  · rintro ⟨key, v, hv, a, ha, hname⟩
    exact ⟨key, a, ⟨v, hv, ha⟩, hname⟩

theorem Tells.key_iff {key : String} {v : Value} (h : v.Tells name) :
  (∃ a, Attribute.ofValue? v = some a ∧ name ∈ key :: a.mentioned)
    ↔ (v ≠ .null ∧ key = name) ∨ v.Mentions name
  := by
  rw [ne_null_iff, ← h.mentioned]
  constructor
  · rintro ⟨a, ha, hname⟩
    obtain rfl | hname := List.mem_cons.mp hname
    · exact Or.inl ⟨⟨a, ha⟩, rfl⟩
    · exact Or.inr ⟨a, ha, hname⟩
  · rintro (⟨⟨a, ha⟩, rfl⟩ | ⟨a, ha, hname⟩)
    · exact ⟨a, ha, List.mem_cons_self⟩
    · exact ⟨a, ha, List.mem_cons_of_mem key hname⟩

variable (h : ∀ entry ∈ entries, entry.2.Tells name)

include h

theorem mem_namesBelow :
  name ∈ namesBelow (attributesOfEntries entries) ↔ ∃ key v, (key, v) ∈ entries ∧
    if isJobListKey key then v.Lists name else v.Mentions name
  := by
  rw [namesBelow_eq, mem_flatMap_attributes]
  apply exists_congr fun key => exists_congr fun v => and_congr_right fun hv => ?_
  split
  · apply (h _ hv).listed
  · apply (h _ hv).mentioned

theorem mem_namesOfKeys :
  name ∈ namesOfKeys (attributesOfEntries entries) ↔ ∃ key v, (key, v) ∈ entries ∧
    ((v ≠ .null ∧ key = name) ∨ v.Mentions name)
  := by
  rw [namesOfKeys_eq, mem_flatMap_attributes]
  apply exists_congr fun key => exists_congr fun v => and_congr_right fun hv => ?_
  apply (h _ hv).key_iff

theorem mem_namesListed :
  name ∈ namesListed (attributesOfEntries entries) ↔ ∃ key v, (key, v) ∈ entries ∧
    if isIndexKey key then v.Names name else (v ≠ .null ∧ key = name) ∨ v.Mentions name
  := by
  rw [namesListed_eq, mem_flatMap_attributes]
  apply exists_congr fun key => exists_congr fun v => and_congr_right fun hv => ?_
  split
  · apply (h _ hv).itemNames
  · apply (h _ hv).key_iff

end

/-! ### By recursion on a body -/

variable {name : String}

theorem tells_null :
  null.Tells name
  where
  mentioned := ⟨nofun, nofun⟩
  listed := ⟨nofun, nofun⟩
  itemNames := ⟨nofun, nofun⟩

theorem tells_scalar (text : String) :
  (scalar text).Tells name
  where
  mentioned := by
    constructor
    · rintro ⟨a, ha, hname⟩
      cases ha
      cases hname
    · nofun
  listed := by
    constructor
    · rintro ⟨a, ha, hname⟩
      cases ha
      rw [List.mem_singleton.mp hname]
      exact .scalar
    · rintro ⟨⟩
      exact ⟨_, rfl, List.mem_cons_self⟩
  itemNames := by
    constructor
    · rintro ⟨a, ha, hname⟩
      cases ha
      rw [List.mem_singleton.mp hname]
      exact .scalar
    · rintro ⟨⟩
      exact ⟨_, rfl, List.mem_cons_self⟩

/-- What a mapping names as an item. -/
theorem itemNames_group (entries : List (String × Value)) :
  (Attribute.group (attributesOfEntries entries)).itemNames =
    match objectName? entries with
    | some own => [own]
    | none => namesOfKeys (attributesOfEntries entries)
  := by
  rw [Attribute.itemNames]
  rfl

theorem tells_mapping {entries : List (String × Value)}
    (h : ∀ entry ∈ entries, entry.2.Tells name) :
  (mapping entries).Tells name
  where
  mentioned := by
    simp only [Attribute.ofValue?, Option.some.injEq, exists_eq_left', Attribute.mentioned]
    rw [mem_namesBelow h]
    constructor
    · rintro ⟨key, v, hv, htold⟩
      split at htold
      · next hkey => exact .list hv hkey htold
      · next hkey => exact .entry hv (eq_false_of_ne_true hkey) htold
    · intro hmentions
      cases hmentions with
      | list hv hkey hlists => exact ⟨_, _, hv, by rwa [if_pos hkey]⟩
      | entry hv hkey hmentions => exact ⟨_, _, hv, by rwa [hkey]⟩
  listed := by
    simp only [Attribute.ofValue?, Option.some.injEq, exists_eq_left', Attribute.listed]
    rw [mem_namesListed h]
    constructor
    · rintro ⟨key, v, hv, htold⟩
      split at htold
      · next hkey => exact .numbered hv hkey htold
      · next hkey =>
        have hkey := eq_false_of_ne_true hkey
        obtain ⟨hnull, rfl⟩ | hmentions := htold
        · exact .key hv hkey hnull
        · exact .entry hv hkey hmentions
    · intro hlists
      cases hlists with
      | numbered hv hkey hnames => exact ⟨_, _, hv, by rwa [if_pos hkey]⟩
      | key hv hkey hnull => exact ⟨_, _, hv, by rw [hkey]; exact Or.inl ⟨hnull, rfl⟩⟩
      | entry hv hkey hmentions => exact ⟨_, _, hv, by rw [hkey]; exact Or.inr hmentions⟩
  itemNames := by
    simp only [Attribute.ofValue?, Option.some.injEq, exists_eq_left', itemNames_group]
    cases hobject : objectName? entries with
    | some own =>
        rw [List.mem_singleton]
        constructor
        · rintro rfl
          exact .object hobject
        · intro hnames
          cases hnames with
          | object hown => exact Option.some.inj (hown.symm.trans hobject)
          | key hnone => exact absurd (hnone.symm.trans hobject) nofun
          | entry hnone => exact absurd (hnone.symm.trans hobject) nofun
    | none =>
        rw [mem_namesOfKeys h]
        constructor
        · rintro ⟨key, v, hv, ⟨hnull, rfl⟩ | hmentions⟩
          · exact .key hobject hv hnull
          · exact .entry hobject hv hmentions
        · intro hnames
          cases hnames with
          | object hown => exact absurd (hown.symm.trans hobject) nofun
          | key _ hv hnull => exact ⟨_, _, hv, Or.inl ⟨hnull, rfl⟩⟩
          | entry _ hv hmentions => exact ⟨_, _, hv, Or.inr hmentions⟩

/-- A number is not the key of a name. -/
theorem objectName?_numbered (items : List Value) :
  objectName? (numbered 0 items) = none
  := by
  rw [objectName?, Attributes.scalar?, List.lookup_eq_none_iff.mpr]
  · rfl
  · rintro ⟨key, a⟩ ha
    obtain ⟨v, hv, -⟩ := mem_attributesOfEntries.mp ha
    obtain ⟨i, -, rfl⟩ := mem_numbered.mp hv
    have hne : toString i ≠ "name" := toString_ne rfl
    simpa using hne.symm

theorem exists_numbered {p : String → Value → Prop} {items : List Value} :
  (∃ key v, (key, v) ∈ numbered 0 items ∧ p key v) ↔
    ∃ (i : Nat) (v : Value), items[i]? = some v ∧ p (toString i) v
  := by
  constructor
  · rintro ⟨key, v, hv, hp⟩
    obtain ⟨i, hi, rfl⟩ := mem_numbered.mp hv
    exact ⟨i, v, hi, hp⟩
  · rintro ⟨i, v, hi, hp⟩
    exact ⟨_, v, mem_numbered.mpr ⟨i, hi, rfl⟩, hp⟩

theorem tells_sequence {items : List Value} (h : ∀ v ∈ items, v.Tells name) :
  (sequence items).Tells name
  := by
  have hnumbered : ∀ entry ∈ numbered 0 items, entry.2.Tells name := by
    rintro ⟨key, v⟩ hv
    obtain ⟨i, hi, -⟩ := mem_numbered.mp hv
    apply h v (List.mem_of_getElem? hi)
  constructor
  · simp only [Attribute.ofValue?, Option.some.injEq, exists_eq_left', Attribute.mentioned,
      attributesOfItems_eq, mem_namesBelow hnumbered, exists_numbered, isJobListKey_toString]
    constructor
    · rintro ⟨i, v, hi, hmentions⟩
      exact .item (List.mem_of_getElem? hi) hmentions
    · intro htold
      cases htold with
      | item hv hmentions =>
          obtain ⟨i, hi⟩ := List.getElem?_of_mem hv
          exact ⟨i, _, hi, hmentions⟩
  · simp only [Attribute.ofValue?, Option.some.injEq, exists_eq_left', Attribute.listed,
      attributesOfItems_eq, mem_namesListed hnumbered, exists_numbered, isIndexKey_toString]
    constructor
    · rintro ⟨i, v, hi, hnames⟩
      exact .item (List.mem_of_getElem? hi) hnames
    · intro htold
      cases htold with
      | item hv hnames =>
          obtain ⟨i, hi⟩ := List.getElem?_of_mem hv
          exact ⟨i, _, hi, hnames⟩
  · simp only [Attribute.ofValue?, Option.some.injEq, exists_eq_left', attributesOfItems_eq,
      itemNames_group, objectName?_numbered, mem_namesOfKeys hnumbered, exists_numbered]
    constructor
    · rintro ⟨i, v, hi, ⟨hnull, hname⟩ | hmentions⟩
      · exact .place hi hnull hname
      · exact .item (List.mem_of_getElem? hi) hmentions
    · intro hnames
      cases hnames with
      | place hi hnull hname => exact ⟨_, _, hi, Or.inl ⟨hnull, hname⟩⟩
      | item hv hmentions =>
          obtain ⟨i, hi⟩ := List.getElem?_of_mem hv
          exact ⟨i, _, hi, Or.inr hmentions⟩

mutual

theorem tells : (v : Value) → v.Tells name
  | .null => tells_null
  | .scalar text => tells_scalar text
  | .sequence items => tells_sequence (tellsOf items)
  | .mapping entries => tells_mapping (tellsOfEntries entries)

theorem tellsOf : (items : List Value) → ∀ v ∈ items, v.Tells name
  | [] => nofun
  | v :: items => List.forall_mem_cons.mpr ⟨tells v, tellsOf items⟩

theorem tellsOfEntries : (entries : List (String × Value)) → ∀ entry ∈ entries, entry.2.Tells name
  | [] => nofun
  | (_, v) :: entries => List.forall_mem_cons.mpr ⟨tells v, tellsOfEntries entries⟩

end

end Yaml.Value

/-! ### Templates -/

/-- The names below the attributes of a body are those below its attribute. -/
theorem mem_namesBelow_ofValue {name : String} {body : Yaml.Value} :
  name ∈ namesBelow (Attributes.ofValue body)
    ↔ ∃ a, Attribute.ofValue? body = some a ∧ name ∈ a.mentioned
  := by
  rw [Attributes.ofValue]
  cases Attribute.ofValue? body with
  | none => simp [namesBelow]
  | some a => cases a <;> simp [namesBelow, Attribute.mentioned]

namespace Template

/-- The jobs that a template names are those that its body mentions, at any depth. -/
theorem mem_references_iff (file : Path) (body : Yaml.Value) (locations : List Location)
    (name : String) :
  name ∈ (ofAttributes file (Attributes.ofValue body) locations).references
    ↔ name ≠ "" ∧ body.Mentions name
  := by
  rw [ofAttributes, mem_jobReferences, mem_namesBelow_ofValue, (Yaml.Value.tells body).mentioned]

/-- A name made of digits that is a key, a job that a named object depends on, and a key without a
value are not among the jobs that a template names. -/
theorem references_missing :
  let references (text : String) : List (List String) :=
    (Document.parse [] ⟨"a.yaml"⟩ text).1.templates.map (·.references)
  references "- project-template:\n    jobs:\n      \"123\":\n        voting: false\n"
      = [["voting"]] ∧
    references "- project-template:\n    jobs:\n      - name: unit\n        dependencies: [build]\n"
      = [["unit"]] ∧
    references "- project-template:\n    jobs: [a, unit: ]\n" = [["a"]]
  := by
  decide +kernel

end Template

end JobIndex
