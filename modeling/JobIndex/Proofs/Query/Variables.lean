import JobIndex.Proofs.Record.Locations
import JobIndex.Query.Variable

/-!
# The variables of a job are exact

A reference to a variable is written as two braces, white space, a name, white space, perhaps a
filter, and two braces (`WrittenReference`). A search from left to right goes on behind each
reference that it finds. So what it finds in a value (`SearchedFrom`)

* stands there, one reference behind the other;
* leaves out a reference only if it begins inside an earlier one, in whose filter it then stands.

The names are located by their places in the value. Since the value stands where its location says,
so do the names (`Location.ExactIn.part`).
-/

namespace JobIndex

/-! ### References as they are written -/

/-- The parts of a reference to a variable between its braces. -/
structure WrittenReference where
  lead : List Char
  name : List Char
  gap : List Char
  filter : List Char

namespace WrittenReference

/-- There is white space around a name, and a filter goes from a bar up to the braces, if there is
one. -/
structure WellFormed (w : WrittenReference) : Prop where
  lead_white : ∀ c ∈ w.lead, Text.isWhite c = true
  name_eq : ∃ c cs, w.name = c :: cs ∧ isNameStart c = true ∧ ∀ d ∈ cs, isNameChar d = true
  gap_white : ∀ c ∈ w.gap, Text.isWhite c = true
  filter_eq : w.filter = [] ∨ ∃ cs, w.filter = '|' :: cs ∧ '\x7d' ∉ cs

/-- The characters of a reference. -/
def chars (w : WrittenReference) : List Char :=
  '\x7b' :: '\x7b' :: (w.lead ++ (w.name ++ (w.gap ++ (w.filter ++ ['\x7d', '\x7d']))))

end WrittenReference

/-! ### Reading a reference -/

theorem isNameChar_of_isNameStart {c : Char} (h : isNameStart c = true) :
  isNameChar c = true
  := by
  simp [isNameChar, h]

/-- The characters of names by their codes. -/
theorem isNameChar_iff {c : Char} :
  isNameChar c = true ↔
    (97 ≤ c.toNat ∧ c.toNat ≤ 122) ∨ (65 ≤ c.toNat ∧ c.toNat ≤ 90) ∨ c.toNat = 95 ∨
    (48 ≤ c.toNat ∧ c.toNat ≤ 57) ∨ c.toNat = 46
  := by
  simp only [isNameChar, isNameStart, Bool.or_eq_true, Bool.and_eq_true, decide_eq_true_eq,
    beq_iff_eq, Char.le_def, UInt32.le_iff_toNat_le, Char.ext_iff, ← UInt32.toNat_inj, or_assoc]
  rfl

/-- White space does not stand in names. -/
theorem isNameChar_of_isWhite {c : Char} (h : Text.isWhite c = true) :
  isNameChar c = false
  := by
  rw [← Bool.not_eq_true, isNameChar_iff]
  simp only [Text.isWhite, Bool.or_eq_true, Bool.and_eq_true, decide_eq_true_eq, beq_iff_eq] at h
  omega

/-- Characters before one that does not belong to them are taken, and dropped, as a whole. -/
theorem span_append {p : Char → Bool} {cs ds : List Char} (hcs : ∀ c ∈ cs, p c = true)
    (hds : ∀ d ∈ ds.head?, p d = false) :
  (cs ++ ds).takeWhile p = cs ∧ (cs ++ ds).dropWhile p = ds
  := by
  rw [List.takeWhile_append_of_pos hcs, List.dropWhile_append_of_pos hcs]
  cases ds with
  | nil => simp
  | cons d ds =>
      have hd : p d = false := hds d rfl
      simp [hd]

/-- What is passed over as a filter is one. -/
theorem exists_append_afterFilter (cs : List Char) :
  ∃ filter, cs = filter ++ afterFilter cs ∧
    (filter = [] ∨ ∃ ds, filter = '|' :: ds ∧ '\x7d' ∉ ds)
  := by
  unfold afterFilter
  split
  · next cs =>
    refine ⟨'|' :: cs.takeWhile (· != '\x7d'), ?_, Or.inr ⟨_, rfl, ?_⟩⟩
    · rw [List.cons_append, List.takeWhile_append_dropWhile]
    · intro hmem
      simpa using List.mem_takeWhile_imp hmem
  · exact ⟨[], rfl, Or.inl rfl⟩

/-- A filter before braces is passed over. -/
theorem afterFilter_append {filter : List Char}
    (h : filter = [] ∨ ∃ cs, filter = '|' :: cs ∧ '\x7d' ∉ cs) (rest : List Char) :
  afterFilter (filter ++ '\x7d' :: rest) = '\x7d' :: rest
  := by
  obtain rfl | ⟨cs, rfl, hcs⟩ := h
  · rfl
  · apply (span_append _ _).2
    · intro c hc
      rw [bne_iff_ne]
      rintro rfl
      exact hcs hc
    · simp

/-- What follows a name is not part of it: white space, a bar or a brace. -/
theorem WrittenReference.WellFormed.isNameChar_head? {w : WrittenReference} (h : w.WellFormed)
    (rest : List Char) :
  ∀ c ∈ (w.gap ++ (w.filter ++ '\x7d' :: rest)).head?, isNameChar c = false
  := by
  intro c hc
  cases hgap : w.gap with
  | cons d ds =>
      obtain rfl : d = c := by simpa [hgap] using hc
      apply isNameChar_of_isWhite
      apply h.gap_white
      simp [hgap]
  | nil =>
      obtain hfilter | ⟨cs, hfilter, -⟩ := h.filter_eq
      · obtain rfl : '\x7d' = c := by simpa [hgap, hfilter] using hc
        rfl
      · obtain rfl : '|' = c := by simpa [hgap, hfilter] using hc
        rfl

/-- A reference is read where it is written. -/
theorem WrittenReference.WellFormed.variableAt?_chars_append {w : WrittenReference}
    (h : w.WellFormed) (rest : List Char) :
  variableAt? (w.chars ++ rest) = some (2 + w.lead.length, w.name, rest)
  := by
  obtain ⟨c, cs, hname, hc, hcs⟩ := h.name_eq
  have hchar : ∀ d ∈ w.name, isNameChar d = true := by
    rw [hname, List.forall_mem_cons]
    exact ⟨isNameChar_of_isNameStart hc, hcs⟩
  have hhead : ∀ tail, ∀ d ∈ (w.name ++ tail).head?, Text.isWhite d = false := by
    intro tail d hd
    obtain rfl : c = d := by simpa [hname] using hd
    rw [← Bool.not_eq_true]
    intro hwhite
    have := isNameChar_of_isNameStart hc
    rw [isNameChar_of_isWhite hwhite] at this
    cases this
  have hend : ∀ d ∈ (w.filter ++ '\x7d' :: '\x7d' :: rest).head?, Text.isWhite d = false := by
    intro d hd
    obtain hfilter | ⟨cs, hfilter, -⟩ := h.filter_eq
    · obtain rfl : '\x7d' = d := by simpa [hfilter] using hd
      rfl
    · obtain rfl : '|' = d := by simpa [hfilter] using hd
      rfl
  obtain ⟨hlead, hbody⟩ := span_append h.lead_white
    (hhead (w.gap ++ (w.filter ++ '\x7d' :: '\x7d' :: rest)))
  obtain ⟨hnamed, hgap⟩ := span_append hchar (h.isNameChar_head? ('\x7d' :: rest))
  have hfilter := (span_append h.gap_white hend).2
  have hbraces := afterFilter_append h.filter_eq ('\x7d' :: rest)
  have hstart : (w.name.head?.map isNameStart).getD false = true := by
    rw [hname]
    exact hc
  simp only [WrittenReference.chars, List.cons_append, List.append_assoc, List.nil_append,
    variableAt?, hlead, hbody, hnamed, hgap, hfilter, hbraces, hstart, if_true]

/-- Characters of names of which the first one begins a name are one. -/
theorem exists_name_of_head? {cs : List Char}
    (h : ((cs.takeWhile isNameChar).head?.map isNameStart).getD false = true) :
  ∃ d ds, cs.takeWhile isNameChar = d :: ds ∧ isNameStart d = true ∧
    ∀ e ∈ ds, isNameChar e = true
  := by
  cases hname : cs.takeWhile isNameChar with
  | nil =>
      rw [hname] at h
      cases h
  | cons d ds =>
      rw [hname] at h
      refine ⟨d, ds, rfl, h, fun e he => ?_⟩
      apply List.mem_takeWhile_imp (l := cs)
      rw [hname]
      apply List.mem_cons_of_mem d he

/-- What is read at the start of characters is a reference that is written there. -/
theorem exists_of_variableAt? {cs name rest : List Char} {before : Nat}
    (h : variableAt? cs = some (before, name, rest)) :
  ∃ w : WrittenReference, w.WellFormed ∧ cs = w.chars ++ rest ∧
    before = 2 + w.lead.length ∧ name = w.name
  := by
  unfold variableAt? at h
  split at h
  · next cs =>
    dsimp only at h
    split at h
    · next hstart =>
      split at h
      · next rest' hfilter =>
        cases h
        let body := cs.dropWhile Text.isWhite
        let tail := body.dropWhile isNameChar
        obtain ⟨filter, hcut, hbar⟩ := exists_append_afterFilter (tail.dropWhile Text.isWhite)
        rw [hfilter] at hcut
        refine ⟨⟨cs.takeWhile Text.isWhite, body.takeWhile isNameChar,
          tail.takeWhile Text.isWhite, filter⟩, ?_, ?_, rfl, rfl⟩
        · exact {
            lead_white := fun c hc => List.mem_takeWhile_imp hc
            name_eq := exists_name_of_head? hstart
            gap_white := fun c hc => List.mem_takeWhile_imp hc
            filter_eq := hbar }
        · simp only [WrittenReference.chars, List.cons_append, List.append_assoc,
            List.nil_append]
          rw [← hcut, List.takeWhile_append_dropWhile, List.takeWhile_append_dropWhile,
            List.takeWhile_append_dropWhile]
      · cases h
    · cases h
  · cases h

/-! ### Searching a value -/

/-- A reference at a place. -/
structure Occurrence where
  start : Nat
  ref : WrittenReference

namespace Occurrence

/-- The place behind the white space at the start of a reference. -/
def nameStart (o : Occurrence) : Nat :=
  o.start + (2 + o.ref.lead.length)

/-- The place behind a reference. -/
def stop (o : Occurrence) : Nat :=
  o.start + o.ref.chars.length

/-- A reference stands in a sequence of characters at its place. -/
structure StandsIn (o : Occurrence) (value : List Char) : Prop where
  wellFormed : o.ref.WellFormed
  value_eq : ∃ before after, value = before ++ (o.ref.chars ++ after) ∧ before.length = o.start

end Occurrence

/-- The references that a search finds in a sequence of characters from place `k` on: each begins
behind those before it, and a reference is left out only if it begins inside one of them. -/
structure SearchedFrom (k : Nat) (value : List Char) (found : List Occurrence) : Prop where
  stands : ∀ o ∈ found, o.StandsIn value ∧ k ≤ o.start
  pairwise : found.Pairwise fun o p => o.stop ≤ p.start
  complete : ∀ o : Occurrence, o.StandsIn value → k ≤ o.start →
    ∃ m ∈ found, m.start = o.start ∨ (m.start < o.start ∧ o.start < m.stop)

theorem WrittenReference.length_chars_pos (w : WrittenReference) :
  0 < w.chars.length
  := by
  apply Nat.zero_lt_succ

namespace SearchedFrom

variable {k : Nat} {value : List Char} {found : List Occurrence}

/-- Nothing stands behind the end. -/
theorem nil (h : value.length ≤ k) :
  SearchedFrom k value []
  := by
  refine ⟨by simp, List.Pairwise.nil, fun o ho hk => ?_⟩
  obtain ⟨before, after, rfl, hstart⟩ := ho.value_eq
  have := o.ref.length_chars_pos
  simp only [List.length_append] at h
  omega

/-- A reference comes before those that are found behind it. -/
theorem cons {o : Occurrence} (ho : o.StandsIn value) (h : SearchedFrom o.stop value found) :
  SearchedFrom o.start value (o :: found)
  where
  stands := by
    rw [List.forall_mem_cons]
    refine ⟨⟨ho, Nat.le_refl _⟩, fun p hp => ?_⟩
    obtain ⟨hstands, hle⟩ := h.stands p hp
    exact ⟨hstands, Nat.le_trans (Nat.le_add_right _ _) hle⟩
  pairwise := by
    rw [List.pairwise_cons]
    exact ⟨fun p hp => (h.stands p hp).2, h.pairwise⟩
  complete := by
    intro p hp hle
    rcases Nat.lt_or_ge p.start o.stop with hlt | hge
    · refine ⟨o, List.mem_cons_self, ?_⟩
      omega
    · obtain ⟨m, hm, hplace⟩ := h.complete p hp hge
      exact ⟨m, List.mem_cons_of_mem o hm, hplace⟩

/-- A search goes on at the next place where no reference begins. -/
theorem of_succ (hnone : ∀ o : Occurrence, o.StandsIn value → o.start ≠ k)
    (h : SearchedFrom (k + 1) value found) :
  SearchedFrom k value found
  where
  stands := by
    intro o ho
    obtain ⟨hstands, hle⟩ := h.stands o ho
    exact ⟨hstands, Nat.le_of_succ_le hle⟩
  pairwise := h.pairwise
  complete := by
    intro o ho hle
    apply h.complete o ho
    have := hnone o ho
    omega

end SearchedFrom

/-- A reference at the end of the characters before a place is read there. -/
theorem Occurrence.StandsIn.variableAt? {o : Occurrence} {pre cs : List Char}
    (h : o.StandsIn (pre ++ cs)) (hstart : o.start = pre.length) :
  (variableAt? cs).isSome = true
  := by
  obtain ⟨before, after, heq, hbefore⟩ := h.value_eq
  obtain ⟨-, rfl⟩ := List.append_inj heq (by omega)
  rw [h.wellFormed.variableAt?_chars_append]
  rfl

/-- Searching goes from left to right, behind each reference that is found. -/
theorem exists_searchedFrom (pre cs : List Char) (skip : Nat) :
  ∃ found, variablesFrom pre.length skip cs = found.map (fun o => (o.nameStart, o.ref.name)) ∧
    SearchedFrom (pre.length + skip) (pre ++ cs) found
  := by
  induction cs generalizing pre skip with
  | nil =>
      refine ⟨[], rfl, SearchedFrom.nil ?_⟩
      simp
  | cons c cs ih =>
      have hnext : pre ++ c :: cs = (pre ++ [c]) ++ cs := by simp
      cases skip with
      | succ skip =>
          obtain ⟨found, hfound, hsearch⟩ := ih (pre ++ [c]) skip
          rw [List.length_append, List.length_singleton] at hfound hsearch
          refine ⟨found, hfound, ?_⟩
          rwa [hnext, Nat.add_comm skip, ← Nat.add_assoc]
      | zero =>
          cases hread : variableAt? (c :: cs) with
          | none =>
              obtain ⟨found, hfound, hsearch⟩ := ih (pre ++ [c]) 0
              rw [List.length_append, List.length_singleton] at hfound hsearch
              refine ⟨found, ?_, SearchedFrom.of_succ ?_ ?_⟩
              · rw [variablesFrom, hread]
                exact hfound
              · intro o ho hstart
                have hsome := ho.variableAt? hstart
                rw [hread] at hsome
                cases hsome
              · rwa [hnext]
          | some read =>
              obtain ⟨before, name, rest⟩ := read
              obtain ⟨w, hw, hchars, rfl, rfl⟩ := exists_of_variableAt? hread
              have hlength := congrArg List.length hchars
              rw [List.length_cons, List.length_append] at hlength
              obtain ⟨found, hfound, hsearch⟩ := ih (pre ++ [c]) (cs.length - rest.length)
              rw [List.length_append, List.length_singleton] at hfound hsearch
              refine ⟨⟨pre.length, w⟩ :: found, ?_, ?_⟩
              · simp only [variablesFrom, hread, hfound]
                rfl
              · have hstands : Occurrence.StandsIn ⟨pre.length, w⟩ (pre ++ c :: cs) :=
                  ⟨hw, pre, rest, by rw [hchars], rfl⟩
                apply SearchedFrom.cons hstands
                have hstop : pre.length + 1 + (cs.length - rest.length) =
                    (⟨pre.length, w⟩ : Occurrence).stop := by
                  have := w.length_chars_pos
                  simp only [Occurrence.stop]
                  omega
                rwa [hnext, ← hstop]

/-! ### The places of the names -/

namespace Occurrence

/-- The place behind the name of a reference. -/
def nameStop (o : Occurrence) : Nat :=
  o.nameStart + o.ref.name.length

theorem start_le_nameStart (o : Occurrence) :
  o.start ≤ o.nameStart
  := by
  apply Nat.le_add_right

theorem nameStop_le_stop (o : Occurrence) :
  o.nameStop ≤ o.stop
  := by
  simp only [nameStop, nameStart, stop, WrittenReference.chars, List.length_cons,
    List.length_append]
  omega

/-- The name of a reference stands in the value. -/
theorem StandsIn.exists_name {o : Occurrence} {value : List Char} (h : o.StandsIn value) :
  ∃ pre post, value = pre ++ (o.ref.name ++ post) ∧ pre.length = o.nameStart
  := by
  obtain ⟨before, after, rfl, hstart⟩ := h.value_eq
  refine ⟨before ++ '\x7b' :: '\x7b' :: o.ref.lead,
    o.ref.gap ++ (o.ref.filter ++ ('\x7d' :: '\x7d' :: after)), ?_, ?_⟩
  · simp [WrittenReference.chars]
  · simp only [nameStart, List.length_append, List.length_cons]
    omega

end Occurrence

/-- A part of a located value stands where its place says. -/
theorem Location.ExactIn.part {l : Location} {file : Path} {text : String}
    {pre name post : List Char} (h : l.ExactIn file text)
    (hvalue : l.value.toList = pre ++ (name ++ post)) (hne : name ≠ []) :
  (l.part pre.length name).ExactIn file text
  := by
  obtain ⟨before, lead, tail, ending, after, hat, hindent, hcol, hbyte⟩ := h.stands
  have hpart : (l.part pre.length name).value.toList = name := String.toList_ofList
  have hline : lead ++ (l.value.toList ++ tail) = (lead ++ pre) ++ (name ++ (post ++ tail)) := by
    rw [hvalue]
    simp only [List.append_assoc]
  rw [hline, ← hpart] at hat hindent
  have hfile : (l.part pre.length name).file = file := h.file_eq
  rw [← hfile]
  apply Location.exactIn_of_stands ?_ ?_ hat hindent ?_ ?_ ?_ ?_
  · intro hempty
    apply hne
    rw [← hpart, hempty]
    rfl
  · rw [hpart]
    intro hmem
    apply h.no_feed
    simp [hvalue, hmem]
  · rw [List.length_append, ← hcol]
    rfl
  · simp only [Location.part, hvalue, List.take_left, hbyte, Text.byteSize_append]
    omega
  · rw [hpart]
    rfl
  · rw [hpart]
    rfl

/-- The token of a reference in a located value. -/
def Location.token (l : Location) (o : Occurrence) : VariableToken :=
  ⟨String.ofList o.ref.name, l.part o.nameStart o.ref.name⟩

/-- A token is behind another one: its columns and its bytes begin where those of the other have
ended, or later. -/
structure VariableToken.Precedes (t u : VariableToken) : Prop where
  cols : t.location.endCol ≤ u.location.startCol
  bytes : t.location.endByte ≤ u.location.startByte

/-- A token stands in a location. -/
structure VariableToken.Inside (t : VariableToken) (l : Location) : Prop where
  value_eq : t.location.value = t.name
  line_eq : t.location.line = l.line
  cols : l.startCol ≤ t.location.startCol ∧ t.location.endCol ≤ l.endCol
  bytes : l.startByte ≤ t.location.startByte ∧ t.location.endByte ≤ l.endByte

namespace Occurrence.StandsIn

variable {l : Location} {o p : Occurrence}

/-- The bytes of a token end behind those of the value up to the end of the name. -/
theorem endByte_token (h : o.StandsIn l.value.toList) :
  (l.token o).location.endByte = l.startByte + Text.byteSize (l.value.toList.take o.nameStop)
  := by
  obtain ⟨pre, post, hvalue, hpre⟩ := h.exists_name
  have hstop : o.nameStop = (pre ++ o.ref.name).length := by
    rw [List.length_append, hpre, Occurrence.nameStop]
  have hstart : l.value.toList.take o.nameStart = pre := by
    rw [hvalue, ← hpre, List.take_left]
  have hname : l.value.toList.take o.nameStop = pre ++ o.ref.name := by
    rw [hvalue, hstop, ← List.append_assoc, List.take_left]
  simp only [Location.token, Location.part, hstart, hname, Text.byteSize_append, Nat.add_assoc]

/-- The token of a reference is exact in the text. -/
theorem token_exactIn {file : Path} {text : String} (h : o.StandsIn l.value.toList)
    (hl : l.ExactIn file text) :
  (l.token o).location.ExactIn file text
  := by
  obtain ⟨pre, post, hvalue, hpre⟩ := h.exists_name
  obtain ⟨c, cs, hname, -⟩ := h.wellFormed.name_eq
  rw [Location.token, ← hpre]
  apply hl.part hvalue
  rw [hname]
  apply List.cons_ne_nil

/-- The token of a reference stands in the location. -/
theorem token_inside {file : Path} {text : String} (h : o.StandsIn l.value.toList)
    (hl : l.ExactIn file text) :
  (l.token o).Inside l
  where
  value_eq := rfl
  line_eq := rfl
  cols := by
    obtain ⟨pre, post, hvalue, hpre⟩ := h.exists_name
    have hlength := congrArg List.length hvalue
    rw [String.length_toList, List.length_append, List.length_append] at hlength
    have hcol := hl.endCol_eq
    simp only [Location.token, Location.part]
    omega
  bytes := by
    rw [h.endByte_token, hl.endByte_eq, ← Text.byteSize_toList]
    constructor
    · apply Nat.le_add_right
    · have hsize := Text.byteSize_append (l.value.toList.take o.nameStop)
        (l.value.toList.drop o.nameStop)
      rw [List.take_append_drop] at hsize
      omega

/-- The tokens of references of which one is behind the other are in the same order. -/
theorem token_precedes (h : o.StandsIn l.value.toList) (hle : o.stop ≤ p.start) :
  (l.token o).Precedes (l.token p)
  where
  cols := by
    have := o.nameStop_le_stop
    have := p.start_le_nameStart
    simp only [Occurrence.nameStop] at *
    simp only [Location.token, Location.part]
    omega
  bytes := by
    rw [h.endByte_token]
    apply Nat.add_le_add_left
    apply Text.byteSize_take_le
    apply Nat.le_trans o.nameStop_le_stop (Nat.le_trans hle p.start_le_nameStart)

end Occurrence.StandsIn

/-- The variables of a job are the references that a search from left to right finds in its located
values. Each token is exact in the text and stands inside the location, and the tokens of a location
are disjoint and in order. -/
theorem Document.variables_exact (sealedTags : List String) (file : Path) (text : String)
    {job : Job} (hjob : job ∈ (Document.parse sealedTags file text).1.jobs) :
  ∃ found : Location → List Occurrence,
    job.variables = job.locations.flatMap (fun l => (found l).map l.token) ∧
    ∀ l ∈ job.locations, l.ExactIn file text ∧ SearchedFrom 0 l.value.toList (found l) ∧
      (∀ o ∈ found l, (l.token o).location.ExactIn file text ∧ (l.token o).Inside l) ∧
      ((found l).map l.token).Pairwise VariableToken.Precedes
  := by
  choose found hfound hsearch using fun l : Location => exists_searchedFrom [] l.value.toList 0
  refine ⟨found, ?_, fun l hl => ?_⟩
  · have htokens : ∀ l : Location, l.variables = (found l).map l.token := by
      intro l
      have hread := hfound l
      rw [List.length_nil] at hread
      rw [Location.variables, hread, List.map_map]
      rfl
    rw [Job.variables, funext htokens]
  · have hexact : l.ExactIn file text :=
      exactIn_of_hasLocation (Or.inl ⟨job, hjob, hl⟩)
    have hstands : ∀ o ∈ found l, o.StandsIn l.value.toList :=
      fun o ho => ((hsearch l).stands o ho).1
    refine ⟨hexact, hsearch l, fun o ho => ?_, ?_⟩
    · exact ⟨(hstands o ho).token_exactIn hexact, (hstands o ho).token_inside hexact⟩
    · rw [List.pairwise_map]
      apply List.Pairwise.imp_of_mem _ (hsearch l).pairwise
      intro o p ho _ hle
      apply (hstands o ho).token_precedes hle

/-- A filter takes in another reference, and the white space before a name need not be ASCII. -/
theorem Document.variables_exact_filter :
  let text := "- job:\n    é: 'é \x7b\x7b a.b | \x7b\x7b x \x7d\x7d\x7b\x7b\u00a0c\x7d\x7d'\n"
  ∃ job ∈ (Document.parse [] ⟨"a.yaml"⟩ text).1.jobs,
    job.variables.map (fun t => (t.name, t.location.startCol, t.location.startByte))
      = [("a.b", 13, 22), ("c", 29, 39)] ∧
    ∃ found : Location → List Occurrence,
      job.variables = job.locations.flatMap (fun l => (found l).map l.token) ∧
      ∀ l ∈ job.locations, l.ExactIn ⟨"a.yaml"⟩ text ∧ SearchedFrom 0 l.value.toList (found l) ∧
        (∀ o ∈ found l, (l.token o).location.ExactIn ⟨"a.yaml"⟩ text ∧ (l.token o).Inside l) ∧
        ((found l).map l.token).Pairwise VariableToken.Precedes
  := by
  intro text
  obtain ⟨job, hjob, htokens⟩ :
      ∃ job ∈ (Document.parse [] ⟨"a.yaml"⟩ text).1.jobs,
        job.variables.map (fun t => (t.name, t.location.startCol, t.location.startByte))
          = [("a.b", 13, 22), ("c", 29, 39)] := by
    decide +kernel
  exact ⟨job, hjob, htokens, variables_exact [] ⟨"a.yaml"⟩ text hjob⟩

end JobIndex
