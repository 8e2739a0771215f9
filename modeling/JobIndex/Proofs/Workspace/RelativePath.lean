import JobIndex.Proofs.Workspace.Search
import Mathlib.Data.List.Induction
import Mathlib.Data.List.TakeWhile

/-!
# Paths below a directory, segment by segment

A path that leads from a directory to what is below it is made of segments of the path that leads
there: those that stand for the parts of the directory are left out, and those at either end that
lead nowhere (`Path.exists_pieces_relative`). To join paths is to put their segments one after
another (`Path.exists_pieces_join`), and so their parts (`Path.parts_join`).

The parts of a path are those that its segments count as (`Path.parts_eq_counted`); an empty segment
at the start counts as the root.
-/

namespace JobIndex.Path

variable {dir p q : Path} {part : Part} {more : List Part} {s : List Char}
  {segments rest : List (List Char)} {first : Bool}

/-! ### Segments -/

/-- The characters of the segments of a path. -/
def pieces (p : Path) : List (List Char) :=
  p.spelling.toList.splitOn '/'

theorem segments_eq (p : Path) :
  p.segments = p.pieces.map String.ofList
  := rfl

theorem pieces_ne_nil (p : Path) :
  p.pieces ≠ []
  := List.splitOn_ne_nil _ _

/-- A segment has no slash. -/
theorem not_mem_of_mem_splitOn {cs : List Char} (h : s ∈ cs.splitOn '/') :
  '/' ∉ s
  := by
  induction cs generalizing s with
  | nil =>
      rw [List.splitOn_nil, List.mem_singleton] at h
      rw [h]
      exact List.not_mem_nil
  | cons c cs ih =>
      rw [List.splitOn, List.splitOnP_cons_eq_if_modifyHead, ← List.splitOn] at h
      split_ifs at h with hc
      · rcases List.mem_cons.mp h with rfl | h
        · exact List.not_mem_nil
        · apply ih h
      · cases hsplit : cs.splitOn '/' with
        | nil => exact absurd hsplit (List.splitOn_ne_nil _ _)
        | cons l ls =>
            rw [hsplit, List.modifyHead_cons] at h
            rcases List.mem_cons.mp h with rfl | h
            · rw [List.mem_cons, not_or]
              refine ⟨fun hslash => hc (beq_iff_eq.mpr hslash.symm), ih ?_⟩
              rw [hsplit]
              exact List.mem_cons_self
            · apply ih
              rw [hsplit]
              exact List.mem_cons_of_mem _ h

theorem not_mem_of_mem_pieces (h : s ∈ p.pieces) :
  '/' ∉ s
  := not_mem_of_mem_splitOn h

theorem pieces_ofSegments (hne : segments ≠ []) (h : ∀ s ∈ segments, '/' ∉ s) :
  (ofSegments segments).pieces = segments
  := by
  rw [pieces, ofSegments, String.toList_intercalate, List.map_map]
  have hid : String.toList ∘ String.ofList = id := funext fun _ => String.toList_ofList
  rw [hid, List.map_id]
  apply List.splitOn_intercalate _ h hne

/-! ### The parts that segments count as -/

/-- The part that a segment counts as. At the start of a path an empty one counts as the root. -/
def Part.counted? (first : Bool) (segment : List Char) : Option Part :=
  if first && segment.isEmpty then some .root else ofSegment first segment

/-- The parts that segments count as. -/
def counted : Bool → List (List Char) → List Part
  | _, [] => []
  | first, s :: segments => (Part.counted? first s).toList ++ counted false segments

theorem counted_false (segments : List (List Char)) :
  counted false segments = segments.filterMap (Part.ofSegment false)
  := by
  induction segments with
  | nil => rfl
  | cons s segments ih =>
      rw [counted, ih, List.filterMap_cons, Part.counted?, Bool.false_and,
        if_neg Bool.false_ne_true]
      cases Part.ofSegment false s <;> rfl

theorem counted_append (h : segments ≠ []) :
  counted first (segments ++ rest) = counted first segments ++ counted false rest
  := by
  cases segments with
  | nil => exact absurd rfl h
  | cons s segments =>
      simp only [List.cons_append, counted, counted_false, List.filterMap_append,
        List.append_assoc]

/-- The parts of a path are those that its segments count as. -/
theorem parts_eq_counted (h : p.spelling ≠ "") :
  p.parts = counted true p.pieces
  := by
  obtain ⟨c, cs, hcs⟩ := List.exists_cons_of_ne_nil
    (fun hnil => h (String.toList_eq_nil_iff.mp hnil))
  have hpieces : p.pieces
      = if c == '/' then [] :: cs.splitOn '/' else (cs.splitOn '/').modifyHead (c :: ·) := by
    rw [pieces, hcs, List.splitOn, List.splitOnP_cons_eq_if_modifyHead]
    rfl
  have habsolute : p.isAbsolute = (c == '/') := by
    rw [isAbsolute, hcs]
    rfl
  rw [parts, ← pieces, habsolute, hpieces]
  cases c == '/' with
  | true =>
      rw [if_pos rfl, counted, counted_false]
      rfl
  | false =>
      rw [if_neg Bool.false_ne_true]
      cases hsplit : cs.splitOn '/' with
      | nil => exact absurd hsplit (List.splitOn_ne_nil _ _)
      | cons l ls =>
          rw [List.modifyHead_cons, counted, counted_false]
          rfl

theorem parts_of_spelling_eq (h : p.spelling = "") :
  p.parts = []
  := by
  rw [parts, isAbsolute, h]
  rfl

/-- Only the path without any character has no parts. -/
theorem parts_ne_nil (h : p.spelling ≠ "") :
  p.parts ≠ []
  := by
  obtain ⟨s, rest, hp⟩ := List.exists_cons_of_ne_nil p.pieces_ne_nil
  have hsome : (Part.counted? true s).isSome := by
    rw [Part.counted?, Part.ofSegment]
    split_ifs <;> simp_all
  obtain ⟨part, hpart⟩ := Option.isSome_iff_exists.mp hsome
  rw [parts_eq_counted h, hp, counted, hpart]
  exact List.cons_ne_nil _ _

theorem isSome_counted? (first : Bool) (s : List Char) :
  (Part.counted? first s).isSome = ((Part.ofSegment first s).isSome || (first && s.isEmpty))
  := by
  rw [Part.counted?]
  cases first && s.isEmpty <;> simp

/-- The segments that are left after some parts count as the parts that are left. -/
theorem counted_dropParts {n : Nat} (h : 0 < n ∨ first = false) :
  counted false (dropParts n first segments) = (counted first segments).drop n
  := by
  induction segments generalizing n first with
  | nil => cases n <;> simp [dropParts, counted]
  | cons s segments ih =>
      cases n with
      | zero =>
          obtain rfl : first = false := h.resolve_left (Nat.lt_irrefl 0)
          rw [dropParts, List.drop_zero]
      | succ n =>
          rw [dropParts, counted, ← isSome_counted?]
          cases Part.counted? first s with
          | none =>
              rw [if_neg (by simp), ih (Or.inr rfl)]
              rfl
          | some part =>
              rw [if_pos (by simp), ih (Or.inr rfl)]
              rfl

theorem dropParts_suffix (n : Nat) (first : Bool) (segments : List (List Char)) :
  dropParts n first segments <:+ segments
  := by
  induction segments generalizing n first with
  | nil => cases n <;> exact List.suffix_refl _
  | cons s segments ih =>
      cases n with
      | zero => exact List.suffix_refl _
      | succ n =>
          rw [dropParts]
          split <;> exact (ih ..).trans (List.suffix_cons ..)

theorem dropParts_append {n : Nat} (h : n ≤ (counted first segments).length) :
  dropParts n first (segments ++ rest) = dropParts n first segments ++ rest
  := by
  induction segments generalizing n first with
  | nil =>
      obtain rfl : n = 0 := Nat.le_zero.mp h
      simp [dropParts]
  | cons s segments ih =>
      cases n with
      | zero => rfl
      | succ n =>
          rw [List.cons_append, dropParts, dropParts, ← isSome_counted?]
          rw [counted, List.length_append] at h
          cases hpart : Part.counted? first s with
          | none =>
              rw [hpart] at h
              rw [if_neg (by simp), if_neg (by simp)]
              apply ih
              simpa using h
          | some part =>
              rw [hpart] at h
              rw [if_pos (by simp), if_pos (by simp)]
              apply ih
              rw [Option.toList_some, List.length_singleton] at h
              omega

/-! ### Segments that lead nowhere -/

/-- A segment leads nowhere if it stands for no part. -/
theorem isIdle_iff :
  isIdle s = true ↔ Part.ofSegment false s = none
  := by
  rw [isIdle, Part.ofSegment]
  split_ifs <;> simp_all

/-- The characters of the segment that stands for a part. -/
def Part.segment : Part → List Char
  | .root => []
  | .here => ['.']
  | .up => ['.', '.']
  | .name text => text.toList

theorem Part.segment_of_ofSegment (h : Part.ofSegment first s = some part) :
  part.segment = s
  := by
  rw [ofSegment] at h
  split_ifs at h <;> obtain rfl := Option.some.inj h <;> simp_all [segment]

/-- The root and the start of a path are parts of its first segment only. -/
theorem Part.ne_of_ofSegment (h : Part.ofSegment false s = some part) :
  part ≠ .root ∧ part ≠ .here
  := by
  rw [ofSegment, if_neg Bool.false_ne_true] at h
  split_ifs at h <;> cases h <;> simp

/-- Segments that all lead somewhere are told by their parts. -/
theorem map_segment_filterMap (h : ∀ s ∈ segments, isIdle s = false) :
  (segments.filterMap (Part.ofSegment false)).map Part.segment = segments
  := by
  induction segments with
  | nil => rfl
  | cons s segments ih =>
      obtain ⟨hs, hsegments⟩ := List.forall_mem_cons.mp h
      cases hpart : Part.ofSegment false s with
      | none =>
          rw [isIdle_iff.mpr hpart] at hs
          cases hs
      | some part =>
          rw [List.filterMap_cons_some hpart, List.map_cons, ih hsegments,
            Part.segment_of_ofSegment hpart]

theorem filterMap_dropWhile_isIdle (segments : List (List Char)) :
  (segments.dropWhile isIdle).filterMap (Part.ofSegment false)
    = segments.filterMap (Part.ofSegment false)
  := by
  induction segments with
  | nil => rfl
  | cons s segments ih =>
      cases hs : isIdle s with
      | true =>
          rw [List.dropWhile_cons_of_pos hs, ih, List.filterMap_cons_none (isIdle_iff.mp hs)]
      | false => rw [List.dropWhile_cons_of_neg (by rw [hs]; exact Bool.false_ne_true)]

theorem filterMap_trimSegments (segments : List (List Char)) :
  (trimSegments segments).filterMap (Part.ofSegment false)
    = segments.filterMap (Part.ofSegment false)
  := by
  rw [trimSegments, List.filterMap_reverse, filterMap_dropWhile_isIdle, List.filterMap_reverse,
    List.reverse_reverse]

theorem trimSegments_sublist (segments : List (List Char)) :
  (trimSegments segments).Sublist segments
  := by
  rw [← List.reverse_sublist, trimSegments, List.reverse_reverse]
  apply List.dropWhile_sublist

/-- The first segment stays if it leads somewhere. -/
theorem trimSegments_cons (h : isIdle s = false) :
  trimSegments (s :: segments) = s :: trimSegments segments
  := by
  rw [trimSegments, trimSegments, List.reverse_cons, List.dropWhile_append]
  split
  · next hnil =>
    rw [List.isEmpty_iff] at hnil
    rw [hnil, List.dropWhile_cons_of_neg (by rw [h]; exact Bool.false_ne_true)]
    rfl
  · rw [List.reverse_append]
    rfl

theorem trimSegments_of_forall (h : ∀ s ∈ segments, isIdle s = false) :
  trimSegments segments = segments
  := by
  induction segments with
  | nil => rfl
  | cons s segments ih =>
      obtain ⟨hs, hsegments⟩ := List.forall_mem_cons.mp h
      rw [trimSegments_cons hs, ih hsegments]

/-! ### The path from a directory to what is below it -/

/-- From a directory that has parts, the path is made of the segments behind these, from the first
one on that leads somewhere. -/
theorem exists_pieces_relative_of_ne (hdir : dir.parts ≠ [])
    (h : p.parts = dir.parts ++ part :: more) :
  ∃ s tail, (dropParts dir.parts.length true p.pieces).dropWhile isIdle = s :: tail ∧
    (dir.relative p).pieces = s :: trimSegments tail ∧ Part.ofSegment false s = some part ∧
    tail.filterMap (Part.ofSegment false) = more
  := by
  have hspelling : p.spelling ≠ "" := by
    intro hempty
    rw [parts_of_spelling_eq hempty] at h
    exact List.append_ne_nil_of_right_ne_nil _ (List.cons_ne_nil _ _) h.symm
  have hparts : ((dropParts dir.parts.length true p.pieces).dropWhile isIdle).filterMap
      (Part.ofSegment false) = part :: more := by
    rw [filterMap_dropWhile_isIdle, ← counted_false,
      counted_dropParts (Or.inl (List.length_pos_iff.mpr hdir)), ← parts_eq_counted hspelling, h,
      List.drop_left]
  cases hleft : (dropParts dir.parts.length true p.pieces).dropWhile isIdle with
  | nil =>
      rw [hleft] at hparts
      cases hparts
  | cons s tail =>
      rw [hleft] at hparts
      have hs : isIdle s = false := by
        have hhead := List.head?_dropWhile_not isIdle (dropParts dir.parts.length true p.pieces)
        rwa [hleft] at hhead
      have hpart : Part.ofSegment false s = some part ∧
          tail.filterMap (Part.ofSegment false) = more := by
        cases hpart : Part.ofSegment false s with
        | none =>
            rw [isIdle_iff.mpr hpart] at hs
            cases hs
        | some part' =>
            rw [List.filterMap_cons_some hpart] at hparts
            obtain ⟨rfl, htail⟩ := List.cons.inj hparts
            exact ⟨rfl, htail⟩
      refine ⟨s, tail, rfl, ?_, hpart⟩
      have hmem : ∀ s' ∈ s :: trimSegments tail, '/' ∉ s' := by
        intro s' hs'
        apply not_mem_of_mem_pieces (p := p)
        apply (dropParts_suffix dir.parts.length true p.pieces).mem
        apply (List.dropWhile_suffix isIdle).mem
        rw [hleft]
        apply ((trimSegments_sublist tail).cons_cons s).mem hs'
      rw [relative, below?, if_pos (List.isPrefixOf_iff_prefix.mpr ⟨_, h.symm⟩),
        if_neg (by rwa [List.isEmpty_iff])]
      show (ofSegments (trimSegments
        ((dropParts dir.parts.length true p.pieces).dropWhile isIdle))).pieces = _
      rw [hleft, trimSegments_cons hs]
      apply pieces_ofSegments (List.cons_ne_nil _ _) hmem

/-- A name alone is its only part. -/
theorem parts_of_isName {name : String} (hname : FileNode.IsName name) :
  (⟨name⟩ : Path).parts = [.name name]
  := by
  have hchild : (⟨""⟩ : Path).child name = ⟨name⟩ := by simp [child, join]
  rw [← hchild, parts_child _ hname, parts_of_spelling_eq rfl, List.nil_append]

/-- Only an entry of a directory that has parts, or the name alone, is told from there by its
name. -/
theorem parts_of_spelling_relative {name : String} (hname : FileNode.IsName name)
    (hdir : dir.parts ≠ []) (h : (dir.relative p).spelling = name) :
  p.parts = dir.parts ++ [.name name] ∨ p.parts = [.name name]
  := by
  rw [relative, below?] at h
  split_ifs at h with hprefix hempty
  · exact absurd (List.isEmpty_iff.mp hempty) hdir
  · left
    obtain ⟨more, hmore⟩ := List.isPrefixOf_iff_prefix.mp hprefix
    have hp : p.spelling ≠ "" := by
      intro hp
      rw [parts_of_spelling_eq hp] at hmore
      exact hdir (List.append_eq_nil_iff.mp hmore).1
    generalize hleft : trimSegments
      ((dropParts dir.parts.length true p.pieces).dropWhile isIdle) = left
    have hparts : left.filterMap (Part.ofSegment false) = more := by
      rw [← hleft, filterMap_trimSegments, filterMap_dropWhile_isIdle, ← counted_false,
        counted_dropParts (Or.inl (List.length_pos_iff.mpr hdir)), ← parts_eq_counted hp, ← hmore,
        List.drop_left]
    have hspelling : (ofSegments left).spelling = name := by
      rw [← hleft]
      exact h
    have hne : left ≠ [] := by
      rintro rfl
      exact hname.1 hspelling.symm
    have hmem : ∀ s ∈ left, '/' ∉ s := by
      intro s hs
      apply not_mem_of_mem_pieces (p := p)
      apply (dropParts_suffix dir.parts.length true p.pieces).mem
      apply (List.dropWhile_suffix isIdle).mem
      apply (trimSegments_sublist _).mem (hleft ▸ hs)
    have hleft : left = [name.toList] := by
      rw [← pieces_ofSegments hne hmem, pieces, hspelling]
      apply splitOn_of_not_mem hname.2.2.2
    rw [← hmore, ← hparts, hleft, List.filterMap_cons_some (Part.ofSegment_toList hname false),
      List.filterMap_nil]
  · right
    rw [show p = ⟨name⟩ from congrArg Path.mk h, parts_of_isName hname]

theorem isAbsolute_of_pieces (hp : p.pieces = s :: rest) (hs : s ≠ []) :
  p.isAbsolute = false
  := by
  rw [isAbsolute, beq_eq_false_iff_ne]
  intro hhead
  obtain ⟨cs, hcs⟩ := List.head?_eq_some_iff.mp hhead
  rw [pieces, hcs, ← List.nil_append ('/' :: cs), List.splitOn_append_cons_self,
    List.splitOn_nil, List.singleton_append] at hp
  exact hs (List.cons.inj hp).1.symm

/-- A path that starts with an empty segment, but has others, starts at the root. -/
theorem isAbsolute_of_pieces_nil (hp : p.pieces = [] :: rest) (h : p.spelling ≠ "") :
  p.isAbsolute = true
  := by
  obtain ⟨c, cs, hcs⟩ := List.exists_cons_of_ne_nil
    (fun hnil => h (String.toList_eq_nil_iff.mp hnil))
  rw [isAbsolute, hcs, List.head?_cons, beq_iff_eq, Option.some.injEq]
  by_contra hc
  rw [pieces, hcs, List.splitOn, List.splitOnP_cons_eq_if_modifyHead,
    if_neg (by rwa [beq_iff_eq])] at hp
  obtain ⟨s, segments, hs⟩ := List.exists_cons_of_ne_nil (List.splitOnP_ne_nil (· == '/') cs)
  rw [hs, List.modifyHead_cons] at hp
  cases hp

theorem pieces_trimEnd (hp : p.pieces = s :: rest) (hs : s ≠ []) :
  p.trimEnd.pieces = s :: trimSegments rest
  := by
  have htrim : p.trimEnd = ofSegments (s :: trimSegments rest) := by
    rw [trimEnd, ← pieces, hp, isAbsolute_of_pieces hp hs]
    cases htrim : trimSegments rest with
    | nil => simp only [htrim, Bool.false_eq_true, if_false]
    | cons s' rest => simp only [htrim]
  rw [htrim]
  apply pieces_ofSegments (List.cons_ne_nil _ _)
  intro s' hs'
  apply not_mem_of_mem_pieces (p := p)
  rw [hp]
  apply ((trimSegments_sublist rest).cons_cons s).mem hs'

/-- The path from a directory to what is below it starts with the segment of the first part that
the directory does not have, and its other segments stand for the other parts. -/
theorem exists_pieces_relative (h : p.parts = dir.parts ++ part :: more) (hroot : part ≠ .root)
    (hhere : part ≠ .here) :
  ∃ s tail, (dir.relative p).pieces = s :: tail ∧ Part.ofSegment false s = some part ∧
    tail.filterMap (Part.ofSegment false) = more
  := by
  by_cases hdir : dir.parts = []
  · rw [hdir, List.nil_append] at h
    have hspelling : p.spelling ≠ "" := by
      intro hempty
      rw [parts_of_spelling_eq hempty] at h
      cases h
    obtain ⟨s, rest, hp⟩ := List.exists_cons_of_ne_nil p.pieces_ne_nil
    rw [parts_eq_counted hspelling, hp, counted, counted_false] at h
    have hs : s ≠ [] := by
      rintro rfl
      exact hroot (List.cons.inj h).1.symm
    have hdot : s ≠ ['.'] := by
      rintro rfl
      exact hhere (List.cons.inj h).1.symm
    have hfirst : Part.counted? true s = Part.ofSegment false s := by
      simp [Part.counted?, Part.ofSegment, hs, hdot]
    have hsome : (Part.ofSegment false s).isSome := by
      simp only [Part.ofSegment, List.isEmpty_iff, hs, beq_iff_eq, hdot, if_false]
      split <;> rfl
    obtain ⟨part', hpart⟩ := Option.isSome_iff_exists.mp hsome
    rw [hfirst, hpart] at h
    obtain ⟨rfl, rfl⟩ := List.cons.inj h
    refine ⟨s, trimSegments rest, ?_, hpart, filterMap_trimSegments rest⟩
    rw [relative, below?, hdir, List.isPrefixOf_nil_left, if_pos rfl]
    apply pieces_trimEnd hp hs
  · obtain ⟨s, tail, -, hpieces, hpart, hmore⟩ := exists_pieces_relative_of_ne hdir h
    exact ⟨s, trimSegments tail, hpieces, hpart, (filterMap_trimSegments tail).trans hmore⟩

/-! ### Joined paths -/

/-- No segment of a path leads nowhere, so that it does not start at the root. -/
def IsPlain (p : Path) : Prop :=
  ∀ s ∈ p.pieces, isIdle s = false

instance (p : Path) : Decidable p.IsPlain :=
  decidable_of_iff (p.pieces.any isIdle = false) <| by
    simp only [IsPlain, List.any_eq_false, Bool.not_eq_true]

/-- Segments that all lead somewhere count for the same at the start. -/
theorem counted_of_forall (h : ∀ s ∈ segments, isIdle s = false) (first : Bool) :
  counted first segments = segments.filterMap (Part.ofSegment false)
  := by
  cases segments with
  | nil => rfl
  | cons s segments =>
      have hs := h s List.mem_cons_self
      rw [isIdle, Bool.or_eq_false_iff] at hs
      have hsame : Part.counted? first s = Part.counted? false s := by
        simp [Part.counted?, Part.ofSegment, hs.1, hs.2]
      rw [← counted_false, counted, counted, hsame]

theorem IsPlain.spelling_ne (h : p.IsPlain) :
  p.spelling ≠ ""
  := by
  intro hempty
  have hidle := h [] (by simp [pieces, hempty])
  cases hidle

theorem IsPlain.isAbsolute_eq (h : p.IsPlain) :
  p.isAbsolute = false
  := by
  obtain ⟨s, rest, hp⟩ := List.exists_cons_of_ne_nil p.pieces_ne_nil
  apply isAbsolute_of_pieces hp
  rintro rfl
  have hidle := h [] (by rw [hp]; exact List.mem_cons_self)
  cases hidle

/-- The parts of a plain path are those that its segments stand for. -/
theorem IsPlain.parts_eq (h : p.IsPlain) :
  p.parts = p.pieces.filterMap (Part.ofSegment false)
  := by
  rw [parts_eq_counted h.spelling_ne, counted_of_forall h]

/-- A plain path is told by its parts: it has one, each of its segments is that of a part, and the
first part could stand anywhere in a path. -/
theorem IsPlain.exists_parts (h : p.IsPlain) :
  ∃ part more, p.parts = part :: more ∧ part ≠ .root ∧ part ≠ .here ∧
    p.pieces = part.segment :: more.map Part.segment
  := by
  have hpieces := map_segment_filterMap h
  rw [← h.parts_eq] at hpieces
  cases hparts : p.parts with
  | nil =>
      rw [hparts] at hpieces
      exact absurd hpieces.symm p.pieces_ne_nil
  | cons part more =>
      rw [hparts] at hpieces
      have hmem : part ∈ p.pieces.filterMap (Part.ofSegment false) := by
        rw [← h.parts_eq, hparts]
        exact List.mem_cons_self
      obtain ⟨s, -, hs⟩ := List.mem_filterMap.mp hmem
      obtain ⟨hroot, hhere⟩ := Part.ne_of_ofSegment hs
      exact ⟨part, more, rfl, hroot, hhere, hpieces.symm⟩

/-- The segments of a joined path are those of both; an empty one at the end of the first path is
left out. -/
theorem exists_pieces_join (hdir : dir.spelling ≠ "") (hq : q.isAbsolute = false) :
  ∃ front ≠ [], (dir.join q).pieces = front ++ q.pieces ∧ counted true front = dir.parts ∧
    (dir.pieces = front ∨ dir.pieces = front ++ [[]])
  := by
  rw [join, hq, beq_eq_false_iff_ne.mpr hdir, Bool.false_or, if_neg Bool.false_ne_true]
  split
  · next hlast =>
    obtain ⟨front, hfront⟩ := List.getLast?_eq_some_iff.mp (beq_iff_eq.mp hlast)
    have hpieces : dir.pieces = front.splitOn '/' ++ [[]] := by
      rw [pieces, hfront, List.splitOn_append_cons_self, List.splitOn_nil]
    refine ⟨front.splitOn '/', List.splitOn_ne_nil _ _, ?_, ?_, Or.inr hpieces⟩
    · rw [pieces, String.toList_append, hfront, List.append_assoc, List.singleton_append,
        List.splitOn_append_cons_self, pieces]
    · rw [parts_eq_counted hdir, hpieces, counted_append (List.splitOn_ne_nil _ _)]
      exact (List.append_nil _).symm
  · refine ⟨dir.pieces, dir.pieces_ne_nil, ?_, (parts_eq_counted hdir).symm, Or.inl rfl⟩
    rw [pieces, String.toList_append, String.toList_append, List.append_assoc]
    exact List.splitOn_append_cons_self _ _

/-- A plain path leads from a directory to a path with the parts of both. -/
theorem parts_join (dir : Path) (hq : q.IsPlain) :
  (dir.join q).parts = dir.parts ++ q.parts
  := by
  by_cases hdir : dir.spelling = ""
  · rw [parts_of_spelling_eq hdir, join, hdir, beq_self_eq_true, Bool.or_true, if_pos rfl]
    rfl
  · obtain ⟨front, hne, hpieces, hparts, -⟩ := exists_pieces_join hdir hq.isAbsolute_eq
    have hspelling : (dir.join q).spelling ≠ "" := by
      intro hempty
      obtain ⟨s, hs⟩ := List.exists_mem_of_ne_nil _ q.pieces_ne_nil
      have hmem : s ∈ (dir.join q).pieces := by
        rw [hpieces]
        exact List.mem_append_right _ hs
      rw [pieces, hempty] at hmem
      have hidle := hq s hs
      rw [List.mem_singleton.mp hmem] at hidle
      cases hidle
    rw [parts_eq_counted hspelling, hpieces, counted_append hne, hparts, hq.parts_eq, counted_false]

/-! ### Paths of places -/

open FileNode (IsName)

theorem isIdle_toList {name : String} (h : IsName name) :
  isIdle name.toList = false
  := by
  rw [← Bool.not_eq_true, isIdle_iff, Part.ofSegment_toList h]
  exact fun h => nomatch h

/-- The names on the way to a place are the last segments of its path. -/
theorem exists_pieces_pathOf (hdir : dir.spelling ≠ "") {names : Place} (hne : names ≠ [])
    (h : ∀ name ∈ names, IsName name) :
  ∃ front, (Discovery.pathOf dir names).pieces = front ++ names.map String.toList ∧
    counted true front = dir.parts
  := by
  induction names using List.reverseRecOn with
  | nil => exact absurd rfl hne
  | append_singleton names name ih =>
      have hnames : ∀ name ∈ names, IsName name := fun name' hmem => h name' (by simp [hmem])
      have hname := h name (by simp)
      have hpiece : (⟨name⟩ : Path).pieces = [name.toList] := splitOn_of_not_mem hname.2.2.2
      have hspelling : (Discovery.pathOf dir names).spelling ≠ "" := by
        intro hempty
        have hparts := parts_of_spelling_eq hempty
        rw [parts_pathOf dir hnames] at hparts
        exact parts_ne_nil hdir (List.append_eq_nil_iff.mp hparts).1
      obtain ⟨front, -, hpieces, hparts, hlast⟩ :=
        exists_pieces_join hspelling (isAbsolute_of_not_mem hname.2.2.2)
      rw [Discovery.pathOf, List.foldl_append, List.foldl_cons, List.foldl_nil, child,
        ← Discovery.pathOf, hpieces, hpiece, List.map_append]
      cases names using List.reverseRecOn with
      | nil => exact ⟨front, rfl, hparts⟩
      | append_singleton names last _ =>
          obtain ⟨front', hfront', hparts'⟩ := ih (by simp) hnames
          -- the path of the directory ends with a name, so that nothing is left out
          have hfront : (Discovery.pathOf dir (names ++ [last])).pieces = front := by
            apply hlast.resolve_right
            intro hslash
            rw [hslash, List.map_append, ← List.append_assoc] at hfront'
            obtain hlast := List.cons.inj (List.append_inj_right' hfront' rfl)
            have hidle := isIdle_toList (hnames last (by simp))
            rw [← hlast.1] at hidle
            cases hidle
          refine ⟨front', ?_, hparts'⟩
          rw [← hfront, hfront', List.append_assoc]
          rfl

/-- The path from a directory to a place below it consists of the names on the way. -/
theorem pieces_relative_pathOf (hdir : dir.spelling ≠ "") {names : Place} (hne : names ≠ [])
    (h : ∀ name ∈ names, IsName name) :
  (dir.relative (Discovery.pathOf dir names)).pieces = names.map String.toList
  := by
  have hidle : ∀ s ∈ names.map String.toList, isIdle s = false := by
    intro s hs
    obtain ⟨name, hname, rfl⟩ := List.mem_map.mp hs
    apply isIdle_toList (h name hname)
  obtain ⟨front, hpieces, hfront⟩ := exists_pieces_pathOf hdir hne h
  have hlength : dir.parts.length ≤ (counted true front).length := Nat.le_of_eq (by rw [hfront])
  -- what is left of the directory leads nowhere
  have hrest : (dropParts dir.parts.length true front).dropWhile isIdle = [] := by
    rw [List.dropWhile_eq_nil_iff]
    intro s hs
    have hnone : counted false (dropParts dir.parts.length true front) = [] := by
      rw [counted_dropParts (Or.inl (List.length_pos_iff.mpr (parts_ne_nil hdir))), hfront,
        List.drop_length]
    rw [counted_false, List.filterMap_eq_nil_iff] at hnone
    apply isIdle_iff.mpr (hnone s hs)
  have hleft : (dropParts dir.parts.length true
      (Discovery.pathOf dir names).pieces).dropWhile isIdle = names.map String.toList := by
    rw [hpieces, dropParts_append hlength, List.dropWhile_append, hrest, List.isEmpty_nil,
      if_pos rfl]
    apply List.dropWhile_eq_self_iff.mpr
    intro hpos
    rw [hidle _ (List.getElem_mem hpos)]
    exact Bool.false_ne_true
  obtain ⟨name, names, rfl⟩ := List.exists_cons_of_ne_nil hne
  obtain ⟨s, tail, hs, hrelative, -⟩ :=
    exists_pieces_relative_of_ne (parts_ne_nil hdir) (parts_pathOf dir h)
  rw [hleft] at hs
  rw [hrelative, hs, trimSegments_of_forall]
  intro s' hs'
  apply hidle
  rw [hs]
  exact List.mem_cons_of_mem _ hs'

theorem isPlain_relative_pathOf (hdir : dir.spelling ≠ "") {names : Place} (hne : names ≠ [])
    (h : ∀ name ∈ names, IsName name) :
  (dir.relative (Discovery.pathOf dir names)).IsPlain
  := by
  intro s hs
  rw [pieces_relative_pathOf hdir hne h] at hs
  obtain ⟨name, hname, rfl⟩ := List.mem_map.mp hs
  apply isIdle_toList (h name hname)

end JobIndex.Path
