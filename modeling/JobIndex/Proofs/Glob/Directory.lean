import JobIndex.Glob.Matching
import JobIndex.Proofs.Glob.Shape
import JobIndex.Proofs.Text.Utf8
import Mathlib.Data.List.Basic

/-!
# Patterns for what is in a directory

A text between `**/` and `/**` is the pattern for what is in a directory. If no character of the
text has a meaning of its own in a pattern, then it accepts exactly the paths where the segments of
the text stand one after another and others follow them (`compile_directory`). It compares segments
as they are spelled: an empty one and a `.` count like any other.

The proof goes through the three forms of a pattern: its tokens (`tokens_directory`), the bytes of
their shape (`holds_directory_iff`), and the segments of these bytes. Without stars around it the
text accepts only itself (`compile_literal`).
-/

namespace JobIndex.Glob

/-! ### Tokens -/

/-- The characters that have a meaning of their own in a pattern. A comma has one in groups only. -/
def specials : List Char :=
  ['?', '*', '[', '\x7b', '\x7d', '\\']

/-- All characters of a text stand for themselves in a pattern. -/
def IsLiteral (text : String) : Prop :=
  ∀ c ∈ text.toList, c ∉ specials

instance (text : String) : Decidable (IsLiteral text) :=
  decidable_of_iff (text.toList.any specials.contains = false) <| by
    simp only [IsLiteral, List.any_eq_false, List.contains_iff_mem]

variable {separate : Bool} {d : Draft} {c : Char} {cs : List Char}

theorem Draft.step_literal (hgroups : d.groups = []) (hc : c ∉ specials) (lax : Bool)
    (previous : Option Char) (rest : List Char) :
  d.step lax previous c rest = .ok (d.push (.literal c), 0)
  := by
  simp only [specials, List.mem_cons, List.not_mem_nil, or_false, not_or] at hc
  obtain ⟨hany, hstar, hclass, hopen, hclose, hescape⟩ := hc
  simp only [Draft.step, beq_eq_false_iff_ne.mpr hany, beq_eq_false_iff_ne.mpr hstar,
    beq_eq_false_iff_ne.mpr hclass, beq_eq_false_iff_ne.mpr hopen,
    beq_eq_false_iff_ne.mpr hclose, beq_eq_false_iff_ne.mpr hescape, Bool.false_and,
    Bool.false_eq_true, if_false]
  split
  · next hcomma => rw [Draft.nextBranch, hgroups, beq_iff_eq.mp hcomma]
  · rfl

/-- Characters that stand for themselves are read one by one. -/
theorem readFrom_literals (hgroups : d.groups = []) (hcs : ∀ c ∈ cs, c ∉ specials) (lax : Bool)
    (previous : Option Char) (rest : List Char) :
  ∃ previous', readFrom lax 0 previous d (cs ++ rest)
    = readFrom lax 0 previous' { d with tokens := (cs.map .literal).reverse ++ d.tokens } rest
  := by
  induction cs generalizing d previous with
  | nil => exact ⟨previous, rfl⟩
  | cons c cs ih =>
      obtain ⟨hc, hcs⟩ := List.forall_mem_cons.mp hcs
      obtain ⟨previous', h⟩ := ih (d := d.push (.literal c)) hgroups hcs (some c)
      use previous'
      rw [List.cons_append, readFrom, Draft.step_literal hgroups hc]
      rw [List.map_cons, List.reverse_cons, List.append_assoc, List.singleton_append]
      apply h

/-- The tokens of a pattern for what is in a directory. -/
theorem tokens_directory {text : String} (h : IsLiteral text) (lax : Bool) :
  tokens lax ("**/" ++ text ++ "/**")
    = .ok (.componentsFirst :: (text.toList.map .literal ++ [.componentsLast]))
  := by
  have htoList : ("**/" ++ text ++ "/**").toList
      = '*' :: '*' :: '/' :: (text.toList ++ ['/', '*', '*']) := by
    simp [String.toList_append]
  obtain ⟨previous, hread⟩ := readFrom_literals (d := ⟨[.componentsFirst], [], false⟩) rfl h lax
    (some '/') ['/', '*', '*']
  have hslash : '/' ∉ specials := by decide
  rw [tokens, htoList]
  show readFrom lax 0 (some '/') ⟨[.componentsFirst], [], false⟩ _ = _
  rw [hread, readFrom, Draft.step_literal rfl hslash]
  -- the slash before the double star belongs to it
  show Except.ok (_ :: _).reverse = _
  simp

/-! ### Bytes -/

variable {bs : List UInt8}

theorem literals?_eq_none {t : Token} {ts : List Token} (ht : ∀ c, t ≠ .literal c) (h : t ∈ ts) :
  literals? ts = none
  := by
  induction ts with
  | nil => cases h
  | cons u ts ih =>
      cases u
      case literal c =>
          rcases List.mem_cons.mp h with rfl | h
          · exact absurd rfl (ht c)
          · rw [literals?, ih h, Option.map_none]
      all_goals rfl

/-- Tokens that are not all characters are none of the forms that only consist of characters. -/
theorem areLiteralsBut_eq_false {t : Token} {ts : List Token} (excluded : List Char)
    (ht : ∀ c, t ≠ .literal c) (h : t ∈ ts) :
  areLiteralsBut excluded ts = false
  := by
  rw [areLiteralsBut, literals?_eq_none ht h]

/-- What is in a directory is not decided by its last name. -/
theorem isForLastName_directory (cs : List Char) :
  isForLastName separate (.componentsFirst :: (cs.map .literal ++ [.componentsLast])) = false
  := by
  have hlast : ∀ c, Token.componentsLast ≠ .literal c := fun _ h => nomatch h
  have hbody : ∀ excluded,
      areLiteralsBut excluded (cs.map Token.literal ++ [.componentsLast]) = false := by
    intro excluded
    apply areLiteralsBut_eq_false excluded hlast
    simp
  have hname : isName (.componentsFirst :: (cs.map .literal ++ [.componentsLast])) = false := by
    cases cs <;> exact hbody ['/']
  have hextension :
      isExtension separate (.componentsFirst :: (cs.map .literal ++ [.componentsLast]))
        = false := by
    cases cs <;> rfl
  have hend : endsInExtension (.componentsFirst :: (cs.map .literal ++ [.componentsLast]))
      = false := by
    rw [endsInExtension, List.reverse_cons, List.reverse_append, List.reverse_singleton,
      List.singleton_append, List.cons_append, List.dropWhile_cons_of_neg]
    rw [areLiteralsBut_eq_false _ hlast (List.mem_singleton_self _)]
    exact Bool.false_ne_true
  rw [isForLastName, hname, hextension, hend, Bool.and_false]
  rfl

theorem ByteSet.has_single {b b' : UInt8} :
  (ByteSet.single b).has b' = true ↔ b' = b
  := by
  simp only [has, single, List.any_cons, List.any_nil, Bool.or_false, bne_iff_ne, ne_eq,
    Bool.not_eq_false, Bool.and_eq_true, decide_eq_true_eq]
  constructor
  · rintro ⟨hle, hge⟩
    apply UInt8.le_antisymm hge hle
  · rintro rfl
    exact ⟨UInt8.le_refl _, UInt8.le_refl _⟩

@[simp] theorem holds_slashShape_iff :
  slashShape.Holds bs ↔ bs = [slash]
  := by
  simp [slashShape, ByteSet.has_single]

@[simp] theorem holds_anything :
  anything.Holds bs
  := by
  rw [anything, Shape.holds_many_iff]
  exact fun _ _ => rfl

theorem holds_bytesShape_iff {cs : List UInt8} :
  (bytesShape cs).Holds bs ↔ bs = cs
  := by
  induction cs generalizing bs with
  | nil => apply Shape.holds_nothing_iff
  | cons c cs ih => simp [bytesShape, Shape.holds_andThen_iff, ByteSet.has_single, ih]

/-- Any number of components at the start are nothing, or end with a slash. -/
theorem holds_componentsFirst_iff :
  (Token.componentsFirst.shape separate).Holds bs ↔ bs = [] ∨ ∃ front, bs = front ++ [slash]
  := by
  simp only [Token.shape, Shape.holds_either_iff, Shape.holds_nothing_iff, holds_slashShape_iff,
    Shape.holds_followed_iff, holds_anything, true_and, exists_eq_left, or_assoc]
  apply or_congr_right
  apply or_iff_right_of_imp
  rintro rfl
  exact ⟨[], rfl⟩

/-- Any number of components at the end start with a slash. -/
theorem holds_componentsLast_iff :
  (Token.componentsLast.shape separate).Holds bs ↔ ∃ rest, bs = slash :: rest
  := by
  simp [Token.shape, Shape.holds_followed_iff]

/-- The bytes of characters and what follows them. -/
theorem holds_literals_iff {ts : List Token} :
  (tokensShape separate (cs.map .literal ++ ts)).Holds bs ↔
    ∃ rest, (tokensShape separate ts).Holds rest ∧ bs = cs.flatMap charBytes ++ rest
  := by
  induction cs generalizing bs with
  | nil => simp
  | cons c cs ih =>
      rw [List.map_cons, List.cons_append, tokensShape, Token.shape, Shape.holds_andThen_iff]
      simp only [holds_bytesShape_iff, ih, List.flatMap_cons, List.append_assoc]
      constructor
      · rintro ⟨_, _, rfl, ⟨rest, hrest, rfl⟩, rfl⟩
        exact ⟨rest, hrest, rfl⟩
      · rintro ⟨rest, hrest, rfl⟩
        exact ⟨_, _, rfl, ⟨rest, hrest, rfl⟩, rfl⟩

/-- The bytes of paths to what is in a directory: those of its text, with a slash after them, and
with nothing before them or something that ends with a slash. -/
theorem holds_directory_iff :
  (tokensShape separate (.componentsFirst :: (cs.map .literal ++ [.componentsLast]))).Holds bs ↔
    ∃ front rest, (front = [] ∨ ∃ before, front = before ++ [slash]) ∧
      bs = front ++ cs.flatMap charBytes ++ slash :: rest
  := by
  rw [tokensShape, Shape.holds_andThen_iff]
  have hlast : (tokensShape separate [.componentsLast]).Holds = fun bs => ∃ rest, bs = slash :: rest
      := by
    funext bs
    apply propext
    rw [tokensShape, Shape.holds_andThen_iff]
    simp [tokensShape, holds_componentsLast_iff]
  simp only [holds_componentsFirst_iff, holds_literals_iff, hlast]
  constructor
  · rintro ⟨front, _, hfront, ⟨_, ⟨rest, rfl⟩, rfl⟩, rfl⟩
    exact ⟨front, rest, hfront, (List.append_assoc ..).symm⟩
  · rintro ⟨front, rest, hfront, rfl⟩
    exact ⟨front, _, hfront, ⟨_, ⟨rest, rfl⟩, rfl⟩, List.append_assoc ..⟩

/-! ### Characters -/

theorem charBytes_slash :
  charBytes '/' = [slash]
  := by
  decide

/-- Only a slash has the byte of a slash. -/
theorem eq_of_slash_mem_charBytes (h : slash ∈ charBytes c) :
  c = '/'
  := by
  have hvalid : c.toNat < 0xD800 ∨ 0xDFFF < c.toNat ∧ c.toNat < 0x110000 := c.valid
  have hnumber : ∀ n < 256, slash = Text.byte n → n = 47 := by
    intro n hn heq
    rw [← Text.toNat_byte hn, ← heq]
    rfl
  apply Char.toNat_inj.mp
  show c.toNat = 47
  unfold charBytes Text.encodeCode at h
  split_ifs at h
  all_goals simp only [List.mem_cons, List.not_mem_nil, or_false] at h
  · apply hnumber _ (by omega) h
  -- the bytes of characters that have more than one are large
  · obtain h | h := h <;> have := hnumber _ (by omega) h <;> omega
  · obtain h | h | h := h <;> have := hnumber _ (by omega) h <;> omega
  · obtain h | h | h | h := h <;> have := hnumber _ (by omega) h <;> omega

/-- A byte of a slash among those of characters is that of a slash among these. -/
theorem flatMap_eq_append_slash {front back : List UInt8}
    (h : cs.flatMap charBytes = front ++ slash :: back) :
  ∃ before after, cs = before ++ '/' :: after ∧ before.flatMap charBytes = front ∧
    after.flatMap charBytes = back
  := by
  induction cs generalizing front with
  | nil =>
      rw [List.flatMap_nil] at h
      exact absurd h.symm (List.append_ne_nil_of_right_ne_nil _ (List.cons_ne_nil _ _))
  | cons c cs ih =>
      rw [List.flatMap_cons] at h
      by_cases hc : c = '/'
      · rw [hc, charBytes_slash] at h
        cases front with
        | nil => exact ⟨[], cs, by rw [hc]; rfl, rfl, (List.cons.inj h).2⟩
        | cons b front =>
            obtain ⟨rfl, hrest⟩ := List.cons.inj h
            obtain ⟨before, after, rfl, rfl, rfl⟩ := ih hrest
            refine ⟨c :: before, after, rfl, ?_, rfl⟩
            rw [hc, List.flatMap_cons, charBytes_slash]
            rfl
      · -- the slash stands behind the bytes of `c`
        obtain ⟨front', rfl, hrest⟩ | ⟨bytes, hbytes, hrest⟩ := List.append_eq_append_iff.mp h
        · obtain ⟨before, after, rfl, rfl, rfl⟩ := ih hrest
          exact ⟨c :: before, after, rfl, rfl, rfl⟩
        · cases bytes with
          | nil =>
              have hnil : cs.flatMap charBytes = [] ++ slash :: back := hrest.symm
              obtain ⟨before, after, rfl, hbefore, rfl⟩ := ih hnil
              refine ⟨c :: before, after, rfl, ?_, rfl⟩
              rw [List.flatMap_cons, hbefore, hbytes, List.append_nil, List.append_nil]
          | cons b bytes =>
              obtain ⟨rfl, -⟩ := List.cons.inj hrest
              exfalso
              apply hc (eq_of_slash_mem_charBytes _)
              rw [hbytes]
              exact List.mem_append_right _ List.mem_cons_self

theorem flatMap_charBytes_injective {ds : List Char}
    (h : cs.flatMap charBytes = ds.flatMap charBytes) :
  cs = ds
  := by
  have hencode : Text.encode (String.ofList cs) = Text.encode (String.ofList ds) := by
    rw [Text.encode, Text.encode, String.toList_ofList, String.toList_ofList]
    exact h
  have hdecode := Text.decode_encode (String.ofList cs)
  rw [hencode, Text.decode_encode] at hdecode
  exact (String.ofList_injective (Except.ok.inj hdecode)).symm

/-- The bytes of paths to what is in a directory are those of its characters with a slash after
them, and with nothing before them or something that ends with a slash. -/
theorem flatMap_eq_directory_iff {ds : List Char} :
  (∃ front rest, (front = [] ∨ ∃ before, front = before ++ [slash]) ∧
      cs.flatMap charBytes = front ++ ds.flatMap charBytes ++ slash :: rest) ↔
    ∃ front rest, (front = [] ∨ ∃ before, front = before ++ ['/']) ∧
      cs = front ++ ds ++ '/' :: rest
  := by
  constructor
  · rintro ⟨front, rest, hfront, h⟩
    obtain ⟨front', rest', rfl, hfront', -⟩ := flatMap_eq_append_slash h
    rcases hfront with rfl | ⟨before, rfl⟩
    · obtain rfl := flatMap_charBytes_injective (hfront'.trans (List.nil_append _))
      exact ⟨[], rest', Or.inl rfl, rfl⟩
    · rw [List.append_assoc, List.singleton_append] at hfront'
      obtain ⟨before', ds', rfl, -, hds⟩ := flatMap_eq_append_slash hfront'
      obtain rfl := flatMap_charBytes_injective hds
      exact ⟨before' ++ ['/'], rest', Or.inr ⟨before', rfl⟩, by simp⟩
  · rintro ⟨front, rest, hfront, rfl⟩
    refine ⟨front.flatMap charBytes, rest.flatMap charBytes, ?_, ?_⟩
    · rcases hfront with rfl | ⟨before, rfl⟩
      · exact Or.inl rfl
      · right
        exact ⟨before.flatMap charBytes, by rw [List.flatMap_append, List.flatMap_singleton,
          charBytes_slash]⟩
    · rw [List.flatMap_append, List.flatMap_append, List.flatMap_cons, charBytes_slash]
      rfl

/-! ### Segments -/

/-- Segments are joined in parts. -/
theorem intercalate_append {ls ms : List (List Char)} (hls : ls ≠ []) (hms : ms ≠ []) :
  ['/'].intercalate (ls ++ ms) = ['/'].intercalate ls ++ '/' :: ['/'].intercalate ms
  := by
  induction ls with
  | nil => exact absurd rfl hls
  | cons l ls ih =>
      cases ls with
      | nil => simp [List.intercalate_cons_of_ne_nil hms]
      | cons m ls =>
          rw [List.cons_append, List.intercalate_cons_of_ne_nil (by simp), ih (by simp),
            List.intercalate_cons_cons]
          exact (List.append_assoc ..).symm

/-- Segments stand between others exactly if their characters stand between slashes, or at the start
before one. -/
theorem splitOn_eq_append_iff {ds : List Char} :
  (∃ before after, after ≠ [] ∧ cs.splitOn '/' = before ++ ds.splitOn '/' ++ after) ↔
    ∃ front rest, (front = [] ∨ ∃ before, front = before ++ ['/']) ∧
      cs = front ++ ds ++ '/' :: rest
  := by
  constructor
  · rintro ⟨before, after, hafter, h⟩
    have hds := List.splitOn_ne_nil '/' ds
    have hcs : ['/'].intercalate (cs.splitOn '/') = cs := List.intercalate_splitOn '/'
    rw [h, intercalate_append (List.append_ne_nil_of_right_ne_nil _ hds) hafter] at hcs
    cases before with
    | nil =>
        rw [List.nil_append, List.intercalate_splitOn] at hcs
        exact ⟨[], _, Or.inl rfl, hcs.symm⟩
    | cons s before =>
        rw [intercalate_append (List.cons_ne_nil _ _) hds, List.intercalate_splitOn] at hcs
        refine ⟨['/'].intercalate (s :: before) ++ ['/'], ['/'].intercalate after,
          Or.inr ⟨_, rfl⟩, ?_⟩
        rw [← hcs]
        simp
  · rintro ⟨front, rest, rfl | ⟨before, rfl⟩, rfl⟩
    · refine ⟨[], rest.splitOn '/', List.splitOn_ne_nil _ _, ?_⟩
      rw [List.nil_append, List.splitOn_append_cons_self, List.nil_append]
    · refine ⟨before.splitOn '/', rest.splitOn '/', List.splitOn_ne_nil _ _, ?_⟩
      rw [List.append_assoc, List.append_assoc, List.singleton_append,
        List.splitOn_append_cons_self, List.splitOn_append_cons_self, List.append_assoc]

/-- The pattern for what is in a directory accepts the paths where the segments of the directory
stand one after another and others follow them. -/
theorem compile_directory {text : String} (h : IsLiteral text) :
  ∃ g, compile ("**/" ++ text ++ "/**") = .ok g ∧ ∀ path : String,
    g.accepts path = true ↔ ∃ before after, after ≠ [] ∧
      path.toList.splitOn '/' = before ++ text.toList.splitOn '/' ++ after
  := by
  have hshape : ∀ ts : List Token,
      patternShape false (.componentsFirst :: (ts ++ [.componentsLast]))
        = tokensShape false (.componentsFirst :: (ts ++ [.componentsLast])) := by
    intro ts
    cases ts <;> rfl
  rw [compile, tokens_directory h]
  refine ⟨_, rfl, ?_⟩
  intro path
  rw [accepts, isForLastName_directory, hshape, Bool.false_and, Bool.not_false, Bool.true_and,
    Shape.fits_iff_holds, holds_directory_iff, splitOn_eq_append_iff]
  apply flatMap_eq_directory_iff

/-! ### Patterns without wildcards -/

theorem tokens_literal {text : String} (h : IsLiteral text) (lax : Bool) :
  tokens lax text = .ok (text.toList.map .literal)
  := by
  obtain ⟨previous, hread⟩ := readFrom_literals (d := Draft.empty) rfl h lax none []
  rw [List.append_nil] at hread
  rw [tokens, hread, readFrom]
  show Except.ok (_ ++ []).reverse = _
  rw [List.append_nil, List.reverse_reverse]

theorem literals?_map (cs : List Char) :
  literals? (cs.map .literal) = some cs
  := by
  induction cs with
  | nil => rfl
  | cons c cs ih => rw [List.map_cons, literals?, ih, Option.map_some]

/-- A whole path is not decided by its last name. -/
theorem isForLastName_literal (cs : List Char) :
  isForLastName separate (cs.map .literal) = false
  := by
  have hstart : isStart separate (cs.map .literal) = !cs.isEmpty := by
    rw [isStart, ← List.map_reverse]
    cases hrev : cs.reverse with
    | nil =>
        rw [List.reverse_eq_nil_iff.mp hrev]
        rfl
    | cons c rev =>
        have hne : cs ≠ [] := by
          rintro rfl
          cases hrev
        show (!false && areLiteralsBut [] ((c :: rev).map .literal)) = _
        rw [areLiteralsBut, literals?_map, List.isEmpty_eq_false_iff.mpr hne]
        simp
  cases cs with
  | nil => rfl
  | cons c cs =>
      rw [isForLastName, hstart]
      rfl

/-- A text whose characters all stand for themselves is the pattern for itself. -/
theorem compile_literal {text : String} (h : IsLiteral text) :
  ∃ g, compile text = .ok g ∧ ∀ path : String, g.accepts path = true ↔ path = text
  := by
  have hshape : patternShape false (text.toList.map .literal)
      = tokensShape false (text.toList.map .literal ++ []) := by
    rw [List.append_nil]
    cases text.toList <;> rfl
  rw [compile, tokens_literal h]
  refine ⟨_, rfl, ?_⟩
  intro path
  rw [accepts, isForLastName_literal, hshape, Bool.false_and, Bool.not_false, Bool.true_and,
    Shape.fits_iff_holds, holds_literals_iff]
  simp only [tokensShape, Shape.holds_nothing_iff, exists_eq_left, List.append_nil]
  constructor
  · intro hbytes
    exact String.toList_inj.mp (flatMap_charBytes_injective hbytes)
  · rintro rfl
    rfl

end JobIndex.Glob
