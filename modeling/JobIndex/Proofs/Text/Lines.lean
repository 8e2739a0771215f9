import JobIndex.Text.Line
import Mathlib.Data.List.DropRight
import Mathlib.Data.List.TakeWhile

/-!
# The lines of a text

`LineAt` says, of the characters of a text alone, what its lines are: they begin at the start of the
text or after a line feed, go up to the next line feed or the end, and carriage returns at their end
do not count. `lines` finds exactly these lines, with the bytes before them, and `indentations`
counts the blanks at their start, although it cuts off line breaks in another way.
-/

namespace JobIndex.Text

/-! ### Bytes -/

@[simp]
theorem byteSize_append (cs ds : List Char) :
  byteSize (cs ++ ds) = byteSize cs + byteSize ds
  := by
  induction cs with
  | nil => simp [byteSize]
  | cons c cs ih => rw [List.cons_append, byteSize, byteSize, ih, Nat.add_assoc]

theorem byteSize_take_le {m n : Nat} (h : m ≤ n) (cs : List Char) :
  byteSize (cs.take m) ≤ byteSize (cs.take n)
  := by
  obtain ⟨k, rfl⟩ := Nat.exists_eq_add_of_le h
  rw [List.take_add, byteSize_append]
  apply Nat.le_add_right

/-- The bytes of a text are those of its characters. -/
theorem utf8ByteSize_ofList (cs : List Char) :
  (String.ofList cs).utf8ByteSize = byteSize cs
  := by
  induction cs with
  | nil => rfl
  | cons c cs ih =>
      rw [byteSize, ← ih, String.ofList_cons, String.utf8ByteSize_append,
        String.utf8ByteSize_singleton]

theorem byteSize_toList (s : String) :
  byteSize s.toList = s.utf8ByteSize
  := by
  rw [← utf8ByteSize_ofList, String.ofList_toList]

/-- Where the characters after `pre` begin, a text may be cut. -/
theorem isValid_byteSize {text : String} {pre post : List Char} (h : text.toList = pre ++ post) :
  (⟨byteSize pre⟩ : String.Pos.Raw).IsValid text
  := by
  rw [String.Pos.Raw.isValid_iff_exists_append]
  use String.ofList pre, String.ofList post
  constructor
  · rw [← String.ofList_append, ← h, String.ofList_toList]
  · rw [String.Pos.Raw.ext_iff, String.byteIdx_rawEndPos, utf8ByteSize_ofList]

/-- The bytes of a part of a text stand after those of the characters before it. -/
theorem extract_byteSize {text value : String} {pre post : List Char}
    (h : text.toList = pre ++ (value.toList ++ post)) :
  text.toByteArray.extract (byteSize pre) (byteSize pre + byteSize value.toList) = value.toByteArray
  := by
  have htext : text = String.ofList pre ++ (value ++ String.ofList post) := by
    apply String.toList_injective
    rw [String.toList_append, String.toList_append, String.toList_ofList, String.toList_ofList, h]
  have hpre : byteSize pre = (String.ofList pre).toByteArray.size := by
    rw [String.size_toByteArray, utf8ByteSize_ofList]
  have hvalue : byteSize value.toList = value.toByteArray.size := by
    rw [String.size_toByteArray, byteSize_toList]
  rw [htext, String.toByteArray_append, String.toByteArray_append, ← Nat.add_zero (byteSize pre),
    Nat.add_assoc, ByteArray.extract_append_size_add' hpre, Nat.zero_add]
  apply ByteArray.extract_append_eq_left hvalue

/-! ### Cutting at line feeds -/

/-- A text up to its first line feed is its first piece. -/
theorem pieces_append_feed {body : List Char} (hbody : '\n' ∉ body) (cs : List Char) :
  pieces (body ++ '\n' :: cs) = (body ++ ['\n']) :: pieces cs
  := by
  induction body with
  | nil => rfl
  | cons c body ih =>
      rw [List.mem_cons, not_or] at hbody
      rw [List.cons_append, pieces, beq_eq_false_iff_ne.mpr (Ne.symm hbody.1), ih hbody.2]
      rfl

/-- A text without line feeds is a single piece. -/
theorem pieces_of_no_feed {body : List Char} (hbody : '\n' ∉ body) (hne : body ≠ []) :
  pieces body = [body]
  := by
  induction body with
  | nil => exact absurd rfl hne
  | cons c body ih =>
      rw [List.mem_cons, not_or] at hbody
      rw [pieces, beq_eq_false_iff_ne.mpr (Ne.symm hbody.1)]
      cases body with
      | nil => rfl
      | cons d body =>
          rw [ih hbody.2 (List.cons_ne_nil d body)]
          rfl

/-- Every text is cut: it is empty, or a single piece without line feeds, or a first piece that ends
with its only line feed, before a text that is cut. -/
theorem cut_induction {motive : List Char → Prop} (nil : motive [])
    (last : ∀ body, '\n' ∉ body → body ≠ [] → motive body)
    (feed : ∀ body cs, '\n' ∉ body → motive cs → motive (body ++ '\n' :: cs)) (cs : List Char) :
  motive cs
  := by
  induction hn : cs.length using Nat.strong_induction_on generalizing cs with
  | _ n ih =>
      by_cases hfeed : '\n' ∈ cs
      · obtain ⟨body, rest, rfl, hbody⟩ := List.eq_append_cons_of_mem hfeed
        apply feed body rest hbody
        apply ih rest.length _ rest rfl
        rw [← hn, List.length_append, List.length_cons]
        omega
      · by_cases hnil : cs = []
        · rw [hnil]
          exact nil
        · apply last cs hfeed hnil

/-! ### Carriage returns at the end -/

theorem dropTrailing_append_replicate {cs : List Char} {c : Char} (hcs : cs.getLast? ≠ some c)
    (k : Nat) :
  dropTrailing c (cs ++ List.replicate k c) = cs
  := by
  unfold dropTrailing
  rw [List.reverse_append, List.reverse_replicate, List.dropWhile_append_of_pos]
  · cases hrev : cs.reverse with
    | nil =>
        rw [List.dropWhile_nil, List.reverse_nil]
        rw [← List.reverse_reverse cs, hrev, List.reverse_nil]
    | cons d ds =>
        have hd : (d == c) = false := by
          rw [beq_eq_false_iff_ne]
          rintro rfl
          apply hcs
          rw [← List.head?_reverse, hrev, List.head?_cons]
        rw [List.dropWhile_cons_of_neg (by simp [hd]), ← hrev, List.reverse_reverse]
  · simp

/-- What is left of characters without a trailing character does not end with it. -/
theorem exists_append_replicate (c : Char) (cs : List Char) :
  ∃ k, cs = dropTrailing c cs ++ List.replicate k c ∧ (dropTrailing c cs).getLast? ≠ some c
  := by
  induction cs using List.reverseRecOn with
  | nil => exact ⟨0, rfl, by simp [dropTrailing]⟩
  | append_singleton cs d ih =>
      by_cases hd : d = c
      · obtain ⟨k, hk, hlast⟩ := ih
        have hdrop : dropTrailing c (cs ++ [d]) = dropTrailing c cs := by
          simp [dropTrailing, hd]
        refine ⟨k + 1, ?_, by rwa [hdrop]⟩
        rw [hdrop, List.replicate_succ', ← List.append_assoc, ← hk, hd]
      · have hdrop : dropTrailing c (cs ++ [d]) = cs ++ [d] := by
          simp [dropTrailing, hd]
        refine ⟨0, by rw [hdrop, List.replicate_zero, List.append_nil], ?_⟩
        rw [hdrop, List.getLast?_concat, ne_eq, Option.some.injEq]
        exact hd

theorem lineContent_append_feed {body : List Char} (hbody : '\n' ∉ body) :
  lineContent (body ++ ['\n']) = dropTrailing '\r' body
  := by
  have h : body.getLast? ≠ some '\n' := fun h => hbody (List.mem_of_getLast? h)
  rw [lineContent, show ['\n'] = List.replicate 1 '\n' from rfl, dropTrailing_append_replicate h]

theorem lineContent_of_no_feed {body : List Char} (hbody : '\n' ∉ body) :
  lineContent body = dropTrailing '\r' body
  := by
  have h : body.getLast? ≠ some '\n' := fun h => hbody (List.mem_of_getLast? h)
  rw [lineContent, ← List.append_nil body, ← List.replicate_zero (a := '\n'),
    dropTrailing_append_replicate h]
  simp

/-! ### Lines as they stand -/

/-- In `text`, the line with the given number stands after `before`: it has `content`, then
`ending`, which is its line break or what there is of it at the end of the text, and then `after`
follows. -/
structure LineAt (text : List Char) (number : Nat) (before content ending after : List Char) :
    Prop where
  text_eq : text = before ++ (content ++ (ending ++ after))
  number_eq : before.count '\n' = number
  begins : before = [] ∨ before.getLast? = some '\n'
  no_feed : '\n' ∉ content
  no_return : content.getLast? ≠ some '\r'
  ends : ∃ returns,
    ending = List.replicate returns '\r' ++ ['\n'] ∨
    ending = List.replicate returns '\r' ∧ after = []
  nonempty : content ++ ending ≠ []

section

variable {text before content ending after : List Char} {number : Nat}

/-- The first line of a text. -/
theorem lineAt_first {body : List Char} (hbody : '\n' ∉ body) (cs : List Char) :
  ∃ k, LineAt (body ++ '\n' :: cs) 0 [] (dropTrailing '\r' body)
    (List.replicate k '\r' ++ ['\n']) cs
  := by
  obtain ⟨k, hk, hlast⟩ := exists_append_replicate '\r' body
  use k
  exact {
    text_eq := by
      rw [List.nil_append, List.append_assoc, ← List.append_assoc, ← hk, List.singleton_append]
    number_eq := rfl
    begins := .inl rfl
    no_feed := fun h => hbody (hk ▸ List.mem_append_left _ h)
    no_return := hlast
    ends := ⟨k, .inl rfl⟩
    nonempty := by simp }

/-- The only line of a text without line feeds. -/
theorem lineAt_only {body : List Char} (hbody : '\n' ∉ body) (hne : body ≠ []) :
  ∃ k, LineAt body 0 [] (dropTrailing '\r' body) (List.replicate k '\r') []
  := by
  obtain ⟨k, hk, hlast⟩ := exists_append_replicate '\r' body
  use k
  exact {
    text_eq := by
      rw [List.nil_append, List.append_nil, ← hk]
    number_eq := rfl
    begins := .inl rfl
    no_feed := fun h => hbody (hk ▸ List.mem_append_left _ h)
    no_return := hlast
    ends := ⟨k, .inr ⟨rfl, rfl⟩⟩
    nonempty := by rwa [← hk] }

/-- A line of what follows a line feed is a line of the whole text. -/
theorem LineAt.after_feed {body cs before content ending after : List Char} {n : Nat}
    (hbody : '\n' ∉ body) (h : LineAt cs n before content ending after) :
  LineAt (body ++ '\n' :: cs) (n + 1) (body ++ '\n' :: before) content ending after
  where
  text_eq := by
    rw [h.text_eq, List.append_assoc, List.cons_append]
  number_eq := by
    rw [List.count_append, List.count_cons_self, h.number_eq, List.count_eq_zero.mpr hbody,
      Nat.zero_add]
  begins := by
    right
    obtain rfl | hlast := h.begins
    · exact List.getLast?_concat
    · rw [List.getLast?_append, List.getLast?_cons, hlast]
      rfl
  no_feed := h.no_feed
  no_return := h.no_return
  ends := h.ends
  nonempty := h.nonempty

/-- What `linesFrom` finds are lines. -/
theorem lineAt_of_linesFrom {cs : List Char} {start n : Nat} {line : Line}
    (h : (linesFrom start (pieces cs))[n]? = some line) :
  ∃ before ending after, LineAt cs n before line.content ending after ∧
    line.start = start + byteSize before
  := by
  induction cs using cut_induction generalizing start n with
  | nil => simp [pieces, linesFrom] at h
  | last body hbody hne =>
      rw [pieces_of_no_feed hbody hne, linesFrom, linesFrom, List.getElem?_singleton] at h
      obtain ⟨rfl, rfl⟩ : n = 0 ∧ Line.mk (lineContent body) start = line := by grind
      obtain ⟨k, hk⟩ := lineAt_only hbody hne
      use [], List.replicate k '\r', []
      rw [lineContent_of_no_feed hbody]
      exact ⟨hk, rfl⟩
  | feed body cs hbody ih =>
      rw [pieces_append_feed hbody, linesFrom] at h
      cases n with
      | zero =>
          obtain rfl : Line.mk (lineContent (body ++ ['\n'])) start = line := by
            simpa using h
          obtain ⟨k, hk⟩ := lineAt_first hbody cs
          use [], List.replicate k '\r' ++ ['\n'], cs
          rw [lineContent_append_feed hbody]
          exact ⟨hk, rfl⟩
      | succ n =>
          rw [List.getElem?_cons_succ] at h
          obtain ⟨before, ending, after, hline, hstart⟩ := ih h
          refine ⟨_, _, _, hline.after_feed hbody, ?_⟩
          rw [hstart, List.append_cons body '\n' before, byteSize_append (body ++ ['\n']),
            Nat.add_assoc]

/-- Only the line of number zero has no line feed before it. -/
theorem LineAt.before_eq_nil (h : LineAt text 0 before content ending after) :
  before = []
  := by
  have hfeed : '\n' ∉ before := List.count_eq_zero.mp h.number_eq
  obtain hnil | hlast := h.begins
  · exact hnil
  · exact absurd (List.mem_of_getLast? hlast) hfeed

/-- A line of a later number is a line of what follows the first line feed. -/
theorem LineAt.exists_after_feed (h : LineAt text (number + 1) before content ending after) :
  ∃ body cs rest, '\n' ∉ body ∧ text = body ++ '\n' :: cs ∧ before = body ++ '\n' :: rest ∧
    LineAt cs number rest content ending after
  := by
  have hmem : '\n' ∈ before := by
    rw [← List.count_pos_iff, h.number_eq]
    apply Nat.succ_pos
  obtain ⟨body, rest, rfl, hbody⟩ := List.eq_append_cons_of_mem hmem
  refine ⟨body, rest ++ (content ++ (ending ++ after)), rest, hbody, ?_, rfl, ?_⟩
  · rw [h.text_eq, List.append_assoc, List.cons_append]
  · have hcount := h.number_eq
    rw [List.count_append, List.count_eq_zero.mpr hbody, List.count_cons_self] at hcount
    refine { h with text_eq := rfl, number_eq := by omega, begins := ?_ }
    cases rest with
    | nil => exact .inl rfl
    | cons c rest =>
        right
        obtain hnil | hlast := h.begins
        · exact absurd hnil (List.append_ne_nil_of_right_ne_nil _ (List.cons_ne_nil _ _))
        · rwa [List.getLast?_append, List.getLast?_cons_cons, List.getLast?_cons, Option.some_or,
            ← List.getLast?_cons] at hlast

/-- The lines of a text are found. -/
theorem LineAt.getElem?_linesFrom (start : Nat)
    (h : LineAt text number before content ending after) :
  (linesFrom start (pieces text))[number]? = some ⟨content, start + byteSize before⟩
  := by
  induction number generalizing text before start with
  | zero =>
      obtain rfl := h.before_eq_nil
      obtain ⟨k, rfl | ⟨rfl, rfl⟩⟩ := h.ends
      · have hbody : '\n' ∉ content ++ List.replicate k '\r' := by
          simp [h.no_feed]
        have htext : text = content ++ List.replicate k '\r' ++ '\n' :: after := by
          simp [h.text_eq]
        rw [htext, pieces_append_feed hbody, linesFrom, lineContent_append_feed hbody,
          dropTrailing_append_replicate h.no_return]
        rfl
      · have hbody : '\n' ∉ content ++ List.replicate k '\r' := by
          simp [h.no_feed]
        have htext : text = content ++ List.replicate k '\r' := by
          simp [h.text_eq]
        rw [htext, pieces_of_no_feed hbody h.nonempty, linesFrom, lineContent_of_no_feed hbody,
          dropTrailing_append_replicate h.no_return]
        rfl
  | succ number ih =>
      obtain ⟨body, cs, rest, hbody, rfl, rfl, hline⟩ := h.exists_after_feed
      rw [pieces_append_feed hbody, linesFrom, List.getElem?_cons_succ, ih _ hline,
        List.append_cons body '\n' rest, byteSize_append (body ++ ['\n']), Nat.add_assoc]

end

/-- The lines found are those of the text, each at the byte at which it starts. -/
theorem getElem?_lines_iff {text : String} {number : Nat} {line : Line} :
  (lines text)[number]? = some line ↔
    ∃ before ending after, LineAt text.toList number before line.content ending after ∧
      line.start = byteSize before
  := by
  unfold lines
  rw [List.getElem?_toArray]
  constructor
  · intro h
    obtain ⟨before, ending, after, hline, hstart⟩ := lineAt_of_linesFrom h
    exact ⟨before, ending, after, hline, by rw [hstart, Nat.zero_add]⟩
  · rintro ⟨before, ending, after, hline, hstart⟩
    rw [hline.getElem?_linesFrom 0, Nat.zero_add, ← hstart]

/-! ### Blanks -/

/-- Characters at the end that are no blanks do not count. -/
theorem blanks_append {tail : List Char} (htail : ∀ c ∈ tail, c ≠ ' ' ∧ c ≠ '\t') (cs : List Char) :
  blanks (cs ++ tail) = blanks cs
  := by
  induction cs with
  | nil =>
      cases tail with
      | nil => rfl
      | cons c tail =>
          obtain ⟨hspace, htab⟩ := htail c List.mem_cons_self
          simp [blanks, hspace, htab]
  | cons c cs ih =>
      unfold blanks at ih ⊢
      rw [List.cons_append, List.takeWhile_cons, List.takeWhile_cons]
      split
      · rw [List.length_cons, List.length_cons, ih]
      · rfl

/-- The blanks of a line are those of the piece. -/
theorem blanks_lineContent (piece : List Char) :
  blanks (lineContent piece) = blanks piece
  := by
  obtain ⟨k, hk, -⟩ := exists_append_replicate '\n' piece
  obtain ⟨m, hm, -⟩ := exists_append_replicate '\r' (dropTrailing '\n' piece)
  have hpiece : piece = lineContent piece ++ (List.replicate m '\r' ++ List.replicate k '\n') := by
    rw [lineContent, ← List.append_assoc, ← hm, ← hk]
  nth_rewrite 2 [hpiece]
  rw [blanks_append]
  intro c hc
  rw [List.mem_append, List.mem_replicate, List.mem_replicate] at hc
  obtain ⟨-, rfl⟩ | ⟨-, rfl⟩ := hc <;> decide

/-- What is cut off from a piece is no blank. -/
theorem exists_withoutBreak_append (piece : List Char) :
  ∃ ending, piece = withoutBreak piece ++ ending ∧ ∀ c ∈ ending, c ≠ ' ' ∧ c ≠ '\t'
  := by
  unfold withoutBreak
  split
  · next cs h =>
    use ['\r', '\n']
    constructor
    · rw [← List.reverse_reverse piece, h]
      simp
    · simp
  · next cs _ h =>
    use ['\n']
    constructor
    · rw [← List.reverse_reverse piece, h]
      simp
    · simp
  · use []
    simp

/-- Both ways to cut off the line break leave the same blanks. -/
theorem indentations_eq (text : String) :
  indentations text = (lines text).map fun line => blanks line.content
  := by
  have hfrom : ∀ (ps : List (List Char)) (start : Nat),
      (linesFrom start ps).map (fun line => blanks line.content) =
        ps.map fun piece => blanks (withoutBreak piece) := by
    intro ps
    induction ps with
    | nil => exact fun _ => rfl
    | cons piece ps ih =>
        intro start
        obtain ⟨ending, hpiece, hending⟩ := exists_withoutBreak_append piece
        have hblanks : blanks (withoutBreak piece) = blanks (lineContent piece) := by
          rw [blanks_lineContent]
          nth_rewrite 2 [hpiece]
          rw [blanks_append hending]
        rw [linesFrom, List.map_cons, List.map_cons, ih, hblanks]
  unfold indentations lines
  rw [List.map_toArray, hfrom]

/-! ### Words on a line -/

theorem findFrom_eq_some {word cs : List Char} {i j : Nat} (h : findFrom word cs i = some j) :
  ∃ lead tail, cs = lead ++ (word ++ tail) ∧ j = i + lead.length
  := by
  induction cs generalizing i with
  | nil =>
      rw [findFrom] at h
      split at h
      · rename_i hword
        use [], []
        simp_all
      · contradiction
  | cons c cs ih =>
      rw [findFrom] at h
      split at h
      · rename_i hword
        obtain ⟨tail, htail⟩ := List.isPrefixOf_iff_prefix.mp hword
        use [], tail
        simp_all
      · obtain ⟨lead, tail, rfl, rfl⟩ := ih h
        use c :: lead, tail
        use rfl
        rw [List.length_cons]
        omega

theorem findFrom_append (word tail : List Char) (i : Nat) :
  findFrom word (word ++ tail) i = some i
  := by
  cases hcs : word ++ tail with
  | nil => simp_all [findFrom]
  | cons c cs =>
      have hprefix : word.isPrefixOf (c :: cs) = true := by
        rw [List.isPrefixOf_iff_prefix, ← hcs]
        apply List.prefix_append
      rw [findFrom, if_pos hprefix]

/-- A word that is found stands at the column. -/
theorem Line.stands_of_find? {line : Line} {word : List Char} {column found : Nat}
    (h : line.find? word column = some found) :
  ∃ lead tail, line.content = lead ++ (word ++ tail) ∧ found = lead.length
  := by
  unfold Line.find? at h
  rw [Option.or_eq_some_iff] at h
  obtain hafter | ⟨-, hany⟩ := h
  · obtain ⟨lead, tail, hdrop, rfl⟩ := findFrom_eq_some hafter
    use line.content.take column ++ lead, tail
    constructor
    · rw [List.append_assoc, ← hdrop, List.take_append_drop]
    · rw [List.length_append, List.length_take]
  · obtain ⟨lead, tail, hcontent, rfl⟩ := findFrom_eq_some hany
    exact ⟨lead, tail, hcontent, Nat.zero_add _⟩

/-- A word that stands at the column is found there. -/
theorem Line.find?_eq_column {line : Line} {lead word tail : List Char}
    (h : line.content = lead ++ (word ++ tail)) :
  line.find? word lead.length = some lead.length
  := by
  unfold Line.find?
  have hmin : min lead.length line.content.length = lead.length := by
    rw [h, List.length_append]
    omega
  rw [hmin, h, List.drop_left, findFrom_append]
  rfl

end JobIndex.Text
