/-!
# Patterns for paths

A pattern is read into tokens: characters that stand for themselves, wildcards, classes of
characters, and groups of alternatives. A double star that is a whole component of the path stands
for any number of components, together with the slashes around them.
-/

namespace JobIndex.Glob

/-- A token of a pattern. -/
inductive Token where
  | literal (c : Char)
  /-- One character. -/
  | any
  /-- Any number of characters. -/
  | star
  /-- Any number of components at the start. -/
  | componentsFirst
  /-- Any number of components at the end. -/
  | componentsLast
  /-- Any number of components in between. -/
  | components
  /-- One character in some ranges, or one that is in none of them. -/
  | oneOf (negated : Bool) (ranges : List (Char × Char))
  /-- One of several sequences of tokens. -/
  | alternatives (branches : List (List Token))
deriving Repr

/-- Why a text is no pattern. -/
inductive Cause where
  | classUnclosed
  | rangeReversed (low high : Char)
  | groupUnopened
  | groupUnclosed
  | escapeUnfinished
deriving Repr, DecidableEq

/-- The words for why a text is no pattern. -/
def Cause.message : Cause → String
  | .classUnclosed => "unclosed character class; missing ']'"
  | .rangeReversed low high => "invalid range; '" ++ low.toString ++ "' > '" ++ high.toString ++ "'"
  | .groupUnopened =>
    "unopened alternate group; missing '\x7b' (maybe escape '\x7d' with '[\x7d]'?)"
  | .groupUnclosed =>
    "unclosed alternate group; missing '\x7d' (maybe escape '\x7b' with '[\x7b]'?)"
  | .escapeUnfinished => "dangling '\\'"

/-! ### Classes of characters -/

/-- The ranges of a class that have been read, the last one first. -/
structure ClassDraft where
  ranges : List (Char × Char)
  /-- Nothing has been read. -/
  first : Bool
  /-- A hyphen follows the last range. -/
  hyphen : Bool

namespace ClassDraft

/-- A class of which nothing has been read. -/
def empty : ClassDraft where
  ranges := []
  first := true
  hyphen := false

/-- Ends the last range with a character, or starts a range with it. -/
def add (d : ClassDraft) (c : Char) : Except Cause ClassDraft :=
  match d.hyphen, d.ranges with
  | true, (low, _) :: ranges =>
    if c < low then .error (.rangeReversed low c) else .ok ⟨(low, c) :: ranges, false, false⟩
  | _, ranges => .ok ⟨(c, c) :: ranges, false, false⟩

/-- The ranges of a class; a hyphen at the end stands for itself. -/
def close (d : ClassDraft) : List (Char × Char) :=
  (if d.hyphen then ('-', '-') :: d.ranges else d.ranges).reverse

end ClassDraft

/-- The ranges of a class after `[`, and how many characters they and the `]` take. Right after `[`,
both `]` and `-` stand for themselves. -/
def readRanges : ClassDraft → Nat → List Char → Except Cause (List (Char × Char) × Nat)
  | _, _, [] => .error .classUnclosed
  | d, n, c :: cs =>
    if c == ']' && !d.first then .ok (d.close, n + 1)
    else if c == '-' && !d.first && !d.hyphen then readRanges { d with hyphen := true } (n + 1) cs
    else
      match d.add c with
      | .error e => .error e
      | .ok d => readRanges d (n + 1) cs

/-- The class after `[`, and how many characters it takes. -/
def readClass (cs : List Char) : Except Cause (Token × Nat) :=
  let negated := cs.head? == some '!' || cs.head? == some '^'
  let start := if negated then 1 else 0
  match readRanges ClassDraft.empty start (cs.drop start) with
  | .error e => .error e
  | .ok (ranges, n) => .ok (.oneOf negated ranges, n)

/-! ### Patterns -/

/-- A group that is open: the tokens before it and its finished branches, both in reverse. -/
structure Group where
  before : List Token
  branches : List (List Token)

/-- What has been read of a pattern; tokens are in reverse, and the innermost group comes first. -/
structure Draft where
  tokens : List Token
  groups : List Group
  /-- Brackets stand for themselves from now on. -/
  plainBrackets : Bool

namespace Draft

/-- A pattern of which nothing has been read. -/
def empty : Draft where
  tokens := []
  groups := []
  plainBrackets := false

/-- Adds a token. -/
def push (d : Draft) (t : Token) : Draft :=
  { d with tokens := t :: d.tokens }

/-- Replaces the last token by a double star, unless that is one already. -/
def pushComponents (d : Draft) (t : Token) : Draft :=
  match d.tokens with
  | .componentsFirst :: _ => d
  | .componentsLast :: _ => d
  | _ :: tokens => { d with tokens := t :: tokens }
  | [] => d

/-- Opens a group. -/
def openGroup (d : Draft) : Draft :=
  { d with tokens := [], groups := ⟨d.tokens, []⟩ :: d.groups }

/-- Starts another branch; outside groups a comma stands for itself. -/
def nextBranch (d : Draft) : Draft :=
  match d.groups with
  | [] => d.push (.literal ',')
  | g :: groups =>
    { d with
      tokens := []
      groups := { g with branches := d.tokens.reverse :: g.branches } :: groups }

/-- Closes a group. -/
def closeGroup (d : Draft) : Except Cause Draft :=
  match d.groups with
  | [] => .error .groupUnopened
  | g :: groups =>
    .ok { d with
      tokens := .alternatives (d.tokens.reverse :: g.branches).reverse :: g.before
      groups }

/-- Whether a character in a group looks like the start of a branch. -/
def startsBranch (d : Draft) (c : Option Char) : Bool :=
  !d.groups.isEmpty && (c == some ',' || c == some '\x7b')

/-- Reads a star, which `rest` follows and `previous` precedes, and says how many further characters
belong to it. A double star that is no whole component is the same as two single ones. -/
def readStar (d : Draft) (previous : Option Char) (rest : List Char) : Draft × Nat :=
  if rest.head? != some '*' then (d.push .star, 0)
  else
    let twice := (d.push .star).push .star
    let next := (rest.drop 1).head?
    if d.tokens.isEmpty then
      match next with
      | none => (d.push .componentsFirst, 1)
      | some '/' => (d.push .componentsFirst, 2)
      | some _ => (twice, 1)
    else if previous != some '/' && !(d.startsBranch previous) then (twice, 1)
    else
      match next with
      | none => (d.pushComponents .componentsLast, 1)
      | some '/' => (d.pushComponents .components, 2)
      | some c =>
        if !d.groups.isEmpty && (c == ',' || c == '\x7d') then
          (d.pushComponents .componentsLast, 1)
        else (twice, 1)

/-- Reads a character, which `rest` follows and `previous` precedes, and says how many further
characters belong to it. With `lax`, a bracket that is not closed stands for itself. -/
def step (lax : Bool) (d : Draft) (previous : Option Char) (c : Char) (rest : List Char) :
    Except Cause (Draft × Nat) :=
  if c == '?' then .ok (d.push .any, 0)
  else if c == '*' then .ok (d.readStar previous rest)
  else if c == '[' && !d.plainBrackets then
    match readClass rest with
    | .ok (t, n) => .ok (d.push t, n)
    | .error .classUnclosed =>
      if lax then .ok ({ d with plainBrackets := true }.push (.literal '['), 0)
      else .error .classUnclosed
    | .error e => .error e
  else if c == '\x7b' then .ok (d.openGroup, 0)
  else if c == '\x7d' then d.closeGroup.map (·, 0)
  else if c == ',' then .ok (d.nextBranch, 0)
  else if c == '\\' then
    match rest with
    | [] => .error .escapeUnfinished
    | e :: _ => .ok (d.push (.literal e), 1)
  else .ok (d.push (.literal c), 0)

/-- The tokens of a pattern whose groups are all closed. -/
def close (d : Draft) : Except Cause (List Token) :=
  if d.groups.isEmpty then .ok d.tokens.reverse else .error .groupUnclosed

end Draft

/-- Reads characters, of which the first `skip` belong to what has been read. -/
def readFrom (lax : Bool) : Nat → Option Char → Draft → List Char → Except Cause (List Token)
  | _, _, d, [] => d.close
  | skip + 1, _, d, c :: cs => readFrom lax skip (some c) d cs
  | 0, previous, d, c :: cs =>
    match d.step lax previous c cs with
    | .error e => .error e
    | .ok (d, skip) => readFrom lax skip (some c) d cs

/-- The tokens of a pattern. -/
def tokens (lax : Bool) (text : String) : Except Cause (List Token) :=
  readFrom lax 0 none Draft.empty text.toList

end JobIndex.Glob
