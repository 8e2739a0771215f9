import JobIndex.Glob.Pattern

/-!
# Patterns for the last name of a path

Some patterns are decided by the last name of a path or by its extension, which is the part from the
last dot on. A path that ends with `..` has no last name, so that none of these patterns matches it,
whatever the text. Patterns that are a whole path, the start of one or the end of one are decided by
the text, and they match `..` too.
-/

namespace JobIndex.Glob

/-- The characters of tokens that all stand for themselves. -/
def literals? : List Token → Option (List Char)
  | [] => some []
  | .literal c :: ts => (literals? ts).map (c :: ·)
  | _ :: _ => none

/-- Whether tokens are characters without any of the given ones. -/
def areLiteralsBut (excluded : List Char) (ts : List Token) : Bool :=
  match literals? ts with
  | none => false
  | some cs => !(cs.any excluded.contains)

/-- Whether tokens are a name in any directory. -/
def isName : List Token → Bool
  | .componentsFirst :: t :: ts => areLiteralsBut ['/'] (t :: ts)
  | _ => false

/-- Whether tokens are any name with an extension. With `separate`, a star alone does not stand for
the directories before the name. -/
def isExtension (separate : Bool) : List Token → Bool
  | .componentsFirst :: .star :: .literal '.' :: ts => areLiteralsBut ['.', '/'] ts
  | .star :: .literal '.' :: ts => !separate && areLiteralsBut ['.', '/'] ts
  | _ => false

/-- Whether tokens are a whole path or the start of one. -/
def isStart (separate : Bool) (ts : List Token) : Bool :=
  match ts.reverse with
  | .componentsLast :: rest => areLiteralsBut [] rest
  | .star :: rest => !separate && !rest.isEmpty && areLiteralsBut [] rest
  | rest => !rest.isEmpty && areLiteralsBut [] rest

/-- Whether tokens are the end of a path; a slash alone is none. -/
def isEnd (separate : Bool) (ts : List Token) : Bool :=
  let isText := fun ts => (literals? ts).any fun cs => !cs.isEmpty && cs != ['/']
  match ts with
  | .componentsFirst :: .star :: ts => !separate && isText ts
  | .componentsFirst :: ts => !ts.isEmpty && areLiteralsBut [] ts
  | .star :: ts => !separate && isText ts
  | ts => isText ts

/-- Whether tokens end with an extension. -/
def endsInExtension (ts : List Token) : Bool :=
  match ts.reverse.dropWhile fun t => areLiteralsBut ['.', '/'] [t] with
  | .literal '.' :: _ => true
  | _ => false

/-- Whether a pattern is decided by the last name of a path. -/
def isForLastName (separate : Bool) (ts : List Token) : Bool :=
  isName ts || isExtension separate ts
    || (!(isStart separate ts) && !(isEnd separate ts) && endsInExtension ts)

/-- Whether a path ends with `..` and has no last name. -/
def hasNoLastName (path : String) : Bool :=
  (path.toList.splitOn '/').getLast? == some ['.', '.']

end JobIndex.Glob
