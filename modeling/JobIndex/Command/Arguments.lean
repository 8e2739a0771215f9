import JobIndex.Path

/-!
# The command line

The arguments of the program: options, then the name of a command, then its words and options.
Options for all commands may stand before or after the name. An option may be given once on each
side, and what stands after the name counts.
-/

namespace JobIndex.Command

/-- What the program is asked to do. -/
inductive Request where
  | index (force : Bool)
  | job (name : String)
  | children (name : String)
  | resolve (name : String) (key? : Option String)
  | references (name : String)
  | rename (old new : String)
  | hierarchy (name : String)
  | definition (file : Path) (line column : Nat)
  | symbols (file? : Option Path)
deriving Repr

/-- The options for all commands. -/
structure Options where
  workspace : Path
  json : Bool
  config? : Option Path
  noCache : Bool
  /-- Patterns in addition to those of the configuration. -/
  patterns : List String
  diagnostics : Bool
deriving Repr

/-- A use of the program. -/
structure Invocation where
  options : Options
  request : Request
deriving Repr

/-- Why there is nothing to run. -/
inductive Stop where
  /-- The arguments make no sense. -/
  | usage
  | version
  | help
deriving Repr, DecidableEq

/-! ### Names -/

/-- The commands. -/
inductive Verb where
  | index
  | job
  | children
  | resolve
  | references
  | rename
  | hierarchy
  | definition
  | symbols
deriving Repr, DecidableEq

/-- The command with a name. -/
def Verb.ofName? : String → Option Verb
  | "index" => some .index
  | "job" => some .job
  | "children" => some .children
  | "resolve" => some .resolve
  | "references" => some .references
  | "rename" => some .rename
  | "hierarchy" => some .hierarchy
  | "definition" => some .definition
  | "symbols" => some .symbols
  | _ => none

/-- The options. -/
inductive Flag where
  | workspace
  | json
  | config
  | noCache
  | pattern
  | diagnostics
  | force
  | key
  | file
  | version
  | help
deriving Repr, DecidableEq

namespace Flag

/-- The option with a long name. -/
def ofLong? : String → Option Flag
  | "workspace" => some .workspace
  | "json" => some .json
  | "config" => some .config
  | "no-cache" => some .noCache
  | "pattern" => some .pattern
  | "diagnostics" => some .diagnostics
  | "force" => some .force
  | "key" => some .key
  | "file" => some .file
  | "version" => some .version
  | "help" => some .help
  | _ => none

/-- The option with a letter. -/
def ofShort? : Char → Option Flag
  | 'w' => some .workspace
  | 'k' => some .key
  | 'V' => some .version
  | 'h' => some .help
  | _ => none

/-- Whether an option has a value. -/
def hasValue : Flag → Bool
  | .workspace | .config | .pattern | .key | .file => true
  | _ => false

/-- Whether an option may stand before the name of the command, or after a given one. -/
def isKnown (verb? : Option Verb) : Flag → Bool
  | .force => verb? == some .index
  | .key => verb? == some .resolve
  | .file => verb? == some .symbols
  | .version => verb? == none
  | _ => true

end Flag

/-! ### Reading arguments -/

/-- What is given on one side of the name of the command. -/
structure Given where
  workspace? : Option String
  config? : Option String
  key? : Option String
  file? : Option String
  patterns : List String
  json : Bool
  noCache : Bool
  diagnostics : Bool
  force : Bool
  words : List String
deriving Repr

namespace Given

/-- Nothing is given. -/
def nothing : Given where
  workspace? := none
  config? := none
  key? := none
  file? := none
  patterns := []
  json := false
  noCache := false
  diagnostics := false
  force := false
  words := []

/-- The value of an option that is not given yet. -/
def once (old? : Option String) (value : String) : Except Stop (Option String) :=
  if old?.isSome then .error .usage else .ok (some value)

/-- The path of an option that is not given yet; it is not empty. -/
def oncePath (old? : Option String) (value : String) : Except Stop (Option String) :=
  if value == "" then .error .usage else once old? value

/-- Gives an option with a value. -/
def withValue (g : Given) (flag : Flag) (value : String) : Except Stop Given := do
  match flag with
  | .workspace => return { g with workspace? := ← oncePath g.workspace? value }
  | .config => return { g with config? := ← oncePath g.config? value }
  | .file => return { g with file? := ← oncePath g.file? value }
  | .key => return { g with key? := ← once g.key? value }
  | .pattern => return { g with patterns := g.patterns ++ [value] }
  | _ => throw .usage

/-- A switch that is not on yet. -/
def switch (old : Bool) : Except Stop Bool :=
  if old then .error .usage else .ok true

/-- Gives an option without a value. -/
def withFlag (g : Given) (flag : Flag) : Except Stop Given := do
  match flag with
  | .json => return { g with json := ← switch g.json }
  | .noCache => return { g with noCache := ← switch g.noCache }
  | .diagnostics => return { g with diagnostics := ← switch g.diagnostics }
  | .force => return { g with force := ← switch g.force }
  | .version => throw .version
  | .help => throw .help
  | _ => throw .usage

/-- Gives a word. -/
def withWord (g : Given) (word : String) : Given :=
  { g with words := g.words ++ [word] }

end Given

/-- An option as it is written: which one, and the value that is attached to it. -/
def flagOf? (verb? : Option Verb) (argument : List Char) : Option (Flag × Option String) :=
  let named := match argument with
    | '-' :: '-' :: name =>
      let value := name.dropWhile (· != '=')
      (Flag.ofLong? (String.ofList (name.takeWhile (· != '=')))).map fun flag =>
        (flag, if value.isEmpty then none else some (String.ofList (value.drop 1)))
    | '-' :: letter :: rest =>
      (Flag.ofShort? letter).map fun flag =>
        (flag, match rest with
          | [] => none
          | '=' :: value => some (String.ofList value)
          | value => some (String.ofList value))
    | _ => none
  named.filter fun (flag, _) => flag.isKnown verb?

/-- Whether an argument is written like an option. -/
def looksLikeFlag (argument : List Char) : Bool :=
  argument.head? == some '-' && argument != ['-']

/-- Reads the arguments on one side of the name of the command. The option `pending` waits for its
value, and after `--` all arguments are words. Before the name, the first word is that name: it ends
the reading, and the arguments after it are left. -/
def scan (verb? : Option Verb) :
    Given → Option Flag → Bool → List String → Except Stop (Given × Option (Verb × List String))
  | g, none, _, [] => .ok (g, none)
  | _, some _, _, [] => .error .usage
  | g, pending, plain, argument :: rest => do
    let cs := argument.toList
    if !plain && looksLikeFlag cs then
      if pending.isSome then throw .usage
      if cs == ['-', '-'] then scan verb? g none true rest
      else
        match flagOf? verb? cs with
        | none => throw .usage
        | some (flag, attached?) =>
          match flag.hasValue, attached? with
          | true, some value => scan verb? (← g.withValue flag value) none plain rest
          | true, none => scan verb? g (some flag) plain rest
          | false, none => scan verb? (← g.withFlag flag) none plain rest
          | false, some _ =>
            if cs.take 2 == ['-', '-'] then throw .usage
            else
              let _ ← g.withFlag flag
              throw .usage
    else
      match pending with
      | some flag => scan verb? (← g.withValue flag argument) none plain rest
      | none =>
        match verb? with
        | some _ => scan verb? (g.withWord argument) none plain rest
        | none =>
          if plain then throw .usage
          else if argument == "help" then throw .help
          else
            match Verb.ofName? argument with
            | some verb => return (g, some (verb, rest))
            | none => throw .usage

/-- A number that fits a word; a plus may stand before it. -/
def number? (word : String) : Option Nat :=
  let digits := match word.toList with
    | '+' :: cs => cs
    | cs => cs
  if digits.isEmpty || !(digits.all fun c => '0' ≤ c && c ≤ '9') then none
  else
    let n := digits.foldl (fun n c => 10 * n + (c.toNat - 48)) 0
    if n < Nat.pow 2 64 then some n else none

/-- The request with the words and options after the name of the command. -/
def request (verb : Verb) (g : Given) : Except Stop Request :=
  match verb, g.words with
  | .index, [] => .ok (.index g.force)
  | .job, [name] => .ok (.job name)
  | .children, [name] => .ok (.children name)
  | .resolve, [name] => .ok (.resolve name g.key?)
  | .references, [name] => .ok (.references name)
  | .rename, [old, new] => .ok (.rename old new)
  | .hierarchy, [name] => .ok (.hierarchy name)
  | .definition, [file, line, column] =>
    match number? line, number? column with
    | some line, some column =>
      if file == "" then .error .usage else .ok (.definition ⟨file⟩ line column)
    | _, _ => .error .usage
  | .symbols, [] => .ok (.symbols (g.file?.map Path.mk))
  | _, _ => .error .usage

/-- The options for all commands, of which those after the name of the command count. -/
def options (before after : Given) : Options where
  workspace := ⟨(after.workspace?.or before.workspace?).getD "."⟩
  json := before.json || after.json
  config? := (after.config?.or before.config?).map Path.mk
  noCache := before.noCache || after.noCache
  patterns := if after.patterns.isEmpty then before.patterns else after.patterns
  diagnostics := before.diagnostics || after.diagnostics

/-- The use of the program that arguments stand for. -/
def parse (arguments : List String) : Except Stop Invocation := do
  match ← scan none Given.nothing none false arguments with
  | (_, none) => throw .usage
  | (before, some (verb, rest)) =>
    let (after, _) ← scan (some verb) Given.nothing none false rest
    return { options := options before after, request := ← request verb after }

end JobIndex.Command
