/-
  Reading the command line. The arguments are read one after the other by a machine that stands on a
  level. An option may stand once on each level, and `--` ends the options. A request for help or for the
  version is granted where it stands; so is the first fault, whatever comes behind it.
-/
import Tariff.Command.Level

namespace Tariff.Command

/-- Where formula text is taken from. -/
inductive FormulaText
  | words (texts : List String)
  | file (path : String)
deriving DecidableEq

/-- What is to be done. -/
inductive Action
  | build (text : FormulaText)
  | validate (text : FormulaText)
  | normalize (text : String)
  | showSettings
  | writeSettings (path : String) (force : Bool)
  | complete (s : Shell)
  | version
deriving DecidableEq

/-- An action with the options that go with every one. Without an action help is shown. -/
structure Invocation where
  config : Option String
  json : Bool
  quiet : Bool
  verbose : Bool
  action : Option Action
deriving DecidableEq

/-- What is wrong with a command line. -/
inductive UsageError
  | unknownOption (arg : String)
  | unexpectedWord (arg : String)
  | missingValue (o : Opt)
  | unneededValue (o : Opt)
  | repeatedOption (o : Opt)
  | emptyPath
  | missingCommand
  | missingFormula
  | wordsAndFile
deriving DecidableEq

def UsageError.message : UsageError → String
  | .unknownOption arg => "unknown option: " ++ arg
  | .unexpectedWord arg => "unexpected argument: " ++ arg
  | .missingValue o => "a path has to follow --" ++ o.name
  | .unneededValue o => "--" ++ o.name ++ " takes no value"
  | .repeatedOption o => "--" ++ o.name ++ " stands more than once"
  | .emptyPath => "a path is empty"
  | .missingCommand => "a command is missing"
  | .missingFormula => "a formula is missing"
  | .wordsAndFile => "formulas stand both on the command line and in a file"

/-- What ends the reading early. -/
inductive Halt
  | help (l : Level)
  | version (l : Level)
  | usage (e : UsageError)
deriving DecidableEq

/-- Options with their values, which are empty for those that take none. -/
abbrev Given := List (Opt × String)

/-- What is read next: anything, the path of an option, words only, or commands to give help about, up
    to the help command itself. -/
inductive Mode
  | anything
  | pathOf (o : Opt)
  | wordsOnly
  | topics (l : Option Level)
deriving DecidableEq

/-- The machine: its level, the options of the levels above with the deepest first, and the options and
    words of its own level. -/
structure Reader where
  level : Level := .program
  mode : Mode := .anything
  above : Given := []
  given : Given := []
  words : List String := []

namespace Reader

/-- Takes an option with its value. -/
def give (r : Reader) (o : Opt) (value : String) : Except Halt Reader :=
  if o = .help then .error (.help r.level)
  else if o = .version then .error (.version r.level)
  else if (r.given.lookup o).isSome then .error (.usage (.repeatedOption o))
  else if o.takesPath ∧ value = "" then .error (.usage .emptyPath)
  else .ok { r with mode := .anything, given := r.given ++ [(o, value)] }

/-- Takes what stands behind two dashes: the name of an option, and its path behind `=` or in the next
    argument. -/
def long (r : Reader) (body : List Char) : Except Halt Reader :=
  let name := String.ofList (body.takeWhile (· ≠ '='))
  match r.level.optionNamed? name, body.dropWhile (· ≠ '=') with
  | none, _ => .error (.usage (.unknownOption name))
  | some o, [] => if o.takesPath then .ok { r with mode := .pathOf o } else r.give o ""
  | some o, _ :: value =>
    if o.takesPath then r.give o (String.ofList value) else .error (.usage (.unneededValue o))

/-- Takes what stands behind one dash: letters of options, the last of which may have its path behind
    it, after `=` or at once, or in the next argument. -/
def letters (r : Reader) : List Char → Except Halt Reader
  | [] => .ok r
  | c :: cs =>
    match r.level.optionLettered? c with
    | none => .error (.usage (.unknownOption (String.ofList [c])))
    | some o =>
      if o.takesPath then
        match cs with
        | [] => .ok { r with mode := .pathOf o }
        | '=' :: value => r.give o (String.ofList value)
        | value => r.give o (String.ofList value)
      else
        match r.give o "" with
        | .ok r => r.letters cs
        | .error h => .error h

/-- Takes a word. The word of `config init` is a path. -/
def word (r : Reader) (arg : String) : Except Halt Reader :=
  if ! r.level.hasRoom r.words.length then .error (.usage (.unexpectedWord arg))
  else if r.level = .configInit ∧ arg = "" then .error (.usage .emptyPath)
  else .ok { r with words := r.words ++ [arg] }

/-- Takes a command to give help about; the help command is one where there are commands. -/
def topic (r : Reader) (l : Option Level) (arg : String) : Except Halt Reader :=
  let commands := (l.map Level.commands).getD []
  match commands.lookup arg with
  | some m => .ok { r with mode := .topics (some m) }
  | none =>
    if arg = "help" ∧ commands ≠ [] then .ok { r with mode := .topics none }
    else .error (.usage (.unexpectedWord arg))

/-- Goes down to a command. -/
def descend (r : Reader) (l : Level) : Reader := { level := l, above := r.given ++ r.above }

/-- Takes an argument that may be anything. -/
def any (r : Reader) (arg : String) : Except Halt Reader :=
  match r.level.commands.lookup arg with
  | some l => .ok (r.descend l)
  | none =>
    if arg = "help" ∧ r.level.commands ≠ [] then .ok { r with mode := .topics (some r.level) }
    else
      match arg.toList with
      | ['-', '-'] => .ok { r with mode := .wordsOnly }
      | '-' :: '-' :: body => r.long body
      | '-' :: c :: cs => r.letters (c :: cs)
      | _ => r.word arg

/-- Whether an argument looks like an option. A dash alone does not. -/
def isOptionLike (arg : String) : Bool := arg.toList.head? = some '-' && arg ≠ "-"

/-- Takes one argument. -/
def step (r : Reader) (arg : String) : Except Halt Reader :=
  match r.mode with
  | .anything => r.any arg
  | .pathOf o =>
    if isOptionLike arg then .error (.usage (.missingValue o)) else r.give o arg
  | .wordsOnly => r.word arg
  | .topics l => r.topic l arg

/-- The text that building or validating is about: words or a file, but not both. -/
def formulaText (r : Reader) : Except UsageError FormulaText :=
  match r.given.lookup .file, r.words with
  | some path, [] => .ok (.file path)
  | some _, _ => .error .wordsAndFile
  | none, [] => .error .missingFormula
  | none, texts => .ok (.words texts)

/-- The action that has been asked for, if any. -/
def action (r : Reader) : Except UsageError (Option Action) :=
  match r.level with
  | .program => .ok none
  | .build => r.formulaText.map fun t => some (.build t)
  | .validate => r.formulaText.map fun t => some (.validate t)
  | .normalize =>
    match r.words with
    | text :: _ => .ok (some (.normalize text))
    | [] => .error .missingFormula
  | .config => .error .missingCommand
  | .configShow => .ok (some .showSettings)
  | .configInit =>
    .ok (some (.writeSettings (r.words.head?.getD "billing.yaml") (r.given.lookup .force).isSome))
  | .completion => .error .missingCommand
  | .completionFor s => .ok (some (.complete s))
  | .version => .ok (some .version)

/-- All options given, the deepest first. -/
def allGiven (r : Reader) : Given := r.given ++ r.above

/-- What has been read when the arguments are at their end. -/
def finish (r : Reader) : Except Halt Invocation :=
  match r.mode with
  | .pathOf o => .error (.usage (.missingValue o))
  | .topics l => .error (.help (l.getD .program))
  | _ =>
    match r.action with
    | .error e => .error (.usage e)
    | .ok action =>
      .ok ⟨r.allGiven.lookup .config, (r.allGiven.lookup .json).isSome,
        (r.allGiven.lookup .quiet).isSome, (r.allGiven.lookup .verbose).isSome, action⟩

end Reader

/-- Reads a command line. -/
def read (args : List String) : Except Halt Invocation :=
  match args.foldlM Reader.step {} with
  | .ok r => r.finish
  | .error h => .error h

end Tariff.Command
