/-
  The shape of the command line: the commands, the commands of these, and the options that each of them
  knows. Some options are known everywhere.
-/
namespace Tariff.Command

inductive Shell
  | bash | zsh | fish | powershell
deriving DecidableEq

def Shell.name : Shell → String
  | .bash => "bash"
  | .zsh => "zsh"
  | .fish => "fish"
  | .powershell => "powershell"

/-- Options. `verbose` asks for log lines on standard error. -/
inductive Opt
  | config | json | verbose | quiet | help | version | file | force
deriving DecidableEq

namespace Opt

/-- The name behind two dashes. -/
def name : Opt → String
  | .config => "config"
  | .json => "json"
  | .verbose => "verbose"
  | .quiet => "quiet"
  | .help => "help"
  | .version => "version"
  | .file => "file"
  | .force => "force"

/-- The letter behind one dash. -/
def letter? : Opt → Option Char
  | .verbose => some 'v'
  | .quiet => some 'q'
  | .help => some 'h'
  | .version => some 'V'
  | .file => some 'f'
  | _ => none

/-- Whether an option has a value. All values are paths. -/
def takesPath : Opt → Bool
  | .config => true
  | .file => true
  | _ => false

end Opt

/-- Where an argument may stand: the program itself, its commands, and the commands of these. -/
inductive Level
  | program
  | build | validate | normalize
  | config | configShow | configInit
  | completion | completionFor (s : Shell)
  | version
deriving DecidableEq

namespace Level

/-- The commands of a level by their names; a command may have several. -/
def commands : Level → List (String × Level)
  | .program =>
    [("build", .build), ("validate", .validate), ("check", .validate), ("normalize", .normalize),
      ("config", .config), ("completion", .completion), ("version", .version)]
  | .config => [("show", .configShow), ("init", .configInit)]
  | .completion =>
    [Shell.bash, .zsh, .fish, .powershell].map fun s => (s.name, Level.completionFor s)
  | _ => []

/-- The name that goes with the version. -/
def name : Level → String
  | .program => "billing"
  | .build => "billing-build"
  | .validate => "billing-validate"
  | .normalize => "billing-normalize"
  | .config => "billing-config"
  | .configShow => "billing-config-show"
  | .configInit => "billing-config-init"
  | .completion => "billing-completion"
  | .completionFor s => "billing-completion-" ++ s.name
  | .version => "billing-version"

/-- The options that every level knows. -/
def sharedOptions : List Opt := [.config, .json, .verbose, .quiet, .help, .version]

/-- The options that a level has of its own. -/
def ownOptions : Level → List Opt
  | .build => [.file]
  | .validate => [.file]
  | .configInit => [.force]
  | _ => []

def options (l : Level) : List Opt := sharedOptions ++ l.ownOptions

def optionNamed? (l : Level) (name : String) : Option Opt := l.options.find? (·.name = name)

def optionLettered? (l : Level) (c : Char) : Option Opt := l.options.find? (·.letter? = some c)

/-- Whether a level that has `n` words takes one more. -/
def hasRoom (n : Nat) : Level → Bool
  | .build => true
  | .validate => true
  | .normalize => n = 0
  | .configInit => n = 0
  | _ => false

end Level

end Tariff.Command
