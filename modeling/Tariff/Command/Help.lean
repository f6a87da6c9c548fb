/-
  Help and completions: for a level, its commands and options; for a shell, the script that completes
  the commands of the program.
-/
import Tariff.Command.Level

namespace Tariff.Command

/-- The line that shows an option. -/
def Opt.helpLine (o : Opt) : String :=
  "  --" ++ o.name ++ (if o.takesPath then " PATH" else "")
    ++ ((o.letter?.map fun c => ", -" ++ String.ofList [c]).getD "") ++ "\n"

namespace Level

/-- The help about a level. -/
def help (l : Level) : String :=
  let commands := l.commands.map fun (name, _) => "  " ++ name ++ "\n"
  l.name ++ "\n"
    ++ (if commands.isEmpty then "" else "\ncommands\n" ++ String.join commands)
    ++ "\noptions\n" ++ String.join (l.options.map Opt.helpLine)

end Level

/-- The names of the commands of the program. -/
def commandNames : String := " ".intercalate (Level.program.commands.map (·.1))

/-- The script that completes the commands of the program. -/
def Shell.script : Shell → String
  | .bash => "complete -W '" ++ commandNames ++ "' billing\n"
  | .zsh => "compctl -k '(" ++ commandNames ++ ")' billing\n"
  | .fish => "complete -c billing -n __fish_use_subcommand -a '" ++ commandNames ++ "'\n"
  | .powershell =>
    "Register-ArgumentCompleter -Native -CommandName billing -ScriptBlock \x7b param($word) '"
      ++ commandNames ++ "' -split ' ' | Where-Object \x7b $_ -like \"$word*\" \x7d \x7d\n"

end Tariff.Command
