/-
  Why source does not compile into a formula, and how that is reported.
-/
import Tariff.Source.Token

namespace Tariff

open Source (Pos SyntaxError)

inductive CompileError
  | emptyFormula
  | parse (e : SyntaxError)
  | unknownModifier (name : String) (pos : Pos)
  | unknownAddon (modifier name : String) (pos : Pos)
  | argumentCount (call : String) (expected found : Nat)
  | invalidArgument (call raw : String)
  | duplicateAddon (name : String) (pos : Pos)
  | unexpectedResult (printed : String)
deriving DecidableEq

def CompileError.message : CompileError → String
  | .emptyFormula => "Formula is empty"
  | .parse e => e.message
  | .unknownModifier name pos => "Unknown modifier \"" ++ name ++ "\" at " ++ pos.text
  | .unknownAddon modifier name pos =>
    "Unknown addon \"" ++ name ++ "\" for \"" ++ modifier ++ "\" at " ++ pos.text
  | .argumentCount call expected found =>
    "Call \"" ++ call ++ "\" expects " ++ toString expected ++ " argument(s), got " ++ toString found
  | .invalidArgument call raw => "Invalid value for \"" ++ call ++ "\" : " ++ raw
  | .duplicateAddon name pos => "Duplicate addon \"" ++ name ++ "\" at " ++ pos.text
  | .unexpectedResult printed => "Formula run returned unexpected result : " ++ printed

end Tariff
