/-
  The statements of formula source. A statement is a bare literal or a chain of calls
  `head.call(argument).call(argument)`; a call without parentheses has no arguments.
-/
import Tariff.Source.Token

namespace Tariff.Source

/-- A literal. A number keeps the digits it was written with. -/
inductive Literal
  | str (text : String)
  | number (text : String)
  | flag (b : Bool)
deriving DecidableEq

/-- How messages show a literal. -/
def Literal.text : Literal → String
  | .str text => text
  | .number text => text
  | .flag b => if b then "true" else "false"

/-- A call, placed at its name. -/
structure Call where
  name : String
  args : List Literal
  pos : Pos
deriving DecidableEq

/-- A statement; a chain has at least its head. -/
inductive Statement
  | literal (value : Literal) (pos : Pos)
  | chain (head : Call) (rest : List Call)
deriving DecidableEq

/-- Where a statement begins. -/
def Statement.pos : Statement → Pos
  | .literal _ pos => pos
  | .chain head _ => head.pos

end Tariff.Source
