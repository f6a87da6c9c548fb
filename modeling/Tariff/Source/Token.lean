/-
  Tokens of formula source, their places in the text, and the error that points at one of them.
  A place is a line and a column, both counted from one; columns count characters. The numbers have no
  bound here; counters of 32 bits hold those of every text of fewer than 2^32 - 1 characters, and come to
  the same tokens there (`lexCounted_cases`).
-/
namespace Tariff.Source

/-- A place in a text. -/
structure Pos where
  line : Nat
  column : Nat
deriving DecidableEq

namespace Pos

/-- Where every text begins. -/
def start : Pos := ⟨1, 1⟩

/-- The place behind the character `c` that stands at `p`. -/
def next (p : Pos) (c : Char) : Pos :=
  if c = '\n' then ⟨p.line + 1, 1⟩ else ⟨p.line, p.column + 1⟩

/-- The place behind the text `cs` that begins at `p`. -/
def after (p : Pos) (cs : List Char) : Pos := cs.foldl next p

/-- How messages name a place. -/
def text (p : Pos) : String :=
  "line " ++ toString p.line ++ " and column " ++ toString p.column

theorem after_nil (p : Pos) : p.after [] = p := rfl

theorem after_cons (p : Pos) (c : Char) (cs : List Char) :
    p.after (c :: cs) = (p.next c).after cs := rfl

theorem after_append (p : Pos) (cs ds : List Char) : p.after (cs ++ ds) = (p.after cs).after ds := by
  simp [after]

end Pos

/-- The kinds of tokens. -/
inductive Token.Kind
  | ident | str | number | yes | no | dot | comma | leftParen | rightParen | lineBreak | finish
deriving DecidableEq

/-- The name of a kind in messages. -/
def Token.Kind.label : Token.Kind → String
  | .ident => "IDENT"
  | .str => "STRING"
  | .number => "NUMBER"
  | .yes => "TRUE"
  | .no => "FALSE"
  | .dot => "DOT"
  | .comma => "COMMA"
  | .leftParen => "LPAREN"
  | .rightParen => "RPAREN"
  | .lineBreak => "NEWLINE"
  | .finish => "EOF"

/-- A token. The text of a quoted string is its decoded content, a line break shows as `\n` written
    out, and the end of the source as `EOF`; every other text is as in the source. -/
structure Token where
  kind : Token.Kind
  text : String
  pos : Pos
deriving DecidableEq

/-- The token that marks the end of the source. -/
def Token.finishAt (p : Pos) : Token := ⟨.finish, "EOF", p⟩

/-- What is wrong at a place: a token that cannot stand there, a character that begins no token, or a
    quoted string that its line does not close. -/
inductive SyntaxError.Cause
  | token (kind : Token.Kind)
  | unknown
  | unterminated
deriving DecidableEq

/-- The name of a cause in messages. -/
def SyntaxError.Cause.label : SyntaxError.Cause → String
  | .token kind => kind.label
  | .unknown => "UNKNOWN"
  | .unterminated => "UNTERMINATED"

/-- Text that is no formula, with the offending piece and its place. -/
structure SyntaxError where
  cause : SyntaxError.Cause
  text : String
  pos : Pos
deriving DecidableEq

def SyntaxError.message (e : SyntaxError) : String :=
  "Unexpected token \"" ++ e.text ++ "\" (" ++ e.cause.label ++ ") at " ++ e.pos.text

/-- The error that points at a token. -/
def Token.unexpected (t : Token) : SyntaxError := ⟨.token t.kind, t.text, t.pos⟩

end Tariff.Source
