/-
  From tokens to statements:

    program   := lineBreak* statement (lineBreak+ statement)* lineBreak* finish
    statement := literal | chain
    chain     := call ("." call)*
    call      := ident ( "(" [ literal ("," literal)* ] ")" )?
    literal   := str | number | yes | no

  Each reader takes what it needs off the front of the tokens and returns the rest; where it cannot go
  on, the error points at the token in front. A token list as `lex` makes it ends in `finish`, which no
  reader takes, so the front is never missing there.
-/
import Tariff.Source.Lexeme
import Tariff.Source.Statement

namespace Tariff.Source

/-- Something read off the front of the tokens, and the tokens behind it. -/
abbrev Read (α : Type) := Except SyntaxError (α × List Token)

/-- The token in front. -/
def current : List Token → Token
  | t :: _ => t
  | [] => .finishAt .start

/-- The error that points at the token in front. -/
def refuse (ts : List Token) : SyntaxError := (current ts).unexpected

/-- The tokens from the first one that is no line break. -/
def skipBreaks (ts : List Token) : List Token := ts.dropWhile (·.kind = .lineBreak)

/-- The literal that a token stands for. -/
def Token.literal? (t : Token) : Option Literal :=
  match t.kind with
  | .str => some (.str t.text)
  | .number => some (.number t.text)
  | .yes => some (.flag true)
  | .no => some (.flag false)
  | _ => none

def readLiteral : List Token → Read Literal
  | [] => .error (refuse [])
  | t :: ts =>
    match t.literal? with
    | some l => .ok (l, ts)
    | none => .error t.unexpected

/-- The arguments that follow an opening parenthesis, up to the closing one. -/
def readArgs : List Token → Read (List Literal)
  | [] => .error (refuse [])
  | [t] =>
    match t.literal? with
    | some _ => .error (refuse [])
    | none => .error t.unexpected
  | t :: sep :: ts =>
    match t.literal? with
    | none => .error t.unexpected
    | some l =>
      match sep.kind with
      | .rightParen => .ok ([l], ts)
      | .comma =>
        match readArgs ts with
        | .ok (ls, rest) => .ok (l :: ls, rest)
        | .error e => .error e
      | _ => .error sep.unexpected

/-- The parenthesised arguments of a call, none when no parenthesis opens. -/
def readCallArgs : List Token → Read (List Literal)
  | [] => .ok ([], [])
  | t :: ts =>
    if t.kind = .leftParen then
      if (current ts).kind = .rightParen then .ok ([], ts.tail) else readArgs ts
    else .ok ([], t :: ts)

def readCall : List Token → Read Call
  | [] => .error (refuse [])
  | t :: ts =>
    if t.kind = .ident then
      match readCallArgs ts with
      | .ok (args, rest) => .ok (⟨t.text, args, t.pos⟩, rest)
      | .error e => .error e
    else .error t.unexpected

theorem readArgs_length {ts rest : List Token} {ls : List Literal}
    (h : readArgs ts = .ok (ls, rest)) : rest.length < ts.length := by
  fun_induction readArgs ts generalizing ls rest with
  | case5 =>
    cases h
    simp only [List.length_cons]
    omega
  | case6 t sep ts l _ _ ls' rest' hr ih =>
    cases h
    have := ih hr
    simp only [List.length_cons]
    omega
  | _ => cases h

theorem readCallArgs_length {ts rest : List Token} {ls : List Literal}
    (h : readCallArgs ts = .ok (ls, rest)) : rest.length ≤ ts.length := by
  unfold readCallArgs at h
  split at h
  · cases h; simp
  split at h
  · split at h
    · cases h
      simp only [List.length_tail, List.length_cons]
      omega
    · have := readArgs_length h
      simp only [List.length_cons]
      omega
  · cases h; simp

theorem readCall_length {ts rest : List Token} {c : Call}
    (h : readCall ts = .ok (c, rest)) : rest.length < ts.length := by
  unfold readCall at h
  split at h
  · cases h
  split at h
  · split at h
    · next hr =>
      cases h
      have := readCallArgs_length hr
      simp only [List.length_cons]
      omega
    · cases h
  · cases h

/-- The calls that follow the head of a chain, each after a dot. -/
def readLinks : List Token → Read (List Call)
  | [] => .ok ([], [])
  | t :: ts =>
    if t.kind = .dot then
      match h : readCall ts with
      | .error e => .error e
      | .ok (c, rest) =>
        have := readCall_length h
        match readLinks rest with
        | .ok (cs, rest) => .ok (c :: cs, rest)
        | .error e => .error e
    else .ok ([], t :: ts)
termination_by ts => ts.length
decreasing_by simp only [List.length_cons]; omega

/-- Links calls from the last one back: each is put in front of those that follow it. -/
def linkCalls (calls : List Call) : List Call := calls.reverse.foldl (fun next c => c :: next) []

@[simp] theorem linkCalls_eq (calls : List Call) : linkCalls calls = calls := by
  unfold linkCalls
  rw [List.foldl_flip_cons_eq_append', List.reverse_reverse, List.append_nil]

def readStatement (ts : List Token) : Read Statement :=
  if (current ts).kind = .ident then
    match readCall ts with
    | .error e => .error e
    | .ok (head, rest) =>
      match readLinks rest with
      | .ok (calls, rest) => .ok (.chain head (linkCalls calls), rest)
      | .error e => .error e
  else
    match readLiteral ts with
    | .ok (l, rest) => .ok (.literal l (current ts).pos, rest)
    | .error e => .error e

theorem readLinks_length {ts rest : List Token} {cs : List Call}
    (h : readLinks ts = .ok (cs, rest)) : rest.length ≤ ts.length := by
  fun_induction readLinks ts generalizing cs rest with
  | case1 => cases h; simp
  | case2 => cases h
  | case3 t ts _ c rest' hc hl cs' rest'' hr ih =>
    cases h
    have := ih hr
    simp only [List.length_cons]
    omega
  | case4 => cases h
  | case5 => cases h; simp

theorem readStatement_length {ts rest : List Token} {s : Statement}
    (h : readStatement ts = .ok (s, rest)) : rest.length < ts.length := by
  unfold readStatement at h
  split at h
  · split at h
    · cases h
    · next hc =>
      split at h
      · next hl =>
        cases h
        have := readCall_length hc
        have := readLinks_length hl
        omega
      · cases h
  · split at h
    · next hl =>
      cases h
      unfold readLiteral at hl
      split at hl
      · cases hl
      · split at hl
        · cases hl; simp
        · cases hl
    · cases h

theorem skipBreaks_length (ts : List Token) : (skipBreaks ts).length ≤ ts.length :=
  (List.dropWhile_suffix _).length_le

/-- The statements up to the end of the source, at least one, with line breaks between neighbours. -/
def readStatements (ts : List Token) : Except SyntaxError (List Statement) :=
  match h : readStatement ts with
  | .error e => .error e
  | .ok (s, rest) =>
    match (current rest).kind with
    | .finish => .ok [s]
    | .lineBreak =>
      let next := skipBreaks rest
      if (current next).kind = .finish then .ok [s]
      else
        have := readStatement_length h
        have := skipBreaks_length rest
        match readStatements next with
        | .ok ss => .ok (s :: ss)
        | .error e => .error e
    | _ => .error (refuse rest)
termination_by ts.length
decreasing_by omega

/-- The statements of a text. A text without any is refused at its end. -/
def parse (cs : List Char) : Except SyntaxError (List Statement) :=
  match lex cs with
  | .error e => .error e
  | .ok ts => readStatements (skipBreaks ts)

/-- The only statement of a text. A second one is refused at its first token. -/
def parseStatement (cs : List Char) : Except SyntaxError Statement :=
  match lex cs with
  | .error e => .error e
  | .ok ts =>
    match readStatement (skipBreaks ts) with
    | .error e => .error e
    | .ok (s, rest) =>
      let next := skipBreaks rest
      if (current next).kind = .finish then .ok s else .error (refuse next)

end Tariff.Source
