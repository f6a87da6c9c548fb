/-
  The grammar of formula source as relations between tokens and what they stand for. `Derives… ts x`
  says that the tokens `ts`, all of them and in this order, are one derivation of `x`:

    program   := lineBreak* statement (lineBreak+ statement)* lineBreak* finish
    statement := literal | chain
    chain     := call ("." call)*
    call      := ident ( "(" [ literal ("," literal)* ] ")" )?
    literal   := str | number | yes | no

  No reader is mentioned here. Proved here: which kinds of tokens a derivation is made of, that the
  calls and literals of a program are its names and literal tokens in their order, and that moving
  the tokens of a statement moves the statement.
-/
import Tariff.Source.Program

namespace Tariff.Source

/-! ## Productions -/

/-- literal := str | number | yes | no -/
inductive DerivesLiteral : Token → Literal → Prop
  | str {t : Token} (h : t.kind = .str) : DerivesLiteral t (.str t.text)
  | number {t : Token} (h : t.kind = .number) : DerivesLiteral t (.number t.text)
  | yes {t : Token} (h : t.kind = .yes) : DerivesLiteral t (.flag true)
  | no {t : Token} (h : t.kind = .no) : DerivesLiteral t (.flag false)

/-- literal ("," literal)* -/
inductive DerivesArgs : List Token → List Literal → Prop
  | last {t : Token} {l : Literal} (h : DerivesLiteral t l) : DerivesArgs [t] [l]
  | more {t comma : Token} {ts : List Token} {l : Literal} {ls : List Literal}
      (h : DerivesLiteral t l) (hcomma : comma.kind = .comma) (hs : DerivesArgs ts ls) :
      DerivesArgs (t :: comma :: ts) (l :: ls)

/-- call := ident ( "(" [ literal ("," literal)* ] ")" )?, placed at its name. -/
inductive DerivesCall : List Token → Call → Prop
  | bare {name : Token} (h : name.kind = .ident) : DerivesCall [name] ⟨name.text, [], name.pos⟩
  | empty {name left right : Token} (h : name.kind = .ident) (hl : left.kind = .leftParen)
      (hr : right.kind = .rightParen) :
      DerivesCall [name, left, right] ⟨name.text, [], name.pos⟩
  | args {name left right : Token} {ts : List Token} {ls : List Literal}
      (h : name.kind = .ident) (hl : left.kind = .leftParen) (hs : DerivesArgs ts ls)
      (hr : right.kind = .rightParen) :
      DerivesCall (name :: left :: ts ++ [right]) ⟨name.text, ls, name.pos⟩

/-- ("." call)* -/
inductive DerivesLinks : List Token → List Call → Prop
  | nil : DerivesLinks [] []
  | cons {dot : Token} {ts us : List Token} {c : Call} {cs : List Call} (h : dot.kind = .dot)
      (hc : DerivesCall ts c) (hs : DerivesLinks us cs) :
      DerivesLinks (dot :: ts ++ us) (c :: cs)

/-- statement := literal | call ("." call)*; a literal is placed at its token. -/
inductive DerivesStatement : List Token → Statement → Prop
  | literal {t : Token} {l : Literal} (h : DerivesLiteral t l) :
      DerivesStatement [t] (.literal l t.pos)
  | chain {ts us : List Token} {head : Call} {rest : List Call} (h : DerivesCall ts head)
      (hs : DerivesLinks us rest) : DerivesStatement (ts ++ us) (.chain head rest)

/-- lineBreak* -/
def Breaks (ts : List Token) : Prop := ∀ t ∈ ts, t.kind = .lineBreak

/-- (lineBreak+ statement)* -/
inductive DerivesMore : List Token → List Statement → Prop
  | nil : DerivesMore [] []
  | cons {bs ts us : List Token} {s : Statement} {ss : List Statement} (hb : Breaks bs)
      (hne : bs ≠ []) (h : DerivesStatement ts s) (hs : DerivesMore us ss) :
      DerivesMore (bs ++ ts ++ us) (s :: ss)

/-- program := lineBreak* statement (lineBreak+ statement)* lineBreak* finish -/
inductive DerivesProgram : List Token → List Statement → Prop
  | mk {lead ts us trail : List Token} {finish : Token} {s : Statement} {ss : List Statement}
      (hlead : Breaks lead) (h : DerivesStatement ts s) (hs : DerivesMore us ss)
      (htrail : Breaks trail) (hfinish : finish.kind = .finish) :
      DerivesProgram (lead ++ ts ++ us ++ trail ++ [finish]) (s :: ss)

/-! ## Kinds of tokens in a derivation -/

theorem derivesLiteral_iff {t : Token} {l : Literal} : DerivesLiteral t l ↔ t.literal? = some l := by
  constructor
  · rintro (h | h | h | h) <;> simp [Token.literal?, h]
  · intro h
    unfold Token.literal? at h
    split at h <;> cases h
    · exact .str ‹_›
    · exact .number ‹_›
    · exact .yes ‹_›
    · exact .no ‹_›

/-- Whether a kind separates statements or ends the source. -/
def Token.Kind.isBoundary (k : Token.Kind) : Bool := k = .lineBreak || k = .finish

theorem DerivesLiteral.isBoundary_eq_false {t : Token} {l : Literal} (h : DerivesLiteral t l) :
    t.kind.isBoundary = false := by
  rcases h with h | h | h | h <;> rw [h] <;> rfl

theorem DerivesArgs.isBoundary_eq_false {ts : List Token} {ls : List Literal}
    (h : DerivesArgs ts ls) : ∀ t ∈ ts, t.kind.isBoundary = false := by
  induction h with
  | last h =>
    intro t ht
    rw [List.mem_singleton.mp ht]
    exact h.isBoundary_eq_false
  | more h hcomma _ ih =>
    intro t ht
    rcases List.mem_cons.mp ht with rfl | ht
    · exact h.isBoundary_eq_false
    · rcases List.mem_cons.mp ht with rfl | ht
      · rw [hcomma]; rfl
      · exact ih t ht

theorem DerivesCall.isBoundary_eq_false {ts : List Token} {c : Call} (h : DerivesCall ts c) :
    ∀ t ∈ ts, t.kind.isBoundary = false := by
  cases h with
  | bare h => simp [h, Token.Kind.isBoundary]
  | empty h hl hr => simp [h, hl, hr, Token.Kind.isBoundary]
  | args h hl hs hr =>
    intro t ht
    simp only [List.cons_append, List.mem_cons, List.mem_append, List.not_mem_nil, or_false] at ht
    rcases ht with rfl | rfl | ht | rfl
    · rw [h]; rfl
    · rw [hl]; rfl
    · exact hs.isBoundary_eq_false t ht
    · rw [hr]; rfl

theorem DerivesLinks.isBoundary_eq_false {ts : List Token} {cs : List Call}
    (h : DerivesLinks ts cs) : ∀ t ∈ ts, t.kind.isBoundary = false := by
  induction h with
  | nil => simp
  | cons h hc _ ih =>
    intro t ht
    simp only [List.cons_append, List.mem_cons, List.mem_append] at ht
    rcases ht with rfl | ht | ht
    · rw [h]; rfl
    · exact hc.isBoundary_eq_false t ht
    · exact ih t ht

/-- A statement lies on one line. -/
theorem DerivesStatement.isBoundary_eq_false {ts : List Token} {s : Statement}
    (h : DerivesStatement ts s) : ∀ t ∈ ts, t.kind.isBoundary = false := by
  cases h with
  | literal h =>
    intro t ht
    rw [List.mem_singleton.mp ht]
    exact h.isBoundary_eq_false
  | chain h hs =>
    intro t ht
    rcases List.mem_append.mp ht with ht | ht
    · exact h.isBoundary_eq_false t ht
    · exact hs.isBoundary_eq_false t ht

/-! ## What the tokens of a program spell -/

/-- The calls of a statement in source order. -/
def Statement.calls : Statement → List Call
  | .literal _ _ => []
  | .chain head rest => head :: rest

/-- The literals of a statement in source order. -/
def Statement.literals : Statement → List Literal
  | .literal value _ => [value]
  | .chain head rest => (head :: rest).flatMap Call.args

/-- What a name token gives to a call. -/
def Token.name? (t : Token) : Option (String × Pos) :=
  if t.kind = .ident then some (t.text, t.pos) else none

theorem Token.name?_of_ne {t : Token} (h : t.kind ≠ .ident) : t.name? = none := if_neg h

theorem Token.name?_of_eq {t : Token} (h : t.kind = .ident) : t.name? = some (t.text, t.pos) :=
  if_pos h

theorem Token.literal?_eq_none {t : Token} (h : t.kind ∉ [.str, .number, .yes, .no]) :
    t.literal? = none := by
  unfold Token.literal?
  split <;> simp_all

theorem DerivesLiteral.name?_eq_none {t : Token} {l : Literal} (h : DerivesLiteral t l) :
    t.name? = none := by
  rcases h with h | h | h | h <;> exact Token.name?_of_ne (by rw [h]; decide)

theorem DerivesArgs.names {ts : List Token} {ls : List Literal} (h : DerivesArgs ts ls) :
    ts.filterMap Token.name? = [] := by
  induction h with
  | last h => simp [h.name?_eq_none]
  | more h hcomma _ ih =>
    have hc := Token.name?_of_ne (t := _) (by rw [hcomma]; decide)
    rw [List.filterMap_cons_none h.name?_eq_none, List.filterMap_cons_none hc, ih]

theorem DerivesArgs.literals {ts : List Token} {ls : List Literal} (h : DerivesArgs ts ls) :
    ts.filterMap Token.literal? = ls := by
  induction h with
  | last h => simp [derivesLiteral_iff.mp h]
  | more h hcomma _ ih =>
    have hc := Token.literal?_eq_none (t := _) (by rw [hcomma]; decide)
    rw [List.filterMap_cons_some (derivesLiteral_iff.mp h), List.filterMap_cons_none hc, ih]

theorem DerivesCall.names {ts : List Token} {c : Call} (h : DerivesCall ts c) :
    ts.filterMap Token.name? = [(c.name, c.pos)] := by
  cases h with
  | bare h => simp [Token.name?, h]
  | empty h hl hr => simp [Token.name?, h, hl, hr]
  | args h hl hs hr =>
    rw [List.filterMap_append, List.filterMap_cons_some (Token.name?_of_eq h),
      List.filterMap_cons_none (Token.name?_of_ne (by rw [hl]; decide)), hs.names]
    simp [Token.name?, hr]

theorem DerivesCall.literals {ts : List Token} {c : Call} (h : DerivesCall ts c) :
    ts.filterMap Token.literal? = c.args := by
  cases h with
  | bare h => simp [Token.literal?, h]
  | empty h hl hr => simp [Token.literal?, h, hl, hr]
  | args h hl hs hr =>
    rw [List.filterMap_append,
      List.filterMap_cons_none (Token.literal?_eq_none (by rw [h]; decide)),
      List.filterMap_cons_none (Token.literal?_eq_none (by rw [hl]; decide)), hs.literals]
    simp [Token.literal?, hr]

theorem DerivesLinks.names {ts : List Token} {cs : List Call} (h : DerivesLinks ts cs) :
    ts.filterMap Token.name? = cs.map fun c => (c.name, c.pos) := by
  induction h with
  | nil => rfl
  | cons h hc _ ih =>
    rw [List.cons_append, List.filterMap_cons_none (Token.name?_of_ne (by rw [h]; decide)),
      List.filterMap_append, hc.names, ih]
    rfl

theorem DerivesLinks.literals {ts : List Token} {cs : List Call} (h : DerivesLinks ts cs) :
    ts.filterMap Token.literal? = cs.flatMap Call.args := by
  induction h with
  | nil => rfl
  | cons h hc _ ih =>
    rw [List.cons_append, List.filterMap_cons_none (Token.literal?_eq_none (by rw [h]; decide)),
      List.filterMap_append, hc.literals, ih]
    rfl

theorem DerivesStatement.names {ts : List Token} {s : Statement} (h : DerivesStatement ts s) :
    ts.filterMap Token.name? = s.calls.map fun c => (c.name, c.pos) := by
  cases h with
  | literal h => simp [h.name?_eq_none, Statement.calls]
  | chain h hs => rw [List.filterMap_append, h.names, hs.names]; rfl

theorem DerivesStatement.literals {ts : List Token} {s : Statement} (h : DerivesStatement ts s) :
    ts.filterMap Token.literal? = s.literals := by
  cases h with
  | literal h => simp [derivesLiteral_iff.mp h, Statement.literals]
  | chain h hs => rw [List.filterMap_append, h.literals, hs.literals]; rfl

theorem Breaks.filterMap_eq_nil {α : Type} {f : Token → Option α} {ts : List Token}
    (hf : ∀ t : Token, t.kind = .lineBreak → f t = none) (h : Breaks ts) : ts.filterMap f = [] := by
  rw [List.filterMap_eq_nil_iff]
  exact fun t ht => hf t (h t ht)

/-- A reading of tokens that sees neither line breaks nor the end goes through the statements of a
    program one by one. -/
theorem DerivesProgram.filterMap_eq {α : Type} {f : Token → Option α} {g : Statement → List α}
    (hbreak : ∀ t : Token, t.kind = .lineBreak → f t = none)
    (hfinish : ∀ t : Token, t.kind = .finish → f t = none)
    (hstatement : ∀ ts s, DerivesStatement ts s → ts.filterMap f = g s)
    {ts : List Token} {ss : List Statement} (h : DerivesProgram ts ss) :
    ts.filterMap f = ss.flatMap g := by
  have hmore : ∀ {us : List Token} {ss : List Statement}, DerivesMore us ss →
      us.filterMap f = ss.flatMap g := by
    intro us ss h
    induction h with
    | nil => rfl
    | cons hb _ h _ ih =>
      rw [List.filterMap_append, List.filterMap_append, hb.filterMap_eq_nil hbreak,
        hstatement _ _ h, ih]
      rfl
  obtain ⟨hlead, h, hs, htrail, hend⟩ := h
  simp only [List.filterMap_append, hlead.filterMap_eq_nil hbreak, hstatement _ _ h, hmore hs,
    htrail.filterMap_eq_nil hbreak, List.filterMap_cons_none (hfinish _ hend)]
  simp

/-! ## Moving tokens -/

def Token.relocate (f : Pos → Pos) (t : Token) : Token := { t with pos := f t.pos }

def Call.relocate (f : Pos → Pos) (c : Call) : Call := { c with pos := f c.pos }

def Statement.relocate (f : Pos → Pos) : Statement → Statement
  | .literal value pos => .literal value (f pos)
  | .chain head rest => .chain (head.relocate f) (rest.map (·.relocate f))

theorem Statement.pos_relocate (f : Pos → Pos) (s : Statement) : (s.relocate f).pos = f s.pos := by
  cases s <;> rfl

theorem DerivesLiteral.relocate {t : Token} {l : Literal} (h : DerivesLiteral t l)
    (f : Pos → Pos) : DerivesLiteral (t.relocate f) l := by
  rw [derivesLiteral_iff] at h ⊢
  exact h

theorem DerivesArgs.relocate {ts : List Token} {ls : List Literal} (h : DerivesArgs ts ls)
    (f : Pos → Pos) : DerivesArgs (ts.map (·.relocate f)) ls := by
  induction h with
  | last h => exact .last (h.relocate f)
  | more h hcomma _ ih => exact .more (h.relocate f) hcomma ih

theorem DerivesCall.relocate {ts : List Token} {c : Call} (h : DerivesCall ts c) (f : Pos → Pos) :
    DerivesCall (ts.map (·.relocate f)) (c.relocate f) := by
  cases h with
  | @bare name h => exact .bare (show (name.relocate f).kind = .ident from h)
  | @empty name left right h hl hr =>
    exact .empty (show (name.relocate f).kind = .ident from h)
      (show (left.relocate f).kind = .leftParen from hl)
      (show (right.relocate f).kind = .rightParen from hr)
  | @args name left right ts ls h hl hs hr =>
    rw [List.map_append]
    exact .args (show (name.relocate f).kind = .ident from h)
      (show (left.relocate f).kind = .leftParen from hl) (hs.relocate f)
      (show (right.relocate f).kind = .rightParen from hr)

theorem DerivesLinks.relocate {ts : List Token} {cs : List Call} (h : DerivesLinks ts cs)
    (f : Pos → Pos) : DerivesLinks (ts.map (·.relocate f)) (cs.map (·.relocate f)) := by
  induction h with
  | nil => exact .nil
  | @cons dot _ _ _ _ h hc _ ih =>
    rw [List.map_append]
    exact .cons (show (dot.relocate f).kind = .dot from h) (hc.relocate f) ih

/-- Moving the tokens of a statement moves the statement. -/
theorem DerivesStatement.relocate {ts : List Token} {s : Statement} (h : DerivesStatement ts s)
    (f : Pos → Pos) : DerivesStatement (ts.map (·.relocate f)) (s.relocate f) := by
  cases h with
  | literal h => exact .literal (h.relocate f)
  | chain h hs =>
    rw [List.map_append]
    exact .chain (h.relocate f) (hs.relocate f)

end Tariff.Source
