/-
  Options that have no letter, from the command line to the invocation. Such an option is given by one
  argument only, its name behind two dashes, and no command, word, path or run of letters gives it
  (`Reader.step_turns`); a path stands behind `=` or is the next argument. Behind `--` nothing is given.
  So the value that an invocation has for the option is the last one given in front of the first `--`
  (`Reader.foldlM_value?`): the flag is set exactly when `--json` stands there (`json_of_read`), and the
  settings file is the one that `--config` names last (`config_of_read`).
-/
import Tariff.Command.Line
import Tariff.Proofs.Except
import Mathlib.Data.List.Basic

namespace Tariff.Command

/-! ## What arguments give -/

namespace Opt

/-- The argument in which an option stands alone. -/
def argument (o : Opt) : String := "--" ++ o.name

/-- The value that an argument has for an option: the path behind `=`, or the empty text for a flag. -/
def valueIn? (o : Opt) (arg : String) : Option String :=
  if o.takesPath then ((o.argument ++ "=").toList.isPrefixOf? arg.toList).map String.ofList
  else if arg = o.argument then some "" else none

/-- The values that arguments in front of the first `--` give for an option. -/
def valuesIn (o : Opt) : List String → List String
  | [] => []
  | arg :: args =>
    if arg = "--" then []
    else
      (if o.takesPath ∧ arg = o.argument then args.head?.toList else (o.valueIn? arg).toList)
        ++ o.valuesIn args

theorem name_injective {o o' : Opt} (h : o.name = o'.name) : o = o' := by
  cases o <;> cases o' <;> revert h <;> decide

theorem eq_notMem_name (o : Opt) : '=' ∉ o.name.toList := by
  cases o <;> decide

theorem toList_argument (o : Opt) : o.argument.toList = '-' :: '-' :: o.name.toList := by
  rw [argument, String.toList_append]
  rfl

theorem valueIn?_path {o : Opt} (hpath : o.takesPath = true) {arg value : String} :
    o.valueIn? arg = some value ↔ arg.toList = o.argument.toList ++ '=' :: value.toList := by
  rw [valueIn?, if_pos hpath, Option.map_eq_some_iff]
  simp only [List.isPrefixOf?_eq_some_iff_append_eq, String.toList_append, List.append_assoc]
  constructor
  · rintro ⟨cs, hcs, rfl⟩
    rw [← hcs, String.toList_ofList (l := cs)]
    rfl
  · intro h
    exact ⟨value.toList, h.symm, String.ofList_toList⟩

theorem valueIn?_flag {o : Opt} (hpath : o.takesPath = false) (arg : String) :
    o.valueIn? arg = if arg = o.argument then some "" else none := by
  rw [valueIn?, hpath]
  rfl

theorem argument_injective {o o' : Opt} (h : o.argument = o'.argument) : o = o' := by
  rw [← String.toList_inj, toList_argument, toList_argument] at h
  exact name_injective (String.toList_inj.mp (List.cons.inj (List.cons.inj h).2).2)

theorem eq_notMem_argument (o : Opt) : '=' ∉ o.argument.toList := by
  rw [toList_argument, List.mem_cons, List.mem_cons, or_iff_right (by decide), or_iff_right (by decide)]
  exact o.eq_notMem_name

theorem takeWhile_argument (o : Opt) (cs : List Char) :
    (o.argument.toList ++ '=' :: cs).takeWhile (· ≠ '=') = o.argument.toList := by
  have hname : ∀ c ∈ o.argument.toList, decide (c ≠ '=') = true := fun c hc =>
    decide_eq_true (ne_of_mem_of_not_mem hc o.eq_notMem_argument)
  rw [List.takeWhile_append_of_pos hname, List.takeWhile_cons_of_neg (by simp), List.append_nil]

/-- The name of an option alone gives a flag, and none but that option. -/
theorem valueIn?_argument (o o' : Opt) :
    o.valueIn? o'.argument = if o' = o ∧ o.takesPath = false then some "" else none := by
  cases hpath : o.takesPath with
  | false =>
    rw [valueIn?_flag hpath]
    exact if_congr ⟨fun h => ⟨argument_injective h, rfl⟩, fun h => h.1 ▸ rfl⟩ rfl rfl
  | true =>
    rw [if_neg (by simp), Option.eq_none_iff_forall_ne_some]
    intro value hvalue
    rw [valueIn?_path hpath] at hvalue
    exact o'.eq_notMem_argument (hvalue ▸ List.mem_append_right _ (List.mem_cons_self ..))

/-- A path behind the name of an option and `=` is given to that option only. -/
theorem valueIn?_inline {o' : Opt} {arg : String} {value : List Char} (hpath : o'.takesPath = true)
    (harg : arg.toList = o'.argument.toList ++ '=' :: value) (o : Opt) :
    arg ≠ o.argument ∧ o.valueIn? arg = if o = o' then some (String.ofList value) else none := by
  have hne : arg ≠ o.argument := by
    rintro rfl
    exact o.eq_notMem_argument (harg ▸ List.mem_append_right _ (List.mem_cons_self ..))
  refine ⟨hne, ?_⟩
  by_cases ho : o = o'
  · rw [if_pos ho, ho, valueIn?_path hpath, String.toList_ofList]
    exact harg
  rw [if_neg ho]
  cases hpath' : o.takesPath with
  | false => rw [valueIn?_flag hpath', if_neg hne]
  | true =>
    rw [Option.eq_none_iff_forall_ne_some]
    intro value' hvalue
    rw [valueIn?_path hpath', harg] at hvalue
    have hname := congrArg (List.takeWhile (· ≠ '=')) hvalue
    rw [takeWhile_argument, takeWhile_argument] at hname
    exact ho (argument_injective (String.toList_inj.mp hname)).symm

/-- An argument that does not start with two dashes gives no option. -/
theorem of_not_dashes {arg : String} (h : ¬ ['-', '-'] <+: arg.toList) (o : Opt) :
    arg ≠ "--" ∧ arg ≠ o.argument ∧ o.valueIn? arg = none := by
  have hargument : arg ≠ o.argument := by
    rintro rfl
    exact h ⟨o.name.toList, o.toList_argument.symm⟩
  refine ⟨?_, hargument, ?_⟩
  · rintro rfl
    exact h (List.prefix_refl _)
  · cases hpath : o.takesPath with
    | false => rw [valueIn?_flag hpath, if_neg hargument]
    | true =>
      rw [Option.eq_none_iff_forall_ne_some]
      intro value hvalue
      rw [valueIn?_path hpath, toList_argument] at hvalue
      exact h ⟨_, hvalue.symm⟩

end Opt

namespace Reader

variable {r r' : Reader} {o o' : Opt} {args : List String} {arg value : String}

/-- The value of an option on the deepest level that has it. -/
def value? (r : Reader) (o : Opt) : Option String := r.allGiven.lookup o

/-- Options can still be read: there is no `--` and no request for help before. -/
def Open (r : Reader) : Prop := r.mode = .anything ∨ ∃ o, r.mode = .pathOf o ∧ o.takesPath = true

/-! ## Single options -/

/-- What an option does that is taken: its value goes over one from a level above. -/
theorem give_eq_ok (h : r.give o value = .ok r') :
    r'.mode = .anything ∧ ∀ o', r'.value? o' = if o' = o then some value else r.value? o' := by
  unfold give at h
  split at h
  · cases h
  split at h
  · cases h
  split at h
  · cases h
  · next hfresh =>
    split at h
    · cases h
    cases h
    rw [Option.isSome_iff_ne_none, not_not] at hfresh
    refine ⟨rfl, fun o' => ?_⟩
    unfold value? allGiven
    by_cases ho : o' = o
    · simp [List.lookup_append, ho, hfresh]
    · simp [List.lookup_append, List.lookup_cons, ho, beq_false_of_ne ho]

/-- Letters give options that have letters. -/
theorem letters_value? (ho : o.letter? = none) {cs : List Char} (hmode : r.mode = .anything)
    (h : r.letters cs = .ok r') :
    r'.Open ∧ r'.mode ≠ .pathOf o ∧ r'.value? o = r.value? o := by
  induction cs generalizing r with
  | nil =>
    cases h
    exact ⟨Or.inl hmode, by simp [hmode], rfl⟩
  | cons c cs ih =>
    have hne : ∀ {o'}, r.level.optionLettered? c = some o' → o ≠ o' := by
      rintro o' ho' rfl
      have hletter : o.letter? = some c := by simpa using List.find?_some ho'
      rw [ho] at hletter
      cases hletter
    have hgive : ∀ {o' value r''}, r.level.optionLettered? c = some o' → r.give o' value = .ok r'' →
        r''.Open ∧ r''.mode ≠ .pathOf o ∧ r''.value? o = r.value? o := by
      intro o' value r'' ho' hgive
      obtain ⟨hmode', hvalue⟩ := give_eq_ok hgive
      exact ⟨Or.inl hmode', by simp [hmode'], (hvalue o).trans (if_neg (hne ho'))⟩
    rw [letters] at h
    split at h
    · cases h
    · next o' ho' =>
      split at h
      · next hpath =>
        split at h
        · cases h
          refine ⟨Or.inr ⟨o', rfl, hpath⟩, ?_, rfl⟩
          exact fun heq => hne ho' (Mode.pathOf.inj heq).symm
        · exact hgive ho' h
        · exact hgive ho' h
      · split at h
        · next next hnext =>
          obtain ⟨hopen, hmode', hvalue⟩ := ih (give_eq_ok hnext).1 h
          exact ⟨hopen, hmode', hvalue.trans (hgive ho' hnext).2.2⟩
        · cases h

/-- What stands behind two dashes is the name of an option: one that waits for its path, a flag, or one
    with its path behind `=`. -/
theorem long_cases {body : List Char} (h : r.long body = .ok r') :
    ∃ o : Opt,
      (body = o.name.toList ∧ o.takesPath = true ∧ r' = { r with mode := .pathOf o }) ∨
      (body = o.name.toList ∧ o.takesPath = false ∧ r.give o "" = .ok r') ∨
      ∃ value, body = o.name.toList ++ '=' :: value ∧ o.takesPath = true ∧
        r.give o (String.ofList value) = .ok r' := by
  have hwhole := List.takeWhile_append_dropWhile (p := (· ≠ '=')) (l := body)
  unfold long at h
  dsimp only at h
  split at h
  · cases h
  · next o ho hrest =>
    have hname : o.name = String.ofList (body.takeWhile (· ≠ '=')) := by
      simpa using List.find?_some ho
    have hbody : body = o.name.toList := by
      rw [hname, String.toList_ofList]
      rwa [hrest, List.append_nil, eq_comm] at hwhole
    refine ⟨o, ?_⟩
    split at h
    · next hpath =>
      cases h
      exact Or.inl ⟨hbody, hpath, rfl⟩
    · next hpath => exact Or.inr (Or.inl ⟨hbody, by simpa using hpath, h⟩)
  · next o c value ho hrest =>
    have hname : o.name = String.ofList (body.takeWhile (· ≠ '=')) := by
      simpa using List.find?_some ho
    have hc : c = '=' := by
      have hhead := List.head?_dropWhile_not (p := (· ≠ '=')) (l := body)
      rw [hrest] at hhead
      simpa using hhead
    split at h
    · next hpath =>
      refine ⟨o, Or.inr (Or.inr ⟨value, ?_, hpath, h⟩)⟩
      rw [hname, String.toList_ofList]
      rwa [hrest, hc, eq_comm] at hwhole
    · cases h

/-! ## One argument -/

/-- A word gives no options. -/
theorem word_value? (h : r.word arg = .ok r') :
    r'.mode = r.mode ∧ r'.value? o = r.value? o := by
  unfold word at h
  split at h
  · cases h
  split at h
  · cases h
  · cases h
    exact ⟨rfl, rfl⟩

/-- The names of commands start with letters. -/
theorem not_dashes_of_lookup_commands {l l' : Level} (h : l.commands.lookup arg = some l') :
    ¬ ['-', '-'] <+: arg.toList := by
  have hnames : ∀ p ∈ l.commands, ¬ ['-', '-'] <+: p.1.toList := by
    cases l with
    | completionFor s => exact fun p hp => nomatch hp
    | _ => decide
  obtain ⟨before, behind, hsplit, -⟩ := List.lookup_eq_some_iff.1 h
  exact hnames (arg, l') (hsplit ▸ List.mem_append_right before List.mem_cons_self)

/-- What an argument does while options can be read: it asks for help, ends the options, or leaves them
    open. Then the machine waits for the path of `o` when the argument is its name, and has the value of
    `o` that the argument gives; a path that it has waited for is such a value. -/
inductive Turns (o : Opt) (r : Reader) (arg : String) (r' : Reader) : Prop
  | asks (l : Option Level) (hmode : r'.mode = .topics l)
  | ends (harg : arg = "--") (hmode : r.mode = .anything) (hmode' : r'.mode = .wordsOnly)
      (hvalue : r'.value? o = r.value? o)
  | reads (harg : arg ≠ "--") (hopen : r'.Open)
      (hpath : r.mode = .pathOf o → arg ≠ o.argument ∧ o.valueIn? arg = none)
      (hwaits : r'.mode = .pathOf o ↔ o.takesPath = true ∧ arg = o.argument)
      (hvalue : r'.value? o =
        (if r.mode = .pathOf o then some arg else o.valueIn? arg).or (r.value? o))

/-- An argument without two dashes in front may leave the option as it is. -/
theorem Turns.of_not_dashes (harg : ¬ ['-', '-'] <+: arg.toList) (hmode : r.mode ≠ .pathOf o)
    (hopen : r'.Open) (hmode' : r'.mode ≠ .pathOf o) (hvalue : r'.value? o = r.value? o) :
    Turns o r arg r' := by
  obtain ⟨hend, hname, hnone⟩ := Opt.of_not_dashes harg o
  refine .reads hend hopen (absurd · hmode) (iff_of_false hmode' fun h => hname h.2) ?_
  rw [if_neg hmode, hnone, Option.none_or, hvalue]

theorem long_turns {body : List Char} (hmode : r.mode = .anything) (hbody : body ≠ [])
    (harg : arg.toList = '-' :: '-' :: body) (h : r.long body = .ok r') : Turns o r arg r' := by
  have hend : arg ≠ "--" := by
    rintro rfl
    exact hbody (List.cons.inj (List.cons.inj harg).2).2.symm
  have hfree : r.mode ≠ .pathOf o := by simp [hmode]
  obtain ⟨o', ⟨rfl, hpath, rfl⟩ | ⟨rfl, hpath, hgive⟩ | ⟨value, rfl, hpath, hgive⟩⟩ := long_cases h
  · obtain rfl : arg = o'.argument := by rw [← String.toList_inj, harg, Opt.toList_argument]
    refine .reads hend (Or.inr ⟨o', rfl, hpath⟩) (absurd · hfree) ?_ ?_
    · constructor
      · intro hwaits
        cases Mode.pathOf.inj hwaits
        exact ⟨hpath, rfl⟩
      · rintro ⟨-, hname⟩
        rw [Opt.argument_injective hname]
    · rw [if_neg hfree, Opt.valueIn?_argument, if_neg, Option.none_or]
      · rfl
      · rintro ⟨rfl, hflag⟩
        rw [hpath] at hflag
        cases hflag
  · obtain rfl : arg = o'.argument := by rw [← String.toList_inj, harg, Opt.toList_argument]
    obtain ⟨hmode', hvalue⟩ := give_eq_ok hgive
    refine .reads hend (Or.inl hmode') (absurd · hfree) (iff_of_false (by simp [hmode']) ?_) ?_
    · rintro ⟨htakes, hname⟩
      rw [← Opt.argument_injective hname, hpath] at htakes
      cases htakes
    · rw [if_neg hfree, Opt.valueIn?_argument, hvalue]
      by_cases ho : o = o'
      · rw [if_pos ho, if_pos ⟨ho.symm, ho ▸ hpath⟩, Option.some_or]
      · rw [if_neg ho, if_neg fun h => ho h.1.symm, Option.none_or]
  · have hinline : arg.toList = o'.argument.toList ++ '=' :: value := by
      rw [harg, Opt.toList_argument]
      rfl
    obtain ⟨hname, hgiven⟩ := Opt.valueIn?_inline hpath hinline o
    obtain ⟨hmode', hvalue⟩ := give_eq_ok hgive
    refine .reads hend (Or.inl hmode') (absurd · hfree)
      (iff_of_false (by simp [hmode']) fun h => hname h.2) ?_
    rw [if_neg hfree, hgiven, hvalue]
    by_cases ho : o = o'
    · rw [if_pos ho, if_pos ho, Option.some_or]
    · rw [if_neg ho, if_neg ho, Option.none_or]

theorem any_turns (ho : o.letter? = none) (hmode : r.mode = .anything) (h : r.any arg = .ok r') :
    Turns o r arg r' := by
  have hfree : r.mode ≠ .pathOf o := by simp [hmode]
  unfold any at h
  split at h
  · next l hl =>
    cases h
    refine .of_not_dashes (not_dashes_of_lookup_commands hl) hfree (Or.inl rfl) (fun h => nomatch h) ?_
    simp [value?, allGiven, descend]
  split at h
  · cases h
    exact .asks _ rfl
  split at h
  · next hlist =>
    cases h
    exact .ends (String.toList_inj.1 hlist) hmode rfl rfl
  · next body hbody hlist => exact long_turns hmode (fun h => hbody h) hlist h
  · next c cs _ hc hlist =>
    -- A second dash would have been read above.
    have hdashes : ¬ ['-', '-'] <+: arg.toList := by
      rw [hlist, List.cons_prefix_cons, List.cons_prefix_cons]
      exact fun h => hc h.2.1.symm
    obtain ⟨hopen, hmode', hvalue⟩ := letters_value? ho hmode h
    exact .of_not_dashes hdashes hfree hopen hmode' hvalue
  · next hend hlong _ =>
    have hdashes : ¬ ['-', '-'] <+: arg.toList := by
      rintro ⟨body, hbody⟩
      exact hlong body hbody.symm
    obtain ⟨hmode', hvalue⟩ := word_value? h
    exact .of_not_dashes hdashes hfree (Or.inl (hmode'.trans hmode)) (by simp [hmode', hmode]) hvalue

theorem step_turns (ho : o.letter? = none) (hopen : r.Open) (h : r.step arg = .ok r') :
    Turns o r arg r' := by
  unfold step at h
  obtain hmode | ⟨o', hmode, hpath⟩ := hopen
  · rw [hmode] at h
    exact any_turns ho hmode h
  · rw [hmode] at h
    dsimp only at h
    split at h
    · cases h
    · next hlike =>
      -- The path is no option, though it may be a dash.
      have hdashes : ¬ ['-', '-'] <+: arg.toList := by
        rintro ⟨body, hbody⟩
        refine hlike ?_
        have hdash : arg ≠ "-" := by
          rintro rfl
          cases hbody
        rw [isOptionLike, ← hbody, decide_eq_true hdash]
        rfl
      obtain ⟨hmode', hvalue⟩ := give_eq_ok h
      by_cases hsame : o = o'
      · obtain ⟨hend, hname, hnone⟩ := Opt.of_not_dashes hdashes o
        refine .reads hend (Or.inl hmode') (fun _ => ⟨hname, hnone⟩)
          (iff_of_false (by simp [hmode']) fun h => hname h.2) ?_
        rw [hvalue, if_pos hsame, hmode, hsame, if_pos rfl, Option.some_or]
      · have hfree : r.mode ≠ .pathOf o := by
          rw [hmode]
          exact fun h => hsame (Mode.pathOf.inj h).symm
        exact .of_not_dashes hdashes hfree (Or.inl hmode') (by simp [hmode'])
          ((hvalue o).trans (if_neg hsame))

/-! ## All arguments -/

/-- Behind `--` all arguments are words. -/
theorem foldlM_wordsOnly (hmode : r.mode = .wordsOnly) (h : args.foldlM step r = .ok r') :
    r'.value? o = r.value? o := by
  induction args generalizing r with
  | nil =>
    cases h
    rfl
  | cons arg args ih =>
    rw [List.foldlM_cons] at h
    obtain ⟨r₁, hstep, hrun⟩ := of_bind_eq_ok h
    simp only [step, hmode] at hstep
    obtain ⟨hmode₁, hvalue⟩ := word_value? hstep
    exact (ih (hmode₁.trans hmode) hrun).trans hvalue

/-- What is behind a request for help only says about what. -/
theorem foldlM_topics {l : Option Level} (hmode : r.mode = .topics l)
    (h : args.foldlM step r = .ok r') : ∃ l, r'.mode = .topics l := by
  induction args generalizing r l with
  | nil =>
    cases h
    exact ⟨l, hmode⟩
  | cons arg args ih =>
    rw [List.foldlM_cons] at h
    obtain ⟨r₁, hstep, hrun⟩ := of_bind_eq_ok h
    simp only [step, hmode, topic] at hstep
    split at hstep
    · cases hstep
      exact ih rfl hrun
    split at hstep
    · cases hstep
      exact ih rfl hrun
    · cases hstep

/-- The value that the machine comes to is the last one given, the path that it waits for included. -/
theorem foldlM_value? (ho : o.letter? = none) (hopen : r.Open) (h : args.foldlM step r = .ok r') :
    (∃ l, r'.mode = .topics l) ∨
    r'.value? o =
      ((if r.mode = .pathOf o then args.head?.toList else []) ++ o.valuesIn args).getLast?.or
        (r.value? o) := by
  induction args generalizing r with
  | nil =>
    cases h
    right
    simp [Opt.valuesIn]
  | cons arg args ih =>
    rw [List.foldlM_cons] at h
    obtain ⟨r₁, hstep, hrun⟩ := of_bind_eq_ok h
    rw [Opt.valuesIn, List.head?_cons, Option.toList_some]
    cases step_turns ho hopen hstep with
    | asks l hmode => exact Or.inl (foldlM_topics hmode hrun)
    | ends harg hmode hmode' hvalue =>
      right
      rw [foldlM_wordsOnly hmode' hrun, hvalue, if_pos harg, hmode]
      simp
    | reads harg hopen₁ hpath hwaits hvalue =>
      refine (ih hopen₁ hrun).imp id fun hrest => ?_
      rw [hrest, hvalue, if_neg harg, ← Option.or_assoc]
      congr 1
      simp only [hwaits, List.getLast?_append, Option.or_assoc]
      congr 1
      have hlast : ∀ x : Option String, x.toList.getLast? = x := by rintro (_ | _) <;> rfl
      by_cases hmode : r.mode = .pathOf o
      · obtain ⟨hname, hnone⟩ := hpath hmode
        simp [hmode, hname, hnone]
      by_cases hname : o.takesPath = true ∧ arg = o.argument
      · have hnone : o.valueIn? arg = none := by
          rw [hname.2, Opt.valueIn?_argument, if_neg (by simp [hname.1])]
        rw [if_pos hname, if_pos hname, if_neg hmode, if_neg hmode, hnone]
        rfl
      · rw [if_neg hname, if_neg hname, if_neg hmode, if_neg hmode, hlast]
        exact Option.or_none.symm

end Reader

/-- The value that an invocation is made from, for an option that has no letter. -/
theorem exists_reader_of_read {args : List String} {i : Invocation} (h : read args = .ok i)
    {o : Opt} (ho : o.letter? = none) :
    ∃ r : Reader, r.finish = .ok i ∧ r.value? o = (o.valuesIn args).getLast? := by
  unfold read at h
  split at h
  · next r hrun =>
    refine ⟨r, h, ?_⟩
    rcases Reader.foldlM_value? ho (Or.inl rfl) hrun with ⟨l, hl⟩ | hvalue
    · rw [Reader.finish, hl] at h
      cases h
    · rw [hvalue, if_neg (by simp)]
      exact Option.or_none
  · cases h

/-- What an invocation takes from the options. -/
theorem Reader.of_finish {r : Reader} {i : Invocation} (h : r.finish = .ok i) :
    i.config = r.value? .config ∧ i.json = (r.value? .json).isSome := by
  unfold finish at h
  split at h
  · cases h
  · cases h
  · split at h
    · cases h
    · cases h
      exact ⟨rfl, rfl⟩

/-- The settings file that an invocation names is the last one given in front of the first `--`. -/
theorem config_of_read {args : List String} {i : Invocation} (h : read args = .ok i) :
    i.config = (Opt.config.valuesIn args).getLast? := by
  obtain ⟨r, hfinish, hvalue⟩ := exists_reader_of_read h (o := Opt.config) rfl
  rw [← hvalue, (Reader.of_finish hfinish).1]

/-- A path is read in both ways and on every level, but not behind `--`. -/
example : Opt.config.valuesIn ["--config", "a", "build", "--config=b", "--", "--config=c"] = ["a", "b"] := by
  decide +kernel

theorem valuesIn_json (args : List String) :
    Opt.json.valuesIn args ≠ [] ↔ "--json" ∈ args.takeWhile (· ≠ "--") := by
  induction args with
  | nil => simp [Opt.valuesIn]
  | cons arg args ih =>
    have hname : Opt.json.argument = "--json" := by decide
    rw [Opt.valuesIn, Opt.valueIn?_flag rfl, hname]
    by_cases hend : arg = "--"
    · simp [hend]
    · by_cases harg : arg = "--json"
      · simp [harg, Opt.takesPath]
      · simp [hend, harg, Opt.takesPath, ih, eq_comm (a := "--json")]

/-- An invocation has the flag exactly when `--json` stands in front of the first `--`. -/
theorem json_of_read {args : List String} {i : Invocation} (h : read args = .ok i) :
    i.json = true ↔ "--json" ∈ args.takeWhile (· ≠ "--") := by
  obtain ⟨r, hfinish, hvalue⟩ := exists_reader_of_read h (o := Opt.json) rfl
  rw [← valuesIn_json, (Reader.of_finish hfinish).2, hvalue, Option.isSome_iff_ne_none, Ne,
    List.getLast?_eq_none_iff]

end Tariff.Command
