/-
  What is loaded from a settings file. A file that is missing is reported (`load_missing`), and nothing
  else is reported so (`load_ne_notFound`). A file that is there is looked for once more on the way from
  the root, where a relative path may be too long or the working directory gone; in reach of that way
  (`InReach`), the settings are those that the text at the path makes (`settings_of_load`).
-/
import Tariff.Config.File

namespace Tariff.Config

/-! ## What is loaded -/

theorem load_missing {w : World} {path : String} (h : w.disk.isFile (Route.ofText path) = false) :
    load w (some path) = .error (.notFound path) := by
  have htext : fileText? w.disk path = .error (.notFound path) := by
    rw [fileText?, h]
    rfl
  rw [load, htext]

theorem settings_ne_notFound (env : Environment) (text : Option String) (path : String) :
    settings env text ≠ .error (.notFound path) := by
  have hfile : (text.map layerOfText).getD (.ok (.group [])) ≠ .error (.notFound path) := by
    cases text with
    | none => exact fun h => nomatch h
    | some text =>
      show layerOfText text ≠ _
      unfold layerOfText
      split <;> exact fun h => nomatch h
  unfold settings
  split
  · next e he =>
    intro heq
    exact hfile (he.trans (congrArg Except.error (Except.error.inj heq)))
  · dsimp only
    split <;> exact fun h => nomatch h

/-- Settings are not missing when the file is there or none is asked for. -/
theorem load_ne_notFound {w : World} {file : Option String}
    (h : ∀ path ∈ file, w.disk.isFile (Route.ofText path) = true) (path : String) :
    load w file ≠ .error (.notFound path) := by
  cases file with
  | none => exact settings_ne_notFound w.environment none path
  | some path' =>
    have htext : ∃ text, fileText? w.disk path' = .ok text := by
      unfold fileText?
      rw [if_pos (h path' rfl)]
      exact ⟨_, rfl⟩
    obtain ⟨text, htext⟩ := htext
    rw [load, htext]
    exact settings_ne_notFound w.environment text path

/-! ## The way from the root -/

theorem walk_append (d : Disk) (l : Location) (names more : List String) :
    d.walk l (names ++ more) = (d.walk l names).bind fun l => d.walk l more := by
  induction names generalizing l with
  | nil => rfl
  | cons name names ih =>
    rw [List.cons_append, Disk.walk, Disk.walk]
    cases d.step l name with
    | ok l => exact ih l
    | error e => rfl

/-- A path that is followed from the root anyway; or one that the disk takes behind that of the working
    directory, and this is where its path leads. -/
def InReach (d : Disk) (path : String) : Prop :=
  (Route.ofText path).isAbsolute = true ∨
    d.find (Route.below [] d.here) = .ok (d.here, .directory) ∧
      ((Route.ofText path).below d.here).fault? = none

theorem find_eq_ok {d : Disk} {r : Route} {l : Location} {e : Entry} (h : d.find r = .ok (l, e)) :
    d.locate r = .ok l ∧ d.get? l = some e := by
  unfold Disk.find at h
  split at h
  · cases h
  · next l' hlocate =>
    split at h
    · next e' hget =>
      obtain ⟨rfl, rfl⟩ := Prod.mk.inj (Except.ok.inj h)
      exact ⟨hlocate, hget⟩
    · cases h

theorem fault?_of_locate {d : Disk} {r : Route} {l : Location} (h : d.locate r = .ok l) :
    r.fault? = none := by
  unfold Disk.locate at h
  split at h
  · cases h
  all_goals assumption

theorem locate_below {d : Disk} {r : Route} {l : Location} (h : (r.below l).fault? = none) :
    d.locate (r.below l) = d.walk [] (l ++ r) := by
  unfold Disk.locate
  rw [h]
  rfl

theorem locate_relative {d : Disk} {r : Route} {l : Location} (hplain : r.isAbsolute = false)
    (h : d.locate r = .ok l) (hhere : d.get? d.here = some .directory) :
    d.locate r = d.walk d.here r := by
  have hfault := fault?_of_locate h
  unfold Disk.locate at h ⊢
  rw [hfault] at h ⊢
  cases r with
  | nil => cases h
  | cons name names =>
    have hname : name ≠ "" := by
      rintro rfl
      cases hplain
    have hgone : ¬ (d.get? d.here = none ∧ Route.isDots name) := by
      rw [hhere]
      exact fun h => nomatch h.1
    split
    · contradiction
    · contradiction
    · next heq => exact absurd (List.cons.inj heq).1 hname
    · rw [Disk.walkOut, if_neg hgone]

/-- A relative route leads where it leads behind the working directory, if that is in reach. -/
theorem find_below {d : Disk} {r : Route}
    (hhere : d.find (Route.below [] d.here) = .ok (d.here, .directory))
    (hfault : (r.below d.here).fault? = none) (hplain : r.isAbsolute = false) (hfile : d.isFile r = true) :
    d.find (r.below d.here) = d.find r := by
  obtain ⟨hown, hget⟩ := find_eq_ok hhere
  have hway : d.walk [] d.here = .ok d.here := by
    rw [← hown, locate_below (fault?_of_locate hown), List.append_nil]
  obtain ⟨l, text, hfound⟩ : ∃ l text, d.find r = .ok (l, .file text) := by
    unfold Disk.isFile at hfile
    split at hfile
    · next l text hfound => exact ⟨l, text, hfound⟩
    · cases hfile
  have hlocate : d.locate (r.below d.here) = d.locate r := by
    rw [locate_below hfault, walk_append, hway, locate_relative hplain (find_eq_ok hfound).1 hget]
    rfl
  rw [Disk.find, hlocate, Disk.find]

theorem upwards_eq_cons (l : Location) : ∃ above, upwards l = l :: above := by
  rw [upwards, List.range_succ_eq_map, List.map_cons, Nat.sub_zero, List.take_length]
  exact ⟨_, rfl⟩

/-- In reach, a file that is there is the first that is looked for. -/
theorem exists_routes_cons {d : Disk} {path : String} (hreach : InReach d path)
    (hfile : d.isFile (Route.ofText path) = true) :
    ∃ r rest, routes d (Route.ofText path) = r :: rest ∧ d.find r = d.find (Route.ofText path) := by
  unfold routes
  split
  · exact ⟨_, [], rfl, rfl⟩
  · next habsolute =>
    obtain ⟨hhere, hfault⟩ := hreach.resolve_left habsolute
    have hplain := Bool.eq_false_iff.mpr habsolute
    have hthere : d.hasHere = true := by
      rw [Disk.hasHere, (find_eq_ok hhere).2]
      rfl
    obtain ⟨above, habove⟩ := upwards_eq_cons d.here
    rw [if_pos hthere, habove]
    exact ⟨_, _, rfl, find_below hhere hfault hplain hfile⟩

/-- In reach, the file that is read is the one at the path. -/
theorem fileText?_of_inReach {d : Disk} {path : String} {text : Option String} (hreach : InReach d path)
    (h : fileText? d path = .ok text) : text = (d.readText (Route.ofText path)).toOption := by
  unfold fileText? at h
  dsimp only at h
  split at h
  · next hfile =>
    obtain ⟨r, rest, hroutes, hfind⟩ := exists_routes_cons hreach hfile
    have hagain : d.isFile r = true := by
      rw [Disk.isFile, hfind]
      exact hfile
    rw [hroutes, List.find?_cons_of_pos hagain, Option.bind_some, Disk.readText, hfind] at h
    exact (Except.ok.inj h).symm
  · cases h

/-- Beside a working directory that is gone, a file is there but is not found again. -/
example :
    let d : Disk := ⟨[(["x.yaml"], .file "")], ["gone"]⟩
    d.isFile ["..", "x.yaml"] = true ∧ (fileText? d "../x.yaml").toOption = some none := by
  decide +kernel

/-- In a working directory with a path that is too long a file is there, but one above it is read. -/
example :
    let l : Location := List.replicate 20 (String.ofList (List.replicate 250 'a'))
    let d : Disk := ⟨[(l, .directory), (l ++ ["x.yaml"], .file "output:\n  json: true\n"),
      (["x.yaml"], .file "")], l⟩
    d.isFile ["x.yaml"] = true ∧ (fileText? d "x.yaml").toOption = some (some "") := by
  decide +kernel

/-- The settings of a file in reach are those that its text makes. -/
theorem settings_of_load {w : World} {file : Option String} {s : Settings}
    (hreach : ∀ path ∈ file, InReach w.disk path) (h : load w file = .ok s) :
    settings w.environment (file.bind fun path => (w.disk.readText (Route.ofText path)).toOption) = .ok s := by
  cases file with
  | none => exact h
  | some path =>
    unfold load at h
    dsimp only at h
    split at h
    · cases h
    · next text htext =>
      rw [Option.bind_some, ← fileText?_of_inReach (hreach path rfl) htext]
      exact h

end Tariff.Config
