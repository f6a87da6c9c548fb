/-
  JSON values that say the same. The fields of an object are a map from keys to values: their order does
  not count, and of several fields of one key the last does (`field`). A form tells a relation when values
  whose forms say the same are so related, and it is faithful when they are equal. The form of a record
  tells what the forms of its parts do when each part is found under a key of its own, which no other part
  takes (`Same.rel_of_field?`).
-/
import Tariff.Json
import Mathlib.Data.List.Forall2

namespace Tariff.Json

/-! ## Fields -/

/-- What an object has under a key: of several fields the last. -/
def field (key : String) : List (String × Json) → Option Json
  | [] => none
  | (key', value) :: fields => (field key fields).or (if key' = key then some value else none)

variable {key key' : String} {xs ys : List (String × Json)}

@[simp]
theorem field_nil (key : String) : field key [] = none := rfl

@[simp]
theorem field_cons (key key' : String) (value : Json) (xs : List (String × Json)) :
    field key ((key', value) :: xs) =
      (field key xs).or (if key' = key then some value else none) := rfl

@[simp]
theorem field_append (key : String) (xs ys : List (String × Json)) :
    field key (xs ++ ys) = (field key ys).or (field key xs) := by
  induction xs with
  | nil => simp
  | cons x xs ih => rw [List.cons_append, field_cons, ih, field_cons, Option.or_assoc]

/-- A field that may be left out is there when it has a value. -/
@[simp]
theorem field_field? (key key' : String) (value : Option Json) :
    field key (field? key' value) = if key' = key then value else none := by
  cases value with
  | none => simp [field?]
  | some value => rfl

theorem mem_of_field {value : Json} (h : field key xs = some value) : (key, value) ∈ xs := by
  induction xs with
  | nil => cases h
  | cons x xs ih =>
    rw [field_cons, Option.or_eq_some_iff] at h
    rcases h with h | ⟨-, h⟩
    · exact List.mem_cons_of_mem _ (ih h)
    · rw [Option.ite_none_right_eq_some] at h
      obtain ⟨rfl, h⟩ := h
      cases h
      exact List.mem_cons_self ..

/-! ## Values -/

/-- Two values say the same. -/
inductive Same : Json → Json → Prop
  | null : Same .null .null
  | bool (b : Bool) : Same (.bool b) (.bool b)
  | int (n : Int) : Same (.int n) (.int n)
  | str (s : String) : Same (.str s) (.str s)
  | arr {xs ys : List Json} (items : List.Forall₂ Same xs ys) : Same (.arr xs) (.arr ys)
  | obj {xs ys : List (String × Json)}
      (fields : ∀ key, Option.Rel Same (field key xs) (field key ys)) : Same (.obj xs) (.obj ys)

namespace Same

mutual

theorem refl : ∀ j : Json, Same j j
  | .null => .null
  | .bool b => .bool b
  | .int n => .int n
  | .str s => .str s
  | .arr items => .arr (refl_items items)
  | .obj fields => .obj fun key => by
    cases hfield : field key fields with
    | none => exact .none
    | some value => exact .some (refl_fields fields _ (mem_of_field hfield))

theorem refl_items : ∀ items : List Json, List.Forall₂ Same items items
  | [] => .nil
  | item :: items => .cons (refl item) (refl_items items)

theorem refl_fields : ∀ fields : List (String × Json), ∀ p ∈ fields, Same p.2 p.2
  | [] => List.forall_mem_nil _
  | (_, value) :: fields => List.forall_mem_cons.mpr ⟨refl value, refl_fields fields⟩

end

theorem str_inj {s t : String} (h : Same (.str s) (.str t)) : s = t := by
  cases h
  rfl

theorem int_inj {m n : Int} (h : Same (.int m) (.int n)) : m = n := by
  cases h
  rfl

theorem items {xs ys : List Json} (h : Same (.arr xs) (.arr ys)) : List.Forall₂ Same xs ys := by
  cases h with
  | arr items => exact items

theorem fields (h : Same (.obj xs) (.obj ys)) (key : String) :
    Option.Rel Same (field key xs) (field key ys) := by
  cases h with
  | obj fields => exact fields key

end Same

/-! ## Forms -/

variable {α : Type} {form : α → Json} {R : α → α → Prop}

/-- Values whose forms say the same are related. -/
def Tells (form : α → Json) (R : α → α → Prop) : Prop := ∀ a b, Same (form a) (form b) → R a b

/-- Values whose forms say the same are the same. -/
def Faithful (form : α → Json) : Prop := Tells form Eq

/-- A relation that is told, and keeps the form, is what it is for forms to say the same. -/
theorem Tells.same_iff (h : Tells form R) (hform : ∀ a b, R a b → form a = form b) (a b : α) :
    Same (form a) (form b) ↔ R a b := by
  refine ⟨h a b, fun hrel => ?_⟩
  rw [hform a b hrel]
  exact Same.refl _

/-- A text is a faithful form when it tells its value. -/
theorem faithful_str {text : α → String} (h : ∀ a b, text a = text b → a = b) :
    Faithful fun a => .str (text a) := fun a b hsame => h a b hsame.str_inj

theorem faithful_string : Faithful str := faithful_str fun _ _ h => h

theorem faithful_count : Faithful fun n : Nat => .int n := fun _ _ hsame =>
  Int.ofNat_inj.mp hsame.int_inj

theorem faithful_ofText? : Faithful ofText? := by
  intro a b h
  cases a <;> cases b <;> cases h <;> rfl

theorem Tells.forall₂ (h : Tells form R) {as bs : List α}
    (hsame : List.Forall₂ Same (as.map form) (bs.map form)) : List.Forall₂ R as bs := by
  rw [List.forall₂_map_left_iff, List.forall₂_map_right_iff] at hsame
  exact hsame.imp h

theorem Tells.arr (h : Tells form R) :
    Tells (fun as : List α => .arr (as.map form)) (List.Forall₂ R) :=
  fun _ _ hsame => h.forall₂ hsame.items

/-- Parts that two objects have under one key, or both have not, are as their form tells. -/
theorem Same.rel_of_field? (h : Same (.obj xs) (.obj ys)) (hform : Tells form R) {a b : Option α}
    (key : String) (hx : field key xs = a.map form) (hy : field key ys = b.map form) :
    Option.Rel R a b := by
  have hrel := h.fields key
  rw [hx, hy] at hrel
  cases a <;> cases b <;> cases hrel
  · exact .none
  · next hsame => exact .some (hform _ _ hsame)

theorem Same.rel_of_field (h : Same (.obj xs) (.obj ys)) (hform : Tells form R) {a b : α}
    (key : String) (hx : field key xs = some (form a)) (hy : field key ys = some (form b)) : R a b := by
  cases h.rel_of_field? hform key (a := some a) (b := some b) (hx.trans rfl) (hy.trans rfl) with
  | some hrel => exact hrel

/-- Parts of faithful form that two objects have under one key, or both have not, are the same. -/
theorem Same.eq_of_field? (h : Same (.obj xs) (.obj ys)) (hform : Faithful form) {a b : Option α}
    (key : String) (hx : field key xs = a.map form) (hy : field key ys = b.map form) : a = b := by
  cases h.rel_of_field? hform key hx hy with
  | none => rfl
  | some heq => rw [heq]

theorem Same.eq_of_field (h : Same (.obj xs) (.obj ys)) (hform : Faithful form) {a b : α}
    (key : String) (hx : field key xs = some (form a)) (hy : field key ys = some (form b)) : a = b :=
  h.rel_of_field hform key hx hy

end Tariff.Json
