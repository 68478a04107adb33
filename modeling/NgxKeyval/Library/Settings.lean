import Mathlib.Logic.Function.Basic

/-!
# Arguments that set fields of a record

Arguments are read one after the other, each of which may set one field of a record to a value; a
later one overwrites an earlier one.

* `Settings.run` is the record that is left, as a function of its fields.
* `Settings.run_eq_last` — each field has the value of the last argument that sets it, or the one it
  had before.
-/

set_option autoImplicit false

universe u v w

namespace Settings

variable {α : Type u} {F : Type v} {V : Type w} [DecidableEq F] {set : α → Option (F × V)}

/-- Read an argument, which sets what `set` says. -/
def apply (set : α → Option (F × V)) (r : F → V) (a : α) : F → V :=
  match set a with
  | none => r
  | some (f, x) => Function.update r f x

/-- Read the arguments in order. -/
def run (set : α → Option (F × V)) (args : List α) (r : F → V) : F → V := args.foldl (apply set) r

/-- The value an argument gives to a field. -/
def value (set : α → Option (F × V)) (f : F) (a : α) : Option V :=
  match set a with
  | none => none
  | some (g, x) => if g = f then some x else none

/-- The values the arguments give to a field, in order. -/
def values (set : α → Option (F × V)) (f : F) (args : List α) : List V :=
  args.filterMap (value set f)

theorem run_cons (a : α) (args : List α) (r : F → V) :
    run set (a :: args) r = run set args (apply set r a) := rfl

theorem apply_eq (r : F → V) (a : α) (f : F) : apply set r a f = (value set f a).getD (r f) := by
  rw [apply, value]
  rcases set a with _ | ⟨g, x⟩
  · rfl
  · by_cases hg : g = f
    · subst hg
      simp
    · simp [hg, Function.update_of_ne (Ne.symm hg)]

/-- **The last setting of a field counts.** -/
theorem run_eq_last (args : List α) (r : F → V) (f : F) :
    run set args r f = (values set f args).getLast?.getD (r f) := by
  induction args generalizing r with
  | nil => rfl
  | cons a args ih =>
    rw [run_cons, ih, apply_eq, values, values, List.filterMap_cons]
    cases value set f a with
    | none => rfl
    | some x =>
      simp only [Option.getD_some]
      cases hrest : args.filterMap (value set f) with
      | nil => rfl
      | cons y ys =>
        -- another setting follows, so what this one leaves does not matter
        have hsome : (y :: ys).getLast? = some ((y :: ys).getLast (List.cons_ne_nil y ys)) :=
          List.getLast?_eq_some_getLast _
        rw [List.getLast?_cons_cons, hsome]
        rfl

end Settings
