import Mathlib.Data.List.ReduceOption
import Mathlib.Logic.Function.Basic
import NgxKeyval.Library.Machine

/-!
# Objects that are called at the same time

Several workers call operations of one object.  What can be seen of that from outside is when a call
is made and when it returns with what; an implementation is right if nothing more can be seen of it
than of an object whose operations happen at once, at some moment between the call and its return.

* `Machine.trace` is what is seen of a run, and `Machine.trace_simulation` is how one machine is
  shown to do nothing another one could not: each step of the first is answered by any number of
  steps of the second, with the same signs.
* `atomicStep` is the object whose operations happen at once.  A machine all of whose traces are
  traces of it is linearizable: the moments at which the operations happen put the calls of a run in
  one order, which no worker can tell from the real one.
-/

set_option autoImplicit false

universe u v w x y

namespace Machine

variable {σ : Type u} {ι : Type v} {ο : Type w} {τ : Type x} {κ : Type y}

/-- What is seen of a run: the outputs that are there. -/
def trace (step : σ → ι → Option ο × σ) (s : σ) (is : List ι) : List ο :=
  (outputs step s is).reduceOption

section

variable (step : σ → ι → Option ο × σ)

theorem trace_cons (s : σ) (i : ι) (is : List ι) :
    trace step s (i :: is) = (step s i).1.toList ++ trace step (step s i).2 is := by
  rw [trace, outputs_cons]
  rcases (step s i).1 with _ | o
  · rw [List.reduceOption_cons_of_none, Option.toList_none, List.nil_append, trace]
  · rw [List.reduceOption_cons_of_some, Option.toList_some, List.singleton_append, trace]

theorem trace_append (s : σ) (is js : List ι) :
    trace step s (is ++ js) = trace step s is ++ trace step (final step s is) js := by
  induction is generalizing s with
  | nil => rfl
  | cons i is ih =>
    rw [List.cons_append, trace_cons, trace_cons, ih, final_cons, List.append_assoc]

end

variable {step : σ → ι → Option ο × σ} {step' : τ → κ → Option ο × τ}

/-- **Weak simulation.**  If each step of a machine is answered by steps of another one with the
same signs, the other one has all the traces of the first. -/
theorem trace_simulation (ok : σ → ι → Prop) (R : σ → τ → Prop)
    (hstep : ∀ s t i, R s t → ok s i → ∃ js,
      trace step' t js = (step s i).1.toList ∧ R (step s i).2 (final step' t js))
    {s : σ} {t : τ} (h0 : R s t) {is : List ι} (hm : Meets ok step s is) :
    ∃ js, trace step' t js = trace step s is ∧ R (final step s is) (final step' t js) := by
  induction is generalizing s t with
  | nil => exact ⟨[], rfl, h0⟩
  | cons i is ih =>
    obtain ⟨js, htrace, hrel⟩ := hstep s t i h0 hm.1
    obtain ⟨js', htrace', hrel'⟩ := ih hrel hm.2
    refine ⟨js ++ js', ?_, ?_⟩
    · rw [trace_append, trace_cons, htrace, htrace']
    · rw [final_append]
      exact hrel'

end Machine

/-! ## Operations that happen at once -/

namespace Concurrent

/-- Where a worker is. -/
inductive Phase (ι : Type u) (ρ : Type v) where
  | idle
  /-- It has made a call. -/
  | called (i : ι)
  /-- The operation has happened, and the call is about to return. -/
  | done (r : ρ)
  deriving DecidableEq, Repr

/-- An object, and where its workers are. -/
structure Object (π : Type u) (τ : Type v) (ι : Type w) (ρ : Type x) where
  state : τ
  phase : π → Phase ι ρ

/-- What is seen from outside. -/
inductive Sign (π : Type u) (ι : Type v) (ρ : Type w) where
  | call (p : π) (i : ι)
  | back (p : π) (r : ρ)
  deriving DecidableEq, Repr

/-- What a worker does next. -/
inductive Move (π : Type u) (ι : Type v) where
  | call (p : π) (i : ι)
  /-- The operation happens. -/
  | perform (p : π)
  | back (p : π)
  deriving DecidableEq, Repr

section

variable {π : Type u} {τ : Type v} {ι : Type w} {ρ : Type x} [DecidableEq π]

/-- An object of which nothing has been called. -/
def Object.new (t : τ) : Object π τ ι ρ := ⟨t, fun _ ↦ .idle⟩

/-- One move.  A worker that is elsewhere does nothing. -/
def atomicStep (op : τ → ι → ρ × τ) (a : Object π τ ι ρ) :
    Move π ι → Option (Sign π ι ρ) × Object π τ ι ρ
  | .call p i =>
    match a.phase p with
    | .idle => (some (.call p i), ⟨a.state, Function.update a.phase p (.called i)⟩)
    | _ => (none, a)
  | .perform p =>
    match a.phase p with
    | .called i =>
      (none, ⟨(op a.state i).2, Function.update a.phase p (.done (op a.state i).1)⟩)
    | _ => (none, a)
  | .back p =>
    match a.phase p with
    | .done r => (some (.back p r), ⟨a.state, Function.update a.phase p .idle⟩)
    | _ => (none, a)

variable {op : τ → ι → ρ × τ} {a : Object π τ ι ρ} {p : π}

theorem atomicStep_call (h : a.phase p = .idle) (i : ι) :
    atomicStep op a (.call p i) =
      (some (.call p i), ⟨a.state, Function.update a.phase p (.called i)⟩) := by
  simp only [atomicStep, h]

theorem atomicStep_perform {i : ι} (h : a.phase p = .called i) :
    atomicStep op a (.perform p) =
      (none, ⟨(op a.state i).2, Function.update a.phase p (.done (op a.state i).1)⟩) := by
  simp only [atomicStep, h]

theorem atomicStep_back {r : ρ} (h : a.phase p = .done r) :
    atomicStep op a (.back p) =
      (some (.back p r), ⟨a.state, Function.update a.phase p .idle⟩) := by
  simp only [atomicStep, h]

end

end Concurrent
