import Mathlib.Data.List.Basic

/-!
# Runs of a deterministic machine

A machine is a step function `σ → ι → ο × σ`: in state `s`, input `i` produces an output and a
next state.  This file runs such a machine over a list of inputs and packages the two inductions
every statement about a run rests on.

* `Machine.final` and `Machine.outputs` are the last state and the outputs, in order.
* `Machine.Meets ok` says that every step of the run is taken from a state and an input that
  satisfy `ok`.  A hypothesis on a run is always phrased this way: on the inputs alone when `ok`
  ignores the state, on the states the run goes through otherwise.
* `Machine.final_induction` turns a step lemma into an invariant of the whole run.
* `Machine.simulation` turns a step lemma about two machines fed the same inputs into equality of
  everything they output.
-/

set_option autoImplicit false

namespace Machine

universe u v w x

variable {σ : Type u} {ι : Type v} {ο : Type w} {τ : Type x}

/-- The state the machine ends in after reading the inputs in order. -/
def final (step : σ → ι → ο × σ) : σ → List ι → σ
  | s, [] => s
  | s, i :: is => final step (step s i).2 is

/-- What the machine outputs on the way, one output for each input. -/
def outputs (step : σ → ι → ο × σ) : σ → List ι → List ο
  | _, [] => []
  | s, i :: is => (step s i).1 :: outputs step (step s i).2 is

/-- Every step of the run is taken from a state and an input satisfying `ok`. -/
def Meets (ok : σ → ι → Prop) (step : σ → ι → ο × σ) : σ → List ι → Prop
  | _, [] => True
  | s, i :: is => ok s i ∧ Meets ok step (step s i).2 is

/-- The states a run from `s₀` can end in. -/
def Reachable (step : σ → ι → ο × σ) (s₀ s : σ) : Prop := ∃ is, final step s₀ is = s

section

variable (step : σ → ι → ο × σ)

@[simp] theorem final_nil (s : σ) : final step s [] = s := rfl

@[simp] theorem final_cons (s : σ) (i : ι) (is : List ι) :
    final step s (i :: is) = final step (step s i).2 is := rfl

@[simp] theorem outputs_nil (s : σ) : outputs step s [] = [] := rfl

@[simp] theorem outputs_cons (s : σ) (i : ι) (is : List ι) :
    outputs step s (i :: is) = (step s i).1 :: outputs step (step s i).2 is := rfl

theorem final_append (s : σ) (is js : List ι) :
    final step s (is ++ js) = final step (final step s is) js := by
  induction is generalizing s with
  | nil => rfl
  | cons i is ih => exact ih (step s i).2

end

section

variable {step : σ → ι → ο × σ} {ok : σ → ι → Prop}

theorem meets_append {s : σ} {is js : List ι} :
    Meets ok step s (is ++ js) ↔ Meets ok step s is ∧ Meets ok step (final step s is) js := by
  induction is generalizing s with
  | nil => simp [Meets]
  | cons i is ih => simp only [List.cons_append, Meets, final_cons, ih, and_assoc]

theorem meets_of_forall {s : σ} {is : List ι} (h : ∀ s, ∀ i ∈ is, ok s i) :
    Meets ok step s is := by
  induction is generalizing s with
  | nil => trivial
  | cons i is ih =>
    exact ⟨h s i List.mem_cons_self, ih fun s j hj ↦ h s j (List.mem_cons_of_mem i hj)⟩

theorem Meets.and {ok' : σ → ι → Prop} {s : σ} {is : List ι} (h : Meets ok step s is)
    (h' : Meets ok' step s is) : Meets (fun s i ↦ ok s i ∧ ok' s i) step s is := by
  induction is generalizing s with
  | nil => trivial
  | cons i is ih => exact ⟨⟨h.1, h'.1⟩, ih h.2 h'.2⟩

/-- Two conditions that agree wherever the run can be are met by the same runs.  It is enough that
the steps which meet them stay inside. -/
theorem meets_congr {ok' : σ → ι → Prop} {P : σ → Prop} (hiff : ∀ s i, P s → (ok s i ↔ ok' s i))
    (hstep : ∀ s i, P s → ok s i → P (step s i).2) {s : σ} (h0 : P s) {is : List ι} :
    Meets ok step s is ↔ Meets ok' step s is := by
  induction is generalizing s with
  | nil => exact Iff.rfl
  | cons i is ih =>
    refine ⟨fun h ↦ ⟨(hiff s i h0).mp h.1, (ih (hstep s i h0 h.1)).mp h.2⟩, fun h ↦ ?_⟩
    have hok := (hiff s i h0).mpr h.1
    exact ⟨hok, (ih (hstep s i h0 hok)).mpr h.2⟩

/-- **What every step preserves, every run preserves.** -/
theorem final_induction (ok : σ → ι → Prop) {P : σ → Prop}
    (hstep : ∀ s i, P s → ok s i → P (step s i).2) {s : σ} (h0 : P s) {is : List ι}
    (hm : Meets ok step s is) : P (final step s is) := by
  induction is generalizing s with
  | nil => exact h0
  | cons i is ih => exact ih (hstep s i h0 hm.1) hm.2

/-- **Forward simulation.**  Two machines whose related states give the same output on the same
input, and stay related, output the same on every run. -/
theorem simulation (ok : σ → ι → Prop) (R : σ → τ → Prop) {step' : τ → ι → ο × τ}
    (hstep : ∀ s t i, R s t → ok s i →
      (step s i).1 = (step' t i).1 ∧ R (step s i).2 (step' t i).2)
    {s : σ} {t : τ} (h0 : R s t) {is : List ι} (hm : Meets ok step s is) :
    outputs step s is = outputs step' t is ∧ R (final step s is) (final step' t is) := by
  induction is generalizing s t with
  | nil => exact ⟨rfl, h0⟩
  | cons i is ih =>
    obtain ⟨hout, hrel⟩ := hstep s t i h0 hm.1
    obtain ⟨hrest, hfinal⟩ := ih hrel hm.2
    exact ⟨by rw [outputs_cons, outputs_cons, hout, hrest], hfinal⟩

theorem Reachable.induction {P : σ → Prop} {s₀ s : σ} (hr : Reachable step s₀ s) (h0 : P s₀)
    (hstep : ∀ s i, P s → P (step s i).2) : P s := by
  obtain ⟨is, rfl⟩ := hr
  exact final_induction (fun _ _ ↦ True) (fun s i h _ ↦ hstep s i h) h0
    (meets_of_forall fun _ _ _ ↦ trivial)

end

end Machine
