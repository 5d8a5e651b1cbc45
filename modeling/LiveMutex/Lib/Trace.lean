/-
Labelled steps and the traces they make: a trace is a list of labels that
leads from one state to another, and what every step keeps, a trace keeps.
-/
import Mathlib.Data.List.Basic

/-- The labels `as` lead from `s` to `s'`, step by step. -/
inductive Trace {σ α : Type} (step : σ → α → σ → Prop) : σ → List α → σ → Prop
  | nil (s : σ) : Trace step s [] s
  | cons {s s' s'' : σ} {a : α} {as : List α} (h : step s a s') (hs : Trace step s' as s'') :
      Trace step s (a :: as) s''

namespace Trace

variable {σ α : Type} {step : σ → α → σ → Prop}

theorem single {s s' : σ} {a : α} (h : step s a s') : Trace step s [a] s' := .cons h (.nil _)

theorem append {s s' s'' : σ} {as bs : List α} (h₁ : Trace step s as s') (h₂ : Trace step s' bs s'') :
    Trace step s (as ++ bs) s'' := by
  induction h₁ with
  | nil => exact h₂
  | cons h _ ih => exact .cons h (ih h₂)

theorem mono {step' : σ → α → σ → Prop} (hle : ∀ s a s', step s a s' → step' s a s') {s s' : σ}
    {as : List α} (h : Trace step s as s') : Trace step' s as s' := by
  induction h with
  | nil => exact .nil _
  | cons h _ ih => exact .cons (hle _ _ _ h) ih

/-- What every step of a trace keeps holds at its end. -/
theorem inv {I : σ → Prop} {s s' : σ} {as : List α} (h : Trace step s as s')
    (hstep : ∀ s a s', a ∈ as → step s a s' → I s → I s') (hi : I s) : I s' := by
  induction h with
  | nil => exact hi
  | cons h _ ih =>
    exact ih (fun s a s' ha => hstep s a s' (List.mem_cons_of_mem _ ha))
      (hstep _ _ _ List.mem_cons_self h hi)

/-- The same when the invariant also speaks of the labels so far. -/
theorem inv_log {I : List α → σ → Prop} {log : List α} {s s' : σ} {as : List α} (h : Trace step s as s')
    (hstep : ∀ log s a s', a ∈ as → step s a s' → I log s → I (log ++ [a]) s') (hi : I log s) :
    I (log ++ as) s' := by
  induction h generalizing log with
  | nil => simpa using hi
  | @cons s₁ s₂ s₃ a as h _ ih =>
    have := ih (fun log s a s' ha => hstep log s a s' (List.mem_cons_of_mem _ ha))
      (hstep log _ _ _ List.mem_cons_self h hi)
    simpa using this

/-- A run of a step function. -/
theorem of_foldlM {f : σ → α → Option σ} {s s' : σ} {as : List α} (h : as.foldlM f s = some s') :
    Trace (fun s a s' => f s a = some s') s as s' := by
  induction as generalizing s with
  | nil =>
    cases h
    exact .nil _
  | cons a as ih =>
    rw [List.foldlM_cons, Option.bind_eq_bind, Option.bind_eq_some_iff] at h
    obtain ⟨s₁, hs, h⟩ := h
    exact .cons hs (ih h)

end Trace
