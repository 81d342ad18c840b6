import Mathlib.Logic.Relation
import Mathlib.Tactic.Common

/-!
# Runs of a transition system

`Reachable init step s`: some run of steps leads from an initial state to `s`. A property of all initial states that
every step preserves holds of every reachable state (`Reachable.inv`). `Ends step Q s`: every run from `s` ends, and
ends in `Q`, whichever steps are taken.
-/

set_option autoImplicit false

namespace Runs

variable {σ : Type*} {init : σ → Prop} {step : σ → σ → Prop}

inductive Reachable (init : σ → Prop) (step : σ → σ → Prop) : σ → Prop where
  | start {s : σ} (h : init s) : Reachable init step s
  | step {s t : σ} (h : Reachable init step s) (hst : step s t) : Reachable init step t

/-- The invariant rule. -/
theorem Reachable.inv {I : σ → Prop} (h0 : ∀ s, init s → I s) (hstep : ∀ s t, I s → step s t → I t) {s : σ}
    (h : Reachable init step s) : I s := by
  induction h with
  | start h => exact h0 _ h
  | step _ hst ih => exact hstep _ _ ih hst

/-! ## Runs that end -/

/-- Every run from `s` ends, in a state of `Q`. -/
inductive Ends (step : σ → σ → Prop) (Q : σ → Prop) : σ → Prop where
  | intro (s : σ) (next : ∀ t, step s t → Ends step Q t) (halt : (∀ t, ¬step s t) → Q s) : Ends step Q s

variable {Q : σ → Prop}

theorem Ends.mono {Q' : σ → Prop} (hQ : ∀ s, Q s → Q' s) {s : σ} (h : Ends step Q s) : Ends step Q' s := by
  induction h with
  | intro s _ halt ih => exact .intro s ih fun hstop => hQ s (halt hstop)

/-- The total correctness rule: an invariant, and a number that every step makes smaller. -/
theorem Ends.of_inv (I : σ → Prop) (μ : σ → Nat) (hstep : ∀ s t, I s → step s t → I t ∧ μ t < μ s)
    (hhalt : ∀ s, I s → (∀ t, ¬step s t) → Q s) {s : σ} (h : I s) : Ends step Q s := by
  generalize hn : μ s = n
  induction n using Nat.strongRecOn generalizing s with
  | _ n ih =>
    subst hn
    refine .intro s (fun t hst => ?_) (hhalt s h)
    obtain ⟨hI, hlt⟩ := hstep s t h hst
    exact ih (μ t) hlt hI rfl

/-- Some run from `s` ends, and its last state is in `Q`. -/
theorem Ends.exists_run {s : σ} (h : Ends step Q s) :
    ∃ t, Relation.ReflTransGen step s t ∧ (∀ u, ¬step t u) ∧ Q t := by
  induction h with
  | intro s _ halt ih =>
    by_cases hstop : ∀ t, ¬step s t
    · exact ⟨s, .refl, hstop, halt hstop⟩
    · push Not at hstop
      obtain ⟨t, hst⟩ := hstop
      obtain ⟨u, hrun, hend⟩ := ih t hst
      exact ⟨u, .head hst hrun, hend⟩

theorem keeps_run {I : σ → Prop} (hstep : ∀ s t, I s → step s t → I t) {s t : σ} (h : I s)
    (hrun : Relation.ReflTransGen step s t) : I t := by
  induction hrun with
  | refl => exact h
  | tail _ hst ih => exact hstep _ _ ih hst

end Runs
