import Mathlib.Algebra.GroupWithZero.Nat
import Mathlib.Data.List.Induction
import Mathlib.Tactic.Common

/-!
# Counted loops

`loop n body s` is a `for` loop with counter `0, ..., n - 1`; `batchLoop` is a loop that consumes its range in
batches of at most `cap` indices. Both have one rule each: a state property indexed by the counter that every
iteration (every batch) preserves holds at the end.
-/

set_option autoImplicit false

namespace Loops

variable {σ : Type*}

/-- `body 0`, ..., `body (n - 1)` in this order. -/
def loop : Nat → (Nat → σ → σ) → σ → σ
  | 0, _, s => s
  | n + 1, body, s => body n (loop n body s)

@[simp] theorem loop_zero (body : Nat → σ → σ) (s : σ) : loop 0 body s = s := rfl

@[simp] theorem loop_succ (n : Nat) (body : Nat → σ → σ) (s : σ) :
    loop (n + 1) body s = body n (loop n body s) := rfl

/-- The invariant rule. -/
theorem loop_inv {n : Nat} {body : Nat → σ → σ} {s : σ} (I : Nat → σ → Prop) (h0 : I 0 s)
    (hstep : ∀ i t, i < n → I i t → I (i + 1) (body i t)) : I n (loop n body s) := by
  induction n with
  | zero => exact h0
  | succ n ih => exact hstep n _ (Nat.lt_succ_self n) (ih fun i t hi => hstep i t (Nat.lt_succ_of_lt hi))

theorem loop_congr {n : Nat} {body body' : Nat → σ → σ} {s : σ}
    (h : ∀ i t, i < n → body i t = body' i t) : loop n body s = loop n body' s := by
  induction n with
  | zero => rfl
  | succ n ih =>
    rw [loop_succ, loop_succ, ih fun i t hi => h i t (Nat.lt_succ_of_lt hi), h n _ (Nat.lt_succ_self n)]

theorem loop_congr_inv {n : Nat} {body body' : Nat → σ → σ} {s : σ} (I : σ → Prop) (h0 : I s)
    (h : ∀ i t, I t → body i t = body' i t ∧ I (body i t)) : loop n body s = loop n body' s := by
  have key : loop n body s = loop n body' s ∧ I (loop n body s) := by
    induction n with
    | zero => exact ⟨rfl, h0⟩
    | succ n ih =>
      obtain ⟨heq, hI⟩ := h n _ ih.2
      exact ⟨by rw [loop_succ, loop_succ, ← ih.1, heq], hI⟩
  exact key.1

theorem loop_add (a b : Nat) (body : Nat → σ → σ) (s : σ) :
    loop (a + b) body s = loop b (fun i => body (a + i)) (loop a body s) := by
  induction b with
  | zero => rfl
  | succ b ih => rw [← Nat.add_assoc, loop_succ, loop_succ, ih]

theorem loop_map {τ : Type*} (f : σ → τ) {n : Nat} {body : Nat → σ → σ} {body' : Nat → τ → τ} {s : σ}
    (h : ∀ i t, i < n → f (body i t) = body' i (f t)) : f (loop n body s) = loop n body' (f s) := by
  induction n with
  | zero => rfl
  | succ n ih =>
    rw [loop_succ, loop_succ, h n _ (Nat.lt_succ_self n), ih fun i t hi => h i t (Nat.lt_succ_of_lt hi)]

theorem loop_eq_foldl {β : Type*} (f : β → σ → σ) {a : Nat → β} {l : List β} {s : σ}
    (h : ∀ j (hj : j < l.length), a j = l[j]) :
    loop l.length (fun j s => f (a j) s) s = l.foldl (fun s x => f x s) s := by
  induction l using List.reverseRecOn with
  | nil => rfl
  | append_singleton l x ih =>
    have hl : (l ++ [x]).length = l.length + 1 := by rw [List.length_append, List.length_singleton]
    have hx : a l.length = x := (h l.length (by omega)).trans (by simp)
    rw [List.foldl_append, ← ih fun j hj => (h j (by omega)).trans (List.getElem_append_left hj), hl, loop_succ, hx]
    rfl

/-- `body i b` handles the indices `i, ..., i + b - 1`; the batches cover `i, ..., w - 1`. -/
def batchLoop (w cap : Nat) (body : Nat → Nat → σ → σ) (i : Nat) (s : σ) : σ :=
  if _h : i < w ∧ 0 < cap then
    batchLoop w cap body (i + min (w - i) cap) (body i (min (w - i) cap) s)
  else s
termination_by w - i
decreasing_by omega

/-- The invariant rule of a batched loop. -/
theorem batchLoop_inv {w cap : Nat} (hcap : 0 < cap) {body : Nat → Nat → σ → σ} (I : Nat → σ → Prop)
    (hstep : ∀ i b t, i + b ≤ w → 0 < b → b ≤ cap → I i t → I (i + b) (body i b t)) :
    ∀ {i : Nat} {s : σ}, i ≤ w → I i s → I w (batchLoop w cap body i s) := by
  intro i s
  induction i, s using batchLoop.induct w cap body with
  | case1 i s h ih =>
    intro hi hI
    rw [batchLoop, dif_pos h]
    exact ih (by omega) (hstep i _ s (by omega) (by omega) (by omega) hI)
  | case2 i s h =>
    intro hi hI
    rw [batchLoop, dif_neg h]
    have : i = w := by omega
    exact this ▸ hI

end Loops

/-! ## Arrays of 8 and 16 words -/

instance neZero_eight : NeZero 8 := ⟨by decide⟩

instance neZero_sixteen : NeZero 16 := ⟨by decide⟩
