import PoseDB.Lib.Loop
import Mathlib.Logic.Function.Basic
import Mathlib.Tactic.Common

/-!
# Flat memory

A memory is a total function from addresses. `store m d n v` writes the block `v 0, ..., v (n - 1)` at address `d`;
`memcpy` is the store of a block of the same memory. Loops that fill an array one cell at a time, or one run of
cells at a time, are stores (`update_store`, `store_store`).
-/

set_option autoImplicit false

namespace Mem

variable {β : Type*}

/-- The block `v 0, ..., v (n - 1)` written at address `d`. -/
def store (m : Nat → β) (d n : Nat) (v : Nat → β) : Nat → β :=
  fun a => if d ≤ a ∧ a < d + n then v (a - d) else m a

/-- `memcpy` of `n` cells; source and destination do not overlap. -/
def memcpy (m : Nat → β) (dst src n : Nat) : Nat → β := store m dst n fun i => m (src + i)

theorem store_in (m : Nat → β) (d n : Nat) (v : Nat → β) {i : Nat} (hi : i < n) : store m d n v (d + i) = v i := by
  rw [store, if_pos ⟨Nat.le_add_right d i, by omega⟩, Nat.add_sub_cancel_left]

theorem store_out (m : Nat → β) (d n : Nat) (v : Nat → β) {a : Nat} (ha : a < d ∨ d + n ≤ a) :
    store m d n v a = m a := by
  rw [store, if_neg (by omega)]

@[simp] theorem store_zero (m : Nat → β) (d : Nat) (v : Nat → β) : store m d 0 v = m := by
  funext a
  exact store_out m d 0 v (by omega)

theorem update_store (m : Nat → β) (d n : Nat) (v : Nat → β) :
    Function.update (store m d n v) (d + n) (v n) = store m d (n + 1) v := by
  funext a
  by_cases ha : a = d + n
  · subst ha
    rw [Function.update_self, store_in m d (n + 1) v (Nat.lt_succ_self n)]
  · rw [Function.update_of_ne ha]
    unfold store
    exact if_congr (by omega) rfl rfl

theorem update_eq_store (m : Nat → β) (d : Nat) (v : β) : Function.update m d v = store m d 1 fun _ => v := by
  have h := update_store m d 0 fun _ => v
  rwa [store_zero] at h

theorem fill_step {a v : Nat → β} {j : Nat} (h : ∀ x < j, a x = v x) :
    ∀ x < j + 1, Function.update a j (v j) x = v x := fun x hx => by
  rcases Nat.lt_succ_iff_lt_or_eq.mp hx with hlt | rfl
  · rw [Function.update_of_ne (Nat.ne_of_lt hlt), h x hlt]
  · rw [Function.update_self]

theorem store_store (m : Nat → β) (d n b : Nat) (v : Nat → β) :
    store (store m d n v) (d + n) b (fun j => v (n + j)) = store m d (n + b) v := by
  funext a
  unfold store
  by_cases h : d + n ≤ a ∧ a < d + n + b
  · rw [if_pos h, if_pos (by omega)]
    exact congrArg v (by omega)
  · rw [if_neg h]
    exact if_congr (by omega) rfl rfl

theorem store_congr (m : Nat → β) (d n : Nat) {v w : Nat → β} (h : ∀ i < n, v i = w i) :
    store m d n v = store m d n w := by
  funext a
  unfold store
  by_cases ha : d ≤ a ∧ a < d + n
  · rw [if_pos ha, if_pos ha, h _ (by omega)]
  · rw [if_neg ha, if_neg ha]

/-! ## Scattered writes -/

/-- Cell `a i` is replaced by `f i` of its content, for `i = 0, ..., n - 1`. -/
def scatter (n : Nat) (a : Nat → Nat) (f : Nat → β → β) (m : Nat → β) : Nat → β :=
  Loops.loop n (fun i m => Function.update m (a i) (f i (m (a i)))) m

theorem scatter_out {n : Nat} {a : Nat → Nat} {f : Nat → β → β} {m : Nat → β} {x : Nat} (hx : ∀ i < n, a i ≠ x) :
    scatter n a f m x = m x :=
  Loops.loop_inv (fun _ (t : Nat → β) => t x = m x) rfl fun i _ hi ht => by
    rw [Function.update_of_ne (hx i hi).symm, ht]

theorem scatter_in {n : Nat} {a : Nat → Nat} {f : Nat → β → β} {m : Nat → β} {i : Nat} (hi : i < n)
    (hinj : ∀ i < n, ∀ j < n, a i = a j → i = j) : scatter n a f m (a i) = f i (m (a i)) := by
  induction n with
  | zero => omega
  | succ n ih =>
    have hstep : scatter (n + 1) a f m = Function.update (scatter n a f m) (a n) (f n (scatter n a f m (a n))) := rfl
    rw [hstep]
    rcases Nat.lt_succ_iff_lt_or_eq.mp hi with hlt | rfl
    · rw [Function.update_of_ne fun h => Nat.ne_of_lt hlt (hinj i hi n (Nat.lt_succ_self n) h)]
      exact ih hlt fun i hi j hj => hinj i (Nat.lt_succ_of_lt hi) j (Nat.lt_succ_of_lt hj)
    · rw [Function.update_self, scatter_out fun j hj h => Nat.ne_of_lt hj (hinj j (Nat.lt_succ_of_lt hj) i hi h)]

theorem loop_update_eq_store (m : Nat → β) (d n : Nat) (v : Nat → β) :
    Loops.loop n (fun i m => Function.update m (d + i) (v i)) m = store m d n v := by
  induction n with
  | zero => exact (store_zero m d v).symm
  | succ n ih => rw [Loops.loop_succ, ih, update_store]

theorem loop_store_eq_store (m : Nat → β) (d n : Nat) {b : Nat} (hb : 0 < b) (v : Nat → Nat → β) :
    Loops.loop n (fun i m => store m (d + i * b) b (v i)) m = store m d (n * b) fun a => v (a / b) (a % b) := by
  induction n with
  | zero => rw [Nat.zero_mul, store_zero, Loops.loop_zero]
  | succ n ih =>
    rw [Loops.loop_succ, ih, Nat.succ_mul, ← store_store]
    apply store_congr
    intro j hj
    rw [Nat.mul_comm n b, Nat.mul_add_div hb, Nat.mul_add_mod, Nat.div_eq_of_lt hj, Nat.mod_eq_of_lt hj, Nat.add_zero]

theorem loop_store_in (m : Nat → β) (d : Nat) {n b i j : Nat} (hi : i < n) (hj : j < b) (v : Nat → Nat → β) :
    Loops.loop n (fun i m => store m (d + i * b) b (v i)) m (d + i * b + j) = v i j := by
  have hb : 0 < b := Nat.zero_lt_of_lt hj
  have hlt : i * b + j < n * b := calc
    i * b + j < i * b + b := Nat.add_lt_add_left hj _
    _ = (i + 1) * b := (Nat.succ_mul i b).symm
    _ ≤ n * b := Nat.mul_le_mul_right b hi
  rw [loop_store_eq_store m d n hb, Nat.add_assoc, store_in _ _ _ _ hlt, Nat.mul_comm i b, Nat.mul_add_div hb,
    Nat.mul_add_mod, Nat.div_eq_of_lt hj, Nat.mod_eq_of_lt hj, Nat.add_zero]

theorem loop_store_out (m : Nat → β) {d n b a : Nat} (hb : 0 < b) (ha : a < d ∨ d + n * b ≤ a) (v : Nat → Nat → β) :
    Loops.loop n (fun i m => store m (d + i * b) b (v i)) m a = m a := by
  rw [loop_store_eq_store m d n hb, store_out _ _ _ _ ha]

theorem memcpy_in (m : Nat → β) (dst src n : Nat) {i : Nat} (hi : i < n) :
    memcpy m dst src n (dst + i) = m (src + i) := store_in m dst n _ hi

theorem memcpy_out (m : Nat → β) (dst src n : Nat) {a : Nat} (ha : a < dst ∨ dst + n ≤ a) :
    memcpy m dst src n a = m a := store_out m dst n _ ha

end Mem
