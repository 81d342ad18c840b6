import PoseDB.Lib.Run
import Mathlib.Algebra.GroupWithZero.Nat
import Mathlib.Algebra.Order.BigOperators.Group.List
import Mathlib.Algebra.Order.Group.Nat
import Mathlib.Data.List.Range

/-!
# Words that every thread may initialize

`n` shared words are written by whoever finds the flag clear, and copied once it is set. Several threads may write at
once, and others may read meanwhile; since all write the same values, no copy is ever torn. **`ends`**: every run
ends, with every thread holding the values.
-/

set_option autoImplicit false

namespace Publish
open Runs

/-- Where a thread stands. -/
inductive Pc where
  | load
  | write (i : Nat)
  | read (i : Nat)
  | done

/-- The words, the flag, and the place and the copy of each thread. -/
structure State (ω : Type*) where
  word : Nat → ω
  ready : Bool
  pc : Nat → Pc
  copy : Nat → Nat → ω

variable {ω : Type*} (n threads : Nat) (value : Nat → ω)

/-- One access of one thread. -/
inductive Step : State ω → State ω → Prop where
  | hit {s : State ω} {t : Nat} (ht : t < threads) (hpc : s.pc t = .load) (hready : s.ready = true) :
      Step s { s with pc := Function.update s.pc t (.read 0) }
  | miss {s : State ω} {t : Nat} (ht : t < threads) (hpc : s.pc t = .load) (hready : s.ready = false) :
      Step s { s with pc := Function.update s.pc t (.write 0) }
  | write {s : State ω} {t i : Nat} (ht : t < threads) (hpc : s.pc t = .write i) (hi : i < n) :
      Step s { s with word := Function.update s.word i (value i), pc := Function.update s.pc t (.write (i + 1)) }
  | publish {s : State ω} {t : Nat} (ht : t < threads) (hpc : s.pc t = .write n) :
      Step s { s with ready := true, pc := Function.update s.pc t (.read 0) }
  | read {s : State ω} {t i : Nat} (ht : t < threads) (hpc : s.pc t = .read i) (hi : i < n) :
      Step s { s with copy := Function.update s.copy t (Function.update (s.copy t) i (s.word i))
                      pc := Function.update s.pc t (.read (i + 1)) }
  | finish {s : State ω} {t : Nat} (ht : t < threads) (hpc : s.pc t = .read n) :
      Step s { s with pc := Function.update s.pc t .done }

def Knows (s : State ω) (t : Nat) : Pc → Prop
  | .load => True
  | .write i => i ≤ n ∧ ∀ j < i, s.word j = value j
  | .read i => i ≤ n ∧ (∀ j < n, s.word j = value j) ∧ ∀ j < i, s.copy t j = value j
  | .done => ∀ j < n, s.copy t j = value j

/-- The invariant: the words are right once the flag is set, and every thread knows what its place needs. -/
structure Inv (s : State ω) : Prop where
  ready : s.ready = true → ∀ j < n, s.word j = value j
  knows : ∀ t, Knows n value s t (s.pc t)

variable {n threads value} {s s' : State ω}

/-- What a thread knows is kept when words only get right and its copy stays. -/
theorem Knows.mono {t : Nat} {pc : Pc} (h : Knows n value s t pc) (hword : ∀ j < n, s.word j = value j → s'.word j = value j)
    (hcopy : s'.copy t = s.copy t) : Knows n value s' t pc := by
  cases pc with
  | load => trivial
  | write i => exact ⟨h.1, fun j hj => hword j (Nat.lt_of_lt_of_le hj h.1) (h.2 j hj)⟩
  | read i => exact ⟨h.1, fun j hj => hword j hj (h.2.1 j hj), fun j hj => hcopy ▸ h.2.2 j hj⟩
  | done => exact fun j hj => hcopy ▸ h j hj

/-- A step of thread `t` to the place `pc`: the other threads keep what they know. -/
theorem Inv.move (hI : Inv n value s) {t : Nat} {pc : Pc} (hpc : s'.pc = Function.update s.pc t pc)
    (hready : s'.ready = true → ∀ j < n, s'.word j = value j)
    (hword : ∀ j < n, s.word j = value j → s'.word j = value j) (hcopy : ∀ u, u ≠ t → s'.copy u = s.copy u)
    (hknows : Knows n value s' t pc) : Inv n value s' := by
  refine ⟨hready, fun u => ?_⟩
  rw [hpc]
  by_cases hu : u = t
  · rw [hu, Function.update_self]
    exact hknows
  · rw [Function.update_of_ne hu]
    exact (hI.knows u).mono hword (hcopy u hu)

theorem Inv.step (hI : Inv n value s) (hstep : Step n threads value s s') : Inv n value s' := by
  cases hstep with
  | @hit t ht hpc hready =>
    exact hI.move rfl hI.ready (fun _ _ h => h) (fun _ _ => rfl)
      ⟨Nat.zero_le n, hI.ready hready, fun j hj => absurd hj (Nat.not_lt_zero j)⟩
  | @miss t ht hpc hready =>
    exact hI.move rfl hI.ready (fun _ _ h => h) (fun _ _ => rfl) ⟨Nat.zero_le n, fun j hj => absurd hj (Nat.not_lt_zero j)⟩
  | @write t i ht hpc hi =>
    -- a second write of a word writes what is there
    have hkeep : ∀ j < n, s.word j = value j → Function.update s.word i (value i) j = value j := by
      intro j _ hj
      by_cases hji : j = i
      · rw [hji, Function.update_self]
      · rw [Function.update_of_ne hji, hj]
    have hknows := hI.knows t
    rw [hpc] at hknows
    refine hI.move rfl (fun hready j hj => hkeep j hj (hI.ready hready j hj)) hkeep (fun _ _ => rfl) ⟨hi, fun j hj => ?_⟩
    rcases Nat.lt_succ_iff_lt_or_eq.mp hj with hlt | rfl
    · exact hkeep j (hlt.trans hi) (hknows.2 j hlt)
    · exact Function.update_self ..
  | @publish t ht hpc =>
    have hknows := hI.knows t
    rw [hpc] at hknows
    exact hI.move rfl (fun _ => hknows.2) (fun _ _ h => h) (fun _ _ => rfl)
      ⟨Nat.zero_le n, hknows.2, fun j hj => absurd hj (Nat.not_lt_zero j)⟩
  | @read t i ht hpc hi =>
    have hknows := hI.knows t
    rw [hpc] at hknows
    obtain ⟨-, hword, hcopied⟩ := hknows
    refine hI.move rfl hI.ready (fun _ _ h => h) (fun u hu => Function.update_of_ne hu ..) ⟨hi, hword, fun j hj => ?_⟩
    show Function.update s.copy t (Function.update (s.copy t) i (s.word i)) t j = value j
    rw [Function.update_self]
    rcases Nat.lt_succ_iff_lt_or_eq.mp hj with hlt | rfl
    · rw [Function.update_of_ne (Nat.ne_of_lt hlt), hcopied j hlt]
    · rw [Function.update_self, hword j hi]
  | @finish t ht hpc =>
    have hknows := hI.knows t
    rw [hpc] at hknows
    exact hI.move rfl hI.ready (fun _ _ h => h) (fun _ _ => rfl) hknows.2.2

/-! ## Every run ends -/

variable (n) in
def weight : Pc → Nat
  | .load => 2 * n + 3
  | .write i => 2 * n + 2 - i
  | .read i => n + 1 - i
  | .done => 0

variable (n threads) in
def remaining (s : State ω) : Nat := ((List.range threads).map fun t => weight n (s.pc t)).sum

theorem remaining_lt {t : Nat} (ht : t < threads) {pc : Pc} (hpc : s'.pc = Function.update s.pc t pc)
    (hlt : weight n pc < weight n (s.pc t)) : remaining n threads s' < remaining n threads s := by
  unfold remaining
  apply List.sum_lt_sum
  · intro u _
    rw [hpc]
    by_cases hu : u = t
    · rw [hu, Function.update_self]
      exact Nat.le_of_lt hlt
    · rw [Function.update_of_ne hu]
  · exact ⟨t, List.mem_range.mpr ht, by rw [hpc, Function.update_self]; exact hlt⟩

theorem Step.remaining_lt (hstep : Step n threads value s s') :
    remaining n threads s' < remaining n threads s := by
  cases hstep with
  | hit ht hpc hready => exact Publish.remaining_lt ht rfl (by rw [hpc, weight, weight]; omega)
  | miss ht hpc hready => exact Publish.remaining_lt ht rfl (by rw [hpc, weight, weight]; omega)
  | write ht hpc hi => exact Publish.remaining_lt ht rfl (by rw [hpc, weight, weight]; omega)
  | publish ht hpc => exact Publish.remaining_lt ht rfl (by rw [hpc, weight, weight]; omega)
  | read ht hpc hi => exact Publish.remaining_lt ht rfl (by rw [hpc, weight, weight]; omega)
  | finish ht hpc => exact Publish.remaining_lt ht rfl (by rw [hpc, weight, weight]; omega)

/-- A thread that has not finished can take a step, whatever the others do. -/
theorem Inv.progress (hI : Inv n value s) {t : Nat} (ht : t < threads) (hpc : s.pc t ≠ .done) :
    ∃ s', Step n threads value s s' := by
  have hknows := hI.knows t
  cases h : s.pc t with
  | load =>
    cases hready : s.ready with
    | true => exact ⟨_, .hit ht h hready⟩
    | false => exact ⟨_, .miss ht h hready⟩
  | write i =>
    rw [h] at hknows
    rcases Nat.lt_or_eq_of_le hknows.1 with hi | rfl
    · exact ⟨_, .write ht h hi⟩
    · exact ⟨_, .publish ht h⟩
  | read i =>
    rw [h] at hknows
    rcases Nat.lt_or_eq_of_le hknows.1 with hi | rfl
    · exact ⟨_, .read ht h hi⟩
    · exact ⟨_, .finish ht h⟩
  | done => exact absurd h hpc

/-- **Every run ends, with the values in every copy.** -/
theorem ends (hstart : ∀ t, s.pc t = .load) (hready : s.ready = false) :
    Ends (Step n threads value) (fun s' => ∀ t < threads, s'.pc t = .done ∧ ∀ j < n, s'.copy t j = value j) s := by
  have h0 : Inv n value s := ⟨fun h => absurd h (by rw [hready]; decide), fun t => by rw [hstart t]; trivial⟩
  refine Ends.of_inv (Inv n value) (remaining n threads) (fun s s' hI hstep => ⟨hI.step hstep, hstep.remaining_lt⟩) ?_ h0
  intro s hI hstop t ht
  have hdone : s.pc t = .done := by
    by_contra hne
    obtain ⟨s', hstep⟩ := hI.progress ht hne
    exact hstop s' hstep
  have hknows := hI.knows t
  rw [hdone] at hknows
  exact ⟨hdone, hknows⟩

end Publish
