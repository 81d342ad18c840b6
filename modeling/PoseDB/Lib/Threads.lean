import PoseDB.Lib.Run
import Mathlib.Algebra.Order.BigOperators.Group.List
import Mathlib.Algebra.GroupWithZero.Nat
import Mathlib.Algebra.Order.Group.Nat
import Mathlib.Data.List.Range

/-!
# Threads with barriers over one memory

A kernel is a number of threads over a memory of cells `L → V`. A thread makes accesses, each a write of one cell
computed from some cells, and its accesses are cut by barriers: no thread of a team passes barrier `p` before all
threads of the team have reached it, and different teams do not wait for each other. `Step` is one access of any
thread, or a barrier.

**`Kernel.ends`**: when no two accesses that can be concurrent touch the same cell in a way that matters (Bernstein's
conditions, `Access.Apart`), every run ends, and it ends in the memory of the serial run: phase by phase, and in a
phase thread by thread.
-/

set_option autoImplicit false

namespace Threads
open Runs

variable {L V : Type} [DecidableEq L]

/-! ## Accesses -/

/-- A write of the cell `dst` with a value that depends on the cells `reads` only. -/
structure Access (L V : Type) where
  dst : L
  reads : L → Prop
  val : (L → V) → V
  val_congr : ∀ m m' : L → V, (∀ l, reads l → m l = m' l) → val m = val m'

/-- `*dst = *src`. -/
def Access.move (dst src : L) : Access L V := ⟨dst, (· = src), fun m => m src, fun _ _ h => h src rfl⟩

def Access.run (a : Access L V) (m : L → V) : L → V := Function.update m a.dst (a.val m)

/-- Bernstein's conditions: neither of the two writes what the other one reads or writes. -/
structure Access.Apart (a b : Access L V) : Prop where
  dst : a.dst ≠ b.dst
  left : ¬a.reads b.dst
  right : ¬b.reads a.dst

omit [DecidableEq L] in
theorem Access.Apart.symm {a b : Access L V} (h : a.Apart b) : b.Apart a := ⟨h.dst.symm, h.right, h.left⟩

theorem Access.val_run {a b : Access L V} (h : ¬a.reads b.dst) (m : L → V) : a.val (b.run m) = a.val m := by
  apply a.val_congr
  intro l hl
  have hne : l ≠ b.dst := fun heq => h (heq ▸ hl)
  exact Function.update_of_ne hne _ _

theorem Access.Apart.comm {a b : Access L V} (h : a.Apart b) (m : L → V) : a.run (b.run m) = b.run (a.run m) := by
  rw [Access.run, val_run h.left, Access.run, Access.run, val_run h.right, Access.run]
  exact Function.update_comm h.dst.symm _ _ _

def runAll (l : List (Access L V)) (m : L → V) : L → V := l.foldl (fun m a => a.run m) m

@[simp] theorem runAll_nil (m : L → V) : runAll [] m = m := rfl

@[simp] theorem runAll_cons (a : Access L V) (l : List (Access L V)) (m : L → V) :
    runAll (a :: l) m = runAll l (a.run m) := rfl

theorem runAll_append (l l' : List (Access L V)) (m : L → V) : runAll (l ++ l') m = runAll l' (runAll l m) :=
  List.foldl_append

theorem runAll_pull {A : List (Access L V)} {b : Access L V} (h : ∀ a ∈ A, a.Apart b) (B : List (Access L V))
    (m : L → V) : runAll (A ++ b :: B) m = runAll (A ++ B) (b.run m) := by
  induction A generalizing m with
  | nil => rfl
  | cons a A ih =>
    have hcomm := (h a List.mem_cons_self).comm m
    rw [List.cons_append, runAll_cons, ih fun x hx => h x (List.mem_cons_of_mem a hx), ← hcomm]
    rfl

theorem runAll_of_ne {l : List (Access L V)} {c : L} (h : ∀ a ∈ l, a.dst ≠ c) (m : L → V) : runAll l m c = m c := by
  induction l generalizing m with
  | nil => rfl
  | cons a l ih =>
    rw [runAll_cons, ih fun x hx => h x (List.mem_cons_of_mem a hx)]
    exact Function.update_of_ne (h a List.mem_cons_self).symm _ _

/-- Accesses that are apart from each other all see the memory before them. -/
theorem runAll_apart {l : List (Access L V)} (h : l.Pairwise Access.Apart) (m : L → V) :
    ∀ a ∈ l, runAll l m a.dst = a.val m := by
  induction l generalizing m with
  | nil => exact fun _ ha => (List.not_mem_nil ha).elim
  | cons b l ih =>
    rw [List.pairwise_cons] at h
    intro a ha
    rw [runAll_cons]
    rcases List.mem_cons.mp ha with rfl | ha
    · rw [runAll_of_ne fun x hx => ((h.1 x hx).dst).symm]
      exact Function.update_self _ _ _
    · rw [ih h.2 _ a ha, Access.val_run (h.1 a ha).right]

/-! ## Kernels -/

/-- `body t p` are the accesses of thread `t` between its barriers `p - 1` and `p`. -/
structure Kernel (L V : Type) where
  threads : Nat
  team : Nat → Nat
  barriers : Nat
  body : Nat → Nat → List (Access L V)

/-- The memory, how many barriers each team has passed, and what each thread has still to do before its next one. -/
structure Config (L V : Type) where
  mem : L → V
  phase : Nat → Nat
  todo : Nat → List (Access L V)

variable (k : Kernel L V)

def Kernel.launch (m : L → V) : Config L V := ⟨m, fun _ => 0, fun t => k.body t 0⟩

/-- One access of a thread, or the barrier of a team all of whose threads have reached it. -/
inductive Kernel.Step : Config L V → Config L V → Prop where
  | access {c : Config L V} {t : Nat} {a : Access L V} {rest : List (Access L V)} (ht : t < k.threads)
      (htodo : c.todo t = a :: rest) :
      Kernel.Step c ⟨a.run c.mem, c.phase, Function.update c.todo t rest⟩
  | barrier {c : Config L V} {t : Nat} (ht : t < k.threads) (hphase : c.phase (k.team t) < k.barriers)
      (hall : ∀ u < k.threads, k.team u = k.team t → c.todo u = []) :
      Kernel.Step c ⟨c.mem, Function.update c.phase (k.team t) (c.phase (k.team t) + 1), fun u =>
        if k.team u = k.team t then k.body u (c.phase (k.team t) + 1) else c.todo u⟩

/-- Accesses of different threads that no barrier separates are apart. -/
def Kernel.RaceFree : Prop :=
  ∀ t < k.threads, ∀ u < k.threads, t ≠ u → ∀ p ≤ k.barriers, ∀ q ≤ k.barriers, (k.team t = k.team u → p = q) →
    ∀ a ∈ k.body t p, ∀ b ∈ k.body u q, a.Apart b

def Kernel.serial : List (Access L V) :=
  (List.range (k.barriers + 1)).flatMap fun p => (List.range k.threads).flatMap fun t => k.body t p

/-! ## What is left of a run -/

/-- What thread `t` has still to do in phase `p`. -/
def Kernel.left (c : Config L V) (p t : Nat) : List (Access L V) :=
  if p < c.phase (k.team t) then [] else if p = c.phase (k.team t) then c.todo t else k.body t p

def Kernel.pending (c : Config L V) : List (Access L V) :=
  (List.range (k.barriers + 1)).flatMap fun p => (List.range k.threads).flatMap fun t => k.left c p t

def Kernel.barriersLeft (c : Config L V) : Nat :=
  ((List.range k.threads).map fun t => k.barriers - c.phase (k.team t)).sum

/-- What holds of every state of a run. -/
structure Kernel.Inv (c : Config L V) : Prop where
  phase : ∀ t < k.threads, c.phase (k.team t) ≤ k.barriers
  todo : ∀ t < k.threads, c.todo t ⊆ k.body t (c.phase (k.team t))

variable {k}

/-- Taking the head of one list off a concatenation takes it out of the middle. -/
theorem flatMap_range_split {β : Type} {n x : Nat} (hx : x < n) {f g : Nat → List β} {b : β} {A B : List β}
    (hf : f x = A ++ b :: B) (hg : g x = A ++ B) (hne : ∀ y, y ≠ x → f y = g y) :
    ∃ B', (List.range n).flatMap f = ((List.range x).flatMap f ++ A) ++ b :: B' ∧
      (List.range n).flatMap g = ((List.range x).flatMap f ++ A) ++ B' := by
  have hrange : List.range n = List.range x ++ x :: (List.range (n - x - 1)).map fun i => x + 1 + i := by
    have h1 := List.range_add (n := x + 1) (m := n - x - 1)
    rw [show x + 1 + (n - x - 1) = n by omega, List.range_succ, List.append_assoc] at h1
    exact h1
  have hlo : (List.range x).flatMap f = (List.range x).flatMap g :=
    List.flatMap_congr fun y hy => hne y (Nat.ne_of_lt (List.mem_range.mp hy))
  have hhi : ((List.range (n - x - 1)).map fun i => x + 1 + i).flatMap f =
      ((List.range (n - x - 1)).map fun i => x + 1 + i).flatMap g := List.flatMap_congr fun y hy => by
    obtain ⟨i, -, rfl⟩ := List.mem_map.mp hy
    exact hne _ (by omega)
  refine ⟨B ++ ((List.range (n - x - 1)).map fun i => x + 1 + i).flatMap f, ?_, ?_⟩
  · rw [hrange, List.flatMap_append, List.flatMap_cons, hf]
    simp only [List.append_assoc, List.cons_append]
  · rw [hrange, List.flatMap_append, List.flatMap_cons, hg, hlo, hhi]
    simp only [List.append_assoc]

omit [DecidableEq L] in
/-- Where the next access of a thread stands in what is left: everything before it is of other threads, in an earlier
phase or in the same one. -/
theorem Kernel.pending_access {c : Config L V} {t : Nat} {a : Access L V} {rest : List (Access L V)}
    (ht : t < k.threads) (hp : c.phase (k.team t) ≤ k.barriers) (htodo : c.todo t = a :: rest) (m : L → V) :
    ∃ A B, k.pending c = A ++ a :: B ∧ k.pending ⟨m, c.phase, Function.update c.todo t rest⟩ = A ++ B ∧
      ∀ x ∈ A, ∃ p ≤ c.phase (k.team t), ∃ u < k.threads, u ≠ t ∧ x ∈ k.left c p u := by
  obtain ⟨c', hc'⟩ : ∃ c', c' = Config.mk m c.phase (Function.update c.todo t rest) := ⟨_, rfl⟩
  have hother : ∀ p u, u ≠ t → k.left c p u = k.left c' p u := fun p u hu => by
    simp only [hc', Kernel.left, Function.update_of_ne hu]
  have hphase : ∀ p, p ≠ c.phase (k.team t) → k.left c p t = k.left c' p t := fun p hp => by
    simp only [hc', Kernel.left, if_neg hp]
  have hhere : k.left c (c.phase (k.team t)) t = [] ++ a :: rest := by
    rw [Kernel.left, if_neg (Nat.lt_irrefl _), if_pos rfl, htodo]
    rfl
  have hhere' : k.left c' (c.phase (k.team t)) t = [] ++ rest := by
    simp only [hc', Kernel.left, if_neg (Nat.lt_irrefl _), if_pos, Function.update_self, List.nil_append]
  obtain ⟨B1, h1, h1'⟩ := flatMap_range_split ht hhere hhere' (hother _)
  obtain ⟨B2, h2, h2'⟩ := flatMap_range_split (n := k.barriers + 1) (x := c.phase (k.team t)) (by omega)
    (f := fun p => (List.range k.threads).flatMap fun t => k.left c p t)
    (g := fun p => (List.range k.threads).flatMap fun t => k.left c' p t) h1 h1' fun p hp =>
      List.flatMap_congr fun u _ => by
        by_cases hu : u = t
        · rw [hu]
          exact hphase p hp
        · exact hother p u hu
  unfold Kernel.pending
  rw [← hc']
  refine ⟨_, B2, h2, h2', fun x hx => ?_⟩
  rcases List.mem_append.mp hx with hx | hx
  · obtain ⟨p, hp', hxp⟩ := List.mem_flatMap.mp hx
    obtain ⟨u, hu, hxu⟩ := List.mem_flatMap.mp hxp
    have hlt := List.mem_range.mp hp'
    -- thread `t` has nothing left in the phases it has passed
    have hne : u ≠ t := by
      rintro rfl
      rw [Kernel.left, if_pos hlt] at hxu
      cases hxu
    exact ⟨p, Nat.le_of_lt hlt, u, List.mem_range.mp hu, hne, hxu⟩
  · rw [List.append_nil] at hx
    obtain ⟨u, hu, hx⟩ := List.mem_flatMap.mp hx
    have hlt := List.mem_range.mp hu
    exact ⟨_, le_rfl, u, hlt.trans ht, Nat.ne_of_lt hlt, hx⟩

omit [DecidableEq L] in
theorem Kernel.pending_barrier {c : Config L V} {t : Nat}
    (hall : ∀ u < k.threads, k.team u = k.team t → c.todo u = []) :
    k.pending ⟨c.mem, Function.update c.phase (k.team t) (c.phase (k.team t) + 1), fun u =>
      if k.team u = k.team t then k.body u (c.phase (k.team t) + 1) else c.todo u⟩ = k.pending c := by
  apply List.flatMap_congr
  intro p _
  apply List.flatMap_congr
  intro u hu
  by_cases h : k.team u = k.team t
  · have htodo := hall u (List.mem_range.mp hu) h
    simp only [Kernel.left, h, Function.update_self, if_true, htodo]
    rcases Nat.lt_trichotomy p (c.phase (k.team t)) with hlt | rfl | hgt
    · rw [if_pos (Nat.lt_succ_of_lt hlt), if_pos hlt]
    · rw [if_pos (Nat.lt_succ_self _), if_neg (Nat.lt_irrefl _)]
      exact (if_pos rfl).symm
    · rw [if_neg (show ¬p < c.phase (k.team t) + 1 by omega), if_neg (show ¬p < c.phase (k.team t) by omega),
        if_neg (show ¬p = c.phase (k.team t) by omega)]
      split
      · rename_i heq
        rw [heq]
      · rfl
  · simp only [Kernel.left, Function.update_of_ne h, if_neg h]

/-- An access makes what is left shorter, and the serial run from the new state is the one from the old state. -/
theorem Kernel.Inv.access (hrace : k.RaceFree) {c : Config L V} (hI : k.Inv c) {t : Nat} {a : Access L V}
    {rest : List (Access L V)} (ht : t < k.threads) (htodo : c.todo t = a :: rest) :
    let c' : Config L V := ⟨a.run c.mem, c.phase, Function.update c.todo t rest⟩
    k.Inv c' ∧ runAll (k.pending c') c'.mem = runAll (k.pending c) c.mem ∧
      (k.pending c').length + 1 = (k.pending c).length := by
  intro c'
  obtain ⟨A, B, hpend, hpend', hA⟩ := Kernel.pending_access ht (hI.phase t ht) htodo (a.run c.mem)
  have ha : a ∈ k.body t (c.phase (k.team t)) := hI.todo t ht (htodo ▸ List.mem_cons_self)
  have hapart : ∀ x ∈ A, x.Apart a := fun x hx => by
    obtain ⟨p, hp, u, hu, hne, hxu⟩ := hA x hx
    have hphase := hI.phase t ht
    have hphase' := hI.phase u hu
    rw [Kernel.left] at hxu
    split at hxu
    · cases hxu
    · rename_i hlo
      split at hxu
      · exact hrace u hu t ht hne _ hphase' _ hphase (fun h => by rw [h]) x (hI.todo u hu hxu) a ha
      · rename_i hne'
        exact hrace u hu t ht hne p (hp.trans hphase) _ hphase (fun h => by rw [h] at hlo hne'; omega) x hxu a ha
  refine ⟨⟨hI.phase, fun u hu => ?_⟩, ?_, ?_⟩
  · by_cases h : u = t
    · subst h
      show Function.update c.todo u rest u ⊆ _
      rw [Function.update_self]
      exact fun x hx => hI.todo u hu (htodo ▸ List.mem_cons_of_mem a hx)
    · show Function.update c.todo t rest u ⊆ _
      rw [Function.update_of_ne h]
      exact hI.todo u hu
  · rw [hpend, hpend', runAll_pull hapart]
  · rw [hpend, hpend', List.length_append, List.length_append, List.length_cons, Nat.add_assoc]

omit [DecidableEq L] in
theorem Kernel.Inv.barrier {c : Config L V} (hI : k.Inv c) {t : Nat} (hphase : c.phase (k.team t) < k.barriers) :
    k.Inv ⟨c.mem, Function.update c.phase (k.team t) (c.phase (k.team t) + 1), fun u =>
      if k.team u = k.team t then k.body u (c.phase (k.team t) + 1) else c.todo u⟩ := by
  refine ⟨fun u hu => ?_, fun u hu => ?_⟩ <;> dsimp only
  · by_cases h : k.team u = k.team t
    · rw [h, Function.update_self]
      exact hphase
    · rw [Function.update_of_ne h]
      exact hI.phase u hu
  · by_cases h : k.team u = k.team t
    · rw [if_pos h, h, Function.update_self]
      exact List.Subset.refl _
    · rw [if_neg h, Function.update_of_ne h]
      exact hI.todo u hu

omit [DecidableEq L] in
theorem Kernel.barriersLeft_barrier {c : Config L V} {t : Nat} (ht : t < k.threads)
    (hphase : c.phase (k.team t) < k.barriers) (m : L → V) (todo : Nat → List (Access L V)) :
    k.barriersLeft ⟨m, Function.update c.phase (k.team t) (c.phase (k.team t) + 1), todo⟩ < k.barriersLeft c := by
  apply List.sum_lt_sum
  · intro u _
    dsimp only
    by_cases h : k.team u = k.team t
    · rw [h, Function.update_self]
      omega
    · rw [Function.update_of_ne h]
  · refine ⟨t, List.mem_range.mpr ht, ?_⟩
    dsimp only
    rw [Function.update_self]
    omega

/-- A kernel that cannot go on has done everything: no team is stuck at a barrier. -/
theorem Kernel.pending_of_halted {c : Config L V} (hI : k.Inv c) (hstop : ∀ c', ¬k.Step c c') : k.pending c = [] := by
  have htodo : ∀ t < k.threads, c.todo t = [] := fun t ht => by
    cases h : c.todo t with
    | nil => rfl
    | cons a rest => exact absurd (Kernel.Step.access ht h) (hstop _)
  rw [Kernel.pending, List.flatMap_eq_nil_iff]
  intro p hp
  rw [List.flatMap_eq_nil_iff]
  intro t ht
  have ht := List.mem_range.mp ht
  have hphase : c.phase (k.team t) = k.barriers := by
    rcases Nat.eq_or_lt_of_le (hI.phase t ht) with h | h
    · exact h
    · exact absurd (Kernel.Step.barrier ht h fun u hu _ => htodo u hu) (hstop _)
  have hle := List.mem_range.mp hp
  rw [Kernel.left, htodo t ht]
  rcases Nat.lt_or_ge p (c.phase (k.team t)) with h | h
  · rw [if_pos h]
  · rw [if_neg (Nat.not_lt.mpr h), if_pos (by omega)]

omit [DecidableEq L] in
theorem Kernel.Inv.launch (m : L → V) : k.Inv (k.launch m) :=
  ⟨fun _ _ => Nat.zero_le _, fun _ _ => List.Subset.refl _⟩

omit [DecidableEq L] in
theorem Kernel.pending_launch (m : L → V) : k.pending (k.launch m) = k.serial := by
  apply List.flatMap_congr
  intro p _
  apply List.flatMap_congr
  intro t _
  rw [Kernel.left, Kernel.launch]
  dsimp only
  rw [if_neg (Nat.not_lt_zero p)]
  split
  · rename_i h
    rw [h]
  · rfl

/-- **A race-free kernel ends on every run, in the memory of its serial run.** -/
theorem Kernel.ends (hrace : k.RaceFree) {Q : (L → V) → Prop} {m : L → V} (h : Q (runAll k.serial m)) :
    Ends k.Step (fun c => Q c.mem) (k.launch m) := by
  refine Ends.of_inv (fun c => k.Inv c ∧ Q (runAll (k.pending c) c.mem))
    (fun c => (k.pending c).length + k.barriersLeft c) ?_ ?_ ⟨Kernel.Inv.launch m, ?_⟩
  · rintro c c' ⟨hI, hQ⟩ hstep
    cases hstep with
    | access ht htodo =>
      obtain ⟨hI', hrun, hlen⟩ := hI.access hrace ht htodo
      refine ⟨⟨hI', hrun ▸ hQ⟩, ?_⟩
      rw [← hlen]
      exact Nat.add_lt_add_right (Nat.lt_succ_self _) _
    | barrier ht hphase hall =>
      refine ⟨⟨hI.barrier hphase, ?_⟩, ?_⟩
      · rw [Kernel.pending_barrier hall]
        exact hQ
      · rw [Kernel.pending_barrier hall]
        exact Nat.add_lt_add_left (Kernel.barriersLeft_barrier ht hphase _ _) _
  · rintro c ⟨hI, hQ⟩ hstop
    rw [Kernel.pending_of_halted hI hstop] at hQ
    exact hQ
  · rw [Kernel.pending_launch]
    exact h

theorem Kernel.keeps {l : L} (hne : ∀ t p, ∀ a ∈ k.body t p, a.dst ≠ l) {m : L → V} {c : Config L V}
    (hrun : Relation.ReflTransGen k.Step (k.launch m) c) : c.mem l = m l := by
  refine (keeps_run (I := fun c => c.mem l = m l ∧ ∀ t, ∀ a ∈ c.todo t, a.dst ≠ l) ?_
    ⟨rfl, fun t => hne t 0⟩ hrun).1
  rintro c c' ⟨hmem, htodo⟩ hstep
  cases hstep with
  | @access t a rest ht hhead =>
    have hmem' := htodo t
    rw [hhead] at hmem'
    refine ⟨?_, fun u => ?_⟩
    · show Function.update c.mem a.dst _ l = m l
      rw [Function.update_of_ne (hmem' a List.mem_cons_self).symm, hmem]
    · show ∀ x ∈ Function.update c.todo t rest u, _
      by_cases h : u = t
      · rw [h, Function.update_self]
        exact fun x hx => hmem' x (List.mem_cons_of_mem a hx)
      · rw [Function.update_of_ne h]
        exact htodo u
  | @barrier t ht hphase hall =>
    refine ⟨hmem, fun u => ?_⟩
    dsimp only
    split
    · exact hne u _
    · exact htodo u

/-! ## Programs -/

/-- What a host does with the memory: a step of its own, or a kernel that it lets run to its end. -/
inductive Command (L V : Type) where
  | host (f : (L → V) → L → V)
  | launch (k : Kernel L V)

/-- Every run of the commands ends in a memory of `Q`. -/
def Completes : List (Command L V) → ((L → V) → Prop) → (L → V) → Prop
  | [], Q, m => Q m
  | .host f :: cs, Q, m => Completes cs Q (f m)
  | .launch k :: cs, Q, m => Ends k.Step (fun c => Completes cs Q c.mem) (k.launch m)

theorem Completes.mono {Q Q' : (L → V) → Prop} (hQ : ∀ m, Q m → Q' m) {cs : List (Command L V)} {m : L → V}
    (h : Completes cs Q m) : Completes cs Q' m := by
  induction cs generalizing m with
  | nil => exact hQ m h
  | cons x cs ih =>
    cases x with
    | host f => exact ih h
    | launch k => exact Ends.mono (fun c hc => ih hc) h

/-- An access of the cells `I` only. -/
structure Access.Within (I : L → Prop) (a : Access L V) : Prop where
  dst : I a.dst
  reads : ∀ l, a.reads l → I l

/-- Whatever its threads do, a command touches the cells `I` only. -/
def Command.Within (I : L → Prop) : Command L V → Prop
  | .host f => ∀ m l, ¬I l → f m l = m l
  | .launch k => ∀ t < k.threads, ∀ p ≤ k.barriers, ∀ a ∈ k.body t p, a.Within I

def Command.run (m : L → V) : Command L V → L → V
  | .host f => f m
  | .launch k => runAll k.serial m

/-- The kernel of a command, if it has one, has no race. -/
def Command.RaceFree : Command L V → Prop
  | .host _ => True
  | .launch k => k.RaceFree

/-- **Commands without races complete, with the memory of their serial run.** -/
theorem completes_of_raceFree {cs : List (Command L V)} (hrace : ∀ x ∈ cs, x.RaceFree) {Q : (L → V) → Prop}
    {m : L → V} (h : Q (cs.foldl Command.run m)) : Completes cs Q m := by
  induction cs generalizing m with
  | nil => exact h
  | cons x cs ih =>
    have ih := fun m => @ih (fun y hy => hrace y (List.mem_cons_of_mem x hy)) m
    have hx := hrace x List.mem_cons_self
    cases x with
    | host f => exact ih _ h
    | launch k => exact Kernel.ends hx (ih _ h)

/-- A command that never writes the cell `l`. -/
def Command.Keeps (l : L) : Command L V → Prop
  | .host f => ∀ m, f m l = m l
  | .launch k => ∀ t p, ∀ a ∈ k.body t p, a.dst ≠ l

/-- A cell that no command writes keeps its value in some run to the end. -/
theorem Completes.exists_keeps {l : L} {cs : List (Command L V)} (hkeeps : ∀ x ∈ cs, x.Keeps l) {Q : (L → V) → Prop}
    {m : L → V} (h : Completes cs Q m) : ∃ m', Q m' ∧ m' l = m l := by
  induction cs generalizing m with
  | nil => exact ⟨m, h, rfl⟩
  | cons x cs ih =>
    have ih := fun m => @ih (fun y hy => hkeeps y (List.mem_cons_of_mem x hy)) m
    have hx := hkeeps x List.mem_cons_self
    cases x with
    | host f =>
      obtain ⟨m', hQ, hl⟩ := ih _ h
      exact ⟨m', hQ, hl.trans (hx m)⟩
    | launch k =>
      obtain ⟨c, hrun, -, hc⟩ := h.exists_run
      obtain ⟨m', hQ, hl⟩ := ih _ hc
      exact ⟨m', hQ, hl.trans (Kernel.keeps hx hrun)⟩

end Threads
