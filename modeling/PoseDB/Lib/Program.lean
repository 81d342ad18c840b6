import PoseDB.Lib.Loop
import Mathlib.Logic.Function.Basic

/-!
# Sequential programs over a shared memory

A program returns, or it makes one more access of the memory: it reads a cell and goes on with what it read, or it
writes one. `Prog.run` runs it alone. Between two of its accesses other threads may make theirs: `Prog.Step` is one
access, and `Prog.Yields` says of a program that has come so far what it is going to return and to leave in its own
cells, its footprint. An access of its own keeps this (`Prog.Yields.step`), and so does whatever changes no cell of the
footprint (`Prog.Yields.frame`), so that programs with disjoint footprints do not notice each other.
-/

set_option autoImplicit false

namespace Programs
open Loops

/-- A program over cells `L`, where cell `l` holds a `V l`. -/
inductive Prog {L : Type} (V : L → Type) (R : Type) where
  | ret (r : R)
  | read (l : L) (next : V l → Prog V R)
  | write (l : L) (v : V l) (next : Prog V R)

namespace Prog

variable {L : Type} {V : L → Type} {R S : Type}

protected def bind : Prog V R → (R → Prog V S) → Prog V S
  | .ret r, f => f r
  | .read l next, f => .read l fun v => (next v).bind f
  | .write l v next, f => .write l v (next.bind f)

instance : Monad (Prog V) where
  pure := Prog.ret
  bind := Prog.bind

def readCell (l : L) : Prog V (V l) := .read l .ret

def writeCell (l : L) (v : V l) : Prog V Unit := .write l v (.ret ())

/-! ## The program alone -/

section Run
variable [DecidableEq L]

/-- What the program returns and the memory it leaves when no one else uses the memory. -/
def run : Prog V R → ((l : L) → V l) → R × ((l : L) → V l)
  | .ret r, m => (r, m)
  | .read l next, m => (next (m l)).run m
  | .write l v next, m => next.run (Function.update m l v)

def length : Prog V R → ((l : L) → V l) → Nat
  | .ret _, _ => 0
  | .read l next, m => (next (m l)).length m + 1
  | .write l v next, m => next.length (Function.update m l v) + 1

@[simp] theorem run_pure (r : R) (m : (l : L) → V l) : (pure r : Prog V R).run m = (r, m) := rfl

@[simp] theorem run_readCell (l : L) (m : (l : L) → V l) : (readCell l : Prog V (V l)).run m = (m l, m) := rfl

@[simp] theorem run_writeCell (l : L) (v : V l) (m : (l : L) → V l) : (writeCell l v).run m = ((), Function.update m l v) := rfl

@[simp] theorem run_bind (p : Prog V R) (f : R → Prog V S) (m : (l : L) → V l) :
    (p >>= f).run m = (f (p.run m).1).run (p.run m).2 := by
  show (p.bind f).run m = _
  induction p generalizing m with
  | ret r => rfl
  | read l next ih => exact ih (m l) m
  | write l v next ih => exact ih (Function.update m l v)

end Run

/-! ## Loops -/

/-- `for (i = 0; i < n; i++)` with the local state `S`. -/
def loopM : Nat → (Nat → S → Prog V S) → S → Prog V S
  | 0, _, s => pure s
  | n + 1, body, s => loopM n body s >>= body n

def batchLoopM (w cap : Nat) (body : Nat → Nat → S → Prog V S) (i : Nat) (s : S) : Prog V S :=
  if _h : i < w ∧ 0 < cap then
    body i (min (w - i) cap) s >>= batchLoopM w cap body (i + min (w - i) cap)
  else pure s
termination_by w - i
decreasing_by omega

/-! ## Footprints -/

/-- The program accesses only cells of `F`, whatever it reads. -/
inductive Within (F : L → Prop) : Prog V R → Prop where
  | ret (r : R) : Within F (.ret r)
  | read (l : L) (next : V l → Prog V R) (hl : F l) (h : ∀ v, Within F (next v)) : Within F (.read l next)
  | write (l : L) (v : V l) (next : Prog V R) (hl : F l) (h : Within F next) : Within F (.write l v next)

variable {F F' : L → Prop} {p : Prog V R}

theorem Within.mono (h : p.Within F) (hF : ∀ l, F l → F' l) : p.Within F' := by
  induction h with
  | ret r => exact .ret r
  | read l next hl _ ih => exact .read l next (hF l hl) ih
  | write l v next hl _ ih => exact .write l v next (hF l hl) ih

theorem within_pure (r : R) : Within F (pure r : Prog V R) := .ret r

theorem within_readCell {l : L} (hl : F l) : Within F (readCell l : Prog V (V l)) := .read _ _ hl fun _ => .ret _

theorem within_writeCell {l : L} (v : V l) (hl : F l) : Within F (writeCell l v) := .write _ _ _ hl (.ret _)

theorem Within.bind {f : R → Prog V S} (h : p.Within F) (hf : ∀ r, (f r).Within F) : (p >>= f).Within F := by
  show (p.bind f).Within F
  induction h with
  | ret r => exact hf r
  | read l next hl _ ih => exact .read l _ hl ih
  | write l v next hl _ ih => exact .write l v _ hl ih

theorem within_loopM {n : Nat} {body : Nat → S → Prog V S} (h : ∀ i < n, ∀ s, (body i s).Within F) (s : S) :
    (loopM n body s).Within F := by
  induction n with
  | zero => exact within_pure s
  | succ n ih => exact Within.bind (ih fun i hi => h i (Nat.lt_succ_of_lt hi)) (h n (Nat.lt_succ_self n))

theorem within_batchLoopM {w cap : Nat} {body : Nat → Nat → S → Prog V S}
    (h : ∀ i b s, (body i b s).Within F) (i : Nat) (s : S) : (batchLoopM w cap body i s).Within F := by
  induction hn : w - i using Nat.strongRecOn generalizing i s with
  | _ n ih =>
    rw [batchLoopM]
    split
    · exact Within.bind (h _ _ _) fun t => ih _ (by omega) _ _ rfl
    · exact within_pure s

section Footprint
variable [DecidableEq L] {m m' : (l : L) → V l}

theorem update_agree {l : L} (v : V l) (hm : ∀ l, F l → m l = m' l) :
    ∀ l', F l' → Function.update m l v l' = Function.update m' l v l' := by
  intro l' hl'
  by_cases h : l' = l
  · subst h
    rw [Function.update_self, Function.update_self]
  · rw [Function.update_of_ne h, Function.update_of_ne h, hm l' hl']

theorem Within.run_congr (h : p.Within F) (hm : ∀ l, F l → m l = m' l) :
    (p.run m).1 = (p.run m').1 ∧ (∀ l, F l → (p.run m).2 l = (p.run m').2 l) ∧ p.length m = p.length m' := by
  induction h generalizing m m' with
  | ret r => exact ⟨rfl, hm, rfl⟩
  | read l next hl _ ih =>
    obtain ⟨hr, hc, hlen⟩ := ih (m l) hm
    rw [hm l hl] at hr hc hlen
    exact ⟨by rw [run, hm l hl, hr, run], by rw [run, run, hm l hl]; exact hc, by rw [length, hm l hl, hlen, length]⟩
  | write l v next hl _ ih =>
    obtain ⟨hr, hc, hlen⟩ := ih (update_agree v hm)
    exact ⟨hr, hc, congrArg (· + 1) hlen⟩

theorem Within.frame (h : p.Within F) (m : (l : L) → V l) {l : L} (hl : ¬F l) : (p.run m).2 l = m l := by
  induction h generalizing m with
  | ret r => rfl
  | read l' next _ _ ih => exact ih (m l') m
  | write l' v next hl' _ ih =>
    have hne : l ≠ l' := fun heq => hl (heq ▸ hl')
    rw [run, ih]
    exact Function.update_of_ne hne _ _

/-! ## One access -/

/-- The next access of a program. -/
inductive Step : Prog V R → ((l : L) → V l) → Prog V R → ((l : L) → V l) → Prop where
  | read (l : L) (next : V l → Prog V R) (m : (l : L) → V l) : Step (.read l next) m (next (m l)) m
  | write (l : L) (v : V l) (next : Prog V R) (m : (l : L) → V l) :
    Step (.write l v next) m next (Function.update m l v)

variable {p' : Prog V R}

theorem Step.within (h : Step p m p' m') (hp : p.Within F) : p'.Within F ∧ ∀ l, ¬F l → m' l = m l := by
  cases h with
  | read l next =>
    cases hp with
    | read _ _ _ hn => exact ⟨hn _, fun _ _ => rfl⟩
  | write l v next =>
    cases hp with
    | write _ _ _ hl hn =>
      refine ⟨hn, fun l' hl' => ?_⟩
      have hne : l' ≠ l := fun heq => hl' (heq ▸ hl)
      exact Function.update_of_ne hne _ _

theorem Step.run (h : Step p m p' m') : p'.run m' = p.run m := by cases h <;> rfl

theorem Step.length (h : Step p m p' m') : p.length m = p'.length m' + 1 := by cases h <;> rfl

theorem ret_or_step (p : Prog V R) (m : (l : L) → V l) : (∃ r, p = .ret r) ∨ ∃ p' m', Step p m p' m' := by
  cases p with
  | ret r => exact .inl ⟨r, rfl⟩
  | read l next => exact .inr ⟨_, _, .read l next m⟩
  | write l v next => exact .inr ⟨_, _, .write l v next m⟩

/-! ## Among other threads -/

/-- The program uses `F` only, and from memory `m` on it returns `r` and leaves the cells of `F` as in `out`. -/
structure Yields (F : L → Prop) (r : R) (out : (l : L) → V l) (p : Prog V R) (m : (l : L) → V l) : Prop where
  within : p.Within F
  result : (p.run m).1 = r
  cells : ∀ l, F l → (p.run m).2 l = out l

variable {r : R} {out : (l : L) → V l}

theorem Within.yields (h : p.Within F) (m : (l : L) → V l) : Yields F (p.run m).1 (p.run m).2 p m :=
  ⟨h, rfl, fun _ _ => rfl⟩

theorem Yields.step (h : Yields F r out p m) (hs : Step p m p' m') : Yields F r out p' m' := by
  refine ⟨(hs.within h.within).1, ?_, ?_⟩
  · rw [hs.run]
    exact h.result
  · rw [hs.run]
    exact h.cells

theorem Yields.frame (h : Yields F r out p m) (hm : ∀ l, F l → m' l = m l) : Yields F r out p m' := by
  obtain ⟨hr, hc, -⟩ := h.within.run_congr hm
  exact ⟨h.within, hr.trans h.result, fun l hl => (hc l hl).trans (h.cells l hl)⟩

theorem Yields.returned {r' : R} (h : Yields F r out (.ret r') m) : r' = r ∧ ∀ l, F l → m l = out l :=
  ⟨h.result, h.cells⟩

end Footprint

end Prog

end Programs
