import PoseDB.Lib.Program
import PoseDB.Graph.Carry

/-!
# The labelers access by access

The emitters and their loop counters are on the stack of the labeling thread; what threads share are the blocks of the
region and the scratch buffers. `AccessScheme` is the recursion of an emitter as a program over these cells
(`AccessScheme.standalone`), with the single accesses of its layers in the order of the source. It computes what the
emitter computes (`Computes.standalone`), so that `do_label_inplace` as a program (`doLabelInplaceProg`) gives the result
of `doLabelInplace` (`doLabelInplaceProg_run`), and it stays in the output blocks and in its own scratch buffer
(`doLabelInplaceProg_within`).
-/

set_option autoImplicit false

namespace PoseDB.Graph
open Loops Mem Programs
open Programs.Prog (loopM batchLoopM readCell writeCell run_bind run_pure within_loopM within_batchLoopM within_pure
  within_readCell within_writeCell)

/-- A cell that threads can share: a block of the region, or a label or a node id in scratch buffer `k`. -/
inductive Loc where
  | block (a : Nat)
  | label (k a : Nat)
  | id (k a : Nat)
deriving DecidableEq

@[reducible] def Loc.Val (α : Type) : Loc → Type
  | .block _ | .label _ _ => α
  | .id _ _ => Nat

/-- The cells of scratch buffer `k`. -/
def Loc.InScratch (k : Nat) : Loc → Prop
  | .block _ => False
  | .label j _ | .id j _ => j = k

/-- The fields of an emitter that change. -/
structure Locals where
  nextId : Nat
  arena : Nat
  arenaOff : Nat

def Locals.top (e : Locals) : Nat := e.arena + e.arenaOff

def Locals.alloc (e : Locals) (n : Nat) : Locals := { e with arenaOff := e.arenaOff + n }

def Locals.release (e : Locals) (off : Nat) : Locals := { e with arenaOff := off }

/-- The operations in which the emitters differ, as programs. -/
structure AccessScheme (V : Loc → Type) where
  source : (dst : Nat) → Locals → Prog V Locals
  one : (src dst : Nat) → Locals → Prog V Locals
  merge0 : (primary ingress dst : Nat) → Locals → Prog V Locals
  first : (dim src dst : Nat) → Locals → Prog V Locals
  flip : (dim l src dst : Nat) → Locals → Prog V Locals
  merge : (dim primary ingress dst : Nat) → Locals → Prog V Locals
  copy : (dst src n : Nat) → Prog V Unit

namespace AccessScheme
variable {V : Loc → Type} (A : AccessScheme V)

def flips (dim n prev curr : Nat) (e : Locals) : Prog V (Locals × Nat × Nat) :=
  loopM n (fun l t => do
    let e ← A.flip dim (l + 1) t.2.1 t.2.2 t.1
    pure (e, t.2.2, t.2.1)) (e, prev, curr)

def butterfly (dim inputs prev curr : Nat) (e : Locals) : Prog V (Locals × Nat × Nat) := do
  let e ← A.first dim inputs prev e
  A.flips dim dim prev curr e

def connector (e : Locals) (dim inputs outputs : Nat) : Prog V Locals := do
  let r ← A.butterfly dim inputs e.top (e.top + 2 ^ dim) (e.alloc (2 ^ dim + 2 ^ dim))
  A.copy outputs r.2.1 (2 ^ dim)
  pure (r.1.release e.arenaOff)

def center (dim primary ingress outputs prev curr : Nat) (e : Locals) : Prog V Locals := do
  let e ← A.merge dim primary ingress prev e
  let r ← A.flips dim (dim - 1) prev curr e
  A.flip dim dim r.2.1 outputs r.1

def merged (e : Locals) (dim primary ingress outputs : Nat) : Prog V Locals :=
  if dim = 0 then A.merge0 primary ingress outputs e
  else do
    let w := 2 ^ dim
    let r ← A.butterfly dim ingress e.top (e.top + w) (e.alloc (w + w + w + w))
    let t ← A.center dim primary r.2.1 outputs (e.top + (w + w)) (e.top + (w + w + w)) r.1
    pure (t.release e.arenaOff)

/-- Copy both halves of the base array out and release the arena. -/
def finish (e t : Locals) (w out : Nat) : Prog V Locals := do
  A.copy out e.top w
  A.copy (out + w) (e.top + (w + w)) w
  pure (t.release e.arenaOff)

def connected (e : Locals) : (level inputs out : Nat) → Prog V Locals
  | 0, inputs, out => A.one inputs out e
  | k + 1, inputs, out => do
    let w := 2 ^ k
    let t ← connected (e.alloc (w + w + w)) k inputs e.top
    let t ← A.merged t k e.top (inputs + w) (e.top + w)
    let t ← connected t k (e.top + w) (e.top + (w + w))
    A.finish e t w out

def standalone (e : Locals) : (level out : Nat) → Prog V Locals
  | 0, out => A.source out e
  | k + 1, out => do
    let w := 2 ^ k
    let t ← standalone (e.alloc (w + w + w)) k e.top
    let t ← A.connector t k e.top (e.top + w)
    let t ← A.connected t k (e.top + w) (e.top + (w + w))
    A.finish e t w out

/-! ## Footprints -/

/-- The operations access cells of `F` only. -/
structure Within (F : Loc → Prop) : Prop where
  source : ∀ dst e, (A.source dst e).Within F
  one : ∀ src dst e, (A.one src dst e).Within F
  merge0 : ∀ primary ingress dst e, (A.merge0 primary ingress dst e).Within F
  first : ∀ dim src dst e, (A.first dim src dst e).Within F
  flip : ∀ dim l src dst e, (A.flip dim l src dst e).Within F
  merge : ∀ dim primary ingress dst e, (A.merge dim primary ingress dst e).Within F
  copy : ∀ dst src n, (A.copy dst src n).Within F

variable {A} {F : Loc → Prop}

theorem Within.flips (h : A.Within F) (dim n prev curr : Nat) (e : Locals) : (A.flips dim n prev curr e).Within F :=
  within_loopM (fun _ _ _ => (h.flip _ _ _ _ _).bind fun _ => within_pure _) _

theorem Within.butterfly (h : A.Within F) (dim inputs prev curr : Nat) (e : Locals) :
    (A.butterfly dim inputs prev curr e).Within F :=
  (h.first _ _ _ _).bind fun _ => h.flips _ _ _ _ _

theorem Within.connector (h : A.Within F) (e : Locals) (dim inputs outputs : Nat) :
    (A.connector e dim inputs outputs).Within F :=
  (h.butterfly _ _ _ _ _).bind fun _ => (h.copy _ _ _).bind fun _ => within_pure _

theorem Within.merged (h : A.Within F) (e : Locals) (dim primary ingress outputs : Nat) :
    (A.merged e dim primary ingress outputs).Within F := by
  unfold AccessScheme.merged
  split
  · exact h.merge0 _ _ _ _
  · refine (h.butterfly _ _ _ _ _).bind fun _ => Prog.Within.bind ?_ fun _ => within_pure _
    exact (h.merge _ _ _ _ _).bind fun _ => (h.flips _ _ _ _ _).bind fun _ => h.flip _ _ _ _ _

theorem Within.finish (h : A.Within F) (e t : Locals) (w out : Nat) : (A.finish e t w out).Within F :=
  (h.copy _ _ _).bind fun _ => (h.copy _ _ _).bind fun _ => within_pure _

theorem Within.connected (h : A.Within F) (e : Locals) (level inputs out : Nat) :
    (A.connected e level inputs out).Within F := by
  induction level generalizing e inputs out with
  | zero => exact h.one _ _ _
  | succ k ih =>
    exact (ih _ _ _).bind fun _ => (h.merged _ _ _ _ _).bind fun _ => (ih _ _ _).bind fun _ => h.finish _ _ _ _

theorem Within.standalone (h : A.Within F) (e : Locals) (level out : Nat) : (A.standalone e level out).Within F := by
  induction level generalizing e out with
  | zero => exact h.source _ _
  | succ k ih =>
    exact (ih _ _).bind fun _ => (h.connector _ _ _ _).bind fun _ => (h.connected _ _ _ _).bind fun _ => h.finish _ _ _ _

end AccessScheme

/-! ## What the programs compute -/

section Computes
variable {V : Loc → Type} {σ β : Type}

/-- From the cells of `s` the program leads to those of `s'`. -/
structure Runs (Ok : σ → Prop) (locals : σ → Locals) (cells : σ → (c : Loc) → V c) (p : Prog V Locals) (s s' : σ) :
    Prop where
  run : p.run (cells s) = (locals s', cells s')
  ok : Ok s'

/-- The programs of `A` do what the operations of `S` do: `locals s` and `cells s` are what a state `s` has on the stack
and in the memory. -/
structure Computes (A : AccessScheme V) (S : Scheme σ β) (Ok : σ → Prop) (locals : σ → Locals)
    (cells : σ → (c : Loc) → V c) : Prop where
  top : ∀ s, S.top s = (locals s).top
  off : ∀ s, (S.get s).off = (locals s).arenaOff
  alloc : ∀ n s, locals (S.alloc n s) = (locals s).alloc n ∧ cells (S.alloc n s) = cells s ∧ (Ok s → Ok (S.alloc n s))
  release : ∀ m off s, locals (S.release m off s) = (locals s).release off ∧ (Ok s → Ok (S.release m off s))
  kept : ∀ off s, cells (S.release (S.get s).mem off s) = cells s
  copy : ∀ dst src n m off s, (A.copy dst src n).run (cells (S.release m off s)) =
    ((), cells (S.release (memcpy m dst src n) off s))
  source : ∀ dst s, Ok s → Runs Ok locals cells (A.source dst (locals s)) s (S.source dst s)
  one : ∀ src dst s, Ok s → Runs Ok locals cells (A.one src dst (locals s)) s (S.one src dst s)
  merge0 : ∀ primary ingress dst s, Ok s →
    Runs Ok locals cells (A.merge0 primary ingress dst (locals s)) s (S.merge0 primary ingress dst s)
  first : ∀ dim src dst s, Ok s → Runs Ok locals cells (A.first dim src dst (locals s)) s (S.first dim src dst s)
  flip : ∀ dim l src dst s, Ok s →
    Runs Ok locals cells (A.flip dim l src dst (locals s)) s (S.flip dim l src dst s)
  merge : ∀ dim primary ingress dst s, Ok s →
    Runs Ok locals cells (A.merge dim primary ingress dst (locals s)) s (S.merge dim primary ingress dst s)

variable {A : AccessScheme V} {S : Scheme σ β} {Ok : σ → Prop} {locals : σ → Locals} {cells : σ → (c : Loc) → V c}

theorem Runs.refl {s : σ} (hs : Ok s) : Runs Ok locals cells (pure (locals s)) s s := ⟨rfl, hs⟩

theorem Runs.bind {p : Prog V Locals} {f : Locals → Prog V Locals} {s s' s'' : σ} (h : Runs Ok locals cells p s s')
    (hf : Runs Ok locals cells (f (locals s')) s' s'') : Runs Ok locals cells (p >>= f) s s'' := by
  refine ⟨?_, hf.ok⟩
  rw [run_bind, h.run]
  exact hf.run

theorem Runs.batchLoop {w cap : Nat} {body : Nat → Nat → Locals → Prog V Locals} {body' : Nat → Nat → σ → σ}
    (h : ∀ i b s, Ok s → Runs Ok locals cells (body i b (locals s)) s (body' i b s)) (i : Nat) {s : σ} (hs : Ok s) :
    Runs Ok locals cells (batchLoopM w cap body i (locals s)) s (Loops.batchLoop w cap body' i s) := by
  induction hn : w - i using Nat.strongRecOn generalizing i s with
  | _ n ih =>
    rw [batchLoopM, Loops.batchLoop]
    split
    · have hbody := h i (min (w - i) cap) s hs
      exact hbody.bind (ih _ (by omega) _ hbody.ok rfl)
    · exact .refl hs

namespace Computes

theorem copy_same (h : Computes A S Ok locals cells) (dst src n off : Nat) (s : σ) :
    (A.copy dst src n).run (cells s) = ((), cells (S.release (memcpy (S.get s).mem dst src n) off s)) := by
  rw [← h.kept off s]
  exact h.copy dst src n _ off s

theorem flips (h : Computes A S Ok locals cells) (dim n prev curr : Nat) {s : σ} (hs : Ok s) :
    let r := S.flips dim n prev curr s
    (A.flips dim n prev curr (locals s)).run (cells s) = ((locals r.1, r.2), cells r.1) ∧ Ok r.1 := by
  induction n with
  | zero => exact ⟨rfl, hs⟩
  | succ n ih =>
    obtain ⟨hrun, hok⟩ := ih
    have hflip := h.flip dim (n + 1) (S.flips dim n prev curr s).2.1 (S.flips dim n prev curr s).2.2 _ hok
    refine ⟨?_, hflip.ok⟩
    show (_ >>= _ : Prog V _).run _ = _
    rw [run_bind, show (loopM n _ _).run _ = _ from hrun]
    dsimp only
    rw [run_bind, hflip.run]
    rfl

theorem butterfly (h : Computes A S Ok locals cells) (dim inputs prev curr : Nat) {s : σ} (hs : Ok s) :
    let r := S.butterfly dim inputs prev curr s
    (A.butterfly dim inputs prev curr (locals s)).run (cells s) = ((locals r.1, r.2), cells r.1) ∧ Ok r.1 := by
  have hfirst := h.first dim inputs prev s hs
  obtain ⟨hrun, hok⟩ := h.flips dim dim prev curr hfirst.ok
  refine ⟨?_, hok⟩
  rw [AccessScheme.butterfly, run_bind, hfirst.run]
  exact hrun

theorem connector (h : Computes A S Ok locals cells) (dim inputs outputs : Nat) {s : σ} (hs : Ok s) :
    Runs Ok locals cells (A.connector (locals s) dim inputs outputs) s (S.connector s dim inputs outputs) := by
  obtain ⟨hlocals, hcells, hok⟩ := h.alloc (2 ^ dim + 2 ^ dim) s
  obtain ⟨hrun, hok'⟩ := h.butterfly dim inputs (S.top s) (S.top s + 2 ^ dim) (hok hs)
  rw [hlocals, hcells] at hrun
  unfold AccessScheme.connector Scheme.connector
  dsimp only
  refine ⟨?_, (h.release _ _ _).2 hok'⟩
  rw [run_bind, ← h.top, hrun]
  dsimp only
  rw [run_bind, h.copy_same _ _ _ (S.get s).off, run_pure, (h.release _ _ _).1, h.off]

theorem center (h : Computes A S Ok locals cells) (dim primary ingress outputs prev curr : Nat) {s : σ} (hs : Ok s) :
    Runs Ok locals cells (A.center dim primary ingress outputs prev curr (locals s)) s
      (S.center dim primary ingress outputs prev curr s) := by
  refine (h.merge dim primary ingress prev s hs).bind ?_
  obtain ⟨hrun, hok⟩ := h.flips dim (dim - 1) prev curr (h.merge dim primary ingress prev s hs).ok
  have hflip := h.flip dim dim (S.flips dim (dim - 1) prev curr (S.merge dim primary ingress prev s)).2.1 outputs _ hok
  refine ⟨?_, hflip.ok⟩
  rw [run_bind, hrun]
  exact hflip.run

theorem merged (h : Computes A S Ok locals cells) (dim primary ingress outputs : Nat) {s : σ} (hs : Ok s) :
    Runs Ok locals cells (A.merged (locals s) dim primary ingress outputs) s (S.merged s dim primary ingress outputs) := by
  unfold AccessScheme.merged Scheme.merged
  split
  · exact h.merge0 primary ingress outputs s hs
  · dsimp only
    obtain ⟨hlocals, hcells, hok⟩ := h.alloc (2 ^ dim + 2 ^ dim + 2 ^ dim + 2 ^ dim) s
    obtain ⟨hrun, hok'⟩ := h.butterfly dim ingress (S.top s) (S.top s + 2 ^ dim) (hok hs)
    rw [hlocals, hcells] at hrun
    have hcenter := h.center dim primary
      (S.butterfly dim ingress (S.top s) (S.top s + 2 ^ dim) (S.alloc (2 ^ dim + 2 ^ dim + 2 ^ dim + 2 ^ dim) s)).2.1
      outputs (S.top s + (2 ^ dim + 2 ^ dim)) (S.top s + (2 ^ dim + 2 ^ dim + 2 ^ dim)) hok'
    refine ⟨?_, (h.release _ _ _).2 hcenter.ok⟩
    rw [run_bind, ← h.top, hrun]
    dsimp only
    rw [run_bind, hcenter.run, run_pure, h.kept, (h.release _ _ _).1, h.off]

theorem finish (h : Computes A S Ok locals cells) {s t : σ} (ht : Ok t) (w out : Nat) :
    Runs Ok locals cells (A.finish (locals s) (locals t) w out) t (S.finish s t w out) := by
  unfold AccessScheme.finish Scheme.finish
  refine ⟨?_, (h.release _ _ _).2 ht⟩
  rw [run_bind, h.copy_same _ _ _ (S.get s).off, run_bind]
  dsimp only
  rw [h.copy, run_pure, (h.release _ _ _).1, h.off, h.top]

theorem connected (h : Computes A S Ok locals cells) (level inputs out : Nat) {s : σ} (hs : Ok s) :
    Runs Ok locals cells (A.connected (locals s) level inputs out) s (S.connected s level inputs out) := by
  induction level generalizing inputs out s with
  | zero => exact h.one inputs out s hs
  | succ k ih =>
    obtain ⟨hlocals, hcells, hok⟩ := h.alloc (2 ^ k + 2 ^ k + 2 ^ k) s
    have h1 := ih inputs (S.top s) (hok hs)
    have h2 := h.merged k (S.top s) (inputs + 2 ^ k) (S.top s + 2 ^ k) h1.ok
    have h3 := ih (S.top s + 2 ^ k) (S.top s + (2 ^ k + 2 ^ k)) h2.ok
    have h4 := h.finish (s := s) h3.ok (2 ^ k) out
    refine ⟨?_, h4.ok⟩
    rw [AccessScheme.connected, ← h.top, ← hlocals, ← hcells]
    rw [run_bind, h1.run]
    dsimp only
    rw [run_bind, h2.run]
    dsimp only
    rw [run_bind, h3.run]
    exact h4.run

/-- **The program of `emit_standalone` does what it does.** -/
theorem standalone (h : Computes A S Ok locals cells) (level out : Nat) {s : σ} (hs : Ok s) :
    Runs Ok locals cells (A.standalone (locals s) level out) s (S.standalone s level out) := by
  induction level generalizing out s with
  | zero => exact h.source out s hs
  | succ k ih =>
    obtain ⟨hlocals, hcells, hok⟩ := h.alloc (2 ^ k + 2 ^ k + 2 ^ k) s
    have h1 := ih (S.top s) (hok hs)
    have h2 := h.connector k (S.top s) (S.top s + 2 ^ k) h1.ok
    have h3 := h.connected k (S.top s + 2 ^ k) (S.top s + (2 ^ k + 2 ^ k)) h2.ok
    have h4 := h.finish (s := s) h3.ok (2 ^ k) out
    refine ⟨?_, h4.ok⟩
    rw [AccessScheme.standalone, ← h.top, ← hlocals, ← hcells]
    rw [run_bind, h1.run]
    dsimp only
    rw [run_bind, h2.run]
    dsimp only
    rw [run_bind, h3.run]
    exact h4.run

end Computes

end Computes

/-! ## The label-carrying emitter -/

section Cells
variable {α : Type}

def readLabel (k a : Nat) : Prog (Loc.Val α) α := readCell (V := Loc.Val α) (.label k a)

def writeLabel (k a : Nat) (v : α) : Prog (Loc.Val α) Unit := writeCell (V := Loc.Val α) (.label k a) v

/-- Read the labels at `a 0, ..., a (n - 1)` into an array. -/
def readLabels (undef : α) (k n : Nat) (a : Nat → Nat) : Prog (Loc.Val α) (Nat → α) :=
  loopM n (fun j f => do
    let v ← readLabel k (a j)
    pure (Function.update f j v)) fun _ => undef

def readOptLabels (undef : α) (k n : Nat) : Option (Nat → Nat) → Prog (Loc.Val α) (Option (Nat → α))
  | none => pure none
  | some a => do
    let f ← readLabels undef k n a
    pure (some f)

def writeLabels (k dst n : Nat) (v : Nat → α) : Prog (Loc.Val α) Unit :=
  loopM n (fun j _ => writeLabel k (dst + j) (v j)) ()

/-- `memcpy` of labels. -/
def copyLabels (undef : α) (k dst src n : Nat) : Prog (Loc.Val α) Unit := do
  let v ← readLabels undef k n fun j => src + j
  writeLabels k dst n v

/-- The shared memory: the blocks of the region and the scratch buffers. -/
def shared (mem : Nat → α) (scratch : Nat → Scratch α) : (c : Loc) → Loc.Val α c
  | .block a => mem a
  | .label k a => (scratch k).labels a
  | .id k a => (scratch k).ids a

variable {mem : Nat → α} {scratch : Nat → Scratch α} {k : Nat}

theorem run_readLabel (a : Nat) (s : Scratch α) :
    (readLabel k a).run (shared mem (Function.update scratch k s)) =
      (s.labels a, shared mem (Function.update scratch k s)) := by
  show (((Function.update scratch k s) k).labels a, _) = _
  rw [Function.update_self]

theorem update_label (a : Nat) (v : α) (s : Scratch α) :
    Function.update (shared mem (Function.update scratch k s)) (.label k a) v =
      shared mem (Function.update scratch k { s with labels := Function.update s.labels a v }) := by
  funext c
  cases c with
  | block b => exact Function.update_of_ne (fun h => by cases h) _ _
  | id j b =>
    rw [Function.update_of_ne (fun h => by cases h)]
    by_cases hj : j = k
    · subst hj
      simp only [shared, Function.update_self]
    · simp only [shared, Function.update_of_ne hj]
  | label j b =>
    by_cases hj : j = k
    · subst hj
      by_cases hb : b = a
      · subst hb
        simp only [shared, Function.update_self]
      · have hne : Loc.label j b ≠ Loc.label j a := fun h => hb (Loc.label.inj h).2
        rw [Function.update_of_ne hne]
        simp only [shared, Function.update_self, Function.update_of_ne hb]
    · have hne : Loc.label j b ≠ Loc.label k a := fun h => hj (Loc.label.inj h).1
      rw [Function.update_of_ne hne]
      simp only [shared, Function.update_of_ne hj]

theorem run_writeLabel (a : Nat) (v : α) (s : Scratch α) :
    (writeLabel k a v).run (shared mem (Function.update scratch k s)) =
      ((), shared mem (Function.update scratch k { s with labels := Function.update s.labels a v })) :=
  congrArg (Prod.mk ()) (update_label a v s)

variable (mem scratch k) in
theorem run_readLabels (undef : α) (n : Nat) (a : Nat → Nat) (s : Scratch α) :
    ∃ g, (readLabels undef k n a).run (shared mem (Function.update scratch k s)) =
      (g, shared mem (Function.update scratch k s)) ∧ ∀ j < n, g j = s.labels (a j) := by
  unfold readLabels
  induction n with
  | zero => exact ⟨_, rfl, fun _ hj => absurd hj (Nat.not_lt_zero _)⟩
  | succ n ih =>
    obtain ⟨g, hrun, hg⟩ := ih
    refine ⟨Function.update g n (s.labels (a n)), ?_, Mem.fill_step (v := fun j => s.labels (a j)) hg⟩
    rw [loopM, run_bind, hrun, run_bind, run_readLabel, run_pure]

variable (mem scratch k) in
theorem run_readOptLabels (undef : α) (n : Nat) (a : Option (Nat → Nat)) (s : Scratch α) :
    ∃ g, (readOptLabels undef k n a).run (shared mem (Function.update scratch k s)) =
      (g, shared mem (Function.update scratch k s)) ∧ ∀ j < n, g.map (· j) = a.map fun a => s.labels (a j) := by
  cases a with
  | none => exact ⟨none, rfl, fun _ _ => rfl⟩
  | some a =>
    obtain ⟨g, hrun, hg⟩ := run_readLabels mem scratch k undef n a s
    refine ⟨some g, ?_, fun j hj => congrArg some (hg j hj)⟩
    rw [readOptLabels, run_bind, hrun]
    rfl

theorem run_writeLabels (dst n : Nat) (v : Nat → α) (s : Scratch α) :
    (writeLabels k dst n v).run (shared mem (Function.update scratch k s)) =
      ((), shared mem (Function.update scratch k { s with labels := store s.labels dst n v })) := by
  unfold writeLabels
  induction n with
  | zero =>
    rw [store_zero]
    rfl
  | succ n ih => rw [loopM, run_bind, ih, run_writeLabel, update_store]

theorem run_copyLabels (undef : α) (dst src n : Nat) (s : Scratch α) :
    (copyLabels undef k dst src n).run (shared mem (Function.update scratch k s)) =
      ((), shared mem (Function.update scratch k { s with labels := memcpy s.labels dst src n })) := by
  obtain ⟨g, hrun, hg⟩ := run_readLabels mem scratch k undef n (fun j => src + j) s
  rw [copyLabels, run_bind, hrun, run_writeLabels, memcpy, store_congr s.labels dst n hg]

variable {F : Loc → Prop}

theorem within_readLabels (undef : α) (n : Nat) (a : Nat → Nat) (h : ∀ a, F (.label k a)) :
    (readLabels undef k n a).Within F :=
  within_loopM (fun _ _ _ => (within_readCell (h _)).bind fun _ => within_pure _) _

theorem within_readOptLabels (undef : α) (n : Nat) (a : Option (Nat → Nat)) (h : ∀ a, F (.label k a)) :
    (readOptLabels undef k n a).Within F := by
  cases a with
  | none => exact within_pure _
  | some a => exact (within_readLabels undef n a h).bind fun _ => within_pure _

theorem within_writeLabels (dst n : Nat) (v : Nat → α) (h : ∀ a, F (.label k a)) : (writeLabels k dst n v).Within F :=
  within_loopM (fun _ _ _ => within_writeCell _ (h _)) _

end Cells

section LabelCarrying
variable {α : Type} (H : PoseHash α) (seed desc : α) (algo : PoseHashAlgo) (k : Nat)

/-- One batch of a layer of the `lc_*` functions: all predecessors are read, then the labels are written. -/
def lcBatchProg (a0 : Nat → Nat) (a1 : Option (Nat → Nat)) (dst i b : Nat) (e : Locals) : Prog (Loc.Val α) Locals := do
  let p0 ← readLabels seed k b fun j => a0 (i + j)
  let p1 ← readOptLabels seed k b (a1.map fun a1 j => a1 (i + j))
  writeLabels k (dst + i) b (poseLabelNodeMany H false (fun j => e.nextId + j) (some fun j => some (p0 j))
    (p1.map fun p1 j => some (p1 j)) seed desc algo)
  pure { e with nextId := e.nextId + b }

def lcLayerProg (w : Nat) (a0 : Nat → Nat) (a1 : Option (Nat → Nat)) (dst : Nat) : Locals → Prog (Loc.Val α) Locals :=
  batchLoopM w poseLabelBatch (lcBatchProg H seed desc algo k a0 a1 dst) 0

/-- `lc_source`, `lc_1`, `lc_2` and the layers, in scratch buffer `k`. -/
def lcAccesses : AccessScheme (Loc.Val α) where
  source dst e := do
    writeLabel k dst (H.label seed desc algo ⟨true, e.nextId, none, none⟩)
    pure { e with nextId := e.nextId + 1 }
  one src dst e := do
    let p0 ← readLabel k src
    writeLabel k dst (H.label seed desc algo ⟨false, e.nextId, some p0, none⟩)
    pure { e with nextId := e.nextId + 1 }
  merge0 primary ingress dst e := do
    let q ← readLabel k ingress
    let ig := H.label seed desc algo ⟨false, e.nextId, some q, none⟩
    let p ← readLabel k primary
    writeLabel k dst (H.label seed desc algo ⟨false, e.nextId + 1, some p, some ig⟩)
    pure { e with nextId := e.nextId + 1 + 1 }
  first dim src dst := lcLayerProg H seed desc algo k (2 ^ dim) (fun i => src + i) none dst
  flip dim l src dst :=
    let bit := flipBit dim l
    lcLayerProg H seed desc algo k (2 ^ dim) (fun i => src + i.ldiff bit) (some fun i => src + (i ||| bit)) dst
  merge dim primary ingress dst :=
    lcLayerProg H seed desc algo k (2 ^ dim) (fun i => primary + i) (some fun i => ingress + i) dst
  copy dst src n := copyLabels seed k dst src n

/-- The seed, the descriptor and the hash of an emitter do not change. -/
def LEmitter.Hashes (e : LEmitter α) : Prop := e.seed = seed ∧ e.desc = desc ∧ e.algo = algo

def LEmitter.locals (e : LEmitter α) : Locals := ⟨e.nextId, e.arena, e.arenaOff⟩

variable (mem : Nat → α) (scratch : Nat → Scratch α) (ids : Nat → Nat)

/-- The shared memory while `e` emits. -/
def LEmitter.shared (e : LEmitter α) : (c : Loc) → Loc.Val α c :=
  Graph.shared mem (Function.update scratch k ⟨e.mem, ids⟩)

variable {H seed desc algo k}

theorem lcBatchProg_runs (a0 : Nat → Nat) (a1 : Option (Nat → Nat)) (dst i b : Nat)
    {e : LEmitter α} (he : e.Hashes seed desc algo) :
    Runs (LEmitter.Hashes seed desc algo) LEmitter.locals (LEmitter.shared k mem scratch ids)
      (lcBatchProg H seed desc algo k a0 a1 dst i b e.locals) e (lcBatch H a0 a1 dst i b e) := by
  obtain ⟨rfl, rfl, rfl⟩ := he
  obtain ⟨hids, hpred0, hpred1, het⟩ := lcBatch_fill a0 a1 i b e
  unfold lcBatch
  dsimp only at hids hpred0 hpred1 het ⊢
  generalize loop b (LBatch.entry a0 a1 i) (LBatch.init e) = t at *
  obtain ⟨p0, hrun0, hp0⟩ := run_readLabels mem scratch k e.seed b
    (fun j => a0 (i + j)) ⟨e.mem, ids⟩
  obtain ⟨p1, hrun1, hp1⟩ := run_readOptLabels mem scratch k e.seed b
    (a1.map fun a1 j => a1 (i + j)) ⟨e.mem, ids⟩
  have hstore : store e.mem (dst + i) b (poseLabelNodeMany H false (fun j => e.nextId + j) (some fun j => some (p0 j))
      (p1.map fun p1 j => some (p1 j)) e.seed e.desc e.algo) =
      (t.e.labelNodeMany H b t.ids t.pred0s (a1.map fun _ => t.pred1s) (dst + i)).mem := by
    rw [het]
    refine store_congr _ _ _ fun j hj => congrArg (H.label e.seed e.desc e.algo) ?_
    have hj1 := hp1 j hj
    unfold batchCall
    rw [hids j hj, Option.bind_some, Option.bind_some]
    dsimp only
    rw [hpred0 j hj, hp0 j hj]
    cases a1 with
    | none =>
      cases p1 with
      | none => rfl
      | some p1 => cases hj1
    | some a1 =>
      cases p1 with
      | none => cases hj1
      | some p1 =>
        simp only [Option.map_some, Option.bind_some, Option.some.injEq] at hj1 ⊢
        rw [hj1, hpred1 a1 rfl j hj]
  refine ⟨?_, by rw [het]; exact ⟨rfl, rfl, rfl⟩⟩
  have hlocals : (t.e.labelNodeMany H b t.ids t.pred0s (a1.map fun _ => t.pred1s) (dst + i)).locals =
      { e.locals with nextId := e.locals.nextId + b } := by
    rw [het]
    rfl
  unfold LEmitter.shared
  rw [hlocals, ← hstore, lcBatchProg, run_bind, hrun0, run_bind, hrun1, run_bind, run_writeLabels]
  rfl

theorem lcLayerProg_runs (w : Nat) (a0 : Nat → Nat) (a1 : Option (Nat → Nat)) (dst : Nat)
    {e : LEmitter α} (he : e.Hashes seed desc algo) :
    Runs (LEmitter.Hashes seed desc algo) LEmitter.locals (LEmitter.shared k mem scratch ids)
      (lcLayerProg H seed desc algo k w a0 a1 dst e.locals) e (lcLayer H w a0 a1 dst e) :=
  Runs.batchLoop (fun _ _ _ he => lcBatchProg_runs mem scratch ids a0 a1 dst _ _ he) 0 he

variable (H seed desc algo k) in
/-- **The programs of the `lc_*` functions do what they do.** -/
theorem lcAccesses_computes :
    Computes (lcAccesses H seed desc algo k) (lcScheme H) (LEmitter.Hashes seed desc algo) LEmitter.locals
      (LEmitter.shared k mem scratch ids) where
  top _ := rfl
  off _ := rfl
  alloc _ _ := ⟨rfl, rfl, id⟩
  release _ _ _ := ⟨rfl, id⟩
  kept _ _ := rfl
  copy dst src n f _ _ := run_copyLabels seed dst src n ⟨f, ids⟩
  source dst e he := by
    obtain ⟨rfl, rfl, rfl⟩ := he
    refine ⟨?_, rfl, rfl, rfl⟩
    dsimp only [lcAccesses, LEmitter.shared]
    rw [run_bind, run_writeLabel]
    rfl
  one src dst e he := by
    obtain ⟨rfl, rfl, rfl⟩ := he
    refine ⟨?_, rfl, rfl, rfl⟩
    dsimp only [lcAccesses, LEmitter.shared]
    rw [run_bind, run_readLabel, run_bind, run_writeLabel]
    rfl
  merge0 primary ingress dst e he := by
    obtain ⟨rfl, rfl, rfl⟩ := he
    refine ⟨?_, rfl, rfl, rfl⟩
    dsimp only [lcAccesses, LEmitter.shared]
    rw [run_bind, run_readLabel, run_bind, run_readLabel, run_bind, run_writeLabel]
    rfl
  first dim src dst e he := lcLayerProg_runs mem scratch ids _ _ _ _ he
  flip dim l src dst e he := lcLayerProg_runs mem scratch ids _ _ _ _ he
  merge dim primary ingress dst e he := lcLayerProg_runs mem scratch ids _ _ _ _ he

variable (H seed desc algo k) in
theorem lcAccesses_within : (lcAccesses H seed desc algo k).Within (Loc.InScratch k) := by
  have hlabel : ∀ a, Loc.InScratch k (.label k a) := fun _ => rfl
  have hlayer : ∀ w a0 a1 dst e, (lcLayerProg H seed desc algo k w a0 a1 dst e).Within (Loc.InScratch k) :=
    fun w a0 a1 dst e => within_batchLoopM (fun i b e =>
      (within_readLabels seed b _ hlabel).bind fun _ => (within_readOptLabels seed b _ hlabel).bind fun _ =>
        (within_writeLabels _ b _ hlabel).bind fun _ => within_pure _) 0 e
  refine ⟨fun dst e => ?_, fun src dst e => ?_, fun p q dst e => ?_, fun dim src dst e => hlayer _ _ _ _ _,
    fun dim l src dst e => hlayer _ _ _ _ _, fun dim p q dst e => hlayer _ _ _ _ _, fun dst src n => ?_⟩
  · exact (within_writeCell _ (hlabel dst)).bind fun _ => within_pure _
  · exact (within_readCell (hlabel src)).bind fun _ => (within_writeCell _ (hlabel dst)).bind fun _ => within_pure _
  · exact (within_readCell (hlabel q)).bind fun _ => (within_readCell (hlabel p)).bind fun _ =>
      (within_writeCell _ (hlabel dst)).bind fun _ => within_pure _
  · exact (within_readLabels seed n _ hlabel).bind fun _ => within_writeLabels dst n _ hlabel

end LabelCarrying

/-! ## `do_label_inplace` -/

section Inplace
variable {α : Type} (H : PoseHash α) (seed : α) (m out k : Nat) (algo : PoseHashAlgo)

def writeBlock (a : Nat) (v : α) : Prog (Loc.Val α) Unit := writeCell (V := Loc.Val α) (.block a) v

/-- The labels at `src 0, ..., src (n - 1)` of scratch buffer `k` become the blocks `dst 0, ..., dst (n - 1)`. -/
def outputLabels (k n : Nat) (dst src : Nat → Nat) : Prog (Loc.Val α) Unit :=
  loopM n (fun i _ => do
    let v ← readLabel k (src i)
    writeBlock (dst i) v) ()

/-- `do_label_inplace` in scratch buffer `k`, for the output blocks at `out`. -/
def doLabelInplaceProg : Prog (Loc.Val α) Int :=
  if m = 0 ∨ m > poseGraphMaxM then pure (-1)
  else do
    let n := poseGraphParameterN m
    let level := n + 1
    let halfW := 2 ^ n
    let retained := m - halfW
    let leftTotal := standaloneNodeCount level
    let leftBase := 0
    let rightBase := leftBase + 2 * halfW
    let arena := rightBase + 2 * halfW
    let A := lcAccesses H seed (H.graphDescriptor m n) algo k
    let e ← A.standalone ⟨0, arena, 0⟩ level leftBase
    let _ ← A.standalone { e with nextId := leftTotal, arenaOff := 0 } level rightBase
    outputLabels k halfW (fun i => out + i) fun i => leftBase + halfW + i
    outputLabels k retained (fun i => out + (halfW + i)) fun i => rightBase + halfW + i
    pure 0

variable {k} {mem : Nat → α} {scratch : Nat → Scratch α}

theorem update_block (a : Nat) (v : α) :
    Function.update (shared mem scratch) (.block a) v = shared (Function.update mem a v) scratch := by
  funext c
  cases c with
  | id j b | label j b => exact Function.update_of_ne (fun h => by cases h) _ _
  | block b =>
    by_cases hb : b = a
    · subst hb
      simp only [shared, Function.update_self]
    · have hne : Loc.block b ≠ Loc.block a := fun h => hb (Loc.block.inj h)
      rw [Function.update_of_ne hne]
      simp only [shared, Function.update_of_ne hb]

theorem run_outputLabels (n : Nat) (dst src : Nat → Nat) (s : Scratch α) :
    (outputLabels k n dst src).run (shared mem (Function.update scratch k s)) =
      ((), shared (loop n (fun i mem => Function.update mem (dst i) (s.labels (src i))) mem)
        (Function.update scratch k s)) := by
  unfold outputLabels
  induction n with
  | zero => rfl
  | succ n ih =>
    rw [loopM, run_bind, ih, run_bind, run_readLabel]
    exact congrArg (Prod.mk ()) (update_block _ _)

variable (k mem scratch) in
/-- **The program of `do_label_inplace` does what it does.** -/
theorem doLabelInplaceProg_run :
    let r := doLabelInplace H seed m mem out (scratch k) algo
    (doLabelInplaceProg H seed m out k algo).run (shared mem scratch) =
      (r.rc, shared r.mem (Function.update scratch k r.scratch)) := by
  intro r
  obtain ⟨r', hr⟩ : ∃ r', r' = r := ⟨_, rfl⟩
  rw [← hr]
  unfold doLabelInplaceProg
  split
  · rename_i hm
    have hr' : r' = ⟨-1, mem, scratch k, []⟩ := hr.trans (if_pos hm)
    rw [hr', Function.update_eq_self]
    rfl
  · rename_i hm
    obtain ⟨n, hn⟩ : ∃ n, n = poseGraphParameterN m := ⟨_, rfl⟩
    obtain ⟨e, he⟩ : ∃ e, e = inplaceEmitter H seed m (scratch k).labels (0 + 2 * 2 ^ n + 2 * 2 ^ n)
      (poseArenaFactor * 2 ^ n) algo := ⟨_, rfl⟩
    have hr' := hr.trans (if_neg hm)
    have hok : e.Hashes seed (H.graphDescriptor m n) algo := by
      rw [he, hn]
      exact ⟨rfl, rfl, rfl⟩
    have hC := lcAccesses_computes H seed (H.graphDescriptor m n) algo k mem scratch (scratch k).ids
    have hstart : shared mem scratch = e.shared k mem scratch (scratch k).ids := by
      rw [he, LEmitter.shared]
      exact congrArg (shared mem) (Function.update_eq_self k scratch).symm
    have h1 := hC.standalone (n + 1) 0 hok
    obtain ⟨e1, he1⟩ : ∃ e1, e1 = lcStandalone H e (n + 1) 0 := ⟨_, rfl⟩
    rw [← lcStandalone_eq, ← he1] at h1
    obtain ⟨e2, he2⟩ : ∃ e2, e2 = { e1 with nextId := standaloneNodeCount (n + 1), arenaOff := 0 } := ⟨_, rfl⟩
    have hok2 : e2.Hashes seed (H.graphDescriptor m n) algo := by
      rw [he2]
      exact h1.ok
    have h2 := hC.standalone (n + 1) (0 + 2 * 2 ^ n) hok2
    rw [← lcStandalone_eq] at h2
    have hlocals : e.locals = ⟨0, 0 + 2 * 2 ^ n + 2 * 2 ^ n, 0⟩ := by
      rw [he]
      rfl
    have hlocals2 : e2.locals = { e1.locals with nextId := standaloneNodeCount (n + 1), arenaOff := 0 } := by
      rw [he2]
      rfl
    have hshared2 : e2.shared k mem scratch (scratch k).ids = e1.shared k mem scratch (scratch k).ids := by
      rw [he2]
      rfl
    dsimp only at hr' ⊢
    rw [← hn] at hr' ⊢
    rw [hr', ← he, ← he1, ← he2, run_bind, hstart, ← hlocals, h1.run, run_bind]
    dsimp only
    rw [← hlocals2, ← hshared2, h2.run, run_bind]
    dsimp only [LEmitter.shared]
    rw [run_outputLabels, run_bind, run_outputLabels, run_pure]

theorem doLabelInplaceProg_within :
    (doLabelInplaceProg H seed m out k algo).Within fun c =>
      c.InScratch k ∨ ∃ a, c = .block a ∧ out ≤ a ∧ a < out + m := by
  have houtput : ∀ n (dst src : Nat → Nat), (∀ i < n, out ≤ dst i ∧ dst i < out + m) →
      (outputLabels (α := α) k n dst src).Within fun c =>
        c.InScratch k ∨ ∃ a, c = .block a ∧ out ≤ a ∧ a < out + m := fun n dst src h =>
    within_loopM (fun i hi _ => (within_readCell (.inl rfl)).bind fun _ =>
      within_writeCell _ (.inr ⟨dst i, rfl, h i hi⟩)) ()
  unfold doLabelInplaceProg
  split
  · exact within_pure _
  · rename_i hm
    have hle := two_pow_poseGraphParameterN_le (m := m) (by omega)
    have hpos := Nat.two_pow_pos (poseGraphParameterN m)
    have hA := lcAccesses_within H seed (H.graphDescriptor m (poseGraphParameterN m)) algo k
    refine ((hA.standalone _ _ _).mono fun _ => .inl).bind fun _ => ((hA.standalone _ _ _).mono fun _ => .inl).bind fun _ => ?_
    refine (houtput _ _ _ fun i hi => ?_).bind fun _ => (houtput _ _ _ fun i hi => ?_).bind fun _ => within_pure _ <;> omega

end Inplace

end PoseDB.Graph
