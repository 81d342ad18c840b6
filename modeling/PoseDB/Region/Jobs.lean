import PoseDB.Graph.LabelAccesses
import PoseDB.Region.Batch
import PoseDB.Lib.Run
import Mathlib.Algebra.Order.BigOperators.Group.Finset

/-!
# The jobs of a batch, access by access

Several threads are inside `chunk_thread_fn` at once. `JobStep` is the next access of the labeler of one job, the assignment
of its return code, or the start or the return of its sink call, so that the jobs interleave between any two of them. A job
uses its scratch buffer and its output blocks (`ChunkArg.Uses`). When no two jobs use the same cell, each of them goes its
own way whatever the others do: `JobsInv` says where it stands, and what its cells will hold in the end.
-/

set_option autoImplicit false

namespace PoseDB.Region
open Mem Programs PoseDB.Graph

variable {α : Type}

/-! ## `chunk_thread_fn`, step by step -/

def RegionState.cells (s : RegionState α) : (c : Loc) → Loc.Val α c := shared s.mem s.scratch

def RegionState.withCells (s : RegionState α) (m : (c : Loc) → Loc.Val α c) : RegionState α :=
  { s with mem := fun a => m (.block a), scratch := fun k => ⟨fun a => m (.label k a), fun a => m (.id k a)⟩ }

@[simp] theorem RegionState.cells_withCells (s : RegionState α) (m : (c : Loc) → Loc.Val α c) :
    (s.withCells m).cells = m := by
  funext c
  cases c <;> rfl

@[simp, grind =] theorem RegionState.withCells_args (s : RegionState α) (m : (c : Loc) → Loc.Val α c) :
    (s.withCells m).args = s.args := rfl

@[simp, grind =] theorem RegionState.withCells_failed (s : RegionState α) (m : (c : Loc) → Loc.Val α c) :
    (s.withCells m).failed = s.failed := rfl

/-- `a->rc = rc`. -/
def RegionState.setRc (s : RegionState α) (i : Nat) (rc : Int) : RegionState α :=
  { s with args := Function.update s.args i { s.args i with rc := rc }, failed := s.failed || decide (rc ≠ 0) }

section
variable (s : RegionState α) (i : Nat) (rc : Int)

@[simp] theorem RegionState.cells_setRc : (s.setRc i rc).cells = s.cells := rfl

@[simp, grind =] theorem RegionState.setRc_args :
    (s.setRc i rc).args = Function.update s.args i { s.args i with rc := rc } := rfl

@[simp, grind =] theorem RegionState.setRc_failed : (s.setRc i rc).failed = (s.failed || decide (rc ≠ 0)) := rfl

@[simp, grind =] theorem RegionState.setRc_sinkCalls : (s.setRc i rc).sinkCalls = s.sinkCalls := rfl

end

/-- Where a job stands: in the labeler, before the sink call, in the sink, or at the end, with the call that it made. -/
inductive JobPc (α : Type) where
  | label (p : Prog (Loc.Val α) Int)
  | call
  | calling (q : SinkCall α)
  | done (q : Option (SinkCall α))

/-- The jobs of a batch. The ghosts say which job made which sink call, and which calls have returned. -/
structure Jobs (α : Type) where
  region : RegionState α
  pc : Nat → JobPc α
  calls : List (Nat × SinkCall α)
  returned : List (Nat × SinkCall α)

def RegionState.sinkCall (s : RegionState α) (i : Nat) (wt : WriteThrough α) : SinkCall α :=
  ⟨s.mem, (s.args i).out, wt.len, wt.off⟩

/-- The next step of job `i`. -/
inductive JobStep (i : Nat) : Jobs α → Jobs α → Prop where
  | access (w : Jobs α) (p p' : Prog (Loc.Val α) Int) (m : (c : Loc) → Loc.Val α c) (hpc : w.pc i = .label p)
      (h : p.Step w.region.cells p' m) :
    JobStep i w { w with region := w.region.withCells m, pc := Function.update w.pc i (.label p') }
  | labelled (w : Jobs α) (rc : Int) (hpc : w.pc i = .label (.ret rc)) :
    JobStep i w
      { w with
        region := w.region.setRc i rc
        pc := Function.update w.pc i (if rc = 0 ∧ (w.region.args i).wt.isSome = true then .call else .done none) }
  | call (w : Jobs α) (wt : WriteThrough α) (hpc : w.pc i = .call) (hwt : (w.region.args i).wt = some wt) :
    JobStep i w
      { w with
        region := { w.region with sinkCalls := w.region.sinkCalls ++ [w.region.sinkCall i wt] }
        pc := Function.update w.pc i (.calling (w.region.sinkCall i wt))
        calls := w.calls ++ [(i, w.region.sinkCall i wt)] }
  | returned (w : Jobs α) (wt : WriteThrough α) (q : SinkCall α) (hpc : w.pc i = .calling q)
      (hwt : (w.region.args i).wt = some wt) :
    JobStep i w
      { w with
        region := w.region.setRc i (wt.sink q)
        pc := Function.update w.pc i (.done (some q))
        returned := w.returned ++ [(i, q)] }

section Labeler
variable (H : PoseHash α)

/-- `do_label_inplace(...)` or `do_label(...)`. -/
def chunkProg (a : ChunkArg α) : Prog (Loc.Val α) Int :=
  if a.inplace then doLabelInplaceProg H a.cseed a.m a.out a.scratch a.algo
  else doLabelProg H a.cseed a.m a.out a.scratch a.algo

/-- All jobs at the start of `chunk_thread_fn`. -/
def Jobs.start (s : RegionState α) : Jobs α := ⟨s, fun i => .label (chunkProg H (s.args i)), [], []⟩

def labelCall (a : ChunkArg α) (mem : Nat → α) (scratch : Nat → Scratch α) : LabelResult α :=
  if a.inplace then doLabelInplace H a.cseed a.m mem a.out (scratch a.scratch) a.algo
  else doLabel H a.cseed a.m mem a.out (scratch a.scratch) a.algo

theorem chunkProg_run (a : ChunkArg α) (mem : Nat → α) (scratch : Nat → Scratch α) :
    (chunkProg H a).run (shared mem scratch) = ((labelCall H a mem scratch).rc,
      shared (labelCall H a mem scratch).mem (Function.update scratch a.scratch (labelCall H a mem scratch).scratch)) := by
  unfold chunkProg labelCall
  split
  · exact doLabelInplaceProg_run H a.cseed a.m a.out a.scratch a.algo mem scratch
  · exact doLabelProg_run H a.cseed a.m a.out a.scratch a.algo mem scratch

/-- The cells that a job uses: its scratch buffer and its output blocks. -/
def ChunkArg.Uses (a : ChunkArg α) (c : Loc) : Prop :=
  c.InScratch a.scratch ∨ ∃ b, c = .block b ∧ a.out ≤ b ∧ b < a.out + a.m

theorem chunkProg_within (a : ChunkArg α) : (chunkProg H a).Within a.Uses := by
  unfold chunkProg
  split
  · exact doLabelInplaceProg_within H a.cseed a.m a.out a.algo
  · exact doLabelProg_within H a.cseed a.m a.out a.algo

variable {H} {a : ChunkArg α}

theorem labelCall_rc (hm : 1 ≤ a.m) (hmax : a.m ≤ poseGraphMaxM) (mem : Nat → α) (scratch : Nat → Scratch α) :
    (labelCall H a mem scratch).rc = 0 := by
  obtain ⟨hrc, hL, -⟩ := doLabel_spec (H := H) hm hmax a.cseed mem a.out (scratch a.scratch) a.algo
  unfold labelCall
  split
  · exact (doLabelInplace_spec hm hmax _ _ _ _ _ hL).1
  · exact hrc

theorem labelCall_mem (hm : 1 ≤ a.m) (hmax : a.m ≤ poseGraphMaxM) (mem : Nat → α) (scratch : Nat → Scratch α) :
    (labelCall H a mem scratch).mem = store mem a.out a.m (chunkLabel H a.cseed a.m a.algo) := by
  unfold labelCall
  split
  · exact doLabelInplace_mem H hm hmax _ _ _ _ _
  · exact doLabel_mem H hm hmax _ _ _ _ _

theorem labelCall_refused (hmax : poseGraphMaxM < a.m) (mem : Nat → α) (scratch : Nat → Scratch α) :
    (labelCall H a mem scratch).rc = -1 := by
  unfold labelCall
  split
  · unfold doLabelInplace
    rw [if_pos (.inr hmax)]
  · unfold doLabel
    rw [if_pos (.inr hmax)]

end Labeler

/-! ## Each job for itself -/

/-- No two of the first `n` jobs use the same cell. -/
def JobsApart (args : Nat → ChunkArg α) (n : Nat) : Prop :=
  ∀ i j, i < n → j < n → i ≠ j → ∀ c, (args i).Uses c → ¬(args j).Uses c

theorem ChunkArg.uses_apart {a b : ChunkArg α} (hscratch : a.scratch ≠ b.scratch)
    (hblocks : a.out + a.m ≤ b.out ∨ b.out + b.m ≤ a.out) (c : Loc) (h : a.Uses c) : ¬b.Uses c := by
  intro h'
  rcases h with h | ⟨x, rfl, hlo, hhi⟩
  · rcases h' with h' | ⟨x, rfl, -, -⟩
    · cases c with
      | block x => exact h
      | label k x | id k x => exact hscratch (h.symm.trans h')
    · exact h
  · rcases h' with h' | ⟨y, hy, hlo', hhi'⟩
    · exact h'
    · cases hy
      omega

section Stands
variable (H : PoseHash α) (s : RegionState α) (i : Nat)

/-- The labeling of job `i` alone, from the memory in which the batch starts. -/
def alone : Int × ((c : Loc) → Loc.Val α c) := (chunkProg H (s.args i)).run s.cells

/-- The cells of the job hold what its labeling alone leaves there. -/
def Holds (m : (c : Loc) → Loc.Val α c) : Prop := ∀ c, (s.args i).Uses c → m c = (alone H s i).2 c

/-- A sink call of job `i`: what it is told, and what the output blocks hold at that time. -/
structure CallOf (wt : WriteThrough α) (q : SinkCall α) : Prop where
  sink : (s.args i).wt = some wt
  ok : (alone H s i).1 = 0
  buf : q.buf = (s.args i).out
  len : q.len = wt.len
  off : q.off = wt.off
  mem : ∀ b, (s.args i).out ≤ b → b < (s.args i).out + (s.args i).m → q.mem b = (alone H s i).2 (.block b)

/-- What holds of job `i` where it stands: of its return code and its cells. -/
def Stands : JobPc α → ChunkArg α → ((c : Loc) → Loc.Val α c) → Prop
  | .label p, a, m => a = s.args i ∧ p.Yields (s.args i).Uses (alone H s i).1 (alone H s i).2 m
  | .call, a, m =>
    a = { s.args i with rc := 0 } ∧ Holds H s i m ∧ (alone H s i).1 = 0 ∧ ∃ wt, (s.args i).wt = some wt
  | .calling q, a, m => a = { s.args i with rc := 0 } ∧ Holds H s i m ∧ ∃ wt, CallOf H s i wt q
  | .done (some q), a, m =>
    Holds H s i m ∧ ∃ wt, CallOf H s i wt q ∧ a = { s.args i with rc := wt.sink q }
  | .done none, a, m =>
    Holds H s i m ∧ a = { s.args i with rc := (alone H s i).1 } ∧ ((alone H s i).1 ≠ 0 ∨ (s.args i).wt = none)

variable {H s i} {pc : JobPc α} {a : ChunkArg α} {m m' : (c : Loc) → Loc.Val α c}

theorem alone_rc (hm : 1 ≤ (s.args i).m) (hmax : (s.args i).m ≤ poseGraphMaxM) : (alone H s i).1 = 0 := by
  rw [alone, RegionState.cells, chunkProg_run]
  exact labelCall_rc hm hmax _ _

theorem alone_refused (hmax : poseGraphMaxM < (s.args i).m) : (alone H s i).1 = -1 := by
  rw [alone, RegionState.cells, chunkProg_run]
  exact labelCall_refused hmax _ _

theorem alone_block (hm : 1 ≤ (s.args i).m) (hmax : (s.args i).m ≤ poseGraphMaxM) {k : Nat} (hk : k < (s.args i).m) :
    (alone H s i).2 (.block ((s.args i).out + k)) = chunkLabel H (s.args i).cseed (s.args i).m (s.args i).algo k := by
  rw [alone, RegionState.cells, chunkProg_run]
  show (labelCall H (s.args i) s.mem s.scratch).mem _ = _
  rw [labelCall_mem hm hmax]
  exact store_in _ _ _ _ hk

theorem Stands.frame (h : Stands H s i pc a m) (hm : ∀ c, (s.args i).Uses c → m' c = m c) : Stands H s i pc a m' := by
  have hholds : Holds H s i m → Holds H s i m' := fun h c hc => (hm c hc).trans (h c hc)
  cases pc with
  | label p => exact ⟨h.1, h.2.frame hm⟩
  | call => exact ⟨h.1, hholds h.2.1, h.2.2⟩
  | calling q => exact ⟨h.1, hholds h.2.1, h.2.2⟩
  | done q =>
    cases q with
    | none => exact ⟨hholds h.1, h.2⟩
    | some q => exact ⟨hholds h.1, h.2⟩

theorem Stands.arg (h : Stands H s i pc a m) : a = { s.args i with rc := a.rc } := by
  cases pc with
  | label p => rw [h.1]
  | call => rw [h.1]
  | calling q => rw [h.1]
  | done q =>
    cases q with
    | none => rw [h.2.1]
    | some q =>
      obtain ⟨-, wt, -, ha⟩ := h
      rw [ha]

end Stands

/-- The jobs of a batch of `n` chunks that started in `s`. -/
structure JobsInv (H : PoseHash α) (s : RegionState α) (n : Nat) (w : Jobs α) : Prop where
  job : ∀ i, i < n → Stands H s i (w.pc i) (w.region.args i) w.region.cells
  rest : ∀ c, (∀ i, i < n → ¬(s.args i).Uses c) → w.region.cells c = s.cells c
  args : ∀ i, n ≤ i → w.region.args i = s.args i
  calls : ∀ i q, (i, q) ∈ w.calls ↔ i < n ∧ (w.pc i = .calling q ∨ w.pc i = .done (some q))
  calls_nodup : w.calls.Nodup
  returned : ∀ i q, (i, q) ∈ w.returned ↔ i < n ∧ w.pc i = .done (some q)
  returned_nodup : w.returned.Nodup
  sinkCalls : w.region.sinkCalls = s.sinkCalls ++ w.calls.map Prod.snd
  failed : w.region.failed = true ↔ s.failed = true ∨ ∃ i, i < n ∧ (w.region.args i).rc ≠ 0 ∧ ∃ q, w.pc i = .done q

section Invariant
variable {H : PoseHash α} {s : RegionState α} {n i : Nat} {w w' : Jobs α}

theorem JobsInv.start : JobsInv H s n (Jobs.start H s) where
  job i _ := ⟨rfl, (chunkProg_within H (s.args i)).yields s.cells⟩
  rest _ _ := rfl
  args _ _ := rfl
  calls i q := ⟨fun h => absurd h List.not_mem_nil, fun h => by simp [Jobs.start] at h⟩
  calls_nodup := List.nodup_nil
  returned i q := ⟨fun h => absurd h List.not_mem_nil, fun h => by simp [Jobs.start] at h⟩
  returned_nodup := List.nodup_nil
  sinkCalls := (List.append_nil _).symm
  failed := by simp [Jobs.start]

/-- Only job `i` moves, and only its own cells and its own argument change. -/
theorem JobsInv.move (hs : JobsInv H s n w) (hapart : JobsApart s.args n) (hi : i < n) (pc : JobPc α)
    (r : RegionState α) (hstands : Stands H s i pc (r.args i) r.cells)
    (hargs : ∀ j, j ≠ i → r.args j = w.region.args j)
    (hcells : ∀ c, ¬(s.args i).Uses c → r.cells c = w.region.cells c) :
    (∀ j, j < n → Stands H s j (Function.update w.pc i pc j) (r.args j) r.cells) ∧
      (∀ c, (∀ j, j < n → ¬(s.args j).Uses c) → r.cells c = s.cells c) ∧ ∀ j, n ≤ j → r.args j = s.args j := by
  refine ⟨fun j hj => ?_, fun c hc => ?_, fun j hj => ?_⟩
  · by_cases hji : j = i
    · subst hji
      rwa [Function.update_self]
    · rw [Function.update_of_ne hji, hargs j hji]
      exact (hs.job j hj).frame fun c hc => hcells c (hapart j i hj hi hji c hc)
  · rw [hcells c (hc i hi), hs.rest c hc]
  · rw [hargs j (by omega), hs.args j hj]

/-- A job fails when it ends with another return code than `0`. -/
theorem JobsInv.failed_setRc (hs : JobsInv H s n w) (hi : i < n) (hpc : ∀ q, w.pc i ≠ .done q) {pc : JobPc α} {rc : Int}
    (hdone : rc ≠ 0 → ∃ q, pc = .done q) :
    (w.region.setRc i rc).failed = true ↔ s.failed = true ∨
      ∃ j, j < n ∧ ((w.region.setRc i rc).args j).rc ≠ 0 ∧ ∃ q, Function.update w.pc i pc j = .done q := by
  rw [RegionState.setRc_failed, Bool.or_eq_true, hs.failed, or_assoc, RegionState.setRc_args, decide_eq_true_eq]
  apply or_congr_right
  constructor
  · rintro (⟨j, hj, hrc, q, hq⟩ | hrc)
    · have hji : j ≠ i := fun h => hpc q (h ▸ hq)
      exact ⟨j, hj, by rwa [Function.update_of_ne hji], q, by rw [Function.update_of_ne hji, hq]⟩
    · obtain ⟨q, hq⟩ := hdone hrc
      exact ⟨i, hi, by rwa [Function.update_self], q, by rw [Function.update_self, hq]⟩
  · rintro ⟨j, hj, hrc, q, hq⟩
    by_cases hji : j = i
    · subst hji
      rw [Function.update_self] at hrc
      exact .inr hrc
    · rw [Function.update_of_ne hji] at hrc hq
      exact .inl ⟨j, hj, hrc, q, hq⟩

/-- **Every step of every job keeps the invariant.** -/
theorem JobsInv.step (hs : JobsInv H s n w) (hapart : JobsApart s.args n) (hi : i < n) (h : JobStep i w w') :
    JobsInv H s n w' := by
  have hstands := hs.job i hi
  cases h with
  | access p p' m hpc h =>
    rw [hpc] at hstands
    have hcells := (h.within hstands.2.within).2
    obtain ⟨hjob, hrest, hargs⟩ := hs.move hapart hi (.label p') (w.region.withCells m)
      ⟨hstands.1, by rw [RegionState.cells_withCells]; exact hstands.2.step h⟩ (fun _ _ => rfl)
      fun c hc => by rw [RegionState.cells_withCells]; exact hcells c hc
    exact ⟨hjob, hrest, hargs, by grind [Function.update_apply, hs.calls], hs.calls_nodup,
      by grind [Function.update_apply, hs.returned], hs.returned_nodup, hs.sinkCalls,
      by grind [Function.update_apply, hs.failed]⟩
  | labelled rc hpc =>
    rw [hpc] at hstands
    obtain ⟨harg, hyields⟩ := hstands
    obtain ⟨hrc, hholds⟩ := hyields.returned
    obtain ⟨pc, hpc'⟩ : ∃ pc : JobPc α,
      pc = if rc = 0 ∧ (w.region.args i).wt.isSome = true then .call else .done none := ⟨_, rfl⟩
    rw [← hpc']
    have hstands' : Stands H s i pc ((w.region.setRc i rc).args i) (w.region.setRc i rc).cells := by
      rw [RegionState.setRc_args, Function.update_self, RegionState.cells_setRc, harg]
      rw [harg] at hpc'
      split at hpc'
      · rename_i hcall
        rw [hpc', hcall.1]
        exact ⟨rfl, hholds, hrc ▸ hcall.1, Option.isSome_iff_exists.mp hcall.2⟩
      · rename_i hcall
        rw [hpc', hrc]
        refine ⟨hholds, rfl, ?_⟩
        by_contra hno
        push Not at hno
        exact hcall ⟨hrc.trans hno.1, Option.isSome_iff_ne_none.mpr hno.2⟩
    obtain ⟨hjob, hrest, hargs⟩ := hs.move hapart hi _ _ hstands'
      (fun j hj => Function.update_of_ne hj _ _) fun c _ => rfl
    have hcases : pc = .call ∧ rc = 0 ∨ pc = .done none := by grind
    refine ⟨hjob, hrest, hargs, ?_, hs.calls_nodup, ?_, hs.returned_nodup, hs.sinkCalls, ?_⟩
    · grind [Function.update_apply, hs.calls]
    · grind [Function.update_apply, hs.returned]
    · exact hs.failed_setRc hi (fun q h => by rw [hpc] at h; cases h) fun hne => by grind
  | call wt hpc hwt =>
    rw [hpc] at hstands
    obtain ⟨harg, hholds, hok, -⟩ := hstands
    have hwt' : (s.args i).wt = some wt := by
      rw [harg] at hwt
      exact hwt
    obtain ⟨q, hq⟩ : ∃ q, q = w.region.sinkCall i wt := ⟨_, rfl⟩
    rw [← hq]
    have hcall : CallOf H s i wt q := by
      rw [hq]
      refine ⟨hwt', hok, ?_, rfl, rfl, fun b hlo hhi => hholds (.block b) (.inr ⟨b, rfl, hlo, hhi⟩)⟩
      show (w.region.args i).out = _
      rw [harg]
    have hnew : ∀ q', (i, q') ∉ w.calls := fun q' hmem => by
      have h := ((hs.calls i q').mp hmem).2
      rw [hpc] at h
      rcases h with h | h <;> cases h
    obtain ⟨hjob, hrest, hargs⟩ := hs.move hapart hi (.calling q)
      ({ w.region with sinkCalls := w.region.sinkCalls ++ [q] }) ⟨harg, hholds, wt, hcall⟩ (fun _ _ => rfl)
      fun _ _ => rfl
    refine ⟨hjob, hrest, hargs, ?_, ?_, ?_, hs.returned_nodup, ?_, ?_⟩
    · grind [Function.update_apply, hs.calls]
    · exact List.nodup_append.mpr ⟨hs.calls_nodup, List.nodup_singleton _, fun a ha b hb hab =>
        hnew q (by rwa [hab, List.mem_singleton.mp hb] at ha)⟩
    · grind [Function.update_apply, hs.returned]
    · simp [hs.sinkCalls]
    · grind [Function.update_apply, hs.failed]
  | returned wt q hpc hwt =>
    rw [hpc] at hstands
    obtain ⟨harg, hholds, wt', hcall⟩ := hstands
    have hwt' : wt' = wt := by
      have hsink := hcall.sink
      rw [harg] at hwt
      exact Option.some.inj (hsink.symm.trans hwt)
    subst hwt'
    have hnew : (i, q) ∉ w.returned := fun hmem => by
      have h := ((hs.returned i q).mp hmem).2
      rw [hpc] at h
      cases h
    obtain ⟨hjob, hrest, hargs⟩ := hs.move hapart hi (.done (some q)) (w.region.setRc i (wt'.sink q))
      ⟨hholds, wt', hcall, by rw [RegionState.setRc_args, Function.update_self, harg]⟩
      (fun j hj => Function.update_of_ne hj _ _) fun _ _ => rfl
    refine ⟨hjob, hrest, hargs, ?_, hs.calls_nodup, ?_, ?_, hs.sinkCalls, ?_⟩
    · grind [Function.update_apply, hs.calls]
    · grind [Function.update_apply, hs.returned]
    · exact List.nodup_append.mpr ⟨hs.returned_nodup, List.nodup_singleton _, fun a ha b hb hab =>
        hnew (by rwa [hab, List.mem_singleton.mp hb] at ha)⟩
    · exact hs.failed_setRc hi (fun q h => by rw [hpc] at h; cases h) fun _ => ⟨some q, rfl⟩

/-! ## The sink calls -/

theorem JobsInv.callers_nodup (hs : JobsInv H s n w) : (w.calls.map Prod.fst).Nodup := by
  apply List.Nodup.map_on _ hs.calls_nodup
  rintro ⟨i, q⟩ hx ⟨j, q'⟩ hy (hij : i = j)
  subst hij
  have h := ((hs.calls i q).mp hx).2
  have h' := ((hs.calls i q').mp hy).2
  have hq : q = q' := by grind
  rw [hq]

theorem JobsInv.callOf (hs : JobsInv H s n w) {q : SinkCall α} (hq : (i, q) ∈ w.calls) : ∃ wt, CallOf H s i wt q := by
  obtain ⟨hi, hpc⟩ := (hs.calls i q).mp hq
  have hstands := hs.job i hi
  rcases hpc with hpc | hpc
  · rw [hpc] at hstands
    exact hstands.2.2
  · rw [hpc] at hstands
    obtain ⟨-, wt, hcall, -⟩ := hstands
    exact ⟨wt, hcall⟩

/-- As long as the sink works on a call, the job's cells stay what they are. -/
theorem JobsInv.holds (hs : JobsInv H s n w) {q : SinkCall α} (hq : (i, q) ∈ w.calls) : Holds H s i w.region.cells := by
  obtain ⟨hi, hpc⟩ := (hs.calls i q).mp hq
  have hstands := hs.job i hi
  rcases hpc with hpc | hpc
  · rw [hpc] at hstands
    exact hstands.2.1
  · rw [hpc] at hstands
    exact hstands.1

theorem JobsInv.returned_perm (hs : JobsInv H s n w) (hdone : ∀ i, i < n → ∃ q, w.pc i = .done q) :
    w.returned.Perm w.calls := by
  apply (List.perm_ext_iff_of_nodup hs.returned_nodup hs.calls_nodup).mpr
  rintro ⟨i, q⟩
  rw [hs.returned, hs.calls]
  constructor
  · rintro ⟨hi, hpc⟩
    exact ⟨hi, .inr hpc⟩
  · rintro ⟨hi, hpc | hpc⟩
    · obtain ⟨q', hq'⟩ := hdone i hi
      rw [hpc] at hq'
      cases hq'
    · exact ⟨hi, hpc⟩

/-- A job with a sink whose labeling succeeds has called it when it is done, and has its result. -/
theorem JobsInv.done_call (hs : JobsInv H s n w) (hi : i < n) {wt : WriteThrough α} (hwt : (s.args i).wt = some wt)
    (hok : (alone H s i).1 = 0) {q : Option (SinkCall α)} (hpc : w.pc i = .done q) :
    ∃ q, (i, q) ∈ w.calls ∧ (w.region.args i).rc = wt.sink q := by
  have hstands := hs.job i hi
  rw [hpc] at hstands
  cases q with
  | none =>
    obtain ⟨-, -, hne | hno⟩ := hstands
    · exact absurd hok hne
    · rw [hwt] at hno
      cases hno
  | some q =>
    obtain ⟨-, wt', hcall, harg⟩ := hstands
    have heq : wt' = wt := Option.some.inj (hcall.sink.symm.trans hwt)
    exact ⟨q, (hs.calls i q).mpr ⟨hi, .inr hpc⟩, by rw [harg, heq]⟩

theorem JobsInv.done_failed (hs : JobsInv H s n w) (hi : i < n) (hne : (alone H s i).1 ≠ 0) {q : Option (SinkCall α)}
    (hpc : w.pc i = .done q) : (w.region.args i).rc = (alone H s i).1 := by
  have hstands := hs.job i hi
  rw [hpc] at hstands
  cases q with
  | none => rw [hstands.2.1]
  | some q =>
    obtain ⟨-, wt, hcall, -⟩ := hstands
    exact absurd hcall.ok hne

/-! ## Progress -/

def JobPc.weight (m : (c : Loc) → Loc.Val α c) : JobPc α → Nat
  | .label p => p.length m + 3
  | .call => 2
  | .calling _ => 1
  | .done _ => 0

def Jobs.weight (n : Nat) (w : Jobs α) : Nat := ∑ i ∈ Finset.range n, (w.pc i).weight w.region.cells

theorem Stands.weight_frame {pc : JobPc α} {a : ChunkArg α} {m m' : (c : Loc) → Loc.Val α c} (h : Stands H s i pc a m)
    (hm : ∀ c, (s.args i).Uses c → m' c = m c) : pc.weight m' = pc.weight m := by
  cases pc with
  | label p => exact congrArg (· + 3) (h.2.within.run_congr hm).2.2
  | _ => rfl

/-- What a step of job `i` leaves alone, and that it brings the job closer to its end. -/
theorem JobStep.effect (hs : JobsInv H s n w) (hi : i < n) (h : JobStep i w w') :
    (∀ j, j ≠ i → w'.pc j = w.pc j) ∧ (∀ c, ¬(s.args i).Uses c → w'.region.cells c = w.region.cells c) ∧
      (w'.pc i).weight w'.region.cells < (w.pc i).weight w.region.cells := by
  have hstands := hs.job i hi
  cases h with
  | access p p' m hpc h =>
    rw [hpc] at hstands
    refine ⟨fun j hj => Function.update_of_ne hj _ _, fun c hc => ?_, ?_⟩
    · rw [RegionState.cells_withCells]
      exact (h.within hstands.2.within).2 c hc
    · dsimp only
      rw [Function.update_self, hpc, RegionState.cells_withCells]
      simp only [JobPc.weight, h.length]
      omega
  | labelled rc hpc =>
    refine ⟨fun j hj => Function.update_of_ne hj _ _, fun _ _ => rfl, ?_⟩
    dsimp only
    rw [Function.update_self, hpc]
    split <;> simp [JobPc.weight]
  | call wt hpc hwt =>
    refine ⟨fun j hj => Function.update_of_ne hj _ _, fun _ _ => rfl, ?_⟩
    dsimp only
    rw [Function.update_self, hpc]
    exact Nat.lt_succ_self 1
  | returned wt q hpc hwt =>
    refine ⟨fun j hj => Function.update_of_ne hj _ _, fun _ _ => rfl, ?_⟩
    dsimp only
    rw [Function.update_self, hpc]
    exact Nat.zero_lt_one

theorem JobStep.weight_lt (hs : JobsInv H s n w) (hapart : JobsApart s.args n) (hi : i < n) (h : JobStep i w w') :
    w'.weight n < w.weight n := by
  obtain ⟨hpc, hcells, hlt⟩ := h.effect hs hi
  have heq : ∀ j, j < n → j ≠ i → (w'.pc j).weight w'.region.cells = (w.pc j).weight w.region.cells := fun j hj hji => by
    rw [hpc j hji]
    exact (hs.job j hj).weight_frame fun c hc => hcells c (hapart j i hj hi hji c hc)
  refine Finset.sum_lt_sum (fun j hj => ?_) ⟨i, Finset.mem_range.mpr hi, hlt⟩
  by_cases hji : j = i
  · subst hji
    exact hlt.le
  · exact (heq j (Finset.mem_range.mp hj) hji).le

theorem JobsInv.exists_step (hs : JobsInv H s n w) (hi : i < n) (hpc : ∀ q, w.pc i ≠ .done q) : ∃ w', JobStep i w w' := by
  have hstands := hs.job i hi
  cases hpci : w.pc i with
  | label p =>
    rcases p.ret_or_step w.region.cells with ⟨rc, rfl⟩ | ⟨p', m, h⟩
    · exact ⟨_, .labelled w rc hpci⟩
    · exact ⟨_, .access w p p' m hpci h⟩
  | call =>
    rw [hpci] at hstands
    obtain ⟨harg, -, -, wt, hwt⟩ := hstands
    exact ⟨_, .call w wt hpci (by rw [harg]; exact hwt)⟩
  | calling q =>
    rw [hpci] at hstands
    obtain ⟨harg, -, wt, hcall⟩ := hstands
    exact ⟨_, .returned w wt q hpci (by rw [harg]; exact hcall.sink)⟩
  | done q => exact absurd hpci (hpc q)

theorem JobStep.done_kept {j : Nat} {q : Option (SinkCall α)} (h : JobStep i w w') (hj : w.pc j = .done q) :
    w'.pc j = .done q := by
  have hne : ∀ pc : JobPc α, w.pc i = pc → pc ≠ .done q → j ≠ i := by
    rintro pc hpc hdone rfl
    exact hdone (hpc.symm.trans hj)
  cases h with
  | access p p' m hpc h =>
    have hji := hne _ hpc fun h => by cases h
    exact (Function.update_of_ne hji _ _).trans hj
  | labelled rc hpc =>
    have hji := hne _ hpc fun h => by cases h
    exact (Function.update_of_ne hji _ _).trans hj
  | call wt hpc hwt =>
    have hji := hne _ hpc fun h => by cases h
    exact (Function.update_of_ne hji _ _).trans hj
  | returned wt q' hpc hwt =>
    have hji := hne _ hpc fun h => by cases h
    exact (Function.update_of_ne hji _ _).trans hj

end Invariant

/-! ## One job after the other -/

section Serial
variable {H : PoseHash α} {s : RegionState α} {n i : Nat} {w w' : Jobs α}

/-- Job `i` is at `p`, and the cells hold `m`. -/
def Jobs.labelling (w : Jobs α) (i : Nat) (p : Prog (Loc.Val α) Int) (m : (c : Loc) → Loc.Val α c) : Jobs α :=
  { w with region := w.region.withCells m, pc := Function.update w.pc i (.label p) }

theorem Jobs.labelling_step {p p' : Prog (Loc.Val α) Int} {m m' : (c : Loc) → Loc.Val α c} (h : p.Step m p' m') :
    JobStep i (w.labelling i p m) (w.labelling i p' m') := by
  have hcells : (w.labelling i p m).region.cells = m := RegionState.cells_withCells _ _
  have hstep := JobStep.access (w.labelling i p m) p p' m' (Function.update_self _ _ _) (by rw [hcells]; exact h)
  unfold Jobs.labelling at hstep ⊢
  dsimp only at hstep
  rwa [Function.update_idem] at hstep

theorem Jobs.labelling_steps (p : Prog (Loc.Val α) Int) (m : (c : Loc) → Loc.Val α c) :
    Relation.ReflTransGen (JobStep i) (w.labelling i p m) (w.labelling i (.ret (p.run m).1) (p.run m).2) := by
  induction p generalizing m with
  | ret r => exact .refl
  | read l next ih => exact .head (Jobs.labelling_step (.read l next m)) (ih (m l) m)
  | write l v next ih => exact .head (Jobs.labelling_step (.write l v next m)) (ih _)

theorem Jobs.labelling_self {p : Prog (Loc.Val α) Int} (hpc : w.pc i = .label p) :
    w.labelling i p w.region.cells = w := by
  unfold Jobs.labelling
  rw [← hpc, Function.update_eq_self]
  rfl

theorem chunkThreadFn_quiet
    (h : ¬((labelCall H (s.args i) s.mem s.scratch).rc = 0 ∧ (s.args i).wt.isSome = true)) :
    chunkThreadFn H s i =
      RegionState.setRc { s with
        mem := (labelCall H (s.args i) s.mem s.scratch).mem
        scratch := Function.update s.scratch (s.args i).scratch (labelCall H (s.args i) s.mem s.scratch).scratch } i
        (labelCall H (s.args i) s.mem s.scratch).rc := by
  unfold chunkThreadFn RegionState.setRc
  unfold labelCall at h ⊢
  dsimp only
  generalize (if (s.args i).inplace = true then
    doLabelInplace H (s.args i).cseed (s.args i).m s.mem (s.args i).out (s.scratch (s.args i).scratch) (s.args i).algo
    else doLabel H (s.args i).cseed (s.args i).m s.mem (s.args i).out (s.scratch (s.args i).scratch) (s.args i).algo) = r at h ⊢
  cases hwt : (s.args i).wt with
  | none => simp
  | some wt =>
    have hrc : r.rc ≠ 0 := fun hrc => h ⟨hrc, by rw [hwt]; rfl⟩
    simp [hrc]

theorem chunkThreadFn_streams {wt : WriteThrough α} (hwt : (s.args i).wt = some wt)
    (hrc : (labelCall H (s.args i) s.mem s.scratch).rc = 0) :
    let t := { s with
      mem := (labelCall H (s.args i) s.mem s.scratch).mem
      scratch := Function.update s.scratch (s.args i).scratch (labelCall H (s.args i) s.mem s.scratch).scratch }
    chunkThreadFn H s i =
      RegionState.setRc { t with sinkCalls := t.sinkCalls ++ [t.sinkCall i wt] } i (wt.sink (t.sinkCall i wt)) := by
  intro t
  unfold chunkThreadFn RegionState.setRc
  have hr : (if (s.args i).inplace = true then
    doLabelInplace H (s.args i).cseed (s.args i).m s.mem (s.args i).out (s.scratch (s.args i).scratch) (s.args i).algo
    else doLabel H (s.args i).cseed (s.args i).m s.mem (s.args i).out (s.scratch (s.args i).scratch) (s.args i).algo) =
      labelCall H (s.args i) s.mem s.scratch := rfl
  have ht : (t.args i).wt = some wt := hwt
  simp only [hr, hwt, ht, hrc, if_true]
  rfl

/-- **A job that is not interrupted does what `chunk_thread_fn` does.** -/
theorem chunkThreadFn_steps (hpc : w.pc i = .label (chunkProg H (w.region.args i))) :
    ∃ w', Relation.ReflTransGen (JobStep i) w w' ∧ w'.region = chunkThreadFn H w.region i ∧
      (∃ q, w'.pc i = .done q) ∧ ∀ j, j ≠ i → w'.pc j = w.pc j := by
  obtain ⟨r, hr⟩ : ∃ r, r = labelCall H (w.region.args i) w.region.mem w.region.scratch := ⟨_, rfl⟩
  obtain ⟨t, ht⟩ : ∃ t, t = w.labelling i (.ret r.rc)
    (shared r.mem (Function.update w.region.scratch (w.region.args i).scratch r.scratch)) := ⟨_, rfl⟩
  have hrun : Relation.ReflTransGen (JobStep i) w t := by
    have h := Jobs.labelling_steps (w := w) (i := i) (chunkProg H (w.region.args i)) w.region.cells
    rw [Jobs.labelling_self hpc, RegionState.cells, chunkProg_run, ← hr] at h
    rwa [ht]
  have hregion : t.region = { w.region with
      mem := r.mem
      scratch := Function.update w.region.scratch (w.region.args i).scratch r.scratch } := by
    rw [ht]
    rfl
  have hpct : t.pc i = .label (.ret r.rc) := by
    rw [ht]
    exact Function.update_self _ _ _
  have hother : ∀ j, j ≠ i → t.pc j = w.pc j := fun j hj => by
    rw [ht]
    exact Function.update_of_ne hj _ _
  have hlabelled := hrun.tail (.labelled t r.rc hpct)
  by_cases hcall : r.rc = 0 ∧ (t.region.args i).wt.isSome = true
  · rw [if_pos hcall] at hlabelled
    obtain ⟨wt, hwt⟩ := Option.isSome_iff_exists.mp hcall.2
    have hwt' : (w.region.args i).wt = some wt := by
      rw [hregion] at hwt
      exact hwt
    have hcalled := hlabelled.tail (.call _ wt (Function.update_self _ _ _) (by
      dsimp only
      rw [RegionState.setRc_args, Function.update_self]
      exact hwt))
    have hreturned := hcalled.tail (.returned _ wt _ (Function.update_self _ _ _) (by
      dsimp only
      rw [RegionState.setRc_args, Function.update_self]
      exact hwt))
    refine ⟨_, hreturned, ?_, ⟨_, Function.update_self _ _ _⟩, fun j hj => ?_⟩
    · rw [chunkThreadFn_streams hwt' (hr ▸ hcall.1), ← hr, hregion, hcall.1]
      simp [RegionState.setRc, RegionState.sinkCall]
      congr 1
      exact decide_not.symm
    · exact (Function.update_of_ne hj _ _).trans ((Function.update_of_ne hj _ _).trans
        ((Function.update_of_ne hj _ _).trans (hother j hj)))
  · rw [if_neg hcall] at hlabelled
    rw [hregion, hr] at hcall
    refine ⟨_, hlabelled, ?_, ⟨none, Function.update_self _ _ _⟩, fun j hj => (Function.update_of_ne hj _ _).trans (hother j hj)⟩
    rw [chunkThreadFn_quiet hcall, ← hr, hregion]

/-- A step of one of the first `n` jobs. -/
def JobsStep (n : Nat) (w w' : Jobs α) : Prop := ∃ i, i < n ∧ JobStep i w w'

theorem JobsInv.run (hapart : JobsApart s.args n) (hs : JobsInv H s n w) (h : Relation.ReflTransGen (JobsStep n) w w') :
    JobsInv H s n w' :=
  Runs.keeps_run (fun _ _ hs ⟨_, hi, h⟩ => hs.step hapart hi h) hs h

/-- The jobs of `l` one after the other. -/
theorem foldl_steps {l : List Nat} (hl : l.Nodup) (hlt : ∀ i ∈ l, i < n)
    (hpc : ∀ i ∈ l, w.pc i = .label (chunkProg H (w.region.args i))) :
    ∃ w', Relation.ReflTransGen (JobsStep n) w w' ∧ w'.region = l.foldl (chunkThreadFn H) w.region ∧
      (∀ i ∈ l, ∃ q, w'.pc i = .done q) ∧ ∀ j, j ∉ l → w'.pc j = w.pc j := by
  induction l generalizing w with
  | nil => exact ⟨w, .refl, rfl, fun i hi => absurd hi List.not_mem_nil, fun _ _ => rfl⟩
  | cons i l ih =>
    obtain ⟨hil, hl⟩ := List.nodup_cons.mp hl
    obtain ⟨t, hrun, hregion, hdone, hother⟩ := chunkThreadFn_steps (hpc i List.mem_cons_self)
    have hpct : ∀ j ∈ l, t.pc j = .label (chunkProg H (t.region.args j)) := fun j hj => by
      have hji : j ≠ i := fun h => hil (h ▸ hj)
      rw [hother j hji, hregion, chunkThreadFn_args_of_ne hji]
      exact hpc j (List.mem_cons_of_mem _ hj)
    obtain ⟨u, hrun', hregion', hdone', hother'⟩ := ih hl (fun j hj => hlt j (List.mem_cons_of_mem _ hj)) hpct
    have hle : (JobStep i : Jobs α → Jobs α → Prop) ≤ JobsStep n := fun _ _ h => ⟨i, hlt i List.mem_cons_self, h⟩
    have hlift : Relation.ReflTransGen (JobsStep n) w t := Relation.ReflTransGen.mono hle _ _ hrun
    refine ⟨u, hlift.trans hrun', ?_, ?_, ?_⟩
    · rw [hregion', hregion, List.foldl_cons]
    · intro j hj
      rcases List.mem_cons.mp hj with rfl | hj
      · rw [hother' j hil]
        exact hdone
      · exact hdone' j hj
    · intro j hj
      rw [List.mem_cons, not_or] at hj
      rw [hother' j hj.2, hother j hj.1]

theorem RegionState.ext_cells {s t : RegionState α} (hcells : s.cells = t.cells) (hargs : s.args = t.args)
    (hcalls : s.sinkCalls = t.sinkCalls) (hfailed : s.failed = t.failed) : s = t := by
  have hs : s = { s.withCells s.cells with args := s.args, sinkCalls := s.sinkCalls, failed := s.failed } := rfl
  rw [hs, hcells, hargs, hcalls, hfailed]
  rfl

theorem JobsInv.unique (hs : JobsInv H s n w) (hs' : JobsInv H s n w') (hwt : ∀ i, i < n → (s.args i).wt = none)
    (hdone : ∀ i, i < n → ∃ q, w.pc i = .done q) (hdone' : ∀ i, i < n → ∃ q, w'.pc i = .done q) :
    w.region = w'.region := by
  have hend : ∀ {t : Jobs α}, JobsInv H s n t → (∀ i, i < n → ∃ q, t.pc i = .done q) → ∀ i, i < n →
      Holds H s i t.region.cells ∧ t.region.args i = { s.args i with rc := (alone H s i).1 } := by
    intro t ht hdone i hi
    obtain ⟨q, hq⟩ := hdone i hi
    have hstands := ht.job i hi
    rw [hq] at hstands
    cases q with
    | none => exact ⟨hstands.1, hstands.2.1⟩
    | some q =>
      obtain ⟨-, wt, hcall, -⟩ := hstands
      have hsink := hcall.sink
      rw [hwt i hi] at hsink
      cases hsink
  have hcalls : ∀ {t : Jobs α}, JobsInv H s n t → t.region.sinkCalls = s.sinkCalls := by
    intro t ht
    have hnil : t.calls = [] := by
      apply List.eq_nil_iff_forall_not_mem.mpr
      rintro ⟨i, q⟩ hq
      obtain ⟨wt, hcall⟩ := ht.callOf hq
      have hsink := hcall.sink
      rw [hwt i ((ht.calls i q).mp hq).1] at hsink
      cases hsink
    rw [ht.sinkCalls, hnil, List.map_nil, List.append_nil]
  apply RegionState.ext_cells
  · funext c
    by_cases hc : ∃ i, i < n ∧ (s.args i).Uses c
    · obtain ⟨i, hi, hc⟩ := hc
      rw [(hend hs hdone i hi).1 c hc, (hend hs' hdone' i hi).1 c hc]
    · have hrest : ∀ i, i < n → ¬(s.args i).Uses c := fun i hi h => hc ⟨i, hi, h⟩
      rw [hs.rest c hrest, hs'.rest c hrest]
  · funext i
    by_cases hi : i < n
    · rw [(hend hs hdone i hi).2, (hend hs' hdone' i hi).2]
    · rw [hs.args i (not_lt.mp hi), hs'.args i (not_lt.mp hi)]
  · rw [hcalls hs, hcalls hs']
  · rw [Bool.eq_iff_iff, hs.failed, hs'.failed]
    apply or_congr_right
    constructor
    · rintro ⟨i, hi, hrc, -⟩
      exact ⟨i, hi, by rwa [(hend hs' hdone' i hi).2, ← (hend hs hdone i hi).2], hdone' i hi⟩
    · rintro ⟨i, hi, hrc, -⟩
      exact ⟨i, hi, by rwa [(hend hs hdone i hi).2, ← (hend hs' hdone' i hi).2], hdone i hi⟩

/-- **Interleaved jobs do what they do one after the other**, in any order. -/
theorem JobsInv.eq_foldl (hapart : JobsApart s.args n) (hs : JobsInv H s n w) (hwt : ∀ i, i < n → (s.args i).wt = none)
    (hdone : ∀ i, i < n → ∃ q, w.pc i = .done q) {l : List Nat} (hl : l.Perm (List.range n)) :
    w.region = l.foldl (chunkThreadFn H) s := by
  obtain ⟨t, hrun, hregion, hdone', -⟩ := foldl_steps (H := H) (n := n) (w := Jobs.start H s)
    (hl.nodup_iff.mpr List.nodup_range) (fun i hi => List.mem_range.mp (hl.mem_iff.mp hi)) fun _ _ => rfl
  have ht : JobsInv H s n t := JobsInv.start.run hapart hrun
  rw [hs.unique ht hwt hdone fun i hi => hdone' i (hl.mem_iff.mpr (List.mem_range.mpr hi)), hregion]
  rfl

end Serial

end PoseDB.Region
