import PoseDB.Region.Jobs
import PoseDB.Region.PoolRuns

/-!
# A batch on the pool

The statements of `pose_graph_pool` and of `chunk_thread_fn` together: worker `i` makes the steps of job `i` between its
`unlockRun` and its `run`, the caller those of the last job between `unlockSubmit` and `lockWait`, and no thread leaves
`chunk_thread_fn` before its job is done (`BatchStep`). A batch goes from `begin` to `collect`, where the caller gathers the
return codes. In every run all jobs are done there (`BatchInv.collected`), no run is stuck before
(`BatchInv.exists_step`), and its length is bounded (`JobsRun.weight_le`).
-/

set_option autoImplicit false

namespace PoseDB.ThreadPool

variable {prog : Nat → Batch} {s t : State}

/-! ## The pool during a batch -/

@[grind] def CallerPc.ranOwn : CallerPc → Bool
  | .lockWait | .check | .waiting | .reacquire | .unlockWait | .collect => true
  | _ => false

@[grind =] theorem CallerPc.ranOwn_wake (pc : CallerPc) : pc.wake.ranOwn = pc.ranOwn := by cases pc <;> rfl

@[grind] def CallerPc.destroys : CallerPc → Bool
  | .lockDestroy | .setShutdown | .wakeAll | .unlockDestroy | .joining => true
  | _ => false

@[grind =] theorem CallerPc.destroys_wake (pc : CallerPc) : pc.wake.destroys = pc.destroys := by cases pc <;> rfl

/-- What one statement does to the batch, to the finished jobs and to the place of the caller. -/
structure Moves (s t : State) : Prop where
  batch : t.batch = s.batch ∨ s.caller = .collect
  finished : ∀ job ∈ t.finished, job ∈ s.finished ∨ ∃ i, s.worker i = .run job ∧ t.worker i = .lockDone job
  ranOwn : t.caller.ranOwn = true → s.caller.ranOwn = true ∨ s.caller = .runOwn
  destroys : t.caller.destroys = true → s.caller.destroys = true ∨ t.caller = .lockDestroy
  lockDestroy : t.caller = .lockDestroy → s.caller = .lockDestroy ∨ s.caller = .idle

theorem CallerStep.moves (h : CallerStep prog s t) : Moves s t := by
  cases h <;> constructor <;> grind

theorem CallerStep.collects (h : CallerStep prog s t) (hpc : s.caller = .collect) : t.batch = s.batch + 1 := by
  cases h <;> grind

theorem WorkerStep.moves {i : Nat} (h : WorkerStep i s t) : Moves s t := by
  cases h <;> constructor <;> grind [CallerPc.wake_cases]

theorem Spurious.moves (h : Spurious s t) : Moves s t := by
  cases h <;> constructor <;> grind

theorem Step.moves (h : Step prog s t) : Moves s t := by
  rcases h with h | ⟨i, -, h⟩
  · exact h.moves
  · exact h.moves

end PoseDB.ThreadPool

namespace PoseDB.Region
open ThreadPool Programs PoseDB.Graph

variable {α : Type}

/-- The threads of the pool and the jobs of the batch. -/
structure BatchState (α : Type) where
  pool : State
  jobs : Jobs α

section Steps
variable (prog : Nat → Batch)

/-- The thread of job `i` is in `chunk_thread_fn`. -/
def InJob (p : State) (i : Nat) : Prop :=
  i + 1 < (prog p.batch).n ∧ p.worker i = .run ⟨p.batch, i⟩ ∨ i + 1 = (prog p.batch).n ∧ p.caller = .runOwn

/-- A statement of some thread. The caller stays in the call: it does not go on to its next batch and does not destroy the
pool. -/
inductive BatchStep : BatchState α → BatchState α → Prop where
  | pool (w : BatchState α) (p : State) (h : Step prog w.pool p)
      (hstay : p.batch = w.pool.batch ∧ p.caller ≠ .lockDestroy)
      (hdone : ∀ i, InJob prog w.pool i → ¬InJob prog p i → ∃ q, w.jobs.pc i = .done q) :
    BatchStep w { w with pool := p }
  | job (w : BatchState α) (i : Nat) (j : Jobs α) (hin : InJob prog w.pool i) (h : JobStep i w.jobs j) :
    BatchStep w { w with jobs := j }

/-- A thread wakes on its own. -/
inductive BatchWake : BatchState α → BatchState α → Prop where
  | wake (w : BatchState α) (p : State) (h : Spurious w.pool p) : BatchWake w { w with pool := p }

/-- A run of `k` statements and `r` spurious wake-ups. -/
inductive JobsRun : Nat → Nat → BatchState α → BatchState α → Prop where
  | start (w : BatchState α) : JobsRun 0 0 w w
  | step {k r : Nat} {w t u : BatchState α} (h : JobsRun k r w t) (hst : BatchStep prog t u) : JobsRun (k + 1) r w u
  | wake {k r : Nat} {w t u : BatchState α} (h : JobsRun k r w t) (hst : BatchWake t u) : JobsRun k (r + 1) w u

end Steps

/-! ## The invariant -/

/-- Batch `b`, whose jobs started in `s`. -/
structure BatchInv (H : PoseHash α) (prog : Nat → Batch) (b : Nat) (s : RegionState α) (w : BatchState α) : Prop where
  reach : Reachable prog w.pool
  batch : w.pool.batch = b
  stays : w.pool.caller.destroys = false
  jobs : JobsInv H s (prog b).n w.jobs
  finished : ∀ i, ⟨b, i⟩ ∈ w.pool.finished → ∃ q, w.jobs.pc i = .done q
  own : ∀ i, i + 1 = (prog b).n → w.pool.caller.ranOwn = true → ∃ q, w.jobs.pc i = .done q

section Invariant
variable {H : PoseHash α} {prog : Nat → Batch} {b i : Nat} {s : RegionState α} {w w' : BatchState α} {p : State}

theorem InJob.lt (h : InJob prog p i) : i < (prog p.batch).n := by
  rcases h with ⟨hi, -⟩ | ⟨hi, -⟩ <;> omega

theorem BatchInv.start (h : Reachable prog p) (hidle : p.caller = .idle) :
    BatchInv H prog p.batch s ⟨p, Jobs.start H s⟩ where
  reach := h
  batch := rfl
  stays := by
    rw [hidle]
    rfl
  jobs := .start
  finished i hi := by
    obtain ⟨-, hlt | ⟨-, hlt, -⟩⟩ := (h.invariant.logs.finished _).mp hi
    · exact absurd hlt (lt_irrefl _)
    · rw [hidle] at hlt
      exact absurd hlt (Nat.not_lt_zero _)
  own i _ hran := by
    rw [hidle] at hran
    cases hran

/-- A statement of the pool: whoever leaves `chunk_thread_fn` has finished its job. -/
theorem BatchInv.pool (hs : BatchInv H prog b s w) (h : Step prog w.pool p ∨ Spurious w.pool p)
    (hstay : p.batch = w.pool.batch ∧ p.caller ≠ .lockDestroy)
    (hdone : ∀ i, InJob prog w.pool i → ¬InJob prog p i → ∃ q, w.jobs.pc i = .done q) :
    BatchInv H prog b s { w with pool := p } := by
  have hmoves : Moves w.pool p := h.elim Step.moves Spurious.moves
  refine ⟨hs.reach.step h, hstay.1.trans hs.batch, ?_, hs.jobs, ?_, ?_⟩
  · rw [← Bool.not_eq_true]
    intro hdestroys
    rcases hmoves.destroys hdestroys with hold | hnew
    · rw [hs.stays] at hold
      cases hold
    · exact hstay.2 hnew
  · intro i hi
    rcases hmoves.finished _ hi with hold | ⟨k, hrun, hleft⟩
    · exact hs.finished i hold
    · obtain ⟨hjob, -, hlt, -⟩ := hs.reach.invariant.slots.of_held (congrArg WorkerPc.held hrun)
      have hik : i = k := congrArg Job.slot hjob
      subst hik
      have hbatch := hs.batch
      apply hdone i (.inl ⟨hlt, by rw [hrun, hbatch]⟩)
      rintro (⟨-, hin⟩ | ⟨hn, -⟩)
      · rw [hleft] at hin
        cases hin
      · rw [hstay.1] at hn
        omega
  · intro i hi hran
    rcases hmoves.ranOwn hran with hold | hrun
    · exact hs.own i hi hold
    · have hbatch := hs.batch
      apply hdone i (.inr ⟨by rw [hbatch, hi], hrun⟩)
      rintro (⟨hn, -⟩ | ⟨-, hin⟩)
      · rw [hstay.1, hbatch] at hn
        omega
      · rw [show p.caller = .runOwn from hin] at hran
        cases hran

/-- A thread that wakes on its own was not in `chunk_thread_fn`. -/
theorem BatchInv.wake (hs : BatchInv H prog b s w) (h : BatchWake w w') : BatchInv H prog b s w' := by
  obtain ⟨p, h⟩ := h
  apply hs.pool (.inr h)
  · have hstays := hs.stays
    cases h with
    | caller hpc => exact ⟨rfl, fun h => by cases h⟩
    | worker i hi hpc =>
      refine ⟨rfl, fun h => ?_⟩
      rw [show w.pool.caller = .lockDestroy from h] at hstays
      cases hstays
  · intro i hin hout
    refine absurd ?_ hout
    cases h with
    | caller hpc =>
      rcases hin with hin | ⟨-, hrun⟩
      · exact .inl hin
      · rw [hpc] at hrun
        cases hrun
    | worker k hk hpc =>
      rcases hin with ⟨hlt, hrun⟩ | hin
      · have hik : i ≠ k := by
          rintro rfl
          rw [hpc] at hrun
          cases hrun
        exact .inl ⟨hlt, (Function.update_of_ne hik _ _).trans hrun⟩
      · exact .inr hin

/-- **Every statement of every thread keeps the invariant.** -/
theorem BatchInv.step (hapart : JobsApart s.args (prog b).n) (hs : BatchInv H prog b s w)
    (h : BatchStep prog w w') : BatchInv H prog b s w' := by
  cases h with
  | pool p h hstay hdone => exact hs.pool (.inl h) hstay hdone
  | job i j hin h =>
    have hi : i < (prog b).n := by
      have hlt := hin.lt
      rwa [hs.batch] at hlt
    refine ⟨hs.reach, hs.batch, hs.stays, hs.jobs.step hapart hi h, fun k hk => ?_, fun k hk hran => ?_⟩
    · obtain ⟨q, hq⟩ := hs.finished k hk
      exact ⟨q, h.done_kept hq⟩
    · obtain ⟨q, hq⟩ := hs.own k hk hran
      exact ⟨q, h.done_kept hq⟩

/-- **The barrier**: when the caller gathers the return codes, all jobs are done. -/
theorem BatchInv.collected (hs : BatchInv H prog b s w) (hpc : w.pool.caller = .collect) (hi : i < (prog b).n) :
    ∃ q, w.jobs.pc i = .done q := by
  by_cases hlast : i + 1 = (prog b).n
  · exact hs.own i hlast (by rw [hpc]; rfl)
  · have hinv := hs.reach.invariant
    have hbatch := hs.batch
    have hlt : i < (prog w.pool.batch).n - 1 := by
      rw [hbatch]
      omega
    have hsub : Submitted prog w.pool ⟨w.pool.batch, i⟩ :=
      ⟨Nat.add_lt_of_lt_sub hlt, .inr ⟨rfl, by rw [hpc]; exact hlt⟩⟩
    have hfin := (hinv.logs.of_closed hsub fun _ => hinv.slots.complete (.inr hpc) i hlt).2
    rw [hbatch] at hfin
    exact hs.finished i hfin

theorem JobsRun.inv (hapart : JobsApart s.args (prog b).n) (hs : BatchInv H prog b s w) {k r : Nat}
    (h : JobsRun prog k r w w') : BatchInv H prog b s w' := by
  induction h with
  | start => exact hs
  | step _ hst ih => exact (ih hs).step hapart hst
  | wake _ hst ih => exact (ih hs).wake hst

/-! ## Progress -/

/-- **No deadlock** before the caller gathers the return codes. -/
theorem BatchInv.exists_step (hs : BatchInv H prog b s w) (hpc : w.pool.caller ≠ .collect) :
    ∃ w', BatchStep prog w w' := by
  have hstays := hs.stays
  by_cases hidle : w.pool.caller = .idle
  · refine ⟨_, .pool w _ (.caller (.begin w.pool hidle)) ⟨rfl, ?_⟩ ?_⟩
    · dsimp only
      split <;> exact fun h => by cases h
    · rintro i (hin | ⟨-, hrun⟩) hout
      · exact absurd (.inl hin) hout
      · rw [hidle] at hrun
        cases hrun
  · obtain ⟨p, hp⟩ := progress hs.reach (by
      intro hjoin
      rw [hjoin] at hstays
      cases hstays)
    have hbatch := hp.moves.batch.resolve_right hpc
    have hlock : p.caller ≠ .lockDestroy := by
      intro hnew
      rcases hp.moves.lockDestroy hnew with hold | hold
      · rw [hold] at hstays
        cases hstays
      · exact hidle hold
    by_cases hdone : ∀ i, InJob prog w.pool i → ¬InJob prog p i → ∃ q, w.jobs.pc i = .done q
    · exact ⟨_, .pool w p hp ⟨hbatch, hlock⟩ hdone⟩
    · -- a thread would leave its job: it is the turn of the job
      push Not at hdone
      obtain ⟨i, hin, -, hpci⟩ := hdone
      have hi := hin.lt
      rw [hs.batch] at hi
      obtain ⟨j, hj⟩ := hs.jobs.exists_step hi hpci
      exact ⟨_, .job w i j hin hj⟩

/-! ## The length of a run -/

def BatchState.weight (prog : Nat → Batch) (b : Nat) (w : BatchState α) : Nat :=
  w.pool.weight prog + w.jobs.weight (prog b).n

theorem BatchStep.weight_lt (hapart : JobsApart s.args (prog b).n) (hs : BatchInv H prog b s w)
    (h : BatchStep prog w w') : w'.weight prog b < w.weight prog b := by
  cases h with
  | pool p h hstay hdone =>
    apply Nat.add_lt_add_right
    rcases h with h | ⟨i, hi, h⟩
    · apply h.weight_lt
      intro hpc
      have hbatch := h.collects hpc
      omega
    · exact h.weight_lt hi
  | job i j hin h =>
    apply Nat.add_lt_add_left
    have hi := hin.lt
    rw [hs.batch] at hi
    exact h.weight_lt hs.jobs hapart hi

theorem JobsRun.weight_le (hapart : JobsApart s.args (prog b).n) (hs : BatchInv H prog b s w) {k r : Nat}
    (h : JobsRun prog k r w w') : k + w'.weight prog b ≤ w.weight prog b + 4 * r := by
  induction h with
  | start => omega
  | step h hst ih =>
    have hlt := hst.weight_lt hapart (h.inv hapart hs)
    have hle := ih hs
    omega
  | wake h hst ih =>
    obtain ⟨p, hp⟩ := hst
    have hwake := @Spurious.weight_le prog _ _ hp
    have hle := ih hs
    unfold BatchState.weight at hle ⊢
    dsimp only at hle ⊢
    omega

/-- Some run gets to the caller's `collect`. -/
theorem BatchInv.reaches_collect (hapart : JobsApart s.args (prog b).n) (hs : BatchInv H prog b s w) :
    ∃ k w', JobsRun prog k 0 w w' ∧ w'.pool.caller = .collect := by
  have hrest : ∀ m k t, JobsRun prog k 0 w t → t.weight prog b = m →
      ∃ k' t', JobsRun prog k' 0 w t' ∧ t'.pool.caller = .collect := by
    intro m
    induction m using Nat.strongRecOn with
    | _ m ih =>
      intro k t hrun hm
      by_cases hpc : t.pool.caller = .collect
      · exact ⟨k, t, hrun, hpc⟩
      · have ht := hrun.inv hapart hs
        obtain ⟨u, hu⟩ := ht.exists_step hpc
        exact ih _ (hm ▸ hu.weight_lt hapart ht) (k + 1) u (hrun.step hu) rfl
  exact hrest _ 0 w (.start w) rfl

end Invariant

end PoseDB.Region
