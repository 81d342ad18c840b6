import PoseDB.Region.PoolInvariant
import Mathlib.Algebra.BigOperators.Group.Finset.Basic
import Mathlib.Algebra.Order.BigOperators.Group.Finset

/-!
# Runs of the thread pool

What holds in every reachable state of every run (`Safe`): no job is run twice or by a foreign worker, the wait loop is
left only when all jobs of the batch are finished, and a waiting caller is always going to be woken. The pool never
deadlocks (`progress`), and the length of a batch is bounded (`BatchRun.weight_le`). **`pool_correct`** has all three.
-/

set_option autoImplicit false

namespace PoseDB.ThreadPool

variable {prog : Nat → Batch} {s t : State} {i : Nat}

structure Invariant (prog : Nat → Batch) (s : State) : Prop where
  locks : Locks s
  slots : Slots prog s
  wakes : Wakes s
  logs : Logs prog s

theorem Invariant.init (h : Init s) : Invariant prog s :=
  ⟨Locks.init h, Slots.init h, Wakes.init h, Logs.init h⟩

theorem Invariant.step (hs : Invariant prog s) (h : Step prog s t ∨ Spurious s t) : Invariant prog t := by
  obtain ⟨hl, hsl, hw, hg⟩ := hs
  rcases h with (h | ⟨i, hi, h⟩) | h
  · exact ⟨h.locks hl, h.slots hsl, h.wakes hw, h.logs hsl hg⟩
  · exact ⟨h.locks hl, h.slots hsl, h.wakes hi hw, h.logs hsl hg⟩
  · exact ⟨h.locks hl, h.slots hsl, h.wakes hw, h.logs hg⟩

theorem Reachable.invariant (h : Reachable prog s) : Invariant prog s := by
  unfold Reachable at h
  apply h.inv
  · exact fun _ => Invariant.init
  · exact fun _ _ => Invariant.step

/-! ## Safety -/

/-- A job that the caller has put into its slot, in this batch or an earlier one. -/
def Submitted (prog : Nat → Batch) (s : State) (job : Job) : Prop :=
  job.slot + 1 < (prog job.batch).n ∧ (job.batch < s.batch ∨
    job.batch = s.batch ∧ job.slot < s.caller.submitted (prog s.batch).n)

structure Safe (prog : Nat → Batch) (s : State) : Prop where
  /-- No job is run twice. -/
  once : (s.executed.map Prod.snd).Nodup
  /-- Only submitted jobs are run, each by the worker of its slot. -/
  own : ∀ w job, (w, job) ∈ s.executed → w = job.slot ∧ Submitted prog s job
  /-- A submitted job is in its slot, with its worker, or it has been run. -/
  kept : ∀ job, Submitted prog s job → s.jobs job.slot = some job ∨ (s.worker job.slot).held = some job ∨
    (job.slot, job) ∈ s.executed ∧ job ∈ s.finished
  /-- A held job is one of the batch whose arguments are on the caller's stack. -/
  live : ∀ i job, (s.worker i).held = some job → job = ⟨s.batch, i⟩
  /-- When the wait loop exits, the batch is finished and the pool is empty. -/
  barrier : s.caller = .unlockWait → (∀ i, s.jobs i = none) ∧
    ∀ i, i < (prog s.batch).n - 1 → (i, ⟨s.batch, i⟩) ∈ s.executed ∧ ⟨s.batch, i⟩ ∈ s.finished
  /-- So are all earlier batches. -/
  past : ∀ b i, b < s.batch → i < (prog b).n - 1 → (i, ⟨b, i⟩) ∈ s.executed ∧ ⟨b, i⟩ ∈ s.finished
  done_le : s.nDone ≤ s.nExpected
  /-- A caller that waits for jobs waits for a worker that has one, or has one pending and is not asleep. -/
  no_lost_wakeup : s.caller = .waiting → s.nDone < s.nExpected → ∃ i, i < (prog s.batch).n - 1 ∧
    ((s.worker i).held = some ⟨s.batch, i⟩ ∨
      s.jobs i = some ⟨s.batch, i⟩ ∧ s.worker i ≠ .waiting ∧ s.worker i ≠ .exited)
  /-- A caller that waits for no job is about to be signalled. -/
  signal_due : s.caller = .waiting → s.nExpected ≤ s.nDone → ∃ i, i < poolWorkers ∧ s.worker i = .signal

theorem Logs.once (hs : Logs prog s) : (s.executed.map Prod.snd).Nodup := by
  apply List.Nodup.map_on _ hs.executed_nodup
  rintro ⟨w, job⟩ hx ⟨w', job'⟩ hy (hjob : job = job')
  have hw := ((hs.executed w job).mp hx).1
  have hw' := ((hs.executed w' job').mp hy).1
  rw [hw, hw', hjob]

theorem Passed.submitted {p : WorkerPc → Bool} {job : Job} (h : Passed prog s p job) : Submitted prog s job := by
  obtain ⟨hn, h | ⟨hb, hi, -⟩⟩ := h
  · exact ⟨hn, .inl h⟩
  · exact ⟨hn, .inr ⟨hb, hi⟩⟩

/-- A job that is neither in its slot nor held has passed every stage. -/
theorem Submitted.passed {job : Job} {p : WorkerPc → Bool} (h : Submitted prog s job)
    (hjob : job.batch = s.batch → s.jobs job.slot = none ∧ p (s.worker job.slot) = false) : Passed prog s p job := by
  obtain ⟨hn, h | ⟨hb, hi⟩⟩ := h
  · exact ⟨hn, .inl h⟩
  · exact ⟨hn, .inr ⟨hb, hi, hjob hb⟩⟩

theorem Logs.of_closed (hs : Logs prog s) {job : Job} (h : Submitted prog s job)
    (hjob : job.batch = s.batch → s.jobs job.slot = none ∧ (s.worker job.slot).held = none) :
    (job.slot, job) ∈ s.executed ∧ job ∈ s.finished := by
  constructor
  · apply (hs.executed _ _).mpr
    exact ⟨rfl, h.passed fun hb => ⟨(hjob hb).1, WorkerPc.starting_of_held (hjob hb).2⟩⟩
  · apply (hs.finished _).mpr
    exact h.passed fun hb => ⟨(hjob hb).1, WorkerPc.running_of_held (hjob hb).2⟩

/-- The caller waits only for jobs that some worker has or can take. -/
theorem Invariant.no_lost_wakeup (hs : Invariant prog s) (hpc : s.caller = .waiting) (hlt : s.nDone < s.nExpected) :
    ∃ i, i < (prog s.batch).n - 1 ∧ ((s.worker i).held = some ⟨s.batch, i⟩ ∨
      s.jobs i = some ⟨s.batch, i⟩ ∧ s.worker i ≠ .waiting ∧ s.worker i ≠ .exited) := by
  have hn := hs.slots.shared (by rw [hpc]; rfl)
  obtain ⟨hexp, hdone⟩ := hs.slots.counts (by rw [hpc]; rfl) hn
  rw [hpc] at hdone
  rw [hdone, hexp] at hlt
  obtain ⟨i, hi, hopen⟩ := exists_open hlt
  refine ⟨i, hi, ?_⟩
  cases hheld : (s.worker i).held with
  | some job =>
    left
    rw [(hs.slots.held i job hheld).1]
  | none =>
    right
    cases hjob : s.jobs i with
    | none => simp [closed, hheld, hjob] at hopen
    | some job =>
      refine ⟨by rw [(hs.slots.jobs i job hjob).1], ?_, ?_⟩
      · intro hw
        rcases hs.wakes.worker i hw with h | h
        · rw [h] at hjob
          cases hjob
        · rw [hpc] at h
          cases h
      · intro hw
        have hshut := hs.wakes.destroying (hs.wakes.leaving i (.inr hw))
        simp [hpc] at hshut

theorem Invariant.safe (hs : Invariant prog s) : Safe prog s where
  once := hs.logs.once
  own w job h := by
    obtain ⟨hw, hpass⟩ := (hs.logs.executed w job).mp h
    exact ⟨hw, hpass.submitted⟩
  kept job h := by
    by_cases hb : job.batch = s.batch
    · cases hjob : s.jobs job.slot with
      | some job' =>
        left
        rw [(hs.slots.jobs _ job' hjob).1, ← hb]
      | none =>
        right
        cases hheld : (s.worker job.slot).held with
        | some job' =>
          left
          rw [(hs.slots.held _ job' hheld).1, ← hb]
        | none => exact .inr (hs.logs.of_closed h fun _ => ⟨hjob, hheld⟩)
    · exact .inr (.inr (hs.logs.of_closed h fun h => absurd h hb))
  live i job h := (hs.slots.held i job h).1
  barrier hpc := by
    have hclosed := hs.slots.complete (.inl hpc)
    constructor
    · intro i
      apply Option.eq_none_iff_forall_ne_some.mpr
      intro job hjob
      have hi := (hs.slots.jobs i job hjob).2.1
      rw [hpc] at hi
      rw [(hclosed i hi).1] at hjob
      cases hjob
    · intro i hi
      have hsub : Submitted prog s ⟨s.batch, i⟩ := ⟨Nat.add_lt_of_lt_sub hi, .inr ⟨rfl, by rw [hpc]; exact hi⟩⟩
      exact hs.logs.of_closed hsub fun _ => hclosed i hi
  past b i hb hi := by
    have hsub : Submitted prog s ⟨b, i⟩ := ⟨Nat.add_lt_of_lt_sub hi, .inl hb⟩
    exact hs.logs.of_closed hsub fun h => absurd h hb.ne
  done_le := hs.slots.done_le
  no_lost_wakeup := hs.no_lost_wakeup
  signal_due hpc hle := (hs.wakes.caller hpc).resolve_left (not_lt.mpr hle)

/-! ## Progress -/

theorem WorkerStep.of_locked (hs : Wakes s) (h : (s.worker i).locked = true) : ∃ t, WorkerStep i s t := by
  cases hpc : s.worker i with
  | check =>
    by_cases hwork : s.shutdown = false ∧ s.jobs i = none
    · exact ⟨_, .sleep s hpc hwork⟩
    · exact ⟨_, .awake s hpc hwork⟩
  | take =>
    cases hshut : s.shutdown with
    | true => exact ⟨_, .leave s hpc hshut⟩
    | false =>
      obtain ⟨job, hjob⟩ := Option.ne_none_iff_exists'.mp
        ((hs.ready i hpc).resolve_left (by rw [hshut]; exact Bool.false_ne_true))
      exact ⟨_, .take s job hpc hshut hjob⟩
  | unlockRun job => exact ⟨_, .unlockRun s job hpc⟩
  | count job => exact ⟨_, .count s job hpc⟩
  | signal => exact ⟨_, .signal s hpc⟩
  | unlockExit => exact ⟨_, .unlockExit s hpc⟩
  | _ => rw [hpc] at h; cases h

/-- Neither is a worker that has a job, or that can see one, while the mutex is free. -/
theorem WorkerStep.of_free (hm : s.mutex = none) (hl : Locks s)
    (h : (s.worker i).held ≠ none ∨ s.worker i ≠ .waiting ∧ s.worker i ≠ .exited) : ∃ t, WorkerStep i s t := by
  have hunlocked : (s.worker i).locked ≠ true := by
    intro hlocked
    rw [← hl.worker i, hm] at hlocked
    cases hlocked
  cases hpc : s.worker i with
  | lock => exact ⟨_, .lock s hpc hm⟩
  | reacquire => exact ⟨_, .reacquire s hpc hm⟩
  | run job => exact ⟨_, .run s job hpc⟩
  | lockDone job => exact ⟨_, .lockDone s job hpc hm⟩
  | waiting | exited => simp [hpc, WorkerPc.held] at h
  | _ => simp [hpc, WorkerPc.locked] at hunlocked

theorem CallerStep.of_locked (h : s.caller.locked = true) : ∃ t, CallerStep prog s t := by
  cases hpc : s.caller with
  | setDone => exact ⟨_, .setDone s hpc⟩
  | setExpected => exact ⟨_, .setExpected s hpc⟩
  | submit i =>
    by_cases hi : i < (prog s.batch).n - 1
    · exact ⟨_, .submit s i hpc hi⟩
    · exact ⟨_, .submitted s i hpc hi⟩
  | broadcast => exact ⟨_, .broadcast s hpc⟩
  | unlockSubmit => exact ⟨_, .unlockSubmit s hpc⟩
  | check =>
    by_cases hlt : s.nDone < s.nExpected
    · exact ⟨_, .wait s hpc hlt⟩
    · exact ⟨_, .waited s hpc hlt⟩
  | unlockWait => exact ⟨_, .unlockWait s hpc⟩
  | setShutdown => exact ⟨_, .setShutdown s hpc⟩
  | wakeAll => exact ⟨_, .wakeAll s hpc⟩
  | unlockDestroy => exact ⟨_, .unlockDestroy s hpc⟩
  | _ => rw [hpc] at h; cases h

/-- A caller that does not wait has a statement to run while the mutex is free. -/
theorem CallerStep.of_free (hm : s.mutex = none) (hl : s.caller.locked = false) (hw : s.caller ≠ .waiting)
    (hj : s.caller ≠ .joining) : ∃ t, CallerStep prog s t := by
  cases hpc : s.caller with
  | idle => exact ⟨_, .begin s hpc⟩
  | lockSubmit => exact ⟨_, .lockSubmit s hpc hm⟩
  | runOwn => exact ⟨_, .runOwn s hpc⟩
  | lockWait => exact ⟨_, .lockWait s hpc hm⟩
  | reacquire => exact ⟨_, .reacquire s hpc hm⟩
  | collect => exact ⟨_, .collect s hpc⟩
  | lockDestroy => exact ⟨_, .lockDestroy s hpc hm⟩
  | waiting => exact absurd hpc hw
  | joining => exact absurd hpc hj
  | _ => rw [hpc] at hl; cases hl

theorem Invariant.worker_lt (hs : Invariant prog s) (h : (s.worker i).locked = true) : i < poolWorkers := by
  by_contra hi
  rw [hs.wakes.parked i (not_lt.mp hi)] at h
  cases h

theorem Batch.slot_lt {b : Batch} (h : i < b.n - 1) : i < poolWorkers := by
  have hle := b.le
  unfold poolWorkers
  omega

/-- **No deadlock**: until it joins the workers of a destroyed pool, some thread can run its next statement without a
spurious wake-up. -/
theorem progress (h : Reachable prog s) (hj : s.caller ≠ .joining) : ∃ t, Step prog s t := by
  have hs := h.invariant
  have hworker : ∀ i, i < poolWorkers → (∃ t, WorkerStep i s t) → ∃ t, Step prog s t :=
    fun i hi ⟨t, ht⟩ => ⟨t, .worker i hi ht⟩
  have hcaller : (∃ t, CallerStep prog s t) → ∃ t, Step prog s t := fun ⟨t, ht⟩ => ⟨t, .caller ht⟩
  cases hm : s.mutex with
  | some tid =>
    cases tid with
    | caller => exact hcaller (CallerStep.of_locked (hs.locks.caller.mp hm))
    | worker i =>
      have hlocked := (hs.locks.worker i).mp hm
      exact hworker i (hs.worker_lt hlocked) (WorkerStep.of_locked hs.wakes hlocked)
  | none =>
    by_cases hw : s.caller = .waiting
    · rcases hs.wakes.caller hw with hlt | ⟨i, hi, hsig⟩
      · obtain ⟨i, hi, hjob⟩ := hs.no_lost_wakeup hw hlt
        apply hworker i (Batch.slot_lt hi)
        apply WorkerStep.of_free hm hs.locks
        exact hjob.imp (fun h => by simp [h]) fun h => h.2
      · exact hworker i hi ⟨_, .signal s hsig⟩
    · apply hcaller
      apply CallerStep.of_free hm _ hw hj
      by_contra hlocked
      rw [Bool.not_eq_false, ← hs.locks.caller, hm] at hlocked
      cases hlocked

/-! ## The length of a batch -/

/-- How many statements a worker can still run before it sleeps. -/
def WorkerPc.weight : WorkerPc → Nat
  | .exited | .waiting => 0
  | .unlockExit => 1
  | .take => 2
  | .check => 3
  | .lock | .reacquire => 4
  | .signal => 6
  | .count _ => 7
  | .lockDone _ => 8
  | .run _ => 9
  | .unlockRun _ => 10

/-- The same for a batch of `n` chunks of the caller, with what its wake-ups and submissions add to the workers. -/
def CallerPc.weight (n : Nat) : CallerPc → Nat
  | .joining => 0
  | .unlockDestroy | .collect => 1
  | .unlockWait => 2
  | .waiting => 3
  | .check => 4
  | .reacquire => 5
  | .lockWait => 6
  | .runOwn => 7
  | .unlockSubmit => 8
  | .wakeAll => 14
  | .setShutdown => 15
  | .lockDestroy => 16
  | .broadcast => 21
  | .submit i => 22 + 10 * (n - 1 - i)
  | .setExpected => 23 + 10 * (n - 1)
  | .setDone => 24 + 10 * (n - 1)
  | .lockSubmit => 25 + 10 * (n - 1)
  | .idle => 26 + 10 * (n - 1)

def slotWeight (jobs : Nat → Option Job) (worker : Nat → WorkerPc) (i : Nat) : Nat :=
  (worker i).weight + if jobs i = none then 0 else 9

def poolWeight (jobs : Nat → Option Job) (worker : Nat → WorkerPc) : Nat :=
  ∑ i ∈ Finset.range poolWorkers, slotWeight jobs worker i

def State.weight (prog : Nat → Batch) (s : State) : Nat :=
  s.caller.weight (prog s.batch).n + poolWeight s.jobs s.worker

section Weight

variable {jobs jobs' : Nat → Option Job} {worker worker' : Nat → WorkerPc}

theorem WorkerPc.weight_wake (pc : WorkerPc) : pc.wake.weight ≤ pc.weight + 4 := by
  cases pc <;> simp [WorkerPc.wake, WorkerPc.weight]

theorem CallerPc.weight_wake (n : Nat) (pc : CallerPc) : pc.wake.weight n ≤ pc.weight n + 2 := by
  cases pc <;> simp [CallerPc.wake, CallerPc.weight]

/-- Only slot `i` changes, by `a` down and `b` up. -/
theorem poolWeight_change (hi : i < poolWorkers) (h : ∀ j, j ≠ i → slotWeight jobs' worker' j = slotWeight jobs worker j) :
    poolWeight jobs' worker' + slotWeight jobs worker i = poolWeight jobs worker + slotWeight jobs' worker' i := by
  have hmem : i ∈ Finset.range poolWorkers := Finset.mem_range.mpr hi
  have hrest : ∑ j ∈ (Finset.range poolWorkers).erase i, slotWeight jobs' worker' j =
      ∑ j ∈ (Finset.range poolWorkers).erase i, slotWeight jobs worker j := by
    apply Finset.sum_congr rfl
    intro j hj
    exact h j (Finset.ne_of_mem_erase hj)
  unfold poolWeight
  rw [← Finset.add_sum_erase _ _ hmem, ← Finset.add_sum_erase _ (slotWeight jobs worker) hmem, hrest]
  omega

theorem poolWeight_wake : poolWeight jobs (fun i => (worker i).wake) ≤ poolWeight jobs worker + 12 := by
  have hle : ∀ i ∈ Finset.range poolWorkers,
      slotWeight jobs (fun i => (worker i).wake) i ≤ slotWeight jobs worker i + 4 := by
    intro i _
    exact (Nat.add_le_add_right (worker i).weight_wake _).trans (by unfold slotWeight; omega)
  calc poolWeight jobs (fun i => (worker i).wake)
      ≤ ∑ i ∈ Finset.range poolWorkers, (slotWeight jobs worker i + 4) := Finset.sum_le_sum hle
    _ = poolWeight jobs worker + 12 := by
      rw [Finset.sum_add_distrib, Finset.sum_const, Finset.card_range]
      rfl

theorem poolWeight_move (hi : i < poolWorkers) (pc : WorkerPc) :
    poolWeight jobs (Function.update worker i pc) + (worker i).weight = poolWeight jobs worker + pc.weight := by
  have h : poolWeight jobs (Function.update worker i pc) + slotWeight jobs worker i =
      poolWeight jobs worker + slotWeight jobs (Function.update worker i pc) i := by
    apply poolWeight_change hi
    intro j hj
    unfold slotWeight
    rw [Function.update_of_ne hj]
  simp only [slotWeight, Function.update_self] at h
  omega

theorem poolWeight_lt (hi : i < poolWorkers) {pc pc' : WorkerPc} (hpc : worker i = pc) (h : pc'.weight < pc.weight) :
    poolWeight jobs (Function.update worker i pc') < poolWeight jobs worker := by
  have hmove := @poolWeight_move i jobs worker hi pc'
  rw [hpc] at hmove
  omega

theorem poolWeight_submit (hi : i < poolWorkers) (job : Job) :
    poolWeight (Function.update jobs i (some job)) worker ≤ poolWeight jobs worker + 9 := by
  have h : poolWeight (Function.update jobs i (some job)) worker + slotWeight jobs worker i =
      poolWeight jobs worker + slotWeight (Function.update jobs i (some job)) worker i := by
    apply poolWeight_change hi
    intro j hj
    unfold slotWeight
    rw [Function.update_of_ne hj]
  simp only [slotWeight, Function.update_self, reduceCtorEq, if_false] at h
  omega

theorem poolWeight_take (hi : i < poolWorkers) (hj : jobs i ≠ none) (pc : WorkerPc) :
    poolWeight (Function.update jobs i none) (Function.update worker i pc) + (worker i).weight + 9 =
      poolWeight jobs worker + pc.weight := by
  have h : poolWeight (Function.update jobs i none) (Function.update worker i pc) + slotWeight jobs worker i =
      poolWeight jobs worker + slotWeight (Function.update jobs i none) (Function.update worker i pc) i := by
    apply poolWeight_change hi
    intro j hj
    unfold slotWeight
    rw [Function.update_of_ne hj, Function.update_of_ne hj]
  simp only [slotWeight, Function.update_self, if_true, if_neg hj] at h
  omega

end Weight

/-- Every statement of the caller but the last of a batch lowers the weight. -/
theorem CallerStep.weight_lt (h : CallerStep prog s t) (hc : s.caller ≠ .collect) : t.weight prog < s.weight prog := by
  have hwake : poolWeight s.jobs (fun i => (s.worker i).wake) ≤ poolWeight s.jobs s.worker + 12 := poolWeight_wake
  unfold State.weight
  cases h with
  | begin hpc =>
    simp only [hpc]
    split <;> simp only [CallerPc.weight] <;> omega
  | submit i hpc hi =>
    have hfill := @poolWeight_submit i s.jobs s.worker (Batch.slot_lt hi) ⟨s.batch, i⟩
    simp only [hpc, CallerPc.weight]
    omega
  | submitted i hpc hi =>
    simp only [hpc, CallerPc.weight]
    omega
  | runOwn hpc =>
    simp only [hpc]
    split <;> simp only [CallerPc.weight] <;> omega
  | collect hpc => exact absurd hpc hc
  | _ hpc =>
    simp only [hpc, CallerPc.weight]
    omega

theorem WorkerStep.weight_lt (h : WorkerStep i s t) (hi : i < poolWorkers) : t.weight prog < s.weight prog := by
  unfold State.weight
  cases h with
  | take job hpc h hj =>
    have htake := @poolWeight_take i s.jobs s.worker hi (by simp [hj]) (.unlockRun job)
    simp only [hpc, WorkerPc.weight] at htake ⊢
    omega
  | signal hpc =>
    have hsig := @poolWeight_move i s.jobs s.worker hi .check
    have hwake := s.caller.weight_wake (prog s.batch).n
    rw [hpc] at hsig
    simp only [WorkerPc.weight] at hsig ⊢
    omega
  | count job hpc =>
    apply Nat.add_lt_add_left
    apply poolWeight_lt hi hpc
    split <;> simp [WorkerPc.weight]
  | _ =>
    apply Nat.add_lt_add_left
    apply poolWeight_lt hi (by assumption)
    simp [WorkerPc.weight]

theorem Spurious.weight_le (h : Spurious s t) : t.weight prog ≤ s.weight prog + 4 := by
  unfold State.weight
  cases h with
  | caller hpc =>
    simp only [hpc, CallerPc.weight]
    omega
  | worker i hi hpc =>
    have hmove := @poolWeight_move i s.jobs s.worker hi .reacquire
    rw [hpc] at hmove
    simp only [WorkerPc.weight] at hmove ⊢
    omega

/-- A run of `k` statements and `r` spurious wake-ups, none of which ends a batch. -/
inductive BatchRun (prog : Nat → Batch) : Nat → Nat → State → State → Prop where
  | start (s : State) : BatchRun prog 0 0 s s
  | step {k r : Nat} {s t u : State} (h : BatchRun prog k r s t) (hc : t.caller ≠ .collect) (hst : Step prog t u) :
    BatchRun prog (k + 1) r s u
  | spurious {k r : Nat} {s t u : State} (h : BatchRun prog k r s t) (hst : Spurious t u) :
    BatchRun prog k (r + 1) s u

theorem BatchRun.weight_le {k r : Nat} (h : BatchRun prog k r s t) : k + t.weight prog ≤ s.weight prog + 4 * r := by
  induction h with
  | start => omega
  | step h hc hst ih =>
    rcases hst with h | ⟨i, hi, h⟩
    · have := h.weight_lt hc
      omega
    · have := @WorkerStep.weight_lt prog _ _ i h hi
      omega
  | spurious h hst ih =>
    have := @Spurious.weight_le prog _ _ hst
    omega

/-! ## Every run -/

/-- **The pool is correct** in every reachable state, for every sequence of batches, every interleaving of the caller
and the workers and all spurious wake-ups: it is safe, some thread can go on, and inside a batch the threads run at most
`weight` statements and four more for every spurious wake-up, so that every batch ends. -/
theorem pool_correct (h : Reachable prog s) :
    Safe prog s ∧ (s.caller ≠ .joining → ∃ t, Step prog s t) ∧
      ∀ k r t, BatchRun prog k r s t → k ≤ s.weight prog + 4 * r := by
  refine ⟨h.invariant.safe, progress h, ?_⟩
  intro k r t hrun
  have hle := hrun.weight_le
  omega

def twoChunks : Nat → Batch := fun _ => ⟨.labelRegionPooled, 2, by decide, by decide⟩

def startState : State :=
  { mutex := none, jobs := fun _ => none, nDone := 0, nExpected := 0, shutdown := false, caller := .idle,
    worker := fun _ => .lock, batch := 0, executed := [], finished := [] }

/-- The caller has run its own chunk and waits before worker `0` has taken the mutex for the first time. -/
def waitingState : State :=
  { startState with jobs := Function.update startState.jobs 0 (some ⟨0, 0⟩), nExpected := 1, caller := .waiting }

theorem waitingState_reachable : Reachable twoChunks waitingState := by
  have h : Reachable twoChunks startState :=
    .start ⟨rfl, fun _ => rfl, rfl, rfl, rfl, rfl, fun _ => rfl, rfl, rfl, rfl⟩
  have h := h.step (.inl (.caller (.begin _ rfl)))
  have h := h.step (.inl (.caller (.lockSubmit _ rfl rfl)))
  have h := h.step (.inl (.caller (.setDone _ rfl)))
  have h := h.step (.inl (.caller (.setExpected _ rfl)))
  have h := h.step (.inl (.caller (.submit _ 0 rfl (by decide))))
  have h := h.step (.inl (.caller (.submitted _ 1 rfl (by decide))))
  have h := h.step (.inl (.caller (.broadcast _ rfl)))
  have h := h.step (.inl (.caller (.unlockSubmit _ rfl)))
  have h := h.step (.inl (.caller (.runOwn _ rfl)))
  have h := h.step (.inl (.caller (.lockWait _ rfl rfl)))
  exact h.step (.inl (.caller (.wait _ rfl (by decide))))

theorem pool_correct_waiting : waitingState.caller = .waiting ∧ waitingState.nDone < waitingState.nExpected ∧
    Safe twoChunks waitingState :=
  ⟨rfl, by decide, (pool_correct waitingState_reachable).1⟩

end PoseDB.ThreadPool
