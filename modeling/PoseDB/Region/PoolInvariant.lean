import PoseDB.Region.ThreadPool

/-!
# Invariants of the thread pool

The mutex excludes (`Locks`); a job is in its slot, with the worker of the slot, or counted (`Slots`); a thread that
sleeps has nothing to do or is about to be woken (`Wakes`); the ghosts `executed` and `finished` hold the jobs that left
the first stages (`Logs`). Each group is preserved by every statement of every thread.
-/

set_option autoImplicit false

namespace PoseDB.ThreadPool

variable {prog : Nat → Batch} {s t : State} {i : Nat}

/-! ## Mutual exclusion -/

/-- Between the statements that take and release the mutex. -/
@[grind] def WorkerPc.locked : WorkerPc → Bool
  | .check | .take | .unlockRun _ | .count _ | .signal | .unlockExit => true
  | _ => false

@[grind] def CallerPc.locked : CallerPc → Bool
  | .setDone | .setExpected | .submit _ | .broadcast | .unlockSubmit | .check | .unlockWait | .setShutdown | .wakeAll
  | .unlockDestroy => true
  | _ => false

structure Locks (s : State) : Prop where
  caller : s.mutex = some .caller ↔ s.caller.locked = true
  worker : ∀ i, s.mutex = some (.worker i) ↔ (s.worker i).locked = true

@[grind =] theorem WorkerPc.locked_wake (pc : WorkerPc) : pc.wake.locked = pc.locked := by cases pc <;> rfl

@[grind =] theorem CallerPc.locked_wake (pc : CallerPc) : pc.wake.locked = pc.locked := by cases pc <;> rfl

theorem WorkerPc.wake_cases (pc : WorkerPc) : pc.wake = pc ∧ pc ≠ .waiting ∨ pc.wake = .reacquire ∧ pc = .waiting := by
  cases pc <;> simp [WorkerPc.wake]

theorem CallerPc.wake_cases (pc : CallerPc) : pc.wake = pc ∧ pc ≠ .waiting ∨ pc.wake = .reacquire ∧ pc = .waiting := by
  cases pc <;> simp [CallerPc.wake]

theorem Locks.init (h : Init s) : Locks s := by
  obtain ⟨hm, -, -, -, -, hc, hw, -⟩ := h
  exact ⟨by grind, by grind⟩

theorem CallerStep.locks (h : CallerStep prog s t) (hs : Locks s) : Locks t := by
  obtain ⟨hc, hw⟩ := hs
  cases h <;> exact ⟨by grind, by grind⟩

theorem WorkerStep.locks (h : WorkerStep i s t) (hs : Locks s) : Locks t := by
  obtain ⟨hc, hw⟩ := hs
  cases h <;> exact ⟨by grind, by grind [Function.update_apply]⟩

theorem Spurious.locks (h : Spurious s t) (hs : Locks s) : Locks t := by
  obtain ⟨hc, hw⟩ := hs
  cases h <;> exact ⟨by grind, by grind [Function.update_apply]⟩

/-! ## The slots and the counters -/

@[grind] def WorkerPc.held : WorkerPc → Option Job
  | .unlockRun job | .run job | .lockDone job | .count job => some job
  | _ => none

@[grind =] theorem WorkerPc.held_wake (pc : WorkerPc) : pc.wake.held = pc.held := by cases pc <;> rfl

/-- How many jobs of a batch of `n` chunks the caller has submitted. -/
@[grind] def CallerPc.submitted (n : Nat) : CallerPc → Nat
  | .submit i => i
  | .broadcast | .unlockSubmit | .runOwn | .lockWait | .check | .waiting | .reacquire | .unlockWait | .collect => n - 1
  | _ => 0

@[grind =] theorem CallerPc.submitted_wake (n : Nat) (pc : CallerPc) : pc.wake.submitted n = pc.submitted n := by
  cases pc <;> rfl

/-- The batch is being submitted or waited for, so that the counters belong to it. -/
@[grind] def CallerPc.counting : CallerPc → Bool
  | .submit _ | .broadcast | .unlockSubmit | .runOwn | .lockWait | .check | .waiting | .reacquire | .unlockWait
  | .collect => true
  | _ => false

@[grind =] theorem CallerPc.counting_wake (pc : CallerPc) : pc.wake.counting = pc.counting := by cases pc <;> rfl

theorem CallerPc.counting_of_submitted {n : Nat} {pc : CallerPc} (h : i < pc.submitted n) : pc.counting = true := by
  cases pc <;> first | rfl | cases h

@[grind] def CallerPc.shared : CallerPc → Bool
  | .lockSubmit | .setDone | .setExpected | .submit _ | .broadcast | .unlockSubmit | .lockWait | .check | .waiting
  | .reacquire | .unlockWait => true
  | _ => false

@[grind =] theorem CallerPc.shared_wake (pc : CallerPc) : pc.wake.shared = pc.shared := by cases pc <;> rfl

section Counting

variable {jobs jobs' : Nat → Option Job} {worker worker' : Nat → WorkerPc} {k : Nat}

/-- Slot `i` is empty and its worker holds no job. -/
def closed (jobs : Nat → Option Job) (worker : Nat → WorkerPc) (i : Nat) : Bool :=
  (jobs i).isNone && (worker i).held.isNone

def doneCount (jobs : Nat → Option Job) (worker : Nat → WorkerPc) (k : Nat) : Nat :=
  ((Finset.range k).filter fun i => closed jobs worker i = true).card

@[grind =] theorem closed_iff : closed jobs worker i = true ↔ jobs i = none ∧ (worker i).held = none := by
  simp [closed, Option.isNone_iff_eq_none]

theorem doneCount_congr (h : ∀ i, i < k → closed jobs' worker' i = closed jobs worker i) :
    doneCount jobs' worker' k = doneCount jobs worker k := by
  unfold doneCount
  congr 1
  apply Finset.filter_congr
  intro i hi
  rw [h i (Finset.mem_range.mp hi)]

theorem doneCount_held (h : ∀ i, (worker' i).held = (worker i).held) :
    doneCount jobs worker' k = doneCount jobs worker k := by
  apply doneCount_congr
  intro i _
  unfold closed
  rw [h]

theorem doneCount_le : doneCount jobs worker k ≤ k := by
  unfold doneCount
  have h := Finset.card_filter_le (Finset.range k) fun i => closed jobs worker i = true
  rwa [Finset.card_range] at h

@[simp, grind =] theorem doneCount_zero : doneCount jobs worker 0 = 0 := rfl

theorem doneCount_submit (job : Job) :
    doneCount (Function.update jobs k (some job)) worker (k + 1) = doneCount jobs worker k := by
  have hk : closed (Function.update jobs k (some job)) worker k = false := by simp [closed]
  have hlt : doneCount (Function.update jobs k (some job)) worker k = doneCount jobs worker k := by
    apply doneCount_congr
    intro i hi
    unfold closed
    rw [Function.update_of_ne hi.ne]
  rw [← hlt]
  unfold doneCount
  rw [Finset.range_add_one, Finset.filter_insert, if_neg (by simp [hk])]

theorem doneCount_take {job : Job} {pc : WorkerPc} (hi : jobs i ≠ none) (hpc : pc.held = some job) :
    doneCount (Function.update jobs i none) (Function.update worker i pc) k = doneCount jobs worker k := by
  apply doneCount_congr
  intro j _
  by_cases hj : j = i
  · subst hj
    simp [closed, hpc, Option.isNone_iff_eq_none, hi]
  · simp [closed, hj]

theorem doneCount_close {pc : WorkerPc} (hi : i < k) (hw : (worker i).held ≠ none) (hj : jobs i = none)
    (hpc : pc.held = none) : doneCount jobs (Function.update worker i pc) k = doneCount jobs worker k + 1 := by
  have hset : (Finset.range k).filter (fun j => closed jobs (Function.update worker i pc) j = true) =
      insert i ((Finset.range k).filter fun j => closed jobs worker j = true) := by
    ext j
    rw [Finset.mem_insert, Finset.mem_filter, Finset.mem_filter, Finset.mem_range]
    by_cases hji : j = i
    · subst hji
      simp [closed, hi, hj, hpc]
    · simp [closed, hji]
  unfold doneCount
  rw [hset, Finset.card_insert_of_notMem]
  simp [closed, Option.isNone_iff_eq_none, hw]

theorem closed_of_doneCount (h : k ≤ doneCount jobs worker k) (hi : i < k) : closed jobs worker i = true := by
  have hsub : (Finset.range k).filter (fun j => closed jobs worker j = true) = Finset.range k := by
    apply Finset.eq_of_subset_of_card_le (Finset.filter_subset _ _)
    rwa [Finset.card_range]
  have hmem : i ∈ (Finset.range k).filter fun j => closed jobs worker j = true := by
    rw [hsub]
    exact Finset.mem_range.mpr hi
  exact (Finset.mem_filter.mp hmem).2

theorem exists_open (h : doneCount jobs worker k < k) : ∃ i, i < k ∧ closed jobs worker i = false := by
  by_contra hall
  push Not at hall
  have hk : (Finset.range k).filter (fun j => closed jobs worker j = true) = Finset.range k := by
    apply Finset.filter_true_of_mem
    intro i hi
    simpa using hall i (Finset.mem_range.mp hi)
  unfold doneCount at h
  rw [hk, Finset.card_range] at h
  exact lt_irrefl k h

end Counting

/-- Where the jobs of the current batch are, and what the counters say. -/
structure Slots (prog : Nat → Batch) (s : State) : Prop where
  jobs : ∀ i j, s.jobs i = some j →
    j = ⟨s.batch, i⟩ ∧ i < s.caller.submitted (prog s.batch).n ∧ (s.worker i).held = none
  held : ∀ i j, (s.worker i).held = some j → j = ⟨s.batch, i⟩ ∧ i < s.caller.submitted (prog s.batch).n
  submitted : s.caller.submitted (prog s.batch).n ≤ (prog s.batch).n - 1
  shared : s.caller.shared = true → 1 < (prog s.batch).n
  reset : s.caller = .setExpected → s.nDone = 0
  counts : s.caller.counting = true → 1 < (prog s.batch).n →
    s.nExpected = (prog s.batch).n - 1 ∧ s.nDone = doneCount s.jobs s.worker (s.caller.submitted (prog s.batch).n)
  done_le : s.nDone ≤ s.nExpected
  complete : s.caller = .unlockWait ∨ s.caller = .collect →
    ∀ i, i < (prog s.batch).n - 1 → s.jobs i = none ∧ (s.worker i).held = none

theorem Slots.init (h : Init s) : Slots prog s := by
  obtain ⟨-, hj, hd, he, -, hc, hw, -⟩ := h
  refine ⟨?_, ?_, ?_, ?_, ?_, ?_, ?_, ?_⟩ <;> grind

theorem Slots.of_held (hs : Slots prog s) {job : Job} (h : (s.worker i).held = some job) :
    job = ⟨s.batch, i⟩ ∧ i < s.caller.submitted (prog s.batch).n ∧ i + 1 < (prog s.batch).n ∧ s.jobs i = none := by
  obtain ⟨hjob, hi⟩ := hs.held i job h
  refine ⟨hjob, hi, by have := hs.submitted; omega, ?_⟩
  apply Option.eq_none_iff_forall_ne_some.mpr
  intro job' hjob'
  rw [(hs.jobs i job' hjob').2.2] at h
  cases h

/-- A statement that leaves the jobs alone: what it owes is the counters and what its own place in the code says. -/
theorem Slots.frame (hs : Slots prog s) (hjobs : t.jobs = s.jobs) (hheld : ∀ i, (t.worker i).held = (s.worker i).held)
    (hbatch : t.batch = s.batch) (hsub : t.caller.submitted (prog s.batch).n = s.caller.submitted (prog s.batch).n)
    (hshared : t.caller.shared = true → 1 < (prog s.batch).n) (hreset : t.caller = .setExpected → t.nDone = 0)
    (hcounts : t.caller.counting = true → 1 < (prog s.batch).n → t.nExpected = (prog s.batch).n - 1 ∧
      t.nDone = doneCount s.jobs s.worker (s.caller.submitted (prog s.batch).n))
    (hle : t.nDone ≤ t.nExpected)
    (hcomplete : t.caller = .unlockWait ∨ t.caller = .collect →
      ∀ i, i < (prog s.batch).n - 1 → s.jobs i = none ∧ (s.worker i).held = none) : Slots prog t := by
  refine ⟨?_, ?_, ?_, ?_, hreset, ?_, hle, ?_⟩
  · rw [hjobs, hbatch, hsub]
    intro i j hj
    rw [hheld]
    exact hs.jobs i j hj
  · rw [hbatch, hsub]
    intro i j hj
    rw [hheld] at hj
    exact hs.held i j hj
  · rw [hbatch, hsub]
    exact hs.submitted
  · rw [hbatch]
    exact hshared
  · rw [hbatch, hsub, hjobs, doneCount_held hheld]
    exact hcounts
  · rw [hbatch, hjobs]
    intro hc i hi
    rw [hheld]
    exact hcomplete hc i hi

theorem held_move {pc : WorkerPc} (hpc : pc.held = (s.worker i).held) (j : Nat) :
    (Function.update s.worker i pc j).held = (s.worker j).held := by
  by_cases hj : j = i
  · rw [hj, Function.update_self, hpc]
  · rw [Function.update_of_ne hj]

theorem Slots.move (hs : Slots prog s) {pc : WorkerPc} (hpc : pc.held = (s.worker i).held) (m : Option Tid)
    (e : List (Nat × Job)) (f : List Job) :
    Slots prog { s with mutex := m, worker := Function.update s.worker i pc, executed := e, finished := f } :=
  hs.frame rfl (held_move hpc) rfl rfl hs.shared hs.reset hs.counts hs.done_le hs.complete

theorem Slots.goto (hs : Slots prog s) (c : CallerPc) {worker : Nat → WorkerPc}
    (hheld : ∀ i, (worker i).held = (s.worker i).held)
    (hsub : c.submitted (prog s.batch).n = s.caller.submitted (prog s.batch).n)
    (hshared : c.shared = true → 1 < (prog s.batch).n) (hreset : c ≠ .setExpected)
    (hcounting : c.counting = true → 1 < (prog s.batch).n → s.caller.counting = true)
    (hcomplete : c = .unlockWait ∨ c = .collect →
      ∀ i, i < (prog s.batch).n - 1 → s.jobs i = none ∧ (s.worker i).held = none) (m : Option Tid) (b : Bool) :
    Slots prog { s with mutex := m, caller := c, worker := worker, shutdown := b } :=
  hs.frame rfl hheld rfl hsub hshared (fun h => absurd h hreset) (fun h hn => hs.counts (hcounting h hn) hn)
    hs.done_le hcomplete

theorem Slots.submit (hs : Slots prog s) (hpc : s.caller = .submit i) (hi : i < (prog s.batch).n - 1) :
    Slots prog { s with jobs := Function.update s.jobs i (some ⟨s.batch, i⟩), caller := .submit (i + 1) } := by
  obtain ⟨hj, hh, hsub, hsh, -, hc, hd, -⟩ := hs
  rw [hpc] at hj hh
  have hfree : (s.worker i).held = none := by
    apply Option.eq_none_iff_forall_ne_some.mpr
    intro job hjob
    exact lt_irrefl i (hh i job hjob).2
  refine ⟨?_, ?_, hi, fun _ => (by omega : 1 < (prog s.batch).n), nofun, ?_, hd, nofun⟩
  · dsimp only
    intro k j hk
    by_cases hki : k = i
    · subst hki
      rw [Function.update_self] at hk
      exact ⟨(Option.some.inj hk).symm, Nat.lt_succ_self k, hfree⟩
    · rw [Function.update_of_ne hki] at hk
      obtain ⟨h1, h2, h3⟩ := hj k j hk
      exact ⟨h1, Nat.lt_succ_of_lt h2, h3⟩
  · intro k j hk
    obtain ⟨h1, h2⟩ := hh k j hk
    exact ⟨h1, Nat.lt_succ_of_lt h2⟩
  · intro _ hn
    have hcount := hc (by rw [hpc]; rfl) hn
    rw [hpc] at hcount
    exact ⟨hcount.1, hcount.2.trans (doneCount_submit _).symm⟩

theorem Slots.collect (hs : Slots prog s) (hpc : s.caller = .collect) :
    Slots prog { s with batch := s.batch + 1, caller := .idle } := by
  have hclosed := hs.complete (.inr hpc)
  have hlt : ∀ k, k < s.caller.submitted (prog s.batch).n → k < (prog s.batch).n - 1 := by
    rw [hpc]
    exact fun k h => h
  refine ⟨?_, ?_, Nat.zero_le _, nofun, nofun, nofun, hs.done_le, nofun⟩
  · dsimp only
    intro k j hk
    have hnone := (hclosed k (hlt k (hs.jobs k j hk).2.1)).1
    rw [show s.jobs k = some j from hk] at hnone
    cases hnone
  · dsimp only
    intro k j hk
    have hnone := (hclosed k (hlt k (hs.held k j hk).2)).2
    rw [show (s.worker k).held = some j from hk] at hnone
    cases hnone

theorem CallerStep.slots (h : CallerStep prog s t) (hs : Slots prog s) : Slots prog t := by
  have hsh := hs.shared
  have hheld : ∀ i, (s.worker i).held = (s.worker i).held := fun _ => rfl
  cases h with
  | begin hpc =>
    by_cases hn : 1 < (prog s.batch).n
    · rw [if_pos hn]
      exact hs.goto .lockSubmit hheld (by rw [hpc]; rfl) (fun _ => hn) nofun nofun nofun _ _
    · rw [if_neg hn]
      refine hs.goto .runOwn hheld ?_ nofun nofun (fun _ h => absurd h hn) nofun _ _
      rw [hpc]
      show (prog s.batch).n - 1 = 0
      omega
  | lockSubmit hpc =>
    exact hs.goto .setDone hheld (by rw [hpc]; rfl) (fun _ => hsh (by rw [hpc]; rfl)) nofun nofun nofun _ _
  | setDone hpc =>
    exact hs.frame rfl hheld rfl (by rw [hpc]; rfl) (fun _ => hsh (by rw [hpc]; rfl)) (fun _ => rfl) nofun
      (Nat.zero_le _) nofun
  | setExpected hpc =>
    have hzero := hs.reset hpc
    refine hs.frame rfl hheld rfl (by rw [hpc]; rfl) (fun _ => hsh (by rw [hpc]; rfl)) nofun (fun _ _ => ⟨rfl, ?_⟩)
      (hzero.trans_le (Nat.zero_le _)) nofun
    rw [hpc]
    exact hzero
  | submit i hpc hi => exact hs.submit hpc hi
  | submitted i hpc hi =>
    have hle := hs.submitted
    have hmax : i = (prog s.batch).n - 1 := by
      rw [hpc] at hle
      exact Nat.le_antisymm hle (not_lt.mp hi)
    exact hs.goto .broadcast hheld (by rw [hpc]; exact hmax.symm) (fun _ => hsh (by rw [hpc]; rfl)) nofun
      (fun _ _ => by rw [hpc]; rfl) nofun _ _
  | broadcast hpc =>
    exact hs.goto .unlockSubmit (fun _ => WorkerPc.held_wake _) (by rw [hpc]; rfl) (fun _ => hsh (by rw [hpc]; rfl)) nofun
      (fun _ _ => by rw [hpc]; rfl) nofun _ _
  | unlockSubmit hpc =>
    exact hs.goto .runOwn hheld (by rw [hpc]; rfl) nofun nofun (fun _ _ => by rw [hpc]; rfl) nofun _ _
  | runOwn hpc =>
    by_cases hn : 1 < (prog s.batch).n
    · rw [if_pos hn]
      exact hs.goto .lockWait hheld (by rw [hpc]; rfl) (fun _ => hn) nofun (fun _ _ => by rw [hpc]; rfl) nofun _ _
    · rw [if_neg hn]
      exact hs.goto .collect hheld (by rw [hpc]; rfl) nofun nofun (fun _ h => absurd h hn) (fun _ i hi => by omega) _ _
  | lockWait hpc | reacquire hpc =>
    exact hs.goto .check hheld (by rw [hpc]; rfl) (fun _ => hsh (by rw [hpc]; rfl)) nofun
      (fun _ _ => by rw [hpc]; rfl) nofun _ _
  | wait hpc =>
    exact hs.goto .waiting hheld (by rw [hpc]; rfl) (fun _ => hsh (by rw [hpc]; rfl)) nofun
      (fun _ _ => by rw [hpc]; rfl) nofun _ _
  | waited hpc h =>
    have hn := hsh (by rw [hpc]; rfl)
    have hcount := hs.counts (by rw [hpc]; rfl) hn
    rw [hpc] at hcount
    have hfull : (prog s.batch).n - 1 ≤ doneCount s.jobs s.worker ((prog s.batch).n - 1) := by
      rw [← hcount.1]
      exact (not_lt.mp h).trans (hcount.1 ▸ hcount.2.le)
    exact hs.goto .unlockWait hheld (by rw [hpc]; rfl) (fun _ => hn) nofun (fun _ _ => by rw [hpc]; rfl)
      (fun _ i hi => closed_iff.mp (closed_of_doneCount hfull hi)) _ _
  | unlockWait hpc =>
    exact hs.goto .collect hheld (by rw [hpc]; rfl) nofun nofun (fun _ _ => by rw [hpc]; rfl)
      (fun _ => hs.complete (.inl hpc)) _ _
  | collect hpc => exact hs.collect hpc
  | destroy hpc => exact hs.goto .lockDestroy hheld (by rw [hpc]; rfl) nofun nofun nofun nofun _ _
  | lockDestroy hpc => exact hs.goto .setShutdown hheld (by rw [hpc]; rfl) nofun nofun nofun nofun _ _
  | setShutdown hpc => exact hs.goto .wakeAll hheld (by rw [hpc]; rfl) nofun nofun nofun nofun _ _
  | unlockDestroy hpc => exact hs.goto .joining hheld (by rw [hpc]; rfl) nofun nofun nofun nofun _ _
  | wakeAll hpc =>
    exact hs.goto .unlockDestroy (fun _ => WorkerPc.held_wake _) (by rw [hpc]; rfl) nofun nofun nofun nofun _ _

theorem Slots.take (hs : Slots prog s) {job : Job} (hji : s.jobs i = some job) :
    Slots prog { s with
      jobs := Function.update s.jobs i none, worker := Function.update s.worker i (.unlockRun job) } := by
  obtain ⟨hjob, hi, -⟩ := hs.jobs i job hji
  refine ⟨?_, ?_, hs.submitted, hs.shared, hs.reset, ?_, hs.done_le, ?_⟩
  · dsimp only
    intro k j hk
    have hki : k ≠ i := by
      rintro rfl
      rw [Function.update_self] at hk
      cases hk
    rw [Function.update_of_ne hki] at hk ⊢
    exact hs.jobs k j hk
  · dsimp only
    intro k j hk
    by_cases hki : k = i
    · subst hki
      rw [Function.update_self] at hk
      rw [← Option.some.inj hk]
      exact ⟨hjob, hi⟩
    · rw [Function.update_of_ne hki] at hk
      exact hs.held k j hk
  · dsimp only
    intro hcnt hn
    rw [doneCount_take (by simp [hji]) rfl]
    exact hs.counts hcnt hn
  · intro hc k hk
    have hnone := (hs.complete hc i (hi.trans_le hs.submitted)).1
    rw [hji] at hnone
    cases hnone

theorem Slots.count (hs : Slots prog s) {job : Job} (hpc : s.worker i = .count job) {pc : WorkerPc}
    (hfree : pc.held = none) :
    Slots prog { s with nDone := s.nDone + 1, worker := Function.update s.worker i pc } := by
  have hw : (s.worker i).held = some job := by rw [hpc]; rfl
  obtain ⟨-, hi, hn, hnone⟩ := hs.of_held hw
  have hcnt := CallerPc.counting_of_submitted hi
  obtain ⟨hexp, hdone⟩ := hs.counts hcnt (by omega)
  have hclose : doneCount s.jobs (Function.update s.worker i pc) (s.caller.submitted (prog s.batch).n) =
      doneCount s.jobs s.worker (s.caller.submitted (prog s.batch).n) + 1 :=
    doneCount_close hi (by rw [hw]; exact Option.some_ne_none job) hnone hfree
  have hheld : ∀ k j, (Function.update s.worker i pc k).held = some j → (s.worker k).held = some j := by
    intro k j hk
    by_cases hki : k = i
    · subst hki
      rw [Function.update_self, hfree] at hk
      cases hk
    · rwa [Function.update_of_ne hki] at hk
  have hempty : ∀ k, (s.worker k).held = none → (Function.update s.worker i pc k).held = none := by
    intro k hk
    apply Option.eq_none_iff_forall_ne_some.mpr
    intro j hj
    rw [hheld k j hj] at hk
    cases hk
  refine ⟨?_, ?_, hs.submitted, hs.shared, ?_, ?_, ?_, ?_⟩
  · dsimp only
    intro k j hk
    obtain ⟨h1, h2, h3⟩ := hs.jobs k j hk
    exact ⟨h1, h2, hempty k h3⟩
  · exact fun k j hk => hs.held k j (hheld k j hk)
  · intro hc
    rw [show s.caller = .setExpected from hc] at hcnt
    cases hcnt
  · intro _ _
    exact ⟨hexp, by rw [hclose, hdone]⟩
  · have hle : doneCount s.jobs s.worker (s.caller.submitted (prog s.batch).n) + 1 ≤ _ := hclose ▸ doneCount_le
    have hsub := hs.submitted
    show s.nDone + 1 ≤ s.nExpected
    omega
  · intro hc k hk
    obtain ⟨h1, h2⟩ := hs.complete hc k hk
    exact ⟨h1, hempty k h2⟩

theorem WorkerStep.slots (h : WorkerStep i s t) (hs : Slots prog s) : Slots prog t := by
  cases h with
  | take job hpc h hji => exact hs.take hji
  | count job hpc => exact hs.count hpc (by split <;> rfl)
  | signal hpc =>
    refine hs.frame rfl (held_move (by rw [hpc]; rfl)) rfl (CallerPc.submitted_wake _ _) ?_ ?_ ?_ hs.done_le ?_
    · rw [CallerPc.shared_wake]
      exact hs.shared
    · intro hc
      rcases s.caller.wake_cases with ⟨hw, -⟩ | ⟨hw, -⟩
      · exact hs.reset (hw.symm.trans hc)
      · exact absurd (hw.symm.trans hc) nofun
    · rw [CallerPc.counting_wake]
      exact hs.counts
    · intro hc
      rcases s.caller.wake_cases with ⟨hw, -⟩ | ⟨hw, -⟩
      · exact hs.complete (hw ▸ hc)
      · rw [hw] at hc
        cases hc <;> contradiction
  | lock hpc | sleep hpc | awake hpc | reacquire hpc | leave hpc | unlockRun job hpc | run job hpc | lockDone job hpc
  | unlockExit hpc => exact hs.move (by rw [hpc]; rfl) _ _ _

theorem Spurious.slots (h : Spurious s t) (hs : Slots prog s) : Slots prog t := by
  cases h with
  | caller hpc =>
    exact hs.goto .reacquire (fun _ => rfl) (by rw [hpc]; rfl) (fun _ => hs.shared (by rw [hpc]; rfl)) nofun
      (fun _ _ => by rw [hpc]; rfl) nofun _ _
  | worker i hi hpc => exact hs.move (by rw [hpc]; rfl) _ _ _

/-! ## Sleeping and waking -/

@[grind] def CallerPc.publishing : CallerPc → Bool
  | .submit _ | .broadcast => true
  | _ => false

/-- Nobody sleeps on work that is there. -/
structure Wakes (s : State) : Prop where
  worker : ∀ i, s.worker i = .waiting → s.jobs i = none ∨ s.caller.publishing = true
  shutdown : ∀ i, s.worker i = .waiting → s.shutdown = false ∨ s.caller = .wakeAll
  caller : s.caller = .waiting → s.nDone < s.nExpected ∨ ∃ i, i < poolWorkers ∧ s.worker i = .signal
  ready : ∀ i, s.worker i = .take → s.shutdown = true ∨ s.jobs i ≠ none
  parked : ∀ i, poolWorkers ≤ i → s.worker i = .lock
  leaving : ∀ i, s.worker i = .unlockExit ∨ s.worker i = .exited → s.shutdown = true
  destroying : s.shutdown = true → s.caller = .wakeAll ∨ s.caller = .unlockDestroy ∨ s.caller = .joining

theorem Wakes.init (h : Init s) : Wakes s := by
  obtain ⟨-, hj, -, -, hd, hc, hw, -⟩ := h
  refine ⟨?_, ?_, ?_, ?_, ?_, ?_, ?_⟩ <;> grind

/-- A wake-up leaves every thread where it is, or moves it from its sleep. -/
theorem WorkerPc.of_wake {pc q : WorkerPc} (h : pc.wake = q) (hq : q ≠ .reacquire) : pc = q ∧ q ≠ .waiting := by
  rcases pc.wake_cases with ⟨hw, hne⟩ | ⟨hw, -⟩
  · exact ⟨hw.symm.trans h, by rw [← h, hw]; exact hne⟩
  · exact absurd (h.symm.trans hw) hq

theorem Wakes.quiet (hs : Wakes s) (hpc : s.caller.publishing = false) (j : Nat) (hj : s.worker j = .waiting) :
    s.jobs j = none := (hs.worker j hj).resolve_right (by rw [hpc]; nofun)

/-- A worker that is not at its signal leaves the caller's wake-up as it was. -/
theorem Wakes.signal_kept (hs : Wakes s) {pc : WorkerPc} (hne : s.worker i ≠ .signal) (hc : s.caller = .waiting) :
    s.nDone < s.nExpected ∨ ∃ j, j < poolWorkers ∧ Function.update s.worker i pc j = .signal := by
  rcases hs.caller hc with h | ⟨j, hj, hsig⟩
  · exact .inl h
  · refine .inr ⟨j, hj, ?_⟩
    rw [Function.update_of_ne fun h => hne (by rw [← h]; exact hsig)]
    exact hsig

/-- A statement of a worker: what it owes is the state of its own slot and the caller's wake-up. -/
theorem Wakes.move (hs : Wakes s) (hi : i < poolWorkers) (pc : WorkerPc) {c : CallerPc}
    (hc : s.caller ≠ .waiting → c = s.caller) {jobs : Nat → Option Job} (hjobs : ∀ j, j ≠ i → jobs j = s.jobs j)
    {d : Nat} (hwait : pc = .waiting → jobs i = none ∧ s.shutdown = false)
    (htake : pc = .take → s.shutdown = true ∨ jobs i ≠ none)
    (hleave : pc = .unlockExit ∨ pc = .exited → s.shutdown = true)
    (hcaller : c = .waiting → d < s.nExpected ∨ ∃ j, j < poolWorkers ∧ Function.update s.worker i pc j = .signal)
    (m : Option Tid) (e : List (Nat × Job)) (f : List Job) :
    Wakes { s with
      mutex := m, jobs := jobs, nDone := d, caller := c, worker := Function.update s.worker i pc, executed := e,
      finished := f } := by
  have hown : ∀ j q, Function.update s.worker i pc j = q → j = i ∧ pc = q ∨ j ≠ i ∧ s.worker j = q := by
    intro j q hq
    by_cases hj : j = i
    · rw [hj, Function.update_self] at hq
      exact .inl ⟨hj, hq⟩
    · rw [Function.update_of_ne hj] at hq
      exact .inr ⟨hj, hq⟩
  refine ⟨fun j hj => ?_, fun j hj => ?_, hcaller, fun j hj => ?_, fun j hj => ?_, fun j hj => ?_, fun h => ?_⟩
  · rcases hown j _ hj with ⟨rfl, hpc⟩ | ⟨hji, hpc⟩
    · exact .inl (hwait hpc).1
    · dsimp only
      rw [hjobs j hji]
      refine (hs.worker j hpc).imp_right fun hpub => ?_
      rwa [hc fun h => by rw [h] at hpub; cases hpub]
  · rcases hown j _ hj with ⟨rfl, hpc⟩ | ⟨hji, hpc⟩
    · exact .inl (hwait hpc).2
    · exact (hs.shutdown j hpc).imp_right fun hall => (hc (by rw [hall]; nofun)).trans hall
  · rcases hown j _ hj with ⟨rfl, hpc⟩ | ⟨hji, hpc⟩
    · exact htake hpc
    · dsimp only
      rw [hjobs j hji]
      exact hs.ready j hpc
  · dsimp only
    rw [Function.update_of_ne (by omega)]
    exact hs.parked j hj
  · rcases hj with hj | hj <;> rcases hown j _ hj with ⟨rfl, hpc⟩ | ⟨-, hpc⟩
    · exact hleave (.inl hpc)
    · exact hs.leaving j (.inl hpc)
    · exact hleave (.inr hpc)
    · exact hs.leaving j (.inr hpc)
  · have hdest := hs.destroying h
    dsimp only
    rwa [hc fun hw => by rw [hw] at hdest; rcases hdest with h | h | h <;> cases h]

theorem Wakes.goto (hs : Wakes s) (hrun : s.shutdown = false) (c : CallerPc) {jobs : Nat → Option Job}
    (hjobs : ∀ j, s.jobs j ≠ none → jobs j ≠ none)
    (hworker : ∀ j, s.worker j = .waiting → jobs j = none ∨ c.publishing = true) {d e : Nat}
    (hcaller : c = .waiting → d < e) (m : Option Tid) (b : Nat) :
    Wakes { s with mutex := m, jobs := jobs, nDone := d, nExpected := e, caller := c, batch := b } := by
  refine ⟨hworker, fun _ _ => .inl hrun, fun h => .inl (hcaller h), fun j hj => ?_, hs.parked, hs.leaving, fun h => ?_⟩
  · exact (hs.ready j hj).imp_right (hjobs j)
  · rw [show s.shutdown = true from h] at hrun
    cases hrun

theorem Wakes.wakeUp (hs : Wakes s) (c : CallerPc) (hc : c ≠ .waiting)
    (hdest : s.shutdown = true → c = .wakeAll ∨ c = .unlockDestroy ∨ c = .joining) :
    Wakes { s with worker := fun j => (s.worker j).wake, caller := c } := by
  refine ⟨fun j hj => ?_, fun j hj => ?_, fun h => absurd h hc, fun j hj => ?_, fun j hj => ?_, fun j hj => ?_, hdest⟩
  · exact absurd rfl (WorkerPc.of_wake hj nofun).2
  · exact absurd rfl (WorkerPc.of_wake hj nofun).2
  · exact hs.ready j (WorkerPc.of_wake hj nofun).1
  · dsimp only
    rw [hs.parked j hj]
    rfl
  · rcases hj with hj | hj
    · exact hs.leaving j (.inl (WorkerPc.of_wake hj nofun).1)
    · exact hs.leaving j (.inr (WorkerPc.of_wake hj nofun).1)

theorem Wakes.running (hs : Wakes s) (h : s.caller ≠ .wakeAll ∧ s.caller ≠ .unlockDestroy ∧ s.caller ≠ .joining) :
    s.shutdown = false := by
  apply Bool.eq_false_iff.mpr
  intro hd
  rcases hs.destroying hd with hd | hd | hd
  · exact h.1 hd
  · exact h.2.1 hd
  · exact h.2.2 hd

theorem CallerStep.wakes (h : CallerStep prog s t) (hs : Wakes s) : Wakes t := by
  have hsame : ∀ j, s.jobs j ≠ none → s.jobs j ≠ none := fun _ h => h
  cases h with
  | begin hpc =>
    have hquiet := hs.quiet (by rw [hpc]; rfl)
    have hrun := hs.running (by rw [hpc]; decide)
    split
    · exact hs.goto hrun .lockSubmit hsame (fun j hj => .inl (hquiet j hj)) nofun _ _
    · exact hs.goto hrun .runOwn hsame (fun j hj => .inl (hquiet j hj)) nofun _ _
  | lockSubmit hpc =>
    exact hs.goto (hs.running (by rw [hpc]; decide)) .setDone hsame
      (fun j hj => .inl (hs.quiet (by rw [hpc]; rfl) j hj)) nofun _ _
  | setDone hpc =>
    exact hs.goto (hs.running (by rw [hpc]; decide)) .setExpected hsame
      (fun j hj => .inl (hs.quiet (by rw [hpc]; rfl) j hj)) nofun _ _
  | setExpected hpc =>
    exact hs.goto (hs.running (by rw [hpc]; decide)) (.submit 0) hsame (fun _ _ => .inr rfl) nofun _ _
  | submit i hpc hi =>
    refine hs.goto (hs.running (by rw [hpc]; exact ⟨nofun, nofun, nofun⟩)) (.submit (i + 1)) (fun j hj => ?_)
      (fun _ _ => .inr rfl) nofun _ _
    by_cases hji : j = i
    · rw [hji, Function.update_self]
      exact Option.some_ne_none _
    · rwa [Function.update_of_ne hji]
  | submitted i hpc hi =>
    exact hs.goto (hs.running (by rw [hpc]; exact ⟨nofun, nofun, nofun⟩)) .broadcast hsame (fun _ _ => .inr rfl)
      nofun _ _
  | broadcast hpc =>
    have hrun := hs.running (by rw [hpc]; decide)
    exact hs.wakeUp .unlockSubmit nofun fun h => by rw [h] at hrun; cases hrun
  | unlockSubmit hpc =>
    exact hs.goto (hs.running (by rw [hpc]; decide)) .runOwn hsame
      (fun j hj => .inl (hs.quiet (by rw [hpc]; rfl) j hj)) nofun _ _
  | runOwn hpc =>
    have hquiet := hs.quiet (by rw [hpc]; rfl)
    have hrun := hs.running (by rw [hpc]; decide)
    split
    · exact hs.goto hrun .lockWait hsame (fun j hj => .inl (hquiet j hj)) nofun _ _
    · exact hs.goto hrun .collect hsame (fun j hj => .inl (hquiet j hj)) nofun _ _
  | lockWait hpc | reacquire hpc =>
    exact hs.goto (hs.running (by rw [hpc]; decide)) .check hsame
      (fun j hj => .inl (hs.quiet (by rw [hpc]; rfl) j hj)) nofun _ _
  | wait hpc h =>
    exact hs.goto (hs.running (by rw [hpc]; decide)) .waiting hsame
      (fun j hj => .inl (hs.quiet (by rw [hpc]; rfl) j hj)) (fun _ => h) _ _
  | waited hpc h =>
    exact hs.goto (hs.running (by rw [hpc]; decide)) .unlockWait hsame
      (fun j hj => .inl (hs.quiet (by rw [hpc]; rfl) j hj)) nofun _ _
  | unlockWait hpc =>
    exact hs.goto (hs.running (by rw [hpc]; decide)) .collect hsame
      (fun j hj => .inl (hs.quiet (by rw [hpc]; rfl) j hj)) nofun _ _
  | collect hpc =>
    exact hs.goto (hs.running (by rw [hpc]; decide)) .idle hsame
      (fun j hj => .inl (hs.quiet (by rw [hpc]; rfl) j hj)) nofun _ _
  | destroy hpc =>
    exact hs.goto (hs.running (by rw [hpc]; decide)) .lockDestroy hsame
      (fun j hj => .inl (hs.quiet (by rw [hpc]; rfl) j hj)) nofun _ _
  | lockDestroy hpc =>
    exact hs.goto (hs.running (by rw [hpc]; decide)) .setShutdown hsame
      (fun j hj => .inl (hs.quiet (by rw [hpc]; rfl) j hj)) nofun _ _
  | setShutdown hpc =>
    exact ⟨fun j hj => .inl (hs.quiet (by rw [hpc]; rfl) j hj), fun _ _ => .inr rfl, nofun, fun _ _ => .inl rfl,
      hs.parked, fun _ _ => rfl, fun _ => .inl rfl⟩
  | wakeAll hpc => exact hs.wakeUp .unlockDestroy nofun fun _ => .inr (.inl rfl)
  | unlockDestroy hpc =>
    refine ⟨fun j hj => .inl (hs.quiet (by rw [hpc]; rfl) j hj), fun j hj => ?_, nofun, hs.ready, hs.parked, hs.leaving,
      fun _ => .inr (.inr rfl)⟩
    exact .inl ((hs.shutdown j hj).resolve_right (by rw [hpc]; nofun))

theorem WorkerStep.wakes (hi : i < poolWorkers) (h : WorkerStep i s t) (hs : Wakes s) : Wakes t := by
  have hc : s.caller ≠ .waiting → s.caller = s.caller := fun _ => rfl
  have hjobs : ∀ j, j ≠ i → s.jobs j = s.jobs j := fun _ _ => rfl
  cases h with
  | lock hpc | reacquire hpc =>
    exact hs.move hi .check hc hjobs nofun nofun nofun (hs.signal_kept (by rw [hpc]; nofun)) _ _ _
  | sleep hpc h =>
    exact hs.move hi .waiting hc hjobs (fun _ => ⟨h.2, h.1⟩) nofun nofun (hs.signal_kept (by rw [hpc]; nofun)) _ _ _
  | awake hpc h =>
    refine hs.move hi .take hc hjobs nofun (fun _ => ?_) nofun (hs.signal_kept (by rw [hpc]; nofun)) _ _ _
    by_cases hd : s.shutdown = true
    · exact .inl hd
    · exact .inr fun hj => h ⟨Bool.eq_false_iff.mpr hd, hj⟩
  | leave hpc h =>
    exact hs.move hi .unlockExit hc hjobs nofun nofun (fun _ => h) (hs.signal_kept (by rw [hpc]; nofun)) _ _ _
  | take job hpc h hj =>
    exact hs.move hi (.unlockRun job) hc (fun j hji => Function.update_of_ne hji ..) nofun nofun nofun
      (hs.signal_kept (by rw [hpc]; nofun)) _ _ _
  | unlockRun job hpc =>
    exact hs.move hi (.run job) hc hjobs nofun nofun nofun (hs.signal_kept (by rw [hpc]; nofun)) _ _ _
  | run job hpc =>
    exact hs.move hi (.lockDone job) hc hjobs nofun nofun nofun (hs.signal_kept (by rw [hpc]; nofun)) _ _ _
  | lockDone job hpc =>
    exact hs.move hi (.count job) hc hjobs nofun nofun nofun (hs.signal_kept (by rw [hpc]; nofun)) _ _ _
  | count job hpc =>
    by_cases hlast : s.nDone + 1 ≥ s.nExpected
    · rw [if_pos hlast]
      exact hs.move hi .signal hc hjobs nofun nofun nofun
        (fun _ => .inr ⟨i, hi, Function.update_self ..⟩) _ _ _
    · rw [if_neg hlast]
      exact hs.move hi .check hc hjobs nofun nofun nofun (fun _ => .inl (not_le.mp hlast)) _ _ _
  | signal hpc =>
    refine hs.move hi .check (fun hw => ?_) hjobs nofun nofun nofun (fun hw => ?_) _ _ _
    · rcases s.caller.wake_cases with ⟨h, -⟩ | ⟨-, h⟩
      · exact h
      · exact absurd h hw
    · rcases s.caller.wake_cases with ⟨h, hne⟩ | ⟨h, -⟩
      · exact absurd (h.symm.trans hw) hne
      · exact absurd (h.symm.trans hw) nofun
  | unlockExit hpc =>
    exact hs.move hi .exited hc hjobs nofun nofun (fun _ => hs.leaving i (.inl hpc))
      (hs.signal_kept (by rw [hpc]; nofun)) _ _ _

theorem Spurious.wakes (h : Spurious s t) (hs : Wakes s) : Wakes t := by
  cases h with
  | caller hpc =>
    exact hs.goto (hs.running (by rw [hpc]; decide)) .reacquire (fun _ h => h)
      (fun j hj => .inl (hs.quiet (by rw [hpc]; rfl) j hj)) nofun _ _
  | worker i hi hpc =>
    exact hs.move hi .reacquire (fun _ => rfl) (fun _ _ => rfl) nofun nofun nofun
      (hs.signal_kept (by rw [hpc]; nofun)) _ _ _

/-! ## The ghosts -/

/-- Stages of a job with its worker: not started, or not finished. -/
@[grind] def WorkerPc.starting : WorkerPc → Bool
  | .unlockRun _ => true
  | _ => false

@[grind] def WorkerPc.running : WorkerPc → Bool
  | .unlockRun _ | .run _ => true
  | _ => false

@[grind =] theorem WorkerPc.starting_wake (pc : WorkerPc) : pc.wake.starting = pc.starting := by cases pc <;> rfl

@[grind =] theorem WorkerPc.running_wake (pc : WorkerPc) : pc.wake.running = pc.running := by cases pc <;> rfl

theorem WorkerPc.starting_of_held {pc : WorkerPc} (h : pc.held = none) : pc.starting = false := by
  cases pc <;> first | rfl | cases h

theorem WorkerPc.running_of_held {pc : WorkerPc} (h : pc.held = none) : pc.running = false := by
  cases pc <;> first | rfl | cases h

/-- A submitted job that left the stage `p` of its worker. -/
@[grind] def Passed (prog : Nat → Batch) (s : State) (p : WorkerPc → Bool) (job : Job) : Prop :=
  job.slot + 1 < (prog job.batch).n ∧ (job.batch < s.batch ∨
    job.batch = s.batch ∧ job.slot < s.caller.submitted (prog s.batch).n ∧ s.jobs job.slot = none ∧
      p (s.worker job.slot) = false)

/-- The ghosts hold the jobs that passed their stage, each of them once and with its own worker. -/
structure Logs (prog : Nat → Batch) (s : State) : Prop where
  executed : ∀ w job, (w, job) ∈ s.executed ↔ w = job.slot ∧ Passed prog s WorkerPc.starting job
  executed_nodup : s.executed.Nodup
  finished : ∀ job, job ∈ s.finished ↔ Passed prog s WorkerPc.running job
  finished_nodup : s.finished.Nodup

theorem Logs.init (h : Init s) : Logs prog s := by
  obtain ⟨-, -, -, -, -, hc, -, hb, he, hf⟩ := h
  refine ⟨?_, ?_, ?_, ?_⟩ <;> grind

theorem CallerStep.logs (h : CallerStep prog s t) (hl : Slots prog s) (hs : Logs prog s) : Logs prog t := by
  obtain ⟨he, hen, hf, hfn⟩ := hs
  have hcomp := hl.complete
  have hheld := hl.held
  have hle := hl.submitted
  cases h <;> refine ⟨by grind [Function.update_apply, WorkerPc.starting_of_held], by grind,
    by grind [Function.update_apply, WorkerPc.running_of_held], by grind⟩

theorem WorkerStep.logs (h : WorkerStep i s t) (hl : Slots prog s) (hs : Logs prog s) : Logs prog t := by
  have hheld := @Slots.of_held prog s i hl
  obtain ⟨he, hen, hf, hfn⟩ := hs
  cases h with
  | take job hpc h hji =>
    have hw := (hl.jobs i job hji).2.2
    refine ⟨?_, hen, ?_, hfn⟩
    · grind [Function.update_apply]
    · grind [Function.update_apply]
  | unlockRun job hpc =>
    obtain ⟨hjob, hi, hn, hfree⟩ := hheld (by rw [hpc]; rfl)
    have hnew : (i, job) ∉ s.executed := by
      intro hmem
      obtain ⟨-, -, hpass⟩ := (he i job).mp hmem
      grind
    refine ⟨?_, List.nodup_cons.mpr ⟨hnew, hen⟩, ?_, hfn⟩
    · rintro w ⟨b, k⟩
      grind [Function.update_apply]
    · grind [Function.update_apply]
  | run job hpc =>
    obtain ⟨hjob, hi, hn, hfree⟩ := hheld (by rw [hpc]; rfl)
    have hnew : job ∉ s.finished := by
      intro hmem
      obtain ⟨-, hpass⟩ := (hf job).mp hmem
      grind
    refine ⟨?_, hen, ?_, List.nodup_cons.mpr ⟨hnew, hfn⟩⟩
    · grind [Function.update_apply]
    · rintro ⟨b, k⟩
      grind [Function.update_apply]
  | _ => exact ⟨by grind [Function.update_apply], hen, by grind [Function.update_apply], hfn⟩

theorem Spurious.logs (h : Spurious s t) (hs : Logs prog s) : Logs prog t := by
  obtain ⟨he, hen, hf, hfn⟩ := hs
  cases h <;> refine ⟨by grind [Function.update_apply], by grind, by grind [Function.update_apply], by grind⟩

end PoseDB.ThreadPool
