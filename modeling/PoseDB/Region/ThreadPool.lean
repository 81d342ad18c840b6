import PoseDB.Lib.Run
import Mathlib.Data.Finset.Card
import Mathlib.Data.Finset.Range
import Mathlib.Logic.Function.Basic

/-!
# The thread pool (`struct pose_graph_pool`)

Caller and workers as a transition system with one step for every statement that touches the pool. A mutex has at
most one holder; `pthread_cond_wait` releases it and blocks in one step, and a blocked thread has to take it again; a
broadcast wakes every thread blocked on the condition variable, a signal the only one that can be, and a blocked thread
may also wake on its own (`Spurious`). The caller runs a sequence of batches, each of them through one of the three entry
points that dispatch to the pool, and may destroy the pool in between.
-/

set_option autoImplicit false

namespace PoseDB.ThreadPool

def poseRegionThreads : Nat := 4

/-- The functions that dispatch batches to a pool. -/
inductive EntryPoint where
  | labelRegionPooled
  | labelRegionPooledInplace
  | labelDiskWave
deriving DecidableEq, Repr

/-- One batch: jobs `0, ..., n - 2` for the workers, job `n - 1` for the caller. -/
structure Batch where
  entry : EntryPoint
  n : Nat
  pos : 1 ≤ n
  le : n ≤ poseRegionThreads

/-- `&args[slot]` of a batch. -/
structure Job where
  batch : Nat
  slot : Nat
deriving DecidableEq, Repr

/-- Where a worker stands in `pool_worker_fn`. -/
inductive WorkerPc where
  | lock
  | check
  | waiting
  | reacquire
  | take
  | unlockRun (job : Job)
  | run (job : Job)
  | lockDone (job : Job)
  | count (job : Job)
  | signal
  | unlockExit
  | exited
deriving DecidableEq, Repr

/-- Where the caller stands: dispatch, its own chunk, the wait loop, and `pose_graph_pool_destroy`. -/
inductive CallerPc where
  | idle
  | lockSubmit
  | setDone
  | setExpected
  | submit (i : Nat)
  | broadcast
  | unlockSubmit
  | runOwn
  | lockWait
  | check
  | waiting
  | reacquire
  | unlockWait
  | collect
  | lockDestroy
  | setShutdown
  | wakeAll
  | unlockDestroy
  | joining
deriving DecidableEq, Repr

inductive Tid where
  | caller
  | worker (i : Nat)
deriving DecidableEq, Repr

/-- The pool, the program counters, the number of batches done, and the ghosts `executed` (who started which job) and
`finished`. -/
structure State where
  mutex : Option Tid
  jobs : Nat → Option Job
  nDone : Nat
  nExpected : Nat
  shutdown : Bool
  caller : CallerPc
  worker : Nat → WorkerPc
  batch : Nat
  executed : List (Nat × Job)
  finished : List Job

/-- A wake-up from `pthread_cond_wait`. -/
def WorkerPc.wake : WorkerPc → WorkerPc
  | .waiting => .reacquire
  | pc => pc

def CallerPc.wake : CallerPc → CallerPc
  | .waiting => .reacquire
  | pc => pc

/-- After `pose_graph_pool_create`. -/
def Init (s : State) : Prop :=
  s.mutex = none ∧ (∀ i, s.jobs i = none) ∧ s.nDone = 0 ∧ s.nExpected = 0 ∧ s.shutdown = false ∧ s.caller = .idle ∧
    (∀ i, s.worker i = .lock) ∧ s.batch = 0 ∧ s.executed = [] ∧ s.finished = []

variable (prog : Nat → Batch)

/-- The statements of the caller. -/
inductive CallerStep : State → State → Prop where
  | begin (s : State) (hpc : s.caller = .idle) :
    CallerStep s { s with caller := if 1 < (prog s.batch).n then .lockSubmit else .runOwn }
  | lockSubmit (s : State) (hpc : s.caller = .lockSubmit) (hm : s.mutex = none) :
    CallerStep s { s with mutex := some .caller, caller := .setDone }
  | setDone (s : State) (hpc : s.caller = .setDone) : CallerStep s { s with nDone := 0, caller := .setExpected }
  | setExpected (s : State) (hpc : s.caller = .setExpected) :
    CallerStep s { s with nExpected := (prog s.batch).n - 1, caller := .submit 0 }
  | submit (s : State) (i : Nat) (hpc : s.caller = .submit i) (hi : i < (prog s.batch).n - 1) :
    CallerStep s { s with jobs := Function.update s.jobs i (some ⟨s.batch, i⟩), caller := .submit (i + 1) }
  | submitted (s : State) (i : Nat) (hpc : s.caller = .submit i) (hi : ¬ i < (prog s.batch).n - 1) :
    CallerStep s { s with caller := .broadcast }
  | broadcast (s : State) (hpc : s.caller = .broadcast) :
    CallerStep s { s with worker := fun i => (s.worker i).wake, caller := .unlockSubmit }
  | unlockSubmit (s : State) (hpc : s.caller = .unlockSubmit) :
    CallerStep s { s with mutex := none, caller := .runOwn }
  | runOwn (s : State) (hpc : s.caller = .runOwn) :
    CallerStep s { s with caller := if 1 < (prog s.batch).n then .lockWait else .collect }
  | lockWait (s : State) (hpc : s.caller = .lockWait) (hm : s.mutex = none) :
    CallerStep s { s with mutex := some .caller, caller := .check }
  | wait (s : State) (hpc : s.caller = .check) (h : s.nDone < s.nExpected) :
    CallerStep s { s with mutex := none, caller := .waiting }
  | waited (s : State) (hpc : s.caller = .check) (h : ¬ s.nDone < s.nExpected) :
    CallerStep s { s with caller := .unlockWait }
  | reacquire (s : State) (hpc : s.caller = .reacquire) (hm : s.mutex = none) :
    CallerStep s { s with mutex := some .caller, caller := .check }
  | unlockWait (s : State) (hpc : s.caller = .unlockWait) :
    CallerStep s { s with mutex := none, caller := .collect }
  | collect (s : State) (hpc : s.caller = .collect) :
    CallerStep s { s with batch := s.batch + 1, caller := .idle }
  | destroy (s : State) (hpc : s.caller = .idle) : CallerStep s { s with caller := .lockDestroy }
  | lockDestroy (s : State) (hpc : s.caller = .lockDestroy) (hm : s.mutex = none) :
    CallerStep s { s with mutex := some .caller, caller := .setShutdown }
  | setShutdown (s : State) (hpc : s.caller = .setShutdown) :
    CallerStep s { s with shutdown := true, caller := .wakeAll }
  | wakeAll (s : State) (hpc : s.caller = .wakeAll) :
    CallerStep s { s with worker := fun i => (s.worker i).wake, caller := .unlockDestroy }
  | unlockDestroy (s : State) (hpc : s.caller = .unlockDestroy) :
    CallerStep s { s with mutex := none, caller := .joining }

/-- The statements of worker `i`. -/
inductive WorkerStep (i : Nat) : State → State → Prop where
  | lock (s : State) (hpc : s.worker i = .lock) (hm : s.mutex = none) :
    WorkerStep i s { s with mutex := some (.worker i), worker := Function.update s.worker i .check }
  | sleep (s : State) (hpc : s.worker i = .check) (h : s.shutdown = false ∧ s.jobs i = none) :
    WorkerStep i s { s with mutex := none, worker := Function.update s.worker i .waiting }
  | awake (s : State) (hpc : s.worker i = .check) (h : ¬(s.shutdown = false ∧ s.jobs i = none)) :
    WorkerStep i s { s with worker := Function.update s.worker i .take }
  | reacquire (s : State) (hpc : s.worker i = .reacquire) (hm : s.mutex = none) :
    WorkerStep i s { s with mutex := some (.worker i), worker := Function.update s.worker i .check }
  | leave (s : State) (hpc : s.worker i = .take) (h : s.shutdown = true) :
    WorkerStep i s { s with worker := Function.update s.worker i .unlockExit }
  | take (s : State) (job : Job) (hpc : s.worker i = .take) (h : s.shutdown = false) (hj : s.jobs i = some job) :
    WorkerStep i s
      { s with jobs := Function.update s.jobs i none, worker := Function.update s.worker i (.unlockRun job) }
  | unlockRun (s : State) (job : Job) (hpc : s.worker i = .unlockRun job) :
    WorkerStep i s
      { s with mutex := none, worker := Function.update s.worker i (.run job), executed := (i, job) :: s.executed }
  | run (s : State) (job : Job) (hpc : s.worker i = .run job) :
    WorkerStep i s { s with worker := Function.update s.worker i (.lockDone job), finished := job :: s.finished }
  | lockDone (s : State) (job : Job) (hpc : s.worker i = .lockDone job) (hm : s.mutex = none) :
    WorkerStep i s { s with mutex := some (.worker i), worker := Function.update s.worker i (.count job) }
  | count (s : State) (job : Job) (hpc : s.worker i = .count job) :
    WorkerStep i s
      { s with
        nDone := s.nDone + 1
        worker := Function.update s.worker i (if s.nDone + 1 ≥ s.nExpected then .signal else .check) }
  | signal (s : State) (hpc : s.worker i = .signal) :
    WorkerStep i s { s with caller := s.caller.wake, worker := Function.update s.worker i .check }
  | unlockExit (s : State) (hpc : s.worker i = .unlockExit) :
    WorkerStep i s { s with mutex := none, worker := Function.update s.worker i .exited }

def poolWorkers : Nat := poseRegionThreads - 1

/-- A statement of some thread. -/
inductive Step (s t : State) : Prop where
  | caller (h : CallerStep prog s t)
  | worker (i : Nat) (hi : i < poolWorkers) (h : WorkerStep i s t)

/-- A thread blocked on a condition variable wakes on its own. -/
inductive Spurious : State → State → Prop where
  | caller (s : State) (hpc : s.caller = .waiting) : Spurious s { s with caller := .reacquire }
  | worker (s : State) (i : Nat) (hi : i < poolWorkers) (hpc : s.worker i = .waiting) :
    Spurious s { s with worker := Function.update s.worker i .reacquire }

def Reachable : State → Prop := Runs.Reachable Init fun s t => Step prog s t ∨ Spurious s t

end PoseDB.ThreadPool
