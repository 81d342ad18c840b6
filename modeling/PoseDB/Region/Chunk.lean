import PoseDB.Graph.Carry
import PoseDB.Lib.Paint

/-!
# One chunk of a region (`chunk_arg_t`, `chunk_thread_fn`)

What a labeling call writes does not depend on what its buffers held (`doLabel_mem`, `doLabelInplace_mem`), nor on which of
the two functions is called: rank `r` of the output is `chunkLabel`, which is also what `pose_graph_challenge` returns
(`poseGraphChallenge_eq`).
-/

set_option autoImplicit false

namespace PoseDB.Region
open Mem PoseDB.Graph

variable {α : Type} (H : PoseHash α)

/-! ## The labels of a chunk -/

/-- The output label of rank `r` of a chunk of `m` blocks. -/
def chunkLabel (seed : α) (m : Nat) (algo : PoseHashAlgo) (r : Nat) : α :=
  (doLabel H seed m (fun _ => seed) 0 ⟨fun _ => seed, fun _ => 0⟩ algo).mem r

theorem doLabelInplace_mem {m : Nat} (hm : 1 ≤ m) (hmax : m ≤ poseGraphMaxM) (seed : α) (mem : Nat → α) (out : Nat)
    (scratch : Scratch α) (algo : PoseHashAlgo) :
    (doLabelInplace H seed m mem out scratch algo).mem = store mem out m (chunkLabel H seed m algo) := by
  obtain ⟨-, hL, -, hmem⟩ := doLabel_spec (H := H) hm hmax seed (fun _ => seed) 0 ⟨fun _ => seed, fun _ => 0⟩ algo
  obtain ⟨-, -, hmem'⟩ := doLabelInplace_spec hm hmax seed mem out scratch algo hL
  rw [hmem']
  apply store_congr
  intro r hr
  have hstore := store_in (fun _ => seed) 0 m (fun r =>
    (doLabel H seed m (fun _ => seed) 0 ⟨fun _ => seed, fun _ => 0⟩ algo).scratch.labels (challengeNode m r)) hr
  rw [← hmem, Nat.zero_add] at hstore
  exact hstore.symm

theorem doLabel_mem {m : Nat} (hm : 1 ≤ m) (hmax : m ≤ poseGraphMaxM) (seed : α) (mem : Nat → α) (out : Nat)
    (scratch : Scratch α) (algo : PoseHashAlgo) :
    (doLabel H seed m mem out scratch algo).mem = store mem out m (chunkLabel H seed m algo) := by
  obtain ⟨-, hL, -, hmem⟩ := doLabel_spec (H := H) hm hmax seed mem out scratch algo
  obtain ⟨-, -, hmem'⟩ := doLabelInplace_spec hm hmax seed mem out scratch algo hL
  rw [hmem, ← hmem', doLabelInplace_mem H hm hmax]

/-- `pose_graph_challenge` recomputes the label of one rank, whatever its buffers held. -/
theorem poseGraphChallenge_eq {m r : Nat} (hr : r < m) (hmax : m ≤ poseGraphMaxM) (seed : α) (all : Nat → α)
    (buf : Scratch α) (algo : PoseHashAlgo) :
    poseGraphChallenge H seed m r (some all) (some buf) algo = (0, some (chunkLabel H seed m algo r)) := by
  have hm : 1 ≤ m := by omega
  have hmem := doLabel_mem H hm hmax seed all 0 buf algo
  obtain ⟨hrc, -⟩ := doLabel_spec (H := H) hm hmax seed all 0 buf algo
  have hstore := store_in all 0 m (chunkLabel H seed m algo) hr
  rw [Nat.zero_add] at hstore
  unfold poseGraphChallenge
  rw [if_neg (not_le.mpr hr)]
  dsimp only
  rw [hrc, if_pos rfl, hmem, hstore]

/-! ## `chunk_thread_fn` -/

/-- What a sink (`pose_label_sink_fn`) is given. -/
structure SinkCall (α : Type) where
  mem : Nat → α
  buf : Nat
  len : Nat
  off : Nat

/-- The write-through fields of a chunk, when `wt_sink` is set. -/
structure WriteThrough (α : Type) where
  sink : SinkCall α → Int
  off : Nat
  len : Nat

/-- `chunk_arg_t`; `out` is an address of `mem`, `scratch` the number of a buffer. -/
structure ChunkArg (α : Type) where
  cseed : α
  m : Nat
  out : Nat
  scratch : Nat
  rc : Int
  algo : PoseHashAlgo
  inplace : Bool
  wt : Option (WriteThrough α)

/-- What the jobs of a batch share: the block memory, the scratch buffers and `args`. The ghosts record the sink calls,
and whether a job failed or a thread did not start. -/
structure RegionState (α : Type) where
  mem : Nat → α
  scratch : Nat → Scratch α
  args : Nat → ChunkArg α
  sinkCalls : List (SinkCall α)
  failed : Bool

/-- `chunk_thread_fn(&args[i])`. -/
def chunkThreadFn (s : RegionState α) (i : Nat) : RegionState α :=
  let a := s.args i
  let r :=
    if a.inplace then doLabelInplace H a.cseed a.m s.mem a.out (s.scratch a.scratch) a.algo
    else doLabel H a.cseed a.m s.mem a.out (s.scratch a.scratch) a.algo
  let calls : List (SinkCall α) :=
    match a.wt with
    | some wt => if r.rc = 0 then [⟨r.mem, a.out, wt.len, wt.off⟩] else []
    | none => []
  let rc :=
    match a.wt with
    | some wt => if r.rc = 0 then wt.sink ⟨r.mem, a.out, wt.len, wt.off⟩ else r.rc
    | none => r.rc
  { mem := r.mem
    scratch := Function.update s.scratch a.scratch r.scratch
    args := Function.update s.args i { a with rc := rc }
    sinkCalls := s.sinkCalls ++ calls
    failed := s.failed || decide (rc ≠ 0) }

variable {H} {s : RegionState α} {i : Nat}

@[simp] theorem chunkThreadFn_args_of_ne {j : Nat} (h : j ≠ i) : (chunkThreadFn H s i).args j = s.args j :=
  Function.update_of_ne h _ _

theorem chunkThreadFn_arg :
    (chunkThreadFn H s i).args i = { s.args i with rc := ((chunkThreadFn H s i).args i).rc } := by
  unfold chunkThreadFn
  simp only [Function.update_self]

theorem chunkThreadFn_failed :
    (chunkThreadFn H s i).failed = (s.failed || decide (((chunkThreadFn H s i).args i).rc ≠ 0)) := by
  unfold chunkThreadFn
  simp only [Function.update_self]

/-- A chunk that is not larger than a graph can be is labelled, and without a sink the job succeeds. -/
theorem chunkThreadFn_mem (hm : 1 ≤ (s.args i).m) (hmax : (s.args i).m ≤ poseGraphMaxM) :
    (chunkThreadFn H s i).mem =
      store s.mem (s.args i).out (s.args i).m (chunkLabel H (s.args i).cseed (s.args i).m (s.args i).algo) := by
  unfold chunkThreadFn
  dsimp only
  split
  · exact doLabelInplace_mem H hm hmax _ _ _ _ _
  · exact doLabel_mem H hm hmax _ _ _ _ _

theorem chunkThreadFn_rc (hm : 1 ≤ (s.args i).m) (hmax : (s.args i).m ≤ poseGraphMaxM) (hwt : (s.args i).wt = none) :
    ((chunkThreadFn H s i).args i).rc = 0 := by
  unfold chunkThreadFn
  simp only [Function.update_self, hwt]
  obtain ⟨hrc, hL, -⟩ := doLabel_spec (H := H) hm hmax (s.args i).cseed s.mem (s.args i).out
    (s.scratch (s.args i).scratch) (s.args i).algo
  split
  · exact (doLabelInplace_spec hm hmax _ _ _ _ _ hL).1
  · exact hrc

end PoseDB.Region
