import PoseDB.Lib.Mem
import PoseDB.Lib.Cover
import PoseDB.Graph.Count

/-!
# A worker of the disk wiper (`disk_wipe_bench.cu`)

One GPU labels windows of its ranges, copies them in slices to a staging buffer and writes the slices to the disk. Every
call may fail, and a `pwrite` may be short or interrupted: the outcomes are in `Env`. The worker returns `none` where it
never returns.
-/

set_option autoImplicit false

namespace PoseDB.Wipe
open Mem PoseDB.Graph

abbrev Byte := BitVec 8

/-! ## The code -/

def mib : Nat := 1024 * 1024

def floorTo (v m : Nat) : Nat := if m ≠ 0 then v / m * m else 0

/-- The fields of `Config` that a worker reads. -/
structure Config where
  chunkBlocks : Nat
  hbmWindowMib : Nat
  stageMib : Nat
  dryRun : Bool

def Config.superBytes (cfg : Config) : Nat := resolveChunkBlocks cfg.chunkBlocks * 32

/-- A range of a disk: its ends are far below `2 ^ 64`, and so are the sums that the loops form. -/
structure WorkItem where
  fd : Nat
  diskOff : Nat
  len : Nat

/-- The outcome of a call of `pwrite`: at most `n` bytes are written. -/
inductive Pwrite where
  | wrote (n : Nat)
  | eintr
  | failed (errno : Nat)

/-- What the calls of a worker give: those before the loops, then by item, position of the window and position of the
slice. `freeWindow` is 30% of the free memory, `output` the output labels of a chunk, byte by byte. -/
structure Env where
  setDevice : Bool
  topoBuild : Bool
  memGetInfo : Bool
  malloc : Bool
  mallocHost : Bool
  freeWindow : Nat
  label : (item pos : Nat) → Bool
  copy : (item pos s : Nat) → Bool
  pwrite : (item pos s : Nat) → List Pwrite
  fsync : (item : Nat) → Bool
  strerror : Nat → String
  output : (chunkIndex : Nat) → Nat → Byte

/-- Bytes that a `pwrite` wrote to a file descriptor. -/
abbrev Write := Cover.Write Nat Byte

/-- A labeling, copy or `pwrite_all` call. -/
inductive Call where
  | label (item pos : Nat)
  | copy (item pos s : Nat)
  | pwrite (item pos s : Nat)
deriving DecidableEq, Repr

/-- What a worker holds. -/
inductive Resource where
  | topo
  | dBuf
  | hStage
deriving DecidableEq, Repr

/-- The result of a worker, its buffers, and the ghosts `writes`, `calls`, `fsyncs` and `held`. -/
structure State where
  ok : Bool
  err : String
  bytes : Nat
  dBuf : Nat → Byte
  hStage : Nat → Byte
  writes : List Write
  calls : List Call
  fsyncs : List (Nat × Bool)
  held : List Resource

/-- `res->ok = false; res->err = msg`. -/
def State.fail (st : State) (msg : String) : State := { st with ok := false, err := msg }

def State.log (st : State) (c : Call) : State := { st with calls := st.calls ++ [c] }

def eio : Nat := 5

/-- `pwrite_all` after `done` bytes: what it writes, and `errno` if it fails. The list has the outcomes of its calls. -/
def pwriteAll (fd : Nat) (buf : Nat → Byte) (len off : Nat) : List Pwrite → (done : Nat) →
    Option (List Write × Option Nat)
  | [], done => if done < len then none else some ([], none)
  | outcome :: rest, done =>
    if done < len then
      match outcome with
      | .eintr => pwriteAll fd buf len off rest done
      | .failed errno => some ([], some errno)
      | .wrote n =>
        let n := min n (len - done)
        if n = 0 then some ([], some eio)
        else
          (pwriteAll fd buf len off rest (done + n)).map fun (ws, errno) =>
            (⟨fd, off + done, n, fun x => buf (done + x)⟩ :: ws, errno)
    else some ([], none)

/-- `pose_graph_hbm_topo_label` when it succeeds: each super-chunk of the window gets the output labels of its chunk. -/
def topoLabel (cfg : Config) (output : Nat → Nat → Byte) (buf : Nat → Byte) (win regionBlockOffset : Nat) :
    Nat → Byte :=
  let chunkBlocks := resolveChunkBlocks cfg.chunkBlocks
  Loops.loop (win / cfg.superBytes) (fun j buf => store buf (j * cfg.superBytes) cfg.superBytes
    (output ((regionBlockOffset + j * chunkBlocks) / chunkBlocks))) buf

section Loops

variable (env : Env) (cfg : Config) (item : Nat) (it : WorkItem) (window stage : Nat)

/-- The loop over the slices of the window at `pos`. -/
def sliceLoop (pos win s : Nat) (st : State) : Option State :=
  if _h : (s < win ∧ st.ok = true) ∧ 0 < stage then
    let slice := min stage (win - s)
    let st := st.log (.copy item pos s)
    if env.copy item pos s = false then some (st.fail "cudaMemcpy D2H failed")
    else
      let st := { st with hStage := store st.hStage 0 slice fun x => st.dBuf (s + x) }
      if cfg.dryRun then sliceLoop pos win (s + stage) { st with bytes := st.bytes + slice }
      else
        let st := st.log (.pwrite item pos s)
        match pwriteAll it.fd st.hStage slice (it.diskOff + pos + s) (env.pwrite item pos s) 0 with
        | none => none
        | some (ws, some errno) =>
          some ({ st with writes := st.writes ++ ws }.fail ("pwrite: " ++ env.strerror errno))
        | some (ws, none) =>
          sliceLoop pos win (s + stage) { st with writes := st.writes ++ ws, bytes := st.bytes + slice }
  else some st
termination_by win - s
decreasing_by all_goals omega

def windowLoop (pos : Nat) (st : State) : Option State :=
  if _h : pos < it.len then
    let win := floorTo (min window (it.len - pos)) cfg.superBytes
    if _hwin : win = 0 then some st
    else
      let rbo := (it.diskOff + pos) / 32
      let st := st.log (.label item pos)
      if env.label item pos = false then some (st.fail "pose_graph_hbm_topo_label failed")
      else
        let st := { st with dBuf := topoLabel cfg env.output st.dBuf win rbo }
        match sliceLoop env cfg item it stage pos win 0 st with
        | none => none
        | some st => windowLoop (pos + win) st
  else some st
termination_by it.len - pos
decreasing_by omega

end Loops

/-- The loop over the items, from number `item` on. -/
def itemLoop (env : Env) (cfg : Config) (window stage : Nat) : List WorkItem → (item : Nat) → State → Option State
  | [], _, st => some st
  | it :: items, item, st =>
    if st.ok = false then some st
    else
      match windowLoop env cfg item it window stage 0 st with
      | none => none
      | some st =>
        let st := if st.ok && !cfg.dryRun then { st with fsyncs := st.fsyncs ++ [(item, env.fsync item)] } else st
        itemLoop env cfg window stage items (item + 1) st

/-- `total_len`, a `uint64_t`. -/
def totalLen (items : List WorkItem) : Nat := items.foldl (fun n it => (n + it.len) % 2 ^ 64) 0

def maxItem (items : List WorkItem) : Nat := items.foldl (fun n it => max n it.len) 0

def windowBytes (env : Env) (cfg : Config) (items : List WorkItem) : Nat :=
  let window := if cfg.hbmWindowMib ≠ 0 then cfg.hbmWindowMib * mib % 2 ^ 64 else min env.freeWindow (16384 * mib)
  let window := if maxItem items ≠ 0 ∧ window > maxItem items then maxItem items else window
  let window := floorTo window cfg.superBytes
  if window < cfg.superBytes then cfg.superBytes else window

def stageBytes (cfg : Config) (window : Nat) : Nat :=
  let stage := floorTo (cfg.stageMib * mib % 2 ^ 64) cfg.superBytes
  let stage := if stage < cfg.superBytes then cfg.superBytes else stage
  if stage > window then window else stage

def State.hold (st : State) (r : Resource) : State := { st with held := r :: st.held }

def State.release (st : State) (r : Resource) : State := { st with held := st.held.erase r }

def worker (env : Env) (cfg : Config) (items : List WorkItem) (st : State) : Option State :=
  if env.setDevice = false then some (st.fail "cudaSetDevice failed")
  else if totalLen items = 0 then some st
  else if env.topoBuild = false then some (st.fail "pose_graph_hbm_topo_build failed")
  else
    let st := st.hold .topo
    if env.memGetInfo = false then some ((st.release .topo).fail "cudaMemGetInfo failed")
    else
      let window := windowBytes env cfg items
      let stage := stageBytes cfg window
      if env.malloc = false then some ((st.release .topo).fail "cudaMalloc(label window) failed")
      else
        let st := st.hold .dBuf
        if env.mallocHost = false then
          some (((st.release .dBuf).release .topo).fail "cudaMallocHost(stage) failed")
        else
          let st := st.hold .hStage
          (itemLoop env cfg window stage items 0 st).map fun st =>
            ((st.release .hStage).release .dBuf).release .topo

/-- A fresh `WorkerResult`; the buffers hold anything. -/
def State.init (dBuf hStage : Nat → Byte) : State := ⟨true, "", 0, dBuf, hStage, [], [], [], []⟩

end PoseDB.Wipe
