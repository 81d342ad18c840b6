import PoseDB.Lib.Mem

/-!
# The node hash interface (`hash.h`)

Labels, seeds and descriptors are 32-byte blocks; the graph code only passes them on, so it is written over an
arbitrary block type `α`. `PoseHash` holds the three functions of `hash.h` the graph code calls.
-/

set_option autoImplicit false

namespace PoseDB

/-- `pose_hash_algo_t`. -/
inductive PoseHashAlgo where
  | blake3
  | sha256
  | aesPrf
deriving DecidableEq, Repr

def poseLabelBatch : Nat := 16

/-- The functions of `hash.h`: `pose_label_node` (source flag, node index, optional predecessors, seed, descriptor,
algorithm), `pose_graph_descriptor` and `pose_chunk_seed`. -/
structure PoseHash (α : Type) where
  labelNode : Bool → Nat → Option α → Option α → α → α → PoseHashAlgo → α
  graphDescriptor : Nat → Nat → α
  chunkSeed : List UInt8 → Nat → α

def natHash : PoseHash Nat where
  labelNode isSource id pred0 pred1 seed desc _ :=
    (if isSource then 1 else 2) + 3 * id + 5 * pred0.getD 0 + 7 * pred1.getD 0 + 11 * seed + 13 * desc
  graphDescriptor m n := m + n
  chunkSeed _ i := i

/-- One derivation of a node label: what `pose_label_node` is called with, seed and descriptor apart. -/
structure HashCall (α : Type) where
  isSource : Bool
  nodeIndex : Nat
  pred0 : Option α
  pred1 : Option α
deriving DecidableEq, Repr

variable {α : Type}

def PoseHash.label (H : PoseHash α) (seed desc : α) (algo : PoseHashAlgo) (c : HashCall α) : α :=
  H.labelNode c.isSource c.nodeIndex c.pred0 c.pred1 seed desc algo

/-- Entry `i` of a batch: an absent array makes the predecessor absent. -/
def batchCall (isSource : Bool) (nodeIndices : Nat → Nat) (pred0s pred1s : Option (Nat → Option α)) (i : Nat) :
    HashCall α :=
  ⟨isSource, nodeIndices i, pred0s.bind (· i), pred1s.bind (· i)⟩

/-- `pose_label_node_many`: all `n` labels are derived into `tmp` before the first one is stored, so the result is
the array `tmp` as a function of the predecessor labels found on entry. -/
def poseLabelNodeMany (H : PoseHash α) (isSource : Bool) (nodeIndices : Nat → Nat)
    (pred0s pred1s : Option (Nat → Option α)) (seed desc : α) (algo : PoseHashAlgo) : Nat → α :=
  fun i => H.label seed desc algo (batchCall isSource nodeIndices pred0s pred1s i)

/-! ## The node index in a message -/

/-- The eight assignments of `build_node_msg` and `build_aes_msg`: `msg[0] = node_index >> 56`, ... -/
def putNodeIndex (buf : Nat → BitVec 8) (msg : Nat) (nodeIndex : BitVec 64) : Nat → BitVec 8 :=
  let buf := Function.update buf (msg + 0) ((nodeIndex >>> 56).setWidth 8)
  let buf := Function.update buf (msg + 1) ((nodeIndex >>> 48).setWidth 8)
  let buf := Function.update buf (msg + 2) ((nodeIndex >>> 40).setWidth 8)
  let buf := Function.update buf (msg + 3) ((nodeIndex >>> 32).setWidth 8)
  let buf := Function.update buf (msg + 4) ((nodeIndex >>> 24).setWidth 8)
  let buf := Function.update buf (msg + 5) ((nodeIndex >>> 16).setWidth 8)
  let buf := Function.update buf (msg + 6) ((nodeIndex >>> 8).setWidth 8)
  Function.update buf (msg + 7) (nodeIndex.setWidth 8)

theorem putNodeIndex_eq (buf : Nat → BitVec 8) (msg : Nat) (nodeIndex : BitVec 64) :
    putNodeIndex buf msg nodeIndex = Mem.store buf msg 8 fun j => (nodeIndex >>> (8 * (7 - j))).setWidth 8 := by
  have h := Mem.loop_update_eq_store buf msg 8 fun j => (nodeIndex >>> (8 * (7 - j))).setWidth 8
  rw [← h, putNodeIndex, show nodeIndex.setWidth 8 = (nodeIndex >>> 0).setWidth 8 by rw [BitVec.ushiftRight_zero]]
  rfl

end PoseDB
