import PoseDB.Lib.Loop
import PoseDB.Hash.Node
import PoseDB.Graph.Count

/-!
# The id-indexed emitter (`graph.c`, `emitter_t`)

Node-id arrays live in one flat memory `mem` of `uint64_t` cells (the tail of the scratch buffer): an array is the
address of its first cell, and `arenaAlloc` bumps `arenaOff` over the cells from `arena` on. In labeling mode
`labels` is the label buffer indexed by node id; in edge mode it is absent and `nodes` records the predecessors.

Three fields are ghosts, written and never read: `arenaHi` (the high-water mark of the arena), `emitted` (the ids in
the order in which they were taken from the counter) and `hashed` (the node-hash derivations, in order).
-/

set_option autoImplicit false

namespace PoseDB.Graph
open Loops Mem

/-- `pose_node_t`. -/
structure PoseNode where
  numPreds : Nat
  pred0 : Nat
  pred1 : Nat
  challengeRank : Int
deriving DecidableEq, Repr

/-- `emitter_t`. -/
structure Emitter (α : Type) where
  nextId : Nat
  labels : Option (Nat → α)
  nodes : Option (Nat → PoseNode)
  seed : α
  desc : α
  arena : Nat
  arenaCap : Nat
  arenaOff : Nat
  algo : PoseHashAlgo
  mem : Nat → Nat
  arenaHi : Nat
  emitted : List Nat
  hashed : List (HashCall α)

variable {α : Type}

def Emitter.top (e : Emitter α) : Nat := e.arena + e.arenaOff

def Emitter.arenaAlloc (e : Emitter α) (n : Nat) : Nat × Emitter α :=
  (e.top, { e with arenaOff := e.arenaOff + n, arenaHi := max e.arenaHi (e.arenaOff + n) })

/-- `e->next_id++`. -/
def Emitter.takeId (e : Emitter α) : Nat × Emitter α :=
  (e.nextId, { e with nextId := e.nextId + 1, emitted := e.emitted ++ [e.nextId] })

/-- `if (e->labels) pose_label_node(label_of(e, id), is_source, id, label_of(e, pred0), ...)`. -/
def Emitter.labelNode (H : PoseHash α) (e : Emitter α) (isSource : Bool) (id : Nat) (pred0 pred1 : Option Nat) :
    Emitter α :=
  let call := fun labels : Nat → α => (⟨isSource, id, pred0.map labels, pred1.map labels⟩ : HashCall α)
  { e with
    labels := e.labels.map fun labels =>
      Function.update labels id (H.label e.seed e.desc e.algo (call labels))
    hashed := e.hashed ++ (e.labels.map call).toList }

/-- `if (e->nodes) { e->nodes[id]... }`. -/
def Emitter.recordNode (e : Emitter α) (id : Nat) (f : PoseNode → PoseNode) : Emitter α :=
  { e with nodes := e.nodes.map fun nodes => Function.update nodes id (f (nodes id)) }

section Emit
variable (H : PoseHash α)

def emitSource (e : Emitter α) : Nat × Emitter α :=
  let (id, e) := e.takeId
  let e := e.labelNode H true id none none
  let e := e.recordNode id fun nd => { nd with numPreds := 0, challengeRank := -1 }
  (id, e)

def emit1 (e : Emitter α) (pred0 : Nat) : Nat × Emitter α :=
  let (id, e) := e.takeId
  let e := e.labelNode H false id (some pred0) none
  let e := e.recordNode id fun nd => { nd with numPreds := 1, pred0 := pred0, challengeRank := -1 }
  (id, e)

def emit2 (e : Emitter α) (pred0 pred1 : Nat) : Nat × Emitter α :=
  let (id, e) := e.takeId
  let (pred0, pred1) := if pred0 > pred1 then (pred1, pred0) else (pred0, pred1)
  let e := e.labelNode H false id (some pred0) (some pred1)
  let e := e.recordNode id fun nd =>
    { nd with numPreds := 2, pred0 := pred0, pred1 := pred1, challengeRank := -1 }
  (id, e)

/-! ## One layer, edge path -/

/-- `for (i = 0; i < width; i++) dst[i] = emit1(e, src[i]);` -/
def edgeLayer1 (width src dst : Nat) (e : Emitter α) : Emitter α :=
  loop width (fun i e =>
    let (id, e) := emit1 H e (e.mem (src + i))
    { e with mem := Function.update e.mem (dst + i) id }) e

/-- `for (i = 0; i < width; i++) dst[i] = emit2(e, *a0(i), *a1(i));` where `a0 i`, `a1 i` are the cells read. -/
def edgeLayer2 (width : Nat) (a0 a1 : Nat → Nat) (dst : Nat) (e : Emitter α) : Emitter α :=
  loop width (fun i e =>
    let (id, e) := emit2 H e (e.mem (a0 i)) (e.mem (a1 i))
    { e with mem := Function.update e.mem (dst + i) id }) e

/-! ## One layer, batched label path -/

/-- `pose_label_node_many(n, 0, ids, pred0s, pred1s, ..., label_of(e, first_id), ...)`; the entries of `pred0s` and
`pred1s` are labels of the buffer, named by node id. -/
def Emitter.labelNodeMany (e : Emitter α) (n : Nat) (ids pred0s : Nat → Nat) (pred1s : Option (Nat → Nat))
    (firstId : Nat) : Emitter α :=
  let p0 := fun (labels : Nat → α) => some fun j => some (labels (pred0s j))
  let p1 := fun (labels : Nat → α) => pred1s.map fun ps j => some (labels (ps j))
  { e with
    labels := e.labels.map fun labels =>
      store labels firstId n (poseLabelNodeMany H false ids (p0 labels) (p1 labels) e.seed e.desc e.algo)
    hashed := e.hashed ++
      (e.labels.map fun labels => (List.range n).map (batchCall false ids (p0 labels) (p1 labels))).getD [] }

/-- The local arrays of a batch. -/
structure Batch (α : Type) where
  ids : Nat → Nat
  pred0s : Nat → Nat
  pred1s : Nat → Nat
  e : Emitter α

def Batch.init (e : Emitter α) : Batch α := ⟨fun _ => 0, fun _ => 0, fun _ => 0, e⟩

/-- Entry `j` of the batch that starts at `i`, in a layer of one-predecessor nodes. -/
def Batch.entry1 (src dst i j : Nat) (b : Batch α) : Batch α :=
  let (id, e) := b.e.takeId
  let e := { e with mem := Function.update e.mem (dst + (i + j)) id }
  let p0 := e.mem (src + (i + j))
  { b with ids := Function.update b.ids j id, pred0s := Function.update b.pred0s j p0, e := e }

/-- Entry `j` of the batch that starts at `i`, in a layer of two-predecessor nodes. -/
def Batch.entry2 (a0 a1 : Nat → Nat) (dst i j : Nat) (b : Batch α) : Batch α :=
  let (id, e) := b.e.takeId
  let e := { e with mem := Function.update e.mem (dst + (i + j)) id }
  let p0 := e.mem (a0 (i + j))
  let p1 := e.mem (a1 (i + j))
  let (p0, p1) := if p0 > p1 then (p1, p0) else (p0, p1)
  { ids := Function.update b.ids j id, pred0s := Function.update b.pred0s j p0,
    pred1s := Function.update b.pred1s j p1, e := e }

/-- The batch `i, ..., i + batch - 1` of a layer of one-predecessor nodes. -/
def labelBatch1 (src dst i batch : Nat) (e : Emitter α) : Emitter α :=
  let firstId := e.nextId
  let b := loop batch (Batch.entry1 src dst i) (Batch.init e)
  b.e.labelNodeMany H batch b.ids b.pred0s none firstId

/-- The batch `i, ..., i + batch - 1` of a layer of two-predecessor nodes. -/
def labelBatch2 (a0 a1 : Nat → Nat) (dst i batch : Nat) (e : Emitter α) : Emitter α :=
  let firstId := e.nextId
  let b := loop batch (Batch.entry2 a0 a1 dst i) (Batch.init e)
  b.e.labelNodeMany H batch b.ids b.pred0s (some b.pred1s) firstId

def labelLayer1 (width src dst : Nat) (e : Emitter α) : Emitter α :=
  batchLoop width poseLabelBatch (labelBatch1 H src dst) 0 e

def labelLayer2 (width : Nat) (a0 a1 : Nat → Nat) (dst : Nat) (e : Emitter α) : Emitter α :=
  batchLoop width poseLabelBatch (labelBatch2 H a0 a1 dst) 0 e

/-! ## Components -/

/-- The layers of `emit_connector`: the batched path when there is a label buffer, else the sequential one. The last
layer is left in the first array of the result. -/
def connectorLayers (e : Emitter α) (dim inputs prev curr : Nat) : Emitter α × Nat × Nat :=
  let width := 2 ^ dim
  if e.labels.isSome then
    let e := labelLayer1 H width inputs prev e
    loop dim (fun layer (e, prev, curr) =>
      let bit := 2 ^ (dim - 1 - layer)
      let e := labelLayer2 H width (fun i => prev + i) (fun i => prev + (i ^^^ bit)) curr e
      (e, curr, prev)) (e, prev, curr)
  else
    let e := edgeLayer1 H width inputs prev e
    loop dim (fun layer (e, prev, curr) =>
      let bit := 2 ^ (dim - 1 - layer)
      let e := edgeLayer2 H width (fun i => prev + i) (fun i => prev + (i ^^^ bit)) curr e
      (e, curr, prev)) (e, prev, curr)

def emitConnector (e : Emitter α) (dim inputs outputs : Nat) : Emitter α :=
  let width := 2 ^ dim
  let saved := e.arenaOff
  let (prev, e) := e.arenaAlloc width
  let (curr, e) := e.arenaAlloc width
  let (e, prev, _) := connectorLayers H e dim inputs prev curr
  let e := { e with mem := memcpy e.mem outputs prev width }
  { e with arenaOff := saved }

/-- The layers `1, ..., dim` of the center butterfly: the last one goes to `outputs`. -/
def centerLayers (layer2 : (a0 a1 : Nat → Nat) → Nat → Emitter α → Emitter α) (dim outputs prev curr : Nat)
    (e : Emitter α) : Emitter α :=
  (loop dim (fun l (e, prev, curr) =>
    let layer := l + 1
    let bit := 2 ^ (dim - layer)
    let dst := if layer = dim then outputs else curr
    let e := layer2 (fun i => prev + i) (fun i => prev + (i ^^^ bit)) dst e
    if layer < dim then (e, curr, prev) else (e, prev, curr)) (e, prev, curr)).1

/-- The layers `1, ..., dim` of the ingress butterfly. -/
def ingressLayers (layer2 : (a0 a1 : Nat → Nat) → Nat → Emitter α → Emitter α) (dim prev curr : Nat)
    (e : Emitter α) : Emitter α × Nat × Nat :=
  loop dim (fun l (e, prev, curr) =>
    let layer := l + 1
    let bit := 2 ^ (dim - layer)
    let e := layer2 (fun i => prev + i) (fun i => prev + (i ^^^ bit)) curr e
    (e, curr, prev)) (e, prev, curr)

/-- The layers of `emit_merged_center_ingress`, `dim ≥ 1`. -/
def mergedLayers (e : Emitter α) (dim primaryInputs ingressInputs outputs ingPrev ingCurr ctrPrev ctrCurr : Nat) :
    Emitter α :=
  let width := 2 ^ dim
  if e.labels.isSome then
    let e := labelLayer1 H width ingressInputs ingPrev e
    let (e, ingPrev, _) := ingressLayers (labelLayer2 H width) dim ingPrev ingCurr e
    let e := labelLayer2 H width (fun i => primaryInputs + i) (fun i => ingPrev + i) ctrPrev e
    centerLayers (labelLayer2 H width) dim outputs ctrPrev ctrCurr e
  else
    let e := edgeLayer1 H width ingressInputs ingPrev e
    let (e, ingPrev, _) := ingressLayers (edgeLayer2 H width) dim ingPrev ingCurr e
    let e := edgeLayer2 H width (fun i => primaryInputs + i) (fun i => ingPrev + i) ctrPrev e
    centerLayers (edgeLayer2 H width) dim outputs ctrPrev ctrCurr e

def emitMergedCenterIngress (e : Emitter α) (dim primaryInputs ingressInputs outputs : Nat) : Emitter α :=
  if dim = 0 then
    let (ig, e) := emit1 H e (e.mem ingressInputs)
    let (out, e) := emit2 H e (e.mem primaryInputs) ig
    { e with mem := Function.update e.mem outputs out }
  else
    let width := 2 ^ dim
    let saved := e.arenaOff
    let (ingPrev, e) := e.arenaAlloc width
    let (ingCurr, e) := e.arenaAlloc width
    let (ctrPrev, e) := e.arenaAlloc width
    let (ctrCurr, e) := e.arenaAlloc width
    let e := mergedLayers H e dim primaryInputs ingressInputs outputs ingPrev ingCurr ctrPrev ctrCurr
    { e with arenaOff := saved }

def emitConnected (e : Emitter α) : (level width inputs baseOut : Nat) → Emitter α
  | 0, _, inputs, baseOut =>
    let (id, e) := emit1 H e (e.mem inputs)
    { e with mem := Function.update e.mem baseOut id }
  | level + 1, width, inputs, baseOut =>
    let half := width / 2
    let saved := e.arenaOff
    let (leftBase, e) := e.arenaAlloc half
    let (centerOut, e) := e.arenaAlloc half
    let (rightBase, e) := e.arenaAlloc half
    let e := emitConnected e level half inputs leftBase
    let e := emitMergedCenterIngress H e level leftBase (inputs + half) centerOut
    let e := emitConnected e level half centerOut rightBase
    let e := { e with mem := memcpy e.mem baseOut leftBase half }
    let e := { e with mem := memcpy e.mem (baseOut + half) rightBase half }
    { e with arenaOff := saved }

def emitStandalone (e : Emitter α) : (level baseOut : Nat) → Emitter α
  | 0, baseOut =>
    let (id, e) := emitSource H e
    { e with mem := Function.update e.mem baseOut id }
  | level + 1, baseOut =>
    let half := 2 ^ level
    let saved := e.arenaOff
    let (leftBase, e) := e.arenaAlloc half
    let (centerOut, e) := e.arenaAlloc half
    let (rightBase, e) := e.arenaAlloc half
    let e := emitStandalone e level leftBase
    let e := emitConnector H e level leftBase centerOut
    let e := emitConnected H e level half centerOut rightBase
    let e := { e with mem := memcpy e.mem baseOut leftBase half }
    let e := { e with mem := memcpy e.mem (baseOut + half) rightBase half }
    { e with arenaOff := saved }

end Emit

end PoseDB.Graph
