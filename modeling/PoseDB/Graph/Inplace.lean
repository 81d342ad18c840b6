import PoseDB.Graph.Label
import Mathlib.Data.Nat.Bitwise

/-!
# The label-carrying emitter (`graph.c`, `lemitter_t`)

Here an array cell holds the label of a node, not its id, and the arena is reused for the right half. Predecessors are
passed in the order of the source: `idx & ~bit` before `idx | bit`, primary before ingress. No ids are compared.
-/

set_option autoImplicit false

namespace PoseDB.Graph
open Loops Mem

/-- `lemitter_t`. Its arena lies in the block memory `mem`; `hashed` is a ghost. The assertion of `lc_arena_alloc` is
`arenaHi ≤ arenaCap`. -/
structure LEmitter (α : Type) where
  nextId : Nat
  seed : α
  desc : α
  arena : Nat
  arenaCap : Nat
  arenaOff : Nat
  arenaHi : Nat
  algo : PoseHashAlgo
  mem : Nat → α
  hashed : List (HashCall α)

variable {α : Type}

def LEmitter.top (e : LEmitter α) : Nat := e.arena + e.arenaOff

def LEmitter.arenaAlloc (e : LEmitter α) (n : Nat) : Nat × LEmitter α :=
  (e.top, { e with arenaOff := e.arenaOff + n, arenaHi := max e.arenaHi (e.arenaOff + n) })

section Lc
variable (H : PoseHash α)

/-- `id = e->next_id++; pose_label_node(dst, is_source, id, p0, p1, ...)`, the label returned. -/
def LEmitter.labelNode (e : LEmitter α) (isSource : Bool) (p0 p1 : Option α) : α × LEmitter α :=
  let call : HashCall α := ⟨isSource, e.nextId, p0, p1⟩
  (H.label e.seed e.desc e.algo call, { e with nextId := e.nextId + 1, hashed := e.hashed ++ [call] })

def LEmitter.write (e : LEmitter α) (dst : Nat) (label : α) : LEmitter α :=
  { e with mem := Function.update e.mem dst label }

def lcSource (e : LEmitter α) (dst : Nat) : LEmitter α :=
  let (label, e) := e.labelNode H true none none
  e.write dst label

def lc1 (e : LEmitter α) (dst : Nat) (p0 : α) : LEmitter α :=
  let (label, e) := e.labelNode H false (some p0) none
  e.write dst label

def lc2 (e : LEmitter α) (dst : Nat) (p0 p1 : α) : LEmitter α :=
  let (label, e) := e.labelNode H false (some p0) (some p1)
  e.write dst label

/-! ## One layer -/

/-- `pose_label_node_many(n, 0, ids, pred0s, pred1s, ..., dst, ...)`; the entries of `pred0s` and `pred1s` are the
addresses of blocks. -/
def LEmitter.labelNodeMany (e : LEmitter α) (n : Nat) (ids pred0s : Nat → Nat) (pred1s : Option (Nat → Nat))
    (dst : Nat) : LEmitter α :=
  let p0 : Option (Nat → Option α) := some fun j => some (e.mem (pred0s j))
  let p1 : Option (Nat → Option α) := pred1s.map fun ps j => some (e.mem (ps j))
  { e with
    mem := store e.mem dst n (poseLabelNodeMany H false ids p0 p1 e.seed e.desc e.algo)
    hashed := e.hashed ++ (List.range n).map (batchCall false ids p0 p1) }

/-- The local arrays of a batch. -/
structure LBatch (α : Type) where
  ids : Nat → Nat
  pred0s : Nat → Nat
  pred1s : Nat → Nat
  e : LEmitter α

def LBatch.init (e : LEmitter α) : LBatch α := ⟨fun _ => 0, fun _ => 0, fun _ => 0, e⟩

/-- Entry `j` of the batch that starts at `i`; the predecessors of index `idx` are the blocks `a0 idx` and `a1 idx`. -/
def LBatch.entry (a0 : Nat → Nat) (a1 : Option (Nat → Nat)) (i j : Nat) (b : LBatch α) : LBatch α :=
  { ids := Function.update b.ids j b.e.nextId
    pred0s := Function.update b.pred0s j (a0 (i + j))
    pred1s := match a1 with
      | none => b.pred1s
      | some a1 => Function.update b.pred1s j (a1 (i + j))
    e := { b.e with nextId := b.e.nextId + 1 } }

/-- The batch `i, ..., i + batch - 1` of a layer. -/
def lcBatch (a0 : Nat → Nat) (a1 : Option (Nat → Nat)) (dst i batch : Nat) (e : LEmitter α) : LEmitter α :=
  let b := loop batch (LBatch.entry a0 a1 i) (LBatch.init e)
  b.e.labelNodeMany H batch b.ids b.pred0s (a1.map fun _ => b.pred1s) (dst + i)

def lcLayer (width : Nat) (a0 : Nat → Nat) (a1 : Option (Nat → Nat)) (dst : Nat) (e : LEmitter α) : LEmitter α :=
  batchLoop width poseLabelBatch (lcBatch H a0 a1 dst) 0 e

/-- Layer `0` over one array. -/
def lcLayer1 (width src dst : Nat) : LEmitter α → LEmitter α := lcLayer H width (fun idx => src + idx) none dst

/-- A layer over the pairs `idx & ~bit`, `idx | bit`. -/
def lcLayer2 (width bit prev dst : Nat) : LEmitter α → LEmitter α :=
  lcLayer H width (fun idx => prev + idx.ldiff bit) (some fun idx => prev + (idx ||| bit)) dst

/-! ## Components -/

def lcConnector (e : LEmitter α) (dim inputs outputs : Nat) : LEmitter α :=
  let width := 2 ^ dim
  let saved := e.arenaOff
  let (prev, e) := e.arenaAlloc width
  let (curr, e) := e.arenaAlloc width
  let e := lcLayer1 H width inputs prev e
  let (e, prev, _) := loop dim (fun layer (e, prev, curr) =>
    let bit := 2 ^ (dim - 1 - layer)
    let e := lcLayer2 H width bit prev curr e
    (e, curr, prev)) (e, prev, curr)
  let e := { e with mem := memcpy e.mem outputs prev width }
  { e with arenaOff := saved }

/-- The layers `1, ..., dim` of the ingress butterfly. -/
def lcIngressLayers (dim prev curr : Nat) (e : LEmitter α) : LEmitter α × Nat × Nat :=
  loop dim (fun l (e, prev, curr) =>
    let layer := l + 1
    let bit := 2 ^ (dim - layer)
    let e := lcLayer2 H (2 ^ dim) bit prev curr e
    (e, curr, prev)) (e, prev, curr)

/-- The layers `1, ..., dim` of the center butterfly: the last one goes to `outputs`. -/
def lcCenterLayers (dim outputs prev curr : Nat) (e : LEmitter α) : LEmitter α :=
  (loop dim (fun l (e, prev, curr) =>
    let layer := l + 1
    let bit := 2 ^ (dim - layer)
    let dst := if layer = dim then outputs else curr
    let e := lcLayer2 H (2 ^ dim) bit prev dst e
    if layer < dim then (e, curr, prev) else (e, prev, curr)) (e, prev, curr)).1

def lcMergedCenterIngress (e : LEmitter α) (dim primaryInputs ingressInputs outputs : Nat) : LEmitter α :=
  if dim = 0 then
    -- `lc1` into the local block `ig`
    let (ig, e) := e.labelNode H false (some (e.mem ingressInputs)) none
    lc2 H e outputs (e.mem primaryInputs) ig
  else
    let width := 2 ^ dim
    let saved := e.arenaOff
    let (ingPrev, e) := e.arenaAlloc width
    let (ingCurr, e) := e.arenaAlloc width
    let (ctrPrev, e) := e.arenaAlloc width
    let (ctrCurr, e) := e.arenaAlloc width
    let e := lcLayer1 H width ingressInputs ingPrev e
    let (e, ingPrev, _) := lcIngressLayers H dim ingPrev ingCurr e
    let e := lcLayer H width (fun idx => primaryInputs + idx) (some fun idx => ingPrev + idx) ctrPrev e
    let e := lcCenterLayers H dim outputs ctrPrev ctrCurr e
    { e with arenaOff := saved }

def lcConnected (e : LEmitter α) : (level width inputs baseOut : Nat) → LEmitter α
  | 0, _, inputs, baseOut => lc1 H e baseOut (e.mem inputs)
  | level + 1, width, inputs, baseOut =>
    let half := width / 2
    let saved := e.arenaOff
    let (leftBase, e) := e.arenaAlloc half
    let (centerOut, e) := e.arenaAlloc half
    let (rightBase, e) := e.arenaAlloc half
    let e := lcConnected e level half inputs leftBase
    let e := lcMergedCenterIngress H e level leftBase (inputs + half) centerOut
    let e := lcConnected e level half centerOut rightBase
    let e := { e with mem := memcpy e.mem baseOut leftBase half }
    let e := { e with mem := memcpy e.mem (baseOut + half) rightBase half }
    { e with arenaOff := saved }

def lcStandalone (e : LEmitter α) : (level baseOut : Nat) → LEmitter α
  | 0, baseOut => lcSource H e baseOut
  | level + 1, baseOut =>
    let half := 2 ^ level
    let saved := e.arenaOff
    let (leftBase, e) := e.arenaAlloc half
    let (centerOut, e) := e.arenaAlloc half
    let (rightBase, e) := e.arenaAlloc half
    let e := lcStandalone e level leftBase
    let e := lcConnector H e level leftBase centerOut
    let e := lcConnected H e level half centerOut rightBase
    let e := { e with mem := memcpy e.mem baseOut leftBase half }
    let e := { e with mem := memcpy e.mem (baseOut + half) rightBase half }
    { e with arenaOff := saved }

/-- The emitter that `do_label_inplace` sets up for the left half. -/
def inplaceEmitter (seed : α) (m : Nat) (scratch : Nat → α) (arena arenaSlots : Nat) (algo : PoseHashAlgo) :
    LEmitter α :=
  { nextId := 0, seed := seed, desc := H.graphDescriptor m (poseGraphParameterN m), arena := arena,
    arenaCap := arenaSlots, arenaOff := 0, arenaHi := 0, algo := algo, mem := scratch, hashed := [] }

/-- `do_label_inplace`; `buf` is the address of the output blocks in `mem`. Its scratch buffer holds blocks only. -/
def doLabelInplace (seed : α) (m : Nat) (mem : Nat → α) (buf : Nat) (scratch : Scratch α) (algo : PoseHashAlgo) :
    LabelResult α :=
  if m = 0 ∨ m > poseGraphMaxM then ⟨-1, mem, scratch, []⟩
  else
    let n := poseGraphParameterN m
    let level := n + 1
    let halfW := 2 ^ n
    let retained := m - halfW
    let leftTotal := standaloneNodeCount level
    let arenaSlots := poseArenaFactor * halfW
    let leftBase := 0
    let rightBase := leftBase + 2 * halfW
    let arena := rightBase + 2 * halfW
    let e := inplaceEmitter H seed m scratch.labels arena arenaSlots algo
    let e := lcStandalone H e level leftBase
    let e := { e with nextId := leftTotal, arenaOff := 0 }
    let e := lcStandalone H e level rightBase
    let mem := loop halfW (fun i mem => Function.update mem (buf + i) (e.mem (leftBase + halfW + i))) mem
    let mem := loop retained (fun i mem =>
      Function.update mem (buf + (halfW + i)) (e.mem (rightBase + halfW + i))) mem
    ⟨0, mem, ⟨e.mem, scratch.ids⟩, e.hashed⟩

end Lc

end PoseDB.Graph
