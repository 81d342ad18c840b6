import PoseDB.Hash.AesPrf
import PoseDB.Hash.Blake3
import PoseDB.Hash.Sha256

/-!
# Node labels (`hash.c`)

`pose_label_node` and `pose_label_node_many` over the three hash functions. The batch takes another route with each of
them: lanes of `blake3_hash_many`, a loop, groups of four. Every entry gets the label it would get alone, also where the
labels are written over the predecessors (`poseLabelNodeMany_eq`).
-/

set_option autoImplicit false

namespace PoseDB.LabelNode
open Loops Mem
open Blake3 (Word Byte HashMany)
open AesPrf (optLabel predAt)

/-! ## The code -/

/-- `if (pred) memcpy(msg + p, pred, 32)`. -/
def putPred (mem : Nat → Byte) (msg : Nat → Byte) (p : Nat) (pred : Option Nat) : Nat → Byte :=
  match pred with
  | some q => store msg p 32 fun i => mem (q + i)
  | none => msg

def buildNodeMsg (mem : Nat → Byte) (msg : Nat → Byte) (nodeIndex : BitVec 64) (pred0 pred1 : Option Nat)
    (seed descriptor : Nat) : Nat → Byte :=
  let msg := store msg 0 192 fun _ => 0
  let msg := putNodeIndex msg 0 nodeIndex
  let msg := putPred mem msg 64 pred0
  let msg := putPred mem msg 96 pred1
  let msg := store msg 128 32 fun i => mem (seed + i)
  store msg 160 32 fun i => mem (descriptor + i)

/-- What differs between builds and machines: the AES instructions, the `blake3_hash_many` that is dispatched to, and
the keys that `ensure_keys` derives. -/
structure Build where
  isa : AesPrf.Isa
  hashMany : HashMany
  keySrc : Fin 8 → Word
  keyInt : Fin 8 → Word

/-- `is_source ? g_key_src : g_key_int`. -/
def Build.key (B : Build) (isSource : Bool) : Fin 8 → Word := if isSource then B.keySrc else B.keyInt

/-- The local arrays of a call before they are filled; those of a function it calls, by the number of the call. -/
structure Locals where
  tmp : Nat → Byte
  msgs : Nat → Nat → Byte
  padded : Nat → Nat → Byte
  w : Nat → Nat → Word
  aes : Nat → AesPrf.Locals

/-- `pose_sha256(msg, 192, tmp + p)`, as call number `i`. -/
def putSha256 (v : Locals) (i : Nat) (msg : Nat → Byte) (tmp : Nat → Byte) (p : Nat) : Nat → Byte :=
  let digest := Sha256.poseSha256 (v.padded i) (v.w i) ((List.range 192).map msg)
  store tmp p 32 fun j => digest.getD j 0

/-- `blake3_hash_many` as both functions call it. -/
def Build.hash (B : Build) (isSource : Bool) (inputs : List (Nat → Byte)) (tmp : Nat → Byte) : Nat → Byte :=
  B.hashMany inputs 3 (B.key isSource) 0 false Blake3.keyedHash Blake3.chunkStart (Blake3.chunkEnd ||| Blake3.root) tmp 0

/-- The array `tmp` of `pose_label_node`, and the round keys the thread has cached. -/
def nodeTmp (B : Build) (v : Locals) (cache : AesPrf.KeyCache) (mem : Nat → Byte) (isSource : Bool)
    (nodeIndex : BitVec 64) (pred0 pred1 : Option Nat) (seed descriptor : Nat) (algo : PoseHashAlgo) :
    AesPrf.KeyCache × (Nat → Byte) :=
  let p0 := if isSource then none else pred0
  let p1 := if isSource then none else pred1
  match algo with
  | .aesPrf => AesPrf.poseAesPrfMany B.isa (v.aes 0) cache
      { mem := mem, outs := v.tmp, n := 1, out := 0, isSource := isSource, nodeIndices := fun _ => nodeIndex,
        pred0s := some fun _ => p0, pred1s := some fun _ => p1, seed := seed, descriptor := descriptor }
  | .sha256 =>
    let msg := buildNodeMsg mem (v.msgs 0) nodeIndex p0 p1 seed descriptor
    (cache, putSha256 v 0 msg v.tmp 0)
  | .blake3 =>
    let msg := buildNodeMsg mem (v.msgs 0) nodeIndex p0 p1 seed descriptor
    (cache, B.hash isSource [msg] v.tmp)

/-- `pose_label_node`: the cache and the memory after it. -/
def poseLabelNode (B : Build) (v : Locals) (cache : AesPrf.KeyCache) (mem : Nat → Byte) (out : Nat) (isSource : Bool)
    (nodeIndex : BitVec 64) (pred0 pred1 : Option Nat) (seed descriptor : Nat) (algo : PoseHashAlgo) :
    AesPrf.KeyCache × (Nat → Byte) :=
  let r := nodeTmp B v cache mem isSource nodeIndex pred0 pred1 seed descriptor algo
  (r.1, store mem out 32 r.2)

/-- `preds ? preds + base : NULL`. -/
def rebase (preds : Option (Nat → Option Nat)) (base : Nat) : Option (Nat → Option Nat) :=
  preds.map fun a i => a (base + i)

/-- The call of `pose_aes_prf_many` for the `b` entries from `base` on. -/
def groupCall (mem : Nat → Byte) (isSource : Bool) (nodeIndices : Nat → BitVec 64)
    (pred0s pred1s : Option (Nat → Option Nat)) (seed descriptor : Nat) (tmp : Nat → Byte) (base b : Nat) :
    AesPrf.Call where
  mem := mem
  outs := tmp
  n := b
  out := base * 32
  isSource := isSource
  nodeIndices i := nodeIndices (base + i)
  pred0s := rebase pred0s base
  pred1s := rebase pred1s base
  seed := seed
  descriptor := descriptor

/-- The array `tmp` of `pose_label_node_many`. -/
def manyTmp (B : Build) (v : Locals) (cache : AesPrf.KeyCache) (mem : Nat → Byte) (n : Nat) (isSource : Bool)
    (nodeIndices : Nat → BitVec 64) (pred0s pred1s : Option (Nat → Option Nat)) (seed descriptor : Nat)
    (algo : PoseHashAlgo) : AesPrf.KeyCache × (Nat → Byte) :=
  let msgs := fun i => buildNodeMsg mem (v.msgs i) (nodeIndices i) (predAt isSource pred0s i)
    (predAt isSource pred1s i) seed descriptor
  match algo with
  | .aesPrf => batchLoop n 4 (fun base b r => AesPrf.poseAesPrfMany B.isa (v.aes base) r.1
      (groupCall mem isSource nodeIndices pred0s pred1s seed descriptor r.2 base b)) 0 (cache, v.tmp)
  | .sha256 => (cache, loop n (fun i tmp => putSha256 v i (msgs i) tmp (i * 32)) v.tmp)
  | .blake3 => (cache, B.hash isSource ((List.range n).map msgs) v.tmp)

def poseLabelNodeMany (B : Build) (v : Locals) (cache : AesPrf.KeyCache) (mem : Nat → Byte) (n : Nat) (isSource : Bool)
    (nodeIndices : Nat → BitVec 64) (pred0s pred1s : Option (Nat → Option Nat)) (seed descriptor outs : Nat)
    (algo : PoseHashAlgo) : AesPrf.KeyCache × (Nat → Byte) :=
  let r := manyTmp B v cache mem n isSource nodeIndices pred0s pred1s seed descriptor algo
  (r.1, loop n (fun i mem => store mem (outs + i * 32) 32 fun j => r.2 (i * 32 + j)) mem)

/-! ## The message -/

/-- The message of 192 bytes: the node index with its most significant byte first and zeros, both predecessors, the
seed and the descriptor. -/
def nodeMessage (nodeIndex : BitVec 64) (pred0 pred1 seed descriptor : Nat → Byte) (j : Nat) : Byte :=
  if j < 8 then (nodeIndex >>> (8 * (7 - j))).setWidth 8
  else if j < 64 then 0
  else if j < 96 then pred0 (j - 64)
  else if j < 128 then pred1 (j - 96)
  else if j < 160 then seed (j - 128)
  else descriptor (j - 160)

theorem putPred_in {mem msg : Nat → Byte} {p : Nat} (pred : Option Nat) {i : Nat} (hi : i < 32)
    (hzero : msg (p + i) = 0) : putPred mem msg p pred (p + i) = optLabel mem pred i := by
  cases pred with
  | none => exact hzero
  | some q =>
    rw [putPred, store_in _ _ _ _ hi]
    rfl

theorem putPred_out {mem msg : Nat → Byte} {p : Nat} (pred : Option Nat) {a : Nat} (ha : a < p ∨ p + 32 ≤ a) :
    putPred mem msg p pred a = msg a := by
  cases pred with
  | none => rfl
  | some q => rw [putPred, store_out _ _ _ _ ha]

/-- `build_node_msg` builds the message. -/
theorem buildNodeMsg_in (mem msg : Nat → Byte) (nodeIndex : BitVec 64) (pred0 pred1 : Option Nat)
    (seed descriptor : Nat) {j : Nat} (hj : j < 192) :
    buildNodeMsg mem msg nodeIndex pred0 pred1 seed descriptor j =
      nodeMessage nodeIndex (optLabel mem pred0) (optLabel mem pred1) (fun i => mem (seed + i))
        (fun i => mem (descriptor + i)) j := by
  have hzero : ∀ j < 192, store msg 0 192 (fun _ => 0) j = 0 := fun j hj => by
    rw [← Nat.zero_add j, store_in _ _ _ _ hj]
  unfold buildNodeMsg nodeMessage
  dsimp only
  rw [putNodeIndex_eq]
  by_cases h160 : 160 ≤ j
  · obtain ⟨i, rfl⟩ := Nat.exists_eq_add_of_le h160
    rw [store_in _ _ _ _ (by omega), if_neg (by omega), if_neg (by omega), if_neg (by omega), if_neg (by omega),
      if_neg (by omega), Nat.add_sub_cancel_left]
  rw [store_out _ _ _ _ (by omega)]
  by_cases h128 : 128 ≤ j
  · obtain ⟨i, rfl⟩ := Nat.exists_eq_add_of_le h128
    rw [store_in _ _ _ _ (by omega), if_neg (by omega), if_neg (by omega), if_neg (by omega), if_neg (by omega),
      if_pos (by omega), Nat.add_sub_cancel_left]
  rw [store_out _ _ _ _ (by omega)]
  by_cases h96 : 96 ≤ j
  · obtain ⟨i, rfl⟩ := Nat.exists_eq_add_of_le h96
    rw [putPred_in _ (by omega) ?_, if_neg (by omega), if_neg (by omega), if_neg (by omega), if_pos (by omega),
      Nat.add_sub_cancel_left]
    rw [putPred_out _ (by omega), store_out _ _ _ _ (by omega), hzero _ hj]
  rw [putPred_out _ (by omega)]
  by_cases h64 : 64 ≤ j
  · obtain ⟨i, rfl⟩ := Nat.exists_eq_add_of_le h64
    rw [putPred_in _ (by omega) ?_, if_neg (by omega), if_neg (by omega), if_pos (by omega), Nat.add_sub_cancel_left]
    rw [store_out _ _ _ _ (by omega), hzero _ hj]
  rw [putPred_out _ (by omega)]
  by_cases h8 : 8 ≤ j
  · rw [store_out _ _ _ _ (by omega), hzero _ hj, if_neg (by omega), if_pos (by omega)]
  · have hin := store_in (store msg 0 192 fun _ => 0) 0 8
      (fun j => (nodeIndex >>> (8 * (7 - j))).setWidth 8) (show j < 8 by omega)
    rw [Nat.zero_add] at hin
    rw [hin, if_pos (by omega)]

theorem buildNodeMsg_congr (mem msg msg' : Nat → Byte) (nodeIndex : BitVec 64) (pred0 pred1 : Option Nat)
    (seed descriptor : Nat) {j : Nat} (hj : j < 192) :
    buildNodeMsg mem msg nodeIndex pred0 pred1 seed descriptor j =
      buildNodeMsg mem msg' nodeIndex pred0 pred1 seed descriptor j :=
  (buildNodeMsg_in mem msg nodeIndex pred0 pred1 seed descriptor hj).trans
    (buildNodeMsg_in mem msg' nodeIndex pred0 pred1 seed descriptor hj).symm

/-! ## One entry and its batch -/

section Batch

variable (B : Build) {cache cache' : AesPrf.KeyCache} {mem : Nat → Byte} {n seed descriptor : Nat} {isSource : Bool}
  {nodeIndices : Nat → BitVec 64} {pred0s pred1s : Option (Nat → Option Nat)}

theorem predAt_rebase (preds : Option (Nat → Option Nat)) (base i : Nat) :
    predAt isSource (rebase preds base) i = predAt isSource preds (base + i) := by
  cases preds <;> rfl

def aesLabel (mem : Nat → Byte) (nodeIndex : BitVec 64) (p0 p1 : Option Nat) (seed descriptor j : Nat) : Byte :=
  AesPrf.label (fun j => mem (seed + j))
    (AesPrf.message nodeIndex (optLabel mem p0) (optLabel mem p1) fun j => mem (descriptor + j)) j

/-- Entry `i` of a group is entry `base + i` of the batch. -/
theorem label_group (tmp : Nat → Byte) (base b i j : Nat) :
    AesPrf.label (fun j => mem (seed + j))
      ((groupCall mem isSource nodeIndices pred0s pred1s seed descriptor tmp base b).message i) j =
      aesLabel mem (nodeIndices (base + i)) (predAt isSource pred0s (base + i)) (predAt isSource pred1s (base + i)) seed
        descriptor j := by
  unfold AesPrf.Call.message groupCall aesLabel
  dsimp only
  rw [predAt_rebase, predAt_rebase]

theorem groups_spec (v : Locals) (hcache : cache.Valid) {i j : Nat} (hi : i < n) (hj : j < 32) :
    (manyTmp B v cache mem n isSource nodeIndices pred0s pred1s seed descriptor .aesPrf).2 (i * 32 + j) =
      aesLabel mem (nodeIndices i) (predAt isSource pred0s i) (predAt isSource pred1s i) seed descriptor j := by
  refine (batchLoop_inv (by decide) (fun k (r : AesPrf.KeyCache × (Nat → Byte)) => r.1.Valid ∧ ∀ i < k, ∀ j < 32,
    r.2 (i * 32 + j) = aesLabel mem (nodeIndices i) (predAt isSource pred0s i) (predAt isSource pred1s i) seed
      descriptor j) ?_ (Nat.zero_le n) ⟨hcache, fun i hi => absurd hi (Nat.not_lt_zero i)⟩).2 i hi j hj
  rintro base b ⟨cache, tmp⟩ - - - ⟨hvalid, htmp⟩
  obtain ⟨houts, hvalid'⟩ := AesPrf.poseAesPrfMany_spec B.isa (v.aes base) hvalid
    (groupCall mem isSource nodeIndices pred0s pred1s seed descriptor tmp base b)
  refine ⟨hvalid', fun i hi j hj => ?_⟩
  rw [houts]
  by_cases hlt : i < base
  · rw [store_out _ _ _ _ (by dsimp only [groupCall]; omega)]
    exact htmp i hlt j hj
  · obtain ⟨i, rfl⟩ := Nat.exists_eq_add_of_le (not_lt.mp hlt)
    have hin := store_in tmp (base * 32) (b * 32) (fun a => AesPrf.label (fun j => mem (seed + j))
      ((groupCall mem isSource nodeIndices pred0s pred1s seed descriptor tmp base b).message (a / 32)) (a % 32))
      (show i * 32 + j < b * 32 by omega)
    rw [show (base + i) * 32 + j = base * 32 + (i * 32 + j) by omega]
    rw [show (i * 32 + j) / 32 = i by omega, show (i * 32 + j) % 32 = j by omega, label_group] at hin
    exact hin

theorem digest_eq {msg msg' : Nat → Byte} (hmsg : ∀ j < 192, msg j = msg' j) (v v' : Locals) (i i' : Nat) :
    Sha256.poseSha256 (v.padded i) (v.w i) ((List.range 192).map msg) =
      Sha256.poseSha256 (v'.padded i') (v'.w i') ((List.range 192).map msg') := by
  have hlist : (List.range 192).map msg = (List.range 192).map msg' :=
    List.map_congr_left fun j hj => hmsg j (List.mem_range.mp hj)
  have hlen : ((List.range 192).map msg').length = 192 := by rw [List.length_map, List.length_range]
  rw [hlist, Sha256.poseSha256_eq_sha256 _ _ (by omega) (by omega),
    Sha256.poseSha256_eq_sha256 _ _ (by omega) (by omega)]

/-- Label `i` of the batch is the label of entry `i`. -/
theorem manyTmp_eq (hhash : Blake3.LaneIndependent B.hashMany) (v v' : Locals) (hcache : cache.Valid)
    (hcache' : cache'.Valid) (algo : PoseHashAlgo) {i j : Nat} (hi : i < n) (hj : j < 32) :
    (manyTmp B v cache mem n isSource nodeIndices pred0s pred1s seed descriptor algo).2 (i * 32 + j) =
      (nodeTmp B v' cache' mem isSource (nodeIndices i) (pred0s.bind (· i)) (pred1s.bind (· i)) seed descriptor
        algo).2 j := by
  have hmsg : ∀ j < 192, buildNodeMsg mem (v.msgs i) (nodeIndices i) (predAt isSource pred0s i)
      (predAt isSource pred1s i) seed descriptor j = buildNodeMsg mem (v'.msgs 0) (nodeIndices i)
      (predAt isSource pred0s i) (predAt isSource pred1s i) seed descriptor j := fun j hj =>
    buildNodeMsg_congr mem _ _ _ _ _ _ _ hj
  cases algo with
  | aesPrf =>
    rw [groups_spec B v hcache hi hj]
    unfold nodeTmp
    dsimp only
    rw [(AesPrf.poseAesPrfMany_spec B.isa (v'.aes 0) hcache' _).1]
    dsimp only
    rw [← Nat.zero_add j, store_in _ _ _ _ (by omega), Nat.zero_add, Nat.div_eq_of_lt hj, Nat.mod_eq_of_lt hj]
    unfold AesPrf.Call.message aesLabel predAt
    cases isSource <;> rfl
  | sha256 =>
    have hloop := loop_store_in v.tmp 0 hi hj fun i j =>
      (Sha256.poseSha256 (v.padded i) (v.w i) ((List.range 192).map (buildNodeMsg mem (v.msgs i) (nodeIndices i)
        (predAt isSource pred0s i) (predAt isSource pred1s i) seed descriptor))).getD j 0
    simp only [Nat.zero_add] at hloop
    have hnode := store_in v'.tmp 0 32 (fun j => (Sha256.poseSha256 (v'.padded 0) (v'.w 0) ((List.range 192).map
      (buildNodeMsg mem (v'.msgs 0) (nodeIndices i) (predAt isSource pred0s i) (predAt isSource pred1s i) seed
        descriptor))).getD j 0) hj
    rw [Nat.zero_add] at hnode
    unfold manyTmp nodeTmp putSha256
    refine hloop.trans ?_
    dsimp only
    rw [digest_eq hmsg v v' i 0]
    refine hnode.symm.trans ?_
    unfold predAt
    cases isSource <;> rfl
  | blake3 =>
    have hget : ((List.range n).map fun i => buildNodeMsg mem (v.msgs i) (nodeIndices i) (predAt isSource pred0s i)
        (predAt isSource pred1s i) seed descriptor).getD i (fun _ => 0) = buildNodeMsg mem (v.msgs i) (nodeIndices i)
        (predAt isSource pred0s i) (predAt isSource pred1s i) seed descriptor := by
      rw [List.getD_eq_getElem?_getD, List.getElem?_map, List.getElem?_range hi]
      rfl
    have h := hhash ((List.range n).map fun i => buildNodeMsg mem (v.msgs i) (nodeIndices i)
      (predAt isSource pred0s i) (predAt isSource pred1s i) seed descriptor) (buildNodeMsg mem (v'.msgs 0)
      (nodeIndices i) (predAt isSource pred0s i) (predAt isSource pred1s i) seed descriptor) 3 (B.key isSource) 0
      Blake3.keyedHash Blake3.chunkStart (Blake3.chunkEnd ||| Blake3.root) v.tmp v'.tmp 0 0 i j
      (by rwa [List.length_map, List.length_range]) hj fun x hx => by rw [hget, hmsg x hx]
    rw [Nat.zero_add, Nat.zero_add] at h
    unfold manyTmp nodeTmp
    refine h.trans ?_
    unfold predAt
    cases isSource <;> rfl

/-- **Every entry of a batch gets the label it gets alone**, from the memory as it is before the call, and nothing else
is written. -/
theorem poseLabelNodeMany_eq (hhash : Blake3.LaneIndependent B.hashMany) (v v' : Locals)
    (hcache : AesPrf.Reachable B.isa cache) (hcache' : AesPrf.Reachable B.isa cache') (mem : Nat → Byte) (n : Nat)
    (isSource : Bool) (nodeIndices : Nat → BitVec 64) (pred0s pred1s : Option (Nat → Option Nat))
    (seed descriptor outs out : Nat) (algo : PoseHashAlgo) :
    1 ≤ n → n ≤ poseLabelBatch →
    let many := poseLabelNodeMany B v cache mem n isSource nodeIndices pred0s pred1s seed descriptor outs algo
    let alone := fun i => poseLabelNode B v' cache' mem out isSource (nodeIndices i) (pred0s.bind (· i))
      (pred1s.bind (· i)) seed descriptor algo
    (∀ i < n, ∀ j < 32, many.2 (outs + 32 * i + j) = (alone i).2 (out + j)) ∧
      ∀ a, a < outs ∨ outs + 32 * n ≤ a → many.2 a = mem a := by
  intro _ _
  refine ⟨fun i hi j hj => ?_, fun a ha => ?_⟩
  · unfold poseLabelNodeMany poseLabelNode
    dsimp only
    rw [Nat.mul_comm 32 i, loop_store_in mem outs hi hj, store_in _ _ _ _ hj]
    exact manyTmp_eq B hhash v v' hcache.valid hcache'.valid algo hi hj
  · unfold poseLabelNodeMany
    exact loop_store_out mem (by decide) (by omega) _

end Batch

/-- Three labels written over their own predecessors, with the portable hash. -/
theorem poseLabelNodeMany_eq_overlap :
    let B : Build := ⟨.arm, Blake3.hashManyPortable, fun _ => 1, fun _ => 2⟩
    let v : Locals := ⟨fun _ => 0, fun _ _ => 0, fun _ _ => 0, fun _ _ => 0, fun _ => ⟨fun _ => 0, fun _ => 0, fun _ _ => 0⟩⟩
    let mem : Nat → Byte := fun a => BitVec.ofNat 8 a
    let many := poseLabelNodeMany B v .zero mem 3 false (fun i => BitVec.ofNat 64 i) (some fun i => some (32 * i)) none
      200 232 0 .blake3
    (∀ i < 3, ∀ j < 32, many.2 (0 + 32 * i + j) = (poseLabelNode B v .zero mem 500 false (BitVec.ofNat 64 i)
      (some (32 * i)) none 200 232 .blake3).2 (500 + j)) ∧ ∀ a, a < 0 ∨ 0 + 32 * 3 ≤ a → many.2 a = mem a :=
  poseLabelNodeMany_eq _ Blake3.hashManyPortable_laneIndependent _ _ .zero .zero _ 3 _ _ _ _ 200 232 0 500 _ (by decide)
    (by decide)

end PoseDB.LabelNode
