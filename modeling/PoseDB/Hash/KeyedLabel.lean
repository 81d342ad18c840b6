import PoseDB.Hash.Blake3Node
import PoseDB.Hash.Keys

/-!
# Node labels are keyed hashes

`pose_label_node` does not go through the hasher: it calls `blake3_hash_many` for the three blocks of the message,
with the flags of the one chunk that is the root. **`poseLabelNode_keyed`**: this gives the bytes that the hasher
gives for the message under the derived key, in whatever pieces it gets it and on whatever machine it runs.
-/

set_option autoImplicit false

namespace PoseDB.Blake3
open Mem
open AesPrf (optLabel)
open LabelNode (nodeMessage poseLabelNode buildNodeMsg buildNodeMsg_in buildNodeMsg_congr)

/-! ## One block of output -/

/-- The first half of an output block is the compression in place. -/
theorem compressXof_first (cv : Cv) (block : Nat → Byte) (blockLen : Byte) (counter : BitVec 64) (flags : Byte)
    {j : Nat} (hj : j < 32) : compressXof cv block blockLen counter flags j = cvByte
    (compressInPlace cv block blockLen counter flags) j := by
  unfold compressXof
  rw [storeCvWords_eq, store_out _ _ _ _ (.inl hj), storeCvWords_eq]
  conv_lhs => rw [← Nat.zero_add j]
  rw [store_in _ _ _ _ hj]
  rfl

theorem Output.rootBytes_first (o : Output) :
    o.rootBytes 0 32 = (List.range 32).map (cvByte (compressInPlace o.inputCv o.block o.blockLen 0 (o.flags ||| root))) := by
  rw [Output.rootBytes_eq]
  refine List.map_congr_left fun j hj => ?_
  have hj := List.mem_range.mp hj
  rw [Output.stream, Nat.zero_add, Nat.div_eq_of_lt (by omega), Nat.mod_eq_of_lt (by omega)]
  exact compressXof_first _ _ _ _ _ hj

/-- Whole blocks of a root chunk, hashed at once: the flags of the last block are those of a root. -/
theorem rootBytes_hashBlocks (key : Cv) (flags : Byte) {m : List Byte} {n : Nat} (hn : n < 16)
    (hm : m.length = 64 * (n + 1)) : (rootNode key flags m).rootBytes 0 32 =
      (List.range 32).map (cvByte (hashBlocks 0 flags (chunkEnd ||| root) (n + 1) (blockOf m 0) (flags ||| chunkStart) key)) := by
  have hcounter : BitVec.ofNat 64 0 = 0 := rfl
  have hfull : BitVec.ofNat 8 64 = 64 := rfl
  have hblocks := hashBlocks_chunk key flags (chunkEnd ||| root) 0 m 0 n
  have hkey : chunkCv key flags 0 m 0 = key := rfl
  have hstart : startFlag 0 = chunkStart := rfl
  rw [Nat.zero_add, hcounter, hkey, hstart] at hblocks
  have hlast : (m.length - 1) / 64 = n := by omega
  have hlen : m.length - 64 * n = 64 := by omega
  have hroot : rootNode key flags m =
      ⟨chunkCv key flags 0 m n, 0, blockOf m n, 64, flags ||| startFlag n ||| chunkEnd⟩ := by
    have hone : m.length ≤ chunkLen := by
      unfold chunkLen
      omega
    rw [rootNode, if_pos hone, chunkOutput, hlast, hlen, hcounter, hfull]
  rw [hroot, Output.rootBytes_first, hblocks]
  dsimp only
  rw [BitVec.or_assoc (flags ||| startFlag n)]

/-! ## The label -/

theorem Platform.hashMany_portable (P : Platform) : P.hashMany = hashManyPortable := by
  funext inputs blocks key counter incrementCounter flags flagsStart flagsEnd outs out
  exact P.hashMany_eq ..

/-- What a machine labels with, after `ensure_keys`. -/
def Platform.build (P : Platform) (isa : AesPrf.Isa) : LabelNode.Build :=
  ⟨isa, P.hashMany, (Hasher.initDeriveKey P "pose-db/label/src").key, (Hasher.initDeriveKey P "pose-db/label/int").key⟩

def labelContext (isSource : Bool) : List Byte := literal (if isSource then "pose-db/label/src" else "pose-db/label/int")

theorem build_key (P : Platform) (isSource : Bool) :
    (if isSource then (Hasher.initDeriveKey P "pose-db/label/src").key else (Hasher.initDeriveKey P "pose-db/label/int").key) =
      derivedKey (labelContext isSource) := by
  cases isSource with
  | true => exact initDeriveKey_key P "pose-db/label/src" (by decide)
  | false => exact initDeriveKey_key P "pose-db/label/int" (by decide)

/-- **A node label is the keyed hash of its message**: what `pose_label_node` writes on one machine is what the hasher
gives on another one, initialized with the derived key, for the 192 bytes of the message in any pieces. -/
theorem poseLabelNode_keyed (P P' : Platform) (isa : AesPrf.Isa) (v : LabelNode.Locals) (cache : AesPrf.KeyCache) (mem : Nat → Byte)
    (out : Nat) (isSource : Bool) (nodeIndex : BitVec 64) (pred0 pred1 : Option Nat) (seed descriptor : Nat)
    (pieces : List (List Byte))
    (hpieces : pieces.flatten = (List.range 192).map (nodeMessage nodeIndex (optLabel mem (if isSource then none else pred0))
      (optLabel mem (if isSource then none else pred1)) (fun i => mem (seed + i)) fun i => mem (descriptor + i))) :
    (poseLabelNode (P.build isa) v cache mem out isSource nodeIndex pred0 pred1 seed descriptor .blake3).2 =
      store mem out 32 fun j =>
        ((pieces.foldl (Hasher.update P') (Hasher.initBase (derivedKey (labelContext isSource)) keyedHash)).finalize 32).getD j 0 := by
  have hm : pieces.flatten.length = 64 * (2 + 1) := by rw [hpieces, List.length_map, List.length_range]
  rw [Hasher.finalize, Hasher.finalizeSeek, rootOutput_updates P' _ _ (by omega), rootBytes_hashBlocks _ _ (by decide) hm,
    Platform.build, P.hashMany_portable, Gpu.poseLabelNode_store, build_key]
  refine store_congr _ _ _ fun j hj => ?_
  rw [List.getD_eq_getElem?_getD, List.getElem?_map, List.getElem?_range hj]
  refine congrArg (fun cv => cvByte cv j) (hashBlocks_congr _ _ _ (fun x hx => ?_) ..)
  rw [blockOf, hpieces, Nat.mul_zero, Nat.zero_add, List.getD_eq_getElem?_getD, List.getElem?_map, List.getElem?_range hx]
  rfl

/-- The label of a source, whose message comes in two pieces. -/
theorem poseLabelNode_keyed_source :
    let mem : Nat → Byte := fun a => BitVec.ofNat 8 a
    let v : LabelNode.Locals :=
      ⟨fun _ => 0, fun _ _ => 0, fun _ _ => 0, fun _ _ => 0, fun _ => ⟨fun _ => 0, fun _ => 0, fun _ _ => 0⟩⟩
    let m := (List.range 192).map (nodeMessage 7 (optLabel mem none) (optLabel mem none) (fun i => mem (64 + i)) fun i => mem (96 + i))
    (poseLabelNode (portable.build .x86) v .zero mem 500 true 7 (some 32) none 64 96 .blake3).2 =
      store mem 500 32 fun j => (([m.take 100, m.drop 100].foldl (Hasher.update portable)
        (Hasher.initBase (derivedKey (literal "pose-db/label/src")) keyedHash)).finalize 32).getD j 0 :=
  poseLabelNode_keyed portable portable .x86 _ .zero _ 500 true 7 (some 32) none 64 96 _
    (by rw [List.flatten_cons, List.flatten_singleton, List.take_append_drop]; rfl)

/-! ## What a message determines -/

theorem index_inj {i i' : BitVec 64}
    (h : ∀ j < 8, (i >>> (8 * (7 - j))).setWidth 8 = (i' >>> (8 * (7 - j))).setWidth 8) : i = i' := by
  refine BitVec.eq_of_getLsbD_eq fun b hb => ?_
  have hbit := congrArg (fun w : Byte => w.getLsbD (b % 8)) (h (7 - b / 8) (by omega))
  have hpos : 8 * (7 - (7 - b / 8)) + b % 8 = b := by omega
  have hlt : b % 8 < 8 := Nat.mod_lt _ (by decide)
  simpa only [BitVec.getLsbD_setWidth, BitVec.getLsbD_ushiftRight, hpos, hlt, decide_true, Bool.true_and] using hbit

section Fields
variable (i : BitVec 64) (pred0 pred1 seed descriptor : Nat → Byte) {j : Nat}

theorem nodeMessage_index (hj : j < 8) :
    nodeMessage i pred0 pred1 seed descriptor j = (i >>> (8 * (7 - j))).setWidth 8 := by
  rw [nodeMessage, if_pos hj]

theorem nodeMessage_pred0 (hj : j < 32) : nodeMessage i pred0 pred1 seed descriptor (64 + j) = pred0 j := by
  rw [nodeMessage, if_neg (by omega), if_neg (by omega), if_pos (by omega), Nat.add_sub_cancel_left]

theorem nodeMessage_pred1 (hj : j < 32) : nodeMessage i pred0 pred1 seed descriptor (96 + j) = pred1 j := by
  rw [nodeMessage, if_neg (by omega), if_neg (by omega), if_neg (by omega), if_pos (by omega), Nat.add_sub_cancel_left]

theorem nodeMessage_seed (hj : j < 32) : nodeMessage i pred0 pred1 seed descriptor (128 + j) = seed j := by
  rw [nodeMessage, if_neg (by omega), if_neg (by omega), if_neg (by omega), if_neg (by omega), if_pos (by omega),
    Nat.add_sub_cancel_left]

theorem nodeMessage_descriptor (j : Nat) :
    nodeMessage i pred0 pred1 seed descriptor (160 + j) = descriptor j := by
  rw [nodeMessage, if_neg (by omega), if_neg (by omega), if_neg (by omega), if_neg (by omega), if_neg (by omega),
    Nat.add_sub_cancel_left]

end Fields

/-- **The message of a node determines what is hashed**: the index, the bytes of both predecessors, where an absent one
counts as zeros, the seed and the descriptor. So no two nodes of a graph hash the same message. -/
theorem buildNodeMsg_inj (mem mem' msg msg' : Nat → Byte) (i i' : BitVec 64) (pred0 pred1 pred0' pred1' : Option Nat)
    (seed descriptor seed' descriptor' : Nat)
    (h : ∀ j < 192, buildNodeMsg mem msg i pred0 pred1 seed descriptor j =
      buildNodeMsg mem' msg' i' pred0' pred1' seed' descriptor' j) :
    i = i' ∧ ∀ j < 32, optLabel mem pred0 j = optLabel mem' pred0' j ∧ optLabel mem pred1 j = optLabel mem' pred1' j ∧
      mem (seed + j) = mem' (seed' + j) ∧ mem (descriptor + j) = mem' (descriptor' + j) := by
  have hmsg : ∀ j < 192, nodeMessage i (optLabel mem pred0) (optLabel mem pred1) (fun x => mem (seed + x))
      (fun x => mem (descriptor + x)) j = nodeMessage i' (optLabel mem' pred0') (optLabel mem' pred1')
      (fun x => mem' (seed' + x)) (fun x => mem' (descriptor' + x)) j := fun j hj => by
    rw [← buildNodeMsg_in mem msg i pred0 pred1 seed descriptor hj, h j hj, buildNodeMsg_in _ _ _ _ _ _ _ hj]
  refine ⟨index_inj fun j hj => ?_, fun j hj => ⟨?_, ?_, ?_, ?_⟩⟩
  · have hbyte := hmsg j (by omega)
    rwa [nodeMessage_index _ _ _ _ _ hj, nodeMessage_index _ _ _ _ _ hj] at hbyte
  · have hbyte := hmsg (64 + j) (by omega)
    rwa [nodeMessage_pred0 _ _ _ _ _ hj, nodeMessage_pred0 _ _ _ _ _ hj] at hbyte
  · have hbyte := hmsg (96 + j) (by omega)
    rwa [nodeMessage_pred1 _ _ _ _ _ hj, nodeMessage_pred1 _ _ _ _ _ hj] at hbyte
  · have hbyte := hmsg (128 + j) (by omega)
    rwa [nodeMessage_seed _ _ _ _ _ hj, nodeMessage_seed _ _ _ _ _ hj] at hbyte
  · have hbyte := hmsg (160 + j) (by omega)
    rwa [nodeMessage_descriptor, nodeMessage_descriptor] at hbyte

/-- An absent predecessor and one whose label is all zeros give one message. -/
theorem buildNodeMsg_inj_zero : let mem : Nat → Byte := fun a => if a < 200 then BitVec.ofNat 8 a else 0
    (7 : BitVec 64) = 7 ∧ ∀ j < 32, optLabel mem (some 32) j = optLabel mem (some 32) j ∧
      optLabel mem none j = optLabel mem (some 200) j ∧ mem (64 + j) = mem (64 + j) ∧ mem (96 + j) = mem (96 + j) := by
  have hzero : ∀ j, optLabel (fun a => if a < 200 then BitVec.ofNat 8 a else 0) (some 200) j = 0 :=
    fun j => if_neg (by omega)
  refine buildNodeMsg_inj _ _ (fun _ => 0) (fun _ => 0) 7 7 (some 32) none (some 32) (some 200) 64 96 64 96 ?_
  intro j hj
  rw [buildNodeMsg_in _ _ _ _ _ _ _ hj, buildNodeMsg_in _ _ _ _ _ _ _ hj, funext hzero]
  rfl

end PoseDB.Blake3
