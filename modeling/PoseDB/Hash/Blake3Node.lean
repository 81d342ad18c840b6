import PoseDB.Hash.LabelNode
import Mathlib.Tactic.FinCases

/-!
# Node labels on the device (`blake3_node.cuh`)

`label_node` assembles the words of its three blocks itself, with byte swaps and with vector loads where a label is
aligned, and permutes the words between the rounds. It writes the label of `pose_label_node` (`labelNode_eq`).
-/

set_option autoImplicit false

namespace PoseDB.Gpu
open Mem Loops
open Blake3 (Word Byte)

/-! ## The code -/

def kIV : Fin 8 → Word :=
  ![0x6A09E667, 0xBB67AE85, 0x3C6EF372, 0xA54FF53A, 0x510E527F, 0x9B05688C, 0x1F83D9AB, 0x5BE0CD19]

def kMsgPermutation : Fin 16 → Fin 16 := ![2, 6, 3, 10, 7, 0, 4, 13, 1, 11, 12, 5, 9, 14, 15, 8]

/-- The flags `FLAG_CHUNK_START`, `FLAG_CHUNK_END`, `FLAG_ROOT` and `FLAG_KEYED_HASH`. -/
def flagChunkStart : Word := 1 <<< 0
def flagChunkEnd : Word := 1 <<< 1
def flagRoot : Word := 1 <<< 3
def flagKeyedHash : Word := 1 <<< 4

def rotr32 (v : Word) (s : Nat) : Word := v >>> s ||| v <<< (32 - s)

def mix (st : Fin 16 → Word) (a b c d : Fin 16) (mx my : Word) : Fin 16 → Word :=
  let st := Function.update st a (st a + st b + mx)
  let st := Function.update st d (rotr32 (st d ^^^ st a) 16)
  let st := Function.update st c (st c + st d)
  let st := Function.update st b (rotr32 (st b ^^^ st c) 12)
  let st := Function.update st a (st a + st b + my)
  let st := Function.update st d (rotr32 (st d ^^^ st a) 8)
  let st := Function.update st c (st c + st d)
  Function.update st b (rotr32 (st b ^^^ st c) 7)

def roundFn (st m : Fin 16 → Word) : Fin 16 → Word :=
  let st := mix st 0 4 8 12 (m 0) (m 1)
  let st := mix st 1 5 9 13 (m 2) (m 3)
  let st := mix st 2 6 10 14 (m 4) (m 5)
  let st := mix st 3 7 11 15 (m 6) (m 7)
  let st := mix st 0 5 10 15 (m 8) (m 9)
  let st := mix st 1 6 11 12 (m 10) (m 11)
  let st := mix st 2 7 8 13 (m 12) (m 13)
  mix st 3 4 9 14 (m 14) (m 15)

def permute (m : Fin 16 → Word) : Fin 16 → Word := fun i => m (kMsgPermutation i)

def compress (cv : Fin 8 → Word) (block : Fin 16 → Word) (blockLen flags : Word) : Fin 8 → Word :=
  let st := ![cv 0, cv 1, cv 2, cv 3, cv 4, cv 5, cv 6, cv 7, kIV 0, kIV 1, kIV 2, kIV 3, kIV 4, kIV 5, kIV 6, kIV 7]
  let st := Function.update st 12 0
  let st := Function.update st 13 0
  let st := Function.update st 14 blockLen
  let st := Function.update st 15 flags
  let m := block
  let st := roundFn st m
  let m := permute m
  let st := roundFn st m
  let m := permute m
  let st := roundFn st m
  let m := permute m
  let st := roundFn st m
  let m := permute m
  let st := roundFn st m
  let m := permute m
  let st := roundFn st m
  let m := permute m
  let st := roundFn st m
  fun i => st (i.castLE (by decide)) ^^^ st (i.natAdd 8)

def loadLe32 (mem : Nat → Byte) (p : Nat) : Word :=
  (mem p).setWidth 32 ||| (mem (p + 1)).setWidth 32 <<< 8 ||| (mem (p + 2)).setWidth 32 <<< 16 |||
    (mem (p + 3)).setWidth 32 <<< 24

/-- A word of a vector load or store: the device is little-endian. -/
def deviceWord (mem : Nat → Byte) (p : Nat) : Word :=
  (mem (p + 3) ++ mem (p + 2) ++ mem (p + 1) ++ mem p : BitVec (8 + 8 + 8 + 8))

def deviceByte (w : Word) (j : Nat) : Byte := w.extractLsb' (8 * j) 8

structure Uint4 where
  x : Word
  y : Word
  z : Word
  w : Word

def loadUint4 (mem : Nat → Byte) (q : Nat) : Uint4 :=
  ⟨deviceWord mem q, deviceWord mem (q + 4), deviceWord mem (q + 8), deviceWord mem (q + 12)⟩

def storeUint4 (mem : Nat → Byte) (q : Nat) (a : Uint4) : Nat → Byte :=
  let mem := store mem q 4 (deviceByte a.x)
  let mem := store mem (q + 4) 4 (deviceByte a.y)
  let mem := store mem (q + 8) 4 (deviceByte a.z)
  store mem (q + 12) 4 (deviceByte a.w)

def loadLabelWords (mem : Nat → Byte) (p : Nat) : Fin 8 → Word :=
  if p &&& 15 = 0 then
    let a := loadUint4 mem p
    let b := loadUint4 mem (p + 16)
    ![a.x, a.y, a.z, a.w, b.x, b.y, b.z, b.w]
  else fun i => loadLe32 mem (p + i * 4)

def storeLabelWords (mem : Nat → Byte) (p : Nat) (w : Fin 8 → Word) : Nat → Byte :=
  if p &&& 15 = 0 then
    storeUint4 (storeUint4 mem p ⟨w 0, w 1, w 2, w 3⟩) (p + 16) ⟨w 4, w 5, w 6, w 7⟩
  else
    loop 8 (fun i mem =>
      let word := w (Fin.ofNat 8 i)
      let mem := Function.update mem (p + i * 4 + 0) (word.setWidth 8)
      let mem := Function.update mem (p + i * 4 + 1) ((word >>> 8).setWidth 8)
      let mem := Function.update mem (p + i * 4 + 2) ((word >>> 16).setWidth 8)
      Function.update mem (p + i * 4 + 3) ((word >>> 24).setWidth 8)) mem

/-- `__byte_perm(x, y, s)`: the bytes of `y` above those of `x` are selected by the low bits of the nibbles of `s`. -/
def bytePerm (x y s : Word) : Word :=
  let pool : BitVec 64 := (y ++ x : BitVec (32 + 32))
  let select := fun n => pool.extractLsb' (8 * ((s >>> (4 * n)) &&& 7).toNat) 8
  (select 3 ++ select 2 ++ select 1 ++ select 0 : BitVec (8 + 8 + 8 + 8))

def bswap32 (v : Word) : Word := bytePerm v 0 0x0123

/-- `label_node` on the memory of the device; an absent predecessor is null. -/
def labelNode (mem : Nat → Byte) (out : Nat) (key : Fin 8 → Word) (nodeIndex : BitVec 64) (pred0 pred1 : Option Nat)
    (seed descriptor : Nat) : Nat → Byte :=
  let cv := key
  let words : Fin 16 → Word := fun i =>
    if i = 0 then bswap32 ((nodeIndex >>> 32).setWidth 32)
    else if i = 1 then bswap32 (nodeIndex.setWidth 32)
    else 0
  let cv := compress cv words 64 (flagKeyedHash ||| flagChunkStart)
  let lo : Fin 8 → Word := match pred0 with | some p => loadLabelWords mem p | none => fun _ => 0
  let hi : Fin 8 → Word := match pred1 with | some p => loadLabelWords mem p | none => fun _ => 0
  let cv := compress cv (Fin.append lo hi) 64 flagKeyedHash
  let words := Fin.append (loadLabelWords mem seed) (loadLabelWords mem descriptor)
  let cv := compress cv words 64 (flagKeyedHash ||| flagChunkEnd ||| flagRoot)
  storeLabelWords mem out cv

/-! ## Words -/

theorem deviceByte_eq (w : Word) (j : Nat) : deviceByte w j = Blake3.wordByte w j := by
  unfold deviceByte Blake3.wordByte
  ext i
  simp

theorem or_reverse (a b c d : Word) : a ||| b ||| c ||| d = d ||| c ||| b ||| a := by
  rw [BitVec.or_comm _ d, BitVec.or_comm _ c, BitVec.or_comm a b, BitVec.or_assoc, BitVec.or_assoc]

theorem load32_eq (mem : Nat → Byte) (p : Nat) : Blake3.load32 mem p = deviceWord mem p := by
  have h : (mem (p + 3)).setWidth 32 <<< 24 ||| (mem (p + 2)).setWidth 32 <<< 16 ||| (mem (p + 1)).setWidth 32 <<< 8 |||
      (mem p).setWidth 32 = deviceWord mem p := Sha256.word_eq (fun i => mem (p + (3 - i))) 0
  rw [Blake3.load32, BitVec.shiftLeft_zero, or_reverse]
  exact h

theorem loadLe32_eq (mem : Nat → Byte) (p : Nat) : loadLe32 mem p = deviceWord mem p := by
  rw [← load32_eq, Blake3.load32, BitVec.shiftLeft_zero]
  rfl

theorem deviceWord_congr {mem mem' : Nat → Byte} {p p' : Nat} (h : ∀ i < 4, mem (p + i) = mem' (p' + i)) :
    deviceWord mem p = deviceWord mem' p' := by
  have h0 := h 0 (by decide)
  unfold deviceWord
  rw [h 3 (by decide), h 2 (by decide), h 1 (by decide), show mem p = mem' p' from h0]

theorem deviceWord_zero (p : Nat) : deviceWord (fun _ => 0) p = 0 :=
  show (0 ++ 0 ++ 0 ++ 0 : BitVec (8 + 8 + 8 + 8)) = 0 by decide

/-- **Both branches of the load give the same words.** -/
theorem loadLabelWords_eq (mem : Nat → Byte) (p : Nat) (i : Fin 8) :
    loadLabelWords mem p i = deviceWord mem (p + i * 4) := by
  unfold loadLabelWords
  split
  · fin_cases i <;> rfl
  · exact loadLe32_eq ..

/-- **Both branches of the store write the same bytes.** -/
theorem storeLabelWords_eq (mem : Nat → Byte) (p : Nat) (w : Fin 8 → Word) :
    storeLabelWords mem p w = store mem p 32 (Blake3.cvByte w) := by
  have hwords := loop_store_eq_store mem p 8 (show 0 < 4 by decide) fun i => Blake3.wordByte (w (Fin.ofNat 8 i))
  refine Eq.trans ?_ hwords
  unfold storeLabelWords
  split
  · have hbyte : deviceByte = Blake3.wordByte := by
      funext w j
      exact deviceByte_eq w j
    unfold storeUint4
    rw [hbyte]
    rfl
  · apply loop_congr
    intro i mem _
    rw [← Blake3.store32_eq, Blake3.store32]
    dsimp only
    rw [BitVec.ushiftRight_zero]

/-- The byte swap: byte `j` becomes byte `3 - j`. -/
theorem bswap32_eq (v : Word) :
    bswap32 v = (deviceByte v 0 ++ deviceByte v 1 ++ deviceByte v 2 ++ deviceByte v 3 : BitVec (8 + 8 + 8 + 8)) := by
  have hselect : ∀ j, j < 4 → ((0 : Word) ++ v : BitVec (32 + 32)).extractLsb' (8 * j) 8 = deviceByte v j := by
    intro j hj
    unfold deviceByte
    ext i hi
    rw [BitVec.getElem_extractLsb', BitVec.getElem_extractLsb', BitVec.getLsbD_append, if_pos (by omega)]
  unfold bswap32 bytePerm
  rw [← hselect 0 (by decide), ← hselect 1 (by decide), ← hselect 2 (by decide), ← hselect 3 (by decide)]
  rfl

/-! ## The compression -/

theorem permute_schedule (m : Fin 16 → Word) {r s : Fin 7}
    (h : ∀ i, Blake3.msgSchedule s i = Blake3.msgSchedule r (kMsgPermutation i)) :
    permute (fun i => m (Blake3.msgSchedule r i)) = fun i => m (Blake3.msgSchedule s i) := by
  funext i
  rw [h]
  rfl

theorem mix_eq : mix = Blake3.g := rfl

/-- A round on permuted words is a round with a row of the table. -/
theorem roundFn_eq (st msg : Fin 16 → Word) (r : Fin 7) :
    roundFn st (fun i => msg (Blake3.msgSchedule r i)) = Blake3.roundFn st msg r := by
  unfold roundFn Blake3.roundFn
  rw [mix_eq]

theorem foldState_eq (st : Fin 16 → Word) :
    (fun i : Fin 8 => st (i.castLE (by decide)) ^^^ st (i.natAdd 8)) = ![st 0 ^^^ st 8, st 1 ^^^ st 9, st 2 ^^^ st 10,
      st 3 ^^^ st 11, st 4 ^^^ st 12, st 5 ^^^ st 13, st 6 ^^^ st 14, st 7 ^^^ st 15] := by
  funext i
  fin_cases i <;> rfl

theorem initState_eq (cv : Fin 8 → Word) (blockLen flags : Word) :
    Function.update (Function.update (Function.update (Function.update
      ![cv 0, cv 1, cv 2, cv 3, cv 4, cv 5, cv 6, cv 7, kIV 0, kIV 1, kIV 2, kIV 3, kIV 4, kIV 5, kIV 6, kIV 7] 12 0)
      13 0) 14 blockLen) 15 flags = ![cv 0, cv 1, cv 2, cv 3, cv 4, cv 5, cv 6, cv 7, Blake3.IV 0, Blake3.IV 1,
        Blake3.IV 2, Blake3.IV 3, Blake3.counterLow 0, Blake3.counterHigh 0, blockLen, flags] := by
  funext i
  fin_cases i <;> rfl

/-- **The device compresses as the portable code does**, on the words of the block. -/
theorem compress_eq (cv : Fin 8 → Word) (block : Nat → Byte) (flags : Byte) {m : Fin 16 → Word}
    (hm : ∀ i : Fin 16, m i = deviceWord block (4 * i)) :
    compress cv m 64 (flags.setWidth 32) = Blake3.compressInPlace cv block 64 0 flags := by
  obtain rfl : (fun i : Fin 16 => Blake3.load32 block (4 * i)) = m := by
    funext i
    rw [load32_eq, hm]
  obtain ⟨m, hm⟩ : ∃ m, m = fun i : Fin 16 => Blake3.load32 block (4 * i) := ⟨_, rfl⟩
  have h0 : m = fun i => m (Blake3.msgSchedule 0 i) := by
    funext i
    fin_cases i <;> rfl
  have hround0 : ∀ st, roundFn st m = Blake3.roundFn st m 0 := fun st =>
    (congrArg (roundFn st) h0).trans (roundFn_eq st m 0)
  have h1 : permute m = fun i => m (Blake3.msgSchedule 1 i) :=
    (congrArg permute h0).trans (permute_schedule m (r := 0) (s := 1) (by decide))
  unfold compress Blake3.compressInPlace Blake3.compressPre
  dsimp only
  rw [← hm, initState_eq, foldState_eq, h1, permute_schedule m (r := 1) (s := 2) (by decide),
    permute_schedule m (r := 2) (s := 3) (by decide), permute_schedule m (r := 3) (s := 4) (by decide),
    permute_schedule m (r := 4) (s := 5) (by decide), permute_schedule m (r := 5) (s := 6) (by decide)]
  simp only [hround0, roundFn_eq]
  rfl

/-! ## The blocks -/

open AesPrf (optLabel)
open LabelNode (nodeMessage)

section Blocks

variable (nodeIndex : BitVec 64) (pred0 pred1 seed descriptor : Nat → Byte)

theorem deviceByte_half (s : Nat) {k : Nat} (hk : k < 4) :
    deviceByte ((nodeIndex >>> s).setWidth 32) k = (nodeIndex >>> (s + 8 * k)).setWidth 8 := by
  unfold deviceByte
  ext i hi
  rw [BitVec.getElem_extractLsb', BitVec.getLsbD_setWidth, BitVec.getElem_setWidth, BitVec.getLsbD_ushiftRight,
    BitVec.getLsbD_ushiftRight, decide_eq_true (by omega), Bool.true_and, Nat.add_assoc]

theorem indexWords_eq (i : Fin 16) :
    (if i = 0 then bswap32 ((nodeIndex >>> 32).setWidth 32) else if i = 1 then bswap32 (nodeIndex.setWidth 32)
      else 0) = deviceWord (nodeMessage nodeIndex pred0 pred1 seed descriptor) (4 * i) := by
  have hlow : nodeIndex.setWidth 32 = (nodeIndex >>> 0).setWidth 32 := by rw [BitVec.ushiftRight_zero]
  have hindex : ∀ j < 8, nodeMessage nodeIndex pred0 pred1 seed descriptor j =
      (nodeIndex >>> (8 * (7 - j))).setWidth 8 := fun j hj => by rw [nodeMessage, if_pos hj]
  split
  · rename_i h
    subst h
    rw [bswap32_eq, deviceByte_half _ _ (by decide), deviceByte_half _ _ (by decide), deviceByte_half _ _ (by decide),
      deviceByte_half _ _ (by decide)]
    unfold deviceWord
    rw [hindex _ (by decide), hindex _ (by decide), hindex _ (by decide), hindex _ (by decide)]
    rfl
  split
  · rename_i h
    subst h
    rw [hlow, bswap32_eq, deviceByte_half _ _ (by decide), deviceByte_half _ _ (by decide),
      deviceByte_half _ _ (by decide), deviceByte_half _ _ (by decide)]
    unfold deviceWord
    rw [hindex _ (by decide), hindex _ (by decide), hindex _ (by decide), hindex _ (by decide)]
    rfl
  · rename_i h0 h1
    have hi : 8 ≤ 4 * i.val := by
      have h0' : i.val ≠ 0 := fun h => h0 (Fin.ext h)
      have h1' : i.val ≠ 1 := fun h => h1 (Fin.ext h)
      omega
    refine (deviceWord_zero 0).symm.trans (deviceWord_congr fun k hk => ?_)
    rw [nodeMessage, if_neg (by omega), if_pos (by omega)]

theorem append_words {lo hi : Fin 8 → Word} {block : Nat → Byte} (hlo : ∀ i : Fin 8, lo i = deviceWord block (4 * i))
    (hhi : ∀ i : Fin 8, hi i = deviceWord block (32 + 4 * i)) (i : Fin (8 + 8)) :
    Fin.append lo hi i = deviceWord block (4 * i) := by
  induction i using Fin.addCases with
  | left i =>
    rw [Fin.append_left]
    exact hlo i
  | right i =>
    rw [Fin.append_right, hhi, Fin.val_natAdd, Nat.mul_add]

theorem optWords_eq (mem : Nat → Byte) (pred : Option Nat) (i : Fin 8) :
    (match pred with | some p => loadLabelWords mem p | none => fun _ => 0) i =
      deviceWord (optLabel mem pred) (4 * i) := by
  cases pred with
  | none => exact (deviceWord_zero _).symm
  | some p =>
    dsimp only
    rw [loadLabelWords_eq]
    apply deviceWord_congr
    intro k _
    show mem _ = mem _
    congr 1
    omega

end Blocks

/-- **The device writes the keyed hash of the node message.** -/
theorem labelNode_store (mem : Nat → Byte) (out : Nat) (key : Fin 8 → Word) (nodeIndex : BitVec 64)
    (pred0 pred1 : Option Nat) (seed descriptor : Nat) :
    labelNode mem out key nodeIndex pred0 pred1 seed descriptor = store mem out 32
      (Blake3.cvByte (Blake3.hashBlocks 0 Blake3.keyedHash (Blake3.chunkEnd ||| Blake3.root) 3
        (nodeMessage nodeIndex (optLabel mem pred0) (optLabel mem pred1) (fun i => mem (seed + i))
          fun i => mem (descriptor + i)) (Blake3.keyedHash ||| Blake3.chunkStart) key)) := by
  obtain ⟨N, hN⟩ : ∃ N, N = nodeMessage nodeIndex (optLabel mem pred0) (optLabel mem pred1) (fun i => mem (seed + i))
    fun i => mem (descriptor + i) := ⟨_, rfl⟩
  have hpred : ∀ i : Fin (8 + 8), Fin.append
      (match pred0 with | some p => loadLabelWords mem p | none => fun _ => 0)
      (match pred1 with | some p => loadLabelWords mem p | none => fun _ => 0) i =
      deviceWord (fun x => N (64 + x)) (4 * i) := by
    refine append_words (fun i => ?_) fun i => ?_
    · rw [optWords_eq]
      refine deviceWord_congr fun k hk => ?_
      rw [hN, nodeMessage, if_neg (by omega), if_neg (by omega), if_pos (by omega)]
      congr 1
      omega
    · rw [optWords_eq]
      refine deviceWord_congr fun k hk => ?_
      rw [hN, nodeMessage, if_neg (by omega), if_neg (by omega), if_neg (by omega), if_pos (by omega)]
      congr 1
      omega
  have hseed : ∀ i : Fin (8 + 8), Fin.append (loadLabelWords mem seed) (loadLabelWords mem descriptor) i =
      deviceWord (fun x => N (64 + (64 + x))) (4 * i) := by
    refine append_words (fun i => ?_) fun i => ?_
    · rw [loadLabelWords_eq]
      refine deviceWord_congr fun k hk => ?_
      rw [hN, nodeMessage, if_neg (by omega), if_neg (by omega), if_neg (by omega), if_neg (by omega),
        if_pos (by omega)]
      exact congrArg mem (by omega)
    · rw [loadLabelWords_eq]
      refine deviceWord_congr fun k hk => ?_
      rw [hN, nodeMessage, if_neg (by omega), if_neg (by omega), if_neg (by omega), if_neg (by omega),
        if_neg (by omega)]
      exact congrArg mem (by omega)
  have hstart : flagKeyedHash ||| flagChunkStart = (Blake3.keyedHash ||| Blake3.chunkStart).setWidth 32 := by decide
  have hmid : flagKeyedHash = Blake3.keyedHash.setWidth 32 := by decide
  have hend : flagKeyedHash ||| flagChunkEnd ||| flagRoot =
      (Blake3.keyedHash ||| (Blake3.chunkEnd ||| Blake3.root)).setWidth 32 := by decide
  rw [← hN]
  unfold labelNode
  dsimp only
  rw [hend, compress_eq _ _ _ hseed, hstart, hmid, compress_eq _ _ _ hpred,
    compress_eq _ N _ fun i => (indexWords_eq nodeIndex _ _ _ _ i).trans (by rw [hN]), storeLabelWords_eq]
  rfl

theorem poseLabelNode_store (isa : AesPrf.Isa) (keySrc keyInt : Fin 8 → Word) (v : LabelNode.Locals)
    (cache : AesPrf.KeyCache) (mem : Nat → Byte) (out : Nat) (isSource : Bool) (nodeIndex : BitVec 64)
    (pred0 pred1 : Option Nat) (seed descriptor : Nat) :
    (LabelNode.poseLabelNode ⟨isa, Blake3.hashManyPortable, keySrc, keyInt⟩ v cache mem out isSource nodeIndex pred0
      pred1 seed descriptor .blake3).2 = store mem out 32
      (Blake3.cvByte (Blake3.hashBlocks 0 Blake3.keyedHash (Blake3.chunkEnd ||| Blake3.root) 3
        (nodeMessage nodeIndex (optLabel mem (if isSource then none else pred0))
          (optLabel mem (if isSource then none else pred1)) (fun i => mem (seed + i)) fun i => mem (descriptor + i))
        (Blake3.keyedHash ||| Blake3.chunkStart) (if isSource then keySrc else keyInt))) := by
  unfold LabelNode.poseLabelNode LabelNode.nodeTmp LabelNode.Build.hash LabelNode.Build.key
  dsimp only
  apply store_congr
  intro j hj
  rw [Blake3.hashManyPortable_eq, ← Nat.zero_add j, store_in _ _ _ _ (by rw [List.length_singleton]; omega),
    Nat.zero_add, Nat.div_eq_of_lt hj, Nat.mod_eq_of_lt hj, List.getD_cons_zero]
  rw [Blake3.hashBlocks_congr _ _ _ fun x hx => LabelNode.buildNodeMsg_in mem (v.msgs 0) nodeIndex _ _ seed descriptor hx]

/-- **The device writes the label of `pose_label_node`**, at any alignment, and nothing else. Host and device have the
same bytes in the predecessors, the seed and the descriptor; a source has no predecessors on the device. -/
theorem labelNode_eq (isa : AesPrf.Isa) (keySrc keyInt : Fin 8 → Word) (v : LabelNode.Locals)
    (cache : AesPrf.KeyCache) (host device : Nat → Byte) (isSource : Bool) (nodeIndex : BitVec 64)
    (pred0 pred1 devPred0 devPred1 : Option Nat) (seed descriptor devSeed devDescriptor out devOut : Nat)
    (hpred0 : isSource = false → ∀ i < 32, optLabel device devPred0 i = optLabel host pred0 i)
    (hpred1 : isSource = false → ∀ i < 32, optLabel device devPred1 i = optLabel host pred1 i)
    (hsource : isSource = true → devPred0 = none ∧ devPred1 = none)
    (hseed : ∀ i < 32, device (devSeed + i) = host (seed + i))
    (hdescriptor : ∀ i < 32, device (devDescriptor + i) = host (descriptor + i)) :
    let gpu := labelNode device devOut (if isSource then keySrc else keyInt) nodeIndex devPred0 devPred1 devSeed
      devDescriptor
    let cpu := (LabelNode.poseLabelNode ⟨isa, Blake3.hashManyPortable, keySrc, keyInt⟩ v cache host out isSource nodeIndex
      pred0 pred1 seed descriptor .blake3).2
    (∀ i < 32, gpu (devOut + i) = cpu (out + i)) ∧ ∀ a, a < devOut ∨ devOut + 32 ≤ a → gpu a = device a := by
  have habsent : ∀ {p q : Option Nat}, (isSource = false → ∀ i < 32, optLabel device p i = optLabel host q i) →
      (isSource = true → p = none) → ∀ i < 32, optLabel device p i = optLabel host (if isSource then none else q) i := by
    intro p q h hs i hi
    cases isSource with
    | false => exact h rfl i hi
    | true =>
      rw [hs rfl]
      rfl
  have hmsg : ∀ j < 3 * 64, nodeMessage nodeIndex (optLabel device devPred0) (optLabel device devPred1)
      (fun i => device (devSeed + i)) (fun i => device (devDescriptor + i)) j =
      nodeMessage nodeIndex (optLabel host (if isSource then none else pred0))
        (optLabel host (if isSource then none else pred1)) (fun i => host (seed + i)) (fun i => host (descriptor + i))
        j := by
    intro j hj
    unfold nodeMessage
    split
    · rfl
    split
    · rfl
    split
    · exact habsent hpred0 (fun h => (hsource h).1) _ (by omega)
    split
    · exact habsent hpred1 (fun h => (hsource h).2) _ (by omega)
    split
    · exact hseed _ (by omega)
    · exact hdescriptor _ (by omega)
  refine ⟨fun i hi => ?_, fun a ha => ?_⟩
  · rw [labelNode_store, poseLabelNode_store, store_in _ _ _ _ hi, store_in _ _ _ _ hi, Blake3.hashBlocks_congr _ _ _ hmsg]
  · rw [labelNode_store, store_out _ _ _ _ ha]

/-- An inner node with one predecessor: aligned labels, and an output that is not. -/
theorem labelNode_eq_inner :
    let mem : Nat → Byte := fun a => BitVec.ofNat 8 a
    let v : LabelNode.Locals :=
      ⟨fun _ => 0, fun _ _ => 0, fun _ _ => 0, fun _ _ => 0, fun _ => ⟨fun _ => 0, fun _ => 0, fun _ _ => 0⟩⟩
    let gpu := labelNode mem 1001 (fun _ => 2) 7 (some 32) none 64 96
    let cpu := (LabelNode.poseLabelNode ⟨.x86, Blake3.hashManyPortable, fun _ => 1, fun _ => 2⟩ v .zero mem 500 false 7
      (some 32) none 64 96 .blake3).2
    (∀ i < 32, gpu (1001 + i) = cpu (500 + i)) ∧ ∀ a, a < 1001 ∨ 1001 + 32 ≤ a → gpu a = mem a :=
  labelNode_eq .x86 (fun _ => 1) (fun _ => 2) _ .zero _ _ false 7 (some 32) none (some 32) none 64 96 64 96 500 1001
    (fun _ _ _ => rfl) (fun _ _ _ => rfl) nofun (fun _ _ => rfl) fun _ _ => rfl

end PoseDB.Gpu
