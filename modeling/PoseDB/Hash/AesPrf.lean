import PoseDB.Lib.Aes
import PoseDB.Hash.Node
import Mathlib.Data.Fintype.Basic

/-!
# The AES label PRF (`aes_prf.c`)

A label is the CBC-MAC of a message of seven blocks under each half of the seed. The round keys are expanded by a table
and kept in a cache of the thread; four messages go through a kernel of eight chains, other batches one message at a
time. Both backends are here: one adds a round key at the start of a round and the other at its end. Over all runs of a
thread the labels are those of FIPS 197 (`poseAesPrf_run`).
-/

set_option autoImplicit false

namespace PoseDB.AesPrf
open Loops Mem
open Aes (Byte Block)

/-! ## Messages and round keys -/

/-- The label at `p`, or zeros. -/
def optLabel (mem : Nat → Byte) (p : Option Nat) (i : Nat) : Byte :=
  match p with
  | some p => mem (p + i)
  | none => 0

/-- `build_aes_msg` at `msg`; an absent predecessor is null. -/
def buildAesMsg (mem : Nat → Byte) (buf : Nat → Byte) (msg : Nat) (nodeIndex : BitVec 64) (pred0 pred1 : Option Nat)
    (descriptor : Nat) : Nat → Byte :=
  let buf := putNodeIndex buf msg nodeIndex
  let buf := store buf (msg + 8) 8 fun _ => 0
  let buf := store buf (msg + 16) 32 (optLabel mem pred0)
  let buf := store buf (msg + 48) 32 (optLabel mem pred1)
  store buf (msg + 80) 32 fun i => mem (descriptor + i)

def sSbox : List Byte := [
  0x63, 0x7c, 0x77, 0x7b, 0xf2, 0x6b, 0x6f, 0xc5, 0x30, 0x01, 0x67, 0x2b, 0xfe, 0xd7, 0xab, 0x76,
  0xca, 0x82, 0xc9, 0x7d, 0xfa, 0x59, 0x47, 0xf0, 0xad, 0xd4, 0xa2, 0xaf, 0x9c, 0xa4, 0x72, 0xc0,
  0xb7, 0xfd, 0x93, 0x26, 0x36, 0x3f, 0xf7, 0xcc, 0x34, 0xa5, 0xe5, 0xf1, 0x71, 0xd8, 0x31, 0x15,
  0x04, 0xc7, 0x23, 0xc3, 0x18, 0x96, 0x05, 0x9a, 0x07, 0x12, 0x80, 0xe2, 0xeb, 0x27, 0xb2, 0x75,
  0x09, 0x83, 0x2c, 0x1a, 0x1b, 0x6e, 0x5a, 0xa0, 0x52, 0x3b, 0xd6, 0xb3, 0x29, 0xe3, 0x2f, 0x84,
  0x53, 0xd1, 0x00, 0xed, 0x20, 0xfc, 0xb1, 0x5b, 0x6a, 0xcb, 0xbe, 0x39, 0x4a, 0x4c, 0x58, 0xcf,
  0xd0, 0xef, 0xaa, 0xfb, 0x43, 0x4d, 0x33, 0x85, 0x45, 0xf9, 0x02, 0x7f, 0x50, 0x3c, 0x9f, 0xa8,
  0x51, 0xa3, 0x40, 0x8f, 0x92, 0x9d, 0x38, 0xf5, 0xbc, 0xb6, 0xda, 0x21, 0x10, 0xff, 0xf3, 0xd2,
  0xcd, 0x0c, 0x13, 0xec, 0x5f, 0x97, 0x44, 0x17, 0xc4, 0xa7, 0x7e, 0x3d, 0x64, 0x5d, 0x19, 0x73,
  0x60, 0x81, 0x4f, 0xdc, 0x22, 0x2a, 0x90, 0x88, 0x46, 0xee, 0xb8, 0x14, 0xde, 0x5e, 0x0b, 0xdb,
  0xe0, 0x32, 0x3a, 0x0a, 0x49, 0x06, 0x24, 0x5c, 0xc2, 0xd3, 0xac, 0x62, 0x91, 0x95, 0xe4, 0x79,
  0xe7, 0xc8, 0x37, 0x6d, 0x8d, 0xd5, 0x4e, 0xa9, 0x6c, 0x56, 0xf4, 0xea, 0x65, 0x7a, 0xae, 0x08,
  0xba, 0x78, 0x25, 0x2e, 0x1c, 0xa6, 0xb4, 0xc6, 0xe8, 0xdd, 0x74, 0x1f, 0x4b, 0xbd, 0x8b, 0x8a,
  0x70, 0x3e, 0xb5, 0x66, 0x48, 0x03, 0xf6, 0x0e, 0x61, 0x35, 0x57, 0xb9, 0x86, 0xc1, 0x1d, 0x9e,
  0xe1, 0xf8, 0x98, 0x11, 0x69, 0xd9, 0x8e, 0x94, 0x9b, 0x1e, 0x87, 0xe9, 0xce, 0x55, 0x28, 0xdf,
  0x8c, 0xa1, 0x89, 0x0d, 0xbf, 0xe6, 0x42, 0x68, 0x41, 0x99, 0x2d, 0x0f, 0xb0, 0x54, 0xbb, 0x16]

def sRcon : List Byte := [0x01, 0x02, 0x04, 0x08, 0x10, 0x20, 0x40, 0x80, 0x1b, 0x36]

def sboxAt (b : Byte) : Byte := sSbox.getD b.toNat 0

/-- `aes128_schedule_bytes`; the four bytes of `t` are computed at once. -/
def aes128ScheduleBytes (key : Nat → Byte) (w : Nat → Byte) : Nat → Byte :=
  let w := store w 0 16 key
  loop 40 (fun j w =>
    let i := 4 + j
    let t := fun k => w ((i - 1) * 4 + k)
    let t := if i % 4 = 0 then
        fun k => if k = 0 then sboxAt (t 1) ^^^ sRcon.getD (i / 4 - 1) 0 else sboxAt (t ((k + 1) % 4))
      else t
    store w (i * 4) 4 fun k => w ((i - 4) * 4 + k) ^^^ t k) w

def load (m : Nat → Byte) (p : Nat) : Block := fun i => m (p + i)

def storeBlock (m : Nat → Byte) (p : Nat) (b : Block) : Nat → Byte :=
  store m p 16 fun i => b (Fin.ofNat 16 i)

/-- `aes128_expand`; `w` is the local array before it is filled. -/
def aes128Expand (w : Nat → Byte) (key : Nat → Byte) (i : Nat) : Block :=
  load (aes128ScheduleBytes key w) (i * 16)

/-- `aes_key_cache_t`. -/
structure KeyCache where
  seed : Fin 32 → Byte
  rkHi : Nat → Block
  rkLo : Nat → Block
  valid : Bool

/-- `tl_key_cache` when its thread starts. -/
def KeyCache.zero : KeyCache := ⟨fun _ => 0, fun _ _ => 0, fun _ _ => 0, false⟩

/-- `get_round_keys`, which returns the cache. -/
def getRoundKeys (w : Nat → Byte) (cache : KeyCache) (seed : Nat → Byte) : KeyCache :=
  if cache.valid = false ∨ cache.seed ≠ fun i : Fin 32 => seed i then
    ⟨fun i : Fin 32 => seed i, aes128Expand w seed, aes128Expand w fun i => seed (16 + i), true⟩
  else cache

/-! ## The two backends -/

/-- `veorq_u8` and `_mm_xor_si128`. -/
abbrev xor : Block → Block → Block := Aes.addRoundKey

/-- `vdupq_n_u8(0)` and `_mm_setzero_si128`. -/
def zero : Block := fun _ => 0

/-- The chains `h0`, `l0`, ..., `h3`, `l3` of `cbc_mac_4x2`. -/
structure Chains where
  h0 : Block
  l0 : Block
  h1 : Block
  l1 : Block
  h2 : Block
  l2 : Block
  h3 : Block
  l3 : Block

def Chains.init : Chains := ⟨zero, zero, zero, zero, zero, zero, zero, zero⟩

/-- The blocks `m0`, ..., `m3` are added to the chains. -/
def Chains.absorb (m0 m1 m2 m3 : Block) (c : Chains) : Chains :=
  ⟨xor c.h0 m0, xor c.l0 m0, xor c.h1 m1, xor c.l1 m1, xor c.h2 m2, xor c.l2 m2, xor c.h3 m3, xor c.l3 m3⟩

/-- The same instructions for all chains, with the round keys of each half. -/
def Chains.round (f : Block → Block → Block) (hi lo : Block) (c : Chains) : Chains :=
  ⟨f c.h0 hi, f c.l0 lo, f c.h1 hi, f c.l1 lo, f c.h2 hi, f c.l2 lo, f c.h3 hi, f c.l3 lo⟩

/-- The stores at the end of `cbc_mac_4x2`. -/
def Chains.store (c : Chains) (outs : Nat → Byte) (p : Nat) : Nat → Byte :=
  let outs := storeBlock (storeBlock outs (p + 0) c.h0) (p + 16) c.l0
  let outs := storeBlock (storeBlock outs (p + 32) c.h1) (p + 48) c.l1
  let outs := storeBlock (storeBlock outs (p + 64) c.h2) (p + 80) c.l2
  storeBlock (storeBlock outs (p + 96) c.h3) (p + 112) c.l3

/-- What the two builds of the file have each of its own. -/
structure Backend where
  cbcMacSingle : (rk : Nat → Block) → (msg : Nat → Byte) → Block
  cbcMac4x2 : (rkHi rkLo : Nat → Block) → (msgs : Nat → Byte) → Chains

namespace Arm

/-- `vaeseq_u8`: the key is added, then the rows are shifted and the bytes substituted. -/
def vaeseq (s k : Block) : Block := Aes.subBytes (Aes.shiftRows (Aes.addRoundKey s k))

/-- `vaesmcq_u8`. -/
def vaesmcq (s : Block) : Block := Aes.mixColumns s

def ar (s k : Block) : Block := vaesmcq (vaeseq s k)

def cbcMacSingle (rk : Nat → Block) (msg : Nat → Byte) : Block :=
  loop 7 (fun b s =>
    let s := xor s (load msg (b * 16))
    let s := loop 9 (fun r s => ar s (rk r)) s
    xor (vaeseq s (rk 9)) (rk 10)) zero

def cbcMac4x2 (rkHi rkLo : Nat → Block) (msgs : Nat → Byte) : Chains :=
  loop 7 (fun b c =>
    let c := c.absorb (load msgs (b * 16)) (load msgs (112 + b * 16)) (load msgs (2 * 112 + b * 16))
      (load msgs (3 * 112 + b * 16))
    let c := loop 9 (fun r c => c.round ar (rkHi r) (rkLo r)) c
    (c.round vaeseq (rkHi 9) (rkLo 9)).round xor (rkHi 10) (rkLo 10)) .init

end Arm

namespace X86

/-- `_mm_aesenc_si128`: the rows are shifted, the bytes substituted, the columns mixed, and the key is added. -/
def aesenc (s k : Block) : Block := Aes.addRoundKey (Aes.mixColumns (Aes.subBytes (Aes.shiftRows s))) k

/-- `_mm_aesenclast_si128`. -/
def aesenclast (s k : Block) : Block := Aes.addRoundKey (Aes.subBytes (Aes.shiftRows s)) k

def cbcMacSingle (rk : Nat → Block) (msg : Nat → Byte) : Block :=
  loop 7 (fun b s =>
    let s := xor s (load msg (b * 16))
    let s := xor s (rk 0)
    let s := loop 9 (fun j s => aesenc s (rk (j + 1))) s
    aesenclast s (rk 10)) zero

def cbcMac4x2 (rkHi rkLo : Nat → Block) (msgs : Nat → Byte) : Chains :=
  loop 7 (fun b c =>
    let c := c.absorb (load msgs (b * 16)) (load msgs (112 + b * 16)) (load msgs (2 * 112 + b * 16))
      (load msgs (3 * 112 + b * 16))
    let c := c.round xor (rkHi 0) (rkLo 0)
    let c := loop 9 (fun j c => c.round aesenc (rkHi (j + 1)) (rkLo (j + 1))) c
    c.round aesenclast (rkHi 10) (rkLo 10)) .init

end X86

/-- The instruction sets of the two builds. -/
inductive Isa where
  | arm
  | x86

def Isa.backend : Isa → Backend
  | .arm => ⟨Arm.cbcMacSingle, Arm.cbcMac4x2⟩
  | .x86 => ⟨X86.cbcMacSingle, X86.cbcMac4x2⟩

/-! ## `pose_aes_prf_many` -/

/-- The arguments of a call: the memory its pointers refer to, and the array `outs`, written from `out` on. -/
structure Call where
  mem : Nat → Byte
  outs : Nat → Byte
  n : Nat
  out : Nat
  isSource : Bool
  nodeIndices : Nat → BitVec 64
  pred0s : Option (Nat → Option Nat)
  pred1s : Option (Nat → Option Nat)
  seed : Nat
  descriptor : Nat

/-- `(is_source || !preds) ? NULL : preds[i]`. -/
def predAt (isSource : Bool) (preds : Option (Nat → Option Nat)) (i : Nat) : Option Nat :=
  if isSource then none else preds.bind (· i)

/-- Entry `i` of a call is built at `msg`. -/
def Call.build (c : Call) (buf : Nat → Byte) (msg i : Nat) : Nat → Byte :=
  buildAesMsg c.mem buf msg (c.nodeIndices i) (predAt c.isSource c.pred0s i) (predAt c.isSource c.pred1s i) c.descriptor

/-- The local arrays of a call before they are filled. -/
structure Locals where
  w : Nat → Byte
  msgs : Nat → Byte
  msg : Nat → Nat → Byte

/-- `pose_aes_prf_many`, which returns the cache and the array `outs`. -/
def poseAesPrfMany (isa : Isa) (v : Locals) (cache : KeyCache) (c : Call) : KeyCache × (Nat → Byte) :=
  let kc := getRoundKeys v.w cache fun i => c.mem (c.seed + i)
  if c.n = 4 then
    let msgs := loop 4 (fun i msgs => c.build msgs (i * 112) i) v.msgs
    (kc, (isa.backend.cbcMac4x2 kc.rkHi kc.rkLo msgs).store c.outs c.out)
  else
    (kc, loop c.n (fun i outs =>
      let msg := c.build (v.msg i) 0 i
      let hi := isa.backend.cbcMacSingle kc.rkHi msg
      let lo := isa.backend.cbcMacSingle kc.rkLo msg
      storeBlock (storeBlock outs (c.out + i * 32) hi) (c.out + i * 32 + 16) lo) c.outs)

/-- The calls of a thread, one after the other: the array `outs` after each of them. -/
def runCalls (isa : Isa) : KeyCache → List (Locals × Call) → List (Nat → Byte)
  | _, [] => []
  | cache, (v, c) :: calls =>
    let r := poseAesPrfMany isa v cache c
    r.2 :: runCalls isa r.1 calls

/-! ## The labels -/

/-- The message of 112 bytes: the node index with its most significant byte first, eight zeros, both predecessors, the
descriptor. -/
def message (nodeIndex : BitVec 64) (pred0 pred1 descriptor : Nat → Byte) (j : Nat) : Byte :=
  if j < 8 then (nodeIndex >>> (8 * (7 - j))).setWidth 8
  else if j < 16 then 0
  else if j < 48 then pred0 (j - 16)
  else if j < 80 then pred1 (j - 48)
  else descriptor (j - 80)

/-- The message of entry `i`. -/
def Call.message (c : Call) (i : Nat) : Nat → Byte :=
  AesPrf.message (c.nodeIndices i) (optLabel c.mem (predAt c.isSource c.pred0s i))
    (optLabel c.mem (predAt c.isSource c.pred1s i)) fun j => c.mem (c.descriptor + j)

/-- Byte `j` of the label: the CBC-MAC under the first half of the seed, then the one under the second. -/
def label (seed : Nat → Byte) (msg : Nat → Byte) (j : Nat) : Byte :=
  if j < 16 then Aes.cbcMac (load seed 0) (fun b => load msg (b * 16)) 7 (Fin.ofNat 16 j)
  else Aes.cbcMac (load seed 16) (fun b => load msg (b * 16)) 7 (Fin.ofNat 16 (j - 16))

/-! ## The key schedule -/

theorem sboxAt_eq (b : Byte) : sboxAt b = Aes.sbox b := by
  have h : ∀ n < 256, sSbox.getD n 0 =
      (fun t : Byte => t ^^^ t.rotateLeft 1 ^^^ t.rotateLeft 2 ^^^ t.rotateLeft 3 ^^^ t.rotateLeft 4 ^^^ 0x63)
        (BitVec.ofNat 8 (Aes.Eval.inv n)) := by decide +kernel
  rw [Aes.sbox_eval]
  exact h b.toNat b.isLt

theorem sRcon_eq {j : Nat} (hj : 0 < j) (hj' : j ≤ 10) : sRcon.getD (j - 1) 0 = Aes.rcon j 0 := by
  have h : ∀ j < 11, 0 < j → sRcon.getD (j - 1) 0 = Aes.rcon j 0 := by decide
  exact h j (by omega) hj

theorem aes128ScheduleBytes_eq (key : Nat → Byte) (w : Nat → Byte) {i : Nat} (hi : i < 44) (k : Fin 4) :
    aes128ScheduleBytes key w (4 * i + k) = Aes.keyWord (load key 0) i k := by
  unfold aes128ScheduleBytes
  refine loop_inv (fun n (w : Nat → Byte) => ∀ i < 4 + n, ∀ k : Fin 4, w (4 * i + k) = Aes.keyWord (load key 0) i k)
    ?_ ?_ i (by omega) k
  · intro i hi k
    rw [Aes.keyWord_of_lt _ hi]
    have h := store_in w 0 16 key (show 4 * i + k < 16 by omega)
    rw [Nat.zero_add] at h
    rw [h]
    exact congrArg key (Nat.zero_add _).symm
  · intro n w hn hw i hi k
    dsimp only
    by_cases hlt : i < 4 + n
    · rw [store_out _ _ _ _ (by omega)]
      exact hw i hlt k
    · obtain rfl : i = 4 + n := by omega
      rw [Nat.mul_comm 4 (4 + n), store_in _ _ _ _ k.isLt, Aes.keyWord_of_le _ (by omega)]
      have hprev : ∀ k : Fin 4, w ((4 + n - 1) * 4 + k) = Aes.keyWord (load key 0) (4 + n - 1) k := fun k => by
        rw [← hw (4 + n - 1) (by omega) k, Nat.mul_comm]
      have hold : w ((4 + n - 4) * 4 + k) = Aes.keyWord (load key 0) (4 + n - 4) k := by
        rw [← hw (4 + n - 4) (by omega) k, Nat.mul_comm]
      rw [hold]
      show _ = Aes.keyWord (load key 0) (4 + n - 4) k ^^^ _
      congr 1
      by_cases h4 : (4 + n) % 4 = 0
      · rw [if_pos h4, if_pos h4]
        by_cases hk : k = 0
        · subst hk
          show sboxAt (w ((4 + n - 1) * 4 + (1 : Fin 4))) ^^^ sRcon.getD ((4 + n) / 4 - 1) 0 =
            Aes.sbox (Aes.keyWord (load key 0) (4 + n - 1) 1) ^^^ Aes.rcon ((4 + n) / 4) 0
          rw [sboxAt_eq, hprev, sRcon_eq (by omega) (by omega)]
        · have hnext : (k.val + 1) % 4 = (k + 1 : Fin 4) := (Fin.val_add k 1).symm
          have hrcon : Aes.rcon ((4 + n) / 4) k = 0 := if_neg hk
          rw [if_neg fun h : k.val = 0 => hk (Fin.ext h), hnext, hprev, sboxAt_eq]
          show _ = Aes.sbox (Aes.keyWord (load key 0) (4 + n - 1) (k + 1)) ^^^ Aes.rcon ((4 + n) / 4) k
          rw [hrcon]
          exact BitVec.xor_zero.symm
      · rw [if_neg h4, if_neg h4]
        exact hprev k

theorem aes128Expand_eq (w key : Nat → Byte) {r : Nat} (hr : r ≤ 10) :
    aes128Expand w key r = Aes.roundKey (load key 0) r := by
  funext i
  show aes128ScheduleBytes key w (r * 16 + i) = _
  rw [show r * 16 + i.val = 4 * (4 * r + i / 4) + i % 4 by omega]
  exact aes128ScheduleBytes_eq key w (by omega) ⟨i % 4, Nat.mod_lt _ (by decide)⟩

/-! ## The cache -/

/-- The round keys are those of the halves of `seed`. -/
structure KeyCache.Serves (cache : KeyCache) (seed : Nat → Byte) : Prop where
  hi : ∀ r ≤ 10, cache.rkHi r = Aes.roundKey (load seed 0) r
  lo : ∀ r ≤ 10, cache.rkLo r = Aes.roundKey (load seed 16) r

/-- A cache that is marked as filled serves the seed it names. -/
def KeyCache.Valid (cache : KeyCache) : Prop :=
  cache.valid = true → ∀ seed : Nat → Byte, (∀ i : Fin 32, seed i = cache.seed i) → cache.Serves seed

theorem KeyCache.valid_zero : KeyCache.zero.Valid := fun h => by cases h

theorem load_congr {m m' : Nat → Byte} {p q : Nat} (h : ∀ i < 16, m (p + i) = m' (q + i)) : load m p = load m' q := by
  funext i
  exact h i i.isLt

/-- **The cache never serves the keys of another seed**, and stays valid. -/
theorem getRoundKeys_spec {cache : KeyCache} (hcache : cache.Valid) (w seed : Nat → Byte) :
    (getRoundKeys w cache seed).Serves seed ∧ (getRoundKeys w cache seed).Valid := by
  unfold getRoundKeys
  split
  · have hserves : ∀ seed' : Nat → Byte, (∀ i : Fin 32, seed' i = seed i) →
        KeyCache.Serves ⟨fun i : Fin 32 => seed i, aes128Expand w seed, aes128Expand w fun i => seed (16 + i), true⟩
          seed' := by
      intro seed' h
      have hsame : ∀ i < 32, seed i = seed' i := fun i hi => (h ⟨i, hi⟩).symm
      refine ⟨fun r hr => ?_, fun r hr => ?_⟩
      · dsimp only
        rw [aes128Expand_eq w seed hr, load_congr fun i hi => hsame (0 + i) (by omega)]
      · dsimp only
        rw [aes128Expand_eq w _ hr, load_congr (q := 16) fun i hi => ?_]
        rw [Nat.zero_add]
        exact hsame (16 + i) (by omega)
    exact ⟨hserves seed fun _ => rfl, fun _ => hserves⟩
  · rename_i h
    push Not at h
    have hvalid : cache.valid = true := Bool.eq_true_of_not_eq_false h.1
    exact ⟨hcache hvalid seed fun i => (congrFun h.2 i).symm, hcache⟩

/-! ## One chain -/

variable {isa : Isa} {rk rkHi rkLo : Nat → Block} {key : Block}

/-- **Both backends compute the CBC-MAC**: a round that adds its key first, and one that adds it last. -/
theorem cbcMacSingle_eq (isa : Isa) (hrk : ∀ r ≤ 10, rk r = Aes.roundKey key r) (msg : Nat → Byte) :
    isa.backend.cbcMacSingle rk msg = Aes.cbcMac key (fun b => load msg (b * 16)) 7 := by
  have hblock : ∀ s, Aes.cipher rk s = Aes.encrypt key s := Aes.cipher_congr hrk
  cases isa with
  | arm =>
    apply loop_congr
    intro b s _
    rw [← hblock, ← Aes.cipher_eq_before]
    rfl
  | x86 =>
    apply loop_congr
    intro b s _
    rw [← hblock]
    rfl

/-! ## Eight chains -/

/-- One of the chains: its register, its key and its message. -/
structure Lane where
  get : Chains → Block
  pick : Block → Block → Block
  q : Nat
  get_init : get .init = zero
  get_absorb : ∀ (m : Nat → Block) c, get (c.absorb (m 0) (m 1) (m 2) (m 3)) = xor (get c) (m q)
  get_round : ∀ f hi lo c, get (Chains.round f hi lo c) = f (get c) (pick hi lo)

/-- **Each chain of the kernel is a single chain.** -/
theorem Lane.cbcMac4x2 (x : Lane) (isa : Isa) (rkHi rkLo : Nat → Block) (msgs : Nat → Byte) :
    x.get (isa.backend.cbcMac4x2 rkHi rkLo msgs) =
      isa.backend.cbcMacSingle (fun r => x.pick (rkHi r) (rkLo r)) fun i => msgs (x.q * 112 + i) := by
  have hmsg : ∀ b, load (fun i => msgs (x.q * 112 + i)) (b * 16) = load msgs (x.q * 112 + b * 16) := fun b => by
    apply load_congr
    intro i _
    rw [Nat.add_assoc]
  have habsorb : ∀ b c, x.get (c.absorb (load msgs (b * 16)) (load msgs (112 + b * 16)) (load msgs (2 * 112 + b * 16))
      (load msgs (3 * 112 + b * 16))) = xor (x.get c) (load msgs (x.q * 112 + b * 16)) := fun b c => by
    have h := x.get_absorb (fun j => load msgs (j * 112 + b * 16)) c
    rwa [Nat.zero_mul, Nat.zero_add, Nat.one_mul] at h
  have hrounds : ∀ (f : Block → Block → Block) (hi lo : Nat → Block) c,
      x.get (loop 9 (fun r c => Chains.round f (hi r) (lo r) c) c) =
        loop 9 (fun r s => f s (x.pick (hi r) (lo r))) (x.get c) := fun f hi lo c =>
    loop_map x.get fun r c _ => x.get_round f (hi r) (lo r) c
  cases isa with
  | arm =>
    dsimp only [Isa.backend]
    unfold Arm.cbcMac4x2 Arm.cbcMacSingle
    rw [← x.get_init]
    refine loop_map x.get fun b c _ => ?_
    dsimp only
    rw [x.get_round, x.get_round, hrounds, habsorb, ← hmsg]
  | x86 =>
    dsimp only [Isa.backend]
    unfold X86.cbcMac4x2 X86.cbcMacSingle
    rw [← x.get_init]
    refine loop_map x.get fun b c _ => ?_
    dsimp only
    rw [x.get_round, hrounds X86.aesenc (fun r => rkHi (r + 1)) fun r => rkLo (r + 1), x.get_round, habsorb, ← hmsg]

/-- The chain `h i` under the first key, and the chain `l i` under the second. -/
def hiLane : Nat → Lane
  | 0 => ⟨Chains.h0, fun hi _ => hi, 0, rfl, fun _ _ => rfl, fun _ _ _ _ => rfl⟩
  | 1 => ⟨Chains.h1, fun hi _ => hi, 1, rfl, fun _ _ => rfl, fun _ _ _ _ => rfl⟩
  | 2 => ⟨Chains.h2, fun hi _ => hi, 2, rfl, fun _ _ => rfl, fun _ _ _ _ => rfl⟩
  | _ => ⟨Chains.h3, fun hi _ => hi, 3, rfl, fun _ _ => rfl, fun _ _ _ _ => rfl⟩

def loLane : Nat → Lane
  | 0 => ⟨Chains.l0, fun _ lo => lo, 0, rfl, fun _ _ => rfl, fun _ _ _ _ => rfl⟩
  | 1 => ⟨Chains.l1, fun _ lo => lo, 1, rfl, fun _ _ => rfl, fun _ _ _ _ => rfl⟩
  | 2 => ⟨Chains.l2, fun _ lo => lo, 2, rfl, fun _ _ => rfl, fun _ _ _ _ => rfl⟩
  | _ => ⟨Chains.l3, fun _ lo => lo, 3, rfl, fun _ _ => rfl, fun _ _ _ _ => rfl⟩

theorem hiLane_spec : ∀ {i : Nat}, i < 4 → (hiLane i).q = i ∧ ∀ k l, (hiLane i).pick k l = k
  | 0, _ | 1, _ | 2, _ | 3, _ => ⟨rfl, fun _ _ => rfl⟩

theorem loLane_spec : ∀ {i : Nat}, i < 4 → (loLane i).q = i ∧ ∀ k l, (loLane i).pick k l = l
  | 0, _ | 1, _ | 2, _ | 3, _ => ⟨rfl, fun _ _ => rfl⟩

/-! ## Messages and labels in memory -/

/-- `build_aes_msg` builds the message. -/
theorem buildAesMsg_eq (mem buf : Nat → Byte) (msg : Nat) (nodeIndex : BitVec 64) (pred0 pred1 : Option Nat)
    (descriptor : Nat) :
    buildAesMsg mem buf msg nodeIndex pred0 pred1 descriptor =
      store buf msg 112 (message nodeIndex (optLabel mem pred0) (optLabel mem pred1) fun j => mem (descriptor + j)) := by
  obtain ⟨v, hv⟩ : ∃ v, v = message nodeIndex (optLabel mem pred0) (optLabel mem pred1) fun j => mem (descriptor + j) :=
    ⟨_, rfl⟩
  have hindex : ∀ j < 8, (nodeIndex >>> (8 * (7 - j))).setWidth 8 = v j := fun j hj => by
    rw [hv, message, if_pos hj]
  have hzero : ∀ j < 8, (0 : Byte) = v (8 + j) := fun j hj => by
    rw [hv, message, if_neg (by omega), if_pos (by omega)]
  have hpred0 : ∀ j < 32, optLabel mem pred0 j = v (8 + 8 + j) := fun j hj => by
    rw [hv, message, if_neg (by omega), if_neg (by omega), if_pos (by omega)]
    congr 1
    omega
  have hpred1 : ∀ j < 32, optLabel mem pred1 j = v (8 + 8 + 32 + j) := fun j hj => by
    rw [hv, message, if_neg (by omega), if_neg (by omega), if_neg (by omega), if_pos (by omega)]
    congr 1
    omega
  have hdesc : ∀ j < 32, mem (descriptor + j) = v (8 + 8 + 32 + 32 + j) := fun j hj => by
    rw [hv, message, if_neg (by omega), if_neg (by omega), if_neg (by omega), if_neg (by omega)]
    congr 2
    omega
  unfold buildAesMsg
  dsimp only
  rw [putNodeIndex_eq, store_congr _ _ _ hindex, store_congr _ _ _ hzero, store_store, store_congr _ _ _ hpred0,
    store_store, store_congr _ _ _ hpred1, store_store, store_congr _ _ _ hdesc, store_store, hv]

theorem Call.build_eq (c : Call) (buf : Nat → Byte) (msg i : Nat) :
    c.build buf msg i = store buf msg 112 (c.message i) := buildAesMsg_eq ..

theorem store_label (outs : Nat → Byte) (p : Nat) (seed msg : Nat → Byte) :
    storeBlock (storeBlock outs p (Aes.cbcMac (load seed 0) (fun b => load msg (b * 16)) 7)) (p + 16)
      (Aes.cbcMac (load seed 16) (fun b => load msg (b * 16)) 7) = store outs p 32 (label seed msg) := by
  unfold storeBlock
  rw [store_congr outs p 16 (w := label seed msg) fun i hi => (if_pos hi).symm,
    store_congr _ (p + 16) 16 (w := fun i => label seed msg (16 + i)) fun i hi => ?_, store_store]
  unfold label
  rw [if_neg (by omega), Nat.add_sub_cancel_left]

/-- The eight stores of the kernel go through the chains in order. -/
theorem Chains.store_eq_loop (c : Chains) (outs : Nat → Byte) (p : Nat) :
    c.store outs p = loop 4 (fun i outs =>
      storeBlock (storeBlock outs (p + i * 32) ((hiLane i).get c)) (p + i * 32 + 16) ((loLane i).get c)) outs := rfl

theorem Call.build_four (c : Call) (msgs : Nat → Byte) :
    loop 4 (fun i msgs => c.build msgs (i * 112) i) msgs =
      Mem.store msgs 0 (4 * 112) fun a => c.message (a / 112) (a % 112) := by
  rw [← loop_store_eq_store msgs 0 4 (by decide) fun i j => c.message i j]
  apply loop_congr
  intro i msgs _
  rw [Call.build_eq, Nat.zero_add]

/-- **A call writes the labels of its entries**, and leaves a valid cache. -/
theorem poseAesPrfMany_spec (isa : Isa) (v : Locals) {cache : KeyCache} (hcache : cache.Valid) (c : Call) :
    (poseAesPrfMany isa v cache c).2 = Mem.store c.outs c.out (c.n * 32)
      (fun a => label (fun j => c.mem (c.seed + j)) (c.message (a / 32)) (a % 32)) ∧
    (poseAesPrfMany isa v cache c).1.Valid := by
  obtain ⟨hserves, hvalid⟩ := getRoundKeys_spec hcache v.w fun i => c.mem (c.seed + i)
  unfold poseAesPrfMany
  dsimp only
  rw [← loop_store_eq_store c.outs c.out c.n (by decide) fun i => label (fun j => c.mem (c.seed + j)) (c.message i)]
  split
  · rename_i hn
    refine ⟨?_, hvalid⟩
    dsimp only
    rw [hn, Call.build_four, Chains.store_eq_loop]
    apply loop_congr
    intro i outs hi
    rw [← store_label, Lane.cbcMac4x2, Lane.cbcMac4x2, (hiLane_spec hi).1, (loLane_spec hi).1]
    have hmsg : ∀ b < 7, load (fun j => Mem.store v.msgs 0 (4 * 112)
        (fun a => c.message (a / 112) (a % 112)) (i * 112 + j)) (b * 16) = load (c.message i) (b * 16) := by
      intro b hb
      apply load_congr
      intro j hj
      have hin := store_in v.msgs 0 (4 * 112) (fun a => c.message (a / 112) (a % 112))
        (show i * 112 + (b * 16 + j) < 4 * 112 by omega)
      rw [Nat.zero_add] at hin
      rw [hin, show (i * 112 + (b * 16 + j)) / 112 = i by omega, show (i * 112 + (b * 16 + j)) % 112 = b * 16 + j by omega]
    rw [cbcMacSingle_eq isa (fun r hr => ((hiLane_spec hi).2 _ _).trans (hserves.hi r hr)),
      cbcMacSingle_eq isa (fun r hr => ((loLane_spec hi).2 _ _).trans (hserves.lo r hr)),
      Aes.cbcMac_congr _ hmsg, Aes.cbcMac_congr _ hmsg]
  · refine ⟨?_, hvalid⟩
    apply loop_congr
    intro i outs _
    have hmsg : ∀ b < 7, load (c.build (v.msg i) 0 i) (b * 16) = load (c.message i) (b * 16) := by
      intro b hb
      apply load_congr
      intro j hj
      have hin := store_in (v.msg i) 0 112 (c.message i) (show b * 16 + j < 112 by omega)
      rwa [Nat.zero_add, ← Call.build_eq] at hin
    rw [← store_label, cbcMacSingle_eq isa hserves.hi, cbcMacSingle_eq isa hserves.lo, Aes.cbcMac_congr _ hmsg,
      Aes.cbcMac_congr _ hmsg]

theorem runCalls_eq (isa : Isa) {cache : KeyCache} (hcache : cache.Valid) (calls : List (Locals × Call)) :
    runCalls isa cache calls = calls.map fun call => Mem.store call.2.outs call.2.out (call.2.n * 32)
      fun a => label (fun j => call.2.mem (call.2.seed + j)) (call.2.message (a / 32)) (a % 32) := by
  induction calls generalizing cache with
  | nil => rfl
  | cons call calls ih =>
    obtain ⟨houts, hvalid⟩ := poseAesPrfMany_spec isa call.1 hcache call.2
    rw [List.map_cons, ← houts, ← ih hvalid]
    rfl

/-- The caches of a thread: the one it starts with, and what any call leaves. -/
inductive Reachable (isa : Isa) : KeyCache → Prop where
  | zero : Reachable isa .zero
  | call {cache : KeyCache} (v : Locals) (c : Call) (h : Reachable isa cache) :
    Reachable isa (poseAesPrfMany isa v cache c).1

theorem Reachable.valid {cache : KeyCache} (h : Reachable isa cache) : cache.Valid := by
  induction h with
  | zero => exact KeyCache.valid_zero
  | call v c _ ih => exact (poseAesPrfMany_spec isa v ih c).2

/-- **Over all the calls of a thread, every label is the one FIPS 197 gives for its own seed and message**, and the two
backends agree. -/
theorem poseAesPrf_run (isa : Isa) (calls : List (Locals × Call)) :
    List.Forall₂ (fun call outs => ∀ i < call.2.n, ∀ j < 32, outs (call.2.out + i * 32 + j) =
      label (fun j => call.2.mem (call.2.seed + j)) (call.2.message i) j) calls (runCalls isa .zero calls) ∧
    runCalls .arm .zero calls = runCalls .x86 .zero calls := by
  have hrun := fun isa => runCalls_eq isa KeyCache.valid_zero calls
  refine ⟨?_, (hrun .arm).trans (hrun .x86).symm⟩
  rw [hrun, List.forall₂_map_right_iff]
  apply List.forall₂_same.mpr
  intro call _ i hi j hj
  rw [Nat.add_assoc, store_in _ _ _ _ (by omega), show (i * 32 + j) / 32 = i by omega,
    show (i * 32 + j) % 32 = j by omega]

end PoseDB.AesPrf
