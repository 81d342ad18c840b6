import PoseDB.Lib.Mem
import PoseDB.Lib.Sha2

/-!
# `pose_sha256` (`sha256.c`, portable build)

The message is padded in a buffer of 256 bytes with the bit count in its last eight, and as many blocks are compressed
as SHA-256 has for its length. The compression is that of the standard (`sha256Compress_eq`); the bit count is in the
last block when there are four (`poseSha256_eq_sha256`), and otherwise it is left out (`poseSha256_iff`).
-/

set_option autoImplicit false

namespace PoseDB
open Loops Mem

namespace Sha256
open Sha2 (Word Byte State)

/-! ## The code -/

def K : List Word := [
  0x428a2f98, 0x71374491, 0xb5c0fbcf, 0xe9b5dba5,
  0x3956c25b, 0x59f111f1, 0x923f82a4, 0xab1c5ed5,
  0xd807aa98, 0x12835b01, 0x243185be, 0x550c7dc3,
  0x72be5d74, 0x80deb1fe, 0x9bdc06a7, 0xc19bf174,
  0xe49b69c1, 0xefbe4786, 0x0fc19dc6, 0x240ca1cc,
  0x2de92c6f, 0x4a7484aa, 0x5cb0a9dc, 0x76f988da,
  0x983e5152, 0xa831c66d, 0xb00327c8, 0xbf597fc7,
  0xc6e00bf3, 0xd5a79147, 0x06ca6351, 0x14292967,
  0x27b70a85, 0x2e1b2138, 0x4d2c6dfc, 0x53380d13,
  0x650a7354, 0x766a0abb, 0x81c2c92e, 0x92722c85,
  0xa2bfe8a1, 0xa81a664b, 0xc24b8b70, 0xc76c51a3,
  0xd192e819, 0xd6990624, 0xf40e3585, 0x106aa070,
  0x19a4c116, 0x1e376c08, 0x2748774c, 0x34b0bcb5,
  0x391c0cb3, 0x4ed8aa4a, 0x5b9cca4f, 0x682e6ff3,
  0x748f82ee, 0x78a5636f, 0x84c87814, 0x8cc70208,
  0x90befffa, 0xa4506ceb, 0xbef9a3f7, 0xc67178f2]

def H0 : State :=
  ⟨0x6a09e667, 0xbb67ae85, 0x3c6ef372, 0xa54ff53a, 0x510e527f, 0x9b05688c, 0x1f83d9ab, 0x5be0cd19⟩

def rotr32 (x : Word) (n : Nat) : Word := x >>> n ||| x <<< (32 - n)
def ch (x y z : Word) : Word := (x &&& y) ^^^ (~~~x &&& z)
def maj (x y z : Word) : Word := (x &&& y) ^^^ (x &&& z) ^^^ (y &&& z)
def bigSig0 (x : Word) : Word := rotr32 x 2 ^^^ rotr32 x 13 ^^^ rotr32 x 22
def bigSig1 (x : Word) : Word := rotr32 x 6 ^^^ rotr32 x 11 ^^^ rotr32 x 25
def sig0 (x : Word) : Word := rotr32 x 7 ^^^ rotr32 x 18 ^^^ x >>> 3
def sig1 (x : Word) : Word := rotr32 x 17 ^^^ rotr32 x 19 ^^^ x >>> 10

/-- The array `w` of `sha256_compress`, given its initial contents. -/
def messageWords (w : Nat → Word) (block : Nat → Byte) : Nat → Word :=
  let w := loop 16 (fun i w => Function.update w i
    ((block (i * 4)).setWidth 32 <<< 24 ||| (block (i * 4 + 1)).setWidth 32 <<< 16 |||
      (block (i * 4 + 2)).setWidth 32 <<< 8 ||| (block (i * 4 + 3)).setWidth 32)) w
  loop 48 (fun j w =>
    let i := 16 + j
    Function.update w i (sig1 (w (i - 2)) + w (i - 7) + sig0 (w (i - 15)) + w (i - 16))) w

/-- `sha256_compress`; `w` is the local array before it is filled. -/
def sha256Compress (w : Nat → Word) (state : State) (block : Nat → Byte) : State :=
  let w := messageWords w block
  let r := loop 64 (fun i (s : State) =>
    let t1 := s.h + bigSig1 s.e + ch s.e s.f s.g + K.getD i 0 + w i
    let t2 := bigSig0 s.a + maj s.a s.b s.c
    (⟨t1 + t2, s.a, s.b, s.c, s.d + t1, s.e, s.f, s.g⟩ : State)) state
  ⟨state.a + r.a, state.b + r.b, state.c + r.c, state.d + r.d, state.e + r.e, state.f + r.f, state.g + r.g,
    state.h + r.h⟩

/-- `out[i*4+0], ..., out[i*4+3]`. -/
def outBytes (s : Word) : List Byte :=
  [(s >>> 24).setWidth 8, (s >>> 16).setWidth 8, (s >>> 8).setWidth 8, s.setWidth 8]

/-- The array `padded` of `pose_sha256`. -/
def padMessage (padded : Nat → Byte) (msg : List Byte) : Nat → Byte :=
  let msgLen := msg.length
  let padded := store padded 0 msgLen fun i => msg.getD i 0
  let padded := store padded msgLen (256 - msgLen) fun _ => 0
  let padded := Function.update padded msgLen 0x80
  let bits := BitVec.ofNat 64 msgLen * 8
  (loop 8 (fun j (padded, bits) =>
    let i := 7 - j
    (Function.update padded (248 + i) ((bits &&& 0xff).setWidth 8), bits >>> 8)) (padded, bits)).1

/-- `pose_sha256`; `padded` and `w` are the local arrays before they are filled. -/
def poseSha256 (padded : Nat → Byte) (w : Nat → Word) (msg : List Byte) : List Byte :=
  let padded := padMessage padded msg
  let nblocks := (msg.length + 1 + 8 + 63) / 64
  let state := loop nblocks (fun b state => sha256Compress w state fun i => padded (b * 64 + i)) H0
  state.words.flatMap outBytes

/-! ## The compression -/

theorem rotr32_eq (x : Word) (n : Nat) (hn : n < 32) : rotr32 x n = x.rotateRight n :=
  (BitVec.rotateRight_def ▸ by rw [Nat.mod_eq_of_lt hn]; rfl)

theorem K_eq {t : Nat} (ht : t < 64) : K.getD t 0 = Sha2.roundConstant t := by
  have hK : K = Sha2.roundConstants.map (BitVec.ofNat 32) := by decide
  rw [hK, Sha2.roundConstant_eq ht, List.getD_eq_getElem?_getD, List.getD_eq_getElem?_getD, List.getElem?_map,
    List.getElem?_eq_getElem (by exact ht)]
  rfl

theorem word_eq (block : Nat → Byte) (i : Nat) :
    (block (i * 4)).setWidth 32 <<< 24 ||| (block (i * 4 + 1)).setWidth 32 <<< 16 |||
      (block (i * 4 + 2)).setWidth 32 <<< 8 ||| (block (i * 4 + 3)).setWidth 32 = Sha2.word block i := by
  unfold Sha2.word
  rw [Nat.mul_comm i 4]
  have hshift : ∀ (b : Byte) n, n ≤ 24 → (b.setWidth 32 <<< n : Word).toNat = b.toNat <<< n := fun b n hn => by
    have hb := b.isLt
    have hlt : b.toNat <<< n < 2 ^ 32 := by
      rw [Nat.shiftLeft_eq]
      calc b.toNat * 2 ^ n < 2 ^ 8 * 2 ^ n := Nat.mul_lt_mul_of_pos_right hb (Nat.two_pow_pos n)
        _ ≤ 2 ^ 8 * 2 ^ 24 := Nat.mul_le_mul_left _ (Nat.pow_le_pow_right (by decide) hn)
    rw [BitVec.toNat_shiftLeft, BitVec.toNat_setWidth, Nat.mod_eq_of_lt (hb.trans (by decide)), Nat.mod_eq_of_lt hlt]
  have hlast := hshift (block (4 * i + 3)) 0 (by decide)
  rw [BitVec.shiftLeft_zero, Nat.shiftLeft_zero] at hlast
  apply BitVec.eq_of_toNat_eq
  simp only [BitVec.toNat_or, BitVec.toNat_append, hshift _ 24 (by decide), hshift _ 16 (by decide),
    hshift _ 8 (by decide), hlast, Nat.shiftLeft_or_distrib, ← Nat.shiftLeft_add]

theorem sig0_eq (x : Word) : sig0 x = Sha2.smallSigma0 x := by
  unfold sig0 Sha2.smallSigma0
  rw [rotr32_eq x 7 (by decide), rotr32_eq x 18 (by decide)]

theorem sig1_eq (x : Word) : sig1 x = Sha2.smallSigma1 x := by
  unfold sig1 Sha2.smallSigma1
  rw [rotr32_eq x 17 (by decide), rotr32_eq x 19 (by decide)]

theorem bigSig0_eq (x : Word) : bigSig0 x = Sha2.bigSigma0 x := by
  unfold bigSig0 Sha2.bigSigma0
  rw [rotr32_eq x 2 (by decide), rotr32_eq x 13 (by decide), rotr32_eq x 22 (by decide)]

theorem bigSig1_eq (x : Word) : bigSig1 x = Sha2.bigSigma1 x := by
  unfold bigSig1 Sha2.bigSigma1
  rw [rotr32_eq x 6 (by decide), rotr32_eq x 11 (by decide), rotr32_eq x 25 (by decide)]

/-- The array `w` is the message schedule. -/
theorem messageWords_eq (w : Nat → Word) (block : Nat → Byte) {t : Nat} (ht : t < 64) :
    messageWords w block t = Sha2.schedule (Sha2.word block) t := by
  have hfirst : ∀ t < 16, loop 16 (fun i w => Function.update w i
      ((block (i * 4)).setWidth 32 <<< 24 ||| (block (i * 4 + 1)).setWidth 32 <<< 16 |||
        (block (i * 4 + 2)).setWidth 32 <<< 8 ||| (block (i * 4 + 3)).setWidth 32)) w t =
      Sha2.schedule (Sha2.word block) t := by
    refine loop_inv (fun n (w : Nat → Word) => ∀ t < n, w t = Sha2.schedule (Sha2.word block) t)
      (fun _ h => absurd h (Nat.not_lt_zero _)) ?_
    intro n w hn hw
    rw [word_eq, ← Sha2.schedule_of_lt (Sha2.word block) hn]
    exact fill_step hw
  unfold messageWords
  revert hfirst
  generalize loop 16 _ w = w
  intro hfirst
  refine loop_inv (fun n (w : Nat → Word) => ∀ t < 16 + n, w t = Sha2.schedule (Sha2.word block) t) hfirst ?_ t ht
  intro n w hn hw
  have hnext : sig1 (w (16 + n - 2)) + w (16 + n - 7) + sig0 (w (16 + n - 15)) + w (16 + n - 16) =
      Sha2.schedule (Sha2.word block) (16 + n) := by
    rw [hw _ (by omega), hw _ (by omega), hw _ (by omega), hw _ (by omega), sig0_eq, sig1_eq, Nat.add_comm 16 n,
      Sha2.schedule_add]
    rfl
  rw [hnext, ← Nat.add_assoc]
  exact fill_step hw

/-- **`sha256_compress` is the compression of the standard.** -/
theorem sha256Compress_eq (w : Nat → Word) (state : State) (block : Nat → Byte) :
    sha256Compress w state block = Sha2.compress state (Sha2.word block) := by
  have hrounds : loop 64 (fun i (s : State) =>
      let t1 := s.h + bigSig1 s.e + ch s.e s.f s.g + K.getD i 0 + messageWords w block i
      let t2 := bigSig0 s.a + maj s.a s.b s.c
      (⟨t1 + t2, s.a, s.b, s.c, s.d + t1, s.e, s.f, s.g⟩ : State)) state =
      loop 64 (fun t => Sha2.round (Sha2.roundConstant t) (Sha2.schedule (Sha2.word block) t)) state := by
    refine loop_congr fun t s ht => ?_
    simp only [bigSig0_eq, bigSig1_eq, K_eq ht, messageWords_eq w block ht]
    rfl
  unfold sha256Compress Sha2.compress
  rw [← hrounds]
  rfl

/-! ## The padding -/

/-- The final contents of the buffer: the bit count is in its last eight bytes. -/
def paddedByte (msg : List Byte) (i : Nat) : Byte :=
  if i < msg.length then msg.getD i 0
  else if i = msg.length then 0x80
  else if i < 248 then 0
  else BitVec.ofNat 8 (8 * msg.length / 256 ^ (255 - i))

theorem low_byte (bits : BitVec 64) : (bits &&& 0xff).setWidth 8 = BitVec.ofNat 8 bits.toNat := by
  apply BitVec.eq_of_toNat_eq
  have hand : bits.toNat &&& 255 = bits.toNat % 2 ^ 8 := Nat.and_two_pow_sub_one_eq_mod bits.toNat 8
  rw [BitVec.toNat_setWidth, BitVec.toNat_and, BitVec.toNat_ofNat]
  show (bits.toNat &&& 255) % 2 ^ 8 = _
  rw [hand, Nat.mod_mod]

theorem padMessage_eq (padded : Nat → Byte) {msg : List Byte} (h : msg.length ≤ 247) {i : Nat} (hi : i < 256) :
    padMessage padded msg i = paddedByte msg i := by
  obtain ⟨q, hq⟩ : ∃ q, q = Function.update (store (store padded 0 msg.length fun i => msg.getD i 0) msg.length
    (256 - msg.length) fun _ => 0) msg.length 0x80 := ⟨_, rfl⟩
  have hbytes : ∀ i < 256, q i =
      if i < msg.length then msg.getD i 0 else if i = msg.length then 0x80 else 0 := by
    intro i hi
    rw [hq]
    unfold store
    by_cases hlen : i = msg.length
    · rw [hlen, Function.update_self, if_neg (lt_irrefl _), if_pos rfl]
    · rw [Function.update_of_ne hlen, if_neg hlen]
      by_cases hlt : i < msg.length
      · rw [if_neg (by omega), if_pos (by omega), if_pos hlt, Nat.sub_zero]
      · rw [if_pos (by omega), if_neg hlt]
  -- byte `255 - j` is written in iteration `j`, from the count shifted by `8 * j`
  have hloop : ∀ t ≤ 8, (∀ i < 256, (loop t (fun j ((p, bits) : (Nat → Byte) × BitVec 64) =>
      let i := 7 - j
      (Function.update p (248 + i) ((bits &&& 0xff).setWidth 8), bits >>> 8))
      (q, BitVec.ofNat 64 msg.length * 8)).1 i =
        if 256 - t ≤ i then BitVec.ofNat 8 (8 * msg.length / 256 ^ (255 - i)) else q i) ∧
      (loop t (fun j ((p, bits) : (Nat → Byte) × BitVec 64) =>
        let i := 7 - j
        (Function.update p (248 + i) ((bits &&& 0xff).setWidth 8), bits >>> 8))
        (q, BitVec.ofNat 64 msg.length * 8)).2.toNat = 8 * msg.length / 256 ^ t := by
    intro t ht
    induction t with
    | zero =>
      refine ⟨fun i hi => by rw [if_neg (by omega)]; rfl, ?_⟩
      show (BitVec.ofNat 64 msg.length * 8).toNat = _
      rw [BitVec.toNat_mul, BitVec.toNat_ofNat, Nat.mod_eq_of_lt (show msg.length < 2 ^ 64 by omega), pow_zero,
        Nat.div_one]
      show msg.length * 8 % 2 ^ 64 = _
      omega
    | succ t ih =>
      obtain ⟨hp, hbits⟩ := ih (by omega)
      rw [loop_succ]
      revert hp hbits
      generalize loop t _ _ = r
      obtain ⟨p, bits⟩ := r
      intro hp hbits
      dsimp only at hp hbits ⊢
      refine ⟨fun i hi => ?_, ?_⟩
      · by_cases hit : i = 248 + (7 - t)
        · rw [hit, Function.update_self, if_pos (by omega), low_byte, hbits,
            show 255 - (248 + (7 - t)) = t by omega]
        · rw [Function.update_of_ne hit, hp i hi]
          exact if_congr (by omega) rfl rfl
      · rw [BitVec.toNat_ushiftRight, hbits, Nat.shiftRight_eq_div_pow, Nat.div_div_eq_div_mul,
          show 256 ^ (t + 1) = 256 ^ t * 2 ^ 8 from pow_succ 256 t]
  have hfinal := (hloop 8 le_rfl).1 i hi
  rw [hbytes i hi] at hfinal
  unfold padMessage paddedByte
  rw [← hq]
  refine hfinal.trans ?_
  by_cases hlt : i < msg.length
  · rw [if_neg (by omega), if_pos hlt, if_pos hlt]
  · rw [if_neg hlt, if_neg hlt]
    by_cases hlen : i = msg.length
    · rw [if_neg (by omega), if_pos hlen, if_pos hlen]
    · rw [if_neg hlen, if_neg hlen]
      by_cases h248 : i < 248
      · rw [if_neg (by omega), if_pos h248]
      · rw [if_pos (by omega), if_neg h248]

theorem outBytes_eq (s : Word) : outBytes s = Sha2.wordBytes s := by
  unfold outBytes Sha2.wordBytes
  simp [List.range_succ]

/-- The hash value of the code, over the bytes of its buffer. -/
def codeState (msg : List Byte) : State :=
  loop ((msg.length + 72) / 64) (fun b H => Sha2.compress H (Sha2.word fun i => paddedByte msg (64 * b + i)))
    Sha2.initialHash

theorem poseSha256_eq (padded : Nat → Byte) (w : Nat → Word) {msg : List Byte} (h : msg.length ≤ 247) :
    poseSha256 padded w msg = (codeState msg).words.flatMap Sha2.wordBytes := by
  have hH : H0 = Sha2.initialHash := Sha2.initialHash_eq.symm
  have hstate : loop ((msg.length + 1 + 8 + 63) / 64) (fun b state =>
      sha256Compress w state fun i => padMessage padded msg (b * 64 + i)) H0 = codeState msg := by
    unfold codeState
    rw [hH]
    refine loop_congr fun b s hb => ?_
    rw [sha256Compress_eq]
    refine Sha2.compress_congr fun t ht => Sha2.word_congr fun j hj => ?_
    rw [Nat.mul_comm b 64]
    exact padMessage_eq padded h (by omega)
  unfold poseSha256
  dsimp only
  rw [hstate, funext outBytes_eq]

/-- When the bit count is in the last block, or is zero, the buffer holds the padded message of the standard. -/
theorem codeState_eq {msg : List Byte} (h : msg.length ≤ 247) (hlen : msg.length = 0 ∨ 184 ≤ msg.length) :
    codeState msg = Sha2.hashBlocks (Sha2.pad msg) := by
  unfold codeState Sha2.hashBlocks
  rw [Sha2.length_pad, Nat.mul_div_cancel_left _ (by decide)]
  refine loop_congr fun b s hb => Sha2.compress_congr fun t ht => Sha2.word_congr fun j hj => ?_
  rw [Sha2.getD_pad msg (by omega), paddedByte]
  rcases hlen with h0 | h184
  · have hzero : ∀ i, BitVec.ofNat 8 (8 * msg.length / 256 ^ i) = 0 := fun i => by
      rw [h0, Nat.mul_zero, Nat.zero_div]
      rfl
    rw [hzero, hzero, ite_self, ite_self]
  · have hnb : 64 * ((msg.length + 72) / 64) = 256 := by omega
    rw [hnb]
    exact if_congr Iff.rfl rfl (if_congr Iff.rfl rfl (if_congr (by omega) rfl rfl))

/-- **With the bit count in the last block the digest is that of the standard.** -/
theorem poseSha256_eq_sha256 (padded : Nat → Byte) (w : Nat → Word) {msg : List Byte} (h : msg.length ≤ 247)
    (hlen : msg.length = 0 ∨ 184 ≤ msg.length) : poseSha256 padded w msg = Sha2.sha256 msg := by
  rw [poseSha256_eq padded w h, codeState_eq h hlen]
  rfl

/-! ## Messages of zeros

A message of fewer than three blocks, padded with the bit count and without. -/

open Sha2 (Eval.State)

/-- Byte `i` of `len` zeros padded to `nb` blocks with the count `bits`. -/
def zeroByte (len bits nb i : Nat) : Nat :=
  if i = len then 128 else if 64 * nb ≤ i + 8 then bits / 256 ^ (64 * nb - 1 - i) % 256 else 0

def zeroWord (len bits nb b t : Nat) : Nat :=
  let byte := fun j => zeroByte len bits nb (64 * b + (4 * t + j))
  ((byte 0 * 256 + byte 1) * 256 + byte 2) * 256 + byte 3

/-- The hash value from block `b` on. -/
def zeroHash (len bits nb b : Nat) (H : Eval.State) : Eval.State :=
  loop (nb - b) (fun i H => Sha2.Eval.compress H (zeroWord len bits nb (b + i))) H

/-- The hash value after `k` blocks of zeros. -/
def zeroPrefix : Nat → Eval.State
  | 0 => Sha2.Eval.initialHash
  | 1 => ⟨3663108286, 398046313, 1647531929, 2006957770, 2363872401, 3235013187, 3137272298, 406301144⟩
  | _ => ⟨1753322530, 427712285, 3703720195, 2823132263, 2087222896, 476200146, 2194495960, 3856981803⟩

theorem zeroPrefix_eq : ∀ k < 3, loop k (fun _ H => Sha2.Eval.compress H fun _ => 0) Sha2.Eval.initialHash =
    zeroPrefix k := by decide +kernel

theorem zeroHash_prefix {len bits nb : Nat} (hlen : len + 9 ≤ 64 * nb) (h : len < 184) :
    zeroHash len bits nb 0 Sha2.Eval.initialHash = zeroHash len bits nb (len / 64) (zeroPrefix (len / 64)) := by
  have hsplit : nb - 0 = len / 64 + (nb - len / 64) := by omega
  have hbyte : ∀ i < 64 * (len / 64), zeroByte len bits nb i = 0 := fun i hi => by
    unfold zeroByte
    rw [if_neg (by omega), if_neg (by omega)]
  have hzero : ∀ b < len / 64, ∀ t < 16, zeroWord len bits nb b t = 0 := fun b hb t ht => by
    unfold zeroWord
    dsimp only
    rw [hbyte _ (by omega), hbyte _ (by omega), hbyte _ (by omega), hbyte _ (by omega)]
  have hprefix : loop (len / 64) (fun i H => Sha2.Eval.compress H (zeroWord len bits nb (0 + i)))
      Sha2.Eval.initialHash = zeroPrefix (len / 64) := by
    rw [← zeroPrefix_eq (len / 64) (by omega)]
    refine loop_congr fun b H hb => ?_
    unfold Sha2.Eval.compress
    rw [Nat.zero_add]
    simp only [hzero b hb 0 (by decide), hzero b hb 1 (by decide), hzero b hb 2 (by decide), hzero b hb 3 (by decide),
      hzero b hb 4 (by decide), hzero b hb 5 (by decide), hzero b hb 6 (by decide), hzero b hb 7 (by decide),
      hzero b hb 8 (by decide), hzero b hb 9 (by decide), hzero b hb 10 (by decide), hzero b hb 11 (by decide),
      hzero b hb 12 (by decide), hzero b hb 13 (by decide), hzero b hb 14 (by decide), hzero b hb 15 (by decide)]
  unfold zeroHash
  rw [hsplit, loop_add, hprefix]
  simp only [Nat.zero_add]

/-- The bit count changes the first word of the hash value. -/
def CountMatters (len : Nat) : Prop :=
  (zeroHash len 0 ((len + 72) / 64) (len / 64) (zeroPrefix (len / 64))).a ≠
    (zeroHash len (8 * len) ((len + 72) / 64) (len / 64) (zeroPrefix (len / 64))).a

instance (len : Nat) : Decidable (CountMatters len) := inferInstanceAs (Decidable (_ ≠ _))

theorem countMatters_one : ∀ r < 64, 0 < r → CountMatters r := by decide +kernel

theorem countMatters_two : ∀ r < 64, CountMatters (64 + r) := by decide +kernel

theorem countMatters_three : ∀ r < 56, CountMatters (128 + r) := by decide +kernel

theorem countMatters {len : Nat} (hpos : 0 < len) (h : len < 184) : CountMatters len := by
  rcases (show len < 64 ∨ 64 ≤ len ∧ len < 128 ∨ 128 ≤ len by omega) with h1 | ⟨h1, h2⟩ | h1
  · exact countMatters_one len h1 hpos
  · obtain ⟨r, rfl⟩ := Nat.exists_eq_add_of_le h1
    exact countMatters_two r (by omega)
  · obtain ⟨r, rfl⟩ := Nat.exists_eq_add_of_le h1
    exact countMatters_three r (by omega)

/-- A hash value over a buffer whose bytes are those of padded zeros. -/
theorem zeros_eval {len bits nb : Nat} {bytes : Nat → Byte}
    (h : ∀ i < 64 * nb, (bytes i).toNat = zeroByte len bits nb i) :
    (loop nb (fun b H => Sha2.compress H (Sha2.word fun i => bytes (64 * b + i))) Sha2.initialHash).toNat =
      zeroHash len bits nb 0 Sha2.Eval.initialHash := by
  have hinit : Sha2.initialHash.toNat = Sha2.Eval.initialHash := by rw [Sha2.initialHash_eq]; rfl
  unfold zeroHash
  rw [← hinit, Nat.sub_zero]
  refine loop_map State.toNat fun b H hb => ?_
  rw [Sha2.compress_eval, Nat.zero_add]
  have hword : ∀ t < 16, (Sha2.word (fun i => bytes (64 * b + i)) t).toNat = zeroWord len bits nb b t := by
    intro t ht
    rw [Sha2.toNat_word]
    unfold zeroWord
    dsimp only
    rw [← h _ (by omega), ← h _ (by omega), ← h _ (by omega), ← h _ (by omega)]
    rfl
  unfold Sha2.Eval.compress
  simp only [hword 0 (by decide), hword 1 (by decide), hword 2 (by decide), hword 3 (by decide),
    hword 4 (by decide), hword 5 (by decide), hword 6 (by decide), hword 7 (by decide), hword 8 (by decide),
    hword 9 (by decide), hword 10 (by decide), hword 11 (by decide), hword 12 (by decide), hword 13 (by decide),
    hword 14 (by decide), hword 15 (by decide)]

theorem getD_zeros (len i : Nat) : (List.replicate len (0 : Byte)).getD i 0 = 0 := by
  rw [List.getD_eq_getElem?_getD, List.getElem?_replicate]
  split <;> rfl

theorem hashBlocks_zeros (len : Nat) :
    (Sha2.hashBlocks (Sha2.pad (List.replicate len 0))).toNat =
      zeroHash len (8 * len) ((len + 72) / 64) 0 Sha2.Eval.initialHash := by
  have hbytes : ∀ i < 64 * ((len + 72) / 64), ((Sha2.pad (List.replicate len 0)).getD i 0).toNat =
      zeroByte len (8 * len) ((len + 72) / 64) i := by
    intro i hi
    rw [Sha2.getD_pad _ (by rwa [List.length_replicate]), List.length_replicate, getD_zeros]
    unfold zeroByte
    by_cases h1 : i < len
    · rw [if_pos h1, if_neg (by omega), if_neg (by omega)]
      rfl
    · rw [if_neg h1]
      by_cases h2 : i = len
      · rw [if_pos h2, if_pos h2]
        rfl
      · rw [if_neg h2, if_neg h2]
        by_cases h3 : 64 * ((len + 72) / 64) ≤ i + 8
        · rw [if_neg (by omega), if_pos h3, BitVec.toNat_ofNat]
        · rw [if_pos (by omega), if_neg h3]
          rfl
  unfold Sha2.hashBlocks
  rw [Sha2.length_pad, Nat.mul_div_cancel_left _ (by decide), List.length_replicate]
  have heval := zeros_eval hbytes
  exact heval

theorem codeState_zeros {len : Nat} (h : len < 184) :
    (codeState (List.replicate len 0)).toNat = zeroHash len 0 ((len + 72) / 64) 0 Sha2.Eval.initialHash := by
  unfold codeState
  rw [List.length_replicate]
  refine zeros_eval fun i hi => ?_
  unfold paddedByte zeroByte
  rw [List.length_replicate, getD_zeros, Nat.zero_div, Nat.zero_mod, ite_self]
  by_cases h1 : i < len
  · rw [if_pos h1, if_neg (by omega)]
    rfl
  · rw [if_neg h1, if_pos (show i < 248 by omega)]
    split <;> rfl

theorem first_word {s s' : State} (h : s.words.flatMap Sha2.wordBytes = s'.words.flatMap Sha2.wordBytes) :
    s.a = s'.a := by
  have hlen : ∀ w, (Sha2.wordBytes w).length = 4 := fun w => by
    unfold Sha2.wordBytes
    rw [List.length_map, List.length_range]
  have hbytes : Sha2.wordBytes s.a = Sha2.wordBytes s'.a := by
    have h' : Sha2.wordBytes s.a ++ (s.words.tail).flatMap Sha2.wordBytes =
        Sha2.wordBytes s'.a ++ (s'.words.tail).flatMap Sha2.wordBytes := h
    exact (List.append_inj h' ((hlen _).trans (hlen _).symm)).1
  have hbyte : ∀ i < 4, (s.a >>> (24 - 8 * i)).setWidth 8 = (s'.a >>> (24 - 8 * i)).setWidth 8 := fun i hi =>
    List.map_inj_left.mp hbytes i (List.mem_range.mpr hi)
  apply BitVec.eq_of_getLsbD_eq
  intro j hj
  have hbit := congrArg (fun b => b.getLsbD (j % 8)) (hbyte (3 - j / 8) (by omega))
  simp only [BitVec.getLsbD_setWidth, BitVec.getLsbD_ushiftRight, show j % 8 < 8 by omega,
    show 24 - 8 * (3 - j / 8) + j % 8 = j by omega, decide_true, Bool.true_and] at hbit
  exact hbit

/-- A message shorter than 184 bytes, and not empty, whose digest is wrong. -/
theorem zeros_wrong (padded : Nat → Byte) (w : Nat → Word) {len : Nat} (hpos : 0 < len) (h : len < 184) :
    poseSha256 padded w (List.replicate len 0) ≠ Sha2.sha256 (List.replicate len 0) := by
  intro heq
  rw [poseSha256_eq padded w (by rw [List.length_replicate]; omega)] at heq
  have ha := congrArg BitVec.toNat (first_word heq)
  have hcode : (codeState (List.replicate len 0)).a.toNat = _ := congrArg Sha2.Eval.State.a (codeState_zeros h)
  have hstd : (Sha2.hashBlocks (Sha2.pad (List.replicate len 0))).a.toNat = _ :=
    congrArg Sha2.Eval.State.a (hashBlocks_zeros len)
  rw [hcode, hstd, zeroHash_prefix (by omega) h, zeroHash_prefix (by omega) h] at ha
  exact countMatters hpos h ha

/-- **The lengths at which `pose_sha256` is SHA-256**: whatever is in its local arrays, it returns the digest of the
standard for all messages of a length exactly when the length is `0` or from `184` to `247`. -/
theorem poseSha256_iff (len : Nat) (hlen : len ≤ 247) :
    (∀ (padded : Nat → Byte) (w : Nat → Word) (msg : List Byte), msg.length = len →
      poseSha256 padded w msg = Sha2.sha256 msg) ↔ len = 0 ∨ 184 ≤ len := by
  constructor
  · intro h
    by_contra hnot
    exact zeros_wrong (fun _ => 0) (fun _ => 0) (by omega) (by omega)
      (h (fun _ => 0) (fun _ => 0) (List.replicate len 0) List.length_replicate)
  · rintro h padded w msg rfl
    exact poseSha256_eq_sha256 padded w hlen h

/-- The node message has 192 bytes. -/
theorem poseSha256_iff_node :
    poseSha256 (fun _ => 0xff) (fun _ => 7) (List.replicate 192 0x61) = Sha2.sha256 (List.replicate 192 0x61) :=
  (poseSha256_iff 192 (by decide)).mpr (.inr (by decide)) _ _ _ List.length_replicate

/-- The digest of the one-byte message `00` is wrong. -/
theorem poseSha256_short_wrong : ¬∀ (padded : Nat → Byte) (w : Nat → Word) (msg : List Byte), msg.length ≤ 247 →
    poseSha256 padded w msg = Sha2.sha256 msg := fun h =>
  zeros_wrong (fun _ => 0) (fun _ => 0) (show 0 < 1 by decide) (by decide)
    (h (fun _ => 0) (fun _ => 0) (List.replicate 1 0) (by decide))

end Sha256

end PoseDB
