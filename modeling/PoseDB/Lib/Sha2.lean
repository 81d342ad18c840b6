import PoseDB.Lib.Loop
import Mathlib.Data.List.GetD
import Mathlib.Data.Nat.NthRoot.Defs
import Mathlib.Data.Nat.Prime.Basic

/-!
# SHA-256

The hash function as FIPS 180-4 states it, over messages of whole bytes: the padding, the message schedule, the rounds
and the constants, which are the fractional parts of roots of primes. A round of the schedule only needs a window of
sixteen words, and its words can be numbers: `compress_eval`.
-/

set_option autoImplicit false

namespace Sha2
open Loops

abbrev Word := BitVec 32
abbrev Byte := BitVec 8

/-! ## Functions and constants -/

def ch (x y z : Word) : Word := (x &&& y) ^^^ (~~~x &&& z)
def maj (x y z : Word) : Word := (x &&& y) ^^^ (x &&& z) ^^^ (y &&& z)
def bigSigma0 (x : Word) : Word := x.rotateRight 2 ^^^ x.rotateRight 13 ^^^ x.rotateRight 22
def bigSigma1 (x : Word) : Word := x.rotateRight 6 ^^^ x.rotateRight 11 ^^^ x.rotateRight 25
def smallSigma0 (x : Word) : Word := x.rotateRight 7 ^^^ x.rotateRight 18 ^^^ x >>> 3
def smallSigma1 (x : Word) : Word := x.rotateRight 17 ^^^ x.rotateRight 19 ^^^ x >>> 10

def primes : List Nat := (List.range 312).filter fun p => p.Prime

/-- The first 32 bits of the fractional part of the cube root of prime `t`. -/
def roundConstant (t : Nat) : Word := BitVec.ofNat 32 (Nat.nthRoot 3 (primes.getD t 0 * 2 ^ 96))

/-- The first 32 bits of the fractional part of the square root of prime `t`. -/
def initialWord (t : Nat) : Word := BitVec.ofNat 32 (Nat.nthRoot 2 (primes.getD t 0 * 2 ^ 64))

/-- The eight working variables, or the eight words of a hash value. -/
structure State where
  a : Word
  b : Word
  c : Word
  d : Word
  e : Word
  f : Word
  g : Word
  h : Word
deriving DecidableEq

def State.words (s : State) : List Word := [s.a, s.b, s.c, s.d, s.e, s.f, s.g, s.h]

def State.add (s t : State) : State :=
  ⟨s.a + t.a, s.b + t.b, s.c + t.c, s.d + t.d, s.e + t.e, s.f + t.f, s.g + t.g, s.h + t.h⟩

def initialHash : State :=
  ⟨initialWord 0, initialWord 1, initialWord 2, initialWord 3, initialWord 4, initialWord 5, initialWord 6,
    initialWord 7⟩

/-! ## The compression of a block -/

def schedule (M : Nat → Word) (t : Nat) : Word :=
  if t < 16 then M t
  else smallSigma1 (schedule M (t - 2)) + schedule M (t - 7) + smallSigma0 (schedule M (t - 15)) + schedule M (t - 16)
termination_by t
decreasing_by all_goals omega

def round (k w : Word) (s : State) : State :=
  let t1 := s.h + bigSigma1 s.e + ch s.e s.f s.g + k + w
  let t2 := bigSigma0 s.a + maj s.a s.b s.c
  ⟨t1 + t2, s.a, s.b, s.c, s.d + t1, s.e, s.f, s.g⟩

/-- The hash value after the block of the words `M`. -/
def compress (H : State) (M : Nat → Word) : State :=
  H.add (loop 64 (fun t => round (roundConstant t) (schedule M t)) H)

/-! ## Messages -/

/-- The number of zero bytes that pads `n` bytes and the byte `80` to 56 modulo 64. -/
def zeroBytes (n : Nat) : Nat := (119 - n % 64) % 64

/-- The length in bits as a 64-bit number, the most significant byte first. -/
def lengthBytes (bits : Nat) : List Byte := (List.range 8).map fun i => BitVec.ofNat 8 (bits / 256 ^ (7 - i))

def pad (msg : List Byte) : List Byte :=
  msg ++ 0x80 :: (List.replicate (zeroBytes msg.length) 0 ++ lengthBytes (8 * msg.length))

/-- Word `t` of a string of bytes. -/
def word (bytes : Nat → Byte) (t : Nat) : Word :=
  (bytes (4 * t) ++ bytes (4 * t + 1) ++ bytes (4 * t + 2) ++ bytes (4 * t + 3) : BitVec (8 + 8 + 8 + 8))

/-- Block `b` of a padded message. -/
def block (padded : List Byte) (b : Nat) (t : Nat) : Word := word (fun i => padded.getD (64 * b + i) 0) t

def wordBytes (w : Word) : List Byte := (List.range 4).map fun i => (w >>> (24 - 8 * i)).setWidth 8

def hashBlocks (padded : List Byte) : State :=
  loop (padded.length / 64) (fun b H => compress H (block padded b)) initialHash

/-- **SHA-256.** -/
def sha256 (msg : List Byte) : List Byte := (hashBlocks (pad msg)).words.flatMap wordBytes

/-! ## Padding -/

theorem length_pad (msg : List Byte) : (pad msg).length = 64 * ((msg.length + 72) / 64) := by
  unfold pad lengthBytes zeroBytes
  simp only [List.length_append, List.length_cons, List.length_replicate, List.length_map, List.length_range]
  omega

theorem getD_pad (msg : List Byte) {i : Nat} (hi : i < 64 * ((msg.length + 72) / 64)) :
    (pad msg).getD i 0 =
      if i < msg.length then msg.getD i 0
      else if i = msg.length then 0x80
      else if i + 8 < 64 * ((msg.length + 72) / 64) then 0
      else BitVec.ofNat 8 (8 * msg.length / 256 ^ (64 * ((msg.length + 72) / 64) - 1 - i)) := by
  have hzero : msg.length + 1 + zeroBytes msg.length + 8 = 64 * ((msg.length + 72) / 64) := by
    unfold zeroBytes
    omega
  obtain ⟨n, hn⟩ : ∃ n, n = 64 * ((msg.length + 72) / 64) := ⟨_, rfl⟩
  rw [← hn] at hi hzero ⊢
  unfold pad
  split
  · rw [List.getD_append _ _ _ _ ‹_›]
  · rw [List.getD_append_right _ _ _ _ (by omega)]
    split
    · rw [show i - msg.length = 0 by omega, List.getD_cons_zero]
    · obtain ⟨j, hj⟩ : ∃ j, i = msg.length + 1 + j := ⟨i - msg.length - 1, by omega⟩
      rw [show i - msg.length = j + 1 by omega, List.getD_cons_succ]
      split
      · rw [List.getD_append _ _ _ _ (by rw [List.length_replicate]; omega), List.getD_replicate _ (by omega)]
      · rw [List.getD_append_right _ _ _ _ (by rw [List.length_replicate]; omega), List.length_replicate]
        unfold lengthBytes
        rw [List.getD_eq_getElem?_getD, List.getElem?_map, List.getElem?_range (by omega), Option.map_some,
          Option.getD_some]
        congr 3
        omega

theorem schedule_of_lt (M : Nat → Word) {t : Nat} (h : t < 16) : schedule M t = M t := by
  rw [schedule, if_pos h]

theorem schedule_add (M : Nat → Word) (t : Nat) :
    schedule M (t + 16) = smallSigma1 (schedule M (t + 14)) + schedule M (t + 9) + smallSigma0 (schedule M (t + 1)) +
      schedule M t := by
  rw [schedule, if_neg (by omega)]
  rfl

theorem word_congr {f g : Nat → Byte} {t : Nat} (h : ∀ j < 4, f (4 * t + j) = g (4 * t + j)) : word f t = word g t := by
  have h0 := h 0 (by decide)
  rw [Nat.add_zero] at h0
  unfold word
  rw [h0, h 1 (by decide), h 2 (by decide), h 3 (by decide)]

theorem compress_congr {H : State} {M M' : Nat → Word} (h : ∀ t < 16, M t = M' t) : compress H M = compress H M' := by
  have hsched : ∀ t, schedule M t = schedule M' t := by
    intro t
    induction t using Nat.strong_induction_on with
    | _ t ih =>
      rcases Nat.lt_or_ge t 16 with ht | ht
      · rw [schedule_of_lt M ht, schedule_of_lt M' ht, h t ht]
      · obtain ⟨t, rfl⟩ := Nat.exists_eq_add_of_le' ht
        rw [schedule_add, schedule_add, ih (t + 14) (by omega), ih (t + 9) (by omega), ih (t + 1) (by omega),
          ih t (by omega)]
  unfold compress
  simp only [hsched]

/-! ## The constants -/

/-- Primality below `k * k` by trial division. -/
theorem prime_iff {p k : Nat} (hp : p < k * k) :
    p.Prime ↔ 2 ≤ p ∧ ∀ d < k, 2 ≤ d → d < p → ¬d ∣ p := by
  constructor
  · intro h
    refine ⟨h.two_le, fun d _ hd hdp hdvd => ?_⟩
    rcases (Nat.dvd_prime h).mp hdvd with rfl | rfl
    · exact absurd hd (by decide)
    · exact absurd hdp (lt_irrefl d)
  · rintro ⟨h2, h⟩
    by_contra hnot
    have hsq := Nat.minFac_sq_le_self (by omega) hnot
    have hfac := (Nat.minFac_prime (show p ≠ 1 by omega)).two_le
    have hlt : p.minFac < k := by
      by_contra hge
      have := Nat.mul_le_mul (Nat.not_lt.mp hge) (Nat.not_lt.mp hge)
      rw [pow_two] at hsq
      omega
    refine h p.minFac hlt hfac ?_ (Nat.minFac_dvd p)
    have := Nat.mul_le_mul_right p.minFac hfac
    rw [pow_two] at hsq
    omega

theorem primes_eq : primes = (List.range 312).filter fun p => 2 ≤ p ∧ ∀ d < 18, 2 ≤ d → d < p → ¬d ∣ p := by
  unfold primes
  refine List.filter_congr fun p hp => ?_
  have hlt := List.mem_range.mp hp
  exact decide_eq_decide.mpr (prime_iff (k := 18) (by omega))

def roundConstants : List Nat := [
  0x428a2f98, 0x71374491, 0xb5c0fbcf, 0xe9b5dba5, 0x3956c25b, 0x59f111f1, 0x923f82a4, 0xab1c5ed5,
  0xd807aa98, 0x12835b01, 0x243185be, 0x550c7dc3, 0x72be5d74, 0x80deb1fe, 0x9bdc06a7, 0xc19bf174,
  0xe49b69c1, 0xefbe4786, 0x0fc19dc6, 0x240ca1cc, 0x2de92c6f, 0x4a7484aa, 0x5cb0a9dc, 0x76f988da,
  0x983e5152, 0xa831c66d, 0xb00327c8, 0xbf597fc7, 0xc6e00bf3, 0xd5a79147, 0x06ca6351, 0x14292967,
  0x27b70a85, 0x2e1b2138, 0x4d2c6dfc, 0x53380d13, 0x650a7354, 0x766a0abb, 0x81c2c92e, 0x92722c85,
  0xa2bfe8a1, 0xa81a664b, 0xc24b8b70, 0xc76c51a3, 0xd192e819, 0xd6990624, 0xf40e3585, 0x106aa070,
  0x19a4c116, 0x1e376c08, 0x2748774c, 0x34b0bcb5, 0x391c0cb3, 0x4ed8aa4a, 0x5b9cca4f, 0x682e6ff3,
  0x748f82ee, 0x78a5636f, 0x84c87814, 0x8cc70208, 0x90befffa, 0xa4506ceb, 0xbef9a3f7, 0xc67178f2]

set_option maxRecDepth 10000 in
theorem map_roundConstant : (List.range 64).map roundConstant = roundConstants.map (BitVec.ofNat 32) := by
  unfold roundConstant
  rw [primes_eq]
  decide +kernel

set_option maxRecDepth 10000 in
theorem initialHash_eq : initialHash = ⟨0x6a09e667, 0xbb67ae85, 0x3c6ef372, 0xa54ff53a, 0x510e527f, 0x9b05688c,
    0x1f83d9ab, 0x5be0cd19⟩ := by
  unfold initialHash initialWord
  rw [primes_eq]
  decide +kernel

/-- Round constant `t` of the table. -/
theorem roundConstant_eq {t : Nat} (ht : t < 64) : roundConstant t = BitVec.ofNat 32 (roundConstants.getD t 0) := by
  have h := congrArg (fun l => l.getD t 0) map_roundConstant
  simp only [List.getD_eq_getElem?_getD, List.getElem?_map, List.getElem?_range ht, Option.map_some,
    Option.getD_some] at h
  rw [h, List.getD_eq_getElem?_getD, List.getElem?_eq_getElem (by exact ht)]
  rfl

/-! ## Evaluation

The rounds over a window of sixteen words, in numbers: a form in which a hash value can be computed. -/

namespace Eval

def mask (x : Nat) : Nat := x % 4294967296
def rotr (x n : Nat) : Nat := x >>> n ||| mask (x <<< (32 - n))
def ch (x y z : Nat) : Nat := (x &&& y) ^^^ ((4294967295 - x) &&& z)
def maj (x y z : Nat) : Nat := (x &&& y) ^^^ (x &&& z) ^^^ (y &&& z)
def bigSigma0 (x : Nat) : Nat := rotr x 2 ^^^ rotr x 13 ^^^ rotr x 22
def bigSigma1 (x : Nat) : Nat := rotr x 6 ^^^ rotr x 11 ^^^ rotr x 25
def smallSigma0 (x : Nat) : Nat := rotr x 7 ^^^ rotr x 18 ^^^ x >>> 3
def smallSigma1 (x : Nat) : Nat := rotr x 17 ^^^ rotr x 19 ^^^ x >>> 10

/-- Eight words as numbers. -/
structure State where
  a : Nat
  b : Nat
  c : Nat
  d : Nat
  e : Nat
  f : Nat
  g : Nat
  h : Nat
deriving DecidableEq

/-- The rounds with the constants `ks`; the window holds the words of the next sixteen. -/
def rounds : List Nat → (w0 w1 w2 w3 w4 w5 w6 w7 w8 w9 w10 w11 w12 w13 w14 w15 a b c d e f g h : Nat) → State
  | [], _, _, _, _, _, _, _, _, _, _, _, _, _, _, _, _, a, b, c, d, e, f, g, h => ⟨a, b, c, d, e, f, g, h⟩
  | k :: ks, w0, w1, w2, w3, w4, w5, w6, w7, w8, w9, w10, w11, w12, w13, w14, w15, a, b, c, d, e, f, g, h =>
    let t1 := mask (mask (mask (mask (h + bigSigma1 e) + ch e f g) + k) + w0)
    let t2 := mask (bigSigma0 a + maj a b c)
    rounds ks w1 w2 w3 w4 w5 w6 w7 w8 w9 w10 w11 w12 w13 w14 w15
      (mask (mask (mask (smallSigma1 w14 + w9) + smallSigma0 w1) + w0))
      (mask (t1 + t2)) a b c (mask (d + t1)) e f g

def compress (s : State) (m : Nat → Nat) : State :=
  let r := rounds roundConstants (m 0) (m 1) (m 2) (m 3) (m 4) (m 5) (m 6) (m 7) (m 8) (m 9) (m 10) (m 11) (m 12)
    (m 13) (m 14) (m 15) s.a s.b s.c s.d s.e s.f s.g s.h
  ⟨mask (s.a + r.a), mask (s.b + r.b), mask (s.c + r.c), mask (s.d + r.d), mask (s.e + r.e), mask (s.f + r.f),
    mask (s.g + r.g), mask (s.h + r.h)⟩

end Eval

def State.toNat (s : State) : Eval.State :=
  ⟨s.a.toNat, s.b.toNat, s.c.toNat, s.d.toNat, s.e.toNat, s.f.toNat, s.g.toNat, s.h.toNat⟩

section Numbers
variable (x y z : Word)

theorem toNat_add : (x + y).toNat = Eval.mask (x.toNat + y.toNat) := BitVec.toNat_add x y

theorem toNat_rotr (n : Nat) (hn : n < 32) : (x.rotateRight n).toNat = Eval.rotr x.toNat n := by
  rw [BitVec.toNat_rotateRight, Nat.mod_eq_of_lt hn]
  rfl

theorem toNat_ch : (ch x y z).toNat = Eval.ch x.toNat y.toNat z.toNat := by
  unfold ch Eval.ch
  rw [BitVec.toNat_xor, BitVec.toNat_and, BitVec.toNat_and, BitVec.toNat_not]

theorem toNat_maj : (maj x y z).toNat = Eval.maj x.toNat y.toNat z.toNat := rfl

theorem toNat_bigSigma0 : (bigSigma0 x).toNat = Eval.bigSigma0 x.toNat := by
  unfold bigSigma0 Eval.bigSigma0
  rw [BitVec.toNat_xor, BitVec.toNat_xor, toNat_rotr x 2 (by decide), toNat_rotr x 13 (by decide),
    toNat_rotr x 22 (by decide)]

theorem toNat_bigSigma1 : (bigSigma1 x).toNat = Eval.bigSigma1 x.toNat := by
  unfold bigSigma1 Eval.bigSigma1
  rw [BitVec.toNat_xor, BitVec.toNat_xor, toNat_rotr x 6 (by decide), toNat_rotr x 11 (by decide),
    toNat_rotr x 25 (by decide)]

theorem toNat_smallSigma0 : (smallSigma0 x).toNat = Eval.smallSigma0 x.toNat := by
  unfold smallSigma0 Eval.smallSigma0
  rw [BitVec.toNat_xor, BitVec.toNat_xor, toNat_rotr x 7 (by decide), toNat_rotr x 18 (by decide),
    BitVec.toNat_ushiftRight]

theorem toNat_smallSigma1 : (smallSigma1 x).toNat = Eval.smallSigma1 x.toNat := by
  unfold smallSigma1 Eval.smallSigma1
  rw [BitVec.toNat_xor, BitVec.toNat_xor, toNat_rotr x 17 (by decide), toNat_rotr x 19 (by decide),
    BitVec.toNat_ushiftRight]

end Numbers

theorem roundConstants_lt : ∀ k ∈ roundConstants, k < 2 ^ 32 := by decide

theorem toNat_roundConstant {t : Nat} (ht : t < 64) : (roundConstant t).toNat = roundConstants.getD t 0 := by
  have hget : roundConstants.getD t 0 = roundConstants.get ⟨t, ht⟩ := by
    rw [List.getD_eq_getElem?_getD, List.getElem?_eq_getElem (by exact ht), Option.getD_some]
    rfl
  rw [roundConstant_eq ht, BitVec.toNat_ofNat, hget]
  exact Nat.mod_eq_of_lt (roundConstants_lt _ (List.getElem_mem _))

/-- The rounds from `t` on, with the schedule in the window. -/
theorem rounds_eval (M : Nat → Word) {n t : Nat} (hn : t + n = 64) (s : State) :
    (loop n (fun i => round (roundConstant (t + i)) (schedule M (t + i))) s).toNat =
      Eval.rounds (roundConstants.drop t) (schedule M t).toNat (schedule M (t + 1)).toNat (schedule M (t + 2)).toNat
        (schedule M (t + 3)).toNat (schedule M (t + 4)).toNat (schedule M (t + 5)).toNat (schedule M (t + 6)).toNat
        (schedule M (t + 7)).toNat (schedule M (t + 8)).toNat (schedule M (t + 9)).toNat (schedule M (t + 10)).toNat
        (schedule M (t + 11)).toNat (schedule M (t + 12)).toNat (schedule M (t + 13)).toNat
        (schedule M (t + 14)).toNat (schedule M (t + 15)).toNat s.a.toNat s.b.toNat s.c.toNat s.d.toNat s.e.toNat
        s.f.toNat s.g.toNat s.h.toNat := by
  induction n generalizing t s with
  | zero =>
    obtain rfl : t = 64 := hn
    rfl
  | succ n ih =>
    have ht : t < 64 := by omega
    have hdrop : roundConstants.drop t = roundConstants.getD t 0 :: roundConstants.drop (t + 1) := by
      rw [List.getD_eq_getElem?_getD, List.getElem?_eq_getElem (by exact ht), Option.getD_some]
      exact List.drop_eq_getElem_cons (by exact ht)
    have hnext := ih (t := t + 1) (by omega) (round (roundConstant t) (schedule M t) s)
    have hlast := schedule_add M t
    rw [Nat.add_comm n 1, loop_add, loop_succ, loop_zero, hdrop, Eval.rounds]
    simp only [← Nat.add_assoc, Nat.add_zero] at hnext ⊢
    rw [hnext, ← toNat_roundConstant ht, ← toNat_smallSigma1, ← toNat_smallSigma0, ← toNat_bigSigma0,
      ← toNat_bigSigma1, ← toNat_ch, ← toNat_maj]
    simp only [← toNat_add, ← hlast]
    rfl

/-- **A block compressed in numbers.** -/
theorem compress_eval (H : State) (M : Nat → Word) :
    (compress H M).toNat = Eval.compress H.toNat fun t => (M t).toNat := by
  have hrounds := rounds_eval M (n := 64) (t := 0) rfl H
  have hM : ∀ t < 16, (schedule M t).toNat = (M t).toNat := fun t ht => by rw [schedule_of_lt M ht]
  simp only [Nat.zero_add, List.drop_zero, hM 0 (by decide), hM 1 (by decide), hM 2 (by decide), hM 3 (by decide),
    hM 4 (by decide), hM 5 (by decide), hM 6 (by decide), hM 7 (by decide), hM 8 (by decide), hM 9 (by decide),
    hM 10 (by decide), hM 11 (by decide), hM 12 (by decide), hM 13 (by decide), hM 14 (by decide),
    hM 15 (by decide)] at hrounds
  unfold Eval.compress
  dsimp only [State.toNat] at hrounds ⊢
  rw [← hrounds]
  simp only [← toNat_add]
  rfl

def Eval.initialHash : Eval.State :=
  ⟨0x6a09e667, 0xbb67ae85, 0x3c6ef372, 0xa54ff53a, 0x510e527f, 0x9b05688c, 0x1f83d9ab, 0x5be0cd19⟩

theorem toNat_word (bytes : Nat → Byte) (t : Nat) :
    (word bytes t).toNat = (((bytes (4 * t)).toNat * 256 + (bytes (4 * t + 1)).toNat) * 256 +
      (bytes (4 * t + 2)).toNat) * 256 + (bytes (4 * t + 3)).toNat := by
  have hor : ∀ (x : Nat) (b : Byte), x <<< 8 ||| b.toNat = x * 256 + b.toNat := fun x b => by
    rw [← Nat.shiftLeft_add_eq_or_of_lt b.isLt, Nat.shiftLeft_eq]
  unfold word
  rw [BitVec.toNat_append, BitVec.toNat_append, BitVec.toNat_append, hor, hor, hor]

/-- **A hash value in numbers.** -/
theorem hashBlocks_eval (padded : List Byte) :
    (hashBlocks padded).toNat = loop (padded.length / 64)
      (fun b H => Eval.compress H fun t => (block padded b t).toNat) Eval.initialHash := by
  have hinit : initialHash.toNat = Eval.initialHash := by rw [initialHash_eq]; rfl
  unfold hashBlocks
  rw [← hinit]
  exact loop_map State.toNat fun b H _ => compress_eval H (block padded b)

/-- The test vector `abc` of the standard. -/
example : (hashBlocks (pad [0x61, 0x62, 0x63])).toNat = ⟨0xba7816bf, 0x8f01cfea, 0x414140de, 0x5dae2223, 0xb00361a3,
    0x96177a9c, 0xb410ff61, 0xf20015ad⟩ := by
  rw [hashBlocks_eval]
  decide +kernel

end Sha2
