import PoseDB.Lib.Mem
import Mathlib.Data.Fin.VecNotation

/-!
# The portable BLAKE3 (`blake3_portable.c`, `blake3_impl.h`)

What `pose_label_node` uses of the vendored library: `blake3_hash_many` of whole blocks under a key. A compression
depends on the words of its block (`compressInPlace_eq`), and the rounds take them in the order of a table.
-/

set_option autoImplicit false

namespace PoseDB.Blake3
open Mem

abbrev Word := BitVec 32
abbrev Byte := BitVec 8

/-! ## The compression -/

def IV : Fin 8 → Word :=
  ![0x6A09E667, 0xBB67AE85, 0x3C6EF372, 0xA54FF53A, 0x510E527F, 0x9B05688C, 0x1F83D9AB, 0x5BE0CD19]

def msgSchedule : Fin 7 → Fin 16 → Fin 16 := ![
  ![0, 1, 2, 3, 4, 5, 6, 7, 8, 9, 10, 11, 12, 13, 14, 15],
  ![2, 6, 3, 10, 7, 0, 4, 13, 1, 11, 12, 5, 9, 14, 15, 8],
  ![3, 4, 10, 12, 13, 2, 7, 14, 6, 5, 9, 0, 11, 15, 8, 1],
  ![10, 7, 12, 9, 14, 3, 13, 15, 4, 0, 11, 2, 5, 8, 1, 6],
  ![12, 13, 9, 11, 15, 10, 14, 8, 7, 2, 5, 3, 0, 1, 6, 4],
  ![9, 14, 11, 5, 8, 12, 15, 1, 13, 3, 0, 10, 2, 6, 4, 7],
  ![11, 15, 5, 0, 1, 9, 8, 6, 14, 10, 2, 12, 3, 4, 7, 13]]

/-- The flags `CHUNK_START`, `CHUNK_END`, `ROOT` and `KEYED_HASH`. -/
def chunkStart : Byte := 1 <<< 0
def chunkEnd : Byte := 1 <<< 1
def root : Byte := 1 <<< 3
def keyedHash : Byte := 1 <<< 4

def rotr32 (w : Word) (c : Nat) : Word := w >>> c ||| w <<< (32 - c)

def g (state : Fin 16 → Word) (a b c d : Fin 16) (x y : Word) : Fin 16 → Word :=
  let state := Function.update state a (state a + state b + x)
  let state := Function.update state d (rotr32 (state d ^^^ state a) 16)
  let state := Function.update state c (state c + state d)
  let state := Function.update state b (rotr32 (state b ^^^ state c) 12)
  let state := Function.update state a (state a + state b + y)
  let state := Function.update state d (rotr32 (state d ^^^ state a) 8)
  let state := Function.update state c (state c + state d)
  Function.update state b (rotr32 (state b ^^^ state c) 7)

def roundFn (state msg : Fin 16 → Word) (round : Fin 7) : Fin 16 → Word :=
  let schedule := msgSchedule round
  let state := g state 0 4 8 12 (msg (schedule 0)) (msg (schedule 1))
  let state := g state 1 5 9 13 (msg (schedule 2)) (msg (schedule 3))
  let state := g state 2 6 10 14 (msg (schedule 4)) (msg (schedule 5))
  let state := g state 3 7 11 15 (msg (schedule 6)) (msg (schedule 7))
  let state := g state 0 5 10 15 (msg (schedule 8)) (msg (schedule 9))
  let state := g state 1 6 11 12 (msg (schedule 10)) (msg (schedule 11))
  let state := g state 2 7 8 13 (msg (schedule 12)) (msg (schedule 13))
  g state 3 4 9 14 (msg (schedule 14)) (msg (schedule 15))

def counterLow (counter : BitVec 64) : Word := counter.setWidth 32
def counterHigh (counter : BitVec 64) : Word := (counter >>> 32).setWidth 32

def load32 (src : Nat → Byte) (p : Nat) : Word :=
  (src p).setWidth 32 <<< 0 ||| (src (p + 1)).setWidth 32 <<< 8 ||| (src (p + 2)).setWidth 32 <<< 16 |||
    (src (p + 3)).setWidth 32 <<< 24

def store32 (dst : Nat → Byte) (p : Nat) (w : Word) : Nat → Byte :=
  let dst := Function.update dst (p + 0) ((w >>> 0).setWidth 8)
  let dst := Function.update dst (p + 1) ((w >>> 8).setWidth 8)
  let dst := Function.update dst (p + 2) ((w >>> 16).setWidth 8)
  Function.update dst (p + 3) ((w >>> 24).setWidth 8)

def storeCvWords (bytesOut : Nat → Byte) (p : Nat) (cvWords : Fin 8 → Word) : Nat → Byte :=
  let out := store32 (store32 bytesOut (p + 0 * 4) (cvWords 0)) (p + 1 * 4) (cvWords 1)
  let out := store32 (store32 out (p + 2 * 4) (cvWords 2)) (p + 3 * 4) (cvWords 3)
  let out := store32 (store32 out (p + 4 * 4) (cvWords 4)) (p + 5 * 4) (cvWords 5)
  store32 (store32 out (p + 6 * 4) (cvWords 6)) (p + 7 * 4) (cvWords 7)

def compressPre (cv : Fin 8 → Word) (block : Nat → Byte) (blockLen : Byte) (counter : BitVec 64) (flags : Byte) :
    Fin 16 → Word :=
  let blockWords : Fin 16 → Word := fun i => load32 block (4 * i)
  let state := ![cv 0, cv 1, cv 2, cv 3, cv 4, cv 5, cv 6, cv 7, IV 0, IV 1, IV 2, IV 3,
    counterLow counter, counterHigh counter, blockLen.setWidth 32, flags.setWidth 32]
  let state := roundFn state blockWords 0
  let state := roundFn state blockWords 1
  let state := roundFn state blockWords 2
  let state := roundFn state blockWords 3
  let state := roundFn state blockWords 4
  let state := roundFn state blockWords 5
  roundFn state blockWords 6

/-- `blake3_compress_in_place_portable`. -/
def compressInPlace (cv : Fin 8 → Word) (block : Nat → Byte) (blockLen : Byte) (counter : BitVec 64) (flags : Byte) :
    Fin 8 → Word :=
  let state := compressPre cv block blockLen counter flags
  ![state 0 ^^^ state 8, state 1 ^^^ state 9, state 2 ^^^ state 10, state 3 ^^^ state 11, state 4 ^^^ state 12,
    state 5 ^^^ state 13, state 6 ^^^ state 14, state 7 ^^^ state 15]

/-! ## Many inputs -/

/-- The loop of `hash_one_portable`, over the blocks from `input` on. -/
def hashBlocks (counter : BitVec 64) (flags flagsEnd : Byte) :
    Nat → (input : Nat → Byte) → (blockFlags : Byte) → (cv : Fin 8 → Word) → Fin 8 → Word
  | 0, _, _, cv => cv
  | blocks + 1, input, blockFlags, cv =>
    let blockFlags := if blocks + 1 = 1 then blockFlags ||| flagsEnd else blockFlags
    hashBlocks counter flags flagsEnd blocks (fun i => input (64 + i)) flags
      (compressInPlace cv input 64 counter blockFlags)

/-- `hash_one_portable`, which writes at `out` in the array `outs`. -/
def hashOnePortable (input : Nat → Byte) (blocks : Nat) (key : Fin 8 → Word) (counter : BitVec 64)
    (flags flagsStart flagsEnd : Byte) (outs : Nat → Byte) (out : Nat) : Nat → Byte :=
  storeCvWords outs out (hashBlocks counter flags flagsEnd blocks input (flags ||| flagsStart) key)

/-- The type of `blake3_hash_many`: inputs, blocks, key, counter, whether it is incremented, flags, and where to write. -/
abbrev HashMany := List (Nat → Byte) → Nat → (Fin 8 → Word) → BitVec 64 → Bool → Byte → Byte → Byte →
  (Nat → Byte) → Nat → Nat → Byte

def hashManyPortable : HashMany
  | [], _, _, _, _, _, _, _, outs, _ => outs
  | input :: inputs, blocks, key, counter, incrementCounter, flags, flagsStart, flagsEnd, outs, out =>
    hashManyPortable inputs blocks key (if incrementCounter then counter + 1 else counter) incrementCounter flags
      flagsStart flagsEnd (hashOnePortable input blocks key counter flags flagsStart flagsEnd outs out) (out + 32)

/-! ## Words and bytes -/

/-- Byte `j` of a word, the least significant first. -/
def wordByte (w : Word) (j : Nat) : Byte := (w >>> (8 * j)).setWidth 8

theorem store32_eq (dst : Nat → Byte) (p : Nat) (w : Word) : store32 dst p w = store dst p 4 (wordByte w) :=
  loop_update_eq_store dst p 4 (wordByte w)

/-- Byte `j` of eight words. -/
def cvByte (cv : Fin 8 → Word) (j : Nat) : Byte := wordByte (cv (Fin.ofNat 8 (j / 4))) (j % 4)

theorem storeCvWords_eq (outs : Nat → Byte) (out : Nat) (cv : Fin 8 → Word) :
    storeCvWords outs out cv = store outs out 32 (cvByte cv) := by
  have h := loop_store_eq_store outs out 8 (show 0 < 4 by decide) fun i => wordByte (cv (Fin.ofNat 8 i))
  unfold storeCvWords
  simp only [store32_eq]
  exact h

/-- **Each lane of the portable hash is the hash of its input alone.** -/
theorem hashManyPortable_eq (inputs : List (Nat → Byte)) (blocks : Nat) (key : Fin 8 → Word) (counter : BitVec 64)
    (flags flagsStart flagsEnd : Byte) (outs : Nat → Byte) (out : Nat) :
    hashManyPortable inputs blocks key counter false flags flagsStart flagsEnd outs out =
      store outs out (inputs.length * 32) fun a => cvByte (hashBlocks counter flags flagsEnd blocks
        (inputs.getD (a / 32) fun _ => 0) (flags ||| flagsStart) key) (a % 32) := by
  induction inputs generalizing outs out with
  | nil => rw [List.length_nil, Nat.zero_mul, store_zero, hashManyPortable]
  | cons input inputs ih =>
    rw [hashManyPortable, if_neg Bool.false_ne_true, ih, hashOnePortable, storeCvWords_eq, List.length_cons,
      show (inputs.length + 1) * 32 = 32 + inputs.length * 32 by omega, ← store_store]
    have hfirst : ∀ j < 32, cvByte (hashBlocks counter flags flagsEnd blocks input (flags ||| flagsStart) key) j =
        cvByte (hashBlocks counter flags flagsEnd blocks ((input :: inputs).getD (j / 32) fun _ => 0)
          (flags ||| flagsStart) key) (j % 32) := fun j hj => by
      rw [Nat.div_eq_of_lt hj, Nat.mod_eq_of_lt hj, List.getD_cons_zero]
    rw [store_congr outs out 32 hfirst]
    apply store_congr
    intro j _
    rw [Nat.add_mod_left, Nat.add_div_left _ (by decide), List.getD_cons_succ]

theorem hashBlocks_congr (counter : BitVec 64) (flags flagsEnd : Byte) {blocks : Nat} {input input' : Nat → Byte}
    (h : ∀ x < blocks * 64, input x = input' x) (blockFlags : Byte) (cv : Fin 8 → Word) :
    hashBlocks counter flags flagsEnd blocks input blockFlags cv =
      hashBlocks counter flags flagsEnd blocks input' blockFlags cv := by
  induction blocks generalizing input input' blockFlags cv with
  | zero => rfl
  | succ blocks ih =>
    have hwords : (fun i : Fin 16 => load32 input (4 * i)) = fun i : Fin 16 => load32 input' (4 * i) := by
      funext i
      unfold load32
      rw [h _ (by omega), h _ (by omega), h _ (by omega), h _ (by omega)]
    have hcompress : ∀ f, compressInPlace cv input 64 counter f = compressInPlace cv input' 64 counter f := fun f => by
      unfold compressInPlace compressPre
      rw [hwords]
    rw [hashBlocks, hashBlocks, hcompress]
    exact ih (fun x hx => h (64 + x) (by omega)) ..

/-- What is assumed of a `blake3_hash_many` with vector instructions: every lane is hashed on its own. -/
def LaneIndependent (hashMany : HashMany) : Prop :=
  ∀ (inputs : List (Nat → Byte)) (input : Nat → Byte) (blocks : Nat) (key : Fin 8 → Word) (counter : BitVec 64)
    (flags flagsStart flagsEnd : Byte) (outs outs' : Nat → Byte) (out out' i j : Nat), i < inputs.length → j < 32 →
    (∀ x < blocks * 64, inputs.getD i (fun _ => 0) x = input x) →
    hashMany inputs blocks key counter false flags flagsStart flagsEnd outs out (out + i * 32 + j) =
      hashMany [input] blocks key counter false flags flagsStart flagsEnd outs' out' (out' + j)

theorem hashManyPortable_laneIndependent : LaneIndependent hashManyPortable := by
  intro inputs input blocks key counter flags flagsStart flagsEnd outs outs' out out' i j hi hj hinput
  rw [hashManyPortable_eq, hashManyPortable_eq, Nat.add_assoc, store_in _ _ _ _ (by omega),
    store_in _ _ _ _ (by rw [List.length_singleton]; omega), show (i * 32 + j) / 32 = i by omega,
    show (i * 32 + j) % 32 = j by omega, Nat.div_eq_of_lt hj, Nat.mod_eq_of_lt hj, List.getD_cons_zero,
    hashBlocks_congr _ _ _ hinput]

end PoseDB.Blake3
