import PoseDB.Hash.Blake3
import PoseDB.Lib.LeftTree

/-!
# The incremental hasher (`blake3.c`)

A message comes in pieces of any sizes. The hasher keeps the last chunk and a stack of chaining values, hashes the
largest subtree it can at once, and merges lazily, so that a root is never merged before it is known to be none.

A message is a list of bytes, an array of chaining values a list of them. Bytes of a chaining value are `cvByte` of
its words.
-/

set_option autoImplicit false

namespace PoseDB.Blake3
open Mem

abbrev Cv := Fin 8 → Word

/-! ## The code -/

/-- The flags `PARENT`, `DERIVE_KEY_CONTEXT` and `DERIVE_KEY_MATERIAL`. -/
def parent : Byte := 1 <<< 2
def deriveKeyContext : Byte := 1 <<< 5
def deriveKeyMaterial : Byte := 1 <<< 6

def chunkLen : Nat := 1024

/-- What is dispatched on the machine: `blake3_hash_many` and `blake3_simd_degree`. The vector code hashes as the
portable one. -/
structure Platform where
  hashMany : HashMany
  hashMany_eq : ∀ inputs blocks key counter incrementCounter flags flagsStart flagsEnd outs out,
    hashMany inputs blocks key counter incrementCounter flags flagsStart flagsEnd outs out =
      hashManyPortable inputs blocks key counter incrementCounter flags flagsStart flagsEnd outs out
  simdDegree : Nat
  degree_pow : ∃ k ≤ 4, simdDegree = 2 ^ k

/-- `blake3_compress_xof_portable`: a block of 64 bytes. -/
def compressXof (cv : Cv) (block : Nat → Byte) (blockLen : Byte) (counter : BitVec 64) (flags : Byte) : Nat → Byte :=
  let state := compressPre cv block blockLen counter flags
  let out := storeCvWords (fun _ => 0) 0 ![state 0 ^^^ state 8, state 1 ^^^ state 9, state 2 ^^^ state 10, state 3 ^^^ state 11,
    state 4 ^^^ state 12, state 5 ^^^ state 13, state 6 ^^^ state 14, state 7 ^^^ state 15]
  storeCvWords out 32 ![state 8 ^^^ cv 0, state 9 ^^^ cv 1, state 10 ^^^ cv 2, state 11 ^^^ cv 3, state 12 ^^^ cv 4,
    state 13 ^^^ cv 5, state 14 ^^^ cv 6, state 15 ^^^ cv 7]

/-- `output_t`. -/
structure Output where
  inputCv : Cv
  counter : BitVec 64
  block : Nat → Byte
  blockLen : Byte
  flags : Byte

def Output.chainingValue (o : Output) : Cv := compressInPlace o.inputCv o.block o.blockLen o.counter o.flags

/-- `blake3_compress_xof` of the output block with a number. -/
def Output.xof (o : Output) (counter : Nat) : Nat → Byte :=
  compressXof o.inputCv o.block o.blockLen (BitVec.ofNat 64 counter) (o.flags ||| root)

def Output.rootBytes (o : Output) (seek outLen : Nat) : List Byte :=
  if outLen = 0 then []
  else
    let counter := seek / 64
    let offset := seek % 64
    let bytes := if offset ≠ 0 then (if outLen > 64 - offset then 64 - offset else outLen) else 0
    let first := (List.range bytes).map fun i => o.xof counter (offset + i)
    let counter := if offset ≠ 0 then counter + 1 else counter
    let outLen := outLen - bytes
    let many := (List.range (outLen / 64)).flatMap fun k => (List.range 64).map (o.xof (counter + k))
    let last := (List.range (outLen % 64)).map (o.xof (counter + outLen / 64))
    first ++ many ++ last

structure ChunkState where
  cv : Cv
  chunkCounter : Nat
  buf : Nat → Byte
  bufLen : Nat
  blocksCompressed : Nat
  flags : Byte

def ChunkState.init (key : Cv) (flags : Byte) : ChunkState := ⟨key, 0, fun _ => 0, 0, 0, flags⟩

def ChunkState.reset (st : ChunkState) (key : Cv) (chunkCounter : Nat) : ChunkState :=
  ⟨key, chunkCounter, fun _ => 0, 0, 0, st.flags⟩

def ChunkState.len (st : ChunkState) : Nat := 64 * st.blocksCompressed + st.bufLen

/-- `chunk_state_fill_buf`: how many bytes it takes, too. -/
def ChunkState.fillBuf (st : ChunkState) (input : List Byte) : Nat × ChunkState :=
  let take := if 64 - st.bufLen > input.length then input.length else 64 - st.bufLen
  (take, { st with buf := store st.buf st.bufLen take fun i => input.getD i 0, bufLen := st.bufLen + take })

def ChunkState.maybeStartFlag (st : ChunkState) : Byte := if st.blocksCompressed = 0 then chunkStart else 0

/-- `blake3_compress_in_place` of a block that is not the last one of the chunk. -/
def ChunkState.compress (st : ChunkState) (block : Nat → Byte) : ChunkState :=
  { st with
    cv := compressInPlace st.cv block 64 (BitVec.ofNat 64 st.chunkCounter) (st.flags ||| st.maybeStartFlag)
    blocksCompressed := st.blocksCompressed + 1 }

/-- The loop of `chunk_state_update`; what is left of the input, too. -/
def ChunkState.blocks (st : ChunkState) (input : List Byte) : List Byte × ChunkState :=
  if _h : input.length > 64 then (st.compress fun j => input.getD j 0).blocks (input.drop 64) else (input, st)
termination_by input.length
decreasing_by
  rw [List.length_drop]
  omega

def ChunkState.update (st : ChunkState) (input : List Byte) : ChunkState :=
  let (input, st) :=
    if st.bufLen > 0 then
      let (take, st) := st.fillBuf input
      let input := input.drop take
      if input.length > 0 then (input, { st.compress st.buf with bufLen := 0, buf := fun _ => 0 }) else (input, st)
    else (input, st)
  let (input, st) := st.blocks input
  (st.fillBuf input).2

def ChunkState.output (st : ChunkState) : Output :=
  ⟨st.cv, BitVec.ofNat 64 st.chunkCounter, st.buf, BitVec.ofNat 8 st.bufLen, st.flags ||| st.maybeStartFlag ||| chunkEnd⟩

def cvBlock (a b : Cv) (j : Nat) : Byte := if j < 32 then cvByte a j else cvByte b (j - 32)

def parentOutput (key : Cv) (flags : Byte) (a b : Cv) : Output := ⟨key, 0, cvBlock a b, 64, flags ||| parent⟩

def roundDownToPowerOf2 (x : Nat) : Nat := 1 <<< (x ||| 1).log2

def leftSubtreeLen (inputLen : Nat) : Nat := roundDownToPowerOf2 ((inputLen - 1) / chunkLen) * chunkLen

theorem roundDownToPowerOf2_eq {x : Nat} (hx : 0 < x) : roundDownToPowerOf2 x = 2 ^ x.log2 := by
  have hlog : (x ||| 1).log2 = x.log2 := by
    have hlt := Nat.lt_log2_self (n := x)
    have hle : x ≤ x ||| 1 := Nat.left_le_or
    refine (Nat.log2_eq_iff (by omega)).mpr ⟨?_, ?_⟩
    · exact (Nat.log2_self_le (by omega)).trans hle
    · exact Nat.or_lt_two_pow hlt (Nat.one_lt_two_pow (Nat.succ_ne_zero _))
  rw [roundDownToPowerOf2, Nat.one_shiftLeft, hlog]

/-- The left subtree of more than one chunk is a full subtree, and the right one is no larger. -/
theorem leftSubtreeLen_spec {n : Nat} (h : chunkLen < n) :
    ∃ j, leftSubtreeLen n = 2 ^ j * chunkLen ∧ leftSubtreeLen n < n ∧ n ≤ 2 * leftSubtreeLen n := by
  unfold chunkLen at *
  have hpos : 0 < (n - 1) / 1024 := by omega
  have hlo := Nat.log2_self_le (n := (n - 1) / 1024) (by omega)
  have hhi := Nat.lt_log2_self (n := (n - 1) / 1024)
  rw [Nat.pow_succ] at hhi
  have heq : leftSubtreeLen n = 2 ^ ((n - 1) / 1024).log2 * 1024 := by
    rw [leftSubtreeLen, chunkLen, roundDownToPowerOf2_eq hpos]
  exact ⟨((n - 1) / 1024).log2, heq, by omega, by omega⟩

/-- What stands for a place of an array that has not been written. -/
def zeroCv : Cv := fun _ => 0

/-- The chaining values that `blake3_hash_many` has written. -/
def loadCvs (outs : Nat → Byte) (n : Nat) : List Cv := (List.range n).map fun i k => load32 outs (32 * i + 4 * k)

/-- An input that is too long for one call of `compress_chunks_parallel` has more than one chunk. -/
theorem Platform.chunkLen_lt (P : Platform) {n : Nat} (h : ¬n ≤ P.simdDegree * chunkLen) : chunkLen < n := by
  obtain ⟨k, -, hk⟩ := P.degree_pow
  have hle := Nat.mul_le_mul_right chunkLen (Nat.two_pow_pos k)
  rw [← hk] at hle
  omega

section Subtrees
variable (P : Platform) (key : Cv) (flags : Byte)

def compressChunksParallel (input : List Byte) (chunkCounter : Nat) : List Cv :=
  let n := input.length / chunkLen
  let chunks := (List.range n).map fun i j => input.getD (chunkLen * i + j) 0
  let cvs := loadCvs (P.hashMany chunks 16 key (BitVec.ofNat 64 chunkCounter) true flags chunkStart chunkEnd (fun _ => 0) 0) n
  let rest := input.drop (chunkLen * n)
  if rest.length > 0 then
    let st := { ChunkState.init key flags with chunkCounter := (chunkCounter + n) % 2 ^ 64 }
    cvs ++ [(st.update rest).output.chainingValue]
  else cvs

def compressParentsParallel (children : List Cv) : List Cv :=
  let n := children.length / 2
  let parents := (List.range n).map fun i => cvBlock (children.getD (2 * i) zeroCv) (children.getD (2 * i + 1) zeroCv)
  let cvs := loadCvs (P.hashMany parents 1 key 0 false (flags ||| parent) 0 0 (fun _ => 0) 0) n
  if children.length > 2 * n then cvs ++ [children.getD (2 * n) zeroCv] else cvs

/-- `blake3_compress_subtree_wide`. The chaining values of the right side lie behind the place for `degree` of the
left one. -/
def compressSubtreeWide (input : List Byte) (chunkCounter : Nat) : List Cv :=
  if input.length ≤ P.simdDegree * chunkLen then compressChunksParallel P key flags input chunkCounter
  else
    let leftLen := leftSubtreeLen input.length
    let degree := if leftLen > chunkLen ∧ P.simdDegree = 1 then 2 else P.simdDegree
    let left := compressSubtreeWide (input.take leftLen) chunkCounter
    let right := compressSubtreeWide (input.drop leftLen) ((chunkCounter + leftLen / chunkLen) % 2 ^ 64)
    let cvArray := left ++ List.replicate (degree - left.length) zeroCv ++ right
    if left.length = 1 then cvArray.take 2
    else compressParentsParallel P key flags (cvArray.take (left.length + right.length))
termination_by input.length
decreasing_by
  all_goals
    obtain ⟨j, hj, hlt, -⟩ := leftSubtreeLen_spec (P.chunkLen_lt ‹_›)
    have := Nat.two_pow_pos j
    have := Nat.mul_le_mul_right chunkLen this
    rw [hj] at hlt
    unfold chunkLen at *
    simp only [List.length_take, List.length_drop, hj]
    omega

@[simp] theorem length_loadCvs (outs : Nat → Byte) (n : Nat) : (loadCvs outs n).length = n := by
  rw [loadCvs, List.length_map, List.length_range]

theorem length_compressParentsParallel (children : List Cv) :
    (compressParentsParallel P key flags children).length = (children.length + 1) / 2 := by
  unfold compressParentsParallel
  dsimp only
  split
  · rw [List.length_append, length_loadCvs, List.length_singleton]
    omega
  · rw [length_loadCvs]
    omega

/-- The loop of `compress_subtree_to_parent_node`. -/
def condense (cvs : List Cv) : List Cv :=
  if _h : 2 < cvs.length then condense (compressParentsParallel P key flags cvs) else cvs
termination_by cvs.length
decreasing_by
  rw [length_compressParentsParallel]
  omega

def compressSubtreeToParentNode (input : List Byte) (chunkCounter : Nat) : Cv × Cv :=
  let cvs := condense P key flags (compressSubtreeWide P key flags input chunkCounter)
  (cvs.getD 0 zeroCv, cvs.getD 1 zeroCv)

end Subtrees

/-- `blake3_hasher`; the stack with its top first. -/
structure Hasher where
  key : Cv
  chunk : ChunkState
  cvStack : List Cv

def Hasher.initBase (key : Cv) (flags : Byte) : Hasher := ⟨key, ChunkState.init key flags, []⟩

def popcnt (x : Nat) : Nat := x.bitIndices.length

def Hasher.mergeCvStack (h : Hasher) (totalLen : Nat) : Hasher :=
  { h with cvStack := LeftTree.mergeTo (fun a b => (parentOutput h.key h.chunk.flags a b).chainingValue) (popcnt totalLen) h.cvStack }

def Hasher.pushCv (h : Hasher) (cv : Cv) (chunkCounter : Nat) : Hasher :=
  let h := h.mergeCvStack chunkCounter
  { h with cvStack := cv :: h.cvStack }

/-- The loop that shrinks `subtree_len` until it divides the count so far. -/
def shrink (subtreeLen countSoFar : Nat) : Nat :=
  if _h : (subtreeLen - 1) &&& countSoFar ≠ 0 then shrink (subtreeLen / 2) countSoFar else subtreeLen
termination_by subtreeLen
decreasing_by
  by_contra hlt
  have hzero : subtreeLen = 0 := by omega
  rw [hzero, Nat.zero_sub, Nat.zero_and] at _h
  exact _h rfl

/-- `subtree_len` in the loop of `blake3_hasher_update_base`. -/
def Hasher.subtreeLen (h : Hasher) (inputLen : Nat) : Nat :=
  shrink (roundDownToPowerOf2 inputLen) (h.chunk.chunkCounter * chunkLen % 2 ^ 64)

def Hasher.subtree (P : Platform) (h : Hasher) (input : List Byte) : Hasher :=
  let counter := h.chunk.chunkCounter
  let subtreeLen := h.subtreeLen input.length
  let subtreeChunks := subtreeLen / chunkLen
  let h :=
    if subtreeLen ≤ chunkLen then
      let st := { ChunkState.init h.key h.chunk.flags with chunkCounter := counter }
      h.pushCv (st.update (input.take subtreeLen)).output.chainingValue counter
    else
      let pair := compressSubtreeToParentNode P h.key h.chunk.flags (input.take subtreeLen) counter
      (h.pushCv pair.1 counter).pushCv pair.2 ((counter + subtreeChunks / 2) % 2 ^ 64)
  { h with chunk := { h.chunk with chunkCounter := (counter + subtreeChunks) % 2 ^ 64 } }

theorem shrink_pos {s : Nat} (hs : 0 < s) (c : Nat) : 0 < shrink s c := by
  induction s using Nat.strongRecOn with
  | _ s ih =>
    rw [shrink]
    split
    · rename_i hne
      have h2 : 2 ≤ s := by
        by_contra hlt
        have hone : s = 1 := by omega
        rw [hone, Nat.sub_self, Nat.zero_and] at hne
        exact hne rfl
      exact ih (s / 2) (by omega) (by omega)
    · exact hs

theorem roundDownToPowerOf2_pos (x : Nat) : 0 < roundDownToPowerOf2 x := by
  rw [roundDownToPowerOf2, Nat.one_shiftLeft]
  exact Nat.two_pow_pos _

/-- The loop over the subtrees; what is left of the input, too. -/
def Hasher.subtrees (P : Platform) (h : Hasher) (input : List Byte) : List Byte × Hasher :=
  if _h : input.length > chunkLen then (h.subtree P input).subtrees P (input.drop (h.subtreeLen input.length)) else (input, h)
termination_by input.length
decreasing_by
  have hpos := shrink_pos (roundDownToPowerOf2_pos input.length) (h.chunk.chunkCounter * chunkLen % 2 ^ 64)
  rw [List.length_drop, Hasher.subtreeLen]
  unfold chunkLen at _h
  omega

/-- `blake3_hasher_update_base` from the point where the chunk state is clear. -/
def Hasher.absorb (P : Platform) (h : Hasher) (input : List Byte) : Hasher :=
  let (input, h) := h.subtrees P input
  if input.length > 0 then
    let h := { h with chunk := h.chunk.update input }
    h.mergeCvStack h.chunk.chunkCounter
  else h

def Hasher.update (P : Platform) (h : Hasher) (input : List Byte) : Hasher :=
  if input.length = 0 then h
  else if h.chunk.len > 0 then
    let take := if chunkLen - h.chunk.len > input.length then input.length else chunkLen - h.chunk.len
    let h := { h with chunk := h.chunk.update (input.take take) }
    let input := input.drop take
    if input.length > 0 then
      let h := h.pushCv h.chunk.output.chainingValue h.chunk.chunkCounter
      let h := { h with chunk := h.chunk.reset h.key ((h.chunk.chunkCounter + 1) % 2 ^ 64) }
      h.absorb P input
    else h
  else h.absorb P input

/-- The node that `blake3_hasher_finalize_seek` rolls the stack up to. -/
def Hasher.rootOutput (h : Hasher) : Output :=
  let roll := List.foldl fun o cv => parentOutput h.key h.chunk.flags cv (Output.chainingValue o)
  match h.cvStack with
  | [] => h.chunk.output
  | [cv] => roll h.chunk.output [cv]
  | b :: a :: stack =>
    if h.chunk.len > 0 then roll h.chunk.output (b :: a :: stack) else roll (parentOutput h.key h.chunk.flags a b) stack

def Hasher.finalizeSeek (h : Hasher) (seek outLen : Nat) : List Byte := h.rootOutput.rootBytes seek outLen

def Hasher.finalize (h : Hasher) (outLen : Nat) : List Byte := h.finalizeSeek 0 outLen

end PoseDB.Blake3
