import PoseDB.Hash.Blake3Incremental
import PoseDB.Lib.Publish

/-!
# Keys, chunk seeds and descriptors (`hash.c`)

Each of them is derived in its own context: the hash of the context is the key under which the material is hashed. The
keys of the node labels are derived once and cached, by every thread that finds them missing (`ensureKeys_ends`);
chunk seeds and descriptors are hashes of messages that different arguments keep apart (`poseChunkSeed_spec`,
`poseGraphDescriptor_spec`).
-/

set_option autoImplicit false

namespace PoseDB.Blake3

/-! ## The code -/

def loadKeyWords (key : List Byte) : Cv := fun k => load32 (fun j => key.getD j 0) (4 * k)

/-- The bytes of a string literal, of which `strlen` gives the number. -/
def literal (s : String) : List Byte := s.toList.map fun c => BitVec.ofNat 8 c.toNat

section Code
variable (P : Platform)

def Hasher.initDeriveKeyRaw (context : List Byte) : Hasher :=
  let contextHasher := (Hasher.initBase IV deriveKeyContext).update P context
  let contextKey := contextHasher.finalize 32
  Hasher.initBase (loadKeyWords contextKey) deriveKeyMaterial

def Hasher.initDeriveKey (context : String) : Hasher := Hasher.initDeriveKeyRaw P (literal context)

/-- A 64-bit number with its most significant byte first. -/
def putU64Be (x : Nat) : List Byte :=
  [BitVec.ofNat 8 (x >>> 56), BitVec.ofNat 8 (x >>> 48), BitVec.ofNat 8 (x >>> 40), BitVec.ofNat 8 (x >>> 32),
    BitVec.ofNat 8 (x >>> 24), BitVec.ofNat 8 (x >>> 16), BitVec.ofNat 8 (x >>> 8), BitVec.ofNat 8 x]

def poseGraphDescriptor (m n : Nat) : List Byte :=
  let buf := putU64Be m ++ putU64Be n ++ [0, 0, 0, 0, 0, 0, 1, 0]
  ((Hasher.initDeriveKey P "pose-db/descriptor").update P buf).finalize 32

def poseChunkSeed (sessionSeed : List Byte) (chunkIndex : Nat) : List Byte :=
  let h := Hasher.initDeriveKey P "pose-db/chunk-seed"
  let h := h.update P sessionSeed
  let h := h.update P (putU64Be chunkIndex)
  h.finalize 32

/-- Word `i` of what `ensure_keys` writes: `g_key_src`, and `g_key_int` behind it. -/
def keyWord (i : Nat) : Word :=
  if i < 8 then (Hasher.initDeriveKey P "pose-db/label/src").key (Fin.ofNat 8 i)
  else (Hasher.initDeriveKey P "pose-db/label/int").key (Fin.ofNat 8 (i - 8))

end Code

/-! ## Hashing in a context -/

def derivedKey (context : List Byte) : Cv := loadKeyWords ((rootNode IV deriveKeyContext context).rootBytes 0 32)

def derivedHash (context material : List Byte) : List Byte :=
  (rootNode (derivedKey context) deriveKeyMaterial material).rootBytes 0 32

theorem initDeriveKeyRaw_eq (P : Platform) {context : List Byte} (hlen : context.length < 2 ^ 64) :
    Hasher.initDeriveKeyRaw P context = Hasher.initBase (derivedKey context) deriveKeyMaterial := by
  have hroot : ((Hasher.initBase IV deriveKeyContext).update P context).rootOutput =
      rootNode IV deriveKeyContext [context].flatten :=
    @rootOutput_updates P IV deriveKeyContext [context] (by rwa [List.flatten_singleton])
  rw [List.flatten_singleton] at hroot
  rw [Hasher.initDeriveKeyRaw, Hasher.finalize, Hasher.finalizeSeek, hroot]
  rfl

theorem initDeriveKey_key (P : Platform) (context : String) (hlen : (literal context).length < 2 ^ 64) :
    (Hasher.initDeriveKey P context).key = derivedKey (literal context) := by
  rw [Hasher.initDeriveKey, initDeriveKeyRaw_eq P hlen]
  rfl

theorem derivedHash_eq (P : Platform) (context : String) (hcontext : (literal context).length < 2 ^ 64)
    (pieces : List (List Byte)) (hlen : pieces.flatten.length < 2 ^ 64) :
    (pieces.foldl (Hasher.update P) (Hasher.initDeriveKey P context)).finalize 32 =
      derivedHash (literal context) pieces.flatten := by
  rw [Hasher.finalize, Hasher.finalizeSeek, Hasher.initDeriveKey, initDeriveKeyRaw_eq P hcontext,
    rootOutput_updates P _ _ hlen]
  rfl

/-! ## Messages -/

theorem length_putU64Be (x : Nat) : (putU64Be x).length = 8 := rfl

theorem ofNat_shiftRight_toNat (x k : Nat) : (BitVec.ofNat 8 (x >>> k)).toNat = x / 2 ^ k % 256 := by
  rw [BitVec.toNat_ofNat, Nat.shiftRight_eq_div_pow]

/-- The bytes of a number below `2 ^ 64` determine it. -/
theorem putU64Be_inj {x y : Nat} (hx : x < 2 ^ 64) (hy : y < 2 ^ 64) (h : putU64Be x = putU64Be y) : x = y := by
  unfold putU64Be at h
  simp only [List.cons.injEq, and_true] at h
  obtain ⟨h7, h6, h5, h4, h3, h2, h1, h0⟩ := h
  have hbyte : ∀ {k : Nat}, BitVec.ofNat 8 (x >>> k) = BitVec.ofNat 8 (y >>> k) → x / 2 ^ k % 256 = y / 2 ^ k % 256 := fun h => by
    rw [← ofNat_shiftRight_toNat, h, ofNat_shiftRight_toNat]
  have h0' : x % 256 = y % 256 := by
    have := congrArg BitVec.toNat h0
    rwa [BitVec.toNat_ofNat, BitVec.toNat_ofNat] at this
  have := hbyte h1
  have := hbyte h2
  have := hbyte h3
  have := hbyte h4
  have := hbyte h5
  have := hbyte h6
  have := hbyte h7
  omega

/-- **The chunk seed**: on every machine the hash of the session seed and the index, in a message that determines
both, however long the session seed is. -/
theorem poseChunkSeed_spec (P : Platform) (sessionSeed : List Byte) (chunkIndex : Nat)
    (hlen : sessionSeed.length + 8 < 2 ^ 64) (hindex : chunkIndex < 2 ^ 64) :
    poseChunkSeed P sessionSeed chunkIndex = derivedHash (literal "pose-db/chunk-seed") (sessionSeed ++ putU64Be chunkIndex) ∧
      ∀ sessionSeed' chunkIndex', chunkIndex' < 2 ^ 64 →
        sessionSeed' ++ putU64Be chunkIndex' = sessionSeed ++ putU64Be chunkIndex →
        sessionSeed' = sessionSeed ∧ chunkIndex' = chunkIndex := by
  constructor
  · have h := derivedHash_eq P "pose-db/chunk-seed" (by decide) [sessionSeed, putU64Be chunkIndex] (by
      simp only [List.flatten_cons, List.flatten_nil, List.length_append, List.length_nil, length_putU64Be]
      omega)
    simp only [List.flatten_cons, List.flatten_nil, List.append_nil] at h
    exact h
  · intro sessionSeed' chunkIndex' hindex' heq
    obtain ⟨hseed, hput⟩ := List.append_inj' heq rfl
    exact ⟨hseed, putU64Be_inj hindex' hindex hput⟩

theorem poseChunkSeed_spec_five :
    poseChunkSeed portable [1, 2] 5 = derivedHash (literal "pose-db/chunk-seed") ([1, 2] ++ putU64Be 5) :=
  (poseChunkSeed_spec portable [1, 2] 5 (by decide) (by decide)).1

theorem poseGraphDescriptor_spec (P : Platform) {m n : Nat} (hm : m < 2 ^ 64) (hn : n < 2 ^ 64) :
    poseGraphDescriptor P m n =
        derivedHash (literal "pose-db/descriptor") (putU64Be m ++ putU64Be n ++ [0, 0, 0, 0, 0, 0, 1, 0]) ∧
      ∀ m' n', m' < 2 ^ 64 → n' < 2 ^ 64 →
        putU64Be m' ++ putU64Be n' ++ [0, 0, 0, 0, 0, 0, 1, 0] = putU64Be m ++ putU64Be n ++ [0, 0, 0, 0, 0, 0, 1, 0] →
        m' = m ∧ n' = n := by
  constructor
  · have h := derivedHash_eq P "pose-db/descriptor" (by decide)
      [putU64Be m ++ putU64Be n ++ [0, 0, 0, 0, 0, 0, 1, 0]] (by rw [List.flatten_singleton]; exact (by decide : 24 < 2 ^ 64))
    rw [List.flatten_singleton] at h
    exact h
  · intro m' n' hm' hn' heq
    obtain ⟨hm'', hn''⟩ := List.append_inj' (List.append_cancel_right heq) rfl
    exact ⟨putU64Be_inj hm' hm hm'', putU64Be_inj hn' hn hn''⟩

/-! ## The cached keys -/

/-- `pose_label_node_keys`, called by any number of threads: `ensure_keys`, which loads `g_keys_ready` and, if it is
clear, writes both keys and sets it, and the copy of both keys. One step is one access to a word or to the flag. -/
def EnsureKeysStep (P : Platform) (threads : Nat) : Publish.State Word → Publish.State Word → Prop :=
  Publish.Step 16 threads (keyWord P)

/-- **Every run of `ensure_keys` ends, and every thread gets both keys**, the same ones on every machine, also where
several threads derive and write them at once and others copy them meanwhile. -/
theorem ensureKeys_ends (P : Platform) (threads : Nat) (word : Nat → Word) (copy : Nat → Nat → Word) :
    Runs.Ends (EnsureKeysStep P threads)
      (fun s => ∀ t < threads, s.pc t = .done ∧ ∀ k : Fin 8,
        s.copy t k = derivedKey (literal "pose-db/label/src") k ∧ s.copy t (8 + k) = derivedKey (literal "pose-db/label/int") k)
      ⟨word, false, fun _ => .load, copy⟩ := by
  have hsrc := initDeriveKey_key P "pose-db/label/src" (by decide)
  have hint := initDeriveKey_key P "pose-db/label/int" (by decide)
  have hk : ∀ k : Fin 8, Fin.ofNat 8 k.val = k := fun k => Fin.ext (Nat.mod_eq_of_lt k.isLt)
  refine (Publish.ends (fun _ => rfl) rfl).mono fun s h t ht => ?_
  obtain ⟨hdone, hcopy⟩ := h t ht
  refine ⟨hdone, fun k => ⟨?_, ?_⟩⟩
  · rw [hcopy k (by omega), keyWord, if_pos k.isLt, hsrc, hk]
  · rw [hcopy (8 + k) (by omega), keyWord, if_neg (by omega), Nat.add_sub_cancel_left, hint, hk]

end PoseDB.Blake3
