import PoseDB.Region.Region
import PoseDB.Wipe.Success

/-!
# Verifying a wiped disk (`verify_disk` of `disk_wipe_bench.cu`)

`verify_disk` reads some super-chunks back and labels each of them again. The place of a sample is a product divided by a
number, in 64 bits. **`verifyDisk_spread_iff`**: a run that ends without an error finds no mismatch only if all samples have
their labels, and its samples are spread over the disk exactly if the largest product fits in 64 bits.
-/

set_option autoImplicit false

namespace PoseDB.Wipe
open Mem PoseDB.Graph Region ThreadPool

/-! ## The code -/

/-- The outcome of a call of `pread`: at most `n` bytes are read. -/
inductive Pread where
  | got (n : Nat)
  | eintr
  | failed (errno : Nat)

/-- `pread_all` after `done` bytes: the buffer, and `errno` if it fails. -/
def preadAll (file : Nat → Byte) (len off : Nat) : List Pread → (done : Nat) → (buf : Nat → Byte) →
    Option ((Nat → Byte) × Option Nat)
  | [], done, buf => if done < len then none else some (buf, none)
  | outcome :: rest, done, buf =>
    if done < len then
      match outcome with
      | .eintr => preadAll file len off rest done buf
      | .failed errno => some (buf, some errno)
      | .got n =>
        let n := min n (len - done)
        if n = 0 then some (buf, some eio)
        else preadAll file len off rest (done + n) (store buf done n fun x => file (off + done + x))
    else some (buf, none)

/-- What `verify_disk` works with: the node hash with the bytes of a label, `g_seed`, the bytes of the disk, and what its
calls give. `ref` is the address of a buffer of labels. -/
structure VerifyEnv (α : Type) where
  hash : PoseHash α
  bytes : α → Nat → Byte
  seed : List UInt8
  file : Nat → Byte
  posixMemalign : Bool
  ref : Option Nat
  malloc : (i : Nat) → Bool
  poolCreate : Bool
  pread : (k : Nat) → List Pread
  sched : (k : Nat) → Schedule
  strerror : Nat → String

variable {α : Type}

/-- The buffers and counters of `verify_disk`; `reports` are the mismatches it prints, the ghost `reads` the samples. -/
structure VerifyState (α : Type) where
  region : RegionState α
  diskBuf : Nat → Byte
  checked : Nat
  mism : Nat
  reports : List (Nat × Nat)
  reads : List Nat

/-- `J`: the super-chunk of sample `k`. -/
def sampleIndex (nSuper samples k : Nat) : Nat :=
  if samples = 1 then 0 else k * (nSuper - 1) % 2 ^ 64 / (samples - 1)

section Code
variable (env : VerifyEnv α) (cb superBytes nSuper samples ref : Nat)

/-- Byte `x` of the labels at `ref`. -/
def VerifyEnv.refByte (mem : Nat → α) (x : Nat) : Byte := env.bytes (mem (ref + x / 32)) (x % 32)

/-- `memcmp(ref, disk_buf, super_bytes)` and the report of a mismatch. -/
def VerifyState.compare (J : Nat) (st : VerifyState α) : VerifyState α :=
  let st := { st with checked := st.checked + 1 }
  if ∀ x < superBytes, env.refByte ref st.region.mem x = st.diskBuf x then st
  else
    let bad := (List.range cb).find? fun r =>
      !(List.range 32).all fun i => env.refByte ref st.region.mem (r * 32 + i) = st.diskBuf (r * 32 + i)
    { st with
      mism := st.mism + 1
      reports := if st.mism + 1 ≤ 3 then st.reports ++ [(J, bad.getD 0)] else st.reports }

/-- The loop of `verify_disk` with `n` more samples: an error text, or none. -/
def verifyLoop : (n k : Nat) → VerifyState α → Option (Option String × VerifyState α)
  | 0, _, st => some (none, st)
  | n + 1, k, st =>
    let J := sampleIndex nSuper samples k
    let st := { st with reads := st.reads ++ [J] }
    match preadAll env.file superBytes (J * superBytes % 2 ^ 64) (env.pread k) 0 st.diskBuf with
    | none => none
    | some (buf, some errno) => some (some ("pread: " ++ env.strerror errno), { st with diskBuf := buf })
    | some (buf, none) =>
      let out := poseGraphLabelRegionPooledInplace env.hash env.seed (some ref) superBytes (J * cb % 2 ^ 64) .blake3 cb
        (env.sched k) st.region
      let st := { st with diskBuf := buf, region := out.2 }
      if out.1 ≠ 0 then some (some "CPU recompute failed", st)
      else verifyLoop n (k + 1) (st.compare env cb superBytes ref J)

end Code

/-- What `verify_disk` returns, and its state at the end. -/
structure Verified (α : Type) where
  rc : Int
  err : String
  checkedOut : Nat
  mismOut : Nat
  st : VerifyState α

/-- `samples` after both checks. -/
def clampSamples (nSuper samples : Nat) : Nat :=
  let samples := if samples = 0 then 1 else samples
  if samples > nSuper then nSuper else samples

def verifyDisk (env : VerifyEnv α) (wipeLen cb samples : Nat) (region : RegionState α) (diskBuf : Nat → Byte) :
    Option (Verified α) :=
  let st : VerifyState α := ⟨region, diskBuf, 0, 0, [], []⟩
  let superBytes := resolveChunkBlocks cb * 32
  let nSuper := wipeLen / superBytes
  if nSuper = 0 then some ⟨-1, "nothing labeled to verify", 0, 0, st⟩
  else
    let samples := clampSamples nSuper samples
    if env.posixMemalign = false then some ⟨-1, "posix_memalign(disk_buf) failed", 0, 0, st⟩
    else
      match env.ref with
      | none => some ⟨-1, "malloc(ref) failed", 0, 0, st⟩
      | some ref =>
        if ¬((List.range poseRegionThreads).all env.malloc = true ∧ env.poolCreate = true) then
          some ⟨-1, "scratch/pool alloc failed", 0, 0, st⟩
        else
          match verifyLoop env cb superBytes nSuper samples ref samples 0 st with
          | none => none
          | some (some err, st) => some ⟨-1, err, 0, 0, st⟩
          | some (none, st) => some ⟨0, "", st.checked, st.mism, st⟩

/-! ## The samples -/

section Samples
variable {n s N k : Nat}

/-- The super-chunks that a run without an error reads. -/
def sampleIndices (nSuper samples : Nat) : List Nat := (List.range samples).map (sampleIndex nSuper samples)

/-- Samples as they are meant to be: no super-chunk twice, the first and the last one included, and all of them if there
are enough samples. -/
structure Spread (nSuper samples : Nat) (js : List Nat) : Prop where
  lt : ∀ J ∈ js, J < nSuper
  sorted : js.Pairwise (· < ·)
  first : js.head? = some 0
  last : 2 ≤ nSuper → js.getLast? = some (nSuper - 1)
  all : nSuper ≤ samples → js = List.range nSuper

theorem clampSamples_eq (n : Nat) (hN : 1 ≤ N) : clampSamples n N = min N n := by
  unfold clampSamples
  dsimp only
  rw [if_neg (by omega : ¬N = 0)]
  split <;> omega

theorem sampleIndex_eq (hfits : (s - 1) * (n - 1) < 2 ^ 64) (hs : 2 ≤ s) (hk : k < s) :
    sampleIndex n s k = k * (n - 1) / (s - 1) := by
  have hle : k * (n - 1) ≤ (s - 1) * (n - 1) := Nat.mul_le_mul_right _ (by omega)
  rw [sampleIndex, if_neg (by omega), Nat.mod_eq_of_lt (by omega)]

theorem sampleIndex_zero (n s : Nat) : sampleIndex n s 0 = 0 := by
  unfold sampleIndex
  split
  · rfl
  · rw [Nat.zero_mul, Nat.zero_mod, Nat.zero_div]

theorem sampleIndex_lt (hn : 1 ≤ n) (hk : k < s) : sampleIndex n s k < n := by
  unfold sampleIndex
  split
  · exact hn
  · have hmod := Nat.mod_le (k * (n - 1)) (2 ^ 64)
    have hmul : k * (n - 1) ≤ (s - 1) * (n - 1) := Nat.mul_le_mul_right _ (by omega)
    have hdiv : k * (n - 1) % 2 ^ 64 / (s - 1) ≤ n - 1 := Nat.div_le_of_le_mul (hmod.trans hmul)
    omega

theorem sampleIndex_lt_succ (hfits : (s - 1) * (n - 1) < 2 ^ 64) (hsn : s ≤ n) (hk : k + 1 < s) :
    sampleIndex n s k < sampleIndex n s (k + 1) := by
  rw [sampleIndex_eq hfits (by omega) (by omega), sampleIndex_eq hfits (by omega) hk]
  have hstep : k * (n - 1) + (s - 1) ≤ (k + 1) * (n - 1) := by
    rw [Nat.add_mul, Nat.one_mul]
    omega
  have hdiv := Nat.div_le_div_right (c := s - 1) hstep
  rw [Nat.add_div_right _ (by omega)] at hdiv
  exact hdiv

theorem sampleIndices_sorted (hfits : (s - 1) * (n - 1) < 2 ^ 64) (hsn : s ≤ n) :
    (sampleIndices n s).Pairwise (· < ·) := by
  have hmono : ∀ d k, k + (d + 1) < s → sampleIndex n s k < sampleIndex n s (k + (d + 1)) := by
    intro d
    induction d with
    | zero => exact fun k hk => sampleIndex_lt_succ hfits hsn hk
    | succ d ih => exact fun k hk => (ih k (by omega)).trans (sampleIndex_lt_succ hfits hsn hk)
  unfold sampleIndices
  rw [List.pairwise_map]
  refine List.pairwise_lt_range.imp_of_mem fun {i j} _ hj hij => ?_
  have hj' := List.mem_range.mp hj
  have hlt := hmono (j - i - 1) i (by omega)
  rwa [show i + (j - i - 1 + 1) = j by omega] at hlt

theorem head_sampleIndices (hs : 1 ≤ s) : (sampleIndices n s).head? = some 0 := by
  obtain ⟨s, rfl⟩ := Nat.exists_eq_add_of_le' hs
  unfold sampleIndices
  rw [List.range_succ_eq_map, List.map_cons, List.head?_cons, sampleIndex_zero]

theorem getLast_sampleIndices (hs : 1 ≤ s) : (sampleIndices n s).getLast? = some (sampleIndex n s (s - 1)) := by
  obtain ⟨s, rfl⟩ := Nat.exists_eq_add_of_le' hs
  unfold sampleIndices
  rw [List.range_succ, List.map_append, List.map_singleton, List.getLast?_append, List.getLast?_singleton]
  rfl

/-- The last sample is the last super-chunk exactly if the largest product fits. -/
theorem sampleIndex_last (hs : 2 ≤ s) :
    sampleIndex n s (s - 1) = n - 1 ↔ (s - 1) * (n - 1) < 2 ^ 64 := by
  constructor
  · intro hlast
    by_contra hwraps
    have hmod := Nat.mod_lt ((s - 1) * (n - 1)) (Nat.two_pow_pos 64)
    rw [sampleIndex, if_neg (by omega)] at hlast
    have hlt : (s - 1) * (n - 1) % 2 ^ 64 / (s - 1) < n - 1 := (Nat.div_lt_iff_lt_mul (by omega)).mpr (by
      rw [Nat.mul_comm (n - 1)]
      omega)
    omega
  · intro hfits
    rw [sampleIndex_eq hfits hs (by omega), Nat.mul_div_cancel_left _ (by omega)]

/-- **Where the samples are**: spread over the disk exactly if the largest product fits in 64 bits. -/
theorem sampleIndices_spread_iff (hn : 1 ≤ n) (hN : 2 ≤ N) :
    Spread n N (sampleIndices n (min N n)) ↔ (min N n - 1) * (n - 1) < 2 ^ 64 := by
  constructor
  · intro h
    rcases Nat.lt_or_ge n 2 with hone | htwo
    · rw [show n - 1 = 0 by omega, Nat.mul_zero]
      exact Nat.two_pow_pos 64
    · have hlast := h.last htwo
      rw [getLast_sampleIndices (by omega), Option.some.injEq] at hlast
      exact (sampleIndex_last (by omega)).mp hlast
  · intro hfits
    constructor
    · intro J hJ
      obtain ⟨k, hk, rfl⟩ := List.mem_map.mp hJ
      exact sampleIndex_lt hn (List.mem_range.mp hk)
    · exact sampleIndices_sorted hfits (by omega)
    · exact head_sampleIndices (by omega)
    · intro htwo
      rw [getLast_sampleIndices (by omega), (sampleIndex_last (by omega)).mpr hfits]
    · intro hall
      rw [Nat.min_eq_right hall] at hfits ⊢
      have hid : ∀ k ∈ List.range n, sampleIndex n n k = k := by
        intro k hk
        have hkn := List.mem_range.mp hk
        rcases Nat.lt_or_ge n 2 with hone | htwo
        · rw [show k = 0 by omega, sampleIndex_zero]
        · rw [sampleIndex_eq hfits htwo hkn, Nat.mul_div_cancel _ (by omega)]
      exact (List.map_congr_left hid).trans (List.map_id _)

end Samples

/-! ## The run -/

/-- A `pread_all` that succeeds reads the bytes of the disk, whatever the short reads and interrupts. -/
theorem preadAll_reads {file : Nat → Byte} {len off : Nat} {outcomes : List Pread} {done : Nat} {buf buf' : Nat → Byte}
    (h : preadAll file len off outcomes done buf = some (buf', none)) (hdone : ∀ x < done, buf x = file (off + x)) :
    ∀ x < len, buf' x = file (off + x) := by
  induction outcomes generalizing done buf with
  | nil =>
      rw [preadAll] at h
      by_cases hlt : done < len
      · rw [if_pos hlt] at h
        cases h
      · rw [if_neg hlt] at h
        cases h
        exact fun x hx => hdone x (by omega)
  | cons outcome rest ih =>
      rw [preadAll.eq_def] at h
      dsimp only at h
      by_cases hlt : done < len
      · rw [if_pos hlt] at h
        cases outcome with
        | eintr => exact ih h hdone
        | failed errno => cases h
        | got n =>
            dsimp only at h
            by_cases hn : min n (len - done) = 0
            · rw [if_pos hn] at h
              cases h
            · rw [if_neg hn] at h
              refine ih h fun x hx => ?_
              rcases Nat.lt_or_ge x done with hold | hnew
              · rw [store_out _ _ _ _ (Or.inl hold)]
                exact hdone x hold
              · obtain ⟨y, rfl⟩ := Nat.exists_eq_add_of_le hnew
                rw [store_in _ _ _ _ (by omega), Nat.add_assoc]
      · rw [if_neg hlt] at h
        cases h
        exact fun x hx => hdone x (by omega)

section Run
variable (env : VerifyEnv α) (cb : Nat)

/-- Byte `x` of the labels of chunk index `J`. -/
def relabelByte (J x : Nat) : Byte :=
  env.bytes (chunkLabel env.hash (env.hash.chunkSeed env.seed J) cb .blake3 (x / 32)) (x % 32)

/-- Super-chunk `J` of the disk has its labels. -/
def Labelled (J : Nat) : Prop := ∀ x < cb * 32, env.file (J * (cb * 32) + x) = relabelByte env cb J x

instance (J : Nat) : Decidable (Labelled env cb J) := Nat.decidableBallLT _ _

variable {env : VerifyEnv α} {cb : Nat} {superBytes nSuper samples ref : Nat} {J k n : Nat} {st : VerifyState α}

theorem refByte_eq {region : RegionState α} {sched : Schedule} (hcb : 1 ≤ cb) (hmax : cb ≤ poseGraphMaxM)
    (hJ : J * cb + cb < 2 ^ 64)
    (hrc : (poseGraphLabelRegionPooledInplace env.hash env.seed (some ref) (cb * 32) (J * cb) .blake3 cb sched region).1 = 0) :
    ∀ x < cb * 32, env.refByte ref (poseGraphLabelRegionPooledInplace env.hash env.seed (some ref) (cb * 32) (J * cb)
      .blake3 cb sched region).2.mem x = relabelByte env cb J x := by
  intro x hx
  have hlen : cb * 32 = poseHashBytes * cb := Nat.mul_comm _ _
  rw [hlen] at hrc ⊢
  have hpaint := inplace_paints sched hcb hmax hcb (Nat.dvd_mul_left cb J) hJ hrc
  have hr : x / 32 < cb := by omega
  have hin : ref + x / 32 ∈ Set.Ico ref (ref + cb * (cb / cb)) := by
    rw [Nat.div_self hcb, Set.mem_Ico]
    omega
  have hchunk : blockLabel env.hash env.seed .blake3 cb (J * cb) cb (x / 32) =
      chunkLabel env.hash (env.hash.chunkSeed env.seed J) cb .blake3 (x / 32) := by
    have h := @blockLabel_chunk α env.hash env.seed .blake3 cb (J * cb) cb 0 (x / 32) (Nat.dvd_mul_left cb J) hr
    rwa [Nat.mul_zero, Nat.zero_add, Nat.add_zero, Nat.sub_zero, Nat.min_self, Nat.mul_div_cancel _ hcb] at h
  unfold VerifyEnv.refByte relabelByte
  rw [(hpaint (ref + x / 32)).1 hin]
  dsimp only
  rw [Nat.add_sub_cancel_left, hchunk]

section Compare
variable (env cb superBytes ref J st)

@[simp] theorem compare_checked : (st.compare env cb superBytes ref J).checked = st.checked + 1 := by
  unfold VerifyState.compare
  dsimp only
  split <;> rfl

@[simp] theorem compare_reads : (st.compare env cb superBytes ref J).reads = st.reads := by
  unfold VerifyState.compare
  dsimp only
  split <;> rfl

theorem compare_mism : (st.compare env cb superBytes ref J).mism =
    st.mism + if ∀ x < superBytes, env.refByte ref st.region.mem x = st.diskBuf x then 0 else 1 := by
  unfold VerifyState.compare
  dsimp only
  split <;> rfl

end Compare

/-- The samples are super-chunks of a disk whose offsets fit in 64 bits. -/
structure Sampled (cb nSuper samples : Nat) : Prop where
  cb_pos : 1 ≤ cb
  cb_le : cb ≤ poseGraphMaxM
  nSuper_pos : 1 ≤ nSuper
  fits : nSuper * (cb * 32) < 2 ^ 64

theorem Sampled.bounds (h : Sampled cb nSuper samples) (hk : k < samples) :
    let J := sampleIndex nSuper samples k
    J * (cb * 32) < 2 ^ 64 ∧ J * cb + cb < 2 ^ 64 := by
  intro J
  have hlt : J + 1 ≤ nSuper := sampleIndex_lt h.nSuper_pos hk
  have hmul := Nat.mul_le_mul_right (cb * 32) hlt
  have hfits := h.fits
  rw [Nat.add_mul, Nat.one_mul, ← Nat.mul_assoc] at hmul
  rw [← Nat.mul_assoc]
  omega

/-- The loop over the last `n` samples, without an error. -/
theorem verifyLoop_done (h : Sampled cb nSuper samples) {st' : VerifyState α} (hk : k + n = samples)
    (hrun : verifyLoop env cb (cb * 32) nSuper samples ref n k st = some (none, st')) :
    let js := (List.range' k n).map (sampleIndex nSuper samples)
    st'.reads = st.reads ++ js ∧ st'.checked = st.checked + n ∧
      st'.mism = st.mism + js.countP fun J => ¬Labelled env cb J := by
  induction n generalizing k st with
  | zero =>
      cases hrun
      simp
  | succ n ih =>
      obtain ⟨hoff, hblocks⟩ := h.bounds (show k < samples by omega)
      rw [verifyLoop] at hrun
      dsimp only at hrun
      rw [Nat.mod_eq_of_lt hoff, Nat.mod_eq_of_lt ((Nat.le_add_right _ _).trans_lt hblocks)] at hrun
      set J := sampleIndex nSuper samples k
      split at hrun
      · cases hrun
      · cases hrun
      · rename_i buf hread
        split at hrun
        · cases hrun
        · rename_i hrc
          have hlabels := refByte_eq h.cb_pos h.cb_le hblocks (not_not.mp hrc)
          have hbuf := preadAll_reads hread fun x hx => absurd hx (Nat.not_lt_zero x)
          obtain ⟨hreads, hchecked, hmism⟩ := ih (by omega) hrun
          rw [compare_reads] at hreads
          rw [compare_checked] at hchecked
          rw [compare_mism] at hmism
          dsimp only at hreads hchecked hmism
          have hsame : (∀ x < cb * 32, env.refByte ref (poseGraphLabelRegionPooledInplace env.hash env.seed (some ref)
              (cb * 32) (J * cb) .blake3 cb (env.sched k) st.region).2.mem x = buf x) ↔ Labelled env cb J := by
            constructor
            · intro heq x hx
              rw [← hbuf x hx, ← heq x hx, hlabels x hx]
            · intro hJ x hx
              rw [hlabels x hx, hbuf x hx, hJ x hx]
          rw [List.range'_succ, List.map_cons]
          refine ⟨?_, ?_, ?_⟩
          · rw [hreads, List.append_assoc, List.singleton_append]
          · rw [hchecked]
            omega
          · rw [hmism, List.countP_cons]
            by_cases hJ : Labelled env cb J
            · rw [if_pos (hsame.mpr hJ), if_neg (by simpa using hJ)]
              omega
            · rw [if_neg fun heq => hJ (hsame.mp heq), if_pos (by simpa using hJ)]
              omega

/-- All calls of `verify_disk` succeed. -/
structure VerifyEnv.AllSucceed (env : VerifyEnv α) (superBytes : Nat) : Prop where
  posixMemalign : env.posixMemalign = true
  ref : env.ref ≠ none
  malloc : ∀ i, env.malloc i = true
  poolCreate : env.poolCreate = true
  pread : ∀ k off buf, ∃ buf', preadAll env.file superBytes off (env.pread k) 0 buf = some (buf', none)

theorem verifyLoop_succeeds (henv : env.AllSucceed (cb * 32)) (h : Sampled cb nSuper samples) (hk : k + n = samples) :
    ∃ st', verifyLoop env cb (cb * 32) nSuper samples ref n k st = some (none, st') := by
  induction n generalizing k st with
  | zero => exact ⟨st, rfl⟩
  | succ n ih =>
      obtain ⟨hoff, hblocks⟩ := h.bounds (show k < samples by omega)
      rw [verifyLoop]
      dsimp only
      rw [Nat.mod_eq_of_lt hoff, Nat.mod_eq_of_lt ((Nat.le_add_right _ _).trans_lt hblocks)]
      set J := sampleIndex nSuper samples k
      obtain ⟨buf, hbuf⟩ := henv.pread k (J * (cb * 32)) st.diskBuf
      have hrc : (poseGraphLabelRegionPooledInplace env.hash env.seed (some ref) (cb * 32) (J * cb) .blake3 cb
          (env.sched k) st.region).1 = 0 := by
        rw [show cb * 32 = poseHashBytes * cb from Nat.mul_comm _ _]
        exact inplace_succeeds (env.sched k) h.cb_pos h.cb_le h.cb_pos (Nat.dvd_mul_left cb J) hblocks
      rw [hbuf]
      dsimp only
      rw [if_neg (not_not.mpr hrc)]
      exact ih (by omega)

section Disk
variable {wipeLen N : Nat} {region : RegionState α} {diskBuf : Nat → Byte} {r : Verified α}

theorem sampled_disk (hcb : 1 ≤ cb) (hmax : cb ≤ poseGraphMaxM) (hlen : wipeLen < 2 ^ 64)
    (hn : 1 ≤ wipeLen / (cb * 32)) : Sampled cb (wipeLen / (cb * 32)) samples :=
  ⟨hcb, hmax, hn, (Nat.div_mul_le_self _ _).trans_lt hlen⟩

/-- A run without an error reads all samples and counts those that do not have their labels. -/
theorem verifyDisk_done (hcb : 1 ≤ cb) (hmax : cb ≤ poseGraphMaxM) (hlen : wipeLen < 2 ^ 64)
    (h : verifyDisk env wipeLen cb N region diskBuf = some r) (hrc : r.rc = 0) :
    let n := wipeLen / (cb * 32)
    r.st.reads = sampleIndices n (clampSamples n N) ∧
      r.mismOut = r.st.reads.countP fun J => ¬Labelled env cb J := by
  intro n
  rw [verifyDisk, resolveChunkBlocks_of_pos hcb] at h
  dsimp only at h
  split at h
  · cases h
    cases hrc
  · rename_i hn
    split at h
    · cases h
      cases hrc
    · split at h
      · cases h
        cases hrc
      · split at h
        · cases h
          cases hrc
        · split at h
          · cases h
          · cases h
            cases hrc
          · rename_i st hrun
            cases h
            obtain ⟨hreads, -, hmism⟩ := verifyLoop_done (sampled_disk hcb hmax hlen (Nat.pos_of_ne_zero hn))
              (Nat.zero_add _) hrun
            rw [List.nil_append, ← List.range_eq_range'] at hreads
            rw [Nat.zero_add, ← List.range_eq_range'] at hmism
            refine ⟨hreads, ?_⟩
            rw [hreads]
            exact hmism

variable (N region diskBuf) in
theorem verifyDisk_succeeds (henv : env.AllSucceed (cb * 32)) (hcb : 1 ≤ cb) (hmax : cb ≤ poseGraphMaxM)
    (hlen : wipeLen < 2 ^ 64) (hn : 1 ≤ wipeLen / (cb * 32)) :
    ∃ r, verifyDisk env wipeLen cb N region diskBuf = some r ∧ r.rc = 0 := by
  obtain ⟨ref, href⟩ := Option.ne_none_iff_exists'.mp henv.ref
  have hmalloc : (List.range poseRegionThreads).all env.malloc = true := List.all_eq_true.mpr fun i _ => henv.malloc i
  let n := wipeLen / (cb * 32)
  let s := clampSamples n N
  obtain ⟨st, hst⟩ : ∃ st', verifyLoop env cb (cb * 32) n s ref s 0 ⟨region, diskBuf, 0, 0, [], []⟩ = some (none, st') :=
    verifyLoop_succeeds henv (sampled_disk hcb hmax hlen hn) (Nat.zero_add s)
  refine ⟨⟨0, "", st.checked, st.mism, st⟩, ?_, rfl⟩
  rw [verifyDisk, resolveChunkBlocks_of_pos hcb]
  dsimp only
  rw [if_neg (by omega), if_neg (by rw [henv.posixMemalign]; decide), href]
  dsimp only
  rw [if_neg (not_not.mpr ⟨hmalloc, henv.poolCreate⟩), hst]

end Disk

end Run

/-- **What a verified disk means**: a run without an error finds no mismatch only if its samples have their labels, and
its samples are spread over the disk exactly if the largest product of their computation fits in 64 bits. -/
theorem verifyDisk_spread_iff (env : VerifyEnv α) (wipeLen cb samples : Nat) (region : RegionState α)
    (diskBuf : Nat → Byte) (r : Verified α) (hcb : 1 ≤ cb) (hmax : cb ≤ poseGraphMaxM) (hlen : wipeLen < 2 ^ 64)
    (hn : 1 ≤ wipeLen / (cb * 32)) (hsamples : 2 ≤ samples)
    (h : verifyDisk env wipeLen cb samples region diskBuf = some r) (hrc : r.rc = 0) :
    let nSuper := wipeLen / (cb * 32)
    (Spread nSuper samples r.st.reads ∧ (r.mismOut = 0 → ∀ J ∈ r.st.reads, Labelled env cb J)) ↔
      (min samples nSuper - 1) * (nSuper - 1) < 2 ^ 64 := by
  intro nSuper
  obtain ⟨hreads, hmism⟩ := verifyDisk_done hcb hmax hlen h hrc
  have hspread := sampleIndices_spread_iff hn hsamples
  have hsound : r.mismOut = 0 → ∀ J ∈ r.st.reads, Labelled env cb J := by
    intro hzero J hJ
    rw [hmism, List.countP_eq_zero] at hzero
    simpa using hzero J hJ
  rw [clampSamples_eq _ (by omega)] at hreads
  rw [← hspread, ← hreads]
  exact and_iff_left hsound

def zeroEnv (superBytes : Nat) : VerifyEnv Nat where
  hash := natHash
  bytes _ _ := 0
  seed := []
  file _ := 0
  posixMemalign := true
  ref := some 0
  malloc _ := true
  poolCreate := true
  pread _ := [.got superBytes]
  sched _ := Schedule.inOrder
  strerror _ := ""

theorem zeroEnv_allSucceed {superBytes : Nat} (hpos : 0 < superBytes) : (zeroEnv superBytes).AllSucceed superBytes where
  posixMemalign := rfl
  ref := Option.some_ne_none 0
  malloc _ := rfl
  poolCreate := rfl
  pread k off buf := by
    refine ⟨store buf 0 superBytes fun x => 0, ?_⟩
    show preadAll _ superBytes off [.got superBytes] 0 buf = _
    have hmin : min superBytes (superBytes - 0) = superBytes := Nat.min_self _
    rw [preadAll.eq_def]
    dsimp only
    rw [if_pos hpos, hmin, if_neg hpos.ne', preadAll, if_neg (by omega)]
    rfl

def zeroRegion : RegionState Nat :=
  ⟨fun _ => 0, fun _ => ⟨fun _ => 0, fun _ => 0⟩, fun _ => ⟨0, 0, 0, 0, 0, .blake3, false, none⟩, [], false⟩

/-- Four samples of ten super-chunks. -/
theorem verifyDisk_spread_iff_ten :
    ∃ r, verifyDisk (zeroEnv (2 * 32)) 640 2 4 zeroRegion (fun _ => 0) = some r ∧ Spread 10 4 r.st.reads := by
  obtain ⟨r, hr, hrc⟩ := verifyDisk_succeeds 4 zeroRegion (fun _ => 0)
    (zeroEnv_allSucceed (by decide)) (by decide : 1 ≤ 2) (by decide) (by decide : 640 < 2 ^ 64) (by decide)
  exact ⟨r, hr, ((verifyDisk_spread_iff _ _ _ _ _ _ r (by decide) (by decide) (by decide) (by decide) (by decide) hr
    hrc).mpr (by decide)).1⟩

/-- A disk of 4 TiB in super-chunks of 512 bytes, all of them to be read. -/
theorem verifyDisk_not_spread : ¬∀ (env : VerifyEnv Nat) (wipeLen cb samples : Nat) (region : RegionState Nat)
    (diskBuf : Nat → Byte) (r : Verified Nat), 1 ≤ cb → cb ≤ poseGraphMaxM → wipeLen < 2 ^ 64 →
    1 ≤ wipeLen / (cb * 32) → 2 ≤ samples → verifyDisk env wipeLen cb samples region diskBuf = some r → r.rc = 0 →
      Spread (wipeLen / (cb * 32)) samples r.st.reads ∧ (r.mismOut = 0 → ∀ J ∈ r.st.reads, Labelled env cb J) := by
  intro hall
  obtain ⟨r, hr, hrc⟩ := verifyDisk_succeeds (2 ^ 33) zeroRegion (fun _ => 0)
    (zeroEnv_allSucceed (by decide)) (by decide : 1 ≤ 16) (by decide) (by decide : 2 ^ 42 < 2 ^ 64) (by decide)
  obtain ⟨hspread, -⟩ := hall _ _ _ _ _ _ r (by decide) (by decide) (by decide) (by decide) (by decide) hr hrc
  obtain ⟨hreads, -⟩ := verifyDisk_done (by decide) (by decide) (by decide) hr hrc
  rw [hreads, clampSamples_eq _ (by decide)] at hspread
  exact absurd ((sampleIndices_spread_iff (by decide) (by decide)).mp hspread) (by decide)

end PoseDB.Wipe
