import PoseDB.Cuda.Topo
import PoseDB.Lib.Threads

/-!
# The labeling kernels (`label_gpu_{level,block,warp,thread}.cu`)

A cell of device memory is a 32-byte block of the persisted region, of the scratch (or work) buffer or of the seeds;
the label that a thread holds between `label_node` and its stores is a cell too. Addresses count blocks. A `uint32_t`
of a kernel is reduced modulo `2 ^ 32` where it can wrap: the number of chunks in a batch, the grid, and the warp of a
thread.
-/

set_option autoImplicit false

namespace PoseDB.Cuda
open Loops Threads PoseDB.Graph

inductive Cell where
  | persist (block : Nat)
  | work (block : Nat)
  | seed (chunk : Nat)
  | reg (thread : Nat)
deriving DecidableEq, Repr

/-- `for (i = start; i < n; i += step)`. -/
def strided (start step n : Nat) : List Nat :=
  if _h : start < n ∧ 0 < step then start :: strided (start + step) step n else []
termination_by n - start
decreasing_by omega

theorem mem_strided {start step n x : Nat} (hstep : 0 < step) :
    x ∈ strided start step n ↔ start ≤ x ∧ x < n ∧ step ∣ x - start := by
  induction start using strided.induct step n with
  | case1 start h ih =>
    rw [strided, dif_pos h, List.mem_cons, ih]
    constructor
    · rintro (rfl | ⟨h1, h2, h3⟩)
      · exact ⟨le_rfl, h.1, by rw [Nat.sub_self]; exact Nat.dvd_zero step⟩
      · refine ⟨by omega, h2, ?_⟩
        rw [show x - start = x - (start + step) + step by omega]
        exact Nat.dvd_add_self_right.mpr h3
    · rintro ⟨h1, h2, h3⟩
      rcases Nat.eq_or_lt_of_le h1 with heq | hlt
      · exact .inl heq.symm
      · have hle := Nat.le_of_dvd (by omega) h3
        refine .inr ⟨by omega, h2, ?_⟩
        rw [show x - (start + step) = x - start - step by omega]
        exact Nat.dvd_sub h3 (Nat.dvd_refl step)
  | case2 start h =>
    rw [strided, dif_neg h]
    simp only [List.not_mem_nil, false_iff]
    omega

/-- A thread below the stride visits the indices with its remainder. -/
theorem mem_strided_mod {start step n x : Nat} (hstart : start < step) :
    x ∈ strided start step n ↔ x < n ∧ x % step = start := by
  rw [mem_strided (by omega)]
  constructor
  · rintro ⟨h1, h2, k, hk⟩
    refine ⟨h2, ?_⟩
    rw [show x = start + step * k by omega, Nat.add_mul_mod_self_left, Nat.mod_eq_of_lt hstart]
  · rintro ⟨h2, rfl⟩
    exact ⟨Nat.mod_le x step, h2, Nat.dvd_sub_mod x⟩

theorem strided_pairwise (start step n : Nat) : (strided start step n).Pairwise (· < ·) := by
  induction start using strided.induct step n with
  | case1 start h ih =>
    rw [strided, dif_pos h, List.pairwise_cons]
    refine ⟨fun x hx => ?_, ih⟩
    have := ((mem_strided h.2).mp hx).1
    omega
  | case2 start h =>
    rw [strided, dif_neg h]
    exact List.Pairwise.nil

/-- `blockDim.x` of every launch. -/
def blockThreads : Nat := 256

def warpSize : Nat := 32

def warpsPerBlock : Nat := blockThreads / warpSize

def poseGpuWaveCap : Nat := 64

def gridMax : Nat := 0x7FFFFFFF

variable {α : Type} (H : PoseHash α) (T : Topo α)

/-! ## One node -/

section Node
variable (thread w base : Nat) (slot : Nat → Nat) (id : Nat)

/-- `pose_gpu::label_node` up to its stores: the label of node `id` of chunk `w`, whose labels start at `base`. -/
def hashNode : Access Cell α where
  dst := .reg thread
  reads c := c = .seed w ∨ (1 ≤ T.np id ∧ c = .work (base + slot (T.p0 id))) ∨
    (2 ≤ T.np id ∧ c = .work (base + slot (T.p1 id)))
  val m :=
    let p0 := if 1 ≤ T.np id then some (m (.work (base + slot (T.p0 id)))) else none
    let p1 := if 2 ≤ T.np id then some (m (.work (base + slot (T.p1 id)))) else none
    H.label (m (.seed w)) T.desc .blake3 ⟨T.np id = 0, id, p0, p1⟩
  val_congr m m' h := by
    have h0 : 1 ≤ T.np id → m (.work (base + slot (T.p0 id))) = m' (.work (base + slot (T.p0 id))) :=
      fun hp => h _ (.inr (.inl ⟨hp, rfl⟩))
    have h1 : 2 ≤ T.np id → m (.work (base + slot (T.p1 id))) = m' (.work (base + slot (T.p1 id))) :=
      fun hp => h _ (.inr (.inr ⟨hp, rfl⟩))
    simp only [h _ (.inl rfl)]
    congr 2
    · split
      · rw [h0 ‹_›]
      · rfl
    · split
      · rw [h1 ‹_›]
      · rfl

def labelNode : List (Access Cell α) :=
  [hashNode H T thread w base slot id, .move (.work (base + slot id)) (.reg thread)]

/-- The node step of the per-chunk kernels: the label into its slot, and for an output node the copy to the persisted
region (`pose_gpu::copy_label`). -/
def chunkNode (pbase : Nat) : List (Access Cell α) :=
  labelNode H T thread w base slot id ++
    if T.rank id ≥ 0 then [.move (.persist (pbase + (T.rank id).toNat)) (.work (base + slot id))] else []

end Node

/-! ## The kernels -/

/-- `k_label_chunk_block`: one block for each chunk, one barrier for each level. -/
def kLabelChunkBlock (batchBase batchCount : Nat) : Kernel Cell α where
  threads := batchCount * blockThreads
  team t := t / blockThreads
  barriers := T.numLevels
  body t lv :=
    let b := t / blockThreads
    if lv < T.numLevels then
      let lstart := T.levelStart lv
      let n := T.levelStart (lv + 1) - lstart
      (strided (t % blockThreads) blockThreads n).flatMap fun i =>
        chunkNode H T t b (b * T.poolSize) T.slot (T.order (lstart + i)) ((batchBase + b) * T.superBlocks)
    else []

/-- `uint32_t w = (blockIdx.x * blockDim.x + threadIdx.x) / kWarpSize`. -/
def warpOf (t : Nat) : Nat := t % 2 ^ 32 / warpSize

/-- `k_label_chunk_warp`: one warp for each chunk. -/
def kLabelChunkWarp (batchBase batchCount grid : Nat) : Kernel Cell α where
  threads := grid * blockThreads
  team t := t / warpSize
  barriers := T.numLevels
  body t lv :=
    let w := warpOf t
    let lane := t % blockThreads % warpSize
    if w ≥ batchCount then []
    else if lv < T.numLevels then
      let lstart := T.levelStart lv
      let n := T.levelStart (lv + 1) - lstart
      (strided lane warpSize n).flatMap fun i =>
        chunkNode H T t w (w * T.poolSize) T.slot (T.order (lstart + i)) ((batchBase + w) * T.superBlocks)
    else []

/-- `k_label_chunk_thread`: one thread for each chunk, no barrier. -/
def kLabelChunkThread (batchBase bc grid : Nat) : Kernel Cell α where
  threads := grid * blockThreads
  team t := t
  barriers := 0
  body t _ :=
    if t ≥ bc then []
    else
      (List.range T.count).flatMap fun i =>
        chunkNode H T t t (t * T.poolSize) T.slot (T.order i) ((batchBase + t) * T.superBlocks)

/-- The `t`-th node step of a level of a wave: chunk `t / n`, node `t % n` of the level. -/
def levelNode (thread lstart n t : Nat) : List (Access Cell α) :=
  labelNode H T thread (t / n) (t / n * T.count) (fun id => id) (T.order (lstart + t % n))

/-- `k_label_level`: one level of every chunk of the wave. -/
def kLabelLevel (numSuper lstart nInLevel grid : Nat) : Kernel Cell α where
  threads := grid * blockThreads
  team _ := 0
  barriers := 0
  body t _ := if t ≥ nInLevel * numSuper then [] else levelNode H T t lstart nInLevel t

/-- `k_label_all_levels`: the whole grid walks the levels. -/
def kLabelAllLevels (wCount grid : Nat) : Kernel Cell α where
  threads := grid * blockThreads
  team _ := 0
  barriers := T.numLevels
  body gtid lv :=
    if lv < T.numLevels then
      let lstart := T.levelStart lv
      let n := T.levelStart (lv + 1) - lstart
      (strided gtid (grid * blockThreads) (n * wCount)).flatMap fun t => levelNode H T gtid lstart n t
    else []

/-- `k_extract_outputs`: the outputs of a wave, in rank order. -/
def kExtractOutputs (waveBase wCount cb grid : Nat) : Kernel Cell α where
  threads := grid * blockThreads
  team _ := 0
  barriers := 0
  body t _ :=
    if t ≥ cb * wCount then []
    else [.move (.persist ((waveBase + t / cb) * T.superBlocks + t % cb)) (.work (t / cb * T.count + T.outId (t % cb)))]

/-! ## `label_gpu_run` -/

/-- What the host has issued so far, and the return code if it stops here. -/
structure Issued (α : Type) where
  cmds : List (Command Cell α)
  rc : Int

/-- Go on after the commands of `s`, unless they have failed. -/
def Issued.andThen (s : Issued α) (next : Issued α) : Issued α :=
  if s.rc ≠ 0 then s else ⟨s.cmds ++ next.cmds, next.rc⟩

/-- A launch fails on an empty grid and on one that is too large. -/
def launch (grid : Nat) (k : Kernel Cell α) : Issued α :=
  if 1 ≤ grid ∧ grid ≤ gridMax then ⟨[.launch k], 0⟩ else ⟨[], -1⟩

section Run
variable (sessionSeed : List UInt8) (regionBlockOffset : Nat)

/-- `chunk_index` of super-chunk `j`. -/
def chunkIndex (j : Nat) : Nat := (regionBlockOffset + j * T.chunkBlocks) % 2 ^ 64 / T.chunkBlocks

def copySeeds (base bc : Nat) : Issued α :=
  ⟨[.host fun m c =>
    match c with
    | .seed w => if w < bc then H.chunkSeed sessionSeed (chunkIndex T regionBlockOffset (base + w)) else m c
    | c => m c], 0⟩

/-- `cudaMemset(d_work, 0, blocks * 32)`. -/
def zeroWork (zero : α) (blocks : Nat) : Issued α :=
  ⟨[.host fun m c =>
    match c with
    | .work b => if b < blocks then zero else m c
    | c => m c], 0⟩

def levelLaunches (wCount : Nat) : Issued α :=
  loop T.numLevels (fun lv s =>
    let nInLevel := T.levelCount lv
    if nInLevel = 0 then s
    else
      let grid := (nInLevel * wCount + blockThreads - 1) / blockThreads
      s.andThen (launch grid (kLabelLevel H T wCount (T.levelStart lv) nInLevel grid))) ⟨[], 0⟩

/-- The label launches and the extraction of one wave; `coopGrid` is `0` without cooperative launches. -/
def labelWave (coopGrid base bc : Nat) : Issued α :=
  let wCount := bc % 2 ^ 32
  let grid := (T.chunkBlocks * wCount + blockThreads - 1) / blockThreads
  ((copySeeds H T sessionSeed regionBlockOffset base wCount).andThen
    (if coopGrid > 0 then ⟨[.launch (kLabelAllLevels H T wCount coopGrid)], 0⟩ else levelLaunches H T wCount)).andThen
      (launch grid (kExtractOutputs T base wCount T.chunkBlocks grid))

/-- The launch of one batch of the per-chunk strategies; the grids are `uint32_t`. -/
def labelBatch (s : Strategy) (coopGrid base bc : Nat) : Issued α :=
  let n := bc % 2 ^ 32
  match s with
  | .level => labelWave H T sessionSeed regionBlockOffset coopGrid base bc
  | .block => (copySeeds H T sessionSeed regionBlockOffset base n).andThen (launch n (kLabelChunkBlock H T base n))
  | .warp =>
    let grid := (n + warpsPerBlock - 1) % 2 ^ 32 / warpsPerBlock
    (copySeeds H T sessionSeed regionBlockOffset base n).andThen (launch grid (kLabelChunkWarp H T base n grid))
  | .thread =>
    let grid := (n + blockThreads - 1) % 2 ^ 32 / blockThreads
    (copySeeds H T sessionSeed regionBlockOffset base n).andThen (launch grid (kLabelChunkThread H T base n grid))

/-- How many blocks of scratch (of work buffer) a chunk takes. -/
def regionBlocks (s : Strategy) : Nat := if s.usesSlotMap then T.poolSize else T.count

/-- `label_gpu_run` from the point where the width `P` of a wave or batch is settled: the batches, then the scratch is
zeroed. -/
def labelBatches (s : Strategy) (zero : α) (coopGrid P numSuper : Nat) : Issued α :=
  (batchLoop numSuper P (fun base bc (r : Issued α) => r.andThen (labelBatch H T sessionSeed regionBlockOffset s coopGrid base bc)) 0
    ⟨[], 0⟩).andThen (zeroWork zero (P * regionBlocks T s))

/-- What the host asks the device: free memory, the multiprocessors and the resident blocks on each of them, whether
cooperative launches exist, which sizes the scratch can be allocated with, whether the seed buffers can, and zeros. -/
structure Device (α : Type) where
  freeBytes : Nat
  numSm : Nat
  blocksPerSm : Nat
  coop : Bool
  scratchOk : Nat → Bool
  seedsOk : Bool
  zero : α

/-- How many chunks the device can label at a time: a fixed cap, or the resident blocks, warps or threads. -/
def residentChunks (d : Device α) : Strategy → Nat
  | .level => poseGpuWaveCap
  | .block => d.numSm * (if d.blocksPerSm > 0 then d.blocksPerSm else 1)
  | .warp => d.numSm * (if d.blocksPerSm > 0 then d.blocksPerSm else 1) * warpsPerBlock
  | .thread => d.numSm * (if d.blocksPerSm > 0 then d.blocksPerSm else 1) * blockThreads

/-- Halve the width until the scratch can be allocated. -/
def allocWidth (ok : Nat → Bool) (regionBytes w : Nat) : Option Nat :=
  if _h : w < 1 then none
  else if ok (w * regionBytes) then some w
  else if _h1 : w = 1 then none
  else allocWidth ok regionBytes (w / 2)
termination_by w
decreasing_by omega

/-- The width of a wave or batch before the scratch is allocated: what fits in the free memory, at most what the
device can run at a time and what there is to do, and at least one. -/
def wantedWidth (d : Device α) (s : Strategy) (numSuper : Nat) : Nat :=
  let regionBytes := regionBlocks T s * 32
  let budget := if d.freeBytes > 64 * 2 ^ 20 then d.freeBytes - 64 * 2 ^ 20 else 0
  let w := if regionBytes ≠ 0 then budget / regionBytes else 0
  let w := if w > residentChunks d s then residentChunks d s else w
  let w := if w > numSuper then numSuper else w
  if w = 0 then 1 else w

def poolWidth (d : Device α) (s : Strategy) (numSuper : Nat) : Option Nat :=
  allocWidth d.scratchOk (regionBlocks T s * 32) (wantedWidth T d s numSuper)

def labelGpuRun (s : Strategy) (d : Device α) (numSuper : Nat) : Issued α :=
  if s.usesSlotMap ∧ T.poolSize = 0 then ⟨[], -1⟩
  else
    match poolWidth T d s numSuper with
    | none => ⟨[], -1⟩
    | some P =>
      if d.seedsOk then
        let coopGrid := if d.coop then d.numSm * d.blocksPerSm else 0
        labelBatches H T sessionSeed regionBlockOffset s d.zero coopGrid P numSuper
      else ⟨[], -1⟩

def poseGraphHbmTopoLabel (s : Strategy) (d : Device α) (hbmLen : Nat) : Issued α :=
  let numSuper := hbmLen / (T.superBlocks * 32)
  if numSuper = 0 then ⟨[], 0⟩ else labelGpuRun H T sessionSeed regionBlockOffset s d numSuper

end Run

def poseGraphLabelHbm (sessionSeed : List UInt8) (s : Strategy) (d : Device α) (chunkBlocks hbmLen regionBlockOffset : Nat)
    (algo : PoseHashAlgo) (heap : TopoHeap) : Issued α :=
  if algo ≠ .blake3 then ⟨[], -1⟩
  else
    let chunkBlocks := if chunkBlocks = 0 then poseChunkBlocks else chunkBlocks
    let superBlocks := poseGraphSuperChunkBlocks chunkBlocks
    if superBlocks = 0 ∨ superBlocks > 0xFFFFFFFF then ⟨[], -1⟩
    else if hbmLen / (superBlocks * 32) = 0 then ⟨[], 0⟩
    else
      match poseGraphHbmTopoBuild H s chunkBlocks algo heap with
      | none => ⟨[], -1⟩
      | some T => poseGraphHbmTopoLabel H T sessionSeed regionBlockOffset s d hbmLen

end PoseDB.Cuda
