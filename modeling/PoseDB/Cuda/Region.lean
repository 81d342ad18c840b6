import PoseDB.Cuda.Runs

/-!
# The entry points of the device (`pose_graph_hbm_topo_label`, `pose_graph_label_hbm`)

**`labelBatches_runs`**: for every strategy and every width of a batch that the kernels carry, every run of the
threads ends with the labels of the recorded graph in the persisted region. **`poseGraphLabelHbm_eq_inplace`**:
whatever the device offers, a call that succeeds leaves the blocks that the labeling in place on the CPU leaves.
-/

set_option autoImplicit false

namespace PoseDB.Cuda
open Loops Threads PoseDB.Graph Bucket Region

variable {α : Type} (H : PoseHash α)

/-! ## The width of a batch -/

/-- Halving finds a width when the scratch of one chunk can be allocated. -/
theorem allocWidth_spec {ok : Nat → Bool} {bytes w : Nat} (hw : 1 ≤ w) (hok : ok bytes = true) :
    ∃ P, allocWidth ok bytes w = some P ∧ 1 ≤ P ∧ P ≤ w := by
  induction w using Nat.strongRecOn with
  | _ w ih =>
    rw [allocWidth, dif_neg (Nat.not_lt.mpr hw)]
    split
    · exact ⟨w, rfl, hw, le_rfl⟩
    · rename_i hno
      by_cases h1 : w = 1
      · rw [h1, Nat.one_mul] at hno
        exact absurd hok hno
      · rw [dif_neg h1]
        obtain ⟨P, hP, hpos, hle⟩ := ih (w / 2) (by omega) (by omega)
        exact ⟨P, hP, hpos, hle.trans (Nat.div_le_self w 2)⟩

/-- A width that is found is at least one and within the capacity of the device. -/
theorem allocWidth_le {ok : Nat → Bool} {bytes w P : Nat} (h : allocWidth ok bytes w = some P) : 1 ≤ P ∧ P ≤ w := by
  induction w using Nat.strongRecOn with
  | _ w ih =>
    rw [allocWidth] at h
    split at h
    · cases h
    · split at h
      · cases h
        exact ⟨by omega, le_rfl⟩
      · split at h
        · cases h
        · obtain ⟨h1, h2⟩ := ih (w / 2) (by omega) h
          exact ⟨h1, h2.trans (Nat.div_le_self w 2)⟩

theorem wantedWidth_bounds (T : Topo α) (d : Device α) (s : Strategy) {N : Nat} (hN : 1 ≤ N) :
    1 ≤ wantedWidth T d s N ∧ wantedWidth T d s N ≤ max 1 (residentChunks d s) ∧ wantedWidth T d s N ≤ N := by
  unfold wantedWidth
  dsimp only
  generalize (if regionBlocks T s * 32 ≠ 0 then _ else 0) = w
  split <;> split <;> split <;> omega

theorem poolWidth_le {T : Topo α} {d : Device α} {s : Strategy} {N P : Nat} (hN : 1 ≤ N)
    (h : poolWidth T d s N = some P) : 1 ≤ P ∧ P ≤ max 1 (residentChunks d s) := by
  obtain ⟨h1, h2⟩ := allocWidth_le h
  exact ⟨h1, h2.trans (wantedWidth_bounds T d s hN).2.1⟩

/-- The width exists when the scratch of one chunk can be allocated. -/
theorem poolWidth_some {T : Topo α} {d : Device α} {s : Strategy} {N : Nat} (hN : 1 ≤ N)
    (hok : d.scratchOk (regionBlocks T s * 32) = true) : ∃ P, poolWidth T d s N = some P := by
  obtain ⟨P, hP, -⟩ := allocWidth_spec (wantedWidth_bounds T d s hN).1 hok
  exact ⟨P, hP⟩

/-! ## The labels -/

theorem chunkIndex_eq {T : Topo α} {m o N j : Nat} (hchunk : T.chunkBlocks = m) (ho : o + N * m < 2 ^ 64) (hj : j < N) :
    chunkIndex T o j = (o + j * m) / m := by
  have hle : j * m ≤ N * m := Nat.mul_le_mul_right m (Nat.le_of_lt hj)
  unfold chunkIndex
  rw [hchunk, Nat.mod_eq_of_lt (by omega)]

/-- **Every strategy labels the region, on every run.** With a topology that was built for `c`, for every number `N`
of super-chunks and every width `P` of a wave or batch up to what the kernels carry, and from any memory: the commands
are issued, and whatever the order in which the threads are scheduled between barriers they end, with the label of
rank `r` of super-chunk `j` in block `c * j + r` of the persisted region, evaluated over the recorded graph under the
seed of chunk `(o + j * c) / c`; with the rest of the region untouched; and with the scratch zeroed. -/
theorem labelBatches_runs (s : Strategy) (sessionSeed : List UInt8) (c o N P coopGrid : Nat) (zero : α)
    (heap : TopoHeap) (T : Topo α) (hT : poseGraphHbmTopoBuild H s c .blake3 heap = some T) (hP : 1 ≤ P)
    (hwidth : P ≤ s.maxWidth) (ho : o + N * resolveChunkBlocks c < 2 ^ 64) (mem : Cell → α) :
    ∃ E, poseGraphEdges (resolveChunkBlocks c) heap.edges = some E ∧
      let r := labelBatches H T sessionSeed o s zero coopGrid P N
      r.rc = 0 ∧ Completes r.cmds (fun mem' =>
        (∀ j < N, ∀ id < E.count, 0 ≤ (E.nodes id).challengeRank →
          mem' (.persist (j * resolveChunkBlocks c + (E.nodes id).challengeRank.toNat)) =
            graphLabels H (H.chunkSeed sessionSeed ((o + j * resolveChunkBlocks c) / resolveChunkBlocks c))
              (H.graphDescriptor (resolveChunkBlocks c) (poseGraphParameterN (resolveChunkBlocks c))) E id) ∧
        (∀ b, N * resolveChunkBlocks c ≤ b → mem' (.persist b) = mem (.persist b)) ∧
        ∀ b < P * regionBlocks T s, mem' (.work b) = zero) mem := by
  obtain ⟨E, level, -, hmax, hE, hrec, hT, hdesc, hplaces⟩ := poseGraphHbmTopoBuild_describes hT
  obtain ⟨⟨hrc, hrace, hout, hframe⟩, hzero⟩ := labelBatches_labelled H sessionSeed o hrec hT
    (resolveChunkBlocks_pos c) hmax s hplaces zero coopGrid hP hwidth N
  refine ⟨E, hE, hrc, completes_of_raceFree hrace ⟨fun j hj id hid hr => ?_, fun b hb => ?_, hzero mem⟩⟩
  · have h := hout mem j hj id hid hr
    rw [Nat.zero_add, hT.super, nodeLabel, chunkIndex_eq hT.chunk ho hj, hdesc] at h
    exact h
  · refine hframe mem b (.inr ?_)
    rw [Nat.zero_add, hT.super]
    exact hb

/-- Five chunks of three blocks, two at a time; all bytes were 7 before. -/
theorem labelBatches_runs_five : ∃ T E, poseGraphHbmTopoBuild natHash .warp 3 .blake3 TopoHeap.zero = some T ∧
    poseGraphEdges 3 TopoHeap.zero.edges = some E ∧
    let r := labelBatches natHash T [] 6 .warp 0 0 2 5
    r.rc = 0 ∧ Completes r.cmds (fun mem' =>
      (∀ id < E.count, (E.nodes id).challengeRank = 1 → mem' (.persist (4 * 3 + 1)) =
        graphLabels natHash (natHash.chunkSeed [] 6) (natHash.graphDescriptor 3 (poseGraphParameterN 3)) E id) ∧
      mem' (.persist 15) = 7 ∧ ∀ b < 2 * regionBlocks T .warp, mem' (.work b) = 0) fun _ => 7 := by
  obtain ⟨T, hT⟩ := poseGraphHbmTopoBuild_succeeds natHash .warp (c := 3) (by decide) TopoHeap.zero_full
  obtain ⟨E, hE, hrc, hruns⟩ := labelBatches_runs natHash .warp [] 3 6 5 2 0 0 TopoHeap.zero T hT (by decide) (by decide)
    (by decide) fun _ => 7
  refine ⟨T, E, hT, hE, hrc, hruns.mono fun mem' h => ⟨fun id hid hrank => ?_, h.2.1 15 (by decide), h.2.2⟩⟩
  have hlabel := h.1 4 (by decide) id hid (by rw [hrank]; decide)
  rw [hrank] at hlabel
  exact hlabel

/-! ## The calls -/

/-- What `label_gpu_run` needs to be able to label `N` super-chunks: not more at a time than the kernels carry. -/
theorem labelGpuRun_labelled {T : Topo α} {m : Nat} {E : EdgeList} {level : Nat → Nat} {sessionSeed : List UInt8}
    {o N : Nat} {s : Strategy} {d : Device α} (hrec : RecordsScaffold m E) (hT : T.Describes m E level) (hm : 0 < m)
    (hmax : m ≤ poseGraphMaxM)
    (hplaces : s.usesSlotMap = true → ∃ lastUse, Places E.nodes E.count level lastUse T.slot T.poolSize)
    (hres : residentChunks d s ≤ s.maxWidth) (hN : 1 ≤ N) (hrc : (labelGpuRun H T sessionSeed o s d N).rc = 0) :
    Labelled H T E sessionSeed o (labelGpuRun H T sessionSeed o s d N) 0 N := by
  unfold labelGpuRun at hrc ⊢
  split at hrc
  · cases hrc
  · rename_i hpool
    rw [if_neg hpool]
    split at hrc
    · cases hrc
    · rename_i P hP
      split at hrc
      · rename_i hseeds
        rw [if_pos hseeds]
        obtain ⟨h1, hle⟩ := poolWidth_le hN hP
        have hwidth : P ≤ s.maxWidth := hle.trans (max_le (maxWidth_pos s) hres)
        exact (labelBatches_labelled H sessionSeed o hrec hT hm hmax s hplaces d.zero _ h1 hwidth N).1
      · cases hrc

/-- `label_gpu_run` succeeds when the scratch of one chunk and the seed buffers can be allocated. -/
theorem labelGpuRun_succeeds {T : Topo α} {m : Nat} {E : EdgeList} {level : Nat → Nat} {sessionSeed : List UInt8}
    {o N : Nat} {s : Strategy} {d : Device α} (hrec : RecordsScaffold m E) (hT : T.Describes m E level) (hm : 0 < m)
    (hmax : m ≤ poseGraphMaxM)
    (hplaces : s.usesSlotMap = true → ∃ lastUse, Places E.nodes E.count level lastUse T.slot T.poolSize)
    (hres : residentChunks d s ≤ s.maxWidth) (hN : 1 ≤ N) (hok : d.scratchOk (regionBlocks T s * 32) = true)
    (hseeds : d.seedsOk = true) : (labelGpuRun H T sessionSeed o s d N).rc = 0 := by
  have hpos : 0 < E.count := by
    have := standaloneNodeCount_pos (poseGraphParameterN m + 1)
    rw [hrec.count, scratchNodeCount]
    omega
  have hpool : ¬(s.usesSlotMap = true ∧ T.poolSize = 0) := by
    rintro ⟨hs, h0⟩
    obtain ⟨lastUse, hplaces⟩ := hplaces hs
    have := hplaces.slot_lt 0 hpos
    omega
  obtain ⟨P, hP⟩ := poolWidth_some (N := N) hN hok
  obtain ⟨h1, hle⟩ := poolWidth_le hN hP
  have hwidth : P ≤ s.maxWidth := hle.trans (max_le (maxWidth_pos s) hres)
  unfold labelGpuRun
  rw [if_neg hpool, hP]
  dsimp only
  rw [if_pos hseeds]
  exact (labelBatches_labelled H sessionSeed o hrec hT hm hmax s hplaces d.zero _ h1 hwidth N).1.rc

/-- A labeling call with a built topology: the blocks that it leaves when it succeeds are the labels that the verifier
recomputes, the rest is untouched. -/
theorem poseGraphHbmTopoLabel_runs {s : Strategy} {d : Device α} {sessionSeed : List UInt8} {c o B : Nat}
    {algo : PoseHashAlgo} {heap : TopoHeap} {T : Topo α} (hbuild : poseGraphHbmTopoBuild H s c algo heap = some T)
    (hres : residentChunks d s ≤ s.maxWidth) (hc : resolveChunkBlocks c ∣ o) (ho : o + B < 2 ^ 64)
    (hrc : (poseGraphHbmTopoLabel H T sessionSeed o s d (32 * B)).rc = 0) (mem : Cell → α) :
    Completes (poseGraphHbmTopoLabel H T sessionSeed o s d (32 * B)).cmds (fun mem' => ∀ b,
      mem' (.persist b) = if b < resolveChunkBlocks c * (B / resolveChunkBlocks c) then
        blockLabel H sessionSeed .blake3 (resolveChunkBlocks c) o B b else mem (.persist b)) mem := by
  have hm : 0 < resolveChunkBlocks c := resolveChunkBlocks_pos c
  obtain ⟨E, level, -, hmax, -, hrec, hT, hdesc, hplaces⟩ := poseGraphHbmTopoBuild_describes hbuild
  generalize resolveChunkBlocks c = m at hm hmax hrec hT hdesc hc ⊢
  have hN : 32 * B / (m * 32) = B / m := by rw [Nat.mul_comm m 32, Nat.mul_div_mul_left B m (by decide)]
  unfold poseGraphHbmTopoLabel at hrc ⊢
  simp only [hT.super, hN] at hrc ⊢
  split at hrc
  · rename_i h0
    rw [if_pos h0]
    intro b
    rw [h0, Nat.mul_zero, if_neg (Nat.not_lt_zero b)]
  · rename_i h0
    rw [if_neg h0]
    obtain ⟨-, hrace, hout, hframe⟩ := labelGpuRun_labelled H hrec hT hm hmax hplaces hres (Nat.pos_of_ne_zero h0) hrc
    refine completes_of_raceFree hrace fun b => ?_
    have hle : m * (B / m) ≤ B := Nat.mul_div_le B m
    split
    · rename_i hb
      have hj : b / m < B / m := Nat.div_lt_of_lt_mul hb
      have hr : b % m < m := Nat.mod_lt b hm
      have hj' : m * (b / m + 1) ≤ m * (B / m) := Nat.mul_le_mul_left m hj
      rw [Nat.mul_succ] at hj'
      have hrank := hrec.rank (b % m) hr
      obtain ⟨hid, -⟩ := challengeNode_half hr
      rw [← hrec.count] at hid
      have hnode := hout mem (b / m) hj _ hid (by rw [hrank]; omega)
      rw [hrank, Int.toNat_natCast, hT.super, Nat.zero_add, nodeLabel, hdesc,
        graphLabels_chunkLabel H hrec hm hmax _ hid (by rw [hrank]; omega), hrank, Int.toNat_natCast] at hnode
      have hblock : blockLabel H sessionSeed .blake3 m o B (m * (b / m) + b % m) = _ := blockLabel_chunk hc hr
      rw [Nat.div_add_mod, Nat.min_eq_left (by omega)] at hblock
      rw [hblock, Nat.mul_comm m (b / m), ← chunkIndex_eq (N := B / m) hT.chunk (by rw [Nat.mul_comm]; omega) hj, ← hnode,
        Nat.mul_comm (b / m) m, Nat.div_add_mod]
    · rename_i hb
      refine hframe mem b (.inr ?_)
      rw [Nat.zero_add, hT.super, Nat.mul_comm]
      omega

theorem poseGraphLabelHbm_runs {s : Strategy} {d : Device α} {sessionSeed : List UInt8} {c o B : Nat}
    {algo : PoseHashAlgo} (hres : residentChunks d s ≤ s.maxWidth) (hc : resolveChunkBlocks c ∣ o)
    (ho : o + B < 2 ^ 64) {heap : TopoHeap}
    (hrc : (poseGraphLabelHbm H sessionSeed s d c (32 * B) o algo heap).rc = 0) (mem : Cell → α) :
    Completes (poseGraphLabelHbm H sessionSeed s d c (32 * B) o algo heap).cmds (fun mem' => ∀ b,
      mem' (.persist b) = if b < resolveChunkBlocks c * (B / resolveChunkBlocks c) then
        blockLabel H sessionSeed .blake3 (resolveChunkBlocks c) o B b else mem (.persist b)) mem := by
  have hresolve := resolveChunkBlocks_resolve c
  have hN : 32 * B / (resolveChunkBlocks c * 32) = B / resolveChunkBlocks c := by
    rw [Nat.mul_comm _ 32, Nat.mul_div_mul_left B _ (by decide)]
  unfold poseGraphLabelHbm at hrc ⊢
  simp only [ite_chunkBlocks, poseGraphSuperChunkBlocks, hresolve] at hrc ⊢
  split at hrc
  · cases hrc
  · rename_i halgo
    rw [if_neg halgo]
    split at hrc
    · cases hrc
    · rename_i hsuper
      rw [if_neg hsuper]
      split at hrc
      · rename_i h0
        rw [if_pos h0]
        intro b
        rw [hN] at h0
        rw [h0, Nat.mul_zero, if_neg (Nat.not_lt_zero b)]
      · rename_i h0
        rw [if_neg h0]
        split at hrc
        · cases hrc
        · rename_i T hbuild
          have hruns := poseGraphHbmTopoLabel_runs H hbuild hres (hresolve.symm ▸ hc) ho hrc mem
          rwa [hresolve] at hruns

/-- A labeling call with a built topology succeeds when the scratch of one chunk and the seed buffers can be
allocated. -/
theorem poseGraphHbmTopoLabel_succeeds {s : Strategy} {d : Device α} (sessionSeed : List UInt8) {c : Nat}
    (o hbmLen : Nat) {algo : PoseHashAlgo} {heap : TopoHeap} {T : Topo α}
    (hbuild : poseGraphHbmTopoBuild H s c algo heap = some T) (hres : residentChunks d s ≤ s.maxWidth)
    (hok : ∀ bytes, d.scratchOk bytes = true) (hseeds : d.seedsOk = true) :
    (poseGraphHbmTopoLabel H T sessionSeed o s d hbmLen).rc = 0 := by
  obtain ⟨E, level, -, hmax, -, hrec, hT, -, hplaces⟩ := poseGraphHbmTopoBuild_describes hbuild
  unfold poseGraphHbmTopoLabel
  simp only [hT.super]
  split
  · rfl
  · rename_i h0
    exact labelGpuRun_succeeds H hrec hT (resolveChunkBlocks_pos c) hmax hplaces hres (Nat.pos_of_ne_zero h0) (hok _) hseeds

theorem poseGraphLabelHbm_succeeds {s : Strategy} {d : Device α} (sessionSeed : List UInt8) {c : Nat} (o hbmLen : Nat)
    (hmax : resolveChunkBlocks c ≤ poseGraphMaxM) (hres : residentChunks d s ≤ s.maxWidth) {heap : TopoHeap}
    (hfull : heap.Full) (hok : ∀ bytes, d.scratchOk bytes = true) (hseeds : d.seedsOk = true) :
    (poseGraphLabelHbm H sessionSeed s d c hbmLen o .blake3 heap).rc = 0 := by
  have hm : 0 < resolveChunkBlocks c := resolveChunkBlocks_pos c
  have hsuper : ¬(resolveChunkBlocks c = 0 ∨ resolveChunkBlocks c > 0xFFFFFFFF) := by
    have := hmax.trans_lt (show poseGraphMaxM < 2 ^ 32 by decide)
    omega
  unfold poseGraphLabelHbm
  simp only [ite_chunkBlocks, poseGraphSuperChunkBlocks, resolveChunkBlocks_resolve]
  rw [if_neg (not_not.mpr rfl), if_neg hsuper]
  split
  · rfl
  · obtain ⟨T, hbuild⟩ := poseGraphHbmTopoBuild_succeeds H s (c := resolveChunkBlocks c)
      (by rwa [resolveChunkBlocks_resolve]) hfull
    rw [hbuild]
    exact poseGraphHbmTopoLabel_succeeds H sessionSeed o hbmLen hbuild hres hok hseeds

/-- **The device and the CPU label a region alike.** Where a call on the device and the labeling in place by the pool
both return `0`, for whatever strategy, device and order of threads on the one side and workers on the other, they
leave the same blocks, the tail that no super-chunk fits in included. -/
theorem poseGraphLabelHbm_eq_inplace {s : Strategy} {d : Device α} {sessionSeed : List UInt8} {c o B p : Nat}
    (hc : 1 ≤ c) (hmax : c ≤ poseGraphMaxM) (hB : 1 ≤ B) (hdvd : c ∣ o) (ho : o + B < 2 ^ 64)
    (hres : residentChunks d s ≤ s.maxWidth) {heap : TopoHeap}
    (hrc : (poseGraphLabelHbm H sessionSeed s d c (32 * B) o .blake3 heap).rc = 0) (sched : Schedule)
    (host : RegionState α)
    (hrc' : (poseGraphLabelRegionPooledInplace H sessionSeed (some p) (poseHashBytes * B) o .blake3 c sched host).1 = 0)
    (mem : Cell → α) (hmem : ∀ b < B, mem (.persist b) = host.mem (p + b)) :
    Completes (poseGraphLabelHbm H sessionSeed s d c (32 * B) o .blake3 heap).cmds (fun mem' => ∀ b < B,
      mem' (.persist b) = (poseGraphLabelRegionPooledInplace H sessionSeed (some p) (poseHashBytes * B) o .blake3 c sched
        host).2.mem (p + b)) mem := by
  have hresolve : resolveChunkBlocks c = c := if_pos (Nat.ne_of_gt hc)
  have hpaint := inplace_paints (H := H) sched hc hmax hB hdvd ho hrc'
  refine (poseGraphLabelHbm_runs H hres (hresolve.symm ▸ hdvd) ho hrc mem).mono fun mem' h b hb => ?_
  rw [h b, hresolve]
  split
  · rename_i hlt
    have hblock := (hpaint (p + b)).1 ⟨Nat.le_add_right p b, Nat.add_lt_add_left hlt p⟩
    dsimp only at hblock
    rw [hblock, Nat.add_sub_cancel_left]
  · rename_i hge
    have hout : p + b ∉ Set.Ico p (p + c * (B / c)) := fun hin => hge (Nat.lt_of_add_lt_add_left hin.2)
    rw [(hpaint (p + b)).2 hout]
    exact hmem b hb

/-- Five blocks in chunks of two at block offset four, on a device with four multiprocessors. -/
theorem poseGraphLabelHbm_eq_inplace_five :
    Completes (poseGraphLabelHbm natHash [] .thread ⟨2 ^ 30, 4, 2, false, fun _ => true, true, 0⟩ 2 (32 * 5) 4 .blake3
      TopoHeap.zero).cmds (fun mem' => ∀ b < 5, mem' (.persist b) =
        (poseGraphLabelRegionPooledInplace natHash [] (some 10) (poseHashBytes * 5) 4 .blake3 2 .inOrder
          ⟨fun _ => 0, fun _ => ⟨fun _ => 0, fun _ => 0⟩, fun _ => ⟨0, 0, 0, 0, 0, .sha256, false, none⟩, [], false⟩).2.mem
            (10 + b)) fun _ => 0 :=
  poseGraphLabelHbm_eq_inplace natHash (by decide) (by decide) (by decide) (by decide) (by decide) (by decide)
    (poseGraphLabelHbm_succeeds natHash [] 4 (32 * 5) (by decide) (by decide) TopoHeap.zero_full (fun _ => rfl) rfl)
    .inOrder _ (inplace_succeeds .inOrder (by decide) (by decide) (by decide) (by decide) (by decide)) (fun _ => 0)
    fun _ _ => rfl

end PoseDB.Cuda
