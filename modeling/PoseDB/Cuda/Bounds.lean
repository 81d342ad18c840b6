import PoseDB.Cuda.Region

/-!
# The buffers of the device, and a batch that is too wide

**`labelBatches_within`**: no thread of any launch reads or writes outside the buffers of a batch.
**`warp_unlabelled`**: the bound of `labelBatches_runs` on the width cannot be left out. The warps of a batch have
32-bit thread indices, so with more than `2 ^ 27` chunks the call returns `0` and chunk `2 ^ 27` is not labelled.
-/

set_option autoImplicit false

namespace PoseDB.Cuda
open Loops Threads PoseDB.Graph Bucket Region

variable {α : Type} (H : PoseHash α)

/-! ## The buffers -/

/-- Cells of buffers of these numbers of blocks; a thread has its own label. -/
def Cell.In (persists works seeds : Nat) : Cell → Prop
  | .persist b => b < persists
  | .work b => b < works
  | .seed w => w < seeds
  | .reg _ => True

section Bounds
variable {H} {T : Topo α} {Λ : Layout} {m : Nat} {E : EdgeList} {level lastUse : Nat → Nat} {N P : Nat}

theorem Layout.Fits.place_in (hΛ : Λ.Fits m E level lastUse) {w id : Nat} (hw : w < P) (hid : id < E.count) :
    (Λ.place w id).In (N * T.superBlocks) (P * Λ.pool) P := by
  have hlt := mul_add_lt (hΛ.places.slot_lt id hid) hw
  exact hlt.trans_eq (Nat.mul_comm _ _)

theorem nodeStep_within (hrec : RecordsScaffold m E) (hT : T.Describes m E level) (hΛ : Λ.Fits m E level lastUse)
    {j : Job} (hid : j.id < E.count) (hchunk : j.chunk < P) (hsuper : Λ.batchBase + j.chunk < N) :
    ∀ a ∈ nodeStep H T Λ j, a.Within (Cell.In (N * T.superBlocks) (P * Λ.pool) P) := by
  have hplace := hΛ.place_in (T := T) (N := N) hchunk hid
  intro a ha
  rcases mem_nodeStep H T Λ ha with rfl | rfl | ⟨hr, rfl⟩
  · refine ⟨trivial, fun c hc => ?_⟩
    rcases hashNode_reads hT hid hc with rfl | ⟨p, hp, rfl⟩
    · exact hchunk
    · exact hΛ.place_in hchunk (((hrec.descends _ hid).2 p hp).trans hid)
  · exact ⟨hplace, fun c hc => hc ▸ trivial⟩
  · refine ⟨?_, fun c hc => hc ▸ hplace⟩
    have hrank := hΛ.rank j.id hid hr
    have hlt : (Λ.rank j.id).toNat < T.superBlocks := by
      rw [hT.super, hrank]
      exact rank_lt hrec hid (hrank ▸ hr)
    have hout := mul_add_lt hlt hsuper
    exact hout.trans_eq (Nat.mul_comm _ _)

theorem Makes.within (hrec : RecordsScaffold m E) (hT : T.Describes m E level) (hΛ : Λ.Fits m E level lastUse)
    {k : Kernel Cell α} {S : Shares} {bc : Nat} (hk : Makes k S H T Λ) (hS : S.Covers level E.count bc) (hbc : bc ≤ P)
    (hN : Λ.batchBase + bc ≤ N) : (Command.launch k).Within (Cell.In (N * T.superBlocks) (P * Λ.pool) P) := by
  intro t ht p hp a ha
  rw [hk.body t ht p hp] at ha
  obtain ⟨j, hj, ha⟩ := List.mem_flatMap.mp ha
  obtain ⟨-, hchunk, hid⟩ := hS.own p t j hj
  exact nodeStep_within hrec hT hΛ hid (by omega) (by omega) a ha

theorem kLabelLevel_within (hrec : RecordsScaffold m E) (hT : T.Describes m E level) {B bc lv : Nat}
    (hlv : lv < T.numLevels) (hbc : bc ≤ P) (hN : B + bc ≤ N) (grid : Nat) :
    (Command.launch (kLabelLevel H T bc (T.levelStart lv) (levelSize T lv) grid)).Within
      (Cell.In (N * T.superBlocks) (P * T.count) P) := by
  intro t _ p _ a ha
  simp only [kLabelLevel] at ha
  split at ha
  · cases ha
  · rename_i ht
    rw [levelNode_eq B] at ha
    obtain ⟨hchunk, hid, -⟩ := position_level hT t hlv (Nat.not_le.mp ht)
    exact nodeStep_within hrec hT (levelLayout_fits hT B) hid (by omega) (Nat.lt_of_lt_of_le (Nat.add_lt_add_left hchunk B) hN) a ha

theorem kExtractOutputs_within (hrec : RecordsScaffold m E) (hT : T.Describes m E level) (hm : 0 < m) {B bc : Nat}
    (hbc : bc ≤ P) (hN : B + bc ≤ N) (grid : Nat) :
    (Command.launch (kExtractOutputs T B bc m grid)).Within (Cell.In (N * T.superBlocks) (P * T.count) P) := by
  intro t _ p _ a ha
  rw [kExtractOutputs_body] at ha
  split at ha
  · rename_i ht
    rw [List.mem_singleton.mp ha]
    have hw : t / m < bc := Nat.div_lt_of_lt_mul ht
    have hr := Nat.mod_lt t hm
    constructor
    · have hout := mul_add_lt (hr.trans_eq hT.super.symm) (show B + t / m < N by omega)
      exact hout.trans_eq (Nat.mul_comm _ _)
    · rintro c rfl
      have hid : T.outId (t % m) < T.count := by
        obtain ⟨hid, -⟩ := challengeNode_half hr
        rw [← hrec.count] at hid
        have hrank := hrec.rank (t % m) hr
        have hout := hT.outId _ hid (by rw [hrank]; omega)
        rw [hrank, Int.toNat_natCast] at hout
        rw [hout, hT.count]
        exact hid
      have hwork := mul_add_lt hid (hw.trans_le hbc)
      exact hwork.trans_eq (Nat.mul_comm _ _)
  · cases ha

theorem Issued.andThen_within {I : Cell → Prop} {r next : Issued α} (hr : ∀ x ∈ r.cmds, x.Within I)
    (hnext : ∀ x ∈ next.cmds, x.Within I) : ∀ x ∈ (r.andThen next).cmds, x.Within I := by
  unfold Issued.andThen
  split
  · exact hr
  · intro x hx
    rcases List.mem_append.mp hx with hx | hx
    · exact hr x hx
    · exact hnext x hx

theorem launch_within {I : Cell → Prop} {grid : Nat} {k : Kernel Cell α} (h : (Command.launch k).Within I) :
    ∀ x ∈ (launch grid k).cmds, x.Within I := by
  unfold launch
  split
  · intro x hx
    rw [List.mem_singleton.mp hx]
    exact h
  · exact fun _ hx => (List.not_mem_nil hx).elim

theorem copySeeds_within (sessionSeed : List UInt8) (o base : Nat) {persists works bc : Nat} (hbc : bc ≤ P) :
    ∀ x ∈ (copySeeds H T sessionSeed o base bc).cmds, x.Within (Cell.In persists works P) := by
  intro x hx
  rw [List.mem_singleton.mp hx]
  rintro mem (b | b | w | t) hout
  · rfl
  · rfl
  · exact if_neg fun hw => hout (hw.trans_le hbc)
  · rfl

theorem zeroWork_within (zero : α) {persists works seeds : Nat} :
    ∀ x ∈ (zeroWork zero works).cmds, x.Within (Cell.In persists works seeds) := by
  intro x hx
  rw [List.mem_singleton.mp hx]
  rintro mem (b | b | w | t) hout
  · rfl
  · exact if_neg hout
  · rfl
  · rfl

variable (H) in
theorem labelBatch_within (sessionSeed : List UInt8) (o : Nat) (hrec : RecordsScaffold m E) (hT : T.Describes m E level)
    (hm : 0 < m) (s : Strategy)
    (hplaces : s.usesSlotMap = true → ∃ lastUse, Places E.nodes E.count level lastUse T.slot T.poolSize)
    (coopGrid base : Nat) {bc : Nat} (hbc : bc ≤ P) (hN : base + bc ≤ N) (hwidth : bc ≤ s.maxWidth) :
    ∀ x ∈ (labelBatch H T sessionSeed o s coopGrid base bc).cmds,
      x.Within (Cell.In (N * T.superBlocks) (P * regionBlocks T s) P) := by
  have hmod : bc % 2 ^ 32 = bc := Nat.mod_eq_of_lt (hwidth.trans_lt (maxWidth_lt s))
  cases s with
  | level =>
    simp only [labelBatch, labelWave, hmod, hT.chunk]
    refine Issued.andThen_within (Issued.andThen_within (copySeeds_within sessionSeed o base hbc) ?_)
      (launch_within (kExtractOutputs_within hrec hT hm hbc hN _))
    split
    · rename_i hcoop
      intro x hx
      rw [List.mem_singleton.mp hx]
      exact kLabelAllLevels_makes.within hrec hT (levelLayout_fits hT base)
        ((gridPositions_positions T bc (Nat.mul_pos hcoop (by decide))).covers hT) hbc hN
    · refine loop_inv (fun _ (r : Issued α) => ∀ x ∈ r.cmds, x.Within _) (fun _ h => (List.not_mem_nil h).elim) ?_
      intro lv r hlv hr
      rw [levelCount_eq hT hlv]
      dsimp only
      split
      · exact hr
      · exact Issued.andThen_within hr (launch_within (kLabelLevel_within hrec hT hlv hbc hN _))
  | block =>
    obtain ⟨lastUse, hplaces⟩ := hplaces rfl
    simp only [labelBatch, hmod]
    exact Issued.andThen_within (copySeeds_within sessionSeed o base hbc) (launch_within (kLabelChunkBlock_makes.within
      hrec hT (chunkLayout_fits hT hplaces base) ((teamPositions_positions T (by decide) le_rfl).covers hT) hbc hN))
  | warp =>
    obtain ⟨lastUse, hplaces⟩ := hplaces rfl
    obtain ⟨-, hgrid, hthreads⟩ := warpGrid_bounds hwidth
    simp only [labelBatch, hmod]
    exact Issued.andThen_within (copySeeds_within sessionSeed o base hbc) (launch_within ((kLabelChunkWarp_makes hgrid).within
      hrec hT (chunkLayout_fits hT hplaces base) ((teamPositions_positions T (by decide) hthreads).covers hT) hbc hN))
  | thread =>
    obtain ⟨lastUse, hplaces⟩ := hplaces rfl
    obtain ⟨-, hthreads⟩ := threadGrid_bounds hwidth
    simp only [labelBatch, hmod]
    exact Issued.andThen_within (copySeeds_within sessionSeed o base hbc) (launch_within (kLabelChunkThread_makes.within
      hrec hT (chunkLayout_fits hT hplaces base) (threadShares_covers hT hthreads) hbc hN))

end Bounds

/-- **Nothing outside the buffers is touched.** No thread of any launch reads or writes a block outside the persisted
region of the `N` super-chunks, the scratch of `P` chunks and their seeds, whatever the order of the threads; nor do
the copies of the host. -/
theorem labelBatches_within (s : Strategy) (sessionSeed : List UInt8) (c o N P coopGrid : Nat) (zero : α)
    (heap : TopoHeap) (T : Topo α) (hT : poseGraphHbmTopoBuild H s c .blake3 heap = some T) (hP : 1 ≤ P)
    (hwidth : P ≤ s.maxWidth) :
    ∀ x ∈ (labelBatches H T sessionSeed o s zero coopGrid P N).cmds,
      x.Within (Cell.In (N * resolveChunkBlocks c) (P * regionBlocks T s) P) := by
  obtain ⟨E, level, -, -, -, hrec, hT, -, hplaces⟩ := poseGraphHbmTopoBuild_describes hT
  rw [← hT.super]
  refine Issued.andThen_within ?_ (zeroWork_within zero)
  refine batchLoop_inv (show 0 < P by omega) (fun _ (r : Issued α) => ∀ x ∈ r.cmds, x.Within _) ?_ (Nat.zero_le N)
    fun _ h => (List.not_mem_nil h).elim
  intro i bc r hle _ hbc hr
  exact Issued.andThen_within hr (labelBatch_within H sessionSeed o hrec hT (resolveChunkBlocks_pos c) s hplaces coopGrid i
    hbc hle (hbc.trans hwidth))

/-- Five chunks of three blocks, two at a time. -/
theorem labelBatches_within_five : ∃ T, poseGraphHbmTopoBuild natHash .level 3 .blake3 TopoHeap.zero = some T ∧
    ∀ x ∈ (labelBatches natHash T [] 6 .level 0 8 2 5).cmds, x.Within (Cell.In (5 * 3) (2 * regionBlocks T .level) 2) := by
  obtain ⟨T, hT⟩ := poseGraphHbmTopoBuild_succeeds natHash .level (c := 3) (by decide) TopoHeap.zero_full
  exact ⟨T, hT, labelBatches_within natHash .level [] 3 6 5 2 8 0 TopoHeap.zero T hT (by decide) (by decide)⟩

/-! ## Too many warps -/

section Warps
variable {H} {T : Topo α} {m : Nat} {E : EdgeList} {level : Nat → Nat}

/-- Where the warps of a batch write, whatever its width: behind the base, and not behind the warp `2 ^ 27`. -/
theorem kLabelChunkWarp_output (hrec : RecordsScaffold m E) (hT : T.Describes m E level) {B n grid t p b : Nat}
    {a : Access Cell α} (ha : a ∈ (kLabelChunkWarp H T B n grid).body t p) (hdst : a.dst = .persist b) :
    B * T.superBlocks ≤ b ∧ b < (B + 2 ^ 27) * T.superBlocks := by
  simp only [kLabelChunkWarp, chunkNode_eq] at ha
  split at ha
  · cases ha
  · split at ha
    · rename_i hp
      obtain ⟨i, hi, ha⟩ := List.mem_flatMap.mp ha
      have hlane : t % blockThreads % warpSize < warpSize := Nat.mod_lt _ (by decide)
      obtain ⟨hi, -⟩ := (mem_strided_mod hlane).mp hi
      obtain ⟨hid, -⟩ := hT.sorts.entry hp hi
      have hwarp : warpOf t < 2 ^ 27 := Nat.div_lt_of_lt_mul (Nat.mod_lt t (by decide))
      rcases mem_nodeStep H T (chunkLayout T B) ha with rfl | rfl | ⟨hr, rfl⟩
      · cases hdst
      · cases hdst
      · have hrank : T.rank _ = (E.nodes _).challengeRank := (hT.node _ hid).2.2.2
        have hlt : (T.rank (T.order (T.levelStart p + i))).toNat < T.superBlocks := by
          rw [hT.super, hrank]
          exact rank_lt hrec hid (hrank ▸ hr)
        exact output_bounds hlt hwarp (Cell.persist.inj hdst).symm
    · cases ha

/-- A batch at `0` or behind chunk `2 ^ 27` returns `0` and never writes the blocks of that chunk. -/
theorem warpBatch_keeps (sessionSeed : List UInt8) (o coopGrid : Nat) (hrec : RecordsScaffold m E)
    (hT : T.Describes m E level) {base bc rank : Nat} (hbase : base = 0 ∨ 2 ^ 27 < base) (hbc : 1 ≤ bc)
    (hmax : bc + 7 < 2 ^ 32) (hrank : rank < T.superBlocks) :
    let r := labelBatch H T sessionSeed o .warp coopGrid base bc
    r.rc = 0 ∧ ∀ x ∈ r.cmds, x.Keeps (.persist (2 ^ 27 * T.superBlocks + rank)) := by
  have hmod : bc % 2 ^ 32 = bc := Nat.mod_eq_of_lt (by omega)
  have hmod' : (bc + warpsPerBlock - 1) % 2 ^ 32 = bc + 7 := Nat.mod_eq_of_lt (show bc + 7 < 2 ^ 32 by omega)
  have hgrid : 1 ≤ (bc + 7) / warpsPerBlock ∧ (bc + 7) / warpsPerBlock ≤ gridMax := by
    show 1 ≤ (bc + 7) / 8 ∧ (bc + 7) / 8 ≤ 2147483647
    omega
  simp only [labelBatch, hmod, hmod']
  rw [launch_eq _ hgrid, Issued.andThen_of_zero rfl]
  refine ⟨rfl, fun x hx => ?_⟩
  rcases List.mem_append.mp hx with hx | hx
  · rw [List.mem_singleton.mp hx]
    exact fun _ => rfl
  · rw [List.mem_singleton.mp hx]
    intro t p a ha hdst
    obtain ⟨hlo, hhi⟩ := kLabelChunkWarp_output hrec hT ha hdst
    rcases hbase with rfl | hbase
    · rw [Nat.zero_add] at hhi
      omega
    · have hle : (2 ^ 27 + 1) * T.superBlocks ≤ base * T.superBlocks := Nat.mul_le_mul_right _ hbase
      rw [Nat.succ_mul] at hle
      omega

end Warps

/-- **More than `2 ^ 27` chunks in a batch are too many for the warps.** The call returns `0`, but whatever a run is
sure to end with, some run ends with it and leaves a given block of chunk `2 ^ 27` as it was. -/
theorem warp_unlabelled (sessionSeed : List UInt8) (c o N P coopGrid : Nat) (zero : α) (heap : TopoHeap) (T : Topo α)
    (hT : poseGraphHbmTopoBuild H .warp c .blake3 heap = some T) (hP : 2 ^ 27 < P) (hmax : P + 7 < 2 ^ 32)
    (mem : Cell → α) :
    let r := labelBatches H T sessionSeed o .warp zero coopGrid P N
    r.rc = 0 ∧ ∀ Q : (Cell → α) → Prop, Completes r.cmds Q mem → ∀ rank < resolveChunkBlocks c,
      ∃ mem', Q mem' ∧ mem' (.persist (2 ^ 27 * resolveChunkBlocks c + rank)) =
        mem (.persist (2 ^ 27 * resolveChunkBlocks c + rank)) := by
  obtain ⟨E, level, -, -, -, hrec, hT, -, -⟩ := poseGraphHbmTopoBuild_describes hT
  have hbatches : let r := batchLoop N P (fun base bc (r : Issued α) =>
        r.andThen (labelBatch H T sessionSeed o .warp coopGrid base bc)) 0 ⟨[], 0⟩
      r.rc = 0 ∧ ∀ rank < T.superBlocks, ∀ x ∈ r.cmds, x.Keeps (.persist (2 ^ 27 * T.superBlocks + rank)) := by
    -- the first batch is as wide as `P`, so that the others are behind the chunk
    have hstep : ∀ i b (r : Issued α), (i = 0 ∨ 2 ^ 27 < i) → 0 < b → b ≤ P →
        (r.rc = 0 ∧ ∀ rank < T.superBlocks, ∀ x ∈ r.cmds, x.Keeps (.persist (2 ^ 27 * T.superBlocks + rank))) →
        let r' := r.andThen (labelBatch H T sessionSeed o .warp coopGrid i b)
        r'.rc = 0 ∧ ∀ rank < T.superBlocks, ∀ x ∈ r'.cmds, x.Keeps (.persist (2 ^ 27 * T.superBlocks + rank)) := by
      rintro i b r hi hpos hb ⟨hrc, hkeeps⟩ r'
      have hbatch := fun rank => @warpBatch_keeps _ H T _ E level sessionSeed o coopGrid hrec hT i b rank hi hpos (by omega)
      have hr' : r' = ⟨r.cmds ++ (labelBatch H T sessionSeed o .warp coopGrid i b).cmds,
        (labelBatch H T sessionSeed o .warp coopGrid i b).rc⟩ := Issued.andThen_of_zero hrc _
      rw [hr']
      refine ⟨(hbatch 0 (hT.super.symm ▸ resolveChunkBlocks_pos c)).1, fun rank hrank x hx => ?_⟩
      rcases List.mem_append.mp hx with hx | hx
      · exact hkeeps rank hrank x hx
      · exact (hbatch rank hrank).2 x hx
    have hnone : (0 : Int) = 0 ∧ ∀ rank < T.superBlocks, ∀ x ∈ ([] : List (Command Cell α)),
        x.Keeps (.persist (2 ^ 27 * T.superBlocks + rank)) := ⟨rfl, fun _ _ _ h => (List.not_mem_nil h).elim⟩
    rw [batchLoop]
    split
    · refine (batchLoop_inv (show 0 < P by omega) (fun i (r : Issued α) => (2 ^ 27 < i ∨ i = N) ∧ r.rc = 0 ∧
        ∀ rank < T.superBlocks, ∀ x ∈ r.cmds, x.Keeps (.persist (2 ^ 27 * T.superBlocks + rank))) ?_ ?_
        ⟨?_, hstep 0 _ ⟨[], 0⟩ (.inl rfl) ?_ ?_ hnone⟩).2
      · rintro i b r hle hpos hb ⟨hi, hr⟩
        exact ⟨by omega, hstep i b r (.inr (by omega)) hpos hb hr⟩
      all_goals omega
    · exact hnone
  obtain ⟨hrc, hkeeps⟩ := hbatches
  rw [hT.super] at hkeeps
  unfold labelBatches
  rw [Issued.andThen_of_zero hrc]
  refine ⟨rfl, fun Q hQ rank hrank => hQ.exists_keeps fun x hx => ?_⟩
  rcases List.mem_append.mp hx with hx | hx
  · exact hkeeps rank hrank x hx
  · rw [List.mem_singleton.mp hx]
    exact fun _ => rfl

/-- One chunk too many: its block may still be 7 at the end. -/
theorem warp_unlabelled_one : ∃ T, poseGraphHbmTopoBuild natHash .warp 1 .blake3 TopoHeap.zero = some T ∧
    let r := labelBatches natHash T [] 0 .warp 0 0 (2 ^ 27 + 1) (2 ^ 27 + 1)
    r.rc = 0 ∧ ∀ Q : (Cell → Nat) → Prop, Completes r.cmds Q (fun _ => 7) →
      ∃ mem', Q mem' ∧ mem' (.persist (2 ^ 27 * 1 + 0)) = 7 := by
  obtain ⟨T, hT⟩ := poseGraphHbmTopoBuild_succeeds natHash .warp (c := 1) (by decide) TopoHeap.zero_full
  obtain ⟨hrc, hkept⟩ := warp_unlabelled natHash [] 1 0 (2 ^ 27 + 1) (2 ^ 27 + 1) 0 0 TopoHeap.zero T hT (by decide)
    (by decide) fun _ => 7
  exact ⟨T, hT, hrc, fun Q h => hkept Q h 0 one_pos⟩

end PoseDB.Cuda
