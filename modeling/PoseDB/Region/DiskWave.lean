import PoseDB.Region.Region
import PoseDB.Region.PoolBatch

/-!
# Streaming a wave to a sink (`pose_graph_label_disk_wave`)

The caller fills `args`, the pool runs the batch, and the caller gathers the return codes. **`labelDiskWave_correct`**: in
every run of the threads the sink is called once for every slot, when the slot holds its labels, and the slot keeps them
until the call returns; the function returns only after all calls have returned, and returns `0` exactly if all succeeded.
-/

set_option autoImplicit false

namespace PoseDB.Region
open Mem ThreadPool Programs PoseDB.Graph

variable {α : Type}

/-- The arguments of `pose_graph_label_disk_wave` but the pool. -/
structure WaveCall (α : Type) where
  sessionSeed : List UInt8
  slots : Nat → Nat
  scratch : Nat → Nat
  algo : PoseHashAlgo
  chunkBlocks : Nat
  nThis : Int
  superIndexBase : Nat
  regionBlockOffset : Nat
  byteStart : Nat
  writeLen : Nat
  sink : Option (SinkCall α → Int)

namespace WaveCall
variable (H : PoseHash α) (prog : Nat → Batch) (a : WaveCall α)

/-- `chunk_blocks` after `resolve_chunk_blocks`. -/
def blocks : Nat := resolveChunkBlocks a.chunkBlocks

/-- The chunk index of slot `i`. -/
def index (i : Nat) : Nat := a.regionBlockOffset / a.blocks + a.superIndexBase + i

/-- The offset of slot `i` in the target. -/
def offset (i : Nat) : Nat := a.byteStart + (a.superIndexBase + i) * a.writeLen

/-- `n_this < 1 || n_this > POSE_REGION_THREADS || !sink`. -/
def Refused : Prop := a.nThis < 1 ∨ a.nThis > poseRegionThreads ∨ a.sink = none

/-- `args[i]`. -/
def arg (sink : SinkCall α → Int) (i : Nat) : ChunkArg α :=
  let j := (a.superIndexBase + i) % 2 ^ 64
  { cseed := H.chunkSeed a.sessionSeed ((a.regionBlockOffset + j * a.blocks) % 2 ^ 64 / a.blocks)
    m := a.blocks
    out := a.slots i
    scratch := a.scratch i
    rc := 0
    algo := a.algo
    inplace := true
    wt := some ⟨sink, (a.byteStart + j * a.writeLen) % 2 ^ 64, a.writeLen⟩ }

/-- The loop that fills `args`. -/
def fillArgs (sink : SinkCall α → Int) (s : RegionState α) : RegionState α :=
  { s with args := fun i => if i < a.nThis.toNat then a.arg H sink i else s.args i }

/-- The threads when the caller has filled `args`. -/
def begin (sink : SinkCall α → Int) (pool : State) (s : RegionState α) : BatchState α :=
  ⟨pool, Jobs.start H (a.fillArgs H sink s)⟩

end WaveCall

/-- `pose_graph_label_disk_wave` on an idle pool: what it can return, and the state of the threads and jobs then. -/
inductive PoseGraphLabelDiskWave (H : PoseHash α) (prog : Nat → Batch) (a : WaveCall α) (pool : State)
    (s : RegionState α) : Int → BatchState α → Prop where
  | refused (h : a.Refused) : PoseGraphLabelDiskWave H prog a pool s (-1) ⟨pool, Jobs.start H s⟩
  | returned {sink : SinkCall α → Int} {k r : Nat} {w : BatchState α} (h : ¬a.Refused) (hsink : a.sink = some sink)
      (hrun : JobsRun prog k r (a.begin H sink pool s) w) (hpc : w.pool.caller = .collect) :
    PoseGraphLabelDiskWave H prog a pool s (firstRc w.jobs.region.args a.nThis.toNat 0) w

/-- What the caller of `pose_graph_label_disk_wave` owes: the block offset is aligned, no offset leaves 64 bits, and every
job has a slot and a scratch buffer for itself. -/
structure WaveCall.Legal (a : WaveCall α) : Prop where
  aligned : a.blocks ∣ a.regionBlockOffset
  fits : ∀ i < a.nThis.toNat, a.regionBlockOffset + (a.superIndexBase + i) * a.blocks < 2 ^ 64 ∧ a.offset i < 2 ^ 64
  slots : ∀ i < a.nThis.toNat, ∀ j < a.nThis.toNat, i ≠ j →
    a.slots i + a.blocks ≤ a.slots j ∨ a.slots j + a.blocks ≤ a.slots i
  scratch : ∀ i < a.nThis.toNat, ∀ j < a.nThis.toNat, i ≠ j → a.scratch i ≠ a.scratch j

/-- The sink call that slot `i` is due: with the offset and length of its super-chunk, when the slot holds the labels that the
verifier recomputes. -/
structure WaveCall.Due (H : PoseHash α) (a : WaveCall α) (i : Nat) (q : SinkCall α) : Prop where
  buf : q.buf = a.slots i
  len : q.len = a.writeLen
  off : q.off = a.offset i
  labels : ∀ k < a.blocks, ∀ all buf, poseGraphChallenge H (H.chunkSeed a.sessionSeed (a.index i)) a.blocks k (some all)
    (some buf) a.algo = (0, some (q.mem (a.slots i + k)))

section Wave
variable {H : PoseHash α} {prog : Nat → Batch} {a : WaveCall α} {sink : SinkCall α → Int} {pool : State}
  {s : RegionState α} {i n k r : Nat} {w : BatchState α}

theorem firstRc_eq_zero {k : Nat} {args : Nat → ChunkArg α} : firstRc args k 0 = 0 ↔ ∀ i, i < k → (args i).rc = 0 := by
  rw [← not_iff_not, ← ne_eq, firstRc_ne_zero]
  simp

variable (H sink s) in
theorem WaveCall.fillArgs_arg (hi : i < a.nThis.toNat) : (a.fillArgs H sink s).args i = a.arg H sink i := if_pos hi

theorem WaveCall.Legal.arg (ha : a.Legal) (hi : i < a.nThis.toNat) :
    a.arg H sink i =
      ⟨H.chunkSeed a.sessionSeed (a.index i), a.blocks, a.slots i, a.scratch i, 0, a.algo, true,
        some ⟨sink, a.offset i, a.writeLen⟩⟩ := by
  obtain ⟨h1, h2⟩ := ha.fits i hi
  obtain ⟨j, hj⟩ := ha.aligned
  have hc : 0 < a.blocks := resolveChunkBlocks_pos _
  have hindex : a.superIndexBase + i < 2 ^ 64 :=
    (Nat.le_mul_of_pos_right _ hc).trans_lt ((Nat.le_add_left _ _).trans_lt h1)
  have hchunk : (a.regionBlockOffset + (a.superIndexBase + i) * a.blocks) / a.blocks = a.index i := by
    rw [index, hj, Nat.mul_comm _ a.blocks, ← Nat.mul_add, Nat.mul_div_cancel_left _ hc, Nat.mul_div_cancel_left _ hc,
      Nat.add_assoc]
  unfold WaveCall.arg
  dsimp only
  rw [Nat.mod_eq_of_lt hindex, Nat.mod_eq_of_lt h1, hchunk]
  rw [WaveCall.offset] at h2
  rw [Nat.mod_eq_of_lt h2, WaveCall.offset]

theorem WaveCall.Legal.apart (ha : a.Legal) : JobsApart (a.fillArgs H sink s).args a.nThis.toNat := by
  intro i j hi hj hij
  rw [WaveCall.fillArgs_arg H sink s hi, WaveCall.fillArgs_arg H sink s hj, ha.arg hi, ha.arg hj]
  exact ChunkArg.uses_apart (ha.scratch i hi j hj hij) (ha.slots i hi j hj hij)

theorem WaveCall.Legal.inv (ha : a.Legal) (hpool : Reachable prog pool) (hidle : pool.caller = .idle)
    (hn : (prog pool.batch).n = a.nThis.toNat) (hrun : JobsRun prog k r (a.begin H sink pool s) w) :
    BatchInv H prog pool.batch (a.fillArgs H sink s) w :=
  hrun.inv (hn ▸ ha.apart) (.start hpool hidle)

/-- While it runs: every sink call is due, and its slot does not change as long as the sink works on it. -/
theorem JobsInv.due (ha : a.Legal) (hmax : a.blocks ≤ poseGraphMaxM)
    (hs : JobsInv H (a.fillArgs H sink s) a.nThis.toNat w.jobs) {q : SinkCall α} (hq : (i, q) ∈ w.jobs.calls) :
    a.Due H i q ∧ ∀ k < a.blocks, w.jobs.region.mem (a.slots i + k) = q.mem (a.slots i + k) := by
  have hi : i < a.nThis.toNat := ((hs.calls i q).mp hq).1
  have harg := (WaveCall.fillArgs_arg H sink s hi).trans (ha.arg hi)
  have hc : 1 ≤ a.blocks := resolveChunkBlocks_pos _
  obtain ⟨wt, hcall⟩ := hs.callOf hq
  have hwt := hcall.sink
  have hbuf := hcall.buf
  have hmem := hcall.mem
  have hholds := hs.holds hq
  unfold Holds ChunkArg.Uses at hholds
  have hlabel := fun k hk => alone_block (H := H) (s := a.fillArgs H sink s) (i := i) (k := k) (by rw [harg]; exact hc)
    (by rw [harg]; exact hmax) hk
  rw [harg] at hwt hbuf hmem hholds hlabel
  dsimp only at hwt hbuf hmem hholds hlabel
  cases hwt
  refine ⟨⟨hbuf, hcall.len, hcall.off, fun k hk all buf => ?_⟩, fun k hk => ?_⟩
  · rw [poseGraphChallenge_eq H hk hmax, hmem _ (Nat.le_add_right _ k) (Nat.add_lt_add_left hk _), hlabel k hk]
  · rw [hmem _ (Nat.le_add_right _ k) (Nat.add_lt_add_left hk _)]
    exact hholds _ (.inr ⟨_, rfl, Nat.le_add_right _ k, Nat.add_lt_add_left hk _⟩)

/-- When all jobs are done: the sink was called for every slot, all calls have returned, and the return codes are theirs. -/
theorem JobsInv.wave_done (ha : a.Legal) (hmax : a.blocks ≤ poseGraphMaxM)
    (hs : JobsInv H (a.fillArgs H sink s) a.nThis.toNat w.jobs)
    (hdone : ∀ i, i < a.nThis.toNat → ∃ q, w.jobs.pc i = .done q) :
    (w.jobs.calls.map Prod.fst).Perm (List.range a.nThis.toNat) ∧ (∀ i q, (i, q) ∈ w.jobs.calls → a.Due H i q) ∧
      w.jobs.returned.Perm w.jobs.calls ∧
      (firstRc w.jobs.region.args a.nThis.toNat 0 = 0 ↔ ∀ i q, (i, q) ∈ w.jobs.calls → sink q = 0) := by
  have hc : 1 ≤ a.blocks := resolveChunkBlocks_pos _
  have hcalled : ∀ i, i < a.nThis.toNat → ∃ q, (i, q) ∈ w.jobs.calls ∧ (w.jobs.region.args i).rc = sink q := by
    intro i hi
    have harg := (WaveCall.fillArgs_arg H sink s hi).trans (ha.arg hi)
    obtain ⟨q, hq⟩ := hdone i hi
    exact hs.done_call hi (congrArg ChunkArg.wt harg)
      (alone_rc (by rw [harg]; exact hc) (by rw [harg]; exact hmax)) hq
  refine ⟨?_, fun i q hq => (hs.due ha hmax hq).1, hs.returned_perm hdone, ?_⟩
  · apply (List.perm_ext_iff_of_nodup hs.callers_nodup List.nodup_range).mpr
    intro i
    rw [List.mem_map, List.mem_range]
    constructor
    · rintro ⟨⟨j, q⟩, hq, rfl⟩
      exact ((hs.calls j q).mp hq).1
    · intro hi
      obtain ⟨q, hq, -⟩ := hcalled i hi
      exact ⟨(i, q), hq, rfl⟩
  · rw [firstRc_eq_zero]
    constructor
    · intro h i q hq
      have hi := ((hs.calls i q).mp hq).1
      obtain ⟨q', hq', hrc⟩ := hcalled i hi
      have heq : q = q' := congrArg Prod.snd (List.inj_on_of_nodup_map hs.callers_nodup hq hq' rfl)
      rw [heq, ← hrc, h i hi]
    · intro h i hi
      obtain ⟨q, hq, hrc⟩ := hcalled i hi
      rw [hrc, h i q hq]

/-- Chunks that are too large are not labelled, and their jobs call no sink. -/
theorem JobsInv.wave_refused (ha : a.Legal) (hlarge : poseGraphMaxM < a.blocks)
    (hs : JobsInv H (a.fillArgs H sink s) a.nThis.toNat w.jobs) :
    w.jobs.calls = [] ∧ ∀ i, i < a.nThis.toNat → (∃ q, w.jobs.pc i = .done q) → (w.jobs.region.args i).rc = -1 := by
  have halone : ∀ i, i < a.nThis.toNat → (alone H (a.fillArgs H sink s) i).1 = -1 := by
    intro i hi
    have harg := (WaveCall.fillArgs_arg H sink s hi).trans (ha.arg hi)
    exact alone_refused (by rw [harg]; exact hlarge)
  constructor
  · apply List.eq_nil_iff_forall_not_mem.mpr
    rintro ⟨i, q⟩ hq
    obtain ⟨wt, hcall⟩ := hs.callOf hq
    have hok := hcall.ok
    rw [halone i ((hs.calls i q).mp hq).1] at hok
    cases hok
  · rintro i hi ⟨q, hq⟩
    have halone := halone i hi
    rw [← halone]
    exact hs.done_failed hi (by rw [halone]; decide) hq

end Wave

/-- **A wave streams every slot to the sink once**, in every run of the caller and the workers. -/
theorem labelDiskWave_correct (H : PoseHash α) {prog : Nat → Batch} (a : WaveCall α) {pool : State} (s : RegionState α)
    (hpool : Reachable prog pool) (hidle : pool.caller = .idle) :
    (∀ (sink : SinkCall α → Int) (n : Nat) (hn : 1 ≤ n) (hle : n ≤ poseRegionThreads), a.nThis = n → a.sink = some sink →
      prog pool.batch = ⟨.labelDiskWave, n, hn, hle⟩ → a.Legal →
        (a.blocks ≤ poseGraphMaxM →
          (∀ k r w, JobsRun prog k r (a.begin H sink pool s) w → (w.jobs.calls.map Prod.fst).Nodup ∧
            ∀ i q, (i, q) ∈ w.jobs.calls → i < n ∧ a.Due H i q ∧
              ((i, q) ∉ w.jobs.returned → ∀ k < a.blocks, w.jobs.region.mem (a.slots i + k) = q.mem (a.slots i + k))) ∧
          ∀ rc w, PoseGraphLabelDiskWave H prog a pool s rc w → (w.jobs.calls.map Prod.fst).Perm (List.range n) ∧
            (∀ i q, (i, q) ∈ w.jobs.calls → a.Due H i q) ∧ w.jobs.returned.Perm w.jobs.calls ∧
            (rc = 0 ↔ ∀ i q, (i, q) ∈ w.jobs.calls → sink q = 0)) ∧
        (poseGraphMaxM < a.blocks →
          (∀ k r w, JobsRun prog k r (a.begin H sink pool s) w → w.jobs.calls = []) ∧
          ∀ rc w, PoseGraphLabelDiskWave H prog a pool s rc w → rc ≠ 0) ∧
        (∀ k r w, JobsRun prog k r (a.begin H sink pool s) w →
          k ≤ (a.begin H sink pool s).weight prog pool.batch + 4 * r ∧
          (w.pool.caller ≠ .collect → ∃ w', BatchStep prog w w')) ∧
        ∃ rc w, PoseGraphLabelDiskWave H prog a pool s rc w) ∧
    (a.Refused → ∀ rc w, PoseGraphLabelDiskWave H prog a pool s rc w ↔ rc = -1 ∧ w = ⟨pool, Jobs.start H s⟩) := by
  constructor
  · intro sink n hn hle hthis hsink hprog ha
    have htoNat : a.nThis.toNat = n := by
      rw [hthis]
      exact Int.toNat_natCast n
    have hbatch : (prog pool.batch).n = a.nThis.toNat := by
      rw [hprog, htoNat]
    have hnot : ¬a.Refused := by
      rw [WaveCall.Refused, hthis, hsink]
      rintro (h | h | h)
      · omega
      · omega
      · cases h
    have hinv : ∀ {k r w}, JobsRun prog k r (a.begin H sink pool s) w →
        BatchInv H prog pool.batch (a.fillArgs H sink s) w := fun hrun => ha.inv hpool hidle hbatch hrun
    have hjobs : ∀ {k r w}, JobsRun prog k r (a.begin H sink pool s) w →
        JobsInv H (a.fillArgs H sink s) a.nThis.toNat w.jobs := fun hrun => hbatch ▸ (hinv hrun).jobs
    have hreturn : ∀ {rc w}, PoseGraphLabelDiskWave H prog a pool s rc w →
        JobsInv H (a.fillArgs H sink s) a.nThis.toNat w.jobs ∧
          (∀ i, i < a.nThis.toNat → ∃ q, w.jobs.pc i = .done q) ∧ rc = firstRc w.jobs.region.args a.nThis.toNat 0 := by
      intro rc w h
      cases h with
      | refused h => exact absurd h hnot
      | returned _ hsink' hrun hpc =>
        cases hsink.symm.trans hsink'
        exact ⟨hjobs hrun, fun i hi => (hinv hrun).collected hpc (hbatch ▸ hi), rfl⟩
    refine ⟨fun hmax => ⟨fun k r w hrun => ?_, fun rc w h => ?_⟩, fun hlarge => ⟨fun k r w hrun => ?_, fun rc w h => ?_⟩,
      fun k r w hrun => ?_, ?_⟩
    · have hs := hjobs hrun
      refine ⟨hs.callers_nodup, fun i q hq => ?_⟩
      obtain ⟨hdue, hslot⟩ := hs.due ha hmax hq
      exact ⟨htoNat ▸ ((hs.calls i q).mp hq).1, hdue, fun _ => hslot⟩
    · obtain ⟨hs, hdone, rfl⟩ := hreturn h
      rw [← htoNat]
      exact hs.wave_done ha hmax hdone
    · exact ((hjobs hrun).wave_refused ha hlarge).1
    · obtain ⟨hs, hdone, rfl⟩ := hreturn h
      rw [firstRc_ne_zero]
      refine ⟨0, le_rfl, by omega, ?_⟩
      rw [(hs.wave_refused ha hlarge).2 0 (by omega) (hdone 0 (by omega))]
      decide
    · refine ⟨?_, (hinv hrun).exists_step⟩
      have hle := hrun.weight_le (hbatch ▸ ha.apart) (.start hpool hidle)
      exact (Nat.le_add_right _ _).trans hle
    · obtain ⟨k, w, hrun, hpc⟩ := BatchInv.reaches_collect (hbatch ▸ ha.apart)
        (.start (H := H) (s := a.fillArgs H sink s) hpool hidle)
      exact ⟨_, w, .returned hnot hsink hrun hpc⟩
  · intro hrefused rc w
    constructor
    · intro h
      cases h with
      | refused => exact ⟨rfl, rfl⟩
      | returned h => exact absurd hrefused h
    · rintro ⟨rfl, rfl⟩
      exact .refused hrefused

/-- Two slots of two blocks; the sink fails on the second. -/
def twoSlots : WaveCall Nat :=
  ⟨[], fun i => 10 * i, fun i => i, .sha256, 2, 2, 3, 4, 0, 64, some fun q => if q.buf = 10 then 5 else 0⟩

theorem twoSlots_legal : twoSlots.Legal where
  aligned := by decide
  fits := by decide
  slots := by decide
  scratch := by decide

/-- Both slots are streamed, both calls return, and the failure is reported. -/
theorem labelDiskWave_correct_two : ∃ rc w,
    PoseGraphLabelDiskWave natHash (fun _ => ⟨.labelDiskWave, 2, by decide, by decide⟩) twoSlots startState .blank rc w ∧
      (w.jobs.calls.map Prod.fst).Perm [0, 1] ∧ w.jobs.returned.Perm w.jobs.calls ∧ rc ≠ 0 := by
  have hstart : Reachable (fun _ => ⟨.labelDiskWave, 2, by decide, by decide⟩) startState :=
    .start ⟨rfl, fun _ => rfl, rfl, rfl, rfl, rfl, fun _ => rfl, rfl, rfl, rfl⟩
  obtain ⟨hsmall, -, -, rc, w, hw⟩ := (labelDiskWave_correct natHash twoSlots .blank hstart rfl).1 _ 2 (by decide)
    (by decide) rfl rfl rfl twoSlots_legal
  obtain ⟨hcalls, hdue, hreturned, hrc⟩ := (hsmall (by decide)).2 rc w hw
  refine ⟨rc, w, hw, hcalls, hreturned, fun h0 => ?_⟩
  obtain ⟨⟨i, q⟩, hq, hi⟩ := List.mem_map.mp (hcalls.mem_iff.mpr (show 1 ∈ List.range 2 by decide))
  cases hi
  have hzero := hrc.mp h0 1 q hq
  have hbuf : q.buf = 10 := (hdue 1 q hq).buf
  rw [if_pos hbuf] at hzero
  cases hzero

end PoseDB.Region
