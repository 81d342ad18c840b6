import PoseDB.Region.Region
import PoseDB.Region.PoolBatch

/-!
# The region labelers on their threads

`runPooled` and `runSpawned` run the jobs of a batch one after the other. Here the threads interleave, access by access: the
pool's statements and the jobs in `PooledLoop`, fresh threads in `runSpawned_threads`. The jobs of a batch use different
scratch buffers and different blocks (`Filled.jobsApart`), so that both give the same, whatever the order
(**`labelRegionPooled_threads`**).
-/

set_option autoImplicit false

namespace PoseDB.Region
open Mem ThreadPool PoseDB.Graph

variable {α : Type} {H : PoseHash α} {ch : Chunking} {sessionSeed : List UInt8} {region : Nat} {algo : PoseHashAlgo}
  {target : Nat → α} {P : Nat → Prop} {prog : Nat → Batch} {s : RegionState α}

theorem Filled.jobsApart {block : Nat} {args : Nat → ChunkArg α} {f : Nat × Nat × (Nat → ChunkArg α)}
    (h : Filled H target P region 0 block args f) : JobsApart f.2.2 f.1 := by
  intro i j hi hj hij
  have hscratch : (f.2.2 i).scratch ≠ (f.2.2 j).scratch := by
    rw [h.scratch i (Nat.zero_le i) hi, h.scratch j (Nat.zero_le j) hj]
    exact hij
  apply ChunkArg.uses_apart hscratch
  rcases Nat.lt_or_gt_of_ne hij with hlt | hlt
  · exact .inl (h.apart i j (Nat.zero_le i) hlt hj)
  · exact .inr (h.apart j i (Nat.zero_le j) hlt hi)

/-- **A batch of the pool is `runPooled`**: when the caller gathers the return codes, the memory is the one that the jobs
leave one after the other. -/
theorem BatchInv.eq_runPooled {b : Nat} {w : BatchState α} (hs : BatchInv H prog b s w)
    (hapart : JobsApart s.args (prog b).n) (hwt : ∀ i, i < (prog b).n → (s.args i).wt = none)
    (hpc : w.pool.caller = .collect) (sched : Schedule) (batch : Nat) :
    runPooled H sched batch (prog b).n s = (firstRc w.jobs.region.args (prog b).n 0, w.jobs.region) := by
  have heq := hs.jobs.eq_foldl hapart hwt (fun i hi => hs.collected hpc hi) (sched.perm batch (prog b).n)
  unfold runPooled
  rw [heq]

theorem launch_le (starts : Nat → Bool) (k i : Nat) : launch starts k i ≤ i + k := by
  induction k generalizing i with
  | zero => exact le_rfl
  | succ k ih =>
    unfold launch
    split
    · exact (ih (i + 1)).trans (by omega)
    · omega

/-- **A batch of fresh threads is `runSpawned`**: when the threads that started have been joined. -/
theorem runSpawned_threads {n : Nat} {w : Jobs α} (hapart : JobsApart s.args n)
    (hwt : ∀ i, i < n → (s.args i).wt = none) (sched : Schedule) (batch : Nat) :
    let launched := launch (sched.starts batch) (n - 1) 0
    let jobs := if launched = n - 1 then n else launched
    Relation.ReflTransGen (JobsStep jobs) (Jobs.start H s) w → (∀ i, i < jobs → ∃ q, w.pc i = .done q) →
      runSpawned H sched batch n s =
        if launched = n - 1 then (firstRc w.region.args n 0, w.region) else (-1, { w.region with failed := true }) := by
  intro launched jobs hrun hdone
  have hlaunch : launched ≤ n - 1 := (launch_le _ _ _).trans (by omega)
  have hle : jobs ≤ n := by
    show (if launched = n - 1 then n else launched) ≤ n
    split <;> omega
  have hjobs : JobsApart s.args jobs := fun i j hi hj => hapart i j (hi.trans_le hle) (hj.trans_le hle)
  have heq : ∀ l : List Nat, l.Perm (List.range jobs) → w.region = l.foldl (chunkThreadFn H) s := fun l hl =>
    (JobsInv.start.run hjobs hrun).eq_foldl hjobs (fun i hi => hwt i (hi.trans_le hle)) hdone hl
  show (if launched = n - 1 then runPooled H sched batch n s
    else (-1, { (sched.order batch launched).foldl (chunkThreadFn H) s with failed := true })) = _
  by_cases hall : launched = n - 1
  · have hn : jobs = n := if_pos hall
    rw [if_pos hall, if_pos hall]
    unfold runPooled
    rw [← heq _ (hn ▸ sched.perm batch n)]
  · have hn : jobs = launched := if_neg hall
    rw [if_neg hall, if_neg hall, ← heq _ (hn ▸ sched.perm batch launched)]

variable (H ch sessionSeed region algo prog) in
/-- The region loop on the threads of a pool: what it can return from `block` on, and the memory that it leaves. -/
inductive PooledLoop : State → Nat → RegionState α → Int → RegionState α → Prop where
  | done (pool : State) (block : Nat) (s : RegionState α) (h : ch.more block = false) : PooledLoop pool block s 0 s
  | failed {pool : State} {block n next k r : Nat} {s : RegionState α} {args : Nat → ChunkArg α} {w : BatchState α}
      (h : ch.more block = true)
      (hfill : fillBatch H ch sessionSeed region algo poseRegionThreads 0 block s.args = (n, next, args))
      (hn : (prog pool.batch).n = n) (hrun : JobsRun prog k r ⟨pool, Jobs.start H { s with args := args }⟩ w)
      (hpc : w.pool.caller = .collect) (hrc : firstRc w.jobs.region.args n 0 ≠ 0) :
    PooledLoop pool block s (firstRc w.jobs.region.args n 0) w.jobs.region
  | next {pool : State} {block n next k r : Nat} {s s' : RegionState α} {args : Nat → ChunkArg α} {w : BatchState α}
      {rc : Int} (h : ch.more block = true)
      (hfill : fillBatch H ch sessionSeed region algo poseRegionThreads 0 block s.args = (n, next, args))
      (hn : (prog pool.batch).n = n) (hrun : JobsRun prog k r ⟨pool, Jobs.start H { s with args := args }⟩ w)
      (hpc : w.pool.caller = .collect) (hrc : firstRc w.jobs.region.args n 0 = 0)
      (hrest : PooledLoop { w.pool with batch := w.pool.batch + 1, caller := .idle } next w.jobs.region rc s') :
    PooledLoop pool block s rc s'

theorem batch_eq_runPooled (hch : ch.Targets H sessionSeed region algo target P) {pool : State} {block n next k r : Nat}
    {args : Nat → ChunkArg α} {w : BatchState α} (hP : P block) (hpool : Reachable prog pool) (hidle : pool.caller = .idle)
    (hfill : fillBatch H ch sessionSeed region algo poseRegionThreads 0 block s.args = (n, next, args))
    (hn : (prog pool.batch).n = n) (hrun : JobsRun prog k r ⟨pool, Jobs.start H { s with args := args }⟩ w)
    (hpc : w.pool.caller = .collect) (sched : Schedule) (batch : Nat) :
    runPooled H sched batch n { s with args := args } = (firstRc w.jobs.region.args n 0, w.jobs.region) ∧
      Reachable prog w.pool ∧ P next := by
  have hfilled : Filled H target P region 0 block s.args (n, next, args) := hfill ▸ fillBatch_filled hch s.args hP
  have hapart : JobsApart args n := hfilled.jobsApart
  subst hn
  have hs := hrun.inv hapart (.start hpool hidle)
  exact ⟨hs.eq_runPooled hapart (fun i hi => (hfilled.arg i (Nat.zero_le i) hi).wt) hpc sched batch, hs.reach, hfilled.next⟩

/-- The loop on the threads is the loop with `runPooled`. -/
theorem PooledLoop.eq_regionLoop (hch : ch.Targets H sessionSeed region algo target P) {pool : State} {block : Nat}
    {s s' : RegionState α} {rc : Int} (h : PooledLoop H ch sessionSeed region algo prog pool block s rc s') (hP : P block)
    (hpool : Reachable prog pool) (hidle : pool.caller = .idle) (sched : Schedule) (batch : Nat) :
    regionLoop H ch sessionSeed region algo (runPooled H sched) batch block s = (rc, s') := by
  induction h generalizing batch with
  | done pool block s h =>
    rw [regionLoop, dif_neg (by rw [h]; exact Bool.false_ne_true)]
  | failed h hfill hn hrun hpc hrc =>
    obtain ⟨heq, -, -⟩ := batch_eq_runPooled hch hP hpool hidle hfill hn hrun hpc sched batch
    rw [regionLoop, dif_pos h, hfill]
    dsimp only
    rw [heq, if_neg hrc]
  | next h hfill hn hrun hpc hrc hrest ih =>
    obtain ⟨heq, hreach, hnext⟩ := batch_eq_runPooled hch hP hpool hidle hfill hn hrun hpc sched batch
    rw [regionLoop, dif_pos h, hfill]
    dsimp only
    rw [heq, if_pos hrc]
    exact ih hnext (hreach.step (.inl (.caller (.collect _ hpc)))) rfl (batch + 1)

theorem Chunking.Targets.batch_ends (hch : ch.Targets H sessionSeed region algo target P) {pool : State}
    {block n next k r : Nat} {args : Nat → ChunkArg α} {w : BatchState α} (hP : P block) (hpool : Reachable prog pool)
    (hidle : pool.caller = .idle)
    (hfill : fillBatch H ch sessionSeed region algo poseRegionThreads 0 block s.args = (n, next, args))
    (hn : (prog pool.batch).n = n) (hrun : JobsRun prog k r ⟨pool, Jobs.start H { s with args := args }⟩ w) :
    k ≤ BatchState.weight prog pool.batch ⟨pool, Jobs.start H { s with args := args }⟩ + 4 * r ∧
      (w.pool.caller ≠ .collect → ∃ w', BatchStep prog w w') := by
  have hfilled : Filled H target P region 0 block s.args (n, next, args) := hfill ▸ fillBatch_filled hch s.args hP
  have hapart : JobsApart args n := hfilled.jobsApart
  subst hn
  have hstart : BatchInv H prog pool.batch { s with args := args } ⟨pool, Jobs.start H { s with args := args }⟩ :=
    .start hpool hidle
  have hle := hrun.weight_le hapart hstart
  exact ⟨by omega, (hrun.inv hapart hstart).exists_step⟩

/-- **The pooled labelers on the threads of the pool** return what they return when the jobs run one after the other, and
leave the same memory, for every interleaving of the accesses; every batch ends. -/
theorem labelRegionPooled_threads (H : PoseHash α) (sessionSeed : List UInt8) (algo : PoseHashAlgo) {c o B : Nat} (p : Nat)
    (hc : 1 ≤ c) (hmax : c ≤ poseGraphMaxM) (hB : 1 ≤ B) (ho : c ∣ o) (hoB : o + B < 2 ^ 64) {prog : Nat → Batch}
    {pool : State} (hpool : Reachable prog pool) (hidle : pool.caller = .idle) (s : RegionState α) :
    (∀ rc s', PooledLoop H (regionChunking B o c hc) sessionSeed p algo prog pool 0 s rc s' → ∀ sched,
      poseGraphLabelRegionPooled H sessionSeed (some p) (poseHashBytes * B) o algo c sched s = (rc, s')) ∧
    (c ≤ B → ∀ rc s', PooledLoop H (inplaceChunking B o c hc) sessionSeed p algo prog pool 0 s rc s' → ∀ sched,
      poseGraphLabelRegionPooledInplace H sessionSeed (some p) (poseHashBytes * B) o algo c sched s = (rc, s')) ∧
    ∀ ch, ch = regionChunking B o c hc ∨ ch = inplaceChunking B o c hc → ∀ block n next args k r w, block ≤ B → c ∣ block →
      fillBatch H ch sessionSeed p algo poseRegionThreads 0 block s.args = (n, next, args) → (prog pool.batch).n = n →
      JobsRun prog k r ⟨pool, Jobs.start H { s with args := args }⟩ w →
        k ≤ BatchState.weight prog pool.batch ⟨pool, Jobs.start H { s with args := args }⟩ + 4 * r ∧
          (w.pool.caller ≠ .collect → ∃ w', BatchStep prog w w') := by
  have htargets : (regionChunking B o c hc).Targets H sessionSeed p algo _ _ := regionChunking_targets hc hmax ho hoB p
  have hwhole : (inplaceChunking B o c hc).Targets H sessionSeed p algo _ _ := inplaceChunking_targets hc hmax ho hoB p
  refine ⟨fun rc s' h sched => ?_, fun hle rc s' h sched => ?_, fun ch hch block n next args k r w hb hdvd hfill hn hrun => ?_⟩
  · unfold poseGraphLabelRegionPooled
    simp only [regionBlocks_some hB, resolveChunkBlocks_of_pos hc]
    exact h.eq_regionLoop htargets ⟨Nat.zero_le B, .inl (dvd_zero c)⟩ hpool hidle sched 0
  · unfold poseGraphLabelRegionPooledInplace
    simp only [regionBlocks_some hB, resolveChunkBlocks_of_pos hc]
    rw [if_neg (by unfold poseHashBytes; omega)]
    exact h.eq_regionLoop hwhole ⟨Nat.zero_le B, dvd_zero c⟩ hpool hidle sched 0
  · rcases hch with rfl | rfl
    · exact htargets.batch_ends ⟨hb, .inl hdvd⟩ hpool hidle hfill hn hrun
    · exact hwhole.batch_ends ⟨hb, hdvd⟩ hpool hidle hfill hn hrun

/-- Two blocks in two chunks, one for a worker and one for the caller. -/
theorem labelRegionPooled_threads_two : ∃ rc s',
    PooledLoop natHash (regionChunking 2 0 1 (by decide)) [] 0 .sha256 (fun _ => ⟨.labelRegionPooled, 2, by decide, by decide⟩)
      startState 0 .blank rc s' ∧
    poseGraphLabelRegionPooled natHash [] (some 0) (poseHashBytes * 2) 0 .sha256 1 .inOrder .blank = (rc, s') := by
  have hstart : Reachable (fun _ => ⟨.labelRegionPooled, 2, by decide, by decide⟩) startState :=
    .start ⟨rfl, fun _ => rfl, rfl, rfl, rfl, rfl, fun _ => rfl, rfl, rfl, rfl⟩
  have hthreads := (labelRegionPooled_threads natHash [] .sha256 (c := 1) (o := 0) (B := 2) 0 (by decide) (by decide)
    (by decide) (by decide) (by decide) hstart rfl .blank).1
  obtain ⟨f, hfill⟩ : ∃ f, f = fillBatch natHash (regionChunking 2 0 1 (by decide)) [] 0 .sha256 poseRegionThreads 0 0
    RegionState.blank.args := ⟨_, rfl⟩
  have hf : fillBatch natHash (regionChunking 2 0 1 (by decide)) [] 0 .sha256 poseRegionThreads 0 0
      RegionState.blank.args = (2, 2, f.2.2) := by
    rw [hfill]
    rfl
  have htargets : (regionChunking 2 0 1 (by decide)).Targets natHash [] 0 .sha256 _ _ :=
    regionChunking_targets (by decide) (by decide) (by decide) (by decide) 0
  have hfilled := hf ▸ fillBatch_filled (k := poseRegionThreads) (n := 0) htargets RegionState.blank.args
    ⟨by decide, .inl (dvd_zero 1)⟩
  have hbatch : BatchInv natHash (fun _ => ⟨.labelRegionPooled, 2, by decide, by decide⟩) 0
      { RegionState.blank with args := f.2.2 } ⟨startState, Jobs.start natHash { RegionState.blank with args := f.2.2 }⟩ :=
    .start hstart rfl
  obtain ⟨k, w, hrun, hpc⟩ := hbatch.reaches_collect hfilled.jobsApart
  by_cases hrc : firstRc w.jobs.region.args 2 0 = 0
  · have hloop := PooledLoop.next rfl hf rfl hrun hpc hrc (.done _ 2 _ rfl)
    exact ⟨_, _, hloop, hthreads _ _ hloop .inOrder⟩
  · have hloop := PooledLoop.failed rfl hf rfl hrun hpc hrc
    exact ⟨_, _, hloop, hthreads _ _ hloop .inOrder⟩

end PoseDB.Region
