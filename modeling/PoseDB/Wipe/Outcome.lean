import PoseDB.Wipe.Program

/-!
# What the program comes to

**`program_safe`**: in every run that ends, whatever fails, a byte that has changed is a byte to be wiped, of a disk
that was named and passed all checks, and has its label; and `--confirm` was given. **`program_wiped`**: a wipe that
returns `0` has wiped every disk. **`program_succeeds`**: a wipe in which all calls succeed returns `0`, also if it
verifies its own work. **`verifyOnly_all_iff`**, **`wiped_verifies`**: what the exit code of `--verify-only` says.
-/

set_option autoImplicit false

namespace PoseDB.Wipe
open Mem PoseDB.Graph Region Cover CText

variable {α : Type}

section Run
variable {env : RunEnv α} {args : List Text} {cfg : MainConfig} {disks : List TargetDisk} {K : Nat} {results : List State}

/-! ## What success means -/

/-- A worker that succeeds has written each byte of its items once for each item that has it. -/
theorem worker_ok_hits {env : Env} {cfg : Config} {items : List WorkItem} {dBuf hStage : Nat → Byte} {r : State}
    (hdry : cfg.dryRun = false) (hitems : ∀ it ∈ items, it.Whole cfg) (htotal : (items.map WorkItem.len).sum < 2 ^ 64)
    (hr : worker env cfg items (State.init dBuf hStage) = some r) (hok : r.ok = true) (fd a : Nat) :
    hits r.writes fd a = (items.map (WorkItem.has fd a)).sum := by
  by_cases hready : env.Ready items
  · obtain ⟨wss, hwrites, -, hwss⟩ := worker_covers hdry hitems hready hr hok
    rw [hwrites, hits_flatten]
    exact sum_hits hwss fd a
  · obtain ⟨-, hzero, rfl⟩ := worker_not_ready hready hr hok
    rw [totalLen_eq htotal, List.sum_eq_zero_iff_forall_eq_nat] at hzero
    refine Eq.symm (List.sum_eq_zero_iff_forall_eq_nat.mpr fun n hn => ?_)
    obtain ⟨it, hit, rfl⟩ := List.mem_map.mp hn
    exact has_empty (hzero _ (List.mem_map_of_mem hit)) fd a

/-- The descriptors are different, and the lengths add up to a `uint64_t`. -/
structure Distinct (disks : List TargetDisk) : Prop where
  fds : (disks.map fun d => d.fd).Nodup
  total : (disks.map TargetDisk.wipeLen).sum < 2 ^ 64

/-- The disks of `main` as the workers get them. -/
def wipeDisks (cfg : MainConfig) (disks : List TargetDisk) (hdistinct : Distinct disks)
    (hwhole : ∀ d ∈ disks, cfg.superBytes ∣ d.wipeLen) : Disks cfg.toConfig where
  list := disks.map TargetDisk.openDisk
  fds := by
    rw [List.map_map]
    exact hdistinct.fds
  whole od hod := by
    obtain ⟨d, hd, rfl⟩ := List.mem_map.mp hod
    exact hwhole d hd
  total := by
    rw [List.map_map]
    exact hdistinct.total

def wipedImage (env : RunEnv α) (cfg : MainConfig) (disks : List TargetDisk) (image : Nat → Nat → Byte) : Nat → Nat → Byte :=
  fun fd a => if ∃ d ∈ disks, d.fd = fd ∧ a < d.wipeLen then diskByte cfg.toConfig (env.output cfg) a else image fd a

theorem toWipe_openDisk {disks : List TargetDisk} {fd a : Nat} :
    ToWipe (disks.map TargetDisk.openDisk) fd a ↔ ∃ d ∈ disks, d.fd = fd ∧ a < d.wipeLen := by
  constructor
  · rintro ⟨od, hod, hfd, ha⟩
    obtain ⟨d, hd, rfl⟩ := List.mem_map.mp hod
    exact ⟨d, hd, hfd, ha⟩
  · rintro ⟨d, hd, hfd, ha⟩
    exact ⟨d.openDisk, List.mem_map_of_mem hd, hfd, ha⟩

/-- Workers that all succeed write each byte to be wiped once and no other byte. -/
theorem runWorkers_hits (hK : 0 < K) (hG : K ≤ cfg.gpus.length) (hdry : cfg.dryRun = false)
    (hdistinct : Distinct disks) (hwhole : ∀ d ∈ disks, cfg.superBytes ∣ d.wipeLen)
    (h : runWorkers env cfg (disks.map TargetDisk.openDisk) K = some results) (hok : ∀ r ∈ results, r.ok = true)
    (fd a : Nat) :
    hits (env.merge (results.map State.writes)) fd a =
      if ToWipe (disks.map TargetDisk.openDisk) fd a then 1 else 0 := by
  obtain ⟨D, hD⟩ : ∃ D, D = wipeDisks cfg disks hdistinct hwhole := ⟨_, rfl⟩
  have hlist : D.list = disks.map TargetDisk.openDisk := by rw [hD]; rfl
  obtain ⟨order, horder⟩ : ∃ order, order = env.sort (D.list.map OpenDisk.wipeLen) := ⟨_, rfl⟩
  have hperm : order.Perm (List.range D.list.length) := by
    have := env.sort_perm (D.list.map OpenDisk.wipeLen)
    rwa [List.length_map, ← horder] at this
  obtain ⟨f, hf⟩ : ∃ f : Nat → Nat → Option State, f = fun t j => worker (env.workerEnv cfg t j) cfg.toConfig
    (workItems cfg.toConfig D cfg.gpus.length K order t j) (State.init (env.dBuf t j) (env.hStage t j)) := ⟨_, rfl⟩
  have hcollect : (List.range (cfg.gpus.length / K)).flatMap (fun t => (List.range K).map (f t)) = results.map some := by
    rw [← collect_eq.mp h, hf, ← hlist, ← horder]
    rfl
  have hsum : (results.map fun r => hits r.writes fd a).sum = ∑ t ∈ Finset.range (cfg.gpus.length / K),
      ∑ j ∈ Finset.range K, (f t j).elim 0 fun r => hits r.writes fd a := by
    have hsum := sum_logs (cfg.gpus.length / K) K f fun o => o.elim 0 fun r => hits r.writes fd a
    rw [hcollect, List.map_map] at hsum
    exact hsum
  have hworker : ∀ t ∈ Finset.range (cfg.gpus.length / K), ∀ j ∈ Finset.range K,
      ((f t j).elim 0 fun r => hits r.writes fd a) =
        ((workItems cfg.toConfig D cfg.gpus.length K order t j).map (WorkItem.has fd a)).sum := fun t ht j hj => by
    have ht := Finset.mem_range.mp ht
    have hj := Finset.mem_range.mp hj
    have hmem : f t j ∈ results.map some := by
      rw [← hcollect]
      exact List.mem_flatMap.mpr ⟨t, List.mem_range.mpr ht, List.mem_map_of_mem (List.mem_range.mpr hj)⟩
    obtain ⟨r, hr, heq⟩ := List.mem_map.mp hmem
    rw [← heq]
    rw [hf] at heq
    exact worker_ok_hits hdry (workItems_whole t j) (workItems_total hK hG hperm ht hj) heq.symm (hok r hr) fd a
  rw [hits_perm (env.merge_interleaved _).perm, hits_flatten, List.map_map, ← hlist]
  calc _ = ∑ t ∈ Finset.range (cfg.gpus.length / K), ∑ j ∈ Finset.range K,
        ((workItems cfg.toConfig D cfg.gpus.length K order t j).map (WorkItem.has fd a)).sum :=
        hsum.trans (Finset.sum_congr rfl fun t ht => Finset.sum_congr rfl (hworker t ht))
    _ = (D.list.map fun d => ∑ j ∈ Finset.range K, (part cfg.toConfig K d j).has fd a).sum :=
        workItems_sum (fun it h => has_empty h fd a) hK hG D hperm
    _ = (D.list.map fun d => if fd = d.fd ∧ a < d.wipeLen then 1 else 0).sum :=
        congrArg List.sum (List.map_congr_left fun d hd => part_has hK (D.whole d hd) fd a)
    _ = _ := sum_disks D.fds fd a

theorem runWorkers_wiped (hK : 0 < K) (hG : K ≤ cfg.gpus.length) (hdry : cfg.dryRun = false)
    (hdistinct : Distinct disks) (hwhole : ∀ d ∈ disks, cfg.superBytes ∣ d.wipeLen)
    (h : runWorkers env cfg (disks.map TargetDisk.openDisk) K = some results) (hok : ∀ r ∈ results, r.ok = true)
    (image : Nat → Nat → Byte) :
    replay (env.merge (results.map State.writes)) image = wipedImage env cfg disks image := by
  have hhits := runWorkers_hits hK hG hdry hdistinct hwhole h hok
  have hsafe := runWorkers_safe h
  funext fd a
  unfold wipedImage
  by_cases hwipe : ∃ d ∈ disks, d.fd = fd ∧ a < d.wipeLen
  · rw [if_pos hwipe]
    refine replay_hit (fun w hw hcovers => ?_)
      (by rw [hhits, if_pos (toWipe_openDisk.mpr hwipe)]; exact Nat.one_ne_zero) image
    obtain ⟨ws, hws, hw⟩ := List.mem_flatten.mp ((env.merge_interleaved _).perm.mem_iff.mp hw)
    obtain ⟨st, hst, rfl⟩ := List.mem_map.mp hws
    obtain ⟨d, -, -, -, hdata⟩ := (hsafe st hst).2 w hw
    obtain ⟨-, hlo, hhi⟩ := of_decide_eq_true hcovers
    rw [hdata _ (by omega), Nat.add_sub_cancel' hlo]
  · rw [if_neg hwipe]
    exact replay_miss (by rw [hhits, if_neg fun h => hwipe (toWipe_openDisk.mp h)]) image

/-! ## What the verification says -/

def SamplesLabelled (env : RunEnv α) (cfg : MainConfig) (file : Nat → Byte) (d : TargetDisk) : Prop :=
  let nSuper := d.wipeLen / cfg.superBytes
  ∀ J ∈ sampleIndices nSuper (clampSamples nSuper cfg.verifyN), ∀ x < cfg.superBytes,
    file (J * cfg.superBytes + x) = env.output cfg J x

def VerifiesSucceed (env : RunEnv α) (cfg : MainConfig) (image : Nat → Nat → Byte) (disks : List TargetDisk) : Prop :=
  ∀ i d, disks[i]? = some d → (env.verifyEnv cfg i (image d.fd)).AllSucceed cfg.superBytes

/-- The verification of one disk: it returns, and finds nothing exactly if the samples have their labels. -/
theorem verifyDisk_samples {i : Nat} {file : Nat → Byte} {d : TargetDisk} (hd : Admitted env.toMainEnv args cfg d)
    (hpos : 1 ≤ cfg.chunkBlocks) (hmax : cfg.chunkBlocks ≤ poseGraphMaxM) (hlen : d.wipeLen < 2 ^ 64)
    (hcalls : (env.verifyEnv cfg i file).AllSucceed cfg.superBytes) :
    ∃ v, verifyDisk (env.verifyEnv cfg i file) d.wipeLen cfg.chunkBlocks cfg.verifyN (env.region i) (env.diskBuf i) = some v ∧
      v.rc = 0 ∧ (v.mismOut = 0 ↔ SamplesLabelled env cfg file d) := by
  have hsuper : cfg.superBytes = cfg.chunkBlocks * 32 := by
    unfold Config.superBytes
    rw [resolveChunkBlocks_of_pos hpos]
  unfold SamplesLabelled
  rw [hsuper] at hcalls ⊢
  have hn : 1 ≤ d.wipeLen / (cfg.chunkBlocks * 32) := by
    rw [← hsuper]
    exact Nat.div_pos (Nat.le_of_dvd hd.pos hd.whole) (superBytes_pos _)
  obtain ⟨v, hv, hrc⟩ := verifyDisk_succeeds cfg.verifyN (env.region i) (env.diskBuf i) hcalls hpos hmax hlen hn
  obtain ⟨hreads, hmism⟩ := verifyDisk_done hpos hmax hlen hv hrc
  refine ⟨v, hv, hrc, ?_⟩
  rw [hmism, List.countP_eq_zero, hreads]
  refine forall₂_congr fun J _ => ?_
  rw [decide_eq_true_iff, not_not]
  rfl

/-- The loop over the disks: it returns `true` exactly if no sample of any disk is wrong. -/
theorem verifyDisks_eq {image : Nat → Nat → Byte} (hpos : 1 ≤ cfg.chunkBlocks)
    (hmax : cfg.chunkBlocks ≤ poseGraphMaxM) (hadmitted : ∀ d ∈ disks, Admitted env.toMainEnv args cfg d)
    (hlen : ∀ d ∈ disks, d.wipeLen < 2 ^ 64) {i : Nat} {ok : Bool}
    (hcalls : ∀ k d, disks[k]? = some d → (env.verifyEnv cfg (i + k) (image d.fd)).AllSucceed cfg.superBytes) :
    ∃ v, verifyDisks env cfg image disks i ok = some v ∧
      (v = true ↔ ok = true ∧ ∀ d ∈ disks, SamplesLabelled env cfg (image d.fd) d) := by
  induction disks generalizing i ok with
  | nil => exact ⟨ok, rfl, fun h => ⟨h, fun d hd => (List.not_mem_nil hd).elim⟩, fun h => h.1⟩
  | cons d ds ih =>
      obtain ⟨v, hv, hrc, hmism⟩ := verifyDisk_samples (hadmitted d List.mem_cons_self) hpos hmax (hlen d List.mem_cons_self)
        (hcalls 0 d rfl)
      rw [Nat.add_zero] at hv
      rw [verifyDisks, hv]
      dsimp only
      rw [if_neg (not_not.mpr hrc)]
      obtain ⟨b, hb, hiff⟩ := ih (fun d' hd' => hadmitted d' (List.mem_cons_of_mem d hd'))
        (fun d' hd' => hlen d' (List.mem_cons_of_mem d hd'))
        (fun k d' hk => by
          have h := hcalls (k + 1) d' (by rw [List.getElem?_cons_succ]; exact hk)
          rwa [← Nat.add_assoc, Nat.add_right_comm] at h)
      refine ⟨b, hb, hiff.trans ?_⟩
      rw [List.forall_mem_cons, ← hmism]
      by_cases hzero : v.mismOut = 0
      · rw [if_neg (not_not.mpr hzero)]
        exact and_congr_right fun _ => (and_iff_right hzero).symm
      · rw [if_pos hzero]
        exact ⟨fun h => absurd h.1 Bool.false_ne_true, fun h => absurd h.2.1 hzero⟩

theorem wiped_samples {image : Nat → Nat → Byte} {file : Nat → Byte} {d d' : TargetDisk} (hd : d ∈ disks)
    (hle : d'.wipeLen ≤ d.wipeLen) (hfile : ∀ a, file a = wipedImage env cfg disks image d.fd a)
    (hpos : 1 ≤ d'.wipeLen / cfg.superBytes) :
    SamplesLabelled env cfg file d' := by
  intro J hJ x hx
  have hlt : J < d'.wipeLen / cfg.superBytes := by
    obtain ⟨k, hk, rfl⟩ := List.mem_map.mp hJ
    exact sampleIndex_lt hpos (List.mem_range.mp hk)
  have hend : (J + 1) * cfg.superBytes ≤ d'.wipeLen :=
    (Nat.mul_le_mul_right _ hlt).trans (Nat.div_mul_le_self _ _)
  rw [Nat.succ_mul] at hend
  rw [hfile]
  unfold wipedImage diskByte
  rw [if_pos ⟨d, hd, rfl, by omega⟩, Nat.mul_comm, Nat.mul_add_div (superBytes_pos _), Nat.div_eq_of_lt hx,
    Nat.mul_add_mod, Nat.mod_eq_of_lt hx, Nat.add_zero]

end Run

/-! ## Where `main` ends -/

section Ends
variable (env : RunEnv α) (args : List Text) (image : Nat → Nat → Byte)

/-- Where `main` ends after the workers: what they have written, and whether all of them and the verification succeed.
-/
theorem program_start {cfg : MainConfig} {disks : List TargetDisk} {K : Nat} {results : List State}
    (hmain : main env.toMainEnv args = .start cfg disks K)
    (hworkers : runWorkers env cfg (disks.map TargetDisk.openDisk) K = some results) :
    let image' := replay (env.merge (results.map State.writes)) image
    program env args image =
      (if cfg.verifyN > 0 ∧ cfg.dryRun = false then verifyDisks env cfg image' disks 0 (results.all State.ok)
        else some (results.all State.ok)).map fun ok => ⟨if ok then 0 else 1, image'⟩ := by
  intro image'
  unfold program
  rw [hmain]
  dsimp only
  rw [hworkers]
  dsimp only
  split
  · rfl
  · rfl

/-- The verification of disk `i` ends without an error and finds nothing. -/
def Passes (cfg : MainConfig) (image : Nat → Nat → Byte) (i : Nat) (d : TargetDisk) : Prop :=
  ∃ v, verifyDisk (env.verifyEnv cfg i (image d.fd)) d.wipeLen cfg.chunkBlocks cfg.verifyN (env.region i) (env.diskBuf i) = some v ∧
    v.rc = 0 ∧ v.mismOut = 0

/-- What the loop over the disks returns: `ok` does not come back. -/
theorem verifyDisks_true_iff {cfg : MainConfig} {disks : List TargetDisk} {i : Nat} {ok b : Bool}
    (h : verifyDisks env cfg image disks i ok = some b) :
    b = true ↔ ok = true ∧ ∀ k d, disks[k]? = some d → Passes env cfg image (i + k) d := by
  induction disks generalizing i ok with
  | nil =>
      cases h
      exact ⟨fun h => ⟨h, fun k d hk => by cases hk⟩, fun h => h.1⟩
  | cons d ds ih =>
      rw [verifyDisks] at h
      split at h
      · cases h
      · rename_i v hv
        have hpasses : Passes env cfg image i d ↔ v.rc = 0 ∧ v.mismOut = 0 := by
          constructor
          · rintro ⟨v', hv', h1, h2⟩
            rw [hv] at hv'
            cases hv'
            exact ⟨h1, h2⟩
          · exact fun h => ⟨v, hv, h⟩
        have hrest : (∀ k d', (d :: ds)[k]? = some d' → Passes env cfg image (i + k) d') ↔
            Passes env cfg image i d ∧ ∀ k d', ds[k]? = some d' → Passes env cfg image (i + 1 + k) d' := by
          constructor
          · intro h
            refine ⟨h 0 d rfl, fun k d' hk => ?_⟩
            rw [Nat.add_assoc, Nat.add_comm 1 k]
            exact h (k + 1) d' (by rwa [List.getElem?_cons_succ])
          · rintro ⟨h0, hs⟩ k d' hk
            cases k with
            | zero =>
                cases hk
                exact h0
            | succ k =>
                rw [List.getElem?_cons_succ] at hk
                rw [← Nat.add_assoc, Nat.add_right_comm]
                exact hs k d' hk
        rw [ih h, hrest, hpasses]
        by_cases h1 : v.rc = 0
        · by_cases h2 : v.mismOut = 0
          · rw [if_neg (not_not.mpr h1), if_neg (not_not.mpr h2), and_iff_right (⟨h1, h2⟩ : v.rc = 0 ∧ v.mismOut = 0)]
          · rw [if_neg (not_not.mpr h1), if_pos h2]
            exact ⟨fun h => absurd h.1 Bool.false_ne_true, fun h => absurd h.2.1.2 h2⟩
        · rw [if_pos h1]
          exact ⟨fun h => absurd h.1 Bool.false_ne_true, fun h => absurd h.2.1.1 h1⟩

/-- The exit code of a run that starts workers, and what the workers that succeed have done. -/
theorem program_results {cfg : MainConfig} {disks : List TargetDisk} {K : Nat} {r : Ended}
    (hmain : main env.toMainEnv args = .start cfg disks K) (hdry : cfg.dryRun = false) (hdistinct : Distinct disks)
    (h : program env args image = some r) :
    ∃ results, runWorkers env cfg (disks.map TargetDisk.openDisk) K = some results ∧
      (r.rc = 0 ↔ (∀ st ∈ results, st.ok = true) ∧
        (0 < cfg.verifyN → ∀ i d, disks[i]? = some d → Passes env cfg r.image i d)) ∧
      ((∀ st ∈ results, st.ok = true) → r.image = wipedImage env cfg disks image) := by
  have hchecked := main_checked (.inr hmain)
  obtain ⟨-, -, rfl⟩ := main_start hmain
  obtain ⟨hK, hG⟩ := teamSize_bounds hchecked.gpus
  cases hworkers : runWorkers env cfg (disks.map TargetDisk.openDisk) (teamSize cfg) with
  | none =>
      unfold program at h
      rw [hmain] at h
      dsimp only at h
      rw [hworkers] at h
      cases h
  | some results =>
      rw [program_start env args image hmain hworkers, Option.map_eq_some_iff] at h
      obtain ⟨ok, hok, rfl⟩ := h
      refine ⟨results, rfl, ?_, fun hall => runWorkers_wiped hK hG hdry hdistinct
        (fun d hd => (hchecked.admitted d hd).whole) hworkers hall image⟩
      have hrc : (if ok = true then 0 else 1) = 0 ↔ ok = true := by
        cases ok <;> decide
      rw [hrc, ← List.all_eq_true]
      by_cases hN : 0 < cfg.verifyN
      · rw [if_pos ⟨hN, hdry⟩] at hok
        refine (verifyDisks_true_iff env _ hok).trans (and_congr_right fun _ => ?_)
        simp only [Nat.zero_add, hN, forall_const]
      · rw [if_neg fun h => hN h.1] at hok
        rw [← Option.some.inj hok]
        exact ⟨fun h => ⟨h, fun h => absurd h hN⟩, fun h => h.1⟩

def WorkersSucceed (cfg : MainConfig) (disks : List TargetDisk) (K : Nat) : Prop :=
  ∀ t < cfg.gpus.length / K, ∀ j < K, (env.workerEnv cfg t j).AllSucceed cfg.toConfig
    (perGpu cfg.toConfig K (disks.map TargetDisk.openDisk) (teamDisks (cfg.gpus.length / K)
      (env.sort ((disks.map TargetDisk.openDisk).map OpenDisk.wipeLen)) t) j)

theorem runWorkers_succeeds {cfg : MainConfig} {disks : List TargetDisk} {K : Nat} (hK : 0 < K)
    (hG : K ≤ cfg.gpus.length) (hdry : cfg.dryRun = false) (hdistinct : Distinct disks)
    (hwhole : ∀ d ∈ disks, cfg.superBytes ∣ d.wipeLen) (hworkers : WorkersSucceed env cfg disks K) :
    ∃ results, runWorkers env cfg (disks.map TargetDisk.openDisk) K = some results ∧ ∀ r ∈ results, r.ok = true := by
  obtain ⟨D, hD⟩ : ∃ D, D = wipeDisks cfg disks hdistinct hwhole := ⟨_, rfl⟩
  have hlist : D.list = disks.map TargetDisk.openDisk := by rw [hD]; rfl
  have hperm : (env.sort (D.list.map OpenDisk.wipeLen)).Perm (List.range D.list.length) := by
    have := env.sort_perm (D.list.map OpenDisk.wipeLen)
    rwa [List.length_map] at this
  refine collect_forall fun o ho => ?_
  obtain ⟨t, ht, ho⟩ := List.mem_flatMap.mp ho
  obtain ⟨j, hj, rfl⟩ := List.mem_map.mp ho
  have ht := List.mem_range.mp ht
  have hj := List.mem_range.mp hj
  have hcalls := hworkers t ht j hj
  rw [← hlist] at hcalls ⊢
  exact (worker_writes (env.dBuf t j) (env.hStage t j) hdry (workItems_whole t j)
    (workItems_total hK hG hperm ht hj) hcalls).1

/-- Where a run of `--verify-only` ends when its calls succeed. -/
theorem program_verify {cfg : MainConfig} {disks : List TargetDisk}
    (hmain : main env.toMainEnv args = .verify cfg disks) (hlen : ∀ d ∈ disks, d.wipeLen < 2 ^ 64)
    (hverify : VerifiesSucceed env cfg image disks) :
    ∃ r, program env args image = some r ∧ r.image = image ∧
      (r.rc = 0 ↔ ∀ d ∈ disks, SamplesLabelled env cfg (image d.fd) d) := by
  have hchecked := main_checked (K := 0) (.inl hmain)
  obtain ⟨v, hv, hiff⟩ := verifyDisks_eq hchecked.chunk_pos hchecked.chunk_le hchecked.admitted hlen
    (fun k d hk => by
      rw [Nat.zero_add]
      exact hverify k d hk)
  refine ⟨⟨if v then 0 else 1, image⟩, ?_, rfl, ?_⟩
  · unfold program
    rw [hmain]
    dsimp only
    rw [hv]
    rfl
  · rw [and_iff_right rfl] at hiff
    rw [← hiff]
    cases v with
    | false => exact ⟨fun h => absurd h Nat.one_ne_zero, fun h => absurd h Bool.false_ne_true⟩
    | true => exact ⟨fun _ => rfl, fun _ => rfl⟩

theorem sampleIndices_all {n N : Nat} (hn : 1 ≤ n) (hN : n ≤ N) (hfits : (n - 1) * (n - 1) < 2 ^ 64) :
    sampleIndices n (clampSamples n N) = List.range n := by
  rw [clampSamples_eq n (by omega), Nat.min_eq_right hN]
  rcases Nat.lt_or_ge N 2 with h | h
  · obtain rfl : n = 1 := by omega
    rfl
  · have hspread := (sampleIndices_spread_iff hn h).mpr (by rwa [Nat.min_eq_right hN])
    rw [Nat.min_eq_right hN] at hspread
    exact hspread.all hN

end Ends

/-! ## A disk of 2 MiB -/

/-- One GPU and a device that is not mounted, on which all calls succeed. -/
def mibRun : RunEnv Nat where
  realpath := some
  stat _ := .ok true
  mounts := none
  openFd _ _ := .ok 3
  blkGetSize64 _ := some (2 * mib)
  blkSszGet _ := some 512
  getDeviceCount := .ok 1
  strerror _ := ""
  seed _ := 0
  hash := natHash
  bytes _ _ := 0
  sort lens := (List.range lens.length).mergeSort fun a b => decide (lens.getD b 0 ≤ lens.getD a 0)
  sort_perm lens := List.mergeSort_perm _ _
  sort_sorted lens := by
    refine (List.pairwise_mergeSort (fun a b c hab hbc => ?_) (fun a b => ?_) _).imp of_decide_eq_true
    · exact decide_eq_true (le_trans (of_decide_eq_true hbc) (of_decide_eq_true hab))
    · rw [Bool.or_eq_true, decide_eq_true_iff, decide_eq_true_iff]
      exact Nat.le_total _ _
  worker _ _ := mibEnv (fun _ _ => true) (fun _ _ _ => true) fun _ => true
  dBuf _ _ _ := 0
  hStage _ _ _ := 0
  merge := List.flatten
  merge_interleaved := Interleaved.flatten
  verify _ := zeroEnv mib
  region _ := zeroRegion
  diskBuf _ _ := 0

def mibArgs : List Text :=
  ["--disk".toList, "/dev/sdb".toList, "--chunk-blocks".toList, "32768".toList, "--hbm-window-mib".toList, "1".toList,
    "--stage-mib".toList, "1".toList]

def mibMain (confirm verifyOnly : Bool) (verifyN : Nat) : MainConfig :=
  { MainConfig.default mibRun.seed with
    toConfig := mibConfig
    disks := ["/dev/sdb".toList]
    gpus := [0]
    confirm := confirm
    verifyN := verifyN
    verifyOnly := verifyOnly }

def mibTarget : TargetDisk := ⟨⟨3, 2 * mib, 512⟩, "/dev/sdb".toList, 2 * mib⟩

theorem main_mib : main mibRun.toMainEnv (mibArgs ++ ["--confirm".toList]) =
    .start (mibMain true false 0) [mibTarget] 1 := by rfl

theorem main_mib_verify : main mibRun.toMainEnv (mibArgs ++ ["--verify-only".toList]) =
    .verify (mibMain false true 128) [mibTarget] := by rfl

theorem main_mib_verified : main mibRun.toMainEnv (mibArgs ++ ["--confirm".toList, "--verify".toList, "2".toList]) =
    .start (mibMain true false 2) [mibTarget] 1 := by rfl

theorem mibTarget_distinct : Distinct [mibTarget] := ⟨List.nodup_singleton 3, by decide⟩

theorem mibRun_workers {cfg : MainConfig} (hcfg : cfg.toConfig = mibConfig) (hgpus : cfg.gpus = [0]) :
    WorkersSucceed mibRun cfg [mibTarget] 1 := by
  intro t ht j hj
  rw [hgpus] at ht ⊢
  obtain rfl : t = 0 := by
    have : t < 1 := ht
    omega
  obtain rfl : j = 0 := by omega
  rw [hcfg]
  have hsort : mibRun.sort (([mibTarget].map TargetDisk.openDisk).map OpenDisk.wipeLen) = [0] :=
    List.mergeSort_singleton 0
  rw [hsort]
  exact ⟨rfl, rfl, rfl, rfl, rfl, mib_success (fun _ => true) _ (by decide) (by decide) _⟩

theorem mibRun_verifies (cfg : MainConfig) (image : Nat → Nat → Byte) (hcfg : cfg.superBytes = mib) :
    VerifiesSucceed mibRun cfg image [mibTarget] := by
  intro i d _
  rw [hcfg]
  exact
    { posixMemalign := rfl
      ref := Option.some_ne_none 0
      malloc := fun _ => rfl
      poolCreate := rfl
      pread := fun k off buf => by
        refine ⟨store buf 0 mib fun x => image d.fd (off + x), ?_⟩
        show preadAll _ mib off [.got mib] 0 buf = _
        have hmin : min mib (mib - 0) = mib := Nat.min_self _
        rw [preadAll.eq_def]
        dsimp only
        rw [if_pos (by decide), hmin, if_neg (by decide), preadAll, if_neg (by decide)]
        rfl }

theorem program_mib (image : Nat → Nat → Byte) : program mibRun (mibArgs ++ ["--confirm".toList]) image =
    some ⟨0, wipedImage mibRun (mibMain true false 0) [mibTarget] image⟩ := by
  have hwhole : ∀ d ∈ [mibTarget], mibConfig.superBytes ∣ d.wipeLen := fun d hd => by
    rw [List.mem_singleton.mp hd]
    exact (by decide : mib ∣ 2 * mib)
  obtain ⟨results, hresults, hall⟩ := runWorkers_succeeds mibRun Nat.one_pos le_rfl rfl mibTarget_distinct
    hwhole (@mibRun_workers (mibMain true false 0) rfl rfl)
  have himage := runWorkers_wiped Nat.one_pos le_rfl rfl mibTarget_distinct hwhole hresults hall image
  rw [program_start mibRun _ image main_mib hresults, himage, List.all_eq_true.mpr hall]
  rfl

/-! ## The exit code and the disks -/

section Main
variable (env : RunEnv α) (args : List Text) (image : Nat → Nat → Byte)

/-- **Safety.** In every run that ends, whatever fails: a byte that is not as it was is a byte to be wiped, of a disk
that the arguments name and that passed every check; it has its label; and the arguments confirm the wipe. -/
theorem program_safe {r : Ended}
    (h : program env args image = some r) {fd a : Nat} (hne : r.image fd a ≠ image fd a) :
    "--confirm".toList ∈ args ∧ ∃ cfg disks K, main env.toMainEnv args = .start cfg disks K ∧ cfg.dryRun = false ∧
      cfg.verifyOnly = false ∧ (∀ d ∈ disks, Admitted env.toMainEnv args cfg d) ∧ ∃ d ∈ disks, d.fd = fd ∧ a < d.wipeLen ∧
        r.image fd a = diskByte cfg.toConfig (env.output cfg) a := by
  unfold program at h
  split at h
  · cases h
    exact absurd rfl hne
  · rw [Option.map_eq_some_iff] at h
    obtain ⟨ok, -, rfl⟩ := h
    exact absurd rfl hne
  · rename_i cfg disks K hmain
    have hchecked := main_checked (.inr hmain)
    obtain ⟨hverify, hconfirm, -⟩ := main_start hmain
    split at h
    · cases h
    · rename_i results hworkers
      have himage : r.image = replay (env.merge (results.map State.writes)) image := by
        dsimp only at h
        split at h
        · rw [Option.map_eq_some_iff] at h
          obtain ⟨ok, -, rfl⟩ := h
          rfl
        · cases h
          rfl
      have hsafe := runWorkers_safe hworkers
      rw [himage] at hne ⊢
      rcases replay_cases (env.merge (results.map State.writes)) image fd a with heq | ⟨w, hw, hcovers, hval⟩
      · exact absurd heq hne
      · -- the byte is in a write of some worker
        obtain ⟨ws, hws, hw⟩ := List.mem_flatten.mp ((env.merge_interleaved _).perm.mem_iff.mp hw)
        obtain ⟨st, hst, rfl⟩ := List.mem_map.mp hws
        obtain ⟨hdry, hwrites⟩ := hsafe st hst
        obtain ⟨d, hd, hdev, hle, hdata⟩ := hwrites w hw
        obtain ⟨hfd, hlo, hhi⟩ := of_decide_eq_true hcovers
        have hdry : cfg.dryRun = false := Bool.eq_false_iff.mpr fun h => by
          rw [hdry h] at hw
          cases hw
        refine ⟨hchecked.confirm (hconfirm hdry), cfg, disks, K, hmain, hdry, hverify, hchecked.admitted, d, hd,
          hdev.symm.trans hfd, by omega, ?_⟩
        rw [hval, hdata _ (by omega), Nat.add_sub_cancel' hlo]

/-- Byte 5 of the disk has changed. -/
theorem program_safe_mib : ∃ cfg disks K, main mibRun.toMainEnv (mibArgs ++ ["--confirm".toList]) = .start cfg disks K ∧
    ∃ d ∈ disks, Admitted mibRun.toMainEnv (mibArgs ++ ["--confirm".toList]) cfg d ∧ 5 < d.wipeLen := by
  have hne : wipedImage mibRun (mibMain true false 0) [mibTarget] (fun _ _ => 255) 3 5 ≠ 255 := by
    unfold wipedImage
    rw [if_pos ⟨mibTarget, List.mem_singleton_self _, rfl, by decide⟩]
    exact (by decide : (0 : Byte) ≠ 255)
  obtain ⟨-, cfg, disks, K, hmain, -, -, hadmitted, d, hd, -, hlt, -⟩ :=
    @program_safe _ mibRun _ (fun _ _ => 255) _ (program_mib _) 3 5 hne
  exact ⟨cfg, disks, K, hmain, d, hd, hadmitted d hd, hlt⟩

/-- **A wipe returns `0` only if it has wiped the disks**: if every worker has succeeded and every verification has
found all samples right, and then each byte to be wiped has its label and no other byte has changed, whatever the
sizes of window and stage, the number of teams, the order of the disks and that of the writes. -/
theorem program_wiped {cfg : MainConfig} {disks : List TargetDisk} {K : Nat} {r : Ended}
    (hmain : main env.toMainEnv args = .start cfg disks K) (hdry : cfg.dryRun = false) (hdistinct : Distinct disks)
    (h : program env args image = some r) (hrc : r.rc = 0) : r.image = wipedImage env cfg disks image ∧
      (0 < cfg.verifyN → ∀ i d, disks[i]? = some d → Passes env cfg r.image i d) := by
  obtain ⟨results, -, hiff, himage⟩ := program_results env args image hmain hdry hdistinct h
  obtain ⟨hall, hpasses⟩ := hiff.mp hrc
  exact ⟨himage hall, hpasses⟩

/-- The wipe of the disk. -/
theorem program_wiped_mib : ∃ r, program mibRun (mibArgs ++ ["--confirm".toList]) (fun _ _ => 255) = some r ∧ r.image 3 5 = 0 := by
  refine ⟨_, program_mib _, ?_⟩
  obtain ⟨himage, -⟩ := program_wiped mibRun _ _ main_mib rfl mibTarget_distinct (program_mib fun _ _ => 255) rfl
  rw [himage]
  exact if_pos ⟨mibTarget, List.mem_singleton_self _, rfl, by decide⟩

/-- **A wipe in which all calls succeed ends, returns `0` and wipes the disks**; in particular, it finds no mismatch
in its own work, wherever it samples it. -/
theorem program_succeeds {cfg : MainConfig} {disks : List TargetDisk} {K : Nat}
    (hmain : main env.toMainEnv args = .start cfg disks K) (hdry : cfg.dryRun = false) (hdistinct : Distinct disks)
    (hlen : ∀ d ∈ disks, d.wipeLen < 2 ^ 64) (hworkers : WorkersSucceed env cfg disks K)
    (hverify : VerifiesSucceed env cfg (wipedImage env cfg disks image) disks) :
    program env args image = some ⟨0, wipedImage env cfg disks image⟩ := by
  have hchecked := main_checked (.inr hmain)
  have hwhole := fun d hd => (hchecked.admitted d hd).whole
  obtain ⟨-, -, rfl⟩ := main_start hmain
  obtain ⟨hK, hG⟩ := teamSize_bounds hchecked.gpus
  obtain ⟨results, hresults, hall⟩ := runWorkers_succeeds env hK hG hdry hdistinct hwhole hworkers
  have himage := runWorkers_wiped hK hG hdry hdistinct hwhole hresults hall image
  have hok : results.all State.ok = true := List.all_eq_true.mpr hall
  rw [program_start env args image hmain hresults, himage, hok]
  split
  · -- the samples of the verification are bytes that the workers have written
    obtain ⟨v, hv, hiff⟩ := verifyDisks_eq hchecked.chunk_pos hchecked.chunk_le hchecked.admitted hlen
      (fun k d hk => by
        rw [Nat.zero_add]
        exact hverify k d hk)
    rw [hv, hiff.mpr ⟨rfl, fun d hd => wiped_samples hd le_rfl (fun _ => rfl)
      (Nat.div_pos (Nat.le_of_dvd (hchecked.admitted d hd).pos (hwhole d hd)) (superBytes_pos _))⟩]
    rfl
  · rfl

/-- The wipe of the disk, and a verification of two samples. -/
theorem program_succeeds_mib : ∃ image, program mibRun (mibArgs ++ ["--confirm".toList, "--verify".toList, "2".toList])
    (fun _ _ => 255) = some ⟨0, image⟩ ∧ image 3 5 = 0 :=
  ⟨_, program_succeeds mibRun _ _ main_mib_verified rfl mibTarget_distinct
    (fun d hd => by rw [List.mem_singleton.mp hd]; decide) (mibRun_workers rfl rfl) (mibRun_verifies _ _ rfl),
    if_pos ⟨mibTarget, List.mem_singleton_self _, rfl, by decide⟩⟩

/-- **What `--verify-only` with enough samples says**: it writes nothing, and returns `0` exactly if each byte to be
wiped of each disk has its label. -/
theorem verifyOnly_all_iff {cfg : MainConfig} {disks : List TargetDisk}
    (hmain : main env.toMainEnv args = .verify cfg disks) (hlen : ∀ d ∈ disks, d.wipeLen < 2 ^ 64)
    (hverify : VerifiesSucceed env cfg image disks)
    (hall : ∀ d ∈ disks, let nSuper := d.wipeLen / cfg.superBytes
      nSuper ≤ cfg.verifyN ∧ (nSuper - 1) * (nSuper - 1) < 2 ^ 64) :
    ∃ r, program env args image = some r ∧ r.image = image ∧
      (r.rc = 0 ↔ ∀ d ∈ disks, ∀ a < d.wipeLen, image d.fd a = diskByte cfg.toConfig (env.output cfg) a) := by
  obtain ⟨r, hr, himage, hrc⟩ := program_verify env args image hmain hlen hverify
  refine ⟨r, hr, himage, hrc.trans (forall₂_congr fun d hd => ?_)⟩
  have hadmitted := (main_checked (K := 0) (.inl hmain)).admitted d hd
  have hsb := superBytes_pos cfg.toConfig
  have hn := Nat.div_pos (Nat.le_of_dvd hadmitted.pos hadmitted.whole) hsb
  obtain ⟨hN, hfits⟩ := hall d hd
  unfold SamplesLabelled
  dsimp only
  rw [sampleIndices_all hn hN hfits]
  have hwhole := Nat.div_mul_cancel hadmitted.whole
  constructor
  · intro h a ha
    have hJ : a / cfg.superBytes < d.wipeLen / cfg.superBytes := Nat.div_lt_div_of_lt_of_dvd hadmitted.whole ha
    have hbyte := h _ (List.mem_range.mpr hJ) _ (Nat.mod_lt a hsb)
    rwa [Nat.div_add_mod'] at hbyte
  · intro h J hJ x hx
    have hend : (J + 1) * cfg.superBytes ≤ d.wipeLen / cfg.superBytes * cfg.superBytes :=
      Nat.mul_le_mul_right _ (List.mem_range.mp hJ)
    rw [Nat.succ_mul, hwhole] at hend
    rw [h (J * cfg.superBytes + x) (by omega), diskByte, Nat.mul_comm, Nat.mul_add_div hsb, Nat.div_eq_of_lt hx,
      Nat.mul_add_mod, Nat.mod_eq_of_lt hx, Nat.add_zero]

/-- A disk of zeros, whose labels are zeros. -/
theorem verifyOnly_all_iff_mib : ∃ r, program mibRun (mibArgs ++ ["--verify-only".toList]) (fun _ _ => 0) = some r ∧
    r.rc = 0 := by
  obtain ⟨r, hr, -, hrc⟩ := verifyOnly_all_iff mibRun (mibArgs ++ ["--verify-only".toList]) (fun _ _ => 0)
    main_mib_verify (fun d hd => by rw [List.mem_singleton.mp hd]; decide) (mibRun_verifies _ _ rfl)
    (fun d hd => by rw [List.mem_singleton.mp hd]; decide)
  exact ⟨r, hr, hrc.mpr fun _ _ _ _ => rfl⟩

/-- **A wipe, then `--verify-only`**: after a wipe that returned `0`, a run with the same seed and graph size that
verifies the disks, or the start of them, returns `0`, however many samples it takes. -/
theorem wiped_verifies {cfg cfg' : MainConfig} {disks disks' : List TargetDisk} {K : Nat} {r : Ended}
    (hmain : main env.toMainEnv args = .start cfg disks K) (hdry : cfg.dryRun = false) (hdistinct : Distinct disks)
    (h : program env args image = some r) (hrc : r.rc = 0) (env' : RunEnv α) (args' : List Text)
    (image' : Nat → Nat → Byte) (hmain' : main env'.toMainEnv args' = .verify cfg' disks')
    (hhash : env'.hash = env.hash) (hbytes : env'.bytes = env.bytes) (hseed : cfg'.seed = cfg.seed)
    (hchunk : cfg'.chunkBlocks = cfg.chunkBlocks)
    (hdisks : ∀ d' ∈ disks', ∃ d ∈ disks, d'.wipeLen ≤ d.wipeLen ∧ ∀ a, image' d'.fd a = r.image d.fd a)
    (hlen : ∀ d' ∈ disks', d'.wipeLen < 2 ^ 64) (hverify : VerifiesSucceed env' cfg' image' disks') :
    program env' args' image' = some ⟨0, image'⟩ := by
  obtain ⟨r', hr', himage, hiff⟩ := program_verify env' args' image' hmain' hlen hverify
  obtain ⟨results, -, hrc', hwiped⟩ := program_results env args image hmain hdry hdistinct h
  have hwiped := hwiped (hrc'.mp hrc).1
  have hout : env'.output cfg' = env.output cfg := by
    unfold RunEnv.output MainConfig.sessionSeed
    rw [hhash, hbytes, hseed, hchunk]
  have hsuper : cfg'.superBytes = cfg.superBytes := by
    unfold Config.superBytes
    rw [hchunk]
  have hzero : r'.rc = 0 := hiff.mpr fun d' hd' => by
    obtain ⟨d, hd, hle, hfile⟩ := hdisks d' hd'
    have hadmitted := (main_checked (K := 0) (.inl hmain')).admitted d' hd'
    have hn := Nat.div_pos (Nat.le_of_dvd hadmitted.pos hadmitted.whole) (superBytes_pos _)
    have hsamples : SamplesLabelled env { cfg with verifyN := cfg'.verifyN } (image' d'.fd) d' :=
      wiped_samples hd hle (fun a => (hfile a).trans (congrFun (congrFun hwiped d.fd) a)) (hsuper ▸ hn)
    unfold SamplesLabelled at hsamples ⊢
    rw [hout, hsuper]
    exact hsamples
  obtain ⟨rc, im⟩ := r'
  dsimp only at himage hzero
  rw [hr', himage, hzero]

/-- The disk is wiped and verified. -/
theorem wiped_verifies_mib : ∃ image, program mibRun (mibArgs ++ ["--confirm".toList]) (fun _ _ => 255) =
    some ⟨0, image⟩ ∧ program mibRun (mibArgs ++ ["--verify-only".toList]) image = some ⟨0, image⟩ :=
  ⟨_, program_mib _, wiped_verifies mibRun _ _ main_mib rfl mibTarget_distinct (program_mib fun _ _ => 255) rfl mibRun
    _ _ main_mib_verify rfl rfl rfl rfl (fun d hd => ⟨d, hd, le_rfl, fun _ => rfl⟩)
    (fun d hd => by rw [List.mem_singleton.mp hd]; decide) (mibRun_verifies _ _ rfl)⟩

end Main

end PoseDB.Wipe
