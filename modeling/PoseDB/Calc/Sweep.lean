import PoseDB.Calc.Plan

/-!
# The best plan and the number of GPUs (`compute` of `disk_calc.py`)

The host cap is divided by the number of teams, also by those without a disk, so more GPUs can make the best makespan
longer (`best_increases`). **`best_gpus`**: apart from the host cap more GPUs never do, and with it the best makespan
grows at most by the factor by which the teams of the best plan would exceed the host.
-/

set_option autoImplicit false

namespace PoseDB.Calc
open ListSchedule

/-- The same parameters with `n` GPUs. -/
def Params.withGpus (p : Params) (n : Int) : Params := { p with gpus := n }

section Compare
variable {p : Params} {gpuBps : ℚ} {k n : Int}

theorem Params.Checked.withGpus (hp : p.Checked) (hn : p.gpus ≤ n) : (p.withGpus n).Checked where
  sizes := hp.sizes
  gpus := hp.gpus.trans hn
  gpusPerDisk := hp.gpusPerDisk.imp_right fun h => ⟨h.1, h.2.trans hn⟩
  poolEff := hp.poolEff
  sectorBytes := hp.sectorBytes

theorem Planned.withGpus (h : Planned p gpuBps k) (hn : p.gpus ≤ n) : Planned (p.withGpus n) gpuBps k :=
  ⟨h.checked.withGpus hn, h.validCb, h.rate, h.disks, h.one_le, h.le_gpus.trans hn⟩

/-- The factor by which `n / k` teams at the rate of a plan would exceed the host. -/
def hostFactor (p : Params) (n : Int) (r : Plan) : ℚ :=
  if 0 < p.hostMibs then max 1 ((n / r.k : Int) * r.teamRateMibs / p.hostMibs) else 1

theorem one_le_hostFactor (p : Params) (n : Int) (r : Plan) : 1 ≤ hostFactor p n r := by
  unfold hostFactor
  split_ifs
  · exact le_max_left _ _
  · exact le_rfl

/-- With more GPUs a team of `k` gets at least its old rate divided by the factor. -/
theorem hostShare_withGpus (h : Planned p gpuBps k) (hn : p.gpus ≤ n) :
    (hostShare p (p.gpus / k) (teamRateBps p gpuBps k)).1 ≤
      hostFactor p n (evaluateK p gpuBps k) * (hostShare p (n / k) (teamRateBps p gpuBps k)).1 := by
  have hone := one_le_hostFactor p n (evaluateK p gpuBps k)
  have hteams : (0 : ℚ) < (n / k : Int) := (h.withGpus hn).cast_teams_pos
  have hshare := (hostShare_le (p := p) h.teams (teamRateBps p gpuBps k)).1
  have hpos := h.hostShare_pos
  by_cases hcap : 0 < p.hostMibs ∧ p.hostMibs * mib < (n / k : Int) * (teamRateBps p gpuBps k).1
  · have hnew : (hostShare p (n / k) (teamRateBps p gpuBps k)).1 = p.hostMibs * mib / (n / k : Int) := by
      unfold hostShare
      rw [if_pos hcap]
    have hfactor : (n / k : Int) * ((hostShare p (p.gpus / k) (teamRateBps p gpuBps k)).1 / mib) / p.hostMibs ≤
        hostFactor p n (evaluateK p gpuBps k) := by
      unfold hostFactor
      rw [if_pos hcap.1]
      exact le_max_right _ _
    rw [hnew]
    have hmib := mib_pos
    have hhost := hcap.1
    calc (hostShare p (p.gpus / k) (teamRateBps p gpuBps k)).1
        = (n / k : Int) * ((hostShare p (p.gpus / k) (teamRateBps p gpuBps k)).1 / mib) / p.hostMibs *
            (p.hostMibs * mib / (n / k : Int)) := by
          field_simp
      _ ≤ hostFactor p n (evaluateK p gpuBps k) * (p.hostMibs * mib / (n / k : Int)) :=
          mul_le_mul_of_nonneg_right hfactor (by positivity)
  · have hnew : (hostShare p (n / k) (teamRateBps p gpuBps k)).1 = (teamRateBps p gpuBps k).1 := by
      unfold hostShare
      rw [if_neg hcap]
    rw [hnew]
    exact hshare.trans (le_mul_of_one_le_left (hpos.trans_le hshare).le hone)

/-- **One team size**: with more GPUs its makespan grows at most by the factor. -/
theorem makespanS_withGpus (h : Planned p gpuBps k) (hn : p.gpus ≤ n) :
    (evaluateK (p.withGpus n) gpuBps k).makespanS ≤
      hostFactor p n (evaluateK p gpuBps k) * (evaluateK p gpuBps k).makespanS := by
  have hfactor : 0 ≤ hostFactor p n (evaluateK p gpuBps k) := zero_le_one.trans (one_le_hostFactor _ _ _)
  have hk := h.one_le
  have hteams : (p.gpus / k).toNat ≤ (n / k).toNat := Int.toNat_le_toNat (Int.ediv_le_ediv (by omega) hn)
  have heff := h.effectiveRate_pos
  have heff' := (h.withGpus hn).effectiveRate_pos
  have hrate : (evaluateK p gpuBps k).effectiveRate ≤
      hostFactor p n (evaluateK p gpuBps k) * (evaluateK (p.withGpus n) gpuBps k).effectiveRate := by
    have hpad := one_pos.trans_le (one_le_padFactor h.checked h.validCb)
    rw [effectiveRate_eq, effectiveRate_eq, ← mul_div_assoc]
    exact div_le_div_of_nonneg_right (hostShare_withGpus h hn) hpad.le
  rw [makespanS_eq, makespanS_eq, teamBusyS_eq, teamBusyS_eq]
  refine makespan_schedule_mono hfactor h.teams_toNat hteams ?_
  rw [List.forall₂_map_left_iff, List.forall₂_map_right_iff]
  refine List.forall₂_same.mpr fun z hz => ?_
  have hzpos := sortedSizes_pos h.checked z hz
  refine ⟨(div_pos hzpos heff).le, ?_⟩
  rw [← mul_div_assoc, div_le_div_iff₀ heff' heff, mul_comm (hostFactor _ _ _), mul_assoc]
  exact mul_le_mul_of_nonneg_left hrate hzpos.le

end Compare

/-! ## The sweep -/

theorem resolveGpuRate_withGpus (p : Params) (n : Int) : resolveGpuRate (p.withGpus n) = resolveGpuRate p := rfl

theorem best_mem {p : Params} {gpuBps : ℚ} {m : Report} (h : Computed p gpuBps m) :
    ∃ k, 1 ≤ k ∧ k ≤ p.gpus ∧ evaluateK p gpuBps k = m.best := by
  have hmem := List.argmin_mem h.best
  rw [h.sweep] at hmem
  obtain ⟨k, hk, hbest⟩ := List.mem_map.mp hmem
  exact ⟨k, (mem_ks.mp hk).1, (mem_ks.mp hk).2, hbest⟩

theorem best_le {p : Params} {gpuBps : ℚ} {m : Report} (h : Computed p gpuBps m) {k : Int} (hk : 1 ≤ k)
    (hkg : k ≤ p.gpus) : m.best.makespanS ≤ (evaluateK p gpuBps k).makespanS := by
  refine List.le_of_mem_argmin ?_ h.best
  rw [h.sweep]
  exact List.mem_map_of_mem (mem_ks.mpr ⟨hk, hkg⟩)

theorem best_eq {p : Params} {m : Report} {gpuBps : ℚ} {k : Int} (h : compute p = .ok m)
    (hrate : (resolveGpuRate p).map Prod.fst = .ok gpuBps) (hk : (compute p).map (fun m => m.best.k) = .ok k) :
    m.best = evaluateK p gpuBps k := by
  obtain ⟨bps, source, hbps, hm⟩ := compute_computed h
  rw [hbps] at hrate
  rw [h] at hk
  cases hrate
  obtain ⟨k', -, -, hbest⟩ := best_mem hm
  have hk' : m.best.k = k := Except.ok.inj hk
  rw [← hbest] at hk'
  rw [← hbest, ← hk']
  rfl

/-- **More GPUs**: the best makespan does not grow without a host cap, nor while the host carries the teams of the best
plan; otherwise it grows at most by the factor by which these exceed the host. -/
theorem best_gpus (py : Texts) (values : Key → Raw) (p : Params) (n : Int) (m m' : Report)
    (hbuild : buildParams py values = .ok p) (hcb : isValidChunkBlocks p.chunkBlocks = true) (hn : p.gpus ≤ n)
    (hcompute : compute p = .ok m) (hcompute' : compute (p.withGpus n) = .ok m') :
    m'.best.makespanS ≤ hostFactor p n m.best * m.best.makespanS ∧
      (p.hostMibs ≤ 0 ∨ (n / m.best.k : Int) * m.best.teamRateMibs ≤ p.hostMibs →
        m'.best.makespanS ≤ m.best.makespanS) := by
  obtain ⟨gpuBps, source, hrate, hm⟩ := compute_computed hcompute
  obtain ⟨gpuBps', source', hrate', hm'⟩ := compute_computed hcompute'
  rw [resolveGpuRate_withGpus, hrate] at hrate'
  cases hrate'
  obtain ⟨k, hk, hkg, hbest⟩ := best_mem hm
  have h : Planned p gpuBps k := ⟨buildParams_checked hbuild, hcb, hm.rate, hm.disks, hk, hkg⟩
  have hgrow : m'.best.makespanS ≤ hostFactor p n m.best * m.best.makespanS := by
    rw [← hbest]
    exact (best_le hm' hk (hkg.trans hn)).trans (makespanS_withGpus h hn)
  refine ⟨hgrow, fun hhost => ?_⟩
  have hone : hostFactor p n m.best = 1 := by
    unfold hostFactor
    split_ifs with hcap
    · exact max_eq_left ((div_le_one hcap).mpr (hhost.resolve_left (not_le.mpr hcap)))
    · rfl
  rwa [hone, one_mul] at hgrow

/-- The two GPUs and three disks on a host without a limit. -/
def freeValues (k : Key) : Raw := if k = .hostMibs then .none else pairValues k

def freeParams : Params := { pairParams with hostMibs := 0 }

theorem best_gpus_pair : (evaluateK (pairParams.withGpus 3) (100 * mib) 2).makespanS ≤
      hostFactor pairParams 3 (evaluateK pairParams (100 * mib) 1) * (evaluateK pairParams (100 * mib) 1).makespanS ∧
    ∃ m m', compute freeParams = .ok m ∧ compute (freeParams.withGpus 3) = .ok m' ∧ m'.best.makespanS ≤ m.best.makespanS := by
  constructor
  · obtain ⟨m, hm⟩ := exists_ok (x := compute pairParams) (by decide +kernel)
    obtain ⟨m', hm'⟩ := exists_ok (x := compute (pairParams.withGpus 3)) (by decide +kernel)
    have hbest : m.best = evaluateK pairParams (100 * mib) 1 :=
      best_eq hm (by decide +kernel) (by decide +kernel)
    have hbest' : m'.best = evaluateK (pairParams.withGpus 3) (100 * mib) 2 :=
      best_eq hm' (by decide +kernel) (by decide +kernel)
    rw [← hbest, ← hbest']
    exact (best_gpus wholeTexts pairValues pairParams 3 m m' (by decide +kernel) (by decide +kernel) (by decide) hm hm').1
  · obtain ⟨m, hm⟩ := exists_ok (x := compute freeParams) (by decide +kernel)
    obtain ⟨m', hm'⟩ := exists_ok (x := compute (freeParams.withGpus 3)) (by decide +kernel)
    exact ⟨m, m', hm, hm', (best_gpus wholeTexts freeValues freeParams 3 m m' (by decide +kernel) (by decide +kernel)
      (by decide) hm hm').2 (.inl le_rfl)⟩

/-! ## A best makespan that grows -/

def hostBoundParams : Params := { gpus := 1, gpuMibs := 100, hostMibs := 100, poolEff := 2 / 5, diskSizesBytes := [100 * mib] }

def hostBoundValues : Key → Raw
  | .gpuMibs => .num 100
  | .gpus => .num 1
  | .diskTb => .num (100 * mib / tb)
  | .hostMibs => .num 100
  | .poolEff => .num (2 / 5)
  | _ => .none

/-- With a second GPU the disk takes 5/4 s instead of 1 s: split in two teams the host cap is 50 MiB/s for each, and two
pooled GPUs make 80 MiB/s. -/
theorem best_increases : ¬∀ (py : Texts) (values : Key → Raw) (p : Params) (n : Int) (m m' : Report),
    buildParams py values = .ok p → isValidChunkBlocks p.chunkBlocks = true → p.gpus ≤ n → compute p = .ok m →
      compute (p.withGpus n) = .ok m' → m'.best.makespanS ≤ m.best.makespanS := by
  intro hall
  obtain ⟨m, hm⟩ := exists_ok (x := compute hostBoundParams) (by decide +kernel)
  obtain ⟨m', hm'⟩ := exists_ok (x := compute (hostBoundParams.withGpus 2)) (by decide +kernel)
  have hone : (compute hostBoundParams).map (fun m => m.best.makespanS) = .ok 1 := by decide +kernel
  have htwo : (compute (hostBoundParams.withGpus 2)).map (fun m => m.best.makespanS) = .ok (5 / 4) := by decide +kernel
  rw [hm] at hone
  rw [hm'] at htwo
  have hone : m.best.makespanS = 1 := Except.ok.inj hone
  have htwo : m'.best.makespanS = 5 / 4 := Except.ok.inj htwo
  have hle := hall wholeTexts hostBoundValues hostBoundParams 2 m m' (by decide +kernel) (by decide +kernel) (by decide)
    hm hm'
  rw [hone, htwo] at hle
  exact absurd hle (by norm_num)

end PoseDB.Calc
