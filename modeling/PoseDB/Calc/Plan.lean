import PoseDB.Calc.Params
import PoseDB.Lib.ListSchedule
import Mathlib.Algebra.BigOperators.Ring.List
import Mathlib.Data.List.Forall2
import Mathlib.Data.List.Sort
import Mathlib.Data.Rat.Floor
import Mathlib.Order.WithBot

/-!
# Plans of the wipe time calculator (`evaluate_k` and `compute` of `disk_calc.py`)

A plan for `K` GPUs per disk has `gpus // K` teams at one rate and places the disks by list scheduling.
**`evaluateK_limits`**: no plan is faster than its GPUs, its copies, its disks or its host, and each is within one disk of
the average.
-/

set_option autoImplicit false

namespace PoseDB.Calc
open ListSchedule

/-! ## The code -/

inductive Stage
  | gpuLabeler
  | d2hCopy
  | diskWrite
  | hostAggregateWrite
deriving DecidableEq

/-- Bytes per second that `k` GPUs can push into one disk, and the binding stage. -/
def teamRateBps (p : Params) (gpuBps : ℚ) (k : Int) : ℚ × Stage :=
  let eff := if 1 < k then p.poolEff else 1
  let stages : List (Stage × WithTop ℚ) :=
    [(.gpuLabeler, (k * gpuBps * eff : ℚ)),
     (.d2hCopy, if 0 < p.d2hMibs then (k * p.d2hMibs * mib : ℚ) else ⊤),
     (.diskWrite, if 0 < p.diskMibs then (p.diskMibs * mib : ℚ) else ⊤)]
  match stages.argmin Prod.snd with
  | some stage => (stage.2.untopD 0, stage.1)
  | none => (0, .gpuLabeler)

/-- `lpt_schedule`: the makespan and the busy seconds of each team. -/
def lptSchedule (sizes : List ℚ) (teams : Int) (rateBps : ℚ) : ℚ × List ℚ :=
  let busy := schedule teams.toNat ((sizes.insertionSort (· ≥ ·)).map (· / rateBps))
  (makespan busy, busy)

structure Plan where
  k : Int
  teams : Int
  idleGpus : Int
  teamRateMibs : ℚ
  bindingStage : Stage
  hostBound : Bool
  padFactor : ℚ
  concurrentDisks : Int
  makespanS : ℚ
  teamBusyS : List ℚ
  gpuUtilisation : ℚ

/-- The rate of a team once all teams share `host_mibs`: rate, binding stage, whether the host binds. -/
def hostShare (p : Params) (teams : Int) (team : ℚ × Stage) : ℚ × Stage × Bool :=
  if 0 < p.hostMibs ∧ p.hostMibs * mib < teams * team.1 then (p.hostMibs * mib / teams, .hostAggregateWrite, true)
  else (team.1, team.2, false)

/-- Bytes written over payload bytes: a super-chunk is rounded up to the sector. -/
def padFactor (p : Params) : ℚ :=
  let superBytes : ℚ := p.chunkBlocks * poseHashBytes
  ⌈superBytes / p.sectorBytes⌉ * p.sectorBytes / superBytes

def evaluateK (p : Params) (gpuBps : ℚ) (k : Int) : Plan :=
  let teams := p.gpus / k
  let rate := hostShare p teams (teamRateBps p gpuBps k)
  let effectiveRate := rate.1 / padFactor p
  let plan := lptSchedule p.diskSizesBytes teams effectiveRate
  let ideal := p.diskSizesBytes.sum / (p.gpus * gpuBps)
  { k := k
    teams := teams
    idleGpus := p.gpus - teams * k
    teamRateMibs := rate.1 / mib
    bindingStage := rate.2.1
    hostBound := rate.2.2
    padFactor := padFactor p
    concurrentDisks := min teams p.diskSizesBytes.length
    makespanS := plan.1
    teamBusyS := plan.2
    gpuUtilisation := if 0 < plan.1 then ideal / plan.1 else 0 }

structure Report where
  rateSource : RateSource
  gpuMibs : ℚ
  impliedNodeHashesPerSec : ℚ
  chunkBlocks : Int
  validCb : Bool
  excess : ℚ
  scaffoldNodes : Nat
  superBytes : Int
  totalBytes : ℚ
  aggregateGpuMibs : ℚ
  idealS : ℚ
  singleGpuS : ℚ
  sweep : List Plan
  best : Plan
  gpusPerDisk : Plan
  diskPerGpu : Plan
  chosen : Option Plan

/-- `range(1, gpus + 1)`. -/
def ks (gpus : Int) : List Int := (List.range gpus.toNat).map fun i : Nat => (i + 1 : Int)

def compute (p : Params) : Except String Report := do
  let (gpuBps, rateSource) ← resolveGpuRate p
  if gpuBps ≤ 0 then throw "no GPU rate — provide --gpu-mibs (measured) or --gpu-hash-rate"
  if p.diskSizesBytes = [] then throw "no disks — provide --disk-tb [--disks N] or --disk-sizes-tb a,b,c"
  if p.gpus < 1 then throw "--gpus must be >= 1"
  let totalBytes := p.diskSizesBytes.sum
  let excess ← excessMultiplier p.chunkBlocks
  let sweep := (ks p.gpus).map (evaluateK p gpuBps)
  let some best := sweep.argmin Plan.makespanS | throw "min() arg is an empty sequence"
  -- each `k` is in the sweep once, so `by_k[k]` is its plan
  pure
    { rateSource := rateSource
      gpuMibs := gpuBps / mib
      impliedNodeHashesPerSec := gpuBps / poseHashBytes * excess
      chunkBlocks := p.chunkBlocks
      validCb := isValidChunkBlocks p.chunkBlocks
      excess := excess
      scaffoldNodes := scratchNodes p.chunkBlocks
      superBytes := p.chunkBlocks * poseHashBytes
      totalBytes := totalBytes
      aggregateGpuMibs := p.gpus * gpuBps / mib
      idealS := totalBytes / (p.gpus * gpuBps)
      singleGpuS := totalBytes / gpuBps
      sweep := sweep
      best := best
      gpusPerDisk := evaluateK p gpuBps p.gpus
      diskPerGpu := evaluateK p gpuBps 1
      chosen := if p.gpusPerDisk ≠ 0 then sweep.find? fun r => r.k == p.gpusPerDisk else none }

/-! ## What `compute` has checked -/

/-- A rate and disks that `compute` accepts. -/
structure Computed (p : Params) (gpuBps : ℚ) (m : Report) : Prop where
  rate : 0 < gpuBps
  disks : p.diskSizesBytes ≠ []
  gpus : 1 ≤ p.gpus
  sweep : m.sweep = (ks p.gpus).map (evaluateK p gpuBps)
  best : m.sweep.argmin Plan.makespanS = some m.best

theorem compute_computed {p : Params} {m : Report} (h : compute p = .ok m) :
    ∃ gpuBps source, resolveGpuRate p = .ok (gpuBps, source) ∧ Computed p gpuBps m := by
  unfold compute at h
  obtain ⟨⟨gpuBps, source⟩, hrate, h⟩ := bind_ok h
  obtain ⟨hpos, h⟩ := unless_ok h
  obtain ⟨hdisks, h⟩ := unless_ok h
  obtain ⟨hgpus, h⟩ := unless_ok h
  obtain ⟨excess, -, h⟩ := bind_ok h
  refine ⟨gpuBps, source, hrate, ?_⟩
  dsimp only at h
  cases hbest : ((ks p.gpus).map (evaluateK p gpuBps)).argmin Plan.makespanS with
  | none =>
      rw [hbest] at h
      exact absurd h (by simp [throw, throwThe, MonadExceptOf.throw])
  | some best =>
      rw [hbest] at h
      cases h
      exact ⟨not_le.mp hpos, hdisks, not_lt.mp hgpus, rfl, hbest⟩

theorem mem_ks {gpus k : Int} : k ∈ ks gpus ↔ 1 ≤ k ∧ k ≤ gpus := by
  unfold ks
  rw [List.mem_map]
  constructor
  · rintro ⟨i, hi, rfl⟩
    rw [List.mem_range] at hi
    omega
  · rintro ⟨h1, h2⟩
    exact ⟨(k - 1).toNat, List.mem_range.mpr (by omega), by omega⟩

/-! ## The rate of a team -/

/-- What the GPUs, their copies and the disk of a team allow; a cap of 0 is not set. -/
def teamLimit (p : Params) (gpuBps : ℚ) (k : Int) : ℚ :=
  let gpu := k * gpuBps
  let copy := if 0 < p.d2hMibs then min gpu (k * p.d2hMibs * mib) else gpu
  if 0 < p.diskMibs then min copy (p.diskMibs * mib) else copy

theorem mib_pos : 0 < mib := by
  unfold mib
  norm_num

theorem teamRateBps_stages (p : Params) (gpuBps : ℚ) (k : Int) :
    let r := (teamRateBps p gpuBps k).1
    let gpu := k * gpuBps * if 1 < k then p.poolEff else 1
    (r = gpu ∨ (0 < p.d2hMibs ∧ r = k * p.d2hMibs * mib) ∨ (0 < p.diskMibs ∧ r = p.diskMibs * mib)) ∧
      r ≤ gpu ∧ (0 < p.d2hMibs → r ≤ k * p.d2hMibs * mib) ∧ (0 < p.diskMibs → r ≤ p.diskMibs * mib) := by
  unfold teamRateBps
  dsimp only
  generalize hgpu : (k * gpuBps * if 1 < k then p.poolEff else 1) = gpu
  generalize hstages : [(Stage.gpuLabeler, (gpu : WithTop ℚ)),
    (Stage.d2hCopy, if 0 < p.d2hMibs then ((k * p.d2hMibs * mib : ℚ) : WithTop ℚ) else ⊤),
    (Stage.diskWrite, if 0 < p.diskMibs then ((p.diskMibs * mib : ℚ) : WithTop ℚ) else ⊤)] = stages
  cases hmin : stages.argmin Prod.snd with
  | none => exact absurd (hstages.trans (List.argmin_eq_none.mp hmin)) (List.cons_ne_nil _ _)
  | some stage =>
      have hmem := List.argmin_mem hmin
      have hle : ∀ s ∈ stages, stage.2 ≤ s.2 := fun s hs => List.le_of_mem_argmin hs hmin
      subst hstages
      obtain ⟨r, hr, hrgpu⟩ := WithTop.le_coe_iff.mp (hle _ List.mem_cons_self)
      have hcopy := hle _ (List.mem_cons_of_mem _ List.mem_cons_self)
      have hdisk := hle _ (List.mem_cons_of_mem _ (List.mem_cons_of_mem _ List.mem_cons_self))
      dsimp only at hcopy hdisk ⊢
      rw [hr] at hcopy hdisk ⊢
      rw [WithTop.untopD_coe]
      refine ⟨?_, hrgpu, fun h => ?_, fun h => ?_⟩
      · simp only [List.mem_cons, List.not_mem_nil, or_false] at hmem
        rcases hmem with hs | hs | hs <;> rw [hs] at hr <;> dsimp only at hr
        · exact Or.inl (WithTop.coe_injective hr.symm)
        · by_cases h : 0 < p.d2hMibs
          · rw [if_pos h] at hr
            exact Or.inr (Or.inl ⟨h, WithTop.coe_injective hr.symm⟩)
          · rw [if_neg h] at hr
            exact absurd hr.symm WithTop.coe_ne_top
        · by_cases h : 0 < p.diskMibs
          · rw [if_pos h] at hr
            exact Or.inr (Or.inr ⟨h, WithTop.coe_injective hr.symm⟩)
          · rw [if_neg h] at hr
            exact absurd hr.symm WithTop.coe_ne_top
      · rw [if_pos h] at hcopy
        exact WithTop.coe_le_coe.mp hcopy
      · rw [if_pos h] at hdisk
        exact WithTop.coe_le_coe.mp hdisk

section Rates
variable {p : Params} {gpuBps : ℚ} {k : Int}

theorem teamRateBps_pos (hp : p.Checked) (hrate : 0 < gpuBps) (hk : 1 ≤ k) : 0 < (teamRateBps p gpuBps k).1 := by
  have hk' : (0 : ℚ) < k := by exact_mod_cast hk
  have heff : (0 : ℚ) < if 1 < k then p.poolEff else 1 := by
    split
    · exact hp.poolEff.1
    · exact one_pos
  rcases (teamRateBps_stages p gpuBps k).1 with h | ⟨hcap, h⟩ | ⟨hcap, h⟩ <;> rw [h]
  · exact mul_pos (mul_pos hk' hrate) heff
  · exact mul_pos (mul_pos hk' hcap) mib_pos
  · exact mul_pos hcap mib_pos

theorem teamRateBps_le_teamLimit (hp : p.Checked) (hrate : 0 < gpuBps) (hk : 1 ≤ k) :
    (teamRateBps p gpuBps k).1 ≤ teamLimit p gpuBps k := by
  have hk' : (0 : ℚ) < k := by exact_mod_cast hk
  obtain ⟨-, hgpu, hcopy, hdisk⟩ := teamRateBps_stages p gpuBps k
  have hgpu' : (teamRateBps p gpuBps k).1 ≤ k * gpuBps := by
    refine hgpu.trans (mul_le_of_le_one_right (mul_pos hk' hrate).le ?_)
    split
    · exact hp.poolEff.2
    · exact le_rfl
  unfold teamLimit
  dsimp only
  split_ifs with hw hd hd
  · exact le_min (le_min hgpu' (hcopy hd)) (hdisk hw)
  · exact le_min hgpu' (hdisk hw)
  · exact le_min hgpu' (hcopy hd)
  · exact hgpu'

theorem teamLimit_le_gpus (p : Params) (gpuBps : ℚ) (k : Int) : teamLimit p gpuBps k ≤ k * gpuBps := by
  unfold teamLimit
  dsimp only
  split_ifs
  · exact (min_le_left _ _).trans (min_le_left _ _)
  · exact min_le_left _ _
  · exact min_le_left _ _
  · exact le_rfl

theorem one_le_padFactor (hp : p.Checked) (hcb : isValidChunkBlocks p.chunkBlocks = true) : 1 ≤ padFactor p := by
  have hcb1 : 1 ≤ p.chunkBlocks := by
    unfold isValidChunkBlocks at hcb
    simp only [Bool.and_eq_true, decide_eq_true_eq] at hcb
    exact hcb.1.1
  have hsector : (0 : ℚ) < p.sectorBytes := by
    have h := hp.sectorBytes
    unfold poseHashBytes at h
    exact_mod_cast (by omega : 0 < p.sectorBytes)
  have hsuper : (0 : ℚ) < p.chunkBlocks * poseHashBytes := by
    unfold poseHashBytes
    exact_mod_cast (by omega : 0 < p.chunkBlocks * 32)
  unfold padFactor
  dsimp only
  rw [one_le_div hsuper, ← div_le_iff₀ hsector]
  exact Int.le_ceil _

/-- The share of the host is no more than the rate, and all teams together respect the host. -/
theorem hostShare_le {teams : Int} (hteams : 1 ≤ teams) (team : ℚ × Stage) :
    (hostShare p teams team).1 ≤ team.1 ∧ (0 < p.hostMibs → teams * (hostShare p teams team).1 ≤ p.hostMibs * mib) := by
  have hteams' : (0 : ℚ) < teams := by exact_mod_cast hteams
  unfold hostShare
  split_ifs with h
  · dsimp only
    refine ⟨?_, fun _ => ?_⟩
    · rw [div_le_iff₀ hteams', mul_comm team.1]
      exact h.2.le
    · rw [mul_div_cancel₀ _ hteams'.ne']
  · exact ⟨le_rfl, fun hhost => not_lt.mp fun hlt => h ⟨hhost, hlt⟩⟩

theorem hostShare_pos {teams : Int} (hteams : 1 ≤ teams) {team : ℚ × Stage} (hteam : 0 < team.1) :
    0 < (hostShare p teams team).1 := by
  have hteams' : (0 : ℚ) < teams := by exact_mod_cast hteams
  unfold hostShare
  split_ifs with h
  · exact div_pos (mul_pos h.1 mib_pos) hteams'
  · exact hteam

end Rates

/-! ## One plan -/

def Plan.effectiveRate (r : Plan) : ℚ := r.teamRateMibs * mib / r.padFactor

/-- The disks in the order of `lpt_schedule`. -/
def sortedSizes (p : Params) : List ℚ := p.diskSizesBytes.insertionSort (· ≥ ·)

def diskEnds (p : Params) (r : Plan) : List ℚ :=
  finishTimes (List.replicate r.teams.toNat 0) ((sortedSizes p).map (· / r.effectiveRate))

def largest (p : Params) : ℚ := (p.diskSizesBytes.argmax id).getD 0

section Plans
variable {p : Params} {gpuBps : ℚ} {k : Int}

theorem effectiveRate_eq (p : Params) (gpuBps : ℚ) (k : Int) :
    (evaluateK p gpuBps k).effectiveRate = (hostShare p (p.gpus / k) (teamRateBps p gpuBps k)).1 / padFactor p := by
  unfold Plan.effectiveRate evaluateK
  dsimp only
  rw [div_mul_cancel₀ _ mib_pos.ne']

theorem teamBusyS_eq (p : Params) (gpuBps : ℚ) (k : Int) :
    (evaluateK p gpuBps k).teamBusyS =
      schedule (p.gpus / k).toNat ((sortedSizes p).map (· / (evaluateK p gpuBps k).effectiveRate)) := by
  rw [effectiveRate_eq]
  rfl

theorem makespanS_eq (p : Params) (gpuBps : ℚ) (k : Int) :
    (evaluateK p gpuBps k).makespanS = makespan (evaluateK p gpuBps k).teamBusyS := rfl

theorem sum_sortedSizes (p : Params) : (sortedSizes p).sum = p.diskSizesBytes.sum :=
  (List.perm_insertionSort _ _).sum_eq

theorem sum_times (p : Params) (rate : ℚ) : ((sortedSizes p).map (· / rate)).sum = p.diskSizesBytes.sum / rate := by
  have hmul : (sortedSizes p).map (· / rate) = (sortedSizes p).map (· * rate⁻¹) :=
    List.map_congr_left fun z _ => div_eq_mul_inv z rate
  rw [hmul, List.sum_map_mul_right, List.map_id', sum_sortedSizes, div_eq_mul_inv]

theorem sortedSizes_pos (hp : p.Checked) : ∀ z ∈ sortedSizes p, 0 < z :=
  fun z hz => hp.sizes z ((List.mem_insertionSort _).mp hz)

theorem total_pos (hp : p.Checked) (hdisks : p.diskSizesBytes ≠ []) : 0 < p.diskSizesBytes.sum :=
  List.sum_pos _ hp.sizes hdisks

theorem teams_pos (hk : 1 ≤ k) (hkg : k ≤ p.gpus) : 1 ≤ p.gpus / k :=
  (Int.le_ediv_iff_mul_le (by omega)).mpr (by omega)

theorem le_largest (p : Params) : ∀ z ∈ p.diskSizesBytes, z ≤ largest p := fun _ hz => le_makespan hz

/-- What `evaluate_k` is called with. -/
structure Planned (p : Params) (gpuBps : ℚ) (k : Int) : Prop where
  checked : p.Checked
  validCb : isValidChunkBlocks p.chunkBlocks = true
  rate : 0 < gpuBps
  disks : p.diskSizesBytes ≠ []
  one_le : 1 ≤ k
  le_gpus : k ≤ p.gpus

namespace Planned
variable (h : Planned p gpuBps k)
include h

theorem teams : 1 ≤ p.gpus / k := teams_pos h.one_le h.le_gpus

theorem teams_toNat : 0 < (p.gpus / k).toNat := by
  have hteams := h.teams
  omega

theorem cast_teams : ((p.gpus / k).toNat : ℚ) = (p.gpus / k : Int) := by
  have hteams := h.teams
  exact_mod_cast congrArg (Int.cast : Int → ℚ) (Int.toNat_of_nonneg (by omega : 0 ≤ p.gpus / k))

theorem cast_teams_pos : (0 : ℚ) < (p.gpus / k : Int) := by exact_mod_cast h.teams

theorem hostShare_pos : 0 < (hostShare p (p.gpus / k) (teamRateBps p gpuBps k)).1 :=
  Calc.hostShare_pos h.teams (teamRateBps_pos h.checked h.rate h.one_le)

theorem effectiveRate_pos : 0 < (evaluateK p gpuBps k).effectiveRate := by
  rw [effectiveRate_eq]
  exact div_pos h.hostShare_pos (one_pos.trans_le (one_le_padFactor h.checked h.validCb))

theorem effectiveRate_le_hostShare :
    (evaluateK p gpuBps k).effectiveRate ≤ (hostShare p (p.gpus / k) (teamRateBps p gpuBps k)).1 := by
  rw [effectiveRate_eq]
  exact div_le_self h.hostShare_pos.le (one_le_padFactor h.checked h.validCb)

theorem effectiveRate_le_teamLimit : (evaluateK p gpuBps k).effectiveRate ≤ teamLimit p gpuBps k :=
  h.effectiveRate_le_hostShare.trans
    ((hostShare_le h.teams _).1.trans (teamRateBps_le_teamLimit h.checked h.rate h.one_le))

theorem teams_mul_effectiveRate_le (hhost : 0 < p.hostMibs) :
    (p.gpus / k : Int) * (evaluateK p gpuBps k).effectiveRate ≤ p.hostMibs * mib := by
  have hshare := (hostShare_le (p := p) h.teams (teamRateBps p gpuBps k)).2 hhost
  exact (mul_le_mul_of_nonneg_left h.effectiveRate_le_hostShare h.cast_teams_pos.le).trans hshare

theorem times_pos : ∀ t ∈ (sortedSizes p).map (· / (evaluateK p gpuBps k).effectiveRate), 0 < t := by
  intro t ht
  obtain ⟨z, hz, rfl⟩ := List.mem_map.mp ht
  exact div_pos (sortedSizes_pos h.checked z hz) h.effectiveRate_pos

theorem sum_teamBusyS :
    (evaluateK p gpuBps k).teamBusyS.sum = p.diskSizesBytes.sum / (evaluateK p gpuBps k).effectiveRate := by
  rw [teamBusyS_eq, sum_schedule h.teams_toNat, sum_times]

/-- The teams cannot write more in the makespan than at their rate. -/
theorem total_le : p.diskSizesBytes.sum ≤
    (p.gpus / k : Int) * (evaluateK p gpuBps k).effectiveRate * (evaluateK p gpuBps k).makespanS := by
  have hload := sum_le_length_mul_makespan (evaluateK p gpuBps k).teamBusyS
  rw [h.sum_teamBusyS, ← makespanS_eq, teamBusyS_eq, length_schedule, h.cast_teams,
    div_le_iff₀ h.effectiveRate_pos] at hload
  linarith

theorem makespanS_pos : 0 < (evaluateK p gpuBps k).makespanS := by
  have hload := (total_pos h.checked h.disks).trans_le h.total_le
  exact pos_of_mul_pos_right hload (mul_pos h.cast_teams_pos h.effectiveRate_pos).le

theorem throughput_le : p.diskSizesBytes.sum / (evaluateK p gpuBps k).makespanS ≤
    (p.gpus / k : Int) * (evaluateK p gpuBps k).effectiveRate :=
  (div_le_iff₀ h.makespanS_pos).mpr h.total_le

theorem throughput_le_stages : p.diskSizesBytes.sum / (evaluateK p gpuBps k).makespanS ≤
    (p.gpus / k : Int) * teamLimit p gpuBps k :=
  h.throughput_le.trans (mul_le_mul_of_nonneg_left h.effectiveRate_le_teamLimit h.cast_teams_pos.le)

theorem throughput_le_gpus : p.diskSizesBytes.sum / (evaluateK p gpuBps k).makespanS ≤ p.gpus * gpuBps := by
  have hk := h.one_le
  have hused : ((p.gpus / k : Int) : ℚ) * k ≤ p.gpus := by exact_mod_cast Int.ediv_mul_le p.gpus (by omega)
  calc p.diskSizesBytes.sum / (evaluateK p gpuBps k).makespanS
      ≤ (p.gpus / k : Int) * (k * gpuBps) :=
        h.throughput_le_stages.trans (mul_le_mul_of_nonneg_left (teamLimit_le_gpus p gpuBps k) h.cast_teams_pos.le)
    _ = (p.gpus / k : Int) * k * gpuBps := (mul_assoc _ _ _).symm
    _ ≤ p.gpus * gpuBps := mul_le_mul_of_nonneg_right hused h.rate.le

theorem gpuUtilisation_le_one : (evaluateK p gpuBps k).gpuUtilisation ≤ 1 := by
  have hgpus : (0 : ℚ) < p.gpus := by exact_mod_cast h.checked.gpus
  change (if 0 < (evaluateK p gpuBps k).makespanS then
    p.diskSizesBytes.sum / (p.gpus * gpuBps) / (evaluateK p gpuBps k).makespanS else 0) ≤ 1
  rw [if_pos h.makespanS_pos, div_right_comm, div_le_one (mul_pos hgpus h.rate)]
  exact h.throughput_le_gpus

/-- No disk is finished sooner than its team could write it alone. -/
theorem le_diskEnds : List.Forall₂ (fun z f => z / teamLimit p gpuBps k ≤ f) (sortedSizes p)
    (diskEnds p (evaluateK p gpuBps k)) := by
  have hends := le_finishTimes (replicate_ne_nil h.teams_toNat) (fun _ hy => (List.eq_of_mem_replicate hy).ge)
    fun t ht => (h.times_pos t ht).le
  rw [List.forall₂_map_left_iff] at hends
  refine ((List.forall₂_and_left _ _).mpr ⟨sortedSizes_pos h.checked, hends⟩).imp fun z f hzf => ?_
  exact (div_le_div_of_nonneg_left hzf.1.le h.effectiveRate_pos h.effectiveRate_le_teamLimit).trans hzf.2

theorem makespanS_latest : (evaluateK p gpuBps k).makespanS ∈ diskEnds p (evaluateK p gpuBps k) ∧
    ∀ f ∈ diskEnds p (evaluateK p gpuBps k), f ≤ (evaluateK p gpuBps k).makespanS := by
  have hne := replicate_ne_nil (α := ℚ) h.teams_toNat
  have hbusy := makespan_mem (schedule_ne_nil h.teams_toNat
    ((sortedSizes p).map (· / (evaluateK p gpuBps k).effectiveRate)))
  rw [makespanS_eq, teamBusyS_eq]
  refine ⟨?_, finishTimes_le_makespan hne fun t ht => (h.times_pos t ht).le⟩
  rcases mem_foldl_place hne _ hbusy with hzero | hend
  · have hpos := h.makespanS_pos
    rw [makespanS_eq, teamBusyS_eq, List.eq_of_mem_replicate hzero] at hpos
    exact absurd hpos (lt_irrefl 0)
  · exact hend

theorem busy_mul : ((evaluateK p gpuBps k).teamBusyS.map (· * (evaluateK p gpuBps k).effectiveRate)).sum =
    p.diskSizesBytes.sum := by
  rw [List.sum_map_mul_right, List.map_id', h.sum_teamBusyS, div_mul_cancel₀ _ h.effectiveRate_pos.ne']

theorem makespanS_le : (evaluateK p gpuBps k).makespanS ≤
    p.diskSizesBytes.sum / ((p.gpus / k : Int) * (evaluateK p gpuBps k).effectiveRate) +
      largest p / (evaluateK p gpuBps k).effectiveRate := by
  have heff := h.effectiveRate_pos
  have hlargest : 0 ≤ largest p / (evaluateK p gpuBps k).effectiveRate := by
    obtain ⟨z, hz⟩ := List.exists_mem_of_ne_nil _ h.disks
    exact div_nonneg ((h.checked.sizes z hz).le.trans (le_largest p z hz)) heff.le
  have htimes : ∀ t ∈ (sortedSizes p).map (· / (evaluateK p gpuBps k).effectiveRate),
      0 ≤ t ∧ t ≤ largest p / (evaluateK p gpuBps k).effectiveRate := by
    intro t ht
    refine ⟨(h.times_pos t ht).le, ?_⟩
    obtain ⟨z, hz, rfl⟩ := List.mem_map.mp ht
    exact div_le_div_of_nonneg_right (le_largest p z ((List.mem_insertionSort _).mp hz)) heff.le
  have haverage := mul_makespan_le h.teams_toNat htimes hlargest
  rw [← teamBusyS_eq, ← makespanS_eq, sum_times, h.cast_teams, mul_comm, ← le_div_iff₀ h.cast_teams_pos, add_div,
    mul_div_cancel_left₀ _ h.cast_teams_pos.ne', div_div, mul_comm (evaluateK p gpuBps k).effectiveRate] at haverage
  exact haverage

end Planned

/-- The limits that a plan respects. -/
structure Plan.Respects (p : Params) (gpuBps : ℚ) (r : Plan) : Prop where
  gpus : p.diskSizesBytes.sum / r.makespanS ≤ p.gpus * gpuBps
  utilisation : r.gpuUtilisation ≤ 1
  host : 0 < p.hostMibs → p.diskSizesBytes.sum / r.makespanS ≤ p.hostMibs * mib
  stages : p.diskSizesBytes.sum / r.makespanS ≤ r.teams * teamLimit p gpuBps r.k
  disks : List.Forall₂ (fun z f => z / teamLimit p gpuBps r.k ≤ f) (sortedSizes p) (diskEnds p r)
  latest : r.makespanS ∈ diskEnds p r ∧ ∀ f ∈ diskEnds p r, f ≤ r.makespanS
  busy : (r.teamBusyS.map (· * r.effectiveRate)).sum = p.diskSizesBytes.sum
  average : r.makespanS ≤ p.diskSizesBytes.sum / (r.teams * r.effectiveRate) + largest p / r.effectiveRate

/-- **No plan is faster than what is configured allows**, and none is behind the average by more than one disk. -/
theorem evaluateK_limits (py : Texts) (values : Key → Raw) (p : Params) (m : Report) (gpuBps : ℚ) (source : RateSource)
    (k : Int) (hbuild : buildParams py values = .ok p) (hcompute : compute p = .ok m)
    (hcb : isValidChunkBlocks p.chunkBlocks = true) (hrate : resolveGpuRate p = .ok (gpuBps, source)) (hk : 1 ≤ k)
    (hkg : k ≤ p.gpus) : evaluateK p gpuBps k ∈ m.sweep ∧ (evaluateK p gpuBps k).Respects p gpuBps := by
  obtain ⟨bps, src, hbps, hm⟩ := compute_computed hcompute
  rw [hrate] at hbps
  cases hbps
  have h : Planned p gpuBps k := ⟨buildParams_checked hbuild, hcb, hm.rate, hm.disks, hk, hkg⟩
  refine ⟨?_, ?_⟩
  · rw [hm.sweep]
    exact List.mem_map_of_mem (mem_ks.mpr ⟨hk, hkg⟩)
  · exact
      { gpus := h.throughput_le_gpus
        utilisation := h.gpuUtilisation_le_one
        host := fun hhost => h.throughput_le.trans (h.teams_mul_effectiveRate_le hhost)
        stages := h.throughput_le_stages
        disks := h.le_diskEnds
        latest := h.makespanS_latest
        busy := h.busy_mul
        average := h.makespanS_le }

def wholeTexts : Texts where
  float s := if s ≠ [] ∧ s.all Char.isDigit then pure (s.foldl (fun n c => 10 * n + (c.toNat - 48)) 0 : Nat)
    else throw "could not convert string to float"
  str x := (toString x.num).toList

def pairValues : Key → Raw
  | .gpuMibs => .num 100
  | .gpus => .num 2
  | .diskSizesTb => .text ['2', ',', '5', ',', '3']
  | .hostMibs => .num 150
  | _ => .none

def pairParams : Params := { gpus := 2, gpuMibs := 100, diskSizesBytes := [2 * tb, 5 * tb, 3 * tb], hostMibs := 150 }

theorem evaluateK_limits_pair : (evaluateK pairParams (100 * mib) 1).Respects pairParams (100 * mib) := by
  obtain ⟨m, hm⟩ := exists_ok (x := compute pairParams) (by decide +kernel)
  exact (evaluateK_limits wholeTexts pairValues pairParams m (100 * mib) .measured 1 (by decide +kernel) hm
    (by decide +kernel) (by decide +kernel) (by decide) (by decide)).2

end Plans

end PoseDB.Calc
