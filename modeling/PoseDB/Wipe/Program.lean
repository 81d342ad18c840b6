import PoseDB.Wipe.Args
import PoseDB.Wipe.Disks
import PoseDB.Wipe.Safety
import PoseDB.Wipe.Verify

/-!
# The whole program (`main` of `disk_wipe_bench.cu`)

From the arguments to the exit code: the checks, the workers, and the verification. Here is the code, what the
arguments allow (`readArgs_grants`), what has been checked when the workers start (`main_checked`, `main_start`), and
what the workers may write (`runWorkers_safe`).
-/

set_option autoImplicit false

namespace PoseDB.Wipe
open Mem PoseDB.Graph Region Cover CText

variable {α : Type}

/-! ## The code -/

/-- What the program meets: the calls up to the start of the workers, the node hash with the bytes of a label, the
order that `std::sort` gives, the calls of each worker and of the verification of each disk, the contents of fresh
buffers, and the order in which the writes of the workers come. -/
structure RunEnv (α : Type) extends MainEnv where
  hash : PoseHash α
  bytes : α → Nat → Byte
  sort : List Nat → List Nat
  sort_perm : ∀ lens, (sort lens).Perm (List.range lens.length)
  sort_sorted : ∀ lens, (sort lens).Pairwise fun a b => lens.getD b 0 ≤ lens.getD a 0
  worker : (t j : Nat) → Env
  dBuf : (t j : Nat) → Nat → Byte
  hStage : (t j : Nat) → Nat → Byte
  merge : List (List Write) → List Write
  merge_interleaved : ∀ logs, Interleaved logs (merge logs)
  verify : (i : Nat) → VerifyEnv α
  region : (i : Nat) → RegionState α
  diskBuf : (i : Nat) → Nat → Byte

/-- `g_seed` as the labelers get it. -/
def MainConfig.sessionSeed (cfg : MainConfig) : List UInt8 := (List.range 32).map fun i => UInt8.ofBitVec (cfg.seed i)

def TargetDisk.openDisk (d : TargetDisk) : OpenDisk := ⟨d.fd, d.wipeLen⟩

section Code
variable (env : RunEnv α) (cfg : MainConfig)

/-- Byte `x` of the output labels of chunk index `J`. -/
def RunEnv.output (J x : Nat) : Byte :=
  env.bytes (chunkLabel env.hash (env.hash.chunkSeed cfg.sessionSeed J) cfg.chunkBlocks .blake3 (x / 32)) (x % 32)

def RunEnv.workerEnv (t j : Nat) : Env := { env.worker t j with output := env.output cfg }

/-- The calls of `verify_disk` on disk `i`, whose bytes are `file`. -/
def RunEnv.verifyEnv (i : Nat) (file : Nat → Byte) : VerifyEnv α :=
  { env.verify i with hash := env.hash, bytes := env.bytes, seed := cfg.sessionSeed, file := file }

def collect {σ : Type} : List (Option σ) → Option (List σ)
  | [] => some []
  | none :: _ => none
  | some r :: rs => (collect rs).map (r :: ·)

/-- `team_results`, team by team. -/
def runWorkers (disks : List OpenDisk) (K : Nat) : Option (List State) :=
  let T := cfg.gpus.length / K
  let order := env.sort (disks.map OpenDisk.wipeLen)
  collect <| (List.range T).flatMap fun t =>
    let team := perGpu cfg.toConfig K disks (teamDisks T order t)
    (List.range K).map fun j => worker (env.workerEnv cfg t j) cfg.toConfig (team j) (State.init (env.dBuf t j) (env.hStage t j))

/-- A loop over the disks that verifies each of them, from number `i` on; `ok` so far. -/
def verifyDisks (image : Nat → Nat → Byte) : List TargetDisk → (i : Nat) → (ok : Bool) → Option Bool
  | [], _, ok => some ok
  | d :: ds, i, ok =>
    match verifyDisk (env.verifyEnv cfg i (image d.fd)) d.wipeLen cfg.chunkBlocks cfg.verifyN (env.region i) (env.diskBuf i) with
    | none => none
    | some v => verifyDisks image ds (i + 1) (if v.rc ≠ 0 then false else if v.mismOut ≠ 0 then false else ok)

end Code

/-- The exit code, and the contents of the files. -/
structure Ended where
  rc : Nat
  image : Nat → Nat → Byte

/-- The whole of `main`: `none` where it never returns. -/
def program (env : RunEnv α) (args : List Text) (image : Nat → Nat → Byte) : Option Ended :=
  match main env.toMainEnv args with
  | .exit e => some ⟨e.rc, image⟩
  | .verify cfg disks => (verifyDisks env cfg image disks 0 true).map fun ok => ⟨if ok then 0 else 1, image⟩
  | .start cfg disks K =>
    match runWorkers env cfg (disks.map TargetDisk.openDisk) K with
    | none => none
    | some results =>
      let image := replay (env.merge (results.map State.writes)) image
      let ok := results.all State.ok
      if cfg.verifyN > 0 ∧ cfg.dryRun = false then
        (verifyDisks env cfg image disks 0 ok).map fun ok => ⟨if ok then 0 else 1, image⟩
      else some ⟨if ok then 0 else 1, image⟩

theorem collect_eq {σ : Type} {l : List (Option σ)} {rs : List σ} : collect l = some rs ↔ l = rs.map some := by
  induction l generalizing rs with
  | nil =>
      rw [collect, Option.some.injEq, eq_comm, eq_comm (a := []), List.map_eq_nil_iff]
  | cons o l ih =>
      cases o with
      | none =>
          rw [collect]
          refine ⟨fun h => (by cases h), fun h => ?_⟩
          cases rs <;> cases h
      | some r =>
          rw [collect, Option.map_eq_some_iff]
          constructor
          · rintro ⟨rs', hrs', rfl⟩
            rw [ih.mp hrs', List.map_cons]
          · intro h
            cases rs with
            | nil => cases h
            | cons r' rs' =>
                rw [List.map_cons, List.cons.injEq, Option.some.injEq] at h
                exact ⟨rs', ih.mpr h.2, by rw [h.1]⟩

theorem collect_forall {σ : Type} {P : σ → Prop} {l : List (Option σ)} (h : ∀ o ∈ l, ∃ r, o = some r ∧ P r) :
    ∃ rs, collect l = some rs ∧ ∀ r ∈ rs, P r := by
  induction l with
  | nil => exact ⟨[], rfl, fun r hr => (List.not_mem_nil hr).elim⟩
  | cons o l ih =>
      obtain ⟨r, rfl, hr⟩ := h o List.mem_cons_self
      obtain ⟨rs, hrs, hall⟩ := ih fun o' ho' => h o' (List.mem_cons_of_mem _ ho')
      refine ⟨r :: rs, by rw [collect, hrs]; rfl, fun r' hr' => ?_⟩
      rcases List.mem_cons.mp hr' with rfl | hr'
      · exact hr
      · exact hall r' hr'

/-! ## What the arguments allow -/

section Arguments
variable {a : Text} {next : Option Text} {cfg cfg' : MainConfig} {used : Bool}

/-- Where the targets and the confirmation come from. -/
structure Grants (a : Text) (next : Option Text) (cfg cfg' : MainConfig) : Prop where
  confirm : cfg'.confirm = true → cfg.confirm = true ∨ a = "--confirm".toList
  disks : ∀ p ∈ cfg'.disks, p ∈ cfg.disks ∨ a = "--disk".toList ∧ next = some p

theorem need_grants {n : String} {k : Text → Except Exit MainConfig} (h : need n next k = .ok (cfg', used))
    (hk : ∀ v, next = some v → k v = .ok cfg' → Grants a next cfg cfg') : Grants a next cfg cfg' := by
  unfold need at h
  split at h
  · cases h
  · rename_i v
    split at h
    · cases h
    · rename_i hv
      cases h
      exact hk v rfl hv

theorem Grants.of_eq (hconfirm : cfg'.confirm = cfg.confirm) (hdisks : cfg'.disks = cfg.disks) : Grants a next cfg cfg' :=
  ⟨fun h => .inl (hconfirm ▸ h), fun _ hp => .inl (hdisks ▸ hp)⟩

theorem of_ite {c P : Prop} [Decidable c] {β : Type} {x y z : β} (h : (if c then x else y) = z) (hpos : c → x = z → P)
    (hneg : y = z → P) : P := by
  split at h
  · exact hpos ‹_› h
  · exact hneg h

theorem readArg_grants (h : readArg a next cfg = .ok (cfg', used)) : Grants a next cfg cfg' := by
  have hset : ∀ (n : String) (f : Text → MainConfig), (∀ v, (f v).confirm = cfg.confirm ∧ (f v).disks = cfg.disks) →
      need n next (fun v => .ok (f v)) = .ok (cfg', used) → Grants a next cfg cfg' := fun n f hf h =>
    need_grants h fun v _ hv => by
      cases hv
      exact Grants.of_eq (hf v).1 (hf v).2
  have hflag : ∀ c : MainConfig, c.confirm = cfg.confirm → c.disks = cfg.disks →
      (Except.ok (c, false) : Except Exit (MainConfig × Bool)) = .ok (cfg', used) → Grants a next cfg cfg' :=
    fun c hc hd h => by
      cases h
      exact Grants.of_eq hc hd
  unfold readArg at h
  refine of_ite h (fun ha h => ?disk) fun h => of_ite h (fun _ h => ?mode) fun h => of_ite h (fun _ => hset _ _ fun _ => ⟨rfl, rfl⟩)
    fun h => of_ite h (fun _ => hset _ _ fun _ => ⟨rfl, rfl⟩) fun h => of_ite h (fun _ => hflag _ rfl rfl)
    fun h => of_ite h (fun _ => hflag _ rfl rfl) fun h => of_ite h (fun _ => hset _ _ fun _ => ⟨rfl, rfl⟩)
    fun h => of_ite h (fun _ => hset _ _ fun _ => ⟨rfl, rfl⟩) fun h => of_ite h (fun _ => hset _ _ fun _ => ⟨rfl, rfl⟩)
    fun h => of_ite h (fun _ => hset _ _ fun _ => ⟨rfl, rfl⟩) fun h => of_ite h (fun _ => hflag _ rfl rfl)
    fun h => of_ite h (fun ha h => ?confirm) fun h => of_ite h (fun _ h => ?gpus) fun h => of_ite h (fun _ h => ?seed)
    fun h => of_ite h (fun _ h => by cases h) fun h => by cases h
  case disk =>
    refine need_grants h fun v hv hcfg => ?_
    cases hcfg
    refine ⟨fun h => .inl h, fun p hp => ?_⟩
    rcases List.mem_append.mp hp with hp | hp
    · exact .inl hp
    · exact .inr ⟨ha, by rw [hv, List.mem_singleton.mp hp]⟩
  case confirm =>
    cases h
    exact ⟨fun _ => .inr ha, fun _ hp => .inl hp⟩
  all_goals
    refine need_grants h fun v _ hcfg => ?_
    try dsimp only at hcfg
    split at hcfg
    · cases hcfg
    · cases hcfg
      exact Grants.of_eq rfl rfl

/-- Every target is the value of a `--disk`, and nothing is confirmed without `--confirm`. -/
theorem readArgs_grants {args : List Text} (h : readArgs args cfg = .ok cfg') :
    (cfg'.confirm = true → cfg.confirm = true ∨ "--confirm".toList ∈ args) ∧
      ∀ p ∈ cfg'.disks, p ∈ cfg.disks ∨ p ∈ given "--disk".toList args := by
  fun_induction readArgs args cfg with
  | case1 =>
      cases h
      exact ⟨fun h => .inl h, fun _ hp => .inl hp⟩
  | case2 => cases h
  | case3 a cfg cfg1 used harg =>
      cases h
      obtain ⟨hconfirm, hdisks⟩ := readArg_grants harg
      refine ⟨fun h => (hconfirm h).imp id fun h => List.mem_singleton.mpr h.symm, fun p hp => ?_⟩
      rcases hdisks p hp with h | ⟨-, h⟩
      · exact .inl h
      · cases h
  | case4 => cases h
  | case5 a v rest cfg cfg1 harg ih =>
      obtain ⟨hconfirm, hdisks⟩ := readArg_grants harg
      obtain ⟨hconfirm', hdisks'⟩ := ih h
      cases readArg_reads harg with
      | value v' htakes hnext =>
          cases hnext
          refine ⟨fun h => ?_, fun p hp => ?_⟩
          · rcases hconfirm' h with h | h
            · exact (hconfirm h).imp id fun h => List.mem_cons.mpr (.inl h.symm)
            · exact .inr (List.mem_cons_of_mem _ (List.mem_cons_of_mem _ h))
          · rw [given, if_pos htakes]
            rcases hdisks' p hp with h | h
            · refine (hdisks p h).imp id fun hread => ?_
              obtain ⟨ha, hv⟩ := hread
              rw [if_pos ha, Option.some.inj hv]
              exact List.mem_cons_self
            · refine .inr ?_
              split
              · exact List.mem_cons_of_mem _ h
              · exact h
  | case6 a v rest cfg cfg1 harg ih =>
      obtain ⟨hconfirm, hdisks⟩ := readArg_grants harg
      obtain ⟨hconfirm', hdisks'⟩ := ih h
      cases readArg_reads harg with
      | flag htakes =>
          refine ⟨fun h => ?_, fun p hp => ?_⟩
          · rcases hconfirm' h with h | h
            · exact (hconfirm h).imp id fun h => List.mem_cons.mpr (.inl h.symm)
            · exact .inr (List.mem_cons_of_mem _ h)
          · rw [given_flag htakes]
            rcases hdisks' p hp with h | h
            · refine (hdisks p h).imp id fun hread => ?_
              obtain ⟨ha, -⟩ := hread
              rw [ha] at htakes
              exact absurd htakes (by decide)
            · exact .inr h

end Arguments

/-! ## What has been checked -/

section Checked
variable {env : MainEnv} {args : List Text} {cfg : MainConfig} {disks : List TargetDisk} {K : Nat} {d : TargetDisk}

/-- A target as it is opened: named by the arguments, a block device, not mounted, and no smaller than what is wiped. -/
structure Admitted (env : MainEnv) (args : List Text) (cfg : MainConfig) (d : TargetDisk) : Prop where
  named : d.path ∈ given "--disk".toList args
  block : env.stat ((env.realpath d.path).getD d.path) = .ok true
  unmounted : mountedReason env.mounts ((env.realpath d.path).getD d.path) = []
  opened : env.openFd ((env.realpath d.path).getD d.path) cfg.verifyOnly = .ok d.fd
  whole : cfg.superBytes ∣ d.wipeLen
  pos : 0 < d.wipeLen
  le : d.wipeLen ≤ d.size

/-- What holds of the configuration and the disks when `main` verifies or starts workers. -/
structure Checked (env : MainEnv) (args : List Text) (cfg : MainConfig) (disks : List TargetDisk) : Prop where
  chunk_pos : 1 ≤ cfg.chunkBlocks
  chunk_le : cfg.chunkBlocks ≤ poseGraphMaxM
  gpus : cfg.gpus ≠ []
  admitted : ∀ d ∈ disks, Admitted env args cfg d
  confirm : cfg.confirm = true → "--confirm".toList ∈ args

theorem openDisk_ok {path : Text} {readOnly : Bool} {dev : Opened} (h : openDisk env path readOnly = .ok dev) :
    env.stat ((env.realpath path).getD path) = .ok true ∧ mountedReason env.mounts ((env.realpath path).getD path) = [] ∧
      env.openFd ((env.realpath path).getD path) readOnly = .ok dev.fd := by
  unfold openDisk at h
  dsimp only at h
  split at h
  · cases h
  · rename_i isBlk hstat
    split at h
    · cases h
    · rename_i hblk
      rw [Bool.not_eq_false] at hblk
      split at h
      · cases h
      · rename_i hmounts
        split at h
        · split at h <;> cases h
        · rename_i fd hfd
          split at h
          · cases h
          · split at h
            · cases h
            · cases h
              exact ⟨hblk ▸ hstat, not_not.mp hmounts, hfd⟩

theorem want_le (cfg : MainConfig) (size : Nat) : cfg.want size ≤ size := by
  unfold MainConfig.want
  split
  · exact Nat.min_le_right _ _
  · exact le_rfl

theorem OpensAs.admitted {p : Text} (h : OpensAs env cfg p d) (hp : p ∈ given "--disk".toList args) :
    Admitted env args cfg d := by
  obtain ⟨hstat, hmounts, hfd⟩ := openDisk_ok h.opened
  have hpath := h.path
  subst hpath
  refine ⟨hp, hstat, hmounts, hfd, ?_, ?_, ?_⟩
  · rw [h.wipeLen]
    exact dvd_floorTo _ _
  · rw [h.wipeLen]
    exact (superBytes_pos _).trans_le (le_floorTo (superBytes_pos _) h.large)
  · rw [h.wipeLen]
    exact (floorTo_le _ _).trans (want_le cfg d.size)

/-- The checks of `main`. -/
theorem main_checked (h : main env args = .verify cfg disks ∨ main env args = .start cfg disks K) :
    Checked env args cfg disks := by
  have hverify : ∀ {c ds}, MainResult.verify c ds = .verify cfg disks ∨ MainResult.verify c ds = .start cfg disks K →
      c = cfg ∧ ds = disks := fun h => by
    rcases h with h | h <;> cases h
    exact ⟨rfl, rfl⟩
  have hstart : ∀ {c ds k}, MainResult.start c ds k = .verify cfg disks ∨ MainResult.start c ds k = .start cfg disks K →
      c = cfg ∧ ds = disks := fun h => by
    rcases h with h | h <;> cases h
    exact ⟨rfl, rfl⟩
  have hexit : ∀ {e}, ¬(MainResult.exit e = .verify cfg disks ∨ MainResult.exit e = .start cfg disks K) := fun h => by
    rcases h with h | h <;> cases h
  unfold main at h
  split at h
  · exact absurd h hexit
  · rename_i cfg0 hread
    split at h
    · exact absurd h hexit
    · rename_i cfg1 hconfig
      split at h
      · exact absurd h hexit
      · rename_i cfg2 hgpus
        split at h
        · exact absurd h hexit
        · rename_i ds hopen
          have hcfg : cfg2 = cfg ∧ ds = disks := by
            split at h
            · exact hverify h
            · split at h
              · exact absurd h hexit
              · exact hstart h
          obtain ⟨rfl, rfl⟩ := hcfg
          obtain ⟨hconfirm, hdisks⟩ := readArgs_grants hread
          obtain ⟨-, -, hmax, rfl⟩ := checkConfig_ok.mp hconfig
          obtain ⟨ndev, -, hpos, -, rfl⟩ := checkGpus_ok.mp hgpus
          refine ⟨resolveChunkBlocks_pos _, hmax, ?_, fun d hd => ?_, fun h => ?_⟩
          · dsimp only
            split
            · exact List.ne_nil_of_length_pos (by rw [List.length_range]; exact hpos)
            · assumption
          · obtain ⟨p, hp, hopens⟩ := forall₂_right (openDisks_ok.mp hopen) d hd
            refine hopens.admitted ((hdisks p hp).resolve_left fun h => ?_)
            cases h
          · exact (hconfirm h).resolve_left Bool.false_ne_true

theorem main_start (h : main env args = .start cfg disks K) :
    cfg.verifyOnly = false ∧ (cfg.dryRun = false → cfg.confirm = true) ∧ K = teamSize cfg := by
  unfold main at h
  split at h
  · cases h
  · split at h
    · cases h
    · split at h
      · cases h
      · split at h
        · cases h
        · split at h
          · cases h
          · rename_i hverify
            split at h
            · cases h
            · rename_i hconfirm
              cases h
              exact ⟨Bool.eq_false_iff.mpr hverify, fun hdry => Bool.not_eq_false _ ▸ fun hc => hconfirm ⟨hdry, hc⟩, rfl⟩

theorem teamSize_bounds (hgpus : cfg.gpus ≠ []) : 0 < teamSize cfg ∧ teamSize cfg ≤ cfg.gpus.length := by
  have hpos := List.length_pos_of_ne_nil hgpus
  unfold teamSize
  dsimp only
  split_ifs <;> omega

end Checked

/-! ## What the workers may write -/

section Writes
variable {cfg : Config} {K : Nat} {disks : List OpenDisk}

theorem perGpu_mem {team : List Nat} {j : Nat} {it : WorkItem} (h : it ∈ perGpu cfg K disks team j) :
    j < K ∧ ∃ d ∈ disks, it = part cfg K d j := by
  have hall : ∀ it ∈ perGpu cfg K disks team j, j < K ∧ ∃ d ∈ disks, it = part cfg K d j := by
    unfold perGpu
    refine List.foldlRecOn (motive := fun p : Nat → List WorkItem => ∀ it ∈ p j, j < K ∧ ∃ d ∈ disks, it = part cfg K d j) team _
      (fun _ h => (List.not_mem_nil h).elim) fun p hp di _ => ?_
    cases hd : disks[di]? with
    | none => exact hp
    | some d =>
        dsimp only
        rw [splitDisk_eq]
        intro it hit
        rcases List.mem_append.mp hit with hit | hit
        · exact hp it hit
        · split at hit
          · rename_i hj
            exact ⟨hj.1, d, List.mem_of_getElem? hd, List.mem_singleton.mp hit⟩
          · cases hit
  exact hall it h

theorem part_le {d : OpenDisk} {j : Nat} (hj : j < K) :
    (part cfg K d j).diskOff + (part cfg K d j).len ≤ d.wipeLen := by
  have hmono := splitOff_mono (d.wipeLen / cfg.superBytes) K (show j + 1 ≤ K from hj)
  rw [splitOff_last _ (by omega)] at hmono
  rw [part_end]
  exact (Nat.mul_le_mul_right _ hmono).trans (Nat.div_mul_le_self _ _)

end Writes

section Run
variable {env : RunEnv α} {args : List Text} {cfg : MainConfig} {disks : List TargetDisk} {K : Nat} {results : List State}

theorem runWorkers_mem {ds : List OpenDisk} (h : runWorkers env cfg ds K = some results) {r : State}
    (hr : r ∈ results) :
    ∃ t < cfg.gpus.length / K, ∃ j < K, worker (env.workerEnv cfg t j) cfg.toConfig
      (perGpu cfg.toConfig K ds (teamDisks (cfg.gpus.length / K) (env.sort (ds.map OpenDisk.wipeLen)) t) j)
      (State.init (env.dBuf t j) (env.hStage t j)) = some r := by
  have hmem : some r ∈ results.map some := List.mem_map_of_mem hr
  rw [← collect_eq.mp h] at hmem
  obtain ⟨t, ht, hmem⟩ := List.mem_flatMap.mp hmem
  obtain ⟨j, hj, heq⟩ := List.mem_map.mp hmem
  exact ⟨t, List.mem_range.mp ht, j, List.mem_range.mp hj, heq⟩

/-- The workers write labels to the disks, and in a dry run nothing. -/
theorem runWorkers_safe (h : runWorkers env cfg (disks.map TargetDisk.openDisk) K = some results) :
    ∀ r ∈ results, (cfg.dryRun = true → r.writes = []) ∧ ∀ w ∈ r.writes, ∃ d ∈ disks, w.dev = d.fd ∧
      w.off + w.n ≤ d.wipeLen ∧ ∀ y < w.n, w.data y = diskByte cfg.toConfig (env.output cfg) (w.off + y) := by
  intro r hr
  obtain ⟨t, -, j, -, hworker⟩ := runWorkers_mem h hr
  have hitems : ∀ it ∈ perGpu cfg.toConfig K (disks.map TargetDisk.openDisk) (teamDisks (cfg.gpus.length / K)
      (env.sort ((disks.map TargetDisk.openDisk).map OpenDisk.wipeLen)) t) j, it.Whole cfg.toConfig := fun it hit => by
    obtain ⟨-, d, -, rfl⟩ := perGpu_mem hit
    exact part_whole _ _ _ _
  obtain ⟨hwrites, hdry⟩ := worker_safe hitems hworker
  refine ⟨hdry, fun w hw => ?_⟩
  obtain ⟨it, hit, hdev, x, hoff, hle, hdata⟩ := hwrites w hw
  have hwhole := hitems it hit
  obtain ⟨hj, od, hod, rfl⟩ := perGpu_mem hit
  obtain ⟨d, hd, rfl⟩ := List.mem_map.mp hod
  have hend : (part cfg.toConfig K d.openDisk j).diskOff + (part cfg.toConfig K d.openDisk j).len ≤ d.wipeLen :=
    part_le hj
  refine ⟨d, hd, hdev, by omega, fun y hy => ?_⟩
  rw [hdata y hy, labelByte_eq_diskByte hwhole, hoff, Nat.add_assoc]
  rfl

end Run

end PoseDB.Wipe
