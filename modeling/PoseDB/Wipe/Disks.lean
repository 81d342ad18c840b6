import PoseDB.Wipe.Success
import Mathlib.Algebra.BigOperators.Intervals
import Mathlib.Algebra.Order.BigOperators.Group.Finset
import Mathlib.Algebra.BigOperators.Group.List.Basic

/-!
# Wiping the disks (`main` of `disk_wipe_bench.cu`)

The GPUs form teams, the disks are dealt to the teams, and each disk is split into one range for each GPU of its team.
**`wipe_correct`**: when all calls succeed, each byte to be wiped is written exactly once, with its label, whatever the
sizes of pool, team, window and stage, the order of the disks and the interleaving of the workers.
-/

set_option autoImplicit false

namespace PoseDB.Wipe
open Mem PoseDB.Graph Cover

/-! ## The code -/

structure OpenDisk where
  fd : Nat
  wipeLen : Nat

/-- The disks that `main` has opened, `total_wipe` included. -/
structure Disks (cfg : Config) where
  list : List OpenDisk
  fds : (list.map OpenDisk.fd).Nodup
  whole : ∀ d ∈ list, cfg.superBytes ∣ d.wipeLen
  total : (list.map OpenDisk.wipeLen).sum < 2 ^ 64

/-- `team_disks`: the disks in the sorted order, dealt to `T` teams. -/
def teamDisks (T : Nat) (order : List Nat) : Nat → List Nat :=
  Loops.loop order.length (fun k td => Function.update td (k % T) (td (k % T) ++ [order.getD k 0])) fun _ => []

/-- The loop over the GPUs of a team for one of its disks. -/
def splitDisk (cfg : Config) (K : Nat) (d : OpenDisk) (perGpu : Nat → List WorkItem) : Nat → List WorkItem :=
  let nsuper := d.wipeLen / cfg.superBytes
  let base := nsuper / K
  let extra := nsuper % K
  (Loops.loop K (fun j (s : Nat × (Nat → List WorkItem)) =>
    let ns := base + if j < extra then 1 else 0
    let len := ns * cfg.superBytes
    (s.1 + len, if len ≠ 0 then Function.update s.2 j (s.2 j ++ [⟨d.fd, s.1, len⟩]) else s.2)) (0, perGpu)).2

/-- `per_gpu` of a team. -/
def perGpu (cfg : Config) (K : Nat) (disks : List OpenDisk) (team : List Nat) : Nat → List WorkItem :=
  team.foldl (fun perGpu di =>
    match disks[di]? with
    | some d => splitDisk cfg K d perGpu
    | none => perGpu) fun _ => []

/-- The items of GPU `j` of team `t`, with `T = G / K` teams. -/
def workItems (cfg : Config) (disks : Disks cfg) (G K : Nat) (order : List Nat) (t j : Nat) : List WorkItem :=
  perGpu cfg K disks.list (teamDisks (G / K) order t) j

/-- The writes of a worker, from any contents of its buffers. -/
def workerLog (env : Env) (cfg : Config) (items : List WorkItem) (dBuf hStage : Nat → Byte) : List Write :=
  match worker env cfg items (State.init dBuf hStage) with
  | some r => r.writes
  | none => []

def workerLogs (env : Nat → Nat → Env) (cfg : Config) (disks : Disks cfg) (G K : Nat) (order : List Nat)
    (dBuf hStage : Nat → Nat → Nat → Byte) : List (List Write) :=
  (List.range (G / K)).flatMap fun t => (List.range K).map fun j =>
    workerLog (env t j) cfg (workItems cfg disks G K order t j) (dBuf t j) (hStage t j)

/-- All calls of a worker succeed. -/
structure Env.AllSucceed (env : Env) (cfg : Config) (items : List WorkItem) : Prop where
  setDevice : env.setDevice = true
  topoBuild : env.topoBuild = true
  memGetInfo : env.memGetInfo = true
  malloc : env.malloc = true
  mallocHost : env.mallocHost = true
  calls : ∀ Q ∈ plan env cfg items, Q.outcome env = .success

/-! ## One worker -/

/-- Byte `a` of a disk: super-chunk `J` gets the output labels of chunk index `J`. -/
def diskByte (cfg : Config) (output : Nat → Nat → Byte) (a : Nat) : Byte :=
  output (a / cfg.superBytes) (a % cfg.superBytes)

/-- Whether byte `a` of a file is in an item: 1 or 0. -/
def WorkItem.has (fd a : Nat) (it : WorkItem) : Nat := if fd = it.fd ∧ it.diskOff ≤ a ∧ a < it.diskOff + it.len then 1 else 0

theorem labelByte_eq_diskByte {cfg : Config} {output : Nat → Nat → Byte} {it : WorkItem} (hit : it.Whole cfg) (x : Nat) :
    labelByte cfg output it x = diskByte cfg output (it.diskOff + x) := by
  have hsb := superBytes_pos cfg
  obtain ⟨k, hk⟩ := hit.diskOff
  unfold labelByte diskByte
  rw [hk, Nat.mul_div_cancel_left _ hsb, Nat.mul_add_div hsb, Nat.mul_add_mod]

theorem totalLen_eq {items : List WorkItem} (h : (items.map WorkItem.len).sum < 2 ^ 64) :
    totalLen items = (items.map WorkItem.len).sum := by
  have hgo : ∀ (items : List WorkItem) (n : Nat), n + (items.map WorkItem.len).sum < 2 ^ 64 →
      items.foldl (fun n it => (n + it.len) % 2 ^ 64) n = n + (items.map WorkItem.len).sum := by
    intro items
    induction items with
    | nil => exact fun n _ => rfl
    | cons it items ih =>
        intro n hn
        rw [List.map_cons, List.sum_cons, ← Nat.add_assoc] at hn ⊢
        rw [List.foldl_cons, Nat.mod_eq_of_lt (by omega)]
        exact ih _ hn
  rw [totalLen, hgo items 0 (by rwa [Nat.zero_add]), Nat.zero_add]

theorem has_empty {it : WorkItem} (h : it.len = 0) (fd a : Nat) : it.has fd a = 0 := by
  rw [WorkItem.has, if_neg]
  rintro ⟨-, h1, h2⟩
  omega

theorem workerLog_eq {env : Env} {cfg : Config} {items : List WorkItem} {dBuf hStage : Nat → Byte} {r : State}
    (h : worker env cfg items (State.init dBuf hStage) = some r) : workerLog env cfg items dBuf hStage = r.writes := by
  unfold workerLog
  rw [h]

theorem sum_hits {items : List WorkItem} {wss : List (List Write)} {content : WorkItem → Nat → Byte}
    (h : List.Forall₂ (fun it ws => Covers it.fd it.diskOff (content it) 0 it.len ws) items wss) (fd a : Nat) :
    (wss.map fun ws => hits ws fd a).sum = (items.map (WorkItem.has fd a)).sum := by
  induction h with
  | nil => rfl
  | cons hws _ ih =>
      rw [List.map_cons, List.map_cons, List.sum_cons, List.sum_cons, ih, hws.hits]
      rfl

/-- A worker writes each byte of its items once for each item that has it, with its label. -/
theorem worker_writes {env : Env} {cfg : Config} {items : List WorkItem} (dBuf hStage : Nat → Byte)
    (hdry : cfg.dryRun = false) (hitems : ∀ it ∈ items, it.Whole cfg) (htotal : (items.map WorkItem.len).sum < 2 ^ 64)
    (hall : env.AllSucceed cfg items) :
    (∃ r, worker env cfg items (State.init dBuf hStage) = some r ∧ r.ok = true) ∧
      (∀ fd a, hits (workerLog env cfg items dBuf hStage) fd a = (items.map (WorkItem.has fd a)).sum) ∧
      ∀ w ∈ workerLog env cfg items dBuf hStage, ∀ y < w.n, w.data y = diskByte cfg env.output (w.off + y) := by
  by_cases hzero : totalLen items = 0
  · have hempty : worker env cfg items (State.init dBuf hStage) = some (State.init dBuf hStage) :=
      worker_empty _ hall.setDevice hzero
    have hlen : ∀ it ∈ items, it.len = 0 := by
      rw [totalLen_eq htotal, List.sum_eq_zero_iff_forall_eq_nat] at hzero
      exact fun it hit => hzero _ (List.mem_map_of_mem hit)
    rw [workerLog_eq hempty]
    refine ⟨⟨_, hempty, rfl⟩, fun fd a => ?_, fun w hw => by cases hw⟩
    refine Eq.symm (List.sum_eq_zero_iff_forall_eq_nat.mpr fun n hn => ?_)
    obtain ⟨it, hit, rfl⟩ := List.mem_map.mp hn
    exact has_empty (hlen it hit) fd a
  · have hready : env.Ready items :=
      ⟨hall.setDevice, hzero, hall.topoBuild, hall.memGetInfo, hall.malloc, hall.mallocHost⟩
    obtain ⟨r, hr, hok⟩ := (worker_ok_iff dBuf hStage hready).mpr hall.calls
    obtain ⟨wss, hwrites, -, hwss⟩ := worker_covers hdry hitems hready hr hok
    rw [workerLog_eq hr, hwrites]
    refine ⟨⟨r, hr, hok⟩, fun fd a => ?_, fun w hw y hy => ?_⟩
    · rw [hits_flatten]
      exact sum_hits hwss fd a
    · obtain ⟨ws, hws, hw⟩ := List.mem_flatten.mp hw
      obtain ⟨i, hi, rfl⟩ := List.mem_iff_getElem.mp hws
      have hi' : i < items.length := hwss.length_eq ▸ hi
      obtain ⟨x, hoff, -, -, hdata⟩ := (hwss.get hi' hi).data w hw
      rw [hdata y hy, labelByte_eq_diskByte (hitems _ (List.get_mem items ⟨i, hi'⟩)), hoff, Nat.add_assoc]

/-! ## The ranges -/

/-- Super-chunks before range `j`. -/
def splitOff (nsuper K j : Nat) : Nat := nsuper / K * j + min j (nsuper % K)

theorem splitOff_succ (nsuper K j : Nat) :
    splitOff nsuper K (j + 1) = splitOff nsuper K j + (nsuper / K + if j < nsuper % K then 1 else 0) := by
  unfold splitOff
  rw [Nat.mul_succ]
  split_ifs <;> omega

theorem splitOff_last (nsuper : Nat) {K : Nat} (hK : 0 < K) : splitOff nsuper K K = nsuper := by
  have hlt := Nat.mod_lt nsuper hK
  unfold splitOff
  rw [Nat.min_eq_right (Nat.le_of_lt hlt)]
  exact Nat.div_add_mod' nsuper K

/-- The range of a disk that GPU `j` gets. -/
def part (cfg : Config) (K : Nat) (d : OpenDisk) (j : Nat) : WorkItem :=
  let nsuper := d.wipeLen / cfg.superBytes
  ⟨d.fd, splitOff nsuper K j * cfg.superBytes, (nsuper / K + if j < nsuper % K then 1 else 0) * cfg.superBytes⟩

theorem part_whole (cfg : Config) (K : Nat) (d : OpenDisk) (j : Nat) : (part cfg K d j).Whole cfg :=
  ⟨Nat.dvd_mul_left _ _, Nat.dvd_mul_left _ _⟩

theorem part_end (cfg : Config) (K : Nat) (d : OpenDisk) (j : Nat) :
    (part cfg K d j).diskOff + (part cfg K d j).len = splitOff (d.wipeLen / cfg.superBytes) K (j + 1) * cfg.superBytes := by
  rw [splitOff_succ, Nat.add_mul]
  rfl

theorem splitDisk_eq (cfg : Config) (K : Nat) (d : OpenDisk) (p : Nat → List WorkItem) (i : Nat) :
    splitDisk cfg K d p i = p i ++ if i < K ∧ (part cfg K d i).len ≠ 0 then [part cfg K d i] else [] := by
  unfold splitDisk
  dsimp only
  refine (Loops.loop_inv (n := K) (fun j (s : Nat × (Nat → List WorkItem)) =>
    s.1 = splitOff (d.wipeLen / cfg.superBytes) K j * cfg.superBytes ∧
      ∀ i, s.2 i = p i ++ if i < j ∧ (part cfg K d i).len ≠ 0 then [part cfg K d i] else []) ?_ ?_).2 i
  · refine ⟨?_, fun i => ?_⟩
    · rw [splitOff, Nat.mul_zero, Nat.zero_min, Nat.zero_mul]
    · rw [if_neg fun h => Nat.not_lt_zero _ h.1, List.append_nil]
  · rintro j ⟨off, q⟩ - ⟨hoff, hq⟩
    have hlenj : (part cfg K d j).len = (d.wipeLen / cfg.superBytes / K +
      if j < d.wipeLen / cfg.superBytes % K then 1 else 0) * cfg.superBytes := rfl
    dsimp only at hoff hq ⊢
    rw [← hlenj]
    refine ⟨?_, fun i => ?_⟩
    · rw [hoff, splitOff_succ, hlenj]
      exact (Nat.add_mul _ _ _).symm
    · by_cases hlen : (part cfg K d j).len = 0
      · rw [if_neg (not_not.mpr hlen), hq]
        congr 1
        by_cases hij : i = j
        · rw [hij, if_neg fun h => h.2 hlen, if_neg fun h => h.2 hlen]
        · exact if_congr (by rw [show i < j ↔ i < j + 1 by omega]) rfl rfl
      · rw [if_pos hlen]
        by_cases hij : i = j
        · rw [hij, Function.update_self, hq, if_neg fun h => Nat.lt_irrefl _ h.1, List.append_nil,
            if_pos ⟨Nat.lt_succ_self j, hlen⟩, hoff]
          rfl
        · rw [Function.update_of_ne hij, hq]
          congr 1
          exact if_congr (by rw [show i < j ↔ i < j + 1 by omega]) rfl rfl

/-! ## Sums over the workers -/

section Sums

variable {cfg : Config} {K : Nat} {disks : List OpenDisk} {μ : WorkItem → Nat}

/-- The part of a sum that range `j` of a disk makes. -/
def partWeight (cfg : Config) (K : Nat) (disks : List OpenDisk) (μ : WorkItem → Nat) (j di : Nat) : Nat :=
  match disks[di]? with
  | some d => μ (part cfg K d j)
  | none => 0

theorem perGpu_weight (hμ : ∀ it : WorkItem, it.len = 0 → μ it = 0) {j : Nat} (hj : j < K) (team : List Nat) :
    ((perGpu cfg K disks team j).map μ).sum = (team.map (partWeight cfg K disks μ j)).sum := by
  have hgo : ∀ (team : List Nat) (p : Nat → List WorkItem), ((team.foldl (fun perGpu di =>
      match disks[di]? with
      | some d => splitDisk cfg K d perGpu
      | none => perGpu) p j).map μ).sum = ((p j).map μ).sum + (team.map (partWeight cfg K disks μ j)).sum := by
    intro team
    induction team with
    | nil => exact fun p => rfl
    | cons di team ih =>
        intro p
        rw [List.foldl_cons, ih, List.map_cons, List.sum_cons, ← Nat.add_assoc]
        congr 1
        unfold partWeight
        cases disks[di]? with
        | none => rfl
        | some d =>
            dsimp only
            rw [splitDisk_eq, List.map_append, List.sum_append]
            congr 1
            by_cases hlen : (part cfg K d j).len = 0
            · rw [if_neg fun h => h.2 hlen, hμ _ hlen]
              rfl
            · rw [if_pos ⟨hj, hlen⟩]
              rfl
  exact (hgo team _).trans (Nat.zero_add _)

theorem teamDisks_eq (T : Nat) (order : List Nat) (t : Nat) :
    teamDisks T order t = ((List.range order.length).filter (fun k => k % T = t)).map fun k => order.getD k 0 := by
  refine Loops.loop_inv (fun n (td : Nat → List Nat) =>
    ∀ t, td t = ((List.range n).filter (fun k => k % T = t)).map fun k => order.getD k 0) (fun t => rfl) ?_ t
  intro k td _ htd t
  rw [List.range_succ, List.filter_append, List.map_append, ← htd]
  by_cases ht : k % T = t
  · rw [← ht, Function.update_self, List.filter_cons_of_pos (by simp), List.filter_nil]
    rfl
  · rw [Function.update_of_ne (Ne.symm ht), List.filter_cons_of_neg (by simpa using ht), List.filter_nil, List.map_nil,
      List.append_nil]

theorem teamDisks_sum {T : Nat} (hT : 0 < T) (order : List Nat) (g : Nat → Nat) :
    ∑ t ∈ Finset.range T, ((teamDisks T order t).map g).sum = (order.map g).sum := by
  have hgo : ∀ (l : List Nat), ∑ t ∈ Finset.range T, (((l.filter (fun k => k % T = t)).map fun k =>
      order.getD k 0).map g).sum = ((l.map fun k => order.getD k 0).map g).sum := by
    intro l
    induction l with
    | nil => exact Finset.sum_const_zero
    | cons k l ih =>
        have hcons : ∀ t, ((((k :: l).filter (fun k => k % T = t)).map fun k => order.getD k 0).map g).sum =
            (if k % T = t then g (order.getD k 0) else 0) +
              (((l.filter (fun k => k % T = t)).map fun k => order.getD k 0).map g).sum := by
          intro t
          by_cases ht : k % T = t
          · rw [List.filter_cons_of_pos (by simpa using ht), if_pos ht]
            rfl
          · rw [List.filter_cons_of_neg (by simpa using ht), if_neg ht, Nat.zero_add]
        rw [Finset.sum_congr rfl fun t _ => hcons t, Finset.sum_add_distrib, ih, Finset.sum_ite_eq,
          if_pos (Finset.mem_range.mpr (Nat.mod_lt k hT))]
        rfl
  have horder : ((List.range order.length).map fun k => order.getD k 0) = order := by
    apply List.ext_getElem
    · rw [List.length_map, List.length_range]
    · intro i h _
      rw [List.length_map, List.length_range] at h
      rw [List.getElem_map, List.getElem_range, List.getD_eq_getElem?_getD, List.getElem?_eq_getElem h, Option.getD_some]
  rw [Finset.sum_congr rfl fun t _ => by rw [teamDisks_eq], hgo, horder]

theorem sum_list_comm {ι : Type*} (s : Finset Nat) (l : List ι) (f : Nat → ι → Nat) :
    ∑ j ∈ s, (l.map (f j)).sum = (l.map fun x => ∑ j ∈ s, f j x).sum := by
  induction l with
  | nil => exact Finset.sum_const_zero
  | cons x l ih =>
      rw [List.map_cons, List.sum_cons, ← ih, ← Finset.sum_add_distrib]
      rfl

/-- A sum over the items of all workers is one over the ranges of all disks. -/
theorem workItems_sum (hμ : ∀ it : WorkItem, it.len = 0 → μ it = 0) {G : Nat} (hK : 0 < K) (hG : K ≤ G)
    (disks : Disks cfg) {order : List Nat} (horder : order.Perm (List.range disks.list.length)) :
    ∑ t ∈ Finset.range (G / K), ∑ j ∈ Finset.range K, ((workItems cfg disks G K order t j).map μ).sum =
      (disks.list.map fun d => ∑ j ∈ Finset.range K, μ (part cfg K d j)).sum := by
  have hteam : ∀ t, ∑ j ∈ Finset.range K, ((workItems cfg disks G K order t j).map μ).sum =
      ((teamDisks (G / K) order t).map fun di => ∑ j ∈ Finset.range K, partWeight cfg K disks.list μ j di).sum := by
    intro t
    rw [← sum_list_comm]
    exact Finset.sum_congr rfl fun j hj => perGpu_weight hμ (Finset.mem_range.mp hj) _
  rw [Finset.sum_congr rfl fun t _ => hteam t, teamDisks_sum (Nat.div_pos hG hK), (horder.map _).sum_eq]
  congr 1
  apply List.ext_getElem
  · rw [List.length_map, List.length_map, List.length_range]
  · intro i h _
    rw [List.length_map, List.length_range] at h
    rw [List.getElem_map, List.getElem_map, List.getElem_range]
    unfold partWeight
    rw [List.getElem?_eq_getElem h]

/-- A place is in one of the ranges between `lo 0` and `lo K`. -/
theorem sum_between {lo : Nat → Nat} (hlo : Monotone lo) (a K : Nat) :
    (∑ j ∈ Finset.range K, if lo j ≤ a ∧ a < lo (j + 1) then 1 else 0) = if lo 0 ≤ a ∧ a < lo K then 1 else 0 := by
  induction K with
  | zero => rw [Finset.sum_range_zero, if_neg (by omega)]
  | succ K ih =>
      have h0 := hlo (Nat.zero_le K)
      have h1 : lo K ≤ lo (K + 1) := hlo (Nat.le_succ K)
      rw [Finset.sum_range_succ, ih]
      split_ifs <;> omega

theorem splitOff_mono (nsuper K : Nat) : Monotone (splitOff nsuper K) := by
  apply monotone_nat_of_le_succ
  intro j
  rw [splitOff_succ]
  exact Nat.le_add_right _ _

theorem part_has (hK : 0 < K) {d : OpenDisk} (hd : cfg.superBytes ∣ d.wipeLen) (fd a : Nat) :
    ∑ j ∈ Finset.range K, (part cfg K d j).has fd a = if fd = d.fd ∧ a < d.wipeLen then 1 else 0 := by
  have hlo : Monotone fun j => splitOff (d.wipeLen / cfg.superBytes) K j * cfg.superBytes :=
    fun i j hij => Nat.mul_le_mul_right _ (splitOff_mono _ K hij)
  have hhas : ∀ j, (part cfg K d j).has fd a = if fd = d.fd ∧
      splitOff (d.wipeLen / cfg.superBytes) K j * cfg.superBytes ≤ a ∧
        a < splitOff (d.wipeLen / cfg.superBytes) K (j + 1) * cfg.superBytes then 1 else 0 := by
    intro j
    unfold WorkItem.has
    rw [part_end]
    rfl
  rw [Finset.sum_congr rfl fun j _ => hhas j]
  by_cases hfd : fd = d.fd
  · simp only [hfd, true_and]
    rw [sum_between hlo, splitOff_last _ hK, Nat.div_mul_cancel hd, splitOff, Nat.mul_zero, Nat.zero_min, Nat.zero_mul]
    exact if_congr (and_iff_right (Nat.zero_le a)) rfl rfl
  · simp only [hfd, false_and, if_false]
    exact Finset.sum_const_zero

theorem part_len (hK : 0 < K) {d : OpenDisk} (hd : cfg.superBytes ∣ d.wipeLen) :
    ∑ j ∈ Finset.range K, (part cfg K d j).len = d.wipeLen := by
  have hsum : ∀ n, ∑ j ∈ Finset.range n, (part cfg K d j).len =
      splitOff (d.wipeLen / cfg.superBytes) K n * cfg.superBytes := by
    intro n
    induction n with
    | zero => rw [Finset.sum_range_zero, splitOff, Nat.mul_zero, Nat.zero_min, Nat.zero_mul]
    | succ n ih =>
        rw [Finset.sum_range_succ, ih, ← part_end]
        rfl
  rw [hsum, splitOff_last _ hK, Nat.div_mul_cancel hd]

end Sums

/-! ## All workers -/

section Main

variable {cfg : Config} {disks : Disks cfg} {G K : Nat} {order : List Nat}

theorem workItems_whole (t j : Nat) : ∀ it ∈ workItems cfg disks G K order t j, it.Whole cfg := by
  have hgo : ∀ (team : List Nat) (p : Nat → List WorkItem), (∀ it ∈ p j, it.Whole cfg) → ∀ it ∈ team.foldl
      (fun perGpu di =>
        match disks.list[di]? with
        | some d => splitDisk cfg K d perGpu
        | none => perGpu) p j, it.Whole cfg := by
    intro team
    induction team with
    | nil => exact fun p hp => hp
    | cons di team ih =>
        intro p hp
        rw [List.foldl_cons]
        apply ih
        cases disks.list[di]? with
        | none => exact hp
        | some d =>
            intro it hit
            dsimp only at hit
            rw [splitDisk_eq, List.mem_append] at hit
            rcases hit with hit | hit
            · exact hp it hit
            · split at hit
              · rw [List.mem_singleton.mp hit]
                exact part_whole cfg K d j
              · cases hit
  exact hgo _ _ fun it hit => by cases hit

theorem workItems_total (hK : 0 < K) (hG : K ≤ G) (horder : order.Perm (List.range disks.list.length)) {t j : Nat}
    (ht : t < G / K) (hj : j < K) : ((workItems cfg disks G K order t j).map WorkItem.len).sum < 2 ^ 64 := by
  have hsum : ∑ t ∈ Finset.range (G / K), ∑ j ∈ Finset.range K,
      ((workItems cfg disks G K order t j).map WorkItem.len).sum = (disks.list.map OpenDisk.wipeLen).sum := by
    rw [workItems_sum (fun _ h => h) hK hG disks horder]
    congr 1
    exact List.map_congr_left fun d hd => part_len hK (disks.whole d hd)
  calc ((workItems cfg disks G K order t j).map WorkItem.len).sum
      ≤ ∑ j ∈ Finset.range K, ((workItems cfg disks G K order t j).map WorkItem.len).sum :=
        Finset.single_le_sum (f := fun j => ((workItems cfg disks G K order t j).map WorkItem.len).sum)
          (fun _ _ => Nat.zero_le _) (Finset.mem_range.mpr hj)
    _ ≤ ∑ t ∈ Finset.range (G / K), ∑ j ∈ Finset.range K,
          ((workItems cfg disks G K order t j).map WorkItem.len).sum :=
        Finset.single_le_sum
          (f := fun t => ∑ j ∈ Finset.range K, ((workItems cfg disks G K order t j).map WorkItem.len).sum)
          (fun _ _ => Nat.zero_le _) (Finset.mem_range.mpr ht)
    _ < 2 ^ 64 := hsum ▸ disks.total

/-- Whether byte `a` of a file is to be wiped. -/
def ToWipe (disks : List OpenDisk) (fd a : Nat) : Prop := ∃ d ∈ disks, d.fd = fd ∧ a < d.wipeLen

instance (disks : List OpenDisk) (fd a : Nat) : Decidable (ToWipe disks fd a) := by
  unfold ToWipe
  infer_instance

theorem sum_disks {l : List OpenDisk} (hfds : (l.map OpenDisk.fd).Nodup) (fd a : Nat) :
    (l.map fun d => if fd = d.fd ∧ a < d.wipeLen then 1 else 0).sum = if ToWipe l fd a then 1 else 0 := by
  induction l with
  | nil =>
      rw [if_neg]
      · rfl
      · rintro ⟨d, hd, -⟩
        cases hd
  | cons d l ih =>
      rw [List.map_cons, List.nodup_cons] at hfds
      rw [List.map_cons, List.sum_cons, ih hfds.2]
      by_cases hd : fd = d.fd ∧ a < d.wipeLen
      · have hl : ¬ ToWipe l fd a := by
          rintro ⟨d', hd', hfd, -⟩
          exact hfds.1 (hd.1 ▸ hfd ▸ List.mem_map_of_mem hd')
        rw [if_pos hd, if_neg hl, if_pos ⟨d, List.mem_cons_self, hd.1.symm, hd.2⟩]
      · rw [if_neg hd, Nat.zero_add]
        refine if_congr ⟨?_, ?_⟩ rfl rfl
        · rintro ⟨d', hd', h⟩
          exact ⟨d', List.mem_cons_of_mem _ hd', h⟩
        · rintro ⟨d', hd', hfd, ha⟩
          rcases List.mem_cons.mp hd' with rfl | hd'
          · exact absurd ⟨hfd.symm, ha⟩ hd
          · exact ⟨d', hd', hfd, ha⟩

theorem sum_logs {α : Type*} (T K : Nat) (f : Nat → Nat → α) (g : α → Nat) :
    (((List.range T).flatMap fun t => (List.range K).map (f t)).map g).sum =
      ∑ t ∈ Finset.range T, ∑ j ∈ Finset.range K, g (f t j) := by
  induction T with
  | zero => rfl
  | succ T ih =>
      rw [List.range_succ, List.flatMap_append, List.map_append, List.sum_append, ih, Finset.sum_range_succ,
        List.flatMap_singleton, List.map_map]
      rfl

/-- **The workers write each byte to be wiped exactly once, with the output labels of its super-chunk, and no other byte, in
whatever order their calls come: the disk image is the same for all sizes of pool, team, window and stage.** -/
theorem wipe_correct (env : Nat → Nat → Env) (output : Nat → Nat → Byte) (dBuf hStage : Nat → Nat → Nat → Byte)
    (hdry : cfg.dryRun = false) (hK : 0 < K) (hG : K ≤ G) (horder : order.Perm (List.range disks.list.length))
    (hall : ∀ t < G / K, ∀ j < K, (env t j).AllSucceed cfg (workItems cfg disks G K order t j))
    (hout : ∀ t < G / K, ∀ j < K, (env t j).output = output) :
    (∀ t < G / K, ∀ j < K, ∃ r, worker (env t j) cfg (workItems cfg disks G K order t j)
      (State.init (dBuf t j) (hStage t j)) = some r ∧ r.ok = true) ∧
    ∀ log, Interleaved (workerLogs env cfg disks G K order dBuf hStage) log →
      (∀ fd a, hits log fd a = if ToWipe disks.list fd a then 1 else 0) ∧
      ∀ image, replay log image =
        fun fd a => if ToWipe disks.list fd a then diskByte cfg output a else image fd a := by
  have hworker : ∀ t < G / K, ∀ j < K, _ := fun t ht j hj =>
    worker_writes (dBuf t j) (hStage t j) hdry (workItems_whole t j) (workItems_total hK hG horder ht hj) (hall t ht j hj)
  refine ⟨fun t ht j hj => (hworker t ht j hj).1, fun log hlog => ?_⟩
  have hhits : ∀ fd a, hits log fd a = if ToWipe disks.list fd a then 1 else 0 := by
    intro fd a
    rw [hits_perm hlog.perm, hits_flatten, workerLogs, sum_logs, ← sum_disks disks.fds]
    calc _ = ∑ t ∈ Finset.range (G / K), ∑ j ∈ Finset.range K,
          ((workItems cfg disks G K order t j).map (WorkItem.has fd a)).sum :=
          Finset.sum_congr rfl fun t ht => Finset.sum_congr rfl fun j hj =>
            (hworker t (Finset.mem_range.mp ht) j (Finset.mem_range.mp hj)).2.1 fd a
      _ = (disks.list.map fun d => ∑ j ∈ Finset.range K, (part cfg K d j).has fd a).sum :=
          workItems_sum (fun it h => has_empty h fd a) hK hG disks horder
      _ = _ := congrArg List.sum (List.map_congr_left fun d hd => part_has hK (disks.whole d hd) fd a)
  have hdata : ∀ w ∈ log, ∀ y < w.n, w.data y = diskByte cfg output (w.off + y) := by
    intro w hw
    obtain ⟨ws, hws, hw⟩ := List.mem_flatten.mp (hlog.perm.mem_iff.mp hw)
    obtain ⟨t, ht, hws⟩ := List.mem_flatMap.mp hws
    obtain ⟨j, hj, rfl⟩ := List.mem_map.mp hws
    have ht := List.mem_range.mp ht
    have hj := List.mem_range.mp hj
    rw [← hout t ht j hj]
    exact (hworker t ht j hj).2.2 w hw
  refine ⟨hhits, fun image => ?_⟩
  funext fd a
  by_cases hto : ToWipe disks.list fd a
  · rw [if_pos hto]
    refine replay_hit (fun w hw hcovers => ?_) (by rw [hhits, if_pos hto]; exact Nat.one_ne_zero) image
    obtain ⟨-, h1, h2⟩ := of_decide_eq_true hcovers
    rw [hdata w hw _ (by omega), Nat.add_sub_cancel' h1]
  · rw [if_neg hto]
    exact replay_miss (by rw [hhits, if_neg hto]) image

end Main

/-- Super-chunks of half a MiB, windows of two MiB and slices of one. -/
def halfConfig : Config := ⟨16384, 2, 1, false⟩

def dealtDisks : Disks halfConfig where
  list := [⟨3, 5 * halfConfig.superBytes⟩, ⟨4, 3 * halfConfig.superBytes⟩, ⟨5, 2 * halfConfig.superBytes⟩]
  fds := by decide
  whole := by decide
  total := by decide

/-- Five GPUs in teams of two: one is left over, and the first of each team gets one super-chunk more. The workers of the
other GPUs write between the first write and the second one of the first worker. -/
theorem wipe_correct_mib :
    let env : Nat → Nat → Env := fun _ _ => mibEnv (fun _ _ => true) (fun _ _ _ => true) fun _ => true
    let logs := workerLogs env halfConfig dealtDisks 5 2 [0, 1, 2] (fun _ _ _ => 0) fun _ _ _ => 0
    let first := logs.headD []
    let log := first.take 1 ++ (logs.tail.flatten ++ first.drop 1)
    (∀ t < 2, ∀ j < 2, ∃ r, worker (env t j) halfConfig (workItems halfConfig dealtDisks 5 2 [0, 1, 2] t j)
      (State.init (fun _ => 0) fun _ => 0) = some r ∧ r.ok = true) ∧
    Interleaved logs log ∧ hits log 4 (mib + 7) = 1 ∧ hits log 5 mib = 0 ∧
      replay log (fun _ _ => 255) 4 (mib + 7) = 0 ∧ replay log (fun _ _ => 255) 5 mib = 255 := by
  intro env logs first log
  have hcorrect := @wipe_correct halfConfig dealtDisks 5 2 [0, 1, 2] env
    (fun _ _ => 0) (fun _ _ _ => 0) (fun _ _ _ => 0) rfl (by decide) (by decide) (List.Perm.refl _)
    (fun _ _ _ _ => ⟨rfl, rfl, rfl, rfl, rfl, mib_success (fun _ => true) _ (by decide) (by decide) _⟩) fun _ _ _ _ => rfl
  have hlog : Interleaved logs log := by
    have h := (Interleaved.flatten logs.tail).inside (first.take 1) (first.drop 1)
    rwa [List.take_append_drop] at h
  obtain ⟨hhits, himage⟩ := hcorrect.2 log hlog
  refine ⟨hcorrect.1, hlog, ?_, ?_, ?_, ?_⟩
  · rw [hhits]
    exact if_pos (by decide)
  · rw [hhits]
    exact if_neg (by decide)
  · rw [himage]
    exact if_pos (by decide)
  · rw [himage]
    exact if_neg (by decide)

end PoseDB.Wipe
