import PoseDB.Cuda.Region
import PoseDB.Wipe.Disks

/-!
# A worker over the kernels

The worker takes a labeling call as one step (`topoLabel`). Here the call runs on the device, access by access in any
order of the threads, with the topology that the worker has built. **`worker_on_device`**: whatever the order, the
worker ends as it does when the call is one step; only what a call that fails leaves in the window buffer is open.
-/

set_option autoImplicit false

namespace PoseDB.Wipe
open Mem Loops PoseDB.Graph Region Threads
open Cuda (Cell Topo TopoHeap Strategy Device Issued)

variable {α : Type}

/-! ## The labeling calls of a worker -/

/-- What the labeling calls of a worker run on: the node hash and the bytes of a label, the seed, the topology that is
built once, the strategy, and the device as each call meets it. -/
structure Labeler (α : Type) (cfg : Config) where
  hash : PoseHash α
  bytes : α → Nat → Byte
  sessionSeed : List UInt8
  strategy : Strategy
  heap : TopoHeap
  topo : Topo α
  built : Cuda.poseGraphHbmTopoBuild hash strategy cfg.chunkBlocks .blake3 heap = some topo
  device : (item pos : Nat) → Device α
  resident : ∀ item pos, Cuda.residentChunks (device item pos) strategy ≤ strategy.maxWidth

section Calls
variable {cfg : Config} (L : Labeler α cfg)

def Labeler.window (mem : Cell → α) (x : Nat) : Byte := L.bytes (mem (.persist (x / 32))) (x % 32)

/-- Byte `x` of the output labels of chunk index `J`. -/
def Labeler.output (J x : Nat) : Byte :=
  L.bytes (chunkLabel L.hash (L.hash.chunkSeed L.sessionSeed J) (resolveChunkBlocks cfg.chunkBlocks) .blake3 (x / 32)) (x % 32)

/-- The call for the window at `pos` of an item. -/
def Labeler.call (item : Nat) (it : WorkItem) (pos win : Nat) : Issued α :=
  Cuda.poseGraphHbmTopoLabel L.hash L.topo L.sessionSeed ((it.diskOff + pos) / 32) L.strategy (L.device item pos) win

/-- What holds after the call `Q` of the plan, on every run of its threads. -/
def Labeler.step (env : Env) (Q : Site) (mem : Cell → α) (ms : Mode × State) (R : (Cell → α) → Mode × State → Prop) :
    Prop :=
  if ms.1.makes Q = true then
    match Q with
    | .label item it pos win =>
      let r := L.call item it pos win
      let st := ms.2.log (.label item pos)
      if r.rc = 0 then Completes r.cmds (fun mem' => R mem' (ms.1, { st with dBuf := L.window mem' })) mem
      else ∀ mem', R mem' (.stopped, { st with dBuf := L.window mem' }.fail "pose_graph_hbm_topo_label failed")
    | Q =>
      match Wipe.step env cfg ms Q with
      | none => False
      | some ms' => R mem ms'
  else R mem ms

def Labeler.run (env : Env) : List Site → (Cell → α) → Mode × State → ((Cell → α) → Mode × State → Prop) → Prop
  | [], mem, ms, R => R mem ms
  | Q :: l, mem, ms, R => L.step env Q mem ms fun mem' ms' => Labeler.run env l mem' ms' R

end Calls

/-! ## One call -/

section Call
variable {cfg : Config} {L : Labeler α cfg}

theorem window_eq {mem mem' : Cell → α} {win o : Nat} (hwin : cfg.superBytes ∣ win)
    (ho : resolveChunkBlocks cfg.chunkBlocks ∣ o) (hmem : ∀ b, mem' (.persist b) =
      if b < resolveChunkBlocks cfg.chunkBlocks * (win / 32 / resolveChunkBlocks cfg.chunkBlocks) then
        blockLabel L.hash L.sessionSeed .blake3 (resolveChunkBlocks cfg.chunkBlocks) o (win / 32) b
      else mem (.persist b)) :
    topoLabel cfg L.output (L.window mem) win o = L.window mem' := by
  have hm := resolveChunkBlocks_pos cfg.chunkBlocks
  obtain ⟨m, hmeq⟩ : ∃ m, m = resolveChunkBlocks cfg.chunkBlocks := ⟨_, rfl⟩
  have hsb : cfg.superBytes = m * 32 := by rw [hmeq]; rfl
  obtain ⟨n, rfl⟩ := hwin
  rw [← hmeq] at hm ho hmem
  have hB : m * 32 * n / 32 = m * n := by
    rw [Nat.mul_right_comm, Nat.mul_div_cancel _ (by decide)]
  simp only [hsb, hB, Nat.mul_div_cancel_left n hm] at hmem
  funext x
  unfold topoLabel
  rw [← hmeq, hsb, Nat.mul_div_cancel_left n (show 0 < m * 32 by omega)]
  rcases Nat.lt_or_ge x (m * 32 * n) with hx | hx
  · have hj : x / (m * 32) < n := Nat.div_lt_of_lt_mul hx
    have hy : x % (m * 32) < m * 32 := Nat.mod_lt x (by omega)
    have hstore := loop_store_in (L.window mem) 0 hj hy fun j => L.output ((o + j * m) / m)
    simp only [Nat.zero_add, Nat.div_add_mod'] at hstore
    have hb : x / 32 < m * n := Nat.div_lt_of_lt_mul (by rw [← Nat.mul_assoc, Nat.mul_comm 32]; exact hx)
    -- block `x / 32` is output `x % (m * 32) / 32` of its super-chunk
    have hblock : x / 32 = m * (x / (m * 32)) + x % (m * 32) / 32 := by
      rw [Nat.mod_mul_left_div_self, ← Nat.div_div_eq_div_mul, Nat.div_div_eq_div_mul, Nat.mul_comm m 32,
        ← Nat.div_div_eq_div_mul, Nat.div_add_mod]
    have hr : x % (m * 32) / 32 < m := Nat.div_lt_of_lt_mul (hy.trans_eq (Nat.mul_comm m 32))
    have hle : m * (x / (m * 32) + 1) ≤ m * n := Nat.mul_le_mul_left m hj
    rw [Nat.mul_succ] at hle
    rw [hstore, Labeler.window, hmem, if_pos hb, hblock, blockLabel_chunk ho hr, Nat.min_eq_left (by omega), Labeler.output,
      ← hmeq, Nat.mod_mul_left_mod, Nat.mul_comm (x / (m * 32)) m]
  · have hb : ¬x / 32 < m * n := by
      rw [Nat.not_lt, Nat.le_div_iff_mul_le (by decide), Nat.mul_right_comm]
      exact hx
    have hstore := loop_store_out (L.window mem) (show 0 < m * 32 by omega) (d := 0) (n := n) (a := x)
      (.inr (by rw [Nat.zero_add, Nat.mul_comm]; exact hx)) fun j => L.output ((o + j * m) / m)
    simp only [Nat.zero_add] at hstore
    rw [hstore, Labeler.window, Labeler.window, hmem, if_neg hb]

/-- A labeling call that returns `0` leaves in the window what `topoLabel` leaves. -/
theorem Labeler.call_completes {item pos win : Nat} {it : WorkItem} (hit : it.Whole cfg) (hpos : cfg.superBytes ∣ pos)
    (hwin : cfg.superBytes ∣ win) (hfits : it.diskOff + pos + win < 2 ^ 64) (hrc : (L.call item it pos win).rc = 0)
    (mem : Cell → α) : Completes (L.call item it pos win).cmds
      (fun mem' => topoLabel cfg L.output (L.window mem) win ((it.diskOff + pos) / 32) = L.window mem') mem := by
  have hsb : cfg.superBytes = resolveChunkBlocks cfg.chunkBlocks * 32 := rfl
  have ho : resolveChunkBlocks cfg.chunkBlocks ∣ (it.diskOff + pos) / 32 := by
    obtain ⟨k, hk⟩ := Nat.dvd_add hit.diskOff hpos
    rw [hk, hsb, Nat.mul_right_comm, Nat.mul_div_cancel _ (by decide)]
    exact Nat.dvd_mul_right _ _
  have hwin32 : win = 32 * (win / 32) := by
    obtain ⟨k, hk⟩ := hwin
    rw [hk, hsb, Nat.mul_right_comm, Nat.mul_div_cancel _ (by decide), Nat.mul_comm]
  unfold Labeler.call at hrc ⊢
  rw [hwin32] at hrc
  have hruns := Cuda.poseGraphHbmTopoLabel_runs L.hash L.built (L.resident item pos) ho (by omega) hrc mem
  rw [← hwin32] at hruns
  exact hruns.mono fun mem' hmem => window_eq hwin ho hmem

/-! ## The simulation -/

/-- The states of the two workers: the window is in the memory of the device, until the worker has stopped. -/
structure Follow (L : Labeler α cfg) (mem : Cell → α) (ms ms' : Mode × State) : Prop where
  eq : ms' = (ms.1, { ms.2 with dBuf := L.window mem })
  window : ms.1 ≠ .stopped → ms.2.dBuf = L.window mem

theorem exec_dBuf {env : Env} {Q : Site} {st st' : State} (hQ : Q.isLabel = false) (h : Q.exec env cfg st = some st') :
    st'.dBuf = st.dBuf := by
  cases Q with
  | label item it pos win => cases hQ
  | copy item it pos s slice =>
    simp only [Site.exec] at h
    split at h
    · cases h
      rfl
    · cases h
      split <;> rfl
  | pwrite item it pos s slice =>
    simp only [Site.exec] at h
    split at h
    · cases h
    · cases h
      rfl
    · cases h
      rfl
  | fsync item =>
    cases h
    rfl

/-- A call of the plan that is a labeling call lies on its item. -/
structure Fits (cfg : Config) (it : WorkItem) (pos win : Nat) : Prop where
  whole : it.Whole cfg
  dvd_pos : cfg.superBytes ∣ pos
  dvd_win : cfg.superBytes ∣ win
  lt : it.diskOff + pos + win < 2 ^ 64

theorem Labeler.step_of_not_label {env : Env} {Q : Site} (hQ : Q.isLabel = false) {mem : Cell → α}
    {ms ms' : Mode × State} (hstep : Wipe.step env cfg ms Q = some ms') {R : (Cell → α) → Mode × State → Prop}
    (hR : R mem ms') :
    L.step env Q mem ms R := by
  unfold Labeler.step
  split
  · cases Q with
    | label item it pos win => cases hQ
    | _ =>
      dsimp only
      rw [hstep]
      exact hR
  · rename_i hmakes
    rw [step_skip (Bool.not_eq_true _ ▸ hmakes)] at hstep
    cases hstep
    exact hR

/-- **One call**: after it, the states follow each other as before. -/
theorem Labeler.step_follows {env : Env} (hout : env.output = L.output) {Q : Site}
    (hQ : ∀ item it pos win, Q = .label item it pos win → Fits cfg it pos win ∧
      (env.label item pos = true ↔ (L.call item it pos win).rc = 0))
    {mem : Cell → α} {ms ms' dms : Mode × State} (hsim : Follow L mem ms dms) (hstep : Wipe.step env cfg ms Q = some ms')
    {R : (Cell → α) → Mode × State → Prop} (hR : ∀ mem' dms', Follow L mem' ms' dms' → R mem' dms') :
    L.step env Q mem dms R := by
  obtain ⟨rfl, hwindow⟩ := hsim
  cases hmakes : ms.1.makes Q with
  | false =>
    rw [step_skip hmakes] at hstep
    cases hstep
    unfold Labeler.step
    rw [if_neg (by rw [hmakes]; exact Bool.false_ne_true)]
    exact hR mem _ ⟨rfl, hwindow⟩
  | true =>
    have hmode : ms.1 ≠ .stopped := fun h => by
      rw [h] at hmakes
      cases hmakes
    have hbuf := hwindow hmode
    have hsame : ((ms.1, { ms.2 with dBuf := L.window mem }) : Mode × State) = ms := by
      rw [← hbuf]
    rw [hsame]
    have hstep' := hstep
    rw [step_makes hmakes, Option.map_eq_some_iff] at hstep'
    obtain ⟨st', hexec, rfl⟩ := hstep'
    cases hlabel : Q.isLabel with
    | false =>
      have hbuf' : st'.dBuf = L.window mem := (exec_dBuf hlabel hexec).trans hbuf
      refine L.step_of_not_label hlabel hstep (hR mem _ ⟨?_, fun _ => hbuf'⟩)
      rw [← hbuf']
    | true =>
      cases Q with
      | label item it pos win =>
        obtain ⟨hfits, hiff⟩ := hQ item it pos win rfl
        unfold Labeler.step
        rw [if_pos hmakes]
        simp only [Site.exec] at hexec
        split at hexec
        · rename_i hfail
          cases hexec
          have hrc : (L.call item it pos win).rc ≠ 0 := fun h => by
            rw [hiff.mpr h] at hfail
            cases hfail
          simp only [if_neg hrc]
          refine fun mem' => hR mem' _ ⟨?_, fun h => ?_⟩
          · simp only [Site.outcome, hfail]
            rfl
          · simp only [Site.outcome, hfail] at h
            exact absurd rfl h
        · rename_i hok
          cases hexec
          rw [Bool.not_eq_false] at hok
          simp only [if_pos (hiff.mp hok)]
          refine (L.call_completes hfits.whole hfits.dvd_pos hfits.dvd_win hfits.lt (hiff.mp hok) mem).mono fun mem' hmem =>
            hR mem' _ ⟨?_, fun _ => ?_⟩
          · simp only [Site.outcome, hok]
            rfl
          · rw [← hmem, ← hbuf, hout]
            rfl
      | _ => cases hlabel

/-- **The plan**: call by call. -/
theorem Labeler.run_follows {env : Env} (hout : env.output = L.output) {l : List Site}
    (hl : ∀ item it pos win, .label item it pos win ∈ l → Fits cfg it pos win ∧
      (env.label item pos = true ↔ (L.call item it pos win).rc = 0))
    {mem : Cell → α} {ms ms' dms : Mode × State} (hsim : Follow L mem ms dms) (hrun : Wipe.run env cfg ms l = some ms')
    {R : (Cell → α) → Mode × State → Prop} (hR : ∀ mem' dms', Follow L mem' ms' dms' → R mem' dms') :
    L.run env l mem dms R := by
  induction l generalizing mem ms dms with
  | nil =>
    cases hrun
    exact hR mem dms hsim
  | cons Q l ih =>
    rw [run_cons, Option.bind_eq_some_iff] at hrun
    obtain ⟨ms1, hstep, hrun⟩ := hrun
    refine L.step_follows hout (fun item it pos win hQ => hl item it pos win (hQ ▸ List.mem_cons_self)) hsim hstep
      fun mem1 dms1 hsim1 => ?_
    exact ih (fun item it pos win h => hl item it pos win (List.mem_cons_of_mem Q h)) hsim1 hrun

end Call

/-! ## The labeling calls of the plan -/

section Plan
variable {cfg : Config} {item : Nat} {it : WorkItem} {window stage : Nat}

theorem label_mem_windowPlan {pos : Nat} (hpos : cfg.superBytes ∣ pos) {item' : Nat} {it' : WorkItem} {pos' win : Nat}
    (h : .label item' it' pos' win ∈ windowPlan cfg item it window stage pos) :
    it' = it ∧ cfg.superBytes ∣ pos' ∧ cfg.superBytes ∣ win ∧ pos' + win ≤ it.len := by
  induction hn : it.len - pos using Nat.strong_induction_on generalizing pos with
  | _ n ih =>
    rw [windowPlan] at h
    split at h
    · rename_i hlt
      dsimp only at h
      split at h
      · cases h
      · rename_i hwin
        rcases List.mem_cons.mp h with heq | h
        · cases heq
          have hle := floorTo_le (min window (it.len - pos')) cfg.superBytes
          exact ⟨rfl, hpos, dvd_floorTo _ _, by omega⟩
        · rcases List.mem_append.mp h with h | h
          · cases (mem_slicePlan h).1
          · exact ih _ (by omega) (Nat.dvd_add hpos (dvd_floorTo _ _)) h rfl
    · cases h

theorem label_mem_itemPlan {items : List WorkItem} {n item' : Nat} {it' : WorkItem} {pos' win : Nat}
    (h : .label item' it' pos' win ∈ itemPlan cfg window stage items n) :
    it' ∈ items ∧ cfg.superBytes ∣ pos' ∧ cfg.superBytes ∣ win ∧ pos' + win ≤ it'.len := by
  induction items generalizing n with
  | nil => cases h
  | cons it items ih =>
    rcases List.mem_append.mp h with h | h
    · obtain ⟨rfl, hpos, hwin, hle⟩ := label_mem_windowPlan (Nat.dvd_zero _) h
      exact ⟨List.mem_cons_self, hpos, hwin, hle⟩
    · rcases List.mem_append.mp h with h | h
      · split at h
        · cases h
        · cases List.mem_singleton.mp h
      · obtain ⟨hmem, hrest⟩ := ih h
        exact ⟨List.mem_cons_of_mem it hmem, hrest⟩

end Plan

/-- **The worker over the kernels.** Where the labeling calls of the worker are runs on the device, the worker comes
to the same end as with `topoLabel`, in every order of the accesses of the threads between barriers: the same writes
and calls, the same result, and the same error. -/
theorem worker_on_device {cfg : Config} (L : Labeler α cfg) {env : Env} (hout : env.output = L.output)
    {items : List WorkItem} (hitems : ∀ it ∈ items, it.Whole cfg) (hfits : ∀ it ∈ items, it.diskOff + it.len < 2 ^ 64)
    (hlabel : ∀ item it pos win, .label item it pos win ∈ plan env cfg items →
      (env.label item pos = true ↔ (L.call item it pos win).rc = 0))
    (hready : env.Ready items) (mem : Cell → α) (hStage : Nat → Byte) {r : State}
    (hr : worker env cfg items (State.init (L.window mem) hStage) = some r) :
    L.run env (plan env cfg items) mem (.running, (State.init (L.window mem) hStage).holdAll) fun _ ms =>
      { ms.2.releaseAll with dBuf := r.dBuf } = r := by
  rw [worker_eq_run hready rfl, Option.map_eq_some_iff] at hr
  obtain ⟨ms, hrun, rfl⟩ := hr
  refine L.run_follows hout (fun item it pos win hmem => ⟨?_, hlabel item it pos win hmem⟩) ⟨rfl, fun _ => rfl⟩ hrun
    fun mem' dms' hsim => ?_
  · obtain ⟨hit, hpos, hwin, hle⟩ := label_mem_itemPlan hmem
    have := hfits it hit
    exact ⟨hitems it hit, hpos, hwin, by omega⟩
  · rw [hsim.eq]
    rfl

/-- The labels of the disk of two windows, on a device with four multiprocessors. -/
def mibLabeler (T : Topo Nat) (hT : Cuda.poseGraphHbmTopoBuild natHash .warp mibConfig.chunkBlocks .blake3 TopoHeap.zero =
    some T) : Labeler Nat mibConfig where
  hash := natHash
  bytes l x := BitVec.ofNat 8 (l / 256 ^ x)
  sessionSeed := []
  strategy := .warp
  heap := TopoHeap.zero
  topo := T
  built := hT
  device _ _ := ⟨2 ^ 30, 4, 2, false, fun _ => true, true, 0⟩
  resident _ _ := by decide

/-- Both windows are labelled on the device. -/
theorem worker_on_device_mib : ∃ T hT, let L := mibLabeler T hT
    let env := { mibEnv (fun _ _ => true) (fun _ _ _ => true) fun _ => true with output := L.output }
    ∃ r : State, r.ok = true ∧ L.run env (plan env mibConfig [mibItem]) (fun _ => 0)
      (.running, (State.init (L.window fun _ => 0) fun _ => 0).holdAll) fun _ ms =>
        { ms.2.releaseAll with dBuf := r.dBuf } = r := by
  obtain ⟨T, hT⟩ := Cuda.poseGraphHbmTopoBuild_succeeds natHash .warp (c := mibConfig.chunkBlocks) (by decide)
    Cuda.TopoHeap.zero_full
  refine ⟨T, hT, ?_⟩
  intro L env
  have hready : env.Ready [mibItem] := ⟨rfl, by decide, rfl, rfl, rfl, rfl⟩
  obtain ⟨r, hr, hok⟩ := (worker_ok_iff (L.window fun _ => 0) (fun _ => 0) hready).mpr (mib_success (fun _ => true) mibConfig (by decide) (by decide) [mibItem])
  refine ⟨r, hok, worker_on_device L rfl mibItem_whole (fun it hit => ?_) (fun item it pos win _ => ?_) hready _ _ hr⟩
  · rw [List.mem_singleton.mp hit]
    decide
  · exact iff_of_true rfl (Cuda.poseGraphHbmTopoLabel_succeeds natHash [] _ win hT (L.resident item pos) (fun _ => rfl) rfl)

end PoseDB.Wipe
