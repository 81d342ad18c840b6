import PoseDB.Wipe.Failure
import Mathlib.Data.List.Forall2

/-!
# What a worker that succeeds has written

If the worker ends without a failure, its writes fill each item with the output labels of its super-chunks, each byte once
(`worker_covers`). The result of `fsync` is not looked at: `worker_wiped_iff` says when success means that the items are
on the disks.
-/

set_option autoImplicit false

namespace PoseDB.Wipe
open Mem PoseDB.Graph Cover

/-- Byte `x` of an item: its super-chunk gets the output labels of its own chunk. -/
def labelByte (cfg : Config) (output : Nat → Nat → Byte) (it : WorkItem) (x : Nat) : Byte :=
  output (it.diskOff / cfg.superBytes + x / cfg.superBytes) (x % cfg.superBytes)

/-- As `WorkItem` has it: whole super-chunks from a super-chunk boundary on. -/
structure WorkItem.Whole (it : WorkItem) (cfg : Config) : Prop where
  diskOff : cfg.superBytes ∣ it.diskOff
  len : cfg.superBytes ∣ it.len

theorem superBytes_pos (cfg : Config) : 0 < cfg.superBytes :=
  Nat.mul_pos (resolveChunkBlocks_pos cfg.chunkBlocks) (by decide)

theorem floorTo_le (v m : Nat) : floorTo v m ≤ v := by
  unfold floorTo
  split
  · exact Nat.div_mul_le_self v m
  · exact Nat.zero_le v

theorem dvd_floorTo (v m : Nat) : m ∣ floorTo v m := by
  unfold floorTo
  split
  · exact Nat.dvd_mul_left m (v / m)
  · exact Nat.dvd_zero m

theorem le_floorTo {v m : Nat} (hm : 0 < m) (h : m ≤ v) : m ≤ floorTo v m := by
  unfold floorTo
  rw [if_pos (by omega)]
  exact Nat.le_mul_of_pos_left m (Nat.div_pos h hm)

theorem superBytes_le_windowBytes (env : Env) (cfg : Config) (items : List WorkItem) :
    cfg.superBytes ≤ windowBytes env cfg items := by
  unfold windowBytes
  dsimp only
  split_ifs <;> omega

theorem stageBytes_pos {cfg : Config} {window : Nat} (h : cfg.superBytes ≤ window) : 0 < stageBytes cfg window := by
  have hsb := superBytes_pos cfg
  unfold stageBytes
  dsimp only
  split_ifs <;> omega

/-- A labelled window has the bytes of the item from `pos` on. -/
theorem topoLabel_eq {cfg : Config} {output : Nat → Nat → Byte} {buf : Nat → Byte} {win pos x : Nat} {it : WorkItem}
    (hit : it.Whole cfg) (hpos : cfg.superBytes ∣ pos) (hwin : cfg.superBytes ∣ win) (hx : x < win) :
    topoLabel cfg output buf win ((it.diskOff + pos) / 32) x = labelByte cfg output it (pos + x) := by
  have hc := resolveChunkBlocks_pos cfg.chunkBlocks
  have hsb := superBytes_pos cfg
  have hj : x / cfg.superBytes < win / cfg.superBytes := Nat.div_lt_div_of_lt_of_dvd hwin hx
  have hchunk : ∀ j, ((it.diskOff + pos) / 32 + j * resolveChunkBlocks cfg.chunkBlocks) /
      resolveChunkBlocks cfg.chunkBlocks = (it.diskOff + pos) / cfg.superBytes + j := by
    intro j
    rw [Nat.add_mul_div_right _ _ hc, Nat.div_div_eq_div_mul, Nat.mul_comm 32]
    rfl
  have hstore := loop_store_in buf 0 hj (Nat.mod_lt x hsb) fun j =>
    output (((it.diskOff + pos) / 32 + j * resolveChunkBlocks cfg.chunkBlocks) / resolveChunkBlocks cfg.chunkBlocks)
  simp only [Nat.zero_add, Nat.div_add_mod'] at hstore
  unfold topoLabel labelByte
  rw [hstore, hchunk]
  obtain ⟨k, hk⟩ := hit.diskOff
  obtain ⟨p, rfl⟩ := hpos
  rw [hk, ← Nat.mul_add, Nat.mul_div_cancel_left _ hsb, Nat.mul_div_cancel_left _ hsb, Nat.mul_add_div hsb,
    Nat.mul_add_mod, Nat.add_assoc]

/-! ## The loops -/

/-- A `pwrite_all` that succeeds writes the buffer, whatever the short writes and interrupts. -/
theorem pwriteAll_covers {fd : Nat} {buf : Nat → Byte} {len off : Nat} {outcomes : List Pwrite} {done : Nat}
    {ws : List Write} (h : pwriteAll fd buf len off outcomes done = some (ws, none)) (hdone : done ≤ len) :
    Covers fd off buf done len ws := by
  induction outcomes generalizing done ws with
  | nil =>
      rw [pwriteAll] at h
      by_cases hlt : done < len
      · rw [if_pos hlt] at h
        cases h
      · rw [if_neg hlt] at h
        obtain rfl : done = len := by omega
        cases h
        exact Covers.nil fd off buf done
  | cons outcome rest ih =>
      rw [pwriteAll.eq_def] at h
      dsimp only at h
      by_cases hlt : done < len
      · rw [if_pos hlt] at h
        cases outcome with
        | eintr => exact ih h hdone
        | failed errno => cases h
        | wrote n =>
            dsimp only at h
            by_cases hn : min n (len - done) = 0
            · rw [if_pos hn] at h
              cases h
            · rw [if_neg hn, Option.map_eq_some_iff] at h
              obtain ⟨⟨ws', errno⟩, hrest, heq⟩ := h
              cases heq
              have hle : done + min n (len - done) ≤ len := by omega
              exact (Covers.single fd off buf done _).append (ih hrest hle) (Nat.le_add_right _ _) hle
      · rw [if_neg hlt] at h
        obtain rfl : done = len := by omega
        cases h
        exact Covers.nil fd off buf done

section Loops

variable {env : Env} {cfg : Config} {item : Nat} {it : WorkItem} {window stage : Nat} {st r : State}

theorem copy_ok {pos s slice : Nat} (hdry : cfg.dryRun = false)
    (h : (Site.copy item it pos s slice).exec env cfg st = some r) (hok : r.ok = true) :
    r.writes = st.writes ∧ r.fsyncs = st.fsyncs ∧ r.dBuf = st.dBuf ∧ ∀ x < slice, r.hStage x = st.dBuf (s + x) := by
  cases hcopy : env.copy item pos s
  · simp only [Site.exec, hcopy, if_true, Option.some.injEq] at h
    rw [← h] at hok
    cases hok
  · simp only [Site.exec, hcopy, hdry, Bool.true_eq_false, Bool.false_eq_true, if_false, Option.some.injEq] at h
    rw [← h]
    refine ⟨rfl, rfl, rfl, fun x hx => ?_⟩
    have hstore := store_in (st.log (.copy item pos s)).hStage 0 slice (fun x => st.dBuf (s + x)) hx
    rw [Nat.zero_add] at hstore
    exact hstore

/-- A `pwrite_all` that succeeds writes the slice. -/
theorem pwrite_ok {pos s slice : Nat} (h : (Site.pwrite item it pos s slice).exec env cfg st = some r)
    (hok : r.ok = true) : ∃ ws, r.writes = st.writes ++ ws ∧ r.fsyncs = st.fsyncs ∧ r.dBuf = st.dBuf ∧
      Covers it.fd (it.diskOff + pos + s) st.hStage 0 slice ws := by
  simp only [Site.exec] at h
  rcases hws : pwriteAll it.fd (st.log (.pwrite item pos s)).hStage slice (it.diskOff + pos + s)
    (env.pwrite item pos s) 0 with _ | ⟨ws, _ | errno⟩
  · rw [hws] at h
    cases h
  · rw [hws] at h
    rw [← Option.some.inj h]
    exact ⟨ws, rfl, rfl, rfl, pwriteAll_covers hws (Nat.zero_le _)⟩
  · rw [hws] at h
    rw [← Option.some.inj h] at hok
    cases hok

theorem sliceLoop_covers {content : Nat → Byte} {pos win s : Nat} (hdry : cfg.dryRun = false) (hstage : 0 < stage)
    (hlabel : ∀ x < win, st.dBuf x = content (pos + x)) (hst : st.ok = true)
    (h : sliceLoop env cfg item it stage pos win s st = some r) (hok : r.ok = true) :
    ∃ ws, r.writes = st.writes ++ ws ∧ r.fsyncs = st.fsyncs ∧
      Covers it.fd it.diskOff content (pos + min s win) (pos + win) ws := by
  induction hn : win - s using Nat.strong_induction_on generalizing s st with
  | _ n ih =>
      by_cases hlt : s < win
      · rw [sliceLoop_round hst hlt hstage, Option.bind_eq_some_iff] at h
        obtain ⟨st1, hcopy, h⟩ := h
        cases hok1 : st1.ok
        · rw [hok1, Bool.false_and, if_neg Bool.false_ne_true, Option.bind_some, sliceLoop_fail hok1] at h
          rw [← Option.some.inj h, hok1] at hok
          cases hok
        · rw [hok1, hdry, Bool.true_and, Bool.not_false, if_pos rfl, Option.bind_eq_some_iff] at h
          obtain ⟨st2, hpwrite, h⟩ := h
          cases hok2 : st2.ok
          · rw [sliceLoop_fail hok2] at h
            rw [← Option.some.inj h, hok2] at hok
            cases hok
          · obtain ⟨hwrites1, hfsyncs1, hbuf1, hstage1⟩ := copy_ok hdry hcopy hok1
            obtain ⟨ws, hwrites2, hfsyncs2, hbuf2, hws⟩ := pwrite_ok hpwrite hok2
            have hslice : Covers it.fd it.diskOff content (pos + s) (pos + s + min stage (win - s)) ws := by
              rw [Nat.add_assoc it.diskOff] at hws
              refine hws.shift fun x _ hx => ?_
              rw [hstage1 x hx, hlabel (s + x) (by omega), Nat.add_assoc]
            obtain ⟨ws', hwrites, hfsyncs, hrest⟩ :=
              ih _ (by omega) (fun x hx => by rw [hbuf2, hbuf1, hlabel x hx]) hok2 h rfl
            refine ⟨ws ++ ws', ?_, ?_, ?_⟩
            · rw [hwrites, hwrites2, hwrites1, List.append_assoc]
            · rw [hfsyncs, hfsyncs2, hfsyncs1]
            · rw [Nat.min_eq_left (Nat.le_of_lt hlt)]
              rw [show min (s + stage) win = s + min stage (win - s) by omega, ← Nat.add_assoc] at hrest
              exact hslice.append hrest (by omega) (by omega)
      · rw [sliceLoop, dif_neg fun hc => hlt hc.1.1] at h
        obtain rfl := Option.some.inj h
        rw [Nat.min_eq_right (by omega)]
        exact ⟨[], (List.append_nil _).symm, rfl, Covers.nil _ _ _ _⟩

theorem windowLoop_fail {pos : Nat} (hst : st.ok = false) (h : windowLoop env cfg item it window stage pos st = some r) :
    r.ok = false := by
  induction hn : it.len - pos using Nat.strong_induction_on generalizing pos st with
  | _ n ih =>
      rw [windowLoop] at h
      by_cases hlt : pos < it.len
      · rw [dif_pos hlt] at h
        dsimp only at h
        by_cases hwin : floorTo (min window (it.len - pos)) cfg.superBytes = 0
        · rw [dif_pos hwin] at h
          rw [← Option.some.inj h, hst]
        · rw [dif_neg hwin] at h
          by_cases hl : env.label item pos = false
          · rw [if_pos hl] at h
            rw [← Option.some.inj h]
            rfl
          · rw [if_neg hl] at h
            generalize hst1 : ({ st.log (.label item pos) with
              dBuf := topoLabel cfg env.output (st.log (.label item pos)).dBuf _ ((it.diskOff + pos) / 32) } : State) = st1
              at h
            have hok1 : st1.ok = false := by
              rw [← hst1]
              exact hst
            rw [sliceLoop_fail hok1] at h
            exact ih _ (by omega) hok1 h rfl
      · rw [dif_neg hlt] at h
        rw [← Option.some.inj h, hst]

theorem windowLoop_covers {pos : Nat} (hdry : cfg.dryRun = false) (hstage : 0 < stage)
    (hwindow : cfg.superBytes ≤ window) (hit : it.Whole cfg) (hpos : cfg.superBytes ∣ pos) (hst : st.ok = true)
    (h : windowLoop env cfg item it window stage pos st = some r) (hok : r.ok = true) :
    ∃ ws, r.writes = st.writes ++ ws ∧ r.fsyncs = st.fsyncs ∧
      Covers it.fd it.diskOff (labelByte cfg env.output it) (min pos it.len) it.len ws := by
  induction hn : it.len - pos using Nat.strong_induction_on generalizing pos st with
  | _ n ih =>
      rw [windowLoop] at h
      by_cases hlt : pos < it.len
      · have hleft : cfg.superBytes ≤ it.len - pos := Nat.le_of_dvd (by omega) (Nat.dvd_sub hit.len hpos)
        have hwin : cfg.superBytes ≤ floorTo (min window (it.len - pos)) cfg.superBytes :=
          le_floorTo (superBytes_pos cfg) (Nat.le_min.mpr ⟨hwindow, hleft⟩)
        have hwinle := floorTo_le (min window (it.len - pos)) cfg.superBytes
        have hwindvd := dvd_floorTo (min window (it.len - pos)) cfg.superBytes
        have hsb := superBytes_pos cfg
        rw [dif_pos hlt] at h
        dsimp only at h
        rw [dif_neg (by omega)] at h
        generalize floorTo (min window (it.len - pos)) cfg.superBytes = win at h hwin hwinle hwindvd
        by_cases hl : env.label item pos = false
        · rw [if_pos hl] at h
          rw [← Option.some.inj h] at hok
          cases hok
        · rw [if_neg hl] at h
          generalize hst1 : ({ st.log (.label item pos) with
            dBuf := topoLabel cfg env.output (st.log (.label item pos)).dBuf win ((it.diskOff + pos) / 32) } : State) = st1 at h
          have hlabel : ∀ x < win, st1.dBuf x = labelByte cfg env.output it (pos + x) := by
            intro x hx
            rw [← hst1]
            exact topoLabel_eq hit hpos hwindvd hx
          cases hslice : sliceLoop env cfg item it stage pos win 0 st1 with
          | none =>
              rw [hslice] at h
              cases h
          | some st2 =>
              rw [hslice] at h
              cases hok2 : st2.ok
              · rw [windowLoop_fail hok2 h] at hok
                cases hok
              · obtain ⟨ws, hwrites2, hfsyncs2, hws⟩ :=
                  sliceLoop_covers hdry hstage hlabel (by rw [← hst1]; exact hst) hslice hok2
                obtain ⟨ws', hwrites, hfsyncs, hrest⟩ := ih _ (by omega) (Nat.dvd_add hpos hwindvd) hok2 h rfl
                refine ⟨ws ++ ws', ?_, ?_, ?_⟩
                · rw [hwrites, hwrites2, ← hst1, List.append_assoc]
                  rfl
                · rw [hfsyncs, hfsyncs2, ← hst1]
                  rfl
                · rw [Nat.min_eq_left (Nat.zero_le _), Nat.add_zero] at hws
                  rw [Nat.min_eq_left (by omega)] at hrest ⊢
                  exact hws.append hrest (by omega) (by omega)
      · rw [dif_neg hlt] at h
        obtain rfl := Option.some.inj h
        rw [Nat.min_eq_right (by omega)]
        exact ⟨[], (List.append_nil _).symm, rfl, Covers.nil _ _ _ _⟩

theorem itemLoop_fail {items : List WorkItem} (hst : st.ok = false) :
    itemLoop env cfg window stage items item st = some st := by
  cases items with
  | nil => rfl
  | cons it items => rw [itemLoop, if_pos hst]

/-- The items, each with its writes and its `fsync`. -/
theorem itemLoop_covers {items : List WorkItem} (hdry : cfg.dryRun = false) (hstage : 0 < stage)
    (hwindow : cfg.superBytes ≤ window) (hitems : ∀ it ∈ items, it.Whole cfg) (hst : st.ok = true)
    (h : itemLoop env cfg window stage items item st = some r) (hok : r.ok = true) :
    ∃ wss, r.writes = st.writes ++ wss.flatten ∧
      r.fsyncs = st.fsyncs ++ (List.range' item items.length).map (fun i => (i, env.fsync i)) ∧
      List.Forall₂ (fun it ws => Covers it.fd it.diskOff (labelByte cfg env.output it) 0 it.len ws) items wss := by
  induction items generalizing item st with
  | nil =>
      obtain rfl := Option.some.inj h
      exact ⟨[], (List.append_nil _).symm, (List.append_nil _).symm, List.Forall₂.nil⟩
  | cons it items ih =>
      rw [itemLoop, hst, if_neg Bool.false_ne_true.symm] at h
      cases hw : windowLoop env cfg item it window stage 0 st with
      | none =>
          rw [hw] at h
          cases h
      | some st1 =>
          rw [hw] at h
          dsimp only at h
          cases hok1 : st1.ok
          · rw [hok1, Bool.false_and, if_neg Bool.false_ne_true] at h
            rw [itemLoop_fail hok1] at h
            rw [← Option.some.inj h, hok1] at hok
            cases hok
          · rw [hok1, hdry, Bool.true_and, Bool.not_false, if_pos rfl] at h
            obtain ⟨ws, hwrites1, hfsyncs1, hws⟩ := windowLoop_covers hdry hstage hwindow
              (hitems it List.mem_cons_self) (Nat.dvd_zero _) hst hw hok1
            obtain ⟨wss, hwrites, hfsyncs, hrest⟩ :=
              ih (fun it' hit' => hitems it' (List.mem_cons_of_mem _ hit')) rfl h
            refine ⟨ws :: wss, ?_, ?_, List.Forall₂.cons ?_ hrest⟩
            · rw [hwrites, List.flatten_cons, ← List.append_assoc, ← hwrites1]
            · rw [hfsyncs, List.length_cons, List.range'_succ, List.map_cons, ← List.append_cons, ← hfsyncs1]
            · rwa [Nat.min_eq_left (Nat.zero_le _)] at hws

end Loops

/-! ## The worker -/

section Worker

variable {env : Env} {cfg : Config} {items : List WorkItem} {r : State}

theorem worker_covers {dBuf hStage : Nat → Byte} (hdry : cfg.dryRun = false) (hitems : ∀ it ∈ items, it.Whole cfg)
    (hready : env.Ready items) (hr : worker env cfg items (State.init dBuf hStage) = some r) (hok : r.ok = true) :
    ∃ wss, r.writes = wss.flatten ∧ r.fsyncs = (List.range items.length).map (fun i => (i, env.fsync i)) ∧
      List.Forall₂ (fun it ws => Covers it.fd it.diskOff (labelByte cfg env.output it) 0 it.len ws) items wss := by
  have hwindow := superBytes_le_windowBytes env cfg items
  rw [worker_ready _ hready, Option.map_eq_some_iff] at hr
  obtain ⟨st, hloop, rfl⟩ := hr
  obtain ⟨wss, hwrites, hfsyncs, hwss⟩ :=
    itemLoop_covers hdry (stageBytes_pos hwindow) hwindow hitems rfl hloop hok
  rw [List.range_eq_range']
  exact ⟨wss, hwrites, hfsyncs, hwss⟩

theorem run_not_ok {ms ms' : Mode × State} {l : List Site} (hst : ms.2.ok = false)
    (h : run env cfg ms l = some ms') : ms'.2.ok = false := by
  induction l generalizing ms with
  | nil =>
      obtain rfl := Option.some.inj h
      exact hst
  | cons Q l ih =>
      rw [run_cons, Option.bind_eq_some_iff] at h
      obtain ⟨ms1, hstep, hrun⟩ := h
      refine ih ?_ hrun
      cases hmakes : ms.1.makes Q
      · rw [step_skip hmakes] at hstep
        rw [← Option.some.inj hstep, hst]
      · rw [step_makes hmakes, Option.map_eq_some_iff] at hstep
        obtain ⟨st1, hexec, rfl⟩ := hstep
        cases hQ : Q.outcome env with
        | never =>
            rw [Site.exec_never cfg _ hQ] at hexec
            cases hexec
        | success =>
            obtain ⟨st, hst', -, hok, -⟩ := Site.exec_success cfg ms.2 hQ
            rw [hst'] at hexec
            exact Option.some.inj hexec ▸ hok.trans hst
        | failure err =>
            obtain ⟨st, hst', -, hok, -⟩ := Site.exec_failure cfg ms.2 hQ
            rw [hst'] at hexec
            exact Option.some.inj hexec ▸ hok

theorem run_ok {st : State} {ms : Mode × State} {l : List Site} (hst : st.ok = true)
    (h : run env cfg (.running, st) l = some ms) (hok : ms.2.ok = true) : ∀ Q ∈ l, Q.outcome env = .success := by
  induction l generalizing st with
  | nil =>
      intro Q hQ
      cases hQ
  | cons Q l ih =>
      rw [run_cons, step_running hst, Option.bind_eq_some_iff] at h
      obtain ⟨ms1, hstep, hrun⟩ := h
      rw [Option.map_eq_some_iff] at hstep
      obtain ⟨st1, hexec, rfl⟩ := hstep
      cases hok1 : st1.ok
      · rw [run_not_ok hok1 hrun] at hok
        cases hok
      · rw [hok1, if_pos rfl] at hrun
        have hQ : Q.outcome env = .success := by
          cases hQ : Q.outcome env with
          | never =>
              rw [Site.exec_never cfg _ hQ] at hexec
              cases hexec
          | success => rfl
          | failure err =>
              obtain ⟨st', hst', -, hok', -⟩ := Site.exec_failure cfg st hQ
              rw [hst'] at hexec
              rw [← Option.some.inj hexec, hok'] at hok1
              cases hok1
        intro Q' hQ'
        rcases List.mem_cons.mp hQ' with rfl | hQ'
        · exact hQ
        · exact ih hok1 hrun Q' hQ'

/-- The worker that gets to its loops succeeds if and only if each call of its plan does. -/
theorem worker_ok_iff (dBuf hStage : Nat → Byte) (hready : env.Ready items) :
    (∃ r, worker env cfg items (State.init dBuf hStage) = some r ∧ r.ok = true) ↔
      ∀ Q ∈ plan env cfg items, Q.outcome env = .success := by
  rw [worker_eq_run hready rfl]
  constructor
  · rintro ⟨r, hr, hok⟩
    rw [Option.map_eq_some_iff] at hr
    obtain ⟨ms, hrun, rfl⟩ := hr
    exact run_ok rfl hrun hok
  · intro h
    obtain ⟨st, hrun, hok, -⟩ := run_success cfg h (show (State.init dBuf hStage).holdAll.ok = true from rfl)
    exact ⟨st.releaseAll, by rw [hrun]; rfl, hok⟩

/-- What success should mean: each byte of each item was written with its label, and the `fsync` of each item that has
bytes was made and succeeded. -/
structure Wiped (env : Env) (cfg : Config) (items : List WorkItem) (r : State) : Prop where
  written : ∀ it ∈ items, ∀ x < it.len, ∃ w ∈ r.writes, w.covers it.fd (it.diskOff + x) = true ∧
    w.data (it.diskOff + x - w.off) = labelByte cfg env.output it x
  synced : ∀ i it, items[i]? = some it → it.len ≠ 0 → (i, true) ∈ r.fsyncs
  fsyncs : ∀ p ∈ r.fsyncs, p.2 = true

/-- A call before the loops fails, or one in the loops fails for good or never returns. -/
def Fails (env : Env) (cfg : Config) (items : List WorkItem) : Prop :=
  env.setDevice = false ∨
    totalLen items ≠ 0 ∧ (¬ env.Ready items ∨ ∃ Q ∈ plan env cfg items, Q.outcome env ≠ .success)

/-- The worker fails, or its items are empty, or each `fsync` succeeds and the total length is not a multiple of `2 ^ 64`. -/
def Sound (env : Env) (cfg : Config) (items : List WorkItem) : Prop :=
  Fails env cfg items ∨ (∀ it ∈ items, it.len = 0) ∨ totalLen items ≠ 0 ∧ ∀ i < items.length, env.fsync i = true

theorem Fails.not_ok {dBuf hStage : Nat → Byte} (hfails : Fails env cfg items)
    (hr : worker env cfg items (State.init dBuf hStage) = some r) : r.ok ≠ true := by
  intro hok
  by_cases hready : env.Ready items
  · have hall := (worker_ok_iff dBuf hStage hready).mp ⟨r, hr, hok⟩
    rcases hfails with h | ⟨-, h | ⟨Q, hQ, h⟩⟩
    · exact absurd (h.symm.trans hready.setDevice) Bool.false_ne_true
    · exact h hready
    · exact h (hall Q hQ)
  · obtain ⟨hdevice, htotal, -⟩ := worker_not_ready hready hr hok
    rcases hfails with h | ⟨h, -⟩
    · exact absurd (h.symm.trans hdevice) Bool.false_ne_true
    · exact h htotal

theorem totalLen_eq_zero (h : ∀ it ∈ items, it.len = 0) : totalLen items = 0 := by
  unfold totalLen
  induction items with
  | nil => rfl
  | cons it items ih =>
      rw [List.foldl_cons, h it List.mem_cons_self]
      exact ih fun it' hit' => h it' (List.mem_cons_of_mem _ hit')

theorem worker_empty (st : State) (hdevice : env.setDevice = true) (htotal : totalLen items = 0) :
    worker env cfg items st = some st := by
  unfold worker
  rw [hdevice, if_neg Bool.false_ne_true.symm, if_pos htotal]

theorem worker_wiped {dBuf hStage : Nat → Byte} (hdry : cfg.dryRun = false) (hitems : ∀ it ∈ items, it.Whole cfg)
    (hsound : Sound env cfg items) (hr : worker env cfg items (State.init dBuf hStage) = some r) (hok : r.ok = true) :
    Wiped env cfg items r := by
  rcases hsound with hfails | hempty | ⟨htotal, hsync⟩
  · exact absurd hok (hfails.not_ok hr)
  · have hready : ¬ env.Ready items := fun h => h.total (totalLen_eq_zero hempty)
    obtain ⟨-, -, rfl⟩ := worker_not_ready hready hr hok
    refine ⟨?_, ?_, ?_⟩
    · intro it hit x hx
      rw [hempty it hit] at hx
      cases hx
    · intro i it hi hlen
      exact absurd (hempty it (List.mem_of_getElem? hi)) hlen
    · intro p hp
      cases hp
  · have hready : env.Ready items := by
      by_contra h
      exact htotal (worker_not_ready h hr hok).2.1
    obtain ⟨wss, hwrites, hfsyncs, hwss⟩ := worker_covers hdry hitems hready hr hok
    refine ⟨?_, ?_, ?_⟩
    · intro it hit x hx
      obtain ⟨i, hi, rfl⟩ := List.mem_iff_getElem.mp hit
      have hi' : i < wss.length := hwss.length_eq ▸ hi
      obtain ⟨w, hw, hcovers, hdata⟩ := (hwss.get hi hi').written (Nat.zero_le x) hx
      refine ⟨w, ?_, hcovers, hdata⟩
      rw [hwrites]
      exact List.mem_flatten.mpr ⟨_, List.get_mem wss ⟨i, hi'⟩, hw⟩
    · intro i it hi hlen
      obtain ⟨hi, -⟩ := List.getElem?_eq_some_iff.mp hi
      rw [hfsyncs, List.mem_map]
      exact ⟨i, List.mem_range.mpr hi, by rw [hsync i hi]⟩
    · intro p hp
      rw [hfsyncs, List.mem_map] at hp
      obtain ⟨i, hi, rfl⟩ := hp
      exact hsync i (List.mem_range.mp hi)

/-- **A worker that ends without a failure has wiped its items, whatever the outcomes of its calls, if and only if it is
`Sound`: the code ignores the result of `fsync`.** -/
theorem worker_wiped_iff (dBuf hStage : Nat → Byte) (hdry : cfg.dryRun = false) (hitems : ∀ it ∈ items, it.Whole cfg) :
    (∀ r, worker env cfg items (State.init dBuf hStage) = some r → r.ok = true → Wiped env cfg items r) ↔
      Sound env cfg items := by
  constructor
  · intro h
    by_contra hsound
    obtain ⟨hfails, hsound⟩ := not_or.mp hsound
    obtain ⟨hempty, hsync⟩ := not_or.mp hsound
    obtain ⟨hdevice, hfails⟩ := not_or.mp hfails
    rw [Bool.not_eq_false] at hdevice
    by_cases htotal : totalLen items = 0
    · -- nothing is written, though an item has bytes
      apply hempty
      intro it hit
      by_contra hlen
      obtain ⟨w, hw, -⟩ := (h _ (worker_empty _ hdevice htotal) rfl).written it hit 0 (Nat.pos_of_ne_zero hlen)
      cases hw
    · obtain ⟨hready, hplan⟩ := not_or.mp (not_and.mp hfails htotal)
      rw [not_not] at hready
      obtain ⟨r, hr, hok⟩ := (worker_ok_iff dBuf hStage hready).mpr fun Q hQ => by
        by_contra hne
        exact hplan ⟨Q, hQ, hne⟩
      obtain ⟨wss, -, hfsyncs, -⟩ := worker_covers hdry hitems hready hr hok
      refine hsync ⟨htotal, fun i hi => (h r hr hok).fsyncs (i, env.fsync i) ?_⟩
      rw [hfsyncs, List.mem_map]
      exact ⟨i, List.mem_range.mpr hi, rfl⟩
  · intro hsound r hr hok
    exact worker_wiped hdry hitems hsound hr hok

end Worker

theorem mibItem_whole : ∀ it ∈ [mibItem], it.Whole mibConfig := by
  intro it hit
  rw [List.mem_singleton.mp hit]
  exact ⟨by decide, by decide⟩

theorem pwriteErrno_whole {len n : Nat} (h : len ≤ n) : pwriteErrno len [.wrote n] 0 = some none := by
  have hmin : min n (len - 0) = len := Nat.min_eq_right h
  rw [pwriteErrno.eq_def]
  dsimp only
  split
  · rename_i hpos
    rw [hmin, if_neg hpos.ne', pwriteErrno, if_neg (by omega)]
  · rfl

theorem stageBytes_le {cfg : Config} {n : Nat} (hsuper : cfg.superBytes ≤ n) (hstage : cfg.stageMib * mib ≤ n)
    (window : Nat) : stageBytes cfg window ≤ n := by
  have hfloor := (floorTo_le (cfg.stageMib * mib % 2 ^ 64) cfg.superBytes).trans ((Nat.mod_le ..).trans hstage)
  unfold stageBytes
  dsimp only
  split_ifs <;> omega

theorem mib_success (fsync : Nat → Bool) (cfg : Config) (hsuper : cfg.superBytes ≤ mib) (hstage : cfg.stageMib * mib ≤ mib)
    (items : List WorkItem) (Q : Site) (hQ : Q ∈ plan (mibEnv (fun _ _ => true) (fun _ _ _ => true) fsync) cfg items) :
    Q.outcome (mibEnv (fun _ _ => true) (fun _ _ _ => true) fsync) = .success := by
  refine itemPlan_forall (p := fun Q => Q.outcome _ = .success) (fun _ _ _ _ => rfl) (fun _ _ _ _ _ _ => rfl)
    (fun item it pos s slice h => ?_) (fun _ => rfl) items 0 Q hQ
  dsimp only [Site.outcome, mibEnv]
  rw [pwriteErrno_whole (h.trans (stageBytes_le hsuper hstage _))]

/-- All calls succeed: the item is wiped. -/
theorem worker_wiped_iff_mib :
    ∃ r, worker (mibEnv (fun _ _ => true) (fun _ _ _ => true) fun _ => true) mibConfig [mibItem]
        (State.init (fun _ => 0) fun _ => 0) = some r ∧ r.ok = true ∧
      Wiped (mibEnv (fun _ _ => true) (fun _ _ _ => true) fun _ => true) mibConfig [mibItem] r := by
  obtain ⟨r, hr, hok⟩ := (worker_ok_iff (fun _ => 0) (fun _ => 0) (mibEnv_ready _ _ _)).mpr (mib_success (fun _ => true) mibConfig (by decide) (by decide) [mibItem])
  have hsound : Sound (mibEnv (fun _ _ => true) (fun _ _ _ => true) fun _ => true) mibConfig [mibItem] :=
    Or.inr (Or.inr ⟨by decide, fun _ _ => rfl⟩)
  exact ⟨r, hr, hok, (worker_wiped_iff _ _ rfl mibItem_whole).mpr hsound r hr hok⟩

/-- Only `fsync` fails: the worker reports success. -/
theorem worker_not_wiped :
    ∃ r, worker (mibEnv (fun _ _ => true) (fun _ _ _ => true) fun _ => false) mibConfig [mibItem]
        (State.init (fun _ => 0) fun _ => 0) = some r ∧ r.ok = true ∧ r.fsyncs = [(0, false)] ∧
      ¬ Wiped (mibEnv (fun _ _ => true) (fun _ _ _ => true) fun _ => false) mibConfig [mibItem] r := by
  obtain ⟨r, hr, hok⟩ := (worker_ok_iff (fun _ => 0) (fun _ => 0) (mibEnv_ready _ _ _)).mpr (mib_success (fun _ => false) mibConfig (by decide) (by decide) [mibItem])
  obtain ⟨wss, -, hfsyncs, -⟩ := worker_covers rfl mibItem_whole (mibEnv_ready _ _ _) hr hok
  refine ⟨r, hr, hok, hfsyncs, fun h => ?_⟩
  have hfalse := h.fsyncs (0, false) (by rw [hfsyncs]; exact List.mem_singleton.mpr rfl)
  cases hfalse

end PoseDB.Wipe
