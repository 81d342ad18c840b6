import PoseDB.Wipe.Plan

/-!
# What a worker does after its first failure

A `break` leaves only the slice loop, so after a copy or `pwrite` that failed the loop over the windows goes on labeling.
`worker_stops_iff` says for which first failures the worker stops at once.
-/

set_option autoImplicit false

namespace PoseDB.Wipe

/-! ## Runs of the machine -/

section Runs

variable {env : Env} {cfg : Config}

theorem step_cases {ms ms' : Mode × State} {Q : Site} (h : step env cfg ms Q = some ms') :
    ms' = ms ∧ ms.1.makes Q = false ∨ ms.1.makes Q = true ∧ Ran Q ms.2 ms'.2 := by
  cases hmakes : ms.1.makes Q
  · rw [step_skip hmakes] at h
    exact Or.inl ⟨(Option.some.inj h).symm, rfl⟩
  · rw [step_makes hmakes, Option.map_eq_some_iff] at h
    obtain ⟨st', hexec, rfl⟩ := h
    refine Or.inr ⟨rfl, ?_⟩
    cases hQ : Q.outcome env with
    | never =>
        rw [Site.exec_never cfg _ hQ] at hexec
        cases hexec
    | success =>
        obtain ⟨st, hst, hran, -⟩ := Site.exec_success cfg ms.2 hQ
        rw [hst] at hexec
        exact Option.some.inj hexec ▸ hran
    | failure err =>
        obtain ⟨st, hst, hran, -⟩ := Site.exec_failure cfg ms.2 hQ
        rw [hst] at hexec
        exact Option.some.inj hexec ▸ hran

theorem run_grows {ms ms' : Mode × State} {l : List Site} (h : run env cfg ms l = some ms') :
    ms.2.calls.length ≤ ms'.2.calls.length ∧ ms'.2.held = ms.2.held := by
  induction l generalizing ms with
  | nil =>
      obtain rfl := Option.some.inj h
      exact ⟨le_refl _, rfl⟩
  | cons Q l ih =>
      rw [run_cons, Option.bind_eq_some_iff] at h
      obtain ⟨ms1, hstep, hrun⟩ := h
      obtain ⟨hlen, hheld⟩ := ih hrun
      rcases step_cases hstep with ⟨rfl, -⟩ | ⟨-, hran⟩
      · exact ⟨hlen, hheld⟩
      · refine ⟨le_trans ?_ hlen, hheld.trans hran.held⟩
        rw [hran.calls, List.length_append]
        exact Nat.le_add_right _ _

theorem run_success (cfg : Config) {l : List Site} (h : ∀ Q ∈ l, Q.outcome env = .success) {st : State} (hok : st.ok = true) :
    ∃ st', run env cfg (.running, st) l = some (.running, st') ∧ st'.ok = true ∧
      st'.calls = st.calls ++ l.filterMap Site.call ∧ st'.bytes = st.bytes + (l.map (Site.completed cfg)).sum := by
  induction l generalizing st with
  | nil => exact ⟨st, rfl, hok, (List.append_nil _).symm, rfl⟩
  | cons Q l ih =>
      obtain ⟨st1, hexec, hran, hok1, -, hbytes1⟩ := Site.exec_success cfg st (h Q List.mem_cons_self)
      obtain ⟨st', hrun, hok', hcalls, hbytes⟩ := ih (fun Q' hQ' => h Q' (List.mem_cons_of_mem _ hQ')) (hok1.trans hok)
      refine ⟨st', ?_, hok', ?_, ?_⟩
      · rw [run_cons, step_running hok, hexec, Option.map_some, Option.bind_some, if_pos (hok1.trans hok)]
        exact hrun
      · rw [hcalls, hran.calls, List.append_assoc, List.filterMap_cons]
        cases Q.call <;> rfl
      · rw [hbytes, hbytes1, List.map_cons, List.sum_cons, Nat.add_assoc]

theorem run_failure (cfg : Config) {before : List Site} (hbefore : ∀ Q ∈ before, Q.outcome env = .success) {P : Site} {err : String}
    (hP : P.outcome env = .failure err) {st : State} (hok : st.ok = true) :
    ∃ st', run env cfg (.running, st) (before ++ [P]) =
        some (if P.isLabel then .stopped else .limping P.item, st') ∧ st'.ok = false ∧ st'.err = err ∧
      st'.calls = st.calls ++ (before ++ [P]).filterMap Site.call ∧
      st'.bytes = st.bytes + (before.map (Site.completed cfg)).sum := by
  obtain ⟨st1, hrun, hok1, hcalls1, hbytes1⟩ := run_success cfg hbefore hok
  obtain ⟨st', hexec, hran, hok', herr, hbytes⟩ := Site.exec_failure cfg st1 hP
  refine ⟨st', ?_, hok', herr, ?_, hbytes.trans hbytes1⟩
  · rw [run_append, hrun, Option.bind_some, run_cons, step_running hok1, hexec, Option.map_some, Option.bind_some,
      run_nil, hok']
    rfl
  · rw [hran.calls, hcalls1, List.filterMap_append, List.append_assoc]
    cases hcall : P.call <;> simp [hcall]

/-- A limping worker makes the labeling calls of its item that follow. -/
theorem run_limping {item : Nat} {l : List Site} {Q : Site} (hQ : Q ∈ l) (hlabel : Q.isLabel = true)
    (hitem : Q.item = item) {st : State} {ms : Mode × State} (h : run env cfg (.limping item, st) l = some ms) :
    st.calls.length < ms.2.calls.length := by
  induction l with
  | nil => cases hQ
  | cons Q' l ih =>
      rw [run_cons, Option.bind_eq_some_iff] at h
      obtain ⟨ms1, hstep, hrun⟩ := h
      rcases step_cases hstep with ⟨rfl, hskip⟩ | ⟨hmakes, hran⟩
      · rcases List.mem_cons.mp hQ with rfl | hQ
        · cases Q with
          | label item' it pos win =>
              have : (item' : Nat) = item := hitem
              simp [Mode.makes, this] at hskip
          | copy _ _ _ _ _ => cases hlabel
          | pwrite _ _ _ _ _ => cases hlabel
          | fsync _ => cases hlabel
        · exact ih hQ hrun
      · have hcall : Q'.call.toList.length = 1 := by
          cases Q' with
          | label item' it pos win => rfl
          | copy _ _ _ _ _ => cases hmakes
          | pwrite _ _ _ _ _ => cases hmakes
          | fsync _ => cases hmakes
        have hlen := (run_grows hrun).1
        rw [hran.calls, List.length_append, hcall] at hlen
        exact hlen

end Runs

/-! ## The first failure -/

section First

variable {env : Env} {cfg : Config} {items : List WorkItem} {before after : List Site} {P : Site} {err : String}

/-- The worker makes no call after `P`, reports its failure, counts the slices completed before it, and holds nothing. -/
structure Stops (cfg : Config) (before : List Site) (P : Site) (err : String) (r : State) : Prop where
  calls : r.calls = (before ++ [P]).filterMap Site.call
  ok : r.ok = false
  err : r.err = err
  bytes : r.bytes = (before.map (Site.completed cfg)).sum
  held : r.held = []

/-- A labeling call, or a copy or `pwrite` of the last window of its item. -/
def LastWindow (P : Site) (after : List Site) : Prop :=
  P.isLabel = true ∨ ∀ Q ∈ after, Q.isLabel = true → Q.item ≠ P.item

/-- The worker up to its first failure, and then from the state `st`. -/
theorem worker_first (dBuf hStage : Nat → Byte) (hready : env.Ready items)
    (hplan : plan env cfg items = before ++ P :: after) (hbefore : ∀ Q ∈ before, Q.outcome env = .success)
    (hP : P.outcome env = .failure err) :
    ∃ st, Stops cfg before P err st.releaseAll ∧
      worker env cfg items (State.init dBuf hStage) =
        (run env cfg (if P.isLabel then .stopped else .limping P.item, st) after).map fun ms => ms.2.releaseAll := by
  obtain ⟨st, hrun, hok, herr, hcalls, hbytes⟩ :=
    run_failure cfg hbefore hP (show (State.init dBuf hStage).holdAll.ok = true from rfl)
  refine ⟨st, ⟨hcalls, hok, herr, hbytes.trans (Nat.zero_add _), ?_⟩, ?_⟩
  · show ((st.held.erase .hStage).erase .dBuf).erase .topo = []
    rw [(run_grows hrun).2]
    rfl
  · rw [worker_eq_run hready rfl, hplan, List.append_cons, run_append, hrun, Option.bind_some]

theorem worker_stops (dBuf hStage : Nat → Byte) (hready : env.Ready items)
    (hplan : plan env cfg items = before ++ P :: after) (hbefore : ∀ Q ∈ before, Q.outcome env = .success)
    (hP : P.outcome env = .failure err) (hlast : LastWindow P after) :
    ∃ r, worker env cfg items (State.init dBuf hStage) = some r ∧ Stops cfg before P err r := by
  obtain ⟨st, hstops, hworker⟩ := worker_first dBuf hStage hready hplan hbefore hP
  refine ⟨st.releaseAll, ?_, hstops⟩
  rw [hworker, run_skip]
  · rfl
  · intro Q hQ
    cases hlabel : P.isLabel
    · rcases hlast with h | h
      · exact absurd (hlabel.symm.trans h) Bool.false_ne_true
      · cases Q with
        | label item it pos win => exact decide_eq_false (h _ hQ rfl)
        | copy _ _ _ _ _ => rfl
        | pwrite _ _ _ _ _ => rfl
        | fsync _ => rfl
    · rfl

/-- In another window of its item, a copy or `pwrite` that fails is followed by a labeling call. -/
theorem worker_limps (dBuf hStage : Nat → Byte) (hready : env.Ready items)
    (hplan : plan env cfg items = before ++ P :: after) (hbefore : ∀ Q ∈ before, Q.outcome env = .success)
    (hP : P.outcome env = .failure err) (hlast : ¬ LastWindow P after) {r : State}
    (hr : worker env cfg items (State.init dBuf hStage) = some r) :
    ((before ++ [P]).filterMap Site.call).length < r.calls.length := by
  obtain ⟨st, hstops, hworker⟩ := worker_first dBuf hStage hready hplan hbefore hP
  rw [LastWindow, not_or, not_forall] at hlast
  obtain ⟨hlabel, Q, hQ⟩ := hlast
  rw [not_forall, not_forall] at hQ
  obtain ⟨hmem, hQlabel, hitem⟩ := hQ
  rw [hworker, if_neg hlabel, Option.map_eq_some_iff] at hr
  obtain ⟨ms, hrun, rfl⟩ := hr
  have hlen := run_limping hmem hQlabel (not_not.mp hitem) hrun
  rw [show st.calls = _ from hstops.calls] at hlen
  exact hlen

/-- **When the first call fails for good, the worker makes no call after it, reports that failure, counts the slices
completed before it and releases what it holds, exactly if the call is a labeling call or in the last window of its item.** -/
theorem worker_stops_iff (dBuf hStage : Nat → Byte) (hready : env.Ready items)
    (hplan : plan env cfg items = before ++ P :: after) (hbefore : ∀ Q ∈ before, Q.outcome env = .success)
    (hP : P.outcome env = .failure err) :
    (∃ r, worker env cfg items (State.init dBuf hStage) = some r ∧ Stops cfg before P err r) ↔ LastWindow P after := by
  constructor
  · rintro ⟨r, hr, hstops⟩
    by_contra hlast
    have hlt := worker_limps dBuf hStage hready hplan hbefore hP hlast hr
    rw [hstops.calls] at hlt
    exact lt_irrefl _ hlt
  · exact worker_stops dBuf hStage hready hplan hbefore hP

end First

/-! ## A disk of two windows -/

def mibConfig : Config := ⟨32768, 1, 1, false⟩

def mibItem : WorkItem := ⟨3, 0, 2 * mib⟩

/-- A device with the outcomes given, on which everything else succeeds. -/
def mibEnv (label : Nat → Nat → Bool) (copy : Nat → Nat → Nat → Bool) (fsync : Nat → Bool) : Env where
  setDevice := true
  topoBuild := true
  memGetInfo := true
  malloc := true
  mallocHost := true
  freeWindow := 1024 * mib
  label := label
  copy := copy
  pwrite _ _ _ := [.wrote mib]
  fsync := fsync
  strerror _ := ""
  output _ _ := 0

theorem mibEnv_ready (label : Nat → Nat → Bool) (copy : Nat → Nat → Nat → Bool) (fsync : Nat → Bool) :
    (mibEnv label copy fsync).Ready [mibItem] := ⟨rfl, by decide, rfl, rfl, rfl, rfl⟩

theorem mib_windowBytes (label : Nat → Nat → Bool) (copy : Nat → Nat → Nat → Bool) (fsync : Nat → Bool) :
    windowBytes (mibEnv label copy fsync) mibConfig [mibItem] = mib := by
  have hmax : maxItem [mibItem] = 2 * mib := rfl
  have hsb : mibConfig.superBytes = mib := rfl
  unfold windowBytes
  rw [hmax, hsb]
  simp [floorTo, mibConfig, mib]

theorem mib_plan (label : Nat → Nat → Bool) (copy : Nat → Nat → Nat → Bool) (fsync : Nat → Bool) :
    plan (mibEnv label copy fsync) mibConfig [mibItem] =
      [.label 0 mibItem 0 mib, .copy 0 mibItem 0 0 mib, .pwrite 0 mibItem 0 0 mib,
        .label 0 mibItem mib mib, .copy 0 mibItem mib 0 mib, .pwrite 0 mibItem mib 0 mib, .fsync 0] := by
  have hslice : ∀ pos, slicePlan mibConfig 0 mibItem mib pos mib 0 =
      [.copy 0 mibItem pos 0 mib, .pwrite 0 mibItem pos 0 mib] := by
    intro pos
    rw [slicePlan, dif_pos (by decide), slicePlan, dif_neg (by decide)]
    rfl
  have hwin : floorTo (min mib (mibItem.len - 0)) mibConfig.superBytes = mib := rfl
  have hwin' : floorTo (min mib (mibItem.len - (0 + mib))) mibConfig.superBytes = mib := rfl
  have hwindows : windowPlan mibConfig 0 mibItem mib mib 0 =
      [.label 0 mibItem 0 mib, .copy 0 mibItem 0 0 mib, .pwrite 0 mibItem 0 0 mib,
        .label 0 mibItem mib mib, .copy 0 mibItem mib 0 mib, .pwrite 0 mibItem mib 0 mib] := by
    rw [windowPlan, dif_pos (by decide), hwin]
    dsimp only
    rw [dif_neg (by decide), hslice, windowPlan, dif_pos (by decide), hwin']
    dsimp only
    rw [dif_neg (by decide), hslice, windowPlan, dif_neg (by decide)]
    rfl
  unfold plan
  rw [mib_windowBytes]
  dsimp only
  rw [show stageBytes mibConfig mib = mib from rfl, itemPlan, hwindows]
  rfl

/-- The second labeling call fails: no call comes after it. -/
theorem worker_stops_iff_label :
    ∃ r, worker (mibEnv (fun _ pos => decide (pos = 0)) (fun _ _ _ => true) fun _ => true) mibConfig [mibItem]
        (State.init (fun _ => 0) fun _ => 0) = some r ∧
      Stops mibConfig [.label 0 mibItem 0 mib, .copy 0 mibItem 0 0 mib, .pwrite 0 mibItem 0 0 mib]
        (.label 0 mibItem mib mib) "pose_graph_hbm_topo_label failed" r := by
  refine (worker_stops_iff (fun _ => 0) (fun _ => 0) (mibEnv_ready _ _ _) (mib_plan _ _ _) ?_ rfl).mpr (Or.inl rfl)
  intro Q hQ
  simp only [List.mem_cons, List.not_mem_nil, or_false] at hQ
  rcases hQ with rfl | rfl | rfl
  · rfl
  · rfl
  · rfl

/-- The first copy fails: the second window is labelled all the same. -/
theorem worker_not_stops :
    (∀ Q ∈ [Site.label 0 mibItem 0 mib],
      Q.outcome (mibEnv (fun _ _ => true) (fun _ pos _ => decide (pos ≠ 0)) fun _ => true) = .success) ∧
    (Site.copy 0 mibItem 0 0 mib).outcome (mibEnv (fun _ _ => true) (fun _ pos _ => decide (pos ≠ 0)) fun _ => true) =
      .failure "cudaMemcpy D2H failed" ∧
    (∃ r, worker (mibEnv (fun _ _ => true) (fun _ pos _ => decide (pos ≠ 0)) fun _ => true) mibConfig [mibItem]
        (State.init (fun _ => 0) fun _ => 0) = some r ∧
      r.calls = [.label 0 0, .copy 0 0 0, .label 0 mib]) ∧
    ¬ ∃ r, worker (mibEnv (fun _ _ => true) (fun _ pos _ => decide (pos ≠ 0)) fun _ => true) mibConfig [mibItem]
        (State.init (fun _ => 0) fun _ => 0) = some r ∧
      Stops mibConfig [.label 0 mibItem 0 mib] (.copy 0 mibItem 0 0 mib) "cudaMemcpy D2H failed" r := by
  have hcalls : ∃ r, worker (mibEnv (fun _ _ => true) (fun _ pos _ => decide (pos ≠ 0)) fun _ => true) mibConfig [mibItem]
      (State.init (fun _ => 0) fun _ => 0) = some r ∧ r.calls = [.label 0 0, .copy 0 0 0, .label 0 mib] := by
    rw [worker_eq_run (mibEnv_ready _ _ _) rfl, mib_plan]
    exact ⟨_, rfl, rfl⟩
  refine ⟨?_, rfl, hcalls, ?_⟩
  · intro Q hQ
    rw [List.mem_singleton.mp hQ]
    rfl
  · rintro ⟨r, hr, hstops⟩
    obtain ⟨r', hr', hcalls⟩ := hcalls
    obtain rfl := Option.some.inj (hr.symm.trans hr')
    have hlen := congrArg List.length (hcalls.symm.trans hstops.calls)
    exact absurd hlen (by decide)

end PoseDB.Wipe
