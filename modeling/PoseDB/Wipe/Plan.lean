import PoseDB.Wipe.Worker

/-!
# The calls of a worker, one by one

`plan` has the calls of a run in which none fails, in order. The worker is a machine that goes through its plan
(`worker_eq_run`). It runs until a call fails. After a copy or `pwrite` that failed it limps: it makes the labeling calls of
the windows that are left in the item, and no other call. After a labeling call that failed it makes no call.
-/

set_option autoImplicit false

namespace PoseDB.Wipe
open Mem PoseDB.Graph

/-! ## The plan -/

/-- A call of the plan with its arguments. -/
inductive Site where
  | label (item : Nat) (it : WorkItem) (pos win : Nat)
  | copy (item : Nat) (it : WorkItem) (pos s slice : Nat)
  | pwrite (item : Nat) (it : WorkItem) (pos s slice : Nat)
  | fsync (item : Nat)

namespace Site

def item : Site → Nat
  | label item _ _ _ => item
  | copy item _ _ _ _ => item
  | pwrite item _ _ _ _ => item
  | fsync item => item

def isLabel : Site → Bool
  | label _ _ _ _ => true
  | _ => false

def call : Site → Option Call
  | label item _ pos _ => some (.label item pos)
  | copy item _ pos s _ => some (.copy item pos s)
  | pwrite item _ pos s _ => some (.pwrite item pos s)
  | fsync _ => none

def completed (cfg : Config) : Site → Nat
  | copy _ _ _ _ slice => if cfg.dryRun then slice else 0
  | pwrite _ _ _ _ slice => slice
  | _ => 0

end Site

section Plan

variable (cfg : Config) (item : Nat) (it : WorkItem) (window stage : Nat)

def slicePlan (pos win s : Nat) : List Site :=
  if _h : s < win ∧ 0 < stage then
    let slice := min stage (win - s)
    .copy item it pos s slice ::
      ((if cfg.dryRun then [] else [.pwrite item it pos s slice]) ++ slicePlan pos win (s + stage))
  else []
termination_by win - s
decreasing_by omega

def windowPlan (pos : Nat) : List Site :=
  if _h : pos < it.len then
    let win := floorTo (min window (it.len - pos)) cfg.superBytes
    if _hwin : win = 0 then []
    else .label item it pos win :: (slicePlan cfg item it stage pos win 0 ++ windowPlan (pos + win))
  else []
termination_by it.len - pos
decreasing_by omega

def itemPlan : List WorkItem → (item : Nat) → List Site
  | [], _ => []
  | it :: items, item =>
    windowPlan cfg item it window stage 0 ++ ((if cfg.dryRun then [] else [.fsync item]) ++ itemPlan items (item + 1))

end Plan

def plan (env : Env) (cfg : Config) (items : List WorkItem) : List Site :=
  let window := windowBytes env cfg items
  itemPlan cfg window (stageBytes cfg window) items 0

/-! ## The machine -/

/-- `pwrite_all` fails with an `errno`, succeeds, or never returns. -/
def pwriteErrno (len : Nat) : List Pwrite → (done : Nat) → Option (Option Nat)
  | [], done => if done < len then none else some none
  | outcome :: rest, done =>
    if done < len then
      match outcome with
      | .eintr => pwriteErrno len rest done
      | .failed errno => some (some errno)
      | .wrote n => if min n (len - done) = 0 then some (some eio) else pwriteErrno len rest (done + min n (len - done))
    else some none

theorem pwriteAll_errno (fd : Nat) (buf : Nat → Byte) (len off : Nat) (outcomes : List Pwrite) (done : Nat) :
    (pwriteAll fd buf len off outcomes done).map Prod.snd = pwriteErrno len outcomes done := by
  induction outcomes generalizing done with
  | nil =>
      unfold pwriteAll pwriteErrno
      split <;> rfl
  | cons outcome rest ih =>
      rw [pwriteAll.eq_def, pwriteErrno.eq_def]
      dsimp only
      split
      · cases outcome with
        | eintr => exact ih done
        | failed errno => rfl
        | wrote n =>
            dsimp only
            split
            · rfl
            · rw [← ih, Option.map_map]
              rfl
      · rfl

inductive Outcome where
  | success
  | failure (err : String)
  | never

/-- What becomes of a call, with the text of `res->err` if it fails for good. The result of `fsync` is not looked at. -/
def Site.outcome (env : Env) : Site → Outcome
  | .label item _ pos _ => if env.label item pos then .success else .failure "pose_graph_hbm_topo_label failed"
  | .copy item _ pos s _ => if env.copy item pos s then .success else .failure "cudaMemcpy D2H failed"
  | .pwrite item _ pos s slice =>
    match pwriteErrno slice (env.pwrite item pos s) 0 with
    | none => .never
    | some none => .success
    | some (some errno) => .failure ("pwrite: " ++ env.strerror errno)
  | .fsync _ => .success

/-- A call on a state; `none` when it never returns. -/
def Site.exec (env : Env) (cfg : Config) (st : State) : Site → Option State
  | .label item it pos win =>
    let st := st.log (.label item pos)
    if env.label item pos = false then some (st.fail "pose_graph_hbm_topo_label failed")
    else some { st with dBuf := topoLabel cfg env.output st.dBuf win ((it.diskOff + pos) / 32) }
  | .copy item _ pos s slice =>
    let st := st.log (.copy item pos s)
    if env.copy item pos s = false then some (st.fail "cudaMemcpy D2H failed")
    else
      let st := { st with hStage := store st.hStage 0 slice fun x => st.dBuf (s + x) }
      some (if cfg.dryRun then { st with bytes := st.bytes + slice } else st)
  | .pwrite item it pos s slice =>
    let st := st.log (.pwrite item pos s)
    match pwriteAll it.fd st.hStage slice (it.diskOff + pos + s) (env.pwrite item pos s) 0 with
    | none => none
    | some (ws, some errno) => some ({ st with writes := st.writes ++ ws }.fail ("pwrite: " ++ env.strerror errno))
    | some (ws, none) => some { st with writes := st.writes ++ ws, bytes := st.bytes + slice }
  | .fsync item => some { st with fsyncs := st.fsyncs ++ [(item, env.fsync item)] }

/-- What a call of any outcome leaves in a state. -/
structure Ran (Q : Site) (st st' : State) : Prop where
  calls : st'.calls = st.calls ++ Q.call.toList
  held : st'.held = st.held

theorem Site.exec_spec (env : Env) (cfg : Config) (Q : Site) (st : State) :
    match Q.outcome env with
    | .never => Q.exec env cfg st = none
    | .success => ∃ st', Q.exec env cfg st = some st' ∧ Ran Q st st' ∧ st'.ok = st.ok ∧ st'.err = st.err ∧
        st'.bytes = st.bytes + Q.completed cfg
    | .failure err => ∃ st', Q.exec env cfg st = some st' ∧ Ran Q st st' ∧ st'.ok = false ∧ st'.err = err ∧
        st'.bytes = st.bytes := by
  cases Q with
  | label item it pos win =>
      cases h : env.label item pos
      · simp only [outcome, exec, h]
        exact ⟨_, rfl, ⟨rfl, rfl⟩, rfl, rfl, rfl⟩
      · simp only [outcome, exec, h]
        exact ⟨_, rfl, ⟨rfl, rfl⟩, rfl, rfl, rfl⟩
  | copy item it pos s slice =>
      cases h : env.copy item pos s
      · simp only [outcome, exec, h]
        exact ⟨_, rfl, ⟨rfl, rfl⟩, rfl, rfl, rfl⟩
      · simp only [outcome, exec, h, completed]
        cases cfg.dryRun
        · exact ⟨_, rfl, ⟨rfl, rfl⟩, rfl, rfl, rfl⟩
        · exact ⟨_, rfl, ⟨rfl, rfl⟩, rfl, rfl, rfl⟩
  | pwrite item it pos s slice =>
      have herr := pwriteAll_errno it.fd (st.log (.pwrite item pos s)).hStage slice (it.diskOff + pos + s)
        (env.pwrite item pos s) 0
      simp only [outcome, exec]
      rw [← herr]
      rcases pwriteAll it.fd (st.log (.pwrite item pos s)).hStage slice (it.diskOff + pos + s)
        (env.pwrite item pos s) 0 with _ | ⟨ws, _ | errno⟩
      · rfl
      · exact ⟨_, rfl, ⟨rfl, rfl⟩, rfl, rfl, rfl⟩
      · exact ⟨_, rfl, ⟨rfl, rfl⟩, rfl, rfl, rfl⟩
  | fsync item => exact ⟨_, rfl, ⟨(List.append_nil _).symm, rfl⟩, rfl, rfl, rfl⟩

theorem Site.exec_never {env : Env} (cfg : Config) {Q : Site} (st : State) (h : Q.outcome env = .never) :
    Q.exec env cfg st = none := by
  have hspec := Q.exec_spec env cfg st
  rw [h] at hspec
  exact hspec

theorem Site.exec_success {env : Env} (cfg : Config) {Q : Site} (st : State) (h : Q.outcome env = .success) :
    ∃ st', Q.exec env cfg st = some st' ∧ Ran Q st st' ∧ st'.ok = st.ok ∧ st'.err = st.err ∧
      st'.bytes = st.bytes + Q.completed cfg := by
  have hspec := Q.exec_spec env cfg st
  rw [h] at hspec
  exact hspec

theorem Site.exec_failure {env : Env} (cfg : Config) {Q : Site} {err : String} (st : State)
    (h : Q.outcome env = .failure err) :
    ∃ st', Q.exec env cfg st = some st' ∧ Ran Q st st' ∧ st'.ok = false ∧ st'.err = err ∧ st'.bytes = st.bytes := by
  have hspec := Q.exec_spec env cfg st
  rw [h] at hspec
  exact hspec

inductive Mode where
  | running
  | limping (item : Nat)
  | stopped
deriving DecidableEq, Repr

def Mode.makes : Mode → Site → Bool
  | .running, _ => true
  | .limping item, .label item' _ _ _ => item' = item
  | .limping _, _ => false
  | .stopped, _ => false

def Mode.next (m : Mode) (Q : Site) : Outcome → Mode
  | .failure _ => if Q.isLabel then .stopped else .limping Q.item
  | _ => m

def step (env : Env) (cfg : Config) (ms : Mode × State) (Q : Site) : Option (Mode × State) :=
  if ms.1.makes Q then (Q.exec env cfg ms.2).map fun st => (ms.1.next Q (Q.outcome env), st) else some ms

def run (env : Env) (cfg : Config) (ms : Mode × State) (l : List Site) : Option (Mode × State) :=
  l.foldlM (step env cfg) ms

section Run

variable {env : Env} {cfg : Config}

@[simp] theorem run_nil (ms : Mode × State) : run env cfg ms [] = some ms := rfl

theorem run_cons (ms : Mode × State) (Q : Site) (l : List Site) :
    run env cfg ms (Q :: l) = (step env cfg ms Q).bind fun ms => run env cfg ms l := by
  unfold run
  rw [List.foldlM_cons]
  rfl

theorem run_append (ms : Mode × State) (l l' : List Site) :
    run env cfg ms (l ++ l') = (run env cfg ms l).bind fun ms => run env cfg ms l' := by
  unfold run
  rw [List.foldlM_append]
  rfl

theorem step_makes {ms : Mode × State} {Q : Site} (h : ms.1.makes Q = true) :
    step env cfg ms Q = (Q.exec env cfg ms.2).map fun st => (ms.1.next Q (Q.outcome env), st) := by
  unfold step
  rw [if_pos h]

theorem step_running {st : State} (hok : st.ok = true) (Q : Site) :
    step env cfg (.running, st) Q = (Q.exec env cfg st).map fun st =>
      (if st.ok then .running else if Q.isLabel then .stopped else .limping Q.item, st) := by
  rw [step_makes rfl]
  cases hQ : Q.outcome env with
  | never => rw [Site.exec_never cfg st hQ, Option.map_none, Option.map_none]
  | success =>
      obtain ⟨st', hexec, -, hok', -⟩ := Site.exec_success cfg st hQ
      rw [hexec, Option.map_some, Option.map_some, hok', hok]
      rfl
  | failure err =>
      obtain ⟨st', hexec, -, hok', -⟩ := Site.exec_failure cfg st hQ
      rw [hexec, Option.map_some, Option.map_some, hok']
      rfl

theorem step_skip {ms : Mode × State} {Q : Site} (h : ms.1.makes Q = false) : step env cfg ms Q = some ms := by
  unfold step
  rw [h]
  rfl

theorem run_skip {ms : Mode × State} {l : List Site} (h : ∀ Q ∈ l, ms.1.makes Q = false) :
    run env cfg ms l = some ms := by
  induction l with
  | nil => rfl
  | cons Q l ih =>
      rw [run_cons, step_skip (h Q List.mem_cons_self), Option.bind_some]
      exact ih fun Q' hQ' => h Q' (List.mem_cons_of_mem _ hQ')

end Run

/-! ## The worker is the machine -/

section Refine

variable {env : Env} {cfg : Config} {item : Nat} {it : WorkItem} {window stage : Nat}

/-- The calls of a slice plan are no labeling calls, and its item is `item`. -/
theorem mem_slicePlan {pos win s : Nat} {Q : Site} (h : Q ∈ slicePlan cfg item it stage pos win s) :
    Q.isLabel = false ∧ Q.item = item := by
  induction hn : win - s using Nat.strong_induction_on generalizing s with
  | _ n ih =>
      rw [slicePlan] at h
      split at h
      · rcases List.mem_cons.mp h with rfl | h
        · exact ⟨rfl, rfl⟩
        · rcases List.mem_append.mp h with h | h
          · cases hdry : cfg.dryRun
            · rw [hdry, if_neg Bool.false_ne_true, List.mem_singleton] at h
              subst h
              exact ⟨rfl, rfl⟩
            · rw [hdry, if_pos rfl] at h
              cases h
          · exact ih _ (by omega) h rfl
      · cases h

theorem mem_windowPlan {pos : Nat} {Q : Site} (h : Q ∈ windowPlan cfg item it window stage pos) : Q.item = item := by
  induction hn : it.len - pos using Nat.strong_induction_on generalizing pos with
  | _ n ih =>
      rw [windowPlan] at h
      split at h
      · dsimp only at h
        split at h
        · cases h
        · rcases List.mem_cons.mp h with rfl | h
          · rfl
          · rcases List.mem_append.mp h with h | h
            · exact (mem_slicePlan h).2
            · exact ih _ (by omega) h rfl
      · cases h

theorem mem_itemPlan {items : List WorkItem} {n : Nat} {Q : Site} (h : Q ∈ itemPlan cfg window stage items n) :
    n ≤ Q.item := by
  induction items generalizing n with
  | nil => cases h
  | cons it items ih =>
      rcases List.mem_append.mp h with h | h
      · exact (mem_windowPlan h).ge
      · rcases List.mem_append.mp h with h | h
        · cases hdry : cfg.dryRun
          · rw [hdry, if_neg Bool.false_ne_true, List.mem_singleton] at h
            subst h
            exact le_refl n
          · rw [hdry, if_pos rfl] at h
            cases h
        · exact (Nat.le_succ n).trans (ih h)

/-- What holds of every call with slices up to the stage holds in a plan. -/
theorem itemPlan_forall {p : Site → Prop} (hlabel : ∀ item it pos win, p (.label item it pos win))
    (hcopy : ∀ item it pos s slice, slice ≤ stage → p (.copy item it pos s slice))
    (hpwrite : ∀ item it pos s slice, slice ≤ stage → p (.pwrite item it pos s slice)) (hfsync : ∀ item, p (.fsync item))
    (items : List WorkItem) (n : Nat) : ∀ Q ∈ itemPlan cfg window stage items n, p Q := by
  have hslice : ∀ item it pos win s, ∀ Q ∈ slicePlan cfg item it stage pos win s, p Q := by
    intro item it pos win s
    induction s using slicePlan.induct stage win with
    | case1 s h ih =>
      rw [slicePlan, dif_pos h]
      refine List.forall_mem_cons.mpr ⟨hcopy _ _ _ _ _ (Nat.min_le_left ..), List.forall_mem_append.mpr ⟨?_, ih⟩⟩
      split
      · exact List.forall_mem_nil p
      · exact List.forall_mem_singleton.mpr (hpwrite _ _ _ _ _ (Nat.min_le_left ..))
    | case2 s h =>
      rw [slicePlan, dif_neg h]
      exact List.forall_mem_nil p
  have hwindow : ∀ item it pos, ∀ Q ∈ windowPlan cfg item it window stage pos, p Q := by
    intro item it pos
    induction pos using windowPlan.induct cfg it window with
    | case1 pos h win hwin =>
      rw [windowPlan, dif_pos h, dif_pos hwin]
      exact List.forall_mem_nil p
    | case2 pos h win hwin ih =>
      rw [windowPlan, dif_pos h, dif_neg hwin]
      exact List.forall_mem_cons.mpr ⟨hlabel _ _ _ _, List.forall_mem_append.mpr ⟨hslice _ _ _ _ _, ih⟩⟩
    | case3 pos h =>
      rw [windowPlan, dif_neg h]
      exact List.forall_mem_nil p
  induction items generalizing n with
  | nil => exact List.forall_mem_nil p
  | cons it items ih =>
    refine List.forall_mem_append.mpr ⟨hwindow _ _ _, List.forall_mem_append.mpr ⟨?_, ih (n + 1)⟩⟩
    split
    · exact List.forall_mem_nil p
    · exact List.forall_mem_singleton.mpr (hfsync n)

theorem limping_skips {l : List Site} {st : State} {item : Nat} (h : ∀ Q ∈ l, Q.isLabel = false) :
    run env cfg (.limping item, st) l = some (.limping item, st) := by
  apply run_skip
  intro Q hQ
  have hQ := h Q hQ
  cases Q <;> first | rfl | cases hQ

theorem sliceLoop_fail {pos win s : Nat} {st : State} (hok : st.ok = false) :
    sliceLoop env cfg item it stage pos win s st = some st := by
  rw [sliceLoop, dif_neg]
  rintro ⟨⟨-, h⟩, -⟩
  rw [hok] at h
  cases h

theorem sliceLoop_round {pos win s : Nat} {st : State} (hok : st.ok = true) (hs : s < win) (hstage : 0 < stage) :
    sliceLoop env cfg item it stage pos win s st =
      ((Site.copy item it pos s (min stage (win - s))).exec env cfg st).bind fun st =>
        (if st.ok && !cfg.dryRun then (Site.pwrite item it pos s (min stage (win - s))).exec env cfg st
          else some st).bind
          (sliceLoop env cfg item it stage pos win (s + stage)) := by
  rw [sliceLoop, dif_pos ⟨⟨hs, hok⟩, hstage⟩]
  cases hcopy : env.copy item pos s
  · simp only [Site.exec, hcopy, if_true, Option.bind_some, State.fail, Bool.false_and, Bool.false_eq_true, if_false]
    rw [sliceLoop_fail rfl]
  · cases hdry : cfg.dryRun
    · simp only [Site.exec, hcopy, hdry, hok, State.log, Bool.true_eq_false, Bool.false_eq_true, if_true, if_false,
        Option.bind_some, Bool.not_false, Bool.and_true]
      rcases pwriteAll it.fd (store st.hStage 0 (min stage (win - s)) fun x => st.dBuf (s + x)) (min stage (win - s))
        (it.diskOff + pos + s) (env.pwrite item pos s) 0 with _ | ⟨ws, _ | errno⟩
      · rfl
      · rfl
      · dsimp only
        rw [Option.bind_some, sliceLoop_fail rfl]
    · simp only [Site.exec, hcopy, hdry, Bool.true_eq_false, if_true, if_false, Option.bind_some, Bool.not_true,
        Bool.and_false, Bool.false_eq_true]

theorem run_slicePlan {pos win s : Nat} {st : State} (hok : st.ok = true) :
    run env cfg (.running, st) (slicePlan cfg item it stage pos win s) =
      (sliceLoop env cfg item it stage pos win s st).map fun st =>
        (if st.ok then .running else .limping item, st) := by
  induction hn : win - s using Nat.strong_induction_on generalizing s st with
  | _ n ih =>
      by_cases h : s < win ∧ 0 < stage
      · have hskip : ∀ Q ∈ slicePlan cfg item it stage pos win (s + stage), Q.isLabel = false :=
          fun Q hQ => (mem_slicePlan hQ).1
        rw [slicePlan, dif_pos h, sliceLoop_round hok h.1 h.2, run_cons, step_running hok]
        cases (Site.copy item it pos s (min stage (win - s))).exec env cfg st with
        | none => rfl
        | some st =>
            rw [Option.map_some, Option.bind_some, Option.bind_some]
            cases hok1 : st.ok
            · -- the copy failed
              rw [Bool.false_and, if_neg Bool.false_ne_true, if_neg Bool.false_ne_true, Option.bind_some,
                sliceLoop_fail hok1, Option.map_some, hok1]
              apply limping_skips
              intro Q hQ
              rcases List.mem_append.mp hQ with hQ | hQ
              · split at hQ
                · cases hQ
                · rw [List.mem_singleton.mp hQ]
                  rfl
              · exact hskip Q hQ
            · rw [Bool.true_and, if_pos rfl]
              cases cfg.dryRun
              · rw [if_neg Bool.false_ne_true, Bool.not_false, if_pos rfl, List.singleton_append, run_cons,
                  step_running hok1]
                cases (Site.pwrite item it pos s (min stage (win - s))).exec env cfg st with
                | none => rfl
                | some st =>
                    rw [Option.map_some, Option.bind_some, Option.bind_some]
                    cases hok2 : st.ok
                    · rw [if_neg Bool.false_ne_true, sliceLoop_fail hok2, Option.map_some, hok2]
                      exact limping_skips hskip
                    · exact ih _ (by omega) hok2 rfl
              · exact ih _ (by omega) hok1 rfl
      · rw [slicePlan, sliceLoop, dif_neg h, dif_neg fun hc => h ⟨hc.1.1, hc.2⟩, Option.map_some, hok]
        rfl

def Follows (item : Nat) : Mode × State → Prop
  | (.running, st) => st.ok = true
  | (.limping item', st) => item' = item ∧ st.ok = false
  | (.stopped, st) => st.ok = false

/-- The machine ends as the loop does. -/
structure Ends (item : Nat) (out : Option (Mode × State)) (out' : Option State) : Prop where
  state : out.map Prod.snd = out'
  mode : ∀ ms, out = some ms → Follows item ms

theorem Ends.none (item : Nat) : Ends item none none := ⟨rfl, fun _ h => nomatch h⟩

theorem Ends.some {item : Nat} {ms : Mode × State} (h : Follows item ms) : Ends item (some ms) (some ms.2) :=
  ⟨rfl, fun _ h' => Option.some.inj h' ▸ h⟩

theorem Mode.running_ne_stopped : Mode.running ≠ .stopped := fun h => by cases h

theorem Mode.limping_ne_stopped {item : Nat} : Mode.limping item ≠ .stopped := fun h => by cases h

/-- A window of the machine, from a mode in which it makes the labeling call. -/
theorem run_windowPlan {pos : Nat} {m : Mode} {st : State} (hm : m ≠ .stopped) (h : Follows item (m, st)) :
    Ends item (run env cfg (m, st) (windowPlan cfg item it window stage pos))
      (windowLoop env cfg item it window stage pos st) := by
  induction hn : it.len - pos using Nat.strong_induction_on generalizing pos m st with
  | _ n ih =>
      rw [windowPlan, windowLoop]
      by_cases hpos : pos < it.len
      · rw [dif_pos hpos, dif_pos hpos]
        dsimp only
        by_cases hwin : floorTo (min window (it.len - pos)) cfg.superBytes = 0
        · rw [dif_pos hwin, dif_pos hwin]
          exact Ends.some h
        · rw [dif_neg hwin, dif_neg hwin]
          generalize floorTo (min window (it.len - pos)) cfg.superBytes = win at hwin
          have hmakes : m.makes (.label item it pos win) = true := by
            cases m with
            | running => rfl
            | limping item' => simpa [Mode.makes] using h.1.symm
            | stopped => exact absurd rfl hm
          rw [run_cons, step_makes hmakes]
          cases hlabel : env.label item pos
          · -- the machine stops
            simp only [Site.exec, Site.outcome, hlabel, if_true, Bool.false_eq_true, if_false, Option.map_some,
              Option.bind_some, Mode.next]
            rw [run_skip fun Q _ => rfl]
            exact Ends.some rfl
          · simp only [Site.exec, Site.outcome, hlabel, Bool.true_eq_false, if_true, if_false, Option.map_some,
              Option.bind_some, Mode.next]
            rw [run_append]
            generalize hst1 : ({ st.log (.label item pos) with
              dBuf := topoLabel cfg env.output (st.log (.label item pos)).dBuf win ((it.diskOff + pos) / 32) } : State) = st1
            have hok1 : st1.ok = st.ok := by rw [← hst1]; rfl
            cases m with
            | running =>
                rw [run_slicePlan (hok1.trans h)]
                cases sliceLoop env cfg item it stage pos win 0 st1 with
                | none => exact Ends.none item
                | some st =>
                    rw [Option.map_some, Option.bind_some]
                    cases hok : st.ok
                    · exact ih _ (by omega) Mode.limping_ne_stopped ⟨rfl, hok⟩ rfl
                    · exact ih _ (by omega) Mode.running_ne_stopped hok rfl
            | limping item' =>
                rw [limping_skips fun Q hQ => (mem_slicePlan hQ).1, sliceLoop_fail (hok1.trans h.2), Option.bind_some]
                exact ih _ (by omega) Mode.limping_ne_stopped ⟨h.1, hok1.trans h.2⟩ rfl
            | stopped => exact absurd rfl hm
      · rw [dif_neg hpos, dif_neg hpos]
        exact Ends.some h

/-- The modes before item `item`. -/
def Before (item : Nat) : Mode × State → Prop
  | (.running, st) => st.ok = true
  | (.limping item', st) => item' < item ∧ st.ok = false
  | (.stopped, st) => st.ok = false

theorem Follows.before {ms : Mode × State} (h : Follows item ms) : Before (item + 1) ms := by
  obtain ⟨m, st⟩ := ms
  cases m with
  | running => exact h
  | limping item' => exact ⟨h.1 ▸ Nat.lt_succ_self _, h.2⟩
  | stopped => exact h

/-- After a failure in an item, nothing is done for the later ones. -/
theorem run_itemPlan_fail {items : List WorkItem} {m : Mode} {st : State} (hok : st.ok = false)
    (h : Before item (m, st)) : run env cfg (m, st) (itemPlan cfg window stage items item) = some (m, st) := by
  apply run_skip
  intro Q hQ
  have hitem := mem_itemPlan hQ
  cases m with
  | running => exact absurd (hok.symm.trans h) Bool.false_ne_true
  | limping item' =>
      cases Q with
      | label item'' it pos win =>
          have h1 : item' < item := h.1
          have h2 : item ≤ item'' := hitem
          exact decide_eq_false (by omega)
      | copy _ _ _ _ _ => rfl
      | pwrite _ _ _ _ _ => rfl
      | fsync _ => rfl
  | stopped => rfl

theorem run_itemPlan {items : List WorkItem} {ms : Mode × State} (h : Before item ms) :
    (run env cfg ms (itemPlan cfg window stage items item)).map Prod.snd =
      itemLoop env cfg window stage items item ms.2 := by
  induction items generalizing item ms with
  | nil => rfl
  | cons it items ih =>
      obtain ⟨m, st⟩ := ms
      cases hok : st.ok
      · rw [run_itemPlan_fail hok h, itemLoop, if_pos hok]
        rfl
      · have hm : m = .running := by
          cases m with
          | running => rfl
          | limping item' => exact absurd (h.2.symm.trans hok) Bool.false_ne_true
          | stopped => exact absurd (Eq.trans (Eq.symm h) hok) Bool.false_ne_true
        subst hm
        have hw : Ends item (run env cfg (.running, st) (windowPlan cfg item it window stage 0))
            (windowLoop env cfg item it window stage 0 st) := run_windowPlan (nofun) h
        rw [itemLoop, if_neg (by rw [hok]; exact Bool.false_ne_true.symm), itemPlan, run_append, ← hw.state]
        cases hrun : run env cfg (.running, st) (windowPlan cfg item it window stage 0) with
        | none => rfl
        | some ms =>
            have hf := hw.mode ms hrun
            obtain ⟨m, st⟩ := ms
            rw [Option.bind_some, Option.map_some, run_append]
            dsimp only
            cases hok : st.ok
            · -- the item failed: the machine makes no call after it
              have hskip : ∀ Q ∈ if cfg.dryRun then [] else [Site.fsync item], m.makes Q = false := by
                intro Q hQ
                split at hQ
                · cases hQ
                · rw [List.mem_singleton.mp hQ]
                  cases m with
                  | running => exact absurd (hok.symm.trans hf) Bool.false_ne_true
                  | limping item' => rfl
                  | stopped => rfl
              rw [run_skip hskip, Option.bind_some, Bool.false_and, if_neg Bool.false_ne_true]
              exact ih hf.before
            · have hm : m = .running := by
                cases m with
                | running => rfl
                | limping item' => exact absurd (hf.2.symm.trans hok) Bool.false_ne_true
                | stopped => exact absurd (Eq.trans (Eq.symm hf) hok) Bool.false_ne_true
              subst hm
              rw [Bool.true_and]
              cases cfg.dryRun
              · rw [if_neg Bool.false_ne_true, Bool.not_false, if_pos rfl, run_cons, step_running hok]
                simp only [Site.exec, Option.map_some, Option.bind_some, run_nil, hok, if_true]
                exact ih (show Before (item + 1) (.running, _) from rfl)
              · rw [if_pos rfl, run_nil, Option.bind_some, Bool.not_true, if_neg Bool.false_ne_true]
                exact ih hok

/-- The worker gets to its loops. -/
structure Env.Ready (env : Env) (items : List WorkItem) : Prop where
  setDevice : env.setDevice = true
  total : totalLen items ≠ 0
  topoBuild : env.topoBuild = true
  memGetInfo : env.memGetInfo = true
  malloc : env.malloc = true
  mallocHost : env.mallocHost = true

def State.holdAll (st : State) : State := ((st.hold .topo).hold .dBuf).hold .hStage

def State.releaseAll (st : State) : State := ((st.release .hStage).release .dBuf).release .topo

theorem worker_ready {items : List WorkItem} (st : State) (h : env.Ready items) :
    worker env cfg items st =
      (itemLoop env cfg (windowBytes env cfg items) (stageBytes cfg (windowBytes env cfg items)) items 0 st.holdAll).map
        State.releaseAll := by
  unfold worker
  simp only [h.setDevice, h.total, h.topoBuild, h.memGetInfo, h.malloc, h.mallocHost, Bool.true_eq_false, if_false]
  rfl

/-- **The worker goes through its plan, and then releases what it holds.** -/
theorem worker_eq_run {items : List WorkItem} {st : State} (h : env.Ready items) (hok : st.ok = true) :
    worker env cfg items st =
      (run env cfg (.running, st.holdAll) (plan env cfg items)).map fun ms => ms.2.releaseAll := by
  have hrun : (run env cfg (.running, st.holdAll) (plan env cfg items)).map Prod.snd =
      itemLoop env cfg (windowBytes env cfg items) (stageBytes cfg (windowBytes env cfg items)) items 0 st.holdAll :=
    run_itemPlan (show Before 0 (.running, st.holdAll) from hok)
  rw [worker_ready st h, show (fun ms : Mode × State => ms.2.releaseAll) = State.releaseAll ∘ Prod.snd from rfl,
    ← Option.map_map]
  rw [hrun]

/-- A worker that does not get to its loops succeeds only if it has nothing to do. -/
theorem worker_not_ready {items : List WorkItem} {st r : State} (h : ¬ env.Ready items)
    (hr : worker env cfg items st = some r) (hok : r.ok = true) : env.setDevice = true ∧ totalLen items = 0 ∧ r = st := by
  have hfail : ∀ (st : State) (msg : String), some (st.fail msg) ≠ some r := by
    intro st msg heq
    rw [← Option.some.inj heq] at hok
    cases hok
  unfold worker at hr
  by_cases h1 : env.setDevice = false
  · rw [if_pos h1] at hr
    exact absurd hr (hfail _ _)
  rw [if_neg h1] at hr
  by_cases h2 : totalLen items = 0
  · rw [if_pos h2] at hr
    exact ⟨Bool.not_eq_false _ ▸ h1, h2, (Option.some.inj hr).symm⟩
  rw [if_neg h2] at hr
  by_cases h3 : env.topoBuild = false
  · rw [if_pos h3] at hr
    exact absurd hr (hfail _ _)
  rw [if_neg h3] at hr
  by_cases h4 : env.memGetInfo = false
  · rw [if_pos h4] at hr
    exact absurd hr (hfail _ _)
  rw [if_neg h4] at hr
  by_cases h5 : env.malloc = false
  · rw [if_pos h5] at hr
    exact absurd hr (hfail _ _)
  rw [if_neg h5] at hr
  by_cases h6 : env.mallocHost = false
  · rw [if_pos h6] at hr
    exact absurd hr (hfail _ _)
  rw [Bool.not_eq_false] at h1 h3 h4 h5 h6
  exact absurd ⟨h1, h2, h3, h4, h5, h6⟩ h

end Refine

end PoseDB.Wipe
