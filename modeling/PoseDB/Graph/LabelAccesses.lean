import PoseDB.Graph.Accesses

/-!
# `do_label` access by access

The id-indexed emitter reads and writes node ids and labels of its scratch buffer. `emitAccesses` has its operations in the
order of the source and computes what `emitScheme` computes (`emitAccesses_computes`), so that `do_label` as a program gives
the result of `doLabel` (`doLabelProg_run`) and stays in the output blocks and its scratch buffer (`doLabelProg_within`).
-/

set_option autoImplicit false

namespace PoseDB.Graph
open Loops Mem Programs
open Programs.Prog (loopM batchLoopM readCell writeCell run_bind run_pure within_loopM within_batchLoopM within_pure
  within_readCell within_writeCell)

section Emit
variable {α : Type} (H : PoseHash α) (seed desc : α) (algo : PoseHashAlgo) (k : Nat)

def readId (k a : Nat) : Prog (Loc.Val α) Nat := readCell (V := Loc.Val α) (.id k a)

def writeId (k a id : Nat) : Prog (Loc.Val α) Unit := writeCell (V := Loc.Val α) (.id k a) id

/-- `emit1` for node `id`. -/
def emit1Prog (id pred0 : Nat) : Prog (Loc.Val α) Unit := do
  let p0 ← readLabel k pred0
  writeLabel k id (H.label seed desc algo ⟨false, id, some p0, none⟩)

/-- `emit2` for node `id`. -/
def emit2Prog (id pred0 pred1 : Nat) : Prog (Loc.Val α) Unit := do
  let p := if pred0 > pred1 then (pred1, pred0) else (pred0, pred1)
  let p0 ← readLabel k p.1
  let p1 ← readLabel k p.2
  writeLabel k id (H.label seed desc algo ⟨false, id, some p0, some p1⟩)

/-- The local arrays of a batch. -/
structure BatchLocals where
  nextId : Nat
  ids : Nat → Nat
  pred0s : Nat → Nat
  pred1s : Nat → Nat

def BatchLocals.init (nextId : Nat) : BatchLocals := ⟨nextId, fun _ => 0, fun _ => 0, fun _ => 0⟩

def entry1Prog (src dst i j : Nat) (b : BatchLocals) : Prog (Loc.Val α) BatchLocals := do
  writeId k (dst + (i + j)) b.nextId
  let p0 ← readId k (src + (i + j))
  pure { b with nextId := b.nextId + 1, ids := Function.update b.ids j b.nextId, pred0s := Function.update b.pred0s j p0 }

def entry2Prog (a0 a1 : Nat → Nat) (dst i j : Nat) (b : BatchLocals) : Prog (Loc.Val α) BatchLocals := do
  writeId k (dst + (i + j)) b.nextId
  let p0 ← readId k (a0 (i + j))
  let p1 ← readId k (a1 (i + j))
  let p := if p0 > p1 then (p1, p0) else (p0, p1)
  pure { nextId := b.nextId + 1, ids := Function.update b.ids j b.nextId, pred0s := Function.update b.pred0s j p.1,
         pred1s := Function.update b.pred1s j p.2 }

/-- `pose_label_node_many`: all predecessors are read, then the labels are written. -/
def labelNodeManyProg (n : Nat) (ids pred0s : Nat → Nat) (pred1s : Option (Nat → Nat)) (firstId : Nat) :
    Prog (Loc.Val α) Unit := do
  let p0 ← readLabels seed k n pred0s
  let p1 ← readOptLabels seed k n pred1s
  writeLabels k firstId n (poseLabelNodeMany H false ids (some fun j => some (p0 j)) (p1.map fun p1 j => some (p1 j)) seed
    desc algo)

def labelBatch1Prog (src dst i batch : Nat) (e : Locals) : Prog (Loc.Val α) Locals := do
  let b ← loopM batch (entry1Prog k src dst i) (.init e.nextId)
  labelNodeManyProg H seed desc algo k batch b.ids b.pred0s none e.nextId
  pure { e with nextId := b.nextId }

def labelBatch2Prog (a0 a1 : Nat → Nat) (dst i batch : Nat) (e : Locals) : Prog (Loc.Val α) Locals := do
  let b ← loopM batch (entry2Prog k a0 a1 dst i) (.init e.nextId)
  labelNodeManyProg H seed desc algo k batch b.ids b.pred0s (some b.pred1s) e.nextId
  pure { e with nextId := b.nextId }

def labelLayer1Prog (width src dst : Nat) : Locals → Prog (Loc.Val α) Locals :=
  batchLoopM width poseLabelBatch (labelBatch1Prog H seed desc algo k src dst) 0

def labelLayer2Prog (width : Nat) (a0 a1 : Nat → Nat) (dst : Nat) : Locals → Prog (Loc.Val α) Locals :=
  batchLoopM width poseLabelBatch (labelBatch2Prog H seed desc algo k a0 a1 dst) 0

def readIds (k n : Nat) (a : Nat → Nat) : Prog (Loc.Val α) (Nat → Nat) :=
  loopM n (fun j f => do
    let id ← readId k (a j)
    pure (Function.update f j id)) fun _ => 0

def writeIds (k dst n : Nat) (v : Nat → Nat) : Prog (Loc.Val α) Unit := loopM n (fun j _ => writeId k (dst + j) (v j)) ()

/-- `memcpy` of ids. -/
def copyIds (k dst src n : Nat) : Prog (Loc.Val α) Unit := do
  let v ← readIds k n fun j => src + j
  writeIds k dst n v

/-- The operations of the `emit_*` functions in labeling mode, in scratch buffer `k`. -/
def emitAccesses : AccessScheme (Loc.Val α) where
  source dst e := do
    writeLabel k e.nextId (H.label seed desc algo ⟨true, e.nextId, none, none⟩)
    writeId k dst e.nextId
    pure { e with nextId := e.nextId + 1 }
  one src dst e := do
    let p0 ← readId k src
    emit1Prog H seed desc algo k e.nextId p0
    writeId k dst e.nextId
    pure { e with nextId := e.nextId + 1 }
  merge0 primary ingress dst e := do
    let q ← readId k ingress
    emit1Prog H seed desc algo k e.nextId q
    let p ← readId k primary
    emit2Prog H seed desc algo k (e.nextId + 1) p e.nextId
    writeId k dst (e.nextId + 1)
    pure { e with nextId := e.nextId + 1 + 1 }
  first dim src dst := labelLayer1Prog H seed desc algo k (2 ^ dim) src dst
  flip dim l src dst :=
    labelLayer2Prog H seed desc algo k (2 ^ dim) (fun i => src + i) (fun i => src + (i ^^^ flipBit dim l)) dst
  merge dim primary ingress dst :=
    labelLayer2Prog H seed desc algo k (2 ^ dim) (fun i => primary + i) (fun i => ingress + i) dst
  copy dst src n := copyIds k dst src n

/-- The emitter labels, with this seed, descriptor and hash, and records no edges. -/
structure Emitter.Labels (e : Emitter α) : Prop where
  labels : e.labels.isSome = true
  nodes : e.nodes = none
  seed : e.seed = seed
  desc : e.desc = desc
  algo : e.algo = algo

def Emitter.locals (e : Emitter α) : Locals := ⟨e.nextId, e.arena, e.arenaOff⟩

variable (mem : Nat → α) (scratch : Nat → Scratch α) (undef : Nat → α)

/-- The shared memory while `e` emits. -/
def Emitter.shared (e : Emitter α) : (c : Loc) → Loc.Val α c :=
  Graph.shared mem (Function.update scratch k ⟨e.labels.getD undef, e.mem⟩)

variable {H seed desc algo k mem scratch undef}

theorem run_readId (a : Nat) (s : Scratch α) :
    (readId k a).run (Graph.shared mem (Function.update scratch k s)) =
      (s.ids a, Graph.shared mem (Function.update scratch k s)) := by
  show (((Function.update scratch k s) k).ids a, _) = _
  rw [Function.update_self]

theorem update_id (a id : Nat) (s : Scratch α) :
    Function.update (Graph.shared mem (Function.update scratch k s)) (.id k a) id =
      Graph.shared mem (Function.update scratch k { s with ids := Function.update s.ids a id }) := by
  funext c
  cases c with
  | block b => exact Function.update_of_ne (fun h => by cases h) _ _
  | label j b =>
    rw [Function.update_of_ne (fun h => by cases h)]
    by_cases hj : j = k
    · subst hj
      simp only [Graph.shared, Function.update_self]
    · simp only [Graph.shared, Function.update_of_ne hj]
  | id j b =>
    by_cases hj : j = k
    · subst hj
      by_cases hb : b = a
      · subst hb
        simp only [Graph.shared, Function.update_self]
      · have hne : Loc.id j b ≠ Loc.id j a := fun h => hb (Loc.id.inj h).2
        rw [Function.update_of_ne hne]
        simp only [Graph.shared, Function.update_self, Function.update_of_ne hb]
    · have hne : Loc.id j b ≠ Loc.id k a := fun h => hj (Loc.id.inj h).1
      rw [Function.update_of_ne hne]
      simp only [Graph.shared, Function.update_of_ne hj]

theorem run_writeId (a id : Nat) (s : Scratch α) :
    (writeId k a id).run (Graph.shared mem (Function.update scratch k s)) =
      ((), Graph.shared mem (Function.update scratch k { s with ids := Function.update s.ids a id })) :=
  congrArg (Prod.mk ()) (update_id a id s)

theorem run_emit1Prog (id pred0 : Nat) (s : Scratch α) :
    (emit1Prog H seed desc algo k id pred0).run (Graph.shared mem (Function.update scratch k s)) =
      ((), Graph.shared mem (Function.update scratch k { s with
        labels := Function.update s.labels id (H.label seed desc algo ⟨false, id, some (s.labels pred0), none⟩) })) := by
  rw [emit1Prog, run_bind, run_readLabel, run_writeLabel]

theorem run_emit2Prog (id pred0 pred1 : Nat) (s : Scratch α) :
    let p := if pred0 > pred1 then (pred1, pred0) else (pred0, pred1)
    (emit2Prog H seed desc algo k id pred0 pred1).run (Graph.shared mem (Function.update scratch k s)) =
      ((), Graph.shared mem (Function.update scratch k { s with
        labels := Function.update s.labels id (H.label seed desc algo
          ⟨false, id, some (s.labels p.1), some (s.labels p.2)⟩) })) := by
  rw [emit2Prog, run_bind, run_readLabel, run_bind, run_readLabel, run_writeLabel]

variable (k mem scratch) in
theorem run_readIds (n : Nat) (a : Nat → Nat) (s : Scratch α) :
    ∃ g, (readIds k n a).run (Graph.shared mem (Function.update scratch k s)) =
      (g, Graph.shared mem (Function.update scratch k s)) ∧ ∀ j < n, g j = s.ids (a j) := by
  unfold readIds
  induction n with
  | zero => exact ⟨_, rfl, fun _ hj => absurd hj (Nat.not_lt_zero _)⟩
  | succ n ih =>
    obtain ⟨g, hrun, hg⟩ := ih
    refine ⟨Function.update g n (s.ids (a n)), ?_, Mem.fill_step (v := fun j => s.ids (a j)) hg⟩
    rw [loopM, run_bind, hrun, run_bind, run_readId, run_pure]

theorem run_writeIds (dst n : Nat) (v : Nat → Nat) (s : Scratch α) :
    (writeIds k dst n v).run (Graph.shared mem (Function.update scratch k s)) =
      ((), Graph.shared mem (Function.update scratch k { s with ids := store s.ids dst n v })) := by
  unfold writeIds
  induction n with
  | zero =>
    rw [store_zero]
    rfl
  | succ n ih => rw [loopM, run_bind, ih, run_writeId, update_store]

theorem run_copyIds (dst src n : Nat) (s : Scratch α) :
    (copyIds k dst src n).run (Graph.shared mem (Function.update scratch k s)) =
      ((), Graph.shared mem (Function.update scratch k { s with ids := memcpy s.ids dst src n })) := by
  obtain ⟨g, hrun, hg⟩ := run_readIds k mem scratch n (fun j => src + j) s
  rw [copyIds, run_bind, hrun, run_writeIds, memcpy, store_congr s.ids dst n hg]

def BatchLocals.of (t : Batch α) : BatchLocals := ⟨t.e.nextId, t.ids, t.pred0s, t.pred1s⟩

variable (e : Emitter α)

variable (k mem scratch undef) in
theorem run_entries1 (src dst i n : Nat) :
    let t := loop n (Batch.entry1 src dst i) (Batch.init e)
    (loopM n (entry1Prog k src dst i) (.init e.nextId)).run (e.shared k mem scratch undef) =
      (.of t, t.e.shared k mem scratch undef) := by
  induction n with
  | zero => rfl
  | succ n ih =>
    dsimp only at ih ⊢
    rw [loopM, run_bind, ih, loop_succ, entry1Prog, Emitter.shared, run_bind, run_writeId, run_bind, run_readId, run_pure]
    rfl

variable (k mem scratch undef) in
theorem run_entries2 (a0 a1 : Nat → Nat) (dst i n : Nat) :
    let t := loop n (Batch.entry2 a0 a1 dst i) (Batch.init e)
    (loopM n (entry2Prog k a0 a1 dst i) (.init e.nextId)).run (e.shared k mem scratch undef) =
      (.of t, t.e.shared k mem scratch undef) := by
  induction n with
  | zero => rfl
  | succ n ih =>
    dsimp only at ih ⊢
    rw [loopM, run_bind, ih, loop_succ, entry2Prog, Emitter.shared, run_bind, run_writeId, run_bind, run_readId, run_bind,
      run_readId, run_pure]
    rfl

variable {e}

theorem run_labelNodeManyProg (he : e.Labels seed desc algo) (n : Nat) (ids pred0s : Nat → Nat)
    (pred1s : Option (Nat → Nat)) (firstId : Nat) :
    (labelNodeManyProg H seed desc algo k n ids pred0s pred1s firstId).run (e.shared k mem scratch undef) =
      ((), (e.labelNodeMany H n ids pred0s pred1s firstId).shared k mem scratch undef) := by
  obtain ⟨hlabels, -, rfl, rfl, rfl⟩ := he
  obtain ⟨L, hL⟩ := Option.isSome_iff_exists.mp hlabels
  obtain ⟨p0, hrun0, hp0⟩ := run_readLabels mem scratch k e.seed n pred0s
    ⟨e.labels.getD undef, e.mem⟩
  obtain ⟨p1, hrun1, hp1⟩ := run_readOptLabels mem scratch k e.seed n pred1s
    ⟨e.labels.getD undef, e.mem⟩
  rw [labelNodeManyProg, Emitter.shared, run_bind, hrun0, run_bind, hrun1, run_writeLabels, Emitter.shared,
    Emitter.labelNodeMany]
  dsimp only at hp0 hp1 ⊢
  rw [hL, Option.getD_some] at hp0 hp1
  rw [hL, Option.map_some, Option.getD_some, Option.getD_some]
  refine congrArg (fun L => ((), Graph.shared mem (Function.update scratch k ⟨L, e.mem⟩))) (store_congr L firstId n ?_)
  intro j hj
  refine congrArg (H.label e.seed e.desc e.algo) ?_
  have hj1 := hp1 j hj
  unfold batchCall
  rw [Option.bind_some, Option.bind_some]
  dsimp only
  rw [hp0 j hj]
  cases pred1s with
  | none =>
    cases p1 with
    | none => rfl
    | some p1 => cases hj1
  | some pred1s =>
    cases p1 with
    | none => cases hj1
    | some p1 =>
      simp only [Option.map_some, Option.bind_some, Option.some.injEq] at hj1 ⊢
      rw [hj1]

theorem labels_entries (entry : Nat → Batch α → Batch α)
    (hentry : ∀ j t, t.e.Labels seed desc algo → (entry j t).e.Labels seed desc algo ∧
      (entry j t).e.arena = t.e.arena ∧ (entry j t).e.arenaOff = t.e.arenaOff)
    (he : e.Labels seed desc algo) (n : Nat) :
    (loop n entry (Batch.init e)).e.Labels seed desc algo ∧ (loop n entry (Batch.init e)).e.arena = e.arena ∧
      (loop n entry (Batch.init e)).e.arenaOff = e.arenaOff :=
  loop_inv (fun _ (t : Batch α) => t.e.Labels seed desc algo ∧ t.e.arena = e.arena ∧ t.e.arenaOff = e.arenaOff)
    ⟨he, rfl, rfl⟩ fun j t _ ht =>
      ⟨(hentry j t ht.1).1, (hentry j t ht.1).2.1.trans ht.2.1, (hentry j t ht.1).2.2.trans ht.2.2⟩

theorem labels_labelNodeMany (he : e.Labels seed desc algo) (n : Nat) (ids pred0s : Nat → Nat)
    (pred1s : Option (Nat → Nat)) (firstId : Nat) :
    (e.labelNodeMany H n ids pred0s pred1s firstId).Labels seed desc algo :=
  ⟨Option.isSome_map.trans he.labels, he.nodes, he.seed, he.desc, he.algo⟩

theorem labelBatch1Prog_runs (src dst i b : Nat) (he : e.Labels seed desc algo) :
    Runs (Emitter.Labels seed desc algo) Emitter.locals (Emitter.shared k mem scratch undef)
      (labelBatch1Prog H seed desc algo k src dst i b e.locals) e (labelBatch1 H src dst i b e) := by
  have hentries := run_entries1 k mem scratch undef e src dst i b
  obtain ⟨hlabels, harena, hoff⟩ := labels_entries (Batch.entry1 src dst i)
    (fun _ _ ht => ⟨⟨ht.labels, ht.nodes, ht.seed, ht.desc, ht.algo⟩, rfl, rfl⟩) he b
  unfold labelBatch1
  dsimp only at hentries ⊢
  generalize loop b (Batch.entry1 src dst i) (Batch.init e) = t at *
  refine ⟨?_, labels_labelNodeMany hlabels _ _ _ _ _⟩
  have hlocals : (t.e.labelNodeMany H b t.ids t.pred0s none e.nextId).locals = { e.locals with nextId := t.e.nextId } := by
    rw [Emitter.locals, Emitter.locals, ← harena, ← hoff]
    rfl
  rw [hlocals, labelBatch1Prog, run_bind, show e.locals.nextId = e.nextId from rfl, hentries, run_bind]
  dsimp only [BatchLocals.of]
  rw [run_labelNodeManyProg hlabels, run_pure]

theorem labelBatch2Prog_runs (a0 a1 : Nat → Nat) (dst i b : Nat) (he : e.Labels seed desc algo) :
    Runs (Emitter.Labels seed desc algo) Emitter.locals (Emitter.shared k mem scratch undef)
      (labelBatch2Prog H seed desc algo k a0 a1 dst i b e.locals) e (labelBatch2 H a0 a1 dst i b e) := by
  have hentries := run_entries2 k mem scratch undef e a0 a1 dst i b
  obtain ⟨hlabels, harena, hoff⟩ := labels_entries (Batch.entry2 a0 a1 dst i)
    (fun _ _ ht => ⟨⟨ht.labels, ht.nodes, ht.seed, ht.desc, ht.algo⟩, rfl, rfl⟩) he b
  unfold labelBatch2
  dsimp only at hentries ⊢
  generalize loop b (Batch.entry2 a0 a1 dst i) (Batch.init e) = t at *
  refine ⟨?_, labels_labelNodeMany hlabels _ _ _ _ _⟩
  have hlocals : (t.e.labelNodeMany H b t.ids t.pred0s (some t.pred1s) e.nextId).locals =
      { e.locals with nextId := t.e.nextId } := by
    rw [Emitter.locals, Emitter.locals, ← harena, ← hoff]
    rfl
  rw [hlocals, labelBatch2Prog, run_bind, show e.locals.nextId = e.nextId from rfl, hentries, run_bind]
  dsimp only [BatchLocals.of]
  rw [run_labelNodeManyProg hlabels, run_pure]

variable (H seed desc algo k mem scratch undef) in
/-- **The programs of the `emit_*` functions do what they do.** -/
theorem emitAccesses_computes :
    Computes (emitAccesses H seed desc algo k) (emitScheme H) (Emitter.Labels seed desc algo) Emitter.locals
      (Emitter.shared k mem scratch undef) where
  top _ := rfl
  off _ := rfl
  alloc _ _ := ⟨rfl, rfl, fun he => ⟨he.labels, he.nodes, he.seed, he.desc, he.algo⟩⟩
  release _ _ _ := ⟨rfl, fun he => ⟨he.labels, he.nodes, he.seed, he.desc, he.algo⟩⟩
  kept _ _ := rfl
  copy dst src n f off e := run_copyIds dst src n ⟨e.labels.getD undef, f⟩
  source dst e he := by
    obtain ⟨hlabels, hnodes, rfl, rfl, rfl⟩ := he
    obtain ⟨L, hL⟩ := Option.isSome_iff_exists.mp hlabels
    refine ⟨?_, ⟨Option.isSome_map.trans hlabels, by simp [emitScheme, emitSource, Emitter.recordNode, hnodes,
      Emitter.labelNode, Emitter.takeId], rfl, rfl, rfl⟩⟩
    dsimp only [emitAccesses]
    rw [run_bind, Emitter.shared, run_writeLabel, run_bind, run_writeId, run_pure]
    simp only [Emitter.shared, emitScheme, emitSource, Emitter.takeId, Emitter.labelNode, Emitter.recordNode, hL,
      Option.map_some, Option.getD_some]
    rfl
  one src dst e he := by
    obtain ⟨hlabels, hnodes, rfl, rfl, rfl⟩ := he
    obtain ⟨L, hL⟩ := Option.isSome_iff_exists.mp hlabels
    refine ⟨?_, ⟨Option.isSome_map.trans hlabels, by simp [emitScheme, emit1, Emitter.recordNode, hnodes,
      Emitter.labelNode, Emitter.takeId], rfl, rfl, rfl⟩⟩
    dsimp only [emitAccesses]
    rw [run_bind, Emitter.shared, run_readId, run_bind, run_emit1Prog, run_bind, run_writeId, run_pure]
    simp only [Emitter.shared, emitScheme, emit1, Emitter.takeId, Emitter.labelNode, Emitter.recordNode, hL,
      Option.map_some, Option.map_none, Option.getD_some]
    rfl
  merge0 primary ingress dst e he := by
    obtain ⟨hlabels, hnodes, rfl, rfl, rfl⟩ := he
    obtain ⟨L, hL⟩ := Option.isSome_iff_exists.mp hlabels
    refine ⟨?_, ⟨Option.isSome_map.trans (Option.isSome_map.trans hlabels), by simp [emitScheme, emit1, emit2,
      Emitter.recordNode, hnodes, Emitter.labelNode, Emitter.takeId], rfl, rfl, rfl⟩⟩
    dsimp only [emitAccesses]
    rw [run_bind, Emitter.shared, run_readId, run_bind, run_emit1Prog, run_bind, run_readId, run_bind, run_emit2Prog,
      run_bind, run_writeId, run_pure]
    simp only [Emitter.shared, emitScheme, emit1, emit2, Emitter.takeId, Emitter.labelNode, Emitter.recordNode,
      hL, Option.map_some, Option.map_none, Option.getD_some]
    rfl
  first dim src dst e he := by
    rw [show (emitScheme H).first dim src dst e = labelLayer1 H (2 ^ dim) src dst e from if_pos he.labels]
    exact Runs.batchLoop (fun _ _ _ he => labelBatch1Prog_runs src dst _ _ he) 0 he
  flip dim l src dst e he := by
    rw [show (emitScheme H).flip dim l src dst e = labelLayer2 H (2 ^ dim) _ _ dst e from if_pos he.labels]
    exact Runs.batchLoop (fun _ _ _ he => labelBatch2Prog_runs _ _ dst _ _ he) 0 he
  merge dim primary ingress dst e he := by
    rw [show (emitScheme H).merge dim primary ingress dst e = labelLayer2 H (2 ^ dim) _ _ dst e from if_pos he.labels]
    exact Runs.batchLoop (fun _ _ _ he => labelBatch2Prog_runs _ _ dst _ _ he) 0 he

variable (H seed desc algo k) in
theorem emitAccesses_within : (emitAccesses H seed desc algo k).Within (Loc.InScratch k) := by
  have hlabel : ∀ a, Loc.InScratch k (.label k a) := fun _ => rfl
  have hid : ∀ a, Loc.InScratch k (.id k a) := fun _ => rfl
  have hread : ∀ a, (readId (α := α) k a).Within (Loc.InScratch k) := fun a => within_readCell (hid a)
  have hwrite : ∀ a id, (writeId (α := α) k a id).Within (Loc.InScratch k) := fun a _ => within_writeCell _ (hid a)
  have hreadLabel : ∀ a, (readLabel (α := α) k a).Within (Loc.InScratch k) := fun a => within_readCell (hlabel a)
  have hwriteLabel : ∀ a v, (writeLabel (α := α) k a v).Within (Loc.InScratch k) :=
    fun a _ => within_writeCell _ (hlabel a)
  have hmany : ∀ n ids p0 p1 first, (labelNodeManyProg H seed desc algo k n ids p0 p1 first).Within (Loc.InScratch k) :=
    fun n ids p0 p1 first => (within_readLabels seed n p0 hlabel).bind fun _ =>
      (within_readOptLabels seed n p1 hlabel).bind fun _ => within_writeLabels first n _ hlabel
  have hemit1 : ∀ id p, (emit1Prog H seed desc algo k id p).Within (Loc.InScratch k) := fun id p =>
    (hreadLabel p).bind fun _ => hwriteLabel id _
  have hemit2 : ∀ id p q, (emit2Prog H seed desc algo k id p q).Within (Loc.InScratch k) := fun id p q =>
    (hreadLabel _).bind fun _ => (hreadLabel _).bind fun _ => hwriteLabel id _
  have hlayer2 : ∀ w a0 a1 dst e, (labelLayer2Prog H seed desc algo k w a0 a1 dst e).Within (Loc.InScratch k) :=
    fun w a0 a1 dst e => within_batchLoopM (fun i b e =>
      (within_loopM (fun j _ t => (hwrite _ _).bind fun _ => (hread _).bind fun _ => (hread _).bind fun _ =>
        within_pure _) _).bind fun _ => (hmany _ _ _ _ _).bind fun _ => within_pure _) 0 e
  refine ⟨fun dst e => ?_, fun src dst e => ?_, fun p q dst e => ?_, fun dim src dst e => ?_,
    fun dim l src dst e => hlayer2 _ _ _ _ _, fun dim p q dst e => hlayer2 _ _ _ _ _, fun dst src n => ?_⟩
  · exact (hwriteLabel _ _).bind fun _ => (hwrite _ _).bind fun _ => within_pure _
  · exact (hread _).bind fun _ => (hemit1 _ _).bind fun _ => (hwrite _ _).bind fun _ => within_pure _
  · exact (hread _).bind fun _ => (hemit1 _ _).bind fun _ => (hread _).bind fun _ => (hemit2 _ _ _).bind fun _ =>
      (hwrite _ _).bind fun _ => within_pure _
  · exact within_batchLoopM (fun i b e => (within_loopM (fun j _ t => (hwrite _ _).bind fun _ => (hread _).bind fun _ =>
      within_pure _) _).bind fun _ => (hmany _ _ _ _ _).bind fun _ => within_pure _) 0 e
  · exact (within_loopM (fun j _ f => (hread _).bind fun _ => within_pure _) _).bind fun _ =>
      within_loopM (fun j _ _ => hwrite _ _) _

end Emit

/-! ## `do_label` -/

section DoLabel
variable {α : Type} (H : PoseHash α) (seed : α) (m out k : Nat) (algo : PoseHashAlgo)

/-- The labels of the nodes whose ids are at `src 0, ..., src (n - 1)` become the blocks `dst 0, ..., dst (n - 1)`. -/
def outputNodes (k n : Nat) (dst src : Nat → Nat) : Prog (Loc.Val α) Unit :=
  loopM n (fun i _ => do
    let id ← readId k (src i)
    let v ← readLabel k id
    writeBlock (dst i) v) ()

/-- `do_label` in scratch buffer `k`, for the output blocks at `out`. -/
def doLabelProg : Prog (Loc.Val α) Int :=
  if m = 0 ∨ m > poseGraphMaxM then pure (-1)
  else do
    let n := poseGraphParameterN m
    let level := n + 1
    let halfW := 2 ^ n
    let retained := m - halfW
    let leftTotal := standaloneNodeCount level
    let arenaElems := poseArenaFactor * halfW
    let leftBase := 0
    let rightBase := leftBase + 2 * halfW
    let arenaLeft := rightBase + 2 * halfW
    let arenaRight := arenaLeft + arenaElems
    let A := emitAccesses H seed (H.graphDescriptor m n) algo k
    let _ ← A.standalone ⟨0, arenaLeft, 0⟩ level leftBase
    let _ ← A.standalone ⟨leftTotal, arenaRight, 0⟩ level rightBase
    outputNodes k halfW (fun i => out + i) fun i => leftBase + halfW + i
    outputNodes k retained (fun i => out + (halfW + i)) fun i => rightBase + halfW + i
    pure 0

variable {k} {mem : Nat → α} {scratch : Nat → Scratch α}

theorem run_outputNodes (n : Nat) (dst src : Nat → Nat) (s : Scratch α) :
    (outputNodes k n dst src).run (shared mem (Function.update scratch k s)) =
      ((), shared (loop n (fun i mem => Function.update mem (dst i) (s.labels (s.ids (src i)))) mem)
        (Function.update scratch k s)) := by
  unfold outputNodes
  induction n with
  | zero => rfl
  | succ n ih =>
    rw [loopM, run_bind, ih, run_bind, run_readId, run_bind, run_readLabel]
    exact congrArg (Prod.mk ()) (update_block _ _)

variable (k mem scratch) in
/-- **The program of `do_label` does what it does.** -/
theorem doLabelProg_run :
    let r := doLabel H seed m mem out (scratch k) algo
    (doLabelProg H seed m out k algo).run (shared mem scratch) =
      (r.rc, shared r.mem (Function.update scratch k r.scratch)) := by
  intro r
  obtain ⟨r', hr⟩ : ∃ r', r' = r := ⟨_, rfl⟩
  rw [← hr]
  unfold doLabelProg
  split
  · rename_i hm
    have hr' : r' = ⟨-1, mem, scratch k, []⟩ := hr.trans (if_pos hm)
    rw [hr', Function.update_eq_self]
    rfl
  · rename_i hm
    obtain ⟨n, hn⟩ : ∃ n, n = poseGraphParameterN m := ⟨_, rfl⟩
    obtain ⟨arena, harena⟩ : ∃ arena, arena = 0 + 2 * 2 ^ n + 2 * 2 ^ n := ⟨_, rfl⟩
    obtain ⟨e, he⟩ : ∃ e, e = labelEmitter H seed m (scratch k) arena (poseArenaFactor * 2 ^ n) algo := ⟨_, rfl⟩
    have hr' := hr.trans (if_neg hm)
    have hok : e.Labels seed (H.graphDescriptor m n) algo := by
      rw [he, hn]
      exact ⟨rfl, rfl, rfl, rfl, rfl⟩
    have hC := emitAccesses_computes H seed (H.graphDescriptor m n) algo k mem scratch (scratch k).labels
    have hstart : shared mem scratch = e.shared k mem scratch (scratch k).labels := by
      rw [he, Emitter.shared]
      exact congrArg (shared mem) (Function.update_eq_self k scratch).symm
    have h1 := hC.standalone (n + 1) 0 hok
    obtain ⟨e1, he1⟩ : ∃ e1, e1 = emitStandalone H e (n + 1) 0 := ⟨_, rfl⟩
    rw [← emitStandalone_eq, ← he1] at h1
    obtain ⟨e2, he2⟩ : ∃ e2, e2 = e1.restart (standaloneNodeCount (n + 1)) (arena + poseArenaFactor * 2 ^ n)
      (poseArenaFactor * 2 ^ n) := ⟨_, rfl⟩
    have hok2 : e2.Labels seed (H.graphDescriptor m n) algo := by
      rw [he2]
      exact ⟨h1.ok.labels, h1.ok.nodes, h1.ok.seed, h1.ok.desc, h1.ok.algo⟩
    have h2 := hC.standalone (n + 1) (0 + 2 * 2 ^ n) hok2
    rw [← emitStandalone_eq] at h2
    have hlocals : e.locals = ⟨0, arena, 0⟩ := by
      rw [he]
      rfl
    have hlocals2 : e2.locals = ⟨standaloneNodeCount (n + 1), arena + poseArenaFactor * 2 ^ n, 0⟩ := by
      rw [he2]
      rfl
    have hshared2 : e2.shared k mem scratch (scratch k).labels = e1.shared k mem scratch (scratch k).labels := by
      rw [he2]
      rfl
    dsimp only at hr' ⊢
    rw [← hn] at hr' ⊢
    rw [← harena] at hr' ⊢
    rw [hr', ← he, ← he1, ← he2, run_bind, hstart, ← hlocals, h1.run, run_bind]
    dsimp only
    rw [← hlocals2, ← hshared2, h2.run, run_bind]
    dsimp only [Emitter.shared]
    rw [run_outputNodes, run_bind, run_outputNodes, run_pure]

theorem doLabelProg_within :
    (doLabelProg H seed m out k algo).Within fun c =>
      c.InScratch k ∨ ∃ a, c = .block a ∧ out ≤ a ∧ a < out + m := by
  have houtput : ∀ n (dst src : Nat → Nat), (∀ i < n, out ≤ dst i ∧ dst i < out + m) →
      (outputNodes (α := α) k n dst src).Within fun c =>
        c.InScratch k ∨ ∃ a, c = .block a ∧ out ≤ a ∧ a < out + m := fun n dst src h =>
    within_loopM (fun i hi _ => (within_readCell (.inl rfl)).bind fun _ => (within_readCell (.inl rfl)).bind fun _ =>
      within_writeCell _ (.inr ⟨dst i, rfl, h i hi⟩)) ()
  unfold doLabelProg
  split
  · exact within_pure _
  · rename_i hm
    have hle := two_pow_poseGraphParameterN_le (m := m) (by omega)
    have hpos := Nat.two_pow_pos (poseGraphParameterN m)
    have hA := emitAccesses_within H seed (H.graphDescriptor m (poseGraphParameterN m)) algo k
    refine ((hA.standalone _ _ _).mono fun _ => .inl).bind fun _ => ((hA.standalone _ _ _).mono fun _ => .inl).bind fun _ => ?_
    refine (houtput _ _ _ fun i hi => ?_).bind fun _ => (houtput _ _ _ fun i hi => ?_).bind fun _ => within_pure _ <;> omega

end DoLabel

end PoseDB.Graph
