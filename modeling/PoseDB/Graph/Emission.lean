import PoseDB.Graph.Layer
import PoseDB.Graph.Scheme

/-!
# The id-indexed emitter follows the tables

`emitScheme` is the recursion of `emit_standalone` over the id arrays: its operations take the batched or the
sequential path, and both follow any table (`emitFollows`). So `emitStandalone` emits the nodes of `standalonePreds`
and reports `standaloneBase` (`emitStandalone_emits`), with labels or with edges.
-/

set_option autoImplicit false

namespace PoseDB.Graph
open Loops Mem

variable {α : Type} {H : PoseHash α}

/-! ## The two paths -/

section Paths
variable {e : Emitter α} {w src dst : Nat} {a0 a1 : Nat → Nat}

theorem isSome_labelBatch1 (i b : Nat) : (labelBatch1 H src dst i b e).labels.isSome = e.labels.isSome := by
  have h : (loop b (Batch.entry1 src dst i) (Batch.init e)).e.labels = e.labels :=
    loop_inv (fun _ (t : Batch α) => t.e.labels = e.labels) rfl fun _ _ _ ht => ht
  rw [labelBatch1, Emitter.labelNodeMany, Option.isSome_map, h]

theorem isSome_labelBatch2 (i b : Nat) : (labelBatch2 H a0 a1 dst i b e).labels.isSome = e.labels.isSome := by
  have h : (loop b (Batch.entry2 a0 a1 dst i) (Batch.init e)).e.labels = e.labels :=
    loop_inv (fun _ (t : Batch α) => t.e.labels = e.labels) rfl fun _ _ _ ht => ht
  rw [labelBatch2, Emitter.labelNodeMany, Option.isSome_map, h]

theorem isSome_labelLayer1 : (labelLayer1 H w src dst e).labels.isSome = e.labels.isSome :=
  batchLoop_inv (by decide) (fun _ (t : Emitter α) => t.labels.isSome = e.labels.isSome)
    (fun i b _ _ _ _ ht => (isSome_labelBatch1 i b).trans ht) (Nat.zero_le w) rfl

theorem isSome_labelLayer2 : (labelLayer2 H w a0 a1 dst e).labels.isSome = e.labels.isSome :=
  batchLoop_inv (by decide) (fun _ (t : Emitter α) => t.labels.isSome = e.labels.isSome)
    (fun i b _ _ _ _ ht => (isSome_labelBatch2 i b).trans ht) (Nat.zero_le w) rfl

theorem isSome_emit (k : EmitCore α) (ps : List Nat) : (k.emit H ps).labels.isSome = k.labels.isSome :=
  Option.isSome_map

theorem isSome_edgeLayer1 : (edgeLayer1 H w src dst e).labels.isSome = e.labels.isSome :=
  loop_inv (fun _ (t : Emitter α) => t.labels.isSome = e.labels.isSome) rfl fun i t _ ht => by
    simp only [emit1_eq]
    exact (isSome_emit t.core _).trans ht

theorem isSome_edgeLayer2 : (edgeLayer2 H w a0 a1 dst e).labels.isSome = e.labels.isSome :=
  loop_inv (fun _ (t : Emitter α) => t.labels.isSome = e.labels.isSome) rfl fun i t _ ht => by
    simp only [emit2_eq]
    exact (isSome_emit t.core _).trans ht

end Paths

variable (H) in
/-- A layer of one-predecessor nodes on the path of the emitter's mode. -/
def layer1 (w src dst : Nat) (e : Emitter α) : Emitter α :=
  if e.labels.isSome then labelLayer1 H w src dst e else edgeLayer1 H w src dst e

variable (H) in
/-- A layer of two-predecessor nodes on the path of the emitter's mode. -/
def layer2 (w : Nat) (a0 a1 : Nat → Nat) (dst : Nat) (e : Emitter α) : Emitter α :=
  if e.labels.isSome then labelLayer2 H w a0 a1 dst e else edgeLayer2 H w a0 a1 dst e

variable (H) in
/-- The recursion of the `emit_*` functions. -/
def emitScheme : Scheme (Emitter α) Nat where
  get e := ⟨e.arena, e.arenaCap, e.arenaOff, e.arenaHi, e.mem⟩
  set e a := { e with arena := a.base, arenaCap := a.cap, arenaOff := a.off, arenaHi := a.hi, mem := a.mem }
  source dst e :=
    let (id, e) := emitSource H e
    { e with mem := Function.update e.mem dst id }
  one src dst e :=
    let (id, e) := emit1 H e (e.mem src)
    { e with mem := Function.update e.mem dst id }
  merge0 primary ingress dst e :=
    let (ig, e) := emit1 H e (e.mem ingress)
    let (out, e) := emit2 H e (e.mem primary) ig
    { e with mem := Function.update e.mem dst out }
  first dim src dst := layer1 H (2 ^ dim) src dst
  flip dim l src dst := layer2 H (2 ^ dim) (fun i => src + i) (fun i => src + (i ^^^ flipBit dim l)) dst
  merge dim primary ingress dst := layer2 H (2 ^ dim) (fun i => primary + i) (fun i => ingress + i) dst

/-! ### The source follows the recursion -/

variable (H) in
/-- The layer functions of one path: the ones that the emitters of its mode use. -/
structure IsPath (b : Bool) (w : Nat) (l1 : Nat → Nat → Emitter α → Emitter α)
    (l2 : (a0 a1 : Nat → Nat) → Nat → Emitter α → Emitter α) : Prop where
  one : ∀ src dst e, e.labels.isSome = b → l1 src dst e = layer1 H w src dst e ∧ (l1 src dst e).labels.isSome = b
  two : ∀ a0 a1 dst e, e.labels.isSome = b →
    l2 a0 a1 dst e = layer2 H w a0 a1 dst e ∧ (l2 a0 a1 dst e).labels.isSome = b

theorem labelPath (w : Nat) : IsPath H true w (labelLayer1 H w) (labelLayer2 H w) :=
  ⟨fun _ _ _ he => ⟨(if_pos he).symm, isSome_labelLayer1.trans he⟩,
    fun _ _ _ _ he => ⟨(if_pos he).symm, isSome_labelLayer2.trans he⟩⟩

theorem edgePath (w : Nat) : IsPath H false w (edgeLayer1 H w) (edgeLayer2 H w) :=
  ⟨fun _ _ _ he => ⟨(if_neg (by rw [he]; decide)).symm, isSome_edgeLayer1.trans he⟩,
    fun _ _ _ _ he => ⟨(if_neg (by rw [he]; decide)).symm, isSome_edgeLayer2.trans he⟩⟩

section Equations
variable {b : Bool} {dim n prev curr : Nat} {l1 : Nat → Nat → Emitter α → Emitter α}
  {l2 : (a0 a1 : Nat → Nat) → Nat → Emitter α → Emitter α} {e : Emitter α}

theorem IsPath.flips (hpath : IsPath H b (2 ^ dim) l1 l2) (he : e.labels.isSome = b) :
    loop n (fun l (s : Emitter α × Nat × Nat) =>
        (l2 (fun i => s.2.1 + i) (fun i => s.2.1 + (i ^^^ flipBit dim (l + 1))) s.2.2 s.1, s.2.2, s.2.1))
        (e, prev, curr) = (emitScheme H).flips dim n prev curr e ∧
      ((emitScheme H).flips dim n prev curr e).1.labels.isSome = b := by
  have heq : loop n (fun l (s : Emitter α × Nat × Nat) =>
      (l2 (fun i => s.2.1 + i) (fun i => s.2.1 + (i ^^^ flipBit dim (l + 1))) s.2.2 s.1, s.2.2, s.2.1))
      (e, prev, curr) = (emitScheme H).flips dim n prev curr e :=
    loop_congr_inv (fun t => t.1.labels.isSome = b) he fun l t ht =>
      ⟨congrArg (·, t.2.2, t.2.1) (hpath.two _ _ t.2.2 t.1 ht).1, (hpath.two _ _ _ _ ht).2⟩
  refine ⟨heq, ?_⟩
  rw [← heq]
  exact loop_inv (fun _ (t : Emitter α × Nat × Nat) => t.1.labels.isSome = b) he fun _ _ _ ht =>
    (hpath.two _ _ _ _ ht).2

theorem IsPath.butterfly (hpath : IsPath H b (2 ^ dim) l1 l2) (he : e.labels.isSome = b) (inputs prev curr : Nat) :
    loop dim (fun l (s : Emitter α × Nat × Nat) =>
        (l2 (fun i => s.2.1 + i) (fun i => s.2.1 + (i ^^^ flipBit dim (l + 1))) s.2.2 s.1, s.2.2, s.2.1))
        (l1 inputs prev e, prev, curr) = (emitScheme H).butterfly dim inputs prev curr e ∧
      ((emitScheme H).butterfly dim inputs prev curr e).1.labels.isSome = b := by
  obtain ⟨heq, hsome⟩ := hpath.one inputs prev e he
  have hfirst : (emitScheme H).first dim inputs prev e = l1 inputs prev e := heq.symm
  rw [Scheme.butterfly, hfirst]
  exact hpath.flips hsome

theorem connectorLayers_eq (e : Emitter α) (dim inputs prev curr : Nat) :
    connectorLayers H e dim inputs prev curr = (emitScheme H).butterfly dim inputs prev curr e := by
  have hbit : ∀ l, dim - 1 - l = dim - (l + 1) := fun l => by omega
  cases hb : e.labels.isSome with
  | true =>
    simp only [connectorLayers, hb, if_true, hbit]
    exact ((labelPath (2 ^ dim)).butterfly hb inputs prev curr).1
  | false =>
    simp only [connectorLayers, hb, hbit]
    exact ((edgePath (2 ^ dim)).butterfly hb inputs prev curr).1

theorem emitConnector_eq (e : Emitter α) (dim inputs outputs : Nat) :
    emitConnector H e dim inputs outputs = (emitScheme H).connector e dim inputs outputs := by
  have hbump : (e.arenaAlloc (2 ^ dim)).2.arenaAlloc (2 ^ dim) =
      (e.top + 2 ^ dim, (emitScheme H).alloc (2 ^ dim + 2 ^ dim) e) := by
    simp only [Emitter.arenaAlloc, Emitter.top, Scheme.alloc, emitScheme, Arena.bump, Prod.mk.injEq, Emitter.mk.injEq,
      and_true, true_and]
    have := Nat.two_pow_pos dim
    omega
  simp only [emitConnector, hbump, connectorLayers_eq]
  rfl

/-- All layers of the center butterfly but the last one ping-pong; the last one goes to `outputs`. -/
theorem IsPath.center {d outputs : Nat} (hpath : IsPath H b (2 ^ (d + 1)) l1 l2) (he : e.labels.isSome = b) :
    centerLayers l2 (d + 1) outputs prev curr e =
      let r := (emitScheme H).flips (d + 1) d prev curr e
      (emitScheme H).flip (d + 1) (d + 1) r.2.1 outputs r.1 := by
  rw [centerLayers, loop_succ, (loop_congr ?pass).trans (hpath.flips he).1]
  case pass =>
    intro l t hl
    simp only [if_neg (show ¬ l + 1 = d + 1 by omega), if_pos (show l + 1 < d + 1 by omega)]
    rfl
  simp only [if_true, if_neg (Nat.lt_irrefl _)]
  exact (hpath.two _ _ _ _ (hpath.flips he).2).1

theorem IsPath.merged {primary ingress outputs ingPrev ingCurr : Nat} (hpath : IsPath H b (2 ^ dim) l1 l2)
    (he : e.labels.isSome = b) (hdim : dim ≠ 0) :
    (let (e, ingPrev, _) := ingressLayers l2 dim ingPrev ingCurr (l1 ingress ingPrev e)
      let e := l2 (fun i => primary + i) (fun i => ingPrev + i) prev e
      centerLayers l2 dim outputs prev curr e) =
      let r := (emitScheme H).butterfly dim ingress ingPrev ingCurr e
      (emitScheme H).center dim primary r.2.1 outputs prev curr r.1 := by
  obtain ⟨d, rfl⟩ : ∃ d, dim = d + 1 := ⟨dim - 1, by omega⟩
  obtain ⟨hing, hsome⟩ := hpath.butterfly he ingress ingPrev ingCurr
  have hing' : ingressLayers l2 (d + 1) ingPrev ingCurr (l1 ingress ingPrev e) =
      (emitScheme H).butterfly (d + 1) ingress ingPrev ingCurr e := hing
  simp only [hing']
  obtain ⟨hmerge, hsome'⟩ := hpath.two (fun i => primary + i)
    (fun i => ((emitScheme H).butterfly (d + 1) ingress ingPrev ingCurr e).2.1 + i) prev _ hsome
  rw [hpath.center hsome', hmerge]
  rfl

theorem mergedLayers_eq (e : Emitter α) {dim : Nat} (primary ingress outputs ingPrev ingCurr ctrPrev ctrCurr : Nat)
    (hdim : dim ≠ 0) :
    mergedLayers H e dim primary ingress outputs ingPrev ingCurr ctrPrev ctrCurr =
      let r := (emitScheme H).butterfly dim ingress ingPrev ingCurr e
      (emitScheme H).center dim primary r.2.1 outputs ctrPrev ctrCurr r.1 := by
  cases hb : e.labels.isSome with
  | true =>
    simp only [mergedLayers, hb, if_true]
    exact (labelPath (2 ^ dim)).merged hb hdim
  | false =>
    simp only [mergedLayers, hb]
    exact (edgePath (2 ^ dim)).merged hb hdim

theorem emitMergedCenterIngress_eq (e : Emitter α) (dim primary ingress outputs : Nat) :
    emitMergedCenterIngress H e dim primary ingress outputs =
      (emitScheme H).merged e dim primary ingress outputs := by
  by_cases hdim : dim = 0
  · rw [emitMergedCenterIngress, Scheme.merged, if_pos hdim, if_pos hdim]
    rfl
  · have hbump : ((((e.arenaAlloc (2 ^ dim)).2.arenaAlloc (2 ^ dim)).2.arenaAlloc (2 ^ dim)).2.arenaAlloc
        (2 ^ dim)).2 = (emitScheme H).alloc (2 ^ dim + 2 ^ dim + 2 ^ dim + 2 ^ dim) e := by
      simp only [Emitter.arenaAlloc, Scheme.alloc, emitScheme, Arena.bump, Emitter.mk.injEq, and_true, true_and]
      have := Nat.two_pow_pos dim
      omega
    have htop : ∀ t : Emitter α, (t.arenaAlloc (2 ^ dim)).1 = t.top ∧ (t.arenaAlloc (2 ^ dim)).2.top = t.top + 2 ^ dim :=
      fun t => ⟨rfl, (Nat.add_assoc _ _ _).symm⟩
    simp only [emitMergedCenterIngress, Scheme.merged, if_neg hdim, mergedLayers_eq _ _ _ _ _ _ _ _ hdim, hbump,
      (htop _).1, (htop _).2, Nat.add_assoc]
    rfl

theorem alloc3_eq (e : Emitter α) {w : Nat} (hw : 0 < w) :
    (((e.arenaAlloc w).2.arenaAlloc w).2.arenaAlloc w).2 = (emitScheme H).alloc (w + w + w) e := by
  simp only [Emitter.arenaAlloc, Scheme.alloc, emitScheme, Arena.bump, Emitter.mk.injEq, and_true, true_and]
  omega

theorem emitConnected_eq (e : Emitter α) (k inputs out : Nat) :
    emitConnected H e k (2 ^ k) inputs out = (emitScheme H).connected e k inputs out := by
  induction k generalizing e inputs out with
  | zero => rfl
  | succ k ih =>
    have hhalf : 2 ^ (k + 1) / 2 = 2 ^ k := by rw [pow_succ]; omega
    have htop : ∀ t : Emitter α, (t.arenaAlloc (2 ^ k)).1 = t.top ∧ (t.arenaAlloc (2 ^ k)).2.top = t.top + 2 ^ k :=
      fun t => ⟨rfl, (Nat.add_assoc _ _ _).symm⟩
    simp only [emitConnected, Scheme.connected, hhalf, alloc3_eq (H := H) e (Nat.two_pow_pos k), ih,
      emitMergedCenterIngress_eq, (htop _).1, (htop _).2, Nat.add_assoc]
    rfl

theorem emitStandalone_eq (e : Emitter α) (k out : Nat) :
    emitStandalone H e k out = (emitScheme H).standalone e k out := by
  induction k generalizing e out with
  | zero => rfl
  | succ k ih =>
    have htop : ∀ t : Emitter α, (t.arenaAlloc (2 ^ k)).1 = t.top ∧ (t.arenaAlloc (2 ^ k)).2.top = t.top + 2 ^ k :=
      fun t => ⟨rfl, (Nat.add_assoc _ _ _).symm⟩
    simp only [emitStandalone, Scheme.standalone, alloc3_eq (H := H) e (Nat.two_pow_pos k), ih, emitConnector_eq,
      emitConnected_eq, (htop _).1, (htop _).2, Nat.add_assoc]
    rfl

end Equations

/-! ## Both paths follow a table -/

def EmitCore.OneMode (k : EmitCore α) : Prop := k.labels.isSome → k.nodes = none

theorem EmitCore.run_isSome {k : EmitCore α} (P : Nat → List Nat) (c : Nat) :
    (k.run H P c).labels.isSome = k.labels.isSome := by
  induction c with
  | zero => rfl
  | succ c ih => rw [EmitCore.run_succ, isSome_emit, ih]

theorem EmitCore.OneMode.run {k : EmitCore α} (hk : k.OneMode) (P : Nat → List Nat) (c : Nat) :
    (k.run H P c).OneMode := fun h => EmitCore.run_nodes_none (hk (by rwa [EmitCore.run_isSome] at h)) c

section Layers
variable {G : Nat → List Nat} {e : Emitter α} {w src dst : Nat} {a0 a1 : Nat → Nat}

theorem layer1_eq (hM : e.core.OneMode) (hP : ∀ i < w, G (e.nextId + i) = [e.mem (src + i)])
    (hlt : ∀ i < w, e.mem (src + i) < e.nextId) (hsep : ∀ i < w, src + i < dst ∨ dst + w ≤ src + i) :
    layer1 H w src dst e = layerState H G dst w e := by
  cases hb : e.labels with
  | none =>
    rw [layer1, hb]
    exact edgeLayer1_eq hP hsep
  | some L =>
    rw [layer1, hb]
    exact labelLayer1_eq hb (hM (by rw [show e.core.labels = some L from hb]; rfl)) hP hlt hsep

theorem layer2_eq (hM : e.core.OneMode)
    (hP : ∀ i < w, G (e.nextId + i) = sorted2 (e.mem (a0 i)) (e.mem (a1 i)))
    (hlt0 : ∀ i < w, e.mem (a0 i) < e.nextId) (hlt1 : ∀ i < w, e.mem (a1 i) < e.nextId)
    (hsep0 : ∀ i < w, a0 i < dst ∨ dst + w ≤ a0 i) (hsep1 : ∀ i < w, a1 i < dst ∨ dst + w ≤ a1 i) :
    layer2 H w a0 a1 dst e = layerState H G dst w e := by
  cases hb : e.labels with
  | none =>
    rw [layer2, hb]
    exact edgeLayer2_eq hP hsep0 hsep1
  | some L =>
    rw [layer2, hb]
    exact labelLayer2_eq hb (hM (by rw [show e.core.labels = some L from hb]; rfl)) hP hlt0 hlt1 hsep0 hsep1

end Layers

theorem layerState_spec (G : Nat → List Nat) (dst w : Nat) (e : Emitter α) :
    (layerState H G dst w e).core = e.core.run H G w ∧
      (emitScheme H).Fills (fun id => id) dst w (fun i => e.nextId + i) e (layerState H G dst w e) :=
  ⟨rfl, rfl⟩

theorem core_trans {G : Nat → List Nat} {c d : Nat} {e e' e'' : Emitter α} (h : e'.core = e.core.run H G c)
    (h' : e''.core = e'.core.run H G d) : e''.core = e.core.run H G (c + d) := by
  rw [h', h, EmitCore.run_add]

theorem core_ok {G : Nat → List Nat} {c : Nat} {e e' : Emitter α} (h : e'.core = e.core.run H G c)
    (hM : e.core.OneMode) : e'.core.OneMode := by
  rw [h]
  exact hM.run G c

theorem core_nextId {G : Nat → List Nat} {c : Nat} {e e' : Emitter α} (h : e'.core = e.core.run H G c) :
    e'.nextId = e.nextId + c :=
  (congrArg EmitCore.nextId h).trans (EmitCore.run_nextId c)

section Specs
variable {G : Nat → List Nat} {e : Emitter α} {dim src dst : Nat}

theorem emitSource_spec (dst : Nat) (hG : G e.nextId = []) :
    ((emitScheme H).source dst e).core = e.core.run H G 1 ∧
      (emitScheme H).Fills (fun id => id) dst 1 (fun _ => e.nextId) e ((emitScheme H).source dst e) := by
  rw [EmitCore.run_one, show G e.core.nextId = [] from hG, Scheme.Fills, Arena.fill, ← update_eq_store]
  exact ⟨rfl, rfl⟩

theorem emitOne_spec {p : Nat} (dst : Nat) (hG : G e.nextId = [p]) (hp : e.mem src = p) :
    ((emitScheme H).one src dst e).core = e.core.run H G 1 ∧
      (emitScheme H).Fills (fun id => id) dst 1 (fun _ => e.nextId) e ((emitScheme H).one src dst e) := by
  rw [EmitCore.run_one, show G e.core.nextId = [p] from hG, Scheme.Fills, Arena.fill, ← update_eq_store, ← hp]
  exact ⟨rfl, rfl⟩

theorem emitMerge0_spec {primary ingress p q : Nat} (dst : Nat) (hG0 : G e.nextId = [q])
    (hG1 : G (e.nextId + 1) = [p, e.nextId]) (hp : p < e.nextId) (hprim : e.mem primary = p) (hing : e.mem ingress = q) :
    ((emitScheme H).merge0 primary ingress dst e).core = e.core.run H G 2 ∧
      (emitScheme H).Fills (fun id => id) dst 1 (fun _ => e.nextId + 1) e
        ((emitScheme H).merge0 primary ingress dst e) := by
  have hsort : sorted2 p e.nextId = [p, e.nextId] := by
    rw [sorted2, Nat.min_eq_left (Nat.le_of_lt hp), Nat.max_eq_right (Nat.le_of_lt hp)]
  have heq : (emitScheme H).merge0 primary ingress dst e =
      { e.withCore ((e.core.emit H [q]).emit H (sorted2 p e.nextId)) with
        mem := Function.update e.mem dst (e.nextId + 1) } := by
    simp only [emitScheme, emit1_fst, emit2_fst, emit1_eq, emit2_eq, ← hprim, ← hing]
    rfl
  rw [heq, Scheme.Fills, Arena.fill, ← update_eq_store, hsort, ← hG0, ← hG1]
  exact ⟨rfl, rfl⟩

theorem emitFirst_spec (inp : Nat → Nat) (hok : e.core.OneMode) (hG : ∀ i < 2 ^ dim, G (e.nextId + i) = [inp i])
    (hlt : ∀ i < 2 ^ dim, inp i < e.nextId) (hin : ∀ i < 2 ^ dim, e.mem (src + i) = inp i)
    (hsep : src + 2 ^ dim ≤ dst ∨ dst + 2 ^ dim ≤ src) :
    ((emitScheme H).first dim src dst e).core = e.core.run H G (2 ^ dim) ∧
      (emitScheme H).Fills (fun id => id) dst (2 ^ dim) (fun i => e.nextId + i) e
        ((emitScheme H).first dim src dst e) := by
  have heq : (emitScheme H).first dim src dst e = layerState H G dst (2 ^ dim) e :=
    layer1_eq hok (fun i hi => by rw [hG i hi, ← hin i hi])
      (fun i hi => (hin i hi).trans_lt (hlt i hi)) fun i hi => by omega
  rw [heq]
  exact layerState_spec G dst (2 ^ dim) e

theorem emitFlip_spec {l t : Nat} (dst : Nat) (hok : e.core.OneMode) (hl : l < dim)
    (hnext : e.nextId = t + (l + 1) * 2 ^ dim)
    (hG : ∀ i < 2 ^ dim, G (e.nextId + i) = sorted2 (cell dim t l i) (cell dim t l (i ^^^ flipBit dim (l + 1))))
    (hin : ∀ i < 2 ^ dim, e.mem (src + i) = cell dim t l i) (hsep : src + 2 ^ dim ≤ dst ∨ dst + 2 ^ dim ≤ src) :
    ((emitScheme H).flip dim (l + 1) src dst e).core = e.core.run H G (2 ^ dim) ∧
      (emitScheme H).Fills (fun id => id) dst (2 ^ dim) (fun i => e.nextId + i) e
        ((emitScheme H).flip dim (l + 1) src dst e) := by
  have hlt : ∀ i < 2 ^ dim, e.mem (src + i) < e.nextId := fun i hi => by
    rw [hin i hi, hnext, cell, Nat.add_mul, Nat.one_mul]; omega
  have heq : (emitScheme H).flip dim (l + 1) src dst e = layerState H G dst (2 ^ dim) e := by
    refine layer2_eq hok (fun i hi => ?_) hlt (fun i hi => hlt _ (xor_flipBit_lt hl hi)) (fun i hi => ?_)
      fun i hi => ?_
    · rw [hG i hi, hin i hi, hin _ (xor_flipBit_lt hl hi)]
    · omega
    · have := xor_flipBit_lt hl hi
      omega
  rw [heq]
  exact layerState_spec G dst (2 ^ dim) e

theorem emitMerge_spec {primary ingress : Nat} (p q : Nat → Nat) (hok : e.core.OneMode)
    (hG : ∀ i < 2 ^ dim, G (e.nextId + i) = [p i, q i]) (hpq : ∀ i < 2 ^ dim, p i < q i ∧ q i < e.nextId)
    (hprim : ∀ i < 2 ^ dim, e.mem (primary + i) = p i) (hing : ∀ i < 2 ^ dim, e.mem (ingress + i) = q i)
    (hsepP : primary + 2 ^ dim ≤ dst) (hsepI : ingress + 2 ^ dim ≤ dst) :
    ((emitScheme H).merge dim primary ingress dst e).core = e.core.run H G (2 ^ dim) ∧
      (emitScheme H).Fills (fun id => id) dst (2 ^ dim) (fun i => e.nextId + i) e
        ((emitScheme H).merge dim primary ingress dst e) := by
  have heq : (emitScheme H).merge dim primary ingress dst e = layerState H G dst (2 ^ dim) e := by
    refine layer2_eq hok (fun i hi => ?_) (fun i hi => ?_) (fun i hi => ?_) (fun i hi => ?_) fun i hi => ?_
    · have := (hpq i hi).1
      rw [hG i hi, hprim i hi, hing i hi, sorted2, Nat.min_eq_left (by omega), Nat.max_eq_right (by omega)]
    · have := hpq i hi
      rw [hprim i hi]; omega
    · rw [hing i hi]; exact (hpq i hi).2
    · omega
    · omega
  rw [heq]
  exact layerState_spec G dst (2 ^ dim) e

end Specs

variable (H) in
/-- **The emitter follows any table**, on either path. -/
def emitFollows (G : Nat → List Nat) (N : Nat) : (emitScheme H).Follows G N fun id => id where
  nextId e := e.nextId
  Emitted c e e' := e'.core = e.core.run H G c
  Ok e := e.core.OneMode
  get_set _ _ := rfl
  ok_set _ h := h
  emitted_refl _ := rfl
  emitted_set _ _ := rfl
  emitted_trans h h' := core_trans h h'
  emitted_ok h hM := core_ok h hM
  emitted_nextId h := core_nextId h
  source_spec dst _ _ hG := emitSource_spec dst hG
  one_spec dst _ _ hG _ hp := emitOne_spec dst hG hp
  merge0_spec dst _ _ hG0 hG1 hp _ hprim hing := emitMerge0_spec dst hG0 hG1 hp hprim hing
  first_spec inp hok _ hG hlt hin hsep := emitFirst_spec inp hok hG hlt hin hsep
  flip_spec dst hok _ hl hnext hG hin hsep := emitFlip_spec dst hok hl hnext hG hin hsep
  merge_spec p q hok _ hG hpq hprim hing hsepP hsepI := emitMerge_spec p q hok hG hpq hprim hing hsepP hsepI

/-- **`emit_standalone` follows the tables.** -/
theorem emitStandalone_emits {G : Nat → List Nat} {N k out : Nat} {e : Emitter α} (hM : e.core.OneMode)
    (hN : e.nextId + standaloneNodeCount k ≤ N)
    (hG : ∀ i < standaloneNodeCount k, G (e.nextId + i) = standalonePreds k e.nextId (e.nextId + i))
    (hout : out + 2 ^ k ≤ e.top) :
    (emitFollows H G N).Emits (standaloneNodeCount k) (standalonePeak k) out (2 ^ k) (standaloneBase k e.nextId) e
      (emitStandalone H e k out) := by
  rw [emitStandalone_eq]
  exact Scheme.Follows.standalone_emits (F := emitFollows H G N) ⟨hM, hN, hG, hout⟩

end PoseDB.Graph
