import PoseDB.Graph.Emitter
import PoseDB.Graph.Scaffold

/-!
# Emission without arrays

`EmitCore` is what an emit call reads and writes of the emitter, the node-id arrays apart: the id counter, the label
buffer, the edge recorder and the ghosts. `EmitCore.run H P c` emits the next `c` ids with the predecessors the
table `P` gives them. Both paths of every component are proved to be such a run (`Graph/Layer`, `Graph/Emission`);
what a run leaves in the label buffer, in the recorder and in the ghosts is proved here.
-/

set_option autoImplicit false

namespace PoseDB.Graph
open Loops Mem

structure EmitCore (α : Type) where
  nextId : Nat
  labels : Option (Nat → α)
  nodes : Option (Nat → PoseNode)
  seed : α
  desc : α
  algo : PoseHashAlgo
  emitted : List Nat
  hashed : List (HashCall α)

variable {α : Type}

def Emitter.core (e : Emitter α) : EmitCore α :=
  ⟨e.nextId, e.labels, e.nodes, e.seed, e.desc, e.algo, e.emitted, e.hashed⟩

/-- The derivation of node `id` with predecessor list `ps`, its labels read from `L`. -/
def nodeCall (L : Nat → α) (id : Nat) (ps : List Nat) : HashCall α :=
  ⟨ps.isEmpty, id, ps[0]?.map L, ps[1]?.map L⟩

/-- What an emit call records: fields it does not set keep their value. -/
def PoseNode.record (nd : PoseNode) : List Nat → PoseNode
  | [] => { nd with numPreds := 0, challengeRank := -1 }
  | [p] => { nd with numPreds := 1, pred0 := p, challengeRank := -1 }
  | p :: q :: _ => { nd with numPreds := 2, pred0 := p, pred1 := q, challengeRank := -1 }

def PoseNode.preds (nd : PoseNode) : List Nat := [nd.pred0, nd.pred1].take nd.numPreds

theorem PoseNode.preds_record (nd : PoseNode) (ps : List Nat) : (nd.record ps).preds = ps.take 2 := by
  match ps with
  | [] => rfl
  | [_] => rfl
  | _ :: _ :: _ => rfl

section Run
variable (H : PoseHash α)

def EmitCore.label (k : EmitCore α) (c : HashCall α) : α := H.label k.seed k.desc k.algo c

/-- Emit the next id with the predecessors `ps`. -/
def EmitCore.emit (k : EmitCore α) (ps : List Nat) : EmitCore α :=
  { k with
    nextId := k.nextId + 1
    labels := k.labels.map fun L => Function.update L k.nextId (k.label H (nodeCall L k.nextId ps))
    nodes := k.nodes.map fun nodes => Function.update nodes k.nextId ((nodes k.nextId).record ps)
    emitted := k.emitted ++ [k.nextId]
    hashed := k.hashed ++ (k.labels.map fun L => nodeCall L k.nextId ps).toList }

/-- Emit the next `c` ids with the predecessors that `P` gives them. -/
def EmitCore.run (P : Nat → List Nat) (c : Nat) (k : EmitCore α) : EmitCore α :=
  loop c (fun _ k => k.emit H (P k.nextId)) k

variable {H}

/-! ## The emit functions -/

@[simp] theorem emitSource_fst (e : Emitter α) : (emitSource H e).1 = e.nextId := rfl

@[simp] theorem emit1_fst (e : Emitter α) (p : Nat) : (emit1 H e p).1 = e.nextId := rfl

@[simp] theorem emit2_fst (e : Emitter α) (p q : Nat) : (emit2 H e p q).1 = e.nextId := rfl

theorem emit2_core (e : Emitter α) (p q : Nat) : (emit2 H e p q).2.core = e.core.emit H (sorted2 p q) := by
  by_cases h : p > q
  · simp only [emit2, if_pos h, sorted2, Nat.min_eq_right (Nat.le_of_lt h), Nat.max_eq_left (Nat.le_of_lt h)]
    rfl
  · simp only [emit2, if_neg h, sorted2, Nat.min_eq_left (Nat.not_lt.mp h), Nat.max_eq_right (Nat.not_lt.mp h)]
    rfl

/-! ## Runs -/

variable {P Q : Nat → List Nat} {k : EmitCore α}

@[simp] theorem EmitCore.run_zero : k.run H P 0 = k := rfl

theorem EmitCore.run_succ (c : Nat) : k.run H P (c + 1) = (k.run H P c).emit H (P (k.run H P c).nextId) := rfl

@[simp] theorem EmitCore.run_nextId (c : Nat) : (k.run H P c).nextId = k.nextId + c := by
  induction c with
  | zero => rfl
  | succ c ih => rw [run_succ, ← Nat.add_assoc, ← ih]; rfl

theorem EmitCore.run_add (a b : Nat) : k.run H P (a + b) = (k.run H P a).run H P b :=
  loop_add a b _ k

theorem EmitCore.run_one : k.run H P 1 = k.emit H (P k.nextId) := rfl

@[simp] theorem EmitCore.run_emitted (c : Nat) :
    (k.run H P c).emitted = k.emitted ++ List.range' k.nextId c := by
  induction c with
  | zero => simp
  | succ c ih =>
    rw [List.range'_concat, Nat.one_mul, ← List.append_assoc, ← ih, ← EmitCore.run_nextId (H := H) (P := P) c]
    rfl

theorem EmitCore.run_env (c : Nat) :
    (k.run H P c).seed = k.seed ∧ (k.run H P c).desc = k.desc ∧ (k.run H P c).algo = k.algo := by
  induction c with
  | zero => exact ⟨rfl, rfl, rfl⟩
  | succ c ih => exact ih

theorem EmitCore.run_label (c : Nat) : (k.run H P c).label H = k.label H := by
  obtain ⟨h1, h2, h3⟩ := EmitCore.run_env (H := H) (P := P) (k := k) c
  funext x
  rw [label, label, h1, h2, h3]

theorem EmitCore.run_labels_none (h : k.labels = none) (c : Nat) :
    (k.run H P c).labels = none ∧ (k.run H P c).hashed = k.hashed := by
  induction c with
  | zero => exact ⟨h, rfl⟩
  | succ c ih =>
    rw [run_succ]
    simp only [emit, ih.1, ih.2, Option.map_none, Option.toList_none, List.append_nil, and_self]

theorem EmitCore.run_labels_some {L₀ : Nat → α} (h : k.labels = some L₀) (c : Nat) :
    ∃ L, (k.run H P c).labels = some L := by
  induction c with
  | zero => exact ⟨L₀, h⟩
  | succ c ih =>
    obtain ⟨L, hL⟩ := ih
    exact ⟨_, by rw [run_succ, emit, hL]; rfl⟩

theorem EmitCore.run_nodes_none (h : k.nodes = none) (c : Nat) : (k.run H P c).nodes = none := by
  induction c with
  | zero => exact h
  | succ c ih => rw [run_succ]; simp only [emit, ih, Option.map_none]

theorem EmitCore.run_nodes {nodes : Nat → PoseNode} (h : k.nodes = some nodes) (c : Nat) :
    (k.run H P c).nodes = some fun id =>
      if k.nextId ≤ id ∧ id < k.nextId + c then (nodes id).record (P id) else nodes id := by
  induction c with
  | zero =>
    rw [run_zero, h]
    congr 1
    funext id
    rw [if_neg (by omega)]
  | succ c ih =>
    rw [run_succ]
    simp only [emit, ih, Option.map_some, run_nextId]
    congr 1
    funext id
    by_cases hid : id = k.nextId + c
    · subst hid
      rw [Function.update_self, if_neg (by omega), if_pos (by omega)]
    · rw [Function.update_of_ne hid]
      exact if_congr (by omega) rfl rfl

/-! ## Labels -/

/-- `L` labels the ids `lo ≤ id < hi` of the table `P`: every label is derived from the labels of its predecessors. -/
def LabeledBy (f : HashCall α → α) (P : Nat → List Nat) (lo hi : Nat) (L : Nat → α) : Prop :=
  ∀ id, lo ≤ id → id < hi → L id = f (nodeCall L id (P id))

theorem nodeCall_congr {L L' : Nat → α} {id : Nat} {ps : List Nat} (h : ∀ p ∈ ps, L p = L' p) :
    nodeCall L id ps = nodeCall L' id ps := by
  have h' : ∀ j : Nat, ps[j]?.map L = ps[j]?.map L' := fun j => by
    cases hj : ps[j]? with
    | none => rfl
    | some p => exact congrArg some (h p (List.mem_of_getElem? hj))
  simp only [nodeCall, h']

theorem LabeledBy.congr {f : HashCall α → α} {lo hi : Nat} {L : Nat → α} (h : LabeledBy f P lo hi L)
    (hPQ : ∀ id, lo ≤ id → id < hi → P id = Q id) : LabeledBy f Q lo hi L := fun id h1 h2 => by
  rw [← hPQ id h1 h2]; exact h id h1 h2

theorem LabeledBy.mono {f : HashCall α → α} {lo hi lo' hi' : Nat} {L : Nat → α} (h : LabeledBy f P lo hi L)
    (hlo : lo ≤ lo') (hhi : hi' ≤ hi) : LabeledBy f P lo' hi' L :=
  fun id h1 h2 => h id (hlo.trans h1) (h2.trans_le hhi)

/-- Labels are determined by the table when predecessors come first. -/
theorem LabeledBy.unique {f : HashCall α → α} {hi : Nat} {L L' : Nat → α}
    (hP : ∀ id < hi, ∀ p ∈ P id, p < id) (h : LabeledBy f P 0 hi L) (h' : LabeledBy f P 0 hi L') :
    ∀ id < hi, L id = L' id := by
  intro id
  induction id using Nat.strong_induction_on with
  | _ id ih =>
    intro hid
    rw [h id (Nat.zero_le id) hid, h' id (Nat.zero_le id) hid]
    exact congrArg f (nodeCall_congr fun p hp => ih p (hP id hid p hp) ((hP id hid p hp).trans hid))

/-- The label buffer after a run: the new labels satisfy their equations, the others are unchanged, and the
derivations made are those of the table, in ascending id order. -/
theorem EmitCore.run_labels {L₀ : Nat → α} (h : k.labels = some L₀) (c : Nat)
    (hP : ∀ id, k.nextId ≤ id → id < k.nextId + c → ∀ p ∈ P id, p < id) :
    ∃ L, (k.run H P c).labels = some L ∧ (∀ id, id < k.nextId ∨ k.nextId + c ≤ id → L id = L₀ id) ∧
      LabeledBy (k.label H) P k.nextId (k.nextId + c) L ∧
      (k.run H P c).hashed = k.hashed ++ (List.range' k.nextId c).map fun id => nodeCall L id (P id) := by
  induction c with
  | zero => exact ⟨L₀, h, fun _ _ => rfl, fun id h1 h2 => by omega, by simp⟩
  | succ c ih =>
    obtain ⟨L, hL, hout, hlab, hcalls⟩ := ih fun id h1 h2 => hP id h1 (by omega)
    obtain ⟨L', hL'⟩ : ∃ L', L' = Function.update L (k.nextId + c)
      (k.label H (nodeCall L (k.nextId + c) (P (k.nextId + c)))) := ⟨_, rfl⟩
    have hne : ∀ p, p ≠ k.nextId + c → L' p = L p := fun p hp => by rw [hL', Function.update_of_ne hp]
    -- the derivations read labels below the new id, which the update leaves alone
    have hcall : ∀ id, k.nextId ≤ id → id < k.nextId + (c + 1) →
        nodeCall L' id (P id) = nodeCall L id (P id) := fun id h1 h2 =>
      nodeCall_congr fun p hp => hne p (by have := hP id h1 h2 p hp; omega)
    refine ⟨L', ?_, ?_, ?_, ?_⟩
    · rw [run_succ]
      simp only [emit, hL, Option.map_some, run_nextId, run_label, hL']
    · intro id hid
      rw [hne id (by omega)]
      exact hout id (by omega)
    · intro id h1 h2
      rw [hcall id h1 h2]
      by_cases hid : id = k.nextId + c
      · rw [hid, hL', Function.update_self]
      · rw [hne id hid]
        exact hlab id h1 (by omega)
    · rw [run_succ]
      simp only [emit, hL, hcalls, Option.map_some, Option.toList_some, run_nextId, List.range'_concat,
        Nat.one_mul, List.map_append, List.map_cons, List.map_nil, List.append_assoc]
      rw [hcall (k.nextId + c) (by omega) (by omega)]
      congr 2
      refine List.map_congr_left fun id hid => ?_
      rw [List.mem_range'_1] at hid
      exact (hcall id (by omega) (by omega)).symm

end Run

end PoseDB.Graph
