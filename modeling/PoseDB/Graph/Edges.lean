import PoseDB.Graph.Label
import Mathlib.Data.Set.Function
import Mathlib.Tactic.Lift

/-!
# The recorded graph (`pose_graph_edges`)

The edge-recording pass leaves the table `scaffoldPreds m` in its node array (`poseGraphEdges_spec`). Its entries are
exactly the derivations of the labeling pass (`doLabel_follows_edges`), and the array is a well-formed graph
(`poseGraphEdges_wellFormed`).
-/

set_option autoImplicit false

namespace PoseDB.Graph
open Loops Mem

/-- The buffers that `pose_graph_edges` allocates: the node array, and the cells of the base arrays and the arena. -/
structure EdgeHeap where
  nodes : Nat → PoseNode
  ids : Nat → Nat

/-- `*nodes_out` and `*count_out`, and three ghosts: the ids in the order in which they were emitted, and the content
of the two base arrays. -/
structure EdgeList where
  nodes : Nat → PoseNode
  count : Nat
  emitted : List Nat
  leftBase : Nat → Nat
  rightBase : Nat → Nat

def EdgeHeap.zero : EdgeHeap := ⟨fun _ => ⟨0, 0, 0, 0⟩, fun _ => 0⟩

def noHash : PoseHash Unit := ⟨fun _ _ _ _ _ _ _ => (), fun _ _ => (), fun _ _ => ()⟩

/-- The emitter that `pose_graph_edges` sets up. -/
def edgeEmitter (nodes : Nat → PoseNode) (ids : Nat → Nat) (arena arenaElems : Nat) : Emitter Unit :=
  { nextId := 0, labels := none, nodes := some nodes, seed := (), desc := (), arena := arena, arenaCap := arenaElems,
    arenaOff := 0, algo := .blake3, mem := ids, arenaHi := 0, emitted := [], hashed := [] }

/-- `pose_graph_edges`; `heap` is absent when an allocation fails. -/
def poseGraphEdges (m : Nat) (heap : Option EdgeHeap) : Option EdgeList :=
  if m = 0 ∨ m > poseGraphMaxM then none
  else
    let n := poseGraphParameterN m
    let level := n + 1
    let halfW := 2 ^ n
    let retained := m - halfW
    let total := 2 * standaloneNodeCount level
    match heap with
    | none => none
    | some heap =>
      let nodes := loop total (fun i nodes => Function.update nodes i ⟨0, 0, 0, -1⟩) heap.nodes
      let leftBase := 0
      let rightBase := leftBase + 2 * halfW
      let e := edgeEmitter nodes heap.ids (rightBase + 2 * halfW) (poseArenaFactor * halfW)
      let e := emitStandalone noHash e level leftBase
      let e := emitStandalone noHash e level rightBase
      let nodes := e.nodes.getD nodes
      let nodes := scatter halfW (fun i => e.mem (leftBase + halfW + i))
        (fun i nd => { nd with challengeRank := (i : Int) }) nodes
      let nodes := scatter retained (fun i => e.mem (rightBase + halfW + i))
        (fun i nd => { nd with challengeRank := ((halfW + i : Nat) : Int) }) nodes
      some ⟨nodes, e.nextId, e.emitted, fun i => e.mem (leftBase + i), fun i => e.mem (rightBase + i)⟩

/-! ## Challenge nodes -/

theorem challengeNode_left {m r : Nat} (hr : r < 2 ^ poseGraphParameterN m) :
    challengeNode m r = standaloneBase (poseGraphParameterN m + 1) 0 (2 ^ poseGraphParameterN m + r) := if_pos hr

theorem challengeNode_right {m : Nat} (r : Nat) :
    challengeNode m (2 ^ poseGraphParameterN m + r) = standaloneBase (poseGraphParameterN m + 1)
      (standaloneNodeCount (poseGraphParameterN m + 1)) (2 ^ poseGraphParameterN m + r) := by
  rw [challengeNode, if_neg (by omega), Nat.add_sub_cancel_left]

/-- Ranks below `2^n` lie in the first copy, the others in the second. -/
theorem challengeNode_half {m r : Nat} (hr : r < m) :
    challengeNode m r < scratchNodeCount m ∧
      (challengeNode m r < standaloneNodeCount (poseGraphParameterN m + 1) ↔ r < 2 ^ poseGraphParameterN m) := by
  have hm := le_two_pow_poseGraphParameterN m
  have hpow : 2 ^ (poseGraphParameterN m + 1) = 2 * 2 ^ poseGraphParameterN m := by rw [pow_succ]; omega
  rw [scratchNodeCount]
  by_cases h : r < 2 ^ poseGraphParameterN m
  · have := standaloneBase_lt (k := poseGraphParameterN m + 1) (s := 0) (i := 2 ^ poseGraphParameterN m + r) (by omega)
    rw [challengeNode_left h]
    omega
  · obtain ⟨q, rfl⟩ : ∃ q, r = 2 ^ poseGraphParameterN m + q := ⟨r - 2 ^ poseGraphParameterN m, by omega⟩
    have := standaloneBase_lt (k := poseGraphParameterN m + 1) (i := 2 ^ poseGraphParameterN m + q)
      (s := standaloneNodeCount (poseGraphParameterN m + 1)) (by omega)
    have := le_standaloneBase (poseGraphParameterN m + 1) (standaloneNodeCount (poseGraphParameterN m + 1))
      (2 ^ poseGraphParameterN m + q)
    rw [challengeNode_right]
    omega

theorem challengeNode_inj {m r r' : Nat} (hr : r < m) (hr' : r' < m) (h : challengeNode m r = challengeNode m r') :
    r = r' := by
  have hm := le_two_pow_poseGraphParameterN m
  have hpow : 2 ^ (poseGraphParameterN m + 1) = 2 * 2 ^ poseGraphParameterN m := by rw [pow_succ]; omega
  have hhalf := (challengeNode_half hr).2
  have hhalf' := (challengeNode_half hr').2
  rw [h, hhalf'] at hhalf
  by_cases hlt : r < 2 ^ poseGraphParameterN m
  · rw [challengeNode_left hlt, challengeNode_left (hhalf.mpr hlt)] at h
    have := standaloneBase_inj (by omega) (by omega) h
    omega
  · have hlt' : ¬ r' < 2 ^ poseGraphParameterN m := fun h' => hlt (hhalf.mp h')
    obtain ⟨q, rfl⟩ : ∃ q, r = 2 ^ poseGraphParameterN m + q := ⟨r - 2 ^ poseGraphParameterN m, by omega⟩
    obtain ⟨q', rfl⟩ : ∃ q', r' = 2 ^ poseGraphParameterN m + q' := ⟨r' - 2 ^ poseGraphParameterN m, by omega⟩
    rw [challengeNode_right, challengeNode_right] at h
    exact standaloneBase_inj (by omega) (by omega) h

/-- The first id of the copy that rank `r` lies in. -/
def copyStart (m r : Nat) : Nat :=
  if r < 2 ^ poseGraphParameterN m then 0 else standaloneNodeCount (poseGraphParameterN m + 1)

theorem challengeNode_eq {m r : Nat} (hr : r < m) :
    challengeNode m r = standaloneBase (poseGraphParameterN m + 1) (copyStart m r)
      (2 ^ poseGraphParameterN m + r % 2 ^ poseGraphParameterN m) := by
  have hm := le_two_pow_poseGraphParameterN m
  have hpow : 2 ^ (poseGraphParameterN m + 1) = 2 * 2 ^ poseGraphParameterN m := by rw [pow_succ]; omega
  by_cases h : r < 2 ^ poseGraphParameterN m
  · rw [challengeNode_left h, copyStart, if_pos h, Nat.mod_eq_of_lt h]
  · obtain ⟨q, rfl⟩ : ∃ q, r = 2 ^ poseGraphParameterN m + q := ⟨r - 2 ^ poseGraphParameterN m, by omega⟩
    rw [challengeNode_right, copyStart, if_neg h, Nat.add_mod_left, Nat.mod_eq_of_lt (by omega)]

theorem scaffoldPreds_copy {m r id : Nat} (hlo : copyStart m r ≤ id)
    (hhi : id < copyStart m r + standaloneNodeCount (poseGraphParameterN m + 1)) :
    id < scratchNodeCount m ∧
      scaffoldPreds m id = standalonePreds (poseGraphParameterN m + 1) (copyStart m r) id := by
  rw [scratchNodeCount, scaffoldPreds]
  rw [copyStart] at hlo hhi ⊢
  split at hlo <;> rename_i h
  · rw [if_pos h] at hhi ⊢
    exact ⟨by omega, if_pos (by omega)⟩
  · rw [if_neg h] at hhi ⊢
    exact ⟨by omega, if_neg (by omega)⟩

theorem copyStart_unique {m r r' x : Nat} (hlo : copyStart m r ≤ x)
    (hhi : x < copyStart m r + standaloneNodeCount (poseGraphParameterN m + 1)) (hlo' : copyStart m r' ≤ x)
    (hhi' : x < copyStart m r' + standaloneNodeCount (poseGraphParameterN m + 1)) :
    r < 2 ^ poseGraphParameterN m ↔ r' < 2 ^ poseGraphParameterN m := by
  rw [copyStart] at hlo hhi hlo' hhi'
  split at hlo <;> split at hlo' <;> simp_all <;> omega

theorem rank_eq_of_half {m r r' : Nat} (hr : r < m) (hr' : r' < m)
    (hhalf : r < 2 ^ poseGraphParameterN m ↔ r' < 2 ^ poseGraphParameterN m)
    (hmod : r % 2 ^ poseGraphParameterN m = r' % 2 ^ poseGraphParameterN m) : r = r' := by
  have hm := le_two_pow_poseGraphParameterN m
  have hpow : 2 ^ (poseGraphParameterN m + 1) = 2 * 2 ^ poseGraphParameterN m := by rw [pow_succ]; omega
  by_cases h : r < 2 ^ poseGraphParameterN m
  · rwa [Nat.mod_eq_of_lt h, Nat.mod_eq_of_lt (hhalf.mp h)] at hmod
  · rw [Nat.mod_eq_sub_mod (by omega), Nat.mod_eq_of_lt (by omega), Nat.mod_eq_sub_mod (a := r') (by omega),
      Nat.mod_eq_of_lt (by omega)] at hmod
    omega

/-! ## What is recorded -/

/-- `p` is a recorded predecessor of `id`. -/
def EdgeList.Edge (E : EdgeList) (p id : Nat) : Prop := id < E.count ∧ p ∈ (E.nodes id).preds

/-- The base array of the copy that challenge node `c` lies in. -/
def EdgeList.ownBase (E : EdgeList) (m c : Nat) : Nat → Nat :=
  if (E.nodes c).challengeRank < (2 ^ poseGraphParameterN m : Nat) then E.leftBase else E.rightBase

/-- The node array of the graph of `m` blocks: the predecessors of the table, and the ranks. -/
structure RecordsScaffold (m : Nat) (E : EdgeList) : Prop where
  count : E.count = scratchNodeCount m
  emitted : E.emitted = List.range (scratchNodeCount m)
  leftBase : ∀ i < 2 ^ (poseGraphParameterN m + 1), E.leftBase i = standaloneBase (poseGraphParameterN m + 1) 0 i
  rightBase : ∀ i < 2 ^ (poseGraphParameterN m + 1), E.rightBase i =
    standaloneBase (poseGraphParameterN m + 1) (standaloneNodeCount (poseGraphParameterN m + 1)) i
  entry : ∀ id < scratchNodeCount m, ∃ rank : Int,
    E.nodes id = { (⟨0, 0, 0, -1⟩ : PoseNode).record (scaffoldPreds m id) with challengeRank := rank }
  rank : ∀ r < m, (E.nodes (challengeNode m r)).challengeRank = r
  unranked : ∀ id < scratchNodeCount m, (∀ r < m, challengeNode m r ≠ id) → (E.nodes id).challengeRank = -1

theorem mark_challenges {m : Nat} (nodes : Nat → PoseNode) (left right : Nat → Nat)
    (hleft : ∀ i < 2 ^ poseGraphParameterN m, left i = challengeNode m i)
    (hright : ∀ i < m - 2 ^ poseGraphParameterN m, right i = challengeNode m (2 ^ poseGraphParameterN m + i))
    (hle : 2 ^ poseGraphParameterN m ≤ m) :
    let nodes' := scatter (m - 2 ^ poseGraphParameterN m) right
      (fun i nd => { nd with challengeRank := ((2 ^ poseGraphParameterN m + i : Nat) : Int) })
      (scatter (2 ^ poseGraphParameterN m) left (fun i nd => { nd with challengeRank := (i : Int) }) nodes)
    (∀ r < m, nodes' (challengeNode m r) = { nodes (challengeNode m r) with challengeRank := (r : Int) }) ∧
      ∀ id, (∀ r < m, challengeNode m r ≠ id) → nodes' id = nodes id := by
  have hinjL : ∀ i < 2 ^ poseGraphParameterN m, ∀ j < 2 ^ poseGraphParameterN m, left i = left j → i = j :=
    fun i hi j hj h => by
      rw [hleft i hi, hleft j hj] at h
      exact challengeNode_inj (by omega) (by omega) h
  have hinjR : ∀ i < m - 2 ^ poseGraphParameterN m, ∀ j < m - 2 ^ poseGraphParameterN m,
      right i = right j → i = j := fun i hi j hj h => by
    rw [hright i hi, hright j hj] at h
    have := challengeNode_inj (by omega) (by omega) h
    omega
  refine ⟨fun r hr => ?_, fun id hid => ?_⟩
  · by_cases h : r < 2 ^ poseGraphParameterN m
    · rw [scatter_out fun i hi heq => ?_, ← hleft r h, scatter_in h hinjL]
      rw [hright i hi] at heq
      have := challengeNode_inj (by omega) hr heq
      omega
    · obtain ⟨q, rfl⟩ : ∃ q, r = 2 ^ poseGraphParameterN m + q := ⟨r - 2 ^ poseGraphParameterN m, by omega⟩
      have hq : q < m - 2 ^ poseGraphParameterN m := by omega
      rw [← hright q hq, scatter_in hq hinjR, scatter_out fun i hi heq => ?_]
      rw [hleft i hi, hright q hq] at heq
      have := challengeNode_inj (by omega) hr heq
      omega
  · rw [scatter_out fun i hi h => hid _ (by omega) ((hright i hi).symm.trans h),
      scatter_out fun i hi h => hid i (by omega) ((hleft i hi).symm.trans h)]

theorem initial_nodes (garbage : Nat → PoseNode) (total : Nat) {id : Nat} (hid : id < total) :
    loop total (fun i nodes => Function.update nodes i ⟨0, 0, 0, -1⟩) garbage id = ⟨0, 0, 0, -1⟩ := by
  have h := loop_update_eq_store garbage 0 total fun _ => (⟨0, 0, 0, -1⟩ : PoseNode)
  simp only [Nat.zero_add] at h
  rw [h]
  exact (congrArg _ (Nat.zero_add id).symm).trans (store_in garbage 0 total _ hid)

theorem record_rank (nd : PoseNode) (ps : List Nat) : (nd.record ps).challengeRank = -1 := by
  match ps with
  | [] => rfl
  | [_] => rfl
  | _ :: _ :: _ => rfl

/-- **`pose_graph_edges` records the table.** -/
theorem poseGraphEdges_spec {m : Nat} (hm : 1 ≤ m) (hmax : m ≤ poseGraphMaxM) (heap : EdgeHeap) :
    ∃ E, poseGraphEdges m (some heap) = some E ∧ RecordsScaffold m E := by
  have hle := two_pow_poseGraphParameterN_le hm
  have hge := le_two_pow_poseGraphParameterN m
  have hpow : 2 ^ (poseGraphParameterN m + 1) = 2 * 2 ^ poseGraphParameterN m := by rw [pow_succ]; omega
  have hpos := Nat.two_pow_pos (poseGraphParameterN m)
  obtain ⟨nodes, hnodes⟩ : ∃ nodes : Nat → PoseNode, nodes =
      loop (scratchNodeCount m) (fun i nodes => Function.update nodes i ⟨0, 0, 0, -1⟩) heap.nodes := ⟨_, rfl⟩
  obtain ⟨e, he⟩ : ∃ e, e = edgeEmitter nodes heap.ids (0 + 2 * 2 ^ poseGraphParameterN m +
    2 * 2 ^ poseGraphParameterN m) (poseArenaFactor * 2 ^ poseGraphParameterN m) := ⟨_, rfl⟩
  have hM : e.core.OneMode := fun h => by rw [he] at h; cases h
  have h0 : e.core.nextId = 0 := by rw [he]; rfl
  have hN : e.core.nodes = some nodes := by rw [he]; rfl
  have htop : e.top = 0 + 2 * 2 ^ poseGraphParameterN m + 2 * 2 ^ poseGraphParameterN m := by rw [he]; rfl
  have htop2 : (emitStandalone noHash e (poseGraphParameterN m + 1) 0).top = e.top := by
    have hemits : (emitFollows noHash (standalonePreds (poseGraphParameterN m + 1) 0)
        (standaloneNodeCount (poseGraphParameterN m + 1))).Emits _ _ 0 _ _ e
          (emitStandalone noHash e (poseGraphParameterN m + 1) 0) :=
      emitStandalone_emits hM (by rw [show e.nextId = 0 from h0, Nat.zero_add])
        (fun i _ => by rw [show e.nextId = 0 from h0]) (by omega)
    exact hemits.toRan.top
  obtain ⟨hcore, hleft, hright⟩ := emitStandalone_twice (H := noHash) (m := m) 0
    (0 + 2 * 2 ^ poseGraphParameterN m) rfl hM h0 rfl rfl (by omega) (by omega) (by omega)
  simp only [poseGraphEdges, if_neg (show ¬(m = 0 ∨ m > poseGraphMaxM) by omega), Option.some.injEq, exists_eq_left']
  rw [← scratchNodeCount, ← hnodes, ← he]
  revert hcore hleft hright
  generalize emitStandalone noHash (emitStandalone noHash e (poseGraphParameterN m + 1) 0) (poseGraphParameterN m + 1)
    (0 + 2 * 2 ^ poseGraphParameterN m) = e3
  intro hcore hleft hright
  have hnodes3 : e3.nodes = _ := (congrArg EmitCore.nodes hcore).trans (EmitCore.run_nodes hN _)
  have hemit : e3.emitted = _ := (congrArg EmitCore.emitted hcore).trans (EmitCore.run_emitted _)
  have hnext : e3.nextId = _ := (congrArg EmitCore.nextId hcore).trans (EmitCore.run_nextId _)
  have hemit0 : e.core.emitted = [] := by rw [he]; rfl
  rw [h0, hemit0, List.nil_append, ← List.range_eq_range'] at hemit
  rw [h0, Nat.zero_add] at hnext
  simp only [hnodes3, Option.getD_some, h0, Nat.zero_add, Nat.zero_le, true_and]
  obtain ⟨hrank, hother⟩ := mark_challenges (m := m) (fun id =>
      if id < scratchNodeCount m then (nodes id).record (scaffoldPreds m id) else nodes id)
    (fun i => e3.mem (2 ^ poseGraphParameterN m + i))
    (fun i => e3.mem (2 * 2 ^ poseGraphParameterN m + 2 ^ poseGraphParameterN m + i))
    (fun i hi => by rw [challengeNode_left hi, ← hleft _ (by omega), Nat.zero_add])
    (fun i hi => by
      rw [challengeNode_right, ← hright _ (by omega), Nat.zero_add, Nat.add_assoc]) hle
  revert hrank hother
  generalize scatter (m - 2 ^ poseGraphParameterN m) _ _ _ = nodes'
  intro hrank hother
  have hrec : ∀ id < scratchNodeCount m, (if id < scratchNodeCount m then (nodes id).record (scaffoldPreds m id)
      else nodes id) = (⟨0, 0, 0, -1⟩ : PoseNode).record (scaffoldPreds m id) := fun id hid => by
    rw [if_pos hid, hnodes, initial_nodes _ _ hid]
  refine ⟨hnext, hemit, fun i hi => ?_, fun i hi => ?_, fun id hid => ?_, fun r hr => ?_, fun id hid hne => ?_⟩
  · rw [← hleft i hi, Nat.zero_add]
  · rw [← hright i hi, Nat.zero_add]
  · by_cases h : ∃ r < m, challengeNode m r = id
    · obtain ⟨r, hr, rfl⟩ := h
      exact ⟨r, (hrank r hr).trans (by rw [hrec _ hid])⟩
    · have hother' := (hother id fun r hr heq => h ⟨r, hr, heq⟩).trans (hrec id hid)
      exact ⟨-1, by rw [← record_rank ⟨0, 0, 0, -1⟩ (scaffoldPreds m id)]; exact hother'⟩
  · exact congrArg PoseNode.challengeRank (hrank r hr)
  · exact (congrArg PoseNode.challengeRank ((hother id hne).trans (hrec id hid))).trans (record_rank _ _)

/-! ## Reading the node array -/

def PoseNode.call {α : Type} (nd : PoseNode) (L : Nat → α) (id : Nat) : HashCall α :=
  ⟨nd.numPreds = 0, id, if 1 ≤ nd.numPreds then some (L nd.pred0) else none,
    if 2 ≤ nd.numPreds then some (L nd.pred1) else none⟩

/-- The nodes without predecessors are the first ones of the two copies; every other entry stays in its copy. -/
theorem scaffoldPreds_cases {m id : Nat} (hid : id < scratchNodeCount m) :
    ((id = 0 ∨ id = standaloneNodeCount (poseGraphParameterN m + 1)) ∧ scaffoldPreds m id = []) ∨
      (id ≠ 0 ∧ id ≠ standaloneNodeCount (poseGraphParameterN m + 1) ∧
        Entry (if id < standaloneNodeCount (poseGraphParameterN m + 1) then 0
          else standaloneNodeCount (poseGraphParameterN m + 1)) (fun _ => False) id (scaffoldPreds m id)) := by
  rw [scratchNodeCount] at hid
  have hpos := standaloneNodeCount_pos (poseGraphParameterN m + 1)
  rw [scaffoldPreds]
  split
  · rename_i h
    rcases Nat.eq_zero_or_pos id with rfl | h0
    · exact Or.inl ⟨Or.inl rfl, standalonePreds_first _ _⟩
    · exact Or.inr ⟨by omega, by omega, standalonePreds_entry h0 (by omega)⟩
  · rename_i h
    rcases Nat.eq_or_lt_of_le (Nat.not_lt.mp h) with h0 | h0
    · exact Or.inl ⟨Or.inr h0.symm, h0 ▸ standalonePreds_first _ _⟩
    · exact Or.inr ⟨by omega, by omega, standalonePreds_entry h0 (by omega)⟩

theorem PoseNode.numPreds_record (nd : PoseNode) {ps : List Nat} (h : ps.length ≤ 2) :
    (nd.record ps).numPreds = ps.length := by
  match ps, h with
  | [], _ => rfl
  | [_], _ => rfl
  | [_, _], _ => rfl

theorem PoseNode.call_record {α : Type} (nd : PoseNode) {ps : List Nat} (h : ps.length ≤ 2) (c : Int) (L : Nat → α)
    (id : Nat) : PoseNode.call { nd.record ps with challengeRank := c } L id = nodeCall L id ps := by
  match ps, h with
  | [], _ => rfl
  | [_], _ => rfl
  | [_, _], _ => rfl

theorem scaffoldPreds_length {m id : Nat} (hid : id < scratchNodeCount m) : (scaffoldPreds m id).length ≤ 2 := by
  rcases scaffoldPreds_cases hid with ⟨-, h⟩ | ⟨-, -, h⟩
  · rw [h]; exact Nat.zero_le 2
  · rcases h.length with h | h <;> omega

section Records
variable {m : Nat} {E : EdgeList} (hE : RecordsScaffold m E)
include hE

theorem RecordsScaffold.numPreds {id : Nat} (hid : id < scratchNodeCount m) :
    (E.nodes id).numPreds = (scaffoldPreds m id).length := by
  obtain ⟨c, hc⟩ := hE.entry id hid
  rw [hc]
  exact PoseNode.numPreds_record _ (scaffoldPreds_length hid)

theorem RecordsScaffold.preds {id : Nat} (hid : id < scratchNodeCount m) :
    (E.nodes id).preds = scaffoldPreds m id := by
  obtain ⟨c, hc⟩ := hE.entry id hid
  have h : (E.nodes id).preds = ((⟨0, 0, 0, -1⟩ : PoseNode).record (scaffoldPreds m id)).preds := by rw [hc]; rfl
  rw [h, PoseNode.preds_record, List.take_of_length_le (scaffoldPreds_length hid)]

theorem RecordsScaffold.call {α : Type} {id : Nat} (hid : id < scratchNodeCount m) (L : Nat → α) :
    (E.nodes id).call L id = nodeCall L id (scaffoldPreds m id) := by
  obtain ⟨c, hc⟩ := hE.entry id hid
  rw [hc]
  exact PoseNode.call_record _ (scaffoldPreds_length hid) c L id

theorem RecordsScaffold.challenge {id : Nat} (hid : id < scratchNodeCount m)
    (hrank : 0 ≤ (E.nodes id).challengeRank) :
    ∃ r < m, challengeNode m r = id ∧ (E.nodes id).challengeRank = r := by
  by_cases h : ∃ r < m, challengeNode m r = id
  · obtain ⟨r, hr, rfl⟩ := h
    exact ⟨r, hr, rfl, hE.rank r hr⟩
  · have := hE.unranked id hid fun r hr heq => h ⟨r, hr, heq⟩
    omega

theorem RecordsScaffold.sorted {id : Nat} (hid : id < scratchNodeCount m) (h2 : (E.nodes id).numPreds = 2) :
    (E.nodes id).pred0 < (E.nodes id).pred1 := by
  have hpreds := hE.preds hid
  rw [PoseNode.preds, h2] at hpreds
  rcases scaffoldPreds_cases hid with ⟨-, h⟩ | ⟨-, -, h⟩
  · rw [h] at hpreds; cases hpreds
  · rcases h.shape with ⟨p, hp⟩ | ⟨p, q, hp, hpq⟩
    · rw [hp] at hpreds; cases hpreds
    · rw [hp] at hpreds
      cases hpreds
      exact hpq

theorem RecordsScaffold.nodes_eq {E' : EdgeList} (hE' : RecordsScaffold m E') :
    ∀ id < scratchNodeCount m, E.nodes id = E'.nodes id := by
  intro id hid
  obtain ⟨c, hc⟩ := hE.entry id hid
  obtain ⟨c', hc'⟩ := hE'.entry id hid
  have hrank : (E.nodes id).challengeRank = (E'.nodes id).challengeRank := by
    by_cases h : ∃ r < m, challengeNode m r = id
    · obtain ⟨r, hr, rfl⟩ := h
      rw [hE.rank r hr, hE'.rank r hr]
    · have hne : ∀ r < m, challengeNode m r ≠ id := fun r hr heq => h ⟨r, hr, heq⟩
      rw [hE.unranked id hid hne, hE'.unranked id hid hne]
  rw [hc, hc'] at hrank ⊢
  obtain rfl : c = c' := hrank
  rfl

theorem RecordsScaffold.bijOn :
    Set.BijOn (fun id => (E.nodes id).challengeRank) {id | id < E.count ∧ 0 ≤ (E.nodes id).challengeRank}
      {r | 0 ≤ r ∧ r < (m : Int)} := by
  rw [hE.count]
  refine ⟨fun id ⟨hid, h⟩ => ?_, fun id ⟨hid, h⟩ id' ⟨hid', h'⟩ heq => ?_, fun r ⟨h0, hr⟩ => ?_⟩
  · obtain ⟨r, hr, -, hrank⟩ := hE.challenge hid h
    exact ⟨h, hrank.trans_lt (Int.ofNat_lt.mpr hr)⟩
  · obtain ⟨r, -, rfl, hrank⟩ := hE.challenge hid h
    obtain ⟨r', -, rfl, hrank'⟩ := hE.challenge hid' h'
    have : (r : Int) = r' := hrank.symm.trans (heq.trans hrank')
    rw [Int.ofNat_inj.mp this]
  · lift r to Nat using h0
    have hr' : r < m := Int.ofNat_lt.mp hr
    have hrank := hE.rank r hr'
    exact ⟨challengeNode m r, ⟨(challengeNode_half hr').1, by rw [hrank]; omega⟩, hrank⟩

end Records

theorem scaffoldPreds_half {m id : Nat} (hid : id < scratchNodeCount m) : ∀ p ∈ scaffoldPreds m id,
    (p < standaloneNodeCount (poseGraphParameterN m + 1) ↔ id < standaloneNodeCount (poseGraphParameterN m + 1)) := by
  intro p hp
  rcases scaffoldPreds_cases hid with ⟨-, h⟩ | ⟨-, -, h⟩
  · rw [h] at hp; cases hp
  · have hlt := h.lt p hp
    have horig := (h.origin p hp).resolve_right not_false
    split at horig <;> omega

/-! ## The two passes agree -/

/-- **The labeling pass derives exactly the recorded graph.** Label `id` of the buffer is the hash of the recorded
entry of `id`, the derivations are made in ascending id order, and rank `r` of the output is the label of the node
marked with `r`. -/
theorem doLabel_follows_edges {α : Type} (H : PoseHash α) (seed : α) (m : Nat) (hm : 1 ≤ m) (hmax : m ≤ poseGraphMaxM)
    (mem : Nat → α) (out : Nat) (scratch : Scratch α) (algo : PoseHashAlgo) (heap : EdgeHeap) :
    ∃ E, poseGraphEdges m (some heap) = some E ∧
      let D := doLabel H seed m mem out scratch algo
      let L := D.scratch.labels
      (∀ id < E.count,
        L id = H.label seed (H.graphDescriptor m (poseGraphParameterN m)) algo ((E.nodes id).call L id)) ∧
      D.hashed = (List.range E.count).map (fun id => (E.nodes id).call L id) ∧
      ∀ id < E.count, 0 ≤ (E.nodes id).challengeRank →
        (E.nodes id).challengeRank < m ∧ D.mem (out + (E.nodes id).challengeRank.toNat) = L id := by
  obtain ⟨E, hE, hrec⟩ := poseGraphEdges_spec hm hmax heap
  obtain ⟨-, hlab, hcalls, hmem⟩ := doLabel_spec (H := H) hm hmax seed mem out scratch algo
  refine ⟨E, hE, fun id hid => ?_, ?_, fun id hid hrank => ?_⟩
  · rw [hrec.count] at hid
    rw [hrec.call hid]
    exact hlab id (Nat.zero_le id) hid
  · rw [hcalls, hrec.count]
    exact List.map_congr_left fun id hid => (hrec.call (List.mem_range.mp hid) _).symm
  · rw [hrec.count] at hid
    obtain ⟨r, hr, hid', hrank'⟩ := hrec.challenge hid hrank
    rw [hrank', hmem, Int.toNat_natCast, store_in _ _ _ _ hr, hid']
    exact ⟨by omega, rfl⟩

theorem doLabel_follows_edges_three :
    ∃ E, poseGraphEdges 3 (some EdgeHeap.zero) = some E ∧
      (doLabel natHash 7 3 (fun _ => 0) 0 ⟨fun _ => 0, fun _ => 0⟩ .blake3).hashed = (List.range E.count).map fun id =>
        (E.nodes id).call (doLabel natHash 7 3 (fun _ => 0) 0 ⟨fun _ => 0, fun _ => 0⟩ .blake3).scratch.labels id := by
  obtain ⟨E, hE, -, hcalls, -⟩ := doLabel_follows_edges natHash 7 3 (by decide) (by decide) (fun _ => 0) 0
    ⟨fun _ => 0, fun _ => 0⟩ .blake3 EdgeHeap.zero
  exact ⟨E, hE, hcalls⟩

/-- **The recorded graph is well formed**: ids are emitted once each in ascending order, predecessors come first and
in strict order, only the first node of each half is a source, no edge joins the halves, and the ranks are a bijection
onto `0, ..., m - 1` that respects the halves. -/
theorem poseGraphEdges_wellFormed (m : Nat) (hm : 1 ≤ m) (hmax : m ≤ poseGraphMaxM) (heap : EdgeHeap) :
    ∃ E, poseGraphEdges m (some heap) = some E ∧
      E.count = 2 * standaloneNodeCount (poseGraphParameterN m + 1) ∧
      E.emitted = List.range E.count ∧
      (∀ id < E.count, ∀ p ∈ (E.nodes id).preds, p < id) ∧
      (∀ id < E.count, (E.nodes id).numPreds ≤ 2 ∧
        ((E.nodes id).numPreds = 2 → (E.nodes id).pred0 < (E.nodes id).pred1)) ∧
      (∀ id < E.count, (E.nodes id).numPreds = 0 ↔ id = 0 ∨ id = E.count / 2) ∧
      (∀ id < E.count, ∀ p ∈ (E.nodes id).preds, p < E.count / 2 ↔ id < E.count / 2) ∧
      (∀ id < E.count, (E.nodes id).challengeRank = -1 ∨ 0 ≤ (E.nodes id).challengeRank) ∧
      Set.BijOn (fun id => (E.nodes id).challengeRank) {id | id < E.count ∧ 0 ≤ (E.nodes id).challengeRank}
        {r | 0 ≤ r ∧ r < (m : Int)} ∧
      ∀ id < E.count, 0 ≤ (E.nodes id).challengeRank →
        ((E.nodes id).challengeRank < (2 ^ poseGraphParameterN m : Nat) ↔ id < E.count / 2) := by
  obtain ⟨E, hE, hrec⟩ := poseGraphEdges_spec hm hmax heap
  have hcount := hrec.count
  have hhalf : scratchNodeCount m / 2 = standaloneNodeCount (poseGraphParameterN m + 1) := by
    rw [scratchNodeCount]; omega
  have hpos := standaloneNodeCount_pos (poseGraphParameterN m + 1)
  refine ⟨E, hE, hcount, by rw [hrec.emitted, hcount], ?_⟩
  rw [hcount, hhalf]
  refine ⟨fun id hid => ?_, fun id hid => ?_, fun id hid => ?_, fun id hid => ?_, fun id hid => ?_, ?_,
    fun id hid hrank => ?_⟩
  · rw [hrec.preds hid]
    exact scaffoldPreds_lt hid
  · exact ⟨hrec.numPreds hid ▸ scaffoldPreds_length hid, hrec.sorted hid⟩
  · rw [hrec.numPreds hid]
    rcases scaffoldPreds_cases hid with ⟨h0, h⟩ | ⟨h0, hT, h⟩
    · rw [h]; exact ⟨fun _ => h0, fun _ => rfl⟩
    · have := List.length_pos_iff.mpr h.ne_nil
      omega
  · rw [hrec.preds hid]
    exact scaffoldPreds_half hid
  · by_cases h : 0 ≤ (E.nodes id).challengeRank
    · exact Or.inr h
    · exact Or.inl (hrec.unranked id hid fun r hr heq => h (by rw [← heq, hrec.rank r hr]; omega))
  · rw [← hcount]
    exact hrec.bijOn
  · obtain ⟨r, hr, rfl, hrank'⟩ := hrec.challenge hid hrank
    rw [hrank', (challengeNode_half hr).2]
    omega

theorem poseGraphEdges_wellFormed_three :
    ∃ E, poseGraphEdges 3 (some EdgeHeap.zero) = some E ∧ E.count = 22 ∧ E.emitted = List.range 22 := by
  obtain ⟨E, hE, hcount, hemit, -⟩ := poseGraphEdges_wellFormed 3 (by decide) (by decide) EdgeHeap.zero
  have hn : poseGraphParameterN 3 = 1 := by simp [poseGraphParameterN, countBits]
  have hcount' : E.count = 22 := by rw [hcount, hn]; rfl
  exact ⟨E, hE, hcount', hcount' ▸ hemit⟩

end PoseDB.Graph
