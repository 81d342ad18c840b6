import PoseDB.Graph.Edges
import PoseDB.Graph.Lines
import Mathlib.Logic.Relation

/-!
# Connectivity under deletions

However nodes are deleted from the recorded graph, every deletion costs at most one challenge node its paths from the
first half of the base nodes of its copy, and inside every `emit_connected` component at most one index its path from
input to base node (`poseGraphEdges_connectivity`). `EmitCall.Makes` is the call tree of the recursion, so the second
part speaks of every call of `emit_connected` that the edge-recording pass makes.
-/

set_option autoImplicit false

namespace PoseDB.Graph
open Loops Mem Walks Scheme.Follows

/-! ## The calls of the recursion -/

/-- A call of `emit_standalone` or `emit_connected`, with the state it is made in. -/
inductive EmitCall (α : Type) where
  | standalone (e : Emitter α) (level baseOut : Nat)
  | connected (e : Emitter α) (level inputs baseOut : Nat)

section Calls
variable {α : Type} (H : PoseHash α)

/-- The three `arena_alloc` calls of a recursive component. -/
def Emitter.alloc3 (e : Emitter α) (half : Nat) : Emitter α :=
  (((e.arenaAlloc half).2.arenaAlloc half).2.arenaAlloc half).2

/-- `emit_standalone` before its second recursive call. -/
def standaloneMiddle (e : Emitter α) (level : Nat) : Emitter α :=
  emitConnector H (emitStandalone H (e.alloc3 (2 ^ level)) level e.top) level e.top (e.top + 2 ^ level)

/-- `emit_connected` before its second recursive call. -/
def connectedMiddle (e : Emitter α) (level inputs : Nat) : Emitter α :=
  emitMergedCenterIngress H (emitConnected H (e.alloc3 (2 ^ level)) level (2 ^ level) inputs e.top) level e.top
    (inputs + 2 ^ level) (e.top + 2 ^ level)

/-- The recursive calls that a call makes. -/
inductive EmitCall.Makes : EmitCall α → EmitCall α → Prop where
  | standaloneLeft (e : Emitter α) (level baseOut : Nat) :
    Makes (.standalone e (level + 1) baseOut) (.standalone (e.alloc3 (2 ^ level)) level e.top)
  | standaloneRight (e : Emitter α) (level baseOut : Nat) :
    Makes (.standalone e (level + 1) baseOut)
      (.connected (standaloneMiddle H e level) level (e.top + 2 ^ level) (e.top + 2 ^ level + 2 ^ level))
  | connectedLeft (e : Emitter α) (level inputs baseOut : Nat) :
    Makes (.connected e (level + 1) inputs baseOut) (.connected (e.alloc3 (2 ^ level)) level inputs e.top)
  | connectedRight (e : Emitter α) (level inputs baseOut : Nat) :
    Makes (.connected e (level + 1) inputs baseOut)
      (.connected (connectedMiddle H e level inputs) level (e.top + 2 ^ level) (e.top + 2 ^ level + 2 ^ level))

end Calls

/-- The emitter at the start of `pose_graph_edges`. -/
def edgeStart (m : Nat) (heap : EdgeHeap) : Emitter Unit :=
  let n := poseGraphParameterN m
  edgeEmitter (loop (scratchNodeCount m) (fun i nodes => Function.update nodes i ⟨0, 0, 0, -1⟩) heap.nodes) heap.ids
    (0 + 2 * 2 ^ n + 2 * 2 ^ n) (poseArenaFactor * 2 ^ n)

/-- The calls made while `pose_graph_edges` runs: those below its two calls of `emit_standalone`. -/
def EdgesCalls (m : Nat) (heap : EdgeHeap) (c : EmitCall Unit) : Prop :=
  let level := poseGraphParameterN m + 1
  let e := edgeStart m heap
  Relation.ReflTransGen (EmitCall.Makes noHash) (.standalone e level 0) c ∨
    Relation.ReflTransGen (EmitCall.Makes noHash)
      (.standalone (emitStandalone noHash e level 0) level (0 + 2 * 2 ^ poseGraphParameterN m)) c

section Args
variable {α : Type} {H : PoseHash α} {G : Nat → List Nat} {N : Nat}

/-- What a call is given, when the emitter follows the table `G`. -/
def EmitCall.Args (H : PoseHash α) (G : Nat → List Nat) (N : Nat) : EmitCall α → Prop
  | .standalone e level baseOut => (emitFollows H G N).StandaloneArgs e level baseOut
  | .connected e level inputs baseOut => ∃ inp, (emitFollows H G N).ConnectedArgs e level inputs baseOut inp

theorem EmitCall.Makes.args {c c' : EmitCall α} (hc : Makes H c c') (h : c.Args H G N) : c'.Args H G N := by
  have halloc : ∀ (e : Emitter α) level,
      e.alloc3 (2 ^ level) = (emitScheme H).alloc (2 ^ level + 2 ^ level + 2 ^ level) e := fun e level =>
    alloc3_eq e (Nat.two_pow_pos level)
  cases hc with
  | standaloneLeft e level baseOut =>
    rw [halloc]
    exact h.left
  | standaloneRight e level baseOut =>
    have hl := standalone_emits h.left
    rw [nextId_alloc] at hl
    rw [standaloneMiddle, halloc, emitStandalone_eq, emitConnector_eq, Nat.add_assoc e.top]
    exact ⟨_, (h.right hl (h.connector hl)).2⟩
  | connectedLeft e level inputs baseOut =>
    obtain ⟨inp, h⟩ := h
    rw [halloc]
    exact ⟨inp, h.left⟩
  | connectedRight e level inputs baseOut =>
    obtain ⟨inp, h⟩ := h
    have hl := connected_emits h.left
    rw [nextId_alloc] at hl
    rw [connectedMiddle, halloc, emitConnected_eq, emitMergedCenterIngress_eq, Nat.add_assoc e.top]
    exact ⟨_, (h.right hl (h.merged hl)).2⟩

theorem EmitCall.Args.reach {c c' : EmitCall α} (h : c.Args H G N)
    (hc : Relation.ReflTransGen (EmitCall.Makes H) c c') : c'.Args H G N := by
  induction hc with
  | refl => exact h
  | tail _ hmake ih => exact hmake.args ih

end Args

/-- Every call made while `pose_graph_edges` runs emits a component of the graph. -/
theorem EdgesCalls.args {m : Nat} {heap : EdgeHeap} {c : EmitCall Unit} (h : EdgesCalls m heap c) :
    c.Args noHash (scaffoldPreds m) (scratchNodeCount m) := by
  have hpow : 2 ^ (poseGraphParameterN m + 1) = 2 * 2 ^ poseGraphParameterN m := by rw [pow_succ]; omega
  have hM : (edgeStart m heap).core.OneMode := fun h => by cases h
  have hnext0 : (edgeStart m heap).nextId = 0 := rfl
  have htop0 : (edgeStart m heap).top = 0 + 2 * 2 ^ poseGraphParameterN m + 2 * 2 ^ poseGraphParameterN m := rfl
  have htotal : scratchNodeCount m = standaloneNodeCount (poseGraphParameterN m + 1) +
      standaloneNodeCount (poseGraphParameterN m + 1) := Nat.two_mul _
  revert hM hnext0 htop0 h
  rw [EdgesCalls]
  generalize edgeStart m heap = e
  intro h hM hnext0 htop0
  have hleft : (emitFollows noHash (scaffoldPreds m) (scratchNodeCount m)).StandaloneArgs e
      (poseGraphParameterN m + 1) 0 := by
    refine ⟨hM, ?_, fun i hi => ?_, ?_⟩
    · show e.nextId + _ ≤ _
      omega
    · show scaffoldPreds m (e.nextId + i) = standalonePreds _ e.nextId (e.nextId + i)
      rw [hnext0, scaffoldPreds, if_pos (by omega)]
    · show _ ≤ e.top
      omega
  rcases h with h | h
  · exact EmitCall.Args.reach (c := .standalone _ _ _) hleft h
  · have hran := (standalone_emits hleft).toRan
    have hnext : (emitFollows noHash (scaffoldPreds m) (scratchNodeCount m)).nextId
        ((emitScheme noHash).standalone e (poseGraphParameterN m + 1) 0) =
          standaloneNodeCount (poseGraphParameterN m + 1) := hran.nextId.trans (by
      rw [show (emitFollows noHash _ _).nextId e = 0 from hnext0, Nat.zero_add])
    rw [emitStandalone_eq] at h
    refine EmitCall.Args.reach (c := .standalone _ _ _) ⟨hran.ok hM, by omega, fun i _ => ?_, ?_⟩ h
    · rw [hnext, scaffoldPreds, if_neg (by omega)]
    · rw [hran.top, show (emitScheme noHash).top e = _ from htop0]
      omega

/-! ## Paths of the recorded graph -/

section Records
variable {m : Nat} {E : EdgeList} (hE : RecordsScaffold m E)
include hE

theorem RecordsScaffold.edge {p id : Nat} (hid : id < scratchNodeCount m) (hp : p ∈ scaffoldPreds m id) :
    E.Edge p id := ⟨hE.count ▸ hid, hE.preds hid ▸ hp⟩

theorem RecordsScaffold.ownBase {r i : Nat} (hr : r < m) (hi : i < 2 ^ (poseGraphParameterN m + 1)) :
    E.ownBase m (challengeNode m r) i = standaloneBase (poseGraphParameterN m + 1) (copyStart m r) i := by
  rw [EdgeList.ownBase, hE.rank r hr, copyStart]
  by_cases h : r < 2 ^ poseGraphParameterN m
  · rw [if_pos (by omega), if_pos h, hE.leftBase i hi]
  · rw [if_neg (by omega), if_neg h, hE.rightBase i hi]

theorem RecordsScaffold.trail {r u v : Nat} {p : List Nat}
    (h : Trail (Arc (standalonePreds (poseGraphParameterN m + 1) (copyStart m r))) u p v)
    (hp : ∀ x ∈ p, copyStart m r ≤ x ∧ x < copyStart m r + standaloneNodeCount (poseGraphParameterN m + 1)) :
    Trail E.Edge u p v :=
  h.mono fun a b hb hab => by
    obtain ⟨hlo, hhi⟩ := hp b hb
    obtain ⟨hlt, hpreds⟩ := scaffoldPreds_copy hlo hhi
    exact hE.edge hlt (hpreds ▸ hab)

/-- At most `R.card` challenge nodes lose the first half of their base nodes. -/
theorem RecordsScaffold.challenge_lost (R : Finset Nat) (lost : Nat → Prop) [DecidablePred lost]
    (hlost : ∀ r < m, lost r → ∀ i < 2 ^ poseGraphParameterN m,
      ¬ Linked E.Edge R (E.ownBase m (challengeNode m r) i) (challengeNode m r)) :
    ((Finset.range m).filter lost).card ≤ R.card := by
  have hpos := Nat.two_pow_pos (poseGraphParameterN m)
  have hpow : 2 ^ (poseGraphParameterN m + 1) = 2 * 2 ^ poseGraphParameterN m := by rw [pow_succ]; omega
  have hmod : ∀ r, r % 2 ^ poseGraphParameterN m < 2 ^ poseGraphParameterN m := fun r => Nat.mod_lt _ hpos
  have hbase : ∀ r, standaloneBase (poseGraphParameterN m) (copyStart m r) (r % 2 ^ poseGraphParameterN m) =
      standaloneBase (poseGraphParameterN m + 1) (copyStart m r) (r % 2 ^ poseGraphParameterN m) := fun r => by
    rw [standaloneBase, if_pos (hmod r)]
  refine card_lost_le (u := fun r => standaloneBase (poseGraphParameterN m) (copyStart m r)
      (r % 2 ^ poseGraphParameterN m)) (v := challengeNode m)
    (fun r => standaloneLine (poseGraphParameterN m) (copyStart m r) (r % 2 ^ poseGraphParameterN m)) R
    (fun r hr => (?_ : Trail E.Edge _ _ _)) (fun x _ r hr r' hr' hx hx' => ?_) fun r hr hl => ?_
  · rw [challengeNode_eq (Finset.mem_range.mp hr)]
    exact hE.trail (standalone_line (hmod r)) fun x hx => standaloneLine_range (hmod r) (List.mem_cons_of_mem _ hx)
  · have hr := Finset.mem_range.mp hr
    have hr' := Finset.mem_range.mp hr'
    obtain ⟨hlo, hhi⟩ := standaloneLine_range (hmod r) hx
    obtain ⟨hlo', hhi'⟩ := standaloneLine_range (hmod r') hx'
    have hhalf := copyStart_unique hlo hhi hlo' hhi'
    rw [show copyStart m r = copyStart m r' by simp only [copyStart, hhalf]] at hx
    have hline := standaloneLine_disjoint (hmod r) (hmod r') hx hx'
    exact rank_eq_of_half hr hr' hhalf hline
  · rw [hbase, ← hE.ownBase (Finset.mem_range.mp hr) (by have := hmod r; omega)]
    exact hlost r (Finset.mem_range.mp hr) hl _ (hmod r)

theorem RecordsScaffold.connected_lost {e : Emitter Unit} {k inputs out : Nat} {inp : Nat → Nat}
    (h : (emitFollows noHash (scaffoldPreds m) (scratchNodeCount m)).ConnectedArgs e k inputs out inp)
    {R : Finset Nat} (hR : ∀ x ∈ R, e.nextId ≤ x) {lost : Nat → Prop} [DecidablePred lost]
    (hlost : ∀ j < 2 ^ k, lost j →
      ¬ Linked E.Edge R (e.mem (inputs + j)) ((emitConnected noHash e k (2 ^ k) inputs out).mem (out + j))) :
    ((Finset.range (2 ^ k)).filter lost).card ≤ R.card := by
  have hout := (connected_emits h).out
  rw [← emitConnected_eq] at hout
  refine card_lost_le (fun j => connectedLine k e.nextId j) R (fun j hj => ?_)
    (fun x hx i hi j hj hxi hxj => ?_) fun j hj hl => hlost j (Finset.mem_range.mp hj) hl
  · have hj := Finset.mem_range.mp hj
    have hin : e.mem (inputs + j) = inp j := h.held j hj
    have hbase : (emitConnected noHash e k (2 ^ k) inputs out).mem (out + j) = connectedBase k e.nextId j := hout j hj
    rw [hin, hbase]
    refine (connected_line inp hj).mono fun a b hb hab => ?_
    obtain ⟨hlo, hhi, -⟩ := mem_connectedLine hj hb
    have hN : e.nextId + connectedNodeCount k ≤ scratchNodeCount m := h.bound
    have htable : scaffoldPreds m (e.nextId + (b - e.nextId)) =
        connectedPreds k e.nextId inp (e.nextId + (b - e.nextId)) := h.table (b - e.nextId) (by omega)
    rw [show e.nextId + (b - e.nextId) = b by omega] at htable
    exact hE.edge (by omega) (htable ▸ hab)
  · have hold : ∀ j < 2 ^ k, e.mem (inputs + j) < e.nextId := fun j hj => by
      have hin : e.mem (inputs + j) = inp j := h.held j hj
      rw [hin]
      exact h.older j hj
    have hline : ∀ j ∈ Finset.range (2 ^ k), x ∈ e.mem (inputs + j) :: connectedLine k e.nextId j →
        connectedOwner k e.nextId x = j := fun j hj hxj => by
      have hj := Finset.mem_range.mp hj
      rcases List.mem_cons.mp hxj with hxj | hxj
      · have := hR x hx
        have := hold j hj
        omega
      · exact (mem_connectedLine hj hxj).2.2
    exact (hline i hi hxi).symm.trans (hline j hj hxj)

end Records

open Classical in
/-- **Every deleted node costs at most one challenge node its base nodes.** However the nodes of `R` are chosen, at most
`R.card` challenge nodes are reached from no base node of the first half of their copy any more; and in every call of
`emit_connected` that `pose_graph_edges` makes, all but `R.card` indices keep a path from input to base node when the
nodes `R` of the component are deleted. -/
theorem poseGraphEdges_connectivity (m : Nat) (hm : 1 ≤ m) (hmax : m ≤ poseGraphMaxM) (heap : EdgeHeap) :
    ∃ E, poseGraphEdges m (some heap) = some E ∧
      (∀ R : Finset Nat,
        ((Finset.range E.count).filter fun c => 0 ≤ (E.nodes c).challengeRank ∧
          ¬ ∃ i < 2 ^ poseGraphParameterN m, Linked E.Edge R (E.ownBase m c i) c).card ≤ R.card) ∧
      ∀ e k inputs out, EdgesCalls m heap (.connected e k inputs out) →
        ∀ R : Finset Nat, (∀ x ∈ R, e.nextId ≤ x ∧ x < e.nextId + connectedNodeCount k) →
          2 ^ k - R.card ≤ ((Finset.range (2 ^ k)).filter fun j =>
            Linked E.Edge R (e.mem (inputs + j)) ((emitConnected noHash e k (2 ^ k) inputs out).mem (out + j))).card := by
  obtain ⟨E, hE, hrec⟩ := poseGraphEdges_spec hm hmax heap
  refine ⟨E, hE, fun R => ?_, fun e k inputs out hcall R hR => ?_⟩
  · have hlost := hrec.challenge_lost R (fun r => ¬ ∃ i < 2 ^ poseGraphParameterN m,
      Linked E.Edge R (E.ownBase m (challengeNode m r) i) (challengeNode m r)) fun r _ hl i hi hlink => hl ⟨i, hi, hlink⟩
    refine (Finset.card_le_card_of_surjOn (challengeNode m) fun c hc => ?_).trans hlost
    obtain ⟨hcount, hrank, hl⟩ := by simpa using hc
    obtain ⟨r, hr, rfl, -⟩ := hrec.challenge (hrec.count ▸ hcount) hrank
    exact ⟨r, by simpa using ⟨hr, hl⟩, rfl⟩
  · obtain ⟨inp, h⟩ := hcall.args
    have hlost := hrec.connected_lost h (R := R) (fun x hx => (hR x hx).1) fun j _ hl => hl
    have hsplit := Finset.card_filter_add_card_filter_not (s := Finset.range (2 ^ k)) fun j =>
      Linked E.Edge R (e.mem (inputs + j)) ((emitConnected noHash e k (2 ^ k) inputs out).mem (out + j))
    rw [Finset.card_range] at hsplit
    omega

open Classical in
theorem poseGraphEdges_connectivity_three :
    ∃ E, poseGraphEdges 3 (some EdgeHeap.zero) = some E ∧
      ((Finset.range E.count).filter fun c => 0 ≤ (E.nodes c).challengeRank ∧
        ¬ ∃ i < 2 ^ poseGraphParameterN 3, Linked E.Edge {5} (E.ownBase 3 c i) c).card ≤ 1 := by
  obtain ⟨E, hE, hlost, -⟩ := poseGraphEdges_connectivity 3 (by decide) (by decide) EdgeHeap.zero
  exact ⟨E, hE, hlost {5}⟩

end PoseDB.Graph
