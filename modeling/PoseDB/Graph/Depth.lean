import PoseDB.Graph.Connectivity
import PoseDB.Graph.SlotMap

/-!
# The chain of base nodes

Consecutive base nodes of a copy are joined by a walk with at least one node in between: inside a half by induction,
and from the last base node of the left half to the first one of the right half through position `0` of the last layer
of a connector or center butterfly. So the challenge node of rank `r` has at least `2 * (2^n + r % 2^n)` edges below it,
its level is at least that, and its label takes one more sequential hash (`challenge_depth`).
-/

set_option autoImplicit false

namespace PoseDB.Graph
open Loops Mem Walks

/-! ## Chains in the tables -/

theorem mod_two_pow_cases (i k : Nat) : i % 2 ^ (k + 1) = i % 2 ^ k ∨ i % 2 ^ (k + 1) = i % 2 ^ k ^^^ 2 ^ k := by
  cases h : i.testBit k with
  | false =>
    refine Or.inl (Nat.eq_of_testBit_eq fun j => ?_)
    rw [Nat.testBit_mod_two_pow, Nat.testBit_mod_two_pow]
    rcases Nat.lt_trichotomy j k with hj | rfl | hj
    · rw [decide_eq_true (show j < k + 1 by omega), decide_eq_true hj]
    · rw [h, Bool.and_false, Bool.and_false]
    · rw [decide_eq_false (show ¬ j < k + 1 by omega), decide_eq_false (show ¬ j < k by omega)]
  | true =>
    refine Or.inr (Nat.eq_of_testBit_eq fun j => ?_)
    rw [Nat.testBit_xor, Nat.testBit_mod_two_pow, Nat.testBit_mod_two_pow, Nat.testBit_two_pow]
    rcases Nat.lt_trichotomy j k with hj | rfl | hj
    · rw [decide_eq_true (show j < k + 1 by omega), decide_eq_true hj, decide_eq_false (show ¬ k = j by omega),
        Bool.xor_false]
    · rw [h, decide_eq_true (Nat.lt_succ_self j), decide_eq_false (Nat.lt_irrefl j), decide_eq_true rfl]
      rfl
    · rw [decide_eq_false (show ¬ j < k + 1 by omega), decide_eq_false (show ¬ j < k by omega),
        decide_eq_false (show ¬ k = j by omega)]
      rfl

/-- A walk of a component: at least `d` vertices after `u`, all of them in `[lo, hi)`. -/
structure Chain (P : Nat → List Nat) (d lo hi u : Nat) (p : List Nat) (v : Nat) : Prop where
  trail : Trail (Arc P) u p v
  length : d ≤ p.length
  range : ∀ x ∈ p, lo ≤ x ∧ x < hi

section Chain
variable {P Q : Nat → List Nat} {d d' lo hi lo' hi' u v w : Nat} {p q : List Nat}

theorem Chain.mono (h : Chain P d lo hi u p v) (hP : ∀ x, lo ≤ x → x < hi → P x = Q x) (hlo : lo' ≤ lo)
    (hhi : hi ≤ hi') : Chain Q d lo' hi' u p v where
  trail := h.trail.mono fun a b hb hab => by
    rw [Arc, ← hP b (h.range b hb).1 (h.range b hb).2]
    exact hab
  length := h.length
  range x hx := ⟨hlo.trans (h.range x hx).1, (h.range x hx).2.trans_le hhi⟩

theorem Chain.append (h : Chain P d lo hi u p v) (h' : Chain P d' lo hi v q w) :
    Chain P (d + d') lo hi u (p ++ q) w where
  trail := h.trail.append h'.trail
  length := by
    rw [List.length_append]
    exact Nat.add_le_add h.length h'.length
  range x hx := (List.mem_append.mp hx).elim (h.range x) (h'.range x)

end Chain

/-- Every position leads to position `0` of the last layer. -/
theorem butterfly_to_zero (dim s : Nat) (first : Nat → List Nat) {i u : Nat} (hi : i < 2 ^ dim) (hu : u ∈ first i) :
    ∃ p, Chain (butterflyPreds dim s first) 1 s (s + butterflyNodeCount dim) u p (cell dim s dim 0) := by
  have hpos := Nat.two_pow_pos dim
  have hlt : ∀ l ≤ dim, i % 2 ^ (dim - l) < 2 ^ dim := fun l _ =>
    (Nat.mod_lt _ (Nat.two_pow_pos _)).trans_le (Nat.pow_le_pow_right (by decide) (by omega))
  have hroute : ∀ l < dim, i % 2 ^ (dim - l) = i % 2 ^ (dim - (l + 1)) ∨
      i % 2 ^ (dim - l) = i % 2 ^ (dim - (l + 1)) ^^^ flipBit dim (l + 1) := fun l hl => by
    rw [flipBit, show dim - l = dim - (l + 1) + 1 by omega]
    exact mod_two_pow_cases i _
  have htrail := butterfly_route (u := u) (s := s) first (fun l => i % 2 ^ (dim - l)) hlt hroute
    (by rwa [Nat.sub_zero, Nat.mod_eq_of_lt hi]) le_rfl
  simp only [Nat.sub_self, pow_zero, Nat.mod_one] at htrail
  refine ⟨_, htrail, ?_, fun x hx => ?_⟩
  · rw [List.length_map, List.length_range]
    omega
  · obtain ⟨l, hl, rfl⟩ := List.mem_map.mp hx
    have hl' : l ≤ dim := Nat.le_of_lt_succ (List.mem_range.mp hl)
    exact ⟨le_cell _ _ _ _, cell_lt hl' (hlt l hl')⟩

theorem connected_first (k s : Nat) (inp : Nat → Nat) :
    ∃ p, Chain (connectedPreds k s inp) 1 s (s + connectedNodeCount k) (inp 0) p (connectedBase k s 0) := by
  have hpos := Nat.two_pow_pos k
  refine ⟨connectedLine k s 0, connected_line inp hpos, ?_, fun x hx => ?_⟩
  · refine List.length_pos_iff.mpr fun hnil => ?_
    induction k with
    | zero => cases hnil
    | succ k ih =>
      rw [connectedLine, if_pos (Nat.two_pow_pos k)] at hnil
      exact ih (Nat.two_pow_pos k) hnil
  · obtain ⟨h1, h2, -⟩ := mem_connectedLine hpos hx
    exact ⟨h1, h2⟩

/-- Consecutive base nodes of a connected component are linked, with a node in between. -/
theorem connected_chain {k s j : Nat} (inp : Nat → Nat) (hj : j + 1 < 2 ^ k) :
    ∃ p, Chain (connectedPreds k s inp) 2 s (s + connectedNodeCount k) (connectedBase k s j) p
      (connectedBase k s (j + 1)) := by
  induction k generalizing s j inp with
  | zero => rw [pow_zero] at hj; omega
  | succ k ih =>
    have hms : mergedStart k s = s + connectedNodeCount k := rfl
    have hcr : connectedRight k s = mergedStart k s + 2 * butterflyNodeCount k := rfl
    have hcs : centerStart k (mergedStart k s) = mergedStart k s + butterflyNodeCount k := rfl
    have hend := connectedRight_add k s
    have hpos := Nat.two_pow_pos k
    rw [pow_succ] at hj
    have hleft : ∀ x, s ≤ x → x < s + connectedNodeCount k →
        connectedPreds k s inp x = connectedPreds (k + 1) s inp x := fun x _ hx => by
      rw [connectedPreds, if_pos (by omega)]
    have hright : ∀ x, connectedRight k s ≤ x → x < connectedRight k s + connectedNodeCount k →
        connectedPreds k (connectedRight k s) (mergedOut k (mergedStart k s)) x =
          connectedPreds (k + 1) s inp x := fun x hx _ => by
      rw [connectedPreds, if_neg (by omega), if_neg (by omega)]
    rw [connectedBase, connectedBase]
    rcases Nat.lt_trichotomy (j + 1) (2 ^ k) with h | h | h
    · obtain ⟨p, hp⟩ := ih inp h
      rw [if_pos (by omega), if_pos h]
      exact ⟨p, hp.mono hleft le_rfl (by omega)⟩
    · -- from the last base node of the left part through the center butterfly
      obtain ⟨p, hp⟩ := butterfly_to_zero k (centerStart k (mergedStart k s))
        (fun i => sorted2 (connectedBase k s i) (connectorOut k (mergedStart k s) i)) (show j < 2 ^ k by omega)
        (mem_sorted2.mpr (Or.inl rfl))
      obtain ⟨q, hq⟩ := connected_first k (connectedRight k s) (mergedOut k (mergedStart k s))
      rw [if_pos (by omega), if_neg (by omega), show j + 1 - 2 ^ k = 0 by omega]
      refine ⟨p ++ q, (hp.mono (fun x hx hx' => ?_) (by omega) (by omega)).append
        (hq.mono hright (by omega) (by omega))⟩
      rw [connectedPreds, if_neg (by omega), if_pos (by omega), mergedPreds, if_neg (by omega)]
    · obtain ⟨p, hp⟩ := ih (s := connectedRight k s) (j := j - 2 ^ k) (mergedOut k (mergedStart k s)) (by omega)
      rw [if_neg (by omega), if_neg (by omega), show j + 1 - 2 ^ k = j - 2 ^ k + 1 by omega]
      exact ⟨p, hp.mono hright (by omega) (by omega)⟩

/-- Consecutive base nodes of a copy are linked, with a node in between. -/
theorem standalone_chain {k s j : Nat} (hj : j + 1 < 2 ^ k) :
    ∃ p, Chain (standalonePreds k s) 2 s (s + standaloneNodeCount k) (standaloneBase k s j) p
      (standaloneBase k s (j + 1)) := by
  induction k generalizing j with
  | zero => rw [pow_zero] at hj; omega
  | succ k ih =>
    have hcs : connectorStart k s = s + standaloneNodeCount k := rfl
    have hsr : standaloneRight k s = connectorStart k s + butterflyNodeCount k := rfl
    have hend := standaloneRight_add k s
    have hpos := Nat.two_pow_pos k
    rw [pow_succ] at hj
    have hright : ∀ x, standaloneRight k s ≤ x → x < standaloneRight k s + connectedNodeCount k →
        connectedPreds k (standaloneRight k s) (connectorOut k (connectorStart k s)) x =
          standalonePreds (k + 1) s x := fun x hx _ => by
      rw [standalonePreds, if_neg (by omega), if_neg (by omega)]
    rw [standaloneBase, standaloneBase]
    rcases Nat.lt_trichotomy (j + 1) (2 ^ k) with h | h | h
    · obtain ⟨p, hp⟩ := ih h
      rw [if_pos (by omega), if_pos h]
      refine ⟨p, hp.mono (fun x _ hx => ?_) le_rfl (by omega)⟩
      rw [standalonePreds, if_pos (by omega)]
    · -- from the last base node of the left part through the connector
      obtain ⟨p, hp⟩ := butterfly_to_zero k (connectorStart k s) (fun i => [standaloneBase k s i])
        (show j < 2 ^ k by omega) (List.mem_singleton.mpr rfl)
      obtain ⟨q, hq⟩ := connected_first k (standaloneRight k s) (connectorOut k (connectorStart k s))
      rw [if_pos (by omega), if_neg (by omega), show j + 1 - 2 ^ k = 0 by omega]
      refine ⟨p ++ q, (hp.mono (fun x hx hx' => ?_) (by omega) (by omega)).append
        (hq.mono hright (by omega) (by omega))⟩
      rw [standalonePreds, if_neg (by omega), if_pos (by omega), connectorPreds]
    · obtain ⟨p, hp⟩ := connected_chain (k := k) (s := standaloneRight k s) (j := j - 2 ^ k)
        (connectorOut k (connectorStart k s)) (by omega)
      rw [if_neg (by omega), if_neg (by omega), show j + 1 - 2 ^ k = j - 2 ^ k + 1 by omega]
      exact ⟨p, hp.mono hright (by omega) (by omega)⟩

/-! ## Hashes one after the other -/

/-- A label as the tree of the hash calls that derive it: a hash without collisions. -/
inductive SymLabel where
  | block (i : Nat)
  | node (isSource : Bool) (nodeIndex : Nat) (pred0 pred1 : Option SymLabel) (seed desc : SymLabel)
    (algo : PoseHashAlgo)

def symHash : PoseHash SymLabel where
  labelNode := .node
  graphDescriptor m n := .block (m + n)
  chunkSeed _ i := .block i

/-- What can be known after `t` rounds, when a round makes any number of hash calls on what was known before it. -/
inductive Known : Nat → SymLabel → Prop where
  | block (t i : Nat) : Known t (.block i)
  | node {t : Nat} {isSource : Bool} {id : Nat} {pred0 pred1 : Option SymLabel} {seed desc : SymLabel}
    {algo : PoseHashAlgo} (h0 : ∀ x ∈ pred0, Known t x) (h1 : ∀ x ∈ pred1, Known t x) :
    Known (t + 1) (.node isSource id pred0 pred1 seed desc algo)
  | wait {t : Nat} {x : SymLabel} (h : Known t x) : Known (t + 1) x

theorem Known.level_lt {P : Nat → List Nat} {N : Nat} {L : Nat → SymLabel} (level : Nat → Nat) {seed desc : SymLabel}
    {algo : PoseHashAlgo} (hL : LabeledBy (symHash.label seed desc algo) P 0 N L)
    (hP : ∀ id < N, (P id).length ≤ 2 ∧ ∀ p ∈ P id, p < N)
    (hlevel : ∀ id < N, ∀ b, (∀ p ∈ P id, level p < b) → level id ≤ b) {t : Nat} {x : SymLabel} (h : Known t x) :
    ∀ id < N, L id = x → level id < t := by
  induction h with
  | block t i =>
    intro id hid hx
    rw [hL id (Nat.zero_le id) hid] at hx
    cases hx
  | @node t _ _ _ _ _ _ _ _ _ ih0 ih1 =>
    intro id hid hx
    rw [hL id (Nat.zero_le id) hid] at hx
    obtain ⟨-, -, rfl, rfl, -⟩ := SymLabel.node.inj hx
    refine Nat.lt_succ_of_le (hlevel id hid t fun p hp => ?_)
    obtain ⟨h2, hlt⟩ := hP id hid
    obtain ⟨j, hj, rfl⟩ := List.mem_iff_getElem.mp hp
    rcases (show j = 0 ∨ j = 1 by omega) with rfl | rfl
    · exact ih0 (L (P id)[0]) (by rw [nodeCall, List.getElem?_eq_getElem hj]; rfl) _ (hlt _ hp) rfl
    · exact ih1 (L (P id)[1]) (by rw [nodeCall, List.getElem?_eq_getElem hj]; rfl) _ (hlt _ hp) rfl
  | wait _ ih => exact fun id hid hx => Nat.lt_succ_of_lt (ih id hid hx)

/-! ## The recorded graph -/

section Records
variable {m : Nat} {E : EdgeList} (hE : RecordsScaffold m E)
include hE

/-- The chain from base node `0` to the challenge node of rank `r`. -/
theorem RecordsScaffold.chain {r : Nat} (hr : r < m) :
    let base := E.ownBase m (challengeNode m r)
    let i := 2 ^ poseGraphParameterN m + r % 2 ^ poseGraphParameterN m
    (∃ seg : Nat → List Nat, ∀ j < i, Trail E.Edge (base j) (seg j) (base (j + 1)) ∧ 2 ≤ (seg j).length) ∧
      base i = challengeNode m r := by
  have hmod : r % 2 ^ poseGraphParameterN m < 2 ^ poseGraphParameterN m := Nat.mod_lt _ (Nat.two_pow_pos _)
  have hpow : 2 ^ (poseGraphParameterN m + 1) = 2 * 2 ^ poseGraphParameterN m := by rw [pow_succ]; omega
  intro base i
  refine ⟨?_, (hE.ownBase hr (by omega)).trans (challengeNode_eq hr).symm⟩
  have hseg : ∀ j, ∃ p, j < i → Trail E.Edge (base j) p (base (j + 1)) ∧ 2 ≤ p.length := fun j => by
    by_cases hj : j < i
    · obtain ⟨p, hp⟩ := standalone_chain (k := poseGraphParameterN m + 1) (s := copyStart m r) (j := j) (by omega)
      rw [← hE.ownBase hr (by omega), ← hE.ownBase hr (by omega)] at hp
      exact ⟨p, fun _ => ⟨hE.trail hp.trail hp.range, hp.length⟩⟩
    · exact ⟨[], fun h => absurd h hj⟩
  choose seg hseg using hseg
  exact ⟨seg, hseg⟩

theorem RecordsScaffold.challenge_level {r : Nat} (hr : r < m) {level : Nat → Nat}
    (hlevel : IsLevelling E.nodes E.count level) :
    2 * (2 ^ poseGraphParameterN m + r % 2 ^ poseGraphParameterN m) ≤ level (challengeNode m r) := by
  obtain ⟨⟨seg, hseg⟩, hend⟩ := hE.chain hr
  have hlen : ∀ l, l ≤ 2 ^ poseGraphParameterN m + r % 2 ^ poseGraphParameterN m →
      2 * l ≤ ((List.range l).flatMap seg).length := fun l hl => by
    induction l with
    | zero => exact Nat.zero_le _
    | succ l ih =>
      have := (hseg l hl).2
      have := ih (by omega)
      rw [List.range_succ, List.flatMap_append, List.flatMap_singleton, List.length_append]
      omega
  have htrail : Trail E.Edge _ _ _ := Trail.flatMap fun j hj => (hseg j hj).1
  rw [hend] at htrail
  have hrise := htrail.length_le (f := level) fun p id _ hedge => hlevel.lt hE.descends hedge.1 hedge.2
  have := hlen _ le_rfl
  omega

end Records

/-- **Depth of the challenge labels.** The challenge node of rank `r` is base node `i = 2^n + r % 2^n` of its copy; the
base nodes `0, ..., i` lie on one path with a further node between any two, so the slot map gives it a level of at least
`2 * i`, and no number of parallel hash calls derives its label in fewer than `2 * i + 1` rounds. -/
theorem challenge_depth (m : Nat) (hm : 1 ≤ m) (hmax : m ≤ poseGraphMaxM) (heap : EdgeHeap)
    (levels : (Nat → Nat) × (Nat → Nat)) (sort : SortHeap) (slotOut : Nat → Nat) (poolSizeOut : Nat) :
    ∃ E S, poseGraphEdges m (some heap) = some E ∧
      poseGraphSlotMap m (some slotOut) (some poolSizeOut) ⟨some heap, some levels, some sort⟩ = some S ∧
      ∀ r < m, ∃ c < E.count, (E.nodes c).challengeRank = r ∧
        let base := E.ownBase m c
        let i := 2 ^ poseGraphParameterN m + r % 2 ^ poseGraphParameterN m
        (∃ seg : Nat → List Nat, ∀ j < i, Trail E.Edge (base j) (seg j) (base (j + 1)) ∧ 2 ≤ (seg j).length) ∧
          base i = c ∧ 2 * i ≤ S.level c ∧
          ∀ (seed : SymLabel) (mem : Nat → SymLabel) (out : Nat) (scratch : Scratch SymLabel) (algo : PoseHashAlgo)
            (t : Nat), Known t ((doLabel symHash seed m mem out scratch algo).mem (out + r)) → 2 * i + 1 ≤ t := by
  have hres : resolveChunkBlocks m = m := if_pos (by omega)
  obtain ⟨E, S, hE, hrec, hS, hfit⟩ := poseGraphSlotMap_spec (c := m) (by rwa [hres]) (by rwa [hres]) slotOut poolSizeOut
    heap levels sort
  rw [hres] at hE hrec
  refine ⟨E, S, hE, hS, fun r hr => ?_⟩
  have hc := (challengeNode_half hr).1
  have hlevel := hrec.challenge_level hr hfit.levelling
  refine ⟨challengeNode m r, hrec.count ▸ hc, hrec.rank r hr, (hrec.chain hr).1, (hrec.chain hr).2, hlevel,
    fun seed mem out scratch algo t hknown => ?_⟩
  obtain ⟨-, hlab, -, hmem⟩ := doLabel_spec (H := symHash) hm hmax seed mem out scratch algo
  rw [hmem, store_in _ _ _ _ hr] at hknown
  have hlt := hknown.level_lt S.level hlab
    (fun id hid => ⟨scaffoldPreds_length hid, fun p hp => (scaffoldPreds_lt hid p hp).trans hid⟩)
    (fun id hid b hb => by
      have hid' : id < E.count := hrec.count ▸ hid
      rw [hfit.levelling id hid']
      exact levelOf_le (hrec.descends id hid').1 (by rwa [hrec.preds hid])) _ hc rfl
  omega

theorem challenge_depth_three :
    ∃ E S, poseGraphEdges 3 (some EdgeHeap.zero) = some E ∧
      poseGraphSlotMap 3 (some fun _ => 0) (some 0)
        ⟨some EdgeHeap.zero, some (fun _ => 0, fun _ => 0), some SortHeap.zero⟩ = some S ∧
      ∃ c < E.count, (E.nodes c).challengeRank = 1 ∧ 6 ≤ S.level c := by
  have hn : poseGraphParameterN 3 = 1 := by simp [poseGraphParameterN, countBits]
  obtain ⟨E, S, hE, hS, h⟩ := challenge_depth 3 (by decide) (by decide) EdgeHeap.zero (fun _ => 0, fun _ => 0)
    SortHeap.zero (fun _ => 0) 0
  obtain ⟨c, hc, hrank, -, -, hlevel, -⟩ := h 1 (by decide)
  rw [hn] at hlevel
  exact ⟨E, S, hE, hS, c, hc, hrank, hlevel⟩

end PoseDB.Graph
