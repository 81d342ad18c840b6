import PoseDB.Lib.Walk
import PoseDB.Graph.Shape

/-!
# Straight lines

In a butterfly every node has the node of the previous layer at the same position among its predecessors, so position
`i` is a walk from input `i` to output `i`, and positions are disjoint. Through the recursion this gives one walk from
input `j` to base node `j` of a connected component for every `j` (`connected_line`), and one walk from each base node
of the first half to the base node `2^n` places after it (`standalone_line`). The owner functions name the line a node
lies on, so lines are disjoint.
-/

set_option autoImplicit false

namespace PoseDB.Graph
open Walks

/-- `p` is a predecessor of `id` in the table. -/
def Arc (P : Nat → List Nat) (p id : Nat) : Prop := p ∈ P id

section Butterfly
variable {dim s i u : Nat} {first : Nat → List Nat}

theorem mem_sorted2 {a b x : Nat} : x ∈ sorted2 a b ↔ x = a ∨ x = b := by
  simp only [sorted2, List.mem_cons, List.not_mem_nil, or_false]
  omega

/-- A walk that at every layer stays at its position or flips the bit of the layer. -/
theorem butterfly_route (first : Nat → List Nat) (route : Nat → Nat) (hlt : ∀ l ≤ dim, route l < 2 ^ dim)
    (hroute : ∀ l < dim, route l = route (l + 1) ∨ route l = route (l + 1) ^^^ flipBit dim (l + 1))
    (hu : u ∈ first (route 0)) {n : Nat} (hn : n ≤ dim) :
    Trail (Arc (butterflyPreds dim s first)) u ((List.range (n + 1)).map fun l => cell dim s l (route l))
      (cell dim s n (route n)) := by
  induction n with
  | zero =>
    refine Trail.one ?_
    show u ∈ butterflyPreds dim s first (cell dim s 0 (route 0))
    rw [cell_zero, butterflyPreds_first first (hlt 0 hn)]
    exact hu
  | succ n ih =>
    rw [List.range_succ, List.map_append]
    refine (ih (by omega)).snoc ?_
    rw [Arc, butterflyPreds_layer first (hlt _ hn), mem_sorted2]
    rcases hroute n hn with h | h <;> rw [h]
    · exact Or.inl rfl
    · exact Or.inr rfl

/-- The walk along position `i`. -/
def butterflyLine (dim s i : Nat) : List Nat := (List.range (dim + 1)).map fun l => cell dim s l i

theorem butterfly_line (hi : i < 2 ^ dim) (hu : u ∈ first i) :
    Trail (Arc (butterflyPreds dim s first)) u (butterflyLine dim s i) (cell dim s dim i) :=
  butterfly_route _ (fun _ => i) (fun _ _ => hi) (fun _ _ => Or.inl rfl) hu le_rfl

theorem mem_butterflyLine {x : Nat} (hi : i < 2 ^ dim) (hx : x ∈ butterflyLine dim s i) :
    s ≤ x ∧ x < s + butterflyNodeCount dim ∧ (x - s) % 2 ^ dim = i := by
  obtain ⟨l, hl, rfl⟩ := List.mem_map.mp hx
  have hl' : l ≤ dim := Nat.le_of_lt_succ (List.mem_range.mp hl)
  exact ⟨le_cell _ _ _ _, cell_lt hl' hi, (cell_layer hi).2⟩

end Butterfly

/-! ## Lines of a connected component -/

def mergedLine (dim s i : Nat) : List Nat := butterflyLine dim s i ++ butterflyLine dim (centerStart dim s) i

theorem merged_line {dim s i : Nat} (prim ing : Nat → Nat) (hi : i < 2 ^ dim) :
    Trail (Arc (mergedPreds dim s prim ing)) (ing i) (mergedLine dim s i) (mergedOut dim s i) := by
  have hin : Trail (Arc (connectorPreds dim s ing)) (ing i) (butterflyLine dim s i) (connectorOut dim s i) :=
    butterfly_line hi (List.mem_singleton.mpr rfl)
  have hctr : Trail (Arc (butterflyPreds dim (centerStart dim s) fun i => sorted2 (prim i) (connectorOut dim s i)))
      (connectorOut dim s i) (butterflyLine dim (centerStart dim s) i) (mergedOut dim s i) :=
    butterfly_line hi (mem_sorted2.mpr (Or.inr rfl))
  refine (hin.mono fun a b hb h => ?_).append (hctr.mono fun a b hb h => ?_)
  · obtain ⟨h1, h2, -⟩ := mem_butterflyLine hi hb
    rw [Arc, show b = s + (b - s) by omega, mergedPreds_ingress _ _ (by omega), ← show b = s + (b - s) by omega]
    exact h
  · obtain ⟨h1, -, -⟩ := mem_butterflyLine hi hb
    rw [Arc, mergedPreds, if_neg (by omega)]
    exact h

def mergedOwner (dim s id : Nat) : Nat :=
  if id < centerStart dim s then (id - s) % 2 ^ dim else (id - centerStart dim s) % 2 ^ dim

theorem mem_mergedLine {dim s i x : Nat} (hi : i < 2 ^ dim) (hx : x ∈ mergedLine dim s i) :
    s ≤ x ∧ x < s + 2 * butterflyNodeCount dim ∧ mergedOwner dim s x = i := by
  have hcs : centerStart dim s = s + butterflyNodeCount dim := rfl
  rcases List.mem_append.mp hx with hx | hx
  · obtain ⟨h1, h2, h3⟩ := mem_butterflyLine hi hx
    exact ⟨h1, by omega, by rw [mergedOwner, if_pos (by omega), h3]⟩
  · obtain ⟨h1, h2, h3⟩ := mem_butterflyLine hi hx
    exact ⟨by omega, by omega, by rw [mergedOwner, if_neg (by omega), h3]⟩

/-- The nodes on the way from input `j` to base node `j`. -/
def connectedLine : (k s j : Nat) → List Nat
  | 0, s, _ => [s]
  | k + 1, s, j =>
    if j < 2 ^ k then connectedLine k s j
    else mergedLine k (mergedStart k s) (j - 2 ^ k) ++ connectedLine k (connectedRight k s) (j - 2 ^ k)

/-- The line that a node of a connected component lies on. -/
def connectedOwner : (k s id : Nat) → Nat
  | 0, _, _ => 0
  | k + 1, s, id =>
    if id < mergedStart k s then connectedOwner k s id
    else if id < connectedRight k s then 2 ^ k + mergedOwner k (mergedStart k s) id
    else 2 ^ k + connectedOwner k (connectedRight k s) id

theorem mem_connectedLine {k s j x : Nat} (hj : j < 2 ^ k) (hx : x ∈ connectedLine k s j) :
    s ≤ x ∧ x < s + connectedNodeCount k ∧ connectedOwner k s x = j := by
  induction k generalizing s j with
  | zero =>
    obtain rfl := List.mem_singleton.mp hx
    obtain rfl : j = 0 := by omega
    exact ⟨le_rfl, Nat.lt_succ_self _, rfl⟩
  | succ k ih =>
    have hms : mergedStart k s = s + connectedNodeCount k := rfl
    have hcr : connectedRight k s = mergedStart k s + 2 * butterflyNodeCount k := rfl
    have hend := connectedRight_add k s
    rw [pow_succ] at hj
    rw [connectedLine] at hx
    split at hx
    · rename_i h
      obtain ⟨h1, h2, h3⟩ := ih h hx
      exact ⟨h1, by omega, by rw [connectedOwner, if_pos (by omega), h3]⟩
    · rcases List.mem_append.mp hx with hx | hx
      · obtain ⟨h1, h2, h3⟩ := mem_mergedLine (by omega) hx
        exact ⟨by omega, by omega, by rw [connectedOwner, if_neg (by omega), if_pos (by omega), h3]; omega⟩
      · obtain ⟨h1, h2, h3⟩ := ih (by omega) hx
        exact ⟨by omega, by omega, by rw [connectedOwner, if_neg (by omega), if_neg (by omega), h3]; omega⟩

/-- **Input `j` leads to base node `j`.** -/
theorem connected_line {k s j : Nat} (inp : Nat → Nat) (hj : j < 2 ^ k) :
    Trail (Arc (connectedPreds k s inp)) (inp j) (connectedLine k s j) (connectedBase k s j) := by
  induction k generalizing s j inp with
  | zero =>
    obtain rfl : j = 0 := by omega
    exact Trail.one (List.mem_singleton.mpr rfl)
  | succ k ih =>
    have hms : mergedStart k s = s + connectedNodeCount k := rfl
    have hcr : connectedRight k s = mergedStart k s + 2 * butterflyNodeCount k := rfl
    rw [pow_succ] at hj
    rw [connectedLine, connectedBase]
    split
    · rename_i h
      refine (ih inp h).mono fun a b hb hab => ?_
      obtain ⟨h1, h2, -⟩ := mem_connectedLine h hb
      rw [Arc, connectedPreds, if_pos (by omega)]
      exact hab
    · have hline := merged_line (s := mergedStart k s) (connectedBase k s) (fun i => inp (2 ^ k + i))
        (show j - 2 ^ k < 2 ^ k by omega)
      rw [show 2 ^ k + (j - 2 ^ k) = j by omega] at hline
      refine (hline.mono fun a b hb hab => ?_).append
        ((ih (s := connectedRight k s) (j := j - 2 ^ k) (mergedOut k (mergedStart k s)) (by omega)).mono
          fun a b hb hab => ?_)
      · obtain ⟨h1, h2, -⟩ := mem_mergedLine (by omega) hb
        rw [Arc, connectedPreds, if_neg (by omega), if_pos (by omega)]
        exact hab
      · obtain ⟨h1, -, -⟩ := mem_connectedLine (by omega) hb
        rw [Arc, connectedPreds, if_neg (by omega), if_neg (by omega)]
        exact hab

/-! ## Lines of a standalone component -/

/-- The nodes on the way from base node `j` of the first half to base node `2^k + j`. -/
def standaloneLine (k s j : Nat) : List Nat :=
  butterflyLine k (connectorStart k s) j ++ connectedLine k (standaloneRight k s) j

def standaloneOwner (k s id : Nat) : Nat :=
  if id < standaloneRight k s then (id - connectorStart k s) % 2 ^ k else connectedOwner k (standaloneRight k s) id

theorem standaloneBase_right (k s j : Nat) :
    standaloneBase (k + 1) s (2 ^ k + j) = connectedBase k (standaloneRight k s) j := by
  rw [standaloneBase, if_neg (by omega), Nat.add_sub_cancel_left]

theorem mem_standaloneLine {k s j x : Nat} (hj : j < 2 ^ k) (hx : x ∈ standaloneLine k s j) :
    connectorStart k s ≤ x ∧ x < s + standaloneNodeCount (k + 1) ∧ standaloneOwner k s x = j := by
  have hsr : standaloneRight k s = connectorStart k s + butterflyNodeCount k := rfl
  have hend := standaloneRight_add k s
  rcases List.mem_append.mp hx with hx | hx
  · obtain ⟨h1, h2, h3⟩ := mem_butterflyLine hj hx
    exact ⟨h1, by omega, by rw [standaloneOwner, if_pos (by omega), h3]⟩
  · obtain ⟨h1, h2, h3⟩ := mem_connectedLine hj hx
    exact ⟨by omega, by omega, by rw [standaloneOwner, if_neg (by omega), h3]⟩

theorem standalone_line {k s j : Nat} (hj : j < 2 ^ k) :
    Trail (Arc (standalonePreds (k + 1) s)) (standaloneBase k s j) (standaloneLine k s j)
      (standaloneBase (k + 1) s (2 ^ k + j)) := by
  have hcs : connectorStart k s = s + standaloneNodeCount k := rfl
  have hsr : standaloneRight k s = connectorStart k s + butterflyNodeCount k := rfl
  have hconn : Trail (Arc (connectorPreds k (connectorStart k s) (standaloneBase k s))) (standaloneBase k s j)
      (butterflyLine k (connectorStart k s) j) (connectorOut k (connectorStart k s) j) :=
    butterfly_line hj (List.mem_singleton.mpr rfl)
  rw [standaloneBase_right]
  refine (hconn.mono fun a b hb hab => ?_).append
    ((connected_line (s := standaloneRight k s) (connectorOut k (connectorStart k s)) hj).mono fun a b hb hab => ?_)
  · obtain ⟨h1, h2, -⟩ := mem_butterflyLine hj hb
    rw [Arc, standalonePreds, if_neg (by omega), if_pos (by omega)]
    exact hab
  · obtain ⟨h1, -, -⟩ := mem_connectedLine hj hb
    rw [Arc, standalonePreds, if_neg (by omega), if_neg (by omega)]
    exact hab

theorem standaloneLine_range {k s j x : Nat} (hj : j < 2 ^ k) (hx : x ∈ standaloneBase k s j :: standaloneLine k s j) :
    s ≤ x ∧ x < s + standaloneNodeCount (k + 1) := by
  have hcs : connectorStart k s = s + standaloneNodeCount k := rfl
  have hend := standaloneRight_add k s
  have hsr : standaloneRight k s = connectorStart k s + butterflyNodeCount k := rfl
  rcases List.mem_cons.mp hx with rfl | hx
  · have := standaloneBase_lt (s := s) hj
    have := le_standaloneBase k s j
    omega
  · have := mem_standaloneLine hj hx
    omega

theorem standaloneLine_disjoint {k s i j x : Nat} (hi : i < 2 ^ k) (hj : j < 2 ^ k)
    (hx : x ∈ standaloneBase k s i :: standaloneLine k s i) (hx' : x ∈ standaloneBase k s j :: standaloneLine k s j) :
    i = j := by
  have hcs : connectorStart k s = s + standaloneNodeCount k := rfl
  have hbi := standaloneBase_lt (s := s) hi
  have hbj := standaloneBase_lt (s := s) hj
  rcases List.mem_cons.mp hx with hx | hx <;> rcases List.mem_cons.mp hx' with hx' | hx'
  · exact standaloneBase_inj hi hj (hx.symm.trans hx')
  · have := (mem_standaloneLine hj hx').1
    omega
  · have := (mem_standaloneLine hi hx).1
    omega
  · exact (mem_standaloneLine hi hx).2.2.symm.trans (mem_standaloneLine hj hx').2.2

end PoseDB.Graph
