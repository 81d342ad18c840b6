import PoseDB.Graph.Count

/-!
# The graph as a function of the node id

The predecessor list of every node, written down once for each component as a function of the id. `s` is the first
id of the component, `inp i` the id of its input `i`. Layer `l`, position `i` of a butterfly of dimension `dim` is the
id `cell dim s l i`. The emitters are proved to follow these tables (`Graph/Emission`), and everything about paths is
proved of the tables.
-/

set_option autoImplicit false

namespace PoseDB.Graph

def sorted2 (a b : Nat) : List Nat := [min a b, max a b]

/-- Layer `l`, position `i` of a butterfly of dimension `dim` whose first id is `s`. -/
def cell (dim s l i : Nat) : Nat := s + l * 2 ^ dim + i

/-- The bit that layer `l ≥ 1` of a butterfly flips. -/
def flipBit (dim l : Nat) : Nat := 2 ^ (dim - l)

/-- A butterfly whose layer `0` has the predecessors `first i`. -/
def butterflyPreds (dim s : Nat) (first : Nat → List Nat) (id : Nat) : List Nat :=
  let l := (id - s) / 2 ^ dim
  let i := (id - s) % 2 ^ dim
  if l = 0 then first i else sorted2 (cell dim s (l - 1) i) (cell dim s (l - 1) (i ^^^ flipBit dim l))

def connectorPreds (dim s : Nat) (inp : Nat → Nat) : Nat → List Nat := butterflyPreds dim s fun i => [inp i]

def connectorOut (dim s : Nat) (i : Nat) : Nat := cell dim s dim i

def centerStart (dim s : Nat) : Nat := s + butterflyNodeCount dim

def mergedPreds (dim s : Nat) (primary ingress : Nat → Nat) (id : Nat) : List Nat :=
  if id < centerStart dim s then connectorPreds dim s ingress id
  else butterflyPreds dim (centerStart dim s) (fun i => sorted2 (primary i) (connectorOut dim s i)) id

def mergedOut (dim s : Nat) (i : Nat) : Nat := connectorOut dim (centerStart dim s) i

/-- The first id of the merged butterflies inside a connected component of level `k + 1`. -/
def mergedStart (k s : Nat) : Nat := s + connectedNodeCount k

/-- The first id of the right part of a connected component of level `k + 1`. -/
def connectedRight (k s : Nat) : Nat := mergedStart k s + 2 * butterflyNodeCount k

def connectedBase : (k s i : Nat) → Nat
  | 0, s, _ => s
  | k + 1, s, i =>
    if i < 2 ^ k then connectedBase k s i else connectedBase k (connectedRight k s) (i - 2 ^ k)

def connectedPreds : (k s : Nat) → (inp : Nat → Nat) → Nat → List Nat
  | 0, _, inp, _ => [inp 0]
  | k + 1, s, inp, id =>
    if id < mergedStart k s then connectedPreds k s inp id
    else if id < connectedRight k s then
      mergedPreds k (mergedStart k s) (connectedBase k s) (fun i => inp (2 ^ k + i)) id
    else connectedPreds k (connectedRight k s) (mergedOut k (mergedStart k s)) id

/-- The first id of the connector inside a standalone component of level `k + 1`. -/
def connectorStart (k s : Nat) : Nat := s + standaloneNodeCount k

/-- The first id of the connected part of a standalone component of level `k + 1`. -/
def standaloneRight (k s : Nat) : Nat := connectorStart k s + butterflyNodeCount k

def standaloneBase : (k s i : Nat) → Nat
  | 0, s, _ => s
  | k + 1, s, i =>
    if i < 2 ^ k then standaloneBase k s i else connectedBase k (standaloneRight k s) (i - 2 ^ k)

def standalonePreds : (k s : Nat) → Nat → List Nat
  | 0, _, _ => []
  | k + 1, s, id =>
    if id < connectorStart k s then standalonePreds k s id
    else if id < standaloneRight k s then connectorPreds k (connectorStart k s) (standaloneBase k s) id
    else connectedPreds k (standaloneRight k s) (connectorOut k (connectorStart k s)) id

/-- The two copies of the graph of `m` blocks. -/
def scaffoldPreds (m : Nat) (id : Nat) : List Nat :=
  let level := poseGraphParameterN m + 1
  let leftTotal := standaloneNodeCount level
  if id < leftTotal then standalonePreds level 0 id else standalonePreds level leftTotal id

/-! ## Reading the tables -/

theorem cell_zero (dim s i : Nat) : cell dim s 0 i = s + i := by rw [cell]; omega

theorem cell_layer {dim s l i : Nat} (hi : i < 2 ^ dim) :
    (cell dim s l i - s) / 2 ^ dim = l ∧ (cell dim s l i - s) % 2 ^ dim = i := by
  have h : cell dim s l i - s = i + 2 ^ dim * l := by rw [cell, Nat.mul_comm]; omega
  rw [h, Nat.add_mul_div_left _ _ (Nat.two_pow_pos dim), Nat.add_mul_mod_self_left, Nat.div_eq_of_lt hi,
    Nat.mod_eq_of_lt hi, Nat.zero_add]
  exact ⟨rfl, rfl⟩

theorem butterflyPreds_first {dim s i : Nat} (first : Nat → List Nat) (hi : i < 2 ^ dim) :
    butterflyPreds dim s first (s + i) = first i := by
  obtain ⟨hl, hi'⟩ := cell_layer (s := s) (l := 0) hi
  rw [cell_zero] at hl hi'
  rw [butterflyPreds, hl, hi']
  exact if_pos rfl

theorem butterflyPreds_layer {dim s l i : Nat} (first : Nat → List Nat) (hi : i < 2 ^ dim) :
    butterflyPreds dim s first (cell dim s (l + 1) i) =
      sorted2 (cell dim s l i) (cell dim s l (i ^^^ flipBit dim (l + 1))) := by
  obtain ⟨hl, hi'⟩ := cell_layer (s := s) (l := l + 1) hi
  rw [butterflyPreds, hl, hi']
  exact if_neg (Nat.succ_ne_zero l)

theorem flipBit_lt {dim l : Nat} (hl : l < dim) : flipBit dim (l + 1) < 2 ^ dim :=
  Nat.pow_lt_pow_right (by decide) (by omega)

theorem xor_flipBit_lt {dim l i : Nat} (hl : l < dim) (hi : i < 2 ^ dim) :
    i ^^^ flipBit dim (l + 1) < 2 ^ dim := Nat.xor_lt_two_pow hi (flipBit_lt hl)

theorem exists_cell {dim s id : Nat} (hlo : s ≤ id) (hhi : id < s + butterflyNodeCount dim) :
    ∃ l i, l ≤ dim ∧ i < 2 ^ dim ∧ id = cell dim s l i := by
  have hpos := Nat.two_pow_pos dim
  refine ⟨(id - s) / 2 ^ dim, (id - s) % 2 ^ dim, ?_, Nat.mod_lt _ hpos, ?_⟩
  · have : (id - s) / 2 ^ dim < dim + 1 :=
      (Nat.div_lt_iff_lt_mul hpos).mpr (by rw [butterflyNodeCount] at hhi; omega)
    omega
  · have := Nat.div_add_mod (id - s) (2 ^ dim)
    rw [cell, Nat.mul_comm]; omega

theorem cell_lt {dim s l i : Nat} (hl : l ≤ dim) (hi : i < 2 ^ dim) : cell dim s l i < s + butterflyNodeCount dim := by
  have h : l * 2 ^ dim ≤ dim * 2 ^ dim := Nat.mul_le_mul_right _ hl
  rw [cell, butterflyNodeCount, Nat.add_mul]; omega

theorem le_cell (dim s l i : Nat) : s ≤ cell dim s l i := by rw [cell]; omega

/-! ## Parts of a component -/

theorem connectorOut_lt {dim s i : Nat} (hi : i < 2 ^ dim) : connectorOut dim s i < s + butterflyNodeCount dim :=
  cell_lt le_rfl hi

theorem mergedPreds_ingress {dim s i : Nat} (primary ingress : Nat → Nat) (hi : i < butterflyNodeCount dim) :
    mergedPreds dim s primary ingress (s + i) = connectorPreds dim s ingress (s + i) :=
  if_pos (by rw [centerStart]; omega)

theorem mergedPreds_center {dim s : Nat} (primary ingress : Nat → Nat) (i : Nat) :
    mergedPreds dim s primary ingress (centerStart dim s + i) =
      butterflyPreds dim (centerStart dim s) (fun i => sorted2 (primary i) (connectorOut dim s i))
        (centerStart dim s + i) :=
  if_neg (by omega)

theorem mergedOut_lt {dim s i : Nat} (hi : i < 2 ^ dim) : mergedOut dim s i < s + 2 * butterflyNodeCount dim := by
  have := connectorOut_lt (s := centerStart dim s) hi
  rw [mergedOut]
  rw [centerStart] at this ⊢
  omega

theorem connectedPreds_left {k s i : Nat} (inp : Nat → Nat) (hi : i < connectedNodeCount k) :
    connectedPreds (k + 1) s inp (s + i) = connectedPreds k s inp (s + i) :=
  if_pos (by rw [mergedStart]; omega)

theorem connectedPreds_merged {k s i : Nat} (inp : Nat → Nat) (hi : i < 2 * butterflyNodeCount k) :
    connectedPreds (k + 1) s inp (mergedStart k s + i) =
      mergedPreds k (mergedStart k s) (connectedBase k s) (fun i => inp (2 ^ k + i)) (mergedStart k s + i) := by
  rw [connectedPreds, if_neg (by omega), if_pos (by rw [connectedRight]; omega)]

theorem connectedPreds_right {k s : Nat} (inp : Nat → Nat) (i : Nat) :
    connectedPreds (k + 1) s inp (connectedRight k s + i) =
      connectedPreds k (connectedRight k s) (mergedOut k (mergedStart k s)) (connectedRight k s + i) := by
  rw [connectedPreds, if_neg (by rw [connectedRight]; omega), if_neg (by omega)]

theorem connectedRight_add (k s : Nat) :
    connectedRight k s + connectedNodeCount k = s + connectedNodeCount (k + 1) := by
  rw [connectedRight, mergedStart, connectedNodeCount]; omega

theorem le_connectedBase (k s i : Nat) : s ≤ connectedBase k s i := by
  induction k generalizing s i with
  | zero => exact le_rfl
  | succ k ih =>
    rw [connectedBase]
    split
    · exact ih s i
    · have := ih (connectedRight k s) (i - 2 ^ k)
      rw [connectedRight, mergedStart] at this
      rw [connectedRight, mergedStart]
      omega

theorem connectedBase_lt {k s i : Nat} (hi : i < 2 ^ k) : connectedBase k s i < s + connectedNodeCount k := by
  induction k generalizing s i with
  | zero => exact Nat.lt_succ_self s
  | succ k ih =>
    rw [pow_succ] at hi
    rw [connectedBase, ← connectedRight_add]
    split
    · rename_i h
      have := ih (s := s) h
      rw [connectedRight, mergedStart]
      omega
    · exact ih (by omega)

theorem standalonePreds_left {k s i : Nat} (hi : i < standaloneNodeCount k) :
    standalonePreds (k + 1) s (s + i) = standalonePreds k s (s + i) :=
  if_pos (by rw [connectorStart]; omega)

theorem standalonePreds_connector {k s i : Nat} (hi : i < butterflyNodeCount k) :
    standalonePreds (k + 1) s (connectorStart k s + i) =
      connectorPreds k (connectorStart k s) (standaloneBase k s) (connectorStart k s + i) := by
  rw [standalonePreds, if_neg (by omega), if_pos (by rw [standaloneRight]; omega)]

theorem standalonePreds_right {k s : Nat} (i : Nat) :
    standalonePreds (k + 1) s (standaloneRight k s + i) =
      connectedPreds k (standaloneRight k s) (connectorOut k (connectorStart k s)) (standaloneRight k s + i) := by
  rw [standalonePreds, if_neg (by rw [standaloneRight]; omega), if_neg (by omega)]

theorem standaloneRight_add (k s : Nat) :
    standaloneRight k s + connectedNodeCount k = s + standaloneNodeCount (k + 1) := by
  rw [standaloneRight, connectorStart, standaloneNodeCount]; omega

theorem le_standaloneBase (k s i : Nat) : s ≤ standaloneBase k s i := by
  induction k generalizing i with
  | zero => exact le_rfl
  | succ k ih =>
    rw [standaloneBase]
    split
    · exact ih i
    · have := le_connectedBase k (standaloneRight k s) (i - 2 ^ k)
      rw [standaloneRight, connectorStart] at this
      rw [standaloneRight, connectorStart]
      omega

theorem standaloneBase_lt {k s i : Nat} (hi : i < 2 ^ k) : standaloneBase k s i < s + standaloneNodeCount k := by
  induction k generalizing s i with
  | zero => exact Nat.lt_succ_self s
  | succ k ih =>
    rw [pow_succ] at hi
    rw [standaloneBase, ← standaloneRight_add]
    split
    · rename_i h
      have := ih (s := s) h
      rw [standaloneRight, connectorStart]
      omega
    · exact connectedBase_lt (by omega)

end PoseDB.Graph
