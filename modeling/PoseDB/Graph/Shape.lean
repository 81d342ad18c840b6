import PoseDB.Graph.Scaffold

/-!
# The shape of the table entries

Every node but the first one of a standalone component has one predecessor, or two in strictly ascending order;
predecessors come before the node and are nodes of the same component or its inputs (`Entry`). The base nodes ascend.
-/

set_option autoImplicit false

namespace PoseDB.Graph

/-- A predecessor list of node `id` in a component with first id `s` and inputs `inp`. -/
structure Entry (s : Nat) (inp : Nat → Prop) (id : Nat) (ps : List Nat) : Prop where
  shape : (∃ p, ps = [p]) ∨ ∃ p q, ps = [p, q] ∧ p < q
  lt : ∀ p ∈ ps, p < id
  origin : ∀ p ∈ ps, s ≤ p ∨ inp p

section Entry
variable {s s' id : Nat} {inp inp' : Nat → Prop} {ps : List Nat}

theorem Entry.mono (h : Entry s inp id ps) (horig : ∀ p, p < id → s ≤ p ∨ inp p → s' ≤ p ∨ inp' p) :
    Entry s' inp' id ps :=
  ⟨h.shape, h.lt, fun p hp => horig p (h.lt p hp) (h.origin p hp)⟩

theorem Entry.length_le (h : Entry s inp id ps) : ps.length ≤ 2 := by
  rcases h.shape with ⟨p, rfl⟩ | ⟨p, q, rfl, -⟩
  · exact Nat.le_succ 1
  · exact le_rfl

theorem Entry.one {p : Nat} (hp : p < id) (horig : s ≤ p ∨ inp p) : Entry s inp id [p] where
  shape := Or.inl ⟨p, rfl⟩
  lt := by simpa using hp
  origin := by simpa using horig

theorem Entry.two {p q : Nat} (hne : p ≠ q) (hp : p < id) (hq : q < id) (hop : s ≤ p ∨ inp p)
    (hoq : s ≤ q ∨ inp q) : Entry s inp id (sorted2 p q) := by
  have hmem : ∀ x ∈ sorted2 p q, x = p ∨ x = q := fun x hx => by
    simp only [sorted2, List.mem_cons, List.not_mem_nil, or_false] at hx
    omega
  refine ⟨Or.inr ⟨min p q, max p q, rfl, by omega⟩, fun x hx => ?_, fun x hx => ?_⟩
  · rcases hmem x hx with rfl | rfl <;> assumption
  · rcases hmem x hx with rfl | rfl <;> assumption

theorem Entry.ne_nil (h : Entry s inp id ps) : ps ≠ [] := by
  rcases h.shape with ⟨p, rfl⟩ | ⟨p, q, rfl, -⟩ <;> exact List.cons_ne_nil _ _

theorem Entry.length (h : Entry s inp id ps) : ps.length = 1 ∨ ps.length = 2 := by
  rcases h.shape with ⟨p, rfl⟩ | ⟨p, q, rfl, -⟩
  · exact Or.inl rfl
  · exact Or.inr rfl

end Entry

theorem xor_two_pow_ne (i b : Nat) : i ≠ i ^^^ 2 ^ b := fun h => by
  have h' : i ^^^ i = i ^^^ (i ^^^ 2 ^ b) := congrArg (i ^^^ ·) h
  rw [Nat.xor_self, ← Nat.xor_assoc, Nat.xor_self, Nat.zero_xor] at h'
  exact absurd h' (Nat.two_pow_pos b).ne

/-! ## Butterflies -/

theorem butterflyPreds_entry {dim s id : Nat} (first : Nat → List Nat) (inp : Nat → Prop)
    (hfirst : ∀ i < 2 ^ dim, Entry s inp (s + i) (first i)) (hlo : s ≤ id) (hhi : id < s + butterflyNodeCount dim) :
    Entry s inp id (butterflyPreds dim s first id) := by
  obtain ⟨l, i, hl, hi, rfl⟩ := exists_cell hlo hhi
  cases l with
  | zero =>
    rw [cell_zero, butterflyPreds_first first hi]
    exact hfirst i hi
  | succ l =>
    rw [butterflyPreds_layer first hi]
    have hx := xor_flipBit_lt (Nat.lt_of_succ_le hl) hi
    refine Entry.two (fun h => xor_two_pow_ne i _ (show i = i ^^^ flipBit dim (l + 1) from ?_)) ?_ ?_
      (Or.inl (le_cell dim s l i)) (Or.inl (le_cell dim s l _))
    · rw [cell, cell] at h; omega
    · rw [cell, cell, Nat.add_mul]; omega
    · rw [cell, cell, Nat.add_mul]; omega

theorem connectorPreds_entry {dim s id : Nat} {inp : Nat → Nat} (hinp : ∀ i < 2 ^ dim, inp i < s) (hlo : s ≤ id)
    (hhi : id < s + butterflyNodeCount dim) :
    Entry s (fun p => ∃ i < 2 ^ dim, p = inp i) id (connectorPreds dim s inp id) :=
  butterflyPreds_entry _ _ (fun i hi => Entry.one (by have := hinp i hi; omega) (Or.inr ⟨i, hi, rfl⟩)) hlo hhi

theorem mergedPreds_entry {dim s id : Nat} {prim ing : Nat → Nat} (hprim : ∀ i < 2 ^ dim, prim i < s)
    (hing : ∀ i < 2 ^ dim, ing i < s) (hlo : s ≤ id) (hhi : id < s + 2 * butterflyNodeCount dim) :
    Entry s (fun p => ∃ i < 2 ^ dim, p = prim i ∨ p = ing i) id (mergedPreds dim s prim ing id) := by
  have hcs : centerStart dim s = s + butterflyNodeCount dim := rfl
  by_cases h : id < centerStart dim s
  · rw [mergedPreds, if_pos h]
    refine (connectorPreds_entry hing hlo h).mono fun p _ hp => ?_
    rcases hp with hp | ⟨i, hi, hp⟩
    · exact Or.inl hp
    · exact Or.inr ⟨i, hi, Or.inr hp⟩
  · rw [mergedPreds, if_neg h]
    have hent := butterflyPreds_entry (s := centerStart dim s) (fun i => sorted2 (prim i) (connectorOut dim s i))
      (fun p => s ≤ p ∨ ∃ i < 2 ^ dim, p = prim i) (fun i hi => ?_) (show _ ≤ id by omega)
      (show _ < _ + butterflyNodeCount dim by omega)
    · refine hent.mono fun p _ hp => ?_
      rcases hp with hp | hp | ⟨i, hi, hp⟩
      · exact Or.inl (by omega)
      · exact Or.inl hp
      · exact Or.inr ⟨i, hi, Or.inl hp⟩
    · have h1 := hprim i hi
      have h2 := connectorOut_lt (s := s) hi
      have h3 : s ≤ connectorOut dim s i := le_cell _ _ _ _
      exact Entry.two (by omega) (by omega) (by omega) (Or.inr (Or.inr ⟨i, hi, rfl⟩)) (Or.inr (Or.inl h3))

/-- The primary inputs of a merged center are older than its ingress outputs. -/
theorem sorted2_primary {dim s p i : Nat} (hp : p < s) :
    sorted2 p (connectorOut dim s i) = [p, connectorOut dim s i] := by
  have : s ≤ connectorOut dim s i := le_cell _ _ _ _
  rw [sorted2, Nat.min_eq_left (by omega), Nat.max_eq_right (by omega)]

theorem mergedPreds_center_sorted {dim s : Nat} (prim ing : Nat → Nat) {i : Nat} (hi : i < butterflyNodeCount dim)
    (hprim : ∀ i < 2 ^ dim, prim i < s) :
    mergedPreds dim s prim ing (centerStart dim s + i) =
      butterflyPreds dim (centerStart dim s) (fun i => [prim i, connectorOut dim s i]) (centerStart dim s + i) := by
  rw [mergedPreds_center]
  obtain ⟨l, j, -, hj, hcell⟩ := exists_cell (Nat.le_add_right (centerStart dim s) i)
    (show centerStart dim s + i < centerStart dim s + butterflyNodeCount dim by omega)
  rw [hcell]
  cases l with
  | zero => rw [cell_zero, butterflyPreds_first _ hj, butterflyPreds_first _ hj, sorted2_primary (hprim j hj)]
  | succ l => rw [butterflyPreds_layer _ hj, butterflyPreds_layer _ hj]

theorem mergedPreds_zero_center {s : Nat} (prim ing : Nat → Nat) (hp : prim 0 < s) :
    mergedPreds 0 s prim ing (s + 1) = [prim 0, s] := by
  have h := mergedPreds_center_sorted (s := s) prim ing (i := 0) (butterflyNodeCount_pos 0)
    fun i hi => by rwa [show i = 0 by omega]
  rw [butterflyPreds_first _ Nat.one_pos, connectorOut, cell_zero] at h
  exact h

/-! ## Recursive components -/

theorem connectedPreds_entry {k s id : Nat} {inp : Nat → Nat} (hinp : ∀ i < 2 ^ k, inp i < s) (hlo : s ≤ id)
    (hhi : id < s + connectedNodeCount k) :
    Entry s (fun p => ∃ i < 2 ^ k, p = inp i) id (connectedPreds k s inp id) := by
  induction k generalizing s inp with
  | zero => exact Entry.one (by have := hinp 0 Nat.one_pos; omega) (Or.inr ⟨0, Nat.one_pos, rfl⟩)
  | succ k ih =>
    have hpow : 2 ^ (k + 1) = 2 ^ k + 2 ^ k := by rw [pow_succ]; omega
    have hms : mergedStart k s = s + connectedNodeCount k := rfl
    have hcr : connectedRight k s = mergedStart k s + 2 * butterflyNodeCount k := rfl
    have hend := connectedRight_add k s
    rw [connectedPreds]
    split
    · rename_i h
      refine (ih (fun i hi => hinp i (by omega)) hlo (by omega)).mono fun p _ hp => ?_
      rcases hp with hp | ⟨i, hi, hp⟩
      · exact Or.inl hp
      · exact Or.inr ⟨i, by omega, hp⟩
    · split
      · refine (mergedPreds_entry (fun i hi => connectedBase_lt hi) (fun i hi => ?_) (by omega) (by omega)).mono
          fun p _ hp => ?_
        · have := hinp (2 ^ k + i) (by omega); omega
        · rcases hp with hp | ⟨i, hi, hp | hp⟩
          · exact Or.inl (by omega)
          · exact Or.inl (hp ▸ le_connectedBase k s i)
          · exact Or.inr ⟨2 ^ k + i, by omega, hp⟩
      · refine (ih (fun i hi => mergedOut_lt hi) (by omega) (by omega)).mono fun p _ hp => ?_
        rcases hp with hp | ⟨i, _, hp⟩
        · exact Or.inl (by omega)
        · have := le_cell k (centerStart k (mergedStart k s)) k i
          have hout : mergedOut k (mergedStart k s) i = cell k (centerStart k (mergedStart k s)) k i := rfl
          have hcs : centerStart k (mergedStart k s) = mergedStart k s + butterflyNodeCount k := rfl
          exact Or.inl (by omega)

theorem standalonePreds_first (k s : Nat) : standalonePreds k s s = [] := by
  induction k with
  | zero => rfl
  | succ k ih =>
    have := standaloneNodeCount_pos k
    rw [standalonePreds, if_pos (by rw [connectorStart]; omega), ih]

theorem standalonePreds_entry {k s id : Nat} (hlo : s < id) (hhi : id < s + standaloneNodeCount k) :
    Entry s (fun _ => False) id (standalonePreds k s id) := by
  induction k with
  | zero => rw [standaloneNodeCount] at hhi; omega
  | succ k ih =>
    have hst : connectorStart k s = s + standaloneNodeCount k := rfl
    have hsr : standaloneRight k s = connectorStart k s + butterflyNodeCount k := rfl
    have hend := standaloneRight_add k s
    have hbase : ∀ i, s ≤ standaloneBase k s i := le_standaloneBase k s
    rw [standalonePreds]
    split
    · exact ih (by omega)
    · split
      · refine (connectorPreds_entry (fun i hi => standaloneBase_lt hi) (by omega) (by omega)).mono fun p _ hp => ?_
        rcases hp with hp | ⟨i, _, hp⟩
        · exact Or.inl (by omega)
        · exact Or.inl (hp ▸ hbase i)
      · refine (connectedPreds_entry (fun i hi => connectorOut_lt hi) (by omega) (by omega)).mono fun p _ hp => ?_
        rcases hp with hp | ⟨i, _, hp⟩
        · exact Or.inl (by omega)
        · have := le_cell k (connectorStart k s) k i
          have hout : connectorOut k (connectorStart k s) i = cell k (connectorStart k s) k i := rfl
          exact Or.inl (by omega)

/-! ## Base nodes ascend -/

theorem connectedBase_lt_of_lt {k s i j : Nat} (hij : i < j) (hj : j < 2 ^ k) :
    connectedBase k s i < connectedBase k s j := by
  induction k generalizing s i j with
  | zero => rw [pow_zero] at hj; omega
  | succ k ih =>
    rw [pow_succ] at hj
    rw [connectedBase, connectedBase]
    by_cases hj' : j < 2 ^ k
    · rw [if_pos hj', if_pos (by omega)]
      exact ih hij hj'
    · rw [if_neg hj']
      by_cases hi' : i < 2 ^ k
      · rw [if_pos hi']
        have h1 := connectedBase_lt (s := s) hi'
        have h2 := le_connectedBase k (connectedRight k s) (j - 2 ^ k)
        have h3 : connectedRight k s = s + connectedNodeCount k + 2 * butterflyNodeCount k := rfl
        omega
      · rw [if_neg hi']
        exact ih (by omega) (by omega)

theorem standaloneBase_lt_of_lt {k s i j : Nat} (hij : i < j) (hj : j < 2 ^ k) :
    standaloneBase k s i < standaloneBase k s j := by
  induction k generalizing i j with
  | zero => rw [pow_zero] at hj; omega
  | succ k ih =>
    rw [pow_succ] at hj
    rw [standaloneBase, standaloneBase]
    by_cases hj' : j < 2 ^ k
    · rw [if_pos hj', if_pos (by omega)]
      exact ih hij hj'
    · rw [if_neg hj']
      by_cases hi' : i < 2 ^ k
      · rw [if_pos hi']
        have h1 := standaloneBase_lt (s := s) hi'
        have h2 := le_connectedBase k (standaloneRight k s) (j - 2 ^ k)
        have h3 : standaloneRight k s = s + standaloneNodeCount k + butterflyNodeCount k := rfl
        omega
      · rw [if_neg hi']
        exact connectedBase_lt_of_lt (by omega) (by omega)

theorem standaloneBase_inj {k s i j : Nat} (hi : i < 2 ^ k) (hj : j < 2 ^ k)
    (h : standaloneBase k s i = standaloneBase k s j) : i = j := by
  rcases Nat.lt_trichotomy i j with hlt | heq | hgt
  · exact absurd h (standaloneBase_lt_of_lt hlt hj).ne
  · exact heq
  · exact absurd h (standaloneBase_lt_of_lt hgt hi).ne'

end PoseDB.Graph
