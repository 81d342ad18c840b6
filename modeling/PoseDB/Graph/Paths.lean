import PoseDB.Graph.Connectivity
import Mathlib.Data.Set.Card

/-!
# The paths of the butterflies

Layer `l` of a butterfly flips bit `dim - l`, so a path that ends at position `r` of layer `l` has at layer `t` the top
`t` bits of `r` and the other bits of its input (`mixBits`): input and output determine it (`butterfly_paths`).
**`butterflies_paths`**: in the edges recorded by `emit_connector` there is exactly one path from each input to each
output, in those of `emit_merged_center_ingress` one from each primary input to each output, and from each ingress input
one through each ingress output. The inputs are as every call finds them (`EdgesCalls.connector_inputs`,
`EdgesCalls.merged_inputs`).
-/

set_option autoImplicit false

namespace PoseDB.Graph
open Loops Mem Walks

/-! ## Positions -/

/-- Position at layer `t` on the way from position `i` to position `r`: the top `t` bits are flipped already. -/
def mixBits (dim t i r : Nat) : Nat := r / 2 ^ (dim - t) * 2 ^ (dim - t) + i % 2 ^ (dim - t)

section Bits
variable {dim t l i r : Nat}

theorem testBit_mixBits (dim t i r j : Nat) :
    (mixBits dim t i r).testBit j = if j < dim - t then i.testBit j else r.testBit j := by
  rw [mixBits, Nat.mul_comm, Nat.testBit_two_pow_mul_add _ (Nat.mod_lt _ (Nat.two_pow_pos _)), Nat.testBit_mod_two_pow,
    Nat.testBit_div_two_pow]
  split_ifs with h
  · rw [decide_eq_true h, Bool.true_and]
  · rw [Nat.sub_add_cancel (by omega)]

theorem eq_of_mod_two_pow {k x y j : Nat} (h : x % 2 ^ k = y % 2 ^ k) (hj : j < k) : x.testBit j = y.testBit j := by
  have hbit := congrArg (fun n => n.testBit j) h
  simpa only [Nat.testBit_mod_two_pow, decide_eq_true hj, Bool.true_and] using hbit

theorem mod_two_pow_eq_iff {k x y : Nat} : x % 2 ^ k = y % 2 ^ k ↔ ∀ j < k, x.testBit j = y.testBit j := by
  refine ⟨fun h j hj => eq_of_mod_two_pow h hj, fun h => Nat.eq_of_testBit_eq fun j => ?_⟩
  rw [Nat.testBit_mod_two_pow, Nat.testBit_mod_two_pow]
  by_cases hj : j < k
  · rw [h j hj]
  · rw [decide_eq_false hj, Bool.false_and, Bool.false_and]

theorem testBit_xor_two_pow (r b j : Nat) : (r ^^^ 2 ^ b).testBit j = if j = b then !r.testBit j else r.testBit j := by
  rw [Nat.testBit_xor, Nat.testBit_two_pow]
  split_ifs with h
  · rw [decide_eq_true h.symm, Bool.xor_true]
  · rw [decide_eq_false (Ne.symm h), Bool.xor_false]

theorem mixBits_self (h : i % 2 ^ (dim - t) = r % 2 ^ (dim - t)) : mixBits dim t i r = r := by
  rw [mixBits, h, Nat.div_add_mod']

/-- The bit a layer flips does not matter to the layers before it. -/
theorem mixBits_xor (hl : l < dim) (htl : t ≤ l) : mixBits dim t i (r ^^^ flipBit dim (l + 1)) = mixBits dim t i r := by
  refine Nat.eq_of_testBit_eq fun j => ?_
  rw [testBit_mixBits, testBit_mixBits, flipBit, testBit_xor_two_pow]
  by_cases hj : j < dim - t
  · rw [if_pos hj, if_pos hj]
  · rw [if_neg hj, if_neg hj, if_neg (by omega)]

/-- One of the two predecessors has one more low bit in common with the input. -/
theorem low_bits_step (hl : l < dim) : i % 2 ^ (dim - (l + 1)) = r % 2 ^ (dim - (l + 1)) ↔
    i % 2 ^ (dim - l) = r % 2 ^ (dim - l) ∨ i % 2 ^ (dim - l) = (r ^^^ flipBit dim (l + 1)) % 2 ^ (dim - l) := by
  obtain ⟨b, hb⟩ : ∃ b, dim - (l + 1) = b ∧ dim - l = b + 1 := ⟨dim - (l + 1), rfl, by omega⟩
  rw [flipBit, hb.1, hb.2]
  simp only [mod_two_pow_eq_iff, testBit_xor_two_pow]
  constructor
  · intro h
    by_cases hbit : i.testBit b = r.testBit b
    · refine Or.inl fun j hj => ?_
      rcases Nat.lt_succ_iff_lt_or_eq.mp hj with hj | rfl
      · exact h j hj
      · exact hbit
    · refine Or.inr fun j hj => ?_
      rcases Nat.lt_succ_iff_lt_or_eq.mp hj with hj | rfl
      · rw [if_neg (by omega), h j hj]
      · rw [if_pos rfl]
        exact Bool.eq_not_of_ne hbit
  · rintro (h | h) j hj
    · exact h j (by omega)
    · have hj' := h j (by omega)
      rwa [if_neg (by omega)] at hj'

theorem mixBits_lt (hi : i < 2 ^ dim) (hr : r < 2 ^ dim) : mixBits dim t i r < 2 ^ dim := by
  refine Nat.lt_pow_two_of_testBit _ fun j hj => ?_
  rw [testBit_mixBits]
  split_ifs
  · exact Nat.testBit_lt_two_pow (hi.trans_le (Nat.pow_le_pow_right (by decide) hj))
  · exact Nat.testBit_lt_two_pow (hr.trans_le (Nat.pow_le_pow_right (by decide) hj))

end Bits

/-! ## Paths of one butterfly -/

/-- The nodes of a butterfly on the way from position `i` to position `r` of layer `l`. -/
def butterflyPath (dim s l i r : Nat) : List Nat := (List.range (l + 1)).map fun t => cell dim s t (mixBits dim t i r)

/-- The edges into the cells of the butterfly at `s` are those of its table. -/
def HasButterfly (E : Nat → Nat → Prop) (dim s : Nat) (first : Nat → List Nat) : Prop :=
  ∀ l ≤ dim, ∀ i < 2 ^ dim, ∀ a, E a (cell dim s l i) ↔ a ∈ butterflyPreds dim s first (cell dim s l i)

/-- **The paths of a butterfly**: a path to position `r` of layer `l` enters at a position `i` that has the low bits of
`r`, and is determined by it from there on. -/
theorem butterfly_paths {E : Nat → Nat → Prop} {dim s u : Nat} {first : Nat → List Nat} (hE : HasButterfly E dim s first)
    (hu : u < s) {l r : Nat} (hl : l ≤ dim) (hr : r < 2 ^ dim) (p : List Nat) :
    Trail E u p (cell dim s l r) ↔ ∃ i < 2 ^ dim, i % 2 ^ (dim - l) = r % 2 ^ (dim - l) ∧
      ∃ a ∈ first i, ∃ q, Trail E u q a ∧ p = q ++ butterflyPath dim s l i r := by
  have hne : ∀ l r, u ≠ cell dim s l r := fun l r => (hu.trans_le (le_cell dim s l r)).ne
  induction l generalizing r p with
  | zero =>
    rw [trail_iff_last (hne 0 r), Nat.sub_zero]
    have hentry : ∀ a, E a (cell dim s 0 r) ↔ a ∈ first r := fun a => by
      rw [hE 0 hl r hr, cell_zero, butterflyPreds_first first hr]
    constructor
    · rintro ⟨q, a, rfl, ha, hav⟩
      refine ⟨r, hr, rfl, a, (hentry a).mp hav, q, ha, ?_⟩
      rw [butterflyPath, List.range_one, List.map_singleton, mixBits_self rfl]
    · rintro ⟨i, hi, hir, a, ha, q, hq, rfl⟩
      rw [Nat.mod_eq_of_lt hi, Nat.mod_eq_of_lt hr] at hir
      subst hir
      refine ⟨q, a, ?_, hq, (hentry a).mpr ha⟩
      rw [butterflyPath, List.range_one, List.map_singleton, mixBits_self rfl]
  | succ l ih =>
    rw [trail_iff_last (hne (l + 1) r)]
    have hflip := xor_flipBit_lt (i := r) hl hr
    have hentry : ∀ a, E a (cell dim s (l + 1) r) ↔
        a = cell dim s l r ∨ a = cell dim s l (r ^^^ flipBit dim (l + 1)) := fun a => by
      rw [hE (l + 1) hl r hr, butterflyPreds_layer first hr, mem_sorted2]
    have hbefore : ∀ i, butterflyPath dim s l i (r ^^^ flipBit dim (l + 1)) = butterflyPath dim s l i r := by
      intro i
      refine List.map_congr_left fun t ht => ?_
      rw [mixBits_xor hl (by rw [List.mem_range] at ht; omega)]
    have hpath : ∀ i, i % 2 ^ (dim - (l + 1)) = r % 2 ^ (dim - (l + 1)) →
        butterflyPath dim s (l + 1) i r = butterflyPath dim s l i r ++ [cell dim s (l + 1) r] := by
      intro i hir
      rw [butterflyPath, List.range_succ, List.map_append, List.map_singleton, mixBits_self hir]
      rfl
    constructor
    · rintro ⟨q, a, rfl, hq, hav⟩
      rcases (hentry a).mp hav with rfl | rfl
      · obtain ⟨i, hi, hir, b, hb, q', hq', rfl⟩ := (ih (by omega) hr q).mp hq
        have hlow := (low_bits_step hl).mpr (Or.inl hir)
        refine ⟨i, hi, hlow, b, hb, q', hq', ?_⟩
        rw [hpath i hlow, List.append_assoc]
      · obtain ⟨i, hi, hir, b, hb, q', hq', rfl⟩ := (ih (by omega) hflip q).mp hq
        have hlow := (low_bits_step hl).mpr (Or.inr hir)
        refine ⟨i, hi, hlow, b, hb, q', hq', ?_⟩
        rw [hpath i hlow, hbefore, List.append_assoc]
    · rintro ⟨i, hi, hir, b, hb, q, hq, rfl⟩
      rw [hpath i hir, ← List.append_assoc]
      rcases (low_bits_step hl).mp hir with hlow | hlow
      · exact ⟨_, cell dim s l r, rfl, (ih (by omega) hr _).mpr ⟨i, hi, hlow, b, hb, q, hq, rfl⟩,
          (hentry _).mpr (Or.inl rfl)⟩
      · refine ⟨_, cell dim s l (r ^^^ flipBit dim (l + 1)), rfl, (ih (by omega) hflip _).mpr ?_, (hentry _).mpr (Or.inr rfl)⟩
        exact ⟨i, hi, hlow, b, hb, q, hq, by rw [hbefore]⟩

theorem butterfly_paths_out {E : Nat → Nat → Prop} {dim s u : Nat} {first : Nat → List Nat}
    (hE : HasButterfly E dim s first) (hu : u < s) {r : Nat} (hr : r < 2 ^ dim) (p : List Nat) :
    Trail E u p (connectorOut dim s r) ↔ ∃ i < 2 ^ dim, ∃ a ∈ first i, ∃ q, Trail E u q a ∧
      p = q ++ butterflyPath dim s dim i r := by
  rw [connectorOut, butterfly_paths hE hu le_rfl hr, Nat.sub_self, Nat.pow_zero]
  simp only [Nat.mod_one, true_and]

/-! ## Recorded edges -/

section Recorded
variable {α : Type} {H : PoseHash α}

/-- The emitter of the edge path: it has a recorder and no labels. -/
structure Emitter.Records (e : Emitter α) : Prop where
  labels : e.labels = none
  nodes : e.nodes.isSome = true

/-- The edges of the nodes that were emitted from `e` to `e'`. -/
def Recorded (e e' : Emitter α) (a b : Nat) : Prop :=
  e.nextId ≤ b ∧ b < e'.nextId ∧ ∃ nodes, e'.nodes = some nodes ∧ a ∈ (nodes b).preds

theorem Emitter.Records.oneMode {e : Emitter α} (h : e.Records) : e.core.OneMode := fun hl => by
  rw [show e.core.labels = none from h.labels] at hl
  cases hl

theorem recorded_iff {e e' : Emitter α} {G : Nat → List Nat} {c : Nat} (hrec : e.Records)
    (hrun : e'.core = e.core.run H G c) (hG : ∀ i < c, (G (e.nextId + i)).length ≤ 2) (a b : Nat) :
    Recorded e e' a b ↔ e.nextId ≤ b ∧ b < e.nextId + c ∧ a ∈ G b := by
  obtain ⟨nodes, hnodes⟩ := Option.isSome_iff_exists.mp hrec.nodes
  have hnodes' : e'.nodes = _ := (congrArg EmitCore.nodes hrun).trans (EmitCore.run_nodes hnodes c)
  have hnext : e'.nextId = e.nextId + c := (congrArg EmitCore.nextId hrun).trans (EmitCore.run_nextId c)
  have hpreds : e.nextId ≤ b → b < e.nextId + c → ((nodes b).record (G b)).preds = G b := fun h1 h2 => by
    have hlen := hG (b - e.nextId) (by omega)
    rw [show e.nextId + (b - e.nextId) = b by omega] at hlen
    rw [PoseNode.preds_record, List.take_of_length_le hlen]
  rw [Recorded, hnext, hnodes']
  refine and_congr_right fun h1 => and_congr_right fun h2 => ?_
  constructor
  · rintro ⟨nodes', hn, ha⟩
    obtain rfl := Option.some.inj hn
    dsimp only at ha
    rwa [if_pos (show e.core.nextId ≤ b ∧ b < e.core.nextId + c from ⟨h1, h2⟩), hpreds h1 h2] at ha
  · intro ha
    refine ⟨_, rfl, ?_⟩
    rwa [if_pos (show e.core.nextId ≤ b ∧ b < e.core.nextId + c from ⟨h1, h2⟩), hpreds h1 h2]

/-! ## The connector -/

/-- The input array of a connector: the ids of different nodes that exist already, below the free arena. -/
structure ConnectorInputs (e : Emitter α) (dim inputs : Nat) : Prop where
  below : inputs + 2 ^ dim ≤ e.top
  older : ∀ i < 2 ^ dim, e.mem (inputs + i) < e.nextId
  distinct : ∀ i < 2 ^ dim, ∀ j < 2 ^ dim, e.mem (inputs + i) = e.mem (inputs + j) → i = j

theorem length_butterflyPath (dim s l i r : Nat) : (butterflyPath dim s l i r).length = l + 1 := by
  rw [butterflyPath, List.length_map, List.length_range]

/-- The recorded edges have one path from `u` to `v`. -/
def OnePath (e e' : Emitter α) (u v : Nat) : Prop := ∃! p, Trail (Recorded e e') u p v

/-- **One path from each input to each output of a connector**, through its `dim + 1` layers. -/
theorem emitConnector_paths (e : Emitter α) (dim inputs outputs : Nat) (hrec : e.Records)
    (hin : ConnectorInputs e dim inputs) :
    let e' := emitConnector H e dim inputs outputs
    ∀ i < 2 ^ dim, ∀ j < 2 ^ dim,
      OnePath e e' (e.mem (inputs + i)) (e'.mem (outputs + j)) ∧
        ∀ p, Trail (Recorded e e') (e.mem (inputs + i)) p (e'.mem (outputs + j)) → p.length = dim + 1 := by
  intro e' i hi j hj
  let inp := fun i => e.mem (inputs + i)
  have hemits : (emitFollows H (connectorPreds dim e.nextId inp) (e.nextId + butterflyNodeCount dim)).Emits
      (butterflyNodeCount dim) (connectorPeak dim) outputs (2 ^ dim) (connectorOut dim e.nextId) e e' := by
    have he' : e' = (emitScheme H).connector e dim inputs outputs := emitConnector_eq ..
    rw [he']
    exact Scheme.Follows.connector_emits inp hrec.oneMode le_rfl (fun _ _ => rfl) (fun _ _ => rfl) hin.older hin.below
  have hout : e'.mem (outputs + j) = connectorOut dim e.nextId j := hemits.out j hj
  have hedge : ∀ a b, Recorded e e' a b ↔
      e.nextId ≤ b ∧ b < e.nextId + butterflyNodeCount dim ∧ a ∈ connectorPreds dim e.nextId inp b := by
    refine recorded_iff hrec hemits.emitted fun x hx => ?_
    exact (connectorPreds_entry hin.older (Nat.le_add_right _ x) (Nat.add_lt_add_left hx _)).length_le
  have hhas : HasButterfly (Recorded e e') dim e.nextId fun i => [inp i] := fun l hl r hr a => by
    rw [hedge]
    exact ⟨fun h => h.2.2, fun h => ⟨le_cell _ _ _ _, cell_lt hl hr, h⟩⟩
  have hstart : ∀ k < 2 ^ dim, ∀ u q, Trail (Recorded e e') u q (inp k) ↔ q = [] ∧ u = inp k := fun k hk u q =>
    trail_to_start fun a ha => by
      exact absurd ((hedge _ _).mp ha).1 (Nat.not_le.mpr (hin.older k hk))
  have hpaths : ∀ p, Trail (Recorded e e') (inp i) p (connectorOut dim e.nextId j) ↔
      p = butterflyPath dim e.nextId dim i j := by
    intro p
    rw [butterfly_paths_out hhas (hin.older i hi) hj]
    constructor
    · rintro ⟨k, hk, a, ha, q, hq, rfl⟩
      obtain rfl := List.mem_singleton.mp ha
      obtain ⟨rfl, hik⟩ := (hstart k hk _ _).mp hq
      obtain rfl := hin.distinct i hi k hk hik
      rfl
    · rintro rfl
      exact ⟨i, hi, _, List.mem_singleton.mpr rfl, [], rfl, rfl⟩
  rw [hout]
  refine ⟨⟨_, (hpaths _).mpr rfl, fun p hp => (hpaths p).mp hp⟩, fun p hp => ?_⟩
  rw [(hpaths p).mp hp, length_butterflyPath]

/-! ## The merged center -/

/-- The input arrays of a merged center: the ids of different nodes that exist already, below the free arena. -/
structure MergedInputs (e : Emitter α) (dim primaryInputs ingressInputs : Nat) : Prop where
  primary : ConnectorInputs e dim primaryInputs
  ingress : ConnectorInputs e dim ingressInputs
  disjoint : ∀ i < 2 ^ dim, ∀ j < 2 ^ dim, e.mem (primaryInputs + i) ≠ e.mem (ingressInputs + j)

/-- Output `k` of the ingress copy: position `k` of its last layer. -/
def ingressOutput (e : Emitter α) (dim k : Nat) : Nat := e.nextId + dim * 2 ^ dim + k

theorem ingressOutput_eq (e : Emitter α) (dim k : Nat) : ingressOutput e dim k = connectorOut dim e.nextId k := rfl

theorem mem_butterflyPath {dim s i r x : Nat} (hi : i < 2 ^ dim) (hr : r < 2 ^ dim)
    (hx : x ∈ butterflyPath dim s dim i r) : s ≤ x ∧ x < s + butterflyNodeCount dim := by
  obtain ⟨t, ht, rfl⟩ := List.mem_map.mp hx
  exact ⟨le_cell _ _ _ _, cell_lt (Nat.le_of_lt_succ (List.mem_range.mp ht)) (mixBits_lt hi hr)⟩

theorem cell_inj {dim s l l' i i' : Nat} (hi : i < 2 ^ dim) (hi' : i' < 2 ^ dim) (h : cell dim s l i = cell dim s l' i') :
    l = l' ∧ i = i' := by
  obtain ⟨h1, h2⟩ := cell_layer (s := s) (l := l) hi
  obtain ⟨h1', h2'⟩ := cell_layer (s := s) (l := l') hi'
  rw [h] at h1 h2
  exact ⟨h1.symm.trans h1', h2.symm.trans h2'⟩

theorem connectorOut_mem_iff {dim s i k r : Nat} (hi : i < 2 ^ dim) (hk : k < 2 ^ dim) (hr : r < 2 ^ dim) :
    connectorOut dim s k ∈ butterflyPath dim s dim i r ↔ k = r := by
  have hself : mixBits dim dim i r = r := mixBits_self (by rw [Nat.sub_self, Nat.pow_zero, Nat.mod_one, Nat.mod_one])
  constructor
  · intro h
    obtain ⟨t, -, ht⟩ := List.mem_map.mp h
    obtain ⟨rfl, hr'⟩ := cell_inj (mixBits_lt hi hr) hk ht
    rw [← hr', hself]
  · rintro rfl
    exact List.mem_map.mpr ⟨dim, List.mem_range.mpr (Nat.lt_succ_self dim), by rw [hself]; rfl⟩

/-- The paths of the merged center, to its output `j`. -/
structure MergedPaths (E : Nat → Nat → Prop) (dim s : Nat) (prim ing : Nat → Nat) (j : Nat) : Prop where
  primary : ∀ i < 2 ^ dim, ∀ p, Trail E (prim i) p (mergedOut dim s j) ↔
    p = butterflyPath dim (centerStart dim s) dim i j
  ingress : ∀ i < 2 ^ dim, ∀ p, Trail E (ing i) p (mergedOut dim s j) ↔
    ∃ k < 2 ^ dim, p = butterflyPath dim s dim i k ++ butterflyPath dim (centerStart dim s) dim k j

theorem merged_paths {E : Nat → Nat → Prop} {dim s j : Nat} {prim ing : Nat → Nat} (hj : j < 2 ^ dim)
    (hE : ∀ a b, E a b ↔ s ≤ b ∧ b < s + 2 * butterflyNodeCount dim ∧ a ∈ mergedPreds dim s prim ing b)
    (hprim : ∀ i < 2 ^ dim, prim i < s) (hing : ∀ i < 2 ^ dim, ing i < s)
    (hpi : ∀ i < 2 ^ dim, ∀ j < 2 ^ dim, prim i = prim j → i = j)
    (hii : ∀ i < 2 ^ dim, ∀ j < 2 ^ dim, ing i = ing j → i = j)
    (hdisj : ∀ i < 2 ^ dim, ∀ j < 2 ^ dim, prim i ≠ ing j) : MergedPaths E dim s prim ing j := by
  have hcs : centerStart dim s = s + butterflyNodeCount dim := rfl
  have hleft : HasButterfly E dim s fun i => [ing i] := fun l hl i hi a => by
    have hlt := cell_lt (s := s) hl hi
    rw [hE, mergedPreds, if_pos (by omega)]
    exact ⟨fun h => h.2.2, fun h => ⟨le_cell _ _ _ _, by omega, h⟩⟩
  have hright : HasButterfly E dim (centerStart dim s) fun i => sorted2 (prim i) (connectorOut dim s i) :=
    fun l hl i hi a => by
      have hle := le_cell dim (centerStart dim s) l i
      have hlt := cell_lt (s := centerStart dim s) hl hi
      rw [hE, mergedPreds, if_neg (by omega)]
      exact ⟨fun h => h.2.2, fun h => ⟨by omega, by omega, h⟩⟩
  have hold : ∀ u v q, v < s → (Trail E u q v ↔ q = [] ∧ u = v) := fun u v q hv =>
    trail_to_start fun a ha => absurd ((hE a v).mp ha).1 (Nat.not_le.mpr hv)
  have hmid : ∀ u < s, ∀ k < 2 ^ dim, ∀ q, Trail E u q (connectorOut dim s k) ↔
      ∃ i < 2 ^ dim, u = ing i ∧ q = butterflyPath dim s dim i k := by
    intro u hu k hk q
    rw [butterfly_paths_out hleft hu hk]
    constructor
    · rintro ⟨i, hi, a, ha, q', hq', rfl⟩
      obtain rfl := List.mem_singleton.mp ha
      obtain ⟨rfl, rfl⟩ := (hold _ _ _ (hing i hi)).mp hq'
      exact ⟨i, hi, rfl, rfl⟩
    · rintro ⟨i, hi, rfl, rfl⟩
      exact ⟨i, hi, _, List.mem_singleton.mpr rfl, [], rfl, rfl⟩
  have hpath : ∀ u < s, ∀ p, Trail E u p (mergedOut dim s j) ↔ ∃ k < 2 ^ dim,
      (u = prim k ∧ p = butterflyPath dim (centerStart dim s) dim k j) ∨
        ∃ i < 2 ^ dim, u = ing i ∧
          p = butterflyPath dim s dim i k ++ butterflyPath dim (centerStart dim s) dim k j := by
    intro u hu p
    rw [mergedOut, butterfly_paths_out hright (show u < centerStart dim s by omega) hj]
    constructor
    · rintro ⟨k, hk, a, ha, q, hq, rfl⟩
      rcases mem_sorted2.mp ha with rfl | rfl
      · obtain ⟨rfl, rfl⟩ := (hold _ _ _ (hprim k hk)).mp hq
        exact ⟨k, hk, Or.inl ⟨rfl, rfl⟩⟩
      · obtain ⟨i, hi, rfl, rfl⟩ := (hmid u hu k hk q).mp hq
        exact ⟨k, hk, Or.inr ⟨i, hi, rfl, rfl⟩⟩
    · rintro ⟨k, hk, ⟨rfl, rfl⟩ | ⟨i, hi, rfl, rfl⟩⟩
      · exact ⟨k, hk, _, mem_sorted2.mpr (Or.inl rfl), [], rfl, rfl⟩
      · exact ⟨k, hk, _, mem_sorted2.mpr (Or.inr rfl), _, (hmid _ hu k hk _).mpr ⟨i, hi, rfl, rfl⟩, rfl⟩
  refine ⟨fun i hi p => (hpath _ (hprim i hi) p).trans ?_, fun i hi p => (hpath _ (hing i hi) p).trans ?_⟩
  · constructor
    · rintro ⟨k, hk, ⟨hik, rfl⟩ | ⟨i', hi', hii', -⟩⟩
      · rw [hpi i hi k hk hik]
      · exact absurd hii' (hdisj i hi i' hi')
    · rintro rfl
      exact ⟨i, hi, Or.inl ⟨rfl, rfl⟩⟩
  · constructor
    · rintro ⟨k, hk, ⟨hik, -⟩ | ⟨i', hi', hii', rfl⟩⟩
      · exact absurd hik.symm (hdisj k hk i hi)
      · rw [hii i hi i' hi' hii']
        exact ⟨k, hk, rfl⟩
    · rintro ⟨k, hk, rfl⟩
      exact ⟨k, hk, Or.inr ⟨i, hi, rfl, rfl⟩⟩

/-- A path from an ingress input has exactly the ingress output at which it leaves the ingress copy. -/
theorem ingressOutput_mem_iff {e : Emitter α} {dim i j k k' : Nat} (hi : i < 2 ^ dim) (hj : j < 2 ^ dim)
    (hk : k < 2 ^ dim) (hk' : k' < 2 ^ dim) :
    ingressOutput e dim k' ∈ butterflyPath dim e.nextId dim i k ++
      butterflyPath dim (centerStart dim e.nextId) dim k j ↔ k' = k := by
  rw [ingressOutput_eq, List.mem_append, connectorOut_mem_iff hi hk' hk]
  refine or_iff_left fun hx => ?_
  have hcs : centerStart dim e.nextId = e.nextId + butterflyNodeCount dim := rfl
  have hlo := (mem_butterflyPath hk hj hx).1
  have hhi := connectorOut_lt (s := e.nextId) hk'
  omega

/-- **The paths of the merged center**: one from each primary input to each output; from each ingress input to each
output `2 ^ dim`, one through each ingress output. -/
theorem emitMergedCenterIngress_paths (e : Emitter α) (dim primary ingress outputs : Nat) (hrec : e.Records)
    (hin : MergedInputs e dim primary ingress) (hroom : outputs + 2 ^ dim ≤ e.top) :
    let e' := emitMergedCenterIngress H e dim primary ingress outputs
    ∀ i < 2 ^ dim, ∀ j < 2 ^ dim,
      OnePath e e' (e.mem (primary + i)) (e'.mem (outputs + j)) ∧
        {p | Trail (Recorded e e') (e.mem (ingress + i)) p (e'.mem (outputs + j))}.ncard = 2 ^ dim ∧
        (∀ p, Trail (Recorded e e') (e.mem (ingress + i)) p (e'.mem (outputs + j)) →
          ∃! k, k < 2 ^ dim ∧ ingressOutput e dim k ∈ p) ∧
        ∀ k < 2 ^ dim, ∃! p, Trail (Recorded e e') (e.mem (ingress + i)) p (e'.mem (outputs + j)) ∧
          ingressOutput e dim k ∈ p := by
  intro e' i hi j hj
  let prim := fun i => e.mem (primary + i)
  let ing := fun i => e.mem (ingress + i)
  have hemits : (emitFollows H (mergedPreds dim e.nextId prim ing) (e.nextId + 2 * butterflyNodeCount dim)).Emits
      (2 * butterflyNodeCount dim) (mergedPeak dim) outputs (2 ^ dim) (mergedOut dim e.nextId) e e' := by
    have he' : e' = (emitScheme H).merged e dim primary ingress outputs := emitMergedCenterIngress_eq ..
    rw [he']
    exact Scheme.Follows.merged_emits prim ing hrec.oneMode le_rfl (fun _ _ => rfl) (fun _ _ => rfl) (fun _ _ => rfl)
      hin.primary.older hin.ingress.older hin.primary.below hin.ingress.below hroom
  have hout : e'.mem (outputs + j) = mergedOut dim e.nextId j := hemits.out j hj
  have hedge : ∀ a b, Recorded e e' a b ↔
      e.nextId ≤ b ∧ b < e.nextId + 2 * butterflyNodeCount dim ∧ a ∈ mergedPreds dim e.nextId prim ing b := by
    refine recorded_iff hrec hemits.emitted fun x hx => ?_
    exact (mergedPreds_entry hin.primary.older hin.ingress.older (Nat.le_add_right _ x)
      (Nat.add_lt_add_left hx _)).length_le
  have hpaths := merged_paths hj hedge hin.primary.older hin.ingress.older hin.primary.distinct hin.ingress.distinct
    hin.disjoint
  have hthrough : ∀ k < 2 ^ dim, ∀ k' < 2 ^ dim, ingressOutput e dim k' ∈ butterflyPath dim e.nextId dim i k ++
      butterflyPath dim (centerStart dim e.nextId) dim k j ↔ k' = k :=
    fun k hk k' hk' => ingressOutput_mem_iff hi hj hk hk'
  rw [hout]
  refine ⟨⟨_, (hpaths.primary i hi _).mpr rfl, fun p hp => (hpaths.primary i hi p).mp hp⟩, ?_, fun p hp => ?_,
    fun k hk => ?_⟩
  · have himage : {p | Trail (Recorded e e') (ing i) p (mergedOut dim e.nextId j)} =
        (fun k => butterflyPath dim e.nextId dim i k ++ butterflyPath dim (centerStart dim e.nextId) dim k j) ''
          Finset.range (2 ^ dim) := by
      ext p
      rw [Set.mem_ofPred_eq, hpaths.ingress i hi p]
      simp only [Set.mem_image, Finset.coe_range, Set.mem_Iio, eq_comm]
    rw [show e.mem (ingress + i) = ing i from rfl, himage, Set.InjOn.ncard_image, Set.ncard_coe_finset,
      Finset.card_range]
    intro k hk k' hk' hkk
    rw [Finset.coe_range, Set.mem_Iio] at hk hk'
    dsimp only at hkk
    have hmem := (hthrough k hk k hk).mpr rfl
    rw [hkk] at hmem
    exact (hthrough k' hk' k hk).mp hmem
  · obtain ⟨k, hk, rfl⟩ := (hpaths.ingress i hi p).mp hp
    exact ⟨k, ⟨hk, (hthrough k hk k hk).mpr rfl⟩, fun k' hk' => (hthrough k hk k' hk'.1).mp hk'.2⟩
  · refine ⟨_, ⟨(hpaths.ingress i hi _).mpr ⟨k, hk, rfl⟩, (hthrough k hk k hk).mpr rfl⟩, fun p hp => ?_⟩
    obtain ⟨k', hk', rfl⟩ := (hpaths.ingress i hi p).mp hp.1
    rw [(hthrough k' hk' k hk).mp hp.2]

/-- **Paths of the butterflies**: in a connector one from each input to each output, in a merged center one from each
primary input to each output and `2 ^ dim` from each ingress input, one through each ingress output. -/
theorem butterflies_paths (e : Emitter α) (dim : Nat) (hrec : e.Records) :
    (∀ inputs outputs, ConnectorInputs e dim inputs →
      let e' := emitConnector H e dim inputs outputs
      ∀ i < 2 ^ dim, ∀ j < 2 ^ dim,
        OnePath e e' (e.mem (inputs + i)) (e'.mem (outputs + j)) ∧
          ∀ p, Trail (Recorded e e') (e.mem (inputs + i)) p (e'.mem (outputs + j)) → p.length = dim + 1) ∧
      ∀ primary ingress outputs, MergedInputs e dim primary ingress → outputs + 2 ^ dim ≤ e.top →
        let e' := emitMergedCenterIngress H e dim primary ingress outputs
        ∀ i < 2 ^ dim, ∀ j < 2 ^ dim,
          OnePath e e' (e.mem (primary + i)) (e'.mem (outputs + j)) ∧
            {p | Trail (Recorded e e') (e.mem (ingress + i)) p (e'.mem (outputs + j))}.ncard = 2 ^ dim ∧
            (∀ p, Trail (Recorded e e') (e.mem (ingress + i)) p (e'.mem (outputs + j)) →
              ∃! k, k < 2 ^ dim ∧ ingressOutput e dim k ∈ p) ∧
            ∀ k < 2 ^ dim, ∃! p, Trail (Recorded e e') (e.mem (ingress + i)) p (e'.mem (outputs + j)) ∧
              ingressOutput e dim k ∈ p :=
  ⟨fun inputs outputs => emitConnector_paths e dim inputs outputs hrec,
    fun primary ingress outputs => emitMergedCenterIngress_paths e dim primary ingress outputs hrec⟩

/-- Four nodes exist, with their ids at the addresses `0, ..., 3`. -/
def fourNodes : Emitter Unit := { edgeEmitter (fun _ => ⟨0, 0, 0, -1⟩) (fun x => x) 6 8 with nextId := 4 }

theorem butterflies_paths_four :
    OnePath fourNodes (emitConnector noHash fourNodes 1 0 4) (fourNodes.mem 0)
        ((emitConnector noHash fourNodes 1 0 4).mem 5) ∧
      OnePath fourNodes (emitMergedCenterIngress noHash fourNodes 1 0 2 4) (fourNodes.mem 1)
        ((emitMergedCenterIngress noHash fourNodes 1 0 2 4).mem 4) := by
  have harray : ∀ x, x + 2 ≤ 4 → ConnectorInputs fourNodes 1 x := fun x hx =>
    ⟨by rw [show fourNodes.top = 6 from rfl]; omega, fun i hi => (by omega : x + i < 4), fun i _ j _ h => Nat.add_left_cancel h⟩
  have hpaths := butterflies_paths (H := noHash) fourNodes 1 ⟨rfl, rfl⟩
  refine ⟨(hpaths.1 0 4 (harray 0 (by decide)) 0 (by decide) 1 (by decide)).1,
    (hpaths.2 0 2 4 ⟨harray 0 (by decide), harray 2 (by decide), fun i hi j hj => ?_⟩ (by decide) 1 (by decide) 0
      (by decide)).1⟩
  exact fun h => by
    have h' : 0 + i = 2 + j := h
    omega

/-! ## What the calls find -/

theorem Emitter.Records.run {e e' : Emitter α} (h : e.Records) {G : Nat → List Nat} {c : Nat}
    (hrun : e'.core = e.core.run H G c) : e'.Records := by
  obtain ⟨nodes, hnodes⟩ := Option.isSome_iff_exists.mp h.nodes
  have hnodes' : e'.nodes = _ := (congrArg EmitCore.nodes hrun).trans (EmitCore.run_nodes hnodes c)
  have hlabels : e'.labels = none :=
    (congrArg EmitCore.labels hrun).trans (EmitCore.run_labels_none (k := e.core) h.labels c).1
  exact ⟨hlabels, by rw [hnodes']; rfl⟩

/-- The emitter of a call records edges, and its inputs are different nodes. -/
def EmitCall.Finds : EmitCall α → Prop
  | .standalone e _ _ => e.Records
  | .connected e level inputs _ =>
    e.Records ∧ ∀ i < 2 ^ level, ∀ j < 2 ^ level, e.mem (inputs + i) = e.mem (inputs + j) → i = j

theorem alloc3_scheme (H : PoseHash α) (e : Emitter α) (level : Nat) :
    e.alloc3 (2 ^ level) = (emitScheme H).alloc (2 ^ level + 2 ^ level + 2 ^ level) e :=
  alloc3_eq e (Nat.two_pow_pos level)

theorem connectorOut_inj {dim s i j : Nat} (h : connectorOut dim s i = connectorOut dim s j) : i = j := by
  rw [connectorOut, connectorOut, cell, cell] at h
  omega

theorem distinct_of_out {mem : Nat → Nat} {out w : Nat} {ids : Nat → Nat} (hout : ∀ i < w, mem (out + i) = ids i)
    (hids : ∀ i < w, ∀ j < w, ids i = ids j → i = j) : ∀ i < w, ∀ j < w, mem (out + i) = mem (out + j) → i = j :=
  fun i hi j hj h => hids i hi j hj (by rwa [hout i hi, hout j hj] at h)

theorem EmitCall.Makes.finds {G : Nat → List Nat} {N : Nat} {c c' : EmitCall α} (hc : Makes H c c')
    (h : c.Args H G N) (hf : c.Finds) : c'.Finds := by
  cases hc with
  | standaloneLeft e level baseOut => exact ⟨hf.labels, hf.nodes⟩
  | standaloneRight e level baseOut =>
    have hl := Scheme.Follows.standalone_emits h.left
    have hm := h.connector hl
    rw [standaloneMiddle, alloc3_scheme H, emitStandalone_eq, emitConnector_eq]
    have hstart : ((emitScheme H).alloc (2 ^ level + 2 ^ level + 2 ^ level) e).Records := ⟨hf.labels, hf.nodes⟩
    exact ⟨(hstart.run hl.emitted).run hm.emitted, distinct_of_out hm.out fun i _ j _ => connectorOut_inj⟩
  | connectedLeft e level inputs baseOut =>
    have hlt : 2 ^ level < 2 ^ (level + 1) := Nat.pow_lt_pow_succ (by decide)
    exact ⟨⟨hf.1.labels, hf.1.nodes⟩, fun i hi j hj => hf.2 i (by omega) j (by omega)⟩
  | connectedRight e level inputs baseOut =>
    obtain ⟨inp, h⟩ := h
    have hl := Scheme.Follows.connected_emits h.left
    have hm := h.merged hl
    rw [connectedMiddle, alloc3_scheme H, emitConnected_eq, emitMergedCenterIngress_eq]
    have hstart : ((emitScheme H).alloc (2 ^ level + 2 ^ level + 2 ^ level) e).Records := ⟨hf.1.labels, hf.1.nodes⟩
    exact ⟨(hstart.run hl.emitted).run hm.emitted, distinct_of_out hm.out fun i _ j _ => connectorOut_inj⟩

theorem EmitCall.Finds.reach {G : Nat → List Nat} {N : Nat} {c c' : EmitCall α} (h : c.Args H G N) (hf : c.Finds)
    (hc : Relation.ReflTransGen (EmitCall.Makes H) c c') : c'.Finds := by
  induction hc with
  | refl => exact hf
  | tail hreach hmake ih => exact hmake.finds (h.reach hreach) ih

end Recorded

section EdgesCalls
variable {m : Nat} {heap : EdgeHeap} {e : Emitter Unit} {k inputs out : Nat}

theorem EdgesCalls.finds {c : EmitCall Unit} (h : EdgesCalls m heap c) : c.Finds := by
  have hstart : (edgeStart m heap).Records := ⟨rfl, rfl⟩
  rcases h with h | h
  · exact EmitCall.Finds.reach (EdgesCalls.args (Or.inl Relation.ReflTransGen.refl)) hstart h
  · have hfirst : EdgesCalls m heap (.standalone (edgeStart m heap) (poseGraphParameterN m + 1) 0) :=
      Or.inl Relation.ReflTransGen.refl
    have hrun := (Scheme.Follows.standalone_emits hfirst.args).emitted
    rw [← emitStandalone_eq] at hrun
    exact EmitCall.Finds.reach (EdgesCalls.args (Or.inr Relation.ReflTransGen.refl)) (hstart.run hrun) h

theorem connectedBase_inj {k s i j : Nat} (hi : i < 2 ^ k) (hj : j < 2 ^ k) (h : connectedBase k s i = connectedBase k s j) :
    i = j := by
  rcases Nat.lt_trichotomy i j with hlt | heq | hgt
  · exact absurd h (connectedBase_lt_of_lt hlt hj).ne
  · exact heq
  · exact absurd h (connectedBase_lt_of_lt hgt hi).ne'

/-- Every connector of the graph finds its inputs as `emitConnector_paths` wants them. -/
theorem EdgesCalls.connector_inputs (h : EdgesCalls m heap (.standalone e (k + 1) out)) :
    let e1 := emitStandalone noHash (e.alloc3 (2 ^ k)) k e.top
    e1.Records ∧ ConnectorInputs e1 k e.top := by
  let F := emitFollows noHash (scaffoldPreds m) (scratchNodeCount m)
  let e0 := (emitScheme noHash).alloc (2 ^ k + 2 ^ k + 2 ^ k) e
  have hpos := Nat.two_pow_pos k
  have hargs := h.args
  have hstart : e0.Records := ⟨h.finds.labels, h.finds.nodes⟩
  have hl : F.Emits (standaloneNodeCount k) (standalonePeak k) e.top (2 ^ k) (standaloneBase k e.nextId) e0
      ((emitScheme noHash).standalone e0 k e.top) :=
    Scheme.Follows.standalone_emits (Scheme.Follows.StandaloneArgs.left hargs)
  rw [alloc3_scheme noHash, emitStandalone_eq]
  revert hl
  generalize (emitScheme noHash).standalone e0 k e.top = e1
  intro hl
  have hnext : e1.nextId = e.nextId + standaloneNodeCount k := hl.toRan.nextId
  have htop : e1.top = e.top + (2 ^ k + 2 ^ k + 2 ^ k) := hl.toRan.top.trans (Scheme.Follows.top_alloc F _ e)
  have hout : ∀ i < 2 ^ k, e1.mem (e.top + i) = standaloneBase k e.nextId i := hl.out
  refine ⟨hstart.run hl.emitted, ?_, fun i hi => ?_, distinct_of_out hout fun i hi j hj => standaloneBase_inj hi hj⟩
  · rw [htop]
    omega
  · rw [hout i hi, hnext]
    exact standaloneBase_lt hi

/-- Every merged center of the graph finds its inputs as `emitMergedCenterIngress_paths` wants them. -/
theorem EdgesCalls.merged_inputs (h : EdgesCalls m heap (.connected e (k + 1) inputs out)) :
    let e1 := emitConnected noHash (e.alloc3 (2 ^ k)) k (2 ^ k) inputs e.top
    e1.Records ∧ MergedInputs e1 k e.top (inputs + 2 ^ k) ∧ e.top + 2 ^ k + 2 ^ k ≤ e1.top := by
  let F := emitFollows noHash (scaffoldPreds m) (scratchNodeCount m)
  let e0 := (emitScheme noHash).alloc (2 ^ k + 2 ^ k + 2 ^ k) e
  obtain ⟨inp, hargs⟩ := h.args
  obtain ⟨hrec, hdistinct⟩ := h.finds
  have hstart : e0.Records := ⟨hrec.labels, hrec.nodes⟩
  have hl : F.Emits (connectedNodeCount k) (connectedPeak k) e.top (2 ^ k) (connectedBase k e.nextId) e0
      ((emitScheme noHash).connected e0 k inputs e.top) :=
    Scheme.Follows.connected_emits (Scheme.Follows.ConnectedArgs.left hargs)
  rw [alloc3_scheme noHash, emitConnected_eq]
  revert hl
  generalize (emitScheme noHash).connected e0 k inputs e.top = e1
  intro hl
  have hpos := Nat.two_pow_pos k
  have hpow : 2 ^ (k + 1) = 2 ^ k + 2 ^ k := by rw [pow_succ]; omega
  have hbelow : inputs + 2 ^ (k + 1) ≤ e.top := hargs.below
  have hheld : ∀ i < 2 ^ (k + 1), e.mem (inputs + i) = inp i := hargs.held
  have holder : ∀ i < 2 ^ (k + 1), inp i < e.nextId := hargs.older
  have htop0 : (emitScheme noHash).top e0 = e.top + (2 ^ k + 2 ^ k + 2 ^ k) := Scheme.Follows.top_alloc F _ e
  have htop : e1.top = e.top + (2 ^ k + 2 ^ k + 2 ^ k) := hl.toRan.top.trans htop0
  have hnext : e1.nextId = e.nextId + connectedNodeCount k := hl.toRan.nextId
  have hframe : ∀ x < e.top, e1.mem x = e.mem x := fun x hx => hl.used.frame x fun hw => by
    rw [htop0] at hw
    omega
  have hprim : ∀ i < 2 ^ k, e1.mem (e.top + i) = connectedBase k e.nextId i := hl.out
  have hing : ∀ i < 2 ^ k, e1.mem (inputs + 2 ^ k + i) = e.mem (inputs + (2 ^ k + i)) := fun i hi => by
    rw [Nat.add_assoc]
    exact hframe _ (by omega)
  refine ⟨hstart.run hl.emitted, ⟨⟨by omega, fun i hi => ?_, ?_⟩, ⟨by omega, fun i hi => ?_, fun i hi j hj hij => ?_⟩,
    fun i hi j hj hij => ?_⟩, by omega⟩
  · rw [hprim i hi, hnext]
    exact connectedBase_lt hi
  · exact distinct_of_out hprim fun i hi j hj => connectedBase_inj hi hj
  · have hlt := holder (2 ^ k + i) (by omega)
    rw [hing i hi, hheld _ (by omega), hnext]
    omega
  · rw [hing i hi, hing j hj] at hij
    have hsame := hdistinct (2 ^ k + i) (by omega) (2 ^ k + j) (by omega) hij
    omega
  · have hlt := holder (2 ^ k + j) (by omega)
    have hle := le_connectedBase k e.nextId i
    rw [hprim i hi, hing j hj, hheld _ (by omega)] at hij
    omega

end EdgesCalls

end PoseDB.Graph
