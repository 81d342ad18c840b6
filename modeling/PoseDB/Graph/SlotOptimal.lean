import PoseDB.Graph.SlotMap
import Mathlib.Order.Bounds.Basic

/-!
# The slot map is safe and as small as possible

Of the pass over any node array whose predecessors come first: `last_use` is the level of the last reader, the counting
sorts list every id once, the stack of free slots never holds more than `count` entries, and the pool is as large as the
largest set of nodes live at one level, so no map with fewer slots is safe (`slotPass_optimal`). The map of
`pose_graph_slot_map` is the pass over the recorded graph (`poseGraphSlotMap_optimal`).
-/

set_option autoImplicit false

namespace PoseDB.Graph
open Loops Bucket SlotPool

variable {nodes : Nat → PoseNode} {count : Nat}

/-! ## Last readers -/

/-- `lastUse` is the level of the last reader, or of the node itself when nothing reads it. -/
structure IsLastUse (nodes : Nat → PoseNode) (count : Nat) (level lastUse : Nat → Nat) : Prop where
  unread : ∀ id < count, (∀ r < count, id ∉ (nodes r).preds) → lastUse id = level id
  read : ∀ id < count, (∃ r < count, id ∈ (nodes r).preds) →
    IsGreatest {l | ∃ r < count, id ∈ (nodes r).preds ∧ level r = l} (lastUse id)

theorem PoseNode.pred_mem {nd : PoseNode} (h2 : nd.numPreds ≤ 2) {k : Nat} (hk : k < nd.numPreds) :
    nd.pred k ∈ nd.preds := by
  unfold PoseNode.preds
  rcases (show nd.numPreds = 1 ∨ nd.numPreds = 2 by omega) with h | h <;> rw [h] at hk ⊢
  · obtain rfl : k = 0 := by omega
    exact List.mem_singleton.mpr rfl
  · rcases (show k = 0 ∨ k = 1 by omega) with rfl | rfl
    · exact List.mem_cons_self
    · exact List.mem_cons_of_mem _ (List.mem_singleton.mpr rfl)

/-- A raised entry is that of a predecessor, at the level of the reader. -/
theorem raiseUses_eq {nd : PoseNode} (h2 : nd.numPreds ≤ 2) (lv : Nat) (lastUse : Nat → Nat) (id : Nat) :
    raiseUses nd lv lastUse id = lastUse id ∨ id ∈ nd.preds ∧ raiseUses nd lv lastUse id = lv := by
  refine loop_inv (fun _ (use : Nat → Nat) => use id = lastUse id ∨ id ∈ nd.preds ∧ use id = lv) (.inl rfl) ?_
  intro k use hk ih
  by_cases hlt : use (nd.pred k) < lv
  · rw [if_pos hlt]
    by_cases h : id = nd.pred k
    · subst h
      rw [Function.update_self]
      exact .inr ⟨PoseNode.pred_mem h2 hk, rfl⟩
    · rw [Function.update_of_ne h]
      exact ih
  · rw [if_neg hlt]
    exact ih

theorem lastUsePass_eq (hdag : Descends nodes count) (level lastUse : Nat → Nat) (id : Nat) :
    lastUsePass nodes count level lastUse id = lastUse id ∨
      ∃ r < count, id ∈ (nodes r).preds ∧ level r = lastUsePass nodes count level lastUse id := by
  refine loop_inv (fun t (use : Nat → Nat) => use id = lastUse id ∨ ∃ r < t, id ∈ (nodes r).preds ∧ level r = use id)
    (.inl rfl) ?_
  intro t use ht ih
  rcases raiseUses_eq (hdag t ht).1 (level t) use id with h | ⟨hmem, h⟩
  · rw [h]
    exact ih.imp_right fun ⟨r, hr, hread⟩ => ⟨r, Nat.lt_succ_of_lt hr, hread⟩
  · exact .inr ⟨t, Nat.lt_succ_self t, hmem, h.symm⟩

theorem lastUsePass_isLastUse (hdag : Descends nodes count) (level lastUse : Nat → Nat) :
    let s := levelPass nodes count ⟨level, lastUse, 0⟩
    IsLastUse nodes count s.level (lastUsePass nodes count s.level s.lastUse) := by
  obtain ⟨hlevel, huse, hmax⟩ := levelPass_spec hdag level lastUse
  intro s
  obtain ⟨hge, -, hread⟩ := lastUsePass_spec hdag hmax fun id hid => (huse id hid).trans_le (hmax id hid)
  constructor
  · intro id hid hnone
    rcases lastUsePass_eq hdag s.level s.lastUse id with h | ⟨r, hr, hmem, -⟩
    · exact h.trans (huse id hid)
    · exact absurd hmem (hnone r hr)
  · rintro id hid ⟨r, hr, hmem⟩
    constructor
    · rcases lastUsePass_eq hdag s.level s.lastUse id with h | h
      · -- a reader is above the node, so an entry that was never raised has no reader
        have h1 := hread r hr id hmem
        have h2 := hlevel.lt hdag hr hmem
        rw [h, huse id hid] at h1
        exact absurd h1 (Nat.not_le_of_lt h2)
      · exact h
    · rintro l ⟨r', hr', hmem', rfl⟩
      exact hread r' hr' id hmem'

theorem IsLevelling.le_id {level : Nat → Nat} (h : IsLevelling nodes count level) (hdag : Descends nodes count) :
    ∀ id < count, level id ≤ id := by
  intro id
  induction id using Nat.strong_induction_on with
  | _ id ih =>
    intro hid
    obtain ⟨h2, hlt⟩ := hdag id hid
    rw [h id hid]
    exact levelOf_le h2 fun p hp => (ih p (hlt p hp) ((hlt p hp).trans hid)).trans_lt (hlt p hp)

/-! ## The pass -/

/-- What the pass computes, and the state in which the loop over the levels starts. -/
structure SlotPass where
  map : SlotMap
  maxlevel : Nat
  lvl : Sorted
  fre : Sorted
  start : SlotState

/-- The part of `pose_graph_slot_map` after the graph is built, over any node array. -/
def slotPass (nodes : Nat → PoseNode) (count : Nat) (slotOut : Nat → Nat) (levels : (Nat → Nat) × (Nat → Nat))
    (sort : SortHeap) : SlotPass :=
  let s := levelPass nodes count ⟨levels.1, levels.2, 0⟩
  let lastUse := lastUsePass nodes count s.level s.lastUse
  let Ln := s.maxlevel + 1
  let lvl := countingSort count Ln s.level sort.lvlOrder sort.cur
  let fre := countingSort count Ln lastUse sort.freOrder lvl.cur
  let start : SlotState := ⟨slotOut, sort.freeStack, 0, 0⟩
  let st := slotLevels Ln lvl fre start
  ⟨⟨st.slotOut, st.nextNew, s.level, lastUse⟩, s.maxlevel, lvl, fre, start⟩

/-- The state inside level `lv`, after `i` births. -/
def SlotPass.afterBirths (P : SlotPass) (lv i : Nat) : SlotState :=
  loop i (fun i s => s.alloc (P.lvl.order (P.lvl.start lv + i))) (slotLevels lv P.lvl P.fre P.start)

/-- The state inside level `lv`, after all births and `i` deaths. -/
def SlotPass.afterDeaths (P : SlotPass) (lv i : Nat) : SlotState :=
  loop i (fun i s => s.release (P.fre.order (P.fre.start lv + i)))
    (P.afterBirths lv (P.lvl.start (lv + 1) - P.lvl.start lv))

/-- A sorted order lists every id once, key by key. -/
structure Lists (r : Sorted) (n L : Nat) (key : Nat → Nat) : Prop where
  perm : ((List.range n).map r.order).Perm (List.range n)
  start_zero : r.start 0 = 0
  start_top : r.start L = n
  start_le : ∀ lv < L, r.start lv ≤ r.start (lv + 1)
  key_eq : ∀ lv < L, ∀ i, r.start lv ≤ i → i < r.start (lv + 1) → key (r.order i) = lv

theorem Lists.of_sorts {r : Sorted} {n L : Nat} {key : Nat → Nat} (h : r.Sorts n L key) (hkey : ∀ id < n, key id < L) :
    Lists r n L key := by
  refine ⟨h.order_perm hkey, ?_, ?_, fun lv hlv => ?_, fun lv hlv i hlo hhi => ?_⟩
  · rw [h.start 0 (Nat.zero_le L), Bucket.start_zero]
  · rw [h.start L le_rfl, Bucket.start_top hkey]
  · rw [h.start lv (Nat.le_of_lt hlv), h.start (lv + 1) hlv]
    exact start_mono key n (Nat.le_succ lv)
  · obtain ⟨j, rfl⟩ := Nat.exists_eq_add_of_le hlo
    have hj : j < (bucket key n lv).length := by
      rw [length_bucket, ← h.size hlv]
      omega
    rw [h.start lv (Nat.le_of_lt hlv), order_bucket h.order hj]
    exact (mem_bucket.mp (List.getElem_mem hj)).2

def Meet (level lastUse : Nat → Nat) (a b : Nat) : Prop := level a ≤ lastUse b ∧ level b ≤ lastUse a

def liveCount (count : Nat) (level lastUse : Nat → Nat) (lv : Nat) : Nat := (alive count level lastUse lv).length

/-- What the pass promises. -/
structure SlotPass.Optimal (P : SlotPass) (nodes : Nat → PoseNode) (count : Nat) : Prop where
  levelling : IsLevelling nodes count P.map.level
  level_le : ∀ id < count, P.map.level id ≤ id
  lastUse : IsLastUse nodes count P.map.level P.map.lastUse
  births : Lists P.lvl count (P.maxlevel + 1) P.map.level
  deaths : Lists P.fre count (P.maxlevel + 1) P.map.lastUse
  stack : ∀ lv ≤ P.maxlevel,
    (∀ i ≤ P.lvl.start (lv + 1) - P.lvl.start lv, (P.afterBirths lv i).freeTop ≤ count) ∧
      ∀ i ≤ P.fre.start (lv + 1) - P.fre.start lv, (P.afterDeaths lv i).freeTop ≤ count
  slot_lt : ∀ id < count, P.map.slot id < P.map.poolSize
  slot_ne : ∀ a < count, ∀ b < count, a ≠ b → Meet P.map.level P.map.lastUse a b → P.map.slot a ≠ P.map.slot b
  poolSize : IsGreatest (Set.range (liveCount count P.map.level P.map.lastUse)) P.map.poolSize
  minimal : ∀ (slot : Nat → Nat) (k : Nat), (∀ id < count, slot id < k) →
    (∀ a < count, ∀ b < count, a ≠ b → Meet P.map.level P.map.lastUse a b → slot a ≠ slot b) → P.map.poolSize ≤ k

theorem liveCount_le {level lastUse slot : Nat → Nat} {k : Nat} (hlt : ∀ id < count, slot id < k)
    (hne : ∀ a < count, ∀ b < count, a ≠ b → Meet level lastUse a b → slot a ≠ slot b) (lv : Nat) :
    liveCount count level lastUse lv ≤ k := by
  have hnd : ((alive count level lastUse lv).map slot).Nodup := by
    refine List.Nodup.map_on (fun a ha b hb hab => ?_) (nodup_alive count level lastUse lv)
    obtain ⟨ha, ha1, ha2⟩ := mem_alive.mp ha
    obtain ⟨hb, hb1, hb2⟩ := mem_alive.mp hb
    by_contra hne'
    exact hne a ha b hb hne' ⟨ha1.trans hb2, hb1.trans ha2⟩ hab
  have hsub : (alive count level lastUse lv).map slot ⊆ List.range k := fun x hx => by
    obtain ⟨id, hid, rfl⟩ := List.mem_map.mp hx
    exact List.mem_range.mpr (hlt id (mem_alive.mp hid).1)
  have hlen := (hnd.subperm hsub).length_le
  rwa [List.length_map, List.length_range] at hlen

theorem SlotState.pool_free (s : SlotState) : s.pool.free.length = s.freeTop := by
  unfold SlotState.pool
  rw [List.length_map, List.length_reverse, List.length_range]

section Stack
variable {born dies : Nat → Nat} {L : Nat} {P : SlotPass} (hlvl : P.lvl.Sorts count L born)
  (hfre : P.fre.Sorts count L dies)
include hlvl hfre

theorem SlotPass.levels_pool {lv : Nat} (hlv : lv ≤ L) :
    (slotLevels lv P.lvl P.fre P.start).pool = runLevels (bucket born count) (bucket dies count) P.start.pool lv :=
  slotLevels_pool ⟨fun k hk => hlvl.start k (hk.trans hlv), hlvl.order⟩
    ⟨fun k hk => hfre.start k (hk.trans hlv), hfre.order⟩ P.start

theorem SlotPass.afterBirths_pool {lv i : Nat} (hlv : lv < L) (hi : i ≤ P.lvl.start (lv + 1) - P.lvl.start lv) :
    (P.afterBirths lv i).pool =
      SlotPool.afterBirths (bucket born count) (bucket dies count) P.start.pool lv i := by
  unfold SlotPass.afterBirths SlotPool.afterBirths
  rw [hlvl.loop_take hlv hi (fun id (s : SlotState) => s.alloc id), SlotState.pool_allocAll,
    levels_pool hlvl hfre (Nat.le_of_lt hlv)]

theorem SlotPass.afterDeaths_pool {lv i : Nat} (hlv : lv < L) (hi : i ≤ P.fre.start (lv + 1) - P.fre.start lv) :
    (P.afterDeaths lv i).pool =
      SlotPool.afterDeaths (bucket born count) (bucket dies count) P.start.pool lv i := by
  have hbirths := afterBirths_pool hlvl hfre hlv (i := P.lvl.start (lv + 1) - P.lvl.start lv) le_rfl
  have hall : (bucket born count lv).take (P.lvl.start (lv + 1) - P.lvl.start lv) = bucket born count lv := by
    rw [hlvl.size hlv, ← length_bucket, List.take_length]
  unfold SlotPass.afterDeaths SlotPool.afterDeaths
  rw [hfre.loop_take hlv hi (fun id (s : SlotState) => s.release id), SlotState.pool_releaseAll, hbirths]
  unfold SlotPool.afterBirths
  rw [hall]

end Stack

section Pass
variable (hdag : Descends nodes count) (slotOut : Nat → Nat) (levels : (Nat → Nat) × (Nat → Nat)) (sort : SortHeap)
include hdag

theorem slotPass_sorts :
    let P := slotPass nodes count slotOut levels sort
    (P.lvl.Sorts count (P.maxlevel + 1) P.map.level ∧ P.fre.Sorts count (P.maxlevel + 1) P.map.lastUse) ∧
      (∀ id < count, P.map.level id < P.maxlevel + 1) ∧ ∀ id < count, P.map.lastUse id < P.maxlevel + 1 := by
  obtain ⟨-, huse, hmax⟩ := levelPass_spec hdag levels.1 levels.2
  obtain ⟨-, hle, -⟩ := lastUsePass_spec hdag hmax fun id hid => (huse id hid).trans_le (hmax id hid)
  intro P
  have hlevel : ∀ id < count, P.map.level id < P.maxlevel + 1 := fun id hid => Nat.lt_succ_of_le (hmax id hid)
  have hlast : ∀ id < count, P.map.lastUse id < P.maxlevel + 1 := fun id hid => Nat.lt_succ_of_le (hle id hid)
  exact ⟨⟨countingSort_spec _ _ hlevel, countingSort_spec _ _ hlast⟩, hlevel, hlast⟩

/-- The pool size is the largest number of nodes live at one level. -/
theorem slotPass_poolSize :
    let P := slotPass nodes count slotOut levels sort
    IsGreatest (Set.range (liveCount count P.map.level P.map.lastUse)) P.map.poolSize := by
  obtain ⟨⟨hlvl, hfre⟩, hlt, -⟩ := slotPass_sorts hdag slotOut levels sort
  intro P
  have hlive : ∀ id < count, P.map.level id ≤ P.map.lastUse id :=
    (slotMap_fits hdag levels.1 levels.2 slotOut sort).live
  have hpool := congrArg Pool.next (slotLevels_pool hlvl hfre P.start)
  have hnext : ∀ k, P.map.poolSize ≤ k ↔ ∀ lv < P.maxlevel + 1, liveCount count P.map.level P.map.lastUse lv ≤ k := by
    intro k
    show (slotLevels (P.maxlevel + 1) P.lvl P.fre P.start).pool.next ≤ k ↔ _
    rw [hpool]
    exact runLevels_next (n := count) (bucket P.map.level count) (bucket P.map.lastUse count) slotOut
      (fun lv _ => ⟨nodup_bucket _ _ _, nodup_bucket _ _ _, fun _ => mem_bucket, fun _ => mem_bucket⟩) hlive k
  have hupper : ∀ lv, liveCount count P.map.level P.map.lastUse lv ≤ P.map.poolSize := by
    intro lv
    by_cases hlv : lv < P.maxlevel + 1
    · exact (hnext _).mp le_rfl lv hlv
    · -- nothing is live above the greatest level
      have hnil : alive count P.map.level P.map.lastUse lv = [] := List.eq_nil_iff_forall_not_mem.mpr fun id hid => by
        obtain ⟨hid, -, hd⟩ := mem_alive.mp hid
        have := (slotPass_sorts hdag slotOut levels sort).2.2 id hid
        exact hlv (lt_of_le_of_lt hd this)
      unfold liveCount
      rw [hnil]
      exact Nat.zero_le _
  refine ⟨?_, fun k ⟨lv, hk⟩ => hk ▸ hupper lv⟩
  by_contra hnone
  have hlower : ∀ lv < P.maxlevel + 1, liveCount count P.map.level P.map.lastUse lv ≤ P.map.poolSize - 1 := by
    intro lv _
    have h1 := hupper lv
    have h2 : liveCount count P.map.level P.map.lastUse lv ≠ P.map.poolSize := fun h => hnone ⟨lv, h⟩
    omega
  have h0 : liveCount count P.map.level P.map.lastUse 0 ≠ P.map.poolSize := fun h => hnone ⟨0, h⟩
  have h1 := hupper 0
  have h2 := (hnext _).mpr hlower
  omega

/-- The stack of free slots stays within its `count` entries. -/
theorem slotPass_stack :
    let P := slotPass nodes count slotOut levels sort
    ∀ lv ≤ P.maxlevel,
      (∀ i ≤ P.lvl.start (lv + 1) - P.lvl.start lv, (P.afterBirths lv i).freeTop ≤ count) ∧
        ∀ i ≤ P.fre.start (lv + 1) - P.fre.start lv, (P.afterDeaths lv i).freeTop ≤ count := by
  obtain ⟨⟨hlvl, hfre⟩, -⟩ := slotPass_sorts hdag slotOut levels sort
  intro P lv hlv
  have hlv' := Nat.lt_succ_of_le hlv
  have hfree := runLevels_free_le (n := count) (L := P.maxlevel + 1) (bucket P.map.level count)
    (bucket P.map.lastUse count) slotOut
    (fun lv _ => ⟨nodup_bucket _ _ _, nodup_bucket _ _ _, fun _ => mem_bucket, fun _ => mem_bucket⟩)
    (slotMap_fits hdag levels.1 levels.2 slotOut sort).live hlv'
  constructor
  · intro i hi
    rw [← SlotState.pool_free, SlotPass.afterBirths_pool hlvl hfre hlv' hi]
    exact (hfree i).1
  · intro i hi
    rw [← SlotState.pool_free, SlotPass.afterDeaths_pool hlvl hfre hlv' hi]
    exact (hfree i).2

/-- **The pass is safe and minimal** over every node array whose predecessors come first. -/
theorem slotPass_optimal : (slotPass nodes count slotOut levels sort).Optimal nodes count := by
  obtain ⟨⟨hlvl, hfre⟩, hlevel, hlast⟩ := slotPass_sorts hdag slotOut levels sort
  have hfits := slotMap_fits hdag levels.1 levels.2 slotOut sort
  have hpool := slotPass_poolSize hdag slotOut levels sort
  refine ⟨hfits.levelling, hfits.levelling.le_id hdag, lastUsePass_isLastUse hdag levels.1 levels.2,
    .of_sorts hlvl hlevel, .of_sorts hfre hlast, slotPass_stack hdag slotOut levels sort, hfits.slot_lt,
    fun a ha b hb hab hmeet => hfits.slot_ne a ha b hb hab hmeet.1 hmeet.2, hpool, fun slot k hlt hne => ?_⟩
  obtain ⟨lv, hlv⟩ := hpool.1
  rw [← hlv]
  exact liveCount_le hlt hne lv

end Pass

/-! ## The map of the recorded graph -/

theorem poseGraphSlotMap_eq {c : Nat} {slotOut : Option (Nat → Nat)} {poolSizeOut : Option Nat} {heap : SlotHeap}
    {S : SlotMap} (h : poseGraphSlotMap c slotOut poolSizeOut heap = some S) :
    ∃ E out levels sort, resolveChunkBlocks c ≤ poseGraphMaxM ∧ 0 < resolveChunkBlocks c ∧
      poseGraphEdges (resolveChunkBlocks c) heap.edges = some E ∧ slotOut = some out ∧
      S = (slotPass E.nodes E.count out levels sort).map := by
  unfold poseGraphSlotMap at h
  split at h
  · rename_i out _
    dsimp only at h
    split at h
    · cases h
    · rename_i hc
      obtain ⟨E, hE, h⟩ := Option.bind_eq_some_iff.mp h
      split at h
      · cases h
      · obtain ⟨levels, -, h⟩ := Option.bind_eq_some_iff.mp h
        obtain ⟨sort, -, h⟩ := Option.bind_eq_some_iff.mp h
        cases h
        exact ⟨E, out, levels, sort, by omega, by omega, hE, rfl, rfl⟩
  · cases h

/-- The levels of every accepted graph fit a C `int`. -/
theorem scratchNodeCount_lt_int {m : Nat} (hm : m ≤ poseGraphMaxM) : scratchNodeCount m < 2 ^ 31 := by
  have h := standaloneNodeCount_mono (show poseGraphParameterN m + 1 ≤ 20 from poseGraphParameterN_lt hm)
  have h20 : standaloneNodeCount 20 < 2 ^ 30 := by decide
  rw [scratchNodeCount]
  omega

/-- **A slot map is safe and of minimum size**: of the pass over every node array whose predecessors come first, and of
every map that `pose_graph_slot_map` returns, whose levels moreover fit an `int`. -/
theorem poseGraphSlotMap_optimal :
    (∀ (nodes : Nat → PoseNode) (count : Nat), Descends nodes count →
      ∀ slotOut levels sort, (slotPass nodes count slotOut levels sort).Optimal nodes count) ∧
    ∀ c slotOut poolSizeOut heap S, poseGraphSlotMap c slotOut poolSizeOut heap = some S →
      ∃ E out levels sort, poseGraphEdges (resolveChunkBlocks c) heap.edges = some E ∧ slotOut = some out ∧
        S = (slotPass E.nodes E.count out levels sort).map ∧
        (slotPass E.nodes E.count out levels sort).Optimal E.nodes E.count ∧
        ∀ id < E.count, S.level id < 2 ^ 31 := by
  constructor
  · intro nodes count hdag slotOut levels sort
    exact slotPass_optimal hdag slotOut levels sort
  · intro c slotOut poolSizeOut heap S h
    obtain ⟨E, out, levels, sort, hmax, hpos, hE, hout, rfl⟩ := poseGraphSlotMap_eq h
    obtain ⟨edges, hedges⟩ : ∃ edges, heap.edges = some edges := by
      cases hh : heap.edges with
      | none =>
        rw [hh, poseGraphEdges, if_neg (by omega)] at hE
        cases hE
      | some edges => exact ⟨edges, rfl⟩
    obtain ⟨E', hE', hrec⟩ := poseGraphEdges_spec hpos hmax edges
    obtain rfl : E = E' := by
      rw [hedges, hE'] at hE
      exact (Option.some.inj hE).symm
    have hopt := slotPass_optimal hrec.descends out levels sort
    refine ⟨E, out, levels, sort, hE, hout, rfl, hopt, fun id hid => ?_⟩
    have hint := scratchNodeCount_lt_int hmax
    rw [hrec.count] at hid
    exact ((hopt.level_le id (hrec.count ▸ hid)).trans_lt hid).trans hint

/-- The map at three blocks, and the pass over a path. -/
theorem poseGraphSlotMap_optimal_three :
    (slotPass (fun id => ⟨min id 1, id - 1, 0, -1⟩) 5 (fun _ => 0) (fun _ => 0, fun _ => 0) .zero).Optimal
      (fun id => ⟨min id 1, id - 1, 0, -1⟩) 5 ∧
    ∃ (S : SlotMap) (E : EdgeList) (out : Nat → Nat) (levels : (Nat → Nat) × (Nat → Nat)) (sort : SortHeap),
      poseGraphSlotMap 3 (some fun _ => 0) (some 0)
        ⟨some EdgeHeap.zero, some (fun _ => 0, fun _ => 0), some .zero⟩ = some S ∧
      S = (slotPass E.nodes E.count out levels sort).map ∧
      (slotPass E.nodes E.count out levels sort).Optimal E.nodes E.count := by
  constructor
  · exact poseGraphSlotMap_optimal.1 _ 5 (by unfold Descends; decide) _ _ _
  · obtain ⟨_, S, -, -, hS, -⟩ := poseGraphSlotMap_spec (c := 3) (by decide) (by decide) (fun _ => 0) 0 .zero
      (fun _ => 0, fun _ => 0) .zero
    obtain ⟨E, out, levels, sort, -, -, hmap, hopt, -⟩ := poseGraphSlotMap_optimal.2 3 _ _ _ S hS
    exact ⟨S, E, out, levels, sort, hS, hmap, hopt⟩

end PoseDB.Graph
