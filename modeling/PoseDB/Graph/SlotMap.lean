import PoseDB.Lib.Bucket
import PoseDB.Lib.Pool
import PoseDB.Graph.Edges

/-!
# Slot recycling (`pose_graph_slot_map`)

One pass computes the dependency level of every node, a second one the last level at which it is read; two counting
sorts group the ids by either; then slots are handed out level by level from a stack of free ones. The levels strictly
increase along every edge (`levelPass_spec`), and two nodes whose labels are needed at a common level get different
slots (`poseGraphSlotMap_spec`).
-/

set_option autoImplicit false

namespace PoseDB.Graph
open Loops Bucket SlotPool

/-! ## The code -/

/-- The level of a node, from the levels of its predecessors. -/
def levelOf (level : Nat → Nat) (nd : PoseNode) : Nat :=
  if nd.numPreds = 0 then 0
  else if nd.numPreds = 1 then level nd.pred0 + 1
  else
    let a := level nd.pred0
    let b := level nd.pred1
    (if a > b then a else b) + 1

/-- The arrays `level` and `last_use` and the running maximum. -/
structure LevelPass where
  level : Nat → Nat
  lastUse : Nat → Nat
  maxlevel : Nat

def levelPass (nodes : Nat → PoseNode) (count : Nat) (s : LevelPass) : LevelPass :=
  loop count (fun id s =>
    let lv := levelOf s.level (nodes id)
    ⟨Function.update s.level id lv, Function.update s.lastUse id lv, if lv > s.maxlevel then lv else s.maxlevel⟩) s

/-- `nodes[id].pred[k]`. -/
def PoseNode.pred (nd : PoseNode) (k : Nat) : Nat := if k = 0 then nd.pred0 else nd.pred1

/-- Raise `last_use` of the predecessors of a node to its level `lv`. -/
def raiseUses (nd : PoseNode) (lv : Nat) (lastUse : Nat → Nat) : Nat → Nat :=
  loop nd.numPreds (fun k lastUse =>
    let p := nd.pred k
    if lastUse p < lv then Function.update lastUse p lv else lastUse) lastUse

def lastUsePass (nodes : Nat → PoseNode) (count : Nat) (level lastUse : Nat → Nat) : Nat → Nat :=
  loop count (fun id lastUse => raiseUses (nodes id) (level id) lastUse) lastUse

/-- `slot_out`, the stack of free slots with its height, and `next_new`. -/
structure SlotState where
  slotOut : Nat → Nat
  freeStack : Nat → Nat
  freeTop : Nat
  nextNew : Nat

/-- `slot_out[id] = (free_top > 0) ? free_stack[--free_top] : next_new++;` -/
def SlotState.alloc (s : SlotState) (id : Nat) : SlotState :=
  if s.freeTop > 0 then
    { s with slotOut := Function.update s.slotOut id (s.freeStack (s.freeTop - 1)), freeTop := s.freeTop - 1 }
  else { s with slotOut := Function.update s.slotOut id s.nextNew, nextNew := s.nextNew + 1 }

/-- `free_stack[free_top++] = slot_out[id];` -/
def SlotState.release (s : SlotState) (id : Nat) : SlotState :=
  { s with freeStack := Function.update s.freeStack s.freeTop (s.slotOut id), freeTop := s.freeTop + 1 }

def slotLevels (Ln : Nat) (lvl fre : Sorted) (s : SlotState) : SlotState :=
  loop Ln (fun lv s =>
    let s := loop (lvl.start (lv + 1) - lvl.start lv) (fun i s => s.alloc (lvl.order (lvl.start lv + i))) s
    loop (fre.start (lv + 1) - fre.start lv) (fun i s => s.release (fre.order (fre.start lv + i))) s) s

/-- The arrays of the two counting sorts and the stack, as allocated. -/
structure SortHeap where
  lvlOrder : Nat → Nat
  freOrder : Nat → Nat
  cur : Nat → Nat
  freeStack : Nat → Nat

def SortHeap.zero : SortHeap := ⟨fun _ => 0, fun _ => 0, fun _ => 0, fun _ => 0⟩

/-- What the allocations of `pose_graph_slot_map` return: absent when they fail. -/
structure SlotHeap where
  edges : Option EdgeHeap
  levels : Option ((Nat → Nat) × (Nat → Nat))
  sort : Option SortHeap

/-- `slot_out` and `*pool_size_out`, and the ghosts `level` and `lastUse`. -/
structure SlotMap where
  slot : Nat → Nat
  poolSize : Nat
  level : Nat → Nat
  lastUse : Nat → Nat

/-- `pose_graph_slot_map`; the output pointers are absent when they are null. -/
def poseGraphSlotMap (chunkBlocks : Nat) (slotOut : Option (Nat → Nat)) (poolSizeOut : Option Nat) (heap : SlotHeap) :
    Option SlotMap :=
  match slotOut, poolSizeOut with
  | some slotOut, some _ =>
    let cb := resolveChunkBlocks chunkBlocks
    if cb = 0 ∨ cb > poseGraphMaxM then none
    else do
      let g ← poseGraphEdges cb heap.edges
      if g.count = 0 ∨ g.count > 0xFFFFFFFF then none
      else do
        let (level, lastUse) ← heap.levels
        let s := levelPass g.nodes g.count ⟨level, lastUse, 0⟩
        let lastUse := lastUsePass g.nodes g.count s.level s.lastUse
        let Ln := s.maxlevel + 1
        let sort ← heap.sort
        let lvl := countingSort g.count Ln s.level sort.lvlOrder sort.cur
        let fre := countingSort g.count Ln lastUse sort.freOrder lvl.cur
        let st := slotLevels Ln lvl fre ⟨slotOut, sort.freeStack, 0, 0⟩
        some ⟨st.slotOut, st.nextNew, s.level, lastUse⟩
  | _, _ => none

/-! ## Levels -/

/-- At most two predecessors, all of them before the node. -/
def Descends (nodes : Nat → PoseNode) (count : Nat) : Prop :=
  ∀ id < count, (nodes id).numPreds ≤ 2 ∧ ∀ p ∈ (nodes id).preds, p < id

/-- `level` solves the equations of the levels. -/
def IsLevelling (nodes : Nat → PoseNode) (count : Nat) (level : Nat → Nat) : Prop :=
  ∀ id < count, level id = levelOf level (nodes id)

variable {nodes : Nat → PoseNode} {count : Nat}

theorem levelOf_congr {level level' : Nat → Nat} {nd : PoseNode} (h2 : nd.numPreds ≤ 2)
    (h : ∀ p ∈ nd.preds, level p = level' p) : levelOf level nd = levelOf level' nd := by
  rw [PoseNode.preds] at h
  rw [levelOf, levelOf]
  split
  · rfl
  · split
    · rename_i h0 h1
      rw [h nd.pred0 (by rw [h1]; exact List.mem_singleton.mpr rfl)]
    · have h2 : nd.numPreds = 2 := by omega
      rw [h2] at h
      rw [h nd.pred0 List.mem_cons_self, h nd.pred1 (List.mem_cons_of_mem _ (List.mem_singleton.mpr rfl))]

theorem lt_levelOf {level : Nat → Nat} {nd : PoseNode} (h2 : nd.numPreds ≤ 2) {p : Nat} (hp : p ∈ nd.preds) :
    level p < levelOf level nd := by
  rw [PoseNode.preds] at hp
  rw [levelOf]
  rcases (show nd.numPreds = 0 ∨ nd.numPreds = 1 ∨ nd.numPreds = 2 by omega) with h | h | h <;> rw [h] at hp ⊢
  · cases hp
  · obtain rfl := List.mem_singleton.mp hp
    exact Nat.lt_succ_self _
  · rw [if_neg (by decide), if_neg (by decide)]
    rcases List.mem_pair.mp hp with rfl | rfl <;> dsimp only <;> split <;> omega

theorem levelOf_le {level : Nat → Nat} {nd : PoseNode} {b : Nat} (h2 : nd.numPreds ≤ 2)
    (h : ∀ p ∈ nd.preds, level p < b) : levelOf level nd ≤ b := by
  rw [PoseNode.preds] at h
  rw [levelOf]
  rcases (show nd.numPreds = 0 ∨ nd.numPreds = 1 ∨ nd.numPreds = 2 by omega) with hn | hn | hn <;> rw [hn] at h ⊢
  · exact Nat.zero_le b
  · exact h nd.pred0 (List.mem_singleton.mpr rfl)
  · have h0 := h nd.pred0 List.mem_cons_self
    have h1 := h nd.pred1 (List.mem_cons_of_mem _ (List.mem_singleton.mpr rfl))
    rw [if_neg (by decide), if_neg (by decide)]
    dsimp only
    split <;> omega

/-- **The forward pass computes the levels.** -/
theorem levelPass_spec (hdag : Descends nodes count) (level lastUse : Nat → Nat) :
    let s := levelPass nodes count ⟨level, lastUse, 0⟩
    IsLevelling nodes count s.level ∧ (∀ id < count, s.lastUse id = s.level id) ∧
      ∀ id < count, s.level id ≤ s.maxlevel := by
  refine loop_inv (fun t (s : LevelPass) => IsLevelling nodes t s.level ∧ (∀ id < t, s.lastUse id = s.level id) ∧
    ∀ id < t, s.level id ≤ s.maxlevel)
    ⟨fun _ h => absurd h (Nat.not_lt_zero _), fun _ h => absurd h (Nat.not_lt_zero _),
      fun _ h => absurd h (Nat.not_lt_zero _)⟩ ?_
  rintro t ⟨level, lastUse, maxlevel⟩ ht ⟨hlevel, huse, hmax⟩
  dsimp only at hlevel huse hmax
  have hkeep : ∀ id < t, Function.update level t (levelOf level (nodes t)) id = level id := fun id hid =>
    Function.update_of_ne (Nat.ne_of_lt hid) _ _
  -- the predecessors of a node are older than the node, so their levels are not touched any more
  have hstep : ∀ id ≤ t, levelOf (Function.update level t (levelOf level (nodes t))) (nodes id) =
      levelOf level (nodes id) := fun id hid => by
    obtain ⟨h2, hlt⟩ := hdag id (by omega)
    exact levelOf_congr h2 fun p hp => hkeep p ((hlt p hp).trans_le hid)
  refine ⟨fun id hid => ?_, fun id hid => ?_, fun id hid => ?_⟩
  · show Function.update level t (levelOf level (nodes t)) id = levelOf _ _
    rw [hstep id (Nat.le_of_lt_succ hid)]
    rcases Nat.lt_succ_iff_lt_or_eq.mp hid with hlt | rfl
    · rw [hkeep id hlt, hlevel id hlt]
    · rw [Function.update_self]
  · show Function.update lastUse t (levelOf level (nodes t)) id = Function.update level t _ id
    rcases Nat.lt_succ_iff_lt_or_eq.mp hid with hlt | rfl
    · rw [hkeep id hlt, Function.update_of_ne (Nat.ne_of_lt hlt)]
      exact huse id hlt
    · rw [Function.update_self, Function.update_self]
  · show Function.update level t (levelOf level (nodes t)) id ≤
      if levelOf level (nodes t) > maxlevel then levelOf level (nodes t) else maxlevel
    rcases Nat.lt_succ_iff_lt_or_eq.mp hid with hlt | rfl
    · rw [hkeep id hlt]
      have := hmax id hlt
      split <;> omega
    · rw [Function.update_self]
      split <;> omega

theorem IsLevelling.lt {level : Nat → Nat} (h : IsLevelling nodes count level) (hdag : Descends nodes count) {id p : Nat}
    (hid : id < count) (hp : p ∈ (nodes id).preds) : level p < level id := by
  rw [h id hid]
  exact lt_levelOf (hdag id hid).1 hp

theorem IsLevelling.unique {level level' : Nat → Nat} (hdag : Descends nodes count) (h : IsLevelling nodes count level)
    (h' : IsLevelling nodes count level') : ∀ id < count, level id = level' id := by
  intro id
  induction id using Nat.strongRecOn with
  | _ id ih =>
    intro hid
    obtain ⟨h2, hlt⟩ := hdag id hid
    rw [h id hid, h' id hid]
    exact levelOf_congr h2 fun p hp => ih p (hlt p hp) ((hlt p hp).trans hid)

/-! ## Last uses -/

theorem exists_pred {nd : PoseNode} (h2 : nd.numPreds ≤ 2) {p : Nat} (hp : p ∈ nd.preds) :
    ∃ k < nd.numPreds, nd.pred k = p := by
  rw [PoseNode.preds] at hp
  rcases (show nd.numPreds = 0 ∨ nd.numPreds = 1 ∨ nd.numPreds = 2 by omega) with h | h | h <;> rw [h] at hp ⊢
  · cases hp
  · exact ⟨0, Nat.one_pos, (List.mem_singleton.mp hp).symm⟩
  · rcases List.mem_pair.mp hp with rfl | rfl
    · exact ⟨0, by decide, rfl⟩
    · exact ⟨1, by decide, rfl⟩

theorem raiseUses_spec {nd : PoseNode} (h2 : nd.numPreds ≤ 2) {lv b : Nat} (hlv : lv ≤ b) (lastUse : Nat → Nat) :
    let use := raiseUses nd lv lastUse
    (∀ id, lastUse id ≤ use id) ∧ (∀ id, lastUse id ≤ b → use id ≤ b) ∧ ∀ p ∈ nd.preds, lv ≤ use p := by
  have hinv : (∀ id, lastUse id ≤ raiseUses nd lv lastUse id) ∧
      (∀ id, lastUse id ≤ b → raiseUses nd lv lastUse id ≤ b) ∧
      ∀ k < nd.numPreds, lv ≤ raiseUses nd lv lastUse (nd.pred k) := by
    refine loop_inv (fun k (use : Nat → Nat) => (∀ id, lastUse id ≤ use id) ∧ (∀ id, lastUse id ≤ b → use id ≤ b) ∧
      ∀ j < k, lv ≤ use (nd.pred j)) ⟨fun _ => le_rfl, fun _ h => h, fun _ h => absurd h (Nat.not_lt_zero _)⟩ ?_
    intro k use hk ⟨hge, hle, hread⟩
    have hstep : ∀ id, (if use (nd.pred k) < lv then Function.update use (nd.pred k) lv else use) id =
        if id = nd.pred k then max (use id) lv else use id := fun id => by
      by_cases h : id = nd.pred k
      · subst h
        rw [if_pos rfl]
        split
        · rw [Function.update_self, Nat.max_eq_right (by omega)]
        · rw [Nat.max_eq_left (by omega)]
      · rw [if_neg h]
        split
        · rw [Function.update_of_ne h]
        · rfl
    simp only [hstep]
    refine ⟨fun id => ?_, fun id hid => ?_, fun j hj => ?_⟩
    · have := hge id
      split <;> omega
    · have := hle id hid
      split <;> omega
    · rcases Nat.lt_succ_iff_lt_or_eq.mp hj with hlt | rfl
      · have := hread j hlt
        split <;> omega
      · rw [if_pos rfl]
        omega
  refine ⟨hinv.1, hinv.2.1, fun p hp => ?_⟩
  obtain ⟨k, hk, rfl⟩ := exists_pred h2 hp
  exact hinv.2.2 k hk

/-- The last uses only grow, stay at or below the greatest level, and reach the level of every reader. -/
theorem lastUsePass_spec (hdag : Descends nodes count) {level lastUse : Nat → Nat} {b : Nat}
    (hlevel : ∀ id < count, level id ≤ b) (huse : ∀ id < count, lastUse id ≤ b) :
    let use := lastUsePass nodes count level lastUse
    (∀ id, lastUse id ≤ use id) ∧ (∀ id < count, use id ≤ b) ∧
      ∀ id < count, ∀ p ∈ (nodes id).preds, level id ≤ use p := by
  refine loop_inv (fun t (use : Nat → Nat) => (∀ id, lastUse id ≤ use id) ∧ (∀ id < count, use id ≤ b) ∧
    ∀ id < t, ∀ p ∈ (nodes id).preds, level id ≤ use p)
    ⟨fun _ => le_rfl, huse, fun _ h => absurd h (Nat.not_lt_zero _)⟩ ?_
  rintro t use ht ⟨hge, hle, hread⟩
  obtain ⟨hge', hle', hread'⟩ := raiseUses_spec (hdag t ht).1 (hlevel t ht) use
  refine ⟨fun id => (hge id).trans (hge' id), fun id hid => hle' id (hle id hid), fun id hid p hp => ?_⟩
  rcases Nat.lt_succ_iff_lt_or_eq.mp hid with hlt | rfl
  · exact (hread id hlt p hp).trans (hge' p)
  · exact hread' p hp

/-! ## Slots -/

def SlotState.pool (s : SlotState) : Pool := ⟨s.slotOut, (List.range s.freeTop).reverse.map s.freeStack, s.nextNew⟩

theorem SlotState.pool_alloc (s : SlotState) (id : Nat) : (s.alloc id).pool = s.pool.alloc id := by
  obtain ⟨slotOut, stack, top, next⟩ := s
  cases top with
  | zero => rfl
  | succ top =>
    rw [SlotState.alloc, if_pos (Nat.succ_pos top)]
    simp only [SlotState.pool, Pool.alloc, List.range_succ, List.reverse_append, List.reverse_singleton,
      List.singleton_append, List.map_cons, Nat.add_sub_cancel]

theorem SlotState.pool_release (s : SlotState) (id : Nat) : (s.release id).pool = s.pool.release id := by
  have hkeep : (List.range s.freeTop).reverse.map (Function.update s.freeStack s.freeTop (s.slotOut id)) =
      (List.range s.freeTop).reverse.map s.freeStack := List.map_congr_left fun i hi => by
    have := List.mem_range.mp (List.mem_reverse.mp hi)
    rw [Function.update_of_ne (by omega)]
  simp only [SlotState.pool, SlotState.release, Pool.release, List.range_succ, List.reverse_append,
    List.reverse_singleton, List.singleton_append, List.map_cons, Function.update_self, hkeep]

theorem SlotState.pool_allocAll (s : SlotState) (l : List Nat) :
    (l.foldl SlotState.alloc s).pool = s.pool.allocAll l := by
  induction l generalizing s with
  | nil => rfl
  | cons x l ih => rw [List.foldl_cons, ih, pool_alloc]; rfl

theorem SlotState.pool_releaseAll (s : SlotState) (l : List Nat) :
    (l.foldl SlotState.release s).pool = s.pool.releaseAll l := by
  induction l generalizing s with
  | nil => rfl
  | cons x l ih => rw [List.foldl_cons, ih, pool_release]; rfl

theorem slotLevels_pool {born dies : Nat → Nat} {L : Nat} {lvl fre : Sorted} (hlvl : lvl.Sorts count L born)
    (hfre : fre.Sorts count L dies) (s : SlotState) :
    (slotLevels L lvl fre s).pool = runLevels (bucket born count) (bucket dies count) s.pool L := by
  have hrun : ∀ l ≤ L, (loop l (fun lv s =>
      loop (fre.start (lv + 1) - fre.start lv) (fun i s => s.release (fre.order (fre.start lv + i)))
        (loop (lvl.start (lv + 1) - lvl.start lv) (fun i s => s.alloc (lvl.order (lvl.start lv + i))) s)) s).pool =
      runLevels (bucket born count) (bucket dies count) s.pool l := by
    intro l hl
    induction l with
    | zero => rfl
    | succ l ih =>
      rw [loop_succ, hlvl.loop hl (fun id (s : SlotState) => s.alloc id),
        hfre.loop hl (fun id (s : SlotState) => s.release id), SlotState.pool_releaseAll, SlotState.pool_allocAll,
        ih (Nat.le_of_succ_le hl)]
      rfl
  exact hrun L le_rfl

/-- What a slot map promises of a node array. -/
structure SlotMap.Fits (S : SlotMap) (nodes : Nat → PoseNode) (count : Nat) : Prop where
  levelling : IsLevelling nodes count S.level
  live : ∀ id < count, S.level id ≤ S.lastUse id
  read : ∀ id < count, ∀ p ∈ (nodes id).preds, S.level id ≤ S.lastUse p
  slot_lt : ∀ id < count, S.slot id < S.poolSize
  slot_ne : ∀ a < count, ∀ b < count, a ≠ b → S.level a ≤ S.lastUse b → S.level b ≤ S.lastUse a → S.slot a ≠ S.slot b

/-- The part of `pose_graph_slot_map` after the graph is built. -/
theorem slotMap_fits (hdag : Descends nodes count) (level lastUse slotOut : Nat → Nat) (sort : SortHeap) :
    let s := levelPass nodes count ⟨level, lastUse, 0⟩
    let use := lastUsePass nodes count s.level s.lastUse
    let lvl := countingSort count (s.maxlevel + 1) s.level sort.lvlOrder sort.cur
    let fre := countingSort count (s.maxlevel + 1) use sort.freOrder lvl.cur
    let st := slotLevels (s.maxlevel + 1) lvl fre ⟨slotOut, sort.freeStack, 0, 0⟩
    SlotMap.Fits ⟨st.slotOut, st.nextNew, s.level, use⟩ nodes count := by
  obtain ⟨hlevel, huse, hmax⟩ := levelPass_spec hdag level lastUse
  intro s use lvl fre st
  obtain ⟨hge, hle, hread⟩ := lastUsePass_spec hdag hmax fun id hid => (huse id hid).trans_le (hmax id hid)
  have hlive : ∀ id < count, s.level id ≤ use id := fun id hid => (huse id hid).symm.trans_le (hge id)
  have hpool := slotLevels_pool (countingSort_spec sort.lvlOrder sort.cur
    fun id hid => Nat.lt_succ_of_le (hmax id hid)) (countingSort_spec sort.freOrder lvl.cur
    fun id hid => Nat.lt_succ_of_le (hle id hid)) ⟨slotOut, sort.freeStack, 0, 0⟩
  have hslot : st.slotOut = _ := congrArg Pool.slot hpool
  have hnext : st.nextNew = _ := congrArg Pool.next hpool
  obtain ⟨-, hlt, hne⟩ := runLevels_safe (n := count) (bucket s.level count) (bucket use count) slotOut (L := s.maxlevel + 1)
    (fun lv _ => ⟨nodup_bucket _ _ _, nodup_bucket _ _ _, fun _ => mem_bucket, fun _ => mem_bucket⟩) hlive
  refine ⟨hlevel, hlive, hread, fun id hid => ?_, fun a ha b hb hab h1 h2 => ?_⟩
  · show st.slotOut id < st.nextNew
    rw [hslot, hnext]
    exact hlt id hid (Nat.lt_succ_of_le (hmax id hid))
  · show st.slotOut a ≠ st.slotOut b
    rw [hslot]
    exact hne a ha b hb hab (Nat.lt_succ_of_le (hmax a ha)) (Nat.lt_succ_of_le (hmax b hb)) h1 h2

theorem RecordsScaffold.descends {m : Nat} {E : EdgeList} (hE : RecordsScaffold m E) : Descends E.nodes E.count := by
  rw [hE.count]
  intro id hid
  rw [hE.numPreds hid, hE.preds hid]
  exact ⟨scaffoldPreds_length hid, scaffoldPreds_lt hid⟩

/-- **`pose_graph_slot_map` succeeds and its map fits the recorded graph**: two nodes whose labels are needed at a
common level have different slots, all below the pool size. -/
theorem poseGraphSlotMap_spec {c : Nat} (hm : 1 ≤ resolveChunkBlocks c) (hmax : resolveChunkBlocks c ≤ poseGraphMaxM)
    (slotOut : Nat → Nat) (poolSizeOut : Nat) (heap : EdgeHeap) (levels : (Nat → Nat) × (Nat → Nat)) (sort : SortHeap) :
    ∃ E S, poseGraphEdges (resolveChunkBlocks c) (some heap) = some E ∧ RecordsScaffold (resolveChunkBlocks c) E ∧
      poseGraphSlotMap c (some slotOut) (some poolSizeOut) ⟨some heap, some levels, some sort⟩ = some S ∧
      S.Fits E.nodes E.count := by
  obtain ⟨E, hE, hrec⟩ := poseGraphEdges_spec hm hmax heap
  have hpos : 0 < E.count := by
    have := standaloneNodeCount_pos (poseGraphParameterN (resolveChunkBlocks c) + 1)
    rw [hrec.count, scratchNodeCount]
    omega
  have hlt : E.count < 2 ^ 32 := hrec.count ▸ scratchNodeCount_lt hmax
  refine ⟨E, _, hE, hrec, ?_, slotMap_fits hrec.descends levels.1 levels.2 slotOut sort⟩
  simp only [poseGraphSlotMap, if_neg (show ¬(resolveChunkBlocks c = 0 ∨ resolveChunkBlocks c > poseGraphMaxM) by omega),
    hE, Option.bind_eq_bind, Option.bind_some, if_neg (show ¬(E.count = 0 ∨ E.count > 0xFFFFFFFF) by omega)]

end PoseDB.Graph
