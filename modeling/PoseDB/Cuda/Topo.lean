import PoseDB.Graph.SlotOptimal

/-!
# The resident topology (`label_gpu_common.cu`)

`pose_graph_hbm_topo_build` turns the recorded graph into the arrays that the device reads: the predecessors, the ids
sorted by dependency level, the node of every rank, and for three of the four strategies the recycled slots. Null
pointers are arrays that nothing reads. **`poseGraphHbmTopoBuild_describes`**: the arrays describe the recorded graph,
and the slots are safe.
-/

set_option autoImplicit false

namespace PoseDB.Cuda
open Loops Bucket PoseDB.Graph

/-- `POSE_GPU_LABEL_STRATEGY`: the one strategy that is compiled in. -/
inductive Strategy where
  | level
  | block
  | warp
  | thread
deriving DecidableEq, Repr

def Strategy.usesSlotMap : Strategy → Bool
  | .level => false
  | .block => true
  | .warp => true
  | .thread => true

/-! ## The code -/

/-- The host arrays of the pass over the nodes, and the running maximum. -/
structure TopoArrays where
  level : Nat → Nat
  np : Nat → Nat
  p0 : Nat → Nat
  p1 : Nat → Nat
  outId : Nat → Nat
  rank : Nat → Int
  maxlevel : Nat

def TopoArrays.put (s : TopoArrays) (id : Nat) (nd : PoseNode) : TopoArrays :=
  let lv := levelOf s.level nd
  { level := Function.update s.level id lv
    np := Function.update s.np id nd.numPreds
    p0 := Function.update s.p0 id nd.pred0
    p1 := Function.update s.p1 id nd.pred1
    outId := if nd.challengeRank ≥ 0 then Function.update s.outId nd.challengeRank.toNat id else s.outId
    rank := Function.update s.rank id nd.challengeRank
    maxlevel := if lv > s.maxlevel then lv else s.maxlevel }

def topoPass (nodes : Nat → PoseNode) (count : Nat) (s : TopoArrays) : TopoArrays :=
  loop count (fun id s => s.put id (nodes id)) s

/-- `for (id = 0; id < count; id++) level_count[level[id]]++;`, over an array from `calloc`. -/
def levelCounts (count : Nat) (level : Nat → Nat) : Nat → Nat :=
  loop count (fun id c => Function.update c (level id) (c (level id) + 1)) fun _ => 0

/-- `level_start[i + 1] = level_start[i] + level_count[i]; cursor[i] = level_start[i];` for every level. -/
def levelStarts (L : Nat) (levelCount levelStart cursor : Nat → Nat) : (Nat → Nat) × (Nat → Nat) :=
  loop L (fun i (start, cursor) =>
    (Function.update start (i + 1) (start i + levelCount i), Function.update cursor i (start i)))
    (Function.update levelStart 0 0, cursor)

/-- What the allocations of `pose_graph_hbm_topo_build` return: absent when they fail. `device` says whether all of
`cudaMalloc` and `cudaMemcpy` succeed. -/
structure TopoHeap where
  edges : Option EdgeHeap
  arrays : Option TopoArrays
  order : Nat → Nat
  levelStart : Nat → Nat
  cursor : Nat → Nat
  sort : Bool
  slotOut : Option (Nat → Nat)
  slotMap : SlotHeap
  device : Bool

/-- `struct pose_hbm_topo`; lengths in blocks. -/
structure Topo (α : Type) where
  chunkBlocks : Nat
  superBlocks : Nat
  count : Nat
  numLevels : Nat
  levelCount : Nat → Nat
  levelStart : Nat → Nat
  poolSize : Nat
  np : Nat → Nat
  p0 : Nat → Nat
  p1 : Nat → Nat
  order : Nat → Nat
  outId : Nat → Nat
  desc : α
  slot : Nat → Nat
  rank : Nat → Int

def poseGraphSuperChunkBlocks (chunkBlocks : Nat) : Nat := resolveChunkBlocks chunkBlocks

/-- The slot array and the pool size, null and `0` for the strategy that keeps the whole scaffold. -/
def topoSlots (s : Strategy) (chunkBlocks : Nat) (heap : TopoHeap) : Option ((Nat → Nat) × Nat) :=
  if s.usesSlotMap then do
    let slotOut ← heap.slotOut
    let S ← poseGraphSlotMap chunkBlocks (some slotOut) (some 0) heap.slotMap
    some (S.slot, S.poolSize)
  else some (fun _ => 0, 0)

def poseGraphHbmTopoBuild {α : Type} (H : PoseHash α) (s : Strategy) (chunkBlocks : Nat) (algo : PoseHashAlgo)
    (heap : TopoHeap) : Option (Topo α) :=
  if algo ≠ .blake3 then none
  else
    let chunkBlocks := if chunkBlocks = 0 then poseChunkBlocks else chunkBlocks
    let superBlocks := poseGraphSuperChunkBlocks chunkBlocks
    if superBlocks = 0 ∨ superBlocks > 0xFFFFFFFF then none
    else do
      let g ← poseGraphEdges chunkBlocks heap.edges
      if g.count = 0 ∨ g.count > 0xFFFFFFFF then none
      else do
        let arrays ← heap.arrays
        let a := topoPass g.nodes g.count { arrays with maxlevel := 0 }
        let L := a.maxlevel + 1
        if !heap.sort then none
        else do
          let levelCount := levelCounts g.count a.level
          let (levelStart, cursor) := levelStarts L levelCount heap.levelStart heap.cursor
          let (order, _) := placeIds g.count a.level heap.order cursor
          let desc := H.graphDescriptor chunkBlocks (poseGraphParameterN chunkBlocks)
          let (slot, poolSize) ← topoSlots s chunkBlocks heap
          if !heap.device then none
          else some ⟨chunkBlocks, superBlocks, g.count, L, levelCount, levelStart, poolSize, a.np, a.p0, a.p1, order,
            a.outId, desc, slot, a.rank⟩

/-! ## The pass -/

variable {nodes : Nat → PoseNode} {count : Nat}

/-- The pass solves the equations of the levels, below the maximum. -/
theorem topoPass_level (hdag : Descends nodes count) (s : TopoArrays) (h0 : s.maxlevel = 0) :
    IsLevelling nodes count (topoPass nodes count s).level ∧
      ∀ id < count, (topoPass nodes count s).level id ≤ (topoPass nodes count s).maxlevel := by
  have hmap : (⟨(topoPass nodes count s).level, (topoPass nodes count s).level, (topoPass nodes count s).maxlevel⟩ :
      LevelPass) = levelPass nodes count ⟨s.level, s.level, 0⟩ := by
    rw [← h0]
    exact loop_map (fun a : TopoArrays => (⟨a.level, a.level, a.maxlevel⟩ : LevelPass)) fun _ _ _ => rfl
  obtain ⟨hlevel, -, hmax⟩ := levelPass_spec hdag s.level s.level
  rw [← hmap] at hlevel hmax
  exact ⟨hlevel, hmax⟩

/-- The arrays hold the entries of the nodes; different ranks keep their nodes. -/
theorem topoPass_arrays (hrank : ∀ a < count, ∀ b < count, 0 ≤ (nodes a).challengeRank →
      (nodes a).challengeRank = (nodes b).challengeRank → a = b) (s : TopoArrays) :
    let a := topoPass nodes count s
    ∀ id < count, (a.np id = (nodes id).numPreds ∧ a.p0 id = (nodes id).pred0 ∧ a.p1 id = (nodes id).pred1 ∧
        a.rank id = (nodes id).challengeRank) ∧
      (0 ≤ (nodes id).challengeRank → a.outId (nodes id).challengeRank.toNat = id) := by
  refine loop_inv (fun t (a : TopoArrays) => ∀ id < t, (a.np id = (nodes id).numPreds ∧ a.p0 id = (nodes id).pred0 ∧
      a.p1 id = (nodes id).pred1 ∧ a.rank id = (nodes id).challengeRank) ∧
    (0 ≤ (nodes id).challengeRank → a.outId (nodes id).challengeRank.toNat = id))
    (fun _ h => absurd h (Nat.not_lt_zero _)) ?_
  intro t a ht ih id hid
  simp only [TopoArrays.put]
  by_cases h : id = t
  · subst h
    simp only [Function.update_self, true_and]
    intro hpos
    rw [if_pos hpos, Function.update_self]
  · have hlt : id < t := by omega
    simp only [Function.update_of_ne h]
    refine ⟨(ih id hlt).1, fun hpos => ?_⟩
    have hout := (ih id hlt).2 hpos
    split
    · rename_i hpos'
      have hne : (nodes id).challengeRank.toNat ≠ (nodes t).challengeRank.toNat := fun heq =>
        h (hrank id (hlt.trans ht) t ht hpos (by omega))
      rw [Function.update_of_ne hne, hout]
    · exact hout

/-! ## The levels sorted -/

variable {key : Nat → Nat} {n : Nat}

theorem levelCounts_eq (n : Nat) (key : Nat → Nat) : levelCounts n key = size key n := by
  induction n with
  | zero => rfl
  | succ n ih =>
    rw [levelCounts, loop_succ, ← levelCounts, ih]
    funext k
    rw [size_succ]
    by_cases h : k = key n
    · rw [h, Function.update_self, if_pos rfl]
    · rw [Function.update_of_ne h, if_neg (Ne.symm h), Nat.add_zero]

variable (key n) in
theorem levelStarts_spec (L : Nat) (levelStart cursor : Nat → Nat) :
    let r := levelStarts L (size key n) levelStart cursor
    (∀ k ≤ L, r.1 k = start key n k) ∧ ∀ k < L, r.2 k = start key n k := by
  refine loop_inv (fun t (r : (Nat → Nat) × (Nat → Nat)) => (∀ k ≤ t, r.1 k = start key n k) ∧
    ∀ k < t, r.2 k = start key n k) ⟨fun k hk => ?_, fun _ h => absurd h (Nat.not_lt_zero _)⟩ ?_
  · obtain rfl : k = 0 := Nat.le_zero.mp hk
    show Function.update levelStart 0 0 0 = _
    rw [start_zero, Function.update_self]
  · rintro t ⟨levelStart, cursor⟩ _ ⟨hstart, hcursor⟩
    dsimp only at hstart hcursor ⊢
    refine ⟨fun k hk => ?_, fun k hk => ?_⟩
    · by_cases h : k = t + 1
      · rw [h, Function.update_self, hstart t le_rfl, start_succ]
      · rw [Function.update_of_ne h]
        exact hstart k (by omega)
    · by_cases h : k = t
      · rw [h, Function.update_self, hstart t le_rfl]
      · rw [Function.update_of_ne h]
        exact hcursor k (by omega)

theorem levelSort_sorts {L : Nat} (hkey : ∀ id < n, key id < L) (levelStart cursor order cur : Nat → Nat) :
    let r := levelStarts L (levelCounts n key) levelStart cursor
    Sorted.Sorts ⟨r.1, (placeIds n key order r.2).1, cur⟩ n L key := by
  intro r
  have hr : r = levelStarts L (size key n) levelStart cursor := by rw [← levelCounts_eq]
  obtain ⟨hstart, hcursor⟩ := levelStarts_spec key n L levelStart cursor
  rw [← hr] at hstart hcursor
  exact ⟨hstart, placeIds_spec fun id hid => hcursor _ (hkey id hid)⟩

/-! ## What the topology promises -/

/-- Where a strategy keeps the labels of a chunk: a place below `pool` for every node, not shared by two nodes that are
needed at a common level. -/
structure Places (nodes : Nat → PoseNode) (count : Nat) (level lastUse slot : Nat → Nat) (pool : Nat) : Prop where
  live : ∀ id < count, level id ≤ lastUse id
  read : ∀ id < count, ∀ p ∈ (nodes id).preds, level id ≤ lastUse p
  slot_lt : ∀ id < count, slot id < pool
  slot_ne : ∀ a < count, ∀ b < count, a ≠ b → level a ≤ lastUse b → level b ≤ lastUse a → slot a ≠ slot b

/-- The arrays of a topology describe a recorded graph. -/
structure Topo.Describes {α : Type} (T : Topo α) (m : Nat) (E : EdgeList) (level : Nat → Nat) : Prop where
  chunk : T.chunkBlocks = m
  super : T.superBlocks = m
  count : T.count = E.count
  levelling : IsLevelling E.nodes E.count level
  level_lt : ∀ id < E.count, level id < T.numLevels
  sorts : Sorted.Sorts ⟨T.levelStart, T.order, T.levelStart⟩ E.count T.numLevels level
  levelCount : T.levelCount = size level E.count
  node : ∀ id < E.count, T.np id = (E.nodes id).numPreds ∧ T.p0 id = (E.nodes id).pred0 ∧
    T.p1 id = (E.nodes id).pred1 ∧ T.rank id = (E.nodes id).challengeRank
  outId : ∀ id < E.count, 0 ≤ (E.nodes id).challengeRank → T.outId (E.nodes id).challengeRank.toNat = id

theorem challengeRank_inj {m : Nat} {E : EdgeList} (hE : RecordsScaffold m E) {a b : Nat} (ha : a < E.count)
    (hb : b < E.count) (hpos : 0 ≤ (E.nodes a).challengeRank)
    (heq : (E.nodes a).challengeRank = (E.nodes b).challengeRank) : a = b :=
  hE.bijOn.injOn ⟨ha, hpos⟩ ⟨hb, heq ▸ hpos⟩ heq

theorem ite_chunkBlocks (c : Nat) : (if c = 0 then poseChunkBlocks else c) = resolveChunkBlocks c := by
  unfold resolveChunkBlocks
  rw [ite_not]

theorem resolveChunkBlocks_resolve (c : Nat) : resolveChunkBlocks (resolveChunkBlocks c) = resolveChunkBlocks c :=
  if_pos (Nat.ne_of_gt (resolveChunkBlocks_pos c))

theorem poseGraphEdges_records {m : Nat} {heap : Option EdgeHeap} {E : EdgeList} (h : poseGraphEdges m heap = some E) :
    1 ≤ m ∧ m ≤ poseGraphMaxM ∧ RecordsScaffold m E := by
  by_cases hm : m = 0 ∨ m > poseGraphMaxM
  · rw [poseGraphEdges, if_pos hm] at h
    cases h
  · cases heap with
    | none =>
      rw [poseGraphEdges, if_neg hm] at h
      cases h
    | some edges =>
      obtain ⟨E', hE', hrec⟩ := poseGraphEdges_spec (m := m) (by omega) (by omega) edges
      rw [hE'] at h
      cases h
      exact ⟨by omega, by omega, hrec⟩

/-- The slots of a recording are safe places for every recording of the same graph. -/
theorem topoSlots_places {s : Strategy} {m : Nat} (hm : resolveChunkBlocks m = m) {heap : TopoHeap} {E : EdgeList}
    (hrec : RecordsScaffold m E) {level : Nat → Nat} (hlevel : IsLevelling E.nodes E.count level)
    {slots : (Nat → Nat) × Nat} (h : topoSlots s m heap = some slots) (hs : s.usesSlotMap = true) :
    ∃ lastUse, Places E.nodes E.count level lastUse slots.1 slots.2 := by
  unfold topoSlots at h
  rw [if_pos hs] at h
  obtain ⟨slotOut, -, h⟩ := Option.bind_eq_some_iff.mp h
  obtain ⟨S, hS, h⟩ := Option.bind_eq_some_iff.mp h
  cases h
  obtain ⟨E', out, levels, sort, -, -, hE', -, rfl⟩ := poseGraphSlotMap_eq hS
  rw [hm] at hE'
  obtain ⟨-, -, hrec'⟩ := poseGraphEdges_records hE'
  have hfits : (slotPass E'.nodes E'.count out levels sort).map.Fits E'.nodes E'.count :=
    slotMap_fits hrec'.descends levels.1 levels.2 out sort
  revert hfits
  generalize (slotPass E'.nodes E'.count out levels sort).map = S
  intro hfits
  have hnodes : ∀ id < E.count, E'.nodes id = E.nodes id := fun id hid =>
    hrec'.nodes_eq hrec id (hrec.count ▸ hid)
  have hcount : E'.count = E.count := hrec'.count.trans hrec.count.symm
  have hlev : IsLevelling E'.nodes E'.count level := fun id hid => by
    rw [hcount] at hid
    rw [hnodes id hid]
    exact hlevel id hid
  have heq := IsLevelling.unique hrec'.descends hfits.levelling hlev
  rw [hcount] at heq
  refine ⟨S.lastUse, fun id hid => ?_, fun id hid p hp => ?_,
    fun id hid => ?_, fun a ha b hb hab h1 h2 => ?_⟩
  · rw [← heq id hid]
    exact hfits.live id (hcount ▸ hid)
  · rw [← heq id hid]
    exact hfits.read id (hcount ▸ hid) p (by rwa [hnodes id hid])
  · exact hfits.slot_lt id (hcount ▸ hid)
  · rw [← heq a ha] at h1
    rw [← heq b hb] at h2
    exact hfits.slot_ne a (hcount ▸ ha) b (hcount ▸ hb) hab h1 h2

/-- **A topology that is built describes the recorded graph**, with safe places for the strategies that recycle slots.
-/
theorem poseGraphHbmTopoBuild_describes {α : Type} {H : PoseHash α} {s : Strategy} {c : Nat} {algo : PoseHashAlgo}
    {heap : TopoHeap} {T : Topo α} (h : poseGraphHbmTopoBuild H s c algo heap = some T) :
    ∃ E level, algo = .blake3 ∧ resolveChunkBlocks c ≤ poseGraphMaxM ∧
      poseGraphEdges (resolveChunkBlocks c) heap.edges = some E ∧ RecordsScaffold (resolveChunkBlocks c) E ∧
      T.Describes (resolveChunkBlocks c) E level ∧
      T.desc = H.graphDescriptor (resolveChunkBlocks c) (poseGraphParameterN (resolveChunkBlocks c)) ∧
      (s.usesSlotMap = true → ∃ lastUse, Places E.nodes E.count level lastUse T.slot T.poolSize) := by
  unfold poseGraphHbmTopoBuild at h
  split at h
  · cases h
  · rename_i halgo
    simp only [ite_chunkBlocks, poseGraphSuperChunkBlocks, resolveChunkBlocks_resolve] at h
    split at h
    · cases h
    · obtain ⟨E, hE, h⟩ := Option.bind_eq_some_iff.mp h
      obtain ⟨-, hmax, hrec⟩ := poseGraphEdges_records hE
      split at h
      · cases h
      · obtain ⟨arrays, -, h⟩ := Option.bind_eq_some_iff.mp h
        split at h
        · cases h
        · obtain ⟨slots, hslots, h⟩ := Option.bind_eq_some_iff.mp h
          split at h
          · cases h
          · obtain rfl := Option.some.inj h
            obtain ⟨hlevel, hlt⟩ := topoPass_level hrec.descends { arrays with maxlevel := 0 } rfl
            have harr := topoPass_arrays (fun a ha b hb => challengeRank_inj hrec ha hb) { arrays with maxlevel := 0 }
            revert hlevel hlt harr
            generalize topoPass E.nodes E.count { arrays with maxlevel := 0 } = A
            intro hlevel hlt harr
            have hlevel_lt : ∀ id < E.count, A.level id < A.maxlevel + 1 := fun id hid => Nat.lt_succ_of_le (hlt id hid)
            obtain ⟨hstart, horder⟩ := levelSort_sorts hlevel_lt heap.levelStart heap.cursor heap.order heap.order
            exact ⟨E, A.level, not_not.mp halgo, hmax, hE, hrec, ⟨rfl, rfl, rfl, hlevel, hlevel_lt, ⟨hstart, horder⟩,
              levelCounts_eq _ _, fun id hid => (harr id hid).1, fun id hid => (harr id hid).2⟩, rfl,
              topoSlots_places (resolveChunkBlocks_resolve c) hrec hlevel hslots⟩

/-- Every allocation of the build succeeds. -/
structure TopoHeap.Full (heap : TopoHeap) : Prop where
  edges : ∃ h, heap.edges = some h
  arrays : ∃ a, heap.arrays = some a
  sort : heap.sort = true
  slotOut : ∃ a, heap.slotOut = some a
  slotEdges : ∃ h, heap.slotMap.edges = some h
  slotLevels : ∃ a, heap.slotMap.levels = some a
  slotSort : ∃ a, heap.slotMap.sort = some a
  device : heap.device = true

def TopoHeap.zero : TopoHeap where
  edges := some EdgeHeap.zero
  arrays := some ⟨fun _ => 0, fun _ => 0, fun _ => 0, fun _ => 0, fun _ => 0, fun _ => 0, 0⟩
  order _ := 0
  levelStart _ := 0
  cursor _ := 0
  sort := true
  slotOut := some fun _ => 0
  slotMap := ⟨some EdgeHeap.zero, some (fun _ => 0, fun _ => 0), some SortHeap.zero⟩
  device := true

theorem TopoHeap.zero_full : TopoHeap.zero.Full :=
  ⟨⟨_, rfl⟩, ⟨_, rfl⟩, rfl, ⟨_, rfl⟩, ⟨_, rfl⟩, ⟨_, rfl⟩, ⟨_, rfl⟩, rfl⟩

/-- With every allocation the build of an accepted graph succeeds. -/
theorem poseGraphHbmTopoBuild_succeeds {α : Type} (H : PoseHash α) (s : Strategy) {c : Nat}
    (hmax : resolveChunkBlocks c ≤ poseGraphMaxM) {heap : TopoHeap} (hfull : heap.Full) :
    ∃ T, poseGraphHbmTopoBuild H s c .blake3 heap = some T := by
  obtain ⟨⟨edges, hedges⟩, ⟨arrays, harrays⟩, hsort, ⟨slotOut, hslotOut⟩, ⟨slotEdges, hslotEdges⟩,
    ⟨slotLevels, hslotLevels⟩, ⟨slotSort, hslotSort⟩, hdevice⟩ := hfull
  obtain ⟨m, hmeq⟩ : ∃ m, m = resolveChunkBlocks c := ⟨_, rfl⟩
  have hm : 1 ≤ m := hmeq ▸ resolveChunkBlocks_pos c
  have hresolve : resolveChunkBlocks m = m := hmeq ▸ resolveChunkBlocks_resolve c
  rw [← hmeq] at hmax
  have hm32 : m < 2 ^ 32 := hmax.trans_lt (by decide)
  obtain ⟨E, hE, hrec⟩ := poseGraphEdges_spec hm hmax edges
  have hcount : E.count < 2 ^ 32 := hrec.count ▸ scratchNodeCount_lt hmax
  have hpos : 0 < E.count := by
    have := standaloneNodeCount_pos (poseGraphParameterN m + 1)
    rw [hrec.count, scratchNodeCount]
    omega
  obtain ⟨slots, hslots⟩ : ∃ slots, topoSlots s m heap = some slots := by
    unfold topoSlots
    split
    · obtain ⟨_, S, -, -, hS, -⟩ := poseGraphSlotMap_spec (c := m) (by rwa [hresolve]) (by rwa [hresolve])
        slotOut 0 slotEdges slotLevels slotSort
      have hheap : heap.slotMap = ⟨some slotEdges, some slotLevels, some slotSort⟩ := by
        rw [← hslotEdges, ← hslotLevels, ← hslotSort]
      rw [hslotOut, Option.bind_eq_bind, Option.bind_some, hheap, hS]
      exact ⟨_, rfl⟩
    · exact ⟨_, rfl⟩
  simp only [poseGraphHbmTopoBuild, ite_chunkBlocks, ← hmeq, poseGraphSuperChunkBlocks, hresolve, hedges, hE, harrays,
    hsort, hdevice, hslots, Option.bind_eq_bind, Option.bind_some]
  rw [if_neg (not_not.mpr rfl), if_neg (show ¬(m = 0 ∨ m > 0xFFFFFFFF) by omega),
    if_neg (show ¬(E.count = 0 ∨ E.count > 0xFFFFFFFF) by omega)]
  exact ⟨_, rfl⟩

end PoseDB.Cuda
