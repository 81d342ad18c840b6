import PoseDB.Cuda.Label

/-!
# The four strategies

How each kernel hands out the nodes of a batch: the threads of a team, or the threads of the grid, share the positions
of a level (`Positions.covers`), or a thread has a whole chunk (`threadShares_covers`). The kernels make exactly these
jobs (`kLabelChunkBlock_makes`, `kLabelChunkWarp_makes`, `kLabelChunkThread_makes`).
-/

set_option autoImplicit false

namespace PoseDB.Cuda
open Loops Threads PoseDB.Graph Bucket

variable {α : Type}

/-! ## Positions in a level -/

def levelSize (T : Topo α) (lv : Nat) : Nat := T.levelStart (lv + 1) - T.levelStart lv

/-- Position `u` of a level over all chunks of a batch. -/
def position (T : Topo α) (thread lv u : Nat) : Job :=
  ⟨thread, u / levelSize T lv, T.order (T.levelStart lv + u % levelSize T lv)⟩

/-- The jobs of threads that have the positions `pos` in each level. -/
def positionShares (T : Topo α) (phases : Nat) (threads : Nat → Nat) (pos : Nat → Nat → List Nat) : Shares where
  phases := phases
  threads := threads
  jobs p t := if p < T.numLevels then (pos p t).map (position T t p) else []

/-- The threads share the positions of every level out among themselves. -/
structure Positions (T : Topo α) (bc phases : Nat) (threads : Nat → Nat) (pos : Nat → Nat → List Nat) : Prop where
  phases : T.numLevels ≤ phases
  lt : ∀ p t, ∀ u ∈ pos p t, u < levelSize T p * bc
  sorted : ∀ p t, (pos p t).Pairwise (· < ·)
  apart : ∀ p t t', t ≠ t' → ∀ u ∈ pos p t, u ∉ pos p t'
  cover : ∀ p < T.numLevels, ∀ u < levelSize T p * bc, ∃ t < threads p, u ∈ pos p t

section Positions
variable {T : Topo α} {m bc phases : Nat} {threads : Nat → Nat} {pos : Nat → Nat → List Nat} {E : EdgeList}
  {level : Nat → Nat} (hT : T.Describes m E level)

theorem mul_add_div_mod {n w i : Nat} (hi : i < n) : (w * n + i) / n = w ∧ (w * n + i) % n = i := by
  rw [Nat.mul_comm]
  exact ⟨by rw [Nat.mul_add_div (by omega), Nat.div_eq_of_lt hi, Nat.add_zero],
    by rw [Nat.mul_add_mod, Nat.mod_eq_of_lt hi]⟩

theorem mul_add_lt {n w i b : Nat} (hi : i < n) (hw : w < b) : w * n + i < n * b := by
  have h := Nat.mul_le_mul_right n (show w + 1 ≤ b from hw)
  rw [Nat.succ_mul, Nat.mul_comm b n] at h
  omega

include hT in
theorem position_level {lv u : Nat} (thread : Nat) (hlv : lv < T.numLevels) (hu : u < levelSize T lv * bc) :
    (position T thread lv u).chunk < bc ∧ (position T thread lv u).id < E.count ∧
      level (position T thread lv u).id = lv := by
  have hn : 0 < levelSize T lv := Nat.pos_of_ne_zero fun h => by rw [h, Nat.zero_mul] at hu; omega
  exact ⟨Nat.div_lt_of_lt_mul hu, hT.sorts.entry hlv (Nat.mod_lt u hn)⟩

include hT in
theorem position_inj {lv u v t t' : Nat} (hlv : lv < T.numLevels) (hu : u < levelSize T lv * bc)
    (hchunk : (position T t lv u).chunk = (position T t' lv v).chunk)
    (hid : (position T t lv u).id = (position T t' lv v).id) : u = v := by
  have hn : 0 < levelSize T lv := Nat.pos_of_ne_zero fun h => by rw [h, Nat.zero_mul] at hu; omega
  have hmod : u % levelSize T lv = v % levelSize T lv :=
    hT.sorts.entry_inj hlv (Nat.mod_lt u hn) (Nat.mod_lt v hn) hid
  have hdiv : u / levelSize T lv = v / levelSize T lv := hchunk
  rw [← Nat.div_add_mod u (levelSize T lv), hmod, hdiv, Nat.div_add_mod]

include hT in
theorem Positions.covers (hpos : Positions T bc phases threads pos) :
    (positionShares T phases threads pos).Covers level E.count bc := by
  have hjob : ∀ p t, ∀ j ∈ (positionShares T phases threads pos).jobs p t,
      p < T.numLevels ∧ ∃ u ∈ pos p t, j = position T t p u := fun p t j hj => by
    simp only [positionShares] at hj
    split at hj
    · obtain ⟨u, hu, rfl⟩ := List.mem_map.mp hj
      exact ⟨‹_›, u, hu, rfl⟩
    · cases hj
  refine ⟨fun p t j hj => ?_, fun w hw id hid => ?_, fun p t => ?_, fun p t t' hne i hi j hj hchunk => ?_,
    fun p q t u hlt i hi j hj _ => ?_⟩
  · obtain ⟨hp, u, hu, rfl⟩ := hjob p t j hj
    obtain ⟨h1, h2, -⟩ := position_level hT t hp (hpos.lt p t u hu)
    exact ⟨rfl, h1, h2⟩
  · have hlv := hT.level_lt id hid
    obtain ⟨i, hi, horder⟩ := hT.sorts.exists_entry hid hlv
    have hi' : i < levelSize T (level id) := hi
    obtain ⟨t, ht, hu⟩ := hpos.cover (level id) hlv _ (mul_add_lt hi' hw)
    obtain ⟨hdiv, hmod⟩ := mul_add_div_mod (w := w) hi'
    refine ⟨level id, hlv.trans_le hpos.phases, t, ht, position T t (level id) (w * levelSize T (level id) + i), ?_, hdiv, ?_⟩
    · simp only [positionShares, if_pos hlv]
      exact List.mem_map_of_mem hu
    · unfold position
      rw [hmod]
      exact horder
  · unfold InOrder
    simp only [positionShares]
    split
    · rename_i hp
      rw [List.pairwise_map]
      refine (hpos.sorted p t).imp_of_mem fun {u v} hu hv hlt hchunk => ?_
      have hu := hpos.lt p t u hu
      have hv := hpos.lt p t v hv
      refine ⟨?_, fun hid => Nat.ne_of_lt hlt (position_inj hT hp hu hchunk hid)⟩
      rw [(position_level hT t hp hu).2.2, (position_level hT t hp hv).2.2]
    · exact List.Pairwise.nil
  · obtain ⟨hp, u, hu, rfl⟩ := hjob p t i hi
    obtain ⟨-, v, hv, rfl⟩ := hjob p t' j hj
    have hu' := hpos.lt p t u hu
    have hv' := hpos.lt p t' v hv
    refine ⟨?_, fun hid => ?_⟩
    · rw [(position_level hT t hp hu').2.2, (position_level hT t' hp hv').2.2]
    · rw [position_inj hT hp hu' hchunk hid] at hu
      exact hpos.apart p t t' hne v hu hv
  · obtain ⟨hp, v, hv, rfl⟩ := hjob p t i hi
    obtain ⟨hq, v', hv', rfl⟩ := hjob q u j hj
    rw [(position_level hT t hp (hpos.lt p t v hv)).2.2, (position_level hT u hq (hpos.lt q u v' hv')).2.2]
    exact hlt

end Positions

/-! ## Teams -/

/-- Team `t / g` has chunk `t / g`, and splits every level with stride `g`. -/
def teamPositions (T : Topo α) (g bc : Nat) (p t : Nat) : List Nat :=
  if t / g < bc then (strided (t % g) g (levelSize T p)).map fun i => t / g * levelSize T p + i else []

theorem teamPositions_positions (T : Topo α) {g bc n : Nat} (hg : 0 < g) (hn : bc * g ≤ n) :
    Positions T bc (T.numLevels + 1) (fun _ => n) (teamPositions T g bc) := by
  have hmem : ∀ p t u, u ∈ teamPositions T g bc p t →
      t / g < bc ∧ ∃ i < levelSize T p, i % g = t % g ∧ u = t / g * levelSize T p + i := fun p t u hu => by
    unfold teamPositions at hu
    split at hu
    · obtain ⟨i, hi, rfl⟩ := List.mem_map.mp hu
      obtain ⟨hi, hmod⟩ := (mem_strided_mod (Nat.mod_lt t hg)).mp hi
      exact ⟨‹_›, i, hi, hmod, rfl⟩
    · cases hu
  refine ⟨Nat.le_succ _, fun p t u hu => ?_, fun p t => ?_, fun p t t' hne u hu hu' => ?_, fun p hp u hu => ?_⟩
  · obtain ⟨hw, i, hi, -, rfl⟩ := hmem p t u hu
    exact mul_add_lt hi hw
  · unfold teamPositions
    split
    · rw [List.pairwise_map]
      exact (strided_pairwise _ _ _).imp fun hlt => Nat.add_lt_add_left hlt _
    · exact List.Pairwise.nil
  · obtain ⟨-, i, hi, hmod, rfl⟩ := hmem p t u hu
    obtain ⟨-, i', hi', hmod', heq⟩ := hmem p t' _ hu'
    obtain ⟨hdiv, rfl⟩ := mul_add_inj hi hi' heq
    apply hne
    rw [← Nat.div_add_mod t g, ← hmod, hmod', hdiv, Nat.div_add_mod]
  · have hs : 0 < levelSize T p := Nat.pos_of_ne_zero fun h => by rw [h, Nat.zero_mul] at hu; omega
    have hw : u / levelSize T p < bc := Nat.div_lt_of_lt_mul hu
    have hmod := Nat.mod_lt (u % levelSize T p) hg
    obtain ⟨hdiv, hrem⟩ := mul_add_div_mod (w := u / levelSize T p) hmod
    refine ⟨u / levelSize T p * g + u % levelSize T p % g, ?_, ?_⟩
    · have hlt := mul_add_lt hmod hw
      rw [Nat.mul_comm g bc] at hlt
      omega
    · unfold teamPositions
      rw [hdiv, hrem, if_pos hw]
      refine List.mem_map.mpr ⟨u % levelSize T p, (mem_strided_mod hmod).mpr ⟨Nat.mod_lt u hs, rfl⟩, ?_⟩
      rw [Nat.mul_comm]
      exact Nat.div_add_mod u _

section Kernels
variable {H : PoseHash α} {T : Topo α} {B bc : Nat}

theorem team_flatMap {g p t : Nat} (hg : 0 < g) (hw : t / g < bc) :
    ((strided (t % g) g (levelSize T p)).flatMap fun i =>
        nodeStep H T (chunkLayout T B) ⟨t, t / g, T.order (T.levelStart p + i)⟩) =
      ((teamPositions T g bc p t).map (position T t p)).flatMap (nodeStep H T (chunkLayout T B)) := by
  unfold teamPositions
  rw [if_pos hw, List.map_map, List.flatMap_map]
  apply List.flatMap_congr
  intro i hi
  obtain ⟨hi, -⟩ := (mem_strided_mod (Nat.mod_lt t hg)).mp hi
  obtain ⟨hdiv, hmod⟩ := mul_add_div_mod (w := t / g) hi
  unfold Function.comp position
  rw [hdiv, hmod]

theorem team_eq {g phases : Nat} {threads : Nat → Nat} {t p q u : Nat} {i j : Job}
    (hi : i ∈ (positionShares T phases threads (teamPositions T g bc)).jobs p t)
    (hj : j ∈ (positionShares T phases threads (teamPositions T g bc)).jobs q u) (hg : 0 < g) (h : i.chunk = j.chunk) :
    t / g = u / g := by
  have hchunk : ∀ p t, ∀ i ∈ (positionShares T phases threads (teamPositions T g bc)).jobs p t, i.chunk = t / g :=
    fun p t i hi => by
      simp only [positionShares, teamPositions] at hi
      split at hi
      · split at hi
        · rw [List.map_map] at hi
          obtain ⟨x, hx, rfl⟩ := List.mem_map.mp hi
          exact (mul_add_div_mod ((mem_strided_mod (Nat.mod_lt t hg)).mp hx).1).1
        · cases hi
      · cases hi
  rw [← hchunk p t i hi, ← hchunk q u j hj, h]

theorem kLabelChunkBlock_makes :
    Makes (kLabelChunkBlock H T B bc)
      (positionShares T (T.numLevels + 1) (fun _ => bc * blockThreads) (teamPositions T blockThreads bc)) H T
      (chunkLayout T B) := by
  refine ⟨rfl, fun _ => rfl, fun t ht p hp => ?_, fun t p q u i hi j hj h => team_eq hi hj (by decide) h⟩
  have hw : t / blockThreads < bc := Nat.div_lt_of_lt_mul (by rw [Nat.mul_comm]; exact ht)
  simp only [kLabelChunkBlock, positionShares, chunkNode_eq]
  split
  · exact team_flatMap (by decide) hw
  · rfl

theorem kLabelChunkWarp_makes {grid : Nat} (hgrid : grid * blockThreads ≤ 2 ^ 32) :
    Makes (kLabelChunkWarp H T B bc grid)
      (positionShares T (T.numLevels + 1) (fun _ => grid * blockThreads) (teamPositions T warpSize bc)) H T
      (chunkLayout T B) := by
  refine ⟨rfl, fun _ => rfl, fun t ht p hp => ?_, fun t p q u i hi j hj h => team_eq hi hj (by decide) h⟩
  have hlt : t < 2 ^ 32 := Nat.lt_of_lt_of_le ht hgrid
  have hwarp : warpOf t = t / warpSize := by
    unfold warpOf
    rw [Nat.mod_eq_of_lt hlt]
  have hlane : t % blockThreads % warpSize = t % warpSize := Nat.mod_mod_of_dvd t (by decide)
  simp only [kLabelChunkWarp, positionShares, chunkNode_eq, hwarp, hlane]
  by_cases hw : t / warpSize < bc
  · rw [if_neg (Nat.not_le.mpr hw)]
    split
    · exact team_flatMap (by decide) hw
    · rfl
  · rw [if_pos (Nat.not_lt.mp hw)]
    unfold teamPositions
    rw [if_neg hw]
    split <;> rfl

/-! ## Threads -/

/-- Thread `t` has all nodes of chunk `t`. -/
def threadShares (T : Topo α) (bc n : Nat) : Shares where
  phases := 1
  threads _ := n
  jobs p t := if p = 0 ∧ t < bc then (List.range T.count).map fun i => ⟨t, t, T.order i⟩ else []

theorem threadShares_covers {m n : Nat} {E : EdgeList} {level : Nat → Nat} (hT : T.Describes m E level) (hn : bc ≤ n) :
    (threadShares T bc n).Covers level E.count bc := by
  have hjob : ∀ p t, ∀ j ∈ (threadShares T bc n).jobs p t, p = 0 ∧ t < bc ∧ j.thread = t ∧ j.chunk = t := fun p t j hj => by
    simp only [threadShares] at hj
    split at hj
    · obtain ⟨i, -, rfl⟩ := List.mem_map.mp hj
      exact ⟨(by assumption : p = 0 ∧ t < bc).1, (by assumption : p = 0 ∧ t < bc).2, rfl, rfl⟩
    · cases hj
  have hperm := hT.sorts.order_perm hT.level_lt
  dsimp only at hperm
  refine ⟨fun p t j hj => ?_, fun w hw id hid => ?_, fun p t => ?_, fun p t u hne i hi j hj h => ?_,
    fun p q t u hlt i hi j hj _ => ?_⟩
  · obtain ⟨-, ht, hthread, hchunk⟩ := hjob p t j hj
    refine ⟨hthread, hchunk ▸ ht, ?_⟩
    simp only [threadShares] at hj
    split at hj
    · obtain ⟨i, hi, rfl⟩ := List.mem_map.mp hj
      rw [hT.count] at hi
      exact List.mem_range.mp (hperm.mem_iff.mp (List.mem_map_of_mem hi))
    · cases hj
  · obtain ⟨i, hi, rfl⟩ := List.mem_map.mp (hperm.mem_iff.mpr (List.mem_range.mpr hid))
    refine ⟨0, Nat.one_pos, w, hw.trans_le hn, ⟨w, w, T.order i⟩, ?_, rfl, rfl⟩
    simp only [threadShares, if_pos (⟨trivial, hw⟩ : True ∧ w < bc), hT.count]
    exact List.mem_map_of_mem hi
  · unfold InOrder
    simp only [threadShares]
    split
    · -- the order of the levels, and no node twice
      rw [List.pairwise_map, hT.count]
      have hpair := hT.sorts.order_pairwise hT.level_lt
      dsimp only at hpair
      rw [List.pairwise_map] at hpair
      exact List.Pairwise.imp (fun h => fun _ => h) hpair
    · exact List.Pairwise.nil
  · obtain ⟨-, -, -, h1⟩ := hjob p t i hi
    obtain ⟨-, -, -, h2⟩ := hjob p u j hj
    exact absurd (h1.symm.trans (h.trans h2)) hne
  · obtain ⟨hp, -⟩ := hjob p t i hi
    obtain ⟨hq, -⟩ := hjob q u j hj
    omega

theorem kLabelChunkThread_makes {grid : Nat} :
    Makes (kLabelChunkThread H T B bc grid) (threadShares T bc (grid * blockThreads)) H T (chunkLayout T B) := by
  refine ⟨rfl, fun _ => rfl, fun t ht p hp => ?_, fun t p q u i hi j hj h => ?_⟩
  · obtain rfl : p = 0 := Nat.le_zero.mp hp
    simp only [kLabelChunkThread, threadShares, chunkNode_eq, true_and]
    by_cases hw : t < bc
    · rw [if_neg (Nat.not_le.mpr hw), if_pos hw, List.flatMap_map]
    · rw [if_pos (Nat.not_lt.mp hw), if_neg hw]
      rfl
  · simp only [threadShares] at hi hj
    split at hi
    · split at hj
      · obtain ⟨x, -, rfl⟩ := List.mem_map.mp hi
        obtain ⟨y, -, rfl⟩ := List.mem_map.mp hj
        exact h
      · cases hj
    · cases hi

end Kernels

end PoseDB.Cuda
