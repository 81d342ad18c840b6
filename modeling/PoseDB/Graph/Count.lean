import Mathlib.Tactic.Ring
import Mathlib.Tactic.Common

/-!
# Sizes of the graph (`graph.c`, node-count formulae)

The recurrences that size every buffer, and the parameter `n` of a graph of `m` blocks: `2^n ≤ m ≤ 2^(n+1)`
(`two_pow_poseGraphParameterN_le`, `le_two_pow_poseGraphParameterN`).
-/

set_option autoImplicit false

namespace PoseDB.Graph

def poseGraphMaxM : Nat := 2 ^ 20

def poseChunkBlocks : Nat := 4096

def poseArenaFactor : Nat := 16

def butterflyNodeCount (dim : Nat) : Nat := (dim + 1) * 2 ^ dim

def connectedNodeCount : Nat → Nat
  | 0 => 1
  | level + 1 => 2 * connectedNodeCount level + 2 * butterflyNodeCount level

def standaloneNodeCount : Nat → Nat
  | 0 => 1
  | level + 1 => standaloneNodeCount level + butterflyNodeCount level + connectedNodeCount level

/-- `chunk_blocks == 0` means the compile-time default. -/
def resolveChunkBlocks (chunkBlocks : Nat) : Nat := if chunkBlocks ≠ 0 then chunkBlocks else poseChunkBlocks

theorem resolveChunkBlocks_pos (chunkBlocks : Nat) : 0 < resolveChunkBlocks chunkBlocks := by
  unfold resolveChunkBlocks
  split
  · omega
  · decide

/-- The loop `while (v > 0) { bits++; v >>= 1; }`. -/
def countBits (v bits : Nat) : Nat := if v = 0 then bits else countBits (v / 2) (bits + 1)
termination_by v
decreasing_by omega

def poseGraphParameterN (m : Nat) : Nat := if m ≤ 1 then 0 else countBits (m - 1) 0 - 1

def scratchNodeCount (m : Nat) : Nat := 2 * standaloneNodeCount (poseGraphParameterN m + 1)

/-! ## The parameter `n` -/

theorem countBits_spec (v bits : Nat) (hv : 0 < v) :
    ∃ k, countBits v bits = bits + k + 1 ∧ 2 ^ k ≤ v ∧ v < 2 ^ (k + 1) := by
  induction v, bits using countBits.induct with
  | case1 bits => omega
  | case2 v bits h ih =>
    rw [countBits, if_neg h]
    by_cases h2 : v / 2 = 0
    · refine ⟨0, ?_, hv, by omega⟩
      rw [h2, countBits, if_pos rfl]
    · obtain ⟨k, hk, hlo, hhi⟩ := ih (by omega)
      refine ⟨k + 1, by rw [hk]; ring, ?_, ?_⟩
      · rw [pow_succ]; omega
      · rw [pow_succ]; omega

theorem poseGraphParameterN_spec {m : Nat} (hm : 1 < m) :
    2 ^ poseGraphParameterN m ≤ m - 1 ∧ m - 1 < 2 ^ (poseGraphParameterN m + 1) := by
  obtain ⟨k, hk, hlo, hhi⟩ := countBits_spec (m - 1) 0 (by omega)
  rw [poseGraphParameterN, if_neg (by omega), hk, Nat.zero_add, Nat.add_sub_cancel]
  exact ⟨hlo, hhi⟩

theorem two_pow_poseGraphParameterN_le {m : Nat} (hm : 1 ≤ m) : 2 ^ poseGraphParameterN m ≤ m := by
  rcases Nat.eq_or_lt_of_le hm with rfl | h
  · simp [poseGraphParameterN]
  · have := (poseGraphParameterN_spec h).1
    omega

theorem le_two_pow_poseGraphParameterN (m : Nat) : m ≤ 2 ^ (poseGraphParameterN m + 1) := by
  by_cases h : 1 < m
  · have := (poseGraphParameterN_spec h).2
    omega
  · have : 0 < 2 ^ (poseGraphParameterN m + 1) := Nat.two_pow_pos _
    omega

theorem poseGraphParameterN_lt {m : Nat} (hm : m ≤ poseGraphMaxM) : poseGraphParameterN m < 20 := by
  by_cases h : 1 < m
  · have hlo := (poseGraphParameterN_spec h).1
    have hmax : m ≤ 2 ^ 20 := hm
    exact (Nat.pow_lt_pow_iff_right (by decide)).mp (show 2 ^ poseGraphParameterN m < 2 ^ 20 by omega)
  · simp [poseGraphParameterN, show m ≤ 1 by omega]

/-! ## Node counts -/

theorem butterflyNodeCount_pos (dim : Nat) : 0 < butterflyNodeCount dim :=
  Nat.mul_pos (Nat.succ_pos dim) (Nat.two_pow_pos dim)

theorem connectedNodeCount_pos : ∀ level, 0 < connectedNodeCount level
  | 0 => Nat.one_pos
  | level + 1 => by
    have := connectedNodeCount_pos level
    rw [connectedNodeCount]; omega

theorem standaloneNodeCount_pos : ∀ level, 0 < standaloneNodeCount level
  | 0 => Nat.one_pos
  | level + 1 => by
    have := standaloneNodeCount_pos level
    rw [standaloneNodeCount]; omega

theorem standaloneNodeCount_mono {a b : Nat} (h : a ≤ b) : standaloneNodeCount a ≤ standaloneNodeCount b := by
  induction h with
  | refl => exact le_rfl
  | step _ ih => rw [standaloneNodeCount]; omega

theorem scratchNodeCount_lt {m : Nat} (hm : m ≤ poseGraphMaxM) : scratchNodeCount m < 2 ^ 32 := by
  have h := standaloneNodeCount_mono (show poseGraphParameterN m + 1 ≤ 20 from poseGraphParameterN_lt hm)
  have h20 : standaloneNodeCount 20 < 2 ^ 31 := by decide
  rw [scratchNodeCount]; omega

end PoseDB.Graph
