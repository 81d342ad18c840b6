import PoseDB.Hash.Blake3Tree

/-!
# The subtrees of the hasher

`blake3_compress_subtree_wide` gives a row of nodes of the tree over its chunks, as wide as the machine hashes at once
(`compressSubtreeWide_row`); `compress_subtree_to_parent_node` gives the two nodes below the root of the subtree.
-/

set_option autoImplicit false

namespace PoseDB.Blake3
open LeftTree

/-- A subtree has at least two outputs, also when the machine hashes one input at a time. -/
def Platform.width (P : Platform) : Nat := max P.simdDegree 2

theorem Platform.width_pow (P : Platform) : ∃ i, P.width = 2 ^ (i + 1) := by
  obtain ⟨k, -, hk⟩ := P.degree_pow
  cases k with
  | zero => exact ⟨0, by rw [Platform.width, hk]; decide⟩
  | succ k =>
    refine ⟨k, ?_⟩
    have hpos := Nat.two_pow_pos k
    rw [Platform.width, hk, Nat.max_eq_left (by rw [Nat.pow_succ]; omega)]

/-- The left half of an input for several lanes has a chunk for each of them. -/
theorem Platform.simdDegree_le (P : Platform) {n j : Nat} (hmany : ¬n ≤ P.simdDegree * chunkLen)
    (hle : n ≤ 2 * (chunkLen * 2 ^ j)) : P.simdDegree ≤ 2 ^ j := by
  obtain ⟨k, -, hk⟩ := P.degree_pow
  have hlt : 2 ^ k < 2 ^ (j + 1) := by
    rw [← hk, Nat.pow_succ]
    unfold chunkLen at *
    omega
  rw [hk]
  exact Nat.pow_le_pow_right (by decide) (Nat.le_of_lt_succ ((Nat.pow_lt_pow_iff_right (by decide)).mp hlt))

/-- The place of the right values is right behind those of the left half. -/
theorem Platform.rightPlace (P : Platform) {j : Nat} (hdegree : P.simdDegree ≤ 2 ^ j) :
    (if chunkLen * 2 ^ j > chunkLen ∧ P.simdDegree = 1 then 2 else P.simdDegree) = if j = 0 then 1 else P.width := by
  obtain ⟨k, -, hk⟩ := P.degree_pow
  have hpos := Nat.two_pow_pos k
  rcases Nat.eq_zero_or_pos j with rfl | hj
  · rw [if_neg (by omega), if_pos rfl]
    omega
  · have htwo : 2 ≤ 2 ^ j := Nat.le_self_pow (by omega) 2
    rw [if_neg (by omega : ¬j = 0), Platform.width]
    unfold chunkLen
    split <;> omega

section Subtree
variable (P : Platform) (key : Cv) (flags : Byte)

theorem chunkCvs_cut (counter : Nat) {input : List Byte} (h : chunkLen < input.length) :
    ∃ j, leftSubtreeLen input.length = chunkLen * 2 ^ j ∧
      chunkCvs key flags counter input = chunkCvs key flags counter (input.take (leftSubtreeLen input.length)) ++
        chunkCvs key flags (counter + 2 ^ j) (input.drop (leftSubtreeLen input.length)) ∧
      (chunkCvs key flags counter (input.take (leftSubtreeLen input.length))).length = 2 ^ j ∧
      0 < (chunkCvs key flags (counter + 2 ^ j) (input.drop (leftSubtreeLen input.length))).length ∧
      (chunkCvs key flags (counter + 2 ^ j) (input.drop (leftSubtreeLen input.length))).length ≤ 2 ^ j := by
  obtain ⟨j, hj, hlt, hle⟩ := leftSubtreeLen_spec h
  rw [Nat.mul_comm] at hj
  have htake : (input.take (leftSubtreeLen input.length)).length = chunkLen * 2 ^ j := by
    rw [List.length_take, Nat.min_eq_left (Nat.le_of_lt hlt), hj]
  have happend := chunkCvs_append key flags counter htake (input.drop (leftSubtreeLen input.length))
  rw [List.take_append_drop] at happend
  refine ⟨j, hj, happend, ?_, ?_, ?_⟩
  · rw [length_chunkCvs, htake]
    unfold chunkLen
    omega
  · rw [length_chunkCvs, List.length_drop]
    unfold chunkLen at *
    omega
  · rw [length_chunkCvs, List.length_drop]
    unfold chunkLen at *
    omega

/-- **The wide compression gives a row of the tree.** -/
theorem compressSubtreeWide_row (input : List Byte) (counter : Nat) (hpos : 0 < input.length) :
    Row (parentCv key flags) P.width (chunkCvs key flags counter input) (compressSubtreeWide P key flags input counter) := by
  induction hn : input.length using Nat.strong_induction_on generalizing input counter with
  | _ n ih =>
    rw [compressSubtreeWide]
    split
    · rename_i hle
      have hfew : (chunkCvs key flags counter input).length ≤ P.width := by
        rw [length_chunkCvs]
        refine le_trans ?_ (Nat.le_max_left _ _)
        unfold chunkLen at *
        omega
      have hsome : 0 < (chunkCvs key flags counter input).length := by
        rw [length_chunkCvs]
        unfold chunkLen
        omega
      rw [compressChunksParallel_eq]
      exact Row.refl hsome hfew
    · rename_i hmany
      have hlong := P.chunkLen_lt hmany
      obtain ⟨j, hj, hcvs, hleft, hright, hrightLe⟩ := chunkCvs_cut key flags counter hlong
      obtain ⟨_, -, hlt, hle⟩ := leftSubtreeLen_spec hlong
      have hpow := Nat.two_pow_pos j
      have hcounter : leftSubtreeLen input.length / chunkLen = 2 ^ j := by
        rw [hj, Nat.mul_div_cancel_left _ (by decide)]
      have hrowLeft := ih _ (by rw [List.length_take]; omega) (input.take (leftSubtreeLen input.length)) counter
        (by rw [List.length_take, hj]; unfold chunkLen at *; omega) rfl
      have hrowRight := ih _ (by rw [List.length_drop, hj]; unfold chunkLen at *; omega)
        (input.drop (leftSubtreeLen input.length)) ((counter + 2 ^ j) % 2 ^ 64) (by rw [List.length_drop]; omega) rfl
      rw [chunkCvs_mod] at hrowRight
      rw [hcvs]
      dsimp only
      rw [hcounter]
      have hdegree : P.simdDegree ≤ 2 ^ j := P.simdDegree_le hmany (hj ▸ hle)
      have hplace := P.rightPlace hdegree
      rw [← hj] at hplace
      generalize compressSubtreeWide P key flags (input.take (leftSubtreeLen input.length)) counter = left at *
      generalize compressSubtreeWide P key flags (input.drop (leftSubtreeLen input.length)) ((counter + 2 ^ j) % 2 ^ 64) = right at *
      generalize chunkCvs key flags counter (input.take (leftSubtreeLen input.length)) = a at *
      generalize chunkCvs key flags (counter + 2 ^ j) (input.drop (leftSubtreeLen input.length)) = b at *
      rcases Nat.eq_zero_or_pos j with rfl | hjpos
      · -- two chunks, which are hashed one at a time
        have htwo : (a ++ b).length = 2 := by
          rw [List.length_append]
          omega
        have hone' : a.length = 1 := hleft
        rw [hplace, if_pos rfl, hrowLeft.eq_of_one hone', hrowRight.eq_of_one (Nat.le_antisymm hrightLe hright), if_pos hone', hone',
          Nat.sub_self, List.replicate_zero, List.append_nil, List.take_of_length_le (Nat.le_of_eq htwo)]
        exact Row.refl (by omega) (htwo ▸ Nat.le_max_right _ _)
      · obtain ⟨i, hi⟩ := P.width_pow
        have htwo : 2 ≤ 2 ^ j := Nat.le_self_pow (by omega) 2
        have hwidth : P.width ≤ 2 ^ j := Nat.max_le.mpr ⟨hdegree, htwo⟩
        have hij : i + 1 ≤ j := (Nat.pow_le_pow_iff_right (by decide)).mp (hi ▸ hwidth)
        have hlen : left.length = P.width := by rw [hrowLeft.full j hleft, Nat.min_eq_right hwidth]
        have hmore : 2 ≤ P.width := Nat.le_max_right _ _
        rw [hplace, if_neg (by omega : ¬j = 0), hlen, Nat.sub_self, List.replicate_zero, List.append_nil, if_neg (by omega),
          List.take_of_length_le (by rw [List.length_append, hlen]), compressParentsParallel_eq]
        exact Row.parents hi hij hleft hright hrightLe hrowLeft hrowRight

/-- **Two nodes remain of a subtree**, those below its root. -/
theorem condense_eq {cvs : List Cv} (h : 2 ≤ cvs.length) :
    ∃ a b, condense P key flags cvs = [a, b] ∧ top (parentCv key flags) cvs = (a, b) := by
  induction hn : cvs.length using Nat.strong_induction_on generalizing cvs with
  | _ n ih =>
    rw [condense]
    split
    · rename_i hmany
      have hlen : (pairs (parentCv key flags) cvs).length = (cvs.length + 1) / 2 := length_pairs cvs
      rw [compressParentsParallel_eq, ← top_pairs hmany]
      exact ih _ (by omega) (by omega) rfl
    · rename_i hfew
      match cvs, Nat.le_antisymm (Nat.le_of_not_lt hfew) h with
      | [a, b], _ => exact ⟨a, b, rfl, top_pair a b⟩

theorem compressSubtreeToParentNode_eq {input : List Byte} (counter : Nat) (h : chunkLen < input.length) :
    compressSubtreeToParentNode P key flags input counter = top (parentCv key flags) (chunkCvs key flags counter input) := by
  have hrow := compressSubtreeWide_row P key flags input counter (by omega)
  have hmany : 2 ≤ (chunkCvs key flags counter input).length := by
    rw [length_chunkCvs]
    unfold chunkLen at *
    omega
  obtain ⟨hlen, htop⟩ := hrow.top_eq hmany
  obtain ⟨a, b, hcondense, hab⟩ := condense_eq P key flags hlen
  rw [compressSubtreeToParentNode, hcondense, ← htop, hab]
  rfl

end Subtree

end PoseDB.Blake3
