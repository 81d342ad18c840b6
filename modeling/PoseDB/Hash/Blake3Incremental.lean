import PoseDB.Hash.Blake3Subtree

/-!
# The hasher over whole runs

Between two steps, the stack of the hasher holds full subtrees over the chunks so far, no larger than their places in
the count of chunks (`Hasher.Stacked`), and the chunk state holds the bytes behind them. Pieces of any sizes keep this
(`Hasher.Has.update`), and finalization rolls the stack up to the root of the whole tree (`Hasher.Has.rootOutput_eq`).
-/

set_option autoImplicit false

namespace PoseDB.Blake3
open LeftTree

/-! ## The size of the next subtree -/

/-- The size is halved until it divides the count; a power of two that divides the count stays a bound. -/
theorem shrink_eq {a t c : Nat} (hta : t ≤ a) (hc : 2 ^ t ∣ c) : ∃ b, t ≤ b ∧ b ≤ a ∧ shrink (2 ^ a) c = 2 ^ b ∧ 2 ^ b ∣ c := by
  induction a with
  | zero =>
    refine ⟨0, hta, le_rfl, ?_, Nat.one_dvd c⟩
    rw [shrink, dif_neg (by rw [Nat.pow_zero, Nat.sub_self, Nat.zero_and]; exact fun h => h rfl)]
  | succ a ih =>
    rw [shrink, Nat.and_comm, Nat.and_two_pow_sub_one_eq_mod]
    split
    · rename_i hne
      have hlt : t ≤ a := by
        by_contra hgt
        obtain rfl : t = a + 1 := by omega
        exact hne (Nat.mod_eq_zero_of_dvd hc)
      obtain ⟨b, htb, hba, hb⟩ := ih hlt
      rw [Nat.pow_succ, Nat.mul_div_cancel _ (by decide)]
      exact ⟨b, htb, Nat.le_succ_of_le hba, hb⟩
    · rename_i heq
      exact ⟨a + 1, hta, le_rfl, rfl, Nat.dvd_of_mod_eq_zero (not_not.mp heq)⟩

/-- The next subtree is a power of two of chunks that divides the chunks so far. -/
theorem Hasher.subtreeLen_eq {h : Hasher} {k n : Nat} (hk : h.chunk.chunkCounter = k) (hn : chunkLen < n)
    (hcount : chunkLen * k < 2 ^ 64) : ∃ s, h.subtreeLen n = chunkLen * 2 ^ s ∧ chunkLen * 2 ^ s ≤ n ∧ 2 ^ s ∣ k := by
  have hpos : n ≠ 0 := by omega
  have hten : 10 ≤ n.log2 := (Nat.le_log2 hpos).mpr (Nat.le_of_lt hn)
  have hdvd : 2 ^ 10 ∣ k * chunkLen := Nat.dvd_mul_left ..
  obtain ⟨b, hlo, hhi, hb, hbdvd⟩ := shrink_eq hten hdvd
  have hpow : 2 ^ b = chunkLen * 2 ^ (b - 10) := by
    rw [show chunkLen = 2 ^ 10 from rfl, ← Nat.pow_add, Nat.add_sub_cancel' hlo]
  refine ⟨b - 10, ?_, ?_, ?_⟩
  · rw [Hasher.subtreeLen, hk, Nat.mod_eq_of_lt (by rwa [Nat.mul_comm]), roundDownToPowerOf2_eq (by omega), hb, hpow]
  · rw [← hpow]
    exact (Nat.pow_le_pow_right (by decide) hhi).trans (Nat.log2_self_le hpos)
  · rw [hpow, Nat.mul_comm] at hbdvd
    exact Nat.dvd_of_mul_dvd_mul_right (by decide) hbdvd

/-! ## The stack -/

/-- The stack holds full subtrees over the `k` chunks of `done`. -/
structure Hasher.Stacked (key : Cv) (flags : Byte) (k : Nat) (done : List Byte) (exps : List Nat) (h : Hasher) : Prop where
  key_eq : h.key = key
  flags_eq : h.chunk.flags = flags
  length_done : done.length = chunkLen * k
  forest : Forest (parentCv key flags) (chunkCvs key flags 0 done) h.cvStack exps
  loose : Loose exps

variable {key : Cv} {flags : Byte} {k : Nat} {done : List Byte} {exps : List Nat} {h : Hasher}

theorem Hasher.Stacked.length_leaves (hs : h.Stacked key flags k done exps) : (chunkCvs key flags 0 done).length = k := by
  rw [length_chunkCvs, hs.length_done]
  unfold chunkLen
  omega

theorem Hasher.Stacked.total_eq (hs : h.Stacked key flags k done exps) : total exps = k := by
  rw [← hs.forest.length_leaves, hs.length_leaves]

theorem Hasher.Stacked.stack_le (hs : h.Stacked key flags k done exps) (hk : chunkLen * k < 2 ^ 64) : h.cvStack.length ≤ 54 := by
  rw [hs.forest.length_stack]
  refine hs.loose.length_le ?_
  rw [hs.total_eq]
  unfold chunkLen at hk
  omega

theorem Hasher.Stacked.mergeCvStack_eq (hs : h.Stacked key flags k done exps) :
    (h.mergeCvStack k).cvStack =
      mergeTo (parentCv key flags) (chunkCvs key flags 0 done).length.bitIndices.length h.cvStack := by
  rw [hs.length_leaves, ← hs.key_eq, ← hs.flags_eq]
  rfl

theorem Hasher.Stacked.merge (hs : h.Stacked key flags k done exps) :
    ∃ exps', (h.mergeCvStack k).Stacked key flags k done exps' ∧ exps'.Pairwise (· < ·) := by
  obtain ⟨exps', hforest, hstrict⟩ := hs.forest.merge hs.loose
  rw [← hs.mergeCvStack_eq] at hforest
  exact ⟨exps', ⟨hs.key_eq, hs.flags_eq, hs.length_done, hforest, .of_strict hstrict⟩, hstrict⟩

theorem Hasher.Stacked.push (hs : h.Stacked key flags k done exps) {e : Nat} (hdvd : 2 ^ e ∣ k) {piece : List Byte}
    (hpiece : piece.length = chunkLen * 2 ^ e) :
    ∃ exps', (h.pushCv (fold (parentCv key flags) (chunkCvs key flags k piece)) k).Stacked key flags (k + 2 ^ e) (done ++ piece)
      (e :: exps') := by
  have hchunks : (chunkCvs key flags k piece).length = 2 ^ e := by
    rw [length_chunkCvs, hpiece]
    unfold chunkLen
    omega
  obtain ⟨exps', hforest, hloose⟩ := hs.forest.add hs.loose (hs.length_leaves.symm ▸ hdvd) hchunks
  refine ⟨exps', hs.key_eq, hs.flags_eq, ?_, ?_, hloose⟩
  · rw [List.length_append, hs.length_done, hpiece, Nat.mul_add]
  · rw [chunkCvs_append key flags 0 hs.length_done, Nat.zero_add]
    rw [← hs.mergeCvStack_eq] at hforest
    exact hforest

/-! ## One round of the loop -/

/-- The chunk state is clear, and has the count of the chunks on the stack. -/
structure Hasher.Clear (key : Cv) (flags : Byte) (k : Nat) (done : List Byte) (exps : List Nat) (h : Hasher) : Prop
    extends Hasher.Stacked key flags k done exps h where
  chunk : h.chunk.Holds key flags k []

theorem ChunkState.Holds.recount {counter : Nat} {st : ChunkState} (hst : st.Holds key flags counter [])
    (counter' : Nat) :
    ChunkState.Holds key flags counter' [] { st with chunkCounter := counter' } := by
  have hblocks : st.blocksCompressed = 0 := by
    have := hst.length_eq
    rw [List.length_nil] at this
    omega
  refine ⟨⟨hst.length_eq, hst.bufLen_le, ?_, hst.buf_eq, rfl, hst.flags_eq⟩, hst.last⟩
  show st.cv = chunkCv key flags counter' [] st.blocksCompressed
  rw [hst.cv_eq, hblocks]
  rfl

theorem Hasher.Clear.init (key : Cv) (flags : Byte) : (Hasher.initBase key flags).Clear key flags 0 [] [] :=
  ⟨⟨rfl, rfl, rfl, .nil, trivial⟩, .init key flags 0⟩

theorem Hasher.Stacked.clear (hs : h.Stacked key flags k done exps) {counter : Nat}
    (hchunk : h.chunk.Holds key flags counter []) :
    Hasher.Clear key flags k done exps { h with chunk := { h.chunk with chunkCounter := k } } :=
  ⟨⟨hs.key_eq, hs.flags_eq, hs.length_done, hs.forest, hs.loose⟩, hchunk.recount k⟩

theorem Hasher.Stacked.push_pair (hs : h.Stacked key flags k done exps) {s : Nat} (hdvd : 2 ^ (s + 1) ∣ k)
    {piece : List Byte} (hpiece : piece.length = chunkLen * 2 ^ (s + 1)) :
    ∃ exps', (((h.pushCv (top (parentCv key flags) (chunkCvs key flags k piece)).1 k).pushCv
        (top (parentCv key flags) (chunkCvs key flags k piece)).2 (k + 2 ^ s)).Stacked key flags (k + 2 ^ (s + 1)) (done ++ piece)
        exps') ∧ 2 ≤ exps'.length := by
  have hhalf : chunkLen * 2 ^ (s + 1) = chunkLen * 2 ^ s + chunkLen * 2 ^ s := by rw [Nat.pow_succ, Nat.mul_two, Nat.mul_add]
  obtain ⟨a, b, rfl, ha, hb⟩ : ∃ a b, piece = a ++ b ∧ a.length = chunkLen * 2 ^ s ∧ b.length = chunkLen * 2 ^ s :=
    ⟨piece.take (chunkLen * 2 ^ s), piece.drop (chunkLen * 2 ^ s), (List.take_append_drop _ _).symm,
      by rw [List.length_take]; omega, by rw [List.length_drop]; omega⟩
  have hchunks : ∀ {c : Nat} {l : List Byte}, l.length = chunkLen * 2 ^ s → (chunkCvs key flags c l).length = 2 ^ s := by
    intro c l hl
    rw [length_chunkCvs, hl]
    unfold chunkLen
    omega
  have htop : top (parentCv key flags) (chunkCvs key flags k (a ++ b)) =
      (fold (parentCv key flags) (chunkCvs key flags k a), fold (parentCv key flags) (chunkCvs key flags (k + 2 ^ s) b)) := by
    rw [chunkCvs_append key flags k ha]
    exact top_append (hchunks ha) (by rw [hchunks hb]; exact Nat.two_pow_pos s) (Nat.le_of_eq (hchunks hb))
  have hdvd' : 2 ^ s ∣ k := (Nat.pow_dvd_pow 2 (Nat.le_succ s)).trans hdvd
  obtain ⟨exps₁, hleft⟩ := hs.push hdvd' ha
  obtain ⟨exps₂, hright⟩ := hleft.push (Nat.dvd_add hdvd' dvd_rfl) hb
  rw [Nat.add_assoc, ← Nat.mul_two, ← Nat.pow_succ, List.append_assoc] at hright
  rw [htop]
  refine ⟨s :: exps₂, hright, ?_⟩
  have hpos : exps₂ ≠ [] := by
    rintro rfl
    have htotal := hright.total_eq
    rw [total_cons, Nat.pow_succ] at htotal
    have := Nat.two_pow_pos s
    change 2 ^ s + 0 = _ at htotal
    omega
  have := List.length_pos_of_ne_nil hpos
  rw [List.length_cons]
  omega

/-- **One round** pushes the next subtree, whole or as the two nodes below its root. -/
theorem Hasher.Clear.subtree (P : Platform) (hc : h.Clear key flags k done exps) {input : List Byte}
    (hlong : chunkLen < input.length) (hcount : chunkLen * k + input.length < 2 ^ 64) :
    ∃ s exps', h.subtreeLen input.length = chunkLen * 2 ^ s ∧ chunkLen * 2 ^ s ≤ input.length ∧
      (h.subtree P input).Clear key flags (k + 2 ^ s) (done ++ input.take (chunkLen * 2 ^ s)) exps' ∧
      (input.length = chunkLen * 2 ^ s → 2 ≤ exps'.length) := by
  obtain ⟨s, hs, hle, hdvd⟩ := h.subtreeLen_eq hc.chunk.counter_eq hlong (by omega)
  have hpiece : (input.take (chunkLen * 2 ^ s)).length = chunkLen * 2 ^ s := by rw [List.length_take, Nat.min_eq_left hle]
  have hchunks : chunkLen * 2 ^ s / chunkLen = 2 ^ s := Nat.mul_div_cancel_left _ (by decide)
  have hwrap : (k + 2 ^ s) % 2 ^ 64 = k + 2 ^ s := by
    unfold chunkLen at *
    omega
  cases s with
  | zero =>
    obtain ⟨exps', hpush⟩ := hc.push hdvd hpiece
    rw [chunkCvs_one key flags k (by rw [hpiece]; decide) (by rw [hpiece]; decide), fold, ← chunkState_output] at hpush
    refine ⟨0, 0 :: exps', hs, hle, ?_, fun hall => absurd hall (by rw [Nat.pow_zero]; omega)⟩
    rw [Hasher.subtree, hs, hc.chunk.counter_eq, hchunks, hwrap, if_pos (by decide), hc.key_eq, hc.flags_eq]
    exact hpush.clear hc.chunk
  | succ s =>
    obtain ⟨exps', hpush, htwo⟩ := hc.push_pair hdvd hpiece
    have hhalf : 2 ^ (s + 1) / 2 = 2 ^ s := by rw [Nat.pow_succ, Nat.mul_div_cancel _ (by decide)]
    have hmore : ¬chunkLen * 2 ^ (s + 1) ≤ chunkLen := by
      have := Nat.two_pow_pos s
      unfold chunkLen
      omega
    have hwrap' : (k + 2 ^ s) % 2 ^ 64 = k + 2 ^ s := by
      rw [Nat.pow_succ] at hwrap
      omega
    refine ⟨s + 1, exps', hs, hle, ?_, fun _ => htwo⟩
    rw [Hasher.subtree, hs, hc.chunk.counter_eq, hchunks, hwrap, if_neg hmore, hhalf, hwrap', hc.key_eq, hc.flags_eq,
      compressSubtreeToParentNode_eq P key flags k (by rw [hpiece]; omega)]
    exact hpush.clear hc.chunk

theorem Hasher.Clear.subtrees (P : Platform) (hc : h.Clear key flags k done exps) {input : List Byte}
    (hcount : chunkLen * k + input.length < 2 ^ 64) (hroot : input = [] → done = [] ∨ 2 ≤ exps.length) :
    ∃ k' done' exps', done' ++ (h.subtrees P input).1 = done ++ input ∧ (h.subtrees P input).2.Clear key flags k' done' exps' ∧
      (h.subtrees P input).1.length ≤ chunkLen ∧ ((h.subtrees P input).1 = [] → done' = [] ∨ 2 ≤ exps'.length) := by
  induction hn : input.length using Nat.strong_induction_on generalizing h k done exps input with
  | _ n ih =>
    rw [Hasher.subtrees]
    split
    · rename_i hlong
      obtain ⟨s, exps₁, hlen, hle, hstep, htwo⟩ := hc.subtree P hlong hcount
      have hpos := Nat.two_pow_pos s
      rw [hlen]
      obtain ⟨k', done', exps', hsplit, hrest⟩ := ih (input.drop (chunkLen * 2 ^ s)).length
        (by rw [List.length_drop]; unfold chunkLen at *; omega) hstep
        (by rw [List.length_drop]; unfold chunkLen at *; omega)
        (fun hnil => .inr (htwo (Nat.le_antisymm (List.drop_eq_nil_iff.mp hnil) hle))) rfl
      rw [List.append_assoc, List.take_append_drop] at hsplit
      exact ⟨k', done', exps', hsplit, hrest⟩
    · rename_i hshort
      exact ⟨k, done, exps, rfl, hc, Nat.le_of_not_lt hshort, hroot⟩

/-! ## Updates -/

/-- The hasher between two updates. The last subtree is not merged while it may be the right child of the root: if the
chunk state is clear, two nodes at least are on the stack. -/
structure Hasher.Between (key : Cv) (flags : Byte) (k : Nat) (done tail : List Byte) (exps : List Nat) (h : Hasher) : Prop
    extends Hasher.Stacked key flags k done exps h where
  chunk : h.chunk.Holds key flags k tail
  tail_le : tail.length ≤ chunkLen
  root : tail = [] → done = [] ∨ 2 ≤ exps.length
  strict : tail ≠ [] → exps.Pairwise (· < ·)

/-- The hasher has read the message `m`. -/
def Hasher.Has (key : Cv) (flags : Byte) (m : List Byte) (h : Hasher) : Prop :=
  ∃ k done tail exps, done ++ tail = m ∧ h.Between key flags k done tail exps

theorem Hasher.Has.init (key : Cv) (flags : Byte) : (Hasher.initBase key flags).Has key flags [] :=
  have hc := Hasher.Clear.init key flags
  ⟨0, [], [], [], rfl, hc.toStacked, hc.chunk, Nat.zero_le _, fun _ => .inl rfl, fun hne => absurd rfl hne⟩

theorem Hasher.Stacked.setChunk (hs : h.Stacked key flags k done exps) {counter : Nat} {m : List Byte} {st : ChunkState}
    (hst : st.Holds key flags counter m) : Hasher.Stacked key flags k done exps { h with chunk := st } :=
  ⟨hs.key_eq, hst.flags_eq, hs.length_done, hs.forest, hs.loose⟩

theorem Hasher.Clear.absorb (P : Platform) (hc : h.Clear key flags k done exps) {input : List Byte} (hne : input ≠ [])
    (hcount : chunkLen * k + input.length < 2 ^ 64) : (h.absorb P input).Has key flags (done ++ input) := by
  obtain ⟨k', done', exps', hsplit, hclear, hle, hroot⟩ := hc.subtrees P hcount fun hnil => absurd hnil hne
  rw [← hsplit, Hasher.absorb]
  dsimp only
  generalize (h.subtrees P input).1 = rest at *
  generalize (h.subtrees P input).2 = h' at *
  split
  · rename_i hpos
    have hst := hclear.chunk.update rest
    rw [List.nil_append] at hst
    obtain ⟨exps₂, hmerged, hstrict⟩ := (hclear.toStacked.setChunk hst).merge
    rw [hst.counter_eq]
    exact ⟨k', done', rest, exps₂, rfl, hmerged, hst, hle, fun hnil => absurd hnil (List.ne_nil_of_length_pos hpos),
      fun _ => hstrict⟩
  · rename_i hzero
    have hnil := List.length_eq_zero_iff.mp (Nat.eq_zero_of_not_pos hzero)
    rw [hnil]
    exact ⟨k', done', [], exps', rfl, hclear.toStacked, hclear.chunk, Nat.zero_le _, fun _ => hroot hnil,
      fun hne => absurd rfl hne⟩

/-- A full chunk is pushed when more bytes come, and the chunk state is reset. -/
theorem Hasher.Stacked.push_chunk (hs : h.Stacked key flags k done exps) {m : List Byte}
    (hst : h.chunk.Holds key flags k m) (hm : m.length = chunkLen) (hcount : chunkLen * k + chunkLen < 2 ^ 64) :
    ∃ exps', Hasher.Clear key flags (k + 1) (done ++ m) exps'
      { h.pushCv h.chunk.output.chainingValue h.chunk.chunkCounter with
        chunk := h.chunk.reset h.key ((h.chunk.chunkCounter + 1) % 2 ^ 64) } := by
  have hwrap : (k + 1) % 2 ^ 64 = k + 1 := by
    unfold chunkLen at *
    omega
  obtain ⟨exps', hpush⟩ := hs.push (e := 0) (Nat.one_dvd k) hm
  rw [chunkCvs_one key flags k (by rw [hm]; decide) (Nat.le_of_eq hm), fold, ← hst.output_eq] at hpush
  have hclear : (h.chunk.reset key (k + 1)).Holds key flags (k + 1) [] :=
    ⟨⟨rfl, Nat.zero_le _, rfl, rfl, rfl, hst.flags_eq⟩, fun hne => absurd rfl hne⟩
  rw [hst.counter_eq, hwrap, hs.key_eq]
  exact ⟨0 :: exps', hpush.setChunk hclear, hclear⟩

/-- **An update** reads its input, whatever its length. -/
theorem Hasher.Has.update (P : Platform) {m : List Byte} (hm : h.Has key flags m) {input : List Byte}
    (hcount : m.length + input.length < 2 ^ 64) : (h.update P input).Has key flags (m ++ input) := by
  obtain ⟨k, done, tail, exps, rfl, hb⟩ := hm
  rw [List.length_append, hb.length_done] at hcount
  rcases eq_or_ne input [] with rfl | hne
  · rw [Hasher.update, if_pos List.length_nil, List.append_nil]
    exact ⟨k, done, tail, exps, rfl, hb⟩
  have hlen := hb.chunk.len_eq
  have hle := hb.tail_le
  have hinput := List.length_pos_of_ne_nil hne
  rw [Hasher.update, if_neg (Nat.ne_of_gt hinput)]
  rcases eq_or_ne tail [] with rfl | htail
  · rw [hlen, if_neg (by decide), List.append_nil]
    exact Hasher.Clear.absorb P ⟨hb.toStacked, hb.chunk⟩ hne (by omega)
  · have htailPos := List.length_pos_of_ne_nil htail
    rw [if_pos (by omega), hlen]
    obtain ⟨take, htake⟩ : ∃ take, take = if chunkLen - tail.length > input.length then input.length else chunkLen - tail.length :=
      ⟨_, rfl⟩
    rw [← htake, List.append_assoc]
    have hst := hb.chunk.update (input.take take)
    have hs := hb.toStacked.setChunk hst
    dsimp only
    split
    · -- the chunk is full and more bytes come
      rename_i hmore
      rw [List.length_drop, htake] at hmore
      have hfull : (tail ++ input.take take).length = chunkLen := by
        rw [List.length_append, List.length_take, htake]
        split at hmore <;> split <;> omega
      have htakeLt : take < input.length := by omega
      have hrest : input.drop take ≠ [] := by
        rw [Ne, List.drop_eq_nil_iff]
        omega
      have hpart : chunkLen + (input.drop take).length = tail.length + input.length := by
        rw [List.length_append, List.length_take, Nat.min_eq_left (Nat.le_of_lt htakeLt)] at hfull
        rw [List.length_drop]
        omega
      obtain ⟨exps', hclear⟩ := hs.push_chunk hst hfull (by omega)
      have habsorb := hclear.absorb P hrest (by rw [Nat.mul_succ]; omega)
      rw [List.append_assoc, List.append_assoc, List.take_append_drop] at habsorb
      exact habsorb
    · -- the chunk state takes all
      rename_i hnone
      have hall : input.take take = input := List.take_of_length_le (by rw [List.length_drop] at hnone; omega)
      rw [hall] at hst hs ⊢
      refine ⟨k, done, tail ++ input, exps, rfl, hs, hst, ?_, fun hnil => ?_, fun _ => hb.strict htail⟩
      · rw [List.length_append]
        rw [List.length_drop, htake] at hnone
        split at hnone <;> omega
      · exact absurd (List.append_eq_nil_iff.mp hnil).1 htail

theorem Hasher.Has.updates (P : Platform) {m : List Byte} (hm : h.Has key flags m) (pieces : List (List Byte))
    (hcount : m.length + pieces.flatten.length < 2 ^ 64) :
    (pieces.foldl (Hasher.update P) h).Has key flags (m ++ pieces.flatten) := by
  induction pieces generalizing m h with
  | nil => rwa [List.flatten_nil, List.append_nil]
  | cons piece pieces ih =>
    rw [List.flatten_cons, List.length_append] at hcount
    rw [List.flatten_cons, ← List.append_assoc]
    exact ih (hm.update P (by omega)) (by rw [List.length_append]; omega)

/-! ## Finalization -/

theorem rootNode_eq (key : Cv) (flags : Byte) {m : List Byte} (hm : chunkLen < m.length) {l : List Cv}
    (hl : chunkCvs key flags 0 m = l) :
    rootNode key flags m = parentOutput key flags (top (parentCv key flags) l).1 (top (parentCv key flags) l).2 := by
  rw [rootNode, if_neg (Nat.not_le.mpr hm), hl]

/-- The loop of `blake3_hasher_finalize_seek`. -/
theorem roll_eq (key : Cv) (flags : Byte) {leaves stack : List Cv} {a : Cv}
    (hf : Forest (parentCv key flags) leaves (a :: stack) exps) (hstrict : exps.Pairwise (· < ·)) {r : List Cv}
    (hr : 0 < r.length) (hle : ∀ e ∈ exps, r.length ≤ 2 ^ e) :
    stack.foldl (fun o cv => parentOutput key flags cv o.chainingValue) (parentOutput key flags a (fold (parentCv key flags) r)) =
      parentOutput key flags (top (parentCv key flags) (leaves ++ r)).1 (top (parentCv key flags) (leaves ++ r)).2 := by
  have hjoin : ∀ a b, parentCv key flags a b = Output.chainingValue (parentOutput key flags a b) := fun _ _ => rfl
  exact hf.roll hjoin hstrict hr hle

/-- **The stack is rolled up to the root of the tree over the message.** -/
theorem Hasher.Has.rootOutput_eq {m : List Byte} (hm : h.Has key flags m) : h.rootOutput = rootNode key flags m := by
  obtain ⟨k, done, tail, exps, rfl, hb⟩ := hm
  have hlen := hb.chunk.len_eq
  have hforest := hb.forest
  have hstack := hforest.length_stack
  have hsum := hb.total_eq
  have hleaves := chunkCvs_append key flags 0 hb.length_done tail
  rw [Nat.zero_add] at hleaves
  rw [Hasher.rootOutput, hb.key_eq, hb.flags_eq, hb.chunk.output_eq, hlen]
  generalize h.cvStack = stack at *
  match stack with
  | [] =>
    obtain rfl := List.length_eq_zero_iff.mp hstack.symm
    obtain rfl : k = 0 := hsum.symm
    have hdone : done = [] := List.length_eq_zero_iff.mp hb.length_done
    rw [hdone, List.nil_append, rootNode, if_pos hb.tail_le]
  | a :: stack =>
    have hk : 0 < k := by
      match exps, hstack with
      | e :: exps, _ =>
        have := Nat.two_pow_pos e
        rw [total_cons] at hsum
        omega
    rcases eq_or_ne tail [] with htail | htail
    · -- the node at the top is the right child of the root
      have htwo : 2 ≤ exps.length := (hb.root htail).resolve_left fun hdone => by
        have := hb.length_done
        rw [hdone, List.length_nil] at this
        unfold chunkLen at this
        omega
      have hlong : chunkLen < (done ++ tail).length := by
        have htwoChunks : 2 ≤ k := by
          match exps, htwo with
          | e :: e' :: exps, _ =>
            have := Nat.two_pow_pos e
            have := Nat.two_pow_pos e'
            rw [total_cons, total_cons] at hsum
            omega
        rw [htail, List.append_nil, hb.length_done]
        unfold chunkLen
        omega
      obtain ⟨l, r, e, exps', hl, rfl, rfl, hr, hrest⟩ := hforest.pop
      match stack with
      | [] => exact absurd hrest.length_stack (by rw [List.length_cons] at htwo; rw [List.length_nil]; omega)
      | a :: stack =>
        have hroll := roll_eq key flags hrest hb.loose.2 (r := r) (by rw [hr]; exact Nat.two_pow_pos e)
          fun e' he' => by rw [hr]; exact Nat.pow_le_pow_right (by decide) (hb.loose.1 e' he')
        rw [htail, List.append_nil] at hlong hleaves ⊢
        rw [rootNode_eq key flags hlong hl, ← hroll]
        rfl
    · have htailPos := List.length_pos_of_ne_nil htail
      have hlong : chunkLen < (done ++ tail).length := by
        rw [List.length_append, hb.length_done]
        unfold chunkLen
        omega
      have hone := chunkCvs_one key flags k htailPos hb.tail_le
      have hroll := roll_eq key flags hforest (hb.strict htail) (r := chunkCvs key flags k tail) (by rw [hone]; exact Nat.one_pos)
        fun e _ => by rw [hone]; exact Nat.one_le_two_pow
      rw [rootNode_eq key flags hlong hleaves, ← hroll, hone, fold]
      cases stack with
      | nil => rfl
      | cons a' stack =>
        dsimp only
        rw [if_pos htailPos, List.foldl_cons]

theorem rootOutput_updates (P : Platform) (key : Cv) (flags : Byte) {pieces : List (List Byte)}
    (hlen : pieces.flatten.length < 2 ^ 64) :
    (pieces.foldl (Hasher.update P) (Hasher.initBase key flags)).rootOutput = rootNode key flags pieces.flatten := by
  have hrun := (Hasher.Has.init key flags).updates P pieces (by rwa [List.length_nil, Nat.zero_add])
  rw [List.nil_append] at hrun
  exact hrun.rootOutput_eq

/-- Between two updates the stack holds at most 54 values; the array has places for 55. -/
theorem cvStack_updates (P : Platform) (key : Cv) (flags : Byte) {pieces : List (List Byte)}
    (hlen : pieces.flatten.length < 2 ^ 64) :
    (pieces.foldl (Hasher.update P) (Hasher.initBase key flags)).cvStack.length ≤ 54 := by
  obtain ⟨k, done, tail, exps, hm, hb⟩ :=
    (Hasher.Has.init key flags).updates P pieces (by rwa [List.length_nil, Nat.zero_add])
  refine hb.stack_le ?_
  rw [List.nil_append] at hm
  rw [← hm, List.length_append, hb.length_done] at hlen
  omega

/-- **The hasher over whole runs**: in whatever pieces a message comes, and on any machine, the bytes are those of the
root of the tree over its chunks. -/
theorem hasher_eq (P : Platform) (key : Cv) (flags : Byte) (pieces : List (List Byte))
    (hlen : pieces.flatten.length < 2 ^ 64) (seek outLen : Nat) :
    (pieces.foldl (Hasher.update P) (Hasher.initBase key flags)).finalizeSeek seek outLen =
      (rootNode key flags pieces.flatten).rootBytes seek outLen := by
  rw [Hasher.finalizeSeek, rootOutput_updates P key flags hlen]

def portable : Platform where
  hashMany := hashManyPortable
  hashMany_eq _ _ _ _ _ _ _ _ _ _ := rfl
  simdDegree := 1
  degree_pow := ⟨0, Nat.zero_le 4, rfl⟩

/-- Three pieces of 1500 bytes in all, so that the second piece ends in the second chunk; the output starts in the first
block and ends in the second one. -/
theorem hasher_eq_pieces :
    let pieces : List (List Byte) := [List.replicate 1000 1, List.replicate 400 2, List.replicate 100 3]
    (pieces.foldl (Hasher.update portable) (Hasher.initBase IV keyedHash)).finalizeSeek 60 80 =
      (rootNode IV keyedHash pieces.flatten).rootBytes 60 80 := by
  intro pieces
  have hlen : pieces.flatten.length = 1500 := by
    simp only [pieces, List.flatten_cons, List.flatten_nil, List.length_append, List.length_replicate, List.length_nil]
  exact hasher_eq portable IV keyedHash pieces (by omega) 60 80

/-! ## The output -/

theorem map_range_blocks {α : Type} (f : Nat → α) (q r : Nat) :
    (List.range (64 * q + r)).map f =
      ((List.range q).flatMap fun k => (List.range 64).map fun j => f (64 * k + j)) ++ (List.range r).map fun j => f (64 * q + j) := by
  induction q generalizing r with
  | zero => simp
  | succ q ih =>
    have hsplit : (List.range (64 + r)).map (fun j => f (64 * q + j)) =
        ((List.range 64).map fun j => f (64 * q + j)) ++ (List.range r).map fun j => f (64 * (q + 1) + j) := by
      rw [List.range_add, List.map_append, List.map_map]
      refine congrArg₂ (· ++ ·) rfl (List.map_congr_left fun j _ => ?_)
      rw [Function.comp_apply, Nat.mul_succ, Nat.add_assoc]
    rw [show 64 * (q + 1) + r = 64 * q + (64 + r) by omega, ih, hsplit, @List.range_succ q, List.flatMap_append, List.append_assoc,
      List.flatMap_singleton]

/-- Byte `i` of the output of a root. -/
def Output.stream (o : Output) (i : Nat) : Byte := o.xof (i / 64) (i % 64)

/-- **The output is a window of one stream**, from `seek` on. -/
theorem Output.rootBytes_eq (o : Output) (seek outLen : Nat) :
    o.rootBytes seek outLen = (List.range outLen).map fun i => o.stream (seek + i) := by
  rw [Output.rootBytes]
  split
  · rename_i h0
    rw [h0]
    rfl
  obtain ⟨bytes, hbytes⟩ : ∃ b, b = if seek % 64 ≠ 0 then (if outLen > 64 - seek % 64 then 64 - seek % 64 else outLen) else 0 :=
    ⟨_, rfl⟩
  obtain ⟨counter, hcounter⟩ : ∃ c, c = if seek % 64 ≠ 0 then seek / 64 + 1 else seek / 64 := ⟨_, rfl⟩
  have hle : bytes ≤ outLen := by
    rw [hbytes]
    split_ifs <;> omega
  have hfirst : ∀ i < bytes, seek % 64 + i < 64 := fun i hi => by
    rw [hbytes] at hi
    split_ifs at hi <;> omega
  have hrest : bytes < outLen → seek + bytes = 64 * counter := fun h => by
    rw [hbytes] at h ⊢
    rw [hcounter]
    split_ifs at h ⊢ <;> omega
  dsimp only
  rw [← hbytes, ← hcounter, List.append_assoc]
  have hwhole : List.range outLen = List.range bytes ++ (List.range (outLen - bytes)).map (bytes + ·) := by
    rw [← List.range_add, Nat.add_sub_cancel' hle]
  rw [hwhole, List.map_append, List.map_map]
  refine congrArg₂ (· ++ ·) (List.map_congr_left fun i hi => ?_) ?_
  · have := hfirst i (List.mem_range.mp hi)
    rw [Output.stream, show (seek + i) / 64 = seek / 64 by omega, show (seek + i) % 64 = seek % 64 + i by omega]
  · rcases Nat.lt_or_eq_of_le hle with hlt | heq
    · have hstream : ∀ k, ∀ j < 64, o.stream (64 * counter + (64 * k + j)) = o.xof (counter + k) j := fun k j hj => by
        rw [Output.stream, show (64 * counter + (64 * k + j)) / 64 = counter + k by omega,
          show (64 * counter + (64 * k + j)) % 64 = j by omega]
      have hcomp : ((fun i => o.stream (seek + i)) ∘ (bytes + ·)) = fun i => o.stream (64 * counter + i) := by
        funext i
        rw [Function.comp_apply, ← Nat.add_assoc, hrest hlt]
      rw [hcomp]
      conv_rhs => rw [← Nat.div_add_mod (outLen - bytes) 64, map_range_blocks]
      refine congrArg₂ (· ++ ·) (List.flatMap_congr fun k _ => List.map_congr_left fun j hj => ?_)
        (List.map_congr_left fun j hj => ?_)
      · exact (hstream k j (List.mem_range.mp hj)).symm
      · exact (hstream _ j ((List.mem_range.mp hj).trans (Nat.mod_lt _ (by decide)))).symm
    · rw [heq, Nat.sub_self]
      rfl

/-- **Output in pieces**: what is read on from where one call stopped is what one call gives. -/
theorem finalizeSeek_append (h : Hasher) (seek a b : Nat) :
    h.finalizeSeek seek (a + b) = h.finalizeSeek seek a ++ h.finalizeSeek (seek + a) b := by
  rw [Hasher.finalizeSeek, Hasher.finalizeSeek, Hasher.finalizeSeek, Output.rootBytes_eq, Output.rootBytes_eq, Output.rootBytes_eq,
    List.range_add, List.map_append, List.map_map]
  refine congrArg₂ (· ++ ·) rfl (List.map_congr_left fun i _ => ?_)
  rw [Function.comp_apply, Nat.add_assoc]

end PoseDB.Blake3
