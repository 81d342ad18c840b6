import PoseDB.Cuda.Strategies

/-!
# Batches, waves and the whole region

`labelBatch_labelled`: whatever the strategy, the commands of one batch succeed, have no race, and leave the outputs
of the batch in the persisted region. **`labelBatches_labelled`**: so do all batches, for every width of a batch that
the index arithmetic of the kernels carries. `graphLabels_chunkLabel`: these outputs are the labels that the verifier
recomputes.
-/

set_option autoImplicit false

namespace PoseDB.Cuda
open Loops Threads PoseDB.Graph Bucket

variable {α : Type} {H : PoseHash α} {T : Topo α} {m : Nat} {E : EdgeList} {level : Nat → Nat}

/-! ## Labeling a wave -/

def gridPositions (T : Topo α) (G bc : Nat) (p t : Nat) : List Nat :=
  if t < G then strided t G (levelSize T p * bc) else []

def threadPositions (T : Topo α) (bc : Nat) (p t : Nat) : List Nat := if t < levelSize T p * bc then [t] else []

theorem gridPositions_positions (T : Topo α) (bc : Nat) {G : Nat} (hG : 0 < G) :
    Positions T bc (T.numLevels + 1) (fun _ => G) (gridPositions T G bc) := by
  have hmem : ∀ p t u, u ∈ gridPositions T G bc p t → t < G ∧ u < levelSize T p * bc ∧ u % G = t := fun p t u hu => by
    unfold gridPositions at hu
    split at hu
    · exact ⟨‹_›, (mem_strided_mod ‹_›).mp hu⟩
    · cases hu
  refine ⟨Nat.le_succ _, fun p t u hu => (hmem p t u hu).2.1, fun p t => ?_, fun p t t' hne u hu hu' => ?_,
    fun p _ u hu => ⟨u % G, Nat.mod_lt u hG, ?_⟩⟩
  · unfold gridPositions
    split
    · exact strided_pairwise _ _ _
    · exact List.Pairwise.nil
  · exact hne ((hmem p t u hu).2.2.symm.trans (hmem p t' u hu').2.2)
  · unfold gridPositions
    rw [if_pos (Nat.mod_lt u hG)]
    exact (mem_strided_mod (Nat.mod_lt u hG)).mpr ⟨hu, rfl⟩

theorem threadPositions_positions (T : Topo α) (bc : Nat) {threads : Nat → Nat}
    (h : ∀ p < T.numLevels, levelSize T p * bc ≤ threads p) :
    Positions T bc T.numLevels threads (threadPositions T bc) := by
  have hmem : ∀ p t u, u ∈ threadPositions T bc p t → u = t ∧ t < levelSize T p * bc := fun p t u hu => by
    unfold threadPositions at hu
    split at hu
    · exact ⟨List.mem_singleton.mp hu, ‹_›⟩
    · cases hu
  refine ⟨le_rfl, fun p t u hu => ?_, fun p t => ?_, fun p t t' hne u hu hu' => ?_, fun p hp u hu => ⟨u, ?_, ?_⟩⟩
  · obtain ⟨rfl, h⟩ := hmem p t u hu
    exact h
  · unfold threadPositions
    split
    · exact List.pairwise_singleton _ _
    · exact List.Pairwise.nil
  · exact hne ((hmem p t u hu).1.symm.trans (hmem p t' u hu').1)
  · exact hu.trans_le (h p hp)
  · unfold threadPositions
    rw [if_pos hu]
    exact List.mem_singleton.mpr rfl

theorem levelNode_eq (B thread lv u : Nat) :
    levelNode H T thread (T.levelStart lv) (levelSize T lv) u =
      nodeStep H T (levelLayout T B) (position T thread lv u) := labelNode_eq_nodeStep H T B _ _ _

theorem kLabelAllLevels_makes {B bc grid : Nat} :
    Makes (kLabelAllLevels H T bc grid)
      (positionShares T (T.numLevels + 1) (fun _ => grid * blockThreads) (gridPositions T (grid * blockThreads) bc)) H T
      (levelLayout T B) := by
  refine ⟨rfl, fun _ => rfl, fun t ht p hp => ?_, fun _ _ _ _ _ _ _ _ _ => rfl⟩
  have ht' : t < grid * blockThreads := ht
  simp only [kLabelAllLevels, positionShares, gridPositions, if_pos ht']
  split
  · rw [List.flatMap_map]
    exact List.flatMap_congr fun u _ => levelNode_eq B t p u
  · rfl

/-- The whole scaffold, one place for each node, kept to the end. -/
theorem levelLayout_fits (hT : T.Describes m E level) (B : Nat) :
    (levelLayout T B).Fits m E level fun _ => T.numLevels := by
  refine ⟨⟨fun id hid => Nat.le_of_lt (hT.level_lt id hid), fun id hid _ _ => Nat.le_of_lt (hT.level_lt id hid),
    fun id hid => hid.trans_eq hT.count.symm, fun a _ b _ hne _ _ => hne⟩, fun _ _ h => absurd h (show ¬(0 : Int) ≤ -1 by decide)⟩

theorem levelCount_eq (hT : T.Describes m E level) {lv : Nat} (hlv : lv < T.numLevels) :
    T.levelCount lv = levelSize T lv := by
  rw [hT.levelCount]
  exact (hT.sorts.size hlv).symm

theorem levelSize_le (hT : T.Describes m E level) {lv : Nat} (hlv : lv < T.numLevels) : levelSize T lv ≤ E.count := by
  rw [← levelCount_eq hT hlv, hT.levelCount]
  exact Nat.count_le _

theorem grid_bounds {n : Nat} (hn : 1 ≤ n) (hmax : n ≤ gridMax * blockThreads) :
    (1 ≤ (n + blockThreads - 1) / blockThreads ∧ (n + blockThreads - 1) / blockThreads ≤ gridMax) ∧
      n ≤ (n + blockThreads - 1) / blockThreads * blockThreads := by
  unfold blockThreads at *
  omega

/-- Commands that label a wave in the work buffer, by any sharing out of the jobs. -/
structure LabelsWave (r : Issued α) (H : PoseHash α) (T : Topo α) (level : Nat → Nat) (count B bc : Nat) : Prop where
  rc : r.rc = 0
  raceFree : ∀ x ∈ r.cmds, x.RaceFree
  run : ∃ S : Shares, S.Covers level count bc ∧
    ∀ mem, r.cmds.foldl Command.run mem = runJobs H T (levelLayout T B) S.all mem

theorem labelAllLevels_labelsWave (hrec : RecordsScaffold m E) (hT : T.Describes m E level) (B bc : Nat) {grid : Nat}
    (hgrid : 0 < grid) : LabelsWave ⟨[.launch (kLabelAllLevels H T bc grid)], 0⟩ H T level E.count B bc := by
  have hmakes : Makes (kLabelAllLevels H T bc grid) _ H T (levelLayout T B) := kLabelAllLevels_makes
  have hcovers := (gridPositions_positions T bc (Nat.mul_pos hgrid (by decide : 0 < blockThreads))).covers hT
  refine ⟨rfl, fun x hx => ?_, _, hcovers, fun mem => ?_⟩
  · rw [List.mem_singleton.mp hx]
    exact hmakes.raceFree hrec hT (levelLayout_fits hT B) hcovers
  · show runAll (kLabelAllLevels H T bc grid).serial mem = _
    rw [hmakes.serial]
    rfl

theorem kLabelLevel_serial {B bc lv : Nat} (hlv : lv < T.numLevels) (grid : Nat) :
    (kLabelLevel H T bc (T.levelStart lv) (levelSize T lv) grid).serial =
      ((List.range (grid * blockThreads)).flatMap fun t =>
        (positionShares T T.numLevels (fun _ => grid * blockThreads) (threadPositions T bc)).jobs lv t).flatMap
          (nodeStep H T (levelLayout T B)) := by
  unfold Kernel.serial
  rw [List.flatMap_assoc]
  simp only [kLabelLevel, Nat.zero_add, List.range_one, List.flatMap_singleton]
  apply List.flatMap_congr
  intro t _
  simp only [positionShares, if_pos hlv, threadPositions]
  by_cases ht : t < levelSize T lv * bc
  · rw [if_neg (Nat.not_le.mpr ht), if_pos ht, levelNode_eq B t lv t]
    simp only [List.map_singleton, List.flatMap_singleton]
  · rw [if_pos (Nat.not_lt.mp ht), if_neg ht]
    rfl

theorem kLabelLevel_raceFree (hrec : RecordsScaffold m E) (hT : T.Describes m E level) {bc lv : Nat}
    (hlv : lv < T.numLevels) (grid : Nat) :
    (kLabelLevel H T bc (T.levelStart lv) (levelSize T lv) grid).RaceFree := by
  intro t _ u _ hne p _ q _ _ a ha b hb
  have hjob : ∀ t, ∀ a ∈ (kLabelLevel H T bc (T.levelStart lv) (levelSize T lv) grid).body t 0,
      t < levelSize T lv * bc ∧ a ∈ nodeStep H T (levelLayout T 0) (position T t lv t) := fun t a ha => by
    simp only [kLabelLevel] at ha
    split at ha
    · cases ha
    · rw [levelNode_eq 0] at ha
      exact ⟨by omega, ha⟩
  obtain ⟨ht, ha⟩ := hjob t a ha
  obtain ⟨hu, hb⟩ := hjob u b hb
  obtain ⟨-, hidt, hlt⟩ := position_level hT t hlv ht
  obtain ⟨-, hidu, hlu⟩ := position_level hT u hlv hu
  refine nodeStep_apart hrec hT (levelLayout_fits hT 0) hne hidt hidu (fun hchunk => ?_) a ha b hb
  exact ⟨hlt.trans hlu.symm, fun hid => hne (position_inj hT hlv ht hchunk hid)⟩

theorem Issued.andThen_of_zero {r : Issued α} (h : r.rc = 0) (next : Issued α) :
    r.andThen next = ⟨r.cmds ++ next.cmds, next.rc⟩ := by
  unfold Issued.andThen
  rw [if_neg (not_not.mpr h)]

theorem launch_eq {grid : Nat} (k : Kernel Cell α) (h : 1 ≤ grid ∧ grid ≤ gridMax) : launch grid k = ⟨[.launch k], 0⟩ :=
  if_pos h

theorem levelLaunches_labelsWave (hrec : RecordsScaffold m E) (hT : T.Describes m E level) (B : Nat) {bc : Nat}
    (hbc : 1 ≤ bc) (hmax : E.count * bc ≤ gridMax * blockThreads) :
    LabelsWave (levelLaunches H T bc) H T level E.count B bc := by
  obtain ⟨S, hSdef⟩ : ∃ S, S = positionShares T T.numLevels
    (fun p => (levelSize T p * bc + blockThreads - 1) / blockThreads * blockThreads) (threadPositions T bc) := ⟨_, rfl⟩
  have hpos : ∀ p < T.numLevels, levelSize T p * bc ≤
      (levelSize T p * bc + blockThreads - 1) / blockThreads * blockThreads := fun p _ => by
    unfold blockThreads
    omega
  have hcovers : S.Covers level E.count bc := hSdef ▸ (threadPositions_positions T bc hpos).covers hT
  have hrun : (levelLaunches H T bc).rc = 0 ∧ (∀ x ∈ (levelLaunches H T bc).cmds, x.RaceFree) ∧
      ∀ mem, (levelLaunches H T bc).cmds.foldl Command.run mem = runJobs H T (levelLayout T B)
        ((List.range T.numLevels).flatMap fun p => (List.range (S.threads p)).flatMap fun t => S.jobs p t) mem := by
    refine loop_inv (fun l (r : Issued α) => r.rc = 0 ∧ (∀ x ∈ r.cmds, x.RaceFree) ∧
      ∀ mem, r.cmds.foldl Command.run mem = runJobs H T (levelLayout T B)
        ((List.range l).flatMap fun p => (List.range (S.threads p)).flatMap fun t => S.jobs p t) mem)
      ⟨rfl, fun _ h => (List.not_mem_nil h).elim, fun _ => rfl⟩ ?_
    rintro lv r hlv ⟨hrc, hrace, hrun⟩
    have hsucc : ((List.range (lv + 1)).flatMap fun p => (List.range (S.threads p)).flatMap fun t => S.jobs p t) =
        ((List.range lv).flatMap fun p => (List.range (S.threads p)).flatMap fun t => S.jobs p t) ++
          (List.range (S.threads lv)).flatMap fun t => S.jobs lv t := by
      rw [List.range_succ, List.flatMap_append, List.flatMap_singleton]
    rw [levelCount_eq hT hlv, hsucc]
    dsimp only
    split
    · rename_i h0
      have hnil : ((List.range (S.threads lv)).flatMap fun t => S.jobs lv t) = [] := by
        rw [List.flatMap_eq_nil_iff]
        intro t _
        rw [hSdef]
        simp only [positionShares, threadPositions, h0, Nat.zero_mul, Nat.not_lt_zero, if_false, List.map_nil, ite_self]
      rw [hnil, List.append_nil]
      exact ⟨hrc, hrace, hrun⟩
    · rename_i h0
      have hle : levelSize T lv * bc ≤ gridMax * blockThreads :=
        (Nat.mul_le_mul_right bc (levelSize_le hT hlv)).trans hmax
      have hgrid := (grid_bounds (Nat.mul_pos (Nat.pos_of_ne_zero h0) hbc) hle).1
      rw [launch_eq _ hgrid, Issued.andThen_of_zero hrc]
      refine ⟨rfl, fun x hx => ?_, fun mem => ?_⟩
      · rcases List.mem_append.mp hx with hx | hx
        · exact hrace x hx
        · rw [List.mem_singleton.mp hx]
          exact kLabelLevel_raceFree hrec hT hlv _
      · rw [List.foldl_append, hrun]
        show runAll (kLabelLevel H T bc (T.levelStart lv) (levelSize T lv) _).serial _ = _
        rw [kLabelLevel_serial (B := B) hlv, runJobs_append, hSdef]
        rfl
  exact ⟨hrun.1, hrun.2.1, S, hcovers, fun mem => by
    rw [hrun.2.2, Shares.all, hSdef]
    rfl⟩

/-! ## Extraction -/

/-- The copy of output `t % m` of chunk `t / m`. -/
def extract (T : Topo α) (m B t : Nat) : Access Cell α :=
  .move (.persist ((B + t / m) * T.superBlocks + t % m)) (.work (t / m * T.count + T.outId (t % m)))

theorem extract_apart (hsuper : T.superBlocks = m) (hm : 0 < m) (B : Nat) {t u : Nat} (h : t ≠ u) :
    (extract T m B t).Apart (extract T m B u) := by
  refine ⟨fun heq => ?_, (fun h => by cases h), (fun h => by cases h)⟩
  have hcell := Cell.persist.inj heq
  rw [hsuper] at hcell
  obtain ⟨hdiv, hmod⟩ := mul_add_inj (Nat.mod_lt t hm) (Nat.mod_lt u hm) hcell
  apply h
  rw [← Nat.div_add_mod t m, hmod, Nat.add_left_cancel hdiv, Nat.div_add_mod]

theorem kExtractOutputs_body {B bc grid t p : Nat} :
    (kExtractOutputs T B bc m grid).body t p = if t < m * bc then [extract T m B t] else [] := by
  simp only [kExtractOutputs, extract]
  by_cases h : t < m * bc
  · rw [if_pos h, if_neg (Nat.not_le.mpr h)]
  · rw [if_neg h, if_pos (Nat.not_lt.mp h)]

theorem mem_kExtractOutputs_body {B bc grid t p : Nat} {x : Access Cell α} :
    x ∈ (kExtractOutputs T B bc m grid).body t p ↔ t < m * bc ∧ x = extract T m B t := by
  rw [kExtractOutputs_body]
  split
  · rename_i ht
    rw [List.mem_singleton]
    exact ⟨fun hx => ⟨ht, hx⟩, And.right⟩
  · rename_i ht
    exact ⟨fun hx => absurd hx List.not_mem_nil, fun hx => absurd hx.1 ht⟩

theorem kExtractOutputs_raceFree (hsuper : T.superBlocks = m) (hm : 0 < m) (B bc grid : Nat) :
    (kExtractOutputs T B bc m grid).RaceFree := by
  intro t _ u _ hne p _ q _ _ a ha b hb
  obtain ⟨-, rfl⟩ := mem_kExtractOutputs_body.mp ha
  obtain ⟨-, rfl⟩ := mem_kExtractOutputs_body.mp hb
  exact extract_apart hsuper hm B hne

theorem kExtractOutputs_serial (B bc grid : Nat) :
    (kExtractOutputs T B bc m grid).serial =
      (List.range (grid * blockThreads)).flatMap fun t => (kExtractOutputs T B bc m grid).body t 0 := by
  unfold Kernel.serial
  rw [show (kExtractOutputs T B bc m grid).barriers + 1 = 1 from rfl, List.range_one, List.flatMap_singleton]
  rfl

theorem kExtractOutputs_apart (hsuper : T.superBlocks = m) (hm : 0 < m) (B bc grid : Nat) :
    (kExtractOutputs T B bc m grid).serial.Pairwise Access.Apart := by
  rw [kExtractOutputs_serial, List.pairwise_flatMap]
  refine ⟨fun t _ => ?_, List.nodup_range.imp fun hne x hx y hy => ?_⟩
  · rw [kExtractOutputs_body]
    split
    · exact List.pairwise_singleton _ _
    · exact List.Pairwise.nil
  · obtain ⟨-, rfl⟩ := mem_kExtractOutputs_body.mp hx
    obtain ⟨-, rfl⟩ := mem_kExtractOutputs_body.mp hy
    exact extract_apart hsuper hm B hne

/-- The extraction copies every output of the wave, and nothing else of the persisted region changes. -/
theorem kExtractOutputs_run (hsuper : T.superBlocks = m) (hm : 0 < m) (B : Nat) {bc grid : Nat}
    (hgrid : m * bc ≤ grid * blockThreads) (mem : Cell → α) :
    let mem' := runAll (kExtractOutputs T B bc m grid).serial mem
    (∀ w < bc, ∀ r < m, mem' (.persist ((B + w) * m + r)) = mem (.work (w * T.count + T.outId r))) ∧
      ∀ b, (b < B * m ∨ (B + bc) * m ≤ b) → mem' (.persist b) = mem (.persist b) := by
  intro mem'
  constructor
  · intro w hw r hr
    have hlt := mul_add_lt hr hw
    obtain ⟨hdiv, hmod⟩ := mul_add_div_mod (w := w) hr
    have hin : extract T m B (w * m + r) ∈ (kExtractOutputs T B bc m grid).serial := by
      rw [kExtractOutputs_serial]
      exact List.mem_flatMap.mpr
        ⟨w * m + r, List.mem_range.mpr (hlt.trans_le hgrid), mem_kExtractOutputs_body.mpr ⟨hlt, rfl⟩⟩
    have hval := runAll_apart (kExtractOutputs_apart hsuper hm B bc grid) mem _ hin
    unfold extract at hval
    rw [hdiv, hmod, hsuper] at hval
    exact hval
  · intro b hb
    apply runAll_of_ne
    intro a ha heq
    rw [kExtractOutputs_serial] at ha
    obtain ⟨t, -, ha⟩ := List.mem_flatMap.mp ha
    obtain ⟨ht, rfl⟩ := mem_kExtractOutputs_body.mp ha
    have hcell : (B + t / m) * T.superBlocks + t % m = b := Cell.persist.inj heq
    rw [hsuper] at hcell
    have hw : t / m < bc := Nat.div_lt_of_lt_mul ht
    have hr := Nat.mod_lt t hm
    have hlo : B * m ≤ (B + t / m) * m := Nat.mul_le_mul_right m (Nat.le_add_right B _)
    have hhi : (B + t / m + 1) * m ≤ (B + bc) * m := Nat.mul_le_mul_right m (by omega)
    rw [Nat.succ_mul] at hhi
    omega

/-! ## A batch -/

section Batches
variable (H T E) (sessionSeed : List UInt8) (o : Nat)

/-- The label of node `id` of super-chunk `j`. -/
def nodeLabel (j id : Nat) : α := graphLabels H (H.chunkSeed sessionSeed (chunkIndex T o j)) T.desc E id

/-- The commands of the super-chunks `base`, ..., `base + bc - 1` succeed, have no race, and write their outputs. -/
structure Labelled (r : Issued α) (base bc : Nat) : Prop where
  rc : r.rc = 0
  raceFree : ∀ x ∈ r.cmds, x.RaceFree
  out : ∀ mem, ∀ w < bc, ∀ id < E.count, 0 ≤ (E.nodes id).challengeRank →
    r.cmds.foldl Command.run mem (.persist ((base + w) * T.superBlocks + (E.nodes id).challengeRank.toNat)) =
      nodeLabel H T E sessionSeed o (base + w) id
  frame : ∀ mem b, (b < base * T.superBlocks ∨ (base + bc) * T.superBlocks ≤ b) →
    r.cmds.foldl Command.run mem (.persist b) = mem (.persist b)

variable {H T E sessionSeed o}

variable (H sessionSeed o) in
theorem copySeeds_run (base bc : Nat) (mem : Cell → α) :
    ∃ mem', (copySeeds H T sessionSeed o base bc).cmds.foldl Command.run mem = mem' ∧
      (∀ w < bc, mem' (.seed w) = H.chunkSeed sessionSeed (chunkIndex T o (base + w))) ∧
      ∀ b, mem' (.persist b) = mem (.persist b) :=
  ⟨_, rfl, fun _ hw => if_pos hw, fun _ => rfl⟩

theorem output_bounds {S r w base bc b : Nat} (hr : r < S) (hw : w < bc) (hb : b = (base + w) * S + r) :
    base * S ≤ b ∧ b < (base + bc) * S := by
  have hlo : base * S ≤ (base + w) * S := Nat.mul_le_mul_right S (Nat.le_add_right base w)
  have hhi : (base + w + 1) * S ≤ (base + bc) * S := Nat.mul_le_mul_right S (by omega)
  rw [Nat.succ_mul] at hhi
  omega

theorem rank_lt (hrec : RecordsScaffold m E) {id : Nat} (hid : id < E.count) (hr : 0 ≤ (E.nodes id).challengeRank) :
    (E.nodes id).challengeRank.toNat < m := by
  obtain ⟨r, hr', -, heq⟩ := hrec.challenge (hrec.count ▸ hid) hr
  rw [heq, Int.toNat_natCast]
  exact hr'

/-- Batches compose: the second writes behind the super-chunks of the first. -/
theorem Labelled.andThen {r r' : Issued α} {base a b : Nat} (h : Labelled H T E sessionSeed o r base a)
    (hrank : ∀ id < E.count, 0 ≤ (E.nodes id).challengeRank → (E.nodes id).challengeRank.toNat < T.superBlocks)
    (h' : Labelled H T E sessionSeed o r' (base + a) b) :
    Labelled H T E sessionSeed o (r.andThen r') base (a + b) := by
  rw [Issued.andThen_of_zero h.rc]
  refine ⟨h'.rc, fun x hx => ?_, fun mem w hw id hid hr => ?_, fun mem c hc => ?_⟩
  · rcases List.mem_append.mp hx with hx | hx
    · exact h.raceFree x hx
    · exact h'.raceFree x hx
  · dsimp only
    rw [List.foldl_append]
    by_cases hlt : w < a
    · rw [h'.frame _ _ (.inl (output_bounds (hrank id hid hr) hlt rfl).2)]
      exact h.out mem w hlt id hid hr
    · obtain ⟨v, rfl⟩ := Nat.exists_eq_add_of_le (Nat.not_lt.mp hlt)
      rw [← Nat.add_assoc]
      exact h'.out _ v (by omega) id hid hr
  · dsimp only
    rw [List.foldl_append]
    have hlo : base * T.superBlocks ≤ (base + a) * T.superBlocks := Nat.mul_le_mul_right _ (Nat.le_add_right base a)
    have hhi : (base + a) * T.superBlocks ≤ (base + (a + b)) * T.superBlocks := Nat.mul_le_mul_right _ (by omega)
    rw [h'.frame _ c (by rw [Nat.add_assoc]; omega), h.frame _ c (by omega)]

theorem chunkLayout_fits (hT : T.Describes m E level) {lastUse : Nat → Nat}
    (hplaces : Places E.nodes E.count level lastUse T.slot T.poolSize) (base : Nat) :
    (chunkLayout T base).Fits m E level lastUse := ⟨hplaces, fun id hid _ => (hT.node id hid).2.2.2⟩

theorem chunkBatch_labelled (hrec : RecordsScaffold m E) (hT : T.Describes m E level) {lastUse : Nat → Nat}
    (hplaces : Places E.nodes E.count level lastUse T.slot T.poolSize) {base bc grid : Nat} {k : Kernel Cell α}
    {S : Shares} (hgrid : 1 ≤ grid ∧ grid ≤ gridMax) (hk : Makes k S H T (chunkLayout T base))
    (hS : S.Covers level E.count bc) :
    Labelled H T E sessionSeed o ((copySeeds H T sessionSeed o base bc).andThen (launch grid k)) base bc := by
  have hΛ := chunkLayout_fits hT hplaces base
  have hrank : ∀ id < E.count, (chunkLayout T base).rank id = (E.nodes id).challengeRank := fun id hid =>
    (hT.node id hid).2.2.2
  rw [launch_eq k hgrid, Issued.andThen_of_zero rfl]
  have hrun : ∀ mem, ∃ mem', ((copySeeds H T sessionSeed o base bc).cmds ++ [Command.launch k]).foldl Command.run mem =
      runJobs H T (chunkLayout T base) S.all mem' ∧
        (∀ w < bc, mem' (.seed w) = H.chunkSeed sessionSeed (chunkIndex T o (base + w))) ∧
        ∀ b, mem' (.persist b) = mem (.persist b) := fun mem => by
    obtain ⟨mem', heq, hseed, hpersist⟩ := copySeeds_run H sessionSeed o base bc mem
    refine ⟨mem', ?_, hseed, hpersist⟩
    rw [List.foldl_append, heq]
    show runAll k.serial mem' = _
    rw [hk.serial]
    rfl
  refine ⟨rfl, fun x hx => ?_, fun mem w hw id hid hr => ?_, fun mem b hb => ?_⟩
  · rcases List.mem_append.mp hx with hx | hx
    · rw [List.mem_singleton.mp hx]
      trivial
    · rw [List.mem_singleton.mp hx]
      exact hk.raceFree hrec hT hΛ hS
  · obtain ⟨mem', heq, hseed, -⟩ := hrun mem
    obtain ⟨hout, -⟩ := hS.run (H := H) hrec hT hΛ mem'
    have hlabel := hout w hw id hid (by rw [hrank id hid]; exact hr)
    unfold Layout.output at hlabel
    rw [hrank id hid] at hlabel
    dsimp only
    rw [heq, nodeLabel, ← hseed w hw]
    exact hlabel
  · obtain ⟨mem', heq, -, hpersist⟩ := hrun mem
    obtain ⟨-, -, -, hframe⟩ := hS.run (H := H) hrec hT hΛ mem'
    dsimp only
    rw [heq, hframe b fun w hw id hid hr hcell => ?_, hpersist]
    unfold Layout.output at hcell
    rw [hrank id hid] at hr hcell
    have hbounds : base * T.superBlocks ≤ b ∧ b < (base + bc) * T.superBlocks :=
      output_bounds (by rw [hT.super]; exact rank_lt hrec hid hr) hw (Cell.persist.inj hcell)
    omega

/-- A wave: the scaffolds in the work buffer, then the extraction. -/
theorem wave_labelled (hrec : RecordsScaffold m E) (hT : T.Describes m E level) (hm : 0 < m) {base bc grid : Nat}
    {r : Issued α} (hr : LabelsWave r H T level E.count base bc) (hgrid : 1 ≤ grid ∧ grid ≤ gridMax)
    (hthreads : m * bc ≤ grid * blockThreads) :
    Labelled H T E sessionSeed o (((copySeeds H T sessionSeed o base bc).andThen r).andThen
      (launch grid (kExtractOutputs T base bc m grid))) base bc := by
  obtain ⟨hrc, hrace, S, hS, hlabels⟩ := hr
  have hΛ := levelLayout_fits hT base
  rw [launch_eq _ hgrid, Issued.andThen_of_zero (r := copySeeds H T sessionSeed o base bc) rfl,
    Issued.andThen_of_zero (r := ⟨(copySeeds H T sessionSeed o base bc).cmds ++ r.cmds, r.rc⟩) hrc]
  have hrun : ∀ mem, ∃ mem', (((copySeeds H T sessionSeed o base bc).cmds ++ r.cmds) ++
      [Command.launch (kExtractOutputs T base bc m grid)]).foldl Command.run mem =
        runAll (kExtractOutputs T base bc m grid).serial (runJobs H T (levelLayout T base) S.all mem') ∧
        (∀ w < bc, mem' (.seed w) = H.chunkSeed sessionSeed (chunkIndex T o (base + w))) ∧
        ∀ b, mem' (.persist b) = mem (.persist b) := fun mem => by
    obtain ⟨mem', heq, hseed, hpersist⟩ := copySeeds_run H sessionSeed o base bc mem
    refine ⟨mem', ?_, hseed, hpersist⟩
    rw [List.foldl_append, List.foldl_append, heq, hlabels]
    rfl
  refine ⟨rfl, fun x hx => ?_, fun mem w hw id hid hr => ?_, fun mem b hb => ?_⟩
  · rcases List.mem_append.mp hx with hx | hx
    · rcases List.mem_append.mp hx with hx | hx
      · rw [List.mem_singleton.mp hx]
        trivial
      · exact hrace x hx
    · rw [List.mem_singleton.mp hx]
      exact kExtractOutputs_raceFree hT.super hm base bc grid
  · obtain ⟨mem', heq, hseed, -⟩ := hrun mem
    obtain ⟨-, hplace, -⟩ := hS.run (H := H) hrec hT hΛ mem'
    obtain ⟨hout, -⟩ := kExtractOutputs_run (T := T) hT.super hm base hthreads (runJobs H T (levelLayout T base) S.all mem')
    have hlabel := hplace w hw id hid fun id' hid' => Nat.le_of_lt (hT.level_lt id' hid')
    dsimp only
    rw [heq, hT.super, hout w hw _ (rank_lt hrec hid hr), hT.outId id hid hr, nodeLabel, ← hseed w hw]
    exact hlabel
  · obtain ⟨mem', heq, -, hpersist⟩ := hrun mem
    obtain ⟨-, hframe⟩ := kExtractOutputs_run (T := T) hT.super hm base hthreads (runJobs H T (levelLayout T base) S.all mem')
    obtain ⟨-, -, -, hframe'⟩ := hS.run (H := H) hrec hT hΛ mem'
    dsimp only
    rw [hT.super] at hb
    rw [heq, hframe b hb, hframe' b (fun _ _ _ _ h => absurd h (show ¬(0 : Int) ≤ -1 by decide)), hpersist]

/-- How many chunks a wave or batch can have: the cap of the waves, the grid, the 32-bit thread index of a warp, and the
32-bit sum in the grid of threads. -/
def Strategy.maxWidth : Strategy → Nat
  | .level => poseGpuWaveCap
  | .block => gridMax
  | .warp => 2 ^ 27
  | .thread => 2 ^ 32 - blockThreads

theorem maxWidth_lt (s : Strategy) : s.maxWidth < 2 ^ 32 := by
  cases s <;> decide

/-- The grid of a batch of warps can be launched, its threads have different 32-bit indices, and there is a warp for
each chunk. -/
theorem warpGrid_bounds {bc : Nat} (hwidth : bc ≤ Strategy.warp.maxWidth) :
    let grid := (bc + warpsPerBlock - 1) % 2 ^ 32 / warpsPerBlock
    (1 ≤ bc → 1 ≤ grid ∧ grid ≤ gridMax) ∧ grid * blockThreads ≤ 2 ^ 32 ∧ bc * warpSize ≤ grid * blockThreads := by
  intro grid
  have hw : bc ≤ 2 ^ 27 := hwidth
  have hgrid : grid = (bc + 7) / 8 := by
    show (bc + 7) % 2 ^ 32 / 8 = (bc + 7) / 8
    rw [Nat.mod_eq_of_lt (by omega)]
  have hmax : gridMax = 2147483647 := rfl
  unfold blockThreads warpSize
  omega

theorem threadGrid_bounds {bc : Nat} (hwidth : bc ≤ Strategy.thread.maxWidth) :
    let grid := (bc + blockThreads - 1) % 2 ^ 32 / blockThreads
    (1 ≤ bc → 1 ≤ grid ∧ grid ≤ gridMax) ∧ bc ≤ grid * blockThreads := by
  intro grid
  have hw : bc ≤ 2 ^ 32 - 256 := hwidth
  have hgrid : grid = (bc + 255) / 256 := by
    show (bc + 255) % 2 ^ 32 / 256 = (bc + 255) / 256
    rw [Nat.mod_eq_of_lt (by omega)]
  have hmax : gridMax = 2147483647 := rfl
  unfold blockThreads
  omega

variable (H sessionSeed o) in
/-- **One batch of any strategy.** -/
theorem labelBatch_labelled (hrec : RecordsScaffold m E) (hT : T.Describes m E level) (hm : 0 < m)
    (hmax : m ≤ poseGraphMaxM) (s : Strategy)
    (hplaces : s.usesSlotMap = true → ∃ lastUse, Places E.nodes E.count level lastUse T.slot T.poolSize)
    (coopGrid base : Nat) {bc : Nat} (hbc : 1 ≤ bc) (hwidth : bc ≤ s.maxWidth) :
    Labelled H T E sessionSeed o (labelBatch H T sessionSeed o s coopGrid base bc) base bc := by
  have hmod : bc % 2 ^ 32 = bc := Nat.mod_eq_of_lt (hwidth.trans_lt (maxWidth_lt s))
  cases s with
  | level =>
    have hw : bc ≤ 64 := hwidth
    have hcount : E.count < 2 ^ 32 := hrec.count ▸ scratchNodeCount_lt hmax
    have hle : E.count * bc ≤ gridMax * blockThreads :=
      (Nat.mul_le_mul (Nat.le_of_lt hcount) hw).trans (by decide)
    have hmle : m * bc ≤ gridMax * blockThreads :=
      (Nat.mul_le_mul hmax hw).trans (by decide)
    obtain ⟨hgrid, hthreads⟩ := grid_bounds (Nat.mul_pos hm hbc) hmle
    simp only [labelBatch, labelWave, hmod, hT.chunk]
    refine wave_labelled hrec hT hm ?_ hgrid hthreads
    split
    · exact labelAllLevels_labelsWave hrec hT base bc ‹_›
    · exact levelLaunches_labelsWave hrec hT base hbc hle
  | block =>
    obtain ⟨lastUse, hplaces⟩ := hplaces rfl
    simp only [labelBatch, hmod]
    exact chunkBatch_labelled hrec hT hplaces ⟨hbc, hwidth⟩ kLabelChunkBlock_makes
      ((teamPositions_positions T (by decide) le_rfl).covers hT)
  | warp =>
    obtain ⟨lastUse, hplaces⟩ := hplaces rfl
    obtain ⟨hlaunch, hgrid, hthreads⟩ := warpGrid_bounds hwidth
    simp only [labelBatch, hmod]
    exact chunkBatch_labelled hrec hT hplaces (hlaunch hbc) (kLabelChunkWarp_makes hgrid)
      ((teamPositions_positions T (by decide) hthreads).covers hT)
  | thread =>
    obtain ⟨lastUse, hplaces⟩ := hplaces rfl
    obtain ⟨hlaunch, hthreads⟩ := threadGrid_bounds hwidth
    simp only [labelBatch, hmod]
    exact chunkBatch_labelled hrec hT hplaces (hlaunch hbc) kLabelChunkThread_makes (threadShares_covers hT hthreads)

/-! ## The whole region -/

theorem maxWidth_pos (s : Strategy) : 1 ≤ s.maxWidth := by
  cases s <;> decide

theorem zeroWork_run (zero : α) (blocks : Nat) (mem : Cell → α) :
    let mem' := (zeroWork zero blocks).cmds.foldl Command.run mem
    (∀ b < blocks, mem' (.work b) = zero) ∧ ∀ b, mem' (.persist b) = mem (.persist b) :=
  ⟨fun _ hb => if_pos hb, fun _ => rfl⟩

variable (H sessionSeed o) in
/-- **All batches**, one after the other: they succeed, have no race, label every super-chunk, leave the rest of the
persisted region alone and zero the scratch. -/
theorem labelBatches_labelled (hrec : RecordsScaffold m E) (hT : T.Describes m E level) (hm : 0 < m)
    (hmax : m ≤ poseGraphMaxM) (s : Strategy)
    (hplaces : s.usesSlotMap = true → ∃ lastUse, Places E.nodes E.count level lastUse T.slot T.poolSize)
    (zero : α) (coopGrid : Nat) {P : Nat} (hP : 1 ≤ P) (hwidth : P ≤ s.maxWidth) (N : Nat) :
    let r := labelBatches H T sessionSeed o s zero coopGrid P N
    Labelled H T E sessionSeed o r 0 N ∧
      ∀ mem, ∀ b < P * regionBlocks T s, r.cmds.foldl Command.run mem (.work b) = zero := by
  have hbatches : Labelled H T E sessionSeed o
      (batchLoop N P (fun base bc (r : Issued α) => r.andThen (labelBatch H T sessionSeed o s coopGrid base bc)) 0 ⟨[], 0⟩)
      0 N := by
    refine batchLoop_inv (show 0 < P by omega) (fun i (r : Issued α) => Labelled H T E sessionSeed o r 0 i) ?_
      (Nat.zero_le N) ⟨rfl, fun _ h => (List.not_mem_nil h).elim, fun _ _ h => absurd h (Nat.not_lt_zero _), fun _ _ _ => rfl⟩
    intro i bc r _ hbc hle hr
    refine hr.andThen (fun id hid hrank => ?_) ?_
    · rw [hT.super]
      exact rank_lt hrec hid hrank
    · rw [Nat.zero_add]
      exact labelBatch_labelled H sessionSeed o hrec hT hm hmax s hplaces coopGrid i hbc (hle.trans hwidth)
  obtain ⟨hrc, hrace, hout, hframe⟩ := hbatches
  unfold labelBatches
  dsimp only
  rw [Issued.andThen_of_zero hrc]
  refine ⟨⟨rfl, fun x hx => ?_, fun mem w hw id hid hr => ?_, fun mem b hb => ?_⟩, fun mem b hb => ?_⟩
  · rcases List.mem_append.mp hx with hx | hx
    · exact hrace x hx
    · rw [List.mem_singleton.mp hx]
      trivial
  · dsimp only
    rw [List.foldl_append, (zeroWork_run zero _ _).2]
    exact hout mem w hw id hid hr
  · dsimp only
    rw [List.foldl_append, (zeroWork_run zero _ _).2]
    exact hframe mem b hb
  · dsimp only
    rw [List.foldl_append]
    exact (zeroWork_run zero _ _).1 b hb

end Batches

/-! ## The labels of the verifier -/

/-- The labels of the recorded graph at the challenge nodes are those of `pose_graph_challenge`. -/
theorem graphLabels_chunkLabel (H : PoseHash α) (hrec : RecordsScaffold m E) (hm : 1 ≤ m) (hmax : m ≤ poseGraphMaxM)
    (seed : α) {id : Nat} (hid : id < E.count) (hr : 0 ≤ (E.nodes id).challengeRank) :
    graphLabels H seed (H.graphDescriptor m (poseGraphParameterN m)) E id =
      Region.chunkLabel H seed m .blake3 (E.nodes id).challengeRank.toNat := by
  obtain ⟨r, hrm, rfl, hrank⟩ := hrec.challenge (hrec.count ▸ hid) hr
  obtain ⟨-, hlab, -, hmem⟩ := doLabel_spec (H := H) hm hmax seed (fun _ => seed) 0 ⟨fun _ => seed, fun _ => 0⟩ .blake3
  have hgraph : LabeledBy (H.label seed (H.graphDescriptor m (poseGraphParameterN m)) .blake3) (scaffoldPreds m) 0
      (scratchNodeCount m) (graphLabels H seed (H.graphDescriptor m (poseGraphParameterN m)) E) := fun id _ hid => by
    rw [graphLabels_eq H _ _ hrec.descends id (hrec.count ▸ hid), hrec.call hid]
  rw [LabeledBy.unique (fun id hid => scaffoldPreds_lt hid) hgraph hlab _ (hrec.count ▸ hid), hrank, Int.toNat_natCast]
  unfold Region.chunkLabel
  rw [hmem]
  have hstore := Mem.store_in (fun _ : Nat => seed) 0 m (fun r =>
    (doLabel H seed m (fun _ => seed) 0 ⟨fun _ => seed, fun _ => 0⟩ .blake3).scratch.labels (challengeNode m r)) hrm
  rw [Nat.zero_add] at hstore
  exact hstore.symm

end PoseDB.Cuda
