import PoseDB.Cuda.Kernels
import PoseDB.Region.Region

/-!
# The kernels label the persisted region

The node steps of a kernel are jobs `(thread, chunk, node)`. Steps of different threads that no barrier separates are
apart (`nodeStep_apart`): of one chunk they have the same level, where the slots of all nodes that are written or read
differ. So by `Threads.Kernel.ends` only the serial run matters, and there a slot keeps its label until the last
reader has run (`run_jobs`).
-/

set_option autoImplicit false

namespace PoseDB.Cuda
open Loops Threads PoseDB.Graph Bucket

variable {α : Type}

/-! ## The labels of the recorded graph -/

/-- The labels of a recorded graph, computed in ascending id order. -/
def graphLabels (H : PoseHash α) (seed desc : α) (E : EdgeList) : Nat → α :=
  loop E.count (fun id L => Function.update L id (H.label seed desc .blake3 ((E.nodes id).call L id))) fun _ => seed

theorem mem_preds {nd : PoseNode} {p : Nat} :
    p ∈ nd.preds ↔ (1 ≤ nd.numPreds ∧ p = nd.pred0) ∨ (2 ≤ nd.numPreds ∧ p = nd.pred1) := by
  unfold PoseNode.preds
  rcases (show nd.numPreds = 0 ∨ nd.numPreds = 1 ∨ 2 ≤ nd.numPreds by omega) with h | h | h
  · rw [h]
    simp only [List.take_zero, List.not_mem_nil, false_iff]
    omega
  · rw [h]
    simp only [List.take_succ_cons, List.take_zero, List.mem_singleton]
    omega
  · rw [List.take_of_length_le h, List.mem_pair]
    constructor
    · rintro (rfl | rfl)
      · exact .inl ⟨by omega, rfl⟩
      · exact .inr ⟨h, rfl⟩
    · rintro (⟨-, rfl⟩ | ⟨-, rfl⟩)
      · exact .inl rfl
      · exact .inr rfl

theorem call_congr {nd : PoseNode} {L L' : Nat → α} (h : ∀ p ∈ nd.preds, L p = L' p) (id : Nat) :
    nd.call L id = nd.call L' id := by
  unfold PoseNode.call
  congr 1
  · split
    · rename_i h1
      rw [h _ (mem_preds.mpr (.inl ⟨h1, rfl⟩))]
    · rfl
  · split
    · rename_i h2
      rw [h _ (mem_preds.mpr (.inr ⟨h2, rfl⟩))]
    · rfl

theorem graphLabels_eq (H : PoseHash α) (seed desc : α) {E : EdgeList} (hdag : Descends E.nodes E.count) :
    ∀ id < E.count, graphLabels H seed desc E id =
      H.label seed desc .blake3 ((E.nodes id).call (graphLabels H seed desc E) id) := by
  refine loop_inv (fun t (L : Nat → α) => ∀ id < t, L id = H.label seed desc .blake3 ((E.nodes id).call L id))
    (fun _ h => absurd h (Nat.not_lt_zero _)) ?_
  intro t L ht ih id hid
  -- the predecessors of a node are older, so the label of `t` is not read
  have hcall : (E.nodes id).call (Function.update L t (H.label seed desc .blake3 ((E.nodes t).call L t))) id =
      (E.nodes id).call L id := call_congr (fun p hp => by
    have hlt := (hdag id (by omega)).2 p hp
    exact Function.update_of_ne (by omega) _ _) id
  rw [hcall]
  by_cases h : id = t
  · rw [h, Function.update_self]
  · rw [Function.update_of_ne h]
    exact ih id (by omega)

/-! ## Jobs -/

/-- A node step: who makes it, for which chunk of the batch, at which node. -/
structure Job where
  thread : Nat
  chunk : Nat
  id : Nat

/-- Where the labels of a chunk are kept, and which of them are copied to the persisted region, from chunk `batchBase`
on. -/
structure Layout where
  slot : Nat → Nat
  pool : Nat
  rank : Nat → Int
  batchBase : Nat

def chunkLayout (T : Topo α) (batchBase : Nat) : Layout := ⟨T.slot, T.poolSize, T.rank, batchBase⟩

def levelLayout (T : Topo α) (waveBase : Nat) : Layout := ⟨fun id => id, T.count, fun _ => -1, waveBase⟩

section Steps
variable (H : PoseHash α) (T : Topo α) (Λ : Layout)

def Layout.place (w id : Nat) : Cell := .work (w * Λ.pool + Λ.slot id)

def Layout.output (w id : Nat) : Cell := .persist ((Λ.batchBase + w) * T.superBlocks + (Λ.rank id).toNat)

def nodeStep (j : Job) : List (Access Cell α) :=
  labelNode H T j.thread j.chunk (j.chunk * Λ.pool) Λ.slot j.id ++
    if Λ.rank j.id ≥ 0 then [.move (Λ.output T j.chunk j.id) (Λ.place j.chunk j.id)] else []

theorem chunkNode_eq (B t w id : Nat) :
    chunkNode H T t w (w * T.poolSize) T.slot id ((B + w) * T.superBlocks) =
      nodeStep H T (chunkLayout T B) ⟨t, w, id⟩ := rfl

theorem labelNode_eq_nodeStep (B t w id : Nat) :
    labelNode H T t w (w * T.count) (fun id => id) id = nodeStep H T (levelLayout T B) ⟨t, w, id⟩ :=
  (List.append_nil _).symm

theorem mem_nodeStep {j : Job} {x : Access Cell α} (hx : x ∈ nodeStep H T Λ j) :
    x = hashNode H T j.thread j.chunk (j.chunk * Λ.pool) Λ.slot j.id ∨
      x = .move (Λ.place j.chunk j.id) (.reg j.thread) ∨
        (0 ≤ Λ.rank j.id ∧ x = .move (Λ.output T j.chunk j.id) (Λ.place j.chunk j.id)) := by
  unfold nodeStep labelNode at hx
  rcases List.mem_append.mp hx with hx | hx
  · rcases List.mem_pair.mp hx with h | h
    · exact .inl h
    · exact .inr (.inl h)
  · split at hx
    · rename_i hr
      exact .inr (.inr ⟨hr, List.mem_singleton.mp hx⟩)
    · cases hx

end Steps

/-- A layout for a graph: safe places, and the ranks of the output nodes. -/
structure Layout.Fits (Λ : Layout) (m : Nat) (E : EdgeList) (level lastUse : Nat → Nat) : Prop where
  places : Places E.nodes E.count level lastUse Λ.slot Λ.pool
  rank : ∀ id < E.count, 0 ≤ Λ.rank id → Λ.rank id = (E.nodes id).challengeRank

section Setting
variable {H : PoseHash α} {T : Topo α} {Λ : Layout} {m : Nat} {E : EdgeList} {level lastUse : Nat → Nat}
  (hrec : RecordsScaffold m E) (hT : T.Describes m E level) (hΛ : Λ.Fits m E level lastUse)

theorem mul_add_inj {p s s' w w' : Nat} (hs : s < p) (hs' : s' < p) (h : w * p + s = w' * p + s') :
    w = w' ∧ s = s' := by
  have hdiv : ∀ w s, s < p → (w * p + s) / p = w := fun w s hs => by
    rw [Nat.mul_comm, Nat.mul_add_div (by omega), Nat.div_eq_of_lt hs, Nat.add_zero]
  have hw : w = w' := by rw [← hdiv w s hs, h, hdiv w' s' hs']
  subst hw
  exact ⟨rfl, Nat.add_left_cancel h⟩

include hΛ in
/-- Two nodes that are needed at a common level have different places. -/
theorem Layout.Fits.place_ne {a b w w' : Nat} (ha : a < E.count) (hb : b < E.count)
    (h : w = w' → a ≠ b ∧ level a ≤ lastUse b ∧ level b ≤ lastUse a) : Λ.place w a ≠ Λ.place w' b := by
  intro heq
  obtain ⟨hw, hs⟩ := mul_add_inj (hΛ.places.slot_lt a ha) (hΛ.places.slot_lt b hb) (Cell.work.inj heq)
  obtain ⟨hab, h1, h2⟩ := h hw
  exact hΛ.places.slot_ne a ha b hb hab h1 h2 hs

include hrec hT hΛ in
theorem Layout.Fits.output_ne {a b w w' : Nat} (ha : a < E.count) (hb : b < E.count) (hra : 0 ≤ Λ.rank a)
    (hrb : 0 ≤ Λ.rank b) (h : w = w' → a ≠ b) : Λ.output T w a ≠ Λ.output T w' b := by
  intro heq
  have ha' := hΛ.rank a ha hra
  have hb' := hΛ.rank b hb hrb
  have hlt : ∀ id < E.count, 0 ≤ Λ.rank id → (Λ.rank id).toNat < T.superBlocks := fun id hid hr => by
    obtain ⟨r, hr', -, heq⟩ := hrec.challenge (hrec.count ▸ hid) (hΛ.rank id hid hr ▸ hr)
    rw [hΛ.rank id hid hr, heq, Int.toNat_natCast, hT.super]
    exact hr'
  obtain ⟨hw, hr⟩ := mul_add_inj (hlt a ha hra) (hlt b hb hrb) (Cell.persist.inj heq)
  have hr' : Λ.rank a = Λ.rank b := by omega
  exact h (by omega) (hrec.bijOn.injOn ⟨ha, ha' ▸ hra⟩ ⟨hb, hb' ▸ hrb⟩ (ha'.symm.trans (hr'.trans hb')))

include hT in
/-- What `label_node` reads: the seed of the chunk and the labels of the predecessors. -/
theorem hashNode_reads {t w id : Nat} (hid : id < E.count) {c : Cell}
    (hc : (hashNode H T t w (w * Λ.pool) Λ.slot id).reads c) :
    c = .seed w ∨ ∃ p ∈ (E.nodes id).preds, c = Λ.place w p := by
  obtain ⟨hnp, hp0, hp1, -⟩ := hT.node id hid
  rcases hc with h | ⟨h1, h⟩ | ⟨h2, h⟩
  · exact .inl h
  · exact .inr ⟨_, mem_preds.mpr (.inl ⟨hnp ▸ h1, rfl⟩), hp0 ▸ h⟩
  · exact .inr ⟨_, mem_preds.mpr (.inr ⟨hnp ▸ h2, rfl⟩), hp1 ▸ h⟩

include hT in
/-- What it computes: the label of the node from the labels found in the places of the predecessors. -/
theorem hashNode_val {t w id : Nat} (hid : id < E.count) (mem : Cell → α) :
    (hashNode H T t w (w * Λ.pool) Λ.slot id).val mem =
      H.label (mem (.seed w)) T.desc .blake3 ((E.nodes id).call (fun p => mem (Λ.place w p)) id) := by
  obtain ⟨hnp, hp0, hp1, -⟩ := hT.node id hid
  unfold hashNode PoseNode.call
  dsimp only
  rw [hnp, hp0, hp1]
  rfl

include hrec hT hΛ in
/-- **No race**: steps of different threads that are of different chunks, or at different nodes of one level. -/
theorem nodeStep_apart {a b : Job} (hthread : a.thread ≠ b.thread) (ha : a.id < E.count) (hb : b.id < E.count)
    (h : a.chunk = b.chunk → level a.id = level b.id ∧ a.id ≠ b.id) :
    ∀ x ∈ nodeStep H T Λ a, ∀ y ∈ nodeStep H T Λ b, x.Apart y := by
  -- the place of a node is not the place of another node of the level, nor of a predecessor of one
  have hplace : ∀ a b : Job, a.id < E.count → b.id < E.count →
      (a.chunk = b.chunk → level a.id = level b.id ∧ a.id ≠ b.id) →
      Λ.place a.chunk a.id ≠ Λ.place b.chunk b.id ∧
        ∀ p ∈ (E.nodes a.id).preds, Λ.place a.chunk p ≠ Λ.place b.chunk b.id := fun a b ha hb h => by
    have hliva := hΛ.places.live a.id ha
    have hlivb := hΛ.places.live b.id hb
    refine ⟨hΛ.place_ne ha hb fun hw => ?_, fun p hp => ?_⟩
    · obtain ⟨hl, hne⟩ := h hw
      exact ⟨hne, by omega, by omega⟩
    · have hlt := hT.levelling.lt hrec.descends ha hp
      have hread := hΛ.places.read a.id ha p hp
      refine hΛ.place_ne (((hrec.descends a.id ha).2 p hp).trans ha) hb fun hw => ?_
      obtain ⟨hl, -⟩ := h hw
      exact ⟨fun heq => by rw [heq] at hlt; omega, by omega, by omega⟩
  obtain ⟨hab, hpab⟩ := hplace a b ha hb h
  obtain ⟨-, hpba⟩ := hplace b a hb ha fun hw => ⟨(h hw.symm).1.symm, (h hw.symm).2.symm⟩
  have hhash : ∀ (a b : Job), a.id < E.count → (∀ p ∈ (E.nodes a.id).preds, Λ.place a.chunk p ≠ Λ.place b.chunk b.id) →
      ¬(hashNode H T a.thread a.chunk (a.chunk * Λ.pool) Λ.slot a.id).reads (Λ.place b.chunk b.id) :=
    fun a b ha hp hc => by
      rcases hashNode_reads hT ha hc with h | ⟨p, hp', h⟩
      · cases h
      · exact hp p hp' h.symm
  have hhash' : ∀ (a : Job) (c : Cell), (∀ n, c ≠ .work n) → (∀ n, c ≠ .seed n) →
      ¬(hashNode H T a.thread a.chunk (a.chunk * Λ.pool) Λ.slot a.id).reads c := fun a c h1 h2 hc => by
    rcases hc with h | ⟨-, h⟩ | ⟨-, h⟩
    · exact h2 _ h
    · exact h1 _ h
    · exact h1 _ h
  intro x hx y hy
  rcases mem_nodeStep H T Λ hx with rfl | rfl | ⟨hra, rfl⟩ <;>
    rcases mem_nodeStep H T Λ hy with rfl | rfl | ⟨hrb, rfl⟩
  · exact ⟨fun h => hthread (Cell.reg.inj h), hhash' a _ (fun _ h => by cases h) (fun _ h => by cases h),
      hhash' b _ (fun _ h => by cases h) (fun _ h => by cases h)⟩
  · exact ⟨(fun h => by cases h), hhash a b ha hpab, fun h => hthread (Cell.reg.inj h)⟩
  · exact ⟨(fun h => by cases h), hhash' a _ (fun _ h => by cases h) (fun _ h => by cases h), (fun h => by cases h)⟩
  · exact ⟨(fun h => by cases h), fun h => hthread (Cell.reg.inj h).symm, hhash b a hb hpba⟩
  · exact ⟨hab, (fun h => by cases h), (fun h => by cases h)⟩
  · exact ⟨(fun h => by cases h), (fun h => by cases h), fun h => hab h⟩
  · exact ⟨(fun h => by cases h), (fun h => by cases h), hhash' b _ (fun _ h => by cases h) (fun _ h => by cases h)⟩
  · exact ⟨(fun h => by cases h), fun h => hab h.symm, (fun h => by cases h)⟩
  · exact ⟨hΛ.output_ne hrec hT ha hb hra hrb fun hw => (h hw).2, (fun h => by cases h), (fun h => by cases h)⟩

/-! ## The serial run of jobs -/

def runJobs (H : PoseHash α) (T : Topo α) (Λ : Layout) (X : List Job) : (Cell → α) → Cell → α :=
  runAll (X.flatMap (nodeStep H T Λ))

theorem runJobs_append (X Y : List Job) (mem : Cell → α) :
    runJobs H T Λ (X ++ Y) mem = runAll (Y.flatMap (nodeStep H T Λ)) (runJobs H T Λ X mem) := by
  unfold runJobs
  rw [List.flatMap_append, runAll_append]

/-- One job: the label goes to its place and, for an output node, to its output; no other block changes. -/
theorem run_nodeStep (j : Job) (mem : Cell → α) :
    let v := (hashNode H T j.thread j.chunk (j.chunk * Λ.pool) Λ.slot j.id).val mem
    let mem' := runAll (nodeStep H T Λ j) mem
    mem' (Λ.place j.chunk j.id) = v ∧ (0 ≤ Λ.rank j.id → mem' (Λ.output T j.chunk j.id) = v) ∧
      ∀ c, c ≠ .reg j.thread → c ≠ Λ.place j.chunk j.id → (0 ≤ Λ.rank j.id → c ≠ Λ.output T j.chunk j.id) →
        mem' c = mem c := by
  intro v mem'
  obtain ⟨mem1, h1⟩ : ∃ mem1, mem1 = Function.update (Function.update mem (.reg j.thread) v) (Λ.place j.chunk j.id) v :=
    ⟨_, rfl⟩
  have hlabel : runAll (labelNode H T j.thread j.chunk (j.chunk * Λ.pool) Λ.slot j.id) mem = mem1 := by
    rw [h1]
    show Function.update (Function.update mem (.reg j.thread) v) (Λ.place j.chunk j.id)
      (Function.update mem (.reg j.thread) v (.reg j.thread)) = _
    rw [Function.update_self]
  have hplace : mem1 (Λ.place j.chunk j.id) = v := by
    rw [h1, Function.update_self]
  have hother : ∀ c, c ≠ .reg j.thread → c ≠ Λ.place j.chunk j.id → mem1 c = mem c := fun c hr hp => by
    rw [h1, Function.update_of_ne hp, Function.update_of_ne hr]
  have hmem' : mem' = runAll (if Λ.rank j.id ≥ 0 then [.move (Λ.output T j.chunk j.id) (Λ.place j.chunk j.id)] else [])
      mem1 := by
    show runAll (nodeStep H T Λ j) mem = _
    rw [nodeStep, runAll_append, hlabel]
  by_cases hr : 0 ≤ Λ.rank j.id
  · rw [if_pos hr] at hmem'
    have hcopy : mem' = Function.update mem1 (Λ.output T j.chunk j.id) v := by
      rw [hmem', ← hplace]
      rfl
    have hne : Λ.place j.chunk j.id ≠ Λ.output T j.chunk j.id := fun h => by cases h
    refine ⟨?_, fun _ => ?_, fun c hreg hpl hout => ?_⟩
    · rw [hcopy, Function.update_of_ne hne, hplace]
    · rw [hcopy, Function.update_self]
    · rw [hcopy, Function.update_of_ne (hout hr), hother c hreg hpl]
  · rw [if_neg hr] at hmem'
    rw [hmem']
    exact ⟨hplace, fun h => absurd h hr, fun c hreg hpl _ => hother c hreg hpl⟩

/-- Jobs of one chunk come level by level, and none is made twice. -/
def InOrder (level : Nat → Nat) (X : List Job) : Prop :=
  X.Pairwise fun a b => a.chunk = b.chunk → level a.id ≤ level b.id ∧ a.id ≠ b.id

/-- The labels of chunk `w`, under the seed in device memory. -/
def labelOf (H : PoseHash α) (T : Topo α) (E : EdgeList) (mem : Cell → α) (w : Nat) : Nat → α :=
  graphLabels H (mem (.seed w)) T.desc E

include hrec hT hΛ in
/-- **The serial run of jobs in level order**, each after its predecessors: a place keeps its label as long as the
node may be read, every output is its label, and no other block of the persisted region changes. -/
theorem run_jobs {X : List Job} (hid : ∀ j ∈ X, j.id < E.count) (horder : InOrder level X)
    (hpreds : ∀ Y j Z, X = Y ++ j :: Z → ∀ p ∈ (E.nodes j.id).preds, ∃ i ∈ Y, i.chunk = j.chunk ∧ i.id = p)
    (mem : Cell → α) :
    let mem' := runJobs H T Λ X mem
    (∀ j ∈ X, ∀ l ≤ lastUse j.id, (∀ i ∈ X, i.chunk = j.chunk → level i.id ≤ l) →
      mem' (Λ.place j.chunk j.id) = labelOf H T E mem j.chunk j.id) ∧
    (∀ j ∈ X, 0 ≤ Λ.rank j.id → mem' (Λ.output T j.chunk j.id) = labelOf H T E mem j.chunk j.id) ∧
    (∀ w, mem' (.seed w) = mem (.seed w)) ∧
    ∀ b, (∀ j ∈ X, 0 ≤ Λ.rank j.id → .persist b ≠ Λ.output T j.chunk j.id) → mem' (.persist b) = mem (.persist b) := by
  induction X using List.reverseRecOn with
  | nil => exact ⟨fun _ h => (List.not_mem_nil h).elim, fun _ h => (List.not_mem_nil h).elim, fun _ => rfl, fun _ _ => rfl⟩
  | append_singleton X x ih =>
    have hmem : ∀ j ∈ X, j ∈ X ++ [x] := fun j hj => List.mem_append_left _ hj
    have hx : x ∈ X ++ [x] := List.mem_append_right _ (List.mem_singleton.mpr rfl)
    obtain ⟨horder', -, hlast⟩ := List.pairwise_append.mp horder
    obtain ⟨hplace, hout, hseed, hframe⟩ := ih (fun j hj => hid j (hmem j hj)) horder' fun Y j Z heq => by
      apply hpreds Y j (Z ++ [x])
      rw [heq, List.append_assoc, List.cons_append]
    have hxid := hid x hx
    have hbefore : ∀ j ∈ X, j.chunk = x.chunk → level j.id ≤ level x.id ∧ j.id ≠ x.id := fun j hj =>
      hlast j hj x (List.mem_singleton.mpr rfl)
    have hval : (hashNode H T x.thread x.chunk (x.chunk * Λ.pool) Λ.slot x.id).val (runJobs H T Λ X mem) =
        labelOf H T E mem x.chunk x.id := by
      rw [hashNode_val hT hxid, hseed, labelOf, graphLabels_eq H _ _ hrec.descends x.id hxid]
      congr 1
      apply call_congr
      intro p hp
      obtain ⟨i, hi, hchunk, rfl⟩ := hpreds X x [] rfl p hp
      rw [← hchunk]
      refine hplace i hi (level x.id) (hΛ.places.read x.id hxid _ hp) fun k hk hkc => ?_
      exact (hbefore k hk (hkc.trans hchunk)).1
    obtain ⟨hself, hself', hother⟩ := run_nodeStep (H := H) (T := T) (Λ := Λ) x (runJobs H T Λ X mem)
    rw [hval] at hself hself'
    simp only [runJobs_append, List.flatMap_singleton]
    refine ⟨fun j hj l hl hmax => ?_, fun j hj hr => ?_, fun w => ?_, fun b hb => ?_⟩
    · rcases List.mem_append.mp hj with hj | hj
      · have hjid := hid j (hmem j hj)
        have hne : Λ.place j.chunk j.id ≠ Λ.place x.chunk x.id := hΛ.place_ne hjid hxid fun hw => by
          have hlx := hmax x hx hw.symm
          have hlive := hΛ.places.live x.id hxid
          obtain ⟨hle, hne⟩ := hbefore j hj hw
          exact ⟨hne, by omega, by omega⟩
        rw [hother _ (fun h => by cases h) hne fun _ h => by cases h]
        exact hplace j hj l hl fun i hi => hmax i (hmem i hi)
      · obtain rfl := List.mem_singleton.mp hj
        exact hself
    · rcases List.mem_append.mp hj with hj | hj
      · have hne : Λ.output T j.chunk j.id ≠ Λ.place x.chunk x.id := fun h => by cases h
        rw [hother _ (fun h => by cases h) hne fun hrx =>
          hΛ.output_ne hrec hT (hid j (hmem j hj)) hxid hr hrx fun hw => (hbefore j hj hw).2]
        exact hout j hj hr
      · obtain rfl := List.mem_singleton.mp hj
        exact hself' hr
    · rw [hother _ (fun h => by cases h) (fun h => by cases h) fun _ h => by cases h]
      exact hseed w
    · rw [hother _ (fun h => by cases h) (fun h => by cases h) (hb x hx)]
      exact hframe b fun j hj => hb j (hmem j hj)

end Setting

/-! ## Jobs handed out to threads -/

/-- The jobs of every thread in every phase; a phase ends at a barrier or with its kernel. -/
structure Shares where
  phases : Nat
  threads : Nat → Nat
  jobs : Nat → Nat → List Job

def Shares.all (S : Shares) : List Job :=
  (List.range S.phases).flatMap fun p => (List.range (S.threads p)).flatMap fun t => S.jobs p t

/-- Every node of every chunk below `bc` is the job of some thread; of one chunk, the jobs of a phase that different
threads have are at different nodes of one level, and later phases have higher levels. -/
structure Shares.Covers (S : Shares) (level : Nat → Nat) (count bc : Nat) : Prop where
  own : ∀ p t, ∀ j ∈ S.jobs p t, j.thread = t ∧ j.chunk < bc ∧ j.id < count
  cover : ∀ w < bc, ∀ id < count, ∃ p < S.phases, ∃ t < S.threads p, ∃ j ∈ S.jobs p t, j.chunk = w ∧ j.id = id
  inner : ∀ p t, InOrder level (S.jobs p t)
  cross : ∀ p t u, t ≠ u → ∀ i ∈ S.jobs p t, ∀ j ∈ S.jobs p u, i.chunk = j.chunk → level i.id = level j.id ∧ i.id ≠ j.id
  later : ∀ p q t u, p < q → ∀ i ∈ S.jobs p t, ∀ j ∈ S.jobs q u, i.chunk = j.chunk → level i.id < level j.id

section Shares
variable {H : PoseHash α} {T : Topo α} {Λ : Layout} {m bc count : Nat} {E : EdgeList} {level lastUse : Nat → Nat} {S : Shares}

theorem Shares.mem_all {j : Job} : j ∈ S.all ↔ ∃ p < S.phases, ∃ t < S.threads p, j ∈ S.jobs p t := by
  simp only [Shares.all, List.mem_flatMap, List.mem_range]

theorem Shares.Covers.inOrder (hS : S.Covers level count bc) : InOrder level S.all := by
  unfold InOrder Shares.all
  rw [List.pairwise_flatMap]
  constructor
  · intro p _
    rw [List.pairwise_flatMap]
    refine ⟨fun t _ => hS.inner p t, List.nodup_range.imp fun hne i hi j hj hchunk => ?_⟩
    obtain ⟨h1, h2⟩ := hS.cross p _ _ hne i hi j hj hchunk
    exact ⟨Nat.le_of_eq h1, h2⟩
  · refine List.pairwise_lt_range.imp fun hlt i hi j hj hchunk => ?_
    obtain ⟨t, -, hi⟩ := List.mem_flatMap.mp hi
    obtain ⟨u, -, hj⟩ := List.mem_flatMap.mp hj
    have hlevel := hS.later _ _ t u hlt i hi j hj hchunk
    exact ⟨Nat.le_of_lt hlevel, fun h => by rw [h] at hlevel; exact Nat.lt_irrefl _ hlevel⟩

theorem Shares.Covers.preds_before (hS : S.Covers level count bc) {preds : Nat → List Nat}
    (hlt : ∀ id < count, ∀ p ∈ preds id, p < count ∧ level p < level id) :
    ∀ Y j Z, S.all = Y ++ j :: Z → ∀ p ∈ preds j.id, ∃ i ∈ Y, i.chunk = j.chunk ∧ i.id = p := by
  intro Y j Z heq p hp
  have hmem : j ∈ S.all := by rw [heq]; exact List.mem_append_right Y List.mem_cons_self
  obtain ⟨q, -, t, -, hj⟩ := Shares.mem_all.mp hmem
  obtain ⟨-, hchunk, hid⟩ := hS.own q t j hj
  obtain ⟨hpc, hlevel⟩ := hlt j.id hid p hp
  obtain ⟨q', hq', t', ht', i, hi, hic, hip⟩ := hS.cover j.chunk hchunk p hpc
  have hi' : i ∈ Y ++ j :: Z := heq ▸ Shares.mem_all.mpr ⟨q', hq', t', ht', hi⟩
  have horder := hS.inOrder
  unfold InOrder at horder
  rw [heq, List.pairwise_append, List.pairwise_cons] at horder
  rcases List.mem_append.mp hi' with h | h
  · exact ⟨i, h, hic, hip⟩
  · rcases List.mem_cons.mp h with rfl | h
    · rw [hip] at hlevel
      exact absurd hlevel (Nat.lt_irrefl _)
    · have := (horder.2.1.1 i h hic.symm).1
      rw [hip] at this
      omega

/-- A kernel whose threads have these jobs. -/
structure Makes (k : Kernel Cell α) (S : Shares) (H : PoseHash α) (T : Topo α) (Λ : Layout) : Prop where
  phases : S.phases = k.barriers + 1
  threads : ∀ p, S.threads p = k.threads
  body : ∀ t < k.threads, ∀ p ≤ k.barriers, k.body t p = (S.jobs p t).flatMap (nodeStep H T Λ)
  team : ∀ t p q u, ∀ i ∈ S.jobs p t, ∀ j ∈ S.jobs q u, i.chunk = j.chunk → k.team t = k.team u

variable {k : Kernel Cell α}

theorem Makes.serial (hk : Makes k S H T Λ) : k.serial = S.all.flatMap (nodeStep H T Λ) := by
  unfold Kernel.serial Shares.all
  rw [hk.phases, List.flatMap_assoc]
  apply List.flatMap_congr
  intro p hp
  rw [List.flatMap_assoc, hk.threads]
  apply List.flatMap_congr
  intro t ht
  exact hk.body t (List.mem_range.mp ht) p (Nat.le_of_lt_succ (List.mem_range.mp hp))

theorem Makes.raceFree (hrec : RecordsScaffold m E) (hT : T.Describes m E level) (hΛ : Λ.Fits m E level lastUse)
    (hk : Makes k S H T Λ) (hS : S.Covers level E.count bc) : k.RaceFree := by
  intro t ht u hu hne p hp q hq hteam a ha b hb
  rw [hk.body t ht p hp] at ha
  rw [hk.body u hu q hq] at hb
  obtain ⟨i, hi, ha⟩ := List.mem_flatMap.mp ha
  obtain ⟨j, hj, hb⟩ := List.mem_flatMap.mp hb
  obtain ⟨hti, -, hi'⟩ := hS.own p t i hi
  obtain ⟨htj, -, hj'⟩ := hS.own q u j hj
  refine nodeStep_apart hrec hT hΛ (by rw [hti, htj]; exact hne) hi' hj' (fun hchunk => ?_) a ha b hb
  obtain rfl := hteam (hk.team t p q u i hi j hj hchunk)
  exact hS.cross p t u hne i hi j hj hchunk

/-- **What a covering run of jobs leaves**: every output of the batch, and in a layout that gives every node its own
place the whole scaffold. -/
theorem Shares.Covers.run (hrec : RecordsScaffold m E) (hT : T.Describes m E level) (hΛ : Λ.Fits m E level lastUse)
    (hS : S.Covers level E.count bc) (mem : Cell → α) :
    let mem' := runJobs H T Λ S.all mem
    (∀ w < bc, ∀ id < E.count, 0 ≤ Λ.rank id → mem' (Λ.output T w id) = labelOf H T E mem w id) ∧
    (∀ w < bc, ∀ id < E.count, (∀ id' < E.count, level id' ≤ lastUse id) →
      mem' (Λ.place w id) = labelOf H T E mem w id) ∧
    (∀ w, mem' (.seed w) = mem (.seed w)) ∧
    ∀ b, (∀ w < bc, ∀ id < E.count, 0 ≤ Λ.rank id → .persist b ≠ Λ.output T w id) → mem' (.persist b) = mem (.persist b) := by
  have hown : ∀ j ∈ S.all, j.chunk < bc ∧ j.id < E.count := fun j hj => by
    obtain ⟨p, -, t, -, hj⟩ := Shares.mem_all.mp hj
    exact (hS.own p t j hj).2
  obtain ⟨hplace, hout, hseed, hframe⟩ := run_jobs (H := H) hrec hT hΛ (fun j hj => (hown j hj).2) hS.inOrder
    (hS.preds_before fun id hid p hp => ⟨((hrec.descends id hid).2 p hp).trans hid,
      hT.levelling.lt hrec.descends hid hp⟩) mem
  have hcover : ∀ w < bc, ∀ id < E.count, ∃ j ∈ S.all, j.chunk = w ∧ j.id = id := fun w hw id hid => by
    obtain ⟨p, hp, t, ht, j, hj, heq⟩ := hS.cover w hw id hid
    exact ⟨j, Shares.mem_all.mpr ⟨p, hp, t, ht, hj⟩, heq⟩
  refine ⟨fun w hw id hid hr => ?_, fun w hw id hid hlast => ?_, hseed, fun b hb => ?_⟩
  · obtain ⟨j, hj, rfl, rfl⟩ := hcover w hw id hid
    exact hout j hj hr
  · obtain ⟨j, hj, rfl, rfl⟩ := hcover w hw id hid
    exact hplace j hj _ le_rfl fun i hi _ => hlast i.id (hown i hi).2
  · exact hframe b fun j hj hr => hb j.chunk (hown j hj).1 j.id (hown j hj).2 hr

end Shares

end PoseDB.Cuda
