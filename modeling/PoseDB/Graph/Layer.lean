import PoseDB.Graph.EmitCore

/-!
# One layer

A layer of `w` nodes, sequential or batched, emits the next `w` ids and writes them to `dst`: it reaches
`layerState`. The batched path reads the predecessor labels of a batch before it stores any of its labels, so it
needs what the sequential path does not: that every predecessor of the layer lies below the layer's first id.
-/

set_option autoImplicit false

namespace PoseDB.Graph
open Loops Mem

variable {α : Type}

def Emitter.withCore (e : Emitter α) (k : EmitCore α) : Emitter α :=
  { e with nextId := k.nextId, labels := k.labels, nodes := k.nodes, seed := k.seed, desc := k.desc,
           algo := k.algo, emitted := k.emitted, hashed := k.hashed }

@[simp] theorem Emitter.core_withCore (e : Emitter α) (k : EmitCore α) : (e.withCore k).core = k := rfl

theorem Emitter.eq_of_core {e e' : Emitter α} (hcore : e.core = e'.core) (hmem : e.mem = e'.mem)
    (harena : e.arena = e'.arena) (hcap : e.arenaCap = e'.arenaCap) (hoff : e.arenaOff = e'.arenaOff)
    (hhi : e.arenaHi = e'.arenaHi) : e = e' := by
  cases e; cases e'
  simp only [Emitter.core, EmitCore.mk.injEq] at hcore hmem harena hcap hoff hhi
  simp only [hcore, hmem, harena, hcap, hoff, hhi]

variable {H : PoseHash α}

theorem emit1_eq (e : Emitter α) (p : Nat) : (emit1 H e p).2 = e.withCore (e.core.emit H [p]) := rfl

theorem emit2_eq (e : Emitter α) (p q : Nat) :
    (emit2 H e p q).2 = e.withCore (e.core.emit H (sorted2 p q)) := by
  rw [← emit2_core]
  by_cases h : p > q
  · simp only [emit2, if_pos h]; rfl
  · simp only [emit2, if_neg h]; rfl

variable (H) in
/-- `e` after a layer of `c` nodes with the predecessors of `P`, written to `dst`. -/
def layerState (P : Nat → List Nat) (dst c : Nat) (e : Emitter α) : Emitter α :=
  { e.withCore (e.core.run H P c) with mem := store e.mem dst c fun i => e.nextId + i }

variable {P : Nat → List Nat} {dst : Nat} {e : Emitter α}

@[simp] theorem layerState_core (c : Nat) : (layerState H P dst c e).core = e.core.run H P c := rfl

@[simp] theorem layerState_nextId (c : Nat) : (layerState H P dst c e).nextId = e.nextId + c :=
  EmitCore.run_nextId c

@[simp] theorem layerState_mem (c : Nat) :
    (layerState H P dst c e).mem = store e.mem dst c fun i => e.nextId + i := rfl

theorem layerState_zero : layerState H P dst 0 e = e := by
  simp only [layerState, store_zero]; rfl

theorem layerState_succ (c : Nat) :
    layerState H P dst (c + 1) e =
      { (layerState H P dst c e).withCore ((layerState H P dst c e).core.emit H (P (e.nextId + c))) with
        mem := Function.update (layerState H P dst c e).mem (dst + c) (e.nextId + c) } := by
  simp only [layerState, update_store, EmitCore.run_succ, EmitCore.run_nextId]
  rfl

/-! ## The sequential path -/

theorem edgeLayer1_eq {w src : Nat} (hP : ∀ i < w, P (e.nextId + i) = [e.mem (src + i)])
    (hsep : ∀ i < w, src + i < dst ∨ dst + w ≤ src + i) :
    edgeLayer1 H w src dst e = layerState H P dst w e := by
  refine loop_inv (fun c t => t = layerState H P dst c e) layerState_zero.symm ?_
  rintro c _ hc rfl
  have hread : (layerState H P dst c e).mem (src + c) = e.mem (src + c) := by
    rw [layerState_mem, store_out _ _ _ _ (by have := hsep c hc; omega)]
  simp only [emit1_fst, emit1_eq, hread, ← hP c hc, layerState_succ, layerState_nextId]
  rfl

theorem edgeLayer2_eq {w : Nat} {a0 a1 : Nat → Nat}
    (hP : ∀ i < w, P (e.nextId + i) = sorted2 (e.mem (a0 i)) (e.mem (a1 i)))
    (hsep0 : ∀ i < w, a0 i < dst ∨ dst + w ≤ a0 i) (hsep1 : ∀ i < w, a1 i < dst ∨ dst + w ≤ a1 i) :
    edgeLayer2 H w a0 a1 dst e = layerState H P dst w e := by
  refine loop_inv (fun c t => t = layerState H P dst c e) layerState_zero.symm ?_
  rintro c _ hc rfl
  have hread0 : (layerState H P dst c e).mem (a0 c) = e.mem (a0 c) := by
    rw [layerState_mem, store_out _ _ _ _ (by have := hsep0 c hc; omega)]
  have hread1 : (layerState H P dst c e).mem (a1 c) = e.mem (a1 c) := by
    rw [layerState_mem, store_out _ _ _ _ (by have := hsep1 c hc; omega)]
  simp only [emit2_fst, emit2_eq, hread0, hread1, ← hP c hc, layerState_succ, layerState_nextId]
  rfl

/-! ## The batched path -/

/-- A run of `b` nodes whose predecessors lie below its first id, in labeling mode: all labels are derived from the
buffer as it was on entry. -/
theorem EmitCore.run_batch {k : EmitCore α} {L : Nat → α} (hL : k.labels = some L) (hN : k.nodes = none) (b : Nat)
    (hP : ∀ j < b, ∀ p ∈ P (k.nextId + j), p < k.nextId) :
    k.run H P b =
      { k with
        nextId := k.nextId + b
        labels := some (store L k.nextId b fun j => k.label H (nodeCall L (k.nextId + j) (P (k.nextId + j))))
        emitted := k.emitted ++ List.range' k.nextId b
        hashed := k.hashed ++ (List.range b).map fun j => nodeCall L (k.nextId + j) (P (k.nextId + j)) } := by
  induction b with
  | zero => simp [← hL]
  | succ b ih =>
    rw [EmitCore.run_succ, ih fun j hj => hP j (Nat.lt_succ_of_lt hj)]
    have hcall : nodeCall (store L k.nextId b fun j => k.label H (nodeCall L (k.nextId + j) (P (k.nextId + j))))
        (k.nextId + b) (P (k.nextId + b)) = nodeCall L (k.nextId + b) (P (k.nextId + b)) :=
      nodeCall_congr fun p hp => store_out _ _ _ _ (Or.inl (hP b (Nat.lt_succ_self b) p hp))
    simp only [EmitCore.emit, Option.map_some, Option.toList_some, hcall, hN, Option.map_none,
      List.range'_concat, Nat.one_mul, List.append_assoc, List.range_succ, List.map_append, List.map_cons,
      List.map_nil, Nat.add_assoc, ← update_store]
    rfl

/-- The emitter in the inner loop of a batch, after `j` entries. -/
def batchState (dst j : Nat) (e : Emitter α) : Emitter α :=
  { e with
    nextId := e.nextId + j
    emitted := e.emitted ++ List.range' e.nextId j
    mem := store e.mem dst j fun x => e.nextId + x }

theorem batchState_zero : batchState dst 0 e = e := by simp [batchState]

theorem batchState_succ (j : Nat) :
    { (batchState dst j e).takeId.2 with
      mem := Function.update (batchState dst j e).takeId.2.mem (dst + j) (e.nextId + j) } =
        batchState dst (j + 1) e := by
  simp only [batchState, Emitter.takeId, ← update_store, List.range'_concat, Nat.one_mul, List.append_assoc,
    Nat.add_assoc]

theorem batchState_mem_out {j a : Nat} (ha : a < dst ∨ dst + j ≤ a) : (batchState dst j e).mem a = e.mem a :=
  store_out _ _ _ _ ha

/-- A batch reaches the state of a layer when its arrays hold the ids and the predecessors of the table. -/
theorem labelNodeMany_eq {L : Nat → α} {b : Nat} {ids pred0s : Nat → Nat} {pred1s : Option (Nat → Nat)}
    (hL : e.labels = some L) (hN : e.nodes = none)
    (hcalls : ∀ x < b, batchCall false ids (some fun j => some (L (pred0s j)))
      (pred1s.map fun ps j => some (L (ps j))) x = nodeCall L (e.nextId + x) (P (e.nextId + x)))
    (hP : ∀ x < b, ∀ p ∈ P (e.nextId + x), p < e.nextId) :
    (batchState dst b e).labelNodeMany H b ids pred0s pred1s e.nextId = layerState H P dst b e := by
  have hrun := EmitCore.run_batch (H := H) (k := e.core) hL hN b hP
  have hlist : (List.range b).map (batchCall false ids (some fun j => some (L (pred0s j)))
      (pred1s.map fun ps j => some (L (ps j)))) =
        (List.range b).map fun x => nodeCall L (e.nextId + x) (P (e.nextId + x)) :=
    List.map_congr_left fun x hx => hcalls x (List.mem_range.mp hx)
  have hstore : store L e.nextId b (poseLabelNodeMany H false ids (some fun j => some (L (pred0s j)))
      (pred1s.map fun ps j => some (L (ps j))) e.seed e.desc e.algo) =
        store L e.nextId b fun x => e.core.label H (nodeCall L (e.nextId + x) (P (e.nextId + x))) :=
    store_congr _ _ _ fun x hx => by rw [poseLabelNodeMany, hcalls x hx]; rfl
  rw [layerState, hrun]
  simp only [batchState, Emitter.labelNodeMany, hL, Option.map_some, Option.getD_some, hlist, hstore]
  rfl

/-- The compare-and-swap of `emit2`. -/
theorem swap_eq (p q : Nat) : (if p > q then (q, p) else (p, q)) = (min p q, max p q) := by
  by_cases h : p > q
  · rw [if_pos h, Nat.min_eq_right (Nat.le_of_lt h), Nat.max_eq_left (Nat.le_of_lt h)]
  · rw [if_neg h, Nat.min_eq_left (Nat.not_lt.mp h), Nat.max_eq_right (Nat.not_lt.mp h)]

/-- One entry: the predecessor is read above or below the cells written so far. -/
theorem entry1_eq {src i j : Nat} {t : Batch α} (ht : t.e = batchState (dst + i) j e)
    (hsep : src + (i + j) < dst + i ∨ dst + i + (j + 1) ≤ src + (i + j)) :
    Batch.entry1 src dst i j t =
      { t with
        ids := Function.update t.ids j (e.nextId + j)
        pred0s := Function.update t.pred0s j (e.mem (src + (i + j)))
        e := batchState (dst + i) (j + 1) e } := by
  rw [← batchState_mem_out (e := e) hsep, ← batchState_succ, Batch.entry1, ht, Nat.add_assoc dst i j]
  rfl

theorem entry2_eq {a0 a1 : Nat → Nat} {i j : Nat} {t : Batch α} (ht : t.e = batchState (dst + i) j e)
    (hsep0 : a0 (i + j) < dst + i ∨ dst + i + (j + 1) ≤ a0 (i + j))
    (hsep1 : a1 (i + j) < dst + i ∨ dst + i + (j + 1) ≤ a1 (i + j)) :
    Batch.entry2 a0 a1 dst i j t =
      { ids := Function.update t.ids j (e.nextId + j)
        pred0s := Function.update t.pred0s j (min (e.mem (a0 (i + j))) (e.mem (a1 (i + j))))
        pred1s := Function.update t.pred1s j (max (e.mem (a0 (i + j))) (e.mem (a1 (i + j))))
        e := batchState (dst + i) (j + 1) e } := by
  rw [← batchState_mem_out (e := e) hsep0, ← batchState_mem_out (e := e) hsep1, ← batchState_succ, Batch.entry2, ht,
    Nat.add_assoc dst i j]
  simp only [swap_eq]
  rfl

theorem labelBatch1_eq {L : Nat → α} {src i b : Nat} (hL : e.labels = some L) (hN : e.nodes = none)
    (hP : ∀ j < b, P (e.nextId + j) = [e.mem (src + (i + j))])
    (hlt : ∀ j < b, e.mem (src + (i + j)) < e.nextId)
    (hsep : ∀ j < b, src + (i + j) < dst + i ∨ dst + i + b ≤ src + (i + j)) :
    labelBatch1 H src dst i b e = layerState H P (dst + i) b e := by
  have hfill : (∀ x < b, (loop b (Batch.entry1 src dst i) (Batch.init e)).ids x = e.nextId + x) ∧
      (∀ x < b, (loop b (Batch.entry1 src dst i) (Batch.init e)).pred0s x = e.mem (src + (i + x))) ∧
      (loop b (Batch.entry1 src dst i) (Batch.init e)).e = batchState (dst + i) b e := by
    refine loop_inv (fun j (t : Batch α) => (∀ x < j, t.ids x = e.nextId + x) ∧
      (∀ x < j, t.pred0s x = e.mem (src + (i + x))) ∧ t.e = batchState (dst + i) j e)
      ⟨fun _ hx => absurd hx (Nat.not_lt_zero _), fun _ hx => absurd hx (Nat.not_lt_zero _),
        batchState_zero.symm⟩ ?_
    rintro j t hj ⟨hids, hpred, he⟩
    rw [entry1_eq he (by have := hsep j hj; omega)]
    exact ⟨fill_step (v := fun x => e.nextId + x) hids,
      fill_step (v := fun x => e.mem (src + (i + x))) hpred, rfl⟩
  obtain ⟨hids, hpred, he⟩ := hfill
  simp only [labelBatch1, he]
  refine labelNodeMany_eq hL hN (fun x hx => ?_) fun x hx p hp => ?_
  · simp only [batchCall, Option.bind_some, Option.map_none, Option.bind_none, hids x hx, hP x hx, hpred x hx]
    rfl
  · rw [hP x hx, List.mem_singleton] at hp
    exact hp ▸ hlt x hx

theorem labelBatch2_eq {L : Nat → α} {a0 a1 : Nat → Nat} {i b : Nat} (hL : e.labels = some L)
    (hN : e.nodes = none) (hP : ∀ j < b, P (e.nextId + j) = sorted2 (e.mem (a0 (i + j))) (e.mem (a1 (i + j))))
    (hlt0 : ∀ j < b, e.mem (a0 (i + j)) < e.nextId) (hlt1 : ∀ j < b, e.mem (a1 (i + j)) < e.nextId)
    (hsep0 : ∀ j < b, a0 (i + j) < dst + i ∨ dst + i + b ≤ a0 (i + j))
    (hsep1 : ∀ j < b, a1 (i + j) < dst + i ∨ dst + i + b ≤ a1 (i + j)) :
    labelBatch2 H a0 a1 dst i b e = layerState H P (dst + i) b e := by
  have hfill : (∀ x < b, (loop b (Batch.entry2 a0 a1 dst i) (Batch.init e)).ids x = e.nextId + x) ∧
      (∀ x < b, (loop b (Batch.entry2 a0 a1 dst i) (Batch.init e)).pred0s x =
        min (e.mem (a0 (i + x))) (e.mem (a1 (i + x)))) ∧
      (∀ x < b, (loop b (Batch.entry2 a0 a1 dst i) (Batch.init e)).pred1s x =
        max (e.mem (a0 (i + x))) (e.mem (a1 (i + x)))) ∧
      (loop b (Batch.entry2 a0 a1 dst i) (Batch.init e)).e = batchState (dst + i) b e := by
    refine loop_inv (fun j (t : Batch α) => (∀ x < j, t.ids x = e.nextId + x) ∧
      (∀ x < j, t.pred0s x = min (e.mem (a0 (i + x))) (e.mem (a1 (i + x)))) ∧
      (∀ x < j, t.pred1s x = max (e.mem (a0 (i + x))) (e.mem (a1 (i + x)))) ∧ t.e = batchState (dst + i) j e)
      ⟨fun _ hx => absurd hx (Nat.not_lt_zero _), fun _ hx => absurd hx (Nat.not_lt_zero _),
        fun _ hx => absurd hx (Nat.not_lt_zero _), batchState_zero.symm⟩ ?_
    rintro j t hj ⟨hids, hpred0, hpred1, he⟩
    rw [entry2_eq he (by have := hsep0 j hj; omega) (by have := hsep1 j hj; omega)]
    exact ⟨fill_step (v := fun x => e.nextId + x) hids,
      fill_step (v := fun x => min (e.mem (a0 (i + x))) (e.mem (a1 (i + x)))) hpred0,
      fill_step (v := fun x => max (e.mem (a0 (i + x))) (e.mem (a1 (i + x)))) hpred1, rfl⟩
  obtain ⟨hids, hpred0, hpred1, he⟩ := hfill
  simp only [labelBatch2, he]
  refine labelNodeMany_eq hL hN (fun x hx => ?_) fun x hx p hp => ?_
  · simp only [batchCall, Option.bind_some, Option.map_some, hids x hx, hP x hx, hpred0 x hx, hpred1 x hx]
    rfl
  · have h0 := hlt0 x hx
    have h1 := hlt1 x hx
    rw [hP x hx, sorted2, List.mem_cons, List.mem_singleton] at hp
    omega

theorem layerState_add (i b : Nat) :
    layerState H P (dst + i) b (layerState H P dst i e) = layerState H P dst (i + b) e := by
  refine Emitter.eq_of_core ?_ ?_ rfl rfl rfl rfl
  · simp only [layerState_core, EmitCore.run_add]
  · simp only [layerState_mem, layerState_nextId, ← store_store, Nat.add_assoc]

theorem layerState_labels {L : Nat → α} (hL : e.labels = some L) (hN : e.nodes = none) (dst c : Nat) :
    (∃ L', (layerState H P dst c e).labels = some L') ∧ (layerState H P dst c e).nodes = none :=
  ⟨EmitCore.run_labels_some hL c, EmitCore.run_nodes_none hN c⟩

theorem labelLayer1_eq {L : Nat → α} {w src : Nat} (hL : e.labels = some L) (hN : e.nodes = none)
    (hP : ∀ i < w, P (e.nextId + i) = [e.mem (src + i)]) (hlt : ∀ i < w, e.mem (src + i) < e.nextId)
    (hsep : ∀ i < w, src + i < dst ∨ dst + w ≤ src + i) :
    labelLayer1 H w src dst e = layerState H P dst w e := by
  refine batchLoop_inv (by decide) (fun i t => t = layerState H P dst i e) ?_ (Nat.zero_le w) layerState_zero.symm
  rintro i b _ hib hb hcap rfl
  obtain ⟨⟨L', hL'⟩, hN'⟩ := layerState_labels (H := H) (P := P) hL hN dst i
  have hmem : ∀ j < b, (layerState H P dst i e).mem (src + (i + j)) = e.mem (src + (i + j)) := fun j hj => by
    have := hsep (i + j) (by omega)
    rw [layerState_mem, store_out _ _ _ _ (by omega)]
  rw [labelBatch1_eq hL' hN', layerState_add]
  · intro j hj
    rw [hmem j hj, layerState_nextId, Nat.add_assoc, hP (i + j) (by omega)]
  · intro j hj
    have := hlt (i + j) (by omega)
    rw [hmem j hj, layerState_nextId]; omega
  · intro j hj
    have := hsep (i + j) (by omega)
    omega

theorem labelLayer2_eq {L : Nat → α} {w : Nat} {a0 a1 : Nat → Nat} (hL : e.labels = some L) (hN : e.nodes = none)
    (hP : ∀ i < w, P (e.nextId + i) = sorted2 (e.mem (a0 i)) (e.mem (a1 i)))
    (hlt0 : ∀ i < w, e.mem (a0 i) < e.nextId) (hlt1 : ∀ i < w, e.mem (a1 i) < e.nextId)
    (hsep0 : ∀ i < w, a0 i < dst ∨ dst + w ≤ a0 i) (hsep1 : ∀ i < w, a1 i < dst ∨ dst + w ≤ a1 i) :
    labelLayer2 H w a0 a1 dst e = layerState H P dst w e := by
  refine batchLoop_inv (by decide) (fun i t => t = layerState H P dst i e) ?_ (Nat.zero_le w) layerState_zero.symm
  rintro i b _ hib hb hcap rfl
  obtain ⟨⟨L', hL'⟩, hN'⟩ := layerState_labels (H := H) (P := P) hL hN dst i
  have hmem : ∀ a, a < dst ∨ dst + w ≤ a → (layerState H P dst i e).mem a = e.mem a := fun a ha => by
    rw [layerState_mem, store_out _ _ _ _ (by omega)]
  have hmem0 := fun j (hj : j < b) => hmem _ (hsep0 (i + j) (by omega))
  have hmem1 := fun j (hj : j < b) => hmem _ (hsep1 (i + j) (by omega))
  rw [labelBatch2_eq hL' hN', layerState_add]
  · intro j hj
    rw [hmem0 j hj, hmem1 j hj, layerState_nextId, Nat.add_assoc, hP (i + j) (by omega)]
  · intro j hj
    have := hlt0 (i + j) (by omega)
    rw [hmem0 j hj, layerState_nextId]; omega
  · intro j hj
    have := hlt1 (i + j) (by omega)
    rw [hmem1 j hj, layerState_nextId]; omega
  · intro j hj
    have := hsep0 (i + j) (by omega)
    omega
  · intro j hj
    have := hsep1 (i + j) (by omega)
    omega

end PoseDB.Graph
