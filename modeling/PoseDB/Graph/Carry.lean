import PoseDB.Graph.Inplace

/-!
# The two emitters agree

The label-carrying emitter follows every table whose final labels are known: with `val = L` for a buffer `L` labeled by
the table, every cell of node `id` holds `L id` (`lcFollows`). That the order of the predecessors is the sorted one is
`sorted2_flip` (of a butterfly pair the index with the bit cleared has the smaller id) and `Scheme.Follows.merge_spec`
(primary inputs are older). With `L` the buffer of `do_label` this is the agreement of the two labelings.
-/

set_option autoImplicit false

namespace PoseDB.Graph
open Loops Mem

/-! ## The pair of a butterfly node -/

theorem xor_two_pow_cases (i b : Nat) :
    (i.testBit b = true ∧ i ^^^ 2 ^ b = i.ldiff (2 ^ b) ∧ i ||| 2 ^ b = i ∧ i.ldiff (2 ^ b) < i) ∨
      (i.testBit b = false ∧ i ^^^ 2 ^ b = i ||| 2 ^ b ∧ i.ldiff (2 ^ b) = i ∧ i < i ||| 2 ^ b) := by
  cases hb : i.testBit b with
  | true =>
    refine Or.inl ⟨rfl, ?_, ?_, ?_⟩
    · refine Nat.eq_of_testBit_eq fun j => ?_
      rw [Nat.testBit_xor, Nat.testBit_ldiff, Nat.testBit_two_pow]
      by_cases hj : b = j
      · subst hj; simp [hb]
      · simp [hj]
    · refine Nat.eq_of_testBit_eq fun j => ?_
      rw [Nat.testBit_or, Nat.testBit_two_pow]
      by_cases hj : b = j
      · subst hj; simp [hb]
      · simp [hj]
    · refine Nat.lt_of_testBit b ?_ hb fun j hj => ?_
      · rw [Nat.testBit_ldiff, Nat.testBit_two_pow]; simp
      · rw [Nat.testBit_ldiff, Nat.testBit_two_pow]; simp [hj.ne]
  | false =>
    refine Or.inr ⟨rfl, ?_, ?_, ?_⟩
    · refine Nat.eq_of_testBit_eq fun j => ?_
      rw [Nat.testBit_xor, Nat.testBit_or, Nat.testBit_two_pow]
      by_cases hj : b = j
      · subst hj; simp [hb]
      · simp [hj]
    · refine Nat.eq_of_testBit_eq fun j => ?_
      rw [Nat.testBit_ldiff, Nat.testBit_two_pow]
      by_cases hj : b = j
      · subst hj; simp [hb]
      · simp [hj]
    · refine Nat.lt_of_testBit b hb ?_ fun j hj => ?_
      · rw [Nat.testBit_or, Nat.testBit_two_pow]; simp
      · rw [Nat.testBit_or, Nat.testBit_two_pow]; simp [hj.ne]

/-- Ids ascend with the index, so the canonical order of a pair is `idx & ~bit`, `idx | bit`. -/
theorem sorted2_flip (dim t l i b : Nat) :
    sorted2 (cell dim t l i) (cell dim t l (i ^^^ 2 ^ b)) =
      [cell dim t l (i.ldiff (2 ^ b)), cell dim t l (i ||| 2 ^ b)] := by
  rcases xor_two_pow_cases i b with ⟨-, hx, ho, hlt⟩ | ⟨-, hx, hl, hlt⟩
  · rw [hx, ho, sorted2, Nat.min_eq_right, Nat.max_eq_left] <;> · rw [cell, cell]; omega
  · rw [hx, hl, sorted2, Nat.min_eq_left, Nat.max_eq_right] <;> · rw [cell, cell]; omega

theorem sorted2_flipBit (dim t l i : Nat) :
    sorted2 (cell dim t l i) (cell dim t l (i ^^^ flipBit dim (l + 1))) =
      [cell dim t l (i.ldiff (flipBit dim (l + 1))), cell dim t l (i ||| flipBit dim (l + 1))] :=
  sorted2_flip dim t l i _

theorem ldiff_lt {dim l i : Nat} (hi : i < 2 ^ dim) : i.ldiff (flipBit dim (l + 1)) < 2 ^ dim := by
  rw [flipBit]
  rcases xor_two_pow_cases i (dim - (l + 1)) with ⟨-, -, -, h⟩ | ⟨-, -, h, -⟩ <;> omega

theorem or_flipBit_lt {dim l i : Nat} (hl : l < dim) (hi : i < 2 ^ dim) : i ||| flipBit dim (l + 1) < 2 ^ dim :=
  Nat.or_lt_two_pow hi (flipBit_lt hl)

variable {α : Type} {H : PoseHash α}

/-! ## One layer -/

/-- `e` after a layer of `c` nodes of the table `G`, their labels `L` written to `dst`. -/
def lcState (L : Nat → α) (G : Nat → List Nat) (dst c : Nat) (e : LEmitter α) : LEmitter α :=
  { e with
    nextId := e.nextId + c
    mem := store e.mem dst c fun i => L (e.nextId + i)
    hashed := e.hashed ++ (List.range' e.nextId c).map fun id => nodeCall L id (G id) }

section Layer
variable {L : Nat → α} {G : Nat → List Nat} {dst w : Nat} {a0 : Nat → Nat} {a1 : Option (Nat → Nat)} {e : LEmitter α}

theorem lcState_zero : lcState L G dst 0 e = e := by simp [lcState]

theorem lcState_add (i b : Nat) : lcState L G (dst + i) b (lcState L G dst i e) = lcState L G dst (i + b) e := by
  simp only [lcState, ← store_store, Nat.add_assoc, List.append_assoc, LEmitter.mk.injEq, true_and]
  rw [← List.map_append, List.range'_append_1]

theorem lcBatch_fill (a0 : Nat → Nat) (a1 : Option (Nat → Nat)) (i b : Nat) (e : LEmitter α) :
    let t := loop b (LBatch.entry a0 a1 i) (LBatch.init e)
    (∀ x < b, t.ids x = e.nextId + x) ∧ (∀ x < b, t.pred0s x = a0 (i + x)) ∧
      (∀ a, a1 = some a → ∀ x < b, t.pred1s x = a (i + x)) ∧ t.e = { e with nextId := e.nextId + b } := by
  refine loop_inv (fun j (t : LBatch α) => (∀ x < j, t.ids x = e.nextId + x) ∧ (∀ x < j, t.pred0s x = a0 (i + x)) ∧
    (∀ a, a1 = some a → ∀ x < j, t.pred1s x = a (i + x)) ∧ t.e = { e with nextId := e.nextId + j })
    ⟨fun _ hx => absurd hx (Nat.not_lt_zero _), fun _ hx => absurd hx (Nat.not_lt_zero _),
      fun _ _ _ hx => absurd hx (Nat.not_lt_zero _), rfl⟩ ?_
  rintro j t _ ⟨hids, hpred0, hpred1, he⟩
  refine ⟨?_, fill_step (v := fun x => a0 (i + x)) hpred0, fun a ha => ?_, ?_⟩
  · have hid : t.e.nextId = e.nextId + j := by rw [he]
    show ∀ x < j + 1, Function.update t.ids j t.e.nextId x = _
    rw [hid]
    exact fill_step (v := fun x => e.nextId + x) hids
  · subst ha
    exact fill_step (v := fun x => a (i + x)) (hpred1 a rfl)
  · show ({ t.e with nextId := t.e.nextId + 1 } : LEmitter α) = _
    rw [he]
    rfl

/-- What a layer of nodes of `G` reads: for every index the labels of the predecessors, in their order. -/
def Reads (L : Nat → α) (G : Nat → List Nat) (w : Nat) (a0 : Nat → Nat) (a1 : Option (Nat → Nat)) (e : LEmitter α) :
    Prop :=
  ∀ i < w, nodeCall L (e.nextId + i) (G (e.nextId + i)) =
    ⟨false, e.nextId + i, some (e.mem (a0 i)), a1.map fun a1 => e.mem (a1 i)⟩

theorem lcBatch_eq {i b : Nat}
    (hread : ∀ j < b, nodeCall L (e.nextId + j) (G (e.nextId + j)) =
      ⟨false, e.nextId + j, some (e.mem (a0 (i + j))), a1.map fun a1 => e.mem (a1 (i + j))⟩)
    (hL : LabeledBy (H.label e.seed e.desc e.algo) G e.nextId (e.nextId + b) L) :
    lcBatch H a0 a1 dst i b e = lcState L G (dst + i) b e := by
  obtain ⟨hids, hpred0, hpred1, he⟩ := lcBatch_fill a0 a1 i b e
  revert hids hpred0 hpred1 he
  simp only [lcBatch]
  generalize loop b (LBatch.entry a0 a1 i) (LBatch.init e) = t
  intro hids hpred0 hpred1 he
  have hcall : ∀ x < b, batchCall false t.ids (some fun j => some (e.mem (t.pred0s j)))
      ((a1.map fun _ => t.pred1s).map fun ps j => some (e.mem (ps j))) x =
        nodeCall L (e.nextId + x) (G (e.nextId + x)) := fun x hx => by
    rw [hread x hx]
    simp only [batchCall, hids x hx, Option.bind_some, hpred0 x hx]
    cases ha : a1 with
    | none => rfl
    | some a => simp only [Option.map_some, Option.bind_some, hpred1 a ha x hx]
  have hlist : (List.range b).map (batchCall false t.ids (some fun j => some (e.mem (t.pred0s j)))
      ((a1.map fun _ => t.pred1s).map fun ps j => some (e.mem (ps j)))) =
        (List.range' e.nextId b).map fun id => nodeCall L id (G id) := by
    rw [List.range'_eq_map_range, List.map_map]
    exact List.map_congr_left fun x hx => hcall x (List.mem_range.mp hx)
  have hstore : store e.mem (dst + i) b (poseLabelNodeMany H false t.ids (some fun j => some (e.mem (t.pred0s j)))
      ((a1.map fun _ => t.pred1s).map fun ps j => some (e.mem (ps j))) e.seed e.desc e.algo) =
        store e.mem (dst + i) b fun x => L (e.nextId + x) := store_congr _ _ _ fun x hx => by
    rw [poseLabelNodeMany, hcall x hx]
    exact (hL _ (Nat.le_add_right _ _) (by omega)).symm
  simp only [LEmitter.labelNodeMany, he, hlist, hstore]
  rfl

theorem lcLayer_eq (hread : Reads L G w a0 a1 e)
    (hL : LabeledBy (H.label e.seed e.desc e.algo) G e.nextId (e.nextId + w) L)
    (hsep0 : ∀ i < w, a0 i < dst ∨ dst + w ≤ a0 i) (hsep1 : ∀ a, a1 = some a → ∀ i < w, a i < dst ∨ dst + w ≤ a i) :
    lcLayer H w a0 a1 dst e = lcState L G dst w e := by
  refine batchLoop_inv (by decide) (fun i t => t = lcState L G dst i e) ?_ (Nat.zero_le w) lcState_zero.symm
  rintro i b _ hib hb hcap rfl
  have hmem : ∀ a, a < dst ∨ dst + w ≤ a → (lcState L G dst i e).mem a = e.mem a := fun a ha => by
    simp only [lcState, store_out e.mem dst i _ (show a < dst ∨ dst + i ≤ a by omega)]
  rw [lcBatch_eq, lcState_add]
  · intro j hj
    have hnext : (lcState L G dst i e).nextId + j = e.nextId + (i + j) := Nat.add_assoc _ _ _
    rw [hnext, hread (i + j) (by omega), hmem _ (hsep0 _ (by omega))]
    cases ha : a1 with
    | none => rfl
    | some a => rw [Option.map_some, Option.map_some, hmem _ (hsep1 a ha _ (by omega))]
  · exact hL.mono (Nat.le_add_right _ _) (by show e.nextId + i + b ≤ _; omega)

end Layer

/-! ## The recursion -/

variable (H) in
/-- The recursion of the `lc_*` functions. -/
def lcScheme : Scheme (LEmitter α) α where
  get e := ⟨e.arena, e.arenaCap, e.arenaOff, e.arenaHi, e.mem⟩
  set e a := { e with arena := a.base, arenaCap := a.cap, arenaOff := a.off, arenaHi := a.hi, mem := a.mem }
  source dst e := lcSource H e dst
  one src dst e := lc1 H e dst (e.mem src)
  merge0 primary ingress dst e :=
    let (ig, e) := e.labelNode H false (some (e.mem ingress)) none
    lc2 H e dst (e.mem primary) ig
  first dim src dst := lcLayer1 H (2 ^ dim) src dst
  flip dim l src dst := lcLayer2 H (2 ^ dim) (flipBit dim l) src dst
  merge dim primary ingress dst := lcLayer H (2 ^ dim) (fun i => primary + i) (some fun i => ingress + i) dst

section Equations

theorem lcConnector_eq (e : LEmitter α) (dim inputs outputs : Nat) :
    lcConnector H e dim inputs outputs = (lcScheme H).connector e dim inputs outputs := by
  have hbit : ∀ l, dim - 1 - l = dim - (l + 1) := fun l => by omega
  have hbump : (e.arenaAlloc (2 ^ dim)).2.arenaAlloc (2 ^ dim) =
      (e.top + 2 ^ dim, (lcScheme H).alloc (2 ^ dim + 2 ^ dim) e) := by
    simp only [LEmitter.arenaAlloc, LEmitter.top, Scheme.alloc, lcScheme, Arena.bump, Prod.mk.injEq, LEmitter.mk.injEq,
      and_true, true_and]
    have := Nat.two_pow_pos dim
    omega
  simp only [lcConnector, hbump, hbit]
  rfl

/-- All layers of the center butterfly but the last one ping-pong; the last one goes to `outputs`. -/
theorem lcCenterLayers_eq (d outputs prev curr : Nat) (e : LEmitter α) :
    lcCenterLayers H (d + 1) outputs prev curr e =
      let r := (lcScheme H).flips (d + 1) d prev curr e
      (lcScheme H).flip (d + 1) (d + 1) r.2.1 outputs r.1 := by
  rw [lcCenterLayers, loop_succ, (loop_congr ?pass : _ = (lcScheme H).flips (d + 1) d prev curr e)]
  case pass =>
    intro l t hl
    simp only [if_neg (show ¬ l + 1 = d + 1 by omega), if_pos (show l + 1 < d + 1 by omega)]
    rfl
  simp only [if_true, if_neg (Nat.lt_irrefl _)]
  rfl

theorem lcMergedCenterIngress_eq (e : LEmitter α) (dim primary ingress outputs : Nat) :
    lcMergedCenterIngress H e dim primary ingress outputs = (lcScheme H).merged e dim primary ingress outputs := by
  by_cases hdim : dim = 0
  · rw [lcMergedCenterIngress, Scheme.merged, if_pos hdim, if_pos hdim]
    rfl
  · obtain ⟨d, rfl⟩ : ∃ d, dim = d + 1 := ⟨dim - 1, by omega⟩
    have hbump : ((((e.arenaAlloc (2 ^ (d + 1))).2.arenaAlloc (2 ^ (d + 1))).2.arenaAlloc (2 ^ (d + 1))).2.arenaAlloc
        (2 ^ (d + 1))).2 = (lcScheme H).alloc (2 ^ (d + 1) + 2 ^ (d + 1) + 2 ^ (d + 1) + 2 ^ (d + 1)) e := by
      simp only [LEmitter.arenaAlloc, Scheme.alloc, lcScheme, Arena.bump, LEmitter.mk.injEq, and_true, true_and]
      have := Nat.two_pow_pos (d + 1)
      omega
    have htop : ∀ t : LEmitter α, (t.arenaAlloc (2 ^ (d + 1))).1 = t.top ∧
        (t.arenaAlloc (2 ^ (d + 1))).2.top = t.top + 2 ^ (d + 1) := fun t => ⟨rfl, (Nat.add_assoc _ _ _).symm⟩
    simp only [lcMergedCenterIngress, Scheme.merged, if_neg hdim, lcCenterLayers_eq, hbump, (htop _).1, (htop _).2,
      Nat.add_assoc]
    rfl

theorem lcAlloc3_eq (e : LEmitter α) {w : Nat} (hw : 0 < w) :
    (((e.arenaAlloc w).2.arenaAlloc w).2.arenaAlloc w).2 = (lcScheme H).alloc (w + w + w) e := by
  simp only [LEmitter.arenaAlloc, Scheme.alloc, lcScheme, Arena.bump, LEmitter.mk.injEq, and_true, true_and]
  omega

theorem lcConnected_eq (e : LEmitter α) (k inputs out : Nat) :
    lcConnected H e k (2 ^ k) inputs out = (lcScheme H).connected e k inputs out := by
  induction k generalizing e inputs out with
  | zero => rfl
  | succ k ih =>
    have hhalf : 2 ^ (k + 1) / 2 = 2 ^ k := by rw [pow_succ]; omega
    have htop : ∀ t : LEmitter α, (t.arenaAlloc (2 ^ k)).1 = t.top ∧ (t.arenaAlloc (2 ^ k)).2.top = t.top + 2 ^ k :=
      fun t => ⟨rfl, (Nat.add_assoc _ _ _).symm⟩
    simp only [lcConnected, Scheme.connected, hhalf, lcAlloc3_eq (H := H) e (Nat.two_pow_pos k), ih,
      lcMergedCenterIngress_eq, (htop _).1, (htop _).2, Nat.add_assoc]
    rfl

theorem lcStandalone_eq (e : LEmitter α) (k out : Nat) :
    lcStandalone H e k out = (lcScheme H).standalone e k out := by
  induction k generalizing e out with
  | zero => rfl
  | succ k ih =>
    have htop : ∀ t : LEmitter α, (t.arenaAlloc (2 ^ k)).1 = t.top ∧ (t.arenaAlloc (2 ^ k)).2.top = t.top + 2 ^ k :=
      fun t => ⟨rfl, (Nat.add_assoc _ _ _).symm⟩
    simp only [lcStandalone, Scheme.standalone, lcAlloc3_eq (H := H) e (Nat.two_pow_pos k), ih, lcConnector_eq,
      lcConnected_eq, (htop _).1, (htop _).2, Nat.add_assoc]
    rfl

end Equations

/-! ## The labels carried -/

section Follows
variable {L : Nat → α} {G : Nat → List Nat} {N : Nat} {seed desc : α} {algo : PoseHashAlgo}

/-- `e'` comes from `e` by the derivations of the next `c` nodes of `G`. -/
structure LEmitted (L : Nat → α) (G : Nat → List Nat) (c : Nat) (e e' : LEmitter α) : Prop where
  nextId : e'.nextId = e.nextId + c
  env : e'.seed = e.seed ∧ e'.desc = e.desc ∧ e'.algo = e.algo
  hashed : e'.hashed = e.hashed ++ (List.range' e.nextId c).map fun id => nodeCall L id (G id)

theorem LEmitted.trans {c d : Nat} {e e' e'' : LEmitter α} (h : LEmitted L G c e e') (h' : LEmitted L G d e' e'') :
    LEmitted L G (c + d) e e'' where
  nextId := by rw [h'.nextId, h.nextId, Nat.add_assoc]
  env := ⟨h'.env.1.trans h.env.1, h'.env.2.1.trans h.env.2.1, h'.env.2.2.trans h.env.2.2⟩
  hashed := by
    rw [h'.hashed, h.hashed, h.nextId, List.append_assoc, ← List.map_append, List.range'_append_1]

theorem labelNode_spec (isSource : Bool) (p0 p1 : Option α) {e : LEmitter α}
    (hL : LabeledBy (H.label e.seed e.desc e.algo) G 0 N L) (hN : e.nextId < N)
    (hcall : nodeCall L e.nextId (G e.nextId) = ⟨isSource, e.nextId, p0, p1⟩) :
    (e.labelNode H isSource p0 p1).1 = L e.nextId ∧ LEmitted L G 1 e (e.labelNode H isSource p0 p1).2 := by
  refine ⟨by rw [hL e.nextId (Nat.zero_le _) hN, hcall]; rfl, ⟨rfl, ⟨rfl, rfl, rfl⟩, ?_⟩⟩
  simp only [LEmitter.labelNode, List.range'_one, List.map_cons, List.map_nil, hcall]

theorem write_spec {c dst id : Nat} {e e' : LEmitter α} {label : α} (h : LEmitted L G c e e')
    (hget : (lcScheme H).get e' = (lcScheme H).get e) (hlabel : label = L id) :
    LEmitted L G c e (e'.write dst label) ∧ (lcScheme H).Fills L dst 1 (fun _ => id) e (e'.write dst label) := by
  refine ⟨⟨h.nextId, h.env, h.hashed⟩, ?_⟩
  rw [Scheme.Fills, ← hget, hlabel, Arena.fill, ← update_eq_store]
  rfl

theorem lcState_spec {e : LEmitter α} (dst w : Nat) :
    LEmitted L G w e (lcState L G dst w e) ∧
      (lcScheme H).Fills L dst w (fun i => e.nextId + i) e (lcState L G dst w e) :=
  ⟨⟨rfl, ⟨rfl, rfl, rfl⟩, rfl⟩, rfl⟩

variable (H) in
/-- **The label-carrying emitter follows a table** when `L` are the labels of the table: the cell of node `id` holds
`L id`. -/
def lcFollows (hL : LabeledBy (H.label seed desc algo) G 0 N L) : (lcScheme H).Follows G N L where
  nextId e := e.nextId
  Emitted c e e' := LEmitted L G c e e'
  Ok e := e.seed = seed ∧ e.desc = desc ∧ e.algo = algo
  get_set _ _ := rfl
  ok_set _ h := h
  emitted_refl _ := ⟨rfl, ⟨rfl, rfl, rfl⟩, (List.append_nil _).symm⟩
  emitted_set _ _ := ⟨rfl, ⟨rfl, rfl, rfl⟩, (List.append_nil _).symm⟩
  emitted_trans h h' := h.trans h'
  emitted_ok h hok := ⟨h.env.1.trans hok.1, h.env.2.1.trans hok.2.1, h.env.2.2.trans hok.2.2⟩
  emitted_nextId h := h.nextId
  source_spec {e} dst hok hN hG := by
    obtain ⟨rfl, rfl, rfl⟩ := hok
    obtain ⟨hlabel, hE⟩ := labelNode_spec true none none hL hN (by rw [hG]; rfl)
    exact write_spec hE rfl hlabel
  one_spec {e src p} dst hok hN hG _ hp := by
    obtain ⟨rfl, rfl, rfl⟩ := hok
    have hp' : e.mem src = L p := hp
    obtain ⟨hlabel, hE⟩ := labelNode_spec false (some (e.mem src)) none hL hN (by rw [hG, hp']; rfl)
    exact write_spec hE rfl hlabel
  merge0_spec {e primary ingress p q} dst hok hN hG0 hG1 _ _ hprim hing := by
    obtain ⟨rfl, rfl, rfl⟩ := hok
    have hprim' : e.mem primary = L p := hprim
    have hing' : e.mem ingress = L q := hing
    obtain ⟨hig, hE⟩ := labelNode_spec false (some (e.mem ingress)) none hL (by omega)
      (by rw [hG0, hing']; rfl)
    obtain ⟨hlabel, hE'⟩ := labelNode_spec false (some (e.mem primary))
      (some (e.labelNode H false (some (e.mem ingress)) none).1)
      (e := (e.labelNode H false (some (e.mem ingress)) none).2) hL hN
      (by rw [hig, hprim']; exact congrArg (nodeCall L (e.nextId + 1)) hG1)
    exact write_spec (hE.trans hE') rfl hlabel
  first_spec {e dim src dst} inp hok hN hG _ hin hsep := by
    obtain ⟨rfl, rfl, rfl⟩ := hok
    have hin' : ∀ i < 2 ^ dim, e.mem (src + i) = L (inp i) := hin
    have heq : (lcScheme H).first dim src dst e = lcState L G dst (2 ^ dim) e :=
      lcLayer_eq (fun i hi => by rw [hG i hi, hin' i hi]; rfl) (hL.mono (Nat.zero_le _) hN) (fun i hi => by omega)
        fun a ha => by cases ha
    rw [heq]
    exact lcState_spec dst (2 ^ dim)
  flip_spec {e dim l src t} dst hok hN hl hnext hG hin hsep := by
    obtain ⟨rfl, rfl, rfl⟩ := hok
    have hin' : ∀ i < 2 ^ dim, e.mem (src + i) = L (cell dim t l i) := hin
    have heq : (lcScheme H).flip dim (l + 1) src dst e = lcState L G dst (2 ^ dim) e := by
      refine lcLayer_eq (fun i hi => ?_) (hL.mono (Nat.zero_le _) hN) (fun i hi => ?_) fun a ha i hi => ?_
      · rw [hG i hi, sorted2_flipBit]
        simp only [Option.map_some, hin' _ (ldiff_lt hi), hin' _ (or_flipBit_lt hl hi)]
        rfl
      · have := ldiff_lt (l := l) hi
        omega
      · cases ha
        have := or_flipBit_lt hl hi
        show src + (i ||| flipBit dim (l + 1)) < dst ∨ dst + 2 ^ dim ≤ src + (i ||| flipBit dim (l + 1))
        omega
    rw [heq]
    exact lcState_spec dst (2 ^ dim)
  merge_spec {e dim primary ingress dst} p q hok hN hG hpq hprim hing hsepP hsepI := by
    obtain ⟨rfl, rfl, rfl⟩ := hok
    have hprim' : ∀ i < 2 ^ dim, e.mem (primary + i) = L (p i) := hprim
    have hing' : ∀ i < 2 ^ dim, e.mem (ingress + i) = L (q i) := hing
    have heq : (lcScheme H).merge dim primary ingress dst e = lcState L G dst (2 ^ dim) e := by
      refine lcLayer_eq (fun i hi => ?_) (hL.mono (Nat.zero_le _) hN) (fun i hi => ?_) fun a ha i hi => ?_
      · rw [hG i hi]
        simp only [Option.map_some, hprim' i hi, hing' i hi]
        rfl
      · omega
      · cases ha
        show ingress + i < dst ∨ dst + 2 ^ dim ≤ ingress + i
        omega
    rw [heq]
    exact lcState_spec dst (2 ^ dim)

end Follows

/-! ## `do_label_inplace` -/

/-- **What `do_label_inplace` writes**, given the labels of the graph. -/
theorem doLabelInplace_spec {m : Nat} (hm : 1 ≤ m) (hmax : m ≤ poseGraphMaxM) (seed : α) (mem : Nat → α) (buf : Nat)
    (scratch : Scratch α) (algo : PoseHashAlgo) {L : Nat → α}
    (hL : LabeledBy (H.label seed (H.graphDescriptor m (poseGraphParameterN m)) algo) (scaffoldPreds m) 0
      (scratchNodeCount m) L) :
    let r := doLabelInplace H seed m mem buf scratch algo
    r.rc = 0 ∧ r.hashed = (List.range (scratchNodeCount m)).map (fun id => nodeCall L id (scaffoldPreds m id)) ∧
      r.mem = store mem buf m fun r => L (challengeNode m r) := by
  have hle := two_pow_poseGraphParameterN_le hm
  have hpow : 2 ^ (poseGraphParameterN m + 1) = 2 * 2 ^ poseGraphParameterN m := by rw [pow_succ]; omega
  have hge := le_two_pow_poseGraphParameterN m
  have hpos := Nat.two_pow_pos (poseGraphParameterN m)
  obtain ⟨e, he⟩ : ∃ e, e = inplaceEmitter H seed m scratch.labels (0 + 2 * 2 ^ poseGraphParameterN m +
    2 * 2 ^ poseGraphParameterN m) (poseArenaFactor * 2 ^ poseGraphParameterN m) algo := ⟨_, rfl⟩
  have hok : (lcFollows H hL).Ok e := by rw [he]; exact ⟨rfl, rfl, rfl⟩
  have h0 : e.nextId = 0 := by rw [he]; rfl
  have hh0 : e.hashed = [] := by rw [he]; rfl
  have htop : (lcScheme H).top e = 0 + 2 * 2 ^ poseGraphParameterN m + 2 * 2 ^ poseGraphParameterN m := by
    rw [he]; rfl
  have hleftTotal : scratchNodeCount m = 2 * standaloneNodeCount (poseGraphParameterN m + 1) := rfl
  have hargs : (lcFollows H hL).StandaloneArgs e (poseGraphParameterN m + 1) 0 :=
    ⟨hok, by rw [show (lcFollows H hL).nextId e = 0 from h0]; omega,
      fun i hi => by rw [show (lcFollows H hL).nextId e = 0 from h0, scaffoldPreds, if_pos (by omega)], by omega⟩
  have hfirst := Scheme.Follows.standalone_emits hargs
  have hnext : ((lcScheme H).standalone e (poseGraphParameterN m + 1) 0).nextId =
      standaloneNodeCount (poseGraphParameterN m + 1) :=
    hfirst.toRan.nextId.trans (by rw [show (lcFollows H hL).nextId e = 0 from h0, Nat.zero_add])
  simp only [doLabelInplace, if_neg (show ¬(m = 0 ∨ m > poseGraphMaxM) by omega), ← he, lcStandalone_eq]
  obtain ⟨e2, he2⟩ : ∃ e2, e2 = { (lcScheme H).standalone e (poseGraphParameterN m + 1) 0 with
    nextId := standaloneNodeCount (poseGraphParameterN m + 1), arenaOff := 0 } := ⟨_, rfl⟩
  have hmid : (lcFollows H hL).Emitted 0 ((lcScheme H).standalone e (poseGraphParameterN m + 1) 0) e2 := by
    rw [he2]
    exact ⟨hnext.symm, ⟨rfl, rfl, rfl⟩, (List.append_nil _).symm⟩
  have htop2 : (lcScheme H).top e2 = (lcScheme H).top e := by
    have hbase : ((lcScheme H).standalone e (poseGraphParameterN m + 1) 0).arena = e.arena := hfirst.used.base
    have hoff : e.arenaOff = 0 := by rw [he]; rfl
    show e2.arena + e2.arenaOff = e.arena + e.arenaOff
    rw [he2, hoff, ← hbase]
  obtain ⟨hE, hleft, hright⟩ := Scheme.Follows.standalone_twice (F := lcFollows H hL) (m := m) 0
    (0 + 2 * 2 ^ poseGraphParameterN m) le_rfl rfl hok h0 hmid (by rw [he2]; rfl) (by omega) (by omega)
    (by omega)
  rw [← he2]
  revert hE hleft hright
  generalize (lcScheme H).standalone e2 (poseGraphParameterN m + 1) (0 + 2 * 2 ^ poseGraphParameterN m) = e3
  intro hE hleft hright
  have hleft' : ∀ i < 2 ^ (poseGraphParameterN m + 1), e3.mem (0 + i) =
      L (standaloneBase (poseGraphParameterN m + 1) 0 i) := hleft
  have hright' : ∀ i < 2 ^ (poseGraphParameterN m + 1), e3.mem (0 + 2 * 2 ^ poseGraphParameterN m + i) =
      L (standaloneBase (poseGraphParameterN m + 1) (standaloneNodeCount (poseGraphParameterN m + 1)) i) := hright
  refine ⟨trivial, ?_, ?_⟩
  · rw [hE.hashed, hh0, h0, List.nil_append, ← List.range_eq_range']
  · simp only [output_loops]
    rw [show 2 ^ poseGraphParameterN m + (m - 2 ^ poseGraphParameterN m) = m by omega]
    refine store_congr _ _ _ fun r hr => ?_
    rw [challengeNode]
    by_cases hr' : r < 2 ^ poseGraphParameterN m
    · rw [if_pos hr', if_pos hr', ← hleft' _ (by omega), Nat.add_assoc]
    · rw [if_neg hr', if_neg hr', ← hright' _ (by omega), Nat.add_assoc]

/-- **The in-place labeling writes the labels of the id-indexed one**, rank by rank, and makes the same derivations:
the same ids with the same ordered predecessor labels. -/
theorem doLabelInplace_eq_doLabel (H : PoseHash α) (seed : α) (m : Nat) (hm : 1 ≤ m) (hmax : m ≤ poseGraphMaxM)
    (mem mem' : Nat → α) (out buf : Nat) (scratch scratch' : Scratch α) (algo : PoseHashAlgo) :
    let D := doLabel H seed m mem out scratch algo
    let I := doLabelInplace H seed m mem' buf scratch' algo
    D.rc = 0 ∧ I.rc = 0 ∧ (∀ r < m, I.mem (buf + r) = D.mem (out + r)) ∧ I.hashed = D.hashed := by
  obtain ⟨hrc, hL, hcalls, hmem⟩ := doLabel_spec (H := H) hm hmax seed mem out scratch algo
  obtain ⟨hrc', hcalls', hmem'⟩ := doLabelInplace_spec hm hmax seed mem' buf scratch' algo hL
  refine ⟨hrc, hrc', fun r hr => ?_, hcalls'.trans hcalls.symm⟩
  rw [hmem, hmem', store_in _ _ _ _ hr, store_in _ _ _ _ hr]

theorem doLabelInplace_eq_doLabel_three :
    (doLabelInplace natHash 7 3 (fun _ => 0) 40 ⟨fun _ => 0, fun _ => 0⟩ .sha256).mem (40 + 2) =
      (doLabel natHash 7 3 (fun _ => 0) 0 ⟨fun _ => 1, fun _ => 1⟩ .sha256).mem (0 + 2) :=
  (doLabelInplace_eq_doLabel natHash 7 3 (by decide) (by decide) (fun _ => 0) (fun _ => 0) 0 40
    ⟨fun _ => 1, fun _ => 1⟩ ⟨fun _ => 0, fun _ => 0⟩ .sha256).2.2.1 2 (by decide)

end PoseDB.Graph
