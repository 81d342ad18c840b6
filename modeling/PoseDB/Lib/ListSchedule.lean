import Mathlib.Algebra.BigOperators.Group.List.Basic
import Mathlib.Algebra.Order.BigOperators.Group.List
import Mathlib.Algebra.Order.Field.Basic
import Mathlib.Algebra.BigOperators.Group.Finset.Basic
import Mathlib.Algebra.BigOperators.Intervals
import Mathlib.Data.List.GetD
import Mathlib.Data.List.MinMax
import Mathlib.Data.List.Perm.Basic
import Mathlib.Tactic.Linarith
import Mathlib.Tactic.Ring

/-!
# List scheduling

Jobs are placed one after another on machines, each on the first machine that is least busy. `busy` lists the load of
each machine. A placement is described once (`place_perm`): up to order, a least load grows by the length of the job.
From that follow the sum of the loads (`sum_schedule`), the bound by the average plus one job (`mul_makespan_le`), the
comparison of two runs where one has more machines and shorter jobs (`makespan_schedule_mono`), and the comparison
with dealing the jobs in turn (`makespan_le_heads`).
-/

set_option autoImplicit false

namespace ListSchedule

/-- Induction over rounds of `T` jobs. -/
theorem rounds_induction {α : Type*} {T : Nat} (hT : 0 < T) {P : List α → Prop} (hlast : ∀ ts : List α, ts.length ≤ T → P ts)
    (hround : ∀ ts : List α, T < ts.length → P (ts.drop T) → P ts) (ts : List α) : P ts := by
  induction hn : ts.length using Nat.strong_induction_on generalizing ts with
  | _ n ih =>
    by_cases hlen : ts.length ≤ T
    · exact hlast ts hlen
    · refine hround ts (not_le.mp hlen) (ih (ts.drop T).length ?_ _ rfl)
      rw [List.length_drop]
      omega

section Defs
variable {α : Type*} [AddCommMonoid α] [LinearOrder α]

/-- The job goes to the first machine whose load is least. -/
def place (busy : List α) (t : α) : List α :=
  match busy.argmin id with
  | some b => busy.set (busy.idxOf b) (b + t)
  | none => busy

def schedule (m : Nat) (ts : List α) : List α := ts.foldl place (List.replicate m 0)

def makespan (busy : List α) : α := (busy.argmax id).getD 0

def finishTimes : List α → List α → List α
  | _, [] => []
  | busy, t :: ts => ((busy.argmin id).getD 0 + t) :: finishTimes (place busy t) ts

/-- `b` is a least load. -/
structure Least (busy : List α) (b : α) : Prop where
  mem : b ∈ busy
  le : ∀ y ∈ busy, b ≤ y

variable {busy ts : List α} {b t x : α}

omit [AddCommMonoid α] in
theorem exists_least (h : busy ≠ []) : ∃ b, busy.argmin id = some b ∧ Least busy b := by
  cases hb : busy.argmin id with
  | none => exact absurd (List.argmin_eq_none.mp hb) h
  | some b => exact ⟨b, rfl, List.argmin_mem hb, fun y hy => List.le_of_mem_argmin hy hb⟩

/-- **A placement**: up to order, a least load grows by the length of the job. -/
theorem place_perm (h : busy ≠ []) (t : α) :
    ∃ b, busy.argmin id = some b ∧ Least busy b ∧ (place busy t).Perm ((b + t) :: busy.erase b) := by
  obtain ⟨b, hb, hl⟩ := exists_least h
  refine ⟨b, hb, hl, ?_⟩
  unfold place
  rw [hb, ← List.eraseIdx_idxOf_eq_erase]
  exact List.set_perm_cons_eraseIdx (List.idxOf_lt_length_of_mem hl.mem) _

theorem place_ne_nil (h : busy ≠ []) (t : α) : place busy t ≠ [] := by
  obtain ⟨b, -, -, hp⟩ := place_perm h t
  intro hnil
  rw [hnil] at hp
  exact List.cons_ne_nil _ _ hp.nil_eq.symm

theorem foldl_place_ne_nil (h : busy ≠ []) (ts : List α) : ts.foldl place busy ≠ [] := by
  induction ts generalizing busy with
  | nil => exact h
  | cons t ts ih => exact ih (place_ne_nil h t)

theorem makespan_mem (h : busy ≠ []) : makespan busy ∈ busy := by
  unfold makespan
  cases hm : busy.argmax id with
  | none => exact absurd (List.argmax_eq_none.mp hm) h
  | some m => exact List.argmax_mem hm

theorem le_makespan {y : α} (hy : y ∈ busy) : y ≤ makespan busy := by
  unfold makespan
  cases hm : busy.argmax id with
  | none => exact absurd (List.argmax_eq_none.mp hm) (List.ne_nil_of_mem hy)
  | some m => exact List.le_of_mem_argmax hy hm

theorem makespan_le_iff (h : busy ≠ []) : makespan busy ≤ x ↔ ∀ y ∈ busy, y ≤ x :=
  ⟨fun hx _ hy => (le_makespan hy).trans hx, fun hx => hx _ (makespan_mem h)⟩

omit [LinearOrder α] in
theorem replicate_ne_nil {m : Nat} (hm : 0 < m) : List.replicate m (0 : α) ≠ [] :=
  fun h => hm.ne' (by rw [← List.length_replicate (n := m) (a := (0 : α)), h, List.length_nil])

theorem schedule_ne_nil {m : Nat} (hm : 0 < m) (ts : List α) : schedule m ts ≠ [] :=
  foldl_place_ne_nil (replicate_ne_nil hm) ts

/-- The loads after a placement: the grown one, or one from before. -/
theorem forall_mem_place {P : α → Prop} (h : busy ≠ []) (hold : ∀ y ∈ busy, P y) (hnew : ∀ b, Least busy b → P (b + t)) :
    ∀ y ∈ place busy t, P y := by
  obtain ⟨b, -, hl, hp⟩ := place_perm h t
  intro y hy
  rcases List.mem_cons.mp (hp.mem_iff.mp hy) with rfl | hy
  · exact hnew b hl
  · exact hold y (List.mem_of_mem_erase hy)

theorem length_place (busy : List α) (t : α) : (place busy t).length = busy.length := by
  unfold place
  split
  · exact List.length_set
  · rfl

theorem length_foldl_place (busy ts : List α) : (ts.foldl place busy).length = busy.length := by
  induction ts generalizing busy with
  | nil => rfl
  | cons t ts ih => rw [List.foldl_cons, ih, length_place]

theorem length_schedule (m : Nat) (ts : List α) : (schedule m ts).length = m := by
  rw [schedule, length_foldl_place, List.length_replicate]

theorem mem_foldl_place (h : busy ≠ []) : ∀ y ∈ ts.foldl place busy, y ∈ busy ∨ y ∈ finishTimes busy ts := by
  induction ts generalizing busy with
  | nil => exact fun y hy => Or.inl hy
  | cons t ts ih =>
      intro y hy
      rcases ih (place_ne_nil h t) y hy with hy | hy
      · refine forall_mem_place (P := fun y => y ∈ busy ∨ y ∈ finishTimes busy (t :: ts)) h (fun y hy => Or.inl hy) ?_ y hy
        intro c hc
        obtain ⟨b, hb, hl⟩ := exists_least h
        rw [finishTimes, hb, Option.getD_some, le_antisymm (hc.le b hl.mem) (hl.le c hc.mem)]
        exact Or.inr List.mem_cons_self
      · exact Or.inr (List.mem_cons_of_mem _ hy)

theorem sum_place (h : busy ≠ []) (t : α) : (place busy t).sum = busy.sum + t := by
  obtain ⟨b, -, hl, hp⟩ := place_perm h t
  have herase : b + (busy.erase b).sum = busy.sum := List.sum_erase hl.mem
  rw [hp.sum_eq, List.sum_cons, ← herase, add_right_comm]

theorem sum_foldl_place (h : busy ≠ []) (ts : List α) : (ts.foldl place busy).sum = busy.sum + ts.sum := by
  induction ts generalizing busy with
  | nil => rw [List.foldl_nil, List.sum_nil, add_zero]
  | cons t ts ih => rw [List.foldl_cons, ih (place_ne_nil h t), sum_place h, List.sum_cons, add_assoc]

theorem sum_schedule {m : Nat} (hm : 0 < m) (ts : List α) : (schedule m ts).sum = ts.sum := by
  rw [schedule, sum_foldl_place (replicate_ne_nil hm), List.sum_replicate, nsmul_zero, zero_add]

theorem countP_place (hb : Least busy b) (t x : α)
    (hp : (place busy t).Perm ((b + t) :: busy.erase b)) :
    (place busy t).countP (· ≤ x) + (if b ≤ x then 1 else 0) = busy.countP (· ≤ x) + if b + t ≤ x then 1 else 0 := by
  have hcons : busy.Perm (b :: busy.erase b) := List.perm_cons_erase hb.mem
  have hold := hcons.countP_eq (· ≤ x)
  have hnew := hp.countP_eq (· ≤ x)
  rw [List.countP_cons] at hold hnew
  simp only [decide_eq_true_eq] at hold hnew
  omega

/-! ## Every `T`-th job -/

/-- Every `T`-th job, from the first on. -/
def heads (T : Nat) (ts : List α) : α := ∑ j ∈ Finset.range ts.length, ts.getD (j * T) 0

omit [LinearOrder α] in
theorem getD_eq_zero {i : Nat} (h : ts.length ≤ i) : ts.getD i (0 : α) = 0 := List.getD_eq_default _ _ h

omit [LinearOrder α] in
theorem heads_eq {T q : Nat} (hT : 0 < T) (hq : ts.length ≤ q) : heads T ts = ∑ j ∈ Finset.range q, ts.getD (j * T) 0 := by
  refine Finset.sum_subset (Finset.range_subset_range.mpr hq) fun j _ hj => getD_eq_zero ?_
  rw [Finset.mem_range, not_lt] at hj
  exact hj.trans (Nat.le_mul_of_pos_right j hT)

omit [LinearOrder α] in
theorem heads_drop {T : Nat} (hT : 0 < T) (ts : List α) : heads T ts = ts.getD 0 0 + heads T (ts.drop T) := by
  rw [heads_eq hT (Nat.le_succ ts.length), Finset.sum_range_succ', Nat.zero_mul, add_comm,
    heads_eq hT (q := ts.length) (by rw [List.length_drop]; exact Nat.sub_le _ _)]
  refine congrArg (ts.getD 0 0 + ·) (Finset.sum_congr rfl fun j _ => ?_)
  rw [List.getD_eq_getElem?_getD, List.getD_eq_getElem?_getD, List.getElem?_drop, Nat.succ_mul, Nat.add_comm T]

omit [LinearOrder α] in
theorem getD_zero_mem (h : ts ≠ []) : ts.getD 0 (0 : α) ∈ ts := by
  obtain ⟨t, ts, rfl⟩ := List.exists_cons_of_ne_nil h
  exact List.mem_cons_self

theorem le_getD_zero (hsort : ts.Pairwise (· ≥ ·)) : ∀ t ∈ ts, t ≤ ts.getD 0 0 := by
  cases ts with
  | nil => exact fun t ht => by cases ht
  | cons s ts =>
      intro t ht
      rcases List.mem_cons.mp ht with rfl | ht
      · exact le_rfl
      · exact (List.pairwise_cons.mp hsort).1 t ht

/-- The rounds before the last one each have jobs of one length. -/
def EvenRounds (T : Nat) (ts : List α) : Prop :=
  ∀ j, (j + 1) * T < ts.length → ts.getD (j * T + (T - 1)) 0 = ts.getD (j * T) 0

omit [LinearOrder α] in
theorem EvenRounds.drop {T : Nat} (h : EvenRounds T ts) : EvenRounds T (ts.drop T) := by
  intro j hj
  rw [List.length_drop] at hj
  have hround := h (j + 1) (by rw [Nat.succ_mul]; omega)
  rw [Nat.succ_mul] at hround
  rwa [List.getD_eq_getElem?_getD, List.getD_eq_getElem?_getD, List.getElem?_drop, List.getElem?_drop,
    ← List.getD_eq_getElem?_getD, ← List.getD_eq_getElem?_getD, Nat.add_comm T, Nat.add_comm T,
    Nat.add_right_comm]

theorem EvenRounds.take {T : Nat} (h : EvenRounds T ts) (hT : 0 < T) (hlong : T < ts.length)
    (hsort : ts.Pairwise (· ≥ ·)) : ∀ t ∈ ts.take T, t = ts.getD 0 0 := by
  have hlast : ts.getD (T - 1) 0 = ts.getD 0 0 := by
    have hround := h 0 (by rwa [Nat.zero_add, Nat.one_mul])
    rwa [Nat.zero_mul, Nat.zero_add] at hround
  intro t ht
  obtain ⟨i, hi, rfl⟩ := List.mem_iff_getElem.mp ht
  rw [List.length_take] at hi
  rw [List.getElem_take]
  refine le_antisymm (le_getD_zero hsort _ (List.getElem_mem _)) ?_
  rw [← hlast, List.getD_eq_getElem _ _ (by omega)]
  exact hsort.sortedGE.getElem_ge_getElem_of_le (by omega)

end Defs

/-! ## Sums and bounds -/

section Field
variable {α : Type*} [Field α] [LinearOrder α] [IsStrictOrderedRing α] {busy busy' ts ts' : List α} {m n : Nat} {x : α}

theorem Least.length_mul_le {b : α} (h : Least busy b) : (busy.length : α) * b ≤ busy.sum := by
  rw [← nsmul_eq_mul]
  exact List.card_nsmul_le_sum busy b h.le

theorem sum_le_length_mul_makespan (busy : List α) : busy.sum ≤ busy.length * makespan busy := by
  rw [← nsmul_eq_mul]
  exact List.sum_le_card_nsmul busy _ fun y hy => le_makespan hy

theorem nonneg_foldl_place (h : busy ≠ []) (hbusy : ∀ y ∈ busy, 0 ≤ y) (hts : ∀ t ∈ ts, 0 ≤ t) :
    ∀ y ∈ ts.foldl place busy, 0 ≤ y := by
  induction ts generalizing busy with
  | nil => exact hbusy
  | cons t ts ih =>
      refine ih (place_ne_nil h t) ?_ fun u hu => hts u (List.mem_cons_of_mem _ hu)
      exact forall_mem_place h hbusy fun b hb => add_nonneg (hbusy b hb.mem) (hts t List.mem_cons_self)

theorem nonneg_schedule (hm : 0 < m) (hts : ∀ t ∈ ts, 0 ≤ t) : ∀ y ∈ schedule m ts, 0 ≤ y :=
  nonneg_foldl_place (replicate_ne_nil hm) (fun _ hy => (List.eq_of_mem_replicate hy).ge) hts

theorem length_mul_le_foldl_place {L : α} (h : busy ≠ []) (hts : ∀ t ∈ ts, 0 ≤ t ∧ t ≤ L)
    (hbusy : ∀ y ∈ busy, (busy.length : α) * y ≤ busy.sum + busy.length * L) :
    ∀ y ∈ ts.foldl place busy, (busy.length : α) * y ≤ (ts.foldl place busy).sum + busy.length * L := by
  induction ts generalizing busy with
  | nil => exact hbusy
  | cons t ts ih =>
      obtain ⟨ht, htL⟩ := hts t List.mem_cons_self
      have hlen : (0 : α) ≤ busy.length := Nat.cast_nonneg _
      have hstep : ∀ y ∈ place busy t, ((place busy t).length : α) * y ≤ (place busy t).sum + (place busy t).length * L := by
        rw [length_place, sum_place h]
        refine forall_mem_place h (fun y hy => ?_) fun b hb => ?_
        · linarith [hbusy y hy]
        · have hmul : (busy.length : α) * t ≤ busy.length * L := mul_le_mul_of_nonneg_left htL hlen
          rw [mul_add]
          linarith [hb.length_mul_le]
      have hrest := ih (place_ne_nil h t) (fun u hu => hts u (List.mem_cons_of_mem _ hu)) hstep
      rwa [length_place] at hrest

/-- **The makespan is at most the average load plus one job.** -/
theorem mul_makespan_le {L : α} (hm : 0 < m) (hts : ∀ t ∈ ts, 0 ≤ t ∧ t ≤ L) (hL : 0 ≤ L) :
    (m : α) * makespan (schedule m ts) ≤ ts.sum + m * L := by
  have hzero : ∀ y ∈ List.replicate m (0 : α), ((List.replicate m (0 : α)).length : α) * y ≤
      (List.replicate m (0 : α)).sum + (List.replicate m (0 : α)).length * L := by
    intro y hy
    rw [List.eq_of_mem_replicate hy, mul_zero, List.sum_replicate, nsmul_zero, zero_add]
    exact mul_nonneg (Nat.cast_nonneg _) hL
  have hbound := length_mul_le_foldl_place (replicate_ne_nil hm) hts hzero _ (makespan_mem (schedule_ne_nil hm ts))
  rwa [List.length_replicate, ← schedule, sum_schedule hm] at hbound

/-! ## When the jobs end -/

theorem le_finishTimes (h : busy ≠ []) (hbusy : ∀ y ∈ busy, 0 ≤ y) (hts : ∀ t ∈ ts, 0 ≤ t) :
    List.Forall₂ (fun t f => t ≤ f) ts (finishTimes busy ts) := by
  induction ts generalizing busy with
  | nil => exact List.Forall₂.nil
  | cons t ts ih =>
      obtain ⟨b, hb, hl⟩ := exists_least h
      have hplace : ∀ y ∈ place busy t, 0 ≤ y :=
        forall_mem_place h hbusy fun c hc => add_nonneg (hbusy c hc.mem) (hts t List.mem_cons_self)
      refine List.Forall₂.cons ?_ (ih (place_ne_nil h t) hplace fun u hu => hts u (List.mem_cons_of_mem _ hu))
      rw [hb, Option.getD_some]
      linarith [hbusy b hl.mem]

theorem exists_le_foldl_place {y : α} (h : busy ≠ []) (hts : ∀ t ∈ ts, 0 ≤ t) (hy : y ∈ busy) :
    ∃ z ∈ ts.foldl place busy, y ≤ z := by
  induction ts generalizing busy y with
  | nil => exact ⟨y, hy, le_rfl⟩
  | cons t ts ih =>
      obtain ⟨b, -, hb, hp⟩ := place_perm h t
      have hnext : ∃ z ∈ place busy t, y ≤ z := by
        rcases List.mem_cons.mp ((List.perm_cons_erase hb.mem).mem_iff.mp hy) with rfl | hy
        · exact ⟨y + t, hp.mem_iff.mpr List.mem_cons_self, le_add_of_nonneg_right (hts t List.mem_cons_self)⟩
        · exact ⟨y, hp.mem_iff.mpr (List.mem_cons_of_mem _ hy), le_rfl⟩
      obtain ⟨z, hz, hyz⟩ := hnext
      obtain ⟨w, hw, hzw⟩ := ih (place_ne_nil h t) (fun u hu => hts u (List.mem_cons_of_mem _ hu)) hz
      exact ⟨w, hw, hyz.trans hzw⟩

theorem finishTimes_le_makespan (h : busy ≠ []) (hts : ∀ t ∈ ts, 0 ≤ t) :
    ∀ f ∈ finishTimes busy ts, f ≤ makespan (ts.foldl place busy) := by
  induction ts generalizing busy with
  | nil => exact fun f hf => by cases hf
  | cons t ts ih =>
      have hrest : ∀ u ∈ ts, 0 ≤ u := fun u hu => hts u (List.mem_cons_of_mem _ hu)
      intro f hf
      rcases List.mem_cons.mp hf with rfl | hf
      · obtain ⟨b, hb, -, hp⟩ := place_perm h t
        rw [hb, Option.getD_some]
        obtain ⟨z, hz, hle⟩ := exists_le_foldl_place (place_ne_nil h t) hrest (hp.mem_iff.mpr List.mem_cons_self)
        exact hle.trans (le_makespan hz)
      · exact ih (place_ne_nil h t) hrest f hf

/-! ## More machines and shorter jobs -/

/-- Up to the factor `c`, the loads `busy` are below the least loads of `busy'`, and none is above all of `busy'`. -/
structure Below (c : α) (busy busy' : List α) : Prop where
  count : ∀ x, busy'.countP (· ≤ x) ≤ busy.countP (· ≤ c * x)
  top : ∀ y ∈ busy, ∃ z ∈ busy', y ≤ c * z

theorem Below.place {c t u : α} (h : Below c busy busy') (hbusy : busy ≠ []) (hbusy' : busy' ≠ []) (hc : 0 ≤ c)
    (hu : 0 ≤ u) (htu : t ≤ c * u) : Below c (place busy t) (place busy' u) := by
  obtain ⟨b, -, hb, hp⟩ := place_perm hbusy t
  obtain ⟨a, -, ha, hq⟩ := place_perm hbusy' u
  have hba : b ≤ c * a := by
    have hpos : 0 < busy'.countP (· ≤ a) := List.countP_pos_iff.mpr ⟨a, ha.mem, decide_eq_true le_rfl⟩
    obtain ⟨y, hy, hya⟩ := List.countP_pos_iff.mp (lt_of_lt_of_le hpos (h.count a))
    exact (hb.le y hy).trans (of_decide_eq_true hya)
  have hnew : b + t ≤ c * (a + u) := by
    rw [mul_add]
    exact add_le_add hba htu
  refine ⟨fun x => ?_, fun y hy => ?_⟩
  · have hcount := countP_place hb t (c * x) hp
    have hcount' := countP_place ha u x hq
    by_cases hax : a ≤ x
    · have hbx : b ≤ c * x := hba.trans (mul_le_mul_of_nonneg_left hax hc)
      have hx := h.count x
      rw [if_pos hbx] at hcount
      rw [if_pos hax] at hcount'
      by_cases hux : a + u ≤ x
      · rw [if_pos (hnew.trans (mul_le_mul_of_nonneg_left hux hc))] at hcount
        rw [if_pos hux] at hcount'
        omega
      · rw [if_neg hux] at hcount'
        split_ifs at hcount <;> omega
    · -- no load of the second run is that small, before or after
      have hzero : busy'.countP (· ≤ x) = 0 := by
        refine List.countP_eq_zero.mpr fun y hy hyx => hax ((ha.le y hy).trans ?_)
        exact of_decide_eq_true hyx
      have hux : ¬a + u ≤ x := fun hle => hax ((le_add_of_nonneg_right hu).trans hle)
      rw [if_neg hax, hzero, if_neg hux] at hcount'
      omega
  · have htop : ∀ z ∈ busy', ∃ z' ∈ ListSchedule.place busy' u, z ≤ z' := by
      intro z hz
      rcases List.mem_cons.mp ((List.perm_cons_erase ha.mem).mem_iff.mp hz) with rfl | hz
      · exact ⟨z + u, hq.mem_iff.mpr List.mem_cons_self, le_add_of_nonneg_right hu⟩
      · exact ⟨z, hq.mem_iff.mpr (List.mem_cons_of_mem _ hz), le_rfl⟩
    rcases List.mem_cons.mp (hp.mem_iff.mp hy) with rfl | hy
    · exact ⟨a + u, hq.mem_iff.mpr List.mem_cons_self, hnew⟩
    · obtain ⟨z, hz, hyz⟩ := h.top y (List.mem_of_mem_erase hy)
      obtain ⟨z', hz', hzz⟩ := htop z hz
      exact ⟨z', hz', hyz.trans (mul_le_mul_of_nonneg_left hzz hc)⟩

theorem Below.foldl_place {c : α} (hc : 0 ≤ c) (hts : List.Forall₂ (fun t u => 0 ≤ u ∧ t ≤ c * u) ts ts')
    (h : Below c busy busy') (hbusy : busy ≠ []) (hbusy' : busy' ≠ []) :
    Below c (ts.foldl ListSchedule.place busy) (ts'.foldl ListSchedule.place busy') := by
  induction hts generalizing busy busy' with
  | nil => exact h
  | cons htu _ ih =>
      exact ih (h.place hbusy hbusy' hc htu.1 htu.2) (place_ne_nil hbusy _) (place_ne_nil hbusy' _)

/-- **With more machines, and jobs that are no more than `c` times as long, the makespan is at most `c` times that.** -/
theorem makespan_schedule_mono {c : α} (hc : 0 ≤ c) (hm : 0 < m) (hmn : m ≤ n)
    (hts : List.Forall₂ (fun t u => 0 ≤ u ∧ t ≤ c * u) ts ts') :
    makespan (schedule n ts) ≤ c * makespan (schedule m ts') := by
  have hn : 0 < n := lt_of_lt_of_le hm hmn
  have hzero : Below c (List.replicate n (0 : α)) (List.replicate m 0) := by
    refine ⟨fun x => ?_, fun y hy => ⟨0, List.mem_replicate.mpr ⟨hm.ne', rfl⟩, ?_⟩⟩
    · rw [List.countP_replicate, List.countP_replicate]
      by_cases hx : (0 : α) ≤ x
      · rw [if_pos (decide_eq_true hx), if_pos (decide_eq_true (mul_nonneg hc hx))]
        exact hmn
      · rw [if_neg (decide_eq_false hx ▸ Bool.false_ne_true)]
        exact Nat.zero_le _
    · rw [List.eq_of_mem_replicate hy, mul_zero]
  have hall := Below.foldl_place hc hts hzero (replicate_ne_nil hn) (replicate_ne_nil hm)
  obtain ⟨z, hz, hle⟩ := hall.top _ (makespan_mem (schedule_ne_nil hn ts))
  exact hle.trans (mul_le_mul_of_nonneg_left (le_makespan hz) hc)

/-! ## Dealing in turn -/

/-- As long as there are machines left with a load of at most `R`, a job of at most `s` makes no load above `R + s`. -/
theorem foldl_place_le {R s : α} (h : busy ≠ []) (hbusy : ∀ y ∈ busy, y ≤ R + s) (hts : ∀ t ∈ ts, t ≤ s)
    (hcount : ts.length ≤ busy.countP (· ≤ R)) : ∀ y ∈ ts.foldl place busy, y ≤ R + s := by
  induction ts generalizing busy with
  | nil => exact hbusy
  | cons t ts ih =>
      have hleast : ∀ b, Least busy b → b ≤ R := by
        intro b hb
        have hpos : 0 < busy.countP (· ≤ R) := lt_of_lt_of_le (Nat.succ_pos _) hcount
        obtain ⟨y, hy, hyR⟩ := List.countP_pos_iff.mp hpos
        exact (hb.le y hy).trans (of_decide_eq_true hyR)
      refine ih (place_ne_nil h t) ?_ (fun u hu => hts u (List.mem_cons_of_mem _ hu)) ?_
      · exact forall_mem_place h hbusy fun b hb => add_le_add (hleast b hb) (hts t List.mem_cons_self)
      · obtain ⟨b, -, hb, hp⟩ := place_perm h t
        have hplace := countP_place hb t R hp
        rw [if_pos (hleast b hb)] at hplace
        rw [List.length_cons] at hcount
        split_ifs at hplace <;> omega

theorem round_le {R s : α} (h : busy ≠ []) (hbusy : ∀ y ∈ busy, y ≤ R) (hs : 0 ≤ s) (hts : ∀ t ∈ ts, t ≤ s)
    (hlen : ts.length ≤ busy.length) : ∀ y ∈ ts.foldl place busy, y ≤ R + s := by
  refine foldl_place_le h (fun y hy => (hbusy y hy).trans (le_add_of_nonneg_right hs)) hts ?_
  rwa [List.countP_eq_length.mpr fun y hy => decide_eq_true (hbusy y hy)]

theorem foldl_place_le_heads {R : α} (hsort : ts.Pairwise (· ≥ ·)) (hts : ∀ t ∈ ts, 0 ≤ t) (h : busy ≠ [])
    (hbusy : ∀ y ∈ busy, y ≤ R) : ∀ y ∈ ts.foldl place busy, y ≤ R + heads busy.length ts := by
  have hT : 0 < busy.length := List.length_pos_iff.mpr h
  have hs : ∀ ts : List α, (∀ t ∈ ts, 0 ≤ t) → 0 ≤ ts.getD 0 0 := by
    intro ts hts
    by_cases hnil : ts = []
    · rw [hnil, getD_eq_zero (Nat.zero_le _)]
    · exact hts _ (getD_zero_mem hnil)
  generalize hlen : busy.length = T at hT
  induction ts using rounds_induction hT generalizing busy R with
  | hlast ts hshort =>
      have hrest : heads T (ts.drop T) = 0 := by
        rw [List.drop_of_length_le hshort]
        rfl
      rw [heads_drop hT, hrest, add_zero]
      exact round_le h hbusy (hs ts hts) (le_getD_zero hsort) (hlen ▸ hshort)
  | hround ts hlong ih =>
      have htake : (ts.take T).foldl place busy ≠ [] := foldl_place_ne_nil h _
      have hfirst := round_le h hbusy (hs ts hts) (fun t ht => le_getD_zero hsort t (List.mem_of_mem_take ht))
        (by rw [List.length_take, hlen]; exact Nat.min_le_left _ _)
      have hall := ih (hsort.sublist (List.drop_sublist T ts)) (fun t ht => hts t (List.mem_of_mem_drop ht)) htake hfirst
        (by rw [length_foldl_place, hlen])
      rwa [← List.foldl_append, List.take_append_drop, add_assoc, ← heads_drop hT] at hall

/-- **The makespan is at most the sum of every `m`-th job**, when the jobs come by decreasing length. -/
theorem makespan_le_heads (hm : 0 < m) (hsort : ts.Pairwise (· ≥ ·)) (hts : ∀ t ∈ ts, 0 ≤ t) :
    makespan (schedule m ts) ≤ heads m ts := by
  have hall := foldl_place_le_heads hsort hts (replicate_ne_nil hm) (R := 0) fun y hy => (List.eq_of_mem_replicate hy).le
  rw [List.length_replicate, zero_add] at hall
  exact hall _ (makespan_mem (schedule_ne_nil hm ts))

/-! ## When dealing is as good -/

theorem eq_of_sum_eq {c : α} (hle : ∀ y ∈ busy, y ≤ c) (hsum : busy.sum = busy.length * c) : ∀ y ∈ busy, y = c := by
  intro y hy
  have hrest : (busy.erase y).sum ≤ (busy.erase y).length * c := by
    rw [← nsmul_eq_mul]
    exact List.sum_le_card_nsmul _ _ fun z hz => hle z (List.mem_of_mem_erase hz)
  have hcons : y + (busy.erase y).sum = busy.sum := List.sum_erase hy
  have hlen : ((busy.erase y).length : α) + 1 = busy.length := by
    exact_mod_cast List.length_erase_add_one hy
  rw [hsum, ← hlen, add_mul, one_mul] at hcons
  exact le_antisymm (hle y hy) (by linarith)

theorem full_round {R s : α} (h : busy ≠ []) (hbusy : ∀ y ∈ busy, y = R) (hs : 0 ≤ s) (hts : ∀ t ∈ ts, t = s)
    (hlen : ts.length = busy.length) : ∀ y ∈ ts.foldl place busy, y = R + s := by
  refine eq_of_sum_eq (round_le h (fun y hy => (hbusy y hy).le) hs (fun t ht => (hts t ht).le) hlen.le) ?_
  rw [sum_foldl_place h, length_foldl_place, List.sum_eq_card_nsmul _ _ hbusy, List.sum_eq_card_nsmul _ _ hts, hlen,
    nsmul_eq_mul, nsmul_eq_mul, mul_add]

theorem heads_le_foldl_place {R : α} (hsort : ts.Pairwise (· ≥ ·)) (hts : ∀ t ∈ ts, 0 ≤ t)
    (heven : EvenRounds busy.length ts) (h : busy ≠ []) (hbusy : ∀ y ∈ busy, y = R) :
    ∃ z ∈ ts.foldl place busy, R + heads busy.length ts ≤ z := by
  have hT : 0 < busy.length := List.length_pos_iff.mpr h
  generalize hlen : busy.length = T at hT heven
  induction ts using rounds_induction hT generalizing busy R with
  | hlast ts hshort =>
      have hrest : heads T (ts.drop T) = 0 := by
        rw [List.drop_of_length_le hshort]
        rfl
      rw [heads_drop hT, hrest, add_zero]
      cases ts with
      | nil =>
          obtain ⟨y, hy⟩ := List.exists_mem_of_ne_nil busy h
          exact ⟨y, hy, by rw [getD_eq_zero (Nat.zero_le _), add_zero, hbusy y hy]⟩
      | cons t ts =>
          obtain ⟨b, -, hb, hp⟩ := place_perm h t
          obtain ⟨z, hz, hle⟩ := exists_le_foldl_place (place_ne_nil h t)
            (fun u hu => hts u (List.mem_cons_of_mem _ hu)) (hp.mem_iff.mpr List.mem_cons_self)
          exact ⟨z, hz, by rwa [hbusy b hb.mem] at hle⟩
  | hround ts hlong ih =>
      have hnil : ts ≠ [] := fun h => by rw [h] at hlong; exact Nat.not_lt_zero _ hlong
      have hfirst := full_round h hbusy (hts _ (getD_zero_mem hnil)) (heven.take hT hlong hsort)
        (by rw [List.length_take, hlen]; exact Nat.min_eq_left (Nat.le_of_lt hlong))
      obtain ⟨z, hz, hle⟩ := ih (hsort.sublist (List.drop_sublist T ts)) (fun t ht => hts t (List.mem_of_mem_drop ht))
        (foldl_place_ne_nil h _) hfirst (by rw [length_foldl_place, hlen]) heven.drop
      refine ⟨z, ?_, ?_⟩
      · rwa [← List.foldl_append, List.take_append_drop] at hz
      · rwa [heads_drop hT, ← add_assoc]

/-- **Where only the last round may have jobs of different lengths, the makespan is the sum of every `m`-th job.** -/
theorem makespan_eq_heads (hm : 0 < m) (hsort : ts.Pairwise (· ≥ ·)) (hts : ∀ t ∈ ts, 0 ≤ t) (heven : EvenRounds m ts) :
    makespan (schedule m ts) = heads m ts := by
  refine le_antisymm (makespan_le_heads hm hsort hts) ?_
  have hlen : (List.replicate m (0 : α)).length = m := List.length_replicate
  obtain ⟨z, hz, hle⟩ := heads_le_foldl_place hsort hts (hlen.symm ▸ heven) (replicate_ne_nil hm)
    fun y hy => List.eq_of_mem_replicate hy
  rw [hlen, zero_add] at hle
  exact hle.trans (le_makespan hz)

/-- **The sum of every `T`-th job** is at most the first job and a `T`-th of the others. -/
theorem mul_heads_le {T : Nat} (hT : 0 < T) (hsort : ts.Pairwise (· ≥ ·)) (hts : ∀ t ∈ ts, 0 ≤ t) :
    (T : α) * heads T ts ≤ ts.sum + (T - 1) * ts.getD 0 0 := by
  have hT1 : (1 : α) ≤ T := by exact_mod_cast hT
  induction ts using rounds_induction hT with
  | hlast ts hshort =>
      have hrest : heads T (ts.drop T) = 0 := by
        rw [List.drop_of_length_le hshort]
        rfl
      rw [heads_drop hT, hrest, add_zero]
      cases ts with
      | nil => rw [getD_eq_zero (Nat.zero_le _), mul_zero, mul_zero, List.sum_nil, add_zero]
      | cons s ts =>
          have hnonneg : 0 ≤ ts.sum := List.sum_nonneg fun t ht => hts t (List.mem_cons_of_mem _ ht)
          rw [List.sum_cons, List.getD_cons_zero]
          linarith
  | hround ts hlong ih =>
      have hdrop := ih (hsort.sublist (List.drop_sublist T ts)) fun t ht => hts t (List.mem_of_mem_drop ht)
      have hsum : (ts.take T).sum + (ts.drop T).sum = ts.sum := by rw [← List.sum_append, List.take_append_drop]
      have hfirst : ts.getD 0 0 + (T - 1) * (ts.drop T).getD 0 0 ≤ (ts.take T).sum := by
        obtain ⟨s, us, rfl⟩ := List.exists_cons_of_length_pos (Nat.zero_lt_of_lt hlong)
        obtain ⟨n, rfl⟩ := Nat.exists_eq_succ_of_ne_zero hT.ne'
        rw [List.length_cons, Nat.succ_lt_succ_iff] at hlong
        rw [List.take_succ_cons, List.sum_cons, List.getD_cons_zero, List.drop_succ_cons]
        have hrest := List.card_nsmul_le_sum (us.take n) ((us.drop n).getD 0 0) fun t ht => ?_
        · rw [nsmul_eq_mul, List.length_take, Nat.min_eq_left (Nat.le_of_lt hlong)] at hrest
          rw [Nat.cast_succ, add_sub_cancel_right]
          linarith
        · have hdn : us.drop n ≠ [] := fun h => by
            rw [List.drop_eq_nil_iff] at h
            omega
          have hpair := (List.pairwise_cons.mp hsort).2
          rw [← List.take_append_drop n us, List.pairwise_append] at hpair
          exact hpair.2.2 t ht _ (getD_zero_mem hdn)
      rw [heads_drop hT, mul_add]
      linarith

end Field

end ListSchedule
