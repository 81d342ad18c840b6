import PoseDB.Calc.Plan
import PoseDB.Wipe.Disks

/-!
# The schedule of the bench and the one that is predicted

`main` of `disk_wipe_bench.cu` deals the sorted disks to the teams in turn, `lpt_schedule` of `disk_calc.py` gives each
to the least busy team. The makespans differ (`makespan_ne`). **`bench_makespan`**: the bench takes as long as every
`T`-th disk in a row, which is never less than predicted and less than twice that, and as predicted when only the last
round has disks of different sizes.
-/

set_option autoImplicit false

namespace PoseDB.Calc
open ListSchedule Wipe

def wipeLenOf (disks : List OpenDisk) (di : Nat) : Nat :=
  match disks[di]? with
  | some d => d.wipeLen
  | none => 0

/-- What `std::sort` leaves in `order`: every disk once, by decreasing length. -/
structure SortedOrder (disks : List OpenDisk) (order : List Nat) : Prop where
  perm : order.Perm (List.range disks.length)
  sorted : order.Pairwise fun a b => wipeLenOf disks a ≥ wipeLenOf disks b

/-- The busy seconds of the teams of the bench, at one rate. -/
def benchBusy (T : Nat) (disks : List OpenDisk) (order : List Nat) (rate : ℚ) : List ℚ :=
  (List.range T).map fun t => ((teamDisks T order t).map fun di => (wipeLenOf disks di : ℚ) / rate).sum

/-- The sizes that the calculator is given for these disks. -/
def benchSizes (disks : List OpenDisk) : List ℚ := disks.map fun d => (d.wipeLen : ℚ)

/-! ## The sorted sizes -/

section Sorted
variable {disks : List OpenDisk} {order : List Nat} {rate : ℚ}

theorem map_wipeLenOf (disks : List OpenDisk) :
    (List.range disks.length).map (fun di => (wipeLenOf disks di : ℚ)) = benchSizes disks := by
  unfold benchSizes
  apply List.ext_getElem
  · rw [List.length_map, List.length_map, List.length_range]
  · intro i h _
    rw [List.length_map, List.length_range] at h
    rw [List.getElem_map, List.getElem_map, List.getElem_range, wipeLenOf, List.getElem?_eq_getElem h]

/-- Both programs see the sizes in the same order, whatever the order of equal disks. -/
theorem SortedOrder.map_eq (h : SortedOrder disks order) :
    order.map (fun di => (wipeLenOf disks di : ℚ)) = (benchSizes disks).insertionSort (· ≥ ·) := by
  have hperm : (order.map fun di => (wipeLenOf disks di : ℚ)).Perm (benchSizes disks) := by
    rw [← map_wipeLenOf]
    exact h.perm.map _
  have hsorted : (order.map fun di => (wipeLenOf disks di : ℚ)).Pairwise (· ≥ ·) := by
    rw [List.pairwise_map]
    exact h.sorted.imp fun hab => by exact_mod_cast hab
  exact (hperm.trans (List.perm_insertionSort _ _).symm).eq_of_pairwise' hsorted (List.pairwise_insertionSort _ _)

def sortedTimes (disks : List OpenDisk) (rate : ℚ) : List ℚ :=
  ((benchSizes disks).insertionSort (· ≥ ·)).map (· / rate)

theorem SortedOrder.times_eq (h : SortedOrder disks order) (rate : ℚ) :
    order.map (fun di => (wipeLenOf disks di : ℚ) / rate) = sortedTimes disks rate := by
  rw [sortedTimes, ← h.map_eq, List.map_map]
  rfl

theorem sortedTimes_nonneg (hrate : 0 < rate) : ∀ t ∈ sortedTimes disks rate, 0 ≤ t := by
  intro t ht
  obtain ⟨z, hz, rfl⟩ := List.mem_map.mp ht
  obtain ⟨d, -, rfl⟩ := List.mem_map.mp ((List.mem_insertionSort _).mp hz)
  exact div_nonneg (Nat.cast_nonneg _) hrate.le

theorem sortedTimes_sorted (hrate : 0 < rate) : (sortedTimes disks rate).Pairwise (· ≥ ·) := by
  unfold sortedTimes
  rw [List.pairwise_map]
  exact (List.pairwise_insertionSort (· ≥ ·) _).imp fun hab => div_le_div_of_nonneg_right hab hrate.le

end Sorted

/-! ## Dealing -/

/-- The sum of the entries at the places `t`, `t + T`, and so on. -/
def every (T t : Nat) (ts : List ℚ) : ℚ := ∑ j ∈ Finset.range ts.length, ts.getD (j * T + t) 0

theorem sum_filter_eq_every {T t : Nat} (ht : t < T) (ts : List ℚ) :
    ∑ i ∈ (Finset.range ts.length).filter (fun i => i % T = t), ts.getD i 0 = every T t ts := by
  have hT : 0 < T := Nat.zero_lt_of_lt ht
  have hterms : every T t ts =
      ∑ j ∈ (Finset.range ts.length).filter (fun j => j * T + t < ts.length), ts.getD (j * T + t) 0 := by
    refine (Finset.sum_filter_of_ne fun j _ hj => ?_).symm
    by_contra hlong
    exact hj (getD_eq_zero (not_lt.mp hlong))
  rw [hterms]
  · refine Finset.sum_nbij' (fun i => i / T) (fun j => j * T + t) ?_ ?_ ?_ ?_ ?_
    · intro i hi
      rw [Finset.mem_filter, Finset.mem_range] at hi
      have hdiv := Nat.div_add_mod' i T
      have hle := Nat.div_le_self i T
      rw [Finset.mem_filter, Finset.mem_range]
      omega
    · intro j hj
      rw [Finset.mem_filter, Finset.mem_range] at hj
      rw [Finset.mem_filter, Finset.mem_range, Nat.mul_comm, Nat.mul_add_mod, Nat.mod_eq_of_lt ht, Nat.mul_comm]
      exact ⟨hj.2, rfl⟩
    · intro i hi
      rw [Finset.mem_filter] at hi
      have hdiv := Nat.div_add_mod' i T
      omega
    · intro j _
      rw [Nat.mul_comm, Nat.mul_add_div hT, Nat.div_eq_of_lt ht, Nat.add_zero]
    · intro i hi
      rw [Finset.mem_filter] at hi
      rw [← hi.2, Nat.div_add_mod']

theorem sum_map_filter (p : Nat → Bool) (f : Nat → ℚ) (n : Nat) :
    (((List.range n).filter p).map f).sum = ∑ i ∈ (Finset.range n).filter (fun i => p i = true), f i := by
  induction n with
  | zero => rfl
  | succ n ih =>
      rw [List.range_succ, List.filter_append, List.map_append, List.sum_append, ih, Finset.range_add_one,
        Finset.filter_insert]
      by_cases hn : p n = true
      · rw [if_pos hn, Finset.sum_insert (by simp), List.filter_cons_of_pos hn]
        simp [add_comm]
      · rw [if_neg hn, List.filter_cons_of_neg hn]
        simp

theorem benchBusy_team {T t : Nat} (ht : t < T) {disks : List OpenDisk} {order : List Nat}
    (h : SortedOrder disks order) (rate : ℚ) :
    ((teamDisks T order t).map fun di => (wipeLenOf disks di : ℚ) / rate).sum = every T t (sortedTimes disks rate) := by
  rw [teamDisks_eq, List.map_map, sum_map_filter, ← sum_filter_eq_every ht, ← h.times_eq, List.length_map]
  refine Finset.sum_congr ?_ fun i hi => ?_
  · exact Finset.filter_congr fun i _ => by rw [decide_eq_true_eq]
  · rw [Finset.mem_filter, Finset.mem_range] at hi
    rw [List.getD_eq_getElem _ _ (by rw [List.length_map]; exact hi.1), List.getElem_map, Function.comp_apply,
      List.getD_eq_getElem _ _ hi.1]

theorem every_le_heads {T t : Nat} {ts : List ℚ} (hsort : ts.Pairwise (· ≥ ·)) (hts : ∀ x ∈ ts, 0 ≤ x) :
    every T t ts ≤ heads T ts := by
  refine Finset.sum_le_sum fun j _ => ?_
  by_cases hlong : ts.length ≤ j * T + t
  · rw [getD_eq_zero hlong]
    by_cases hshort : j * T < ts.length
    · rw [List.getD_eq_getElem _ _ hshort]
      exact hts _ (List.getElem_mem _)
    · rw [getD_eq_zero (not_lt.mp hshort)]
  · rw [List.getD_eq_getElem _ _ (by omega), List.getD_eq_getElem _ _ (by omega)]
    exact hsort.sortedGE.getElem_ge_getElem_of_le (Nat.le_add_right _ _)

/-- **The makespan of the bench** is the load of the first team: every `T`-th disk. -/
theorem makespan_benchBusy {T : Nat} (hT : 0 < T) {disks : List OpenDisk} {order : List Nat}
    (h : SortedOrder disks order) {rate : ℚ} (hrate : 0 < rate) :
    makespan (benchBusy T disks order rate) = heads T (sortedTimes disks rate) := by
  have hzero : heads T (sortedTimes disks rate) ∈ benchBusy T disks order rate :=
    List.mem_map.mpr ⟨0, List.mem_range.mpr hT, benchBusy_team hT h rate⟩
  refine le_antisymm ((makespan_le_iff (List.ne_nil_of_mem hzero)).mpr fun y hy => ?_) (le_makespan hzero)
  obtain ⟨t, ht, rfl⟩ := List.mem_map.mp hy
  rw [benchBusy_team (List.mem_range.mp ht) h]
  exact every_le_heads (sortedTimes_sorted hrate) (sortedTimes_nonneg hrate)

/-! ## Bench and prediction -/

/-- The teams have the same work as the list schedule, and no team has more than the makespan. -/
theorem lpt_bounds {T : Nat} (hT : 0 < T) {disks : List OpenDisk} {rate : ℚ} (hrate : 0 < rate) :
    (sortedTimes disks rate).sum ≤ T * (lptSchedule (benchSizes disks) T rate).1 ∧
      (sortedTimes disks rate).getD 0 0 ≤ (lptSchedule (benchSizes disks) T rate).1 := by
  have hlpt : (lptSchedule (benchSizes disks) T rate).1 = makespan (schedule T (sortedTimes disks rate)) := rfl
  have hnonneg : ∀ t ∈ sortedTimes disks rate, 0 ≤ t := sortedTimes_nonneg hrate
  have hne := replicate_ne_nil (α := ℚ) hT
  rw [hlpt]
  constructor
  · have hsum := sum_le_length_mul_makespan (schedule T (sortedTimes disks rate))
    rwa [sum_schedule hT, length_schedule] at hsum
  · cases hts : sortedTimes disks rate with
    | nil =>
        rw [getD_eq_zero (Nat.zero_le _)]
        exact nonneg_schedule hT (fun t ht => by cases ht) _ (makespan_mem (schedule_ne_nil hT []))
    | cons t ts =>
        rw [hts] at hnonneg
        have hends := le_finishTimes hne (fun _ hy => (List.eq_of_mem_replicate hy).ge) hnonneg
        rw [finishTimes, List.forall₂_cons] at hends
        exact hends.1.trans (finishTimes_le_makespan hne hnonneg _ List.mem_cons_self)

/-- **The bench takes as long as every `T`-th disk in a row**: never less than predicted, less than twice as long, and
as long as predicted where only the last round has disks of different sizes. -/
theorem bench_makespan (cfg : Config) (disks : Disks cfg) (T : Nat) (order : List Nat) (rate : ℚ) (hT : 0 < T)
    (horder : SortedOrder disks.list order) (hrate : 0 < rate) :
    let bench := makespan (benchBusy T disks.list order rate)
    let predicted := (lptSchedule (benchSizes disks.list) T rate).1
    let sorted := (benchSizes disks.list).insertionSort (· ≥ ·)
    bench = heads T (sorted.map (· / rate)) ∧ predicted ≤ bench ∧ T * bench ≤ (2 * T - 1) * predicted ∧
      (EvenRounds T sorted → bench = predicted) := by
  have hsort : (sortedTimes disks.list rate).Pairwise (· ≥ ·) := sortedTimes_sorted hrate
  have hnonneg : ∀ t ∈ sortedTimes disks.list rate, 0 ≤ t := sortedTimes_nonneg hrate
  have hbench := makespan_benchBusy hT horder hrate
  have hlpt : (lptSchedule (benchSizes disks.list) T rate).1 = makespan (schedule T (sortedTimes disks.list rate)) := rfl
  obtain ⟨hsum, hfirst⟩ : _ ∧ (sortedTimes disks.list rate).getD 0 0 ≤ _ := lpt_bounds hT hrate
  refine ⟨hbench, ?_, ?_, fun heven => ?_⟩
  · rw [hbench, hlpt]
    exact makespan_le_heads hT hsort hnonneg
  · rw [hbench]
    have hheads := mul_heads_le hT hsort hnonneg
    have hT1 : (0 : ℚ) ≤ T - 1 := by
      have h : (1 : ℚ) ≤ T := by exact_mod_cast hT
      linarith
    have hmul := mul_le_mul_of_nonneg_left hfirst hT1
    linarith
  · rw [hbench, hlpt]
    refine (makespan_eq_heads hT hsort hnonneg fun j hj => ?_).symm
    unfold sortedTimes at hj ⊢
    rw [List.length_map] at hj
    have hround := heven j hj
    have hmap : ∀ i, (((benchSizes disks.list).insertionSort (· ≥ ·)).map (· / rate)).getD i 0 =
        ((benchSizes disks.list).insertionSort (· ≥ ·)).getD i 0 / rate := by
      intro i
      conv_lhs => rw [← zero_div rate]
      exact List.getD_map _ 0 (· / rate)
    rw [hmap, hmap, hround]

/-! ## Three disks and two teams -/

def threeDisks : Disks mibConfig where
  list := [⟨3, 5 * mibConfig.superBytes⟩, ⟨4, 3 * mibConfig.superBytes⟩, ⟨5, 3 * mibConfig.superBytes⟩]
  fds := by decide
  whole := by decide
  total := by decide

theorem threeDisks_sorted : SortedOrder threeDisks.list [0, 1, 2] := ⟨by decide, by decide⟩

/-- With two teams the first one gets the disks of 5 and of 3 super-chunks; with three teams each gets one disk. -/
theorem bench_makespan_three :
    let bench := makespan (benchBusy 2 threeDisks.list [0, 1, 2] 1)
    let predicted := (lptSchedule (benchSizes threeDisks.list) 2 1).1
    bench = 8 * mibConfig.superBytes ∧ predicted ≤ bench ∧ 2 * bench ≤ 3 * predicted ∧
      makespan (benchBusy 3 threeDisks.list [0, 1, 2] 1) = (lptSchedule (benchSizes threeDisks.list) 3 1).1 := by
  obtain ⟨hheads, hle, hbound, -⟩ := bench_makespan mibConfig threeDisks 2 [0, 1, 2] 1 (by decide) threeDisks_sorted one_pos
  obtain ⟨-, -, -, heven⟩ := bench_makespan mibConfig threeDisks 3 [0, 1, 2] 1 (by decide) threeDisks_sorted one_pos
  refine ⟨hheads.trans (by decide +kernel), hle, ?_, heven fun j hj => absurd hj ?_⟩
  · norm_num at hbound
    exact hbound
  · rw [List.length_insertionSort]
    exact not_lt_of_ge (Nat.le_mul_of_pos_left 3 (Nat.succ_pos j))

/-- The bench gives the first team 5 + 3 super-chunks, `lpt_schedule` gives the second one 3 + 3. -/
theorem makespan_ne : ¬∀ (cfg : Config) (disks : Disks cfg) (T : Nat) (order : List Nat) (rate : ℚ), 0 < T →
    SortedOrder disks.list order → 0 < rate →
      makespan (benchBusy T disks.list order rate) = (lptSchedule (benchSizes disks.list) T rate).1 := by
  intro hall
  exact absurd (hall mibConfig threeDisks 2 [0, 1, 2] 1 (by decide) threeDisks_sorted one_pos) (by decide +kernel)

end PoseDB.Calc
