import PoseDB.Lib.Loop
import Mathlib.Data.Nat.Count
import Mathlib.Data.List.Range

/-!
# Counting sort

The ids `0, ..., count - 1` sorted by a key: `start k` is the place where the ids of key `k` begin and `bucket k` lists
them in ascending order. The array code keeps the starts in one array (`histogram`, then `prefixSums`) and advances a
cursor for each key while it places the ids (`placeIds`): `countingSort_spec`.
-/

set_option autoImplicit false

namespace Bucket
open Loops

/-- How many of the first `n` ids have key `k`. -/
def size (key : Nat → Nat) (n k : Nat) : Nat := Nat.count (fun id => key id = k) n

/-- How many of the first `n` ids have a smaller key. -/
def start (key : Nat → Nat) (n k : Nat) : Nat := Nat.count (fun id => key id < k) n

/-- The ids of key `k`, in ascending order. -/
def bucket (key : Nat → Nat) (n k : Nat) : List Nat := (List.range n).filter fun id => key id = k

def place (key : Nat → Nat) (n id : Nat) : Nat := start key n (key id) + size key id (key id)

variable {key : Nat → Nat} {n k id id' : Nat}

theorem size_succ (key : Nat → Nat) (n k : Nat) : size key (n + 1) k = size key n k + if key n = k then 1 else 0 :=
  Nat.count_succ _ _

theorem size_lt (key : Nat → Nat) (hid : id < n) : size key id (key id) < size key n (key id) :=
  Nat.count_strict_mono (p := fun i => key i = key id) rfl hid

theorem start_zero (key : Nat → Nat) (n : Nat) : start key n 0 = 0 := by
  rw [start, Nat.count_iff_forall_not]
  exact fun _ _ => Nat.not_lt_zero _

theorem start_succ (key : Nat → Nat) (n k : Nat) : start key n (k + 1) = start key n k + size key n k := by
  induction n with
  | zero => rfl
  | succ n ih =>
    simp only [start, size, Nat.count_succ] at ih ⊢
    rw [ih]
    split <;> split <;> split <;> omega

theorem start_mono (key : Nat → Nat) (n : Nat) {k' : Nat} (h : k ≤ k') : start key n k ≤ start key n k' :=
  Nat.count_mono_left fun _ _ hk => lt_of_lt_of_le hk h

theorem start_top (h : ∀ id < n, key id < k) : start key n k = n := Nat.count_iff_forall.mpr h

theorem place_lt (key : Nat → Nat) (hid : id < n) : place key n id < start key n (key id + 1) := by
  have := size_lt key hid
  rw [place, start_succ]
  omega

theorem place_inj (hid : id < n) (hid' : id' < n) (h : place key n id = place key n id') : id = id' := by
  have key_le : ∀ a < n, ∀ b < n, place key n a = place key n b → key a ≤ key b := fun a _ b hb hab => by
    by_contra hlt
    have h1 := place_lt key hb
    have h2 := start_mono key n (show key b + 1 ≤ key a by omega)
    have h3 : start key n (key a) ≤ place key n a := Nat.le_add_right _ _
    omega
  have hkey := Nat.le_antisymm (key_le _ hid _ hid' h) (key_le _ hid' _ hid h.symm)
  rw [place, place, hkey, Nat.add_left_cancel_iff] at h
  exact Nat.count_injective (p := fun i => key i = key id') hkey rfl h

/-! ## Buckets -/

theorem mem_bucket : id ∈ bucket key n k ↔ id < n ∧ key id = k := by
  rw [bucket, List.mem_filter, List.mem_range, decide_eq_true_eq]

theorem nodup_bucket (key : Nat → Nat) (n k : Nat) : (bucket key n k).Nodup := List.nodup_range.filter _

theorem bucket_succ (key : Nat → Nat) (n k : Nat) :
    bucket key (n + 1) k = bucket key n k ++ if key n = k then [n] else [] := by
  rw [bucket, List.range_succ, List.filter_append]
  congr 1
  by_cases h : key n = k
  · rw [if_pos h, List.filter_singleton, decide_eq_true h]; rfl
  · rw [if_neg h, List.filter_singleton, decide_eq_false h]; rfl

theorem length_bucket (key : Nat → Nat) (n k : Nat) : (bucket key n k).length = size key n k := by
  induction n with
  | zero => rfl
  | succ n ih =>
    rw [bucket_succ, List.length_append, ih, size_succ]
    split <;> rfl

/-- Entry `j` of a bucket is preceded by `j` ids of its key. -/
theorem bucket_getElem {j : Nat} (hj : j < (bucket key n k).length) : size key (bucket key n k)[j] k = j := by
  induction n with
  | zero => cases hj
  | succ n ih =>
    simp only [bucket_succ] at hj ⊢
    by_cases hlt : j < (bucket key n k).length
    · rw [List.getElem_append_left hlt]
      exact ih hlt
    · rw [List.getElem_append_right (by omega)]
      rw [List.length_append] at hj
      split at hj
      · have hj' : j = (bucket key n k).length := by rw [List.length_singleton] at hj; omega
        rename_i hk
        subst hj'
        simp only [if_pos hk, Nat.sub_self, List.getElem_cons_zero]
        exact (length_bucket key n k).symm
      · rw [List.length_nil] at hj; omega

/-- An array that has every id in its place lists the buckets one after the other. -/
theorem order_bucket {order : Nat → Nat} (horder : ∀ id < n, order (place key n id) = id) {j : Nat}
    (hj : j < (bucket key n k).length) : order (start key n k + j) = (bucket key n k)[j] := by
  obtain ⟨hlt, hkey⟩ := mem_bucket.mp (List.getElem_mem hj)
  have hplace : place key n (bucket key n k)[j] = start key n k + j := by
    rw [place, hkey, bucket_getElem hj]
  rw [← hplace]
  exact horder _ hlt

/-- A loop over the places of a bucket is a loop over the bucket. -/
theorem loop_bucket {σ : Type*} {order : Nat → Nat} (horder : ∀ id < n, order (place key n id) = id)
    (f : Nat → σ → σ) (s : σ) :
    loop (size key n k) (fun j s => f (order (start key n k + j)) s) s =
      (bucket key n k).foldl (fun s id => f id s) s := by
  rw [← length_bucket]
  exact loop_eq_foldl f fun j hj => order_bucket horder hj

/-! ## The array code -/

/-- `for (id = 0; id < count; id++) start[key[id] + 1]++;` -/
def histogram (count : Nat) (key start : Nat → Nat) : Nat → Nat :=
  loop count (fun id s => Function.update s (key id + 1) (s (key id + 1) + 1)) start

/-- `for (i = 0; i < n; i++) start[i + 1] += start[i];` -/
def prefixSums (n : Nat) (start : Nat → Nat) : Nat → Nat :=
  loop n (fun i s => Function.update s (i + 1) (s (i + 1) + s i)) start

/-- `for (i = 0; i < n; i++) cur[i] = start[i];` -/
def cursors (n : Nat) (start cur : Nat → Nat) : Nat → Nat :=
  loop n (fun i c => Function.update c i (start i)) cur

/-- `for (id = 0; id < count; id++) order[cur[key[id]]++] = id;` -/
def placeIds (count : Nat) (key order cur : Nat → Nat) : (Nat → Nat) × (Nat → Nat) :=
  loop count (fun id (order, cur) =>
    (Function.update order (cur (key id)) id, Function.update cur (key id) (cur (key id) + 1))) (order, cur)

theorem histogram_spec (count : Nat) (key : Nat → Nat) :
    histogram count key (fun _ => 0) 0 = 0 ∧ ∀ k, histogram count key (fun _ => 0) (k + 1) = size key count k := by
  induction count with
  | zero => exact ⟨rfl, fun _ => rfl⟩
  | succ count ih =>
    obtain ⟨h0, hk⟩ := ih
    rw [histogram, loop_succ, ← histogram]
    refine ⟨by rw [Function.update_of_ne (Nat.succ_ne_zero _).symm, h0], fun k => ?_⟩
    rw [size_succ, ← hk k]
    by_cases h : key count = k
    · rw [if_pos h, h, Function.update_self]
    · rw [if_neg h, Function.update_of_ne (by omega)]; rfl

theorem prefixSums_spec {s : Nat → Nat} (h0 : s 0 = 0) (hs : ∀ k, s (k + 1) = size key n k) (L : Nat) :
    ∀ k ≤ L, prefixSums L s k = start key n k := by
  have hinv : (∀ k ≤ L, prefixSums L s k = start key n k) ∧ ∀ k, L < k → prefixSums L s k = s k := by
    induction L with
    | zero =>
      refine ⟨fun k hk => ?_, fun _ _ => rfl⟩
      obtain rfl : k = 0 := by omega
      rw [start_zero]
      exact h0
    | succ L ih =>
      obtain ⟨hlo, hhi⟩ := ih
      rw [prefixSums, loop_succ, ← prefixSums]
      refine ⟨fun k hk => ?_, fun k hk => ?_⟩
      · by_cases h : k = L + 1
        · subst h
          rw [Function.update_self, hhi _ (Nat.lt_succ_self L), hs, hlo L le_rfl, start_succ, Nat.add_comm]
        · rw [Function.update_of_ne h]
          exact hlo k (by omega)
      · rw [Function.update_of_ne (by omega)]
        exact hhi k (by omega)
  exact hinv.1

theorem cursors_spec {start cur : Nat → Nat} {n k : Nat} (hk : k < n) : cursors n start cur k = start k := by
  induction n with
  | zero => cases hk
  | succ n ih =>
    rw [cursors, loop_succ, ← cursors]
    by_cases h : k = n
    · rw [h, Function.update_self]
    · rw [Function.update_of_ne h]
      exact ih (by omega)

theorem placeIds_spec {order cur : Nat → Nat} (hcur : ∀ id < n, cur (key id) = start key n (key id)) :
    ∀ id < n, (placeIds n key order cur).1 (place key n id) = id := by
  have hinv : (∀ id < n, (placeIds n key order cur).1 (place key n id) = id) ∧
      ∀ id < n, (placeIds n key order cur).2 (key id) = start key n (key id) + size key n (key id) := by
    refine loop_inv (fun t (r : (Nat → Nat) × (Nat → Nat)) => (∀ id < t, r.1 (place key n id) = id) ∧
      ∀ id < n, r.2 (key id) = start key n (key id) + size key t (key id))
      ⟨fun _ h => absurd h (Nat.not_lt_zero _), hcur⟩ ?_
    rintro t ⟨order, cur⟩ ht ⟨horder, hcur⟩
    dsimp only at horder hcur
    have hpos : cur (key t) = place key n t := hcur t ht
    refine ⟨fun id hid => ?_, fun id hid => ?_⟩
    · show Function.update order (cur (key t)) t (place key n id) = id
      rw [hpos]
      rcases Nat.lt_succ_iff_lt_or_eq.mp hid with hlt | rfl
      · rw [Function.update_of_ne fun h => Nat.ne_of_lt hlt (place_inj (hlt.trans ht) ht h)]
        exact horder id hlt
      · rw [Function.update_self]
    · show Function.update cur (key t) (cur (key t) + 1) (key id) = _
      rw [size_succ]
      by_cases h : key t = key id
      · rw [if_pos h, ← h, Function.update_self, hcur t ht, Nat.add_assoc]
      · rw [if_neg h, Function.update_of_ne (Ne.symm h), hcur id hid, Nat.add_zero]
  exact hinv.1

/-- The starts, the sorted order and the cursors. -/
structure Sorted where
  start : Nat → Nat
  order : Nat → Nat
  cur : Nat → Nat

def countingSort (count L : Nat) (key order cur : Nat → Nat) : Sorted :=
  let start := histogram count key fun _ => 0
  let start := prefixSums L start
  let cur := cursors L start cur
  let (order, cur) := placeIds count key order cur
  ⟨start, order, cur⟩

/-- A sorted order of the first `n` ids, with starts for the keys below `L`. -/
structure Sorted.Sorts (r : Sorted) (n L : Nat) (key : Nat → Nat) : Prop where
  start : ∀ k ≤ L, r.start k = Bucket.start key n k
  order : ∀ id < n, r.order (place key n id) = id

/-- **Counting sort sorts.** -/
theorem countingSort_spec (order cur : Nat → Nat) {n L : Nat} (hkey : ∀ id < n, key id < L) :
    (countingSort n L key order cur).Sorts n L key := by
  obtain ⟨h0, hs⟩ := histogram_spec n key
  have hstart := prefixSums_spec h0 hs L
  refine ⟨hstart, placeIds_spec fun id hid => ?_⟩
  rw [cursors_spec (hkey id hid), hstart _ (Nat.le_of_lt (hkey id hid))]

section Sorts
variable {r : Sorted} {L : Nat} (h : r.Sorts n L key)
include h

theorem Sorted.Sorts.size {lv : Nat} (hlv : lv < L) : r.start (lv + 1) - r.start lv = Bucket.size key n lv := by
  rw [h.start _ hlv, h.start _ (Nat.le_of_lt hlv), start_succ]
  omega

theorem Sorted.Sorts.loop {σ : Type*} {lv : Nat} (hlv : lv < L) (f : Nat → σ → σ) (s : σ) :
    loop (r.start (lv + 1) - r.start lv) (fun i s => f (r.order (r.start lv + i)) s) s =
      (bucket key n lv).foldl (fun s id => f id s) s := by
  rw [h.size hlv, h.start lv (Nat.le_of_lt hlv)]
  exact loop_bucket h.order f s

/-- The loop over the first `i` places of a key. -/
theorem Sorted.Sorts.loop_take {σ : Type*} {lv i : Nat} (hlv : lv < L) (hi : i ≤ r.start (lv + 1) - r.start lv)
    (f : Nat → σ → σ) (s : σ) :
    Loops.loop i (fun i s => f (r.order (r.start lv + i)) s) s =
      ((bucket key n lv).take i).foldl (fun s id => f id s) s := by
  rw [h.size hlv, ← length_bucket] at hi
  have hlen : ((bucket key n lv).take i).length = i := by
    rw [List.length_take, Nat.min_eq_left hi]
  have hloop := loop_eq_foldl (l := (bucket key n lv).take i) (s := s) f
    (a := fun j => r.order (r.start lv + j)) fun j hj => by
      have hj' : j < (bucket key n lv).length := by omega
      rw [h.start lv (Nat.le_of_lt hlv), order_bucket h.order hj', List.getElem_take]
  rwa [hlen] at hloop

theorem Sorted.Sorts.order_perm (hkey : ∀ id < n, key id < L) :
    ((List.range n).map r.order).Perm (List.range n) := by
  have hplace : ∀ id < n, place key n id < n := fun id hid =>
    (place_lt key hid).trans_le ((start_mono key n (hkey id hid)).trans_eq (start_top hkey))
  have hinj : ((List.range n).map (place key n)).Nodup :=
    List.Nodup.map_on (fun a ha b hb => place_inj (List.mem_range.mp ha) (List.mem_range.mp hb)) List.nodup_range
  have hsub : (List.range n).map (place key n) ⊆ List.range n := fun x hx => by
    obtain ⟨id, hid, rfl⟩ := List.mem_map.mp hx
    exact List.mem_range.mpr (hplace id (List.mem_range.mp hid))
  -- the places are the numbers below `n` in some order, and the order inverts them
  have hperm : ((List.range n).map (place key n)).Perm (List.range n) :=
    (hinj.subperm hsub).perm_of_length_le (by rw [List.length_map])
  have hinv : ((List.range n).map (place key n)).map r.order = List.range n := by
    rw [List.map_map]
    conv_rhs => rw [← List.map_id (List.range n)]
    exact List.map_congr_left fun id hid => h.order id (List.mem_range.mp hid)
  have hmap := hperm.map r.order
  rw [hinv] at hmap
  exact hmap.symm

theorem Sorted.Sorts.entry {lv i : Nat} (hlv : lv < L) (hi : i < r.start (lv + 1) - r.start lv) :
    r.order (r.start lv + i) < n ∧ key (r.order (r.start lv + i)) = lv := by
  rw [h.size hlv, ← length_bucket] at hi
  rw [h.start lv (Nat.le_of_lt hlv), order_bucket h.order hi]
  exact mem_bucket.mp (List.getElem_mem hi)

theorem Sorted.Sorts.entry_inj {lv i j : Nat} (hlv : lv < L) (hi : i < r.start (lv + 1) - r.start lv)
    (hj : j < r.start (lv + 1) - r.start lv) (heq : r.order (r.start lv + i) = r.order (r.start lv + j)) : i = j := by
  rw [h.size hlv, ← length_bucket] at hi hj
  rw [h.start lv (Nat.le_of_lt hlv), order_bucket h.order hi, order_bucket h.order hj] at heq
  exact (nodup_bucket key n lv).getElem_inj_iff.mp heq

theorem Sorted.Sorts.order_flatMap (hkey : ∀ id < n, key id < L) :
    (List.range n).map r.order =
      (List.range L).flatMap fun lv => (List.range (r.start (lv + 1) - r.start lv)).map fun i => r.order (r.start lv + i) := by
  have hpre : ∀ l ≤ L, (List.range (r.start l)).map r.order = (List.range l).flatMap fun lv =>
      (List.range (r.start (lv + 1) - r.start lv)).map fun i => r.order (r.start lv + i) := by
    intro l hl
    induction l with
    | zero =>
      rw [h.start 0 (Nat.zero_le L), start_zero]
      rfl
    | succ l ih =>
      have hstart : r.start (l + 1) = r.start l + (r.start (l + 1) - r.start l) := by
        rw [h.size hl, h.start _ hl, h.start _ (Nat.le_of_lt hl), start_succ]
      rw [List.range_succ, List.flatMap_append, List.flatMap_singleton, ← ih (Nat.le_of_lt hl)]
      conv_lhs => rw [hstart, List.range_add, List.map_append, List.map_map]
      rfl
  rw [← hpre L le_rfl, h.start L le_rfl, start_top hkey]

theorem Sorted.Sorts.order_pairwise (hkey : ∀ id < n, key id < L) :
    ((List.range n).map r.order).Pairwise fun a b => key a ≤ key b ∧ a ≠ b := by
  rw [h.order_flatMap hkey, List.pairwise_flatMap]
  constructor
  · intro lv hlv
    have hlv := List.mem_range.mp hlv
    rw [List.pairwise_map]
    refine List.pairwise_lt_range.imp_of_mem fun hi hj hlt => ?_
    have hi := List.mem_range.mp hi
    have hj := List.mem_range.mp hj
    refine ⟨?_, fun heq => Nat.ne_of_lt hlt (h.entry_inj hlv hi hj heq)⟩
    rw [(h.entry hlv hi).2, (h.entry hlv hj).2]
  · refine List.pairwise_lt_range.imp_of_mem fun hp hq hlt a ha b hb => ?_
    obtain ⟨i, hi, rfl⟩ := List.mem_map.mp ha
    obtain ⟨j, hj, rfl⟩ := List.mem_map.mp hb
    have h1 := (h.entry (List.mem_range.mp hp) (List.mem_range.mp hi)).2
    have h2 := (h.entry (List.mem_range.mp hq) (List.mem_range.mp hj)).2
    refine ⟨by omega, fun heq => ?_⟩
    rw [heq] at h1
    omega

theorem Sorted.Sorts.exists_entry {id : Nat} (hid : id < n) (hkey : key id < L) :
    ∃ i < r.start (key id + 1) - r.start (key id), r.order (r.start (key id) + i) = id := by
  obtain ⟨i, hi, heq⟩ := List.mem_iff_getElem.mp (mem_bucket.mpr ⟨hid, rfl⟩ : id ∈ bucket key n (key id))
  refine ⟨i, ?_, ?_⟩
  · rwa [h.size hkey, ← length_bucket]
  · rw [h.start _ (Nat.le_of_lt hkey), order_bucket h.order hi]
    exact heq

end Sorts

end Bucket
