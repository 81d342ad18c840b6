import Mathlib.Algebra.Order.BigOperators.Group.List
import Mathlib.Data.Nat.BitIndices
import Mathlib.Tactic.Common

/-!
# Left-full trees over lists

In the tree over a list of leaves, the left subtree of a node takes the largest power of two of leaves that leaves at
least one to the right. `fold join l` is its value. The tree can be built layer by layer (`fold_pairs`), or from a
stack of full subtrees, as in a binary counter (`Forest`): merging follows the number of one bits (`Forest.merge`),
and rolling the stack up gives the tree (`Forest.roll`).
-/

set_option autoImplicit false

namespace LeftTree

/-! ## Where a tree is cut -/

/-- How many of `n` leaves are left of the root: the largest power of two below `n`. -/
def leftLen (n : Nat) : Nat := 2 ^ (n - 1).log2

theorem leftLen_pos (n : Nat) : 0 < leftLen n := Nat.two_pow_pos _

theorem leftLen_lt {n : Nat} (h : 2 ≤ n) : leftLen n < n := by
  have := Nat.log2_self_le (show n - 1 ≠ 0 by omega)
  unfold leftLen
  omega

theorem leftLen_eq {n j : Nat} (hlo : 2 ^ j < n) (hhi : n ≤ 2 ^ (j + 1)) : leftLen n = 2 ^ j := by
  have hpos := Nat.two_pow_pos j
  have hlog : (n - 1).log2 = j := (Nat.log2_eq_iff (by omega)).mpr ⟨by omega, by omega⟩
  rw [leftLen, hlog]

/-- A list of two or more is cut into a power of two and at most as many. -/
theorem exists_cut {α : Type*} {l : List α} (h : 2 ≤ l.length) :
    ∃ j a b, l = a ++ b ∧ a.length = 2 ^ j ∧ 0 < b.length ∧ b.length ≤ 2 ^ j := by
  have hlt := leftLen_lt h
  have hlog := Nat.lt_log2_self (n := l.length - 1)
  rw [Nat.pow_succ] at hlog
  refine ⟨(l.length - 1).log2, l.take (leftLen l.length), l.drop (leftLen l.length), (List.take_append_drop _ l).symm, ?_, ?_, ?_⟩
  · rw [List.length_take, Nat.min_eq_left (Nat.le_of_lt hlt)]
    rfl
  · rw [List.length_drop]
    omega
  · rw [List.length_drop]
    unfold leftLen
    omega

section Tree
variable {α : Type*} (join : α → α → α)

/-! ## Layers -/

/-- One layer of parents; a value without a partner is carried up. -/
def pairs : List α → List α
  | [] => []
  | [a] => [a]
  | a :: b :: l => join a b :: pairs l

variable {join}

theorem length_pairs (l : List α) : (pairs join l).length = (l.length + 1) / 2 := by
  induction l using pairs.induct with
  | case1 => simp [pairs]
  | case2 a => simp [pairs]
  | case3 a b l ih =>
    rw [pairs, List.length_cons, List.length_cons, List.length_cons, ih]
    omega

theorem pairs_append {a : List α} (ha : 2 ∣ a.length) (b : List α) : pairs join (a ++ b) = pairs join a ++ pairs join b := by
  induction a using pairs.induct with
  | case1 => rfl
  | case2 x => exact absurd ha (by simp)
  | case3 x y l ih =>
    rw [List.length_cons, List.length_cons] at ha
    rw [List.cons_append, List.cons_append, pairs, pairs, ih (by omega), List.cons_append]

theorem pairs_eq (d : α) (l : List α) :
    pairs join l = (List.range (l.length / 2)).map (fun i => join (l.getD (2 * i) d) (l.getD (2 * i + 1) d)) ++
      if l.length > 2 * (l.length / 2) then [l.getD (2 * (l.length / 2)) d] else [] := by
  induction l using pairs.induct with
  | case1 => simp [pairs]
  | case2 a => simp [pairs]
  | case3 a b l ih =>
    have hlen : (a :: b :: l).length / 2 = l.length / 2 + 1 := by
      rw [List.length_cons, List.length_cons]
      omega
    have hget : ∀ i, (a :: b :: l).getD (2 * (i + 1)) d = l.getD (2 * i) d := fun i => rfl
    have hget' : ∀ i, (a :: b :: l).getD (2 * (i + 1) + 1) d = l.getD (2 * i + 1) d := fun i => rfl
    have hodd : (a :: b :: l).length > 2 * (l.length / 2 + 1) ↔ l.length > 2 * (l.length / 2) := by
      rw [List.length_cons, List.length_cons]
      omega
    rw [pairs, ih, hlen, List.range_succ_eq_map, List.map_cons, List.map_map, hget, if_congr hodd rfl rfl, List.cons_append]
    simp only [Function.comp_def, Nat.succ_eq_add_one, hget, hget']
    rfl

/-! ## The value of a tree -/

variable [Inhabited α]

variable (join) in
def fold : List α → α
  | [] => default
  | [a] => a
  | a :: b :: l =>
    let k := leftLen (l.length + 2)
    join (fold ((a :: b :: l).take k)) (fold ((a :: b :: l).drop k))
termination_by l => l.length
decreasing_by
  · have := leftLen_lt (n := l.length + 2) (by omega)
    rw [List.length_take, List.length_cons, List.length_cons]
    omega
  · have := leftLen_pos (l.length + 2)
    rw [List.length_drop, List.length_cons, List.length_cons]
    omega

variable (join) in
def top (l : List α) : α × α := (fold join (l.take (leftLen l.length)), fold join (l.drop (leftLen l.length)))

theorem fold_eq_top {l : List α} (h : 2 ≤ l.length) : fold join l = join (top join l).1 (top join l).2 := by
  match l, h with
  | a :: b :: l, _ =>
    rw [fold]
    rfl

theorem top_append {j : Nat} {a b : List α} (ha : a.length = 2 ^ j) (hb : 0 < b.length) (hle : b.length ≤ 2 ^ j) :
    top join (a ++ b) = (fold join a, fold join b) := by
  have hlen : leftLen (a ++ b).length = a.length := by
    rw [List.length_append, ha]
    exact leftLen_eq (by omega) (by rw [Nat.pow_succ]; omega)
  rw [top, hlen, List.take_left, List.drop_left]

theorem fold_append {j : Nat} {a b : List α} (ha : a.length = 2 ^ j) (hb : 0 < b.length) (hle : b.length ≤ 2 ^ j) :
    fold join (a ++ b) = join (fold join a) (fold join b) := by
  have hpos := Nat.two_pow_pos j
  rw [fold_eq_top (by rw [List.length_append]; omega), top_append ha hb hle]

theorem fold_pairs {l : List α} (h : l ≠ []) : fold join (pairs join l) = fold join l := by
  induction hn : l.length using Nat.strong_induction_on generalizing l with
  | _ n ih =>
    match l, h with
    | [a], _ => rfl
    | [a, b], _ =>
      have hcut : fold join ([a] ++ [b]) = join (fold join [a]) (fold join [b]) :=
        fold_append (j := 0) rfl Nat.one_pos le_rfl
      rw [fold, fold] at hcut
      rw [pairs, pairs, fold]
      exact hcut.symm
    | x :: y :: z :: l, _ =>
      obtain ⟨j, a, b, hab, ha, hb, hle⟩ := exists_cut (l := x :: y :: z :: l) (by simp)
      have hlen := congrArg List.length hab
      simp only [List.length_append, List.length_cons] at hlen hn
      cases j with
      | zero => omega
      | succ j =>
        rw [Nat.pow_succ] at ha hle
        rw [hab, pairs_append (Dvd.intro_left _ ha.symm), fold_append (j := j + 1) ha hb (by rwa [Nat.pow_succ]),
          ← ih a.length (by omega) (List.ne_nil_of_length_pos (by omega)) rfl,
          ← ih b.length (by omega) (List.ne_nil_of_length_pos hb) rfl]
        exact fold_append (j := j) (by rw [length_pairs]; omega) (by rw [length_pairs]; omega) (by rw [length_pairs]; omega)

theorem top_pairs {l : List α} (h : 2 < l.length) : top join (pairs join l) = top join l := by
  obtain ⟨j, a, b, rfl, ha, hb, hle⟩ := exists_cut (Nat.le_of_lt h)
  rw [List.length_append] at h
  cases j with
  | zero => omega
  | succ j =>
    rw [top_append ha hb hle, ← fold_pairs (List.ne_nil_of_length_pos (show 0 < a.length by omega)),
      ← fold_pairs (List.ne_nil_of_length_pos hb)]
    rw [Nat.pow_succ] at ha hle
    rw [pairs_append (Dvd.intro_left _ ha.symm)]
    exact top_append (j := j) (by rw [length_pairs]; omega) (by rw [length_pairs]; omega) (by rw [length_pairs]; omega)

theorem top_pair (a b : α) : top join [a, b] = (a, b) := by
  have h : top join ([a] ++ [b]) = (fold join [a], fold join [b]) := top_append (j := 0) rfl Nat.one_pos le_rfl
  rw [fold, fold] at h
  exact h

/-! ## A row of nodes -/

variable (join) in
/-- `row` is a row of nodes of the tree over the leaves, of at most `d`, and of `d` if the tree is full and has as
many leaves. -/
structure Row (d : Nat) (leaves row : List α) : Prop where
  pos : 0 < row.length
  le : row.length ≤ d
  fold_eq : fold join row = fold join leaves
  top_eq : 2 ≤ leaves.length → 2 ≤ row.length ∧ top join row = top join leaves
  full : ∀ e, leaves.length = 2 ^ e → row.length = min (2 ^ e) d

theorem Row.refl {d : Nat} {leaves : List α} (hpos : 0 < leaves.length) (hle : leaves.length ≤ d) : Row join d leaves leaves :=
  ⟨hpos, hle, rfl, fun h => ⟨h, rfl⟩, fun _ he => by rw [← he, Nat.min_eq_left hle]⟩

theorem Row.eq_of_one {d : Nat} {leaves row : List α} (h : Row join d leaves row) (hone : leaves.length = 1) : row = leaves := by
  have hlen := h.full 0 hone
  have hpos := h.pos
  have hfold := h.fold_eq
  obtain ⟨a, rfl⟩ := List.length_eq_one_iff.mp hone
  obtain ⟨b, rfl⟩ := List.length_eq_one_iff.mp (show row.length = 1 by omega)
  rw [fold, fold] at hfold
  rw [hfold]

/-- The rows of two subtrees make a row of the tree: the parents of both. -/
theorem Row.parents {d i j : Nat} (hd : d = 2 ^ (i + 1)) (hij : i < j) {a b ra rb : List α} (ha : a.length = 2 ^ j)
    (hb : 0 < b.length) (hle : b.length ≤ 2 ^ j) (hra : Row join d a ra) (hrb : Row join d b rb) :
    Row join d (a ++ b) (pairs join (ra ++ rb)) := by
  have hdj : d ≤ 2 ^ j := hd ▸ Nat.pow_le_pow_right (by decide) hij
  have hd2 : d = 2 * 2 ^ i := by rw [hd, Nat.pow_succ, Nat.mul_comm]
  have hpos := Nat.two_pow_pos i
  have hlen : ra.length = 2 ^ (i + 1) := by rw [hra.full j ha, Nat.min_eq_right hdj, hd]
  have hrbpos := hrb.pos
  have hrble := hrb.le
  have hrow : (ra ++ rb).length = d + rb.length := by rw [List.length_append, hlen, hd]
  have hpairs : (pairs join (ra ++ rb)).length = (d + rb.length + 1) / 2 := by rw [length_pairs, hrow]
  refine ⟨by omega, by omega, ?_, fun _ => ⟨by omega, ?_⟩, fun e he => ?_⟩
  · rw [fold_pairs (List.ne_nil_of_length_pos (by omega)), fold_append hlen hrbpos (by omega), fold_append ha hb hle,
      hra.fold_eq, hrb.fold_eq]
  · rw [top_pairs (by omega), top_append hlen hrbpos (by omega), top_append ha hb hle, hra.fold_eq, hrb.fold_eq]
  · -- both sides are full
    rw [List.length_append, ha] at he
    have hlt : j < e := (Nat.pow_lt_pow_iff_right (by decide)).mp (by omega : 2 ^ j < 2 ^ e)
    have hge : 2 ^ (j + 1) ≤ 2 ^ e := Nat.pow_le_pow_right (by decide) hlt
    rw [Nat.pow_succ] at hge
    have hrb' : rb.length = d := by rw [hrb.full j (by omega), Nat.min_eq_right hdj]
    rw [hpairs, hrb', Nat.min_eq_right (by omega)]
    omega

/-! ## A stack of full subtrees -/

variable (join) in
/-- A stack of the values of full subtrees, the top first, with the exponents of their sizes; the leaves are those of
the subtrees from the bottom up. -/
inductive Forest : (leaves stack : List α) → (exps : List Nat) → Prop where
  | nil : Forest [] [] []
  | push {leaves stack l : List α} {exps : List Nat} {e : Nat} (h : Forest leaves stack exps) (hl : l.length = 2 ^ e) :
      Forest (leaves ++ l) (fold join l :: stack) (e :: exps)

/-- Sizes that get smaller to the top, where two may be equal. -/
def Loose : List Nat → Prop
  | [] => True
  | e :: exps => (∀ e' ∈ exps, e ≤ e') ∧ exps.Pairwise (· < ·)

theorem Loose.of_strict {exps : List Nat} (h : exps.Pairwise (· < ·)) : Loose exps := by
  cases exps with
  | nil => trivial
  | cons e exps =>
    obtain ⟨hlt, h⟩ := List.pairwise_cons.mp h
    exact ⟨fun e' he' => Nat.le_of_lt (hlt e' he'), h⟩

/-- Loose sizes are strict, or the two at the top are equal and add up to a size for the next place. -/
theorem Loose.cases {exps : List Nat} (h : Loose exps) :
    exps.Pairwise (· < ·) ∨ ∃ e exps', exps = e :: e :: exps' ∧ Loose ((e + 1) :: exps') := by
  match exps, h with
  | [], _ => exact .inl .nil
  | [e], _ => exact .inl (List.pairwise_singleton _ e)
  | e :: e' :: exps, ⟨hle, h⟩ =>
    obtain ⟨hlt, hexps⟩ := List.pairwise_cons.mp h
    rcases Nat.lt_or_eq_of_le (hle e' List.mem_cons_self) with hee' | rfl
    · refine .inl (List.pairwise_cons.mpr ⟨fun x hx => ?_, h⟩)
      rcases List.mem_cons.mp hx with rfl | hx
      · exact hee'
      · exact hee'.trans (hlt x hx)
    · exact .inr ⟨e, exps, rfl, hlt, hexps⟩

def total (exps : List Nat) : Nat := (exps.map (2 ^ ·)).sum

@[simp] theorem total_cons (e : Nat) (exps : List Nat) : total (e :: exps) = 2 ^ e + total exps := List.sum_cons

/-- There are at most as many one bits as sizes; strict sizes are the one bits. -/
theorem Loose.bits_le {exps : List Nat} (h : Loose exps) : (total exps).bitIndices.length ≤ exps.length := by
  induction hn : exps.length generalizing exps with
  | zero =>
    rw [List.length_eq_zero_iff.mp hn]
    decide
  | succ n ih =>
    rcases h.cases with hstrict | ⟨e, exps', rfl, h'⟩
    · rw [← hn, total, Nat.bitIndices_sum_map_two_pow hstrict.sortedLT]
    · have hsum : total (e :: e :: exps') = total ((e + 1) :: exps') := by
        rw [total_cons, total_cons, total_cons, Nat.pow_succ]
        omega
      have hlen : ((e + 1) :: exps').length = n := by
        rw [List.length_cons, List.length_cons] at hn
        rw [List.length_cons]
        omega
      rw [hsum]
      exact (ih h' hlen).trans (Nat.le_succ n)

theorem dvd_total {exps : List Nat} {s : Nat} (h : ∀ e ∈ exps, s ≤ e) : 2 ^ s ∣ total exps := by
  induction exps with
  | nil => exact Nat.dvd_zero _
  | cons e exps ih =>
    rw [total_cons]
    exact Nat.dvd_add (Nat.pow_dvd_pow 2 (h e List.mem_cons_self)) (ih fun e' he' => h e' (List.mem_cons_of_mem _ he'))

/-- Strict sizes are no smaller than a power of two that divides their sum. -/
theorem le_of_dvd_total {exps : List Nat} (hstrict : exps.Pairwise (· < ·)) {s : Nat} (hdvd : 2 ^ s ∣ total exps) :
    ∀ e ∈ exps, s ≤ e := by
  cases exps with
  | nil => exact fun e he => absurd he List.not_mem_nil
  | cons e exps =>
    obtain ⟨hlt, -⟩ := List.pairwise_cons.mp hstrict
    have hle : s ≤ e := by
      by_contra hes
      have hsum : 2 ^ (e + 1) ∣ 2 ^ e + total exps := by
        rw [← total_cons]
        exact (Nat.pow_dvd_pow 2 (Nat.lt_of_not_le hes)).trans hdvd
      have hself : 2 ^ (e + 1) ∣ 2 ^ e := (Nat.dvd_add_left (dvd_total hlt)).mp hsum
      exact absurd (Nat.pow_dvd_pow_iff_le_right'.mp hself) (by omega)
    intro e' he'
    rcases List.mem_cons.mp he' with rfl | he'
    · exact hle
    · exact hle.trans (Nat.le_of_lt (hlt e' he'))

/-- Strict sizes are all different, so that `n` of them add up to at least `2 ^ n - 1`. -/
theorem two_pow_length_le {exps : List Nat} {s : Nat} (hstrict : exps.Pairwise (· < ·)) (hle : ∀ e ∈ exps, s ≤ e) :
    2 ^ s * 2 ^ exps.length ≤ total exps + 2 ^ s := by
  induction exps generalizing s with
  | nil => exact Nat.le_of_eq (by rw [List.length_nil, Nat.pow_zero, Nat.mul_one]; exact (Nat.zero_add _).symm)
  | cons e exps ih =>
    obtain ⟨hlt, hstrict⟩ := List.pairwise_cons.mp hstrict
    obtain ⟨b, hb⟩ : ∃ b, 2 ^ exps.length * 2 = b + 1 := Nat.exists_eq_add_one.mpr (by have := Nat.two_pow_pos exps.length; omega)
    have h := ih hstrict hlt
    rw [Nat.pow_succ, Nat.mul_assoc, Nat.mul_comm 2, hb, Nat.mul_succ] at h
    have hmul := Nat.mul_le_mul_right b (Nat.pow_le_pow_right (n := 2) (by decide) (hle e List.mem_cons_self))
    rw [List.length_cons, Nat.pow_succ, hb, Nat.mul_succ, total_cons]
    omega

/-- A stack of loose sizes is no longer than the bits of their sum. -/
theorem Loose.length_le {exps : List Nat} (h : Loose exps) {d : Nat} (hd : total exps < 2 ^ d) : exps.length ≤ d := by
  cases exps with
  | nil => exact Nat.zero_le d
  | cons e exps =>
    have hpow := two_pow_length_le h.2 (s := 0) fun _ _ => Nat.zero_le _
    have hpos := Nat.two_pow_pos e
    rw [total_cons] at hd
    exact (Nat.pow_lt_pow_iff_right (a := 2) (by decide)).mp (by omega)

variable (join) in
/-- Merge the two values at the top until no more than `n` are left. -/
def mergeTo (n : Nat) : List α → List α
  | b :: a :: stack => if n < stack.length + 2 then mergeTo n (join a b :: stack) else b :: a :: stack
  | stack => stack
termination_by stack => stack.length

variable {leaves stack : List α} {exps : List Nat}

theorem Forest.length_leaves (h : Forest join leaves stack exps) : leaves.length = total exps := by
  induction h with
  | nil => rfl
  | push _ hl ih => rw [List.length_append, ih, hl, total_cons, Nat.add_comm]

theorem Forest.length_stack (h : Forest join leaves stack exps) : stack.length = exps.length := by
  induction h with
  | nil => rfl
  | push _ _ ih => rw [List.length_cons, List.length_cons, ih]

theorem Forest.pop {b : α} (h : Forest join leaves (b :: stack) exps) :
    ∃ l r e exps', leaves = l ++ r ∧ b = fold join r ∧ exps = e :: exps' ∧ r.length = 2 ^ e ∧ Forest join l stack exps' := by
  cases h with
  | @push leaves _ r exps e h hr => exact ⟨leaves, r, e, exps, rfl, rfl, rfl, hr, h⟩

/-- **Merging down to the number of one bits** makes the sizes strict. -/
theorem Forest.merge (h : Forest join leaves stack exps) (hloose : Loose exps) :
    ∃ exps', Forest join leaves (mergeTo join leaves.length.bitIndices.length stack) exps' ∧ exps'.Pairwise (· < ·) := by
  induction hn : exps.length generalizing stack exps with
  | zero =>
    obtain rfl := List.length_eq_zero_iff.mp hn
    cases h
    exact ⟨[], by rw [mergeTo]; exact .nil; simp, .nil⟩
  | succ n ih =>
    rcases hloose.cases with hstrict | ⟨e, exps', rfl, hloose'⟩
    · -- as many values as one bits
      have hbits : leaves.length.bitIndices.length = stack.length := by
        rw [h.length_leaves, total, Nat.bitIndices_sum_map_two_pow hstrict.sortedLT, h.length_stack]
      have hstop : mergeTo join leaves.length.bitIndices.length stack = stack := by
        rw [hbits]
        match stack with
        | [] => rw [mergeTo]; simp
        | [a] => rw [mergeTo]; simp
        | b :: a :: stack => rw [mergeTo, List.length_cons, List.length_cons, if_neg (Nat.lt_irrefl _)]
      exact ⟨exps, hstop.symm ▸ h, hstrict⟩
    · cases h with
      | @push leaves _ lb _ _ h hlb =>
        cases h with
        | @push leaves stack la _ _ h hla =>
          have hjoin : fold join (la ++ lb) = join (fold join la) (fold join lb) :=
            fold_append hla (by rw [hlb]; exact Nat.two_pow_pos e) (Nat.le_of_eq hlb)
          have hmerged : Forest join (leaves ++ la ++ lb) (join (fold join la) (fold join lb) :: stack) ((e + 1) :: exps') := by
            rw [List.append_assoc, ← hjoin]
            exact .push h (by rw [List.length_append, hla, hlb, Nat.pow_succ, Nat.mul_two])
          have hlt : (leaves ++ la ++ lb).length.bitIndices.length < stack.length + 2 := by
            rw [hmerged.length_leaves, h.length_stack]
            exact Nat.lt_succ_of_le hloose'.bits_le
          rw [mergeTo, if_pos hlt]
          exact ih hmerged hloose' (Nat.succ.inj hn)

/-- **A full subtree on the merged stack.** It is no larger than the ones below it if its size divides the number of
leaves. -/
theorem Forest.add (h : Forest join leaves stack exps) (hloose : Loose exps) {e : Nat} (hdvd : 2 ^ e ∣ leaves.length)
    {l : List α} (hl : l.length = 2 ^ e) :
    ∃ exps', Forest join (leaves ++ l) (fold join l :: mergeTo join leaves.length.bitIndices.length stack) (e :: exps') ∧
      Loose (e :: exps') := by
  obtain ⟨exps', hforest, hstrict⟩ := h.merge hloose
  rw [hforest.length_leaves] at hdvd
  exact ⟨exps', hforest.push hl, le_of_dvd_total hstrict hdvd, hstrict⟩

/-- **Rolling the stack up** from the value right of its top: the last node is the root of the tree over all leaves. -/
theorem Forest.roll {β : Type*} {node : α → α → β} {value : β → α} (hjoin : ∀ a b, join a b = value (node a b)) {a : α}
    (h : Forest join leaves (a :: stack) exps) (hstrict : exps.Pairwise (· < ·)) {r : List α} (hr : 0 < r.length)
    (hle : ∀ e ∈ exps, r.length ≤ 2 ^ e) :
    stack.foldl (fun o s => node s (value o)) (node a (fold join r)) =
      node (top join (leaves ++ r)).1 (top join (leaves ++ r)).2 := by
  generalize hs : a :: stack = s at h
  induction h generalizing a stack r with
  | nil => cases hs
  | @push leaves stack' l exps e h hl ih =>
    obtain ⟨rfl, rfl⟩ := List.cons.inj hs
    obtain ⟨hlt, hstrict⟩ := List.pairwise_cons.mp hstrict
    have hle' := hle e List.mem_cons_self
    rw [List.append_assoc]
    cases h with
    | nil =>
      rw [List.nil_append, top_append hl hr hle']
      rfl
    | push h hl' =>
      have hnode : value (node (fold join l) (fold join r)) = fold join (l ++ r) := by
        rw [← hjoin, fold_append hl hr hle']
      rw [List.foldl_cons, hnode]
      refine ih hstrict (by rw [List.length_append]; omega) (fun e' he' => ?_) rfl
      calc (l ++ r).length ≤ 2 ^ (e + 1) := by rw [List.length_append, hl, Nat.pow_succ]; omega
        _ ≤ 2 ^ e' := Nat.pow_le_pow_right (by decide) (hlt e' he')

end Tree

end LeftTree
