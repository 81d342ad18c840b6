import Mathlib.Data.List.Range
import Mathlib.Data.List.Nodup
import Mathlib.Logic.Function.Basic
import Mathlib.Tactic.Common

/-!
# Slot pools

A pool hands out slots from a stack of free ones and grows only when the stack is empty. `Pool.Holds live` says that
the slots of the live ids and the free slots are together exactly the slots `0, ..., next - 1`, each once, so live ids
have different slots. `runLevels` allocates the ids born at a level before it releases the ids that die at it; then two
ids alive at a common level have different slots (`runLevels_safe`), and the pool is as large as the largest set of ids
alive at one level (`runLevels_next`).
-/

set_option autoImplicit false

namespace SlotPool

/-- The slot given to every id, the free slots (last released first), and the number of slots made so far. -/
structure Pool where
  slot : Nat → Nat
  free : List Nat
  next : Nat

namespace Pool

def alloc (p : Pool) (id : Nat) : Pool :=
  match p.free with
  | s :: free => ⟨Function.update p.slot id s, free, p.next⟩
  | [] => ⟨Function.update p.slot id p.next, [], p.next + 1⟩

def release (p : Pool) (id : Nat) : Pool := { p with free := p.slot id :: p.free }

/-- The ids of `live` have their slots, all others are free. -/
def Holds (p : Pool) (live : List Nat) : Prop := (live.map p.slot ++ p.free).Perm (List.range p.next)

variable {p : Pool} {live live' l : List Nat} {id : Nat}

theorem alloc_slot (p : Pool) {id x : Nat} (hx : x ≠ id) : (p.alloc id).slot x = p.slot x := by
  rw [alloc]
  split <;> exact Function.update_of_ne hx _ _

theorem next_le_alloc (p : Pool) (id : Nat) : p.next ≤ (p.alloc id).next := by
  rw [alloc]
  split
  · exact le_rfl
  · exact Nat.le_succ _

theorem map_alloc_slot (hid : id ∉ live) : live.map (p.alloc id).slot = live.map p.slot :=
  List.map_congr_left fun _ hx => p.alloc_slot fun h => hid (h ▸ hx)

theorem Holds.perm (h : p.Holds live) (hl : live'.Perm live) : p.Holds live' :=
  ((hl.map p.slot).append_right p.free).trans h

theorem Holds.alloc (h : p.Holds live) (hid : id ∉ live) : (p.alloc id).Holds (id :: live) := by
  rw [Holds, List.map_cons, map_alloc_slot hid]
  rw [Holds] at h
  cases hf : p.free with
  | nil =>
    rw [hf, List.append_nil] at h
    simp only [Pool.alloc, hf, Function.update_self, List.append_nil]
    rw [List.range_succ]
    exact (List.perm_append_singleton _ _).symm.trans (h.append_right _)
  | cons s free =>
    rw [hf] at h
    simp only [Pool.alloc, hf, Function.update_self]
    exact List.perm_middle.symm.trans h

theorem Holds.release (h : p.Holds (id :: live)) : (p.release id).Holds live :=
  List.perm_middle.trans h

theorem Holds.slot_ne (h : p.Holds live) {a b : Nat} (ha : a ∈ live) (hb : b ∈ live) (hab : a ≠ b) :
    p.slot a ≠ p.slot b := by
  have hnd : (live.map p.slot).Nodup := (h.nodup_iff.mpr List.nodup_range).of_append_left
  exact fun hs => hab (List.inj_on_of_nodup_map hnd ha hb hs)

theorem Holds.slot_lt (h : p.Holds live) (hid : id ∈ live) : p.slot id < p.next :=
  List.mem_range.mp (h.mem_iff.mp (List.mem_append_left _ (List.mem_map_of_mem hid)))

/-! ## Several ids -/

def allocAll (p : Pool) (l : List Nat) : Pool := l.foldl alloc p

def releaseAll (p : Pool) (l : List Nat) : Pool := l.foldl release p

theorem allocAll_slot {x : Nat} (hx : x ∉ l) : (p.allocAll l).slot x = p.slot x := by
  induction l generalizing p with
  | nil => rfl
  | cons y l ih =>
    obtain ⟨hxy, hxl⟩ := not_or.mp (List.mem_cons.not.mp hx)
    exact (ih hxl).trans (p.alloc_slot hxy)

theorem next_le_allocAll (p : Pool) (l : List Nat) : p.next ≤ (p.allocAll l).next := by
  induction l generalizing p with
  | nil => exact le_rfl
  | cons y l ih => exact (p.next_le_alloc y).trans (ih (p.alloc y))

theorem releaseAll_next (p : Pool) (l : List Nat) : (p.releaseAll l).next = p.next := by
  induction l generalizing p with
  | nil => rfl
  | cons y l ih => exact ih (p.release y)

theorem releaseAll_slot (p : Pool) (l : List Nat) : (p.releaseAll l).slot = p.slot := by
  induction l generalizing p with
  | nil => rfl
  | cons y l ih => exact ih (p.release y)

theorem Holds.allocAll (h : p.Holds live) (hl : l.Nodup) (hdisj : ∀ x ∈ l, x ∉ live) :
    (p.allocAll l).Holds (l ++ live) := by
  induction l generalizing p live with
  | nil => exact h
  | cons x l ih =>
    obtain ⟨hx, hl⟩ := List.nodup_cons.mp hl
    refine (ih (h.alloc (hdisj x List.mem_cons_self)) hl fun y hy hmem => ?_).perm List.perm_middle.symm
    rcases List.mem_cons.mp hmem with rfl | hmem
    · exact hx hy
    · exact hdisj y (List.mem_cons_of_mem x hy) hmem

theorem Holds.releaseAll (h : p.Holds (l ++ live)) : (p.releaseAll l).Holds live := by
  induction l generalizing p with
  | nil => exact h
  | cons x l ih => exact ih h.release

end Pool

/-! ## Level by level -/

section Levels
variable {n : Nat} {born dies : Nat → Nat}

/-- The ids that are alive across the start of level `lv`. -/
def across (n : Nat) (born dies : Nat → Nat) (lv : Nat) : List Nat :=
  (List.range n).filter fun id => born id < lv ∧ lv ≤ dies id

theorem mem_across {lv id : Nat} : id ∈ across n born dies lv ↔ id < n ∧ born id < lv ∧ lv ≤ dies id := by
  rw [across, List.mem_filter, List.mem_range, decide_eq_true_eq]

/-- What one level does: `births` lists the ids born at it, `deaths` those that die. -/
structure IsLevel (n : Nat) (born dies : Nat → Nat) (lv : Nat) (births deaths : List Nat) : Prop where
  births_nodup : births.Nodup
  deaths_nodup : deaths.Nodup
  mem_births : ∀ id, id ∈ births ↔ id < n ∧ born id = lv
  mem_deaths : ∀ id, id ∈ deaths ↔ id < n ∧ dies id = lv

/-- The ids born at a level and those alive across its start are the ones that die at it and those alive across the
start of the next. -/
theorem IsLevel.perm {lv : Nat} {births deaths : List Nat} (h : IsLevel n born dies lv births deaths)
    (hle : ∀ id < n, born id ≤ dies id) :
    (deaths ++ across n born dies (lv + 1)).Perm (births ++ across n born dies lv) := by
  refine (List.perm_ext_iff_of_nodup ?_ ?_).mpr fun id => ?_
  · refine h.deaths_nodup.append (List.nodup_range.filter _) fun id hd ha => ?_
    have := ((h.mem_deaths id).mp hd).2
    have := (mem_across.mp ha).2.2
    omega
  · refine h.births_nodup.append (List.nodup_range.filter _) fun id hb ha => ?_
    have := ((h.mem_births id).mp hb).2
    have := (mem_across.mp ha).2.1
    omega
  · rw [List.mem_append, List.mem_append, h.mem_births, h.mem_deaths, mem_across, mem_across]
    constructor
    · rintro (⟨hid, hd⟩ | ⟨hid, hb, hd⟩) <;> have := hle id hid <;> omega
    · rintro (⟨hid, hb⟩ | ⟨hid, hb, hd⟩) <;> have := hle id hid <;> omega

/-- A level allocates its births, then releases its deaths. -/
def runLevels (births deaths : Nat → List Nat) (p : Pool) : Nat → Pool
  | 0 => p
  | L + 1 => ((runLevels births deaths p L).allocAll (births L)).releaseAll (deaths L)

/-- **Ids that are alive at a common level have different slots.** -/
theorem runLevels_safe (births deaths : Nat → List Nat) (slot : Nat → Nat) {L : Nat}
    (hlevel : ∀ lv < L, IsLevel n born dies lv (births lv) (deaths lv)) (hle : ∀ id < n, born id ≤ dies id) :
    let p := runLevels births deaths ⟨slot, [], 0⟩ L
    p.Holds (across n born dies L) ∧ (∀ id < n, born id < L → p.slot id < p.next) ∧
      ∀ a < n, ∀ b < n, a ≠ b → born a < L → born b < L → born a ≤ dies b → born b ≤ dies a →
        p.slot a ≠ p.slot b := by
  induction L with
  | zero =>
    refine ⟨?_, fun _ _ h => absurd h (Nat.not_lt_zero _), fun _ _ _ _ _ h => absurd h (Nat.not_lt_zero _)⟩
    have hnil : across n born dies 0 = [] := List.eq_nil_iff_forall_not_mem.mpr fun id hid =>
      absurd (mem_across.mp hid).2.1 (Nat.not_lt_zero _)
    rw [hnil]
    exact List.Perm.refl _
  | succ L ih =>
    obtain ⟨hholds, hlt, hsafe⟩ := ih fun lv hlv => hlevel lv (Nat.lt_succ_of_lt hlv)
    have hL := hlevel L (Nat.lt_succ_self L)
    revert hholds hlt hsafe
    rw [runLevels]
    generalize runLevels births deaths ⟨slot, [], 0⟩ L = p
    intro hholds hlt hsafe
    have halloc : (p.allocAll (births L)).Holds (births L ++ across n born dies L) :=
      hholds.allocAll hL.births_nodup fun id hb ha => by
        have := ((hL.mem_births id).mp hb).2
        have := (mem_across.mp ha).2.1
        omega
    have hold : ∀ id, born id < L → (p.allocAll (births L)).slot id = p.slot id := fun id hid =>
      Pool.allocAll_slot fun hb => by
        have := ((hL.mem_births id).mp hb).2
        omega
    have hlive : ∀ id < n, born id ≤ L → L ≤ dies id → id ∈ births L ++ across n born dies L :=
      fun id hid hb hd => by
        rw [List.mem_append, hL.mem_births, mem_across]
        omega
    have hrel := Pool.Holds.releaseAll (l := deaths L) (halloc.perm (hL.perm hle))
    refine ⟨hrel, fun id hid hb => ?_, fun a ha b hb hab ha' hb' h1 h2 => ?_⟩
    · rw [Pool.releaseAll_slot, Pool.releaseAll_next]
      by_cases hbL : born id < L
      · rw [hold id hbL]
        exact (hlt id hid hbL).trans_le (p.next_le_allocAll _)
      · exact halloc.slot_lt (hlive id hid (by omega) (by have := hle id hid; omega))
    · simp only [Pool.releaseAll_slot]
      by_cases haL : born a < L
      · by_cases hbL : born b < L
        · rw [hold a haL, hold b hbL]
          exact hsafe a ha b hb hab haL hbL h1 h2
        · exact halloc.slot_ne (hlive a ha (by omega) (by omega)) (hlive b hb (by omega) (by have := hle b hb; omega)) hab
      · exact halloc.slot_ne (hlive a ha (by omega) (by have := hle a ha; omega)) (hlive b hb (by omega) (by omega)) hab

end Levels

/-! ## The size of the pool -/

section Size
variable {p : Pool} {live l : List Nat} {id : Nat}

theorem Pool.Holds.length (h : p.Holds live) : live.length + p.free.length = p.next := by
  have hlen := h.length_eq
  rwa [List.length_append, List.length_map, List.length_range] at hlen

theorem Pool.Holds.alloc_next (id : Nat) (h : p.Holds live) : (p.alloc id).next = max p.next (live.length + 1) := by
  have hlen := h.length
  rw [Pool.alloc]
  split
  · rename_i s free hf
    rw [hf, List.length_cons] at hlen
    dsimp only
    omega
  · rename_i hf
    rw [hf, List.length_nil] at hlen
    dsimp only
    omega

theorem Pool.Holds.allocAll_next (h : p.Holds live) (hl : l.Nodup) (hdisj : ∀ x ∈ l, x ∉ live) :
    (p.allocAll l).next = max p.next (l.length + live.length) := by
  induction l using List.reverseRecOn with
  | nil =>
    have := h.length
    show p.next = max p.next (0 + live.length)
    omega
  | append_singleton l x ih =>
    have hl' : l.Nodup := hl.of_append_left
    have hdisj' : ∀ y ∈ l, y ∉ live := fun y hy => hdisj y (List.mem_append_left _ hy)
    have hnext := Pool.Holds.alloc_next x (h.allocAll hl' hdisj')
    have hfold : p.allocAll (l ++ [x]) = (p.allocAll l).alloc x := List.foldl_concat ..
    rw [hfold, hnext, ih hl' hdisj', List.length_append, List.length_append, List.length_singleton]
    omega

end Size

section Peak
variable {n : Nat} {born dies : Nat → Nat}

/-- The ids alive at level `lv`. -/
def alive (n : Nat) (born dies : Nat → Nat) (lv : Nat) : List Nat :=
  (List.range n).filter fun id => born id ≤ lv ∧ lv ≤ dies id

theorem mem_alive {lv id : Nat} : id ∈ alive n born dies lv ↔ id < n ∧ born id ≤ lv ∧ lv ≤ dies id := by
  rw [alive, List.mem_filter, List.mem_range, decide_eq_true_eq]

theorem nodup_alive (n : Nat) (born dies : Nat → Nat) (lv : Nat) : (alive n born dies lv).Nodup :=
  List.nodup_range.filter _

theorem length_alive_le (n : Nat) (born dies : Nat → Nat) (lv : Nat) : (alive n born dies lv).length ≤ n :=
  (List.length_filter_le _ _).trans_eq List.length_range

theorem IsLevel.births_disjoint {lv : Nat} {births deaths : List Nat} (h : IsLevel n born dies lv births deaths) :
    ∀ x ∈ births, x ∉ across n born dies lv := fun x hb ha => by
  have := ((h.mem_births x).mp hb).2
  have := (mem_across.mp ha).2.1
  omega

theorem IsLevel.perm_alive {lv : Nat} {births deaths : List Nat} (h : IsLevel n born dies lv births deaths)
    (hle : ∀ id < n, born id ≤ dies id) : (births ++ across n born dies lv).Perm (alive n born dies lv) := by
  refine (List.perm_ext_iff_of_nodup ?_ (nodup_alive n born dies lv)).mpr fun id => ?_
  · exact h.births_nodup.append (List.nodup_range.filter _) h.births_disjoint
  · rw [List.mem_append, h.mem_births, mem_across, mem_alive]
    constructor
    · rintro (⟨hid, hb⟩ | ⟨hid, hb, hd⟩) <;> have := hle id hid <;> omega
    · rintro ⟨hid, hb, hd⟩
      have := hle id hid
      omega

/-- The states in the middle of level `lv`: after `i` births, and after all of them and `i` deaths. -/
def afterBirths (births deaths : Nat → List Nat) (p : Pool) (lv i : Nat) : Pool :=
  (runLevels births deaths p lv).allocAll ((births lv).take i)

def afterDeaths (births deaths : Nat → List Nat) (p : Pool) (lv i : Nat) : Pool :=
  ((runLevels births deaths p lv).allocAll (births lv)).releaseAll ((deaths lv).take i)

variable (births deaths : Nat → List Nat) (slot : Nat → Nat) {L : Nat}
  (hlevel : ∀ lv < L, IsLevel n born dies lv (births lv) (deaths lv)) (hle : ∀ id < n, born id ≤ dies id)
include hlevel hle

/-- The pool is as large as the largest set of ids alive at one level. -/
theorem runLevels_next (k : Nat) :
    (runLevels births deaths ⟨slot, [], 0⟩ L).next ≤ k ↔ ∀ lv < L, (alive n born dies lv).length ≤ k := by
  induction L with
  | zero => exact ⟨fun _ _ h => absurd h (Nat.not_lt_zero _), fun _ => Nat.zero_le k⟩
  | succ L ih =>
    have hbelow : ∀ lv < L, IsLevel n born dies lv (births lv) (deaths lv) := fun lv hlv =>
      hlevel lv (Nat.lt_succ_of_lt hlv)
    have hL := hlevel L (Nat.lt_succ_self L)
    have hholds := (runLevels_safe births deaths slot hbelow hle).1
    have hsize := (hL.perm_alive hle).length_eq
    rw [List.length_append] at hsize
    rw [runLevels, Pool.releaseAll_next, hholds.allocAll_next hL.births_nodup hL.births_disjoint, hsize, Nat.max_le,
      ih hbelow]
    constructor
    · rintro ⟨h1, h2⟩ lv hlv
      rcases Nat.lt_succ_iff_lt_or_eq.mp hlv with hlt | rfl
      · exact h1 lv hlt
      · exact h2
    · intro h
      exact ⟨fun lv hlv => h lv (Nat.lt_succ_of_lt hlv), h L (Nat.lt_succ_self L)⟩

/-- The stack of free slots never holds more than `n`. -/
theorem runLevels_free_le {lv : Nat} (hlv : lv < L) (i : Nat) :
    (afterBirths births deaths ⟨slot, [], 0⟩ lv i).free.length ≤ n ∧
      (afterDeaths births deaths ⟨slot, [], 0⟩ lv i).free.length ≤ n := by
  have hbelow : ∀ l < lv, IsLevel n born dies l (births l) (deaths l) := fun l hl => hlevel l (hl.trans hlv)
  have hlast := hlevel lv hlv
  have hholds := (runLevels_safe births deaths slot hbelow hle).1
  have hnext : (runLevels births deaths ⟨slot, [], 0⟩ lv).next ≤ n :=
    (runLevels_next births deaths slot hbelow hle n).mpr fun l _ => length_alive_le n born dies l
  have hsize := (hlast.perm_alive hle).length_eq.trans_le (length_alive_le n born dies lv)
  rw [List.length_append] at hsize
  constructor
  · have hnd : ((births lv).take i).Nodup := hlast.births_nodup.sublist (List.take_sublist i _)
    have hdisj : ∀ x ∈ (births lv).take i, x ∉ across n born dies lv := fun x hx =>
      hlast.births_disjoint x (List.mem_of_mem_take hx)
    have hfree := (hholds.allocAll hnd hdisj).length
    have hgrow := hholds.allocAll_next hnd hdisj
    have hlen := List.length_take_le' i (births lv)
    unfold afterBirths
    omega
  · have hall := hholds.allocAll hlast.births_nodup hlast.births_disjoint
    have hgrow := hholds.allocAll_next hlast.births_nodup hlast.births_disjoint
    have hsplit : ((deaths lv).take i ++ ((deaths lv).drop i ++ across n born dies (lv + 1))).Perm
        (births lv ++ across n born dies lv) := by
      rw [← List.append_assoc, List.take_append_drop]
      exact hlast.perm hle
    have hfree := (Pool.Holds.releaseAll (hall.perm hsplit)).length
    rw [Pool.releaseAll_next] at hfree
    unfold afterDeaths
    omega

end Peak

end SlotPool
