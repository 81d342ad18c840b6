import Mathlib.Combinatorics.Enumerative.DoubleCounting
import Mathlib.Data.List.Basic
import Mathlib.Tactic.Common

/-!
# Walks in a directed graph

`Trail edge u p v` is a walk from `u` to `v`: `p` lists the vertices after `u`, so it has `p.length` edges. A family of
walks no two of which share a vertex loses at most as many members as vertices are deleted (`card_hit_le`).
-/

set_option autoImplicit false

namespace Walks

variable {V : Type*} {edge edge' : V → V → Prop} {u v w x : V} {p q : List V}

/-- The vertices of `p` lead from `u` to `v`. -/
def Trail (edge : V → V → Prop) : V → List V → V → Prop
  | u, [], v => u = v
  | u, x :: p, v => edge u x ∧ Trail edge x p v

theorem Trail.one (h : edge u v) : Trail edge u [v] v := ⟨h, rfl⟩

theorem Trail.append (h : Trail edge u p v) (h' : Trail edge v q w) : Trail edge u (p ++ q) w := by
  induction p generalizing u with
  | nil => exact (show u = v from h) ▸ h'
  | cons x p ih => exact ⟨h.1, ih h.2⟩

theorem Trail.snoc (h : Trail edge u p v) (hvw : edge v w) : Trail edge u (p ++ [w]) w := h.append (Trail.one hvw)

theorem trail_append_singleton : Trail edge u (p ++ [w]) v ↔ ∃ a, Trail edge u p a ∧ edge a w ∧ w = v := by
  induction p generalizing u with
  | nil => exact ⟨fun h => ⟨u, rfl, h⟩, fun ⟨a, ha, h⟩ => (show u = a from ha) ▸ h⟩
  | cons x p ih =>
    rw [List.cons_append, Trail, ih]
    exact ⟨fun ⟨h, a, ha⟩ => ⟨a, ⟨h, ha.1⟩, ha.2⟩, fun ⟨a, ha⟩ => ⟨ha.1.1, a, ha.1.2, ha.2⟩⟩

theorem trail_iff_last (huv : u ≠ v) : Trail edge u p v ↔ ∃ q a, p = q ++ [v] ∧ Trail edge u q a ∧ edge a v := by
  constructor
  · intro h
    rcases List.eq_nil_or_concat' p with rfl | ⟨q, w, rfl⟩
    · exact absurd h huv
    · rw [trail_append_singleton] at h
      obtain ⟨a, ha, hw, rfl⟩ := h
      exact ⟨q, a, rfl, ha, hw⟩
  · rintro ⟨q, a, rfl, ha, hav⟩
    exact ha.snoc hav

theorem trail_to_start (hv : ∀ a, ¬ edge a v) : Trail edge u p v ↔ p = [] ∧ u = v := by
  constructor
  · intro h
    by_cases huv : u = v
    · subst huv
      rcases List.eq_nil_or_concat' p with rfl | ⟨q, w, rfl⟩
      · exact ⟨rfl, rfl⟩
      · rw [trail_append_singleton] at h
        obtain ⟨a, -, hw, rfl⟩ := h
        exact absurd hw (hv a)
    · obtain ⟨q, a, -, -, hav⟩ := (trail_iff_last huv).mp h
      exact absurd hav (hv a)
  · rintro ⟨rfl, rfl⟩
    exact rfl

/-- Only the edges into the vertices of `p` matter. -/
theorem Trail.mono (h : Trail edge u p v) (he : ∀ a b, b ∈ p → edge a b → edge' a b) : Trail edge' u p v := by
  induction p generalizing u with
  | nil => exact h
  | cons x p ih =>
    exact ⟨he u x List.mem_cons_self h.1, ih h.2 fun a b hb => he a b (List.mem_cons_of_mem x hb)⟩

/-- A potential that every edge raises is raised by a walk at least as often as it has edges. -/
theorem Trail.length_le {f : V → Nat} (h : Trail edge u p v) (hf : ∀ a b, b ∈ p → edge a b → f a < f b) :
    f u + p.length ≤ f v := by
  induction p generalizing u with
  | nil => exact (show u = v from h) ▸ le_rfl
  | cons x p ih =>
    have h1 := hf u x List.mem_cons_self h.1
    have h2 := ih h.2 fun a b hb => hf a b (List.mem_cons_of_mem x hb)
    rw [List.length_cons]
    omega

theorem Trail.flatMap {b : Nat → V} {seg : Nat → List V} {n : Nat}
    (h : ∀ j < n, Trail edge (b j) (seg j) (b (j + 1))) :
    Trail edge (b 0) ((List.range n).flatMap seg) (b n) := by
  induction n with
  | zero => rfl
  | succ n ih =>
    rw [List.range_succ, List.flatMap_append, List.flatMap_singleton]
    exact (ih fun j hj => h j (Nat.lt_succ_of_lt hj)).append (h n (Nat.lt_succ_self n))

/-! ## Deleting vertices -/

/-- A walk from `u` to `v` that avoids the vertices of `R`. -/
def Linked (edge : V → V → Prop) (R : Finset V) (u v : V) : Prop := ∃ p, Trail edge u p v ∧ ∀ x ∈ u :: p, x ∉ R

/-- A deleted vertex that lies on one member of a family of vertex lists only is the only hit it makes. -/
theorem card_hit_le {ι : Type*} {I : Finset ι} {line : ι → List V} {R : Finset V} {hit : ι → Prop} [DecidablePred hit]
    (hdisj : ∀ x ∈ R, ∀ i ∈ I, ∀ j ∈ I, x ∈ line i → x ∈ line j → i = j)
    (hhit : ∀ i ∈ I, hit i → ∃ x ∈ line i, x ∈ R) : (I.filter hit).card ≤ R.card := by
  refine Finset.card_le_card_of_forall_subsingleton (fun i x => x ∈ line i) (fun i hi => ?_) fun x hx i hi j hj => ?_
  · obtain ⟨hI, hi⟩ := Finset.mem_filter.mp hi
    obtain ⟨x, hx, hR⟩ := hhit i hI hi
    exact ⟨x, hR, hx⟩
  · exact hdisj x hx i (Finset.mem_filter.mp hi.1).1 j (Finset.mem_filter.mp hj.1).1 hi.2 hj.2

/-- Of a family of disjoint walks at most `R.card` lose the link between their ends. -/
theorem card_lost_le {ι : Type*} {I : Finset ι} {u v : ι → V} (line : ι → List V) (R : Finset V) {lost : ι → Prop}
    [DecidablePred lost] (htrail : ∀ i ∈ I, Trail edge (u i) (line i) (v i))
    (hdisj : ∀ x ∈ R, ∀ i ∈ I, ∀ j ∈ I, x ∈ u i :: line i → x ∈ u j :: line j → i = j)
    (hlost : ∀ i ∈ I, lost i → ¬ Linked edge R (u i) (v i)) : (I.filter lost).card ≤ R.card := by
  refine card_hit_le hdisj fun i hi hl => ?_
  by_contra hno
  exact hlost i hi hl ⟨line i, htrail i hi, fun x hx hR => hno ⟨x, hx, hR⟩⟩

end Walks
