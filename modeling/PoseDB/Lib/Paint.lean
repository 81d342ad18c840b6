import PoseDB.Lib.Mem
import Mathlib.Data.Set.Lattice
import Mathlib.Order.Interval.Set.Basic

/-!
# Painting a memory from a target

`Paints target S m m'`: `m'` is `m` with the cells of `S` as in `target`. Jobs that paint from one target can run in any
order and may even overlap: together they paint the union of their areas (`Paints.trans`, `Paints.foldl`).
-/

set_option autoImplicit false

namespace Mem

variable {ι β σ κ : Type*} {target : ι → β} {S T : Set ι} {m m' m'' : ι → β}

def Paints (target : ι → β) (S : Set ι) (m m' : ι → β) : Prop :=
  ∀ a, (a ∈ S → m' a = target a) ∧ (a ∉ S → m' a = m a)

theorem Paints.refl (target : ι → β) (m : ι → β) : Paints target ∅ m m := by
  intro a
  exact ⟨fun h => h.elim, fun _ => rfl⟩

theorem Paints.trans (h : Paints target S m m') (h' : Paints target T m' m'') : Paints target (S ∪ T) m m'' := by
  intro a
  constructor
  · intro ha
    by_cases hT : a ∈ T
    · exact (h' a).1 hT
    · rw [(h' a).2 hT]
      exact (h a).1 (ha.resolve_right hT)
  · intro ha
    rw [Set.mem_union, not_or] at ha
    rw [(h' a).2 ha.2, (h a).2 ha.1]

theorem Paints.congr {target' : ι → β} (h : Paints target S m m') (heq : ∀ a ∈ S, target a = target' a) :
    Paints target' S m m' := by
  intro a
  exact ⟨fun ha => ((h a).1 ha).trans (heq a ha), (h a).2⟩

theorem paints_store {target : Nat → β} {m : Nat → β} {d n : Nat} {v : Nat → β} (h : ∀ i, i < n → v i = target (d + i)) :
    Paints target (Set.Ico d (d + n)) m (store m d n v) := by
  intro a
  constructor
  · rintro ⟨hlo, hhi⟩
    obtain ⟨i, rfl⟩ := Nat.exists_eq_add_of_le hlo
    have hi : i < n := by omega
    rw [store_in m d n v hi, h i hi]
  · intro ha
    rw [Set.mem_Ico, not_and_or, not_le, not_lt] at ha
    exact store_out m d n v ha

/-- Jobs that all paint from the target, one after the other, while they keep `I`. -/
theorem Paints.foldl (get : σ → ι → β) (run : σ → κ → σ) (S : κ → Set ι) (I : σ → Prop) {l : List κ}
    (h : ∀ s, I s → ∀ k ∈ l, Paints target (S k) (get s) (get (run s k)) ∧ I (run s k)) {s : σ} (hs : I s) :
    Paints target (⋃ k ∈ l, S k) (get s) (get (l.foldl run s)) ∧ I (l.foldl run s) := by
  induction l generalizing s with
  | nil =>
    simp only [List.not_mem_nil, Set.iUnion_of_empty, Set.iUnion_empty, List.foldl_nil]
    exact ⟨Paints.refl target _, hs⟩
  | cons k l ih =>
    obtain ⟨hk, hI⟩ := h s hs k List.mem_cons_self
    obtain ⟨hl, hI'⟩ := ih (fun s hs k hk => h s hs k (List.mem_cons_of_mem _ hk)) hI
    refine ⟨?_, hI'⟩
    have hunion : (⋃ j ∈ k :: l, S j) = S k ∪ ⋃ j ∈ l, S j := by
      ext a
      simp
    rw [hunion]
    exact hk.trans hl

end Mem
