import Mathlib.Algebra.GroupWithZero.Nat
import Mathlib.Data.List.Count

/-!
# Logs of writes

A log of writes to devices, and what it means that it fills a range of one of them with given content, each place once.
-/

set_option autoImplicit false

namespace Cover

/-- `n` places of a device from `off` on. -/
structure Write (δ β : Type*) where
  dev : δ
  off : Nat
  n : Nat
  data : Nat → β

variable {δ β : Type*} [DecidableEq δ]

/-- The write sets place `a` of the device. -/
def Write.covers (w : Write δ β) (dev : δ) (a : Nat) : Bool :=
  decide (w.dev = dev ∧ w.off ≤ a ∧ a < w.off + w.n)

def hits (ws : List (Write δ β)) (dev : δ) (a : Nat) : Nat := ws.countP fun w => w.covers dev a

@[simp] theorem hits_nil (dev : δ) (a : Nat) : hits ([] : List (Write δ β)) dev a = 0 := rfl

theorem hits_cons (w : Write δ β) (ws : List (Write δ β)) (dev : δ) (a : Nat) :
    hits (w :: ws) dev a = hits ws dev a + if w.covers dev a then 1 else 0 := List.countP_cons

theorem hits_append (ws ws' : List (Write δ β)) (dev : δ) (a : Nat) :
    hits (ws ++ ws') dev a = hits ws dev a + hits ws' dev a := List.countP_append

theorem hits_flatten (wss : List (List (Write δ β))) (dev : δ) (a : Nat) :
    hits wss.flatten dev a = (wss.map fun ws => hits ws dev a).sum := List.countP_flatten

theorem hits_perm {ws ws' : List (Write δ β)} (h : ws.Perm ws') (dev : δ) (a : Nat) : hits ws dev a = hits ws' dev a :=
  h.countP_eq _

theorem hits_pos {ws : List (Write δ β)} {dev : δ} {a : Nat} : 0 < hits ws dev a ↔ ∃ w ∈ ws, w.covers dev a = true :=
  List.countP_pos_iff

/-- The log writes `content lo`, …, `content (hi - 1)` to the places `base + lo`, …, `base + hi - 1` of the device, each
once, and no other place. -/
structure Covers (dev : δ) (base : Nat) (content : Nat → β) (lo hi : Nat) (ws : List (Write δ β)) : Prop where
  hits : ∀ dev' a, hits ws dev' a = if dev' = dev ∧ base + lo ≤ a ∧ a < base + hi then 1 else 0
  data : ∀ w ∈ ws, ∃ x, w.off = base + x ∧ lo ≤ x ∧ x + w.n ≤ hi ∧ ∀ y < w.n, w.data y = content (x + y)

section

variable {dev : δ} {base : Nat} {content : Nat → β} {lo mid hi : Nat} {ws ws' : List (Write δ β)}

theorem Covers.nil (dev : δ) (base : Nat) (content : Nat → β) (lo : Nat) : Covers dev base content lo lo [] := by
  refine ⟨fun dev' a => ?_, fun w hw => by cases hw⟩
  rw [if_neg]
  · rfl
  · rintro ⟨-, h, h'⟩
    omega

theorem Covers.single (dev : δ) (base : Nat) (content : Nat → β) (lo n : Nat) :
    Covers dev base content lo (lo + n) [⟨dev, base + lo, n, fun y => content (lo + y)⟩] := by
  constructor
  · intro dev' a
    unfold Cover.hits
    rw [List.countP_singleton]
    unfold Write.covers
    by_cases h : dev' = dev ∧ base + lo ≤ a ∧ a < base + (lo + n)
    · have hend : a < base + lo + n := by omega
      rw [if_pos h, if_pos (decide_eq_true ⟨h.1.symm, h.2.1, hend⟩)]
    · rw [if_neg h, if_neg]
      rw [decide_eq_true_iff]
      rintro ⟨h1, h2, h3⟩
      dsimp only at h1 h2 h3
      exact h ⟨h1.symm, h2, by omega⟩
  · intro w hw
    rw [List.mem_singleton.mp hw]
    exact ⟨lo, rfl, Nat.le_refl lo, Nat.le_refl _, fun _ _ => rfl⟩

theorem Covers.append (h : Covers dev base content lo mid ws) (h' : Covers dev base content mid hi ws') (hlo : lo ≤ mid)
    (hhi : mid ≤ hi) : Covers dev base content lo hi (ws ++ ws') := by
  constructor
  · intro dev' a
    rw [hits_append, h.hits, h'.hits]
    by_cases hdev : dev' = dev
    · simp only [hdev, true_and]
      split_ifs <;> omega
    · simp only [hdev, false_and, if_false]
  · intro w hw
    rcases List.mem_append.mp hw with hw | hw
    · obtain ⟨x, hoff, hx, hn, hdata⟩ := h.data w hw
      exact ⟨x, hoff, hx, Nat.le_trans hn hhi, hdata⟩
    · obtain ⟨x, hoff, hx, hn, hdata⟩ := h'.data w hw
      exact ⟨x, hoff, Nat.le_trans hlo hx, hn, hdata⟩

/-- A log of a buffer that holds the content from `d` on. -/
theorem Covers.shift {d : Nat} {content' : Nat → β} (h : Covers dev (base + d) content lo hi ws)
    (hc : ∀ x, lo ≤ x → x < hi → content x = content' (d + x)) :
    Covers dev base content' (d + lo) (d + hi) ws := by
  constructor
  · intro dev' a
    rw [h.hits, Nat.add_assoc, Nat.add_assoc]
  · intro w hw
    obtain ⟨x, hoff, hx, hn, hdata⟩ := h.data w hw
    refine ⟨d + x, by omega, by omega, by omega, fun y hy => ?_⟩
    rw [hdata y hy, hc (x + y) (by omega) (by omega), Nat.add_assoc]

/-- Each place of the range is in a write, and has its content there. -/
theorem Covers.written (h : Covers dev base content lo hi ws) {x : Nat} (hlo : lo ≤ x) (hhi : x < hi) :
    ∃ w ∈ ws, w.covers dev (base + x) = true ∧ w.data (base + x - w.off) = content x := by
  have hpos : 0 < Cover.hits ws dev (base + x) := by
    rw [h.hits, if_pos ⟨rfl, by omega, by omega⟩]
    exact Nat.one_pos
  obtain ⟨w, hw, hcovers⟩ := hits_pos.mp hpos
  obtain ⟨y, hoff, hy, hn, hdata⟩ := h.data w hw
  obtain ⟨-, h1, h2⟩ := of_decide_eq_true hcovers
  refine ⟨w, hw, hcovers, ?_⟩
  rw [hdata _ (by omega)]
  congr 1
  omega

end

/-! ## Logs side by side, and what they leave on the devices -/

/-- The second log interleaves the logs of the list. -/
inductive Interleaved {α : Type*} : List (List α) → List α → Prop where
  | done {logs : List (List α)} : (∀ l ∈ logs, l = []) → Interleaved logs []
  | take {pre post : List (List α)} {w : α} {l log : List α} :
      Interleaved (pre ++ l :: post) log → Interleaved (pre ++ (w :: l) :: post) (w :: log)

theorem Interleaved.perm {α : Type*} {logs : List (List α)} {log : List α} (h : Interleaved logs log) :
    log.Perm logs.flatten := by
  induction h with
  | done h => rw [List.flatten_eq_nil_iff.mpr h]
  | take _ ih =>
      rw [List.flatten_append, List.flatten_cons] at ih ⊢
      exact (ih.cons _).trans List.perm_middle.symm

theorem Interleaved.inside {α : Type*} {logs : List (List α)} {log : List α} (h : Interleaved logs log)
    (first last : List α) : Interleaved ((first ++ last) :: logs) (first ++ (log ++ last)) := by
  induction first with
  | nil =>
    rw [List.nil_append, List.nil_append]
    induction h with
    | done h =>
      rw [List.nil_append]
      induction last with
      | nil => exact .done (List.forall_mem_cons.mpr ⟨rfl, h⟩)
      | cons w last ih => exact @Interleaved.take α [] _ w last last ih
    | @take pre _ _ _ _ _ ih => exact @Interleaved.take α (last :: pre) _ _ _ _ ih
  | cons w first ih => exact @Interleaved.take α [] logs w _ _ ih

theorem Interleaved.flatten {α : Type*} (logs : List (List α)) : Interleaved logs logs.flatten := by
  induction logs with
  | nil => exact .done fun l hl => (List.not_mem_nil hl).elim
  | cons l logs ih =>
    have h := ih.inside l []
    rwa [List.append_nil, List.append_nil] at h

def Write.apply (w : Write δ β) (m : δ → Nat → β) : δ → Nat → β :=
  fun dev a => if w.covers dev a then w.data (a - w.off) else m dev a

def replay (ws : List (Write δ β)) (m : δ → Nat → β) : δ → Nat → β := ws.foldl (fun m w => w.apply m) m

theorem replay_miss {ws : List (Write δ β)} {dev : δ} {a : Nat} (h : hits ws dev a = 0) (m : δ → Nat → β) :
    replay ws m dev a = m dev a := by
  induction ws generalizing m with
  | nil => rfl
  | cons w ws ih =>
      rw [hits_cons, Nat.add_eq_zero_iff] at h
      have hw : ¬ w.covers dev a = true := fun hc => by
        rw [if_pos hc] at h
        exact absurd h.2 Nat.one_ne_zero
      exact (ih h.1 (w.apply m)).trans (if_neg hw)

/-- A place that is set only with the value `v`, and at least once, ends with it. -/
theorem replay_hit {ws : List (Write δ β)} {dev : δ} {a : Nat} {v : β}
    (hdata : ∀ w ∈ ws, w.covers dev a = true → w.data (a - w.off) = v) (h : hits ws dev a ≠ 0) (m : δ → Nat → β) :
    replay ws m dev a = v := by
  induction ws generalizing m with
  | nil => exact absurd rfl h
  | cons w ws ih =>
      by_cases hws : hits ws dev a = 0
      · have hw : w.covers dev a = true := by
          by_contra hw
          rw [hits_cons, if_neg hw] at h
          exact h hws
        exact (replay_miss hws (w.apply m)).trans ((if_pos hw).trans (hdata w List.mem_cons_self hw))
      · exact ih (fun w' hw' => hdata w' (List.mem_cons_of_mem _ hw')) hws (w.apply m)

/-- A place keeps its value, or has the value of a write that sets it. -/
theorem replay_cases (ws : List (Write δ β)) (m : δ → Nat → β) (dev : δ) (a : Nat) :
    replay ws m dev a = m dev a ∨ ∃ w ∈ ws, w.covers dev a = true ∧ replay ws m dev a = w.data (a - w.off) := by
  induction ws generalizing m with
  | nil => exact .inl rfl
  | cons w ws ih =>
      rcases ih (w.apply m) with h | ⟨w', hw', hcovers, h⟩
      · by_cases hw : w.covers dev a = true
        · exact .inr ⟨w, List.mem_cons_self, hw, h.trans (if_pos hw)⟩
        · exact .inl (h.trans (if_neg hw))
      · exact .inr ⟨w', List.mem_cons_of_mem w hw', hcovers, h⟩

end Cover
