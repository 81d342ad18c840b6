import PoseDB.Graph.Scheme
import Mathlib.Logic.Relation

/-!
# The arrays of a run

A component allocates its arrays, runs a list of actions on them and releases them (`run_eq`). `Point.Enters` is the
execution so described: every action with the state it runs in and the arrays live around it. At every point the live
arrays are apart, what is read lies in one of them, what is written in another, and the arena has room for the peak of
the component (`Point.Safe.reach`).
-/

set_option autoImplicit false

namespace PoseDB.Graph
open Loops Mem

/-- An array: its address and its number of cells. -/
structure Block where
  start : Nat
  len : Nat

def Block.stop (b : Block) : Nat := b.start + b.len

def Block.Apart (a b : Block) : Prop := a.stop ≤ b.start ∨ b.stop ≤ a.start

def Block.Within (a b : Block) : Prop := b.start ≤ a.start ∧ a.stop ≤ b.stop

/-- A call of a component, or one operation on arrays. -/
inductive Action where
  | standalone (level out : Nat)
  | connected (level inputs out : Nat)
  | connector (dim inputs outputs : Nat)
  | merged (dim primary ingress outputs : Nat)
  | source (dst : Nat)
  | one (src dst : Nat)
  | merge0 (primary ingress dst : Nat)
  | first (dim src dst : Nat)
  | flip (dim l src dst : Nat)
  | merge (dim primary ingress dst : Nat)
  | copy (w src dst : Nat)

namespace Action

def reads : Action → List Block
  | standalone _ _ | source _ => []
  | connected level inputs _ => [⟨inputs, 2 ^ level⟩]
  | connector dim inputs _ => [⟨inputs, 2 ^ dim⟩]
  | merged dim primary ingress _ | merge dim primary ingress _ => [⟨primary, 2 ^ dim⟩, ⟨ingress, 2 ^ dim⟩]
  | one src _ => [⟨src, 1⟩]
  | merge0 primary ingress _ => [⟨primary, 1⟩, ⟨ingress, 1⟩]
  | first dim src _ | flip dim _ src _ => [⟨src, 2 ^ dim⟩]
  | copy w src _ => [⟨src, w⟩]

def write : Action → Block
  | standalone level out | connected level _ out => ⟨out, 2 ^ level⟩
  | connector dim _ outputs | merged dim _ _ outputs => ⟨outputs, 2 ^ dim⟩
  | source dst | one _ dst | merge0 _ _ dst => ⟨dst, 1⟩
  | first dim _ dst | flip dim _ _ dst | merge dim _ _ dst => ⟨dst, 2 ^ dim⟩
  | copy w _ dst => ⟨dst, w⟩

/-- How far above the arena offset the action allocates. -/
def peak : Action → Nat
  | standalone level _ => standalonePeak level
  | connected level _ _ => connectedPeak level
  | connector dim _ _ => connectorPeak dim
  | merged dim _ _ _ => mergedPeak dim
  | _ => 0

/-- `n` arrays of `w` cells from `top` on. -/
def arrays (w : Nat) : Nat → Nat → List Block
  | 0, _ => []
  | n + 1, top => ⟨top, w⟩ :: arrays w n (top + w)

def frame (top : Nat) : Action → List Block
  | standalone (k + 1) _ | connected (k + 1) _ _ => arrays (2 ^ k) 3 top
  | connector dim _ _ => arrays (2 ^ dim) 2 top
  | merged (k + 1) _ _ _ => arrays (2 ^ (k + 1)) 4 top
  | _ => []

def size : Action → Nat
  | standalone (k + 1) _ | connected (k + 1) _ _ => 2 ^ k + 2 ^ k + 2 ^ k
  | connector dim _ _ => 2 ^ dim + 2 ^ dim
  | merged (k + 1) _ _ _ => 2 ^ (k + 1) + 2 ^ (k + 1) + 2 ^ (k + 1) + 2 ^ (k + 1)
  | _ => 0

/-- The array that holds layer `l` of a butterfly over two arrays. -/
def pingPong (top w l : Nat) : Nat := if l % 2 = 0 then top else top + w

def flips (dim n top : Nat) : List Action :=
  (List.range n).map fun l => flip dim (l + 1) (pingPong top (2 ^ dim) l) (pingPong top (2 ^ dim) (l + 1))

def halves (w top out : Nat) : List Action := [copy w top out, copy w (top + (w + w)) (out + w)]

def body (top : Nat) : Action → List Action
  | standalone 0 out => [source out]
  | standalone (k + 1) out =>
    [standalone k top, connector k top (top + 2 ^ k), connected k (top + 2 ^ k) (top + (2 ^ k + 2 ^ k))] ++
      halves (2 ^ k) top out
  | connected 0 inputs out => [one inputs out]
  | connected (k + 1) inputs out =>
    [connected k inputs top, merged k top (inputs + 2 ^ k) (top + 2 ^ k),
      connected k (top + 2 ^ k) (top + (2 ^ k + 2 ^ k))] ++ halves (2 ^ k) top out
  | connector dim inputs outputs =>
    first dim inputs top :: flips dim dim top ++ [copy (2 ^ dim) (pingPong top (2 ^ dim) dim) outputs]
  | merged 0 primary ingress outputs => [merge0 primary ingress outputs]
  | merged (k + 1) primary ingress outputs =>
    let w := 2 ^ (k + 1)
    first (k + 1) ingress top :: flips (k + 1) (k + 1) top ++
      merge (k + 1) primary (pingPong top w (k + 1)) (top + (w + w)) :: flips (k + 1) k (top + (w + w)) ++
      [flip (k + 1) (k + 1) (pingPong (top + (w + w)) w k) outputs]
  | _ => []

def IsCall : Action → Prop
  | standalone _ _ | connected _ _ _ | connector _ _ _ | merged _ _ _ _ => True
  | _ => False

end Action

/-! ## The recursion as actions -/

namespace Scheme
variable {σ β : Type} (S : Scheme σ β)

def run : Action → σ → σ
  | .standalone level out, s => S.standalone s level out
  | .connected level inputs out, s => S.connected s level inputs out
  | .connector dim inputs outputs, s => S.connector s dim inputs outputs
  | .merged dim primary ingress outputs, s => S.merged s dim primary ingress outputs
  | .source dst, s => S.source dst s
  | .one src dst, s => S.one src dst s
  | .merge0 primary ingress dst, s => S.merge0 primary ingress dst s
  | .first dim src dst, s => S.first dim src dst s
  | .flip dim l src dst, s => S.flip dim l src dst s
  | .merge dim primary ingress dst, s => S.merge dim primary ingress dst s
  | .copy w src dst, s => S.set s { S.get s with mem := memcpy (S.get s).mem dst src w }

def runAll (l : List Action) (s : σ) : σ := l.foldl (fun s a => S.run a s) s

/-- The arena after the allocations of a component; level `0` of the recursions allocates nothing. -/
def enter (a : Action) (s : σ) : σ := if a.size = 0 then s else S.alloc a.size s

def leave (a : Action) (s t : σ) : σ := if a.size = 0 then t else S.set t { S.get t with off := (S.get s).off }

/-- The arena is a field of the state, and the operations on arrays do not allocate. -/
structure Lawful : Prop where
  get_set : ∀ s a, S.get (S.set s a) = a
  set_set : ∀ s a b, S.set (S.set s a) b = S.set s b
  base : ∀ a : Action, ¬ a.IsCall → ∀ s, (S.get (S.run a s)).base = (S.get s).base
  off : ∀ a : Action, ¬ a.IsCall → ∀ s, (S.get (S.run a s)).off = (S.get s).off

theorem runAll_append (l l' : List Action) (s : σ) : S.runAll (l ++ l') s = S.runAll l' (S.runAll l s) :=
  List.foldl_append

theorem runAll_cons (a : Action) (l : List Action) (s : σ) : S.runAll (a :: l) s = S.runAll l (S.run a s) := rfl

theorem flips_eq (dim n top : Nat) (s : σ) :
    S.flips dim n top (top + 2 ^ dim) s = (S.runAll (Action.flips dim n top) s,
      Action.pingPong top (2 ^ dim) n, Action.pingPong top (2 ^ dim) (n + 1)) := by
  induction n with
  | zero => rfl
  | succ n ih =>
    have hpp : Action.pingPong top (2 ^ dim) (n + 1 + 1) = Action.pingPong top (2 ^ dim) n := by
      unfold Action.pingPong
      rw [show (n + 1 + 1) % 2 = n % 2 by omega]
    unfold Scheme.flips at ih ⊢
    rw [loop_succ, ih]
    unfold Action.flips
    rw [List.range_succ, List.map_append, runAll_append, hpp]
    rfl

variable {S}

theorem enter_of_pos {a : Action} (ha : 0 < a.size) (s : σ) : S.enter a s = S.alloc a.size s := if_neg ha.ne'

theorem leave_of_pos {a : Action} (ha : 0 < a.size) (s t : σ) :
    S.leave a s t = S.set t { S.get t with off := (S.get s).off } := if_neg ha.ne'

theorem leave_halves (hS : S.Lawful) {a : Action} (ha : 0 < a.size) (s t : σ) (w out : Nat) :
    S.leave a s (S.runAll (Action.halves w (S.top s) out) t) = S.finish s t w out := by
  have hrun : S.runAll (Action.halves w (S.top s) out) t = S.set t { S.get t with
      mem := memcpy (memcpy (S.get t).mem out (S.top s) w) (out + w) (S.top s + (w + w)) w } := by
    show S.set (S.set t _) { S.get (S.set t _) with mem := memcpy (S.get (S.set t _)).mem _ _ _ } = _
    rw [hS.set_set, hS.get_set]
  rw [leave_of_pos ha, hrun, hS.set_set, hS.get_set]
  rfl

theorem connector_eq (hS : S.Lawful) (s : σ) (dim inputs outputs : Nat) :
    S.connector s dim inputs outputs = S.leave (.connector dim inputs outputs) s
      (S.runAll ((Action.connector dim inputs outputs).body (S.top s)) (S.enter (.connector dim inputs outputs) s)) := by
  have hpos : 0 < (Action.connector dim inputs outputs).size := Nat.add_pos_left (Nat.two_pow_pos dim) _
  rw [enter_of_pos hpos, leave_of_pos hpos]
  unfold Scheme.connector Scheme.butterfly Action.body
  rw [flips_eq, runAll_append, runAll_cons]
  show _ = S.set (S.set _ _) { S.get (S.set _ _) with off := _ }
  rw [hS.set_set, hS.get_set]
  rfl

theorem merged_eq (s : σ) (k primary ingress outputs : Nat) :
    S.merged s (k + 1) primary ingress outputs = S.leave (.merged (k + 1) primary ingress outputs) s
      (S.runAll ((Action.merged (k + 1) primary ingress outputs).body (S.top s))
        (S.enter (.merged (k + 1) primary ingress outputs) s)) := by
  have hpos : 0 < (Action.merged (k + 1) primary ingress outputs).size :=
    Nat.add_pos_right _ (Nat.two_pow_pos (k + 1))
  rw [enter_of_pos hpos, leave_of_pos hpos]
  unfold Scheme.merged Scheme.center Scheme.butterfly Action.body
  rw [if_neg (Nat.succ_ne_zero k), Nat.add_sub_cancel]
  dsimp only
  rw [flips_eq, ← Nat.add_assoc (S.top s) (2 ^ (k + 1) + 2 ^ (k + 1)), flips_eq]
  rw [runAll_append, runAll_append]
  rfl

/-- **A component allocates, runs its actions and releases.** -/
theorem run_eq (hS : S.Lawful) {a : Action} (ha : a.IsCall) (s : σ) :
    S.run a s = S.leave a s (S.runAll (a.body (S.top s)) (S.enter a s)) := by
  cases a with
  | standalone level out =>
    cases level with
    | zero => rfl
    | succ k =>
      have hpos : 0 < (Action.standalone (k + 1) out).size := Nat.add_pos_right _ (Nat.two_pow_pos k)
      rw [enter_of_pos hpos, Action.body, runAll_append, leave_halves hS hpos]
      rfl
  | connected level inputs out =>
    cases level with
    | zero => rfl
    | succ k =>
      have hpos : 0 < (Action.connected (k + 1) inputs out).size := Nat.add_pos_right _ (Nat.two_pow_pos k)
      rw [enter_of_pos hpos, Action.body, runAll_append, leave_halves hS hpos]
      rfl
  | connector dim inputs outputs => exact connector_eq hS s dim inputs outputs
  | merged dim primary ingress outputs =>
    cases dim with
    | zero => rfl
    | succ k => exact merged_eq s k primary ingress outputs
  | _ => exact absurd ha id

/-! ## Arena offsets -/

def Restores (S : Scheme σ β) (s s' : σ) : Prop := (S.get s').base = (S.get s).base ∧ (S.get s').off = (S.get s).off

theorem Restores.top {s s' : σ} (h : S.Restores s s') : S.top s' = S.top s := congrArg₂ (· + ·) h.1 h.2

theorem runAll_restores {l : List Action} (h : ∀ a ∈ l, ∀ s, S.Restores s (S.run a s)) (s : σ) :
    S.Restores s (S.runAll l s) := by
  induction l generalizing s with
  | nil => exact ⟨rfl, rfl⟩
  | cons a l ih =>
    have h1 := h a List.mem_cons_self s
    have h2 := ih (fun b hb => h b (List.mem_cons_of_mem _ hb)) (S.run a s)
    exact ⟨h2.1.trans h1.1, h2.2.trans h1.2⟩

theorem enter_base (hS : S.Lawful) (a : Action) (s : σ) : (S.get (S.enter a s)).base = (S.get s).base := by
  unfold enter
  split
  · rfl
  · unfold alloc
    rw [hS.get_set]
    rfl

theorem enter_off (hS : S.Lawful) (a : Action) (s : σ) : (S.get (S.enter a s)).off = (S.get s).off + a.size := by
  unfold enter
  split
  · rename_i h
    rw [h, Nat.add_zero]
  · unfold alloc
    rw [hS.get_set]
    rfl

theorem enter_top (hS : S.Lawful) (a : Action) (s : σ) : S.top (S.enter a s) = S.top s + a.size := by
  unfold top Arena.top
  rw [enter_base hS, enter_off hS, Nat.add_assoc]

theorem call_restores (hS : S.Lawful) {a : Action} (ha : a.IsCall) (s : σ)
    (h : ∀ b ∈ a.body (S.top s), ∀ t, S.Restores t (S.run b t)) : S.Restores s (S.run a s) := by
  have hall := runAll_restores h (S.enter a s)
  unfold Restores at hall ⊢
  rw [enter_base hS, enter_off hS] at hall
  rw [run_eq hS ha]
  unfold leave
  split
  · rename_i hsize
    rwa [hsize, Nat.add_zero] at hall
  · rw [hS.get_set]
    exact ⟨hall.1, rfl⟩

theorem op_restores (hS : S.Lawful) {a : Action} (ha : ¬ a.IsCall) (s : σ) : S.Restores s (S.run a s) :=
  ⟨hS.base a ha s, hS.off a ha s⟩

theorem connector_restores (hS : S.Lawful) (dim inputs outputs : Nat) (s : σ) :
    S.Restores s (S.run (.connector dim inputs outputs) s) := by
  refine call_restores hS (a := .connector dim inputs outputs) trivial s fun b hb => op_restores hS ?_
  simp only [Action.body, Action.flips, List.cons_append, List.mem_cons, List.mem_append, List.mem_map,
    List.not_mem_nil, or_false] at hb
  rcases hb with rfl | ⟨l, -, rfl⟩ | rfl <;> exact id

theorem merged_restores (hS : S.Lawful) (dim primary ingress outputs : Nat) (s : σ) :
    S.Restores s (S.run (.merged dim primary ingress outputs) s) := by
  refine call_restores hS (a := .merged dim primary ingress outputs) trivial s fun b hb => op_restores hS ?_
  cases dim with
  | zero =>
    rw [List.mem_singleton.mp hb]
    exact id
  | succ k =>
    simp only [Action.body, Action.flips, List.cons_append, List.mem_cons, List.mem_append, List.mem_map,
      List.not_mem_nil, or_false] at hb
    rcases hb with rfl | (⟨l, -, rfl⟩ | rfl | ⟨l, -, rfl⟩) | rfl <;> exact id

theorem halves_restores (hS : S.Lawful) {w top out : Nat} {b : Action} (hb : b ∈ Action.halves w top out) (s : σ) :
    S.Restores s (S.run b s) := by
  refine op_restores hS ?_ s
  simp only [Action.halves, List.mem_cons, List.not_mem_nil, or_false] at hb
  rcases hb with rfl | rfl <;> exact id

theorem connected_restores (hS : S.Lawful) (level inputs out : Nat) (s : σ) :
    S.Restores s (S.run (.connected level inputs out) s) := by
  induction level generalizing inputs out s with
  | zero =>
    refine call_restores hS (a := .connected _ inputs out) trivial s fun b hb => ?_
    rw [List.mem_singleton.mp hb]
    exact op_restores hS id
  | succ k ih =>
    refine call_restores hS (a := .connected _ inputs out) trivial s fun b hb t => ?_
    rcases List.mem_append.mp hb with hb | hb
    · simp only [List.mem_cons, List.not_mem_nil, or_false] at hb
      rcases hb with rfl | rfl | rfl
      · exact ih _ _ t
      · exact merged_restores hS _ _ _ _ t
      · exact ih _ _ t
    · exact halves_restores hS hb t

theorem standalone_restores (hS : S.Lawful) (level out : Nat) (s : σ) :
    S.Restores s (S.run (.standalone level out) s) := by
  induction level generalizing out s with
  | zero =>
    refine call_restores hS (a := .standalone _ out) trivial s fun b hb => ?_
    rw [List.mem_singleton.mp hb]
    exact op_restores hS id
  | succ k ih =>
    refine call_restores hS (a := .standalone _ out) trivial s fun b hb t => ?_
    rcases List.mem_append.mp hb with hb | hb
    · simp only [List.mem_cons, List.not_mem_nil, or_false] at hb
      rcases hb with rfl | rfl | rfl
      · exact ih _ t
      · exact connector_restores hS _ _ _ t
      · exact connected_restores hS _ _ _ t
    · exact halves_restores hS hb t

/-- **Every action returns with the arena offset as it found it.** -/
theorem run_restores (hS : S.Lawful) (a : Action) (s : σ) : S.Restores s (S.run a s) := by
  cases a with
  | standalone level out => exact standalone_restores hS level out s
  | connected level inputs out => exact connected_restores hS level inputs out s
  | connector dim inputs outputs => exact connector_restores hS dim inputs outputs s
  | merged dim primary ingress outputs => exact merged_restores hS dim primary ingress outputs s
  | _ => exact op_restores hS id s

/-! ## Live arrays -/

/-- A point of a run: an action, the state it starts in, and the arrays then live. -/
structure Point (σ : Type) where
  state : σ
  live : List Block
  action : Action

/-- `Q` is executed directly below `P`. -/
inductive Point.Enters (S : Scheme σ β) : Point σ → Point σ → Prop where
  | mk (P : Point σ) (before after : List Action) (a : Action)
    (h : P.action.body (S.top P.state) = before ++ a :: after) :
    Enters S P ⟨S.runAll before (S.enter P.action P.state), P.action.frame (S.top P.state) ++ P.live, a⟩

/-- The arrays of an action: each lies in a live array, what is read in others than what is written. -/
structure Accesses (live : List Block) (a : Action) : Prop where
  write : ∃ b ∈ live, a.write.Within b ∧ ∀ r ∈ a.reads, r.Apart b
  reads : ∀ r ∈ a.reads, ∃ b ∈ live, r.Within b ∧ a.write.Apart b

/-- What holds at a point: the live arrays are apart and below the arena's offset, the arrays of the action are among
them, and the arena has room up to `limit` for what it allocates. -/
structure Point.Safe (S : Scheme σ β) (limit : Nat) (P : Point σ) : Prop where
  apart : P.live.Pairwise Block.Apart
  below : ∀ b ∈ P.live, b.stop ≤ S.top P.state
  accesses : Accesses P.live P.action
  room : S.top P.state + P.action.peak ≤ limit

end Scheme

open PoseDB.Graph.Action in
theorem mem_arrays {w n top : Nat} {b : Block} (hb : b ∈ arrays w n top) :
    top ≤ b.start ∧ b.stop ≤ top + n * w := by
  induction n generalizing top with
  | zero => cases hb
  | succ n ih =>
    rw [Nat.add_mul, Nat.one_mul]
    rcases List.mem_cons.mp hb with rfl | hb
    · exact ⟨le_rfl, show top + w ≤ _ by omega⟩
    · have := ih hb
      omega

open PoseDB.Graph.Action in
theorem pairwise_arrays (w n top : Nat) : (arrays w n top).Pairwise Block.Apart := by
  induction n generalizing top with
  | zero => exact List.Pairwise.nil
  | succ n ih => exact List.pairwise_cons.mpr ⟨fun b hb => .inl (mem_arrays hb).1, ih (top + w)⟩

namespace Action

theorem frame_within {a : Action} {top : Nat} {b : Block} (hb : b ∈ a.frame top) :
    top ≤ b.start ∧ b.stop ≤ top + a.size := by
  cases a with
  | standalone level out =>
    cases level with
    | zero => cases hb
    | succ k =>
      have := mem_arrays hb
      rw [size]
      omega
  | connected level inputs out =>
    cases level with
    | zero => cases hb
    | succ k =>
      have := mem_arrays hb
      rw [size]
      omega
  | connector dim inputs outputs =>
    have := mem_arrays hb
    rw [size]
    omega
  | merged dim primary ingress outputs =>
    cases dim with
    | zero => cases hb
    | succ k =>
      have := mem_arrays hb
      rw [size]
      omega
  | _ => cases hb

theorem frame_pairwise (a : Action) (top : Nat) : (a.frame top).Pairwise Block.Apart := by
  unfold frame
  split
  all_goals first | exact pairwise_arrays _ _ _ | exact List.Pairwise.nil

theorem size_le_peak (a : Action) : a.size ≤ a.peak := by
  cases a with
  | standalone level out =>
    cases level with
    | zero => exact Nat.zero_le _
    | succ k =>
      rw [size, peak, standalonePeak]
      omega
  | connected level inputs out =>
    cases level with
    | zero => exact Nat.zero_le _
    | succ k =>
      rw [size, peak, connectedPeak]
      omega
  | connector dim inputs outputs => exact le_rfl
  | merged dim primary ingress outputs =>
    cases dim with
    | zero => exact Nat.zero_le _
    | succ k =>
      rw [size, peak, mergedPeak, if_neg (Nat.succ_ne_zero k)]
      omega
  | _ => exact le_rfl

end Action

namespace Scheme
open PoseDB.Graph.Action

/-! ### What an action hands on -/

section Child
variable {live : List Block} {a : Action} {W R Q r r' : Block}

theorem accesses_none (hW : W ∈ live) (hw : a.write.Within W) (hr : a.reads = []) : Accesses live a := by
  refine ⟨⟨W, hW, hw, ?_⟩, ?_⟩ <;> rw [hr] <;> exact fun _ h => absurd h List.not_mem_nil

theorem accesses_one (hW : W ∈ live) (hR : R ∈ live) (hr : a.reads = [r])
    (h : (a.write.Within W ∧ r.Apart W) ∧ r.Within R ∧ a.write.Apart R) : Accesses live a := by
  refine ⟨⟨W, hW, h.1.1, ?_⟩, ?_⟩ <;> rw [hr, List.forall_mem_singleton]
  · exact h.1.2
  · exact ⟨R, hR, h.2⟩

theorem accesses_two (hW : W ∈ live) (hR : R ∈ live) (hQ : Q ∈ live) (hr : a.reads = [r, r'])
    (h : (a.write.Within W ∧ r.Apart W ∧ r'.Apart W) ∧ (r.Within R ∧ a.write.Apart R) ∧
      r'.Within Q ∧ a.write.Apart Q) : Accesses live a := by
  refine ⟨⟨W, hW, h.1.1, ?_⟩, ?_⟩ <;> rw [hr, List.forall_mem_cons, List.forall_mem_singleton]
  · exact h.1.2
  · exact ⟨⟨R, hR, h.2.1⟩, Q, hQ, h.2.2⟩

theorem flips_accesses {dim n x : Nat} {arrs : List Block} (h0 : ⟨x, 2 ^ dim⟩ ∈ arrs) (h1 : ⟨x + 2 ^ dim, 2 ^ dim⟩ ∈ arrs)
    {b : Action} (hb : b ∈ Action.flips dim n x) : Accesses arrs b ∧ b.peak = 0 := by
  obtain ⟨l, -, rfl⟩ := List.mem_map.mp hb
  refine ⟨?_, rfl⟩
  have hmem : ∀ l, ⟨pingPong x (2 ^ dim) l, 2 ^ dim⟩ ∈ arrs := fun l => by
    unfold pingPong
    split
    · exact h0
    · exact h1
  refine accesses_one (hmem (l + 1)) (hmem l) rfl ?_
  have hpos := Nat.two_pow_pos dim
  simp only [Block.Within, Block.Apart, Block.stop, write, pingPong]
  split <;> split <;> omega

end Child

section Children
variable {live : List Block} {top : Nat} (hbelow : ∀ b ∈ live, b.stop ≤ top)
include hbelow

theorem halves_accesses {k out : Nat} {W : Block} (hW : W ∈ live) (hout : (Block.mk out (2 ^ (k + 1))).Within W)
    {b : Action} (hb : b ∈ halves (2 ^ k) top out) : Accesses (arrays (2 ^ k) 3 top ++ live) b ∧ b.peak = 0 := by
  have hpow : 2 ^ (k + 1) = 2 ^ k + 2 ^ k := by rw [pow_succ]; omega
  have hpos := Nat.two_pow_pos k
  have hstop := hbelow W hW
  simp only [Block.Within, Block.stop, hpow] at hout hstop
  simp only [halves, List.mem_cons, List.not_mem_nil, or_false] at hb
  rcases hb with rfl | rfl
  · refine ⟨accesses_one (W := W) (R := ⟨top, 2 ^ k⟩) (by simp [hW]) (by simp [arrays]) rfl ?_, rfl⟩
    simp only [Block.Within, Block.Apart, Block.stop, write]
    omega
  · refine ⟨accesses_one (W := W) (R := ⟨top + 2 ^ k + 2 ^ k, 2 ^ k⟩) (by simp [hW]) (by simp [arrays]) rfl ?_, rfl⟩
    simp only [Block.Within, Block.Apart, Block.stop, write]
    omega

theorem standalone_accesses {k out : Nat} (h : Accesses live (.standalone (k + 1) out)) {b : Action}
    (hb : b ∈ (Action.standalone (k + 1) out).body top) :
    Accesses (arrays (2 ^ k) 3 top ++ live) b ∧ 2 ^ k + 2 ^ k + 2 ^ k + b.peak ≤ standalonePeak (k + 1) := by
  obtain ⟨W, hW, hout, -⟩ := h.write
  have hpos := Nat.two_pow_pos k
  have hpeak : standalonePeak (k + 1) = 3 * 2 ^ k + max (standalonePeak k) (max (connectorPeak k) (connectedPeak k)) :=
    rfl
  rcases List.mem_append.mp hb with hb | hb
  · simp only [List.mem_cons, List.not_mem_nil, or_false] at hb
    rcases hb with rfl | rfl | rfl
    · refine ⟨accesses_none (W := ⟨top, 2 ^ k⟩) (by simp [arrays]) ⟨le_rfl, le_rfl⟩ rfl, ?_⟩
      rw [peak]
      omega
    · refine ⟨accesses_one (W := ⟨top + 2 ^ k, 2 ^ k⟩) (R := ⟨top, 2 ^ k⟩) (by simp [arrays]) (by simp [arrays]) rfl ?_, ?_⟩
      · simp only [Block.Within, Block.Apart, Block.stop, write]
        omega
      · rw [peak]
        omega
    · refine ⟨accesses_one (W := ⟨top + 2 ^ k + 2 ^ k, 2 ^ k⟩) (R := ⟨top + 2 ^ k, 2 ^ k⟩) (by simp [arrays])
        (by simp [arrays]) rfl ?_, ?_⟩
      · simp only [Block.Within, Block.Apart, Block.stop, write]
        omega
      · rw [peak]
        omega
  · obtain ⟨hacc, hpeak0⟩ := halves_accesses hbelow hW hout hb
    exact ⟨hacc, by omega⟩

theorem connected_accesses {k inputs out : Nat} (h : Accesses live (.connected (k + 1) inputs out)) {b : Action}
    (hb : b ∈ (Action.connected (k + 1) inputs out).body top) :
    Accesses (arrays (2 ^ k) 3 top ++ live) b ∧ 2 ^ k + 2 ^ k + 2 ^ k + b.peak ≤ connectedPeak (k + 1) := by
  obtain ⟨W, hW, hout, -⟩ := h.write
  obtain ⟨R, hR, hin, -⟩ := h.reads _ List.mem_cons_self
  have hpow : 2 ^ (k + 1) = 2 ^ k + 2 ^ k := by rw [pow_succ]; omega
  have hpos := Nat.two_pow_pos k
  have hstop := hbelow R hR
  have hpeak : connectedPeak (k + 1) = 3 * 2 ^ k + max (connectedPeak k) (mergedPeak k) := rfl
  rcases List.mem_append.mp hb with hb | hb
  · simp only [Block.Within, Block.stop, hpow] at hin hstop
    simp only [List.mem_cons, List.not_mem_nil, or_false] at hb
    rcases hb with rfl | rfl | rfl
    · refine ⟨accesses_one (W := ⟨top, 2 ^ k⟩) (R := R) (by simp [arrays]) (by simp [hR]) rfl ?_, ?_⟩
      · simp only [Block.Within, Block.Apart, Block.stop, write]
        omega
      · rw [peak]
        omega
    · refine ⟨accesses_two (W := ⟨top + 2 ^ k, 2 ^ k⟩) (R := ⟨top, 2 ^ k⟩) (Q := R) (by simp [arrays]) (by simp [arrays])
        (by simp [hR]) rfl ?_, ?_⟩
      · simp only [Block.Within, Block.Apart, Block.stop, write]
        omega
      · rw [peak]
        omega
    · refine ⟨accesses_one (W := ⟨top + 2 ^ k + 2 ^ k, 2 ^ k⟩) (R := ⟨top + 2 ^ k, 2 ^ k⟩) (by simp [arrays])
        (by simp [arrays]) rfl ?_, ?_⟩
      · simp only [Block.Within, Block.Apart, Block.stop, write]
        omega
      · rw [peak]
        omega
  · obtain ⟨hacc, hpeak0⟩ := halves_accesses hbelow hW hout hb
    exact ⟨hacc, by omega⟩

theorem connector_accesses {dim inputs outputs : Nat} (h : Accesses live (.connector dim inputs outputs)) {b : Action}
    (hb : b ∈ (Action.connector dim inputs outputs).body top) :
    Accesses (arrays (2 ^ dim) 2 top ++ live) b ∧ b.peak = 0 := by
  obtain ⟨W, hW, hout, -⟩ := h.write
  obtain ⟨R, hR, hin, -⟩ := h.reads _ List.mem_cons_self
  have hpos := Nat.two_pow_pos dim
  have hstopW := hbelow W hW
  have hstopR := hbelow R hR
  have h0 : (⟨top, 2 ^ dim⟩ : Block) ∈ arrays (2 ^ dim) 2 top ++ live := by simp [arrays]
  have h1 : (⟨top + 2 ^ dim, 2 ^ dim⟩ : Block) ∈ arrays (2 ^ dim) 2 top ++ live := by simp [arrays]
  simp only [Block.Within, Block.stop, write] at hin hout hstopW hstopR
  simp only [body, List.cons_append, List.mem_cons, List.mem_append, List.not_mem_nil, or_false] at hb
  rcases hb with rfl | hb | rfl
  · refine ⟨accesses_one (R := R) h0 (by simp [hR]) rfl ?_, rfl⟩
    simp only [Block.Within, Block.Apart, Block.stop, write]
    omega
  · exact flips_accesses h0 h1 hb
  · have hR' : (⟨pingPong top (2 ^ dim) dim, 2 ^ dim⟩ : Block) ∈ arrays (2 ^ dim) 2 top ++ live := by
      unfold pingPong
      split
      · exact h0
      · exact h1
    refine ⟨accesses_one (W := W) (by simp [hW]) hR' rfl ?_, rfl⟩
    simp only [Block.Within, Block.Apart, Block.stop, write, pingPong]
    split <;> omega

theorem merged_accesses {k primary ingress outputs : Nat} (h : Accesses live (.merged (k + 1) primary ingress outputs))
    {b : Action} (hb : b ∈ (Action.merged (k + 1) primary ingress outputs).body top) :
    Accesses (arrays (2 ^ (k + 1)) 4 top ++ live) b ∧ b.peak = 0 := by
  obtain ⟨W, hW, hout, -⟩ := h.write
  obtain ⟨P, hP, hprim, -⟩ := h.reads _ List.mem_cons_self
  obtain ⟨I, hI, hing, -⟩ := h.reads _ (List.mem_cons_of_mem _ List.mem_cons_self)
  obtain ⟨w, hw⟩ : ∃ w, w = 2 ^ (k + 1) := ⟨_, rfl⟩
  have hpos : 0 < w := hw ▸ Nat.two_pow_pos (k + 1)
  have hstopW := hbelow W hW
  have hstopP := hbelow P hP
  have hstopI := hbelow I hI
  simp only [Block.Within, Block.stop, write, ← hw] at hprim hing hout hstopW hstopP hstopI
  simp only [body, List.cons_append, List.mem_cons, List.mem_append, List.not_mem_nil, or_false, ← hw] at hb
  have h0 : (⟨top, w⟩ : Block) ∈ arrays w 4 top ++ live := by simp [arrays]
  have h1 : (⟨top + w, w⟩ : Block) ∈ arrays w 4 top ++ live := by simp [arrays]
  have h2 : (⟨top + (w + w), w⟩ : Block) ∈ arrays w 4 top ++ live := by simp [arrays, Nat.add_assoc]
  have h3 : (⟨top + (w + w) + w, w⟩ : Block) ∈ arrays w 4 top ++ live := by simp [arrays, Nat.add_assoc]
  have hpp : ∀ x l, (⟨x, w⟩ : Block) ∈ arrays w 4 top ++ live → (⟨x + w, w⟩ : Block) ∈ arrays w 4 top ++ live →
      (⟨pingPong x w l, w⟩ : Block) ∈ arrays w 4 top ++ live := fun x l hx hx' => by
    unfold pingPong
    split
    · exact hx
    · exact hx'
  rw [← hw]
  rcases hb with rfl | (hb | rfl | hb) | rfl
  · refine ⟨accesses_one (R := I) h0 (by simp [hI]) rfl ?_, rfl⟩
    simp only [Block.Within, Block.Apart, Block.stop, write, ← hw]
    omega
  · subst hw
    exact flips_accesses h0 h1 hb
  · refine ⟨accesses_two (R := P) h2 (by simp [hP]) (hpp top (k + 1) h0 h1) rfl ?_, rfl⟩
    simp only [Block.Within, Block.Apart, Block.stop, write, pingPong, ← hw]
    split <;> omega
  · subst hw
    exact flips_accesses h2 h3 hb
  · refine ⟨accesses_one (W := W) (by simp [hW]) (hpp (top + (w + w)) k h2 h3) rfl ?_, rfl⟩
    simp only [Block.Within, Block.Apart, Block.stop, write, pingPong, ← hw]
    split <;> omega

theorem body_accesses {a b : Action} (h : Accesses live a) (hb : b ∈ a.body top) :
    Accesses (a.frame top ++ live) b ∧ a.size + b.peak ≤ a.peak := by
  cases a with
  | standalone level out =>
    cases level with
    | zero =>
      obtain ⟨W, hW, hout, -⟩ := h.write
      rw [List.mem_singleton.mp hb]
      exact ⟨accesses_none hW hout rfl, le_rfl⟩
    | succ k => exact standalone_accesses hbelow h hb
  | connected level inputs out =>
    cases level with
    | zero =>
      rw [List.mem_singleton.mp hb]
      exact ⟨⟨h.write, h.reads⟩, le_rfl⟩
    | succ k => exact connected_accesses hbelow h hb
  | connector dim inputs outputs =>
    obtain ⟨hacc, hpeak⟩ := connector_accesses hbelow h hb
    exact ⟨hacc, by rw [hpeak]; exact le_rfl⟩
  | merged dim primary ingress outputs =>
    cases dim with
    | zero =>
      rw [List.mem_singleton.mp hb]
      exact ⟨⟨h.write, h.reads⟩, le_rfl⟩
    | succ k =>
      obtain ⟨hacc, hpeak⟩ := merged_accesses hbelow h hb
      exact ⟨hacc, by rw [hpeak]; exact size_le_peak (.merged (k + 1) primary ingress outputs)⟩
  | _ => exact absurd hb List.not_mem_nil

end Children

theorem Point.Safe.enters {σ β : Type} {S : Scheme σ β} (hS : S.Lawful) {limit : Nat} {P Q : Point σ}
    (h : P.Safe S limit) (hQ : P.Enters S Q) : Q.Safe S limit := by
  obtain ⟨before, after, a, hbody⟩ := hQ
  have hmem : a ∈ P.action.body (S.top P.state) := by
    rw [hbody]
    exact List.mem_append_right _ List.mem_cons_self
  obtain ⟨hacc, hpeak⟩ := body_accesses h.below h.accesses hmem
  have htop : S.top (S.runAll before (S.enter P.action P.state)) = S.top P.state + P.action.size :=
    (runAll_restores (fun b _ => run_restores hS b) _).top.trans (enter_top hS _ _)
  have hroom := h.room
  refine ⟨List.pairwise_append.mpr ⟨P.action.frame_pairwise _, h.apart, fun x hx y hy => ?_⟩, fun b hb => ?_, hacc, ?_⟩
  · have h1 := (frame_within hx).1
    have h2 := h.below y hy
    exact .inr (h2.trans h1)
  · rw [htop]
    rcases List.mem_append.mp hb with hb | hb
    · exact (frame_within hb).2
    · exact (h.below b hb).trans (Nat.le_add_right _ _)
  · rw [htop]
    dsimp only
    omega

/-- **Every action of a run is safe**, at any depth. -/
theorem Point.Safe.reach {σ β : Type} {S : Scheme σ β} (hS : S.Lawful) {limit : Nat} {P Q : Point σ}
    (h : P.Safe S limit) (hQ : Relation.ReflTransGen (Point.Enters S) P Q) : Q.Safe S limit := by
  induction hQ with
  | refl => exact h
  | tail _ hstep ih => exact ih.enters hS hstep

end Scheme

end PoseDB.Graph
