import PoseDB.Graph.Emission
import PoseDB.Graph.Shape

/-!
# Labeling a chunk (`do_label`, `pose_graph_label`, `pose_graph_challenge`)

The caller's scratch buffer is carved into the label buffer, indexed by node id, and a tail of `uint64_t` cells with
the two base arrays and the two arenas. Buffers arrive with arbitrary content. `doLabel_spec` says what a call leaves
behind: the label buffer satisfies the equations of the graph (`LabeledBy`), and rank `r` of the output is the label
of `challengeNode m r`.
-/

set_option autoImplicit false

namespace PoseDB.Graph
open Loops Mem

variable {α : Type}

/-- A scratch buffer: its label blocks and the `uint64_t` cells after them. -/
structure Scratch (α : Type) where
  labels : Nat → α
  ids : Nat → Nat

/-- The result of a labeling call: the return code, the memory that holds the output blocks, the scratch buffer, and
the node-hash derivations made. -/
structure LabelResult (α : Type) where
  rc : Int
  mem : Nat → α
  scratch : Scratch α
  hashed : List (HashCall α)

section DoLabel
variable (H : PoseHash α)

/-- The emitter that `do_label` sets up for the left half. -/
def labelEmitter (seed : α) (m : Nat) (scratch : Scratch α) (arena arenaElems : Nat) (algo : PoseHashAlgo) :
    Emitter α :=
  { nextId := 0, labels := some scratch.labels, nodes := none, seed := seed,
    desc := H.graphDescriptor m (poseGraphParameterN m), arena := arena, arenaCap := arenaElems, arenaOff := 0,
    algo := algo, mem := scratch.ids, arenaHi := 0, emitted := [], hashed := [] }

def Emitter.restart (e : Emitter α) (nextId arena arenaElems : Nat) : Emitter α :=
  { e with nextId := nextId, arena := arena, arenaCap := arenaElems, arenaOff := 0 }

/-- `do_label`; `out` is the address of the output blocks in `mem`. -/
def doLabel (seed : α) (m : Nat) (mem : Nat → α) (out : Nat) (scratch : Scratch α) (algo : PoseHashAlgo) :
    LabelResult α :=
  if m = 0 ∨ m > poseGraphMaxM then ⟨-1, mem, scratch, []⟩
  else
    let n := poseGraphParameterN m
    let level := n + 1
    let halfW := 2 ^ n
    let retained := m - halfW
    let leftTotal := standaloneNodeCount level
    let arenaElems := poseArenaFactor * halfW
    let leftBase := 0
    let rightBase := leftBase + 2 * halfW
    let arenaLeft := rightBase + 2 * halfW
    let arenaRight := arenaLeft + arenaElems
    let e := labelEmitter H seed m scratch arenaLeft arenaElems algo
    let e := emitStandalone H e level leftBase
    let e := e.restart leftTotal arenaRight arenaElems
    let e := emitStandalone H e level rightBase
    let labels := e.labels.getD scratch.labels
    -- second half of `leftBase`, then the first `retained` of the second half of `rightBase`
    let mem := loop halfW (fun i mem =>
      Function.update mem (out + i) (labels (e.mem (leftBase + halfW + i)))) mem
    let mem := loop retained (fun i mem =>
      Function.update mem (out + (halfW + i)) (labels (e.mem (rightBase + halfW + i)))) mem
    ⟨0, mem, ⟨labels, e.mem⟩, e.hashed⟩

/-- `pose_graph_label`; `buf` is the scratch buffer, absent when `malloc` fails. -/
def poseGraphLabel (seed : α) (m : Nat) (mem : Nat → α) (out : Nat) (buf : Option (Scratch α)) (algo : PoseHashAlgo) :
    Int × (Nat → α) :=
  match buf with
  | none => (-1, mem)
  | some scratch =>
    let r := doLabel H seed m mem out scratch algo
    (r.rc, r.mem)

/-- `pose_graph_challenge`: the return code and, on success, the block written to `out`. `all` and `buf` are the
buffers it allocates. -/
def poseGraphChallenge (seed : α) (m challengeIdx : Nat) (all : Option (Nat → α)) (buf : Option (Scratch α))
    (algo : PoseHashAlgo) : Int × Option α :=
  if challengeIdx ≥ m then (-1, none)
  else
    match all, buf with
    | some all, some scratch =>
      let r := doLabel H seed m all 0 scratch algo
      (r.rc, if r.rc = 0 then some (r.mem challengeIdx) else none)
    | _, _ => (-1, none)

end DoLabel

/-! ## Both halves -/

/-- The node whose label is the output of rank `r`. -/
def challengeNode (m r : Nat) : Nat :=
  let n := poseGraphParameterN m
  if r < 2 ^ n then standaloneBase (n + 1) 0 (2 ^ n + r)
  else standaloneBase (n + 1) (standaloneNodeCount (n + 1)) (2 ^ n + (r - 2 ^ n))

variable {H : PoseHash α}

/-- The two standalone emissions of a pass, the arena set up anew in between or not. -/
theorem emitStandalone_twice {m level : Nat} (left right : Nat) {e e2 : Emitter α} (hlevel : level = poseGraphParameterN m + 1)
    (hM : e.core.OneMode) (h0 : e.nextId = 0) (hcore : e2.core = (emitStandalone H e level left).core)
    (hmem : e2.mem = (emitStandalone H e level left).mem) (hsep : left + 2 ^ level ≤ right)
    (htop : left + 2 ^ level ≤ e.top) (htop2 : right + 2 ^ level ≤ e2.top) :
    let e3 := emitStandalone H e2 level right
    e3.core = e.core.run H (scaffoldPreds m) (scratchNodeCount m) ∧
      (∀ i < 2 ^ level, e3.mem (left + i) = standaloneBase level 0 i) ∧
      ∀ i < 2 ^ level, e3.mem (right + i) = standaloneBase level (standaloneNodeCount level) i := by
  rw [emitStandalone_eq] at hcore hmem
  rw [emitStandalone_eq]
  exact Scheme.Follows.standalone_twice (F := emitFollows H (scaffoldPreds m) (scratchNodeCount m)) _ _ le_rfl hlevel hM h0
    hcore hmem hsep htop htop2

theorem emitStandalone_nextId {m left : Nat} {e : Emitter α} (hM : e.core.OneMode) (h0 : e.nextId = 0)
    (htop : left + 2 ^ (poseGraphParameterN m + 1) ≤ e.top) :
    (emitStandalone H e (poseGraphParameterN m + 1) left).nextId = standaloneNodeCount (poseGraphParameterN m + 1) := by
  have h := emitStandalone_emits (H := H) (G := standalonePreds (poseGraphParameterN m + 1) 0)
    (N := standaloneNodeCount (poseGraphParameterN m + 1)) hM (by omega) (fun i _ => by rw [h0]) htop
  exact h.toRan.nextId.trans (by rw [show (emitFollows H _ _).nextId e = 0 from h0, Nat.zero_add])

theorem scaffoldPreds_lt {m id : Nat} (hid : id < scratchNodeCount m) : ∀ p ∈ scaffoldPreds m id, p < id := by
  intro p hp
  rw [scratchNodeCount] at hid
  rw [scaffoldPreds] at hp
  have hpos := standaloneNodeCount_pos (poseGraphParameterN m + 1)
  split at hp
  · rename_i h
    rcases Nat.eq_zero_or_pos id with rfl | h0
    · rw [standalonePreds_first] at hp; cases hp
    · exact (standalonePreds_entry h0 (by omega)).lt p hp
  · rename_i h
    rcases Nat.eq_or_lt_of_le (Nat.not_lt.mp h) with h0 | h0
    · rw [← h0, standalonePreds_first] at hp; cases hp
    · exact (standalonePreds_entry h0 (by omega)).lt p hp

theorem output_loops (mem : Nat → α) (out a b : Nat) (v w : Nat → α) :
    loop b (fun i mem => Function.update mem (out + (a + i)) (w i))
      (loop a (fun i mem => Function.update mem (out + i) (v i)) mem) =
        store mem out (a + b) fun i => if i < a then v i else w (i - a) := by
  rw [loop_update_eq_store, ← store_store, store_congr mem out a (w := fun i => if i < a then v i else w (i - a))
    fun i hi => (if_pos hi).symm]
  simp only [← Nat.add_assoc]
  rw [loop_update_eq_store]
  refine store_congr _ _ _ fun i _ => ?_
  rw [if_neg (by omega), Nat.add_sub_cancel_left]

/-- **What `do_label` leaves behind.** -/
theorem doLabel_spec {m : Nat} (hm : 1 ≤ m) (hmax : m ≤ poseGraphMaxM) (seed : α) (mem : Nat → α) (out : Nat)
    (scratch : Scratch α) (algo : PoseHashAlgo) :
    let r := doLabel H seed m mem out scratch algo
    let L := r.scratch.labels
    r.rc = 0 ∧
      LabeledBy (H.label seed (H.graphDescriptor m (poseGraphParameterN m)) algo) (scaffoldPreds m) 0
        (scratchNodeCount m) L ∧
      r.hashed = (List.range (scratchNodeCount m)).map (fun id => nodeCall L id (scaffoldPreds m id)) ∧
      r.mem = store mem out m fun r => L (challengeNode m r) := by
  have hle := two_pow_poseGraphParameterN_le hm
  have hpow : 2 ^ (poseGraphParameterN m + 1) = 2 * 2 ^ poseGraphParameterN m := by rw [pow_succ]; omega
  have hge := le_two_pow_poseGraphParameterN m
  have hpos := Nat.two_pow_pos (poseGraphParameterN m)
  obtain ⟨e, he⟩ : ∃ e, e = labelEmitter H seed m scratch (0 + 2 * 2 ^ poseGraphParameterN m +
    2 * 2 ^ poseGraphParameterN m) (poseArenaFactor * 2 ^ poseGraphParameterN m) algo := ⟨_, rfl⟩
  have hlabels : e.core.labels = some scratch.labels := by rw [he]; rfl
  have hM : e.core.OneMode := fun _ => by rw [he]; rfl
  have h0 : e.nextId = 0 := by rw [he]; rfl
  have htop : e.top = 0 + 2 * 2 ^ poseGraphParameterN m + 2 * 2 ^ poseGraphParameterN m := by rw [he]; rfl
  have hnext : (emitStandalone H e (poseGraphParameterN m + 1) 0).nextId =
      standaloneNodeCount (poseGraphParameterN m + 1) := emitStandalone_nextId hM h0 (by omega)
  simp only [doLabel, if_neg (show ¬(m = 0 ∨ m > poseGraphMaxM) by omega), ← he]
  obtain ⟨e2, he2⟩ : ∃ e2, e2 = (emitStandalone H e (poseGraphParameterN m + 1) 0).restart
    (standaloneNodeCount (poseGraphParameterN m + 1)) (0 + 2 * 2 ^ poseGraphParameterN m +
      2 * 2 ^ poseGraphParameterN m + poseArenaFactor * 2 ^ poseGraphParameterN m)
    (poseArenaFactor * 2 ^ poseGraphParameterN m) := ⟨_, rfl⟩
  have hcore2 : e2.core = (emitStandalone H e (poseGraphParameterN m + 1) 0).core := by
    rw [he2, ← hnext]; rfl
  have htop2 : e2.top = 0 + 2 * 2 ^ poseGraphParameterN m + 2 * 2 ^ poseGraphParameterN m +
      poseArenaFactor * 2 ^ poseGraphParameterN m := by rw [he2]; rfl
  obtain ⟨hcore, hleft, hright⟩ := emitStandalone_twice (H := H) (m := m) 0
    (0 + 2 * 2 ^ poseGraphParameterN m) rfl hM h0 hcore2 (by rw [he2]; rfl) (by omega) (by omega) (by omega)
  rw [← he2]
  revert hcore hleft hright
  generalize emitStandalone H e2 (poseGraphParameterN m + 1) (0 + 2 * 2 ^ poseGraphParameterN m) = e3
  intro hcore hleft hright
  obtain ⟨L, hL, -, hlab, hcalls⟩ := EmitCore.run_labels (H := H) (P := scaffoldPreds m) (k := e.core) hlabels
    (scratchNodeCount m) fun id _ hid => scaffoldPreds_lt (by rw [show e.core.nextId = 0 from h0] at hid; omega)
  have hk0 : e.core.nextId = 0 := h0
  have hh0 : e.core.hashed = [] := by rw [he]; rfl
  rw [← hcore] at hL hcalls
  rw [hk0, Nat.zero_add] at hlab
  rw [hk0, hh0, List.nil_append, ← List.range_eq_range'] at hcalls
  have hL3 : e3.labels = some L := hL
  have hh3 : e3.hashed = _ := hcalls
  have hseed : e.core.label H = H.label seed (H.graphDescriptor m (poseGraphParameterN m)) algo := by rw [he]; rfl
  simp only [hL3, Option.getD_some, output_loops, hh3]
  refine ⟨trivial, hseed ▸ hlab, trivial, ?_⟩
  rw [show 2 ^ poseGraphParameterN m + (m - 2 ^ poseGraphParameterN m) = m by omega]
  refine store_congr _ _ _ fun r hr => ?_
  rw [challengeNode]
  by_cases hr' : r < 2 ^ poseGraphParameterN m
  · rw [if_pos hr', if_pos hr', ← hleft _ (by omega), Nat.add_assoc]
  · rw [if_neg hr', if_neg hr', ← hright _ (by omega), Nat.add_assoc]

end PoseDB.Graph
