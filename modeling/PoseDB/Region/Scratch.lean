import PoseDB.Graph.Arrays
import PoseDB.Graph.Edges
import PoseDB.Region.Region

/-!
# Scratch buffers suffice (`pose_graph_scratch_bytes`, `pose_graph_scratch_bytes_inplace`)

Both emitters run through the arrays of `Graph.Arrays`: their allocations end at `6.5 * 2^n` elements, below the
`16 * 2^n` of the arena, the arrays they read and write never overlap, and the layout of `m` blocks ends inside the
buffer sized for `chunk_blocks ≥ m` (`scratch_suffices`).
-/

set_option autoImplicit false

namespace PoseDB.Region
open Loops Mem PoseDB.Graph Scheme

variable {α : Type} {H : PoseHash α}

/-! ## The operations on arrays do not allocate -/

/-- The arena of an id-carrying emitter, its contents apart. -/
def Emitter.SameArena (e e' : Emitter α) : Prop := e'.arena = e.arena ∧ e'.arenaOff = e.arenaOff

section IdLayers
variable {e e' e'' : Emitter α}

theorem Emitter.SameArena.trans (h : Emitter.SameArena e e') (h' : Emitter.SameArena e' e'') :
    Emitter.SameArena e e'' :=
  ⟨h'.1.trans h.1, h'.2.trans h.2⟩

theorem edgeLayer1_arena (w src dst : Nat) (e : Emitter α) : Emitter.SameArena e (edgeLayer1 H w src dst e) :=
  loop_inv (fun _ t => Emitter.SameArena e t) ⟨rfl, rfl⟩ fun _ _ _ h => h.trans ⟨rfl, rfl⟩

theorem edgeLayer2_arena (w : Nat) (a0 a1 : Nat → Nat) (dst : Nat) (e : Emitter α) :
    Emitter.SameArena e (edgeLayer2 H w a0 a1 dst e) :=
  loop_inv (fun _ t => Emitter.SameArena e t) ⟨rfl, rfl⟩ fun _ _ _ h => h.trans ⟨rfl, rfl⟩

theorem labelLayer1_arena (w src dst : Nat) (e : Emitter α) : Emitter.SameArena e (labelLayer1 H w src dst e) := by
  refine batchLoop_inv (by decide) (fun _ t => Emitter.SameArena e t) (fun i b t _ _ _ h => h.trans ?_) (Nat.zero_le w)
    ⟨rfl, rfl⟩
  exact loop_inv (fun _ (u : Batch α) => Emitter.SameArena t u.e) ⟨rfl, rfl⟩ fun _ _ _ h => h.trans ⟨rfl, rfl⟩

theorem labelLayer2_arena (w : Nat) (a0 a1 : Nat → Nat) (dst : Nat) (e : Emitter α) :
    Emitter.SameArena e (labelLayer2 H w a0 a1 dst e) := by
  refine batchLoop_inv (by decide) (fun _ t => Emitter.SameArena e t) (fun i b t _ _ _ h => h.trans ?_) (Nat.zero_le w)
    ⟨rfl, rfl⟩
  exact loop_inv (fun _ (u : Batch α) => Emitter.SameArena t u.e) ⟨rfl, rfl⟩ fun _ _ _ h => h.trans ⟨rfl, rfl⟩

theorem layer1_arena (w src dst : Nat) (e : Emitter α) : Emitter.SameArena e (layer1 H w src dst e) := by
  unfold layer1
  split
  · exact labelLayer1_arena w src dst e
  · exact edgeLayer1_arena w src dst e

theorem layer2_arena (w : Nat) (a0 a1 : Nat → Nat) (dst : Nat) (e : Emitter α) :
    Emitter.SameArena e (layer2 H w a0 a1 dst e) := by
  unfold layer2
  split
  · exact labelLayer2_arena w a0 a1 dst e
  · exact edgeLayer2_arena w a0 a1 dst e

theorem emitOp_arena {a : Action} (ha : ¬ a.IsCall) (e : Emitter α) : Emitter.SameArena e ((emitScheme H).run a e) := by
  cases a with
  | source dst | one src dst | merge0 primary ingress dst | copy w src dst => exact ⟨rfl, rfl⟩
  | first dim src dst => exact layer1_arena _ _ _ e
  | flip dim l src dst | merge dim primary ingress dst => exact layer2_arena _ _ _ _ e
  | _ => exact absurd trivial ha

variable (H) in
theorem emitLawful : (emitScheme H).Lawful where
  get_set _ _ := rfl
  set_set _ _ _ := rfl
  base _ ha e := (emitOp_arena ha e).1
  off _ ha e := (emitOp_arena ha e).2

end IdLayers

section LabelLayers

theorem lcLayer_arena (w : Nat) (a0 : Nat → Nat) (a1 : Option (Nat → Nat)) (dst : Nat) (e : LEmitter α) :
    (lcLayer H w a0 a1 dst e).arena = e.arena ∧ (lcLayer H w a0 a1 dst e).arenaOff = e.arenaOff := by
  refine batchLoop_inv (by decide) (fun _ (t : LEmitter α) => t.arena = e.arena ∧ t.arenaOff = e.arenaOff)
    (fun i b t _ _ _ h => ?_) (Nat.zero_le w) ⟨rfl, rfl⟩
  exact loop_inv (fun _ (u : LBatch α) => u.e.arena = e.arena ∧ u.e.arenaOff = e.arenaOff) h fun _ _ _ h => h

theorem lcOp_arena {a : Action} (ha : ¬ a.IsCall) (e : LEmitter α) :
    ((lcScheme H).run a e).arena = e.arena ∧ ((lcScheme H).run a e).arenaOff = e.arenaOff := by
  cases a with
  | source dst | one src dst | merge0 primary ingress dst | copy w src dst => exact ⟨rfl, rfl⟩
  | first dim src dst | flip dim l src dst | merge dim primary ingress dst => exact lcLayer_arena _ _ _ _ e
  | _ => exact absurd trivial ha

variable (H) in
theorem lcLawful : (lcScheme H).Lawful where
  get_set _ _ := rfl
  set_set _ _ _ := rfl
  base _ ha e := (lcOp_arena ha e).1
  off _ ha e := (lcOp_arena ha e).2

end LabelLayers

/-! ## Peaks and sizes -/

theorem connectedPeak_le (k : Nat) : 2 * connectedPeak k ≤ 7 * 2 ^ k := by
  induction k with
  | zero => decide
  | succ k ih =>
    have hpow : 2 ^ (k + 1) = 2 ^ k + 2 ^ k := by rw [pow_succ]; omega
    have hmerged : mergedPeak k ≤ 4 * 2 ^ k := by
      unfold mergedPeak
      split <;> omega
    rw [connectedPeak, hpow]
    omega

/-- The recursion uses at most `6.5` elements for each of the `2^n` base nodes of a half. -/
theorem standalonePeak_le (n : Nat) : standalonePeak (n + 1) ≤ 13 * 2 ^ n / 2 := by
  have h : 2 * standalonePeak (n + 1) ≤ 13 * 2 ^ n := by
    induction n with
    | zero => decide
    | succ n ih =>
      have hpow : 2 ^ (n + 1) = 2 ^ n + 2 ^ n := by rw [pow_succ]; omega
      have hconn := connectedPeak_le (n + 1)
      rw [standalonePeak, connectorPeak]
      omega
  omega

theorem poseGraphParameterN_mono {m c : Nat} (h : m ≤ c) : poseGraphParameterN m ≤ poseGraphParameterN c := by
  by_cases hm : 1 < m
  · have hlo := (poseGraphParameterN_spec hm).1
    have hhi := (poseGraphParameterN_spec (hm.trans_le h)).2
    have hlt : 2 ^ poseGraphParameterN m < 2 ^ (poseGraphParameterN c + 1) := by omega
    exact Nat.le_of_lt_succ ((Nat.pow_lt_pow_iff_right (by decide)).mp hlt)
  · have h0 : poseGraphParameterN m = 0 := by
      unfold poseGraphParameterN
      exact if_pos (by omega)
    omega

theorem scratchNodeCount_mono {m c : Nat} (h : m ≤ c) : scratchNodeCount m ≤ scratchNodeCount c :=
  Nat.mul_le_mul_left 2 (standaloneNodeCount_mono (Nat.succ_le_succ (poseGraphParameterN_mono h)))

/-- `sizeof(uint64_t)`. -/
def sizeofUint64 : Nat := 8

def poseGraphScratchBytes (chunkBlocks : Nat) : Nat :=
  let chunkBlocks := resolveChunkBlocks chunkBlocks
  let halfW := 2 ^ poseGraphParameterN chunkBlocks
  let labels := scratchNodeCount chunkBlocks * poseHashBytes
  let bases := 4 * halfW * sizeofUint64
  let arenas := 2 * poseArenaFactor * halfW * sizeofUint64
  labels + bases + arenas

def poseGraphScratchBytesInplace (chunkBlocks : Nat) : Nat :=
  let chunkBlocks := resolveChunkBlocks chunkBlocks
  let halfW := 2 ^ poseGraphParameterN chunkBlocks
  let bases := 4 * halfW * poseHashBytes
  let arena := poseArenaFactor * halfW * poseHashBytes
  bases + arena

/-! ## The layouts -/

/-- The arena offsets of `do_label`, in cells after the labels, and of `do_label_inplace`, in label slots. -/
def arenaLeft (m : Nat) : Nat := 0 + 2 * 2 ^ poseGraphParameterN m + 2 * 2 ^ poseGraphParameterN m

def arenaElems (m : Nat) : Nat := poseArenaFactor * 2 ^ poseGraphParameterN m

def arenaRight (m : Nat) : Nat := arenaLeft m + arenaElems m

/-- The `6.5 * 2^n` elements that the allocations stay within. -/
def arenaBound (m : Nat) : Nat := 13 * 2 ^ poseGraphParameterN m / 2

/-- The two base arrays, live while either half is emitted. -/
def baseArrays (m : Nat) : List Block :=
  [⟨0, 2 * 2 ^ poseGraphParameterN m⟩, ⟨0 + 2 * 2 ^ poseGraphParameterN m, 2 * 2 ^ poseGraphParameterN m⟩]

section Points
variable (H) (seed : α) (m : Nat) (scratch : Scratch α) (algo : PoseHashAlgo)

/-- The call of `emit_standalone` for the left half. -/
def labelLeft : Point (Emitter α) :=
  ⟨labelEmitter H seed m scratch (arenaLeft m) (arenaElems m) algo, baseArrays m,
    .standalone (poseGraphParameterN m + 1) 0⟩

/-- The call of `emit_standalone` for the right half. -/
def labelRight : Point (Emitter α) :=
  ⟨(emitStandalone H (labelLeft H seed m scratch algo).state (poseGraphParameterN m + 1) 0).restart
      (standaloneNodeCount (poseGraphParameterN m + 1)) (arenaRight m) (arenaElems m),
    baseArrays m, .standalone (poseGraphParameterN m + 1) (0 + 2 * 2 ^ poseGraphParameterN m)⟩

/-- The call of `lc_standalone` for the left half. -/
def inplaceLeft : Point (LEmitter α) :=
  ⟨inplaceEmitter H seed m scratch.labels (arenaLeft m) (arenaElems m) algo, baseArrays m,
    .standalone (poseGraphParameterN m + 1) 0⟩

/-- The call of `lc_standalone` for the right half. -/
def inplaceRight : Point (LEmitter α) :=
  ⟨{ lcStandalone H (inplaceLeft H seed m scratch algo).state (poseGraphParameterN m + 1) 0 with
      nextId := standaloneNodeCount (poseGraphParameterN m + 1), arenaOff := 0 },
    baseArrays m, .standalone (poseGraphParameterN m + 1) (0 + 2 * 2 ^ poseGraphParameterN m)⟩

/-- These are the two calls that `do_label` makes. -/
theorem doLabel_scratch (mem : Nat → α) (out : Nat) (hm : ¬(m = 0 ∨ m > poseGraphMaxM)) :
    let e := (emitScheme H).run (labelRight H seed m scratch algo).action (labelRight H seed m scratch algo).state
    (doLabel H seed m mem out scratch algo).scratch = ⟨e.labels.getD scratch.labels, e.mem⟩ ∧
      (doLabel H seed m mem out scratch algo).hashed = e.hashed := by
  unfold doLabel
  rw [if_neg hm]
  dsimp only [Scheme.run, labelRight]
  rw [← emitStandalone_eq]
  exact ⟨rfl, rfl⟩

/-- These are the two calls that `do_label_inplace` makes. -/
theorem doLabelInplace_scratch (mem : Nat → α) (buf : Nat) (hm : ¬(m = 0 ∨ m > poseGraphMaxM)) :
    let e := (lcScheme H).run (inplaceRight H seed m scratch algo).action (inplaceRight H seed m scratch algo).state
    (doLabelInplace H seed m mem buf scratch algo).scratch.labels = e.mem ∧
      (doLabelInplace H seed m mem buf scratch algo).hashed = e.hashed := by
  unfold doLabelInplace
  rw [if_neg hm]
  dsimp only [Scheme.run, inplaceRight]
  rw [← lcStandalone_eq]
  exact ⟨rfl, rfl⟩

end Points

/-! ## Every access -/

/-- A half starts safely: its base array is one of the two, below the arena. -/
theorem half_safe {σ β : Type} {S : Scheme σ β} {m out limit : Nat} {s : σ}
    (hout : out = 0 ∨ out = 0 + 2 * 2 ^ poseGraphParameterN m) (htop : arenaLeft m ≤ S.top s)
    (hlimit : S.top s + arenaBound m ≤ limit) :
    Point.Safe S limit ⟨s, baseArrays m, .standalone (poseGraphParameterN m + 1) out⟩ := by
  have hpow : 2 ^ (poseGraphParameterN m + 1) = 2 * 2 ^ poseGraphParameterN m := by rw [pow_succ]; omega
  have hpeak := standalonePeak_le (poseGraphParameterN m)
  have hpos := Nat.two_pow_pos (poseGraphParameterN m)
  unfold arenaBound at hlimit
  unfold arenaLeft at htop
  refine ⟨?_, ?_, ?_, ?_⟩
  · refine List.pairwise_pair.mpr (.inl ?_)
    simp only [Block.stop]
    omega
  · unfold baseArrays
    rw [List.forall_mem_cons, List.forall_mem_singleton]
    simp only [Block.stop]
    omega
  · rcases hout with rfl | rfl
    · refine accesses_none (W := ⟨0, 2 * 2 ^ poseGraphParameterN m⟩) List.mem_cons_self ?_ rfl
      simp only [Block.Within, Block.stop, Action.write, hpow]
      omega
    · refine accesses_none (W := ⟨0 + 2 * 2 ^ poseGraphParameterN m, 2 * 2 ^ poseGraphParameterN m⟩)
        (List.mem_cons_of_mem _ List.mem_cons_self) ?_ rfl
      simp only [Block.Within, Block.stop, Action.write, hpow]
      omega
  · rw [Action.peak]
    dsimp only
    omega

/-- Every function of both emitters returns with `arena_off` as it found it. -/
structure RestoreOffset (H : PoseHash α) : Prop where
  standalone : ∀ e level out, (emitStandalone H e level out).arenaOff = e.arenaOff
  connected : ∀ e level inputs out, (emitConnected H e level (2 ^ level) inputs out).arenaOff = e.arenaOff
  connector : ∀ e dim inputs outputs, (emitConnector H e dim inputs outputs).arenaOff = e.arenaOff
  merged : ∀ e dim primary ingress outputs,
    (emitMergedCenterIngress H e dim primary ingress outputs).arenaOff = e.arenaOff
  lcStandalone : ∀ e level out, (lcStandalone H e level out).arenaOff = e.arenaOff
  lcConnected : ∀ e level inputs out, (lcConnected H e level (2 ^ level) inputs out).arenaOff = e.arenaOff
  lcConnector : ∀ e dim inputs outputs, (lcConnector H e dim inputs outputs).arenaOff = e.arenaOff
  lcMerged : ∀ e dim primary ingress outputs,
    (lcMergedCenterIngress H e dim primary ingress outputs).arenaOff = e.arenaOff

variable (H) in
theorem restoreOffset : RestoreOffset H where
  standalone e level out := by
    rw [emitStandalone_eq]
    exact (run_restores (emitLawful H) (.standalone level out) e).2
  connected e level inputs out := by
    rw [emitConnected_eq]
    exact (run_restores (emitLawful H) (.connected level inputs out) e).2
  connector e dim inputs outputs := by
    rw [emitConnector_eq]
    exact (run_restores (emitLawful H) (.connector dim inputs outputs) e).2
  merged e dim primary ingress outputs := by
    rw [emitMergedCenterIngress_eq]
    exact (run_restores (emitLawful H) (.merged dim primary ingress outputs) e).2
  lcStandalone e level out := by
    rw [lcStandalone_eq]
    exact (run_restores (lcLawful H) (.standalone level out) e).2
  lcConnected e level inputs out := by
    rw [lcConnected_eq]
    exact (run_restores (lcLawful H) (.connected level inputs out) e).2
  lcConnector e dim inputs outputs := by
    rw [lcConnector_eq]
    exact (run_restores (lcLawful H) (.connector dim inputs outputs) e).2
  lcMerged e dim primary ingress outputs := by
    rw [lcMergedCenterIngress_eq]
    exact (run_restores (lcLawful H) (.merged dim primary ingress outputs) e).2

/-! ## Both passes -/

section Passes
variable {m : Nat} (seed : α) (scratch : Scratch α) (algo : PoseHashAlgo)

/-- One half of `do_label`: how far the arena is used and which cells are written. -/
theorem emitHalf_used {e : Emitter α} (hM : e.core.OneMode) (out : Nat)
    (hout : out + 2 ^ (poseGraphParameterN m + 1) ≤ e.top) (hoff : e.arenaOff = 0) :
    let e' := emitStandalone H e (poseGraphParameterN m + 1) out
    e'.arenaHi ≤ max e.arenaHi (arenaBound m) ∧ e'.core.OneMode ∧
      ∀ x, out + 2 ^ (poseGraphParameterN m + 1) ≤ x → (x < e.arena ∨ e.arena + arenaBound m ≤ x) →
        e'.mem x = e.mem x := by
  have hpeak := standalonePeak_le (poseGraphParameterN m)
  have h := emitStandalone_emits (H := H) (G := standalonePreds (poseGraphParameterN m + 1) e.nextId)
    (N := e.nextId + standaloneNodeCount (poseGraphParameterN m + 1)) hM le_rfl (fun _ _ => rfl) hout
  have htop : (emitScheme H).top e = e.arena + e.arenaOff := rfl
  have hhi : (emitStandalone H e (poseGraphParameterN m + 1) out).arenaHi ≤
      max e.arenaHi (e.arenaOff + standalonePeak (poseGraphParameterN m + 1)) := h.used.hi
  unfold arenaBound
  refine ⟨by omega, h.toRan.ok hM, fun x hx hx' => ?_⟩
  refine h.used.frame x ?_
  rw [htop]
  omega

/-- One half of `do_label_inplace`, given the labels of the graph. -/
theorem lcHalf_used {L : Nat → α} {desc : α}
    (hL : LabeledBy (H.label seed desc algo) (scaffoldPreds m) 0 (scratchNodeCount m) L) {e : LEmitter α}
    (hok : (lcFollows H hL).Ok e)
    (hid : e.nextId = 0 ∨ e.nextId = standaloneNodeCount (poseGraphParameterN m + 1)) (out : Nat)
    (hout : out + 2 ^ (poseGraphParameterN m + 1) ≤ e.top) (hoff : e.arenaOff = 0) :
    let e' := lcStandalone H e (poseGraphParameterN m + 1) out
    (e'.arenaHi ≤ max e.arenaHi (arenaBound m) ∧ e'.arena = e.arena) ∧ (lcFollows H hL).Ok e' ∧
      ∀ x, out + 2 ^ (poseGraphParameterN m + 1) ≤ x → (x < e.arena ∨ e.arena + arenaBound m ≤ x) →
        e'.mem x = e.mem x := by
  have hpeak := standalonePeak_le (poseGraphParameterN m)
  have htotal : scratchNodeCount m = 2 * standaloneNodeCount (poseGraphParameterN m + 1) := rfl
  have hnext : (lcFollows H hL).nextId e = e.nextId := rfl
  have hargs : (lcFollows H hL).StandaloneArgs e (poseGraphParameterN m + 1) out := by
    refine ⟨hok, by omega, fun i hi => ?_, hout⟩
    show scaffoldPreds m (e.nextId + i) = standalonePreds _ e.nextId (e.nextId + i)
    rcases hid with h | h <;> rw [h, scaffoldPreds]
    · rw [if_pos (by omega)]
    · rw [if_neg (by omega)]
  have h := Scheme.Follows.standalone_emits hargs
  rw [← lcStandalone_eq] at h
  have htop : (lcScheme H).top e = e.arena + e.arenaOff := rfl
  have hhi : (lcStandalone H e (poseGraphParameterN m + 1) out).arenaHi ≤
      max e.arenaHi (e.arenaOff + standalonePeak (poseGraphParameterN m + 1)) := h.used.hi
  unfold arenaBound
  refine ⟨⟨by omega, h.used.base⟩, h.toRan.ok hok, fun x hx hx' => ?_⟩
  refine h.used.frame x ?_
  rw [htop]
  omega

/-- What the two passes of `do_label` do to the buffer: `6.5 * 2^n` elements of each arena, and labels of the ids below
`scratch_node_count(m)`. -/
theorem doLabel_used (hm : 1 ≤ m) (hmax : m ≤ poseGraphMaxM) (mem : Nat → α) (out : Nat) :
    let P := labelRight H seed m scratch algo
    let r := doLabel H seed m mem out scratch algo
    ((emitScheme H).run P.action P.state).arenaHi ≤ arenaBound m ∧
      r.hashed.map HashCall.nodeIndex = List.range (scratchNodeCount m) ∧
      (∀ id, scratchNodeCount m ≤ id → r.scratch.labels id = scratch.labels id) ∧
      ∀ x, arenaLeft m + arenaBound m ≤ x → (x < arenaRight m ∨ arenaRight m + arenaBound m ≤ x) →
        r.scratch.ids x = scratch.ids x := by
  have hpow : 2 ^ (poseGraphParameterN m + 1) = 2 * 2 ^ poseGraphParameterN m := by rw [pow_succ]; omega
  obtain ⟨hscratch, -⟩ := doLabel_scratch H seed m scratch algo mem out (by omega)
  obtain ⟨e, he⟩ : ∃ e, e = (labelLeft H seed m scratch algo).state := ⟨_, rfl⟩
  have hM : e.core.OneMode := fun _ => by rw [he]; rfl
  have h0 : e.nextId = 0 := by rw [he]; rfl
  have hoff : e.arenaOff = 0 := by rw [he]; rfl
  have harena : e.arena = arenaLeft m := by rw [he]; rfl
  have htop : e.top = e.arena + e.arenaOff := rfl
  have hleftTop : arenaLeft m = 0 + 2 * 2 ^ poseGraphParameterN m + 2 * 2 ^ poseGraphParameterN m := rfl
  have hrightTop : arenaRight m = arenaLeft m + arenaElems m := rfl
  obtain ⟨hhi1, hM1, hcells1⟩ := emitHalf_used (m := m) hM 0 (by omega) hoff
  obtain ⟨e2, he2⟩ : ∃ e2, e2 = (labelRight H seed m scratch algo).state := ⟨_, rfl⟩
  have he2' : e2 = (emitStandalone H e (poseGraphParameterN m + 1) 0).restart
      (standaloneNodeCount (poseGraphParameterN m + 1)) (arenaRight m) (arenaElems m) := by rw [he2, he]; rfl
  have harena2 : e2.arena = arenaRight m := by rw [he2']; rfl
  have hoff2 : e2.arenaOff = 0 := by rw [he2']; rfl
  have htop2 : e2.top = e2.arena + e2.arenaOff := rfl
  have hnext := emitStandalone_nextId (H := H) (m := m) hM h0 (show 0 + 2 ^ (poseGraphParameterN m + 1) ≤ e.top by omega)
  have hcore2 : e2.core = (emitStandalone H e (poseGraphParameterN m + 1) 0).core := by
    rw [he2', ← hnext]
    rfl
  obtain ⟨hhi2, -, hcells2⟩ := emitHalf_used (m := m) (e := e2) (by rw [hcore2]; exact hM1)
    (0 + 2 * 2 ^ poseGraphParameterN m) (by omega) hoff2
  obtain ⟨hcore, -⟩ := emitStandalone_twice (H := H) (m := m) 0 (0 + 2 * 2 ^ poseGraphParameterN m) rfl hM h0 hcore2
    (by rw [he2']; rfl) (by omega) (by omega) (by omega)
  have hhi20 : e2.arenaHi = (emitStandalone H e (poseGraphParameterN m + 1) 0).arenaHi := by rw [he2']; rfl
  have hmem2 : e2.mem = (emitStandalone H e (poseGraphParameterN m + 1) 0).mem := by rw [he2']; rfl
  have hhi0 : e.arenaHi = 0 := by rw [he]; rfl
  have hmem0 : e.mem = scratch.ids := by rw [he]; rfl
  obtain ⟨e3, he3⟩ : ∃ e3, e3 = emitStandalone H e2 (poseGraphParameterN m + 1) (0 + 2 * 2 ^ poseGraphParameterN m) :=
    ⟨_, rfl⟩
  have hrun : (emitScheme H).run (labelRight H seed m scratch algo).action (labelRight H seed m scratch algo).state =
      e3 := by
    rw [he3, emitStandalone_eq, he2]
    rfl
  rw [hrun] at hscratch
  rw [← he3] at hhi2 hcells2 hcore
  obtain ⟨L, hL, hframe, -, -⟩ := EmitCore.run_labels (H := H) (P := scaffoldPreds m) (k := e.core)
    (show e.core.labels = some scratch.labels by rw [he]; rfl) (scratchNodeCount m)
    fun id _ hid => scaffoldPreds_lt (by rw [show e.core.nextId = 0 from h0] at hid; omega)
  rw [← hcore] at hL
  have hL3 : e3.labels = some L := hL
  dsimp only
  rw [hrun, hscratch, hL3]
  refine ⟨by omega, ?_, fun id hid => ?_, fun x hx hx' => ?_⟩
  · obtain ⟨-, -, hhashed, -⟩ := doLabel_spec (H := H) hm hmax seed mem out scratch algo
    rw [hhashed, List.map_map]
    exact (List.map_congr_left fun _ _ => rfl).trans (List.map_id _)
  · exact hframe id (.inr (by rw [show e.core.nextId = 0 from h0]; omega))
  · show e3.mem x = scratch.ids x
    rw [hcells2 x (by omega) (by omega), hmem2, hcells1 x (by omega) (by omega), hmem0]

/-- What the two passes of `do_label_inplace` do to the buffer. -/
theorem doLabelInplace_used (hm : 1 ≤ m) (hmax : m ≤ poseGraphMaxM) (mem : Nat → α) (buf : Nat) :
    let P := inplaceRight H seed m scratch algo
    let r := doLabelInplace H seed m mem buf scratch algo
    ((lcScheme H).run P.action P.state).arenaHi ≤ arenaBound m ∧
      r.hashed.map HashCall.nodeIndex = List.range (scratchNodeCount m) ∧
      ∀ x, arenaLeft m + arenaBound m ≤ x → r.scratch.labels x = scratch.labels x := by
  have hpow : 2 ^ (poseGraphParameterN m + 1) = 2 * 2 ^ poseGraphParameterN m := by rw [pow_succ]; omega
  obtain ⟨-, hL, -⟩ := doLabel_spec (H := H) hm hmax seed mem buf scratch algo
  obtain ⟨L, hL⟩ : ∃ L, LabeledBy (H.label seed (H.graphDescriptor m (poseGraphParameterN m)) algo)
    (scaffoldPreds m) 0 (scratchNodeCount m) L := ⟨_, hL⟩
  obtain ⟨hscratch, -⟩ := doLabelInplace_scratch H seed m scratch algo mem buf (by omega)
  obtain ⟨e, he⟩ : ∃ e, e = (inplaceLeft H seed m scratch algo).state := ⟨_, rfl⟩
  have hok : (lcFollows H hL).Ok e := by rw [he]; exact ⟨rfl, rfl, rfl⟩
  have hoff : e.arenaOff = 0 := by rw [he]; rfl
  have harena : e.arena = arenaLeft m := by rw [he]; rfl
  have htop : e.top = e.arena + e.arenaOff := rfl
  have hleftTop : arenaLeft m = 0 + 2 * 2 ^ poseGraphParameterN m + 2 * 2 ^ poseGraphParameterN m := rfl
  obtain ⟨⟨hhi1, hbase1⟩, hok1, hcells1⟩ := lcHalf_used (m := m) seed algo hL hok (.inl (by rw [he]; rfl)) 0
    (by omega) hoff
  obtain ⟨e2, he2⟩ : ∃ e2, e2 = (inplaceRight H seed m scratch algo).state := ⟨_, rfl⟩
  have he2' : e2 = { lcStandalone H e (poseGraphParameterN m + 1) 0 with
      nextId := standaloneNodeCount (poseGraphParameterN m + 1), arenaOff := 0 } := by rw [he2, he]; rfl
  have harena2 : e2.arena = arenaLeft m := by
    rw [he2', ← harena]
    exact hbase1
  have hoff2 : e2.arenaOff = 0 := by rw [he2']
  have htop2 : e2.top = e2.arena + e2.arenaOff := rfl
  have hok2 : (lcFollows H hL).Ok e2 := by
    rw [he2']
    exact hok1
  obtain ⟨⟨hhi2, -⟩, -, hcells2⟩ := lcHalf_used (m := m) seed algo hL hok2 (.inr (by rw [he2']))
    (0 + 2 * 2 ^ poseGraphParameterN m) (by omega) hoff2
  have hhi20 : e2.arenaHi = (lcStandalone H e (poseGraphParameterN m + 1) 0).arenaHi := by rw [he2']
  have hmem2 : e2.mem = (lcStandalone H e (poseGraphParameterN m + 1) 0).mem := by rw [he2']
  have hhi0 : e.arenaHi = 0 := by rw [he]; rfl
  have hmem0 : e.mem = scratch.labels := by rw [he]; rfl
  have hrun : (lcScheme H).run (inplaceRight H seed m scratch algo).action
      (inplaceRight H seed m scratch algo).state =
      lcStandalone H e2 (poseGraphParameterN m + 1) (0 + 2 * 2 ^ poseGraphParameterN m) := by
    rw [lcStandalone_eq, he2]
    rfl
  dsimp only at hscratch ⊢
  rw [hrun] at hscratch ⊢
  rw [hscratch]
  refine ⟨by omega, ?_, fun x hx => ?_⟩
  · obtain ⟨-, hhashed, -⟩ := doLabelInplace_spec (H := H) hm hmax seed mem buf scratch algo hL
    rw [hhashed, List.map_map]
    exact (List.map_congr_left fun _ _ => rfl).trans (List.map_id _)
  · rw [hcells2 x (by omega) (by omega), hmem2, hcells1 x (by omega) (by omega), hmem0]

end Passes

/-! ## The buffers -/

/-- The cells that a layer reads at the partner of index `i` lie in its array. -/
def PartnersInside : Prop :=
  ∀ dim l i : Nat, l < dim → i < 2 ^ dim →
    i ^^^ flipBit dim (l + 1) < 2 ^ dim ∧ i.ldiff (flipBit dim (l + 1)) < 2 ^ dim ∧
      i ||| flipBit dim (l + 1) < 2 ^ dim

theorem partnersInside : PartnersInside := fun _ _ _ hl hi =>
  ⟨xor_flipBit_lt hl hi, ldiff_lt hi, or_flipBit_lt hl hi⟩

/-- The actions below a component are what it executes. -/
def Executes {σ β : Type} (S : Scheme σ β) : Prop :=
  ∀ a : Action, a.IsCall → ∀ s, S.run a s = S.leave a s (S.runAll (a.body (S.top s)) (S.enter a s))

/-- `do_label` of `m` blocks fits a buffer for chunks of `chunkBlocks`. -/
structure LabelFits (H : PoseHash α) (seed : α) (m chunkBlocks : Nat) (scratch : Scratch α) (algo : PoseHashAlgo) :
    Prop where
  buffer : scratchNodeCount m * poseHashBytes + (arenaRight m + arenaElems m) * sizeofUint64 ≤
    poseGraphScratchBytes chunkBlocks
  executes : Executes (emitScheme H)
  left : ∀ Q, Relation.ReflTransGen (Point.Enters (emitScheme H)) (labelLeft H seed m scratch algo) Q →
    Q.Safe (emitScheme H) (arenaLeft m + arenaBound m)
  right : ∀ Q, Relation.ReflTransGen (Point.Enters (emitScheme H)) (labelRight H seed m scratch algo) Q →
    Q.Safe (emitScheme H) (arenaRight m + arenaBound m)
  hi : ((emitScheme H).run (labelRight H seed m scratch algo).action
    (labelRight H seed m scratch algo).state).arenaHi ≤ arenaBound m
  ids : ∀ mem out, (doLabel H seed m mem out scratch algo).hashed.map HashCall.nodeIndex =
    List.range (scratchNodeCount m)
  labels : ∀ mem out id, scratchNodeCount m ≤ id →
    (doLabel H seed m mem out scratch algo).scratch.labels id = scratch.labels id
  cells : ∀ mem out x, arenaLeft m + arenaBound m ≤ x → (x < arenaRight m ∨ arenaRight m + arenaBound m ≤ x) →
    (doLabel H seed m mem out scratch algo).scratch.ids x = scratch.ids x

/-- `do_label_inplace` of `m` blocks fits a buffer for chunks of `chunkBlocks`. -/
structure InplaceFits (H : PoseHash α) (seed : α) (m chunkBlocks : Nat) (scratch : Scratch α) (algo : PoseHashAlgo) :
    Prop where
  buffer : (arenaLeft m + arenaElems m) * poseHashBytes ≤ poseGraphScratchBytesInplace chunkBlocks
  executes : Executes (lcScheme H)
  left : ∀ Q, Relation.ReflTransGen (Point.Enters (lcScheme H)) (inplaceLeft H seed m scratch algo) Q →
    Q.Safe (lcScheme H) (arenaLeft m + arenaBound m)
  right : ∀ Q, Relation.ReflTransGen (Point.Enters (lcScheme H)) (inplaceRight H seed m scratch algo) Q →
    Q.Safe (lcScheme H) (arenaLeft m + arenaBound m)
  hi : ((lcScheme H).run (inplaceRight H seed m scratch algo).action
    (inplaceRight H seed m scratch algo).state).arenaHi ≤ arenaBound m
  ids : ∀ mem buf, (doLabelInplace H seed m mem buf scratch algo).hashed.map HashCall.nodeIndex =
    List.range (scratchNodeCount m)
  slots : ∀ mem buf x, arenaLeft m + arenaBound m ≤ x →
    (doLabelInplace H seed m mem buf scratch algo).scratch.labels x = scratch.labels x

/-- The layout of `m` blocks ends inside the buffer of a larger chunk. -/
theorem layout_le {m c : Nat} (hm : 1 ≤ m) (hle : m ≤ c) :
    scratchNodeCount m * poseHashBytes + (arenaRight m + arenaElems m) * sizeofUint64 ≤ poseGraphScratchBytes c ∧
      (arenaLeft m + arenaElems m) * poseHashBytes ≤ poseGraphScratchBytesInplace c := by
  have hcount := scratchNodeCount_mono hle
  have hpow : 2 ^ poseGraphParameterN m ≤ 2 ^ poseGraphParameterN c :=
    Nat.pow_le_pow_right (by decide) (poseGraphParameterN_mono hle)
  have hc : resolveChunkBlocks c = c := if_pos (by omega)
  unfold poseGraphScratchBytes poseGraphScratchBytesInplace arenaRight arenaLeft arenaElems poseHashBytes sizeofUint64
    poseArenaFactor
  rw [hc]
  dsimp only
  omega

/-- **The scratch buffers suffice**: whatever `m ≤ chunk_blocks`, the emitters stay within `6.5 * 2^n` of the
`16 * 2^n` elements of their arenas, restore the arena offset, never read or write an array that overlaps another live
one, and write only ids below `scratch_node_count(m)`, all inside the buffer sized for `chunk_blocks`. -/
theorem scratch_suffices (H : PoseHash α) (seed : α) (m chunkBlocks : Nat) (hm : 1 ≤ m) (hle : m ≤ chunkBlocks)
    (hmax : chunkBlocks ≤ poseGraphMaxM) (scratch : Scratch α) (algo : PoseHashAlgo) :
    2 * arenaBound m ≤ 13 * 2 ^ poseGraphParameterN m ∧ arenaBound m ≤ arenaElems m ∧ RestoreOffset H ∧
      PartnersInside ∧ LabelFits H seed m chunkBlocks scratch algo ∧ InplaceFits H seed m chunkBlocks scratch algo := by
  obtain ⟨hbuf, hbufi⟩ := layout_le hm hle
  have hmax' : m ≤ poseGraphMaxM := hle.trans hmax
  have hu := fun mem out => doLabel_used (H := H) seed scratch algo hm hmax' mem out
  have hi := fun mem buf => doLabelInplace_used (H := H) seed scratch algo hm hmax' mem buf
  have hleft : (labelLeft H seed m scratch algo).Safe (emitScheme H) (arenaLeft m + arenaBound m) :=
    half_safe (.inl rfl) le_rfl le_rfl
  have hright : (labelRight H seed m scratch algo).Safe (emitScheme H) (arenaRight m + arenaBound m) :=
    half_safe (.inr rfl) (Nat.le_add_right _ _) le_rfl
  have hileft : (inplaceLeft H seed m scratch algo).Safe (lcScheme H) (arenaLeft m + arenaBound m) :=
    half_safe (.inl rfl) le_rfl le_rfl
  -- the arena of the left half is reused where it was
  have hbase : (lcStandalone H (inplaceLeft H seed m scratch algo).state (poseGraphParameterN m + 1) 0).arena =
      arenaLeft m := by
    rw [lcStandalone_eq]
    exact (run_restores (lcLawful H) (.standalone (poseGraphParameterN m + 1) 0) _).1
  have hiright : (inplaceRight H seed m scratch algo).Safe (lcScheme H) (arenaLeft m + arenaBound m) :=
    half_safe (.inr rfl) hbase.ge (Nat.add_le_add_right hbase.le _)
  refine ⟨?_, ?_, restoreOffset H, partnersInside, ?_, ?_⟩
  · unfold arenaBound
    omega
  · unfold arenaBound arenaElems poseArenaFactor
    omega
  · exact ⟨hbuf, fun _ ha s => run_eq (emitLawful H) ha s, fun Q hQ => hleft.reach (emitLawful H) hQ, fun Q hQ => hright.reach (emitLawful H) hQ,
      (hu (fun _ => seed) 0).1, fun mem out => (hu mem out).2.1, fun mem out => (hu mem out).2.2.1,
      fun mem out => (hu mem out).2.2.2⟩
  · exact ⟨hbufi, fun _ ha s => run_eq (lcLawful H) ha s, fun Q hQ => hileft.reach (lcLawful H) hQ, fun Q hQ => hiright.reach (lcLawful H) hQ,
      (hi (fun _ => seed) 0).1, fun mem buf => (hi mem buf).2.1, fun mem buf => (hi mem buf).2.2⟩

/-- Three blocks in a buffer for chunks of five. -/
theorem scratch_suffices_three :
    LabelFits noHash () 3 5 ⟨fun _ => (), fun _ => 0⟩ .blake3 ∧
      InplaceFits noHash () 3 5 ⟨fun _ => (), fun _ => 0⟩ .blake3 :=
  (scratch_suffices noHash () 3 5 (by decide) (by decide) (by decide) _ _).2.2.2.2

end PoseDB.Region
