import PoseDB.Region.Chunk
import PoseDB.Region.ThreadPool
import Mathlib.Order.Interval.Set.LinearOrder

/-!
# Batches of chunks

The loops of the region entry points: fill `args` with the next chunks, at most `POSE_REGION_THREADS` of them, run them
in parallel, stop at the first error. The entry points differ in how they cut the region (`Chunking`) and in who runs the
jobs (`runPooled`, `runSpawned`). If every chunk is labelled from one target, so is what a loop covers
(`regionLoop_paints`), and the loop returns an error when and only when a job failed or a thread did not start
(`regionLoop_failed`).
-/

set_option autoImplicit false

namespace PoseDB.Region
open Mem PoseDB.Graph ThreadPool

variable {α : Type}

/-- Loop condition, chunk size and chunk index at a block of the region. -/
structure Chunking where
  total : Nat
  more : Nat → Bool
  size : Nat → Nat
  index : Nat → Nat
  inplace : Bool
  lt_total : ∀ block, more block = true → block < total
  size_pos : ∀ block, more block = true → 0 < size block

/-- What the environment decides: the order in which the jobs of a batch finish, and which threads start. -/
structure Schedule where
  order : Nat → Nat → List Nat
  starts : Nat → Nat → Bool
  perm : ∀ batch n, (order batch n).Perm (List.range n)

section Loops
variable (H : PoseHash α) (ch : Chunking) (sessionSeed : List UInt8) (region : Nat) (algo : PoseHashAlgo)

/-- `args[n]` for the chunk at `block`. -/
def chunkArg (block n : Nat) : ChunkArg α :=
  { cseed := H.chunkSeed sessionSeed (ch.index block), m := ch.size block, out := region + block, scratch := n, rc := 0,
    algo := algo, inplace := ch.inplace, wt := none }

/-- The inner loop, with room for `k` more chunks: `n`, `block` and `args` at its end. -/
def fillBatch : (k n block : Nat) → (Nat → ChunkArg α) → Nat × Nat × (Nat → ChunkArg α)
  | 0, n, block, args => (n, block, args)
  | k + 1, n, block, args =>
    if ch.more block then
      fillBatch k (n + 1) (block + ch.size block)
        (Function.update args n (chunkArg H ch sessionSeed region algo block n))
    else (n, block, args)

/-- `for (i = 0; i < n; i++) if (args[i].rc != 0) { rc = args[i].rc; break; }`, from `i` on. -/
def firstRc (args : Nat → ChunkArg α) : (k i : Nat) → Int
  | 0, _ => 0
  | k + 1, i => if (args i).rc ≠ 0 then (args i).rc else firstRc args k (i + 1)

def runPooled (sched : Schedule) (batch n : Nat) (s : RegionState α) : Int × RegionState α :=
  let s := (sched.order batch n).foldl (chunkThreadFn H) s
  (firstRc s.args n 0, s)

/-- `launched`: threads are created for the next `k` chunks until one does not start. -/
def launch (starts : Nat → Bool) : (k i : Nat) → Nat
  | 0, i => i
  | k + 1, i => if starts i then launch starts k (i + 1) else i

/-- Threads for all chunks but the last, own chunk, join. After a failed start the own chunk is skipped. -/
def runSpawned (sched : Schedule) (batch n : Nat) (s : RegionState α) : Int × RegionState α :=
  let launched := launch (sched.starts batch) (n - 1) 0
  if launched = n - 1 then runPooled H sched batch n s
  else
    let s := (sched.order batch launched).foldl (chunkThreadFn H) s
    (-1, { s with failed := true })

variable {H ch sessionSeed region algo}

theorem lt_fillBatch {k n block : Nat} (args : Nat → ChunkArg α) (hk : 0 < k) (h : ch.more block = true) :
    block < (fillBatch H ch sessionSeed region algo k n block args).2.1 := by
  have hle : ∀ k n block args, block ≤ (fillBatch H ch sessionSeed region algo k n block args).2.1 := by
    intro k
    induction k with
    | zero => exact fun _ _ _ => le_rfl
    | succ k ih =>
      intro n block args
      unfold fillBatch
      split
      · exact (Nat.le_add_right _ _).trans (ih _ _ _)
      · exact le_rfl
  cases k with
  | zero => omega
  | succ k =>
    unfold fillBatch
    rw [if_pos h]
    exact (Nat.lt_add_of_pos_right (ch.size_pos block h)).trans_le (hle _ _ _ _)

variable (H ch sessionSeed region algo)

/-- The outer loop from `block` on; `run` runs a batch of `n` chunks. -/
def regionLoop (run : Nat → Nat → RegionState α → Int × RegionState α) (batch block : Nat) (s : RegionState α) :
    Int × RegionState α :=
  if h : ch.more block then
    let f := fillBatch H ch sessionSeed region algo poseRegionThreads 0 block s.args
    let r := run batch f.1 { s with args := f.2.2 }
    if r.1 = 0 then regionLoop run (batch + 1) f.2.1 r.2 else r
  else (0, s)
termination_by ch.total - block
decreasing_by
  have hlt : block < (fillBatch H ch sessionSeed region algo poseRegionThreads 0 block s.args).2.1 :=
    lt_fillBatch s.args (by decide) h
  have htotal := ch.lt_total block h
  omega

end Loops

variable {H : PoseHash α} {ch : Chunking} {sessionSeed : List UInt8} {region : Nat} {algo : PoseHashAlgo}
  {target : Nat → α} {s : RegionState α}

/-! ## The jobs of a batch -/

def ChunkArg.area (a : ChunkArg α) : Set Nat := Set.Ico a.out (a.out + a.m)

/-- A chunk without a sink, of a legal size, whose labels are those of `target`. -/
structure ChunkArg.Targets (H : PoseHash α) (target : Nat → α) (a : ChunkArg α) : Prop where
  pos : 1 ≤ a.m
  le : a.m ≤ poseGraphMaxM
  wt : a.wt = none
  label : ∀ r, r < a.m → chunkLabel H a.cseed a.m a.algo r = target (a.out + r)

theorem ChunkArg.Targets.withRc {a : ChunkArg α} (h : a.Targets H target) (rc : Int) :
    ({ a with rc := rc } : ChunkArg α).Targets H target := ⟨h.pos, h.le, h.wt, h.label⟩

theorem chunkThreadFn_paints {i : Nat} (h : (s.args i).Targets H target) :
    Paints target (s.args i).area s.mem (chunkThreadFn H s i).mem := by
  rw [chunkThreadFn_mem h.pos h.le]
  exact paints_store h.label

theorem foldl_paints {n : Nat} (h : ∀ i, i < n → (s.args i).Targets H target) {l : List Nat} (hl : ∀ i ∈ l, i < n) :
    Paints target (⋃ i ∈ l, (s.args i).area) s.mem (l.foldl (chunkThreadFn H) s).mem := by
  -- the jobs change nothing but the return codes in `args`
  let I : RegionState α → Prop := fun t => ∀ i, t.args i = { s.args i with rc := (t.args i).rc }
  suffices hstep : ∀ t, I t → ∀ i ∈ l, Paints target (s.args i).area t.mem (chunkThreadFn H t i).mem ∧
      I (chunkThreadFn H t i) from
    (Paints.foldl (fun t : RegionState α => t.mem) (chunkThreadFn H) (fun i => (s.args i).area) I hstep fun _ => rfl).1
  · intro t ht i hi
    have harg := ht i
    constructor
    · have htarget : (t.args i).Targets H target := by
        rw [harg]
        exact (h i (hl i hi)).withRc _
      have hpaint := chunkThreadFn_paints htarget
      have harea : (t.args i).area = (s.args i).area := by
        rw [harg]
        rfl
      rwa [harea] at hpaint
    · intro j
      by_cases hj : j = i
      · subst hj
        rw [chunkThreadFn_arg, harg]
      · rw [chunkThreadFn_args_of_ne hj]
        exact ht j

theorem foldl_args {l : List Nat} {i : Nat} (hi : i ∉ l) : (l.foldl (chunkThreadFn H) s).args i = s.args i := by
  induction l generalizing s with
  | nil => rfl
  | cons j l ih =>
    rw [List.mem_cons, not_or] at hi
    rw [List.foldl_cons, ih hi.2, chunkThreadFn_args_of_ne hi.1]

theorem foldl_failed {l : List Nat} (hl : l.Nodup) :
    (l.foldl (chunkThreadFn H) s).failed = true ↔
      s.failed = true ∨ ∃ i ∈ l, ((l.foldl (chunkThreadFn H) s).args i).rc ≠ 0 := by
  induction l generalizing s with
  | nil => simp
  | cons j l ih =>
    obtain ⟨hj, hl⟩ := List.nodup_cons.mp hl
    rw [List.foldl_cons, ih hl, chunkThreadFn_failed, Bool.or_eq_true, decide_eq_true_eq, or_assoc]
    apply or_congr_right
    have harg : (l.foldl (chunkThreadFn H) (chunkThreadFn H s j)).args j = (chunkThreadFn H s j).args j :=
      foldl_args hj
    simp only [List.mem_cons, exists_eq_or_imp, harg]

theorem firstRc_ne_zero {args : Nat → ChunkArg α} {k i : Nat} :
    firstRc args k i ≠ 0 ↔ ∃ j, i ≤ j ∧ j < i + k ∧ (args j).rc ≠ 0 := by
  induction k generalizing i with
  | zero =>
    unfold firstRc
    constructor
    · intro h
      exact absurd rfl h
    · rintro ⟨j, hlo, hhi, -⟩
      omega
  | succ k ih =>
    unfold firstRc
    split
    · rename_i hrc
      exact ⟨fun _ => ⟨i, le_rfl, by omega, hrc⟩, fun _ => hrc⟩
    · rename_i hrc
      rw [ih]
      constructor
      · rintro ⟨j, hlo, hhi, hj⟩
        exact ⟨j, by omega, by omega, hj⟩
      · rintro ⟨j, hlo, hhi, hj⟩
        have hne : j ≠ i := fun h => hrc (h ▸ hj)
        exact ⟨j, by omega, by omega, hj⟩

theorem foldl_rc {n : Nat} (h : ∀ i, i < n → (s.args i).Targets H target) {l : List Nat} (hl : l.Nodup)
    (hlt : ∀ i ∈ l, i < n) : ∀ i ∈ l, ((l.foldl (chunkThreadFn H) s).args i).rc = 0 := by
  induction l generalizing s with
  | nil => exact fun i hi => absurd hi List.not_mem_nil
  | cons j l ih =>
    obtain ⟨hj, hl⟩ := List.nodup_cons.mp hl
    intro i hi
    rw [List.foldl_cons]
    rcases List.mem_cons.mp hi with rfl | hi
    · rw [foldl_args hj]
      have hi := h i (hlt i List.mem_cons_self)
      exact chunkThreadFn_rc hi.pos hi.le hi.wt
    · apply ih _ hl (fun i hi => hlt i (List.mem_cons_of_mem _ hi)) i hi
      intro k hk
      by_cases hkj : k = j
      · subst hkj
        rw [chunkThreadFn_arg]
        exact (h k hk).withRc _
      · rw [chunkThreadFn_args_of_ne hkj]
        exact h k hk

/-! ## Who runs them -/

/-- What the loop needs to know of a batch of `n` jobs: it reports a failure, and otherwise every job has run. -/
structure Runs (H : PoseHash α) (run : Nat → Nat → RegionState α → Int × RegionState α) : Prop where
  failed : ∀ batch n s, s.failed = false → ((run batch n s).1 ≠ 0 ↔ (run batch n s).2.failed = true)
  paints : ∀ (target : Nat → α) batch n s, (∀ i, i < n → (s.args i).Targets H target) → (run batch n s).1 = 0 →
    Paints target (⋃ i ∈ List.range n, (s.args i).area) s.mem (run batch n s).2.mem

theorem runPooled_runs (sched : Schedule) : Runs H (runPooled H sched) where
  failed batch n s hs := by
    have hperm := sched.perm batch n
    show firstRc _ n 0 ≠ 0 ↔ _
    unfold runPooled
    rw [firstRc_ne_zero, foldl_failed (hperm.nodup_iff.mpr List.nodup_range), hs]
    simp only [Bool.false_eq_true, false_or, Nat.zero_le, Nat.zero_add, true_and, hperm.mem_iff, List.mem_range]
  paints target batch n s h _ := by
    have hperm := sched.perm batch n
    have hpaint := foldl_paints h (l := sched.order batch n) fun i hi => List.mem_range.mp (hperm.mem_iff.mp hi)
    have harea : (⋃ i ∈ sched.order batch n, (s.args i).area) = ⋃ i ∈ List.range n, (s.args i).area := by
      simp only [hperm.mem_iff]
    rwa [harea] at hpaint

theorem runPooled_succeeds (sched : Schedule) (batch : Nat) {n : Nat} {s : RegionState α}
    (h : ∀ i, i < n → (s.args i).Targets H target) : (runPooled H sched batch n s).1 = 0 := by
  have hperm := sched.perm batch n
  by_contra hrc
  obtain ⟨i, -, hi, hne⟩ := firstRc_ne_zero.mp hrc
  rw [Nat.zero_add] at hi
  apply hne
  apply foldl_rc h (hperm.nodup_iff.mpr List.nodup_range)
  · exact fun i hi => List.mem_range.mp (hperm.mem_iff.mp hi)
  · exact hperm.mem_iff.mpr (List.mem_range.mpr hi)

/-- The chunks from block `0` on, one after the other, are labelled from `target`; `P` holds of the blocks where chunks
start and of the one where the loop ends. -/
structure Chunking.Targets (H : PoseHash α) (ch : Chunking) (sessionSeed : List UInt8) (region : Nat)
    (algo : PoseHashAlgo) (target : Nat → α) (P : Nat → Prop) : Prop where
  arg : ∀ block n, P block → ch.more block = true →
    (chunkArg H ch sessionSeed region algo block n).Targets H target
  next : ∀ block, P block → ch.more block = true → P (block + ch.size block)

/-- The batch that the inner loop fills, from slot `n` and block `block` on. -/
structure Filled (H : PoseHash α) (target : Nat → α) (P : Nat → Prop) (region n block : Nat)
    (args : Nat → ChunkArg α) (f : Nat × Nat × (Nat → ChunkArg α)) : Prop where
  slots : n ≤ f.1
  blocks : block ≤ f.2.1
  next : P f.2.1
  kept : ∀ i, i < n → f.2.2 i = args i
  arg : ∀ i, n ≤ i → i < f.1 → (f.2.2 i).Targets H target
  scratch : ∀ i, n ≤ i → i < f.1 → (f.2.2 i).scratch = i
  above : ∀ i, n ≤ i → i < f.1 → region + block ≤ (f.2.2 i).out
  apart : ∀ i j, n ≤ i → i < j → j < f.1 → (f.2.2 i).out + (f.2.2 i).m ≤ (f.2.2 j).out
  cover : ∀ a, a ∈ Set.Ico (region + block) (region + f.2.1) ↔ ∃ i, n ≤ i ∧ i < f.1 ∧ a ∈ (f.2.2 i).area

theorem Filled.nil {P : Nat → Prop} {n block : Nat} {args : Nat → ChunkArg α} (hP : P block) :
    Filled H target P region n block args (n, block, args) where
  slots := le_rfl
  blocks := le_rfl
  next := hP
  kept _ _ := rfl
  arg i hlo hhi := absurd hhi (not_lt.mpr hlo)
  scratch i hlo hhi := absurd hhi (not_lt.mpr hlo)
  above i hlo hhi := absurd hhi (not_lt.mpr hlo)
  apart i j hlo hij hhi := absurd (hij.trans hhi) (not_lt.mpr hlo)
  cover a := by
    constructor
    · rintro ⟨hlo, hhi⟩
      exact absurd hhi (not_lt.mpr hlo)
    · rintro ⟨i, hlo, hhi, -⟩
      exact absurd hhi (not_lt.mpr hlo)

theorem Filled.cons {P : Nat → Prop} {n block : Nat} {args : Nat → ChunkArg α} {a : ChunkArg α}
    {f : Nat × Nat × (Nat → ChunkArg α)} (ha : a.Targets H target) (hout : a.out = region + block)
    (hscratch : a.scratch = n) (h : Filled H target P region (n + 1) (block + a.m) (Function.update args n a) f) :
    Filled H target P region n block args f := by
  have hn : f.2.2 n = a := by rw [h.kept n (Nat.lt_succ_self n), Function.update_self]
  have hsplit : ∀ {Q : Nat → Prop}, Q n → (∀ i, n + 1 ≤ i → i < f.1 → Q i) → ∀ i, n ≤ i → i < f.1 → Q i := by
    intro Q h0 hrest i hlo hhi
    rcases Nat.eq_or_lt_of_le hlo with rfl | hlt
    · exact h0
    · exact hrest i hlt hhi
  have hslots := h.slots
  have hblocks := h.blocks
  refine ⟨by omega, by omega, h.next, ?_, hsplit (hn ▸ ha) h.arg, hsplit (by rw [hn, hscratch]) h.scratch,
    hsplit (by rw [hn, hout]) ?_, ?_, ?_⟩
  · intro i hi
    rw [h.kept i (by omega), Function.update_of_ne hi.ne]
  · intro i hlo hhi
    have := h.above i hlo hhi
    omega
  · intro i j hlo hij hhi
    rcases Nat.eq_or_lt_of_le hlo with rfl | hlt
    · have := h.above j (by omega) hhi
      rw [hn, hout]
      omega
    · exact h.apart i j hlt hij hhi
  · intro b
    have hcover := h.cover b
    have harea : b ∈ (f.2.2 n).area ↔ b ∈ Set.Ico (region + block) (region + (block + a.m)) := by
      rw [hn, ChunkArg.area, hout, Nat.add_assoc]
    constructor
    · rintro ⟨hlo, hhi⟩
      by_cases hb : b < region + (block + a.m)
      · exact ⟨n, le_rfl, by omega, harea.mpr ⟨hlo, hb⟩⟩
      · obtain ⟨i, hi, hif, hmem⟩ := hcover.mp ⟨by omega, hhi⟩
        exact ⟨i, by omega, hif, hmem⟩
    · rintro ⟨i, hlo, hhi, hmem⟩
      rcases Nat.eq_or_lt_of_le hlo with rfl | hlt
      · obtain ⟨h1, h2⟩ := harea.mp hmem
        exact ⟨h1, by omega⟩
      · obtain ⟨h1, h2⟩ := hcover.mpr ⟨i, hlt, hhi, hmem⟩
        exact ⟨by omega, h2⟩

theorem fillBatch_filled {P : Nat → Prop} (hch : ch.Targets H sessionSeed region algo target P) {k n block : Nat}
    (args : Nat → ChunkArg α) (hP : P block) :
    Filled H target P region n block args (fillBatch H ch sessionSeed region algo k n block args) := by
  induction k generalizing n block args with
  | zero => exact .nil hP
  | succ k ih =>
    unfold fillBatch
    split
    · rename_i hmore
      exact Filled.cons (hch.arg block n hP hmore) rfl rfl (ih _ (hch.next block hP hmore))
    · exact .nil hP

variable (H ch sessionSeed region algo) in
/-- The rule of the outer loop: it leaves `I` and the region done, or an error of the last batch run from `I`. -/
theorem regionLoop_inv (run : Nat → Nat → RegionState α → Int × RegionState α) (I : Nat → RegionState α → Prop)
    (hstep : ∀ batch block s, I block s → ch.more block = true →
      let f := fillBatch H ch sessionSeed region algo poseRegionThreads 0 block s.args
      let r := run batch f.1 { s with args := f.2.2 }
      r.1 = 0 → I f.2.1 r.2)
    (batch block : Nat) (s : RegionState α) (h0 : I block s) :
    let r := regionLoop H ch sessionSeed region algo run batch block s
    r.1 = 0 ∧ (∃ last, ch.more last = false ∧ I last r.2) ∨
      r.1 ≠ 0 ∧ ∃ batch block t, I block t ∧ ch.more block = true ∧
        r = run batch (fillBatch H ch sessionSeed region algo poseRegionThreads 0 block t.args).1
          { t with args := (fillBatch H ch sessionSeed region algo poseRegionThreads 0 block t.args).2.2 } := by
  induction hk : ch.total - block using Nat.strong_induction_on generalizing batch block s with
  | _ k ih =>
    rw [regionLoop]
    split
    · rename_i hmore
      have hlt : block < (fillBatch H ch sessionSeed region algo poseRegionThreads 0 block s.args).2.1 :=
        lt_fillBatch s.args (by decide) hmore
      have htotal := ch.lt_total block hmore
      have hI := hstep batch block s h0 hmore
      dsimp only at hI ⊢
      split
      · rename_i hrc
        exact ih _ (by omega) _ _ _ (hI hrc) rfl
      · rename_i hrc
        exact .inr ⟨hrc, _, _, _, h0, hmore, rfl⟩
    · rename_i hmore
      exact .inl ⟨rfl, block, by simpa using hmore, h0⟩

/-- What a region loop covers is labelled from the target, unless it returns an error. -/
theorem regionLoop_paints {P : Nat → Prop} {run : Nat → Nat → RegionState α → Int × RegionState α} (hrun : Runs H run)
    (hch : ch.Targets H sessionSeed region algo target P) (hP : P 0) (s : RegionState α)
    (hrc : (regionLoop H ch sessionSeed region algo run 0 0 s).1 = 0) :
    ∃ last, P last ∧ ch.more last = false ∧ Paints target (Set.Ico region (region + last)) s.mem
      (regionLoop H ch sessionSeed region algo run 0 0 s).2.mem := by
  have hinv := regionLoop_inv H ch sessionSeed region algo run
    (fun block t => P block ∧ Paints target (Set.Ico region (region + block)) s.mem t.mem) ?_ 0 0 s
    ⟨hP, by rw [Nat.add_zero, Set.Ico_self]; exact Paints.refl target _⟩
  · obtain ⟨-, last, hmore, hlast, hpaint⟩ := hinv.resolve_right fun h => h.1 hrc
    exact ⟨last, hlast, hmore, hpaint⟩
  · intro batch block t ⟨hblock, hpaint⟩ hmore f r hbatch
    have hfilled : Filled H target P region 0 block t.args f := fillBatch_filled hch t.args hblock
    have hjobs := hrun.paints target batch f.1 { t with args := f.2.2 }
      (fun i hi => hfilled.arg i (Nat.zero_le i) hi) hbatch
    have harea : (⋃ i ∈ List.range f.1, (f.2.2 i).area) = Set.Ico (region + block) (region + f.2.1) := by
      ext a
      rw [hfilled.cover]
      simp
    have hunion := hpaint.trans (harea ▸ hjobs)
    have hblocks := hfilled.blocks
    rw [Set.Ico_union_Ico_eq_Ico (by omega) (by omega)] at hunion
    exact ⟨hfilled.next, hunion⟩

theorem regionLoop_succeeds {P : Nat → Prop} {run : Nat → Nat → RegionState α → Int × RegionState α}
    (hrun : ∀ batch n s, (∀ i, i < n → (s.args i).Targets H target) → (run batch n s).1 = 0)
    (hch : ch.Targets H sessionSeed region algo target P) (hP : P 0) (s : RegionState α) :
    (regionLoop H ch sessionSeed region algo run 0 0 s).1 = 0 := by
  have hinv := regionLoop_inv H ch sessionSeed region algo run (fun block _ => P block) ?_ 0 0 s hP
  · rcases hinv with ⟨hrc, -⟩ | ⟨-, batch, block, t, hblock, -, heq⟩
    · exact hrc
    · have hfilled : Filled H target P region 0 block t.args
          (fillBatch H ch sessionSeed region algo poseRegionThreads 0 block t.args) := fillBatch_filled hch t.args hblock
      rw [heq]
      exact hrun batch _ _ fun i hi => hfilled.arg i (Nat.zero_le i) hi
  · intro batch block t hblock _ f _ _
    have hfilled : Filled H target P region 0 block t.args f := fillBatch_filled hch t.args hblock
    exact hfilled.next

end PoseDB.Region
