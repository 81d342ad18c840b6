import PoseDB.Lib.Mem
import PoseDB.Graph.Shape

/-!
# The recursion of an emitter

The two emitters of `graph.c` allocate, recurse, copy and release in the same way and differ in what a cell of an
array holds: the id of a node, or its label. `Scheme` is that recursion over the operations in which they differ, and
`Scheme.Follows` says of these operations that they emit nodes of a table `G`, leaving `val id` in the cell of node
`id`. `standalone_emits` then holds of both: the nodes emitted are those of `standalonePreds`, the base array holds
`standaloneBase`, and the arena is used up to `standalonePeak` cells.
-/

set_option autoImplicit false

namespace PoseDB.Graph
open Loops Mem

/-- A bump arena and the memory of its arrays. -/
structure Arena (β : Type) where
  base : Nat
  cap : Nat
  off : Nat
  hi : Nat
  mem : Nat → β

section Arena
variable {β : Type}

def Arena.top (a : Arena β) : Nat := a.base + a.off

def Arena.bump (a : Arena β) (n : Nat) : Arena β := { a with off := a.off + n, hi := max a.hi (a.off + n) }

def Arena.fill (a : Arena β) (d n : Nat) (v : Nat → β) : Arena β := { a with mem := store a.mem d n v }

@[simp] theorem Arena.bump_mem (a : Arena β) (n : Nat) : (a.bump n).mem = a.mem := rfl
@[simp] theorem Arena.bump_top (a : Arena β) (n : Nat) : (a.bump n).top = a.top + n := (Nat.add_assoc _ _ _).symm
@[simp] theorem Arena.fill_mem (a : Arena β) (d n : Nat) (v : Nat → β) : (a.fill d n v).mem = store a.mem d n v := rfl

/-- The arena is used up to offset `hi` at most and released, and only cells of `W` are written. -/
structure Arena.Used (hi : Nat) (W : Nat → Prop) (a a' : Arena β) : Prop where
  base : a'.base = a.base
  cap : a'.cap = a.cap
  off : a'.off = a.off
  hi : a'.hi ≤ max a.hi hi
  frame : ∀ x, ¬ W x → a'.mem x = a.mem x

variable {hi hi' : Nat} {W W' : Nat → Prop} {a a' a'' : Arena β}

theorem Arena.Used.top (h : Used hi W a a') : a'.top = a.top := by rw [Arena.top, h.base, h.off]; rfl

theorem Arena.Used.refl (hi : Nat) (W : Nat → Prop) (a : Arena β) : Used hi W a a :=
  ⟨rfl, rfl, rfl, Nat.le_max_left _ _, fun _ _ => rfl⟩

theorem Arena.Used.trans (h : Used hi W a a') (h' : Used hi W a' a'') : Used hi W a a'' where
  base := h'.base.trans h.base
  cap := h'.cap.trans h.cap
  off := h'.off.trans h.off
  hi := by have := h.hi; have := h'.hi; omega
  frame x hx := (h'.frame x hx).trans (h.frame x hx)

theorem Arena.Used.mono (h : Used hi W a a') (hhi : hi ≤ hi') (hW : ∀ x, W x → W' x) : Used hi' W' a a' where
  base := h.base
  cap := h.cap
  off := h.off
  hi := by have := h.hi; omega
  frame x hx := h.frame x fun hw => hx (hW x hw)

theorem Arena.used_fill (a : Arena β) (d n : Nat) (v : Nat → β) :
    Used 0 (fun x => d ≤ x ∧ x < d + n) a (a.fill d n v) :=
  ⟨rfl, rfl, rfl, Nat.le_max_left _ _, fun _ hx => store_out _ _ _ _ (by omega)⟩

/-- Allocate `n` cells, use the arena, write the outputs, release the arena. -/
theorem Arena.Used.release {n peak out w : Nat} {m : Nat → β} (h : Used hi W (a.bump n) a') (hn : n ≤ peak)
    (hhi : hi ≤ a.off + peak) (hW : ∀ x, W x → out ≤ x ∧ x < out + w ∨ a.top ≤ x ∧ x < a.top + peak)
    (hm : ∀ x, x < out ∨ out + w ≤ x → m x = a'.mem x) :
    Used (a.off + peak) (fun x => out ≤ x ∧ x < out + w ∨ a.top ≤ x ∧ x < a.top + peak) a
      { a' with mem := m, off := a.off } where
  base := h.base
  cap := h.cap
  off := rfl
  hi := by
    have h1 := h.hi
    have h2 : (a.bump n).hi = max a.hi (a.off + n) := rfl
    show a'.hi ≤ _
    omega
  frame x hx := (hm x (by omega)).trans (h.frame x fun hw => hx (hW x hw))

theorem memcpy_halves (m : Nat → β) (out : Nat) (vl vr : Nat → β) {l r w : Nat} (hl : ∀ i < w, m (l + i) = vl i)
    (hr : ∀ i < w, m (r + i) = vr i) (hsep : out + w + w ≤ r) :
    (∀ a, a < out ∨ out + (w + w) ≤ a → memcpy (memcpy m out l w) (out + w) r w a = m a) ∧
      ∀ i < w + w, memcpy (memcpy m out l w) (out + w) r w (out + i) = if i < w then vl i else vr (i - w) := by
  refine ⟨fun a ha => ?_, fun i hi => ?_⟩
  · rw [memcpy_out _ _ _ _ (by omega), memcpy_out _ _ _ _ (by omega)]
  · by_cases h : i < w
    · rw [if_pos h, memcpy_out _ _ _ _ (by omega), memcpy_in _ _ _ _ h, hl i h]
    · have hi' : out + i = out + w + (i - w) := by omega
      rw [if_neg h, hi', memcpy_in _ _ _ _ (by omega), memcpy_out _ _ _ _ (by omega), hr _ (by omega)]

end Arena

/-! ## Arena use of the components -/

def connectorPeak (dim : Nat) : Nat := 2 ^ dim + 2 ^ dim

def mergedPeak (dim : Nat) : Nat := if dim = 0 then 0 else 4 * 2 ^ dim

def connectedPeak : Nat → Nat
  | 0 => 0
  | k + 1 => 3 * 2 ^ k + max (connectedPeak k) (mergedPeak k)

def standalonePeak : Nat → Nat
  | 0 => 0
  | k + 1 => 3 * 2 ^ k + max (standalonePeak k) (max (connectorPeak k) (connectedPeak k))

/-! ## The recursion -/

/-- The operations in which the emitters differ. `first`, `flip` and `merge` emit a layer of `2^dim` nodes into the array
at `dst`: layer `0` over one array, layer `l ≥ 1` of a butterfly, layer `0` over two arrays. -/
structure Scheme (σ β : Type) where
  get : σ → Arena β
  set : σ → Arena β → σ
  source : (dst : Nat) → σ → σ
  one : (src dst : Nat) → σ → σ
  merge0 : (primary ingress dst : Nat) → σ → σ
  first : (dim src dst : Nat) → σ → σ
  flip : (dim l src dst : Nat) → σ → σ
  merge : (dim primary ingress dst : Nat) → σ → σ

namespace Scheme
variable {σ β : Type} (S : Scheme σ β)

def alloc (n : Nat) (s : σ) : σ := S.set s ((S.get s).bump n)

def release (m : Nat → β) (off : Nat) (s : σ) : σ := S.set s { S.get s with mem := m, off := off }

def top (s : σ) : Nat := (S.get s).top

/-- Layers `1, ..., n` of a butterfly, ping-pong between two arrays. -/
def flips (dim n prev curr : Nat) (s : σ) : σ × Nat × Nat :=
  loop n (fun l (s, prev, curr) => (S.flip dim (l + 1) prev curr s, curr, prev)) (s, prev, curr)

def butterfly (dim inputs prev curr : Nat) (s : σ) : σ × Nat × Nat :=
  S.flips dim dim prev curr (S.first dim inputs prev s)

def connector (s : σ) (dim inputs outputs : Nat) : σ :=
  let r := S.butterfly dim inputs (S.top s) (S.top s + 2 ^ dim) (S.alloc (2 ^ dim + 2 ^ dim) s)
  S.release (memcpy (S.get r.1).mem outputs r.2.1 (2 ^ dim)) (S.get s).off r.1

/-- The center butterfly, `dim ≥ 1`: its last layer goes to `outputs`. -/
def center (dim primary ingress outputs prev curr : Nat) (s : σ) : σ :=
  let r := S.flips dim (dim - 1) prev curr (S.merge dim primary ingress prev s)
  S.flip dim dim r.2.1 outputs r.1

def merged (s : σ) (dim primary ingress outputs : Nat) : σ :=
  if dim = 0 then S.merge0 primary ingress outputs s
  else
    let w := 2 ^ dim
    let r := S.butterfly dim ingress (S.top s) (S.top s + w) (S.alloc (w + w + w + w) s)
    let t := S.center dim primary r.2.1 outputs (S.top s + (w + w)) (S.top s + (w + w + w)) r.1
    S.release (S.get t).mem (S.get s).off t

/-- Copy both halves of the base array out and release the arena. -/
def finish (s t : σ) (w out : Nat) : σ :=
  S.release (memcpy (memcpy (S.get t).mem out (S.top s) w) (out + w) (S.top s + (w + w)) w) (S.get s).off t

def connected (s : σ) : (level inputs out : Nat) → σ
  | 0, inputs, out => S.one inputs out s
  | k + 1, inputs, out =>
    let w := 2 ^ k
    let t := connected (S.alloc (w + w + w) s) k inputs (S.top s)
    let t := S.merged t k (S.top s) (inputs + w) (S.top s + w)
    let t := connected t k (S.top s + w) (S.top s + (w + w))
    S.finish s t w out

def standalone (s : σ) : (level out : Nat) → σ
  | 0, out => S.source out s
  | k + 1, out =>
    let w := 2 ^ k
    let t := standalone (S.alloc (w + w + w) s) k (S.top s)
    let t := S.connector t k (S.top s) (S.top s + w)
    let t := S.connected t k (S.top s + w) (S.top s + (w + w))
    S.finish s t w out

/-! ## Following a table -/

/-- `s'` is `s` after the operation filled the `w` cells at `dst` with the nodes `ids`. -/
def Fills (val : Nat → β) (dst w : Nat) (ids : Nat → Nat) (s s' : σ) : Prop :=
  S.get s' = (S.get s).fill dst w fun i => val (ids i)

/-- The operations emit the nodes of the table `G`, ids below `N`, and leave `val id` in the cell of node `id`.
`Emitted c s s'` says that `s'` comes from `s` by emitting the next `c` nodes. -/
structure Follows (G : Nat → List Nat) (N : Nat) (val : Nat → β) where
  nextId : σ → Nat
  Emitted : Nat → σ → σ → Prop
  Ok : σ → Prop
  get_set : ∀ s a, S.get (S.set s a) = a
  ok_set : ∀ {s} a, Ok s → Ok (S.set s a)
  emitted_refl : ∀ s, Emitted 0 s s
  emitted_set : ∀ s a, Emitted 0 s (S.set s a)
  emitted_trans : ∀ {c d s s' s''}, Emitted c s s' → Emitted d s' s'' → Emitted (c + d) s s''
  emitted_ok : ∀ {c s s'}, Emitted c s s' → Ok s → Ok s'
  emitted_nextId : ∀ {c s s'}, Emitted c s s' → nextId s' = nextId s + c
  source_spec : ∀ {s} dst, Ok s → nextId s < N → G (nextId s) = [] →
    Emitted 1 s (S.source dst s) ∧ S.Fills val dst 1 (fun _ => nextId s) s (S.source dst s)
  one_spec : ∀ {s src p} dst, Ok s → nextId s < N → G (nextId s) = [p] → p < nextId s →
    (S.get s).mem src = val p →
    Emitted 1 s (S.one src dst s) ∧ S.Fills val dst 1 (fun _ => nextId s) s (S.one src dst s)
  merge0_spec : ∀ {s primary ingress p q} dst, Ok s → nextId s + 1 < N → G (nextId s) = [q] →
    G (nextId s + 1) = [p, nextId s] → p < nextId s → q < nextId s →
    (S.get s).mem primary = val p → (S.get s).mem ingress = val q →
    Emitted 2 s (S.merge0 primary ingress dst s) ∧
      S.Fills val dst 1 (fun _ => nextId s + 1) s (S.merge0 primary ingress dst s)
  first_spec : ∀ {s dim src dst} (inp : Nat → Nat), Ok s → nextId s + 2 ^ dim ≤ N →
    (∀ i < 2 ^ dim, G (nextId s + i) = [inp i]) → (∀ i < 2 ^ dim, inp i < nextId s) →
    (∀ i < 2 ^ dim, (S.get s).mem (src + i) = val (inp i)) → src + 2 ^ dim ≤ dst ∨ dst + 2 ^ dim ≤ src →
    Emitted (2 ^ dim) s (S.first dim src dst s) ∧
      S.Fills val dst (2 ^ dim) (fun i => nextId s + i) s (S.first dim src dst s)
  flip_spec : ∀ {s dim l src t} dst, Ok s → nextId s + 2 ^ dim ≤ N → l < dim →
    nextId s = t + (l + 1) * 2 ^ dim →
    (∀ i < 2 ^ dim, G (nextId s + i) = sorted2 (cell dim t l i) (cell dim t l (i ^^^ flipBit dim (l + 1)))) →
    (∀ i < 2 ^ dim, (S.get s).mem (src + i) = val (cell dim t l i)) → src + 2 ^ dim ≤ dst ∨ dst + 2 ^ dim ≤ src →
    Emitted (2 ^ dim) s (S.flip dim (l + 1) src dst s) ∧
      S.Fills val dst (2 ^ dim) (fun i => nextId s + i) s (S.flip dim (l + 1) src dst s)
  merge_spec : ∀ {s dim primary ingress dst} (p q : Nat → Nat), Ok s → nextId s + 2 ^ dim ≤ N →
    (∀ i < 2 ^ dim, G (nextId s + i) = [p i, q i]) → (∀ i < 2 ^ dim, p i < q i ∧ q i < nextId s) →
    (∀ i < 2 ^ dim, (S.get s).mem (primary + i) = val (p i)) →
    (∀ i < 2 ^ dim, (S.get s).mem (ingress + i) = val (q i)) →
    primary + 2 ^ dim ≤ dst → ingress + 2 ^ dim ≤ dst →
    Emitted (2 ^ dim) s (S.merge dim primary ingress dst s) ∧
      S.Fills val dst (2 ^ dim) (fun i => nextId s + i) s (S.merge dim primary ingress dst s)

namespace Follows
variable {S} {G : Nat → List Nat} {N : Nat} {val : Nat → β} (F : S.Follows G N val)

/-- `c` nodes were emitted, the arena was used up to offset `hi` at most, and only cells of `W` were written. -/
structure Ran (c hi : Nat) (W : Nat → Prop) (s s' : σ) : Prop where
  emitted : F.Emitted c s s'
  used : (S.get s).Used hi W (S.get s')

/-- What a component does: `c` nodes, scratch of `peak` cells above `top`, and the nodes `ids` in the `w` cells at
`out`. -/
structure Emits (c peak out w : Nat) (ids : Nat → Nat) (s s' : σ) : Prop
    extends F.Ran c ((S.get s).off + peak)
      (fun x => out ≤ x ∧ x < out + w ∨ S.top s ≤ x ∧ x < S.top s + peak) s s' where
  out : ∀ i < w, (S.get s').mem (out + i) = val (ids i)

variable {F} {c d hi hi' peak out w : Nat} {W W' : Nat → Prop} {ids : Nat → Nat} {s s' s'' : σ}

theorem Ran.refl (s : σ) : F.Ran 0 hi W s s :=
  ⟨F.emitted_refl s, Arena.Used.refl _ _ _⟩

theorem Ran.trans (h : F.Ran c hi W s s') (h' : F.Ran d hi W s' s'') : F.Ran (c + d) hi W s s'' :=
  ⟨F.emitted_trans h.emitted h'.emitted, h.used.trans h'.used⟩

theorem Ran.mono (h : F.Ran c hi W s s') (hhi : hi ≤ hi') (hW : ∀ x, W x → W' x) : F.Ran c hi' W' s s' :=
  ⟨h.emitted, h.used.mono hhi hW⟩

theorem Ran.top (h : F.Ran c hi W s s') : S.top s' = S.top s := h.used.top

theorem Ran.nextId (h : F.Ran c hi W s s') : F.nextId s' = F.nextId s + c := F.emitted_nextId h.emitted

theorem Ran.ok (h : F.Ran c hi W s s') (hok : F.Ok s) : F.Ok s' := F.emitted_ok h.emitted hok

theorem ran_fills {dst : Nat} (hE : F.Emitted c s s') (hF : S.Fills val dst w ids s s') :
    F.Ran c 0 (fun x => dst ≤ x ∧ x < dst + w) s s' :=
  ⟨hE, by rw [hF]; exact Arena.used_fill _ _ _ _⟩

theorem fills_mem {dst i : Nat} (hF : S.Fills val dst w ids s s') (hi : i < w) :
    (S.get s').mem (dst + i) = val (ids i) := by
  rw [hF, Arena.fill_mem, store_in _ _ _ _ hi]

theorem emits_one (hE : F.Emitted c s s') {id : Nat} (hF : S.Fills val out 1 (fun _ => id) s s') (hid : ids 0 = id) :
    F.Emits c 0 out 1 ids s s' :=
  ⟨(ran_fills hE hF).mono (Nat.zero_le _) fun _ h => Or.inl h, fun i hi => by
    obtain rfl : i = 0 := by omega
    rw [fills_mem hF hi, hid]⟩

/-! ### Allocation and release -/

theorem get_alloc (F : S.Follows G N val) (n : Nat) (s : σ) : S.get (S.alloc n s) = (S.get s).bump n := F.get_set _ _

theorem top_alloc (F : S.Follows G N val) (n : Nat) (s : σ) : S.top (S.alloc n s) = S.top s + n := by
  rw [Scheme.top, get_alloc F, Arena.bump_top]; rfl

variable (F) in
theorem nextId_set (s : σ) (a : Arena β) : F.nextId (S.set s a) = F.nextId s := F.emitted_nextId (F.emitted_set s a)

/-- A component allocates `n` cells, runs, writes its outputs and releases the arena. -/
theorem Ran.emits {n : Nat} {m : Nat → β} {t : σ} (h : F.Ran c hi W (S.alloc n s) t) (hn : n ≤ peak)
    (hhi : hi ≤ (S.get s).off + peak)
    (hW : ∀ x, W x → out ≤ x ∧ x < out + w ∨ S.top s ≤ x ∧ x < S.top s + peak)
    (hm : ∀ x, x < out ∨ out + w ≤ x → m x = (S.get t).mem x) (hout : ∀ i < w, m (out + i) = val (ids i)) :
    F.Emits c peak out w ids s (S.release m (S.get s).off t) where
  emitted := by
    have := F.emitted_trans (F.emitted_trans (F.emitted_set s _) h.emitted)
      (F.emitted_set t { S.get t with mem := m, off := (S.get s).off })
    rwa [Nat.zero_add, Nat.add_zero] at this
  used := by
    have hu := h.used
    rw [get_alloc F] at hu
    rw [Scheme.release, F.get_set]
    exact hu.release hn hhi hW hm
  out i hi := by
    rw [Scheme.release, F.get_set]
    exact hout i hi

theorem nextId_alloc (n : Nat) (s : σ) : F.nextId (S.alloc n s) = F.nextId s := nextId_set F s _

/-! ### Butterflies -/

section Butterfly
variable {dim : Nat} {prev curr t n : Nat} {first : Nat → List Nat}

/-- The array at `p` holds layer `l` of the butterfly. -/
def HoldsLayer (_ : S.Follows G N val) (dim t l p : Nat) (s : σ) : Prop :=
  ∀ i < 2 ^ dim, (S.get s).mem (p + i) = val (cell dim t l i)

theorem flip_step (first : Nat → List Nat) {l p q : Nat} (hok : F.Ok s) (hN : F.nextId s + 2 ^ dim ≤ N) (hl : l < dim)
    (hnext : F.nextId s = t + (l + 1) * 2 ^ dim)
    (hG : ∀ i < 2 ^ dim, G (F.nextId s + i) = butterflyPreds dim t first (F.nextId s + i))
    (hp : F.HoldsLayer dim t l p s) (hsep : p + 2 ^ dim ≤ q ∨ q + 2 ^ dim ≤ p) :
    F.Ran (2 ^ dim) 0 (fun x => q ≤ x ∧ x < q + 2 ^ dim) s (S.flip dim (l + 1) p q s) ∧
      F.HoldsLayer dim t (l + 1) q (S.flip dim (l + 1) p q s) := by
  have hcell : ∀ i, F.nextId s + i = cell dim t (l + 1) i := fun i => by rw [hnext, cell]
  obtain ⟨hE, hF⟩ := F.flip_spec q hok hN hl hnext
    (fun i hi => by rw [hG i hi, hcell, butterflyPreds_layer first hi]) hp hsep
  exact ⟨ran_fills hE hF, fun i hi => by rw [fills_mem hF hi, hcell]⟩

theorem flips_spec (first : Nat → List Nat) (prev curr : Nat) (hok : F.Ok s) (hn : n ≤ dim) (hnext : F.nextId s = t + 2 ^ dim)
    (hN : F.nextId s + n * 2 ^ dim ≤ N)
    (hG : ∀ i < n * 2 ^ dim, G (F.nextId s + i) = butterflyPreds dim t first (F.nextId s + i))
    (hp : F.HoldsLayer dim t 0 prev s) (hsep : prev + 2 ^ dim ≤ curr ∨ curr + 2 ^ dim ≤ prev) :
    let r := S.flips dim n prev curr s
    F.Ran (n * 2 ^ dim) 0 (fun x => prev ≤ x ∧ x < prev + 2 ^ dim ∨ curr ≤ x ∧ x < curr + 2 ^ dim) s r.1 ∧
      F.HoldsLayer dim t n r.2.1 r.1 ∧ (r.2 = (prev, curr) ∨ r.2 = (curr, prev)) := by
  refine loop_inv (fun l (r : σ × Nat × Nat) =>
    F.Ran (l * 2 ^ dim) 0 (fun x => prev ≤ x ∧ x < prev + 2 ^ dim ∨ curr ≤ x ∧ x < curr + 2 ^ dim) s r.1 ∧
      F.HoldsLayer dim t l r.2.1 r.1 ∧ (r.2 = (prev, curr) ∨ r.2 = (curr, prev)))
    ⟨by rw [Nat.zero_mul]; exact Ran.refl s, hp, Or.inl rfl⟩ ?_
  rintro l ⟨u, p, q⟩ hl ⟨hran, hhold, hpq⟩
  have hsep' : p + 2 ^ dim ≤ q ∨ q + 2 ^ dim ≤ p := by
    rcases hpq with h | h <;> cases h <;> omega
  have hnext' : F.nextId u = F.nextId s + l * 2 ^ dim := hran.nextId
  have hle : (l + 1) * 2 ^ dim ≤ n * 2 ^ dim := Nat.mul_le_mul_right _ hl
  rw [Nat.add_mul, Nat.one_mul] at hle
  obtain ⟨hran', hhold'⟩ := flip_step (s := u) first (q := q) (hran.ok hok) (by omega) (by omega)
    (by rw [hnext', hnext, Nat.add_mul]; omega)
    (fun i hi => by rw [hnext', Nat.add_assoc]; exact hG _ (by omega)) hhold hsep'
  refine ⟨?_, hhold', ?_⟩
  · rw [Nat.add_mul, Nat.one_mul]
    exact hran.trans (hran'.mono le_rfl fun x hx => by rcases hpq with h | h <;> cases h <;> omega)
  · rcases hpq with h | h <;> cases h
    · exact Or.inr rfl
    · exact Or.inl rfl

/-- A butterfly over the array `inputs`. -/
theorem butterfly_spec {inputs : Nat} {inp : Nat → Nat} (prev curr : Nat) (hok : F.Ok s)
    (hN : F.nextId s + butterflyNodeCount dim ≤ N)
    (hG : ∀ i < butterflyNodeCount dim, G (F.nextId s + i) = connectorPreds dim (F.nextId s) inp (F.nextId s + i))
    (hin : ∀ i < 2 ^ dim, (S.get s).mem (inputs + i) = val (inp i)) (hlt : ∀ i < 2 ^ dim, inp i < F.nextId s)
    (hinp : inputs + 2 ^ dim ≤ prev) (hsep : prev + 2 ^ dim ≤ curr) :
    let r := S.butterfly dim inputs prev curr s
    F.Ran (butterflyNodeCount dim) 0
        (fun x => prev ≤ x ∧ x < prev + 2 ^ dim ∨ curr ≤ x ∧ x < curr + 2 ^ dim) s r.1 ∧
      F.HoldsLayer dim (F.nextId s) dim r.2.1 r.1 ∧ (r.2 = (prev, curr) ∨ r.2 = (curr, prev)) := by
  have hcount : butterflyNodeCount dim = 2 ^ dim + dim * 2 ^ dim := by rw [butterflyNodeCount, Nat.add_mul]; omega
  rw [hcount] at hN hG
  obtain ⟨hE, hF⟩ := F.first_spec inp hok (by omega)
    (fun i hi => by rw [hG i (by omega)]; exact butterflyPreds_first _ hi) hlt hin (Or.inl hinp)
  have hran := ran_fills hE hF
  obtain ⟨hran', hhold', hptr⟩ := flips_spec (F := F) (s := S.first dim inputs prev s) (t := F.nextId s) (n := dim)
    (fun i => [inp i]) prev curr (hran.ok hok) le_rfl hran.nextId
    (by rw [hran.nextId]; omega) (fun i hi => by rw [hran.nextId, Nat.add_assoc]; exact hG _ (by omega))
    (fun i hi => by rw [fills_mem hF hi, cell_zero]) (Or.inl hsep)
  refine ⟨?_, hhold', hptr⟩
  rw [hcount]
  exact (hran.mono le_rfl fun x hx => Or.inl hx).trans hran'

/-- The center butterfly: layer `0` merges two arrays, the last layer goes to `outputs`. -/
theorem center_spec {primary ingress : Nat} (outputs prev curr : Nat) (p q : Nat → Nat) (hdim : dim ≠ 0) (hok : F.Ok s)
    (hN : F.nextId s + butterflyNodeCount dim ≤ N)
    (hG : ∀ i < butterflyNodeCount dim, G (F.nextId s + i) =
      butterflyPreds dim (F.nextId s) (fun i => [p i, q i]) (F.nextId s + i))
    (hpq : ∀ i < 2 ^ dim, p i < q i ∧ q i < F.nextId s)
    (hp : ∀ i < 2 ^ dim, (S.get s).mem (primary + i) = val (p i))
    (hq : ∀ i < 2 ^ dim, (S.get s).mem (ingress + i) = val (q i)) (hsepP : primary + 2 ^ dim ≤ prev)
    (hsepI : ingress + 2 ^ dim ≤ prev) (hsep : prev + 2 ^ dim ≤ curr) (hout : outputs + 2 ^ dim ≤ prev) :
    let s' := S.center dim primary ingress outputs prev curr s
    F.Ran (butterflyNodeCount dim) 0 (fun x => outputs ≤ x ∧ x < outputs + 2 ^ dim ∨
        prev ≤ x ∧ x < prev + 2 ^ dim ∨ curr ≤ x ∧ x < curr + 2 ^ dim) s s' ∧
      F.HoldsLayer dim (F.nextId s) dim outputs s' := by
  obtain ⟨d, rfl⟩ : ∃ d, dim = d + 1 := ⟨dim - 1, by omega⟩
  have hcount : butterflyNodeCount (d + 1) = 2 ^ (d + 1) + d * 2 ^ (d + 1) + 2 ^ (d + 1) := by
    rw [butterflyNodeCount, Nat.add_mul, Nat.add_mul]; omega
  have hpos := Nat.two_pow_pos d
  rw [hcount] at hN hG
  obtain ⟨hE, hF⟩ := F.merge_spec p q hok
    (by omega) (fun i hi => by rw [hG i (by omega)]; exact butterflyPreds_first _ hi) hpq hp hq hsepP hsepI
  have hran0 := ran_fills hE hF
  obtain ⟨hran1, hhold1, hptr⟩ := flips_spec (F := F) (s := S.merge (d + 1) primary ingress prev s)
    (t := F.nextId s) (n := d) (fun i => [p i, q i]) prev curr (hran0.ok hok)
    (Nat.le_add_right d 1) hran0.nextId (by rw [hran0.nextId]; omega)
    (fun i hi => by rw [hran0.nextId, Nat.add_assoc]; exact hG _ (by omega))
    (fun i hi => by rw [fills_mem hF hi, cell_zero]) (Or.inl hsep)
  simp only [center, Nat.add_sub_cancel]
  revert hran1 hhold1 hptr
  generalize S.flips (d + 1) d prev curr (S.merge (d + 1) primary ingress prev s) = r
  intro hran1 hhold1 hptr
  have hran01 := (hran0.mono le_rfl fun x hx => Or.inl hx).trans hran1
  obtain ⟨hran2, hhold2⟩ := flip_step (fun i => [p i, q i]) (q := outputs) (hran01.ok hok)
    (by rw [hran01.nextId]; omega) (Nat.lt_add_one d) (by rw [hran01.nextId, Nat.add_mul d 1]; omega)
    (fun i hi => by rw [hran01.nextId, Nat.add_assoc]; exact hG _ (by omega)) hhold1
    (by rcases hptr with h | h <;> rw [h] <;> dsimp only <;> omega)
  refine ⟨?_, hhold2⟩
  rw [hcount]
  exact (hran01.mono le_rfl fun x hx => Or.inr hx).trans (hran2.mono le_rfl fun x hx => Or.inl hx)

end Butterfly

/-! ### Components -/

theorem connector_emits {dim inputs : Nat} (inp : Nat → Nat) (hok : F.Ok s)
    (hN : F.nextId s + butterflyNodeCount dim ≤ N)
    (hG : ∀ i < butterflyNodeCount dim, G (F.nextId s + i) = connectorPreds dim (F.nextId s) inp (F.nextId s + i))
    (hin : ∀ i < 2 ^ dim, (S.get s).mem (inputs + i) = val (inp i)) (hlt : ∀ i < 2 ^ dim, inp i < F.nextId s)
    (hinp : inputs + 2 ^ dim ≤ S.top s) :
    F.Emits (butterflyNodeCount dim) (connectorPeak dim) out (2 ^ dim) (connectorOut dim (F.nextId s)) s
      (S.connector s dim inputs out) := by
  have hnext := nextId_alloc (F := F) (2 ^ dim + 2 ^ dim) s
  obtain ⟨hran, hhold, -⟩ := butterfly_spec (F := F) (s := S.alloc (2 ^ dim + 2 ^ dim) s) (S.top s)
    (S.top s + 2 ^ dim) (F.ok_set _ hok) (by rwa [hnext]) (by rwa [hnext])
    (by rw [get_alloc F]; exact hin) (by rwa [hnext]) hinp le_rfl
  rw [hnext] at hhold
  refine hran.emits le_rfl (Nat.zero_le _) (fun x hx => ?_) (fun x hx => memcpy_out _ _ _ _ hx) fun i hi => ?_
  · rw [connectorPeak]; omega
  · rw [memcpy_in _ _ _ _ hi]; exact hhold i hi

theorem merged_emits {dim primary ingress : Nat} (prim ing : Nat → Nat) (hok : F.Ok s)
    (hN : F.nextId s + 2 * butterflyNodeCount dim ≤ N)
    (hG : ∀ i < 2 * butterflyNodeCount dim,
      G (F.nextId s + i) = mergedPreds dim (F.nextId s) prim ing (F.nextId s + i))
    (hprim : ∀ i < 2 ^ dim, (S.get s).mem (primary + i) = val (prim i))
    (hing : ∀ i < 2 ^ dim, (S.get s).mem (ingress + i) = val (ing i))
    (hplt : ∀ i < 2 ^ dim, prim i < F.nextId s) (hilt : ∀ i < 2 ^ dim, ing i < F.nextId s)
    (hsepP : primary + 2 ^ dim ≤ S.top s) (hsepI : ingress + 2 ^ dim ≤ S.top s) (hout : out + 2 ^ dim ≤ S.top s) :
    F.Emits (2 * butterflyNodeCount dim) (mergedPeak dim) out (2 ^ dim) (mergedOut dim (F.nextId s)) s
      (S.merged s dim primary ingress out) := by
  by_cases hdim : dim = 0
  · subst hdim
    have h2 : 2 * butterflyNodeCount 0 = 2 := rfl
    have h0 := (hG 0 (by omega)).trans ((mergedPreds_ingress prim ing (butterflyNodeCount_pos 0)).trans
      (butterflyPreds_first (s := F.nextId s) (i := 0) _ Nat.one_pos))
    have h1 := (hG 1 (by omega)).trans (mergedPreds_zero_center prim ing (hplt 0 Nat.one_pos))
    obtain ⟨hE, hF⟩ := F.merge0_spec out hok (by omega) h0 h1 (hplt 0 Nat.one_pos) (hilt 0 Nat.one_pos)
      (hprim 0 Nat.one_pos) (hing 0 Nat.one_pos)
    rw [merged, if_pos rfl]
    exact emits_one hE hF rfl
  · have hpos := Nat.two_pow_pos dim
    have hnext := nextId_alloc (F := F) (2 ^ dim + 2 ^ dim + 2 ^ dim + 2 ^ dim) s
    have hcs : centerStart dim (F.nextId s) = F.nextId s + butterflyNodeCount dim := rfl
    obtain ⟨hran1, hhold1, hptr⟩ := butterfly_spec (F := F)
      (s := S.alloc (2 ^ dim + 2 ^ dim + 2 ^ dim + 2 ^ dim) s) (S.top s) (S.top s + 2 ^ dim)
      (F.ok_set _ hok) (by rw [hnext]; omega)
      (fun i hi => by rw [hnext, hG i (by omega), mergedPreds_ingress prim ing hi])
      (by rw [get_alloc F]; exact hing) (by rwa [hnext]) hsepI le_rfl
    simp only [merged, if_neg hdim]
    revert hran1 hhold1 hptr
    generalize S.butterfly dim ingress (S.top s) (S.top s + 2 ^ dim) _ = r
    intro hran1 hhold1 hptr
    have hnext1 : F.nextId r.1 = centerStart dim (F.nextId s) := by rw [hran1.nextId, hnext]; rfl
    have hr : S.top s ≤ r.2.1 ∧ r.2.1 + 2 ^ dim ≤ S.top s + 2 ^ dim + 2 ^ dim := by
      rcases hptr with h | h <;> rw [h] <;> dsimp only <;> omega
    rw [hnext] at hhold1
    have hframe : ∀ x < S.top s, (S.get r.1).mem x = (S.get s).mem x := fun x hx => by
      rw [hran1.used.frame x (by omega), get_alloc F, Arena.bump_mem]
    obtain ⟨hran2, hhold2⟩ := center_spec (F := F) (s := r.1) out
      (S.top s + (2 ^ dim + 2 ^ dim)) (S.top s + (2 ^ dim + 2 ^ dim + 2 ^ dim)) prim
      (connectorOut dim (F.nextId s)) hdim (hran1.ok (F.ok_set _ hok)) (by omega)
      (fun i hi => by
        rw [hnext1, ← mergedPreds_center_sorted prim ing hi hplt, hcs, Nat.add_assoc]
        exact hG _ (by omega))
      (fun i hi => by
        have := hplt i hi
        have : F.nextId s ≤ connectorOut dim (F.nextId s) i := le_cell _ _ _ _
        have := connectorOut_lt (s := F.nextId s) hi
        omega)
      (fun i hi => (hframe _ (by omega)).trans (hprim i hi)) hhold1 (by omega) (by omega) (by omega) (by omega)
    rw [hnext1] at hhold2
    have hran1' : F.Ran (butterflyNodeCount dim) 0 (fun x => out ≤ x ∧ x < out + 2 ^ dim ∨
        S.top s ≤ x ∧ x < S.top s + 4 * 2 ^ dim) _ _ := hran1.mono le_rfl fun x hx => by omega
    have hran := hran1'.trans (hran2.mono le_rfl fun x hx => by omega)
    rw [← Nat.two_mul] at hran
    refine hran.emits ?_ (Nat.zero_le _) (fun x hx => ?_) (fun _ _ => rfl) hhold2
    · rw [mergedPeak, if_neg hdim]; omega
    · rwa [mergedPeak, if_neg hdim]

/-- A recursive component of width `w + w`: three arrays of `w` cells are allocated, three parts run one after the
other and fill them, and the first and the third are copied out. -/
theorem Emits.halves {c1 c2 c3 pk1 pk2 pk3 : Nat} {vl vc vr : Nat → Nat} {s2 s3 s4 : σ}
    (h1 : F.Emits c1 pk1 (S.top s) w vl (S.alloc (w + w + w) s) s2)
    (h2 : F.Emits c2 pk2 (S.top s + w) w vc s2 s3) (h3 : F.Emits c3 pk3 (S.top s + (w + w)) w vr s3 s4)
    (hpk : peak = 3 * w + max pk1 (max pk2 pk3)) (hout : out + (w + w) ≤ S.top s) :
    F.Emits (c1 + c2 + c3) peak out (w + w) (fun i => if i < w then vl i else vr (i - w)) s (S.finish s s4 w out) := by
  have htop1 := top_alloc F (w + w + w) s
  have htop2 : S.top s2 = S.top s + (w + w + w) := h1.toRan.top.trans htop1
  have htop3 : S.top s3 = S.top s + (w + w + w) := h2.toRan.top.trans htop2
  have hoff1 : (S.get (S.alloc (w + w + w) s)).off = (S.get s).off + (w + w + w) := by rw [get_alloc F]; rfl
  have hoff2 : (S.get s2).off = (S.get s).off + (w + w + w) := h1.used.off.trans hoff1
  have hoff3 : (S.get s3).off = (S.get s).off + (w + w + w) := h2.used.off.trans hoff2
  obtain ⟨W, hW⟩ : ∃ W : Nat → Prop, W = fun x =>
    out ≤ x ∧ x < out + (w + w) ∨ S.top s ≤ x ∧ x < S.top s + peak := ⟨_, rfl⟩
  have hr1 : F.Ran c1 ((S.get s).off + peak) W _ _ := h1.toRan.mono (by omega) fun x hx => by rw [hW]; omega
  have hr2 : F.Ran c2 ((S.get s).off + peak) W _ _ := h2.toRan.mono (by omega) fun x hx => by rw [hW]; omega
  have hr3 : F.Ran c3 ((S.get s).off + peak) W _ _ := h3.toRan.mono (by omega) fun x hx => by rw [hW]; omega
  -- both base arrays are still in place when they are copied out
  obtain ⟨hframe, hval⟩ := memcpy_halves (S.get s4).mem out (fun i => val (vl i)) (fun i => val (vr i))
    (l := S.top s) (r := S.top s + (w + w)) (w := w)
    (fun i hi => by rw [h3.used.frame _ (by omega), h2.used.frame _ (by omega)]; exact h1.out i hi)
    h3.out (by omega)
  refine ((hr1.trans hr2).trans hr3).emits (by omega) le_rfl (fun x hx => by rwa [hW] at hx) hframe fun i hi => ?_
  rw [hval i hi]
  split <;> rfl

/-! ### The two recursions -/

/-- What a call of `connected` is given: room, the table entries of its component, and the inputs `inp` in the array at
`inputs`. -/
structure ConnectedArgs (F : S.Follows G N val) (s : σ) (k inputs out : Nat) (inp : Nat → Nat) : Prop where
  ok : F.Ok s
  bound : F.nextId s + connectedNodeCount k ≤ N
  table : ∀ i < connectedNodeCount k, G (F.nextId s + i) = connectedPreds k (F.nextId s) inp (F.nextId s + i)
  held : ∀ i < 2 ^ k, (S.get s).mem (inputs + i) = val (inp i)
  older : ∀ i < 2 ^ k, inp i < F.nextId s
  below : inputs + 2 ^ k ≤ S.top s
  room : out + 2 ^ k ≤ S.top s

/-- What a call of `standalone` is given. -/
structure StandaloneArgs (F : S.Follows G N val) (s : σ) (k out : Nat) : Prop where
  ok : F.Ok s
  bound : F.nextId s + standaloneNodeCount k ≤ N
  table : ∀ i < standaloneNodeCount k, G (F.nextId s + i) = standalonePreds k (F.nextId s) (F.nextId s + i)
  room : out + 2 ^ k ≤ S.top s

section Recursion
variable {k inputs : Nat} {inp : Nat → Nat} {s1 s2 s3 : σ}

theorem connectedNodeCount_parts (k : Nat) :
    connectedNodeCount (k + 1) = connectedNodeCount k + 2 * butterflyNodeCount k + connectedNodeCount k := by
  rw [connectedNodeCount]; omega

theorem ConnectedArgs.left (h : F.ConnectedArgs s (k + 1) inputs out inp) :
    F.ConnectedArgs (S.alloc (2 ^ k + 2 ^ k + 2 ^ k) s) k inputs (S.top s) inp := by
  obtain ⟨hok, hN, hG, hin, hlt, hinp, -⟩ := h
  have hpow : 2 ^ (k + 1) = 2 ^ k + 2 ^ k := by rw [pow_succ]; omega
  have hpos := Nat.two_pow_pos k
  have htop := top_alloc F (2 ^ k + 2 ^ k + 2 ^ k) s
  have hnext := nextId_alloc (F := F) (2 ^ k + 2 ^ k + 2 ^ k) s
  rw [hpow] at hin hlt hinp
  rw [connectedNodeCount_parts] at hN hG
  refine ⟨F.ok_set _ hok, by omega, fun i hi => ?_, fun i hi => ?_, fun i hi => ?_, by omega, by omega⟩
  · rw [hnext, hG i (by omega), connectedPreds_left inp hi]
  · rw [get_alloc F]; exact hin i (by omega)
  · rw [hnext]; exact hlt i (by omega)

/-- The merged butterflies read its base nodes and the upper half of the inputs. -/
theorem ConnectedArgs.merged (h : F.ConnectedArgs s (k + 1) inputs out inp)
    (hl : F.Emits (connectedNodeCount k) (connectedPeak k) (S.top s) (2 ^ k) (connectedBase k (F.nextId s))
      (S.alloc (2 ^ k + 2 ^ k + 2 ^ k) s) s2) :
    F.Emits (2 * butterflyNodeCount k) (mergedPeak k) (S.top s + 2 ^ k) (2 ^ k)
      (mergedOut k (mergedStart k (F.nextId s))) s2
      (S.merged s2 k (S.top s) (inputs + 2 ^ k) (S.top s + 2 ^ k)) := by
  obtain ⟨hok, hN, hG, hin, hlt, hinp, -⟩ := h
  have hpow : 2 ^ (k + 1) = 2 ^ k + 2 ^ k := by rw [pow_succ]; omega
  have htop1 := top_alloc F (2 ^ k + 2 ^ k + 2 ^ k) s
  have htop2 := hl.toRan.top
  have hms : mergedStart k (F.nextId s) = F.nextId s + connectedNodeCount k := rfl
  have hnext2 : F.nextId s2 = mergedStart k (F.nextId s) := by rw [hl.toRan.nextId, nextId_alloc]; rfl
  have hpos := Nat.two_pow_pos k
  rw [hpow] at hin hlt hinp
  rw [connectedNodeCount_parts] at hN hG
  rw [← hnext2]
  refine merged_emits (connectedBase k (F.nextId s)) (fun i => inp (2 ^ k + i))
    (hl.toRan.ok (F.ok_set _ hok)) (by omega) (fun i hi => ?_) hl.out (fun i hi => ?_) (fun i hi => ?_)
    (fun i hi => ?_) (by omega) (by omega) (by omega)
  · rw [hnext2, ← connectedPreds_merged inp hi, hms, Nat.add_assoc]
    exact hG _ (by omega)
  · rw [hl.used.frame _ (by omega), get_alloc F, Arena.bump_mem, Nat.add_assoc]
    exact hin _ (by omega)
  · rw [hnext2]; exact connectedBase_lt hi
  · have := hlt (2 ^ k + i) (by omega)
    omega

theorem ConnectedArgs.right (h : F.ConnectedArgs s (k + 1) inputs out inp)
    (hl : F.Emits (connectedNodeCount k) (connectedPeak k) (S.top s) (2 ^ k) (connectedBase k (F.nextId s))
      (S.alloc (2 ^ k + 2 ^ k + 2 ^ k) s) s2)
    (hm : F.Emits (2 * butterflyNodeCount k) (mergedPeak k) (S.top s + 2 ^ k) (2 ^ k)
      (mergedOut k (mergedStart k (F.nextId s))) s2 s3) :
    F.nextId s3 = connectedRight k (F.nextId s) ∧
      F.ConnectedArgs s3 k (S.top s + 2 ^ k) (S.top s + (2 ^ k + 2 ^ k)) (mergedOut k (mergedStart k (F.nextId s))) := by
  obtain ⟨hok, hN, hG, -, -, -, -⟩ := h
  have hpos := Nat.two_pow_pos k
  have htop1 := top_alloc F (2 ^ k + 2 ^ k + 2 ^ k) s
  have htop2 := hl.toRan.top
  have htop3 := hm.toRan.top
  have hms : mergedStart k (F.nextId s) = F.nextId s + connectedNodeCount k := rfl
  have hcr : connectedRight k (F.nextId s) = mergedStart k (F.nextId s) + 2 * butterflyNodeCount k := rfl
  have hnext3 : F.nextId s3 = connectedRight k (F.nextId s) := by
    rw [hm.toRan.nextId, hl.toRan.nextId, nextId_alloc]; rfl
  rw [connectedNodeCount_parts] at hN hG
  refine ⟨hnext3, hm.toRan.ok (hl.toRan.ok (F.ok_set _ hok)), by omega, fun i hi => ?_, hm.out, fun i hi => ?_,
    by omega, by omega⟩
  · rw [hnext3, ← connectedPreds_right inp i, hcr, hms, Nat.add_assoc, Nat.add_assoc]
    exact hG _ (by omega)
  · rw [hnext3]; exact mergedOut_lt hi

theorem connected_emits (h : F.ConnectedArgs s k inputs out inp) :
    F.Emits (connectedNodeCount k) (connectedPeak k) out (2 ^ k) (connectedBase k (F.nextId s)) s
      (S.connected s k inputs out) := by
  induction k generalizing s inputs out inp with
  | zero =>
    have hN := h.bound
    obtain ⟨hE, hF⟩ := F.one_spec out h.ok (by rw [connectedNodeCount] at hN; omega)
      (h.table 0 (connectedNodeCount_pos 0)) (h.older 0 Nat.one_pos) (h.held 0 Nat.one_pos)
    exact emits_one hE hF rfl
  | succ k ih =>
    have hpow : 2 ^ (k + 1) = 2 ^ k + 2 ^ k := by rw [pow_succ]; omega
    have hl := ih h.left
    rw [nextId_alloc] at hl
    have hm := h.merged hl
    obtain ⟨hnext, hright⟩ := h.right hl hm
    have hr := ih hright
    rw [hnext] at hr
    have hroom := h.room
    rw [hpow] at hroom ⊢
    rw [connectedNodeCount_parts]
    exact hl.halves hm hr (by rw [connectedPeak]; omega) hroom

theorem StandaloneArgs.left (h : F.StandaloneArgs s (k + 1) out) :
    F.StandaloneArgs (S.alloc (2 ^ k + 2 ^ k + 2 ^ k) s) k (S.top s) := by
  obtain ⟨hok, hN, hG, -⟩ := h
  have hpos := Nat.two_pow_pos k
  have htop := top_alloc F (2 ^ k + 2 ^ k + 2 ^ k) s
  have hnext := nextId_alloc (F := F) (2 ^ k + 2 ^ k + 2 ^ k) s
  rw [standaloneNodeCount] at hN hG
  refine ⟨F.ok_set _ hok, by omega, fun i hi => ?_, by omega⟩
  rw [hnext, hG i (by omega), standalonePreds_left hi]

theorem StandaloneArgs.connector (h : F.StandaloneArgs s (k + 1) out)
    (hl : F.Emits (standaloneNodeCount k) (standalonePeak k) (S.top s) (2 ^ k) (standaloneBase k (F.nextId s))
      (S.alloc (2 ^ k + 2 ^ k + 2 ^ k) s) s2) :
    F.Emits (butterflyNodeCount k) (connectorPeak k) (S.top s + 2 ^ k) (2 ^ k)
      (connectorOut k (connectorStart k (F.nextId s))) s2 (S.connector s2 k (S.top s) (S.top s + 2 ^ k)) := by
  obtain ⟨hok, hN, hG, -⟩ := h
  have hpos := Nat.two_pow_pos k
  have htop1 := top_alloc F (2 ^ k + 2 ^ k + 2 ^ k) s
  have htop2 := hl.toRan.top
  have hcs : connectorStart k (F.nextId s) = F.nextId s + standaloneNodeCount k := rfl
  have hnext2 : F.nextId s2 = connectorStart k (F.nextId s) := by rw [hl.toRan.nextId, nextId_alloc]; rfl
  rw [standaloneNodeCount] at hN hG
  rw [← hnext2]
  refine connector_emits (standaloneBase k (F.nextId s)) (hl.toRan.ok (F.ok_set _ hok)) (by omega)
    (fun i hi => ?_) hl.out (fun i hi => ?_) (by omega)
  · rw [hnext2, ← standalonePreds_connector hi, hcs, Nat.add_assoc]
    exact hG _ (by omega)
  · rw [hnext2]; exact standaloneBase_lt hi

/-- The right part is a connected component over the connector's outputs. -/
theorem StandaloneArgs.right (h : F.StandaloneArgs s (k + 1) out)
    (hl : F.Emits (standaloneNodeCount k) (standalonePeak k) (S.top s) (2 ^ k) (standaloneBase k (F.nextId s))
      (S.alloc (2 ^ k + 2 ^ k + 2 ^ k) s) s2)
    (hc : F.Emits (butterflyNodeCount k) (connectorPeak k) (S.top s + 2 ^ k) (2 ^ k)
      (connectorOut k (connectorStart k (F.nextId s))) s2 s3) :
    F.nextId s3 = standaloneRight k (F.nextId s) ∧
      F.ConnectedArgs s3 k (S.top s + 2 ^ k) (S.top s + (2 ^ k + 2 ^ k))
        (connectorOut k (connectorStart k (F.nextId s))) := by
  obtain ⟨hok, hN, hG, -⟩ := h
  have hpos := Nat.two_pow_pos k
  have htop1 := top_alloc F (2 ^ k + 2 ^ k + 2 ^ k) s
  have htop2 := hl.toRan.top
  have htop3 := hc.toRan.top
  have hcs : connectorStart k (F.nextId s) = F.nextId s + standaloneNodeCount k := rfl
  have hsr : standaloneRight k (F.nextId s) = connectorStart k (F.nextId s) + butterflyNodeCount k := rfl
  have hnext3 : F.nextId s3 = standaloneRight k (F.nextId s) := by
    rw [hc.toRan.nextId, hl.toRan.nextId, nextId_alloc]; rfl
  rw [standaloneNodeCount] at hN hG
  refine ⟨hnext3, hc.toRan.ok (hl.toRan.ok (F.ok_set _ hok)), by omega, fun i hi => ?_, hc.out, fun i hi => ?_,
    by omega, by omega⟩
  · rw [hnext3, ← standalonePreds_right i, hsr, hcs, Nat.add_assoc, Nat.add_assoc]
    exact hG _ (by omega)
  · rw [hnext3]; exact connectorOut_lt hi

/-- **The recursion follows the tables.** -/
theorem standalone_emits (h : F.StandaloneArgs s k out) :
    F.Emits (standaloneNodeCount k) (standalonePeak k) out (2 ^ k) (standaloneBase k (F.nextId s)) s
      (S.standalone s k out) := by
  induction k generalizing s out with
  | zero =>
    have hN := h.bound
    obtain ⟨hE, hF⟩ := F.source_spec out h.ok (by rw [standaloneNodeCount] at hN; omega)
      (h.table 0 (standaloneNodeCount_pos 0))
    exact emits_one hE hF rfl
  | succ k ih =>
    have hpow : 2 ^ (k + 1) = 2 ^ k + 2 ^ k := by rw [pow_succ]; omega
    have hl := ih h.left
    rw [nextId_alloc] at hl
    have hc := h.connector hl
    obtain ⟨hnext, hright⟩ := h.right hl hc
    have hr := connected_emits hright
    rw [hnext] at hr
    have hroom := h.room
    rw [hpow] at hroom ⊢
    rw [standaloneNodeCount]
    exact hl.halves hc hr (by rw [standalonePeak]) hroom

end Recursion

/-! ### Both copies -/

/-- Two standalone components one after the other, the arena set up anew in between or not, are the graph of `m`
blocks. -/
theorem standalone_twice {m level : Nat} (left right : Nat) {F : S.Follows (scaffoldPreds m) N val} {s s2 : σ}
    (hN : scratchNodeCount m ≤ N) (hlevel : level = poseGraphParameterN m + 1) (hok : F.Ok s) (h0 : F.nextId s = 0)
    (hmid : F.Emitted 0 (S.standalone s level left) s2)
    (hmem : (S.get s2).mem = (S.get (S.standalone s level left)).mem) (hsep : left + 2 ^ level ≤ right)
    (htop : left + 2 ^ level ≤ S.top s) (htop2 : right + 2 ^ level ≤ S.top s2) :
    let s3 := S.standalone s2 level right
    F.Emitted (scratchNodeCount m) s s3 ∧
      (∀ i < 2 ^ level, (S.get s3).mem (left + i) = val (standaloneBase level 0 i)) ∧
      (∀ i < 2 ^ level, (S.get s3).mem (right + i) = val (standaloneBase level (standaloneNodeCount level) i)) := by
  subst hlevel
  have htotal : scratchNodeCount m = standaloneNodeCount (poseGraphParameterN m + 1) +
      standaloneNodeCount (poseGraphParameterN m + 1) := Nat.two_mul _
  have h1 := standalone_emits ⟨hok, by omega, fun i hi => by rw [h0, scaffoldPreds, if_pos (by omega)], htop⟩
  have hnext2 : F.nextId s2 = standaloneNodeCount (poseGraphParameterN m + 1) := by
    rw [F.emitted_nextId hmid, h1.toRan.nextId, h0]; omega
  have h3 := standalone_emits (F := F) (s := s2) ⟨F.emitted_ok hmid (h1.toRan.ok hok), by omega,
    fun i _ => by rw [hnext2, scaffoldPreds, if_neg (by omega)], htop2⟩
  rw [h0] at h1
  rw [hnext2] at h3
  refine ⟨?_, fun i hi => ?_, h3.out⟩
  · rw [htotal]
    exact F.emitted_trans h1.emitted (by simpa using F.emitted_trans hmid h3.emitted)
  · rw [h3.used.frame _ (by omega), hmem]
    exact h1.out i hi

end Follows

end Scheme

end PoseDB.Graph
