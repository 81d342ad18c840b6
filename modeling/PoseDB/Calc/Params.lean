import PoseDB.Graph.Count
import Mathlib.Algebra.Order.Field.Rat
import Mathlib.Data.Nat.Size
import Mathlib.Tactic.Positivity
import Mathlib.Tactic.NormNum

/-!
# Parameters of the wipe time calculator (`disk_calc.py`)

Floats are exact rationals. A raw value is absent, a number or a text; how Python reads a float from a text and prints a
number is left open (`Texts`). What `build_params` and the checks of `compute` promise is said once (`Params.Checked`,
`buildParams_checked`).
-/

set_option autoImplicit false

namespace PoseDB.Calc
open PoseDB.Graph

def poseHashBytes : Int := 32

def mib : ℚ := 1024 * 1024

def tb : ℚ := 1000000000000

/-! ## Node counts -/

def parameterN (m : Int) : Nat := if m ≤ 1 then 0 else (m - 1).toNat.size - 1

/-- `scratch_node_count`; the recurrences are those of `graph.c`. -/
def scratchNodes (chunkBlocks : Int) : Nat := 2 * standaloneNodeCount (parameterN chunkBlocks + 1)

def excessMultiplier (chunkBlocks : Int) : Except String ℚ :=
  if chunkBlocks = 0 then throw "division by zero" else pure (scratchNodes chunkBlocks / chunkBlocks)

def isValidChunkBlocks (cb : Int) : Bool :=
  decide (1 ≤ cb) && decide (cb ≤ poseGraphMaxM) && (cb.toNat &&& (cb - 1).toNat == 0)

/-! ## Parameters -/

structure Params where
  gpus : Int := 4
  gpuMibs : ℚ := 0
  gpuHashRate : ℚ := 0
  chunkBlocks : Int := poseChunkBlocks
  diskSizesBytes : List ℚ := []
  diskMibs : ℚ := 0
  d2hMibs : ℚ := 0
  hostMibs : ℚ := 0
  poolEff : ℚ := 1
  sectorBytes : Int := 4096
  gpusPerDisk : Int := 0
deriving DecidableEq

inductive RateSource
  | measured
  | derivedUpperBound
  | none
deriving DecidableEq

def resolveGpuRate (p : Params) : Except String (ℚ × RateSource) :=
  if 0 < p.gpuMibs then pure (p.gpuMibs * mib, .measured)
  else if 0 < p.gpuHashRate then do
    let excess ← excessMultiplier p.chunkBlocks
    pure (p.gpuHashRate * poseHashBytes / excess, .derivedUpperBound)
  else pure (0, .none)

/-! ## Raw values -/

/-- The keys of `FIELDS`. -/
inductive Key
  | gpuMibs | gpuHashRate | gpus | chunkBlocks | disks | diskTb | diskSizesTb | diskMibs | d2hMibs | hostMibs | poolEff
  | sectorBytes | gpusPerDisk
deriving DecidableEq

inductive Raw
  | none
  | num (x : ℚ)
  | text (s : List Char)

/-- Python's `float(text)` and `str(number)`. -/
structure Texts where
  float : List Char → Except String ℚ
  str : ℚ → List Char

/-- White space of `str.strip`. -/
def isSpace (c : Char) : Bool :=
  let n := c.toNat
  (decide (9 ≤ n) && decide (n ≤ 13)) || (decide (28 ≤ n) && decide (n ≤ 32)) || n == 0x85 || n == 0xA0 || n == 0x1680 ||
    (decide (0x2000 ≤ n) && decide (n ≤ 0x200A)) || n == 0x2028 || n == 0x2029 || n == 0x202F || n == 0x205F || n == 0x3000

def strip (s : List Char) : List Char := ((s.dropWhile isSpace).reverse.dropWhile isSpace).reverse

/-- `raw is None or (isinstance(raw, str) and raw.strip() == "")`. -/
def Raw.blank : Raw → Bool
  | none => true
  | num _ => false
  | text s => (strip s).isEmpty

def Texts.floatOf (py : Texts) : Raw → Except String ℚ
  | .none => pure 0
  | .num x => pure x
  | .text s => py.float s

def Texts.strOf (py : Texts) : Raw → List Char
  | .none => []
  | .num x => py.str x
  | .text s => s

/-- `int(x)` of a float: towards zero. -/
def truncate (x : ℚ) : Int := x.num.tdiv x.den

/-- `_coerce` for a field of type `"float"`. -/
def coerceFloat (py : Texts) (default : ℚ) (raw : Raw) : Except String ℚ :=
  if raw.blank then pure default else py.floatOf raw

/-- `_coerce` for a field of type `"int"`. -/
def coerceInt (py : Texts) (default : Int) (raw : Raw) : Except String Int :=
  if raw.blank then pure default else do
    let x ← py.floatOf raw
    pure (truncate x)

/-- `_coerce` for a field of type `"str"`. -/
def coerceStr (py : Texts) (default : List Char) (raw : Raw) : List Char :=
  if raw.blank then default else strip (py.strOf raw)

def diskSizes (py : Texts) (diskSizesTb : List Char) (diskTb : ℚ) (disks : Int) : Except String (List ℚ) :=
  if diskSizesTb ≠ [] then
    ((diskSizesTb.splitOn ',').filter fun x => !(strip x).isEmpty).mapM fun x => do
      let size ← py.float x
      pure (size * tb)
  else if 0 < diskTb ∧ 0 < disks then pure (List.replicate disks.toNat (diskTb * tb / disks))
  else pure []

def buildParams (py : Texts) (values : Key → Raw) : Except String Params := do
  let gpuMibs ← coerceFloat py 0 (values .gpuMibs)
  let gpuHashRate ← coerceFloat py 0 (values .gpuHashRate)
  let gpus ← coerceInt py 4 (values .gpus)
  let chunkBlocks ← coerceInt py poseChunkBlocks (values .chunkBlocks)
  let disks ← coerceInt py 1 (values .disks)
  let diskTb ← coerceFloat py 0 (values .diskTb)
  let diskSizesTb := coerceStr py [] (values .diskSizesTb)
  let diskMibs ← coerceFloat py 0 (values .diskMibs)
  let d2hMibs ← coerceFloat py 0 (values .d2hMibs)
  let hostMibs ← coerceFloat py 0 (values .hostMibs)
  let poolEff ← coerceFloat py 1 (values .poolEff)
  let sectorBytes ← coerceInt py 4096 (values .sectorBytes)
  let gpusPerDisk ← coerceInt py 0 (values .gpusPerDisk)
  let sizes ← diskSizes py diskSizesTb diskTb disks
  if sizes.any fun size => decide (size ≤ 0) then throw "disk sizes must be positive"
  if gpus < 1 then throw "number of GPUs must be >= 1"
  if gpusPerDisk ≠ 0 ∧ ¬(1 ≤ gpusPerDisk ∧ gpusPerDisk ≤ gpus) then
    throw "GPUs-per-disk must be between 1 and the number of GPUs"
  if ¬(0 < poolEff ∧ poolEff ≤ 1) then throw "pooling efficiency must be in (0, 1]"
  if sectorBytes < poseHashBytes then throw "sector size must be >= 32 bytes"
  pure
    { gpus := gpus, gpuMibs := gpuMibs, gpuHashRate := gpuHashRate, chunkBlocks := chunkBlocks, diskSizesBytes := sizes,
      diskMibs := diskMibs, d2hMibs := d2hMibs, hostMibs := hostMibs, poolEff := poolEff, sectorBytes := sectorBytes,
      gpusPerDisk := gpusPerDisk }

/-! ## What the checks promise -/

/-- What `build_params` checks. -/
structure Params.Checked (p : Params) : Prop where
  sizes : ∀ size ∈ p.diskSizesBytes, 0 < size
  gpus : 1 ≤ p.gpus
  gpusPerDisk : p.gpusPerDisk = 0 ∨ 1 ≤ p.gpusPerDisk ∧ p.gpusPerDisk ≤ p.gpus
  poolEff : 0 < p.poolEff ∧ p.poolEff ≤ 1
  sectorBytes : poseHashBytes ≤ p.sectorBytes

theorem bind_ok {α β : Type} {x : Except String α} {f : α → Except String β} {b : β} (h : x >>= f = .ok b) :
    ∃ a, x = .ok a ∧ f a = .ok b := by
  cases x with
  | error e => exact absurd h (by simp [bind, Except.bind])
  | ok a => exact ⟨a, rfl, h⟩

theorem exists_ok {α : Type} {x : Except String α} (h : x.isOk = true) : ∃ a, x = .ok a := by
  cases x with
  | error e => exact absurd h Bool.false_ne_true
  | ok a => exact ⟨a, rfl⟩

theorem unless_ok {α : Type} {c : Prop} [Decidable c] {e : String} {f : PUnit → Except String α} {b : α}
    (h : (if c then throw e >>= f else f PUnit.unit) = .ok b) : ¬c ∧ f PUnit.unit = .ok b := by
  by_cases hc : c
  · rw [if_pos hc] at h
    exact absurd h (by simp [bind, Except.bind, throw, throwThe, MonadExceptOf.throw])
  · rw [if_neg hc] at h
    exact ⟨hc, h⟩

theorem buildParams_checked {py : Texts} {values : Key → Raw} {p : Params} (h : buildParams py values = .ok p) :
    p.Checked := by
  unfold buildParams at h
  obtain ⟨gpuMibs, -, h⟩ := bind_ok h
  obtain ⟨gpuHashRate, -, h⟩ := bind_ok h
  obtain ⟨gpus, -, h⟩ := bind_ok h
  obtain ⟨chunkBlocks, -, h⟩ := bind_ok h
  obtain ⟨disks, -, h⟩ := bind_ok h
  obtain ⟨diskTb, -, h⟩ := bind_ok h
  obtain ⟨diskMibs, -, h⟩ := bind_ok h
  obtain ⟨d2hMibs, -, h⟩ := bind_ok h
  obtain ⟨hostMibs, -, h⟩ := bind_ok h
  obtain ⟨poolEff, -, h⟩ := bind_ok h
  obtain ⟨sectorBytes, -, h⟩ := bind_ok h
  obtain ⟨gpusPerDisk, -, h⟩ := bind_ok h
  obtain ⟨sizes, -, h⟩ := bind_ok h
  obtain ⟨hsizes, h⟩ := unless_ok h
  obtain ⟨hgpus, h⟩ := unless_ok h
  obtain ⟨hgpusPerDisk, h⟩ := unless_ok h
  obtain ⟨hpoolEff, h⟩ := unless_ok h
  obtain ⟨hsector, h⟩ := unless_ok h
  cases h
  refine ⟨fun size hsize => ?_, not_lt.mp hgpus, ?_, not_not.mp hpoolEff, not_lt.mp hsector⟩
  · by_contra hle
    exact hsizes (List.any_eq_true.mpr ⟨size, hsize, decide_eq_true (not_lt.mp hle)⟩)
  · dsimp only
    omega

end PoseDB.Calc
