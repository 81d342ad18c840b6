import PoseDB.Wipe.Mounts
import PoseDB.Wipe.Seed
import PoseDB.Wipe.Success

/-!
# The arguments of the disk wiper (`main` of `disk_wipe_bench.cu`)

`main` reads its arguments, checks what they select, and opens every disk before a worker starts. The numbers are read with
`strtoul` and `strtoull`, and nothing tells whether the text was a number. **`main_denoted_iff`**: a wipe uses the values
that the arguments denote exactly if another check stops it, or all these texts are numerals that fit.
-/

set_option autoImplicit false

namespace PoseDB.Wipe
open CText PoseDB.Graph

/-! ## The code -/

/-- `Config`, and `g_seed`. -/
structure MainConfig extends Config where
  disks : List Text
  gpus : List Nat
  perDiskBytes : Nat
  confirm : Bool
  mode : Text
  gpusPerDiskK : Int
  verifyN : Nat
  verifyOnly : Bool
  verbose : Bool
  seed : Nat → Byte

/-- The exit code of `main`, the text it prints, and whether it prints the usage. -/
structure Exit where
  rc : Nat
  err : String
  usage : Bool

def die (rc : Nat) (err : String) : Exit := ⟨rc, err, false⟩

/-- `need`: the next argument; `true` tells that it is used. -/
def need (n : String) (next : Option Text) (k : Text → Except Exit MainConfig) : Except Exit (MainConfig × Bool) :=
  match next with
  | none => .error (die 2 (n ++ " requires a value"))
  | some v =>
    match k v with
    | .error e => .error e
    | .ok cfg => .ok (cfg, true)

/-- The loop over the list of `--gpus`. -/
def readGpus (l : Text) (gpus : List Nat) : Except Exit (List Nat) :=
  if l = [] then .ok gpus
  else
    let tok := l.takeWhile (· ≠ ',')
    let v := strtol tok
    if tok = [] ∨ v.2 ≠ [] ∨ v.1 < 0 ∨ 2 ^ 31 - 1 < v.1 then
      .error (die 2 ("--gpus: bad ordinal '" ++ String.ofList tok ++ "' (expected e.g. 0,1,2,3)"))
    else if v.1.toNat ∈ gpus then .error (die 2 ("--gpus: ordinal " ++ toString v.1 ++ " listed twice"))
    else
      match _h : l.dropWhile (· ≠ ',') with
      | [] => .ok (gpus ++ [v.1.toNat])
      | _ :: rest => readGpus rest (gpus ++ [v.1.toNat])
termination_by l.length
decreasing_by
  have hle := (List.dropWhile_sublist (p := fun c => decide (c ≠ ',')) (l := l)).length_le
  rw [_h, List.length_cons] at hle
  omega

/-- `atoi`: `strtol`, as an `int`. -/
def atoi (t : Text) : Int := (strtol t).1.bmod (2 ^ 32)

/-- The argument `a`, followed by `next`: the new configuration, and whether `next` is used. -/
def readArg (a : Text) (next : Option Text) (cfg : MainConfig) : Except Exit (MainConfig × Bool) :=
  if a = "--disk".toList then need "--disk" next fun v => .ok { cfg with disks := cfg.disks ++ [v] }
  else if a = "--mode".toList then
    need "--mode" next fun v =>
      if v ≠ "gpus-per-disk".toList ∧ v ≠ "disk-per-gpu".toList then
        .error (die 2 ("unknown --mode " ++ String.ofList v ++ " (use disk-per-gpu | gpus-per-disk)"))
      else .ok { cfg with mode := v }
  else if a = "--gpus-per-disk".toList then
    need "--gpus-per-disk" next fun v => .ok { cfg with gpusPerDiskK := atoi v }
  else if a = "--verify".toList then need "--verify" next fun v => .ok { cfg with verifyN := strtoull v }
  else if a = "--verify-only".toList then .ok ({ cfg with verifyOnly := true }, false)
  else if a = "--verbose".toList then .ok ({ cfg with verbose := true }, false)
  else if a = "--chunk-blocks".toList then
    need "--chunk-blocks" next fun v => .ok { cfg with chunkBlocks := strtoull v % 2 ^ 32 }
  else if a = "--per-disk-mib".toList then
    need "--per-disk-mib" next fun v => .ok { cfg with perDiskBytes := strtoull v * mib % 2 ^ 64 }
  else if a = "--hbm-window-mib".toList then
    need "--hbm-window-mib" next fun v => .ok { cfg with hbmWindowMib := strtoull v }
  else if a = "--stage-mib".toList then need "--stage-mib" next fun v => .ok { cfg with stageMib := strtoull v }
  else if a = "--dry-run".toList then .ok ({ cfg with dryRun := true }, false)
  else if a = "--confirm".toList then .ok ({ cfg with confirm := true }, false)
  else if a = "--gpus".toList then
    need "--gpus" next fun v =>
      match readGpus v cfg.gpus with
      | .error e => .error e
      | .ok gpus => .ok { cfg with gpus := gpus }
  else if a = "--seed-hex".toList then
    need "--seed-hex" next fun v =>
      let r := parseHexSeed v cfg.seed
      if r.1 ≠ 0 then .error (die 2 "--seed-hex must be 64 hex characters") else .ok { cfg with seed := r.2 }
  else if a = "-h".toList ∨ a = "--help".toList then .error ⟨0, "", true⟩
  else .error ⟨2, "unknown argument: " ++ String.ofList a, true⟩

def readArgs : List Text → MainConfig → Except Exit MainConfig
  | [], cfg => .ok cfg
  | [a], cfg =>
    match readArg a none cfg with
    | .error e => .error e
    | .ok (cfg, _) => .ok cfg
  | a :: v :: rest, cfg =>
    match readArg a (some v) cfg with
    | .error e => .error e
    | .ok (cfg, true) => readArgs rest cfg
    | .ok (cfg, false) => readArgs (v :: rest) cfg

/-- The defaults of `Config`. -/
def MainConfig.default (seed : Nat → Byte) : MainConfig where
  chunkBlocks := poseChunkBlocks
  hbmWindowMib := 0
  stageMib := 1024
  dryRun := false
  disks := []
  gpus := []
  perDiskBytes := 0
  confirm := false
  mode := "disk-per-gpu".toList
  gpusPerDiskK := 0
  verifyN := 0
  verifyOnly := false
  verbose := false
  seed := seed

/-- What the calls of `main` give: the system calls on a path, `/proc/mounts`, those on a descriptor, and the devices. -/
structure MainEnv where
  realpath : Text → Option Text
  stat : Text → Except Nat Bool
  mounts : Option Text
  openFd : Text → (readOnly : Bool) → Except Nat Nat
  blkGetSize64 : Nat → Option Nat
  blkSszGet : Nat → Option Nat
  getDeviceCount : Except String Nat
  strerror : Nat → String
  seed : Nat → Byte

def ebusy : Nat := 16

/-- What `open_disk` gives. -/
structure Opened where
  fd : Nat
  size : Nat
  sector : Nat

def openDisk (env : MainEnv) (pathIn : Text) (readOnly : Bool) : Except String Opened :=
  let path := (env.realpath pathIn).getD pathIn
  match env.stat path with
  | .error errno => .error ("stat: " ++ env.strerror errno)
  | .ok isBlk =>
    if isBlk = false then .error "not a block device"
    else
      let m := mountedReason env.mounts path
      if m ≠ [] then .error (String.ofList m)
      else
        match env.openFd path readOnly with
        | .error errno =>
          if readOnly = false ∧ errno = ebusy then
            .error "device is in use (mounted, LVM/LUKS/md member, or swap) — refusing to open it exclusively"
          else .error ("open: " ++ env.strerror errno)
        | .ok fd =>
          match env.blkGetSize64 fd with
          | none => .error "BLKGETSIZE64 failed"
          | some bytes =>
            if bytes = 0 then .error "BLKGETSIZE64 failed" else .ok ⟨fd, bytes, (env.blkSszGet fd).getD 512⟩

/-- `OpenDisk`. -/
structure TargetDisk extends Opened where
  path : Text
  wipeLen : Nat

def MainConfig.want (cfg : MainConfig) (size : Nat) : Nat :=
  if cfg.perDiskBytes ≠ 0 then min cfg.perDiskBytes size else size

def openDisks (env : MainEnv) (cfg : MainConfig) : List Text → Except Exit (List TargetDisk)
  | [] => .ok []
  | p :: ps =>
    match openDisk env p cfg.verifyOnly with
    | .error err => .error (die 1 ("error: " ++ String.ofList p ++ ": " ++ err))
    | .ok dev =>
      if cfg.superBytes % dev.sector ≠ 0 then
        .error (die 1 ("error: " ++ String.ofList p ++ ": super-chunk " ++ toString cfg.superBytes ++
          " B is not a multiple of the " ++ toString dev.sector ++ " B sector; use a chunk_blocks that is a multiple of " ++
          toString (dev.sector / 32) ++ " (e.g. 131072)"))
      else
        let wipeLen := floorTo (cfg.want dev.size) cfg.superBytes
        if wipeLen = 0 then
          .error (die 1 ("error: " ++ String.ofList p ++ ": device smaller than one super-chunk (" ++
            toString cfg.superBytes ++ " B)"))
        else
          match openDisks env cfg ps with
          | .error e => .error e
          | .ok ds => .ok (⟨dev, p, wipeLen⟩ :: ds)

/-- What `main` comes to: it ends, it verifies the disks, or it starts workers in teams of `K` (a wipe, unless it is a dry
run). -/
inductive MainResult where
  | exit (e : Exit)
  | verify (cfg : MainConfig) (disks : List TargetDisk)
  | start (cfg : MainConfig) (disks : List TargetDisk) (K : Nat)

/-- `K`. -/
def teamSize (cfg : MainConfig) : Nat :=
  let G := cfg.gpus.length
  let K := if 0 < cfg.gpusPerDiskK then cfg.gpusPerDiskK.toNat else if cfg.mode = "gpus-per-disk".toList then G else 1
  let K := if K < 1 then 1 else K
  if G < K then G else K

/-- The checks of `main` before the GPUs, and the defaults that depend on other arguments. -/
def checkConfig (cfg : MainConfig) : Except Exit MainConfig :=
  if cfg.disks = [] then .error ⟨2, "error: at least one --disk is required (no auto-selection)", true⟩
  else
    let cb := if cfg.chunkBlocks = 0 then poseChunkBlocks else cfg.chunkBlocks
    if cb &&& (cb - 1) ≠ 0 ∨ poseGraphMaxM < cb then
      .error (die 2 ("error: --chunk-blocks must be a power of two in [1, " ++ toString poseGraphMaxM ++ "]"))
    else
      .ok { cfg with
        chunkBlocks := cb
        verifyN := if cfg.verifyOnly = true ∧ cfg.verifyN = 0 then 128 else cfg.verifyN }

def checkGpus (env : MainEnv) (cfg : MainConfig) : Except Exit MainConfig :=
  match env.getDeviceCount with
  | .error msg => .error (die 1 ("error: CUDA cannot access any GPU: " ++ msg))
  | .ok ndev =>
    if ndev < 1 then .error (die 1 "error: driver is up but reports 0 CUDA devices")
    else
      let gpus := if cfg.gpus = [] then List.range ndev else cfg.gpus
      match gpus.find? fun g => decide (ndev ≤ g) with
      | some g =>
        .error (die 2 ("error: GPU ordinal " ++ toString g ++ " out of range (0.." ++ toString (ndev - 1) ++ ")"))
      | none => .ok { cfg with gpus := gpus }

/-- `main` up to the start of the workers. -/
def main (env : MainEnv) (args : List Text) : MainResult :=
  match readArgs args (MainConfig.default env.seed) with
  | .error e => .exit e
  | .ok cfg =>
    match checkConfig cfg with
    | .error e => .exit e
    | .ok cfg =>
      match checkGpus env cfg with
      | .error e => .exit e
      | .ok cfg =>
        match openDisks env cfg cfg.disks with
        | .error e => .exit e
        | .ok disks =>
          if cfg.verifyOnly then .verify cfg disks
          else if cfg.dryRun = false ∧ cfg.confirm = false then
            .exit (die 1 ("REFUSING TO WRITE: this will DESTROY all data on the target device(s).\n" ++
              "Re-run with --dry-run to test the pipeline safely, or --confirm to wipe."))
          else .start cfg disks (teamSize cfg)

/-! ## What the arguments denote -/

def takesValue (a : Text) : Bool :=
  decide (a ∈ ["--disk".toList, "--mode".toList, "--gpus-per-disk".toList, "--verify".toList, "--chunk-blocks".toList,
    "--per-disk-mib".toList, "--hbm-window-mib".toList, "--stage-mib".toList, "--gpus".toList, "--seed-hex".toList])

def given (name : Text) : List Text → List Text
  | [] => []
  | [_] => []
  | a :: v :: rest =>
    if takesValue a then if a = name then v :: given name rest else given name rest else given name (v :: rest)

def perDiskTexts (args : List Text) : List Text := given "--per-disk-mib".toList args

def chunkTexts (args : List Text) : List Text := given "--chunk-blocks".toList args

/-- The cap that the arguments denote, in MiB; 0 for none. -/
def denotedMib (args : List Text) : Nat := (perDiskTexts args).getLast?.elim 0 decimalValue

def denotedChunk (args : List Text) : Nat := (chunkTexts args).getLast?.elim poseChunkBlocks decimalValue

def denotedWant (args : List Text) (size : Nat) : Nat :=
  if denotedMib args = 0 then size else min (denotedMib args * mib) size

/-- Numerals whose values fit where they are stored. -/
structure Fitting (args : List Text) : Prop where
  perDisk : ∀ v ∈ perDiskTexts args, Numeral v ∧ decimalValue v * mib < 2 ^ 64
  chunk : ∀ v ∈ chunkTexts args, Numeral v ∧ decimalValue v < 2 ^ 32

/-- What a wipe with these arguments should be. -/
structure AsDenoted (args : List Text) (cfg : MainConfig) (disks : List TargetDisk) : Prop where
  fitting : Fitting args
  chunkBlocks : cfg.chunkBlocks = denotedChunk args
  power : cfg.chunkBlocks.isPowerOfTwo
  wipeLen : ∀ d ∈ disks, IsGreatest {n | cfg.superBytes ∣ n ∧ n ≤ denotedWant args d.size} d.wipeLen

/-- The configuration passes all checks, with the values that it has. -/
structure StartsWipe (env : MainEnv) (cfg : MainConfig) : Prop where
  disks : cfg.disks ≠ []
  power : (resolveChunkBlocks cfg.chunkBlocks).isPowerOfTwo
  max : resolveChunkBlocks cfg.chunkBlocks ≤ poseGraphMaxM
  gpus : ∃ ndev, env.getDeviceCount = .ok ndev ∧ 1 ≤ ndev ∧ ∀ g ∈ cfg.gpus, g < ndev
  opens : ∀ p ∈ cfg.disks, ∃ dev, openDisk env p false = .ok dev ∧ dev.sector ∣ cfg.superBytes ∧
    cfg.superBytes ≤ cfg.want dev.size
  verifyOnly : cfg.verifyOnly = false
  dryRun : cfg.dryRun = false
  confirm : cfg.confirm = true

def Starts (env : MainEnv) (args : List Text) : Prop :=
  ∃ cfg, readArgs args (MainConfig.default env.seed) = .ok cfg ∧ StartsWipe env cfg

/-! ## Reading the arguments -/

section Read
variable {a v : Text} {next : Option Text} {cfg cfg' : MainConfig} {used : Bool}

/-- What an option with a value changes of the two numbers. -/
structure Sets (a v : Text) (cfg cfg' : MainConfig) : Prop where
  perDiskBytes : cfg'.perDiskBytes =
    if a = "--per-disk-mib".toList then strtoull v * mib % 2 ^ 64 else cfg.perDiskBytes
  chunkBlocks : cfg'.chunkBlocks = if a = "--chunk-blocks".toList then strtoull v % 2 ^ 32 else cfg.chunkBlocks

/-- What reading an argument does. -/
inductive Reads (a : Text) (next : Option Text) (cfg cfg' : MainConfig) : Bool → Prop
  | flag (htakes : takesValue a = false) (hper : cfg'.perDiskBytes = cfg.perDiskBytes)
      (hchunk : cfg'.chunkBlocks = cfg.chunkBlocks) : Reads a next cfg cfg' false
  | value (v : Text) (htakes : takesValue a = true) (hnext : next = some v) (hsets : Sets a v cfg cfg') :
      Reads a next cfg cfg' true

theorem need_reads {n : String} {k : Text → Except Exit MainConfig} (h : need n next k = .ok (cfg', used))
    (htakes : takesValue a = true) (hk : ∀ v, k v = .ok cfg' → Sets a v cfg cfg') : Reads a next cfg cfg' used := by
  unfold need at h
  split at h
  · cases h
  · rename_i v
    split at h
    · cases h
    · rename_i hv
      cases h
      exact .value v htakes rfl (hk v hv)

theorem readArg_reads (h : readArg a next cfg = .ok (cfg', used)) : Reads a next cfg cfg' used := by
  unfold readArg at h
  rcases eq_or_ne a "--disk".toList with rfl | hne
  · rw [if_pos rfl] at h
    exact need_reads h (by decide) fun v hv => by cases hv; exact ⟨rfl, rfl⟩
  rw [if_neg hne] at h
  rcases eq_or_ne a "--mode".toList with rfl | hne
  · rw [if_pos rfl] at h
    refine need_reads h (by decide) fun v hv => ?_
    split at hv
    · cases hv
    · cases hv
      exact ⟨rfl, rfl⟩
  rw [if_neg hne] at h
  rcases eq_or_ne a "--gpus-per-disk".toList with rfl | hne
  · rw [if_pos rfl] at h
    exact need_reads h (by decide) fun v hv => by cases hv; exact ⟨rfl, rfl⟩
  rw [if_neg hne] at h
  rcases eq_or_ne a "--verify".toList with rfl | hne
  · rw [if_pos rfl] at h
    exact need_reads h (by decide) fun v hv => by cases hv; exact ⟨rfl, rfl⟩
  rw [if_neg hne] at h
  rcases eq_or_ne a "--verify-only".toList with rfl | hne
  · rw [if_pos rfl] at h
    cases h
    exact .flag (by decide) rfl rfl
  rw [if_neg hne] at h
  rcases eq_or_ne a "--verbose".toList with rfl | hne
  · rw [if_pos rfl] at h
    cases h
    exact .flag (by decide) rfl rfl
  rw [if_neg hne] at h
  rcases eq_or_ne a "--chunk-blocks".toList with rfl | hne
  · rw [if_pos rfl] at h
    refine need_reads h (by decide) fun v hv => ?_
    cases hv
    exact ⟨rfl, (if_pos rfl).symm⟩
  rw [if_neg hne] at h
  rcases eq_or_ne a "--per-disk-mib".toList with rfl | hne
  · rw [if_pos rfl] at h
    refine need_reads h (by decide) fun v hv => ?_
    cases hv
    exact ⟨(if_pos rfl).symm, rfl⟩
  rw [if_neg hne] at h
  rcases eq_or_ne a "--hbm-window-mib".toList with rfl | hne
  · rw [if_pos rfl] at h
    exact need_reads h (by decide) fun v hv => by cases hv; exact ⟨rfl, rfl⟩
  rw [if_neg hne] at h
  rcases eq_or_ne a "--stage-mib".toList with rfl | hne
  · rw [if_pos rfl] at h
    exact need_reads h (by decide) fun v hv => by cases hv; exact ⟨rfl, rfl⟩
  rw [if_neg hne] at h
  rcases eq_or_ne a "--dry-run".toList with rfl | hne
  · rw [if_pos rfl] at h
    cases h
    exact .flag (by decide) rfl rfl
  rw [if_neg hne] at h
  rcases eq_or_ne a "--confirm".toList with rfl | hne
  · rw [if_pos rfl] at h
    cases h
    exact .flag (by decide) rfl rfl
  rw [if_neg hne] at h
  rcases eq_or_ne a "--gpus".toList with rfl | hne
  · rw [if_pos rfl] at h
    refine need_reads h (by decide) fun v hv => ?_
    split at hv
    · cases hv
    · cases hv
      exact ⟨rfl, rfl⟩
  rw [if_neg hne] at h
  rcases eq_or_ne a "--seed-hex".toList with rfl | hne
  · rw [if_pos rfl] at h
    refine need_reads h (by decide) fun v hv => ?_
    dsimp only at hv
    split at hv
    · cases hv
    · cases hv
      exact ⟨rfl, rfl⟩
  rw [if_neg hne] at h
  split at h <;> cases h

theorem given_flag (htakes : takesValue a = false) (name v : Text) (rest : List Text) :
    given name (a :: v :: rest) = given name (v :: rest) := by
  rw [given, if_neg (by rw [htakes]; exact Bool.false_ne_true)]

theorem lastGiven_value {β : Type} (htakes : takesValue a = true) (name v : Text) (rest : List Text) (d : β)
    (f : Text → β) : (given name (a :: v :: rest)).getLast?.elim d f =
      (given name rest).getLast?.elim (if a = name then f v else d) f := by
  rw [given, if_pos htakes]
  split
  · rw [List.getLast?_cons, Option.elim_some]
    cases (given name rest).getLast? <;> rfl
  · rfl

theorem readArgs_numbers {args : List Text} (h : readArgs args cfg = .ok cfg') :
    cfg'.perDiskBytes = (perDiskTexts args).getLast?.elim cfg.perDiskBytes (fun v => strtoull v * mib % 2 ^ 64) ∧
      cfg'.chunkBlocks = (chunkTexts args).getLast?.elim cfg.chunkBlocks (fun v => strtoull v % 2 ^ 32) := by
  unfold perDiskTexts chunkTexts
  fun_induction readArgs args cfg with
  | case1 => cases h; exact ⟨rfl, rfl⟩
  | case2 => cases h
  | case3 a cfg cfg1 used harg =>
      cases h
      cases readArg_reads harg with
      | flag _ hper hchunk => exact ⟨hper, hchunk⟩
      | value _ _ hnext => cases hnext
  | case4 => cases h
  | case5 a v rest cfg cfg1 harg ih =>
      cases readArg_reads harg with
      | value v' htakes hnext hsets =>
          cases hnext
          rw [lastGiven_value htakes, lastGiven_value htakes, ← hsets.perDiskBytes, ← hsets.chunkBlocks]
          exact ih h
  | case6 a v rest cfg cfg1 harg ih =>
      cases readArg_reads harg with
      | flag htakes hper hchunk =>
          rw [given_flag htakes, given_flag htakes, ← hper, ← hchunk]
          exact ih h

end Read

/-! ## The checks -/

section Checks
variable {env : MainEnv} {cfg cfg' : MainConfig} {ps : List Text} {ds : List TargetDisk}

theorem checkConfig_ok : checkConfig cfg = .ok cfg' ↔
    cfg.disks ≠ [] ∧ (resolveChunkBlocks cfg.chunkBlocks).isPowerOfTwo ∧
      resolveChunkBlocks cfg.chunkBlocks ≤ poseGraphMaxM ∧
      cfg' = { cfg with
        chunkBlocks := resolveChunkBlocks cfg.chunkBlocks
        verifyN := if cfg.verifyOnly = true ∧ cfg.verifyN = 0 then 128 else cfg.verifyN } := by
  have hcb : (if cfg.chunkBlocks = 0 then poseChunkBlocks else cfg.chunkBlocks) = resolveChunkBlocks cfg.chunkBlocks := by
    unfold resolveChunkBlocks
    split <;> simp_all
  have hpower := Nat.and_sub_one_eq_zero_iff_isPowerOfTwo (resolveChunkBlocks_pos cfg.chunkBlocks).ne'
  unfold checkConfig
  dsimp only
  rw [hcb]
  split
  · rename_i hnone
    exact ⟨fun h => (nomatch h), fun h => absurd hnone h.1⟩
  · rename_i hdisks
    split
    · rename_i hbad
      refine ⟨fun h => (nomatch h), fun h => ?_⟩
      rcases hbad with hbad | hbad
      · exact absurd (hpower.mpr h.2.1) hbad
      · exact absurd h.2.2.1 (not_le.mpr hbad)
    · rename_i hgood
      rw [not_or, not_not, not_lt, hpower] at hgood
      rw [Except.ok.injEq]
      exact ⟨fun h => ⟨hdisks, hgood.1, hgood.2, h.symm⟩, fun h => h.2.2.2.symm⟩

theorem checkGpus_ok : checkGpus env cfg = .ok cfg' ↔
    ∃ ndev, env.getDeviceCount = .ok ndev ∧ 1 ≤ ndev ∧ (∀ g ∈ cfg.gpus, g < ndev) ∧
      cfg' = { cfg with gpus := if cfg.gpus = [] then List.range ndev else cfg.gpus } := by
  unfold checkGpus
  split
  · rename_i hcount
    refine ⟨fun h => (nomatch h), fun ⟨ndev, h, _⟩ => ?_⟩
    rw [hcount] at h
    cases h
  · rename_i ndev hcount
    have hall : (∀ g ∈ (if cfg.gpus = [] then List.range ndev else cfg.gpus), g < ndev) ↔ ∀ g ∈ cfg.gpus, g < ndev := by
      split
      · rename_i hnone
        rw [hnone]
        exact ⟨fun _ g hg => (nomatch hg), fun _ g hg => List.mem_range.mp hg⟩
      · exact Iff.rfl
    split
    · rename_i hzero
      refine ⟨fun h => (nomatch h), fun ⟨n, h, hn, _⟩ => ?_⟩
      rw [hcount] at h
      cases h
      omega
    · rename_i hpos
      dsimp only
      split
      · rename_i g hfind
        refine ⟨fun h => (nomatch h), fun ⟨n, h, _, hlt, _⟩ => ?_⟩
        rw [hcount] at h
        cases h
        have hg := List.find?_some hfind
        have hmem := hall.mpr hlt g (List.mem_of_find?_eq_some hfind)
        rw [decide_eq_true_eq] at hg
        omega
      · rename_i hfind
        rw [List.find?_eq_none] at hfind
        rw [Except.ok.injEq]
        constructor
        · intro h
          refine ⟨ndev, hcount, by omega, hall.mp fun g hg => ?_, h.symm⟩
          simpa using hfind g hg
        · rintro ⟨n, h, -, -, heq⟩
          rw [hcount] at h
          cases h
          exact heq.symm

/-- A target that passes its checks. -/
structure OpensAs (env : MainEnv) (cfg : MainConfig) (p : Text) (d : TargetDisk) : Prop where
  opened : openDisk env p cfg.verifyOnly = .ok d.toOpened
  path : d.path = p
  sector : d.sector ∣ cfg.superBytes
  wipeLen : d.wipeLen = floorTo (cfg.want d.size) cfg.superBytes
  large : cfg.superBytes ≤ cfg.want d.size

theorem floorTo_eq_zero {v m : Nat} (hm : 0 < m) : floorTo v m = 0 ↔ v < m := by
  rw [floorTo, if_pos hm.ne', Nat.mul_eq_zero, Nat.div_eq_zero_iff]
  omega

theorem openDisks_ok : openDisks env cfg ps = .ok ds ↔ List.Forall₂ (OpensAs env cfg) ps ds := by
  have hsb := superBytes_pos cfg.toConfig
  induction ps generalizing ds with
  | nil =>
      rw [openDisks, Except.ok.injEq, List.forall₂_nil_left_iff]
      exact eq_comm
  | cons p ps ih =>
      rw [openDisks, List.forall₂_cons_left_iff]
      split
      · rename_i err hopen
        refine ⟨fun h => (nomatch h), fun ⟨d, _, hd, _⟩ => ?_⟩
        rw [hd.opened] at hopen
        cases hopen
      · rename_i dev hopen
        split
        · rename_i hsector
          refine ⟨fun h => (nomatch h), fun ⟨d, _, hd, _⟩ => ?_⟩
          rw [hd.opened] at hopen
          cases hopen
          exact absurd (Nat.mod_eq_zero_of_dvd hd.sector) hsector
        · rename_i hsector
          dsimp only
          split
          · rename_i hsmall
            refine ⟨fun h => (nomatch h), fun ⟨d, _, hd, _⟩ => ?_⟩
            rw [hd.opened] at hopen
            cases hopen
            exact absurd hd.large (not_le.mpr ((floorTo_eq_zero hsb).mp hsmall))
          · rename_i hlarge
            rw [floorTo_eq_zero hsb, not_lt] at hlarge
            have hhead : OpensAs env cfg p ⟨dev, p, floorTo (cfg.want dev.size) cfg.superBytes⟩ :=
              ⟨hopen, rfl, Nat.dvd_of_mod_eq_zero (not_not.mp hsector), rfl, hlarge⟩
            constructor
            · intro h
              split at h
              · cases h
              · rename_i ds' hrest
                cases h
                exact ⟨_, ds', hhead, ih.mp hrest, rfl⟩
            · rintro ⟨d, ds', hd, hrest, rfl⟩
              obtain ⟨dev', path, wipeLen⟩ := d
              obtain ⟨hopen', hpath, -, hlen, -⟩ := hd
              rw [hopen] at hopen'
              cases hopen'
              dsimp only at hpath hlen
              rw [ih.mpr hrest, hpath, hlen]

theorem superBytes_resolved (cfg : MainConfig) (n : Nat) (gpus : List Nat) :
    Config.superBytes { cfg with chunkBlocks := resolveChunkBlocks cfg.chunkBlocks, verifyN := n, gpus := gpus }.toConfig =
      cfg.superBytes := by
  have hpos := resolveChunkBlocks_pos cfg.chunkBlocks
  show resolveChunkBlocks (resolveChunkBlocks cfg.chunkBlocks) * 32 = resolveChunkBlocks cfg.chunkBlocks * 32
  rw [resolveChunkBlocks.eq_def (resolveChunkBlocks _), if_pos hpos.ne']

theorem forall₂_right {β γ : Type} {R : β → γ → Prop} {l : List β} {l' : List γ} (h : List.Forall₂ R l l') :
    ∀ y ∈ l', ∃ x ∈ l, R x y := by
  induction h with
  | nil => exact fun y hy => (nomatch hy)
  | @cons x y l l' hxy _ ih =>
      intro z hz
      rcases List.mem_cons.mp hz with rfl | hz
      · exact ⟨x, List.mem_cons_self, hxy⟩
      · obtain ⟨w, hw, hR⟩ := ih z hz
        exact ⟨w, List.mem_cons_of_mem _ hw, hR⟩

theorem exists_forall₂ {β γ : Type} {R : β → γ → Prop} {l : List β} (h : ∀ x ∈ l, ∃ y, R x y) :
    ∃ l', List.Forall₂ R l l' := by
  induction l with
  | nil => exact ⟨[], .nil⟩
  | cons x l ih =>
      obtain ⟨y, hy⟩ := h x List.mem_cons_self
      obtain ⟨l', hl'⟩ := ih fun z hz => h z (List.mem_cons_of_mem _ hz)
      exact ⟨y :: l', .cons hy hl'⟩

theorem main_start_inv {args : List Text} {disks : List TargetDisk} {K : Nat}
    (h : main env args = .start cfg' disks K) (hdry : cfg'.dryRun = false) :
    ∃ cfg, readArgs args (MainConfig.default env.seed) = .ok cfg ∧ StartsWipe env cfg ∧
      cfg'.chunkBlocks = resolveChunkBlocks cfg.chunkBlocks ∧ cfg'.perDiskBytes = cfg.perDiskBytes ∧
      List.Forall₂ (OpensAs env cfg') cfg'.disks disks := by
  unfold main at h
  split at h
  · cases h
  · rename_i cfg hread
    split at h
    · cases h
    · rename_i cfg1 hconfig
      split at h
      · cases h
      · rename_i cfg2 hgpus
        split at h
        · cases h
        · rename_i ds hopen
          split at h
          · cases h
          · rename_i hverify
            split at h
            · cases h
            · rename_i hconfirm
              cases h
              obtain ⟨hdisks, hpower, hmax, rfl⟩ := checkConfig_ok.mp hconfig
              obtain ⟨ndev, hcount, hpos, hlt, rfl⟩ := checkGpus_ok.mp hgpus
              have hforall := openDisks_ok.mp hopen
              have hverify' : cfg.verifyOnly = false := Bool.eq_false_iff.mpr hverify
              refine ⟨cfg, hread, ?_, rfl, rfl, hforall⟩
              exact
                { disks := hdisks
                  power := hpower
                  max := hmax
                  gpus := ⟨ndev, hcount, hpos, hlt⟩
                  opens := fun p hp => by
                    obtain ⟨d, -, hd⟩ := forall₂_right hforall.flip p hp
                    have hopened := hd.opened
                    have hsector := hd.sector
                    have hlarge := hd.large
                    dsimp only at hopened
                    rw [hverify'] at hopened
                    rw [superBytes_resolved] at hsector hlarge
                    exact ⟨d.toOpened, hopened, hsector, hlarge⟩
                  verifyOnly := hverify'
                  dryRun := hdry
                  confirm := Bool.not_eq_false _ ▸ fun hc => hconfirm ⟨hdry, hc⟩ }

theorem main_starts {args : List Text} (hread : readArgs args (MainConfig.default env.seed) = .ok cfg)
    (hs : StartsWipe env cfg) : ∃ cfg' disks K, main env args = .start cfg' disks K ∧ cfg'.dryRun = false := by
  obtain ⟨ndev, hcount, hpos, hlt⟩ := hs.gpus
  let verifyN := if cfg.verifyOnly = true ∧ cfg.verifyN = 0 then 128 else cfg.verifyN
  let cfg1 : MainConfig := { cfg with chunkBlocks := resolveChunkBlocks cfg.chunkBlocks, verifyN := verifyN }
  let cfg2 : MainConfig := { cfg1 with gpus := if cfg.gpus = [] then List.range ndev else cfg.gpus }
  have hconfig : checkConfig cfg = .ok cfg1 := checkConfig_ok.mpr ⟨hs.disks, hs.power, hs.max, rfl⟩
  have hgpus : checkGpus env cfg1 = .ok cfg2 := checkGpus_ok.mpr ⟨ndev, hcount, hpos, hlt, rfl⟩
  have hsuper : cfg2.superBytes = cfg.superBytes := superBytes_resolved cfg _ _
  obtain ⟨disks, hdisks⟩ : ∃ disks, List.Forall₂ (OpensAs env cfg2) cfg2.disks disks := by
    refine exists_forall₂ fun p hp => ?_
    obtain ⟨dev, hopen, hsector, hlarge⟩ := hs.opens p hp
    refine ⟨⟨dev, p, floorTo (cfg2.want dev.size) cfg2.superBytes⟩, ?_, rfl, ?_, rfl, ?_⟩
    · show openDisk env p cfg.verifyOnly = .ok dev
      rw [hs.verifyOnly]
      exact hopen
    · rwa [hsuper]
    · rwa [hsuper]
  refine ⟨cfg2, disks, teamSize cfg2, ?_, hs.dryRun⟩
  unfold main
  rw [hread]
  dsimp only
  rw [hconfig]
  dsimp only
  rw [hgpus]
  dsimp only
  rw [openDisks_ok.mpr hdisks]
  dsimp only
  have hverify : ¬cfg2.verifyOnly = true := Bool.eq_false_iff.mp hs.verifyOnly
  have hconfirm : ¬(cfg2.dryRun = false ∧ cfg2.confirm = false) := fun h => by
    have hc : cfg2.confirm = true := hs.confirm
    rw [hc] at h
    exact absurd h.2 (by decide)
  rw [if_neg hverify, if_neg hconfirm]

end Checks

/-! ## The values of a wipe -/

section Values
variable {args : List Text} {cfg : MainConfig}

/-- All texts are numerals that fit, and the graph size is not zero. -/
structure GoodNumbers (args : List Text) : Prop extends Fitting args where
  nonzero : denotedChunk args ≠ 0

theorem mib_pos : 0 < mib := by decide

theorem GoodNumbers.values (h : GoodNumbers args) {seed : Nat → Byte}
    (hread : readArgs args (MainConfig.default seed) = .ok cfg) :
    cfg.perDiskBytes = denotedMib args * mib ∧ resolveChunkBlocks cfg.chunkBlocks = denotedChunk args := by
  obtain ⟨hper, hchunk⟩ := readArgs_numbers hread
  have hnonzero := h.nonzero
  constructor
  · rw [hper]
    unfold denotedMib
    cases hlast : (perDiskTexts args).getLast? with
    | none => exact (Nat.zero_mul _).symm
    | some v =>
        obtain ⟨hnumeral, hfits⟩ := h.perDisk v (List.mem_of_getLast? hlast)
        have hle := Nat.le_mul_of_pos_right (decimalValue v) mib_pos
        rw [Option.elim_some, Option.elim_some, strtoull_numeral hnumeral (by omega), Nat.mod_eq_of_lt hfits]
  · rw [hchunk]
    unfold denotedChunk at hnonzero ⊢
    cases hlast : (chunkTexts args).getLast? with
    | none => rfl
    | some v =>
        obtain ⟨hnumeral, hfits⟩ := h.chunk v (List.mem_of_getLast? hlast)
        rw [hlast, Option.elim_some] at hnonzero
        rw [Option.elim_some, Option.elim_some, strtoull_numeral hnumeral (by omega), Nat.mod_eq_of_lt hfits,
          resolveChunkBlocks, if_pos hnonzero]

theorem want_eq_denoted (hper : cfg.perDiskBytes = denotedMib args * mib) (size : Nat) :
    cfg.want size = denotedWant args size := by
  unfold MainConfig.want denotedWant
  rw [hper]
  by_cases hzero : denotedMib args = 0
  · rw [if_pos hzero, hzero, Nat.zero_mul, if_neg (by decide)]
  · rw [if_neg hzero, if_pos (Nat.mul_pos (Nat.pos_of_ne_zero hzero) mib_pos).ne']

theorem floorTo_greatest {v m : Nat} (hm : 0 < m) : IsGreatest {n | m ∣ n ∧ n ≤ v} (floorTo v m) := by
  constructor
  · exact ⟨dvd_floorTo v m, floorTo_le v m⟩
  · rintro n ⟨⟨k, rfl⟩, hle⟩
    rw [floorTo, if_pos hm.ne', Nat.mul_comm m k]
    exact Nat.mul_le_mul_right m ((Nat.le_div_iff_mul_le hm).mpr (by rwa [Nat.mul_comm]))

end Values

/-- **When a wipe does what its arguments say**: exactly if another check stops it, or all texts given to
`--per-disk-mib` and `--chunk-blocks` are numerals that fit, with a graph size that is not zero. -/
theorem main_denoted_iff (env : MainEnv) (args : List Text) :
    (∀ cfg disks K, main env args = .start cfg disks K → cfg.dryRun = false → AsDenoted args cfg disks) ↔
      (Starts env args → GoodNumbers args) := by
  constructor
  · rintro h ⟨cfg, hread, hstarts⟩
    obtain ⟨cfg', disks, K, hmain, hdry⟩ := main_starts hread hstarts
    have hdenoted := h cfg' disks K hmain hdry
    refine { hdenoted.fitting with nonzero := ?_ }
    rw [← hdenoted.chunkBlocks]
    exact (Nat.pos_of_isPowerOfTwo hdenoted.power).ne'
  · intro h cfg' disks K hmain hdry
    obtain ⟨cfg, hread, hstarts, hchunk, hper, hdisks⟩ := main_start_inv hmain hdry
    have hgood := h ⟨cfg, hread, hstarts⟩
    obtain ⟨hperDisk, hchunkBlocks⟩ := hgood.values hread
    exact
      { fitting := hgood.toFitting
        chunkBlocks := hchunk.trans hchunkBlocks
        power := hchunk ▸ hstarts.power
        wipeLen := fun d hd => by
          obtain ⟨p, -, hopens⟩ := forall₂_right hdisks d hd
          rw [← want_eq_denoted (hper.trans hperDisk), hopens.wipeLen]
          exact floorTo_greatest (superBytes_pos _) }

/-- One GPU, and devices of 1 GiB that are not mounted. -/
def gibEnv : MainEnv where
  realpath := some
  stat _ := .ok true
  mounts := none
  openFd _ _ := .ok 3
  blkGetSize64 _ := some (2 ^ 30)
  blkSszGet _ := some 512
  getDeviceCount := .ok 1
  strerror _ := ""
  seed _ := 0

/-- `--disk /dev/sdb --confirm --per-disk-mib`, and its value. -/
def capArgs (v : String) : List Text :=
  ["--disk".toList, "/dev/sdb".toList, "--confirm".toList, "--per-disk-mib".toList, v.toList]

def capConfig (perDiskBytes : Nat) : MainConfig :=
  { MainConfig.default gibEnv.seed with disks := ["/dev/sdb".toList], confirm := true, perDiskBytes := perDiskBytes }

theorem capConfig_chunk (n : Nat) : resolveChunkBlocks (capConfig n).chunkBlocks = 4096 := rfl

theorem capConfig_superBytes (n : Nat) : (capConfig n).superBytes = 131072 := by
  unfold Config.superBytes
  rw [show resolveChunkBlocks (capConfig n).toConfig.chunkBlocks = 4096 from capConfig_chunk n]

theorem capConfig_starts {n : Nat} (hn : n = 0 ∨ 131072 ≤ n) : StartsWipe gibEnv (capConfig n) where
  disks := List.cons_ne_nil _ _
  power := by
    rw [capConfig_chunk]
    exact ⟨12, rfl⟩
  max := by
    rw [capConfig_chunk]
    decide
  gpus := ⟨1, rfl, le_rfl, fun g hg => (nomatch hg)⟩
  opens p hp := by
    refine ⟨⟨3, 2 ^ 30, 512⟩, ?_, ?_, ?_⟩
    · rw [List.mem_singleton.mp hp]
      rfl
    · rw [capConfig_superBytes]
      exact ⟨256, rfl⟩
    · rw [capConfig_superBytes]
      unfold MainConfig.want
      split
      · exact le_min (hn.resolve_left ‹_›) (by decide)
      · decide
  verifyOnly := rfl
  dryRun := rfl
  confirm := rfl

theorem main_denoted_iff_cap : ∃ cfg disks K,
    main gibEnv (capArgs "64") = .start cfg disks K ∧ AsDenoted (capArgs "64") cfg disks := by
  have hread : readArgs (capArgs "64") (MainConfig.default gibEnv.seed) = .ok (capConfig (64 * mib)) := rfl
  obtain ⟨cfg, disks, K, hmain, hdry⟩ := main_starts hread (capConfig_starts (Or.inr (by decide)))
  have hgood : GoodNumbers (capArgs "64") :=
    { perDisk := by decide
      chunk := by decide
      nonzero := by decide }
  exact ⟨cfg, disks, K, hmain, (main_denoted_iff gibEnv (capArgs "64")).mpr (fun _ => hgood) cfg disks K hmain hdry⟩

/-- `--per-disk-mib abc` wipes the whole disk. -/
theorem main_not_denoted : ¬∀ (env : MainEnv) (args : List Text) (cfg : MainConfig) (disks : List TargetDisk) (K : Nat),
    main env args = .start cfg disks K → cfg.dryRun = false → AsDenoted args cfg disks := by
  intro hall
  have hread : readArgs (capArgs "abc") (MainConfig.default gibEnv.seed) = .ok (capConfig 0) := rfl
  obtain ⟨cfg, disks, K, hmain, hdry⟩ := main_starts hread (capConfig_starts (Or.inl rfl))
  have hnumeral := ((hall _ _ cfg disks K hmain hdry).fitting.perDisk "abc".toList (by decide)).1
  exact absurd hnumeral (by decide)

end PoseDB.Wipe
