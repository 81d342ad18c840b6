import PoseDB.Lib.CText
import Mathlib.Data.List.DropRight
import Mathlib.Data.List.GetD
import Mathlib.Data.List.Infix
import Mathlib.Data.List.TakeWhile
import Mathlib.Tactic.Common

/-!
# The mount check (`parent_disk` and `mounted_reason` of `disk_wipe_bench.cu`)

A target is refused when a mount source has the same parent disk. `parent_disk` guesses from the name how partitions are
numbered. **`parentDisk_partition_iff`**: a disk and its partitions have one parent exactly for the names of
`Recognised`; for these a target with a mounted partition is refused, for all others (`pmem0`, `md_home`) it is not.
-/

set_option autoImplicit false

namespace PoseDB.Wipe
open CText

/-! ## The code -/

/-- What follows the last `/`. -/
def baseName (p : List Char) : List Char := p.rtakeWhile (· ≠ '/')

/-- `while (i > 0 && isdigit(n[i - 1])) i--;` -/
def digitsStart (n : List Char) : Nat → Nat
  | 0 => 0
  | i + 1 => if (n.getD i ' ').isDigit then digitsStart n i else i + 1

def pStyle (n : List Char) : Bool :=
  decide ("nvme".toList <:+: n) || decide ("mmcblk".toList <:+: n) || decide ("loop".toList <:+: n) ||
    decide ("nbd".toList <:+: n) || decide ("md".toList <+: n) || decide ("dm-".toList <+: n)

def parentDisk (dev : List Char) : List Char :=
  let n := baseName dev
  let i := digitsStart n n.length
  if pStyle n then
    if i < n.length ∧ 2 ≤ i ∧ n.getD (i - 1) ' ' = 'p' ∧ (n.getD (i - 2) ' ').isDigit then n.take (i - 1) else n
  else if 0 < i then n.take i else n

/-- `f >> src`: the next word and what is left. -/
def readWord (s : List Char) : Option (List Char × List Char) :=
  let s := s.dropWhile isSpace
  let word := s.takeWhile fun c => !isSpace c
  if word = [] then none else some (word, s.dropWhile fun c => !isSpace c)

/-- What `std::getline(f, rest)` leaves. -/
def skipLine (s : List Char) : List Char := (s.dropWhile (· ≠ '\n')).drop 1

/-- The loop over `/proc/mounts`; every round reads at least one character. -/
def scanMounts (tgtDisk : List Char) : Nat → List Char → List Char
  | 0, _ => []
  | fuel + 1, s =>
    match readWord s with
    | none => []
    | some (src, s) =>
      match readWord s with
      | none => []
      | some (mnt, s) =>
        let s := skipLine s
        if ¬ "/dev/".toList <+: src then scanMounts tgtDisk fuel s
        else if parentDisk src = tgtDisk then
          "device (or a partition of it) is mounted: ".toList ++ src ++ " on ".toList ++ mnt
        else scanMounts tgtDisk fuel s

/-- `mounts` is absent when `/proc/mounts` cannot be read; the empty text means safe. -/
def mountedReason (mounts : Option (List Char)) (target : List Char) : List Char :=
  match mounts with
  | none => []
  | some s => scanMounts (parentDisk target) s.length s

/-! ## Names of disks and partitions -/

/-- The name of a device: one component of a path, without white space. -/
structure DeviceName (D : List Char) : Prop where
  nonempty : D ≠ []
  component : '/' ∉ D
  plain : ∀ c ∈ D, isSpace c = false

def EndsInDigit (D : List Char) : Prop := ∃ y d, D = y ++ [d] ∧ d.isDigit = true

/-- How Linux names partition `k` of a disk. -/
def partitionName (D : List Char) (k : Nat) : List Char :=
  if (D.getLastD ' ').isDigit then D ++ 'p' :: Nat.toDigits 10 k else D ++ Nat.toDigits 10 k

/-- A name that looks like one of a partition: digits after a `p` after a digit. -/
def PartitionLike (D : List Char) : Prop :=
  ∃ y d ds, D = y ++ [d, 'p'] ++ ds ∧ d.isDigit = true ∧ ds ≠ [] ∧ ∀ c ∈ ds, c.isDigit = true

/-- The disks whose partitions `parent_disk` recognises. -/
def Recognised (D : List Char) : Prop :=
  (pStyle D = false ∧ ¬EndsInDigit D) ∨ (pStyle D = true ∧ EndsInDigit D ∧ ¬PartitionLike D)

/-- The path of a device in `/dev` or in directories below it. -/
def devPath (dirs : List (List Char)) (D : List Char) : List Char :=
  "/dev/".toList ++ (dirs.flatMap (· ++ ['/']) ++ D)

/-! ## Digits at the end -/

section Digits
variable {stem ds n D : List Char} {k : Nat}

theorem digitsStart_append (hds : ∀ c ∈ ds, c.isDigit = true) (hstem : stem = [] ∨ ¬EndsInDigit stem) :
    digitsStart (stem ++ ds) (stem ++ ds).length = stem.length := by
  have hdigits : ∀ j ≤ ds.length, digitsStart (stem ++ ds) (stem.length + j) = digitsStart (stem ++ ds) stem.length := by
    intro j hj
    induction j with
    | zero => rfl
    | succ j ih =>
        have hlt : j < ds.length := hj
        rw [← Nat.add_assoc, digitsStart, List.getD_append_right _ _ _ _ (Nat.le_add_right _ _), Nat.add_sub_cancel_left,
          List.getD_eq_getElem _ _ hlt, if_pos (hds _ (List.getElem_mem hlt)), ih (Nat.le_of_lt hlt)]
  rw [List.length_append, hdigits _ le_rfl]
  rcases List.eq_nil_or_concat' stem with rfl | ⟨y, d, rfl⟩
  · rfl
  · have hd : d.isDigit = false := by
      rcases hstem with h | h
      · exact absurd h (List.append_ne_nil_of_right_ne_nil _ (List.cons_ne_nil _ _))
      · exact Bool.eq_false_iff.mpr fun hd => h ⟨y, d, rfl, hd⟩
    rw [List.length_append, List.length_singleton, digitsStart, List.append_assoc,
      List.getD_append_right _ _ _ _ le_rfl, Nat.sub_self, List.singleton_append, List.getD_cons_zero, hd,
      if_neg Bool.false_ne_true]

theorem isDigit_toDigits : ∀ c ∈ Nat.toDigits 10 k, c.isDigit = true :=
  fun _ hc => Nat.isDigit_of_mem_toDigits (by decide) le_rfl hc

theorem endsInDigit_iff (hD : D ≠ []) : EndsInDigit D ↔ (D.getLastD ' ').isDigit = true := by
  obtain ⟨y, d, rfl⟩ := (List.eq_nil_or_concat' D).resolve_left hD
  rw [List.getLastD_concat]
  constructor
  · rintro ⟨y', d', h, hd⟩
    obtain ⟨-, hdd⟩ := List.append_inj' h rfl
    rwa [List.singleton_inj.mp hdd]
  · exact fun h => ⟨y, d, rfl, h⟩

theorem partitionName_digit (hD : EndsInDigit D) : partitionName D k = D ++ ['p'] ++ Nat.toDigits 10 k := by
  have hne : D ≠ [] := by
    obtain ⟨y, d, rfl, -⟩ := hD
    exact List.append_ne_nil_of_right_ne_nil _ (List.cons_ne_nil _ _)
  rw [partitionName, if_pos ((endsInDigit_iff hne).mp hD), List.append_assoc, List.singleton_append]

theorem partitionName_letter (hne : D ≠ []) (hD : ¬EndsInDigit D) : partitionName D k = D ++ Nat.toDigits 10 k := by
  rw [partitionName, if_neg fun h => hD ((endsInDigit_iff hne).mpr h)]

theorem exists_stem (n : List Char) :
    ∃ stem ds, n = stem ++ ds ∧ (∀ c ∈ ds, c.isDigit = true) ∧ ¬EndsInDigit stem := by
  refine ⟨n.rdropWhile Char.isDigit, n.rtakeWhile Char.isDigit, List.rdropWhile_append_rtakeWhile.symm, ?_, ?_⟩
  · exact fun c hc => List.mem_rtakeWhile_imp hc
  · rintro ⟨y, d, h, hd⟩
    have hne : n.rdropWhile Char.isDigit ≠ [] := by
      rw [h]
      exact List.append_ne_nil_of_right_ne_nil _ (List.cons_ne_nil _ _)
    have hlast := List.rdropWhile_last_not (p := Char.isDigit) (l := n) hne
    simp only [h, List.getLast_append_singleton] at hlast
    exact hlast hd

end Digits

/-! ## The naming style of a partition -/

section Style
variable {w a ds : List Char}

theorem infix_append_digits (hw : ∀ c ∈ w, c.isDigit = false) (hne : w ≠ []) (hds : ∀ c ∈ ds, c.isDigit = true) :
    w <:+: a ++ ds ↔ w <:+: a := by
  have hclash : ∀ c, c ∈ w → c ∉ ds := fun c hc hc' => by
    have h := hw c hc
    rw [hds c hc'] at h
    cases h
  refine ⟨fun h => ?_, fun h => h.trans (List.prefix_append a ds).isInfix⟩
  rcases List.infix_append_iff.mp h with h | h | ⟨l₁, l₂, rfl, h₁, h₂⟩
  · exact h
  · obtain ⟨c, hc⟩ := List.exists_mem_of_ne_nil w hne
    exact absurd (h.subset hc) (hclash c hc)
  · cases l₂ with
    | nil =>
        rw [List.append_nil]
        exact h₁.isInfix
    | cons c l₂ => exact absurd (h₂.subset List.mem_cons_self) (hclash c (List.mem_append_right _ List.mem_cons_self))

/-- A `p` after a digit makes no new occurrence either. -/
theorem infix_append_p (hw : ∀ c ∈ w, c.isDigit = false) (hne : w ≠ []) (hp : w ≠ ['p']) (ha : EndsInDigit a) :
    w <:+: a ++ ['p'] ↔ w <:+: a := by
  refine ⟨fun h => ?_, fun h => h.trans (List.prefix_append a ['p']).isInfix⟩
  rcases List.infix_concat_iff.mp h with h | h
  · rcases List.suffix_concat_iff.mp h with rfl | ⟨t, rfl, ht⟩
    · exact absurd rfl hne
    · obtain ⟨y, d, rfl, hd⟩ := ha
      rcases List.suffix_concat_iff.mp ht with rfl | ⟨t', rfl, -⟩
      · exact absurd rfl hp
      · have hd' := hw d (by simp)
        rw [hd] at hd'
        cases hd'
  · exact h

theorem prefix_append_iff_of_head {ext : List Char} (hext : ∀ c ∈ ext.head?, c ∉ w) (ha : ext ≠ []) :
    w <+: a ++ ext ↔ w <+: a := by
  refine ⟨fun h => ?_, fun h => h.trans (List.prefix_append a ext)⟩
  rcases List.prefix_or_prefix_of_prefix h (List.prefix_append a ext) with h' | ⟨t, rfl⟩
  · exact h'
  · rw [List.prefix_append_right_inj] at h
    cases t with
    | nil => rw [List.append_nil]
    | cons c t =>
        obtain ⟨e, ext, rfl⟩ := List.exists_cons_of_ne_nil ha
        obtain ⟨rfl, -⟩ := List.cons_prefix_cons.mp h
        exact absurd (List.mem_append_right _ List.mem_cons_self) (hext c rfl)

theorem pStyle_partitionName {D : List Char} (hD : D ≠ []) (k : Nat) : pStyle (partitionName D k) = pStyle D := by
  have hdigit : ∀ c ∈ (Nat.toDigits 10 k).head?, c.isDigit = true := fun c hc =>
    isDigit_toDigits c (List.mem_of_mem_head? hc)
  unfold pStyle
  by_cases hend : EndsInDigit D
  · rw [partitionName_digit hend]
    have hwithin : ∀ w : List Char, (∀ c ∈ w, c.isDigit = false) → w ≠ [] → w ≠ ['p'] →
        decide (w <:+: D ++ ['p'] ++ Nat.toDigits 10 k) = decide (w <:+: D) := fun w hw hne hp =>
      decide_eq_decide.mpr ((infix_append_digits hw hne isDigit_toDigits).trans (infix_append_p hw hne hp hend))
    have hprefix : ∀ w : List Char, 'p' ∉ w →
        decide (w <+: D ++ ['p'] ++ Nat.toDigits 10 k) = decide (w <+: D) := fun w hw => by
      rw [List.append_assoc]
      exact decide_eq_decide.mpr
        (prefix_append_iff_of_head (fun c hc => by cases hc; exact hw) (List.cons_ne_nil _ _))
    rw [hwithin _ (forall_mem_of_all _ rfl) (by decide) (by decide),
      hwithin _ (forall_mem_of_all _ rfl) (by decide) (by decide),
      hwithin _ (forall_mem_of_all _ rfl) (by decide) (by decide),
      hwithin _ (forall_mem_of_all _ rfl) (by decide) (by decide), hprefix _ (by decide), hprefix _ (by decide)]
  · rw [partitionName_letter hD hend]
    have hwithin : ∀ w : List Char, (∀ c ∈ w, c.isDigit = false) → w ≠ [] →
        decide (w <:+: D ++ Nat.toDigits 10 k) = decide (w <:+: D) := fun w hw hne =>
      decide_eq_decide.mpr (infix_append_digits hw hne isDigit_toDigits)
    have hprefix : ∀ w : List Char, (∀ c ∈ w, c.isDigit = false) →
        decide (w <+: D ++ Nat.toDigits 10 k) = decide (w <+: D) := fun w hw =>
      decide_eq_decide.mpr (prefix_append_iff_of_head
        (fun c hc hcw => Bool.false_ne_true ((hw c hcw).symm.trans (hdigit c hc))) Nat.toDigits_ne_nil)
    rw [hwithin _ (forall_mem_of_all _ rfl) (by decide), hwithin _ (forall_mem_of_all _ rfl) (by decide),
      hwithin _ (forall_mem_of_all _ rfl) (by decide), hwithin _ (forall_mem_of_all _ rfl) (by decide),
      hprefix _ (forall_mem_of_all _ rfl), hprefix _ (forall_mem_of_all _ rfl)]

end Style

/-! ## Parents -/

section Parents
variable {D stem ds : List Char} {k : Nat}

theorem baseName_append (x : List Char) (hD : '/' ∉ D) : baseName (x ++ '/' :: D) = D := by
  rw [baseName, List.rtakeWhile, List.reverse_append, List.reverse_cons, List.append_assoc,
    List.takeWhile_append_of_pos fun c hc => by simpa using fun h : c = '/' => hD (h ▸ List.mem_reverse.mp hc)]
  simp

theorem baseName_devPath (dirs : List (List Char)) (hD : '/' ∉ D) : baseName (devPath dirs D) = D := by
  rcases List.eq_nil_or_concat' dirs with rfl | ⟨dirs, d, rfl⟩
  · exact baseName_append ['/', 'd', 'e', 'v'] hD
  · have hpath : devPath (dirs ++ [d]) D = ("/dev/".toList ++ (dirs.flatMap (· ++ ['/']) ++ d)) ++ '/' :: D := by
      simp [devPath]
    rw [hpath]
    exact baseName_append _ hD

theorem not_endsInDigit_p (y : List Char) (d : Char) : ¬EndsInDigit (y ++ [d, 'p']) := by
  rintro ⟨y', d', h, hd⟩
  rw [show y ++ [d, 'p'] = y ++ [d] ++ ['p'] by simp] at h
  obtain ⟨-, hp⟩ := List.append_inj' h rfl
  rw [← List.singleton_inj.mp hp] at hd
  cases hd

theorem stem_unique {stem' ds' : List Char} (hds : ∀ c ∈ ds, c.isDigit = true) (hstem : ¬EndsInDigit stem)
    (hds' : ∀ c ∈ ds', c.isDigit = true) (hstem' : ¬EndsInDigit stem') (h : stem ++ ds = stem' ++ ds') : stem = stem' := by
  have h1 := digitsStart_append hds (Or.inr hstem)
  have h2 := digitsStart_append hds' (Or.inr hstem')
  rw [h] at h1
  exact (List.append_inj h (h1.symm.trans h2)).1

theorem length_parentDisk_le (dev : List Char) : (parentDisk dev).length ≤ (baseName dev).length := by
  unfold parentDisk
  dsimp only
  split_ifs
  · rw [List.length_take]
    exact Nat.min_le_right _ _
  · exact le_rfl
  · rw [List.length_take]
    exact Nat.min_le_right _ _
  · exact le_rfl

theorem parentDisk_partition {dev y : List Char} {d : Char} (hdev : baseName dev = y ++ [d, 'p'] ++ ds)
    (hstyle : pStyle (baseName dev) = true) (hd : d.isDigit = true) (hne : ds ≠ []) (hds : ∀ c ∈ ds, c.isDigit = true) :
    parentDisk dev = y ++ [d] := by
  have hstart := digitsStart_append hds (Or.inr (not_endsInDigit_p y d))
  have hlen : (y ++ [d, 'p']).length = y.length + 2 := by rw [List.length_append]; rfl
  have hpos := List.length_pos_iff.mpr hne
  unfold parentDisk
  rw [if_pos hstyle, hdev, hstart, hlen, if_pos]
  · rw [List.append_assoc, show y.length + 2 - 1 = (y ++ [d]).length by rw [List.length_append]; rfl,
      show y ++ ([d, 'p'] ++ ds) = (y ++ [d]) ++ ('p' :: ds) by simp, List.take_left]
  · refine ⟨?_, by omega, ?_, ?_⟩
    · rw [List.length_append, hlen]
      omega
    · rw [List.append_assoc, List.getD_append_right _ _ _ _ (by omega), show y.length + 2 - 1 - y.length = 1 by omega]
      rfl
    · rw [List.append_assoc, List.getD_append_right _ _ _ _ (by omega), show y.length + 2 - 2 - y.length = 0 by omega]
      exact hd

theorem parentDisk_whole {dev : List Char} (hstyle : pStyle (baseName dev) = true)
    (hwhole : ¬PartitionLike (baseName dev)) : parentDisk dev = baseName dev := by
  unfold parentDisk
  rw [if_pos hstyle, if_neg]
  rintro ⟨hlt, htwo, hp, hd⟩
  obtain ⟨stem, ds, hn, hds, hstem⟩ := exists_stem (baseName dev)
  have hstart := digitsStart_append hds (Or.inr hstem)
  rw [hn, hstart] at hlt htwo hp hd
  rw [List.length_append] at hlt
  obtain ⟨y, q, rfl⟩ := (List.eq_nil_or_concat' stem).resolve_left fun h => by
    rw [h] at htwo
    exact absurd htwo (by decide)
  obtain ⟨y, d, rfl⟩ := (List.eq_nil_or_concat' y).resolve_left fun h => by
    rw [h] at htwo
    exact absurd htwo (by simp)
  have hlen : (y ++ [d] ++ [q]).length = y.length + 2 := by
    rw [List.length_append, List.length_append]
    rfl
  rw [hlen, List.append_assoc, List.append_assoc, List.getD_append_right _ _ _ _ (by omega),
    show y.length + 2 - 1 - y.length = 1 by omega] at hp
  rw [hlen, List.append_assoc, List.append_assoc, List.getD_append_right _ _ _ _ (by omega),
    show y.length + 2 - 2 - y.length = 0 by omega] at hd
  have hq : q = 'p' := hp
  have hd' : d.isDigit = true := hd
  refine hwhole ⟨y, d, ds, by rw [hn, hq]; simp, hd', ?_, hds⟩
  rintro rfl
  exact absurd hlt (by simp)

theorem parentDisk_letters {dev : List Char} (hdev : baseName dev = stem ++ ds) (hstyle : pStyle (baseName dev) = false)
    (hne : stem ≠ []) (hds : ∀ c ∈ ds, c.isDigit = true) (hstem : ¬EndsInDigit stem) : parentDisk dev = stem := by
  have hstart := digitsStart_append hds (Or.inr hstem)
  unfold parentDisk
  rw [if_neg (by rw [hstyle]; exact Bool.false_ne_true), hdev, hstart, if_pos (List.length_pos_iff.mpr hne),
    List.take_left]

theorem not_partitionLike (hend : ¬EndsInDigit D) : ¬PartitionLike D := by
  rintro ⟨y, d, ds, rfl, -, hne, hds⟩
  obtain ⟨t, c, rfl⟩ := (List.eq_nil_or_concat' ds).resolve_left hne
  exact hend ⟨y ++ [d, 'p'] ++ t, c, (List.append_assoc _ _ _).symm, hds c (by simp)⟩

theorem partitionName_component (hD : '/' ∉ D) (k : Nat) : '/' ∉ partitionName D k := by
  have hdigits : '/' ∉ Nat.toDigits 10 k := fun h => by
    have hd := isDigit_toDigits _ h
    cases hd
  unfold partitionName
  split <;> simp [hD, hdigits]

theorem Recognised.parents (h : Recognised D) (hne : D ≠ []) (hD : '/' ∉ D) (dirs : List (List Char)) (k : Nat) :
    parentDisk (devPath dirs D) = D ∧ parentDisk (devPath dirs (partitionName D k)) = D := by
  have hbase := baseName_devPath dirs hD
  have hbase' := baseName_devPath dirs (partitionName_component hD k)
  rcases h with ⟨hstyle, hend⟩ | ⟨hstyle, hend, hwhole⟩
  · have hdisk : baseName (devPath dirs D) = D ++ [] := by rw [hbase, List.append_nil]
    have hpart : baseName (devPath dirs (partitionName D k)) = D ++ Nat.toDigits 10 k := by
      rw [hbase', partitionName_letter hne hend]
    refine ⟨parentDisk_letters hdisk (by rwa [hbase]) hne (fun c hc => by cases hc) hend, ?_⟩
    exact parentDisk_letters hpart (by rw [hbase', pStyle_partitionName hne, hstyle]) hne isDigit_toDigits hend
  · refine ⟨?_, ?_⟩
    · have hself : parentDisk (devPath dirs D) = baseName (devPath dirs D) :=
        parentDisk_whole (by rwa [hbase]) (by rwa [hbase])
      rwa [hbase] at hself
    · obtain ⟨y, d, rfl, hd⟩ := hend
      have hpart : baseName (devPath dirs (partitionName (y ++ [d]) k)) = y ++ [d, 'p'] ++ Nat.toDigits 10 k := by
        rw [hbase', partitionName_digit ⟨y, d, rfl, hd⟩]
        simp
      exact parentDisk_partition hpart (by rw [hbase', pStyle_partitionName hne, hstyle]) hd Nat.toDigits_ne_nil
        isDigit_toDigits

theorem parents_ne (h : ¬Recognised D) (hne : D ≠ []) (hD : '/' ∉ D) (dirs : List (List Char)) (k : Nat) :
    parentDisk (devPath dirs (partitionName D k)) ≠ parentDisk (devPath dirs D) := by
  have hbase := baseName_devPath dirs hD
  have hbase' := baseName_devPath dirs (partitionName_component hD k)
  have hle := length_parentDisk_le (devPath dirs D)
  rw [hbase] at hle
  intro hsame
  by_cases hend : EndsInDigit D
  · by_cases hstyle : pStyle D = true
    · -- the disk itself is taken for a partition
      have hlike : PartitionLike D := by
        by_contra hwhole
        exact h (Or.inr ⟨hstyle, hend, hwhole⟩)
      obtain ⟨y, d, hyd, hd⟩ := id hend
      obtain ⟨y', d', ds, hlikeEq, hd', hds, hdsDigit⟩ := hlike
      have hparent : parentDisk (devPath dirs D) = y' ++ [d'] :=
        parentDisk_partition (by rw [hbase, hlikeEq]) (by rwa [hbase]) hd' hds hdsDigit
      have hname : baseName (devPath dirs (partitionName D k)) = y ++ [d, 'p'] ++ Nat.toDigits 10 k := by
        rw [hbase', partitionName_digit hend, hyd]
        simp
      have hpart : parentDisk (devPath dirs (partitionName D k)) = y ++ [d] :=
        parentDisk_partition hname (by rw [hbase', pStyle_partitionName hne, hstyle]) hd Nat.toDigits_ne_nil
          isDigit_toDigits
      rw [hpart, hparent, ← hyd] at hsame
      have hlen := congrArg List.length (hsame.symm.trans hlikeEq)
      have hpos := List.length_pos_iff.mpr hds
      simp only [List.length_append, List.length_cons, List.length_nil] at hlen
      omega
    · -- the `p` stays
      have hstem : ¬EndsInDigit (D ++ ['p']) := by
        obtain ⟨y, d, rfl, -⟩ := hend
        rw [List.append_assoc]
        exact not_endsInDigit_p y d
      have hname : baseName (devPath dirs (partitionName D k)) = (D ++ ['p']) ++ Nat.toDigits 10 k := by
        rw [hbase', partitionName_digit hend]
      have hpart : parentDisk (devPath dirs (partitionName D k)) = D ++ ['p'] :=
        parentDisk_letters hname (by rw [hbase', pStyle_partitionName hne]; exact Bool.eq_false_iff.mpr hstyle)
          (List.append_ne_nil_of_right_ne_nil _ (List.cons_ne_nil _ _)) isDigit_toDigits hstem
      rw [← hsame, hpart, List.length_append, List.length_singleton] at hle
      omega
  · have hstyle : pStyle D = true := by
      by_contra hstyle
      exact h (Or.inl ⟨Bool.eq_false_iff.mpr hstyle, hend⟩)
    have hname := partitionName_letter (k := k) hne hend
    have hself : parentDisk (devPath dirs D) = D := by
      have hwhole : parentDisk (devPath dirs D) = baseName (devPath dirs D) :=
        parentDisk_whole (by rwa [hbase]) (by rw [hbase]; exact not_partitionLike hend)
      rwa [hbase] at hwhole
    have hstyle' : pStyle (baseName (devPath dirs (partitionName D k))) = true := by
      rw [hbase', pStyle_partitionName hne, hstyle]
    by_cases hlike : PartitionLike (partitionName D k)
    · -- the name of the disk ends in a digit and `p`, and loses the `p`
      obtain ⟨y, d, ds, hlikeEq, hd, hds, hdsDigit⟩ := hlike
      have hpart : parentDisk (devPath dirs (partitionName D k)) = y ++ [d] :=
        parentDisk_partition (by rw [hbase', hlikeEq]) hstyle' hd hds hdsDigit
      have hstem := stem_unique isDigit_toDigits hend hdsDigit (not_endsInDigit_p y d) (hname.symm.trans hlikeEq)
      rw [hself, hpart, hstem] at hsame
      have hlen := congrArg List.length hsame
      simp only [List.length_append, List.length_cons, List.length_nil] at hlen
      omega
    · -- the digits stay
      have hpart := parentDisk_whole hstyle' (by rwa [hbase'])
      rw [hself, hpart, hbase', hname] at hsame
      have hlen := congrArg List.length hsame
      have hpos := List.length_pos_iff.mpr (Nat.toDigits_ne_nil (n := k) (b := 10))
      rw [List.length_append] at hlen
      omega

end Parents

/-! ## The mount table -/

/-- A line of `/proc/mounts`. -/
structure Mount where
  src : List Char
  mnt : List Char
  rest : List Char

/-- A line as the kernel writes it: fields without white space. -/
structure Mount.Ok (m : Mount) : Prop where
  src : m.src ≠ [] ∧ ∀ c ∈ m.src, isSpace c = false
  mnt : m.mnt ≠ [] ∧ ∀ c ∈ m.mnt, isSpace c = false
  rest : '\n' ∉ m.rest

def Mount.line (m : Mount) : List Char := m.src ++ ' ' :: (m.mnt ++ ' ' :: (m.rest ++ ['\n']))

def mountsText (ms : List Mount) : List Char := ms.flatMap Mount.line

section Table
variable {ms : List Mount} {m : Mount} {tgtDisk word s : List Char}

theorem readWord_append (hword : word ≠ [] ∧ ∀ c ∈ word, isSpace c = false) (s : List Char) :
    readWord (word ++ ' ' :: s) = some (word, ' ' :: s) := by
  obtain ⟨hne, hplain⟩ := hword
  obtain ⟨c, cs, rfl⟩ := List.exists_cons_of_ne_nil hne
  have hdrop : (c :: cs ++ ' ' :: s).dropWhile isSpace = c :: cs ++ ' ' :: s := by
    rw [List.cons_append, List.dropWhile_cons_of_neg (by rw [hplain c List.mem_cons_self]; exact Bool.false_ne_true)]
  have hall : ∀ x ∈ c :: cs, (!isSpace x) = true := fun x hx => by rw [hplain x hx]; rfl
  unfold readWord
  dsimp only
  rw [hdrop, List.takeWhile_append_of_pos hall, List.dropWhile_append_of_pos hall,
    List.takeWhile_cons_of_neg (by decide), List.dropWhile_cons_of_neg (by decide), List.append_nil,
    if_neg (List.cons_ne_nil _ _)]

theorem readWord_space (s : List Char) : readWord (' ' :: s) = readWord s := by
  unfold readWord
  rw [List.dropWhile_cons_of_pos (by decide)]

theorem skipLine_line (hrest : '\n' ∉ m.rest) (s : List Char) : skipLine (' ' :: (m.rest ++ ['\n']) ++ s) = s := by
  have hall : ∀ c ∈ ' ' :: m.rest, decide (c ≠ '\n') = true := fun c hc => by
    rcases List.mem_cons.mp hc with rfl | hc
    · decide
    · exact decide_eq_true fun h => hrest (h ▸ hc)
  rw [skipLine, ← List.cons_append, List.append_assoc, List.dropWhile_append_of_pos hall, List.singleton_append,
    List.dropWhile_cons_of_neg (by decide), List.drop_one, List.tail_cons]

def Mount.Hits (tgtDisk : List Char) (m : Mount) : Prop := "/dev/".toList <+: m.src ∧ parentDisk m.src = tgtDisk

theorem scanMounts_iff (hms : ∀ m ∈ ms, m.Ok) {fuel : Nat} (hfuel : ms.length ≤ fuel) :
    scanMounts tgtDisk fuel (mountsText ms) ≠ [] ↔ ∃ m ∈ ms, m.Hits tgtDisk := by
  induction ms generalizing fuel with
  | nil =>
      have hnil : scanMounts tgtDisk fuel (mountsText []) = [] := by
        cases fuel <;> rfl
      simp [hnil]
  | cons m ms ih =>
      obtain ⟨fuel, rfl⟩ : ∃ f, fuel = f + 1 := ⟨fuel - 1, by rw [List.length_cons] at hfuel; omega⟩
      have hm := hms m List.mem_cons_self
      have hline : mountsText (m :: ms) = m.src ++ ' ' :: (m.mnt ++ ' ' :: (m.rest ++ ['\n']) ++ mountsText ms) := by
        simp [mountsText, Mount.line]
      have hnext := ih (fun m' hm' => hms m' (List.mem_cons_of_mem _ hm')) (Nat.le_of_succ_le_succ hfuel)
      have hmem : (∃ m' ∈ m :: ms, m'.Hits tgtDisk) ↔ m.Hits tgtDisk ∨ ∃ m' ∈ ms, m'.Hits tgtDisk := by simp
      rw [hline, hmem, scanMounts, readWord_append hm.src]
      dsimp only
      rw [readWord_space, List.append_assoc, List.cons_append, readWord_append hm.mnt]
      dsimp only
      rw [← List.cons_append, skipLine_line hm.rest]
      by_cases hdev : "/dev/".toList <+: m.src
      · rw [if_neg (not_not.mpr hdev)]
        by_cases hparent : parentDisk m.src = tgtDisk
        · rw [if_pos hparent]
          exact ⟨fun _ => Or.inl ⟨hdev, hparent⟩, fun _ => by simp⟩
        · rw [if_neg hparent, hnext]
          exact (or_iff_right fun h => hparent h.2).symm
      · rw [if_pos hdev, hnext]
        exact (or_iff_right fun h => hdev h.1).symm

theorem mountedReason_iff (hms : ∀ m ∈ ms, m.Ok) (target : List Char) :
    mountedReason (some (mountsText ms)) target ≠ [] ↔ ∃ m ∈ ms, m.Hits (parentDisk target) := by
  refine scanMounts_iff hms ?_
  induction ms with
  | nil => exact Nat.zero_le _
  | cons m ms ih =>
      have hlen := ih fun m' hm' => hms m' (List.mem_cons_of_mem _ hm')
      simp only [mountsText, List.flatMap_cons, List.length_append, List.length_cons, Mount.line] at hlen ⊢
      omega

end Table

/-! ## Which disks are protected -/

def MountsDisk (dirs : List (List Char)) (D : List Char) (ms : List Mount) : Prop :=
  ∃ m ∈ ms, m.src = devPath dirs D ∨ ∃ k ≥ 1, m.src = devPath dirs (partitionName D k)

theorem devPrefix_devPath (dirs : List (List Char)) (D : List Char) : "/dev/".toList <+: devPath dirs D :=
  List.prefix_append _ _

theorem plain_devPath {dirs : List (List Char)} {D : List Char} (hdirs : ∀ d ∈ dirs, ∀ c ∈ d, isSpace c = false)
    (hD : ∀ c ∈ D, isSpace c = false) : ∀ c ∈ devPath dirs D, isSpace c = false := by
  intro c hc
  rcases List.mem_append.mp hc with hc | hc
  · exact forall_mem_of_all (t := "/dev/".toList) (fun c => isSpace c = false) rfl c hc
  · rcases List.mem_append.mp hc with hc | hc
    · obtain ⟨d, hd, hc⟩ := List.mem_flatMap.mp hc
      rcases List.mem_append.mp hc with hc | hc
      · exact hdirs d hd c hc
      · rw [List.mem_singleton.mp hc]
        rfl
    · exact hD c hc

theorem plain_partitionName {D : List Char} (hD : ∀ c ∈ D, isSpace c = false) (k : Nat) :
    ∀ c ∈ partitionName D k, isSpace c = false := by
  have hdigits : ∀ c ∈ Nat.toDigits 10 k, isSpace c = false := fun c hc => isSpace_of_isDigit (isDigit_toDigits c hc)
  intro c hc
  unfold partitionName at hc
  split at hc
  · rcases List.mem_append.mp hc with hc | hc
    · exact hD c hc
    · rcases List.mem_cons.mp hc with rfl | hc
      · rfl
      · exact hdigits c hc
  · rcases List.mem_append.mp hc with hc | hc
    · exact hD c hc
    · exact hdigits c hc

/-- **Which disks are protected**: exactly for the recognised names a disk and its partitions have one parent, and exactly
for these every table that mounts the disk or a partition of it makes `mounted_reason` refuse the disk. -/
theorem parentDisk_partition_iff (dirs : List (List Char)) (D : List Char) (hD : DeviceName D)
    (hdirs : ∀ d ∈ dirs, ∀ c ∈ d, isSpace c = false) :
    (∀ k ≥ 1, parentDisk (devPath dirs (partitionName D k)) = parentDisk (devPath dirs D) ↔ Recognised D) ∧
      ((∀ ms : List Mount, (∀ m ∈ ms, m.Ok) → MountsDisk dirs D ms →
        mountedReason (some (mountsText ms)) (devPath dirs D) ≠ []) ↔ Recognised D) := by
  have hparents : ∀ k, parentDisk (devPath dirs (partitionName D k)) = parentDisk (devPath dirs D) ↔ Recognised D := by
    intro k
    constructor
    · intro hsame
      by_contra h
      exact parents_ne h hD.nonempty hD.component dirs k hsame
    · intro h
      obtain ⟨hdisk, hpart⟩ := h.parents hD.nonempty hD.component dirs k
      rw [hdisk, hpart]
  refine ⟨fun k _ => hparents k, fun h => ?_, fun h ms hms hmounts => ?_⟩
  · -- one line that mounts the first partition
    let m : Mount := ⟨devPath dirs (partitionName D 1), ['/'], []⟩
    have hm : m.Ok :=
      { src := ⟨List.append_ne_nil_of_left_ne_nil (by decide) _, plain_devPath hdirs (plain_partitionName hD.plain 1)⟩
        mnt := ⟨List.cons_ne_nil _ _, fun c hc => by rw [List.mem_singleton.mp hc]; rfl⟩
        rest := List.not_mem_nil }
    have hms : ∀ m' ∈ [m], m'.Ok := fun m' hm' => List.mem_singleton.mp hm' ▸ hm
    have hrefuse := h [m] hms ⟨m, List.mem_singleton.mpr rfl, Or.inr ⟨1, le_rfl, rfl⟩⟩
    obtain ⟨m', hm', hhits⟩ := (mountedReason_iff hms _).mp hrefuse
    rw [List.mem_singleton.mp hm'] at hhits
    exact (hparents 1).mp hhits.2
  · obtain ⟨m, hm, hsrc⟩ := hmounts
    refine (mountedReason_iff hms _).mpr ⟨m, hm, ?_⟩
    rcases hsrc with hsrc | ⟨k, -, hsrc⟩
    · exact ⟨hsrc ▸ devPrefix_devPath _ _, by rw [hsrc]⟩
    · exact ⟨hsrc ▸ devPrefix_devPath _ _, by rw [hsrc, (hparents k).mpr h]⟩

/-- `sda` and `nvme0n1` are refused while a partition of them is mounted; `pmem0` and its partition have different parents. -/
theorem parentDisk_partition_iff_sda :
    mountedReason (some (mountsText [⟨"/dev/sda3".toList, ['/'], []⟩])) "/dev/sda".toList ≠ [] ∧
      mountedReason (some (mountsText [⟨"/dev/nvme0n1p2".toList, ['/'], []⟩])) "/dev/nvme0n1".toList ≠ [] ∧
      parentDisk (devPath [] (partitionName "pmem0".toList 1)) ≠ parentDisk (devPath [] "pmem0".toList) := by
  have hrefused : ∀ D k, DeviceName D → Recognised D → 1 ≤ k → (∀ c ∈ devPath [] (partitionName D k), isSpace c = false) →
      mountedReason (some (mountsText [⟨devPath [] (partitionName D k), ['/'], []⟩])) (devPath [] D) ≠ [] := by
    intro D k hD hrec hk hplain
    refine ((parentDisk_partition_iff [] D hD fun d hd => by cases hd).2.mpr hrec) _ ?_ ?_
    · intro m hm
      rw [List.mem_singleton.mp hm]
      exact ⟨⟨List.append_ne_nil_of_left_ne_nil (by decide) _, hplain⟩, ⟨List.cons_ne_nil _ _, forall_mem_of_all _ rfl⟩,
        List.not_mem_nil⟩
    · exact ⟨_, List.mem_singleton.mpr rfl, Or.inr ⟨k, hk, rfl⟩⟩
  refine ⟨hrefused "sda".toList 3 ⟨by decide, by decide, forall_mem_of_all _ rfl⟩ (Or.inl ⟨by decide, fun h => ?_⟩)
    (by decide) (forall_mem_of_all _ rfl), hrefused "nvme0n1".toList 2 ⟨by decide, by decide, forall_mem_of_all _ rfl⟩
    (Or.inr ⟨by decide, (endsInDigit_iff (by decide)).mpr (by decide), fun h => ?_⟩) (by decide) (forall_mem_of_all _ rfl), ?_⟩
  · exact absurd ((endsInDigit_iff (by decide)).mp h) (by decide)
  · obtain ⟨y, d, ds, heq, -⟩ := h
    have hp : 'p' ∈ "nvme0n1".toList := by
      rw [heq]
      simp
    exact absurd hp (by decide)
  · intro hsame
    rcases ((parentDisk_partition_iff [] "pmem0".toList ⟨by decide, by decide, forall_mem_of_all _ rfl⟩ fun d hd => by
      cases hd).1 1 le_rfl).mp hsame with ⟨-, hend⟩ | ⟨hstyle, -⟩
    · exact hend ((endsInDigit_iff (by decide)).mpr (by decide))
    · exact absurd hstyle (by decide)

/-- `pmem0` is not refused while `pmem0p1` is mounted. -/
theorem mountedReason_pmem : ¬∀ (dirs : List (List Char)) (D : List Char), DeviceName D →
    (∀ d ∈ dirs, ∀ c ∈ d, isSpace c = false) → (∀ k ≥ 1, parentDisk (devPath dirs (partitionName D k)) =
      parentDisk (devPath dirs D)) ∧ ∀ ms : List Mount, (∀ m ∈ ms, m.Ok) → MountsDisk dirs D ms →
        mountedReason (some (mountsText ms)) (devPath dirs D) ≠ [] := by
  intro hall
  have hsame := (hall [] "pmem0".toList ⟨by decide, by decide, forall_mem_of_all _ rfl⟩ fun d hd => by cases hd).1 1 le_rfl
  exact absurd hsame (by decide)

end PoseDB.Wipe
