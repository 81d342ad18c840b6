import Mathlib.Data.List.TakeWhile
import Mathlib.Data.Nat.Digits.Defs
import Mathlib.Tactic.Common

/-!
# Numbers in C texts

`strtoull` and `strtol` in base 10, and the conversion `%x` of `sscanf` with a field width, as the C standard describes them
for the locale "C" and 64-bit `long`. A text has one character for each byte, without the final null character.
-/

set_option autoImplicit false

namespace CText

abbrev Text := List Char

def isSpace (c : Char) : Bool := c == ' ' || (decide (9 ≤ c.toNat) && decide (c.toNat ≤ 13))

theorem forall_mem_of_all {t : Text} (P : Char → Prop) [DecidablePred P] (h : t.all (fun c => decide (P c)) = true) :
    ∀ c ∈ t, P c :=
  fun c hc => of_decide_eq_true (List.all_eq_true.mp h c hc)

/-- An optional sign: whether it is a minus, and what follows it. -/
def splitSign : Text → Bool × Text
  | '-' :: t => (true, t)
  | '+' :: t => (false, t)
  | t => (false, t)

/-! ## Base 10 -/

/-- The digits that a conversion in base 10 reads, the sign before them and the text after them. -/
def decimalSubject (t : Text) : Option (Bool × Text × Text) :=
  let t := splitSign (t.dropWhile isSpace)
  let ds := t.2.takeWhile Char.isDigit
  if ds = [] then none else some (t.1, ds, t.2.dropWhile Char.isDigit)

def decimalValue (ds : Text) : Nat := Nat.ofDigitChars 10 ds 0

/-- `strtoull(t, NULL, 10)`, and `strtoul`: no digits give 0, a value out of range `2 ^ 64 - 1`, a minus the negative
modulo `2 ^ 64`. -/
def strtoull (t : Text) : Nat :=
  match decimalSubject t with
  | none => 0
  | some (neg, ds, _) =>
    if 2 ^ 64 ≤ decimalValue ds then 2 ^ 64 - 1
    else if neg then (2 ^ 64 - decimalValue ds) % 2 ^ 64 else decimalValue ds

/-- `strtol(t, &end, 10)`: the value and the text at `end`. -/
def strtol (t : Text) : Int × Text :=
  match decimalSubject t with
  | none => (0, t)
  | some (neg, ds, rest) =>
    let v : Int := if neg then -decimalValue ds else decimalValue ds
    (max (-2 ^ 63) (min (2 ^ 63 - 1) v), rest)

def Numeral (t : Text) : Prop := t ≠ [] ∧ ∀ c ∈ t, c.isDigit = true

instance (t : Text) : Decidable (Numeral t) :=
  decidable_of_iff (t ≠ [] ∧ t.all Char.isDigit = true) (and_congr_right fun _ => List.all_eq_true)

theorem isDigit_bounds {c : Char} (h : c.isDigit = true) : 48 ≤ c.toNat ∧ c.toNat ≤ 57 := by
  rw [Char.isDigit, Bool.and_eq_true, decide_eq_true_eq, decide_eq_true_eq] at h
  exact ⟨UInt32.le_iff_toNat_le.mp h.1, UInt32.le_iff_toNat_le.mp h.2⟩

theorem ne_of_isDigit {c d : Char} (h : c.isDigit = true) (hd : d.isDigit = false) : c ≠ d := by
  rintro rfl
  rw [h] at hd
  cases hd

theorem isSpace_of_isDigit {c : Char} (h : c.isDigit = true) : isSpace c = false := by
  obtain ⟨hlo, -⟩ := isDigit_bounds h
  have hblank : (c == ' ') = false := beq_false_of_ne (ne_of_isDigit h rfl)
  rw [isSpace, hblank, Bool.false_or, Bool.and_eq_false_iff]
  right
  exact decide_eq_false (by omega)

theorem splitSign_of_ne {c : Char} (t : Text) (hminus : c ≠ '-') (hplus : c ≠ '+') :
    splitSign (c :: t) = (false, c :: t) := by
  unfold splitSign
  split
  · rename_i h
    exact absurd (List.cons.inj h).1 hminus
  · rename_i h
    exact absurd (List.cons.inj h).1 hplus
  · rfl

theorem decimalSubject_numeral {t : Text} (h : Numeral t) : decimalSubject t = some (false, t, []) := by
  obtain ⟨hne, hdigits⟩ := h
  cases t with
  | nil => exact absurd rfl hne
  | cons c t =>
      have hc := hdigits c List.mem_cons_self
      unfold decimalSubject
      rw [List.dropWhile_cons_of_neg (by rw [isSpace_of_isDigit hc]; decide),
        splitSign_of_ne t (ne_of_isDigit hc rfl) (ne_of_isDigit hc rfl)]
      dsimp only
      rw [List.takeWhile_eq_self_iff.mpr hdigits, List.dropWhile_eq_nil_iff.mpr hdigits, if_neg hne]

/-- **A numeral in range is converted to its value.** -/
theorem strtoull_numeral {t : Text} (h : Numeral t) (hrange : decimalValue t < 2 ^ 64) : strtoull t = decimalValue t := by
  unfold strtoull
  rw [decimalSubject_numeral h]
  dsimp only
  rw [if_neg (by omega), if_neg Bool.false_ne_true]

/-! ## Base 16 -/

def hexDigit? (c : Char) : Option Nat :=
  let n := c.toNat
  if 48 ≤ n ∧ n ≤ 57 then some (n - 48)
  else if 65 ≤ n ∧ n ≤ 70 then some (n - 55)
  else if 97 ≤ n ∧ n ≤ 102 then some (n - 87)
  else none

def isHex (c : Char) : Bool := (hexDigit? c).isSome

def hexDigit (c : Char) : Nat := (hexDigit? c).getD 0

def hexValue (ds : Text) : Nat := ds.foldl (fun n c => 16 * n + hexDigit c) 0

/-- An optional `0x`. -/
def splitMark : Text → Text
  | '0' :: 'x' :: t => t
  | '0' :: 'X' :: t => t
  | t => t

/-- A number in base 16: sign, `0x` and digits. -/
def isHexNumber (w : Text) : Bool :=
  let ds := splitMark (splitSign w).2
  decide (ds ≠ []) && ds.all isHex

def startsHexNumber (w : Text) : Bool := (splitMark (splitSign w).2).all isHex

/-- The input item of `%x`, after the characters `seen`: the longest one that at most `width` more characters give. -/
def hexItem : (width : Nat) → (seen : Text) → Text → Text
  | 0, seen, _ => seen
  | _ + 1, seen, [] => seen
  | width + 1, seen, c :: t => if startsHexNumber (seen ++ [c]) then hexItem width (seen ++ [c]) t else seen

/-- `sscanf` with the conversion `%x` and a field width: the `unsigned` it stores, if the conversion succeeds. White space
does not count for the width. -/
def scanHex (width : Nat) (t : Text) : Option Nat :=
  let w := hexItem width [] (t.dropWhile isSpace)
  if isHexNumber w then
    let v := hexValue (splitMark (splitSign w).2)
    some (if (splitSign w).1 then (2 ^ 32 - v % 2 ^ 32) % 2 ^ 32 else v % 2 ^ 32)
  else none

/-- The texts where `%2x` finds a number: a digit that does not begin `0x`, or a sign and a digit. -/
def startsWithHex : Text → Bool
  | '-' :: c :: _ => isHex c
  | '+' :: c :: _ => isHex c
  | '0' :: 'x' :: _ => false
  | '0' :: 'X' :: _ => false
  | c :: _ => isHex c
  | [] => false

section Base16
variable {c d : Char} {t : Text}

theorem ne_of_isHex (h : isHex c = true) (hd : isHex d = false) : c ≠ d := by
  rintro rfl
  rw [h] at hd
  cases hd

theorem isSpace_of_isHex (h : isHex c = true) : isSpace c = false := by
  have hblank : (c == ' ') = false := beq_false_of_ne (ne_of_isHex h rfl)
  have hlow : 48 ≤ c.toNat := by
    by_contra hlow
    have hnone : isHex c = false := by
      unfold isHex hexDigit?
      dsimp only
      rw [if_neg (by omega), if_neg (by omega), if_neg (by omega)]
      rfl
    rw [h] at hnone
    cases hnone
  rw [isSpace, hblank, Bool.false_or, Bool.and_eq_false_iff]
  right
  exact decide_eq_false (by omega)

theorem hexDigit_lt (c : Char) : hexDigit c < 16 := by
  unfold hexDigit hexDigit?
  dsimp only
  split
  · rw [Option.getD_some]
    omega
  · split
    · rw [Option.getD_some]
      omega
    · split
      · rw [Option.getD_some]
        omega
      · decide

theorem splitMark_singleton (c : Char) : splitMark [c] = [c] := by
  unfold splitMark
  split
  · rename_i h
    cases h
  · rename_i h
    cases h
  · rfl

theorem splitMark_of_ne (t : Text) (h : c ≠ '0') : splitMark (c :: t) = c :: t := by
  unfold splitMark
  split
  · rename_i heq
    exact absurd (List.cons.inj heq).1 h
  · rename_i heq
    exact absurd (List.cons.inj heq).1 h
  · rfl

theorem splitMark_pair (c : Char) (hx : d ≠ 'x') (hX : d ≠ 'X') : splitMark (c :: d :: t) = c :: d :: t := by
  unfold splitMark
  split
  · rename_i heq
    exact absurd (List.cons.inj (List.cons.inj heq).2).1 hx
  · rename_i heq
    exact absurd (List.cons.inj (List.cons.inj heq).2).1 hX
  · rfl

/-- The item of `%2x`: after the first character only the second one counts. -/
theorem hexItem_two (c d : Char) (t : Text) :
    hexItem 2 [] (c :: d :: t) =
      if startsHexNumber [c] then if startsHexNumber [c, d] then [c, d] else [c] else [] := rfl

theorem hexItem_one (c : Char) : hexItem 2 [] [c] = if startsHexNumber [c] then [c] else [] := rfl

theorem hexItem_digits (hc : isHex c = true) (hd : isHex d = true) (t : Text) : hexItem 2 [] (c :: d :: t) = [c, d] := by
  have hsign : splitSign [c] = (false, [c]) := splitSign_of_ne [] (ne_of_isHex hc rfl) (ne_of_isHex hc rfl)
  have hsign2 : splitSign [c, d] = (false, [c, d]) := splitSign_of_ne [d] (ne_of_isHex hc rfl) (ne_of_isHex hc rfl)
  have hone : startsHexNumber [c] = true := by
    rw [startsHexNumber, hsign, splitMark_singleton]
    simpa using hc
  have htwo : startsHexNumber [c, d] = true := by
    rw [startsHexNumber, hsign2, splitMark_pair c (ne_of_isHex hd rfl) (ne_of_isHex hd rfl)]
    simp [hc, hd]
  rw [hexItem_two, if_pos hone, if_pos htwo]

/-- **Two digits** are converted to the byte that they denote. -/
theorem scanHex_digits (hc : isHex c = true) (hd : isHex d = true) (t : Text) :
    scanHex 2 (c :: d :: t) = some (16 * hexDigit c + hexDigit d) := by
  have hsign : splitSign [c, d] = (false, [c, d]) := splitSign_of_ne [d] (ne_of_isHex hc rfl) (ne_of_isHex hc rfl)
  have hmark : splitMark [c, d] = [c, d] := splitMark_pair c (ne_of_isHex hd rfl) (ne_of_isHex hd rfl)
  have hnumber : isHexNumber [c, d] = true := by
    rw [isHexNumber, hsign, hmark]
    simp [hc, hd]
  have hlo := hexDigit_lt c
  have hlo' := hexDigit_lt d
  unfold scanHex
  rw [List.dropWhile_cons_of_neg (by rw [isSpace_of_isHex hc]; decide), hexItem_digits hc hd]
  dsimp only
  rw [if_pos hnumber, hsign, hmark, if_neg Bool.false_ne_true]
  show some ((16 * (16 * 0 + hexDigit c) + hexDigit d) % 2 ^ 32) = _
  rw [Nat.mod_eq_of_lt (by omega), Nat.mul_zero, Nat.zero_add]

theorem isHexNumber_signed {s : Char} (hs : s = '-' ∨ s = '+') (c : Char) (t : Text) :
    isHexNumber (hexItem 2 [] (s :: c :: t)) = isHex c := by
  have hone : startsHexNumber [s] = true := by rcases hs with rfl | rfl <;> rfl
  have hnone : isHexNumber [s] = false := by rcases hs with rfl | rfl <;> rfl
  have hrest : (splitSign [s, c]).2 = [c] := by rcases hs with rfl | rfl <;> rfl
  have htwo : startsHexNumber [s, c] = isHex c := by
    rw [startsHexNumber, hrest, splitMark_singleton, List.all_cons, List.all_nil, Bool.and_true]
  rw [hexItem_two, if_pos hone, htwo]
  cases hc : isHex c with
  | true =>
      rw [if_pos rfl, isHexNumber, hrest, splitMark_singleton, List.all_cons, hc]
      rfl
  | false => rw [if_neg Bool.false_ne_true, hnone]

theorem startsHexNumber_one (hminus : c ≠ '-') (hplus : c ≠ '+') : startsHexNumber [c] = isHex c := by
  rw [startsHexNumber, splitSign_of_ne [] hminus hplus, splitMark_singleton, List.all_cons, List.all_nil, Bool.and_true]

theorem isHexNumber_one (hminus : c ≠ '-') (hplus : c ≠ '+') : isHexNumber [c] = isHex c := by
  rw [isHexNumber, splitSign_of_ne [] hminus hplus, splitMark_singleton, List.all_cons, List.all_nil, Bool.and_true]
  rfl

/-- The first character decides, where it is not a sign or the zero of `0x`. -/
theorem isHexNumber_unsigned (hc : isHex c = true) (t : Text)
    (hmark : ∀ d r, t = d :: r → c = '0' → d ≠ 'x' ∧ d ≠ 'X') : isHexNumber (hexItem 2 [] (c :: t)) = true := by
  have hminus : c ≠ '-' := ne_of_isHex hc rfl
  have hplus : c ≠ '+' := ne_of_isHex hc rfl
  have hone : isHexNumber [c] = true := by rw [isHexNumber_one hminus hplus, hc]
  cases t with
  | nil => rw [hexItem_one, startsHexNumber_one hminus hplus, if_pos hc, hone]
  | cons d r =>
      have hsplit : splitMark [c, d] = [c, d] := by
        by_cases hzero : c = '0'
        · exact splitMark_pair c (hmark d r rfl hzero).1 (hmark d r rfl hzero).2
        · exact splitMark_of_ne [d] hzero
      rw [hexItem_two, startsHexNumber_one hminus hplus, if_pos hc]
      split
      · rename_i htwo
        rw [startsHexNumber, splitSign_of_ne [d] hminus hplus, hsplit] at htwo
        rw [isHexNumber, splitSign_of_ne [d] hminus hplus, hsplit, htwo]
        rfl
      · exact hone

theorem isHexNumber_hexItem (u : Text) : isHexNumber (hexItem 2 [] u) = startsWithHex u := by
  fun_cases startsWithHex u with
  | case1 c t => exact isHexNumber_signed (Or.inl rfl) c t
  | case2 c t => exact isHexNumber_signed (Or.inr rfl) c t
  | case3 t => rfl
  | case4 t => rfl
  | case6 => rfl
  | case5 c t hminus hplus hx hX =>
      cases hc : isHex c with
      | true =>
          exact isHexNumber_unsigned hc t fun d r ht hzero =>
            ⟨fun h => hx r hzero (h ▸ ht), fun h => hX r hzero (h ▸ ht)⟩
      | false =>
          by_cases hsign : c = '-' ∨ c = '+'
          · cases t with
            | nil => rcases hsign with rfl | rfl <;> rfl
            | cons d r =>
                rcases hsign with rfl | rfl
                · exact (hminus d r rfl rfl).elim
                · exact (hplus d r rfl rfl).elim
          · have hone : startsHexNumber [c] = false := by
              rw [startsHexNumber_one (fun h => hsign (Or.inl h)) fun h => hsign (Or.inr h), hc]
            cases t with
            | nil =>
                rw [hexItem_one, if_neg (by rw [hone]; exact Bool.false_ne_true)]
                rfl
            | cons d r =>
                rw [hexItem_two, if_neg (by rw [hone]; exact Bool.false_ne_true)]
                rfl

/-- **Where `%2x` finds a number.** -/
theorem scanHex_isSome (t : Text) : (scanHex 2 t).isSome = startsWithHex (t.dropWhile isSpace) := by
  rw [← isHexNumber_hexItem, scanHex]
  dsimp only
  split
  · rename_i h
    rw [h]
    rfl
  · rename_i h
    rw [Bool.not_eq_true] at h
    rw [h]
    rfl

theorem startsWithHex_digits (hc : isHex c = true) (hd : isHex d = true) (t : Text) :
    startsWithHex ((c :: d :: t).dropWhile isSpace) = true := by
  rw [← scanHex_isSome, scanHex_digits hc hd]
  rfl

def hexLetter (n : Nat) : Char := if n < 10 then Char.ofNat (48 + n) else Char.ofNat (87 + n)

theorem toLower_eq_hexLetter (h : isHex c = true) : c.toLower = hexLetter (hexDigit c) := by
  have htable : ∀ n < 103, isHex (Char.ofNat n) = true →
      (Char.ofNat n).toLower = hexLetter (hexDigit (Char.ofNat n)) := by decide
  have hlt : c.toNat < 103 := by
    by_contra hlarge
    have hnone : isHex c = false := by
      unfold isHex hexDigit?
      dsimp only
      rw [if_neg (by omega), if_neg (by omega), if_neg (by omega)]
      rfl
    rw [h] at hnone
    cases hnone
  have hchar := htable c.toNat hlt
  rw [Char.ofNat_toNat] at hchar
  exact hchar h

end Base16

end CText
