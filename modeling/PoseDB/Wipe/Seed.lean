import PoseDB.Lib.CText
import PoseDB.Wipe.Worker
import Mathlib.Data.List.GetD

/-!
# The session seed (`parse_hex_seed` of `disk_wipe_bench.cu`)

The seed is given as 64 characters, and each byte is read by `sscanf` with `%2x`, which also skips white space and takes a
single digit or a sign. **`parseHexSeed_iff`**: the texts for which the decoder is right are those that it can only reject,
because of their length or because one conversion fails, and the 64 digits.
-/

set_option autoImplicit false

namespace PoseDB.Wipe
open CText

/-! ## The code -/

/-- The loop of `parse_hex_seed` with `n` more bytes, from byte `i` on. -/
def seedLoop (hex : Text) : (n i : Nat) → (out : Nat → Byte) → Int × (Nat → Byte)
  | 0, _, out => (0, out)
  | n + 1, i, out =>
    match scanHex 2 (hex.drop (2 * i)) with
    | none => (-1, out)
    | some v => seedLoop hex n (i + 1) (Function.update out i (BitVec.ofNat 8 v))

/-- `parse_hex_seed`: the result and `out`, where some bytes may have changed even if it fails. -/
def parseHexSeed (hex : Text) (out : Nat → Byte) : Int × (Nat → Byte) :=
  if hex.length ≠ 32 * 2 then (-1, out) else seedLoop hex 32 0 out

/-! ## Seeds -/

/-- 64 digits. -/
structure HexSeed (hex : Text) : Prop where
  length : hex.length = 64
  digits : ∀ c ∈ hex, isHex c = true

/-- The byte of digits `2 * i` and `2 * i + 1`. -/
def seedByte (hex : Text) (i : Nat) : Byte :=
  BitVec.ofNat 8 (16 * hexDigit (hex.getD (2 * i) '0') + hexDigit (hex.getD (2 * i + 1) '0'))

/-- What `parse_hex_seed` should do with a text: take 64 digits and nothing else. -/
structure DecodesSeed (hex : Text) : Prop where
  accepts : ∀ out, (parseHexSeed hex out).1 = 0 ↔ HexSeed hex
  rejects : ∀ out, (parseHexSeed hex out).1 ≠ 0 → (parseHexSeed hex out).1 = -1
  bytes : ∀ out, (parseHexSeed hex out).1 = 0 → ∀ i < 32, (parseHexSeed hex out).2 i = seedByte hex i

/-- The texts where no conversion reads anything but two digits, or one of them fails. -/
def PlainSeed (hex : Text) : Prop :=
  hex.length ≠ 64 ∨ (∀ c ∈ hex, isHex c = true) ∨
    ∃ i < 32, startsWithHex ((hex.drop (2 * i)).dropWhile isSpace) = false

section Loop
variable {hex : Text} {n i : Nat} {out : Nat → Byte}

theorem seedLoop_rc (hex : Text) (n i : Nat) (out : Nat → Byte) :
    (seedLoop hex n i out).1 = 0 ∨ (seedLoop hex n i out).1 = -1 := by
  induction n generalizing i out with
  | zero => exact Or.inl rfl
  | succ n ih =>
      rw [seedLoop]
      split
      · exact Or.inr rfl
      · exact ih _ _

theorem seedLoop_zero : (seedLoop hex n i out).1 = 0 ↔
    ∀ j, i ≤ j → j < i + n → startsWithHex ((hex.drop (2 * j)).dropWhile isSpace) = true := by
  induction n generalizing i out with
  | zero => exact ⟨fun _ j hij hj => absurd hj (by omega), fun _ => rfl⟩
  | succ n ih =>
      rw [seedLoop]
      have hsome := scanHex_isSome (hex.drop (2 * i))
      cases hscan : scanHex 2 (hex.drop (2 * i)) with
      | none =>
          rw [hscan] at hsome
          refine ⟨fun h => (nomatch h), fun h => ?_⟩
          have hi := h i le_rfl (by omega)
          rw [← hsome] at hi
          cases hi
      | some v =>
          rw [hscan] at hsome
          dsimp only
          rw [ih]
          constructor
          · intro h j hij hj
            rcases Nat.eq_or_lt_of_le hij with rfl | hlt
            · exact hsome.symm
            · exact h j hlt (by omega)
          · exact fun h j hij hj => h j (by omega) (by omega)

/-- The characters that byte `i` is read from. -/
theorem HexSeed.drop_eq (h : HexSeed hex) (hi : i < 32) :
    ∃ c d t, hex.drop (2 * i) = c :: d :: t ∧ hex.getD (2 * i) '0' = c ∧ hex.getD (2 * i + 1) '0' = d ∧
      isHex c = true ∧ isHex d = true := by
  have hlen := h.length
  have hlo : 2 * i < hex.length := by omega
  have hhi : 2 * i + 1 < hex.length := by omega
  refine ⟨hex[2 * i], hex[2 * i + 1], hex.drop (2 * i + 1 + 1), ?_, ?_, ?_, ?_, ?_⟩
  · rw [List.drop_eq_getElem_cons hlo, List.drop_eq_getElem_cons hhi]
  · exact List.getD_eq_getElem _ _ hlo
  · exact List.getD_eq_getElem _ _ hhi
  · exact h.digits _ (List.getElem_mem hlo)
  · exact h.digits _ (List.getElem_mem hhi)

theorem HexSeed.scanHex (h : HexSeed hex) (hi : i < 32) :
    scanHex 2 (hex.drop (2 * i)) =
      some (16 * hexDigit (hex.getD (2 * i) '0') + hexDigit (hex.getD (2 * i + 1) '0')) := by
  obtain ⟨c, d, t, hdrop, hlo, hhi, hc, hd⟩ := h.drop_eq hi
  rw [hdrop, hlo, hhi, scanHex_digits hc hd]

theorem HexSeed.startsWithHex (h : HexSeed hex) (hi : i < 32) :
    startsWithHex ((hex.drop (2 * i)).dropWhile isSpace) = true := by
  obtain ⟨c, d, t, hdrop, -, -, hc, hd⟩ := h.drop_eq hi
  rw [hdrop, startsWithHex_digits hc hd]

theorem seedLoop_bytes (h : HexSeed hex) (hn : i + n ≤ 32) {j : Nat} :
    (seedLoop hex n i out).2 j = if i ≤ j ∧ j < i + n then seedByte hex j else out j := by
  induction n generalizing i out with
  | zero => rw [if_neg (by omega), seedLoop]
  | succ n ih =>
      rw [seedLoop, h.scanHex (by omega)]
      dsimp only
      rw [ih (by omega)]
      by_cases hj : j = i
      · subst hj
        rw [if_neg (by omega), if_pos (by omega), Function.update_self]
        rfl
      · rw [Function.update_of_ne hj]
        by_cases hin : i + 1 ≤ j ∧ j < i + 1 + n
        · rw [if_pos hin, if_pos (by omega)]
        · rw [if_neg hin, if_neg (by omega)]

end Loop

section Decode
variable {hex : Text}

theorem parseHexSeed_rc (hex : Text) (out : Nat → Byte) :
    (parseHexSeed hex out).1 = 0 ∨ (parseHexSeed hex out).1 = -1 := by
  unfold parseHexSeed
  split
  · exact Or.inr rfl
  · exact seedLoop_rc _ _ _ _

/-- What is accepted: 64 characters, and all conversions succeed. -/
theorem parseHexSeed_zero (out : Nat → Byte) : (parseHexSeed hex out).1 = 0 ↔
    hex.length = 64 ∧ ∀ i < 32, startsWithHex ((hex.drop (2 * i)).dropWhile isSpace) = true := by
  unfold parseHexSeed
  split
  · rename_i hlen
    exact ⟨fun h => (nomatch h), fun h => absurd h.1 hlen⟩
  · rename_i hlen
    rw [seedLoop_zero]
    exact ⟨fun h => ⟨not_not.mp hlen, fun i hi => h i (Nat.zero_le i) (by omega)⟩, fun h i _ hi => h.2 i (by omega)⟩

theorem HexSeed.accepted (h : HexSeed hex) (out : Nat → Byte) : (parseHexSeed hex out).1 = 0 :=
  (parseHexSeed_zero out).mpr ⟨h.length, fun _ hi => h.startsWithHex hi⟩

theorem HexSeed.bytes (h : HexSeed hex) (out : Nat → Byte) {i : Nat} (hi : i < 32) :
    (parseHexSeed hex out).2 i = seedByte hex i := by
  have hlen := h.length
  rw [parseHexSeed, if_neg (by omega), seedLoop_bytes h le_rfl, if_pos (by omega)]

theorem PlainSeed.seed (h : PlainSeed hex) {out : Nat → Byte} (hrc : (parseHexSeed hex out).1 = 0) : HexSeed hex := by
  obtain ⟨hlen, hall⟩ := (parseHexSeed_zero out).mp hrc
  rcases h with h | h | ⟨i, hi, h⟩
  · exact absurd hlen h
  · exact ⟨hlen, h⟩
  · rw [hall i hi] at h
    cases h

theorem seedByte_inj {hex' : Text} {i : Nat} (h : seedByte hex i = seedByte hex' i) :
    hexDigit (hex.getD (2 * i) '0') = hexDigit (hex'.getD (2 * i) '0') ∧
      hexDigit (hex.getD (2 * i + 1) '0') = hexDigit (hex'.getD (2 * i + 1) '0') := by
  have hnat := congrArg BitVec.toNat h
  have h1 := hexDigit_lt (hex.getD (2 * i) '0')
  have h2 := hexDigit_lt (hex.getD (2 * i + 1) '0')
  have h3 := hexDigit_lt (hex'.getD (2 * i) '0')
  have h4 := hexDigit_lt (hex'.getD (2 * i + 1) '0')
  rw [seedByte, seedByte, BitVec.toNat_ofNat, BitVec.toNat_ofNat, Nat.mod_eq_of_lt (by omega),
    Nat.mod_eq_of_lt (by omega)] at hnat
  omega

theorem HexSeed.lower_eq {hex' : Text} (h : HexSeed hex) (h' : HexSeed hex')
    (hbytes : ∀ i < 32, seedByte hex i = seedByte hex' i) : hex.map Char.toLower = hex'.map Char.toLower := by
  have hlen := h.length
  have hlen' := h'.length
  refine List.ext_getElem (by rw [List.length_map, List.length_map, hlen, hlen']) fun j hj hj' => ?_
  rw [List.length_map] at hj hj'
  have hdigit : hexDigit (hex.getD j '0') = hexDigit (hex'.getD j '0') := by
    have hpair := seedByte_inj (hbytes (j / 2) (by omega))
    rcases Nat.mod_two_eq_zero_or_one j with heven | hodd
    · rw [show j = 2 * (j / 2) by omega]
      exact hpair.1
    · rw [show j = 2 * (j / 2) + 1 by omega]
      exact hpair.2
  rw [List.getD_eq_getElem _ _ hj, List.getD_eq_getElem _ _ hj'] at hdigit
  rw [List.getElem_map, List.getElem_map, toLower_eq_hexLetter (h.digits _ (List.getElem_mem hj)),
    toLower_eq_hexLetter (h'.digits _ (List.getElem_mem hj')), hdigit]

end Decode

/-- **When the decoder is right**: exactly for the plain texts, and on these it is injective up to case. -/
theorem parseHexSeed_iff (hex : Text) : (DecodesSeed hex ↔ PlainSeed hex) ∧
    ∀ hex' out out', PlainSeed hex → PlainSeed hex' → (parseHexSeed hex out).1 = 0 → (parseHexSeed hex' out').1 = 0 →
      (∀ i < 32, (parseHexSeed hex out).2 i = (parseHexSeed hex' out').2 i) →
        hex.map Char.toLower = hex'.map Char.toLower := by
  refine ⟨⟨fun h => ?_, fun h => ?_⟩, ?_⟩
  · by_contra hplain
    unfold PlainSeed at hplain
    push Not at hplain
    obtain ⟨hlen, ⟨c, hc, hhex⟩, hall⟩ := hplain
    have hrc := (parseHexSeed_zero fun _ => 0).mpr ⟨hlen, fun i hi => by simpa using hall i hi⟩
    exact hhex (((h.accepts _).mp hrc).digits c hc)
  · exact
      { accepts := fun out => ⟨fun hrc => h.seed hrc, fun hseed => hseed.accepted out⟩
        rejects := fun out hrc => (parseHexSeed_rc hex out).resolve_left hrc
        bytes := fun out hrc i hi => (h.seed hrc).bytes out hi }
  · intro hex' out out' h h' hrc hrc' hbytes
    have hseed := h.seed hrc
    have hseed' := h'.seed hrc'
    refine hseed.lower_eq hseed' fun i hi => ?_
    rw [← hseed.bytes out hi, ← hseed'.bytes out' hi, hbytes i hi]

/-- 64 small letters and 64 capital ones. -/
theorem parseHexSeed_iff_letters : DecodesSeed (List.replicate 64 'a') ∧
    (List.replicate 64 'a').map Char.toLower = (List.replicate 64 'A').map Char.toLower := by
  have hsmall : HexSeed (List.replicate 64 'a') := ⟨rfl, forall_mem_of_all _ rfl⟩
  have hlarge : HexSeed (List.replicate 64 'A') := ⟨rfl, forall_mem_of_all _ rfl⟩
  have hplain : PlainSeed (List.replicate 64 'a') := Or.inr (Or.inl hsmall.digits)
  obtain ⟨hdecodes, hinj⟩ := parseHexSeed_iff (List.replicate 64 'a')
  refine ⟨hdecodes.mpr hplain, hinj _ (fun _ => 0) (fun _ => 0) hplain (Or.inr (Or.inl hlarge.digits))
    (hsmall.accepted _) (hlarge.accepted _) fun i hi => ?_⟩
  rw [hsmall.bytes _ hi, hlarge.bytes _ hi]
  revert i
  decide

/-- White space up to the last two digits is a seed for the decoder. -/
theorem parseHexSeed_spaces : ¬∀ hex : Text, DecodesSeed hex := by
  intro hall
  have hrc : (parseHexSeed (List.replicate 62 ' ' ++ ['a', 'b']) fun _ => 0).1 = 0 := by
    rw [parseHexSeed_zero]
    decide
  have hseed := ((hall _).accepts _).mp hrc
  exact absurd (hseed.digits ' ' (by decide)) (by decide)

end PoseDB.Wipe
