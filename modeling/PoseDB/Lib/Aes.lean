import PoseDB.Lib.Loop

/-!
# AES-128

The cipher as FIPS 197 states it: the field of 256 elements, the S-box from the inverse of the field, the rounds, the
key expansion, and the CBC-MAC over it. A processor with instructions for rounds adds the round key before the
substitution or after the mixing; both ways are the cipher (`cipher_eq_before`, `cipher_eq_after`).
-/

set_option autoImplicit false

namespace Aes
open Loops

abbrev Byte := BitVec 8

/-- A column of the state, or a word of the key schedule. -/
abbrev Word := Fin 4 → Byte

/-- The state: byte `i` stands in row `i % 4` of column `i / 4`. -/
abbrev Block := Fin 16 → Byte

/-! ## The field -/

def xtime (b : Byte) : Byte := if b.msb then b <<< 1 ^^^ 0x1b else b <<< 1

/-- The sum of the multiples `x ^ i * a` for the bits `i` of `b`. -/
def mul (a b : Byte) : Byte :=
  (loop 8 (fun i (s : Byte × Byte) => (if b.getLsbD i then s.1 ^^^ s.2 else s.1, xtime s.2)) (0, a)).1

/-- `b ^ 254`: the product of `b ^ 2`, `b ^ 4`, ..., `b ^ 128`. -/
def inv (b : Byte) : Byte :=
  (loop 7 (fun _ (s : Byte × Byte) => (mul s.1 (mul s.2 s.2), mul s.2 s.2)) (1, b)).1

def sbox (b : Byte) : Byte :=
  let t := inv b
  t ^^^ t.rotateLeft 1 ^^^ t.rotateLeft 2 ^^^ t.rotateLeft 3 ^^^ t.rotateLeft 4 ^^^ 0x63

/-! ### Evaluation on numbers -/

namespace Eval

def xtime (b : Nat) : Nat := bif Nat.ble 128 b then Nat.xor (Nat.sub (Nat.mul 2 b) 256) 27 else Nat.mul 2 b

def addIf (b i a s : Nat) : Nat := bif b.testBit i then Nat.xor s a else s

def mul (a b : Nat) : Nat :=
  let a1 := xtime a
  let a2 := xtime a1
  let a3 := xtime a2
  let a4 := xtime a3
  let a5 := xtime a4
  let a6 := xtime a5
  let a7 := xtime a6
  addIf b 7 a7 (addIf b 6 a6 (addIf b 5 a5 (addIf b 4 a4 (addIf b 3 a3 (addIf b 2 a2 (addIf b 1 a1 (addIf b 0 a 0)))))))

def inv (b : Nat) : Nat :=
  let p1 := mul b b
  let p2 := mul p1 p1
  let p3 := mul p2 p2
  let p4 := mul p3 p3
  let p5 := mul p4 p4
  let p6 := mul p5 p5
  let p7 := mul p6 p6
  mul (mul (mul (mul (mul (mul (mul 1 p1) p2) p3) p4) p5) p6) p7

end Eval

theorem toNat_xtime (b : Byte) : (xtime b).toNat = Eval.xtime b.toNat := by
  have hb := b.isLt
  unfold xtime Eval.xtime
  rw [BitVec.msb_eq_decide]
  by_cases h : 128 ≤ b.toNat
  · rw [if_pos (by simpa using h), Nat.ble_eq_true_of_le h, cond_true, BitVec.toNat_xor, BitVec.toNat_shiftLeft,
      Nat.shiftLeft_eq, show b.toNat * 2 ^ 1 % 2 ^ 8 = 2 * b.toNat - 256 by omega]
    rfl
  · rw [if_neg (by simpa using h), Bool.eq_false_iff.mpr fun hle => h (Nat.le_of_ble_eq_true hle), cond_false, BitVec.toNat_shiftLeft, Nat.shiftLeft_eq]
    show b.toNat * 2 ^ 1 % 2 ^ 8 = 2 * b.toNat
    omega

theorem toNat_addIf (b : Byte) (i : Nat) (a s : Byte) :
    (if b.getLsbD i then s ^^^ a else s).toNat = Eval.addIf b.toNat i a.toNat s.toNat := by
  unfold Eval.addIf
  rw [BitVec.testBit_toNat]
  cases b.getLsbD i
  · rfl
  · exact BitVec.toNat_xor ..

theorem toNat_mul (a b : Byte) : (mul a b).toNat = Eval.mul a.toNat b.toNat := by
  unfold mul Eval.mul
  simp only [loop_succ, loop_zero, toNat_addIf, toNat_xtime]
  rfl

theorem toNat_inv (b : Byte) : (inv b).toNat = Eval.inv b.toNat := by
  unfold inv Eval.inv
  simp only [loop_succ, loop_zero, toNat_mul]
  rfl

theorem sbox_eval (b : Byte) : sbox b =
    let t := BitVec.ofNat 8 (Eval.inv b.toNat)
    t ^^^ t.rotateLeft 1 ^^^ t.rotateLeft 2 ^^^ t.rotateLeft 3 ^^^ t.rotateLeft 4 ^^^ 0x63 := by
  rw [← toNat_inv, BitVec.ofNat_toNat, BitVec.setWidth_eq]
  rfl

/-! ## The rounds -/

def subBytes (s : Block) : Block := fun i => sbox (s i)

/-- Row `r` moves by `r` columns. -/
def shiftRows (s : Block) : Block := fun i => s (i + 4 * (i % 4))

/-- The byte `k` rows below byte `i`, in its column. -/
def below (s : Block) (i k : Fin 16) : Byte := s (4 * (i / 4) + (i + k) % 4)

def mixColumns (s : Block) : Block :=
  fun i => mul 2 (below s i 0) ^^^ mul 3 (below s i 1) ^^^ below s i 2 ^^^ below s i 3

def addRoundKey (s k : Block) : Block := fun i => s i ^^^ k i

/-- The cipher under the round keys `rk 0`, ..., `rk 10`. -/
def cipher (rk : Nat → Block) (input : Block) : Block :=
  let s := loop 9 (fun r s => addRoundKey (mixColumns (shiftRows (subBytes s))) (rk (r + 1)))
    (addRoundKey input (rk 0))
  addRoundKey (shiftRows (subBytes s)) (rk 10)

/-! ## The key expansion -/

def rotWord (w : Word) : Word := fun k => w (k + 1)

def subWord (w : Word) : Word := fun k => sbox (w k)

/-- The round constant `x ^ (j - 1)`, in the first byte. -/
def rcon (j : Nat) : Word := fun k => if k = 0 then loop (j - 1) (fun _ => xtime) 1 else 0

def xorWord (v w : Word) : Word := fun k => v k ^^^ w k

/-- Word `i` of the key schedule. -/
def keyWord (key : Block) (i : Nat) : Word :=
  if h : i < 4 then fun k => key ⟨4 * i + k, by omega⟩
  else xorWord (keyWord key (i - 4))
    (if i % 4 = 0 then xorWord (subWord (rotWord (keyWord key (i - 1)))) (rcon (i / 4)) else keyWord key (i - 1))
termination_by i
decreasing_by all_goals omega

def roundKey (key : Block) (r : Nat) : Block := fun i => keyWord key (4 * r + i / 4) ⟨i % 4, Nat.mod_lt _ (by decide)⟩

/-- **AES-128.** -/
def encrypt (key : Block) (input : Block) : Block := cipher (roundKey key) input

/-- The CBC-MAC of the blocks `msg 0`, ..., `msg (n - 1)`. -/
def cbcMac (key : Block) (msg : Nat → Block) (n : Nat) : Block :=
  loop n (fun b s => encrypt key (addRoundKey s (msg b))) fun _ => 0

/-! ## Rounds as instructions -/

theorem subBytes_shiftRows (s : Block) : subBytes (shiftRows s) = shiftRows (subBytes s) := rfl

theorem rounds_before (rk : Nat → Block) (input : Block) (n : Nat) :
    addRoundKey (loop n (fun r s => mixColumns (subBytes (shiftRows (addRoundKey s (rk r))))) input) (rk n) =
      loop n (fun r s => addRoundKey (mixColumns (shiftRows (subBytes s))) (rk (r + 1)))
        (addRoundKey input (rk 0)) := by
  induction n with
  | zero => rfl
  | succ n ih => rw [loop_succ, loop_succ, ← ih, subBytes_shiftRows]

theorem cipher_eq_before (rk : Nat → Block) (input : Block) :
    addRoundKey (subBytes (shiftRows (addRoundKey
      (loop 9 (fun r s => mixColumns (subBytes (shiftRows (addRoundKey s (rk r))))) input) (rk 9)))) (rk 10) =
      cipher rk input := by
  rw [rounds_before, subBytes_shiftRows]
  rfl

theorem keyWord_of_lt (key : Block) {i : Nat} (hi : i < 4) :
    keyWord key i = fun k : Fin 4 => key ⟨4 * i + k, by omega⟩ := by
  rw [keyWord, dif_pos hi]

theorem keyWord_of_le (key : Block) {i : Nat} (hi : 4 ≤ i) :
    keyWord key i = xorWord (keyWord key (i - 4))
      (if i % 4 = 0 then xorWord (subWord (rotWord (keyWord key (i - 1)))) (rcon (i / 4))
      else keyWord key (i - 1)) := by
  rw [keyWord, dif_neg (Nat.not_lt.mpr hi)]

theorem cipher_congr {rk rk' : Nat → Block} (h : ∀ r ≤ 10, rk r = rk' r) (input : Block) :
    cipher rk input = cipher rk' input := by
  have hloop := loop_congr (s := addRoundKey input (rk' 0)) fun r (s : Block) (hr : r < 9) =>
    congrArg (addRoundKey (mixColumns (shiftRows (subBytes s)))) (h (r + 1) (by omega))
  unfold cipher
  rw [h 0 (by decide), h 10 (by decide), hloop]

theorem cbcMac_congr (key : Block) {msg msg' : Nat → Block} {n : Nat} (h : ∀ b < n, msg b = msg' b) :
    cbcMac key msg n = cbcMac key msg' n :=
  loop_congr fun b s hb => by rw [h b hb]

end Aes
