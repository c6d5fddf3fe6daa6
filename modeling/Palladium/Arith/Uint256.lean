import Mathlib

/-!
# `arith_uint256`

`base_uint<256>` keeps eight little-endian 32-bit limbs `pn[0..7]` and its
operators compute modulo 2^256, so the value is modelled as a `BitVec 256`
and `<<=`, `>>=`, `*`, `/` and the comparisons as the `BitVec` operators.
`operator/=` throws on a zero divisor; `bits()` is kept as the limb scan of
the source and shown to be the binary length `Nat.size` of the value.
-/

namespace Palladium.Arith

set_option autoImplicit false

/-- `arith_uint256`, the 256-bit unsigned integer of `arith_uint256.h`. -/
abbrev arith_uint256 := BitVec 256

/-- `uint256`, the opaque 32-byte blob; `UintToArith256` reads it little-endian. -/
abbrev uint256 := BitVec 256

/-- `UintToArith256`: both sides hold the same little-endian number. -/
def UintToArith256 (a : uint256) : arith_uint256 := a

/-- `base_uint::WIDTH` for 256 bits. -/
def WIDTH : Nat := 8

/-- The limb `pn[pos]`. -/
def limb (x : arith_uint256) (pos : Nat) : Nat := x.toNat / 2 ^ (32 * pos) % 2 ^ 32

/-- The inner loop of `bits()`: the first `nbits` from `n` down to 1 with
`pn[pos] & 1U << nbits` set, or 0 when none is. -/
def topBit (w : Nat) : Nat → Nat
  | 0 => 0
  | n + 1 => if w.testBit (n + 1) then n + 1 else topBit w n

/-- The outer loop of `bits()`, over the limbs below `pos`, highest first. -/
def bitsFrom (x : arith_uint256) : Nat → Nat
  | 0 => 0
  | pos + 1 =>
    if limb x pos ≠ 0 then 32 * pos + topBit (limb x pos) 31 + 1 else bitsFrom x pos

/-- `base_uint::bits`. -/
def bits (x : arith_uint256) : Nat := bitsFrom x WIDTH

/-- `base_uint::GetLow64`: `pn[0] | (uint64_t)pn[1] << 32`. -/
def GetLow64 (x : arith_uint256) : UInt64 := x.toNat.toUInt64

/-- The `base_uint(uint64_t)` constructor. -/
def ofUInt64 (b : UInt64) : arith_uint256 := BitVec.ofNat 256 b.toNat

/-- `operator/=`: `uint_error("Division by zero")` when `bits()` of the divisor is 0. -/
def div (a b : arith_uint256) : Except String arith_uint256 :=
  if bits b = 0 then .error "Division by zero" else .ok (a / b)

/-- The loop of `operator/=`: while `shift >= 0`, subtract the aligned
divisor `div` from `num` when it fits and set bit `shift` of the quotient,
then move `div` down a place. The last argument is `shift + 1`, the passes
left. -/
def divLoop (num div q : arith_uint256) : Nat → arith_uint256
  | 0 => q
  | shift + 1 =>
    if div ≤ num then divLoop (num - div) (div >>> 1) (q ||| 1#256 <<< shift) shift
    else divLoop num (div >>> 1) q shift

/-- `operator/=` as the source computes it: the divisor is shifted up to
align its top bit with the numerator's, then the loop runs. -/
def divide (a b : arith_uint256) : Except String arith_uint256 :=
  let num_bits := bits a
  let div_bits := bits b
  if div_bits = 0 then .error "Division by zero"
  else if div_bits > num_bits then .ok 0
  else
    let shift := num_bits - div_bits
    .ok (divLoop a (b <<< shift) 0 (shift + 1))

theorem size_of_testBit {w k : Nat} (hb : w.testBit k = true) (hw : w < 2 ^ (k + 1)) :
    w.size = k + 1 := by
  have hk : 2 ^ k ≤ w := by
    rw [Nat.testBit_eq_decide_div_mod_eq, decide_eq_true_iff] at hb
    by_contra h
    rw [Nat.div_eq_of_lt (by omega)] at hb
    simp at hb
  apply le_antisymm (Nat.size_le.mpr hw)
  exact Nat.lt_size.mpr hk

theorem lt_of_not_testBit {w k : Nat} (hb : w.testBit k = false) (hw : w < 2 ^ (k + 1)) :
    w < 2 ^ k := by
  rw [Nat.testBit_eq_decide_div_mod_eq, decide_eq_false_iff_not] at hb
  by_contra h
  have hq : w / 2 ^ k = 1 := by
    apply le_antisymm
    · exact Nat.lt_succ_iff.mp ((Nat.div_lt_iff_lt_mul (by positivity)).mpr (by rw [Nat.pow_succ] at hw; omega))
    · exact (Nat.le_div_iff_mul_le (by positivity)).mpr (by omega)
  simp [hq] at hb

/-- The inner loop finds the top bit of a non-zero limb. -/
theorem topBit_add_one {w : Nat} (n : Nat) (h0 : w ≠ 0) (hw : w < 2 ^ (n + 1)) :
    topBit w n + 1 = w.size := by
  induction n with
  | zero =>
    have : w = 1 := by omega
    subst this
    rfl
  | succ n ih =>
    unfold topBit
    split
    · rename_i hb
      rw [size_of_testBit hb hw]
    · rename_i hb
      exact ih (lt_of_not_testBit (Bool.eq_false_iff.mpr hb) hw)

theorem size_mul_two_pow_add {l r k : Nat} (hl : l ≠ 0) (hr : r < 2 ^ k) :
    (l * 2 ^ k + r).size = l.size + k := by
  have hlt : l < 2 ^ l.size := Nat.lt_size_self l
  have hge : 2 ^ (l.size - 1) ≤ l := Nat.lt_size.mp (by
    have := Nat.size_pos.mpr (Nat.pos_of_ne_zero hl); omega)
  apply le_antisymm
  · apply Nat.size_le.mpr
    calc l * 2 ^ k + r < (l + 1) * 2 ^ k := by rw [Nat.add_mul]; omega
      _ ≤ 2 ^ l.size * 2 ^ k := Nat.mul_le_mul_right _ hlt
      _ = 2 ^ (l.size + k) := (Nat.pow_add _ _ _).symm
  · have hpos : 0 < l.size := Nat.size_pos.mpr (Nat.pos_of_ne_zero hl)
    have hlow : l.size + k - 1 < (l * 2 ^ k + r).size := by
      apply Nat.lt_size.mpr
      calc 2 ^ (l.size + k - 1) = 2 ^ (l.size - 1) * 2 ^ k := by
            rw [← Nat.pow_add]; congr 1; omega
        _ ≤ l * 2 ^ k := Nat.mul_le_mul_right _ hge
        _ ≤ l * 2 ^ k + r := Nat.le_add_right _ _
    omega

theorem mod_succ_limb (x : arith_uint256) (pos : Nat) :
    x.toNat % 2 ^ (32 * (pos + 1)) = limb x pos * 2 ^ (32 * pos) + x.toNat % 2 ^ (32 * pos) := by
  unfold limb
  rw [show 32 * (pos + 1) = 32 * pos + 32 by ring, Nat.pow_add, Nat.mod_mul, Nat.add_comm,
    Nat.mul_comm]

/-- The scan of the limbs below `pos` measures the value modulo `2^(32 pos)`. -/
theorem bitsFrom_eq (x : arith_uint256) (pos : Nat) :
    bitsFrom x pos = (x.toNat % 2 ^ (32 * pos)).size := by
  induction pos with
  | zero => simp [bitsFrom, Nat.mod_one]
  | succ pos ih =>
    have hlimb : limb x pos < 2 ^ 32 := Nat.mod_lt _ (by positivity)
    rw [mod_succ_limb]
    unfold bitsFrom
    split
    · rename_i h0
      rw [size_mul_two_pow_add h0 (Nat.mod_lt _ (by positivity)),
        ← topBit_add_one 31 h0 hlimb]
      ring
    · rename_i h0
      simp only [not_not] at h0
      rw [h0, Nat.zero_mul, Nat.zero_add, ih]

theorem bits_eq_size (x : arith_uint256) : bits x = x.toNat.size := by
  rw [bits, bitsFrom_eq, WIDTH, Nat.mod_eq_of_lt x.isLt]

theorem bits_le (x : arith_uint256) : bits x ≤ 256 := by
  rw [bits_eq_size]
  exact Nat.size_le.mpr x.isLt

theorem bits_eq_zero_iff (x : arith_uint256) : bits x = 0 ↔ x = 0 := by
  rw [bits_eq_size, Nat.size_eq_zero, ← BitVec.toNat_inj]
  simp

theorem div_ok {a b : arith_uint256} (hb : b ≠ 0) : div a b = .ok (a / b) := by
  rw [div, if_neg (fun h => hb ((bits_eq_zero_iff b).mp h))]

/-- The restoring division: with the quotient bits above `shift` set and
the remainder below the divisor shifted one place further, the passes left
finish the quotient. -/
theorem divLoop_spec {A B : Nat} (hB : 0 < B) : ∀ (n : Nat) (num div q : arith_uint256) (k : Nat),
    n ≤ 256 → (∀ s, n = s + 1 → div.toNat = B * 2 ^ s) → num.toNat < B * 2 ^ n →
    q.toNat = 2 ^ n * k → A = q.toNat * B + num.toNat → (divLoop num div q n).toNat = A / B
  | 0, num, div, q, k, _, _, hnum, hq, hA => by
    rw [divLoop, hA, Nat.mul_comm, Nat.mul_add_div hB, Nat.div_eq_of_lt (by simpa using hnum)]
    simp
  | s + 1, num, div, q, k, hn, hdiv, hnum, hq, hA => by
    have hd := hdiv s rfl
    have hshift : (div >>> 1).toNat = B * 2 ^ s / 2 := by rw [BitVec.toNat_ushiftRight, hd]; rfl
    have hdiv' : ∀ s', s = s' + 1 → (div >>> 1).toNat = B * 2 ^ s' := by
      intro s' hs
      rw [hshift, hs, pow_succ, ← Nat.mul_assoc, Nat.mul_div_cancel _ (by norm_num)]
    rw [divLoop]
    split
    · -- the shifted divisor fits: subtract it and set quotient bit `s`
      rename_i hle
      have hle' : B * 2 ^ s ≤ num.toNat := by rw [← hd]; exact BitVec.le_def.mp hle
      have hbit : (q ||| 1#256 <<< s).toNat = 2 ^ s * (2 * k + 1) := by
        have hlt : 2 ^ s < 2 ^ 256 := Nat.pow_lt_pow_right (by norm_num) (by omega)
        rw [BitVec.toNat_or, hq, BitVec.toNat_shiftLeft, BitVec.toNat_ofNat,
          Nat.mod_eq_of_lt (by norm_num : 1 < 2 ^ 256), Nat.one_shiftLeft, Nat.mod_eq_of_lt hlt,
          ← Nat.two_pow_add_eq_or_of_lt (Nat.pow_lt_pow_right (by norm_num) (by omega)) k]
        ring
      have hsub : (num - div).toNat + B * 2 ^ s = num.toNat := by
        rw [BitVec.toNat_sub_of_le hle, hd]; omega
      refine divLoop_spec hB s _ _ _ (2 * k + 1) (by omega) hdiv' ?_ hbit ?_
      · have : B * 2 ^ (s + 1) = 2 * (B * 2 ^ s) := by ring
        omega
      · calc A = 2 ^ (s + 1) * k * B + (B * 2 ^ s + (num - div).toNat) := by rw [hA, hq]; omega
          _ = (q ||| 1#256 <<< s).toNat * B + (num - div).toNat := by rw [hbit]; ring
    · -- it does not fit: the quotient bit stays clear
      rename_i hlt
      have hlt' : num.toNat < B * 2 ^ s := by
        rw [← hd]; exact Nat.lt_of_not_le fun h => hlt (BitVec.le_def.mpr h)
      apply divLoop_spec hB s _ _ _ (2 * k) (by omega) hdiv' hlt' (by rw [hq]; ring) hA

/-- The loop of `operator/=` computes the quotient that `div` stands for. -/
theorem divide_eq_div (a b : arith_uint256) : divide a b = div a b := by
  unfold divide div
  by_cases hb : bits b = 0
  · simp [hb]
  rw [if_neg hb, if_neg hb, bits_eq_size, bits_eq_size]
  rw [bits_eq_size] at hb
  have hB : 0 < b.toNat := Nat.pos_of_ne_zero fun h => hb (by simp [h])
  -- `b` has its top bit at `size - 1`, and `a` fits its own size
  have hBlow : 2 ^ (b.toNat.size - 1) ≤ b.toNat := Nat.lt_size.mp (by omega)
  have hBhigh : b.toNat < 2 ^ b.toNat.size := Nat.lt_size_self _
  have hAhigh : a.toNat < 2 ^ a.toNat.size := Nat.lt_size_self _
  have hAsize : a.toNat.size ≤ 256 := Nat.size_le.mpr a.isLt
  split
  · -- the divisor is longer than the numerator
    rename_i hgt
    congr 1
    apply BitVec.eq_of_toNat_eq
    rw [BitVec.toNat_udiv, Nat.div_eq_of_lt]
    · rfl
    · calc a.toNat < 2 ^ a.toNat.size := hAhigh
        _ ≤ 2 ^ (b.toNat.size - 1) := Nat.pow_le_pow_right (by norm_num) (by omega)
        _ ≤ b.toNat := hBlow
  · rename_i hle
    dsimp only
    congr 1
    apply BitVec.eq_of_toNat_eq
    set shift := a.toNat.size - b.toNat.size
    have hpow : 2 ^ (b.toNat.size + shift) = 2 ^ a.toNat.size := by congr 1; omega
    have hfit : b.toNat * 2 ^ shift < 2 ^ 256 :=
      calc b.toNat * 2 ^ shift < 2 ^ b.toNat.size * 2 ^ shift :=
            Nat.mul_lt_mul_of_pos_right hBhigh (by positivity)
        _ = 2 ^ a.toNat.size := by rw [← Nat.pow_add, hpow]
        _ ≤ 2 ^ 256 := Nat.pow_le_pow_right (by norm_num) hAsize
    rw [BitVec.toNat_udiv]
    refine divLoop_spec hB (shift + 1) a _ 0 0 (by omega) (fun s hs => ?_) ?_ (by simp) (by simp)
    · rw [BitVec.toNat_shiftLeft, Nat.shiftLeft_eq, Nat.mod_eq_of_lt (by omega)]
      congr 2
      omega
    · calc a.toNat < 2 ^ a.toNat.size := hAhigh
        _ = 2 ^ (b.toNat.size - 1) * 2 ^ (shift + 1) := by rw [← Nat.pow_add]; congr 1; omega
        _ ≤ b.toNat * 2 ^ (shift + 1) := Nat.mul_le_mul_right _ hBlow

end Palladium.Arith
