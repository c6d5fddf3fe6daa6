import Palladium.Arith.Uint256

/-!
# The compact target encoding

`arith_uint256::SetCompact` and `GetCompact` (`arith_uint256.cpp`): a
base-256 float with an 8-bit exponent, a 23-bit mantissa and bit 23 as the
sign. `GetCompact` keeps the three leading digits, and only two when the
leading one would set the sign bit; the decoded value is then `x` with its
`compactExp x` lowest digits cleared.
-/

namespace Palladium.Arith

set_option autoImplicit false

/-- What `SetCompact` leaves in `*this`, `*pfNegative` and `*pfOverflow`. -/
structure Compact where
  value : arith_uint256
  fNegative : Bool
  fOverflow : Bool
  deriving DecidableEq, Repr

/-- `nWord` of `SetCompact`: the 23-bit mantissa, shifted down already when
the exponent `nSize` is at most 3. -/
def SetCompactWord (nCompact : UInt32) : UInt32 :=
  let nSize := (nCompact >>> 24).toNat
  let nWord : UInt32 := nCompact &&& 0x007fffff
  if nSize ≤ 3 then nWord >>> (8 * (3 - nSize)).toUInt32 else nWord

/-- `arith_uint256::SetCompact`; the flags read the shifted `nWord`. -/
def SetCompact (nCompact : UInt32) : Compact :=
  let nSize := (nCompact >>> 24).toNat
  let nWord := SetCompactWord nCompact
  { value :=
      if nSize ≤ 3 then BitVec.ofNat 256 nWord.toNat
      else BitVec.ofNat 256 nWord.toNat <<< (8 * (nSize - 3))
    fNegative := nWord != 0 && (nCompact &&& 0x00800000) != 0
    fOverflow := nWord != 0 &&
      (decide (nSize > 34) || (nWord > 0xff && decide (nSize > 33)) ||
        (nWord > 0xffff && decide (nSize > 32))) }

/-- The mantissa and the exponent `GetCompact` holds when it reaches its two
assertions, after the sign-bit renormalisation. -/
def GetCompactParts (x : arith_uint256) : UInt32 × Nat :=
  let nSize := (bits x + 7) / 8
  let nCompact : UInt32 :=
    if nSize ≤ 3 then (GetLow64 x <<< (8 * (3 - nSize)).toUInt64).toUInt32
    else (GetLow64 (x >>> (8 * (nSize - 3)))).toUInt32
  -- the 0x00800000 bit is the sign: move the mantissa down a byte instead
  if nCompact &&& 0x00800000 != 0 then (nCompact >>> 8, nSize + 1) else (nCompact, nSize)

/-- `arith_uint256::GetCompact(fNegative)`. -/
def GetCompact (x : arith_uint256) (fNegative : Bool) : UInt32 :=
  let nCompact := (GetCompactParts x).1 ||| (GetCompactParts x).2.toUInt32 <<< 24
  nCompact ||| (if fNegative && (nCompact &&& 0x007fffff) != 0 then 0x00800000 else 0)

/-- `nSize` in `GetCompact`: the number of bytes of `x`. -/
def byteLen (x : arith_uint256) : Nat := (bits x + 7) / 8

/-- The leading base-256 digits of `x` as `GetCompact` aligns them before
the sign test, a value below `2^24`. -/
def leadDigits (x : arith_uint256) : Nat :=
  if byteLen x ≤ 3 then x.toNat * 2 ^ (8 * (3 - byteLen x)) else x.toNat / 2 ^ (8 * (byteLen x - 3))

/-- The number of low base-256 digits that `SetCompact (GetCompact x)` clears. -/
def compactExp (x : arith_uint256) : Nat := (bits x + 8) / 8 - 3

/-! ## Machine-word facts -/

theorem uint32_toNat_shiftRight {a : UInt32} {k : Nat} (hk : k < 32) :
    (a >>> k.toUInt32).toNat = a.toNat / 2 ^ k := by
  have : (k.toUInt32).toNat % 32 = k := by
    rw [Nat.toUInt32_eq, UInt32.toNat_ofNat', Nat.mod_eq_of_lt (show k < 2 ^ 32 by omega), Nat.mod_eq_of_lt hk]
  rw [UInt32.toNat_shiftRight, this, Nat.shiftRight_eq_div_pow]

theorem uint64_toNat_shiftLeft {a : UInt64} {k : Nat} (hk : k < 64) :
    (a <<< k.toUInt64).toNat = a.toNat * 2 ^ k % 2 ^ 64 := by
  have : (k.toUInt64).toNat % 64 = k := by
    rw [Nat.toUInt64_eq, UInt64.toNat_ofNat', Nat.mod_eq_of_lt (show k < 2 ^ 64 by omega), Nat.mod_eq_of_lt hk]
  rw [UInt64.toNat_shiftLeft, this, Nat.shiftLeft_eq]

theorem toNat_and_low23 (c : UInt32) : (c &&& 0x007fffff).toNat = c.toNat % 2 ^ 23 := by
  simp only [UInt32.toNat_and]
  exact Nat.and_two_pow_sub_one_eq_mod _ 23

theorem toNat_shiftRight_24 (c : UInt32) : (c >>> 24).toNat = c.toNat / 2 ^ 24 := by
  simp [Nat.shiftRight_eq_div_pow]

theorem testBit_of_lt_two_mul {m k : Nat} (hm : m < 2 ^ (k + 1)) :
    m.testBit k = decide (2 ^ k ≤ m) := by
  rw [Nat.testBit_eq_decide_div_mod_eq]
  have hq : m / 2 ^ k < 2 := (Nat.div_lt_iff_lt_mul (by positivity)).mpr (by rw [Nat.pow_succ] at hm; omega)
  by_cases hk : 2 ^ k ≤ m
  · have : m / 2 ^ k = 1 := le_antisymm (by omega) ((Nat.le_div_iff_mul_le (by positivity)).mpr (by omega))
    simp [this, hk]
  · have : m / 2 ^ k = 0 := Nat.div_eq_of_lt (by omega)
    simp [this, hk]

theorem sign_bit_ne_zero (c : UInt32) :
    ((c &&& 0x00800000) != 0) = decide (2 ^ 23 ≤ c.toNat % 2 ^ 24) := by
  have hand : (c &&& 0x00800000).toNat = 2 ^ 23 * (c.toNat.testBit 23).toNat := by
    rw [UInt32.toNat_and, Nat.and_comm]
    exact Nat.two_pow_and _ 23
  have hbit : c.toNat.testBit 23 = (c.toNat % 2 ^ 24).testBit 23 := by
    rw [Nat.testBit_mod_two_pow]; simp
  rw [hbit, testBit_of_lt_two_mul (Nat.mod_lt _ (by positivity))] at hand
  have key : (c &&& 0x00800000) ≠ 0 ↔ 2 ^ 23 ≤ c.toNat % 2 ^ 24 := by
    rw [ne_eq, ← UInt32.toNat_inj, hand]
    simp
  rw [Bool.eq_iff_iff, bne_iff_ne, decide_eq_true_iff]
  exact key

theorem uint32_bne_zero (w : UInt32) : (w != 0) = decide (w.toNat ≠ 0) := by
  rw [Bool.eq_iff_iff, bne_iff_ne, decide_eq_true_iff, ne_eq, ne_eq, ← UInt32.toNat_inj]
  rfl

/-! ## `SetCompact` on natural numbers -/

theorem SetCompactWord_toNat (c : UInt32) :
    (SetCompactWord c).toNat =
      if c.toNat / 2 ^ 24 ≤ 3 then c.toNat % 2 ^ 23 / 2 ^ (8 * (3 - c.toNat / 2 ^ 24))
      else c.toNat % 2 ^ 23 := by
  simp only [SetCompactWord, toNat_shiftRight_24]
  split
  · rw [uint32_toNat_shiftRight (by omega), toNat_and_low23]
  · rw [toNat_and_low23]

theorem SetCompactWord_lt (c : UInt32) : (SetCompactWord c).toNat < 2 ^ 23 := by
  rw [SetCompactWord_toNat]
  split
  · exact lt_of_le_of_lt (Nat.div_le_self _ _) (Nat.mod_lt _ (by positivity))
  · exact Nat.mod_lt _ (by positivity)

theorem SetCompact_value_toNat (c : UInt32) :
    (SetCompact c).value.toNat =
      if c.toNat / 2 ^ 24 ≤ 3 then (SetCompactWord c).toNat
      else (SetCompactWord c).toNat * 2 ^ (8 * (c.toNat / 2 ^ 24 - 3)) % 2 ^ 256 := by
  have hw := SetCompactWord_lt c
  simp only [SetCompact, toNat_shiftRight_24]
  split
  · rw [BitVec.toNat_ofNat, Nat.mod_eq_of_lt (lt_trans hw (by norm_num))]
  · rw [BitVec.toNat_shiftLeft, BitVec.toNat_ofNat, Nat.mod_eq_of_lt (lt_trans hw (by norm_num)),
      Nat.shiftLeft_eq]

theorem SetCompact_fNegative (c : UInt32) :
    (SetCompact c).fNegative =
      (decide ((SetCompactWord c).toNat ≠ 0) && decide (2 ^ 23 ≤ c.toNat % 2 ^ 24)) := by
  simp only [SetCompact]
  rw [uint32_bne_zero, sign_bit_ne_zero]

theorem SetCompact_fOverflow (c : UInt32) :
    (SetCompact c).fOverflow = (decide ((SetCompactWord c).toNat ≠ 0) &&
      (decide (34 < c.toNat / 2 ^ 24) ||
        (decide (0xff < (SetCompactWord c).toNat) && decide (33 < c.toNat / 2 ^ 24)) ||
        (decide (0xffff < (SetCompactWord c).toNat) && decide (32 < c.toNat / 2 ^ 24)))) := by
  simp only [SetCompact, toNat_shiftRight_24, gt_iff_lt, UInt32.lt_iff_toNat_lt]
  rw [uint32_bne_zero]
  rfl

/-! ## `GetCompact` on natural numbers -/

theorem toNat_lt_byteLen (x : arith_uint256) : x.toNat < 2 ^ (8 * byteLen x) := by
  have h := Nat.lt_size_self x.toNat
  rw [← bits_eq_size] at h
  exact lt_of_lt_of_le h (Nat.pow_le_pow_right (by norm_num) (by unfold byteLen; omega))

theorem byteLen_le (x : arith_uint256) : byteLen x ≤ 32 := by
  have := bits_le x
  unfold byteLen; omega

theorem leadDigits_lt (x : arith_uint256) : leadDigits x < 2 ^ 24 := by
  have hx := toNat_lt_byteLen x
  unfold leadDigits
  split
  · rename_i h
    calc x.toNat * 2 ^ (8 * (3 - byteLen x)) < 2 ^ (8 * byteLen x) * 2 ^ (8 * (3 - byteLen x)) :=
          Nat.mul_lt_mul_of_pos_right hx (by positivity)
      _ = 2 ^ 24 := by rw [← Nat.pow_add]; congr 1; omega
  · rename_i h
    apply (Nat.div_lt_iff_lt_mul (by positivity)).mpr
    calc x.toNat < 2 ^ (8 * byteLen x) := hx
      _ = 2 ^ 24 * 2 ^ (8 * (byteLen x - 3)) := by rw [← Nat.pow_add]; congr 1; omega

theorem GetCompactParts_fst_before (x : arith_uint256) :
    (if byteLen x ≤ 3 then (GetLow64 x <<< (8 * (3 - byteLen x)).toUInt64).toUInt32
      else (GetLow64 (x >>> (8 * (byteLen x - 3)))).toUInt32).toNat = leadDigits x := by
  have hl := leadDigits_lt x
  by_cases h : byteLen x ≤ 3
  · rw [leadDigits, if_pos h] at hl ⊢
    rw [if_pos h]
    have hx : x.toNat < 2 ^ 64 :=
      lt_of_le_of_lt (Nat.le_mul_of_pos_right _ (by positivity)) (lt_trans hl (by norm_num))
    rw [UInt64.toNat_toUInt32, uint64_toNat_shiftLeft (by omega), GetLow64, Nat.toUInt64_eq,
      UInt64.toNat_ofNat', Nat.mod_eq_of_lt hx, Nat.mod_eq_of_lt (lt_trans hl (by norm_num)),
      Nat.mod_eq_of_lt (lt_trans hl (by norm_num))]
  · rw [leadDigits, if_neg h] at hl ⊢
    rw [if_neg h, UInt64.toNat_toUInt32, GetLow64, Nat.toUInt64_eq, UInt64.toNat_ofNat',
      BitVec.toNat_ushiftRight, Nat.shiftRight_eq_div_pow, Nat.mod_eq_of_lt (lt_trans hl (by norm_num)),
      Nat.mod_eq_of_lt (lt_trans hl (by norm_num))]

theorem GetCompactParts_spec (x : arith_uint256) :
    (GetCompactParts x).1.toNat = (if leadDigits x < 2 ^ 23 then leadDigits x else leadDigits x / 2 ^ 8) ∧
    (GetCompactParts x).2 = (if leadDigits x < 2 ^ 23 then byteLen x else byteLen x + 1) := by
  have hm := GetCompactParts_fst_before x
  have hl := leadDigits_lt x
  unfold GetCompactParts
  simp only [show (bits x + 7) / 8 = byteLen x from rfl]
  generalize (if byteLen x ≤ 3 then (GetLow64 x <<< (8 * (3 - byteLen x)).toUInt64).toUInt32
    else (GetLow64 (x >>> (8 * (byteLen x - 3)))).toUInt32) = M at hm ⊢
  rw [← hm] at hl ⊢
  rw [sign_bit_ne_zero, Nat.mod_eq_of_lt hl]
  by_cases h : M.toNat < 8388608
  · have h' : ¬ 8388608 ≤ M.toNat := by omega
    simp [h, h']
  · have h' : 8388608 ≤ M.toNat := by omega
    simp [h, h', UInt32.toNat_shiftRight, Nat.shiftRight_eq_div_pow]

/-! ## The leading digits and the exponent -/

theorem byteLen_pos {x : arith_uint256} (hx : x ≠ 0) : 0 < byteLen x := by
  have : bits x ≠ 0 := fun h => hx ((bits_eq_zero_iff x).mp h)
  unfold byteLen; omega

theorem two_pow_le_iff_bits {x : arith_uint256} {k : Nat} : 2 ^ k ≤ x.toNat ↔ k < bits x := by
  rw [bits_eq_size, Nat.lt_size]

theorem le_leadDigits_iff {x : arith_uint256} (hx : x ≠ 0) :
    2 ^ 23 ≤ leadDigits x ↔ 8 * byteLen x - 1 < bits x := by
  have hn := byteLen_pos hx
  rw [← two_pow_le_iff_bits, leadDigits]
  split
  · rename_i h
    have hsplit : 2 ^ 23 = 2 ^ (8 * byteLen x - 1) * 2 ^ (8 * (3 - byteLen x)) := by
      rw [← Nat.pow_add]; congr 1; omega
    rw [hsplit]
    exact Nat.mul_le_mul_right_iff (by positivity)
  · rename_i h
    rw [Nat.le_div_iff_mul_le (by positivity), ← Nat.pow_add]
    have : 23 + 8 * (byteLen x - 3) = 8 * byteLen x - 1 := by omega
    rw [this]

theorem bits_le_byteLen (x : arith_uint256) : bits x ≤ 8 * byteLen x := by
  unfold byteLen; omega

theorem compactExp_of_lt {x : arith_uint256} (h : leadDigits x < 2 ^ 23) :
    compactExp x = byteLen x - 3 := by
  by_cases hx : x = 0
  · subst hx
    decide
  · have := (le_leadDigits_iff hx).not.mp (by omega)
    have hn := byteLen_pos hx
    unfold compactExp
    unfold byteLen at this hn ⊢
    omega

theorem compactExp_of_le {x : arith_uint256} (h : 2 ^ 23 ≤ leadDigits x) :
    compactExp x = byteLen x - 2 := by
  have hx : x ≠ 0 := by
    rintro rfl
    exact absurd h (by decide)
  have := (le_leadDigits_iff hx).mp h
  have hb := bits_le_byteLen x
  unfold compactExp
  unfold byteLen at this hb ⊢
  omega

/-! ## Decoding what `GetCompact` encodes -/
theorem GetCompactParts_mant_lt (x : arith_uint256) : (GetCompactParts x).1.toNat < 2 ^ 23 := by
  rw [(GetCompactParts_spec x).1]
  have := leadDigits_lt x
  split <;> omega

theorem GetCompactParts_exp_le (x : arith_uint256) : (GetCompactParts x).2 ≤ 33 := by
  rw [(GetCompactParts_spec x).2]
  have := byteLen_le x
  split <;> omega

theorem GetCompact_toNat (x : arith_uint256) :
    (GetCompact x false).toNat = (GetCompactParts x).1.toNat + (GetCompactParts x).2 * 2 ^ 24 := by
  have hm := GetCompactParts_mant_lt x
  have hs := GetCompactParts_exp_le x
  simp only [GetCompact, Bool.false_and, Bool.false_eq_true, ↓reduceIte, UInt32.or_zero]
  rw [UInt32.toNat_or, UInt32.toNat_shiftLeft]
  have h24 : (24 : UInt32).toNat % 32 = 24 := rfl
  have hsz : (GetCompactParts x).2.toUInt32.toNat = (GetCompactParts x).2 := by
    rw [Nat.toUInt32_eq, UInt32.toNat_ofNat', Nat.mod_eq_of_lt (by omega)]
  rw [h24, hsz, Nat.mod_eq_of_lt (by rw [Nat.shiftLeft_eq]; omega), Nat.or_comm,
    ← Nat.shiftLeft_add_eq_or_of_lt (by omega), Nat.shiftLeft_eq]
  ring

theorem compact_fields {c : UInt32} {m s : Nat} (hm : m < 2 ^ 23) (hc : c.toNat = m + s * 2 ^ 24) :
    c.toNat / 2 ^ 24 = s ∧ c.toNat % 2 ^ 23 = m ∧ c.toNat % 2 ^ 24 = m := by
  refine ⟨?_, ?_, ?_⟩ <;> rw [hc] <;> omega

theorem pow_256 (k : Nat) : 256 ^ k = 2 ^ (8 * k) := by
  rw [Nat.pow_mul]

/-- The value `SetCompact` decodes from the parts `GetCompact` writes. -/
theorem decode_parts_value (x : arith_uint256) :
    (if (GetCompactParts x).2 ≤ 3 then
        (GetCompactParts x).1.toNat / 2 ^ (8 * (3 - (GetCompactParts x).2))
      else (GetCompactParts x).1.toNat * 2 ^ (8 * ((GetCompactParts x).2 - 3)) % 2 ^ 256) =
      x.toNat / 2 ^ (8 * compactExp x) * 2 ^ (8 * compactExp x) := by
  obtain ⟨hm, hs⟩ := GetCompactParts_spec x
  rw [hm, hs]
  have hlt := x.isLt
  by_cases hL : leadDigits x < 2 ^ 23
  · rw [compactExp_of_lt hL, if_pos hL, if_pos hL]
    by_cases hn : byteLen x ≤ 3
    · rw [if_pos hn, show byteLen x - 3 = 0 by omega, leadDigits, if_pos hn,
        Nat.mul_div_cancel _ (by positivity)]
      simp
    · rw [if_neg hn, leadDigits, if_neg hn]
      exact Nat.mod_eq_of_lt (lt_of_le_of_lt (Nat.div_mul_le_self _ _) hlt)
  · have hx : x ≠ 0 := by
      rintro rfl
      exact hL (by decide)
    have hn0 := byteLen_pos hx
    rw [compactExp_of_le (by omega), if_neg hL, if_neg hL]
    by_cases hn : byteLen x + 1 ≤ 3
    · rw [if_pos hn, show byteLen x - 2 = 0 by omega, leadDigits, if_pos (by omega),
        Nat.div_div_eq_div_mul, ← Nat.pow_add, show 8 + 8 * (3 - (byteLen x + 1)) = 8 * (3 - byteLen x) by omega,
        Nat.mul_div_cancel _ (by positivity)]
      simp
    · have hq : leadDigits x / 2 ^ 8 = x.toNat / 2 ^ (8 * (byteLen x - 2)) := by
        rw [leadDigits]
        split
        · rw [show 3 - byteLen x = 0 by omega, show byteLen x - 2 = 1 by omega]
          simp
        · rw [Nat.div_div_eq_div_mul, ← Nat.pow_add]
          congr 2
          omega
      rw [if_neg hn, show byteLen x + 1 - 3 = byteLen x - 2 by omega, hq]
      exact Nat.mod_eq_of_lt (lt_of_le_of_lt (Nat.div_mul_le_self _ _) hlt)


theorem GetCompactParts_mant_of_exp_33 {x : arith_uint256} (h : (GetCompactParts x).2 = 33) :
    (GetCompactParts x).1.toNat < 2 ^ 16 := by
  obtain ⟨hm, hs⟩ := GetCompactParts_spec x
  have hl := leadDigits_lt x
  have hn := byteLen_le x
  rw [hm]
  split
  · rename_i hL
    rw [hs, if_pos hL] at h
    omega
  · exact (Nat.div_lt_iff_lt_mul (by positivity)).mpr (by omega)

/-- Decoding what `GetCompact` encodes clears the `compactExp x` lowest
base-256 digits of `x`, and never sets the sign or the overflow flag. -/
theorem SetCompact_GetCompact (x : arith_uint256) :
    (SetCompact (GetCompact x false)).value.toNat =
        x.toNat / 256 ^ compactExp x * 256 ^ compactExp x ∧
      (SetCompact (GetCompact x false)).fNegative = false ∧
      (SetCompact (GetCompact x false)).fOverflow = false := by
  have hm := GetCompactParts_mant_lt x
  have hs := GetCompactParts_exp_le x
  obtain ⟨hdiv, hmod, hmod24⟩ := compact_fields hm (GetCompact_toNat x)
  refine ⟨?_, ?_, ?_⟩
  · rw [SetCompact_value_toNat, SetCompactWord_toNat, hdiv, hmod, pow_256, ← decode_parts_value]
    split <;> rfl
  · rw [SetCompact_fNegative, hmod24]
    simp only [Bool.and_eq_false_iff, decide_eq_false_iff_not]
    exact Or.inr (Nat.not_le.mpr hm)
  · have h33 := @GetCompactParts_mant_of_exp_33 x
    rw [SetCompact_fOverflow, SetCompactWord_toNat, hdiv, hmod]
    by_cases h3 : (GetCompactParts x).2 ≤ 3
    · simp [h3]
      omega
    · simp [h3]
      omega

/-! ## Assertions, error and monotonicity -/

/-- The two assertions of `GetCompact` hold for every input: the mantissa
fits in 23 bits and the exponent in a byte. -/
theorem GetCompact_assertions (x : arith_uint256) :
    ((GetCompactParts x).1 &&& ~~~0x007fffff) = 0 ∧ (GetCompactParts x).2 < 256 := by
  refine ⟨?_, by have := GetCompactParts_exp_le x; omega⟩
  have hm := GetCompactParts_mant_lt x
  apply UInt32.toNat_inj.mp
  have hlow : (GetCompactParts x).1.toNat = (GetCompactParts x).1.toNat &&& (2 ^ 23 - 1) :=
    (Nat.and_two_pow_sub_one_of_lt_two_pow hm).symm
  have hmask : (2 ^ 23 - 1) &&& (~~~(0x007fffff : UInt32)).toNat = 0 := by
    rw [Nat.and_comm, Nat.and_two_pow_sub_one_eq_mod]
    decide
  rw [UInt32.toNat_and, hlow, Nat.and_assoc, hmask, Nat.and_zero]
  rfl

theorem decoded_le (x : arith_uint256) :
    x.toNat / 256 ^ compactExp x * 256 ^ compactExp x ≤ x.toNat := Nat.div_mul_le_self _ _

theorem sub_decoded_lt (x : arith_uint256) :
    x.toNat - x.toNat / 256 ^ compactExp x * 256 ^ compactExp x < 256 ^ compactExp x := by
  have hb : 0 < 256 ^ compactExp x := by positivity
  generalize 256 ^ compactExp x = b at hb ⊢
  have : x.toNat < x.toNat / b * b + b := Nat.lt_div_mul_add hb
  have := Nat.div_mul_le_self x.toNat b
  omega

theorem bits_mono {x y : arith_uint256} (h : x ≤ y) : bits x ≤ bits y := by
  rw [bits_eq_size, bits_eq_size]
  exact Nat.size_le_size h

theorem compactExp_mono {x y : arith_uint256} (h : x ≤ y) : compactExp x ≤ compactExp y := by
  have := bits_mono h
  unfold compactExp
  omega

theorem bits_le_of_compactExp_lt {x : arith_uint256} {k : Nat} (h : compactExp x < k) :
    bits x ≤ 8 * k + 15 := by
  unfold compactExp at h
  omega

theorem lt_bits_of_compactExp_pos {y : arith_uint256} (h : 0 < compactExp y) :
    8 * compactExp y + 15 < bits y := by
  unfold compactExp at h ⊢
  omega

theorem decoded_pos {x : arith_uint256} (hx : 0 < x.toNat) :
    0 < x.toNat / 256 ^ compactExp x * 256 ^ compactExp x := by
  have hle : 256 ^ compactExp x ≤ x.toNat := by
    rcases Nat.eq_zero_or_pos (compactExp x) with h0 | hpos
    · rw [h0]
      exact hx
    · rw [pow_256]
      apply two_pow_le_iff_bits.mpr
      have := lt_bits_of_compactExp_pos hpos
      omega
  have : 0 < x.toNat / 256 ^ compactExp x := Nat.div_pos hle (by positivity)
  positivity
/-- Decoding the encoding is monotone: a larger exponent only starts above
every value of a smaller one. -/
theorem decoded_mono {x y : arith_uint256} (h : x ≤ y) :
    x.toNat / 256 ^ compactExp x * 256 ^ compactExp x ≤
      y.toNat / 256 ^ compactExp y * 256 ^ compactExp y := by
  rcases Nat.lt_or_eq_of_le (compactExp_mono h) with hlt | heq
  · have hx : x.toNat < 2 ^ 15 * 256 ^ compactExp y := by
      rw [pow_256, ← Nat.pow_add]
      exact Nat.lt_of_not_le (fun h' => by
        have := two_pow_le_iff_bits.mp h'
        have := bits_le_of_compactExp_lt hlt
        omega)
    have hy : 2 ^ 15 * 256 ^ compactExp y ≤ y.toNat := by
      rw [pow_256, ← Nat.pow_add]
      apply two_pow_le_iff_bits.mpr
      have := lt_bits_of_compactExp_pos (y := y) (by omega)
      omega
    calc x.toNat / 256 ^ compactExp x * 256 ^ compactExp x ≤ x.toNat := decoded_le x
      _ ≤ 2 ^ 15 * 256 ^ compactExp y := hx.le
      _ = 2 ^ 15 * 256 ^ compactExp y / 256 ^ compactExp y * 256 ^ compactExp y := by
        rw [Nat.mul_div_cancel _ (by positivity)]
      _ ≤ y.toNat / 256 ^ compactExp y * 256 ^ compactExp y :=
        Nat.mul_le_mul_right _ (Nat.div_le_div_right hy)
  · rw [heq]
    exact Nat.mul_le_mul_right _ (Nat.div_le_div_right h)

/-! ## Canonical compact values -/

/-- The compact values `GetCompact` produces: zero, or a mantissa whose top
byte is non-zero below the sign bit, or one moved down a byte by the sign-bit
renormalisation, with the low bytes an exponent below 3 drops all zero. -/
def CompactCanonical (c : UInt32) : Prop :=
  c = 0 ∨
    (((2 ^ 16 ≤ c.toNat % 2 ^ 24 ∧ c.toNat % 2 ^ 24 < 2 ^ 23 ∧ 1 ≤ c.toNat / 2 ^ 24 ∧ c.toNat / 2 ^ 24 ≤ 32) ∨
      (2 ^ 15 ≤ c.toNat % 2 ^ 24 ∧ c.toNat % 2 ^ 24 < 2 ^ 16 ∧ 2 ≤ c.toNat / 2 ^ 24 ∧ c.toNat / 2 ^ 24 ≤ 33)) ∧
      256 ^ (3 - c.toNat / 2 ^ 24) ∣ c.toNat % 2 ^ 24)

instance (c : UInt32) : Decidable (CompactCanonical c) := inferInstanceAs (Decidable (_ ∨ _))

example : CompactCanonical 0x05123456 := by decide
example : ¬ CompactCanonical 0x01123456 := by decide

theorem byteLen_eq {x : arith_uint256} {n : Nat} (hn : 1 ≤ n) (hlo : 2 ^ (8 * n - 8) ≤ x.toNat)
    (hhi : x.toNat < 2 ^ (8 * n)) : byteLen x = n := by
  have h1 := two_pow_le_iff_bits.mp hlo
  have h2 : bits x ≤ 8 * n := by rw [bits_eq_size]; exact Nat.size_le.mpr hhi
  unfold byteLen
  omega

theorem leadDigits_pos {x : arith_uint256} (hx : x ≠ 0) : 2 ^ 16 ≤ leadDigits x := by
  have hn := byteLen_pos hx
  have hb : 8 * byteLen x - 8 ≤ 8 * byteLen x - 1 := by omega
  have hlo : 2 ^ (8 * byteLen x - 8) ≤ x.toNat := by
    apply two_pow_le_iff_bits.mpr
    unfold byteLen; unfold byteLen at hn
    have : bits x ≠ 0 := fun h => hx ((bits_eq_zero_iff x).mp h)
    omega
  rw [leadDigits]
  split
  · calc 2 ^ 16 = 2 ^ (8 * byteLen x - 8) * 2 ^ (8 * (3 - byteLen x)) := by
          rw [← Nat.pow_add]; congr 1; omega
      _ ≤ x.toNat * 2 ^ (8 * (3 - byteLen x)) := Nat.mul_le_mul_right _ hlo
  · apply (Nat.le_div_iff_mul_le (by positivity)).mpr
    calc 2 ^ 16 * 2 ^ (8 * (byteLen x - 3)) = 2 ^ (8 * byteLen x - 8) := by
          rw [← Nat.pow_add]; congr 1; omega
      _ ≤ x.toNat := hlo

theorem GetCompact_canonical (x : arith_uint256) : CompactCanonical (GetCompact x false) := by
  have hm := GetCompactParts_mant_lt x
  obtain ⟨hdiv, -, hmod24⟩ := compact_fields hm (GetCompact_toNat x)
  by_cases hx : x = 0
  · left
    subst hx
    decide
  right
  rw [hdiv, hmod24]
  obtain ⟨hM, hS⟩ := GetCompactParts_spec x
  have hl := leadDigits_lt x
  have hp := leadDigits_pos hx
  have hn := byteLen_pos hx
  have hn' := byteLen_le x
  rw [hM, hS]
  by_cases hL : leadDigits x < 2 ^ 23
  · rw [if_pos hL, if_pos hL]
    refine ⟨Or.inl ⟨hp, hL, hn, hn'⟩, ?_⟩
    rw [leadDigits]
    split
    · rw [pow_256]; exact Dvd.intro_left _ rfl
    · rw [show 3 - byteLen x = 0 by omega]; exact one_dvd _
  · rw [if_neg hL, if_neg hL]
    refine ⟨Or.inr ⟨(Nat.le_div_iff_mul_le (by positivity)).mpr (by omega),
      (Nat.div_lt_iff_lt_mul (by positivity)).mpr (by omega), by omega, by omega⟩, ?_⟩
    by_cases hn3 : byteLen x + 1 ≤ 3
    · rw [leadDigits, if_pos (by omega), pow_256,
        show 8 * (3 - byteLen x) = 8 * (3 - (byteLen x + 1)) + 8 by omega,
        Nat.pow_add, ← Nat.mul_assoc, Nat.mul_div_cancel _ (by positivity)]
      exact Dvd.intro_left _ rfl
    · rw [show 3 - (byteLen x + 1) = 0 by omega]; exact one_dvd _


/-- A value whose leading digits, aligned at exponent `n`, are `M`. -/
theorem byteLen_leadDigits_of_align {x : arith_uint256} {n M : Nat} (hn : 1 ≤ n) (hn' : n ≤ 32)
    (hM : 2 ^ 16 ≤ M) (hM' : M < 2 ^ 24)
    (hx : x.toNat * 256 ^ (3 - n) = M * 256 ^ (n - 3)) : byteLen x = n ∧ leadDigits x = M := by
  rw [pow_256, pow_256] at hx
  have hlen : byteLen x = n := by
    by_cases h3 : n ≤ 3
    · rw [show n - 3 = 0 by omega, Nat.pow_zero, Nat.mul_one] at hx
      apply byteLen_eq hn
      · apply (Nat.mul_le_mul_right_iff (show 0 < 2 ^ (8 * (3 - n)) by positivity)).mp
        rw [hx, ← Nat.pow_add, show 8 * n - 8 + 8 * (3 - n) = 16 by omega]; exact hM
      · apply (Nat.mul_lt_mul_right (show 0 < 2 ^ (8 * (3 - n)) by positivity)).mp
        rw [hx, ← Nat.pow_add, show 8 * n + 8 * (3 - n) = 24 by omega]; exact hM'
    · rw [show 3 - n = 0 by omega, Nat.pow_zero, Nat.mul_one] at hx
      apply byteLen_eq hn
      · rw [hx]
        calc 2 ^ (8 * n - 8) = 2 ^ 16 * 2 ^ (8 * (n - 3)) := by rw [← Nat.pow_add]; congr 1; omega
          _ ≤ M * 2 ^ (8 * (n - 3)) := Nat.mul_le_mul_right _ hM
      · rw [hx]
        calc M * 2 ^ (8 * (n - 3)) < 2 ^ 24 * 2 ^ (8 * (n - 3)) := Nat.mul_lt_mul_of_pos_right hM' (by positivity)
          _ = 2 ^ (8 * n) := by rw [← Nat.pow_add]; congr 1; omega
  refine ⟨hlen, ?_⟩
  rw [leadDigits, hlen]
  split
  · rename_i h3
    rw [hx, show n - 3 = 0 by omega, Nat.pow_zero, Nat.mul_one]
  · rename_i h3
    rw [show 3 - n = 0 by omega, Nat.pow_zero, Nat.mul_one] at hx
    rw [hx, Nat.mul_div_cancel _ (by positivity)]


theorem canonical_mant_lt {c : UInt32} (hc : CompactCanonical c) : c.toNat % 2 ^ 24 < 2 ^ 23 := by
  rcases hc with rfl | ⟨h | h, -⟩
  · decide
  · exact h.2.1
  · omega

/-- On a canonical value, `SetCompact` puts the mantissa `c mod 2^24` at
exponent `c >> 24` without losing a digit. -/
theorem SetCompact_align {c : UInt32} (hc : CompactCanonical c) :
    (SetCompact c).value.toNat * 256 ^ (3 - c.toNat / 2 ^ 24) =
      c.toNat % 2 ^ 24 * 256 ^ (c.toNat / 2 ^ 24 - 3) := by
  have hm := canonical_mant_lt hc
  have h23 : c.toNat % 2 ^ 23 = c.toNat % 2 ^ 24 := by
    rw [← Nat.mod_mod_of_dvd c.toNat (show 2 ^ 23 ∣ 2 ^ 24 by decide), Nat.mod_eq_of_lt hm]
  rw [SetCompact_value_toNat, SetCompactWord_toNat, h23]
  rcases hc with h0 | ⟨hcase, hdvd⟩
  · subst h0; decide
  split
  · rename_i hs
    rw [show c.toNat / 2 ^ 24 - 3 = 0 by omega, Nat.pow_zero, Nat.mul_one, ← pow_256]
    exact Nat.div_mul_cancel hdvd
  · rename_i hs
    rw [show 3 - c.toNat / 2 ^ 24 = 0 by omega, Nat.pow_zero, Nat.mul_one, pow_256]
    apply Nat.mod_eq_of_lt
    rcases hcase with ⟨-, h2, -, h4⟩ | ⟨-, h2, -, h4⟩
    · calc c.toNat % 2 ^ 24 * 2 ^ (8 * (c.toNat / 2 ^ 24 - 3)) < 2 ^ 23 * 2 ^ (8 * 29) :=
            Nat.mul_lt_mul_of_lt_of_le h2 (Nat.pow_le_pow_right (by norm_num) (by omega)) (by positivity)
        _ < 2 ^ 256 := by norm_num
    · calc c.toNat % 2 ^ 24 * 2 ^ (8 * (c.toNat / 2 ^ 24 - 3)) < 2 ^ 16 * 2 ^ (8 * 30) :=
            Nat.mul_lt_mul_of_lt_of_le h2 (Nat.pow_le_pow_right (by norm_num) (by omega)) (by positivity)
        _ = 2 ^ 256 := by norm_num

/-- Encoding what `SetCompact` decodes gives back exactly the canonical
compact values, the image of `GetCompact`. -/
theorem GetCompact_SetCompact_iff (c : UInt32) :
    GetCompact (SetCompact c).value false = c ↔ CompactCanonical c := by
  constructor
  · intro h
    rw [← h]
    exact GetCompact_canonical _
  intro hc
  by_cases hc0 : c = 0
  · subst hc0; decide
  have hA := SetCompact_align hc
  have hsplit := Nat.mod_add_div c.toNat (2 ^ 24)
  apply UInt32.toNat_inj.mp
  rw [GetCompact_toNat]
  rcases hc with h0 | ⟨hcase, -⟩
  · exact absurd h0 hc0
  generalize (SetCompact c).value = x at hA ⊢
  generalize c.toNat % 2 ^ 24 = m at hA hsplit hcase
  generalize c.toNat / 2 ^ 24 = s at hA hsplit hcase
  obtain ⟨hM, hS⟩ := GetCompactParts_spec x
  rw [hM, hS, ← hsplit]
  rcases hcase with ⟨h1, h2, h3, h4⟩ | ⟨h1, h2, h3, h4⟩
  · obtain ⟨hlen, hlead⟩ := byteLen_leadDigits_of_align h3 h4 h1 (by omega) hA
    rw [hlead, if_pos h2, if_pos h2, hlen]
    ring
  · have hA' : x.toNat * 256 ^ (3 - (s - 1)) = 256 * m * 256 ^ (s - 1 - 3) := by
      rcases (show s = 2 ∨ s = 3 ∨ 4 ≤ s by omega) with rfl | rfl | hs
      · simp only [Nat.reduceSub, pow_one, pow_zero] at hA ⊢
        rw [show 2 = 1 + 1 from rfl, pow_succ, pow_one, ← Nat.mul_assoc, hA]
        ring
      · simp only [Nat.reduceSub, pow_one, pow_zero, Nat.mul_one] at hA ⊢
        rw [hA]; ring
      · rw [show 3 - (s - 1) = 0 by omega, show 3 - s = 0 by omega] at *
        rw [Nat.pow_zero, Nat.mul_one] at hA ⊢
        rw [hA, show s - 3 = s - 1 - 3 + 1 by omega, pow_succ]
        ring
    obtain ⟨hlen, hlead⟩ := byteLen_leadDigits_of_align (by omega) (by omega) (by omega) (by omega) hA'
    have hge : ¬ 256 * m < 2 ^ 23 := by omega
    rw [hlead, if_neg hge, if_neg hge, hlen, show (2 : Nat) ^ 8 = 256 by norm_num,
      Nat.mul_div_cancel_left _ (by norm_num), show s - 1 + 1 = s by omega]
    ring

/-! ## The round trip -/

/-- `SetCompact (GetCompact x)` is never negative nor overflowing and clears
the `compactExp x` lowest base-256 digits of `x` (three digits survive, two
when the sign-bit renormalisation fires), so it is at most `x`, within
`256^(compactExp x)` of it, and monotone in `x`; and `GetCompact` inverts
`SetCompact` on exactly the canonical compact values. -/
theorem compact_round_trip :
    (∀ x : arith_uint256,
      (SetCompact (GetCompact x false)).fNegative = false ∧
      (SetCompact (GetCompact x false)).fOverflow = false ∧
      (SetCompact (GetCompact x false)).value.toNat =
        x.toNat / 256 ^ compactExp x * 256 ^ compactExp x ∧
      (SetCompact (GetCompact x false)).value ≤ x ∧
      x.toNat - (SetCompact (GetCompact x false)).value.toNat < 256 ^ compactExp x) ∧
    (∀ c : UInt32, GetCompact (SetCompact c).value false = c ↔ CompactCanonical c) ∧
    (∀ x y : arith_uint256, x ≤ y →
      (SetCompact (GetCompact x false)).value ≤ (SetCompact (GetCompact y false)).value) := by
  refine ⟨fun x => ?_, GetCompact_SetCompact_iff, fun x y hxy => ?_⟩
  · obtain ⟨hv, hneg, hover⟩ := SetCompact_GetCompact x
    refine ⟨hneg, hover, hv, ?_, ?_⟩
    · rw [BitVec.le_def, hv]
      exact decoded_le x
    · rw [hv]
      exact sub_decoded_lt x
  · rw [BitVec.le_def, (SetCompact_GetCompact x).1, (SetCompact_GetCompact y).1]
    exact decoded_mono hxy

/-- Against the claim as stated: `0x800001` has three digits, yet its round
trip keeps two; and `0x01123456`, whose mantissa has a non-zero top byte, is
not what `GetCompact` gives back for its own decoding. -/
theorem compact_three_digits_counterexample :
    byteLen 0x800001 = 3 ∧ (SetCompact (GetCompact 0x800001 false)).value = 0x800000 ∧
      GetCompact (SetCompact 0x01123456).value false = 0x01120000 := by
  decide

end Palladium.Arith
