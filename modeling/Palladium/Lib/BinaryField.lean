import Mathlib.RingTheory.AdjoinRoot
import Mathlib.Algebra.CharP.Two
import Mathlib.Tactic.LinearCombination
import Mathlib.Algebra.Field.ZMod
import Mathlib.Algebra.Polynomial.Coeff

/-!
# Binary fields and remainders of polynomials

A field of `2 ^ m` elements is `(ZMod 2)[X]` modulo a polynomial of degree
`m`, and a number stands for an element through the polynomial whose
coefficients are its low `m` bits (`embed`). Exclusive or is addition there,
and numbers below `2 ^ m` stand for different elements.

Over any commutative ring, dividing by a monic polynomial is compatible with
Horner's scheme: one step `p * X + C e` of an already reduced `p` is reduced
by one subtraction of the divisor, scaled by the coefficient that overflows.
-/

namespace BinaryField

open Polynomial

set_option autoImplicit false

/-! ## Horner steps modulo a monic polynomial -/

section ModByMonic

variable {R : Type} [CommRing R] {g : R[X]}

/-- A Horner step commutes with taking the remainder. -/
theorem mul_X_add_C_modByMonic (hg : g.Monic) (p : R[X]) (e : R) :
    (p * X + C e) %ₘ g = ((p %ₘ g) * X + C e) %ₘ g := by
  refine modByMonic_eq_of_dvd_sub hg ⟨p /ₘ g * X, ?_⟩
  linear_combination (-X) * modByMonic_add_div p g

/-- A Horner step of a reduced polynomial, reduced: one subtraction of `g`
times the coefficient that reaches the degree of `g`. -/
theorem mul_X_add_C_modByMonic_of_degree_lt [Nontrivial R] (hg : g.Monic) {d : Nat} (hd : g.natDegree = d + 1)
    {p : R[X]} (hp : p.degree < (d + 1 : Nat)) (e : R) :
    (p * X + C e) %ₘ g = p * X + C e - C (p.coeff d) * g := by
  have hlead : g.coeff (d + 1) = 1 := by
    rw [← hd]
    exact hg.coeff_natDegree
  have hdeg : (p * X + C e - C (p.coeff d) * g).degree < g.degree := by
    rw [degree_eq_natDegree hg.ne_zero, hd, degree_lt_iff_coeff_zero]
    intro m hm
    obtain ⟨m, rfl⟩ : ∃ k, m = k + 1 := ⟨m - 1, by omega⟩
    rw [coeff_sub, coeff_add, coeff_mul_X, coeff_C_succ, coeff_C_mul]
    by_cases hmd : m = d
    · -- the coefficient that overflows cancels against the lead of `g`
      subst hmd
      rw [hlead]
      ring
    · have hp0 : p.coeff m = 0 := (degree_lt_iff_coeff_zero p _).mp hp m (by omega)
      have hg0 : g.coeff (m + 1) = 0 := coeff_eq_zero_of_natDegree_lt (by omega)
      rw [hp0, hg0]
      ring
  exact (div_modByMonic_unique (C (p.coeff d)) _ hg ⟨by ring, hdeg⟩).2

end ModByMonic

/-! ## Numbers as elements of a binary field -/

section Bits

/-- The polynomial over `GF(2)` whose coefficients are the low `m` bits of `n`. -/
noncomputable def bitsPoly (m n : Nat) : (ZMod 2)[X] :=
  ∑ i ∈ Finset.range m, if n.testBit i then X ^ i else 0

theorem coeff_bitsPoly (m n i : Nat) : (bitsPoly m n).coeff i = if i < m ∧ n.testBit i = true then 1 else 0 := by
  rw [bitsPoly, finsetSum_coeff]
  simp only [apply_ite (fun p : (ZMod 2)[X] => p.coeff i), coeff_X_pow, coeff_zero]
  by_cases hi : i < m
  · -- only the term of index `i` is left
    rw [Finset.sum_eq_single i (fun j _ hji => by simp [Ne.symm hji]) (fun h => absurd (Finset.mem_range.mpr hi) h)]
    by_cases hb : n.testBit i <;> simp [hi, hb]
  · rw [Finset.sum_eq_zero fun j hj => by
      have : i ≠ j := by rw [Finset.mem_range] at hj; omega
      simp [this]]
    simp [hi]

/-- Exclusive or is addition of polynomials over `GF(2)`. -/
theorem bitsPoly_xor (m a b : Nat) : bitsPoly m (a ^^^ b) = bitsPoly m a + bitsPoly m b := by
  ext i
  rw [coeff_add, coeff_bitsPoly, coeff_bitsPoly, coeff_bitsPoly, Nat.testBit_xor]
  by_cases hi : i < m
  · simp only [hi, true_and]
    cases a.testBit i <;> cases b.testBit i <;> decide
  · simp [hi]

@[simp] theorem bitsPoly_zero (m : Nat) : bitsPoly m 0 = 0 := by
  ext i
  simp [coeff_bitsPoly]

theorem bitsPoly_one {m : Nat} (hm : 0 < m) : bitsPoly m 1 = 1 := by
  ext i
  rw [coeff_bitsPoly, coeff_one]
  rcases i with _ | i
  · simp [hm]
  · simp [Nat.testBit_succ]

theorem bitsPoly_congr {m a b : Nat} (h : ∀ i < m, a.testBit i = b.testBit i) : bitsPoly m a = bitsPoly m b := by
  ext i
  rw [coeff_bitsPoly, coeff_bitsPoly]
  by_cases hi : i < m
  · rw [h i hi]
  · simp [hi]

theorem degree_bitsPoly_lt (m n : Nat) : (bitsPoly m n).degree < m := by
  rw [degree_lt_iff_coeff_zero]
  intro i hi
  rw [coeff_bitsPoly, if_neg (by omega)]

/-- Numbers below `2 ^ m` have different polynomials. -/
theorem bitsPoly_inj {m a b : Nat} (ha : a < 2 ^ m) (hb : b < 2 ^ m) (h : bitsPoly m a = bitsPoly m b) :
    a = b := by
  apply Nat.eq_of_testBit_eq
  intro i
  by_cases hi : i < m
  · have hc := congrArg (fun p => p.coeff i) h
    simp only [coeff_bitsPoly, hi, true_and] at hc
    revert hc
    cases a.testBit i <;> cases b.testBit i <;> decide
  · rw [Nat.testBit_lt_two_pow (lt_of_lt_of_le ha (Nat.pow_le_pow_right (by decide) (by omega))),
      Nat.testBit_lt_two_pow (lt_of_lt_of_le hb (Nat.pow_le_pow_right (by decide) (by omega)))]

variable (f : (ZMod 2)[X])

/-- The element of `AdjoinRoot f` that the low `m` bits of `n` stand for. -/
noncomputable def embed (m n : Nat) : AdjoinRoot f := AdjoinRoot.mk f (bitsPoly m n)

theorem embed_xor (m a b : Nat) : embed f m (a ^^^ b) = embed f m a + embed f m b := by
  rw [embed, bitsPoly_xor, map_add]
  rfl

@[simp] theorem embed_zero (m : Nat) : embed f m 0 = 0 := by
  rw [embed, bitsPoly_zero, map_zero]

theorem embed_one {m : Nat} (hm : 0 < m) : embed f m 1 = 1 := by
  rw [embed, bitsPoly_one hm, map_one]

theorem embed_congr {m a b : Nat} (h : ∀ i < m, a.testBit i = b.testBit i) : embed f m a = embed f m b := by
  rw [embed, embed, bitsPoly_congr h]

/-- Numbers below `2 ^ m` stand for different elements when `f` has
degree `m`. -/
theorem embed_inj {m a b : Nat} (hf : f.degree = m) (ha : a < 2 ^ m) (hb : b < 2 ^ m)
    (h : embed f m a = embed f m b) : a = b := by
  have hdvd : f ∣ bitsPoly m a - bitsPoly m b := by
    rw [← AdjoinRoot.mk_eq_zero, map_sub]
    exact sub_eq_zero.mpr h
  have hdeg : (bitsPoly m a - bitsPoly m b).degree < f.degree := by
    rw [hf, CharTwo.sub_eq_add, ← bitsPoly_xor]
    exact degree_bitsPoly_lt m _
  exact bitsPoly_inj ha hb (sub_eq_zero.mp (eq_zero_of_dvd_of_degree_lt hdvd hdeg))

theorem two_eq_zero : (2 : AdjoinRoot f) = 0 :=
  calc (2 : AdjoinRoot f) = AdjoinRoot.of f (1 + 1) := by rw [map_add, map_one]; norm_num
    _ = 0 := by rw [show (1 + 1 : ZMod 2) = 0 from rfl, map_zero]

/-! ## Words of packed coefficients -/

/-- The polynomial over `AdjoinRoot f` whose coefficient of `X ^ j`, for
`j < d`, is the `j`-th group of `m` bits of `c`. -/
noncomputable def packedPoly (m d c : Nat) : (AdjoinRoot f)[X] :=
  ∑ j ∈ Finset.range d, C (embed f m (c >>> (m * j))) * X ^ j

theorem coeff_packedPoly (m d c j : Nat) :
    (packedPoly f m d c).coeff j = if j < d then embed f m (c >>> (m * j)) else 0 := by
  rw [packedPoly, finsetSum_coeff]
  simp only [coeff_C_mul, coeff_X_pow, mul_ite, mul_one, mul_zero]
  by_cases hj : j < d
  · rw [Finset.sum_eq_single j (fun k _ hkj => by simp [Ne.symm hkj]) (fun h => absurd (Finset.mem_range.mpr hj) h)]
    simp [hj]
  · rw [Finset.sum_eq_zero fun k hk => by
      have : j ≠ k := by rw [Finset.mem_range] at hk; omega
      simp [this]]
    simp [hj]

theorem degree_packedPoly_lt (m d c : Nat) : (packedPoly f m d c).degree < d := by
  rw [degree_lt_iff_coeff_zero]
  intro j hj
  rw [coeff_packedPoly, if_neg (by omega)]

theorem packedPoly_xor (m d a b : Nat) : packedPoly f m d (a ^^^ b) = packedPoly f m d a + packedPoly f m d b := by
  ext j
  rw [coeff_add, coeff_packedPoly, coeff_packedPoly, coeff_packedPoly, Nat.shiftRight_xor_distrib, embed_xor]
  split <;> simp

theorem packedPoly_succ (m d c : Nat) :
    packedPoly f m (d + 1) c = packedPoly f m d c + C (embed f m (c >>> (m * d))) * X ^ d := by
  rw [packedPoly, Finset.sum_range_succ, ← packedPoly]

/-- A number of one group is a constant polynomial. -/
theorem packedPoly_of_lt {m d c : Nat} (hc : c < 2 ^ m) : packedPoly f m (d + 1) c = C (embed f m c) := by
  ext j
  rw [coeff_packedPoly, coeff_C]
  rcases j with _ | j
  · simp
  · -- the higher groups of `c` are empty
    have hzero : c >>> (m * (j + 1)) = 0 := by
      rw [Nat.shiftRight_eq_div_pow]
      exact Nat.div_eq_of_lt (lt_of_lt_of_le hc (Nat.pow_le_pow_right (by decide) (Nat.le_mul_of_pos_right m (by omega))))
    simp [hzero]

/-- Shifting the low `d` groups up by one group multiplies by `X`. -/
theorem packedPoly_shiftLeft (m d c : Nat) :
    packedPoly f m (d + 1) ((c % 2 ^ (m * d)) <<< m) = packedPoly f m d c * X := by
  ext j
  rw [coeff_packedPoly]
  rcases j with _ | j
  · -- the lowest group is empty
    rw [coeff_mul_X_zero, if_pos (by omega), Nat.mul_zero, Nat.shiftRight_zero, ← embed_zero f m]
    exact embed_congr f fun i hi => by simp [Nat.testBit_shiftLeft, hi]
  · rw [coeff_mul_X, coeff_packedPoly]
    by_cases hj : j < d
    · rw [if_pos (by omega), if_pos hj]
      -- group `j + 1` of the shifted word is group `j` of `c`, below bit `m * d`
      have hle : m * j + m ≤ m * d := by
        rw [← Nat.mul_succ]
        exact Nat.mul_le_mul_left m hj
      refine embed_congr f fun i hi => ?_
      rw [Nat.testBit_shiftRight, Nat.testBit_shiftRight, Nat.testBit_shiftLeft, Nat.mul_succ,
        Nat.testBit_mod_two_pow]
      simp only [show m * j + m + i ≥ m by omega, show m * j + m + i - m = m * j + i by omega,
        show m * j + i < m * d by omega, decide_true, Bool.true_and]
    · rw [if_neg (by omega), if_neg hj]

/-- A group is read from its low bits only. -/
theorem embed_mod_two_pow (m n : Nat) : embed f m (n % 2 ^ m) = embed f m n :=
  embed_congr f fun i hi => by rw [Nat.testBit_mod_two_pow, decide_eq_true hi, Bool.true_and]

/-- Words below `2 ^ (m * d)` have different polynomials when `f` has
degree `m`. -/
theorem packedPoly_inj {m d a b : Nat} (hf : f.degree = m) (ha : a < 2 ^ (m * d)) (hb : b < 2 ^ (m * d))
    (h : packedPoly f m d a = packedPoly f m d b) : a = b := by
  -- each group agrees, as the field tells groups of `m` bits apart
  have hgroup : ∀ j < d, (a >>> (m * j)) % 2 ^ m = (b >>> (m * j)) % 2 ^ m := by
    intro j hj
    have hc := congrArg (fun p => p.coeff j) h
    simp only [coeff_packedPoly, if_pos hj] at hc
    rw [← embed_mod_two_pow f m (a >>> _), ← embed_mod_two_pow f m (b >>> _)] at hc
    exact embed_inj f hf (Nat.mod_lt _ (by positivity)) (Nat.mod_lt _ (by positivity)) hc
  apply Nat.eq_of_testBit_eq
  intro k
  by_cases hk : k < m * d
  · have hm : 0 < m := Nat.pos_of_ne_zero fun h0 => by simp [h0] at hk
    have hj : k / m < d := Nat.div_lt_of_lt_mul hk
    have hbit := congrArg (fun n => n.testBit (k % m)) (hgroup (k / m) hj)
    simp only [Nat.testBit_mod_two_pow, Nat.mod_lt k hm, decide_true, Bool.true_and,
      Nat.testBit_shiftRight] at hbit
    rwa [Nat.div_add_mod] at hbit
  · rw [Nat.testBit_lt_two_pow (lt_of_lt_of_le ha (Nat.pow_le_pow_right (by decide) (by omega))),
      Nat.testBit_lt_two_pow (lt_of_lt_of_le hb (Nat.pow_le_pow_right (by decide) (by omega)))]

end Bits

end BinaryField
