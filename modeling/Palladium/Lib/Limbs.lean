import Mathlib

/-!
# Little-endian 32-bit limbs

A number held as 32-bit limbs, least significant first, is `Nat.ofDigits (2 ^ 32)` of
the limbs' values. `carryMap` is the loop that multi-precision code writes over such
limbs: each step forms a 64-bit intermediate from the carry and the next input, keeps
its low half as the output limb and passes its high half on as the next carry. Its
lemma says what the outputs stand for, provided every intermediate leaves room for the
carry.
-/

namespace Limbs

set_option autoImplicit false

/-- The number that the limbs stand for. -/
def value (l : List UInt32) : Nat := Nat.ofDigits (2 ^ 32) (l.map UInt32.toNat)

@[simp] theorem value_nil : value [] = 0 := rfl

@[simp] theorem value_cons (x : UInt32) (l : List UInt32) :
    value (x :: l) = x.toNat + 2 ^ 32 * value l := by
  simp [value, Nat.ofDigits_cons]

theorem value_append (l₁ l₂ : List UInt32) :
    value (l₁ ++ l₂) = value l₁ + 2 ^ (32 * l₁.length) * value l₂ := by
  induction l₁ with
  | nil => simp
  | cons x l ih =>
    rw [List.cons_append, value_cons, value_cons, ih, List.length_cons, Nat.mul_succ, Nat.pow_add]
    ring

theorem value_lt (l : List UInt32) : value l < 2 ^ (32 * l.length) := by
  induction l with
  | nil => simp
  | cons x l ih =>
    have hx := x.toNat_lt
    rw [value_cons, List.length_cons, Nat.mul_succ, Nat.pow_add]
    calc x.toNat + 2 ^ 32 * value l < 2 ^ 32 * (value l + 1) := by omega
      _ ≤ 2 ^ 32 * 2 ^ (32 * l.length) := Nat.mul_le_mul_left _ ih
      _ = 2 ^ (32 * l.length) * 2 ^ 32 := Nat.mul_comm _ _

@[simp] theorem value_replicate_zero (n : Nat) : value (List.replicate n 0) = 0 := by
  induction n with
  | zero => rfl
  | succ n ih => rw [List.replicate_succ, value_cons, ih]; rfl

/-- A limb read back from the value. -/
theorem toNat_getD (l : List UInt32) (i : Nat) :
    (l.getD i 0).toNat = value l / 2 ^ (32 * i) % 2 ^ 32 := by
  induction l generalizing i with
  | nil => simp
  | cons x l ih =>
    have hx := x.toNat_lt
    cases i with
    | zero => simp
    | succ i =>
      rw [List.getD_cons_succ, ih, value_cons, Nat.mul_succ, Nat.pow_add, Nat.mul_comm (2 ^ (32 * i)),
        ← Nat.div_div_eq_div_mul, Nat.add_mul_div_left _ _ (by positivity), Nat.div_eq_of_lt hx,
        Nat.zero_add]

/-- Bit `n` of the value is bit `n % 32` of limb `n / 32`. -/
theorem testBit_value (l : List UInt32) (n : Nat) :
    (value l).testBit n = (l.getD (n / 32) 0).toNat.testBit (n % 32) := by
  induction l generalizing n with
  | nil => simp
  | cons x l ih =>
    rw [value_cons, Nat.add_comm, Nat.testBit_two_pow_mul_add _ x.toNat_lt]
    split
    · rename_i h
      rw [Nat.div_eq_of_lt h, Nat.mod_eq_of_lt h, List.getD_cons_zero]
    · rename_i h
      have hdiv : n / 32 = (n - 32) / 32 + 1 := by omega
      have hmod : n % 32 = (n - 32) % 32 := by omega
      rw [ih, hdiv, hmod, List.getD_cons_succ]

/-- Limbs of one length are equal when their values are. -/
theorem eq_of_value_eq {l₁ l₂ : List UInt32} (hlen : l₁.length = l₂.length)
    (h : value l₁ = value l₂) : l₁ = l₂ := by
  induction l₁ generalizing l₂ with
  | nil => cases l₂ with
    | nil => rfl
    | cons _ _ => simp at hlen
  | cons x l ih => cases l₂ with
    | nil => simp at hlen
    | cons y m =>
      have hx := x.toNat_lt
      have hy := y.toNat_lt
      rw [value_cons, value_cons] at h
      have hxy : x.toNat = y.toNat := by omega
      have hv : value l = value m := by omega
      rw [UInt32.toNat_inj.mp hxy, ih (by simpa using hlen) hv]

theorem value_map_not (l : List UInt32) :
    value (l.map (~~~ ·)) = 2 ^ (32 * l.length) - 1 - value l := by
  induction l with
  | nil => simp
  | cons x l ih =>
    have hx := x.toNat_lt
    have hl := value_lt l
    rw [List.map_cons, value_cons, value_cons, ih, UInt32.toNat_not, List.length_cons, Nat.mul_succ,
      Nat.pow_add, UInt32.size]
    generalize 2 ^ (32 * l.length) = P at hl ⊢
    omega

/-- The digits' values add up place by place. -/
theorem ofDigits_map_add {α : Type} (b : Nat) (l : List α) (f g : α → Nat) :
    Nat.ofDigits b (l.map fun x => f x + g x) = Nat.ofDigits b (l.map f) + Nat.ofDigits b (l.map g) := by
  induction l with
  | nil => rfl
  | cons x l ih =>
    simp only [List.map_cons, Nat.ofDigits_cons, ih]
    ring

/-- A factor common to the digits comes out. -/
theorem ofDigits_map_mul {α : Type} (b c : Nat) (l : List α) (f : α → Nat) :
    Nat.ofDigits b (l.map fun x => c * f x) = c * Nat.ofDigits b (l.map f) := by
  induction l with
  | nil => simp
  | cons x l ih =>
    simp only [List.map_cons, Nat.ofDigits_cons, ih]
    ring

/-- The first limbs of a zip stand for the first list, when it is not the longer one. -/
theorem ofDigits_map_fst_zip {l₁ l₂ : List UInt32} (h : l₁.length ≤ l₂.length) :
    Nat.ofDigits (2 ^ 32) ((l₁.zip l₂).map fun p => p.1.toNat) = value l₁ := by
  conv_rhs => rw [value, ← List.map_fst_zip h, List.map_map]
  rfl

theorem ofDigits_map_snd_zip {l₁ l₂ : List UInt32} (h : l₂.length ≤ l₁.length) :
    Nat.ofDigits (2 ^ 32) ((l₁.zip l₂).map fun p => p.2.toNat) = value l₂ := by
  conv_rhs => rw [value, ← List.map_snd_zip h, List.map_map]
  rfl

/-- The second limbs of a zip stand for as many limbs of the second list as the first has. -/
theorem ofDigits_map_snd_zip_take (l₁ l₂ : List UInt32) :
    Nat.ofDigits (2 ^ 32) ((l₁.zip l₂).map fun p => p.2.toNat) = value (l₂.take l₁.length) := by
  have hzip : ∀ (m : List UInt32) (n : List UInt32), m.zip (n.take m.length) = m.zip n := by
    intro m
    induction m with
    | nil => simp
    | cons x m ih => intro n; cases n <;> simp [ih]
  rw [← hzip, ofDigits_map_snd_zip (by simp)]

/-! ## A limb plus or minus one -/

theorem toNat_of_add_one_eq_zero {x : UInt32} (h : x + 1 = 0) : x.toNat = 2 ^ 32 - 1 := by
  have hx := x.toNat_lt
  have := congrArg UInt32.toNat h
  rw [UInt32.toNat_add, UInt32.toNat_one, UInt32.toNat_zero] at this
  omega

theorem toNat_add_one_of_ne {x : UInt32} (h : x + 1 ≠ 0) : (x + 1).toNat = x.toNat + 1 := by
  have hx := x.toNat_lt
  have hne : x.toNat ≠ 2 ^ 32 - 1 := fun he => h (UInt32.toNat_inj.mp (by
    rw [UInt32.toNat_add, UInt32.toNat_one, he, UInt32.toNat_zero]; rfl))
  rw [UInt32.toNat_add, UInt32.toNat_one, Nat.mod_eq_of_lt (by omega)]

theorem toNat_of_sub_one_eq_max {x : UInt32} (h : x - 1 = 0xffffffff) : x.toNat = 0 := by
  have hx := x.toNat_lt
  have := congrArg UInt32.toNat h
  rw [UInt32.toNat_sub, UInt32.toNat_one, show (0xffffffff : UInt32).toNat = 2 ^ 32 - 1 from rfl] at this
  omega

theorem toNat_sub_one_of_ne {x : UInt32} (h : x - 1 ≠ 0xffffffff) :
    (x - 1).toNat = x.toNat - 1 ∧ 0 < x.toNat := by
  have hx := x.toNat_lt
  have hne : x.toNat ≠ 0 := fun he => h (UInt32.toNat_inj.mp (by
    rw [UInt32.toNat_sub, UInt32.toNat_one, he]; rfl))
  rw [UInt32.toNat_sub, UInt32.toNat_one]
  omega

/-! ## Bits of a shifted limb, and a limb changed in place -/

theorem testBit_shiftLeft_ofNat (x : UInt32) {s j : Nat} (hs : s < 32) (hj : j < 32) :
    (x <<< UInt32.ofNat s).toNat.testBit j = (decide (s ≤ j) && x.toNat.testBit (j - s)) := by
  rw [UInt32.toNat_shiftLeft, UInt32.toNat_ofNat', Nat.testBit_mod_two_pow, Nat.testBit_shiftLeft,
    Nat.mod_eq_of_lt (by omega : s < 2 ^ 32), Nat.mod_eq_of_lt hs]
  simp [hj]

theorem testBit_shiftRight_ofNat (x : UInt32) {t : Nat} (ht : t < 32) (j : Nat) :
    (x >>> UInt32.ofNat t).toNat.testBit j = x.toNat.testBit (j + t) := by
  rw [UInt32.toNat_shiftRight, Nat.testBit_shiftRight, UInt32.toNat_ofNat',
    Nat.mod_eq_of_lt (by omega : t < 2 ^ 32), Nat.mod_eq_of_lt ht, Nat.add_comm]

theorem testBit_toNat_of_ge (x : UInt32) {i : Nat} (h : 32 ≤ i) : x.toNat.testBit i = false :=
  Nat.testBit_lt_two_pow (lt_of_lt_of_le x.toNat_lt (Nat.pow_le_pow_right (by norm_num) h))

theorem getD_modify {α : Type} (l : List α) (j m : Nat) (f : α → α) (d : α) :
    (l.modify j f).getD m d = if j = m ∧ m < l.length then f (l.getD m d) else l.getD m d := by
  rw [List.getD_eq_getElem?_getD, List.getElem?_modify, List.getD_eq_getElem?_getD]
  by_cases hm : m < l.length
  · rw [List.getElem?_eq_getElem hm]
    by_cases hj : j = m <;> simp [hj, hm]
  · rw [List.getElem?_eq_none (by omega)]
    simp [hm]

/-- A limb ORed in place, under the guard the code writes around it. -/
theorem getD_ite_modify_or (c : Prop) [Decidable c] (l : List UInt32) (j m : Nat) (y : UInt32) :
    (if c then l.modify j (· ||| y) else l).getD m 0 =
      l.getD m 0 ||| (if c ∧ j = m ∧ m < l.length then y else 0) := by
  by_cases hc : c
  · rw [if_pos hc, getD_modify]
    by_cases h : j = m ∧ m < l.length
    · rw [if_pos h, if_pos ⟨hc, h⟩]
    · rw [if_neg h, if_neg (fun h' => h h'.2), UInt32.or_zero]
  · rw [if_neg hc, if_neg (fun h' => hc h'.1), UInt32.or_zero]

theorem getD_modify_or (l : List UInt32) (j m : Nat) (y : UInt32) :
    (l.modify j (· ||| y)).getD m 0 = l.getD m 0 ||| (if j = m ∧ m < l.length then y else 0) := by
  simpa using getD_ite_modify_or True l j m y

/-- The limbs below `i + 1` are those below `i` and limb `i`, which reads 0 past the end. -/
theorem value_take_add_one (l : List UInt32) (i : Nat) :
    value (l.take (i + 1)) = value (l.take i) + 2 ^ (32 * i) * (l.getD i 0).toNat := by
  by_cases hi : i < l.length
  · rw [List.take_add_one, List.getElem?_eq_getElem hi, List.getD_eq_getElem _ _ hi, Option.toList_some,
      value_append, List.length_take, Nat.min_eq_left hi.le, value_cons, value_nil, Nat.mul_zero,
      Nat.add_zero]
  · rw [List.take_of_length_le (by omega), List.take_of_length_le (by omega),
      List.getD_eq_default _ _ (by omega), UInt32.toNat_zero, Nat.mul_zero, Nat.add_zero]

/-- A low part below `b` survives the reduction modulo `b * m` unchanged. -/
theorem add_mul_mod_mul {lo b t m : Nat} (hlo : lo < b) :
    (lo + b * t) % (b * m) = lo + b * (t % m) := by
  rw [Nat.mod_mul, Nat.add_mul_div_left _ _ (by omega), Nat.div_eq_of_lt hlo, Nat.zero_add,
    Nat.add_mul_mod_self_left, Nat.mod_eq_of_lt hlo]

/-! ## The carry loop -/

/-- For each input `x` in order: `n = step carry x`, the output limb is
`n & 0xffffffff` and the next carry `n >> 32`. -/
def carryMap {α : Type} (step : UInt64 → α → UInt64) : UInt64 → List α → List UInt32
  | _, [] => []
  | carry, x :: xs =>
    let n := step carry x
    (n &&& 0xffffffff).toUInt32 :: carryMap step (n >>> 32) xs

@[simp] theorem length_carryMap {α : Type} (step : UInt64 → α → UInt64) (c : UInt64) (xs : List α) :
    (carryMap step c xs).length = xs.length := by
  induction xs generalizing c with
  | nil => rfl
  | cons x xs ih => simp [carryMap, ih]

theorem toNat_low (n : UInt64) : (n &&& 0xffffffff).toUInt32.toNat = n.toNat % 2 ^ 32 := by
  rw [UInt64.toNat_toUInt32, UInt64.toNat_and, show (0xffffffff : UInt64).toNat = 2 ^ 32 - 1 from rfl,
    Nat.and_two_pow_sub_one_eq_mod, Nat.mod_mod]

theorem toNat_high (n : UInt64) : (n >>> 32).toNat = n.toNat / 2 ^ 32 := by
  rw [UInt64.toNat_shiftRight, Nat.shiftRight_eq_div_pow]
  rfl

section carry

variable {α : Type} (step : UInt64 → α → UInt64) (g : α → Nat)

/-- The outputs stand for the carry plus the inputs weighted by their place, modulo
the outputs' width, when each step adds `g x` to a carry below `2 ^ 32` and leaves
room for the next carry. -/
theorem value_carryMap (hstep : ∀ c x, c.toNat < 2 ^ 32 → (step c x).toNat = c.toNat + g x)
    (hroom : ∀ x, g x ≤ 2 ^ 64 - 2 ^ 32) :
    ∀ (c : UInt64) (xs : List α), c.toNat < 2 ^ 32 →
      value (carryMap step c xs) = (c.toNat + Nat.ofDigits (2 ^ 32) (xs.map g)) % 2 ^ (32 * xs.length)
  | c, [], _ => by simp [carryMap, Nat.mod_one]
  | c, x :: xs, hc => by
    have hn := hstep c x hc
    have hx := hroom x
    -- the carry out of this step is again below `2 ^ 32`
    have hhigh : (step c x >>> 32).toNat < 2 ^ 32 := by
      rw [toNat_high, hn]
      exact Nat.div_lt_of_lt_mul (by omega)
    have ih := value_carryMap hstep hroom (step c x >>> 32) xs hhigh
    have hsplit := Nat.mod_add_div (step c x).toNat (2 ^ 32)
    rw [carryMap, value_cons, ih, toNat_low, toNat_high, List.map_cons, Nat.ofDigits_cons,
      List.length_cons, Nat.mul_succ, Nat.pow_add, Nat.mul_comm (2 ^ (32 * xs.length)),
      ← add_mul_mod_mul (Nat.mod_lt _ (by positivity))]
    congr 1
    omega

end carry

end Limbs
