import Palladium.Arith.Uint256
import Palladium.Lib.Limbs

/-!
# `base_uint` on its limbs

`arith_uint256.h` keeps a `base_uint<BITS>` as `WIDTH = BITS / 32` limbs
`pn[0..WIDTH-1]`, least significant first, and writes its operators as loops over
them. `Arith.Uint256` takes `arith_uint256` to be `BitVec 256`. This module keeps the
loops as the source writes them, for any width `W`, and shows that each computes
the arithmetic modulo `2 ^ (32 * W)` that the bit vector stands for: the carry loops
of `+=` and of the two `*=`, the loops of `++` and `--`, `~`, unary `-` and `-=`, the
two shifts, `CompareTo` and `bits()`. At 256 bits the restoring division of `/=` run
on limbs is then the loop of `Arith.divide`, and so computes the quotient.
-/

namespace Palladium.Arith

open Limbs

set_option autoImplicit false

/-- `base_uint<BITS>`: its `WIDTH` limbs `pn`, least significant first. -/
structure base_uint (WIDTH : Nat) where
  pn : List UInt32
  length_pn : pn.length = WIDTH
deriving DecidableEq

namespace base_uint

variable {W : Nat}

/-- The number the limbs stand for. -/
def value (a : base_uint W) : Nat := Limbs.value a.pn

theorem value_lt (a : base_uint W) : a.value < 2 ^ (32 * W) := by
  have h := Limbs.value_lt a.pn
  rwa [a.length_pn] at h

theorem ext_value {a b : base_uint W} (h : a.value = b.value) : a = b := by
  obtain ⟨pa, ha⟩ := a
  obtain ⟨pb, hb⟩ := b
  have : pa = pb := eq_of_value_eq (by rw [ha, hb]) h
  subst this
  rfl

/-- `base_uint()`: every limb 0. -/
def zero : base_uint W := ⟨List.replicate W 0, List.length_replicate⟩

@[simp] theorem value_zero : (zero : base_uint W).value = 0 := value_replicate_zero W

/-! ## `~`, `++`, `--` and unary `-` -/

/-- `operator~`. -/
def not (a : base_uint W) : base_uint W := ⟨a.pn.map (~~~ ·), by simp [a.length_pn]⟩

theorem value_not (a : base_uint W) : a.not.value = 2 ^ (32 * W) - 1 - a.value := by
  rw [not, value, value_map_not, a.length_pn]
  rfl

/-- The loop of `operator++`: `while (i < WIDTH && ++pn[i] == 0) i++`. -/
def incLoop : List UInt32 → List UInt32
  | [] => []
  | x :: l => if x + 1 = 0 then (x + 1) :: incLoop l else (x + 1) :: l

@[simp] theorem length_incLoop (l : List UInt32) : (incLoop l).length = l.length := by
  induction l with
  | nil => rfl
  | cons x l ih => unfold incLoop; split <;> simp [ih]

theorem value_incLoop (l : List UInt32) :
    Limbs.value (incLoop l) = (Limbs.value l + 1) % 2 ^ (32 * l.length) := by
  induction l with
  | nil => rfl
  | cons x l ih =>
    have hx := x.toNat_lt
    have hl := Limbs.value_lt l
    rw [List.length_cons, Nat.mul_succ, Nat.pow_add, Nat.mul_comm (2 ^ (32 * l.length))]
    unfold incLoop
    split
    · -- the limb wraps to 0 and the carry moves up
      rename_i h
      have hx' := toNat_of_add_one_eq_zero h
      rw [value_cons, value_cons, h, ih, UInt32.toNat_zero,
        show x.toNat + 2 ^ 32 * Limbs.value l + 1 = 0 + 2 ^ 32 * (Limbs.value l + 1) by omega,
        add_mul_mod_mul (by norm_num)]
    · rename_i h
      rw [value_cons, value_cons, toNat_add_one_of_ne h, Nat.mod_eq_of_lt]
      · omega
      · have hx' : x.toNat + 1 < 2 ^ 32 := by
          have := toNat_add_one_of_ne h ▸ (x + 1).toNat_lt
          exact this
        calc x.toNat + 2 ^ 32 * Limbs.value l + 1 < 2 ^ 32 * (Limbs.value l + 1) := by omega
          _ ≤ 2 ^ 32 * 2 ^ (32 * l.length) := Nat.mul_le_mul_left _ hl

/-- `operator++`. -/
def inc (a : base_uint W) : base_uint W := ⟨incLoop a.pn, by simp [a.length_pn]⟩

theorem value_inc (a : base_uint W) : a.inc.value = (a.value + 1) % 2 ^ (32 * W) := by
  rw [inc, value, value_incLoop, a.length_pn]
  rfl

/-- The loop of `operator--`:
`while (i < WIDTH && --pn[i] == std::numeric_limits<uint32_t>::max()) i++`. -/
def decLoop : List UInt32 → List UInt32
  | [] => []
  | x :: l => if x - 1 = 0xffffffff then (x - 1) :: decLoop l else (x - 1) :: l

@[simp] theorem length_decLoop (l : List UInt32) : (decLoop l).length = l.length := by
  induction l with
  | nil => rfl
  | cons x l ih => unfold decLoop; split <;> simp [ih]

theorem value_decLoop (l : List UInt32) :
    Limbs.value (decLoop l) = (Limbs.value l + (2 ^ (32 * l.length) - 1)) % 2 ^ (32 * l.length) := by
  induction l with
  | nil => rfl
  | cons x l ih =>
    have hx := x.toNat_lt
    have hl := Limbs.value_lt l
    rw [List.length_cons, Nat.mul_succ, Nat.pow_add, Nat.mul_comm (2 ^ (32 * l.length))]
    unfold decLoop
    split
    · -- the limb was 0: it wraps to the maximum and the borrow moves up
      rename_i h
      have hx' := toNat_of_sub_one_eq_max h
      rw [value_cons, value_cons, h, ih, show (0xffffffff : UInt32).toNat = 2 ^ 32 - 1 from rfl]
      generalize 2 ^ (32 * l.length) = P at hl ⊢
      rw [show x.toNat + 2 ^ 32 * Limbs.value l + (2 ^ 32 * P - 1) =
          (2 ^ 32 - 1) + 2 ^ 32 * (Limbs.value l + (P - 1)) by rw [Nat.mul_add, Nat.mul_sub]; omega,
        add_mul_mod_mul (by norm_num)]
    · rename_i h
      obtain ⟨hsub, hpos⟩ := toNat_sub_one_of_ne h
      rw [value_cons, value_cons, hsub]
      generalize 2 ^ (32 * l.length) = P at hl ⊢
      have hlt : x.toNat - 1 + 2 ^ 32 * Limbs.value l < 2 ^ 32 * P := by
        have : 2 ^ 32 * (Limbs.value l + 1) ≤ 2 ^ 32 * P := Nat.mul_le_mul_left _ hl
        omega
      rw [show x.toNat + 2 ^ 32 * Limbs.value l + (2 ^ 32 * P - 1) =
          (x.toNat - 1 + 2 ^ 32 * Limbs.value l) + 2 ^ 32 * P by omega,
        Nat.add_mod_right, Nat.mod_eq_of_lt hlt]

/-- `operator--`. -/
def dec (a : base_uint W) : base_uint W := ⟨decLoop a.pn, by simp [a.length_pn]⟩

theorem value_dec (a : base_uint W) :
    a.dec.value = (a.value + (2 ^ (32 * W) - 1)) % 2 ^ (32 * W) := by
  rw [dec, value, value_decLoop, a.length_pn]
  rfl

/-- Unary `operator-`: every limb inverted, then `++`. -/
def neg (a : base_uint W) : base_uint W := a.not.inc

theorem value_neg (a : base_uint W) : a.neg.value = (2 ^ (32 * W) - a.value) % 2 ^ (32 * W) := by
  have ha := a.value_lt
  rw [neg, value_inc, value_not]
  congr 1
  omega

/-! ## The carry loops of `+=` and `*=` -/

/-- `operator+=`: `n = carry + pn[i] + b.pn[i]`, its low half to `pn[i]`, its high
half the next carry. -/
def add (a b : base_uint W) : base_uint W :=
  ⟨carryMap (fun carry (p : UInt32 × UInt32) => carry + p.1.toUInt64 + p.2.toUInt64) 0 (a.pn.zip b.pn),
    by simp [a.length_pn, b.length_pn]⟩

theorem value_add (a b : base_uint W) : (a.add b).value = (a.value + b.value) % 2 ^ (32 * W) := by
  have hlen : (a.pn.zip b.pn).length = W := by simp [a.length_pn, b.length_pn]
  rw [add, value, value_carryMap _ (fun p => p.1.toNat + p.2.toNat), ofDigits_map_add,
    ofDigits_map_fst_zip (by rw [a.length_pn, b.length_pn]),
    ofDigits_map_snd_zip (by rw [a.length_pn, b.length_pn]), hlen, UInt64.toNat_zero, Nat.zero_add]
  · rfl
  · intro c p hc
    have h1 := p.1.toNat_lt
    have h2 := p.2.toNat_lt
    rw [UInt64.toNat_add, UInt64.toNat_add, UInt32.toNat_toUInt64, UInt32.toNat_toUInt64,
      Nat.mod_eq_of_lt (by omega), Nat.mod_eq_of_lt (by omega), Nat.add_assoc]
  · intro p
    have h1 := p.1.toNat_lt
    have h2 := p.2.toNat_lt
    omega
  · simp

/-- `operator-=`: `*this += -b`. -/
def sub (a b : base_uint W) : base_uint W := a.add b.neg

theorem value_sub (a b : base_uint W) :
    (a.sub b).value = (a.value + (2 ^ (32 * W) - b.value)) % 2 ^ (32 * W) := by
  rw [sub, value_add, value_neg, Nat.add_mod_mod]

/-- The subtraction of a smaller value is exact. -/
theorem value_sub_of_le {a b : base_uint W} (h : b.value ≤ a.value) :
    (a.sub b).value = a.value - b.value := by
  have ha := a.value_lt
  rw [value_sub, show a.value + (2 ^ (32 * W) - b.value) = a.value - b.value + 2 ^ (32 * W) by omega,
    Nat.add_mod_right, Nat.mod_eq_of_lt (by omega)]

/-- `operator*=(uint32_t b32)`: `n = carry + (uint64_t)b32 * pn[i]`. -/
def mul32 (a : base_uint W) (b32 : UInt32) : base_uint W :=
  ⟨carryMap (fun carry (x : UInt32) => carry + b32.toUInt64 * x.toUInt64) 0 a.pn, by simp [a.length_pn]⟩

/-- A product of two limbs plus two more limbs fits 64 bits, with nothing to spare. -/
theorem mul_add_add_le {x y c d : Nat} (hx : x < 2 ^ 32) (hy : y < 2 ^ 32) (hc : c < 2 ^ 32) (hd : d < 2 ^ 32) :
    c + d + x * y < 2 ^ 64 := by
  have : x * y ≤ (2 ^ 32 - 1) * (2 ^ 32 - 1) := Nat.mul_le_mul (by omega) (by omega)
  omega

theorem value_mul32 (a : base_uint W) (b32 : UInt32) :
    (a.mul32 b32).value = a.value * b32.toNat % 2 ^ (32 * W) := by
  have hb := b32.toNat_lt
  rw [mul32, value, value_carryMap _ (fun x => b32.toNat * x.toNat), ofDigits_map_mul, a.length_pn]
  · rw [UInt64.toNat_zero, Nat.zero_add, Nat.mul_comm]
    rfl
  · intro c x hc
    have hx := x.toNat_lt
    have hfit := mul_add_add_le hb hx hc (Nat.zero_lt_succ _ : 0 < 2 ^ 32)
    rw [UInt64.toNat_add, UInt64.toNat_mul, UInt32.toNat_toUInt64, UInt32.toNat_toUInt64,
      Nat.mod_eq_of_lt (by omega), Nat.mod_eq_of_lt (by omega)]
  · intro x
    have hx := x.toNat_lt
    have : b32.toNat * x.toNat ≤ (2 ^ 32 - 1) * (2 ^ 32 - 1) := Nat.mul_le_mul (by omega) (by omega)
    omega
  · simp

/-- The inner loop of `operator*=` for the limb `x = pn[j]`: while `i + j < WIDTH`,
`n = carry + a.pn[i + j] + (uint64_t)pn[j] * b.pn[i]` and its low half goes to
`a.pn[i + j]`. It runs over the limbs of the product from `j` on, paired with those
of `b`. -/
def mulRow (x : UInt32) (acc b : List UInt32) : List UInt32 :=
  carryMap (fun carry (p : UInt32 × UInt32) => carry + p.1.toUInt64 + x.toUInt64 * p.2.toUInt64) 0
    (acc.zip b)

/-- Row `j` of `operator*=`: the limbs of the product below `j` stay as they are. -/
def mulStep (pn b acc : List UInt32) (j : Nat) : List UInt32 :=
  acc.take j ++ mulRow (pn.getD j 0) (acc.drop j) b

theorem length_mulStep (pn b acc : List UInt32) (j : Nat) (h : acc.length ≤ b.length) :
    (mulStep pn b acc j).length = acc.length := by
  simp [mulStep, mulRow]
  omega

theorem length_foldl_mulStep (pn b : List UInt32) (js : List Nat) :
    ∀ acc : List UInt32, acc.length ≤ b.length → (js.foldl (mulStep pn b) acc).length = acc.length := by
  induction js with
  | nil => intro acc _; rfl
  | cons j js ih =>
    intro acc h
    rw [List.foldl_cons, ih _ (by rw [length_mulStep _ _ _ _ h]; exact h), length_mulStep _ _ _ _ h]

/-- `operator*=(const base_uint& b)`: the product starts at 0 and takes row `j` for
each `j < WIDTH`. -/
def mul (a b : base_uint W) : base_uint W :=
  ⟨(List.range W).foldl (mulStep a.pn b.pn) (List.replicate W 0),
    by rw [length_foldl_mulStep _ _ _ _ (by simp [b.length_pn]), List.length_replicate]⟩

theorem value_mulRow (x : UInt32) (acc b : List UInt32) (h : acc.length ≤ b.length) :
    Limbs.value (mulRow x acc b) =
      (Limbs.value acc + x.toNat * Limbs.value (b.take acc.length)) % 2 ^ (32 * acc.length) := by
  have hx := x.toNat_lt
  have hlen : (acc.zip b).length = acc.length := by simp; omega
  rw [mulRow, value_carryMap _ (fun p => p.1.toNat + x.toNat * p.2.toNat), ofDigits_map_add,
    ofDigits_map_fst_zip h, ofDigits_map_mul, ofDigits_map_snd_zip_take, hlen, UInt64.toNat_zero,
    Nat.zero_add]
  · intro c p hc
    have h1 := p.1.toNat_lt
    have h2 := p.2.toNat_lt
    have hfit := mul_add_add_le hx h2 hc h1
    rw [UInt64.toNat_add, UInt64.toNat_add, UInt64.toNat_mul, UInt32.toNat_toUInt64,
      UInt32.toNat_toUInt64, UInt32.toNat_toUInt64, Nat.mod_eq_of_lt (by omega),
      Nat.mod_eq_of_lt (by omega), Nat.mod_eq_of_lt (by omega), Nat.add_assoc]
  · intro p
    have h1 := p.1.toNat_lt
    have h2 := p.2.toNat_lt
    have : x.toNat * p.2.toNat ≤ (2 ^ 32 - 1) * (2 ^ 32 - 1) := Nat.mul_le_mul (by omega) (by omega)
    omega
  · simp

/-- Row `j` adds `pn[j] * b`, shifted up `j` limbs, to the product. -/
theorem value_mulStep (pn b acc : List UInt32) {j : Nat} (hj : j < acc.length)
    (hlen : acc.length = b.length) :
    Limbs.value (mulStep pn b acc j) =
      (Limbs.value acc + 2 ^ (32 * j) * ((pn.getD j 0).toNat * Limbs.value b)) % 2 ^ (32 * acc.length) := by
  set L := acc.length
  set x := (pn.getD j 0).toNat
  have hacc := List.take_append_drop j acc
  have hb := List.take_append_drop (L - j) b
  have hT := Limbs.value_lt (acc.take j)
  rw [List.length_take, Nat.min_eq_left hj.le] at hT
  have hdrop : (acc.drop j).length = L - j := List.length_drop
  -- the product's value split at limb `j`, and `b`'s at limb `L - j`
  have hvacc : Limbs.value acc = Limbs.value (acc.take j) + 2 ^ (32 * j) * Limbs.value (acc.drop j) := by
    conv_lhs => rw [← hacc]
    rw [value_append, List.length_take, Nat.min_eq_left hj.le]
  have hvb : Limbs.value b =
      Limbs.value (b.take (L - j)) + 2 ^ (32 * (L - j)) * Limbs.value (b.drop (L - j)) := by
    conv_lhs => rw [← hb]
    rw [value_append, List.length_take, Nat.min_eq_left (by omega)]
  have hpow : 2 ^ (32 * L) = 2 ^ (32 * j) * 2 ^ (32 * (L - j)) := by
    rw [← Nat.pow_add]; congr 1; omega
  rw [mulStep, value_append, List.length_take, Nat.min_eq_left hj.le,
    value_mulRow _ _ _ (by omega), hdrop, hvacc, hvb, hpow, Nat.add_assoc, ← Nat.mul_add,
    add_mul_mod_mul hT]
  congr 2
  rw [Nat.mul_add, ← Nat.add_assoc, Nat.mul_left_comm, Nat.add_mul_mod_self_left]

theorem value_foldl_mulStep (pn b : List UInt32) (hlen : pn.length = b.length) :
    ∀ n, n ≤ b.length →
      Limbs.value ((List.range n).foldl (mulStep pn b) (List.replicate b.length 0)) =
        Limbs.value (pn.take n) * Limbs.value b % 2 ^ (32 * b.length) := by
  intro n
  induction n with
  | zero => intro _; simp
  | succ n ih =>
    intro hn
    have hacc := length_foldl_mulStep pn b (List.range n) (List.replicate b.length 0) (by simp)
    rw [List.length_replicate] at hacc
    have hpn : pn.take (n + 1) = pn.take n ++ [pn.getD n 0] := by
      rw [List.take_add_one, List.getElem?_eq_getElem (by omega), List.getD_eq_getElem _ _ (by omega)]
      rfl
    rw [List.range_succ, List.foldl_append, List.foldl_cons, List.foldl_nil,
      value_mulStep _ _ _ (by omega) hacc, ih (by omega), hacc, Nat.mod_add_mod, hpn, value_append,
      List.length_take, Nat.min_eq_left (by omega), value_cons, value_nil]
    congr 1
    ring

theorem value_mul (a b : base_uint W) : (a.mul b).value = a.value * b.value % 2 ^ (32 * W) := by
  have h := value_foldl_mulStep a.pn b.pn (by rw [a.length_pn, b.length_pn]) W (by rw [b.length_pn])
  rw [b.length_pn, List.take_of_length_le (by rw [a.length_pn])] at h
  exact h

example : (mul ⟨[0xffffffff, 0], rfl⟩ ⟨[0xffffffff, 0], rfl⟩ : base_uint 2).pn = [1, 0xfffffffe] := by
  decide

/-! ## The shifts -/

theorem length_foldl {f : List UInt32 → Nat → List UInt32} (hf : ∀ r i, (f r i).length = r.length)
    (js : List Nat) (r : List UInt32) : (js.foldl f r).length = r.length := by
  induction js generalizing r with
  | nil => rfl
  | cons j js ih => rw [List.foldl_cons, ih, hf]

/-- One pass of the loop of `operator<<=`, for the limb `a.pn[i]` of the copy `a`, with
`k = shift / 32` and `s = shift % 32`: the bits shifted out of the limb go to
`pn[i + k + 1]` (not when `s = 0`, where `>> 32` would be undefined), the rest to
`pn[i + k]`. -/
def shlPass (width : Nat) (a : List UInt32) (k s : Nat) (r : List UInt32) (i : Nat) : List UInt32 :=
  let r := if i + k + 1 < width ∧ s ≠ 0 then r.modify (i + k + 1) (· ||| a.getD i 0 >>> UInt32.ofNat (32 - s))
    else r
  if i + k < width then r.modify (i + k) (· ||| a.getD i 0 <<< UInt32.ofNat s) else r

@[simp] theorem length_shlPass (width : Nat) (a : List UInt32) (k s : Nat) (r : List UInt32) (i : Nat) :
    (shlPass width a k s r i).length = r.length := by
  unfold shlPass
  split_ifs <;> simp

/-- `operator<<=(unsigned int shift)`. -/
def shiftLeft (a : base_uint W) (shift : UInt32) : base_uint W :=
  ⟨(List.range W).foldl (shlPass W a.pn (shift.toNat / 32) (shift.toNat % 32)) (List.replicate W 0),
    by rw [length_foldl (length_shlPass _ _ _ _), List.length_replicate]⟩

/-- What the passes below `n` of `<<=` put into limb `m` from the limb `m - k`. -/
def shlLow (width : Nat) (a : List UInt32) (k s n m : Nat) : UInt32 :=
  if k ≤ m ∧ m - k < n ∧ m < width then a.getD (m - k) 0 <<< UInt32.ofNat s else 0

/-- What they put there from the limb below it. -/
def shlHigh (width : Nat) (a : List UInt32) (k s n m : Nat) : UInt32 :=
  if s ≠ 0 ∧ k + 1 ≤ m ∧ m - k - 1 < n ∧ m < width then a.getD (m - k - 1) 0 >>> UInt32.ofNat (32 - s)
  else 0

/-- One pass ORs into limb `m` at most its two writes. -/
theorem getD_shlPass (width : Nat) (a : List UInt32) (k s : Nat) {r : List UInt32} (hr : r.length = width)
    (i m : Nat) :
    (shlPass width a k s r i).getD m 0 =
      r.getD m 0 ||| (if m = i + k + 1 ∧ m < width ∧ s ≠ 0 then a.getD i 0 >>> UInt32.ofNat (32 - s) else 0)
        ||| (if m = i + k ∧ m < width then a.getD i 0 <<< UInt32.ofNat s else 0) := by
  have hlen : (if i + k + 1 < width ∧ s ≠ 0 then
      r.modify (i + k + 1) (· ||| a.getD i 0 >>> UInt32.ofNat (32 - s)) else r).length = width := by
    split_ifs <;> simp [hr]
  unfold shlPass
  dsimp only
  have e1 : ((i + k + 1 < width ∧ s ≠ 0) ∧ i + k + 1 = m ∧ m < width) ↔ (m = i + k + 1 ∧ m < width ∧ s ≠ 0) := by
    omega
  have e2 : (i + k < width ∧ i + k = m ∧ m < width) ↔ (m = i + k ∧ m < width) := by omega
  rw [getD_ite_modify_or, hlen, getD_ite_modify_or, hr]
  simp only [e1, e2]

theorem getD_foldl_shlPass (width : Nat) (a : List UInt32) (k s : Nat) :
    ∀ n m, ((List.range n).foldl (shlPass width a k s) (List.replicate width 0)).getD m 0 =
      shlLow width a k s n m ||| shlHigh width a k s n m := by
  intro n
  induction n with
  | zero => intro m; simp [shlLow, shlHigh]
  | succ n ih =>
    intro m
    have hr : ((List.range n).foldl (shlPass width a k s) (List.replicate width 0)).length = width := by
      rw [length_foldl (length_shlPass _ _ _ _), List.length_replicate]
    -- pass `n` adds the limb `n` to limbs `n + k` and `n + k + 1`
    have hlow : shlLow width a k s (n + 1) m =
        shlLow width a k s n m ||| (if m = n + k ∧ m < width then a.getD n 0 <<< UInt32.ofNat s else 0) := by
      unfold shlLow
      by_cases h : m = n + k ∧ m < width
      · rw [if_pos h, if_pos ⟨by omega, by omega, h.2⟩, if_neg (by omega), UInt32.zero_or,
          show m - k = n by omega]
      · rw [if_neg h, UInt32.or_zero]
        by_cases h' : k ≤ m ∧ m - k < n ∧ m < width
        · rw [if_pos ⟨h'.1, by omega, h'.2.2⟩, if_pos h']
        · rw [if_neg h', if_neg (by omega)]
    have hhigh : shlHigh width a k s (n + 1) m =
        shlHigh width a k s n m |||
          (if m = n + k + 1 ∧ m < width ∧ s ≠ 0 then a.getD n 0 >>> UInt32.ofNat (32 - s) else 0) := by
      unfold shlHigh
      by_cases h : m = n + k + 1 ∧ m < width ∧ s ≠ 0
      · rw [if_pos h, if_pos ⟨h.2.2, by omega, by omega, h.2.1⟩, if_neg (by omega), UInt32.zero_or,
          show m - k - 1 = n by omega]
      · rw [if_neg h, UInt32.or_zero]
        by_cases h' : s ≠ 0 ∧ k + 1 ≤ m ∧ m - k - 1 < n ∧ m < width
        · rw [if_pos ⟨h'.1, h'.2.1, by omega, h'.2.2.2⟩, if_pos h']
        · rw [if_neg h', if_neg (by omega)]
    rw [List.range_succ, List.foldl_append, List.foldl_cons, List.foldl_nil, getD_shlPass _ _ _ _ hr,
      ih, hlow, hhigh]
    ac_rfl

theorem value_shiftLeft (a : base_uint W) (shift : UInt32) :
    (a.shiftLeft shift).value = a.value * 2 ^ shift.toNat % 2 ^ (32 * W) := by
  apply Nat.eq_of_testBit_eq
  intro n
  have hn : n = 32 * (n / 32) + n % 32 := (Nat.div_add_mod n 32).symm
  have hj : n % 32 < 32 := Nat.mod_lt _ (by norm_num)
  rw [value, shiftLeft]
  dsimp only
  rw [testBit_value, getD_foldl_shlPass, UInt32.toNat_or, Nat.testBit_or, Nat.testBit_mod_two_pow,
    Nat.testBit_mul_two_pow, value, testBit_value]
  have hS : shift.toNat = 32 * (shift.toNat / 32) + shift.toNat % 32 := (Nat.div_add_mod _ _).symm
  have hs : shift.toNat % 32 < 32 := Nat.mod_lt _ (by norm_num)
  generalize shift.toNat / 32 = k at hS ⊢
  generalize shift.toNat % 32 = s at hS hs ⊢
  rw [hS]
  generalize n / 32 = m at hn
  generalize n % 32 = j at hn hj
  subst hn
  unfold shlLow shlHigh
  by_cases hm : m < W
  · by_cases hkm : k ≤ m
    · by_cases hjs : s ≤ j
      · -- the bit is bit `j - s` of limb `m - k`; the limb below gives none
        have hq : (32 * m + j - (32 * k + s)) / 32 = m - k := by omega
        have hr : (32 * m + j - (32 * k + s)) % 32 = j - s := by omega
        rw [if_pos ⟨hkm, by omega, hm⟩, testBit_shiftLeft_ofNat _ hs hj, hq, hr]
        split_ifs
        · rw [testBit_shiftRight_ofNat _ (by omega),
            testBit_toNat_of_ge _ (show 32 ≤ j + (32 - s) by omega)]
          simp [hjs, show 32 * k + s ≤ 32 * m + j by omega, show 32 * m + j < 32 * W by omega]
        · simp [hjs, show 32 * k + s ≤ 32 * m + j by omega, show 32 * m + j < 32 * W by omega]
      · -- the bit is bit `j + 32 - s` of limb `m - k - 1`, if there is one
        rw [if_pos ⟨hkm, by omega, hm⟩, testBit_shiftLeft_ofNat _ hs hj, decide_eq_false (by omega),
          Bool.false_and, Bool.false_or]
        by_cases hkm' : k + 1 ≤ m
        · have hq : (32 * m + j - (32 * k + s)) / 32 = m - k - 1 := by omega
          have hr : (32 * m + j - (32 * k + s)) % 32 = j + (32 - s) := by omega
          rw [if_pos ⟨by omega, hkm', by omega, hm⟩, testBit_shiftRight_ofNat _ (by omega), hq, hr]
          simp [show 32 * k + s ≤ 32 * m + j by omega, show 32 * m + j < 32 * W by omega]
        · rw [if_neg (by omega), UInt32.toNat_zero, Nat.zero_testBit]
          simp [show ¬ 32 * k + s ≤ 32 * m + j by omega]
    · -- the shift moves every bit of `a` above this one
      rw [if_neg (by omega), if_neg (by omega), UInt32.toNat_zero, Nat.zero_testBit]
      simp [show ¬ 32 * k + s ≤ 32 * m + j by omega]
  · -- past the top limb
    rw [if_neg (by omega), if_neg (by omega), UInt32.toNat_zero, Nat.zero_testBit]
    simp [show ¬ 32 * m + j < 32 * W by omega]

/-- One pass of the loop of `operator>>=`, for the limb `a.pn[i]`: the bits shifted
out of the limb go to `pn[i - k - 1]` (not when `s = 0`), the rest to `pn[i - k]`. -/
def shrPass (a : List UInt32) (k s : Nat) (r : List UInt32) (i : Nat) : List UInt32 :=
  let r := if k + 1 ≤ i ∧ s ≠ 0 then r.modify (i - k - 1) (· ||| a.getD i 0 <<< UInt32.ofNat (32 - s))
    else r
  if k ≤ i then r.modify (i - k) (· ||| a.getD i 0 >>> UInt32.ofNat s) else r

@[simp] theorem length_shrPass (a : List UInt32) (k s : Nat) (r : List UInt32) (i : Nat) :
    (shrPass a k s r i).length = r.length := by
  unfold shrPass
  split_ifs <;> simp

/-- `operator>>=(unsigned int shift)`. -/
def shiftRight (a : base_uint W) (shift : UInt32) : base_uint W :=
  ⟨(List.range W).foldl (shrPass a.pn (shift.toNat / 32) (shift.toNat % 32)) (List.replicate W 0),
    by rw [length_foldl (length_shrPass _ _ _), List.length_replicate]⟩

/-- What the passes below `n` of `>>=` put into limb `m` from the limb `m + k`. -/
def shrLow (width : Nat) (a : List UInt32) (k s n m : Nat) : UInt32 :=
  if m + k < n ∧ m < width then a.getD (m + k) 0 >>> UInt32.ofNat s else 0

/-- What they put there from the limb above it. -/
def shrHigh (width : Nat) (a : List UInt32) (k s n m : Nat) : UInt32 :=
  if s ≠ 0 ∧ m + k + 1 < n ∧ m < width then a.getD (m + k + 1) 0 <<< UInt32.ofNat (32 - s) else 0

theorem getD_shrPass (width : Nat) (a : List UInt32) (k s : Nat) {r : List UInt32} (hr : r.length = width)
    (i m : Nat) :
    (shrPass a k s r i).getD m 0 =
      r.getD m 0 ||| (if m + k + 1 = i ∧ m < width ∧ s ≠ 0 then a.getD i 0 <<< UInt32.ofNat (32 - s) else 0)
        ||| (if m + k = i ∧ m < width then a.getD i 0 >>> UInt32.ofNat s else 0) := by
  have hlen : (if k + 1 ≤ i ∧ s ≠ 0 then
      r.modify (i - k - 1) (· ||| a.getD i 0 <<< UInt32.ofNat (32 - s)) else r).length = width := by
    split_ifs <;> simp [hr]
  have e1 : ((k + 1 ≤ i ∧ s ≠ 0) ∧ i - k - 1 = m ∧ m < width) ↔ (m + k + 1 = i ∧ m < width ∧ s ≠ 0) := by
    omega
  have e2 : (k ≤ i ∧ i - k = m ∧ m < width) ↔ (m + k = i ∧ m < width) := by omega
  unfold shrPass
  dsimp only
  rw [getD_ite_modify_or, hlen, getD_ite_modify_or, hr]
  simp only [e1, e2]

theorem getD_foldl_shrPass (width : Nat) (a : List UInt32) (k s : Nat) :
    ∀ n m, ((List.range n).foldl (shrPass a k s) (List.replicate width 0)).getD m 0 =
      shrLow width a k s n m ||| shrHigh width a k s n m := by
  intro n
  induction n with
  | zero => intro m; simp [shrLow, shrHigh]
  | succ n ih =>
    intro m
    have hr : ((List.range n).foldl (shrPass a k s) (List.replicate width 0)).length = width := by
      rw [length_foldl (length_shrPass _ _ _), List.length_replicate]
    -- pass `n` adds the limb `n` to limbs `n - k` and `n - k - 1`
    have hlow : shrLow width a k s (n + 1) m =
        shrLow width a k s n m ||| (if m + k = n ∧ m < width then a.getD n 0 >>> UInt32.ofNat s else 0) := by
      unfold shrLow
      by_cases h : m + k = n ∧ m < width
      · rw [if_pos h, if_pos ⟨by omega, h.2⟩, if_neg (by omega), UInt32.zero_or, h.1]
      · rw [if_neg h, UInt32.or_zero]
        by_cases h' : m + k < n ∧ m < width
        · rw [if_pos ⟨by omega, h'.2⟩, if_pos h']
        · rw [if_neg h', if_neg (by omega)]
    have hhigh : shrHigh width a k s (n + 1) m =
        shrHigh width a k s n m |||
          (if m + k + 1 = n ∧ m < width ∧ s ≠ 0 then a.getD n 0 <<< UInt32.ofNat (32 - s) else 0) := by
      unfold shrHigh
      by_cases h : m + k + 1 = n ∧ m < width ∧ s ≠ 0
      · rw [if_pos h, if_pos ⟨h.2.2, by omega, h.2.1⟩, if_neg (by omega), UInt32.zero_or, h.1]
      · rw [if_neg h, UInt32.or_zero]
        by_cases h' : s ≠ 0 ∧ m + k + 1 < n ∧ m < width
        · rw [if_pos ⟨h'.1, by omega, h'.2.2⟩, if_pos h']
        · rw [if_neg h', if_neg (by omega)]
    rw [List.range_succ, List.foldl_append, List.foldl_cons, List.foldl_nil, getD_shrPass _ _ _ _ hr,
      ih, hlow, hhigh]
    ac_rfl

theorem value_shiftRight (a : base_uint W) (shift : UInt32) :
    (a.shiftRight shift).value = a.value / 2 ^ shift.toNat := by
  apply Nat.eq_of_testBit_eq
  intro n
  have hn : n = 32 * (n / 32) + n % 32 := (Nat.div_add_mod n 32).symm
  have hj : n % 32 < 32 := Nat.mod_lt _ (by norm_num)
  rw [value, shiftRight]
  dsimp only
  rw [testBit_value, getD_foldl_shrPass W, UInt32.toNat_or, Nat.testBit_or, Nat.testBit_div_two_pow,
    value, testBit_value]
  have hS : shift.toNat = 32 * (shift.toNat / 32) + shift.toNat % 32 := (Nat.div_add_mod _ _).symm
  have hs : shift.toNat % 32 < 32 := Nat.mod_lt _ (by norm_num)
  generalize shift.toNat / 32 = k at hS ⊢
  generalize shift.toNat % 32 = s at hS hs ⊢
  rw [hS]
  generalize n / 32 = m at hn
  generalize n % 32 = j at hn hj
  subst hn
  -- limbs past the top read as 0
  have hout : ∀ i, W ≤ i → (a.pn.getD i 0).toNat.testBit (j + s) = false := by
    intro i hi
    rw [List.getD_eq_default _ _ (by rw [a.length_pn]; exact hi), UInt32.toNat_zero, Nat.zero_testBit]
  unfold shrLow shrHigh
  by_cases hjs : j + s < 32
  · -- the bit is bit `j + s` of limb `m + k`; the limb above gives none
    have hq : (32 * m + j + (32 * k + s)) / 32 = m + k := by omega
    have hr : (32 * m + j + (32 * k + s)) % 32 = j + s := by omega
    rw [hq, hr]
    have hhigh : (shrHigh W a.pn k s W m).toNat.testBit j = false := by
      unfold shrHigh
      split_ifs
      · rw [testBit_shiftLeft_ofNat _ (by omega) hj, decide_eq_false (by omega), Bool.false_and]
      · rw [UInt32.toNat_zero, Nat.zero_testBit]
    unfold shrHigh at hhigh
    rw [hhigh, Bool.or_false]
    by_cases hmk : m + k < W
    · rw [if_pos ⟨hmk, by omega⟩, testBit_shiftRight_ofNat _ hs]
    · rw [if_neg (by omega), UInt32.toNat_zero, Nat.zero_testBit, hout _ (by omega)]
  · -- the bit is bit `j + s - 32` of limb `m + k + 1`; the limb itself gives none
    have hq : (32 * m + j + (32 * k + s)) / 32 = m + k + 1 := by omega
    have hr : (32 * m + j + (32 * k + s)) % 32 = j - (32 - s) := by omega
    rw [hq, hr]
    have hlow : (shrLow W a.pn k s W m).toNat.testBit j = false := by
      unfold shrLow
      split_ifs
      · rw [testBit_shiftRight_ofNat _ hs, testBit_toNat_of_ge _ (show 32 ≤ j + s by omega)]
      · rw [UInt32.toNat_zero, Nat.zero_testBit]
    unfold shrLow at hlow
    rw [hlow, Bool.false_or]
    by_cases hmk : m + k + 1 < W
    · rw [if_pos ⟨by omega, hmk, by omega⟩, testBit_shiftLeft_ofNat _ (by omega) hj,
        decide_eq_true (by omega), Bool.true_and]
    · rw [if_neg (by omega), UInt32.toNat_zero, Nat.zero_testBit,
        List.getD_eq_default _ _ (by rw [a.length_pn]; omega), UInt32.toNat_zero, Nat.zero_testBit]

/-! ## `CompareTo` and `bits()` -/

/-- The loop of `CompareTo` over the limbs below `i`, from the top down. -/
def compareFrom (a b : List UInt32) : Nat → Int
  | 0 => 0
  | i + 1 =>
    if a.getD i 0 < b.getD i 0 then -1 else if a.getD i 0 > b.getD i 0 then 1 else compareFrom a b i

/-- `base_uint::CompareTo`. -/
def CompareTo (a b : base_uint W) : Int := compareFrom a.pn b.pn W

/-- A number with a smaller top digit is smaller, whatever its lower part. -/
theorem add_mul_lt_add_mul {A B P x y : Nat} (hA : A < P) (hxy : x < y) : A + P * x < B + P * y :=
  calc A + P * x < P * (x + 1) := by rw [Nat.mul_succ]; omega
    _ ≤ P * y := Nat.mul_le_mul_left _ hxy
    _ ≤ B + P * y := Nat.le_add_left _ _

theorem compareFrom_eq (a b : List UInt32) (i : Nat) :
    compareFrom a b i =
      if Limbs.value (a.take i) < Limbs.value (b.take i) then -1
      else if Limbs.value (b.take i) < Limbs.value (a.take i) then 1 else 0 := by
  induction i with
  | zero => simp [compareFrom]
  | succ i ih =>
    have hA := Limbs.value_lt (a.take i)
    have hB := Limbs.value_lt (b.take i)
    have hA' : Limbs.value (a.take i) < 2 ^ (32 * i) :=
      lt_of_lt_of_le hA (Nat.pow_le_pow_right (by norm_num) (by simp))
    have hB' : Limbs.value (b.take i) < 2 ^ (32 * i) :=
      lt_of_lt_of_le hB (Nat.pow_le_pow_right (by norm_num) (by simp))
    rw [compareFrom, value_take_add_one, value_take_add_one]
    -- the top limbs decide, and the limbs below when they are equal
    by_cases hlt : a.getD i 0 < b.getD i 0
    · have h := add_mul_lt_add_mul (B := Limbs.value (b.take i)) hA' (UInt32.lt_iff_toNat_lt.mp hlt)
      rw [if_pos hlt, if_pos h]
    · by_cases hgt : a.getD i 0 > b.getD i 0
      · have h := add_mul_lt_add_mul (B := Limbs.value (a.take i)) hB' (UInt32.lt_iff_toNat_lt.mp hgt)
        rw [if_neg hlt, if_pos hgt, if_neg (by omega), if_pos h]
      · have heq : a.getD i 0 = b.getD i 0 := by
          apply UInt32.toNat_inj.mp
          have h1 := UInt32.lt_iff_toNat_lt.not.mp hlt
          have h2 := UInt32.lt_iff_toNat_lt.not.mp hgt
          omega
        rw [if_neg hlt, if_neg hgt, ih, heq]
        simp only [Nat.add_lt_add_iff_right]

theorem CompareTo_eq (a b : base_uint W) :
    a.CompareTo b = if a.value < b.value then -1 else if b.value < a.value then 1 else 0 := by
  rw [CompareTo, compareFrom_eq, List.take_of_length_le (by rw [a.length_pn]),
    List.take_of_length_le (by rw [b.length_pn])]
  rfl

/-- `num >= div`, as `operator>=` reads `CompareTo`. -/
theorem CompareTo_nonneg_iff (a b : base_uint W) : a.CompareTo b ≥ 0 ↔ b.value ≤ a.value := by
  rw [CompareTo_eq]
  split_ifs <;> omega

/-- The outer loop of `bits()`, over the limbs below `pos`, highest first; `topBit`
is its inner loop over the bits of the limb. -/
def bitsFrom (pn : List UInt32) : Nat → Nat
  | 0 => 0
  | pos + 1 =>
    if pn.getD pos 0 ≠ 0 then 32 * pos + topBit (pn.getD pos 0).toNat 31 + 1 else bitsFrom pn pos

/-- `base_uint::bits`. -/
def bits (a : base_uint W) : Nat := bitsFrom a.pn W

theorem bitsFrom_eq (pn : List UInt32) (pos : Nat) :
    bitsFrom pn pos = (Limbs.value (pn.take pos)).size := by
  induction pos with
  | zero => simp [bitsFrom]
  | succ pos ih =>
    have hlow : Limbs.value (pn.take pos) < 2 ^ (32 * pos) :=
      lt_of_lt_of_le (Limbs.value_lt _) (Nat.pow_le_pow_right (by norm_num) (by simp))
    rw [bitsFrom, value_take_add_one]
    split
    · -- the top non-zero limb fixes the length
      rename_i h0
      have h0' : (pn.getD pos 0).toNat ≠ 0 := fun h => h0 (UInt32.toNat_inj.mp h)
      rw [show Limbs.value (pn.take pos) + 2 ^ (32 * pos) * (pn.getD pos 0).toNat =
          (pn.getD pos 0).toNat * 2 ^ (32 * pos) + Limbs.value (pn.take pos) by ring,
        size_mul_two_pow_add h0' hlow, ← topBit_add_one 31 h0' (pn.getD pos 0).toNat_lt]
      ring
    · rename_i h0
      rw [not_not.mp h0, UInt32.toNat_zero, Nat.mul_zero, Nat.add_zero, ih]

theorem bits_eq_size (a : base_uint W) : a.bits = a.value.size := by
  rw [bits, bitsFrom_eq, List.take_of_length_le (by rw [a.length_pn])]
  rfl

/-! ## The restoring division of `/=` -/

/-- `pn[shift / 32] |= (1 << (shift & 31))`: bit `shift` of the quotient set. -/
def setBit (q : base_uint W) (shift : Nat) : base_uint W :=
  ⟨q.pn.modify (shift / 32) (· ||| (1 : UInt32) <<< UInt32.ofNat (shift &&& 31)), by simp [q.length_pn]⟩

theorem value_setBit (q : base_uint W) {shift : Nat} (h : shift < 32 * W) :
    (q.setBit shift).value = q.value ||| 2 ^ shift := by
  apply Nat.eq_of_testBit_eq
  intro n
  have hj : n % 32 < 32 := Nat.mod_lt _ (by norm_num)
  have hand : shift &&& 31 = shift % 32 := Nat.and_two_pow_sub_one_eq_mod shift 5
  rw [value, setBit]
  dsimp only
  rw [testBit_value, getD_modify_or, UInt32.toNat_or, Nat.testBit_or, Nat.testBit_or, value,
    testBit_value, Nat.testBit_two_pow, q.length_pn, hand]
  congr 1
  split
  · -- the limb holding bit `shift` gets exactly that bit
    rename_i hn
    have hs : shift % 32 < 32 := Nat.mod_lt _ (by norm_num)
    have hone : ((1 : UInt32) <<< UInt32.ofNat (shift % 32)).toNat = 2 ^ (shift % 32) := by
      rw [UInt32.toNat_shiftLeft, UInt32.toNat_one, UInt32.toNat_ofNat',
        Nat.mod_eq_of_lt (by omega : shift % 32 < 2 ^ 32), Nat.mod_eq_of_lt hs, Nat.one_shiftLeft,
        Nat.mod_eq_of_lt (Nat.pow_lt_pow_right (by norm_num) hs)]
    rw [hone, Nat.testBit_two_pow, decide_eq_decide]
    omega
  · rename_i hn
    rw [UInt32.toNat_zero, Nat.zero_testBit]
    exact (decide_eq_false (by omega)).symm

/-- The loop of `operator/=`: while `shift >= 0`, when `num >= div` subtract the
aligned divisor and set bit `shift` of the quotient, then move `div` down a place. The
last argument is `shift + 1`, the passes left. -/
def divLoop (num div q : base_uint W) : Nat → base_uint W
  | 0 => q
  | shift + 1 =>
    if num.CompareTo div ≥ 0 then divLoop (num.sub div) (div.shiftRight 1) (q.setBit shift) shift
    else divLoop num (div.shiftRight 1) q shift

/-- `operator/=`: `uint_error("Division by zero")` when `bits()` of the divisor is 0,
the quotient 0 when the divisor is longer than the numerator, and otherwise the loop
with the divisor shifted up to align its top bit with the numerator's. -/
def divide (a b : base_uint W) : Except String (base_uint W) :=
  let num_bits := a.bits
  let div_bits := b.bits
  if div_bits = 0 then .error "Division by zero"
  else if div_bits > num_bits then .ok zero
  else
    let shift := num_bits - div_bits
    .ok (divLoop a (b.shiftLeft (UInt32.ofNat shift)) zero (shift + 1))

end base_uint

/-! ## 256 bits: the limbs refine `arith_uint256` -/

namespace base_uint

/-- The `arith_uint256` that eight limbs stand for. -/
def toArith (a : base_uint WIDTH) : arith_uint256 := BitVec.ofNat 256 a.value

theorem value_lt_256 (a : base_uint WIDTH) : a.value < 2 ^ 256 := a.value_lt

theorem toNat_toArith (a : base_uint WIDTH) : a.toArith.toNat = a.value := by
  rw [toArith, BitVec.toNat_ofNat, Nat.mod_eq_of_lt a.value_lt_256]

theorem toArith_add (a b : base_uint WIDTH) : (a.add b).toArith = a.toArith + b.toArith := by
  apply BitVec.eq_of_toNat_eq
  rw [toNat_toArith, BitVec.toNat_add, toNat_toArith, toNat_toArith, value_add]
  rfl

theorem toArith_mul (a b : base_uint WIDTH) : (a.mul b).toArith = a.toArith * b.toArith := by
  apply BitVec.eq_of_toNat_eq
  rw [toNat_toArith, BitVec.toNat_mul, toNat_toArith, toNat_toArith, value_mul]
  rfl

theorem toArith_mul32 (a : base_uint WIDTH) (b32 : UInt32) :
    (a.mul32 b32).toArith = a.toArith * BitVec.ofNat 256 b32.toNat := by
  apply BitVec.eq_of_toNat_eq
  rw [toNat_toArith, BitVec.toNat_mul, toNat_toArith, BitVec.toNat_ofNat,
    Nat.mod_eq_of_lt (lt_trans b32.toNat_lt (by norm_num)), value_mul32]
  rfl

theorem toArith_not (a : base_uint WIDTH) : a.not.toArith = ~~~a.toArith := by
  apply BitVec.eq_of_toNat_eq
  rw [toNat_toArith, BitVec.toNat_not, toNat_toArith, value_not]
  rfl

theorem toArith_neg (a : base_uint WIDTH) : a.neg.toArith = -a.toArith := by
  apply BitVec.eq_of_toNat_eq
  rw [toNat_toArith, BitVec.toNat_neg, toNat_toArith, value_neg]
  rfl

theorem toArith_inc (a : base_uint WIDTH) : a.inc.toArith = a.toArith + 1 := by
  apply BitVec.eq_of_toNat_eq
  rw [toNat_toArith, BitVec.toNat_add, toNat_toArith, value_inc]
  rfl

theorem toArith_dec (a : base_uint WIDTH) : a.dec.toArith = a.toArith - 1 := by
  apply BitVec.eq_of_toNat_eq
  rw [toNat_toArith, BitVec.toNat_sub, toNat_toArith, value_dec, Nat.add_comm]
  rfl

theorem toArith_sub (a b : base_uint WIDTH) : (a.sub b).toArith = a.toArith - b.toArith := by
  apply BitVec.eq_of_toNat_eq
  rw [toNat_toArith, BitVec.toNat_sub, toNat_toArith, toNat_toArith, value_sub, Nat.add_comm]
  rfl

theorem toArith_shiftLeft (a : base_uint WIDTH) {n : Nat} (hn : n < 2 ^ 32) :
    (a.shiftLeft (UInt32.ofNat n)).toArith = a.toArith <<< n := by
  apply BitVec.eq_of_toNat_eq
  rw [toNat_toArith, BitVec.toNat_shiftLeft, toNat_toArith, value_shiftLeft, UInt32.toNat_ofNat',
    Nat.mod_eq_of_lt hn, Nat.shiftLeft_eq]
  rfl

theorem toArith_shiftRight (a : base_uint WIDTH) {n : Nat} (hn : n < 2 ^ 32) :
    (a.shiftRight (UInt32.ofNat n)).toArith = a.toArith >>> n := by
  apply BitVec.eq_of_toNat_eq
  rw [toNat_toArith, BitVec.toNat_ushiftRight, toNat_toArith, value_shiftRight, UInt32.toNat_ofNat',
    Nat.mod_eq_of_lt hn, Nat.shiftRight_eq_div_pow]

theorem toArith_setBit (q : base_uint WIDTH) {s : Nat} (hs : s < 256) :
    (q.setBit s).toArith = q.toArith ||| 1#256 <<< s := by
  apply BitVec.eq_of_toNat_eq
  rw [toNat_toArith, value_setBit q (by rw [WIDTH]; omega), BitVec.toNat_or, toNat_toArith,
    BitVec.toNat_shiftLeft, BitVec.toNat_ofNat, Nat.one_mod_two_pow (by norm_num), Nat.one_shiftLeft,
    Nat.mod_eq_of_lt (Nat.pow_lt_pow_right (by norm_num) hs)]

theorem toArith_zero : (zero : base_uint WIDTH).toArith = 0 := by
  apply BitVec.eq_of_toNat_eq
  rw [toNat_toArith, value_zero]
  rfl

theorem bits_eq_arith (a : base_uint WIDTH) : a.bits = Arith.bits a.toArith := by
  rw [bits_eq_size, Arith.bits_eq_size, toNat_toArith]

/-- Each pass of the loop on limbs is the pass of `Arith.divLoop` on what they stand for. -/
theorem toArith_divLoop : ∀ (n : Nat) (num div q : base_uint WIDTH), n ≤ 256 →
    (divLoop num div q n).toArith = Arith.divLoop num.toArith div.toArith q.toArith n
  | 0, _, _, _, _ => by rw [divLoop, Arith.divLoop]
  | shift + 1, num, div, q, hn => by
    have hge : num.CompareTo div ≥ 0 ↔ div.toArith ≤ num.toArith := by
      rw [CompareTo_nonneg_iff, BitVec.le_def, toNat_toArith, toNat_toArith]
    have hshr : (div.shiftRight 1).toArith = div.toArith >>> 1 := toArith_shiftRight div (by norm_num)
    rw [divLoop, Arith.divLoop]
    by_cases h : num.CompareTo div ≥ 0
    · rw [if_pos h, if_pos (hge.mp h), toArith_divLoop shift _ _ _ (by omega), toArith_sub, hshr,
        toArith_setBit q (by omega)]
    · rw [if_neg h, if_neg (fun h' => h (hge.mpr h')), toArith_divLoop shift _ _ _ (by omega), hshr]

/-- `operator/=` on limbs is `Arith.divide` on what they stand for. -/
theorem divide_toArith (a b : base_uint WIDTH) :
    (a.divide b).map toArith = Arith.divide a.toArith b.toArith := by
  have hnum : a.bits ≤ 256 := by rw [bits_eq_arith]; exact Arith.bits_le _
  rw [divide, Arith.divide, ← bits_eq_arith, ← bits_eq_arith]
  dsimp only
  split
  · rfl
  · split
    · rw [Except.map, toArith_zero]
    · rename_i h0 _
      rw [Except.map, toArith_divLoop _ _ _ _ (by omega), toArith_shiftLeft _ (by omega), toArith_zero]

end base_uint

open base_uint in
/-- The loops of `base_uint`, for any width, compute arithmetic modulo `2 ^ (32 * WIDTH)`
on the numbers their limbs stand for: the carry loops of `+=`, `-=` and both `*=`, the
loops of `~`, unary `-`, `++` and `--`, the two shifts, `CompareTo` and `bits()`. -/
theorem base_uint_loops_modular (W : Nat) (a b : base_uint W) (b32 shift : UInt32) :
    (a.add b).value = (a.value + b.value) % 2 ^ (32 * W) ∧
    (a.sub b).value = (a.value + (2 ^ (32 * W) - b.value)) % 2 ^ (32 * W) ∧
    (a.mul32 b32).value = a.value * b32.toNat % 2 ^ (32 * W) ∧
    (a.mul b).value = a.value * b.value % 2 ^ (32 * W) ∧
    a.not.value = 2 ^ (32 * W) - 1 - a.value ∧
    a.neg.value = (2 ^ (32 * W) - a.value) % 2 ^ (32 * W) ∧
    a.inc.value = (a.value + 1) % 2 ^ (32 * W) ∧
    a.dec.value = (a.value + (2 ^ (32 * W) - 1)) % 2 ^ (32 * W) ∧
    (a.shiftLeft shift).value = a.value * 2 ^ shift.toNat % 2 ^ (32 * W) ∧
    (a.shiftRight shift).value = a.value / 2 ^ shift.toNat ∧
    a.CompareTo b = (if a.value < b.value then -1 else if b.value < a.value then 1 else 0) ∧
    a.bits = a.value.size :=
  ⟨value_add a b, value_sub a b, value_mul32 a b32, value_mul a b, value_not a, value_neg a, value_inc a,
    value_dec a, value_shiftLeft a shift, value_shiftRight a shift, CompareTo_eq a b, base_uint.bits_eq_size a⟩

open base_uint in
/-- At 256 bits the limbs refine `arith_uint256`: each loop is the `BitVec 256` operator
that `Arith.Uint256` takes for it. -/
theorem limbs_refine_arith_uint256 (a b : base_uint WIDTH) (b32 shift : UInt32) :
    (a.add b).toArith = a.toArith + b.toArith ∧
    (a.sub b).toArith = a.toArith - b.toArith ∧
    (a.mul32 b32).toArith = a.toArith * BitVec.ofNat 256 b32.toNat ∧
    (a.mul b).toArith = a.toArith * b.toArith ∧
    a.not.toArith = ~~~a.toArith ∧
    a.neg.toArith = -a.toArith ∧
    a.inc.toArith = a.toArith + 1 ∧
    a.dec.toArith = a.toArith - 1 ∧
    (a.shiftLeft shift).toArith = a.toArith <<< shift.toNat ∧
    (a.shiftRight shift).toArith = a.toArith >>> shift.toNat ∧
    (a.CompareTo b ≥ 0 ↔ b.toArith ≤ a.toArith) ∧
    a.bits = Arith.bits a.toArith := by
  have hshift : shift = UInt32.ofNat shift.toNat := (UInt32.ofNat_toNat).symm
  have hge : a.CompareTo b ≥ 0 ↔ b.toArith ≤ a.toArith := by
    rw [CompareTo_nonneg_iff, BitVec.le_def, toNat_toArith, toNat_toArith]
  refine ⟨toArith_add a b, toArith_sub a b, toArith_mul32 a b32, toArith_mul a b, toArith_not a,
    toArith_neg a, toArith_inc a, toArith_dec a, ?_, ?_, hge, bits_eq_arith a⟩
  · rw [hshift, toArith_shiftLeft a shift.toNat_lt, ← hshift]
  · rw [hshift, toArith_shiftRight a shift.toNat_lt, ← hshift]

open base_uint in
/-- `operator/=` run on the limbs, pass by pass, computes the quotient of what they stand
for, and throws exactly when the divisor is 0. -/
theorem limb_division_quotient (a b : base_uint WIDTH) :
    (a.divide b).map base_uint.value =
      if b.value = 0 then .error "Division by zero" else .ok (a.value / b.value) := by
  have hmap : (a.divide b).map base_uint.value = ((a.divide b).map toArith).map BitVec.toNat := by
    cases a.divide b <;> simp [Except.map, toNat_toArith]
  have hz : Arith.bits b.toArith = 0 ↔ b.value = 0 := by
    rw [bits_eq_zero_iff, ← BitVec.toNat_inj, toNat_toArith]
    rfl
  rw [hmap, divide_toArith, divide_eq_div, Arith.div]
  by_cases h : b.value = 0
  · rw [if_pos (hz.mpr h), if_pos h]
    rfl
  · rw [if_neg (fun h' => h (hz.mp h')), if_neg h, Except.map, BitVec.toNat_udiv, toNat_toArith,
      toNat_toArith]

end Palladium.Arith
