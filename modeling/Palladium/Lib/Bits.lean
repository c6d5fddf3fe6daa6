import Mathlib.Data.List.Basic
import Mathlib.Algebra.Order.Group.Nat

/-!
# Bit strings

A bit string is a list of booleans, most significant bit first, the order
in which a bit stream writes and reads. `ofNat n x` is the `n` low bits of
`x`, and `toNat` is the number a bit string spells; bytes become bits one
byte after another. Splitting a number's bits is dividing it by a power of
two, and appending bit strings is a shift and an addition.
-/

namespace Bits

set_option autoImplicit false

/-- The `n` low bits of `x`, the most significant first. -/
def ofNat : Nat → Nat → List Bool
  | 0, _ => []
  | n + 1, x => x.testBit n :: ofNat n x

/-- The number that a bit string spells. -/
def toNat : List Bool → Nat
  | [] => 0
  | b :: l => b.toNat * 2 ^ l.length + toNat l

/-- Bytes as bits, each byte its most significant bit first. -/
def ofBytes (bs : List UInt8) : List Bool :=
  bs.flatMap fun b => ofNat 8 b.toNat

@[simp] theorem ofNat_zero_left (x : Nat) : ofNat 0 x = [] := rfl

@[simp] theorem length_ofNat (n x : Nat) : (ofNat n x).length = n := by
  induction n with
  | zero => rfl
  | succ n ih => simp [ofNat, ih]

@[simp] theorem ofBytes_nil : ofBytes [] = [] := rfl

@[simp] theorem ofBytes_cons (b : UInt8) (bs : List UInt8) :
    ofBytes (b :: bs) = ofNat 8 b.toNat ++ ofBytes bs := rfl

@[simp] theorem ofBytes_append (bs cs : List UInt8) :
    ofBytes (bs ++ cs) = ofBytes bs ++ ofBytes cs := by
  simp [ofBytes]

@[simp] theorem length_ofBytes (bs : List UInt8) : (ofBytes bs).length = 8 * bs.length := by
  induction bs with
  | nil => rfl
  | cons b bs ih => simp [ih]; omega

/-! ## Numbers from bits -/

theorem toNat_append (l₁ l₂ : List Bool) :
    toNat (l₁ ++ l₂) = toNat l₁ * 2 ^ l₂.length + toNat l₂ := by
  induction l₁ with
  | nil => simp [toNat]
  | cons b l₁ ih =>
    simp only [List.cons_append, toNat, ih, List.length_append, Nat.pow_add]
    rw [Nat.add_mul, Nat.mul_assoc]
    omega

theorem toNat_lt (l : List Bool) : toNat l < 2 ^ l.length := by
  induction l with
  | nil => simp [toNat]
  | cons b l ih =>
    have hb : b.toNat ≤ 1 := Bool.toNat_le b
    have hmul : b.toNat * 2 ^ l.length ≤ 2 ^ l.length := by
      simpa using Nat.mul_le_mul_right (2 ^ l.length) hb
    rw [toNat, List.length_cons, Nat.pow_succ]
    omega

@[simp] theorem toNat_replicate_false (n : Nat) : toNat (List.replicate n false) = 0 := by
  induction n with
  | zero => rfl
  | succ n ih => simp [List.replicate_succ, toNat, ih]

@[simp] theorem toNat_ofNat (n x : Nat) : toNat (ofNat n x) = x % 2 ^ n := by
  induction n with
  | zero => simp [ofNat, toNat, Nat.mod_one]
  | succ n ih =>
    rw [ofNat, toNat, ih, length_ofNat, Nat.toNat_testBit, Nat.mod_pow_succ, Nat.mul_comm (2 ^ n)]
    omega

/-! ## Bits from numbers -/

/-- `ofNat n x` reads only the bits of `x` below `n`. -/
theorem ofNat_congr {n x y : Nat} (h : ∀ i < n, x.testBit i = y.testBit i) :
    ofNat n x = ofNat n y := by
  induction n with
  | zero => rfl
  | succ n ih =>
    rw [ofNat, ofNat, h n (Nat.lt_succ_self n), ih fun i hi => h i (by omega)]

theorem ofNat_mod {n m : Nat} (x : Nat) (h : n ≤ m) : ofNat n (x % 2 ^ m) = ofNat n x :=
  ofNat_congr fun i hi => by simp [Nat.testBit_mod_two_pow, show i < m by omega]

/-- The bits of a number split at `k` are those of its quotient and of its
remainder by `2 ^ k`. -/
theorem ofNat_add (m k x : Nat) : ofNat (m + k) x = ofNat m (x / 2 ^ k) ++ ofNat k x := by
  induction m with
  | zero => simp [ofNat]
  | succ m ih =>
    rw [show m + 1 + k = (m + k) + 1 by omega, ofNat, ih, ofNat, Nat.testBit_div_two_pow]
    rfl

theorem ofNat_toNat (l : List Bool) : ofNat l.length (toNat l) = l := by
  induction l with
  | nil => rfl
  | cons b l ih =>
    have hlt := toNat_lt l
    have hlow : ofNat l.length (b.toNat * 2 ^ l.length + toNat l) = ofNat l.length (toNat l) :=
      ofNat_congr fun i hi => by
        rw [Nat.mul_comm, Nat.testBit_two_pow_mul_add _ hlt, if_pos hi]
    have htop : (b.toNat * 2 ^ l.length + toNat l).testBit l.length = b := by
      rw [Nat.mul_comm, Nat.testBit_two_pow_mul_add _ hlt, if_neg (Nat.lt_irrefl _),
        Nat.sub_self]
      cases b <;> rfl
    rw [List.length_cons, ofNat, toNat, hlow, htop, ih]

/-- The bits of `hi * 2 ^ k + c`, for `c` below `2 ^ k`, are those of `hi`
followed by the `k` bits of `c`. -/
theorem ofNat_mul_add (m k hi : Nat) {c : Nat} (hc : c < 2 ^ k) :
    ofNat (m + k) (hi * 2 ^ k + c) = ofNat m hi ++ ofNat k c := by
  have hdiv : (hi * 2 ^ k + c) / 2 ^ k = hi := by
    rw [Nat.add_comm, Nat.add_mul_div_right _ _ (Nat.two_pow_pos k), Nat.div_eq_of_lt hc,
      Nat.zero_add]
  have hlow : ofNat k (hi * 2 ^ k + c) = ofNat k c :=
    ofNat_congr fun i hi' => by rw [Nat.mul_comm, Nat.testBit_two_pow_mul_add _ hc, if_pos hi']
  rw [ofNat_add, hdiv, hlow]

/-- The top `b` of the `n` low bits of `x`. -/
theorem ofNat_mod_div {b n : Nat} (h : b ≤ n) (x : Nat) :
    ofNat b (x % 2 ^ n / 2 ^ (n - b)) = ofNat b (x / 2 ^ (n - b)) :=
  ofNat_congr fun i hi => by
    simp [Nat.testBit_div_two_pow, Nat.testBit_mod_two_pow, show i + (n - b) < n by omega]

theorem ofNat_zero_right (n : Nat) : ofNat n 0 = List.replicate n false := by
  induction n with
  | zero => rfl
  | succ n ih => simp [ofNat, ih, List.replicate_succ]

/-- A number shifted up by `k` ends in `k` zero bits. -/
theorem ofNat_mul_two_pow (m k x : Nat) :
    ofNat (m + k) (x * 2 ^ k) = ofNat m x ++ List.replicate k false := by
  have hlow : ofNat k (x * 2 ^ k) = List.replicate k false := by
    rw [← ofNat_zero_right k]
    exact ofNat_congr fun i hi => by simp [Nat.testBit_mul_two_pow, Nat.not_le.mpr hi]
  rw [ofNat_add, Nat.mul_div_cancel _ (Nat.two_pow_pos k), hlow]

theorem ofNat_two_pow_sub_one {k n : Nat} (h : k ≤ n) :
    ofNat k (2 ^ n - 1) = List.replicate k true := by
  induction k with
  | zero => rfl
  | succ k ih =>
    rw [ofNat, Nat.testBit_two_pow_sub_one, ih (by omega), List.replicate_succ]
    simp only [List.cons.injEq, decide_eq_true_eq, and_true]
    omega

theorem take_ofNat_add (m k x : Nat) :
    (ofNat (m + k) x).take m = ofNat m (x / 2 ^ k) := by
  rw [ofNat_add, List.take_left' (length_ofNat m _)]

theorem drop_ofNat_add (m k x : Nat) : (ofNat (m + k) x).drop m = ofNat k x := by
  rw [ofNat_add, List.drop_left' (length_ofNat m _)]

/-! ## Values of a fixed width -/

/-- Values of `w` bits each, one after another, each most significant bit
first. -/
def ofChunks (w : Nat) (xs : List UInt8) : List Bool :=
  xs.flatMap fun x => ofNat w x.toNat

@[simp] theorem ofChunks_nil (w : Nat) : ofChunks w [] = [] := rfl

@[simp] theorem ofChunks_cons (w : Nat) (x : UInt8) (xs : List UInt8) :
    ofChunks w (x :: xs) = ofNat w x.toNat ++ ofChunks w xs := rfl

@[simp] theorem ofChunks_append (w : Nat) (xs ys : List UInt8) :
    ofChunks w (xs ++ ys) = ofChunks w xs ++ ofChunks w ys := by
  simp [ofChunks]

@[simp] theorem length_ofChunks (w : Nat) (xs : List UInt8) :
    (ofChunks w xs).length = w * xs.length := by
  induction xs with
  | nil => rfl
  | cons x xs ih => simp [ih, Nat.mul_succ]; omega

theorem ofBytes_eq_ofChunks (bs : List UInt8) : ofBytes bs = ofChunks 8 bs := rfl

/-- Values below `2 ^ w` are read back from their `w`-bit chunks. -/
theorem ofChunks_inj {w : Nat} (hw : 0 < w) :
    ∀ {xs ys : List UInt8}, (∀ x ∈ xs, x.toNat < 2 ^ w) → (∀ y ∈ ys, y.toNat < 2 ^ w) →
      ofChunks w xs = ofChunks w ys → xs = ys
  | [], [], _, _, _ => rfl
  | [], y :: ys, _, _, h => by
    have := congrArg List.length h
    simp at this
    omega
  | x :: xs, [], _, _, h => by
    have := congrArg List.length h
    simp at this
    omega
  | x :: xs, y :: ys, hx, hy, h => by
    rw [ofChunks_cons, ofChunks_cons] at h
    obtain ⟨hxy, hrest⟩ := List.append_inj h (by simp)
    have hval := congrArg toNat hxy
    rw [toNat_ofNat, toNat_ofNat, Nat.mod_eq_of_lt (hx x (by simp)),
      Nat.mod_eq_of_lt (hy y (by simp))] at hval
    rw [UInt8.toNat_inj.mp hval,
      ofChunks_inj hw (fun a ha => hx a (by simp [ha])) (fun a ha => hy a (by simp [ha])) hrest]

end Bits
