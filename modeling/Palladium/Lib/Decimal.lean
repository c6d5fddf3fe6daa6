import Mathlib.Data.Nat.Digits.Lemmas

/-!
# Decimal strings

Strings of ASCII decimal digits, most significant first. `value` is what a
digit loop accumulates (`n = 10 * n + d`); `digits` is the shortest string
of a number, the one `printf("%d")` writes. They are inverse up to leading
zeros: `value (digits n) = n`, and `digits (value s)` is `s` without its
leading zeros. Both go through Mathlib's little-endian `Nat.ofDigits` and
`Nat.digits`.
-/

namespace Decimal

set_option autoImplicit false

/-- `'0'` to `'9'`. -/
def isDigit (c : UInt8) : Bool :=
  48 ≤ c && c ≤ 57

/-- The value of a string of digits. -/
def value (s : List UInt8) : Nat :=
  s.foldl (fun n c => 10 * n + (c.toNat - 48)) 0

/-- The digits of `n` with no leading zero; zero is the one digit `0`. -/
def digits (n : Nat) : List UInt8 :=
  if n = 0 then [48] else (Nat.digits 10 n).reverse.map fun d => (48 + d).toUInt8

/-- The digits of `n` after zeros up to `width` characters, what
`printf("%0<width>d")` writes of a number that is not negative. -/
def padded (width n : Nat) : List UInt8 :=
  List.replicate (width - (digits n).length) 48 ++ digits n

theorem isDigit_iff {c : UInt8} : isDigit c = true ↔ 48 ≤ c.toNat ∧ c.toNat ≤ 57 := by
  simp [isDigit, UInt8.le_iff_toNat_le]

/-! ## Values -/

theorem foldl_value (t : List UInt8) :
    ∀ a, t.foldl (fun n c => 10 * n + (c.toNat - 48)) a = a * 10 ^ t.length + value t := by
  induction t with
  | nil => simp [value]
  | cons c t ih =>
    intro a
    simp only [List.foldl_cons, value, Nat.mul_zero, Nat.zero_add] at ih ⊢
    rw [ih, ih (c.toNat - 48), List.length_cons, pow_succ]
    ring

@[simp]
theorem value_nil : value [] = 0 := rfl

theorem value_append (s t : List UInt8) : value (s ++ t) = value s * 10 ^ t.length + value t := by
  rw [value, List.foldl_append, foldl_value]
  rfl

theorem value_cons (c : UInt8) (s : List UInt8) :
    value (c :: s) = (c.toNat - 48) * 10 ^ s.length + value s := by
  rw [← List.singleton_append, value_append]
  simp [value]

/-- A value read from `k` digits is below `10 ^ k`. -/
theorem value_lt {s : List UInt8} (hs : ∀ c ∈ s, isDigit c = true) : value s < 10 ^ s.length := by
  induction s with
  | nil => simp
  | cons c s ih =>
    have hc : c.toNat - 48 ≤ 9 := by have := isDigit_iff.mp (hs c (by simp)); omega
    have hrest := ih fun x hx => hs x (by simp [hx])
    rw [value_cons, List.length_cons]
    calc (c.toNat - 48) * 10 ^ s.length + value s < 9 * 10 ^ s.length + 10 ^ s.length := by
          have := Nat.mul_le_mul_right (10 ^ s.length) hc
          omega
      _ = 10 ^ (s.length + 1) := by ring

/-- Leading zeros do not change the value. -/
@[simp]
theorem value_replicate_zero_append (k : Nat) (s : List UInt8) :
    value (List.replicate k 48 ++ s) = value s := by
  induction k with
  | zero => rfl
  | succ k ih =>
    rw [List.replicate_succ, List.cons_append, value_cons, ih]
    simp

/-- The digits of a string as `Nat.ofDigits` reads them, least significant first. -/
theorem value_eq_ofDigits (s : List UInt8) :
    value s = Nat.ofDigits 10 (s.map fun c => c.toNat - 48).reverse := by
  rw [Nat.ofDigits_eq_foldr, List.foldr_reverse, List.foldl_map, value]
  congr
  funext n c
  push_cast
  ring

/-! ## Digits -/

theorem digits_isDigit (n : Nat) : ∀ c ∈ digits n, isDigit c = true := by
  intro c hc
  unfold digits at hc
  split at hc
  · simp only [List.mem_singleton] at hc
    subst hc
    rfl
  · obtain ⟨d, hd, rfl⟩ := List.mem_map.mp hc
    have := Nat.digits_lt_base (by norm_num) (List.mem_reverse.mp hd)
    rw [isDigit_iff, UInt8.toNat_ofNat']
    omega

theorem digits_ne_nil (n : Nat) : digits n ≠ [] := by
  unfold digits
  split
  · simp
  · simpa using Nat.digits_ne_nil_iff_ne_zero.mpr ‹_›

/-- A digit's code less `'0'` is its value. -/
theorem toNat_digit_sub {d : Nat} (hd : d < 10) : ((48 + d).toUInt8.toNat - 48) = d := by
  rw [UInt8.toNat_ofNat']
  omega

theorem value_digits (n : Nat) : value (digits n) = n := by
  unfold digits
  split
  · subst n
    rfl
  · rw [value_eq_ofDigits, List.map_map, ← List.map_reverse, List.reverse_reverse]
    conv_rhs => rw [← Nat.ofDigits_digits 10 n]
    congr 1
    rw [List.map_congr_left (g := id) ?_, List.map_id]
    intro d hd
    exact toNat_digit_sub (Nat.digits_lt_base (by norm_num) hd)

theorem length_digits_le {n k : Nat} (hk : 0 < k) (hn : n < 10 ^ k) : (digits n).length ≤ k := by
  unfold digits
  split
  · exact hk
  · simpa using (Nat.digits_length_le_iff (by norm_num) n).mpr hn

/-! ## Padded fields -/

theorem padded_isDigit (width n : Nat) : ∀ c ∈ padded width n, isDigit c = true := by
  intro c hc
  rcases List.mem_append.mp hc with hz | hd
  · rw [List.eq_of_mem_replicate hz]
    rfl
  · exact digits_isDigit n c hd

theorem length_padded {width n : Nat} (hw : 0 < width) (hn : n < 10 ^ width) :
    (padded width n).length = width := by
  have := length_digits_le hw hn
  simp only [padded, List.length_append, List.length_replicate]
  omega

@[simp]
theorem value_padded (width n : Nat) : value (padded width n) = n := by
  rw [padded, value_replicate_zero_append, value_digits]

/-- A digit string whose first digit is not `0` (or which is `0`) is the
string `digits` writes for its value. -/
theorem digits_value {s : List UInt8} (hs : ∀ c ∈ s, isDigit c = true)
    (hcanon : s = [48] ∨ ∃ c t, s = c :: t ∧ c ≠ 48) : digits (value s) = s := by
  rcases hcanon with rfl | ⟨c, t, rfl, hc⟩
  · rfl
  -- the digit values, least significant first, end in the non-zero first digit
  set L := ((c :: t).map fun c => c.toNat - 48).reverse with hL
  have hdig : ∀ x ∈ L, x < 10 := by
    intro x hx
    obtain ⟨y, hy, rfl⟩ := List.mem_map.mp (List.mem_reverse.mp hx)
    have := isDigit_iff.mp (hs y hy)
    omega
  have hc' := isDigit_iff.mp (hs c (by simp))
  have hlast : ∀ h : L ≠ [], L.getLast h ≠ 0 := by
    intro h
    have hc48 : c.toNat ≠ 48 := fun h' => hc (UInt8.toNat_inj.mp h')
    simp only [hL, List.getLast_reverse, List.head_map, List.head_cons]
    omega
  have hval : value (c :: t) ≠ 0 := by
    rw [value_eq_ofDigits, ← hL]
    intro h0
    have := Nat.digits_ofDigits 10 (by norm_num) L hdig hlast
    rw [h0, Nat.digits_zero] at this
    exact absurd this.symm (by simp [hL])
  rw [digits, if_neg hval, value_eq_ofDigits, ← hL, Nat.digits_ofDigits 10 (by norm_num) L hdig hlast,
    hL, List.reverse_reverse, List.map_map]
  rw [List.map_congr_left (g := id) ?_, List.map_id]
  intro y hy
  have := isDigit_iff.mp (hs y hy)
  apply UInt8.toNat_inj.mp
  simp only [Function.comp_apply, id, UInt8.toNat_ofNat']
  omega

/-! ## Trailing zeros kept apart

A scanner that must not overflow on `1000…0e-10` keeps a number as
`m * 10 ^ t` and brings the zeros `t` back only when a digit other than `0`
follows. -/

/-- One digit pushed onto `m * 10 ^ t`: a zero only counts one more trailing
zero, any other digit brings them back in. -/
def pushDigit (mt : Nat × Nat) (d : Nat) : Nat × Nat :=
  if d = 0 then (mt.1, mt.2 + 1) else (mt.1 * 10 ^ (mt.2 + 1) + d, 0)

/-- The digits of a string pushed one by one. -/
def pushDigits (mt : Nat × Nat) (s : List UInt8) : Nat × Nat :=
  s.foldl (fun mt c => pushDigit mt (c.toNat - 48)) mt

section Push

variable (mt : Nat × Nat) (d : Nat)

theorem pushDigit_value :
    (pushDigit mt d).1 * 10 ^ (pushDigit mt d).2 = mt.1 * 10 ^ mt.2 * 10 + d := by
  unfold pushDigit
  split
  · subst d
    simp [pow_succ, Nat.mul_assoc]
  · simp [pow_succ, Nat.mul_assoc]

theorem le_pushDigit : mt.1 ≤ (pushDigit mt d).1 := by
  unfold pushDigit
  split
  · exact le_refl _
  · exact le_trans (Nat.le_mul_of_pos_right _ (Nat.pow_pos (by norm_num))) (Nat.le_add_right _ _)

theorem pushDigit_snd_le : (pushDigit mt d).2 ≤ mt.2 + 1 := by
  unfold pushDigit
  split <;> simp

/-- The kept part never ends in a zero, unless it is zero. -/
theorem pushDigit_not_dvd (h : mt.1 = 0 ∨ ¬10 ∣ mt.1) (hd : d < 10) :
    (pushDigit mt d).1 = 0 ∨ ¬10 ∣ (pushDigit mt d).1 := by
  unfold pushDigit
  split
  · exact h
  · next hd0 =>
    right
    rw [Nat.dvd_add_right (Dvd.dvd.mul_left (Dvd.intro_left _ (pow_succ 10 mt.2).symm) _)]
    exact fun h10 => hd0 (Nat.eq_zero_of_dvd_of_lt h10 hd)

end Push

section Pushes

variable (mt : Nat × Nat) (s t : List UInt8)

@[simp]
theorem pushDigits_nil : pushDigits mt [] = mt := rfl

@[simp]
theorem pushDigits_cons (c : UInt8) :
    pushDigits mt (c :: s) = pushDigits (pushDigit mt (c.toNat - 48)) s := by
  rw [pushDigits, List.foldl_cons, pushDigits]

theorem pushDigits_append : pushDigits mt (s ++ t) = pushDigits (pushDigits mt s) t := by
  simp [pushDigits, List.foldl_append]

/-- What the kept part and its zeros stand for: the digits read after the
starting value. -/
theorem pushDigits_value :
    (pushDigits mt s).1 * 10 ^ (pushDigits mt s).2 = mt.1 * 10 ^ mt.2 * 10 ^ s.length + value s := by
  induction s generalizing mt with
  | nil => simp
  | cons c s ih =>
    rw [pushDigits_cons, ih, pushDigit_value, value_cons, List.length_cons, pow_succ]
    ring

theorem le_pushDigits : mt.1 ≤ (pushDigits mt s).1 := by
  induction s generalizing mt with
  | nil => exact le_refl _
  | cons c s ih => exact le_trans (le_pushDigit mt _) (ih _)

theorem pushDigits_snd_le : (pushDigits mt s).2 ≤ mt.2 + s.length := by
  induction s generalizing mt with
  | nil => simp
  | cons c s ih =>
    have := ih (pushDigit mt (c.toNat - 48))
    have := pushDigit_snd_le mt (c.toNat - 48)
    simp only [pushDigits_cons, List.length_cons]
    omega

theorem pushDigits_not_dvd (hs : ∀ c ∈ s, isDigit c = true) (h : mt.1 = 0 ∨ ¬10 ∣ mt.1) :
    (pushDigits mt s).1 = 0 ∨ ¬10 ∣ (pushDigits mt s).1 := by
  induction s generalizing mt with
  | nil => exact h
  | cons c s ih =>
    have hc := isDigit_iff.mp (hs c (by simp))
    exact ih _ (fun x hx => hs x (by simp [hx])) (pushDigit_not_dvd mt _ h (by omega))

end Pushes

end Decimal
