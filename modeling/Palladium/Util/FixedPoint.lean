import Mathlib.Algebra.Order.Field.Power
import Mathlib.Data.Rat.Cast.Order
import Palladium.Util.Strencodings

/-!
# ParseFixedPoint

`ParseFixedPoint(val, decimals, amount_out)` (`util/strencodings.cpp`) reads
a decimal number `-?(0|[1-9][0-9]*)(\.[0-9]+)?([eE][+-]?[0-9]+)?` as the
integer `value * 10 ^ decimals`. Trailing zeros of the mantissa are kept
apart (`Decimal.pushDigits`) and come back only when another digit follows
or at the end, so that `1000…0e-10` fits in an `int64_t`.

The model returns `.ok a` where the source returns `true` with
`*amount_out = a`, `.error .rejected` where it returns `false`, and
`.error .overflow` where a signed integer of the source would overflow. Every
arithmetic step of the source goes through `intN`, which finds such an
overflow.

`int end = val.size()` keeps the size modulo `2 ^ 32` as a signed `int`: on
a string of `2 ^ 32 + 1` characters the scan reads one character. On strings
of fewer than `2 ^ 31` characters the parser is exact: it never overflows,
rejects every string that is not a `Literal`, and on a literal of non-zero
value `v` accepts exactly when `v * 10 ^ decimals` is an integer of absolute
value at most `10 ^ 18 - 1`, which it returns.
-/

namespace Palladium.Util

open Decimal

set_option autoImplicit false

/-! ## The model -/

/-- How `ParseFixedPoint` stops short of a value: it returns `false`, or a
signed integer of the source would overflow, which C leaves undefined. -/
inductive Stop
  | rejected
  | overflow
  deriving DecidableEq, Repr

/-- `UPPER_BOUND`, the largest arbitrary 18-digit decimal. -/
def UPPER_BOUND : Int := 1000000000000000000 - 1

/-- A result in a signed integer of `w` bits, or the overflow. -/
def intN (w : Nat) (x : Int) : Except Stop Int :=
  if -2 ^ (w - 1) ≤ x ∧ x < 2 ^ (w - 1) then .ok x else .error .overflow

/-- An `int64_t` result. -/
def int64 (x : Int) : Except Stop Int := intN 64 x

/-- An `int` result. -/
def int32 (x : Int) : Except Stop Int := intN 32 x

/-- `int end = val.size()`: the size modulo `2 ^ 32`, read as a signed
`int`. The scan reads `val[ptr]` only while `ptr < end`, so it sees the
first `end` characters, and none when `end` is negative, where the first
test already fails as on an empty string. -/
def scanEnd (size : Nat) : Nat :=
  if size % 2 ^ 32 < 2 ^ 31 then size % 2 ^ 32 else 0

/-- The `for` loop of `ProcessMantissaDigit`: `k` times, fail when the
mantissa is above `UPPER_BOUND / 10`, else multiply it by ten. -/
def scaleLoop (mantissa : Int) : Nat → Except Stop Int
  | 0 => .ok mantissa
  | k + 1 =>
    if mantissa > UPPER_BOUND / 10 then .error .rejected
    else do
      let m ← int64 (mantissa * 10)
      scaleLoop m k

/-- `ProcessMantissaDigit`: a `0` counts one more trailing zero; any other
digit brings the zeros back, `mantissa_tzeros + 1` times ten, and is added. -/
def ProcessMantissaDigit (ch : UInt8) (mantissa mantissa_tzeros : Int) :
    Except Stop (Int × Int) :=
  if ch = 48 then do
    let t ← int32 (mantissa_tzeros + 1)
    pure (mantissa, t)
  else do
    let m ← scaleLoop mantissa (mantissa_tzeros + 1).toNat
    let m ← int64 (m + ((ch.toNat : Int) - 48))
    pure (m, 0)

/-- A `while` loop over mantissa digits, of the whole part or, counting them
in `point_ofs`, after the point. The state is `mantissa`, `mantissa_tzeros`
and `point_ofs`; the loop returns it and the string where it stopped. -/
def mantissaLoop (afterPoint : Bool) :
    List UInt8 → Int × Int × Int → Except Stop ((Int × Int × Int) × List UInt8)
  | c :: rest, (mantissa, mantissa_tzeros, point_ofs) =>
    if isDigit c = true then do
      let (m, t) ← ProcessMantissaDigit c mantissa mantissa_tzeros
      let p ← if afterPoint then int32 (point_ofs + 1) else pure point_ofs
      mantissaLoop afterPoint rest (m, t, p)
    else .ok ((mantissa, mantissa_tzeros, point_ofs), c :: rest)
  | [], st => .ok (st, [])

/-- The `while` loop over exponent digits. -/
def exponentLoop : List UInt8 → Int → Except Stop (Int × List UInt8)
  | c :: rest, exponent =>
    if isDigit c = true then
      if exponent > UPPER_BOUND / 10 then .error .rejected
      else do
        let e ← int64 (exponent * 10)
        let e ← int64 (e + c.toNat)
        let e ← int64 (e - 48)
        exponentLoop rest e
    else .ok (exponent, c :: rest)
  | [], exponent => .ok (exponent, [])

/-- The last `for` loop: `k` times, fail when the mantissa is out of
`± UPPER_BOUND / 10`, else multiply it by ten. -/
def finalLoop (mantissa : Int) : Nat → Except Stop Int
  | 0 => .ok mantissa
  | k + 1 =>
    if mantissa > UPPER_BOUND / 10 ∨ mantissa < -(UPPER_BOUND / 10) then .error .rejected
    else do
      let m ← int64 (mantissa * 10)
      finalLoop m k

/-- The optional `-` of the mantissa. -/
def parseSign : List UInt8 → Bool × List UInt8
  | 45 :: rest => (true, rest)
  | s => (false, s)

/-- The whole part: a single `0` passes; a digit `1` to `9` starts the
mantissa loop; anything else, or nothing, is rejected. -/
def parseWhole : List UInt8 → Except Stop ((Int × Int) × List UInt8)
  | 48 :: rest => .ok ((0, 0), rest)
  | c :: rest =>
    if 49 ≤ c ∧ c ≤ 57 then do
      let ((m, t, _), r) ← mantissaLoop false (c :: rest) (0, 0, 0)
      pure ((m, t), r)
    else .error .rejected
  | [] => .error .rejected

/-- The fraction: after a `.` at least one digit, which go through the
mantissa loop counting `point_ofs`. -/
def parseFraction (mantissa mantissa_tzeros : Int) :
    List UInt8 → Except Stop ((Int × Int × Int) × List UInt8)
  | 46 :: c :: rest =>
    if isDigit c = true then mantissaLoop true (c :: rest) (mantissa, mantissa_tzeros, 0)
    else .error .rejected
  | [46] => .error .rejected
  | s => .ok ((mantissa, mantissa_tzeros, 0), s)

/-- The optional sign of the exponent. -/
def exponentSign : List UInt8 → Bool × List UInt8
  | 43 :: rest => (false, rest)
  | 45 :: rest => (true, rest)
  | s => (false, s)

/-- The exponent: after `e` or `E` an optional sign and at least one digit.
The sign `exponent_sign`, the `exponent` and the rest. -/
def parseExponent : List UInt8 → Except Stop ((Bool × Int) × List UInt8)
  | c :: rest =>
    if c = 101 ∨ c = 69 then
      match exponentSign rest with
      | (exponent_sign, d :: more) =>
        if isDigit d = true then do
          let (e, r) ← exponentLoop (d :: more) 0
          pure ((exponent_sign, e), r)
        else .error .rejected
      | (_, []) => .error .rejected
    else .ok ((false, 0), c :: rest)
  | [] => .ok ((false, 0), [])

/-- `if (sign) x = -x;` on an `int64_t`. -/
def negateIf (sign : Bool) (x : Int) : Except Stop Int :=
  if sign then int64 (-x) else .ok x

/-- The end of `ParseFixedPoint` once the string is read: the exponent is
finalised, `decimals` added, and the mantissa scaled by it if that stays in
`[0, 18)` and the result in `± UPPER_BOUND`. -/
def finishFixedPoint (mantissa_sign exponent_sign : Bool)
    (mantissa exponent mantissa_tzeros point_ofs decimals : Int) : Except Stop Int := do
  let exponent ← negateIf exponent_sign exponent
  let exponent ← int64 (exponent - point_ofs)
  let exponent ← int64 (exponent + mantissa_tzeros)
  let mantissa ← negateIf mantissa_sign mantissa
  let exponent ← int64 (exponent + decimals)
  if exponent < 0 then .error .rejected
  else if exponent ≥ 18 then .error .rejected
  else do
    let mantissa ← finalLoop mantissa exponent.toNat
    if mantissa > UPPER_BOUND ∨ mantissa < -UPPER_BOUND then .error .rejected
    else pure mantissa

/-- The scan of `ParseFixedPoint` over the characters it sees: the phases
in the order the source runs them, then the check for trailing garbage. -/
def scanFixedPoint (s : List UInt8) (decimals : Int) : Except Stop Int := do
  let (mantissa_sign, s) := parseSign s
  let ((mantissa, mantissa_tzeros), s) ← parseWhole s
  let ((mantissa, mantissa_tzeros, point_ofs), s) ← parseFraction mantissa mantissa_tzeros s
  let ((exponent_sign, exponent), s) ← parseExponent s
  if s ≠ [] then .error .rejected
  else finishFixedPoint mantissa_sign exponent_sign mantissa exponent mantissa_tzeros point_ofs decimals

/-- `ParseFixedPoint`: the scan over the characters before `end`. -/
def ParseFixedPoint (val : List UInt8) (decimals : Int) : Except Stop Int :=
  scanFixedPoint (val.take (scanEnd val.length)) decimals

/-! ## Arithmetic -/

section Arith

@[simp]
theorem ok_bind {α β : Type} (a : α) (f : α → Except Stop β) : (Except.ok a >>= f) = f a := rfl

@[simp]
theorem error_bind {α β : Type} (e : Stop) (f : α → Except Stop β) :
    ((Except.error e : Except Stop α) >>= f) = .error e := rfl

theorem UPPER_BOUND_eq : UPPER_BOUND = 999999999999999999 := rfl

theorem UPPER_BOUND_div_ten : UPPER_BOUND / 10 = 99999999999999999 := by
  decide

theorem intN_of_fits {w : Nat} {x : Int} (h : -2 ^ (w - 1) ≤ x ∧ x < 2 ^ (w - 1)) :
    intN w x = .ok x :=
  if_pos h

/-- Every value the parser computes lies well inside `int64_t`. -/
theorem int64_of_le {x : Int} (h0 : -4000000000000000000 ≤ x) (h1 : x ≤ 4000000000000000000) :
    int64 x = .ok x :=
  intN_of_fits ⟨by norm_num; omega, by norm_num; omega⟩

theorem int32_of_lt {x : Int} (h0 : 0 ≤ x) (h1 : x < 2 ^ 31) : int32 x = .ok x :=
  intN_of_fits ⟨by norm_num; omega, by norm_num; omega⟩

end Arith

/-! ## The loops

Each loop is given in closed form: it fails exactly when what it would
build passes `UPPER_BOUND`. A value only grows along a loop, so the checks
on the way agree with the one on the final value. -/

section Loops

/-- Multiplying a value in `[0, UPPER_BOUND]` by ten `k` times fails exactly
when the product passes `UPPER_BOUND`. -/
theorem scaleLoop_eq {m : Nat} (hm : (m : Int) ≤ UPPER_BOUND) (k : Nat) :
    scaleLoop m k =
      if ((m * 10 ^ k : Nat) : Int) ≤ UPPER_BOUND then .ok ((m * 10 ^ k : Nat) : Int)
      else .error .rejected := by
  induction k generalizing m with
  | zero => simp [scaleLoop, hm]
  | succ k ih =>
    rw [UPPER_BOUND_eq] at hm ih ⊢
    have hk : (m : Int) * 10 ≤ ((m * 10 ^ (k + 1) : Nat) : Int) := by
      have := Nat.mul_le_mul_left m (Nat.le_self_pow (show k + 1 ≠ 0 by omega) 10)
      exact_mod_cast this
    rw [scaleLoop, UPPER_BOUND_div_ten]
    by_cases hbig : (m : Int) > 99999999999999999
    · rw [if_pos hbig, if_neg (by omega)]
    · rw [if_neg hbig, int64_of_le (by omega) (by omega), ok_bind,
        show (m : Int) * 10 = ((m * 10 : Nat) : Int) by push_cast; ring, ih (by push_cast; omega),
        show m * 10 * 10 ^ k = m * 10 ^ (k + 1) by ring]

/-- The last loop, on a value in `± UPPER_BOUND`. -/
theorem finalLoop_eq {m : Int} (hm : -UPPER_BOUND ≤ m ∧ m ≤ UPPER_BOUND) (k : Nat) :
    finalLoop m k =
      if -UPPER_BOUND ≤ m * 10 ^ k ∧ m * 10 ^ k ≤ UPPER_BOUND then .ok (m * 10 ^ k)
      else .error .rejected := by
  induction k generalizing m with
  | zero => simp [finalLoop, hm]
  | succ k ih =>
    rw [UPPER_BOUND_eq] at hm ih ⊢
    have hk : (10 : Int) ≤ 10 ^ (k + 1) := by
      calc (10 : Int) = 10 ^ 1 := by norm_num
        _ ≤ 10 ^ (k + 1) := pow_le_pow_right₀ (by norm_num) (by omega)
    rw [finalLoop, UPPER_BOUND_div_ten]
    by_cases hbig : m > 99999999999999999 ∨ m < -99999999999999999
    · rw [if_pos hbig, if_neg]
      -- the value already passes the bound after one more step
      rcases hbig with hbig | hbig
      · have := mul_le_mul_of_nonneg_left hk (by omega : (0 : Int) ≤ m)
        omega
      · have := mul_le_mul_of_nonpos_left hk (by omega : m ≤ 0)
        omega
    · rw [if_neg hbig, int64_of_le (by omega) (by omega), ok_bind, ih (by omega),
        show m * 10 * 10 ^ k = m * 10 ^ (k + 1) by ring]

/-- `ProcessMantissaDigit` is `pushDigit`, failing exactly when the kept
part passes `UPPER_BOUND`. -/
theorem ProcessMantissaDigit_eq {c : UInt8} (hc : isDigit c = true) {M T : Nat}
    (hM : (M : Int) ≤ UPPER_BOUND) (hT : T + 1 < 2 ^ 31) :
    ProcessMantissaDigit c M T =
      if ((pushDigit (M, T) (c.toNat - 48)).1 : Int) ≤ UPPER_BOUND then
        .ok ((pushDigit (M, T) (c.toNat - 48)).1, (pushDigit (M, T) (c.toNat - 48)).2)
      else .error .rejected := by
  have hd := isDigit_iff.mp hc
  unfold ProcessMantissaDigit
  by_cases h48 : c = 48
  · -- a zero only counts one more trailing zero
    subst h48
    rw [if_pos rfl, int32_of_lt (by omega) (by omega), ok_bind]
    simp only [pushDigit, UInt8.reduceToNat, Nat.sub_self, if_true]
    rw [if_pos hM]
    rfl
  · have hd0 : c.toNat - 48 ≠ 0 := by
      intro h
      apply h48
      apply UInt8.toNat_inj.mp
      simp only [UInt8.reduceToNat]
      omega
    have hsub : (c.toNat : Int) - 48 = ((c.toNat - 48 : Nat) : Int) := by omega
    rw [if_neg h48, show ((T : Int) + 1).toNat = T + 1 by omega, scaleLoop_eq hM]
    simp only [pushDigit, if_neg hd0]
    -- the zeros brought back make a multiple of ten, so the digit still fits
    obtain ⟨Y, hY⟩ : 10 ∣ M * 10 ^ (T + 1) := Dvd.dvd.mul_left (dvd_pow_self 10 (by omega)) M
    rw [UPPER_BOUND_eq] at hM ⊢
    by_cases hX : ((M * 10 ^ (T + 1) : Nat) : Int) ≤ 999999999999999999
    · have hY' : ((M * 10 ^ (T + 1) : Nat) : Int) = 10 * (Y : Int) := by
        rw [hY]
        push_cast
        ring
      have hsplit : ((M * 10 ^ (T + 1) + (c.toNat - 48) : Nat) : Int) =
          ((M * 10 ^ (T + 1) : Nat) : Int) + ((c.toNat - 48 : Nat) : Int) := by
        push_cast
        ring
      have hsum : ((M * 10 ^ (T + 1) + (c.toNat - 48) : Nat) : Int) ≤ 999999999999999999 := by
        omega
      rw [if_pos hX, ok_bind, hsub, int64_of_le (by omega) (by omega), ok_bind, if_pos hsum, hsplit]
      rfl
    · rw [if_neg hX, error_bind, if_neg (by push_cast at hX ⊢; omega)]

/-- The mantissa loop over a run of digits followed by a non-digit is
`pushDigits`, failing exactly when the kept part passes `UPPER_BOUND`;
after the point it also counts the digits. -/
theorem mantissaLoop_eq (afterPoint : Bool) (ds rest : List UInt8)
    (hds : ∀ c ∈ ds, isDigit c = true) (hrest : ∀ c ∈ rest.head?, isDigit c = false)
    {M T P : Nat} (hM : (M : Int) ≤ UPPER_BOUND) (hT : T + ds.length < 2 ^ 31)
    (hP : P + ds.length < 2 ^ 31) :
    mantissaLoop afterPoint (ds ++ rest) (M, T, P) =
      if ((pushDigits (M, T) ds).1 : Int) ≤ UPPER_BOUND then
        .ok ((((pushDigits (M, T) ds).1 : Int), ((pushDigits (M, T) ds).2 : Int),
          ((if afterPoint then P + ds.length else P : Nat) : Int)), rest)
      else .error .rejected := by
  induction ds generalizing M T P with
  | nil =>
    cases rest with
    | nil => simp [mantissaLoop, hM]
    | cons c rest =>
      have hc : isDigit c = false := hrest c (by simp)
      simp [mantissaLoop, hc, hM]
  | cons c ds ih =>
    have hc := hds c (by simp)
    have hds' : ∀ x ∈ ds, isDigit x = true := fun x hx => hds x (by simp [hx])
    simp only [List.length_cons] at hT hP
    rw [List.cons_append, mantissaLoop, if_pos hc, ProcessMantissaDigit_eq hc hM (by omega),
      pushDigits_cons]
    by_cases hp : ((pushDigit (M, T) (c.toNat - 48)).1 : Int) ≤ UPPER_BOUND
    · have hle := pushDigit_snd_le (M, T) (c.toNat - 48)
      simp only at hle
      rw [if_pos hp, ok_bind]
      cases afterPoint with
      | false =>
        simp only [Bool.false_eq_true, if_false, pure_bind]
        rw [ih hds' hp (by omega) (by omega)]
        rfl
      | true =>
        simp only [if_true]
        rw [int32_of_lt (by omega) (by omega), ok_bind,
          show (P : Int) + 1 = ((P + 1 : Nat) : Int) by push_cast; rfl, ih hds' hp (by omega) (by omega),
          show P + 1 + ds.length = P + (ds.length + 1) by omega]
        rfl
    · rw [if_neg hp, error_bind, if_neg]
      exact fun h => hp (le_trans (by exact_mod_cast le_pushDigits _ ds) h)

/-- The exponent loop over a run of digits followed by a non-digit reads
their value after `E`, failing exactly when it passes `UPPER_BOUND`. -/
theorem exponentLoop_eq (ds rest : List UInt8) (hds : ∀ c ∈ ds, isDigit c = true)
    (hrest : ∀ c ∈ rest.head?, isDigit c = false) {E : Nat} (hE : (E : Int) ≤ UPPER_BOUND) :
    exponentLoop (ds ++ rest) E =
      if ((E * 10 ^ ds.length + value ds : Nat) : Int) ≤ UPPER_BOUND then
        .ok (((E * 10 ^ ds.length + value ds : Nat) : Int), rest)
      else .error .rejected := by
  induction ds generalizing E with
  | nil =>
    cases rest with
    | nil => simp [exponentLoop, hE]
    | cons c rest =>
      have hc : isDigit c = false := hrest c (by simp)
      simp [exponentLoop, hc, hE]
  | cons c ds ih =>
    have hc := hds c (by simp)
    have hd := isDigit_iff.mp hc
    have hds' : ∀ x ∈ ds, isDigit x = true := fun x hx => hds x (by simp [hx])
    -- the value read so far, times the rest of the places
    have hval : E * 10 ^ (ds.length + 1) + value (c :: ds) =
        (E * 10 + (c.toNat - 48)) * 10 ^ ds.length + value ds := by
      rw [value_cons, pow_succ]
      ring
    have hk : (E : Int) * 10 ≤ ((E * 10 ^ (ds.length + 1) + value (c :: ds) : Nat) : Int) := by
      have := le_trans (Nat.mul_le_mul_left E (Nat.le_self_pow (show ds.length + 1 ≠ 0 by omega) 10))
        (Nat.le_add_right _ (value (c :: ds)))
      exact_mod_cast this
    rw [List.cons_append, exponentLoop, if_pos hc, UPPER_BOUND_div_ten, List.length_cons]
    rw [UPPER_BOUND_eq] at hE ih ⊢
    by_cases hbig : (E : Int) > 99999999999999999
    · rw [if_pos hbig, if_neg (by omega)]
    · rw [if_neg hbig, int64_of_le (by omega) (by omega), ok_bind, int64_of_le (by omega) (by omega),
        ok_bind, int64_of_le (by omega) (by omega), ok_bind,
        show (E : Int) * 10 + (c.toNat : Int) - 48 = ((E * 10 + (c.toNat - 48) : Nat) : Int) by
          push_cast; omega,
        ih hds' (by push_cast; omega), hval]

end Loops

/-- The end of the parser, from a state in range: the exponent is the
source's sum, and the mantissa is scaled by it when it lies in `[0, 18)` and
the product stays in range. -/
theorem finishFixedPoint_eq (mantissa_sign exponent_sign : Bool) {M E T P : Nat} {decimals : Int}
    (hM : (M : Int) ≤ UPPER_BOUND) (hE : (E : Int) ≤ UPPER_BOUND) (hT : T < 2 ^ 31)
    (hP : P < 2 ^ 31) (hd : -2 ^ 31 ≤ decimals ∧ decimals < 2 ^ 31) :
    finishFixedPoint mantissa_sign exponent_sign M E T P decimals =
      let e := (if exponent_sign then -(E : Int) else E) - P + T + decimals
      if e < 0 ∨ e ≥ 18 then .error .rejected
      else if ((M * 10 ^ e.toNat : Nat) : Int) > UPPER_BOUND then .error .rejected
      else .ok ((if mantissa_sign then -1 else 1) * ((M * 10 ^ e.toNat : Nat) : Int)) := by
  rw [UPPER_BOUND_eq] at hM hE
  -- each sum stays far inside `int64_t`
  have hexp : negateIf exponent_sign E = .ok (if exponent_sign then -(E : Int) else E) := by
    cases exponent_sign
    · rfl
    · exact int64_of_le (by omega) (by omega)
  have hman : negateIf mantissa_sign M = .ok (if mantissa_sign then -(M : Int) else M) := by
    cases mantissa_sign
    · rfl
    · exact int64_of_le (by omega) (by omega)
  have hsign : -999999999999999999 ≤ (if exponent_sign then -(E : Int) else E) ∧
      (if exponent_sign then -(E : Int) else E) ≤ 999999999999999999 := by
    split <;> omega
  unfold finishFixedPoint
  rw [hexp, ok_bind, int64_of_le (by omega) (by omega), ok_bind, int64_of_le (by omega) (by omega),
    ok_bind, hman, ok_bind, int64_of_le (by omega) (by omega), ok_bind]
  simp only
  generalize (if exponent_sign then -(E : Int) else E) - P + T + decimals = e
  by_cases hrange : e < 0 ∨ e ≥ 18
  · rcases hrange with h | h
    · rw [if_pos h, if_pos (.inl h)]
    · rw [if_neg (by omega), if_pos h, if_pos (.inr h)]
  · rw [if_neg (by omega), if_neg (by omega), if_neg hrange]
    -- the scaled magnitude decides, whatever the sign
    have hsm : (if mantissa_sign then -(M : Int) else M) * 10 ^ e.toNat =
        (if mantissa_sign then -1 else 1) * ((M * 10 ^ e.toNat : Nat) : Int) := by
      push_cast
      split <;> ring
    rw [finalLoop_eq (by rw [UPPER_BOUND_eq]; split <;> omega), hsm, UPPER_BOUND_eq]
    by_cases hbig : ((M * 10 ^ e.toNat : Nat) : Int) > 999999999999999999
    · rw [if_neg (by split <;> omega), error_bind, if_pos hbig]
    · rw [if_pos (by split <;> omega), ok_bind, if_neg (by split <;> omega), if_neg hbig]
      rfl

/-! ## Literals -/

/-- A number as the pattern `-?(0|[1-9][0-9]*)(\.[0-9]+)?([eE][+-]?[0-9]+)?`
spells it: a sign, the whole part, perhaps a fraction, perhaps an exponent
with its letter, its sign (nothing, `+` or `-`) and its digits. -/
structure Literal where
  negative : Bool
  whole : List UInt8
  fraction : Option (List UInt8)
  exponent : Option (UInt8 × List UInt8 × List UInt8)
  whole_ok : whole = [48] ∨ ∃ c ds, whole = c :: ds ∧ 49 ≤ c ∧ c ≤ 57 ∧ ∀ x ∈ ds, isDigit x = true
  fraction_ok : ∀ f ∈ fraction, f ≠ [] ∧ ∀ x ∈ f, isDigit x = true
  exponent_ok : ∀ e ∈ exponent, (e.1 = 101 ∨ e.1 = 69) ∧ (e.2.1 = [] ∨ e.2.1 = [43] ∨ e.2.1 = [45]) ∧
    e.2.2 ≠ [] ∧ ∀ x ∈ e.2.2, isDigit x = true

namespace Literal

variable (lit : Literal)

/-- `.` and the fraction digits, if there is a fraction. -/
def fractionPart : List UInt8 :=
  match lit.fraction with
  | none => []
  | some f => 46 :: f

/-- The letter, the sign and the digits of the exponent, if there is one. -/
def exponentPart : List UInt8 :=
  match lit.exponent with
  | none => []
  | some (x, sign, ds) => x :: (sign ++ ds)

/-- The string a literal is. -/
def render : List UInt8 :=
  (if lit.negative then [45] else []) ++ lit.whole ++ lit.fractionPart ++ lit.exponentPart

def fractionDigits : List UInt8 := lit.fraction.getD []

def exponentDigits : List UInt8 :=
  match lit.exponent with
  | none => []
  | some (_, _, ds) => ds

def exponentNegative : Bool :=
  match lit.exponent with
  | none => false
  | some (_, sign, _) => sign == [45]

def exponentValue : Int :=
  if lit.exponentNegative then -(value lit.exponentDigits : Int) else value lit.exponentDigits

/-- The number a literal stands for. -/
def number : ℚ :=
  (if lit.negative then -1 else 1) * (value (lit.whole ++ lit.fractionDigits) : ℚ) *
    10 ^ (lit.exponentValue - lit.fractionDigits.length)

/-- The whole digits the mantissa loop reads: none for the single `0`,
which the source passes over. -/
def wholeDigits : List UInt8 := if lit.whole = [48] then [] else lit.whole

/-- The digits the mantissa loops read, before and after the point. -/
def mantissaDigits : List UInt8 := lit.wholeDigits ++ lit.fractionDigits

/-- `rest` does not go on with the literal: no digit after digits, no `e`
or `E` where an exponent could start, no `.` where a fraction could. -/
def Ends (rest : List UInt8) : Prop :=
  ∀ c ∈ rest.head?,
    ((lit.exponent.isSome ∨ lit.fraction.isSome ∨ lit.whole ≠ [48]) → isDigit c = false) ∧
    (lit.exponent = none → c ≠ 101 ∧ c ≠ 69) ∧
    (lit.exponent = none → lit.fraction = none → c ≠ 46)

/-- What the parser makes of a literal: the mantissa digits pushed with
their trailing zeros apart, the exponent the source sums up, and the
rejections of its loops and its range checks. -/
def outcome (decimals : Int) : Except Stop Int :=
  let mt := pushDigits (0, 0) lit.mantissaDigits
  if (mt.1 : Int) > UPPER_BOUND ∨ (value lit.exponentDigits : Int) > UPPER_BOUND then .error .rejected
  else
    let e := lit.exponentValue - lit.fractionDigits.length + mt.2 + decimals
    if e < 0 ∨ e ≥ 18 then .error .rejected
    else if ((mt.1 * 10 ^ e.toNat : Nat) : Int) > UPPER_BOUND then .error .rejected
    else .ok ((if lit.negative then -1 else 1) * ((mt.1 * 10 ^ e.toNat : Nat) : Int))

end Literal

/-! ## Integers among `m * 10 ^ e` -/

/-- `m * 10 ^ e`, for `m` not a multiple of ten, is an integer exactly when
`e` is not negative. -/
theorem isInt_mul_zpow_ten {m : Nat} (hm : ¬10 ∣ m) (e : Int) :
    (∃ n : Int, (n : ℚ) = m * 10 ^ e) ↔ 0 ≤ e := by
  constructor
  · rintro ⟨n, hn⟩
    by_contra he
    -- a negative power would make ten divide `m`
    obtain ⟨k, hk⟩ : ∃ k : Nat, e = -((k + 1 : Nat) : Int) := ⟨(-e).toNat - 1, by omega⟩
    have h10 : (n : ℚ) * 10 ^ (k + 1) = m := by
      rw [hn, hk, zpow_neg, zpow_natCast, mul_assoc, inv_mul_cancel₀ (by positivity), mul_one]
    have hz : n * 10 ^ (k + 1) = (m : Int) := by exact_mod_cast h10
    have : (10 : Int) ∣ m := ⟨n * 10 ^ k, by rw [← hz, pow_succ]; ring⟩
    exact hm (by exact_mod_cast this)
  · intro he
    refine ⟨m * 10 ^ e.toNat, ?_⟩
    push_cast
    rw [← zpow_natCast, Int.toNat_of_nonneg he]

/-! ## The phases on a literal -/

theorem parseSign_of_ne {s : List UInt8} (h : ∀ c ∈ s.head?, c ≠ 45) : parseSign s = (false, s) := by
  unfold parseSign
  split
  · simp at h
  · rfl

theorem parseFraction_of_ne (M T : Int) {s : List UInt8} (h : ∀ c ∈ s.head?, c ≠ 46) :
    parseFraction M T s = .ok ((M, T, 0), s) := by
  unfold parseFraction
  split
  · simp at h
  · simp at h
  · rfl

theorem parseExponent_of_ne {s : List UInt8} (h : ∀ c ∈ s.head?, c ≠ 101 ∧ c ≠ 69) :
    parseExponent s = .ok ((false, 0), s) := by
  cases s with
  | nil => rfl
  | cons c s =>
    have hc := h c (by simp)
    rw [parseExponent, if_neg (fun h => h.elim hc.1 hc.2)]

theorem exponentSign_append {sign t : List UInt8} (hsign : sign = [] ∨ sign = [43] ∨ sign = [45])
    (ht : ∀ c ∈ t.head?, c ≠ 43 ∧ c ≠ 45) : exponentSign (sign ++ t) = (sign == [45], t) := by
  rcases hsign with rfl | rfl | rfl
  · cases t with
    | nil => rfl
    | cons c t =>
      have hc := ht c (by simp)
      simp [exponentSign, hc.1, hc.2]
  · rfl
  · rfl

theorem parseWhole_reject {s : List UInt8} (h : ∀ c ∈ s.head?, isDigit c = false) :
    parseWhole s = .error .rejected := by
  cases s with
  | nil => rfl
  | cons c s =>
    have hc := h c (by simp)
    have h48 : c ≠ 48 := fun h => by subst h; exact absurd hc (by decide)
    have hrange : ¬(49 ≤ c ∧ c ≤ 57) := fun ⟨h1, h2⟩ => by
      have := (isDigit_iff (c := c)).mpr ⟨by simp [UInt8.le_iff_toNat_le] at h1; omega,
        by simp [UInt8.le_iff_toNat_le] at h2; omega⟩
      rw [hc] at this
      exact absurd this (by decide)
    unfold parseWhole
    split
    · next heq => exact absurd (List.cons.inj heq).1 h48
    · next c' rest _ heq =>
      obtain ⟨rfl, rfl⟩ := List.cons.inj heq
      rw [if_neg hrange]
    · next heq => simp at heq

/-- A point with no digit after it is rejected. -/
theorem parseFraction_point_reject (M T : Int) {r : List UInt8} (hr : ∀ c ∈ r.head?, isDigit c = false) :
    parseFraction M T (46 :: r) = .error .rejected := by
  cases r with
  | nil => rfl
  | cons c r =>
    rw [parseFraction, if_neg (by simp [hr c (by simp)])]

/-- An exponent letter with no digit after the sign is rejected. -/
theorem parseExponent_letter_reject {x : UInt8} (hx : x = 101 ∨ x = 69) {r : List UInt8}
    (hr : ∀ c ∈ (exponentSign r).2.head?, isDigit c = false) :
    parseExponent (x :: r) = .error .rejected := by
  rw [parseExponent, if_pos hx]
  split
  · next sign d more heq =>
    rw [heq] at hr
    rw [if_neg (by simp [hr d (by simp)])]
  · rfl

/-! ### How any string splits -/

theorem head_dropWhile_isDigit (t : List UInt8) :
    ∀ c ∈ (t.dropWhile isDigit).head?, isDigit c = false := by
  intro c hc
  have hne : t.dropWhile isDigit ≠ [] := by
    intro h
    simp [h] at hc
  rw [List.head?_eq_some_head hne, Option.mem_def, Option.some.injEq] at hc
  rw [← hc]
  exact List.head_dropWhile_not isDigit hne

theorem parseSign_spec (s : List UInt8) :
    s = (if (parseSign s).1 then [45] else []) ++ (parseSign s).2 := by
  unfold parseSign
  split
  · simp
  · rfl

theorem exponentSign_spec (r : List UInt8) :
    ∃ S, (S = [] ∨ S = [43] ∨ S = [45]) ∧ r = S ++ (exponentSign r).2 ∧ (exponentSign r).1 = (S == [45]) := by
  unfold exponentSign
  split
  · exact ⟨[43], .inr (.inl rfl), rfl, rfl⟩
  · exact ⟨[45], .inr (.inr rfl), rfl, rfl⟩
  · exact ⟨[], .inl rfl, rfl, rfl⟩

/-- A string after the sign starts with a whole part, or with no digit. -/
theorem whole_split (s : List UInt8) :
    (∀ c ∈ s.head?, isDigit c = false) ∨
      ∃ W X, s = W ++ X ∧
        (W = [48] ∨ ∃ c ds, W = c :: ds ∧ 49 ≤ c ∧ c ≤ 57 ∧ ∀ x ∈ ds, isDigit x = true) ∧
        (W ≠ [48] → ∀ c ∈ X.head?, isDigit c = false) := by
  cases s with
  | nil => exact .inl (by simp)
  | cons c t =>
    by_cases hc : isDigit c = true
    · right
      by_cases h48 : c = 48
      · exact ⟨[48], t, by rw [h48]; rfl, .inl rfl, fun h => absurd rfl h⟩
      · have hd := isDigit_iff.mp hc
        have h48' : c.toNat ≠ 48 := fun h => h48 (UInt8.toNat_inj.mp h)
        refine ⟨c :: t.takeWhile isDigit, t.dropWhile isDigit, by simp,
          .inr ⟨c, _, rfl, ?_, ?_, fun x hx => of_mem_takeWhile hx⟩,
          fun _ => head_dropWhile_isDigit t⟩
        · simp only [UInt8.le_iff_toNat_le, UInt8.reduceToNat]
          omega
        · simp only [UInt8.le_iff_toNat_le, UInt8.reduceToNat]
          omega
    · exact .inl (by simpa using hc)

/-- After the whole part comes a point with no digit, or a fraction (perhaps
none) that stops where the next phase starts. -/
theorem fraction_split (X : List UInt8) :
    (∃ r, X = 46 :: r ∧ ∀ c ∈ r.head?, isDigit c = false) ∨
      ∃ (F : Option (List UInt8)) (Y : List UInt8),
        X = (match F with | none => [] | some f => 46 :: f) ++ Y ∧
        (∀ f ∈ F, f ≠ [] ∧ ∀ x ∈ f, isDigit x = true) ∧
        ∀ c ∈ Y.head?, (F.isSome → isDigit c = false) ∧ (F = none → c ≠ 46) := by
  cases X with
  | nil => exact .inr ⟨none, [], rfl, by simp, by simp⟩
  | cons x r =>
    by_cases hx : x = 46
    · subst hx
      cases r with
      | nil => exact .inl ⟨[], rfl, by simp⟩
      | cons d t =>
        by_cases hd : isDigit d = true
        · refine .inr ⟨some (d :: t.takeWhile isDigit), t.dropWhile isDigit, by simp, ?_, ?_⟩
          · intro f hf
            simp only [Option.mem_def, Option.some.injEq] at hf
            subst hf
            refine ⟨by simp, fun y hy => ?_⟩
            rcases List.mem_cons.mp hy with rfl | hy
            · exact hd
            · exact of_mem_takeWhile hy
          · exact fun c hc => ⟨fun _ => head_dropWhile_isDigit t c hc, fun h => by cases h⟩
        · exact .inl ⟨d :: t, rfl, by simpa using hd⟩
    · exact .inr ⟨none, x :: r, rfl, by simp, fun c hc => ⟨(fun h => by cases h), fun _ => by
        simp only [List.head?_cons, Option.mem_def, Option.some.injEq] at hc
        exact hc ▸ hx⟩⟩

/-- After the fraction comes a letter with no digit after its sign, or an
exponent (perhaps none) that stops where the string goes on. -/
theorem exponent_split (Y : List UInt8) :
    (∃ x r, Y = x :: r ∧ (x = 101 ∨ x = 69) ∧ ∀ c ∈ (exponentSign r).2.head?, isDigit c = false) ∨
      ∃ (Ex : Option (UInt8 × List UInt8 × List UInt8)) (rest : List UInt8),
        Y = (match Ex with | none => [] | some (x, sign, ds) => x :: (sign ++ ds)) ++ rest ∧
        (∀ e ∈ Ex, (e.1 = 101 ∨ e.1 = 69) ∧ (e.2.1 = [] ∨ e.2.1 = [43] ∨ e.2.1 = [45]) ∧
          e.2.2 ≠ [] ∧ ∀ x ∈ e.2.2, isDigit x = true) ∧
        ∀ c ∈ rest.head?, (Ex.isSome → isDigit c = false) ∧ (Ex = none → c ≠ 101 ∧ c ≠ 69) := by
  cases Y with
  | nil => exact .inr ⟨none, [], rfl, by simp, by simp⟩
  | cons x r =>
    by_cases hx : x = 101 ∨ x = 69
    · obtain ⟨S, hS, hr, -⟩ := exponentSign_spec r
      cases hsr : (exponentSign r).2 with
      | nil => exact .inl ⟨x, r, rfl, hx, by simp [hsr]⟩
      | cons d t =>
        by_cases hd : isDigit d = true
        · refine .inr ⟨some (x, S, d :: t.takeWhile isDigit), t.dropWhile isDigit, ?_, ?_, ?_⟩
          · rw [hsr] at hr
            conv_lhs => rw [hr]
            simp
          · intro e he
            simp only [Option.mem_def, Option.some.injEq] at he
            subst he
            refine ⟨hx, hS, by simp, fun y hy => ?_⟩
            rcases List.mem_cons.mp hy with rfl | hy
            · exact hd
            · exact of_mem_takeWhile hy
          · exact fun c hc => ⟨fun _ => head_dropWhile_isDigit t c hc, fun h => by cases h⟩
        · exact .inl ⟨x, r, rfl, hx, by simpa [hsr] using hd⟩
    · exact .inr ⟨none, x :: r, rfl, by simp, fun c hc => ⟨(fun h => by cases h), fun _ => by
        simp only [List.head?_cons, Option.mem_def, Option.some.injEq] at hc
        subst hc
        exact not_or.mp hx⟩⟩

/-- A digit is none of the signs, the point and the exponent letters. -/
theorem digit_ne {c : UInt8} (hc : isDigit c = true) :
    c ≠ 43 ∧ c ≠ 45 ∧ c ≠ 46 ∧ c ≠ 101 ∧ c ≠ 69 := by
  have := isDigit_iff.mp hc
  refine ⟨?_, ?_, ?_, ?_, ?_⟩ <;> intro h <;> subst h <;> simp at this

namespace Literal

variable (lit : Literal)

theorem whole_isDigit : ∀ c ∈ lit.whole, isDigit c = true := by
  rcases lit.whole_ok with h | ⟨c, ds, h, hc1, hc2, hds⟩
  · rw [h]
    intro c hc
    rw [List.mem_singleton.mp hc]
    rfl
  · rw [h]
    intro x hx
    rcases List.mem_cons.mp hx with rfl | hx
    · exact isDigit_iff.mpr ⟨by simp [UInt8.le_iff_toNat_le] at hc1; omega, by
        simp [UInt8.le_iff_toNat_le] at hc2; omega⟩
    · exact hds x hx

theorem whole_ne_nil : lit.whole ≠ [] := by
  rcases lit.whole_ok with h | ⟨c, ds, h, -⟩ <;> simp [h]

theorem fractionDigits_isDigit : ∀ c ∈ lit.fractionDigits, isDigit c = true := by
  intro c hc
  cases hf : lit.fraction with
  | none => simp [fractionDigits, hf] at hc
  | some f =>
    simp only [fractionDigits, hf, Option.getD_some] at hc
    exact (lit.fraction_ok f hf).2 c hc

theorem exponentDigits_isDigit : ∀ c ∈ lit.exponentDigits, isDigit c = true := by
  intro c hc
  rcases he : lit.exponent with _ | ⟨x, sign, ds⟩
  · simp [exponentDigits, he] at hc
  · simp only [exponentDigits, he] at hc
    exact (lit.exponent_ok _ he).2.2.2 c hc

/-- The sign is read off the front. -/
theorem parseSign_render (rest : List UInt8) :
    parseSign (lit.render ++ rest) =
      (lit.negative, lit.whole ++ lit.fractionPart ++ lit.exponentPart ++ rest) := by
  obtain ⟨c, t, hct⟩ := List.exists_cons_of_ne_nil lit.whole_ne_nil
  have hc := lit.whole_isDigit c (by simp [hct])
  unfold render
  cases lit.negative with
  | true => simp [parseSign]
  | false =>
    simp only [if_false, Bool.false_eq_true, List.nil_append]
    rw [parseSign_of_ne]
    rw [hct]
    simpa using (digit_ne hc).2.1

/-- The whole part: the single `0` passes, other digits go through the
mantissa loop up to the first non-digit. -/
theorem parseWhole_render {X : List UInt8} (hX : lit.whole ≠ [48] → ∀ c ∈ X.head?, isDigit c = false)
    (hlen : lit.whole.length < 2 ^ 31) :
    parseWhole (lit.whole ++ X) =
      if ((pushDigits (0, 0) lit.wholeDigits).1 : Int) ≤ UPPER_BOUND then
        .ok ((((pushDigits (0, 0) lit.wholeDigits).1 : Int), ((pushDigits (0, 0) lit.wholeDigits).2 : Int)), X)
      else .error .rejected := by
  rcases lit.whole_ok with h0 | ⟨c, ds, hcd, hc1, hc2, hds⟩
  · simp [wholeDigits, h0, parseWhole, UPPER_BOUND_eq]
  · have hc48 : c ≠ 48 := fun h => by subst h; simp at hc1
    have hw : lit.wholeDigits = c :: ds := by simp [wholeDigits, hcd, hc48]
    have hloop := mantissaLoop_eq false (c :: ds) X (fun x hx => lit.whole_isDigit x (by
      rw [hcd]; exact hx)) (hX (by simp [hcd, hc48])) (M := 0) (T := 0) (P := 0) (by decide)
      (by rw [← hcd]; omega) (by rw [← hcd]; omega)
    simp only [Nat.cast_zero] at hloop
    rw [hw, hcd, List.cons_append]
    unfold parseWhole
    split
    · next heq => exact absurd (List.cons.inj heq).1 hc48
    · next c' rest hne heq =>
      obtain ⟨rfl, rfl⟩ := List.cons.inj heq
      rw [if_pos ⟨hc1, hc2⟩, ← List.cons_append, hloop]
      split <;> rfl
    · next heq => simp at heq

/-- The fraction: none leaves the state as it is, with no digit after the
point; digits after the point go through the mantissa loop. -/
theorem parseFraction_render {Y : List UInt8}
    (hY : ∀ c ∈ Y.head?, (lit.fraction.isSome → isDigit c = false) ∧ (lit.fraction = none → c ≠ 46))
    {M T : Nat} (hM : (M : Int) ≤ UPPER_BOUND) (hT : T + lit.fractionDigits.length < 2 ^ 31) :
    parseFraction M T (lit.fractionPart ++ Y) =
      if ((pushDigits (M, T) lit.fractionDigits).1 : Int) ≤ UPPER_BOUND then
        .ok ((((pushDigits (M, T) lit.fractionDigits).1 : Int),
          ((pushDigits (M, T) lit.fractionDigits).2 : Int), (lit.fractionDigits.length : Int)), Y)
      else .error .rejected := by
  have hdig := lit.fractionDigits_isDigit
  cases hf : lit.fraction with
  | none =>
    simp only [fractionPart, fractionDigits, hf, Option.getD_none, List.nil_append, pushDigits_nil,
      List.length_nil, Nat.cast_zero] at hT ⊢
    rw [if_pos hM, parseFraction_of_ne _ _ fun c hc => (hY c hc).2 hf]
  | some f =>
    obtain ⟨c, t, rfl⟩ := List.exists_cons_of_ne_nil (lit.fraction_ok f hf).1
    simp only [fractionDigits, hf, Option.getD_some] at hdig hT ⊢
    have hloop := mantissaLoop_eq true (c :: t) Y hdig
      (fun x hx => (hY x hx).1 (by simp [hf])) (P := 0) hM hT (by omega)
    simp only [Nat.cast_zero, if_true, Nat.zero_add] at hloop
    rw [fractionPart, hf, List.cons_append, List.cons_append, parseFraction, if_pos (hdig c (by simp)),
      ← List.cons_append, hloop]

/-- The exponent: none reads nothing; otherwise the letter, the sign and
the value of the digits, if it is in range. -/
theorem parseExponent_render {rest : List UInt8}
    (hrest : ∀ c ∈ rest.head?, (lit.exponent.isSome → isDigit c = false) ∧
      (lit.exponent = none → c ≠ 101 ∧ c ≠ 69)) :
    parseExponent (lit.exponentPart ++ rest) =
      if (value lit.exponentDigits : Int) ≤ UPPER_BOUND then
        .ok ((lit.exponentNegative, (value lit.exponentDigits : Int)), rest)
      else .error .rejected := by
  have hdig := lit.exponentDigits_isDigit
  rcases he : lit.exponent with _ | ⟨x, sign, ds⟩
  · simp only [exponentPart, exponentDigits, exponentNegative, he, List.nil_append, value_nil,
      Nat.cast_zero]
    rw [if_pos (by decide), parseExponent_of_ne fun c hc => (hrest c hc).2 he]
  · obtain ⟨hx, hsign, hne, -⟩ := lit.exponent_ok _ he
    simp only [exponentDigits, he] at hdig
    obtain ⟨d, t, rfl⟩ := List.exists_cons_of_ne_nil hne
    have hd := hdig d (by simp)
    have hloop := exponentLoop_eq (d :: t) rest hdig
      (fun c hc => (hrest c hc).1 (by simp [he])) (E := 0) (by decide)
    simp only [Nat.zero_mul, Nat.zero_add, Nat.cast_zero] at hloop
    simp only [exponentPart, exponentDigits, exponentNegative, he]
    rw [List.cons_append, parseExponent, if_pos hx, List.append_assoc,
      exponentSign_append hsign (by simpa using ⟨(digit_ne hd).1, (digit_ne hd).2.1⟩)]
    simp only [List.cons_append]
    rw [if_pos hd, ← List.cons_append, hloop]
    split <;> rfl

/-! ### Where each phase stops -/

section Ends

variable {lit} {rest : List UInt8}

theorem isDigit_letter {x : UInt8} (hx : x = 101 ∨ x = 69) : isDigit x = false := by
  rcases hx with rfl | rfl <;> rfl

/-- After the whole digits comes the point, a letter or what follows the
literal, so no digit unless the whole part is the single `0`. -/
theorem Ends.whole (hends : lit.Ends rest) (hw : lit.whole ≠ [48]) :
    ∀ c ∈ (lit.fractionPart ++ lit.exponentPart ++ rest).head?, isDigit c = false := by
  rcases hf : lit.fraction with _ | f
  · rcases he : lit.exponent with _ | ⟨x, sign, ds⟩
    · simp only [fractionPart, exponentPart, hf, he, List.nil_append]
      exact fun c hc => (hends c hc).1 (.inr (.inr hw))
    · simp only [fractionPart, exponentPart, hf, he, List.nil_append, List.cons_append,
        List.head?_cons, Option.mem_def, Option.some.injEq]
      rintro c rfl
      exact isDigit_letter (lit.exponent_ok _ he).1
  · simp only [fractionPart, hf, List.cons_append, List.head?_cons, Option.mem_def,
      Option.some.injEq]
    rintro c rfl
    rfl

/-- After the fraction comes a letter or what follows the literal. -/
theorem Ends.fraction (hends : lit.Ends rest) :
    ∀ c ∈ (lit.exponentPart ++ rest).head?,
      (lit.fraction.isSome → isDigit c = false) ∧ (lit.fraction = none → c ≠ 46) := by
  rcases he : lit.exponent with _ | ⟨x, sign, ds⟩
  · simp only [exponentPart, he, List.nil_append]
    exact fun c hc => ⟨fun h => (hends c hc).1 (.inr (.inl h)), (hends c hc).2.2 he⟩
  · simp only [exponentPart, he, List.cons_append, List.head?_cons, Option.mem_def,
      Option.some.injEq]
    rintro c rfl
    have hx := (lit.exponent_ok _ he).1
    exact ⟨fun _ => isDigit_letter hx, fun _ => by rcases hx with rfl | rfl <;> decide⟩

theorem Ends.exponent (hends : lit.Ends rest) :
    ∀ c ∈ rest.head?, (lit.exponent.isSome → isDigit c = false) ∧
      (lit.exponent = none → c ≠ 101 ∧ c ≠ 69) :=
  fun c hc => ⟨fun h => (hends c hc).1 (.inl h), (hends c hc).2.1⟩

end Ends

theorem length_le_render : lit.whole.length + lit.fractionDigits.length ≤ lit.render.length := by
  rcases hf : lit.fraction with _ | f
  · simp only [fractionDigits, hf, Option.getD_none, List.length_nil, render, List.length_append]
    omega
  · simp only [fractionDigits, hf, Option.getD_some, render, fractionPart, List.length_append,
      List.length_cons]
    omega

theorem length_wholeDigits_le : lit.wholeDigits.length ≤ lit.whole.length := by
  unfold wholeDigits
  split <;> simp

/-- The outcome is a rejection once a loop's value passes `UPPER_BOUND`. -/
theorem outcome_of_gt {decimals : Int}
    (h : ((pushDigits (0, 0) lit.mantissaDigits).1 : Int) > UPPER_BOUND ∨
      (value lit.exponentDigits : Int) > UPPER_BOUND) :
    lit.outcome decimals = .error .rejected := by
  unfold outcome
  rw [if_pos h]

/-- The value the mantissa loops hold stands for the literal's digits. -/
theorem value_mantissaDigits :
    value (lit.whole ++ lit.fractionDigits) = value lit.mantissaDigits := by
  unfold mantissaDigits wholeDigits
  split
  · next h =>
    rw [h, List.nil_append]
    exact value_replicate_zero_append 1 _
  · rfl

/-- The number times `10 ^ decimals`, from the kept mantissa and the
exponent the source sums up. -/
theorem number_mul_zpow (decimals : Int) :
    lit.number * 10 ^ decimals =
      (if lit.negative then -1 else 1) * ((pushDigits (0, 0) lit.mantissaDigits).1 : ℚ) *
        10 ^ (lit.exponentValue - lit.fractionDigits.length +
          (pushDigits (0, 0) lit.mantissaDigits).2 + decimals) := by
  have hv := pushDigits_value (0, 0) lit.mantissaDigits
  simp only [pow_zero, Nat.mul_one, Nat.zero_mul, Nat.zero_add] at hv
  have hq : (value (lit.whole ++ lit.fractionDigits) : ℚ) =
      ((pushDigits (0, 0) lit.mantissaDigits).1 : ℚ) * 10 ^ (pushDigits (0, 0) lit.mantissaDigits).2 := by
    rw [value_mantissaDigits, ← hv]
    push_cast
    rfl
  rw [number, hq, zpow_add₀ (by norm_num), zpow_add₀ (by norm_num), zpow_natCast]
  ring

/-- A literal with neither fraction nor exponent, then a point with no
digit after it, is rejected. -/
theorem scanFixedPoint_point_reject (hf : lit.fraction = none) (he : lit.exponent = none)
    {r : List UInt8} (hr : ∀ c ∈ r.head?, isDigit c = false)
    (hlen : (lit.render ++ 46 :: r).length < 2 ^ 31) (decimals : Int) :
    scanFixedPoint (lit.render ++ 46 :: r) decimals = .error .rejected := by
  have hbound := lit.length_le_render
  have hparts : lit.fractionPart = [] ∧ lit.exponentPart = [] := by
    simp [fractionPart, exponentPart, hf, he]
  unfold scanFixedPoint
  simp only [lit.parseSign_render, hparts, List.append_nil]
  rw [lit.parseWhole_render (X := 46 :: r) (fun _ c hc => by simp at hc; subst hc; rfl)
    (by simp only [List.length_append] at hlen; omega)]
  split
  · rw [ok_bind]
    simp only
    rw [parseFraction_point_reject _ _ hr, error_bind]
  · rw [error_bind]

/-- A literal with no exponent, then an exponent letter with no digit after
its sign, is rejected. -/
theorem scanFixedPoint_letter_reject (he : lit.exponent = none) {x : UInt8} (hx : x = 101 ∨ x = 69)
    {r : List UInt8} (hr : ∀ c ∈ (exponentSign r).2.head?, isDigit c = false)
    (hlen : (lit.render ++ x :: r).length < 2 ^ 31) (decimals : Int) :
    scanFixedPoint (lit.render ++ x :: r) decimals = .error .rejected := by
  have hbound := lit.length_le_render
  have hwd := lit.length_wholeDigits_le
  have hW2 := pushDigits_snd_le (0, 0) lit.wholeDigits
  simp only at hW2
  have hpart : lit.exponentPart = [] := by simp [exponentPart, he]
  have hletter : isDigit x = false := isDigit_letter hx
  have hx46 : x ≠ 46 := by rcases hx with rfl | rfl <;> decide
  have hlen' : lit.render.length < 2 ^ 31 := by
    simp only [List.length_append] at hlen
    omega
  unfold scanFixedPoint
  simp only [lit.parseSign_render, hpart, List.append_nil, List.append_assoc]
  rw [lit.parseWhole_render (X := lit.fractionPart ++ x :: r) (fun _ c hc => by
      rcases hfr : lit.fraction with _ | f
      · simp [fractionPart, hfr] at hc
        subst hc
        exact hletter
      · simp [fractionPart, hfr] at hc
        subst hc
        rfl) (by omega)]
  split
  · next h1 =>
    rw [ok_bind]
    simp only
    rw [lit.parseFraction_render (Y := x :: r) (fun c hc => by
      simp at hc
      subst hc
      exact ⟨fun _ => hletter, fun _ => hx46⟩) h1 (by omega)]
    split
    · rw [ok_bind]
      simp only
      rw [parseExponent_letter_reject hx hr, error_bind]
    · rw [error_bind]
  · rw [error_bind]

/-- The scan of a literal followed by a string that does not go on with it:
the literal's outcome when nothing follows, a rejection otherwise. -/
theorem scanFixedPoint_append {rest : List UInt8} (hends : lit.Ends rest)
    (hlen : (lit.render ++ rest).length < 2 ^ 31) {decimals : Int}
    (hd : -2 ^ 31 ≤ decimals ∧ decimals < 2 ^ 31) :
    scanFixedPoint (lit.render ++ rest) decimals =
      if rest = [] then lit.outcome decimals else .error .rejected := by
  have hbound := lit.length_le_render
  have hwd := lit.length_wholeDigits_le
  have hlen' : lit.render.length < 2 ^ 31 := by
    simp only [List.length_append] at hlen
    omega
  -- the mantissa after the whole part, and after the fraction
  have hW2 := pushDigits_snd_le (0, 0) lit.wholeDigits
  have hQ : pushDigits (pushDigits (0, 0) lit.wholeDigits) lit.fractionDigits =
      pushDigits (0, 0) lit.mantissaDigits := by
    rw [mantissaDigits, pushDigits_append]
  have hQ2 := pushDigits_snd_le (pushDigits (0, 0) lit.wholeDigits) lit.fractionDigits
  have hWQ := le_pushDigits (pushDigits (0, 0) lit.wholeDigits) lit.fractionDigits
  rw [hQ] at hQ2 hWQ
  simp only at hW2
  -- what the literal's outcome is when a loop rejects
  have hreject : ∀ _ : ((pushDigits (0, 0) lit.mantissaDigits).1 : Int) > UPPER_BOUND ∨
      (value lit.exponentDigits : Int) > UPPER_BOUND,
      (if rest = [] then lit.outcome decimals else .error .rejected) =
      (.error .rejected : Except Stop Int) := by
    intro h
    split
    · exact lit.outcome_of_gt h
    · rfl
  unfold scanFixedPoint
  simp only [lit.parseSign_render, List.append_assoc]
  rw [lit.parseWhole_render (fun hw => by simpa [List.append_assoc] using hends.whole hw) (by omega)]
  by_cases h1 : ((pushDigits (0, 0) lit.wholeDigits).1 : Int) ≤ UPPER_BOUND
  · rw [if_pos h1, ok_bind]
    simp only
    rw [lit.parseFraction_render hends.fraction h1 (by omega), hQ]
    by_cases h2 : ((pushDigits (0, 0) lit.mantissaDigits).1 : Int) ≤ UPPER_BOUND
    · rw [if_pos h2, ok_bind]
      simp only
      rw [lit.parseExponent_render hends.exponent]
      by_cases h3 : (value lit.exponentDigits : Int) ≤ UPPER_BOUND
      · rw [if_pos h3, ok_bind]
        simp only
        by_cases hr : rest = []
        · rw [if_neg (not_not.mpr hr), if_pos hr, finishFixedPoint_eq _ _ h2 h3 (by omega) (by omega) hd]
          unfold outcome
          rw [if_neg (show ¬(((pushDigits (0, 0) lit.mantissaDigits).1 : Int) > UPPER_BOUND ∨
            (value lit.exponentDigits : Int) > UPPER_BOUND) by omega)]
          rfl
        · rw [if_pos hr, if_neg hr]
      · rw [if_neg h3, error_bind, hreject (.inr (by omega))]
    · rw [if_neg h2, error_bind, hreject (.inl (by omega))]
  · rw [if_neg h1, error_bind, hreject (.inl (by omega))]

/-- On a literal of non-zero value `v`, the outcome is `v * 10 ^ decimals`
when that is an integer of magnitude at most `UPPER_BOUND`, and a rejection
otherwise. -/
theorem outcome_spec (hlen : lit.render.length < 2 ^ 31) {decimals : Int}
    (hd : -2 ^ 31 ≤ decimals ∧ decimals < 2 ^ 31) (hv : lit.number ≠ 0) :
    ((∃ a, lit.outcome decimals = .ok a) ↔
        ∃ n : Int, (n : ℚ) = lit.number * 10 ^ decimals ∧ |n| ≤ UPPER_BOUND) ∧
      ∀ a, lit.outcome decimals = .ok a → (a : ℚ) = lit.number * 10 ^ decimals := by
  set M := (pushDigits (0, 0) lit.mantissaDigits).1 with hMdef
  set e := lit.exponentValue - lit.fractionDigits.length + (pushDigits (0, 0) lit.mantissaDigits).2 +
    decimals with hedef
  have hsplit := lit.number_mul_zpow decimals
  rw [← hMdef, ← hedef] at hsplit
  -- the kept mantissa is not zero and does not end in zero
  have hM0 : M ≠ 0 := by
    intro h
    apply hv
    have : lit.number * 10 ^ decimals = 0 := by rw [hsplit, h]; simp
    exact (mul_eq_zero.mp this).resolve_right (zpow_ne_zero _ (by norm_num))
  have hM10 : ¬10 ∣ M := by
    rcases pushDigits_not_dvd (0, 0) lit.mantissaDigits (fun c hc => by
      rcases List.mem_append.mp hc with h | h
      · unfold wholeDigits at h
        split at h
        · simp at h
        · exact lit.whole_isDigit c h
      · exact lit.fractionDigits_isDigit c h) (.inl rfl) with h | h
    · exact absurd h hM0
    · exact h
  -- the integers of the claim are `± M * 10 ^ e`, which needs `e ≥ 0`
  have hsign : ∀ n : Int, (n : ℚ) = lit.number * 10 ^ decimals →
      0 ≤ e ∧ |n| = ((M * 10 ^ e.toNat : Nat) : Int) := by
    intro n hn
    have hint : ∃ k : Int, (k : ℚ) = M * 10 ^ e := by
      refine ⟨if lit.negative then -n else n, ?_⟩
      split
      · next h =>
        push_cast
        rw [hn, hsplit, if_pos h]
        ring
      · next h =>
        rw [hn, hsplit, if_neg h]
        ring
    have he := (isInt_mul_zpow_ten hM10 e).mp hint
    refine ⟨he, ?_⟩
    have hnq : (n : ℚ) = (if lit.negative then -1 else 1) * ((M * 10 ^ e.toNat : Nat) : ℚ) := by
      rw [hn, hsplit]
      push_cast
      rw [← zpow_natCast, Int.toNat_of_nonneg he, mul_assoc]
    have hnz : n = (if lit.negative then -1 else 1) * ((M * 10 ^ e.toNat : Nat) : Int) := by
      exact_mod_cast (by rw [hnq]; split <;> simp : (n : ℚ) =
        (((if lit.negative then -1 else 1) * ((M * 10 ^ e.toNat : Nat) : Int) : Int) : ℚ))
    rw [hnz]
    split <;> simp
  -- bounds that keep `e` out of `[0, 18)` when the exponent is too long
  have hbound := lit.length_le_render
  have hT : (pushDigits (0, 0) lit.mantissaDigits).2 < 2 ^ 31 := by
    have h1 : (pushDigits (0, 0) lit.mantissaDigits).2 ≤ lit.mantissaDigits.length := by
      simpa using pushDigits_snd_le (0, 0) lit.mantissaDigits
    have h2 : lit.mantissaDigits.length = lit.wholeDigits.length + lit.fractionDigits.length := by
      simp [mantissaDigits]
    have := lit.length_wholeDigits_le
    omega
  have hMle : M ≤ M * 10 ^ e.toNat := Nat.le_mul_of_pos_right M (Nat.pow_pos (by norm_num))
  have h18 : 18 ≤ e → 10 ^ 18 ≤ M * 10 ^ e.toNat := fun h =>
    le_trans (Nat.pow_le_pow_right (by norm_num) (by omega))
      (Nat.le_mul_of_pos_left _ (Nat.pos_of_ne_zero hM0))
  unfold outcome
  simp only
  rw [← hMdef, ← hedef]
  rw [UPPER_BOUND_eq]
  set X := M * 10 ^ e.toNat with hXdef
  -- a rejection is right when no integer in range is there
  have hrej : (¬∃ n : Int, (n : ℚ) = lit.number * 10 ^ decimals ∧ |n| ≤ 999999999999999999) →
      ((∃ a, (.error .rejected : Except Stop Int) = .ok a) ↔
        ∃ n : Int, (n : ℚ) = lit.number * 10 ^ decimals ∧ |n| ≤ 999999999999999999) ∧
      ∀ a, (.error .rejected : Except Stop Int) = .ok a → (a : ℚ) = lit.number * 10 ^ decimals := by
    intro hno
    refine ⟨⟨?_, fun h => absurd h hno⟩, ?_⟩
    · rintro ⟨_, h⟩
      cases h
    · intro _ h
      cases h
  by_cases hbig : (M : Int) > 999999999999999999 ∨ (value lit.exponentDigits : Int) > 999999999999999999
  · rw [if_pos hbig]
    refine hrej fun ⟨n, hn, hle⟩ => ?_
    obtain ⟨he, habs⟩ := hsign n hn
    rcases hbig with hbig | hbig
    · omega
    · -- an exponent of nineteen digits or more puts `e` far outside `[0, 18)`
      have hX : lit.exponentValue = value lit.exponentDigits ∨
          lit.exponentValue = -(value lit.exponentDigits : Int) := by
        unfold exponentValue
        split
        · exact .inr rfl
        · exact .inl rfl
      rcases hX with hX | hX
      · have := h18 (by omega)
        omega
      · omega
  · rw [if_neg hbig]
    by_cases hrange : e < 0 ∨ e ≥ 18
    · rw [if_pos hrange]
      refine hrej fun ⟨n, hn, hle⟩ => ?_
      obtain ⟨he, habs⟩ := hsign n hn
      have := h18 (by omega)
      omega
    · rw [if_neg hrange]
      by_cases hover : (X : Int) > 999999999999999999
      · rw [if_pos hover]
        refine hrej fun ⟨n, hn, hle⟩ => ?_
        obtain ⟨he, habs⟩ := hsign n hn
        omega
      · rw [if_neg hover]
        -- the accepted value is the number times `10 ^ decimals`
        have hval : (((if lit.negative then -1 else 1) * (X : Int) : Int) : ℚ) =
            lit.number * 10 ^ decimals := by
          rw [hsplit, hXdef]
          push_cast
          rw [← zpow_natCast, Int.toNat_of_nonneg (by omega), mul_assoc]
        refine ⟨⟨fun _ => ⟨_, hval, ?_⟩, fun _ => ⟨_, rfl⟩⟩, fun a ha => ?_⟩
        · rw [abs_le]
          split <;> constructor <;> omega
        · cases ha
          exact hval

/-- The characters of a literal: digits, the signs, the point and the
exponent letters. -/
theorem mem_render {c : UInt8} (hc : c ∈ lit.render) :
    isDigit c = true ∨ c = 45 ∨ c = 46 ∨ c = 101 ∨ c = 69 ∨ c = 43 := by
  simp only [render, List.mem_append] at hc
  rcases hc with ((hs | hw) | hf) | he
  · split at hs
    · exact .inr (.inl (List.mem_singleton.mp hs))
    · simp at hs
  · exact .inl (lit.whole_isDigit c hw)
  · rcases hfr : lit.fraction with _ | f
    · simp [fractionPart, hfr] at hf
    · simp only [fractionPart, hfr, List.mem_cons] at hf
      rcases hf with rfl | hf
      · exact .inr (.inr (.inl rfl))
      · exact .inl ((lit.fraction_ok f hfr).2 c hf)
  · rcases hex : lit.exponent with _ | ⟨x, sign, ds⟩
    · simp [exponentPart, hex] at he
    · obtain ⟨hx, hsign, -, hds⟩ := lit.exponent_ok _ hex
      simp only [exponentPart, hex, List.mem_cons, List.mem_append] at he
      rcases he with rfl | hs | hd
      · rcases hx with rfl | rfl
        · exact .inr (.inr (.inr (.inl rfl)))
        · exact .inr (.inr (.inr (.inr (.inl rfl))))
      · rcases hsign with rfl | rfl | rfl
        · simp at hs
        · exact .inr (.inr (.inr (.inr (.inr (List.mem_singleton.mp hs)))))
        · exact .inr (.inl (List.mem_singleton.mp hs))
      · exact .inl (hds c hd)

/-- The literal's outcome never overflows. -/
theorem outcome_ne_overflow (decimals : Int) : lit.outcome decimals ≠ .error .overflow := by
  unfold outcome
  simp only
  split
  · exact fun h => by cases h
  · split
    · exact fun h => by cases h
    · split
      · exact fun h => by cases h
      · exact fun h => by cases h

end Literal

/-- A string of fewer than `2 ^ 31` characters is scanned whole. -/
theorem ParseFixedPoint_of_lt {val : List UInt8} (hlen : val.length < 2 ^ 31) (decimals : Int) :
    ParseFixedPoint val decimals = scanFixedPoint val decimals := by
  rw [ParseFixedPoint, scanEnd, if_pos (by omega), Nat.mod_eq_of_lt (by omega), List.take_length]

/-- Every string of fewer than `2 ^ 31` characters is rejected, or is a
literal followed by a string that does not go on with it. -/
theorem scanFixedPoint_cases {val : List UInt8} (hlen : val.length < 2 ^ 31) (decimals : Int) :
    scanFixedPoint val decimals = .error .rejected ∨
      ∃ (lit : Literal) (rest : List UInt8), val = lit.render ++ rest ∧ lit.Ends rest := by
  have hsign := parseSign_spec val
  generalize hp : parseSign val = p at hsign
  obtain ⟨neg, s1⟩ := p
  simp only at hsign
  rcases whole_split s1 with hbad | ⟨W, X, hWX, hW, hX⟩
  · -- no digit where the whole part starts
    left
    unfold scanFixedPoint
    simp only [hp]
    rw [parseWhole_reject hbad, error_bind]
  · rcases fraction_split X with ⟨r, rfl, hr⟩ | ⟨F, Y, hXY, hF, hY⟩
    · -- a point with no digit after it
      left
      let lit0 : Literal := ⟨neg, W, none, none, hW, by simp, by simp⟩
      have hval : val = lit0.render ++ 46 :: r := by
        rw [hsign, hWX]
        simp [lit0, Literal.render, Literal.fractionPart, Literal.exponentPart]
      rw [hval]
      exact lit0.scanFixedPoint_point_reject rfl rfl hr (by rw [← hval]; exact hlen) decimals
    · rcases exponent_split Y with ⟨x, r, rfl, hx, hr⟩ | ⟨Ex, rest, hYr, hEx, hrest⟩
      · -- an exponent letter with no digit after its sign
        left
        let lit1 : Literal := ⟨neg, W, F, none, hW, hF, by simp⟩
        have hval : val = lit1.render ++ x :: r := by
          rw [hsign, hWX, hXY]
          simp [lit1, Literal.render, Literal.fractionPart, Literal.exponentPart]
        rw [hval]
        exact lit1.scanFixedPoint_letter_reject rfl hx hr (by rw [← hval]; exact hlen) decimals
      · right
        refine ⟨⟨neg, W, F, Ex, hW, hF, hEx⟩, rest, ?_, ?_⟩
        · rw [hsign, hWX, hXY, hYr]
          simp [Literal.render, Literal.fractionPart, Literal.exponentPart]
        · -- each phase stopped where the next one starts
          intro c hc
          rcases Ex with _ | e
          · simp only [List.nil_append] at hYr
            subst hYr
            have hYc := hY c hc
            rcases F with _ | f
            · simp only [List.nil_append] at hXY
              subst hXY
              exact ⟨fun h => hX (by simpa using h) c hc, fun _ => (hrest c hc).2 rfl,
                fun _ _ => hYc.2 rfl⟩
            · exact ⟨fun _ => hYc.1 rfl, fun _ => (hrest c hc).2 rfl, fun _ h => by cases h⟩
          · exact ⟨fun _ => (hrest c hc).1 rfl, (fun h => by cases h), fun h => by cases h⟩

example : ParseFixedPoint ("-1.50e2".toList.map Char.toUInt8) 8 = .ok (-15000000000) := by decide

example : ParseFixedPoint ("10000000000000000000000e-10".toList.map Char.toUInt8) 0 =
    .ok 1000000000000 := by decide

example : ParseFixedPoint ("0.000000001".toList.map Char.toUInt8) 8 = .error .rejected := by decide

end Palladium.Util
