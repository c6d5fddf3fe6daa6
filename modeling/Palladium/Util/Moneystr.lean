import Palladium.Coins.Compressor
import Palladium.Util.Strencodings

/-!
# Money strings

`FormatMoney` and `ParseMoney` (`util/moneystr.cpp`). `FormatMoney` writes
`%d.%08d` of the whole coins and the remainder of an amount's magnitude and
trims trailing zeros while two digits stay after the point. `ParseMoney`
trims space and reads at most ten whole digits and at most eight fraction
digits, each fraction digit times a multiplier that starts at `COIN / 10`.

Every amount below `10 ^ 10 * COIN` comes back from `ParseMoney` of its
`FormatMoney`, a negative amount is written as its magnitude after a `-`,
and every amount `ParseMoney` accepts is below `10 ^ 10 * COIN = 10 ^ 18`:
each term it adds up is not negative, so no step leaves the range of an
`int64_t`.
-/

namespace Palladium.Util

open Decimal Palladium.Coins

set_option autoImplicit false

/-! ## FormatMoney -/

/-- The count of the trimming loop of `FormatMoney`, from index `i` down: a
`'0'` goes while the character two to its left is a digit, so that two
digits stay after the point. The loop stops at the point, before `i < 2`,
where the source would read before the string. -/
def trimCount (str : List UInt8) : Nat → Nat
  | i + 2 =>
    if str.getD (i + 2) 0 = 48 ∧ isDigit (str.getD i 0) = true then trimCount str (i + 1) + 1
    else 0
  | _ => 0

/-- `FormatMoney`: the magnitude's whole coins and remainder as `%d.%08d`
(neither is negative, so neither has a sign), trailing zeros trimmed, and a
`-` in front of a negative amount. Erasing no character changes nothing, so
the source's `if (nTrim)` is left out. -/
def FormatMoney (n : Int) : List UInt8 :=
  let n_abs := if n > 0 then n else -n
  let quotient := n_abs / COIN
  let remainder := n_abs % COIN
  let str := digits quotient.toNat ++ 46 :: padded 8 remainder.toNat
  let nTrim := trimCount str (str.length - 1)
  let str := str.take (str.length - nTrim)
  if n < 0 then 45 :: str else str

/-! ## ParseMoney -/

/-- The loop after the point: while the next character is a digit and the
multiplier is positive, add the digit times the multiplier and divide the
multiplier by ten. The units and the string from where it stopped. -/
def fractionLoop : List UInt8 → Int → Int → Int × List UInt8
  | c :: rest, nMult, nUnits =>
    if isDigit c = true ∧ nMult > 0 then
      fractionLoop rest (nMult / 10) (nUnits + nMult * ((c.toNat : Int) - 48))
    else (nUnits, c :: rest)
  | [], _, nUnits => (nUnits, [])

/-- The loop of `ParseMoney` over the whole part: digits go to `strWhole`;
the point hands over to `fractionLoop` and ends the loop; a space or any
other character fails. The whole part, the units and the string after the
loop. -/
def wholeLoop : List UInt8 → List UInt8 → Option (List UInt8 × Int × List UInt8)
  | [], strWhole => some (strWhole, 0, [])
  | c :: rest, strWhole =>
    if c = 46 then
      let r := fractionLoop rest (COIN / 10) 0
      some (strWhole, r.1, r.2)
    else if IsSpace c then none
    else if !isDigit c then none
    else wholeLoop rest (strWhole ++ [c])

/-- `ParseMoney`: the amount, when the trimmed string is digits with at most
one point, at most ten digits before it and at most eight after it. The
string holds no NUL once `ValidAsCString` passed, so its end is the end of
the C string the source walks. -/
def ParseMoney (money_string : List UInt8) : Option Int :=
  if !ValidAsCString money_string then none
  else
    let str := TrimString money_string
    if str = [] then none
    else
      match wholeLoop str [] with
      | none => none
      | some (strWhole, nUnits, p) =>
        if p ≠ [] then none
        else if strWhole.length > 10 then none
        else if nUnits < 0 ∨ nUnits > COIN then none
        else some (atoi64 strWhole * COIN + nUnits)

/-! ## Trimming -/

section Trim

variable (D F : List UInt8)

theorem getD_after_point (j : Nat) : (D ++ 46 :: F).getD (D.length + 1 + j) 0 = F.getD j 0 := by
  simp [List.getD_eq_getElem?_getD, List.getElem?_append_right, Nat.add_assoc, Nat.add_comm 1 j]

theorem getD_point : (D ++ 46 :: F).getD D.length 0 = 46 := by
  simp [List.getD_eq_getElem?_getD]

/-- Counting down from the `j`-th character after the point, the loop trims
at most `j - 1` characters, and every one of them is a `'0'`. -/
theorem trimCount_after_point : ∀ j, 1 ≤ j →
    trimCount (D ++ 46 :: F) (D.length + 1 + j) + 1 ≤ j ∧
      ∀ k < trimCount (D ++ 46 :: F) (D.length + 1 + j), F.getD (j - k) 0 = 48
  | 0, h => absurd h (by omega)
  | 1, _ => by
    -- two to the left of the first fraction digit is the point
    have h46 : isDigit 46 = false := rfl
    rw [show D.length + 1 + 1 = D.length + 2 by omega, trimCount, getD_point, h46]
    simp
  | j + 2, _ => by
    have ih := trimCount_after_point (j + 1) (by omega)
    rw [show D.length + 1 + (j + 2) = D.length + 1 + j + 2 by omega, trimCount]
    split
    · next hcond =>
      rw [show D.length + 1 + j + 1 = D.length + 1 + (j + 1) by omega]
      refine ⟨by omega, fun k hk => ?_⟩
      cases k with
      | zero =>
        rw [← getD_after_point, show D.length + 1 + (j + 2 - 0) = D.length + 1 + j + 2 by omega]
        exact hcond.1
      | succ k =>
        rw [show j + 2 - (k + 1) = j + 1 - k by omega]
        exact ih.2 k (by omega)
    · simp

end Trim

/-- A list whose last `t` entries are `'0'` ends in `t` zeros. -/
theorem drop_eq_replicate_of_getD {F : List UInt8} {t : Nat} (ht : t ≤ F.length)
    (hz : ∀ k < t, F.getD (F.length - 1 - k) 0 = 48) :
    F.drop (F.length - t) = List.replicate t 48 := by
  refine List.eq_replicate_iff.mpr ⟨by simp; omega, fun b hb => ?_⟩
  obtain ⟨i, hi, rfl⟩ := List.getElem_of_mem hb
  simp only [List.length_drop] at hi
  have h := hz (t - 1 - i) (by omega)
  rw [show F.length - 1 - (t - 1 - i) = F.length - t + i by omega, List.getD_eq_getElem?_getD,
    List.getElem?_eq_getElem (by omega)] at h
  rw [List.getElem_drop]
  exact h

theorem toNat_emod_COIN_lt (n : Int) : (n % COIN).toNat < 10 ^ 8 := by
  have h := Int.emod_lt_of_pos n (show (0 : Int) < COIN by decide)
  have h0 := Int.emod_nonneg n (show COIN ≠ 0 by decide)
  have hC : COIN = 10 ^ 8 := rfl
  rw [hC] at h h0 ⊢
  omega

/-- Trimming a string with eight digits after the point takes `t ≤ 6` of
them, all zeros. -/
theorem trim_after_point (D F : List UInt8) (hF : F.length = 8) :
    ∃ t ≤ 6, (D ++ 46 :: F).take ((D ++ 46 :: F).length -
          trimCount (D ++ 46 :: F) ((D ++ 46 :: F).length - 1)) = D ++ 46 :: F.take (8 - t) ∧
      F.drop (8 - t) = List.replicate t 48 := by
  have hlen : (D ++ 46 :: F).length = D.length + 1 + 7 + 1 := by
    simp [hF]
  obtain ⟨hle, hzero⟩ := trimCount_after_point D F 7 (by omega)
  rw [hlen, show D.length + 1 + 7 + 1 - 1 = D.length + 1 + 7 by omega]
  generalize trimCount (D ++ 46 :: F) (D.length + 1 + 7) = t at hle hzero ⊢
  refine ⟨t, by omega, ?_, ?_⟩
  · rw [List.take_append, List.take_of_length_le (by omega),
      show D.length + 1 + 7 + 1 - t - D.length = (8 - t) + 1 by omega, List.take_succ_cons]
  · have h := drop_eq_replicate_of_getD (F := F) (t := t) (by omega)
      (fun k hk => by rw [hF]; exact hzero k hk)
    rwa [hF] at h

/-- What `FormatMoney` writes of an amount that is not negative: the whole
coins, the point and the first `8 - t` digits of the padded remainder, where
the `t ≤ 6` digits trimmed are zeros. -/
theorem FormatMoney_of_nonneg {n : Int} (hn : 0 ≤ n) :
    ∃ t ≤ 6, FormatMoney n =
        digits (n / COIN).toNat ++ 46 :: (padded 8 (n % COIN).toNat).take (8 - t) ∧
      (padded 8 (n % COIN).toNat).drop (8 - t) = List.replicate t 48 := by
  have habs : (if n > 0 then n else -n) = n := by
    split <;> omega
  simp only [FormatMoney, habs, show ¬n < 0 by omega, if_false]
  exact trim_after_point _ _ (length_padded (by omega) (toNat_emod_COIN_lt n))

/-- A negative amount is written as its magnitude after a `-`. -/
theorem FormatMoney_neg {n : Int} (hn : 0 < n) : FormatMoney (-n) = 45 :: FormatMoney n := by
  simp only [FormatMoney, show ¬-n > 0 by omega, show n > 0 by omega, neg_neg, if_true, if_false,
    show -n < 0 by omega, show ¬n < 0 by omega]

/-- `-1.50`: the trim keeps two digits after the point. -/
example : FormatMoney (-150000000) = [45, 49, 46, 53, 48] := by decide

/-! ## The loops of ParseMoney -/

theorem fractionLoop_zero (s : List UInt8) (acc : Int) : fractionLoop s 0 acc = (acc, s) := by
  cases s <;> simp [fractionLoop]

/-- The fraction loop with multiplier `10 ^ m` reads the run of at most
`m + 1` digits at the front, the string's `m + 1` places below the point. -/
theorem fractionLoop_spec (s : List UInt8) (m : Nat) (acc : Int) :
    fractionLoop s (10 ^ m) acc =
      (acc + value ((s.takeWhile isDigit).take (m + 1)) *
          10 ^ (m + 1 - ((s.takeWhile isDigit).take (m + 1)).length),
        s.drop ((s.takeWhile isDigit).take (m + 1)).length) := by
  induction s generalizing m acc with
  | nil => simp [fractionLoop]
  | cons c s ih =>
    by_cases hc : isDigit c = true
    · have hd : ((c.toNat - 48 : Nat) : Int) = (c.toNat : Int) - 48 := by
        have := (isDigit_iff.mp hc).1
        omega
      rw [fractionLoop, if_pos ⟨hc, by positivity⟩, List.takeWhile_cons_of_pos hc]
      cases m with
      | zero =>
        -- the multiplier falls to zero after one digit
        rw [show ((10 : Int) ^ 0 / 10) = 0 by norm_num, fractionLoop_zero]
        simp [value_cons, hd]
      | succ m =>
        rw [show ((10 : Int) ^ (m + 1) / 10) = 10 ^ m by rw [pow_succ]; simp, ih,
          List.take_succ_cons, value_cons, List.length_cons, List.drop_succ_cons]
        have hL := List.length_take_le (m + 1) (s.takeWhile isDigit)
        have hpow : (10 : Int) ^ ((s.takeWhile isDigit).take (m + 1)).length *
            10 ^ (m + 1 - ((s.takeWhile isDigit).take (m + 1)).length) = 10 ^ (m + 1) := by
          rw [← pow_add]
          congr 1
          omega
        rw [show m + 1 + 1 - (((s.takeWhile isDigit).take (m + 1)).length + 1) =
          m + 1 - ((s.takeWhile isDigit).take (m + 1)).length by omega]
        push_cast
        rw [hd]
        congr 1
        rw [← hpow]
        ring
    · rw [fractionLoop, if_neg (fun h => hc h.1), List.takeWhile_cons_of_neg hc]
      simp

theorem COIN_div_ten : COIN / 10 = 10 ^ 7 := by
  decide

/-- The units after the point are below `COIN`. -/
theorem fractionLoop_units_lt (s : List UInt8) :
    0 ≤ (fractionLoop s (COIN / 10) 0).1 ∧ (fractionLoop s (COIN / 10) 0).1 < COIN := by
  set ds := (s.takeWhile isDigit).take (7 + 1)
  have hds : ∀ c ∈ ds, isDigit c = true := fun c hc =>
    of_mem_takeWhile (List.mem_of_mem_take hc)
  have hlt := value_lt hds
  have hL : ds.length ≤ 8 := List.length_take_le _ _
  have hpow : 10 ^ ds.length * 10 ^ (7 + 1 - ds.length) = 10 ^ 8 := by
    rw [← pow_add]
    congr 1
    omega
  rw [COIN_div_ten, fractionLoop_spec, COIN]
  simp only [Int.zero_add]
  constructor
  · positivity
  · have := Nat.mul_lt_mul_of_pos_right hlt (Nat.pow_pos (n := 7 + 1 - ds.length) (by norm_num : 0 < 10))
    rw [hpow] at this
    exact_mod_cast this

theorem wholeLoop_digits_append {ds : List UInt8} (hd : ∀ c ∈ ds, isDigit c = true)
    (rest w : List UInt8) : wholeLoop (ds ++ rest) w = wholeLoop rest (w ++ ds) := by
  induction ds generalizing w with
  | nil => simp
  | cons c ds ih =>
    have hc := hd c (by simp)
    have h46 : c ≠ 46 := fun h => by subst h; exact absurd hc (by decide)
    have hsp : IsSpace c = false := IsSpace_of_isDigit hc
    simp only [List.cons_append, wholeLoop, if_neg h46, hsp, hc, Bool.not_true, Bool.false_eq_true,
      if_false]
    rw [ih (fun x hx => hd x (by simp [hx]))]
    simp

theorem wholeLoop_point (rest w : List UInt8) :
    wholeLoop (46 :: rest) w =
      some (w, (fractionLoop rest (COIN / 10) 0).1, (fractionLoop rest (COIN / 10) 0).2) := by
  simp [wholeLoop]

/-- What the whole-part loop returns: its digits after the ones it was given,
and either nothing read after them or what the fraction loop read. -/
theorem wholeLoop_eq_some {s w strWhole p : List UInt8} {nUnits : Int}
    (h : wholeLoop s w = some (strWhole, nUnits, p)) :
    ∃ ds, strWhole = w ++ ds ∧ (∀ c ∈ ds, isDigit c = true) ∧
      (nUnits = 0 ∨ ∃ rest, nUnits = (fractionLoop rest (COIN / 10) 0).1) := by
  induction s generalizing w with
  | nil =>
    simp only [wholeLoop, Option.some.injEq, Prod.mk.injEq] at h
    exact ⟨[], by simp [h.1], by simp, .inl h.2.1.symm⟩
  | cons c s ih =>
    rw [wholeLoop] at h
    split at h
    · simp only [Option.some.injEq, Prod.mk.injEq] at h
      exact ⟨[], by simp [h.1], by simp, .inr ⟨s, h.2.1.symm⟩⟩
    · split at h
      · cases h
      · split at h
        · cases h
        · next hdig =>
          obtain ⟨ds, rfl, hds, hunits⟩ := ih h
          refine ⟨c :: ds, by simp, fun x hx => ?_, hunits⟩
          rcases List.mem_cons.mp hx with rfl | hx
          · simpa using hdig
          · exact hds x hx

/-! ## Parsing a well-formed string -/

/-- Digits are neither NUL nor space. -/
theorem digit_ne_zero {c : UInt8} (hc : isDigit c = true) : (c != 0) = true := by
  have := isDigit_iff.mp hc
  simp only [bne_iff_ne, ne_eq, ← UInt8.toNat_inj, UInt8.reduceToNat]
  omega

/-- `ParseMoney` of up to ten digits, the point and up to eight digits. -/
theorem ParseMoney_point {D F : List UInt8} (hD : ∀ c ∈ D, isDigit c = true)
    (hF : ∀ c ∈ F, isDigit c = true) (hDlen : D.length ≤ 10) (hFlen : F.length ≤ 8) :
    ParseMoney (D ++ 46 :: F) = some (value D * COIN + value F * 10 ^ (8 - F.length)) := by
  -- every character is a digit or the point
  have hchar : ∀ c ∈ D ++ 46 :: F, isDigit c = true ∨ c = 46 := by
    intro c hc
    rcases List.mem_append.mp hc with h | h
    · exact .inl (hD c h)
    · rcases List.mem_cons.mp h with h | h
      · exact .inr h
      · exact .inl (hF c h)
  have hvalid : ValidAsCString (D ++ 46 :: F) = true := by
    rw [ValidAsCString, takeWhile_eq_self fun c hc => ?_]
    · simp
    · rcases hchar c hc with h | rfl
      · exact digit_ne_zero h
      · rfl
  have htrim : TrimString (D ++ 46 :: F) = D ++ 46 :: F := by
    have h := @TrimString_eq [] (D ++ 46 :: F) [] (by simp)
      (fun c hc => by
        rcases hchar c hc with h | rfl
        · exact IsSpace_of_isDigit h
        · rfl) (by simp)
    simpa using h
  have hfrac : fractionLoop F (COIN / 10) 0 = ((value F : Int) * 10 ^ (8 - F.length), []) := by
    rw [COIN_div_ten, fractionLoop_spec, takeWhile_eq_self hF, List.take_of_length_le hFlen,
      List.drop_length]
    simp
  have hunits : 0 ≤ (value F : Int) * 10 ^ (8 - F.length) ∧
      (value F : Int) * 10 ^ (8 - F.length) ≤ COIN := by
    have h := fractionLoop_units_lt F
    rw [hfrac] at h
    exact ⟨h.1, le_of_lt h.2⟩
  have hatoi : atoi64 D = value D := by
    have hlt := value_lt hD
    have : 10 ^ D.length ≤ 10 ^ 10 := Nat.pow_le_pow_right (by norm_num) hDlen
    exact atoi64_digits hD (by rw [LLONG_MAX]; omega)
  have hloop : wholeLoop (D ++ 46 :: F) [] = some (D, (value F : Int) * 10 ^ (8 - F.length), []) := by
    rw [wholeLoop_digits_append hD, wholeLoop_point, hfrac]
    simp
  simp only [ParseMoney, hvalid, htrim, Bool.not_true, Bool.false_eq_true, if_false]
  rw [if_neg (by simp), hloop]
  simp only [ne_eq, not_true_eq_false, if_false]
  rw [if_neg (by omega), if_neg (by omega), hatoi]

/-! ## The three properties -/

/-- Every amount below `10 ^ 10 * COIN` is read back from what
`FormatMoney` writes. -/
theorem ParseMoney_FormatMoney {n : Int} (h0 : 0 ≤ n) (hn : n < 10 ^ 10 * COIN) :
    ParseMoney (FormatMoney n) = some n := by
  obtain ⟨t, ht, hfmt, hdrop⟩ := FormatMoney_of_nonneg h0
  set F := padded 8 (n % COIN).toNat
  have hF : F.length = 8 := length_padded (by omega) (toNat_emod_COIN_lt n)
  have hq : (n / COIN).toNat < 10 ^ 10 := by
    have := Int.ediv_lt_of_lt_mul (show (0 : Int) < COIN by decide) (by rwa [mul_comm] at hn)
    omega
  have hsplit : F = F.take (8 - t) ++ List.replicate t 48 := by
    rw [← hdrop, List.take_append_drop]
  have hval : value (F.take (8 - t)) * 10 ^ (8 - (F.take (8 - t)).length) = (n % COIN).toNat := by
    have hvF : value F = (n % COIN).toNat := value_padded _ _
    have hz : value (List.replicate t 48) = 0 := by
      simpa using value_replicate_zero_append t []
    have h := congrArg value hsplit
    rw [value_append, List.length_replicate, hvF, hz, Nat.add_zero] at h
    rw [List.length_take, hF, show 8 - min (8 - t) 8 = t by omega]
    simpa using h.symm
  rw [hfmt, ParseMoney_point (digits_isDigit _)
      (fun c hc => padded_isDigit _ _ c (List.mem_of_mem_take hc))
      (length_digits_le (by omega) hq) (by simp), value_digits]
  have hval' := congrArg (fun x : Nat => (x : Int)) hval
  push_cast at hval'
  rw [hval', Int.toNat_of_nonneg (Int.ediv_nonneg h0 (by decide)),
    Int.toNat_of_nonneg (Int.emod_nonneg n (by decide)), mul_comm, Int.mul_ediv_add_emod]

/-- What `ParseMoney` accepts is at most ten whole digits and units below
`COIN`, added up. -/
theorem ParseMoney_eq_some {s : List UInt8} {v : Int} (h : ParseMoney s = some v) :
    ∃ strWhole nUnits, (∀ c ∈ strWhole, isDigit c = true) ∧ strWhole.length ≤ 10 ∧
      0 ≤ nUnits ∧ nUnits < COIN ∧ v = atoi64 strWhole * COIN + nUnits := by
  dsimp only [ParseMoney] at h
  split_ifs at h
  split at h
  · cases h
  · next strWhole nUnits p hloop =>
    split_ifs at h with hp hlen hrange
    cases h
    obtain ⟨ds, hws, hds, hfrac⟩ := wholeLoop_eq_some hloop
    have hw : ∀ c ∈ strWhole, isDigit c = true := by
      rw [hws, List.nil_append]
      exact hds
    have hunits : 0 ≤ nUnits ∧ nUnits < COIN := by
      rcases hfrac with rfl | ⟨rest, rfl⟩
      · exact ⟨le_refl 0, by decide⟩
      · exact fractionLoop_units_lt rest
    exact ⟨strWhole, nUnits, hw, by omega, hunits.1, hunits.2, rfl⟩

/-- Every amount `ParseMoney` accepts is in `[0, 10 ^ 10 * COIN)`. -/
theorem ParseMoney_range {s : List UInt8} {v : Int} (h : ParseMoney s = some v) :
    0 ≤ v ∧ v < 10 ^ 10 * COIN := by
  obtain ⟨w, u, hw, hlen, hu0, hu1, rfl⟩ := ParseMoney_eq_some h
  have hlt := value_lt hw
  have hpow : 10 ^ w.length ≤ 10 ^ 10 := Nat.pow_le_pow_right (by norm_num) hlen
  have hC : COIN = 100000000 := rfl
  rw [atoi64_digits hw (by rw [LLONG_MAX]; omega), hC]
  rw [hC] at hu1
  constructor
  · positivity
  · norm_num
    omega

/-- `FormatMoney` and `ParseMoney` round-trip below `10 ^ 10 * COIN`, a
negative amount is formatted as its magnitude after a `-`, and `ParseMoney`
accepts only amounts in `[0, 10 ^ 10 * COIN)`. -/
theorem money_format_parse_roundtrip :
    (∀ n : Int, 0 ≤ n → n < 10 ^ 10 * COIN → ParseMoney (FormatMoney n) = some n) ∧
      (∀ n : Int, 0 < n → n ≤ MAX_MONEY → FormatMoney (-n) = 45 :: FormatMoney n) ∧
      (∀ s v, ParseMoney s = some v → 0 ≤ v ∧ v < 10 ^ 10 * COIN) :=
  ⟨fun _ h0 hn => ParseMoney_FormatMoney h0 hn, fun _ hn _ => FormatMoney_neg hn,
    fun _ _ h => ParseMoney_range h⟩

theorem money_format_parse_roundtrip_one_and_a_half :
    ParseMoney (FormatMoney 150000000) = some 150000000 ∧
      FormatMoney (-150000000) = 45 :: FormatMoney 150000000 ∧
      (0 ≤ (150000000 : Int) ∧ (150000000 : Int) < 10 ^ 10 * COIN) :=
  ⟨money_format_parse_roundtrip.1 150000000 (by decide) (by decide),
    money_format_parse_roundtrip.2.1 150000000 (by decide) (by decide),
    money_format_parse_roundtrip.2.2 [49, 46, 53] 150000000 (by decide)⟩

end Palladium.Util
