import Mathlib

/-!
# CScriptNum

The numbers of the script interpreter (`script/script.h`): little-endian
magnitude bytes, with the sign in the top bit of the last byte and an extra
`0x00` or `0x80` byte when the magnitude needs that bit. With
`fRequireMinimal` the constructor from bytes rejects every encoding that a
shorter one could replace.

Both loops are read as base-256 digits (`serializeLoop_eq`, `setVchLoop_eq`).
The encoding is then a bijection between the numbers and the minimal byte
strings: `serialize` is decoded back, and is the only encoding accepted.
-/

namespace Palladium.Script

open Nat (digits ofDigits)

set_option autoImplicit false

/-- The loop of `serialize`: the bytes of `absvalue`, least significant first. -/
def serializeLoop (absvalue : Nat) : List UInt8 :=
  if absvalue = 0 then [] else UInt8.ofNat (absvalue &&& 0xff) :: serializeLoop (absvalue >>> 8)
termination_by absvalue
decreasing_by
  rw [Nat.shiftRight_eq_div_pow]
  omega

/-- `CScriptNum::serialize` of an `int64_t`; `-value` is its magnitude. -/
def serialize (value : Int) : List UInt8 :=
  if value = 0 then []
  else
    let neg := value < 0
    let result := serializeLoop value.natAbs
    if result.getLastD 0 &&& 0x80 ≠ 0 then result ++ [if neg then 0x80 else 0]
    else if neg then result.modifyLast (· ||| 0x80)
    else result

/-- The loop of `set_vch`, `result |= vch[i] << 8*i`, from the first byte. -/
def setVchLoop : List UInt8 → Nat
  | [] => 0
  | b :: bs => b.toNat ||| (setVchLoop bs <<< 8)

/-- `CScriptNum::set_vch`. With the top bit of the last byte set, the result
without that bit is negated; `result & ~(0x80 << 8*(size-1))` clears a bit
that is set, which is the subtraction here. -/
def set_vch (vch : List UInt8) : Int :=
  if vch.isEmpty then 0
  else
    let result := setVchLoop vch
    if vch.getLastD 0 &&& 0x80 ≠ 0 then -((result - (0x80 <<< (8 * (vch.length - 1))) : Nat) : Int)
    else result

/-- `CScriptNum`, its `int64_t` value. -/
structure CScriptNum where
  m_value : Int
deriving DecidableEq, Repr

/-- `CScriptNum(vch, fRequireMinimal, nMaxNumSize)`. -/
def CScriptNum.ofVch (vch : List UInt8) (fRequireMinimal : Bool) (nMaxNumSize : Nat) :
    Except String CScriptNum :=
  if vch.length > nMaxNumSize then .error "script number overflow"
  -- the most significant byte without the sign bit is zero, and the byte
  -- below it leaves the sign bit free
  else if fRequireMinimal = true ∧ vch.length > 0 ∧ vch.getLastD 0 &&& 0x7f = 0 ∧
      (vch.length ≤ 1 ∨ vch.getD (vch.length - 2) 0 &&& 0x80 = 0) then
    .error "non-minimally encoded script number"
  else .ok ⟨set_vch vch⟩

def CScriptNum.getvch (n : CScriptNum) : List UInt8 := serialize n.m_value

/-! ## Bytes as base-256 digits -/

/-- The magnitude bytes of `n`: its base-256 digits. -/
def magnitudeBytes (n : Nat) : List UInt8 := (digits 256 n).map UInt8.ofNat

/-- The number that little-endian bytes spell. -/
def leValue (bs : List UInt8) : Nat := ofDigits 256 (bs.map UInt8.toNat)

theorem serializeLoop_eq (n : Nat) : serializeLoop n = magnitudeBytes n := by
  induction n using Nat.strongRecOn with
  | ind n ih =>
    rw [serializeLoop, magnitudeBytes]
    by_cases hn : n = 0
    · rw [if_pos hn, hn, Nat.digits_zero, List.map_nil]
    · rw [if_neg hn, Nat.digits_def' (by decide) (Nat.pos_of_ne_zero hn), List.map_cons,
        Nat.and_two_pow_sub_one_eq_mod n 8, Nat.shiftRight_eq_div_pow, ih _ (by omega), magnitudeBytes]

theorem or_shiftLeft_eight (b : UInt8) (x : Nat) : b.toNat ||| (x <<< 8) = b.toNat + 256 * x := by
  rw [Nat.or_comm, ← Nat.shiftLeft_add_eq_or_of_lt (b.toNat_lt : b.toNat < 2 ^ 8), Nat.shiftLeft_eq]
  omega

theorem setVchLoop_eq : ∀ bs : List UInt8, setVchLoop bs = leValue bs
  | [] => rfl
  | b :: bs => by
    rw [setVchLoop, or_shiftLeft_eight, setVchLoop_eq bs, leValue, leValue, List.map_cons,
      Nat.ofDigits_cons]

@[simp] theorem leValue_nil : leValue [] = 0 := rfl

theorem leValue_append_singleton (bs : List UInt8) (b : UInt8) :
    leValue (bs ++ [b]) = leValue bs + b.toNat * 256 ^ bs.length := by
  rw [leValue, List.map_append, Nat.ofDigits_append, List.map_singleton, Nat.ofDigits_singleton,
    List.length_map, Nat.mul_comm, ← leValue]

theorem leValue_magnitudeBytes (n : Nat) : leValue (magnitudeBytes n) = n := by
  have hmap : (magnitudeBytes n).map UInt8.toNat = digits 256 n := by
    rw [magnitudeBytes, List.map_map]
    refine List.map_congr_left (fun d hd => ?_) |>.trans (List.map_id _)
    simp [Nat.mod_eq_of_lt (Nat.digits_lt_base (by decide) hd)]
  rw [leValue, hmap, Nat.ofDigits_digits]

/-- Bytes whose last byte is not zero are the magnitude bytes of their value. -/
theorem magnitudeBytes_leValue (bs : List UInt8) (b : UInt8) (hb : b ≠ 0) :
    magnitudeBytes (leValue (bs ++ [b])) = bs ++ [b] := by
  have hdigits : digits 256 (leValue (bs ++ [b])) = (bs ++ [b]).map UInt8.toNat := by
    refine Nat.digits_ofDigits 256 (by decide) _ (fun l hl => ?_) (fun _ => ?_)
    · obtain ⟨a, -, rfl⟩ := List.mem_map.mp hl
      exact a.toNat_lt
    · rw [List.getLast_map, List.getLast_append_of_ne_nil _ (List.cons_ne_nil b []), List.getLast_singleton]
      exact fun h => hb (UInt8.toNat_inj.mp h)
  rw [magnitudeBytes, hdigits, List.map_map]
  exact List.map_congr_left (fun a _ => UInt8.ofNat_toNat) |>.trans (List.map_id _)

/-- The magnitude bytes of a positive number: some bytes, then a last byte
that is not zero. -/
theorem magnitudeBytes_pos {n : Nat} (hn : n ≠ 0) :
    ∃ init top, magnitudeBytes n = init ++ [top] ∧ top ≠ 0 := by
  have hne : magnitudeBytes n ≠ [] := by
    simpa [magnitudeBytes] using Nat.digits_ne_nil_iff_ne_zero.mpr hn
  obtain ⟨init, top, hsplit⟩ := List.eq_nil_or_concat (magnitudeBytes n) |>.resolve_left hne
  rw [List.concat_eq_append] at hsplit
  refine ⟨init, top, hsplit, fun htop => ?_⟩
  -- the last digit of a positive number is not zero
  have hmap : digits 256 n = (magnitudeBytes n).map UInt8.toNat := by
    rw [magnitudeBytes, List.map_map]
    exact (List.map_congr_left (fun d hd => by
      simp [Nat.mod_eq_of_lt (Nat.digits_lt_base (by decide) hd)])).trans (List.map_id _) |>.symm
  have hlast : (digits 256 n).getLast? = some top.toNat := by
    rw [hmap, hsplit, List.getLast?_map, List.getLast?_concat]
    rfl
  rw [List.getLast?_eq_some_getLast (Nat.digits_ne_nil_iff_ne_zero.mpr hn)] at hlast
  have hne0 := Nat.getLast_digit_ne_zero 256 hn
  rw [Option.some.inj hlast, htop] at hne0
  exact hne0 rfl

theorem length_magnitudeBytes_le {n k : Nat} (h : n < 256 ^ k) : (magnitudeBytes n).length ≤ k := by
  rw [magnitudeBytes, List.length_map]
  exact (Nat.digits_length_le_iff (by decide) n).mpr h

/-! ## The sign bit of a byte -/

theorem byte_table : ∀ n < 256,
    (UInt8.ofNat n &&& 0x80 ≠ 0 ↔ 128 ≤ n) ∧ (UInt8.ofNat n &&& 0x7f = 0 ↔ n % 128 = 0) ∧
    (128 ≤ n → UInt8.ofNat (n - 128) ||| 0x80 = UInt8.ofNat n) ∧
    (n < 128 → (UInt8.ofNat n ||| 0x80).toNat = n + 128) := by
  decide +kernel

theorem signBit_ne_zero_iff (b : UInt8) : b &&& 0x80 ≠ 0 ↔ 128 ≤ b.toNat := by
  simpa using (byte_table b.toNat b.toNat_lt).1

theorem low_bits_eq_zero_iff (b : UInt8) : b &&& 0x7f = 0 ↔ b.toNat % 128 = 0 := by
  simpa using (byte_table b.toNat b.toNat_lt).2.1

theorem sub_or_signBit {b : UInt8} (h : 128 ≤ b.toNat) : UInt8.ofNat (b.toNat - 128) ||| 0x80 = b := by
  simpa using (byte_table b.toNat b.toNat_lt).2.2.1 h

theorem toNat_or_signBit {b : UInt8} (h : b.toNat < 128) : (b ||| 0x80).toNat = b.toNat + 128 := by
  simpa using (byte_table b.toNat b.toNat_lt).2.2.2 h

/-! ## `serialize` and `set_vch` on the last byte -/

/-- `serialize` of a number that is not zero, from the last of its magnitude
bytes: a sign byte when that byte's top bit is taken, and otherwise the sign
in that bit. -/
theorem serialize_of_ne_zero {v : Int} (hv : v ≠ 0) {init : List UInt8} {top : UInt8}
    (hbytes : magnitudeBytes v.natAbs = init ++ [top]) :
    serialize v = if 128 ≤ top.toNat then init ++ [top] ++ [if v < 0 then 0x80 else 0]
      else if v < 0 then init ++ [top ||| 0x80] else init ++ [top] := by
  rw [serialize, if_neg hv]
  dsimp only
  rw [serializeLoop_eq, hbytes, List.getLastD_eq_getLast?, List.getLast?_concat, Option.getD_some]
  by_cases htop : 128 ≤ top.toNat
  · rw [if_pos ((signBit_ne_zero_iff top).mpr htop), if_pos htop]
  · rw [if_neg (fun h => htop ((signBit_ne_zero_iff top).mp h)), if_neg htop, List.modifyLast_concat]

/-- `set_vch` of bytes ending in `last`: the sign in its top bit. -/
theorem set_vch_append_singleton (init : List UInt8) (last : UInt8) :
    set_vch (init ++ [last]) = if 128 ≤ last.toNat
      then -((leValue init + (last.toNat - 128) * 256 ^ init.length : Nat) : Int)
      else ((leValue init + last.toNat * 256 ^ init.length : Nat) : Int) := by
  rw [set_vch, if_neg (by simp)]
  dsimp only
  rw [setVchLoop_eq, leValue_append_singleton, List.getLastD_eq_getLast?, List.getLast?_concat,
    Option.getD_some, List.length_append, List.length_singleton, Nat.add_sub_cancel]
  by_cases hlast : 128 ≤ last.toNat
  · rw [if_pos ((signBit_ne_zero_iff last).mpr hlast), if_pos hlast, Nat.shiftLeft_eq,
      show 8 * init.length = 8 * init.length from rfl, Nat.pow_mul]
    -- the sign bit is `0x80` times the place of the last byte
    have hplace : leValue init + last.toNat * 256 ^ init.length - 128 * 256 ^ init.length =
        leValue init + (last.toNat - 128) * 256 ^ init.length := by
      rw [Nat.sub_mul]
      have : 128 * 256 ^ init.length ≤ last.toNat * 256 ^ init.length := Nat.mul_le_mul_right _ hlast
      omega
    rw [show (2 ^ 8) ^ init.length = 256 ^ init.length from rfl, hplace]
  · rw [if_neg (fun h => hlast ((signBit_ne_zero_iff last).mp h)), if_neg hlast]

/-- The minimality check on bytes ending in `last`. -/
theorem ofVch_append_singleton (init : List UInt8) (last : UInt8) (nMaxNumSize : Nat)
    (hlen : init.length + 1 ≤ nMaxNumSize) :
    CScriptNum.ofVch (init ++ [last]) true nMaxNumSize =
      if last.toNat % 128 = 0 ∧ ∀ t, init.getLast? = some t → t.toNat < 128
      then .error "non-minimally encoded script number" else .ok ⟨set_vch (init ++ [last])⟩ := by
  rw [CScriptNum.ofVch, if_neg (by simp; omega)]
  -- the byte below the last one is the last of `init`
  have hbelow : (init.length + 1 ≤ 1 ∨ (init ++ [last]).getD (init.length + 1 - 2) 0 &&& 0x80 = 0) ↔
      ∀ t, init.getLast? = some t → t.toNat < 128 := by
    obtain rfl | ⟨init', t, rfl⟩ := List.eq_nil_or_concat init
    · simp
    · rw [List.concat_eq_append, List.getLast?_concat]
      simp only [List.length_append, List.length_singleton, Option.some.injEq, forall_eq']
      rw [List.getD_eq_getElem?_getD, show init'.length + 1 + 1 - 2 = init'.length by omega,
        List.append_assoc, List.getElem?_append_right (le_refl _), Nat.sub_self, List.singleton_append,
        List.getElem?_cons_zero, Option.getD_some]
      have := signBit_ne_zero_iff t
      constructor
      · rintro (h | h)
        · omega
        · by_contra hge
          exact this.mpr (by omega) h
      · intro ht
        exact Or.inr (by by_contra hne; exact absurd (this.mp hne) (by omega))
  have hcond : ((init ++ [last]).length > 0 ∧ (init ++ [last]).getLastD 0 &&& 0x7f = 0 ∧
      ((init ++ [last]).length ≤ 1 ∨ (init ++ [last]).getD ((init ++ [last]).length - 2) 0 &&& 0x80 = 0)) ↔
      (last.toNat % 128 = 0 ∧ ∀ t, init.getLast? = some t → t.toNat < 128) := by
    rw [List.length_append, List.length_singleton, List.getLastD_eq_getLast?, List.getLast?_concat,
      Option.getD_some, low_bits_eq_zero_iff, hbelow]
    simp
  simp only [true_and, hcond]

/-! ## The bijection -/

theorem leValue_pos {bs : List UInt8} {b : UInt8} (hb : b ≠ 0) : 0 < leValue (bs ++ [b]) := by
  have hb' : 0 < b.toNat := Nat.pos_of_ne_zero fun h => hb (UInt8.toNat_inj.mp h)
  rw [leValue_append_singleton]
  exact Nat.lt_of_lt_of_le (Nat.mul_pos hb' (Nat.pow_pos (by decide))) (Nat.le_add_left _ _)

/-- `serialize` of a positive magnitude and of its negation, from the last
magnitude byte. -/
theorem serialize_magnitude {X : Nat} (hX : 0 < X) {init : List UInt8} {top : UInt8}
    (hbytes : magnitudeBytes X = init ++ [top]) :
    serialize X = (if 128 ≤ top.toNat then init ++ [top] ++ [0] else init ++ [top]) ∧
      serialize (-(X : Int)) = (if 128 ≤ top.toNat then init ++ [top] ++ [0x80] else init ++ [top ||| 0x80]) := by
  have hpos : (X : Int) ≠ 0 := by omega
  have hneg : -(X : Int) ≠ 0 := by omega
  have hnot : ¬(X : Int) < 0 := by omega
  have hlt : -(X : Int) < 0 := by omega
  constructor
  · rw [serialize_of_ne_zero hpos (by simpa using hbytes)]
    simp only [hnot, if_false]
  · rw [serialize_of_ne_zero hneg (by simpa using hbytes)]
    simp only [hlt, if_true]

theorem length_serialize_le (v : Int) : (serialize v).length ≤ (magnitudeBytes v.natAbs).length + 1 := by
  by_cases hv : v = 0
  · simp [serialize, hv]
  obtain ⟨init, top, hbytes, -⟩ := magnitudeBytes_pos (Int.natAbs_ne_zero.mpr hv)
  rw [serialize_of_ne_zero hv hbytes, hbytes]
  split
  · simp
  · split <;> simp

/-- The minimality check accepts what `serialize` writes, and `set_vch`
reads the number back. -/
theorem ofVch_serialize (v : Int) {nMaxNumSize : Nat} (hlen : (serialize v).length ≤ nMaxNumSize) :
    CScriptNum.ofVch (serialize v) true nMaxNumSize = .ok ⟨v⟩ := by
  by_cases hv : v = 0
  · subst hv
    simp [serialize, CScriptNum.ofVch, set_vch]
  obtain ⟨init, top, hbytes, htop⟩ := magnitudeBytes_pos (Int.natAbs_ne_zero.mpr hv)
  have hM : leValue init + top.toNat * 256 ^ init.length = v.natAbs := by
    rw [← leValue_append_singleton, ← hbytes, leValue_magnitudeBytes]
  have htop0 : top.toNat ≠ 0 := fun h => htop (UInt8.toNat_inj.mp h)
  have hlast : (init ++ [top]).getLast? = some top := List.getLast?_concat
  rw [serialize_of_ne_zero hv hbytes] at hlen ⊢
  by_cases hbig : 128 ≤ top.toNat
  · -- a sign byte after a byte that takes the sign bit
    rw [if_pos hbig] at hlen ⊢
    rw [List.length_append, List.length_singleton] at hlen
    rw [ofVch_append_singleton _ _ _ hlen, if_neg (fun h => absurd (h.2 top hlast) (by omega)),
      set_vch_append_singleton, leValue_append_singleton, List.length_append, List.length_singleton]
    by_cases hneg : v < 0
    · rw [if_pos hneg, if_pos (by decide)]
      refine congrArg Except.ok (congrArg CScriptNum.mk ?_)
      simp only [show (0x80 : UInt8).toNat = 128 from rfl, Nat.sub_self, Nat.zero_mul, Nat.add_zero, hM]
      omega
    · rw [if_neg hneg, if_neg (by decide)]
      refine congrArg Except.ok (congrArg CScriptNum.mk ?_)
      simp only [show (0 : UInt8).toNat = 0 from rfl, Nat.zero_mul, Nat.add_zero, hM]
      omega
  · rw [if_neg hbig] at hlen ⊢
    by_cases hneg : v < 0
    · -- the sign in the top bit of the last byte
      rw [if_pos hneg] at hlen ⊢
      have hor := toNat_or_signBit (show top.toNat < 128 by omega)
      rw [List.length_append, List.length_singleton] at hlen
      rw [ofVch_append_singleton _ _ _ hlen, if_neg (fun h => by omega), set_vch_append_singleton,
        if_pos (by omega), hor, Nat.add_sub_cancel, hM]
      refine congrArg Except.ok (congrArg CScriptNum.mk ?_)
      omega
    · rw [if_neg hneg] at hlen ⊢
      rw [List.length_append, List.length_singleton] at hlen
      rw [ofVch_append_singleton _ _ _ hlen, if_neg (fun h => by omega), set_vch_append_singleton,
        if_neg hbig, hM]
      refine congrArg Except.ok (congrArg CScriptNum.mk ?_)
      omega

theorem set_vch_serialize (v : Int) : set_vch (serialize v) = v := by
  have h := ofVch_serialize v (le_refl _)
  unfold CScriptNum.ofVch at h
  rw [if_neg (Nat.lt_irrefl _)] at h
  split at h
  · cases h
  · simpa only [Except.ok.injEq, CScriptNum.mk.injEq] using h

/-- Only `serialize` passes the minimality check: every accepted byte string
is `serialize` of the number read from it. -/
theorem serialize_of_ofVch {vch : List UInt8} {nMaxNumSize : Nat} {n : CScriptNum}
    (h : CScriptNum.ofVch vch true nMaxNumSize = .ok n) : serialize n.m_value = vch := by
  obtain rfl | ⟨init, last, rfl⟩ := List.eq_nil_or_concat vch
  · simp only [CScriptNum.ofVch, List.length_nil] at h
    split at h
    · cases h
    · split at h
      · cases h
      · cases h
        rfl
  rw [List.concat_eq_append] at h ⊢
  have hlen : init.length + 1 ≤ nMaxNumSize := by
    by_contra hgt
    rw [CScriptNum.ofVch, if_pos (by simp; omega)] at h
    cases h
  rw [ofVch_append_singleton _ _ _ hlen] at h
  split at h
  · cases h
  rename_i hmin
  cases h
  -- a last byte of zero low bits needs a byte below it that takes the sign bit
  have hbelow : last.toNat % 128 = 0 → ∃ init' t, init = init' ++ [t] ∧ 128 ≤ t.toNat := by
    intro h0
    obtain rfl | ⟨init', t, rfl⟩ := List.eq_nil_or_concat init
    · exact absurd ⟨h0, by simp⟩ hmin
    · rw [List.concat_eq_append] at hmin ⊢
      refine ⟨init', t, rfl, ?_⟩
      by_contra hlt
      exact hmin ⟨h0, fun t' ht' => by rw [List.getLast?_concat, Option.some.injEq] at ht'; subst ht'; omega⟩
  rw [set_vch_append_singleton]
  by_cases hbig : 128 ≤ last.toNat
  · rw [if_pos hbig]
    by_cases h7 : last.toNat - 128 = 0
    · -- `0x80` after a byte that takes the sign bit
      obtain ⟨init', t, rfl, ht⟩ := hbelow (by omega)
      have ht0 : t ≠ 0 := fun h => by rw [h] at ht; exact absurd ht (by decide)
      rw [h7, Nat.zero_mul, Nat.add_zero,
        (serialize_magnitude (leValue_pos ht0) (magnitudeBytes_leValue init' t ht0)).2, if_pos ht]
      rw [show (0x80 : UInt8) = last from UInt8.toNat_inj.mp (by rw [show (0x80 : UInt8).toNat = 128 from rfl]; omega)]
    · -- the sign in the top bit of a last byte that is not zero
      have hlow : (UInt8.ofNat (last.toNat - 128)).toNat = last.toNat - 128 := by
        rw [UInt8.toNat_ofNat', Nat.mod_eq_of_lt (by have := last.toNat_lt; omega)]
      have hlow0 : UInt8.ofNat (last.toNat - 128) ≠ 0 := fun h => h7 (by rw [← hlow, h]; rfl)
      have hvalue : leValue init + (last.toNat - 128) * 256 ^ init.length =
          leValue (init ++ [UInt8.ofNat (last.toNat - 128)]) := by
        rw [leValue_append_singleton, hlow]
      rw [hvalue, (serialize_magnitude (leValue_pos hlow0) (magnitudeBytes_leValue init _ hlow0)).2,
        if_neg (by rw [hlow]; have := last.toNat_lt; omega), sub_or_signBit hbig]
  · rw [if_neg hbig]
    by_cases h0 : last.toNat = 0
    · -- `0x00` after a byte that takes the sign bit
      obtain ⟨init', t, rfl, ht⟩ := hbelow (by omega)
      have ht0 : t ≠ 0 := fun h => by rw [h] at ht; exact absurd ht (by decide)
      rw [h0, Nat.zero_mul, Nat.add_zero,
        (serialize_magnitude (leValue_pos ht0) (magnitudeBytes_leValue init' t ht0)).1, if_pos ht]
      rw [show (0 : UInt8) = last from UInt8.toNat_inj.mp (by rw [h0]; rfl)]
    · have hlast0 : last ≠ 0 := fun h => h0 (by rw [h]; rfl)
      rw [← leValue_append_singleton,
        (serialize_magnitude (leValue_pos hlast0) (magnitudeBytes_leValue init last hlast0)).1, if_neg hbig]

/-- **`CScriptNum`'s encoding is a canonical bijection.** Every number of
magnitude below `2^55` serializes into at most 8 bytes, which the minimal
8-byte constructor reads back; and every byte string of at most
`nMaxNumSize ≤ 8` bytes that it accepts is the serialization of its value,
so negative zero and redundant sign bytes are rejected. -/
theorem scriptnum_encoding_canonical :
    (∀ v : Int, v.natAbs < 2 ^ 55 →
      (serialize v).length ≤ 8 ∧ CScriptNum.ofVch (serialize v) true 8 = .ok ⟨v⟩) ∧
    (∀ (vch : List UInt8) (nMaxNumSize : Nat) (n : CScriptNum), vch.length ≤ nMaxNumSize →
      nMaxNumSize ≤ 8 → CScriptNum.ofVch vch true nMaxNumSize = .ok n → serialize n.m_value = vch) := by
  refine ⟨fun v hv => ?_, fun vch nMaxNumSize n _ _ h => serialize_of_ofVch h⟩
  -- seven magnitude bytes hold every magnitude below 2^56
  have hbytes : (magnitudeBytes v.natAbs).length ≤ 7 :=
    length_magnitudeBytes_le (Nat.lt_of_lt_of_le hv (by decide))
  have hlen : (serialize v).length ≤ 8 := Nat.le_trans (length_serialize_le v) (by omega)
  exact ⟨hlen, ofVch_serialize v hlen⟩

theorem scriptnum_encoding_canonical_minus_255 :
    (-255 : Int).natAbs < 2 ^ 55 ∧ (serialize (-255)).length ≤ 8 ∧
      CScriptNum.ofVch (serialize (-255)) true 8 = .ok ⟨-255⟩ :=
  ⟨by decide, scriptnum_encoding_canonical.1 (-255) (by decide)⟩

end Palladium.Script
