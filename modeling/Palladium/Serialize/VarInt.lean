import Palladium.Lib.ByteStream
import Palladium.Serialize.CompactSize

/-!
# VARINT

`WriteVarInt` and `ReadVarInt` (`serialize.h`): base-128 digits, most
significant first, every byte but the last flagged with `0x80`, and one
subtracted from each higher digit so that every number has exactly one
encoding. The integer type `I` of the source is its width `w`; the reader's
two `size too large` checks are kept. The main result is the round trip for
every `n < 2^w`.
-/

namespace Palladium.Serialize

open ByteStream

set_option autoImplicit false

/-- The `tmp` array of `WriteVarInt` from position `len` on: the low seven
bits of `n`, flagged unless at position 0, then the digits of
`(n >> 7) - 1`. -/
def varIntDigits (n len : Nat) : List UInt8 :=
  let b : UInt8 := UInt8.ofNat ((n &&& 0x7F) ||| (if len ≠ 0 then 0x80 else 0x00))
  if n ≤ 0x7F then [b] else b :: varIntDigits ((n >>> 7) - 1) (len + 1)
termination_by n
decreasing_by
  rw [Nat.shiftRight_eq_div_pow]
  omega

/-- `WriteVarInt`: `tmp` written from its last filled position down to 0. -/
def WriteVarInt (n : Nat) : List UInt8 := (varIntDigits n 0).reverse

/-- `GetSizeOfVarInt`: the passes of the same loop, without the bytes. -/
def GetSizeOfVarInt (n : Nat) : Nat :=
  if n ≤ 0x7F then 1 else GetSizeOfVarInt ((n >>> 7) - 1) + 1
termination_by n
decreasing_by
  rw [Nat.shiftRight_eq_div_pow]
  omega

/-- The loop of `ReadVarInt` for an integer type of `w` bits, from the value
`n` read so far. -/
def readVarIntFrom (w : Nat) : Nat → List UInt8 → Except String (Nat × List UInt8)
  | _, [] => .error "end of data"
  | n, chData :: rest =>
    if n > (2 ^ w - 1) >>> 7 then .error "ReadVarInt(): size too large"
    else
      let n := (n <<< 7) ||| (chData &&& 0x7F).toNat
      if chData &&& 0x80 ≠ 0 then
        if n = 2 ^ w - 1 then .error "ReadVarInt(): size too large"
        else readVarIntFrom w (n + 1) rest
      else .ok (n, rest)

/-- `ReadVarInt<I>` for an integer type of `w` bits. -/
def ReadVarInt (w : Nat) : Reader Nat := fun s => readVarIntFrom w 0 s

/-! ## Digits -/

/-- The bytes of a digit `r`, flagged and not: their low seven bits and
their flag. -/
theorem digit_bytes : ∀ r : Fin 128,
    ((UInt8.ofNat (r.val ||| 0x80)) &&& 0x7F).toNat = r.val ∧ UInt8.ofNat (r.val ||| 0x80) &&& 0x80 ≠ 0 ∧
    ((UInt8.ofNat (r.val ||| 0x00)) &&& 0x7F).toNat = r.val ∧ UInt8.ofNat (r.val ||| 0x00) &&& 0x80 = 0 := by
  decide

theorem and_0x7F (n : Nat) : n &&& 0x7F = n % 128 := Nat.and_two_pow_sub_one_eq_mod n 7

theorem shiftLeft_or (n r : Nat) (hr : r < 128) : (n <<< 7) ||| r = n * 128 + r := by
  rw [← Nat.shiftLeft_add_eq_or_of_lt (by omega : r < 2 ^ 7), Nat.shiftLeft_eq]

theorem varIntDigits_small {n : Nat} (h : n ≤ 0x7F) (len : Nat) :
    varIntDigits n len = [UInt8.ofNat (n % 128 ||| (if len ≠ 0 then 0x80 else 0x00))] := by
  rw [varIntDigits, if_pos h, and_0x7F]

theorem varIntDigits_large {n : Nat} (h : 0x7F < n) (len : Nat) :
    varIntDigits n len = UInt8.ofNat (n % 128 ||| (if len ≠ 0 then 0x80 else 0x00)) ::
      varIntDigits (n / 128 - 1) (len + 1) := by
  rw [varIntDigits, if_neg (by omega), and_0x7F, Nat.shiftRight_eq_div_pow]

/-- Reading a flagged digit `r` from `n`: the value becomes
`n * 128 + r + 1`, unless that step reaches the type's maximum. -/
theorem readVarIntFrom_flagged_digit (w n r : Nat) (hr : r < 128) (tail : List UInt8)
    (hn : n ≤ (2 ^ w - 1) / 128) :
    readVarIntFrom w n (UInt8.ofNat (r ||| 0x80) :: tail) =
      if n * 128 + r = 2 ^ w - 1 then .error "ReadVarInt(): size too large"
      else readVarIntFrom w (n * 128 + r + 1) tail := by
  obtain ⟨hlow, hflag, -, -⟩ := digit_bytes ⟨r, hr⟩
  rw [readVarIntFrom, if_neg (by rw [Nat.shiftRight_eq_div_pow]; omega), if_pos hflag, hlow,
    shiftLeft_or n r hr]

/-- Reading the last digit `r` from `n` returns `n * 128 + r`. -/
theorem readVarIntFrom_last_digit (w n r : Nat) (hr : r < 128) (tail : List UInt8)
    (hn : n ≤ (2 ^ w - 1) / 128) :
    readVarIntFrom w n (UInt8.ofNat (r ||| 0x00) :: tail) = .ok (n * 128 + r, tail) := by
  obtain ⟨-, -, hlow, hflag⟩ := digit_bytes ⟨r, hr⟩
  rw [readVarIntFrom, if_neg (by rw [Nat.shiftRight_eq_div_pow]; omega), if_neg (by simpa using hflag),
    hlow, shiftLeft_or n r hr]

/-! ## The round trip -/

theorem le_two_pow_of_seven_le {w : Nat} (hw : 7 ≤ w) : 128 ≤ 2 ^ w :=
  calc 128 = 2 ^ 7 := rfl
    _ ≤ 2 ^ w := Nat.pow_le_pow_right (by decide) hw

/-- The flagged digits of `m`, read from 0, leave the reader at `m + 1`.
The induction is on `m`, whose higher digits are those of `m / 128 - 1`. -/
theorem readVarIntFrom_flagged (w : Nat) (hw : 7 ≤ w) :
    ∀ m, m < 2 ^ w - 1 → ∀ len, len ≠ 0 → ∀ tail : List UInt8,
      readVarIntFrom w 0 ((varIntDigits m len).reverse ++ tail) = readVarIntFrom w (m + 1) tail := by
  have hpow := le_two_pow_of_seven_le hw
  intro m
  induction m using Nat.strongRecOn with
  | ind m ih =>
    intro hm len hlen tail
    by_cases hsmall : m ≤ 0x7F
    · rw [varIntDigits_small hsmall, if_pos hlen, List.reverse_singleton, List.singleton_append,
        readVarIntFrom_flagged_digit w 0 (m % 128) (Nat.mod_lt _ (by decide)) tail (by omega),
        Nat.zero_mul, Nat.zero_add, Nat.mod_eq_of_lt (by omega : m < 128), if_neg (by omega)]
    · -- the higher digits first, then this one
      rw [varIntDigits_large (by omega), if_pos hlen, List.reverse_cons, List.append_assoc,
        ih (m / 128 - 1) (by omega) (by omega) (len + 1) (by omega), List.singleton_append,
        readVarIntFrom_flagged_digit w (m / 128 - 1 + 1) (m % 128) (Nat.mod_lt _ (by decide)) tail
          (by omega)]
      have hm' : (m / 128 - 1 + 1) * 128 + m % 128 = m := by omega
      rw [hm', if_neg (by omega)]

/-- `ReadVarInt` reads back what `WriteVarInt` wrote, for every value of the
integer type, and consumes exactly those bytes. -/
theorem ReadVarInt_WriteVarInt {w : Nat} (hw : 7 ≤ w) {n : Nat} (hn : n < 2 ^ w) :
    Decodes (ReadVarInt w) (WriteVarInt n) n := by
  have hpow := le_two_pow_of_seven_le hw
  intro rest
  show readVarIntFrom w 0 ((varIntDigits n 0).reverse ++ rest) = .ok (n, rest)
  by_cases hsmall : n ≤ 0x7F
  · rw [varIntDigits_small hsmall, if_neg (by simp), List.reverse_singleton, List.singleton_append,
      readVarIntFrom_last_digit w 0 (n % 128) (Nat.mod_lt _ (by decide)) rest (by omega),
      Nat.zero_mul, Nat.zero_add, Nat.mod_eq_of_lt (by omega)]
  · -- the flagged higher digits leave `n / 128`, and the last digit completes `n`
    rw [varIntDigits_large (by omega), if_neg (by simp), List.reverse_cons, List.append_assoc,
      readVarIntFrom_flagged w hw (n / 128 - 1) (by omega) 1 (by omega), List.singleton_append,
      readVarIntFrom_last_digit w (n / 128 - 1 + 1) (n % 128) (Nat.mod_lt _ (by decide)) rest (by omega)]
    congr 2
    omega

/-- `WriteVarInt` writes `GetSizeOfVarInt` bytes. -/
theorem length_varIntDigits (n : Nat) : ∀ len, (varIntDigits n len).length = GetSizeOfVarInt n := by
  induction n using Nat.strongRecOn with
  | ind n ih =>
    intro len
    by_cases hsmall : n ≤ 0x7F
    · rw [varIntDigits_small hsmall, GetSizeOfVarInt, if_pos hsmall, List.length_singleton]
    · rw [varIntDigits_large (by omega), GetSizeOfVarInt, if_neg hsmall, List.length_cons,
        ih _ (by omega), Nat.shiftRight_eq_div_pow]

theorem length_WriteVarInt (n : Nat) : (WriteVarInt n).length = GetSizeOfVarInt n := by
  rw [WriteVarInt, List.length_reverse, length_varIntDigits]

/-! ## What a byte stream encodes

`varIntValue` reads the number a stream starts with as the comment of
`serialize.h` describes it, with no bound on its size. The reader fails with
`size too large` exactly when that number does not fit the type, and every
stream it accepts starts with what `WriteVarInt` writes for the result. -/

/-- The number a byte stream starts with, read from the value `n` so far:
base-128 digits up to the first byte without the flag, one added after each
flagged digit; `none` when no byte ends the number. -/
def varIntValue : Nat → List UInt8 → Option (Nat × List UInt8)
  | _, [] => none
  | n, chData :: rest =>
    let n := n * 128 + (chData &&& 0x7F).toNat
    if chData &&& 0x80 ≠ 0 then varIntValue (n + 1) rest else some (n, rest)

/-- A byte is its low seven bits with its flag, checked byte by byte. -/
theorem byte_of_digit_table : ∀ n < 256,
    (UInt8.ofNat n &&& 0x80 ≠ 0 → UInt8.ofNat ((UInt8.ofNat n &&& 0x7F).toNat ||| 0x80) = UInt8.ofNat n) ∧
    (UInt8.ofNat n &&& 0x80 = 0 → UInt8.ofNat ((UInt8.ofNat n &&& 0x7F).toNat ||| 0x00) = UInt8.ofNat n) := by
  decide +kernel

theorem byte_of_digit (b : UInt8) :
    (b &&& 0x80 ≠ 0 → UInt8.ofNat ((b &&& 0x7F).toNat ||| 0x80) = b) ∧
    (b &&& 0x80 = 0 → UInt8.ofNat ((b &&& 0x7F).toNat ||| 0x00) = b) := by
  simpa using byte_of_digit_table b.toNat b.toNat_lt

theorem digit_lt (b : UInt8) : (b &&& 0x7F).toNat < 128 := by
  rw [UInt8.toNat_and]
  exact Nat.lt_of_le_of_lt Nat.and_le_right (by decide)

/-- The value never drops below the value so far shifted by a digit. -/
theorem le_varIntValue : ∀ {bs : List UInt8} {n V : Nat} {rest : List UInt8},
    varIntValue n bs = some (V, rest) → n * 128 ≤ V
  | [], _, _, _, h => by simp [varIntValue] at h
  | b :: bs, n, V, rest, h => by
    unfold varIntValue at h
    split at h
    · have := le_varIntValue h
      omega
    · simp only [Option.some.injEq, Prod.mk.injEq] at h
      omega

/-- The reader against the unbounded value: from a value so far that fits
the type, it returns the stream's number when that fits too, and fails with
`size too large` when it does not. Both checks of the reader are needed:
the first before the shift, the second before the increment. -/
theorem readVarIntFrom_eq {w : Nat} (hw : 7 ≤ w) : ∀ {bs : List UInt8} {n V : Nat} {rest : List UInt8},
    n ≤ 2 ^ w - 1 → varIntValue n bs = some (V, rest) →
    readVarIntFrom w n bs = if V ≤ 2 ^ w - 1 then .ok (V, rest) else .error "ReadVarInt(): size too large"
  | [], _, _, _, _, h => by simp [varIntValue] at h
  | b :: bs, n, V, rest, hn, h => by
    have hpow := le_two_pow_of_seven_le hw
    have hdiv : 2 ^ 7 ∣ 2 ^ w := Nat.pow_dvd_pow 2 hw
    have hd := digit_lt b
    have hV := le_varIntValue h
    unfold varIntValue at h
    rw [readVarIntFrom, Nat.shiftRight_eq_div_pow, shiftLeft_or n _ hd]
    by_cases hbig : n > (2 ^ w - 1) / 2 ^ 7
    · -- a value so far above `max >> 7` already puts the number out of range
      rw [if_pos hbig, if_neg (show ¬V ≤ 2 ^ w - 1 by omega)]
    rw [if_neg hbig]
    split at h
    · rename_i hflag
      have hV' := le_varIntValue h
      rw [if_pos hflag]
      by_cases hmax : n * 128 + (b &&& 0x7F).toNat = 2 ^ w - 1
      · rw [if_pos hmax, if_neg (show ¬V ≤ 2 ^ w - 1 by omega)]
      · rw [if_neg hmax]
        exact readVarIntFrom_eq hw (by omega) h
    · rename_i hflag
      simp only [Option.some.injEq, Prod.mk.injEq] at h
      obtain ⟨rfl, rfl⟩ := h
      rw [if_neg hflag, if_pos (show n * 128 + (b &&& 0x7F).toNat ≤ 2 ^ w - 1 by omega)]

/-- A stream in which no byte ends the number fails to read. -/
theorem readVarIntFrom_of_none (w : Nat) : ∀ {bs : List UInt8} {n : Nat},
    varIntValue n bs = none → ∃ e, readVarIntFrom w n bs = .error e
  | [], _, _ => ⟨_, rfl⟩
  | b :: bs, n, h => by
    unfold varIntValue at h
    dsimp only at h
    rw [readVarIntFrom, shiftLeft_or n _ (digit_lt b)]
    split
    · exact ⟨_, rfl⟩
    split at h
    · rename_i hflag
      rw [if_pos hflag]
      split
      · exact ⟨_, rfl⟩
      · exact readVarIntFrom_of_none w h
    · simp at h

/-- The value of flagged digits `fs` read after the value `n`. -/
def flaggedValue (n : Nat) (fs : List Nat) : Nat := fs.foldl (fun acc f => acc * 128 + f + 1) n

/-- A byte stream that encodes a number: flagged digits, one digit without
the flag, then the rest. -/
theorem varIntValue_shape : ∀ {bs : List UInt8} {n V : Nat} {rest : List UInt8},
    varIntValue n bs = some (V, rest) →
    ∃ fs b, (∀ f ∈ fs, f < 128) ∧ b &&& 0x80 = 0 ∧
      bs = fs.map (fun f => UInt8.ofNat (f ||| 0x80)) ++ b :: rest ∧
      V = flaggedValue n fs * 128 + (b &&& 0x7F).toNat
  | [], _, _, _, h => by simp [varIntValue] at h
  | b :: bs, n, V, rest, h => by
    unfold varIntValue at h
    split at h
    · rename_i hflag
      obtain ⟨fs, c, hfs, hc, hbs, hV⟩ := varIntValue_shape h
      refine ⟨(b &&& 0x7F).toNat :: fs, c, ?_, hc, ?_, hV⟩
      · exact List.forall_mem_cons.mpr ⟨digit_lt b, hfs⟩
      · rw [hbs, List.map_cons, (byte_of_digit b).1 hflag, List.cons_append]
    · rename_i hflag
      obtain ⟨rfl, rfl⟩ := Prod.mk.inj (Option.some.inj h)
      exact ⟨[], b, by simp, by simpa using hflag, rfl, rfl⟩

theorem flaggedValue_append (n : Nat) (fs : List Nat) (f : Nat) :
    flaggedValue n (fs ++ [f]) = flaggedValue n fs * 128 + f + 1 := by
  simp [flaggedValue, List.foldl_append]

theorem flaggedValue_pos {fs : List Nat} (h : fs ≠ []) : 0 < flaggedValue 0 fs := by
  obtain ⟨fs', f, rfl⟩ := List.eq_nil_or_concat fs |>.resolve_left h
  rw [List.concat_eq_append, flaggedValue_append]
  omega

/-- The flagged digits are the higher digits that `WriteVarInt` writes for
the value they leave, less one. The induction is on the digits from the
last, the one `varIntDigits` writes first. -/
theorem varIntDigits_flaggedValue (fs : List Nat) (hfs : ∀ f ∈ fs, f < 128) (hne : fs ≠ []) :
    ∀ len, len ≠ 0 → (varIntDigits (flaggedValue 0 fs - 1) len).reverse =
      fs.map (fun f => UInt8.ofNat (f ||| 0x80)) := by
  -- the induction runs over the digits from the last one
  obtain ⟨gs, rfl⟩ : ∃ gs, fs = gs.reverse := ⟨fs.reverse, by simp⟩
  induction gs with
  | nil => exact absurd rfl hne
  | cons f gs ih =>
    rw [List.reverse_cons] at hfs ⊢
    intro len hlen
    have hf : f < 128 := hfs f (by simp)
    rw [flaggedValue_append, show flaggedValue 0 gs.reverse * 128 + f + 1 - 1 =
      flaggedValue 0 gs.reverse * 128 + f by omega]
    by_cases hnil : gs = []
    · subst hnil
      rw [show flaggedValue 0 [].reverse * 128 + f = f by simp [flaggedValue],
        varIntDigits_small (by omega), if_pos hlen, Nat.mod_eq_of_lt hf]
      simp
    · -- this digit is the low one, and the digits before it write the value less one
      have hpos := flaggedValue_pos (by simpa using hnil : gs.reverse ≠ [])
      rw [varIntDigits_large (by omega), if_pos hlen, List.reverse_cons,
        show (flaggedValue 0 gs.reverse * 128 + f) / 128 - 1 = flaggedValue 0 gs.reverse - 1 by omega,
        ih (fun g hg => hfs g (by simp [hg])) (by simpa using hnil) (len + 1) (by omega),
        show (flaggedValue 0 gs.reverse * 128 + f) % 128 = f by omega]
      simp

/-- **Every stream that encodes a number starts with what `WriteVarInt`
writes for it**: there is one encoding per number. -/
theorem WriteVarInt_of_varIntValue {bs : List UInt8} {V : Nat} {rest : List UInt8}
    (h : varIntValue 0 bs = some (V, rest)) : bs = WriteVarInt V ++ rest := by
  obtain ⟨fs, b, hfs, hb, rfl, rfl⟩ := varIntValue_shape h
  have hd := digit_lt b
  rw [WriteVarInt]
  by_cases hnil : fs = []
  · subst hnil
    rw [show flaggedValue 0 [] * 128 + (b &&& 0x7F).toNat = (b &&& 0x7F).toNat by simp [flaggedValue],
      varIntDigits_small (by omega), if_neg (by simp), Nat.mod_eq_of_lt hd, (byte_of_digit b).2 hb]
    simp
  · have hpos := flaggedValue_pos hnil
    rw [varIntDigits_large (by omega), if_neg (by simp), List.reverse_cons,
      show (flaggedValue 0 fs * 128 + (b &&& 0x7F).toNat) / 128 - 1 = flaggedValue 0 fs - 1 by omega,
      varIntDigits_flaggedValue fs hfs hnil 1 (by omega),
      show (flaggedValue 0 fs * 128 + (b &&& 0x7F).toNat) % 128 = (b &&& 0x7F).toNat by omega,
      (byte_of_digit b).2 hb]
    simp

/-- `ReadVarInt` on a stream that encodes `V`: the value, or `size too large`
when `V` does not fit the type. -/
theorem ReadVarInt_of_varIntValue {w : Nat} (hw : 7 ≤ w) {bs rest : List UInt8} {V : Nat}
    (h : varIntValue 0 bs = some (V, rest)) :
    (ReadVarInt w).run bs = if V ≤ 2 ^ w - 1 then .ok (V, rest) else .error "ReadVarInt(): size too large" :=
  readVarIntFrom_eq hw (Nat.zero_le _) h

/-! ## The integer codecs of `serialize.h`

Both length-like codecs are bijections onto the streams their readers
accept. For `VARINT` the width `w` stands for the integer type; every width
from 7 on, `uint32_t` and `uint64_t` among them. -/

theorem serialize_integer_codecs_canonical {w : Nat} (hw : 7 ≤ w) :
    (∀ n < 2 ^ w, Decodes (ReadVarInt w) (WriteVarInt n) n ∧ (WriteVarInt n).length = GetSizeOfVarInt n) ∧
    (∀ (bs rest : List UInt8) (V : Nat), varIntValue 0 bs = some (V, rest) →
      ((ReadVarInt w).run bs = .error "ReadVarInt(): size too large" ↔ 2 ^ w - 1 < V) ∧
      (V ≤ 2 ^ w - 1 → (ReadVarInt w).run bs = .ok (V, rest) ∧ bs = WriteVarInt V ++ rest)) ∧
    (∀ bs : List UInt8, varIntValue 0 bs = none → ∃ e, (ReadVarInt w).run bs = .error e) ∧
    (∀ n ≤ MAX_SIZE, Decodes ReadCompactSize (WriteCompactSize n) n) ∧
    (∀ (bs rest : List UInt8) (n : Nat), ReadCompactSize.run bs = .ok (n, rest) →
      n ≤ MAX_SIZE ∧ bs = WriteCompactSize n ++ rest) := by
  refine ⟨fun n hn => ⟨ReadVarInt_WriteVarInt hw hn, length_WriteVarInt n⟩, ?_,
    fun bs h => readVarIntFrom_of_none w h, fun n hn => ReadCompactSize_WriteCompactSize hn,
    fun bs rest n h => ReadCompactSize_canonical h⟩
  intro bs rest V h
  rw [ReadVarInt_of_varIntValue hw h]
  by_cases hV : V ≤ 2 ^ w - 1
  · refine ⟨?_, fun _ => ⟨by rw [if_pos hV], WriteVarInt_of_varIntValue h⟩⟩
    rw [if_pos hV]
    simp only [reduceCtorEq, false_iff]
    omega
  · refine ⟨?_, fun h' => absurd h' hV⟩
    rw [if_neg hV]
    simp only [true_iff]
    omega

theorem serialize_integer_codecs_canonical_uint32 :
    7 ≤ 32 ∧ Decodes (ReadVarInt 32) (WriteVarInt 300) 300 :=
  ⟨by decide, ((serialize_integer_codecs_canonical (by decide)).1 300 (by decide)).1⟩

end Palladium.Serialize
