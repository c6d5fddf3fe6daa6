import Mathlib.Data.List.Basic
import Mathlib.Tactic.Linarith
import Palladium.Lib.ExceptSpec

/-!
# The asmap interpreter

`Interpret` (`util/asmap.cpp`) runs a program of bits, the asmap, against the
bits of an address: each instruction is a type code and a number read by
`DecodeBits` from a table of bit sizes, and the instructions jump forward,
match address bits or return an AS number.

The asmap is arbitrary file contents, so the model is instrumented: where the
source would read the asmap at or past its end, index `ip` outside it, let
an accumulation of `DecodeBits` reach `2 ^ 31` or shift a `uint32_t` by 32
or more, the model returns that `Fault` instead. Every loop of the model is the source's; the outer one is
well founded because every instruction reads at least its first bit.
`Interpret` returns a value, and so none of these faults, on every asmap and
every address of at most 255 bits.
-/

namespace Palladium.Util.Asmap

open ExceptSpec

set_option autoImplicit false

/-! ## The source -/

/-- What the source must never do on any input. -/
inductive Fault
  | asmapPastEnd
  | ipOutOfRange
  | accumulationOverflow
  | shiftOutOfRange
deriving DecidableEq, Repr

/-- `*bitpos` on the asmap. -/
def readBit (asmap : List Bool) (bitpos : Nat) : Except Fault Bool :=
  match asmap[bitpos]? with
  | some bit => .ok bit
  | none => .error .asmapPastEnd

/-- `ip[i]`. -/
def readIp (ip : List Bool) (i : Nat) : Except Fault Bool :=
  match ip[i]? with
  | some bit => .ok bit
  | none => .error .ipOutOfRange

/-- A shift count of `uint32_t`, which must be below `32`. -/
def shiftCount (n : UInt32) : Except Fault UInt32 :=
  if n.toNat < 32 then .ok n else .error .shiftOutOfRange

/-- `val += x` in `DecodeBits`, on a `uint32_t` that must stay below `2 ^ 31`. -/
def accumulate (val : UInt32) (x : Nat) : Except Fault UInt32 :=
  if val.toNat + x < 2 ^ 31 then .ok (val + x.toUInt32) else .error .accumulationOverflow

/-- The inner loop of `DecodeBits` over the low `size` bits, `b` counting up
from `0` and `k` the passes left: `val += bit << (size - 1 - b)`. -/
def lowBitsLoop (asmap : List Bool) (size : Nat) : Nat → Nat → UInt32 → Nat → Except Fault (UInt32 × Nat)
  | 0, _, val, bitpos => .ok (val, bitpos)
  | k + 1, b, val, bitpos =>
    if bitpos = asmap.length then .ok (val, bitpos)
    else do
      let bit ← readBit asmap bitpos
      let val ← accumulate val (if bit then 2 ^ (size - 1 - b) else 0)
      lowBitsLoop asmap size k (b + 1) val (bitpos + 1)

/-- The outer loop of `DecodeBits` over `bit_sizes`: a set bit before the
last size adds `1 << size` and moves on, a clear one (and the last size,
whose bit is taken as clear) reads the low bits and returns. Running out of
sizes, or of bits before the last size, returns `-1`. -/
def decodeBitsLoop (asmap : List Bool) : List UInt8 → UInt32 → Nat → Except Fault (UInt32 × Nat)
  | [], _, bitpos => .ok (0xFFFFFFFF, bitpos)
  | [size], val, bitpos => lowBitsLoop asmap size.toNat size.toNat 0 val bitpos
  | size :: next :: sizes, val, bitpos =>
    if bitpos = asmap.length then .ok (0xFFFFFFFF, bitpos)
    else do
      let bit ← readBit asmap bitpos
      if bit then
        let val ← accumulate val (2 ^ size.toNat)
        decodeBitsLoop asmap (next :: sizes) val (bitpos + 1)
      else lowBitsLoop asmap size.toNat size.toNat 0 val (bitpos + 1)

/-- `DecodeBits`: the value and the position after it. -/
def DecodeBits (asmap : List Bool) (bitpos : Nat) (minval : UInt8) (bit_sizes : List UInt8) :
    Except Fault (UInt32 × Nat) :=
  decodeBitsLoop asmap bit_sizes minval.toUInt32 bitpos

/-- `TYPE_BIT_SIZES`. -/
def TYPE_BIT_SIZES : List UInt8 := [0, 0, 1]

/-- `ASN_BIT_SIZES`. -/
def ASN_BIT_SIZES : List UInt8 := [15, 16, 17, 18, 19, 20, 21, 22, 23, 24]

/-- `MATCH_BIT_SIZES`. -/
def MATCH_BIT_SIZES : List UInt8 := [1, 2, 3, 4, 5, 6, 7, 8]

/-- `JUMP_BIT_SIZES`. -/
def JUMP_BIT_SIZES : List UInt8 :=
  [5, 6, 7, 8, 9, 10, 11, 12, 13, 14, 15, 16, 17, 18, 19, 20, 21, 22, 23, 24, 25, 26, 27, 28, 29, 30]

/-- `DecodeType`. -/
def DecodeType (asmap : List Bool) (bitpos : Nat) : Except Fault (UInt32 × Nat) :=
  DecodeBits asmap bitpos 0 TYPE_BIT_SIZES

/-- `DecodeASN`. -/
def DecodeASN (asmap : List Bool) (bitpos : Nat) : Except Fault (UInt32 × Nat) :=
  DecodeBits asmap bitpos 1 ASN_BIT_SIZES

/-- `DecodeMatch`. -/
def DecodeMatch (asmap : List Bool) (bitpos : Nat) : Except Fault (UInt32 × Nat) :=
  DecodeBits asmap bitpos 2 MATCH_BIT_SIZES

/-- `DecodeJump`. -/
def DecodeJump (asmap : List Bool) (bitpos : Nat) : Except Fault (UInt32 × Nat) :=
  DecodeBits asmap bitpos 17 JUMP_BIT_SIZES

/-- The loop of `CountBits` (`crypto/common.h`): the number of bits of `x`. -/
def countBitsLoop (x : Nat) : Nat :=
  if x = 0 then 0 else countBitsLoop (x / 2) + 1
termination_by x
decreasing_by omega

/-- `CountBits`. -/
def CountBits (x : UInt64) : UInt64 :=
  (countBitsLoop x.toNat).toUInt64

/-- `ip.size() - bits` in `size_t`. -/
def ipIndex (ip : List Bool) (bits : UInt8) : Nat :=
  (ip.length + 2 ^ 64 - bits.toNat) % 2 ^ 64

/-- The loop of the match instruction over `bit < matchlen`, `k` the passes
left: `none` at the first address bit that differs from the pattern
(`return default_asn`), otherwise the address bits left. -/
def matchLoop (ip : List Bool) (match_ matchlen : UInt32) : Nat → UInt32 → UInt8 → Except Fault (Option UInt8)
  | 0, _, bits => .ok (some bits)
  | k + 1, bit, bits =>
    if bits = 0 then .ok (some bits)
    else do
      let b ← readIp ip (ipIndex ip bits)
      let shift ← shiftCount (matchlen - 1 - bit)
      if (if b then 1 else 0) ≠ ((match_ >>> shift) &&& 1) then .ok none
      else matchLoop ip match_ matchlen k (bit + 1) (bits - 1)

theorem lowBitsLoop_ge (asmap : List Bool) (size : Nat) :
    ∀ (k b : Nat) (val : UInt32) (bitpos : Nat) {r : UInt32 × Nat},
      lowBitsLoop asmap size k b val bitpos = .ok r → bitpos ≤ r.2
  | 0, _, _, _, r, h => by
    cases h
    exact Nat.le_refl _
  | k + 1, b, val, bitpos, r, h => by
    rw [lowBitsLoop] at h
    split at h
    · cases h
      exact Nat.le_refl _
    · cases hb : readBit asmap bitpos with
      | error e => simp only [hb, error_bind, reduceCtorEq] at h
      | ok bit =>
        cases ha : accumulate val (if bit then 2 ^ (size - 1 - b) else 0) with
        | error e => simp only [hb, ha, ok_bind, error_bind, reduceCtorEq] at h
        | ok val' =>
          simp only [hb, ha, ok_bind] at h
          have := lowBitsLoop_ge asmap size k (b + 1) val' (bitpos + 1) h
          omega

/-- `DecodeBits` never moves back. -/
theorem decodeBitsLoop_ge (asmap : List Bool) :
    ∀ (sizes : List UInt8) (val : UInt32) (bitpos : Nat) {r : UInt32 × Nat},
      decodeBitsLoop asmap sizes val bitpos = .ok r → bitpos ≤ r.2
  | [], _, _, r, h => by
    cases h
    exact Nat.le_refl _
  | [size], val, bitpos, r, h => lowBitsLoop_ge asmap _ _ _ _ _ h
  | size :: next :: sizes, val, bitpos, r, h => by
    rw [decodeBitsLoop] at h
    split at h
    · cases h
      exact Nat.le_refl _
    · cases hb : readBit asmap bitpos with
      | error e => simp only [hb, error_bind, reduceCtorEq] at h
      | ok bit =>
        cases bit with
        | false =>
          simp only [hb, ok_bind, Bool.false_eq_true, if_false] at h
          have := lowBitsLoop_ge asmap _ _ _ _ _ h
          omega
        | true =>
          cases ha : accumulate val (2 ^ size.toNat) with
          | error e => simp only [hb, ha, ok_bind, if_true, error_bind, reduceCtorEq] at h
          | ok val' =>
            simp only [hb, ha, ok_bind, if_true] at h
            have := decodeBitsLoop_ge asmap (next :: sizes) val' (bitpos + 1) h
            omega

theorem readBit_lt {asmap : List Bool} {bitpos : Nat} {bit : Bool} (h : readBit asmap bitpos = .ok bit) :
    bitpos < asmap.length := by
  unfold readBit at h
  split at h
  · rename_i heq
    exact (List.getElem?_eq_some_iff.mp heq).1
  · cases h

/-- A type code read from a position that is not the end reads its first
bit there, which is inside the asmap. -/
theorem DecodeType_lt {asmap : List Bool} {bitpos : Nat} {r : UInt32 × Nat} (hend : bitpos ≠ asmap.length)
    (h : DecodeType asmap bitpos = .ok r) : bitpos < asmap.length ∧ bitpos < r.2 := by
  unfold DecodeType DecodeBits TYPE_BIT_SIZES at h
  rw [decodeBitsLoop, if_neg hend] at h
  cases hb : readBit asmap bitpos with
  | error e => simp only [hb, error_bind, reduceCtorEq] at h
  | ok bit =>
    refine ⟨readBit_lt hb, ?_⟩
    cases bit with
    | false =>
      simp only [hb, ok_bind, Bool.false_eq_true, if_false] at h
      have := lowBitsLoop_ge asmap _ _ _ _ _ h
      omega
    | true =>
      cases ha : accumulate (UInt8.toUInt32 0) (2 ^ (0 : UInt8).toNat) with
      | error e => simp only [hb, ha, ok_bind, if_true, error_bind, reduceCtorEq] at h
      | ok val' =>
        simp only [hb, ha, ok_bind, if_true] at h
        have := decodeBitsLoop_ge asmap _ val' (bitpos + 1) h
        omega

theorem DecodeBits_ge {asmap : List Bool} {bitpos : Nat} {minval : UInt8} {bit_sizes : List UInt8}
    {r : UInt32 × Nat} (h : DecodeBits asmap bitpos minval bit_sizes = .ok r) : bitpos ≤ r.2 :=
  decodeBitsLoop_ge asmap bit_sizes _ bitpos h

-- the names of the matches are used only by the decreasing proof
set_option linter.unusedVariables false in
/-- The `while (pos != endpos)` loop of `Interpret`, from `pos` with `bits`
address bits left and the default AS number so far. `break` returns `0`. -/
def interpretLoop (asmap ip : List Bool) (pos : Nat) (bits : UInt8) (default_asn : UInt32) :
    Except Fault UInt32 :=
  if hend : pos = asmap.length then .ok 0
  else match hop : DecodeType asmap pos with
  | .error e => .error e
  | .ok (opcode, pos1) =>
    if opcode = 0 then (DecodeASN asmap pos1).map Prod.fst
    else if opcode = 1 then
      match hj : DecodeJump asmap pos1 with
      | .error e => .error e
      | .ok (jump, pos2) =>
        if bits = 0 then .ok 0
        else match readIp ip (ipIndex ip bits) with
        | .error e => .error e
        | .ok b =>
          if b then
            if jump.toNat ≥ asmap.length - pos2 then .ok 0
            else interpretLoop asmap ip (pos2 + jump.toNat) (bits - 1) default_asn
          else interpretLoop asmap ip pos2 (bits - 1) default_asn
    else if opcode = 2 then
      match hm : DecodeMatch asmap pos1 with
      | .error e => .error e
      | .ok (match_, pos2) =>
        let matchlen := (CountBits match_.toUInt64 - 1).toUInt32
        match matchLoop ip match_ matchlen matchlen.toNat 0 bits with
        | .error e => .error e
        | .ok none => .ok default_asn
        | .ok (some bits) => interpretLoop asmap ip pos2 bits default_asn
    else if opcode = 3 then
      match ha : DecodeASN asmap pos1 with
      | .error e => .error e
      | .ok (asn, pos2) => interpretLoop asmap ip pos2 bits asn
    else .ok 0
termination_by asmap.length - pos
decreasing_by
  all_goals
    have hlt : pos < asmap.length := (DecodeType_lt hend hop).1
    have h1 : pos < pos1 := (DecodeType_lt hend hop).2
  · have h2 : pos1 ≤ pos2 := DecodeBits_ge hj
    omega
  · have h2 : pos1 ≤ pos2 := DecodeBits_ge hj
    omega
  · have h2 : pos1 ≤ pos2 := DecodeBits_ge hm
    omega
  · have h2 : pos1 ≤ pos2 := DecodeBits_ge ha
    omega

/-- `Interpret`: the loop from the start of the asmap, with all bits of `ip`
(as a `uint8_t`) and no default AS number. -/
def Interpret (asmap ip : List Bool) : Except Fault UInt32 :=
  interpretLoop asmap ip 0 ip.length.toUInt8 0

/-! ## No fault

Every decoder stays inside the asmap and below its bound, the match loop
indexes `ip` inside it and shifts by less than `32`, and so the interpreter
returns a value from every position and every number of address bits left
that fits in `ip`. -/

theorem readBit_ok {asmap : List Bool} {bitpos : Nat} (h : bitpos < asmap.length) :
    readBit asmap bitpos = .ok asmap[bitpos] := by
  simp [readBit, List.getElem?_eq_getElem h]

theorem readIp_ok {ip : List Bool} {i : Nat} (h : i < ip.length) : readIp ip i = .ok ip[i] := by
  simp [readIp, List.getElem?_eq_getElem h]

theorem accumulate_ok {val : UInt32} {x : Nat} (h : val.toNat + x < 2 ^ 31) :
    ∃ v, accumulate val x = .ok v ∧ v.toNat = val.toNat + x := by
  refine ⟨val + x.toUInt32, if_pos h, ?_⟩
  simp only [UInt32.toNat_add, UInt32.toNat_ofNat']
  omega

/-- The low bits of `DecodeBits` stay inside the asmap and add less than
`2 ^ k` over the `k` passes left, which cannot overflow while
`val + 2 ^ k ≤ 2 ^ 31`. -/
theorem lowBitsLoop_ok (asmap : List Bool) (size : Nat) :
    ∀ (k b : Nat) (val : UInt32) (bitpos : Nat), b + k = size → bitpos ≤ asmap.length →
      val.toNat + 2 ^ k ≤ 2 ^ 31 →
      ∃ v p, lowBitsLoop asmap size k b val bitpos = .ok (v, p) ∧ p ≤ asmap.length ∧
        val.toNat ≤ v.toNat ∧ v.toNat < val.toNat + 2 ^ k
  | 0, _, val, bitpos, _, hpos, _ => ⟨val, bitpos, rfl, hpos, le_rfl, by simp⟩
  | k + 1, b, val, bitpos, hb, hpos, hval => by
    have hpow : 2 ^ (k + 1) = 2 * 2 ^ k := by rw [pow_succ, mul_comm]
    have hk : 0 < 2 ^ k := Nat.two_pow_pos k
    rw [lowBitsLoop]
    by_cases hend : bitpos = asmap.length
    · rw [if_pos hend]
      exact ⟨val, bitpos, rfl, hpos, le_rfl, by omega⟩
    · rw [if_neg hend, readBit_ok (by omega), ok_bind]
      -- the bit read is worth `2 ^ (size - 1 - b) = 2 ^ k`
      have hx : (if asmap[bitpos] then 2 ^ (size - 1 - b) else 0) ≤ 2 ^ k := by
        split <;> simp [show size - 1 - b = k by omega]
      obtain ⟨val', hacc, hval'⟩ :=
        accumulate_ok (show val.toNat + (if asmap[bitpos] then 2 ^ (size - 1 - b) else 0) < 2 ^ 31 by omega)
      rw [hacc, ok_bind]
      obtain ⟨v, p, hrun, hp, hlo, hhi⟩ :=
        lowBitsLoop_ok asmap size k (b + 1) val' (bitpos + 1) (by omega) (by omega) (by omega)
      exact ⟨v, p, hrun, hp, by omega, by omega⟩

/-- What `DecodeBits` can add to `minval` over `bit_sizes`: the sum of
`2 ^ size`. -/
def sizesBound (bit_sizes : List UInt8) : Nat :=
  (bit_sizes.map fun size => 2 ^ size.toNat).sum

@[simp]
theorem sizesBound_nil : sizesBound [] = 0 := rfl

@[simp]
theorem sizesBound_cons (size : UInt8) (bit_sizes : List UInt8) :
    sizesBound (size :: bit_sizes) = 2 ^ size.toNat + sizesBound bit_sizes := rfl

/-- `DecodeBits` stays inside the asmap and, while `val` and the sum of
`2 ^ size` over the sizes left stay at most `2 ^ 31`, never overflows; its
value is `-1` or at least `val`. -/
theorem decodeBitsLoop_ok (asmap : List Bool) :
    ∀ (sizes : List UInt8) (val : UInt32) (bitpos : Nat), bitpos ≤ asmap.length →
      val.toNat + sizesBound sizes ≤ 2 ^ 31 →
      ∃ v p, decodeBitsLoop asmap sizes val bitpos = .ok (v, p) ∧ p ≤ asmap.length ∧
        (v = 0xFFFFFFFF ∨ val.toNat ≤ v.toNat)
  | [], _, bitpos, hpos, _ => ⟨_, _, rfl, hpos, .inl rfl⟩
  | [size], val, bitpos, hpos, hval => by
    obtain ⟨v, p, h, hp, hlo, _⟩ :=
      lowBitsLoop_ok asmap size.toNat size.toNat 0 val bitpos (by omega) hpos (by simpa using hval)
    exact ⟨v, p, h, hp, .inr hlo⟩
  | size :: next :: sizes, val, bitpos, hpos, hval => by
    -- a set bit here still leaves at least `2 ^ next` of the bound
    have hnext : 1 ≤ 2 ^ next.toNat := Nat.one_le_two_pow
    have hsize : 0 < 2 ^ size.toNat := Nat.two_pow_pos _
    simp only [sizesBound_cons] at hval
    rw [decodeBitsLoop]
    by_cases hend : bitpos = asmap.length
    · rw [if_pos hend]
      exact ⟨_, _, rfl, hpos, .inl rfl⟩
    · rw [if_neg hend, readBit_ok (by omega), ok_bind]
      cases asmap[bitpos] with
      | false =>
        obtain ⟨v, p, h, hp, hlo, _⟩ :=
          lowBitsLoop_ok asmap size.toNat size.toNat 0 val (bitpos + 1) (by omega) (by omega) (by omega)
        exact ⟨v, p, h, hp, .inr hlo⟩
      | true =>
        obtain ⟨val', hacc, hval'⟩ := accumulate_ok (show val.toNat + 2 ^ size.toNat < 2 ^ 31 by omega)
        simp only [if_true, hacc, ok_bind]
        obtain ⟨v, p, h, hp, hv⟩ :=
          decodeBitsLoop_ok asmap (next :: sizes) val' (bitpos + 1) (by omega) (by simp only [sizesBound_cons]; omega)
        rcases hv with hv | hlo
        · exact ⟨v, p, h, hp, .inl hv⟩
        · exact ⟨v, p, h, hp, .inr (by omega)⟩

theorem DecodeBits_ok {asmap : List Bool} {bitpos : Nat} {minval : UInt8} {bit_sizes : List UInt8}
    (hpos : bitpos ≤ asmap.length) (hbound : minval.toNat + sizesBound bit_sizes ≤ 2 ^ 31) :
    ∃ v p, DecodeBits asmap bitpos minval bit_sizes = .ok (v, p) ∧ p ≤ asmap.length ∧
      (v = 0xFFFFFFFF ∨ minval.toNat ≤ v.toNat) :=
  decodeBitsLoop_ok asmap bit_sizes _ bitpos hpos (by simpa using hbound)

theorem DecodeType_ok {asmap : List Bool} {bitpos : Nat} (hpos : bitpos ≤ asmap.length) :
    ∃ v p, DecodeType asmap bitpos = .ok (v, p) ∧ p ≤ asmap.length := by
  obtain ⟨v, p, h, hp, -⟩ := DecodeBits_ok hpos (show (0 : UInt8).toNat + sizesBound TYPE_BIT_SIZES ≤ 2 ^ 31 by
    simp [TYPE_BIT_SIZES])
  exact ⟨v, p, h, hp⟩

theorem DecodeASN_ok {asmap : List Bool} {bitpos : Nat} (hpos : bitpos ≤ asmap.length) :
    ∃ v p, DecodeASN asmap bitpos = .ok (v, p) ∧ p ≤ asmap.length := by
  obtain ⟨v, p, h, hp, -⟩ := DecodeBits_ok hpos (show (1 : UInt8).toNat + sizesBound ASN_BIT_SIZES ≤ 2 ^ 31 by
    simp [ASN_BIT_SIZES])
  exact ⟨v, p, h, hp⟩

/-- A match value is `-1` or at least its `minval` of `2`. -/
theorem DecodeMatch_ok {asmap : List Bool} {bitpos : Nat} (hpos : bitpos ≤ asmap.length) :
    ∃ v p, DecodeMatch asmap bitpos = .ok (v, p) ∧ p ≤ asmap.length ∧ 2 ≤ v.toNat := by
  obtain ⟨v, p, h, hp, hv⟩ := DecodeBits_ok hpos (show (2 : UInt8).toNat + sizesBound MATCH_BIT_SIZES ≤ 2 ^ 31 by
    simp [MATCH_BIT_SIZES])
  refine ⟨v, p, h, hp, ?_⟩
  rcases hv with rfl | hv
  · decide
  · simpa using hv

/-- The largest table, `JUMP_BIT_SIZES` from `17`, reaches `2 ^ 31 - 15`. -/
theorem DecodeJump_ok {asmap : List Bool} {bitpos : Nat} (hpos : bitpos ≤ asmap.length) :
    ∃ v p, DecodeJump asmap bitpos = .ok (v, p) ∧ p ≤ asmap.length := by
  obtain ⟨v, p, h, hp, -⟩ := DecodeBits_ok hpos (show (17 : UInt8).toNat + sizesBound JUMP_BIT_SIZES ≤ 2 ^ 31 by
    simp [JUMP_BIT_SIZES])
  exact ⟨v, p, h, hp⟩

theorem countBitsLoop_le : ∀ {n x : Nat}, x < 2 ^ n → countBitsLoop x ≤ n
  | 0, x, h => by
    rw [countBitsLoop, if_pos (by omega)]
  | n + 1, x, h => by
    rw [countBitsLoop]
    split
    · omega
    · have := countBitsLoop_le (n := n) (x := x / 2) (by rw [pow_succ] at h; omega)
      omega

theorem one_le_countBitsLoop {x : Nat} (h : x ≠ 0) : 1 ≤ countBitsLoop x := by
  rw [countBitsLoop, if_neg h]
  omega

/-- A match value of at least `2` (and `DecodeMatch` gives nothing less) has
a pattern of `1` to `31` bits after its leading one. -/
theorem matchlen_bounds {match_ : UInt32} (h : 2 ≤ match_.toNat) :
    1 ≤ (CountBits match_.toUInt64 - 1).toUInt32.toNat ∧
      (CountBits match_.toUInt64 - 1).toUInt32.toNat ≤ 31 := by
  have hlo : 2 ≤ countBitsLoop match_.toNat := by
    rw [countBitsLoop, if_neg (by omega)]
    have := one_le_countBitsLoop (x := match_.toNat / 2) (by omega)
    omega
  have hhi : countBitsLoop match_.toNat ≤ 32 := countBitsLoop_le match_.toNat_lt
  simp only [CountBits, UInt32.toNat_toUInt64, UInt64.toNat_toUInt32, UInt64.toNat_sub,
    UInt64.toNat_ofNat', UInt64.reduceToNat]
  omega

theorem ipIndex_lt {ip : List Bool} {bits : UInt8} (hip : ip.length < 2 ^ 64) (h0 : bits ≠ 0)
    (hbits : bits.toNat ≤ ip.length) : ipIndex ip bits < ip.length := by
  have : bits.toNat ≠ 0 := fun h => h0 (UInt8.toNat_inj.mp h)
  unfold ipIndex
  omega

theorem toNat_sub_one_of_ne_zero {bits : UInt8} (h : bits ≠ 0) : (bits - 1).toNat = bits.toNat - 1 := by
  have : bits.toNat ≠ 0 := fun h' => h (UInt8.toNat_inj.mp h')
  have := bits.toNat_lt
  simp only [UInt8.toNat_sub, UInt8.reduceToNat]
  omega

/-- The match loop reads `ip` inside it and shifts by less than `32` while
its counter runs up to a pattern length of at most `32`, and leaves no more
address bits than it had. -/
theorem matchLoop_ok {ip : List Bool} (hip : ip.length < 2 ^ 64) (match_ : UInt32) {matchlen : UInt32}
    (hlen : matchlen.toNat ≤ 32) :
    ∀ (k : Nat) (bit : UInt32) (bits : UInt8), bit.toNat + k = matchlen.toNat → bits.toNat ≤ ip.length →
      ∃ r, matchLoop ip match_ matchlen k bit bits = .ok r ∧
        ∀ bits', r = some bits' → bits'.toNat ≤ bits.toNat
  | 0, _, bits, _, _ => ⟨some bits, rfl, fun _ h => by cases h; exact le_rfl⟩
  | k + 1, bit, bits, hbit, hbits => by
    rw [matchLoop]
    by_cases h0 : bits = 0
    · rw [if_pos h0]
      exact ⟨some bits, rfl, fun _ h => by cases h; exact le_rfl⟩
    · -- `bit < matchlen ≤ 32`, so neither `matchlen - 1 - bit` nor `bit + 1` wraps
      have hshift : (matchlen - 1 - bit).toNat < 32 := by
        simp only [UInt32.toNat_sub, UInt32.reduceToNat]
        omega
      have hnext : (bit + 1).toNat = bit.toNat + 1 := by
        simp only [UInt32.toNat_add, UInt32.reduceToNat]
        omega
      have hdec := toNat_sub_one_of_ne_zero h0
      have hidx := ipIndex_lt hip h0 hbits
      rw [if_neg h0, readIp_ok hidx, ok_bind, shiftCount, if_pos hshift, ok_bind]
      by_cases hne : (if ip[ipIndex ip bits] then 1 else 0 : UInt32) ≠ (match_ >>> (matchlen - 1 - bit)) &&& 1
      · rw [if_pos hne]
        exact ⟨none, rfl, fun _ h => by cases h⟩
      · rw [if_neg hne]
        obtain ⟨r, hr, hle⟩ := matchLoop_ok hip match_ hlen k (bit + 1) (bits - 1) (by omega) (by omega)
        exact ⟨r, hr, fun bits' h => by have := hle bits' h; omega⟩

/-- From any position inside the asmap, with no more address bits left than
`ip` has, the interpreter returns a value. The induction is on the bits of
the asmap left, as the loop's own recursion; one case per opcode. -/
theorem interpretLoop_ok (asmap ip : List Bool) (hip : ip.length < 2 ^ 64) :
    ∀ (n pos : Nat) (bits : UInt8) (default_asn : UInt32), asmap.length - pos = n →
      pos ≤ asmap.length → bits.toNat ≤ ip.length →
      ∃ asn, interpretLoop asmap ip pos bits default_asn = .ok asn := by
  intro n
  induction n using Nat.strong_induction_on with
  | _ n ih =>
  intro pos bits default_asn hn hpos hbits
  rw [interpretLoop]
  by_cases hend : pos = asmap.length
  · rw [dif_pos hend]
    exact ⟨0, rfl⟩
  rw [dif_neg hend]
  obtain ⟨opcode, pos1, hop, hp1⟩ := DecodeType_ok hpos
  have hpos1 : pos < pos1 := (DecodeType_lt hend hop).2
  -- every instruction goes on from a position after `pos`
  have goOn : ∀ pos' bits' d, pos < pos' → pos' ≤ asmap.length → bits'.toNat ≤ ip.length →
      ∃ asn, interpretLoop asmap ip pos' bits' d = .ok asn :=
    fun pos' bits' d hlt hle hb => ih _ (by omega) pos' bits' d rfl hle hb
  split
  next e heq => exact nomatch heq.symm.trans hop
  next opcode' pos1' heq =>
  obtain ⟨rfl, rfl⟩ := Prod.mk.inj (Except.ok.inj (hop.symm.trans heq))
  by_cases h0 : opcode = 0
  · -- `return DecodeASN(pos, endpos)`
    obtain ⟨asn, pos2, ha, -⟩ := DecodeASN_ok hp1
    rw [if_pos h0, ha]
    exact ⟨asn, rfl⟩
  rw [if_neg h0]
  by_cases h1 : opcode = 1
  · -- the jump: on a set address bit forward by `jump`, unless that is past the end
    rw [if_pos h1]
    obtain ⟨jump, pos2, hj, hp2⟩ := DecodeJump_ok hp1
    have h12 : pos1 ≤ pos2 := DecodeBits_ge hj
    split
    next e heq => exact nomatch heq.symm.trans hj
    next jump' pos2' heq =>
    obtain ⟨rfl, rfl⟩ := Prod.mk.inj (Except.ok.inj (hj.symm.trans heq))
    by_cases hb0 : bits = 0
    · rw [if_pos hb0]
      exact ⟨0, rfl⟩
    have hdec := toNat_sub_one_of_ne_zero hb0
    rw [if_neg hb0, readIp_ok (ipIndex_lt hip hb0 hbits)]
    dsimp only
    split
    · split
      · exact ⟨0, rfl⟩
      · exact goOn _ _ _ (by omega) (by omega) (by omega)
    · exact goOn _ _ _ (by omega) (by omega) (by omega)
  rw [if_neg h1]
  by_cases h2 : opcode = 2
  · -- the match: `return default_asn` on a differing bit, else go on
    rw [if_pos h2]
    obtain ⟨match_, pos2, hm, hp2, hm2⟩ := DecodeMatch_ok hp1
    have h12 : pos1 ≤ pos2 := DecodeBits_ge hm
    split
    next e heq => exact nomatch heq.symm.trans hm
    next match' pos2' heq =>
    obtain ⟨rfl, rfl⟩ := Prod.mk.inj (Except.ok.inj (hm.symm.trans heq))
    dsimp only
    obtain ⟨-, hlen⟩ := matchlen_bounds hm2
    generalize (CountBits match_.toUInt64 - 1).toUInt32 = matchlen at hlen ⊢
    obtain ⟨r, hr, hle⟩ := matchLoop_ok hip match_ (show matchlen.toNat ≤ 32 by omega) matchlen.toNat 0 bits
      (by simp) hbits
    rw [hr]
    cases r with
    | none => exact ⟨default_asn, rfl⟩
    | some bits' => exact goOn _ _ _ (by omega) hp2 (by have := hle bits' rfl; omega)
  rw [if_neg h2]
  by_cases h3 : opcode = 3
  · -- a new default AS number
    rw [if_pos h3]
    obtain ⟨asn, pos2, ha, hp2⟩ := DecodeASN_ok hp1
    have h12 : pos1 ≤ pos2 := DecodeBits_ge ha
    split
    next e heq => exact nomatch heq.symm.trans ha
    next asn' pos2' heq =>
    obtain ⟨rfl, rfl⟩ := Prod.mk.inj (Except.ok.inj (ha.symm.trans heq))
    exact goOn _ _ _ (by omega) hp2 hbits
  · rw [if_neg h3]
    exact ⟨0, rfl⟩

/-- `Interpret` terminates (it is a total function) and returns a value on
every asmap and every address of at most 255 bits: it never reads the asmap
at or past its end, indexes `ip` only inside it, keeps every accumulation of
`DecodeBits` below `2 ^ 31` and shifts by less than `32`. Of the bound on
`ip` only `ip.size() < 2 ^ 64` is used, as the starting `bits`, `ip.size()`
as a `uint8_t`, is never more than `ip.size()`. -/
theorem asmap_interpret_total (asmap ip : List Bool) (hip : ip.length ≤ 255) :
    ∃ asn, Interpret asmap ip = .ok asn := by
  have hbits : ip.length.toUInt8.toNat ≤ ip.length := by
    rw [UInt8.toNat_ofNat']
    exact Nat.mod_le _ _
  exact interpretLoop_ok asmap ip (by omega) _ 0 _ 0 rfl (Nat.zero_le _) hbits

theorem asmap_interpret_total_two_bits :
    [true, false].length ≤ 255 ∧ ∃ asn, Interpret [false, true, true, false] [true, false] = .ok asn :=
  ⟨by simp, asmap_interpret_total _ _ (by simp)⟩

end Palladium.Util.Asmap
