import Palladium.Lib.Bits
import Palladium.Lib.Decimal

/-!
# String helpers

`IsSpace`, `ValidAsCString` and `TrimString` (`util/strencodings.h`,
`util/string.h`) on strings as the bytes they hold, and `ConvertBits`, the
regrouping of a bit string from `frombits`-bit values into `tobits`-bit
values that bech32 addresses use in both directions. `ParseUInt32` accepts a
string of digits exactly when its value fits in 32 bits.

With padding `ConvertBits` fills the last group with zero bits. Without
padding it succeeds exactly when fewer than `frombits` bits are left over and
all of them are zero; the groups it returns then spell the input's bits
without them.
-/

namespace Palladium.Util

open Bits

set_option autoImplicit false

/-- `IsSpace`: space, form feed, line feed, carriage return, tab and
vertical tab. -/
def IsSpace (c : UInt8) : Bool :=
  c == 0x20 || c == 0x0c || c == 0x0a || c == 0x0d || c == 0x09 || c == 0x0b

/-- `ValidAsCString`: `strlen` of the C string sees the whole string, so it
holds no NUL. -/
def ValidAsCString (str : List UInt8) : Bool :=
  str.length == (str.takeWhile (· != 0)).length

/-- `TrimString` with its default pattern `" \f\n\r\t\v"`, the characters
that `IsSpace` accepts. -/
def TrimString (str : List UInt8) : List UInt8 :=
  ((str.dropWhile IsSpace).reverse.dropWhile IsSpace).reverse

/-- `ToUpper` of one character: only the ASCII letters `a` to `z` change.
`ToUpper` of a string maps it over the characters. -/
def ToUpper (c : UInt8) : UInt8 :=
  if c ≥ 97 ∧ c ≤ 122 then (c - 97) + 65 else c

/-- `ToLower` of one character: only the ASCII letters `A` to `Z` change. -/
def ToLower (c : UInt8) : UInt8 :=
  if c ≥ 65 ∧ c ≤ 90 then (c - 65) + 97 else c

/-! ## Runs at the ends of a string -/

section Runs

variable {α : Type} {p : α → Bool}

theorem dropWhile_eq_self : ∀ {l : List α}, (∀ x ∈ l, p x = false) → l.dropWhile p = l
  | [], _ => rfl
  | x :: l, h => List.dropWhile_cons_of_neg (by simp [h x (by simp)])

theorem takeWhile_eq_self : ∀ {l : List α}, (∀ x ∈ l, p x = true) → l.takeWhile p = l
  | [], _ => rfl
  | x :: l, h => by
    rw [List.takeWhile_cons_of_pos (h x (by simp)), takeWhile_eq_self fun y hy => h y (by simp [hy])]

theorem dropWhile_eq_nil : ∀ {l : List α}, (∀ x ∈ l, p x = true) → l.dropWhile p = []
  | [], _ => rfl
  | x :: l, h => by
    rw [List.dropWhile_cons_of_pos (h x (by simp))]
    exact dropWhile_eq_nil fun y hy => h y (by simp [hy])

theorem all_of_dropWhile_eq_nil : ∀ {l : List α}, l.dropWhile p = [] → ∀ x ∈ l, p x = true
  | [], _ => by simp
  | x :: l, h => by
    by_cases hx : p x = true
    · rw [List.dropWhile_cons_of_pos hx] at h
      intro y hy
      rcases List.mem_cons.mp hy with rfl | hy
      · exact hx
      · exact all_of_dropWhile_eq_nil h y hy
    · rw [List.dropWhile_cons_of_neg hx] at h
      simp at h

theorem of_mem_takeWhile : ∀ {l : List α} {x : α}, x ∈ l.takeWhile p → p x = true
  | [], _, h => by simp at h
  | y :: l, x, h => by
    by_cases hy : p y = true
    · rw [List.takeWhile_cons_of_pos hy] at h
      rcases List.mem_cons.mp h with rfl | h
      · exact hy
      · exact of_mem_takeWhile h
    · rw [List.takeWhile_cons_of_neg hy] at h
      simp at h

theorem drop_length_takeWhile (l : List α) : l.drop (l.takeWhile p).length = l.dropWhile p := by
  have h := congrArg (List.drop (l.takeWhile p).length) (List.takeWhile_append_dropWhile (p := p) (l := l))
  rwa [List.drop_left, eq_comm] at h

/-- The first element after a leading run of one value is another. -/
theorem head_dropWhile_beq_ne [BEq α] [LawfulBEq α] (a : α) {l : List α}
    (h : l.dropWhile (· == a) ≠ []) : (l.dropWhile (· == a)).head h ≠ a := by
  simpa using List.head_dropWhile_not (fun x => x == a) h

/-- A leading run of one value is that value repeated. -/
theorem takeWhile_beq [BEq α] [LawfulBEq α] (a : α) (l : List α) :
    l.takeWhile (· == a) = List.replicate (l.takeWhile (· == a)).length a :=
  List.eq_replicate_of_mem fun x hx => by simpa using of_mem_takeWhile hx

/-- A scan that stops at the first element of `l₂` ends inside `l₁`. -/
theorem takeWhile_append_of_forall_false : ∀ {l₁ l₂ : List α}, (∀ x ∈ l₂, p x = false) →
    (l₁ ++ l₂).takeWhile p = l₁.takeWhile p
  | [], [], _ => rfl
  | [], x :: l₂, h => by
    rw [List.nil_append, List.takeWhile_cons_of_neg (by simp [h x (by simp)])]
    rfl
  | x :: l₁, l₂, h => by
    rw [List.cons_append, List.takeWhile_cons, List.takeWhile_cons, takeWhile_append_of_forall_false h]

end Runs

/-- `TrimString` removes exactly the whitespace around a core that has none. -/
theorem TrimString_eq {a core b : List UInt8} (ha : ∀ x ∈ a, IsSpace x = true)
    (hcore : ∀ x ∈ core, IsSpace x = false) (hb : ∀ x ∈ b, IsSpace x = true) :
    TrimString (a ++ core ++ b) = core := by
  rw [TrimString, List.append_assoc, List.dropWhile_append_of_pos ha]
  cases core with
  | nil => simp [dropWhile_eq_nil hb]
  | cons c core =>
    -- the core's first and last characters stop the two scans
    rw [List.cons_append, List.dropWhile_cons_of_neg (by simp [hcore c (by simp)]),
      ← List.cons_append, List.reverse_append, List.dropWhile_append_of_pos (by simpa using hb),
      dropWhile_eq_self (fun x hx => hcore x (by simpa [or_comm] using hx)), List.reverse_reverse]

/-! ## ParseUInt32 -/

/-- `ParsePrechecks`: not empty, no space at either end, no NUL. -/
def ParsePrechecks (str : List UInt8) : Bool :=
  match str.head?, str.getLast? with
  | some first, some last => !(IsSpace first || IsSpace last) && ValidAsCString str
  | _, _ => false

/-- `ULONG_MAX` of a 64-bit `unsigned long`. -/
def ULONG_MAX : Nat := 2 ^ 64 - 1

/-- The optional sign `strtoul` reads: whether it is `-`, and the rest. -/
def strtoulSign : List UInt8 → Bool × List UInt8
  | c :: rest => if c = 43 then (false, rest) else if c = 45 then (true, rest) else (false, c :: rest)
  | [] => (false, [])

/-- `strtoul(str, &endp, 10)` on a string that does not start with a space
(its callers' prechecks rule that out, so the skip of leading space is left
out): an optional sign, then the longest run of digits. The value, which
saturates at `ULONG_MAX` with `ERANGE` and is negated modulo `2 ^ 64` after
a `-`; the string from `endp` on; whether `errno` is `ERANGE`. With no digit
nothing is read and `endp` is `str`. -/
def strtoul (str : List UInt8) : Nat × List UInt8 × Bool :=
  let sign := strtoulSign str
  let ds := sign.2.takeWhile Decimal.isDigit
  if ds = [] then (0, str, false)
  else if Decimal.value ds > ULONG_MAX then (ULONG_MAX, sign.2.dropWhile Decimal.isDigit, true)
  else
    (if sign.1 then (2 ^ 64 - Decimal.value ds) % 2 ^ 64 else Decimal.value ds,
      sign.2.dropWhile Decimal.isDigit, false)

/-- `ParseUInt32`: the value, when the whole string is one that fits in
32 bits. The source also stores the truncated value on failure, which its
callers do not read. -/
def ParseUInt32 (str : List UInt8) : Option UInt32 :=
  if !ParsePrechecks str then none
  else if str.head? = some 45 then none
  else
    let r := strtoul str
    if r.2.1.headD 0 = 0 ∧ r.2.2 = false ∧ r.1 ≤ 0xFFFFFFFF then some r.1.toUInt32 else none

theorem IsSpace_of_isDigit {c : UInt8} (h : Decimal.isDigit c = true) : IsSpace c = false := by
  have := Decimal.isDigit_iff.mp h
  simp only [IsSpace, Bool.or_eq_false_iff, beq_eq_false_iff_ne, ne_eq, ← UInt8.toNat_inj,
    UInt8.reduceToNat]
  omega

/-- On a non-empty string of digits `ParseUInt32` is its value, if that is
below `2 ^ 32`. -/
theorem ParseUInt32_digits {ds : List UInt8} (hne : ds ≠ []) (hd : ∀ c ∈ ds, Decimal.isDigit c = true) :
    ParseUInt32 ds = if Decimal.value ds < 2 ^ 32 then some (Decimal.value ds).toUInt32 else none := by
  obtain ⟨c, rest, rfl⟩ := List.exists_cons_of_ne_nil hne
  have hc := Decimal.isDigit_iff.mp (hd c (by simp))
  have hnz : ∀ x ∈ c :: rest, (x != 0) = true := fun x hx => by
    have := Decimal.isDigit_iff.mp (hd x hx)
    simp only [bne_iff_ne, ne_eq, ← UInt8.toNat_inj, UInt8.reduceToNat]
    omega
  have hpre : ParsePrechecks (c :: rest) = true := by
    have hlast := hd _ (List.getLast_mem (List.cons_ne_nil c rest))
    simp only [ParsePrechecks, List.head?_cons, List.getLast?_eq_getLast_of_ne_nil (List.cons_ne_nil c rest),
      IsSpace_of_isDigit (hd c (by simp)), IsSpace_of_isDigit hlast, Bool.or_false, Bool.not_false,
      Bool.true_and, ValidAsCString, takeWhile_eq_self hnz, beq_self_eq_true]
  have h43 : c ≠ 43 := fun h => by subst h; simp at hc
  have h45 : c ≠ 45 := fun h => by subst h; simp at hc
  have hsign : strtoulSign (c :: rest) = (false, c :: rest) := by
    simp only [strtoulSign, if_neg h43, if_neg h45]
  have hrun : strtoul (c :: rest) =
      if Decimal.value (c :: rest) > ULONG_MAX then (ULONG_MAX, [], true)
      else (Decimal.value (c :: rest), [], false) := by
    simp only [strtoul, hsign, takeWhile_eq_self hd, dropWhile_eq_nil hd, reduceCtorEq, if_false,
      Bool.false_eq_true]
  rw [ParseUInt32, hpre, Bool.not_true, if_neg Bool.false_ne_true, List.head?_cons,
    if_neg (by simpa using h45), hrun]
  by_cases hbig : Decimal.value (c :: rest) > ULONG_MAX
  · have hge : ¬Decimal.value (c :: rest) < 2 ^ 32 := by
      rw [ULONG_MAX] at hbig
      omega
    rw [if_pos hbig, if_neg hge]
    simp
  · rw [if_neg hbig]
    by_cases hlt : Decimal.value (c :: rest) < 2 ^ 32
    · rw [if_pos hlt, if_pos ⟨rfl, rfl, by omega⟩]
    · rw [if_neg hlt, if_neg (by omega)]

/-! ## atoi64 -/

/-- `LLONG_MAX` and `LLONG_MIN` of a 64-bit `long long`. -/
def LLONG_MAX : Int := 2 ^ 63 - 1

def LLONG_MIN : Int := -2 ^ 63

/-- `strtoll(str, nullptr, 10)`: leading space skipped, an optional sign,
then the longest run of digits, the value saturating at `LLONG_MAX` and
`LLONG_MIN`. With no digit it is `0`. -/
def strtoll (str : List UInt8) : Int :=
  let sign := strtoulSign (str.dropWhile IsSpace)
  let v : Int := Decimal.value (sign.2.takeWhile Decimal.isDigit)
  if sign.1 then max (-v) LLONG_MIN else min v LLONG_MAX

/-- `atoi64` of a string, `strtoll` in base ten outside MSVC. -/
def atoi64 (str : List UInt8) : Int :=
  strtoll str

/-- On a string of digits whose value fits, `atoi64` is that value. -/
theorem atoi64_digits {ds : List UInt8} (hd : ∀ c ∈ ds, Decimal.isDigit c = true)
    (hfit : Decimal.value ds ≤ LLONG_MAX) : atoi64 ds = Decimal.value ds := by
  have hsign : strtoulSign ds = (false, ds) := by
    cases ds with
    | nil => rfl
    | cons c rest =>
      have hc := Decimal.isDigit_iff.mp (hd c (by simp))
      have h43 : c ≠ 43 := fun h => by subst h; simp at hc
      have h45 : c ≠ 45 := fun h => by subst h; simp at hc
      simp only [strtoulSign, if_neg h43, if_neg h45]
  have hspace : ds.dropWhile IsSpace = ds :=
    dropWhile_eq_self fun c hc => IsSpace_of_isDigit (hd c hc)
  rw [atoi64, strtoll, hspace, hsign]
  simp only [takeWhile_eq_self hd, Bool.false_eq_true, if_false]
  exact min_eq_left hfit

/-! ## ConvertBits -/

/-- The local variables of `ConvertBits` between two input values. -/
structure ConvertBitsState where
  acc : Nat
  bits : Nat
  out : List UInt8

/-- The inner `while (bits >= tobits)` loop of `ConvertBits`: each pass
emits the `tobits` bits of `acc` above its last `bits - tobits` bits. The
loop makes at most `bits` passes when `tobits > 0`, and `fuel` counts them. -/
def ConvertBits.emit (tobits acc : Nat) : Nat → Nat → List UInt8 → Nat × List UInt8
  | 0, bits, out => (bits, out)
  | fuel + 1, bits, out =>
    if bits ≥ tobits then
      emit tobits acc fuel (bits - tobits)
        (out ++ [UInt8.ofNat ((acc >>> (bits - tobits)) &&& (2 ^ tobits - 1))])
    else (bits, out)

/-- One pass of the outer loop of `ConvertBits` over the input value `x`:
`acc` is masked to `frombits + tobits - 1` bits. -/
def ConvertBits.step (frombits tobits : Nat) (s : ConvertBitsState) (x : UInt8) :
    ConvertBitsState :=
  let acc := ((s.acc <<< frombits) ||| x.toNat) &&& (2 ^ (frombits + tobits - 1) - 1)
  let r := ConvertBits.emit tobits acc (s.bits + frombits) (s.bits + frombits) s.out
  ⟨acc, r.1, r.2⟩

/-- `ConvertBits<frombits, tobits, pad>`: the values it passes to `outfn`,
and whether it succeeds. -/
def ConvertBits (frombits tobits : Nat) (pad : Bool) (input : List UInt8) : List UInt8 × Bool :=
  let maxv := 2 ^ tobits - 1
  let s := input.foldl (ConvertBits.step frombits tobits) ⟨0, 0, []⟩
  if pad then
    (if s.bits ≠ 0 then s.out ++ [UInt8.ofNat ((s.acc <<< (tobits - s.bits)) &&& maxv)]
      else s.out, true)
  else if s.bits ≥ frombits ∨ (s.acc <<< (tobits - s.bits)) &&& maxv ≠ 0 then (s.out, false)
  else (s.out, true)

namespace ConvertBits

section Spec

variable {frombits tobits : Nat}

/-- A value masked to `tobits ≤ 8` bits fits its byte. -/
theorem toNat_mask {tobits : Nat} (ht8 : tobits ≤ 8) (x : Nat) :
    (UInt8.ofNat (x &&& (2 ^ tobits - 1))).toNat = x % 2 ^ tobits := by
  have hlt : x % 2 ^ tobits < 2 ^ 8 :=
    Nat.lt_of_lt_of_le (Nat.mod_lt _ (Nat.two_pow_pos _)) (Nat.pow_le_pow_right (by omega) ht8)
  rw [UInt8.toNat_ofNat', Nat.and_two_pow_sub_one_eq_mod, Nat.mod_eq_of_lt hlt]

/-- The last group: the low `b` bits of `acc` moved to the top of `t` bits. -/
theorem shift_mod (acc : Nat) {b t : Nat} (h : b ≤ t) :
    (acc <<< (t - b)) % 2 ^ t = acc % 2 ^ b * 2 ^ (t - b) := by
  have hpow : 2 ^ t = 2 ^ b * 2 ^ (t - b) := by rw [← Nat.pow_add]; congr 1; omega
  rw [Nat.shiftLeft_eq, hpow, Nat.mul_mod_mul_right]

/-- The bits of the last group: the pending bits, then zeros. -/
theorem ofNat_shift_mod (acc : Nat) {b t : Nat} (h : b ≤ t) :
    ofNat t ((acc <<< (t - b)) % 2 ^ t) = ofNat b acc ++ List.replicate (t - b) false := by
  have hsplit := ofNat_mul_two_pow b (t - b) (acc % 2 ^ b)
  rw [Nat.add_sub_cancel' h, ofNat_mod _ (le_refl b)] at hsplit
  rw [shift_mod acc h, hsplit]

theorem emit_spec (ht : 0 < tobits) (ht8 : tobits ≤ 8) (acc : Nat) :
    ∀ (fuel bits : Nat) (out : List UInt8), bits ≤ fuel →
      ∃ out', emit tobits acc fuel bits out = (bits % tobits, out ++ out') ∧
        ofChunks tobits out' ++ ofNat (bits % tobits) acc = ofNat bits acc ∧
        ∀ o ∈ out', o.toNat < 2 ^ tobits
  | 0, bits, out, h => ⟨[], by simp [emit, show bits = 0 by omega]⟩
  | fuel + 1, bits, out, h => by
    rw [emit]
    by_cases hb : bits ≥ tobits
    · -- one group goes out; the rest of the loop starts `tobits` bits lower
      rw [if_pos hb]
      obtain ⟨out', hrun, hbits, hlt⟩ := emit_spec ht ht8 acc fuel (bits - tobits)
        (out ++ [UInt8.ofNat ((acc >>> (bits - tobits)) &&& (2 ^ tobits - 1))]) (by omega)
      have hmod : (bits - tobits) % tobits = bits % tobits := (Nat.mod_eq_sub_mod hb).symm
      have hgroup : (UInt8.ofNat ((acc >>> (bits - tobits)) &&& (2 ^ tobits - 1))).toNat =
          acc / 2 ^ (bits - tobits) % 2 ^ tobits := by
        rw [toNat_mask ht8, Nat.shiftRight_eq_div_pow]
      refine ⟨UInt8.ofNat ((acc >>> (bits - tobits)) &&& (2 ^ tobits - 1)) :: out',
        by rw [hrun, hmod]; simp, ?_, ?_⟩
      · rw [ofChunks_cons, List.append_assoc, ← hmod, hbits, hgroup, ofNat_mod _ (le_refl _),
          ← ofNat_add, Nat.add_sub_cancel' hb]
      · intro o ho
        rcases List.mem_cons.mp ho with rfl | ho
        · rw [hgroup]; exact Nat.mod_lt _ (Nat.two_pow_pos _)
        · exact hlt o ho
    · rw [if_neg hb, Nat.mod_eq_of_lt (by omega)]
      exact ⟨[], by simp⟩

/-- The local variables after part of the input: the groups out so far and
the `bits` low bits of `acc` spell the input's bits so far. -/
structure Inv (frombits tobits : Nat) (B : List Bool) (s : ConvertBitsState) : Prop where
  spells : ofChunks tobits s.out ++ ofNat s.bits s.acc = B
  bits_lt : s.bits < tobits
  out_lt : ∀ o ∈ s.out, o.toNat < 2 ^ tobits

theorem Inv.step (hf : 0 < frombits) (ht : 0 < tobits) (ht8 : tobits ≤ 8)
    {B : List Bool} {s : ConvertBitsState} (hs : Inv frombits tobits B s)
    {x : UInt8} (hx : x.toNat < 2 ^ frombits) :
    Inv frombits tobits (B ++ ofNat frombits x.toNat) (ConvertBits.step frombits tobits s x) := by
  -- the shift and OR append `x`; the mask keeps more bits than are pending
  have hacc : ofNat (s.bits + frombits)
      (((s.acc <<< frombits) ||| x.toNat) &&& (2 ^ (frombits + tobits - 1) - 1)) =
        ofNat s.bits s.acc ++ ofNat frombits x.toNat := by
    have hle : s.bits + frombits ≤ frombits + tobits - 1 := by have := hs.bits_lt; omega
    rw [Nat.and_two_pow_sub_one_eq_mod, ofNat_mod _ hle, ← Nat.shiftLeft_add_eq_or_of_lt hx,
      Nat.shiftLeft_eq, ofNat_mul_add _ _ _ hx]
  obtain ⟨out', hrun, hbits, hlt⟩ := emit_spec ht ht8
    (((s.acc <<< frombits) ||| x.toNat) &&& (2 ^ (frombits + tobits - 1) - 1))
    (s.bits + frombits) (s.bits + frombits) s.out (le_refl _)
  simp only [ConvertBits.step, hrun]
  refine ⟨?_, Nat.mod_lt _ ht, ?_⟩
  · rw [ofChunks_append, List.append_assoc, hbits, hacc, ← List.append_assoc, hs.spells]
  · intro o ho
    rcases List.mem_append.mp ho with ho | ho
    · exact hs.out_lt o ho
    · exact hlt o ho

theorem Inv.foldl (hf : 0 < frombits) (ht : 0 < tobits) (ht8 : tobits ≤ 8) :
    ∀ {input : List UInt8}, (∀ x ∈ input, x.toNat < 2 ^ frombits) →
      ∀ {B : List Bool} {s : ConvertBitsState}, Inv frombits tobits B s →
        Inv frombits tobits (B ++ ofChunks frombits input)
          (input.foldl (ConvertBits.step frombits tobits) s)
  | [], _, B, s, hs => by simpa using hs
  | x :: input, hin, B, s, hs => by
    rw [List.foldl_cons, ofChunks_cons, ← List.append_assoc]
    exact Inv.foldl hf ht ht8 (fun y hy => hin y (by simp [hy]))
      (hs.step hf ht ht8 (hin x (by simp)))

/-- After the whole input. -/
theorem Inv.run (hf : 0 < frombits) (ht : 0 < tobits) (ht8 : tobits ≤ 8)
    {input : List UInt8} (hin : ∀ x ∈ input, x.toNat < 2 ^ frombits) :
    Inv frombits tobits (ofChunks frombits input)
      (input.foldl (ConvertBits.step frombits tobits) ⟨0, 0, []⟩) := by
  simpa using Inv.foldl hf ht ht8 hin (B := []) (s := ⟨0, 0, []⟩) ⟨by simp, ht, by simp⟩

end Spec

end ConvertBits

section Spec

variable {frombits tobits : Nat}

/-- After the whole input the pending bits are what is left of the input's
bits after whole groups. -/
theorem ConvertBits.Inv.bits_eq {input : List UInt8} {s : ConvertBitsState}
    (hs : ConvertBits.Inv frombits tobits (ofChunks frombits input) s) :
    frombits * input.length % tobits = s.bits := by
  have := congrArg List.length hs.spells
  simp only [List.length_append, length_ofChunks, length_ofNat] at this
  rw [← this, Nat.mul_add_mod, Nat.mod_eq_of_lt hs.bits_lt]

/-- With padding, `ConvertBits` always succeeds, and its groups spell the
input's bits followed by zeros up to a whole group. -/
theorem ConvertBits_pad (hf : 0 < frombits) (ht : 0 < tobits) (ht8 : tobits ≤ 8)
    {input : List UInt8} (hin : ∀ x ∈ input, x.toNat < 2 ^ frombits) :
    ∃ out, ConvertBits frombits tobits true input = (out, true) ∧
      ofChunks tobits out = ofChunks frombits input ++
        List.replicate ((tobits - frombits * input.length % tobits) % tobits) false ∧
      ∀ o ∈ out, o.toNat < 2 ^ tobits := by
  simp only [ConvertBits, if_true]
  have hs := ConvertBits.Inv.run hf ht ht8 hin
  set s := input.foldl (ConvertBits.step frombits tobits) ⟨0, 0, []⟩
  rw [hs.bits_eq]
  by_cases h0 : s.bits = 0
  · rw [if_neg (not_not.mpr h0)]
    refine ⟨s.out, rfl, ?_, hs.out_lt⟩
    rw [← hs.spells, h0]
    simp
  · -- the pending bits go out in one more group, padded with zeros
    rw [if_pos h0]
    refine ⟨_, rfl, ?_, ?_⟩
    · rw [ofChunks_append, ← hs.spells, ofChunks_cons, ofChunks_nil, List.append_nil,
        ConvertBits.toNat_mask ht8, ConvertBits.ofNat_shift_mod _ hs.bits_lt.le,
        Nat.mod_eq_of_lt (by omega : tobits - s.bits < tobits), List.append_assoc]
    · intro o ho
      rcases List.mem_append.mp ho with ho | ho
      · exact hs.out_lt o ho
      · rw [List.mem_singleton.mp ho, ConvertBits.toNat_mask ht8]
        exact Nat.mod_lt _ (Nat.two_pow_pos _)

/-- Without padding, a success leaves fewer than `frombits` bits, all zero,
after the groups it returns. -/
theorem ConvertBits_nopad_spec (hf : 0 < frombits) (ht : 0 < tobits) (ht8 : tobits ≤ 8)
    {input : List UInt8} (hin : ∀ x ∈ input, x.toNat < 2 ^ frombits) {out : List UInt8}
    (h : ConvertBits frombits tobits false input = (out, true)) :
    ∃ r, r < frombits ∧ r < tobits ∧
      ofChunks frombits input = ofChunks tobits out ++ List.replicate r false ∧
      ∀ o ∈ out, o.toNat < 2 ^ tobits := by
  simp only [ConvertBits, Bool.false_eq_true, if_false] at h
  have hs := ConvertBits.Inv.run hf ht ht8 hin
  set s := input.foldl (ConvertBits.step frombits tobits) ⟨0, 0, []⟩
  split at h
  · simp at h
  · rename_i hc
    obtain rfl : s.out = out := (Prod.mk.inj h).1
    have hbits : s.bits < frombits := by omega
    -- the mask is zero exactly when the pending bits are
    have hzero : s.acc % 2 ^ s.bits = 0 := by
      have hmask : (s.acc <<< (tobits - s.bits)) % 2 ^ tobits = 0 := by
        rw [← Nat.and_two_pow_sub_one_eq_mod]; omega
      rw [ConvertBits.shift_mod _ hs.bits_lt.le] at hmask
      exact (Nat.mul_eq_zero.mp hmask).resolve_right (Nat.two_pow_pos _).ne'
    refine ⟨s.bits, hbits, hs.bits_lt, ?_, hs.out_lt⟩
    rw [← hs.spells, ← ofNat_mod s.acc (le_refl s.bits), hzero, ofNat_zero_right]

/-- Without padding, groups followed by fewer than `frombits` zero bits are
returned as a success. -/
theorem ConvertBits_nopad_eq (hf : 0 < frombits) (ht : 0 < tobits) (ht8 : tobits ≤ 8)
    {input : List UInt8} (hin : ∀ x ∈ input, x.toNat < 2 ^ frombits) {out : List UInt8}
    {r : Nat} (hr : r < frombits) (hrt : r < tobits) (hout : ∀ o ∈ out, o.toNat < 2 ^ tobits)
    (h : ofChunks frombits input = ofChunks tobits out ++ List.replicate r false) :
    ConvertBits frombits tobits false input = (out, true) := by
  simp only [ConvertBits, Bool.false_eq_true, if_false]
  have hs := ConvertBits.Inv.run hf ht ht8 hin
  set s := input.foldl (ConvertBits.step frombits tobits) ⟨0, 0, []⟩
  -- the pending bits are the `r` zeros, so the groups before them agree
  have hbr : s.bits = r := by
    rw [← hs.bits_eq]
    have := congrArg List.length h
    simp only [List.length_append, length_ofChunks, List.length_replicate] at this
    rw [this, Nat.mul_add_mod, Nat.mod_eq_of_lt hrt]
  have hspells := hs.spells.trans h
  have hlen : (ofChunks tobits s.out).length = (ofChunks tobits out).length := by
    have := congrArg List.length hspells
    simp only [List.length_append, length_ofNat, List.length_replicate, hbr] at this
    simpa using Nat.add_right_cancel this
  obtain ⟨hgroups, hrest⟩ := List.append_inj hspells hlen
  have hout' : s.out = out := ofChunks_inj ht hs.out_lt hout hgroups
  have hzero : s.acc % 2 ^ s.bits = 0 := by
    have := congrArg Bits.toNat hrest
    rwa [toNat_ofNat, toNat_replicate_false] at this
  rw [if_neg, hout']
  rw [Nat.and_two_pow_sub_one_eq_mod, ConvertBits.shift_mod _ hs.bits_lt.le, hzero, Nat.zero_mul]
  omega

end Spec

end Palladium.Util
