import Mathlib
import Palladium.Lib.ExceptSpec

/-!
# The rolling Bloom filter

`CRollingBloomFilter` (`bloom.h`, `bloom.cpp`) remembers the keys of its last
two or three generations of `nEntriesPerGeneration` keys. Each position of the
filter holds a two-bit generation label: bit `b` of the words `2w` and
`2w + 1` of `data` are its low and its high bit, and `0` means unset. A key
labels the positions of its hashes with the current generation; a full
generation starts the next one, which reuses the label three generations
back and first clears the positions that carry it.

MurmurHash3 is a parameter. The two double-precision computations of the
constructor enter as what they evaluate to: the rounded number of hash
functions and the filter size in bits as a function of `nMaxElements`.
An array access past the end, undefined behaviour in C++, is an error here.

With `nElements = 2^32 - 1` the unsigned `nElements + 1` wraps to zero: the
filter has no entries per generation, its size is zero and the first
`insert` writes past the end. Otherwise, as long as the size in bits is
neither zero nor within 63 of `2^32`, every access is in range and the last
`nElements` keys inserted are always contained (`insertAll_contains`).
-/

namespace Palladium.Bloom

open ExceptSpec

set_option autoImplicit false

/-- `CRollingBloomFilter`. -/
structure CRollingBloomFilter where
  nEntriesPerGeneration : Int
  nEntriesThisGeneration : Int
  nGeneration : Int
  data : List UInt64
  nTweak : UInt32
  nHashFuncs : Int
  deriving DecidableEq, Repr

/-- The constructor `CRollingBloomFilter(nElements, fpRate)` with its
`reset()`: `roundedHashes` is `(int)round(logFpRate / log(0.5))` and
`filterBits nMaxElements` the `(uint32_t)ceil(...)` size in bits; `nTweak`
is the random tweak of `reset`. `nEntriesPerGeneration * 3` overflows an
`int` for large `nElements`; it is taken to wrap as its `uint32_t` target. -/
def CRollingBloomFilter.create (nElements : UInt32) (roundedHashes : Int)
    (filterBits : UInt32 → UInt32) (nTweak : UInt32) : CRollingBloomFilter :=
  let nEntriesPerGeneration := (nElements + 1) / 2
  let nMaxElements : UInt32 := nEntriesPerGeneration * 3
  let nFilterBits := filterBits nMaxElements
  { nEntriesPerGeneration := nEntriesPerGeneration.toNat
    nEntriesThisGeneration := 0
    nGeneration := 1
    data := List.replicate (((nFilterBits + 63) / 64) <<< 1).toNat 0
    nTweak
    nHashFuncs := max 1 (min roundedHashes 50) }

/-- `data[i]`; past the end it is an error. -/
def elemAt (data : List UInt64) (i : Nat) : Except String UInt64 :=
  match data[i]? with
  | some x => .ok x
  | none => .error "data index out of range"

/-- `FastMod`: `((uint64_t)x * (uint64_t)n) >> 32`, the stand-in for `x % n`. -/
def FastMod (x : UInt32) (n : Nat) : UInt32 :=
  ((x.toUInt64 * n.toUInt64) >>> 32).toUInt32

/-- The write of one label bit: bit `bit` of `x` becomes `v`. -/
def writeBit (x bit v : UInt64) : UInt64 :=
  (x &&& ~~~((1 : UInt64) <<< bit)) ||| v <<< bit

section Hash

variable (MurmurHash3 : UInt32 → List UInt8 → UInt32)

/-- `RollingBloomHash`. -/
def RollingBloomHash (nHashNum nTweak : UInt32) (vDataToHash : List UInt8) : UInt32 :=
  MurmurHash3 (nHashNum * 0xFBA4C795 + nTweak) vDataToHash

/-- One pass of the hash loop of `insert`: hash `n` labels its position with
`nGeneration`, the low bit in the even word and the high bit in the odd one. -/
def setHash (nGeneration : Int) (nTweak : UInt32) (vKey : List UInt8) (data : List UInt64)
    (n : Nat) : Except String (List UInt64) := do
  let h := RollingBloomHash MurmurHash3 n.toUInt32 nTweak vKey
  let bit := (h &&& 0x3F).toUInt64
  let pos := FastMod h data.length
  let x1 ← elemAt data (pos &&& ~~~1).toNat
  let data := data.set (pos &&& ~~~1).toNat (writeBit x1 bit (UInt64.ofInt (nGeneration % 2)))
  let x2 ← elemAt data (pos ||| 1).toNat
  pure (data.set (pos ||| 1).toNat (writeBit x2 bit (UInt64.ofInt (nGeneration >>> 1))))

/-- The wipe loop of `insert`, pair by pair: a position whose two bits are
those of the masks loses its label. On an odd size the C++ loop reads
`data[p + 1]` past the end. -/
def wipe (m1 m2 : UInt64) : List UInt64 → Except String (List UInt64)
  | [] => pure []
  | [_] => .error "data index out of range"
  | p1 :: p2 :: rest => do
    let mask := (p1 ^^^ m1) ||| (p2 ^^^ m2)
    let rest ← wipe m1 m2 rest
    pure ((p1 &&& mask) :: (p2 &&& mask) :: rest)

/-- The generation switch that opens `insert`: after a full generation the
label moves on from 3 back to 1 and the positions carrying the new label
are wiped. -/
def startGeneration (f : CRollingBloomFilter) : Except String CRollingBloomFilter :=
  if f.nEntriesThisGeneration = f.nEntriesPerGeneration then do
    let nGeneration := if f.nGeneration + 1 = 4 then 1 else f.nGeneration + 1
    let nGenerationMask1 := (0 : UInt64) - UInt64.ofInt (nGeneration % 2)
    let nGenerationMask2 := (0 : UInt64) - UInt64.ofInt (nGeneration >>> 1)
    let data ← wipe nGenerationMask1 nGenerationMask2 f.data
    pure { f with nEntriesThisGeneration := 0, nGeneration, data }
  else pure f

/-- `CRollingBloomFilter::insert`. -/
def insert (f : CRollingBloomFilter) (vKey : List UInt8) : Except String CRollingBloomFilter := do
  let f ← startGeneration f
  let data ← (List.range f.nHashFuncs.toNat).foldlM
    (setHash MurmurHash3 f.nGeneration f.nTweak vKey) f.data
  pure { f with nEntriesThisGeneration := f.nEntriesThisGeneration + 1, data }

/-- The hash loop of `contains` over the hash numbers `ns`. -/
def containsLoop (f : CRollingBloomFilter) (vKey : List UInt8) : List Nat → Except String Bool
  | [] => pure true
  | n :: ns => do
    let h := RollingBloomHash MurmurHash3 n.toUInt32 f.nTweak vKey
    let bit := (h &&& 0x3F).toUInt64
    let pos := FastMod h f.data.length
    let x1 ← elemAt f.data (pos &&& ~~~1).toNat
    let x2 ← elemAt f.data (pos ||| 1).toNat
    if (x1 ||| x2) >>> bit &&& 1 = 0 then pure false else containsLoop f vKey ns

/-- `CRollingBloomFilter::contains`. -/
def contains (f : CRollingBloomFilter) (vKey : List UInt8) : Except String Bool :=
  containsLoop MurmurHash3 f vKey (List.range f.nHashFuncs.toNat)

/-- A sequence of `insert` calls, first key first. -/
def insertAll (f : CRollingBloomFilter) (keys : List (List UInt8)) :
    Except String CRollingBloomFilter :=
  keys.foldlM (insert MurmurHash3) f

end Hash

/-! ## Positions and words -/

section Positions

theorem FastMod_toNat (x : UInt32) {n : Nat} (hn : n ≤ 2 ^ 32) :
    (FastMod x n).toNat = x.toNat * n / 2 ^ 32 := by
  have hx := x.toNat_lt
  have hprod : x.toNat * n < 18446744073709551616 :=
    calc x.toNat * n < 2 ^ 32 * 2 ^ 32 := Nat.mul_lt_mul_of_lt_of_le hx hn (by decide)
      _ = 18446744073709551616 := by decide
  have hq : x.toNat * n / 4294967296 < 4294967296 := by
    rw [Nat.div_lt_iff_lt_mul (by decide)]
    exact hprod
  simp [FastMod, UInt64.toNat_shiftRight, UInt64.toNat_mul, Nat.mod_eq_of_lt hprod,
    Nat.shiftRight_eq_div_pow, Nat.mod_eq_of_lt hq]

theorem FastMod_lt (x : UInt32) {n : Nat} (hn0 : 0 < n) (hn : n ≤ 2 ^ 32) : (FastMod x n).toNat < n := by
  rw [FastMod_toNat x hn, Nat.div_lt_iff_lt_mul (by decide), Nat.mul_comm]
  exact Nat.mul_lt_mul_of_pos_left x.toNat_lt hn0

theorem toNat_and_not_one (p : UInt32) : (p &&& ~~~1).toNat = 2 * (p.toNat / 2) := by
  have hp := p.toNat_lt
  rw [UInt32.toNat_and, show (~~~(1 : UInt32)).toNat = 4294967294 from rfl]
  apply Nat.eq_of_testBit_eq
  intro j
  rcases j with _ | j
  · simp [Nat.testBit_zero]
  · rw [Nat.testBit_and, Nat.testBit_succ, Nat.testBit_succ, Nat.testBit_succ,
      show 2 * (p.toNat / 2) / 2 = p.toNat / 2 by omega, show 4294967294 / 2 = 2 ^ 31 - 1 by decide,
      Nat.testBit_two_pow_sub_one]
    by_cases hj : j < 31
    · simp [hj]
    · have : p.toNat / 2 < 2 ^ j :=
        lt_of_lt_of_le (by omega) (Nat.pow_le_pow_right (by decide) (not_lt.mp hj))
      simp [hj, Nat.testBit_eq_false_of_lt this]

theorem toNat_or_one (p : UInt32) : (p ||| 1).toNat = 2 * (p.toNat / 2) + 1 := by
  rw [UInt32.toNat_or, show (1 : UInt32).toNat = 1 from rfl]
  apply Nat.eq_of_testBit_eq
  intro j
  rcases j with _ | j
  · simp [Nat.testBit_zero]
  · rw [Nat.testBit_or, Nat.testBit_succ, Nat.testBit_succ, Nat.testBit_succ,
      show (2 * (p.toNat / 2) + 1) / 2 = p.toNat / 2 by omega]
    simp

theorem toNat_and_3F_lt (h : UInt32) : (h &&& 0x3F).toNat < 64 := by
  rw [UInt32.toNat_and]
  exact lt_of_le_of_lt Nat.and_le_right (by decide)

/-- `data[i]` within the vector. -/
theorem elemAt_of_lt {data : List UInt64} {i : Nat} (h : i < data.length) :
    elemAt data i = .ok (data.getD i 0) := by
  simp [elemAt, List.getD_eq_getElem?_getD, h]

end Positions

/-! ## Labels -/

section Labels

/-- Bit `i` of a word. -/
def bitAt (x : UInt64) (i : Nat) : Bool := x.toBitVec.getLsbD i

theorem bitAt_ge (x : UInt64) {i : Nat} (hi : 64 ≤ i) : bitAt x i = false :=
  BitVec.getLsbD_of_ge _ _ hi

theorem bitAt_writeBit (x : UInt64) (c : Bool) (s : UInt64) (hs : s.toNat < 64) (i : Nat) :
    bitAt (writeBit x s (if c then 1 else 0)) i = if i = s.toNat then c else bitAt x i := by
  have hm : s.toNat % 64 = s.toNat := Nat.mod_eq_of_lt hs
  by_cases hi : i < 64
  · simp only [writeBit, bitAt, UInt64.toBitVec_or, UInt64.toBitVec_and, UInt64.toBitVec_not,
      UInt64.toBitVec_shiftLeft]
    rcases Nat.lt_trichotomy i s.toNat with h | rfl | h
    · cases c <;> simp [hm, h, hi, Nat.ne_of_lt h]
    · cases c <;> simp [hm, hi]
    · cases c <;> simp [hm, hi, Nat.ne_of_gt h, show i - s.toNat ≠ 0 by omega, Nat.not_lt.mpr h.le]
  · simp [bitAt_ge _ (Nat.not_lt.mp hi), show i ≠ s.toNat by omega]

theorem bitAt_and_wipeMask (x p1 p2 : UInt64) (c1 c2 : Bool) (i : Nat) :
    bitAt (x &&& ((p1 ^^^ (0 - if c1 then 1 else 0)) ||| (p2 ^^^ (0 - if c2 then 1 else 0)))) i =
      (bitAt x i && !(bitAt p1 i == c1 && bitAt p2 i == c2)) := by
  by_cases hi : i < 64
  · cases c1 <;> cases c2 <;> simp [bitAt, hi]
  · simp [bitAt_ge _ (Nat.not_lt.mp hi)]

theorem shiftRight_and_one_eq_zero (x s : UInt64) (hs : s.toNat < 64) :
    x >>> s &&& 1 = 0 ↔ bitAt x s.toNat = false := by
  have hm : s.toNat % 64 = s.toNat := Nat.mod_eq_of_lt hs
  rw [← UInt64.toNat_inj]
  simp [UInt64.toNat_and, UInt64.toNat_shiftRight, hm, bitAt, BitVec.getLsbD, Nat.testBit]

/-- The label of position `b` of pair `w`: bit `b` of word `2w` is its low
bit, bit `b` of word `2w + 1` its high bit. -/
def label (data : List UInt64) (w b : Nat) : Nat :=
  (bitAt (data.getD (2 * w) 0) b).toNat + 2 * (bitAt (data.getD (2 * w + 1) 0) b).toNat

theorem label_le_three (data : List UInt64) (w b : Nat) : label data w b ≤ 3 := by
  unfold label
  cases bitAt (data.getD (2 * w) 0) b <;> cases bitAt (data.getD (2 * w + 1) 0) b <;> decide

theorem label_cons_cons_zero (p1 p2 : UInt64) (rest : List UInt64) (b : Nat) :
    label (p1 :: p2 :: rest) 0 b = (bitAt p1 b).toNat + 2 * (bitAt p2 b).toNat := rfl

theorem label_cons_cons_succ (p1 p2 : UInt64) (rest : List UInt64) (w b : Nat) :
    label (p1 :: p2 :: rest) (w + 1) b = label rest w b := by
  simp only [label, show 2 * (w + 1) = 2 * w + 1 + 1 by omega, List.getD_cons_succ]

theorem label_set_pair (data : List UInt64) (v : Nat) (hv : 2 * v + 1 < data.length)
    (s : UInt64) (hs : s.toNat < 64) (c1 c2 : Bool) (w b : Nat) :
    label ((data.set (2 * v) (writeBit (data.getD (2 * v) 0) s (if c1 then 1 else 0))).set (2 * v + 1)
        (writeBit (data.getD (2 * v + 1) 0) s (if c2 then 1 else 0))) w b =
      if w = v ∧ b = s.toNat then c1.toNat + 2 * c2.toNat else label data w b := by
  by_cases hw : w = v
  · subst hw
    simp [label, List.getD_eq_getElem?_getD, bitAt_writeBit _ _ _ hs, hv, show 2 * w < data.length by omega]
    split <;> simp_all
  · simp [label, List.getD_eq_getElem?_getD, hw, show 2 * v ≠ 2 * w by omega,
      show 2 * v + 1 ≠ 2 * w by omega, show 2 * v ≠ 2 * w + 1 by omega]

end Labels

/-! ## One call of each loop

Each loop of `insert` is described by what it does to every label, so that
the run below never unfolds the code again: the wipe clears exactly the
positions carrying the new label, and a hash write relabels exactly its own
position. -/

section Steps

/-- A size the hash positions fit: an even number of words, at least one pair,
and no more than the `2^32` that `FastMod` can address. -/
structure Sized (size : Nat) : Prop where
  even : size % 2 = 0
  pos : 2 ≤ size
  le : size ≤ 2 ^ 32

/-- The labels 1, 2 and 3 as the two bits that `insert` writes. -/
theorem generation_bits {g : Int} (h1 : 1 ≤ g) (h3 : g ≤ 3) :
    ∃ c1 c2 : Bool, UInt64.ofInt (g % 2) = (if c1 then 1 else 0) ∧
      UInt64.ofInt (g >>> 1) = (if c2 then 1 else 0) ∧ c1.toNat + 2 * c2.toNat = g.toNat := by
  obtain rfl | rfl | rfl : g = 1 ∨ g = 2 ∨ g = 3 := by omega
  · exact ⟨true, false, by decide, by decide, rfl⟩
  · exact ⟨false, true, by decide, by decide, rfl⟩
  · exact ⟨true, true, by decide, by decide, rfl⟩

/-- The wipe clears the positions whose label is the masks' one and keeps
every other label. -/
theorem wipe_spec (c1 c2 : Bool) : ∀ data : List UInt64, data.length % 2 = 0 →
    ∃ data', wipe (0 - if c1 then 1 else 0) (0 - if c2 then 1 else 0) data = .ok data' ∧
      data'.length = data.length ∧
      ∀ w b, label data' w b = if label data w b = c1.toNat + 2 * c2.toNat then 0 else label data w b
  | [], _ => ⟨[], rfl, rfl, fun w b => by simp [label, bitAt]⟩
  | [_], h => absurd h (by simp)
  | p1 :: p2 :: rest, h => by
    obtain ⟨rest', hrest, hlen, hlab⟩ := wipe_spec c1 c2 rest (by simp at h; omega)
    simp only [wipe, hrest, ok_bind, pure_eq_ok]
    refine ⟨_, rfl, by simp [hlen], ?_⟩
    intro w b
    cases w with
    | zero =>
      rw [label_cons_cons_zero, label_cons_cons_zero, bitAt_and_wipeMask, bitAt_and_wipeMask]
      cases bitAt p1 b <;> cases bitAt p2 b <;> cases c1 <;> cases c2 <;> decide
    | succ w => rw [label_cons_cons_succ, label_cons_cons_succ, hlab]

variable (MurmurHash3 : UInt32 → List UInt8 → UInt32)

/-- The pair and the bit that hash `n` of `vKey` labels in a filter of `size` words. -/
def slot (nTweak : UInt32) (size : Nat) (vKey : List UInt8) (n : Nat) : Nat × Nat :=
  let h := RollingBloomHash MurmurHash3 n.toUInt32 nTweak vKey
  ((FastMod h size).toNat / 2, (h &&& 0x3F).toNat)

/-- A hash write stays within the vector and relabels its own position only. -/
theorem setHash_spec {data : List UInt64} (hsize : Sized data.length) {g : Int} (hg1 : 1 ≤ g)
    (hg3 : g ≤ 3) (nTweak : UInt32) (vKey : List UInt8) (n : Nat) :
    ∃ data', setHash MurmurHash3 g nTweak vKey data n = .ok data' ∧ data'.length = data.length ∧
      ∀ w b, label data' w b =
        if (w, b) = slot MurmurHash3 nTweak data.length vKey n then g.toNat else label data w b := by
  obtain ⟨c1, c2, h1, h2, hc⟩ := generation_bits hg1 hg3
  set h := RollingBloomHash MurmurHash3 n.toUInt32 nTweak vKey with hh
  set pos := FastMod h data.length with hpos
  have hlt : pos.toNat < data.length := FastMod_lt h (by have := hsize.pos; omega) hsize.le
  have hv : 2 * (pos.toNat / 2) + 1 < data.length := by have := hsize.even; omega
  have hs : (h &&& 0x3F).toUInt64.toNat < 64 := by simpa using toNat_and_3F_lt h
  -- the odd word is read after the even one is written
  have hread : elemAt (data.set (2 * (pos.toNat / 2)) (writeBit (data.getD (2 * (pos.toNat / 2)) 0)
      (h &&& 0x3F).toUInt64 (if c1 then 1 else 0))) (2 * (pos.toNat / 2) + 1) = .ok (data.getD (2 * (pos.toNat / 2) + 1) 0) := by
    rw [elemAt_of_lt (by simpa using hv)]
    simp [List.getD_eq_getElem?_getD]
  have hrun : setHash MurmurHash3 g nTweak vKey data n =
      .ok ((data.set (2 * (pos.toNat / 2)) (writeBit (data.getD (2 * (pos.toNat / 2)) 0) (h &&& 0x3F).toUInt64
        (if c1 then 1 else 0))).set (2 * (pos.toNat / 2) + 1)
        (writeBit (data.getD (2 * (pos.toNat / 2) + 1) 0) (h &&& 0x3F).toUInt64 (if c2 then 1 else 0))) := by
    simp only [setHash, ← hh, ← hpos, toNat_and_not_one, toNat_or_one,
      elemAt_of_lt (by omega : 2 * (pos.toNat / 2) < data.length), ok_bind, h1, h2, hread]
    rfl
  refine ⟨_, hrun, by simp, fun w b => ?_⟩
  rw [label_set_pair data _ hv _ hs, hc]
  simp [slot, ← hh, ← hpos, Prod.ext_iff]

/-- The hash loop of `insert` labels every position of `vKey` and keeps every
other label. -/
theorem setHashes_spec {g : Int} (hg1 : 1 ≤ g) (hg3 : g ≤ 3) (nTweak : UInt32) (vKey : List UInt8) :
    ∀ (ns : List Nat) (data : List UInt64), Sized data.length →
      ∃ data', ns.foldlM (setHash MurmurHash3 g nTweak vKey) data = .ok data' ∧
        data'.length = data.length ∧
        ∀ w b, label data' w b = if ∃ n ∈ ns, slot MurmurHash3 nTweak data.length vKey n = (w, b)
          then g.toNat else label data w b
  | [], data, _ => ⟨data, rfl, rfl, fun w b => by simp⟩
  | n :: ns, data, hsize => by
    obtain ⟨data1, h1, hlen1, hlab1⟩ := setHash_spec MurmurHash3 hsize hg1 hg3 nTweak vKey n
    obtain ⟨data2, h2, hlen2, hlab2⟩ :=
      setHashes_spec hg1 hg3 nTweak vKey ns data1 (by rw [hlen1]; exact hsize)
    refine ⟨data2, by rw [List.foldlM_cons, h1, ok_bind, h2], by rw [hlen2, hlen1], fun w b => ?_⟩
    rw [hlab2, hlab1, hlen1]
    by_cases hn : slot MurmurHash3 nTweak data.length vKey n = (w, b)
    · simp [hn]
    · simp [hn, Ne.symm hn]

/-- Within a generation nothing happens before the hash loop. -/
theorem startGeneration_of_ne {f : CRollingBloomFilter}
    (h : f.nEntriesThisGeneration ≠ f.nEntriesPerGeneration) : startGeneration f = .ok f := by
  simp [startGeneration, h]

/-- A full generation moves the label on and wipes the positions that carry
the new label. -/
theorem startGeneration_of_eq {f : CRollingBloomFilter}
    (h : f.nEntriesThisGeneration = f.nEntriesPerGeneration) (heven : f.data.length % 2 = 0)
    (hg1 : 1 ≤ f.nGeneration) (hg3 : f.nGeneration ≤ 3) :
    ∃ data', startGeneration f = .ok { f with
        nEntriesThisGeneration := 0
        nGeneration := if f.nGeneration + 1 = 4 then 1 else f.nGeneration + 1
        data := data' } ∧
      data'.length = f.data.length ∧
      ∀ w b, label data' w b =
        if label f.data w b = (if f.nGeneration + 1 = 4 then 1 else f.nGeneration + 1).toNat then 0
        else label f.data w b := by
  obtain ⟨c1, c2, h1, h2, hc⟩ := generation_bits (g := if f.nGeneration + 1 = 4 then 1 else f.nGeneration + 1)
    (by split <;> omega) (by split <;> omega)
  obtain ⟨data', hwipe, hlen, hlab⟩ := wipe_spec c1 c2 f.data heven
  refine ⟨data', ?_, hlen, by rw [← hc]; exact hlab⟩
  simp only [startGeneration, if_pos h, h1, h2, hwipe, ok_bind, pure_eq_ok]

/-- `insert` is the hash loop on the filter that `startGeneration` leaves. -/
theorem insert_spec {f f1 : CRollingBloomFilter} (hstart : startGeneration f = .ok f1)
    (hsize : Sized f1.data.length) (hg1 : 1 ≤ f1.nGeneration) (hg3 : f1.nGeneration ≤ 3)
    (vKey : List UInt8) :
    ∃ data', insert MurmurHash3 f vKey =
        .ok { f1 with nEntriesThisGeneration := f1.nEntriesThisGeneration + 1, data := data' } ∧
      data'.length = f1.data.length ∧
      ∀ w b, label data' w b =
        if ∃ n < f1.nHashFuncs.toNat, slot MurmurHash3 f1.nTweak f1.data.length vKey n = (w, b)
        then f1.nGeneration.toNat else label f1.data w b := by
  obtain ⟨data', hrun, hlen, hlab⟩ :=
    setHashes_spec MurmurHash3 hg1 hg3 f1.nTweak vKey (List.range f1.nHashFuncs.toNat) f1.data hsize
  refine ⟨data', by rw [insert, hstart, ok_bind, hrun, ok_bind, pure_eq_ok], hlen, fun w b => ?_⟩
  rw [hlab w b]
  exact if_congr (by simp) rfl rfl

end Steps

/-! ## The wrapped element count -/

section Empty

variable (MurmurHash3 : UInt32 → List UInt8 → UInt32)

theorem setHash_nil (nGeneration : Int) (nTweak : UInt32) (vKey : List UInt8) (n : Nat) :
    setHash MurmurHash3 nGeneration nTweak vKey [] n = .error "data index out of range" := rfl

/-- On an empty filter the first hash already writes past the end. -/
theorem foldlM_setHash_nil (nGeneration : Int) (nTweak : UInt32) (vKey : List UInt8)
    {ns : List Nat} (hns : ns ≠ []) :
    ns.foldlM (setHash MurmurHash3 nGeneration nTweak vKey) [] = .error "data index out of range" := by
  obtain ⟨n, ns, rfl⟩ := List.exists_cons_of_ne_nil hns
  rw [List.foldlM_cons, setHash_nil, error_bind]

end Empty

section Run

/-- How many generations label `m` lies behind the current label `g`. -/
def age (g m : Nat) : Nat := (g + 3 - m) % 3

/-- A label at most one generation old is not the next label, which the
switch wipes, and it becomes one generation older. -/
theorem age_next {g : Int} (h1 : 1 ≤ g) (h3 : g ≤ 3) {m : Nat} (hm0 : 0 < m) (hm3 : m ≤ 3)
    (hd : age g.toNat m ≤ 1) :
    m ≠ (if g + 1 = 4 then 1 else g + 1).toNat ∧
      age (if g + 1 = 4 then 1 else g + 1).toNat m = age g.toNat m + 1 := by
  obtain rfl | rfl | rfl : g = 1 ∨ g = 2 ∨ g = 3 := by omega
  all_goals
    simp [age] at hd ⊢
    omega

/-- How many generations back the key inserted `i` keys before the last one
lies, with `nEntriesThisGeneration` keys in the current generation. -/
def generationsBack (nEntriesThisGeneration nEntriesPerGeneration : Int) (i : Nat) : Nat :=
  if (i : Int) < nEntriesThisGeneration then 0
  else if (i : Int) < nEntriesThisGeneration + nEntriesPerGeneration then 1 else 2

/-- Within a generation the keys keep how many generations back they lie. -/
theorem generationsBack_succ (c e : Int) (i : Nat) :
    generationsBack (c + 1) e (i + 1) = generationsBack c e i := by
  simp only [generationsBack]
  split_ifs <;> omega

/-- After a switch every key of the last two generations lies one generation
further back. -/
theorem generationsBack_switch {e : Int} {i : Nat} (hi : (i : Int) < e + e) :
    generationsBack e e i ≤ 1 ∧ generationsBack (0 + 1) e (i + 1) = generationsBack e e i + 1 := by
  simp only [generationsBack]
  split_ifs <;> omega

variable (MurmurHash3 : UInt32 → List UInt8 → UInt32)

/-- Every position of `vKey` carries a label at most `d` generations old. -/
def Recalls (f : CRollingBloomFilter) (d : Nat) (vKey : List UInt8) : Prop :=
  ∀ n < f.nHashFuncs.toNat, ∀ w b, slot MurmurHash3 f.nTweak f.data.length vKey n = (w, b) →
    0 < label f.data w b ∧ age f.nGeneration.toNat (label f.data w b) ≤ d

/-- The invariant of a run of `insert`, with `hist` the keys inserted so far,
newest first: the last `nEntriesThisGeneration + 2 * nEntriesPerGeneration`
of them are recalled as old as their generation. -/
structure Window (f : CRollingBloomFilter) (hist : List (List UInt8)) : Prop where
  sized : Sized f.data.length
  perGeneration : 1 ≤ f.nEntriesPerGeneration
  generation_pos : 1 ≤ f.nGeneration
  generation_le : f.nGeneration ≤ 3
  entries_nonneg : 0 ≤ f.nEntriesThisGeneration
  entries_le : f.nEntriesThisGeneration ≤ f.nEntriesPerGeneration
  recalls : ∀ (i : Nat) vKey, hist[i]? = some vKey →
    (i : Int) < f.nEntriesThisGeneration + 2 * f.nEntriesPerGeneration →
    Recalls MurmurHash3 f (generationsBack f.nEntriesThisGeneration f.nEntriesPerGeneration i) vKey

/-- Recalling carries over to a filter of the same layout whose labels keep
the bound on each recalled position. -/
theorem Recalls.transfer {f f' : CRollingBloomFilter} {d d' : Nat} {vKey : List UInt8}
    (hr : Recalls MurmurHash3 f d vKey) (hh : f'.nHashFuncs = f.nHashFuncs) (ht : f'.nTweak = f.nTweak)
    (hl : f'.data.length = f.data.length)
    (hlab : ∀ w b, 0 < label f.data w b → age f.nGeneration.toNat (label f.data w b) ≤ d →
      0 < label f'.data w b ∧ age f'.nGeneration.toNat (label f'.data w b) ≤ d') :
    Recalls MurmurHash3 f' d' vKey := by
  intro n hn w b hs
  rw [hh] at hn
  rw [ht, hl] at hs
  obtain ⟨h0, hd⟩ := hr n hn w b hs
  exact hlab w b h0 hd

/-- A key whose positions all carry the current label is recalled at any age. -/
theorem recalls_of_labelled {f : CRollingBloomFilter} {vKey : List UInt8} (hg : 1 ≤ f.nGeneration)
    (hlab : ∀ n < f.nHashFuncs.toNat, ∀ w b,
      slot MurmurHash3 f.nTweak f.data.length vKey n = (w, b) → label f.data w b = f.nGeneration.toNat)
    (d : Nat) : Recalls MurmurHash3 f d vKey := by
  intro n hn w b hs
  rw [hlab n hn w b hs]
  exact ⟨by omega, by simp [age]⟩

/-- The window after one `insert`, from the labels of the new key and of the
keys already covered. -/
theorem Window.next {f f' : CRollingBloomFilter} {hist : List (List UInt8)} {vKey : List UInt8}
    (hw : Window MurmurHash3 f hist) (hE : f'.nEntriesPerGeneration = f.nEntriesPerGeneration)
    (hl : f'.data.length = f.data.length) (hg1 : 1 ≤ f'.nGeneration) (hg3 : f'.nGeneration ≤ 3)
    (hc0 : 0 ≤ f'.nEntriesThisGeneration) (hcE : f'.nEntriesThisGeneration ≤ f'.nEntriesPerGeneration)
    (hnew : ∀ d, Recalls MurmurHash3 f' d vKey)
    (hold : ∀ (i : Nat) k, hist[i]? = some k →
      ((i + 1 : Nat) : Int) < f'.nEntriesThisGeneration + 2 * f'.nEntriesPerGeneration →
      Recalls MurmurHash3 f'
        (generationsBack f'.nEntriesThisGeneration f'.nEntriesPerGeneration (i + 1)) k) :
    Window MurmurHash3 f' (vKey :: hist) where
  sized := hl ▸ hw.sized
  perGeneration := hE ▸ hw.perGeneration
  generation_pos := hg1
  generation_le := hg3
  entries_nonneg := hc0
  entries_le := hcE
  recalls := by
    intro i k hk hi
    cases i with
    | zero =>
      simp only [List.getElem?_cons_zero, Option.some.injEq] at hk
      exact hk ▸ hnew _
    | succ i => exact hold i k (by simpa using hk) hi

/-- **One `insert` keeps the window**, with the new key as the newest. -/
theorem Window.insert {f : CRollingBloomFilter} {hist : List (List UInt8)}
    (hw : Window MurmurHash3 f hist) (vKey : List UInt8) :
    ∃ f', insert MurmurHash3 f vKey = .ok f' ∧ Window MurmurHash3 f' (vKey :: hist) ∧
      f'.nEntriesPerGeneration = f.nEntriesPerGeneration := by
  have hg1 := hw.generation_pos
  have hg3 := hw.generation_le
  have hc0 := hw.entries_nonneg
  have hcE := hw.entries_le
  by_cases hfull : f.nEntriesThisGeneration = f.nEntriesPerGeneration
  · -- a full generation: the label moves on and every covered key ages by one
    obtain ⟨data1, hstart, hlen1, hlab1⟩ := startGeneration_of_eq hfull hw.sized.even hg1 hg3
    have hn1 : 1 ≤ (if f.nGeneration + 1 = 4 then 1 else f.nGeneration + 1 : Int) := by
      split <;> omega
    have hn3 : (if f.nGeneration + 1 = 4 then 1 else f.nGeneration + 1 : Int) ≤ 3 := by
      split <;> omega
    obtain ⟨data', hins, hlen, hlab⟩ :=
      insert_spec MurmurHash3 hstart (by simpa [hlen1] using hw.sized) hn1 hn3 vKey
    refine ⟨_, hins, ?_, rfl⟩
    refine Window.next MurmurHash3 hw rfl (by simp [hlen, hlen1]) hn1 hn3 (by simp)
      (by simp; have := hw.perGeneration; omega) (fun d => ?_) (fun i k hk hi => ?_)
    · apply recalls_of_labelled MurmurHash3 hn1
      intro n hn w b hs
      rw [hlab]
      exact if_pos ⟨n, hn, by simpa [hlen] using hs⟩
    · dsimp only at hi ⊢
      have hi' : (i : Int) < f.nEntriesPerGeneration + f.nEntriesPerGeneration := by omega
      obtain ⟨hd1, hd⟩ := generationsBack_switch hi'
      rw [hd]
      have hr := hw.recalls i k hk (by omega)
      rw [hfull] at hr
      refine Recalls.transfer MurmurHash3 hr rfl rfl (by simp [hlen, hlen1]) (fun w b h0 hage => ?_)
      obtain ⟨hne, hnext⟩ := age_next hg1 hg3 h0 (label_le_three _ _ _) (by omega)
      simp only [hlab, hlab1, if_neg hne]
      split
      · exact ⟨by omega, by simp [age]⟩
      · exact ⟨h0, by omega⟩
  · -- within a generation: the new key's positions get the current label
    obtain ⟨data', hins, hlen, hlab⟩ :=
      insert_spec MurmurHash3 (startGeneration_of_ne hfull) hw.sized hg1 hg3 vKey
    refine ⟨_, hins, ?_, rfl⟩
    refine Window.next MurmurHash3 hw rfl hlen hg1 hg3 (by simp; omega) (by simp; omega)
      (fun d => ?_) (fun i k hk hi => ?_)
    · apply recalls_of_labelled MurmurHash3
      · exact hg1
      intro n hn w b hs
      rw [hlab]
      exact if_pos ⟨n, hn, by simpa [hlen] using hs⟩
    · dsimp only at hi ⊢
      rw [generationsBack_succ]
      refine Recalls.transfer MurmurHash3 (hw.recalls i k hk (by omega)) rfl rfl hlen
        (fun w b h0 hage => ?_)
      simp only [hlab]
      split
      · exact ⟨by omega, by simp [age]⟩
      · exact ⟨h0, hage⟩

/-- **A run of `insert` keeps the window**: the keys, oldest first, end up in
front of the history, newest first. -/
theorem Window.insertAll {f : CRollingBloomFilter} {hist : List (List UInt8)}
    (hw : Window MurmurHash3 f hist) (keys : List (List UInt8)) :
    ∃ f', insertAll MurmurHash3 f keys = .ok f' ∧ Window MurmurHash3 f' (keys.reverse ++ hist) ∧
      f'.nEntriesPerGeneration = f.nEntriesPerGeneration := by
  induction keys generalizing f hist with
  | nil => exact ⟨f, rfl, hw, rfl⟩
  | cons k keys ih =>
    obtain ⟨f1, h1, hw1, hE1⟩ := hw.insert MurmurHash3 k
    obtain ⟨f', h', hw', hE'⟩ := ih hw1
    refine ⟨f', by rw [Bloom.insertAll, List.foldlM_cons, h1, ok_bind]; exact h', by simpa using hw',
      hE'.trans hE1⟩

end Run

/-! ## `contains` and the constructed filter -/

section Contains

variable (MurmurHash3 : UInt32 → List UInt8 → UInt32)

theorem bitAt_or (x y : UInt64) (i : Nat) : bitAt (x ||| y) i = (bitAt x i || bitAt y i) := by
  simp [bitAt]

/-- `contains` reads within the vector and answers whether every position of
`vKey` carries a label. -/
theorem containsLoop_eq (f : CRollingBloomFilter) (hsize : Sized f.data.length) (vKey : List UInt8) :
    ∀ ns : List Nat, containsLoop MurmurHash3 f vKey ns =
      .ok (decide (∀ n ∈ ns, 0 < label f.data (slot MurmurHash3 f.nTweak f.data.length vKey n).1
        (slot MurmurHash3 f.nTweak f.data.length vKey n).2))
  | [] => by simp [containsLoop]
  | n :: ns => by
    set h := RollingBloomHash MurmurHash3 n.toUInt32 f.nTweak vKey with hh
    set pos := FastMod h f.data.length with hpos
    have hlt : pos.toNat < f.data.length := FastMod_lt h (by have := hsize.pos; omega) hsize.le
    have hv : 2 * (pos.toNat / 2) + 1 < f.data.length := by have := hsize.even; omega
    have hs : (h &&& 0x3F).toUInt64.toNat < 64 := by simpa using toNat_and_3F_lt h
    -- the test of `contains` is the label of the position being zero
    have htest : ((f.data.getD (2 * (pos.toNat / 2)) 0 ||| f.data.getD (2 * (pos.toNat / 2) + 1) 0) >>>
        (h &&& 0x3F).toUInt64 &&& 1 = 0) ↔ label f.data (pos.toNat / 2) (h &&& 0x3F).toNat = 0 := by
      rw [shiftRight_and_one_eq_zero _ _ hs, bitAt_or, label]
      simp
    have hslot : slot MurmurHash3 f.nTweak f.data.length vKey n = (pos.toNat / 2, (h &&& 0x3F).toNat) := rfl
    simp only [containsLoop, ← hh, ← hpos, toNat_and_not_one, toNat_or_one,
      elemAt_of_lt (by omega : 2 * (pos.toNat / 2) < f.data.length), elemAt_of_lt hv, ok_bind,
      containsLoop_eq f hsize vKey ns]
    by_cases h0 : label f.data (pos.toNat / 2) (h &&& 0x3F).toNat = 0
    · rw [if_pos (htest.mpr h0)]
      simp only [List.forall_mem_cons, hslot, h0, Nat.lt_irrefl, false_and, decide_false, pure_eq_ok]
    · rw [if_neg (mt htest.mp h0)]
      simp only [List.forall_mem_cons, hslot, Nat.pos_of_ne_zero h0, true_and]

/-- The constructor's filter, for an element count whose `+ 1` does not wrap
and a size in bits that is positive and does not wrap when rounded up to
words, starts an empty window. -/
theorem window_create {nElements : UInt32} (hn1 : 1 ≤ nElements.toNat) (hn2 : nElements.toNat ≤ 2 ^ 32 - 2)
    (roundedHashes : Int) {filterBits : UInt32 → UInt32}
    (hb1 : 1 ≤ (filterBits ((nElements + 1) / 2 * 3)).toNat)
    (hb2 : (filterBits ((nElements + 1) / 2 * 3)).toNat ≤ 2 ^ 32 - 64) (nTweak : UInt32) :
    Window MurmurHash3 (CRollingBloomFilter.create nElements roundedHashes filterBits nTweak) [] ∧
      (CRollingBloomFilter.create nElements roundedHashes filterBits nTweak).nEntriesPerGeneration =
        ((nElements.toNat + 1) / 2 : Nat) := by
  set B := (filterBits ((nElements + 1) / 2 * 3)).toNat with hB
  have hlen : (CRollingBloomFilter.create nElements roundedHashes filterBits nTweak).data.length =
      (B + 63) / 64 * 2 := by
    simp only [CRollingBloomFilter.create, List.length_replicate, UInt32.toNat_shiftLeft,
      UInt32.toNat_div, UInt32.toNat_add, ← hB]
    simp [Nat.shiftLeft_eq]
    omega
  have hE : (CRollingBloomFilter.create nElements roundedHashes filterBits nTweak).nEntriesPerGeneration =
      ((nElements.toNat + 1) / 2 : Nat) := by
    simp only [CRollingBloomFilter.create, UInt32.toNat_div, UInt32.toNat_add]
    simp
    omega
  refine ⟨⟨⟨by omega, by omega, by omega⟩, by omega, by simp [CRollingBloomFilter.create],
    by simp [CRollingBloomFilter.create], by simp [CRollingBloomFilter.create],
    by simp [CRollingBloomFilter.create]; omega, by simp⟩, hE⟩

/-- **The rolling Bloom filter forgets none of its last `nElements` keys**:
from the constructor, for an element count whose `+ 1` does not wrap and a
size in bits that is positive and does not wrap when rounded up to words,
every sequence of `insert` calls stays within the vector, `contains` then
reads within it for every key, and it finds every one of the last
`nElements` keys inserted. -/
theorem insertAll_contains {nElements : UInt32} (hn1 : 1 ≤ nElements.toNat)
    (hn2 : nElements.toNat ≤ 2 ^ 32 - 2) (roundedHashes : Int) {filterBits : UInt32 → UInt32}
    (hb1 : 1 ≤ (filterBits ((nElements + 1) / 2 * 3)).toNat)
    (hb2 : (filterBits ((nElements + 1) / 2 * 3)).toNat ≤ 2 ^ 32 - 64) (nTweak : UInt32)
    (keys : List (List UInt8)) :
    ∃ f, insertAll MurmurHash3 (CRollingBloomFilter.create nElements roundedHashes filterBits nTweak) keys =
        .ok f ∧
      (∀ vKey, ∃ r, contains MurmurHash3 f vKey = .ok r) ∧
      ∀ vKey ∈ keys.reverse.take nElements.toNat, contains MurmurHash3 f vKey = .ok true := by
  obtain ⟨hw0, hE0⟩ := window_create MurmurHash3 hn1 hn2 roundedHashes hb1 hb2 nTweak
  obtain ⟨f, hrun, hw, hE⟩ := hw0.insertAll MurmurHash3 keys
  rw [List.append_nil] at hw
  refine ⟨f, hrun, fun vKey => ⟨_, containsLoop_eq MurmurHash3 f hw.sized vKey _⟩, fun vKey hk => ?_⟩
  -- the key lies `i` keys back, within the two generations the window covers
  obtain ⟨i, hi⟩ := List.mem_iff_getElem?.mp hk
  rw [List.getElem?_take] at hi
  split at hi
  case isFalse => cases hi
  case isTrue hlt =>
    have hr := hw.recalls i vKey hi (by have := hw.entries_nonneg; omega)
    rw [contains, containsLoop_eq MurmurHash3 f hw.sized vKey]
    exact congrArg Except.ok (decide_eq_true fun n hn => (hr n (List.mem_range.mp hn) _ _ rfl).1)

/-- A filter of ten elements and one pair of words, with every key hashed to zero. -/
theorem insertAll_contains_ten_elements :
    1 ≤ (10 : UInt32).toNat ∧ (10 : UInt32).toNat ≤ 2 ^ 32 - 2 ∧
      1 ≤ ((fun _ : UInt32 => (64 : UInt32)) ((10 + 1) / 2 * 3)).toNat ∧
      ((fun _ : UInt32 => (64 : UInt32)) ((10 + 1) / 2 * 3)).toNat ≤ 2 ^ 32 - 64 ∧
      ∃ f, insertAll (fun _ _ => 0) (CRollingBloomFilter.create 10 1 (fun _ => 64) 0) [[1], [2]] = .ok f ∧
        (∀ vKey, ∃ r, contains (fun _ _ => 0) f vKey = .ok r) ∧
        ∀ vKey ∈ [[1], [2]].reverse.take (10 : UInt32).toNat, contains (fun _ _ => 0) f vKey = .ok true :=
  ⟨by decide, by decide, by decide, by decide,
    insertAll_contains (fun _ _ => 0) (by decide) (by decide) 1 (by decide) (by decide) 0 [[1], [2]]⟩

end Contains

end Palladium.Bloom
