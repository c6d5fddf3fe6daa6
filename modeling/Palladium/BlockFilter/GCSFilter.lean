import Mathlib.Data.UInt
import Mathlib.Tactic.Ring
import Palladium.Serialize.BitStream
import Palladium.Serialize.CompactSize

/-!
# Golomb-coded set filters

`GCSFilter` (`blockfilter.cpp`). The elements are hashed into `[0, N * M)`,
sorted, and the differences of consecutive values are written with
Golomb-Rice coding: the quotient by `2 ^ P` in unary, a zero, and the `P`
low bits. The count `N` goes first, as a CompactSize. `MatchInternal`
decodes the values in order and merges them with the sorted hashes of the
query.

Every value round-trips through the coding. The filter therefore answers a
query exactly on hashed values: it matches if and only if a query element
hashes to the value of some element of the set. Its encoding also rebuilds
the same filter.
-/

namespace Palladium.BlockFilter

open ByteStream Bits Palladium.Serialize ExceptSpec

set_option autoImplicit false

/-! ## Golomb-Rice coding -/

/-- The quotient loop of `GolombRiceEncode`: `q` one bits, at most 64 a write. -/
def writeUnary (q : Nat) (w : BitStreamWriter) : Except String BitStreamWriter :=
  if q = 0 then pure w
  else do
    let w ← w.Write (~~~0) (if q ≤ 64 then q else 64)
    writeUnary (q - if q ≤ 64 then q else 64) w
termination_by q
decreasing_by split <;> omega

/-- `GolombRiceEncode`: the quotient `x >> P` in unary, a zero, then the `P`
low bits of `x`. -/
def GolombRiceEncode (w : BitStreamWriter) (P : UInt8) (x : UInt64) :
    Except String BitStreamWriter := do
  let w ← writeUnary (x >>> P.toUInt64).toNat w
  let w ← w.Write 0 1
  w.Write x P.toNat

/-- The quotient loop of `GolombRiceDecode`: the one bits up to the first
zero are counted. Each pass reads a bit, so with `fuel` above the bits left
the loop ends by a zero bit or by the end of the data. -/
def readUnary : Nat → Nat → BitStreamReader → Reader (Nat × BitStreamReader)
  | 0, _, _ => throw "out of fuel"
  | fuel + 1, q, r => do
    let (bit, r) ← r.Read 1
    if bit = 1 then readUnary fuel (q + 1) r else pure (q, r)

/-- `GolombRiceDecode`. -/
def GolombRiceDecode (r : BitStreamReader) (P : UInt8) : Reader (UInt64 × BitStreamReader) := do
  let stream ← get
  let (q, r) ← readUnary (8 * stream.length + 9) 0 r
  let (rem, r) ← r.Read P.toNat
  pure ((UInt64.ofNat q <<< P.toUInt64) + rem, r)

/-- The bits of `GolombRiceEncode P x`. -/
def grCode (P : Nat) (x : UInt64) : List Bool :=
  List.replicate (x.toNat / 2 ^ P) true ++ false :: ofNat P x.toNat

/-- The bits of the differences of `values` from `last` on, one after
another. -/
def deltaCodes (P : Nat) : UInt64 → List UInt64 → List Bool
  | _, [] => []
  | last, value :: values => grCode P (value - last) ++ deltaCodes P value values

/-! ## `GCSFilter` -/

/-- `GCSFilter::Params`. -/
structure Params where
  m_siphash_k0 : UInt64
  m_siphash_k1 : UInt64
  m_P : UInt8
  m_M : UInt32

/-- A `GCSFilter`: its parameters, the number `m_N` of elements, the range
`m_F` of their hashes and the encoding. -/
structure GCSFilter where
  m_params : Params
  m_N : Nat
  m_F : UInt64
  m_encoded : List UInt8

/-- `GCSFilter::Element`. -/
abbrev Element := List UInt8

/-- `MapIntoRange`: the upper 64 bits of the 128-bit product `x * n`. -/
def MapIntoRange (x n : UInt64) : UInt64 :=
  UInt64.ofNat (x.toNat * n.toNat / 2 ^ 64)

/-- `MapIntoRange` where `__int128` is not available: both operands split at
bit 32, the four partial products added up in 64-bit words. -/
def MapIntoRangeFallback (x n : UInt64) : UInt64 :=
  let x_hi := x >>> 32
  let x_lo := x &&& 0xFFFFFFFF
  let n_hi := n >>> 32
  let n_lo := n &&& 0xFFFFFFFF
  let ac := x_hi * n_hi
  let ad := x_hi * n_lo
  let bc := x_lo * n_hi
  let bd := x_lo * n_lo
  let mid34 := (bd >>> 32) + (bc &&& 0xFFFFFFFF) + (ad &&& 0xFFFFFFFF)
  let upper64 := ac + (bc >>> 32) + (ad >>> 32) + (mid34 >>> 32)
  upper64

/-- The loop of the constructor: each hashed value is written as its
difference from the one before. -/
def encodeDelta (P : UInt8) (acc : BitStreamWriter × UInt64) (value : UInt64) :
    Except String (BitStreamWriter × UInt64) := do
  let w ← GolombRiceEncode acc.1 P (value - acc.2)
  pure (w, value)

/-- The check loop of `GCSFilter(params, encoded_filter)`: `n` values are
decoded and dropped. -/
def decodeAll (P : UInt8) : Nat → BitStreamReader → Reader BitStreamReader
  | 0, r => pure r
  | n + 1, r => do
    let (_, r) ← GolombRiceDecode r P
    decodeAll P n r

/-- The inner loop of `MatchInternal`: the query hashes below `value` are
passed over; one equal to it is a match, and running out of them is the end
of the search. `.inr` is the `break` to the next value. -/
def scanHashes (value : UInt64) : List UInt64 → Bool ⊕ List UInt64
  | [] => .inl false
  | h :: hs =>
    if h = value then .inl true
    else if h > value then .inr (h :: hs)
    else scanHashes value hs

/-- The outer loop of `MatchInternal`, over the `n` values still encoded. -/
def matchLoop (P : UInt8) : Nat → UInt64 → List UInt64 → BitStreamReader → Reader Bool
  | 0, _, _, _ => pure false
  | n + 1, value, element_hashes, r => do
    let (delta, r) ← GolombRiceDecode r P
    match scanHashes (value + delta) element_hashes with
    | .inl result => pure result
    | .inr element_hashes => matchLoop P n (value + delta) element_hashes r

section Filter

-- SipHash with the keys `k0` and `k1`: any function of the keys and the bytes
variable (SipHash : UInt64 → UInt64 → Element → UInt64)

/-- `GCSFilter::HashToRange` for the parameters and range `F`. -/
def hashToRange (params : Params) (F : UInt64) (element : Element) : UInt64 :=
  MapIntoRange (SipHash params.m_siphash_k0 params.m_siphash_k1 element) F

/-- `GCSFilter::BuildHashedSet`: the hashes, sorted. -/
def buildHashedSet (params : Params) (F : UInt64) (elements : List Element) : List UInt64 :=
  (elements.map (hashToRange SipHash params F)).mergeSort fun a b => decide (a ≤ b)

/-- `GCSFilter::GCSFilter(params, elements)`. The bit writer writes into the
encoding after the count. -/
def ofElements (params : Params) (elements : List Element) : Except String GCSFilter :=
  if elements.length ≥ 2 ^ 32 then throw "N must be <2^32"
  else
    let F := UInt64.ofNat (elements.length * params.m_M.toNat)
    if elements.isEmpty then pure ⟨params, elements.length, F, WriteCompactSize elements.length⟩
    else do
      let (w, _) ← (buildHashedSet SipHash params F elements).foldlM (encodeDelta params.m_P)
        (BitStreamWriter.init, 0)
      pure ⟨params, elements.length, F, WriteCompactSize elements.length ++ w.Flush.ostream⟩

end Filter

/-- `GCSFilter::GCSFilter(params, encoded_filter)`: the encoding must hold
exactly `N` values. -/
def ofEncoded (params : Params) (encoded_filter : List UInt8) : Except String GCSFilter := do
  let (N, stream) ← ReadCompactSize.run encoded_filter
  if N ≥ 2 ^ 32 then throw "N must be <2^32"
  else do
    let (_, stream) ← (decodeAll params.m_P N ⟨0, 8⟩).run stream
    if stream.isEmpty then pure ⟨params, N, UInt64.ofNat (N * params.m_M.toNat), encoded_filter⟩
    else throw "encoded_filter contains excess data"

namespace GCSFilter

variable (SipHash : UInt64 → UInt64 → Element → UInt64)

def HashToRange (f : GCSFilter) (element : Element) : UInt64 :=
  hashToRange SipHash f.m_params f.m_F element

def BuildHashedSet (f : GCSFilter) (elements : List Element) : List UInt64 :=
  buildHashedSet SipHash f.m_params f.m_F elements

/-- `GCSFilter::MatchInternal` on sorted query hashes. -/
def MatchInternal (f : GCSFilter) (element_hashes : List UInt64) : Except String Bool := do
  let (N, stream) ← ReadCompactSize.run f.m_encoded
  if N ≠ f.m_N then throw "assert(N == m_N)"
  else do
    let (result, _) ← (matchLoop f.m_params.m_P f.m_N 0 element_hashes ⟨0, 8⟩).run stream
    pure result

def Match (f : GCSFilter) (element : Element) : Except String Bool :=
  f.MatchInternal [f.HashToRange SipHash element]

def MatchAny (f : GCSFilter) (elements : List Element) : Except String Bool :=
  f.MatchInternal (f.BuildHashedSet SipHash elements)

end GCSFilter

/-! ## The coding round-trips -/

theorem writeUnary_spec : ∀ (q : Nat) {w : BitStreamWriter}, w.Clean →
    ∃ w', writeUnary q w = .ok w' ∧ w'.Clean ∧ w'.bits = w.bits ++ List.replicate q true := by
  intro q
  induction q using Nat.strong_induction_on with
  | _ q ih =>
  intro w hw
  rw [writeUnary]
  split
  · rename_i h0
    subst h0
    exact ⟨w, rfl, hw, by simp⟩
  · rename_i h0
    set k := if q ≤ 64 then q else 64 with hk
    have hk64 : k ≤ 64 := by rw [hk]; split <;> omega
    have hkq : k ≤ q ∧ 0 < k := by rw [hk]; split <;> omega
    have hones : ofNat k (~~~(0 : UInt64)).toNat = List.replicate k true := by
      rw [show (~~~(0 : UInt64)).toNat = 2 ^ 64 - 1 by decide]
      exact ofNat_two_pow_sub_one hk64
    obtain ⟨w₁, hw₁, hc₁, hb₁⟩ := BitStreamWriter.Write_spec (~~~0) hk64 hw
    obtain ⟨w₂, hw₂, hc₂, hb₂⟩ := ih (q - k) (by omega) hc₁
    refine ⟨w₂, by rw [hw₁, ok_bind]; exact hw₂, hc₂, ?_⟩
    rw [hb₂, hb₁, hones, List.append_assoc, ← List.replicate_add, show k + (q - k) = q by omega]

/-- `GolombRiceEncode` writes the code of `x`. -/
theorem GolombRiceEncode_spec {P : UInt8} (hP : P.toNat < 64) (x : UInt64) {w : BitStreamWriter}
    (hw : w.Clean) :
    ∃ w', GolombRiceEncode w P x = .ok w' ∧ w'.Clean ∧ w'.bits = w.bits ++ grCode P.toNat x := by
  have hq : (x >>> P.toUInt64).toNat = x.toNat / 2 ^ P.toNat := by
    rw [UInt64.toNat_shiftRight, UInt8.toNat_toUInt64, Nat.mod_eq_of_lt hP, Nat.shiftRight_eq_div_pow]
  obtain ⟨w₁, h₁, hc₁, hb₁⟩ := writeUnary_spec (x >>> P.toUInt64).toNat hw
  obtain ⟨w₂, h₂, hc₂, hb₂⟩ := BitStreamWriter.Write_spec 0 (n := 1) (by omega) hc₁
  obtain ⟨w₃, h₃, hc₃, hb₃⟩ := BitStreamWriter.Write_spec x (n := P.toNat) (by omega) hc₂
  refine ⟨w₃, by rw [GolombRiceEncode, h₁, ok_bind, h₂, ok_bind, h₃], hc₃, ?_⟩
  rw [hb₃, hb₂, hb₁, hq, grCode]
  simp [ofNat]

/-- The unary loop counts the one bits before the first zero. -/
theorem readUnary_spec : ∀ (k fuel q : Nat) (r : BitStreamReader) (stream : List UInt8)
    (l : List Bool), r.unread stream = List.replicate k true ++ false :: l → k < fuel →
    ∃ r' stream', (readUnary fuel q r).run stream = .ok ((q + k, r'), stream') ∧
      r'.unread stream' = l := by
  intro k
  induction k with
  | zero =>
    intro fuel q r stream l h hfuel
    obtain ⟨fuel, rfl⟩ : ∃ f, fuel = f + 1 := ⟨fuel - 1, by omega⟩
    obtain ⟨r₁, s₁, hread, hunread⟩ :=
      BitStreamReader.Read_spec (n := 1) (by omega) (by rw [h]; simp)
    refine ⟨r₁, s₁, ?_, by rw [hunread, h]; rfl⟩
    rw [readUnary, StateT.run_bind, hread, ok_bind, h]
    rfl
  | succ k ih =>
    intro fuel q r stream l h hfuel
    obtain ⟨fuel, rfl⟩ : ∃ f, fuel = f + 1 := ⟨fuel - 1, by omega⟩
    obtain ⟨r₁, s₁, hread, hunread⟩ :=
      BitStreamReader.Read_spec (n := 1) (by omega) (by rw [h]; simp; omega)
    have hrest : r₁.unread s₁ = List.replicate k true ++ false :: l := by
      rw [hunread, h, List.replicate_succ]
      rfl
    obtain ⟨r₂, s₂, hrun, hunread₂⟩ := ih fuel (q + 1) r₁ s₁ l hrest (by omega)
    refine ⟨r₂, s₂, ?_, hunread₂⟩
    have hbit : ∀ rest : List Bool, UInt64.ofNat (Bits.toNat (List.take 1 (true :: rest))) = 1 :=
      fun _ => rfl
    rw [readUnary, StateT.run_bind, hread, ok_bind, h, List.replicate_succ, List.cons_append]
    dsimp only
    rw [hbit, if_pos rfl, hrun, show q + 1 + k = q + (k + 1) by omega]

/-- `GolombRiceDecode` reads back the value of a code. -/
theorem GolombRiceDecode_spec {P : UInt8} (hP : P.toNat < 64) (x : UInt64) {r : BitStreamReader}
    {stream : List UInt8} {l : List Bool} (h : r.unread stream = grCode P.toNat x ++ l) :
    ∃ r' stream', (GolombRiceDecode r P).run stream = .ok ((x, r'), stream') ∧
      r'.unread stream' = l := by
  set k := x.toNat / 2 ^ P.toNat with hk
  have hlen : (r.unread stream).length = 8 - r.m_offset.val + 8 * stream.length := by
    simp [BitStreamReader.unread]
  have hfuel : k < 8 * stream.length + 9 := by
    have : k + 1 ≤ (r.unread stream).length := by rw [h]; simp [grCode]; omega
    omega
  obtain ⟨r₁, s₁, hrun₁, hunread₁⟩ := readUnary_spec k _ 0 r stream (ofNat P.toNat x.toNat ++ l)
    (by rw [h, grCode, List.append_assoc]; rfl) hfuel
  obtain ⟨r₂, s₂, hrun₂, hunread₂⟩ := BitStreamReader.Read_spec (n := P.toNat) (by omega)
    (by rw [hunread₁]; simp)
  refine ⟨r₂, s₂, ?_, by rw [hunread₂, hunread₁, List.drop_left' (length_ofNat _ _)]⟩
  rw [GolombRiceDecode, StateT.run_bind, StateT.run_get, pure_eq_ok, ok_bind]
  dsimp only
  rw [StateT.run_bind, hrun₁, ok_bind]
  dsimp only
  rw [StateT.run_bind, hrun₂, ok_bind, hunread₁, List.take_left' (length_ofNat _ _), toNat_ofNat]
  -- the quotient shifted back and the remainder add up to `x`
  have hx := x.toNat_lt
  have hk64 : k < 2 ^ 64 := lt_of_le_of_lt (Nat.div_le_self _ _) hx
  have hkp : k * 2 ^ P.toNat < 2 ^ 64 := lt_of_le_of_lt (Nat.div_mul_le_self _ _) hx
  have hmod : x.toNat % 2 ^ P.toNat < 2 ^ 64 := lt_of_le_of_lt (Nat.mod_le _ _) hx
  have hsum : k * 2 ^ P.toNat + x.toNat % 2 ^ P.toNat = x.toNat := Nat.div_add_mod' _ _
  have hval : (UInt64.ofNat (0 + k) <<< P.toUInt64) + UInt64.ofNat (x.toNat % 2 ^ P.toNat) = x := by
    apply UInt64.toNat_inj.mp
    rw [UInt64.toNat_add, UInt64.toNat_shiftLeft, UInt64.toNat_ofNat', UInt64.toNat_ofNat',
      UInt8.toNat_toUInt64, Nat.mod_eq_of_lt hP, Nat.zero_add, Nat.mod_eq_of_lt hk64,
      Nat.shiftLeft_eq, Nat.mod_eq_of_lt hkp, Nat.mod_eq_of_lt hmod, hsum, Nat.mod_eq_of_lt hx]
  rw [hval]
  rfl

/-! ## The filter's encoding -/

/-- The constructor's loop writes the codes of the differences. -/
theorem encodeDeltas_spec {P : UInt8} (hP : P.toNat < 64) : ∀ (values : List UInt64)
    (w : BitStreamWriter) (last : UInt64), w.Clean →
    ∃ w' last', values.foldlM (encodeDelta P) (w, last) = .ok (w', last') ∧ w'.Clean ∧
      w'.bits = w.bits ++ deltaCodes P.toNat last values
  | [], w, last, hw => ⟨w, last, rfl, hw, by simp [deltaCodes]⟩
  | value :: values, w, last, hw => by
    obtain ⟨w₁, h₁, hc₁, hb₁⟩ := GolombRiceEncode_spec hP (value - last) hw
    obtain ⟨w₂, last₂, h₂, hc₂, hb₂⟩ := encodeDeltas_spec hP values w₁ value hc₁
    refine ⟨w₂, last₂, ?_, hc₂, by rw [hb₂, hb₁, deltaCodes, List.append_assoc]⟩
    rw [List.foldlM_cons, encodeDelta, h₁, ok_bind, pure_eq_ok, ok_bind]
    exact h₂

/-- The check loop reads the codes of the differences back. -/
theorem decodeAll_spec {P : UInt8} (hP : P.toNat < 64) : ∀ (values : List UInt64) (last : UInt64)
    (r : BitStreamReader) (stream : List UInt8) (l : List Bool),
    r.unread stream = deltaCodes P.toNat last values ++ l →
    ∃ r' stream', (decodeAll P values.length r).run stream = .ok (r', stream') ∧
      r'.unread stream' = l
  | [], _, r, stream, l, h => ⟨r, stream, rfl, by rw [h]; rfl⟩
  | value :: values, last, r, stream, l, h => by
    obtain ⟨r₁, s₁, h₁, hu₁⟩ := GolombRiceDecode_spec hP (value - last)
      (by rw [h, deltaCodes, List.append_assoc])
    obtain ⟨r₂, s₂, h₂, hu₂⟩ := decodeAll_spec hP values value r₁ s₁ l hu₁
    refine ⟨r₂, s₂, ?_, hu₂⟩
    rw [List.length_cons, decodeAll, StateT.run_bind, h₁, ok_bind]
    exact h₂

/-- Bits left after the last code, fewer than a byte, mean the stream is
spent. -/
theorem stream_nil_of_unread {r : BitStreamReader} {stream : List UInt8} {pad : List Bool}
    (h : r.unread stream = pad) (hpad : pad.length < 8) : stream = [] := by
  have hlen := congrArg List.length h
  simp only [BitStreamReader.unread, List.length_append, length_ofNat, length_ofBytes] at hlen
  cases stream with
  | nil => rfl
  | cons b rest => simp at hlen; omega

section Filter

variable (SipHash : UInt64 → UInt64 → Element → UInt64)

theorem length_buildHashedSet (params : Params) (F : UInt64) (elements : List Element) :
    (buildHashedSet SipHash params F elements).length = elements.length := by
  rw [buildHashedSet, List.length_mergeSort, List.length_map]

theorem pairwise_buildHashedSet (params : Params) (F : UInt64) (elements : List Element) :
    (buildHashedSet SipHash params F elements).Pairwise (· ≤ ·) :=
  (@List.pairwise_mergeSort _ (fun a b => decide (a ≤ b))
    (fun _ _ _ hab hbc => by simp only [decide_eq_true_eq] at *; exact UInt64.le_trans hab hbc)
    (fun a b => by rcases UInt64.le_total a b with h | h <;> simp [h]) _).imp fun h => by
      simpa using h

/-- A filter built from a set: the count, then the codes of the sorted
hashes' differences, padded to a byte. -/
theorem ofElements_spec (params : Params) (hP : params.m_P.toNat < 64) (elements : List Element)
    (hN : elements.length ≤ MAX_SIZE) :
    ∃ bytes pad, ofElements SipHash params elements =
        .ok ⟨params, elements.length, UInt64.ofNat (elements.length * params.m_M.toNat),
          WriteCompactSize elements.length ++ bytes⟩ ∧
      ofBytes bytes = deltaCodes params.m_P.toNat 0
        (buildHashedSet SipHash params (UInt64.ofNat (elements.length * params.m_M.toNat)) elements) ++ pad ∧
      pad.length < 8 := by
  have hN32 : ¬elements.length ≥ 2 ^ 32 := by simp only [MAX_SIZE] at hN; omega
  rw [ofElements, if_neg hN32]
  dsimp only
  split
  · -- no elements: the count alone
    rename_i hempty
    rw [List.isEmpty_iff] at hempty
    subst hempty
    exact ⟨[], [], by simp, by simp [buildHashedSet, deltaCodes], by simp⟩
  · obtain ⟨w, last, hfold, hc, hbits⟩ := encodeDeltas_spec hP
      (buildHashedSet SipHash params (UInt64.ofNat (elements.length * params.m_M.toNat)) elements)
      BitStreamWriter.init 0 BitStreamWriter.Clean_init
    obtain ⟨-, -, hflush⟩ := BitStreamWriter.Flush_spec hc
    refine ⟨w.Flush.ostream, List.replicate ((8 - w.m_offset.val) % 8) false,
      by rw [hfold, ok_bind]; rfl, ?_, ?_⟩
    · rw [hflush, hbits, BitStreamWriter.bits_init]
      simp
    · simp only [List.length_replicate]
      omega

end Filter

/-- The encoding of a filter rebuilds it. -/
theorem ofEncoded_spec {params : Params} (hP : params.m_P.toNat < 64) {N : Nat} (hN : N ≤ MAX_SIZE)
    {values : List UInt64} (hlen : values.length = N) {bytes : List UInt8} {pad : List Bool}
    (hbytes : ofBytes bytes = deltaCodes params.m_P.toNat 0 values ++ pad) (hpad : pad.length < 8) :
    ofEncoded params (WriteCompactSize N ++ bytes) =
      .ok ⟨params, N, UInt64.ofNat (N * params.m_M.toNat), WriteCompactSize N ++ bytes⟩ := by
  have hN32 : ¬N ≥ 2 ^ 32 := by simp only [MAX_SIZE] at hN; omega
  obtain ⟨r', s', hrun, hunread⟩ := decodeAll_spec hP values 0 ⟨0, 8⟩ bytes pad
    (by simp [BitStreamReader.unread, hbytes])
  have hs' : s' = [] := stream_nil_of_unread hunread hpad
  subst hs'
  rw [ofEncoded, ReadCompactSize_WriteCompactSize hN bytes, ok_bind]
  dsimp only
  rw [if_neg hN32, ← hlen, hrun, ok_bind]
  rfl

/-! ## `MatchInternal` is a merge -/

/-- The inner loop of `MatchInternal` on sorted query hashes: it ends with
whether `value` is among them, and with no match when all are below it, or
breaks with those not below `value`. -/
theorem scanHashes_cases {value : UInt64} : ∀ {hashes : List UInt64}, hashes.Pairwise (· ≤ ·) →
    (scanHashes value hashes = .inl (decide (value ∈ hashes)) ∧
        (value ∈ hashes ∨ ∀ h ∈ hashes, h < value)) ∨
    ∃ rest, scanHashes value hashes = .inr rest ∧ value ∉ hashes ∧ rest.Pairwise (· ≤ ·) ∧
      ∀ x, value ≤ x → (x ∈ rest ↔ x ∈ hashes)
  | [], _ => .inl ⟨by simp [scanHashes], .inr (by simp)⟩
  | h :: hs, hsorted => by
    rw [List.pairwise_cons] at hsorted
    obtain ⟨hmin, hs_sorted⟩ := hsorted
    rw [scanHashes]
    by_cases heq : h = value
    · exact .inl ⟨by simp [heq], .inl (by simp [heq])⟩
    by_cases hgt : h > value
    · -- every query hash from here on is above `value`
      refine .inr ⟨h :: hs, by rw [if_neg heq, if_pos hgt], ?_, .cons hmin hs_sorted,
        fun _ _ => Iff.rfl⟩
      intro hmem
      rcases List.mem_cons.mp hmem with h' | h'
      · exact heq h'.symm
      · exact absurd (hmin value h') (UInt64.not_le.mpr hgt)
    have hlt : h < value := by
      have h₁ : h.toNat ≠ value.toNat := fun e => heq (UInt64.toNat_inj.mp e)
      have h₂ : ¬value.toNat < h.toNat := fun e => hgt (UInt64.lt_iff_toNat_lt.mpr e)
      exact UInt64.lt_iff_toNat_lt.mpr (by omega)
    rw [if_neg heq, if_neg hgt]
    rcases scanHashes_cases hs_sorted with ⟨hscan, hcase⟩ | ⟨rest, hscan, hnot, hrest, hiff⟩
    · refine .inl ⟨?_, ?_⟩
      · rw [hscan]
        simp [Ne.symm heq]
      · rcases hcase with hin | hall
        · exact .inl (List.mem_cons_of_mem h hin)
        · exact .inr (List.forall_mem_cons.mpr ⟨hlt, hall⟩)
    · refine .inr ⟨rest, hscan, ?_, hrest, fun x hx => ?_⟩
      · simp [Ne.symm heq, hnot]
      · rw [hiff x hx, List.mem_cons]
        exact ⟨.inr, fun h' => h'.resolve_left fun hxh => absurd (hxh ▸ hlt) (UInt64.not_lt.mpr hx)⟩

/-- The outer loop of `MatchInternal` over the encoded sorted values: a match
exactly when some value is among the sorted query hashes. The induction is
on the values still encoded. -/
theorem matchLoop_spec {P : UInt8} (hP : P.toNat < 64) : ∀ (values : List UInt64) (value : UInt64)
    (hashes : List UInt64) (r : BitStreamReader) (stream : List UInt8) (l : List Bool),
    values.Pairwise (· ≤ ·) → hashes.Pairwise (· ≤ ·) →
    r.unread stream = deltaCodes P.toNat value values ++ l →
    ∃ stream', (matchLoop P values.length value hashes r).run stream =
      .ok (decide (∃ v ∈ values, v ∈ hashes), stream')
  | [], _, _, _, stream, _, _, _, _ => ⟨stream, by simp [matchLoop]⟩
  | v :: vs, value, hashes, r, stream, l, hvs, hhashes, h => by
    rw [List.pairwise_cons] at hvs
    obtain ⟨hmin, hvs⟩ := hvs
    obtain ⟨r₁, s₁, h₁, hu₁⟩ := GolombRiceDecode_spec hP (v - value)
      (by rw [h, deltaCodes, List.append_assoc])
    have hv : value + (v - value) = v := add_sub_cancel value v
    rw [List.length_cons, matchLoop, StateT.run_bind, h₁, ok_bind]
    dsimp only
    rw [hv]
    rcases @scanHashes_cases v _ hhashes with ⟨hscan, hcase⟩ | ⟨rest, hscan, hnot, hrest, hiff⟩
    · -- the search ends at `v`
      have hiff : v ∈ hashes ↔ ∃ x ∈ v :: vs, x ∈ hashes := by
        constructor
        · exact fun hin => ⟨v, List.mem_cons_self, hin⟩
        · rintro ⟨x, hx, hxin⟩
          rcases hcase with hin | hall
          · exact hin
          · rcases List.mem_cons.mp hx with rfl | hx'
            · exact hxin
            · exact absurd (hall x hxin) (UInt64.not_lt.mpr (hmin x hx'))
      refine ⟨s₁, ?_⟩
      rw [hscan, decide_eq_decide.mpr hiff]
      rfl
    · -- past `v`, with the query hashes not below it
      have hiff : (∃ x ∈ vs, x ∈ rest) ↔ ∃ x ∈ v :: vs, x ∈ hashes := by
        constructor
        · rintro ⟨x, hx, hxin⟩
          exact ⟨x, List.mem_cons_of_mem v hx, (hiff x (hmin x hx)).mp hxin⟩
        · rintro ⟨x, hx, hxin⟩
          rcases List.mem_cons.mp hx with rfl | hx'
          · exact absurd hxin hnot
          · exact ⟨x, hx', (hiff x (hmin x hx')).mpr hxin⟩
      obtain ⟨s₂, h₂⟩ := matchLoop_spec hP vs v rest r₁ s₁ l hvs hrest hu₁
      refine ⟨s₂, ?_⟩
      rw [hscan]
      dsimp only
      rw [h₂, decide_eq_decide.mpr hiff]

/-- On a filter whose encoding holds the sorted `values`, `MatchInternal`
matches sorted query hashes exactly when one of them is a value. -/
theorem MatchInternal_spec {f : GCSFilter} (hP : f.m_params.m_P.toNat < 64) (hN : f.m_N ≤ MAX_SIZE)
    {values : List UInt64} (hlen : values.length = f.m_N) (hsorted : values.Pairwise (· ≤ ·))
    {bytes : List UInt8} {pad : List Bool} (henc : f.m_encoded = WriteCompactSize f.m_N ++ bytes)
    (hbytes : ofBytes bytes = deltaCodes f.m_params.m_P.toNat 0 values ++ pad)
    (hashes : List UInt64) (hhashes : hashes.Pairwise (· ≤ ·)) :
    f.MatchInternal hashes = .ok (decide (∃ v ∈ values, v ∈ hashes)) := by
  obtain ⟨s', hrun⟩ := matchLoop_spec hP values 0 hashes ⟨0, 8⟩ bytes pad hsorted hhashes
    (by simp [BitStreamReader.unread, hbytes])
  rw [GCSFilter.MatchInternal, henc, ReadCompactSize_WriteCompactSize hN bytes, ok_bind]
  dsimp only
  rw [if_neg (fun h => h rfl), ← hlen, hrun, ok_bind]
  rfl

/-! ## `MapIntoRange` without `__int128`

The portable branch computes the same value as the 128-bit product: the
sums of partial products stay below `2 ^ 64` because the value they add up
to does. Every hashed value therefore lies in `[0, F)`. -/

theorem toNat_hi (x : UInt64) : (x >>> 32).toNat = x.toNat / 2 ^ 32 := by
  rw [UInt64.toNat_shiftRight]
  simp [Nat.shiftRight_eq_div_pow]

theorem toNat_lo (x : UInt64) : (x &&& 0xFFFFFFFF).toNat = x.toNat % 2 ^ 32 := by
  rw [UInt64.toNat_and]
  exact Nat.and_two_pow_sub_one_eq_mod x.toNat 32

theorem mul_lt_two_pow_64 {a b : Nat} (ha : a < 2 ^ 32) (hb : b < 2 ^ 32) : a * b < 2 ^ 64 :=
  Nat.lt_of_lt_of_le (Nat.mul_lt_mul'' ha hb) (by decide)

/-- A product of two halves does not wrap. -/
theorem toNat_mul_of_lt {a b : UInt64} (ha : a.toNat < 2 ^ 32) (hb : b.toNat < 2 ^ 32) :
    (a * b).toNat = a.toNat * b.toNat := by
  rw [UInt64.toNat_mul]
  exact Nat.mod_eq_of_lt (mul_lt_two_pow_64 ha hb)

/-- The upper word of a product of numbers split at bit 32, from the four
partial products as the fallback adds them up. -/
theorem limbs_div (xh xl nh nl : Nat) :
    (xh * 2 ^ 32 + xl) * (nh * 2 ^ 32 + nl) / 2 ^ 64 =
      xh * nh + xl * nh / 2 ^ 32 + xh * nl / 2 ^ 32 +
        (xl * nl / 2 ^ 32 + xl * nh % 2 ^ 32 + xh * nl % 2 ^ 32) / 2 ^ 32 := by
  have hexp : (xh * 2 ^ 32 + xl) * (nh * 2 ^ 32 + nl) =
      xh * nh * 2 ^ 64 + xl * nh * 2 ^ 32 + xh * nl * 2 ^ 32 + xl * nl := by ring
  rw [hexp]
  omega

/-- The fallback's sums in 64-bit words do not wrap when the value they add
up to fits in 64 bits. -/
theorem limbs_sum_no_wrap {A B C D : Nat} (hB : B < 2 ^ 64) (hC : C < 2 ^ 64) (hD : D < 2 ^ 64)
    (hsum : A + B / 2 ^ 32 + C / 2 ^ 32 + (D / 2 ^ 32 + B % 2 ^ 32 + C % 2 ^ 32) / 2 ^ 32 < 2 ^ 64) :
    (((A + B / 2 ^ 32) % 2 ^ 64 + C / 2 ^ 32) % 2 ^ 64 +
        ((D / 2 ^ 32 + B % 2 ^ 32) % 2 ^ 64 + C % 2 ^ 32) % 2 ^ 64 / 2 ^ 32) % 2 ^ 64 =
      A + B / 2 ^ 32 + C / 2 ^ 32 + (D / 2 ^ 32 + B % 2 ^ 32 + C % 2 ^ 32) / 2 ^ 32 := by
  omega

theorem mul_div_two_pow_64_lt (x n : UInt64) : x.toNat * n.toNat / 2 ^ 64 < 2 ^ 64 := by
  rw [Nat.div_lt_iff_lt_mul (by decide)]
  exact Nat.mul_lt_mul'' x.toNat_lt n.toNat_lt

theorem MapIntoRange_toNat (x n : UInt64) : (MapIntoRange x n).toNat = x.toNat * n.toNat / 2 ^ 64 := by
  rw [MapIntoRange, UInt64.toNat_ofNat', Nat.mod_eq_of_lt (mul_div_two_pow_64_lt x n)]

theorem MapIntoRangeFallback_toNat (x n : UInt64) :
    (MapIntoRangeFallback x n).toNat = x.toNat * n.toNat / 2 ^ 64 := by
  have hx : x.toNat / 2 ^ 32 < 2 ^ 32 := by have := x.toNat_lt; omega
  have hn : n.toNat / 2 ^ 32 < 2 ^ 32 := by have := n.toNat_lt; omega
  have hx' : x.toNat % 2 ^ 32 < 2 ^ 32 := Nat.mod_lt _ (by decide)
  have hn' : n.toNat % 2 ^ 32 < 2 ^ 32 := Nat.mod_lt _ (by decide)
  -- the four partial products of halves do not wrap
  have hac := toNat_mul_of_lt (a := x >>> 32) (b := n >>> 32) (by rwa [toNat_hi]) (by rwa [toNat_hi])
  have had := toNat_mul_of_lt (a := x >>> 32) (b := n &&& 0xFFFFFFFF) (by rwa [toNat_hi]) (by rwa [toNat_lo])
  have hbc := toNat_mul_of_lt (a := x &&& 0xFFFFFFFF) (b := n >>> 32) (by rwa [toNat_lo]) (by rwa [toNat_hi])
  have hbd := toNat_mul_of_lt (a := x &&& 0xFFFFFFFF) (b := n &&& 0xFFFFFFFF) (by rwa [toNat_lo])
    (by rwa [toNat_lo])
  have hsplit := limbs_div (x.toNat / 2 ^ 32) (x.toNat % 2 ^ 32) (n.toNat / 2 ^ 32) (n.toNat % 2 ^ 32)
  rw [Nat.div_add_mod' x.toNat, Nat.div_add_mod' n.toNat] at hsplit
  simp only [MapIntoRangeFallback, UInt64.toNat_add, toNat_hi, toNat_lo, hac, had, hbc, hbd]
  -- the sums in words are the exact sums, and those are the upper word
  rw [limbs_sum_no_wrap (mul_lt_two_pow_64 hx' hn) (mul_lt_two_pow_64 hx hn')
    (mul_lt_two_pow_64 hx' hn') (hsplit ▸ mul_div_two_pow_64_lt x n)]
  exact hsplit.symm

theorem MapIntoRange_lt (x : UInt64) {n : UInt64} (hn : 0 < n) : MapIntoRange x n < n := by
  have hpos : 0 < n.toNat := UInt64.lt_iff_toNat_lt.mp hn
  rw [UInt64.lt_iff_toNat_lt, MapIntoRange_toNat, Nat.div_lt_iff_lt_mul (by decide)]
  calc x.toNat * n.toNat < 2 ^ 64 * n.toNat := Nat.mul_lt_mul_of_pos_right x.toNat_lt hpos
    _ = n.toNat * 2 ^ 64 := Nat.mul_comm _ _

/-- Both branches of `MapIntoRange` compute the upper word of `x * n`, and
the value lies below `n` when `n` is positive. -/
theorem MapIntoRange_fallback_agrees (x n : UInt64) :
    (MapIntoRangeFallback x n).toNat = x.toNat * n.toNat / 2 ^ 64 ∧
      MapIntoRangeFallback x n = MapIntoRange x n ∧ (0 < n → MapIntoRangeFallback x n < n) := by
  have hfall := MapIntoRangeFallback_toNat x n
  have hagree : MapIntoRangeFallback x n = MapIntoRange x n :=
    UInt64.toNat_inj.mp (by rw [hfall, MapIntoRange_toNat])
  exact ⟨hfall, hagree, fun hn => hagree ▸ MapIntoRange_lt x hn⟩

theorem MapIntoRange_fallback_agrees_at_max :
    (0 : UInt64) < 0xFFFFFFFFFFFFFFFF ∧
      MapIntoRangeFallback 0xFFFFFFFFFFFFFFFF 0xFFFFFFFFFFFFFFFF < 0xFFFFFFFFFFFFFFFF :=
  ⟨by decide, (MapIntoRange_fallback_agrees _ _).2.2 (by decide)⟩

section Filter

variable (SipHash : UInt64 → UInt64 → Element → UInt64)

/-- Every element hashes into `[0, F)`. -/
theorem hashToRange_lt (params : Params) {F : UInt64} (hF : 0 < F) (element : Element) :
    hashToRange SipHash params F element < F :=
  MapIntoRange_lt _ hF

end Filter

/-- `BASIC_FILTER_P` and `BASIC_FILTER_M`, with zero SipHash keys. -/
def basicParams : Params := ⟨0, 0, 19, 784931⟩

/-- A stand-in for SipHash that hashes an element to its length. -/
def lengthHash : UInt64 → UInt64 → Element → UInt64 := fun _ _ e => UInt64.ofNat e.length

def twoElements : List Element := [[1], [2, 3]]

/-- A GCS filter is exact on hashed values and rebuilds from its encoding:
for `P < 64` and at most `MAX_SIZE` elements, the constructor succeeds,
`MatchAny` matches exactly when a query element hashes to the value of an
element of the set, `Match` never misses an element of the set, and the
encoding rebuilds the same filter, which therefore answers every query
alike. -/
theorem gcs_filter_exact_and_round_trips (SipHash : UInt64 → UInt64 → Element → UInt64)
    (params : Params) (hP : params.m_P.toNat < 64) (elements : List Element)
    (hN : elements.length ≤ MAX_SIZE) :
    ∃ f, ofElements SipHash params elements = .ok f ∧
      (∀ queries : List Element, f.MatchAny SipHash queries =
        .ok (decide (∃ q ∈ queries, ∃ e ∈ elements,
          f.HashToRange SipHash q = f.HashToRange SipHash e))) ∧
      (∀ e ∈ elements, f.Match SipHash e = .ok true) ∧
      ofEncoded params f.m_encoded = .ok f := by
  obtain ⟨bytes, pad, hof, hbytes, hpad⟩ := ofElements_spec SipHash params hP elements hN
  set F := UInt64.ofNat (elements.length * params.m_M.toNat) with hF
  set values := buildHashedSet SipHash params F elements with hvalues
  have hlen : values.length = elements.length := length_buildHashedSet SipHash params F elements
  have hmem : ∀ x, x ∈ values ↔ ∃ e ∈ elements, hashToRange SipHash params F e = x := by
    intro x
    rw [hvalues, buildHashedSet, List.mem_mergeSort, List.mem_map]
  have hmatch := MatchInternal_spec (f := ⟨params, elements.length, F,
    WriteCompactSize elements.length ++ bytes⟩) hP hN hlen
    (pairwise_buildHashedSet SipHash params F elements) rfl hbytes
  refine ⟨_, hof, fun queries => ?_, fun e he => ?_, ofEncoded_spec hP hN hlen hbytes hpad⟩
  · -- the sorted query hashes meet the sorted values exactly at a shared hash
    rw [GCSFilter.MatchAny, GCSFilter.BuildHashedSet,
      hmatch _ (pairwise_buildHashedSet SipHash params F queries)]
    apply congrArg
    apply decide_eq_decide.mpr
    simp only [buildHashedSet, List.mem_mergeSort, List.mem_map, hmem]
    constructor
    · rintro ⟨x, ⟨e, he, rfl⟩, q, hq, hqx⟩
      exact ⟨q, hq, e, he, hqx⟩
    · rintro ⟨q, hq, e, he, hqe⟩
      exact ⟨_, ⟨e, he, rfl⟩, q, hq, hqe⟩
  · -- an element's own hash is among the values
    rw [GCSFilter.Match, hmatch _ (List.pairwise_singleton _ _)]
    apply congrArg
    simp only [decide_eq_true_eq, List.mem_singleton]
    exact ⟨_, (hmem _).mpr ⟨e, he, rfl⟩, rfl⟩

theorem gcs_filter_exact_and_round_trips_basic :
    ∃ f, ofElements lengthHash basicParams twoElements = .ok f ∧
      (∀ queries : List Element, f.MatchAny lengthHash queries =
        .ok (decide (∃ q ∈ queries, ∃ e ∈ twoElements,
          f.HashToRange lengthHash q = f.HashToRange lengthHash e))) ∧
      (∀ e ∈ twoElements, f.Match lengthHash e = .ok true) ∧
      ofEncoded basicParams f.m_encoded = .ok f :=
  gcs_filter_exact_and_round_trips lengthHash basicParams (by decide) twoElements (by decide)

end Palladium.BlockFilter
