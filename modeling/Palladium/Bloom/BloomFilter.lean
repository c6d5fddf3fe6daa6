import Mathlib
import Palladium.Script.Standard
import Palladium.Primitives.Transaction
import Palladium.Consensus.MerkleBlock
import Palladium.Script.Interpreter
import Palladium.Lib.Limbs

/-!
# The Bloom filter of a peer

`CBloomFilter` (`bloom.h`, `bloom.cpp`) is the filter an SPV client loads into a node
with `filterload` and extends with `filteradd`; the node then relays a transaction to it
only when `IsRelevantAndUpdate` finds it relevant, and with `BLOOM_UPDATE_ALL` adds the
outpoints of the matching outputs so that their spends match as well.

MurmurHash3 and the transaction hash are parameters. The modulus of `Hash` is zero for
a filter without data, undefined in C++ and an error here. The flags `isFull` and
`isEmpty` shortcut `contains`; `filterload` sets them from the data and `filterclear`
installs the default filter, which is full.

On a filter that keeps the invariant `Inv` no call divides by zero and the shortcuts
agree with the bit test. `insert` and `IsRelevantAndUpdate` only set bits and keep the
invariant, a key inserted is contained from then on, and a transaction is relevant
when its hash or a spent outpoint is in the filter. A serialized filter reads back.
-/

set_option autoImplicit false

namespace Palladium.Bloom

open ByteStream Palladium.Serialize Palladium.Script Palladium.Coins Palladium.Primitives

def MAX_BLOOM_FILTER_SIZE : Nat := 36000
def MAX_HASH_FUNCS : Nat := 50

/-! `bloomflags`: the low two bits of `nFlags`; the other bits are reserved. -/

def BLOOM_UPDATE_NONE : UInt8 := 0
def BLOOM_UPDATE_ALL : UInt8 := 1
def BLOOM_UPDATE_P2PUBKEY_ONLY : UInt8 := 2
def BLOOM_UPDATE_MASK : UInt8 := 3

/-- `CBloomFilter`. -/
structure CBloomFilter where
  vData : List UInt8
  isFull : Bool
  isEmpty : Bool
  nHashFuncs : UInt32
  nTweak : UInt32
  nFlags : UInt8
deriving DecidableEq, Repr

namespace CBloomFilter

/-- `CBloomFilter()`: no data, full, so that it matches everything. -/
def default : CBloomFilter := ⟨[], true, false, 0, 0, 0⟩

/-- `SerializationOp` writing: `vData`, `nHashFuncs`, `nTweak`, `nFlags`. -/
def Serialize (f : CBloomFilter) : List UInt8 :=
  WriteCompactSize f.vData.length ++ f.vData ++ writeLE 4 f.nHashFuncs.toNat ++ writeLE 4 f.nTweak.toNat ++
    [f.nFlags]

/-- `SerializationOp` reading into `CBloomFilter filter;`, which leaves the flags of the
default filter. -/
def Unserialize : Reader CBloomFilter := do
  let nSize ← ReadCompactSize
  let vData ← readBytes nSize
  let nHashFuncs ← readLE 4
  let nTweak ← readLE 4
  let nFlags ← readByte
  pure { default with vData, nHashFuncs := UInt32.ofNat nHashFuncs, nTweak := UInt32.ofNat nTweak, nFlags }

/-- `IsWithinSizeConstraints`. -/
def IsWithinSizeConstraints (f : CBloomFilter) : Bool :=
  f.vData.length ≤ MAX_BLOOM_FILTER_SIZE ∧ f.nHashFuncs.toNat ≤ MAX_HASH_FUNCS

/-- `UpdateEmptyFull`. -/
def UpdateEmptyFull (f : CBloomFilter) : CBloomFilter :=
  { f with isFull := f.vData.all (· == 0xff), isEmpty := f.vData.all (· == 0) }

/-- `clear`. -/
def clear (f : CBloomFilter) : CBloomFilter :=
  { f with vData := List.replicate f.vData.length 0, isFull := false, isEmpty := true }

/-- `reset`. -/
def reset (f : CBloomFilter) (nNewTweak : UInt32) : CBloomFilter := { f.clear with nTweak := nNewTweak }

/-- Bit `nIndex` of `vData` set: `vData[nIndex >> 3] |= (1 << (7 & nIndex))`. -/
def setBit (vData : List UInt8) (nIndex : Nat) : List UInt8 :=
  vData.modify (nIndex >>> 3) (· ||| (1 <<< (7 &&& nIndex).toUInt8))

/-- Bit `nIndex` of `vData` tested: `vData[nIndex >> 3] & (1 << (7 & nIndex))`. -/
def testBit (vData : List UInt8) (nIndex : Nat) : Bool :=
  (vData.getD (nIndex >>> 3) 0 &&& (1 <<< (7 &&& nIndex).toUInt8)) != 0

section Hash

variable (MurmurHash3 : UInt32 → List UInt8 → UInt32)

/-- `Hash`; the modulus `vData.size() * 8` is zero for a filter without data. -/
def Hash (f : CBloomFilter) (nHashNum : UInt32) (vDataToHash : List UInt8) : Except String Nat :=
  if f.vData.length * 8 = 0 then .error "division by zero"
  else .ok ((MurmurHash3 (nHashNum * 0xFBA4C795 + f.nTweak) vDataToHash).toNat % (f.vData.length * 8))

/-- The loop of `insert` over the hash functions `is`. -/
def insertLoop (f : CBloomFilter) (vKey : List UInt8) (vData : List UInt8) : List Nat → Except String (List UInt8)
  | [] => .ok vData
  | i :: is => do
    let nIndex ← Hash MurmurHash3 f (UInt32.ofNat i) vKey
    insertLoop f vKey (setBit vData nIndex) is

/-- `insert(const std::vector<unsigned char>&)`. -/
def insert (f : CBloomFilter) (vKey : List UInt8) : Except String CBloomFilter :=
  if f.isFull then .ok f
  else do
    let vData ← insertLoop MurmurHash3 f vKey f.vData (List.range f.nHashFuncs.toNat)
    pure { f with vData, isEmpty := false }

/-- The loop of `contains` over the hash functions `is`: false at the first bit not set. -/
def containsLoop (f : CBloomFilter) (vKey : List UInt8) : List Nat → Except String Bool
  | [] => .ok true
  | i :: is => do
    let nIndex ← Hash MurmurHash3 f (UInt32.ofNat i) vKey
    if !testBit f.vData nIndex then .ok false else containsLoop f vKey is

/-- `contains(const std::vector<unsigned char>&)`. -/
def contains (f : CBloomFilter) (vKey : List UInt8) : Except String Bool :=
  if f.isFull then .ok true
  else if f.isEmpty then .ok false
  else containsLoop MurmurHash3 f vKey (List.range f.nHashFuncs.toNat)

end Hash

end CBloomFilter

/-- The bytes of a `uint256`, as `std::vector<unsigned char>(hash.begin(), hash.end())`
and `CDataStream << hash` give them. -/
def uint256Bytes (hash : BitVec 256) : List UInt8 := writeLE 32 hash.toNat

/-- The bytes `CDataStream << outpoint` writes: the hash and the index. -/
def outpointBytes (outpoint : COutPoint) : List UInt8 := uint256Bytes outpoint.hash ++ writeLE 4 outpoint.n.toNat

/-! ## Serialization -/

/-- What `vRecv >> filter` reads from a serialized filter: its data, hash count, tweak and
flags, with the shortcut flags of the default filter; `filterload`'s `UpdateEmptyFull`
then sets these from the data, so the peer gets the filter it serialized. -/
theorem CBloomFilter_round_trip (f : CBloomFilter) (h : f.vData.length ≤ MAX_SIZE) :
    Decodes CBloomFilter.Unserialize f.Serialize { f with isFull := true, isEmpty := false } ∧
      CBloomFilter.UpdateEmptyFull { f with isFull := true, isEmpty := false } = f.UpdateEmptyFull := by
  refine ⟨?_, rfl⟩
  have hbytes : f.Serialize = WriteCompactSize f.vData.length ++ (f.vData ++ (writeLE 4 f.nHashFuncs.toNat ++
      (writeLE 4 f.nTweak.toNat ++ ([f.nFlags] ++ [])))) := by
    simp [CBloomFilter.Serialize]
  have h4 : ∀ x : UInt32, x.toNat < 256 ^ 4 := fun x => x.toNat_lt
  rw [hbytes]
  refine (ReadCompactSize_WriteCompactSize h).bind ?_
  refine (readBytes_decodes _).bind ?_
  refine (readLE_decodes 4 _ (h4 _)).bind ?_
  refine (readLE_decodes 4 _ (h4 _)).bind ?_
  refine (readByte_decodes _).bind (Decodes.pure _ |>.of_eq ?_)
  simp [CBloomFilter.default]

theorem CBloomFilter_round_trip_one_byte :
    [(0x81 : UInt8)].length ≤ MAX_SIZE ∧
      Decodes CBloomFilter.Unserialize (CBloomFilter.Serialize ⟨[0x81], false, false, 3, 7, 1⟩) ⟨[0x81], true, false, 3, 7, 1⟩ ∧
      CBloomFilter.UpdateEmptyFull ⟨[0x81], true, false, 3, 7, 1⟩ = CBloomFilter.UpdateEmptyFull ⟨[0x81], false, false, 3, 7, 1⟩ :=
  ⟨by decide, CBloomFilter_round_trip ⟨[0x81], false, false, 3, 7, 1⟩ (by decide)⟩

/-! ## Bits of the filter -/

namespace CBloomFilter

theorem shiftRight_three (n : Nat) : n >>> 3 = n / 8 := Nat.shiftRight_eq_div_pow n 3

theorem seven_and (n : Nat) : 7 &&& n = n % 8 := by
  rw [Nat.land_comm, show 7 = 2 ^ 3 - 1 from rfl, Nat.and_two_pow_sub_one_eq_mod]

/-- The bit test reads bit `n % 8` of byte `n / 8`. -/
theorem testBit_eq (vData : List UInt8) (n : Nat) :
    testBit vData n = (vData.getD (n / 8) 0).toNat.testBit (n % 8) := by
  rw [testBit, shiftRight_three, seven_and]
  exact Consensus.and_shiftLeft_ne_zero _ (Nat.mod_lt n (by decide))

@[simp] theorem length_setBit (vData : List UInt8) (n : Nat) : (setBit vData n).length = vData.length :=
  List.length_modify ..

/-- Setting a bit sets it, in range, and keeps every other bit. -/
theorem testBit_setBit (vData : List UInt8) (n j : Nat) :
    testBit (setBit vData n) j = (testBit vData j || (j = n && n / 8 < vData.length)) := by
  have hj8 : j % 8 < 8 := Nat.mod_lt j (by decide)
  have hn8 : n % 8 < 8 := Nat.mod_lt n (by decide)
  rw [testBit_eq, testBit_eq, setBit, shiftRight_three, seven_and, Limbs.getD_modify]
  by_cases hbyte : n / 8 = j / 8 ∧ j / 8 < vData.length
  · rw [if_pos hbyte, show (1 : UInt8) = true.toUInt8 from rfl,
      Consensus.testBit_or_shiftLeft _ true hn8 hj8]
    -- within one byte, the bit positions agree exactly when the indices do
    have hiff : (j % 8 == n % 8) = (j == n) := by
      rw [Bool.eq_iff_iff, beq_iff_eq, beq_iff_eq]
      omega
    simp only [Bool.true_and, hiff]
    cases hjn : j == n
    · simp [(beq_eq_false_iff_ne).mp hjn]
    · rw [beq_iff_eq] at hjn
      subst hjn
      simp [hbyte.2]
  · rw [if_neg hbyte]
    have hne : ¬(j = n ∧ n / 8 < vData.length) := by
      rintro ⟨rfl, hlt⟩
      exact hbyte ⟨rfl, hlt⟩
    simp [hne]

theorem testBit_setBit_of_testBit {vData : List UInt8} {j : Nat} (h : testBit vData j) (n : Nat) :
    testBit (setBit vData n) j := by
  rw [testBit_setBit, h, Bool.true_or]

theorem testBit_setBit_self (vData : List UInt8) {n : Nat} (h : n / 8 < vData.length) :
    testBit (setBit vData n) n := by
  rw [testBit_setBit]
  simp [h]

end CBloomFilter

/-! ## `insert` and `contains` -/

namespace CBloomFilter

/-- What every filter a peer holds keeps: a filter that is not full has data, so that
`Hash` never takes a zero modulus, and the flags `isFull` and `isEmpty` are true only
of data with every bit set and with none. -/
structure Inv (f : CBloomFilter) : Prop where
  nonempty : f.isFull = false → f.vData ≠ []
  full : f.isFull = true → ∀ b ∈ f.vData, b = 0xff
  empty : f.isEmpty = true → ∀ b ∈ f.vData, b = 0

theorem Inv_default : default.Inv where
  nonempty := by simp [default]
  full := by simp [default]
  empty := by simp [default]

/-- Whatever data a `filterload` brings, `UpdateEmptyFull` leaves a filter that keeps the
invariant: data without bytes counts as full. -/
theorem Inv_UpdateEmptyFull (f : CBloomFilter) : f.UpdateEmptyFull.Inv where
  nonempty := by
    intro h hnil
    simp only [UpdateEmptyFull] at h hnil
    simp [hnil] at h
  full := by simp [UpdateEmptyFull]
  empty := by simp [UpdateEmptyFull]

/-- `f'` has every bit of `f` set, with the same size, hash functions, tweak, flags and
`isFull`, the same data if `f` is full, and is empty only if `f` is: what `insert` and
`IsRelevantAndUpdate` leave. -/
structure Extends (f f' : CBloomFilter) : Prop where
  data_of_full : f.isFull = true → f'.vData = f.vData
  length_eq : f'.vData.length = f.vData.length
  nHashFuncs_eq : f'.nHashFuncs = f.nHashFuncs
  nTweak_eq : f'.nTweak = f.nTweak
  nFlags_eq : f'.nFlags = f.nFlags
  isFull_eq : f'.isFull = f.isFull
  bits : ∀ n, testBit f.vData n → testBit f'.vData n
  empty : f'.isEmpty = true → f.isEmpty = true

theorem Extends.refl (f : CBloomFilter) : Extends f f :=
  ⟨fun _ => rfl, rfl, rfl, rfl, rfl, rfl, fun _ h => h, id⟩

theorem Extends.trans {f g h : CBloomFilter} (hfg : Extends f g) (hgh : Extends g h) : Extends f h where
  data_of_full hf := (hgh.data_of_full (hfg.isFull_eq ▸ hf)).trans (hfg.data_of_full hf)
  length_eq := hgh.length_eq.trans hfg.length_eq
  nHashFuncs_eq := hgh.nHashFuncs_eq.trans hfg.nHashFuncs_eq
  nTweak_eq := hgh.nTweak_eq.trans hfg.nTweak_eq
  nFlags_eq := hgh.nFlags_eq.trans hfg.nFlags_eq
  isFull_eq := hgh.isFull_eq.trans hfg.isFull_eq
  bits n hn := hgh.bits n (hfg.bits n hn)
  empty he := hfg.empty (hgh.empty he)

theorem Extends.Inv {f f' : CBloomFilter} (hext : Extends f f') (hi : f.Inv) (he : f'.isEmpty = false) :
    f'.Inv where
  nonempty hf := by
    rw [← List.length_pos_iff, hext.length_eq, List.length_pos_iff]
    exact hi.nonempty (hext.isFull_eq ▸ hf)
  full hf := by
    have hf' : f.isFull = true := hext.isFull_eq ▸ hf
    rw [hext.data_of_full hf']
    exact hi.full hf'
  empty he' := by simp [he] at he'

section Hash

variable (MurmurHash3 : UInt32 → List UInt8 → UInt32)

/-- The bit position of hash function `nHashNum`, the value of `Hash` when the filter
has data. -/
def bitIndex (f : CBloomFilter) (nHashNum : UInt32) (vDataToHash : List UInt8) : Nat :=
  (MurmurHash3 (nHashNum * 0xFBA4C795 + f.nTweak) vDataToHash).toNat % (f.vData.length * 8)

theorem Hash_eq {f : CBloomFilter} (h : f.vData ≠ []) (nHashNum : UInt32) (vDataToHash : List UInt8) :
    Hash MurmurHash3 f nHashNum vDataToHash = .ok (bitIndex MurmurHash3 f nHashNum vDataToHash) := by
  have hpos := List.length_pos_iff.mpr h
  rw [Hash, if_neg (by omega)]
  rfl

theorem bitIndex_div_lt {f : CBloomFilter} (h : f.vData ≠ []) (nHashNum : UInt32) (vDataToHash : List UInt8) :
    bitIndex MurmurHash3 f nHashNum vDataToHash / 8 < f.vData.length := by
  have hpos := List.length_pos_iff.mpr h
  have := Nat.mod_lt (MurmurHash3 (nHashNum * 0xFBA4C795 + f.nTweak) vDataToHash).toNat
    (show 0 < f.vData.length * 8 by omega)
  rw [bitIndex]
  omega

theorem bitIndex_congr {f g : CBloomFilter} (hl : g.vData.length = f.vData.length) (ht : g.nTweak = f.nTweak) :
    bitIndex MurmurHash3 g = bitIndex MurmurHash3 f := by
  funext nHashNum vDataToHash
  rw [bitIndex, bitIndex, hl, ht]

theorem insertLoop_eq {f : CBloomFilter} (h : f.vData ≠ []) (vKey : List UInt8) :
    ∀ (vData : List UInt8) (is : List Nat), insertLoop MurmurHash3 f vKey vData is =
      .ok (is.foldl (fun vData i => setBit vData (bitIndex MurmurHash3 f (UInt32.ofNat i) vKey)) vData)
  | _, [] => rfl
  | vData, i :: is => by
    rw [insertLoop, Hash_eq MurmurHash3 h, ExceptSpec.ok_bind, insertLoop_eq h vKey _ is, List.foldl_cons]

theorem containsLoop_eq {f : CBloomFilter} (h : f.vData ≠ []) (vKey : List UInt8) :
    ∀ is : List Nat, containsLoop MurmurHash3 f vKey is =
      .ok (is.all fun i => testBit f.vData (bitIndex MurmurHash3 f (UInt32.ofNat i) vKey))
  | [] => rfl
  | i :: is => by
    rw [containsLoop, Hash_eq MurmurHash3 h, ExceptSpec.ok_bind, List.all_cons]
    cases testBit f.vData (bitIndex MurmurHash3 f (UInt32.ofNat i) vKey)
    · rfl
    · rw [Bool.not_true, Bool.true_and, containsLoop_eq h vKey is]
      rfl

theorem Hash_congr {f g : CBloomFilter} (hl : g.vData.length = f.vData.length) (ht : g.nTweak = f.nTweak) :
    Hash MurmurHash3 g = Hash MurmurHash3 f := by
  funext nHashNum vDataToHash
  rw [Hash, Hash, hl, ht]

/-- Setting the bits at positions `ns` keeps the length and sets exactly those in range. -/
theorem foldl_setBit : ∀ (ns : List Nat) (vData : List UInt8),
    (ns.foldl setBit vData).length = vData.length ∧
      ∀ j, testBit (ns.foldl setBit vData) j = (testBit vData j || ns.any fun n => j = n && n / 8 < vData.length)
  | [], vData => ⟨rfl, fun j => by simp⟩
  | n :: ns, vData => by
    obtain ⟨hlen, hbits⟩ := foldl_setBit ns (setBit vData n)
    refine ⟨by rw [List.foldl_cons, hlen, length_setBit], fun j => ?_⟩
    rw [List.foldl_cons, hbits, testBit_setBit, length_setBit, List.any_cons, Bool.or_assoc]

theorem insert_of_full {f : CBloomFilter} (h : f.isFull = true) (vKey : List UInt8) :
    insert MurmurHash3 f vKey = .ok f := by
  rw [insert, if_pos h]

/-- The data `insert` leaves: the bit at each of the key's positions set. -/
def insertedData (f : CBloomFilter) (vKey : List UInt8) : List UInt8 :=
  ((List.range f.nHashFuncs.toNat).map fun i => bitIndex MurmurHash3 f (UInt32.ofNat i) vKey).foldl setBit f.vData

theorem length_insertedData (f : CBloomFilter) (vKey : List UInt8) :
    (insertedData MurmurHash3 f vKey).length = f.vData.length :=
  (foldl_setBit _ _).1

theorem testBit_insertedData (f : CBloomFilter) (vKey : List UInt8) (j : Nat) :
    testBit (insertedData MurmurHash3 f vKey) j = (testBit f.vData j ||
      ((List.range f.nHashFuncs.toNat).map fun i => bitIndex MurmurHash3 f (UInt32.ofNat i) vKey).any
        fun n => j = n && n / 8 < f.vData.length) :=
  (foldl_setBit _ _).2 j

theorem insert_of_not_full {f : CBloomFilter} (hi : f.Inv) (h : f.isFull = false) (vKey : List UInt8) :
    insert MurmurHash3 f vKey = .ok { f with isEmpty := false, vData := insertedData MurmurHash3 f vKey } := by
  rw [insert, if_neg (by simp [h]), insertLoop_eq MurmurHash3 (hi.nonempty h), ExceptSpec.ok_bind, insertedData,
    List.foldl_map]
  rfl

/-- `insert` sets the key's bits and keeps the invariant. -/
theorem insert_spec {f : CBloomFilter} (hi : f.Inv) (vKey : List UInt8) :
    ∃ f', insert MurmurHash3 f vKey = .ok f' ∧ Extends f f' ∧ f'.Inv := by
  cases hfull : f.isFull
  · rw [insert_of_not_full MurmurHash3 hi hfull]
    have hext : Extends f { f with isEmpty := false, vData := insertedData MurmurHash3 f vKey } :=
      { data_of_full := by simp [hfull]
        length_eq := length_insertedData MurmurHash3 f vKey
        nHashFuncs_eq := rfl
        nTweak_eq := rfl
        nFlags_eq := rfl
        isFull_eq := rfl
        bits := fun n hn => by
          show testBit (insertedData MurmurHash3 f vKey) n = true
          rw [testBit_insertedData, hn, Bool.true_or]
        empty := by simp }
    exact ⟨_, rfl, hext, hext.Inv hi rfl⟩
  · exact ⟨f, insert_of_full MurmurHash3 hfull vKey, Extends.refl f, hi⟩

theorem contains_of_full {f : CBloomFilter} (h : f.isFull = true) (vKey : List UInt8) :
    contains MurmurHash3 f vKey = .ok true := by
  rw [contains, if_pos h]

/-- `contains` never fails on a filter that keeps the invariant. -/
theorem contains_ok {f : CBloomFilter} (hi : f.Inv) (vKey : List UInt8) : ∃ b, contains MurmurHash3 f vKey = .ok b := by
  unfold contains
  split_ifs with hfull hempty
  · exact ⟨true, rfl⟩
  · exact ⟨false, rfl⟩
  · exact ⟨_, containsLoop_eq MurmurHash3 (hi.nonempty (by simpa using hfull)) vKey _⟩

/-- After `insert` the key is contained: no false negative. -/
theorem contains_insert {f f' : CBloomFilter} (hi : f.Inv) {vKey : List UInt8}
    (h : insert MurmurHash3 f vKey = .ok f') : contains MurmurHash3 f' vKey = .ok true := by
  cases hfull : f.isFull
  · rw [insert_of_not_full MurmurHash3 hi hfull, Except.ok.injEq] at h
    subst h
    have hne := hi.nonempty hfull
    have hne' : insertedData MurmurHash3 f vKey ≠ [] := by
      rw [← List.length_pos_iff, length_insertedData, List.length_pos_iff]
      exact hne
    have hidx : bitIndex MurmurHash3 { f with isEmpty := false, vData := insertedData MurmurHash3 f vKey } =
        bitIndex MurmurHash3 f :=
      bitIndex_congr MurmurHash3 (length_insertedData MurmurHash3 f vKey) rfl
    rw [contains, if_neg (by simp [hfull]), if_neg (by simp), containsLoop_eq MurmurHash3 hne', hidx]
    -- each of the key's positions was set by the loop
    simp only [List.all_eq_true, List.mem_range, Except.ok.injEq]
    intro i hi'
    rw [testBit_insertedData, List.any_map]
    simp only [Bool.or_eq_true, List.any_eq_true, List.mem_range, Function.comp_apply, Bool.and_eq_true,
      decide_eq_true_eq]
    exact .inr ⟨i, hi', rfl, bitIndex_div_lt MurmurHash3 hne _ _⟩
  · rw [insert_of_full MurmurHash3 hfull, Except.ok.injEq] at h
    subst h
    exact contains_of_full MurmurHash3 hfull vKey

/-- The bit test only grows along `Extends`. -/
theorem containsLoop_mono {f f' : CBloomFilter} (hext : Extends f f') (vKey : List UInt8) :
    ∀ is : List Nat, containsLoop MurmurHash3 f vKey is = .ok true → containsLoop MurmurHash3 f' vKey is = .ok true
  | [], _ => rfl
  | i :: is, h => by
    rw [containsLoop] at h ⊢
    rw [Hash_congr MurmurHash3 hext.length_eq hext.nTweak_eq]
    cases hh : Hash MurmurHash3 f (UInt32.ofNat i) vKey with
    | error e =>
      rw [hh, ExceptSpec.error_bind] at h
      cases h
    | ok n =>
      rw [hh, ExceptSpec.ok_bind] at h
      rw [ExceptSpec.ok_bind]
      cases hn : testBit f.vData n
      · rw [hn] at h
        cases h
      · rw [hn, Bool.not_true] at h
        rw [hext.bits n hn, Bool.not_true]
        exact containsLoop_mono hext vKey is h

/-- What a filter contains, every filter extending it contains: nothing inserted is lost. -/
theorem contains_mono {f f' : CBloomFilter} (hext : Extends f f') {vKey : List UInt8}
    (h : contains MurmurHash3 f vKey = .ok true) : contains MurmurHash3 f' vKey = .ok true := by
  unfold contains at h ⊢
  rw [hext.isFull_eq]
  by_cases hfull : f.isFull = true
  · rw [if_pos hfull]
  rw [if_neg hfull] at h ⊢
  by_cases hempty : f.isEmpty = true
  · rw [if_pos hempty] at h
    cases h
  rw [if_neg hempty] at h
  have hempty' : ¬f'.isEmpty = true := fun he => hempty (hext.empty he)
  rw [if_neg hempty', hext.nHashFuncs_eq]
  exact containsLoop_mono MurmurHash3 hext vKey _ h

theorem testBit_255 {k : Nat} (hk : k < 8) : Nat.testBit 255 k = true := by
  interval_cases k <;> rfl

end Hash

/-! ## `IsRelevantAndUpdate` -/

section Relevant

variable (MurmurHash3 : UInt32 → List UInt8 → UInt32) (GetHash : CMutableTransaction → BitVec 256)

set_option linter.unusedVariables false in
/-- The loop over the pushes of a script from `pc`: whether some nonempty push is in the
filter. `GetOp` failing ends it. -/
def pushMatches (f : CBloomFilter) (script : CScript) (pc : Nat) : Except String Bool :=
  match hop : GetScriptOp script pc with
  | none => .ok false
  | some (_, data, pc') =>
    if data.length ≠ 0 then
      match contains MurmurHash3 f data with
      | .error e => .error e
      | .ok true => .ok true
      | .ok false => pushMatches f script pc'
    else pushMatches f script pc'
termination_by script.length - pc
decreasing_by
  all_goals
    have := GetScriptOp_lt hop
    have := GetScriptOp_le_length hop
    omega

/-- What a matching output adds to the filter: its outpoint with `BLOOM_UPDATE_ALL`, and
with `BLOOM_UPDATE_P2PUBKEY_ONLY` when it pays to a key or a multisig. -/
def updateOutput (f : CBloomFilter) (outpoint : COutPoint) (txout : CTxOut) : Except String CBloomFilter :=
  if f.nFlags &&& BLOOM_UPDATE_MASK = BLOOM_UPDATE_ALL then insert MurmurHash3 f (outpointBytes outpoint)
  else if f.nFlags &&& BLOOM_UPDATE_MASK = BLOOM_UPDATE_P2PUBKEY_ONLY then
    let (type, _) := Solver txout.scriptPubKey
    if type = .TX_PUBKEY ∨ type = .TX_MULTISIG then insert MurmurHash3 f (outpointBytes outpoint) else .ok f
  else .ok f

/-- The loop of `IsRelevantAndUpdate` over the outputs from index `i`: whether one matched,
and the filter with the outpoints it added. -/
def outputsLoop (hash : BitVec 256) : CBloomFilter → Nat → List CTxOut → Except String (Bool × CBloomFilter)
  | f, _, [] => .ok (false, f)
  | f, i, txout :: vout => do
    let m ← pushMatches MurmurHash3 f txout.scriptPubKey 0
    if m then
      let f ← updateOutput MurmurHash3 f ⟨hash, UInt32.ofNat i⟩ txout
      let (_, f) ← outputsLoop hash f (i + 1) vout
      pure (true, f)
    else outputsLoop hash f (i + 1) vout

/-- The loop of `IsRelevantAndUpdate` over the inputs: one spends an outpoint in the
filter or pushes data in it. -/
def inputsMatch (f : CBloomFilter) : List CTxIn → Except String Bool
  | [] => .ok false
  | txin :: vin => do
    if ← contains MurmurHash3 f (outpointBytes txin.prevout) then return true
    if ← pushMatches MurmurHash3 f txin.scriptSig 0 then return true
    inputsMatch f vin

/-- `IsRelevantAndUpdate`: whether the transaction is relevant, and the filter after it. -/
def IsRelevantAndUpdate (f : CBloomFilter) (tx : CMutableTransaction) : Except String (Bool × CBloomFilter) :=
  if f.isFull then .ok (true, f)
  else if f.isEmpty then .ok (false, f)
  else do
    let hash := GetHash tx
    -- match if the filter contains the hash of tx
    let fFound ← contains MurmurHash3 f (uint256Bytes hash)
    let (found, f) ← outputsLoop MurmurHash3 hash f 0 tx.vout
    if fFound || found then return (true, f)
    let r ← inputsMatch MurmurHash3 f tx.vin
    pure (r, f)

end Relevant

/-! ## What `IsRelevantAndUpdate` guarantees -/

section RelevantSpec

variable (MurmurHash3 : UInt32 → List UInt8 → UInt32) (GetHash : CMutableTransaction → BitVec 256)

/-- The loop over the pushes of a script never fails on a filter that keeps the invariant. -/
theorem pushMatches_ok {f : CBloomFilter} (hi : f.Inv) (script : CScript) (pc : Nat) :
    ∃ b, pushMatches MurmurHash3 f script pc = .ok b := by
  fun_induction pushMatches MurmurHash3 f script pc with
  | case1 => exact ⟨false, rfl⟩
  | case2 pc _ data pc' hop hlen e hc =>
    obtain ⟨b, hb⟩ := contains_ok MurmurHash3 hi data
    rw [hb] at hc
    cases hc
  | case3 => exact ⟨true, rfl⟩
  | case4 _ _ _ _ _ _ _ ih => exact ih
  | case5 _ _ _ _ _ _ ih => exact ih

/-- A script with a push in the filter has one in every filter extending it. -/
theorem pushMatches_mono {f f' : CBloomFilter} (hext : Extends f f') (hi' : f'.Inv) (script : CScript) (pc : Nat)
    (h : pushMatches MurmurHash3 f script pc = .ok true) : pushMatches MurmurHash3 f' script pc = .ok true := by
  fun_induction pushMatches MurmurHash3 f script pc with
  | case1 => cases h
  | case2 => cases h
  | case3 pc _ data pc' hop hlen hc =>
    rw [pushMatches, hop]
    dsimp only
    rw [if_pos hlen, contains_mono MurmurHash3 hext hc]
  | case4 pc _ data pc' hop hlen hc ih =>
    -- the push is not in `f`; whatever `f'` says of it, a later push is in both
    rw [pushMatches, hop]
    dsimp only
    rw [if_pos hlen]
    obtain ⟨b, hb⟩ := contains_ok MurmurHash3 hi' data
    rw [hb]
    cases b
    · exact ih h
    · rfl
  | case5 pc _ data pc' hop hlen ih =>
    rw [pushMatches, hop]
    dsimp only
    rw [if_neg hlen]
    exact ih h

/-- An empty filter that is not full matches no push. -/
theorem pushMatches_of_empty {f : CBloomFilter} (hfull : f.isFull = false) (hempty : f.isEmpty = true)
    (script : CScript) (pc : Nat) : pushMatches MurmurHash3 f script pc = .ok false := by
  have hc : ∀ vKey, contains MurmurHash3 f vKey = .ok false := by
    intro vKey
    rw [contains, if_neg (by simp [hfull]), if_pos hempty]
  fun_induction pushMatches MurmurHash3 f script pc with
  | case1 => rfl
  | case2 _ _ data _ _ _ _ h => rw [hc] at h; cases h
  | case3 _ _ data _ _ _ h => rw [hc] at h; cases h
  | case4 _ _ _ _ _ _ _ ih => exact ih
  | case5 _ _ _ _ _ _ ih => exact ih

/-- What a matching output adds keeps the invariant, and under `BLOOM_UPDATE_ALL` the
outpoint is then contained. -/
theorem updateOutput_spec {f : CBloomFilter} (hi : f.Inv) (outpoint : COutPoint) (txout : CTxOut) :
    ∃ f', updateOutput MurmurHash3 f outpoint txout = .ok f' ∧ Extends f f' ∧ f'.Inv ∧
      (f.nFlags &&& BLOOM_UPDATE_MASK = BLOOM_UPDATE_ALL →
        contains MurmurHash3 f' (outpointBytes outpoint) = .ok true) := by
  obtain ⟨f₁, hins, hext₁, hi₁⟩ := insert_spec MurmurHash3 hi (outpointBytes outpoint)
  have hcont := contains_insert MurmurHash3 hi hins
  unfold updateOutput
  by_cases hall : f.nFlags &&& BLOOM_UPDATE_MASK = BLOOM_UPDATE_ALL
  · rw [if_pos hall, hins]
    exact ⟨f₁, rfl, hext₁, hi₁, fun _ => hcont⟩
  rw [if_neg hall]
  -- the other flags insert the outpoint or leave the filter as it is
  split_ifs
  · split
    split_ifs
    · exact ⟨f₁, hins, hext₁, hi₁, fun _ => hcont⟩
    · exact ⟨f, rfl, Extends.refl f, hi, fun h => absurd h hall⟩
  · exact ⟨f, rfl, Extends.refl f, hi, fun h => absurd h hall⟩

/-- The loop over the outputs keeps the invariant, and under `BLOOM_UPDATE_ALL` the outpoint
of every output that matched the filter it started from is in the filter it ends with. -/
theorem outputsLoop_spec (hash : BitVec 256) (vout : List CTxOut) :
    ∀ {f : CBloomFilter} (i : Nat), f.Inv →
      ∃ found f', outputsLoop MurmurHash3 hash f i vout = .ok (found, f') ∧ Extends f f' ∧ f'.Inv ∧
        (f.nFlags &&& BLOOM_UPDATE_MASK = BLOOM_UPDATE_ALL →
          ∀ j (hj : j < vout.length), pushMatches MurmurHash3 f vout[j].scriptPubKey 0 = .ok true →
            contains MurmurHash3 f' (outpointBytes ⟨hash, UInt32.ofNat (i + j)⟩) = .ok true) := by
  induction vout with
  | nil =>
    intro f i hi
    exact ⟨false, f, rfl, Extends.refl f, hi, fun _ j hj => absurd hj (Nat.not_lt_zero j)⟩
  | cons txout vout ih =>
    intro f i hi
    obtain ⟨m, hm⟩ := pushMatches_ok MurmurHash3 hi txout.scriptPubKey 0
    cases m with
    | true =>
      obtain ⟨f₁, hup, hext₁, hi₁, hcont₁⟩ := updateOutput_spec MurmurHash3 hi ⟨hash, UInt32.ofNat i⟩ txout
      obtain ⟨found, f₂, hloop, hext₂, hi₂, hcont₂⟩ := ih (i + 1) hi₁
      refine ⟨true, f₂, by simp [outputsLoop, hm, hup, hloop], hext₁.trans hext₂, hi₂, ?_⟩
      intro hall j hj hmatch
      cases j with
      | zero => exact contains_mono MurmurHash3 hext₂ (hcont₁ hall)
      | succ j =>
        -- a later output matched the first filter, so it matches the one after the update
        have hall₁ : f₁.nFlags &&& BLOOM_UPDATE_MASK = BLOOM_UPDATE_ALL := by rw [hext₁.nFlags_eq]; exact hall
        have hmatch₁ := pushMatches_mono MurmurHash3 hext₁ hi₁ _ 0 hmatch
        have h := hcont₂ hall₁ j (Nat.lt_of_succ_lt_succ hj) hmatch₁
        rwa [Nat.add_right_comm] at h
    | false =>
      obtain ⟨found, f₂, hloop, hext₂, hi₂, hcont₂⟩ := ih (i + 1) hi
      refine ⟨found, f₂, by simp [outputsLoop, hm, hloop], hext₂, hi₂, ?_⟩
      intro hall j hj hmatch
      cases j with
      | zero =>
        rw [List.getElem_cons_zero, hm] at hmatch
        cases hmatch
      | succ j =>
        have h := hcont₂ hall j (Nat.lt_of_succ_lt_succ hj) hmatch
        rwa [Nat.add_right_comm] at h

/-- The loop over the inputs returns, and finds every input whose outpoint is in the filter. -/
theorem inputsMatch_spec {f : CBloomFilter} (hi : f.Inv) (vin : List CTxIn) :
    ∃ r, inputsMatch MurmurHash3 f vin = .ok r ∧
      ((∃ txin ∈ vin, contains MurmurHash3 f (outpointBytes txin.prevout) = .ok true) → r = true) := by
  induction vin with
  | nil => exact ⟨false, rfl, fun ⟨_, h, _⟩ => absurd h List.not_mem_nil⟩
  | cons txin vin ih =>
    obtain ⟨c, hc⟩ := contains_ok MurmurHash3 hi (outpointBytes txin.prevout)
    obtain ⟨p, hp⟩ := pushMatches_ok MurmurHash3 hi txin.scriptSig 0
    obtain ⟨r, hr, hfound⟩ := ih
    cases c
    · cases p
      · refine ⟨r, by simp [inputsMatch, hc, hp, hr], ?_⟩
        rintro ⟨txin', hmem, hcont⟩
        rcases List.mem_cons.mp hmem with rfl | hmem
        · rw [hc] at hcont
          cases hcont
        · exact hfound ⟨txin', hmem, hcont⟩
      · exact ⟨true, by simp [inputsMatch, hc, hp], fun _ => rfl⟩
    · exact ⟨true, by simp [inputsMatch, hc], fun _ => rfl⟩

/-- `IsRelevantAndUpdate` returns and keeps the invariant; a transaction is relevant when its
hash or one of its spent outpoints is in the filter; and under `BLOOM_UPDATE_ALL` every
output that matched the filter has its outpoint in the filter afterwards. -/
theorem IsRelevantAndUpdate_spec {f : CBloomFilter} (hi : f.Inv) (tx : CMutableTransaction) :
    ∃ r f', IsRelevantAndUpdate MurmurHash3 GetHash f tx = .ok (r, f') ∧ Extends f f' ∧ f'.Inv ∧
      (contains MurmurHash3 f (uint256Bytes (GetHash tx)) = .ok true → r = true) ∧
      ((∃ txin ∈ tx.vin, contains MurmurHash3 f (outpointBytes txin.prevout) = .ok true) → r = true) ∧
      (f.nFlags &&& BLOOM_UPDATE_MASK = BLOOM_UPDATE_ALL →
        ∀ j (hj : j < tx.vout.length), pushMatches MurmurHash3 f tx.vout[j].scriptPubKey 0 = .ok true →
          contains MurmurHash3 f' (outpointBytes ⟨GetHash tx, UInt32.ofNat j⟩) = .ok true) := by
  unfold IsRelevantAndUpdate
  by_cases hfull : f.isFull = true
  · -- a full filter matches everything and stays as it is
    rw [if_pos hfull]
    have hc : ∀ vKey, contains MurmurHash3 f vKey = .ok true := fun vKey => by rw [contains, if_pos hfull]
    exact ⟨true, f, rfl, Extends.refl f, hi, fun _ => rfl, fun _ => rfl, fun _ _ _ _ => hc _⟩
  rw [if_neg hfull]
  by_cases hempty : f.isEmpty = true
  · -- an empty filter matches nothing
    rw [if_pos hempty]
    have hc : ∀ vKey, contains MurmurHash3 f vKey = .ok false := fun vKey => by
      rw [contains, if_neg hfull, if_pos hempty]
    have hnf : f.isFull = false := by simpa using hfull
    refine ⟨false, f, rfl, Extends.refl f, hi, fun h => ?_, fun ⟨_, _, h⟩ => ?_, fun _ j _ h => ?_⟩
    · rw [hc] at h; cases h
    · rw [hc] at h; cases h
    · rw [pushMatches_of_empty MurmurHash3 hnf hempty] at h; cases h
  rw [if_neg hempty]
  obtain ⟨fFound, hfound⟩ := contains_ok MurmurHash3 hi (uint256Bytes (GetHash tx))
  obtain ⟨found, f₁, hloop, hext₁, hi₁, hcont₁⟩ := outputsLoop_spec MurmurHash3 (GetHash tx) tx.vout 0 hi
  obtain ⟨r, hr, hin⟩ := inputsMatch_spec MurmurHash3 hi₁ tx.vin
  have hcont : f.nFlags &&& BLOOM_UPDATE_MASK = BLOOM_UPDATE_ALL →
      ∀ j (hj : j < tx.vout.length), pushMatches MurmurHash3 f tx.vout[j].scriptPubKey 0 = .ok true →
        contains MurmurHash3 f₁ (outpointBytes ⟨GetHash tx, UInt32.ofNat j⟩) = .ok true := by
    intro hall j hj hmatch
    simpa using hcont₁ hall j hj hmatch
  -- an outpoint in the filter before the outputs were added is still in it for the inputs
  have hspent : (∃ txin ∈ tx.vin, contains MurmurHash3 f (outpointBytes txin.prevout) = .ok true) →
      ∃ txin ∈ tx.vin, contains MurmurHash3 f₁ (outpointBytes txin.prevout) = .ok true :=
    fun ⟨txin, hmem, h⟩ => ⟨txin, hmem, contains_mono MurmurHash3 hext₁ h⟩
  cases fFound <;> cases found
  · -- neither the hash nor an output matched: the inputs decide
    refine ⟨r, f₁, by simp [hfound, hloop, hr], hext₁, hi₁, fun h => ?_, fun h => hin (hspent h), hcont⟩
    rw [hfound] at h
    cases h
  all_goals exact ⟨true, f₁, by simp [hfound, hloop], hext₁, hi₁, fun _ => rfl, fun _ => rfl, hcont⟩

end RelevantSpec

end CBloomFilter

end Palladium.Bloom
