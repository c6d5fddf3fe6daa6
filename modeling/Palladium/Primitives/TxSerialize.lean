import Mathlib
import Palladium.Primitives.Transaction
import Palladium.Serialize.CompactSize
import Palladium.Lib.ByteStream

/-!
# Transaction serialization

`SerializeTransaction` and `UnserializeTransaction` (`primitives/transaction.h`) with
the formats of the parts they read and write: outpoints, inputs without their witness,
outputs, and the vectors of `serialize.h`.

A transaction whose inputs carry a witness is written in the extended format: an empty
input vector as a dummy, a flags byte `1`, the inputs and outputs, then one witness
stack per input. Any other transaction is written as its inputs and outputs. The reader
tells the two apart by the empty input vector, so the extended format is read back for
every transaction, and the plain one for every transaction with an input or without an
output. A transaction without inputs but with outputs is written in a form that the
reader takes for the extended format: it never reads it back. The reader accepts only
what the writer writes, for transactions of the first two kinds. Without witnesses
(`SERIALIZE_TRANSACTION_NO_WITNESS`) every transaction reads back without its witness.
-/

set_option autoImplicit false

namespace Palladium.Serialize

open ByteStream

/-! ## Vectors -/

section Vector

variable {α : Type}

/-- `Serialize` of a `std::vector`: the count, then each element. -/
def WriteVector (enc : α → List UInt8) (xs : List α) : List UInt8 :=
  WriteCompactSize xs.length ++ xs.flatMap enc

/-- `Unserialize` of a `std::vector`: the count, then that many elements. -/
def ReadVector (d : Reader α) : Reader (List α) := do
  let nSize ← ReadCompactSize
  readN d nSize

/-- A vector of bytes, as `std::vector<unsigned char>` and `CScript` are written. -/
def WriteBytes (v : List UInt8) : List UInt8 :=
  WriteCompactSize v.length ++ v

def ReadBytes : Reader (List UInt8) := do
  let nSize ← ReadCompactSize
  readBytes nSize

theorem ReadVector_decodes {d : Reader α} {enc : α → List UInt8} {xs : List α} (hlen : xs.length ≤ MAX_SIZE)
    (h : ∀ x ∈ xs, Decodes d (enc x) x) : Decodes (ReadVector d) (WriteVector enc xs) xs :=
  (ReadCompactSize_WriteCompactSize hlen).bind (readN_decodes_flatMap xs h)

theorem ReadBytes_decodes {v : List UInt8} (hlen : v.length ≤ MAX_SIZE) : Decodes ReadBytes (WriteBytes v) v :=
  (ReadCompactSize_WriteCompactSize hlen).bind (readBytes_decodes v)

theorem ReadVector_canonical {d : Reader α} {enc : α → List UInt8}
    (hd : ∀ {bs rest : List UInt8} {a : α}, d.run bs = .ok (a, rest) → bs = enc a ++ rest)
    {bs rest : List UInt8} {xs : List α} (h : (ReadVector d).run bs = .ok (xs, rest)) :
    xs.length ≤ MAX_SIZE ∧ bs = WriteVector enc xs ++ rest := by
  obtain ⟨n, mid, hn, h₂⟩ := run_bind_ok h
  obtain ⟨hmax, rfl⟩ := ReadCompactSize_canonical hn
  obtain ⟨hlen, rfl⟩ := readN_canonical hd n h₂
  rw [hlen, WriteVector, hlen, List.append_assoc]
  exact ⟨hmax, rfl⟩

theorem ReadBytes_canonical {bs rest v : List UInt8} (h : ReadBytes.run bs = .ok (v, rest)) :
    v.length ≤ MAX_SIZE ∧ bs = WriteBytes v ++ rest := by
  obtain ⟨n, mid, hn, h₂⟩ := run_bind_ok h
  obtain ⟨hmax, rfl⟩ := ReadCompactSize_canonical hn
  obtain ⟨hlen, rfl⟩ := readBytes_canonical n h₂
  rw [hlen, WriteBytes, hlen, List.append_assoc]
  exact ⟨hmax, rfl⟩

theorem ReadVector_forall {d : Reader α} {P : α → Prop}
    (hd : ∀ {bs rest : List UInt8} {a : α}, d.run bs = .ok (a, rest) → P a)
    {bs rest : List UInt8} {xs : List α} (h : (ReadVector d).run bs = .ok (xs, rest)) : ∀ x ∈ xs, P x := by
  obtain ⟨n, mid, -, h₂⟩ := run_bind_ok h
  exact readN_forall hd n h₂

@[simp] theorem WriteVector_nil (enc : α → List UInt8) : WriteVector enc [] = [0] := rfl

theorem ReadVector_nil (d : Reader α) (enc : α → List UInt8) : Decodes (ReadVector d) (WriteVector enc []) [] :=
  ReadVector_decodes (Nat.zero_le _) fun _ h => absurd h List.not_mem_nil

/-- A count above zero does not start with a zero byte. -/
theorem WriteCompactSize_head {n : Nat} (hn : 0 < n) : ∃ b W, WriteCompactSize n = b :: W ∧ b ≠ 0 := by
  unfold WriteCompactSize
  split_ifs with h1
  · refine ⟨_, [], rfl, fun h => ?_⟩
    have h' := congrArg UInt8.toNat h
    rw [UInt8.toNat_ofNat', UInt8.toNat_zero] at h'
    omega
  · exact ⟨253, _, rfl, by decide⟩
  · exact ⟨254, _, rfl, by decide⟩
  · exact ⟨255, _, rfl, by decide⟩

end Vector

end Palladium.Serialize

namespace Palladium.Primitives

open ByteStream Palladium.Serialize Palladium.Coins

/-! ## Outpoints, inputs and outputs -/

/-- `COutPoint::SerializationOp` writing: the hash, then the index. -/
def COutPoint.Serialize (outpoint : COutPoint) : List UInt8 :=
  writeLE 32 outpoint.hash.toNat ++ writeLE 4 outpoint.n.toNat

def COutPoint.Unserialize : Reader COutPoint := do
  let hash ← readLE 32
  let n ← readLE 4
  pure ⟨BitVec.ofNat 256 hash, UInt32.ofNat n⟩

/-- `CTxIn::SerializationOp` writing: the outpoint, `scriptSig` and `nSequence`; the
witness is written only by `SerializeTransaction`. -/
def CTxIn.Serialize (txin : CTxIn) : List UInt8 :=
  COutPoint.Serialize txin.prevout ++ WriteBytes txin.scriptSig ++ writeLE 4 txin.nSequence.toNat

/-- `CTxIn::SerializationOp` reading, which leaves the witness empty. -/
def CTxIn.Unserialize : Reader CTxIn := do
  let prevout ← COutPoint.Unserialize
  let scriptSig ← ReadBytes
  let nSequence ← readLE 4
  pure ⟨prevout, scriptSig, UInt32.ofNat nSequence, ⟨[]⟩⟩

/-- `CTxOut::SerializationOp` writing: the amount as a little-endian `int64_t`, then the
script. -/
def CTxOut.Serialize (txout : CTxOut) : List UInt8 :=
  writeLE 8 (txout.nValue % 2 ^ 64).toNat ++ WriteBytes txout.scriptPubKey

def CTxOut.Unserialize : Reader CTxOut := do
  let nValue ← readLE 8
  let scriptPubKey ← ReadBytes
  pure ⟨(nValue : Int).bmod (2 ^ 64), scriptPubKey⟩

/-! ## Transactions -/

/-- `SerializeTransaction`: the extended format when witnesses are allowed and some
input has one. -/
def SerializeTransaction (fAllowWitness : Bool) (tx : CMutableTransaction) : List UInt8 :=
  let flags : UInt8 := if fAllowWitness ∧ tx.HasWitness then 1 else 0
  writeLE 4 tx.nVersion.toUInt32.toNat ++
    -- the extended format: an empty input vector as a dummy, and the flags
    (if flags ≠ 0 then WriteVector CTxIn.Serialize [] ++ [flags] else []) ++
    WriteVector CTxIn.Serialize tx.vin ++ WriteVector CTxOut.Serialize tx.vout ++
    (if flags &&& 1 ≠ 0 then tx.vin.flatMap fun txin => WriteVector WriteBytes txin.scriptWitness.stack else []) ++
    writeLE 4 tx.nLockTime.toNat

/-- The part of `UnserializeTransaction` after the version and the first input vector:
the flags, the inputs and the outputs. -/
def readBody (fAllowWitness : Bool) (vin : List CTxIn) : Reader (UInt8 × List CTxIn × List CTxOut) :=
  if vin.length = 0 ∧ fAllowWitness then do
    -- a dummy or an empty input vector
    let flags ← readByte
    if flags ≠ 0 then do
      let vin ← ReadVector CTxIn.Unserialize
      let vout ← ReadVector CTxOut.Unserialize
      pure (flags, vin, vout)
    else pure (flags, vin, [])
  else do
    -- a non-empty input vector: a normal output vector follows
    let vout ← ReadVector CTxOut.Unserialize
    pure (0, vin, vout)

/-- `s >> tx.vin[i].scriptWitness.stack` for each input in turn. -/
def readStacks : List CTxIn → Reader (List CTxIn)
  | [] => pure []
  | txin :: vin => do
    let stack ← ReadVector ReadBytes
    let vin ← readStacks vin
    pure ({ txin with scriptWitness := ⟨stack⟩ } :: vin)

/-- The witness part of `UnserializeTransaction`: the flags left, and the transaction
with its witness stacks. -/
def readWitness (fAllowWitness : Bool) (flags : UInt8) (tx : CMutableTransaction) :
    Reader (UInt8 × CMutableTransaction) :=
  if flags &&& 1 ≠ 0 ∧ fAllowWitness then do
    let vin ← readStacks tx.vin
    let tx := { tx with vin }
    -- it is illegal to encode witnesses when all witness stacks are empty
    if !tx.HasWitness then throw "Superfluous witness record"
    else pure (flags ^^^ 1, tx)
  else pure (flags, tx)

/-- `UnserializeTransaction`. -/
def UnserializeTransaction (fAllowWitness : Bool) : Reader CMutableTransaction := do
  let nVersion ← readLE 4
  let vin ← ReadVector CTxIn.Unserialize
  let (flags, vin, vout) ← readBody fAllowWitness vin
  let (flags, tx) ← readWitness fAllowWitness flags ⟨vin, vout, (UInt32.ofNat nVersion).toInt32, 0⟩
  -- an unknown flag in the serialization
  if flags ≠ 0 then throw "Unknown transaction optional data"
  else do
    let nLockTime ← readLE 4
    pure { tx with nLockTime := UInt32.ofNat nLockTime }

/-! ## The parts read back -/

/-- An input without its witness, as the reader of inputs leaves it. -/
def CTxIn.WithoutWitness (txin : CTxIn) : CTxIn := { txin with scriptWitness := ⟨[]⟩ }

/-- A transaction without its witnesses, as a reader without witness support leaves it. -/
def CMutableTransaction.WithoutWitness (tx : CMutableTransaction) : CMutableTransaction :=
  { tx with vin := tx.vin.map CTxIn.WithoutWitness }

/-- What the types of the source hold: an amount in `int64_t`, and a script within
`MAX_SIZE`. -/
structure CTxOut.Fits (txout : CTxOut) : Prop where
  nValue_ge : -2 ^ 63 ≤ txout.nValue
  nValue_lt : txout.nValue < 2 ^ 63
  script : txout.scriptPubKey.length ≤ MAX_SIZE

/-- An input whose script, witness stack and stack items are within `MAX_SIZE`. -/
structure CTxIn.Fits (txin : CTxIn) : Prop where
  script : txin.scriptSig.length ≤ MAX_SIZE
  stack : txin.scriptWitness.stack.length ≤ MAX_SIZE
  items : ∀ item ∈ txin.scriptWitness.stack, item.length ≤ MAX_SIZE

/-- A transaction whose vectors and parts are within the limits of the format. -/
structure CMutableTransaction.Fits (tx : CMutableTransaction) : Prop where
  vin : tx.vin.length ≤ MAX_SIZE
  vout : tx.vout.length ≤ MAX_SIZE
  inputs : ∀ txin ∈ tx.vin, CTxIn.Fits txin
  outputs : ∀ txout ∈ tx.vout, CTxOut.Fits txout

/-- An `int64_t` written as eight bytes reads back. -/
theorem bmod_toNat_emod {x : Int} (hge : -2 ^ 63 ≤ x) (hlt : x < 2 ^ 63) :
    (((x % 2 ^ 64).toNat : Nat) : Int).bmod (2 ^ 64) = x := by
  rw [Int.toNat_of_nonneg (Int.emod_nonneg _ (by decide))]
  have h := Int.emod_bmod x (2 ^ 64)
  simp only [Nat.cast_pow, Nat.cast_ofNat] at h
  rw [h]
  apply Int.bmod_eq_of_le <;> simp only [Nat.cast_pow, Nat.cast_ofNat] <;> omega

/-- Eight bytes read as an `int64_t` are written back. -/
theorem toNat_emod_bmod {v : Nat} (h : v < 2 ^ 64) : (((v : Int).bmod (2 ^ 64)) % 2 ^ 64).toNat = v := by
  have h' := @Int.bmod_emod (v : Int) (2 ^ 64)
  simp only [Nat.cast_pow, Nat.cast_ofNat] at h'
  rw [h']
  omega

theorem COutPoint.Unserialize_decodes (outpoint : COutPoint) :
    Decodes COutPoint.Unserialize (COutPoint.Serialize outpoint) outpoint := by
  have hhash : outpoint.hash.toNat < 256 ^ 32 := by simpa using outpoint.hash.isLt
  refine ((readLE_decodes 32 _ hhash).bind ((readLE_decodes 4 _ outpoint.n.toNat_lt).bind_pure _)).of_eq ?_
  simp

/-- An input reads back without its witness, which only the transaction writes. -/
theorem CTxIn.Unserialize_decodes {txin : CTxIn} (hscript : txin.scriptSig.length ≤ MAX_SIZE) :
    Decodes CTxIn.Unserialize (CTxIn.Serialize txin) (CTxIn.WithoutWitness txin) := by
  rw [CTxIn.Serialize, List.append_assoc]
  refine (COutPoint.Unserialize_decodes txin.prevout).bind ((ReadBytes_decodes hscript).bind
    (((readLE_decodes 4 _ txin.nSequence.toNat_lt).bind_pure _).of_eq ?_))
  simp [CTxIn.WithoutWitness]

theorem CTxOut.Unserialize_decodes {txout : CTxOut} (hfit : CTxOut.Fits txout) :
    Decodes CTxOut.Unserialize (CTxOut.Serialize txout) txout := by
  have hvalue : (txout.nValue % 2 ^ 64).toNat < 256 ^ 8 := by
    have := Int.emod_lt_of_pos txout.nValue (show (0 : Int) < 2 ^ 64 by decide)
    omega
  refine ((readLE_decodes 8 _ hvalue).bind ((ReadBytes_decodes hfit.script).bind_pure _)).of_eq ?_
  rw [bmod_toNat_emod hfit.nValue_ge hfit.nValue_lt]

theorem ReadStack_decodes {txin : CTxIn} (hfit : CTxIn.Fits txin) :
    Decodes (ReadVector ReadBytes) (WriteVector WriteBytes txin.scriptWitness.stack) txin.scriptWitness.stack :=
  ReadVector_decodes hfit.stack fun item hitem => ReadBytes_decodes (hfit.items item hitem)

/-- The stacks read back onto the inputs read without them. -/
theorem readStacks_decodes : ∀ {vin : List CTxIn}, (∀ txin ∈ vin, CTxIn.Fits txin) →
    Decodes (readStacks (vin.map CTxIn.WithoutWitness))
      (vin.flatMap fun txin => WriteVector WriteBytes txin.scriptWitness.stack) vin
  | [], _ => Decodes.pure []
  | txin :: vin, hfit => by
    have hrest : Decodes (readStacks (vin.map CTxIn.WithoutWitness))
        (vin.flatMap fun txin => WriteVector WriteBytes txin.scriptWitness.stack) vin :=
      readStacks_decodes fun t ht => hfit t (List.mem_cons_of_mem txin ht)
    exact (ReadStack_decodes (hfit txin List.mem_cons_self)).bind (hrest.bind_pure _)

/-- The writer of inputs ignores their witnesses. -/
theorem WriteVector_map_WithoutWitness (vin : List CTxIn) :
    WriteVector CTxIn.Serialize (vin.map CTxIn.WithoutWitness) = WriteVector CTxIn.Serialize vin := by
  rw [WriteVector, WriteVector, List.length_map, List.flatMap_map]
  rfl

theorem WriteVector_inputs_congr {vin vin' : List CTxIn}
    (h : vin'.map CTxIn.WithoutWitness = vin.map CTxIn.WithoutWitness) :
    WriteVector CTxIn.Serialize vin' = WriteVector CTxIn.Serialize vin := by
  rw [← WriteVector_map_WithoutWitness vin', h, WriteVector_map_WithoutWitness]

/-- The input vector reads back without witnesses. -/
theorem ReadInputs_decodes {vin : List CTxIn} (hlen : vin.length ≤ MAX_SIZE) (hfit : ∀ txin ∈ vin, CTxIn.Fits txin) :
    Decodes (ReadVector CTxIn.Unserialize) (WriteVector CTxIn.Serialize vin) (vin.map CTxIn.WithoutWitness) := by
  refine (ReadVector_decodes (by rwa [List.length_map]) ?_).congr (WriteVector_map_WithoutWitness vin)
  intro x hx
  obtain ⟨txin, hmem, rfl⟩ := List.mem_map.mp hx
  exact CTxIn.Unserialize_decodes (hfit txin hmem).script

theorem ReadOutputs_decodes {vout : List CTxOut} (hlen : vout.length ≤ MAX_SIZE)
    (hfit : ∀ txout ∈ vout, CTxOut.Fits txout) :
    Decodes (ReadVector CTxOut.Unserialize) (WriteVector CTxOut.Serialize vout) vout :=
  ReadVector_decodes hlen fun txout hmem => CTxOut.Unserialize_decodes (hfit txout hmem)

theorem CMutableTransaction.vin_ne_nil_of_HasWitness {tx : CMutableTransaction} (h : tx.HasWitness = true) :
    tx.vin ≠ [] := by
  intro hnil
  simp [CMutableTransaction.HasWitness, hnil] at h

theorem CMutableTransaction.HasWitness_eq_false {tx : CMutableTransaction}
    (h : ∀ txin ∈ tx.vin, txin.scriptWitness = ⟨[]⟩) : tx.HasWitness = false := by
  rw [CMutableTransaction.HasWitness, List.any_eq_false]
  intro txin hmem
  simp [h txin hmem, CScriptWitness.IsNull]

/-- Without a witness every input is its own version without witness. -/
theorem map_WithoutWitness_of_not_HasWitness {tx : CMutableTransaction} (hw : tx.HasWitness = false) :
    tx.vin.map CTxIn.WithoutWitness = tx.vin := by
  rw [List.map_congr_left (g := id), List.map_id]
  intro txin hmem
  have hnull : txin.scriptWitness.IsNull = true := by
    have h := List.any_eq_false.mp hw txin hmem
    simpa using h
  cases txin with
  | mk prevout scriptSig nSequence scriptWitness =>
    cases scriptWitness with
    | mk stack =>
      simp only [CScriptWitness.IsNull, List.isEmpty_iff] at hnull
      rw [hnull]
      rfl

/-! ## The phases of the reader -/

/-- A non-empty input vector, or a reader without witness support: the outputs follow. -/
theorem readBody_plain {fAllowWitness : Bool} {vin : List CTxIn} {vout : List CTxOut}
    (hplain : vin ≠ [] ∨ fAllowWitness = false) (hlen : vout.length ≤ MAX_SIZE)
    (hfit : ∀ txout ∈ vout, CTxOut.Fits txout) :
    Decodes (readBody fAllowWitness vin) (WriteVector CTxOut.Serialize vout) (0, vin, vout) := by
  have hcond : ¬(vin.length = 0 ∧ fAllowWitness = true) := by
    rintro ⟨hzero, hallow⟩
    rcases hplain with hne | hno
    · exact hne (List.length_eq_zero_iff.mp hzero)
    · rw [hallow] at hno
      cases hno
  rw [readBody, if_neg hcond]
  exact (ReadOutputs_decodes hlen hfit).bind_pure _

/-- The dummy, then the flags `1` and the inputs and outputs. -/
theorem readBody_extended {vin : List CTxIn} {vout : List CTxOut} (hvin : vin.length ≤ MAX_SIZE)
    (hfitin : ∀ txin ∈ vin, CTxIn.Fits txin) (hvout : vout.length ≤ MAX_SIZE) (hfitout : ∀ txout ∈ vout, CTxOut.Fits txout) :
    Decodes (readBody true []) ([1] ++ (WriteVector CTxIn.Serialize vin ++ WriteVector CTxOut.Serialize vout))
      (1, vin.map CTxIn.WithoutWitness, vout) := by
  rw [readBody, if_pos ⟨rfl, rfl⟩]
  refine (readByte_decodes 1).bind ?_
  rw [if_pos (by decide)]
  exact (ReadInputs_decodes hvin hfitin).bind ((ReadOutputs_decodes hvout hfitout).bind_pure _)

/-- No inputs and no outputs: the flags byte read is the empty output vector. -/
theorem readBody_empty : Decodes (readBody true []) [0] (0, [], []) := by
  rw [readBody, if_pos ⟨rfl, rfl⟩]
  refine ((readByte_decodes 0).bind ?_).congr (List.append_nil _)
  rw [if_neg (by decide)]
  exact Decodes.pure _

theorem readWitness_none {fAllowWitness : Bool} {flags : UInt8} (tx : CMutableTransaction)
    (h : ¬(flags &&& 1 ≠ 0 ∧ fAllowWitness = true)) :
    Decodes (readWitness fAllowWitness flags tx) [] (flags, tx) := by
  rw [readWitness, if_neg h]
  exact Decodes.pure _

/-- The flag `1` reads the witness stacks back onto the inputs, and clears the flag. -/
theorem readWitness_stacks {tx : CMutableTransaction} (hw : tx.HasWitness = true)
    (hfit : ∀ txin ∈ tx.vin, CTxIn.Fits txin) :
    Decodes (readWitness true 1 tx.WithoutWitness)
      (tx.vin.flatMap fun txin => WriteVector WriteBytes txin.scriptWitness.stack) (0, tx) := by
  rw [readWitness, if_pos ⟨by decide, rfl⟩]
  refine ((readStacks_decodes hfit).bind ?_).congr (List.append_nil _)
  have htx : { tx.WithoutWitness with vin := tx.vin } = tx := rfl
  dsimp only
  rw [htx, hw]
  exact Decodes.pure _

/-! ## Transactions read back -/

/-- No flag left: the lock time is the last field. -/
theorem readLockTime_decodes (tx : CMutableTransaction) (nLockTime : UInt32) :
    Decodes (if (0 : UInt8) ≠ 0 then throw "Unknown transaction optional data" else do
        let nLockTime ← readLE 4
        pure { tx with nLockTime := UInt32.ofNat nLockTime } : Reader CMutableTransaction)
      (writeLE 4 nLockTime.toNat) { tx with nLockTime } := by
  rw [if_neg (by decide)]
  refine ((readLE_decodes 4 _ nLockTime.toNat_lt).bind_pure _).of_eq ?_
  rw [UInt32.ofNat_toNat]

theorem toInt32_ofNat_toNat (v : Int32) : (UInt32.ofNat v.toUInt32.toNat).toInt32 = v := by
  rw [UInt32.ofNat_toNat, Int32.toInt32_toUInt32]

/-- The plain format reads back, the inputs without their witnesses. -/
theorem UnserializeTransaction_plain {fAllowWitness : Bool} {tx : CMutableTransaction} (hfit : tx.Fits)
    (hplain : tx.vin ≠ [] ∨ fAllowWitness = false) (hw : ¬(fAllowWitness = true ∧ tx.HasWitness = true)) :
    Decodes (UnserializeTransaction fAllowWitness) (SerializeTransaction fAllowWitness tx) tx.WithoutWitness := by
  have hbytes : SerializeTransaction fAllowWitness tx = writeLE 4 tx.nVersion.toUInt32.toNat ++
      (WriteVector CTxIn.Serialize tx.vin ++ (WriteVector CTxOut.Serialize tx.vout ++ writeLE 4 tx.nLockTime.toNat)) := by
    simp [SerializeTransaction, hw]
  have hplain' : tx.vin.map CTxIn.WithoutWitness ≠ [] ∨ fAllowWitness = false := by
    rwa [Ne, List.map_eq_nil_iff]
  rw [hbytes, UnserializeTransaction]
  refine (readLE_decodes 4 _ tx.nVersion.toUInt32.toNat_lt).bind ?_
  refine (ReadInputs_decodes hfit.vin hfit.inputs).bind ?_
  refine (readBody_plain hplain' hfit.vout hfit.outputs).bind ?_
  dsimp only
  -- no flags: no witness, and nothing unknown
  refine ((readWitness_none _ fun h => h.1 (by decide)).bind ?_).congr (List.nil_append _)
  refine (readLockTime_decodes _ tx.nLockTime).of_eq ?_
  rw [toInt32_ofNat_toNat]
  rfl

/-- The extended format reads back, with the witnesses. -/
theorem UnserializeTransaction_extended {tx : CMutableTransaction} (hfit : tx.Fits) (hw : tx.HasWitness = true) :
    Decodes (UnserializeTransaction true) (SerializeTransaction true tx) tx := by
  have hbytes : SerializeTransaction true tx = writeLE 4 tx.nVersion.toUInt32.toNat ++
      (WriteVector CTxIn.Serialize [] ++ (([1] ++ (WriteVector CTxIn.Serialize tx.vin ++
        WriteVector CTxOut.Serialize tx.vout)) ++
        ((tx.vin.flatMap fun txin => WriteVector WriteBytes txin.scriptWitness.stack) ++
          writeLE 4 tx.nLockTime.toNat))) := by
    simp [SerializeTransaction, hw]
  -- the transaction `readWitness` gets: the inputs without witness, no lock time yet
  have hpart : ({ vin := tx.vin.map CTxIn.WithoutWitness, vout := tx.vout, nVersion := tx.nVersion, nLockTime := 0 } :
      CMutableTransaction) = CMutableTransaction.WithoutWitness { tx with nLockTime := 0 } := rfl
  rw [hbytes, UnserializeTransaction]
  refine (readLE_decodes 4 _ tx.nVersion.toUInt32.toNat_lt).bind ?_
  refine (ReadVector_nil _ _).bind ?_
  refine (readBody_extended hfit.vin hfit.inputs hfit.vout hfit.outputs).bind ?_
  dsimp only
  rw [toInt32_ofNat_toNat, hpart]
  have hstacks : Decodes (readWitness true 1 (CMutableTransaction.WithoutWitness { tx with nLockTime := 0 }))
      (tx.vin.flatMap fun txin => WriteVector WriteBytes txin.scriptWitness.stack) (0, { tx with nLockTime := 0 }) :=
    readWitness_stacks hw hfit.inputs
  refine hstacks.bind ?_
  exact readLockTime_decodes _ tx.nLockTime

/-- No inputs and no outputs: the flags byte the reader takes is the empty output vector. -/
theorem UnserializeTransaction_empty {tx : CMutableTransaction} (hvin : tx.vin = []) (hvout : tx.vout = []) :
    Decodes (UnserializeTransaction true) (SerializeTransaction true tx) tx := by
  have hw : tx.HasWitness = false := CMutableTransaction.HasWitness_eq_false (by simp [hvin])
  have hbytes : SerializeTransaction true tx = writeLE 4 tx.nVersion.toUInt32.toNat ++
      (WriteVector CTxIn.Serialize [] ++ ([0] ++ writeLE 4 tx.nLockTime.toNat)) := by
    simp [SerializeTransaction, hw, hvin, hvout]
  rw [hbytes, UnserializeTransaction]
  refine (readLE_decodes 4 _ tx.nVersion.toUInt32.toNat_lt).bind ((ReadVector_nil _ _).bind (readBody_empty.bind ?_))
  dsimp only
  refine ((readWitness_none _ fun h => h.1 (by decide)).bind ?_).congr (List.nil_append _)
  refine (readLockTime_decodes _ tx.nLockTime).of_eq ?_
  rw [toInt32_ofNat_toNat, ← hvin, ← hvout]

/-- Transactions read back: in the witness format every transaction that has an input or
has no output, and without witness support every transaction, without its witnesses. -/
theorem SerializeTransaction_round_trip {tx : CMutableTransaction} (hfit : tx.Fits) :
    ((tx.vin ≠ [] ∨ tx.vout = []) → Decodes (UnserializeTransaction true) (SerializeTransaction true tx) tx) ∧
      Decodes (UnserializeTransaction false) (SerializeTransaction false tx) tx.WithoutWitness := by
  refine ⟨fun hvin => ?_, UnserializeTransaction_plain hfit (.inr rfl) fun h => Bool.false_ne_true h.1⟩
  cases hw : tx.HasWitness
  · by_cases hnil : tx.vin = []
    · exact UnserializeTransaction_empty hnil (hvin.resolve_left (not_not.mpr hnil))
    -- the plain format: without a witness the inputs are their own versions without one
    have h : Decodes (UnserializeTransaction true) (SerializeTransaction true tx) tx.WithoutWitness :=
      UnserializeTransaction_plain hfit (.inl hnil) fun h => Bool.false_ne_true (hw ▸ h.2)
    rwa [CMutableTransaction.WithoutWitness, map_WithoutWitness_of_not_HasWitness hw] at h
  · exact UnserializeTransaction_extended hfit hw

theorem SerializeTransaction_round_trip_witness_spend :
    Decodes (UnserializeTransaction true)
      (SerializeTransaction true ⟨[⟨⟨0, 0⟩, [], 0xffffffff, ⟨[[1]]⟩⟩], [⟨5, [0x51]⟩], 2, 0⟩)
      ⟨[⟨⟨0, 0⟩, [], 0xffffffff, ⟨[[1]]⟩⟩], [⟨5, [0x51]⟩], 2, 0⟩ :=
  (SerializeTransaction_round_trip
    ⟨by decide, by decide,
      fun _ h => by
        rw [List.mem_singleton] at h
        subst h
        exact ⟨by decide, by decide, fun _ hi => by rw [List.mem_singleton.mp hi]; decide⟩,
      fun _ h => by
        rw [List.mem_singleton] at h
        subst h
        exact ⟨by decide, by decide, by decide⟩⟩).1 (.inl (List.cons_ne_nil _ _))

/-! ## What the reader accepts

The other direction: every transaction the reader returns is within the limits of the
format, and the bytes it consumed are the ones the writer writes for it. -/

theorem COutPoint.Unserialize_canonical {bs rest : List UInt8} {outpoint : COutPoint}
    (h : COutPoint.Unserialize.run bs = .ok (outpoint, rest)) : bs = COutPoint.Serialize outpoint ++ rest := by
  obtain ⟨hash, m₁, h₁, h⟩ := run_bind_ok h
  obtain ⟨n, m₂, h₂, h⟩ := run_bind_ok h
  obtain ⟨rfl, rfl⟩ := run_pure_ok h
  obtain ⟨hhash, rfl⟩ := readLE_canonical 32 h₁
  obtain ⟨hn, rfl⟩ := readLE_canonical 4 h₂
  have hhash' : (BitVec.ofNat 256 hash).toNat = hash := by
    rw [BitVec.toNat_ofNat]
    exact Nat.mod_eq_of_lt (by simpa using hhash)
  rw [COutPoint.Serialize, hhash', UInt32.toNat_ofNat_of_lt' (by simpa using hn), List.append_assoc]

/-- An input read has no witness, and a script within the limit. -/
theorem CTxIn.Unserialize_canonical {bs rest : List UInt8} {txin : CTxIn}
    (h : CTxIn.Unserialize.run bs = .ok (txin, rest)) :
    (CTxIn.Fits txin ∧ txin.scriptWitness = ⟨[]⟩) ∧ bs = CTxIn.Serialize txin ++ rest := by
  obtain ⟨prevout, m₁, h₁, h⟩ := run_bind_ok h
  obtain ⟨scriptSig, m₂, h₂, h⟩ := run_bind_ok h
  obtain ⟨nSequence, m₃, h₃, h⟩ := run_bind_ok h
  obtain ⟨rfl, rfl⟩ := run_pure_ok h
  obtain ⟨hscript, rfl⟩ := ReadBytes_canonical h₂
  obtain ⟨hseq, rfl⟩ := readLE_canonical 4 h₃
  refine ⟨⟨⟨hscript, by simp, by simp⟩, rfl⟩, ?_⟩
  rw [COutPoint.Unserialize_canonical h₁, CTxIn.Serialize, UInt32.toNat_ofNat_of_lt' (by simpa using hseq)]
  simp

theorem CTxOut.Unserialize_canonical {bs rest : List UInt8} {txout : CTxOut}
    (h : CTxOut.Unserialize.run bs = .ok (txout, rest)) : CTxOut.Fits txout ∧ bs = CTxOut.Serialize txout ++ rest := by
  obtain ⟨nValue, m₁, h₁, h⟩ := run_bind_ok h
  obtain ⟨scriptPubKey, m₂, h₂, h⟩ := run_bind_ok h
  obtain ⟨rfl, rfl⟩ := run_pure_ok h
  obtain ⟨hvalue, rfl⟩ := readLE_canonical 8 h₁
  obtain ⟨hscript, rfl⟩ := ReadBytes_canonical h₂
  -- the amount is the `int64_t` of the eight bytes: within its range, and written back as them
  have hge := Int.le_bmod (x := nValue) (m := 2 ^ 64) (by norm_num)
  have hlt := Int.bmod_lt (x := nValue) (m := 2 ^ 64) (by norm_num)
  norm_num at hge hlt
  refine ⟨⟨by norm_num; omega, by norm_num; omega, hscript⟩, ?_⟩
  rw [CTxOut.Serialize, toNat_emod_bmod (by simpa using hvalue), List.append_assoc]

theorem ReadInputs_canonical {bs rest : List UInt8} {vin : List CTxIn}
    (h : (ReadVector CTxIn.Unserialize).run bs = .ok (vin, rest)) :
    vin.length ≤ MAX_SIZE ∧ (∀ txin ∈ vin, CTxIn.Fits txin ∧ txin.scriptWitness = ⟨[]⟩) ∧
      bs = WriteVector CTxIn.Serialize vin ++ rest := by
  obtain ⟨hlen, hbytes⟩ := ReadVector_canonical (fun h => (CTxIn.Unserialize_canonical h).2) h
  exact ⟨hlen, ReadVector_forall (fun h => (CTxIn.Unserialize_canonical h).1) h, hbytes⟩

theorem ReadOutputs_canonical {bs rest : List UInt8} {vout : List CTxOut}
    (h : (ReadVector CTxOut.Unserialize).run bs = .ok (vout, rest)) :
    vout.length ≤ MAX_SIZE ∧ (∀ txout ∈ vout, CTxOut.Fits txout) ∧ bs = WriteVector CTxOut.Serialize vout ++ rest := by
  obtain ⟨hlen, hbytes⟩ := ReadVector_canonical (fun h => (CTxOut.Unserialize_canonical h).2) h
  exact ⟨hlen, ReadVector_forall (fun h => (CTxOut.Unserialize_canonical h).1) h, hbytes⟩

/-- The stacks read onto inputs whose scripts fit: only the witnesses change, each within
the limits, and the bytes consumed are the stacks written one after another. -/
theorem readStacks_canonical : ∀ {vin vin' : List CTxIn} {bs rest : List UInt8},
    (∀ txin ∈ vin, CTxIn.Fits txin) → (readStacks vin).run bs = .ok (vin', rest) →
      vin'.map CTxIn.WithoutWitness = vin.map CTxIn.WithoutWitness ∧ (∀ txin ∈ vin', CTxIn.Fits txin) ∧
        bs = (vin'.flatMap fun txin => WriteVector WriteBytes txin.scriptWitness.stack) ++ rest
  | [], _, _, _, _, h => by
    obtain ⟨rfl, rfl⟩ := run_pure_ok h
    exact ⟨rfl, fun _ h => absurd h List.not_mem_nil, rfl⟩
  | txin :: vin, _, _, _, hfit, h => by
    obtain ⟨stack, m₁, h₁, h⟩ := run_bind_ok h
    obtain ⟨vin', m₂, h₂, h⟩ := run_bind_ok h
    obtain ⟨rfl, rfl⟩ := run_pure_ok h
    have hitems := ReadVector_forall (fun h => (ReadBytes_canonical h).1) h₁
    obtain ⟨hstack, rfl⟩ := ReadVector_canonical (fun h => (ReadBytes_canonical h).2) h₁
    obtain ⟨hmap, hfits, rfl⟩ := readStacks_canonical (fun t ht => hfit t (List.mem_cons_of_mem txin ht)) h₂
    refine ⟨by simp [hmap, CTxIn.WithoutWitness], ?_, by simp⟩
    intro t ht
    rcases List.mem_cons.mp ht with rfl | ht
    · exact ⟨(hfit txin List.mem_cons_self).script, hstack, hitems⟩
    · exact hfits t ht

/-- The flags and the vectors after the first input vector: either that vector was the
inputs, and the outputs follow (or, with no input, the byte read for the flags was the
empty output vector), or it was the dummy, and the flags and both vectors follow. -/
theorem readBody_canonical {fAllowWitness : Bool} {vin₀ vin : List CTxIn} {vout : List CTxOut} {flags : UInt8}
    {bs rest : List UInt8} (h : (readBody fAllowWitness vin₀).run bs = .ok ((flags, vin, vout), rest)) :
    vout.length ≤ MAX_SIZE ∧ (∀ txout ∈ vout, CTxOut.Fits txout) ∧
      ((flags = 0 ∧ vin = vin₀ ∧ (fAllowWitness = true → vin₀ ≠ [] ∨ vout = []) ∧
          bs = WriteVector CTxOut.Serialize vout ++ rest) ∨
        (flags ≠ 0 ∧ vin₀ = [] ∧ fAllowWitness = true ∧ vin.length ≤ MAX_SIZE ∧
          (∀ txin ∈ vin, CTxIn.Fits txin ∧ txin.scriptWitness = ⟨[]⟩) ∧
          bs = flags :: (WriteVector CTxIn.Serialize vin ++ (WriteVector CTxOut.Serialize vout ++ rest)))) := by
  rw [readBody] at h
  split_ifs at h with hc
  · -- a dummy or an empty input vector: the next byte is the flags
    obtain ⟨b, mid, hb, h⟩ := run_bind_ok h
    rw [readByte_ok hb]
    split_ifs at h with hb0
    · obtain ⟨vin', m₁, h₁, h⟩ := run_bind_ok h
      obtain ⟨vout', m₂, h₂, h⟩ := run_bind_ok h
      obtain ⟨heq, rfl⟩ := run_pure_ok h
      cases heq
      obtain ⟨hlin, hfin, rfl⟩ := ReadInputs_canonical h₁
      obtain ⟨hlout, hfout, rfl⟩ := ReadOutputs_canonical h₂
      exact ⟨hlout, hfout, .inr ⟨hb0, List.length_eq_zero_iff.mp hc.1, hc.2, hlin, hfin, rfl⟩⟩
    · obtain ⟨heq, rfl⟩ := run_pure_ok h
      cases heq
      rw [not_not.mp hb0]
      exact ⟨by decide, fun _ h => absurd h List.not_mem_nil, .inl ⟨rfl, rfl, fun _ => .inr rfl, rfl⟩⟩
  · obtain ⟨vout', m₁, h₁, h⟩ := run_bind_ok h
    obtain ⟨heq, rfl⟩ := run_pure_ok h
    cases heq
    obtain ⟨hlout, hfout, rfl⟩ := ReadOutputs_canonical h₁
    refine ⟨hlout, hfout, .inl ⟨rfl, rfl, fun hallow => .inl fun hnil => hc ⟨?_, hallow⟩, rfl⟩⟩
    rw [hnil, List.length_nil]

/-- The witness part either reads nothing, or reads the stacks onto the inputs and clears
the flag; it never returns a transaction whose stacks are all empty. -/
theorem readWitness_canonical {fAllowWitness : Bool} {flags flags' : UInt8} {tx tx' : CMutableTransaction}
    {bs rest : List UInt8} (h : (readWitness fAllowWitness flags tx).run bs = .ok ((flags', tx'), rest)) :
    (flags' = flags ∧ tx' = tx ∧ rest = bs) ∨
      (flags' = flags ^^^ 1 ∧ tx'.HasWitness = true ∧
        ∃ vin, (readStacks tx.vin).run bs = .ok (vin, rest) ∧ tx' = { tx with vin }) := by
  rw [readWitness] at h
  split_ifs at h
  · obtain ⟨vin, mid, hv, h⟩ := run_bind_ok h
    dsimp only at h
    obtain ⟨hw, heq, rfl⟩ := run_check_ok h
    cases heq
    exact .inr ⟨rfl, by simpa using hw, vin, hv, rfl⟩
  · obtain ⟨heq, rfl⟩ := run_pure_ok h
    cases heq
    exact .inl ⟨rfl, rfl, rfl⟩

theorem toNat_toUInt32_toInt32 {v : Nat} (hv : v < 256 ^ 4) : (UInt32.ofNat v).toInt32.toUInt32.toNat = v := by
  rw [UInt32.toUInt32_toInt32, UInt32.toNat_ofNat_of_lt' (by simpa using hv)]

theorem eq_one_of_xor_one_eq_zero {b : UInt8} (h : b ^^^ 1 = 0) : b = 1 := by
  have h' := congrArg (· ^^^ (1 : UInt8)) h
  simpa [UInt8.xor_assoc] using h'

/-- The reader accepts only encodings: a transaction it returns is within the limits of the
format, has a witness only if witnesses are allowed, has an input or no output in the
witness format, and the bytes consumed are those the writer writes for it. -/
theorem UnserializeTransaction_canonical {fAllowWitness : Bool} {bs rest : List UInt8} {tx : CMutableTransaction}
    (h : (UnserializeTransaction fAllowWitness).run bs = .ok (tx, rest)) :
    tx.Fits ∧ (tx.HasWitness = true → fAllowWitness = true) ∧ (fAllowWitness = true → tx.vin ≠ [] ∨ tx.vout = []) ∧
      bs = SerializeTransaction fAllowWitness tx ++ rest := by
  rw [UnserializeTransaction] at h
  obtain ⟨v, m₁, h₁, h⟩ := run_bind_ok h
  obtain ⟨vin₀, m₂, h₂, h⟩ := run_bind_ok h
  obtain ⟨⟨flags, vin, vout⟩, m₃, h₃, h⟩ := run_bind_ok h
  dsimp only at h
  obtain ⟨⟨flags', tx₁⟩, m₄, h₄, h⟩ := run_bind_ok h
  dsimp only at h
  by_cases hf : flags' ≠ 0
  · rw [if_pos hf] at h
    cases h
  rw [if_neg hf] at h
  obtain ⟨lock, m₅, h₅, h⟩ := run_bind_ok h
  obtain ⟨rfl, rfl⟩ := run_pure_ok h
  obtain ⟨hv, rfl⟩ := readLE_canonical 4 h₁
  obtain ⟨hlin, hfin, rfl⟩ := ReadInputs_canonical h₂
  obtain ⟨hlock, rfl⟩ := readLE_canonical 4 h₅
  have hlock' : (UInt32.ofNat lock).toNat = lock := UInt32.toNat_ofNat_of_lt' (by simpa using hlock)
  obtain ⟨hlout, hfout, hbody⟩ := readBody_canonical h₃
  rcases hbody with ⟨rfl, hvin, hcond, rfl⟩ | ⟨hflags, rfl, rfl, hlin', hfin', rfl⟩
  · -- the plain format: no flags, so `readWitness` read nothing
    subst hvin
    obtain ⟨rfl, rfl, rfl⟩ | ⟨rfl, -⟩ := readWitness_canonical h₄
    · have hw : CMutableTransaction.HasWitness
          { vin, vout, nVersion := (UInt32.ofNat v).toInt32, nLockTime := UInt32.ofNat lock } = false :=
        CMutableTransaction.HasWitness_eq_false fun txin hmem => (hfin txin hmem).2
      refine ⟨⟨hlin, hlout, fun txin hmem => (hfin txin hmem).1, hfout⟩, fun h => absurd (hw ▸ h) Bool.false_ne_true,
        hcond, ?_⟩
      simp only [SerializeTransaction, hw, toNat_toUInt32_toInt32 hv]
      simp [hlock']
    · exact absurd (by decide) hf
  · -- the extended format: the flags must be exactly the witness flag
    obtain ⟨rfl, -, -⟩ | ⟨rfl, hwit, vin', hst, rfl⟩ := readWitness_canonical h₄
    · exact absurd (not_not.mp hf) hflags
    have hone : flags = 1 := eq_one_of_xor_one_eq_zero (not_not.mp hf)
    subst hone
    obtain ⟨hmap, hfits, rfl⟩ := readStacks_canonical (fun txin hmem => (hfin' txin hmem).1) hst
    have hlen : vin'.length = vin.length := by
      simpa using congrArg List.length hmap
    refine ⟨⟨hlen ▸ hlin', hlout, hfits, hfout⟩, fun _ => rfl,
      fun _ => .inl (CMutableTransaction.vin_ne_nil_of_HasWitness hwit), ?_⟩
    have hw : CMutableTransaction.HasWitness
        { vin := vin', vout, nVersion := (UInt32.ofNat v).toInt32, nLockTime := UInt32.ofNat lock } = true := hwit
    simp only [SerializeTransaction, hw, toNat_toUInt32_toInt32 hv]
    simp [hlock', WriteVector_inputs_congr hmap]

/-- The bytes of a witness spend, as they come from a peer: the version, the dummy and the
flags, one input, one output, its witness stack and the lock time. -/
theorem UnserializeTransaction_canonical_witness_spend :
    (UnserializeTransaction true).run ([2, 0, 0, 0, 0, 1, 1] ++ List.replicate 36 0 ++
        [0, 255, 255, 255, 255, 1, 5, 0, 0, 0, 0, 0, 0, 0, 1, 0x51, 1, 1, 1, 0, 0, 0, 0]) =
      .ok (⟨[⟨⟨0, 0⟩, [], 0xffffffff, ⟨[[1]]⟩⟩], [⟨5, [0x51]⟩], 2, 0⟩, []) ∧
    CMutableTransaction.Fits ⟨[⟨⟨0, 0⟩, [], 0xffffffff, ⟨[[1]]⟩⟩], [⟨5, [0x51]⟩], 2, 0⟩ ∧
    [2, 0, 0, 0, 0, 1, 1] ++ List.replicate 36 0 ++
        [0, 255, 255, 255, 255, 1, 5, 0, 0, 0, 0, 0, 0, 0, 1, 0x51, 1, 1, 1, 0, 0, 0, 0] =
      SerializeTransaction true ⟨[⟨⟨0, 0⟩, [], 0xffffffff, ⟨[[1]]⟩⟩], [⟨5, [0x51]⟩], 2, 0⟩ ++ [] := by
  have h : (UnserializeTransaction true).run ([2, 0, 0, 0, 0, 1, 1] ++ List.replicate 36 0 ++
      [0, 255, 255, 255, 255, 1, 5, 0, 0, 0, 0, 0, 0, 0, 1, 0x51, 1, 1, 1, 0, 0, 0, 0]) =
        .ok (⟨[⟨⟨0, 0⟩, [], 0xffffffff, ⟨[[1]]⟩⟩], [⟨5, [0x51]⟩], 2, 0⟩, []) := by
    decide +kernel
  exact ⟨h, (UnserializeTransaction_canonical h).1, (UnserializeTransaction_canonical h).2.2.2⟩

/-! ## A transaction without inputs -/

/-- A transaction with no input and some output does not read back in the witness format:
the reader takes the first byte of its output count for the flags of the extended
format, and then either fails or returns a transaction with a witness. -/
theorem SerializeTransaction_no_inputs {tx : CMutableTransaction} (hvin : tx.vin = []) (hvout : tx.vout ≠ [])
    (rest : List UInt8) : (UnserializeTransaction true).run (SerializeTransaction true tx ++ rest) ≠ .ok (tx, rest) := by
  intro h
  have hw : tx.HasWitness = false := CMutableTransaction.HasWitness_eq_false (by simp [hvin])
  obtain ⟨b, W, hcount, hb⟩ := WriteCompactSize_head (List.length_pos_iff.mpr hvout)
  have hbytes : SerializeTransaction true tx ++ rest = writeLE 4 tx.nVersion.toUInt32.toNat ++
      (WriteVector CTxIn.Serialize [] ++
        b :: (W ++ (tx.vout.flatMap CTxOut.Serialize ++ (writeLE 4 tx.nLockTime.toNat ++ rest)))) := by
    simp [SerializeTransaction, hw, hvin, WriteVector, hcount]
  rw [hbytes, UnserializeTransaction] at h
  -- the version, then the empty input vector
  obtain ⟨v, m₁, h₁, h⟩ := run_bind_ok h
  rw [readLE_decodes 4 _ tx.nVersion.toUInt32.toNat_lt] at h₁
  cases h₁
  obtain ⟨vin₀, m₂, h₂, h⟩ := run_bind_ok h
  rw [ReadVector_nil] at h₂
  cases h₂
  obtain ⟨⟨flags, vin₁, vout₁⟩, m₃, h₃, h⟩ := run_bind_ok h
  dsimp only at h
  obtain ⟨⟨flags', tx₁⟩, m₄, h₄, h⟩ := run_bind_ok h
  dsimp only at h
  by_cases hf : flags' ≠ 0
  · rw [if_pos hf] at h
    cases h
  rw [if_neg hf] at h
  obtain ⟨_, _, -, h⟩ := run_bind_ok h
  obtain ⟨heq, -⟩ := run_pure_ok h
  -- the first byte of the output count became the flags
  have hflags : flags = b := by
    obtain ⟨-, -, ⟨-, -, hcond, hbs⟩ | ⟨-, -, -, -, -, hbs⟩⟩ := readBody_canonical h₃
    · -- no outputs read: the byte would have been the zero of an empty vector
      rw [(hcond rfl).resolve_left fun h => h rfl, WriteVector_nil, List.singleton_append] at hbs
      exact absurd (List.cons.inj hbs).1 hb
    · exact (List.cons.inj hbs).1.symm
  rcases readWitness_canonical h₄ with ⟨rfl, -, -⟩ | ⟨-, hwit, -⟩
  · exact hb (hflags ▸ not_not.mp hf)
  · -- a transaction with a witness has an input
    exact CMutableTransaction.vin_ne_nil_of_HasWitness hwit (by rw [← hvin, heq])

theorem SerializeTransaction_no_inputs_one_output :
    (UnserializeTransaction true).run (SerializeTransaction true ⟨[], [⟨5, [0x51]⟩], 2, 0⟩ ++ []) ≠
      .ok (⟨[], [⟨5, [0x51]⟩], 2, 0⟩, []) :=
  SerializeTransaction_no_inputs rfl (List.cons_ne_nil _ _) []

end Palladium.Primitives
