import Palladium.Coins.Compressor

/-!
# Unspent outputs and their storage formats

`Coin` (`coins.h`) is an unspent transaction output with the height and the
coinbase flag of its transaction. The UTXO database stores it as a VARINT of
`height * 2 + coinbase` followed by the compressed output; the undo data
(`TxInUndoFormatter`, `undo.h`) adds a zero byte after the code of a coin
above height 0, left from an older format. The main result is that both
formats read back every coin the node stores.
-/

namespace Palladium.Coins

open ByteStream Palladium.Serialize

set_option autoImplicit false

/-- `CTxOut`: an amount and a locking script. -/
structure CTxOut where
  nValue : Int
  scriptPubKey : List UInt8
  deriving DecidableEq, Repr

/-- `CTxOut::IsNull`: the amount `-1` that `SetNull` leaves. -/
def CTxOut.IsNull (o : CTxOut) : Bool := o.nValue == -1

/-- `Coin`; `nHeight` is a 31-bit field in the source. -/
structure Coin where
  out : CTxOut
  fCoinBase : Bool
  nHeight : Nat
  deriving DecidableEq, Repr

/-- `Coin::IsSpent`. -/
def Coin.IsSpent (c : Coin) : Bool := c.out.IsNull

/-- `AmountCompression::Ser` of a `CAmount`, converted to `uint64_t`. -/
def AmountCompression.Ser (val : Int) : Except String (List UInt8) := do
  let c ← CompressAmount (val % 2 ^ 64).toNat
  pure (WriteVarInt c)

/-- `AmountCompression::Unser` into a `CAmount`, converted from `uint64_t`. -/
def AmountCompression.Unser : Reader Int := do
  let v ← ReadVarInt 64
  let d := DecompressAmount v
  pure (if d < 2 ^ 63 then (d : Int) else (d : Int) - 2 ^ 64)

/-- `TxOutCompression` writing an output. -/
def TxOutCompression.Ser (k : Secp256k1) (out : CTxOut) : Except String (List UInt8) := do
  let a ← AmountCompression.Ser out.nValue
  pure (a ++ ScriptCompression.Ser k out.scriptPubKey)

/-- `TxOutCompression` reading into `out`. -/
def TxOutCompression.Unser (k : Secp256k1) (out : CTxOut) : Reader CTxOut := do
  let nValue ← AmountCompression.Unser
  let scriptPubKey ← ScriptCompression.Unser k out.scriptPubKey
  pure ⟨nValue, scriptPubKey⟩

/-- The code `nHeight * 2 + fCoinBase` both formats start with. -/
def Coin.code (c : Coin) : Nat := c.nHeight * 2 + (if c.fCoinBase then 1 else 0)

/-- `Coin::Serialize`; writing a spent coin is the failed assertion. -/
def Coin.Serialize (k : Secp256k1) (c : Coin) : Except String (List UInt8) := do
  if c.IsSpent then throw "assert(!IsSpent())"
  let out ← TxOutCompression.Ser k c.out
  pure (WriteVarInt c.code ++ out)

/-- `Coin::Unserialize` into `c`. -/
def Coin.Unserialize (k : Secp256k1) (c : Coin) : Reader Coin := do
  let code ← ReadVarInt 32
  let out ← TxOutCompression.Unser k c.out
  pure { out, fCoinBase := code &&& 1 == 1, nHeight := code >>> 1 }

/-- `TxInUndoFormatter::Ser`. -/
def TxInUndoFormatter.Ser (k : Secp256k1) (txout : Coin) : Except String (List UInt8) := do
  let out ← TxOutCompression.Ser k txout.out
  -- the dummy byte keeps the older undo format readable
  pure (WriteVarInt txout.code ++ (if txout.nHeight > 0 then [0] else []) ++ out)

/-- `TxInUndoFormatter::Unser` after the code is read: the dummy version,
then the output. -/
def TxInUndoFormatter.unserCode (k : Secp256k1) (txout : Coin) (nCode : Nat) : Reader Coin := do
  if nCode >>> 1 > 0 then
    let _ ← ReadVarInt 32
  let out ← TxOutCompression.Unser k txout.out
  pure { out, fCoinBase := nCode &&& 1 == 1, nHeight := nCode >>> 1 }

/-- `TxInUndoFormatter::Unser` into `txout`. -/
def TxInUndoFormatter.Unser (k : Secp256k1) (txout : Coin) : Reader Coin := do
  let nCode ← ReadVarInt 32
  TxInUndoFormatter.unserCode k txout nCode

/-! ## Round trips -/

theorem AmountCompression_round_trip {val : Int} (h0 : 0 ≤ val) (hmax : val ≤ MAX_MONEY) :
    ∃ bytes, AmountCompression.Ser val = .ok bytes ∧ Decodes AmountCompression.Unser bytes val := by
  have hval : (val % 2 ^ 64).toNat = val.toNat := by
    rw [Int.emod_eq_of_lt h0 (by simp [MAX_MONEY, COIN] at hmax; omega)]
  obtain ⟨c, hc, hlt, hdec⟩ := DecompressAmount_CompressAmount (n := val.toNat) (by omega)
  refine ⟨WriteVarInt c, by rw [AmountCompression.Ser, hval, hc]; rfl, ?_⟩
  -- the decompressed amount is below `2^63`, so it converts back to itself
  have hint : (if DecompressAmount c < 2 ^ 63 then (DecompressAmount c : Int)
      else (DecompressAmount c : Int) - 2 ^ 64) = val := by
    simp [MAX_MONEY, COIN] at hmax
    rw [if_pos (by omega), hdec]
    omega
  exact ((ReadVarInt_WriteVarInt (by decide) hlt).bind_pure
    (fun v => if DecompressAmount v < 2 ^ 63 then (DecompressAmount v : Int)
      else (DecompressAmount v : Int) - 2 ^ 64)).of_eq hint

theorem TxOutCompression_round_trip {k : Secp256k1} (hk : k.DecompressRestores) (init : CTxOut)
    {out : CTxOut} (h0 : 0 ≤ out.nValue) (hmax : out.nValue ≤ MAX_MONEY)
    (hsize : out.scriptPubKey.length ≤ MAX_SCRIPT_SIZE) :
    ∃ bytes, TxOutCompression.Ser k out = .ok bytes ∧ Decodes (TxOutCompression.Unser k init) bytes out := by
  obtain ⟨a, ha, hdec⟩ := AmountCompression_round_trip h0 hmax
  refine ⟨a ++ ScriptCompression.Ser k out.scriptPubKey, by rw [TxOutCompression.Ser, ha]; rfl, ?_⟩
  have hscript := (ScriptCompression_round_trip hk init.scriptPubKey hsize).bind_pure
    (fun s => (⟨out.nValue, s⟩ : CTxOut))
  exact hdec.bind hscript

/-- The code reads back the height and the flag of a coin below height `2^31`. -/
theorem Coin.code_spec (c : Coin) (hh : c.nHeight < 2 ^ 31) :
    c.code < 2 ^ 32 ∧ c.code >>> 1 = c.nHeight ∧ (c.code &&& 1 == 1) = c.fCoinBase := by
  unfold Coin.code
  refine ⟨by split <;> omega, ?_, ?_⟩
  · rw [Nat.shiftRight_eq_div_pow]
    split <;> omega
  · rw [Nat.and_one_is_mod]
    cases c.fCoinBase <;> simp

/-- Both storage formats of a coin, the UTXO database's and the undo data's,
read back its height, coinbase flag, amount and script, consuming exactly
the bytes written, for every coin below height `2^31` with an amount in
`[0, MAX_MONEY]` and a script of at most `MAX_SCRIPT_SIZE` bytes, given that
libsecp256k1 restores fully valid uncompressed keys. -/
theorem Coin_round_trip {k : Secp256k1} (hk : k.DecompressRestores) (init c : Coin)
    (hh : c.nHeight < 2 ^ 31) (h0 : 0 ≤ c.out.nValue) (hmax : c.out.nValue ≤ MAX_MONEY)
    (hsize : c.out.scriptPubKey.length ≤ MAX_SCRIPT_SIZE) :
    (∃ bytes, Coin.Serialize k c = .ok bytes ∧ Decodes (Coin.Unserialize k init) bytes c) ∧
    ∃ bytes, TxInUndoFormatter.Ser k c = .ok bytes ∧ Decodes (TxInUndoFormatter.Unser k init) bytes c := by
  obtain ⟨o, ho, hdec⟩ := TxOutCompression_round_trip hk init.out h0 hmax hsize
  obtain ⟨hlt, hheight, hflag⟩ := Coin.code_spec c hh
  have hcode := ReadVarInt_WriteVarInt (by decide) hlt
  -- reading the output back and rebuilding the coin from the code
  have hrest := hdec.bind_pure (fun out => ({ out, fCoinBase := c.code &&& 1 == 1, nHeight := c.code >>> 1 } : Coin))
  have hc : ({ out := c.out, fCoinBase := c.code &&& 1 == 1, nHeight := c.code >>> 1 } : Coin) = c := by
    rw [hheight, hflag]
  have hspent : c.IsSpent = false := by
    simp only [Coin.IsSpent, CTxOut.IsNull, beq_eq_false_iff_ne]
    omega
  refine ⟨⟨WriteVarInt c.code ++ o, by simp [Coin.Serialize, hspent, ho, bind, Except.bind, pure, Except.pure], ?_⟩,
    ⟨WriteVarInt c.code ++ ((if c.nHeight > 0 then [0] else []) ++ o), by
      simp [TxInUndoFormatter.Ser, ho, bind, Except.bind, pure, Except.pure], ?_⟩⟩
  · exact (hcode.bind hrest).of_eq hc
  · -- the dummy version is a one-byte VARINT, present above height 0
    have hbody : Decodes (TxInUndoFormatter.unserCode k init c.code)
        ((if c.nHeight > 0 then [0] else []) ++ o) c := by
      unfold TxInUndoFormatter.unserCode
      by_cases hpos : c.code >>> 1 > 0
      · rw [if_pos hpos, if_pos (by omega)]
        have hdummy : Decodes (ReadVarInt 32) [0] 0 := by
          simpa [WriteVarInt_small] using ReadVarInt_WriteVarInt (w := 32) (n := 0) (by decide) (by decide)
        have hpre : Decodes (ReadVarInt 32 >>= fun _ => (pure PUnit.unit : Reader PUnit)) [0] PUnit.unit :=
          (hdummy.bind (Decodes.pure PUnit.unit)).congr (List.append_nil _)
        exact hpre.seq (hrest.of_eq hc)
      · rw [if_neg hpos, if_neg (by omega)]
        exact ((Decodes.pure PUnit.unit).seq (hrest.of_eq hc)).congr (List.nil_append o)
    exact hcode.bind hbody

/-- A libsecp256k1 stand-in that accepts no uncompressed key, so that every
uncompressed pay-to-public-key script takes the raw path. -/
def rejectingSecp256k1 : Secp256k1 := ⟨fun _ => false, fun _ => none⟩

theorem rejectingSecp256k1_restores : rejectingSecp256k1.DecompressRestores := by
  intro pubkey _ _ hvalid
  cases hvalid

theorem Coin_round_trip_p2pkh :
    rejectingSecp256k1.DecompressRestores ∧
    (⟨⟨50 * COIN, [OP_DUP, OP_HASH160, 20] ++ List.replicate 20 7 ++ [OP_EQUALVERIFY, OP_CHECKSIG]⟩,
        true, 7⟩ : Coin).nHeight < 2 ^ 31 ∧
    0 ≤ (50 * COIN) ∧ 50 * COIN ≤ MAX_MONEY ∧
    ([OP_DUP, OP_HASH160, 20] ++ List.replicate 20 7 ++ [OP_EQUALVERIFY, OP_CHECKSIG]).length ≤ MAX_SCRIPT_SIZE ∧
    ((∃ bytes, Coin.Serialize rejectingSecp256k1
        ⟨⟨50 * COIN, [OP_DUP, OP_HASH160, 20] ++ List.replicate 20 7 ++ [OP_EQUALVERIFY, OP_CHECKSIG]⟩, true, 7⟩ =
          .ok bytes ∧
        Decodes (Coin.Unserialize rejectingSecp256k1 ⟨⟨-1, []⟩, false, 0⟩) bytes
          ⟨⟨50 * COIN, [OP_DUP, OP_HASH160, 20] ++ List.replicate 20 7 ++ [OP_EQUALVERIFY, OP_CHECKSIG]⟩, true, 7⟩) ∧
      ∃ bytes, TxInUndoFormatter.Ser rejectingSecp256k1
        ⟨⟨50 * COIN, [OP_DUP, OP_HASH160, 20] ++ List.replicate 20 7 ++ [OP_EQUALVERIFY, OP_CHECKSIG]⟩, true, 7⟩ =
          .ok bytes ∧
        Decodes (TxInUndoFormatter.Unser rejectingSecp256k1 ⟨⟨-1, []⟩, false, 0⟩) bytes
          ⟨⟨50 * COIN, [OP_DUP, OP_HASH160, 20] ++ List.replicate 20 7 ++ [OP_EQUALVERIFY, OP_CHECKSIG]⟩, true, 7⟩) :=
  ⟨rejectingSecp256k1_restores, by decide, by decide, by decide, by decide,
    Coin_round_trip rejectingSecp256k1_restores ⟨⟨-1, []⟩, false, 0⟩
      ⟨⟨50 * COIN, [OP_DUP, OP_HASH160, 20] ++ List.replicate 20 7 ++ [OP_EQUALVERIFY, OP_CHECKSIG]⟩, true, 7⟩
      (by decide) (by decide) (by decide) (by decide)⟩

end Palladium.Coins
