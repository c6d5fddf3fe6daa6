import Palladium.Coins.CoinsView
import Palladium.Serialize.CompactSize

/-!
# Undo records

`CTxUndo` holds the coins a transaction's inputs spent and `CBlockUndo` one
`CTxUndo` for each transaction of a block after the coinbase (`undo.h`).
Both are vectors: a CompactSize length, then the elements, a coin in the
`TxInUndoFormatter` format. A record of coins the node can store, with at
most `MAX_SIZE` elements in each vector, reads back as written.
-/

namespace Palladium.Coins

open ByteStream Palladium.Serialize

set_option autoImplicit false

/-- `CTxUndo`. -/
structure CTxUndo where
  vprevout : List Coin
  deriving DecidableEq, Repr

/-- `CBlockUndo`. -/
structure CBlockUndo where
  vtxundo : List CTxUndo
  deriving DecidableEq, Repr

/-- `VectorFormatter<TxInUndoFormatter>` writing `vprevout`. -/
def CTxUndo.Serialize (k : Secp256k1) (txundo : CTxUndo) : Except String (List UInt8) := do
  let body ← writeAll (TxInUndoFormatter.Ser k) txundo.vprevout
  pure (WriteCompactSize txundo.vprevout.length ++ body)

/-- `VectorFormatter<TxInUndoFormatter>` reading `vprevout`, each coin into
a default `Coin()`. -/
def CTxUndo.Unserialize (k : Secp256k1) : Reader CTxUndo := do
  let size ← ReadCompactSize
  let vprevout ← readN (TxInUndoFormatter.Unser k coinEmpty) size
  pure ⟨vprevout⟩

def CBlockUndo.Serialize (k : Secp256k1) (blockundo : CBlockUndo) : Except String (List UInt8) := do
  let body ← writeAll (CTxUndo.Serialize k) blockundo.vtxundo
  pure (WriteCompactSize blockundo.vtxundo.length ++ body)

def CBlockUndo.Unserialize (k : Secp256k1) : Reader CBlockUndo := do
  let size ← ReadCompactSize
  let vtxundo ← readN (CTxUndo.Unserialize k) size
  pure ⟨vtxundo⟩

/-- The conditions under which `Coin_round_trip` reads a coin back: what the
node stores, a 31-bit height, an amount in the money range and a script of
at most `MAX_SCRIPT_SIZE` bytes. -/
structure Coin.Storable (c : Coin) : Prop where
  height : c.nHeight < 2 ^ 31
  nonneg : 0 ≤ c.out.nValue
  le_max : c.out.nValue ≤ MAX_MONEY
  script : c.out.scriptPubKey.length ≤ MAX_SCRIPT_SIZE

/-- A vector: its length, then its elements, read into `f` of them. -/
theorem vector_decodes {α β : Type} {d : Reader α} {enc : α → Except String (List UInt8)} {xs : List α}
    (f : List α → β) (hlen : xs.length ≤ MAX_SIZE) (h : ∀ x ∈ xs, ∃ b, enc x = .ok b ∧ Decodes d b x) :
    ∃ bytes, (do let body ← writeAll enc xs; pure (WriteCompactSize xs.length ++ body) : Except String _) =
        .ok bytes ∧
      Decodes (do let size ← ReadCompactSize; let ys ← readN d size; pure (f ys)) bytes (f xs) := by
  obtain ⟨body, hbody, hdec⟩ := writeAll_decodes xs h
  refine ⟨WriteCompactSize xs.length ++ body, by rw [hbody]; rfl, ?_⟩
  refine (ReadCompactSize_WriteCompactSize hlen).bind ?_
  exact hdec.bind_pure f

variable {k : Secp256k1}

theorem CTxUndo_round_trip (hk : k.DecompressRestores) {txundo : CTxUndo}
    (hlen : txundo.vprevout.length ≤ MAX_SIZE) (hcoins : ∀ c ∈ txundo.vprevout, c.Storable) :
    ∃ bytes, txundo.Serialize k = .ok bytes ∧ Decodes (CTxUndo.Unserialize k) bytes txundo := by
  have helem : ∀ c ∈ txundo.vprevout, ∃ b, TxInUndoFormatter.Ser k c = .ok b ∧
      Decodes (TxInUndoFormatter.Unser k coinEmpty) b c := fun c hc =>
    have hs := hcoins c hc
    (Coin_round_trip hk coinEmpty c hs.height hs.nonneg hs.le_max hs.script).2
  exact vector_decodes CTxUndo.mk hlen helem

/-- The undo data of a block reads back as written, for records of storable
coins with at most `MAX_SIZE` entries in each vector, given that
libsecp256k1 restores fully valid uncompressed keys. -/
theorem CBlockUndo_round_trip (hk : k.DecompressRestores) {blockundo : CBlockUndo}
    (hlen : blockundo.vtxundo.length ≤ MAX_SIZE) (hlens : ∀ u ∈ blockundo.vtxundo, u.vprevout.length ≤ MAX_SIZE)
    (hcoins : ∀ u ∈ blockundo.vtxundo, ∀ c ∈ u.vprevout, c.Storable) :
    ∃ bytes, blockundo.Serialize k = .ok bytes ∧ Decodes (CBlockUndo.Unserialize k) bytes blockundo := by
  exact vector_decodes CBlockUndo.mk hlen fun u hu => CTxUndo_round_trip hk (hlens u hu) (hcoins u hu)

end Palladium.Coins
