import Palladium.Coins.CoinsView
import Palladium.Serialize.CompactSize

/-!
# Transactions

`CTxIn` and `CMutableTransaction` (`primitives/transaction.h`) with every
field the node serializes: an input's outpoint, `scriptSig`, `nSequence`
and witness stack, and a transaction's version, inputs, outputs and lock
time. `CTransaction` has the same fields and caches its two hashes, which
nothing here reads.
-/

namespace Palladium.Primitives

open Palladium.Coins

set_option autoImplicit false

/-- `SERIALIZE_TRANSACTION_NO_WITNESS`. -/
def SERIALIZE_TRANSACTION_NO_WITNESS : Nat := 0x40000000

/-- `CScriptWitness`: the data elements pushed, not a script pushing them. -/
structure CScriptWitness where
  stack : List (List UInt8)
  deriving DecidableEq, Repr

def CScriptWitness.IsNull (w : CScriptWitness) : Bool := w.stack.isEmpty

/-- `CTxIn`. -/
structure CTxIn where
  prevout : COutPoint
  scriptSig : List UInt8
  nSequence : UInt32
  scriptWitness : CScriptWitness
  deriving DecidableEq, Repr

namespace CTxIn

def SEQUENCE_FINAL : UInt32 := 0xffffffff

/-- With this bit set `nSequence` is not a relative lock-time. -/
def SEQUENCE_LOCKTIME_DISABLE_FLAG : UInt32 := (1 : UInt32) <<< 31

/-- With this bit set a relative lock-time counts units of 512 seconds. -/
def SEQUENCE_LOCKTIME_TYPE_FLAG : UInt32 := (1 : UInt32) <<< 22

def SEQUENCE_LOCKTIME_MASK : UInt32 := 0x0000ffff

def SEQUENCE_LOCKTIME_GRANULARITY : UInt32 := 9

end CTxIn

/-- `CMutableTransaction`. -/
structure CMutableTransaction where
  vin : List CTxIn
  vout : List CTxOut
  nVersion : Int32
  nLockTime : UInt32
  deriving DecidableEq, Repr

/-- `HasWitness`: some input has a witness stack. -/
def CMutableTransaction.HasWitness (tx : CMutableTransaction) : Bool :=
  tx.vin.any fun txin => !txin.scriptWitness.IsNull

end Palladium.Primitives
