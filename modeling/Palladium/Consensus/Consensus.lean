/-!
# Consensus limits

The constants of `consensus/consensus.h` that the modelled functions read.
-/

namespace Palladium.Consensus

/-- The maximum allowed weight for a block (BIP 141). -/
def MAX_BLOCK_WEIGHT : Nat := 4000000

def WITNESS_SCALE_FACTOR : Nat := 4

/-- 60 bytes bound the size of a valid serialized `CTransaction` from below. -/
def MIN_TRANSACTION_WEIGHT : Nat := WITNESS_SCALE_FACTOR * 60

/-- Coinbase transaction outputs can only be spent after this number of new blocks. -/
def COINBASE_MATURITY : Nat := 120

end Palladium.Consensus
