import Palladium.Lib.OrderStat
import Palladium.Lib.ByteStream
import Palladium.Lib.MapLoop
import Palladium.Serialize.VarInt
import Palladium.Arith.Uint256
import Palladium.Arith.Compact
import Palladium.Chain.BlockIndex
import Palladium.Chain.Chain
import Palladium.Chain.MedianTime
import Palladium.Pow.Lwma
import Palladium.Consensus.Merkle
import Palladium.Coins.Compressor
import Palladium.Coins.Coin
import Palladium.Coins.CoinsView
import Palladium.Coins.CacheView
import Palladium.Coins.CacheStack
import Palladium.Serialize.CompactSize
import Palladium.Coins.Undo
import Palladium.Lib.Updates
import Palladium.Validation.Connect
import Palladium.Validation.Disconnect
import Palladium.Consensus.Consensus
import Palladium.Consensus.MerkleBlock
import Palladium.Lib.ExceptSpec
import Palladium.Validation.TxCheck
import Palladium.Validation.ConnectBlock
import Palladium.Chain.VersionBits
import Palladium.Lib.Bits
import Palladium.Serialize.BitStream
import Palladium.BlockFilter.GCSFilter
import Palladium.Util.Strencodings
import Palladium.Address.Base58
import Palladium.Chain.Work
import Palladium.Chain.Fork
import Palladium.Chain.Locator
import Palladium.Bloom.RollingBloom
import Palladium.Script.ConditionStack
import Palladium.Script.ScriptNum
import Palladium.Script.Script
import Palladium.Script.Interpreter
import Palladium.Primitives.Transaction
import Palladium.Consensus.TxVerify
import Palladium.Lib.BinaryField
import Palladium.Util.Bech32
import Palladium.Serialize.BlockEncodings
import Palladium.Util.Asmap
import Palladium.Util.Bip32
import Palladium.Util.BaseEncoding
import Palladium.Util.Moneystr
import Palladium.Util.FixedPoint
import Palladium.Lib.Limbs
import Palladium.Arith.BaseUint
import Palladium.Script.Standard
import Palladium.Util.TimeData
import Palladium.Bloom.BloomFilter
import Palladium.Bloom.FilteredBlock
import Palladium.Net.BloomMessages
import Palladium.Primitives.TxSerialize
