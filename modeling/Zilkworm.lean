import Zilkworm.Guest.DataByteCount
import Zilkworm.Guest.MemCompare
import Zilkworm.Ssz.TreeRoots
import Zilkworm.Types.TransactionReuse
import Zilkworm.Types.BlockRoundTrip
import Zilkworm.Trie.CopyPatch
import Zilkworm.Trie.UpdateSort
import Zilkworm.State.HashIndex
import Zilkworm.State.SlotSearch
import Zilkworm.State.StateRoot
import Zilkworm.Trie.Grammar
import Zilkworm.State.BlockHash
import Zilkworm.Protocol.BlobGasPrice
import Zilkworm.Execution.ReceiptEncoding
import Zilkworm.Run.BlockContext
import Zilkworm.Run.AbsentReads
import Zilkworm.Run.BundleRoundTrip
import Zilkworm.Run.LoadBounds
import Zilkworm.Run.BlobReads
import Zilkworm.Run.LeafCache
import Zilkworm.Run.Heights
import Zilkworm.Prover.Mfbd
