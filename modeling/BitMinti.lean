import BitMinti.Analysis.BlockAssembler
import BitMinti.Analysis.CheckQueue
import BitMinti.Analysis.Coins
import BitMinti.Analysis.Compressor
import BitMinti.Analysis.ConditionStack
import BitMinti.Analysis.CuckooCache
import BitMinti.Analysis.Eviction
import BitMinti.Analysis.FeeFracArith
import BitMinti.Analysis.HeadersSyncBounds
import BitMinti.Analysis.HeadersSyncPeer
import BitMinti.Analysis.LockTime
import BitMinti.Analysis.Merkle
import BitMinti.Analysis.MerkleBlock
import BitMinti.Analysis.Mining
import BitMinti.Analysis.NetProcessing
import BitMinti.Analysis.PostLinearizeLeaf
import BitMinti.Analysis.Prioritise
import BitMinti.Analysis.Pruning
import BitMinti.Analysis.ReceivedBlocks
import BitMinti.Analysis.RollingBloom
import BitMinti.Analysis.SignatureCommitment
import BitMinti.Analysis.Supply
import BitMinti.Analysis.TrucPolicy
import BitMinti.Analysis.TxGraphDiagrams
