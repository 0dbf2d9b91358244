import BitMinti.Model.ActivateBestChain
import BitMinti.Computation.LinkUp

/-!
# Runs of a chainstate

The operations of a node on its chainstate, the runs they make up, and what `CheckBlockIndex`
expects of the states such a run goes through: no block is missing from
`setBlockIndexCandidates`, and no block is marked failed without a reason.

SOURCE: src/src/validation.cpp:6299-6393
-/

set_option autoImplicit false

namespace BitMinti.Interface

open Model
open Computation.Ancestry (AncestorOf)

/-- A node: what stays fixed while it runs.  Two entries of the index are never at one address;
`ConnectBlock` connects the genesis block without looking at it; and no header contains the
hash of the genesis block and hashes to it. -/
structure Node (σ : Type) extends ChainContext σ where
  addr : Uint256 → ℕ
  addr_injective : Function.Injective addr
  connectBlock : Uint256 → ConnectOutcome
  genesis_connects : connectBlock params.hashGenesisBlock ≠ .invalid
  genesis_root : ∀ block, getHash block = params.hashGenesisBlock →
    block.hashPrevBlock ≠ params.hashGenesisBlock

/-- The operations on a chainstate.  The last three are given the hash of a block. -/
inductive ChainOp (σ : Type) where
  | acceptBlockHeader (call : HeaderCall σ)
  | acceptBlock (call : BlockCall σ)
  | activateBestChain
  | invalidateBlock (hash : Uint256)
  | reconsiderBlock (hash : Uint256)
  | preciousBlock (hash : Uint256)

/-- What is done with a block that is looked up: a hash that is not in the index is refused. -/
def onBlock (hash : Uint256) (x : ChainM Unit) : ChainM Unit := do
  let s ← get
  if (s.lookupBlockIndex hash).isSome then x

section Runs

variable {σ : Type} (n : Node σ)

/-- Performing an operation; `fuel` bounds the rounds of `ActivateBestChain`. -/
def Node.perform (fuel : ℕ) : ChainOp σ → ChainM Unit
  | .acceptBlockHeader call => discard (acceptHeader n.toChainContext call)
  | .acceptBlock call => discard (acceptBlock n.addr n.toChainContext call)
  | .activateBestChain => activateBestChain n.addr n.connectBlock fuel
  | .invalidateBlock hash => onBlock hash (discard (invalidateBlock n.addr hash))
  | .reconsiderBlock hash => onBlock hash (reconsiderBlock n.addr n.connectBlock fuel hash)
  | .preciousBlock hash => onBlock hash (preciousBlock n.addr n.connectBlock fuel hash)

/-- The states a node gets to from an empty index by operations that meet a condition. -/
inductive Reaches (Meets : Chainstate → ChainOp σ → Prop) : Chainstate → Prop
  | start : Reaches Meets .empty
  | step {s s' : Chainstate} {op : ChainOp σ} {fuel : ℕ} (hs : Reaches Meets s)
      (hop : Meets s op) (hrun : n.perform fuel op s = .ok ((), s')) : Reaches Meets s'

/-! ## What is expected of the states -/

/-- The block and all its ancestors connect. -/
def ChainConnects (s : Chainstate) (h : Uint256) : Prop :=
  ∀ a, AncestorOf s.pprev a h → n.connectBlock a ≠ .invalid

/-- Neither the block nor one of its ancestors is marked failed. -/
def Unflagged (s : Chainstate) (h : Uint256) : Prop :=
  ∀ a, AncestorOf s.pprev a h → s.failed a = false

/-- The block and all its ancestors have data. -/
def ChainHasData (s : Chainstate) (h : Uint256) : Prop :=
  (s.m_block_index h).isSome ∧ ∀ a, AncestorOf s.pprev a h → (s.nStatus a).haveData = true

/-- The tip and every block that may be chosen over it are candidates. -/
def CandidatesComplete (s : Chainstate) : Prop :=
  ∀ tip, s.m_tip = some tip →
    tip ∈ s.setBlockIndexCandidates ∧
      ∀ h, Unflagged s h → s.m_chain_tx_count h ≠ 0 → workComparator n.addr s h tip = false →
        h ∈ s.setBlockIndexCandidates

end Runs

/-- Every block marked failed is invalid or has an invalid ancestor. -/
def FlagsJustified (s : Chainstate) : Prop :=
  ∀ h, s.failed h = true → ∃ a, AncestorOf s.pprev a h ∧ (s.nStatus a).failedValid = true

/-- `PreciousBlock` of the tip gives it no higher sequence id than it has. -/
def PreciousKeepsTip {σ : Type} (s : Chainstate) : ChainOp σ → Prop
  | .preciousBlock hash => s.m_tip = some hash → preciousId s hash ≤ s.nSequenceId hash
  | _ => True

/-- `ReconsiderBlock` is asked for a block off which no branch hangs that is marked failed only
because of a common ancestor.  `PreciousBlock` is not used. -/
def ReconsidersWhole {σ : Type} (s : Chainstate) : ChainOp σ → Prop
  | .reconsiderBlock hash => ∀ h, s.failed h = true → ¬ AncestorOf s.pprev h hash →
      ¬ AncestorOf s.pprev hash h →
      ∃ a, AncestorOf s.pprev a h ∧ ¬ AncestorOf s.pprev a hash ∧ (s.nStatus a).failedValid = true
  | .preciousBlock _ => False
  | _ => True

/-! ## Data that arrives -/

/-- The data of a block that arrives.  `CheckBlock` refuses a block without transactions. -/
structure Arrival where
  hash : Uint256
  size : ℕ
  pos : FlatFilePos
  nonempty : 0 < size

/-- The data of blocks arriving one after the other. -/
def receiveAll (addr : Uint256 → ℕ) (params : ConsensusParams) (arrivals : List Arrival) :
    ChainM Unit :=
  arrivals.forM fun a => receivedBlockTransactions addr params a.size a.hash a.pos

/-- The blocks that have data are those of a list, exactly those count their transactions that have
no ancestor without data, and exactly the others wait for their parent.
SOURCE: src/src/validation.cpp:6394-6442 -/
structure LinkedAsArrived (arrivals : List Arrival) (s : Chainstate) : Prop where
  haveData : ∀ h, (s.nStatus h).haveData = true ↔ h ∈ arrivals.map (·.hash)
  nTx : ∀ a ∈ arrivals, s.nTx a.hash = a.size
  counted : ∀ h, s.m_chain_tx_count h ≠ 0 ↔ ChainHasData s h
  sum : ∀ h, ChainHasData s h →
    s.m_chain_tx_count h = Computation.chainSum s.pprev s.nTx (s.nHeight h) h
  unlinked : ∀ p h, (p, h) ∈ s.m_blocks_unlinked ↔
    s.pprev h = some p ∧ (s.nStatus h).haveData = true ∧
      ∃ a, AncestorOf s.pprev a h ∧ (s.nStatus a).haveData = false
  nodup : s.m_blocks_unlinked.Nodup

end BitMinti.Interface
