import BitMinti.Computation.Sorting

/-!
# Which inbound peer to evict

The candidates are protected group by group; one that is left is evicted.  `std::sort` is any
sorter.  An assertion that fails, or a count that would go below zero, gives `none`.

SOURCE: src/src/node/eviction.cpp, src/src/node/eviction.h:17-33
-/

set_option autoImplicit false

namespace BitMinti.Model

open Computation.Sorting

inductive Network where
  | NET_UNROUTABLE
  | NET_IPV4
  | NET_IPV6
  | NET_ONION
  | NET_I2P
  | NET_CJDNS
  | NET_INTERNAL
  | NET_MAX
  deriving DecidableEq, Repr

inductive ConnectionType where
  | INBOUND
  | OUTBOUND_FULL_RELAY
  | MANUAL
  | FEELER
  | BLOCK_RELAY
  | ADDR_FETCH
  deriving DecidableEq, Repr

structure NodeEvictionCandidate where
  id : ℤ
  m_connected : ℤ
  m_min_ping_time : ℤ
  m_last_block_time : ℤ
  m_last_tx_time : ℤ
  fRelevantServices : Bool
  m_relay_txs : Bool
  fBloomFilter : Bool
  nKeyedNetGroup : ℕ
  prefer_evict : Bool
  m_is_local : Bool
  m_network : Network
  m_noban : Bool
  m_conn_type : ConnectionType
  deriving DecidableEq, Repr

/-! ## Comparators -/

def reverseCompareNodeMinPingTime (a b : NodeEvictionCandidate) : Bool :=
  decide (b.m_min_ping_time < a.m_min_ping_time)

def reverseCompareNodeTimeConnected (a b : NodeEvictionCandidate) : Bool :=
  decide (b.m_connected < a.m_connected)

def compareNetGroupKeyed (a b : NodeEvictionCandidate) : Bool :=
  decide (a.nKeyedNetGroup < b.nKeyedNetGroup)

def compareNodeBlockTime (a b : NodeEvictionCandidate) : Bool :=
  if a.m_last_block_time ≠ b.m_last_block_time then
    decide (a.m_last_block_time < b.m_last_block_time)
  else if a.fRelevantServices ≠ b.fRelevantServices then b.fRelevantServices
  else reverseCompareNodeTimeConnected a b

def compareNodeTXTime (a b : NodeEvictionCandidate) : Bool :=
  if a.m_last_tx_time ≠ b.m_last_tx_time then decide (a.m_last_tx_time < b.m_last_tx_time)
  else if a.m_relay_txs ≠ b.m_relay_txs then b.m_relay_txs
  else if a.fBloomFilter ≠ b.fBloomFilter then a.fBloomFilter
  else reverseCompareNodeTimeConnected a b

def compareNodeBlockRelayOnlyTime (a b : NodeEvictionCandidate) : Bool :=
  if a.m_relay_txs ≠ b.m_relay_txs then a.m_relay_txs
  else compareNodeBlockTime a b

/-- `CompareNodeNetworkTime`. -/
def compareNodeNetworkTime (is_local : Bool) (network : Network) (a b : NodeEvictionCandidate) :
    Bool :=
  if is_local = true ∧ a.m_is_local ≠ b.m_is_local then b.m_is_local
  else if decide (a.m_network = network) ≠ decide (b.m_network = network) then
    decide (b.m_network = network)
  else reverseCompareNodeTimeConnected a b

/-! ## Erasing the last -/

section Evict

variable (S : Sorter NodeEvictionCandidate)

def eraseLastKElements (elements : List NodeEvictionCandidate)
    (comparator : NodeEvictionCandidate → NodeEvictionCandidate → Bool) (k : ℕ)
    (predicate : NodeEvictionCandidate → Bool) : List NodeEvictionCandidate :=
  let elements := S.sort comparator elements
  let keep := elements.length - min k elements.length
  elements.take keep ++ (elements.drop keep).filter fun n => !predicate n

def protectNoBanConnections (eviction_candidates : List NodeEvictionCandidate) :
    List NodeEvictionCandidate :=
  eviction_candidates.filter fun n => !n.m_noban

def protectOutboundConnections (eviction_candidates : List NodeEvictionCandidate) :
    List NodeEvictionCandidate :=
  eviction_candidates.filter fun n => decide (n.m_conn_type = .INBOUND)

/-! ## The ratio -/

/-- A disadvantaged network, with the number of its candidates. -/
structure Net where
  is_local : Bool
  id : Network
  count : ℕ
  deriving Repr

def Net.has (n : Net) (c : NodeEvictionCandidate) : Bool :=
  if n.is_local then c.m_is_local else decide (c.m_network = n.id)

/-- The networks by ascending count. -/
def disadvantagedNetworks (eviction_candidates : List NodeEvictionCandidate) : List Net :=
  ([(false, .NET_CJDNS), (false, .NET_I2P), (true, .NET_MAX), (false, .NET_ONION)].map
    fun n : Bool × Network =>
      Net.mk n.1 n.2 (eviction_candidates.countP (Net.has ⟨n.1, n.2, 0⟩))).insertionSort
    fun a b => a.count ≤ b.count

structure RatioState where
  eviction_candidates : List NodeEvictionCandidate
  num_protected : ℕ
  protected_at_least_one : Bool

/-- One pass over the networks, with their counts after it. -/
def protectNetworks (max_protect_by_network protect_per_network : ℕ) :
    List Net → RatioState → Option (List Net × RatioState)
  | [], s => some ([], s)
  | n :: networks, s =>
    if n.count = 0 then
      (protectNetworks max_protect_by_network protect_per_network networks s).map
        fun r => (n :: r.1, r.2)
    else
      let after := eraseLastKElements S s.eviction_candidates
        (compareNodeNetworkTime n.is_local n.id) protect_per_network n.has
      let delta := s.eviction_candidates.length - after.length
      if after.length < s.eviction_candidates.length then
        let s := { eviction_candidates := after, num_protected := s.num_protected + delta,
                   protected_at_least_one := true }
        if max_protect_by_network ≤ s.num_protected then some (n :: networks, s)
        else if n.count < delta then none
        else
          (protectNetworks max_protect_by_network protect_per_network networks s).map
            fun r => ({ n with count := n.count - delta } :: r.1, r.2)
      else
        (protectNetworks max_protect_by_network protect_per_network networks
          { s with eviction_candidates := after }).map fun r => (n :: r.1, r.2)

/-- The loop over the passes, with a bound on their number. -/
def protectLoop (max_protect_by_network : ℕ) :
    ℕ → List Net → List NodeEvictionCandidate → ℕ → Option (List NodeEvictionCandidate × ℕ)
  | 0, _, _, _ => none
  | passes + 1, networks, eviction_candidates, num_protected =>
    if num_protected < max_protect_by_network then
      let num_networks := networks.countP fun n => decide (n.count ≠ 0)
      if num_networks = 0 then some (eviction_candidates, num_protected)
      else
        let protect_per_network := max ((max_protect_by_network - num_protected) / num_networks) 1
        match protectNetworks S max_protect_by_network protect_per_network networks
          ⟨eviction_candidates, num_protected, false⟩ with
        | none => none
        | some (networks, s) =>
          if s.protected_at_least_one then
            protectLoop max_protect_by_network passes networks s.eviction_candidates
              s.num_protected
          else some (s.eviction_candidates, s.num_protected)
    else some (eviction_candidates, num_protected)

def protectEvictionCandidatesByRatio (eviction_candidates : List NodeEvictionCandidate) :
    Option (List NodeEvictionCandidate) :=
  let initial_size := eviction_candidates.length
  let total_protect_size := initial_size / 2
  let max_protect_by_network := total_protect_size / 2
  match protectLoop S max_protect_by_network (max_protect_by_network + 1)
    (disadvantagedNetworks eviction_candidates) eviction_candidates 0 with
  | none => none
  | some (eviction_candidates, num_protected) =>
    if num_protected + eviction_candidates.length ≠ initial_size then none
    else if total_protect_size < num_protected then none
    else some (eraseLastKElements S eviction_candidates reverseCompareNodeTimeConnected
      (total_protect_size - num_protected) fun _ => true)

/-! ## `SelectNodeToEvict` -/

/-- The groups so far, and the largest of them with the youngest member. -/
structure GroupState where
  mapNetGroupNodes : ℕ → List NodeEvictionCandidate := fun _ => []
  naMostConnections : ℕ := 0
  nMostConnections : ℕ := 0
  nMostConnectionsTime : ℤ := 0

def GroupState.add (s : GroupState) (node : NodeEvictionCandidate) : GroupState :=
  let group := s.mapNetGroupNodes node.nKeyedNetGroup ++ [node]
  let grouptime := (group.head?.map (·.m_connected)).getD 0
  let s : GroupState := { s with
    mapNetGroupNodes := Function.update s.mapNetGroupNodes node.nKeyedNetGroup group }
  if s.nMostConnections < group.length ∨
      (group.length = s.nMostConnections ∧ s.nMostConnectionsTime < grouptime) then
    { s with
      nMostConnections := group.length
      nMostConnectionsTime := grouptime
      naMostConnections := node.nKeyedNetGroup }
  else s

/-- The candidates that are left after all protections. -/
def unprotected (vEvictionCandidates : List NodeEvictionCandidate) :
    Option (List NodeEvictionCandidate) :=
  let v := protectOutboundConnections (protectNoBanConnections vEvictionCandidates)
  let v := eraseLastKElements S v compareNetGroupKeyed 4 fun _ => true
  let v := eraseLastKElements S v reverseCompareNodeMinPingTime 8 fun _ => true
  let v := eraseLastKElements S v compareNodeTXTime 4 fun _ => true
  let v := eraseLastKElements S v compareNodeBlockRelayOnlyTime 8
    fun n => !n.m_relay_txs && n.fRelevantServices
  let v := eraseLastKElements S v compareNodeBlockTime 4 fun _ => true
  protectEvictionCandidatesByRatio S v

/-- `SelectNodeToEvict`; the outer `none` is a failure. -/
def selectNodeToEvict (vEvictionCandidates : List NodeEvictionCandidate) : Option (Option ℤ) :=
  (unprotected S vEvictionCandidates).map fun v =>
    if v = [] then none
    else
      let v := if v.any (·.prefer_evict) then v.filter (·.prefer_evict) else v
      let s := v.foldl GroupState.add {}
      (s.mapNetGroupNodes s.naMostConnections).head?.map (·.id)

end Evict

end BitMinti.Model
