import BitMinti.Model.HeaderValidation

/-!
# `GetPoWHash` and the RandomX context

The globals and thread-locals of `GetPoWHash`, the sections of the function as functions
on them, and two ways to put the sections together: `getPoWHash`, one call from start to
end, and `RxStep`, any number of threads whose sections interleave.

The RandomX library is not part of the sources.  What the code uses of it is a parameter:
the function `rx` from a seed and a header to a hash, and the outcomes of
`randomx_create_vm`, which may return null.  A cache or dataset pointer is the object it
points to, with the seed it was initialised with; the object is alive while the globals
point to it.  An allocation that fails is dereferenced at once by the source, which ends
the process, so only allocations that succeed are modelled.  The version counter is a
natural number: it would take `2 ^ 64` cache builds to wrap the 64-bit counter.

SOURCE: src/src/primitives/block.cpp:27-117
-/

set_option autoImplicit false

namespace BitMinti.Model

/-! ## The context -/

/-- A `randomx_cache`: which allocation it is and the seed it was initialised with. -/
structure RandomXCache where
  id : ℕ
  seed : Uint256
  deriving DecidableEq, Repr

/-- A `randomx_dataset`, initialised from a cache. -/
structure RandomXDataset where
  id : ℕ
  seed : Uint256
  deriving DecidableEq, Repr

/-- A `randomx_vm`: the cache and, in full-memory mode, the dataset it was created with. -/
structure RandomXVm where
  cache : RandomXCache
  dataset : Option RandomXDataset
  deriving DecidableEq, Repr

/-- The seed a VM computes hashes under. -/
def RandomXVm.seed (vm : RandomXVm) : Uint256 := (vm.dataset.map (·.seed)).getD vm.cache.seed

/-- The globals. -/
structure RxGlobal where
  rx_cache : Option RandomXCache := none
  rx_dataset : Option RandomXDataset := none
  rx_current_seed : Uint256 := 0#256
  rx_cache_version : ℕ := 0
  deriving DecidableEq, Repr

/-- The thread-locals. -/
structure RxThread where
  rx_vm : Option RandomXVm := none
  rx_vm_seed : Uint256 := 0#256
  rx_vm_cache_version : ℕ := 0
  deriving DecidableEq, Repr

/-- What the shared section copies out. -/
structure RxSnapshot where
  cache : Option RandomXCache
  dataset : Option RandomXDataset
  version : ℕ
  deriving DecidableEq, Repr

/-! ## The sections of `GetPoWHash` -/

/-- The test of the fast path and of the VM update: the thread has no VM, or one for another
seed or another cache version. -/
def needsVm (t : RxThread) (seed : Uint256) (version : ℕ) : Bool :=
  t.rx_vm.isNone || t.rx_vm_seed != seed || t.rx_vm_cache_version != version

/-- Whether the exclusive section replaces the cache. -/
def replacesCache (g : RxGlobal) (seed : Uint256) : Bool :=
  g.rx_cache.isNone || seed != g.rx_current_seed

/-- The exclusive section.  `miningfastmode` is the option `-miningfastmode`. -/
def updateCache (miningfastmode : Bool) (seed : Uint256) (g : RxGlobal) : RxGlobal :=
  if replacesCache g seed then
    let version := g.rx_cache_version + 1
    { rx_cache := some ⟨version, seed⟩
      rx_dataset := if miningfastmode then some ⟨version, seed⟩ else none
      rx_current_seed := seed
      rx_cache_version := version }
  else g

/-- The shared section. -/
def takeSnapshot (g : RxGlobal) : RxSnapshot := ⟨g.rx_cache, g.rx_dataset, g.rx_cache_version⟩

/-- The VM update; `created` says whether `randomx_create_vm` returned a VM. -/
def rebuildVm (seed : Uint256) (snap : RxSnapshot) (created : Bool) (t : RxThread) : RxThread :=
  if needsVm t seed snap.version then
    match snap.cache with
    | some cache =>
      { rx_vm := if created then some ⟨cache, snap.dataset⟩ else none
        rx_vm_seed := seed
        rx_vm_cache_version := snap.version }
    -- without a cache the destroyed VM's pointer is left as it is
    | none => t
  else t

/-- The hash section: `randomx_calculate_hash`, or the null hash without a VM. -/
def vmHash (rx : Uint256 → CBlockHeader → Uint256) (t : RxThread) (block : CBlockHeader) : Uint256 :=
  match t.rx_vm with
  | some vm => rx vm.seed block
  | none => 0#256

/-! ## One call -/

/-- What a thread that runs alone sees: the globals, its thread-locals, and how often
`randomx_create_vm` has been called. -/
structure RxState where
  global : RxGlobal := {}
  thread : RxThread := {}
  created : ℕ := 0
  deriving DecidableEq, Repr

section Call

variable (rx : Uint256 → CBlockHeader → Uint256) (createVm : ℕ → Bool) (miningfastmode : Bool)

/-- The slow path of `GetPoWHash`. -/
def ensureVm (seed : Uint256) (s : RxState) : RxState :=
  if needsVm s.thread seed s.global.rx_cache_version then
    let global := updateCache miningfastmode seed s.global
    let snap := takeSnapshot global
    { global := global
      thread := rebuildVm seed snap (createVm s.created) s.thread
      created := if needsVm s.thread seed snap.version then s.created + 1 else s.created }
  else s

/-- `GetPoWHash`, with `createVm n` the outcome of the `n`-th call of `randomx_create_vm`. -/
def getPoWHash : PoWHash RxState := fun block seed s =>
  let s := ensureVm createVm miningfastmode seed s
  (vmHash rx s.thread block, s)

/-- What happens to a thread's view between two of its calls: calls of its own, and calls
that other threads make from start to end. -/
inductive RxMove (s : RxState) : RxState → Prop
  | own (seed : Uint256) : RxMove s (ensureVm createVm miningfastmode seed s)
  | other (seed : Uint256) :
      RxMove s { s with global := updateCache miningfastmode seed s.global }

/-- The states a thread can find itself in. -/
def RxReachable (s : RxState) : Prop :=
  Relation.ReflTransGen (RxMove createVm miningfastmode) {} s

end Call

/-! ## Any number of threads -/

/-- Where a thread stands in `GetPoWHash`. -/
inductive RxPc where
  | idle
  | check (block : CBlockHeader) (seed : Uint256)
  | update (block : CBlockHeader) (seed : Uint256)
  | snapshot (block : CBlockHeader) (seed : Uint256)
  | build (block : CBlockHeader) (seed : Uint256) (snap : RxSnapshot)
  | hash (block : CBlockHeader) (seed : Uint256)

/-- A finished call: the header and the seed it was made with, and what it returned. -/
structure RxReturn where
  block : CBlockHeader
  seed : Uint256
  hash : Uint256
  deriving DecidableEq, Repr

/-- The threads of the node and what they share. -/
structure RxSystem (ι : Type) where
  global : RxGlobal := {}
  thread : ι → RxThread := fun _ => {}
  pc : ι → RxPc := fun _ => .idle
  returned : List RxReturn := []

/-- The atomic steps of a thread. -/
inductive RxAction where
  | call (block : CBlockHeader) (seed : Uint256)
  | check
  | update
  | snapshot
  | build (created : Bool)
  | hash
  deriving DecidableEq, Repr

section Threads

variable {ι : Type} [DecidableEq ι]

/-- Moving a thread to another place. -/
def RxSystem.goto (s : RxSystem ι) (t : ι) (pc : RxPc) : RxSystem ι :=
  { s with pc := Function.update s.pc t pc }

/-- Ending a thread's call. -/
def RxSystem.finish (s : RxSystem ι) (t : ι) (r : RxReturn) : RxSystem ι :=
  { s.goto t .idle with returned := s.returned ++ [r] }

variable (rx : Uint256 → CBlockHeader → Uint256) (miningfastmode : Bool)

/-- One atomic step of the thread `t`: each section under the mutex and each thread-local step
is one.  A VM whose cache has been released computes an arbitrary hash. -/
inductive RxStep (s : RxSystem ι) (t : ι) : RxAction → RxSystem ι → Prop
  | call (block : CBlockHeader) (seed : Uint256) (hpc : s.pc t = .idle) :
      RxStep s t (.call block seed) (s.goto t (.check block seed))
  | fast {block : CBlockHeader} {seed : Uint256} (hpc : s.pc t = .check block seed)
      (hvm : needsVm (s.thread t) seed s.global.rx_cache_version = false) :
      RxStep s t .check (s.goto t (.hash block seed))
  | slow {block : CBlockHeader} {seed : Uint256} (hpc : s.pc t = .check block seed)
      (hvm : needsVm (s.thread t) seed s.global.rx_cache_version = true) :
      RxStep s t .check (s.goto t (.update block seed))
  | update {block : CBlockHeader} {seed : Uint256} (hpc : s.pc t = .update block seed) :
      RxStep s t .update
        { s.goto t (.snapshot block seed) with
          global := updateCache miningfastmode seed s.global }
  | snapshot {block : CBlockHeader} {seed : Uint256} (hpc : s.pc t = .snapshot block seed) :
      RxStep s t .snapshot (s.goto t (.build block seed (takeSnapshot s.global)))
  | build {block : CBlockHeader} {seed : Uint256} {snap : RxSnapshot} (created : Bool)
      (hpc : s.pc t = .build block seed snap) :
      RxStep s t (.build created)
        { s.goto t (.hash block seed) with
          thread := Function.update s.thread t (rebuildVm seed snap created (s.thread t)) }
  | hash {block : CBlockHeader} {seed : Uint256} (hpc : s.pc t = .hash block seed)
      (hlive : ∀ vm, (s.thread t).rx_vm = some vm → s.global.rx_cache = some vm.cache) :
      RxStep s t .hash (s.finish t ⟨block, seed, vmHash rx (s.thread t) block⟩)
  | hashReleased {block : CBlockHeader} {seed : Uint256} {vm : RandomXVm} (garbage : Uint256)
      (hpc : s.pc t = .hash block seed) (hvm : (s.thread t).rx_vm = some vm)
      (hdead : s.global.rx_cache ≠ some vm.cache) :
      RxStep s t .hash (s.finish t ⟨block, seed, garbage⟩)

end Threads

end BitMinti.Model
