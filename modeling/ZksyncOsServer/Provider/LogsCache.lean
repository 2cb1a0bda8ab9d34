import ZksyncOsServer.MerkleTree.Types

/-!
# The cache of recent logs

`provider/src/logs_cache.rs`. During one call of `get_logs` the provider answers from the chain of the
head that the call finds; the chains of different calls need not have anything in common. Any request
of a synchronisation may fail. A hash identifies its block.
-/
namespace LogsCache

open Fallible List
open MerkleTree (B256)

/-- A block with its header; `hasBloom` says that the bloom filter of the logs is not zero. -/
structure Block (L : Type) where
  hash : B256
  number : Nat
  parentHash : B256
  hasBloom : Bool
  logs : List L
  deriving DecidableEq

variable {L : Type} {blockAt : B256 → Block L}

/-- A chain from genesis to its head. -/
structure Chain (blockAt : B256 → Block L) where
  blocks : List (Block L)
  nonempty : blocks ≠ []
  numbered : blocks.map (·.number) = List.range blocks.length
  linked : blocks.IsChain fun parent block => block.parentHash = parent.hash
  identified : ∀ block ∈ blocks, blockAt block.hash = block

namespace Chain

variable (chain : Chain blockAt)

def head : Block L := chain.blocks.getLast chain.nonempty

def logsInRange (fromBlock toBlock : Nat) (rpcMatches : L → Bool) : List L :=
  (((chain.blocks.drop fromBlock).take (toBlock + 1 - fromBlock)).flatMap (·.logs)).filter rpcMatches

def getBlockByNumber (number : Nat) : Except String (Block L) :=
  ofOption "block not found" chain.blocks[number]?

def getLogsAtHash (hash : B256) : Except String (List L) :=
  ofOption "unknown block" ((chain.blocks.find? (·.hash = hash)).map (·.logs))

end Chain

structure CachedBlockLogs (L : Type) where
  hash : B256
  logs : List L
  deriving DecidableEq

/-- `RecentLogs`; a cache without a first block is empty. -/
structure RecentLogs (L : Type) where
  capacity : Nat
  syncedWithHash : B256
  firstBlock : Option Nat
  blocks : List (CachedBlockLogs L)
  cold : firstBlock = none → blocks = []

namespace RecentLogs

def new (L : Type) (capacity : Nat) : RecentLogs L := ⟨capacity, 0, none, [], fun _ => rfl⟩

variable (this : RecentLogs L)

def cached (blockNumber : Nat) : Option (CachedBlockLogs L) := do
  let firstBlock ← this.firstBlock
  guard (firstBlock ≤ blockNumber)
  this.blocks[blockNumber - firstBlock]?

def cachedHash (blockNumber : Nat) : Option B256 := (this.cached blockNumber).map (·.hash)

def latestBlock : Option Nat := do
  let firstBlock ← this.firstBlock
  guard (this.blocks ≠ [])
  return firstBlock + (this.blocks.length - 1)

def containsRange (fromBlock toBlock : Nat) : Bool :=
  match this.firstBlock, this.latestBlock with
  | some first, some last => fromBlock ≤ toBlock && first ≤ fromBlock && toBlock ≤ last
  | _, _ => false

def cachedLogsInRange (fromBlock toBlock : Nat) : Option (List L) := do
  guard (this.containsRange fromBlock toBlock)
  let firstBlock ← this.firstBlock
  return ((this.blocks.drop (fromBlock - firstBlock)).take (toBlock - fromBlock + 1)).flatMap (·.logs)

def keptBelow (number : Nat) : List (CachedBlockLogs L) :=
  this.blocks.take (number - this.firstBlock.getD number)

/-- The number of the first block of the cache once the new block is there. -/
def firstKept (number : Nat) : Nat :=
  if this.keptBelow number = [] then number else this.firstBlock.getD number

/-- `push_head`: reverted blocks are popped at the back, old ones evicted at the front. -/
def pushHead (number : Nat) (hash : B256) (logs : List L) : Except String (RecentLogs L) := do
  if this.capacity = 0 then
    return this
  require (this.firstKept number + (this.keptBelow number).length = number)
    "recent logs cache cannot append a non-contiguous block"
  let blocks := this.keptBelow number ++ [⟨hash, logs⟩]
  let evicted := blocks.length - this.capacity
  return { this with
    firstBlock := some (this.firstKept number + evicted)
    blocks := blocks.drop evicted
    cold := by simp }

end RecentLogs

/-! ### Synchronisation -/

/-- Whether the next request fails is up to the run. -/
def request (failures : List Bool) : Except String (List Bool) :=
  match failures with
  | true :: _ => .error "transport error"
  | false :: failures => .ok failures
  | [] => .ok []

/-- The cache and the requests to come. -/
abbrev Sync (L : Type) := RecentLogs L × List Bool

/-- The header of a block: the one at hand or the provider's. -/
def fetchHeader (chain : Chain blockAt) (blockNumber : Nat) (headerHint : Option (Block L)) (failures : List Bool) :
    Except String (Block L × List Bool) := do
  match headerHint with
  | some header =>
    require (header.number = blockNumber) "header hint does not match requested block number"
    return (header, failures)
  | none =>
    let failures ← request failures
    let header ← chain.getBlockByNumber blockNumber
    return (header, failures)

def fetchLogs (chain : Chain blockAt) (header : Block L) (failures : List Bool) :
    Except String (List L × List Bool) := do
  let failures ← request failures
  let logs ← chain.getLogsAtHash header.hash
  require (¬(logs.isEmpty ∧ header.hasBloom))
    "RPC returned empty logs, but the block has logs. Most likely due to reorg."
  return (logs, failures)

def updateIf (condition : Bool) (updateParent : Sync L → Except String (Sync L)) (recent : Sync L) :
    Except String (Sync L) :=
  if condition then updateParent recent else .ok recent

def updateBlockWith (chain : Chain blockAt) (floor blockNumber : Nat) (updateParent : Sync L → Except String (Sync L))
    (headerHint : Option (Block L)) (recent : Sync L) : Except String (Sync L) := do
  if blockNumber < floor then
    return recent
  let hasParent := decide (floor < blockNumber)
  let (recent, failures) ←
    updateIf (hasParent && (recent.1.cachedHash (blockNumber - 1)).isNone) updateParent recent
  let (header, failures) ← fetchHeader chain blockNumber headerHint failures
  let (logs, failures) ← fetchLogs chain header failures
  let parentHashMismatch := hasParent && (recent.cachedHash (blockNumber - 1)).any (· ≠ header.parentHash)
  let (recent, failures) ← updateIf parentHashMismatch updateParent (recent, failures)
  let recent ← recent.pushHead blockNumber header.hash logs
  return (recent, failures)

def updateBlock (chain : Chain blockAt) (floor : Nat) : Nat → Option (Block L) → Sync L → Except String (Sync L)
  | 0 => updateBlockWith chain floor 0 pure
  | blockNumber + 1 => updateBlockWith chain floor (blockNumber + 1) (updateBlock chain floor blockNumber none)

def synchronizeIfNeeded (recent : RecentLogs L) (chain : Chain blockAt) (failures : List Bool) :
    Except String (RecentLogs L) := do
  if recent.syncedWithHash = chain.head.hash then
    return recent
  if recent.capacity = 0 then
    return { recent with syncedWithHash := chain.head.hash }
  let targetHead := chain.head.number
  let floor := if recent.firstBlock.isNone then targetHead else targetHead - (recent.capacity - 1)
  let (recent, _) ← updateBlock chain floor targetHead (some chain.head) (recent, failures)
  return { recent with syncedWithHash := chain.head.hash }

/-- One call of `get_logs`, with the chain that the provider answers from. -/
structure Call (blockAt : B256 → Block L) where
  chain : Chain blockAt
  fromBlock : Nat
  toBlock : Nat
  rpcMatches : L → Bool
  failures : List Bool

/-- The cache after the synchronisation of a call; it is cleared if that fails. -/
def synchronized (recent : RecentLogs L) (call : Call blockAt) : RecentLogs L :=
  match synchronizeIfNeeded recent call.chain call.failures with
  | .ok recent => recent
  | .error _ => .new L recent.capacity

/-- What the provider returns for the filter of a call. -/
def Call.expected (call : Call blockAt) : List L :=
  call.chain.logsInRange call.fromBlock call.toBlock call.rpcMatches

def getLogs (recent : RecentLogs L) (call : Call blockAt) : List L × RecentLogs L :=
  let recent := synchronized recent call
  match recent.cachedLogsInRange call.fromBlock call.toBlock with
  | some logs => (logs.filter call.rpcMatches, recent)
  | none => (call.expected, recent)

/-! ### Chains -/

namespace Chain

variable {chain : Chain blockAt} {n : Nat} {block : Block L}

theorem number_eq (h : chain.blocks[n]? = some block) : block.number = n := by
  have hnumber := congrArg (·[n]?) chain.numbered
  obtain ⟨hlt, rfl⟩ := List.getElem?_eq_some_iff.mp h
  simpa [hlt] using hnumber

theorem identified_getElem (h : chain.blocks[n]? = some block) :
    blockAt block.hash = block := chain.identified block (mem_of_getElem? h)

theorem parentHash_eq {parent : Block L} (hparent : chain.blocks[n]? = some parent)
    (hblock : chain.blocks[n + 1]? = some block) : block.parentHash = parent.hash := by
  obtain ⟨hn, rfl⟩ := List.getElem?_eq_some_iff.mp hparent
  obtain ⟨hn', rfl⟩ := List.getElem?_eq_some_iff.mp hblock
  exact isChain_iff_getElem.mp chain.linked n hn'

theorem getElem_last (chain : Chain blockAt) : chain.blocks[chain.blocks.length - 1]? = some chain.head := by
  rw [← getLast?_eq_getElem?, getLast?_eq_some_getLast chain.nonempty]
  rfl

theorem getElem_head (chain : Chain blockAt) : chain.blocks[chain.head.number]? = some chain.head := by
  rw [number_eq chain.getElem_last, chain.getElem_last]

theorem length_eq (chain : Chain blockAt) : chain.blocks.length = chain.head.number + 1 := by
  have hpos := length_pos_of_ne_nil chain.nonempty
  have hnumber := number_eq chain.getElem_last
  omega

theorem exists_getElem (hn : chain.blocks[n]? = some block) {k : Nat} (hk : k ≤ n) : ∃ x, chain.blocks[k]? = some x :=
  ⟨_, getElem?_eq_getElem (hk.trans_lt (List.getElem?_eq_some_iff.mp hn).1)⟩

theorem getLogsAtHash_eq (h : chain.blocks[n]? = some block) : chain.getLogsAtHash block.hash = .ok block.logs := by
  cases hfind : chain.blocks.find? (·.hash = block.hash) with
  | none => exact absurd (find?_eq_none.mp hfind block (mem_of_getElem? h)) (by simp)
  | some found =>
    have hhash : found.hash = block.hash := by simpa using find?_some hfind
    have hfound : found = block := by
      rw [← chain.identified found (mem_of_find?_eq_some hfind), hhash, identified_getElem h]
    rw [getLogsAtHash, hfind, hfound]
    rfl

theorem eq_of_head {chain' : Chain blockAt} (h : chain.head.hash = chain'.head.hash) :
    chain.blocks = chain'.blocks := by
  have hhead : chain.head = chain'.head := by
    rw [← identified_getElem chain.getElem_head, h, identified_getElem chain'.getElem_head]
  -- from the head down, parent by parent
  have hback : ∀ depth n, n + depth = chain.head.number → chain.blocks[n]? = chain'.blocks[n]? := by
    intro depth
    induction depth with
    | zero =>
      rintro n rfl
      rw [chain.getElem_head, hhead, chain'.getElem_head]
    | succ depth ih =>
      intro n hn
      obtain ⟨child, hchild⟩ := exists_getElem chain.getElem_head (show n + 1 ≤ _ by omega)
      have hchild' := ih (n + 1) (by omega) ▸ hchild
      obtain ⟨block, hblock⟩ := exists_getElem hchild n.le_succ
      obtain ⟨block', hblock'⟩ := exists_getElem hchild' n.le_succ
      have hhash : block.hash = block'.hash := by
        rw [← parentHash_eq hblock hchild, ← parentHash_eq hblock' hchild']
      rw [hblock, hblock', ← identified_getElem hblock, hhash, identified_getElem hblock']
  refine ext_getElem? fun n => ?_
  by_cases hn : n ≤ chain.head.number
  · exact hback (chain.head.number - n) n (by omega)
  · rw [getElem?_eq_none (by rw [chain.length_eq]; omega),
      getElem?_eq_none (by rw [chain'.length_eq, ← hhead]; omega)]

end Chain

/-! ### The cache -/

namespace RecentLogs

variable {recent recent' : RecentLogs L} {n : Nat} {block : CachedBlockLogs L}

theorem cached_eq_some : recent.cached n = some block ↔
      ∃ first, recent.firstBlock = some first ∧ first ≤ n ∧ recent.blocks[n - first]? = some block := by
  simp [cached, Option.bind_eq_some_iff, guard]

theorem cached_between {k m : Nat} {low high : CachedBlockLogs L} (hlow : recent.cached k = some low)
    (hhigh : recent.cached n = some high) (hk : k ≤ m) (hn : m ≤ n) : ∃ block, recent.cached m = some block := by
  obtain ⟨first, hfirst, hle, -⟩ := cached_eq_some.mp hlow
  obtain ⟨first', hfirst', -, hsome⟩ := cached_eq_some.mp hhigh
  obtain rfl : first = first' := Option.some.inj (hfirst.symm.trans hfirst')
  have hlt := (List.getElem?_eq_some_iff.mp hsome).1
  exact ⟨_, cached_eq_some.mpr ⟨first, hfirst, by omega, getElem?_eq_getElem (by omega)⟩⟩

theorem cachedLogsInRange_eq_some {fromBlock toBlock : Nat} {logs : List L}
    (h : recent.cachedLogsInRange fromBlock toBlock = some logs) :
    ∃ first, recent.firstBlock = some first ∧ fromBlock ≤ toBlock ∧ first ≤ fromBlock ∧
      toBlock < first + recent.blocks.length ∧
      logs = ((recent.blocks.drop (fromBlock - first)).take (toBlock - fromBlock + 1)).flatMap (·.logs) := by
  have hrange : recent.containsRange fromBlock toBlock = true := by
    by_contra hne
    simp [cachedLogsInRange, hne] at h
  cases hfirst : recent.firstBlock with
  | none => simp [containsRange, hfirst] at hrange
  | some first =>
    by_cases hnil : recent.blocks = []
    · simp [containsRange, latestBlock, hfirst, hnil] at hrange
    · have hpos := length_pos_of_ne_nil hnil
      simp only [cachedLogsInRange, hrange, hfirst, guard, if_true, Option.pure_def, Option.bind_eq_bind, Option.bind_some,
        Option.some.injEq] at h
      simp only [containsRange, latestBlock, hfirst, guard, ne_eq, hnil, not_false_eq_true, if_true, Option.pure_def,
        Option.bind_eq_bind, Option.bind_some, Bool.and_eq_true, decide_eq_true_eq] at hrange
      exact ⟨first, rfl, hrange.1.1, hrange.1.2, by omega, h.symm⟩

/-- The cached blocks of a cache whose blocks are given from a number on, without the first few. -/
theorem cached_of_drop {first evicted : Nat} {blocks : List (CachedBlockLogs L)}
    (hfirst : recent.firstBlock = some (first + evicted)) (hblocks : recent.blocks = blocks.drop evicted) :
    recent.cached n = some block ↔ first + evicted ≤ n ∧ blocks[n - first]? = some block := by
  rw [cached_eq_some]
  constructor
  · rintro ⟨_, hfirst', hle, hblock⟩
    obtain rfl := Option.some.inj (hfirst.symm.trans hfirst')
    rw [hblocks, getElem?_drop, show evicted + (n - (first + evicted)) = n - first by omega] at hblock
    exact ⟨hle, hblock⟩
  · rintro ⟨hle, hblock⟩
    refine ⟨_, hfirst, hle, ?_⟩
    rw [hblocks, getElem?_drop, show evicted + (n - (first + evicted)) = n - first by omega]
    exact hblock

theorem cached_of_keptBelow {k : Nat} (hk : recent.firstKept n ≤ k)
    (h : (recent.keptBelow n)[k - recent.firstKept n]? = some block) : recent.cached k = some block := by
  have hne : recent.keptBelow n ≠ [] := ne_nil_of_mem (mem_of_getElem? h)
  rw [firstKept, if_neg hne] at h hk
  cases hfirst : recent.firstBlock with
  | none => exact absurd (by rw [keptBelow, recent.cold hfirst, take_nil]) hne
  | some first =>
    rw [hfirst] at h hk
    rw [keptBelow, hfirst, getElem?_take] at h
    split at h
    · exact cached_eq_some.mpr ⟨first, hfirst, hk, h⟩
    · cases h

/-- What `push_head` leaves: the new block on top, below it nothing that was not there before. -/
theorem pushHead_eq_ok {hash : B256} {logs : List L} (hcapacity : recent.capacity ≠ 0)
    (h : recent.pushHead n hash logs = .ok recent') :
    recent'.capacity = recent.capacity ∧ recent'.blocks.length ≤ recent.capacity ∧
      recent'.cached n = some ⟨hash, logs⟩ ∧ (∀ k, n < k → recent'.cached k = none) ∧
      ∀ k block, k < n → recent'.cached k = some block → recent.cached k = some block := by
  rw [pushHead, if_neg hcapacity] at h
  obtain ⟨_, hcontiguous, h⟩ := bind_eq_ok.mp h
  rw [require_eq_ok] at hcontiguous
  obtain rfl := pure_eq_ok.mp h
  have hlength : (recent.keptBelow n ++ [(⟨hash, logs⟩ : CachedBlockLogs L)]).length =
    (recent.keptBelow n).length + 1 := by simp
  refine ⟨rfl, ?_, ?_, fun k hk => ?_, fun k block hk hblock => ?_⟩
  · rw [length_drop]
    omega
  · rw [cached_of_drop rfl rfl, show n - recent.firstKept n = (recent.keptBelow n).length by omega]
    exact ⟨by omega, by simp⟩
  · rw [Option.eq_none_iff_forall_ne_some]
    intro block hblock
    rw [cached_of_drop rfl rfl] at hblock
    have hlt := (List.getElem?_eq_some_iff.mp hblock.2).1
    omega
  · rw [cached_of_drop rfl rfl] at hblock
    obtain ⟨hle, hblock⟩ := hblock
    rw [getElem?_append_left (by omega)] at hblock
    exact cached_of_keptBelow (by omega) hblock

end RecentLogs

/-! ### Synchronisation -/

/-- The cached blocks are known ones at their numbers, and linked to each other from a number on. -/
structure Linked (blockAt : B256 → Block L) (floor : Nat) (recent : RecentLogs L) : Prop where
  known : ∀ k block, recent.cached k = some block →
    (blockAt block.hash).number = k ∧ block.logs = (blockAt block.hash).logs
  linked : ∀ k parent block, floor ≤ k → recent.cached k = some parent → recent.cached (k + 1) = some block →
    (blockAt block.hash).parentHash = parent.hash

def Chain.Has (chain : Chain blockAt) (k : Nat) (block : CachedBlockLogs L) : Prop :=
  ∃ x, chain.blocks[k]? = some x ∧ block = ⟨x.hash, x.logs⟩

def OnChain (chain : Chain blockAt) (floor : Nat) (recent : RecentLogs L) : Prop :=
  ∀ k block, floor ≤ k → recent.cached k = some block → chain.Has k block

variable {chain : Chain blockAt} {floor n : Nat} {x : Block L} {failures : List Bool} {recent recent' : RecentLogs L}

namespace Chain.Has

variable {k : Nat} {parent block : CachedBlockLogs L}

theorem known : chain.Has k block → (blockAt block.hash).number = k ∧ block.logs = (blockAt block.hash).logs := by
  rintro ⟨x, hx, rfl⟩
  rw [identified_getElem hx]
  exact ⟨number_eq hx, rfl⟩

theorem linked (hparent : chain.Has k parent) : chain.Has (k + 1) block → (blockAt block.hash).parentHash = parent.hash := by
  obtain ⟨x, hx, rfl⟩ := hparent
  rintro ⟨y, hy, rfl⟩
  rw [identified_getElem hy]
  exact parentHash_eq hx hy

end Chain.Has

theorem OnChain.linked (h : OnChain chain 0 recent) : Linked blockAt 0 recent where
  known k block hblock := Chain.Has.known (h k block k.zero_le hblock)
  linked k parent block hk hparent hblock := Chain.Has.linked (h k parent hk hparent) (h (k + 1) block (Nat.zero_le _) hblock)

/-- Once the cached parent of a block of the chain is its parent, the cached blocks below are on the chain. -/
theorem Linked.onChain {top : CachedBlockLogs L} (h : Linked blockAt floor recent) (htop : recent.cached n = some top)
    (hx : chain.blocks[n]? = some x) (hhash : top.hash = x.hash) :
    ∀ k block, floor ≤ k → k ≤ n → recent.cached k = some block → chain.Has k block := by
  -- a cached block with the hash of the chain's block has its logs
  have hsame {k : Nat} {block : CachedBlockLogs L} {y : Block L} (hblock : recent.cached k = some block)
      (hy : chain.blocks[k]? = some y) (hhash : block.hash = y.hash) : block = ⟨y.hash, y.logs⟩ := by
    have hlogs := (h.known k block hblock).2
    rw [hhash, Chain.identified_getElem hy] at hlogs
    cases block
    simp_all
  have hback : ∀ depth k block, k + depth = n → floor ≤ k → recent.cached k = some block → chain.Has k block := by
    intro depth
    induction depth with
    | zero =>
      rintro k block rfl - hblock
      obtain rfl := Option.some.inj (hblock.symm.trans htop)
      exact ⟨x, hx, hsame hblock hx hhash⟩
    | succ depth ih =>
      intro k block hk hfloor hblock
      obtain ⟨child, hchild⟩ := RecentLogs.cached_between hblock htop (Nat.le_succ k) (by omega)
      obtain ⟨y, hy, rfl⟩ := ih (k + 1) child (by omega) (by omega) hchild
      have hparent := h.linked k block _ hfloor hblock hchild
      rw [Chain.identified_getElem hy] at hparent
      obtain ⟨z, hz⟩ := Chain.exists_getElem hy k.le_succ
      rw [Chain.parentHash_eq hz hy] at hparent
      exact ⟨z, hz, hsame hblock hz hparent.symm⟩
  intro k block hfloor hk hblock
  exact hback (n - k) k block (by omega) hfloor hblock

/-- What updating a block of the chain leaves: the block on top and, from the floor on, only blocks of the
chain; below the floor nothing that was not there before. -/
structure Updated (chain : Chain blockAt) (floor n : Nat) (recent recent' : RecentLogs L) : Prop where
  capacity : recent'.capacity = recent.capacity
  bounded : recent'.blocks.length ≤ recent.capacity
  linked : Linked blockAt floor recent'
  onChain : OnChain chain floor recent'
  top : ∃ block, recent'.cached n = some block
  above : ∀ k, n < k → recent'.cached k = none
  below : ∀ k block, k < floor → recent'.cached k = some block → recent.cached k = some block

/-- A block of the chain is pushed on top of a cache that is linked and, unless the block is the lowest
one to be updated, has its parent on top of blocks of the chain. -/
theorem updated_pushHead (hcapacity : recent.capacity ≠ 0) (hx : chain.blocks[n]? = some x) (hfloor : floor ≤ n)
    (hlinked : Linked blockAt floor recent)
    (hparent : ∀ k block, floor ≤ k → k < n → recent.cached k = some block → chain.Has k block)
    (h : recent.pushHead n x.hash x.logs = .ok recent') : Updated chain floor n recent recent' := by
  obtain ⟨hcap, hbounded, htop, habove, hbelow⟩ := RecentLogs.pushHead_eq_ok hcapacity h
  have hon : OnChain chain floor recent' := by
    intro k block hk hblock
    obtain hlt | rfl | hgt := Nat.lt_trichotomy k n
    · exact hparent k block hk hlt (hbelow k block hlt hblock)
    · obtain rfl := Option.some.inj (hblock.symm.trans htop)
      exact ⟨x, hx, rfl⟩
    · rw [habove k hgt] at hblock
      cases hblock
  refine ⟨hcap, hbounded, ⟨fun k block hblock => ?_, fun k parent block hk hpar hblock => ?_⟩, hon, ⟨_, htop⟩, habove,
    fun k block hk hblock => hbelow k block (by omega) hblock⟩
  · by_cases hk : floor ≤ k
    · exact Chain.Has.known (hon k block hk hblock)
    · exact hlinked.known k block (hbelow k block (by omega) hblock)
  · exact Chain.Has.linked (hon k parent hk hpar) (hon (k + 1) block (by omega) hblock)

/-- What may happen to the cache before a block is pushed. -/
structure Prepared (blockAt : B256 → Block L) (floor : Nat) (recent recent' : RecentLogs L) : Prop where
  capacity : recent'.capacity = recent.capacity
  linked : Linked blockAt floor recent'
  below : ∀ k block, k < floor → recent'.cached k = some block → recent.cached k = some block

theorem Prepared.trans {recent'' : RecentLogs L} (h : Prepared blockAt floor recent recent')
    (h' : Prepared blockAt floor recent' recent'') : Prepared blockAt floor recent recent'' :=
  ⟨h'.capacity.trans h.capacity, h'.linked, fun k block hk hblock => h.below k block hk (h'.below k block hk hblock)⟩

theorem Updated.prepared (h : Updated chain floor n recent recent') : Prepared blockAt floor recent recent' :=
  ⟨h.capacity, h.linked, h.below⟩

def UpdatesParent (chain : Chain blockAt) (floor n : Nat) (updateParent : Sync L → Except String (Sync L)) : Prop :=
  floor < n → ∀ s s', s.1.capacity ≠ 0 → Linked blockAt floor s.1 → updateParent s = .ok s' →
    Updated chain floor (n - 1) s.1 s'.1

theorem fetchHeader_eq_ok {hint : Option (Block L)} {failures' : List Bool}
    {header : Block L} (hx : chain.blocks[n]? = some x) (hhint : ∀ header ∈ hint, header = x)
    (h : fetchHeader chain n hint failures = .ok (header, failures')) : header = x := by
  cases hint with
  | none =>
    rw [fetchHeader] at h
    obtain ⟨_, -, h⟩ := bind_eq_ok.mp h
    obtain ⟨_, hheader, h⟩ := bind_eq_ok.mp h
    rw [Chain.getBlockByNumber, hx] at hheader
    obtain ⟨rfl, -⟩ := Prod.mk.inj (pure_eq_ok.mp h)
    exact (Except.ok.inj hheader).symm
  | some hinted =>
    rw [fetchHeader] at h
    obtain ⟨_, -, h⟩ := bind_eq_ok.mp h
    obtain ⟨rfl, -⟩ := Prod.mk.inj (pure_eq_ok.mp h)
    exact hhint _ rfl

theorem fetchLogs_eq_ok {failures' : List Bool} {logs : List L}
    (hx : chain.blocks[n]? = some x) (h : fetchLogs chain x failures = .ok (logs, failures')) : logs = x.logs := by
  obtain ⟨_, -, h⟩ := bind_eq_ok.mp h
  obtain ⟨_, hlogs, h⟩ := bind_eq_ok.mp h
  obtain ⟨_, -, h⟩ := bind_eq_ok.mp h
  obtain ⟨rfl, -⟩ := Prod.mk.inj (pure_eq_ok.mp h)
  rw [Chain.getLogsAtHash_eq hx] at hlogs
  exact (Except.ok.inj hlogs).symm

section
variable {chain : Chain blockAt} {floor n : Nat} {updateParent : Sync L → Except String (Sync L)} {recent recent' : Sync L}

theorem updateIf_eq_ok {condition : Bool} (h : updateIf condition updateParent recent = .ok recent') :
    condition = true ∧ updateParent recent = .ok recent' ∨ condition = false ∧ recent = recent' := by
  cases condition with
  | true => exact .inl ⟨rfl, h⟩
  | false => exact .inr ⟨rfl, Except.ok.inj h⟩

theorem updateIf_missing (hparent : UpdatesParent chain floor n updateParent) (hcapacity : recent.1.capacity ≠ 0)
    (hlinked : Linked blockAt floor recent.1)
    (h : updateIf (decide (floor < n) && (recent.1.cachedHash (n - 1)).isNone) updateParent recent = .ok recent') :
    Prepared blockAt floor recent.1 recent'.1 ∧ (floor < n → ∃ block, recent'.1.cached (n - 1) = some block) := by
  obtain ⟨hmissing, h⟩ | ⟨hcached, rfl⟩ := updateIf_eq_ok h
  · rw [Bool.and_eq_true, decide_eq_true_eq] at hmissing
    have hupdated := hparent hmissing.1 _ _ hcapacity hlinked h
    exact ⟨hupdated.prepared, fun _ => hupdated.top⟩
  · refine ⟨⟨rfl, hlinked, fun _ _ _ hblock => hblock⟩, fun hlt => ?_⟩
    simpa [hlt, RecentLogs.cachedHash, Option.isSome_iff_exists] using hcached

theorem updateIf_mismatch {recent : RecentLogs L} {failures : List Bool} {x : Block L} (hx : chain.blocks[n]? = some x)
    (h : updateIf (decide (floor < n) && (recent.cachedHash (n - 1)).any (· ≠ x.parentHash)) updateParent
      (recent, failures) = .ok recent')
    (hparent : UpdatesParent chain floor n updateParent) (hcapacity : recent.capacity ≠ 0)
    (hlinked : Linked blockAt floor recent) (hcached : floor < n → ∃ block, recent.cached (n - 1) = some block) :
    Prepared blockAt floor recent recent'.1 ∧
      ∀ k block, floor ≤ k → k < n → recent'.1.cached k = some block → chain.Has k block := by
  obtain ⟨hmismatch, h⟩ | ⟨hmatch, rfl⟩ := updateIf_eq_ok h
  · rw [Bool.and_eq_true, decide_eq_true_eq] at hmismatch
    have hupdated := hparent hmismatch.1 _ _ hcapacity hlinked h
    exact ⟨hupdated.prepared, fun k block hk _ hblock => hupdated.onChain k block hk hblock⟩
  · refine ⟨⟨rfl, hlinked, fun _ _ _ hblock => hblock⟩, fun k block hk hkn hblock => ?_⟩
    have hlt : floor < n := by omega
    obtain ⟨top, htop⟩ := hcached hlt
    obtain ⟨y, hy⟩ := Chain.exists_getElem hx (n.sub_le 1)
    have hhash : top.hash = y.hash := by
      have hmatch : top.hash = x.parentHash := by simpa [hlt, RecentLogs.cachedHash, htop] using hmatch
      rw [hmatch]
      exact Chain.parentHash_eq hy (by rw [show n - 1 + 1 = n by omega]; exact hx)
    exact hlinked.onChain htop hy hhash k block hk (by omega) hblock

theorem updateBlockWith_updated (hparent : UpdatesParent chain floor n updateParent) (hfloor : floor ≤ n)
    (hcapacity : recent.1.capacity ≠ 0) (hlinked : Linked blockAt floor recent.1) {x : Block L}
    (hx : chain.blocks[n]? = some x) {hint : Option (Block L)} (hhint : ∀ header ∈ hint, header = x)
    (h : updateBlockWith chain floor n updateParent hint recent = .ok recent') :
    Updated chain floor n recent.1 recent'.1 := by
  rw [updateBlockWith, if_neg (by omega)] at h
  obtain ⟨⟨recent₁, failures₁⟩, hmissing, h⟩ := bind_eq_ok.mp h
  obtain ⟨⟨header, failures₂⟩, hheader, h⟩ := bind_eq_ok.mp h
  obtain rfl := fetchHeader_eq_ok hx hhint hheader
  obtain ⟨⟨logs, failures₃⟩, hlogs, h⟩ := bind_eq_ok.mp h
  obtain rfl := fetchLogs_eq_ok hx hlogs
  obtain ⟨⟨recent₂, failures₄⟩, hmismatch, h⟩ := bind_eq_ok.mp h
  obtain ⟨pushed, hpush, h⟩ := bind_eq_ok.mp h
  obtain rfl := pure_eq_ok.mp h
  obtain ⟨hprepared₁, hcached⟩ := updateIf_missing hparent hcapacity hlinked hmissing
  obtain ⟨hprepared₂, hon⟩ := updateIf_mismatch hx hmismatch hparent (by rw [hprepared₁.capacity]; exact hcapacity)
    hprepared₁.linked hcached
  have hprepared : Prepared blockAt floor recent.1 recent₂ := hprepared₁.trans hprepared₂
  have hpushed := updated_pushHead (by rw [hprepared.capacity]; exact hcapacity) hx hfloor hprepared.linked hon hpush
  exact { hpushed with
    capacity := hpushed.capacity.trans hprepared.capacity
    bounded := hprepared.capacity ▸ hpushed.bounded
    below := fun k block hk hblock => hprepared.below k block hk (hpushed.below k block hk hblock) }

end

theorem updateBlock_updated {recent recent' : Sync L} (hfloor : floor ≤ n)
    (hcapacity : recent.1.capacity ≠ 0) (hlinked : Linked blockAt floor recent.1)
    (hx : chain.blocks[n]? = some x) {hint : Option (Block L)} (hhint : ∀ header ∈ hint, header = x)
    (h : updateBlock chain floor n hint recent = .ok recent') : Updated chain floor n recent.1 recent'.1 := by
  induction n generalizing recent recent' hint x with
  | zero => exact updateBlockWith_updated (fun hlt => absurd hlt (by omega)) hfloor hcapacity hlinked hx hhint h
  | succ n ih =>
    refine updateBlockWith_updated (fun hlt s s' hcap hlink hparent => ?_) hfloor hcapacity hlinked hx hhint h
    obtain ⟨y, hy⟩ := Chain.exists_getElem hx n.le_succ
    exact ih (by omega) hcap hlink hy (by simp) hparent

/-! ### Whole runs -/

/-- Between calls the cache is empty or holds blocks of a chain with the head that it was synced with. -/
def Rest (blockAt : B256 → Block L) (recent : RecentLogs L) : Prop :=
  recent.blocks.length ≤ recent.capacity ∧ (recent.blocks = [] ∨
    ∃ chain : Chain blockAt, chain.head.hash = recent.syncedWithHash ∧ OnChain chain 0 recent)

theorem rest_new (capacity : Nat) : Rest blockAt (.new L capacity) := ⟨Nat.zero_le _, .inl rfl⟩

theorem cached_of_nil (h : recent.blocks = []) (n : Nat) : recent.cached n = none := by
  rw [Option.eq_none_iff_forall_ne_some]
  intro block hblock
  obtain ⟨_, -, -, hsome⟩ := RecentLogs.cached_eq_some.mp hblock
  simp [h] at hsome

theorem OnChain.of_nil (h : recent.blocks = []) : OnChain chain 0 recent :=
  fun k _ _ hblock => by simp [cached_of_nil h] at hblock

theorem Rest.linked (h : Rest blockAt recent) : Linked blockAt 0 recent := by
  obtain ⟨-, hnil | ⟨chain, -, hon⟩⟩ := h
  · exact ⟨fun k _ hblock => by simp [cached_of_nil hnil] at hblock,
      fun k _ _ _ hparent => by simp [cached_of_nil hnil] at hparent⟩
  · exact hon.linked

theorem Linked.mono {floor' : Nat} (h : Linked blockAt floor recent)
    (hle : floor ≤ floor') : Linked blockAt floor' recent :=
  ⟨h.known, fun k parent block hk => h.linked k parent block (hle.trans hk)⟩

/-- Nothing below the floor is left after an update: a cold cache had nothing, and a warm one has room
only for the blocks from the floor on. -/
theorem Updated.none_below
    (h : Updated chain (if recent.firstBlock.isNone then n else n - (recent.capacity - 1)) n recent recent')
    {k : Nat} {block : CachedBlockLogs L} (hblock : recent'.cached k = some block) :
    (if recent.firstBlock.isNone then n else n - (recent.capacity - 1)) ≤ k := by
  by_contra hlt
  have hold := h.below k block (by omega) hblock
  obtain ⟨first, hfirst, -⟩ := RecentLogs.cached_eq_some.mp hold
  rw [hfirst] at hlt
  obtain ⟨top, htop⟩ := h.top
  obtain ⟨first', hfirst', hle, -⟩ := RecentLogs.cached_eq_some.mp hblock
  obtain ⟨first'', hfirst'', -, hsome⟩ := RecentLogs.cached_eq_some.mp htop
  obtain rfl := Option.some.inj (hfirst'.symm.trans hfirst'')
  have hlength := (List.getElem?_eq_some_iff.mp hsome).1
  have hbounded := h.bounded
  simp only [Option.isNone_some, Bool.false_eq_true, if_false] at hlt
  omega

theorem onChain_synchronizeIfNeeded (hrest : Rest blockAt recent)
    (h : synchronizeIfNeeded recent chain failures = .ok recent') :
    OnChain chain 0 recent' ∧ recent'.syncedWithHash = chain.head.hash ∧ recent'.blocks.length ≤ recent'.capacity := by
  rw [synchronizeIfNeeded] at h
  split at h
  next hsynced =>
    obtain rfl := pure_eq_ok.mp h
    refine ⟨?_, hsynced, hrest.1⟩
    obtain ⟨-, hnil | ⟨chain', hhead, hon⟩⟩ := hrest
    · exact .of_nil hnil
    · simp only [OnChain, Chain.Has, ← Chain.eq_of_head (hhead.trans hsynced)]
      exact hon
  · split at h
    next hzero =>
      obtain rfl := pure_eq_ok.mp h
      have hnil : recent.blocks = [] := eq_nil_of_length_eq_zero (by have := hrest.1; omega)
      exact ⟨.of_nil hnil, rfl, hrest.1⟩
    next hcapacity =>
      obtain ⟨⟨updated, _⟩, hupdate, h⟩ := bind_eq_ok.mp h
      obtain rfl := pure_eq_ok.mp h
      have hupdated := updateBlock_updated (by split <;> omega) hcapacity (hrest.linked.mono (Nat.zero_le _))
        chain.getElem_head (by simp) hupdate
      exact ⟨fun k block _ hblock => hupdated.onChain k block (hupdated.none_below hblock) hblock, rfl,
        hupdated.capacity ▸ hupdated.bounded⟩

theorem onChain_synchronized (hrest : Rest blockAt recent) (call : Call blockAt) :
    OnChain call.chain 0 (synchronized recent call) ∧ Rest blockAt (synchronized recent call) := by
  rw [synchronized]
  split
  next recent' hsync =>
    obtain ⟨hon, hhash, hbounded⟩ := onChain_synchronizeIfNeeded hrest hsync
    exact ⟨hon, hbounded, .inr ⟨call.chain, hhash.symm, hon⟩⟩
  · exact ⟨.of_nil rfl, rest_new _⟩

theorem OnChain.cachedLogsInRange (h : OnChain chain 0 recent)
    {fromBlock toBlock : Nat} {logs : List L} (hlogs : recent.cachedLogsInRange fromBlock toBlock = some logs) :
    logs = ((chain.blocks.drop fromBlock).take (toBlock + 1 - fromBlock)).flatMap (·.logs) := by
  obtain ⟨first, hfirst, hle, hfrom, hto, rfl⟩ := RecentLogs.cachedLogsInRange_eq_some hlogs
  have hslice : (recent.blocks.drop (fromBlock - first)).take (toBlock - fromBlock + 1) =
      ((chain.blocks.drop fromBlock).take (toBlock + 1 - fromBlock)).map fun x => ⟨x.hash, x.logs⟩ := by
    refine ext_getElem? fun i => ?_
    rw [getElem?_map, getElem?_take, getElem?_take, getElem?_drop, getElem?_drop,
      show toBlock - fromBlock + 1 = toBlock + 1 - fromBlock by omega]
    split
    · have hcached : recent.cached (fromBlock + i) = some (recent.blocks[fromBlock - first + i]) :=
        RecentLogs.cached_eq_some.mpr ⟨first, hfirst, by omega,
          by rw [show fromBlock + i - first = fromBlock - first + i by omega, getElem?_eq_getElem (by omega)]⟩
      obtain ⟨x, hx, hblock⟩ := h _ _ (Nat.zero_le _) hcached
      rw [hx, getElem?_eq_getElem (by omega), hblock]
      rfl
    · rfl
  rw [hslice, flatMap_map]

theorem getLogs_expected (hrest : Rest blockAt recent) (call : Call blockAt) :
    (getLogs recent call).1 = call.expected ∧ Rest blockAt (getLogs recent call).2 := by
  obtain ⟨hon, hrest'⟩ := onChain_synchronized hrest call
  rw [getLogs]
  split
  next logs hlogs =>
    exact ⟨by rw [hon.cachedLogsInRange hlogs]; rfl, hrest'⟩
  · exact ⟨rfl, hrest'⟩

/-- A call answers with the logs of its chain, whatever calls came before it. -/
theorem get_logs_transparent (capacity : Nat) (calls : List (Call blockAt)) (call : Call blockAt) :
    (getLogs (calls.foldl (fun recent call => (getLogs recent call).2) (.new L capacity)) call).1 = call.expected := by
  have hrest : Rest blockAt (calls.foldl (fun recent call => (getLogs recent call).2) (.new L capacity)) :=
    List.foldlRecOn calls _ (rest_new capacity) fun _ hrest call _ => (getLogs_expected hrest call).2
  exact (getLogs_expected hrest call).1

/-- Two blocks on genesis, and two others that replace them. -/
def sampleBlocks : List (Block Nat) :=
  [⟨1, 0, 0, true, [0]⟩, ⟨2, 1, 1, true, [10]⟩, ⟨3, 2, 2, true, [11]⟩, ⟨4, 1, 1, true, [20]⟩, ⟨5, 2, 4, true, [21]⟩]

def sampleBlockAt (hash : B256) : Block Nat := (sampleBlocks.find? (·.hash = hash)).getD ⟨0, 0, 0, false, []⟩

def sampleChain (reorged : Bool) : Chain sampleBlockAt where
  blocks := sampleBlocks.take 1 ++ (sampleBlocks.drop (if reorged then 3 else 1)).take 2
  nonempty := by simp [sampleBlocks]
  numbered := by revert reorged; decide
  linked := by revert reorged; decide
  identified := by revert reorged; decide +kernel

/-- The cache holds a replaced block when the second call comes, and the new blocks after it. -/
theorem get_logs_transparent_after_reorg :
    let before := (getLogs (.new Nat 2) ⟨sampleChain false, 2, 2, fun _ => true, []⟩).2
    let after := getLogs before ⟨sampleChain true, 1, 2, fun _ => true, []⟩
    before.cachedLogsInRange 2 2 = some [11] ∧ after.2.cachedLogsInRange 1 2 = some [20, 21] ∧ after.1 = [20, 21] :=
  ⟨by decide +kernel, by decide +kernel, get_logs_transparent 2 [⟨sampleChain false, 2, 2, fun _ => true, []⟩]
    ⟨sampleChain true, 1, 2, fun _ => true, []⟩⟩

end LogsCache
