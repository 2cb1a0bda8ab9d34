import ZksyncOsServer.Lib.Fallible
import ZksyncOsServer.Lib.SortedMap

/-!
# The map of prover jobs

`prover_api/prover_job_map`. Every method holds the map's lock from its first
access to the map to its last, so a method is one function of the map; only
`add_job` gives the lock up, while it waits. Instants and durations are natural
numbers, a panic is an error with its message. The map counts `u64` numbers and
sums `usize` and `u64` values with overflow checks.
-/
namespace ProverApi

open Fallible List

structure ProtocolSemanticVersion where
  major : Nat
  minor : Nat
  patch : Nat
  deriving DecidableEq

inductive ProvingVersion where
  | v6 | v7 | v8
  deriving DecidableEq

namespace ProvingVersion

/-- `TryFrom<ProtocolSemanticVersion>`. -/
def tryFrom (version : ProtocolSemanticVersion) : Except String ProvingVersion :=
  match version.major, version.minor, version.patch with
  | 0, 30, 1 | 0, 30, 2 => .ok v6
  | 0, 31, 0 | 0, 31, 1 => .ok v7
  | 0, 32, 0 => .ok v8
  | _, _, _ => .error "Protocol version does not correspond to a known proving version"

def vkHash : ProvingVersion → String
  | v6 => "0x124ebcd537a1e1c152774dd18f67660e35625bba0b669bf3b4836d636b105337"
  | v7 => "0x23156cf220288cd1e436dccfc09aa4883ea8288da61aa69e2c7251b0c0c44ccd"
  | v8 => "0x9f7576b911e7d3f528d49f894208682c81800814db9e3beac7fc3b1c4d626e7a"

def toU32 : ProvingVersion → Nat
  | v6 => 6
  | v7 => 7
  | v8 => 8

theorem vkHash_injective : Function.Injective vkHash := by
  intro a b h
  cases a <;> cases b <;> first | rfl | exact absurd h (by decide)

end ProvingVersion

/-- The part of `BatchMetadata` that the prover API reads. -/
structure BatchMetadata where
  batchNumber : Nat
  protocolVersion : ProtocolSemanticVersion
  txCount : Nat
  computationalNativeUsed : Option Nat
  deriving DecidableEq

namespace BatchMetadata

def provingVersion (this : BatchMetadata) : Except String ProvingVersion :=
  ProvingVersion.tryFrom this.protocolVersion

def verificationKeyHash (this : BatchMetadata) : Except String String :=
  ProvingVersion.vkHash <$> ProvingVersion.tryFrom this.protocolVersion

end BatchMetadata

/-- `SignedBatchEnvelope`, without signatures and latency measurements. -/
structure SignedBatchEnvelope (T : Type) where
  batch : BatchMetadata
  data : T
  deriving DecidableEq

namespace SignedBatchEnvelope

variable {T N : Type}

def batchNumber (this : SignedBatchEnvelope T) : Nat := this.batch.batchNumber

def withData (this : SignedBatchEnvelope T) (data : N) : SignedBatchEnvelope N := ⟨this.batch, data⟩

end SignedBatchEnvelope

structure JobMetadata where
  batchNumber : Nat
  provingVersion : ProvingVersion
  txCount : Nat
  computationalNativeUsed : Option Nat
  addedAt : Nat
  assignedToProverId : Option String
  assignedAt : Option Nat
  currentAttempt : Nat
  deriving DecidableEq

namespace JobMetadata

def assign (this : JobMetadata) (assignedAt : Nat) (proverId : String) : JobMetadata :=
  { this with
    assignedAt := some assignedAt
    assignedToProverId := some proverId
    currentAttempt := this.currentAttempt + 1 }

/-- `current_attempt` stays as assignment history. -/
def unassign (this : JobMetadata) : JobMetadata :=
  { this with assignedAt := none, assignedToProverId := none }

end JobMetadata

/-- `JobEntry`: the metadata of an entry is that of its envelope, and the version of
the batch is one that can be proven. -/
structure JobEntry (T : Type) where
  batchEnvelope : SignedBatchEnvelope T
  metadata : JobMetadata
  number_eq : metadata.batchNumber = batchEnvelope.batchNumber
  version_eq : batchEnvelope.batch.provingVersion = .ok metadata.provingVersion

namespace JobEntry

variable {T : Type}

def newFromBatch (batchEnvelope : SignedBatchEnvelope T) (now : Nat) : Except String (JobEntry T) :=
  match h : batchEnvelope.batch.provingVersion with
  | .error _ => .error "Must be valid execution as set by the server"
  | .ok provingVersion => .ok {
      batchEnvelope
      metadata := {
        batchNumber := batchEnvelope.batchNumber
        provingVersion
        txCount := batchEnvelope.batch.txCount
        computationalNativeUsed := batchEnvelope.batch.computationalNativeUsed
        addedAt := now
        assignedToProverId := none
        assignedAt := none
        currentAttempt := 0 }
      number_eq := rfl
      version_eq := h }

def assign (this : JobEntry T) (now : Nat) (proverId : String) : JobEntry T :=
  { this with
    metadata := this.metadata.assign now proverId
    number_eq := this.number_eq
    version_eq := this.version_eq }

def unassign (this : JobEntry T) : JobEntry T :=
  { this with
    metadata := this.metadata.unassign
    number_eq := this.number_eq
    version_eq := this.version_eq }

/-- What a job costs its prover. -/
def load (this : JobEntry T) : Nat × Option Nat := (this.metadata.txCount, this.metadata.computationalNativeUsed)

theorem newFromBatch_eq_ok {batchEnvelope : SignedBatchEnvelope T} {now : Nat} {entry : JobEntry T}
    (h : newFromBatch batchEnvelope now = .ok entry) : entry.batchEnvelope = batchEnvelope ∧
      entry.load = (batchEnvelope.batch.txCount, batchEnvelope.batch.computationalNativeUsed) := by
  rw [newFromBatch] at h
  split at h
  · cases h
  · cases h
    exact ⟨rfl, rfl⟩

theorem toBool_newFromBatch (batchEnvelope : SignedBatchEnvelope T) (now : Nat) :
    (newFromBatch batchEnvelope now).toBool = batchEnvelope.batch.provingVersion.toBool := by
  rw [newFromBatch]
  split
  next h => exact (congrArg Except.toBool h).symm
  next h => exact (congrArg Except.toBool h).symm

theorem verificationKeyHash_eq (this : JobEntry T) :
    this.batchEnvelope.batch.verificationKeyHash = .ok this.metadata.provingVersion.vkHash := by
  have h := this.version_eq
  rw [BatchMetadata.provingVersion] at h
  rw [BatchMetadata.verificationKeyHash, h]
  rfl

end JobEntry

/-! ### Statistics of completed and assigned jobs -/

structure PreviousAttemptsInfo where
  attempts : Nat
  timeSinceLastAssignment : Nat
  lastAssignedTo : String
  deriving DecidableEq

/-- The fields of `JobBatchStats` that more than a log line depends on. -/
structure JobBatchStats where
  totalTxs : Nat
  totalComputationalNativeUsed : Option Nat
  jobWithMaxAttemptsInfo : Option PreviousAttemptsInfo
  deriving DecidableEq

/-- `u64::MAX + 1`, also for `usize`. -/
def u64Bound : Nat := 2 ^ 64

/-- `Iterator::sum` with overflow checks, from the sum so far. -/
def checkedSum : Nat → List Nat → Except String Nat
  | total, [] => .ok total
  | total, value :: values => do
    require (total + value < u64Bound) "attempt to add with overflow"
    checkedSum (total + value) values

/-- `Iterator::sum` of optional values: stops at the first missing one. -/
def checkedSumOptions : Nat → List (Option Nat) → Except String (Option Nat)
  | total, [] => .ok (some total)
  | _, none :: _ => .ok none
  | total, some value :: values => do
    require (total + value < u64Bound) "attempt to add with overflow"
    checkedSumOptions (total + value) values

/-- `Iterator::max_by_key` by the number of attempts: the last one of the greatest. -/
def maxAttempts (infos : List PreviousAttemptsInfo) : Option PreviousAttemptsInfo :=
  infos.foldl (fun best info =>
    match best with
    | none => some info
    | some best => if best.attempts ≤ info.attempts then some info else some best) none

/-- The candidates for `job_with_max_attempts_info`: jobs that are assigned now. -/
def attemptsInfo (now : Nat) (metadata : JobMetadata) : Option PreviousAttemptsInfo :=
  if 0 < metadata.currentAttempt then do
    let assignedAt ← metadata.assignedAt
    let lastAssignedTo ← metadata.assignedToProverId
    return { attempts := metadata.currentAttempt, timeSinceLastAssignment := now - assignedAt, lastAssignedTo }
  else none

def JobBatchStats.new (metadataList : List JobMetadata) (now : Nat) : Except String JobBatchStats := do
  require (metadataList ≠ []) "assertion failed: !metadata_list.is_empty()"
  let totalTxs ← checkedSum 0 (metadataList.map (·.txCount))
  let totalComputationalNativeUsed ← checkedSumOptions 0 (metadataList.map (·.computationalNativeUsed))
  return {
    totalTxs
    totalComputationalNativeUsed
    jobWithMaxAttemptsInfo := maxAttempts (metadataList.filterMap (attemptsInfo now)) }

/-- The Prometheus metrics of `complete_many_jobs`. The proving time is divided by the
number of transactions cast to `u32`; a division by zero panics. -/
def JobBatchStats.recordMetrics (stats : JobBatchStats) (proverId : String) : Except String Unit :=
  match stats.jobWithMaxAttemptsInfo with
  | some info =>
    if info.lastAssignedTo = proverId ∧ 0 < stats.totalTxs then
      require (stats.totalTxs % 2 ^ 32 ≠ 0) "divide by zero error when dividing duration by scalar"
    else .ok ()
  | none => .ok ()

theorem checkedSum_eq_ok {total sum : Nat} {values : List Nat} (hbound : total < u64Bound) :
    checkedSum total values = .ok sum ↔ total + values.sum < u64Bound ∧ sum = total + values.sum := by
  induction values generalizing total with
  | nil => simp [checkedSum, hbound, eq_comm]
  | cons value values ih =>
    simp only [checkedSum, bind_eq_ok, require_eq_ok, exists_const, sum_cons]
    constructor
    · rintro ⟨hlt, h⟩
      have := (ih hlt).mp h
      omega
    · rintro ⟨hlt, rfl⟩
      have hlt' : total + value < u64Bound := by omega
      exact ⟨hlt', (ih hlt').mpr (by omega)⟩

theorem exists_checkedSumOptions_eq_ok {total : Nat} {values : List (Option Nat)} (hbound : total < u64Bound) :
    (∃ sum, checkedSumOptions total values = .ok sum) ↔
      total + (values.takeWhile Option.isSome).reduceOption.sum < u64Bound := by
  induction values generalizing total with
  | nil => simp [checkedSumOptions, hbound]
  | cons value values ih =>
    cases value with
    | none => simp [checkedSumOptions, hbound]
    | some value =>
      simp only [checkedSumOptions, bind_eq_ok, require_eq_ok, exists_const, exists_and_left,
        takeWhile_cons_of_pos (Option.isSome_some), reduceOption_cons_of_some, sum_cons]
      constructor
      · rintro ⟨hlt, h⟩
        have := (ih hlt).mp h
        omega
      · intro hlt
        have hlt' : total + value < u64Bound := by omega
        exact ⟨hlt', (ih hlt').mpr (by omega)⟩

/-- The statistics of the jobs can be computed and recorded: the sums fit, and the number of
transactions is not cast to zero where the prover that completes them was assigned last. -/
structure StatsFit (metadataList : List JobMetadata) (now : Nat) (proverId : String) : Prop where
  txs : (metadataList.map (·.txCount)).sum < u64Bound
  native : ((metadataList.map (·.computationalNativeUsed)).takeWhile Option.isSome).reduceOption.sum < u64Bound
  per_tx : ∀ info ∈ maxAttempts (metadataList.filterMap (attemptsInfo now)), info.lastAssignedTo = proverId →
    0 < (metadataList.map (·.txCount)).sum → (metadataList.map (·.txCount)).sum % 2 ^ 32 ≠ 0

instance (metadataList : List JobMetadata) (now : Nat) (proverId : String) :
    Decidable (StatsFit metadataList now proverId) :=
  decidable_of_iff (_ ∧ _ ∧ _) ⟨fun h => ⟨h.1, h.2.1, h.2.2⟩, fun h => ⟨h.txs, h.native, h.per_tx⟩⟩

theorem JobBatchStats.new_eq_ok {metadataList : List JobMetadata} {now : Nat} {stats : JobBatchStats}
    (h : new metadataList now = .ok stats) :
    stats.totalTxs = (metadataList.map (·.txCount)).sum ∧
      stats.jobWithMaxAttemptsInfo = maxAttempts (metadataList.filterMap (attemptsInfo now)) := by
  simp only [new, bind_eq_ok, require_eq_ok, exists_const, pure_eq_ok] at h
  obtain ⟨-, total, htotal, native, -, rfl⟩ := h
  rw [checkedSum_eq_ok (by decide), Nat.zero_add] at htotal
  exact ⟨htotal.2, rfl⟩

theorem JobBatchStats.exists_new_eq_ok {metadataList : List JobMetadata} {now : Nat} :
    (∃ stats, new metadataList now = .ok stats) ↔ metadataList ≠ [] ∧ (metadataList.map (·.txCount)).sum < u64Bound ∧
        ((metadataList.map (·.computationalNativeUsed)).takeWhile Option.isSome).reduceOption.sum < u64Bound := by
  have hnative := @exists_checkedSumOptions_eq_ok 0 (metadataList.map (·.computationalNativeUsed)) (by decide)
  rw [Nat.zero_add] at hnative
  simp only [new, bind_eq_ok, require_eq_ok, exists_const, pure_eq_ok,
    checkedSum_eq_ok (by decide : 0 < u64Bound), Nat.zero_add]
  constructor
  · rintro ⟨_, hne, _, ⟨htxs, -⟩, native, hn, -⟩
    exact ⟨hne, htxs, hnative.mp ⟨native, hn⟩⟩
  · rintro ⟨hne, htxs, hn⟩
    obtain ⟨native, hn⟩ := hnative.mpr hn
    exact ⟨_, hne, _, ⟨htxs, rfl⟩, native, hn, rfl⟩

/-! ### The map -/

/-- `ProverJobMap`: every job is stored under the number of its batch. -/
structure ProverJobMap (T : Type) where
  jobs : Std.ExtTreeMap Nat (JobEntry T) compare
  assignmentTimeout : Nat
  maxAssignedBatchRange : Nat
  keyed : ∀ (n : Nat) (entry : JobEntry T), jobs[n]? = some entry → entry.metadata.batchNumber = n

structure FriJob where
  batchNumber : Nat
  vkHash : String
  deriving DecidableEq

namespace ProverJobMap

variable {T : Type}

def new (assignmentTimeout maxAssignedBatchRange : Nat) : ProverJobMap T :=
  { jobs := ∅, assignmentTimeout, maxAssignedBatchRange, keyed := by simp }

variable (this : ProverJobMap T)

def isQueueFull : Bool :=
  match this.jobs.keys.head?, this.jobs.keys.getLast? with
  | some min, some max => decide (this.maxAssignedBatchRange ≤ max - min)
  | _, _ => false

def insert (this : ProverJobMap T) (entry : JobEntry T) : ProverJobMap T :=
  { this with
    jobs := this.jobs.insert entry.metadata.batchNumber entry
    keyed := by
      intro n e h
      rw [SortedMap.getElem?_insert] at h
      split at h
      · cases h
        symm
        assumption
      · exact this.keyed n e h }

/-- One turn of `add_job` from taking the lock: it waits (`none`) while the queue is full. -/
def addJob (batchEnvelope : SignedBatchEnvelope T) (now : Nat) :
    Except String (Option (ProverJobMap T)) :=
  if this.isQueueFull then .ok none
  else do
    let entry ← JobEntry.newFromBatch batchEnvelope now
    return some (this.insert entry)

def isJobEligible (alreadySelectedJobs : List (JobEntry T)) (nextJobEntry : JobEntry T)
    (now limit : Nat) (predicate : JobEntry T → Bool) : Bool :=
  if limit ≤ alreadySelectedJobs.length then false
  else if (nextJobEntry.metadata.assignedAt.any fun assignedAt => now - assignedAt < this.assignmentTimeout)
    then false
  else if !predicate nextJobEntry then false
  else
    match alreadySelectedJobs.getLast? with
    | none => true
    | some last =>
      last.metadata.batchNumber + 1 == nextJobEntry.metadata.batchNumber
        && nextJobEntry.metadata.provingVersion == last.metadata.provingVersion

/-- The loop of `pick_jobs_while_with_limit` over the entries in order: the jobs it selects. -/
def selectJobs (this : ProverJobMap T) (now limit : Nat) (predicate : JobEntry T → Bool) (proverId : String) :
    List (JobEntry T) → List (JobEntry T) → List (JobEntry T)
  | selectedJobs, [] => selectedJobs
  | selectedJobs, entry :: entries =>
    if this.isJobEligible selectedJobs entry now limit predicate then
      this.selectJobs now limit predicate proverId (selectedJobs ++ [entry.assign now proverId]) entries
    -- A job after a gap cannot be added to the selected ones.
    else if selectedJobs.isEmpty then this.selectJobs now limit predicate proverId selectedJobs entries
    else selectedJobs

/-- The entries with the given numbers are assigned, in place. -/
def assignJobs (numbers : List Nat) (now : Nat) (proverId : String) : ProverJobMap T :=
  { this with
    jobs := this.jobs.map fun n entry => if n ∈ numbers then entry.assign now proverId else entry
    keyed := by
      intro n e h
      rw [Std.ExtTreeMap.getElem?_map, Option.map_eq_some_iff] at h
      obtain ⟨entry, hentry, rfl⟩ := h
      have hn := this.keyed n entry hentry
      split
      · exact hn
      · exact hn }

def pickJobsWhileWithLimit (now limit : Nat) (proverId : String)
    (predicate : JobEntry T → Bool) : ProverJobMap T × Except String (List (FriJob × T)) :=
  let selectedJobs := this.selectJobs now limit predicate proverId [] this.jobs.values
  (this.assignJobs (selectedJobs.map (·.metadata.batchNumber)) now proverId,
    if selectedJobs.isEmpty then .ok []
    else do
      let _ ← JobBatchStats.new (selectedJobs.map (·.metadata)) now
      return selectedJobs.map fun entry =>
        (⟨entry.metadata.batchNumber, entry.metadata.provingVersion.vkHash⟩, entry.batchEnvelope.data))

def pickJob (now minAge : Nat) (proverId : String) (predicate : JobEntry T → Bool) :
    ProverJobMap T × Except String (Option (FriJob × T)) :=
  let (this, result) := this.pickJobsWhileWithLimit now 1 proverId fun entry =>
    decide (minAge ≤ now - entry.metadata.addedAt) && predicate entry
  (this, List.getLast? <$> result)

def hasAssignableJob (now : Nat) (predicate : JobEntry T → Bool) : Bool :=
  this.jobs.values.any fun entry => this.isJobEligible [] entry now 1 predicate

def unassignJob (batchNumber : Nat) (proverId : String) : ProverJobMap T :=
  { this with
    jobs := this.jobs.modify batchNumber fun entry =>
      if entry.metadata.assignedToProverId = some proverId then entry.unassign else entry
    keyed := by
      intro n e h
      rw [Std.ExtTreeMap.getElem?_modify] at h
      split at h
      next hn =>
        rw [compare_eq_iff_eq] at hn
        subst hn
        rw [Option.map_eq_some_iff] at h
        obtain ⟨entry, hentry, rfl⟩ := h
        have hn := this.keyed _ entry hentry
        split
        · exact hn
        · exact hn
      · exact this.keyed n e h }

def getJobBatchMetadata (batchNumber : Nat) : Option BatchMetadata :=
  this.jobs[batchNumber]?.map (·.batchEnvelope.batch)

def batchRange (batchNumberFrom batchNumberTo : Nat) : List Nat :=
  List.range' batchNumberFrom (batchNumberTo + 1 - batchNumberFrom)

def remove (numbers : List Nat) : ProverJobMap T :=
  { this with
    jobs := numbers.foldl (fun jobs n => jobs.erase n) this.jobs
    keyed := by
      intro n e h
      rw [SortedMap.getElem?_foldl_erase] at h
      split at h
      · cases h
      · exact this.keyed n e h }

/-- What `complete_many_jobs` logs and records once it has removed the jobs. -/
def recordCompletion (completed : List (JobEntry T)) (now : Nat) (proverId : String) : Except String Unit := do
  let stats ← JobBatchStats.new (completed.map (·.metadata)) now
  stats.recordMetrics proverId

theorem recordCompletion_eq_ok {completed : List (JobEntry T)} {now : Nat} {proverId : String} :
    recordCompletion completed now proverId = .ok () ↔
      completed ≠ [] ∧ StatsFit (completed.map (·.metadata)) now proverId := by
  have hne : completed.map (·.metadata) ≠ [] ↔ completed ≠ [] := by simp
  rw [recordCompletion, bind_eq_ok, ← hne]
  constructor
  · rintro ⟨stats, hstats, hrecord⟩
    obtain ⟨hne, htxs, hnative⟩ := JobBatchStats.exists_new_eq_ok.mp ⟨stats, hstats⟩
    obtain ⟨htotal, hinfo⟩ := JobBatchStats.new_eq_ok hstats
    refine ⟨hne, htxs, hnative, fun info hmem hlast hpos => ?_⟩
    rw [← htotal] at hpos ⊢
    rw [JobBatchStats.recordMetrics, hinfo, Option.mem_def.mp hmem] at hrecord
    simpa [hlast, hpos] using hrecord
  · rintro ⟨hne, hfit⟩
    obtain ⟨stats, hstats⟩ := JobBatchStats.exists_new_eq_ok.mpr ⟨hne, hfit.txs, hfit.native⟩
    obtain ⟨htotal, hinfo⟩ := JobBatchStats.new_eq_ok hstats
    refine ⟨stats, hstats, ?_⟩
    rw [JobBatchStats.recordMetrics]
    split
    next info hsome =>
      split
      next hlast =>
        rw [require_eq_ok, htotal]
        exact hfit.per_tx info (hinfo.symm.trans hsome) hlast.1 (htotal ▸ hlast.2)
      · rfl
    · rfl

/-- `complete_many_jobs`. The jobs are removed before their statistics are computed. -/
def completeManyJobs (batchNumberFrom batchNumberTo : Nat) (now : Nat) (proverId : String) :
    ProverJobMap T × Except String (Option (List (SignedBatchEnvelope T))) :=
  let numbers := batchRange batchNumberFrom batchNumberTo
  if numbers.all (this.jobs.contains ·) then
    let completed := numbers.filterMap (this.jobs[·]?)
    (this.remove numbers, do
      recordCompletion completed now proverId
      return some (completed.map (·.batchEnvelope)))
  else (this, .ok none)

def completeJob (batchNumber now : Nat) (proverId : String) :
    ProverJobMap T × Except String (Option (SignedBatchEnvelope T)) :=
  let (this, result) := this.completeManyJobs batchNumber batchNumber now proverId
  (this, (·.bind List.getLast?) <$> result)

/-! ### The set of jobs after each method -/

section Membership
variable (this : ProverJobMap T) {n : Nat}

@[simp] theorem mem_insert {entry : JobEntry T} :
    n ∈ (this.insert entry).jobs ↔ n = entry.metadata.batchNumber ∨ n ∈ this.jobs := by
  rw [insert, Std.ExtTreeMap.mem_insert, compare_eq_iff_eq, eq_comm]

variable {now : Nat} {proverId : String}

@[simp] theorem mem_assignJobs {numbers : List Nat} :
    n ∈ (this.assignJobs numbers now proverId).jobs ↔ n ∈ this.jobs := by
  simp [assignJobs]

@[simp] theorem mem_unassignJob {batchNumber : Nat} :
    n ∈ (this.unassignJob batchNumber proverId).jobs ↔ n ∈ this.jobs :=
  Std.ExtTreeMap.mem_modify

@[simp] theorem mem_remove {numbers : List Nat} : n ∈ (this.remove numbers).jobs ↔ n ∉ numbers ∧ n ∈ this.jobs := by
  simp only [remove, Std.ExtTreeMap.mem_iff_isSome_getElem?, SortedMap.getElem?_foldl_erase]
  split <;> simp_all

@[simp] theorem mem_pickJobsWhileWithLimit {limit : Nat} {predicate : JobEntry T → Bool} :
    n ∈ (this.pickJobsWhileWithLimit now limit proverId predicate).1.jobs ↔ n ∈ this.jobs :=
  this.mem_assignJobs

@[simp] theorem mem_pickJob {minAge : Nat} {predicate : JobEntry T → Bool} :
    n ∈ (this.pickJob now minAge proverId predicate).1.jobs ↔ n ∈ this.jobs :=
  this.mem_pickJobsWhileWithLimit

theorem mem_batchRange {first last : Nat} : n ∈ batchRange first last ↔ first ≤ n ∧ n ≤ last := by
  rw [batchRange, mem_range'_1]
  omega

theorem addJob_cases (batchEnvelope : SignedBatchEnvelope T) (now : Nat) :
    this.isQueueFull = true ∧ this.addJob batchEnvelope now = .ok none ∨
      (∃ message, JobEntry.newFromBatch batchEnvelope now = .error message ∧
        this.addJob batchEnvelope now = .error message) ∨
      this.isQueueFull = false ∧ ∃ entry, JobEntry.newFromBatch batchEnvelope now = .ok entry ∧
        this.addJob batchEnvelope now = .ok (some (this.insert entry)) := by
  rw [addJob]
  cases hfull : this.isQueueFull with
  | true => exact .inl ⟨rfl, if_pos rfl⟩
  | false =>
    rw [if_neg Bool.false_ne_true]
    cases hentry : JobEntry.newFromBatch batchEnvelope now with
    | error message => exact .inr (.inl ⟨message, rfl, rfl⟩)
    | ok entry => exact .inr (.inr ⟨rfl, entry, rfl, rfl⟩)

end Membership

/-! ### The ends of the queue -/

section Ends
variable {this : ProverJobMap T}

theorem of_head? {min : Nat} (h : min ∈ this.jobs.keys.head?) : min ∈ this.jobs ∧ ∀ n ∈ this.jobs, min ≤ n := by
  obtain ⟨rest, hkeys⟩ := head?_eq_some_iff.mp h
  have hsorted := SortedMap.keys_pairwise this.jobs
  rw [hkeys, pairwise_cons] at hsorted
  simp only [← Std.ExtTreeMap.mem_keys, hkeys, mem_cons]
  refine ⟨.inl trivial, ?_⟩
  rintro n (rfl | hn)
  · exact le_rfl
  · exact (hsorted.1 n hn).le

theorem of_getLast? {max : Nat} (h : max ∈ this.jobs.keys.getLast?) : max ∈ this.jobs ∧ ∀ n ∈ this.jobs, n ≤ max := by
  obtain ⟨rest, hkeys⟩ := getLast?_eq_some_iff.mp h
  have hsorted := SortedMap.keys_pairwise this.jobs
  rw [hkeys, pairwise_append] at hsorted
  simp only [← Std.ExtTreeMap.mem_keys, hkeys, mem_append, mem_singleton]
  refine ⟨.inr trivial, ?_⟩
  rintro n (hn | rfl)
  · exact (hsorted.2.2 n hn max (mem_singleton.mpr rfl)).le
  · exact le_rfl

theorem exists_ends {n : Nat} (h : n ∈ this.jobs) :
    ∃ min ∈ this.jobs.keys.head?, ∃ max ∈ this.jobs.keys.getLast?, True := by
  have hne : this.jobs.keys ≠ [] := ne_nil_of_mem (Std.ExtTreeMap.mem_keys.mpr h)
  exact ⟨_, head?_eq_some_head hne, _, getLast?_eq_some_getLast hne, trivial⟩

theorem lt_of_not_full (hfull : this.isQueueFull = false) {a b : Nat} (ha : a ∈ this.jobs) (hb : b ∈ this.jobs) :
    b < a + this.maxAssignedBatchRange := by
  obtain ⟨min, hmin, max, hmax, -⟩ := exists_ends ha
  have hspan : max - min < this.maxAssignedBatchRange := by
    rw [isQueueFull, Option.mem_def.mp hmin, Option.mem_def.mp hmax] at hfull
    simpa using hfull
  have hle := (of_head? hmin).2 a ha
  have hge := (of_getLast? hmax).2 b hb
  omega

end Ends

section Completion
variable (this : ProverJobMap T) (batchNumberFrom batchNumberTo now : Nat) (proverId : String)

/-- The entries that `complete_many_jobs` removes. -/
def completed : List (JobEntry T) := (batchRange batchNumberFrom batchNumberTo).filterMap (this.jobs[·]?)

variable {batchNumberFrom batchNumberTo}

theorem completeManyJobs_of_mem (h : ∀ n ∈ batchRange batchNumberFrom batchNumberTo, n ∈ this.jobs) :
    this.completeManyJobs batchNumberFrom batchNumberTo now proverId =
      (this.remove (batchRange batchNumberFrom batchNumberTo), do
        recordCompletion (this.completed batchNumberFrom batchNumberTo) now proverId
        return some ((this.completed batchNumberFrom batchNumberTo).map (·.batchEnvelope))) := by
  rw [completeManyJobs, if_pos (all_eq_true.mpr h)]
  rfl

theorem completeManyJobs_of_not_mem {n : Nat} (hn : n ∈ batchRange batchNumberFrom batchNumberTo) (h : n ∉ this.jobs) :
    this.completeManyJobs batchNumberFrom batchNumberTo now proverId = (this, .ok none) := by
  rw [completeManyJobs, if_neg]
  intro hall
  exact h (all_eq_true.mp hall n hn)

variable {now proverId}

theorem maxAssignedBatchRange_completeManyJobs :
    (this.completeManyJobs batchNumberFrom batchNumberTo now proverId).1.maxAssignedBatchRange =
      this.maxAssignedBatchRange := by
  rw [completeManyJobs]
  split <;> rfl

theorem mem_completeManyJobs {n : Nat}
    (h : n ∈ (this.completeManyJobs batchNumberFrom batchNumberTo now proverId).1.jobs) : n ∈ this.jobs := by
  rw [completeManyJobs] at h
  split at h
  · exact (this.mem_remove.mp h).2
  · exact h

theorem batchNumber_completed (h : ∀ n ∈ batchRange batchNumberFrom batchNumberTo, n ∈ this.jobs) :
    (this.completed batchNumberFrom batchNumberTo).map (·.batchEnvelope.batchNumber) =
      batchRange batchNumberFrom batchNumberTo := by
  rw [completed, map_filterMap]
  refine (filterMap_congr fun n hn => ?_).trans filterMap_some
  obtain ⟨entry, hentry⟩ := Option.isSome_iff_exists.mp (Std.ExtTreeMap.mem_iff_isSome_getElem?.mp (h n hn))
  rw [hentry, Option.map_some, ← entry.number_eq, this.keyed n entry hentry]

end Completion

end ProverJobMap

end ProverApi
