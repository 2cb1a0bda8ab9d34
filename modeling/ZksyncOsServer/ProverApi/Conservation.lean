import ZksyncOsServer.ProverApi.JobManagers

/-!
# No batch is lost or sent twice

What the job managers are for, on batch numbers alone: a batch is added once, waits,
and is handed on once. Every turn of the FRI and of the SNARK manager is a step of the
board that both have, and so a move of this ledger. Completed jobs are removed before
their statistics are computed and sent after it; the statistics of the batches that the
batcher seals fit, since the queue never holds more of them than its range allows.
-/
namespace ProverApi

open Fallible List ProverJobMap
open Tasks (Event Pool Progress Program)

/-! ### The ledger -/

structure Ledger where
  added : List Nat
  waiting : Set Nat
  sent : List Nat

namespace Ledger

/-- A batch that was added waits, or was sent exactly once, and never both; no other batch
appears. -/
def Conserved (l : Ledger) : Prop :=
  ∀ n, (n ∈ l.added → n ∈ l.waiting ∧ l.sent.count n = 0 ∨ n ∉ l.waiting ∧ l.sent.count n = 1) ∧
    (n ∉ l.added → n ∉ l.waiting ∧ l.sent.count n = 0)

inductive Move : Ledger → Ledger → Prop where
  | stay (l : Ledger) : Move l l
  | add (l : Ledger) {n : Nat} (fresh : n ∉ l.added) :
    Move l { l with added := l.added ++ [n], waiting := insert n l.waiting }
  | send (l : Ledger) {ns : List Nat} (nodup : ns.Nodup) (waiting : ∀ n ∈ ns, n ∈ l.waiting) :
    Move l { l with waiting := l.waiting \ {n | n ∈ ns}, sent := l.sent ++ ns }

theorem Conserved.empty : Conserved ⟨[], ∅, []⟩ := by
  intro n
  simp

theorem Conserved.move {l l' : Ledger} (h : l.Conserved) (hm : Move l l') : l'.Conserved := by
  intro n
  obtain ⟨hin, hout⟩ := h n
  cases hm with
  | stay => exact ⟨hin, hout⟩
  | @add m fresh =>
    by_cases hn : n = m
    · subst hn
      simp [(hout fresh).2]
    · simpa [hn] using h n
  | @send ns nodup waiting =>
    by_cases hn : n ∈ ns
    · have hwait := waiting n hn
      have hadded : n ∈ l.added := by
        by_contra hna
        exact (hout hna).1 hwait
      have hcount : l.sent.count n = 0 := by
        obtain h | h := hin hadded
        · exact h.2
        · exact absurd hwait h.1
      simp [hadded, hn, hcount, List.count_eq_one_of_mem nodup hn]
    · simpa [hn, List.count_eq_zero_of_not_mem hn] using h n

variable {l l' : Ledger}

theorem Move.waiting_eq (h : Move l l') (hadded : l'.added = l.added) (hsent : l'.sent = l.sent) :
    l'.waiting = l.waiting := by
  cases h with
  | stay => rfl
  | add fresh => simp at hadded
  | @send ns nodup waiting =>
    have hns : ns = [] := by simpa using hsent
    simp [hns]

end Ledger

/-! ### The load of the queue -/

/-- Bounds on a sealed batch, which the batcher's limits on transactions and native resources and
those of a single block give, such that the statistics of a full queue fit. -/
structure BatchLimits (range : Nat) where
  txs : Nat
  native : Nat
  txs_fit : (range + 1) * txs < 2 ^ 32
  native_fit : (range + 1) * native < u64Bound

def BatchLimits.Allows {range : Nat} (limits : BatchLimits range) (load : Nat × Option Nat) : Prop :=
  load.1 ≤ limits.txs ∧ ∀ used ∈ load.2, used ≤ limits.native
  deriving Decidable

namespace ProverJobMap

variable {T : Type} (this : ProverJobMap T)

/-- The batches that wait for a proof. -/
def waiting : Set Nat := {n | n ∈ this.jobs}

theorem waiting_insert (entry : JobEntry T) :
    (this.insert entry).waiting = Insert.insert entry.batchEnvelope.batchNumber this.waiting := by
  ext n
  simp [waiting, ← entry.number_eq]

theorem waiting_remove (numbers : List Nat) : (this.remove numbers).waiting = this.waiting \ {n | n ∈ numbers} := by
  ext n
  simp [waiting, and_comm]

structure SameJobs (this this' : ProverJobMap T) : Prop where
  range_eq : this'.maxAssignedBatchRange = this.maxAssignedBatchRange
  loads : ∀ n : Nat, this'.jobs[n]?.map JobEntry.load = this.jobs[n]?.map JobEntry.load

theorem SameJobs.refl : this.SameJobs this := ⟨rfl, fun _ => rfl⟩

theorem sameJobs_assignJobs (numbers : List Nat) (now : Nat) (proverId : String) :
    this.SameJobs (this.assignJobs numbers now proverId) := by
  refine ⟨rfl, fun n => ?_⟩
  rw [assignJobs, Std.ExtTreeMap.getElem?_map, Option.map_map]
  refine congrArg (Option.map · _) (funext fun entry => ?_)
  dsimp only [Function.comp_apply]
  split <;> rfl

theorem sameJobs_unassignJob (batchNumber : Nat) (proverId : String) :
    this.SameJobs (this.unassignJob batchNumber proverId) := by
  refine ⟨rfl, fun n => ?_⟩
  rw [unassignJob, Std.ExtTreeMap.getElem?_modify]
  split
  next hn =>
    obtain rfl := compare_eq_iff_eq.mp hn
    rw [Option.map_map]
    refine congrArg (Option.map · _) (funext fun entry => ?_)
    dsimp only [Function.comp_apply]
    split <;> rfl
  next => rfl

variable {this} {this' : ProverJobMap T}

theorem SameJobs.waiting_eq (h : this.SameJobs this') : this'.waiting = this.waiting := by
  ext n
  have hsome := congrArg Option.isSome (h.loads n)
  simp only [Option.isSome_map] at hsome
  simp only [waiting, Set.mem_ofPred_eq, Std.ExtTreeMap.mem_iff_isSome_getElem?, hsome]

/-- The jobs are within the limits, and a run of consecutive ones is within the range. -/
structure Within {range : Nat} (limits : BatchLimits range) (this : ProverJobMap T) : Prop where
  range_eq : this.maxAssignedBatchRange = range
  allowed : ∀ (n : Nat) (entry : JobEntry T), this.jobs[n]? = some entry → limits.Allows entry.load
  runs : ∀ first last, (∀ n ∈ batchRange first last, n ∈ this.jobs) → last ≤ first + range

section Within
variable {range : Nat} {limits : BatchLimits range}

theorem Within.new (assignmentTimeout : Nat) : Within limits (new assignmentTimeout range : ProverJobMap T) := by
  refine ⟨rfl, by simp [ProverJobMap.new], fun first last h => ?_⟩
  by_contra hlt
  simpa [ProverJobMap.new] using h first (mem_batchRange.mpr (by omega))

theorem Within.same (h : this.Within limits) (hsame : this.SameJobs this') : this'.Within limits := by
  refine ⟨hsame.range_eq.trans h.range_eq, fun n entry hentry => ?_, fun first last hmem => h.runs first last ?_⟩
  · have hload := hsame.loads n
    rw [hentry, Option.map_some, eq_comm, Option.map_eq_some_iff] at hload
    obtain ⟨old, hold, heq⟩ := hload
    exact heq ▸ h.allowed n old hold
  · intro n hn
    exact (Set.ext_iff.mp hsame.waiting_eq n).mp (hmem n hn)

theorem Within.insert {entry : JobEntry T} (h : this.Within limits) (hfull : this.isQueueFull = false)
    (hload : limits.Allows entry.load) : (this.insert entry).Within limits := by
  refine ⟨h.range_eq, fun n e he => ?_, fun first last hmem => ?_⟩
  · rw [ProverJobMap.insert, SortedMap.getElem?_insert] at he
    split at he
    · exact Option.some.inj he ▸ hload
    · exact h.allowed n e he
  · by_contra hlt
    have hold : ∀ n, first ≤ n → n ≤ last → n ≠ entry.metadata.batchNumber → n ∈ this.jobs := fun n hge hle hne =>
      (this.mem_insert.mp (hmem n (mem_batchRange.mpr ⟨hge, hle⟩))).resolve_left hne
    -- the run without the new batch was there while the queue was not full
    have hspan : ∀ a b, a ∈ this.jobs → b ∈ this.jobs → b < a + range := fun a b ha hb =>
      h.range_eq ▸ lt_of_not_full hfull ha hb
    by_cases hfirst : first = entry.metadata.batchNumber
    · have := hspan (first + 1) last (hold _ (by omega) (by omega) (by omega)) (hold _ (by omega) (by omega) (by omega))
      omega
    · have hlow := hold first (by omega) (by omega) hfirst
      by_cases hlast : last = entry.metadata.batchNumber
      · have := hspan first (last - 1) hlow (hold _ (by omega) (by omega) (by omega))
        omega
      · have := hspan first last hlow (hold _ (by omega) (by omega) hlast)
        omega

theorem Within.remove (h : this.Within limits) (numbers : List Nat) : (this.remove numbers).Within limits := by
  refine ⟨h.range_eq, fun n entry hentry => ?_, fun first last hmem => h.runs first last fun n hn => ?_⟩
  · rw [ProverJobMap.remove, SortedMap.getElem?_foldl_erase] at hentry
    split at hentry
    · cases hentry
    · exact h.allowed n entry hentry
  · exact (this.mem_remove.mp (hmem n hn)).2

variable {first last now : Nat} {proverId : String}

theorem Within.statsFit (h : this.Within limits) (hmem : ∀ n ∈ batchRange first last, n ∈ this.jobs) :
    StatsFit ((this.completed first last).map (·.metadata)) now proverId := by
  have hlength : (this.completed first last).length ≤ range + 1 := by
    have hnumbers := congrArg length (this.batchNumber_completed hmem)
    have hrun := h.runs first last hmem
    rw [length_map, batchRange, length_range'] at hnumbers
    omega
  have hallowed : ∀ entry ∈ this.completed first last, limits.Allows entry.load := fun entry hentry => by
    obtain ⟨n, -, hn⟩ := mem_filterMap.mp hentry
    exact h.allowed n entry hn
  have htxs : (((this.completed first last).map (·.metadata)).map (·.txCount)).sum < 2 ^ 32 := by
    refine Nat.lt_of_le_of_lt ((sum_le_card_nsmul _ limits.txs ?_).trans ?_) limits.txs_fit
    · simp only [map_map, mem_map, Function.comp_apply]
      rintro _ ⟨entry, hentry, rfl⟩
      exact (hallowed entry hentry).1
    · simpa using Nat.mul_le_mul_right limits.txs hlength
  refine ⟨htxs.trans (by decide), ?_, fun _ _ _ hpos => by rw [Nat.mod_eq_of_lt htxs]; omega⟩
  refine Nat.lt_of_le_of_lt ((sum_le_card_nsmul _ limits.native ?_).trans ?_) limits.native_fit
  · intro used hused
    have hin := (takeWhile_sublist _).subset (reduceOption_mem_iff.mp hused)
    simp only [map_map, mem_map, Function.comp_apply] at hin
    obtain ⟨entry, hentry, hnative⟩ := hin
    exact (hallowed entry hentry).2 used hnative
  · refine Nat.mul_le_mul_right limits.native ((reduceOption_length_le _).trans ?_)
    exact ((takeWhile_sublist _).length_le.trans (by simp)).trans hlength

end Within

end ProverJobMap

/-! ### The board -/

/-- What both managers have: the jobs, the batches whose `add_job` has returned and those sent downstream. -/
structure Board (T : Type) where
  jobs : ProverJobMap T
  added : List Nat
  sent : List Nat

namespace Board

variable {T : Type} (b : Board T)

def ledger : Ledger := ⟨b.added, b.jobs.waiting, b.sent⟩

def accepts (batchEnvelope : SignedBatchEnvelope T) : Bool :=
  !b.jobs.isQueueFull && batchEnvelope.batch.provingVersion.toBool

/-- What a turn of a task can do, which is one of `add_job` if `adding` is its batch. -/
inductive Step (b : Board T) (adding : Option (SignedBatchEnvelope T)) : Board T → Prop → Prop
  | keep {jobs : ProverJobMap T} {fails : Prop} (hnone : adding.filter b.accepts = none)
      (hsame : b.jobs.SameJobs jobs) : Step b adding { b with jobs } fails
  | add {batchEnvelope : SignedBatchEnvelope T} {now : Nat} {entry : JobEntry T} (hadding : adding = some batchEnvelope)
      (hfull : b.jobs.isQueueFull = false) (hentry : JobEntry.newFromBatch batchEnvelope now = .ok entry) :
      Step b adding { b with jobs := b.jobs.insert entry, added := b.added ++ [batchEnvelope.batchNumber] } False
  | panic {first last now : Nat} {proverId : String} {fails : Prop} (hadding : adding = none)
      (hmem : ∀ n ∈ batchRange first last, n ∈ b.jobs.jobs)
      (hrecord : recordCompletion (b.jobs.completed first last) now proverId ≠ .ok ()) :
      Step b adding { b with jobs := b.jobs.remove (batchRange first last) } fails
  | send {first last : Nat} {fails : Prop} (hadding : adding = none) (hfails : ¬fails)
      (hmem : ∀ n ∈ batchRange first last, n ∈ b.jobs.jobs) :
      Step b adding ⟨b.jobs.remove (batchRange first last), b.added, b.sent ++ batchRange first last⟩ fails

/-- `add_job` is called for distinct batches within the limits. -/
def Allowed {range : Nat} (limits : BatchLimits range) (adding : Option (SignedBatchEnvelope T)) : Prop :=
  ∀ batchEnvelope ∈ adding, batchEnvelope.batchNumber ∉ b.added ∧
    limits.Allows (batchEnvelope.batch.txCount, batchEnvelope.batch.computationalNativeUsed)

instance decidableAllowed {range : Nat} (limits : BatchLimits range) (adding : Option (SignedBatchEnvelope T)) :
    Decidable (b.Allowed limits adding) := by
  unfold Allowed
  infer_instance

variable {b} {adding : Option (SignedBatchEnvelope T)} {b' : Board T} {fails : Prop}

theorem Step.stay (h : adding.filter b.accepts = none) : b.Step adding b fails := .keep h (.refl _)

section Methods
variable {batchEnvelope : SignedBatchEnvelope T} {batches : List (SignedBatchEnvelope T)} {first last now : Nat} {proverId : String} {jobs : ProverJobMap T}

theorem accepts_eq (b : Board T) (batchEnvelope : SignedBatchEnvelope T) (now : Nat) :
    b.accepts batchEnvelope = (!b.jobs.isQueueFull && (JobEntry.newFromBatch batchEnvelope now).toBool) := by
  rw [accepts, JobEntry.toBool_newFromBatch]

theorem Step.of_addJob (h : b.jobs.addJob batchEnvelope now = .ok (some jobs)) :
    b.Step (some batchEnvelope) { b with jobs, added := b.added ++ [batchEnvelope.batchNumber] } False := by
  obtain ⟨-, h'⟩ | ⟨message, -, h'⟩ | ⟨hfull, entry, hentry, h'⟩ := b.jobs.addJob_cases batchEnvelope now
  · cases h'.symm.trans h
  · cases h'.symm.trans h
  · cases h'.symm.trans h
    exact .add rfl hfull hentry

variable (now) in
theorem Step.of_not_addJob (h : ∀ jobs, b.jobs.addJob batchEnvelope now ≠ .ok (some jobs)) :
    b.Step (some batchEnvelope) b fails := by
  refine .stay ?_
  rw [Option.filter_eq_none_iff]
  rintro _ ⟨⟩
  rw [b.accepts_eq batchEnvelope now]
  obtain ⟨hfull, -⟩ | ⟨message, hentry, -⟩ | ⟨-, entry, -, h'⟩ := b.jobs.addJob_cases batchEnvelope now
  · simp [hfull]
  · simp [hentry, Except.toBool]
  · exact absurd h' (h _)

theorem Step.of_complete (h : b.jobs.completeManyJobs first last now proverId = (jobs, .ok (some batches))) :
    batches ≠ [] ∧ batches.map (·.batchNumber) = batchRange first last ∧ ∀ fails, ¬fails →
      b.Step none { b with jobs, sent := b.sent ++ batchRange first last } fails := by
  by_cases hmem : ∀ n ∈ batchRange first last, n ∈ b.jobs.jobs
  · rw [b.jobs.completeManyJobs_of_mem now proverId hmem, Prod.mk.injEq] at h
    obtain ⟨rfl, h⟩ := h
    rw [bind_eq_ok] at h
    obtain ⟨_, hrecord, h⟩ := h
    cases h
    refine ⟨by simpa using (recordCompletion_eq_ok.mp hrecord).1, ?_, fun _ hfails => .send rfl hfails hmem⟩
    rw [map_map]
    exact b.jobs.batchNumber_completed hmem
  · push Not at hmem
    obtain ⟨n, hrange, hn⟩ := hmem
    rw [b.jobs.completeManyJobs_of_not_mem now proverId hrange hn] at h
    cases h

theorem Step.of_not_complete {result : Except String (Option (List (SignedBatchEnvelope T)))}
    (h : b.jobs.completeManyJobs first last now proverId = (jobs, result))
    (hresult : ∀ batches, result ≠ .ok (some batches)) : b.Step none { b with jobs } fails := by
  by_cases hmem : ∀ n ∈ batchRange first last, n ∈ b.jobs.jobs
  · rw [b.jobs.completeManyJobs_of_mem now proverId hmem, Prod.mk.injEq] at h
    obtain ⟨rfl, rfl⟩ := h
    exact .panic rfl hmem fun hrecord => hresult _ (by rw [hrecord]; rfl)
  · push Not at hmem
    obtain ⟨n, hrange, hn⟩ := hmem
    rw [b.jobs.completeManyJobs_of_not_mem now proverId hrange hn, Prod.mk.injEq] at h
    obtain ⟨rfl, -⟩ := h
    exact .stay rfl

end Methods

theorem Step.added_eq (h : b.Step adding b' fails) :
    b'.added = b.added ++ (adding.filter b.accepts).toList.map (·.batchNumber) := by
  cases h with
  | keep hnone hsame => simp [hnone]
  | @add batchEnvelope now entry hadding hfull hentry =>
    have haccepts : b.accepts batchEnvelope = true := by
      rw [b.accepts_eq batchEnvelope now, hfull, hentry]
      rfl
    simp [hadding, Option.filter_some, haccepts]
  | panic hadding hmem hrecord => simp [hadding]
  | send hadding hfails hmem => simp [hadding]

/-- Within the limits, a step is a move of the ledger, and one that fails leaves it as it is. -/
theorem Step.move {range : Nat} {limits : BatchLimits range} (h : b.Step adding b' fails) (hwithin : b.jobs.Within limits)
    (hallowed : b.Allowed limits adding) :
    b.ledger.Move b'.ledger ∧ (fails → b'.ledger = b.ledger) ∧ b'.jobs.Within limits := by
  have hstay : b'.ledger = b.ledger → b.ledger.Move b'.ledger ∧ (fails → b'.ledger = b.ledger) :=
    fun heq => ⟨heq ▸ .stay _, fun _ => heq⟩
  rw [← and_assoc]
  cases h with
  | keep hnone hsame => exact ⟨hstay (by simp only [ledger, hsame.waiting_eq]), hwithin.same hsame⟩
  | @add batchEnvelope now entry hadding hfull hentry =>
    obtain ⟨rfl, hload⟩ := JobEntry.newFromBatch_eq_ok hentry
    obtain ⟨hfresh, hlimits⟩ := hallowed entry.batchEnvelope hadding
    refine ⟨⟨?_, nofun⟩, hwithin.insert hfull (hload ▸ hlimits)⟩
    simpa [ledger, waiting_insert] using Ledger.Move.add b.ledger hfresh
  | @panic first last now proverId _ hadding hmem hrecord =>
    -- only the statistics of no job at all cannot be computed
    have hrange : batchRange first last = [] := by
      rw [← b.jobs.batchNumber_completed hmem, map_eq_nil_iff]
      by_contra hne
      exact hrecord (recordCompletion_eq_ok.mpr ⟨hne, hwithin.statsFit hmem⟩)
    exact ⟨hstay (by simp [ledger, waiting_remove, hrange]), hwithin.remove _⟩
  | @send first last _ hadding hfails hmem =>
    have hnodup : (batchRange first last).Nodup := nodup_range'
    refine ⟨⟨?_, fun hf => absurd hf hfails⟩, hwithin.remove _⟩
    simpa [ledger, waiting_remove] using Ledger.Move.send b.ledger hnodup hmem

end Board

/-! ### Programs over a board -/

/-- A turn that ends in a panic or an error. -/
def Fails {τ ε α : Type} : Progress τ (Except String (Except ε α)) → Prop
  | .finished (.error _) | .finished (.ok (.error _)) => True
  | _ => False

section Runs
variable {σ κ τ ι ε α T : Type} {range : Nat} (program : Program σ κ τ ι (Except String (Except ε α)))
  (board : σ → Board T) (adding : τ → Option (SignedBatchEnvelope T)) (limits : BatchLimits range)

/-- The turns of the runs considered. -/
def Allowed (s : σ) (task : τ) (_ : ι) : Prop := (board s).Allowed limits (adding task)

instance decidableAllowed (s : σ) (task : τ) (input : ι) : Decidable (Allowed board adding limits s task input) :=
  Board.decidableAllowed (board s) limits (adding task)

/-- A turn that fails, or that sends nothing and is not one of `add_job`, leaves the set of
jobs as it is. -/
def KeepsJobs (s : σ) (task : τ) (input : ι) : Prop :=
  Fails (program.resume input task s).2 ∨ (board (program.resume input task s).1).added = (board s).added ∧
      (board (program.resume input task s).1).sent = (board s).sent →
    ∀ n, n ∈ (board (program.resume input task s).1).jobs.jobs ↔ n ∈ (board s).jobs.jobs

/-- The batch that an event adds: it resumes an `add_job` that is accepted. -/
def adds (pool : Pool σ τ) : Event κ ι → List Nat
  | .resume index _ =>
    ((pool.tasks[index]?.bind adding).filter (board pool.state).accepts).toList.map (·.batchNumber)
  | _ => []

/-- What a run has done: each batch added is in the job map or was sent exactly once, and never both;
turns that fail leave the set of jobs as it is; and the batches added are those of the accepted calls. -/
structure Conserves (start : Pool σ τ) (events : List (Event κ ι)) : Prop where
  states : Run.States program.step (fun pool : Pool σ τ => (board pool.state).ledger.Conserved ∧ ∀ task input,
    Allowed board adding limits pool.state task input → KeepsJobs program board pool.state task input) start events
  added_eq : (board (events.foldl program.step start).state).added = Run.collect program.step (adds board adding) start events

variable {program board adding limits} {start : σ} {events : List (Event κ ι)}

theorem conserves_of_step (hturn : ∀ input task s, (board s).Step (adding task)
      (board (program.resume input task s).1) (Fails (program.resume input task s).2))
    (hempty : (board start).added = [] ∧ (board start).sent = []) {assignmentTimeout : Nat}
    (hnew : (board start).jobs = .new assignmentTimeout range)
    (hrun : Run.Steps program.step (Program.Turns (Allowed board adding limits)) ⟨start, []⟩ events) :
    Conserves program board adding limits ⟨start, []⟩ events where
  states := by
    have hledger : (board start).ledger = ⟨[], ∅, []⟩ := by
      simp [Board.ledger, hempty, hnew, ProverJobMap.waiting, ProverJobMap.new]
    have hinv : Run.States program.step
        (fun pool => (board pool.state).ledger.Conserved ∧ (board pool.state).jobs.Within limits) ⟨start, []⟩ events := by
      refine Program.states_of_turns program (Q := fun s => (board s).ledger.Conserved ∧ (board s).jobs.Within limits)
        (fun s task input h hallowed => ?_) ⟨hledger ▸ .empty, hnew ▸ .new assignmentTimeout⟩ hrun
      obtain ⟨hmove, -, hwithin⟩ := (hturn input task s).move h.2 hallowed
      exact ⟨h.1.move hmove, hwithin⟩
    refine hinv.imp fun pool h => ⟨h.1, fun task input hallowed hquiet => ?_⟩
    obtain ⟨hmove, hfails, -⟩ := (hturn input task pool.state).move h.2 hallowed
    refine Set.ext_iff.mp (hquiet.elim (fun hf => ?_) fun hsame => hmove.waiting_eq hsame.1 hsame.2)
    exact congrArg Ledger.waiting (hfails hf)
  added_eq := by
    refine Run.eq_collect (g := fun pool : Pool σ τ => (board pool.state).added) (fun pool event => ?_) hempty.1
    cases event with
    | start | cancel => simp [Program.step, adds]
    | resume index input =>
      cases htask : pool.tasks[index]? with
      | none => simp [program.step_resume_none htask, adds, htask]
      | some task =>
        rw [program.state_resume htask, (hturn input task pool.state).added_eq]
        simp [adds, htask]

end Runs

/-! ### The managers -/

namespace FriJobManager

variable (this : FriJobManager)

def board : Board ProverInput := ⟨this.jobs, this.added, this.sent.map (·.batchNumber)⟩

def adding : FriTask → Option (SignedBatchEnvelope ProverInput)
  | .request (.addJob batchEnvelope) => some batchEnvelope
  | _ => none

theorem addJob_step (batchEnvelope : SignedBatchEnvelope ProverInput) (now : Nat) :
    this.board.Step (some batchEnvelope) (this.addJob batchEnvelope now).1.board
      (Fails (this.addJob batchEnvelope now).2) := by
  rw [addJob]
  split
  next h => exact .of_not_addJob now (by simp [board, h])
  next h => exact .of_not_addJob now (by simp [board, h])
  next h => exact .of_addJob h

theorem complete_step (batchNumber now : Nat) (proverId : String) (proof : FriProof)
    (missing : Except SubmitError FriResponse) :
    this.board.Step none (this.complete batchNumber now proverId proof missing).1.board
      (Fails (this.complete batchNumber now proverId proof missing).2) := by
  rw [complete, completeJob]
  rcases h : this.jobs.completeManyJobs batchNumber batchNumber now proverId with ⟨jobs, message | _ | batches⟩
  · exact .of_not_complete (b := this.board) h nofun
  · exact .of_not_complete (b := this.board) h nofun
  · obtain ⟨-, hnumbers, hsend⟩ := Board.Step.of_complete (b := this.board) h
    have hrange : batchRange batchNumber batchNumber = [batchNumber] := by simp [batchRange]
    rw [hrange] at hnumbers hsend
    obtain ⟨batch, rfl, rfl⟩ := map_eq_singleton_iff.mp hnumbers
    simpa [board, SignedBatchEnvelope.withData, SignedBatchEnvelope.batchNumber, Fails] using hsend _ not_false

theorem resume_step (input : FriInput) (task : FriTask) :
    this.board.Step (adding task) (this.resume input task).1.board (Fails (this.resume input task).2) := by
  cases task with
  | request request =>
    cases request with
    | addJob batchEnvelope => exact this.addJob_step batchEnvelope input.now
    | pickNextJob => exact .keep rfl (this.jobs.sameJobs_assignJobs ..)
    | submitProof => exact .stay rfl
    | submitFakeProof =>
      simp only [resume]
      split <;> exact .stay rfl
  | verifying =>
    simp only [resume]
    split
    · exact .stay rfl
    · split <;> exact .stay rfl
  | rejecting => exact .keep rfl (this.jobs.sameJobs_unassignJob ..)
  | completing | completingFake => exact this.complete_step ..

end FriJobManager

namespace SnarkJobManager

variable (this : SnarkJobManager)

def board : Board FriProof :=
  ⟨this.jobs, this.added, this.sent.flatMap fun command => command.batches.map (·.batchNumber)⟩

def adding : SnarkTask → Option (SignedBatchEnvelope FriProof)
  | .adding batchEnvelope => some batchEnvelope
  | _ => none

theorem addJob_step (batchEnvelope : SignedBatchEnvelope FriProof) (now : Nat) :
    this.board.Step (some batchEnvelope) (this.addJob batchEnvelope now).1.board
      (Fails (this.addJob batchEnvelope now).2) := by
  rw [addJob]
  split
  next h => exact .of_not_addJob now (by simp [board, h])
  next h => exact .of_not_addJob now (by simp [board, h])
  next h => exact .of_addJob h

theorem complete_step {batchFrom batchTo now : Nat} {proverId : String} (proof : SnarkProof)
    (sent missing : Progress SnarkTask SnarkResult) (hsent : ¬Fails sent) :
    this.board.Step none (this.complete batchFrom batchTo now proverId proof sent missing).1.board
      (Fails (this.complete batchFrom batchTo now proverId proof sent missing).2) := by
  rw [complete]
  rcases h : this.jobs.completeManyJobs batchFrom batchTo now proverId with ⟨jobs, message | _ | batches⟩
  · exact .of_not_complete (b := this.board) h nofun
  · exact .of_not_complete (b := this.board) h nofun
  · obtain ⟨hne, hnumbers, hsend⟩ := Board.Step.of_complete (b := this.board) h
    simp only [ProofCommand.new_of_ne_nil proof hne]
    simpa [board, hnumbers] using hsend _ hsent

theorem resume_step (input : SnarkInput) (task : SnarkTask) :
    this.board.Step (adding task) (this.resume input task).1.board (Fails (this.resume input task).2) := by
  cases task with
  | adding batchEnvelope => exact this.addJob_step batchEnvelope input.now
  | submitting => exact .stay rfl
  | completing | completingFake => exact this.complete_step _ _ _ nofun
  | scanning =>
    simp only [resume]
    split
    · split <;> exact .stay rfl
    · exact .stay rfl
  | pickingFake | pickingReal => exact .keep rfl (this.jobs.sameJobs_assignJobs ..)

end SnarkJobManager

/-! ### Whole runs -/

/-- In every interleaving of the requests to the FRI manager, and likewise to the SNARK
manager, in which the added batches are distinct and within the limits: each batch added is
in the job map or was sent exactly once, and never both; and a turn that fails leaves the set
of jobs as it is. -/
theorem jobs_conserved (maxFrisPerSnark assignmentTimeout range : Nat) (limits : BatchLimits range)
    (friEvents : List (Event FriRequest FriInput)) (snarkEvents : List (Event SnarkRequest SnarkInput))
    (hfri : Run.Steps FriJobManager.program.step (Program.Turns (Allowed FriJobManager.board FriJobManager.adding limits))
      ⟨.new assignmentTimeout range, []⟩ friEvents)
    (hsnark : Run.Steps SnarkJobManager.program.step
      (Program.Turns (Allowed SnarkJobManager.board SnarkJobManager.adding limits))
      ⟨.new maxFrisPerSnark assignmentTimeout range, []⟩ snarkEvents) :
    Conserves FriJobManager.program FriJobManager.board FriJobManager.adding limits
      ⟨.new assignmentTimeout range, []⟩ friEvents ∧
    Conserves SnarkJobManager.program SnarkJobManager.board SnarkJobManager.adding limits
      ⟨.new maxFrisPerSnark assignmentTimeout range, []⟩ snarkEvents :=
  ⟨conserves_of_step (fun input task s => s.resume_step input task) ⟨rfl, rfl⟩ rfl hfri,
    conserves_of_step (fun input task s => s.resume_step input task) ⟨rfl, rfl⟩ rfl hsnark⟩

/-- A batch is added, picked, proven and completed by the same prover. -/
def provenBatch : List (Event FriRequest FriInput) :=
  let turn : Event FriRequest FriInput := .resume 0 ⟨0, .ok (), .permit⟩
  [.start (.addJob ⟨⟨1, ⟨0, 31, 0⟩, 3, none⟩, .fake⟩), turn, .start (.pickNextJob 0 "prover" none), turn,
    .start (.submitProof 1 [] .v7 "prover"), turn, turn, turn]

/-- Two batches, one with a fake proof, are added; a prover asks for a job. -/
def fakeAndRealBatch : List (Event SnarkRequest SnarkInput) :=
  let turn : Event SnarkRequest SnarkInput := .resume 0 ⟨0, .permit⟩
  [.start (.addJob ⟨⟨1, ⟨0, 31, 0⟩, 1, none⟩, .fake⟩), turn,
    .start (.addJob ⟨⟨2, ⟨0, 31, 0⟩, 1, none⟩, .real (.v2 [] 7)⟩), turn,
    .start (.pickRealJob "prover" none), turn, turn, turn, turn, turn]

def sampleLimits : BatchLimits 10 := ⟨10000, 2 ^ 36, by decide, by decide⟩

theorem jobs_conserved_small :
    let fri := provenBatch.foldl FriJobManager.program.step ⟨.new 60 10, []⟩
    let snark := fakeAndRealBatch.foldl SnarkJobManager.program.step ⟨.new 5 60 10, []⟩
    (fri.state.added = [1] ∧ fri.state.sent = [⟨⟨1, ⟨0, 31, 0⟩, 3, none⟩, .real (.v2 [] 7)⟩] ∧
      Conserves FriJobManager.program FriJobManager.board FriJobManager.adding sampleLimits ⟨.new 60 10, []⟩
        provenBatch) ∧
    (snark.state.added = [1, 2] ∧ snark.state.sent.map (·.batches.map (·.batchNumber)) = [[1]] ∧
      snark.state.jobs.jobs.keys = [2] ∧
      Conserves SnarkJobManager.program SnarkJobManager.board SnarkJobManager.adding sampleLimits
        ⟨.new 5 60 10, []⟩ fakeAndRealBatch) := by
  have h := jobs_conserved 5 60 10 sampleLimits provenBatch fakeAndRealBatch (by decide +kernel) (by decide +kernel)
  exact ⟨⟨by decide +kernel, by decide +kernel, h.1⟩, by decide +kernel, by decide +kernel, by decide +kernel, h.2⟩

end ProverApi
