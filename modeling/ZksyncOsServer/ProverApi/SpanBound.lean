import ZksyncOsServer.Lib.Run
import ZksyncOsServer.ProverApi.JobMap

/-!
# The range of batches in the job map

The pipeline step adds batches with consecutive numbers, one call of `add_job`
after the other, while provers pick, release and complete jobs in any order. The
queue counts as full by the numbers in the map, not by the number to be added, so
the range stays bounded only as long as the job added last is not completed before
the next one is added.
-/
namespace ProverApi

open List ProverJobMap

namespace ProverJobMap

variable {T : Type} (this : ProverJobMap T)

/-- The difference between the largest and the smallest number in the map. -/
def span : Nat :=
  match this.jobs.keys.head?, this.jobs.keys.getLast? with
  | some min, some max => max - min
  | _, _ => 0

variable {this}

theorem span_le_iff {range : Nat} : this.span ≤ range ↔ ∀ a ∈ this.jobs, ∀ b ∈ this.jobs, b ≤ a + range := by
  constructor
  · intro h a ha b hb
    obtain ⟨min, hmin, max, hmax, -⟩ := exists_ends ha
    have hspan : max - min ≤ range := by
      rwa [span, Option.mem_def.mp hmin, Option.mem_def.mp hmax] at h
    have hle := (of_head? hmin).2 a ha
    have hge := (of_getLast? hmax).2 b hb
    omega
  · intro h
    rw [span]
    split
    next min max hmin hmax =>
      have := h min (of_head? hmin).1 max (of_getLast? hmax).1
      omega
    · exact Nat.zero_le _

theorem span_le_of_subset {this' : ProverJobMap T} {range : Nat} (h : this.span ≤ range)
    (hsub : ∀ n ∈ this'.jobs, n ∈ this.jobs) : this'.span ≤ range := by
  rw [span_le_iff] at h ⊢
  intro a ha b hb
  exact h a (hsub a ha) b (hsub b hb)

end ProverJobMap

inductive MapCall (T : Type) where
  | addJob (batchEnvelope : SignedBatchEnvelope T) (now : Nat)
  | pickJob (now minAge : Nat) (proverId : String) (predicate : JobEntry T → Bool)
  | unassignJob (batchNumber : Nat) (proverId : String)
  | completeJob (batchNumber now : Nat) (proverId : String)
  | completeManyJobs (batchNumberFrom batchNumberTo now : Nat) (proverId : String)

/-- The map and the batch that the pipeline step added last. -/
structure Feed (T : Type) where
  map : ProverJobMap T
  lastAdded : Option Nat

namespace Feed

variable {T : Type}

def new (assignmentTimeout maxAssignedBatchRange : Nat) : Feed T :=
  ⟨.new assignmentTimeout maxAssignedBatchRange, none⟩

/-- One call. An `add_job` that finds the queue full goes on waiting. -/
def serve (this : Feed T) : MapCall T → Feed T
  | .addJob batchEnvelope now =>
    match this.map.addJob batchEnvelope now with
    | .ok (some map) => ⟨map, some batchEnvelope.batchNumber⟩
    | _ => this
  | .pickJob now minAge proverId predicate => { this with map := (this.map.pickJob now minAge proverId predicate).1 }
  | .unassignJob batchNumber proverId => { this with map := this.map.unassignJob batchNumber proverId }
  | .completeJob batchNumber now proverId => { this with map := (this.map.completeJob batchNumber now proverId).1 }
  | .completeManyJobs batchNumberFrom batchNumberTo now proverId =>
    { this with map := (this.map.completeManyJobs batchNumberFrom batchNumberTo now proverId).1 }

/-- The pipeline step adds batches with consecutive numbers. -/
def Consecutive (this : Feed T) : MapCall T → Prop
  | .addJob batchEnvelope _ => ∀ last ∈ this.lastAdded, batchEnvelope.batchNumber = last + 1
  | _ => True

/-- When a batch is added, the one added last is still in the map, if any job is. -/
def NewestPending (this : Feed T) : MapCall T → Prop
  | .addJob _ _ => ∀ last ∈ this.lastAdded, this.map.jobs.isEmpty ∨ last ∈ this.map.jobs
  | _ => True

instance (this : Feed T) : DecidablePred this.Consecutive := fun call => by
  unfold Consecutive
  split <;> infer_instance

instance (this : Feed T) : DecidablePred this.NewestPending := fun call => by
  unfold NewestPending
  split <;> infer_instance

/-- No job is newer than the batch added last, and the configuration does not change. -/
structure Ordered (maxAssignedBatchRange : Nat) (this : Feed T) : Prop where
  le_last : ∀ n ∈ this.map.jobs, ∃ last ∈ this.lastAdded, n ≤ last
  range_eq : this.map.maxAssignedBatchRange = maxAssignedBatchRange

variable {this : Feed T} {call : MapCall T} {range : Nat}

theorem serve_cases (this : Feed T) (call : MapCall T) :
    (this.serve call).map.maxAssignedBatchRange = this.map.maxAssignedBatchRange ∧
      ((this.serve call).lastAdded = this.lastAdded ∧ (∀ n ∈ (this.serve call).map.jobs, n ∈ this.map.jobs) ∨
        ∃ batchEnvelope now, call = .addJob batchEnvelope now ∧ this.map.isQueueFull = false ∧
          (this.serve call).lastAdded = some batchEnvelope.batchNumber ∧
          ∀ n, n ∈ (this.serve call).map.jobs ↔ n = batchEnvelope.batchNumber ∨ n ∈ this.map.jobs) := by
  cases call with
  | addJob batchEnvelope now =>
    obtain ⟨-, h⟩ | ⟨message, -, h⟩ | ⟨hfull, entry, hentry, h⟩ := this.map.addJob_cases batchEnvelope now
    · exact ⟨by simp [serve, h], .inl ⟨by simp [serve, h], by simp [serve, h]⟩⟩
    · exact ⟨by simp [serve, h], .inl ⟨by simp [serve, h], by simp [serve, h]⟩⟩
    · refine ⟨by simp [serve, h, ProverJobMap.insert], .inr ⟨_, _, rfl, hfull, by simp [serve, h], ?_⟩⟩
      intro n
      simp [serve, h, entry.number_eq, (JobEntry.newFromBatch_eq_ok hentry).1]
  | pickJob now minAge proverId predicate =>
    exact ⟨rfl, .inl ⟨rfl, fun n hn => this.map.mem_pickJob.mp hn⟩⟩
  | unassignJob batchNumber proverId =>
    exact ⟨rfl, .inl ⟨rfl, fun n hn => this.map.mem_unassignJob.mp hn⟩⟩
  | completeJob | completeManyJobs =>
    exact ⟨this.map.maxAssignedBatchRange_completeManyJobs, .inl ⟨rfl, fun n hn => this.map.mem_completeManyJobs hn⟩⟩

theorem Ordered.serve (h : this.Ordered range) (hc : this.Consecutive call) : (this.serve call).Ordered range := by
  obtain ⟨hrange, ⟨hlast, hsub⟩ | ⟨batchEnvelope, now, rfl, -, hlast, hmem⟩⟩ := this.serve_cases call
  · refine ⟨fun n hn => ?_, hrange.trans h.range_eq⟩
    rw [hlast]
    exact h.le_last n (hsub n hn)
  · refine ⟨fun n hn => ?_, hrange.trans h.range_eq⟩
    rw [hlast]
    refine ⟨_, rfl, ?_⟩
    obtain rfl | hn := (hmem n).mp hn
    · exact le_rfl
    · obtain ⟨last, hlast', hle⟩ := h.le_last n hn
      have : batchEnvelope.batchNumber = last + 1 := hc last hlast'
      omega

theorem Ordered.span_serve_le (h : this.Ordered range) (hspan : this.map.span ≤ range) (hc : this.Consecutive call)
    (hnewest : this.NewestPending call) : (this.serve call).map.span ≤ range := by
  obtain ⟨-, ⟨-, hsub⟩ | ⟨batchEnvelope, now, rfl, hfull, -, hmem⟩⟩ := this.serve_cases call
  · exact span_le_of_subset hspan hsub
  · rw [span_le_iff] at hspan ⊢
    intro a ha b hb
    obtain rfl | hb := (hmem b).mp hb
    · obtain rfl | ha := (hmem a).mp ha
      · exact Nat.le_add_right _ _
      · -- The batch follows the one added last, which the queue has measured.
        obtain ⟨last, hlast, -⟩ := h.le_last a ha
        have hnumber : batchEnvelope.batchNumber = last + 1 := hc last hlast
        have hin : last ∈ this.map.jobs := (hnewest last hlast).resolve_left fun hempty => by
          simp [Std.ExtTreeMap.isEmpty_iff.mp hempty] at ha
        exact hnumber ▸ h.range_eq ▸ lt_of_not_full hfull ha hin
    · obtain rfl | ha := (hmem a).mp ha
      · -- A job in the map was added before this batch.
        obtain ⟨last, hlast, hle⟩ := h.le_last b hb
        have : batchEnvelope.batchNumber = last + 1 := hc last hlast
        omega
      · exact hspan a ha b hb

theorem ordered_new (assignmentTimeout range : Nat) : (new assignmentTimeout range : Feed T).Ordered range :=
  ⟨by simp [new, ProverJobMap.new], rfl⟩

theorem span_new (assignmentTimeout range : Nat) : (new assignmentTimeout range : Feed T).map.span ≤ range := by
  simp [ProverJobMap.span_le_iff, new, ProverJobMap.new]

end Feed

open Feed in
/-- For every run that adds consecutive batches, none of them after the one before was
completed while an older job stays, the numbers in the map stay within the configured range
after every call. -/
theorem span_bounded_of_newestPending {T : Type} (assignmentTimeout range : Nat) (calls : List (MapCall T))
    (h : Run.Steps serve (fun feed call => feed.Consecutive call ∧ feed.NewestPending call)
      (new assignmentTimeout range) calls) :
    Run.States serve (fun feed => feed.map.span ≤ range) (new assignmentTimeout range) calls := by
  refine Run.States.imp (fun _ => And.right) (h.invariant (I := fun feed => feed.Ordered range ∧ feed.map.span ≤ range)
    ?_ ⟨ordered_new _ _, span_new _ _⟩)
  rintro feed call ⟨ho, hspan⟩ ⟨hc, hnewest⟩
  exact ⟨ho.serve hc, ho.span_serve_le hspan hc hnewest⟩

/-- A batch without contents, for concrete runs. -/
def sampleBatch (batchNumber : Nat) : SignedBatchEnvelope Unit :=
  ⟨⟨batchNumber, ⟨0, 31, 0⟩, 1, none⟩, ()⟩

/-- The oldest job completes while `add_job` waits. -/
def completedOldestJob : List (MapCall Unit) :=
  [.addJob (sampleBatch 1) 0, .addJob (sampleBatch 2) 0, .addJob (sampleBatch 3) 0, .completeJob 1 0 "prover",
    .addJob (sampleBatch 3) 0]

open Feed in
theorem span_bounded_completedOldestJob :
    (completedOldestJob.foldl serve (new 60 1)).map.jobs.keys = [2, 3] ∧
      Run.States serve (fun feed => feed.map.span ≤ 1) (new 60 1) completedOldestJob :=
  ⟨by decide +kernel, span_bounded_of_newestPending 60 1 completedOldestJob (by decide +kernel)⟩

/-- The newest job completes while the oldest one stays, and the next one is added. -/
def stuckOldestJob : List (MapCall Unit) :=
  [.addJob (sampleBatch 1) 0, .addJob (sampleBatch 2) 0, .completeJob 2 0 "prover", .addJob (sampleBatch 3) 0]

open Feed in
/-- With a range of one, the map comes to hold the batches 1 and 3. -/
theorem span_exceeds_range : Run.Steps serve Consecutive (new 60 1) stuckOldestJob ∧
      ¬Run.States serve (fun feed => feed.map.span ≤ 1) (new 60 1) stuckOldestJob ∧
      (stuckOldestJob.foldl serve (new 60 1)).map.jobs.keys = [1, 3] := by
  decide +kernel

end ProverApi
