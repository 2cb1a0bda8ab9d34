import ZksyncOsServer.Replay.ReadBack

/-!
# Reverted blocks

A record that is overridden by a different one is archived under its block hash, with the
hashes it was written with. Two records with one hash share their place in the archive, and
records that differ in the version of the node only are the same block.
-/
namespace Replay

open Fallible List BlockReplayStorage
open MerkleTree (B256)

variable {T : Type} [DecidableEq T]

/-- The record with another timestamp of the previous block, which is not stored. -/
def ReplayRecord.withPrevious (r : ReplayRecord T) (timestamp : Nat) : ReplayRecord T :=
  { r with previousBlockTimestamp := timestamp }

def Differs (old new : SealedRecord T) : Prop :=
  (old.toReplayRecord.withPrevious new.previousBlockTimestamp).eq new.toReplayRecord = false

instance (old new : SealedRecord T) : Decidable (Differs old new) := inferInstanceAs (Decidable (_ = _))

/-- The record was canonical when a different record was written for its block. -/
def Overridden (log : List (SealedRecord T)) (r : SealedRecord T) : Prop :=
  ∃ before new after, log = before ++ new :: after ∧ canonical before r.number = some r ∧
    new.number = r.number ∧ Differs r new

theorem overridden_append {log : List (SealedRecord T)} {r new : SealedRecord T} (h : Overridden (log ++ [new]) r) :
    Overridden log r ∨ canonical log r.number = some r ∧ new.number = r.number ∧ Differs r new := by
  obtain ⟨before, new', after, hlog, hr⟩ := h
  rcases eq_nil_or_concat' after with rfl | ⟨after, last, rfl⟩
  · obtain ⟨rfl, hnew⟩ := append_inj' hlog rfl
    obtain rfl : new = new' := by simpa using hnew
    exact .inr hr
  · rw [← cons_append, ← append_assoc] at hlog
    exact .inl ⟨before, new', after, (append_inj' hlog rfl).1, hr⟩

structure Archives (s : BlockReplayStorage T) (log : List (SealedRecord T)) : Prop where
  stores : Stores s log
  hashes : ∀ n r, canonical log n = some r → s.canonicalHash n = some r.hash
  stripped : ∀ h, s.contextV2 (.hash h) = none
  rows : ∀ r, Overridden log r → ∃ a ∈ log, a.hash = r.hash ∧ HasRow s (.hash r.hash) a.toReplayRecord

section Archives
variable {s s' : BlockReplayStorage T} {log : List (SealedRecord T)} {r old : SealedRecord T} {n : Nat}

theorem archives_empty (chainId : Nat) : Archives (newWithoutGenesis chainId : BlockReplayStorage T) [] := by
  refine ⟨stores_empty chainId, fun n r hr => absurd hr (by simp [canonical, KeyedLog.last]), fun _ => rfl, ?_⟩
  rintro r ⟨before, new, after, hlog, -⟩
  simp at hlog

theorem Archives.append (h : Archives s log) (hstores : Stores s' (log ++ [r])) (hw : Written s r true s')
    (hold : ∀ old, canonical log r.number = some old → Differs old r →
      ∃ a ∈ log, a.hash = old.hash ∧ HasRow s (.hash old.hash) a.toReplayRecord) : Archives s' (log ++ [r]) := by
  refine ⟨hstores, fun n r' hr' => ?_, fun hash => ?_, fun r' hr' => ?_⟩
  · rw [canonical_append] at hr'
    rw [hw.canonicalHash, if_pos rfl]
    split at hr'
    next hn =>
      rw [← hn, putCf_same, Option.some.inj hr']
    next hn =>
      rw [putCf_other _ _ (Ne.symm hn)]
      exact h.hashes n r' hr'
  · rw [hw.contextV2, if_pos rfl, putCf_other _ _ (by simp)]
    exact h.stripped hash
  · obtain ⟨a, ha, hhash, hrow⟩ : ∃ a ∈ log, a.hash = r'.hash ∧ HasRow s (.hash r'.hash) a.toReplayRecord := by
      rcases overridden_append hr' with hr' | ⟨hcanonical, hn, hdiffers⟩
      · exact h.rows r' hr'
      · exact hold r' (hn ▸ hcanonical) hdiffers
    exact ⟨a, mem_append_left _ ha, hhash, hw.rows _ _ (by simp [SealedRecord.key]) hrow⟩

theorem Archives.archive (h : Archives s log) (hlatest : s.latest = some (.number n)) (hle : r.number ≤ n)
    (ha : s.archive r = .ok s') : Archives s' log ∧ ∀ old, canonical log r.number = some old → Differs old r →
      ∃ a ∈ log, a.hash = old.hash ∧ HasRow s' (.hash old.hash) a.toReplayRecord := by
  obtain ⟨old, hold⟩ := (h.stores.exists_canonical_iff hlatest _).mpr hle
  have hstores := (h.stores.archive hlatest hle ha).1
  rcases h.stores.archive_eq_ok hold ha with ⟨heq, rfl⟩ | ⟨-, hash, hhash, hw⟩
  · refine ⟨h, fun old' hold' hdiffers => ?_⟩
    obtain rfl := Option.some.inj (hold.symm.trans hold')
    -- the record that was read has the previous timestamp of the new one
    have hts : s'.previousTimestamp r.number = r.previousBlockTimestamp := by
      simp only [ReplayRecord.eq, Bool.and_eq_true, decide_eq_true_eq] at heq
      exact heq.1.1.1.1.2
    rw [hts] at heq
    exact absurd (heq.symm.trans hdiffers) (by simp)
  · obtain rfl : hash = old.hash := by
      rw [getCanonicalBlockHash, h.hashes _ _ hold] at hhash
      exact (Except.ok.inj hhash).symm
    have hrow : HasRow s' (.hash old.hash) old.toReplayRecord := { hw.row with }
    have hmem := (KeyedLog.mem_of_last hold).1
    refine ⟨⟨hstores, by rw [hw.canonicalHash]; exact h.hashes, by rw [hw.contextV2]; exact h.stripped, ?_⟩, ?_⟩
    · intro r' hr'
      obtain ⟨a, ha, hhash', hrow'⟩ := h.rows r' hr'
      by_cases hsame : r'.hash = old.hash
      · exact ⟨old, hmem, hsame.symm, hsame ▸ hrow⟩
      · exact ⟨a, ha, hhash', hw.rows _ _ (fun hkey => hsame (DbKey.hash.inj hkey)) hrow'⟩
    · intro old' hold' _
      obtain rfl := Option.some.inj (hold.symm.trans hold')
      exact ⟨old, hmem, rfl, hrow⟩

theorem Archives.write (h : Archives s log) {overrideAllowed : Bool} (hw : s.write r overrideAllowed = .ok (true, s')) :
    Archives s' (log ++ [r]) := by
  have hstores := (h.stores.write hw).1
  -- a block above the latest one has no record yet
  have hnew : (∀ n, s.latest = some (.number n) → n < r.number) → ∀ old, canonical log r.number ≠ some old := by
    intro hlt old hold
    rcases h.stores.latest with ⟨rfl, -⟩ | ⟨n, hsome, hiff⟩
    · cases hold
    · have hle := (hiff r.number).mp ⟨old, hold⟩
      have hlt := hlt n hsome
      omega
  rcases write_eq_true hw with ⟨hnone, -, hw⟩ | ⟨n, hsome, -, ⟨hlt, hw⟩ | ⟨hle, archived, ha, hw⟩⟩
  · exact h.append hstores hw fun old hold => absurd hold (hnew (by simp [hnone]) old)
  · exact h.append hstores hw fun old hold => absurd hold (hnew (by simpa [hsome] using hlt) old)
  · obtain ⟨harchived, hold⟩ := h.archive hsome hle ha
    exact harchived.append hstores hw hold

end Archives

/-! ### Runs -/

def writeAll (chainId : Nat) (calls : List (SealedRecord T × Bool)) : LogState T :=
  (calls.map fun call => Op.write call.1 call.2).foldl LogState.step (LogState.empty chainId)

theorem archives_writeAll (chainId : Nat) (calls : List (SealedRecord T × Bool)) :
    Archives (writeAll chainId calls).storage (writeAll chainId calls).log := by
  induction calls using reverseRecOn with
  | nil => exact archives_empty chainId
  | append_singleton calls call ih =>
    rw [writeAll, map_append, foldl_append, ← writeAll]
    rcases (writeAll chainId calls).step_cases (.write call.1 call.2) with
      ⟨hlog, hs | ⟨rows, hashes, hop, -⟩⟩ | ⟨record, overrideAllowed, storage, -, hw, hs⟩
    · change Archives ((writeAll chainId calls).step (.write call.1 call.2)).storage
        ((writeAll chainId calls).step (.write call.1 call.2)).log
      rwa [hlog, hs]
    · cases hop
    · change Archives ((writeAll chainId calls).step (.write call.1 call.2)).storage
        ((writeAll chainId calls).step (.write call.1 call.2)).log
      rw [hs]
      exact ih.write hw

theorem Archives.read {s : BlockReplayStorage T} {log : List (SealedRecord T)} (h : Archives s log)
    {r : SealedRecord T} (hr : Overridden log r) : ∃ a ∈ log, a.hash = r.hash ∧ ∃ timestamp,
      s.getReplayRecordByKey r.number (some (.hash r.hash)) = .ok (some (a.toReplayRecord.withPrevious timestamp)) := by
  obtain ⟨a, ha, hhash, hrow⟩ := h.rows r hr
  refine ⟨a, ha, hhash, s.previousTimestamp r.number, ?_⟩
  rw [getReplayRecordByKey, Option.getD_some, getContextByKey, h.stripped, hrow.context, ok_bind]
  dsimp only
  rw [hrow.assemble]
  rfl

/-- After any calls, what is read under the hash of a record that was overridden by a different one is a
canonical record with that hash, as it was written. It is the overridden one if the canonical records with
its hash agree. The latest record is the greatest block ever written. -/
theorem reverted_blocks_kept (chainId : Nat) (calls : List (SealedRecord T × Bool)) :
    let s := writeAll chainId calls
    (∀ r, Overridden s.log r → ∃ a ∈ s.log, a.hash = r.hash ∧ ∃ timestamp,
      s.storage.getReplayRecordByKey r.number (some (.hash r.hash)) =
        .ok (some (a.toReplayRecord.withPrevious timestamp))) ∧
    (∀ r, Overridden s.log r →
      (∀ r' ∈ s.log, r'.hash = r.hash →
        r'.toReplayRecord.withPrevious r.previousBlockTimestamp = r.toReplayRecord) →
      ∃ timestamp, s.storage.getReplayRecordByKey r.number (some (.hash r.hash)) =
        .ok (some (r.toReplayRecord.withPrevious timestamp))) ∧
    (s.log ≠ [] → ∃ n, s.storage.latestRecord = .ok n ∧ (∃ r ∈ s.log, r.number = n) ∧ ∀ r ∈ s.log, r.number ≤ n) := by
  have h := archives_writeAll chainId calls
  refine ⟨fun r hr => h.read hr, fun r hr hsame => ?_, fun hne => ?_⟩
  · obtain ⟨a, ha, hhash, timestamp, hread⟩ := h.read hr
    exact ⟨timestamp, by rw [hread, ← hsame a ha hhash]; rfl⟩
  obtain ⟨n, hlatest, hiff⟩ := h.stores.latest.resolve_left fun hempty => hne hempty.1
  have hchecked : (writeAll chainId calls).storage.latestRecordChecked = .ok (some n) :=
    latestRecordChecked_eq_ok.mpr hlatest
  refine ⟨n, ?_, ?_, fun r hr => ?_⟩
  · rw [latestRecord, hchecked]
    rfl
  · obtain ⟨r, hr⟩ := (hiff n).mpr (Nat.le_refl n)
    exact ⟨r, KeyedLog.mem_of_last hr⟩
  · exact (hiff r.number).mp (KeyedLog.exists_last SealedRecord.number hr)

/-- Block 0 is overridden and then written again by another node. -/
def overrideBack : List (SealedRecord Nat × Bool) :=
  [(sampleRecord 0 .empty 0 100 "1.0.0" 10, false), (sampleRecord 0 .empty 0 200 "1.0.0" 20, true),
    (sampleRecord 0 .empty 0 100 "2.0.0" 10, true)]

theorem overrideBack_overridden : Overridden (writeAll 270 overrideBack).log (sampleRecord 0 .empty 0 200 "1.0.0" 20) :=
  ⟨[sampleRecord 0 .empty 0 100 "1.0.0" 10, sampleRecord 0 .empty 0 200 "1.0.0" 20],
    sampleRecord 0 .empty 0 100 "2.0.0" 10, [], by decide +kernel, by decide +kernel, rfl, by decide +kernel⟩

theorem reverted_blocks_kept_sample :
    ∃ timestamp, (writeAll 270 overrideBack).storage.getReplayRecordByKey 0 (some (.hash 20)) =
      .ok (some ((sampleRecord 0 .empty 0 200 "1.0.0" 20).toReplayRecord.withPrevious timestamp)) :=
  (reverted_blocks_kept 270 overrideBack).2.1 (sampleRecord 0 .empty 0 200 "1.0.0" 20) overrideBack_overridden
    (by decide +kernel)

/-- Block 0 is overridden once more. -/
def overrideTwice : List (SealedRecord Nat × Bool) :=
  overrideBack ++ [(sampleRecord 0 .empty 0 300 "2.0.0" 30, true)]

/-- The second archived record with hash 10 replaces the first one, which has another node version. -/
theorem archive_overwritten :
    Run.Steps LogState.step LogState.Linked (LogState.empty 270) (overrideTwice.map fun call => Op.write call.1 call.2) ∧
      Overridden (writeAll 270 overrideTwice).log (sampleRecord 0 .empty 0 100 "1.0.0" 10) ∧
      ((writeAll 270 overrideTwice).storage.getReplayRecordByKey 0 (some (.hash 10))).toOption.map
        (·.map (·.nodeVersion)) = some (some "2.0.0") ∧
      ¬ ∃ timestamp, (writeAll 270 overrideTwice).storage.getReplayRecordByKey 0 (some (.hash 10)) =
        .ok (some ((sampleRecord 0 .empty 0 100 "1.0.0" 10).toReplayRecord.withPrevious timestamp)) := by
  have hread : ((writeAll 270 overrideTwice).storage.getReplayRecordByKey 0 (some (.hash 10))).toOption.map
      (·.map (·.nodeVersion)) = some (some "2.0.0") := by decide +kernel
  refine ⟨by decide +kernel, ?_, hread, ?_⟩
  · exact ⟨[sampleRecord 0 .empty 0 100 "1.0.0" 10], sampleRecord 0 .empty 0 200 "1.0.0" 20,
      [sampleRecord 0 .empty 0 100 "2.0.0" 10, sampleRecord 0 .empty 0 300 "2.0.0" 30], by decide +kernel,
      by decide +kernel, rfl, by decide +kernel⟩
  · rintro ⟨timestamp, heq⟩
    rw [heq] at hread
    exact absurd hread (by simp [Except.toOption, ReplayRecord.withPrevious, sampleRecord])

end Replay
