import ZksyncOsServer.L1Watcher.PersistFollow

/-!
# Restarts of the watcher that persists batches

The search for the start block goes back at least to the last commit of the last stored batch, so
that a restarted watcher catches up. It may go back further, or the block may hold commits that
were reverted: those are compared with the storage, and a restart goes well exactly when none of
them differs from it.
-/
namespace L1Watcher

open Fallible List Run History Contract MinedTx L1PersistBatchWatcher Node
open MerkleTree (B256)

variable {history : History} {tx : MinedTx} {done todo : List MinedTx} {n : Nat} {m : MinedCommit}

/-! ### The node -/

theorem History.contractAt_executed_mono {block latest : Nat} (h : block ≤ latest) :
    (history.contractAt block).totalBatchesExecuted ≤ (history.contractAt latest).totalBatchesExecuted := by
  have hallowed := history.allowed_upTo latest
  rw [← history.upTo_append_of_le h] at hallowed
  rw [contractAt, contractAt, ← history.upTo_append_of_le h, foldl_append]
  exact executed_le_foldl (history.contractAt_ordered block) (steps_append.mp hallowed).2

theorem History.executed_after_le {block : Nat} (hsplit : done ++ todo = history.txs)
    (hdone : ∀ tx ∈ done, tx.blockNumber ≤ block) :
    (history.after done).totalBatchesExecuted ≤ (history.contractAt block).totalBatchesExecuted := by
  have hupTo : history.upTo block = done ++ todo.filter (·.blockNumber ≤ block) := by
    rw [upTo, ← hsplit, filter_append, filter_eq_self.mpr fun tx htx => by simpa using hdone tx htx]
  have hallowed := history.allowed_upTo block
  rw [hupTo] at hallowed
  obtain ⟨hdone', htodo⟩ := steps_append.mp hallowed
  rw [contractAt, hupTo, foldl_append]
  exact executed_le_foldl (foldl_ordered le_rfl hdone') htodo

structure Inv (history : History) (node : Node) (done todo : List MinedTx) : Prop where
  follows : Follows history node.watcher done todo
  failed : node.failed = none
  pending : node.pending = todo.filterMap MinedTx.watchedLog
  fits : history.deploymentBlock ≤ node.finalized ∧ node.finalized ≤ u64Max
  known : node.watcher.count history done ≤ (history.contractAt node.finalized).totalBatchesExecuted

theorem History.filter_block_append (history : History) (startBlock : Nat) :
    history.txs.filter (·.blockNumber < startBlock) ++ history.txs.filter (startBlock ≤ ·.blockNumber) = history.txs := by
  have hcut := filter_append_filter_not (p := fun tx => decide (tx.blockNumber < startBlock)) history.blocks_ordered
    fun a b hab hb => by
      simp only [decide_eq_true_eq] at hb ⊢
      omega
  simpa only [← decide_not, not_lt] using hcut

variable {storage : ExecutedBatchStorage} {count : Nat} {node : Node}

/-- A start behind the storage follows the contract: a commit of the last stored batch is still to
come, or nothing is stored and the whole history is. -/
theorem resume_follows {startBlock : Nat} (hstores : Stores history storage count)
    (htodo : (∃ tx ∈ history.txs, startBlock ≤ tx.blockNumber ∧ (tx.commitOf count).isSome = true) ∨
      count = 0 ∧ startBlock ≤ history.deploymentBlock) :
    Follows history (.resume storage) (history.txs.filter (·.blockNumber < startBlock))
      (history.txs.filter (startBlock ≤ ·.blockNumber)) ∧
    (resume storage).count history (history.txs.filter (·.blockNumber < startBlock)) = count := by
  have hsplit := history.filter_block_append startBlock
  have hallowed := history.allowed
  rw [← hsplit] at hallowed
  obtain ⟨hdone, hrest⟩ := steps_append.mp hallowed
  rcases htodo with ⟨tx, htx, hblock, hcommit⟩ | ⟨rfl, hstart⟩
  · have hmem : tx ∈ history.txs.filter (startBlock ≤ ·.blockNumber) := mem_filter.mpr ⟨htx, by simpa using hblock⟩
    obtain ⟨m, hm⟩ := Option.isSome_iff_exists.mp hcommit
    have hlt := executed_lt_of_commitOf (foldl_ordered le_rfl hdone) hrest hmem hm
    have hcount : (resume storage).count history
        (history.txs.filter (·.blockNumber < startBlock)) = count := by
      rw [L1PersistBatchWatcher.count, L1PersistBatchWatcher.resume, hstores.latest]
      exact max_eq_left hlt.le
    refine ⟨⟨hsplit, hcount ▸ hstores, le_rfl, .inl ⟨tx, hmem, ?_⟩⟩, hcount⟩
    rw [resume, hstores.latest]
    exact hcommit
  · have hnil : history.txs.filter (·.blockNumber < startBlock) = [] :=
      filter_eq_nil_iff.mpr fun tx htx => by
        have := history.deployed tx htx
        simp
        omega
    rw [hnil] at hsplit ⊢
    have hcount : (resume storage).count history [] = 0 := by
      rw [L1PersistBatchWatcher.count, L1PersistBatchWatcher.resume, hstores.latest]
      rfl
    refine ⟨⟨hsplit, hcount ▸ hstores, le_rfl, .inr ⟨Nat.zero_le _, fun n hlt hle => ?_⟩⟩, hcount⟩
    rw [hcount] at hlt
    exact absurd hle (Nat.not_le_of_lt hlt)

theorem start_inv {finalized latest : Nat} (hstores : Stores history storage count)
    (hknown : count ≤ (history.contractAt finalized).totalBatchesExecuted)
    (hfinalized : history.deploymentBlock ≤ finalized ∧ finalized ≤ latest) (hlatest : latest ≤ u64Max) :
    ∃ startBlock, resolveStart history latest storage = .ok startBlock ∧
      Inv history (start history finalized latest storage) (history.txs.filter (·.blockNumber < startBlock))
        (history.txs.filter (startBlock ≤ ·.blockNumber)) := by
  have hresolve : ∃ startBlock, resolveStart history latest storage = .ok startBlock ∧
      ((∃ tx ∈ history.txs, startBlock ≤ tx.blockNumber ∧ (tx.commitOf count).isSome = true) ∨
        count = 0 ∧ startBlock ≤ history.deploymentBlock) := by
    rcases Nat.eq_zero_or_pos count with rfl | hpos
    · obtain ⟨liveHash, hfind⟩ :=
        findL1CommitBlock_zero hlatest (hfinalized.1.trans hfinalized.2)
      refine ⟨history.deploymentBlock, ?_, .inr ⟨rfl, le_rfl⟩⟩
      rw [resolveStart, hstores.latest, hfind]
      rfl
    · have hcommitted : count ≤ (history.contractAt latest).totalBatchesCommitted :=
        hknown.trans ((contractAt_executed_mono hfinalized.2).trans (history.contractAt_ordered latest))
      obtain ⟨m, hm⟩ := exists_lastCommit (history.allowed_upTo latest) rfl hpos hcommitted
      obtain ⟨startBlock, liveHash, hfind, -, hle⟩ := findL1CommitBlock_of_lastCommit hcommitted hlatest hm
      obtain ⟨tx, htx, hcommit⟩ := mem_of_lastCommit hm
      obtain ⟨commit, -, -, rfl⟩ := commitOf_eq_some.mp hcommit
      refine ⟨startBlock, ?_, .inl ⟨tx, (mem_filter.mp htx).1, hle, by rw [hcommit]; rfl⟩⟩
      rw [resolveStart, hstores.latest, hfind]
      rfl
  obtain ⟨startBlock, hok, htodo⟩ := hresolve
  obtain ⟨hfollows, hcount⟩ := resume_follows hstores htodo
  refine ⟨startBlock, hok, ?_⟩
  rw [start, hok]
  exact ⟨hfollows, rfl, history.getLogs_watched startBlock, ⟨hfinalized.1, hfinalized.2.trans hlatest⟩,
    hcount.trans_le hknown⟩

theorem MinedTx.agreesUpTo_of_watchedLog (h : tx.watchedLog = none) (persisted : Nat) :
    tx.AgreesUpTo history persisted := by
  intro n m _ hm
  obtain ⟨commit, hop, -, -⟩ := commitOf_eq_some.mp hm
  simp [watchedLog, hop] at h

namespace Inv

variable {node : Node}

theorem skip (h : Inv history node done (tx :: todo)) (hnone : tx.watchedLog = none) :
    Inv history node (done ++ [tx]) todo := by
  have hrevert : ∃ newTotal, tx.operation = .revert newTotal := by
    rw [watchedLog] at hnone
    cases hop : tx.operation with
    | commit commit => simp [hop] at hnone
    | revert newTotal => exact ⟨newTotal, rfl⟩
    | execute n => simp [hop] at hnone
  obtain ⟨newTotal, hop⟩ := hrevert
  refine ⟨h.follows.revert hop, h.failed, ?_, h.fits, ?_⟩
  · rw [h.pending, filterMap_cons_none hnone]
  · have hknown := h.known
    rw [L1PersistBatchWatcher.count] at hknown ⊢
    rw [history.after_append, apply, hop]
    exact hknown

theorem exists_next (h : Inv history node done todo) : (node.pending = [] ∧ Inv history node history.txs [] ∧
      ∀ persisted, ∀ tx ∈ todo, tx.AgreesUpTo history persisted) ∨
    ∃ log rest done' tx todo', node.pending = log :: rest ∧ tx.watchedLog = some log ∧
      rest = todo'.filterMap watchedLog ∧ Inv history node done' (tx :: todo') ∧
      ∀ persisted, (∀ tx ∈ todo, tx.AgreesUpTo history persisted) ↔
        ∀ tx' ∈ tx :: todo', tx'.AgreesUpTo history persisted := by
  induction todo generalizing done with
  | nil =>
    have hdone : done = history.txs := by simpa using h.follows.split
    exact .inl ⟨h.pending, hdone ▸ h, by simp⟩
  | cons tx todo ih =>
    cases hlog : tx.watchedLog with
    | some log =>
      refine .inr ⟨log, todo.filterMap watchedLog, done, tx, todo, ?_, hlog, rfl, h, fun _ => Iff.rfl⟩
      rw [h.pending, filterMap_cons_some hlog]
    | none =>
      have hagrees : ∀ persisted, tx.AgreesUpTo history persisted := agreesUpTo_of_watchedLog hlog
      rcases ih (h.skip hlog) with ⟨hpending, hend, hall⟩ | ⟨log, rest, done', tx', todo', hpending, hlog', hrest, hinv, hiff⟩
      · exact .inl ⟨hpending, hend, fun persisted => forall_mem_cons.mpr ⟨hagrees persisted, hall persisted⟩⟩
      · refine .inr ⟨log, rest, done', tx', todo', hpending, hlog', hrest, hinv, fun persisted => ?_⟩
        rw [forall_mem_cons, ← hiff persisted]
        exact and_iff_right (hagrees persisted)

theorem process (h : Inv history node done (tx :: todo)) {log : Log} (hlog : tx.watchedLog = some log)
    (hfinalized : log.blockNumber ≤ node.finalized) : (tx.AgreesUpTo history node.watcher.lastPersistedBatchOnStart ∧
      Inv history (node.process history log (todo.filterMap watchedLog)) (done ++ [tx]) todo ∧
      (node.process history log (todo.filterMap watchedLog)).watcher.lastPersistedBatchOnStart =
        node.watcher.lastPersistedBatchOnStart) ∨ (¬ tx.AgreesUpTo history node.watcher.lastPersistedBatchOnStart ∧
      (node.process history log (todo.filterMap watchedLog)).failed.isSome = true) := by
  have hblock : log.blockNumber = tx.blockNumber ∧ log.transactionHash = tx.hash := by
    rw [watchedLog] at hlog
    split at hlog <;> cases hlog <;> exact ⟨rfl, rfl⟩
  -- all operations before this one are mined no later than it
  have hupTo : ∀ tx' ∈ done ++ [tx], tx'.blockNumber ≤ node.finalized := by
    intro tx' htx'
    have hordered := history.blocks_ordered
    rw [← h.follows.split, pairwise_append] at hordered
    rcases mem_append.mp htx' with hdone | hlast
    · have := hordered.2.2 tx' hdone tx mem_cons_self
      omega
    · rw [mem_singleton.mp hlast]
      omega
  have hexecuted := executed_after_le h.follows.split_cons hupTo
  have hok : ∀ watcher', node.watcher.processRawEvent history log = .ok watcher' →
      Follows history watcher' (done ++ [tx]) todo →
      watcher'.lastPersistedBatchOnStart = node.watcher.lastPersistedBatchOnStart →
      Inv history (node.process history log (todo.filterMap watchedLog)) (done ++ [tx]) todo ∧
      (node.process history log (todo.filterMap watchedLog)).watcher.lastPersistedBatchOnStart =
        node.watcher.lastPersistedBatchOnStart := by
    intro watcher' hprocess hfollows hstart
    rw [Node.process, hprocess]
    refine ⟨⟨hfollows, h.failed, rfl, h.fits, ?_⟩, hstart⟩
    have hknown := h.known
    rw [L1PersistBatchWatcher.count] at hknown ⊢
    rw [hstart]
    exact max_le ((le_max_left ..).trans hknown) hexecuted
  cases hop : tx.operation with
  | commit commit =>
    have hevent : node.watcher.processRawEvent history log =
        node.watcher.processCommit history commit.commitInfo.batchNumber commit.blockRange log := by
      simp only [watchedLog, hop, Option.some.injEq] at hlog
      rw [processRawEvent, ← hlog]
    rcases h.follows.commit hop hblock.2 hblock.1 with ⟨hagrees, watcher', hprocess, hfollows, hstart⟩ | ⟨hdiffers, e, hprocess⟩
    · exact .inl ⟨hagrees, hok watcher' (hevent.trans hprocess) hfollows hstart⟩
    · refine .inr ⟨hdiffers, ?_⟩
      rw [Node.process, hevent, hprocess]
      rfl
  | revert newTotal => simp [watchedLog, hop] at hlog
  | execute n =>
    have hevent : node.watcher.processRawEvent history log = node.watcher.processExecution n log := by
      simp only [watchedLog, hop, Option.some.injEq] at hlog
      rw [processRawEvent, ← hlog]
    obtain ⟨watcher', hprocess, hfollows, hstart⟩ := h.follows.execute hop hblock.1
    refine .inl ⟨fun n' m _ hm => ?_, hok watcher' (hevent.trans hprocess) hfollows hstart⟩
    simp [commitOf, hop] at hm

section
variable (h : Inv history node done todo)
include h

theorem step_eq (action : Action) : node.step history action = node.act history action := by
  rw [step, h.failed]
  rfl

theorem finalize (block : Fin (2 ^ 64)) : Inv history (node.act history (.finalize block)) done todo := by
  have hblock : (block : Nat) ≤ u64Max := by
    have := block.isLt
    simp only [u64Max]
    omega
  exact ⟨h.follows, h.failed, h.pending, ⟨h.fits.1.trans (le_max_left ..), max_le h.fits.2 hblock⟩,
    h.known.trans (contractAt_executed_mono (le_max_left ..))⟩

theorem restart (latest : Fin (2 ^ 64)) : ∃ startBlock,
      resolveStart history (max node.finalized latest) node.watcher.batchStorage = .ok startBlock ∧
      Inv history (node.act history (.restart latest)) (history.txs.filter (·.blockNumber < startBlock))
        (history.txs.filter (startBlock ≤ ·.blockNumber)) := by
  have hlatest : max node.finalized latest ≤ u64Max := by
    have := latest.isLt
    have := h.fits.2
    simp only [u64Max] at *
    omega
  exact start_inv h.follows.stores h.known ⟨h.fits.1, le_max_left ..⟩ hlatest

theorem sound : Sound history node := by
  refine ⟨h.failed, fun n batch hget => ?_⟩
  rw [h.follows.stores.stored] at hget
  split at hget
  · exact hget
  · cases hget

end

theorem complete (h : Inv history node history.txs []) : Complete history node := by
  refine ⟨h.failed, fun n => ?_⟩
  rw [h.follows.stores.stored]
  split
  · rfl
  · next hlt =>
    refine (executedBatch_eq_none fun tx htx => ?_).symm
    by_contra hexecutes
    obtain ⟨-, hle⟩ := executed_of_executes le_rfl history.allowed htx (Bool.eq_true_of_not_eq_false hexecutes)
    exact hlt (hle.trans (le_max_right ..))

end Inv

theorem agreesEvent_iff (hstores : Stores history storage count)
    (htx : tx ∈ history.txs) {log : Log} (hlog : tx.watchedLog = some log) :
    AgreesEvent history storage log log.event ↔ tx.AgreesUpTo history count := by
  cases hop : tx.operation with
  | commit commit =>
    simp only [watchedLog, hop, Option.some.injEq] at hlog
    subst hlog
    rw [AgreesEvent, parseCommittedBatch_eq htx hop rfl rfl, hstores.latest]
    constructor
    · intro hagrees n m hn hm
      obtain ⟨commit', hop', rfl, rfl⟩ := commitOf_eq_some.mp hm
      obtain rfl : commit = commit' := by simpa using hop.symm.trans hop'
      have hsame := hagrees hn
      rw [hstores.stored, if_pos hn] at hsame
      exact hsame.symm
    · intro hagrees hn
      rw [hstores.stored, if_pos hn]
      exact (hagrees _ _ hn (commitOf_eq_some.mpr ⟨commit, hop, rfl, rfl⟩)).symm
  | revert newTotal => simp [watchedLog, hop] at hlog
  | execute n =>
    simp only [watchedLog, hop, Option.some.injEq] at hlog
    subst hlog
    refine ⟨fun _ n' m _ hm => ?_, fun _ => trivial⟩
    simp [commitOf, hop] at hm

theorem revalidates_iff {startBlock : Nat} (hstores : Stores history storage count) :
    Revalidates history storage (.ok startBlock) ↔
      ∀ tx ∈ history.txs.filter (startBlock ≤ ·.blockNumber), tx.AgreesUpTo history count := by
  rw [Revalidates, history.getLogs_watched]
  constructor
  · intro h tx htx
    cases hlog : tx.watchedLog with
    | none => exact agreesUpTo_of_watchedLog hlog count
    | some log =>
      exact (agreesEvent_iff hstores (mem_filter.mp htx).1 hlog).mp
        (h log (mem_filterMap.mpr ⟨tx, htx, hlog⟩))
  · intro h log hlog
    obtain ⟨tx, htx, hlog⟩ := mem_filterMap.mp hlog
    exact (agreesEvent_iff hstores (mem_filter.mp htx).1 hlog).mpr (h tx htx)

/-! ### Whole runs -/

/-- What every state of a run meets: the commits still to come agree with what is stored. -/
def Inv.Reached (history : History) (node : Node) : Prop :=
  ∃ done todo, Inv history node done todo ∧
    ∀ tx ∈ todo, tx.AgreesUpTo history node.watcher.lastPersistedBatchOnStart

theorem stores_empty (history : History) : Stores history .empty 0 := by
  refine ⟨rfl, fun n => ?_, fun n hpos hle => absurd hle (Nat.not_le_of_lt hpos)⟩
  have hempty : ExecutedBatchStorage.empty.getBatchByNumber n = none := Std.ExtTreeMap.getElem?_empty
  rw [hempty]
  split
  · next hn =>
    refine (executedBatch_eq_none fun tx htx => ?_).symm
    by_contra hexecutes
    obtain ⟨hlt, -⟩ := executed_of_executes le_rfl history.allowed htx (Bool.eq_true_of_not_eq_false hexecutes)
    exact absurd hlt (by omega)
  · rfl

theorem init_reached (history : History) : Inv.Reached history (init history) := by
  obtain ⟨startBlock, -, hinv⟩ := start_inv (stores_empty history) (Nat.zero_le _) ⟨le_rfl, le_rfl⟩ history.fits.1
  refine ⟨_, _, hinv, fun tx htx n m hn hm => ?_⟩
  have hzero : (init history).watcher.lastPersistedBatchOnStart = 0 := by
    rw [Node.init, Node.start]
    split <;> rfl
  have hlt := executed_lt_of_commitOf le_rfl history.allowed (mem_filter.mp htx).1 hm
  omega

theorem step_reached {action : Action} (h : Inv.Reached history node) (hresumes : Resumes history node action) :
    Inv.Reached history (node.step history action) := by
  obtain ⟨done, todo, hinv, hagrees⟩ := h
  rw [hinv.step_eq]
  cases action with
  | finalize block => exact ⟨done, todo, hinv.finalize block, hagrees⟩
  | next =>
    rcases hinv.exists_next with ⟨hpending, -, -⟩ | ⟨log, rest, done', tx, todo', hpending, hlog, rfl, hinv', hiff⟩
    · rw [act, hpending]
      exact ⟨done, todo, hinv, hagrees⟩
    · rw [act, hpending]
      dsimp only
      split
      · next hfinalized =>
        obtain ⟨htx, hrest⟩ := forall_mem_cons.mp ((hiff _).mp hagrees)
        rcases hinv'.process hlog hfinalized with ⟨-, hinv'', hstart⟩ | ⟨hdiffers, -⟩
        · exact ⟨_, _, hinv'', hstart ▸ hrest⟩
        · exact absurd htx hdiffers
      · exact ⟨done, todo, hinv, hagrees⟩
  | restart latest =>
    obtain ⟨startBlock, hresolve, hinv'⟩ := hinv.restart latest
    rw [Resumes, hresolve, revalidates_iff hinv.follows.stores] at hresumes
    refine ⟨_, _, hinv', ?_⟩
    have hstart : (node.act history (.restart latest)).watcher.lastPersistedBatchOnStart =
        node.watcher.count history done := by
      rw [act, start, hresolve]
      exact hinv.follows.stores.latest
    rw [hstart]
    exact hresumes

theorem foldl_step_of_failed (h : node.failed.isSome = true) (actions : List Action) :
    actions.foldl (step history) node = node := by
  induction actions with
  | nil => rfl
  | cons action actions ih =>
    have hstep : node.step history action = node := if_pos h
    rw [foldl_cons, hstep, ih]

@[simp] theorem Node.process_finalized (node : Node) (log : Log) (rest : List Log) :
    (node.process history log rest).finalized = node.finalized := by
  rw [process]
  split <;> rfl

/-- Processing everything that is left stores all executed batches, unless a commit differs from
what is stored. -/
theorem Inv.process_all (h : Inv history node done todo) (hfinalized : node.finalized = u64Max)
    {rounds : Nat} (hrounds : node.pending.length ≤ rounds) :
    ((∀ tx ∈ todo, tx.AgreesUpTo history node.watcher.lastPersistedBatchOnStart) ∧
      Complete history ((replicate rounds .next).foldl (step history) node)) ∨
    (¬ (∀ tx ∈ todo, tx.AgreesUpTo history node.watcher.lastPersistedBatchOnStart) ∧
      ((replicate rounds .next).foldl (step history) node).failed.isSome = true) := by
  induction rounds generalizing node done todo with
  | zero =>
    rcases h.exists_next with ⟨-, hend, hagrees⟩ | ⟨log, rest, done', tx, todo', hpending, -⟩
    · exact .inl ⟨hagrees _, hend.complete⟩
    · simp [hpending] at hrounds
  | succ rounds ih =>
    rw [replicate_succ, foldl_cons, h.step_eq]
    rcases h.exists_next with ⟨hpending, hend, hagrees⟩ | ⟨log, rest, done', tx, todo', hpending, hlog, rfl, hinv, hiff⟩
    · have hstay : node.act history .next = node := by rw [act, hpending]
      rw [hstay]
      exact ih h hfinalized (by simp [hpending])
    · have hblock : log.blockNumber ≤ node.finalized := by
        have hfits := history.fits.2 tx hinv.follows.mem
        rw [watchedLog] at hlog
        rw [hfinalized]
        split at hlog <;> cases hlog <;> exact hfits
      have hact : node.act history .next = node.process history log (todo'.filterMap watchedLog) := by
        rw [act, hpending]
        exact if_pos hblock
      rw [hact, hiff, forall_mem_cons]
      rcases hinv.process hlog hblock with ⟨hagrees, hinv', hstart⟩ | ⟨hdiffers, hfailed⟩
      · have hrest : (node.process history log (todo'.filterMap watchedLog)).pending.length ≤ rounds := by
          rw [hinv'.pending]
          simpa [hpending] using hrounds
        rw [and_iff_right hagrees, ← hstart]
        exact ih hinv' (by simpa using hfinalized) hrest
      · rw [foldl_step_of_failed hfailed]
        exact .inr ⟨fun h => hdiffers h.1, hfailed⟩

theorem Inv.drain (h : Inv history node done todo) :
    Complete history (node.drain history) ↔ ∀ tx ∈ todo, tx.AgreesUpTo history node.watcher.lastPersistedBatchOnStart := by
  have hlength : node.pending.length ≤ history.txs.length := by
    rw [h.pending, ← h.follows.split, length_append]
    exact (length_filterMap_le ..).trans (Nat.le_add_left ..)
  have hfinalized : (node.act history (.finalize (Fin.last _))).finalized = u64Max :=
    max_eq_right h.fits.2
  rw [Node.drain, foldl_cons, h.step_eq]
  rcases (h.finalize (Fin.last _)).process_all hfinalized hlength with ⟨hagrees, hcomplete⟩ | ⟨hdiffers, hfailed⟩
  · exact ⟨fun _ => hagrees, fun _ => hcomplete⟩
  · refine ⟨fun hcomplete => ?_, fun hagrees => absurd hagrees hdiffers⟩
    rw [hcomplete.failed] at hfailed
    cases hfailed

/-- A batch that is committed again has the same contents. -/
def History.SameCommits (history : History) : Prop :=
  ∀ tx ∈ history.txs, ∀ tx' ∈ history.txs, ∀ n m m', tx.commitOf n = some m → tx'.commitOf n = some m' → m.commit = m'.commit

theorem History.SameCommits.parsed (h : history.SameCommits) (htx : tx ∈ history.txs) (hm : tx.commitOf n = some m) :
    history.parsed m = m.commit.discovered := by
  obtain ⟨commit, hop, rfl, rfl⟩ := commitOf_eq_some.mp hm
  have hmem : tx ∈ history.txs.filter (·.blockNumber = tx.blockNumber) := mem_filter.mpr ⟨htx, by simp⟩
  obtain ⟨last, hlast⟩ := exists_lastCommit_of_mem hmem hm
  obtain ⟨tx', htx', hm'⟩ := mem_of_lastCommit hlast
  have hcommit : last.commit = commit := h tx' (mem_filter.mp htx').1 tx htx _ _ _ hm' hm
  rw [History.parsed]
  dsimp only
  rw [hlast, Option.map_some, hcommit]
  rfl

theorem History.SameCommits.resumes (h : history.SameCommits) (hreached : Inv.Reached history node) (action : Action) :
    Resumes history node action := by
  cases action with
  | restart latest =>
    obtain ⟨done, todo, hinv, -⟩ := hreached
    obtain ⟨startBlock, hresolve, -⟩ := hinv.restart latest
    rw [Resumes, hresolve, revalidates_iff hinv.follows.stores]
    intro tx htx n m hn hm
    have htx := (mem_filter.mp htx).1
    have hpos := executed_lt_of_commitOf le_rfl history.allowed htx hm
    obtain ⟨batch, hbatch⟩ := Option.isSome_iff_exists.mp (hinv.follows.stores.present n hpos hn)
    rw [hbatch]
    rw [executedBatch] at hbatch
    split at hbatch
    · cases hbatch
    · obtain ⟨m', hm', rfl⟩ := Option.map_eq_some_iff.mp hbatch
      obtain ⟨tx', htx', hcommit⟩ := mem_of_lastCommit hm'
      rw [h.parsed htx hm, ← h tx' ((takeWhile_sublist _).subset htx') tx htx n m' m hcommit hm]
      rfl
  | finalize | next => trivial

/-- As long as every restart re-reads only commits that agree with the storage, no state of a run
has failed or stores anything but executed batches, and the watcher ends up with exactly these,
each with its last commit before the execution. A further restart goes well exactly when it
meets this condition, too. All restarts meet it if no batch is committed again with other contents. -/
theorem persisted_batches_live (history : History) (actions : List Action)
    (h : Steps (Node.step history) (Resumes history) (Node.init history) actions) :
    States (Node.step history) (Sound history) (Node.init history) actions ∧
    Complete history ((actions.foldl (Node.step history) (Node.init history)).drain history) ∧
    (∀ latest, Complete history
        (((actions.foldl (Node.step history) (Node.init history)).step history (.restart latest)).drain history) ↔
      Resumes history (actions.foldl (Node.step history) (Node.init history)) (.restart latest)) ∧
    (history.SameCommits → ∀ run, Steps (Node.step history) (Resumes history) (Node.init history) run) := by
  have hstates : States (step history) (Inv.Reached history) (init history) actions :=
    h.invariant (fun _ _ hreached hresumes => step_reached hreached hresumes) (init_reached history)
  obtain ⟨done, todo, hinv, hagrees⟩ := hstates.last
  refine ⟨hstates.imp fun _ ⟨_, _, hinv, _⟩ => hinv.sound, hinv.drain.mpr hagrees, fun latest => ?_, fun hsame run => ?_⟩
  · obtain ⟨startBlock, hresolve, hinv'⟩ := hinv.restart latest
    rw [hinv.step_eq, hinv'.drain, Resumes, hresolve, revalidates_iff hinv.follows.stores, act, start, hresolve]
    exact hinv.follows.stores.latest ▸ Iff.rfl
  · refine Steps.imp (P := fun _ _ => True) (fun node action hreached _ => ?_)
      (fun node action hreached _ => hsame.resumes hreached action) (init_reached history) (steps_of_forall fun _ _ => trivial)
    exact step_reached hreached (hsame.resumes hreached action)

/-- Batch 1 is stored, the node restarts, batch 2 is stored and the node restarts once more. -/
def recommittedRun : List Action :=
  [.finalize 13] ++ List.replicate 4 .next ++ [.restart 14, .finalize 15] ++ List.replicate 6 .next ++ [.restart 15]

theorem persisted_batches_live_sample :
    Steps (Node.step recommitted) (Resumes recommitted) (Node.init recommitted) recommittedRun ∧
    Complete recommitted ((recommittedRun.foldl (Node.step recommitted) (Node.init recommitted)).drain recommitted) := by
  have hresumes : Steps (step recommitted) (Resumes recommitted) (init recommitted) recommittedRun := by
    decide +kernel
  exact ⟨hresumes, (persisted_batches_live recommitted recommittedRun hresumes).2.1⟩

/-- Batch 1 is committed, reverted and committed with another state in one block, then executed. -/
def recommittedInBlock : History where
  deploymentBlock := 10
  hash batch := batch.stateCommitment
  genesisHash := 7
  txs := [⟨11, 0, 1, sampleCommit 1 50⟩, ⟨11, 1, 2, .revert 0⟩, ⟨11, 2, 3, sampleCommit 1 51⟩, ⟨12, 0, 4, .execute 1⟩]
  deployed := by decide +kernel
  fits := by decide +kernel
  ordered := by decide +kernel
  distinct := by decide +kernel
  allowed := by decide +kernel

/-- The batch is stored, and a restart then fails on the commit that was reverted. -/
theorem restart_fails_on_reverted_commit :
    let stored := ([.finalize 12, .next, .next, .next] : List Action).foldl (Node.step recommittedInBlock)
      (Node.init recommittedInBlock)
    stored.watcher.batchStorage.getBatchByNumber 1 = executedBatch recommittedInBlock.txs 1 ∧
    (([.restart 12, .next] : List Action).foldl (Node.step recommittedInBlock) stored).failed = some (.storedBatchMismatch 1) := by
  decide +kernel

end L1Watcher
