import ZksyncOsServer.Mempool.Subpools

/-!
# Interop fee updates

`mempool/src/interop_fee_updater.rs` and the streams of `mempool/src/subpools/interop_fee.rs` while blocks
are executed and applied. The updater compares the fee of the latest applied block with the one it has
enqueued last; a block is reported to the subpool before it is applied. Produced blocks take their fee
transaction from a stream and are cleaned up strictly, replayed and rebuilt ones bring their own.
-/
namespace Mempool

open Fallible List InteropFeeSubpool Run
open Types (SystemTxEnvelope)

namespace InteropFeeUpdates

/-- `should_update_fee`; the deviation is compared as an exact ratio. -/
def shouldUpdateFee (currentFee targetFee deviationPercentage : Nat) : Bool :=
  if currentFee = targetFee then false
  else if currentFee = 0 then true
  else
    let diff := if currentFee < targetFee then targetFee - currentFee else currentFee - targetFee
    deviationPercentage * currentFee ≤ diff * 100

theorem ne_of_shouldUpdateFee {currentFee targetFee deviationPercentage : Nat}
    (h : shouldUpdateFee currentFee targetFee deviationPercentage = true) : targetFee ≠ currentFee := by
  rintro rfl
  simp [shouldUpdateFee] at h

/-- `StreamState`; an open stream comes with the slot of its channel. -/
inductive StreamState where
  | empty (slot : Option Nat) (nextInteropFeeNumber : Nat)
  | pending (tx : SystemTxEnvelope)
  | closed
  deriving DecidableEq

def StreamState.pollNext : StreamState → Option SystemTxEnvelope × StreamState
  | .empty none number => (none, .empty none number)
  | .empty (some fee) number => (some (.setInteropFee fee number), .closed)
  | .pending tx => (some tx, .closed)
  | .closed => (none, .closed)

/-- The executor: a produced block has a stream and possibly a transaction that it took from there. -/
inductive Production where
  | idle
  | streaming (stream : StreamState) (taken : Option SystemTxEnvelope)
  deriving DecidableEq

inductive Iteration where
  | idle
  | observed (currentInteropFee : Nat)
  | inserting (targetInteropFee : Nat)
  deriving DecidableEq

structure State where
  subpool : InteropFeeSubpool
  sender : Bool
  production : Production
  iteration : Iteration
  lastEnqueuedFee : Option Nat
  unapplied : List (List Nat)
  /-- `interopProtocolFee()` in the latest applied block. -/
  interopFee : Nat
  numbers : List Nat
  /-- Whether a fee has been replaced before it was consumed. -/
  overwritten : Bool
  stopped : Option Stop

/-- The pool after `init`. -/
def start (nextInteropFeeNumber interopFee : Nat) : State where
  subpool := ⟨none, nextInteropFeeNumber⟩
  sender := false
  production := .idle
  iteration := .idle
  lastEnqueuedFee := none
  unapplied := []
  interopFee
  numbers := []
  overwritten := false
  stopped := none

/-! ### The updater -/

/-- `loop_iteration` up to the call of the gateway. -/
def State.observe (s : State) : State :=
  match s.lastEnqueuedFee with
  | some lastEnqueuedFee =>
    if s.interopFee = lastEnqueuedFee then
      { s with lastEnqueuedFee := none, iteration := .observed s.interopFee }
    else s
  | none => { s with iteration := .observed s.interopFee }

/-- The comparison of `loop_iteration` with the target fee; there is none if the gateway fails. -/
def State.compare (s : State) (deviationPercentage currentInteropFee : Nat) (target : Option Nat) : State :=
  match target with
  | some target =>
    { s with iteration := if shouldUpdateFee currentInteropFee target deviationPercentage then .inserting target else .idle }
  | none => { s with iteration := .idle }

def State.insert (s : State) (fee : Nat) : State :=
  let enqueued := { s with
    subpool := { s.subpool with pendingFee := some fee }
    iteration := .idle
    lastEnqueuedFee := some fee
    overwritten := s.overwritten || s.subpool.pendingFee.isSome }
  if s.sender then
    match s.production with
    | .streaming (.empty none number) taken => { enqueued with production := .streaming (.empty (some fee) number) taken }
    -- The slot is taken: `send` waits until the stream is polled or dropped.
    | .streaming (.empty (some _) _) _ => s
    -- The receiver has been dropped.
    | _ => { enqueued with sender := false }
  else enqueued

/-! ### Blocks -/

def State.bestTransactionsStream (s : State) : State :=
  { s with
    sender := true
    production := .streaming (match s.subpool.pendingFee with
      | some fee => .pending (.setInteropFee fee s.subpool.nextInteropFeeNumber)
      | none => .empty none s.subpool.nextInteropFeeNumber) none }

def State.poll (s : State) (stream : StreamState) (taken : Option SystemTxEnvelope) : State :=
  match stream.pollNext with
  | (some tx, stream) => { s with production := .streaming stream (some tx) }
  | (none, stream) => { s with production := .streaming stream taken }

def fees (txs : List SystemTxEnvelope) : List Nat :=
  txs.filterMap fun tx => match tx with
    | .setInteropFee fee _ => some fee
    | _ => none

def feeNumbers (txs : List SystemTxEnvelope) : List Nat :=
  txs.filterMap fun tx => match tx with
    | .setInteropFee _ number => some number
    | _ => none

/-- An executed block with the given fee transactions updates the pool and is sent downstream. -/
def State.execute (s : State) (txs : List SystemTxEnvelope) (strictSubpoolCleanup : Bool) : State :=
  match s.subpool.onCanonicalStateChange txs strictSubpoolCleanup with
  | .ok (_, subpool) =>
    { s with
      subpool
      production := .idle
      unapplied := s.unapplied ++ [fees txs]
      numbers := s.numbers ++ feeNumbers txs }
  | .error stop => { s with stopped := some stop }

/-- The oldest executed block gets applied. -/
def State.apply (s : State) : State :=
  match s.unapplied with
  | block :: unapplied => { s with unapplied, interopFee := block.getLast?.getD s.interopFee }
  | [] => s

def feeTxs (txs : List (Nat × Nat)) : List SystemTxEnvelope := txs.map fun tx => .setInteropFee tx.1 tx.2

inductive Event where
  /-- An iteration of the updater reads the fee of the latest applied block. -/
  | observe
  | compare (target : Option Nat)
  | insert
  | openStream
  | poll
  /-- The produced block is sealed, with or without the transaction taken from the stream. -/
  | sealed (included : Bool)
  /-- A replayed or rebuilt block is executed; its fees come with their numbers. -/
  | replay (txs : List (Nat × Nat))
  | apply
  deriving DecidableEq

def step (deviationPercentage : Nat) (s : State) (event : Event) : State :=
  if s.stopped.isSome then s
  else match event, s.iteration, s.production with
    | .observe, .idle, _ => s.observe
    | .compare target, .observed currentInteropFee, _ => s.compare deviationPercentage currentInteropFee target
    | .insert, .inserting fee, _ => s.insert fee
    | .openStream, _, .idle => s.bestTransactionsStream
    | .poll, _, .streaming stream taken => s.poll stream taken
    | .sealed included, _, .streaming _ taken => s.execute (if included then taken.toList else []) true
    | .replay txs, _, .idle => s.execute (feeTxs txs) false
    | .apply, _, _ => s.apply
    | _, _, _ => s

/-- Replayed blocks continue the sequence of fee numbers. -/
def Increasing (s : State) : Event → Prop
  | .replay txs => txs.Pairwise (fun a b => a.2 < b.2) ∧ ∀ tx ∈ txs, s.subpool.nextInteropFeeNumber ≤ tx.2
  | _ => True

instance (s : State) : DecidablePred (Increasing s) := fun event => by
  unfold Increasing
  split <;> infer_instance

/-- No assertion has failed, every executed transaction has a fresh number, and no fee was replaced. -/
structure InStep (s : State) : Prop where
  running : s.stopped = none
  fresh : s.numbers.Pairwise (· < ·)
  kept : s.overwritten = false

/-- `insert` waits for the open stream. -/
def State.sendWaits (s : State) : Bool :=
  match s.production with
  | .streaming (.empty (some _) _) _ => s.sender
  | _ => false

def NothingPending (s : State) : Event → Prop
  | .insert => ∀ fee, s.iteration = .inserting fee → s.sendWaits = false → s.subpool.pendingFee = none
  | _ => True

/-! ### What is served is what is pending -/

variable {deviationPercentage : Nat} {s : State}

def Expected (subpool : InteropFeeSubpool) (tx : SystemTxEnvelope) : Prop :=
  ∃ fee, subpool.pendingFee = some fee ∧ tx = .setInteropFee fee subpool.nextInteropFeeNumber

def StreamState.Serves (sender : Bool) (subpool : InteropFeeSubpool) : StreamState → Prop
  | .empty none number => number = subpool.nextInteropFeeNumber ∧ subpool.pendingFee = none ∧ sender = true
  | .empty (some fee) number => number = subpool.nextInteropFeeNumber ∧ subpool.pendingFee = some fee
  | .pending tx => Expected subpool tx
  | .closed => True

def Production.Serves (sender : Bool) (subpool : InteropFeeSubpool) : Production → Prop
  | .idle => True
  | .streaming stream taken => stream.Serves sender subpool ∧ ∀ tx ∈ taken, Expected subpool tx

/-- Until a fee is replaced, streams and blocks agree with the subpool. -/
structure Inv (s : State) : Prop where
  fresh : s.numbers.Pairwise (· < ·)
  below : ∀ number ∈ s.numbers, number < s.subpool.nextInteropFeeNumber
  running : s.overwritten = false → s.stopped = none
  serves : s.overwritten = false → s.production.Serves s.sender s.subpool

theorem inv_start (nextInteropFeeNumber interopFee : Nat) : Inv (start nextInteropFeeNumber interopFee) :=
  ⟨List.Pairwise.nil, forall_mem_nil _, fun _ => rfl, fun _ => trivial⟩

theorem Inv.inStep_iff (h : Inv s) : InStep s ↔ s.overwritten = false :=
  ⟨InStep.kept, fun hkept => ⟨h.running hkept, h.fresh, hkept⟩⟩

theorem Inv.observe (h : Inv s) : Inv s.observe := by
  rw [State.observe]
  split
  · split
    · exact { h with }
    · exact h
  · exact { h with }

variable {currentInteropFee fee : Nat} {target : Option Nat} {subpool : InteropFeeSubpool} {stream : StreamState}
    {taken : Option SystemTxEnvelope}

theorem Inv.compare (h : Inv s) : Inv (s.compare deviationPercentage currentInteropFee target) := by
  cases target with
  | some target => exact { h with }
  | none => exact { h with }

theorem Inv.apply (h : Inv s) : Inv s.apply := by
  rw [State.apply]
  split
  · exact { h with }
  · exact h

theorem not_expected {tx : SystemTxEnvelope} (hpending : subpool.pendingFee = none) : ¬ Expected subpool tx := by
  rintro ⟨fee, hfee, -⟩
  exact absurd (hpending.symm.trans hfee) (by simp)

theorem Production.Serves.taken_eq_none {sender : Bool} (h : (Production.streaming stream taken).Serves sender subpool)
    (hpending : subpool.pendingFee = none) : taken = none :=
  Option.eq_none_iff_forall_ne_some.mpr fun tx htx => not_expected hpending (h.2 tx htx)

theorem Production.Serves.of_pendingFee_eq_none {production : Production} {sender sender' : Bool}
    {subpool' : InteropFeeSubpool} (h : production.Serves sender subpool)
    (hpending : subpool.pendingFee = none) (hopen : ∀ number taken, production ≠ .streaming (.empty none number) taken) :
    production.Serves sender' subpool' := by
  match production, h with
  | .idle, _ => trivial
  | .streaming (.empty none number) taken, _ => exact absurd rfl (hopen number taken)
  | .streaming (.empty (some fee) _) _, h => exact absurd (hpending.symm.trans h.1.2) (by simp)
  | .streaming (.pending _) _, h => exact absurd h.1 (not_expected hpending)
  | .streaming .closed _, h => exact ⟨trivial, h.taken_eq_none hpending ▸ nofun⟩

/-- A fee that is enqueued while nothing is pending reaches the open stream, if there is one. -/
theorem Inv.insert (h : Inv s) : Inv (s.insert fee) := by
  have hkept : (s.overwritten || s.subpool.pendingFee.isSome) = false →
      s.overwritten = false ∧ s.subpool.pendingFee = none := by
    intro hor
    obtain ⟨hkept, hpending⟩ := Bool.or_eq_false_iff.mp hor
    exact ⟨hkept, Option.isNone_iff_eq_none.mp (Option.isSome_eq_false_iff.mp hpending)⟩
  have hrunning : (s.overwritten || s.subpool.pendingFee.isSome) = false → s.stopped = none :=
    fun hor => h.running (hkept hor).1
  rw [State.insert]
  split
  · split
    next number taken hproduction =>
      refine ⟨h.fresh, h.below, hrunning, fun hor => ?_⟩
      obtain ⟨hkept, hpending⟩ := hkept hor
      have hserves := h.serves hkept
      rw [hproduction] at hserves
      exact ⟨⟨hserves.1.1, rfl⟩, hserves.taken_eq_none hpending ▸ nofun⟩
    · exact h
    next hopen _ =>
      refine ⟨h.fresh, h.below, hrunning, fun hor => ?_⟩
      obtain ⟨hkept, hpending⟩ := hkept hor
      exact (h.serves hkept).of_pendingFee_eq_none hpending hopen
  next hsender =>
    refine ⟨h.fresh, h.below, hrunning, fun hor => ?_⟩
    obtain ⟨hkept, hpending⟩ := hkept hor
    refine (h.serves hkept).of_pendingFee_eq_none hpending fun number taken hproduction => ?_
    have hserves := h.serves hkept
    rw [hproduction] at hserves
    exact hsender hserves.1.2.2

theorem insert_of_sendWaits (h : s.sendWaits = true) : s.insert fee = s := by
  rw [State.sendWaits] at h
  split at h
  next hproduction =>
    simp only [State.insert, h, if_true, hproduction]
  · cases h

theorem insert_overwritten (h : s.sendWaits = false) :
    (s.insert fee).overwritten = (s.overwritten || s.subpool.pendingFee.isSome) := by
  rw [State.insert]
  split
  next hsender =>
    split
    · rfl
    next hproduction =>
      simp [State.sendWaits, hproduction, hsender] at h
    · rfl
  · rfl

/-- A fee is replaced exactly if one is pending when the updater enqueues the next. -/
theorem insert_kept_iff (hkept : s.overwritten = false) :
    (s.insert fee).overwritten = false ↔ (s.sendWaits = false → s.subpool.pendingFee = none) := by
  cases hwaits : s.sendWaits with
  | true => simp [insert_of_sendWaits hwaits, hkept]
  | false => simp [insert_overwritten hwaits, hkept]

theorem Inv.bestTransactionsStream (h : Inv s) : Inv s.bestTransactionsStream := by
  refine ⟨h.fresh, h.below, h.running, fun _ => ⟨?_, nofun⟩⟩
  cases hpending : s.subpool.pendingFee with
  | some fee => exact ⟨fee, hpending, rfl⟩
  | none => exact ⟨rfl, hpending, rfl⟩

theorem Inv.poll (h : Inv s) (hproduction : s.production = .streaming stream taken) : Inv (s.poll stream taken) := by
  have hserves := hproduction ▸ h.serves
  have htaken : ∀ {tx : SystemTxEnvelope}, Expected s.subpool tx →
      (Production.streaming .closed (some tx)).Serves s.sender s.subpool :=
    fun {tx} hexpected => ⟨trivial, fun other hother => Option.some.inj hother ▸ hexpected⟩
  match stream with
  | .empty none _ => exact ⟨h.fresh, h.below, h.running, hserves⟩
  | .empty (some fee) _ =>
    exact ⟨h.fresh, h.below, h.running, fun hkept =>
      htaken ⟨fee, (hserves hkept).1.2, by rw [(hserves hkept).1.1]⟩⟩
  | .pending tx => exact ⟨h.fresh, h.below, h.running, fun hkept => htaken (hserves hkept).1⟩
  | .closed => exact ⟨h.fresh, h.below, h.running, hserves⟩

/-! ### Executed blocks -/

theorem consumeExpectedTx_eq_ok {tx : SystemTxEnvelope} {left : Nat × InteropFeeSubpool} :
    subpool.consumeExpectedTx tx = .ok left ↔
      Expected subpool tx ∧ left = (subpool.nextInteropFeeNumber, ⟨none, subpool.nextInteropFeeNumber + 1⟩) := by
  constructor
  · intro h
    obtain ⟨fee, hfee, h⟩ := bind_eq_ok.mp h
    obtain ⟨_, htx, h⟩ := bind_eq_ok.mp h
    exact ⟨⟨fee, ofOption_eq_ok.mp hfee, assertEq_eq_ok.mp htx⟩, (pure_eq_ok.mp h).symm⟩
  · rintro ⟨⟨fee, hfee, rfl⟩, rfl⟩
    rw [consumeExpectedTx, hfee]
    simp [ofOption_some, assertEq, ok_bind, require_pos, pure, Except.pure]

@[simp] theorem feeNumbers_feeTxs (txs : List (Nat × Nat)) : feeNumbers (feeTxs txs) = txs.map (·.2) := by
  simp [feeNumbers, feeTxs, filterMap_map]

theorem onCanonicalStateChange_strict {tx : Option SystemTxEnvelope}
    {left : Option Nat × InteropFeeSubpool} (h : subpool.onCanonicalStateChange tx.toList true = .ok left) :
    tx = none ∧ left.2 = subpool ∨
      ∃ fee, subpool.pendingFee = some fee ∧ tx = some (.setInteropFee fee subpool.nextInteropFeeNumber) ∧
        left.2 = ⟨none, subpool.nextInteropFeeNumber + 1⟩ := by
  rw [onCanonicalStateChange, if_pos rfl] at h
  cases tx with
  | none => exact .inl ⟨rfl, congrArg Prod.snd (Except.ok.inj h).symm⟩
  | some tx =>
    obtain ⟨consumed, hconsumed, h⟩ := bind_eq_ok.mp h
    obtain ⟨⟨fee, hfee, rfl⟩, rfl⟩ := consumeExpectedTx_eq_ok.mp hconsumed
    exact .inr ⟨fee, hfee, rfl, congrArg Prod.snd (Except.ok.inj h).symm⟩

theorem exists_onCanonicalStateChange_strict {tx : Option SystemTxEnvelope}
    (h : ∀ expected ∈ tx, Expected subpool expected) :
    ∃ left, subpool.onCanonicalStateChange tx.toList true = .ok left := by
  rw [onCanonicalStateChange, if_pos rfl]
  cases tx with
  | none => exact ⟨_, rfl⟩
  | some tx =>
    refine ⟨(some subpool.nextInteropFeeNumber, ⟨none, subpool.nextInteropFeeNumber + 1⟩), ?_⟩
    rw [Option.toList_some, consumeAll, consumeExpectedTx_eq_ok.mpr ⟨h tx rfl, rfl⟩, ok_bind]
    rfl

theorem onCanonicalStateChange_lenient (subpool : InteropFeeSubpool) (txs : List (Nat × Nat)) :
    subpool.onCanonicalStateChange (feeTxs txs) false = .ok ((txs.map (·.2)).getLast?, { subpool with
      nextInteropFeeNumber := (txs.map (·.2)).getLast?.elim subpool.nextInteropFeeNumber
        fun last => max subpool.nextInteropFeeNumber (last + 1) }) := by
  have hnumbers : (feeTxs txs).mapM interopFeeNumber = .ok (txs.map (·.2)) := by
    induction txs with
    | nil => rfl
    | cons tx txs ih =>
      rw [feeTxs, map_cons, mapM_cons, ← feeTxs, ih]
      rfl
  rw [onCanonicalStateChange, if_neg (by simp), hnumbers]
  rfl

theorem Inv.sealed {tx : Option SystemTxEnvelope} (h : Inv s)
    (hproduction : s.production = .streaming stream taken) (htx : ∀ expected ∈ tx, expected ∈ taken) :
    Inv (s.execute tx.toList true) := by
  rw [State.execute]
  split
  next last subpool hok =>
    rcases onCanonicalStateChange_strict hok with ⟨rfl, hleft⟩ | ⟨fee, -, rfl, hleft⟩
    · obtain rfl : subpool = s.subpool := hleft
      refine ⟨?_, ?_, h.running, fun _ => trivial⟩
      · simpa [feeNumbers] using h.fresh
      · simpa [feeNumbers] using h.below
    · obtain rfl : subpool = _ := hleft
      refine ⟨?_, ?_, h.running, fun _ => trivial⟩
      · exact pairwise_append.mpr ⟨h.fresh, pairwise_singleton _ _, fun number hnumber next hnext =>
          mem_singleton.mp hnext ▸ h.below number hnumber⟩
      · intro number hnumber
        rcases mem_append.mp hnumber with hnumber | hnumber
        · exact Nat.lt_succ_of_lt (h.below number hnumber)
        · exact mem_singleton.mp hnumber ▸ Nat.lt_succ_self _
  next stop herror =>
    have hoverwritten : s.overwritten ≠ false := by
      intro hkept
      have hserves := h.serves hkept
      rw [hproduction] at hserves
      obtain ⟨left, hleft⟩ := exists_onCanonicalStateChange_strict fun expected hexpected =>
        hserves.2 expected (htx expected hexpected)
      exact absurd (hleft.symm.trans herror) (by simp)
    exact ⟨h.fresh, h.below, fun hkept => absurd hkept hoverwritten, fun hkept => absurd hkept hoverwritten⟩

theorem Inv.replay {txs : List (Nat × Nat)} (h : Inv s) (hincreasing : Increasing s (.replay txs)) :
    Inv (s.execute (feeTxs txs) false) := by
  obtain ⟨hpairwise, hfrom⟩ := hincreasing
  rw [State.execute, onCanonicalStateChange_lenient]
  refine ⟨?_, ?_, h.running, fun _ => trivial⟩
  · rw [feeNumbers_feeTxs, pairwise_append, pairwise_map]
    refine ⟨h.fresh, hpairwise, fun number hnumber next hnext => ?_⟩
    obtain ⟨tx, htx, rfl⟩ := mem_map.mp hnext
    exact (h.below number hnumber).trans_le (hfrom tx htx)
  · intro number hnumber
    rw [feeNumbers_feeTxs] at hnumber
    rcases eq_nil_or_concat' txs with rfl | ⟨before, last, rfl⟩
    · exact h.below number (by simpa using hnumber)
    · rw [map_append, map_singleton, getLast?_concat]
      change number < max s.subpool.nextInteropFeeNumber (last.2 + 1)
      rcases mem_append.mp hnumber with hnumber | hnumber
      · exact (h.below number hnumber).trans_le (le_max_left _ _)
      · obtain ⟨tx, htx, rfl⟩ := mem_map.mp hnumber
        refine lt_of_lt_of_le (Nat.lt_succ_of_le ?_) (le_max_right _ _)
        rcases mem_append.mp htx with htx | htx
        · exact ((pairwise_append.mp hpairwise).2.2 tx htx last (mem_singleton_self _)).le
        · exact (mem_singleton.mp htx ▸ le_rfl)

theorem ite_toList (included : Bool) (taken : Option SystemTxEnvelope) :
    (if included then taken.toList else []) = (taken.filter fun _ => included).toList := by
  cases included <;> cases taken <;> rfl

theorem inv_step (s : State) (event : Event) (h : Inv s) (hincreasing : Increasing s event) :
    Inv (step deviationPercentage s event) := by
  unfold step
  split
  · exact h
  · split
    · exact h.observe
    · exact h.compare
    · exact h.insert
    · exact h.bestTransactionsStream
    next hproduction =>
      exact h.poll hproduction
    next hproduction =>
      rw [ite_toList]
      exact h.sealed hproduction fun expected hexpected => (Option.filter_eq_some_iff.mp hexpected).1
    · exact h.replay hincreasing
    · exact h.apply
    · exact h

theorem observe_overwritten : s.observe.overwritten = s.overwritten := by
  rw [State.observe]
  split
  · split <;> rfl
  · rfl

theorem compare_overwritten : (s.compare deviationPercentage currentInteropFee target).overwritten = s.overwritten := by
  cases target <;> rfl

theorem poll_overwritten : (s.poll stream taken).overwritten = s.overwritten := by
  rw [State.poll]
  split <;> rfl

theorem execute_overwritten {txs : List SystemTxEnvelope} {strictSubpoolCleanup : Bool} :
    (s.execute txs strictSubpoolCleanup).overwritten = s.overwritten := by
  rw [State.execute]
  split <;> rfl

theorem apply_overwritten : s.apply.overwritten = s.overwritten := by
  rw [State.apply]
  split <;> rfl

theorem step_overwritten {event : Event} (h : event ≠ .insert) :
    (step deviationPercentage s event).overwritten = s.overwritten := by
  unfold step
  split
  · rfl
  · split
    · exact observe_overwritten
    · exact compare_overwritten
    · exact absurd rfl h
    · rfl
    · exact poll_overwritten
    · exact execute_overwritten
    · exact execute_overwritten
    · exact apply_overwritten
    · rfl

theorem step_kept_iff {event : Event} (h : InStep s) :
    (step deviationPercentage s event).overwritten = false ↔ NothingPending s event := by
  by_cases hinsert : event = .insert
  · subst hinsert
    unfold step
    rw [if_neg (by simp [h.running]), NothingPending]
    cases hiteration : s.iteration with
    | inserting fee =>
      refine (insert_kept_iff h.kept).trans ⟨fun hpending _ _ => hpending, fun hpending => hpending fee rfl⟩
    | idle => exact ⟨fun _ => nofun, fun _ => h.kept⟩
    | observed currentInteropFee => exact ⟨fun _ => nofun, fun _ => h.kept⟩
  · rw [step_overwritten hinsert, h.kept]
    cases event with
    | insert => exact absurd rfl hinsert
    | _ => exact ⟨fun _ => trivial, fun _ => rfl⟩

/-! ### Runs in which only produced blocks set the fee -/

/-- Where the fee that was enqueued last has got to: the fee of the latest applied block, then what the
updater remembers, what is pending and what executed blocks set. -/
inductive Own (interopFee : Nat) : Option Nat → Option Nat → List Nat → Iteration → Prop
  | idle : Own interopFee none none [] .idle
  | observed : Own interopFee none none [] (.observed interopFee)
  | inserting {fee : Nat} (h : fee ≠ interopFee) : Own interopFee none none [] (.inserting fee)
  | enqueued {fee : Nat} (h : interopFee ≠ fee) : Own interopFee (some fee) (some fee) [] .idle
  | executed {fee : Nat} (h : interopFee ≠ fee) : Own interopFee (some fee) none [fee] .idle
  | applied : Own interopFee (some interopFee) none [] .idle

section Own

variable {interopFee fee currentInteropFee : Nat} {last pending : Option Nat} {unapplied block : List Nat} {iteration : Iteration}

theorem Own.observe (h : Own interopFee last pending unapplied .idle) (hlast : ∀ fee ∈ last, interopFee = fee) :
    Own interopFee none pending unapplied (.observed interopFee) := by
  cases h with
  | idle => exact .observed
  | enqueued hne => exact absurd (hlast _ rfl) hne
  | executed hne => exact absurd (hlast _ rfl) hne
  | applied => exact .observed

theorem Own.skip (h : Own interopFee last pending unapplied (.observed currentInteropFee)) :
    Own interopFee last pending unapplied .idle := by
  cases h
  exact .idle

theorem Own.compare (h : Own interopFee last pending unapplied (.observed currentInteropFee))
    (hne : fee ≠ currentInteropFee) : Own interopFee last pending unapplied (.inserting fee) := by
  cases h
  exact .inserting hne

theorem Own.insert (h : Own interopFee last pending unapplied (.inserting fee)) :
    pending = none ∧ Own interopFee (some fee) (some fee) unapplied .idle := by
  cases h with
  | inserting hne => exact ⟨rfl, .enqueued hne.symm⟩

theorem Own.execute (h : Own interopFee last (some fee) unapplied iteration) :
    Own interopFee last none (unapplied ++ [fee]) iteration := by
  cases h with
  | enqueued hne => exact .executed hne

theorem Own.apply (h : Own interopFee last pending (block ++ unapplied) iteration) :
    Own (block.getLast?.getD interopFee) last pending unapplied iteration := by
  cases block with
  | nil => exact h
  | cons first rest =>
    -- The only fee on its way is the one that was enqueued last.
    generalize hall : first :: rest ++ unapplied = all at h
    cases h with
    | executed hne =>
      obtain ⟨rfl, hrest⟩ := cons.inj hall
      obtain ⟨rfl, rfl⟩ := append_eq_nil_iff.mp hrest
      exact .applied
    | _ => cases hall

end Own

def State.Own (s : State) : Prop :=
  InteropFeeUpdates.Own s.interopFee s.lastEnqueuedFee s.subpool.pendingFee s.unapplied.flatten s.iteration

theorem State.Own.observe (h : s.Own) (hidle : s.iteration = .idle) : s.observe.Own := by
  have hown : InteropFeeUpdates.Own s.interopFee s.lastEnqueuedFee s.subpool.pendingFee s.unapplied.flatten .idle := hidle ▸ h
  rw [State.observe]
  split
  next fee hlast =>
    split
    next hsame =>
      exact hown.observe fun other hother => hsame.trans (Option.some.inj (hlast.symm.trans hother))
    · exact h
  next hlast =>
    have hnew := hown.observe (fun other hother => absurd (hlast.symm.trans hother) (by simp))
    rw [← hlast] at hnew
    exact hnew

theorem State.Own.compare (h : s.Own) (hobserved : s.iteration = .observed currentInteropFee) :
    (s.compare deviationPercentage currentInteropFee target).Own := by
  rw [State.Own, hobserved] at h
  cases target with
  | none => exact h.skip
  | some target =>
    rw [State.compare, State.Own]
    dsimp only
    split
    next hupdate =>
      exact h.compare (ne_of_shouldUpdateFee hupdate)
    · exact h.skip

theorem State.Own.insert (h : s.Own) (hinserting : s.iteration = .inserting fee) :
    s.subpool.pendingFee = none ∧ (s.insert fee).Own := by
  have hown : InteropFeeUpdates.Own s.interopFee s.lastEnqueuedFee s.subpool.pendingFee s.unapplied.flatten
    (.inserting fee) := hinserting ▸ h
  obtain ⟨hpending, hnew⟩ := hown.insert
  refine ⟨hpending, ?_⟩
  rw [State.insert]
  split
  · split
    · exact hnew
    · exact h
    · exact hnew
  · exact hnew

theorem State.Own.poll (h : s.Own) : (s.poll stream taken).Own := by
  rw [State.poll]
  split <;> exact h

theorem State.Own.sealed {tx : Option SystemTxEnvelope} (h : s.Own) : (s.execute tx.toList true).Own := by
  rw [State.execute]
  split
  next last subpool hok =>
    rcases onCanonicalStateChange_strict hok with ⟨rfl, hleft⟩ | ⟨fee, hfee, rfl, hleft⟩
    · obtain rfl : subpool = s.subpool := hleft
      simpa [State.Own, fees] using h
    · obtain rfl : subpool = _ := hleft
      rw [State.Own, hfee] at h
      simpa [State.Own, fees] using h.execute
  · exact h

theorem State.Own.replay (h : s.Own) : (s.execute (feeTxs []) false).Own := by
  rw [State.execute, onCanonicalStateChange_lenient]
  simpa [State.Own, fees, feeTxs] using h

theorem State.Own.apply (h : s.Own) : s.apply.Own := by
  rw [State.apply]
  split
  next block unapplied hunapplied =>
    rw [State.Own, hunapplied, flatten_cons] at h
    exact InteropFeeUpdates.Own.apply h
  · exact h

/-- Replayed blocks bring no fee. -/
def ReplaysNoFee : Event → Prop
  | .replay txs => txs = []
  | _ => True

instance : DecidablePred ReplaysNoFee := fun event => by
  unfold ReplaysNoFee
  split <;> infer_instance

theorem own_step (s : State) (event : Event) (h : s.Own) (hreplay : ReplaysNoFee event) :
    (step deviationPercentage s event).Own ∧ NothingPending s event := by
  refine ⟨?_, ?_⟩
  · unfold step
    split
    · exact h
    · split
      next hiteration =>
        exact h.observe hiteration
      next hiteration =>
        exact h.compare hiteration
      next hiteration =>
        exact (h.insert hiteration).2
      · exact h
      · exact h.poll
      · rw [ite_toList]
        exact h.sealed
      · obtain rfl : _ = [] := hreplay
        exact h.replay
      · exact h.apply
      · exact h
  · cases event with
    | insert => exact fun fee hiteration _ => (h.insert hiteration).1
    | _ => trivial

theorem steps_nothingPending {events : List Event} (h : s.Own) (hreplays : ∀ event ∈ events, ReplaysNoFee event) :
    Steps (step deviationPercentage) NothingPending s events := by
  induction events generalizing s with
  | nil => trivial
  | cons event events ih =>
    obtain ⟨hown, hpending⟩ := own_step s event h (hreplays event mem_cons_self)
    exact ⟨hpending, ih hown fun event hevent => hreplays event (mem_cons_of_mem _ hevent)⟩

/-! ### Fees that stay in step -/

/-- Fee updates stay in step in every run in which replayed and rebuilt blocks bring no fee transactions, and
in general exactly if nothing is pending whenever the updater enqueues a fee. -/
theorem interop_fees_in_step_iff (deviationPercentage nextInteropFeeNumber interopFee : Nat) (events : List Event)
    (h : Steps (step deviationPercentage) Increasing (start nextInteropFeeNumber interopFee) events) :
    ((∀ event ∈ events, ReplaysNoFee event) →
      States (step deviationPercentage) InStep (start nextInteropFeeNumber interopFee) events) ∧
    (States (step deviationPercentage) InStep (start nextInteropFeeNumber interopFee) events ↔
      Steps (step deviationPercentage) NothingPending (start nextInteropFeeNumber interopFee) events) := by
  have hiff := states_iff_steps (Q := InStep) (P := NothingPending) (fun s e => inv_step s e)
    (fun s e hinv hin hincreasing => ((inv_step s e hinv hincreasing).inStep_iff).trans (step_kept_iff hin))
    (inv_start nextInteropFeeNumber interopFee) ((inv_start _ _).inStep_iff.mpr rfl) h
  exact ⟨fun hreplays => hiff.mpr (steps_nothingPending .idle hreplays), hiff⟩

/-- A fee reaches an open stream, is executed, applied and observed, and the next one is enqueued. -/
theorem two_produced_fees_stay_in_step :
    let events := [.openStream, .observe, .compare (some 20), .insert, .poll, .sealed false, .openStream, .poll,
      .sealed true, .observe, .apply, .apply, .observe, .compare (some 30), .insert, .openStream, .poll, .sealed true]
    (events.foldl (step 10) (start 5 10)).numbers = [5, 6] ∧
      (events.foldl (step 10) (start 5 10)).interopFee = 20 ∧
      (events.foldl (step 10) (start 5 10)).unapplied = [[30]] ∧ States (step 10) InStep (start 5 10) events :=
  ⟨by decide +kernel, by decide +kernel, by decide +kernel,
    (interop_fees_in_step_iff 10 5 10 _ (by decide +kernel)).1 (by decide +kernel)⟩

/-- A replayed block sets the fee that is pending here. The updater takes it for its own, and replaces the
pending fee while a block with the old one is built. -/
theorem replayed_fee_breaks_the_assertion :
    let events := [.observe, .compare (some 20), .insert, .replay [(20, 5)], .apply, .openStream, .poll,
      .observe, .compare (some 30), .insert, .sealed true]
    Steps (step 10) Increasing (start 5 10) events ∧
      (events.foldl (step 10) (start 5 10)).overwritten = true ∧
      (events.foldl (step 10) (start 5 10)).stopped = some (.panic "assertion `left == right` failed") := by
  decide +kernel

end InteropFeeUpdates

end Mempool
