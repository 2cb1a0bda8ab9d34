import ZksyncOsServer.Lib.Run
import ZksyncOsServer.Types.Transaction

/-!
# Streams of L1 priority transactions

`mempool/src/subpools/l1.rs`. A stream starts with a copy of the pending transactions and gets later
ones through a bounded channel. `insert` holds the lock of the subpool while it waits for room in the
channel, so that no stream is created and nothing is popped before the transaction is both in the channel
and pending.
-/
namespace L1Stream

open Types (L1PriorityEnvelope ZkTransaction)

inductive Poll where
  | ready (item : Option ZkTransaction)
  | pending
  deriving DecidableEq

/-- `L1TransactionsStream` with the channel of its receiver. Of its past, what it has yielded and the
sequence it is for: what was pending at its creation and what was inserted before the next stream was
created. A queue is written front first. -/
structure L1TransactionsStream where
  pendingTxs : List L1PriorityEnvelope
  channel : List L1PriorityEnvelope
  dropped : Bool
  yielded : List ZkTransaction
  expected : List L1PriorityEnvelope
  deriving DecidableEq

/-- `L1Subpool` with the streams created so far, the `insert` that waits for room in the channel and the
transactions that `on_canonical_state_change` has still to pop. -/
structure L1Subpool where
  channelSize : Nat
  sender : Option Nat
  pendingTxs : List L1PriorityEnvelope
  streams : List L1TransactionsStream
  sending : Option L1PriorityEnvelope
  executing : List L1PriorityEnvelope
  priorityId : Option Nat
  panicked : Bool
  /-- How many transactions were inserted, popped, and given to `on_canonical_state_change`. -/
  inserted : Nat
  popped : Nat
  executed : Nat
  deriving DecidableEq

inductive Event where
  | newStream
  | insert (tx : L1PriorityEnvelope)
  | resumeInsert
  | poll (stream : Nat)
  | drop (stream : Nat)
  | onCanonicalStateChange (txs : List L1PriorityEnvelope)
  | popWait
  deriving DecidableEq

/-- `From<L1PriorityEnvelope>`; the initiator is not modelled further. -/
def intoZk (initiator : L1PriorityEnvelope → Nat) (tx : L1PriorityEnvelope) : ZkTransaction :=
  ⟨.l1 tx, initiator tx⟩

variable (initiator : L1PriorityEnvelope → Nat)

namespace L1TransactionsStream

/-- `poll_next`; `isOpen` says whether the sender of the channel is still there. -/
def pollNext (this : L1TransactionsStream) (isOpen : Bool) : Poll × L1TransactionsStream :=
  match this.pendingTxs.getLast? with
  | some tx => (.ready (some (intoZk initiator tx)), { this with pendingTxs := this.pendingTxs.dropLast })
  | none =>
    match this.channel with
    | tx :: channel => (.ready (some (intoZk initiator tx)), { this with channel })
    | [] => (if isOpen then .pending else .ready none, this)

/-- A poll with its result added to what was yielded. -/
def poll (this : L1TransactionsStream) (isOpen : Bool) : L1TransactionsStream :=
  match this.pollNext initiator isOpen with
  | (.ready (some tx), next) => { next with yielded := next.yielded ++ [tx] }
  | (_, next) => next

end L1TransactionsStream

namespace L1Subpool

def new (channelSize : Nat) : L1Subpool := ⟨channelSize, none, [], [], none, [], none, false, 0, 0, 0⟩

variable (this : L1Subpool)

/-- A channel without room panics. -/
def bestTransactionsStream : L1Subpool :=
  if this.channelSize = 0 then this
  else { this with
    sender := some this.streams.length
    streams := this.streams ++ [⟨this.pendingTxs, [], false, [], this.pendingTxs.reverse⟩] }

/-- The end of `insert`. -/
def pushFront (tx : L1PriorityEnvelope) : L1Subpool :=
  { this with
    pendingTxs := tx :: this.pendingTxs
    inserted := this.inserted + 1
    streams := this.streams.modify (this.streams.length - 1) fun stream =>
      { stream with expected := stream.expected ++ [tx] } }

/-- `insert` from its `send` on; it waits as long as the channel is full and the receiver is there. -/
def send (tx : L1PriorityEnvelope) : L1Subpool :=
  match this.sender with
  | none => this.pushFront tx
  | some i =>
    match this.streams[i]? with
    | none => this.pushFront tx
    | some stream =>
      if stream.dropped then { this with sender := none }.pushFront tx
      else if stream.channel.length < this.channelSize then
        { this with streams := this.streams.set i { stream with channel := stream.channel ++ [tx] } }.pushFront tx
      else { this with sending := some tx }

/-- One round of `pop_wait` for the next transaction of `on_canonical_state_change`. -/
def popWait : L1Subpool :=
  match this.executing with
  | [] => this
  | tx :: txs =>
    match this.pendingTxs.getLast? with
    | none => this
    | some pendingTx =>
      if tx = pendingTx then
        { this with
          pendingTxs := this.pendingTxs.dropLast
          executing := txs
          priorityId := some pendingTx.priorityId
          popped := this.popped + 1 }
      else { this with panicked := true }

/-- A step of one of the tasks; those that need the lock wait while `insert` holds it. -/
def step : Event → L1Subpool
  | .newStream => if this.sending.isSome then this else this.bestTransactionsStream
  | .insert tx => if this.sending.isSome then this else this.send tx
  | .resumeInsert =>
    match this.sending with
    | some tx => { this with sending := none }.send tx
    | none => this
  | .poll i => { this with streams := this.streams.modify i fun stream =>
        if stream.dropped then stream else stream.poll initiator (this.sender = some i) }
  | .drop i => { this with streams := this.streams.modify i fun stream => { stream with dropped := true } }
  | .onCanonicalStateChange txs =>
    if this.executing = [] then
      { this with executing := txs, priorityId := none, executed := this.executed + txs.length }
    else this
  | .popWait => if this.sending.isSome then this else this.popWait

end L1Subpool

section Spec
variable (queue : Nat → L1PriorityEnvelope)

/-- `insert` is called for one transaction of the L1 queue after the other, and sealed blocks contain the
next ones of the queue. -/
def InOrder (s : L1Subpool) : Event → Prop
  | .insert tx => s.sending = none → tx = queue s.inserted
  | .onCanonicalStateChange txs => s.executing = [] → txs = (List.range' s.executed txs.length).map queue
  | _ => True

instance (s : L1Subpool) : DecidablePred (InOrder queue s) := fun event => by
  unfold InOrder
  split <;> infer_instance

/-- The transactions that `insert` has been called for. -/
def inserts (s : L1Subpool) : Event → List L1PriorityEnvelope
  | .insert tx => if s.sending.isSome then [] else [tx]
  | _ => []

/-- The transactions that `on_canonical_state_change` has been called for. -/
def executes (s : L1Subpool) : Event → List L1PriorityEnvelope
  | .onCanonicalStateChange txs => if s.executing = [] then txs else []
  | _ => []

/-- The transactions of the queue from one index up to another. -/
def slice (queue : Nat → L1PriorityEnvelope) (a b : Nat) : List L1PriorityEnvelope :=
  (List.range' a (b - a)).map queue

/-- What a stream is for is numbered consecutively. -/
def Numbered (txs : List L1PriorityEnvelope) : Prop :=
  txs.IsChain fun a b => b.priorityId = a.priorityId + 1

/-- Every stream is for a slice of the queue from a popped transaction on, the latest one up to the last
inserted transaction; it yields it in order, the latest one completely. The popped transactions are the
executed ones, and all those inserted can be popped. -/
structure Faithful (s : L1Subpool) : Prop where
  sliced : ∀ i stream, s.streams[i]? = some stream → ∃ a b, a ≤ s.popped ∧ a ≤ b ∧ stream.expected = slice queue a b ∧
    (i + 1 = s.streams.length → b = s.inserted)
  numbered : ∀ stream ∈ s.streams, Numbered stream.expected
  yields : ∀ stream ∈ s.streams, stream.yielded <+: stream.expected.map (intoZk initiator)
  latest : ∀ i stream, i + 1 = s.streams.length → s.streams[i]? = some stream → stream.dropped = false →
    ∃ polls : Nat, ((List.replicate polls (Event.poll i)).foldl (L1Subpool.step initiator) s).streams[i]?.map
      (·.yielded) = some (stream.expected.map (intoZk initiator))
  pending : s.pendingTxs.reverse = slice queue s.popped s.inserted
  executing : s.executing = slice queue s.popped s.executed
  pops : s.sending = none → s.executed ≤ s.inserted →
    ∃ pops : Nat, ((List.replicate pops Event.popWait).foldl (L1Subpool.step initiator) s).executing = []
  assertion : s.panicked = false

end Spec

/-! ### Slices of the queue -/

section Slice
variable {queue : Nat → L1PriorityEnvelope} {a b : Nat}

theorem slice_snoc (h : a ≤ b) : slice queue a (b + 1) = slice queue a b ++ [queue b] := by
  rw [slice, slice, Nat.succ_sub h, List.range'_concat, List.map_append]
  simp [Nat.add_sub_cancel' h]

theorem slice_cons (h : a < b) : slice queue a b = queue a :: slice queue (a + 1) b := by
  obtain ⟨c, rfl⟩ : ∃ c, b = a + 1 + c := ⟨b - (a + 1), by omega⟩
  rw [slice, slice, Nat.add_sub_cancel_left, show a + 1 + c - a = c + 1 by omega]
  rfl

theorem slice_self : slice queue a a = [] := by
  rw [slice, Nat.sub_self]
  rfl

theorem numbered_slice (hqueue : ∀ n, (queue (n + 1)).priorityId = (queue n).priorityId + 1) (a b : Nat) :
    Numbered (slice queue a b) := by
  rw [slice, Numbered, List.isChain_map]
  generalize b - a = c
  induction c generalizing a with
  | zero => exact .nil
  | succ c ih =>
    rw [List.range'_succ]
    refine List.isChain_cons.mpr ⟨fun n hn => ?_, ih (a + 1)⟩
    cases c with
    | zero => exact nomatch hn
    | succ c =>
      obtain rfl : a + 1 = n := by simpa [List.range'_succ] using hn
      exact hqueue a

end Slice

/-! ### Polls -/

section Polls
variable {initiator} {stream : L1TransactionsStream} {tx : L1PriorityEnvelope} {rest : List L1PriorityEnvelope}

/-- What a stream has still to yield. -/
def L1TransactionsStream.remaining (this : L1TransactionsStream) : List L1PriorityEnvelope :=
  this.pendingTxs.reverse ++ this.channel

theorem poll_of_remaining_cons (isOpen : Bool) (h : stream.remaining = tx :: rest) :
    (stream.poll initiator isOpen).yielded = stream.yielded ++ [intoZk initiator tx] ∧
      (stream.poll initiator isOpen).remaining = rest ∧ (stream.poll initiator isOpen).expected = stream.expected ∧
      (stream.poll initiator isOpen).dropped = stream.dropped := by
  rw [L1TransactionsStream.remaining] at h
  rw [L1TransactionsStream.poll, L1TransactionsStream.pollNext]
  rcases List.eq_nil_or_concat' stream.pendingTxs with hnil | ⟨init, last, hconcat⟩
  · rw [hnil] at h ⊢
    have hchannel : stream.channel = tx :: rest := h
    rw [hchannel]
    exact ⟨rfl, rfl, rfl, rfl⟩
  · rw [hconcat, List.reverse_concat] at h
    obtain ⟨rfl, hrest⟩ := List.cons.inj h
    rw [hconcat]
    simp only [List.getLast?_concat, List.dropLast_concat, true_and, and_true]
    exact hrest

theorem poll_of_remaining_nil (isOpen : Bool) (h : stream.remaining = []) : stream.poll initiator isOpen = stream := by
  obtain ⟨hpending, hchannel⟩ := List.append_eq_nil_iff.mp h
  have hpending' : stream.pendingTxs = [] := List.reverse_eq_nil_iff.mp hpending
  rw [L1TransactionsStream.poll, L1TransactionsStream.pollNext, hpending', hchannel]
  cases isOpen <;> rfl

end Polls

/-! ### The invariant -/

section Invariant
variable {initiator} {queue : Nat → L1PriorityEnvelope} {s : L1Subpool}

/-- What a stream has yielded and has still to yield is what it is for. It is for a slice of the queue,
the latest one up to the last inserted transaction, whose channel it holds. -/
structure StreamInv (initiator : L1PriorityEnvelope → Nat) (queue : Nat → L1PriorityEnvelope) (s : L1Subpool) (i : Nat)
    (stream : L1TransactionsStream) : Prop where
  yields : stream.yielded <+: stream.expected.map (intoZk initiator)
  complete : stream.dropped = false →
    stream.yielded ++ stream.remaining.map (intoZk initiator) = stream.expected.map (intoZk initiator)
  sliced : ∃ a b, a ≤ s.popped ∧ a ≤ b ∧ stream.expected = slice queue a b ∧
    (i + 1 = s.streams.length → b = s.inserted)
  receiver : i + 1 = s.streams.length → stream.dropped = false → s.sender = some i

structure Inv (initiator : L1PriorityEnvelope → Nat) (queue : Nat → L1PriorityEnvelope) (s : L1Subpool) : Prop where
  streams : ∀ i stream, s.streams[i]? = some stream → StreamInv initiator queue s i stream
  sender : ∀ i, s.sender = some i → i + 1 = s.streams.length
  pending : s.pendingTxs.reverse = slice queue s.popped s.inserted
  popped_le : s.popped ≤ s.inserted
  sending : ∀ tx, s.sending = some tx → tx = queue s.inserted
  executing : s.executing = slice queue s.popped s.executed
  popped_executed : s.popped ≤ s.executed
  panicked : s.panicked = false

variable {i : Nat} {stream : L1TransactionsStream} {tx : L1PriorityEnvelope}

section
variable (h : StreamInv initiator queue s i stream)
include h

theorem StreamInv.poll (isOpen : Bool) (hlive : stream.dropped = false) :
    StreamInv initiator queue s i (stream.poll initiator isOpen) := by
  cases hrest : stream.remaining with
  | nil => rwa [poll_of_remaining_nil isOpen hrest]
  | cons tx rest =>
    obtain ⟨hyielded, hremaining, hexpected, hdropped⟩ := poll_of_remaining_cons isOpen hrest
    have hall : (stream.poll initiator isOpen).yielded ++
        (stream.poll initiator isOpen).remaining.map (intoZk initiator) = stream.expected.map (intoZk initiator) := by
      rw [hyielded, hremaining, ← h.complete hlive, hrest]
      simp
    constructor
    · rw [hexpected, ← hall]
      exact List.prefix_append _ _
    · rw [hexpected]
      exact fun _ => hall
    · rw [hexpected]
      exact h.sliced
    · rw [hdropped]
      exact h.receiver

theorem StreamInv.drop : StreamInv initiator queue s i { stream with dropped := true } :=
  ⟨h.yields, nofun, h.sliced, nofun⟩

theorem StreamInv.congr {s' : L1Subpool} (hpopped : s.popped ≤ s'.popped)
    (hlast : i + 1 = s'.streams.length → i + 1 = s.streams.length ∧ s'.inserted = s.inserted ∧ s'.sender = s.sender) :
    StreamInv initiator queue s' i stream := by
  obtain ⟨a, b, hstart, hle, hslice, hend⟩ := h.sliced
  refine ⟨h.yields, h.complete, ⟨a, b, hstart.trans hpopped, hle, hslice, fun hl => ?_⟩, fun hl hlive => ?_⟩
  · obtain ⟨hl', hinserted, -⟩ := hlast hl
    rw [hinserted]
    exact hend hl'
  · obtain ⟨hl', -, hsender⟩ := hlast hl
    rw [hsender]
    exact h.receiver hl' hlive

theorem StreamInv.expect (hlast : i + 1 = s.streams.length)
    {s' : L1Subpool} (hinserted : s'.inserted = s.inserted + 1) (hpopped : s'.popped = s.popped)
    {stream' : L1TransactionsStream}
    (hyielded : stream'.yielded = stream.yielded) (hexpected : stream'.expected = stream.expected ++ [queue s.inserted])
    (hlive : stream'.dropped = false → stream.dropped = false ∧ s'.sender = s.sender ∧
      stream'.remaining = stream.remaining ++ [queue s.inserted]) : StreamInv initiator queue s' i stream' := by
  obtain ⟨a, b, hstart, hle, hslice, hend⟩ := h.sliced
  obtain rfl := hend hlast
  constructor
  · rw [hyielded, hexpected, List.map_append]
    exact h.yields.trans (List.prefix_append _ _)
  · intro hlive'
    obtain ⟨hlive', -, hremaining⟩ := hlive hlive'
    rw [hyielded, hexpected, hremaining, List.map_append, List.map_append, ← List.append_assoc, h.complete hlive']
  · refine ⟨a, s.inserted + 1, by omega, by omega, ?_, fun _ => hinserted.symm⟩
    rw [hexpected, hslice, slice_snoc hle]
  · intro _ hlive'
    obtain ⟨hlive', hsender, -⟩ := hlive hlive'
    rw [hsender]
    exact h.receiver hlast hlive'

end

theorem getElem?_modify (l : List L1TransactionsStream) (f : L1TransactionsStream → L1TransactionsStream) (i j : Nat) :
    (l.modify i f)[j]? = if i = j then l[j]?.map f else l[j]? := by
  rw [List.getElem?_modify]
  split
  next => simp
  next => simp

theorem getElem?_pushFront (s : L1Subpool) (tx : L1PriorityEnvelope) (i : Nat) : (s.pushFront tx).streams[i]? =
      if i + 1 = s.streams.length then s.streams[i]?.map fun stream => { stream with expected := stream.expected ++ [tx] }
      else s.streams[i]? := by
  rw [L1Subpool.pushFront, getElem?_modify]
  by_cases hlast : i + 1 = s.streams.length
  · rw [if_pos hlast, if_pos (by omega)]
  · rw [if_neg hlast]
    split
    next hi =>
      have hnone : s.streams[i]? = none := by
        rw [List.getElem?_eq_none_iff]
        omega
      rw [hnone]
      rfl
    next => rfl

@[simp] theorem length_pushFront (s : L1Subpool) (tx : L1PriorityEnvelope) :
    (s.pushFront tx).streams.length = s.streams.length := List.length_modify ..

namespace Inv

section
variable (h : Inv initiator queue s)
include h

theorem newStream : Inv initiator queue s.bestTransactionsStream := by
  rw [L1Subpool.bestTransactionsStream]
  split
  next => exact h
  refine ⟨fun i stream hstream => ?_, ?_, h.pending, h.popped_le, h.sending, h.executing, h.popped_executed, h.panicked⟩
  · rw [List.getElem?_append] at hstream
    split at hstream
    next hlt =>
      refine (h.streams i stream hstream).congr le_rfl fun hlast => absurd hlast ?_
      simp only [List.length_append, List.length_singleton]
      omega
    next hge =>
      obtain ⟨rfl, rfl⟩ : i = s.streams.length ∧ _ := by
        have hi : i - s.streams.length = 0 := by
          by_contra hne
          rw [List.getElem?_eq_none_iff.mpr (by simp only [List.length_singleton]; omega)] at hstream
          exact nomatch hstream
        rw [hi] at hstream
        exact ⟨by omega, Option.some.inj hstream⟩
      refine ⟨List.nil_prefix, fun _ => ?_, ⟨s.popped, s.inserted, le_rfl, h.popped_le, h.pending, fun _ => rfl⟩,
        fun _ _ => rfl⟩
      simp [L1TransactionsStream.remaining]
  · intro i hi
    cases hi
    simp

/-- The end of `insert`, when the latest stream has got the transaction or is gone. -/
theorem push {s' : L1Subpool} (hpending : s'.pendingTxs = s.pendingTxs)
    (hinserted : s'.inserted = s.inserted) (hlength : s'.streams.length = s.streams.length)
    (hsender : s'.sender = s.sender ∨ s'.sender = none)
    (hsending : s'.sending = none) (hrest : s'.popped = s.popped ∧ s'.executing = s.executing ∧ s'.executed = s.executed ∧
      s'.panicked = s.panicked) (hother : ∀ i : Nat, i + 1 ≠ s.streams.length → s'.streams[i]? = s.streams[i]?)
    (hlast : ∀ i stream', i + 1 = s.streams.length → s'.streams[i]? = some stream' → ∃ stream,
      s.streams[i]? = some stream ∧ stream'.yielded = stream.yielded ∧ stream'.expected = stream.expected ∧
      (stream'.dropped = false → stream.dropped = false ∧ s'.sender = s.sender ∧
        stream'.remaining = stream.remaining ++ [queue s.inserted])) :
    Inv initiator queue (s'.pushFront (queue s.inserted)) := by
  obtain ⟨hpopped, hexecuting, hexecuted, hpanicked⟩ := hrest
  refine ⟨fun i stream' hstream => ?_, fun i hi => ?_, ?_, ?_, ?_, ?_, ?_, ?_⟩
  · rw [getElem?_pushFront, hlength] at hstream
    split at hstream
    next hi =>
      obtain ⟨mid, hmid, rfl⟩ := Option.map_eq_some_iff.mp hstream
      obtain ⟨stream, hs, hyielded, hexpected, hlive⟩ := hlast i mid hi hmid
      have hnext : (s'.pushFront (queue s.inserted)).inserted = s.inserted + 1 := congrArg (· + 1) hinserted
      refine (h.streams i stream hs).expect hi hnext hpopped hyielded ?_ hlive
      rw [hexpected]
    next hi =>
      rw [hother i hi] at hstream
      refine (h.streams i stream' hstream).congr hpopped.ge fun hl => absurd hl ?_
      rwa [length_pushFront, hlength]
  · rw [length_pushFront, hlength]
    have hi' : s'.sender = some i := hi
    rcases hsender with heq | hnone
    · exact h.sender i (heq ▸ hi')
    · rw [hnone] at hi'
      exact nomatch hi'
  · change (queue s.inserted :: s'.pendingTxs).reverse = slice queue s'.popped (s'.inserted + 1)
    rw [List.reverse_cons, hpending, h.pending, hpopped, hinserted, slice_snoc h.popped_le]
  · change s'.popped ≤ s'.inserted + 1
    rw [hpopped, hinserted]
    exact Nat.le_succ_of_le h.popped_le
  · intro tx htx
    rw [L1Subpool.pushFront, hsending] at htx
    exact nomatch htx
  · change s'.executing = slice queue s'.popped s'.executed
    rw [hexecuting, hpopped, hexecuted, h.executing]
  · change s'.popped ≤ s'.executed
    rw [hpopped, hexecuted]
    exact h.popped_executed
  · exact hpanicked.trans h.panicked

theorem send (hsending : s.sending = none) : Inv initiator queue (s.send (queue s.inserted)) := by
  rw [L1Subpool.send]
  split
  next hsender =>
    -- Without a sender the latest stream is gone.
    refine h.push rfl rfl rfl (.inl rfl) hsending ⟨rfl, rfl, rfl, rfl⟩ (fun _ _ => rfl) fun i stream hi hstream => ?_
    refine ⟨stream, hstream, rfl, rfl, fun hlive => ?_⟩
    rw [(h.streams i stream hstream).receiver hi hlive] at hsender
    cases hsender
  next i hsender =>
    have hi := h.sender i hsender
    split
    next hnone =>
      rw [List.getElem?_eq_none_iff] at hnone
      omega
    next stream hstream =>
      split
      next hdropped =>
        refine h.push rfl rfl rfl (.inr rfl) hsending ⟨rfl, rfl, rfl, rfl⟩ (fun _ _ => rfl) fun j stream' hj hstream' => ?_
        obtain rfl : j = i := by omega
        obtain rfl : stream = stream' := Option.some.inj (hstream.symm.trans hstream')
        refine ⟨stream, hstream, rfl, rfl, fun hlive => ?_⟩
        rw [hlive] at hdropped
        cases hdropped
      next hlive =>
        split
        next hroom =>
          refine h.push rfl rfl (List.length_set ..) (.inl rfl) hsending ⟨rfl, rfl, rfl, rfl⟩ (fun j hj => ?_)
            fun j stream' hj hstream' => ?_
          · exact List.getElem?_set_ne (by omega)
          · obtain rfl : j = i := by omega
            rw [List.getElem?_set_self (by omega)] at hstream'
            obtain rfl := Option.some.inj hstream'
            refine ⟨stream, hstream, rfl, rfl, fun hlive => ⟨hlive, rfl, ?_⟩⟩
            simp [L1TransactionsStream.remaining]
        next =>
          refine ⟨fun j stream' hstream' => (h.streams j stream' hstream').congr le_rfl fun hl => ⟨hl, rfl, rfl⟩, h.sender,
            h.pending, h.popped_le, ?_, h.executing, h.popped_executed, h.panicked⟩
          rintro tx ⟨⟩
          rfl

theorem popWait_eq {txs : List L1PriorityEnvelope} (hexecuting : s.executing = tx :: txs) :
    s.pendingTxs = [] ∨ ∃ init, s.popped < s.inserted ∧ s.popped < s.executed ∧
      init.reverse = slice queue (s.popped + 1) s.inserted ∧ txs = slice queue (s.popped + 1) s.executed ∧
      s.popWait = { s with
        pendingTxs := init
        executing := txs
        priorityId := some tx.priorityId
        popped := s.popped + 1 } := by
  have hexec := h.executing
  rw [hexecuting] at hexec
  have hlt : s.popped < s.executed := by
    by_contra hge
    rw [show s.popped = s.executed by have := h.popped_executed; omega, slice_self] at hexec
    exact nomatch hexec
  rw [slice_cons hlt] at hexec
  obtain ⟨rfl, rfl⟩ := List.cons.inj hexec
  rcases List.eq_nil_or_concat' s.pendingTxs with hnil | ⟨init, last, hconcat⟩
  · exact .inl hnil
  · have hpending := h.pending
    rw [hconcat, List.reverse_concat] at hpending
    have hlt' : s.popped < s.inserted := by
      by_contra hge
      rw [show s.popped = s.inserted by have := h.popped_le; omega, slice_self] at hpending
      exact nomatch hpending
    rw [slice_cons hlt'] at hpending
    obtain ⟨rfl, hinit⟩ := List.cons.inj hpending
    refine .inr ⟨init, hlt', hlt, hinit, rfl, ?_⟩
    simp only [L1Subpool.popWait, hexecuting, hconcat, List.getLast?_concat, List.dropLast_concat, if_true]

theorem popWait : Inv initiator queue s.popWait := by
  cases hexecuting : s.executing with
  | nil =>
    rw [L1Subpool.popWait, hexecuting]
    exact h
  | cons tx txs =>
    obtain hnil | ⟨init, hlt', hlt, hinit, htxs, hpop⟩ := h.popWait_eq hexecuting
    · rw [L1Subpool.popWait, hexecuting, hnil]
      exact h
    · rw [hpop]
      exact ⟨fun j stream' hstream' => (h.streams j stream' hstream').congr (Nat.le_succ _) fun hl => ⟨hl, rfl, rfl⟩,
        h.sender, hinit, hlt', h.sending, htxs, hlt, h.panicked⟩

theorem modify (i : Nat) (f : L1TransactionsStream → L1TransactionsStream)
    (hf : ∀ stream, StreamInv initiator queue s i stream → StreamInv initiator queue s i (f stream)) :
    Inv initiator queue { s with streams := s.streams.modify i f } := by
  have hlength : (s.streams.modify i f).length = s.streams.length := List.length_modify ..
  refine ⟨fun j stream hstream => ?_, fun j hj => (h.sender j hj).trans hlength.symm, h.pending, h.popped_le, h.sending,
    h.executing, h.popped_executed, h.panicked⟩
  rw [getElem?_modify] at hstream
  have hinv : StreamInv initiator queue s j stream := by
    split at hstream
    next hij =>
      obtain ⟨old, hold, rfl⟩ := Option.map_eq_some_iff.mp hstream
      exact hij ▸ hf old (hij ▸ h.streams j old hold)
    next => exact h.streams j stream hstream
  exact hinv.congr le_rfl fun hl => ⟨hl.trans hlength, rfl, rfl⟩

theorem step {event : Event} (hevent : InOrder queue s event) : Inv initiator queue (s.step initiator event) := by
  cases event with
  | newStream =>
    rw [L1Subpool.step]
    split
    next => exact h
    next => exact h.newStream
  | insert tx =>
    rw [L1Subpool.step]
    split
    next => exact h
    next hsending =>
      rw [Option.not_isSome_iff_eq_none] at hsending
      obtain rfl := hevent hsending
      exact h.send hsending
  | resumeInsert =>
    rw [L1Subpool.step]
    split
    next tx hsending =>
      obtain rfl := h.sending tx hsending
      have hunlocked : Inv initiator queue { s with sending := none } :=
        ⟨fun j stream hstream => (h.streams j stream hstream).congr le_rfl fun hl => ⟨hl, rfl, rfl⟩, h.sender, h.pending,
          h.popped_le, nofun, h.executing, h.popped_executed, h.panicked⟩
      exact hunlocked.send rfl
    next => exact h
  | poll i =>
    refine h.modify i _ fun stream hstream => ?_
    split
    next => exact hstream
    next hlive => exact hstream.poll _ (Bool.eq_false_of_not_eq_true hlive)
  | drop i => exact h.modify i _ fun stream hstream => hstream.drop
  | onCanonicalStateChange txs =>
    rw [L1Subpool.step]
    split
    next hnil =>
      have hpopped : s.popped = s.executed := by
        have hexecuting := h.executing
        rw [hnil, slice, eq_comm, List.map_eq_nil_iff, List.range'_eq_nil_iff] at hexecuting
        have := h.popped_executed
        omega
      have htxs := hevent hnil
      refine ⟨fun j stream hstream => (h.streams j stream hstream).congr le_rfl fun hl => ⟨hl, rfl, rfl⟩, h.sender, h.pending,
        h.popped_le, h.sending, ?_, Nat.le_add_right_of_le h.popped_executed, h.panicked⟩
      change txs = slice queue s.popped (s.executed + txs.length)
      rw [slice, hpopped, Nat.add_sub_cancel_left]
      exact htxs
    next => exact h
  | popWait =>
    rw [L1Subpool.step]
    split
    next => exact h
    next => exact h.popWait

end

theorem start (channelSize : Nat) : Inv initiator queue (.new channelSize) :=
  ⟨nofun, nofun, rfl, le_rfl, nofun, rfl, le_rfl, rfl⟩

end Inv

theorem exists_polls {rest : List L1PriorityEnvelope} (hstream : s.streams[i]? = some stream)
    (hlive : stream.dropped = false) (hrest : stream.remaining = rest) :
    ∃ polls : Nat, ((List.replicate polls (Event.poll i)).foldl (L1Subpool.step initiator) s).streams[i]?.map
      (·.yielded) = some (stream.yielded ++ rest.map (intoZk initiator)) := by
  induction rest generalizing s stream with
  | nil => exact ⟨0, by simp [hstream]⟩
  | cons tx rest ih =>
    obtain ⟨hyielded, hremaining, -, hdropped⟩ := poll_of_remaining_cons (decide (s.sender = some i)) hrest
    have hnext : (s.step initiator (.poll i)).streams[i]? =
        some (stream.poll initiator (decide (s.sender = some i))) := by
      rw [L1Subpool.step, getElem?_modify, if_pos rfl, hstream]
      simp [hlive]
    obtain ⟨polls, hpolls⟩ := ih hnext (hdropped.trans hlive) hremaining
    refine ⟨polls + 1, ?_⟩
    rw [List.replicate_succ, List.foldl_cons, hpolls, hyielded]
    simp

theorem Inv.exists_pops {txs : List L1PriorityEnvelope} (h : Inv initiator queue s) (hexecuting : s.executing = txs)
    (hsending : s.sending = none) (hle : s.executed ≤ s.inserted) :
    ∃ pops : Nat, ((List.replicate pops Event.popWait).foldl (L1Subpool.step initiator) s).executing = [] := by
  induction txs generalizing s with
  | nil => exact ⟨0, hexecuting⟩
  | cons tx txs ih =>
    have hstep : s.step initiator .popWait = s.popWait := by simp [L1Subpool.step, hsending]
    obtain hnil | ⟨init, hlt', hlt, hinit, htxs, hpop⟩ := h.popWait_eq hexecuting
    · have hlength := congrArg List.length h.pending
      have hexec := congrArg List.length h.executing
      rw [hnil] at hlength
      rw [hexecuting] at hexec
      simp only [slice, List.reverse_nil, List.length_nil, List.length_cons, List.length_map, List.length_range'] at hlength hexec
      omega
    · obtain ⟨pops, hpops⟩ := ih h.popWait (by rw [hpop]) (by rw [hpop]; exact hsending) (by rw [hpop]; exact hle)
      refine ⟨pops + 1, ?_⟩
      rw [List.replicate_succ, List.foldl_cons, hstep, hpops]

/-! ### Counts -/

theorem counts_send (s : L1Subpool) (tx : L1PriorityEnvelope) (hsending : s.sending = none) :
    (s.send tx).inserted + (s.send tx).sending.toList.length = s.inserted + 1 ∧ (s.send tx).executed = s.executed := by
  unfold L1Subpool.send L1Subpool.pushFront
  split
  · simp [hsending]
  · split
    · simp [hsending]
    · split_ifs <;> simp [hsending]

theorem counts_step (s : L1Subpool) (event : Event) :
    (s.step initiator event).inserted + (s.step initiator event).sending.toList.length =
        s.inserted + s.sending.toList.length + (inserts s event).length ∧
      (s.step initiator event).executed = s.executed + (executes s event).length := by
  cases event with
  | newStream =>
    simp only [L1Subpool.step, L1Subpool.bestTransactionsStream]
    split_ifs <;> exact ⟨rfl, rfl⟩
  | insert tx =>
    simp only [L1Subpool.step, inserts, executes]
    split_ifs with hsending
    · exact ⟨rfl, rfl⟩
    · rw [Option.not_isSome_iff_eq_none] at hsending
      simpa [hsending] using counts_send s tx hsending
  | resumeInsert =>
    cases hsending : s.sending with
    | none => simp [L1Subpool.step, hsending, inserts, executes]
    | some tx => simpa [L1Subpool.step, hsending, inserts, executes] using counts_send { s with sending := none } tx rfl
  | poll | drop => exact ⟨rfl, rfl⟩
  | onCanonicalStateChange txs =>
    simp only [L1Subpool.step, inserts, executes]
    split_ifs <;> exact ⟨rfl, rfl⟩
  | popWait =>
    simp only [L1Subpool.step, L1Subpool.popWait, inserts, executes]
    split_ifs
    · exact ⟨rfl, rfl⟩
    · split
      · exact ⟨rfl, rfl⟩
      · split
        · exact ⟨rfl, rfl⟩
        · split_ifs <;> exact ⟨rfl, rfl⟩

theorem Inv.faithful (hqueue : ∀ n, (queue (n + 1)).priorityId = (queue n).priorityId + 1)
    (h : Inv initiator queue s) : Faithful initiator queue s := by
  have hstreams : ∀ stream ∈ s.streams, ∃ i, StreamInv initiator queue s i stream := by
    intro stream hstream
    obtain ⟨i, hi⟩ := List.mem_iff_getElem?.mp hstream
    exact ⟨i, h.streams i stream hi⟩
  refine ⟨fun i stream hstream => (h.streams i stream hstream).sliced, fun stream hstream => ?_,
    fun stream hstream => ?_, fun i stream _ hstream hlive => ?_, h.pending, h.executing, h.exists_pops rfl, h.panicked⟩
  · obtain ⟨i, hinv⟩ := hstreams stream hstream
    obtain ⟨a, b, -, -, hslice, -⟩ := hinv.sliced
    rw [hslice]
    exact numbered_slice hqueue a b
  · obtain ⟨i, hinv⟩ := hstreams stream hstream
    exact hinv.yields
  · rw [← (h.streams i stream hstream).complete hlive]
    exact exists_polls hstream hlive rfl

end Invariant

/-- Whatever the interleaving of insertions, new streams, polls, drops and canonical updates: the latest
stream yields exactly what was pending at its creation and what was inserted since, older ones a prefix of
what they are for, in consecutive order, and what is popped for a sealed block is what it contains. Inserted
is all that `insert` was called for, but for the call that waits, and executed all that was sealed. -/
theorem streams_faithful (queue : Nat → L1PriorityEnvelope)
    (hqueue : ∀ n, (queue (n + 1)).priorityId = (queue n).priorityId + 1) (channelSize : Nat) (events : List Event)
    (hevents : Run.Steps (L1Subpool.step initiator) (InOrder queue) (.new channelSize) events) :
    Run.States (L1Subpool.step initiator) (Faithful initiator queue) (.new channelSize) events ∧
      let s := events.foldl (L1Subpool.step initiator) (.new channelSize)
      s.inserted + s.sending.toList.length =
          (Run.collect (L1Subpool.step initiator) inserts (.new channelSize) events).length ∧
        s.executed = (Run.collect (L1Subpool.step initiator) executes (.new channelSize) events).length := by
  have hinv : Run.States (L1Subpool.step initiator) (Inv initiator queue) (.new channelSize) events :=
    Run.Steps.invariant (fun _ _ h hevent => h.step hevent) (Inv.start channelSize) hevents
  refine ⟨hinv.imp fun _ => Inv.faithful hqueue, ?_, ?_⟩
  · exact Run.collect_induction (J := fun before (s : L1Subpool) => s.inserted + s.sending.toList.length = before.length)
      (fun before s event h => by rw [List.length_append, ← h]; exact (counts_step s event).1) rfl
  · exact Run.collect_induction (J := fun before (s : L1Subpool) => s.executed = before.length)
      (fun before s event h => by rw [List.length_append, ← h]; exact (counts_step s event).2) rfl

def sampleQueue (n : Nat) : L1PriorityEnvelope := ⟨Fin.ofNat _ (100 + n), 5 + n, 21000⟩

/-- The third insertion waits for room in the channel of the second stream, which is then dropped. -/
def sampleEvents : List Event :=
  [.insert (sampleQueue 0), .newStream, .poll 0, .newStream, .insert (sampleQueue 1), .insert (sampleQueue 2), .newStream,
    .popWait, .poll 1, .drop 1, .resumeInsert, .onCanonicalStateChange [sampleQueue 0, sampleQueue 1], .popWait, .newStream,
    .popWait, .poll 2]

theorem streams_faithful_blocked_insert :
    let s := sampleEvents.foldl (L1Subpool.step fun _ => 0) (.new 1)
    s.streams.map (·.yielded.length) = [1, 1, 1] ∧ s.inserted = 3 ∧ s.popped = 2 ∧
      Run.States (L1Subpool.step fun _ => 0) (Faithful (fun _ => 0) sampleQueue) (.new 1) sampleEvents :=
  ⟨by decide +kernel, by decide +kernel, by decide +kernel,
    (streams_faithful (fun _ => 0) sampleQueue (fun _ => rfl) 1 sampleEvents (by decide +kernel)).1⟩

end L1Stream
