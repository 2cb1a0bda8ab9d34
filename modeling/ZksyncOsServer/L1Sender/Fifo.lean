import ZksyncOsServer.L1Sender.Deadlock

/-!
# Order of the pipelined L1 sender

A command that got a nonce is at every moment in exactly one place: with the submitter, in the queue
of submitted transactions, with the inclusion watcher, in the queue of mined ones, with the
forwarder, or sent downstream. The places are lists in the order of the nonces, so the sender is a
FIFO, and the evidence for what is forwarded travels with the command.
-/
namespace L1Sender

open List Run Submitter Watcher Sender

variable {C E : Type}

/-! ### Where a command is -/

def Submitter.seeds : Submitter C E → List (RecoveredInFlight C E)
  | .seeding seeds => seeds
  | .seedPermit seed rest | .seedSend seed rest => seed :: rest
  | _ => []

/-- The one of them that has an entry in the simulation prefix. -/
def Submitter.pushed : Submitter C E → List (RecoveredInFlight C E)
  | .seedPermit seed _ | .seedSend seed _ => [seed]
  | _ => []

/-- The transaction that was sent and is handed over to the watcher. -/
def Submitter.handed : Submitter C E → List (InFlightTx C E)
  | .handOver entry _ => [entry]
  | _ => []

/-- The commands that were received and have no nonce yet. -/
def Submitter.commands : Submitter C E → List (Command C E)
  | .wave commands | .submitting commands | .handOver _ commands => commands
  | _ => []

def Watcher.sighted : Watcher C E → List (MinedTx C E)
  | .sending mined => [mined]
  | _ => []

def Forwarder.held : Forwarder C E → List (MinedTx C E)
  | .confirming mined => [mined]
  | _ => []

namespace Sender

variable (s : Sender C E)

def observed : List (MinedTx C E) := s.forwarder.held ++ s.minedQueue ++ s.watcher.sighted

/-- Submitted, holding a permit, and not yet observed mined. -/
def inFlight : List (InFlightTx C E) := s.watcher.entry?.toList ++ s.submitted ++ s.submitter.handed

/-- How many submitted transactions, recovered ones included, are not yet observed mined. -/
def unobserved : Nat := s.inFlight.length + s.submitter.seeds.length

/-- The commands with nonces that are not yet observed mined. -/
def ahead : List (Nat × Command C E) :=
  s.inFlight.map (fun entry => (entry.nonce, entry.command)) ++ s.submitter.seeds.map fun seed => (seed.nonce, seed.command)

def tracked : List (Nat × Command C E) := s.observed.map (fun mined => (mined.nonce, mined.command)) ++ s.ahead

end Sender

attribute [simp] wait seeds pushed handed commands sighted entry? Forwarder.held observed inFlight ahead tracked takePermits
  takeRequest prune

def L1SenderCommand.envelopes : L1SenderCommand C E → List E
  | .sendToL1 command => command.envelopes
  | .passthrough => []

theorem Submitter.seeds_wait (permits : Option Nat) : (wait permits : Submitter C E).seeds = [] := by
  cases permits <;> rfl

theorem Submitter.handed_wait (permits : Option Nat) : (wait permits : Submitter C E).handed = [] := by
  cases permits <;> rfl

theorem Watcher.sighted_of_entry {watcher : Watcher C E} {entry : InFlightTx C E} (h : watcher.entry? = some entry) :
    watcher.sighted = [] := by
  cases watcher <;> first | rfl | cases h

/-! ### Order -/

/-- After `sent` was forwarded: nonces are consecutive and in the order of arrival, no command with a
nonce is lost or duplicated, and the mined floor counts what was observed. -/
structure Ordered (base : Nat) (sent : List (Nat × Command C E)) (s : Sender C E) : Prop where
  history : s.assigned = sent ++ s.tracked
  outbound : s.outbound = sent.flatMap (·.2.envelopes)
  nonces : s.assigned.map (·.1) = List.range' base s.assigned.length
  next : s.nextNonce = base + s.assigned.length
  arrived : s.arrived = (s.assigned.map (·.2) ++ s.submitter.commands).map .sendToL1 ++ s.inbound
  floor : s.minedFloor = base + sent.length + s.observed.length

section

variable {window base : Nat} {sent : List (Nat × Command C E)} {s t : Sender C E}

theorem nonces_append {front back : List (Nat × Command C E)}
    (h : (front ++ back).map (·.1) = range' base (front ++ back).length) :
    back.map (·.1) = range' (base + front.length) back.length := by
  rw [map_append, length_append, ← range'_append_1] at h
  exact (append_inj h (by simp)).2

theorem Ordered.ahead_nonces (h : Ordered base sent s) : s.ahead.map (·.1) = range' s.minedFloor s.ahead.length := by
  have hnonces := h.nonces
  rw [h.history, tracked, ← append_assoc] at hnonces
  rw [nonces_append hnonces, h.floor, length_append, length_map, Nat.add_assoc]

theorem Ordered.floor_le (h : Ordered base sent s) {entry : InFlightTx C E} (hentry : entry ∈ s.inFlight) :
    s.minedFloor ≤ entry.nonce := by
  have hmem : entry.nonce ∈ s.ahead.map (·.1) :=
    mem_map.mpr ⟨_, mem_append_left _ (mem_map_of_mem hentry), rfl⟩
  rw [h.ahead_nonces, mem_range'_1] at hmem
  exact hmem.1

theorem Ordered.entry_nonce (h : Ordered base sent s) {entry : InFlightTx C E} (hentry : s.watcher.entry? = some entry) :
    entry.nonce = s.minedFloor := by
  have hnonces := h.ahead_nonces
  rw [ahead, inFlight, hentry, Option.toList_some, singleton_append, cons_append, map_cons,
    cons_append, map_cons, length_cons, range'_succ, cons.injEq] at hnonces
  exact hnonces.1

variable [DecidableEq C]

theorem Ordered.submitterMove (h : Ordered base sent s) (hmove : SubmitterMove window s t) : Ordered base sent t := by
  have hhistory := h.history
  have harrived := h.arrived
  simp only [tracked, observed, ahead, inFlight] at hhistory
  cases hmove with
  | stay => exact h
  | fail => exact { h with }
  | seeded hsub | seed hsub | seedPermit hsub hslots | seedSend hsub hroom | takePermits hsub hrequest hslots
  | close hsub hrequest hinbound hclosed | prune hsub | submitted hsub | handOver hsub hroom =>
    rw [hsub] at hhistory harrived
    exact ⟨by simpa using hhistory, h.outbound, h.nonces, h.next, by simpa using harrived, h.floor⟩
  | @takeRequest _ resume hsub | @resend _ resume _ _ _ hsub =>
    rw [hsub] at hhistory harrived
    cases resume <;>
      exact ⟨by simpa using hhistory, h.outbound, h.nonces, h.next, by simpa using harrived, h.floor⟩
  | @receive permits commands hsub hrequest hinbound hcommands =>
    rw [hsub] at hhistory harrived
    refine ⟨?_, h.outbound, h.nonces, h.next, ?_, h.floor⟩
    · simpa using hhistory
    · rw [harrived]
      nth_rewrite 1 [← take_append_drop permits s.inbound]
      rw [mapM_command?_eq_some hcommands]
      simp
  | submit hsub haccept =>
    rw [hsub] at hhistory harrived
    refine ⟨?_, h.outbound, ?_, ?_, ?_, h.floor⟩
    · rw [hhistory]
      simp
    · rw [map_append, h.nonces, h.next, length_append]
      exact range'_1_concat.symm
    · simp only [h.next, length_append, length_cons, length_nil, Nat.add_assoc]
    · simpa using harrived

omit [DecidableEq C] in
theorem Ordered.watcherMove (h : Ordered base sent s) (hmove : WatcherMove window s t) : Ordered base sent t := by
  have hhistory := h.history
  have hfloor := h.floor
  simp only [tracked, observed, ahead, inFlight] at hhistory hfloor
  cases hmove with
  | stay => exact h
  | fail => exact { h with }
  | take hwatcher hentry =>
    rw [hwatcher] at hhistory hfloor
    rw [hentry] at hhistory
    refine ⟨?_, h.outbound, h.nonces, h.next, h.arrived, ?_⟩
    · simpa using hhistory
    · simpa using hfloor
  | sighted hentry hpolling hhash hmined =>
    have hnonce := h.entry_nonce hentry
    rw [sighted_of_entry hentry] at hhistory hfloor
    rw [hentry] at hhistory
    refine ⟨?_, h.outbound, h.nonces, h.next, h.arrived, ?_⟩
    · simpa using hhistory
    · simp only [observed, sighted, length_append, length_cons, length_nil] at hfloor ⊢
      omega
  | look hentry hpolling hentry' hlook =>
    rw [sighted_of_entry hentry, ← sighted_of_entry hentry'] at hhistory hfloor
    rw [hentry, ← hentry'] at hhistory
    exact ⟨hhistory, h.outbound, h.nonces, h.next, h.arrived, hfloor⟩
  | finish hwatcher | request hwatcher | reply hwatcher | send hwatcher =>
    rw [hwatcher] at hhistory hfloor
    refine ⟨?_, h.outbound, h.nonces, h.next, h.arrived, ?_⟩
    · simpa using hhistory
    · simpa using hfloor

end

/-! ### The simulation prefix -/

def InFlightTx.mirror (entry : InFlightTx C E) : SimPrefixEntry C := ⟨entry.nonce, entry.command.solidityCall⟩

def RecoveredInFlight.mirror (seed : RecoveredInFlight C E) : SimPrefixEntry C := ⟨seed.nonce, seed.command.solidityCall⟩

/-- The simulation prefix holds the transactions that are in flight, after others that were observed
mined. -/
def Mirrored (s : Sender C E) : Prop :=
  ∃ old, s.inFlightPrefix = old ++ (s.inFlight.map InFlightTx.mirror ++ s.submitter.pushed.map RecoveredInFlight.mirror) ∧
    ∀ entry ∈ old, entry.nonce < s.minedFloor

section

variable {window base : Nat} {sent : List (Nat × Command C E)} {s t : Sender C E}

theorem Mirrored.find (h : Mirrored s) (hordered : Ordered base sent s) {entry : InFlightTx C E}
    (hentry : s.watcher.entry? = some entry) : s.inFlightPrefix.find? (·.nonce = entry.nonce) = some entry.mirror := by
  obtain ⟨old, hold, hmined⟩ := h
  have hskip : old.find? (·.nonce = entry.nonce) = none := by
    rw [find?_eq_none]
    intro other hother
    have := hmined other hother
    have := hordered.entry_nonce hentry
    simp only [decide_eq_true_eq]
    omega
  rw [hold, find?_append, hskip, Option.none_or, inFlight, hentry, Option.toList_some, singleton_append,
    cons_append, map_cons, cons_append, find?_cons_of_pos (by simp [InFlightTx.mirror])]

theorem Mirrored.prune (h : Mirrored s) (hordered : Ordered base sent s) (hpushed : s.submitter.pushed = []) :
    s.inFlightPrefix.dropWhile (·.nonce < s.minedFloor) = s.inFlight.map InFlightTx.mirror := by
  obtain ⟨old, hold, hmined⟩ := h
  rw [hold, hpushed, map_nil, append_nil, dropWhile_append_of_pos (by simpa using hmined)]
  cases hinFlight : s.inFlight with
  | nil => rfl
  | cons entry rest =>
    have hfloor : s.minedFloor ≤ entry.nonce := hordered.floor_le (by rw [hinFlight]; exact mem_cons_self)
    rw [map_cons, dropWhile_cons_of_neg]
    exact fun hlt => absurd (of_decide_eq_true hlt) (Nat.not_lt.mpr hfloor)

variable [DecidableEq C]

theorem Mirrored.submitterMove (h : Mirrored s) (hordered : Ordered base sent s)
    (hmove : SubmitterMove window s t) : Mirrored t := by
  obtain ⟨old, hold, hmined⟩ := id h
  simp only [inFlight] at hold
  cases hmove with
  | stay | fail => exact h
  | seeded hsub | seedPermit hsub hslots | seedSend hsub hroom | takePermits hsub hrequest hslots
  | receive hsub hrequest hinbound hcommands | close hsub hrequest hinbound hclosed | submitted hsub
  | handOver hsub hroom =>
    rw [hsub] at hold
    exact ⟨old, by simpa [InFlightTx.mirror, RecoveredInFlight.mirror] using hold, hmined⟩
  | @takeRequest _ resume hsub | @resend _ resume _ _ _ hsub =>
    rw [hsub] at hold
    cases resume <;> exact ⟨old, by simpa using hold, hmined⟩
  | seed hsub | submit hsub haccept =>
    rw [hsub] at hold
    refine ⟨old, ?_, hmined⟩
    rw [hold]
    simp [InFlightTx.mirror, RecoveredInFlight.mirror]
  | prune hsub =>
    refine ⟨[], ?_, by simp⟩
    rw [Sender.prune, h.prune hordered (by rw [hsub]; rfl), inFlight, hsub]
    simp

omit [DecidableEq C] in
theorem Mirrored.watcherMove (h : Mirrored s) (hordered : Ordered base sent s) (hmove : WatcherMove window s t) :
    Mirrored t := by
  obtain ⟨old, hold, hmined⟩ := id h
  simp only [inFlight] at hold
  cases hmove with
  | stay | fail => exact h
  | take hwatcher hentry =>
    rw [hwatcher, hentry] at hold
    exact ⟨old, by simpa using hold, hmined⟩
  | finish hwatcher | request hwatcher | reply hwatcher | send hwatcher =>
    rw [hwatcher] at hold
    exact ⟨old, by simpa [InFlightTx.mirror] using hold, hmined⟩
  | look hentry hpolling hentry' hlook =>
    rw [hentry, ← hentry'] at hold
    exact ⟨old, hold, hmined⟩
  | @sighted entry hash hentry hpolling hhash hmined' =>
    have hnonce := hordered.entry_nonce hentry
    rw [hentry] at hold
    refine ⟨old ++ [entry.mirror], by simpa using hold, fun other hother => ?_⟩
    show other.nonce < entry.nonce + 1
    rcases mem_append.mp hother with hother | hother
    · have := hmined other hother
      omega
    · rw [mem_singleton.mp hother]
      exact Nat.lt_succ_self _

omit [DecidableEq C] in
theorem Mirrored.forwarderMove (h : Mirrored s) (hmove : ForwarderMove s t) : Mirrored t := by
  cases hmove <;> exact h

end

/-! ### Evidence -/

namespace L1

def Carries (l1 : L1 C) (hash : TxHash) (nonce : Nat) (command : Command C E) : Prop :=
  l1.known hash = some (nonce, command.solidityCall)

/-- Such a transaction was confirmed. -/
def Confirms (l1 : L1 C) (assigned : Nat × Command C E) : Prop :=
  ∃ hash ∈ l1.mined.take l1.confirmed, l1.Carries hash assigned.1 assigned.2

structure Extends (l1 l1' : L1 C) : Prop where
  known : ∀ hash tx, l1.known hash = some tx → l1'.known hash = some tx
  confirmed : ∀ hash ∈ l1.mined.take l1.confirmed, hash ∈ l1'.mined.take l1'.confirmed

variable {l1 l1' : L1 C}

theorem Extends.carries (h : l1.Extends l1') {hash : TxHash} {nonce : Nat} {command : Command C E}
    (hcarries : l1.Carries hash nonce command) : l1'.Carries hash nonce command :=
  h.known _ _ hcarries

theorem Extends.confirms (h : l1.Extends l1') {assigned : Nat × Command C E} (hconfirms : l1.Confirms assigned) :
    l1'.Confirms assigned := by
  obtain ⟨hash, hmem, hcarries⟩ := hconfirms
  exact ⟨hash, h.confirmed hash hmem, h.carries hcarries⟩

theorem extends_refl : l1.Extends l1 := ⟨fun _ _ h => h, fun _ h => h⟩

theorem extends_mine (hash : TxHash) : l1.Extends (l1.mine hash) := by
  rw [mine]
  split
  · split
    · refine ⟨fun _ _ h => h, fun other hother => ?_⟩
      rw [take_append]
      exact mem_append_left _ hother
    · exact extends_refl
  · exact extends_refl

theorem extends_evict (hash : TxHash) : l1.Extends (l1.evict hash) := ⟨fun _ _ h => h, fun _ h => h⟩

theorem extends_confirm : l1.Extends l1.confirm := by
  refine ⟨fun _ _ h => h, fun hash hmem => ?_⟩
  rw [take_eq_take_min] at hmem
  have hle : min l1.confirmed l1.mined.length ≤ min (l1.confirmed + 1) l1.mined.length := by omega
  exact take_subset_take_left _ hle hmem

variable [DecidableEq C] {hash : TxHash} {nonce : Nat} {call : C}

theorem extends_accept (h : l1.accept hash nonce call = some l1') : l1.Extends l1' := by
  rw [accept] at h
  split at h
  · next hunknown =>
    cases h
    refine ⟨fun other tx hother => ?_, fun _ h => h⟩
    have hne : other ≠ hash := by
      rintro rfl
      rw [hunknown] at hother
      cases hother
    simpa [Function.update_of_ne hne] using hother
  · split at h
    · cases h
      split
      · exact extends_refl
      · exact ⟨fun _ _ h => h, fun _ h => h⟩
    · cases h

theorem known_accept (h : l1.accept hash nonce call = some l1') : l1'.known hash = some (nonce, call) := by
  rw [accept] at h
  split at h
  · cases h
    exact Function.update_self ..
  · next tx hknown =>
    split at h
    · next htx =>
      cases h
      rw [htx] at hknown
      split <;> exact hknown
    · cases h

end L1

structure Backed (sent : List (Nat × Command C E)) (s : Sender C E) : Prop where
  sent : ∀ assigned ∈ sent, s.l1.Confirms assigned
  observed : ∀ mined ∈ s.observed, s.l1.Carries mined.txHash mined.nonce mined.command
  inFlight : ∀ entry ∈ s.inFlight, ∀ hash ∈ entry.txHashes, s.l1.Carries hash entry.nonce entry.command
  seeds : ∀ seed ∈ s.submitter.seeds, s.l1.Carries seed.txHash seed.nonce seed.command
  reply : ∀ hash ∈ s.resendReply, ∀ entry ∈ s.watcher.entry?, s.l1.Carries hash entry.nonce entry.command

/-- A resend in the submitter's hands is for the transaction that the watcher waits for. -/
theorem ResendAt.entry {watcher : Watcher C E} {nonce : Nat} {request : Option Nat} {reply : Option TxHash}
    (h : ResendAt watcher request (some nonce) reply) : ∃ entry, watcher.entry? = some entry ∧ entry.nonce = nonce := by
  cases watcher with
  | awaitReply entry polls =>
    rcases h with ⟨-, hnone, -⟩ | ⟨-, hsome, -⟩ | ⟨-, hnone, -⟩
    · cases hnone
    · exact ⟨entry, rfl, (Option.some.inj hsome).symm⟩
    · cases hnone
  | receiving | polling | probing | evicted | requesting | sending | done => cases h.2.1

section

variable {window base : Nat} {sent : List (Nat × Command C E)} {s t : Sender C E}

theorem Backed.extend (h : Backed sent s) {l1 : L1 C} (hext : s.l1.Extends l1) : Backed sent { s with l1 } where
  sent assigned hassigned := hext.confirms (h.sent assigned hassigned)
  observed mined hmined := hext.carries (h.observed mined hmined)
  inFlight entry hentry hash hhash := hext.carries (h.inFlight entry hentry hash hhash)
  seeds seed hseed := hext.carries (h.seeds seed hseed)
  reply hash hhash entry hentry := hext.carries (h.reply hash hhash entry hentry)

variable [DecidableEq C]

theorem Backed.submitterMove (h : Backed sent s) (hbalanced : Balanced window s) (hordered : Ordered base sent s)
    (hmirrored : Mirrored s) (hmove : SubmitterMove window s t) : Backed sent t := by
  have hinFlight := h.inFlight
  have hseeds := h.seeds
  simp only [Sender.inFlight] at hinFlight
  cases hmove with
  | stay => exact h
  | fail => exact { h with }
  | seeded hsub | seed hsub | seedPermit hsub hslots | takePermits hsub hrequest hslots
  | receive hsub hrequest hinbound hcommands | close hsub hrequest hinbound hclosed | submitted hsub | prune hsub =>
    rw [hsub] at hinFlight hseeds
    exact ⟨h.sent, h.observed, hinFlight, hseeds, h.reply⟩
  | takeRequest hsub hrequest =>
    rw [hsub, Submitter.handed_wait] at hinFlight
    exact ⟨h.sent, h.observed, hinFlight, by simp, h.reply⟩
  | seedSend hsub hroom =>
    rw [hsub] at hinFlight hseeds
    simp only [Submitter.seeds, forall_mem_cons] at hseeds
    refine ⟨h.sent, h.observed, ?_, hseeds.2, h.reply⟩
    simp only [Sender.inFlight, handed, append_nil, forall_mem_append, forall_mem_singleton] at hinFlight ⊢
    exact ⟨hinFlight.1, hinFlight.2, hseeds.1⟩
  | handOver hsub hroom =>
    rw [hsub] at hinFlight
    refine ⟨h.sent, h.observed, ?_, by simp, h.reply⟩
    simpa using hinFlight
  | submit hsub haccept =>
    have h' := h.extend (L1.extends_accept haccept)
    refine ⟨h'.sent, h'.observed, ?_, by simp, h'.reply⟩
    rw [Sender.inFlight, forall_mem_append]
    refine ⟨fun entry hentry => h'.inFlight entry (mem_append_left _ hentry), ?_⟩
    simp only [handed, forall_mem_singleton]
    exact L1.known_accept haccept
  | @resend nonce resume found answer l1 hsub hfound haccept =>
    have h' := h.extend (L1.extends_accept haccept)
    refine ⟨h'.sent, h'.observed, ?_, ?_, ?_⟩
    · cases resume <;> simpa [hsub] using h'.inFlight
    · cases resume <;> simp
    · rintro hash ⟨⟩ entry hentry
      have hresend := hbalanced.resend
      rw [hsub] at hresend
      obtain ⟨entry', hentry', rfl⟩ := hresend.entry
      obtain rfl : entry' = entry := Option.some.inj (hentry'.symm.trans hentry)
      rw [hmirrored.find hordered hentry', Option.some.injEq] at hfound
      have hknown := L1.known_accept haccept
      rw [← hfound] at hknown
      exact hknown

omit [DecidableEq C] in
theorem Backed.watcherMove (h : Backed sent s) (hbalanced : Balanced window s) (hmove : WatcherMove window s t) :
    Backed sent t := by
  have hobserved := h.observed
  have hinFlight := h.inFlight
  have hreply := h.reply
  simp only [Sender.observed, Sender.inFlight] at hobserved hinFlight
  -- while the watcher is not waiting for a reply there is none
  have hnone : s.watcher.isAwaiting = false → s.resendReply = none := fun hawaiting =>
    ((ResendAt.of_not_awaiting hawaiting).mp hbalanced.resend).2.2
  cases hmove with
  | stay => exact h
  | fail => exact { h with }
  | take hwatcher hentry =>
    rw [hwatcher] at hobserved hinFlight
    rw [hentry] at hinFlight
    refine ⟨h.sent, hobserved, hinFlight, h.seeds, ?_⟩
    intro hash hhash
    rw [hnone (by rw [hwatcher]; rfl)] at hhash
    cases hhash
  | finish hwatcher =>
    rw [hwatcher] at hobserved hinFlight
    exact ⟨h.sent, hobserved, hinFlight, h.seeds, nofun⟩
  | sighted hentry hpolling hhash hmined =>
    rw [sighted_of_entry hentry, append_nil] at hobserved
    rw [hentry, append_assoc, forall_mem_append] at hinFlight
    refine ⟨h.sent, ?_, hinFlight.2, h.seeds, nofun⟩
    rw [Sender.observed, forall_mem_append]
    exact ⟨hobserved, by simpa using hinFlight.1 _ mem_cons_self _ hhash⟩
  | look hentry hpolling hentry' hlook =>
    rw [sighted_of_entry hentry, ← sighted_of_entry hentry'] at hobserved
    rw [hentry, ← hentry'] at hinFlight hreply
    exact ⟨h.sent, hobserved, hinFlight, h.seeds, hreply⟩
  | request hwatcher =>
    rw [hwatcher] at hobserved hinFlight hreply
    exact ⟨h.sent, hobserved, hinFlight, h.seeds, hreply⟩
  | send hwatcher =>
    rw [hwatcher] at hobserved hinFlight
    refine ⟨h.sent, ?_, hinFlight, h.seeds, nofun⟩
    simpa using hobserved
  | reply hwatcher hhash =>
    rw [hwatcher] at hobserved hinFlight hreply
    rw [append_assoc, forall_mem_append] at hinFlight
    refine ⟨h.sent, hobserved, ?_, h.seeds, nofun⟩
    rw [Sender.inFlight, append_assoc, forall_mem_append]
    refine ⟨?_, hinFlight.2⟩
    simp only [Watcher.entry?, Option.toList_some, forall_mem_singleton, forall_mem_append]
    exact ⟨hinFlight.1 _ mem_cons_self, hreply _ hhash _ rfl⟩

omit [DecidableEq C] in
theorem Ordered.forwarderMove (h : Ordered base sent s) (hbacked : Backed sent s) (hmove : ForwarderMove s t) :
    ∃ sent', Ordered base sent' t ∧ Backed sent' t := by
  have hhistory := h.history
  have hfloor := h.floor
  have hobserved := hbacked.observed
  simp only [tracked, observed] at hhistory hfloor hobserved
  cases hmove with
  | stay => exact ⟨sent, h, hbacked⟩
  | fail =>
    exact ⟨sent, { h with }, { hbacked with }⟩
  | take hforwarder hmined =>
    rw [hforwarder, hmined] at hhistory hfloor hobserved
    exact ⟨sent, ⟨hhistory, h.outbound, h.nonces, h.next, h.arrived, hfloor⟩,
      hbacked.sent, hobserved, hbacked.inFlight, hbacked.seeds, hbacked.reply⟩
  | finish hforwarder hqueue hdone =>
    rw [hforwarder] at hhistory hfloor hobserved
    exact ⟨sent, ⟨hhistory, h.outbound, h.nonces, h.next, h.arrived, hfloor⟩,
      hbacked.sent, hobserved, hbacked.inFlight, hbacked.seeds, hbacked.reply⟩
  | @forward mined hforwarder hconfirmed =>
    rw [hforwarder] at hhistory hfloor hobserved
    simp only [Forwarder.held, cons_append, forall_mem_cons] at hobserved
    refine ⟨sent ++ [(mined.nonce, mined.command)], ⟨?_, ?_, h.nonces, h.next, h.arrived, ?_⟩,
      ?_, hobserved.2, hbacked.inFlight, hbacked.seeds, hbacked.reply⟩
    · rw [hhistory]
      simp
    · simp [h.outbound]
    · simp only [observed, Forwarder.held, length_append, length_cons, length_nil] at hfloor ⊢
      omega
    · rw [forall_mem_append, forall_mem_singleton]
      exact ⟨hbacked.sent, mined.txHash, hconfirmed, hobserved.1⟩

end

/-! ### Runs -/

structure Fifo (window base : Nat) (s : Sender C E) : Prop where
  balanced : Balanced window s
  ordered : ∃ sent, Ordered base sent s ∧ Backed sent s
  mirrored : Mirrored s

section

variable {window base : Nat} {s t : Sender C E}

theorem Fifo.extend (h : Fifo window base s) {l1 : L1 C} (hext : s.l1.Extends l1) : Fifo window base { s with l1 } := by
  obtain ⟨sent, hordered, hbacked⟩ := h.ordered
  exact ⟨{ h.balanced with }, ⟨sent, { hordered with }, hbacked.extend hext⟩, h.mirrored⟩

theorem Balanced.inFlight_le (h : Balanced window s) : s.inFlight.length ≤ window := by
  have hpermits := h.permits
  have hhanded : s.submitter.handed.length ≤ s.submitter.permits := by
    cases s.submitter <;> simp [Submitter.handed, Submitter.permits]
  rw [Watcher.permits] at hpermits
  simp only [Sender.inFlight, length_append]
  omega

variable [DecidableEq C]

theorem Fifo.step (h : Fifo window base s) (event : Event C E) : Fifo window base (s.step window event) := by
  have hbalanced := h.balanced.step event
  obtain ⟨sent, hordered, hbacked⟩ := h.ordered
  rw [Sender.step] at hbalanced ⊢
  split
  · exact h
  rw [if_neg ‹_›] at hbalanced
  cases event with
  | mine hash => exact h.extend (L1.extends_mine hash)
  | evict hash => exact h.extend (L1.extends_evict hash)
  | confirm => exact h.extend L1.extends_confirm
  | close | fault =>
    exact ⟨hbalanced, ⟨sent, { hordered with }, { hbacked with }⟩, h.mirrored⟩
  | arrive command =>
    rw [act]
    split
    · exact h
    · refine ⟨{ h.balanced with }, ⟨sent, { hordered with arrived := ?_ }, { hbacked with }⟩, h.mirrored⟩
      rw [hordered.arrived, append_assoc]
  | submitter answer =>
    have hmove := submitterStep_move window s answer
    exact ⟨hbalanced, ⟨sent, hordered.submitterMove hmove, hbacked.submitterMove h.balanced hordered h.mirrored hmove⟩,
      h.mirrored.submitterMove hordered hmove⟩
  | watcher =>
    have hmove := watcherStep_move window s
    exact ⟨hbalanced, ⟨sent, hordered.watcherMove hmove, hbacked.watcherMove h.balanced hmove⟩,
      h.mirrored.watcherMove hordered hmove⟩
  | forwarder status =>
    have hmove := forwarderStep_move s status
    exact ⟨hbalanced, hordered.forwarderMove hbacked hmove, h.mirrored.forwarderMove hmove⟩

/-- While recovered transactions are left with the submitter, no new command gets a nonce. -/
def Seeding (count : Nat) (s : Sender C E) : Prop := s.submitter.seeds = [] ∨ s.assigned.length = count

theorem Seeding.submitterMove {count : Nat} (h : Seeding count s) (hmove : SubmitterMove window s t) :
    Seeding count t := by
  cases hmove with
  | stay | fail => exact h
  | seeded | takeRequest | takePermits | receive | close | prune | submitted | submit | handOver => exact .inl rfl
  | resend => exact .inl (seeds_wait _)
  | seed hsub | seedPermit hsub hslots | seedSend hsub hroom =>
    rw [Seeding, hsub] at h
    exact .inr (h.resolve_left (by simp [seeds]))

omit [DecidableEq C] in
theorem Seeding.watcherMove {count : Nat} (h : Seeding count s) (hmove : WatcherMove window s t) :
    Seeding count t := by
  cases hmove <;> exact h

omit [DecidableEq C] in
theorem Seeding.forwarderMove {count : Nat} (h : Seeding count s) (hmove : ForwarderMove s t) : Seeding count t := by
  cases hmove <;> exact h

theorem Seeding.step {count : Nat} (h : Seeding count s) (event : Event C E) : Seeding count (s.step window event) := by
  rw [Sender.step]
  split
  · exact h
  cases event with
  | submitter answer => exact h.submitterMove (submitterStep_move window s answer)
  | watcher => exact h.watcherMove (watcherStep_move window s)
  | forwarder status => exact h.forwarderMove (forwarderStep_move s status)
  | arrive command =>
    rw [act]
    split <;> exact h
  | mine hash | evict hash | confirm | close | fault => exact h

end

/-! ### Recovery -/

/-- Recovered transactions are the ones at consecutive nonces, paired with the commands at the front
of the inbound channel by their calldata. -/
structure Paired (txByNonce : Nat → Option (TxHash × C)) (nonce : Nat) (inbound : List (L1SenderCommand C E))
    (seeds : List (RecoveredInFlight C E)) (rest : List (L1SenderCommand C E)) : Prop where
  nonces : seeds.map (·.nonce) = List.range' nonce seeds.length
  inbound : inbound = seeds.map (fun seed => .sendToL1 seed.command) ++ rest
  onL1 : ∀ seed ∈ seeds, txByNonce seed.nonce = some (seed.txHash, seed.command.solidityCall)

theorem paired_nil {txByNonce : Nat → Option (TxHash × C)} {nonce : Nat} {inbound : List (L1SenderCommand C E)} :
    Paired txByNonce nonce inbound [] inbound :=
  ⟨rfl, rfl, nofun⟩

/-- The nonce of the first command: the confirmed baseline, or the settled nonce where in-flight
transactions cannot be paired. -/
def RecoveryAnswers.baseline (answers : RecoveryAnswers C) (latestNonce : Nat) : Nat :=
  if answers.forceTransactionResubmission || answers.pendingNonce ≤ latestNonce || answers.lookupSupported then latestNonce
  else answers.settledNonce

section

variable [DecidableEq C]

theorem pairInFlight_paired {txByNonce : Nat → Option (TxHash × C)} {count nonce : Nat}
    {inbound rest : List (L1SenderCommand C E)} {seeds : List (RecoveredInFlight C E)}
    (h : pairInFlight txByNonce count nonce inbound = some (seeds, rest)) : Paired txByNonce nonce inbound seeds rest := by
  induction count generalizing nonce inbound seeds with
  | zero =>
    cases h
    exact paired_nil
  | succ count ih =>
    rw [pairInFlight] at h
    split at h
    · cases h
      exact paired_nil
    next txHash input htx =>
    split at h
    · cases h
    · next command queue =>
      split at h
      · next hcall =>
        obtain ⟨⟨seeds', rest'⟩, hpair, hrest⟩ := Option.bind_eq_some_iff.mp h
        obtain ⟨rfl, rfl⟩ := Prod.mk.inj (Option.some.inj hrest)
        have hpaired := ih hpair
        refine ⟨?_, ?_, forall_mem_cons.mpr ⟨?_, hpaired.onL1⟩⟩
        · rw [map_cons, hpaired.nonces, length_cons, range'_succ]
        · rw [hpaired.inbound, map_cons, cons_append]
        · rw [htx, hcall]
      · cases h
        exact paired_nil
    · cases h
      exact paired_nil

theorem planPipelinedRecovery_paired {answers : RecoveryAnswers C} {latestNonce : Nat}
    {arrived inbound : List (L1SenderCommand C E)} {start : PipelinedStart C E}
    (h : planPipelinedRecovery answers latestNonce arrived = some (start, inbound)) :
    start.minedFloor = answers.baseline latestNonce ∧ start.nextNonce = start.minedFloor + start.seeds.length ∧
      Paired answers.txByNonce start.minedFloor arrived start.seeds inbound := by
  rw [planPipelinedRecovery] at h
  rw [RecoveryAnswers.baseline]
  split at h
  · next hforce =>
    cases h
    exact ⟨by simp [hforce], rfl, paired_nil⟩
  split at h
  · next hpending =>
    cases h
    exact ⟨by simp [hpending], Nat.max_eq_right hpending, paired_nil⟩
  split at h
  · next hforce hpending hlookup =>
    cases h
    exact ⟨by simp_all, rfl, paired_nil⟩
  · next hlookup =>
    obtain ⟨⟨seeds, rest⟩, hpair, hstart⟩ := Option.bind_eq_some_iff.mp h
    cases hstart
    exact ⟨by simp_all, rfl, pairInFlight_paired hpair⟩

end

section

variable {window : Nat} {l1 : L1 C} {start : PipelinedStart C E} {arrived inbound : List (L1SenderCommand C E)}

theorem fifo_init (hrecovered : start.Recovered l1)
    (harrived : arrived = start.seeds.map (fun seed => .sendToL1 seed.command) ++ inbound) :
    Fifo window start.minedFloor (init window l1 start arrived inbound) := by
  refine ⟨balanced_init l1 start arrived inbound, ⟨[], ⟨rfl, rfl, ?_, ?_, ?_, rfl⟩, nofun, nofun, nofun,
    hrecovered.known, nofun⟩, [], rfl, nofun⟩
  · simpa [init, Function.comp_def] using hrecovered.nonces
  · simpa [init] using hrecovered.next
  · simpa [init, commands, Function.comp_def] using harrived

end

/-- What the sender promises: commands get consecutive nonces in the order of arrival, no more
transactions are in flight than the window allows, a resend finds its entry, and envelopes go
downstream in order and once, after a transaction of their command was confirmed. -/
structure ExactlyOnce (window base recovered : Nat) (s : Sender C E) : Prop where
  nonces : s.assigned.map (·.1) = List.range' base s.assigned.length
  order : s.assigned.map (fun assigned => .sendToL1 assigned.2) <+: s.arrived
  slots : s.inFlight.length ≤ window
  unobserved : s.unobserved ≤ max window recovered
  resend : ∀ nonce resume, s.submitter = .resending nonce resume → ∃ command, (nonce, command) ∈ s.assigned ∧
    s.inFlightPrefix.find? (·.nonce = nonce) = some ⟨nonce, command.solidityCall⟩
  outbound : s.outbound <+: s.arrived.flatMap L1SenderCommand.envelopes
  confirmed : ∃ sent, sent <+: s.assigned ∧ s.outbound = sent.flatMap (·.2.envelopes) ∧
    ∀ assigned ∈ sent, s.l1.Confirms assigned

theorem Fifo.exactlyOnce {window base recovered : Nat} {s : Sender C E} (h : Fifo window base s)
    (hseeding : Seeding recovered s) : ExactlyOnce window base recovered s := by
  obtain ⟨sent, hordered, hbacked⟩ := h.ordered
  have horder : s.assigned.map (fun assigned => .sendToL1 assigned.2) <+: s.arrived := by
    rw [hordered.arrived, map_append, append_assoc, map_map]
    exact prefix_append ..
  have hsent : sent <+: s.assigned := by
    rw [hordered.history]
    exact prefix_append ..
  refine ⟨hordered.nonces, horder, h.balanced.inFlight_le, ?_, ?_, ?_, sent, hsent, hordered.outbound, hbacked.sent⟩
  · rcases hseeding with hnone | hcount
    · rw [unobserved, hnone]
      exact h.balanced.inFlight_le.trans (Nat.le_max_left ..)
    · have hlength := congrArg length hordered.history
      simp only [tracked, ahead, length_append, length_map] at hlength
      rw [unobserved]
      omega
  · intro nonce resume hsub
    have hresend := h.balanced.resend
    rw [hsub] at hresend
    obtain ⟨entry, hentry, rfl⟩ := hresend.entry
    refine ⟨entry.command, ?_, h.mirrored.find hordered hentry⟩
    rw [hordered.history, tracked, ahead, inFlight, hentry]
    simp
  · obtain ⟨rest, hrest⟩ := hsent
    obtain ⟨later, hlater⟩ := horder
    rw [hordered.outbound, ← hlater, ← hrest, map_append, flatMap_append, flatMap_append, flatMap_map, append_assoc]
    exact prefix_append ..

/-- The sender is a FIFO and forwards every command at most once, in every state of every run after
any recovery. -/
theorem pipelined_exactly_once [DecidableEq C] (window : Nat) (answers : RecoveryAnswers C) (latestNonce : Nat) (l1 : L1 C)
    (hanswers : ∀ nonce hash call, answers.txByNonce nonce = some (hash, call) → l1.known hash = some (nonce, call))
    (arrived inbound : List (L1SenderCommand C E)) (start : PipelinedStart C E)
    (hplan : planPipelinedRecovery answers latestNonce arrived = some (start, inbound)) (events : List (Event C E)) :
    States (Sender.step window) (ExactlyOnce window (answers.baseline latestNonce) start.seeds.length)
      (Sender.init window l1 start arrived inbound) events := by
  obtain ⟨hbase, hnext, hpaired⟩ := planPipelinedRecovery_paired hplan
  have hrecovered : start.Recovered l1 :=
    ⟨fun seed hseed => hanswers _ _ _ (hpaired.onL1 seed hseed), hpaired.nonces, hnext⟩
  have hinv : States (step window) (fun s => Fifo window start.minedFloor s ∧ Seeding start.seeds.length s)
      (init window l1 start arrived inbound) events :=
    states_of_invariant (fun s event hs => ⟨hs.1.step event, hs.2.step event⟩)
      ⟨fifo_init hrecovered hpaired.inbound, .inr (length_map ..)⟩
  rw [← hbase]
  exact hinv.imp fun s hs => hs.1.exactlyOnce hs.2

/-- The first recovered transaction is mined, sighted, confirmed and forwarded. -/
def firstForwarded : List (Event Nat Nat) :=
  [.submitter 0, .submitter 0, .submitter 0, .mine 100, .watcher, .watcher, .watcher, .forwarder true, .confirm,
    .forwarder true]

theorem pipelined_exactly_once_recovered :
    (firstForwarded.foldl (Sender.step 1) (Sender.init 1 (.pooled overfull) overfull overfullInbound [])).outbound = [11] ∧
    States (Sender.step 1) (ExactlyOnce 1 7 2) (Sender.init 1 (.pooled overfull) overfull overfullInbound [])
      firstForwarded := by
  refine ⟨by decide +kernel, pipelined_exactly_once 1 overfullAnswers 7 (.pooled overfull) ?_ overfullInbound [] overfull
    (by decide +kernel) firstForwarded⟩
  intro nonce hash call h
  by_cases hseven : nonce = 7
  · subst hseven
    cases h
    rfl
  by_cases height : nonce = 8
  · subst height
    cases h
    rfl
  · simp [overfullAnswers, lookup_cons, beq_false_of_ne hseven, beq_false_of_ne height] at h

/-- More transactions than the window allows are in flight right after the recovery. -/
theorem recovered_exceed_window : planPipelinedRecovery overfullAnswers 7 overfullInbound = some (overfull, []) ∧
    1 < (Sender.init 1 (.pooled overfull) overfull overfullInbound []).unobserved := by
  decide +kernel

end L1Sender
