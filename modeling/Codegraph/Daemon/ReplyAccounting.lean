import Codegraph.Daemon.Proxy

/- This file shows when the proxy gives the host one reply for each request. -/

namespace Codegraph.Daemon.Proxy
open List

section Lines

variable {Id : Type} {line : Line Id} {id : Id}

theorem owed_request (owed : line.owed = some id) : line.request = some id := by
  unfold Line.owed at owed
  split at owed
  · cases owed
  · exact owed

theorem primed_request (primed : line.primed = some id) : line.request = some id := by
  unfold Line.primed at primed
  split at primed
  · rename_i handshake
    simpa [Line.request, handshake] using primed
  · cases primed

theorem owed_not_primed (owed : line.owed = some id) : line.primed = none := by
  unfold Line.owed at owed
  unfold Line.primed
  split at owed
  · cases owed
  · rename_i other
    exact if_neg other

/-- A request is either owed or primed. -/
theorem request_owed_or_primed (request : line.request = some id) : line.owed = some id ∨ line.primed = some id := by
  by_cases handshake : line.method = some "initialize"
  · right
    simpa [Line.request, Line.primed, handshake] using request
  · left
    simpa [Line.owed, handshake] using request

theorem request_none_parts (request : line.request = none) : line.owed = none ∧ line.primed = none := by
  constructor
  · cases owed : line.owed with
    | none => rfl
    | some id => rw [owed_request owed] at request; cases request
  · cases primed : line.primed with
    | none => rfl
    | some id => rw [primed_request primed] at request; cases request

/-- Where the ids of the requests differ, no id is both owed and primed. -/
theorem owed_primed_disjoint {lines : List (Line Id)} (distinct : (lines.filterMap Line.request).Nodup)
    (owed : id ∈ lines.filterMap Line.owed) : id ∉ lines.filterMap Line.primed := by
  intro primed
  obtain ⟨first, firstMember, firstOwed⟩ := mem_filterMap.mp owed
  obtain ⟨second, secondMember, secondPrimed⟩ := mem_filterMap.mp primed
  have same : first = second := by
    induction lines with
    | nil => cases firstMember
    | cons line rest ih =>
      have absent : ∀ other ∈ rest, line.request = some id → other.request ≠ some id := by
        intro other member here there
        rw [filterMap_cons_some here] at distinct
        exact (nodup_cons.mp distinct).1 (mem_filterMap.mpr ⟨other, member, there⟩)
      have tail : (rest.filterMap Line.request).Nodup :=
        distinct.sublist ((sublist_cons_self line rest).filterMap _)
      rcases mem_cons.mp firstMember with rfl | firstLater <;>
        rcases mem_cons.mp secondMember with rfl | secondLater
      · rfl
      · exact (absent second secondLater (owed_request firstOwed) (primed_request secondPrimed)).elim
      · exact (absent first firstLater (primed_request secondPrimed) (owed_request firstOwed)).elim
      · exact ih tail (mem_filterMap.mpr ⟨first, firstLater, firstOwed⟩)
          (mem_filterMap.mpr ⟨second, secondLater, secondPrimed⟩) firstLater secondLater
  rw [same] at firstOwed
  rw [owed_not_primed firstOwed] at secondPrimed
  cases secondPrimed

theorem owed_sublist_request (handed : List (Line Id)) :
    (handed.filterMap Line.owed).Sublist (handed.filterMap Line.request) := by
  induction handed with
  | nil => exact .refl _
  | cons line rest ih =>
    cases owed : line.owed with
    | none =>
      rw [filterMap_cons_none owed]
      exact ih.trans ((sublist_cons_self line rest).filterMap _)
    | some id =>
      rw [filterMap_cons_some owed, filterMap_cons_some (owed_request owed)]
      exact ih.cons_cons id

end Lines

/-- The lines handed to the daemon, with the one that the host pump is just forwarding. -/
def State.handed {Id : Type} (state : State Id) : List (Line Id) := state.forwarded ++ state.hostTask.lines

/-- The daemon's lines on their way to the host. -/
def State.transit {Id : Type} (state : State Id) : List (Line Id) := state.daemonTask.lines ++ state.daemonRecv

section Accounts

variable {Id : Type} [DecidableEq Id] (state : State Id)

def State.replied (id : Id) : Bool := state.hostOut.any (·.repliesTo id)

/-- A request is owed from its record, right before it goes out, to the retirement right after its reply is written. -/
def State.owed : List Id :=
  (state.handed.filterMap Line.owed).filter fun id => !state.replied id || state.daemonTask = .retire id

/-- The daemon pump has read the daemon's reply. -/
def State.answerRead (id : Id) : Bool :=
  state.sent.any (·.repliesTo id) && !state.daemonRecv.any (·.repliesTo id)

/-- The host pump records no id of a response, and it replaces no suppressed id whose reply is still to come. -/
def State.accountable (moved : Step Id) : Bool :=
  match moved, state.hostTask with
  | .hostPump, .reading =>
    match state.hostIn with
    | line :: _ => state.shutdown || line.id.isNone || line.method.isSome
    | [] => true
  | .hostPump, .suppress _ _ =>
    match state.suppressedId with
    | some old => state.answerRead old
    | none => true
  | _, _ => true

def keepsAccount (answers : LocalAnswers Id) : List (Step Id) → State Id → Bool
  | [], _ => true
  | moved :: rest, state =>
    state.accountable moved &&
      (match step answers state moved with
      | some next => keepsAccount answers rest next
      | none => true)

/-- The pumps have no line left, and the daemon has answered every request. -/
def State.finished : Bool :=
  state.hostIn.isEmpty && state.hostTask = .reading && state.daemonRecv.isEmpty && state.daemonTask = .reading &&
    (state.forwarded.filterMap Line.request).all fun id => state.sent.any (·.repliesTo id)

/-- What the pumps and the daemon have agreed on about every id. -/
structure Accounted (lines : List (Line Id)) (state : State Id) : Prop where
  whole : state.read ++ state.hostIn = lines
  handed : (state.handed.filterMap Line.request).Sublist (state.read.filterMap Line.request)
  answered : ∀ id, id ∉ state.handed.filterMap Line.owed →
    (state.hostOut.filter (·.repliesTo id)).length = if id ∈ state.read.filterMap Line.request then 1 else 0
  passed : ∀ id, id ∈ state.handed.filterMap Line.owed →
    state.hostOut.filter (·.repliesTo id) ++ state.transit.filter (·.repliesTo id) = state.sent.filter (·.repliesTo id)
  asked : ∀ line ∈ state.sent, line.isReply = true →
    ∃ id, line.id = some id ∧ id ∈ state.forwarded.filterMap Line.request
  once : ∀ id, (state.sent.filter (·.repliesTo id)).length ≤ 1
  received : state.daemonRecv <:+ state.sent
  carried : ∀ line ∈ state.daemonTask.lines, line ∈ state.sent
  suppressed : ∀ id ∈ state.handed.filterMap Line.primed,
    state.suppressedId = some id ∨ state.answerRead id = true ∨ ∃ line, state.hostTask = .suppress id line
  held : ∀ id ∈ state.handed.filterMap Line.primed, ∀ line ∈ state.daemonTask.lines, line.repliesTo id = false
  slot : ∀ id, state.suppressedId = some id → id ∈ state.handed.filterMap Line.primed
  priming : ∀ id line, state.hostTask = .suppress id line → line.primed = some id
  retiring : ∀ id, state.daemonTask = .retire id → id ∈ state.handed.filterMap Line.owed ∧ state.replied id = true
  ledger : state.ledger.outstanding = state.owed
  unsolicited : state.hostOut.filter Line.unsolicited ++ state.transit.filter Line.unsolicited =
    state.sent.filter Line.unsolicited

end Accounts

section Ids

variable {Id : Type} {state : State Id} {id : Id} {text : String}

@[simp] theorem reply_unsolicited : (reply id text).unsolicited = false := rfl

/-- Only a reply has a reply id, and it is the id that the line carries. -/
theorem replyId_parts {line : Line Id} (replies : line.replyId = some id) :
    line.isReply = true ∧ line.id = some id := by
  by_cases isReply : line.isReply
  · exact ⟨isReply, by simpa [Line.replyId, isReply] using replies⟩
  · simp [Line.replyId, isReply] at replies

theorem owed_mem_handed (member : id ∈ state.handed.filterMap Line.owed) :
    id ∈ state.handed.filterMap Line.request := by
  obtain ⟨line, present, owed⟩ := mem_filterMap.mp member
  exact mem_filterMap.mpr ⟨line, present, owed_request owed⟩

end Ids

section HostPump

variable {Id : Type} [DecidableEq Id] {lines rest : List (Line Id)} {state : State Id} {line : Line Id} {id : Id}
  {text : String}

theorem repliesTo_iff : line.repliesTo id = true ↔ line.replyId = some id := by
  simp [Line.repliesTo]

@[simp] theorem reply_repliesTo (other : Id) : (reply id text).repliesTo other = decide (id = other) := by
  simp [reply, Line.repliesTo, Line.replyId, Line.isReply, Line.id]

theorem filter_repliesTo_nil {sent : List (Line Id)} (none : ∀ line ∈ sent, line.replyId ≠ some id) :
    sent.filter (·.repliesTo id) = [] := by
  rw [filter_eq_nil_iff]
  intro line member replies
  exact none line member (repliesTo_iff.mp replies)

/-- A request that was not read before has no reply yet, and nobody knows its id. -/
structure Fresh (state : State Id) (id : Id) : Prop where
  unread : id ∉ state.read.filterMap Line.request
  unhanded : id ∉ state.handed.filterMap Line.request
  unanswered : state.hostOut.filter (·.repliesTo id) = []
  unsent : ∀ line ∈ state.sent, line.replyId ≠ some id

/-- Every reply that the daemon sent answers a request that was forwarded to it. -/
theorem Accounted.asked_id (accounted : Accounted lines state) (sent : line ∈ state.sent)
    (replies : line.replyId = some id) : id ∈ state.forwarded.filterMap Line.request := by
  obtain ⟨isReply, carries⟩ := replyId_parts replies
  obtain ⟨found, named, forwarded⟩ := accounted.asked line sent isReply
  rw [carries] at named
  cases named
  exact forwarded

/-- A request that comes next was not read before, as no id comes twice. -/
theorem Accounted.fresh (accounted : Accounted lines state) (distinct : (lines.filterMap Line.request).Nodup)
    (next : state.hostIn = line :: rest) (request : line.request = some id) : Fresh state id := by
  have unread : id ∉ state.read.filterMap Line.request := by
    intro before
    rw [← accounted.whole, next, filterMap_append, filterMap_cons_some request] at distinct
    exact (nodup_append.mp distinct).2.2 id before id mem_cons_self rfl
  have unhanded : id ∉ state.handed.filterMap Line.request := fun before => unread (accounted.handed.subset before)
  refine ⟨unread, unhanded, ?_, ?_⟩
  · have count := accounted.answered id (fun owed => unhanded (owed_mem_handed owed))
    rw [if_neg unread] at count
    exact length_eq_zero_iff.mp count
  · intro other member replies
    apply unhanded
    rw [State.handed, filterMap_append]
    exact mem_append_left _ (accounted.asked_id member replies)

/-- A line that is no request changes no account, whether it is forwarded or not. -/
theorem Accounted.hear (accounted : Accounted lines state) (reading : state.hostTask = .reading)
    (next : state.hostIn = line :: rest) (request : line.request = none) {task : HostTask Id}
    (silent : task = .reading ∨ task = .forward line) (handshake discovered : Bool) : Accounted lines { state with
      read := state.read ++ [line], hostIn := rest, hostTask := task, initialized := handshake,
      discovered := discovered } := by
  obtain ⟨owed, primed⟩ := request_none_parts request
  have same (select : Line Id → Option Id) (ignores : select line = none) :
      (state.forwarded ++ task.lines).filterMap select = state.handed.filterMap select := by
    rcases silent with rfl | rfl <;> simp [State.handed, reading, HostTask.lines, ignores]
  have reads : (state.read ++ [line]).filterMap Line.request = state.read.filterMap Line.request := by
    simp [request]
  have calm : ∀ id line, task ≠ .suppress id line := by
    rcases silent with rfl | rfl <;> simp
  refine ⟨?_, ?_, ?_, ?_, accounted.asked, accounted.once, accounted.received, accounted.carried, ?_, ?_, ?_, ?_, ?_,
    ?_,
    accounted.unsolicited⟩
  · simpa [next] using accounted.whole
  · simpa only [State.handed, same _ request, reads] using accounted.handed
  · simpa only [State.handed, same _ owed, reads] using accounted.answered
  · simpa only [State.handed, State.transit, same _ owed] using accounted.passed
  · intro id member
    have before := accounted.suppressed id (by simpa only [State.handed, same _ primed] using member)
    simpa [State.answerRead, reading, calm] using before
  · simpa only [State.handed, same _ primed] using accounted.held
  · simpa only [State.handed, same _ primed] using accounted.slot
  · intro id other found
    exact (calm id other found).elim
  · simpa only [State.handed, State.replied, same _ owed] using accounted.retiring
  · simpa only [State.owed, State.handed, State.replied, same _ owed] using accounted.ledger

theorem Fresh.owed_ne (fresh : Fresh state id) {other : Id} (owed : other ∈ state.handed.filterMap Line.owed) :
    id ≠ other := by
  rintro rfl
  exact fresh.unhanded (owed_mem_handed owed)

/-- A local answer counts for the request it answers and for no other. -/
theorem Accounted.answered_here (accounted : Accounted lines state) (fresh : Fresh state id)
    (request : line.request = some id) (other : Id) (notOwed : other ∉ state.handed.filterMap Line.owed) :
    ((state.hostOut ++ [reply id text]).filter (·.repliesTo other)).length =
      if other ∈ (state.read ++ [line]).filterMap Line.request then 1 else 0 := by
  have before := accounted.answered other notOwed
  by_cases same : id = other
  · subst same
    simp [filter_append, fresh.unanswered, request]
  · have apart : other ≠ id := fun found => same found.symm
    simp only [filter_append, filterMap_append, length_append, mem_append, before]
    simp [request, same, apart]

theorem Fresh.owed_after (fresh : Fresh state id) : (state.handed.filterMap Line.owed).filter
        (fun other => !(state.hostOut ++ [reply id text]).any (·.repliesTo other) || state.daemonTask = .retire other) =
      state.owed := by
  unfold State.owed
  apply filter_congr
  intro other owed
  simp [State.replied, fresh.owed_ne owed]

/-- A request that is answered here is not forwarded. -/
theorem Accounted.answerHere (accounted : Accounted lines state) (distinct : (lines.filterMap Line.request).Nodup)
    (next : state.hostIn = line :: rest) (request : line.request = some id) : Accounted lines { state with
      read := state.read ++ [line], hostIn := rest, hostOut := state.hostOut ++ [reply id text] } := by
  have fresh := accounted.fresh distinct next request
  refine ⟨?_, ?_, ?_, ?_, accounted.asked, accounted.once, accounted.received, accounted.carried, accounted.suppressed,
    accounted.held, accounted.slot, accounted.priming, ?_, ?_, ?_⟩
  · simpa [next] using accounted.whole
  · rw [filterMap_append]
    exact accounted.handed.trans (sublist_append_left _ _)
  · exact accounted.answered_here fresh request
  · intro other owed
    simpa [State.transit, fresh.owed_ne owed] using accounted.passed other owed
  · intro other retiring
    obtain ⟨owed, replied⟩ := accounted.retiring other retiring
    refine ⟨owed, ?_⟩
    simp only [State.replied] at replied ⊢
    simp [replied]
  · exact accounted.ledger.trans fresh.owed_after.symm
  · simpa [State.transit] using accounted.unsolicited

/-- An `initialize` is answered here, and the daemon's reply to it is going to be suppressed. -/
theorem Accounted.prime (accounted : Accounted lines state) (distinct : (lines.filterMap Line.request).Nodup)
    (reading : state.hostTask = .reading) (next : state.hostIn = line :: rest) (primed : line.primed = some id)
    (handshake : Bool) : Accounted lines { state with
      read := state.read ++ [line], hostIn := rest, hostOut := state.hostOut ++ [reply id text],
      hostTask := .suppress id line, initialized := handshake } := by
  have request := primed_request primed
  have fresh := accounted.fresh distinct next request
  have notOwed : line.owed = none := by
    cases owed : line.owed with
    | none => rfl
    | some other => rw [owed_not_primed owed] at primed; cases primed
  have whole : state.handed = state.forwarded := by simp [State.handed, reading, HostTask.lines]
  have owedSame : (state.forwarded ++ [line]).filterMap Line.owed = state.handed.filterMap Line.owed := by
    simp [whole, notOwed]
  have primedMore : (state.forwarded ++ [line]).filterMap Line.primed = state.handed.filterMap Line.primed ++ [id] := by
    simp [whole, primed]
  refine ⟨?_, ?_, ?_, ?_, accounted.asked, accounted.once, accounted.received, accounted.carried, ?_, ?_, ?_, ?_, ?_,
    ?_,
    ?_⟩
  · simpa [next] using accounted.whole
  · have before := accounted.handed
    rw [whole] at before
    simpa [State.handed, HostTask.lines, request] using before.append_right [id]
  · simpa only [State.handed, HostTask.lines, owedSame] using accounted.answered_here fresh request
  · intro other owed
    rw [State.handed, HostTask.lines, owedSame] at owed
    simpa [State.transit, fresh.owed_ne owed] using accounted.passed other owed
  · intro other member
    rw [State.handed, HostTask.lines, primedMore] at member
    rcases mem_append.mp member with before | here
    · have known := accounted.suppressed other before
      simp only [reading, reduceCtorEq, exists_false, or_false] at known
      rcases known with slot | answered
      · exact .inl slot
      · exact .inr (.inl answered)
    · rw [mem_singleton.mp here]
      exact .inr (.inr ⟨line, rfl⟩)
  · intro other member carried carries
    rw [State.handed, HostTask.lines, primedMore] at member
    rcases mem_append.mp member with before | here
    · exact accounted.held other before carried carries
    · rw [mem_singleton.mp here]
      have unsent := fresh.unsent carried (accounted.carried carried carries)
      simpa [Line.repliesTo] using unsent
  · intro other slot
    rw [State.handed, HostTask.lines, primedMore]
    exact mem_append_left _ (accounted.slot other slot)
  · intro other carried suppress
    cases suppress
    exact primed
  · intro other retiring
    obtain ⟨owed, replied⟩ := accounted.retiring other retiring
    rw [State.handed, HostTask.lines, owedSame]
    refine ⟨owed, ?_⟩
    simp only [State.replied] at replied ⊢
    simp [replied]
  · have after := accounted.ledger.trans (@Fresh.owed_after _ _ _ _ text fresh).symm
    simpa only [State.owed, State.handed, HostTask.lines, State.replied, owedSame] using after
  · simpa [State.transit] using accounted.unsolicited

/-- Any other request is recorded before it is forwarded. -/
theorem Accounted.recordRequest (accounted : Accounted lines state) (distinct : (lines.filterMap Line.request).Nodup)
    (reading : state.hostTask = .reading) (next : state.hostIn = line :: rest) (owed : line.owed = some id)
    (discovered : Bool) : Accounted lines { state with
      read := state.read ++ [line], hostIn := rest, discovered := discovered, ledger := state.ledger.record id,
      hostTask := .forward line } := by
  have request := owed_request owed
  have fresh := accounted.fresh distinct next request
  have whole : state.handed = state.forwarded := by simp [State.handed, reading, HostTask.lines]
  have owedMore : (state.forwarded ++ [line]).filterMap Line.owed = state.handed.filterMap Line.owed ++ [id] := by
    simp [whole, owed]
  have primedSame : (state.forwarded ++ [line]).filterMap Line.primed = state.handed.filterMap Line.primed := by
    simp [whole, owed_not_primed owed]
  have unsent : state.sent.filter (·.repliesTo id) = [] := filter_repliesTo_nil fresh.unsent
  have unmoved : state.transit.filter (·.repliesTo id) = [] := by
    apply filter_repliesTo_nil
    intro carried member
    rcases mem_append.mp member with carries | received
    · exact fresh.unsent carried (accounted.carried carried carries)
    · exact fresh.unsent carried (accounted.received.subset received)
  have notReplied : state.replied id = false := by
    have none := filter_eq_nil_iff.mp fresh.unanswered
    simpa [State.replied] using none
  refine ⟨?_, ?_, ?_, ?_, accounted.asked, accounted.once, accounted.received, accounted.carried, ?_, ?_, ?_, ?_, ?_,
    ?_,
    accounted.unsolicited⟩
  · simpa [next] using accounted.whole
  · have before := accounted.handed
    rw [whole] at before
    simpa [State.handed, HostTask.lines, request] using before.append_right [id]
  · intro other notOwed
    rw [State.handed, HostTask.lines, owedMore, mem_append, not_or, mem_singleton] at notOwed
    rw [accounted.answered other notOwed.1]
    simp [request, notOwed.2]
  · intro other member
    rw [State.handed, HostTask.lines, owedMore] at member
    rcases mem_append.mp member with before | here
    · exact accounted.passed other before
    · rw [mem_singleton.mp here, unsent]
      change state.hostOut.filter (·.repliesTo id) ++ state.transit.filter (·.repliesTo id) = []
      rw [fresh.unanswered, unmoved]
      rfl
  · intro other member
    rw [State.handed, HostTask.lines, primedSame] at member
    have known := accounted.suppressed other member
    simp only [reading, reduceCtorEq, exists_false, or_false] at known
    rcases known with slot | answered
    · exact .inl slot
    · exact .inr (.inl answered)
  · simpa only [State.handed, HostTask.lines, primedSame] using accounted.held
  · simpa only [State.handed, HostTask.lines, primedSame] using accounted.slot
  · intro other carried suppress
    cases suppress
  · intro other retiring
    obtain ⟨member, replied⟩ := accounted.retiring other retiring
    rw [State.handed, HostTask.lines, owedMore]
    exact ⟨mem_append_left _ member, replied⟩
  · change state.ledger.outstanding ++ [id] = ((state.forwarded ++ [line]).filterMap Line.owed).filter _
    rw [owedMore, filter_append, accounted.ledger]
    change state.owed ++ [id] = state.owed ++ [id].filter fun other => !state.replied other || _
    simp [notReplied]

/-- Reading a line of the host keeps the accounts. -/
theorem readHostLine_accounted {answers : LocalAnswers Id} (accounted : Accounted lines state)
    (distinct : (lines.filterMap Line.request).Nodup) (reading : state.hostTask = .reading)
    (next : state.hostIn = line :: rest) (asks : line.id.isNone = true ∨ line.method.isSome = true) : Accounted lines
      (readHostLine answers { state with read := state.read ++ [line], hostIn := rest } line) := by
  have silent (absent : line.id = none) : line.request = none := by
    simp [Line.request, absent]
  have named (id : Id) (found : line.id = some id) (other : ¬ line.method = some "initialize") :
      line.owed = some id := by
    have method : line.method.isSome = true := by simpa [found] using asks
    simp [Line.owed, Line.request, other, method, found]
  unfold readHostLine
  split
  · rename_i blank
    have request : line.request = none := by rw [blank]; rfl
    have heard := accounted.hear reading next request (.inl rfl) state.initialized state.discovered
    rwa [← reading] at heard
  · split
    · rename_i handshake
      unfold answerInitialize
      cases carried : line.id with
      | none => exact accounted.hear reading next (silent carried) (.inr rfl) true state.discovered
      | some id =>
        have primed : line.primed = some id := by simp [Line.primed, handshake, carried]
        exact accounted.prime distinct reading next primed true
    · rename_i other
      split
      · unfold answerToolsList
        cases carried : line.id with
        | none =>
          have heard := accounted.hear reading next (silent carried) (.inl rfl) state.initialized state.discovered
          rwa [← reading] at heard
        | some id => exact accounted.answerHere distinct next (owed_request (named id carried other))
      · unfold recordAndForward
        cases carried : line.id with
        | none => exact accounted.hear reading next (silent carried) (.inr rfl) state.initialized _
        | some id => exact accounted.recordRequest distinct reading next (named id carried other) _

/-- A step that only passes handed lines on changes no account. -/
theorem Accounted.pass (accounted : Accounted lines state) {forwarded : List (Line Id)} {task : HostTask Id}
    {slot : Option Id} (same : forwarded ++ task.lines = state.handed) (grown : state.forwarded ⊆ forwarded)
    (suppressed : ∀ id ∈ state.handed.filterMap Line.primed,
      slot = some id ∨ state.answerRead id = true ∨ ∃ line, task = .suppress id line)
    (held : ∀ id, slot = some id → id ∈ state.handed.filterMap Line.primed)
    (calm : ∀ id line, task ≠ .suppress id line) :
    Accounted lines { state with forwarded := forwarded, hostTask := task, suppressedId := slot } := by
  refine ⟨accounted.whole, ?_, ?_, ?_, ?_, accounted.once, accounted.received, accounted.carried, ?_, ?_, ?_, ?_, ?_,
    ?_,
    accounted.unsolicited⟩
  · simpa only [State.handed, same] using accounted.handed
  · simpa only [State.handed, same] using accounted.answered
  · simpa only [State.handed, State.transit, same] using accounted.passed
  · intro other member isReply
    obtain ⟨id, carries, request⟩ := accounted.asked other member isReply
    obtain ⟨asking, before, asks⟩ := mem_filterMap.mp request
    exact ⟨id, carries, mem_filterMap.mpr ⟨asking, grown before, asks⟩⟩
  · intro other member
    rw [State.handed, same] at member
    exact suppressed other member
  · simpa only [State.handed, same] using accounted.held
  · intro other found
    rw [State.handed, same]
    exact held other found
  · exact fun other carried suppress => absurd suppress (calm other carried)
  · simpa only [State.handed, State.replied, same] using accounted.retiring
  · simpa only [State.owed, State.handed, State.replied, same] using accounted.ledger

/-- The suppressed id may be replaced once its reply was read. -/
theorem Accounted.suppress (accounted : Accounted lines state) (task : state.hostTask = .suppress id line)
    (read : ∀ old, state.suppressedId = some old → state.answerRead old = true) :
    Accounted lines { state with suppressedId := some id, hostTask := .forward line } := by
  have same : state.forwarded ++ (HostTask.forward line).lines = state.handed := by
    simp [State.handed, task, HostTask.lines]
  refine accounted.pass same (List.Subset.refl _) ?_ ?_ nofun
  · intro other member
    rcases accounted.suppressed other member with slot | answered | ⟨carried, priming⟩
    · exact .inr (.inl (read other slot))
    · exact .inr (.inl answered)
    · rw [task] at priming
      cases priming
      exact .inl rfl
  · intro other slot
    cases slot
    rw [← same, HostTask.lines, filterMap_append]
    exact mem_append_right _ (by simp [accounted.priming id line task])

theorem Accounted.forward (accounted : Accounted lines state) (task : state.hostTask = .forward line) :
    Accounted lines { state with forwarded := state.forwarded ++ [line], hostTask := .reading } := by
  have same : state.forwarded ++ [line] ++ HostTask.reading.lines = state.handed := by
    simp [State.handed, task, HostTask.lines]
  refine accounted.pass same (subset_append_left _ _) ?_ accounted.slot nofun
  intro other member
  have known := accounted.suppressed other member
  simp only [task, reduceCtorEq, exists_false, or_false] at known
  rcases known with slot | answered
  · exact .inl slot
  · exact .inr (.inl answered)

/-- Every step of the pump to the daemon keeps the accounts. -/
theorem pumpHostToDaemon_accounted {answers : LocalAnswers Id} (accounted : Accounted lines state)
    (distinct : (lines.filterMap Line.request).Nodup) (accountable : state.accountable .hostPump = true) :
    Accounted lines (pumpHostToDaemon answers state) := by
  unfold pumpHostToDaemon
  cases task : state.hostTask with
  | suppress id line =>
    refine accounted.suppress task ?_
    intro old slot
    simpa [State.accountable, task, slot] using accountable
  | forward line => exact accounted.forward task
  | reading =>
    cases next : state.hostIn with
    | nil => exact accounted
    | cons line rest =>
      dsimp only
      split
      · exact accounted
      · rename_i running
        have asks : line.id.isNone = true ∨ line.method.isSome = true := by
          simpa [State.accountable, task, next, running] using accountable
        have after := @readHostLine_accounted _ _ _ _ _ _ answers accounted distinct task next asks
        rwa [task] at after

end HostPump

section DaemonPump

variable {Id : Type} [DecidableEq Id] {lines rest : List (Line Id)} {state : State Id} {line : Line Id} {id : Id}

theorem Accounted.handed_nodup (accounted : Accounted lines state) (distinct : (lines.filterMap Line.request).Nodup) :
    (state.handed.filterMap Line.request).Nodup := by
  rw [← accounted.whole, filterMap_append] at distinct
  exact (nodup_append.mp distinct).1.sublist accounted.handed

/-- A reply that the daemon sent answers an owed request or a primed one. -/
theorem Accounted.owed_or_primed (accounted : Accounted lines state) (sent : line ∈ state.sent)
    (replies : line.replyId = some id) :
    id ∈ state.handed.filterMap Line.owed ∨ id ∈ state.handed.filterMap Line.primed := by
  obtain ⟨asking, member, request⟩ := mem_filterMap.mp (accounted.asked_id sent replies)
  have handed : asking ∈ state.handed := mem_append_left _ member
  rcases request_owed_or_primed request with owed | primed
  · exact .inl (mem_filterMap.mpr ⟨asking, handed, owed⟩)
  · exact .inr (mem_filterMap.mpr ⟨asking, handed, primed⟩)

theorem answerRead_rest (received : state.daemonRecv = line :: rest) (read : state.answerRead id = true) :
    (state.sent.any (·.repliesTo id) && !rest.any (·.repliesTo id)) = true := by
  simp only [State.answerRead, received, any_cons, Bool.not_or, Bool.and_eq_true] at read ⊢
  exact ⟨read.1, read.2.2⟩

section

variable (accounted : Accounted lines state)
include accounted

/-- A line that answers no owed request and is not the daemon's own may be dropped. -/
theorem Accounted.drop (reading : state.daemonTask = .reading)
    (received : state.daemonRecv = line :: rest) (solicited : line.unsolicited = false)
    (notOwed : ∀ id ∈ state.handed.filterMap Line.owed, line.repliesTo id = false) :
    Accounted lines { state with daemonRecv := rest } := by
  refine ⟨accounted.whole, accounted.handed, accounted.answered, ?_, accounted.asked, accounted.once, ?_,
    accounted.carried, ?_, accounted.held, accounted.slot, accounted.priming, accounted.retiring, accounted.ledger, ?_⟩
  · intro id owed
    have before := accounted.passed id owed
    simpa [State.transit, reading, DaemonTask.lines, received, notOwed id owed] using before
  · have whole := accounted.received
    rw [received] at whole
    exact (suffix_cons line rest).trans whole
  · intro id primed
    rcases accounted.suppressed id primed with slot | read | priming
    · exact .inl slot
    · have later := answerRead_rest received read
      exact .inr (.inl later)
    · exact .inr (.inr priming)
  · simpa [State.transit, reading, DaemonTask.lines, received, solicited] using accounted.unsolicited

/-- A line that is not the suppressed reply is taken to the host. -/
theorem Accounted.take (distinct : (lines.filterMap Line.request).Nodup)
    (reading : state.daemonTask = .reading) (received : state.daemonRecv = line :: rest)
    (kept : ¬ (line.replyId.isSome = true ∧ line.replyId = state.suppressedId)) :
    Accounted lines { state with daemonRecv := rest, daemonTask := .deliver line } := by
  have sent : line ∈ state.sent := accounted.received.subset (by rw [received]; exact mem_cons_self)
  have moved : [line] ++ rest = state.transit := by simp [State.transit, reading, DaemonTask.lines, received]
  refine ⟨accounted.whole, accounted.handed, accounted.answered, ?_, accounted.asked, accounted.once, ?_, ?_, ?_, ?_,
    accounted.slot, accounted.priming, ?_, ?_, ?_⟩
  · simpa only [State.handed, State.transit, DaemonTask.lines, moved] using accounted.passed
  · have whole := accounted.received
    rw [received] at whole
    exact (suffix_cons line rest).trans whole
  · intro carried member
    rw [mem_singleton.mp member]
    exact sent
  · intro id primed
    rcases accounted.suppressed id primed with slot | read | priming
    · exact .inl slot
    · have later := answerRead_rest received read
      exact .inr (.inl later)
    · exact .inr (.inr priming)
  · intro id primed carried member
    rw [mem_singleton.mp member]
    by_contra found
    have replies : line.replyId = some id := repliesTo_iff.mp (by simpa using found)
    rcases accounted.suppressed id primed with slot | read | ⟨priming, task⟩
    · exact kept ⟨by simp [replies], by rw [replies, slot]⟩
    · simp [State.answerRead, received, repliesTo_iff.mpr replies] at read
    · -- Nobody answers an `initialize` that is still to be forwarded.
      have nodup := accounted.handed_nodup distinct
      have later := primed_request (accounted.priming id priming task)
      have forwarded := accounted.asked_id sent replies
      rw [State.handed, task, HostTask.lines, filterMap_append] at nodup
      exact (nodup_append.mp nodup).2.2 id forwarded id (by simp [later]) rfl
  · intro id retiring
    cases retiring
  · simpa [State.owed, State.handed, State.replied, reading] using accounted.ledger
  · simpa only [State.transit, DaemonTask.lines, moved] using accounted.unsolicited

/-- Reading a line of the daemon keeps the accounts. -/
theorem readDaemonLine_accounted (distinct : (lines.filterMap Line.request).Nodup)
    (reading : state.daemonTask = .reading) (received : state.daemonRecv = line :: rest) :
    Accounted lines (readDaemonLine { state with daemonRecv := rest } line) := by
  unfold readDaemonLine
  split
  · rename_i blank
    subst blank
    exact accounted.drop reading received rfl fun _ _ => rfl
  · split
    · rename_i suppressed
      obtain ⟨answers, slot⟩ := suppressed
      obtain ⟨id, replies⟩ := Option.isSome_iff_exists.mp answers
      have primed := accounted.slot id (slot ▸ replies)
      refine accounted.drop reading received ?_ ?_
      · have isReply := (replyId_parts replies).1
        cases line with
        | blank => rfl
        | json text message => simp [Line.unsolicited, isReply]
        | other text => simp [Line.unsolicited, isReply]
      · intro other owed
        by_contra found
        have same : line.replyId = some other := repliesTo_iff.mp (by simpa using found)
        rw [replies] at same
        cases same
        exact owed_primed_disjoint (accounted.handed_nodup distinct) owed primed
    · rename_i kept
      exact accounted.take distinct reading received kept

/-- A line is written to the host, and the id it answers is about to be retired. -/
theorem Accounted.deliver (task : state.daemonTask = .deliver line) : Accounted lines { state with
      hostOut := state.hostOut ++ [line],
      daemonTask := match line.replyId with
        | some id => .retire id
        | none => .reading } := by
  have sent : line ∈ state.sent := accounted.carried line (by rw [task]; exact mem_cons_self)
  have moved : state.transit = line :: state.daemonRecv := by simp [State.transit, task, DaemonTask.lines]
  have owedReply (id : Id) (replies : line.replyId = some id) : id ∈ state.handed.filterMap Line.owed := by
    rcases accounted.owed_or_primed sent replies with owed | primed
    · exact owed
    · have held := accounted.held id primed line (by rw [task]; exact mem_cons_self)
      rw [repliesTo_iff.mpr replies] at held
      cases held
  have unwritten (id : Id) (replies : line.replyId = some id) : state.replied id = false := by
    have passed := accounted.passed id (owedReply id replies)
    have once := accounted.once id
    rw [← passed, moved, filter_cons_of_pos (repliesTo_iff.mpr replies)] at once
    have none : state.hostOut.filter (·.repliesTo id) = [] := by
      apply length_eq_zero_iff.mp
      simp only [length_append, length_cons] at once
      omega
    have absent := filter_eq_nil_iff.mp none
    simpa [State.replied] using absent
  have nothing : (match line.replyId with
      | some id => DaemonTask.retire id
      | none => .reading).lines = [] := by
    cases line.replyId <;> rfl
  have across (select : Line Id → Bool) : (state.hostOut ++ [line]).filter select ++ state.daemonRecv.filter select =
      state.hostOut.filter select ++ state.transit.filter select := by
    rw [moved, filter_append, append_assoc, ← filter_append]
    rfl
  refine ⟨accounted.whole, accounted.handed, ?_, ?_, accounted.asked, accounted.once, accounted.received, ?_,
    accounted.suppressed, ?_, accounted.slot, accounted.priming, ?_, ?_, ?_⟩
  · intro id notOwed
    have quiet : line.repliesTo id = false := by
      by_contra found
      exact notOwed (owedReply id (repliesTo_iff.mp (by simpa using found)))
    have before := accounted.answered id notOwed
    simpa [filter_append, quiet] using before
  · intro id owed
    simp only [State.transit, nothing, nil_append]
    rw [across]
    exact accounted.passed id owed
  · intro carried member
    rw [nothing] at member
    cases member
  · intro id primed carried member
    rw [nothing] at member
    cases member
  · intro id retiring
    cases replies : line.replyId with
    | none => simp [replies] at retiring
    | some found =>
      have same : found = id := by simpa [replies] using retiring
      subst same
      refine ⟨owedReply found replies, ?_⟩
      simp [State.replied, repliesTo_iff.mpr replies]
  · rw [accounted.ledger]
    unfold State.owed
    apply filter_congr
    intro other owed
    cases replies : line.replyId with
    | none => simp [State.replied, Line.repliesTo, replies, task]
    | some id =>
      by_cases same : id = other
      · subst same
        simp [unwritten id replies]
      · simp [State.replied, Line.repliesTo, replies, task, same]
  · simp only [State.transit, nothing, nil_append]
    rw [across]
    exact accounted.unsolicited

/-- The reply is with the host, so its id is retired. -/
theorem Accounted.retire (distinct : (lines.filterMap Line.request).Nodup) (task : state.daemonTask = .retire id) :
    Accounted lines { state with ledger := state.ledger.retire id, daemonTask := .reading } := by
  obtain ⟨owed, replied⟩ := accounted.retiring id task
  have nodup : (state.handed.filterMap Line.owed).Nodup :=
    (accounted.handed_nodup distinct).sublist (owed_sublist_request _)
  have moved : DaemonTask.reading.lines ++ state.daemonRecv = state.transit := by
    simp [State.transit, task, DaemonTask.lines]
  refine ⟨accounted.whole, accounted.handed, accounted.answered, ?_, accounted.asked, accounted.once,
    accounted.received,
    ?_, accounted.suppressed, ?_, accounted.slot, accounted.priming, ?_, ?_, ?_⟩
  · simpa only [State.handed, State.transit, moved] using accounted.passed
  · intro carried member
    cases member
  · intro other primed carried member
    cases member
  · intro other retiring
    cases retiring
  · change state.ledger.outstanding.erase id = (state.handed.filterMap Line.owed).filter fun other =>
      !state.replied other || DaemonTask.reading = .retire other
    rw [accounted.ledger, State.owed, List.Nodup.erase_eq_filter (nodup.filter _), filter_filter]
    apply filter_congr
    intro other member
    by_cases same : id = other
    · subst same
      simp [replied]
    · have apart : other ≠ id := fun found => same found.symm
      simp [task, same, apart]
  · simpa only [State.transit, moved] using accounted.unsolicited

/-- The accounts do not depend on whether a stream has ended. -/
theorem Accounted.flags (shutdown closed abandoned : Bool) :
    Accounted lines { state with shutdown, closed, ledger := { state.ledger with abandoned } } :=
  ⟨accounted.whole, accounted.handed, accounted.answered, accounted.passed, accounted.asked, accounted.once,
    accounted.received, accounted.carried, accounted.suppressed, accounted.held, accounted.slot, accounted.priming,
    accounted.retiring, accounted.ledger, accounted.unsolicited⟩

theorem pumpDaemonToHost_accounted
    (distinct : (lines.filterMap Line.request).Nodup) : Accounted lines (pumpDaemonToHost state) := by
  unfold pumpDaemonToHost
  cases task : state.daemonTask with
  | deliver line => exact accounted.deliver task
  | retire id => exact accounted.retire distinct task
  | reading =>
    cases received : state.daemonRecv with
    | cons line rest =>
      have after := readDaemonLine_accounted accounted distinct task received
      rwa [task] at after
    | nil =>
      dsimp only
      split
      · have after := accounted.flags state.shutdown state.closed true
        rwa [task, received] at after
      · exact accounted

/-- The daemon sends a line of its own, or the one reply to a request it was sent. -/
theorem Accounted.send (may : state.daemonMaySend line = true) :
    Accounted lines { state with sent := state.sent ++ [line], daemonRecv := state.daemonRecv ++ [line] } := by
  have asked (isReply : line.isReply = true) :
      ∃ id, line.id = some id ∧ id ∈ state.forwarded.filterMap Line.request ∧
        state.sent.any (·.repliesTo id) = false := by
    simp only [State.daemonMaySend, isReply, Bool.not_true, Bool.false_or, Bool.and_eq_true] at may
    cases carries : line.id with
    | none => simp [carries] at may
    | some id =>
      simp only [carries, Bool.and_eq_true, Bool.not_eq_true'] at may
      obtain ⟨asking, member, request⟩ := any_eq_true.mp may.2.1
      exact ⟨id, rfl, mem_filterMap.mpr ⟨asking, member, by simpa using request⟩, may.2.2⟩
  have first (id : Id) (replies : line.repliesTo id = true) : state.sent.any (·.repliesTo id) = false := by
    obtain ⟨isReply, named⟩ := replyId_parts (repliesTo_iff.mp replies)
    obtain ⟨other, carries, -, absent⟩ := asked isReply
    rw [named] at carries
    cases carries
    exact absent
  refine ⟨accounted.whole, accounted.handed, accounted.answered, ?_, ?_, ?_, ?_, ?_, ?_, accounted.held, accounted.slot,
    accounted.priming, accounted.retiring, accounted.ledger, ?_⟩
  · intro id owed
    have before := accounted.passed id owed
    simp only [State.transit, filter_append] at before ⊢
    rw [← before]
    simp only [append_assoc]
  · intro other member isReply
    rcases mem_append.mp member with before | here
    · exact accounted.asked other before isReply
    · rw [mem_singleton.mp here] at isReply ⊢
      obtain ⟨id, carries, forwarded, -⟩ := asked isReply
      exact ⟨id, carries, forwarded⟩
  · intro id
    rw [filter_append, length_append]
    by_cases replies : line.repliesTo id = true
    · have none : state.sent.filter (·.repliesTo id) = [] := by
        rw [filter_eq_nil_iff]
        intro other member found
        have absent := first id replies
        simp only [any_eq_false] at absent
        exact absent other member found
      simp [none, replies]
    · simpa [replies] using accounted.once id
  · obtain ⟨consumed, whole⟩ := accounted.received
    exact ⟨consumed, by rw [← whole, append_assoc]⟩
  · intro carried member
    exact mem_append_left _ (accounted.carried carried member)
  · intro id primed
    rcases accounted.suppressed id primed with slot | read | priming
    · exact .inl slot
    · refine .inr (.inl ?_)
      have quiet : line.repliesTo id = false := by
        by_contra found
        have absent := first id (by simpa using found)
        simp [State.answerRead, absent] at read
      simpa [State.answerRead, quiet] using read
    · exact .inr (.inr priming)
  · have before := accounted.unsolicited
    simp only [State.transit, filter_append] at before ⊢
    rw [← before]
    simp only [append_assoc]

end

end DaemonPump

section Runs

variable {Id : Type} [DecidableEq Id] {answers : LocalAnswers Id} {lines : List (Line Id)} {state reached : State Id}

/-- Each step keeps the account of what is owed. -/
theorem step_accounted {moved : Step Id} {next : State Id} (accounted : Accounted lines state)
    (distinct : (lines.filterMap Line.request).Nodup) (accountable : state.accountable moved = true)
    (stepped : step answers state moved = some next) : Accounted lines next := by
  cases moved with
  | hostPump =>
    cases stepped
    exact pumpHostToDaemon_accounted accounted distinct accountable
  | daemonPump =>
    cases stepped
    exact pumpDaemonToHost_accounted accounted distinct
  | daemonSends line =>
    simp only [step] at stepped
    split at stepped
    · rename_i may
      cases stepped
      exact accounted.send may
    · cases stepped
  | daemonCloses =>
    cases stepped
    exact accounted.flags state.shutdown true state.ledger.abandoned
  | watchdogFires =>
    cases stepped
    exact accounted.flags true state.closed state.ledger.abandoned

theorem run_accounted {schedule : List (Step Id)} (accounted : Accounted lines state)
    (distinct : (lines.filterMap Line.request).Nodup) (kept : keepsAccount answers schedule state = true)
    (ran : run answers schedule state = some reached) : Accounted lines reached := by
  induction schedule generalizing state with
  | nil =>
    cases ran
    exact accounted
  | cons moved rest ih =>
    simp only [keepsAccount, Bool.and_eq_true] at kept
    simp only [run] at ran
    cases stepped : step answers state moved with
    | none => simp [stepped] at ran
    | some next =>
      rw [stepped] at ran kept
      exact ih (step_accounted accounted distinct kept.1 stepped) kept.2 ran

theorem start_accounted (lines : List (Line Id)) : Accounted lines (start lines) where
  whole := rfl
  handed := .refl _
  answered := fun _ _ => by simp [start]
  passed := fun _ _ => rfl
  asked := fun _ member => by cases member
  once := fun _ => by simp [start]
  received := suffix_rfl
  carried := fun _ member => by cases member
  suppressed := fun _ member => by cases member
  held := fun _ member => by cases member
  slot := fun _ found => by cases found
  priming := fun _ _ found => by cases found
  retiring := fun _ found => by cases found
  ledger := rfl
  unsolicited := rfl

/-- Once every reply is with the host, the ledger is settled, or it settles with the retirement under way. -/
theorem Accounted.settles (accounted : Accounted lines state) (distinct : (lines.filterMap Line.request).Nodup)
    (replied : ∀ id ∈ state.handed.filterMap Line.owed, state.replied id = true) : state.ledger.settled = true ∨
      ∃ id, state.daemonTask = .retire id ∧ (pumpDaemonToHost state).ledger.settled = true := by
  cases task : state.daemonTask with
  | retire id =>
    refine .inr ⟨id, rfl, ?_⟩
    have after := accounted.retire distinct task
    have nothing : (state.ledger.retire id).outstanding = [] := by
      rw [after.ledger, State.owed, filter_eq_nil_iff]
      intro other member
      have delivered := replied other member
      simpa [State.replied] using delivered
    simp [pumpDaemonToHost, task, ReplyLedger.settled, nothing]
  | reading =>
    left
    have nothing : state.ledger.outstanding = [] := by
      rw [accounted.ledger, State.owed, filter_eq_nil_iff]
      intro other member
      simp [replied other member, task]
    simp [ReplyLedger.settled, nothing]
  | deliver line =>
    left
    have nothing : state.ledger.outstanding = [] := by
      rw [accounted.ledger, State.owed, filter_eq_nil_iff]
      intro other member
      simp [replied other member, task]
    simp [ReplyLedger.settled, nothing]

/-- When everything is done, every request of the host has its one reply. -/
theorem Accounted.one_reply (accounted : Accounted lines state) (finished : state.finished = true) (id : Id)
    (request : id ∈ lines.filterMap Line.request) : (state.hostOut.filter (·.repliesTo id)).length = 1 := by
  simp only [State.finished, Bool.and_eq_true, List.isEmpty_iff, decide_eq_true_eq, List.all_eq_true] at finished
  obtain ⟨⟨⟨⟨hostIn, hostTask⟩, daemonRecv⟩, daemonTask⟩, answered⟩ := finished
  have read : id ∈ state.read.filterMap Line.request := by
    rw [← accounted.whole, hostIn, List.append_nil] at request
    exact request
  by_cases owed : id ∈ state.handed.filterMap Line.owed
  · have passed := accounted.passed id owed
    simp only [State.transit, daemonTask, DaemonTask.lines, daemonRecv, List.filter_nil, List.append_nil] at passed
    rw [passed]
    have forwarded : id ∈ state.forwarded.filterMap Line.request := by
      have handed := owed_mem_handed owed
      rwa [State.handed, hostTask, HostTask.lines, List.append_nil] at handed
    obtain ⟨line, member, replies⟩ := List.any_eq_true.mp (answered id forwarded)
    have some : 0 < (state.sent.filter (·.repliesTo id)).length :=
      List.length_pos_of_mem (List.mem_filter.mpr ⟨member, replies⟩)
    have once := accounted.once id
    omega
  · rw [accounted.answered id owed, if_pos read]

/-- In every run that keeps its account, the ledger holds what the host is owed, and each request gets one reply. -/
theorem replies_accounted (answers : LocalAnswers Id) (lines : List (Line Id)) (schedule : List (Step Id))
    (reached : State Id) (distinct : (lines.filterMap Line.request).Nodup)
    (kept : keepsAccount answers schedule (start lines) = true)
    (ran : run answers schedule (start lines) = some reached) : reached.ledger.outstanding = reached.owed ∧
      ((∀ id ∈ reached.handed.filterMap Line.owed, reached.replied id = true) →
        reached.ledger.settled = true ∨
          ∃ id, reached.daemonTask = .retire id ∧ (pumpDaemonToHost reached).ledger.settled = true) ∧
      reached.hostOut.filter Line.unsolicited ++ reached.transit.filter Line.unsolicited =
        reached.sent.filter Line.unsolicited ∧
      (∀ id ∈ reached.handed.filterMap Line.owed,
        reached.hostOut.filter (·.repliesTo id) ++ reached.transit.filter (·.repliesTo id) =
          reached.sent.filter (·.repliesTo id)) ∧
      (reached.finished = true →
        ∀ id ∈ lines.filterMap Line.request, (reached.hostOut.filter (·.repliesTo id)).length = 1) := by
  have accounted := run_accounted (start_accounted lines) distinct kept ran
  exact ⟨accounted.ledger, accounted.settles distinct, accounted.unsolicited, accounted.passed, accounted.one_reply⟩

/-- One `initialize` and one call are both answered once, though the daemon answers the call first. -/
theorem handshake_and_call_accounted : ∃ reached : State Nat,
    run ⟨fun _ _ => "ready", fun _ => "tools"⟩
      [.hostPump, .hostPump, .hostPump, .hostPump, .hostPump,
        .daemonSends (.json "called" ⟨none, some 2, none, false, true, false⟩),
        .daemonSends (.json "primed" ⟨none, some 1, none, false, true, false⟩),
        .daemonPump, .daemonPump, .daemonPump, .daemonPump]
      (start [.json "open" ⟨some "initialize", some 1, none, false, false, false⟩,
        .json "call" ⟨some "tools/call", some 2, none, false, false, false⟩]) = some reached ∧
      reached.finished = true ∧ (reached.hostOut.filter (·.repliesTo 1)).length = 1 := by
  obtain ⟨-, -, -, -, one⟩ := @replies_accounted Nat _ ⟨fun _ _ => "ready", fun _ => "tools"⟩
    [.json "open" ⟨some "initialize", some 1, none, false, false, false⟩,
      .json "call" ⟨some "tools/call", some 2, none, false, false, false⟩]
    [.hostPump, .hostPump, .hostPump, .hostPump, .hostPump,
      .daemonSends (.json "called" ⟨none, some 2, none, false, true, false⟩),
      .daemonSends (.json "primed" ⟨none, some 1, none, false, true, false⟩),
      .daemonPump, .daemonPump, .daemonPump, .daemonPump] _ (by decide) (by decide) rfl
  exact ⟨_, rfl, by decide, one (by decide) 1 (by decide)⟩

/-- A second `initialize` lets the first one's reply through, and a response to the daemon is owed for ever. -/
theorem late_handshake_and_response_unaccounted : ((run ⟨fun _ _ => "ready", fun _ => "tools"⟩
      [.daemonSends (.json "ask" ⟨some "ping", some 7, none, false, false, false⟩), .daemonPump, .daemonPump,
        .hostPump, .hostPump, .hostPump, .hostPump, .hostPump, .hostPump,
        .daemonSends (.json "first" ⟨none, some 1, none, false, true, false⟩),
        .daemonSends (.json "second" ⟨none, some 2, none, false, true, false⟩),
        .daemonPump, .daemonPump, .daemonPump, .daemonPump, .hostPump, .hostPump]
      (start [.json "open" ⟨some "initialize", some 1, none, false, false, false⟩,
        .json "again" ⟨some "initialize", some 2, none, false, false, false⟩,
        .json "answer" ⟨none, some 7, none, false, true, false⟩])).map fun reached =>
      (reached.finished, (reached.hostOut.filter (·.repliesTo 1)).length, reached.ledger.outstanding,
        reached.ledger.settled)) = some (true, 2, [7], false) := by
  decide

end Runs

end Codegraph.Daemon.Proxy
