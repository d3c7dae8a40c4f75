import CodeEditor.Foundation.Simulation
import CodeEditor.Ipc.Channels

/-!
# Requests on a channel

How often the server answers a promise request, and what remains of a request that
was taken back. A request that was parked for a channel that is not registered yet
stays parked after its timer has answered it and after it was taken back, and it is
invoked all the same once its channel is registered. What holds of the other runs
is an invariant of the server and of the messages it has handled.
-/

namespace CodeEditor.Ipc

open Simulation List Option

variable {Data : Type}

/-! ## The invariant -/

namespace ChannelServer

/-- Everything that is or may become an answer to the promise request with an id:
responses sent, calls that have not settled and timers that are armed. -/
def answerCount (s : ChannelServer Data) (id : Nat) : Nat :=
  s.sent.countP (·.answers id) + s.calls.count id +
    s.timers.countP fun entry =>
      decide (entry.request.type = .promise) && decide (entry.request.id = id)

/-- The invariant of a server that has handled some messages. -/
structure Ok (s : ChannelServer Data) (messages : List (RawRequest Data)) : Prop where
  registered : ∀ channelName ∈ s.flushes, channelName ∈ s.channels
  pendingHandled : ∀ entry ∈ s.pendingRequests, .request entry.request ∈ messages
  pendingDistinct : (s.pendingRequests.map (·.request.id)).Nodup
  timersPending : ∀ entry ∈ s.timers, entry ∈ s.pendingRequests
  invokedHandled : ∀ request ∈ s.invoked, .request request ∈ messages
  invokedDistinct : (s.invoked.map (·.id)).Nodup
  callsInvoked : ∀ id, id ∈ s.calls ∨ id ∈ s.settled →
    ∃ request ∈ s.invoked, request.type = .promise ∧ request.id = id
  subscriptionsInvoked : ∀ id ∈ s.subscriptions,
    ∃ request ∈ s.invoked, request.type = .eventListen ∧ request.id = id
  subscriptionsDistinct : s.subscriptions.Nodup
  subscriptionsActive : ∀ id ∈ s.subscriptions,
    s.activeRequests id = some .subscription
  answeredHandled : ∀ response ∈ s.sent, ∀ id, response.answers id = true →
    ∃ request, .request request ∈ messages ∧ request.id = id
  once : ∀ id, s.answerCount id ≤ 1
  disposed : ∀ message ∈ messages, ∀ id, message.takesBack id = true →
    id ∉ s.subscriptions

/-- A request that was handled, and that was neither invoked, answered nor taken
back. -/
structure Untouched (s : ChannelServer Data) (messages : List (RawRequest Data))
    (request : Request Data) : Prop where
  handled : .request request ∈ messages
  notInvoked : ∀ other ∈ s.invoked, other.id ≠ request.id
  notAnswered : ∀ response ∈ s.sent, response.answers request.id = false
  notTakenBack : ∀ message ∈ messages, message.takesBack request.id = false

/-- No timer of a request is armed. -/
def NoTimer (s : ChannelServer Data) (request : Request Data) : Prop :=
  ∀ entry ∈ s.timers, entry.request.id ≠ request.id

variable {s : ChannelServer Data} {messages : List (RawRequest Data)}
  {request : Request Data}

theorem Ok.new (timeoutDelay : Nat) :
    Ok (ChannelServer.new timeoutDelay : ChannelServer Data) [] := by
  constructor <;> simp [ChannelServer.new, answerCount, RawResponse.answers]

theorem Ok.callNotInvoked (ok : s.Ok messages)
    (notInvoked : ∀ other ∈ s.invoked, other.id ≠ request.id) :
    request.id ∉ s.calls ∧ request.id ∉ s.subscriptions := by
  constructor
  · intro called
    obtain ⟨other, invoked, -, same⟩ := ok.callsInvoked _ (Or.inl called)
    exact notInvoked other invoked same
  · intro subscribed
    obtain ⟨other, invoked, -, same⟩ := ok.subscriptionsInvoked _ subscribed
    exact notInvoked other invoked same

theorem answerCount_eq_zero (ok : s.Ok messages) (untouched : s.Untouched messages request)
    (noTimer : s.NoTimer request) : s.answerCount request.id = 0 := by
  have sent : s.sent.countP (·.answers request.id) = 0 := by
    rw [countP_eq_zero]
    intro response member
    simp [untouched.notAnswered response member]
  have calls : s.calls.count request.id = 0 :=
    count_eq_zero.mpr (ok.callNotInvoked untouched.notInvoked).1
  have timers : (s.timers.countP fun entry =>
      decide (entry.request.type = .promise) && decide (entry.request.id = request.id)) = 0 := by
    rw [countP_eq_zero]
    intro entry member
    simp [noTimer entry member]
  rw [answerCount, sent, calls, timers]

variable {message : RawRequest Data}

/-- A further message was handled. -/
theorem Ok.handle (ok : s.Ok messages)
    (ended : ∀ id, message.takesBack id = true → id ∉ s.subscriptions) :
    s.Ok (messages ++ [message]) :=
  { ok with
    pendingHandled := fun entry member =>
      mem_append_left _ (ok.pendingHandled entry member)
    invokedHandled := fun other member =>
      mem_append_left _ (ok.invokedHandled other member)
    answeredHandled := by
      intro response member id answers
      obtain ⟨other, handled, same⟩ := ok.answeredHandled response member id answers
      exact ⟨other, mem_append_left _ handled, same⟩
    disposed := by
      intro other member id takesBack
      rw [mem_append, mem_singleton] at member
      obtain member | rfl := member
      · exact ok.disposed other member id takesBack
      · exact ended id takesBack }

/-! ## Parking and invoking a request -/

section

variable (ok : s.Ok messages) (untouched : s.Untouched messages request)

include ok untouched

theorem Ok.collectPendingRequest (noTimer : s.NoTimer request)
    (notPending : ∀ entry ∈ s.pendingRequests, entry.request.id ≠ request.id) :
    (s.collectPendingRequest request).Ok messages :=
  { ok with
    pendingHandled := by
      intro entry member
      simp only [ChannelServer.collectPendingRequest, mem_append, mem_singleton] at member
      obtain member | rfl := member
      · exact ok.pendingHandled entry member
      · exact untouched.handled
    pendingDistinct := by
      simp only [ChannelServer.collectPendingRequest, map_append, map_cons, map_nil]
      rw [← concat_eq_append]
      apply List.Nodup.concat _ ok.pendingDistinct
      simpa using fun entry member => notPending entry member
    timersPending := by
      intro entry member
      simp only [ChannelServer.collectPendingRequest, mem_append, mem_singleton] at member ⊢
      exact member.imp_left (ok.timersPending entry)
    once := by
      intro id
      have none := answerCount_eq_zero ok untouched noTimer
      have before := ok.once id
      simp only [answerCount, ChannelServer.collectPendingRequest, countP_append,
        countP_singleton] at none before ⊢
      by_cases same : request.id = id
      · subst same
        split <;> omega
      · simpa [same] using before }

/-- A channel method was invoked for an untouched request. -/
theorem Ok.invoke : Ok { s with invoked := s.invoked ++ [request] } messages :=
  { ok with
    invokedHandled := by
      intro other member
      rw [mem_append, mem_singleton] at member
      obtain member | rfl := member
      · exact ok.invokedHandled other member
      · exact untouched.handled
    invokedDistinct := by
      rw [map_append, map_cons, map_nil, ← concat_eq_append]
      apply List.Nodup.concat _ ok.invokedDistinct
      simpa using fun other member => untouched.notInvoked other member
    callsInvoked := by
      intro id called
      obtain ⟨other, member, facts⟩ := ok.callsInvoked id called
      exact ⟨other, mem_append_left _ member, facts⟩
    subscriptionsInvoked := by
      intro id subscribed
      obtain ⟨other, member, facts⟩ := ok.subscriptionsInvoked id subscribed
      exact ⟨other, mem_append_left _ member, facts⟩ }

theorem Ok.onPromise (noTimer : s.NoTimer request) (promise : request.type = .promise)
    (channel : request.channelName ∈ s.channels) : (s.onPromise request).Ok messages := by
  have notSubscribed := (ok.callNotInvoked untouched.notInvoked).2
  have none := answerCount_eq_zero ok untouched noTimer
  rw [ChannelServer.onPromise, if_pos channel]
  exact { ok.invoke untouched with
      callsInvoked := by
        intro id called
        simp only [mem_append, mem_singleton] at called
        obtain (called | rfl) | settled := called
        · exact (ok.invoke untouched).callsInvoked id (Or.inl called)
        · exact ⟨request, by simp, promise, rfl⟩
        · exact (ok.invoke untouched).callsInvoked id (Or.inr settled)
      subscriptionsActive := by
        intro id subscribed
        have other : id ≠ request.id := by
          intro same
          exact notSubscribed (same ▸ subscribed)
        simpa [other] using ok.subscriptionsActive id subscribed
      once := by
        intro id
        have before := ok.once id
        simp only [answerCount, count_append, count_singleton] at none before ⊢
        by_cases same : request.id = id
        · subst same
          simp only [beq_self_eq_true, if_true]
          omega
        · simp only [beq_iff_eq, same, if_false]
          omega }

theorem Ok.onEventListen (eventListen : request.type = .eventListen)
    (channel : request.channelName ∈ s.channels) (throws : Bool) :
    (s.onEventListen request throws).1.Ok messages := by
  have notSubscribed := (ok.callNotInvoked untouched.notInvoked).2
  rw [ChannelServer.onEventListen, if_pos channel]
  cases throws with
  | true => exact ok.invoke untouched
  | false =>
    simp only [Bool.false_eq_true, if_false]
    exact { ok.invoke untouched with
        subscriptionsInvoked := by
          intro id subscribed
          simp only [mem_append, mem_singleton] at subscribed
          obtain subscribed | rfl := subscribed
          · exact (ok.invoke untouched).subscriptionsInvoked id subscribed
          · exact ⟨request, by simp, eventListen, rfl⟩
        subscriptionsDistinct := by
          rw [← concat_eq_append]
          exact List.Nodup.concat notSubscribed ok.subscriptionsDistinct
        subscriptionsActive := by
          intro id subscribed
          by_cases same : id = request.id
          · simp [same]
          · simp only [mem_append, mem_singleton, same, or_false] at subscribed
            simpa [same] using ok.subscriptionsActive id subscribed
        disposed := by
          intro message member id takesBack subscribed
          simp only [mem_append, mem_singleton] at subscribed
          obtain subscribed | rfl := subscribed
          · exact ok.disposed message member id takesBack subscribed
          · rw [untouched.notTakenBack message member] at takesBack
            exact absurd takesBack (by decide) }

end

/-! ## The other steps of the server -/

theorem Ok.registerChannel (ok : s.Ok messages) (channelName : String) :
    (s.registerChannel channelName).Ok messages :=
  { ok with
    registered := by
      intro other scheduled
      simp only [ChannelServer.registerChannel, mem_append, mem_singleton] at scheduled
      obtain scheduled | rfl := scheduled
      · exact mem_cons_of_mem _ (ok.registered other scheduled)
      · exact mem_cons_self .. }

theorem Ok.clearTimeout (ok : s.Ok messages) (timer : Nat) : (s.clearTimeout timer).Ok messages :=
  { ok with
    timersPending := by
      intro entry member
      exact ok.timersPending entry (mem_of_mem_filter member)
    once := by
      intro id
      have before := ok.once id
      have fewer := (filter_sublist (p := fun entry : PendingRequest Data =>
        decide (entry.timeoutTimer ≠ timer)) (l := s.timers)).countP_le
          (p := fun entry => decide (entry.request.type = .promise) &&
            decide (entry.request.id = id))
      simp only [answerCount, ChannelServer.clearTimeout] at before ⊢
      omega }

theorem Ok.fire (ok : s.Ok messages) (id : Nat) (data : Data) :
    (s.sendResponse (.eventFire id data)).Ok messages :=
  { ok with
    answeredHandled := by
      intro response member other answers
      simp only [sendResponse, mem_append, mem_singleton] at member
      obtain member | rfl := member
      · exact ok.answeredHandled response member other answers
      · exact absurd answers (by simp [RawResponse.answers])
    once := by
      intro other
      have before := ok.once other
      simpa [answerCount, sendResponse, RawResponse.answers] using before }

theorem answers_response (id other : Nat) (outcome : Outcome Data) :
    (outcome.response id).answers other = (id == other) := by
  cases outcome <;> rfl

section

variable (ok : s.Ok messages)

include ok

/-- A timer fires: an armed timer becomes an answer. -/
theorem Ok.timeout {entry : PendingRequest Data} (armed : entry ∈ s.timers) :
    (s.timeout entry).Ok messages := by
  have cleared := ok.clearTimeout entry.timeoutTimer
  rw [ChannelServer.timeout]
  cases type : entry.request.type with
  | eventListen => exact cleared
  | promise =>
    exact { cleared with
        answeredHandled := by
          intro response member id answers
          simp only [sendResponse, mem_append, mem_singleton] at member
          obtain member | rfl := member
          · exact ok.answeredHandled response member id answers
          · refine ⟨entry.request, ok.pendingHandled _ (ok.timersPending _ armed), ?_⟩
            simpa [RawResponse.answers] using answers
        once := by
          intro id
          have before := ok.once id
          have split := countP_eq_countP_filter_add s.timers
            (fun other => decide (other.request.type = .promise) && decide (other.request.id = id))
            (fun other => decide (other.timeoutTimer ≠ entry.timeoutTimer))
          simp only [answerCount, sendResponse, countP_append,
            countP_singleton, RawResponse.answers] at before ⊢
          by_cases same : entry.request.id = id
          · have fired : 0 < (s.timers.filter fun other =>
                ! decide (other.timeoutTimer ≠ entry.timeoutTimer)).countP
                  (fun other => decide (other.request.type = .promise) &&
                    decide (other.request.id = id)) := by
              rw [countP_pos_iff]
              exact ⟨entry, by simp [armed], by simp [type, same]⟩
            simp only [same, beq_self_eq_true, if_true]
            omega
          · simp only [beq_iff_eq, same, if_false]
            omega }

theorem Ok.settle {id : Nat} (called : id ∈ s.calls) (outcome : Outcome Data) :
    (s.settle id outcome).Ok messages :=
  { ok with
    callsInvoked := by
      intro other under
      simp only [ChannelServer.settle, sendResponse, mem_append, mem_singleton] at under
      obtain called' | settled | rfl := under
      · exact ok.callsInvoked other (Or.inl (mem_of_mem_erase called'))
      · exact ok.callsInvoked other (Or.inr settled)
      · exact ok.callsInvoked other (Or.inl called)
    answeredHandled := by
      intro response member other answers
      simp only [ChannelServer.settle, sendResponse, mem_append, mem_singleton] at member
      obtain member | rfl := member
      · exact ok.answeredHandled response member other answers
      · obtain ⟨request, invoked, -, same⟩ := ok.callsInvoked id (Or.inl called)
        rw [answers_response, beq_iff_eq] at answers
        exact ⟨request, ok.invokedHandled request invoked, same.trans answers⟩
    once := by
      intro other
      have before := ok.once other
      simp only [answerCount, ChannelServer.settle, sendResponse, countP_append,
        countP_singleton, answers_response, count_erase] at before ⊢
      by_cases same : id = other
      · subst same
        have positive := count_pos_iff.mpr called
        simp only [beq_self_eq_true, if_true]
        omega
      · simp only [beq_iff_eq, same, if_false]
        omega }

/-- Deleting the active request of an id without a subscription. -/
theorem Ok.deleteActive {id : Nat} (notSubscribed : id ∉ s.subscriptions) :
    (s.deleteActive id).Ok messages :=
  { ok with
    subscriptionsActive := by
      intro other subscribed
      have different : other ≠ id := by
        intro same
        exact notSubscribed (same ▸ subscribed)
      simpa [ChannelServer.deleteActive, different] using ok.subscriptionsActive other subscribed }

theorem Ok.disposeOf_call (id : Nat) : (s.disposeOf id .call).Ok messages :=
  { ok with registered := ok.registered }

/-- Requests with one id are one request. -/
theorem Ok.invoked_unique {first second : Request Data} (firstInvoked : first ∈ s.invoked)
    (secondInvoked : second ∈ s.invoked) (same : first.id = second.id) : first = second :=
  inj_on_of_nodup_map ok.invokedDistinct firstInvoked secondInvoked same

theorem Ok.finish {id : Nat} (settled : id ∈ s.settled) : (s.finish id).Ok messages := by
  have notSubscribed : id ∉ s.subscriptions := by
    intro subscribed
    obtain ⟨call, called, callType, callId⟩ := ok.callsInvoked id (Or.inr settled)
    obtain ⟨listen, listened, listenType, listenId⟩ := ok.subscriptionsInvoked id subscribed
    have same := ok.invoked_unique called listened (callId.trans listenId.symm)
    rw [same, listenType] at callType
    exact absurd callType (by decide)
  have erased : Ok { s with settled := s.settled.erase id } messages :=
    { ok with
      callsInvoked := by
        intro other under
        exact ok.callsInvoked other (under.imp_right mem_of_mem_erase) }
  exact (erased.disposeOf_call id).deleteActive notSubscribed

/-- Whatever the active request of an id is, disposing it ends the subscription. -/
theorem Ok.disposeActiveRequest (id : Nat) : (s.disposeActiveRequest id).Ok messages ∧
      id ∉ (s.disposeActiveRequest id).subscriptions := by
  have active := ok.subscriptionsActive id
  rw [ChannelServer.disposeActiveRequest]
  cases found : s.activeRequests id with
  | none =>
    refine ⟨ok, ?_⟩
    intro subscribed
    exact absurd (found.symm.trans (active subscribed)) (by simp)
  | some disposable =>
    cases disposable with
    | call =>
      have notSubscribed : id ∉ s.subscriptions := by
        intro subscribed
        exact absurd (found.symm.trans (active subscribed)) (by simp)
      exact ⟨(ok.disposeOf_call id).deleteActive notSubscribed, notSubscribed⟩
    | subscription =>
      have ended : id ∉ s.subscriptions.erase id :=
        ok.subscriptionsDistinct.not_mem_erase
      refine ⟨Ok.deleteActive ?_ ended, ended⟩
      exact { ok with
          subscriptionsInvoked := fun other subscribed =>
            ok.subscriptionsInvoked other (mem_of_mem_erase subscribed)
          subscriptionsDistinct := ok.subscriptionsDistinct.erase id
          subscriptionsActive := fun other subscribed =>
            ok.subscriptionsActive other (mem_of_mem_erase subscribed)
          disposed := fun message member other takesBack subscribed =>
            ok.disposed message member other takesBack (mem_of_mem_erase subscribed) }

end

/-! ## Flushing -/

/-- What the loop of a flush needs of the entries that are still to come. -/
structure Flushable (s : ChannelServer Data) (messages : List (RawRequest Data))
    (entries : List (PendingRequest Data)) : Prop where
  pending : ∀ entry ∈ entries, entry ∈ s.pendingRequests
  distinct : (entries.map (·.request.id)).Nodup
  registered : ∀ entry ∈ entries, entry.request.channelName ∈ s.channels
  untouched : ∀ entry ∈ entries, s.Untouched messages entry.request

variable {entry : PendingRequest Data}

theorem Ok.noTimer_clearTimeout (ok : s.Ok messages) (pending : entry ∈ s.pendingRequests) :
    (s.clearTimeout entry.timeoutTimer).NoTimer entry.request := by
  intro other armed same
  simp only [ChannelServer.clearTimeout, mem_filter, decide_eq_true_eq] at armed
  have equal := inj_on_of_nodup_map ok.pendingDistinct (ok.timersPending other armed.1) pending same
  exact armed.2 (congrArg PendingRequest.timeoutTimer equal)

variable {entries : List (PendingRequest Data)} {s' : ChannelServer Data}

/-- The entries behind one that was invoked are as they were. -/
theorem Flushable.tail (flushable : s.Flushable messages (entry :: entries))
    (pending : s'.pendingRequests = s.pendingRequests) (channels : s'.channels = s.channels)
    (sent : s'.sent = s.sent) (invoked : s'.invoked = s.invoked ++ [entry.request]) :
    s'.Flushable messages entries where
  pending other member := by
    rw [pending]
    exact flushable.pending other (mem_cons_of_mem _ member)
  distinct := (nodup_cons.mp flushable.distinct).2
  registered other member := by
    rw [channels]
    exact flushable.registered other (mem_cons_of_mem _ member)
  untouched other member := by
    have before := flushable.untouched other (mem_cons_of_mem _ member)
    have different := (nodup_cons.mp flushable.distinct).1
    refine ⟨before.handled, ?_, ?_, before.notTakenBack⟩
    · intro earlier earlierInvoked
      rw [invoked, mem_append, mem_singleton] at earlierInvoked
      obtain earlierInvoked | rfl := earlierInvoked
      · exact before.notInvoked earlier earlierInvoked
      · intro same
        exact different (mem_map.mpr ⟨other, member, same.symm⟩)
    · rw [sent]
      exact before.notAnswered

/-- What the loop of a flush leaves: the parked requests are still there, and no
timer of an entry is armed unless the loop threw. -/
structure Flushed (s : ChannelServer Data) (messages : List (RawRequest Data))
    (entries : List (PendingRequest Data)) (result : ChannelServer Data × Bool) : Prop where
  ok : result.1.Ok messages
  pending : result.1.pendingRequests = s.pendingRequests
  fewer : ∀ timer ∈ result.1.timers, timer ∈ s.timers
  cleared : result.2 = false → ∀ timer ∈ result.1.timers, ∀ entry ∈ entries,
    timer.timeoutTimer ≠ entry.timeoutTimer

theorem Flushed.cons {result : ChannelServer Data × Bool}
    (flushed : s'.Flushed messages entries result)
    (pending : s'.pendingRequests = s.pendingRequests)
    (timers : s'.timers = (s.clearTimeout entry.timeoutTimer).timers) :
    s.Flushed messages (entry :: entries) result := by
  have gone : ∀ timer ∈ s'.timers, timer ∈ s.timers ∧ timer.timeoutTimer ≠ entry.timeoutTimer := by
    intro timer armed
    rw [timers] at armed
    simpa [ChannelServer.clearTimeout] using armed
  refine ⟨flushed.ok, flushed.pending.trans pending, ?_, ?_⟩
  · intro timer armed
    exact (gone timer (flushed.fewer timer armed)).1
  · intro completed timer armed other member
    obtain rfl | member := mem_cons.mp member
    · exact (gone timer (flushed.fewer timer armed)).2
    · exact flushed.cleared completed timer armed other member

theorem flushEntries_ok (throws : Nat → Bool) :
    ∀ {s : ChannelServer Data}, s.Ok messages → s.Flushable messages entries →
      s.Flushed messages entries (flushEntries throws s entries) := by
  induction entries with
  | nil =>
    intro s ok _
    exact ⟨ok, rfl, fun _ armed => armed, fun _ _ _ _ none => absurd none (by simp)⟩
  | cons entry entries ih =>
    intro s ok flushable
    have member := mem_cons_self (a := entry) (l := entries)
    have noTimer := ok.noTimer_clearTimeout (flushable.pending entry member)
    have untouched : (s.clearTimeout entry.timeoutTimer).Untouched messages
        entry.request := { flushable.untouched entry member with }
    have channel : entry.request.channelName ∈ (s.clearTimeout entry.timeoutTimer).channels :=
      flushable.registered entry member
    have cleared := ok.clearTimeout entry.timeoutTimer
    rw [flushEntries]
    cases type : entry.request.type with
    | promise =>
      have called := cleared.onPromise untouched noTimer type channel
      simp only [ChannelServer.onPromise, if_pos channel] at called ⊢
      refine Flushed.cons (s := s) (ih called ?_) rfl rfl
      exact flushable.tail rfl rfl rfl rfl
    | eventListen =>
      have listened := cleared.onEventListen untouched type channel (throws entry.request.id)
      simp only [ChannelServer.onEventListen, if_pos channel] at listened ⊢
      cases thrown : throws entry.request.id with
      | true =>
        simp only [thrown, if_true] at listened ⊢
        refine ⟨listened, rfl, ?_, nofun⟩
        intro timer armed
        exact mem_of_mem_filter armed
      | false =>
        simp only [thrown, Bool.false_eq_true, if_false] at listened ⊢
        refine Flushed.cons (s := s) (ih listened ?_) rfl rfl
        exact flushable.tail rfl rfl rfl rfl

theorem Ok.flushPendingRequests (ok : s.Ok messages) {channelName : String}
    (channel : channelName ∈ s.channels) (throws : Nat → Bool)
    (untouched : ∀ entry ∈ s.pendingFor channelName, s.Untouched messages entry.request) :
    (s.flushPendingRequests channelName throws).Ok messages := by
  have flushable : s.Flushable messages (s.pendingFor channelName) := by
    refine ⟨fun entry member => mem_of_mem_filter member, ?_, ?_, untouched⟩
    · exact ok.pendingDistinct.sublist (filter_sublist.map _)
    · intro entry member
      have named := of_mem_filter member
      rw [decide_eq_true_eq] at named
      rw [named]
      exact channel
  have flushed := flushEntries_ok throws ok flushable
  rw [ChannelServer.flushPendingRequests]
  cases result : flushEntries throws s (s.pendingFor channelName) with
  | mk s' threw =>
    rw [result] at flushed
    cases threw with
    | true => exact flushed.ok
    | false =>
      exact { flushed.ok with
          pendingHandled := fun entry member =>
            flushed.ok.pendingHandled entry (mem_of_mem_filter member)
          pendingDistinct :=
            flushed.ok.pendingDistinct.sublist (filter_sublist.map _)
          timersPending := by
            intro entry armed
            have pending := flushed.ok.timersPending entry armed
            rw [mem_filter]
            refine ⟨pending, ?_⟩
            rw [decide_eq_true_eq]
            intro named
            rw [flushed.pending] at pending
            have own : entry ∈ s.pendingFor channelName :=
              mem_filter.mpr ⟨pending, decide_eq_true named⟩
            exact flushed.cleared rfl entry armed entry own rfl }

/-! ## Messages -/

theorem takesBack_id {id : Nat} (takesBack : message.takesBack id = true) : message.id = id := by
  cases message with
  | request r => exact absurd takesBack (by simp [RawRequest.takesBack])
  | promiseCancel other => simpa [RawRequest.takesBack, RawRequest.id] using takesBack
  | eventDispose other => simpa [RawRequest.takesBack, RawRequest.id] using takesBack

/-- A request whose id no handled message names. -/
theorem Ok.untouched_of_fresh (ok : s.Ok messages)
    (fresh : ∀ earlier ∈ messages, earlier.id ≠ request.id) :
    s.Untouched (messages ++ [.request request]) request where
  handled := by simp
  notInvoked other invoked := fresh _ (ok.invokedHandled other invoked)
  notAnswered response sent := by
    rw [← Bool.not_eq_true]
    intro answers
    obtain ⟨other, handled, same⟩ := ok.answeredHandled response sent _ answers
    exact fresh _ handled same
  notTakenBack message member := by
    rw [← Bool.not_eq_true]
    intro takesBack
    rw [mem_append, mem_singleton] at member
    obtain member | rfl := member
    · exact fresh message member (takesBack_id takesBack)
    · exact absurd takesBack (by simp [RawRequest.takesBack])

theorem Ok.onRawMessage (ok : s.Ok messages) (fresh : ∀ request, message = .request request →
      ∀ earlier ∈ messages, earlier.id ≠ request.id) (throws : Bool) :
    (s.onRawMessage message throws).Ok (messages ++ [message]) := by
  have dispose : ∀ id, (∀ other, message.takesBack other = true → other = id) →
      (s.disposeActiveRequest id).Ok (messages ++ [message]) := by
    intro id only
    obtain ⟨disposed, ended⟩ := ok.disposeActiveRequest id
    apply disposed.handle
    intro other takesBack
    rw [only other takesBack]
    exact ended
  cases message with
  | promiseCancel id =>
    apply dispose id
    intro other takesBack
    exact (takesBack_id takesBack).symm
  | eventDispose id =>
    apply dispose id
    intro other takesBack
    exact (takesBack_id takesBack).symm
  | request r =>
    have earlier := fresh r rfl
    have untouched := ok.untouched_of_fresh earlier
    have handled : s.Ok (messages ++ [.request r]) :=
      ok.handle fun id takesBack => absurd takesBack (by simp [RawRequest.takesBack])
    have notPending : ∀ entry ∈ s.pendingRequests, entry.request.id ≠ r.id :=
      fun entry pending => earlier _ (ok.pendingHandled entry pending)
    have noTimer : s.NoTimer r := fun entry armed =>
      notPending entry (ok.timersPending entry armed)
    have parked := handled.collectPendingRequest untouched noTimer notPending
    simp only [ChannelServer.onRawMessage]
    cases type : r.type with
    | promise =>
      by_cases channel : r.channelName ∈ s.channels
      · exact handled.onPromise untouched noTimer type channel
      · simpa [ChannelServer.onPromise, channel] using parked
    | eventListen =>
      by_cases channel : r.channelName ∈ s.channels
      · exact handled.onEventListen untouched type channel throws
      · simpa [ChannelServer.onEventListen, channel] using parked

/-! ## What is invoked -/

/-- A step invokes channel methods for some requests, and for no others. -/
def Invokes (s s' : ChannelServer Data) (allowed : Request Data → Prop) : Prop :=
  ∃ extra, s'.invoked = s.invoked ++ extra ∧ ∀ request ∈ extra, allowed request

theorem Invokes.of_eq (same : s'.invoked = s.invoked) : Invokes s s' allowed :=
  ⟨[], by simp [same], by simp⟩

theorem onPromise_invokes (s : ChannelServer Data) (request : Request Data) :
    Invokes s (s.onPromise request) (· = request) := by
  rw [ChannelServer.onPromise]
  split
  · exact ⟨[request], rfl, by simp⟩
  · exact .of_eq rfl

theorem onEventListen_invokes (s : ChannelServer Data) (request : Request Data)
    (throws : Bool) : Invokes s (s.onEventListen request throws).1 (· = request) := by
  rw [ChannelServer.onEventListen]
  split
  · cases throws <;> exact ⟨[request], rfl, by simp⟩
  · exact .of_eq rfl

theorem onRawMessage_invokes (s : ChannelServer Data) (message : RawRequest Data) (throws : Bool) :
    Invokes s (s.onRawMessage message throws) (message = .request ·) := by
  have dispose : ∀ id, (s.disposeActiveRequest id).invoked = s.invoked := by
    intro id
    rw [ChannelServer.disposeActiveRequest]
    cases s.activeRequests id with
    | none => rfl
    | some disposable => cases disposable <;> rfl
  cases message with
  | promiseCancel id => exact .of_eq (dispose id)
  | eventDispose id => exact .of_eq (dispose id)
  | request r =>
    simp only [ChannelServer.onRawMessage, RawRequest.request.injEq]
    cases r.type with
    | promise => simpa [eq_comm] using onPromise_invokes s r
    | eventListen => simpa [eq_comm] using onEventListen_invokes s r throws

theorem flushEntries_invokes (throws : Nat → Bool) (entries : List (PendingRequest Data)) :
    ∀ s : ChannelServer Data, Invokes s (flushEntries throws s entries).1
      (∃ entry ∈ entries, entry.request = ·) := by
  induction entries with
  | nil =>
    intro s
    exact .of_eq rfl
  | cons entry entries ih =>
    intro s
    have rest : ∀ s', Invokes (s.clearTimeout entry.timeoutTimer) s' (· = entry.request) →
        Invokes s (flushEntries throws s' entries).1
          (∃ other ∈ entry :: entries, other.request = ·) := by
      intro s' ⟨first, firstEq, firstOnly⟩
      obtain ⟨others, othersEq, othersOnly⟩ := ih s'
      refine ⟨first ++ others, ?_, ?_⟩
      · rw [othersEq, firstEq, append_assoc]
        rfl
      · intro request member
        rw [mem_append] at member
        obtain member | member := member
        · exact ⟨entry, mem_cons_self .., (firstOnly request member).symm⟩
        · obtain ⟨other, among, same⟩ := othersOnly request member
          exact ⟨other, mem_cons_of_mem _ among, same⟩
    have listened := onEventListen_invokes (s.clearTimeout entry.timeoutTimer)
      entry.request (throws entry.request.id)
    rw [flushEntries]
    cases entry.request.type with
    | promise => exact rest _ (onPromise_invokes _ _)
    | eventListen =>
      cases result : (s.clearTimeout entry.timeoutTimer).onEventListen entry.request
          (throws entry.request.id) with
      | mk s' threw =>
        rw [result] at listened
        cases threw with
        | false => exact rest s' listened
        | true =>
          obtain ⟨extra, extraEq, extraOnly⟩ := listened
          refine ⟨extra, extraEq, ?_⟩
          intro request member
          exact ⟨entry, mem_cons_self .., (extraOnly request member).symm⟩

theorem flushPendingRequests_invokes (s : ChannelServer Data) (channelName : String)
    (throws : Nat → Bool) :
    Invokes s (s.flushPendingRequests channelName throws)
      (∃ entry ∈ s.pendingFor channelName, entry.request = ·) := by
  have invokes := flushEntries_invokes throws (s.pendingFor channelName) s
  rw [ChannelServer.flushPendingRequests]
  cases result : flushEntries throws s (s.pendingFor channelName) with
  | mk s' threw =>
    rw [result] at invokes
    cases threw <;> exact invokes

end ChannelServer

/-! ## Both sides -/

namespace World

open ChannelServer

/-- The messages the server has handled. -/
def handledMessages (w : World Data) : List (RawRequest Data) := w.requests.take w.handled

/-- The server has handled a message that takes the request with an id back. -/
def TakenBack (w : World Data) (id : Nat) : Prop :=
  ∃ message ∈ w.handledMessages, message.takesBack id = true

/-- The id of a request is named by no message in front of it. -/
def Fresh (requests : List (RawRequest Data)) : Prop :=
  requests.Pairwise fun earlier later =>
    ∀ request, later = .request request → earlier.id ≠ request.id

structure Ok (w : World Data) : Prop where
  fresh : Fresh w.requests
  handled : w.handled ≤ w.requests.length
  server : w.server.Ok w.handledMessages

theorem Ok.new (timeoutDelay : Nat) : (World.new timeoutDelay : World Data).Ok where
  fresh := List.Pairwise.nil
  handled := Nat.le_refl 0
  server := ChannelServer.Ok.new timeoutDelay

variable {w w' : World Data}

theorem Fresh.append {requests messages : List (RawRequest Data)} (fresh : Fresh requests)
    (single : messages.length ≤ 1)
    (unnamed : ∀ request, .request request ∈ messages →
      ∀ earlier ∈ requests, earlier.id ≠ request.id) :
    Fresh (requests ++ messages) := by
  rw [Fresh, pairwise_append]
  refine ⟨fresh, ?_, ?_⟩
  · match messages, single with
    | [], _ => exact List.Pairwise.nil
    | [message], _ => exact pairwise_singleton _ _
  · intro earlier member later laterMember request isRequest
    subst isRequest
    exact unnamed request laterMember earlier member

/-- The messages in front of the one that is handled next. -/
theorem Ok.next (ok : w.Ok) (next : w.requests[w.handled]? = some message) :
    w.requests.take (w.handled + 1) = w.handledMessages ++ [message] ∧
      w.handled < w.requests.length ∧
      ∀ request, message = .request request →
        ∀ earlier ∈ w.handledMessages, earlier.id ≠ request.id := by
  have taken : w.requests.take (w.handled + 1) = w.handledMessages ++ [message] := by
    rw [handledMessages, List.take_add_one, next]
    rfl
  refine ⟨taken, (List.getElem?_eq_some_iff.mp next).1, ?_⟩
  have fresh : Fresh (w.handledMessages ++ [message]) := by
    rw [← taken]
    exact List.Pairwise.sublist (List.take_sublist _ _) ok.fresh
  intro request isRequest earlier member
  rw [Fresh, List.pairwise_append] at fresh
  exact fresh.2.2 earlier member message (List.mem_singleton_self _) request isRequest

theorem Ok.handle (ok : w.Ok) (next : w.requests[w.handled]? = some message) (throws : Bool) :
    Ok { w with
      server := w.server.onRawMessage message throws, handled := w.handled + 1 } := by
  obtain ⟨taken, bound, fresh⟩ := ok.next next
  refine ⟨ok.fresh, bound, ?_⟩
  rw [handledMessages, taken]
  exact ok.server.onRawMessage fresh throws

/-- A step of the server that handles no message. -/
theorem Ok.withServer (ok : w.Ok) {server : ChannelServer Data}
    (serverOk : server.Ok w.handledMessages) : Ok { w with server := server } :=
  ⟨ok.fresh, ok.handled, serverOk⟩

theorem TakenBack.of_append {extra : List (RawRequest Data)} {id : Nat} (takenBack : w.TakenBack id)
    (messages : w'.handledMessages = w.handledMessages ++ extra) : w'.TakenBack id := by
  obtain ⟨message, member, takesBack⟩ := takenBack
  refine ⟨message, ?_, takesBack⟩
  rw [messages]
  exact mem_append_left _ member

variable [DecidableEq Data]

/-- What keeps the requests of a run apart. Request ids are distinct, and a
request is not sent behind the message that takes it back. A flush finds no parked
request that was invoked, answered or taken back. -/
def Permitted (w : World Data) : Action Data → Prop
  | .client action =>
    ∀ client messages request, w.client.act action = some (client, messages) →
      .request request ∈ messages → ∀ earlier ∈ w.requests, earlier.id ≠ request.id
  | .flush channelName _ =>
    ∀ entry ∈ w.server.pendingFor channelName,
      (∀ request ∈ w.server.invoked, request.id ≠ entry.request.id) ∧
      (∀ response ∈ w.server.sent, response.answers entry.request.id = false) ∧
      ¬ w.TakenBack entry.request.id
  | _ => True

variable {messages : List (RawRequest Data)}

/-- A client sends at most one message at a time. -/
theorem act_messages {c c' : ChannelClient Data} (acted : c.act action = some (c', messages)) :
    messages.length ≤ 1 := by
  have waits : ∀ (c : ChannelClient Data) (request : Request Data),
      (c.whenIdle request).2.length ≤ 1 := by
    intro c request
    rw [ChannelClient.whenIdle]
    cases c.state <;> simp [ChannelClient.doRequest]
  have takes : ∀ (id : Nat) (message : RawRequest Data), (c.takeBack id message).2.length ≤ 1 := by
    intro id message
    rw [ChannelClient.takeBack]
    split <;> simp
  cases action with
  | requestPromise channelName name arg cancelled =>
    simp only [ChannelClient.act, ChannelClient.requestPromise, Option.some.injEq] at acted
    cases cancelled with
    | true =>
      cases acted
      simp
    | false =>
      simp only [Bool.false_eq_true, if_false] at acted
      have short := waits { c with
        lastRequestId := c.lastRequestId + 1
        promises := c.promises ++ [c.lastRequestId] }
        ⟨.promise, c.lastRequestId, channelName, name, arg⟩
      rw [acted] at short
      exact short
  | cancel id =>
    rw [ChannelClient.act, ite_none_right_eq_some] at acted
    have short := takes id (.promiseCancel id)
    rw [Option.some.inj acted.2] at short
    exact short
  | requestEvent channelName name arg =>
    cases acted
    simp
  | addFirstListener request =>
    rw [ChannelClient.act, ite_none_right_eq_some] at acted
    have short := waits c request
    rw [Option.some.inj acted.2] at short
    exact short
  | removeLastListener request =>
    rw [ChannelClient.act, ite_none_right_eq_some] at acted
    have short := takes request.id (.eventDispose request.id)
    rw [Option.some.inj acted.2] at short
    exact short
  | resolveWaiting request =>
    rw [ChannelClient.act, ite_none_right_eq_some] at acted
    cases acted.2
    simp
  | doWaiting request =>
    rw [ChannelClient.act, ite_none_right_eq_some] at acted
    cases acted.2
    simp

variable {action : Action Data}

theorem Ok.client (ok : w.Ok) (permitted : w.Permitted (.client clientAction))
    {client : ChannelClient Data} (acted : w.client.act clientAction = some (client, messages)) :
    Ok { w with client := client, requests := w.requests ++ messages } where
  fresh := ok.fresh.append (act_messages acted) fun request member =>
    permitted client messages request acted member
  handled := Nat.le_trans ok.handled (by simp)
  server := by
    rw [handledMessages, take_append_of_le_length ok.handled]
    exact ok.server

theorem Ok.flush (ok : w.Ok) (permitted : w.Permitted (.flush channelName throws))
    (scheduled : channelName ∈ w.server.flushes) :
    Ok { w with
      server := { w.server with
        flushes := w.server.flushes.erase channelName }.flushPendingRequests
          channelName throws } := by
  have descheduled : ChannelServer.Ok { w.server with
      flushes := w.server.flushes.erase channelName } w.handledMessages :=
    { ok.server with
      registered := fun other member =>
        ok.server.registered other (mem_of_mem_erase member) }
  refine ⟨ok.fresh, ok.handled, ?_⟩
  apply descheduled.flushPendingRequests (ok.server.registered channelName scheduled)
  intro entry pending
  obtain ⟨notInvoked, notAnswered, notTakenBack⟩ := permitted entry pending
  refine ⟨?_, notInvoked, notAnswered, ?_⟩
  · exact ok.server.pendingHandled entry (mem_of_mem_filter pending)
  · intro message member
    rw [← Bool.not_eq_true]
    intro takesBack
    exact notTakenBack ⟨message, member, takesBack⟩

/-- A step keeps the invariant, adds to the handled messages and invokes channel methods for
requests that were not taken back. -/
theorem Ok.step (ok : w.Ok) (permitted : w.Permitted action)
    (taken : w.step action = some w') : w'.Ok ∧
      (∃ extra, w'.handledMessages = w.handledMessages ++ extra) ∧
      Invokes w.server w'.server fun request => ¬ w.TakenBack request.id := by
  have still : w'.requests = w.requests → w'.handled = w.handled →
      ∃ extra, w'.handledMessages = w.handledMessages ++ extra := by
    intro requests handled
    exact ⟨[], by rw [handledMessages, handledMessages, requests, handled, append_nil]⟩
  cases action with
  | client clientAction =>
    rw [World.step, map_eq_some_iff] at taken
    obtain ⟨⟨client, messages⟩, acted, rfl⟩ := taken
    refine ⟨ok.client permitted acted, ⟨[], ?_⟩, .of_eq rfl⟩
    rw [handledMessages, take_append_of_le_length ok.handled, append_nil]
    rfl
  | receive =>
    simp only [World.step] at taken
    split at taken
    · exact absurd taken (by simp)
    · cases taken
      exact ⟨⟨ok.fresh, ok.handled, ok.server⟩, still rfl rfl, .of_eq rfl⟩
  | handle throws =>
    simp only [World.step] at taken
    split at taken
    · exact absurd taken (by simp)
    · next message next =>
        cases taken
        obtain ⟨front, -, fresh⟩ := ok.next next
        refine ⟨ok.handle next throws, ⟨[message], front⟩, ?_⟩
        obtain ⟨extra, invoked, only⟩ := onRawMessage_invokes w.server message throws
        refine ⟨extra, invoked, ?_⟩
        intro request member takenBack
        obtain ⟨earlier, earlierMember, takesBack⟩ := takenBack
        exact fresh request (only request member) earlier earlierMember (takesBack_id takesBack)
  | registerChannel channelName =>
    cases taken
    exact ⟨ok.withServer (ok.server.registerChannel channelName), still rfl rfl, .of_eq rfl⟩
  | flush channelName throws =>
    rw [World.step, ite_none_right_eq_some] at taken
    cases taken.2
    refine ⟨ok.flush permitted taken.1, still rfl rfl, ?_⟩
    obtain ⟨extra, invoked, only⟩ := flushPendingRequests_invokes
      { w.server with flushes := w.server.flushes.erase channelName } channelName throws
    refine ⟨extra, invoked, ?_⟩
    intro request member
    obtain ⟨entry, pending, same⟩ := only request member
    rw [← same]
    exact (permitted entry pending).2.2
  | timeout entry =>
    rw [World.step, ite_none_right_eq_some] at taken
    cases taken.2
    refine ⟨ok.withServer (ok.server.timeout taken.1), still rfl rfl, .of_eq ?_⟩
    simp only [ChannelServer.timeout]
    cases entry.request.type <;> rfl
  | settle id outcome =>
    rw [World.step, ite_none_right_eq_some] at taken
    cases taken.2
    exact ⟨ok.withServer (ok.server.settle taken.1 outcome), still rfl rfl, .of_eq rfl⟩
  | finish id =>
    rw [World.step, ite_none_right_eq_some] at taken
    cases taken.2
    exact ⟨ok.withServer (ok.server.finish taken.1), still rfl rfl, .of_eq rfl⟩
  | fire id data =>
    rw [World.step, ite_none_right_eq_some] at taken
    cases taken.2
    exact ⟨ok.withServer (ok.server.fire id data), still rfl rfl, .of_eq rfl⟩

/-- The requests with an id for which a channel method was invoked. -/
def invocations (w : World Data) (id : Nat) : List (Request Data) :=
  w.server.invoked.filter (·.id = id)

/-- A request that was taken back stays so, and is not invoked again. -/
theorem Ok.step_takenBack (ok : w.Ok) (permitted : w.Permitted action)
    (taken : w.step action = some w') {id : Nat} (takenBack : w.TakenBack id) :
    w'.TakenBack id ∧ w'.invocations id = w.invocations id := by
  obtain ⟨-, ⟨messages, handled⟩, extra, invoked, only⟩ := ok.step permitted taken
  refine ⟨takenBack.of_append handled, ?_⟩
  have none : extra.filter (·.id = id) = [] := by
    rw [filter_eq_nil_iff]
    intro request member
    simp only [decide_eq_true_eq]
    intro same
    exact only request member (same ▸ takenBack)
  rw [invocations, invoked, filter_append, none, append_nil, invocations]

/-- Along a run that keeps requests apart, a promise request is answered at most
once; and once a request was taken back, no later step leaves a subscription for it
or invokes a channel method for it. -/
theorem answered_once_and_taken_back_for_good {timeoutDelay : Nat}
    {before after : List (Action Data)}
    (allowed : PermittedRun World.step Permitted (World.new timeoutDelay)
      (before ++ after))
    (reached : run World.step (World.new timeoutDelay) before = some w)
    (continued : run World.step w after = some w') :
    (∀ id, w'.server.sent.countP (·.answers id) ≤ 1) ∧
      ∀ id, w.TakenBack id →
        id ∉ w'.server.subscriptions ∧ w'.invocations id = w.invocations id := by
  obtain ⟨allowedBefore, allowedAfter⟩ := allowed.append reached
  have ok : w.Ok := run_keeps (fun _ _ _ ok permitted taken => (ok.step permitted taken).1)
    (Ok.new timeoutDelay) allowedBefore reached
  have ok' : w'.Ok := run_keeps (fun _ _ _ ok permitted taken => (ok.step permitted taken).1)
    ok allowedAfter continued
  constructor
  · intro id
    have once := ok'.server.once id
    rw [answerCount] at once
    omega
  · intro id takenBack
    have keeps : ∀ (v : World Data) (action : Action Data) (v' : World Data),
        (v.Ok ∧ v.TakenBack id ∧ v.invocations id = w.invocations id) →
        v.Permitted action → v.step action = some v' →
        (v'.Ok ∧ v'.TakenBack id ∧ v'.invocations id = w.invocations id) := by
      intro v action v' ⟨vOk, vTakenBack, same⟩ permitted taken
      obtain ⟨still, unchanged⟩ := vOk.step_takenBack permitted taken vTakenBack
      exact ⟨(vOk.step permitted taken).1, still, unchanged.trans same⟩
    obtain ⟨-, ⟨message, member, takesBack⟩, same⟩ :=
      run_keeps keeps ⟨ok, takenBack, rfl⟩ allowedAfter continued
    exact ⟨ok'.server.disposed message member id takesBack, same⟩

/-- A call that is cancelled while it runs, and answers afterwards. -/
def cancelledCall : List (Action Unit) :=
  [.receive, .registerChannel "c", .flush "c" (fun _ => false),
    .client (.requestPromise "c" "m" () false), .handle false,
    .client (.cancel 0), .handle false]

theorem answered_once_and_taken_back_for_good_sample :
    ∃ w w' : World Unit,
      run World.step (World.new 1000) cancelledCall = some w ∧
        run World.step w [.settle 0 (.fulfilled ()), .finish 0] = some w' ∧
        w.TakenBack 0 ∧ (∀ id, w'.server.sent.countP (·.answers id) ≤ 1) ∧
        0 ∉ w'.server.subscriptions ∧ w'.invocations 0 = w.invocations 0 := by
  have allowed : PermittedRun World.step Permitted (World.new 1000)
      (cancelledCall ++ [.settle 0 (.fulfilled ()), .finish 0]) := by
    refine ⟨trivial, ?_⟩
    rintro _ ⟨⟩
    refine ⟨trivial, ?_⟩
    rintro _ ⟨⟩
    refine ⟨nofun, ?_⟩
    rintro _ ⟨⟩
    refine ⟨nofun, ?_⟩
    rintro _ ⟨⟩
    refine ⟨trivial, ?_⟩
    rintro _ ⟨⟩
    refine ⟨?_, ?_⟩
    · rintro _ _ request ⟨⟩ member
      exact absurd member (by simp)
    rintro _ ⟨⟩
    refine ⟨trivial, ?_⟩
    rintro _ ⟨⟩
    refine ⟨trivial, ?_⟩
    rintro _ ⟨⟩
    exact ⟨trivial, fun _ _ => trivial⟩
  have takenBack : ∀ w : World Unit,
      run World.step (World.new 1000) cancelledCall = some w → w.TakenBack 0 := by
    rintro _ ⟨⟩
    exact ⟨.promiseCancel 0, by decide, rfl⟩
  obtain ⟨once, forGood⟩ := answered_once_and_taken_back_for_good allowed rfl rfl
  exact ⟨_, _, rfl, rfl, takenBack _ rfl, once, forGood 0 (takenBack _ rfl)⟩

/-- A parked request that its timer answers is answered again after its channel is
registered; a parked subscription that is disposed is subscribed after its channel
is registered. -/
theorem parked_requests_are_not_forgotten :
    (∃ w : World Unit,
      run World.step (World.new 1000)
          [.receive, .client (.requestPromise "c" "m" () false), .handle false,
            .timeout ⟨⟨.promise, 0, "c", "m", ()⟩, 0⟩, .registerChannel "c",
            .flush "c" (fun _ => false), .settle 0 (.fulfilled ())] = some w ∧
        Fresh w.requests ∧ w.server.sent.countP (·.answers 0) = 2) ∧
    ∃ w w' : World Unit,
      run World.step (World.new 1000)
          [.receive, .client (.requestEvent "c" "e" ()),
            .client (.addFirstListener ⟨.eventListen, 0, "c", "e", ()⟩), .handle false,
            .client (.removeLastListener ⟨.eventListen, 0, "c", "e", ()⟩),
            .handle false] = some w ∧
        w.TakenBack 0 ∧
        run World.step w [.registerChannel "c", .flush "c" (fun _ => false)] = some w' ∧
        Fresh w'.requests ∧ 0 ∈ w'.server.subscriptions ∧
        w'.invocations 0 ≠ w.invocations 0 := by
  refine ⟨⟨_, rfl, ?_, by decide⟩, _, _, rfl, ?_, rfl, ?_, by decide, by decide⟩
  · exact pairwise_singleton _ _
  · exact ⟨.eventDispose 0, by decide, rfl⟩
  · change Fresh [.request ⟨.eventListen, 0, "c", "e", ()⟩, .eventDispose 0]
    simp [Fresh]

end World

end CodeEditor.Ipc
