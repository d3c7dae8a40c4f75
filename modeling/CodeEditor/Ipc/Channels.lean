import Mathlib

/-!
# Channel clients and channel servers

`ChannelClient` and `ChannelServer` of `ipc.ts`, connected by two streams of
messages that arrive in order. What the event loop and the channels may do at any
time (run a timer, run a scheduled flush, settle the promise of a call, fire an
event) is an action of its own.
-/

namespace CodeEditor.Ipc

variable {Data : Type}

/-! ## Messages -/

inductive RequestType where
  | promise
  | eventListen
  deriving DecidableEq, Repr

/-- A request that names a channel. -/
structure Request (Data : Type) where
  type : RequestType
  id : Nat
  channelName : String
  name : String
  arg : Data
  deriving DecidableEq, Repr

inductive RawRequest (Data : Type) where
  | request (request : Request Data)
  | promiseCancel (id : Nat)
  | eventDispose (id : Nat)
  deriving DecidableEq, Repr

def RawRequest.id : RawRequest Data → Nat
  | .request r => r.id
  | .promiseCancel id => id
  | .eventDispose id => id

/-- Whether a message takes back the request with an id. -/
def RawRequest.takesBack (id : Nat) : RawRequest Data → Bool
  | .request _ => false
  | .promiseCancel id' => id' == id
  | .eventDispose id' => id' == id

structure ErrorData where
  message : String
  name : String
  stack : Option (List String)
  deriving DecidableEq, Repr

inductive RawResponse (Data : Type) where
  | initializeResponse
  | promiseSuccess (id : Nat) (data : Data)
  | promiseError (id : Nat) (data : ErrorData)
  | promiseErrorObj (id : Nat) (data : Data)
  | eventFire (id : Nat) (data : Data)
  deriving DecidableEq, Repr

/-- Whether a response answers the promise request with an id. -/
def RawResponse.answers (id : Nat) : RawResponse Data → Bool
  | .promiseSuccess id' _ => id' == id
  | .promiseError id' _ => id' == id
  | .promiseErrorObj id' _ => id' == id
  | .initializeResponse => false
  | .eventFire _ _ => false

/-! ## The server -/

/-- What the promise of a call settles to; an `Error` has a message, a name and
perhaps a stack. -/
inductive Outcome (Data : Type) where
  | fulfilled (data : Data)
  | rejectedError (message name : String) (stack : Option String)
  | rejectedObj (data : Data)
  deriving DecidableEq, Repr

def Outcome.response (id : Nat) : Outcome Data → RawResponse Data
  | .fulfilled data => .promiseSuccess id data
  | .rejectedError message name stack =>
    .promiseError id
      { message := message
        name := name
        stack := (stack.filter (· ≠ "")).map (·.splitOn "\n") }
  | .rejectedObj data => .promiseErrorObj id data

/-- The disposables of active requests: one cancels the token of a call, one ends
a subscription. -/
inductive ActiveRequest where
  | call
  | subscription
  deriving DecidableEq, Repr

structure PendingRequest (Data : Type) where
  request : Request Data
  timeoutTimer : Nat
  deriving DecidableEq, Repr

/-- `ChannelServer`, with what it has under way.

`pendingRequests` holds the entries of all channels; the list that the source keeps
under a channel's name is the part with that name. `timers` are the entries whose
timer is armed, `flushes` the channels whose flush is scheduled, `calls` the ids of
calls whose promise has not settled, `settled` those whose `finally` has not run.
`sent` and `invoked` are the responses sent and the channel methods invoked, from
the start. -/
structure ChannelServer (Data : Type) where
  timeoutDelay : Nat
  channels : List String
  activeRequests : Nat → Option ActiveRequest
  pendingRequests : List (PendingRequest Data)
  timers : List (PendingRequest Data)
  nextTimer : Nat
  flushes : List String
  calls : List Nat
  settled : List Nat
  subscriptions : List Nat
  cancelledTokens : List Nat
  sent : List (RawResponse Data)
  invoked : List (Request Data)

namespace ChannelServer

/-- The constructor. -/
def new (timeoutDelay : Nat) : ChannelServer Data where
  timeoutDelay := timeoutDelay
  channels := []
  activeRequests := fun _ => none
  pendingRequests := []
  timers := []
  nextTimer := 0
  flushes := []
  calls := []
  settled := []
  subscriptions := []
  cancelledTokens := []
  sent := [.initializeResponse]
  invoked := []

def registerChannel (s : ChannelServer Data) (channelName : String) : ChannelServer Data :=
  { s with
    channels := channelName :: s.channels
    flushes := s.flushes ++ [channelName] }

def sendResponse (s : ChannelServer Data) (response : RawResponse Data) :
    ChannelServer Data :=
  { s with sent := s.sent ++ [response] }

def collectPendingRequest (s : ChannelServer Data) (request : Request Data) :
    ChannelServer Data :=
  let entry : PendingRequest Data := ⟨request, s.nextTimer⟩
  { s with
    pendingRequests := s.pendingRequests ++ [entry]
    timers := s.timers ++ [entry]
    nextTimer := s.nextTimer + 1 }

/-- `onPromise(request)`. A call that throws is a call whose promise rejects. -/
def onPromise (s : ChannelServer Data) (request : Request Data) : ChannelServer Data :=
  if request.channelName ∈ s.channels then
    { s with
      invoked := s.invoked ++ [request]
      calls := s.calls ++ [request.id]
      activeRequests := Function.update s.activeRequests request.id (some .call) }
  else s.collectPendingRequest request

/-- `onEventListen(request)`, where `throws` says whether `listen` or subscribing
to its event throws; the flag of the result says whether this method did. -/
def onEventListen (s : ChannelServer Data) (request : Request Data) (throws : Bool) :
    ChannelServer Data × Bool :=
  if request.channelName ∈ s.channels then
    let s := { s with invoked := s.invoked ++ [request] }
    if throws then (s, true)
    else
      ({ s with
          subscriptions := s.subscriptions ++ [request.id]
          activeRequests :=
            Function.update s.activeRequests request.id (some .subscription) }, false)
  else (s.collectPendingRequest request, false)

/-- `dispose()` of the disposable of an active request. -/
def disposeOf (s : ChannelServer Data) (id : Nat) : ActiveRequest → ChannelServer Data
  | .call => { s with cancelledTokens := s.cancelledTokens ++ [id] }
  | .subscription => { s with subscriptions := s.subscriptions.erase id }

def deleteActive (s : ChannelServer Data) (id : Nat) : ChannelServer Data :=
  { s with activeRequests := Function.update s.activeRequests id none }

def disposeActiveRequest (s : ChannelServer Data) (id : Nat) : ChannelServer Data :=
  match s.activeRequests id with
  | none => s
  | some disposable => (s.disposeOf id disposable).deleteActive id

/-- `onRawMessage`, on the message that was deserialized. -/
def onRawMessage (s : ChannelServer Data) (message : RawRequest Data) (throws : Bool) :
    ChannelServer Data :=
  match message with
  | .request request =>
    match request.type with
    | .promise => s.onPromise request
    | .eventListen => (s.onEventListen request throws).1
  | .promiseCancel id => s.disposeActiveRequest id
  | .eventDispose id => s.disposeActiveRequest id

/-- The data of the answer a timer gives. -/
def timeoutError (s : ChannelServer Data) (channelName : String) : ErrorData where
  message := "Channel name '" ++ channelName ++ "' timed out after " ++
    toString s.timeoutDelay ++ "ms"
  name := "Unknown channel"
  stack := none

/-- The callback of the timer of a parked request. -/
def timeout (s : ChannelServer Data) (entry : PendingRequest Data) : ChannelServer Data :=
  let s := { s with timers := s.timers.filter (·.timeoutTimer ≠ entry.timeoutTimer) }
  match entry.request.type with
  | .promise =>
    s.sendResponse
      (.promiseError entry.request.id (s.timeoutError entry.request.channelName))
  | .eventListen => s

def clearTimeout (s : ChannelServer Data) (timer : Nat) : ChannelServer Data :=
  { s with timers := s.timers.filter (·.timeoutTimer ≠ timer) }

/-- The requests parked for a channel. -/
def pendingFor (s : ChannelServer Data) (channelName : String) :
    List (PendingRequest Data) :=
  s.pendingRequests.filter (·.request.channelName = channelName)

/-- The loop of `flushPendingRequests`; the flag says whether it threw. -/
def flushEntries (throws : Nat → Bool) :
    ChannelServer Data → List (PendingRequest Data) → ChannelServer Data × Bool
  | s, [] => (s, false)
  | s, entry :: entries =>
    let s := s.clearTimeout entry.timeoutTimer
    match entry.request.type with
    | .promise => flushEntries throws (s.onPromise entry.request) entries
    | .eventListen =>
      match s.onEventListen entry.request (throws entry.request.id) with
      | (s, true) => (s, true)
      | (s, false) => flushEntries throws s entries

/-- `flushPendingRequests(channelName)`. When `listen` throws, the list is not
deleted. -/
def flushPendingRequests (s : ChannelServer Data) (channelName : String)
    (throws : Nat → Bool) : ChannelServer Data :=
  match flushEntries throws s (s.pendingFor channelName) with
  | (s, true) => s
  | (s, false) =>
    { s with
      pendingRequests :=
        s.pendingRequests.filter (·.request.channelName ≠ channelName) }

/-- The promise of a call settles, and the response is sent. -/
def settle (s : ChannelServer Data) (id : Nat) (outcome : Outcome Data) :
    ChannelServer Data :=
  { s.sendResponse (outcome.response id) with
    calls := s.calls.erase id
    settled := s.settled ++ [id] }

/-- The `finally` of a call. -/
def finish (s : ChannelServer Data) (id : Nat) : ChannelServer Data :=
  ({ s with settled := s.settled.erase id }.disposeOf id .call).deleteActive id

end ChannelServer

/-! ## The client -/

inductive State where
  | uninitialized
  | idle
  deriving DecidableEq, Repr

/-- A callback that waits for the initialization; `resolved` once the promise it
hangs on is resolved and can no longer be cancelled. -/
structure WaitingRequest (Data : Type) where
  request : Request Data
  resolved : Bool
  deriving DecidableEq, Repr

/-- `ChannelClient`. `uninitializedPromises` are the ids whose variable
`uninitializedPromise` is set, `promises` the promise requests made and `events`
the requests of the emitters made. -/
structure ChannelClient (Data : Type) where
  state : State
  lastRequestId : Nat
  uninitializedPromises : List Nat
  waiting : List (WaitingRequest Data)
  handlers : List Nat
  promises : List Nat
  events : List (Request Data)

/-- What a client is asked to do, and what its event loop does. -/
inductive ClientAction (Data : Type) where
  | requestPromise (channelName name : String) (arg : Data) (cancelled : Bool)
  | cancel (id : Nat)
  | requestEvent (channelName name : String) (arg : Data)
  | addFirstListener (request : Request Data)
  | removeLastListener (request : Request Data)
  | resolveWaiting (request : Request Data)
  | doWaiting (request : Request Data)

namespace ChannelClient

/-- The constructor. -/
def new : ChannelClient Data where
  state := .uninitialized
  lastRequestId := 0
  uninitializedPromises := []
  waiting := []
  handlers := []
  promises := []
  events := []

/-- `doRequest`, with the message it sends. -/
def doRequest (c : ChannelClient Data) (request : Request Data) :
    ChannelClient Data × List (RawRequest Data) :=
  let handlers :=
    if request.type = .promise then c.handlers ++ [request.id] else c.handlers
  ({ c with handlers := handlers }, [.request request])

/-- Send a request at once when the client is idle, and after the initialization
otherwise. -/
def whenIdle (c : ChannelClient Data) (request : Request Data) :
    ChannelClient Data × List (RawRequest Data) :=
  match c.state with
  | .idle => c.doRequest request
  | .uninitialized =>
    ({ c with
        uninitializedPromises := request.id :: c.uninitializedPromises
        waiting := c.waiting ++ [⟨request, false⟩] }, [])

/-- `requestPromise(channelName, name, arg, cancellationToken)`. -/
def requestPromise (c : ChannelClient Data) (channelName name : String) (arg : Data)
    (cancelled : Bool) : ChannelClient Data × List (RawRequest Data) :=
  let id := c.lastRequestId
  let c := { c with lastRequestId := id + 1 }
  if cancelled then (c, [])
  else
    { c with promises := c.promises ++ [id] }.whenIdle
      ⟨.promise, id, channelName, name, arg⟩

/-- Take back the request with an id: stop waiting if its `uninitializedPromise`
is set, send a message otherwise. -/
def takeBack (c : ChannelClient Data) (id : Nat) (message : RawRequest Data) :
    ChannelClient Data × List (RawRequest Data) :=
  if id ∈ c.uninitializedPromises then
    ({ c with
        uninitializedPromises := c.uninitializedPromises.filter (· ≠ id)
        waiting := c.waiting.filter fun w => w.request.id ≠ id || w.resolved }, [])
  else (c, [message])

/-- `requestEvent(channelName, name, arg)`. -/
def requestEvent (c : ChannelClient Data) (channelName name : String) (arg : Data) :
    ChannelClient Data :=
  let id := c.lastRequestId
  { c with
    lastRequestId := id + 1
    handlers := c.handlers ++ [id]
    events := c.events ++ [⟨.eventListen, id, channelName, name, arg⟩] }

/-- The callback of a resolved `uninitializedPromise`. -/
def doWaiting [DecidableEq Data] (c : ChannelClient Data) (request : Request Data) :
    ChannelClient Data × List (RawRequest Data) :=
  { c with
    uninitializedPromises := c.uninitializedPromises.filter (· ≠ request.id)
    waiting := c.waiting.erase ⟨request, true⟩ }.doRequest request

/-- One action of the client, with the messages it sends; `none` when the action
cannot be taken. -/
def act [DecidableEq Data] (c : ChannelClient Data) :
    ClientAction Data → Option (ChannelClient Data × List (RawRequest Data))
  | .requestPromise channelName name arg cancelled =>
    some (c.requestPromise channelName name arg cancelled)
  | .cancel id =>
    if id ∈ c.promises then some (c.takeBack id (.promiseCancel id)) else none
  | .requestEvent channelName name arg => some (c.requestEvent channelName name arg, [])
  | .addFirstListener request =>
    if request ∈ c.events then some (c.whenIdle request) else none
  | .removeLastListener request =>
    if request ∈ c.events then
      some (c.takeBack request.id (.eventDispose request.id))
    else none
  | .resolveWaiting request =>
    if c.state = .idle ∧ ⟨request, false⟩ ∈ c.waiting then
      some ({ c with
        waiting := c.waiting.erase ⟨request, false⟩ ++ [⟨request, true⟩] }, [])
    else none
  | .doWaiting request =>
    if ⟨request, true⟩ ∈ c.waiting then some (c.doWaiting request) else none

/-- `onResponse(response)`. -/
def onResponse (c : ChannelClient Data) : RawResponse Data → ChannelClient Data
  | .initializeResponse => { c with state := .idle }
  | .promiseSuccess id _ | .promiseError id _ | .promiseErrorObj id _ =>
    if id ∈ c.promises then { c with handlers := c.handlers.filter (· ≠ id) } else c
  | .eventFire _ _ => c

end ChannelClient

/-! ## Both sides -/

/-- A client and a server. `requests` are the messages the client has sent, of
which the server has handled the first `handled`; the client has received the first
`received` responses of the server. -/
structure World (Data : Type) where
  client : ChannelClient Data
  server : ChannelServer Data
  requests : List (RawRequest Data)
  handled : Nat
  received : Nat

inductive Action (Data : Type) where
  | client (action : ClientAction Data)
  | receive
  | handle (throws : Bool)
  | registerChannel (channelName : String)
  | flush (channelName : String) (throws : Nat → Bool)
  | timeout (entry : PendingRequest Data)
  | settle (id : Nat) (outcome : Outcome Data)
  | finish (id : Nat)
  | fire (id : Nat) (data : Data)

namespace World

def new (timeoutDelay : Nat) : World Data where
  client := ChannelClient.new
  server := ChannelServer.new timeoutDelay
  requests := []
  handled := 0
  received := 0

def step [DecidableEq Data] (w : World Data) : Action Data → Option (World Data)
  | .client action =>
    (w.client.act action).map fun (client, messages) =>
      { w with client := client, requests := w.requests ++ messages }
  | .receive =>
    match w.server.sent[w.received]? with
    | none => none
    | some response =>
      some { w with
        client := w.client.onResponse response, received := w.received + 1 }
  | .handle throws =>
    match w.requests[w.handled]? with
    | none => none
    | some message =>
      some { w with
        server := w.server.onRawMessage message throws, handled := w.handled + 1 }
  | .registerChannel channelName =>
    some { w with server := w.server.registerChannel channelName }
  | .flush channelName throws =>
    if channelName ∈ w.server.flushes then
      some { w with
        server := { w.server with
          flushes := w.server.flushes.erase channelName }.flushPendingRequests
            channelName throws }
    else none
  | .timeout entry =>
    if entry ∈ w.server.timers then
      some { w with server := w.server.timeout entry }
    else none
  | .settle id outcome =>
    if id ∈ w.server.calls then
      some { w with server := w.server.settle id outcome }
    else none
  | .finish id =>
    if id ∈ w.server.settled then some { w with server := w.server.finish id }
    else none
  | .fire id data =>
    if id ∈ w.server.subscriptions then
      some { w with server := w.server.sendResponse (.eventFire id data) }
    else none

end World

end CodeEditor.Ipc
