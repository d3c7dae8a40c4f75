import Mathlib

/-!
# The writeable stream

Model of `WriteableStreamImpl` with a reducer that concatenates, without errors: a value is a list,
and the buffered values are reduced by flattening them. While a listener runs, the method that
calls it waits, and any call may come from inside the listener. Promises of `write` are left out.
-/

namespace CodeEditor.Streams

open List Bool

/-- Where a method waits for a listener: `write` and `end` for the data listener, `flowData` for
it in `resume`, and then `end`, `resume` and `on` for the end listener. -/
inductive Frame where
  | writeData
  | endData
  | flowData
  | endEnd
  | resumeEnd
  | onEnd
deriving DecidableEq, Repr

/-- The end listener is running. -/
def Frame.isEnd : Frame → Bool
  | .endEnd | .resumeEnd | .onEnd => true
  | _ => false

/-- The stream, with what the listeners are told. `written` has the values that `write` and `end`
were given, `finished` says that `end` was called, `delivered` has the values that the data
listener was given, and `ends` counts the calls of the end listener. -/
structure WriteableStream (α : Type*) where
  flowing : Bool
  ended : Bool
  destroyed : Bool
  data : List (List α)
  dataListener : Bool
  endListener : Bool
  frames : List Frame
  written : List α
  finished : Bool
  delivered : List α
  ends : Nat
deriving DecidableEq

variable {α : Type*}

namespace WriteableStream

def new : WriteableStream α := ⟨false, false, false, [], false, false, [], [], false, [], 0⟩

def destroy (stream : WriteableStream α) : WriteableStream α :=
  if stream.destroyed then stream
  else { stream with
    destroyed := true
    ended := true
    data := []
    dataListener := false
    endListener := false }

/-! ## The end -/

/-- What `end`, `resume` and `on` do after the end listener has returned, or has not been called. -/
def afterEnd (stream : WriteableStream α) : Frame → WriteableStream α
  | .endEnd => stream.destroy
  | .onEnd => if stream.endListener then stream.destroy else stream
  | _ => stream

def emitEnd (frame : Frame) (stream : WriteableStream α) : WriteableStream α :=
  if stream.endListener then
    { stream with ends := stream.ends + 1, frames := frame :: stream.frames }
  else stream.afterEnd frame

/-- `flowEnd` in `resume` or in `on`. -/
def flowEnd (frame : Frame) (stream : WriteableStream α) : WriteableStream α :=
  if stream.ended then stream.emitEnd frame else stream

/-- The rest of `end`, after it has written its result. -/
def finishEnd (stream : WriteableStream α) : WriteableStream α :=
  if stream.flowing then stream.emitEnd .endEnd else { stream with ended := true }

/-! ## Data -/

/-- What `write`, `end` and `resume` do after the data listener has returned, or has not been
called. -/
def afterData (stream : WriteableStream α) : Frame → WriteableStream α
  | .endData => stream.finishEnd
  | .flowData => { stream with data := [] }.flowEnd .resumeEnd
  | _ => stream

def emitData (frame : Frame) (data : List α) (stream : WriteableStream α) : WriteableStream α :=
  if stream.dataListener then
    { stream with delivered := stream.delivered ++ data, frames := frame :: stream.frames }
  else stream.afterData frame

/-- `write`, called from outside or by `end`. -/
def writeThen (frame : Frame) (data : List α) (stream : WriteableStream α) : WriteableStream α :=
  if stream.destroyed then stream.afterData frame
  else if stream.flowing then stream.emitData frame data
  else { stream with data := stream.data ++ [data] }.afterData frame

def write (data : List α) (stream : WriteableStream α) : WriteableStream α :=
  { stream with written := stream.written ++ data }.writeThen .writeData data

def end_ (result : Option (List α)) (stream : WriteableStream α) : WriteableStream α :=
  let stream := { stream with
    finished := true
    written := stream.written ++ result.getD [] }
  if stream.destroyed then stream
  else match result with
    | none => stream.finishEnd
    | some data => stream.writeThen .endData data

/-! ## Flowing -/

def pause (stream : WriteableStream α) : WriteableStream α :=
  if stream.destroyed then stream else { stream with flowing := false }

/-- `flowData` and then `flowEnd`; there are no errors between them. -/
def flow (stream : WriteableStream α) : WriteableStream α :=
  if stream.data = [] then stream.flowEnd .resumeEnd
  else stream.emitData .flowData stream.data.flatten

def resume (stream : WriteableStream α) : WriteableStream α :=
  if stream.destroyed || stream.flowing then stream else { stream with flowing := true }.flow

/-- `on('data')`. -/
def onData (stream : WriteableStream α) : WriteableStream α :=
  if stream.destroyed then stream else { stream with dataListener := true }.resume

/-- `on('end')`. -/
def onEnd (stream : WriteableStream α) : WriteableStream α :=
  if stream.destroyed then stream
  else
    let stream := { stream with endListener := true }
    if stream.flowing then stream.flowEnd .onEnd else stream

/-! ## Runs -/

/-- The listener that was called last returns. -/
def listenerReturns (stream : WriteableStream α) : WriteableStream α :=
  match stream.frames with
  | [] => stream
  | frame :: frames =>
    if frame.isEnd then { stream with frames := frames }.afterEnd frame
    else { stream with frames := frames }.afterData frame

end WriteableStream

/-- A call, from outside or from inside a listener, or the return of a listener. -/
inductive Event (α : Type*) where
  | write (data : List α)
  | end_ (result : Option (List α))
  | onData
  | onEnd
  | pause
  | resume
  | listenerReturns
deriving DecidableEq

namespace WriteableStream

def step (stream : WriteableStream α) : Event α → WriteableStream α
  | .write data => stream.write data
  | .end_ result => stream.end_ result
  | .onData => stream.onData
  | .onEnd => stream.onEnd
  | .pause => stream.pause
  | .resume => stream.resume
  | .listenerReturns => stream.listenerReturns

def run (stream : WriteableStream α) (events : List (Event α)) : WriteableStream α :=
  events.foldl step stream

/-- The producer writes and then ends once, and each listener is registered once. -/
def Admits (stream : WriteableStream α) : Event α → Prop
  | .write _ | .end_ _ => stream.finished = false
  | .onData => stream.dataListener = false
  | .onEnd => stream.endListener = false
  | _ => True

end WriteableStream

/-!
## Delivery in order

As long as no data is emitted without a listener, nothing is written or resumed while the buffer
is being emitted and the stream is paused, and the stream is not resumed after its end has been
emitted, all data is delivered in order, and the end once, after all data.
-/

namespace WriteableStream

/-- What the listeners have been told is in order. -/
structure InOrder (stream : WriteableStream α) : Prop where
  isPrefix : stream.delivered <+: stream.written
  endOnce : stream.ends ≤ 1
  endLast : stream.ends = 1 → stream.delivered = stream.written
  complete : stream.flowing = true → stream.frames = [] → stream.finished = true →
    stream.delivered = stream.written

/-- The condition on a call. Data that is emitted has a listener. While `flowData` waits for the
data listener, a paused stream is neither written to nor resumed. A stream whose end has been
emitted is not resumed. -/
def Keeps (stream : WriteableStream α) (event : Event α) : Prop :=
  stream.destroyed = true ∨
  match event with
  | .write _ | .end_ (some _) =>
    if stream.flowing then stream.dataListener = true else .flowData ∉ stream.frames
  | .resume => stream.flowing = true ∨ .flowData ∉ stream.frames ∧
      (stream.ended = true → stream.ends = 0) ∧
      (stream.data ≠ [] → stream.dataListener = true)
  | .onData => stream.flowing = true ∨ .flowData ∉ stream.frames ∧
      (stream.ended = true → stream.ends = 0)
  | _ => True

/-- What holds in every state. At most one `flowData` waits for the data listener; meanwhile the
buffer has been delivered already. When the end listener is running, it is called last. -/
structure Inv (stream : WriteableStream α) : Prop where
  pending : stream.destroyed = false → .flowData ∉ stream.frames →
    stream.written = stream.delivered ++ stream.data.flatten
  flushed : stream.destroyed = true ∨ .flowData ∈ stream.frames →
    stream.written = stream.delivered
  empty : stream.flowing = true → .flowData ∉ stream.frames → stream.data = []
  flowDataOnce : stream.frames.count .flowData ≤ 1
  endDataOnce : stream.frames.count .endData ≤ 1
  endOnTop : ∀ frame ∈ stream.frames.tail, frame.isEnd = false
  running : ∀ frame ∈ stream.frames, frame.isEnd = true → stream.ends = 1
  endOnce : stream.ends ≤ 1
  ended : stream.ended = true → stream.finished = true
  emitted : stream.ends = 1 → stream.finished = true ∧ stream.written = stream.delivered ∧
    (.flowData ∉ stream.frames → stream.data = [])
  repeated : stream.ends = 1 → stream.destroyed = false → stream.endListener = true ∧
    (stream.frames.head? = some .endEnd ∨ stream.frames.head? = some .onEnd ∨
      stream.ended = true ∧ .flowData ∉ stream.frames)
  ending : .endData ∈ stream.frames → stream.finished = true ∧ stream.ended = false ∧
    stream.ends = 0 ∧ stream.destroyed = false
  silent : stream.destroyed = true → stream.data = [] ∧ stream.dataListener = false ∧
    stream.endListener = false ∧ stream.finished = true

variable {stream : WriteableStream α}

theorem Inv.inOrder (inv : stream.Inv) : stream.InOrder where
  isPrefix := by
    by_cases flushed : stream.destroyed = true ∨ .flowData ∈ stream.frames
    · exact inv.flushed flushed ▸ prefix_refl _
    · obtain ⟨notDestroyed, notFlushing⟩ := not_or.mp flushed
      rw [inv.pending (eq_false_iff.mpr notDestroyed) notFlushing]
      exact prefix_append _ _
  endOnce := inv.endOnce
  endLast one := (inv.emitted one).2.1.symm
  complete flowing idle _ := by
    have notFlushing : .flowData ∉ stream.frames := by simp [idle]
    cases isDestroyed : stream.destroyed with
    | true => exact (inv.flushed (.inl isDestroyed)).symm
    | false =>
      rw [inv.pending isDestroyed notFlushing, inv.empty flowing notFlushing]
      simp

theorem inv_new : (new : WriteableStream α).Inv := by
  constructor <;> simp [new]

/-! ## The end -/

/-- The end may be emitted: it is the first time, and all data has been delivered. -/
structure EndReady (stream : WriteableStream α) : Prop where
  finished : stream.finished = true
  delivered : stream.written = stream.delivered
  empty : .flowData ∉ stream.frames → stream.data = []
  first : stream.destroyed = false → stream.ends = 0
  notEnding : .endData ∉ stream.frames

section

variable {stream : WriteableStream α} (inv : stream.Inv)

include inv

theorem Inv.destroy (ready : stream.EndReady) : stream.destroy.Inv := by
  unfold WriteableStream.destroy
  split
  · exact inv
  · obtain ⟨finished, delivered, empty, first, notEnding⟩ := ready
    obtain ⟨-, -, -, flowDataOnce, endDataOnce, endOnTop, running, endOnce, -, -, -, -, -⟩ := inv
    constructor <;> grind

/-- The end listener is called, or the stream is destroyed if nobody listens. -/
theorem Inv.emitEnd (ready : stream.EndReady) {frame : Frame} (isEnd : frame.isEnd = true)
    (again : frame = .resumeEnd → stream.ended = true ∧ .flowData ∉ stream.frames) :
    (stream.emitEnd frame).Inv := by
  unfold WriteableStream.emitEnd
  split
  next listens =>
      have alive : stream.destroyed = false := by
        cases isDestroyed : stream.destroyed with
        | false => rfl
        | true => exact absurd ((inv.silent isDestroyed).2.2.1.symm.trans listens) nofun
      have first := ready.first alive
      have noEnd : ∀ other ∈ stream.frames, other.isEnd = false := by
        intro other member
        by_contra isOther
        have one := inv.running other member (by simpa using isOther)
        omega
      obtain ⟨finished, delivered, empty, -, notEnding⟩ := ready
      obtain ⟨-, -, flowingEmpty, flowDataOnce, endDataOnce, -, -, -, ended, -, -, -, -⟩ := inv
      cases frame with
      | endEnd | onEnd | resumeEnd => constructor <;> grind [Frame.isEnd]
      | _ => exact absurd isEnd nofun
  next silent =>
      cases frame with
      | endEnd => exact inv.destroy ready
      | onEnd =>
        unfold afterEnd
        rw [if_neg silent]
        exact inv
      | resumeEnd => exact inv
      | _ => exact absurd isEnd nofun

theorem Inv.finishEnd (finished : stream.finished = true) (notEnding : .endData ∉ stream.frames)
    (first : stream.ends = 0) (alive : stream.destroyed = false) : stream.finishEnd.Inv := by
  unfold WriteableStream.finishEnd
  split
  next flowing =>
      refine inv.emitEnd ⟨finished, ?_, inv.empty flowing, fun _ => first, notEnding⟩ rfl
        fun isResume => nomatch isResume
      by_cases flushing : .flowData ∈ stream.frames
      · exact inv.flushed (.inr flushing)
      · rw [inv.pending alive flushing, inv.empty flowing flushing]
        simp
  next =>
      obtain ⟨pending, flushed, empty, flowDataOnce, endDataOnce, endOnTop, running, endOnce, ended,
        emitted, repeated, ending, silent⟩ := inv
      constructor <;> grind

/-- At the end of `resume` nothing is buffered, and the end has not been emitted before. -/
theorem Inv.flowEnd (notFlushing : .flowData ∉ stream.frames) (empty : stream.data = [])
    (first : stream.destroyed = false → stream.ended = true → stream.ends = 0) :
    (stream.flowEnd .resumeEnd).Inv := by
  unfold WriteableStream.flowEnd
  split
  next isEnded =>
      refine inv.emitEnd ⟨inv.ended isEnded, ?_, fun _ => empty, fun alive => first alive isEnded,
        ?_⟩ rfl fun _ => ⟨isEnded, notFlushing⟩
      · cases isDestroyed : stream.destroyed with
        | true => exact inv.flushed (.inl isDestroyed)
        | false =>
          rw [inv.pending isDestroyed notFlushing, empty]
          simp
      · intro ending
        rw [(inv.ending ending).2.1] at isEnded
        exact false_ne_true isEnded
  next => exact inv

/-! ## Data -/

/-- Before `end` the stream is alive, and no end has been emitted or is on its way. -/
theorem Inv.unfinished (admits : stream.finished = false) :
    stream.destroyed = false ∧ stream.ends = 0 ∧ .endData ∉ stream.frames := by
  have endOnce := inv.endOnce
  refine ⟨?_, ?_, fun ending => ?_⟩
  · cases isDestroyed : stream.destroyed with
    | false => rfl
    | true => exact absurd ((inv.silent isDestroyed).2.2.2.symm.trans admits) nofun
  · by_contra notNone
    have one : stream.ends = 1 := by omega
    exact absurd ((inv.emitted one).1.symm.trans admits) nofun
  · exact absurd ((inv.ending ending).1.symm.trans admits) nofun

/-- Nothing is written, or it is buffered, or it is delivered at once. -/
theorem Inv.write {data : List α} (admits : stream.finished = false)
    (keeps : stream.Keeps (.write data)) : (stream.write data).Inv := by
  obtain ⟨alive, none, notEnding⟩ := inv.unfinished admits
  have kept := keeps.resolve_left (by simp [alive])
  obtain ⟨pending, flushed, empty, flowDataOnce, endDataOnce, endOnTop, running, endOnce, ended,
    emitted, repeated, ending, silent⟩ := inv
  unfold WriteableStream.write writeThen
  rw [if_neg (by simp [alive])]
  split
  next flowing =>
      unfold emitData
      constructor <;> grind [Frame.isEnd]
  next paused =>
      show Inv { stream with written := _, data := _ }
      constructor <;> grind

theorem Inv.end_ (admits : stream.finished = false) (keeps : stream.Keeps (.end_ result)) :
    (stream.end_ result).Inv := by
  obtain ⟨alive, none, notEnding⟩ := inv.unfinished admits
  have kept := keeps.resolve_left (by simp [alive])
  obtain ⟨pending, flushed, empty, flowDataOnce, endDataOnce, endOnTop, running, endOnce, ended,
    emitted, repeated, ending, silent⟩ := inv
  unfold WriteableStream.end_
  rw [if_neg (by simp [alive])]
  cases result with
  | none =>
    have finished : Inv { stream with finished := true, written := stream.written ++ [] } := by
      constructor <;> grind
    exact finished.finishEnd rfl notEnding none alive
  | some data =>
    unfold writeThen
    dsimp only
    rw [if_neg (by simp [alive])]
    split
    next flowing =>
        unfold emitData
        constructor <;> grind [Frame.isEnd]
    next paused =>
        have buffered : Inv { stream with
            finished := true
            written := stream.written ++ data
            data := stream.data ++ [data] } := by
          constructor <;> grind
        exact buffered.finishEnd rfl notEnding none alive

/-! ## Flowing -/

theorem Inv.resume (keeps : stream.Keeps .resume) : stream.resume.Inv := by
  unfold WriteableStream.resume
  split
  next => exact inv
  next still =>
      obtain ⟨alive, paused⟩ : stream.destroyed = false ∧ stream.flowing = false := by
        simpa using still
      obtain ⟨notFlushing, first, listens⟩ :=
        (keeps.resolve_left (by simp [alive])).resolve_left (by simp [paused])
      unfold flow
      split
      next isEmpty =>
          have resumed : Inv { stream with flowing := true } := by
            obtain ⟨pending, flushed, -, flowDataOnce, endDataOnce, endOnTop, running, endOnce,
              ended, emitted, repeated, ending, silent⟩ := inv
            constructor <;> grind
          exact resumed.flowEnd notFlushing isEmpty fun _ => first
      next notEmpty =>
          unfold emitData
          obtain ⟨pending, flushed, -, flowDataOnce, endDataOnce, endOnTop, running, endOnce,
            ended, emitted, repeated, ending, silent⟩ := inv
          constructor <;> grind [Frame.isEnd]

theorem Inv.onData (keeps : stream.Keeps .onData) : stream.onData.Inv := by
  unfold WriteableStream.onData
  split
  next => exact inv
  next alive =>
      apply Inv.resume
      · obtain ⟨pending, flushed, empty, flowDataOnce, endDataOnce, endOnTop, running, endOnce,
          ended, emitted, repeated, ending, silent⟩ := inv
        constructor <;> grind
      · rcases keeps.resolve_left alive with flowing | ⟨notFlushing, first⟩
        · exact .inr (.inl flowing)
        · exact .inr (.inr ⟨notFlushing, first, fun _ => rfl⟩)

theorem Inv.onEnd (admits : stream.endListener = false) : stream.onEnd.Inv := by
  unfold WriteableStream.onEnd
  split
  next => exact inv
  next notDestroyed =>
      have alive : stream.destroyed = false := eq_false_iff.mpr notDestroyed
      have none : stream.ends = 0 := by
        by_contra notNone
        have atMost := inv.endOnce
        have one : stream.ends = 1 := by omega
        rw [(inv.repeated one alive).1] at admits
        exact absurd admits nofun
      have registered : Inv { stream with endListener := true } := by
        obtain ⟨pending, flushed, empty, flowDataOnce, endDataOnce, endOnTop, running, endOnce,
          ended, emitted, repeated, ending, silent⟩ := inv
        constructor <;> grind
      dsimp only
      split
      next flowing =>
          unfold WriteableStream.flowEnd
          split
          next isEnded =>
              refine registered.emitEnd ⟨inv.ended isEnded, ?_, inv.empty flowing, fun _ => none,
                ?_⟩ rfl fun isResume => nomatch isResume
              · by_cases flushing : .flowData ∈ stream.frames
                · exact inv.flushed (.inr flushing)
                · show stream.written = stream.delivered
                  rw [inv.pending alive flushing, inv.empty flowing flushing]
                  simp
              · intro ending
                have notEnded := (inv.ending ending).2.1
                exact false_ne_true (notEnded.symm.trans isEnded)
          next => exact registered
      next => exact registered

theorem Inv.pause : stream.pause.Inv := by
  unfold WriteableStream.pause
  split
  next => exact inv
  next =>
      obtain ⟨pending, flushed, empty, flowDataOnce, endDataOnce, endOnTop, running, endOnce, ended,
        emitted, repeated, ending, silent⟩ := inv
      constructor <;> grind

end

/-! ## The return of a listener -/

section Returns

variable {stream : WriteableStream α} {frame : Frame} {frames : List Frame}

/-- A listener below the one that returns is not an end listener. -/
theorem Inv.below (inv : stream.Inv) (top : stream.frames = frame :: frames) :
    (∀ other ∈ frames, other.isEnd = false) ∧ ∀ other ∈ frames.tail, other.isEnd = false := by
  have endOnTop := inv.endOnTop
  rw [top] at endOnTop
  exact ⟨endOnTop, fun other member => endOnTop other (mem_of_mem_tail member)⟩

/-- A data listener returns to `write` or to `end`, or an end listener to `resume`. -/
theorem Inv.pop (inv : stream.Inv) (top : stream.frames = frame :: frames)
    (returns : frame = .writeData ∨ frame = .endData ∨ frame = .resumeEnd) :
    Inv { stream with frames := frames } := by
  obtain ⟨below, farBelow⟩ := inv.below top
  obtain ⟨pending, flushed, empty, flowDataOnce, endDataOnce, -, running, endOnce, ended,
    emitted, repeated, ending, silent⟩ := inv
  rcases returns with rfl | rfl | rfl <;> constructor <;> grind [Frame.isEnd]

/-- The data listener returns to `flow`, and the buffer is emptied. -/
theorem Inv.popFlowData (inv : stream.Inv) (top : stream.frames = .flowData :: frames) :
    Inv { stream with frames := frames, data := [] } := by
  obtain ⟨below, farBelow⟩ := inv.below top
  obtain ⟨pending, flushed, empty, flowDataOnce, endDataOnce, -, running, endOnce, ended,
    emitted, repeated, ending, silent⟩ := inv
  constructor <;> grind [Frame.isEnd]

/-- The end listener returns when the stream is destroyed already. -/
theorem Inv.popDestroyed (inv : stream.Inv) (top : stream.frames = frame :: frames)
    (destroyed : stream.destroyed = true) :
    Inv { stream with frames := frames } := by
  obtain ⟨below, farBelow⟩ := inv.below top
  obtain ⟨pending, flushed, empty, flowDataOnce, endDataOnce, -, running, endOnce, ended,
    emitted, -, ending, silent⟩ := inv
  constructor <;> grind [Frame.isEnd]

/-- Behind the end listener the stream is destroyed. -/
theorem Inv.popEnd (inv : stream.Inv) (top : stream.frames = frame :: frames)
    (isEnd : frame.isEnd = true) :
    (WriteableStream.destroy { stream with frames := frames }).Inv := by
  unfold WriteableStream.destroy
  split
  next destroyed => exact inv.popDestroyed top destroyed
  next =>
      obtain ⟨below, farBelow⟩ := inv.below top
      obtain ⟨pending, flushed, empty, flowDataOnce, endDataOnce, -, running, endOnce, -,
        emitted, -, ending, -⟩ := inv
      constructor <;> grind [Frame.isEnd]

end Returns

theorem Inv.listenerReturns (inv : stream.Inv) : stream.listenerReturns.Inv := by
  unfold WriteableStream.listenerReturns
  cases top : stream.frames with
  | nil => exact inv
  | cons frame frames =>
    cases frame with
    | writeData => exact inv.pop top (.inl rfl)
    | endData =>
      obtain ⟨finished, -, none, alive⟩ := inv.ending (top ▸ mem_cons_self)
      have once := inv.endDataOnce
      have notEnding : .endData ∉ frames := by grind
      exact (inv.pop top (.inr (.inl rfl))).finishEnd finished notEnding none alive
    | flowData =>
      have once := inv.flowDataOnce
      have notFlushing : .flowData ∉ frames := by grind
      apply (inv.popFlowData top).flowEnd notFlushing rfl
      intro alive isEnded
      have repeated := inv.repeated
      have atMost := inv.endOnce
      grind
    | resumeEnd => exact inv.pop top (.inr (.inr rfl))
    | endEnd => exact inv.popEnd top rfl
    | onEnd =>
      show Inv (if stream.endListener then
        WriteableStream.destroy { stream with frames := frames }
        else { stream with frames := frames })
      split
      next => exact inv.popEnd top rfl
      next silent =>
          apply inv.popDestroyed top
          by_contra alive
          have one := inv.running .onEnd (top ▸ mem_cons_self) rfl
          exact silent (inv.repeated one (eq_false_iff.mpr alive)).1

theorem Inv.step (inv : stream.Inv) {event : Event α} (admits : stream.Admits event)
    (keeps : stream.Keeps event) : (stream.step event).Inv := by
  cases event with
  | write data => exact inv.write admits keeps
  | end_ result => exact inv.end_ admits keeps
  | onData => exact inv.onData keeps
  | onEnd => exact inv.onEnd admits
  | pause => exact inv.pause
  | resume => exact inv.resume keeps
  | listenerReturns => exact inv.listenerReturns

/-- Every event of a run is allowed in the state that it finds. -/
def Runs (allows : WriteableStream α → Event α → Prop) (stream : WriteableStream α) :
    List (Event α) → Prop
  | [] => True
  | event :: events => allows stream event ∧ (stream.step event).Runs allows events

theorem Inv.run (inv : stream.Inv) (calls : stream.Runs Admits events)
    (keeps : stream.Runs Keeps events) : (stream.run events).Inv := by
  induction events generalizing stream with
  | nil => exact inv
  | cons event events ih => exact ih (inv.step calls.1 keeps.1) calls.2 keeps.2

/-- In every run whose calls keep to the condition, the data arrives in order and the end once,
after all data. -/
theorem stream_in_order (events : List (Event α))
    (calls : (new : WriteableStream α).Runs Admits events)
    (keeps : (new : WriteableStream α).Runs Keeps events) :
    (new.run events).InOrder :=
  (inv_new.run calls keeps).inOrder

/-- A value is written before anybody listens, another one by the data listener, and the last one
by `end`. -/
def listenedTo : List (Event ℕ) :=
  [.write [1], .onEnd, .onData, .pause, .listenerReturns, .write [2], .resume, .listenerReturns,
    .write [3], .listenerReturns, .end_ (some [4]), .listenerReturns, .listenerReturns]

theorem stream_in_order_listenedTo :
    (new.run listenedTo).InOrder ∧ (new.run listenedTo).delivered = [1, 2, 3, 4] ∧
      (new.run listenedTo).ends = 1 := by
  refine ⟨stream_in_order listenedTo ?_ ?_, by decide, by decide⟩
  · simp [listenedTo, Runs, Admits]
    decide
  · simp [listenedTo, Runs, Keeps]
    decide

/-- The end is emitted when the data listener is registered, and again by `resume`. -/
def endedTwice : List (Event ℕ) :=
  [.write [1], .end_ none, .onEnd, .onData, .listenerReturns, .listenerReturns, .pause, .resume,
    .listenerReturns]

/-- The data listener pauses the stream and writes, and what it wrote is dropped. -/
def writtenWhileFlushed : List (Event ℕ) :=
  [.write [1], .onData, .pause, .write [2], .listenerReturns, .resume, .end_ none]

/-- The data listener pauses the stream and resumes it, and is given the buffer again. -/
def resumedWhileFlushed : List (Event ℕ) :=
  [.write [1], .onData, .pause, .resume, .listenerReturns, .listenerReturns]

/-- The stream flows before anybody listens. -/
def unheard : List (Event ℕ) := [.resume, .write [1], .onData, .write [2], .listenerReturns]

theorem stream_out_of_order :
    ((new.Runs Admits endedTwice ∧ (new.run endedTwice).ends = 2) ∧
      (new.Runs Admits writtenWhileFlushed ∧ (new.run writtenWhileFlushed).delivered = [1] ∧
        (new.run writtenWhileFlushed).written = [1, 2]) ∧
      (new.Runs Admits resumedWhileFlushed ∧ (new.run resumedWhileFlushed).delivered = [1, 1] ∧
        (new.run resumedWhileFlushed).written = [1]) ∧
      (new.Runs Admits unheard ∧ (new.run unheard).delivered = [2] ∧
        (new.run unheard).written = [1, 2])) ∧
    ¬ ∀ events : List (Event ℕ), new.Runs Admits events → (new.run events).InOrder := by
  have twice : new.Runs Admits endedTwice := by
    simp [endedTwice, Runs, Admits]
    decide
  refine ⟨⟨⟨twice, by decide⟩, ⟨?_, by decide⟩, ⟨?_, by decide⟩, ⟨?_, by decide⟩⟩, fun always => ?_⟩
  · simp [writtenWhileFlushed, Runs, Admits]
    decide
  · simp [resumedWhileFlushed, Runs, Admits]
    decide
  · simp [unheard, Runs, Admits]
    decide
  · exact absurd (always endedTwice twice).endOnce (by decide)

end WriteableStream

end CodeEditor.Streams
