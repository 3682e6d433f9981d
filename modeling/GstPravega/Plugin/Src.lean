import GstPravega.Gst.Buffer
import GstPravega.Plugin.Reader
import GstPravega.Video.Index

/-!
# pravegasrc

The calls `start`, `do_seek` and `create` of the element on streams that are left
alone. `start` fixes where in the data stream reading ends, `do_seek` where it
begins, and each `create` turns the event at the reader into a buffer. `Plays` is
the whole run: a start, the initial seek, and buffers until there are no more.
-/

namespace GstPravega.Plugin

open GstPravega.Lib GstPravega.Client GstPravega.Gst GstPravega.Video

namespace PravegaSrc

inductive StartMode where
  | noSeek
  | earliest
  | latest
  | timestamp
  | timestampExact
  deriving DecidableEq, Repr

/-- The name that the mode is set by. -/
def StartMode.nick : StartMode → String
  | .noSeek => "no-seek"
  | .earliest => "earliest"
  | .latest => "latest"
  | .timestamp => "timestamp"
  | .timestampExact => "timestamp-exact"

inductive EndMode where
  | unbounded
  | latest
  | latestIndexed
  | timestamp
  deriving DecidableEq, Repr

structure Settings where
  scope : Option String
  stream : Option String
  controller : Option String
  bufferSize : Nat
  startMode : StartMode
  endMode : EndMode
  startTimestamp : UInt64
  endTimestamp : UInt64
  allowCreateScope : Bool
  keycloakFile : Option String
  deriving DecidableEq, Repr

/-- `impl Default for Settings`, where the environment names no controller and no
Keycloak file. -/
def Settings.default : Settings where
  scope := none
  stream := none
  controller := some "tcp://127.0.0.1:9090"
  bufferSize := 128 * 1024
  startMode := .earliest
  endMode := .unbounded
  startTimestamp := 0
  endTimestamp := UInt64.ofNat (2 ^ 64 - 1)
  allowCreateScope := true
  keycloakFile := none

/-- What the client answers, and the two streams that are opened on it. -/
structure Client where
  createClientConfig : String → Option String → Except String Unit
  createScope : String → Except String Unit
  createStream : String → String → Except String Unit
  streams : Streams
  isSealed : Bool
  fetched : List Nat

/-- `State::Started`. The index searcher is the streams it searches. -/
structure Started where
  reader : CountingReader (BufReader (SeekableTake ByteReader))
  streams : Streams
  deriving DecidableEq

inductive State where
  | stopped
  | started (s : Started)
  deriving DecidableEq

def clocktimeToPravega (t : ClockTime) : PravegaTimestamp :=
  PravegaTimestamp.fromNanoseconds t

def pravegaToClocktime (t : PravegaTimestamp) : ClockTime := t.nanoseconds

/-! ## `start` -/

def settingsError {α : Type} (message : String) : Except Failure α :=
  .error (.error .resourceSettings message)

def require (value : Option String) (message : String) : Except Failure String :=
  match value with
  | some value => .ok value
  | none => settingsError message

/-- `map_err` and `?`, with the text put before the error's own. -/
def orSettings (text : String) : Except String Unit → Except Failure Unit
  | .ok () => .ok ()
  | .error e => settingsError (text ++ e)

/-- `unwrap`. -/
def unwrap {α : Type} : Except IoError α → Except Failure α
  | .ok a => .ok a
  | .error _ => .error .panicked

/-- A search of the index. -/
def search {α : Type} (w : Streams) (p : StreamM α) : Except Fault α :=
  (Program.run Streams.answer p.run w).1

/-- The `unwrap` of a search. -/
def unwrapSearch {α : Type} : Except Fault α → Except Failure α
  | .ok a => .ok a
  | .error .outOfFuel => .error .outOfFuel
  | .error _ => .error .panicked

/-- `end_offset`: the byte offset that is never read beyond. Asking for the tail
moves the reader. -/
def endOffset (checks : Bool) (settings : Settings) (w : Streams) (reader : ByteReader) :
    Except Failure (Nat × ByteReader) :=
  match settings.endMode with
  | .unbounded => .ok (2 ^ 64 - 1, reader)
  | .latest =>
      match Seek.seek (.end 0) reader with
      | (.ok offset, reader) => .ok (offset, reader)
      | (.error _, _) => .error .panicked
  | .latestIndexed => do
      let indexRecord ← unwrapSearch (search w (IndexSearcher.getLastRecord checks .index))
      pure (indexRecord.offset, reader)
  | .timestamp => do
      let endTimestamp := PravegaTimestamp.fromNanoseconds (some settings.endTimestamp)
      let indexRecord ← unwrapSearch
        (search w (IndexSearcher.searchTimestampAfter checks .index endTimestamp))
      pure (indexRecord.offset, reader)

/-- The reader stack over a byte reader. -/
def openReader (bufferSize endOffset : Nat) (reader : ByteReader) :
    Except Failure (CountingReader (BufReader (SeekableTake ByteReader))) := do
  let limitedReader ← unwrap (SeekableTake.new reader endOffset)
  unwrap (CountingReader.new (BufReader.withCapacity bufferSize limitedReader))

/-- `start`, from the settings to the started state. -/
def startStopped (checks : Bool) (settings : Settings) (client : Client) :
    Except Failure Started := do
  let scope ← require settings.scope "Scope is not defined"
  let stream ← require settings.stream "Stream is not defined"
  let controller ← require settings.controller "Controller is not defined"
  orSettings "Failed to create Pravega client config: "
    (client.createClientConfig controller settings.keycloakFile)
  -- Expected to fail where the scope exists; the answer is not looked at.
  let _ := if settings.allowCreateScope then client.createScope scope else .ok ()
  orSettings "Failed to create Pravega data stream: " (client.createStream scope stream)
  orSettings "Failed to create Pravega index stream: "
    (client.createStream scope (stream ++ "-index"))
  let reader := ByteReader.new client.streams.data client.isSealed client.fetched
  let (offset, reader) ← endOffset checks settings client.streams reader
  let reader ← openReader settings.bufferSize offset reader
  pure ⟨reader, client.streams⟩

def start (checks : Bool) (settings : Settings) (client : Client) :
    State → Except Failure Unit × State
  | .started st => (.error .panicked, .started st)
  | .stopped =>
      match startStopped checks settings client with
      | .ok st => (.ok (), .started st)
      | .error e => (.error e, .stopped)

/-! ## `do_seek` -/

/-- `initial_seek`: all times are 0. It panics on a time that is none. -/
def initialSeek (segment : Segment) : Option Bool := do
  let time ← segment.time
  if time ≠ 0 then pure false
  else
    let start ← segment.start
    if start ≠ 0 then pure false
    else
      let position ← segment.position
      pure (position == 0)

/-- Where the initial seek goes. -/
def initialSeekStartTimestamp (settings : Settings) : PravegaTimestamp :=
  match settings.startMode with
  | .noSeek => PravegaTimestamp.none
  | .earliest => PravegaTimestamp.min
  | .latest => PravegaTimestamp.max
  | .timestamp | .timestampExact =>
      PravegaTimestamp.fromNanoseconds (some settings.startTimestamp)

/-- `reader.seek(SeekFrom::Start(offset)).unwrap()`. -/
def seekTo (offset : Nat) (st : Started) : Except Failure Started :=
  match Seek.seek (.start offset) st.reader with
  | (.ok _, reader) => .ok { st with reader }
  | (.error _, _) => .error .panicked

/-- The initial seek of `start-mode=no-seek`: to the head of the data. -/
def seekToHead (st : Started) : Except Failure (Bool × Segment × Started) := do
  let headOffset ← unwrap st.reader.inner.inner.inner.inner.currentHead
  let st ← seekTo headOffset st
  pure (true, ⟨some 0, some 0, some 0⟩, st)

/-- To the record on or before a timestamp. -/
def seekUsingIndex (checks : Bool) (settings : Settings)
    (requestedSeekTimestamp : PravegaTimestamp) (segment : Segment) (st : Started) :
    Except Failure (Bool × Segment × Started) :=
  match search st.streams
      (IndexSearcher.searchTimestamp checks .index requestedSeekTimestamp) with
  | .ok indexRecord => do
      let segmentStartTimestamp :=
        if settings.startMode = .timestampExact then requestedSeekTimestamp
        else indexRecord.timestamp
      let start := (pravegaToClocktime segmentStartTimestamp).stored
      let st ← seekTo indexRecord.offset st
      pure (true, ⟨start, start, some 0⟩, st)
  | .error (.error _) => .ok (false, segment, st)
  | .error .panicked => .error .panicked
  | .error .outOfFuel => .error .outOfFuel

/-- `do_seek`: whether it succeeded, and the segment and the state it leaves. -/
def doSeek (checks : Bool) (settings : Settings) (segment : Segment) :
    State → Except Failure (Bool × Segment × Started)
  | .stopped => .error .panicked
  | .started st =>
      match initialSeek segment with
      | none => .error .panicked
      | some initial =>
          if initial = true ∧ settings.startMode = .noSeek then seekToHead st
          else
            let requestedSeekTimestamp :=
              if initial then initialSeekStartTimestamp settings
              else clocktimeToPravega segment.time
            seekUsingIndex checks settings requestedSeekTimestamp segment st

/-! ## `create` -/

/-- The buffer of an event that was read between two positions. -/
def bufferOf (event : EventWithHeader) (offset offsetEnd : Nat) : Buffer where
  storedPts := (pravegaToClocktime event.header.timestamp).store
  duration := none
  flags :=
    { BufferFlags.empty with
      deltaUnit := !event.header.randomAccess
      discont := event.header.discontinuity }
  payload := event.payload
  readable := true
  offset := some offset
  offsetEnd := some offsetEnd

/-- The end of the bytes is the end of the stream. -/
def flowError (text : String) : Fault → FlowError
  | .error e =>
      if e.kind = .unexpectedEof then .eos
      else .failed (.error .coreFailed (text ++ e.message))
  | .panicked => .failed .panicked
  | .outOfFuel => .failed .outOfFuel

/-- `create` on the started state. -/
def createStarted (st : Started) : Except FlowError Buffer × Started :=
  match streamPosition st.reader with
  | (.error _, reader) => (.error (.failed .panicked), { st with reader })
  | (.ok offset, reader) =>
      match EventReader.new.readRequiredBufferLength reader with
      | (.error e, _, reader) =>
          (.error (flowError "Failed to read event length from stream: " e),
            { st with reader })
      | (.ok requiredBufferLength, eventReader, reader) =>
          match eventReader.readEvent reader requiredBufferLength with
          | (.error e, reader) =>
              (.error (flowError "Failed to read event payload from stream: " e),
                { st with reader })
          | (.ok event, reader) =>
              match streamPosition reader with
              | (.error _, reader) => (.error (.failed .panicked), { st with reader })
              | (.ok offsetEnd, reader) =>
                  (.ok (bufferOf event offset offsetEnd), { st with reader })

def create : State → Except FlowError Buffer × State
  | .stopped => (.error (.failed .panicked), .stopped)
  | .started st =>
      match createStarted st with
      | (result, st) => (result, .started st)

/-! ## `query` -/

/-- `gst::Format`, as far as the query tells it apart. -/
inductive Format where
  | time
  | other
  deriving DecidableEq, Repr

/-- The seeking query: the times of the first and of the last index record. With none
the query is not answered. -/
def querySeeking (checks : Bool) (format : Format) :
    State → Except Failure (Option (ClockTime × ClockTime))
  | .stopped => .ok none
  | .started st =>
      match format with
      | .other => .ok none
      | .time =>
          match search st.streams (IndexSearcher.getFirstRecord checks .index) with
          | .error (.error _) => .ok none
          | .error .panicked => .error .panicked
          | .error .outOfFuel => .error .outOfFuel
          | .ok start =>
              match search st.streams (IndexSearcher.getLastRecord checks .index) with
              | .error (.error _) => .ok none
              | .error .panicked => .error .panicked
              | .error .outOfFuel => .error .outOfFuel
              | .ok «end» =>
                  .ok (some (pravegaToClocktime start.timestamp,
                    pravegaToClocktime «end».timestamp))

/-! ## A run -/

/-- `create` again and again, up to the call that gives no buffer. -/
inductive Emits : State → List Buffer → FlowError → Prop where
  | stop {s s' e} : create s = (.error e, s') → Emits s [] e
  | more {s s' b bs e} : create s = (.ok b, s') → Emits s' bs e → Emits s (b :: bs) e

/-- A start, the seek from the initial segment, and `create` until it stops. -/
def Plays (checks : Bool) (settings : Settings) (client : Client) (bs : List Buffer)
    (e : FlowError) : Prop :=
  ∃ s segment st, start checks settings client .stopped = (.ok (), s) ∧
    doSeek checks settings Segment.initial s = .ok (true, segment, st) ∧
    Emits (.started st) bs e

/-! ## A session

Between the calls others write and truncate. A call that waits is one that is made when
what it waits for is there. -/

/-- The streams as they are now. -/
def Started.sees (st : Started) (w : Streams) : Started where
  reader :=
    { st.reader with
      inner.inner.inner.inner.stream := w.data }
  streams := w

/-- Bytes are only appended, and none to a sealed stream. -/
structure Started.Later (st : Started) (w : Streams) : Prop where
  appended : st.streams.data.bytes <+: w.data.bytes
  closed : st.reader.inner.inner.inner.inner.isSealed = true →
    st.streams.data.bytes = w.data.bytes

/-- A call that has returned, and what it returned. -/
inductive Call where
  | seek (segment : Segment) (found : Bool) (segment' : Segment)
  | create (result : Except FlowError Buffer)
  | query (format : Format) (times : Option (ClockTime × ClockTime))

/-- Calls in any order, each on the streams of its time. -/
inductive Calls (checks : Bool) (settings : Settings) :
    Started → List (Streams × Call) → Started → Prop where
  | nil {st} : Calls checks settings st [] st
  | seek {st st₁ st₂ w segment found segment' calls} (hlater : st.Later w)
      (hseek : doSeek checks settings segment (.started (st.sees w)) =
        .ok (found, segment', st₁))
      (hrest : Calls checks settings st₁ calls st₂) :
      Calls checks settings st ((w, .seek segment found segment') :: calls) st₂
  | create {st st₁ st₂ w result calls} (hlater : st.Later w)
      (hcreate : createStarted (st.sees w) = (result, st₁))
      (hrest : Calls checks settings st₁ calls st₂) :
      Calls checks settings st ((w, .create result) :: calls) st₂
  | query {st st₁ w format times calls} (hlater : st.Later w)
      (hquery : querySeeking checks format (.started (st.sees w)) = .ok times)
      (hrest : Calls checks settings (st.sees w) calls st₁) :
      Calls checks settings st ((w, .query format times) :: calls) st₁

/-- The buffer that a call gave. -/
def Call.buffer : Call → Option Buffer
  | .create (.ok b) => some b
  | _ => none

end PravegaSrc

end GstPravega.Plugin
