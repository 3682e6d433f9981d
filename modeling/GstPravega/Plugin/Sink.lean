import GstPravega.Gst.Buffer
import GstPravega.Plugin.Retention
import GstPravega.Plugin.Writer

/-!
# pravegasink

The three calls of the element, `start`, `render` and `stop`, as programs over
the calls that leave the process. `render` and `stop` run on the started state;
whatever they have changed of it stays changed when they end with an error.

The parts of `render` that decide without doing anything (the timestamp, whether
the buffer is indexed, whether it is a discontinuity, the timestamp of the last
record) are functions of their own. The one that adds clock values takes the
build, see `Lib.Machine`.
-/

namespace GstPravega.Plugin

open GstPravega.Lib GstPravega.Client GstPravega.Gst GstPravega.Video

inductive TimestampMode where
  | realtimeClock
  | ntp
  | tai
  deriving DecidableEq, Repr

namespace PravegaSink

structure Settings (F : Type) where
  scope : Option String
  stream : Option String
  controller : Option String
  «seal» : Bool
  bufferSize : Nat
  timestampMode : TimestampMode
  indexMinNanos : UInt64
  indexMaxNanos : UInt64
  allowCreateScope : Bool
  keycloakFile : Option String
  retentionType : RetentionType
  retentionDays : Option F
  retentionBytes : Option Nat
  retentionMaintenanceIntervalSeconds : Nat

/-- `impl Default for Settings`, where the environment names no controller and no
Keycloak file. -/
def Settings.default {F : Type} : Settings F where
  scope := none
  stream := none
  controller := some "tcp://127.0.0.1:9090"
  «seal» := false
  bufferSize := 128 * 1024
  timestampMode := .tai
  indexMinNanos := 500000000
  indexMaxNanos := 10000000000
  allowCreateScope := true
  keycloakFile := none
  retentionType := .none
  retentionDays := none
  retentionBytes := none
  retentionMaintenanceIntervalSeconds := 15 * 60

/-- `set_property` of index-min-sec. `nanosOf` is the product with `1e9` cast to `u64`,
which saturates. -/
def Settings.setIndexMinSec {F G : Type} (nanosOf : G → UInt64) (indexMinSec : G)
    (settings : Settings F) : Settings F :=
  { settings with indexMinNanos := nanosOf indexMinSec }

/-- `set_property` of index-max-sec, likewise. -/
def Settings.setIndexMaxSec {F G : Type} (nanosOf : G → UInt64) (indexMaxSec : G)
    (settings : Settings F) : Settings F :=
  { settings with indexMaxNanos := nanosOf indexMaxSec }

/-- `State::Started`. -/
structure Started where
  writer : CountingWriter
  /-- First received PTS that is not none. -/
  firstValidTime : PravegaTimestamp
  /-- PTS of the last written index record. -/
  lastIndexTime : PravegaTimestamp
  /-- The timestamp that will be written to the index upon end-of-stream. -/
  finalTimestamp : PravegaTimestamp
  /-- The offset that will be written to the index upon end-of-stream. -/
  finalOffset : Option Nat
  buffersWritten : Nat
  retentionThreadHandle : Bool
  deriving DecidableEq, Repr

/-- With the first timestamp that is not none. -/
def Started.noteValidTime (st : Started) (timestamp : PravegaTimestamp) : Started :=
  { st with
    firstValidTime :=
      if st.firstValidTime.isNone then timestamp else st.firstValidTime }

inductive State where
  | stopped
  | started (s : Started)
  deriving DecidableEq, Repr

/-- Code that runs with the state locked. -/
abbrev SinkM := ExceptT Failure (StateT Started SinkProgram)

namespace SinkM

def onWriter (op : CountingWriter → SinkProgram (Except IoError Unit × CountingWriter)) :
    SinkM (Except IoError Unit) :=
  ExceptT.mk fun st =>
    op st.writer >>= fun (r, writer) => .ret (.ok r, { st with writer := writer })

/-- A call that leaves the process. -/
def command (c : SinkCmd) : SinkM c.Res :=
  ExceptT.mk fun st => .call c fun r => .ret (.ok r, st)

/-- `map_err` and `?`, with the text put before the error's own. -/
def orFail (domain : ErrorDomain) (text : String) : Except IoError Unit → SinkM Unit
  | .ok () => pure ()
  | .error e => throw (.error domain (text ++ e.message))

/-- `unwrap`. -/
def unwrap : Except IoError Unit → SinkM Unit
  | .ok () => pure ()
  | .error _ => throw .panicked

/-- A sum that may panic. -/
def checked {α : Type} : Option α → SinkM α
  | some a => pure a
  | none => throw .panicked

end SinkM

/-! ## The decisions of `render` -/

def timestampOf (checks : Bool) (mode : TimestampMode) (baseTime pts : ClockTime) :
    Option PravegaTimestamp :=
  match mode with
  | .realtimeClock => PravegaTimestamp.fromUnixNanoseconds checks (baseTime.add pts)
  | .ntp => PravegaTimestamp.fromNtpNanoseconds checks pts
  | .tai => some (PravegaTimestamp.fromNanoseconds pts)

/-- Key frames are indexed, but not too often; a delta unit is when no key frame
has been for a while; a buffer without a timestamp never is. -/
def includeInIndex (checks : Bool) (indexMinNanos indexMaxNanos : UInt64)
    (firstValidTime lastIndexTime timestamp : PravegaTimestamp) (isDeltaUnit : Bool) :
    Option Bool :=
  match timestamp.nanoseconds with
  | some timestamp =>
      match lastIndexTime.nanoseconds with
      | some lastIndexTime =>
          if isDeltaUnit then
            (u64Add checks lastIndexTime indexMaxNanos).map fun limit =>
              decide (timestamp > limit)
          else
            (u64Add checks lastIndexTime indexMinNanos).map fun limit =>
              !decide (timestamp < limit)
      | none =>
          if isDeltaUnit then
            match firstValidTime.nanoseconds with
            | some firstValidTime =>
                (u64Add checks firstValidTime indexMaxNanos).map fun limit =>
                  decide (timestamp > limit)
            | none => some false
          else some true
  | none => some false

/-- Upstream says so, or it is the first buffer, or the first index record. -/
def isDiscontinuity (flags : BufferFlags) (buffersWritten : Nat)
    (includeInIndex : Bool) (lastIndexTime : PravegaTimestamp) : Bool :=
  flags.discont || flags.resync || buffersWritten == 0 ||
    (includeInIndex && lastIndexTime.isNone)

/-- The timestamp of a final record behind this buffer: strictly greater than
the buffer's. -/
def finalTimestampOf (checks : Bool) (timestamp finalTimestamp : PravegaTimestamp)
    (duration : ClockTime) : Option PravegaTimestamp :=
  match timestamp.nanoseconds with
  | some t =>
      (u64Add checks t (max 1 (duration.getD 0))).map fun n =>
        PravegaTimestamp.fromNanoseconds (some n)
  | none => some finalTimestamp

/-! ## The calls -/

/-- `render` and `stop` report a failure in domains of their own. -/
def flushData (domain : ErrorDomain) : SinkM Unit := do
  SinkM.orFail domain "Failed to flush Pravega data stream: "
    (← SinkM.onWriter CountingWriter.flush)

def flushIndex (domain : ErrorDomain) : SinkM Unit := do
  SinkM.orFail domain "Failed to flush Pravega index stream: "
    (← SinkM.command (.flush .index))

/-- `IndexRecordWriter::write` on the index writer. -/
def writeIndexRecord (text : String) (record : IndexRecord) : SinkM Unit := do
  match IndexRecordWriter.write record with
  | .error e => throw (.error .resourceWrite (text ++ e.message))
  | .ok bytes => SinkM.unwrap (← SinkM.command (.append .index bytes))

/-- The loop that writes the payload. Only the first fragment is indexed and
carries the flags. -/
def writeFragments (timestamp : PravegaTimestamp)
    (includeInIndex randomAccess discontinuity : Bool) (payload : List UInt8) :
    Nat → Nat → SinkM Unit
  | 0, _ => throw .outOfFuel
  | fuel + 1, posToWrite =>
      let lengthToWrite :=
        min (payload.length - posToWrite) EventWithHeader.maxPayloadSize
      if lengthToWrite = 0 then pure ()
      else do
        let piece := (payload.drop posToWrite).take lengthToWrite
        let event :=
          if posToWrite = 0 then
            EventWithHeader.new piece timestamp includeInIndex randomAccess discontinuity
          else EventWithHeader.new piece timestamp false false false
        match EventWriter.write event with
        | .error e => throw (.error .resourceWrite ("Failed to write buffer: " ++ e.message))
        | .ok bytes =>
            SinkM.unwrap (← SinkM.onWriter fun writer => writer.writeAll bytes)
            writeFragments timestamp includeInIndex randomAccess discontinuity payload
              fuel (posToWrite + lengthToWrite)

/-- Both streams flushed: before an indexed buffer, so that readers sent to it do
not block, and after one that asks for it. -/
def flushStreams (wanted : Bool) : SinkM Unit :=
  if wanted then do
    flushData .coreFailed
    flushIndex .coreFailed
  else pure ()

/-- The record of an indexed buffer, written before the buffer itself. -/
def writeBufferRecord (timestamp : PravegaTimestamp) (writerOffset : Nat)
    (includeInIndex randomAccess discontinuity : Bool) : SinkM Unit :=
  if includeInIndex then do
    writeIndexRecord "Failed to write index: "
      (IndexRecord.new timestamp writerOffset randomAccess discontinuity)
    modify fun st => { st with lastIndexTime := timestamp }
  else pure ()

/-- The body of `render` once the index decision is made. -/
def renderIndexed (checks : Bool) (buffer : Buffer) (timestamp : PravegaTimestamp)
    (writerOffset : Nat) (includeInIndex : Bool) : SinkM Unit := do
  let randomAccess := !buffer.flags.deltaUnit
  flushStreams includeInIndex
  let st ← get
  let discontinuity :=
    isDiscontinuity buffer.flags st.buffersWritten includeInIndex st.lastIndexTime
  writeBufferRecord timestamp writerOffset includeInIndex randomAccess discontinuity
  writeFragments timestamp includeInIndex randomAccess discontinuity buffer.payload
    (buffer.payload.length + 1) 0
  modify fun st => { st with buffersWritten := st.buffersWritten + 1 }
  let writerOffsetEnd := (← get).writer.position
  flushStreams buffer.flags.syncAfter
  let finalTimestamp ← SinkM.checked
    (finalTimestampOf checks timestamp (← get).finalTimestamp buffer.duration)
  modify fun st => { st with finalTimestamp := finalTimestamp }
  modify fun st => { st with finalOffset := some writerOffsetEnd }

/-- `render` on the started state. -/
def renderStarted {F : Type} (checks : Bool) (settings : Settings F)
    (baseTime : ClockTime) (buffer : Buffer) : SinkM Unit := do
  if buffer.readable then
    let timestamp ← SinkM.checked
      (timestampOf checks settings.timestampMode baseTime buffer.pts)
    modify fun st => st.noteValidTime timestamp
    let st ← get
    let included ← SinkM.checked (includeInIndex checks settings.indexMinNanos
      settings.indexMaxNanos st.firstValidTime st.lastIndexTime timestamp
      buffer.flags.deltaUnit)
    renderIndexed checks buffer timestamp st.writer.position included
  else throw (.error .coreFailed "Failed to map buffer")

/-- The record behind the last buffer. -/
def writeFinalRecord : SinkM Unit := do
  let st ← get
  match st.finalOffset with
  | some finalOffset =>
      if st.finalTimestamp.isSome then
        writeIndexRecord "Failed to write Pravega index stream: "
          (IndexRecord.new st.finalTimestamp finalOffset false false)
      else pure ()
  | none => pure ()

def sealStream (s : Stream) (text : String) : SinkM Unit := do
  SinkM.orFail .resourceWrite text (← SinkM.command (.seal s))

def sealStreams (wanted : Bool) : SinkM Unit :=
  if wanted then do
    sealStream .data "Failed to seal Pravega data stream: "
    sealStream .index "Failed to seal Pravega index stream: "
  else pure ()

/-- The end of the retention thread, when there is one. -/
def joinRetention : SinkM Unit := do
  if (← get).retentionThreadHandle then
    let _ ← SinkM.command .joinRetention
    modify fun st => { st with retentionThreadHandle := false }

/-- `stop` on the started state. -/
def stopStarted {F : Type} (settings : Settings F) : SinkM Unit := do
  flushData .resourceWrite
  writeFinalRecord
  flushIndex .resourceWrite
  sealStreams settings.seal
  joinRetention

/-- Code of `start`. -/
abbrev StartM := ExceptT Failure SinkProgram

namespace StartM

def settingsError {α : Type} (message : String) : StartM α :=
  throw (.error .resourceSettings message)

def ensure (holds : Bool) (message : String) : StartM Unit :=
  if holds then pure () else settingsError message

def require (value : Option String) (message : String) : StartM String :=
  match value with
  | some value => pure value
  | none => settingsError message

def command {α : Type} (c : SinkCmd) (k : c.Res → StartM α) : StartM α :=
  ExceptT.mk (.call c fun r => (k r).run)

def createClientConfig (controller : String) (keycloakFile : Option String) :
    StartM Unit :=
  command (.createClientConfig controller keycloakFile) fun
    | .error e => settingsError ("Failed to create Pravega client config: " ++ e)
    | .ok () => pure ()

/-- Expected to fail where the scope exists; the answer is not looked at. -/
def createScope (wanted : Bool) (scope : String) : StartM Unit :=
  if wanted then command (.createScope scope) fun _ => pure () else pure ()

def createStream (kind scope stream : String) : StartM Unit :=
  command (.createStream scope stream) fun
    | .error e => settingsError ("Failed to create Pravega " ++ kind ++ " stream: " ++ e)
    | .ok () => pure ()

/-- `RetentionPolicy::new` and `RetentionMaintainer::run`: whether there is a
thread. -/
def runRetention {F : Type} (daysToSeconds : F → Int) (settings : Settings F) :
    StartM Bool :=
  match RetentionPolicy.new settings.retentionType settings.retentionDays
      settings.retentionBytes with
  | .error e => settingsError ("Failed to create retention policy: " ++ e)
  | .ok policy =>
      let limits := policy.limits daysToSeconds
      if limits.1.isSome || limits.2.isSome then
        command (.spawnRetention limits settings.retentionMaintenanceIntervalSeconds)
          fun _ => pure true
      else pure false

end StartM

/-- The started state with its writers at the tails of the streams. -/
def Started.new (bufferSize dataOffset : Nat) (retentionThreadHandle : Bool) : Started where
  writer := CountingWriter.new (BufWriter.withCapacity bufferSize) dataOffset
  firstValidTime := PravegaTimestamp.none
  lastIndexTime := PravegaTimestamp.none
  finalTimestamp := PravegaTimestamp.none
  finalOffset := none
  buffersWritten := 0
  retentionThreadHandle := retentionThreadHandle

/-- `start`, from the settings to the started state. -/
def startStopped {F : Type} (daysToSeconds : F → Int) (settings : Settings F) :
    StartM Started := do
  StartM.ensure (settings.indexMinNanos ≤ settings.indexMaxNanos)
    "index-min-sec must be <= index-max-sec"
  let scope ← StartM.require settings.scope "Scope is not defined"
  let stream ← StartM.require settings.stream "Stream is not defined"
  let controller ← StartM.require settings.controller "Controller is not defined"
  StartM.createClientConfig controller settings.keycloakFile
  StartM.createScope settings.allowCreateScope scope
  StartM.createStream "data" scope stream
  StartM.createStream "index" scope (stream ++ "-index")
  let dataOffset ← StartM.command (.seekToTail .data) pure
  let _ ← StartM.command (.seekToTail .index) pure
  let spawned ← StartM.runRetention daysToSeconds settings
  pure (Started.new settings.bufferSize dataOffset spawned)

/-- A call on the started state, for the element. -/
def onStarted (m : SinkM Unit) (after : Started → State) (st : Started) :
    SinkProgram (Except Failure Unit × State) :=
  m.run.run st >>= fun
    | (.ok (), st) => .ret (.ok (), after st)
    | (.error e, st) => .ret (.error e, .started st)

def start {F : Type} (daysToSeconds : F → Int) (settings : Settings F) :
    State → SinkProgram (Except Failure Unit × State)
  | .started st => .ret (.error .panicked, .started st)
  | .stopped =>
      (startStopped daysToSeconds settings).run >>= fun
        | .ok st => .ret (.ok (), .started st)
        | .error e => .ret (.error e, .stopped)

def render {F : Type} (checks : Bool) (settings : Settings F) (baseTime : ClockTime)
    (buffer : Buffer) : State → SinkProgram (Except Failure Unit × State)
  | .started st => onStarted (renderStarted checks settings baseTime buffer) .started st
  | .stopped => .ret (.error (.error .coreFailed "Not started yet"), .stopped)

def stop {F : Type} (settings : Settings F) :
    State → SinkProgram (Except Failure Unit × State)
  | .started st => onStarted (stopStarted settings) (fun _ => .stopped) st
  | .stopped => .ret (.error (.error .resourceSettings "PravegaSink not started"), .stopped)

end PravegaSink

end GstPravega.Plugin
