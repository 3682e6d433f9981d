import GstPravega.Gst.Buffer
import GstPravega.Lib.Program
import GstPravega.Video.Timestamp

/-!
# pravegatc

The element passes buffers through and records in a table, now and then, where a
later run is to resume: behind the buffer that was pushed last. When it starts and
finds such a record it sets the pravegasrc elements of the pipeline to begin there.
The record counts how often that was tried; from the second time on the source is
sent further ahead.

The calls of the element are programs over the calls that leave it, the ones to the
table, to the element downstream and to the other elements of the pipeline.
-/

namespace GstPravega.Plugin

open GstPravega.Lib GstPravega.Gst GstPravega.Video

namespace PravegaTC

/-- What the table holds, under one key. -/
structure PersistentState where
  resumeAtPts : UInt64
  /-- Set to 0 when `resumeAtPts` is set. Incremented when resuming. -/
  resumeCount : Option UInt64
  deriving DecidableEq, Repr

/-- The calls that leave the element. `children` asks for the type names of the
elements of the pipeline, `setStart` sets `start-mode` and `start-timestamp` of one
of them. -/
inductive TcCmd where
  | createClientConfig (controller : String) (keycloakFile : Option String)
  | createTable (scope table : String)
  | get
  | insertConditionally (state : PersistentState) (version : Nat)
  | insert (state : PersistentState)
  | push (buffer : Buffer)
  | children
  | setStart (child : Nat) (startMode : String) (startTimestamp : UInt64)
  deriving DecidableEq, Repr

def TcCmd.Res : TcCmd → Type
  | .createClientConfig .. => Except String Unit
  | .createTable .. => Unit
  | .get => Except String (Option (PersistentState × Nat))
  | .insertConditionally .. => Except String Unit
  | .insert _ => Except String Unit
  | .push _ => Except FlowError Unit
  | .children => List String
  | .setStart .. => Unit

abbrev TcProgram := Program TcCmd TcCmd.Res

structure Settings where
  scope : Option String
  table : Option String
  controller : Option String
  keycloakFile : Option String
  faultInjectionPts : ClockTime
  recordPeriod : ClockTime
  deriving DecidableEq, Repr

/-- `impl Default for Settings`, where the environment names no controller and no
Keycloak file. -/
def Settings.default : Settings where
  scope := none
  table := none
  controller := some "tcp://127.0.0.1:9090"
  keycloakFile := none
  faultInjectionPts := none
  recordPeriod := some 1000000000

/-- `State::Started`. -/
structure Started where
  lastRecordedPts : ClockTime
  /-- The `resumeAtPts` that will be written upon end-of-stream. -/
  finalResumeAtPts : PravegaTimestamp
  deriving DecidableEq, Repr

inductive State where
  | stopped
  | started (st : Started)
  deriving DecidableEq, Repr

structure Element where
  settings : Settings
  state : State
  deriving DecidableEq, Repr

/-! ## `start` -/

/-- Code of `start`. -/
abbrev StartM := ExceptT Failure TcProgram

namespace StartM

def command {α : Type} (c : TcCmd) (k : c.Res → StartM α) : StartM α :=
  ExceptT.mk (.call c fun r => (k r).run)

def settingsError {α : Type} (message : String) : StartM α :=
  throw (.error .resourceSettings message)

def require (value : Option String) (message : String) : StartM String :=
  match value with
  | some value => pure value
  | none => settingsError message

/-- A sum that may panic. -/
def checked {α : Type} : Option α → StartM α
  | some a => pure a
  | none => throw .panicked

end StartM

/-- How far to skip, and with which `start-mode`: nothing the first time, then two
seconds and twice as much each time, until a year. -/
def resumeTimeDelta (checks : Bool) (resumeCount : UInt64) :
    Option (TimeDelta × String) :=
  let maxExactResumeCount : UInt64 := 1
  if resumeCount ≥ maxExactResumeCount + 1 then do
    let initialSkipTimeDelta ← TimeDelta.mul checks 2 SECOND
    let exponent := min 24 ((resumeCount - maxExactResumeCount - 1).toNat % 2 ^ 32)
    let delta ← TimeDelta.mul checks (2 ^ exponent) initialSkipTimeDelta
    pure (delta, "timestamp")
  else (TimeDelta.mul checks 0 SECOND).map fun delta => (delta, "timestamp-exact")

/-- The loop over the elements of the pipeline: whether one is a pravegasrc. -/
def setStarts (startMode : String) (startTimestamp : UInt64) :
    Nat → List String → StartM Bool
  | _, [] => pure false
  | child, typeName :: rest =>
      if typeName = "PravegaSrc" then
        StartM.command (.setStart child startMode startTimestamp) fun _ => do
          let _ ← setStarts startMode startTimestamp (child + 1) rest
          pure true
      else setStarts startMode startTimestamp (child + 1) rest

/-- `start` with a record found. -/
def resume (checks : Bool) (persistentState : PersistentState) (version : Nat) :
    StartM Unit := do
  let resumeCount ← StartM.checked (u64Add checks (persistentState.resumeCount.getD 0) 1)
  let persistentState := { persistentState with resumeCount := some resumeCount }
  StartM.command (.insertConditionally persistentState version) fun
    | .error e => throw (.error .coreFailed ("Failed to write to Pravega table: " ++ e))
    | .ok () => pure ()
  let originalResumeAtPts :=
    PravegaTimestamp.fromNanoseconds (some persistentState.resumeAtPts)
  let (delta, startMode) ← StartM.checked (resumeTimeDelta checks resumeCount)
  let resumeAtPts ← StartM.checked (originalResumeAtPts.add checks delta)
  let startTimestamp ← StartM.checked resumeAtPts.nanoseconds
  let elementsFound ← StartM.command .children (setStarts startMode startTimestamp 0)
  if elementsFound then pure ()
  else StartM.settingsError "PravegaSrc element not found in pipeline"

def startStopped (checks : Bool) (settings : Settings) : StartM Started := do
  let scope ← StartM.require settings.scope "Scope is not defined"
  let table ← StartM.require settings.table "Table is not defined"
  let controller ← StartM.require settings.controller "Controller is not defined"
  StartM.command (.createClientConfig controller settings.keycloakFile) fun
    | .error e =>
        StartM.settingsError ("Failed to create Pravega client config: " ++ e)
    | .ok () => pure ()
  StartM.command (.createTable scope table) fun _ => pure ()
  let found ← StartM.command .get fun
    | .error _ => throw .panicked
    | .ok found => pure found
  match found with
  | some (persistentState, version) => resume checks persistentState version
  | none => pure ()
  pure ⟨none, PravegaTimestamp.none⟩

/-- The settings with the fault that the environment asks for. -/
def Settings.withFault (settings : Settings) : Option UInt64 → Settings
  | some faultInjectionPts => { settings with faultInjectionPts := some faultInjectionPts }
  | none => settings

def start (checks : Bool) (env : Option UInt64) (self : Element) :
    TcProgram (Except Failure Unit × Element) :=
  match self.state with
  | .started _ => .ret (.error .panicked, self)
  | .stopped =>
      let settings := self.settings.withFault env
      (startStopped checks settings).run >>= fun
        | .ok st => .ret (.ok (), ⟨settings, .started st⟩)
        | .error e => .ret (.error e, ⟨settings, .stopped⟩)

/-! ## `sink_chain` -/

/-- Code that runs with the state locked. -/
abbrev ChainM := ExceptT ChainError (StateT Started TcProgram)

namespace ChainM

def command (c : TcCmd) : ChainM c.Res :=
  ExceptT.mk fun st => .call c fun r => .ret (.ok r, st)

def checked {α : Type} : Option α → ChainM α
  | some a => pure a
  | none => throw .panicked

end ChainM

/-- Where to resume behind a buffer. A duration of 0 counts as a nanosecond. -/
def resumeAtPtsOf (checks : Bool) (pts duration : ClockTime) : Option PravegaTimestamp := do
  let duration ← TimeDelta.mul checks (max 1 (duration.getD 0)).toNat NSECOND
  (PravegaTimestamp.fromNanoseconds pts).add checks duration

/-- `sink_chain` behind the push, for a buffer with a PTS. -/
def record (checks : Bool) (settings : Settings) (buffer : Buffer) : ChainM Unit := do
  let resumeAtPts ← ChainM.checked (resumeAtPtsOf checks buffer.pts buffer.duration)
  modify fun st => { st with finalResumeAtPts := resumeAtPts }
  let st ← get
  if st.lastRecordedPts.isNone ∨
      (st.lastRecordedPts.add settings.recordPeriod).le buffer.pts then do
    let nanoseconds ← ChainM.checked resumeAtPts.nanoseconds
    match ← ChainM.command (.insert ⟨nanoseconds, some 0⟩) with
    | .error e => throw (.reported .coreFailed ("Failed to write to Pravega table: " ++ e))
    | .ok () => modify fun st => { st with lastRecordedPts := buffer.pts }
  else pure ()

def chainStarted (checks : Bool) (settings : Settings) (buffer : Buffer) : ChainM Unit :=
  if settings.faultInjectionPts.isSome ∧ settings.faultInjectionPts.le buffer.pts then
    throw .failed
  else do
    match ← ChainM.command (.push buffer) with
    | .error e => throw (.downstream e)
    | .ok () =>
        if buffer.pts.isSome then record checks settings buffer
        else pure ()

def sinkChain (checks : Bool) (buffer : Buffer) (self : Element) :
    TcProgram (Except ChainError Unit × Element) :=
  match self.state with
  | .started st =>
      (chainStarted checks self.settings buffer).run.run st >>= fun (r, st) =>
        .ret (r, { self with state := .started st })
  | .stopped => .ret (.error .failed, self)

/-! ## `stop` -/

/-- `stop` on the started state. -/
def stopStarted (st : Started) : TcProgram (Except Failure Unit) :=
  match st.finalResumeAtPts.nanoseconds with
  | some nanoseconds =>
      .call (.insert ⟨nanoseconds, some 0⟩) fun (r : Except String Unit) =>
        match r with
        | .error e =>
            .ret (.error (.error .resourceWrite ("Failed to write to Pravega table: " ++ e)))
        | .ok () => .ret (.ok ())
  | none => .ret (.ok ())

def stop (self : Element) : TcProgram (Except Failure Unit × Element) :=
  match self.state with
  | .started st =>
      stopStarted st >>= fun
        | .ok () => .ret (.ok (), { self with state := .stopped })
        | .error e => .ret (.error e, self)
  | .stopped => .ret (.ok (), self)

/-! ## A run -/

/-- Buffers, until one fails. -/
def chain (checks : Bool) : List Buffer → Element →
    TcProgram (Except ChainError Unit × Element)
  | [], self => .ret (.ok (), self)
  | buffer :: rest, self =>
      sinkChain checks buffer self >>= fun
        | (.ok (), self) => chain checks rest self
        | (.error e, self) => .ret (.error e, self)

/-- The element from its start to its stop. What it returns is how the stop ended, or
the start where that failed. A panic in a chain function leaves a poisoned lock behind,
on which `stop` panics. -/
def session (checks : Bool) (env : Option UInt64) (buffers : List Buffer)
    (self : Element) : TcProgram (Except Failure Unit × Element) :=
  start checks env self >>= fun
    | (.ok (), self) => chain checks buffers self >>= fun
        | (.error .panicked, self) => .ret (.error .panicked, self)
        | (_, self) => stop self
    | (.error e, self) => .ret (.error e, self)

end PravegaTC

end GstPravega.Plugin
