import GstPravega.Lib.Calls
import GstPravega.Plugin.FragMp4Pay
import GstPravega.Plugin.Src

/-!
# timestampcvt

The element converts the PTS and the DTS of the buffers that pass through it. It
remembers the last PTS it converted and the last PTS it gave to a buffer, so that the PTS
of the buffers it hands on do not decrease.

A call that panics leaves the lock of the state poisoned: the calls after it panic too.
-/

namespace GstPravega.Plugin

open GstPravega.Lib GstPravega.Gst GstPravega.Video

open FragMp4Pay (PayBuffer)

open PravegaSrc (pravegaToClocktime)

namespace TimestampCvt

inductive InputTimestampMode where
  | ntp
  | tai
  | startAtCurrentTime
  | startAtFixedTime
  deriving DecidableEq, Repr

structure Settings where
  inputTimestampMode : InputTimestampMode
  startTimestamp : UInt64
  deriving DecidableEq, Repr

def Settings.default : Settings := ⟨.ntp, 0⟩

structure StartedState where
  prevInputPts : ClockTime
  prevOutputPts : PravegaTimestamp
  ptsOffsetNanos : Option Int
  deriving DecidableEq, Repr

def StartedState.default : StartedState := ⟨none, PravegaTimestamp.none, none⟩

/-- A buffer, and what the clock of the system shows when it arrives. -/
structure Input where
  systemTime : Int
  buffer : PayBuffer
  deriving DecidableEq, Repr

/-- How a call ends. A call that pushes a buffer ends as the push does. -/
inductive Answer where
  | pushed (buffer : PayBuffer)
  /-- `Ok` without a push. -/
  | dropped
  /-- `FlowError::Error`, input buffers having no valid PTS for too long. -/
  | notConvertible
  /-- `FlowError::Error`, the output PTS being below the previous one. -/
  | internalError
  | panicked
  deriving DecidableEq, Repr

/-- If the input PTS decreases, the output PTS is the previous one plus this amount. -/
def ptsCorrectionDelta (checks : Bool) : Option TimeDelta := TimeDelta.mul checks 15 MSECOND

/-- The PTS moved by the offset, which the first buffer sets; the sums stay far below 128
bits. `start` is the time that the first buffer is to get. -/
def startAt (start : Option UInt64) (inputNanos : UInt64) (ptsOffsetNanos : Option Int) :
    Option (ClockTime × Option Int) :=
  let offset := ptsOffsetNanos.or (start.map fun t => (t.toNat : Int) - inputNanos.toNat)
  offset.map fun offset => (some (asU64 (inputNanos.toNat + offset)), some offset)

/-- The TAI timestamp of the input buffer, with the offset from then on. -/
def correctedInputPts (checks : Bool) (settings : Settings) (systemTime : Int)
    (inputNanos : UInt64) (ptsOffsetNanos : Option Int) :
    Option (ClockTime × Option Int) :=
  match settings.inputTimestampMode with
  | .tai => some (some inputNanos, ptsOffsetNanos)
  | .ntp =>
      (PravegaTimestamp.fromNtpNanoseconds checks (some inputNanos)).map fun t =>
        (pravegaToClocktime t, ptsOffsetNanos)
  | .startAtCurrentTime =>
      startAt ((PravegaTimestamp.now checks systemTime).bind fun t => t.nanoseconds)
        inputNanos ptsOffsetNanos
  | .startAtFixedTime => startAt (some settings.startTimestamp) inputNanos ptsOffsetNanos

def outputPts (checks : Bool) (state : StartedState) (correctedInputPts : ClockTime) :
    Option PravegaTimestamp :=
  if state.prevInputPts.isSome then
    -- PTS has not changed.
    if state.prevInputPts = correctedInputPts then some state.prevOutputPts
    else
      let outputPts := PravegaTimestamp.fromNanoseconds correctedInputPts
      -- PTS has increased normally.
      if state.prevOutputPts < outputPts then some outputPts
      else
        -- Output PTS has decreased.
        (ptsCorrectionDelta checks).bind fun delta => state.prevOutputPts.add checks delta
  else
    -- This is our first buffer with a PTS.
    some (PravegaTimestamp.fromNanoseconds correctedInputPts)

/-- The buffer that is pushed. Its DTS, if it has one, is moved by the offset, if there
is one. -/
def outputBuffer (buffer : PayBuffer) (outputPts : PravegaTimestamp)
    (ptsOffsetNanos : Option Int) : PayBuffer :=
  { buffer with
    storedPts := (pravegaToClocktime outputPts).store
    storedDts :=
      match buffer.dts, ptsOffsetNanos with
      | some dts, some offset => ClockTime.store (some (asU64 (dts.toNat + offset)))
      | _, _ => buffer.storedDts }

/-- `sink_chain`; `none` is a panic. -/
def sinkChain (checks : Bool) (settings : Settings) (input : Input) (state : StartedState) :
    Option (Answer × StartedState) :=
  match input.buffer.pts with
  | some inputNanos => do
      let (correctedInputPts, ptsOffsetNanos) ← correctedInputPts checks settings
        input.systemTime inputNanos state.ptsOffsetNanos
      let outputPts ← outputPts checks state correctedInputPts
      if outputPts.isSome then
        if state.prevOutputPts.isSome ∧ outputPts < state.prevOutputPts then
          some (.internalError, { state with ptsOffsetNanos := ptsOffsetNanos })
        else
          some (.pushed (outputBuffer input.buffer outputPts ptsOffsetNanos),
            ⟨correctedInputPts, outputPts, ptsOffsetNanos⟩)
      else if 15000000000 < inputNanos then
        some (.notConvertible, { state with ptsOffsetNanos := ptsOffsetNanos })
      else some (.dropped, { state with ptsOffsetNanos := ptsOffsetNanos })
  | none => some (.dropped, state)

/-- The state behind its lock; none is a poisoned lock. -/
abbrev Element := Option StartedState

def Element.new : Element := some StartedState.default

/-- The chain function of the element. -/
def chain (checks : Bool) (settings : Settings) (input : Input) :
    Element → Answer × Element
  | some state =>
      match sinkChain checks settings input state with
      | some (answer, state) => (answer, some state)
      | none => (.panicked, none)
  | none => (.panicked, none)

/-- The buffer that an answer hands on. -/
def Answer.buffer? : Answer → Option PayBuffer
  | .pushed buffer => some buffer
  | _ => none

/-- The buffers that a run of a new element pushes, each behind the input it is made of. -/
def pushes (checks : Bool) (settings : Settings) (inputs : List Input) :
    List (PayBuffer × PayBuffer) :=
  (Calls.answered (chain checks settings) inputs Element.new).filterMap fun x =>
    x.2.buffer?.map fun out => (x.1.buffer, out)

end TimestampCvt

end GstPravega.Plugin
