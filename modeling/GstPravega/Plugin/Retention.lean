import GstPravega.Video.Index

/-!
# Truncation: the retention maintainer and truncate-stream

Both look for an index record and then truncate twice, the index at the
record's own place and the data at the offset it holds. The maintainer does it
over and over in a thread of its own, once by age and once by size, and goes on
when a search fails; a truncation that fails ends the thread.

The days of a policy are a floating point number. The model keeps the type of
it open, with the conversion to seconds as an argument.
-/

namespace GstPravega.Plugin

open GstPravega.Lib GstPravega.Client GstPravega.Video IndexSearcher

inductive RetentionType where
  | none
  | days
  | bytes
  | daysAndBytes
  deriving DecidableEq, Repr

inductive RetentionPolicy (F : Type) where
  | days (days : F)
  | bytes (bytes : Nat)
  | daysAndBytes (days : F) (bytes : Nat)
  | none

namespace RetentionPolicy

variable {F : Type}

def new (retentionType : RetentionType) (retentionDays : Option F)
    (retentionBytes : Option Nat) : Except String (RetentionPolicy F) :=
  match retentionType, retentionDays, retentionBytes with
  | .days, some d, _ => .ok (.days d)
  | .days, Option.none, _ => .error "retention-days is not set"
  | .bytes, _, some b => .ok (.bytes b)
  | .bytes, _, Option.none => .error "retention-bytes is not set"
  | .daysAndBytes, some d, some b => .ok (.daysAndBytes d b)
  | .daysAndBytes, Option.none, _ => .error "retention-days is not set"
  | .daysAndBytes, some _, Option.none => .error "retention-bytes is not set"
  | .none, _, _ => .ok .none

/-- The age in seconds and the size in bytes that a policy keeps. -/
def limits (daysToSeconds : F → Int) : RetentionPolicy F → Option Int × Option Nat
  | .days d => (some (daysToSeconds d), Option.none)
  | .bytes b => (Option.none, some b)
  | .daysAndBytes d b => (some (daysToSeconds d), some b)
  | .none => (Option.none, Option.none)

end RetentionPolicy

namespace RetentionMaintainer

/-- The index at the record's place first, then the data at its offset. -/
def truncateAt (result : IndexRecord × Nat) : StreamM Unit := do
  StreamM.unwrap (← StreamM.truncateDataBefore .index (asI64 result.2))
  StreamM.unwrap (← StreamM.truncateDataBefore .data (asI64 result.1.offset))

/-- `if let Ok(result) = search_result`. -/
def truncateIfFound (search : StreamM (IndexRecord × Nat)) : StreamM Unit := do
  match ← StreamM.attempt search with
  | .ok result => truncateAt result
  | .error _ => pure ()

/-- The first half of a pass: by age. -/
def passDays (checks : Bool) (now : PravegaTimestamp) : Option Int → StreamM Unit
  | some sec => do
      let period ← StreamM.checked (TimeDelta.mul checks sec SECOND)
      let truncateAtTimestamp ← StreamM.checked (now.sub checks period)
      truncateIfFound (searchTimestampAndReturnIndexOffset checks .index
        truncateAtTimestamp .before)
  | none => pure ()

/-- The second half: by size. -/
def passBytes (checks : Bool) : Option Nat → StreamM Unit
  | some bytes =>
      truncateIfFound (searchSizeAndReturnIndexOffset checks .index bytes .before)
  | none => pure ()

/-- The body of the loop of `run`. -/
def pass (checks : Bool) (now : PravegaTimestamp)
    (limits : Option Int × Option Nat) : StreamM Unit := do
  passDays checks now limits.1
  passBytes checks limits.2

/-- The thread `run` spawns, if it does: one pass for each time the clock is
read, until it is told to stop. -/
def run (checks : Bool) (limits : Option Int × Option Nat) :
    List PravegaTimestamp → StreamM Unit
  | [] => pure ()
  | now :: rest =>
      if limits.1.isNone ∧ limits.2.isNone then pure ()
      else do
        pass checks now limits
        run checks limits rest

end RetentionMaintainer

/-- `truncate_stream` of pravega-tools, from the search on. -/
def truncateStream (checks : Bool) (truncateAtTimestamp : PravegaTimestamp) :
    StreamM Unit := do
  let indexRecord ← StreamM.unwrap (← StreamM.attempt
    (searchTimestampAndReturnIndexOffset checks .index truncateAtTimestamp .before))
  RetentionMaintainer.truncateAt indexRecord

end GstPravega.Plugin
