import GstPravega.Client.ByteReader
import GstPravega.Video.Index

/-!
# The video server

`get_media_segment` answers with the payloads of the events in a byte range of the
data stream, `get_m3u8_playlist` with a playlist of such ranges, one for each pair
of neighbouring records of the index. Both on streams that are left alone.

The playlist is kept as its lines until the end, one for each string that the code
pushes. Durations are `f64` in the code; here they are of any type that has the
operations the code uses.
-/

namespace GstPravega.Server

open GstPravega.Lib GstPravega.Client GstPravega.Video

/-- What is used of `f64` beside its arithmetic. -/
class F64 (F : Type) where
  ofU64 : UInt64 → F
  round : F → F

instance : F64 Float := ⟨UInt64.toFloat, Float.round⟩

/-- Exact durations. `round` is half away from zero. -/
instance : F64 Rat where
  ofU64 n := n.toNat
  round x := if x < 0 then -(-x + 1 / 2).floor else (x + 1 / 2).floor

namespace Db

/-- `e.kind() == ErrorKind::UnexpectedEof && reader.limit() == 0`. -/
def reachedEnd {ρ : Type} (e : Fault) (reader : Take ρ) : Bool :=
  match e with
  | .error e => e.kind == .unexpectedEof && reader.limit == 0
  | _ => false

/-! ## `get_media_segment` -/

structure GetMediaSegmentOptions where
  /-- Begin byte offset -/
  «begin» : Nat
  /-- End byte offset (exclusive) -/
  «end» : Nat
  deriving DecidableEq, Repr

structure Response where
  contentType : String
  body : List UInt8
  deriving DecidableEq, Repr

/-- The loop: the payloads of the events up to the limit. -/
def mediaSegmentLoop {ρ : Type} [Read ρ] :
    Nat → Take ρ → Except Fault (List (List UInt8) × Take ρ)
  | 0, _ => .error .outOfFuel
  | fuel + 1, reader =>
      match EventReader.new.readRequiredBufferLength reader with
      | (.error e, _, reader) => if reachedEnd e reader then .ok ([], reader) else .error e
      | (.ok requiredBufferLength, eventReader, reader) =>
          match eventReader.readEvent reader requiredBufferLength with
          | (.error e, reader) =>
              if reachedEnd e reader then .ok ([], reader) else .error e
          | (.ok event, reader) =>
              match mediaSegmentLoop fuel reader with
              | .error e => .error e
              | .ok (chunks, reader) => .ok (event.payload :: chunks, reader)

/-- An error of the thread is a panic of the handler. -/
def getMediaSegment (reader : ByteReader) (opts : GetMediaSegmentOptions) :
    Except Fault Response :=
  if opts.begin ≤ opts.end then
    match Seek.seek (.start opts.begin) reader with
    | (.error _, _) => .error .panicked
    | (.ok _, reader) =>
        let limit := opts.end - opts.begin
        match mediaSegmentLoop (limit + 1) ⟨reader, limit⟩ with
        | .error .outOfFuel => .error .outOfFuel
        | .error _ => .error .panicked
        | .ok (chunks, reader) =>
            if reader.limit = 0 then .ok ⟨"video/mp4", chunks.flatten⟩
            else .error .panicked
  else .error .panicked

/-! ## `get_m3u8_playlist` -/

/-- The times are those of `timestamp_nanos`. -/
structure GetM3u8PlaylistOptions where
  «begin» : Option Int
  «end» : Option Int
  deriving DecidableEq, Repr

/-- What the code pushes to the body of the playlist. -/
inductive Line (F : Type) where
  | discontinuity
  | extinf (durationSeconds : F)
  | gapExtinf (gapContentDurationSeconds : Nat)
  | programDateTime (time : String)
  | media (beginOffset endOffset : Nat)
  | gap (gapContentDurationSeconds : Nat)
  deriving DecidableEq, Repr

def Line.text {F : Type} [ToString F] : Line F → String
  | .discontinuity => "#EXT-X-DISCONTINUITY\n"
  | .extinf durationSeconds => s!"#EXTINF:{durationSeconds},\n"
  | .gapExtinf durationSeconds => s!"#EXTINF:{durationSeconds},\n"
  | .programDateTime time => s!"#EXT-X-PROGRAM-DATE-TIME:{time}\n"
  | .media beginOffset endOffset => s!"media?begin={beginOffset}&end={endOffset}\n"
  | .gap durationSeconds => s!"/static/gap-{durationSeconds}s.mp4\n"

/-- The lines that head an entry. -/
def Line.isExtinf {F : Type} : Line F → Bool
  | .extinf _ => true
  | .gapExtinf _ => true
  | _ => false

structure Playlist (F : Type) where
  initialMediaSequenceNumber : Nat
  targetDurationSeconds : F
  body : List (Line F)
  haveAllData : Bool
  deriving DecidableEq, Repr

def Playlist.text {F : Type} [ToString F] (playlist : Playlist F) : String :=
  let sequence := playlist.initialMediaSequenceNumber
  let duration := playlist.targetDurationSeconds
  "#EXTM3U\n#EXT-X-VERSION:3\n#EXT-X-ALLOW-CACHE:NO\n" ++
    s!"#EXT-X-MEDIA-SEQUENCE:{sequence}\n" ++
    s!"#EXT-X-TARGETDURATION:{duration}\n" ++
    String.join (playlist.body.map Line.text) ++
    (if playlist.haveAllData then "#EXT-X-ENDLIST\n" else "")

/-- The variables of the loop. -/
structure PlaylistBody (F : Type) where
  targetDurationSeconds : F
  playlistBody : List (Line F)
  prevIndexRecord : Option IndexRecord
  nextSegmentDiscont : Bool
  deriving DecidableEq, Repr

variable {F : Type} [Add F] [Sub F] [Mul F] [LT F] [DecidableLT F] [OfScientific F] [F64 F]

def PlaylistBody.initial : PlaylistBody F := ⟨10.0, [], none, false⟩

/-- Short replacement content of a fixed length. -/
def PlaylistBody.pushGap (self : PlaylistBody F) : PlaylistBody F :=
  { self with
    playlistBody := self.playlistBody ++ [.discontinuity, .gapExtinf 5, .gap 5]
    nextSegmentDiscont := true }

/-- The segment from the previous record to this one. -/
def PlaylistBody.pushMedia (self : PlaylistBody F) (durationSeconds : F) (time : String)
    (prevIndexRecord indexRecord : IndexRecord) : PlaylistBody F :=
  { self with
    targetDurationSeconds :=
      0.1 * durationSeconds + (1.0 - 0.1) * self.targetDurationSeconds
    playlistBody := self.playlistBody ++
      (if self.nextSegmentDiscont then [.discontinuity] else []) ++
      [.extinf durationSeconds, .programDateTime time,
        .media prevIndexRecord.offset indexRecord.offset]
    nextSegmentDiscont := false }

/-- A record behind another. A record whose timestamp is missing, smaller, or too
far behind the other's is behind a gap. -/
def PlaylistBody.pushSegment (format : UInt64 → String) (self : PlaylistBody F)
    (prevIndexRecord indexRecord : IndexRecord) : Option (PlaylistBody F) :=
  match indexRecord.timestamp.nanoseconds with
  | some timestampNanos =>
      match prevIndexRecord.timestamp.nanoseconds with
      | some prevTimestampNanos =>
          if timestampNanos < prevTimestampNanos then some self.pushGap
          else
            let durationSeconds : F :=
              F64.ofU64 (timestampNanos - prevTimestampNanos) * 1e-9
            if durationSeconds > self.targetDurationSeconds + 1.0 then some self.pushGap
            else
              (prevIndexRecord.timestamp.toIso8601 format).map fun time =>
                self.pushMedia durationSeconds time prevIndexRecord indexRecord
      | none => none
  | none => some self.pushGap

/-- One round of the loop, with a record read. It panics on `none`. -/
def PlaylistBody.push (format : UInt64 → String) (self : PlaylistBody F)
    (indexRecord : IndexRecord) : Option (PlaylistBody F) :=
  let pushed :=
    match self.prevIndexRecord with
    | some prevIndexRecord => self.pushSegment format prevIndexRecord indexRecord
    | none => some self
  pushed.map fun body => { body with prevIndexRecord := some indexRecord }

def playlistLoop {ρ : Type} [Read ρ] (format : UInt64 → String) :
    Nat → Take ρ → PlaylistBody F → Except Fault (PlaylistBody F)
  | 0, _, _ => .error .outOfFuel
  | fuel + 1, indexReader, body =>
      match IndexRecordReader.read indexReader with
      | (.error e, indexReader) =>
          if reachedEnd e indexReader then .ok body else .error e
      | (.ok indexRecord, indexReader) =>
          match body.push format indexRecord with
          | some body => playlistLoop format fuel indexReader body
          | none => .error .panicked

/-- `begin_timestamp` and `end_timestamp`. -/
def timestamps (checks : Bool) (opts : GetM3u8PlaylistOptions) :
    Option (PravegaTimestamp × PravegaTimestamp) := do
  let beginTimestamp ← PravegaTimestamp.fromDateTime checks opts.begin
  let endTimestamp ← PravegaTimestamp.fromDateTime checks opts.end
  pure (beginTimestamp.or PravegaTimestamp.min, endTimestamp.or PravegaTimestamp.max)

/-- The search for a time, with the offset of the record in the index. -/
def searchAfter (checks : Bool) (w : Streams) (timestamp : PravegaTimestamp) :
    Except Fault (IndexRecord × Nat) :=
  (Program.run Streams.answer (IndexSearcher.searchTimestampAndReturnIndexOffset checks
    .index timestamp .after).run w).1

/-- `unwrap` of a value that may have panicked. -/
def checked {α : Type} : Option α → Except Fault α
  | some a => .ok a
  | none => .error .panicked

/-- The playlist from one time to another, of an index reader over `w.index`. -/
def playlist (checks : Bool) (format : UInt64 → String) (w : Streams)
    (indexReader : ByteReader) (beginTimestamp endTimestamp : PravegaTimestamp) :
    Except Fault (Playlist F) := do
  let beginIndexRecord ← searchAfter checks w beginTimestamp
  let endIndexRecord ← searchAfter checks w endTimestamp
  let haveAllData := decide (endTimestamp ≤ endIndexRecord.1.timestamp)
  let indexBeginOffset := beginIndexRecord.2
  let indexEndOffset ← checked (addU64 checks endIndexRecord.2 IndexRecord.recordSize)
  let indexSize ← checked (subU64 checks indexEndOffset indexBeginOffset)
  match Seek.seek (.start indexBeginOffset) indexReader with
  | (.error _, _) => .error .panicked
  | (.ok _, indexReader) => do
      let initialMediaSequenceNumber := indexBeginOffset / IndexRecord.recordSize
      let body ← playlistLoop format (indexSize + 1) ⟨indexReader, indexSize⟩
        (PlaylistBody.initial : PlaylistBody F)
      pure
        { initialMediaSequenceNumber
          targetDurationSeconds := F64.round body.targetDurationSeconds
          body := body.playlistBody
          haveAllData }

/-- The text the handler answers with. -/
def getM3u8Playlist [ToString F] (checks : Bool) (format : UInt64 → String) (w : Streams)
    (indexReader : ByteReader) (opts : GetM3u8PlaylistOptions) : Except Fault String :=
  match timestamps checks opts with
  | none => .error .panicked
  | some (beginTimestamp, endTimestamp) =>
      if beginTimestamp ≤ endTimestamp then
        (playlist checks format w indexReader beginTimestamp endTimestamp :
          Except Fault (Playlist F)).map Playlist.text
      else .error .panicked

/-! ### On an index that changes

The same playlist from an index reader whose stream others append to and truncate
meanwhile: each answer is that of its moment. -/

/-- The loop, `limit` bytes of the index before its end. -/
def readPlaylist (format : UInt64 → String) :
    Nat → Nat → Nat → PlaylistBody F → StreamM (PlaylistBody F)
  | 0, _, _, _ => throw .outOfFuel
  | fuel + 1, offset, limit, body =>
      if limit = 0 then pure body
      else if limit < IndexRecord.recordSize then do
        -- What is left of the limit is less than a record, and the end behind it.
        let _ ← StreamM.read .index offset limit
        pure body
      else do
        let indexRecord ← IndexSearcher.readRecord .index offset
        let body ← StreamM.checked (body.push format indexRecord)
        readPlaylist format fuel (offset + IndexRecord.recordSize)
          (limit - IndexRecord.recordSize) body

/-- What is made of the records that the two searches find. -/
def playlistBetween (checks : Bool) (format : UInt64 → String) (endTimestamp : PravegaTimestamp)
    (beginIndexRecord endIndexRecord : IndexRecord × Nat) : StreamM (Playlist F) := do
  let haveAllData := decide (endTimestamp ≤ endIndexRecord.1.timestamp)
  let indexBeginOffset := beginIndexRecord.2
  let indexEndOffset ←
    StreamM.checked (addU64 checks endIndexRecord.2 IndexRecord.recordSize)
  let indexSize ← StreamM.checked (subU64 checks indexEndOffset indexBeginOffset)
  -- The seek is unwrapped.
  if 2 ^ 63 ≤ indexBeginOffset then throw .panicked
  else
    let initialMediaSequenceNumber := indexBeginOffset / IndexRecord.recordSize
    let body ← readPlaylist format (indexSize + 1) indexBeginOffset indexSize
      (PlaylistBody.initial : PlaylistBody F)
    pure
      { initialMediaSequenceNumber
        targetDurationSeconds := F64.round body.targetDurationSeconds
        body := body.playlistBody
        haveAllData }

/-- `playlist`, command by command. -/
def livePlaylist (checks : Bool) (format : UInt64 → String)
    (beginTimestamp endTimestamp : PravegaTimestamp) : StreamM (Playlist F) := do
  let beginIndexRecord ← IndexSearcher.searchTimestampAndReturnIndexOffset checks .index
    beginTimestamp .after
  let endIndexRecord ← IndexSearcher.searchTimestampAndReturnIndexOffset checks .index
    endTimestamp .after
  playlistBetween checks format endTimestamp beginIndexRecord endIndexRecord

end Db

end GstPravega.Server
