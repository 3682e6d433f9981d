import GstPravega.Client.ByteStream
import GstPravega.Lib.Bisect
import GstPravega.Video.EventSerde

/-!
# The index, and searching it

An index record is twenty bytes: a word whose low bits are the random access
and discontinuity flags, the timestamp with 0 for none, and the offset of an
event in the data stream. Records stand back to back, so the index is searched
by bisection over byte offsets that are multiples of twenty.

The two searches share their loop. They differ in how they judge a record,
by its timestamp or by its distance to the last record, and in what they
return before the loop starts.
-/

namespace GstPravega.Video

open GstPravega.Lib GstPravega.Client

/-! ## The model -/

structure IndexRecord where
  timestamp : PravegaTimestamp
  offset : Nat
  randomAccess : Bool
  discontinuity : Bool
  deriving DecidableEq, Repr

namespace IndexRecord

def recordSize : Nat := 20

def new (timestamp : PravegaTimestamp) (offset : Nat)
    (randomAccess discontinuity : Bool) : IndexRecord :=
  ⟨timestamp, offset, randomAccess, discontinuity⟩

/-- The flag byte of a record. -/
def flags (record : IndexRecord) : UInt8 :=
  (if record.randomAccess then EventHeaderFlags.randomAccessIndicator else 0) |||
    (if record.discontinuity then EventHeaderFlags.discontinuityIndicator else 0)

/-- The bytes of the record: `bytes_to_write` of `IndexRecordWriter::write`. -/
def encode (record : IndexRecord) : List UInt8 :=
  [0, 0, 0, record.flags] ++
    beBytes 8 (record.timestamp.nanoseconds.getD 0).toNat ++
    beBytes 8 record.offset

end IndexRecord

/-- `IndexRecordWriter::write`, up to the bytes it hands to `write`. -/
def IndexRecordWriter.write (record : IndexRecord) : Except IoError (List UInt8) :=
  if record.timestamp.nanoseconds.getD 0 = 0 then
    .error ⟨.invalidInput, "Timestamp is none or 0"⟩
  else .ok record.encode

/-- `IndexRecordWriter::write`, which calls `write` once and unwraps what it returns. -/
def IndexRecordWriter.writeInto {ω : Type} [Write ω] (record : IndexRecord) (writer : ω) :
    Except Fault Unit × ω :=
  match IndexRecordWriter.write record with
  | .error e => (.error (.error e), writer)
  | .ok bytes =>
      match Write.write bytes writer with
      | (.accepted _, writer) => (.ok (), writer)
      | (.interrupted, writer) => (.error .panicked, writer)
      | (.error _, writer) => (.error .panicked, writer)

/-- `IndexRecordReader::read`, from the bytes `read_exact` filled. -/
def IndexRecordReader.decode (buffer : List UInt8) : Except Fault IndexRecord :=
  match EventHeaderFlags.fromBits (buffer.getD 3 0) with
  | none => .error .panicked
  | some flags =>
      let timestamp := UInt64.ofNat (beNat ((buffer.drop 4).take 8))
      let timestamp := if timestamp = 0 then none else some timestamp
      let offset := beNat ((buffer.drop 12).take 8)
      .ok ⟨PravegaTimestamp.fromNanoseconds timestamp, offset,
        EventHeaderFlags.contains flags EventHeaderFlags.randomAccessIndicator,
        EventHeaderFlags.contains flags EventHeaderFlags.discontinuityIndicator⟩

def IndexRecordReader.read {ρ : Type} [Read ρ] (rdr : ρ) :
    Except Fault IndexRecord × ρ :=
  match readExact IndexRecord.recordSize rdr with
  | (.error e, rdr) => (.error (.error e), rdr)
  | (.ok buffer, rdr) => (IndexRecordReader.decode buffer, rdr)

inductive SearchMethod where
  | before
  | after
  deriving DecidableEq, Repr

namespace IndexSearcher

/-- A seek and a read. The seek empties the `BufReader`, so the record comes
from the stream. -/
def readRecord (reader : Stream) (offset : Nat) : StreamM IndexRecord := do
  let buffer ← StreamM.read reader offset IndexRecord.recordSize
  ExceptT.mk (.ret (IndexRecordReader.decode buffer))

/-- The loop of both searches. `side` judges the record in the middle: `.gt`
goes on before it, `.lt` behind it. -/
def searchLoop (checks : Bool) (reader : Stream)
    (side : IndexRecord → Option Ordering) (method : SearchMethod) :
    Nat → Nat → Nat → StreamM (IndexRecord × Nat)
  | 0, _, _ => throw .outOfFuel
  | fuel + 1, firstIndexOffset, lastIndexOffset => do
      let sum ← StreamM.checked (addU64 checks lastIndexOffset firstIndexOffset)
      let middleIndex := sum / 2 / IndexRecord.recordSize
      let middleIndexOffset := middleIndex * IndexRecord.recordSize
      let middleIndexRecord ← readRecord reader middleIndexOffset
      match ← StreamM.checked (side middleIndexRecord) with
      | .gt =>
          let lastIndexOffset ←
            StreamM.checked (subU64 checks middleIndexOffset IndexRecord.recordSize)
          if firstIndexOffset > lastIndexOffset then
            finish firstIndexOffset lastIndexOffset
          else
            searchLoop checks reader side method fuel firstIndexOffset lastIndexOffset
      | .lt =>
          let firstIndexOffset ←
            StreamM.checked (addU64 checks middleIndexOffset IndexRecord.recordSize)
          if firstIndexOffset > lastIndexOffset then
            finish firstIndexOffset lastIndexOffset
          else
            searchLoop checks reader side method fuel firstIndexOffset lastIndexOffset
      | .eq => pure (middleIndexRecord, middleIndexOffset)
where
  finish (firstIndexOffset lastIndexOffset : Nat) : StreamM (IndexRecord × Nat) :=
    match method with
    | .before => do
        let lastIndexRecord ← readRecord reader lastIndexOffset
        pure (lastIndexRecord, lastIndexOffset)
    | .after => do
        let firstIndexRecord ← readRecord reader firstIndexOffset
        pure (firstIndexRecord, firstIndexOffset)

/-- The judgment of a record by its timestamp. -/
def timestampSide (timestamp : PravegaTimestamp) (record : IndexRecord) :
    Ordering :=
  if timestamp < record.timestamp then .gt
  else if timestamp > record.timestamp then .lt
  else .eq

/-- The judgment of a record by its distance to the last one. -/
def sizeSide (checks : Bool) (sizeBytes : Nat) (tailIndexRecord record : IndexRecord) :
    Option Ordering :=
  (subU64 checks tailIndexRecord.offset record.offset).map fun distance =>
    if sizeBytes > distance then .gt
    else if sizeBytes < distance then .lt
    else .eq

def noRecords : Fault := .error ⟨.unexpectedEof, "Index has no records"⟩

def searchTimestampAndReturnIndexOffset (checks : Bool) (reader : Stream)
    (timestamp : PravegaTimestamp) (method : SearchMethod) :
    StreamM (IndexRecord × Nat) := do
  let firstIndexOffset ← StreamM.currentHead reader
  let tailOffset ← StreamM.seekEnd reader
  let least ← StreamM.checked
    (addU64 checks firstIndexOffset IndexRecord.recordSize)
  if tailOffset < least then throw noRecords
  else
    let lastIndexOffset ←
      StreamM.checked (subU64 checks tailOffset IndexRecord.recordSize)
    let lastIndexRecord ← readRecord reader lastIndexOffset
    if lastIndexRecord.timestamp ≤ timestamp then
      pure (lastIndexRecord, lastIndexOffset)
    else
      let firstIndexRecord ← readRecord reader firstIndexOffset
      if timestamp ≤ firstIndexRecord.timestamp then
        pure (firstIndexRecord, firstIndexOffset)
      else
        searchLoop checks reader (fun record => some (timestampSide timestamp record))
          method tailOffset firstIndexOffset lastIndexOffset

def searchSizeAndReturnIndexOffset (checks : Bool) (reader : Stream)
    (sizeBytes : Nat) (method : SearchMethod) : StreamM (IndexRecord × Nat) := do
  let firstIndexOffset ← StreamM.currentHead reader
  let tailOffset ← StreamM.seekEnd reader
  let least ← StreamM.checked
    (addU64 checks firstIndexOffset IndexRecord.recordSize)
  if tailOffset < least then throw noRecords
  else
    let lastIndexOffset ←
      StreamM.checked (subU64 checks tailOffset IndexRecord.recordSize)
    let tailIndexRecord ← readRecord reader lastIndexOffset
    let firstIndexRecord ← readRecord reader firstIndexOffset
    let distance ← StreamM.checked
      (subU64 checks tailIndexRecord.offset firstIndexRecord.offset)
    if distance ≤ sizeBytes then pure (firstIndexRecord, firstIndexOffset)
    else
      searchLoop checks reader (sizeSide checks sizeBytes tailIndexRecord)
        method tailOffset firstIndexOffset lastIndexOffset

def searchTimestamp (checks : Bool) (reader : Stream)
    (timestamp : PravegaTimestamp) : StreamM IndexRecord := do
  let result ← searchTimestampAndReturnIndexOffset checks reader timestamp .before
  pure result.1

def searchTimestampAfter (checks : Bool) (reader : Stream)
    (timestamp : PravegaTimestamp) : StreamM IndexRecord := do
  let result ← searchTimestampAndReturnIndexOffset checks reader timestamp .after
  pure result.1

def getFirstRecord (checks : Bool) (reader : Stream) : StreamM IndexRecord :=
  searchTimestamp checks reader PravegaTimestamp.min

def getLastRecord (checks : Bool) (reader : Stream) : StreamM IndexRecord :=
  searchTimestamp checks reader PravegaTimestamp.max

/-- The loop of `get_index_records`. -/
def getIndexRecordsFrom (reader : Stream) (indexEndOffset : Nat) :
    Nat → Nat → StreamM (List (IndexRecord × Nat))
  | 0, _ => throw .outOfFuel
  | fuel + 1, indexOffset =>
      if indexOffset < indexEndOffset then do
        let indexRecord ← readRecord reader indexOffset
        let records ← getIndexRecordsFrom reader indexEndOffset fuel
          (indexOffset + IndexRecord.recordSize)
        pure ((indexRecord, indexOffset) :: records)
      else pure []

def getIndexRecords (reader : Stream) : StreamM (List (IndexRecord × Nat)) := do
  let indexBeginOffset ← StreamM.currentHead reader
  let indexEndOffset ← StreamM.seekEnd reader
  getIndexRecordsFrom reader indexEndOffset (indexEndOffset + 1) indexBeginOffset

end IndexSearcher

/-! ## What an index stream holds -/

/-- A record as the stream holds it: the offset fits its eight bytes and the
timestamp is not the zero that stands for none. -/
structure Record extends IndexRecord where
  fits : offset < 2 ^ 64
  timed : timestamp ≠ ⟨some 0⟩
  deriving DecidableEq

def Record.frame (r : Record) : List UInt8 := r.toIndexRecord.encode

theorem IndexRecord.length_encode (record : IndexRecord) :
    record.encode.length = IndexRecord.recordSize := by
  simp [IndexRecord.encode, IndexRecord.recordSize]

@[simp] theorem Record.length_frame (r : Record) :
    r.frame.length = IndexRecord.recordSize := r.toIndexRecord.length_encode

theorem IndexRecord.decode_flags (r : IndexRecord) :
    EventHeaderFlags.fromBits r.flags = some r.flags ∧
      EventHeaderFlags.contains r.flags EventHeaderFlags.randomAccessIndicator =
        r.randomAccess ∧
      EventHeaderFlags.contains r.flags EventHeaderFlags.discontinuityIndicator =
        r.discontinuity := by
  obtain ⟨t, o, r, d⟩ := r
  show EventHeaderFlags.fromBits (flags ⟨⟨none⟩, 0, r, d⟩) =
      some (flags ⟨⟨none⟩, 0, r, d⟩) ∧
    EventHeaderFlags.contains (flags ⟨⟨none⟩, 0, r, d⟩) _ = r ∧
    EventHeaderFlags.contains (flags ⟨⟨none⟩, 0, r, d⟩) _ = d
  revert r d
  decide

theorem decode_timestamp {t : PravegaTimestamp} (h : t ≠ ⟨some 0⟩) :
    (let n := UInt64.ofNat (beNat (beBytes 8 (t.nanoseconds.getD 0).toNat))
     PravegaTimestamp.fromNanoseconds (if n = 0 then none else some n)) = t := by
  have hd := EventWithHeader.timestamp_decode t ⟨⟨t, false, false, false⟩, []⟩ rfl
  rw [EventWithHeader.normalize_of_ne h] at hd
  exact hd

/-- A record is read back as it was written. -/
theorem Record.decode_frame (r : Record) :
    IndexRecordReader.decode r.frame = .ok r.toIndexRecord := by
  obtain ⟨hflags, hra, hd⟩ := r.toIndexRecord.decode_flags
  have htime : (r.frame.drop 4).take 8 =
      beBytes 8 (r.timestamp.nanoseconds.getD 0).toNat := by
    show ((beBytes 8 (r.timestamp.nanoseconds.getD 0).toNat ++ _).take 8) = _
    exact List.take_left' (length_beBytes 8 _)
  have hoff : (r.frame.drop 12).take 8 = beBytes 8 r.offset := by
    show ((beBytes 8 (r.timestamp.nanoseconds.getD 0).toNat ++ _).drop 8).take 8 = _
    rw [List.drop_left' (length_beBytes 8 _)]
    exact List.take_of_length_le (Nat.le_of_eq (length_beBytes 8 _))
  have hbits : r.frame.getD 3 0 = r.flags := rfl
  rw [IndexRecordReader.decode, hbits, hflags]
  dsimp only
  rw [hra, hd, htime, hoff, decode_timestamp r.timed, beNat_beBytes_of_lt r.fits]

section Reading

open LawfulRead

variable {ρ : Type} [Read ρ] [LawfulRead ρ] {rdr : ρ}

/-- A reader at a record reads it. -/
theorem IndexRecordReader.read_frame (hr : Ready rdr) {r : Record} {rest : List UInt8}
    (h : remaining rdr = r.frame ++ rest) :
    ∃ rdr', IndexRecordReader.read rdr = (.ok r.toIndexRecord, rdr') ∧ Ready rdr' ∧
      remaining rdr' = rest := by
  have hlen := r.length_frame
  obtain ⟨rdr', hread, hr', hrem, _⟩ := (readExact_spec IndexRecord.recordSize rdr hr).1 (by
    rw [h, List.length_append, hlen]
    exact Nat.le_add_right _ _)
  rw [h, List.take_left' hlen] at hread
  rw [h, List.drop_left' hlen] at hrem
  exact ⟨rdr', by rw [read, hread, ← r.decode_frame], hr', hrem⟩

theorem IndexRecordReader.read_end (hr : Ready rdr) (h : remaining rdr = []) :
    ∃ rdr', IndexRecordReader.read rdr =
        (.error (.error ⟨.unexpectedEof, "failed to fill whole buffer"⟩), rdr') ∧
      Ready rdr' ∧ remaining rdr' = [] := by
  obtain ⟨rdr', hread, hr', hrem, _⟩ := (readExact_spec IndexRecord.recordSize rdr hr).2 (by
    rw [h]
    decide)
  exact ⟨rdr', by rw [read, hread], hr', hrem⟩

end Reading

theorem Record.ext_toIndexRecord {a b : Record}
    (h : a.toIndexRecord = b.toIndexRecord) : a = b := by
  obtain ⟨a, _, _⟩ := a
  obtain ⟨b, _, _⟩ := b
  dsimp only at h
  subst h
  rfl

theorem IndexRecordWriter.write_error {record : IndexRecord} {e : IoError}
    (h : IndexRecordWriter.write record = .error e) :
    record.timestamp.nanoseconds.getD 0 = 0 := by
  rw [write] at h
  split at h
  · assumption
  · cases h

/-- What is written is the frame of a record. -/
theorem IndexRecordWriter.write_ok {record : IndexRecord} {bytes : List UInt8}
    (h : IndexRecordWriter.write record = .ok bytes) (hfits : record.offset < 2 ^ 64) :
    record.timestamp.nanoseconds.getD 0 ≠ 0 ∧
      ∃ r : Record, r.toIndexRecord = record ∧ bytes = r.frame := by
  rw [write] at h
  split at h
  · cases h
  next hne =>
  injection h with h
  refine ⟨hne, ⟨record, hfits, ?_⟩, rfl, h.symm⟩
  intro ht
  rw [ht] at hne
  exact hne rfl

theorem Record.frame_injective : Function.Injective Record.frame := by
  intro a b h
  have ha := a.decode_frame
  rw [h, b.decode_frame] at ha
  injection ha with ha
  exact (Record.ext_toIndexRecord ha).symm

theorem Record.frame_delimiting : SelfDelimiting Record.frame where
  nonempty := by
    intro a h
    have := a.length_frame
    rw [h] at this
    cases this
  delimited := by
    intro a b x y h
    exact List.append_inj_left h (a.length_frame.trans b.length_frame.symm)

/-- The records `recs` are what is left of the index: they fill it from its
head, a multiple of the record size, to its tail. -/
structure Holds (st : ByteStream) (recs : List Record) : Prop where
  aligned : IndexRecord.recordSize ∣ st.head
  head_le : st.head ≤ st.tail
  bytes : st.bytes.drop st.head = recs.flatMap Record.frame

namespace Holds

variable {st : ByteStream} {recs : List Record}

theorem tail_eq (h : Holds st recs) :
    st.tail = st.head + IndexRecord.recordSize * recs.length := by
  have hlen := congrArg List.length h.bytes
  rw [List.length_drop, length_flatMap_of_length Record.length_frame] at hlen
  have := h.head_le
  rw [ByteStream.tail] at this ⊢
  omega

/-- The `i`-th record is at its place. -/
theorem read_record (h : Holds st recs) {i : Nat} {r : Record}
    (hr : recs[i]? = some r) :
    st.read (st.head + IndexRecord.recordSize * i) IndexRecord.recordSize =
      .ok r.frame := by
  obtain ⟨hi, _⟩ := List.getElem?_eq_some_iff.mp hr
  have hmul : IndexRecord.recordSize * (i + 1) ≤
      IndexRecord.recordSize * recs.length := Nat.mul_le_mul_left _ hi
  rw [Nat.mul_succ] at hmul
  have htail := h.tail_eq
  rw [ByteStream.read_of_le (Nat.le_add_right _ _) (by omega), ← List.drop_drop,
    h.bytes, slice_flatMap_of_length Record.length_frame hr]

/-- Records in a row. -/
theorem slice (h : Holds st recs) (i n : Nat) :
    (st.bytes.drop (st.head + IndexRecord.recordSize * i)).take
        (IndexRecord.recordSize * n) =
      ((recs.drop i).take n).flatMap Record.frame := by
  rw [← List.drop_drop, h.bytes, drop_flatMap_of_length Record.length_frame,
    take_flatMap_of_length Record.length_frame]

end Holds

/-- `r` is the record with this number, counted from the creation of the index. -/
def IsRecordNumber (st : ByteStream) (n : Nat) (r : Record) : Prop :=
  st.read (IndexRecord.recordSize * n) IndexRecord.recordSize = .ok r.frame ∧
    ∀ recs : List Record, st.bytes = recs.flatMap Record.frame → recs[n]? = some r

theorem isRecordNumber_of_read {st : ByteStream} {n : Nat} {r : Record}
    (h : st.read (IndexRecord.recordSize * n) IndexRecord.recordSize = .ok r.frame) :
    IsRecordNumber st n r := by
  refine ⟨h, ?_⟩
  intro recs hrecs
  obtain ⟨_, htail, hframe⟩ := ByteStream.read_ok h
  rw [ByteStream.tail, hrecs, length_flatMap_of_length Record.length_frame,
    ← Nat.mul_succ] at htail
  have hn := Nat.le_of_mul_le_mul_left htail (by decide)
  have hget := List.getElem?_eq_getElem hn
  rw [hrecs, slice_flatMap_of_length Record.length_frame hget] at hframe
  rw [hget, Record.frame_injective hframe]

end GstPravega.Video
