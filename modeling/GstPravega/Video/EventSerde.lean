import GstPravega.Lib.BigEndian
import GstPravega.Lib.Framing
import GstPravega.Lib.Io
import GstPravega.Lib.Write
import GstPravega.Video.Timestamp

/-!
# Event frames

The data stream is a concatenation of frames. A frame is a type code (zero), a
length, a reserved word whose low bits are the three header flags, the
timestamp in nanoseconds with 0 for none, and the payload; the length counts
from the reserved word to the end. `EventWriter.write` produces the bytes of
one frame, `EventReader` reads one back in two calls, the length first.

An `Event` is what a reader can get back: its payload fits in one frame, and
its timestamp is not the zero that stands for none. What is written is always
the frame of an event (`EventWithHeader.stored`), frames delimit themselves
(`frame_delimiting`), and a reader that stands at a frame reads that event and
stops right behind it (`read_frame`). `storedEvents` reads a whole stream.
-/

namespace GstPravega.Video

open GstPravega.Lib

/-! ## The model -/

structure EventHeader where
  timestamp : PravegaTimestamp
  includeInIndex : Bool
  randomAccess : Bool
  discontinuity : Bool
  deriving DecidableEq, Repr

structure EventWithHeader where
  header : EventHeader
  payload : List UInt8
  deriving DecidableEq, Repr

namespace EventHeaderFlags

def includeInIndex : UInt8 := 0b00000001
def randomAccessIndicator : UInt8 := 0b00000010
def discontinuityIndicator : UInt8 := 0b00000100

/-- `BitFlags::from_bits`: refused when any other bit is set. -/
def fromBits (bits : UInt8) : Option UInt8 :=
  if bits &&& ~~~(includeInIndex ||| randomAccessIndicator |||
      discontinuityIndicator) = 0 then some bits else none

def contains (flags flag : UInt8) : Bool := flags &&& flag == flag

end EventHeaderFlags

/-- The flag byte of a header. -/
def EventHeader.flags (h : EventHeader) : UInt8 :=
  (if h.includeInIndex then EventHeaderFlags.includeInIndex else 0) |||
    (if h.randomAccess then EventHeaderFlags.randomAccessIndicator else 0) |||
    (if h.discontinuity then EventHeaderFlags.discontinuityIndicator else 0)

namespace EventWithHeader

def maxAtomicWriteSize : Nat := 8 * 1024 * 1024
def maxPayloadSize : Nat := maxAtomicWriteSize - 20

def new (payload : List UInt8) (timestamp : PravegaTimestamp)
    (includeInIndex randomAccess discontinuity : Bool) : EventWithHeader :=
  ⟨⟨timestamp, includeInIndex, randomAccess, discontinuity⟩, payload⟩

/-- The bytes of the frame: `bytes_to_write` of `EventWriter::write`. -/
def encode (event : EventWithHeader) : List UInt8 :=
  [0, 0, 0, 0] ++ beBytes 4 (event.payload.length + 12) ++
    [0, 0, 0, event.header.flags] ++
    beBytes 8 (event.header.timestamp.nanoseconds.getD 0).toNat ++
    event.payload

end EventWithHeader

/-- `EventWriter::write`, up to the bytes it hands to `write_all`. -/
def EventWriter.write (event : EventWithHeader) : Except IoError (List UInt8) :=
  if event.payload.length > EventWithHeader.maxPayloadSize then
    .error ⟨.invalidInput, s!"Payload of {event.payload.length} bytes exceeds {
      EventWithHeader.maxPayloadSize} bytes"⟩
  else .ok event.encode

/-- `EventWriter::write`, which unwraps what `write_all` returns. -/
def EventWriter.writeInto {ω : Type} [Write ω] (fuel : Nat) (event : EventWithHeader)
    (writer : ω) : Except Fault Unit × ω :=
  match EventWriter.write event with
  | .error e => (.error (.error e), writer)
  | .ok bytes =>
      match writeAll fuel bytes writer with
      | (.error (.error _), writer) => (.error .panicked, writer)
      | (r, writer) => (r, writer)

structure EventReader where
  eventLengthBytes : List UInt8
  eventLength : Nat
  requiredBufferLength : Nat
  deriving DecidableEq, Repr

namespace EventReader

def new : EventReader := ⟨List.replicate 8 0, 0, 0⟩

variable {ρ : Type} [Read ρ]

def readRequiredBufferLength (self : EventReader) (rdr : ρ) :
    Except Fault Nat × EventReader × ρ :=
  match readExact 8 rdr with
  | (.error e, rdr) => (.error (.error e), self, rdr)
  | (.ok bytes, rdr) =>
      let eventLength := beNat (bytes.drop 4)
      let self := { self with eventLengthBytes := bytes, eventLength }
      if eventLength < 12 ∨
          8 + eventLength > EventWithHeader.maxAtomicWriteSize then
        (.error (.error ⟨.invalidData, s!"Invalid event length {eventLength}"⟩),
          self, rdr)
      else
        (.ok (8 + eventLength),
          { self with requiredBufferLength := 8 + eventLength }, rdr)

/-- `read_event` into a buffer of `bufferLength` bytes. The first eight of them
are not used, so `bytes` below starts at the reserved word. -/
def readEvent (self : EventReader) (rdr : ρ) (bufferLength : Nat) :
    Except Fault EventWithHeader × ρ :=
  if bufferLength < self.requiredBufferLength then
    (.error (.error ⟨.invalidInput, "Buffer too small"⟩), rdr)
  else
    match readExact (self.requiredBufferLength - 8) rdr with
    | (.error e, rdr) => (.error (.error e), rdr)
    | (.ok bytes, rdr) =>
        match EventHeaderFlags.fromBits (bytes.getD 3 0) with
        | none => (.error .panicked, rdr)
        | some flags =>
            let timestamp := UInt64.ofNat (beNat ((bytes.drop 4).take 8))
            let timestamp := if timestamp = 0 then none else some timestamp
            let payload := (bytes.drop 12).take (self.eventLength - 12)
            (.ok ⟨⟨PravegaTimestamp.fromNanoseconds timestamp,
                EventHeaderFlags.contains flags EventHeaderFlags.includeInIndex,
                EventHeaderFlags.contains flags
                  EventHeaderFlags.randomAccessIndicator,
                EventHeaderFlags.contains flags
                  EventHeaderFlags.discontinuityIndicator⟩,
              payload⟩, rdr)

end EventReader

/-! ## What a stream holds -/

/-- The event a frame is read back as: no timestamp for a zero one. -/
def EventWithHeader.normalize (e : EventWithHeader) : EventWithHeader :=
  { e with header.timestamp :=
      if e.header.timestamp = ⟨some 0⟩ then ⟨none⟩ else e.header.timestamp }

/-- An event as the stream holds it. -/
structure Event extends EventWithHeader where
  fits : payload.length ≤ EventWithHeader.maxPayloadSize
  timed : header.timestamp ≠ ⟨some 0⟩
  deriving DecidableEq

def Event.frame (e : Event) : List UInt8 := e.toEventWithHeader.encode

def EventWithHeader.stored (e : EventWithHeader)
    (h : e.payload.length ≤ EventWithHeader.maxPayloadSize) : Event :=
  ⟨e.normalize, h, by
    simp only [EventWithHeader.normalize]
    split
    · decide
    · assumption⟩

/-- The events behind a reader with their offsets, each read in two calls as
the readers of the stream do. -/
def readEvents : Nat → Cursor → List (Nat × EventWithHeader)
  | 0, _ => []
  | fuel + 1, rdr =>
      match EventReader.new.readRequiredBufferLength rdr with
      | (.ok length, reader, rdr') =>
          match reader.readEvent rdr' length with
          | (.ok event, rdr'') => (rdr.pos, event) :: readEvents fuel rdr''
          | (.error _, _) => []
      | (.error _, _) => []

/-- The events of a byte stream with their offsets. -/
def storedEvents (bytes : List UInt8) : List (Nat × EventWithHeader) :=
  readEvents bytes.length ⟨bytes, 0⟩

theorem EventHeader.fromBits_flags (h : EventHeader) :
    EventHeaderFlags.fromBits h.flags = some h.flags := by
  obtain ⟨t, i, r, d⟩ := h
  show EventHeaderFlags.fromBits (flags ⟨⟨none⟩, i, r, d⟩) =
    some (flags ⟨⟨none⟩, i, r, d⟩)
  revert i r d
  decide

theorem EventHeader.contains_flags (h : EventHeader) :
    EventHeaderFlags.contains h.flags EventHeaderFlags.includeInIndex =
        h.includeInIndex ∧
      EventHeaderFlags.contains h.flags EventHeaderFlags.randomAccessIndicator =
        h.randomAccess ∧
      EventHeaderFlags.contains h.flags EventHeaderFlags.discontinuityIndicator =
        h.discontinuity := by
  obtain ⟨t, i, r, d⟩ := h
  show EventHeaderFlags.contains (flags ⟨⟨none⟩, i, r, d⟩) _ = i ∧
    EventHeaderFlags.contains (flags ⟨⟨none⟩, i, r, d⟩) _ = r ∧
    EventHeaderFlags.contains (flags ⟨⟨none⟩, i, r, d⟩) _ = d
  revert i r d
  decide

namespace EventWithHeader

@[simp] theorem length_encode (e : EventWithHeader) :
    e.encode.length = e.payload.length + 20 := by
  simp [encode]
  omega

@[simp] theorem payload_normalize (e : EventWithHeader) :
    e.normalize.payload = e.payload := rfl

theorem normalize_of_ne {e : EventWithHeader}
    (h : e.header.timestamp ≠ ⟨some 0⟩) : e.normalize = e := by
  rw [normalize, if_neg h]

/-- A zero timestamp and none are written alike. -/
@[simp] theorem encode_normalize (e : EventWithHeader) :
    e.normalize.encode = e.encode := by
  by_cases h : e.header.timestamp = ⟨some 0⟩
  · obtain ⟨⟨⟨t⟩, i, r, d⟩, p⟩ := e
    injection h with h
    subst h
    rfl
  · rw [normalize_of_ne h]

theorem frame_stored (e : EventWithHeader) (h : e.payload.length ≤ maxPayloadSize) :
    (e.stored h).frame = e.encode := encode_normalize e

/-- The timestamp comes back from its eight bytes, zero as none. -/
theorem timestamp_decode (t : PravegaTimestamp) (e : EventWithHeader)
    (ht : e.header.timestamp = t) :
    (let n := UInt64.ofNat (beNat (beBytes 8 (t.nanoseconds.getD 0).toNat))
     PravegaTimestamp.fromNanoseconds (if n = 0 then none else some n)) =
      e.normalize.header.timestamp := by
  subst ht
  obtain ⟨⟨⟨t⟩, i, r, d⟩, p⟩ := e
  dsimp only [normalize]
  rw [beNat_beBytes_of_lt (UInt64.toNat_lt _), UInt64.ofNat_toNat]
  cases t with
  | none => rfl
  | some n =>
      by_cases h : n = 0
      · subst h
        rfl
      · rw [Option.getD_some, if_neg h, if_neg (fun he => h (by injections))]
        rfl

end EventWithHeader

/-! ## Reading a frame

The first eight bytes give the length of the rest. The induction principle of
everything below is the split of a frame at its eighth byte. -/

section Frame

variable (e : Event)

private def lengthBytes : List UInt8 :=
  [0, 0, 0, 0] ++ beBytes 4 (e.payload.length + 12)

private def body : List UInt8 :=
  [0, 0, 0, e.header.flags] ++
    (beBytes 8 (e.header.timestamp.nanoseconds.getD 0).toNat ++ e.payload)

private theorem frame_split : e.frame = lengthBytes e ++ body e := by
  simp only [Event.frame, EventWithHeader.encode, lengthBytes, body,
    List.append_assoc]

private theorem length_lengthBytes : (lengthBytes e).length = 8 := by
  simp [lengthBytes]

private theorem length_body : (body e).length = e.payload.length + 12 := by
  simp [body]
  omega

private theorem frame_fits :
    e.payload.length + 20 ≤ EventWithHeader.maxAtomicWriteSize := by
  have hfits := e.fits
  simp only [EventWithHeader.maxPayloadSize, EventWithHeader.maxAtomicWriteSize]
    at hfits ⊢
  omega

private theorem beNat_lengthBytes :
    beNat ((lengthBytes e).drop 4) = e.payload.length + 12 := by
  have hmax := frame_fits e
  simp only [EventWithHeader.maxAtomicWriteSize] at hmax
  show beNat (beBytes 4 (e.payload.length + 12)) = _
  exact beNat_beBytes_of_lt (by omega)

end Frame

@[simp] theorem Event.length_frame (e : Event) :
    e.frame.length = e.payload.length + 20 := EventWithHeader.length_encode _

theorem Event.frame_ne_nil (e : Event) : e.frame ≠ [] := by
  intro h
  have := e.length_frame
  rw [h] at this
  simp at this

namespace EventReader

variable {ρ : Type} [Read ρ] [LawfulRead ρ]

open LawfulRead

/-- A reader at a frame reads its length. -/
theorem readRequiredBufferLength_spec (self : EventReader) {r : ρ} (e : Event)
    {rest : List UInt8} (hr : Ready r) (h : remaining r = e.frame ++ rest) :
    ∃ r', self.readRequiredBufferLength r =
        (.ok e.frame.length,
          ⟨lengthBytes e, e.payload.length + 12, e.frame.length⟩, r') ∧
      Ready r' ∧ remaining r' = body e ++ rest ∧ position r' = position r + 8 := by
  rw [frame_split, List.append_assoc] at h
  have hlen := length_lengthBytes e
  obtain ⟨r', hread, hr', hrem, hpos⟩ := (readExact_spec 8 r hr).1 (by
    rw [h, List.length_append, hlen]
    omega)
  refine ⟨r', ?_, hr', ?_, hpos⟩
  · have hmax := frame_fits e
    rw [h, List.take_left' hlen] at hread
    rw [readRequiredBufferLength, hread]
    dsimp only
    rw [beNat_lengthBytes, if_neg (by omega), Event.length_frame]
    simp only [Nat.add_comm 8]
  · rw [hrem, h, List.drop_left' hlen]

/-- A reader past the length reads the event. -/
theorem readEvent_spec {r : ρ} (e : Event) {rest : List UInt8} (hr : Ready r)
    (h : remaining r = body e ++ rest) {bufferLength : Nat}
    (hbuf : e.frame.length ≤ bufferLength) :
    ∃ r', readEvent ⟨lengthBytes e, e.payload.length + 12, e.frame.length⟩ r
        bufferLength = (.ok e.toEventWithHeader, r') ∧
      Ready r' ∧ remaining r' = rest ∧
      position r' = position r + (e.frame.length - 8) := by
  have hlen := length_body e
  have hflen := e.length_frame
  obtain ⟨r', hread, hr', hrem, hpos⟩ :=
    (readExact_spec (e.frame.length - 8) r hr).1 (by
      rw [h, List.length_append, hlen]
      omega)
  have hbody : e.frame.length - 8 = (body e).length := by omega
  refine ⟨r', ?_, hr', ?_, hpos⟩
  · rw [h, hbody, List.take_left] at hread
    rw [readEvent, if_neg (Nat.not_lt.mpr hbuf)]
    dsimp only
    rw [hbody, hread]
    have htime : (((body e).drop 4).take 8) =
        beBytes 8 (e.header.timestamp.nanoseconds.getD 0).toNat := by
      show ((beBytes 8 _ ++ _).take 8) = _
      exact List.take_left' (length_beBytes 8 _)
    have hpay : (body e).drop 12 = e.payload := by
      show ((beBytes 8 (e.header.timestamp.nanoseconds.getD 0).toNat ++ _).drop 8) = _
      exact List.drop_left' (length_beBytes 8 _)
    have hflags : (body e).getD 3 0 = e.header.flags := rfl
    dsimp only
    rw [hflags, EventHeader.fromBits_flags]
    dsimp only
    obtain ⟨hi, hra, hd⟩ := e.header.contains_flags
    rw [hi, hra, hd, htime, hpay, Nat.add_sub_cancel, List.take_length,
      EventWithHeader.timestamp_decode e.header.timestamp e.toEventWithHeader rfl,
      EventWithHeader.normalize_of_ne e.timed]
  · rw [hrem, h, hbody, List.drop_left]

/-- The two calls together. -/
theorem read_frame (self : EventReader) {r : ρ} (e : Event) {rest : List UInt8}
    (hr : Ready r) (h : remaining r = e.frame ++ rest) :
    ∃ self' r' r'', self.readRequiredBufferLength r = (.ok e.frame.length, self', r') ∧
      self'.readEvent r' e.frame.length = (.ok e.toEventWithHeader, r'') ∧
      Ready r'' ∧ remaining r'' = rest ∧
      position r'' = position r + e.frame.length := by
  obtain ⟨r', hlen, hr', hrem', hpos'⟩ := readRequiredBufferLength_spec self e hr h
  obtain ⟨r'', hev, hr'', hrem'', hpos''⟩ :=
    readEvent_spec e hr' hrem' (Nat.le_refl _)
  have := e.length_frame
  exact ⟨_, r', r'', hlen, hev, hr'', hrem'', by omega⟩

/-- At the end of the stream the length cannot be read. -/
theorem readRequiredBufferLength_eof (self : EventReader) {r : ρ} (hr : Ready r)
    (h : remaining r = []) :
    ∃ r', self.readRequiredBufferLength r =
        (.error (.error ⟨.unexpectedEof, "failed to fill whole buffer"⟩), self, r') ∧
      Ready r' ∧ remaining r' = [] ∧ position r' = position r := by
  obtain ⟨r', hread, hr', hrem, hpos⟩ := (readExact_spec 8 r hr).2 (by
    rw [h]
    decide)
  rw [h] at hpos
  exact ⟨r', by rw [readRequiredBufferLength, hread], hr', hrem, hpos⟩

end EventReader

/-! ## The frames of a stream -/

theorem Event.ext_toEventWithHeader {a b : Event}
    (h : a.toEventWithHeader = b.toEventWithHeader) : a = b := by
  obtain ⟨a, _, _⟩ := a
  obtain ⟨b, _, _⟩ := b
  dsimp only at h
  subst h
  rfl

/-- A frame is read back as the one event that has it. -/
theorem Event.frame_injective : Function.Injective Event.frame := by
  intro a b h
  obtain ⟨s, r, _, ha1, ha2, _⟩ := EventReader.read_frame EventReader.new
    (r := (⟨a.frame, 0⟩ : Cursor)) a trivial (List.append_nil _).symm
  obtain ⟨s', r', _, hb1, hb2, _⟩ := EventReader.read_frame EventReader.new
    (r := (⟨a.frame, 0⟩ : Cursor)) b trivial
    (h.trans (List.append_nil _).symm)
  rw [ha1] at hb1
  injection hb1 with hlen hrest
  injection hlen with hlen
  injection hrest with hs hr
  rw [hs, hr, hlen, hb2] at ha2
  injection ha2 with hev _
  injection hev with hev
  exact (Event.ext_toEventWithHeader hev).symm

theorem Event.frame_delimiting : SelfDelimiting Event.frame where
  nonempty := Event.frame_ne_nil
  delimited := by
    intro a b x y h
    have hlen : a.frame.length = b.frame.length := by
      have ha := beNat_lengthBytes a
      have hb := beNat_lengthBytes b
      rw [frame_split, frame_split, List.append_assoc, List.append_assoc] at h
      rw [List.append_inj_left h ((length_lengthBytes a).trans
        (length_lengthBytes b).symm)] at ha
      rw [a.length_frame, b.length_frame]
      omega
    exact List.append_inj_left h hlen

/-- Reading a stream of whole frames gives its events back. -/
theorem readEvents_flatMap (evs : List Event) :
    ∀ (fuel : Nat) (rdr : Cursor), evs.length ≤ fuel →
      rdr.bytes.drop rdr.pos = evs.flatMap Event.frame →
      readEvents fuel rdr =
        (layout Event.frame rdr.pos evs).map fun x => (x.1, x.2.toEventWithHeader) := by
  induction evs with
  | nil =>
      intro fuel rdr _ h
      cases fuel with
      | zero => rfl
      | succ fuel =>
          obtain ⟨_, heof, _⟩ :=
            EventReader.readRequiredBufferLength_eof EventReader.new
              (r := rdr) trivial h
          rw [readEvents, heof]
          rfl
  | cons e evs ih =>
      intro fuel rdr hfuel h
      cases fuel with
      | zero => exact absurd hfuel (Nat.not_succ_le_zero _)
      | succ fuel =>
          obtain ⟨_, _, r'', h1, h2, _, hrem, hpos⟩ :=
            EventReader.read_frame EventReader.new (r := rdr) e trivial h
          have hpos : r''.pos = rdr.pos + e.frame.length := hpos
          rw [readEvents, h1]
          dsimp only
          rw [h2]
          dsimp only
          rw [ih fuel r'' (Nat.le_of_succ_le_succ hfuel) hrem, hpos]
          rfl

theorem storedEvents_flatMap (evs : List Event) :
    storedEvents (evs.flatMap Event.frame) =
      (layout Event.frame 0 evs).map fun x => (x.1, x.2.toEventWithHeader) := by
  exact readEvents_flatMap evs _ _ (length_le_flatMap Event.frame_delimiting evs) rfl

/-- The stored events from some boundary on. -/
theorem mem_storedEvents {bytes : List UInt8} {before after : List Event}
    (hbytes : bytes = (before ++ after).flatMap Event.frame) {o : Nat}
    {e : EventWithHeader} :
    (o, e) ∈ storedEvents bytes ∧ (before.flatMap Event.frame).length ≤ o ↔
      ∃ e' : Event, e'.toEventWithHeader = e ∧
        (o, e') ∈ layout Event.frame (before.flatMap Event.frame).length after := by
  rw [hbytes, storedEvents_flatMap]
  constructor
  · rintro ⟨hmem, hle⟩
    obtain ⟨⟨o', e'⟩, hlayout, heq⟩ := List.mem_map.mp hmem
    injection heq with ho he
    dsimp only at ho he
    subst ho
    refine ⟨e', he, ?_⟩
    rcases mem_layout_append Event.frame_delimiting hlayout with ⟨hlt, _⟩ | ⟨_, hafter⟩
    · omega
    · rwa [Nat.zero_add] at hafter
  · rintro ⟨e', rfl, hmem⟩
    refine ⟨List.mem_map.mpr ⟨(o, e'), ?_, rfl⟩, (le_of_mem_layout hmem).1⟩
    rw [layout_append, Nat.zero_add]
    exact List.mem_append_right _ hmem

end GstPravega.Video
