import GstPravega.Video.Index

/-!
# The readers on foreign bytes

What a reader stands at need not have been written by the encoders. So the two
readers are given here once more, each slice, index and difference taken as the code
takes it: one that is out of range is a panic. On the way the code uses them none is
(`readEventInto_eq`, `readWhole_eq`), and what remains that can panic is the unwrap of
the flags. `readFrame_of_ahead` and `readFrame_of_not_ahead` say what a reader of events
does on any string.
-/

namespace GstPravega.Video

open GstPravega.Lib

/-! ## The model -/

/-- `buffer[first..last]`. -/
def slice (buffer : List UInt8) (first last : Nat) : Option (List UInt8) :=
  if first ≤ last ∧ last ≤ buffer.length then some ((buffer.take last).drop first) else none

/-- `unwrap`, and whatever else panics. -/
def orPanic {α : Type} : Option α → Except Fault α
  | some a => .ok a
  | none => .error .panicked

namespace EventReader

/-- The end of `read_event`, on the buffer it has filled. -/
def decodeEvent (checks : Bool) (self : EventReader) (buffer : List UInt8) :
    Option EventWithHeader := do
  let flags ← EventHeaderFlags.fromBits (← buffer[11]?)
  let timestamp := UInt64.ofNat (beNat (← slice buffer 12 20))
  let timestamp := if timestamp = 0 then none else some timestamp
  let payloadLength ← subU64 checks self.eventLength 12
  let payload ← slice buffer 20 (← addU64 checks 20 payloadLength)
  some ⟨⟨PravegaTimestamp.fromNanoseconds timestamp,
    EventHeaderFlags.contains flags EventHeaderFlags.includeInIndex,
    EventHeaderFlags.contains flags EventHeaderFlags.randomAccessIndicator,
    EventHeaderFlags.contains flags EventHeaderFlags.discontinuityIndicator⟩, payload⟩

variable {ρ : Type} [Read ρ]

/-- `read_event` with its buffer. -/
def readEventInto (checks : Bool) (self : EventReader) (rdr : ρ) (buffer : List UInt8) :
    Except Fault EventWithHeader × ρ :=
  if buffer.length < self.requiredBufferLength then
    (.error (.error ⟨.invalidInput, "Buffer too small"⟩), rdr)
  else if self.requiredBufferLength < 8 then (.error .panicked, rdr)
  else
    match readExact (self.requiredBufferLength - 8) rdr with
    | (.error e, rdr) => (.error (.error e), rdr)
    | (.ok bytes, rdr) =>
        let buffer := buffer.take 8 ++ bytes ++ buffer.drop self.requiredBufferLength
        (orPanic (self.decodeEvent checks buffer), rdr)

/-- Both calls, with a buffer chosen by the length the first one gives. -/
def readFrame (checks : Bool) (self : EventReader) (buffer : Nat → List UInt8) (rdr : ρ) :
    Except Fault EventWithHeader × EventReader × ρ :=
  match self.readRequiredBufferLength rdr with
  | (.error e, self, rdr) => (.error e, self, rdr)
  | (.ok length, self, rdr) =>
      let result := self.readEventInto checks rdr (buffer length)
      (result.1, self, result.2)

end EventReader

namespace IndexRecordReader

/-- The end of `read`, on the buffer it has filled. -/
def decodeRecord (buffer : List UInt8) : Option IndexRecord := do
  let flags ← EventHeaderFlags.fromBits (← buffer[3]?)
  let timestamp := UInt64.ofNat (beNat (← slice buffer 4 12))
  let timestamp := if timestamp = 0 then none else some timestamp
  let offset := beNat (← slice buffer 12 20)
  some ⟨PravegaTimestamp.fromNanoseconds timestamp, offset,
    EventHeaderFlags.contains flags EventHeaderFlags.randomAccessIndicator,
    EventHeaderFlags.contains flags EventHeaderFlags.discontinuityIndicator⟩

def readWhole {ρ : Type} [Read ρ] (rdr : ρ) : Except Fault IndexRecord × ρ :=
  match readExact IndexRecord.recordSize rdr with
  | (.error e, rdr) => (.error (.error e), rdr)
  | (.ok buffer, rdr) => (orPanic (decodeRecord buffer), rdr)

end IndexRecordReader

/-! ## In range -/

theorem slice_of_le {buffer : List UInt8} {first last : Nat} (h : first ≤ last)
    (h' : last ≤ buffer.length) : slice buffer first last = some ((buffer.take last).drop first) :=
  if_pos ⟨h, h'⟩

/-- A slice of what stands in the middle. -/
theorem slice_middle (pre mid post : List UInt8) {first last : Nat} (h : first ≤ last)
    (h' : last ≤ mid.length) :
    slice (pre ++ (mid ++ post)) (pre.length + first) (pre.length + last) =
      some ((mid.drop first).take (last - first)) := by
  rw [slice_of_le (by omega) (by simp only [List.length_append]; omega),
    List.take_length_add_append, List.drop_length_add_append,
    List.take_append_of_le_length h', List.take_drop, Nat.add_sub_cancel' h]

/-- What `read_exact` fills is filled to the end. -/
theorem length_of_readExact {ρ : Type} [Read ρ] [LawfulRead ρ] {n : Nat} {rdr rdr' : ρ}
    {bytes : List UInt8} (hr : LawfulRead.Ready rdr)
    (h : readExact n rdr = (.ok bytes, rdr')) : bytes.length = n := by
  obtain ⟨hfits, hshort⟩ := readExact_spec n rdr hr
  rcases Nat.lt_or_ge (LawfulRead.remaining rdr).length n with hlt | hge
  · obtain ⟨_, hread, _⟩ := hshort hlt
    rw [hread] at h
    cases h
  · obtain ⟨_, hread, _⟩ := hfits hge
    rw [hread] at h
    injection h with h
    injection h with h
    rw [← h, List.length_take, Nat.min_eq_left hge]

namespace EventReader

/-- A length was read. -/
structure Sized (reader : EventReader) : Prop where
  least : 12 ≤ reader.eventLength
  most : 8 + reader.eventLength ≤ EventWithHeader.maxAtomicWriteSize
  required : reader.requiredBufferLength = 8 + reader.eventLength

variable {ρ : Type} [Read ρ]

theorem readFrame_of_length {checks : Bool} {self self' : EventReader}
    {buffer : Nat → List UInt8} {rdr r r' : ρ} {length : Nat}
    {x : Except Fault EventWithHeader}
    (h : self.readRequiredBufferLength rdr = (.ok length, self', r))
    (h' : self'.readEventInto checks r (buffer length) = (x, r')) :
    self.readFrame checks buffer rdr = (x, self', r') := by
  rw [readFrame, h]
  dsimp only
  rw [h']

/-- On a buffer whose first eight bytes are not looked at. -/
theorem decodeEvent_middle {checks : Bool} {self : EventReader} {pad bytes rest : List UInt8}
    (hself : self.Sized) (hpad : pad.length = 8) (hbytes : bytes.length = self.eventLength) :
    self.decodeEvent checks (pad ++ (bytes ++ rest)) =
      (EventHeaderFlags.fromBits (bytes.getD 3 0)).map fun flags =>
        let timestamp := UInt64.ofNat (beNat ((bytes.drop 4).take 8))
        ⟨⟨PravegaTimestamp.fromNanoseconds (if timestamp = 0 then none else some timestamp),
          EventHeaderFlags.contains flags EventHeaderFlags.includeInIndex,
          EventHeaderFlags.contains flags EventHeaderFlags.randomAccessIndicator,
          EventHeaderFlags.contains flags EventHeaderFlags.discontinuityIndicator⟩,
          (bytes.drop 12).take (self.eventLength - 12)⟩ := by
  obtain ⟨hleast, hmost, _⟩ := hself
  simp only [EventWithHeader.maxAtomicWriteSize] at hmost
  have hbyte : (pad ++ (bytes ++ rest))[11]? = some (bytes.getD 3 0) := by
    rw [List.getElem?_append_right (by omega), List.getElem?_append_left (by omega), hpad]
    simp [show 3 < bytes.length by omega]
  have htime : slice (pad ++ (bytes ++ rest)) 12 20 = some ((bytes.drop 4).take 8) := by
    have hslice := slice_middle pad bytes rest (show 4 ≤ 12 by decide) (by omega)
    rwa [hpad] at hslice
  have hpayload : slice (pad ++ (bytes ++ rest)) 20 (20 + (self.eventLength - 12)) =
      some ((bytes.drop 12).take (self.eventLength - 12)) := by
    have hslice := slice_middle pad bytes rest
      (Nat.le_add_right 12 (self.eventLength - 12)) (by omega)
    rwa [hpad, ← Nat.add_assoc, Nat.add_sub_cancel_left] at hslice
  have hsum : addU64 checks 20 (self.eventLength - 12) = some (20 + (self.eventLength - 12)) :=
    addU64_of_lt (by omega)
  simp only [decodeEvent, hbyte, htime, subU64_of_le hleast, hsum, hpayload,
    Option.bind_eq_bind, Option.bind_some]
  exact Option.map_eq_bind.symm

/-- Then `read_event` takes no slice out of range. -/
theorem readEventInto_eq [LawfulRead ρ] {checks : Bool} {self : EventReader} {rdr : ρ}
    {buffer : List UInt8} (hself : self.Sized) (hr : LawfulRead.Ready rdr)
    (hbuffer : self.requiredBufferLength ≤ buffer.length) :
    self.readEventInto checks rdr buffer = self.readEvent rdr buffer.length := by
  have hrequired := hself.required
  rw [readEventInto, readEvent, if_neg (Nat.not_lt.mpr hbuffer), if_neg (by omega),
    if_neg (Nat.not_lt.mpr hbuffer)]
  cases h : readExact (self.requiredBufferLength - 8) rdr with
  | mk result rdr' =>
  cases result with
  | error e => rfl
  | ok bytes =>
      dsimp only
      have hlen := length_of_readExact hr h
      have hpad : (buffer.take 8).length = 8 := by
        rw [List.length_take]
        omega
      rw [List.append_assoc, decodeEvent_middle hself hpad (by omega)]
      cases EventHeaderFlags.fromBits (bytes.getD 3 0) with
      | none => rfl
      | some flags => rfl

end EventReader

theorem IndexRecordReader.readWhole_eq {ρ : Type} [Read ρ] [LawfulRead ρ] {rdr : ρ}
    (hr : LawfulRead.Ready rdr) : readWhole rdr = read rdr := by
  rw [readWhole, read]
  cases h : readExact IndexRecord.recordSize rdr with
  | mk result rdr' =>
  cases result with
  | error e => rfl
  | ok buffer =>
      dsimp only
      have hlen : buffer.length = 20 := length_of_readExact hr h
      have hbyte : buffer[3]? = some (buffer.getD 3 0) := by
        simp [show 3 < buffer.length by omega]
      have htime : slice buffer 4 12 = some ((buffer.drop 4).take 8) := by
        rw [slice_of_le (by decide) (by omega), List.take_drop]
      have hoffset : slice buffer 12 20 = some ((buffer.drop 12).take 8) := by
        rw [slice_of_le (by decide) (by omega), List.take_drop]
      simp only [decodeRecord, hbyte, htime, hoffset, Option.bind_eq_bind, Option.bind_some]
      rw [decode]
      cases EventHeaderFlags.fromBits (buffer.getD 3 0) with
      | none => rfl
      | some flags => rfl

/-! ## Any string -/

/-- The length that the first eight bytes give. -/
def eventLengthOf (bytes : List UInt8) : Nat := beNat ((bytes.take 8).drop 4)

def frameLengthOf (bytes : List UInt8) : Nat := 8 + eventLengthOf bytes

/-- The string begins with as many bytes as its first ones announce, and they announce
a length that is allowed. -/
structure FrameAhead (bytes : List UInt8) : Prop where
  header : 8 ≤ bytes.length
  least : 12 ≤ eventLengthOf bytes
  most : frameLengthOf bytes ≤ EventWithHeader.maxAtomicWriteSize
  whole : frameLengthOf bytes ≤ bytes.length

/-- What a frame is read as. -/
def eventOf (frame : List UInt8) : EventWithHeader :=
  let flags := frame.getD 11 0
  let timestamp := UInt64.ofNat (beNat ((frame.drop 12).take 8))
  ⟨⟨PravegaTimestamp.fromNanoseconds (if timestamp = 0 then none else some timestamp),
    EventHeaderFlags.contains flags EventHeaderFlags.includeInIndex,
    EventHeaderFlags.contains flags EventHeaderFlags.randomAccessIndicator,
    EventHeaderFlags.contains flags EventHeaderFlags.discontinuityIndicator⟩,
    frame.drop 20⟩

theorem EventHeaderFlags.fromBits_eq {bits flags : UInt8}
    (h : EventHeaderFlags.fromBits bits = some flags) : flags = bits := by
  rw [EventHeaderFlags.fromBits] at h
  split at h
  · injection h with h
    exact h.symm
  · cases h

namespace EventReader

variable {ρ : Type} [Read ρ] [LawfulRead ρ] {checks : Bool} {self : EventReader} {rdr : ρ}
  {buffer : Nat → List UInt8}

open LawfulRead

/-- The first call, where the length is there. -/
theorem readRequiredBufferLength_of_header (self : EventReader) (hr : Ready rdr)
    (h : 8 ≤ (remaining rdr).length) :
    ∃ rdr', Ready rdr' ∧ remaining rdr' = (remaining rdr).drop 8 ∧
      position rdr' = position rdr + 8 ∧
      self.readRequiredBufferLength rdr =
        if eventLengthOf (remaining rdr) < 12 ∨
            frameLengthOf (remaining rdr) > EventWithHeader.maxAtomicWriteSize then
          (.error (.error ⟨.invalidData,
              s!"Invalid event length {eventLengthOf (remaining rdr)}"⟩),
            ⟨(remaining rdr).take 8, eventLengthOf (remaining rdr),
              self.requiredBufferLength⟩, rdr')
        else
          (.ok (frameLengthOf (remaining rdr)),
            ⟨(remaining rdr).take 8, eventLengthOf (remaining rdr),
              frameLengthOf (remaining rdr)⟩, rdr') := by
  obtain ⟨rdr', hread, hr', hrem, hpos⟩ := (readExact_spec 8 rdr hr).1 h
  refine ⟨rdr', hr', hrem, hpos, ?_⟩
  rw [readRequiredBufferLength, hread]
  rfl

/-- The second call, where the rest of the frame is there. -/
theorem readEventInto_of_body (checks : Bool) (hself : self.Sized) (hr : Ready rdr)
    {into frame : List UInt8} (hinto : self.requiredBufferLength ≤ into.length)
    (hlength : frame.length = self.requiredBufferLength)
    (hbody : (remaining rdr).take self.eventLength = frame.drop 8)
    (h : self.eventLength ≤ (remaining rdr).length) :
    ∃ rdr', self.readEventInto checks rdr into =
        (orPanic ((EventHeaderFlags.fromBits (frame.getD 11 0)).map fun _ => eventOf frame),
          rdr') ∧
      Ready rdr' ∧ remaining rdr' = (remaining rdr).drop self.eventLength ∧
      position rdr' = position rdr + self.eventLength := by
  have hrequired : self.requiredBufferLength - 8 = self.eventLength := by
    rw [hself.required, Nat.add_sub_cancel_left]
  obtain ⟨rdr', hread, hr', hrem, hpos⟩ :=
    (readExact_spec (self.requiredBufferLength - 8) rdr hr).1 (hrequired ▸ h)
  rw [hrequired] at hrem hpos
  refine ⟨rdr', ?_, hr', hrem, hpos⟩
  have hflags : (frame.drop 8).getD 3 0 = frame.getD 11 0 := by
    simp [List.getD_eq_getElem?_getD, List.getElem?_drop]
  have hpayload : ((frame.drop 8).drop 12).take (self.eventLength - 12) = frame.drop 20 := by
    rw [List.drop_drop]
    refine List.take_of_length_le ?_
    have := hself.required
    rw [List.length_drop]
    omega
  rw [readEventInto_eq hself hr hinto, readEvent, if_neg (Nat.not_lt.mpr hinto), hread,
    hrequired, hbody]
  dsimp only
  rw [hflags, hpayload, List.drop_drop]
  cases hbits : EventHeaderFlags.fromBits (frame.getD 11 0) with
  | none => rfl
  | some flags =>
      rw [EventHeaderFlags.fromBits_eq hbits]
      rfl

theorem readFrame_of_ahead (checks : Bool) (self : EventReader) (hr : Ready rdr)
    (hbuffer : ∀ n, n ≤ (buffer n).length)
    (h : FrameAhead (remaining rdr)) :
    ∃ self' rdr', self.readFrame checks buffer rdr =
        (orPanic ((EventHeaderFlags.fromBits ((remaining rdr).getD 11 0)).map fun _ =>
          eventOf ((remaining rdr).take (frameLengthOf (remaining rdr)))), self', rdr') ∧
      Ready rdr' ∧
      remaining rdr' = (remaining rdr).drop (frameLengthOf (remaining rdr)) ∧
      position rdr' = position rdr + frameLengthOf (remaining rdr) := by
  obtain ⟨hheader, hleast, hmost, hwhole⟩ := h
  obtain ⟨r, hr', hrem, hpos, hread⟩ :=
    readRequiredBufferLength_of_header self hr hheader
  rw [if_neg (by omega)] at hread
  have hself : Sized ⟨(remaining rdr).take 8, eventLengthOf (remaining rdr),
      frameLengthOf (remaining rdr)⟩ := ⟨hleast, hmost, rfl⟩
  have hlength : ((remaining rdr).take (frameLengthOf (remaining rdr))).length =
      frameLengthOf (remaining rdr) := by rw [List.length_take, Nat.min_eq_left hwhole]
  have hbody : (remaining r).take (eventLengthOf (remaining rdr)) =
      ((remaining rdr).take (frameLengthOf (remaining rdr))).drop 8 := by
    rw [hrem, List.take_drop]
    rfl
  have hrest : eventLengthOf (remaining rdr) ≤ (remaining r).length := by
    rw [hrem, List.length_drop]
    exact Nat.le_sub_of_add_le' hwhole
  obtain ⟨r', hevent, hr'', hrem', hpos'⟩ :=
    readEventInto_of_body checks hself hr' (hbuffer _) hlength hbody hrest
  have hflags : ((remaining rdr).take (frameLengthOf (remaining rdr))).getD 11 0 =
      (remaining rdr).getD 11 0 := by
    rw [List.getD_eq_getElem?_getD, List.getElem?_take_of_lt (by rw [frameLengthOf]; omega)]
    rfl
  rw [hflags] at hevent
  refine ⟨_, r', readFrame_of_length hread hevent, hr'', ?_, ?_⟩
  · rw [hrem', hrem, List.drop_drop]
    rfl
  · rw [hpos', hpos]
    exact Nat.add_assoc ..

theorem readFrame_of_not_ahead (checks : Bool) (self : EventReader) (hr : Ready rdr)
    (hbuffer : ∀ n, n ≤ (buffer n).length)
    (h : ¬ FrameAhead (remaining rdr)) :
    ∃ e self' rdr', self.readFrame checks buffer rdr = (.error (.error e), self', rdr') := by
  rcases Nat.lt_or_ge (remaining rdr).length 8 with hlt | hge
  · obtain ⟨r, hread, _⟩ := (readExact_spec 8 rdr hr).2 hlt
    exact ⟨_, self, r, by rw [readFrame, readRequiredBufferLength, hread]⟩
  obtain ⟨r, hr', hrem, hpos, hread⟩ :=
    readRequiredBufferLength_of_header self hr hge
  split at hread
  · exact ⟨_, _, r, by rw [readFrame, hread]⟩
  · next hvalid =>
      have hself : Sized ⟨(remaining rdr).take 8, eventLengthOf (remaining rdr),
          frameLengthOf (remaining rdr)⟩ := ⟨by dsimp only; omega, by
        rw [frameLengthOf] at hvalid
        dsimp only
        omega, rfl⟩
      have hshort : (remaining rdr).length < frameLengthOf (remaining rdr) := by
        by_contra hwhole
        exact h ⟨hge, by omega, by omega, by omega⟩
      obtain ⟨r', hbody, _⟩ :=
        (readExact_spec (frameLengthOf (remaining rdr) - 8) r hr').2 (by
          rw [hrem, List.length_drop]
          omega)
      refine ⟨⟨.unexpectedEof, "failed to fill whole buffer"⟩, _, r',
        readFrame_of_length hread ?_⟩
      rw [readEventInto_eq hself hr' (hbuffer _), readEvent,
        if_neg (Nat.not_lt.mpr (hbuffer _)), hbody]

end EventReader

end GstPravega.Video
