import GstPravega.Video.Decoding

/-!
# Encoders and decoders

What the writers emit the readers give back (`events_round_trip`). The converse is
weaker. On foreign bytes a reader can panic, at the one thing it insists on, the unused
bits of the flag byte (`readers_total_iff`); and of the rest of the unused bits it takes
any (`readers_accept`).
-/

namespace GstPravega.Video

open GstPravega.Lib LawfulRead

/-! ## A frame and its event -/

/-- A flag byte that is accepted is the one its flags make. -/
theorem flags_of_fromBits {bits : UInt8} {t : PravegaTimestamp}
    (h : EventHeaderFlags.fromBits bits = some bits) :
    EventHeader.flags ⟨t, EventHeaderFlags.contains bits EventHeaderFlags.includeInIndex,
      EventHeaderFlags.contains bits EventHeaderFlags.randomAccessIndicator,
      EventHeaderFlags.contains bits EventHeaderFlags.discontinuityIndicator⟩ = bits := by
  show EventHeader.flags ⟨⟨none⟩, _, _, _⟩ = bits
  revert h
  obtain ⟨⟨bits⟩⟩ := bits
  revert bits
  decide +kernel

/-- In a record the flag that it does not have is lost. -/
theorem indexFlags_of_fromBits {bits : UInt8} {t : PravegaTimestamp} {offset : Nat}
    (h : EventHeaderFlags.fromBits bits = some bits) :
    IndexRecord.flags ⟨t, offset,
      EventHeaderFlags.contains bits EventHeaderFlags.randomAccessIndicator,
      EventHeaderFlags.contains bits EventHeaderFlags.discontinuityIndicator⟩ =
      bits &&& ~~~EventHeaderFlags.includeInIndex := by
  show IndexRecord.flags ⟨⟨none⟩, 0, _, _⟩ = _
  revert h
  obtain ⟨⟨bits⟩⟩ := bits
  revert bits
  decide +kernel

/-- The eight bytes of a timestamp are the ones it is written as. -/
theorem timestamp_encode {bytes : List UInt8} (h : bytes.length = 8) :
    (let n := UInt64.ofNat (beNat bytes)
     beBytes 8 ((PravegaTimestamp.fromNanoseconds
      (if n = 0 then none else some n)).nanoseconds.getD 0).toNat) = bytes := by
  have hlt := beNat_lt bytes
  rw [h] at hlt
  have hnat : (UInt64.ofNat (beNat bytes)).toNat = beNat bytes := by
    rw [UInt64.toNat_ofNat']
    exact Nat.mod_eq_of_lt hlt
  have hbytes := beBytes_beNat bytes
  rw [h] at hbytes
  dsimp only
  split
  · next hzero =>
      rw [hzero] at hnat
      rw [← hbytes, ← hnat]
      rfl
  · show beBytes 8 (UInt64.ofNat (beNat bytes)).toNat = bytes
    rw [hnat, hbytes]

/-- What is written of an event that was read: its frame, but for the bytes that are
not looked at. -/
theorem encode_eventOf {frame : List UInt8} (h : 20 ≤ frame.length)
    (hlength : frame.length = frameLengthOf frame)
    (hflags : EventHeaderFlags.fromBits (frame.getD 11 0) = some (frame.getD 11 0)) :
    (eventOf frame).encode =
      [0, 0, 0, 0] ++ (frame.drop 4).take 4 ++ [0, 0, 0] ++ frame.drop 11 := by
  have hword : beBytes 4 ((frame.drop 20).length + 12) = (frame.drop 4).take 4 := by
    have hbytes := beBytes_beNat ((frame.drop 4).take 4)
    have hfour : ((frame.drop 4).take 4).length = 4 := by
      rw [List.length_take, List.length_drop]
      omega
    have hnat : beNat ((frame.drop 4).take 4) = (frame.drop 20).length + 12 := by
      rw [frameLengthOf, eventLengthOf] at hlength
      rw [List.length_drop, show (frame.drop 4).take 4 = (frame.take 8).drop 4 from
        List.take_drop]
      omega
    rwa [hfour, hnat] at hbytes
  have height : ((frame.drop 12).take 8).length = 8 := by
    rw [List.length_take, List.length_drop]
    omega
  have hrest : frame.drop 11 =
      frame.getD 11 0 :: ((frame.drop 12).take 8 ++ frame.drop 20) := by
    have hlt : 11 < frame.length := by omega
    rw [List.drop_eq_getElem_cons hlt, List.getD_eq_getElem?_getD,
      List.getElem?_eq_getElem hlt, Option.getD_some]
    have hsplit := List.take_append_drop 8 (frame.drop 12)
    rw [List.drop_drop] at hsplit
    rw [hsplit]
  have htime := timestamp_encode height
  dsimp only at htime
  rw [EventWithHeader.encode, eventOf]
  dsimp only
  rw [hword, flags_of_fromBits hflags, htime, hrest]
  simp

theorem drop_encode (e : EventWithHeader) : e.encode.drop 12 =
    beBytes 8 (e.header.timestamp.nanoseconds.getD 0).toNat ++ e.payload := by
  have hpre : ([0, 0, 0, 0] ++ beBytes 4 (e.payload.length + 12) ++
      [0, 0, 0, e.header.flags]).length = 12 := by simp
  rw [EventWithHeader.encode, List.append_assoc]
  exact List.drop_left' hpre

theorem eventOf_encode (e : EventWithHeader) : eventOf e.encode = e.normalize := by
  obtain ⟨hi, hr, hd⟩ := e.header.contains_flags
  have height := length_beBytes 8 (e.header.timestamp.nanoseconds.getD 0).toNat
  have htime : (e.encode.drop 12).take 8 =
      beBytes 8 (e.header.timestamp.nanoseconds.getD 0).toNat := by
    rw [drop_encode, List.take_left' height]
  have hpayload : e.encode.drop 20 = e.payload := by
    rw [← List.drop_drop (i := 8) (j := 12), drop_encode, List.drop_left' height]
  have hbits : e.encode.getD 11 0 = e.header.flags := rfl
  have htimestamp := EventWithHeader.timestamp_decode e.header.timestamp e rfl
  dsimp only at htimestamp
  rw [eventOf, hbits, hi, hr, hd, htime, hpayload, htimestamp]
  rfl

/-- Whatever stands behind it. -/
theorem frameAhead_encode {e : EventWithHeader} (rest : List UInt8)
    (h : e.payload.length ≤ EventWithHeader.maxPayloadSize) :
    FrameAhead (e.encode ++ rest) ∧ frameLengthOf (e.encode ++ rest) = e.encode.length ∧
      EventHeaderFlags.fromBits ((e.encode ++ rest).getD 11 0) = some e.header.flags := by
  have hlen := e.length_encode
  have hmax : e.payload.length + 20 ≤ EventWithHeader.maxAtomicWriteSize := by
    simp only [EventWithHeader.maxPayloadSize, EventWithHeader.maxAtomicWriteSize] at h ⊢
    omega
  have hlength : eventLengthOf (e.encode ++ rest) = e.payload.length + 12 := by
    show beNat (beBytes 4 (e.payload.length + 12)) = _
    refine beNat_beBytes_of_lt ?_
    simp only [EventWithHeader.maxAtomicWriteSize] at hmax
    omega
  have hframe : frameLengthOf (e.encode ++ rest) = e.encode.length := by
    rw [frameLengthOf, hlength, hlen]
    omega
  refine ⟨⟨?_, ?_, ?_, ?_⟩, hframe, e.header.fromBits_flags⟩
  · rw [List.length_append]
    omega
  · omega
  · omega
  · rw [hframe, List.length_append]
    exact Nat.le_add_right _ _

/-! ## From the writer to the reader -/

/-- `EventWriter::write` into a writer that takes all. -/
def EventWriter.writeTo (event : EventWithHeader) (writer : List UInt8) :
    Except IoError Unit × List UInt8 :=
  match EventWriter.write event with
  | .error e => (.error e, writer)
  | .ok bytes => (.ok (), writer ++ bytes)

def writeEvents : List EventWithHeader → List UInt8 → Except IoError Unit × List UInt8
  | [], writer => (.ok (), writer)
  | event :: events, writer =>
      match EventWriter.writeTo event writer with
      | (.error e, writer) => (.error e, writer)
      | (.ok (), writer) => writeEvents events writer

/-- One event for each buffer. -/
def readFrames {ρ : Type} [Read ρ] (checks : Bool) :
    List (Nat → List UInt8) → EventReader → ρ →
      Except Fault (List EventWithHeader) × EventReader × ρ
  | [], reader, rdr => (.ok [], reader, rdr)
  | buffer :: buffers, reader, rdr =>
      match reader.readFrame checks buffer rdr with
      | (.error e, reader, rdr) => (.error e, reader, rdr)
      | (.ok event, reader, rdr) =>
          match readFrames checks buffers reader rdr with
          | (.error e, reader, rdr) => (.error e, reader, rdr)
          | (.ok events, reader, rdr) => (.ok (event :: events), reader, rdr)

/-- It is what `write` does with a vector. -/
theorem writeInto_vec (fuel : Nat) (event : EventWithHeader) (writer : List UInt8) :
    EventWriter.writeInto (fuel + 1) event (⟨writer⟩ : VecWriter) =
      ((EventWriter.writeTo event writer).1.mapError Fault.error,
        ⟨(EventWriter.writeTo event writer).2⟩) := by
  rw [EventWriter.writeInto, EventWriter.writeTo]
  cases hwrite : EventWriter.write event with
  | error e => rfl
  | ok bytes =>
      cases bytes with
      | nil =>
          dsimp only
          rw [List.append_nil]
          rfl
      | cons b bytes =>
          have hall : writeAll (fuel + 1) (b :: bytes) (⟨writer⟩ : VecWriter) =
              writeAll fuel ((b :: bytes).drop (bytes.length + 1))
                (⟨writer ++ b :: bytes⟩ : VecWriter) := rfl
          have hrest : (b :: bytes).drop (bytes.length + 1) = [] :=
            List.drop_of_length_le (Nat.le_refl _)
          dsimp only
          rw [hall, hrest, writeAll]
          rfl

theorem writeTo_of_le {e : EventWithHeader} {writer : List UInt8}
    (h : e.payload.length ≤ EventWithHeader.maxPayloadSize) :
    EventWriter.writeTo e writer = (.ok (), writer ++ e.encode) := by
  rw [EventWriter.writeTo, EventWriter.write, if_neg (Nat.not_lt.mpr h)]

theorem writeEvents_of_le {events : List EventWithHeader} :
    ∀ {writer : List UInt8},
      (∀ e ∈ events, e.payload.length ≤ EventWithHeader.maxPayloadSize) →
      writeEvents events writer =
        (.ok (), writer ++ events.flatMap EventWithHeader.encode) := by
  induction events with
  | nil => exact fun {writer} _ => by rw [writeEvents, List.flatMap_nil, List.append_nil]
  | cons e events ih =>
      intro writer h
      rw [writeEvents, writeTo_of_le (h e List.mem_cons_self)]
      dsimp only
      rw [ih fun e' he' => h e' (List.mem_cons_of_mem e he'), List.append_assoc,
        List.flatMap_cons]

section Reading

variable {ρ : Type} [Read ρ] [LawfulRead ρ] {checks : Bool} {rdr : ρ}

/-- A reader at what was written of an event reads it, and no further. -/
theorem readFrame_encode (checks : Bool) (self : EventReader) {e : EventWithHeader}
    {rest : List UInt8} {buffer : Nat → List UInt8} (hr : Ready rdr)
    (he : e.payload.length ≤ EventWithHeader.maxPayloadSize)
    (hbuffer : ∀ n, n ≤ (buffer n).length) (h : remaining rdr = e.encode ++ rest) :
    ∃ self' rdr', self.readFrame checks buffer rdr = (.ok e.normalize, self', rdr') ∧
      Ready rdr' ∧ remaining rdr' = rest ∧
      position rdr' = position rdr + e.encode.length := by
  obtain ⟨hahead, hlength, hflags⟩ := frameAhead_encode rest he
  rw [← h] at hahead hlength hflags
  obtain ⟨self', rdr', hread, hr', hrem, hpos⟩ :=
    EventReader.readFrame_of_ahead checks self hr hbuffer hahead
  rw [hflags, hlength, h, List.take_left, Option.map_some, eventOf_encode] at hread
  rw [hlength, h, List.drop_left] at hrem
  rw [hlength] at hpos
  exact ⟨self', rdr', hread, hr', hrem, hpos⟩

/-- The induction is on the events; what stands behind them is arbitrary. -/
theorem readFrames_encode (checks : Bool) {events : List EventWithHeader}
    {rest : List UInt8} :
    ∀ {buffers : List (Nat → List UInt8)} (self : EventReader) {rdr : ρ}, Ready rdr →
      (∀ e ∈ events, e.payload.length ≤ EventWithHeader.maxPayloadSize) →
      buffers.length = events.length → (∀ b ∈ buffers, ∀ n, n ≤ (b n).length) →
      remaining rdr = events.flatMap EventWithHeader.encode ++ rest →
      ∃ self' rdr', readFrames checks buffers self rdr =
          (.ok (events.map EventWithHeader.normalize), self', rdr') ∧
        Ready rdr' ∧ remaining rdr' = rest ∧
        position rdr' =
          position rdr + (events.flatMap EventWithHeader.encode).length := by
  induction events with
  | nil =>
      intro buffers self rdr hr _ hlength _ h
      rw [List.length_eq_zero_iff.mp hlength]
      exact ⟨self, rdr, rfl, hr, h, rfl⟩
  | cons e events ih =>
      intro buffers self rdr hr hevents hlength hbuffers h
      cases buffers with
      | nil => cases hlength
      | cons buffer buffers =>
          rw [List.flatMap_cons, List.append_assoc] at h
          obtain ⟨self₁, rdr₁, hread, hr₁, hrem₁, hpos₁⟩ :=
            readFrame_encode checks self hr (hevents e List.mem_cons_self)
              (hbuffers buffer List.mem_cons_self) h
          obtain ⟨self', rdr', hreads, hr', hrem, hpos⟩ := ih self₁ hr₁
            (fun e' he' => hevents e' (List.mem_cons_of_mem e he'))
            (Nat.succ.inj hlength)
            (fun b hb => hbuffers b (List.mem_cons_of_mem buffer hb)) hrem₁
          refine ⟨self', rdr', ?_, hr', hrem, ?_⟩
          · rw [readFrames, hread]
            dsimp only
            rw [hreads]
            rfl
          · rw [hpos, hpos₁, List.flatMap_cons, List.length_append, Nat.add_assoc]

/-- At the end. -/
theorem readFrame_end {self : EventReader} {buffer : Nat → List UInt8} (hr : Ready rdr)
    (h : remaining rdr = []) :
    ∃ self' rdr', self.readFrame checks buffer rdr =
      (.error (.error ⟨.unexpectedEof, "failed to fill whole buffer"⟩), self', rdr') := by
  obtain ⟨rdr', heof, _⟩ := EventReader.readRequiredBufferLength_eof self hr h
  exact ⟨self, rdr', by rw [EventReader.readFrame, heof]⟩

end Reading

/-- Events that fit are read back one by one, a zero timestamp as none, up to the end of
what was written and no further. One that does not fit is refused and writes nothing. -/
theorem events_round_trip (checks : Bool) {events : List EventWithHeader}
    (h : ∀ e ∈ events, e.payload.length ≤ EventWithHeader.maxPayloadSize) :
    (∃ bytes, writeEvents events [] = (.ok (), bytes) ∧
      ∀ {ρ : Type} [Read ρ] [LawfulRead ρ] (self : EventReader) (rdr : ρ)
        (buffers : List (Nat → List UInt8)), Ready rdr → remaining rdr = bytes →
        buffers.length = events.length → (∀ b ∈ buffers, ∀ n, n ≤ (b n).length) →
        ∃ self' rdr', readFrames checks buffers self rdr =
            (.ok (events.map EventWithHeader.normalize), self', rdr') ∧
          remaining rdr' = [] ∧ position rdr' = position rdr + bytes.length ∧
          ∀ buffer, ∃ self'' rdr'', self'.readFrame checks buffer rdr' =
            (.error (.error ⟨.unexpectedEof, "failed to fill whole buffer"⟩),
              self'', rdr'')) ∧
    ∀ (e : EventWithHeader) (writer : List UInt8),
      EventWithHeader.maxPayloadSize < e.payload.length →
      ∃ message, EventWriter.writeTo e writer = (.error ⟨.invalidInput, message⟩, writer) := by
  refine ⟨⟨_, writeEvents_of_le h, ?_⟩, fun e writer he => ?_⟩
  · intro ρ _ _ self rdr buffers hr hrem hlength hbuffers
    rw [List.nil_append] at hrem ⊢
    obtain ⟨self', rdr', hread, hr', hrem', hpos⟩ := readFrames_encode checks self hr h hlength
      hbuffers (hrem.trans (List.append_nil _).symm)
    exact ⟨self', rdr', hread, hrem', hpos, fun buffer => readFrame_end hr' hrem'⟩
  · exact ⟨_, by rw [EventWriter.writeTo, EventWriter.write, if_pos he]⟩

/-- A zero timestamp, an empty payload, a reader that has a buffer to spare. -/
theorem events_round_trip_two :
    let events : List EventWithHeader :=
      [⟨⟨⟨some 0⟩, true, false, true⟩, [7, 8, 9]⟩, ⟨⟨⟨some 5⟩, false, true, false⟩, []⟩]
    ∃ bytes, writeEvents events [] = (.ok (), bytes) ∧ ∃ self' rdr',
      readFrames true [fun n => List.replicate n 0, fun n => List.replicate (n + 1) 1]
          EventReader.new (⟨bytes, 0⟩ : Cursor) =
        (.ok (events.map EventWithHeader.normalize), self', rdr') := by
  have hfits : ∀ e ∈ ([⟨⟨⟨some 0⟩, true, false, true⟩, [7, 8, 9]⟩,
      ⟨⟨⟨some 5⟩, false, true, false⟩, []⟩] : List EventWithHeader),
      e.payload.length ≤ EventWithHeader.maxPayloadSize := by decide
  obtain ⟨⟨bytes, hwrite, hread⟩, _⟩ := events_round_trip true hfits
  obtain ⟨self', rdr', h, _⟩ := hread EventReader.new (⟨bytes, 0⟩ : Cursor)
    [fun n => List.replicate n 0, fun n => List.replicate (n + 1) 1] trivial rfl rfl
    (by simp)
  exact ⟨bytes, hwrite, self', rdr', h⟩

/-! ## Bytes that nobody wrote -/

/-- A call gives a value or an error. -/
def Answers {α : Type} : Except Fault α → Prop
  | .ok _ => True
  | .error (.error _) => True
  | .error .panicked => False
  | .error .outOfFuel => False

theorem answers_orPanic {α : Type} {value : Option α} :
    Answers (orPanic value) ↔ value.isSome := by
  cases value with
  | none => simp [Answers, orPanic]
  | some a => exact ⟨fun _ => rfl, fun _ => trivial⟩

theorem answers_decode {buffer : List UInt8} : Answers (IndexRecordReader.decode buffer) ↔
    (EventHeaderFlags.fromBits (buffer.getD 3 0)).isSome := by
  rw [IndexRecordReader.decode]
  cases EventHeaderFlags.fromBits (buffer.getD 3 0) with
  | none => simp [Answers]
  | some flags => exact ⟨fun _ => rfl, fun _ => trivial⟩

section Foreign

variable {ρ : Type} [Read ρ] [LawfulRead ρ] {rdr : ρ}

theorem readWhole_of_le (hr : Ready rdr)
    (h : IndexRecord.recordSize ≤ (remaining rdr).length) :
    ∃ rdr', IndexRecordReader.readWhole rdr =
        (IndexRecordReader.decode ((remaining rdr).take IndexRecord.recordSize), rdr') ∧
      Ready rdr' ∧ remaining rdr' = (remaining rdr).drop IndexRecord.recordSize := by
  obtain ⟨rdr', hread, hr', hrem, _⟩ := (readExact_spec IndexRecord.recordSize rdr hr).1 h
  refine ⟨rdr', ?_, hr', hrem⟩
  rw [IndexRecordReader.readWhole_eq hr, IndexRecordReader.read, hread]

theorem readWhole_of_lt (hr : Ready rdr)
    (h : (remaining rdr).length < IndexRecord.recordSize) :
    ∃ rdr', IndexRecordReader.readWhole rdr =
      (.error (.error ⟨.unexpectedEof, "failed to fill whole buffer"⟩), rdr') := by
  obtain ⟨rdr', hread, _⟩ := (readExact_spec IndexRecord.recordSize rdr hr).2 h
  refine ⟨rdr', ?_⟩
  rw [IndexRecordReader.readWhole_eq hr, IndexRecordReader.read, hread]

theorem answers_readFrame (checks : Bool) (self : EventReader) {buffer : Nat → List UInt8}
    (hr : Ready rdr) (hbuffer : ∀ n, n ≤ (buffer n).length) :
    Answers (self.readFrame checks buffer rdr).1 ↔ (FrameAhead (remaining rdr) →
      (EventHeaderFlags.fromBits ((remaining rdr).getD 11 0)).isSome) := by
  by_cases hahead : FrameAhead (remaining rdr)
  · obtain ⟨self', rdr', hread, _⟩ :=
      EventReader.readFrame_of_ahead checks self hr hbuffer hahead
    rw [hread, answers_orPanic, Option.isSome_map]
    exact ⟨fun h _ => h, fun h => h hahead⟩
  · obtain ⟨e, self', rdr', hread⟩ :=
      EventReader.readFrame_of_not_ahead checks self hr hbuffer hahead
    rw [hread]
    exact ⟨fun _ h => absurd h hahead, fun _ => trivial⟩

theorem answers_readWhole (hr : Ready rdr) : Answers (IndexRecordReader.readWhole rdr).1 ↔
    (IndexRecord.recordSize ≤ (remaining rdr).length →
      (EventHeaderFlags.fromBits ((remaining rdr).getD 3 0)).isSome) := by
  rcases Nat.lt_or_ge (remaining rdr).length IndexRecord.recordSize with hlt | hge
  · obtain ⟨rdr', hread⟩ := readWhole_of_lt hr hlt
    rw [hread]
    exact ⟨fun _ h => absurd h (Nat.not_le.mpr hlt), fun _ => trivial⟩
  · obtain ⟨rdr', hread, _⟩ := readWhole_of_le hr hge
    have hbits : ((remaining rdr).take IndexRecord.recordSize).getD 3 0 =
        (remaining rdr).getD 3 0 := by
      rw [List.getD_eq_getElem?_getD, List.getElem?_take_of_lt (by decide)]
      rfl
    rw [hread, answers_decode, hbits]
    exact ⟨fun h _ => h, fun h => h hge⟩

/-- A reader panics if and only if the frame or the record is there and its flag byte
has a bit that is no flag. -/
theorem readers_total_iff (checks : Bool) (self : EventReader) {buffer : Nat → List UInt8}
    (hr : Ready rdr) (hbuffer : ∀ n, n ≤ (buffer n).length) :
    (Answers (self.readFrame checks buffer rdr).1 ↔ (FrameAhead (remaining rdr) →
      (EventHeaderFlags.fromBits ((remaining rdr).getD 11 0)).isSome)) ∧
    (Answers (IndexRecordReader.readWhole rdr).1 ↔
      (IndexRecord.recordSize ≤ (remaining rdr).length →
        (EventHeaderFlags.fromBits ((remaining rdr).getD 3 0)).isSome)) :=
  ⟨answers_readFrame checks self hr hbuffer, answers_readWhole hr⟩

end Foreign

/-- Forty bytes with flags that both readers know. -/
theorem readers_total_known :
    let rdr : Cursor := ⟨List.replicate 7 0 ++ [32] ++ List.replicate 32 0, 0⟩
    Answers (EventReader.new.readFrame true (List.replicate · 0) rdr).1 ∧
      Answers (IndexRecordReader.readWhole rdr).1 := by
  have hready : Ready (⟨List.replicate 7 0 ++ [32] ++ List.replicate 32 0, 0⟩ : Cursor) :=
    trivial
  obtain ⟨hframe, hrecord⟩ := readers_total_iff true EventReader.new hready
    fun n => Nat.le_of_eq List.length_replicate.symm
  exact ⟨hframe.mpr fun _ => by decide, hrecord.mpr fun _ => by decide⟩

/-- Twenty bytes that are a frame but for one more flag. -/
theorem readers_total_flagged : ¬ ∀ bytes : List UInt8,
    Answers (EventReader.new.readFrame true (List.replicate · 0) (⟨bytes, 0⟩ : Cursor)).1 ∧
      Answers (IndexRecordReader.readWhole (⟨bytes, 0⟩ : Cursor)).1 := by
  intro hall
  let bytes : List UInt8 := [0, 0, 0, 0, 0, 0, 0, 12, 0, 0, 0, 8, 0, 0, 0, 0, 0, 0, 0, 1]
  have hready : Ready (⟨bytes, 0⟩ : Cursor) := trivial
  have hflags := (answers_readFrame true EventReader.new hready
    fun n => Nat.le_of_eq List.length_replicate.symm).mp (hall bytes).1
  exact absurd (hflags ⟨by decide, by decide, by decide, by decide⟩) (by decide)

/-! ## What is accepted -/

section Accepted

variable {ρ : Type} [Read ρ] [LawfulRead ρ] {checks : Bool} {rdr rdr' : ρ}

/-- A whole frame, cut out of what it begins. -/
theorem FrameAhead.frame {bytes : List UInt8} (h : FrameAhead bytes) :
    let frame := bytes.take (frameLengthOf bytes)
    20 ≤ frame.length ∧ frame.length = frameLengthOf frame ∧
      frame.getD 11 0 = bytes.getD 11 0 ∧
      frame.length ≤ EventWithHeader.maxAtomicWriteSize := by
  obtain ⟨hheader, hleast, hmost, hwhole⟩ := h
  have hlen : (bytes.take (frameLengthOf bytes)).length = frameLengthOf bytes := by
    rw [List.length_take, Nat.min_eq_left hwhole]
  have htwenty : 20 ≤ frameLengthOf bytes := by
    rw [frameLengthOf]
    omega
  have hsame : frameLengthOf (bytes.take (frameLengthOf bytes)) = frameLengthOf bytes := by
    rw [frameLengthOf, eventLengthOf, List.take_take, Nat.min_eq_left (by omega)]
    rfl
  refine ⟨hlen.symm ▸ htwenty, hlen.trans hsame.symm, ?_, hlen.symm ▸ hmost⟩
  rw [List.getD_eq_getElem?_getD, List.getElem?_take_of_lt (by omega)]
  rfl

/-- The pieces of a frame. -/
theorem frame_pieces (frame : List UInt8) :
    frame.take 4 ++ (frame.drop 4).take 4 ++ (frame.drop 8).take 3 ++ frame.drop 11 =
      frame := by
  have hfour := List.take_append_drop 4 (frame.drop 4)
  have hthree := List.take_append_drop 3 (frame.drop 8)
  rw [List.drop_drop] at hfour hthree
  rw [List.append_assoc, List.append_assoc, hthree, hfour, List.take_append_drop]

/-- The frame that a reader accepts is the one its event is written as, but for the
type code and three of the reserved bytes. -/
theorem readFrame_accepts {self self' : EventReader} {buffer : Nat → List UInt8}
    {event : EventWithHeader} (hr : Ready rdr) (hbuffer : ∀ n, n ≤ (buffer n).length)
    (h : self.readFrame checks buffer rdr = (.ok event, self', rdr')) :
    ∃ typeCode length reserved rest, typeCode.length = 4 ∧ length.length = 4 ∧
      reserved.length = 3 ∧
      remaining rdr = (typeCode ++ length ++ reserved ++ rest) ++ remaining rdr' ∧
      EventWriter.write event = .ok ([0, 0, 0, 0] ++ length ++ [0, 0, 0] ++ rest) := by
  by_cases hahead : FrameAhead (remaining rdr)
  · obtain ⟨_, _, hread, _, hrem, _⟩ :=
      EventReader.readFrame_of_ahead checks self hr hbuffer hahead
    obtain ⟨htwenty, hlength, hbits, hmost⟩ := hahead.frame
    have hsplit := List.take_append_drop (frameLengthOf (remaining rdr)) (remaining rdr)
    rw [h] at hread
    injection hread with hevent hrest
    injection hrest with _ hrdr
    rw [← hrdr] at hrem
    rw [← hrem] at hsplit
    generalize (remaining rdr).take (frameLengthOf (remaining rdr)) = frame at *
    cases hflags : EventHeaderFlags.fromBits ((remaining rdr).getD 11 0) with
    | none =>
        rw [hflags] at hevent
        cases hevent
    | some flags =>
        have hfixed := EventHeaderFlags.fromBits_eq hflags
        rw [hflags] at hevent
        injection hevent with hevent
        rw [hfixed, ← hbits] at hflags
        refine ⟨frame.take 4, (frame.drop 4).take 4, (frame.drop 8).take 3, frame.drop 11,
          ?_, ?_, ?_, ?_, ?_⟩
        · rw [List.length_take]
          omega
        · rw [List.length_take, List.length_drop]
          omega
        · rw [List.length_take, List.length_drop]
          omega
        · rw [frame_pieces, hsplit]
        · have hfits : (eventOf frame).payload.length ≤ EventWithHeader.maxPayloadSize := by
            show (frame.drop 20).length ≤ _
            rw [List.length_drop]
            exact Nat.sub_le_sub_right hmost 20
          rw [hevent, EventWriter.write, if_neg (Nat.not_lt.mpr hfits),
            encode_eventOf htwenty hlength hflags]
  · obtain ⟨_, _, _, hread⟩ :=
      EventReader.readFrame_of_not_ahead checks self hr hbuffer hahead
    rw [h] at hread
    cases hread

/-- The record in a buffer, whose flags are the byte as it stands. -/
theorem decode_ok {buffer : List UInt8} {record : IndexRecord}
    (h : IndexRecordReader.decode buffer = .ok record) :
    EventHeaderFlags.fromBits (buffer.getD 3 0) = some (buffer.getD 3 0) ∧
      record =
        { timestamp := PravegaTimestamp.fromNanoseconds
            (if UInt64.ofNat (beNat ((buffer.drop 4).take 8)) = 0 then none
              else some (UInt64.ofNat (beNat ((buffer.drop 4).take 8))))
          offset := beNat ((buffer.drop 12).take 8)
          randomAccess := EventHeaderFlags.contains (buffer.getD 3 0)
            EventHeaderFlags.randomAccessIndicator
          discontinuity := EventHeaderFlags.contains (buffer.getD 3 0)
            EventHeaderFlags.discontinuityIndicator } := by
  rw [IndexRecordReader.decode] at h
  cases hflags : EventHeaderFlags.fromBits (buffer.getD 3 0) with
  | none =>
      rw [hflags] at h
      cases h
  | some flags =>
      rw [hflags] at h
      injection h with h
      rw [EventHeaderFlags.fromBits_eq hflags] at h ⊢
      exact ⟨rfl, h.symm⟩

/-- What is written of a record that was read. -/
theorem encode_of_decode {buffer : List UInt8} {record : IndexRecord}
    (hlen : buffer.length = IndexRecord.recordSize)
    (h : IndexRecordReader.decode buffer = .ok record) :
    record.encode = [0, 0, 0] ++
      (buffer.getD 3 0 &&& ~~~EventHeaderFlags.includeInIndex) :: buffer.drop 4 := by
  rw [IndexRecord.recordSize] at hlen
  have htime : ((buffer.drop 4).take 8).length = 8 := by
    rw [List.length_take, List.length_drop]
    omega
  have hoffset : ((buffer.drop 12).take 8).length = 8 := by
    rw [List.length_take, List.length_drop]
    omega
  have hwhole : (buffer.drop 12).take 8 = buffer.drop 12 :=
    List.take_of_length_le (by rw [List.length_drop]; omega)
  obtain ⟨hflags, rfl⟩ := decode_ok h
  have hnanos := timestamp_encode htime
  have hbytes := beBytes_beNat ((buffer.drop 12).take 8)
  have hsplit := List.take_append_drop 8 (buffer.drop 4)
  rw [hoffset, hwhole] at hbytes
  rw [List.drop_drop] at hsplit
  dsimp only at hnanos
  rw [IndexRecord.encode, indexFlags_of_fromBits hflags]
  dsimp only
  rw [hnanos, hwhole, hbytes, List.append_assoc, hsplit]
  rfl

/-- A zero timestamp is read as none. -/
theorem timestamp_of_decode {buffer : List UInt8} {record : IndexRecord}
    (h : IndexRecordReader.decode buffer = .ok record) (hsome : record.timestamp.isSome = true) :
    record.timestamp.nanoseconds.getD 0 ≠ 0 := by
  obtain ⟨_, rfl⟩ := decode_ok h
  dsimp only [PravegaTimestamp.fromNanoseconds, PravegaTimestamp.isSome] at hsome ⊢
  by_cases hzero : UInt64.ofNat (beNat ((buffer.drop 4).take 8)) = 0
  · rw [if_pos hzero] at hsome
    cases hsome
  · rw [if_neg hzero]
    exact hzero

/-- Of a record, all but three bytes and the flag that it does not have. -/
theorem readWhole_accepts {record : IndexRecord} (hr : Ready rdr)
    (h : IndexRecordReader.readWhole rdr = (.ok record, rdr'))
    (hsome : record.timestamp.isSome = true) :
    ∃ reserved flags rest, reserved.length = 3 ∧ rest.length = 16 ∧
      remaining rdr = (reserved ++ flags :: rest) ++ remaining rdr' ∧
      IndexRecordWriter.write record = .ok ([0, 0, 0] ++
        (flags &&& ~~~EventHeaderFlags.includeInIndex) :: rest) := by
  rcases Nat.lt_or_ge (remaining rdr).length IndexRecord.recordSize with hlt | hge
  · obtain ⟨_, hread⟩ := readWhole_of_lt hr hlt
    rw [h] at hread
    cases hread
  · obtain ⟨_, hread, _, hrem⟩ := readWhole_of_le hr hge
    have hlen : ((remaining rdr).take IndexRecord.recordSize).length =
        IndexRecord.recordSize := by rw [List.length_take, Nat.min_eq_left hge]
    have hsplit := List.take_append_drop IndexRecord.recordSize (remaining rdr)
    rw [h] at hread
    injection hread with hrecord hrdr
    rw [← hrdr] at hrem
    rw [← hrem] at hsplit
    have hencode := encode_of_decode hlen hrecord.symm
    have hvalid := timestamp_of_decode hrecord.symm hsome
    generalize (remaining rdr).take IndexRecord.recordSize = buffer at *
    rw [IndexRecord.recordSize] at hlen
    have hthree : 3 < buffer.length := by omega
    refine ⟨buffer.take 3, buffer.getD 3 0, buffer.drop 4, ?_, ?_, ?_, ?_⟩
    · rw [List.length_take]
      omega
    · rw [List.length_drop]
      omega
    · rw [List.getD_eq_getElem?_getD, List.getElem?_eq_getElem hthree, Option.getD_some,
        ← List.drop_eq_getElem_cons hthree, List.take_append_drop, hsplit]
    · rw [IndexRecordWriter.write, if_neg hvalid, hencode]

/-- What the readers accept is what the writers make of the event or the record, but for
bytes that are not looked at: of a frame the type code and three reserved bytes, of a
record three reserved bytes and the flag that only events have. -/
theorem readers_accept (checks : Bool) (hr : Ready rdr) :
    (∀ {self self' : EventReader} {buffer : Nat → List UInt8} {rdr' : ρ}
        {event : EventWithHeader}, (∀ n, n ≤ (buffer n).length) →
        self.readFrame checks buffer rdr = (.ok event, self', rdr') →
        ∃ typeCode length reserved rest, typeCode.length = 4 ∧ length.length = 4 ∧
          reserved.length = 3 ∧
          remaining rdr = (typeCode ++ length ++ reserved ++ rest) ++ remaining rdr' ∧
          EventWriter.write event = .ok ([0, 0, 0, 0] ++ length ++ [0, 0, 0] ++ rest)) ∧
    ∀ {rdr' : ρ} {record : IndexRecord},
      IndexRecordReader.readWhole rdr = (.ok record, rdr') →
      record.timestamp.isSome = true →
      ∃ reserved flags rest, reserved.length = 3 ∧ rest.length = 16 ∧
        remaining rdr = (reserved ++ flags :: rest) ++ remaining rdr' ∧
        IndexRecordWriter.write record = .ok ([0, 0, 0] ++
          (flags &&& ~~~EventHeaderFlags.includeInIndex) :: rest) :=
  ⟨fun hbuffer h => readFrame_accepts hr hbuffer h, fun h hsome => readWhole_accepts hr h hsome⟩

end Accepted

/-- A record with the flag of an event and a reserved bit: both are lost. -/
theorem readers_accept_record : ∃ reserved flags rest, reserved.length = 3 ∧
    rest.length = 16 ∧
    [0, 1, 0, 3, 0, 0, 0, 0, 0, 0, 0, 5, 0, 0, 0, 0, 0, 0, 0, 9] =
      (reserved ++ flags :: rest) ++ ([] : List UInt8) ∧
    IndexRecordWriter.write ⟨⟨some 5⟩, 9, true, false⟩ = .ok ([0, 0, 0] ++
      (flags &&& ~~~EventHeaderFlags.includeInIndex) :: rest) := by
  let bytes : List UInt8 := [0, 1, 0, 3, 0, 0, 0, 0, 0, 0, 0, 5, 0, 0, 0, 0, 0, 0, 0, 9]
  have hready : Ready (⟨bytes, 0⟩ : Cursor) := trivial
  have hread : IndexRecordReader.readWhole (⟨bytes, 0⟩ : Cursor) =
      (.ok ⟨⟨some 5⟩, 9, true, false⟩, ⟨bytes, 20⟩) := by decide +kernel
  exact (readers_accept true hready).2 hread rfl

/-- A frame whose type code is one. -/
theorem readers_accept_type_code : ¬ ∀ (bytes : List UInt8) (event : EventWithHeader)
    (self' : EventReader) (rdr' : Cursor),
    EventReader.new.readFrame true (List.replicate · 0) (⟨bytes, 0⟩ : Cursor) =
      (.ok event, self', rdr') → EventWriter.write event = .ok (bytes.take rdr'.pos) := by
  intro hall
  let bytes : List UInt8 := [0, 0, 0, 1, 0, 0, 0, 12, 0, 0, 0, 2, 0, 0, 0, 0, 0, 0, 0, 5]
  have hread : EventReader.new.readFrame true (List.replicate · 0) (⟨bytes, 0⟩ : Cursor) =
      (.ok ⟨⟨⟨some 5⟩, false, true, false⟩, []⟩,
        ⟨[0, 0, 0, 1, 0, 0, 0, 12], 12, 20⟩, ⟨bytes, 20⟩) := by decide +kernel
  exact absurd (hall bytes _ _ _ hread) (by decide +kernel)

end GstPravega.Video
