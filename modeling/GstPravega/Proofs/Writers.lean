import GstPravega.Proofs.IndexSearch

/-!
# Writing to a writer

An event is handed to `write_all`, an index record to a single `write`, and both results
are unwrapped. A writer that takes whole slices leaves the records in a row, and the
listing of the index then finds each of them at its place, wherever the head is. Any other
writer may take a part of a record, and nobody notices; and an error of the writer, which
both functions could return, makes them panic.
-/

namespace GstPravega.Video

open GstPravega.Lib GstPravega.Client GstPravega.Lib.Program

open LawfulWrite

variable {ω : Type} [Write ω]

/-! ## The listing -/

/-- Records one after the other, until one fails. -/
def writeRecords : List IndexRecord → ω → Except Fault Unit × ω
  | [], w => (.ok (), w)
  | record :: records, w =>
      match IndexRecordWriter.writeInto record w with
      | (.ok (), w) => writeRecords records w
      | (.error e, w) => (.error e, w)

/-- The writer takes every slice whole. -/
def AcceptsWhole (ω : Type) [Write ω] : Prop :=
  ∀ (bytes : List UInt8) (w : ω), bytes ≠ [] →
    ∃ w', Write.write bytes w = (.accepted bytes.length, w')

theorem writeInto_of_accepts [LawfulWrite ω] (haccepts : AcceptsWhole ω) {record : IndexRecord}
    (htimed : record.timestamp.nanoseconds.getD 0 ≠ 0) (w : ω) :
    ∃ w', IndexRecordWriter.writeInto record w = (.ok (), w') ∧
      written w' = written w ++ record.encode := by
  have hne : record.encode ≠ [] := List.cons_ne_nil _ _
  obtain ⟨w', hwrite⟩ := haccepts record.encode w hne
  obtain ⟨_, _, hwritten⟩ := write_accepted hne hwrite
  refine ⟨w', ?_, by rw [hwritten, List.take_length]⟩
  rw [IndexRecordWriter.writeInto, IndexRecordWriter.write, if_neg htimed]
  dsimp only
  rw [hwrite]

/-- A record without a timestamp does not reach the writer. -/
theorem writeInto_untimed {record : IndexRecord}
    (h : record.timestamp.nanoseconds.getD 0 = 0) (w : ω) :
    IndexRecordWriter.writeInto record w =
      (.error (.error ⟨.invalidInput, "Timestamp is none or 0"⟩), w) := by
  rw [IndexRecordWriter.writeInto, IndexRecordWriter.write, if_pos h]

theorem writeRecords_of_accepts [LawfulWrite ω] (haccepts : AcceptsWhole ω)
    (records : List IndexRecord) (w : ω)
    (htimed : ∀ record ∈ records, record.timestamp.nanoseconds.getD 0 ≠ 0) :
    ∃ w', writeRecords records w = (.ok (), w') ∧
      written w' = written w ++ records.flatMap IndexRecord.encode := by
  induction records generalizing w with
  | nil => exact ⟨w, rfl, (List.append_nil _).symm⟩
  | cons record records ih =>
      obtain ⟨w₁, hfirst, hwritten⟩ :=
        writeInto_of_accepts haccepts (htimed record List.mem_cons_self) w
      obtain ⟨w', hrest, hwritten'⟩ :=
        ih w₁ fun record h => htimed record (List.mem_cons_of_mem _ h)
      refine ⟨w', ?_, ?_⟩
      · rw [writeRecords, hfirst]
        exact hrest
      · rw [hwritten', hwritten, List.flatMap_cons, List.append_assoc]

section Listing

open IndexSearcher

variable {streams : Streams} {reader : Stream} {recs : List Record}

/-- From the `i`-th record on. The induction is on the number of records left. -/
theorem yields_getIndexRecordsFrom (h : Holds (streams.get reader) recs) (left : Nat) :
    ∀ {fuel i : Nat}, recs.length = i + left → left < fuel →
      Yields Streams.answer
        (ReadsRecords reader (streams.get reader).head (streams.get reader).tail)
        (getIndexRecordsFrom reader (streams.get reader).tail fuel
          (recordOffset streams reader i)).run streams
        (.ok ((recs.zipIdx.drop i).map fun x =>
          (x.1.toIndexRecord, recordOffset streams reader x.2))) streams := by
  induction left with
  | zero =>
      intro fuel i hlen hfuel
      obtain ⟨fuel, rfl⟩ := Nat.exists_eq_add_one.mpr hfuel
      have htail : recordOffset streams reader i = (streams.get reader).tail := by
        rw [h.tail_eq, hlen]
        rfl
      rw [getIndexRecordsFrom, htail, if_neg (Nat.lt_irrefl _),
        List.drop_of_length_le (by rw [List.length_zipIdx, hlen]; exact Nat.le_refl i)]
      exact StreamM.yields_pure _
  | succ left ih =>
      intro fuel i hlen hfuel
      obtain ⟨fuel, rfl⟩ := Nat.exists_eq_add_one.mpr (Nat.zero_lt_of_lt hfuel)
      have hi : i < recs.length := by omega
      have hlt : recordOffset streams reader i < (streams.get reader).tail := by
        have hle := recordOffset_le h hi
        exact Nat.lt_of_lt_of_le (Nat.lt_add_of_pos_right (by decide)) hle
      rw [getIndexRecordsFrom, if_pos hlt,
        List.drop_eq_getElem_cons (by rw [List.length_zipIdx]; exact hi), List.map_cons]
      refine Yields.bindE (yields_readRecord h (List.getElem?_eq_getElem hi)) ?_
      rw [← recordOffset_succ]
      refine Yields.bindE (ih (by omega) (by omega)) ?_
      rw [List.getElem_zipIdx, Nat.zero_add]
      exact StreamM.yields_pure _

/-- The listing starts at the head and gives every record with its place. -/
theorem run_getIndexRecords (h : Holds (streams.get reader) recs) :
    run Streams.answer (getIndexRecords reader).run streams =
      (.ok (recs.zipIdx.map fun x =>
        (x.1.toIndexRecord, recordOffset streams reader x.2)), streams) := by
  have hlen := length_le_tail h
  have hfuel : recs.length < (streams.get reader).tail + 1 := by omega
  have hlist := yields_getIndexRecordsFrom h recs.length (i := 0) (Nat.zero_add _).symm hfuel
  exact (Yields.bindE (StreamM.yields_currentHead (G := fun _ _ => True) trivial)
    (Yields.bindE (StreamM.yields_seekEnd trivial) (hlist.mono fun _ _ _ => trivial))).1

end Listing

theorem exists_records (records : List IndexRecord)
    (hfits : ∀ record ∈ records, record.offset < 2 ^ 64)
    (htimed : ∀ record ∈ records, record.timestamp.nanoseconds.getD 0 ≠ 0) :
    ∃ recs : List Record, recs.map Record.toIndexRecord = records := by
  induction records with
  | nil => exact ⟨[], rfl⟩
  | cons record records ih =>
      obtain ⟨recs, hrecs⟩ := ih (fun r hr => hfits r (List.mem_cons_of_mem _ hr))
        fun r hr => htimed r (List.mem_cons_of_mem _ hr)
      have hne : record.timestamp ≠ ⟨some 0⟩ := by
        intro h
        have hzero := htimed record List.mem_cons_self
        rw [h] at hzero
        exact hzero rfl
      exact ⟨⟨record, hfits record List.mem_cons_self, hne⟩ :: recs, by rw [List.map_cons, hrecs]⟩

/-- **What is written to an index is listed.** Records with a timestamp that are written to
a writer that takes whole slices are all there, and at whatever record the stream then
begins, the listing gives the records from there on, each with its offset in the stream. A
record without a timestamp is refused, and the writer is left as it was. -/
theorem index_round_trip [LawfulWrite ω] (haccepts : AcceptsWhole ω)
    (records : List IndexRecord) (hfits : ∀ record ∈ records, record.offset < 2 ^ 64)
    (htimed : ∀ record ∈ records, record.timestamp.nanoseconds.getD 0 ≠ 0) (w : ω)
    (hempty : written w = []) :
    (∃ w', writeRecords records w = (.ok (), w') ∧
      ∀ (streams : Streams) (reader : Stream) (k : Nat),
        (streams.get reader).bytes = written w' →
        (streams.get reader).head = 20 * k →
        (streams.get reader).head ≤ (streams.get reader).tail →
        run Streams.answer (IndexSearcher.getIndexRecords reader).run streams =
          (.ok ((records.zipIdx.drop k).map fun x => (x.1, 20 * x.2)), streams)) ∧
    ∀ (record : IndexRecord) (w : ω), record.timestamp.nanoseconds.getD 0 = 0 →
      ∃ e, IndexRecordWriter.writeInto record w = (.error (.error e), w) := by
  refine ⟨?_, fun record w h => ⟨_, writeInto_untimed h w⟩⟩
  obtain ⟨w', hwrite, hwritten⟩ := writeRecords_of_accepts haccepts records w htimed
  refine ⟨w', hwrite, fun streams reader k hbytes hhead hle => ?_⟩
  obtain ⟨recs, rfl⟩ := exists_records records hfits htimed
  have hframes : (streams.get reader).bytes = recs.flatMap Record.frame := by
    rw [hbytes, hwritten, hempty, List.nil_append, List.flatMap_map]
    rfl
  have hholds : Holds (streams.get reader) (recs.drop k) := by
    refine ⟨⟨k, hhead⟩, hle, ?_⟩
    rw [hframes, hhead]
    exact drop_flatMap_of_length Record.length_frame recs k
  rw [run_getIndexRecords hholds]
  refine congrArg (fun r => (Except.ok r, streams)) (List.ext_getElem ?_ fun i h₁ h₂ => ?_)
  · simp
  · simp [recordOffset, hhead, IndexRecord.recordSize, Nat.mul_add]

theorem vec_acceptsWhole : AcceptsWhole VecWriter := fun _ _ _ => ⟨_, rfl⟩

/-- Two records. -/
def twoRecords : List IndexRecord :=
  [⟨⟨some 1000000000⟩, 0, true, true⟩, ⟨⟨some 2000000000⟩, 300, true, false⟩]

/-- They are in the index, and the first of them has been truncated. -/
def truncatedStreams : Streams :=
  ⟨⟨0, [], ByteStream.nil_tail_lt⟩,
    ⟨20, twoRecords.flatMap IndexRecord.encode, by decide +kernel⟩⟩

theorem index_round_trip_truncated : ∃ w' : VecWriter,
    writeRecords twoRecords ⟨[]⟩ = (.ok (), w') ∧
    run Streams.answer (IndexSearcher.getIndexRecords .index).run truncatedStreams =
      (.ok [(⟨⟨some 2000000000⟩, 300, true, false⟩, 20)], truncatedStreams) := by
  obtain ⟨⟨w', hwrite, hlist⟩, _⟩ := index_round_trip vec_acceptsWhole twoRecords
    (by decide +kernel) (by decide +kernel) ⟨[]⟩ rfl
  have hrun : writeRecords twoRecords (⟨[]⟩ : VecWriter) =
      (.ok (), ⟨twoRecords.flatMap IndexRecord.encode⟩) := by decide +kernel
  cases hwrite.symm.trans hrun
  exact ⟨_, hwrite, hlist truncatedStreams .index 1 rfl rfl (by decide +kernel)⟩

/-! ## Parts of a record -/

section Contract

variable [LawfulWrite ω]

/-- How a function that writes is to end: all of the bytes are written, or it returns an
error. -/
def Respects (bytes : List UInt8) (w : ω) (r : Except Fault Unit × ω) : Prop :=
  (r.1 = .ok () ∧ written r.2 = written w ++ bytes) ∨ ∃ e, r.1 = .error (.error e)

theorem respects_event_iff {event : EventWithHeader}
    (hfits : event.payload.length ≤ EventWithHeader.maxPayloadSize) (w : ω) :
    (∃ fuel, Respects event.encode w (EventWriter.writeInto fuel event w)) ↔
      Takes event.encode w := by
  have hwrite : EventWriter.write event = .ok event.encode := by
    rw [EventWriter.write, if_neg (Nat.not_lt.mpr hfits)]
  constructor
  · rintro ⟨fuel, h⟩
    rw [EventWriter.writeInto, hwrite] at h
    dsimp only at h
    cases hall : writeAll fuel event.encode w with
    | mk r w' =>
        rw [hall] at h
        cases r with
        | ok _ => exact takes_of_writeAll hall
        | error e =>
            -- Neither the panic nor a loop that goes on is an end of the right kind.
            cases e <;> rcases h with ⟨h, _⟩ | ⟨_, h⟩ <;> cases h
  · intro h
    obtain ⟨fuel, w', hall⟩ := writeAll_of_takes h
    refine ⟨fuel, Or.inl ?_⟩
    rw [EventWriter.writeInto, hwrite]
    dsimp only
    rw [hall]
    exact ⟨rfl, written_of_writeAll hall⟩

theorem respects_record_iff {record : IndexRecord}
    (htimed : record.timestamp.nanoseconds.getD 0 ≠ 0) (w : ω) :
    Respects record.encode w (IndexRecordWriter.writeInto record w) ↔
      ∃ w', Write.write record.encode w = (.accepted IndexRecord.recordSize, w') := by
  have hlen : record.encode.length = IndexRecord.recordSize := record.length_encode
  have hne : record.encode ≠ [] := List.cons_ne_nil _ _
  rw [IndexRecordWriter.writeInto, IndexRecordWriter.write, if_neg htimed]
  dsimp only
  constructor
  · intro h
    cases hwrite : Write.write record.encode w with
    | mk r w' =>
        rw [hwrite] at h
        cases r with
        | accepted n =>
            obtain ⟨_, hle, hwritten⟩ := write_accepted hne hwrite
            rcases h with ⟨_, h⟩ | ⟨_, h⟩
            · rw [hwritten, List.append_cancel_left_eq] at h
              have hn := congrArg List.length h
              rw [List.length_take, Nat.min_eq_left hle, hlen] at hn
              exact ⟨w', by rw [hn]⟩
            · cases h
        | interrupted => rcases h with ⟨h, _⟩ | ⟨_, h⟩ <;> cases h
        | error _ => rcases h with ⟨h, _⟩ | ⟨_, h⟩ <;> cases h
  · rintro ⟨w', hwrite⟩
    rw [hwrite]
    obtain ⟨_, _, hwritten⟩ := write_accepted hne hwrite
    refine Or.inl ⟨rfl, ?_⟩
    rw [hwritten, ← hlen, List.take_length]

/-- **Where the writers respect the contract of a writer.** An event that fits in a frame
is written as it should be, or its error returned, if and only if the writer takes the
frame, in whatever pieces and with whatever interruptions. An index record with a timestamp
is, if and only if one call of the writer takes all of it. -/
theorem respects_iff (event : EventWithHeader) (record : IndexRecord) (w : ω)
    (hfits : event.payload.length ≤ EventWithHeader.maxPayloadSize)
    (htimed : record.timestamp.nanoseconds.getD 0 ≠ 0) :
    (event.encode.length = 20 + event.payload.length ∧
      ((∃ fuel, Respects event.encode w (EventWriter.writeInto fuel event w)) ↔
        Takes event.encode w)) ∧
    (record.encode.length = 20 ∧
      (Respects record.encode w (IndexRecordWriter.writeInto record w) ↔
        ∃ w', Write.write record.encode w = (.accepted 20, w'))) := by
  refine ⟨⟨?_, respects_event_iff hfits w⟩, record.length_encode, respects_record_iff htimed w⟩
  rw [EventWithHeader.length_encode]
  omega

end Contract

/-- A writer with a plan: each call takes at most so many bytes, or fails. Behind the plan
all is taken. -/
structure PlannedWriter where
  plan : List (Except IoError Nat)
  bytes : List UInt8
  deriving DecidableEq

instance : Write PlannedWriter where
  write bytes w :=
    match w.plan with
    | [] => (.accepted bytes.length, ⟨[], w.bytes ++ bytes⟩)
    | .ok n :: plan =>
        let n := min (max 1 n) bytes.length
        (.accepted n, ⟨plan, w.bytes ++ bytes.take n⟩)
    | .error e :: plan => (.error e, ⟨plan, w.bytes⟩)

theorem PlannedWriter.write_cases {bytes : List UInt8} {w w' : PlannedWriter} {a : WriteAnswer}
    (h : Write.write bytes w = (a, w')) :
    (∃ n, a = .accepted n ∧ min 1 bytes.length ≤ n ∧ n ≤ bytes.length ∧
      w'.bytes = w.bytes ++ bytes.take n) ∨
    ∃ e, a = .error e ∧ w'.bytes = w.bytes := by
  obtain ⟨plan, written⟩ := w
  cases plan with
  | nil =>
      cases h
      exact Or.inl ⟨_, rfl, Nat.min_le_right _ _, Nat.le_refl _, by rw [List.take_length]⟩
  | cons step plan =>
      cases step with
      | ok n =>
          cases h
          exact Or.inl ⟨_, rfl, by omega, Nat.min_le_right _ _, rfl⟩
      | error e =>
          cases h
          exact Or.inr ⟨e, rfl, rfl⟩

instance : LawfulWrite PlannedWriter where
  written w := w.bytes
  write_accepted hbytes h := by
    have hlen := List.length_pos_iff.mpr hbytes
    obtain ⟨n, ha, hn, hle, hwritten⟩ | ⟨e, ha, _⟩ := PlannedWriter.write_cases h
    · cases ha
      exact ⟨by omega, hle, hwritten⟩
    · cases ha
  write_interrupted h := by
    obtain ⟨n, ha, _⟩ | ⟨e, ha, _⟩ := PlannedWriter.write_cases h
    · cases ha
    · cases ha
  write_error h := by
    obtain ⟨n, ha, _⟩ | ⟨_, _, hwritten⟩ := PlannedWriter.write_cases h
    · cases ha
    · exact hwritten

def markerEvent : EventWithHeader := ⟨⟨⟨some 1000000000⟩, true, true, false⟩, [7]⟩

def markerRecord : IndexRecord := ⟨⟨some 1000000000⟩, 0, true, true⟩

/-- The event in two pieces, and the record in one. -/
theorem respects_iff_pieces :
    (∃ fuel, Respects markerEvent.encode (⟨[.ok 10], []⟩ : PlannedWriter)
      (EventWriter.writeInto fuel markerEvent ⟨[.ok 10], []⟩)) ∧
    Respects markerRecord.encode (⟨[.ok 20], []⟩ : PlannedWriter)
      (IndexRecordWriter.writeInto markerRecord ⟨[.ok 20], []⟩) := by
  have hfits : markerEvent.payload.length ≤ EventWithHeader.maxPayloadSize := by
    decide +kernel
  refine ⟨((respects_iff markerEvent markerRecord _ hfits (by decide +kernel)).1.2).mpr ?_,
    ((respects_iff markerEvent markerRecord _ hfits (by decide +kernel)).2.2).mpr
      ⟨⟨[], markerRecord.encode⟩, by decide +kernel⟩⟩
  have hfirst : Write.write markerEvent.encode (⟨[.ok 10], []⟩ : PlannedWriter) =
      (.accepted 10, ⟨[], markerEvent.encode.take 10⟩) := by decide +kernel
  have hsecond : Write.write (markerEvent.encode.drop 10)
      (⟨[], markerEvent.encode.take 10⟩ : PlannedWriter) =
      (.accepted 11, ⟨[], markerEvent.encode⟩) := by decide +kernel
  refine .piece (List.cons_ne_nil _ _) hfirst (by decide) ?_
  refine .piece (by decide +kernel) hsecond (by decide) ?_
  rw [show (markerEvent.encode.drop 10).drop 11 = [] by decide +kernel]
  exact .nil _

/-- Half of the record is written and the call returns `Ok`. An error of the writer makes
both calls panic. -/
theorem record_half_written :
    IndexRecordWriter.writeInto markerRecord (⟨[.ok 10], []⟩ : PlannedWriter) =
      (.ok (), ⟨[], markerRecord.encode.take 10⟩) ∧
    ¬ Respects markerRecord.encode (⟨[.ok 10], []⟩ : PlannedWriter)
      (IndexRecordWriter.writeInto markerRecord ⟨[.ok 10], []⟩) ∧
    (EventWriter.writeInto 1 markerEvent
      (⟨[.error ⟨.other, "disk full"⟩], []⟩ : PlannedWriter)).1 = .error .panicked := by
  have hhalf : IndexRecordWriter.writeInto markerRecord (⟨[.ok 10], []⟩ : PlannedWriter) =
      (.ok (), ⟨[], markerRecord.encode.take 10⟩) := by decide +kernel
  refine ⟨hhalf, ?_, by decide +kernel⟩
  rw [hhalf]
  rintro (⟨_, h⟩ | ⟨_, h⟩)
  · revert h
    decide +kernel
  · cases h

end GstPravega.Video
