import GstPravega.Plugin.Src
import GstPravega.Proofs.IndexSearch

/-!
# What the source reads

Once the reader stands at an offset with the bytes up to the end position ahead
of it (`Started.At`), how the bytes come (in what pieces, through which buffer)
does not matter any more: the buffers that `create` gives are the events these
bytes spell. What is left is to see that `start` sets the end position and that
a seek leads to such a state, or, past the end position, to the state with
nothing ahead.
-/

namespace GstPravega.Plugin.PravegaSrc

open GstPravega.Lib GstPravega.Client GstPravega.Gst GstPravega.Video

open LawfulRead

/-! ## `create` -/

/-- The reader stands at `offset`, and `rest` lies ahead of it. -/
structure Started.At (st : Started) (offset : Nat) (rest : List UInt8) : Prop where
  ready : Ready st.reader
  position : position st.reader = offset
  remaining : remaining st.reader = rest

/-- The buffer of an event with its offset. -/
def bufferAt (x : Nat × Event) : Buffer :=
  bufferOf x.2.toEventWithHeader x.1 (x.1 + x.2.frame.length)

theorem createStarted_frame {st : Started} {o : Nat} {e : Event} {rest : List UInt8}
    (h : st.At o (e.frame ++ rest)) :
    ∃ st', createStarted st = (.ok (bufferAt (o, e)), st') ∧
      st'.At (o + e.frame.length) rest := by
  obtain ⟨reader, r, r', hlength, hevent, hready, hrem, hpos⟩ :=
    EventReader.read_frame EventReader.new e h.ready h.remaining
  have hoffset : st.reader.offset = o := h.position
  have hoffsetEnd : r'.offset = o + e.frame.length := by
    rw [← hoffset]
    exact hpos
  refine ⟨{ st with reader := r' }, ?_, hready, hoffsetEnd, hrem⟩
  rw [createStarted, CountingReader.streamPosition_eq]
  dsimp only
  rw [hlength]
  dsimp only
  rw [hevent]
  dsimp only
  rw [CountingReader.streamPosition_eq]
  dsimp only
  rw [hoffset, hoffsetEnd, bufferAt]

theorem createStarted_end {st : Started} {o : Nat} (h : st.At o []) :
    ∃ st', createStarted st = (.error .eos, st') := by
  obtain ⟨r, hlength, _⟩ :=
    EventReader.readRequiredBufferLength_eof EventReader.new h.ready h.remaining
  refine ⟨{ st with reader := r }, ?_⟩
  rw [createStarted, CountingReader.streamPosition_eq]
  dsimp only
  rw [hlength]
  rfl

/-- With whole frames ahead, `create` gives their events and then the end. -/
theorem emits_frames {st : Started} {o : Nat} {evs : List Event}
    (h : st.At o (evs.flatMap Event.frame)) :
    Emits (.started st) ((layout Event.frame o evs).map bufferAt) .eos := by
  induction evs generalizing st o with
  | nil =>
      obtain ⟨st', hcreate⟩ := createStarted_end h
      have hstop : create (.started st) = (.error .eos, .started st') := by
        rw [create, hcreate]
      exact .stop hstop
  | cons e evs ih =>
      rw [List.flatMap_cons] at h
      obtain ⟨st', hcreate, hat⟩ := createStarted_frame h
      have hmore : create (.started st) = (.ok (bufferAt (o, e)), .started st') := by
        rw [create, hcreate]
      exact .more hmore (ih hat)

/-! ## Seeking -/

/-- The reader stack is over the data of `w` and ends at `endPosition`. -/
structure Started.Over (st : Started) (w : Streams) (endPosition : Nat) : Prop where
  streams : st.streams = w
  stream : st.reader.inner.inner.inner.inner.stream = w.data
  endPosition : st.reader.inner.inner.endPosition = endPosition

theorem seekTo_at {st : Started} {w : Streams} {o endPosition : Nat}
    (h : st.Over w endPosition) (hhead : w.data.head ≤ o) (hle : o ≤ endPosition)
    (hend : endPosition ≤ w.data.tail) :
    ∃ st', seekTo o st = .ok st' ∧
      st'.At o ((w.data.bytes.drop o).take (endPosition - o)) := by
  have htail := w.data.tail_lt
  rw [← ByteStream.tail] at htail
  have hseek := CountingReader.seek_start (BufReader.seek_start (SeekableTake.seek_of_le
    (ByteReader.seek_start st.reader.inner.inner.inner.inner (show o < 2 ^ 63 by omega))
    (by rw [h.endPosition]; exact hle)))
  refine ⟨_, by rw [seekTo, hseek], ⟨Or.inr ⟨?_, ?_⟩, Nat.zero_le _⟩, rfl, ?_⟩
  · show st.reader.inner.inner.inner.inner.stream.head ≤ o
    rw [h.stream]
    exact hhead
  · show st.reader.inner.inner.endPosition - o ≤
      (st.reader.inner.inner.inner.inner.stream.bytes.drop o).length
    rw [h.stream, h.endPosition, List.length_drop]
    rw [ByteStream.tail] at hend
    omega
  · show [] ++ (st.reader.inner.inner.inner.inner.stream.bytes.drop o).take
      (st.reader.inner.inner.endPosition - o) = _
    rw [h.stream, h.endPosition, List.nil_append]

/-- Past the end position there is nothing ahead. -/
theorem seekTo_past {st : Started} {w : Streams} {o endPosition : Nat}
    (h : st.Over w endPosition) (hlt : o < 2 ^ 63) (hpast : endPosition < o) :
    ∃ st', seekTo o st = .ok st' ∧ st'.At endPosition [] := by
  have hgt : st.reader.inner.inner.endPosition < o := by
    rw [h.endPosition]
    exact hpast
  have hseek := CountingReader.seek_start (BufReader.seek_start (SeekableTake.seek_of_gt
    (ByteReader.seek_start st.reader.inner.inner.inner.inner hlt) hgt
    (ByteReader.seek_start _ (show st.reader.inner.inner.endPosition < 2 ^ 63 by omega))))
  refine ⟨_, by rw [seekTo, hseek], ⟨Or.inl rfl, Nat.zero_le _⟩, ?_, ?_⟩
  · exact h.endPosition
  · show [] ++ (List.take 0 _) = _
    rw [List.take_zero, List.nil_append]

/-- The initial seek without the index. -/
theorem doSeek_noSeek {checks : Bool} {settings : Settings} {st st' : Started} {w : Streams}
    {endPosition : Nat} (hstart : settings.startMode = .noSeek) (h : st.Over w endPosition)
    (hseek : seekTo w.data.head st = .ok st') :
    doSeek checks settings Segment.initial (.started st) =
      .ok (true, ⟨some 0, some 0, some 0⟩, st') := by
  have hhead : st.reader.inner.inner.inner.inner.currentHead = .ok w.data.head := by
    rw [ByteReader.currentHead, h.stream]
  have hinitial : initialSeek Segment.initial = some true := rfl
  rw [doSeek, hinitial]
  dsimp only
  rw [if_pos ⟨rfl, hstart⟩, seekToHead, hhead]
  show (seekTo w.data.head st >>= fun st => _) = _
  rw [hseek]
  rfl

/-- The initial seek to a timestamp. -/
theorem doSeek_timestamp {checks : Bool} {settings : Settings} {st st' : Started}
    {record : IndexRecord} (hstart : settings.startMode = .timestamp)
    (hsearch : search st.streams (IndexSearcher.searchTimestamp checks .index
      (PravegaTimestamp.fromNanoseconds (some settings.startTimestamp))) = .ok record)
    (hseek : seekTo record.offset st = .ok st') :
    doSeek checks settings Segment.initial (.started st) =
      .ok (true, ⟨(pravegaToClocktime record.timestamp).stored,
        (pravegaToClocktime record.timestamp).stored, some 0⟩, st') := by
  have hinitial : initialSeek Segment.initial = some true := rfl
  have hmode : ¬ (true = true ∧ settings.startMode = .noSeek) := by
    rw [hstart]
    exact fun hf => nomatch hf.2
  have htime : initialSeekStartTimestamp settings =
      PravegaTimestamp.fromNanoseconds (some settings.startTimestamp) := by
    rw [initialSeekStartTimestamp, hstart]
  rw [doSeek, hinitial]
  dsimp only
  rw [if_neg hmode, if_pos rfl, htime, seekUsingIndex, hsearch]
  show (seekTo record.offset st >>= fun st => _) = _
  rw [hseek, hstart]
  rfl

/-! ## `start` -/

/-- The settings name a stream, and the client serves it. -/
def Answers (settings : Settings) (client : Client) : Prop :=
  ∃ scope stream controller, settings.scope = some scope ∧ settings.stream = some stream ∧
    settings.controller = some controller ∧
    client.createClientConfig controller settings.keycloakFile = .ok () ∧
    client.createStream scope stream = .ok () ∧
    client.createStream scope (stream ++ "-index") = .ok ()

/-- A limited reader asked for its position. -/
theorem seekableTake_current {r : SeekableTake ByteReader} (h : r.inner.inner.offset < 2 ^ 63) :
    ∃ o r', Seek.seek (.current 0) r = (.ok o, r') ∧
      r'.inner.inner.stream = r.inner.inner.stream ∧ r'.inner.inner.offset < 2 ^ 63 ∧
      r'.endPosition = r.endPosition := by
  have hseek := ByteReader.seek_current r.inner.inner h
  by_cases hle : r.inner.inner.offset ≤ r.endPosition
  · exact ⟨_, _, SeekableTake.seek_of_le hseek hle, rfl, h, rfl⟩
  · have hgt := Nat.lt_of_not_le hle
    have hlt : r.endPosition < 2 ^ 63 := Nat.lt_trans hgt h
    exact ⟨_, _, SeekableTake.seek_of_gt hseek hgt (ByteReader.seek_start _ hlt), rfl, hlt,
      rfl⟩

theorem openReader_spec (bufferSize endPosition : Nat) {reader : ByteReader}
    (h : reader.offset < 2 ^ 63) :
    ∃ r, openReader bufferSize endPosition reader = .ok r ∧
      r.inner.inner.inner.inner.stream = reader.stream ∧
      r.inner.inner.endPosition = endPosition := by
  obtain ⟨o, r, hseek, hstream, hlt, hend⟩ :=
    seekableTake_current (r := ⟨⟨reader, 2 ^ 64 - 1⟩, endPosition⟩) h
  obtain ⟨o', r', hseek', hstream', _, hend'⟩ := seekableTake_current hlt
  have hnew : SeekableTake.new reader endPosition = .ok r := by
    rw [SeekableTake.new, hseek]
  have hcount : CountingReader.new (BufReader.withCapacity bufferSize r) =
      .ok ⟨{ BufReader.withCapacity bufferSize r with inner := r' }, o'⟩ := by
    rw [CountingReader.new, streamPosition, BufReader.seek_current rfl hseek']
  refine ⟨⟨{ BufReader.withCapacity bufferSize r with inner := r' }, o'⟩, ?_,
    hstream'.trans hstream, hend'.trans hend⟩
  rw [openReader, hnew]
  show unwrap (CountingReader.new (BufReader.withCapacity bufferSize r)) = _
  rw [hcount]
  rfl

/-- A start that finds its end offset succeeds. -/
theorem start_over {checks : Bool} {settings : Settings} {client : Client}
    {endPosition : Nat} {reader : ByteReader} (hanswers : Answers settings client)
    (hend : endOffset checks settings client.streams
      (ByteReader.new client.streams.data client.isSealed client.fetched) =
        .ok (endPosition, reader))
    (hstream : reader.stream = client.streams.data) (hlt : reader.offset < 2 ^ 63) :
    ∃ st, start checks settings client .stopped = (.ok (), .started st) ∧
      st.Over client.streams endPosition := by
  obtain ⟨scope, stream, controller, hscope, hname, hcontroller, hconfig, hdata, hindex⟩ :=
    hanswers
  obtain ⟨r, hopen, hstream', hend'⟩ := openReader_spec settings.bufferSize endPosition hlt
  have hstart : startStopped checks settings client = .ok ⟨r, client.streams⟩ := by
    rw [startStopped, hscope, hname, hcontroller]
    simp only [require, hconfig, hdata, hindex, orSettings, hend, hopen, bind, Except.bind,
      pure, Except.pure]
  refine ⟨⟨r, client.streams⟩, ?_, rfl, hstream'.trans hstream, hend'⟩
  rw [start, hstart]

/-! ## The searches -/

theorem search_eq {α : Type} {w : Streams} {p : StreamM α} {a : α}
    {G : StreamCmd → Streams → Prop}
    (h : Program.Yields Streams.answer G p.run w (.ok a) w) : search w p = .ok a := by
  rw [search, h.1]

/-- A search finds a record. -/
theorem search_timestamp {w : Streams} {recs : List Record} (h : Holds w.index recs)
    (hne : recs ≠ []) (checks : Bool) (t : PravegaTimestamp) :
    (∃ i r, recs[i]? = some r ∧ Located recs t .before i ∧
      search w (IndexSearcher.searchTimestamp checks .index t) = .ok r.toIndexRecord) ∧
    ∃ i r, recs[i]? = some r ∧ Located recs t .after i ∧
      search w (IndexSearcher.searchTimestampAfter checks .index t) =
        .ok r.toIndexRecord := by
  have hindex : Holds (w.get .index) recs := h
  obtain ⟨i, r, hr, hloc, hrun⟩ := yields_searchTimestamp hindex checks hne t .before
  obtain ⟨j, r', hr', hloc', hrun'⟩ := yields_searchTimestamp hindex checks hne t .after
  exact ⟨⟨i, r, hr, hloc, search_eq (hrun.bindE (StreamM.yields_pure _))⟩,
    j, r', hr', hloc', search_eq (hrun'.bindE (StreamM.yields_pure _))⟩

end GstPravega.Plugin.PravegaSrc
