import GstPravega.Proofs.LiveReader
import GstPravega.Proofs.TimeWindow

/-!
# A session of the source

An application seeks to and fro in a recording that is still being written and truncated,
and asks for buffers in between. Each call leaves the reader stack at some position, also
one that fails, so a seek that finds a record always puts it in front of the event of that
record: what was in the buffer, and where the limit was, is forgotten. From there on each
`create` takes one frame off the bytes. They may not all be there yet, but they are the
front of what will have been recorded in the end, and the reader is never behind the first
frame that it has not given.
-/

namespace GstPravega.Plugin.PravegaSrc

open GstPravega.Lib GstPravega.Client GstPravega.Gst GstPravega.Video

open LawfulRead

/-! ## `create` -/

section Create

variable {evs before after : List Event} {isSealed : Bool} {endPosition pos : Nat}
  {st st' : Started} {result : Except FlowError Buffer}

/-- The stack of a started source. -/
abbrev Started.Stands (st : Started) (isSealed : Bool) (endPosition pos : Nat) : Prop :=
  Stood st.streams.data isSealed endPosition pos st.reader

/-- The next event is there: within the bytes, and in front of the end position. -/
def There (w : Streams) (endPosition o : Nat) (after : List Event) : Prop :=
  ∃ e rest, after = e :: rest ∧ w.data.head ≤ o ∧ o + e.frame.length ≤ endPosition ∧
    o + e.frame.length ≤ w.data.tail

/-- What `create` gives where an event begins, or will begin. -/
def Gives (st : Started) (isSealed : Bool) (endPosition o : Nat) (after : List Event)
    (result : Except FlowError Buffer) (st' : Started) : Prop :=
  (∃ e rest, after = e :: rest ∧ result = .ok (bufferAt (o, e)) ∧
      st'.Stands isSealed endPosition (o + e.frame.length)) ∨
    ∃ pos', st'.Stands isSealed endPosition pos' ∧
      (∀ e rest, after = e :: rest → pos' < o + e.frame.length) ∧
      ((result = .error .eos ∧ Finished st.streams.data isSealed endPosition pos') ∨
        ((∃ f, result = .error (.failed f)) ∧ ¬There st.streams endPosition o after))

theorem flowError_eof {e : IoError} (h : e.kind = .unexpectedEof) (text : String) :
    flowError text (.error e) = .eos := if_pos h

theorem flowError_failed {e : IoError} (h : e.kind ≠ .unexpectedEof) (text : String) :
    flowError text (.error e) = .failed (.error .coreFailed (text ++ e.message)) := if_neg h

/-- Bytes of a frame that are cut off. -/
theorem not_there {o pos' : Nat} {e : Event} {rest : List Event} (hle : o ≤ pos')
    (hlt : pos' < o + e.frame.length) (hcut : Cut st.streams.data isSealed endPosition pos') :
    ¬There st.streams endPosition o (e :: rest) := by
  rintro ⟨e', rest', heq, hhead, -, htail⟩
  obtain ⟨rfl, rfl⟩ := List.cons.inj heq
  rcases hcut.2 with hgone | ⟨-, hshort⟩
  · omega
  · omega

/-- With an error the frame was not read to its end. -/
theorem gives_error {pos' : Nat} {e : IoError} (text : String)
    (hstands : st'.Stands isSealed endPosition pos') (hle : pos ≤ pos')
    (hshort : ∀ e rest, after = e :: rest → pos' < pos + e.frame.length)
    (hwhy : (e.kind = .unexpectedEof ∧ Finished st.streams.data isSealed endPosition pos') ∨
      (e.kind ≠ .unexpectedEof ∧ Cut st.streams.data isSealed endPosition pos')) :
    Gives st isSealed endPosition pos after (.error (flowError text (.error e))) st' := by
  refine Or.inr ⟨pos', hstands, hshort, ?_⟩
  rcases hwhy with ⟨hkind, hfinished⟩ | ⟨hkind, hcut⟩
  · rw [flowError_eof hkind]
    exact Or.inl ⟨rfl, hfinished⟩
  · rw [flowError_failed hkind]
    refine Or.inr ⟨⟨_, rfl⟩, ?_⟩
    cases after with
    | nil =>
        rintro ⟨_, _, heq, _⟩
        cases heq
    | cons event rest => exact not_there hle (hshort event rest rfl) hcut

/-- So many bytes of a frame. -/
theorem bytes_of_front {bytes piece : List UInt8} {k n : Nat} {e : Event} {rest : List Event}
    (hbytes : bytes <+: (before ++ e :: rest).flatMap Event.frame)
    (hpos : (before.flatMap Event.frame).length = pos)
    (hpiece : piece <+: bytes.drop (pos + k)) (hlength : piece.length = n)
    (hfits : k + n ≤ e.frame.length) : piece = (e.frame.drop k).take n := by
  have hfront := hpiece.trans (hbytes.drop (pos + k))
  rw [List.flatMap_append, ← List.drop_drop, ← hpos, List.drop_left, List.flatMap_cons,
    List.drop_append_of_le_length (by omega)] at hfront
  rw [List.prefix_iff_eq_take.mp hfront, hlength,
    List.take_append_of_le_length (by rw [List.length_drop]; omega)]

/-- `create` at an event gives it, or does not come to the end of its frame. -/
theorem createStarted_gives (hstands : st.Stands isSealed endPosition pos)
    (hbytes : st.streams.data.bytes <+: evs.flatMap Event.frame)
    (hsplit : evs = before ++ after) (hpos : (before.flatMap Event.frame).length = pos)
    (hcreate : createStarted st = (result, st')) :
    st'.streams = st.streams ∧ Gives st isSealed endPosition pos after result st' := by
  have hoffset : st.reader.offset = pos := hstands.at_pos.counted
  rw [createStarted, CountingReader.streamPosition_eq] at hcreate
  dsimp only at hcreate
  rcases hstands.readExact 8 with ⟨piece, r, hread, hlength, hpiece, hstands₁⟩ |
    ⟨e, r, pos', hread, hstands₁, hle, hlt, hwhy⟩
  · cases after with
    | nil =>
        -- There is no byte that could have been read.
        have hnone := hpiece.trans (hbytes.drop pos)
        rw [hsplit, List.append_nil, ← hpos, List.drop_length, List.prefix_nil] at hnone
        rw [hnone] at hlength
        cases hlength
    | cons event rest =>
        have hframe := event.length_frame
        rw [hsplit] at hbytes
        rw [bytes_of_front (k := 0) hbytes hpos hpiece hlength (by omega), List.drop_zero] at hread
        obtain ⟨reader, hlen, hrequired, hevent⟩ := EventReader.new.read_bytes event hread
        rw [hlen] at hcreate
        dsimp only at hcreate
        rcases hstands₁.readExact (event.frame.length - 8) with
          ⟨piece', r', hread', hlength', hpiece', hstands₂⟩ |
          ⟨e, r', pos', hread', hstands₂, hle, hlt, hwhy⟩
        · rw [bytes_of_front hbytes hpos hpiece' hlength' (by omega),
            List.take_of_length_le (Nat.le_of_eq List.length_drop)] at hread'
          rw [hevent hread'] at hcreate
          dsimp only at hcreate
          rw [CountingReader.streamPosition_eq] at hcreate
          dsimp only at hcreate
          have hend : pos + 8 + (event.frame.length - 8) = pos + event.frame.length := by omega
          rw [hend] at hstands₂
          have hoffset' : r'.offset = pos + event.frame.length := hstands₂.at_pos.counted
          rw [hoffset, hoffset'] at hcreate
          cases hcreate
          exact ⟨rfl, Or.inl ⟨event, rest, rfl, rfl, hstands₂⟩⟩
        · rw [EventReader.readEvent, hrequired, if_neg (Nat.lt_irrefl _), hread'] at hcreate
          cases hcreate
          refine ⟨rfl, gives_error _ hstands₂ (by omega) (fun e' rest' heq => ?_) hwhy⟩
          rw [← (List.cons.inj heq).1]
          omega
  · rw [EventReader.readRequiredBufferLength, hread] at hcreate
    cases hcreate
    refine ⟨rfl, gives_error _ hstands₁ hle (fun e' rest' _ => ?_) hwhy⟩
    have hframe := e'.length_frame
    omega

/-- At the end `create` says so, and stays there. -/
theorem createStarted_finished (hstands : st.Stands isSealed endPosition pos)
    (hhead : st.streams.data.head ≤ st.streams.data.tail)
    (hfinished : Finished st.streams.data isSealed endPosition pos)
    (hcreate : createStarted st = (result, st')) :
    result = .error .eos ∧ st'.streams = st.streams ∧ ∃ pos', pos ≤ pos' ∧
      st'.Stands isSealed endPosition pos' ∧
      Finished st.streams.data isSealed endPosition pos' := by
  have hle := hstands.at_pos.inner.le
  rw [createStarted, CountingReader.streamPosition_eq] at hcreate
  dsimp only at hcreate
  rcases hstands.readExact 8 with ⟨piece, r, hread, hlength, hpiece, hstands₁⟩ |
    ⟨e, r, pos', hread, hstands₁, hge, -, hwhy⟩
  · exfalso
    have hle' := hstands₁.at_pos.inner.le
    rcases hfinished with rfl | ⟨-, htail⟩
    · omega
    · rw [List.drop_eq_nil_of_le htail, List.prefix_nil] at hpiece
      rw [hpiece] at hlength
      cases hlength
  · rw [EventReader.readRequiredBufferLength, hread] at hcreate
    dsimp only at hcreate
    cases hcreate
    rcases hwhy with ⟨hkind, hend⟩ | ⟨-, hcut, hwhy⟩
    · exact ⟨by rw [flowError_eof hkind], rfl, pos', hge, hstands₁, hend⟩
    · exfalso
      rcases hfinished with rfl | ⟨hsealed, htail⟩
      · omega
      · rcases hwhy with hgone | ⟨hopen, -⟩
        · omega
        · rw [hsealed] at hopen
          cases hopen

end Create

/-! ## Any call leaves the stack at some position -/

section Calls

variable {evs : List Event} {isSealed : Bool} {endPosition pos o : Nat} {st st' : Started}
  {w : Streams} {checks : Bool} {settings : Settings}

/-- What `create` does with the reader. -/
theorem createStarted_reader (st : Started) :
    (createStarted st).2 = { st with reader := (readExact 8 st.reader).2 } ∨
      ∃ n, (createStarted st).2 =
        { st with reader := (readExact n (readExact 8 st.reader).2).2 } := by
  have hlength := EventReader.new.readRequiredBufferLength_reader st.reader
  rw [createStarted, CountingReader.streamPosition_eq]
  dsimp only
  rcases hread : EventReader.new.readRequiredBufferLength st.reader with ⟨e | n, reader, r⟩
  · rw [hread] at hlength
    rw [← hlength]
    exact Or.inl rfl
  · rw [hread] at hlength
    rw [← hlength]
    dsimp only
    have hevent := reader.readEvent_reader r n
    rcases hread' : reader.readEvent r n with ⟨e | event, r'⟩
    · rw [hread'] at hevent
      rcases hevent with rfl | hevent
      · exact Or.inl rfl
      · refine Or.inr ⟨reader.requiredBufferLength - 8, ?_⟩
        rw [← hevent]
    · rw [hread'] at hevent
      dsimp only
      rw [CountingReader.streamPosition_eq]
      rcases hevent with rfl | hevent
      · exact Or.inl rfl
      · refine Or.inr ⟨reader.requiredBufferLength - 8, ?_⟩
        rw [← hevent]

theorem stood_readExact {stream : ByteStream} {r : Stack ByteReader}
    (h : ∃ pos, Stood stream isSealed endPosition pos r) (n : Nat) :
    ∃ pos, Stood stream isSealed endPosition pos (readExact n r).2 := by
  obtain ⟨pos, h⟩ := h
  rcases h.readExact n with ⟨_, r', hread, -, -, hat⟩ | ⟨_, r', pos', hread, hat, -⟩
  · rw [hread]
    exact ⟨_, hat⟩
  · rw [hread]
    exact ⟨pos', hat⟩

theorem createStarted_stands {result : Except FlowError Buffer}
    (hstands : ∃ pos, st.Stands isSealed endPosition pos)
    (hcreate : createStarted st = (result, st')) :
    ∃ pos, st'.Stands isSealed endPosition pos := by
  have hst : st' = (createStarted st).2 := by rw [hcreate]
  rcases createStarted_reader st with heq | ⟨n, heq⟩
  · rw [hst, heq]
    exact stood_readExact hstands 8
  · rw [hst, heq]
    exact stood_readExact (stood_readExact hstands 8) n

theorem stood_sees (hstands : st.Stands isSealed endPosition pos) (hlater : st.Later w) :
    (st.sees w).Stands isSealed endPosition pos := by
  obtain ⟨⟨hcounted, ⟨hbytes, hend, hoffset, hlimit⟩, hbuffered⟩, hstream, hsealed⟩ := hstands
  exact ⟨⟨hcounted, ⟨rfl, hend, hoffset, hlimit⟩,
    hbuffered.trans (hlater.appended.drop pos)⟩, rfl, hsealed⟩

/-! ## Seeking -/

/-- A seek of the stack goes to where it is sent, or to the end position. -/
theorem seekTo_stands (hstands : ∃ pos, st.Stands isSealed endPosition pos)
    (hseek : seekTo o st = .ok st') :
    st'.streams = st.streams ∧ st'.Stands isSealed endPosition (min o endPosition) := by
  obtain ⟨pos, hat, hstream, hsealed⟩ := hstands
  rw [seekTo] at hseek
  rcases hgo : Seek.seek (.start o) st.reader with ⟨e | offset, r⟩
  · rw [hgo] at hseek
    cases hseek
  · rw [hgo] at hseek
    cases hseek
    obtain ⟨target, htarget, hoffset, hat'⟩ := hat.seek hgo
    obtain rfl : o = target := Int.ofNat_inj.mp htarget
    rw [hoffset] at hat'
    have hbottom := stack_seek_keeps
      (P := fun b => b.stream = st.streams.data ∧ b.isSealed = isSealed)
      (fun request b hb =>
        have hsame := byteReader_seek_same request b
        ⟨hsame.1.trans hb.1, hsame.2.trans hb.2⟩) hgo ⟨hstream, hsealed⟩
    exact ⟨rfl, hat', hbottom.1, hbottom.2⟩

/-- What a seek asks the index for. -/
def soughtTime (settings : Settings) (segment : Segment) (initial : Bool) : PravegaTimestamp :=
  if initial then initialSeekStartTimestamp settings else clocktimeToPravega segment.time

theorem search_nil (h : Holds w.index []) (checks : Bool) (t : PravegaTimestamp) :
    search w (IndexSearcher.searchTimestamp checks .index t) =
      .error IndexSearcher.noRecords := by
  have hindex : Holds (w.get .index) [] := h
  have hrun := (yields_searchTimestamp_nil hindex checks t .before).bindE_error
    (f := fun result : IndexRecord × Nat => (pure result.1 : StreamM IndexRecord))
  exact congrArg Prod.fst hrun.1

/-- What a seek has done that has returned. -/
theorem doSeek_cases {segment segment' : Segment} {found : Bool}
    (hseek : doSeek checks settings segment (.started st) = .ok (found, segment', st')) :
    (found = false ∧ st' = st) ∨ found = true ∧ ∃ o, seekTo o st = .ok st' ∧
      ((initialSeek segment = some true ∧ settings.startMode = .noSeek ∧
          o = st.reader.inner.inner.inner.inner.stream.head) ∨
        ∃ initial record, initialSeek segment = some initial ∧
          search st.streams (IndexSearcher.searchTimestamp checks .index
            (soughtTime settings segment initial)) = .ok record ∧ o = record.offset) := by
  rw [doSeek] at hseek
  rcases hinitial : initialSeek segment with _ | initial
  · rw [hinitial] at hseek
    cases hseek
  rw [hinitial] at hseek
  dsimp only at hseek
  split at hseek
  · next hhead =>
      obtain ⟨rfl, hmode⟩ := hhead
      right
      rcases hgo : seekTo st.reader.inner.inner.inner.inner.stream.head st with e | st₁
      · rw [seekToHead, ByteReader.currentHead] at hseek
        change (seekTo _ st >>= fun st => _) = _ at hseek
        rw [hgo] at hseek
        cases hseek
      · rw [seekToHead, ByteReader.currentHead] at hseek
        change (seekTo _ st >>= fun st => _) = _ at hseek
        rw [hgo] at hseek
        cases hseek
        exact ⟨rfl, _, hgo, Or.inl ⟨rfl, hmode, rfl⟩⟩
  · rw [seekUsingIndex] at hseek
    rcases hsearch : search st.streams (IndexSearcher.searchTimestamp checks .index
        (soughtTime settings segment initial)) with (e | _ | _) | record
    · rw [soughtTime] at hsearch
      rw [hsearch] at hseek
      cases hseek
      exact Or.inl ⟨rfl, rfl⟩
    · rw [soughtTime] at hsearch
      rw [hsearch] at hseek
      cases hseek
    · rw [soughtTime] at hsearch
      rw [hsearch] at hseek
      cases hseek
    · right
      have hsearch' := hsearch
      rw [soughtTime] at hsearch'
      rw [hsearch'] at hseek
      dsimp only at hseek
      rcases hgo : seekTo record.offset st with e | st₁
      · rw [hgo] at hseek
        cases hseek
      · rw [hgo] at hseek
        cases hseek
        exact ⟨rfl, _, hgo, Or.inr ⟨initial, record, rfl, hsearch, rfl⟩⟩

/-- The streams of a recording that will hold the events in the end. -/
structure Recorded (evs : List Event) (w : Streams) : Prop where
  data : w.data.bytes <+: evs.flatMap Event.frame
  head_le : w.data.head ≤ w.data.tail
  head : Boundary Event.frame evs w.data.head
  index : ∃ recs, Holds w.index recs ∧ ∀ r ∈ recs, Boundary Event.frame evs r.offset

/-- Where a seek leads: to the head of the data, or to the event of the last record that is
not after the time that is sought. -/
inductive Target (settings : Settings) (w : Streams) (segment : Segment) : Nat → Prop where
  | head (hinitial : initialSeek segment = some true) (hmode : settings.startMode = .noSeek) :
      Target settings w segment w.data.head
  | record {initial : Bool} {recs : List Record} {i : Nat} {r : Record}
      (hinitial : initialSeek segment = some initial) (hindex : Holds w.index recs)
      (hr : recs[i]? = some r)
      (hlocated : Located recs (soughtTime settings segment initial) .before i) :
      Target settings w segment r.offset

theorem doSeek_target (hrecorded : Recorded evs st.streams)
    (hstands : ∃ pos, st.Stands isSealed endPosition pos) {segment segment' : Segment}
    {found : Bool}
    (hseek : doSeek checks settings segment (.started st) = .ok (found, segment', st')) :
    st'.streams = st.streams ∧ ((found = false ∧ st' = st) ∨ found = true ∧
      ∃ o, Target settings st.streams segment o ∧ Boundary Event.frame evs o ∧
        st'.Stands isSealed endPosition (min o endPosition)) := by
  rcases doSeek_cases hseek with ⟨hfound, rfl⟩ | ⟨hfound, o, hgo, hcase⟩
  · exact ⟨rfl, Or.inl ⟨hfound, rfl⟩⟩
  obtain ⟨hstreams, hstands'⟩ := seekTo_stands hstands hgo
  obtain ⟨pos, hstands⟩ := hstands
  suffices Target settings st.streams segment o ∧ Boundary Event.frame evs o from
    ⟨hstreams, Or.inr ⟨hfound, o, this.1, this.2, hstands'⟩⟩
  rcases hcase with ⟨hinitial, hmode, rfl⟩ | ⟨initial, record, hinitial, hsearch, rfl⟩
  · have hstream : st.reader.inner.inner.inner.inner.stream = st.streams.data := hstands.stream_eq
    rw [hstream]
    exact ⟨.head hinitial hmode, hrecorded.head⟩
  · obtain ⟨recs, hindex, hboundary⟩ := hrecorded.index
    by_cases hne : recs = []
    · subst hne
      have hnone := search_nil hindex checks (soughtTime settings segment initial)
      rw [hnone] at hsearch
      cases hsearch
    · obtain ⟨i, r, hr, hlocated, hfound⟩ :=
        (search_timestamp hindex hne checks (soughtTime settings segment initial)).1
      rw [hfound] at hsearch
      cases hsearch
      exact ⟨.record hinitial hindex hr hlocated, hboundary r (List.mem_of_getElem? hr)⟩

/-! ## Asking for the times -/

theorem le_max (t : PravegaTimestamp) : t ≤ PravegaTimestamp.max := by
  rw [PravegaTimestamp.le_iff]
  cases t with
  | mk n =>
      cases n with
      | none => exact Nat.zero_le _
      | some n =>
          have hn := n.toNat_lt
          show n.toNat + 1 ≤ 2 ^ 64 - 1 + 1
          omega

theorem min_lt_of_timed {r : Record} {t : UInt64} (h : r.timestamp = ⟨some t⟩) :
    PravegaTimestamp.min < r.timestamp := by
  have hne : t ≠ 0 := by
    intro ht
    rw [ht] at h
    exact r.timed h
  have hpos : 0 < t.toNat := Nat.pos_of_ne_zero fun hzero => hne (UInt64.toNat_inj.mp hzero)
  rw [h, PravegaTimestamp.lt_iff]
  exact Nat.succ_lt_succ hpos

/-- The seeking query is answered with the times of the first and of the last record. -/
theorem querySeeking_times {recs : List Record} (hindex : Holds st.streams.index recs)
    (hne : recs ≠ []) (htimed : ∀ r ∈ recs, ∃ t, r.timestamp = ⟨some t⟩) :
    querySeeking checks .time (.started st) = .ok (some ((timeAt recs 0).nanoseconds,
      (timeAt recs (recs.length - 1)).nanoseconds)) := by
  obtain ⟨i, first, hfirst, hi, hsearch⟩ :=
    (search_timestamp hindex hne checks PravegaTimestamp.min).1
  obtain ⟨j, last, hlast, hj, hsearch'⟩ :=
    (search_timestamp hindex hne checks PravegaTimestamp.max).1
  have hmin : ∀ k < recs.length, PravegaTimestamp.min < timeAt recs k := by
    intro k hk
    have hget := List.getElem?_eq_getElem hk
    obtain ⟨t, ht⟩ := htimed _ (List.mem_of_getElem? hget)
    rw [timeAt_of_getElem? hget]
    exact min_lt_of_timed ht
  have hpos := List.length_pos_iff.mpr hne
  obtain rfl : i = 0 :=
    hi.below (hmin _ (Nat.sub_lt hpos Nat.one_pos)) (le_of_lt (hmin 0 hpos))
  obtain rfl : j = recs.length - 1 := hj.above (le_max _)
  rw [querySeeking]
  rw [IndexSearcher.getFirstRecord, hsearch]
  dsimp only
  rw [IndexSearcher.getLastRecord, hsearch']
  rw [timeAt_of_getElem? hfirst, timeAt_of_getElem? hlast]
  rfl

/-! ## Calls in any order -/

variable {calls calls' : List (Streams × Call)} {before after : List Event}

theorem Calls.split (h : Calls checks settings st (calls ++ calls') st') :
    ∃ st₁, Calls checks settings st calls st₁ ∧ Calls checks settings st₁ calls' st' := by
  induction calls generalizing st with
  | nil => exact ⟨st, .nil, h⟩
  | cons x calls ih =>
      cases h with
      | seek hlater hseek hrest =>
          obtain ⟨st₁, hfront, hback⟩ := ih hrest
          exact ⟨st₁, .seek hlater hseek hfront, hback⟩
      | create hlater hcreate hrest =>
          obtain ⟨st₁, hfront, hback⟩ := ih hrest
          exact ⟨st₁, .create hlater hcreate hfront, hback⟩
      | query hlater hquery hrest =>
          obtain ⟨st₁, hfront, hback⟩ := ih hrest
          exact ⟨st₁, .query hlater hquery hfront, hback⟩

theorem Calls.stands (h : Calls checks settings st calls st')
    (hstands : ∃ pos, st.Stands isSealed endPosition pos) :
    ∃ pos, st'.Stands isSealed endPosition pos := by
  induction h with
  | nil => exact hstands
  | seek hlater hseek _ ih =>
      obtain ⟨pos, hstands⟩ := hstands
      have hsees := stood_sees hstands hlater
      rcases doSeek_cases hseek with ⟨-, rfl⟩ | ⟨-, o, hgo, -⟩
      · exact ih ⟨pos, hsees⟩
      · exact ih ⟨_, (seekTo_stands ⟨pos, hsees⟩ hgo).2⟩
  | create hlater hcreate _ ih =>
      obtain ⟨pos, hstands⟩ := hstands
      exact ih (createStarted_stands ⟨pos, stood_sees hstands hlater⟩ hcreate)
  | query hlater _ _ ih =>
      obtain ⟨pos, hstands⟩ := hstands
      exact ih ⟨pos, stood_sees hstands hlater⟩

/-- Neither a seek that leads somewhere else nor an error. -/
def Call.Continues : Call → Prop
  | .seek _ found _ => found = false
  | .create (.error (.failed _)) => False
  | _ => True

/-- As soon as the next event is there, `create` gives it. -/
def GoesOn (evs : List Event) (endPosition o : Nat) (after : List Event) (st : Started) : Prop :=
  ∀ w, st.Later w → Recorded evs w → There w endPosition o after →
    ∃ e rest st', after = e :: rest ∧ createStarted (st.sees w) = (.ok (bufferAt (o, e)), st')

/-- The source has come to its end in front of the next event. -/
structure Ended (st : Started) (isSealed : Bool) (endPosition o : Nat) (after : List Event) :
    Prop where
  stands : ∃ pos, st.Stands isSealed endPosition pos ∧
    Finished st.streams.data isSealed endPosition pos
  out : ∀ e rest, after = e :: rest → endPosition < o + e.frame.length ∨
    (isSealed = true ∧ st.streams.data.tail < o + e.frame.length)

/-- A sealed stream stays as it is. -/
theorem tail_of_later (hstands : st.Stands isSealed endPosition pos) (hlater : st.Later w)
    (hsealed : isSealed = true) : (st.sees w).streams.data.tail = st.streams.data.tail := by
  have hbytes := hlater.closed (hstands.isSealed_eq.trans hsealed)
  rw [ByteStream.tail, ByteStream.tail, hbytes]
  rfl

theorem Ended.sees (h : Ended st isSealed endPosition o after) (hlater : st.Later w) :
    Ended (st.sees w) isSealed endPosition o after := by
  obtain ⟨⟨pos, hstands, hfinished⟩, hout⟩ := h
  refine ⟨⟨pos, stood_sees hstands hlater, ?_⟩, fun e rest heq => ?_⟩
  · refine hfinished.imp_right fun ⟨hsealed, htail⟩ => ⟨hsealed, ?_⟩
    rw [tail_of_later hstands hlater hsealed]
    exact htail
  · refine (hout e rest heq).imp_right fun ⟨hsealed, htail⟩ => ⟨hsealed, ?_⟩
    rw [tail_of_later hstands hlater hsealed]
    exact htail

theorem Ended.create (h : Ended st isSealed endPosition o after)
    (hhead : st.streams.data.head ≤ st.streams.data.tail)
    {result : Except FlowError Buffer} (hcreate : createStarted st = (result, st')) :
    result = .error .eos ∧ Ended st' isSealed endPosition o after := by
  obtain ⟨⟨pos, hstands, hfinished⟩, hout⟩ := h
  obtain ⟨hresult, hstreams, pos', -, hstands', hfinished'⟩ :=
    createStarted_finished hstands hhead hfinished hcreate
  refine ⟨hresult, ⟨pos', hstands', ?_⟩, ?_⟩
  · rw [hstreams]
    exact hfinished'
  · rw [hstreams]
    exact hout

theorem Ended.goesOn (h : Ended st isSealed endPosition o after) :
    GoesOn evs endPosition o after st := by
  rintro w hlater - ⟨e, rest, heq, -, hend, htail⟩
  rcases (h.sees hlater).out e rest heq with hout | ⟨-, hout⟩
  · omega
  · exact absurd htail (Nat.not_le.mpr hout)

/-- Behind the end there are no buffers. -/
theorem Calls.ended (h : Calls checks settings st calls st')
    (hcontinues : ∀ x ∈ calls, x.2.Continues) (hrecorded : ∀ x ∈ calls, Recorded evs x.1)
    (hended : Ended st isSealed endPosition o after) :
    calls.filterMap (fun x => x.2.buffer) = [] ∧ Ended st' isSealed endPosition o after := by
  induction h with
  | nil => exact ⟨rfl, hended⟩
  | seek hlater hseek _ ih =>
      obtain ⟨hfirst, hothers⟩ := List.forall_mem_cons.mp hcontinues
      rcases doSeek_cases hseek with ⟨-, rfl⟩ | ⟨hfound, -⟩
      · exact ih hothers (List.forall_mem_cons.mp hrecorded).2 (hended.sees hlater)
      · rw [Call.Continues, hfound] at hfirst
        cases hfirst
  | create hlater hcreate _ ih =>
      obtain ⟨hfirst, hworlds⟩ := List.forall_mem_cons.mp hrecorded
      obtain ⟨rfl, hended'⟩ := (hended.sees hlater).create hfirst.head_le hcreate
      exact ih (List.forall_mem_cons.mp hcontinues).2 hworlds hended'
  | query hlater _ _ ih =>
      exact ih (List.forall_mem_cons.mp hcontinues).2 (List.forall_mem_cons.mp hrecorded).2
        (hended.sees hlater)

/-- A frame that is cut short at the end of all bytes. -/
theorem out_of_finished {w : Streams} {e : Event} {pos' : Nat}
    (hfinished : Finished w.data isSealed endPosition pos') (hshort : pos' < o + e.frame.length) :
    endPosition < o + e.frame.length ∨ (isSealed = true ∧ w.data.tail < o + e.frame.length) := by
  rcases hfinished with rfl | ⟨hsealed, htail⟩
  · exact Or.inl hshort
  · exact Or.inr ⟨hsealed, Nat.lt_of_le_of_lt htail hshort⟩

/-- What is there is given. -/
theorem Gives.of_there {result : Except FlowError Buffer}
    (h : Gives st isSealed endPosition o after result st')
    (hthere : There st.streams endPosition o after) :
    ∃ e rest, after = e :: rest ∧ result = .ok (bufferAt (o, e)) := by
  rcases h with ⟨e, rest, heq, hresult, -⟩ | ⟨pos', -, hshort, ⟨-, hfinished⟩ | ⟨-, hnot⟩⟩
  · exact ⟨e, rest, heq, hresult⟩
  · obtain ⟨e, rest, heq, -, hend, htail⟩ := hthere
    rcases out_of_finished hfinished (hshort e rest heq) with hout | ⟨-, hout⟩
    · omega
    · omega
  · exact absurd hthere hnot

/-- In front of an event: that event and those behind it, one for each buffer. The induction
is on the calls, and each buffer moves an event from `after` to the front. -/
theorem Calls.plays (h : Calls checks settings st calls st')
    (hcontinues : ∀ x ∈ calls, x.2.Continues) (hrecorded : ∀ x ∈ calls, Recorded evs x.1)
    (hsplit : evs = before ++ after) (hpos : (before.flatMap Event.frame).length = pos)
    (hstands : st.Stands isSealed endPosition pos) :
    ∃ run rest, after = run ++ rest ∧
      calls.filterMap (fun x => x.2.buffer) = (layout Event.frame pos run).map bufferAt ∧
      pos + (run.flatMap Event.frame).length ≤ endPosition ∧
      GoesOn evs endPosition (pos + (run.flatMap Event.frame).length) rest st' := by
  induction h generalizing before after pos with
  | @nil st =>
      refine ⟨[], after, rfl, rfl, hstands.at_pos.inner.le, ?_⟩
      intro w hlater hworld hthere
      obtain ⟨-, hgives⟩ := createStarted_gives (stood_sees hstands hlater) hworld.data hsplit
        hpos (Prod.mk.eta (p := createStarted (st.sees w))).symm
      obtain ⟨e, rest, heq, hresult⟩ := hgives.of_there hthere
      exact ⟨e, rest, _, heq, Prod.ext hresult rfl⟩
  | seek hlater hseek _ ih =>
      obtain ⟨hfirst, hothers⟩ := List.forall_mem_cons.mp hcontinues
      rcases doSeek_cases hseek with ⟨-, rfl⟩ | ⟨hfound, -⟩
      · exact ih hothers (List.forall_mem_cons.mp hrecorded).2 hsplit hpos
          (stood_sees hstands hlater)
      · rw [Call.Continues, hfound] at hfirst
        cases hfirst
  | query hlater _ _ ih =>
      exact ih (List.forall_mem_cons.mp hcontinues).2 (List.forall_mem_cons.mp hrecorded).2 hsplit
        hpos (stood_sees hstands hlater)
  | create hlater hcreate hrest ih =>
      obtain ⟨hgoes, hothers⟩ := List.forall_mem_cons.mp hcontinues
      obtain ⟨hfirst, hworlds⟩ := List.forall_mem_cons.mp hrecorded
      obtain ⟨hstreams, hgives⟩ := createStarted_gives (stood_sees hstands hlater) hfirst.data
        hsplit hpos hcreate
      rcases hgives with ⟨e, rest, rfl, rfl, hstands'⟩ |
        ⟨pos', hstands', hshort, ⟨rfl, hfinished⟩ | ⟨⟨f, rfl⟩, -⟩⟩
      · obtain ⟨run, rest', rfl, hbuffers, hle, hgoesOn⟩ :=
          ih hothers hworlds (hsplit.trans (List.append_cons before e rest))
            (by rw [List.flatMap_append, List.length_append, hpos, List.flatMap_singleton])
            hstands'
        refine ⟨e :: run, rest', rfl, ?_, ?_, ?_⟩
        · rw [layout, List.map_cons, ← hbuffers]
          rfl
        · rw [List.flatMap_cons, List.length_append, ← Nat.add_assoc]
          exact hle
        · rw [List.flatMap_cons, List.length_append, ← Nat.add_assoc]
          exact hgoesOn
      · rw [← hstreams] at hfinished
        have hended : Ended _ isSealed endPosition pos after :=
          ⟨⟨pos', hstands', hfinished⟩,
            fun e rest heq => out_of_finished hfinished (hshort e rest heq)⟩
        obtain ⟨hbuffers, hended'⟩ := hrest.ended hothers hworlds hended
        exact ⟨[], after, rfl, hbuffers, hstands.at_pos.inner.le, hended'.goesOn⟩
      · exact hgoes.elim

end Calls

/-! ## From the start -/

section Start

variable {checks : Bool} {settings : Settings} {client : Client} {endPosition : Nat}
  {st st' : Started} {reader : ByteReader}

/-- A sequence that succeeds has succeeded in each part. -/
theorem bind_eq_ok {α β ε : Type} {x : Except ε α} {f : α → Except ε β} {b : β}
    (h : (x >>= f) = .ok b) : ∃ a, x = .ok a ∧ f a = .ok b := by
  cases x with
  | error e => cases h
  | ok a => exact ⟨a, rfl, h⟩

theorem start_cases (hstart : start checks settings client .stopped = (.ok (), .started st)) :
    st.streams = client.streams ∧ ∃ endPosition reader,
      endOffset checks settings client.streams
        (ByteReader.new client.streams.data client.isSealed client.fetched) =
          .ok (endPosition, reader) ∧
      openReader settings.bufferSize endPosition reader = .ok st.reader := by
  rw [start] at hstart
  rcases hstopped : startStopped checks settings client with e | st₁
  · rw [hstopped] at hstart
    cases hstart
  rw [hstopped] at hstart
  cases hstart
  rw [startStopped] at hstopped
  obtain ⟨scope, -, hstopped⟩ := bind_eq_ok hstopped
  obtain ⟨stream, -, hstopped⟩ := bind_eq_ok hstopped
  obtain ⟨controller, -, hstopped⟩ := bind_eq_ok hstopped
  obtain ⟨-, -, hstopped⟩ := bind_eq_ok hstopped
  obtain ⟨-, -, hstopped⟩ := bind_eq_ok hstopped
  obtain ⟨-, -, hstopped⟩ := bind_eq_ok hstopped
  obtain ⟨⟨offset, reader⟩, hend, hstopped⟩ := bind_eq_ok hstopped
  obtain ⟨opened, hopen, hstopped⟩ := bind_eq_ok hstopped
  cases hstopped
  exact ⟨rfl, offset, reader, hend, hopen⟩

/-- Asking for the end does not change the stream. -/
theorem endOffset_same {r : ByteReader}
    (h : endOffset checks settings client.streams r = .ok (endPosition, reader)) :
    reader.stream = r.stream ∧ reader.isSealed = r.isSealed := by
  rw [endOffset] at h
  split at h
  · cases h
    exact ⟨rfl, rfl⟩
  · rw [ByteReader.seek_end] at h
    cases h
    exact ⟨rfl, rfl⟩
  · obtain ⟨record, -, h⟩ := bind_eq_ok h
    cases h
    exact ⟨rfl, rfl⟩
  · obtain ⟨record, -, h⟩ := bind_eq_ok h
    cases h
    exact ⟨rfl, rfl⟩

theorem openStack_of_openReader {bufferSize : Nat} {r : Stack ByteReader}
    (h : openReader bufferSize endPosition reader = .ok r) :
    openStack bufferSize endPosition reader = .ok r := by
  rw [openReader_eq] at h
  cases hopen : openStack bufferSize endPosition reader with
  | error e =>
      rw [hopen] at h
      cases h
  | ok r' =>
      rw [hopen] at h
      cases h
      rfl

theorem openReader_stands {bufferSize : Nat} {r : Stack ByteReader}
    (h : openReader bufferSize endPosition reader = .ok r) :
    ∃ pos, Stood reader.stream reader.isSealed endPosition pos r := by
  have hkeeps := openStack_keeps
    (P := fun b => b.stream = reader.stream ∧ b.isSealed = reader.isSealed)
    (fun request b hb =>
      have hsame := byteReader_seek_same request b
      ⟨hsame.1.trans hb.1, hsame.2.trans hb.2⟩) (openStack_of_openReader h) ⟨rfl, rfl⟩
  exact ⟨_, openReader_at h, hkeeps.1, hkeeps.2⟩

theorem start_stands (hstart : start checks settings client .stopped = (.ok (), .started st))
    (hend : endOffset checks settings client.streams
      (ByteReader.new client.streams.data client.isSealed client.fetched) =
        .ok (endPosition, reader)) : ∃ pos, st.Stands client.isSealed endPosition pos := by
  obtain ⟨hstreams, endPosition', reader', hend', hopen⟩ := start_cases hstart
  rw [hend] at hend'
  cases hend'
  obtain ⟨pos, hstands⟩ := openReader_stands hopen
  obtain ⟨hstream, hsealed⟩ := endOffset_same hend
  rw [hstream, hsealed] at hstands
  refine ⟨pos, ?_⟩
  rw [Started.Stands, hstreams]
  exact hstands

/-- **A seek is exact while the recording goes on.** In a session of any calls in any order,
on a recording that is written and truncated meanwhile: where a seek has led to an event, the
buffers since then are that event and those behind it, in order and without a gap, none of
them beyond the end position that `start` has set. And the next one is given as soon as it is
there. -/
theorem session_plays {evs : List Event} {front back : List (Streams × Call)} {w : Streams}
    {segment segment' : Segment}
    (hstart : start checks settings client .stopped = (.ok (), .started st))
    (hend : endOffset checks settings client.streams
      (ByteReader.new client.streams.data client.isSealed client.fetched) =
        .ok (endPosition, reader))
    (hcalls : Calls checks settings st (front ++ (w, .seek segment true segment') :: back) st')
    (hrecorded : ∀ x ∈ front ++ (w, .seek segment true segment') :: back, Recorded evs x.1)
    (hcontinues : ∀ x ∈ back, x.2.Continues) :
    ∃ o before run after, Target settings w segment o ∧ evs = before ++ run ++ after ∧
      (before.flatMap Event.frame).length = o ∧
      back.filterMap (fun x => x.2.buffer) = (layout Event.frame o run).map bufferAt ∧
      (run = [] ∨ o + (run.flatMap Event.frame).length ≤ endPosition) ∧
      GoesOn evs endPosition (o + (run.flatMap Event.frame).length) after st' := by
  obtain ⟨st₁, hfront, hback⟩ := hcalls.split
  obtain ⟨pos, hstands₁⟩ := hfront.stands (start_stands hstart hend)
  cases hback with
  | @seek _ st₂ _ _ _ _ _ _ hlater hseek hrest =>
      have hworld : Recorded evs w := hrecorded _ (List.mem_append_right _ List.mem_cons_self)
      have hworlds : ∀ x ∈ back, Recorded evs x.1 := fun x hx =>
        hrecorded x (List.mem_append_right _ (List.mem_cons_of_mem _ hx))
      obtain ⟨hstreams, ⟨hfound, -⟩ | ⟨-, o, htarget, hboundary, hstands₂⟩⟩ :=
        doSeek_target hworld ⟨pos, stood_sees hstands₁ hlater⟩ hseek
      · cases hfound
      obtain ⟨before, after, hsplit, hpos⟩ := hboundary
      rcases Nat.lt_or_ge endPosition o with hpast | hle
      · rw [Nat.min_eq_right (Nat.le_of_lt hpast)] at hstands₂
        have hended : Ended st₂ client.isSealed endPosition o after :=
          ⟨⟨_, hstands₂, Or.inl rfl⟩, fun e rest _ => Or.inl (by omega)⟩
        obtain ⟨hbuffers, hended'⟩ := hrest.ended hcontinues hworlds hended
        refine ⟨o, before, [], after, htarget, ?_, hpos, hbuffers, Or.inl rfl, hended'.goesOn⟩
        rw [List.append_nil]
        exact hsplit
      · rw [Nat.min_eq_left hle] at hstands₂
        obtain ⟨run, rest, rfl, hbuffers, hend', hgoesOn⟩ :=
          hrest.plays hcontinues hworlds hsplit hpos hstands₂
        refine ⟨o, before, run, rest, htarget, ?_, hpos, hbuffers, Or.inr hend', hgoesOn⟩
        rw [List.append_assoc]
        exact hsplit

end Start

/-! ## The camera, while it records -/

/-- The first event with its record. -/
def earlyStreams : Streams :=
  ⟨⟨0, (cameraEvents.take 1).flatMap Event.frame, by decide⟩,
    ⟨0, (cameraRecords.take 1).flatMap Record.frame, by decide⟩⟩

def liveSettings : Settings :=
  { windowSettings 0 0 with startMode := .earliest, endMode := .unbounded }

def liveOpened : Started :=
  ⟨⟨⟨⟨⟨⟨earlyStreams.data, false, 0, [1, 2, 3]⟩, 2 ^ 64 - 1⟩, 2 ^ 64 - 1⟩, 128 * 1024, []⟩, 0⟩,
    earlyStreams⟩

def Started.moved (st : Started) (offset : Nat) : Started :=
  { st with reader := (Seek.seek (.start offset) st.reader).2 }

/-- The first event is sought and played; then the others are there, and the second is sought. -/
def livePlayed : Started :=
  (createStarted (((liveOpened.sees earlyStreams).moved 0).sees earlyStreams)).2

def liveSought : Started := (livePlayed.sees cameraStreams).moved 21

theorem camera_recorded : Recorded cameraEvents cameraStreams where
  data := List.prefix_rfl
  head_le := by decide
  head := by decide
  index := ⟨cameraRecords, camera_partitions.index, by decide +kernel⟩

theorem early_recorded : Recorded cameraEvents earlyStreams where
  data := by decide +kernel
  head_le := by decide
  head := by decide
  index := ⟨cameraRecords.take 1, ⟨by decide, by decide, rfl⟩, by decide +kernel⟩

theorem session_plays_camera :
    let back := [(cameraStreams, Call.create (createStarted (liveSought.sees cameraStreams)).1)]
    ∃ o before run after, Target liveSettings cameraStreams ⟨some 25, some 25, some 25⟩ o ∧
      cameraEvents = before ++ run ++ after ∧ (before.flatMap Event.frame).length = o ∧
      back.filterMap (fun x => x.2.buffer) = (layout Event.frame o run).map bufferAt ∧
      (run = [] ∨ o + (run.flatMap Event.frame).length ≤ 2 ^ 64 - 1) ∧
      GoesOn cameraEvents (2 ^ 64 - 1) (o + (run.flatMap Event.frame).length) after
        (createStarted (liveSought.sees cameraStreams)).2 := by
  intro back
  have hstart : start true liveSettings (windowClient earlyStreams) .stopped =
      (.ok (), .started liveOpened) := by decide +kernel
  have hfirst : doSeek true liveSettings Segment.initial
      (.started (liveOpened.sees earlyStreams)) =
        .ok (true, ⟨some 10, some 10, some 0⟩, (liveOpened.sees earlyStreams).moved 0) := by
    decide +kernel
  have hsecond : doSeek true liveSettings ⟨some 25, some 25, some 25⟩
      (.started (livePlayed.sees cameraStreams)) =
        .ok (true, ⟨some 20, some 20, some 0⟩, liveSought) := by decide +kernel
  have hopened : liveOpened.Later earlyStreams := ⟨List.prefix_rfl, fun _ => rfl⟩
  have hfound : ((liveOpened.sees earlyStreams).moved 0).Later earlyStreams :=
    ⟨List.prefix_rfl, fun _ => rfl⟩
  have hplayed : livePlayed.Later cameraStreams :=
    ⟨by decide +kernel, fun hsealed => absurd hsealed (by decide +kernel)⟩
  have hsought : liveSought.Later cameraStreams := ⟨List.prefix_rfl, fun _ => rfl⟩
  have hcreate : (createStarted (liveSought.sees cameraStreams)).1 =
      .ok (bufferAt (21, cameraEvents.get ⟨1, by decide⟩)) := by decide +kernel
  have hcalls : Calls true liveSettings liveOpened
      ([(earlyStreams, .seek Segment.initial true ⟨some 10, some 10, some 0⟩),
          (earlyStreams, .create
            (createStarted (((liveOpened.sees earlyStreams).moved 0).sees earlyStreams)).1)] ++
        (cameraStreams, .seek ⟨some 25, some 25, some 25⟩ true ⟨some 20, some 20, some 0⟩) :: back)
      (createStarted (liveSought.sees cameraStreams)).2 :=
    .seek hopened hfirst (.create hfound (Prod.mk.eta).symm
      (.seek hplayed hsecond (.create hsought (Prod.mk.eta).symm .nil)))
  refine session_plays hstart rfl hcalls ?_ ?_
  · intro x hx
    rcases List.mem_append.mp hx with hx | hx
    · rcases List.mem_cons.mp hx with rfl | hx
      · exact early_recorded
      · rw [List.mem_singleton.mp hx]
        exact early_recorded
    · rcases List.mem_cons.mp hx with rfl | hx
      · exact camera_recorded
      · rw [List.mem_singleton.mp hx]
        exact camera_recorded
  · intro x hx
    rw [List.mem_singleton.mp hx, hcreate]
    exact trivial

end GstPravega.Plugin.PravegaSrc
