import GstPravega.Proofs.IndexSearch
import GstPravega.Server.Db
import Mathlib.Data.List.Forall2

/-!
# The playlist tiles the recording

Each round of the playlist loop that has a record before it adds one entry, the gap
or the byte range from the one record to the other, whatever the durations are. So
the entries stand for the pairs of neighbouring records, and since the records are
at event boundaries, the segments of neighbouring ranges join without a seam.
-/

namespace GstPravega.Server.Db

open GstPravega.Lib GstPravega.Client GstPravega.Video

/-! ## Segments -/

section Segment

open LawfulRead

/-- With whole frames up to the limit, the loop gives their payloads and stops at
the limit. The induction is on the events. -/
theorem mediaSegmentLoop_frames {ρ : Type} [Read ρ] [Source ρ] {evs : List Event} :
    ∀ {fuel : Nat} {reader : Take ρ}, evs.length < fuel → Ready reader →
      remaining reader = evs.flatMap Event.frame →
      ∃ reader', mediaSegmentLoop fuel reader =
          .ok (evs.map fun e => e.payload, reader') ∧ reader'.limit = 0 := by
  induction evs with
  | nil =>
      intro fuel reader hfuel hready hrem
      cases fuel with
      | zero => exact absurd hfuel (Nat.not_lt_zero _)
      | succ fuel =>
          obtain ⟨reader', hlength, hready', hrem', _⟩ :=
            EventReader.readRequiredBufferLength_eof EventReader.new hready hrem
          have hlimit := Take.limit_eq_zero hready' hrem'
          refine ⟨reader', ?_, hlimit⟩
          rw [mediaSegmentLoop, hlength]
          dsimp only
          rw [if_pos (by rw [reachedEnd, hlimit]; rfl)]
          rfl
  | cons e evs ih =>
      intro fuel reader hfuel hready hrem
      cases fuel with
      | zero => exact absurd hfuel (Nat.not_lt_zero _)
      | succ fuel =>
          rw [List.flatMap_cons] at hrem
          obtain ⟨eventReader, r, r', hlength, hevent, hready', hrem', _⟩ :=
            EventReader.read_frame EventReader.new e hready hrem
          obtain ⟨reader', hloop, hlimit⟩ :=
            ih (Nat.lt_of_succ_lt_succ hfuel) hready' hrem'
          refine ⟨reader', ?_, hlimit⟩
          rw [mediaSegmentLoop, hlength]
          dsimp only
          rw [hevent]
          dsimp only
          rw [hloop]
          rfl

end Segment

/-- The media of a byte range: the payloads of the events stored in it. -/
def mediaWithin (evs : List Event) (i j : Nat) : List UInt8 :=
  (within Event.frame evs i j).flatMap fun x => x.2.payload

theorem getMediaSegment_boundaries {reader : ByteReader} {evs : List Event} {i j : Nat}
    (hdata : reader.stream.bytes = evs.flatMap Event.frame)
    (hi : Boundary Event.frame evs i) (hj : Boundary Event.frame evs j) (hij : i ≤ j)
    (hhead : reader.stream.head ≤ i) :
    getMediaSegment reader ⟨i, j⟩ = .ok ⟨"video/mp4", mediaWithin evs i j⟩ := by
  obtain ⟨run, hrun⟩ := exists_between Event.frame_delimiting hi hj hij
  have hle := hj.le
  rw [← hdata] at hle
  have htail := reader.stream.tail_lt
  have hseek := reader.seek_start (show i < 2 ^ 63 by omega)
  have hslice := hrun.slice
  rw [← hdata] at hslice
  have hlength := length_le_flatMap Event.frame_delimiting run
  have hrunlen := hrun.length
  have hready : LawfulRead.Ready (⟨{ reader with offset := i }, j - i⟩ : Take ByteReader) := by
    refine Or.inr ⟨hhead, ?_⟩
    show j - i ≤ (reader.stream.bytes.drop i).length
    rw [List.length_drop]
    omega
  obtain ⟨reader', hloop, hlimit⟩ :=
    mediaSegmentLoop_frames (show run.length < j - i + 1 by omega) hready hslice
  rw [getMediaSegment, if_pos hij, hseek]
  dsimp only
  rw [hloop]
  dsimp only
  have hpayload := congrArg (List.flatMap fun e : Event => e.payload)
    (layout_map_snd Event.frame i run)
  rw [List.flatMap_map] at hpayload
  rw [if_pos hlimit, mediaWithin, hrun.within_eq Event.frame_delimiting, hpayload,
    List.flatMap_def]

/-! ## The loop -/

/-- The lines of the entry between two neighbouring records. -/
inductive IsEntry {F : Type} (a b : Record) : List (Line F) → Prop where
  | gap : IsEntry a b [.discontinuity, .gapExtinf 5, .gap 5]
  | media (discont : Bool) (durationSeconds : F) (time : String) :
      IsEntry a b ((if discont then [.discontinuity] else []) ++
        [.extinf durationSeconds, .programDateTime time, .media a.offset b.offset])

theorem IsEntry.countP_isExtinf {F : Type} {a b : Record} {entry : List (Line F)}
    (h : IsEntry a b entry) : entry.countP Line.isExtinf = 1 := by
  cases h with
  | gap => rfl
  | media discont durationSeconds time => cases discont <;> rfl

section Loop

variable {F : Type} [Add F] [Sub F] [Mul F] [LT F] [DecidableLT F] [OfScientific F] [F64 F]

/-- A round of the loop behind another record adds one entry. -/
theorem push_entry (format : UInt64 → String) {body : PlaylistBody F} {a b : Record}
    (hprev : body.prevIndexRecord = some a.toIndexRecord)
    (ha : a.timestamp.isSome = true) (hb : b.timestamp.isSome = true) :
    ∃ body' entry, body.push format b.toIndexRecord = some body' ∧
      body'.prevIndexRecord = some b.toIndexRecord ∧
      body'.playlistBody = body.playlistBody ++ entry ∧ IsEntry a b entry := by
  obtain ⟨time, htime⟩ := PravegaTimestamp.toIso8601_of_isSome format ha
  obtain ⟨t, ht⟩ := Option.isSome_iff_exists.mp ha
  obtain ⟨t', ht'⟩ := Option.isSome_iff_exists.mp hb
  rw [PlaylistBody.push, hprev]
  dsimp only
  rw [PlaylistBody.pushSegment, ht', ht]
  dsimp only
  split
  · exact ⟨_, _, rfl, rfl, rfl, .gap⟩
  · split
    · exact ⟨_, _, rfl, rfl, rfl, .gap⟩
    · rw [htime]
      exact ⟨_, _, rfl, rfl, List.append_assoc _ _ _, .media body.nextSegmentDiscont _ time⟩

/-- The body over some records, or a panic. -/
def bodyOf (format : UInt64 → String) (rs : List Record) (body : PlaylistBody F) :
    Option (PlaylistBody F) :=
  rs.foldlM (fun b (r : Record) => b.push format r.toIndexRecord) body

/-- Records behind another: one entry for each pair of neighbours. -/
theorem push_entries (format : UInt64 → String) {rs : List Record} :
    ∀ {body : PlaylistBody F} {a : Record},
      body.prevIndexRecord = some a.toIndexRecord → a.timestamp.isSome = true →
      (∀ r ∈ rs, r.timestamp.isSome = true) →
      ∃ body' entries, bodyOf format rs body = some body' ∧
        body'.playlistBody = body.playlistBody ++ entries.flatten ∧
        List.Forall₂ (fun (x : Record × Record) entry => IsEntry x.1 x.2 entry)
          (a :: rs).consecutivePairs entries := by
  induction rs with
  | nil =>
      intro body a _ _ _
      exact ⟨body, [], rfl, (List.append_nil _).symm, .nil⟩
  | cons b rs ih =>
      intro body a hprev ha hvalid
      have hb := hvalid b List.mem_cons_self
      obtain ⟨body₁, entry, hpush, hprev₁, hlines₁, hentry⟩ :=
        push_entry format hprev ha hb
      obtain ⟨body₂, entries, hfold, hlines₂, hentries⟩ :=
        ih hprev₁ hb fun r hr => hvalid r (List.mem_cons_of_mem b hr)
      refine ⟨body₂, entry :: entries, ?_, ?_, .cons hentry hentries⟩
      · rw [bodyOf, List.foldlM_cons, hpush]
        exact hfold
      · rw [hlines₂, hlines₁, List.flatten_cons, List.append_assoc]

/-- With whole records up to the limit, the loop takes them all. The induction is on the
records. -/
theorem playlistLoop_frames {ρ : Type} [Read ρ] [Source ρ] {format : UInt64 → String}
    {rs : List Record} :
    ∀ {fuel : Nat} {indexReader : Take ρ} {body : PlaylistBody F},
      rs.length < fuel → LawfulRead.Ready indexReader →
      LawfulRead.remaining indexReader = rs.flatMap Record.frame →
      playlistLoop format fuel indexReader body = checked (bodyOf format rs body) := by
  induction rs with
  | nil =>
      intro fuel indexReader body hfuel hready hrem
      cases fuel with
      | zero => exact absurd hfuel (Nat.not_lt_zero _)
      | succ fuel =>
          obtain ⟨indexReader', hread, hready', hrem'⟩ :=
            IndexRecordReader.read_end hready hrem
          rw [playlistLoop, hread]
          dsimp only
          rw [if_pos (by rw [reachedEnd, Take.limit_eq_zero hready' hrem']; rfl)]
          rfl
  | cons r rs ih =>
      intro fuel indexReader body hfuel hready hrem
      cases fuel with
      | zero => exact absurd hfuel (Nat.not_lt_zero _)
      | succ fuel =>
          rw [List.flatMap_cons] at hrem
          obtain ⟨indexReader', hread, hready', hrem'⟩ :=
            IndexRecordReader.read_frame hready hrem
          rw [bodyOf, List.foldlM_cons, playlistLoop, hread]
          dsimp only
          cases body.push format r.toIndexRecord with
          | none => rfl
          | some body' => exact ih (Nat.lt_of_succ_lt_succ hfuel) hready' hrem'

/-- The body of a playlist over records with timestamps. -/
theorem bodyOf_entries (format : UInt64 → String) {rs : List Record}
    (hvalid : ∀ r ∈ rs, r.timestamp.isSome = true) :
    ∃ (body : PlaylistBody F) (entries : List (List (Line F))),
      bodyOf format rs PlaylistBody.initial = some body ∧
      body.playlistBody = entries.flatten ∧
      List.Forall₂ (fun (x : Record × Record) entry => IsEntry x.1 x.2 entry)
        rs.consecutivePairs entries := by
  cases rs with
  | nil => exact ⟨PlaylistBody.initial, [], rfl, rfl, .nil⟩
  | cons r rs =>
      let first : PlaylistBody F :=
        { (PlaylistBody.initial : PlaylistBody F) with prevIndexRecord := some r.toIndexRecord }
      have hprev : first.prevIndexRecord = some r.toIndexRecord := rfl
      obtain ⟨body, entries, hfold, hlines, hentries⟩ :=
        push_entries format hprev (hvalid r List.mem_cons_self)
          fun r' hr' => hvalid r' (List.mem_cons_of_mem r hr')
      refine ⟨body, entries, ?_, hlines, hentries⟩
      rw [bodyOf, List.foldlM_cons]
      exact hfold

end Loop

/-! ## The playlist -/

section Playlist

variable {F : Type} [Add F] [Sub F] [Mul F] [LT F] [DecidableLT F] [OfScientific F] [F64 F]
  {w : Streams} {recs : List Record} {evs : List Event}

/-- The records from the `i`-th to the `j`-th. -/
def selected (recs : List Record) (i j : Nat) : List Record :=
  (recs.drop i).take (j - i + 1)

theorem mem_of_mem_selected {i j : Nat} {r : Record} (h : r ∈ selected recs i j) :
    r ∈ recs := List.mem_of_mem_drop (List.mem_of_mem_take h)

theorem getElem?_selected {i j m : Nat} {r : Record} (h : (selected recs i j)[m]? = some r) :
    recs[i + m]? = some r := by
  obtain ⟨hm, _⟩ := List.getElem?_eq_some_iff.mp h
  rw [selected, List.length_take] at hm
  rw [selected, List.getElem?_take_of_lt (by omega), List.getElem?_drop] at h
  exact h

/-- An index reader that is limited to the records from the `i`-th to the `j`-th. -/
def takeSelected (w : Streams) (indexReader : ByteReader) (i j : Nat) : Take ByteReader :=
  ⟨{ indexReader with offset := w.index.head + IndexRecord.recordSize * i },
    IndexRecord.recordSize * (j - i + 1)⟩

section Selected

variable {indexReader : ByteReader} {i j : Nat}

theorem remaining_takeSelected (hindex : Holds w.index recs)
    (hreader : indexReader.stream = w.index) :
    LawfulRead.remaining (takeSelected w indexReader i j) =
      (selected recs i j).flatMap Record.frame := by
  show (indexReader.stream.bytes.drop _).take _ = _
  rw [hreader]
  exact hindex.slice i (j - i + 1)

/-- The end of the selection, and of the index. -/
theorem selected_le_tail (hindex : Holds w.index recs) (hij : i ≤ j) (hj : j < recs.length) :
    w.index.head + IndexRecord.recordSize * i + IndexRecord.recordSize * (j - i + 1) =
        w.index.head + IndexRecord.recordSize * j + IndexRecord.recordSize ∧
      w.index.head + IndexRecord.recordSize * j + IndexRecord.recordSize ≤ w.index.tail := by
  have htail := hindex.tail_eq
  have hmul := Nat.mul_le_mul_left IndexRecord.recordSize hj
  have hsplit : IndexRecord.recordSize * i + IndexRecord.recordSize * (j - i + 1) =
      IndexRecord.recordSize * j + IndexRecord.recordSize := by
    rw [← Nat.mul_add, ← Nat.mul_succ]
    congr 1
    omega
  rw [Nat.mul_succ] at hmul
  constructor
  · omega
  · omega

theorem ready_takeSelected (hindex : Holds w.index recs)
    (hreader : indexReader.stream = w.index) (hij : i ≤ j) (hj : j < recs.length) :
    LawfulRead.Ready (takeSelected w indexReader i j) := by
  obtain ⟨hend, hle⟩ := selected_le_tail hindex hij hj
  rw [ByteStream.tail] at hle
  refine Or.inr ⟨?_, ?_⟩
  · show indexReader.stream.head ≤ _
    rw [hreader]
    exact Nat.le_add_right _ _
  · show IndexRecord.recordSize * (j - i + 1) ≤
      (indexReader.stream.bytes.drop (w.index.head + IndexRecord.recordSize * i)).length
    rw [hreader, List.length_drop]
    omega

end Selected

/-- A search ends at a record. -/
theorem searchAfter_record (hindex : Holds w.index recs) (hne : recs ≠ []) (checks : Bool)
    (t : PravegaTimestamp) :
    ∃ i r, recs[i]? = some r ∧ Located recs t .after i ∧
      searchAfter checks w t =
        .ok (r.toIndexRecord, w.index.head + IndexRecord.recordSize * i) := by
  obtain ⟨i, r, hr, hloc, hrun, _⟩ :=
    yields_searchTimestamp (show Holds (w.get .index) recs from hindex) checks hne t .after
  refine ⟨i, r, hr, hloc, ?_⟩
  rw [searchAfter, hrun]
  rfl

/-- The handler answers with the text of the playlist. -/
theorem getM3u8Playlist_of_playlist [ToString F] {checks : Bool} {format : UInt64 → String}
    {indexReader : ByteReader} {opts : GetM3u8PlaylistOptions} {b e : PravegaTimestamp}
    {pl : Playlist F} (htimes : timestamps checks opts = some (b, e)) (hbe : b ≤ e)
    (hpl : playlist checks format w indexReader b e = .ok pl) :
    getM3u8Playlist (F := F) checks format w indexReader opts = .ok pl.text := by
  rw [getM3u8Playlist, htimes]
  dsimp only
  rw [if_pos hbe, hpl]
  rfl

/-- A playlist between two records that the searches find. -/
theorem playlist_eq {checks : Bool} (format : UInt64 → String)
    {indexReader : ByteReader} {b e : PravegaTimestamp} {i j : Nat} {first last : Record}
    (hindex : Holds w.index recs) (hreader : indexReader.stream = w.index)
    (hij : i ≤ j) (hj : j < recs.length)
    (hbegin : searchAfter checks w b =
      .ok (first.toIndexRecord, w.index.head + IndexRecord.recordSize * i))
    (hend : searchAfter checks w e =
      .ok (last.toIndexRecord, w.index.head + IndexRecord.recordSize * j)) :
    playlist checks format w indexReader b e =
      (checked (bodyOf format (selected recs i j) PlaylistBody.initial)).map
        fun (body : PlaylistBody F) =>
          ⟨(w.index.head + IndexRecord.recordSize * i) / IndexRecord.recordSize,
            F64.round body.targetDurationSeconds, body.playlistBody,
            decide (e ≤ last.timestamp)⟩ := by
  obtain ⟨hsum, hle⟩ := selected_le_tail hindex hij hj
  have htail := w.index.tail_lt
  rw [← ByteStream.tail] at htail
  have hlength : (selected recs i j).length < IndexRecord.recordSize * (j - i + 1) + 1 := by
    have htake := List.length_take_le (j - i + 1) (recs.drop i)
    have hsize : j - i + 1 ≤ IndexRecord.recordSize * (j - i + 1) :=
      Nat.le_mul_of_pos_left _ (by decide)
    rw [selected]
    omega
  have hloop : playlistLoop format _ _ (PlaylistBody.initial : PlaylistBody F) = _ :=
    playlistLoop_frames hlength (ready_takeSelected hindex hreader hij hj)
      (remaining_takeSelected hindex hreader)
  have hseek := indexReader.seek_start
    (show w.index.head + IndexRecord.recordSize * i < 2 ^ 63 by omega)
  have hadd : addU64 checks (w.index.head + IndexRecord.recordSize * j)
      IndexRecord.recordSize = _ := addU64_of_lt (by omega)
  have hsub : subU64 checks
      (w.index.head + IndexRecord.recordSize * j + IndexRecord.recordSize)
      (w.index.head + IndexRecord.recordSize * i) =
      some (IndexRecord.recordSize * (j - i + 1)) := by
    rw [subU64_of_le (by omega), ← hsum, Nat.add_sub_cancel_left]
  rw [playlist, hbegin, hend]
  simp only [bind, Except.bind, pure, Except.pure]
  rw [hadd]
  dsimp only [checked]
  rw [hsub]
  dsimp only
  rw [hseek]
  dsimp only
  rw [takeSelected] at hloop
  rw [hloop]
  cases bodyOf format (selected recs i j) (PlaylistBody.initial : PlaylistBody F) with
  | none => rfl
  | some body => rfl

theorem playlist_entries {checks : Bool} (format : UInt64 → String)
    {indexReader : ByteReader} {b e : PravegaTimestamp} {i j : Nat} {first last : Record}
    (hindex : Holds w.index recs) (hreader : indexReader.stream = w.index)
    (hvalid : ∀ r ∈ recs, r.timestamp.isSome = true) (hij : i ≤ j) (hj : j < recs.length)
    (hbegin : searchAfter checks w b =
      .ok (first.toIndexRecord, w.index.head + IndexRecord.recordSize * i))
    (hend : searchAfter checks w e =
      .ok (last.toIndexRecord, w.index.head + IndexRecord.recordSize * j)) :
    ∃ (pl : Playlist F) (entries : List (List (Line F))),
      playlist checks format w indexReader b e = .ok pl ∧
      IndexRecord.recordSize * pl.initialMediaSequenceNumber =
        w.index.head + IndexRecord.recordSize * i ∧
      pl.body = entries.flatten ∧
      List.Forall₂ (fun (x : Record × Record) entry => IsEntry x.1 x.2 entry)
        (selected recs i j).consecutivePairs entries := by
  obtain ⟨body, entries, hbody, hlines, hentries⟩ :=
    bodyOf_entries (F := F) format fun r hr => hvalid r (mem_of_mem_selected hr)
  have hplaylist := playlist_eq (F := F) format hindex hreader hij hj hbegin hend
  rw [hbody] at hplaylist
  refine ⟨_, entries, hplaylist, ?_, hlines, hentries⟩
  exact Nat.mul_div_cancel' (Nat.dvd_add hindex.aligned (Nat.dvd_mul_right _ _))

omit [Add F] [Sub F] [Mul F] [LT F] [DecidableLT F] [OfScientific F] [F64 F] in
theorem countP_isExtinf_flatten {xs : List (Record × Record)} {entries : List (List (Line F))}
    (h : List.Forall₂ (fun (x : Record × Record) entry => IsEntry x.1 x.2 entry) xs entries) :
    entries.flatten.countP Line.isExtinf = xs.length := by
  induction h with
  | nil => rfl
  | cons hentry _ ih =>
      rw [List.flatten_cons, List.countP_append, hentry.countP_isExtinf, ih,
        List.length_cons, Nat.add_comm]

/-- What a playlist of the records `rs` says, and what a data reader answers to it. -/
structure Tiles (w : Streams) (evs : List Event) (reader : ByteReader) (rs : List Record)
    (pl : Playlist F) : Prop where
  /-- An entry for each pair of neighbours. -/
  entries : ∃ entries : List (List (Line F)), pl.body = entries.flatten ∧
    List.Forall₂ (fun (x : Record × Record) entry => IsEntry x.1 x.2 entry)
      rs.consecutivePairs entries
  count : pl.body.countP Line.isExtinf = rs.length - 1
  sequence : ∀ m r, rs[m]? = some r →
    IsRecordNumber w.index (pl.initialMediaSequenceNumber + m) r
  segment : ∀ x ∈ rs.consecutivePairs,
    getMediaSegment reader ⟨x.1.offset, x.2.offset⟩ =
      .ok ⟨"video/mp4", mediaWithin evs x.1.offset x.2.offset⟩
  /-- Segments in a row: each event between the ends, once and in order. -/
  run : ∀ before run after a c, rs = before ++ run ++ after → run.head? = some a →
    run.getLast? = some c →
      run.consecutivePairs.flatMap (fun x => within Event.frame evs x.1.offset x.2.offset) =
        within Event.frame evs a.offset c.offset

/-- Both searches end at records of the index, and from the one record to the other
the playlist tiles the recording. -/
theorem playlist_tiles_recording [ToString F] {checks : Bool} (format : UInt64 → String)
    (indexReader reader : ByteReader) (opts : GetM3u8PlaylistOptions)
    {b e : PravegaTimestamp} (hindex : Holds w.index recs)
    (hindexReader : indexReader.stream = w.index)
    (hdata : w.data.bytes = evs.flatMap Event.frame) (hreader : reader.stream = w.data)
    (hvalid : ∀ r ∈ recs, r.timestamp.isSome = true)
    (hsorted : recs.Pairwise fun r r' => r.offset ≤ r'.offset)
    (hboundary : ∀ r ∈ recs, Boundary Event.frame evs r.offset)
    (hreadable : ∀ r ∈ recs, w.data.head ≤ r.offset)
    (hne : recs ≠ []) (htimes : timestamps checks opts = some (b, e)) (hbe : b ≤ e) :
    ∃ i j first last, recs[i]? = some first ∧ recs[j]? = some last ∧
      searchAfter checks w b =
        .ok (first.toIndexRecord, w.index.head + IndexRecord.recordSize * i) ∧
      searchAfter checks w e =
        .ok (last.toIndexRecord, w.index.head + IndexRecord.recordSize * j) ∧
      (i ≤ j → ∃ pl : Playlist F,
        getM3u8Playlist (F := F) checks format w indexReader opts = .ok pl.text ∧
        Tiles w evs reader (selected recs i j) pl) := by
  obtain ⟨i, first, hfirst, _, hbegin⟩ := searchAfter_record hindex hne checks b
  obtain ⟨j, last, hlast, _, hend⟩ := searchAfter_record hindex hne checks e
  refine ⟨i, j, first, last, hfirst, hlast, hbegin, hend, ?_⟩
  intro hij
  obtain ⟨hj, _⟩ := List.getElem?_eq_some_iff.mp hlast
  obtain ⟨pl, entries, hplaylist, hnumber, hbody, hentries⟩ :=
    playlist_entries (F := F) format hindex hindexReader hvalid hij hj hbegin hend
  have hselected : (selected recs i j).Pairwise fun r r' => r.offset ≤ r'.offset :=
    (hsorted.drop).take
  refine ⟨pl, getM3u8Playlist_of_playlist htimes hbe hplaylist, ⟨entries, hbody, hentries⟩,
    ?_, ?_, ?_, ?_⟩
  · rw [hbody, countP_isExtinf_flatten hentries, List.length_zip, List.length_tail]
    exact Nat.min_eq_right (Nat.sub_le _ _)
  · intro m r hr
    refine isRecordNumber_of_read ?_
    rw [Nat.mul_add, hnumber, Nat.add_assoc, ← Nat.mul_add]
    exact hindex.read_record (getElem?_selected hr)
  · intro x hx
    obtain ⟨ha, hb⟩ := List.of_mem_zip hx
    have ha := mem_of_mem_selected ha
    have hb := mem_of_mem_selected (List.mem_of_mem_tail hb)
    refine getMediaSegment_boundaries (hreader ▸ hdata) (hboundary x.1 ha) (hboundary x.2 hb)
      (rel_of_mem_consecutivePairs hselected hx) ?_
    rw [hreader]
    exact hreadable x.1 ha
  · intro before run after a c hsplit hhead hlast'
    rw [hsplit] at hselected
    have hrun := (List.pairwise_append.mp (List.pairwise_append.mp hselected).1).2.1
    exact flatMap_within Event.frame_delimiting evs (fun r : Record => r.offset) hrun
      hlast' hhead

end Playlist

/-- Four events, of which the first two are truncated away with their index record. -/
def keptEvents : List Event :=
  [⟨⟨⟨⟨some 100⟩, true, true, true⟩, [1, 2]⟩, by decide, by decide⟩,
    ⟨⟨⟨⟨some 200⟩, true, true, false⟩, [3, 4]⟩, by decide, by decide⟩,
    ⟨⟨⟨⟨some 300⟩, true, true, false⟩, [5, 6]⟩, by decide, by decide⟩,
    ⟨⟨⟨⟨some 400⟩, true, true, false⟩, [7, 8]⟩, by decide, by decide⟩]

def droppedRecord : Record := ⟨⟨⟨some 200⟩, 22, true, false⟩, by decide, by decide⟩

def firstRecord : Record := ⟨⟨⟨some 300⟩, 44, true, false⟩, by decide, by decide⟩

def lastRecord : Record := ⟨⟨⟨some 500⟩, 88, false, false⟩, by decide, by decide⟩

def keptRecords : List Record :=
  [firstRecord, ⟨⟨⟨some 400⟩, 66, true, false⟩, by decide, by decide⟩, lastRecord]

def keptStreams : Streams :=
  ⟨⟨44, keptEvents.flatMap Event.frame, by decide⟩,
    ⟨20, (droppedRecord :: keptRecords).flatMap Record.frame, by decide⟩⟩

theorem playlist_tiles_kept :
    ∃ pl : Playlist Float,
      getM3u8Playlist (F := Float) true (fun _ => "now") keptStreams
          (.new keptStreams.index false [3]) ⟨none, none⟩ = .ok pl.text ∧
        Tiles keptStreams keptEvents (.new keptStreams.data false [1])
          (selected keptRecords 0 2) pl := by
  have hindex : Holds keptStreams.index keptRecords := ⟨by decide, by decide, rfl⟩
  have htimes : timestamps true ⟨none, none⟩ = some (.min, .max) := by decide
  have hfirst : searchAfter true keptStreams .min = .ok (firstRecord.toIndexRecord, 20) := by
    decide +kernel
  have hlast : searchAfter true keptStreams .max = .ok (lastRecord.toIndexRecord, 60) := by
    decide +kernel
  obtain ⟨i, j, first, last, _, _, hbegin, hend, htiles⟩ :=
    playlist_tiles_recording (F := Float) (fun _ => "now") (.new keptStreams.index false [3])
      (.new keptStreams.data false [1]) ⟨none, none⟩ hindex rfl rfl rfl (by decide) (by decide)
      (by decide +kernel) (by decide) (by decide) htimes (by decide)
  rw [hfirst] at hbegin
  rw [hlast] at hend
  injection hbegin with hbegin
  injection hend with hend
  injection hbegin with _ hi
  injection hend with _ hj
  have hi : 20 = 20 + 20 * i := hi
  have hj : 60 = 20 + 20 * j := hj
  obtain rfl : i = 0 := by omega
  obtain rfl : j = 2 := by omega
  exact htiles (by decide)

end GstPravega.Server.Db
