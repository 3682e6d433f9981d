import GstPravega.Proofs.SrcReads

/-!
# Reading a window of time

The source looks up the start of the window with one search and its end with the
other: it begins at the last record not after the start and stops at the first one
not before the end. On an index that partitions the data by time, an event between
the ends of the index whose timestamp is in the window therefore lies between the
two records, and every event between them is older than the second. Both records
are at event boundaries, so the limit is met exactly between two events.

Nothing is said of how the offsets of the records are arranged, except that what
they point at can still be read. Where the second record lies in front of the first
the source reads nothing, and there is nothing to read.
-/

namespace GstPravega.Plugin.PravegaSrc

open GstPravega.Lib GstPravega.Client GstPravega.Gst GstPravega.Video

/-- The events `run` at `base` are what is stored of the times from `s` to `e`. -/
structure WindowOf (recs : List Record) (evs : List Event) (s e : PravegaTimestamp)
    (base : Nat) (run : List Event) : Prop where
  complete : ∀ o event, (o, event) ∈ layout Event.frame 0 evs →
    offsetAt recs 0 ≤ o → o < offsetAt recs (recs.length - 1) →
    s ≤ event.header.timestamp → event.header.timestamp < e →
      (o, event) ∈ layout Event.frame base run
  once : (layout Event.frame base run).Pairwise fun x y => x.1 < y.1
  exact : ∀ event ∈ run, ∀ i < recs.length, e ≤ timeAt recs i →
    event.header.timestamp < timeAt recs i

section Window

variable {w : Streams} {recs : List Record} {evs : List Event} {s e : PravegaTimestamp}
  {i j o : Nat} {event : Event}

/-- The two records around the window. -/
structure Bounds (recs : List Record) (s e : PravegaTimestamp) (i j : Nat) : Prop where
  start_lt : i < recs.length
  end_lt : j < recs.length
  start : i = 0 ∨ timeAt recs i ≤ s
  le_end : e ≤ timeAt recs j
  first : ∀ k < recs.length, e ≤ timeAt recs k → j ≤ k

theorem bounds_of_located (h : Increasing recs) (he : e ≤ timeAt recs (recs.length - 1))
    (hi : Located recs s .before i) (hj : Located recs e .after j) : Bounds recs s e i j := by
  obtain ⟨hend, hfirst⟩ := (hj.after h).2 he
  refine ⟨hi.lt_length, hj.lt_length, ?_, hend, hfirst⟩
  rcases lt_or_ge s (timeAt recs 0) with hlt | hge
  · exact Or.inl ((hi.before h).1 hlt)
  · exact Or.inr ((hi.before h).2 hge).1

theorem Bounds.le (h : Bounds recs s e i j) (hinc : Increasing recs) (hse : s ≤ e) :
    i ≤ j := by
  rcases h.start with rfl | hstart
  · exact Nat.zero_le j
  · rw [← hinc.le_iff h.start_lt h.end_lt]
    exact le_trans hstart (le_trans hse h.le_end)

/-- What is stored of the window lies between the two records. -/
theorem Bounds.complete (h : Bounds recs s e i j) (hp : Partitions w recs evs)
    (hreadable : w.data.head ≤ offsetAt recs 0)
    (hmem : (o, event) ∈ layout Event.frame 0 evs) (hfirst : offsetAt recs 0 ≤ o)
    (hlast : o < offsetAt recs (recs.length - 1)) (hs : s ≤ event.header.timestamp)
    (he : event.header.timestamp < e) : offsetAt recs i ≤ o ∧ o < offsetAt recs j := by
  have hstored : StoredAt w.data evs o event := ⟨hmem, Nat.le_trans hreadable hfirst⟩
  have hi := h.start_lt
  have hj := h.end_lt
  constructor
  · by_contra hlt
    have hlt := Nat.lt_of_not_le hlt
    have htime := (hp.timed (Nat.zero_le i) hi hstored hfirst hlt).2
    rcases h.start with rfl | hstart
    · omega
    · exact absurd (le_trans hstart hs) (not_le.mpr htime)
  · by_contra hge
    have hge := Nat.le_of_not_lt hge
    have htime := (hp.timed (show j ≤ recs.length - 1 by omega) (by omega) hstored hge
      hlast).1
    exact absurd (le_trans h.le_end htime) (not_le.mpr he)

/-- Nothing between the two records is as late as the second. -/
theorem Bounds.exact (h : Bounds recs s e i j) (hp : Partitions w recs evs) (hse : s ≤ e)
    (hstored : StoredAt w.data evs o event) (hi : offsetAt recs i ≤ o)
    (hj : o < offsetAt recs j) {k : Nat} (hk : k < recs.length) (he : e ≤ timeAt recs k) :
    event.header.timestamp < timeAt recs k := by
  have htime := (hp.timed (h.le hp.increasing hse) h.end_lt hstored hi hj).2
  exact lt_of_lt_of_le htime (hp.increasing.le (h.first k hk he) hk)

end Window

theorem endOffset_timestamp {checks : Bool} {settings : Settings} {w : Streams}
    {reader : ByteReader} {record : IndexRecord} (hend : settings.endMode = .timestamp)
    (hsearch : search w (IndexSearcher.searchTimestampAfter checks .index
      (PravegaTimestamp.fromNanoseconds (some settings.endTimestamp))) = .ok record) :
    endOffset checks settings w reader = .ok (record.offset, reader) := by
  rw [endOffset, hend]
  dsimp only
  rw [hsearch]
  rfl

/-- On an index that partitions the data by time, a source that reads a window of
time plays a run of whole events and then ends: all that is stored of the window,
and nothing as late as the first record not before its end. -/
theorem src_plays_window {checks : Bool} {settings : Settings} {client : Client}
    {recs : List Record} {evs : List Event} (h : Partitions client.streams recs evs)
    (hboundary : ∀ r ∈ recs, Boundary Event.frame evs r.offset)
    (hreadable : ∀ r ∈ recs, client.streams.data.head ≤ r.offset)
    (hanswers : Answers settings client) (hstart : settings.startMode = .timestamp)
    (hend : settings.endMode = .timestamp)
    (hse : settings.startTimestamp ≤ settings.endTimestamp)
    (hlast : PravegaTimestamp.fromNanoseconds (some settings.endTimestamp) ≤
      timeAt recs (recs.length - 1)) :
    ∃ base run,
      (∃ before after, evs = before ++ run ++ after ∧
        (before.flatMap Event.frame).length = base) ∧
      Plays checks settings client ((layout Event.frame base run).map bufferAt) .eos ∧
      WindowOf recs evs (PravegaTimestamp.fromNanoseconds (some settings.startTimestamp))
        (PravegaTimestamp.fromNanoseconds (some settings.endTimestamp)) base run := by
  have hne : recs ≠ [] := by
    rintro rfl
    exact absurd hlast (not_le.mpr (Nat.succ_pos _))
  have hse : PravegaTimestamp.fromNanoseconds (some settings.startTimestamp) ≤
      PravegaTimestamp.fromNanoseconds (some settings.endTimestamp) :=
    Nat.succ_le_succ (UInt64.le_iff_toNat_le.mp hse)
  obtain ⟨i, r, hr, hi, hsearch⟩ := (search_timestamp h.index hne checks
    (PravegaTimestamp.fromNanoseconds (some settings.startTimestamp))).1
  obtain ⟨j, r', hr', hj, hsearch'⟩ := (search_timestamp h.index hne checks
    (PravegaTimestamp.fromNanoseconds (some settings.endTimestamp))).2
  have hbounds := bounds_of_located h.increasing hlast hi hj
  have hmem := List.mem_of_getElem? hr
  have hmem' := List.mem_of_getElem? hr'
  have htail := client.streams.data.tail_lt
  rw [← ByteStream.tail] at htail
  have hfirst : client.streams.data.head ≤ offsetAt recs 0 := by
    have hget := List.getElem?_eq_getElem (List.length_pos_iff.mpr hne)
    rw [offsetAt_of_getElem? hget]
    exact hreadable _ (List.mem_of_getElem? hget)
  have hbound := h.bounded r hmem
  have hbound' := h.bounded r' hmem'
  have hhead := hreadable r hmem
  obtain ⟨st, hstarted, hover⟩ := start_over hanswers
    (endOffset_timestamp hend hsearch') rfl
    (show client.streams.data.head < 2 ^ 63 by omega)
  rw [← hover.streams] at hsearch
  have hcomplete : ∀ o event, (o, event) ∈ layout Event.frame 0 evs →
      offsetAt recs 0 ≤ o → o < offsetAt recs (recs.length - 1) →
      PravegaTimestamp.fromNanoseconds (some settings.startTimestamp) ≤
        event.header.timestamp →
      event.header.timestamp <
        PravegaTimestamp.fromNanoseconds (some settings.endTimestamp) →
      r.offset ≤ o ∧ o < r'.offset := by
    intro o event he h0 hl hs ht
    have hbetween := hbounds.complete h hfirst he h0 hl hs ht
    rw [offsetAt_of_getElem? hr, offsetAt_of_getElem? hr'] at hbetween
    exact hbetween
  rcases Nat.lt_or_ge r'.offset r.offset with hlt | hle
  · obtain ⟨st', hseek, hat⟩ := seekTo_past hover (show r.offset < 2 ^ 63 by omega) hlt
    obtain ⟨before, after, rfl, hbase⟩ := hboundary r' hmem'
    refine ⟨r'.offset, [], ⟨before, after, by simp, hbase⟩, ?_, ?_, .nil,
      fun _ he => absurd he List.not_mem_nil⟩
    · exact ⟨_, _, st', hstarted, doSeek_timestamp hstart hsearch hseek, emits_frames hat⟩
    · intro o event he h0 hl hs ht
      have hbetween := hcomplete o event he h0 hl hs ht
      omega
  · obtain ⟨st', hseek, hat⟩ := seekTo_at hover hhead hle hbound'
    obtain ⟨run, hrun⟩ := exists_between Event.frame_delimiting (hboundary r hmem)
      (hboundary r' hmem') hle
    rw [h.data, hrun.slice] at hat
    refine ⟨r.offset, run, hrun.split, ?_, ?_, layout_pairwise Event.frame_delimiting _ _, ?_⟩
    · exact ⟨_, _, st', hstarted, doSeek_timestamp hstart hsearch hseek, emits_frames hat⟩
    · intro o event he h0 hl hs ht
      exact (hrun.mem_layout_iff Event.frame_delimiting).mpr
        ⟨he, hcomplete o event he h0 hl hs ht⟩
    · intro event he k hk ht
      rw [← layout_map_snd Event.frame r.offset run] at he
      obtain ⟨⟨o, event⟩, hx, rfl⟩ := List.mem_map.mp he
      obtain ⟨hstored, hge, hlt⟩ := (hrun.mem_layout_iff Event.frame_delimiting).mp hx
      rw [← offsetAt_of_getElem? hr] at hge
      rw [← offsetAt_of_getElem? hr'] at hlt
      rw [← offsetAt_of_getElem? hr] at hhead
      exact hbounds.exact h hse ⟨hstored, Nat.le_trans hhead hge⟩ hge hlt hk ht

/-! ## Two recordings -/

def windowSettings (startTimestamp endTimestamp : UInt64) : Settings :=
  { Settings.default with
    scope := some "examples"
    stream := some "camera"
    startMode := .timestamp
    endMode := .timestamp
    startTimestamp := startTimestamp
    endTimestamp := endTimestamp }

/-- A client that serves these streams, piece by piece. -/
def windowClient (streams : Streams) : Client where
  createClientConfig _ _ := .ok ()
  createScope _ := .error "exists"
  createStream _ _ := .ok ()
  streams := streams
  isSealed := false
  fetched := [1, 2, 3]

theorem answers_window (startTimestamp endTimestamp : UInt64) (streams : Streams) :
    Answers (windowSettings startTimestamp endTimestamp) (windowClient streams) :=
  ⟨"examples", "camera", _, rfl, rfl, rfl, rfl, rfl, rfl⟩

/-- Three events, the first two with an index record, and a final record. -/
def cameraEvents : List Event :=
  [⟨⟨⟨⟨some 10⟩, true, true, true⟩, [7]⟩, by decide, by decide⟩,
    ⟨⟨⟨⟨some 20⟩, true, true, false⟩, [8]⟩, by decide, by decide⟩,
    ⟨⟨⟨⟨some 30⟩, false, false, false⟩, [9]⟩, by decide, by decide⟩]

def cameraRecords : List Record :=
  [⟨⟨⟨some 10⟩, 0, true, true⟩, by decide, by decide⟩,
    ⟨⟨⟨some 20⟩, 21, true, false⟩, by decide, by decide⟩,
    ⟨⟨⟨some 40⟩, 63, false, false⟩, by decide, by decide⟩]

def cameraStreams : Streams :=
  ⟨⟨0, cameraEvents.flatMap Event.frame, by decide⟩,
    ⟨0, cameraRecords.flatMap Record.frame, by decide⟩⟩

theorem camera_partitions : Partitions cameraStreams cameraRecords cameraEvents where
  index := ⟨by decide, by decide, rfl⟩
  data := rfl
  increasing := by
    rw [Increasing]
    decide
  bounded := by decide
  between := between_of_layout (by decide +kernel)

theorem src_plays_window_camera :
    ∃ base run,
      (∃ before after, cameraEvents = before ++ run ++ after ∧
        (before.flatMap Event.frame).length = base) ∧
      Plays true (windowSettings 20 35) (windowClient cameraStreams)
        ((layout Event.frame base run).map bufferAt) .eos ∧
      WindowOf cameraRecords cameraEvents ⟨some 20⟩ ⟨some 35⟩ base run := by
  exact src_plays_window camera_partitions (by decide +kernel) (by decide)
    (answers_window 20 35 _) rfl rfl (by decide) (by decide)

/-- Three events, of which the first two are truncated away, and an index that goes
back to them behind a record that can be read. -/
def rewoundEvents : List Event :=
  List.replicate 3 ⟨⟨⟨⟨some 2⟩, true, true, true⟩, []⟩, by decide, by decide⟩

def rewoundRecords : List Record :=
  [⟨⟨⟨some 1⟩, 40, true, true⟩, by decide, by decide⟩,
    ⟨⟨⟨some 2⟩, 0, true, false⟩, by decide, by decide⟩,
    ⟨⟨⟨some 3⟩, 60, false, false⟩, by decide, by decide⟩]

def rewoundStreams : Streams :=
  ⟨⟨40, rewoundEvents.flatMap Event.frame, by decide⟩,
    ⟨0, rewoundRecords.flatMap Record.frame, by decide⟩⟩

theorem rewound_partitions : Partitions rewoundStreams rewoundRecords rewoundEvents where
  index := ⟨by decide, by decide, rfl⟩
  data := rfl
  increasing := by
    rw [Increasing]
    decide
  bounded := by decide
  between := between_of_layout (by decide +kernel)

/-- It is not enough that the data can be read from the offset of the first record
on: the one the search leads to may point in front of it. -/
theorem src_plays_no_rewound_window :
    ¬ ∀ (settings : Settings) (client : Client) (recs : List Record) (evs : List Event),
      Partitions client.streams recs evs →
      (∀ r ∈ recs, Boundary Event.frame evs r.offset) →
      client.streams.data.head ≤ offsetAt recs 0 → Answers settings client →
      settings.startMode = .timestamp → settings.endMode = .timestamp →
      settings.startTimestamp ≤ settings.endTimestamp →
      PravegaTimestamp.fromNanoseconds (some settings.endTimestamp) ≤
        timeAt recs (recs.length - 1) →
      ∃ bs, Plays true settings client bs .eos := by
  intro hall
  obtain ⟨bs, s, segment, st, hstart, hseek, hemits⟩ :=
    hall (windowSettings 2 3) (windowClient rewoundStreams) rewoundRecords rewoundEvents
      rewound_partitions (by decide +kernel) (by decide) (answers_window 2 3 _) rfl rfl
      (by decide) (by decide)
  have hfails : (doSeek true (windowSettings 2 3) Segment.initial
      (start true (windowSettings 2 3) (windowClient rewoundStreams) .stopped).2).map
        (fun x => (create (.started x.2.2)).1) =
      .ok (.error (.failed (.error .coreFailed
        "Failed to read event length from stream: segment truncated"))) := by
    decide +kernel
  rw [hstart, hseek] at hfails
  injection hfails with hfails
  dsimp only at hfails
  cases hemits with
  | stop hcreate =>
      rw [hcreate] at hfails
      cases hfails
  | more hcreate _ =>
      rw [hcreate] at hfails
      cases hfails

end GstPravega.Plugin.PravegaSrc
