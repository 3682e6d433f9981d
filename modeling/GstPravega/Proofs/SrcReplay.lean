import GstPravega.Proofs.Redelivery
import GstPravega.Proofs.RoundTrip
import GstPravega.Proofs.TimeWindow

/-!
# pravegasrc in front of pravegatc

A pipeline that plays a stored recording from its source into the element, over a stream
whose index partitions it by time. The first process plays from the first index record.
Every other has its source sent to the time of the record in the table, and the source
begins at the last index record not after that time; the events it leaves out lie in front
of that record and are older. So it gets an end of the recording and misses nothing from
that time on (`gets_of_feeds`), which is what was asked of a pipeline.
-/

namespace GstPravega.Plugin.PravegaSrc

open GstPravega.Lib GstPravega.Client GstPravega.Gst GstPravega.Video

/-! ## A run of the source is determined -/

theorem Emits.unique {s : State} {bs bs' : List Buffer} {e e' : FlowError}
    (h : Emits s bs e) (h' : Emits s bs' e') : bs = bs' := by
  induction h generalizing bs' with
  | stop hcreate =>
      cases h' with
      | stop _ => rfl
      | more hcreate' _ =>
          rw [hcreate] at hcreate'
          cases hcreate'
  | more hcreate _ ih =>
      cases h' with
      | stop hcreate' =>
          rw [hcreate] at hcreate'
          cases hcreate'
      | more hcreate' hrest' =>
          rw [hcreate] at hcreate'
          cases hcreate'
          rw [ih hrest']

theorem Plays.unique {checks : Bool} {settings : Settings} {client : Client}
    {bs bs' : List Buffer} {e e' : FlowError} (h : Plays checks settings client bs e)
    (h' : Plays checks settings client bs' e') : bs = bs' := by
  obtain ⟨s, segment, st, hstart, hseek, hemits⟩ := h
  obtain ⟨s', segment', st', hstart', hseek', hemits'⟩ := h'
  rw [hstart] at hstart'
  cases hstart'
  rw [hseek] at hseek'
  cases hseek'
  exact hemits.unique hemits'

/-! ## From a time to the end -/

/-- The initial seek by the index, whatever the start mode. -/
theorem doSeek_initial {checks : Bool} {settings : Settings} {st st' : Started}
    {record : IndexRecord} (hstart : settings.startMode ≠ .noSeek)
    (hsearch : search st.streams (IndexSearcher.searchTimestamp checks .index
      (initialSeekStartTimestamp settings)) = .ok record)
    (hseek : seekTo record.offset st = .ok st') :
    ∃ segment, doSeek checks settings Segment.initial (.started st) =
      .ok (true, segment, st') := by
  have hinitial : initialSeek Segment.initial = some true := rfl
  have hmode : ¬ (true = true ∧ settings.startMode = .noSeek) := fun hf => hstart hf.2
  rw [doSeek, hinitial]
  dsimp only
  rw [if_neg hmode, if_pos rfl, seekUsingIndex, hsearch]
  dsimp only
  rw [hseek]
  exact ⟨_, rfl⟩

/-- A stored recording with its index: the records are in the order of their offsets and
at event boundaries that can still be read. -/
structure Indexed (w : Streams) (recs : List Record) (evs : List Event) : Prop where
  partitions : Partitions w recs evs
  nonempty : recs ≠ []
  boundary : ∀ r ∈ recs, Boundary Event.frame evs r.offset
  readable : ∀ r ∈ recs, w.data.head ≤ r.offset
  ordered : ∀ i j, i ≤ j → j < recs.length → offsetAt recs i ≤ offsetAt recs j

section Indexed

variable {checks : Bool} {settings : Settings} {client : Client} {recs : List Record}
  {evs : List Event}

variable (checks settings) in
/-- What a source plays that seeks by the index and reads up to the tail: the events from
a record on. -/
theorem plays_from (h : Indexed client.streams recs evs) (hanswers : Answers settings client)
    (hstart : settings.startMode ≠ .noSeek) (hend : settings.endMode = .latest) :
    ∃ i r before after, recs[i]? = some r ∧
      Located recs (initialSeekStartTimestamp settings) .before i ∧
      evs = before ++ after ∧ (before.flatMap Event.frame).length = r.offset ∧
      Plays checks settings client ((layout Event.frame r.offset after).map bufferAt) .eos := by
  obtain ⟨i, r, hr, hlocated, hsearch⟩ := (search_timestamp h.partitions.index h.nonempty
    checks (initialSeekStartTimestamp settings)).1
  have hmem := List.mem_of_getElem? hr
  obtain ⟨before, after, hsplit, hoffset⟩ := h.boundary r hmem
  have hlatest : endOffset checks settings client.streams
      (.new client.streams.data client.isSealed client.fetched) = _ :=
    endOffset_latest client.streams _ hend
  obtain ⟨st, hstarted, hover⟩ := start_over hanswers hlatest rfl client.streams.data.tail_lt
  rw [← hover.streams] at hsearch
  obtain ⟨st', hseek, hat⟩ := seekTo_at hover (h.readable r hmem)
    (h.partitions.bounded r hmem) (Nat.le_refl _)
  obtain ⟨segment, hdoes⟩ := doSeek_initial hstart hsearch hseek
  refine ⟨i, r, before, after, hr, hlocated, hsplit, hoffset, _, segment, st', hstarted,
    hdoes, emits_frames ?_⟩
  have hrest : (client.streams.data.bytes.drop r.offset).take
      (client.streams.data.tail - r.offset) = after.flatMap Event.frame := by
    rw [ByteStream.tail, ← List.length_drop, List.take_length, h.partitions.data, hsplit,
      List.flatMap_append, ← hoffset, List.drop_left]
  rw [← hrest]
  exact hat

/-- Later times are found at later records. -/
theorem located_mono {t t' : PravegaTimestamp} {i j : Nat} (hinc : Increasing recs)
    (hi : Located recs t .before i) (hj : Located recs t' .before j) (hle : t ≤ t') :
    i ≤ j := by
  rcases lt_or_ge t (timeAt recs 0) with hlt | hge
  · rw [(hi.before hinc).1 hlt]
    exact Nat.zero_le j
  · have hti := ((hi.before hinc).2 hge).1
    exact ((hj.before hinc).2 (le_trans hge hle)).2 i hi.lt_length (le_trans hti hle)

/-- What a source leaves out of the recording that is sent to a time: the events in front
of it, and they are older. -/
theorem plays_end_of (h : Indexed client.streams recs evs) (hanswers : Answers settings client)
    (hstart : settings.startMode = .earliest) (hend : settings.endMode = .latest)
    {startMode : StartMode} {t : UInt64}
    (hmode : startMode = .timestamp ∨ startMode = .timestampExact)
    {recording buffers : List Buffer} (hrecording : Plays checks settings client recording .eos)
    (hplays : Plays checks { settings with startMode := startMode, startTimestamp := t }
      client buffers .eos) :
    ∃ front, recording = front ++ buffers ∧
      ∀ c ∈ front, ∀ pts, c.pts = some pts → pts < t := by
  have hseeks : settings.startMode ≠ .noSeek := by
    rw [hstart]
    decide
  have hseeks' : startMode ≠ .noSeek := by
    rcases hmode with rfl | rfl
    · decide
    · decide
  have hsent : initialSeekStartTimestamp
      { settings with startMode := startMode, startTimestamp := t } =
        PravegaTimestamp.fromNanoseconds (some t) := by
    rcases hmode with rfl | rfl
    · rfl
    · rfl
  have hearliest : initialSeekStartTimestamp settings = PravegaTimestamp.min := by
    rw [initialSeekStartTimestamp, hstart]
  obtain ⟨i, r, before, after, hr, hi, hsplit, hoffset, hfirst⟩ :=
    plays_from checks settings h hanswers hseeks hend
  obtain ⟨j, r', before', after', hr', hj, hsplit', hoffset', hlater⟩ :=
    plays_from checks { settings with startMode := startMode, startTimestamp := t } h hanswers
      hseeks' hend
  rw [hearliest] at hi
  rw [hsent] at hj
  have hinc := h.partitions.increasing
  have hij : i ≤ j := by
    refine located_mono hinc hi hj ?_
    rw [PravegaTimestamp.le_iff]
    exact Nat.succ_le_succ (Nat.zero_le _)
  have hoffsets := h.ordered i j hij hj.lt_length
  rw [offsetAt_of_getElem? hr, offsetAt_of_getElem? hr'] at hoffsets
  obtain ⟨middle, hbefore, hafter⟩ := exists_middle Event.frame_delimiting
    (hsplit.symm.trans hsplit') (by rw [hoffset, hoffset']; exact hoffsets)
  have hlength : r.offset + (middle.flatMap Event.frame).length = r'.offset := by
    rw [← hoffset', hbefore, List.flatMap_append, List.length_append, hoffset]
  rw [hrecording.unique hfirst, hplays.unique hlater, hafter, layout_append, hlength,
    List.map_append]
  refine ⟨_, rfl, fun c hc pts hpts => ?_⟩
  obtain ⟨⟨o, event⟩, hmem, rfl⟩ := List.mem_map.mp hc
  obtain ⟨hge, hlt⟩ := le_of_mem_layout hmem
  have hframe := List.length_pos_iff.mpr (Event.frame_delimiting.nonempty event)
  have hstored : (o, event) ∈ layout Event.frame 0 evs := by
    rw [hsplit, hafter, layout_append, layout_append, Nat.zero_add, hoffset]
    exact List.mem_append_right _ (List.mem_append_left _ hmem)
  have htimed := h.partitions.timed hij hj.lt_length
    ⟨hstored, Nat.le_trans (h.readable r (List.mem_of_getElem? hr)) hge⟩
    (by rw [offsetAt_of_getElem? hr]; exact hge)
    (by rw [offsetAt_of_getElem? hr']; omega)
  -- In front of the record that was found the events are older than the record.
  have htime : timeAt recs j ≤ PravegaTimestamp.fromNanoseconds (some t) := by
    rcases lt_or_ge (PravegaTimestamp.fromNanoseconds (some t)) (timeAt recs 0) with hlate | hle
    · obtain rfl : j = 0 := (hj.before hinc).1 hlate
      obtain rfl : i = 0 := Nat.le_zero.mp hij
      rw [hr] at hr'
      cases hr'
      omega
    · exact ((hj.before hinc).2 hle).1
  have hbefore := lt_of_lt_of_le htimed.2 htime
  have hheader : event.header.timestamp = ⟨some pts⟩ :=
    congrArg PravegaTimestamp.mk (ClockTime.stored_eq_some_iff.mp hpts).1
  rw [hheader, PravegaTimestamp.lt_iff] at hbefore
  exact UInt64.lt_iff_toNat_lt.mpr (Nat.lt_of_succ_lt_succ hbefore)

end Indexed

/-! ## Processes over a stored recording -/

/-- What a process gets whose source plays `client`: sent nowhere where there is no record,
and else to where and how the start says. With a start that panics nothing is played. -/
def Feeds (checks : Bool) (settings : Settings) (client : Client) (found : PravegaTC.Table)
    (buffers : List Buffer) : Prop :=
  match found with
  | none => Plays checks settings client buffers .eos
  | some (s, version) =>
      (∃ n t startMode, PravegaTC.ResumesAt checks s n t startMode.nick ∧
          Plays checks { settings with startMode := startMode, startTimestamp := t } client
            buffers .eos) ∨
        (¬PravegaTC.Resumable checks (some (s, version)) ∧ buffers = [])

/-- One process after the other, each of which dies at any moment. -/
inductive Replays (checks : Bool) (settings : Settings) (client : Client) :
    List PravegaTC.Pass → PravegaTC.Table → Prop where
  | nil : Replays checks settings client [] none
  | snoc {ps found env tcSettings buffers children w} :
      Replays checks settings client ps found → Feeds checks settings client found buffers →
      Program.Visits PravegaTC.World.Exec
        (PravegaTC.session checks env buffers ⟨tcSettings, .stopped⟩)
        ⟨found, children, [], false⟩ w →
      Replays checks settings client (ps ++ [⟨found, w.pushed⟩]) w.table

section Replays

variable {checks : Bool} {settings : Settings} {client : Client} {recs : List Record}
  {evs : List Event} {recording : List Buffer}

/-- The element sends its sources by a time, never by another mode. -/
theorem mode_of_resumesAt {s : PravegaTC.PersistentState} {n t : UInt64}
    {startMode : StartMode} (h : PravegaTC.ResumesAt checks s n t startMode.nick) :
    startMode = .timestamp ∨ startMode = .timestampExact := by
  obtain ⟨-, delta, hdelta, -⟩ := h
  have hnick : startMode.nick = "timestamp" ∨ startMode.nick = "timestamp-exact" := by
    rw [PravegaTC.resumeTimeDelta] at hdelta
    split at hdelta
    · obtain ⟨_, _, hdelta⟩ := Option.bind_eq_some_iff.mp hdelta
      obtain ⟨_, _, hdelta⟩ := Option.bind_eq_some_iff.mp hdelta
      exact Or.inl (Prod.mk.inj (Option.some.inj hdelta)).2.symm
    · obtain ⟨_, _, hdelta⟩ := Option.map_eq_some_iff.mp hdelta
      exact Or.inr (Prod.mk.inj hdelta).2.symm
  cases startMode with
  | timestamp => exact Or.inl rfl
  | timestampExact => exact Or.inr rfl
  | noSeek => exact absurd hnick (by decide)
  | earliest => exact absurd hnick (by decide)
  | latest => exact absurd hnick (by decide)

theorem gets_of_feeds (h : Indexed client.streams recs evs) (hanswers : Answers settings client)
    (hstart : settings.startMode = .earliest) (hend : settings.endMode = .latest)
    (hrecording : Plays checks settings client recording .eos) {found : PravegaTC.Table}
    {buffers : List Buffer} (hfeeds : Feeds checks settings client found buffers) :
    PravegaTC.Gets checks recording found buffers := by
  cases found with
  | none => exact ⟨[], hrecording.unique hfeeds, rfl⟩
  | some x =>
      obtain ⟨s, version⟩ := x
      rcases hfeeds with ⟨n, t, startMode, hresumes, hplays⟩ | ⟨hpanics, rfl⟩
      · obtain ⟨front, hfront, holder⟩ := plays_end_of h hanswers hstart hend
          (mode_of_resumesAt hresumes) hrecording hplays
        refine ⟨front, hfront, fun n' t' startMode' hresumes' => ?_⟩
        obtain ⟨-, rfl, -⟩ := hresumes.unique hresumes'
        exact holder
      · refine ⟨recording, (List.append_nil recording).symm, fun n t startMode hresumes => ?_⟩
        exact absurd ⟨n, t, startMode, hresumes⟩ hpanics

theorem passes_of_replays (h : Indexed client.streams recs evs)
    (hanswers : Answers settings client) (hstart : settings.startMode = .earliest)
    (hend : settings.endMode = .latest)
    (hrecording : Plays checks settings client recording .eos) {ps : List PravegaTC.Pass}
    {table : PravegaTC.Table} (hreplays : Replays checks settings client ps table) :
    PravegaTC.Passes checks recording ps table := by
  induction hreplays with
  | nil => exact .nil
  | snoc _ hfeeds hvisits ih =>
      exact ih.snoc (gets_of_feeds h hanswers hstart hend hrecording hfeeds) hvisits

/-- **A replay that is interrupted loses nothing.** A source plays an indexed recording to
the element, in one process after the other, each of which dies at any moment. As long as
none of them finds a record that was counted already, every buffer that is not later than
one that was pushed has itself been pushed. -/
theorem replay_loses_nothing (h : Indexed client.streams recs evs)
    (hanswers : Answers settings client) (hstart : settings.startMode = .earliest)
    (hend : settings.endMode = .latest)
    (hrecording : Plays checks settings client recording .eos)
    (hspaced : PravegaTC.Spaced recording) (hfits : PravegaTC.Fits recording)
    {ps : List PravegaTC.Pass} {table : PravegaTC.Table}
    (hreplays : Replays checks settings client ps table)
    (hcount : ∀ p ∈ ps, ∀ s version, p.found = some (s, version) → s.attempts = 0)
    {p : PravegaTC.Pass} (hp : p ∈ ps) {b c : Buffer} (hb : b ∈ p.pushed)
    (hc : c ∈ recording) {pts later : UInt64} (hpts : c.pts = some pts)
    (hlater : b.pts = some later) (hle : pts ≤ later) : ∃ p ∈ ps, c ∈ p.pushed := by
  have hpasses := passes_of_replays h hanswers hstart hend hrecording hreplays
  have hkeys : PravegaTC.key c ≤ PravegaTC.key b := by
    rw [PravegaTC.key_eq hpts, PravegaTC.key_eq hlater]
    exact UInt64.le_iff_toNat_le.mp hle
  obtain ⟨q, hq, hcase⟩ := (hpasses.covers hspaced hfits).1 p hp b
    (PravegaTC.mem_timed_of_pts hb hlater) c (PravegaTC.mem_timed_of_pts hc hpts) hkeys
  refine ⟨q, hq, hcase.resolve_right ?_⟩
  rintro ⟨_, _, s, version, _, _, _, hfound, hcounted, _⟩
  exact hcounted (hcount q hq s version hfound)

end Replays

/-- The settings of a source that replays the camera. -/
def replaySettings : Settings :=
  { windowSettings 0 0 with startMode := .earliest, endMode := .latest }

def replayBuffers : List Buffer := (layout Event.frame 0 cameraEvents).map bufferAt

/-- A process with nothing that fails. -/
def replayed (found : PravegaTC.Table) (buffers : List Buffer) : PravegaTC.World :=
  (Program.run PravegaTC.World.answer
    (PravegaTC.session true none buffers ⟨PravegaTC.examplesSettings, .stopped⟩)
    ⟨found, [⟨"PravegaSrc", "earliest", 0⟩], [], false⟩).2

theorem camera_indexed : Indexed cameraStreams cameraRecords cameraEvents where
  partitions := camera_partitions
  nonempty := by decide
  boundary := by decide +kernel
  readable := by decide
  ordered := by
    have hordered : ∀ j < cameraRecords.length, ∀ i ≤ j,
        offsetAt cameraRecords i ≤ offsetAt cameraRecords j := by
      decide
    exact fun i j hij hj => hordered j hj i hij

theorem answers_replay (startMode : StartMode) (t : UInt64) :
    Answers { replaySettings with startMode := startMode, startTimestamp := t }
      (windowClient cameraStreams) :=
  ⟨"examples", "camera", _, rfl, rfl, rfl, rfl, rfl, rfl⟩

/-- From the first record. -/
theorem replay_plays :
    Plays true replaySettings (windowClient cameraStreams) replayBuffers .eos := by
  obtain ⟨i, r, before, after, hr, hi, hsplit, hoffset, hplays⟩ :=
    plays_from true replaySettings camera_indexed (answers_replay .earliest 0) (by decide) rfl
  obtain rfl : i = 0 := (hi.before camera_partitions.increasing).1 (by decide)
  cases hr
  obtain rfl : after = cameraEvents := after_unique Event.frame_delimiting
    (hsplit.symm.trans (List.nil_append _).symm) hoffset
  exact hplays

/-- From the second, which is the last one that is not after the time in the table. -/
theorem replay_plays_again :
    Plays true { replaySettings with startMode := .timestampExact, startTimestamp := 31 }
      (windowClient cameraStreams) (replayBuffers.drop 1) .eos := by
  obtain ⟨i, r, before, after, hr, hi, hsplit, hoffset, hplays⟩ := plays_from true
    { replaySettings with startMode := .timestampExact, startTimestamp := 31 }
    camera_indexed (answers_replay .timestampExact 31) (by decide) rfl
  obtain ⟨hle, hlast⟩ := (hi.before camera_partitions.increasing).2 (by decide)
  have hone := hlast 1 (by decide) (by decide)
  have hlt := hi.lt_length
  obtain rfl : i = 1 := by
    have hi2 : i ≠ 2 := by
      rintro rfl
      exact absurd hle (by decide)
    have hlength : cameraRecords.length = 3 := rfl
    omega
  cases hr
  obtain rfl : after = cameraEvents.drop 1 := after_unique Event.frame_delimiting
    (hsplit.symm.trans (List.take_append_drop 1 cameraEvents).symm) hoffset
  exact hplays

theorem replay_loses_nothing_camera :
    ∃ p ∈ [(⟨none, (replayed none replayBuffers).pushed⟩ : PravegaTC.Pass),
        ⟨(replayed none replayBuffers).table,
          (replayed (replayed none replayBuffers).table (replayBuffers.drop 1)).pushed⟩],
      replayBuffers.get ⟨0, by decide⟩ ∈ p.pushed := by
  have hspaced : PravegaTC.Spaced replayBuffers := by
    rw [PravegaTC.Spaced]
    decide
  have hfits : PravegaTC.Fits replayBuffers := by
    rw [PravegaTC.Fits]
    decide
  have htable : (replayed none replayBuffers).table = some (⟨31, some 0⟩, 0) := by
    decide +kernel
  have hfeeds : Feeds true replaySettings (windowClient cameraStreams)
      (replayed none replayBuffers).table (replayBuffers.drop 1) := by
    rw [htable]
    exact Or.inl ⟨1, 31, .timestampExact, PravegaTC.resumesAt_first rfl, replay_plays_again⟩
  have hfirst : Program.Visits PravegaTC.World.Exec
      (PravegaTC.session true none replayBuffers ⟨PravegaTC.examplesSettings, .stopped⟩)
      ⟨none, [⟨"PravegaSrc", "earliest", 0⟩], [], false⟩ (replayed none replayBuffers) :=
    Program.visits_run PravegaTC.exec_answer _ _
  have hagain : Program.Visits PravegaTC.World.Exec
      (PravegaTC.session true none (replayBuffers.drop 1) ⟨PravegaTC.examplesSettings, .stopped⟩)
      ⟨(replayed none replayBuffers).table, [⟨"PravegaSrc", "earliest", 0⟩], [], false⟩
      (replayed (replayed none replayBuffers).table (replayBuffers.drop 1)) :=
    Program.visits_run PravegaTC.exec_answer _ _
  have hreplays := (Replays.nil.snoc replay_plays hfirst).snoc hfeeds hagain
  refine replay_loses_nothing camera_indexed (answers_replay .earliest 0) rfl rfl replay_plays
    hspaced hfits hreplays ?_ (List.mem_cons_of_mem _ List.mem_cons_self)
    (b := replayBuffers.get ⟨2, by decide⟩) ?_
    (List.get_mem _ _) rfl rfl (by decide)
  · intro p hp s version hfound
    rcases List.mem_cons.mp hp with rfl | hp
    · cases hfound
    · rw [List.mem_singleton.mp hp] at hfound
      rw [htable] at hfound
      cases hfound
      rfl
  · rw [htable]
    decide +kernel

end GstPravega.Plugin.PravegaSrc
