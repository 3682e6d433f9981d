import GstPravega.Proofs.IndexedEvents
import GstPravega.Proofs.SrcReads
import Mathlib.Data.List.Chain
import Mathlib.Data.List.Forall2

/-!
# From the sink to the source

The data stream of a session is the fragments of its buffers, those of one buffer
behind those of the other. The source gives one buffer for each event it reads,
so the buffers it gives fall into the same groups as the fragments, and what holds
of the fragments of a payload holds of the buffers of a group.
-/

namespace GstPravega.Plugin.PravegaSrc

open GstPravega.Lib GstPravega.Client GstPravega.Gst GstPravega.Video

open PravegaSink (Input Session Stops Recorded Whole fragments)

variable {F : Type}

/-- What the source gives for a buffer of the sink: as many buffers as it has
fragments, so none when it is empty, with the payload divided among them. -/
structure Carries (buffer : Buffer) (out : List Buffer) : Prop where
  length : out.length =
    (buffer.payload.length + EventWithHeader.maxPayloadSize - 1) /
      EventWithHeader.maxPayloadSize
  payload : out.flatMap (fun b => b.payload) = buffer.payload
  pts : ∀ b ∈ out, b.pts = if buffer.pts = some 0 then none else buffer.pts
  first : ∀ b ∈ out.head?, b.flags.deltaUnit = buffer.flags.deltaUnit
  rest : ∀ b ∈ out.tail, b.flags.deltaUnit = true ∧ b.flags.discont = false

/-- The fragments of a buffer that keeps its timestamp. -/
def FragmentsOf (input : Input) (evs : List Event) : Prop :=
  ∃ included discontinuity, evs = fragments (PravegaTimestamp.fromNanoseconds input.2.pts)
    included (!input.2.flags.deltaUnit) discontinuity input.2.payload

theorem nanoseconds_storedTime (pts : ClockTime) :
    (PravegaSink.storedTime (PravegaTimestamp.fromNanoseconds pts)).nanoseconds =
      if pts = some 0 then none else pts := by
  have hzero : PravegaTimestamp.fromNanoseconds pts = ⟨some 0⟩ ↔ pts = some 0 := by
    simp [PravegaTimestamp.fromNanoseconds]
  by_cases hpts : pts = some 0
  · rw [PravegaSink.storedTime, if_pos (hzero.mpr hpts), if_pos hpts]
  · rw [PravegaSink.storedTime, if_neg (fun h => hpts (hzero.mp h)), if_neg hpts]
    rfl

theorem carries_fragments {input : Input} {xs : List (Nat × Event)}
    (h : FragmentsOf input (xs.map Prod.snd)) : Carries input.2 (xs.map bufferAt) := by
  obtain ⟨included, discontinuity, h⟩ := h
  have hlength := congrArg List.length h
  rw [PravegaSink.length_fragments, List.length_map] at hlength
  have hpayload := congrArg (List.flatMap fun e => e.payload) h
  rw [PravegaSink.payload_fragments, List.flatMap_map] at hpayload
  have hflags : (∀ b ∈ (xs.map bufferAt).head?,
        b.flags.deltaUnit = input.2.flags.deltaUnit) ∧
      ∀ b ∈ (xs.map bufferAt).tail,
        b.flags.deltaUnit = true ∧ b.flags.discont = false := by
    cases xs with
    | nil => simp
    | cons x xs =>
        have hne : input.2.payload ≠ [] := by
          intro hnil
          rw [hnil, PravegaSink.fragments_nil] at h
          cases h
        rw [PravegaSink.fragments_of_ne hne, List.map_cons] at h
        injection h with hx hxs
        constructor
        · intro b hb
          injection hb with hb
          subst hb
          show (!x.2.header.randomAccess) = input.2.flags.deltaUnit
          rw [hx]
          exact Bool.not_not _
        · intro b hb
          obtain ⟨y, hy, rfl⟩ := List.mem_map.mp hb
          have hmem := List.mem_map_of_mem (f := Prod.snd) hy
          rw [hxs] at hmem
          obtain ⟨_, hrandom, hdiscont⟩ := PravegaSink.flags_of_mem_fragments _ hmem
          show (!y.2.header.randomAccess) = true ∧ y.2.header.discontinuity = false
          rw [hrandom, hdiscont]
          exact ⟨rfl, rfl⟩
  refine ⟨by rw [List.length_map, hlength], by rw [List.flatMap_map]; exact hpayload,
    ?_, hflags.1, hflags.2⟩
  intro b hb
  obtain ⟨x, hx, rfl⟩ := List.mem_map.mp hb
  have hmem := List.mem_map_of_mem (f := Prod.snd) hx
  rw [h] at hmem
  show ClockTime.stored x.2.header.timestamp.nanoseconds = _
  rw [PravegaSink.timestamp_of_mem_fragments hmem, nanoseconds_storedTime]
  refine ClockTime.stored_of_ne ?_
  split
  · exact nofun
  · exact input.2.pts_ne

/-- The events of a session are the fragments of its buffers. The induction is on
the buffers. -/
theorem recorded_fragments {checks : Bool} {settings : PravegaSink.Settings F}
    (htai : settings.timestampMode = .tai) {bs : List Input} {st st' : PravegaSink.Started}
    {E E' : List Event} {R R' : List Record}
    (h : Recorded False checks settings bs st E R st' E' R') :
    ∃ groups, E' = E ++ groups.flatten ∧ List.Forall₂ FragmentsOf bs groups := by
  induction h with
  | nil => exact ⟨[], (List.append_nil _).symm, .nil⟩
  | @cons baseTime buffer bs timestamp included st st₁ st₂ E E₁ E₂ R R₁ R₂ hdecided
      hrendered _ ih =>
      obtain ⟨groups, rfl, hgroups⟩ := ih
      have htime := hdecided.time
      rw [htai] at htime
      injection htime with htime
      obtain ⟨discontinuity, hevents⟩ : ∃ discontinuity, E₁ = E ++ fragments timestamp included
        (!buffer.flags.deltaUnit) discontinuity buffer.payload := ⟨_, hrendered.events⟩
      refine ⟨_ :: groups, ?_, .cons ⟨included, discontinuity, rfl⟩ hgroups⟩
      rw [hevents, ← htime, List.flatten_cons, List.append_assoc]
  | refused hf => exact hf.elim

/-- Reading up to the tail. -/
theorem endOffset_latest {checks : Bool} {settings : Settings} (w : Streams)
    (reader : ByteReader) (hend : settings.endMode = .latest) :
    endOffset checks settings w reader =
      .ok (reader.stream.tail, { reader with offset := reader.stream.tail }) := by
  rw [endOffset, hend]
  dsimp only
  rw [ByteReader.seek_end]

/-- From the head of a stream to its tail. -/
theorem plays_all {checks : Bool} {settings : Settings} {client : Client} {evs : List Event}
    (hstart : settings.startMode = .noSeek) (hend : settings.endMode = .latest)
    (hanswers : Answers settings client) (hhead : client.streams.data.head = 0)
    (hdata : client.streams.data.bytes = evs.flatMap Event.frame) :
    Plays checks settings client ((layout Event.frame 0 evs).map bufferAt) .eos := by
  have hlatest : endOffset checks settings client.streams
      (.new client.streams.data client.isSealed client.fetched) = _ :=
    endOffset_latest client.streams _ hend
  obtain ⟨st, hstarted, hover⟩ := start_over hanswers hlatest rfl client.streams.data.tail_lt
  obtain ⟨st', hseek, hat⟩ := seekTo_at hover (Nat.le_refl _)
    (by rw [hhead]; exact Nat.zero_le _) (Nat.le_refl _)
  rw [hhead, List.drop_zero, Nat.sub_zero] at hat
  have hrest : client.streams.data.bytes.take client.streams.data.tail =
      evs.flatMap Event.frame := by
    rw [ByteStream.tail, List.take_length, hdata]
  have hat' : st'.At 0 (evs.flatMap Event.frame) := by
    rw [← hrest]
    exact hat
  exact ⟨_, _, st', hstarted, doSeek_noSeek hstart hover hseek, emits_frames hat'⟩

/-- A source that reads from the head to the tail gives back what a session in
`tai` mode has rendered onto an empty data stream, buffer by buffer, each where the
one before it ends, and then the end of the stream. -/
theorem src_plays_what_sink_rendered {checks checks' : Bool} {daysToSeconds : F → Int}
    {sinkSettings : PravegaSink.Settings F} {bs : List Input} {st : PravegaSink.Started}
    {w₀ w w' : PravegaSink.World} {R₀ : List Record} {settings : Settings} {client : Client}
    (htai : sinkSettings.timestampMode = .tai) (h₀ : Whole .ordered w₀ [] R₀)
    (h : Session False checks daysToSeconds sinkSettings w₀ bs st w)
    (hstop : Stops sinkSettings st w w')
    (hstart : settings.startMode = .noSeek) (hend : settings.endMode = .latest)
    (hanswers : Answers settings client) (hhead : client.streams.data.head = 0)
    (hdata : client.streams.data.bytes = w'.data.stored.flatten) :
    ∃ groups : List (List Buffer),
      Plays checks' settings client groups.flatten .eos ∧
      List.Forall₂ (fun input out => Carries input.2 out) bs groups ∧
      groups.flatten.IsChain fun a b => a.offsetEnd = b.offset := by
  obtain ⟨spawned, E, R, hrecorded, hview, hsteady⟩ := h.recorded h₀
  obtain ⟨final, _, hwhole⟩ := hstop.whole hview hsteady
  obtain ⟨groups, rfl, hgroups⟩ := recorded_fragments htai hrecorded
  rw [List.nil_append] at hwhole
  rw [Log.stored_eq_of_durable hwhole.data, hwhole.good.data] at hdata
  have hflatten : ((layouts Event.frame 0 groups).map (List.map bufferAt)).flatten =
      (layout Event.frame 0 groups.flatten).map bufferAt := by
    rw [← List.map_flatten, flatten_layouts]
  refine ⟨(layouts Event.frame 0 groups).map (List.map bufferAt), ?_, ?_, ?_⟩
  · rw [hflatten]
    exact plays_all hstart hend hanswers hhead hdata
  · rw [← layouts_map_snd Event.frame 0 groups, List.forall₂_map_right_iff] at hgroups
    rw [List.forall₂_map_right_iff]
    exact hgroups.imp fun _ _ hfragments => carries_fragments hfragments
  · rw [hflatten, List.isChain_map]
    exact (layout_isChain Event.frame 0 groups.flatten).imp fun x y hxy => by
      show some (x.1 + x.2.frame.length) = some y.1
      rw [hxy]

/-- A client that serves these bytes, the first of them in small pieces. -/
def serving (bytes : List UInt8) (h : bytes.length < 2 ^ 63) : Client where
  createClientConfig _ _ := .ok ()
  createScope _ := .error "exists"
  createStream _ _ := .ok ()
  streams := ⟨⟨0, bytes, h⟩, ⟨0, [], ByteStream.nil_tail_lt⟩⟩
  isSealed := false
  fetched := [1, 2, 3]

/-- All of the stream `examples/camera`. -/
def allSettings : Settings :=
  { Settings.default with
    scope := some "examples"
    stream := some "camera"
    startMode := .noSeek
    endMode := .latest }

/-- The data of a stopped session of several buffers. -/
def movieWorld : PravegaSink.World :=
  (PravegaSink.cameraStops (PravegaSink.cameraMovie PravegaSink.movie).1.1
    (PravegaSink.cameraMovie PravegaSink.movie).1.2).2

theorem src_plays_what_sink_rendered_movie :
    ∃ groups : List (List Buffer),
      Plays true allSettings (serving movieWorld.data.stored.flatten (by decide +kernel))
        groups.flatten .eos ∧
      List.Forall₂ (fun (input : Input) out => Carries input.2 out)
        (PravegaSink.movie.map fun b => (none, b)) groups ∧
      groups.flatten.IsChain fun a b => a.offsetEnd = b.offset := by
  have hrun : (PravegaSink.cameraMovie PravegaSink.movie).2 = true := by decide +kernel
  have hstop : (PravegaSink.cameraStops (PravegaSink.cameraMovie PravegaSink.movie).1.1
      (PravegaSink.cameraMovie PravegaSink.movie).1.2).1 = (.ok (), .stopped) := by
    decide +kernel
  exact src_plays_what_sink_rendered rfl PravegaSink.whole_empty
    (PravegaSink.camera_movie hrun) (PravegaSink.camera_stops hstop) rfl rfl
    ⟨"examples", "camera", _, rfl, rfl, rfl, rfl, rfl, rfl⟩ rfl rfl

end GstPravega.Plugin.PravegaSrc
