import GstPravega.Proofs.SinkSession
import Mathlib.Data.List.Perm.Subperm

/-!
# The records of `render` and the events they point at

`render` writes the record of a buffer first and then the fragments of its
payload, the first of which carries the same timestamp and flags and the mark
that it is indexed. So the records of a session are what is read off the indexed
events in the data, one for one, exactly as long as every indexed buffer has a
payload: an empty one gets a record, but no event.
-/

namespace GstPravega.Plugin.PravegaSink

open GstPravega.Lib GstPravega.Client GstPravega.Gst GstPravega.Video

variable {F : Type} {checks : Bool} {settings : Settings F} {bs : List Input}
  {st st' : Started} {E E' : List Event} {R R' : List Record}

/-- Every record describes the event at its offset, and the events from `base` on
that are marked as indexed have one record each. -/
structure Describes (bytes : List UInt8) (base : Nat) (rs : List Record) : Prop where
  event : ∀ r ∈ rs, ∃ e, (r.offset, e) ∈ storedEvents bytes ∧
    e.header.timestamp = r.timestamp ∧ e.header.randomAccess = r.randomAccess ∧
    e.header.discontinuity = r.discontinuity ∧ e.header.includeInIndex = true
  distinct : rs.Pairwise fun a b => a.offset ≠ b.offset
  record : ∀ o e, (o, e) ∈ storedEvents bytes → base ≤ o →
    e.header.includeInIndex = true → ∃ r ∈ rs, r.offset = o

/-- No buffer that the sink indexes is empty. A buffer that is refused (it cannot be
read, or it would be indexed at time zero) is not indexed, and nothing follows
after a sum that panics. -/
def IndexesPayloads (checks : Bool) (settings : Settings F) :
    PravegaTimestamp → PravegaTimestamp → List Input → Prop
  | _, _, [] => True
  | firstValidTime, lastIndexTime, (baseTime, buffer) :: bs =>
      if buffer.readable then
        match timestampOf checks settings.timestampMode baseTime buffer.pts with
        | none => True
        | some timestamp =>
            let firstValidTime :=
              if firstValidTime.isNone then timestamp else firstValidTime
            match includeInIndex checks settings.indexMinNanos settings.indexMaxNanos
                firstValidTime lastIndexTime timestamp buffer.flags.deltaUnit with
            | none => True
            | some true =>
                if timestamp.nanoseconds.getD 0 = 0 then
                  IndexesPayloads checks settings firstValidTime lastIndexTime bs
                else buffer.payload ≠ [] ∧
                  IndexesPayloads checks settings firstValidTime timestamp bs
            | some false =>
                IndexesPayloads checks settings firstValidTime lastIndexTime bs
      else IndexesPayloads checks settings firstValidTime lastIndexTime bs

/-! ## The indexed events -/

/-- The events marked as indexed, with their offsets. -/
def indexed (base : Nat) (E : List Event) : List (Nat × Event) :=
  (layout Event.frame base E).filter fun x => x.2.header.includeInIndex

/-- The record of an event. -/
def recordOf (x : Nat × Event) : IndexRecord :=
  IndexRecord.new x.2.header.timestamp x.1 x.2.header.randomAccess
    x.2.header.discontinuity

theorem indexed_append (base : Nat) (E₁ E₂ : List Event) :
    indexed base (E₁ ++ E₂) =
      indexed base E₁ ++ indexed (base + (E₁.flatMap Event.frame).length) E₂ := by
  rw [indexed, layout_append, List.filter_append, indexed, indexed]

theorem indexed_of_unmarked {base : Nat} {E : List Event}
    (h : ∀ e ∈ E, e.header.includeInIndex = false) : indexed base E = [] := by
  rw [indexed, List.filter_eq_nil_iff]
  intro x hx
  have hmem : x.2 ∈ E := by
    rw [← layout_map_snd Event.frame base E]
    exact List.mem_map_of_mem hx
  simp [h x.2 hmem]

/-- Of the fragments of a payload only the first can be indexed. -/
theorem indexed_fragments {base : Nat} {timestamp : PravegaTimestamp} {r d : Bool}
    {payload : List UInt8} (htime : timestamp ≠ ⟨some 0⟩) (hne : payload ≠ []) :
    (indexed base (fragments timestamp true r d payload)).map recordOf =
      [IndexRecord.new timestamp base r d] := by
  have hrest : ∀ b, indexed b (fragments timestamp false false false
      (payload.drop EventWithHeader.maxPayloadSize)) = [] := by
    intro b
    exact indexed_of_unmarked fun e he => (flags_of_mem_fragments _ he).1
  simp only [indexed] at hrest
  rw [fragments_of_ne hne, indexed, layout, List.filter_cons_of_pos rfl, hrest]
  simp [recordOf, EventWithHeader.stored, EventWithHeader.normalize, htime]

theorem indexed_fragments_false {base : Nat} {timestamp : PravegaTimestamp} {r d : Bool}
    {payload : List UInt8} :
    indexed base (fragments timestamp false r d payload) = [] := by
  refine indexed_of_unmarked fun e he => ?_
  by_cases hne : payload = []
  · rw [hne, fragments_nil] at he
    cases he
  · rw [fragments_of_ne hne] at he
    rcases List.mem_cons.mp he with rfl | he
    · rfl
    · exact (flags_of_mem_fragments _ he).1

/-- The decision about a buffer, and what it means for the ones behind it. -/
theorem indexesPayloads_decided {baseTime : ClockTime} {buffer : Buffer}
    {timestamp : PravegaTimestamp} {included : Bool}
    (h : Decided checks settings baseTime buffer st timestamp included) :
    IndexesPayloads checks settings st.firstValidTime st.lastIndexTime
        ((baseTime, buffer) :: bs) ↔
      if included = true ∧ timestamp.nanoseconds.getD 0 ≠ 0 then
        buffer.payload ≠ [] ∧ IndexesPayloads checks settings
          (st.noteValidTime timestamp).firstValidTime timestamp bs
      else IndexesPayloads checks settings
        (st.noteValidTime timestamp).firstValidTime st.lastIndexTime bs := by
  have hdecision := h.decision
  rw [Started.noteValidTime] at hdecision ⊢
  dsimp only at hdecision ⊢
  rw [IndexesPayloads, if_pos h.readable, h.time]
  dsimp only
  rw [hdecision]
  cases included with
  | true => by_cases hzero : timestamp.nanoseconds.getD 0 = 0 <;> simp [hzero]
  | false => simp

theorem indexesPayloads_cons {baseTime : ClockTime} {buffer : Buffer}
    {timestamp : PravegaTimestamp} {included : Bool}
    (h : Decided checks settings baseTime buffer st timestamp included)
    (htime : included = true → timestamp.nanoseconds.getD 0 ≠ 0) :
    IndexesPayloads checks settings st.firstValidTime st.lastIndexTime
        ((baseTime, buffer) :: bs) ↔
      (included = true → buffer.payload ≠ []) ∧
        IndexesPayloads checks settings (st.noteValidTime timestamp).firstValidTime
          (if included then timestamp else st.lastIndexTime) bs := by
  rw [indexesPayloads_decided h]
  cases included with
  | true => simp [htime rfl]
  | false => simp

theorem indexesPayloads_refused {baseTime : ClockTime} {buffer : Buffer}
    (h : Refused checks settings baseTime buffer st st') :
    IndexesPayloads checks settings st.firstValidTime st.lastIndexTime
        ((baseTime, buffer) :: bs) ↔
      IndexesPayloads checks settings st'.firstValidTime st'.lastIndexTime bs := by
  rcases h with ⟨hreadable, rfl⟩ | ⟨timestamp, writer, h, hzero, rfl⟩
  · rw [IndexesPayloads, hreadable, if_neg Bool.false_ne_true]
  · rw [indexesPayloads_decided h, if_neg fun hne => hne.2 hzero]
    rfl

/-- One buffer: its record is the one of its indexed event, unless it has no
event. -/
theorem Rendered.describes {buffer : Buffer} {timestamp : PravegaTimestamp}
    {included : Bool} (h : Rendered checks buffer timestamp included st st' E E' R R') :
    ∃ E₁ rs, E' = E ++ E₁ ∧ R' = R ++ rs ∧
      (∀ r ∈ rs, (E.flatMap Event.frame).length ≤ r.offset) ∧
      ((included = true → buffer.payload ≠ []) ∧
          rs.map Record.toIndexRecord =
            (indexed (E.flatMap Event.frame).length E₁).map recordOf ∨
        ¬ (included = true → buffer.payload ≠ []) ∧
          (indexed (E.flatMap Event.frame).length E₁).length < rs.length) := by
  obtain ⟨rs, hR, hrs⟩ := h.records
  refine ⟨_, rs, h.events, hR, fun r hr => ?_, ?_⟩
  · rw [(of_mem_bufferRecords hrs hr).2]
    exact Nat.le_refl _
  cases included with
  | false =>
      refine Or.inl ⟨(fun hf => nomatch hf), ?_⟩
      rw [hrs, indexed_fragments_false]
      rfl
  | true =>
      by_cases hne : buffer.payload = []
      · refine Or.inr ⟨fun hp => hp rfl hne, ?_⟩
        have hlen := congrArg List.length hrs
        rw [List.length_map] at hlen
        rw [hne, fragments_nil, hlen]
        exact Nat.zero_lt_one
      · refine Or.inl ⟨fun _ => hne, ?_⟩
        rw [hrs, indexed_fragments ?_ hne]
        · rfl
        · intro hzero
          have htimed := h.timed rfl
          rw [hzero] at htimed
          exact htimed rfl

/-- All buffers of a session. The induction is on the buffers. -/
theorem Recorded.describes {refusals : Prop}
    (h : Recorded refusals checks settings bs st E R st' E' R') :
    ∃ E₁ rs, E' = E ++ E₁ ∧ R' = R ++ rs ∧
      (∀ r ∈ rs, (E.flatMap Event.frame).length ≤ r.offset) ∧
      (indexed (E.flatMap Event.frame).length E₁).length ≤ rs.length ∧
      (IndexesPayloads checks settings st.firstValidTime st.lastIndexTime bs ∧
          rs.map Record.toIndexRecord =
            (indexed (E.flatMap Event.frame).length E₁).map recordOf ∨
        ¬ IndexesPayloads checks settings st.firstValidTime st.lastIndexTime bs ∧
          (indexed (E.flatMap Event.frame).length E₁).length < rs.length) := by
  induction h with
  | @nil st E R =>
      refine ⟨[], [], by simp, by simp, (fun r hr => nomatch hr), Nat.le_refl _, ?_⟩
      exact Or.inl ⟨trivial, rfl⟩
  | @cons baseTime buffer bs timestamp included st st₁ st₂ E E₁ E₂ R R₁ R₂ hdecided
      hrendered _ ih =>
      obtain ⟨F₁, rs₁, rfl, rfl, hle₁, hcase₁⟩ := hrendered.describes
      obtain ⟨F₂, rs₂, rfl, rfl, hle₂, hlen₂, hcase₂⟩ := ih
      rw [hrendered.firstValidTime, hrendered.lastIndexTime] at hcase₂
      rw [indexesPayloads_cons hdecided hrendered.timed]
      rw [List.flatMap_append, List.length_append] at hle₂ hlen₂ hcase₂
      refine ⟨F₁ ++ F₂, rs₁ ++ rs₂, by simp, by simp, ?_, ?_, ?_⟩
      · intro r hr
        rcases List.mem_append.mp hr with hr | hr
        · exact hle₁ r hr
        · have := hle₂ r hr
          omega
      · have hlen₁ : (indexed (E.flatMap Event.frame).length F₁).length ≤ rs₁.length := by
          rcases hcase₁ with ⟨_, heq⟩ | ⟨_, hlt⟩
          · have := congrArg List.length heq
            rw [List.length_map, List.length_map] at this
            omega
          · omega
        rw [indexed_append, List.length_append, List.length_append]
        omega
      · rw [indexed_append, List.map_append, List.map_append, List.length_append,
          List.length_append]
        rcases hcase₁ with ⟨hpay, heq₁⟩ | ⟨hpay, hlt₁⟩
        · rcases hcase₂ with ⟨hrest, heq₂⟩ | ⟨hrest, hlt₂⟩
          · exact Or.inl ⟨⟨hpay, hrest⟩, by rw [heq₁, heq₂]⟩
          · have := congrArg List.length heq₁
            rw [List.length_map, List.length_map] at this
            exact Or.inr ⟨fun hboth => hrest hboth.2, by omega⟩
        · exact Or.inr ⟨fun hboth => hpay hboth.1, by omega⟩
  | refused _ hrefused _ ih =>
      rw [indexesPayloads_refused hrefused]
      exact ih

/-! ## Describing -/

section

variable {E₁ : List Event} {rs : List Record} {bytes : List UInt8}

theorem mem_indexed {base o : Nat} {e : Event} :
    (o, e) ∈ indexed base E₁ ↔
      (o, e) ∈ layout Event.frame base E₁ ∧ e.header.includeInIndex = true := by
  rw [indexed, List.mem_filter]

theorem describes_of_eq (hbytes : bytes = (E ++ E₁).flatMap Event.frame)
    (h : rs.map Record.toIndexRecord =
      (indexed (E.flatMap Event.frame).length E₁).map recordOf) :
    Describes bytes (E.flatMap Event.frame).length rs where
  event := by
    intro r hr
    have hmem := List.mem_map_of_mem (f := Record.toIndexRecord) hr
    rw [h] at hmem
    obtain ⟨⟨o, e⟩, hmem, heq⟩ := List.mem_map.mp hmem
    obtain ⟨hmem, hincluded⟩ := mem_indexed.mp hmem
    rw [← heq]
    exact ⟨e.toEventWithHeader, ((mem_storedEvents hbytes).mpr ⟨e, rfl, hmem⟩).1,
      rfl, rfl, rfl, hincluded⟩
  distinct := by
    have hoffsets : rs.map (fun r => r.offset) =
        (indexed (E.flatMap Event.frame).length E₁).map Prod.fst := by
      have := congrArg (List.map IndexRecord.offset) h
      rw [List.map_map, List.map_map] at this
      exact this
    have hlt := (layout_pairwise Event.frame_delimiting
      (E.flatMap Event.frame).length E₁).filter fun x => x.2.header.includeInIndex
    rw [← List.pairwise_map (f := fun r : Record => r.offset) (R := (· ≠ ·)), hoffsets,
      List.pairwise_map]
    exact hlt.imp fun hx => Nat.ne_of_lt hx
  record := by
    intro o e hmem hle hincluded
    obtain ⟨e', rfl, hlayout⟩ := (mem_storedEvents hbytes).mp ⟨hmem, hle⟩
    have hrecord := List.mem_map_of_mem (f := recordOf)
      (mem_indexed.mpr ⟨hlayout, hincluded⟩)
    rw [← h] at hrecord
    obtain ⟨r, hr, heq⟩ := List.mem_map.mp hrecord
    refine ⟨r, hr, ?_⟩
    rw [heq]
    rfl

/-- A record that describes an event takes one of the indexed events for itself. -/
theorem Describes.length_le (hbytes : bytes = (E ++ E₁).flatMap Event.frame)
    (hle : ∀ r ∈ rs, (E.flatMap Event.frame).length ≤ r.offset)
    (h : Describes bytes (E.flatMap Event.frame).length rs) :
    rs.length ≤ (indexed (E.flatMap Event.frame).length E₁).length := by
  have hnodup : (rs.map fun r => r.offset).Nodup := by
    rw [List.Nodup, List.pairwise_map]
    exact h.distinct
  have hsub : (rs.map fun r => r.offset) ⊆
      (indexed (E.flatMap Event.frame).length E₁).map Prod.fst := by
    intro o ho
    obtain ⟨r, hr, rfl⟩ := List.mem_map.mp ho
    obtain ⟨e, hmem, _, _, _, hincluded⟩ := h.event r hr
    obtain ⟨e', rfl, hlayout⟩ := (mem_storedEvents hbytes).mp ⟨hmem, hle r hr⟩
    exact List.mem_map_of_mem (f := Prod.fst) (mem_indexed.mpr ⟨hlayout, hincluded⟩)
  have := (List.subperm_of_subset hnodup hsub).length_le
  rw [List.length_map, List.length_map] at this
  exact this

end

/-- The records of a session describe their events, after every render and after
the stop, if and only if no buffer that is indexed is empty. -/
theorem records_describe_events_iff {daysToSeconds : F → Int} {w₀ w : World}
    {E₀ : List Event} {R₀ : List Record} (h₀ : Whole .ordered w₀ E₀ R₀)
    (h : Session True checks daysToSeconds settings w₀ bs st w) :
    ∃ rs, w.index.entries = w₀.index.entries ++ rs.map Record.frame ∧
      (Describes (written st w) w₀.data.entries.flatten.length rs ↔
        IndexesPayloads checks settings .none .none bs) ∧
      ∀ w', Stops settings st w w' → ∃ final : List Record,
        w'.index.entries =
          w₀.index.entries ++ rs.map Record.frame ++ final.map Record.frame ∧
        (Describes w'.data.stored.flatten w₀.data.entries.flatten.length rs ↔
          IndexesPayloads checks settings .none .none bs) := by
  obtain ⟨spawned, E, R, hrecorded, hview, hsteady⟩ := h.recorded h₀
  obtain ⟨E₁, rs, rfl, rfl, hle, _, hcase⟩ := hrecorded.describes
  have hiff : ∀ bytes, bytes = (E₀ ++ E₁).flatMap Event.frame →
      (Describes bytes w₀.data.entries.flatten.length rs ↔
        IndexesPayloads checks settings .none .none bs) := by
    intro bytes hbytes
    rw [h₀.good.data]
    constructor
    · intro hdescribes
      have hlen := hdescribes.length_le hbytes hle
      rcases hcase with ⟨hpay, _⟩ | ⟨_, hlt⟩
      · exact hpay
      · omega
    · intro hpay
      rcases hcase with ⟨_, heq⟩ | ⟨hnot, _⟩
      · exact describes_of_eq hbytes heq
      · exact absurd hpay hnot
  refine ⟨rs, ?_, hiff _ hview.written, fun w' hstop => ?_⟩
  · rw [hview.index, h₀.good.index, List.map_append]
  · obtain ⟨final, _, hwhole⟩ := hstop.whole hview hsteady
    refine ⟨final, ?_, hiff _ ?_⟩
    · rw [hwhole.good.index, h₀.good.index, List.map_append, List.map_append]
    · rw [Log.stored_eq_of_durable hwhole.data, hwhole.good.data]

/-- One key frame, of these bytes. -/
def keyBuffer (payload : List UInt8) : Buffer :=
  ⟨ClockTime.store (some 1000000000), none, BufferFlags.empty, payload, true, none, none⟩

theorem records_describe_events_iff_movie :
    ∃ rs, (cameraMovie movie).1.2.index.entries = [] ++ rs.map Record.frame ∧
      Describes (written (cameraMovie movie).1.1 (cameraMovie movie).1.2) 0 rs := by
  have hrun : (cameraMovie movie).2 = true := by decide +kernel
  -- The two key frames are indexed, and neither is empty.
  have hpay : IndexesPayloads true cameraSettings .none .none
      (movie.map fun b => (none, b)) := ⟨nofun, nofun, trivial⟩
  generalize movie = bs at hrun hpay ⊢
  obtain ⟨rs, hindex, hiff, _⟩ := records_describe_events_iff whole_empty (camera_movie hrun)
  exact ⟨rs, hindex, hiff.mpr hpay⟩

/-- An empty key frame: a record at 0, and no event. -/
theorem records_describe_no_empty_event :
    ¬ ∀ (bs : List Input) (st : Started) (w : World) (rs : List Record),
      Session True true (fun _ => 0) cameraSettings ⟨.empty, .empty, false⟩ bs st w →
      w.index.entries = rs.map Record.frame → Describes (written st w) 0 rs := by
  intro hall
  have hrendered : (cameraAdds (keyBuffer []) cameraStarted cameraStart.2).1 =
      (.ok (), .started (keyStarted [] 0)) := by decide +kernel
  have hindex : (cameraAdds (keyBuffer []) cameraStarted cameraStart.2).2.index.entries =
      [(⟨⟨⟨some 1000000000⟩, 0, true, true⟩, by decide, by decide⟩ : Record)].map
        Record.frame := by decide +kernel
  have hbytes : written (keyStarted [] 0)
      (cameraAdds (keyBuffer []) cameraStarted cameraStart.2).2 = [] := by decide +kernel
  have hdescribes := hall _ _ _ _ (camera_session (camera_renders hrendered .nil)) hindex
  rw [hbytes] at hdescribes
  obtain ⟨e, hmem, _⟩ := hdescribes.event _ List.mem_cons_self
  cases hmem

end GstPravega.Plugin.PravegaSink
