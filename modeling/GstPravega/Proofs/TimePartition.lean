import GstPravega.Proofs.SinkSession

/-!
# The index partitions the data by time

When the timestamps that a session is given do not decrease, then between two of
its records lie only events with timestamps between theirs. A record is written
right before the events of its buffer and with the same timestamp, so what is in
front of it is not later and what is behind it not earlier; which buffers are
indexed does not matter, nor do the buffers without a timestamp, whose events
have none either. The final record lies behind all events, later than each of
them, because the end of a buffer is at least a nanosecond behind its start.
-/

namespace GstPravega.Plugin.PravegaSink

open GstPravega.Lib GstPravega.Client GstPravega.Gst GstPravega.Video

variable {F : Type} {checks : Bool} {settings : Settings F} {bs : List Input}
  {st st' : Started} {E E' : List Event} {R R' : List Record}

/-- The timestamps of the buffers that have one. -/
def validTimes (checks : Bool) (settings : Settings F) (bs : List Input) :
    List PravegaTimestamp :=
  (bs.filterMap fun b => timestampOf checks settings.timestampMode b.1 b.2.pts).filter
    PravegaTimestamp.isSome

/-- The end of every buffer is in range. -/
def EndsFit (checks : Bool) (settings : Settings F) (bs : List Input) : Prop :=
  ∀ b ∈ bs, ∀ t, timestampOf checks settings.timestampMode b.1 b.2.pts = some ⟨some t⟩ →
    t.toNat + (max 1 (b.2.duration.getD 0)).toNat < 2 ^ 64

/-- Of the events from `base` on, those in front of a record are not later than it,
and those behind it not earlier. With `strict`, those in front are earlier. -/
structure Separates (strict : Prop) (base : Nat) (E : List Event) (r : Record) :
    Prop where
  before : ∀ o e, (o, e) ∈ layout Event.frame base E → o < r.offset →
    e.header.timestamp.isSome = true →
    e.header.timestamp ≤ r.timestamp ∧ (strict → e.header.timestamp < r.timestamp)
  after : ∀ o e, (o, e) ∈ layout Event.frame base E → r.offset ≤ o →
    e.header.timestamp.isSome = true → r.timestamp ≤ e.header.timestamp

/-- What holds of the events and the records of a session, when its buffers so far
had the timestamps `past`. -/
structure Timely (strict : Prop) (base : Nat) (past : List PravegaTimestamp)
    (st : Started) (E : List Event) (R : List Record) : Prop where
  separates : ∀ r ∈ R, Separates strict base E r
  behind : ∀ r ∈ R, base ≤ r.offset ∧ r.offset ≤ base + (E.flatMap Event.frame).length
  records : ∀ r ∈ R, r.timestamp ∈ past
  events : ∀ e ∈ E, e.header.timestamp.isSome = true → e.header.timestamp ∈ past
  final : ∀ t ∈ past, t < st.finalTimestamp

theorem storedTime_of_isSome {t : PravegaTimestamp}
    (h : (storedTime t).isSome = true) : storedTime t = t ∧ t.isSome = true := by
  rw [storedTime] at h ⊢
  split at h
  · cases h
  · next hne => exact ⟨if_neg hne, h⟩

theorem lt_finalTimestampOf {timestamp old new : PravegaTimestamp} {duration : ClockTime}
    (h : finalTimestampOf checks timestamp old duration = some new)
    (hfit : ∀ t, timestamp = ⟨some t⟩ → t.toNat + (max 1 (duration.getD 0)).toNat < 2 ^ 64)
    (hsome : timestamp.isSome = true) : timestamp < new := by
  obtain ⟨_ | t⟩ := timestamp
  · cases hsome
  · have hlt := hfit t rfl
    rw [finalTimestampOf] at h
    dsimp only at h
    rw [u64Add_of_lt hlt, Option.map_some] at h
    injection h with h
    subst h
    rw [PravegaTimestamp.lt_iff]
    show t.toNat + 1 < (t + max 1 (duration.getD 0)).toNat + 1
    rw [toNat_add_of_lt hlt]
    have hone : 1 ≤ (max 1 (duration.getD 0)).toNat := by
      show 1 ≤ (if 1 ≤ duration.getD 0 then duration.getD 0 else 1).toNat
      split
      · next hle => exact UInt64.le_iff_toNat_le.mp hle
      · exact Nat.le_refl 1
    omega

/-- A buffer with this timestamp, if it has one: its events, and its record in
front of them. -/
theorem Timely.append {strict : Prop} {base : Nat} {past : List PravegaTimestamp}
    {timestamp : PravegaTimestamp} {E₁ : List Event} {R₁ : List Record}
    (h : Timely strict base past st E R)
    (hmono : timestamp.isSome = true → ∀ t ∈ past, t ≤ timestamp)
    (hstrict : strict → timestamp.isSome = true → ∀ t ∈ past, t < timestamp)
    (hE₁ : ∀ e ∈ E₁, e.header.timestamp.isSome = true →
      e.header.timestamp = timestamp)
    (hR₁ : ∀ r ∈ R₁, r.timestamp = timestamp ∧ timestamp.isSome = true ∧
      r.offset = base + (E.flatMap Event.frame).length)
    (hfinal : ∀ t ∈ past ++ (if timestamp.isSome then [timestamp] else []),
      t < st'.finalTimestamp) :
    Timely strict base (past ++ if timestamp.isSome then [timestamp] else []) st'
      (E ++ E₁) (R ++ R₁) := by
  have hnew : ∀ {o e}, (o, e) ∈ layout Event.frame base (E ++ E₁) →
      (o < base + (E.flatMap Event.frame).length ∧
        (o, e) ∈ layout Event.frame base E ∧ e ∈ E) ∨
      (base + (E.flatMap Event.frame).length ≤ o ∧ e ∈ E₁) := by
    intro o e he
    rcases mem_layout_append Event.frame_delimiting he with ⟨hlt, he⟩ | ⟨hge, he⟩
    · refine Or.inl ⟨hlt, he, ?_⟩
      rw [← layout_map_snd Event.frame base E]
      exact List.mem_map_of_mem he
    · refine Or.inr ⟨hge, ?_⟩
      rw [← layout_map_snd Event.frame (base + (E.flatMap Event.frame).length) E₁]
      exact List.mem_map_of_mem he
  refine ⟨fun r hr => ⟨?_, ?_⟩, ?_, ?_, ?_, hfinal⟩
  · intro o e he hlt hsome
    rcases List.mem_append.mp hr with hr | hr
    · rcases hnew he with ⟨_, he, _⟩ | ⟨hge, _⟩
      · exact (h.separates r hr).before o e he hlt hsome
      · have := (h.behind r hr).2
        omega
    · obtain ⟨htime, htimed, hoffset⟩ := hR₁ r hr
      rcases hnew he with ⟨_, _, he⟩ | ⟨hge, _⟩
      · rw [htime]
        exact ⟨hmono htimed _ (h.events e he hsome),
          fun hs => hstrict hs htimed _ (h.events e he hsome)⟩
      · omega
  · intro o e he hge hsome
    rcases List.mem_append.mp hr with hr | hr
    · rcases hnew he with ⟨_, he, _⟩ | ⟨_, he⟩
      · exact (h.separates r hr).after o e he hge hsome
      · have htime := hE₁ e he hsome
        rw [htime] at hsome ⊢
        exact hmono hsome _ (h.records r hr)
    · obtain ⟨htime, _, hoffset⟩ := hR₁ r hr
      rcases hnew he with ⟨hlt, _, _⟩ | ⟨_, he⟩
      · omega
      · rw [htime, hE₁ e he hsome]
  · intro r hr
    rw [List.flatMap_append, List.length_append]
    rcases List.mem_append.mp hr with hr | hr
    · have := h.behind r hr
      omega
    · obtain ⟨_, _, hoffset⟩ := hR₁ r hr
      omega
  · intro r hr
    rcases List.mem_append.mp hr with hr | hr
    · exact List.mem_append_left _ (h.records r hr)
    · obtain ⟨htime, htimed, _⟩ := hR₁ r hr
      refine List.mem_append_right _ ?_
      rw [htime, if_pos htimed]
      exact List.mem_cons_self
  · intro e he hsome
    rcases List.mem_append.mp he with he | he
    · exact List.mem_append_left _ (h.events e he hsome)
    · refine List.mem_append_right _ ?_
      have htime := hE₁ e he hsome
      rw [htime] at hsome ⊢
      rw [if_pos hsome]
      exact List.mem_cons_self

theorem validTimes_cons {baseTime : ClockTime} {buffer : Buffer}
    {timestamp : PravegaTimestamp}
    (h : timestampOf checks settings.timestampMode baseTime buffer.pts = some timestamp) :
    validTimes checks settings ((baseTime, buffer) :: bs) =
      (if timestamp.isSome then [timestamp] else []) ++ validTimes checks settings bs := by
  simp only [validTimes, List.filterMap_cons, h, List.filter_cons]
  split
  · rfl
  · rfl

/-- A session. The induction is on the buffers, the timestamps of those before in
`past`. -/
theorem Recorded.timely {strict : Prop} {E₀ : List Event} {R₀ : List Record}
    (h : Recorded False checks settings bs st E R st' E' R') :
    ∀ {past E₁ R₁}, E = E₀ ++ E₁ → R = R₀ ++ R₁ →
      Timely strict (E₀.flatMap Event.frame).length past st E₁ R₁ →
      EndsFit checks settings bs →
      (past ++ validTimes checks settings bs).Pairwise (· ≤ ·) →
      (strict → (past ++ validTimes checks settings bs).Pairwise (· < ·)) →
      ∃ E₂ R₂, E' = E₀ ++ E₂ ∧ R' = R₀ ++ R₂ ∧
        Timely strict (E₀.flatMap Event.frame).length
          (past ++ validTimes checks settings bs) st' E₂ R₂ := by
  induction h with
  | nil =>
      intro past E₁ R₁ hE hR htimely _ _ _
      refine ⟨E₁, R₁, hE, hR, ?_⟩
      rwa [show validTimes checks settings [] = [] from rfl, List.append_nil]
  | @cons baseTime buffer bs timestamp included st st₁ st₂ E E' E'' R R' R'' hdecided
      hrendered _ ih =>
      intro past E₁ R₁ hE hR htimely hfit hmono hstrict
      rw [validTimes_cons hdecided.time, ← List.append_assoc] at hmono hstrict ⊢
      obtain ⟨rs, hR', hrs⟩ := hrendered.records
      have hstep : Timely strict (E₀.flatMap Event.frame).length
          (past ++ if timestamp.isSome then [timestamp] else []) st₁
          (E₁ ++ fragments timestamp included (!buffer.flags.deltaUnit)
            (isDiscontinuity buffer.flags st.buffersWritten included st.lastIndexTime)
            buffer.payload) (R₁ ++ rs) := by
        have hle : timestamp.isSome = true → ∀ t ∈ past, t ≤ timestamp := by
          intro hsome t ht
          have hpast := (List.pairwise_append.mp hmono).1
          rw [if_pos hsome] at hpast
          exact (List.pairwise_append.mp hpast).2.2 t ht timestamp List.mem_cons_self
        have hlt : timestamp.isSome = true → timestamp < st₁.finalTimestamp := by
          intro hsome
          refine lt_finalTimestampOf hrendered.finalTimestamp (fun t ht => ?_) hsome
          refine hfit _ List.mem_cons_self t ?_
          rw [hdecided.time, ht]
        refine htimely.append hle ?_ ?_ ?_ ?_
        · intro hs hsome t ht
          have hpast := (List.pairwise_append.mp (hstrict hs)).1
          rw [if_pos hsome] at hpast
          exact (List.pairwise_append.mp hpast).2.2 t ht timestamp List.mem_cons_self
        · intro e he hsome
          rw [timestamp_of_mem_fragments he] at hsome ⊢
          exact (storedTime_of_isSome hsome).1
        · intro r hr
          obtain ⟨hincluded, hr⟩ := of_mem_bufferRecords hrs hr
          have htimed := hrendered.timed hincluded
          refine ⟨by rw [hr]; rfl, ?_, ?_⟩
          · obtain ⟨_ | t⟩ := timestamp
            · exact absurd rfl htimed
            · rfl
          · rw [hr, hE, List.flatMap_append, List.length_append]
            rfl
        · intro t ht
          by_cases hsome : timestamp.isSome = true
          · rw [if_pos hsome] at ht
            rcases List.mem_append.mp ht with ht | ht
            · exact lt_of_le_of_lt (hle hsome t ht) (hlt hsome)
            · rw [List.mem_singleton.mp ht]
              exact hlt hsome
          · -- Without a timestamp the final one stays.
            rw [if_neg hsome, List.append_nil] at ht
            have hfinal := hrendered.finalTimestamp
            obtain ⟨_ | n⟩ := timestamp
            · injection hfinal with hfinal
              rw [← hfinal]
              exact htimely.final t ht
            · exact absurd rfl hsome
      refine ih ?_ ?_ hstep (fun b hb => hfit b (List.mem_cons_of_mem _ hb)) hmono hstrict
      · rw [hrendered.events, hE, List.append_assoc]
        rfl
      · rw [hR', hR, List.append_assoc]
  | refused hf => exact hf.elim

theorem length_finalRecords {final : List Record}
    (h : final.map Record.toIndexRecord = finalRecords st) : final.length ≤ 1 := by
  rw [← List.length_map (f := Record.toIndexRecord), h, finalRecords]
  split
  · split
    · exact Nat.le_refl 1
    · exact Nat.zero_le 1
  · exact Nat.zero_le 1

theorem timestamp_finalRecords {final : List Record} {r : Record}
    (h : final.map Record.toIndexRecord = finalRecords st) (hr : r ∈ final) :
    r.timestamp = st.finalTimestamp := by
  have hmem := List.mem_map_of_mem (f := Record.toIndexRecord) hr
  rw [h, finalRecords] at hmem
  split at hmem
  · split at hmem
    · rw [List.mem_singleton.mp hmem]
      rfl
    · cases hmem
  · cases hmem

/-- The records of a session, the final one last, are such that what lies between
two of them has timestamps between theirs; in front of the final record, and
everywhere when the timestamps increase, it is strictly earlier. -/
theorem index_partitions_by_time {daysToSeconds : F → Int} {w₀ w w' : World}
    {E₀ : List Event} {R₀ : List Record} (h₀ : Whole .ordered w₀ E₀ R₀)
    (h : Session False checks daysToSeconds settings w₀ bs st w)
    (hstop : Stops settings st w w')
    (hmono : (validTimes checks settings bs).Pairwise (· ≤ ·))
    (hfit : EndsFit checks settings bs) :
    ∃ rs final : List Record,
      w'.index.entries = w₀.index.entries ++ (rs ++ final).map Record.frame ∧
      final.map Record.toIndexRecord = finalRecords st ∧
      ∀ j k a c, j < k → (rs ++ final)[j]? = some a → (rs ++ final)[k]? = some c →
        ∀ o e, (o, e) ∈ storedEvents w'.data.stored.flatten →
          a.offset ≤ o → o < c.offset → e.header.timestamp.isSome = true →
            a.timestamp ≤ e.header.timestamp ∧ e.header.timestamp ≤ c.timestamp ∧
            (rs.length ≤ k → e.header.timestamp < c.timestamp) ∧
            ((validTimes checks settings bs).Pairwise (· < ·) →
              e.header.timestamp < c.timestamp) := by
  obtain ⟨spawned, E, R, hrecorded, hview, hsteady⟩ := h.recorded h₀
  have hnil : Timely ((validTimes checks settings bs).Pairwise (· < ·))
      (E₀.flatMap Event.frame).length []
      (Started.new settings.bufferSize (E₀.flatMap Event.frame).length spawned) [] [] := by
    constructor <;> intro x hx <;> cases hx
  obtain ⟨E₁, R₁, rfl, rfl, htimely⟩ := hrecorded.timely (List.append_nil E₀).symm
    (List.append_nil R₀).symm hnil hfit hmono id
  obtain ⟨final, hfinal, hwhole⟩ := hstop.whole hview hsteady
  have hbytes : w'.data.stored.flatten = (E₀ ++ E₁).flatMap Event.frame := by
    rw [Log.stored_eq_of_durable hwhole.data, hwhole.good.data]
  refine ⟨R₁, final, ?_, hfinal, ?_⟩
  · rw [hwhole.good.index, h₀.good.index, List.map_append, List.map_append,
      List.map_append, List.append_assoc]
  intro j k a c hjk ha hc o e he hao hoc hsome
  obtain ⟨hk, _⟩ := List.getElem?_eq_some_iff.mp hc
  rw [List.length_append] at hk
  -- Only the last record is final, so the first of the two is not.
  have ha : a ∈ R₁ := by
    have hle := length_finalRecords hfinal
    rw [List.getElem?_append_left (by omega)] at ha
    exact List.mem_of_getElem? ha
  have hbase := (htimely.behind a ha).1
  obtain ⟨e', rfl, hlayout⟩ := (mem_storedEvents hbytes).mp ⟨he, by omega⟩
  refine ⟨(htimely.separates a ha).after o e' hlayout hao hsome, ?_⟩
  rcases Nat.lt_or_ge k R₁.length with hlt | hge
  · rw [List.getElem?_append_left hlt] at hc
    obtain ⟨hle, hstrict⟩ := (htimely.separates c (List.mem_of_getElem? hc)).before o e'
      hlayout hoc hsome
    exact ⟨hle, fun hge => absurd hlt (Nat.not_lt.mpr hge), hstrict⟩
  · rw [List.getElem?_append_right hge] at hc
    have htime := timestamp_finalRecords hfinal (List.mem_of_getElem? hc)
    have hmem : e' ∈ E₁ := by
      rw [← layout_map_snd Event.frame (E₀.flatMap Event.frame).length E₁]
      exact List.mem_map_of_mem hlayout
    have hlt := htimely.final _ (htimely.events e' hmem hsome)
    rw [htime]
    exact ⟨le_of_lt hlt, fun _ => hlt, fun _ => hlt⟩

/-- A key frame at one second. -/
def secondBuffer : Buffer :=
  ⟨ClockTime.store (some 1000000000), none, BufferFlags.empty, [7], true, none, none⟩

/-- A delta unit without a timestamp. -/
def untimedBuffer : Buffer :=
  ⟨ClockTime.store none, none, ⟨true, false, false, false⟩, [8], true, none, none⟩

def secondStarted : Started where
  writer := ⟨⟨128 * 1024, EventWithHeader.encode
    ⟨⟨⟨some 1000000000⟩, true, true, true⟩, [7]⟩⟩, 21⟩
  firstValidTime := ⟨some 1000000000⟩
  lastIndexTime := ⟨some 1000000000⟩
  finalTimestamp := ⟨some 1000000001⟩
  finalOffset := some 21
  buffersWritten := 1
  retentionThreadHandle := false

def untimedStarted : Started :=
  { secondStarted with
    writer := ⟨⟨128 * 1024, secondStarted.writer.inner.buf ++ EventWithHeader.encode
      ⟨⟨⟨none⟩, false, false, false⟩, [8]⟩⟩, 42⟩
    finalOffset := some 42
    buffersWritten := 2 }

/-- Both, on empty streams. -/
def untimedWorld : World :=
  (cameraAdds untimedBuffer secondStarted
    (cameraAdds secondBuffer cameraStarted cameraStart.2).2).2

theorem index_partitions_by_time_untimed :
    ∃ rs final : List Record,
      (cameraStops untimedStarted untimedWorld).2.index.entries =
        [] ++ (rs ++ final).map Record.frame ∧
      final.map Record.toIndexRecord = finalRecords untimedStarted ∧
      ∀ j k a c, j < k → (rs ++ final)[j]? = some a → (rs ++ final)[k]? = some c →
        ∀ o e, (o, e) ∈
            storedEvents (cameraStops untimedStarted untimedWorld).2.data.stored.flatten →
          a.offset ≤ o → o < c.offset → e.header.timestamp.isSome = true →
            a.timestamp ≤ e.header.timestamp ∧ e.header.timestamp ≤ c.timestamp ∧
            (rs.length ≤ k → e.header.timestamp < c.timestamp) ∧
            ((validTimes true cameraSettings
                [(none, secondBuffer), (none, untimedBuffer)]).Pairwise (· < ·) →
              e.header.timestamp < c.timestamp) := by
  have hsecond : (cameraAdds secondBuffer cameraStarted cameraStart.2).1 =
      (.ok (), .started secondStarted) := by decide +kernel
  have huntimed : (cameraAdds untimedBuffer secondStarted
      (cameraAdds secondBuffer cameraStarted cameraStart.2).2).1 =
      (.ok (), .started untimedStarted) := by decide +kernel
  have hstop : (cameraStops untimedStarted untimedWorld).1 = (.ok (), .stopped) := by
    decide +kernel
  refine index_partitions_by_time whole_empty
    (camera_session (camera_renders hsecond (camera_renders huntimed .nil)))
    (camera_stops hstop) ?_ ?_
  · decide
  · intro b hb t ht
    rcases List.mem_cons.mp hb with rfl | hb
    · injection ht with ht
      injection ht with ht
      injection ht with ht
      subst ht
      decide
    · rw [List.mem_singleton.mp hb] at ht
      injection ht with ht
      injection ht with ht
      cases ht

end GstPravega.Plugin.PravegaSink
