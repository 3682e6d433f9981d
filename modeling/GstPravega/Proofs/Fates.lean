import GstPravega.Proofs.SinkSession

/-!
# What becomes of the buffers

Where no stream operation fails, what `render` does with a buffer is decided by the
buffers alone: it cannot be read, or a sum over its timestamp does not fit, or it is to be
indexed at time zero, which the index does not take, or it is written, with a record or
without one. `fates` says it for a list of buffers, carrying on the first timestamp and
that of the last record, and without running anything. The sums are the same in both
builds as long as they fit, so what holds of a session in which none overflows is said
over its fates.
-/

namespace GstPravega.Plugin.PravegaSink

open GstPravega.Lib GstPravega.Client GstPravega.Gst GstPravega.Video

variable {F : Type} {checks : Bool} {settings : Settings F}

inductive Fate where
  | unreadable
  | overflow
  /-- To be indexed at time zero. -/
  | zero (timestamp : PravegaTimestamp)
  | written (timestamp : PravegaTimestamp) (included : Bool)
  deriving DecidableEq, Repr

def fateOf (settings : Settings F) (firstValidTime lastIndexTime : PravegaTimestamp)
    (b : Input) : Fate :=
  if b.2.readable then
    match timestampOf true settings.timestampMode b.1 b.2.pts with
    | none => .overflow
    | some timestamp =>
        match includeInIndex true settings.indexMinNanos settings.indexMaxNanos
            (if firstValidTime.isNone then timestamp else firstValidTime) lastIndexTime
            timestamp b.2.flags.deltaUnit with
        | none => .overflow
        | some included =>
            if included = true ∧ timestamp.nanoseconds.getD 0 = 0 then .zero timestamp
            else if (finalTimestampOf true timestamp .none b.2.duration).isSome then
              .written timestamp included
            else .overflow
  else .unreadable

/-- The first timestamp that is not none, after it. -/
def Fate.firstValidTime (firstValidTime : PravegaTimestamp) : Fate → PravegaTimestamp
  | .zero timestamp => if firstValidTime.isNone then timestamp else firstValidTime
  | .written timestamp _ => if firstValidTime.isNone then timestamp else firstValidTime
  | _ => firstValidTime

/-- The timestamp of the last record, after it. -/
def Fate.lastIndexTime (lastIndexTime : PravegaTimestamp) : Fate → PravegaTimestamp
  | .written timestamp true => timestamp
  | _ => lastIndexTime

def fates (settings : Settings F) :
    PravegaTimestamp → PravegaTimestamp → List Input → List (Buffer × Fate)
  | _, _, [] => []
  | firstValidTime, lastIndexTime, b :: bs =>
      let fate := fateOf settings firstValidTime lastIndexTime b
      (b.2, fate) :: fates settings (fate.firstValidTime firstValidTime)
        (fate.lastIndexTime lastIndexTime) bs

/-- No sum over the timestamps of these buffers overflows. -/
def SumsFit (settings : Settings F) (firstValidTime lastIndexTime : PravegaTimestamp)
    (bs : List Input) : Prop :=
  ∀ x ∈ fates settings firstValidTime lastIndexTime bs, x.2 ≠ .overflow

instance (settings : Settings F) (firstValidTime lastIndexTime : PravegaTimestamp)
    (bs : List Input) : Decidable (SumsFit settings firstValidTime lastIndexTime bs) :=
  inferInstanceAs (Decidable (∀ x ∈ fates settings firstValidTime lastIndexTime bs,
    x.2 ≠ .overflow))

theorem sumsFit_cons {firstValidTime lastIndexTime : PravegaTimestamp} {b : Input}
    {bs : List Input} (h : SumsFit settings firstValidTime lastIndexTime (b :: bs)) :
    fateOf settings firstValidTime lastIndexTime b ≠ .overflow ∧
      SumsFit settings
        ((fateOf settings firstValidTime lastIndexTime b).firstValidTime firstValidTime)
        ((fateOf settings firstValidTime lastIndexTime b).lastIndexTime lastIndexTime)
        bs := by
  refine ⟨h _ List.mem_cons_self, fun x hx => ?_⟩
  exact h x (List.mem_cons_of_mem _ hx)

/-! ## A sum that fits is the same in both builds -/

theorem u64Add_map_true {α : Type} {a b : UInt64} {f : UInt64 → α} {x : α}
    (h : (u64Add true a b).map f = some x) : (u64Add checks a b).map f = some x := by
  obtain ⟨c, hc, rfl⟩ := Option.map_eq_some_iff.mp h
  obtain ⟨hlt, rfl⟩ := u64Add_true hc
  rw [u64Add_of_lt hlt]
  rfl

theorem timestampOf_true {mode : TimestampMode} {baseTime pts : ClockTime}
    {t : PravegaTimestamp} (h : timestampOf true mode baseTime pts = some t) :
    timestampOf checks mode baseTime pts = some t := by
  have hunix : ∀ n, PravegaTimestamp.fromUnixNanoseconds true n = some t →
      PravegaTimestamp.fromUnixNanoseconds checks n = some t := by
    intro n hn
    cases n with
    | none => exact hn
    | some n => exact u64Add_map_true hn
  cases mode with
  | realtimeClock => exact hunix _ h
  | tai => exact h
  | ntp =>
      cases pts with
      | none => exact h
      | some n =>
          simp only [timestampOf, PravegaTimestamp.fromNtpNanoseconds] at h ⊢
          split at h
          · next hle =>
              rw [if_pos hle]
              exact hunix _ h
          · next hlt =>
              rw [if_neg hlt]
              exact h

theorem includeInIndex_true {indexMinNanos indexMaxNanos : UInt64}
    {firstValidTime lastIndexTime timestamp : PravegaTimestamp} {isDeltaUnit included : Bool}
    (h : includeInIndex true indexMinNanos indexMaxNanos firstValidTime lastIndexTime
      timestamp isDeltaUnit = some included) :
    includeInIndex checks indexMinNanos indexMaxNanos firstValidTime lastIndexTime
      timestamp isDeltaUnit = some included := by
  obtain ⟨_ | t⟩ := timestamp
  · exact h
  obtain ⟨_ | l⟩ := lastIndexTime
  · cases isDeltaUnit with
    | false => exact h
    | true =>
        obtain ⟨_ | f⟩ := firstValidTime
        · exact h
        · exact u64Add_map_true h
  · cases isDeltaUnit with
    | false => exact u64Add_map_true h
    | true => exact u64Add_map_true h

theorem finalTimestampOf_true {timestamp old : PravegaTimestamp} {duration : ClockTime}
    (h : (finalTimestampOf true timestamp .none duration).isSome = true) :
    ∃ new, finalTimestampOf checks timestamp old duration = some new := by
  obtain ⟨_ | t⟩ := timestamp
  · exact ⟨old, rfl⟩
  · obtain ⟨new, hnew⟩ := Option.isSome_iff_exists.mp h
    exact ⟨new, u64Add_map_true hnew⟩

/-! ## The fate of a buffer is what `render` does with it -/

variable {baseTime : ClockTime} {buffer : Buffer} {timestamp : PravegaTimestamp}
  {included : Bool} {st st' : Started} {E E' : List Event} {R R' : List Record}

/-- The decision, where no sum overflows. -/
theorem fateOf_decided (h : fateOf settings st.firstValidTime st.lastIndexTime
      (baseTime, buffer) ≠ .overflow)
    (hdecided : Decided checks settings baseTime buffer st timestamp included) :
    fateOf settings st.firstValidTime st.lastIndexTime (baseTime, buffer) =
      if included = true ∧ timestamp.nanoseconds.getD 0 = 0 then .zero timestamp
      else .written timestamp included := by
  rw [fateOf, if_pos hdecided.readable] at h ⊢
  cases htime : timestampOf true settings.timestampMode baseTime buffer.pts with
  | none =>
      rw [htime] at h
      exact absurd rfl h
  | some t =>
  obtain rfl := Option.some.inj ((timestampOf_true htime).symm.trans hdecided.time)
  have hdecision := hdecided.decision
  rw [Started.noteValidTime] at hdecision
  dsimp only at hdecision
  rw [htime] at h
  dsimp only at h ⊢
  cases hinc : includeInIndex true settings.indexMinNanos settings.indexMaxNanos
      (if st.firstValidTime.isNone then t else st.firstValidTime) st.lastIndexTime t
      buffer.flags.deltaUnit with
  | none =>
      rw [hinc] at h
      exact absurd rfl h
  | some i =>
  obtain rfl := Option.some.inj ((includeInIndex_true hinc).symm.trans hdecision)
  rw [hinc] at h
  dsimp only at h ⊢
  split
  · rfl
  · next hzero =>
      rw [if_neg hzero] at h
      split at h
      · next hfinal => rw [if_pos hfinal]
      · exact absurd rfl h

theorem fateOf_rendered (h : fateOf settings st.firstValidTime st.lastIndexTime
      (baseTime, buffer) ≠ .overflow)
    (hdecided : Decided checks settings baseTime buffer st timestamp included)
    (hrendered : Rendered checks buffer timestamp included (st.noteValidTime timestamp) st'
      E E' R R') :
    fateOf settings st.firstValidTime st.lastIndexTime (baseTime, buffer) =
        .written timestamp included ∧
      st'.firstValidTime = (Fate.written timestamp included).firstValidTime
        st.firstValidTime ∧
      st'.lastIndexTime = (Fate.written timestamp included).lastIndexTime
        st.lastIndexTime := by
  refine ⟨?_, hrendered.firstValidTime, ?_⟩
  · rw [fateOf_decided h hdecided, if_neg]
    rintro ⟨hincluded, hzero⟩
    exact hrendered.timed hincluded hzero
  · rw [hrendered.lastIndexTime]
    cases included with
    | true => rfl
    | false => rfl

theorem fateOf_refused (h : fateOf settings st.firstValidTime st.lastIndexTime
      (baseTime, buffer) ≠ .overflow)
    (hrefused : Refused checks settings baseTime buffer st st') :
    ∃ fate, fateOf settings st.firstValidTime st.lastIndexTime (baseTime, buffer) = fate ∧
      (fate = .unreadable ∨ ∃ timestamp, fate = .zero timestamp) ∧
      st'.firstValidTime = fate.firstValidTime st.firstValidTime ∧
      st'.lastIndexTime = fate.lastIndexTime st.lastIndexTime := by
  rcases hrefused with ⟨hreadable, rfl⟩ | ⟨timestamp, writer, hdecided, hzero, rfl⟩
  · refine ⟨.unreadable, ?_, Or.inl rfl, rfl, rfl⟩
    rw [fateOf, hreadable, if_neg Bool.false_ne_true]
  · refine ⟨.zero timestamp, ?_, Or.inr ⟨timestamp, rfl⟩, rfl, rfl⟩
    rw [fateOf_decided h hdecided, if_pos ⟨rfl, hzero⟩]

/-- Where no sum overflows a buffer that can be read is decided on, and its end is in
range. -/
theorem decided_of_fateOf (checks : Bool) (h : fateOf settings st.firstValidTime
      st.lastIndexTime (baseTime, buffer) ≠ .overflow) (hreadable : buffer.readable = true) :
    ∃ timestamp included, Decided checks settings baseTime buffer st timestamp included ∧
      ∀ old, ∃ new, finalTimestampOf checks timestamp old buffer.duration = some new := by
  rw [fateOf, if_pos hreadable] at h
  split at h
  · exact absurd rfl h
  next timestamp htime =>
  split at h
  · exact absurd rfl h
  next included hinc =>
  refine ⟨timestamp, included, ⟨hreadable, timestampOf_true htime, includeInIndex_true hinc⟩,
    fun old => finalTimestampOf_true ?_⟩
  split at h
  · next hzero =>
      obtain ⟨_ | t⟩ := timestamp
      · rfl
      · -- From time zero on every end is in range.
        have ht : t = 0 := hzero.2
        have hlt := (max 1 (buffer.duration.getD 0)).toNat_lt
        rw [finalTimestampOf, ht]
        dsimp only
        rw [u64Add_of_lt (by simpa using hlt)]
        rfl
  · split at h
    · assumption
    · exact absurd rfl h

/-- A buffer that is indexed has a timestamp that is not zero. -/
theorem timed_of_fateOf {firstValidTime lastIndexTime : PravegaTimestamp} {b : Input}
    (h : fateOf settings firstValidTime lastIndexTime b = .written timestamp true) :
    timestamp.nanoseconds.getD 0 ≠ 0 := by
  rw [fateOf] at h
  split at h
  case isFalse => cases h
  split at h
  · cases h
  split at h
  · cases h
  split at h
  · cases h
  next hzero =>
  split at h
  · injection h with ht hi
    subst ht hi
    exact fun hc => hzero ⟨rfl, hc⟩
  · cases h

/-- A buffer that is written has been decided on in the build that checks the sums. -/
theorem included_of_fateOf (h : fateOf settings st.firstValidTime st.lastIndexTime
      (baseTime, buffer) = .written timestamp included) :
    includeInIndex true settings.indexMinNanos settings.indexMaxNanos
      (st.noteValidTime timestamp).firstValidTime st.lastIndexTime timestamp
      buffer.flags.deltaUnit = some included := by
  rw [fateOf] at h
  split at h
  case isFalse => cases h
  split at h
  · cases h
  split at h
  · cases h
  next hinc =>
  split at h
  · cases h
  split at h
  · injection h with ht hi
    subst ht hi
    exact hinc
  · cases h

end GstPravega.Plugin.PravegaSink
