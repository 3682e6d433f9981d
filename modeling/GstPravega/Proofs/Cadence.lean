import GstPravega.Proofs.Fates
import GstPravega.Proofs.IndexDecision
import GstPravega.Proofs.TimePartition

/-!
# How often the sink indexes

A record comes at least the smallest interval after the one before, and at a delta unit
only after more than the largest. Conversely a buffer that is not indexed lies within the
largest interval of the newest record, or of the first timestamp while there is none: a key
frame is left out only within the smallest interval, which `start` has compared with the
largest. Neither bound depends on the order of the timestamps, so each `render` can be
looked at by itself, once it is known that the state holds the newest record's timestamp
and the first valid one.
-/

namespace GstPravega.Plugin.PravegaSink

open GstPravega.Lib GstPravega.Client GstPravega.Gst GstPravega.Video GstPravega.Lib.Program

open World

variable {F : Type} {checks : Bool} {settings : Settings F} {bs : List Input}
  {st st' : Started} {E E' : List Event} {R R' : List Record}

/-! ## The decision -/

section Decision

variable {indexMinNanos indexMaxNanos : UInt64}
  {firstValidTime lastIndexTime timestamp : PravegaTimestamp} {isDeltaUnit : Bool}
  {l t : UInt64}

/-- A buffer that is indexed is behind the last record by the interval. -/
theorem spaced_of_included (hle : indexMinNanos ≤ indexMaxNanos)
    (h : includeInIndex true indexMinNanos indexMaxNanos firstValidTime ⟨some l⟩ ⟨some t⟩
      isDeltaUnit = some true) :
    l.toNat + indexMinNanos.toNat ≤ t.toNat ∧
      (isDeltaUnit = true → l.toNat + indexMaxNanos.toNat < t.toNat) := by
  rw [UInt64.le_iff_toNat_le] at hle
  have hexact := exactDecision_eq h
  cases isDeltaUnit with
  | true =>
      have hgt : (indexMaxNanos.toNat : Int) < t.toNat - l.toNat := of_decide_eq_true hexact
      exact ⟨by omega, fun _ => by omega⟩
  | false =>
      have hge : (indexMinNanos.toNat : Int) ≤ t.toNat - l.toNat := of_decide_eq_true hexact
      exact ⟨by omega, fun hdelta => by cases hdelta⟩

/-- One that is not is within the largest interval of the last record, or of the first
timestamp. -/
theorem recent_of_not_included (hle : indexMinNanos ≤ indexMaxNanos)
    (hfirst : firstValidTime.isSome = true)
    (h : includeInIndex true indexMinNanos indexMaxNanos firstValidTime lastIndexTime
      ⟨some t⟩ isDeltaUnit = some false) :
    ∃ n, lastIndexTime.or firstValidTime = ⟨some n⟩ ∧
      t.toNat ≤ n.toNat + indexMaxNanos.toNat := by
  rw [UInt64.le_iff_toNat_le] at hle
  have hexact := exactDecision_eq h
  obtain ⟨_ | l⟩ := lastIndexTime
  · obtain ⟨_ | f⟩ := firstValidTime
    · cases hfirst
    refine ⟨f, rfl, ?_⟩
    cases isDeltaUnit with
    | false => cases hexact
    | true =>
        have hgt : ¬ (indexMaxNanos.toNat : Int) < t.toNat - f.toNat :=
          of_decide_eq_false hexact
        omega
  · refine ⟨l, rfl, ?_⟩
    cases isDeltaUnit with
    | true =>
        have hgt : ¬ (indexMaxNanos.toNat : Int) < t.toNat - l.toNat :=
          of_decide_eq_false hexact
        omega
    | false =>
        have hge : ¬ (indexMinNanos.toNat : Int) ≤ t.toNat - l.toNat :=
          of_decide_eq_false hexact
        omega

end Decision

/-! ## What the state remembers -/

/-- The timestamp of the newest of these records, if there is one. -/
def newestTime (rs : List Record) : PravegaTimestamp :=
  match rs.getLast? with
  | some r => r.timestamp
  | none => .none

/-- The first of these timestamps, if there is one. -/
def firstTime (past : List PravegaTimestamp) : PravegaTimestamp :=
  match past.head? with
  | some t => t
  | none => .none

/-- The state holds the timestamp of the newest record of the instance and the first
valid one. -/
structure Paced (past : List PravegaTimestamp) (st : Started) (rs : List Record) :
    Prop where
  timed : ∀ r ∈ rs, r.timestamp.isSome = true
  newest : st.lastIndexTime = newestTime rs
  first : st.firstValidTime = firstTime past

theorem firstTime_append {past : List PravegaTimestamp} {timestamp : PravegaTimestamp}
    (hpast : ∀ t ∈ past, t.isSome = true) :
    firstTime (past ++ if timestamp.isSome then [timestamp] else []) =
      if (firstTime past).isNone then timestamp else firstTime past := by
  cases past with
  | cons t past =>
      have hnone : t.isNone = false := by
        rw [PravegaTimestamp.isNone, hpast t List.mem_cons_self]
        rfl
      show t = if t.isNone then timestamp else t
      rw [hnone, if_neg Bool.false_ne_true]
  | nil =>
      obtain ⟨_ | t⟩ := timestamp
      · rfl
      · rfl

/-- One buffer. -/
theorem Paced.rendered {past : List PravegaTimestamp} {rs : List Record}
    {baseTime : ClockTime} {buffer : Buffer} {timestamp : PravegaTimestamp}
    {included : Bool} {new : List Record} {offset : Nat} {r d : Bool}
    (h : Paced past st rs) (hpast : ∀ t ∈ past, t.isSome = true)
    (hdecided : Decided checks settings baseTime buffer st timestamp included)
    (hrendered : Rendered checks buffer timestamp included (st.noteValidTime timestamp) st'
      E E' R R')
    (hnew : new.map Record.toIndexRecord = bufferRecords timestamp offset included r d) :
    Paced (past ++ if timestamp.isSome then [timestamp] else []) st' (rs ++ new) := by
  have hmem : ∀ a ∈ new, included = true ∧ a.timestamp = timestamp := by
    intro a ha
    obtain ⟨hincluded, ha⟩ := of_mem_bufferRecords hnew ha
    exact ⟨hincluded, by rw [ha]; rfl⟩
  refine ⟨fun a ha => ?_, ?_, ?_⟩
  · rcases List.mem_append.mp ha with ha | ha
    · exact h.timed a ha
    · obtain ⟨hincluded, htime⟩ := hmem a ha
      rw [htime]
      obtain ⟨_ | t⟩ := timestamp
      · exact absurd rfl (hrendered.timed hincluded)
      · rfl
  · rw [hrendered.lastIndexTime]
    cases included with
    | false =>
        have hnil : new = [] := List.map_eq_nil_iff.mp hnew
        rw [hnil, List.append_nil]
        exact h.newest
    | true =>
        obtain ⟨a, rfl⟩ : ∃ a, new = [a] := by
          have hlen := congrArg List.length hnew
          rw [List.length_map] at hlen
          exact List.length_eq_one_iff.mp hlen
        rw [newestTime, List.getLast?_concat]
        exact (hmem a List.mem_cons_self).2.symm
  · rw [hrendered.firstValidTime, firstTime_append hpast, ← h.first]
    rfl

theorem isSome_of_mem_validTimes {t : PravegaTimestamp}
    (h : t ∈ validTimes checks settings bs) : t.isSome = true := (List.mem_filter.mp h).2

/-- A session. The induction is on the buffers, the timestamps of those before in
`past`, and what is left of the inputs in `more`. -/
theorem Recorded.paced (h : Recorded False checks settings bs st E R st' E' R') :
    ∀ {past rs more}, Paced past st rs → (∀ t ∈ past, t.isSome = true) →
      SumsFit settings st.firstValidTime st.lastIndexTime (bs ++ more) →
      ∃ new, R' = R ++ new ∧
        Paced (past ++ validTimes checks settings bs) st' (rs ++ new) ∧
        SumsFit settings st'.firstValidTime st'.lastIndexTime more := by
  induction h with
  | nil =>
      intro past rs more hpaced _ hfit
      refine ⟨[], (List.append_nil _).symm, ?_, hfit⟩
      rw [show validTimes checks settings [] = [] from rfl, List.append_nil,
        List.append_nil]
      exact hpaced
  | @cons baseTime buffer bs timestamp included st st₁ st₂ E E₁ E₂ R R₁ R₂ hdecided
      hrendered _ ih =>
      intro past rs more hpaced hpast hfit
      obtain ⟨hfate, hfit⟩ := sumsFit_cons hfit
      obtain ⟨heq, hfirst, hlast⟩ := fateOf_rendered hfate hdecided hrendered
      rw [heq, ← hfirst, ← hlast] at hfit
      obtain ⟨new, hnew, hrecords⟩ := hrendered.records
      have hpaced₁ := hpaced.rendered hpast hdecided hrendered hrecords
      have hpast₁ : ∀ t ∈ past ++ (if timestamp.isSome then [timestamp] else []),
          t.isSome = true := by
        intro t ht
        rcases List.mem_append.mp ht with ht | ht
        · exact hpast t ht
        · split at ht
          · next hsome =>
              rw [List.mem_singleton.mp ht]
              exact hsome
          · cases ht
      obtain ⟨new₂, rfl, hpaced₂, hfit₂⟩ := ih hpaced₁ hpast₁ hfit
      refine ⟨new ++ new₂, ?_, ?_, hfit₂⟩
      · rw [hnew, List.append_assoc]
      · rw [validTimes_cons hdecided.time, ← List.append_assoc, ← List.append_assoc]
        exact hpaced₂
  | refused hf => exact hf.elim

theorem paced_new {bufferSize dataOffset : Nat} {spawned : Bool} :
    Paced [] (Started.new bufferSize dataOffset spawned) [] :=
  ⟨(fun _ hr => nomatch hr), rfl, rfl⟩

/-- `start` has compared the intervals. -/
theorem Session.min_le_max {refusals : Prop} {daysToSeconds : F → Int} {w₀ w : World}
    (h : Session refusals checks daysToSeconds settings w₀ bs st w) :
    settings.indexMinNanos ≤ settings.indexMaxNanos := by
  obtain ⟨st₀, w₁, hstart, _⟩ := h
  by_contra hnot
  rw [start, startStopped, decide_eq_false hnot] at hstart
  cases hstart

/-! ## The cadence -/

theorem timed_of_newestTime {rs : List Record} {a : Record}
    (h : ∀ r ∈ rs, r.timestamp.isSome = true) (ha : rs.getLast? = some a) :
    ∃ l, a.timestamp = ⟨some l⟩ ∧ newestTime rs = ⟨some l⟩ := by
  have hsome := h a (List.mem_of_getLast? ha)
  rw [newestTime, ha]
  obtain ⟨l, hl⟩ := Option.isSome_iff_exists.mp hsome
  exact ⟨l, congrArg PravegaTimestamp.mk hl, congrArg PravegaTimestamp.mk hl⟩

/-- The `render` of one more buffer: its record, if it has one, is at least the smallest
interval behind the record before, and more than the largest at a delta unit. After it
the newest record, or the first valid timestamp while there is none, is not further behind
the buffer than the largest interval. No sum overflows. -/
theorem index_cadence {daysToSeconds : F → Int} {w₀ w w' : World} {E₀ : List Event}
    {R₀ : List Record} {baseTime : ClockTime} {buffer : Buffer} (h₀ : Whole .ordered w₀ E₀ R₀)
    (h : Session False checks daysToSeconds settings w₀ bs st w)
    (hrender : Outcome (arena .ordered) (render checks settings baseTime buffer (.started st)) w
      (.ok (), .started st') w')
    (hfit : SumsFit settings .none .none (bs ++ [(baseTime, buffer)])) :
    ∃ rs new : List Record,
      w.index.entries = w₀.index.entries ++ rs.map Record.frame ∧
      w'.index.entries = w.index.entries ++ new.map Record.frame ∧
      new.length ≤ 1 ∧
      (∀ a r, rs.getLast? = some a → r ∈ new →
        ∃ l t, a.timestamp = ⟨some l⟩ ∧ r.timestamp = ⟨some t⟩ ∧
          l.toNat + settings.indexMinNanos.toNat ≤ t.toNat ∧
          (buffer.flags.deltaUnit = true →
            l.toNat + settings.indexMaxNanos.toNat < t.toNat)) ∧
      ∀ t, timestampOf checks settings.timestampMode baseTime buffer.pts =
          some ⟨some t⟩ →
        ∃ n, (newestTime (rs ++ new)).or (firstTime (validTimes checks settings
            (bs ++ [(baseTime, buffer)]))) = ⟨some n⟩ ∧
          t.toNat ≤ n.toNat + settings.indexMaxNanos.toNat := by
  have hle := h.min_le_max
  obtain ⟨spawned, E, R, hrecorded, hview, hsteady⟩ := h.recorded h₀
  obtain ⟨rs, rfl, hpaced, hfit⟩ :=
    hrecorded.paced paced_new (fun _ ht => absurd ht List.not_mem_nil) hfit
  simp only [List.nil_append] at hpaced
  obtain ⟨-, timestamp, included, E', R', hdecided, hrendered, hview'⟩ :=
    (outcome_render hview hrender).resolve_right (by simp)
  obtain ⟨hfate, -⟩ := sumsFit_cons hfit
  obtain ⟨heq, -, -⟩ := fateOf_rendered hfate hdecided hrendered
  obtain ⟨new, rfl, hnew⟩ := hrendered.records
  have hpast : ∀ t ∈ validTimes checks settings bs, t.isSome = true :=
    fun t ht => isSome_of_mem_validTimes ht
  have hpaced' := hpaced.rendered hpast hdecided hrendered hnew
  have htimes : validTimes checks settings bs ++
      (if timestamp.isSome then [timestamp] else []) =
        validTimes checks settings (bs ++ [(baseTime, buffer)]) := by
    have hone : validTimes checks settings [(baseTime, buffer)] = _ :=
      validTimes_cons hdecided.time
    rw [show validTimes checks settings [] = [] from rfl, List.append_nil] at hone
    rw [← hone, validTimes, validTimes, validTimes, List.filterMap_append,
      List.filter_append]
  -- The decision, in the build that checks the sums.
  have hdecision := included_of_fateOf heq
  refine ⟨rs, new, ?_, ?_, ?_, ?_, ?_⟩
  · rw [hview.index, h₀.good.index, List.map_append]
  · rw [hview'.index, hview.index, List.map_append]
  · have hlen := congrArg List.length hnew
    rw [List.length_map, bufferRecords] at hlen
    rw [hlen]
    split
    · exact Nat.le_refl 1
    · exact Nat.zero_le 1
  · intro a r ha hr
    obtain ⟨rfl, hrec⟩ := of_mem_bufferRecords hnew hr
    obtain ⟨l, hal, hl⟩ := timed_of_newestTime hpaced.timed ha
    rw [hpaced.newest, hl] at hdecision
    obtain ⟨_ | t⟩ := timestamp
    · exact absurd rfl (hrendered.timed rfl)
    obtain ⟨hmin, hmax⟩ := spaced_of_included hle hdecision
    exact ⟨l, t, hal, by rw [hrec]; rfl, hmin, hmax⟩
  · intro t ht
    obtain rfl := Option.some.inj (hdecided.time.symm.trans ht)
    rw [← htimes, ← hpaced'.first, ← hpaced'.newest, hrendered.lastIndexTime,
      hrendered.firstValidTime]
    cases included with
    | true => exact ⟨t, rfl, Nat.le_add_right _ _⟩
    | false =>
        refine recent_of_not_included hle ?_ hdecision
        rw [Started.noteValidTime]
        dsimp only
        split
        · rfl
        · next hsome => simpa [PravegaTimestamp.isNone] using hsome

/-- A delta unit at twelve seconds. -/
def lateBuffer : Buffer :=
  ⟨ClockTime.store (some 12000000000), none, ⟨true, false, false, false⟩, [8], true, none, none⟩

def lateStarted : Started where
  writer := ⟨⟨128 * 1024, EventWithHeader.encode
    ⟨⟨⟨some 12000000000⟩, true, false, false⟩, [8]⟩⟩, 42⟩
  firstValidTime := ⟨some 1000000000⟩
  lastIndexTime := ⟨some 12000000000⟩
  finalTimestamp := ⟨some 12000000001⟩
  finalOffset := some 42
  buffersWritten := 2
  retentionThreadHandle := false

/-- Behind the key frame at one second. -/
def secondWorld : World := (cameraAdds secondBuffer cameraStarted cameraStart.2).2

theorem index_cadence_late :
    ∃ rs new : List Record,
      secondWorld.index.entries = [] ++ rs.map Record.frame ∧
      (cameraAdds lateBuffer secondStarted secondWorld).2.index.entries =
        secondWorld.index.entries ++ new.map Record.frame ∧
      new.length ≤ 1 ∧
      (∀ a r, rs.getLast? = some a → r ∈ new →
        ∃ l t, a.timestamp = ⟨some l⟩ ∧ r.timestamp = ⟨some t⟩ ∧
          l.toNat + 500000000 ≤ t.toNat ∧
          (true = true → l.toNat + 10000000000 < t.toNat)) ∧
      ∀ t, some ⟨some 12000000000⟩ = some (⟨some t⟩ : PravegaTimestamp) →
        ∃ n, (newestTime (rs ++ new)).or (firstTime (validTimes true cameraSettings
            [(none, secondBuffer), (none, lateBuffer)])) = ⟨some n⟩ ∧
          t.toNat ≤ n.toNat + 10000000000 := by
  have hsecond : (cameraAdds secondBuffer cameraStarted cameraStart.2).1 =
      (.ok (), .started secondStarted) := by decide +kernel
  have hlate : (cameraAdds lateBuffer secondStarted secondWorld).1 =
      (.ok (), .started lateStarted) := by decide +kernel
  exact index_cadence whole_empty (camera_session (camera_renders hsecond .nil))
    (camera_render hlate) (by decide +kernel)

end GstPravega.Plugin.PravegaSink
