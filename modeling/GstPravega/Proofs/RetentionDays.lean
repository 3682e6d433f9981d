import GstPravega.Plugin.Retention
import GstPravega.Proofs.IndexSearch

/-!
# Retention by age

What one pass deletes is settled by three steps: the retention period is
multiplied out in 128 bits, subtracted from the current time and cut to 64
bits, and the search finds the last record not after the result. While the
period is not longer than the time since the epoch the cut loses nothing, and
what lies before that record is old enough because the index partitions the
data. A longer period makes the difference negative, and cut to 64 bits that is
a time in the far future: the search then finds a late record, and what lies
before it is deleted.
-/

namespace GstPravega.Plugin

open GstPravega.Lib GstPravega.Client GstPravega.Video Program IndexSearcher
  RetentionMaintainer

/-- `now - period`, exactly. -/
def threshold (now : UInt64) (sec : Int) : Int := now.toNat - sec * 1000000000

/-- `now - period` as the pass computes it. -/
def wrappedThreshold (now : UInt64) (sec : Int) : PravegaTimestamp :=
  ⟨some (asU64 (threshold now sec))⟩

/-- The period does not fit 128 bits, and the build looks. -/
def PeriodPanics (checks : Bool) (sec : Int) : Prop :=
  checks = true ∧ 2 ^ 127 ≤ sec * 1000000000

/-- Strictly below `x` nanoseconds. No timestamp is below everything. -/
def EarlierThan (t : PravegaTimestamp) (x : Int) : Prop :=
  ∀ n, t.nanoseconds = some n → (n.toNat : Int) < x

/-- What the passes from `w` to `w'` deleted at or behind the first record is
older than the period, and nothing is when nothing there can be. -/
def DeletesOnlyOld (now : UInt64) (sec : Int) (recs : List Record)
    (evs : List Event) (w w' : Streams) : Prop :=
  ∀ r₀, recs[0]? = some r₀ → ∀ o e, StoredAt w.data evs o e → o < w'.data.head →
    r₀.offset ≤ o →
    EarlierThan e.header.timestamp (threshold now sec) ∧
      0 ≤ threshold now sec ∧ ¬ ∃ n, r₀.timestamp.nanoseconds = some n ∧
        threshold now sec < n.toNat

/-- The `i`-th record is the last one not after `t`. -/
def LastNotAfter (recs : List Record) (t : PravegaTimestamp) (i : Nat) : Prop :=
  i < recs.length ∧ timeAt recs i ≤ t ∧
    ∀ j < recs.length, timeAt recs j ≤ t → j ≤ i

/-! ## The arithmetic -/

theorem mul_second_panics {checks : Bool} {sec : Int}
    (h : PeriodPanics checks sec) : TimeDelta.mul checks sec SECOND = none := by
  obtain ⟨rfl, hbig⟩ := h
  show (i128 true (sec * 1000000000)).map _ = none
  rw [i128, if_neg (by omega)]
  rfl

/-- Where the product does not panic, the difference is the exact one, cut. -/
theorem sub_period {checks : Bool} {now : UInt64} {sec : Int} (hsec : 0 ≤ sec)
    (h : ¬ PeriodPanics checks sec) :
    ∃ period, TimeDelta.mul checks sec SECOND = some period ∧
      PravegaTimestamp.sub checks ⟨some now⟩ period =
        some (wrappedThreshold now sec) := by
  have hnow := now.toNat_lt
  have hmul : ∃ m, i128 checks (sec * 1000000000) = some m ∧
      (checks = true → 0 ≤ m) := by
    by_cases hfit : sec * 1000000000 < 2 ^ 127
    · exact ⟨_, by rw [i128, if_pos ⟨by omega, hfit⟩], fun _ => by omega⟩
    · have hchecks : ¬ checks = true := fun hc => h ⟨hc, by omega⟩
      exact ⟨_, by rw [i128, if_neg (by omega), if_neg hchecks],
        fun hc => absurd hc hchecks⟩
  obtain ⟨m, hm, hpos⟩ := hmul
  have hrange := i128_range hm
  refine ⟨⟨some m⟩, ?_, ?_⟩
  · show (i128 checks (sec * 1000000000)).map _ = _
    rw [hm]
    rfl
  have hsub : ∃ k, i128 checks (now.toNat - m) = some k := by
    by_cases hfit : (now.toNat : Int) - m < 2 ^ 127
    · exact ⟨_, by rw [i128, if_pos ⟨by omega, hfit⟩]⟩
    · have hchecks : ¬ checks = true := fun hc => by
        have := hpos hc
        omega
      exact ⟨_, by rw [i128, if_neg (by omega), if_neg hchecks]⟩
  obtain ⟨k, hk⟩ := hsub
  show (i128 checks (now.toNat - m)).map _ = _
  rw [hk]
  have hmod : k % 2 ^ 64 = threshold now sec % 2 ^ 64 := by
    rw [i128_emod hk, threshold, Int.sub_emod, i128_emod hm, ← Int.sub_emod]
  show some (⟨some (asU64 k)⟩ : PravegaTimestamp) = some (wrappedThreshold now sec)
  rw [wrappedThreshold, asU64_congr hmod]

/-! ## What a pass does -/

/-- What the streams are once a pass has truncated at the record `r`. -/
def truncatedAt (w : Streams) (r : Record) (offset : Nat) : Streams :=
  ⟨w.data.truncateDataBefore r.offset, w.index.truncateDataBefore offset⟩

theorem yields_truncateAt (w : Streams) {r : Record} {offset : Nat}
    (hr : r.offset < 2 ^ 63) (ho : offset < 2 ^ 63) :
    Yields Streams.answer (fun _ _ => True)
      (truncateAt (r.toIndexRecord, offset)).run w (.ok ()) (truncatedAt w r offset) := by
  rw [truncateAt, asI64_of_lt hr, asI64_of_lt ho]
  refine Yields.bindE (StreamM.yields_truncateDataBefore trivial) ?_
  refine Yields.bindE (StreamM.yields_pure ()) ?_
  refine Yields.bindE (StreamM.yields_truncateDataBefore trivial) ?_
  exact StreamM.yields_pure ()

section Pass

variable {w : Streams} {recs : List Record} {evs : List Event} {checks : Bool}
  {now : UInt64} {sec : Int}

theorem yields_pass_panics (h : PeriodPanics checks sec) :
    Yields Streams.answer (fun _ _ => True)
      (pass checks ⟨some now⟩ (some sec, none)).run w (.error .panicked) w := by
  refine Yields.bindE_error ?_
  refine Yields.bindE_error ?_
  rw [mul_second_panics h]
  exact StreamM.yields_throw _

/-- With no panic, a pass is a search and what follows from it. -/
theorem yields_pass_of_search {w' : Streams} (hsec : 0 ≤ sec)
    (h : ¬ PeriodPanics checks sec)
    (hgo : Yields Streams.answer (fun _ _ => True)
      (truncateIfFound (searchTimestampAndReturnIndexOffset checks .index
        (wrappedThreshold now sec) .before)).run w (.ok ()) w') :
    Yields Streams.answer (fun _ _ => True)
      (pass checks ⟨some now⟩ (some sec, none)).run w (.ok ()) w' := by
  obtain ⟨period, hmul, hsub⟩ := sub_period hsec h
  have hdays : Yields Streams.answer (fun _ _ => True)
      (passDays checks ⟨some now⟩ (some sec)).run w (.ok ()) w' := by
    refine Yields.bindE (StreamM.yields_checked hmul) ?_
    exact Yields.bindE (StreamM.yields_checked hsub) hgo
  exact Yields.bindE hdays (StreamM.yields_pure ())

theorem yields_pass_nil (hsec : 0 ≤ sec) (h : ¬ PeriodPanics checks sec)
    (hindex : Holds w.index []) :
    Yields Streams.answer (fun _ _ => True)
      (pass checks ⟨some now⟩ (some sec, none)).run w (.ok ()) w := by
  have hindex' : Holds (w.get .index) [] := hindex
  have hsearch := yields_searchTimestamp_nil hindex' checks
    (wrappedThreshold now sec) .before
  refine yields_pass_of_search hsec h ?_
  refine Yields.bindE (StreamM.yields_attempt_error (hsearch.mono ?_))
    (StreamM.yields_pure ())
  exact fun _ _ _ => trivial

/-- A pass over records truncates at the last one not after the cut difference,
or at the first. -/
theorem yields_pass_cons (hsec : 0 ≤ sec) (h : ¬ PeriodPanics checks sec)
    (hp : Partitions w recs evs) (hne : recs ≠ []) :
    ∃ i r, recs[i]? = some r ∧
      (LastNotAfter recs (wrappedThreshold now sec) i ∨
        (i = 0 ∧ wrappedThreshold now sec < timeAt recs 0)) ∧
      Yields Streams.answer (fun _ _ => True)
        (pass checks ⟨some now⟩ (some sec, none)).run w (.ok ())
        (truncatedAt w r (recordOffset w .index i)) := by
  have hindex : Holds (w.get .index) recs := hp.index
  obtain ⟨i, r, hr, hloc, hrun⟩ := yields_searchTimestamp hindex checks hne
    (wrappedThreshold now sec) .before
  have hbnd := hp.bounded r (List.mem_of_getElem? hr)
  have htail := w.data.tail_lt
  have hoff := recordOffset_le hindex hloc.lt_length
  have htail' := (w.get .index).tail_lt
  rw [ByteStream.tail] at hbnd hoff
  refine ⟨i, r, hr, ?_, yields_pass_of_search hsec h ?_⟩
  · obtain ⟨hbelow, habove⟩ := hloc.before hp.increasing
    rcases lt_or_ge (wrappedThreshold now sec) (timeAt recs 0) with hlt | hle
    · exact Or.inr ⟨hbelow hlt, hlt⟩
    · exact Or.inl ⟨hloc.lt_length, habove hle⟩
  · refine Yields.bindE (StreamM.yields_attempt_ok (hrun.mono fun _ _ _ => trivial)) ?_
    exact yields_truncateAt w (by omega) (by omega)

/-! ## When it is safe -/

theorem threshold_eq_of_le (h : sec * 1000000000 ≤ now.toNat) (hsec : 0 ≤ sec) :
    ((asU64 (threshold now sec)).toNat : Int) = threshold now sec := by
  have hnow := now.toNat_lt
  exact asU64_of_range (by rw [threshold]; omega) (by rw [threshold]; omega)

/-- What a truncation deletes is in front of the record it is at. -/
theorem lt_offsetAt_of_truncatedAt {i o offset : Nat} {r : Record} (hr : recs[i]? = some r)
    (hkept : w.data.head ≤ o) (ho : o < (truncatedAt w r offset).data.head) :
    o < offsetAt recs i := by
  have hhead : o < max w.data.head (r.offset : Int).toNat := ho
  rw [offsetAt_of_getElem? hr]
  omega

/-- Truncating at the last record not after the exact difference deletes only
what is older. -/
theorem deletesOnlyOld_of_le (hp : Partitions w recs evs)
    (h : sec * 1000000000 ≤ now.toNat) (hsec : 0 ≤ sec) {i : Nat} {r : Record}
    (hr : recs[i]? = some r)
    (hi : LastNotAfter recs (wrappedThreshold now sec) i ∨
      (i = 0 ∧ wrappedThreshold now sec < timeAt recs 0)) (offset : Nat) :
    DeletesOnlyOld now sec recs evs w (truncatedAt w r offset) := by
  have hexact := threshold_eq_of_le h hsec
  have hx : 0 ≤ threshold now sec := by
    rw [threshold]
    omega
  intro r₀ hr₀ o e he ho h0
  have hor := lt_offsetAt_of_truncatedAt hr he.2 ho
  rw [← offsetAt_of_getElem? hr₀] at h0
  obtain ⟨hilt, _⟩ := List.getElem?_eq_some_iff.mp hr
  obtain ⟨h1, h2⟩ := hp.timed (Nat.zero_le i) hilt he h0 hor
  rcases hi with ⟨_, hle, _⟩ | ⟨hzero, _⟩
  · refine ⟨fun n hn => ?_, hx, ?_⟩
    · have hlt := lt_of_lt_of_le h2 hle
      rw [PravegaTimestamp.lt_iff, PravegaTimestamp.key, hn, wrappedThreshold,
        PravegaTimestamp.key_some] at hlt
      dsimp only at hlt
      omega
    · rintro ⟨n, hn, hlt⟩
      rw [timeAt_of_getElem? hr₀] at h1
      have hle' := le_of_lt (lt_of_le_of_lt h1 (lt_of_lt_of_le h2 hle))
      rw [PravegaTimestamp.le_iff, PravegaTimestamp.key, hn, wrappedThreshold,
        PravegaTimestamp.key_some] at hle'
      dsimp only at hle'
      omega
  · rw [hzero] at hor
    omega

/-- One pass by age is safe exactly when the period reaches back to the epoch
at most, or the product panics, or nothing is stored between the first record
and the last one not after the wrapped difference. -/
theorem days_pass_safe_iff (checks : Bool) (now : UInt64) (sec : Int)
    (w : Streams) (recs : List Record) (evs : List Event) (hsec : 0 ≤ sec)
    (hp : Partitions w recs evs) :
    DeletesOnlyOld now sec recs evs w
        (run Streams.answer (pass checks ⟨some now⟩ (some sec, none)).run w).2 ↔
      sec * 1000000000 ≤ now.toNat ∨
        (checks = true ∧ 2 ^ 127 ≤ sec * 1000000000) ∨
        ∀ i, LastNotAfter recs ⟨some (asU64 (now.toNat - sec * 1000000000))⟩ i →
          ∀ o e, StoredAt w.data evs o e → offsetAt recs 0 ≤ o →
            ¬ o < offsetAt recs i := by
  by_cases hpanic : PeriodPanics checks sec
  · rw [(yields_pass_panics hpanic).1]
    refine ⟨fun _ => Or.inr (Or.inl hpanic), fun _ r₀ _ o e he ho => ?_⟩
    exact absurd he.2 (Nat.not_le.mpr ho)
  by_cases hne : recs = []
  · subst hne
    rw [(yields_pass_nil hsec hpanic hp.index).1]
    refine ⟨fun _ => Or.inr (Or.inr fun i hi => absurd hi.1 (Nat.not_lt_zero i)), ?_⟩
    exact fun _ r₀ hr₀ => nomatch hr₀
  obtain ⟨i, r, hr, hi, hrun⟩ := yields_pass_cons hsec hpanic hp hne
  rw [hrun.1]
  by_cases hle : sec * 1000000000 ≤ now.toNat
  · exact ⟨fun _ => Or.inl hle, fun _ => deletesOnlyOld_of_le hp hle hsec hr hi _⟩
  constructor
  · intro hsafe
    refine Or.inr (Or.inr fun j hj o e he h0 ho => ?_)
    have hpos := Nat.zero_lt_of_lt hj.1
    rcases hi with hi | ⟨_, hlt⟩
    · have hij : j = i := Nat.le_antisymm (hi.2.2 j hj.1 hj.2.1) (hj.2.2 i hi.1 hi.2.1)
      subst hij
      rw [offsetAt_of_getElem? hr] at ho
      rw [offsetAt_of_getElem? (List.getElem?_eq_getElem hpos)] at h0
      have hhead : o < (truncatedAt w r (recordOffset w .index j)).data.head :=
        Nat.lt_of_lt_of_le ho (Nat.le_max_right _ _)
      obtain ⟨_, hx, _⟩ := hsafe _ (List.getElem?_eq_getElem hpos) o e he hhead h0
      rw [threshold] at hx
      omega
    · have hle' := le_trans (hp.increasing.le (Nat.zero_le j) hj.1) hj.2.1
      exact absurd hle' (not_le.mpr hlt)
  · rintro (hc | hc | hnone)
    · exact absurd hc hle
    · exact absurd hc hpanic
    intro r₀ hr₀ o e he ho h0
    have hor := lt_offsetAt_of_truncatedAt hr he.2 ho
    rw [← offsetAt_of_getElem? hr₀] at h0
    rcases hi with hi | ⟨rfl, _⟩
    · exact absurd hor (hnone i hi o e he h0)
    · omega

end Pass

/-! ## A period longer than the time since the epoch -/

/-- One event with its index record, and the record that closed the recording. -/
def youngEvents : List Event :=
  [⟨⟨⟨⟨some 1000⟩, true, true, true⟩, [7]⟩, by decide, by decide⟩]

def youngRecords : List Record :=
  [⟨⟨⟨some 1000⟩, 0, true, true⟩, by decide, by decide⟩,
    ⟨⟨⟨some 2000⟩, 21, false, false⟩, by decide, by decide⟩]

def youngStreams : Streams :=
  ⟨⟨0, youngEvents.flatMap Event.frame, by decide⟩,
    ⟨0, youngRecords.flatMap Record.frame, by decide⟩⟩

theorem young_partitions : Partitions youngStreams youngRecords youngEvents where
  index := ⟨by decide, by decide, rfl⟩
  data := rfl
  increasing := by
    rw [Increasing]
    decide
  bounded := by decide
  between := between_of_layout (by decide +kernel)

/-- 36500 days from a time some fifty years after the epoch: the only event is
deleted, though nothing is that old. -/
theorem days_pass_deletes_young :
    Partitions youngStreams youngRecords youngEvents ∧
      ¬ DeletesOnlyOld 1600000000000000000 (36500 * 24 * 60 * 60) youngRecords
        youngEvents youngStreams
        (run Streams.answer (pass true ⟨some 1600000000000000000⟩
          (some (36500 * 24 * 60 * 60), none)).run youngStreams).2 := by
  refine ⟨young_partitions, fun hsafe => ?_⟩
  have hhead : 0 < (run Streams.answer (pass true ⟨some 1600000000000000000⟩
      (some (36500 * 24 * 60 * 60), none)).run youngStreams).2.data.head := by
    decide +kernel
  obtain ⟨_, hx, _⟩ := hsafe _ rfl 0 _ ⟨List.mem_cons_self, Nat.le_refl 0⟩ hhead
    (Nat.le_refl 0)
  exact absurd hx (by decide)

/-- Seven days from the same time: the condition holds, and so does the rest. -/
theorem days_pass_safe_iff_week :
    DeletesOnlyOld 1600000000000000000 (7 * 24 * 60 * 60) youngRecords youngEvents
      youngStreams (run Streams.answer (pass true ⟨some 1600000000000000000⟩
        (some (7 * 24 * 60 * 60), none)).run youngStreams).2 :=
  (days_pass_safe_iff true 1600000000000000000 (7 * 24 * 60 * 60) youngStreams
    youngRecords youngEvents (by decide) young_partitions).mpr (Or.inl (by decide))

end GstPravega.Plugin
