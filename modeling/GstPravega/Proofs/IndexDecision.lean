import GstPravega.Proofs.SinkSession

/-!
# The index decision on exact integers

`render` compares a timestamp with the sum of an earlier one and an interval, in 64 bits.
Where the sum fits, that is the comparison of the difference with the interval. Where it
does not, one build panics and the other compares with what is left of the sum: an interval
without end, which the properties allow, is the largest number there is, and then any sum
with it overflows.
-/

namespace GstPravega.Plugin.PravegaSink

open GstPravega.Lib GstPravega.Client GstPravega.Gst GstPravega.Video GstPravega.Lib.Program

variable {F : Type}

/-- The decision without bounds: a delta unit is indexed when it is further than the
largest interval behind the last record, or behind the first timestamp; a key frame when
it is not closer than the smallest to the last record. -/
def exactDecision (indexMinNanos indexMaxNanos : Nat)
    (firstValidTime lastIndexTime timestamp : Option Nat) (isDeltaUnit : Bool) : Bool :=
  match timestamp with
  | none => false
  | some t =>
      if isDeltaUnit then
        match lastIndexTime.or firstValidTime with
        | some base => decide ((indexMaxNanos : Int) < t - base)
        | none => false
      else
        match lastIndexTime with
        | some l => decide ((indexMinNanos : Int) ≤ t - l)
        | none => true

/-- The one sum that the decision takes fits. -/
def DecisionFits (indexMinNanos indexMaxNanos : Nat)
    (firstValidTime lastIndexTime timestamp : Option Nat) (isDeltaUnit : Bool) : Prop :=
  timestamp ≠ none →
    (isDeltaUnit = true → ∀ base, lastIndexTime.or firstValidTime = some base →
      base + indexMaxNanos < 2 ^ 64) ∧
    (isDeltaUnit = false → ∀ l, lastIndexTime = some l → l + indexMinNanos < 2 ^ 64)

def nanosOf (t : PravegaTimestamp) : Option Nat := t.nanoseconds.map UInt64.toNat

section Sum

variable {a b : UInt64} {p : UInt64 → Bool} {x : Bool}

/-- Both builds take the sum exactly when it fits. -/
theorem u64Add_map_iff (h : a.toNat + b.toNat < 2 ^ 64 → p (a + b) = x) :
    (∀ checks, (u64Add checks a b).map p = some x) ↔ a.toNat + b.toNat < 2 ^ 64 := by
  constructor
  · intro hall
    by_contra hge
    have htrue := hall true
    rw [u64Add, if_pos (by simpa using hge)] at htrue
    cases htrue
  · intro hlt checks
    rw [u64Add_of_lt hlt, Option.map_some, h hlt]

theorem eq_of_u64Add_map {y : Bool} (h : a.toNat + b.toNat < 2 ^ 64 → p (a + b) = y)
    (hx : (u64Add true a b).map p = some x) : y = x := by
  obtain ⟨c, hc, hp⟩ := Option.map_eq_some_iff.mp hx
  obtain ⟨hlt, rfl⟩ := u64Add_true hc
  rw [← h hlt, hp]

/-- Further behind than the interval. -/
theorem gt_sum_iff {t : UInt64} (h : a.toNat + b.toNat < 2 ^ 64) :
    decide (t > a + b) = decide ((b.toNat : Int) < t.toNat - a.toNat) := by
  rw [decide_eq_decide, gt_iff_lt, UInt64.lt_iff_toNat_lt, toNat_add_of_lt h]
  omega

/-- Not closer than the interval. -/
theorem not_lt_sum_iff {t : UInt64} (h : a.toNat + b.toNat < 2 ^ 64) :
    (!decide (t < a + b)) = decide ((b.toNat : Int) ≤ t.toNat - a.toNat) := by
  rw [← decide_not, decide_eq_decide, UInt64.lt_iff_toNat_lt, toNat_add_of_lt h]
  omega

end Sum

/-- A decision that is taken with checks is the exact one. -/
theorem exactDecision_eq {indexMinNanos indexMaxNanos : UInt64}
    {firstValidTime lastIndexTime timestamp : PravegaTimestamp} {isDeltaUnit x : Bool}
    (h : includeInIndex true indexMinNanos indexMaxNanos firstValidTime lastIndexTime
      timestamp isDeltaUnit = some x) :
    exactDecision indexMinNanos.toNat indexMaxNanos.toNat (nanosOf firstValidTime)
      (nanosOf lastIndexTime) (nanosOf timestamp) isDeltaUnit = x := by
  obtain ⟨_ | t⟩ := timestamp
  · exact Option.some.inj h
  obtain ⟨_ | l⟩ := lastIndexTime
  · cases isDeltaUnit with
    | false => exact Option.some.inj h
    | true =>
        obtain ⟨_ | f⟩ := firstValidTime
        · exact Option.some.inj h
        · exact eq_of_u64Add_map gt_sum_iff h
  · cases isDeltaUnit with
    | false => exact eq_of_u64Add_map not_lt_sum_iff h
    | true => exact eq_of_u64Add_map gt_sum_iff h

/-- In every state, the decision is the exact one in both builds if and only if its sum
fits. -/
theorem include_in_index_exact_iff (settings : Settings F) (st : Started)
    (timestamp : PravegaTimestamp) (isDeltaUnit : Bool) :
    (∀ checks, includeInIndex checks settings.indexMinNanos settings.indexMaxNanos
        (st.noteValidTime timestamp).firstValidTime st.lastIndexTime timestamp isDeltaUnit =
      some (exactDecision settings.indexMinNanos.toNat settings.indexMaxNanos.toNat
        (nanosOf (st.noteValidTime timestamp).firstValidTime) (nanosOf st.lastIndexTime)
        (nanosOf timestamp) isDeltaUnit)) ↔
      DecisionFits settings.indexMinNanos.toNat settings.indexMaxNanos.toNat
        (nanosOf (st.noteValidTime timestamp).firstValidTime) (nanosOf st.lastIndexTime)
        (nanosOf timestamp) isDeltaUnit := by
  generalize (st.noteValidTime timestamp).firstValidTime = first
  generalize st.lastIndexTime = last
  obtain ⟨_ | t⟩ := timestamp
  · -- Without a timestamp there is no sum.
    exact ⟨fun _ hsome => absurd rfl hsome, fun _ _ => rfl⟩
  cases isDeltaUnit with
  | true =>
      obtain ⟨_ | l⟩ := last
      · obtain ⟨_ | f⟩ := first
        · simp [includeInIndex, exactDecision, DecisionFits, nanosOf]
        · refine (u64Add_map_iff gt_sum_iff).trans ?_
          simp [DecisionFits, nanosOf]
      · refine (u64Add_map_iff gt_sum_iff).trans ?_
        simp [DecisionFits, nanosOf]
  | false =>
      obtain ⟨_ | l⟩ := last
      · simp [includeInIndex, exactDecision, DecisionFits, nanosOf]
      · refine (u64Add_map_iff not_lt_sum_iff).trans ?_
        simp [DecisionFits, nanosOf]

/-- Seconds as nanoseconds, saturating; none is without end. -/
def nanosOfSeconds : Option Nat → UInt64
  | some n => UInt64.ofNat (min (n * 1000000000) (2 ^ 64 - 1))
  | none => UInt64.ofNat (2 ^ 64 - 1)

/-- The camera with these two properties. -/
def intervalSettings (indexMinSec indexMaxSec : Option Nat) : Settings Unit :=
  (cameraSettings.setIndexMinSec nanosOfSeconds indexMinSec).setIndexMaxSec nanosOfSeconds
    indexMaxSec

/-- With no largest interval, the delta unit that comes first is to be left out. The sum of
its timestamp and the interval does not fit, and the instance panics. -/
theorem include_in_index_overflows :
    ¬ ∀ (indexMinSec indexMaxSec : Option Nat) (bs : List Input) (st : Started) (w : World)
      (timestamp : PravegaTimestamp) (isDeltaUnit : Bool),
      Session False true (fun _ => 0) (intervalSettings indexMinSec indexMaxSec)
        ⟨.empty, .empty, false⟩ bs st w →
      includeInIndex true (nanosOfSeconds indexMinSec) (nanosOfSeconds indexMaxSec)
          (st.noteValidTime timestamp).firstValidTime st.lastIndexTime timestamp isDeltaUnit =
        some (exactDecision (nanosOfSeconds indexMinSec).toNat
          (nanosOfSeconds indexMaxSec).toNat
          (nanosOf (st.noteValidTime timestamp).firstValidTime) (nanosOf st.lastIndexTime)
          (nanosOf timestamp) isDeltaUnit) := by
  intro hall
  have hstart : (run World.answer (start (fun _ => 0) (intervalSettings (some 0) none)
      .stopped) ⟨.empty, .empty, false⟩).1 = (.ok (), .started cameraStarted) := by
    decide +kernel
  have hrun := outcome_run (A := World.arena .ordered) World.answer_exec
    (start (fun _ => 0) (intervalSettings (some 0) none) .stopped) ⟨.empty, .empty, false⟩
  rw [hstart] at hrun
  have hdecision := hall (some 0) none [] cameraStarted _ ⟨some 1000000000⟩ true
    ⟨cameraStarted, _, hrun, .nil⟩
  exact absurd hdecision (by decide +kernel)

end GstPravega.Plugin.PravegaSink
