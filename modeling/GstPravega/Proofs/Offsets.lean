import GstPravega.Proofs.Unconvertible

/-!
# Offsets

In the two modes with a start time the first PTS of a run fixes by how much all later
times are moved, PTS and DTS alike. The sum is taken in 128 bits and then cut to 64, so
that it is the intended one as long as it is neither negative nor too large. `Exact` says
that nothing in a call was cut, and `InRange` what that takes.

In ntp mode there is no offset, and the DTS stays where it was.
-/

namespace GstPravega.Plugin.TimestampCvt

open GstPravega.Lib GstPravega.Gst GstPravega.Video

open FragMp4Pay (PayBuffer)

open PravegaSrc (pravegaToClocktime)

/-- The modes with a start time. -/
def Settings.HasStart (settings : Settings) : Prop :=
  settings.inputTimestampMode = .startAtCurrentTime ∨
    settings.inputTimestampMode = .startAtFixedTime

/-- The start time of a run whose first PTS comes when the clock shows `systemTime`. -/
def Settings.start (checks : Bool) (settings : Settings) (systemTime : Int) :
    Option UInt64 :=
  match settings.inputTimestampMode with
  | .startAtCurrentTime =>
      (PravegaTimestamp.now checks systemTime).bind fun t => t.nanoseconds
  | .startAtFixedTime => some settings.startTimestamp
  | _ => none

/-- The start time less the first PTS. -/
def startOffset (checks : Bool) (settings : Settings) : List Input → Option Int
  | [] => none
  | input :: inputs =>
      match input.buffer.pts with
      | some n =>
          (settings.start checks input.systemTime).map fun t => (t.toNat : Int) - n.toNat
      | none => startOffset checks settings inputs

section Run

variable {checks : Bool} {settings : Settings} {st st' : StartedState} {input : Input}

theorem correctedInputPts_start (hmode : settings.HasStart) (systemTime : Int) (n : UInt64)
    (off : Option Int) : correctedInputPts checks settings systemTime n off =
      startAt (settings.start checks systemTime) n off := by
  rw [correctedInputPts, Settings.start]
  rcases hmode with h | h
  · rw [h]
  · rw [h]

theorem startAt_eq_some {start : Option UInt64} {n : UInt64} {o o' : Option Int}
    {c : ClockTime} (h : startAt start n o = some (c, o')) :
    ∃ off, o.or (start.map fun t => (t.toNat : Int) - n.toNat) = some off ∧
      c = some (asU64 (n.toNat + off)) ∧ o' = some off := by
  obtain ⟨off, hoff, h⟩ := Option.map_eq_some_iff.mp h
  cases h
  exact ⟨off, hoff, rfl, rfl⟩

theorem hasStart_ne_ntp (hmode : settings.HasStart) :
    settings.inputTimestampMode ≠ .ntp := by
  rcases hmode with h | h
  · rw [h]
    decide
  · rw [h]
    decide

/-- What a call leaves of the offset. -/
theorem chain_offset (helem : Element.Consistent (some st))
    (h : (chain checks settings input (some st)).2 = some st') :
    (input.buffer.pts = none ∧ st'.ptsOffsetNanos = st.ptsOffsetNanos) ∨
    ∃ n c, input.buffer.pts = some n ∧
      correctedInputPts checks settings input.systemTime n st.ptsOffsetNanos =
        some (c, st'.ptsOffsetNanos) := by
  obtain ⟨hpanic, _⟩ | ⟨_, answer, _, ⟨⟩, hchain, hcalled⟩ :=
    chain_called checks settings input helem
  · rw [hpanic] at h
    cases h
  · rw [hchain] at h
    cases h
    cases hcalled with
    | untimed hpts => exact Or.inl ⟨hpts, rfl⟩
    | unconverted hpts hc _ _ _ => exact Or.inr ⟨_, _, hpts, hc⟩
    | refused hpts hc _ _ _ => exact Or.inr ⟨_, _, hpts, hc⟩
    | pushed hpts hc _ _ => exact Or.inr ⟨_, _, hpts, hc⟩

theorem after_none (inputs : List Input) :
    Calls.after (chain checks settings) inputs none = none := by
  induction inputs with
  | nil => rfl
  | cons input inputs ih => exact ih

/-- The first call of a run at whose end there is a state. -/
theorem after_cons_some {inputs : List Input} (hst : Element.Consistent (some st))
    (hafter : Calls.after (chain checks settings) (input :: inputs) (some st) = some st') :
    ∃ st₁, (chain checks settings input (some st)).2 = some st₁ ∧
      Element.Consistent (some st₁) ∧
      Calls.after (chain checks settings) inputs (some st₁) = some st' := by
  rw [Calls.after_cons] at hafter
  have hst' : Element.Consistent (chain checks settings input (some st)).2 :=
    chain_consistent input _ hst
  cases hnext : (chain checks settings input (some st)).2 with
  | none =>
      rw [hnext, after_none] at hafter
      cases hafter
  | some st₁ =>
      rw [hnext] at hafter hst'
      exact ⟨st₁, rfl, hst', hafter⟩

/-- What each conversion keeps of the offset, a run keeps. The induction is on the calls. -/
theorem offset_invariant {P : Option Int → Prop}
    (hkeep : ∀ {systemTime n off c off'}, P off →
      correctedInputPts checks settings systemTime n off = some (c, off') → P off')
    (inputs : List Input) : ∀ {st : StartedState}, Element.Consistent (some st) →
      P st.ptsOffsetNanos →
      Calls.after (chain checks settings) inputs (some st) = some st' →
      P st'.ptsOffsetNanos := by
  induction inputs with
  | nil =>
      rintro st _ hoff ⟨⟩
      exact hoff
  | cons input inputs ih =>
      intro st hst hoff hafter
      obtain ⟨st₁, hnext, hst', hrest⟩ := after_cons_some hst hafter
      refine ih hst' ?_ hrest
      obtain ⟨_, hsame⟩ | ⟨n, c, _, hc⟩ := chain_offset hst hnext
      · rw [hsame]
        exact hoff
      · exact hkeep hoff hc

/-- An offset once set stays. -/
theorem offset_kept (hmode : settings.HasStart) (inputs : List Input) {off : Int}
    (hst : Element.Consistent (some st)) (hoff : st.ptsOffsetNanos = some off)
    (hafter : Calls.after (chain checks settings) inputs (some st) = some st') :
    st'.ptsOffsetNanos = some off := by
  refine offset_invariant (P := fun o => o = some off) ?_ inputs hst hoff hafter
  rintro systemTime n _ c off' rfl hc
  rw [correctedInputPts_start hmode] at hc
  obtain ⟨_, hsame, _, hoff'⟩ := startAt_eq_some hc
  cases hsame
  exact hoff'

/-- The offset of a run, and what comes after the run does to it. The induction is on the
calls before the first PTS. -/
theorem offset_after (hmode : settings.HasStart) (before : List Input) :
    ∀ {st : StartedState}, Element.Consistent (some st) → st.ptsOffsetNanos = none →
      Calls.after (chain checks settings) before (some st) = some st' →
      (st'.ptsOffsetNanos = none ∧ ∀ rest,
        startOffset checks settings (before ++ rest) = startOffset checks settings rest) ∨
      ∃ off, st'.ptsOffsetNanos = some off ∧ ∀ rest,
        startOffset checks settings (before ++ rest) = some off := by
  induction before with
  | nil =>
      rintro st _ hoff ⟨⟩
      exact Or.inl ⟨hoff, fun _ => rfl⟩
  | cons input before ih =>
      intro st hst hoff hafter
      obtain ⟨st₁, hnext, hst', hrest⟩ := after_cons_some hst hafter
      obtain ⟨hpts, hsame⟩ | ⟨n, c, hpts, hc⟩ := chain_offset hst hnext
      · have hcons : ∀ rest, startOffset checks settings (input :: before ++ rest) =
            startOffset checks settings (before ++ rest) := by
          intro rest
          rw [List.cons_append, startOffset, hpts]
        simp only [hcons]
        exact ih hst' (hsame.trans hoff) hrest
      · rw [correctedInputPts_start hmode, hoff] at hc
        obtain ⟨off, hstart, _, hoff'⟩ := startAt_eq_some hc
        refine Or.inr ⟨off, offset_kept hmode before hst' hoff' hrest, fun rest => ?_⟩
        rw [List.cons_append, startOffset, hpts]
        exact hstart

/-- The sum that a call makes, by the offset of the whole run. -/
theorem correctedInputPts_run (hmode : settings.HasStart) {before rest : List Input}
    {off : Int} {n : UInt64}
    (hafter : Calls.after (chain checks settings) before Element.new = some st)
    (hoff : startOffset checks settings (before ++ input :: rest) = some off)
    (hpts : input.buffer.pts = some n) :
    correctedInputPts checks settings input.systemTime n st.ptsOffsetNanos =
      some (some (asU64 (n.toNat + off)), some off) := by
  rw [correctedInputPts_start hmode]
  obtain ⟨hnone, hfirst⟩ | ⟨o, hsome, hall⟩ := offset_after hmode before consistent_new rfl hafter
  · rw [hfirst, startOffset, hpts] at hoff
    rw [hnone, startAt, Option.none_or]
    exact congrArg (Option.map _) hoff
  · rw [hall] at hoff
    cases hoff
    rw [hsome]
    rfl

/-- The offset that a call uses is that of the run. -/
theorem startOffset_run (hmode : settings.HasStart) {before rest : List Input} {off : Int}
    {n : UInt64}
    (hafter : Calls.after (chain checks settings) before Element.new = some st)
    (hpts : input.buffer.pts = some n)
    (hoff : st.ptsOffsetNanos.or
      ((settings.start checks input.systemTime).map fun t => (t.toNat : Int) - n.toNat) =
        some off) :
    startOffset checks settings (before ++ input :: rest) = some off := by
  obtain ⟨hunset, hfirst⟩ | ⟨o, hset, hall⟩ := offset_after hmode before consistent_new rfl hafter
  · rw [hunset, Option.none_or] at hoff
    rw [hfirst, startOffset, hpts]
    exact hoff
  · rw [hset] at hoff
    rw [hall]
    exact hoff

/-- A run without an offset pushes nothing: no buffer has a PTS, or the start time cannot
be had. -/
theorem pushes_of_no_offset (hmode : settings.HasStart) (inputs : List Input)
    (h : startOffset checks settings inputs = none) : pushes checks settings inputs = [] := by
  refine List.filterMap_eq_nil_iff.mpr fun x hx => ?_
  obtain ⟨before, rest, rfl, hanswer⟩ := Calls.exists_of_mem_answered hx
  rw [hanswer, Option.map_eq_none_iff]
  obtain ⟨hpanic, _⟩ | ⟨st, answer, st', hst, hchain, hcalled⟩ :=
    chain_called checks settings x.1 (consistent_after before)
  · rw [hpanic]
    rfl
  · rw [hchain]
    obtain ⟨hnone, _⟩ | ⟨n, c, off, p, hpts, hc, _⟩ := hcalled.push
    · exact hnone
    · rw [correctedInputPts_start hmode] at hc
      obtain ⟨off, hoff, _⟩ := startAt_eq_some hc
      cases (startOffset_run hmode hst hpts hoff).symm.trans h

/-! ## PTS and DTS -/

theorem correctedInputPts_offset (hmode : ¬ settings.HasStart) {systemTime : Int}
    {n : UInt64} {off off' : Option Int} {c : ClockTime}
    (h : correctedInputPts checks settings systemTime n off = some (c, off')) :
    off' = off := by
  rw [correctedInputPts] at h
  split at h
  · cases h
    rfl
  · obtain ⟨_, _, h⟩ := Option.map_eq_some_iff.mp h
    cases h
    rfl
  · next h' => exact absurd (Or.inl h') hmode
  · next h' => exact absurd (Or.inr h') hmode

/-- Without a start time there is no offset. -/
theorem offset_none (hmode : ¬ settings.HasStart) (inputs : List Input)
    (hafter : Calls.after (chain checks settings) inputs Element.new = some st) :
    st.ptsOffsetNanos = none := by
  refine offset_invariant (P := fun o => o = none) ?_ inputs consistent_new rfl hafter
  rintro systemTime n _ c off' rfl hc
  exact correctedInputPts_offset hmode hc

theorem startOffset_none (hmode : ¬ settings.HasStart) (inputs : List Input) :
    startOffset checks settings inputs = none := by
  have hstart : ∀ systemTime, settings.start checks systemTime = none := by
    intro systemTime
    rw [Settings.start]
    split
    · next h => exact absurd (Or.inl h) hmode
    · next h => exact absurd (Or.inr h) hmode
    · rfl
  induction inputs with
  | nil => rfl
  | cons input inputs ih =>
      rw [startOffset]
      split
      · rw [hstart]
        rfl
      · exact ih

/-- Two sums that are cut keep their distance if as much is cut off both. -/
theorem asU64_sub_iff (a b : Int) :
    ((asU64 a).toNat : Int) - (asU64 b).toNat = a - b ↔ a / 2 ^ 64 = b / 2 ^ 64 := by
  have ha := asU64_toNat a
  have hb := asU64_toNat b
  omega

/-- A buffer that is pushed with its converted PTS. -/
theorem chain_plain {out : PayBuffer} {n : UInt64} (hst : Element.Consistent (some st))
    (hpts : input.buffer.pts = some n)
    (hpush : (chain checks settings input (some st)).1 = .pushed out)
    (hplain : ∃ c, converted checks settings input st = some c ∧
      out.pts = ClockTime.stored (some c)) :
    ∃ p off, correctedInputPts checks settings input.systemTime n st.ptsOffsetNanos =
      some (some p, off) ∧ out = outputBuffer input.buffer ⟨some p⟩ off := by
  obtain ⟨hpanic, _⟩ | ⟨_, answer, st', ⟨⟩, hchain, hcalled⟩ :=
    chain_called checks settings input hst
  · rw [hpanic] at hpush
    cases hpush
  · rw [hchain] at hpush
    obtain rfl : answer = .pushed out := hpush
    obtain ⟨hnone, _⟩ | ⟨n', c, off, p, hpts', hc, _, _, hout, _⟩ := hcalled.push
    · cases hnone
    · cases hout
      cases hpts.symm.trans hpts'
      obtain ⟨c', hc', hplain⟩ := hplain
      rw [converted_eq hpts hc] at hc'
      cases ClockTime.stored_some_inj.mp hplain
      exact ⟨p, off, hc' ▸ hc, rfl⟩

/-- The distance between the two times of a buffer. -/
theorem outputBuffer_distance {buffer : PayBuffer} {p e : UInt64} {off : Option Int}
    {k : Int} (he : (outputBuffer buffer ⟨some p⟩ off).dts = ClockTime.stored (some e)) :
    (∃ p' e', (outputBuffer buffer ⟨some p⟩ off).pts = some p' ∧
      (outputBuffer buffer ⟨some p⟩ off).dts = some e' ∧ (p'.toNat : Int) - e'.toNat = k) ↔
    (p.toNat : Int) - e.toNat = k ∧ p ≠ GST_CLOCK_TIME_NONE ∧ e ≠ GST_CLOCK_TIME_NONE := by
  constructor
  · rintro ⟨p', e', hp', he', h⟩
    obtain ⟨hp, hpne⟩ := ClockTime.stored_eq_some_iff.mp (outputBuffer_pts.symm.trans hp')
    obtain ⟨he, hene⟩ := ClockTime.stored_eq_some_iff.mp (he.symm.trans he')
    cases hp
    cases he
    exact ⟨h, hpne, hene⟩
  · rintro ⟨h, hpne, hene⟩
    exact ⟨p, e, outputBuffer_pts_of_ne hpne,
      he.trans (ClockTime.stored_eq_some_iff.mpr ⟨rfl, hene⟩), h⟩

theorem outputBuffer_dts_none {buffer : PayBuffer} {t : PravegaTimestamp} :
    (outputBuffer buffer t none).dts = buffer.dts := by
  obtain ⟨buffer, dts, hdts⟩ := buffer
  cases dts <;> rfl

theorem outputBuffer_dts_some {buffer : PayBuffer} {t : PravegaTimestamp} {off : Int} :
    (outputBuffer buffer t (some off)).dts =
      ClockTime.stored (buffer.dts.map fun d => asU64 (d.toNat + off)) := by
  obtain ⟨buffer, dts, hdts⟩ := buffer
  cases dts <;> rfl

/-- The number that stands for none is what a sum is cut to that is one below a multiple. -/
theorem asU64_eq_none_iff (a : Int) :
    asU64 a = GST_CLOCK_TIME_NONE ↔ a % 2 ^ 64 = 2 ^ 64 - 1 := by
  have h := asU64_toNat a
  have hnone : GST_CLOCK_TIME_NONE.toNat = 2 ^ 64 - 1 := rfl
  rw [← UInt64.toNat_inj]
  omega

/-- With a start time the sums for PTS and DTS decide. -/
theorem aligned_of_start {before : List Input} {n d p : UInt64} {off : Option Int}
    (hmode : settings.HasStart)
    (hafter : Calls.after (chain checks settings) before Element.new = some st)
    (hpts : input.buffer.pts = some n) (hdts : input.buffer.dts = some d)
    (hc : correctedInputPts checks settings input.systemTime n st.ptsOffsetNanos =
      some (some p, off)) :
    (∃ p' e, (outputBuffer input.buffer ⟨some p⟩ off).pts = some p' ∧
      (outputBuffer input.buffer ⟨some p⟩ off).dts = some e ∧
      (p'.toNat : Int) - e.toNat = n.toNat - d.toNat) ↔
    ∃ off, startOffset checks settings (before ++ [input]) = some off ∧
      (n.toNat + off) / 2 ^ 64 = (d.toNat + off) / 2 ^ 64 ∧
      (n.toNat + off) % 2 ^ 64 ≠ 2 ^ 64 - 1 ∧ (d.toNat + off) % 2 ^ 64 ≠ 2 ^ 64 - 1 := by
  rw [correctedInputPts_start hmode] at hc
  obtain ⟨o, ho, hp, rfl⟩ := startAt_eq_some hc
  cases hp
  rw [outputBuffer_distance (by rw [outputBuffer_dts_some, hdts]; rfl),
    startOffset_run hmode hafter hpts ho]
  have hiff := asU64_sub_iff (n.toNat + o) (d.toNat + o)
  rw [add_sub_add_right_eq_sub] at hiff
  rw [hiff, ne_eq, ne_eq, asU64_eq_none_iff, asU64_eq_none_iff]
  constructor
  · exact fun h => ⟨o, rfl, h⟩
  · rintro ⟨_, ⟨⟩, h⟩
    exact h

/-- Without one the DTS is left, so that the PTS has to be too. -/
theorem aligned_of_no_start {before : List Input} {n d p : UInt64} {off : Option Int}
    (hmode : ¬ settings.HasStart)
    (hafter : Calls.after (chain checks settings) before Element.new = some st)
    (hpts : input.buffer.pts = some n) (hdts : input.buffer.dts = some d)
    (hc : correctedInputPts checks settings input.systemTime n st.ptsOffsetNanos =
      some (some p, off)) :
    (∃ p' e, (outputBuffer input.buffer ⟨some p⟩ off).pts = some p' ∧
      (outputBuffer input.buffer ⟨some p⟩ off).dts = some e ∧
      (p'.toNat : Int) - e.toNat = n.toNat - d.toNat) ↔
    settings.inputTimestampMode = .tai := by
  have hunset : off = none := by
    rw [correctedInputPts_offset hmode hc, offset_none hmode before hafter]
  have hdne : d ≠ GST_CLOCK_TIME_NONE := by
    rintro rfl
    exact input.buffer.storedDts.storable hdts
  rw [hunset, outputBuffer_distance (outputBuffer_dts_none.trans (hdts.trans
    (ClockTime.stored_eq_some_iff.mpr ⟨rfl, hdne⟩).symm))]
  constructor
  · rintro ⟨hp, _⟩
    cases htai : settings.inputTimestampMode with
    | tai => rfl
    | startAtCurrentTime => exact absurd (Or.inl htai) hmode
    | startAtFixedTime => exact absurd (Or.inr htai) hmode
    | ntp =>
        obtain ⟨c, hc', _, hmoved⟩ := correctedInputPts_ntp checks htai input.systemTime n
          st.ptsOffsetNanos
        cases hc'.symm.trans hc
        exact absurd (by omega) (hmoved p rfl)
  · intro htai
    cases (correctedInputPts_tai htai _ _ _).symm.trans hc
    refine ⟨rfl, ?_, hdne⟩
    rintro rfl
    exact input.buffer.pts_ne hpts

theorem ne_tai_of_hasStart (h : settings.HasStart) : settings.inputTimestampMode ≠ .tai := by
  intro htai
  rcases h with h | h
  · rw [h] at htai
    cases htai
  · rw [h] at htai
    cases htai

/-- **Where PTS and DTS stay aligned.** A buffer that is pushed with its converted PTS is
pushed with the distance between PTS and DTS it came with if and only if the mode is tai,
or there is a start time and the sums for PTS and DTS are cut by the same amount, neither of
them to the number that stands for none. -/
theorem pts_dts_aligned_iff (checks : Bool) (settings : Settings) (before : List Input)
    (input : Input) (st : StartedState) (out : PayBuffer) (n d : UInt64)
    (hafter : Calls.after (chain checks settings) before Element.new = some st)
    (hpts : input.buffer.pts = some n) (hdts : input.buffer.dts = some d)
    (hpush : (chain checks settings input (some st)).1 = .pushed out)
    (hplain : ∃ c, converted checks settings input st = some c ∧
      out.pts = ClockTime.stored (some c)) :
    (∃ p e, out.pts = some p ∧ out.dts = some e ∧
      (p.toNat : Int) - e.toNat = n.toNat - d.toNat) ↔
    settings.inputTimestampMode = .tai ∨
      ∃ off, startOffset checks settings (before ++ [input]) = some off ∧
        (n.toNat + off) / 2 ^ 64 = (d.toNat + off) / 2 ^ 64 ∧
        (n.toNat + off) % 2 ^ 64 ≠ 2 ^ 64 - 1 ∧ (d.toNat + off) % 2 ^ 64 ≠ 2 ^ 64 - 1 := by
  have hst : Element.Consistent (some st) := by
    rw [← hafter]
    exact consistent_after before
  obtain ⟨p, off, hc, rfl⟩ := chain_plain hst hpts hpush hplain
  by_cases hmode : settings.HasStart
  · rw [aligned_of_start hmode hafter hpts hdts hc]
    exact (or_iff_right (ne_tai_of_hasStart hmode)).symm
  · rw [aligned_of_no_start hmode hafter hpts hdts hc, startOffset_none hmode]
    refine (or_iff_left ?_).symm
    rintro ⟨_, ⟨⟩, _⟩

/-! ## What is cut -/

/-- Nothing in the call is cut. The converted PTS is the input PTS moved by the offset.
The buffer is pushed with this PTS, with the last one, or with the last one and the
correction, and its DTS is moved by the offset too. -/
def Exact (checks : Bool) (settings : Settings) (off : Int) (input : Input)
    (elem : Element) : Prop :=
  ∀ st n, elem = some st → input.buffer.pts = some n →
    ∃ m out p, converted checks settings input st = some m ∧
      (m.toNat : Int) = n.toNat + off ∧
      (chain checks settings input elem).1 = .pushed out ∧ out.pts = some p ∧
      (p = m ∨ ∃ q, st.prevOutputPts = ⟨some q⟩ ∧
        (p = q ∨ p.toNat = q.toNat + 15000000)) ∧
      ∀ d, input.buffer.dts = some d →
        ∃ e, out.dts = some e ∧ (e.toNat : Int) = d.toNat + off

/-- The sums can be stored, and so can the correction if the PTS is a new one and not above
the last output. -/
def InRange (off : Int) (input : Input) (elem : Element) : Prop :=
  ∀ st n, elem = some st → input.buffer.pts = some n →
    (0 ≤ n.toNat + off ∧ n.toNat + off < 2 ^ 64 - 1) ∧
    (∀ d, input.buffer.dts = some d → 0 ≤ d.toNat + off ∧ d.toNat + off < 2 ^ 64 - 1) ∧
    ∀ m q, st.prevInputPts = some m → st.prevOutputPts = ⟨some q⟩ →
      (m.toNat : Int) ≠ n.toNat + off → n.toNat + off ≤ q.toNat →
      q.toNat + 15000000 < 2 ^ 64 - 1

/-- The sum that the call makes is known. -/
def Moved (checks : Bool) (settings : Settings) (off : Int) (input : Input)
    (elem : Element) : Prop :=
  ∀ st n, elem = some st → input.buffer.pts = some n →
    correctedInputPts checks settings input.systemTime n st.ptsOffsetNanos =
      some (some (asU64 (n.toNat + off)), some off)

theorem asU64_eq_iff {n : Int} :
    ((asU64 n).toNat : Int) = n ∧ asU64 n ≠ GST_CLOCK_TIME_NONE ↔ 0 ≤ n ∧ n < 2 ^ 64 - 1 := by
  have h := asU64_toNat n
  rw [ne_eq, asU64_eq_none_iff]
  omega

/-- A converted PTS is above the last output, is the last input, or asks for a
correction. -/
theorem Outputs.of_moved {c p q : UInt64} (h : Outputs st (some c) p)
    (hpaired : st.prevInputPts = none → st.prevOutputPts = ⟨none⟩)
    (hq : st.prevOutputPts = ⟨some q⟩) :
    (st.prevInputPts = some c ∧ p = q) ∨ (q < p ∧ p = c) ∨
    (∃ m, st.prevInputPts = some m ∧ m ≠ c ∧ c ≤ q ∧ p = asU64 (q.toNat + 15000000)) := by
  cases h with
  | first hin _ => cases (hpaired hin).symm.trans hq
  | repeated _ hc hout =>
      cases hq.symm.trans hout
      exact Or.inl ⟨hc, rfl⟩
  | increased _ _ hc hlt =>
      rw [hq, lt_some_iff] at hlt
      exact Or.inr (Or.inl ⟨hlt, (Option.some_inj.mp hc).symm⟩)
  | corrected hin hne hout hle hp =>
      cases hq.symm.trans hout
      obtain ⟨m, hm⟩ := Option.isSome_iff_exists.mp hin
      rw [← not_lt, lt_some_iff, UInt64.not_lt] at hle
      exact Or.inr (Or.inr ⟨m, hm, fun heq => hne (heq ▸ hm), hle, hp⟩)

theorem Outputs.of_no_output {c p : UInt64} (h : Outputs st (some c) p)
    (hout : st.prevOutputPts = ⟨none⟩) : p = c := by
  cases h with
  | first _ hc => exact (Option.some_inj.mp hc).symm
  | repeated _ _ hp => cases hout.symm.trans hp
  | increased _ _ hc _ => exact (Option.some_inj.mp hc).symm
  | corrected _ _ hq _ _ => cases hout.symm.trans hq

/-- What is kept by the calls in which nothing is cut. -/
def Element.Kept (elem : Element) : Prop := elem.Paired ∧ elem.Storable

/-- Where nothing is cut, everything is in range: each case of the output tells why. -/
theorem Exact.inRange {off : Int} {elem : Element} (helem : elem.Kept)
    (hmoved : Moved checks settings off input elem)
    (h : Exact checks settings off input elem) : InRange off input elem := by
  obtain ⟨hpaired, hstorable⟩ := helem
  rintro st n rfl hpts
  obtain ⟨m, out, p, hm, hsum, hpush, hp, _, hdts⟩ := h st n rfl hpts
  have hc := hmoved st n rfl hpts
  cases (converted_eq hpts hc).symm.trans hm
  obtain ⟨p', hp', ⟨hrefused, _⟩ | ⟨hcall, hle⟩⟩ := chain_of_converted hpaired.1 hpts hc
  · cases hrefused.symm.trans hpush
  cases (congrArg Prod.fst hcall).symm.trans hpush
  obtain ⟨hpp, hne⟩ := ClockTime.stored_eq_some_iff.mp (outputBuffer_pts.symm.trans hp)
  cases hpp
  obtain ⟨hcne, _⟩ := (hp'.ne_none_iff (hstorable.2 st rfl)).mp hne
  refine ⟨asU64_eq_iff.mp ⟨hsum, mt (congrArg some) hcne⟩, fun d hd => ?_,
    fun m q hin hq hne hnq => ?_⟩
  · obtain ⟨e, he, hsum'⟩ := hdts d hd
    rw [outputBuffer_dts_some, hd] at he
    obtain ⟨hee, hene⟩ := ClockTime.stored_eq_some_iff.mp he
    cases hee
    exact asU64_eq_iff.mp ⟨hsum', hene⟩
  · obtain ⟨hsame, _⟩ | ⟨hlt, rfl⟩ | ⟨_, _, _, _, rfl⟩ := hp'.of_moved (hpaired.2 st rfl) hq
    · cases hin.symm.trans hsame
      exact absurd hsum hne
    · rw [UInt64.lt_iff_toNat_lt] at hlt
      omega
    · have hfits := mt correction_lt_iff.mpr (UInt64.not_lt.mpr (hle q hq))
      rw [ne_eq, correction_eq_none_iff] at hne
      omega

/-- And where everything is in range, no sum is cut and no buffer is refused. -/
theorem InRange.exact {off : Int} {elem : Element} (helem : elem.Kept)
    (hmoved : Moved checks settings off input elem)
    (h : InRange off input elem) : Exact checks settings off input elem := by
  obtain ⟨hpaired, hstorable⟩ := helem
  rintro st n rfl hpts
  obtain ⟨hsum, hdts, hfits⟩ := h st n rfl hpts
  have hc := hmoved st n rfl hpts
  obtain ⟨hm, hcne⟩ := asU64_eq_iff.mpr hsum
  obtain ⟨p, hp, hcall⟩ := chain_of_converted hpaired.1 hpts hc
  have hdue : ∀ m q, st.prevInputPts = some m → m ≠ asU64 (n.toNat + off) →
      st.prevOutputPts = ⟨some q⟩ → asU64 (n.toNat + off) ≤ q →
      q.toNat + 15000000 < 2 ^ 64 - 1 := by
    intro m q hin hne hq hle
    refine hfits m q hin hq ?_ ?_
    · rw [← hm]
      exact fun heq => hne (UInt64.toNat_inj.mp (Int.ofNat_inj.mp heq))
    · rw [UInt64.le_iff_toNat_le] at hle
      omega
  have hpne : p ≠ GST_CLOCK_TIME_NONE := by
    refine (hp.ne_none_iff (hstorable.2 st rfl)).mpr ⟨?_, fun q hin hne hq hle => ?_⟩
    · exact fun hsome => hcne (Option.some_inj.mp hsome)
    · obtain ⟨m, hm⟩ := Option.ne_none_iff_exists'.mp hin
      rw [← not_lt, lt_some_iff, UInt64.not_lt] at hle
      exact Nat.ne_of_lt (hdue m q hm (fun heq => hne (heq ▸ hm)) hq hle)
  have hcorrected : ∀ q, st.prevOutputPts = ⟨some q⟩ →
      (p = asU64 (n.toNat + off) ∧ q < p) ∨ p = q ∨ p.toNat = q.toNat + 15000000 := by
    intro q hq
    obtain ⟨_, rfl⟩ | ⟨hlt, rfl⟩ | ⟨m, hin, hne, hle, rfl⟩ :=
      hp.of_moved (hpaired.2 st rfl) hq
    · exact Or.inr (Or.inl rfl)
    · exact Or.inl ⟨rfl, hlt⟩
    · have hfit := hdue m q hin hne hq hle
      exact Or.inr (Or.inr (toNat_correction (by omega)))
  obtain ⟨_, q, hq, hlt⟩ | ⟨hcall, _⟩ := hcall
  · rw [UInt64.lt_iff_toNat_lt] at hlt
    obtain ⟨_, hlt'⟩ | rfl | hp' := hcorrected q hq
    · rw [UInt64.lt_iff_toNat_lt] at hlt'
      omega
    · omega
    · omega
  refine ⟨_, _, p, converted_eq hpts hc, hm, congrArg Prod.fst hcall,
    outputBuffer_pts_of_ne hpne, ?_, ?_⟩
  · rcases hout : st.prevOutputPts with ⟨_ | q⟩
    · exact Or.inl (hp.of_no_output hout)
    · obtain ⟨hp', _⟩ | hp' := hcorrected q hout
      · exact Or.inl hp'
      · exact Or.inr ⟨q, rfl, hp'⟩
  · intro d hd
    obtain ⟨he, hene⟩ := asU64_eq_iff.mpr (hdts d hd)
    rw [outputBuffer_dts_some, hd]
    exact ⟨_, ClockTime.stored_eq_some_iff.mpr ⟨rfl, hene⟩, he⟩

theorem exact_iff {off : Int} {elem : Element} (helem : elem.Kept)
    (hmoved : Moved checks settings off input elem) :
    Exact checks settings off input elem ↔ InRange off input elem :=
  ⟨Exact.inRange helem hmoved, InRange.exact helem hmoved⟩

/-- In a call in which nothing is cut the buffer that is pushed has a PTS. -/
theorem Exact.hasPts {off : Int} {elem : Element} (helem : elem.Consistent)
    (h : Exact checks settings off input elem) :
    (chain checks settings input elem).1.HasPts := by
  intro b hb
  obtain ⟨hpanic, _⟩ | ⟨st, answer, st', rfl, hcall, hcalled⟩ :=
    chain_called checks settings input helem
  · rw [hpanic] at hb
    cases hb
  · obtain ⟨hnone, _⟩ | ⟨n, _, _, _, hpts, _⟩ := hcalled.push
    · rw [hcall] at hb
      cases hnone.symm.trans hb
    · obtain ⟨_, out, p, _, _, hpush, hp, _⟩ := h st n rfl hpts
      rw [hpush] at hb
      cases hb
      rw [hp]
      exact Option.some_ne_none p

/-- **Where nothing is cut.** In a run in a mode with a start time nothing is cut in any
call if and only if in every call the sums and a correction that is due are in the range
of the times of a buffer. A run without an offset pushes nothing. -/
theorem offset_exact_iff (checks : Bool) (settings : Settings) (hmode : settings.HasStart)
    (inputs : List Input) :
    (∀ off, startOffset checks settings inputs = some off →
      (Calls.Every (chain checks settings) (Exact checks settings off) inputs Element.new ↔
        Calls.Every (chain checks settings) (InRange off) inputs Element.new)) ∧
    (startOffset checks settings inputs = none → pushes checks settings inputs = []) := by
  refine ⟨fun off hoff => ?_, pushes_of_no_offset hmode inputs⟩
  have hkept : ∀ input elem, Element.Kept elem → Exact checks settings off input elem →
      Element.Kept (chain checks settings input elem).2 := fun input elem helem hexact =>
    ⟨chain_paired (hasStart_ne_ntp hmode) input elem helem.1,
      chain_storable input elem helem.2 (hexact.hasPts helem.1.1)⟩
  refine Calls.every_iff hkept ⟨paired_new, storable_new⟩ (fun _ _ helem => exact_iff helem) ?_
  rintro before input rest rfl st n hafter hpts
  exact correctedInputPts_run hmode hafter hoff hpts

end Run

theorem pts_dts_aligned_tai : ∃ p e, (timed (some 7) (some 5)).buffer.pts = some p ∧
    (timed (some 7) (some 5)).buffer.dts = some e ∧ (p.toNat : Int) - e.toNat = 7 - 5 :=
  (pts_dts_aligned_iff true ⟨.tai, 0⟩ [] (timed (some 7) (some 5)) StartedState.default
    (timed (some 7) (some 5)).buffer 7 5 rfl rfl rfl (by decide +kernel)
    (by decide +kernel)).mpr (Or.inl rfl)

/-- A buffer of a camera. Its PTS is converted and its DTS is not. -/
theorem ntp_dts_left :
    (chain true Settings.default
      (timed (some 2208988800000000100) (some 2208988800000000040)) Element.new).1 =
        .pushed (timed (some 37000000100) (some 2208988800000000040)).buffer ∧
    converted true Settings.default
      (timed (some 2208988800000000100) (some 2208988800000000040)) StartedState.default =
        some 37000000100 ∧
    (37000000100 : Int) - 2208988800000000040 ≠
      2208988800000000100 - 2208988800000000040 := by
  decide +kernel

theorem offset_exact_decrease : Calls.Every (chain true ⟨.startAtFixedTime, 1000⟩)
    (Exact true ⟨.startAtFixedTime, 1000⟩ 990)
    [timed (some 10) (some 5), timed (some 8) none] Element.new := by
  refine ((offset_exact_iff true ⟨.startAtFixedTime, 1000⟩ (Or.inr rfl)
    [timed (some 10) (some 5), timed (some 8) none]).1 990 (by decide +kernel)).mpr ?_
  rw [Calls.every_cons, Calls.every_cons]
  refine ⟨?_, ?_, Calls.every_nil _ _⟩
  · rintro _ _ ⟨⟩ ⟨⟩
    refine ⟨by decide, ?_, ?_⟩
    · rintro _ ⟨⟩
      decide
    · intro m q hin
      cases hin
  · have hfirst : (chain true ⟨.startAtFixedTime, 1000⟩ (timed (some 10) (some 5))
        Element.new).2 = some ⟨some 1000, ⟨some 1000⟩, some 990⟩ := by
      decide +kernel
    rw [hfirst]
    rintro _ _ ⟨⟩ ⟨⟩
    refine ⟨by decide, ?_, ?_⟩
    · intro d hd
      cases hd
    · rintro _ _ ⟨⟩ ⟨⟩ _ _
      decide

/-- The second PTS is below the first, and the start time is zero. -/
theorem offset_cut :
    times true ⟨.startAtFixedTime, 0⟩ [timed (some 10) none, timed (some 8) none] =
      [0, 18446744073709551614] ∧
    startOffset true ⟨.startAtFixedTime, 0⟩ [timed (some 10) none, timed (some 8) none] =
      some (-10) ∧
    ¬ Calls.Every (chain true ⟨.startAtFixedTime, 0⟩)
      (Exact true ⟨.startAtFixedTime, 0⟩ (-10))
      [timed (some 10) none, timed (some 8) none] Element.new := by
  refine ⟨by decide +kernel, by decide +kernel, fun h => ?_⟩
  have hfirst : Calls.after (chain true ⟨.startAtFixedTime, 0⟩) [timed (some 10) none]
      Element.new = some ⟨some 0, ⟨some 0⟩, some (-10)⟩ := by
    decide +kernel
  obtain ⟨m, _, _, _, hm, _⟩ := h [timed (some 10) none] _ [] rfl _ 8 hfirst rfl
  have hn : (8 : UInt64).toNat = 8 := rfl
  omega

end GstPravega.Plugin.TimestampCvt
