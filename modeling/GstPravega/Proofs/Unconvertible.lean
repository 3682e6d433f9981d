import GstPravega.Proofs.OutputTimes

/-!
# PTS that cannot be converted

In ntp mode a PTS below the offset between the epochs is converted to none. While nothing
is remembered the element drops such a buffer, and that is what the warning beside it
says. Later the comparison with the last output comes first: none is below every PTS, so
the buffer is pushed, at the last output plus the correction, and none is what is
remembered of it. The next PTS is then taken as the first one, whatever was given out
before, and if it is lower the call fails with the error that was to be unreachable.
-/

namespace GstPravega.Plugin.TimestampCvt

open GstPravega.Lib GstPravega.Gst GstPravega.Video

open FragMp4Pay (PayBuffer)

open PravegaSrc (pravegaToClocktime)

/-- A PTS that decreases is corrected, and none is found to be below the last one. -/
def Corrects (checks : Bool) (settings : Settings) (input : Input) (elem : Element) : Prop :=
  (chain checks settings input elem).1 ≠ .internalError ∧
  ∀ st n q, elem = some st → converted checks settings input st = some n →
    st.prevOutputPts = ⟨some q⟩ → n < q → st.prevInputPts ≠ some n →
    ∃ out p, (chain checks settings input elem).1 = .pushed out ∧ out.pts = some p ∧
      p.toNat = q.toNat + 15000000

/-- A correction stays below `2 ^ 63`. -/
def CorrectionFits (checks : Bool) (settings : Settings) (input : Input) (elem : Element) :
    Prop :=
  ∀ st q, elem = some st → input.buffer.pts ≠ none → st.prevInputPts ≠ none →
    st.prevInputPts ≠ converted checks settings input st →
    st.prevOutputPts = ⟨some q⟩ →
    (⟨converted checks settings input st⟩ : PravegaTimestamp) ≤ ⟨some q⟩ →
    q.toNat + 15000000 < 2 ^ 63

/-- A PTS is not below the last output where no input is remembered beside it. -/
def Resumes (checks : Bool) (settings : Settings) (input : Input) (elem : Element) : Prop :=
  ∀ st n q, elem = some st → converted checks settings input st = some n →
    st.prevInputPts = none → st.prevOutputPts = ⟨some q⟩ → q ≤ n

section Call

variable {checks : Bool} {settings : Settings} {input : Input} {elem : Element}
  {st st' : StartedState} {answer : Answer}

/-- The call that fails is one that finds no input remembered, or whose correction does
not fit. -/
theorem Called.internalError (h : Called checks settings input st .internalError st') :
    ∃ p q, st.prevOutputPts = ⟨some q⟩ ∧ input.buffer.pts ≠ none ∧
      ((st.prevInputPts = none ∧ converted checks settings input st = some p ∧ p < q) ∨
      (st.prevInputPts ≠ none ∧ st.prevInputPts ≠ converted checks settings input st ∧
        (⟨converted checks settings input st⟩ : PravegaTimestamp) ≤ ⟨some q⟩ ∧
        2 ^ 64 ≤ q.toNat + 15000000)) := by
  cases h with
  | unconverted _ _ _ _ herror => exact absurd rfl herror
  | @refused n p q c off hpts hc hp hq hlt =>
      refine ⟨p, q, hq, by rw [hpts]; exact Option.some_ne_none n, ?_⟩
      rw [converted_eq hpts hc]
      cases hp with
      | first hin hc => exact Or.inl ⟨hin, hc, hlt⟩
      | repeated _ _ hout =>
          cases hq.symm.trans hout
          exact absurd hlt (UInt64.lt_irrefl _)
      | increased _ _ _ hlt' =>
          rw [hq, lt_some_iff] at hlt'
          exact absurd hlt' (UInt64.lt_asymm hlt)
      | corrected hin hne hout hle hp =>
          cases hq.symm.trans hout
          rw [hp, correction_lt_iff] at hlt
          exact Or.inr ⟨Option.isSome_iff_ne_none.mp hin, hne, hle, hlt⟩

theorem of_converted_eq_some {m : UInt64} (h : converted checks settings input st = some m) :
    ∃ n off, input.buffer.pts = some n ∧
      correctedInputPts checks settings input.systemTime n st.ptsOffsetNanos =
        some (some m, off) := by
  obtain ⟨n, hpts, h⟩ := Option.bind_eq_some_iff.mp h
  obtain ⟨⟨c, off⟩, hc, rfl⟩ := Option.bind_eq_some_iff.mp h
  exact ⟨n, off, hpts, hc⟩

/-- A PTS that decreases is corrected if an input is remembered. -/
theorem Outputs.of_lt {n p q : UInt64} (h : Outputs st (some n) p)
    (hq : st.prevOutputPts = ⟨some q⟩) (hlt : n < q) (hne : st.prevInputPts ≠ some n) :
    (st.prevInputPts = none ∧ p = n) ∨
      (st.prevInputPts ≠ none ∧ p = asU64 (q.toNat + 15000000)) := by
  cases h with
  | first hin hc => exact Or.inl ⟨hin, (Option.some_inj.mp hc).symm⟩
  | repeated _ hc _ => exact absurd hc hne
  | increased _ _ hc hlt' =>
      cases hc
      rw [hq, lt_some_iff] at hlt'
      exact absurd hlt' (UInt64.lt_asymm hlt)
  | corrected hin _ hout _ hp =>
      cases hq.symm.trans hout
      exact Or.inr ⟨Option.isSome_iff_ne_none.mp hin, hp⟩

/-- Under the bound a call corrects exactly if the PTS resumes. -/
theorem corrects_iff (helem : elem.Consistent)
    (hfits : CorrectionFits checks settings input elem) :
    Corrects checks settings input elem ↔ Resumes checks settings input elem := by
  constructor
  · rintro ⟨hanswer, _⟩ st n q rfl hn hin hq
    obtain ⟨_, off, hpts, hc⟩ := of_converted_eq_some hn
    obtain ⟨p, hp, ⟨h, _⟩ | ⟨_, hle⟩⟩ := chain_of_converted helem hpts hc
    · exact absurd h hanswer
    · rw [hp.of_first hin]
      exact hle q hq
  · intro hresumes
    have hanswer : (chain checks settings input elem).1 ≠ .internalError := by
      obtain ⟨h, _⟩ | ⟨st, answer, st', rfl, h, hcalled⟩ :=
        chain_called checks settings input helem
      · rw [h]
        decide
      · rw [h]
        rintro rfl
        obtain ⟨p, q, hq, hpts, ⟨hin, hp, hlt⟩ | ⟨hin, hne, hle, hwrap⟩⟩ :=
          hcalled.internalError
        · exact absurd hlt (UInt64.not_lt.mpr (hresumes st p q rfl hp hin hq))
        · have hlt := hfits st q rfl hpts hin hne hq hle
          omega
    refine ⟨hanswer, ?_⟩
    rintro st n q rfl hn hq hlt hne
    obtain ⟨_, off, hpts, hc⟩ := of_converted_eq_some hn
    obtain ⟨p, hp, ⟨h, _⟩ | ⟨h, _⟩⟩ := chain_of_converted helem hpts hc
    · exact absurd h hanswer
    · obtain ⟨hin, _⟩ | ⟨hin, rfl⟩ := hp.of_lt hq hlt hne
      · exact absurd hlt (UInt64.not_lt.mpr (hresumes st n q rfl hn hin hq))
      · have htimed : input.buffer.pts ≠ none := by
          rw [hpts]
          exact Option.some_ne_none _
        have hle : (⟨converted checks settings input st⟩ : PravegaTimestamp) ≤ ⟨some q⟩ := by
          rw [hn, ← not_lt, lt_some_iff]
          exact UInt64.lt_asymm hlt
        have hfit := hfits st q rfl htimed hin (hn ▸ hne) hq hle
        have hstored := mt correction_eq_none_iff.mp (by omega : q.toNat + 15000000 ≠ 2 ^ 64 - 1)
        exact ⟨_, _, congrArg Prod.fst h, outputBuffer_pts_of_ne hstored,
          toNat_correction (by omega)⟩

end Call

/-- **Where a decreasing PTS is corrected.** In a run whose corrections stay below
`2 ^ 63` each call corrects a PTS that decreases, and none fails for an output PTS below
the last one, if and only if each PTS resumes: where no input is remembered but an output
is, it is not below that output. -/
theorem corrects_run_iff (checks : Bool) (settings : Settings) (inputs : List Input)
    (hfits : Calls.Every (chain checks settings) (CorrectionFits checks settings) inputs
      Element.new) :
    Calls.Every (chain checks settings) (Corrects checks settings) inputs Element.new ↔
      Calls.Every (chain checks settings) (Resumes checks settings) inputs Element.new :=
  Calls.every_iff (fun input elem helem _ => chain_consistent input elem helem)
    consistent_new (fun _ _ => corrects_iff) hfits

/-- An input PTS is remembered with each output PTS. -/
def Element.Paired (elem : Element) : Prop :=
  elem.Consistent ∧ ∀ st, elem = some st → st.prevInputPts = none → st.prevOutputPts = ⟨none⟩

/-- In the other modes each PTS is converted, if the call does not panic. -/
theorem converted_ne_none {checks : Bool} {settings : Settings}
    (hmode : settings.inputTimestampMode ≠ .ntp) {systemTime : Int} {n : UInt64}
    {off off' : Option Int} :
    correctedInputPts checks settings systemTime n off ≠ some (none, off') := by
  intro h
  rw [correctedInputPts] at h
  split at h
  · cases h
  · next hntp => exact hmode hntp
  · obtain ⟨_, _, h⟩ := Option.map_eq_some_iff.mp h
    cases h
  · obtain ⟨_, _, h⟩ := Option.map_eq_some_iff.mp h
    cases h

theorem chain_paired {checks : Bool} {settings : Settings}
    (hmode : settings.inputTimestampMode ≠ .ntp) (input : Input) (elem : Element)
    (helem : elem.Paired) : (chain checks settings input elem).2.Paired := by
  refine ⟨chain_consistent input elem helem.1, ?_⟩
  obtain ⟨h, _⟩ | ⟨st, answer, st', rfl, h, hcalled⟩ :=
    chain_called checks settings input helem.1
  · rw [h]
    intro st hst
    cases hst
  · rw [h]
    rintro _ ⟨⟩ hnone
    obtain ⟨_, hin, hout⟩ | ⟨_, c, _, _, _, hc, _, _, _, rfl⟩ := hcalled.push
    · rw [hout, helem.2 st rfl (hin ▸ hnone)]
    · obtain rfl : c = none := hnone
      exact absurd hc (converted_ne_none hmode)

theorem paired_new : Element.new.Paired := by
  refine ⟨consistent_new, ?_⟩
  rintro _ ⟨⟩ _
  rfl

/-- In the other modes there is nothing to resume. -/
theorem resumes_of_ne_ntp {checks : Bool} {settings : Settings}
    (hmode : settings.inputTimestampMode ≠ .ntp) (inputs : List Input) :
    Calls.Every (chain checks settings) (Resumes checks settings) inputs Element.new := by
  intro before input rest _ st n q hst _ hin hq
  have hpaired : Element.Paired (Calls.after (chain checks settings) before Element.new) :=
    Calls.after_invariant (chain_paired hmode) before paired_new
  rw [hpaired.2 st hst hin] at hq
  cases hq

/-- The last output, zero if there is none. -/
def lastOutput (elem : Element) : Nat :=
  (elem.bind fun st => st.prevOutputPts.nanoseconds).elim 0 UInt64.toNat

theorem correctionFits_of {checks : Bool} {settings : Settings} {input : Input}
    {elem : Element} (h : lastOutput elem + 15000000 < 2 ^ 63) :
    CorrectionFits checks settings input elem := by
  rintro st q rfl _ _ _ hq _
  rw [lastOutput, Option.bind_some, hq] at h
  exact h

/-- The second PTS is five nanoseconds below the first. -/
def decreasing : List Input :=
  [timed (some 2208988800000000010) none, timed (some 2208988800000000005) none]

theorem corrects_run_iff_decreasing : Calls.Every (chain true Settings.default)
    (Corrects true Settings.default) decreasing Element.new := by
  refine (corrects_run_iff true Settings.default decreasing ?_).mpr ?_
  · rw [decreasing, Calls.every_cons, Calls.every_cons]
    exact ⟨correctionFits_of (by decide +kernel), correctionFits_of (by decide +kernel),
      Calls.every_nil _ _⟩
  · rw [decreasing, Calls.every_cons, Calls.every_cons]
    refine ⟨?_, ?_, Calls.every_nil _ _⟩
    · rintro _ n q ⟨⟩ _ _ hq
      cases hq
    · have hfirst : (chain true Settings.default (timed (some 2208988800000000010) none)
          Element.new).2 = some ⟨some 37000000010, ⟨some 37000000010⟩, none⟩ := by
        decide +kernel
      rw [hfirst]
      rintro _ n q ⟨⟩ _ hin _
      cases hin

/-- A PTS that is not converted between two that are the same. -/
def interrupted : List Input :=
  [timed (some 2208988800000000010) none, timed (some 0) none,
    timed (some 2208988800000000010) none]

/-- The third buffer is refused. -/
theorem interrupted_refused :
    Calls.Every (chain true Settings.default) (CorrectionFits true Settings.default)
      interrupted Element.new ∧
    (Calls.answers (chain true Settings.default) interrupted Element.new).map Answer.time? =
      [some 37000000010, some 37015000010, none] ∧
    ¬ Calls.Every (chain true Settings.default) (Corrects true Settings.default)
      interrupted Element.new := by
  refine ⟨?_, by decide +kernel, fun h => ?_⟩
  · rw [interrupted, Calls.every_cons, Calls.every_cons, Calls.every_cons]
    exact ⟨correctionFits_of (by decide +kernel), correctionFits_of (by decide +kernel),
      correctionFits_of (by decide +kernel), Calls.every_nil _ _⟩
  · exact (h (interrupted.take 2) _ [] rfl).1 (by decide +kernel)

/-! ## ntp mode -/

section Ntp

variable {settings : Settings}

theorem correctedInputPts_ntp (checks : Bool) (hmode : settings.inputTimestampMode = .ntp)
    (systemTime : Int) (n : UInt64) (off : Option Int) :
    ∃ c, correctedInputPts checks settings systemTime n off = some (c, off) ∧
      (c = none ↔ n < PravegaTimestamp.unixToNtpNanos) ∧
      ∀ p, c = some p → p.toNat ≠ n.toNat := by
  rw [correctedInputPts, hmode]
  dsimp only
  rw [PravegaTimestamp.fromNtpNanoseconds_some]
  refine ⟨_, rfl, ?_⟩
  dsimp only [pravegaToClocktime]
  split
  · next hle =>
      refine ⟨iff_of_false (Option.some_ne_none _) (UInt64.not_lt.mpr hle), ?_⟩
      intro p hp heq
      have h := PravegaTimestamp.toNat_ofNtp hle
      rw [Option.some_inj.mp hp, heq] at h
      omega
  · next hlt =>
      refine ⟨iff_of_true rfl (UInt64.not_le.mp hlt), ?_⟩
      intro p hp
      cases hp

/-- No call panics. -/
theorem chain_ntp (checks : Bool) (hmode : settings.inputTimestampMode = .ntp)
    (input : Input) {st : StartedState} (hst : st.Consistent) :
    ∃ answer st', chain checks settings input (some st) = (answer, some st') ∧
      Called checks settings input st answer st' := by
  have helem : Element.Consistent (some st) := by
    rintro _ ⟨⟩
    exact hst
  obtain ⟨_, hpanic⟩ | ⟨_, answer, st', ⟨⟩, h, hcalled⟩ :=
    chain_called checks settings input helem
  · obtain ⟨n, _, hnone⟩ := hpanic st rfl
    obtain ⟨c, hc, _⟩ := correctedInputPts_ntp checks hmode input.systemTime n
      st.ptsOffsetNanos
    cases hnone.symm.trans hc
  · exact ⟨answer, st', h, hcalled⟩

theorem after_ntp (checks : Bool) (hmode : settings.inputTimestampMode = .ntp)
    (inputs : List Input) :
    ∃ st : StartedState, st.Consistent ∧
      Calls.after (chain checks settings) inputs Element.new = some st := by
  induction inputs using List.reverseRecOn with
  | nil => exact ⟨_, consistent_new _ rfl, rfl⟩
  | append_singleton inputs input ih =>
      obtain ⟨st, hst, hafter⟩ := ih
      obtain ⟨answer, st', h, hcalled⟩ := chain_ntp checks hmode input hst
      refine ⟨st', hcalled.consistent hst, ?_⟩
      rw [Calls.after_append, hafter, Calls.after_cons, h, Calls.after_nil]

/-- A PTS that is not converted is corrected if an input is remembered. -/
theorem Outputs.of_none {st : StartedState} {p : UInt64} (h : Outputs st none p) :
    st.prevInputPts ≠ none ∧
      ∃ q, st.prevOutputPts = ⟨some q⟩ ∧ p = asU64 (q.toNat + 15000000) := by
  cases h with
  | first _ hc => cases hc
  | repeated hin hc _ =>
      rw [hc] at hin
      cases hin
  | increased _ _ hc _ => cases hc
  | @corrected q hin _ hout _ hp => exact ⟨Option.isSome_iff_ne_none.mp hin, q, hout, hp⟩

/-- A call with such a PTS pushes the buffer, or leaves everything as it was. -/
theorem chain_unconverted (checks : Bool) (hmode : settings.inputTimestampMode = .ntp)
    {input : Input} {st : StartedState} {n : UInt64} (hst : st.Consistent)
    (hpts : input.buffer.pts = some n) (hlt : n < PravegaTimestamp.unixToNtpNanos) :
    ((st.prevInputPts = none ∨
        ∃ q, st.prevOutputPts = ⟨some q⟩ ∧ 2 ^ 64 ≤ q.toNat + 15000000) ∧
      (chain checks settings input (some st)).1.buffer? = none ∧
      (chain checks settings input (some st)).2 = some st) ∨
    (¬ (st.prevInputPts = none ∨
        ∃ q, st.prevOutputPts = ⟨some q⟩ ∧ 2 ^ 64 ≤ q.toNat + 15000000) ∧
      (chain checks settings input (some st)).1.buffer? ≠ none) := by
  obtain ⟨c, hc, hnone, _⟩ := correctedInputPts_ntp checks hmode input.systemTime n
    st.ptsOffsetNanos
  obtain rfl := hnone.mpr hlt
  obtain ⟨answer, st', h, hcalled⟩ := chain_ntp checks hmode input hst
  rw [h]
  cases hcalled with
  | untimed hpts' => cases hpts.symm.trans hpts'
  | unconverted hpts' hc' hin hanswer _ =>
      cases hpts.symm.trans hpts'
      cases hc.symm.trans hc'
      exact Or.inl ⟨Or.inl hin, hanswer, rfl⟩
  | @refused _ _ q _ _ hpts' hc' hp hq hlt =>
      cases hpts.symm.trans hpts'
      cases hc.symm.trans hc'
      obtain ⟨_, q', hq', rfl⟩ := hp.of_none
      cases hq.symm.trans hq'
      exact Or.inl ⟨Or.inr ⟨q, hq, correction_lt_iff.mp hlt⟩, rfl, rfl⟩
  | pushed hpts' hc' hp hle =>
      cases hpts.symm.trans hpts'
      cases hc.symm.trans hc'
      obtain ⟨hin, q, hq, rfl⟩ := hp.of_none
      refine Or.inr ⟨?_, Option.some_ne_none _⟩
      rintro (hnone | ⟨q', hq', hwrap⟩)
      · exact hin hnone
      · cases hq.symm.trans hq'
        exact absurd (correction_lt_iff.mpr hwrap) (UInt64.not_lt.mpr (hle q hq))

/-- **Where a PTS that cannot be converted leaves no trace.** In ntp mode such a buffer
is not pushed, and every later buffer is treated as if it had not been there, if and only
if it finds no input remembered: nothing has been pushed before it, or the last buffer
pushed was such a one too. (At the end of the range of output PTS, where the correction
does not fit, the buffer is refused instead.) -/
theorem unconverted_dropped_iff (checks : Bool) (settings : Settings)
    (hmode : settings.inputTimestampMode = .ntp) (before : List Input) (input : Input)
    (n : UInt64) (hpts : input.buffer.pts = some n)
    (hlt : n < PravegaTimestamp.unixToNtpNanos) :
    ∃ st, Calls.after (chain checks settings) before Element.new = some st ∧
      ((((chain checks settings input (some st)).1.buffer? = none) ∧
        ∀ rest, Calls.answers (chain checks settings) rest
            (Calls.after (chain checks settings) (before ++ [input]) Element.new) =
          Calls.answers (chain checks settings) rest
            (Calls.after (chain checks settings) before Element.new)) ↔
      st.prevInputPts = none ∨
        ∃ q, st.prevOutputPts = ⟨some q⟩ ∧ 2 ^ 64 ≤ q.toNat + 15000000) := by
  obtain ⟨st, hst, hafter⟩ := after_ntp checks hmode before
  refine ⟨st, hafter, ?_⟩
  rw [Calls.after_append, hafter, Calls.after_cons, Calls.after_nil]
  obtain ⟨hquiet, hanswer, hsame⟩ | ⟨hloud, hanswer⟩ :=
    chain_unconverted checks hmode hst hpts hlt
  · rw [hsame]
    exact iff_of_true ⟨hanswer, fun _ => rfl⟩ hquiet
  · exact iff_of_false (fun h => hanswer h.1) hloud

end Ntp

/-- Nothing was pushed before it. -/
theorem unconverted_dropped_first :
    (chain true Settings.default (timed (some 5) none) Element.new).1.buffer? = none ∧
    ∀ rest, Calls.answers (chain true Settings.default) rest
        (Calls.after (chain true Settings.default) [timed (some 5) none] Element.new) =
      Calls.answers (chain true Settings.default) rest Element.new := by
  obtain ⟨st, hst, hiff⟩ := unconverted_dropped_iff true Settings.default rfl []
    (timed (some 5) none) 5 rfl (by decide +kernel)
  cases hst
  exact hiff.mpr (Or.inl rfl)

/-- It is pushed, and the buffer behind it is refused. -/
theorem unconverted_not_dropped :
    (0 : UInt64) < PravegaTimestamp.unixToNtpNanos ∧
    (Calls.answers (chain true Settings.default) (interrupted.drop 1)
      (Calls.after (chain true Settings.default) (interrupted.take 1) Element.new)).map
        Answer.time? = [some 37015000010, none] ∧
    (Calls.answers (chain true Settings.default) (interrupted.drop 2)
      (Calls.after (chain true Settings.default) (interrupted.take 1) Element.new)).map
        Answer.time? = [some 37000000010] := by
  decide +kernel

end GstPravega.Plugin.TimestampCvt
