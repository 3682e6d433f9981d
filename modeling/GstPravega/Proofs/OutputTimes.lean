import GstPravega.Plugin.TimestampCvt
import Mathlib.Data.List.Chain

/-!
# The PTS of the buffers that timestampcvt pushes

A call compares the PTS it converts with two things: with the converted PTS before it,
and with the PTS it gave out last. `Outputs` says which PTS comes of that, and `Called`
what the call then does. Everything else is read off the two.

The PTS that are pushed never decrease, since a call that would push a lower one fails.
But the element reckons with numbers, and the greatest of them is stored in a buffer as
none: such a buffer is pushed without a PTS. `InTime` says when no call makes it.

On PTS that never decrease the element in tai mode corrects nothing, so that a second one
behind the first changes nothing, unless a buffer comes to it without a PTS.
-/

namespace GstPravega.Plugin.TimestampCvt

open GstPravega.Lib GstPravega.Gst GstPravega.Video

open FragMp4Pay (PayBuffer)

/-! ## One call -/

/-- An input PTS is remembered with an output PTS only. -/
def StartedState.Consistent (st : StartedState) : Prop :=
  st.prevInputPts.isSome → ∃ q, st.prevOutputPts = ⟨some q⟩

/-- The output PTS, by what is remembered and the converted PTS. -/
inductive Outputs (st : StartedState) (c : ClockTime) (p : UInt64) : Prop where
  | first (hin : st.prevInputPts = none) (hc : c = some p)
  | repeated (hin : st.prevInputPts.isSome) (hc : st.prevInputPts = c)
      (hout : st.prevOutputPts = ⟨some p⟩)
  | increased (hin : st.prevInputPts.isSome) (hne : st.prevInputPts ≠ c) (hc : c = some p)
      (hlt : st.prevOutputPts < ⟨some p⟩)
  | corrected {q : UInt64} (hin : st.prevInputPts.isSome) (hne : st.prevInputPts ≠ c)
      (hout : st.prevOutputPts = ⟨some q⟩) (hle : (⟨c⟩ : PravegaTimestamp) ≤ ⟨some q⟩)
      (hp : p = asU64 (q.toNat + 15000000))

/-- The PTS of the buffer that an answer hands on. -/
def Answer.time? (answer : Answer) : Option UInt64 := answer.buffer?.bind fun b => b.pts

/-- The converted PTS of the input. -/
def converted (checks : Bool) (settings : Settings) (input : Input) (st : StartedState) :
    ClockTime :=
  input.buffer.pts.bind fun n =>
    (correctedInputPts checks settings input.systemTime n st.ptsOffsetNanos).bind Prod.fst

section Call

variable {checks : Bool} {settings : Settings} {input : Input} {st st' : StartedState}
  {c : ClockTime} {p q : UInt64} {answer : Answer}

theorem converted_eq {n : UInt64} {c : ClockTime} {off : Option Int}
    (hpts : input.buffer.pts = some n)
    (hc : correctedInputPts checks settings input.systemTime n st.ptsOffsetNanos =
      some (c, off)) : converted checks settings input st = c := by
  rw [converted, hpts, Option.bind_some, hc]
  rfl

theorem outputBuffer_pts {buffer : PayBuffer} {off : Option Int} :
    (outputBuffer buffer ⟨some p⟩ off).pts = ClockTime.stored (some p) := rfl

theorem outputBuffer_pts_of_ne {buffer : PayBuffer} {off : Option Int}
    (h : p ≠ GST_CLOCK_TIME_NONE) : (outputBuffer buffer ⟨some p⟩ off).pts = some p :=
  ClockTime.stored_eq_some_iff.mpr ⟨rfl, h⟩

theorem ptsCorrectionDelta_eq : ptsCorrectionDelta checks = some ⟨some 15000000⟩ :=
  TimeDelta.mul_of_range (by decide) (by decide)

theorem add_correction : PravegaTimestamp.add checks ⟨some q⟩ ⟨some 15000000⟩ =
    some ⟨some (asU64 (q.toNat + 15000000))⟩ :=
  @PravegaTimestamp.add_natCast checks q 15000000 (by decide)

/-- No output PTS comes of a PTS that is not converted before anything is remembered. -/
theorem outputPts_cases (checks : Bool) (c : ClockTime) (hst : st.Consistent) :
    (st.prevInputPts = none ∧ c = none ∧ outputPts checks st c = some ⟨none⟩) ∨
    ∃ p, Outputs st c p ∧ outputPts checks st c = some ⟨some p⟩ := by
  rw [outputPts]
  split
  · next hin =>
      obtain ⟨q, hq⟩ := hst hin
      split
      · next hc => exact Or.inr ⟨q, .repeated hin hc hq, by rw [hq]⟩
      · next hne =>
          dsimp only [PravegaTimestamp.fromNanoseconds]
          split
          · next hlt =>
              cases c with
              | none => exact absurd (PravegaTimestamp.lt_iff.mp hlt) (Nat.not_lt_zero _)
              | some p => exact Or.inr ⟨p, .increased hin hne rfl hlt, rfl⟩
          · next hle =>
              rw [hq] at hle
              rw [ptsCorrectionDelta_eq, Option.bind_some, hq, add_correction]
              exact Or.inr ⟨_, .corrected hin hne hq (not_lt.mp hle) rfl, rfl⟩
  · next hin =>
      have hnone := Option.not_isSome_iff_eq_none.mp hin
      cases c with
      | none => exact Or.inl ⟨hnone, rfl, rfl⟩
      | some p => exact Or.inr ⟨p, .first hnone rfl, rfl⟩

/-- What a call does that does not panic. -/
inductive Called (checks : Bool) (settings : Settings) (input : Input) (st : StartedState) :
    Answer → StartedState → Prop where
  | untimed (hpts : input.buffer.pts = none) : Called checks settings input st .dropped st
  | unconverted {n : UInt64} {off : Option Int} {answer : Answer}
      (hpts : input.buffer.pts = some n)
      (hc : correctedInputPts checks settings input.systemTime n st.ptsOffsetNanos =
        some (none, off))
      (hin : st.prevInputPts = none) (hanswer : answer.buffer? = none)
      (herror : answer ≠ .internalError) :
      Called checks settings input st answer { st with ptsOffsetNanos := off }
  | refused {n p q : UInt64} {c : ClockTime} {off : Option Int}
      (hpts : input.buffer.pts = some n)
      (hc : correctedInputPts checks settings input.systemTime n st.ptsOffsetNanos =
        some (c, off))
      (hp : Outputs st c p) (hq : st.prevOutputPts = ⟨some q⟩) (hlt : p < q) :
      Called checks settings input st .internalError { st with ptsOffsetNanos := off }
  | pushed {n p : UInt64} {c : ClockTime} {off : Option Int}
      (hpts : input.buffer.pts = some n)
      (hc : correctedInputPts checks settings input.systemTime n st.ptsOffsetNanos =
        some (c, off))
      (hp : Outputs st c p) (hle : ∀ q, st.prevOutputPts = ⟨some q⟩ → q ≤ p) :
      Called checks settings input st (.pushed (outputBuffer input.buffer ⟨some p⟩ off))
        ⟨c, ⟨some p⟩, off⟩

theorem lt_some_iff : (⟨some p⟩ : PravegaTimestamp) < ⟨some q⟩ ↔ p < q := by
  rw [PravegaTimestamp.lt_iff, UInt64.lt_iff_toNat_lt]
  exact Nat.succ_lt_succ_iff

/-- A call panics only if the clock of the system cannot be converted. -/
theorem sinkChain_called (checks : Bool) (settings : Settings) (input : Input)
    (hst : st.Consistent) :
    (∃ n, input.buffer.pts = some n ∧ sinkChain checks settings input st = none ∧
      correctedInputPts checks settings input.systemTime n st.ptsOffsetNanos = none) ∨
    ∃ answer st', sinkChain checks settings input st = some (answer, st') ∧
      Called checks settings input st answer st' := by
  rw [sinkChain]
  cases hpts : input.buffer.pts with
  | none => exact Or.inr ⟨_, _, rfl, .untimed hpts⟩
  | some n =>
      dsimp only
      cases hc : correctedInputPts checks settings input.systemTime n st.ptsOffsetNanos with
      | none => exact Or.inl ⟨n, rfl, rfl, hc⟩
      | some r =>
          obtain ⟨c, off⟩ := r
          simp only [Option.bind_eq_bind, Option.bind_some]
          right
          obtain ⟨hin, rfl, hout⟩ | ⟨p, hp, hout⟩ := outputPts_cases checks c hst
          · rw [hout, Option.bind_some, if_neg (by simp [PravegaTimestamp.isSome])]
            split
            · exact ⟨_, _, rfl, .unconverted hpts hc hin rfl (by decide)⟩
            · exact ⟨_, _, rfl, .unconverted hpts hc hin rfl (by decide)⟩
          · rw [hout, Option.bind_some, if_pos (by simp [PravegaTimestamp.isSome])]
            split
            · next hlt =>
                obtain ⟨hsome, hlt⟩ := hlt
                obtain ⟨q, hq⟩ := Option.isSome_iff_exists.mp hsome
                have hq' : st.prevOutputPts = ⟨some q⟩ := congrArg PravegaTimestamp.mk hq
                rw [hq', lt_some_iff] at hlt
                exact ⟨_, _, rfl, .refused hpts hc hp hq' hlt⟩
            · next hle =>
                refine ⟨_, _, rfl, .pushed hpts hc hp fun q hq => ?_⟩
                rw [hq, lt_some_iff] at hle
                exact UInt64.not_lt.mp fun hlt => hle ⟨rfl, hlt⟩

/-- What a call hands on, if anything, is what it remembers. -/
theorem Called.push (h : Called checks settings input st answer st') :
    (answer.buffer? = none ∧ st'.prevInputPts = st.prevInputPts ∧
      st'.prevOutputPts = st.prevOutputPts) ∨
    ∃ n c off p, input.buffer.pts = some n ∧
      correctedInputPts checks settings input.systemTime n st.ptsOffsetNanos =
        some (c, off) ∧
      Outputs st c p ∧ (∀ q, st.prevOutputPts = ⟨some q⟩ → q ≤ p) ∧
      answer = .pushed (outputBuffer input.buffer ⟨some p⟩ off) ∧
      st' = ⟨c, ⟨some p⟩, off⟩ := by
  cases h with
  | untimed _ => exact Or.inl ⟨rfl, rfl, rfl⟩
  | unconverted _ _ _ hanswer _ => exact Or.inl ⟨hanswer, rfl, rfl⟩
  | refused _ _ _ _ _ => exact Or.inl ⟨rfl, rfl, rfl⟩
  | pushed hpts hc hp hle => exact Or.inr ⟨_, _, _, _, hpts, hc, hp, hle, rfl, rfl⟩

theorem Called.consistent (h : Called checks settings input st answer st')
    (hst : st.Consistent) : st'.Consistent := by
  cases h with
  | untimed _ => exact hst
  | unconverted _ _ _ _ _ => exact hst
  | refused _ _ _ _ _ => exact hst
  | pushed _ _ _ _ => exact fun _ => ⟨_, rfl⟩

end Call

/-! ## Runs -/

def Element.Consistent (elem : Element) : Prop := ∀ st, elem = some st → st.Consistent

section Run

variable {checks : Bool} {settings : Settings}

theorem chain_called (checks : Bool) (settings : Settings) (input : Input) {elem : Element}
    (helem : elem.Consistent) :
    (chain checks settings input elem = (.panicked, none) ∧ ∀ st, elem = some st →
      ∃ n, input.buffer.pts = some n ∧
        correctedInputPts checks settings input.systemTime n st.ptsOffsetNanos = none) ∨
    ∃ st answer st', elem = some st ∧
      chain checks settings input elem = (answer, some st') ∧
      Called checks settings input st answer st' := by
  cases elem with
  | none =>
      refine Or.inl ⟨rfl, fun st hst => ?_⟩
      cases hst
  | some st =>
      rw [chain]
      obtain ⟨n, hpts, hnone, hc⟩ | ⟨answer, st', hsome, hcalled⟩ :=
        sinkChain_called checks settings input (helem st rfl)
      · refine Or.inl ⟨by rw [hnone], ?_⟩
        rintro _ ⟨⟩
        exact ⟨n, hpts, hc⟩
      · exact Or.inr ⟨st, answer, st', rfl, by rw [hsome], hcalled⟩

/-- A call with a PTS that is converted pushes the buffer or refuses it. -/
theorem chain_of_converted {input : Input} {st : StartedState} {n m : UInt64}
    {off : Option Int} (helem : Element.Consistent (some st))
    (hpts : input.buffer.pts = some n)
    (hc : correctedInputPts checks settings input.systemTime n st.ptsOffsetNanos =
      some (some m, off)) :
    ∃ p, Outputs st (some m) p ∧
      (((chain checks settings input (some st)).1 = .internalError ∧
        ∃ q, st.prevOutputPts = ⟨some q⟩ ∧ p < q) ∨
      (chain checks settings input (some st) =
          (.pushed (outputBuffer input.buffer ⟨some p⟩ off), some ⟨some m, ⟨some p⟩, off⟩) ∧
        ∀ q, st.prevOutputPts = ⟨some q⟩ → q ≤ p)) := by
  obtain ⟨_, hpanic⟩ | ⟨_, answer, st', ⟨⟩, h, hcalled⟩ :=
    chain_called checks settings input helem
  · obtain ⟨n', hpts', hnone⟩ := hpanic st rfl
    cases hpts.symm.trans hpts'
    cases hc.symm.trans hnone
  · rw [h]
    cases hcalled with
    | untimed hpts' => cases hpts.symm.trans hpts'
    | unconverted hpts' hc' _ _ _ =>
        cases hpts.symm.trans hpts'
        cases hc.symm.trans hc'
    | refused hpts' hc' hp hq hlt =>
        cases hpts.symm.trans hpts'
        cases hc.symm.trans hc'
        exact ⟨_, hp, Or.inl ⟨rfl, _, hq, hlt⟩⟩
    | pushed hpts' hc' hp hle =>
        cases hpts.symm.trans hpts'
        cases hc.symm.trans hc'
        exact ⟨_, hp, Or.inr ⟨rfl, hle⟩⟩

theorem chain_consistent (input : Input) (elem : Element) (helem : elem.Consistent) :
    (chain checks settings input elem).2.Consistent := by
  obtain ⟨h, _⟩ | ⟨st, answer, st', rfl, h, hcalled⟩ :=
    chain_called checks settings input helem
  · rw [h]
    intro st hst
    cases hst
  · rw [h]
    rintro _ ⟨⟩
    exact hcalled.consistent (helem st rfl)

theorem consistent_new : Element.new.Consistent := by
  rintro _ ⟨⟩ hin
  cases hin

theorem consistent_after (inputs : List Input) :
    Element.Consistent (Calls.after (chain checks settings) inputs Element.new) :=
  Calls.after_invariant chain_consistent inputs consistent_new

/-- What the states of a consistent element remember of the last push. -/
def Element.Remembers (Last : StartedState → Option (PayBuffer × PayBuffer) → Prop)
    (elem : Element) (last : Option (PayBuffer × PayBuffer)) : Prop :=
  elem.Consistent ∧ ∀ st, elem = some st → Last st last

/-- What is remembered of the last push is found by the next one, so that two pushes after
one another go together. -/
theorem isChain_pushes_of {R : PayBuffer × PayBuffer → PayBuffer × PayBuffer → Prop}
    {Last : StartedState → Option (PayBuffer × PayBuffer) → Prop}
    (hnew : Last StartedState.default none)
    (hquiet : ∀ st st' last, st'.prevInputPts = st.prevInputPts →
      st'.prevOutputPts = st.prevOutputPts → Last st last → Last st' last)
    (hpush : ∀ (input : Input) st last n c off p, Last st last → input.buffer.pts = some n →
      correctedInputPts checks settings input.systemTime n st.ptsOffsetNanos = some (c, off) →
      Outputs st c p → (∀ q, st.prevOutputPts = ⟨some q⟩ → q ≤ p) →
      (∀ a, last = some a → R a (input.buffer, outputBuffer input.buffer ⟨some p⟩ off)) ∧
        Last ⟨c, ⟨some p⟩, off⟩ (some (input.buffer, outputBuffer input.buffer ⟨some p⟩ off)))
    (inputs : List Input) : (pushes checks settings inputs).IsChain R := by
  have hstart : Element.Remembers Last Element.new none := by
    refine ⟨consistent_new, ?_⟩
    rintro _ ⟨⟩
    exact hnew
  refine Calls.isChain_emitted hstart ?_ ?_ inputs
  · rintro input elem last ⟨helem, hlast⟩ hemit
    refine ⟨chain_consistent input elem helem, ?_⟩
    obtain ⟨h, _⟩ | ⟨st, answer, st', rfl, h, hcalled⟩ :=
      chain_called checks settings input helem
    · rw [h]
      intro st hst
      cases hst
    · rw [h] at hemit ⊢
      rintro _ ⟨⟩
      obtain ⟨_, hin, hout⟩ | ⟨_, _, _, p, _, _, _, _, rfl, _⟩ := hcalled.push
      · exact hquiet _ _ _ hin hout (hlast st rfl)
      · cases hemit
  · rintro input elem last b ⟨helem, hlast⟩ hemit
    obtain ⟨h, _⟩ | ⟨st, answer, st', rfl, h, hcalled⟩ :=
      chain_called checks settings input helem
    · rw [h] at hemit
      cases hemit
    · rw [h] at hemit
      obtain ⟨hnone, _⟩ | ⟨n, _, off, p, hpts, hc, hp, hle, rfl, rfl⟩ := hcalled.push
      · rw [hnone] at hemit
        cases hemit
      · cases hemit
        obtain ⟨hR, hnext⟩ := hpush input st last n _ off p (hlast st rfl) hpts hc hp hle
        refine ⟨hR, chain_consistent input _ helem, ?_⟩
        rw [h]
        rintro _ ⟨⟩
        exact hnext

/-- The last PTS given out is remembered. -/
def LastTime (st : StartedState) (last : Option (PayBuffer × PayBuffer)) : Prop :=
  ∀ a, last = some a → ∃ p, a.2.pts = ClockTime.stored (some p) ∧ st.prevOutputPts = ⟨some p⟩

theorem lastTime_new : LastTime StartedState.default none := by
  intro a ha
  cases ha

/-- Of two PTS after one another the second is not lower. -/
theorem isChain_pts (inputs : List Input) :
    (pushes checks settings inputs).IsChain
      fun a b => ∀ p q, a.2.pts = some p → b.2.pts = some q → p ≤ q := by
  refine isChain_pushes_of lastTime_new ?_ ?_ inputs
  · intro st st' last _ hout hlast
    rw [LastTime, hout]
    exact hlast
  · intro input st last n c off p hlast _ _ _ hle
    refine ⟨fun a ha q q' hq hq' => ?_, ?_⟩
    · obtain ⟨r, hr, hout⟩ := hlast a ha
      cases (ClockTime.stored_eq_some_iff.mp (hr.symm.trans hq)).1
      cases (ClockTime.stored_eq_some_iff.mp hq').1
      exact hle _ hout
    · rintro _ ⟨⟩
      exact ⟨p, rfl, rfl⟩

end Run

/-! ## The number that stands for none -/

/-- The call does not reckon with the number that stands for none: it is neither the
converted PTS nor, where a correction is due, the last output with the correction. -/
def InTime (checks : Bool) (settings : Settings) (input : Input) (elem : Element) : Prop :=
  ∀ st n c off, elem = some st → input.buffer.pts = some n →
    correctedInputPts checks settings input.systemTime n st.ptsOffsetNanos = some (c, off) →
    c ≠ some GST_CLOCK_TIME_NONE ∧
    ∀ q, st.prevInputPts ≠ none → st.prevInputPts ≠ c → st.prevOutputPts = ⟨some q⟩ →
      (⟨c⟩ : PravegaTimestamp) ≤ ⟨some q⟩ → q.toNat + 15000000 ≠ 2 ^ 64 - 1

/-- An answer does not hand on a buffer without a PTS. -/
def Answer.HasPts (answer : Answer) : Prop := ∀ b, answer.buffer? = some b → b.pts ≠ none

/-- What is remembered could be stored. -/
def StartedState.Storable (st : StartedState) : Prop :=
  st.prevInputPts ≠ some GST_CLOCK_TIME_NONE ∧
    st.prevOutputPts ≠ ⟨some GST_CLOCK_TIME_NONE⟩

def Element.Storable (elem : Element) : Prop :=
  elem.Consistent ∧ ∀ st, elem = some st → st.Storable

section Stored

variable {st : StartedState} {c : ClockTime} {p q : UInt64}

theorem correction_eq_none_iff :
    asU64 (q.toNat + 15000000) = GST_CLOCK_TIME_NONE ↔ q.toNat + 15000000 = 2 ^ 64 - 1 := by
  have h := asU64_toNat (q.toNat + 15000000)
  have hq := q.toNat_lt
  have hnone : GST_CLOCK_TIME_NONE.toNat = 2 ^ 64 - 1 := rfl
  rw [← UInt64.toNat_inj]
  omega

theorem Outputs.ne_none_iff (h : Outputs st c p) (hst : st.Storable) :
    p ≠ GST_CLOCK_TIME_NONE ↔ c ≠ some GST_CLOCK_TIME_NONE ∧
      ∀ q, st.prevInputPts ≠ none → st.prevInputPts ≠ c → st.prevOutputPts = ⟨some q⟩ →
        (⟨c⟩ : PravegaTimestamp) ≤ ⟨some q⟩ → q.toNat + 15000000 ≠ 2 ^ 64 - 1 := by
  obtain ⟨hstin, hstout⟩ := hst
  cases h with
  | first hin hc =>
      rw [hc, (Option.some_injective _).ne_iff]
      exact (and_iff_left fun _ hsome => absurd hin hsome).symm
  | repeated hin hc hout =>
      refine iff_of_true ?_ ⟨hc ▸ hstin, fun _ _ hne => absurd hc hne⟩
      rintro rfl
      exact hstout hout
  | increased hin hne hc hlt =>
      rw [hc, (Option.some_injective _).ne_iff]
      refine (and_iff_left fun q _ _ hout hle => ?_).symm
      rw [hout] at hlt
      exact absurd hlt (not_lt.mpr hle)
  | @corrected q hin hne hout hle hp =>
      rw [hp, ne_eq, correction_eq_none_iff]
      constructor
      · refine fun hfits => ⟨?_, fun q' _ _ hout' _ => ?_⟩
        · rintro rfl
          rw [← not_lt, lt_some_iff, UInt64.not_lt] at hle
          have hq := UInt64.le_antisymm (le_GST_CLOCK_TIME_NONE q) hle
          exact hstout (hq ▸ hout)
        · cases hout.symm.trans hout'
          exact hfits
      · rintro ⟨_, hfits⟩
        exact hfits q (Option.isSome_iff_ne_none.mp hin) hne hout hle

variable {checks : Bool} {settings : Settings}

/-- A call from a state that could be stored pushes no buffer without a PTS exactly if it
does not reckon with that number. -/
theorem hasPts_iff (input : Input) (elem : Element) (helem : elem.Storable) :
    (chain checks settings input elem).1.HasPts ↔ InTime checks settings input elem := by
  obtain ⟨hpanic, hcall⟩ | ⟨st, answer, st', rfl, hcall, hcalled⟩ :=
    chain_called checks settings input helem.1
  · rw [hpanic]
    refine iff_of_true nofun ?_
    rintro st n c off hst hpts hc
    obtain ⟨n', hpts', hnone⟩ := hcall st hst
    cases hpts.symm.trans hpts'
    cases hc.symm.trans hnone
  · have hst := helem.2 st rfl
    rw [hcall]
    cases hcalled with
    | untimed hpts =>
        refine iff_of_true nofun ?_
        rintro _ n c off ⟨⟩ hpts'
        cases hpts.symm.trans hpts'
    | unconverted hpts hc hin hanswer _ =>
        refine iff_of_true (fun b hb => ?_) ?_
        · cases hanswer.symm.trans hb
        · rintro _ n c off ⟨⟩ hpts' hc'
          cases hpts.symm.trans hpts'
          cases hc.symm.trans hc'
          exact ⟨nofun, fun _ hsome => absurd hin hsome⟩
    | refused hpts hc hp hq hlt =>
        refine iff_of_true nofun ?_
        rintro _ n c off ⟨⟩ hpts' hc'
        cases hpts.symm.trans hpts'
        cases hc.symm.trans hc'
        refine (hp.ne_none_iff hst).mp ?_
        rintro rfl
        exact absurd hlt (UInt64.not_lt.mpr (le_GST_CLOCK_TIME_NONE _))
    | pushed hpts hc hp hle =>
        constructor
        · rintro h _ n c off ⟨⟩ hpts' hc'
          cases hpts.symm.trans hpts'
          cases hc.symm.trans hc'
          refine (hp.ne_none_iff hst).mp ?_
          rintro rfl
          exact h _ rfl rfl
        · rintro h _ ⟨⟩
          have hne := (hp.ne_none_iff hst).mpr (h st _ _ _ rfl hpts hc)
          rw [outputBuffer_pts_of_ne hne]
          exact Option.some_ne_none _

theorem chain_storable (input : Input) (elem : Element) (helem : elem.Storable)
    (h : (chain checks settings input elem).1.HasPts) :
    (chain checks settings input elem).2.Storable := by
  refine ⟨chain_consistent input elem helem.1, ?_⟩
  obtain ⟨hpanic, _⟩ | ⟨st, answer, st', rfl, hcall, hcalled⟩ :=
    chain_called checks settings input helem.1
  · rw [hpanic]
    intro st hst
    cases hst
  · have hst := helem.2 st rfl
    rw [hcall] at h ⊢
    rintro _ ⟨⟩
    obtain ⟨_, hin, hout⟩ | ⟨n, c, off, p, _, _, hp, _, rfl, rfl⟩ := hcalled.push
    · rw [StartedState.Storable, hin, hout]
      exact hst
    · have hne : p ≠ GST_CLOCK_TIME_NONE := by
        rintro rfl
        exact h _ rfl rfl
      refine ⟨((hp.ne_none_iff hst).mp hne).1, fun hp' => hne ?_⟩
      cases hp'
      rfl

theorem storable_new : Element.new.Storable := by
  refine ⟨consistent_new, ?_⟩
  rintro _ ⟨⟩
  exact ⟨nofun, nofun⟩

/-- In which runs every buffer that is pushed has a PTS. -/
theorem forall_pushes_iff (inputs : List Input) :
    (∀ x ∈ pushes checks settings inputs, x.2.pts ≠ none) ↔
      Calls.Every (chain checks settings) (InTime checks settings) inputs Element.new := by
  have hcalls : Calls.Every (chain checks settings)
      (fun input elem => (chain checks settings input elem).1.HasPts) inputs Element.new ↔
        Calls.Every (chain checks settings) (InTime checks settings) inputs Element.new :=
    Calls.every_iff (A := fun _ _ => True) chain_storable storable_new
      (fun input elem helem _ => hasPts_iff input elem helem) fun _ _ _ _ => trivial
  rw [← hcalls, Calls.every_answer_iff (P := Answer.HasPts), pushes,
    List.forall_mem_filterMap]
  refine forall₂_congr fun x _ => ⟨fun h b hb => ?_, fun h x' hx' => ?_⟩
  · exact h (x.1.buffer, b) (by rw [hb]; rfl)
  · obtain ⟨b, hb, rfl⟩ := Option.map_eq_some_iff.mp hx'
    exact h b hb

end Stored

/-! ## Runs whose buffers have PTS -/

section Times

variable {checks : Bool} {settings : Settings}

/-- The PTS of the buffers that a run pushes. -/
def times (checks : Bool) (settings : Settings) (inputs : List Input) : List UInt64 :=
  (pushes checks settings inputs).filterMap fun x => x.2.pts

theorem pts_pushes {inputs : List Input}
    (h : ∀ x ∈ pushes checks settings inputs, x.2.pts ≠ none) :
    (pushes checks settings inputs).map (fun x => x.2.pts) =
      (times checks settings inputs).map some := by
  rw [times, List.map_filterMap_some_eq_filter_map_isSome, List.filter_eq_self.mpr]
  rintro _ hpts
  obtain ⟨x, hx, rfl⟩ := List.mem_map.mp hpts
  exact Option.isSome_iff_ne_none.mpr (h x hx)

theorem pairwise_times {inputs : List Input}
    (h : ∀ x ∈ pushes checks settings inputs, x.2.pts ≠ none) :
    (times checks settings inputs).Pairwise (· ≤ ·) := by
  have hchain : ((pushes checks settings inputs).map fun x => x.2.pts).IsChain
      fun x y => ∀ p q, x = some p → y = some q → p ≤ q :=
    (List.isChain_map _).mpr (isChain_pts inputs)
  rw [pts_pushes h, List.isChain_map] at hchain
  exact List.isChain_iff_pairwise.mp (hchain.imp fun p q h => h p q rfl rfl)

end Times

/-! ## tai mode -/

section Tai

variable {checks : Bool} {settings : Settings} {st st' : StartedState} {input : Input}
  {answer : Answer} {m n p q : UInt64}

theorem toNat_correction (hlt : q.toNat + 15000000 < 2 ^ 64) :
    (asU64 (q.toNat + 15000000)).toNat = q.toNat + 15000000 := by
  have h := asU64_of_range (n := q.toNat + 15000000) (by omega) (by omega)
  omega

/-- A correction that does not fit is below what it corrects. -/
theorem correction_lt_iff :
    asU64 (q.toNat + 15000000) < q ↔ 2 ^ 64 ≤ q.toNat + 15000000 := by
  have h := asU64_toNat (q.toNat + 15000000)
  have hq := q.toNat_lt
  rw [UInt64.lt_iff_toNat_lt]
  omega

theorem correction_ne : asU64 (q.toNat + 15000000) ≠ q := by
  intro heq
  have h := asU64_toNat (q.toNat + 15000000)
  have hq := q.toNat_lt
  rw [heq] at h
  omega

theorem Outputs.of_first (h : Outputs st (some n) p) (hin : st.prevInputPts = none) :
    n = p := by
  cases h with
  | first _ hc => exact Option.some_inj.mp hc
  | repeated hsome _ _ => rw [hin] at hsome; cases hsome
  | increased hsome _ _ _ => rw [hin] at hsome; cases hsome
  | corrected hsome _ _ _ _ => rw [hin] at hsome; cases hsome

/-- While the output is not behind the input, it is ahead of it or follows it. -/
theorem Outputs.together (h : Outputs st (some n) p) (hin : st.prevInputPts = some m)
    (hout : st.prevOutputPts = ⟨some q⟩) (hle : m ≤ q) (hpq : q ≤ p) :
    (q = p ↔ m = n) ∧ (q < n → p = n) ∧ n ≤ p := by
  cases h with
  | first hnone _ => cases hin.symm.trans hnone
  | repeated _ hc hp =>
      cases hin.symm.trans hc
      cases hout.symm.trans hp
      exact ⟨iff_of_true rfl rfl, fun hlt => absurd hlt (UInt64.not_lt.mpr hle), hle⟩
  | increased _ hne hc hlt =>
      cases hc
      rw [hout, lt_some_iff] at hlt
      refine ⟨iff_of_false ?_ ?_, fun _ => rfl, UInt64.le_refl _⟩
      · rintro rfl
        exact UInt64.lt_irrefl _ hlt
      · rintro rfl
        exact UInt64.lt_irrefl _ (UInt64.lt_of_lt_of_le hlt hle)
  | corrected _ hne hq hle' hp =>
      cases hout.symm.trans hq
      have hnq : n ≤ q := by
        rw [← not_lt, lt_some_iff, UInt64.not_lt] at hle'
        exact hle'
      refine ⟨iff_of_false ?_ ?_, fun hlt => absurd hlt (UInt64.not_lt.mpr hnq), ?_⟩
      · intro heq
        exact correction_ne (hp.symm.trans heq.symm)
      · rintro rfl
        exact hne hin
      · exact UInt64.le_trans hnq hpq

theorem correctedInputPts_tai (hmode : settings.inputTimestampMode = .tai)
    (systemTime : Int) (n : UInt64) (off : Option Int) :
    correctedInputPts checks settings systemTime n off = some (some n, off) := by
  rw [correctedInputPts, hmode]

/-- The input and the output of the last push are remembered. -/
def LastPush (st : StartedState) (last : Option (PayBuffer × PayBuffer)) : Prop :=
  (last = none → st.prevInputPts = none) ∧
    ∀ a, last = some a → ∃ m q, a.1.pts = some m ∧ a.2.pts = ClockTime.stored (some q) ∧
      m ≤ q ∧ st.prevInputPts = some m ∧ st.prevOutputPts = ⟨some q⟩

theorem lastPush_new : LastPush StartedState.default none := by
  refine ⟨fun _ => rfl, ?_⟩
  intro a ha
  cases ha

/-- What two pushes after one another have to do with each other. -/
def Together (a b : PayBuffer × PayBuffer) : Prop :=
  (a.2.pts = b.2.pts ↔ a.1.pts = b.1.pts) ∧
    ∀ q n, a.2.pts = some q → b.1.pts = some n → q < n → b.2.pts = some n

theorem isChain_pushes (hmode : settings.inputTimestampMode = .tai) (inputs : List Input) :
    (pushes checks settings inputs).IsChain Together := by
  refine isChain_pushes_of lastPush_new ?_ ?_ inputs
  · intro st st' last hin hout hlast
    rw [LastPush, hin, hout]
    exact hlast
  · intro input st last n c off p hlast hpts hc hp hle
    cases (correctedInputPts_tai hmode _ _ _).symm.trans hc
    obtain ⟨hfirst, hnext⟩ := hlast
    have hpair : ∀ a, last = some a →
        Together a (input.buffer, outputBuffer input.buffer ⟨some p⟩ st.ptsOffsetNanos) ∧
          n ≤ p := by
      intro a ha
      obtain ⟨m, q, hm, hq, hmq, hin, hout⟩ := hnext a ha
      obtain ⟨hsame, hahead, hnp⟩ := hp.together hin hout hmq (hle q hout)
      refine ⟨⟨?_, fun q' n' hq' hn' hlt => ?_⟩, hnp⟩
      · rw [hm, hq, hpts, Option.some_inj, ← hsame]
        exact ClockTime.stored_some_inj
      · cases (ClockTime.stored_eq_some_iff.mp (hq.symm.trans hq')).1
        cases hpts.symm.trans hn'
        rw [hahead hlt]
        exact ClockTime.stored_of_ne (hpts ▸ input.buffer.pts_ne)
    have hnp : n ≤ p := by
      cases last with
      | none =>
          rw [hp.of_first (hfirst rfl)]
          exact UInt64.le_refl p
      | some a => exact (hpair a rfl).2
    refine ⟨fun a ha => (hpair a ha).1, ?_, ?_⟩
    · intro hnone
      cases hnone
    · rintro _ ⟨⟩
      exact ⟨n, p, hpts, rfl, hnp, rfl, rfl⟩

/-- **Where the output of the element does not decrease and keeps frames together.** In a
run every buffer that is pushed has a PTS and these do not decrease, and in tai mode two
buffers pushed after one another have the same PTS exactly when they came with the same
one, and a buffer keeps a PTS that exceeds the one given out before it, if and only if no
call reckons with the number that stands for none. -/
theorem output_monotone_together_iff (checks : Bool) (settings : Settings)
    (inputs : List Input) :
    ((∃ times : List UInt64,
      (pushes checks settings inputs).map (fun x => x.2.pts) = times.map some ∧
      times.Pairwise (· ≤ ·)) ∧
    (settings.inputTimestampMode = .tai →
      (pushes checks settings inputs).IsChain fun a b =>
        (a.2.pts = b.2.pts ↔ a.1.pts = b.1.pts) ∧
        ∀ q n, a.2.pts = some q → b.1.pts = some n → q < n → b.2.pts = some n)) ↔
    Calls.Every (chain checks settings) (InTime checks settings) inputs Element.new := by
  rw [← forall_pushes_iff]
  constructor
  · rintro ⟨⟨times, htimes, _⟩, _⟩ x hx hnone
    have hmem : none ∈ times.map some := by
      rw [← htimes, ← hnone]
      exact List.mem_map_of_mem hx
    obtain ⟨_, _, h⟩ := List.mem_map.mp hmem
    cases h
  · exact fun h => ⟨⟨_, pts_pushes h, pairwise_times h⟩, fun hmode => isChain_pushes hmode inputs⟩

/-! ## Behind another one -/

/-- Where the output is the input so far, a PTS that is not lower is the output. -/
theorem Outputs.eq_of_le (h : Outputs st (some n) p)
    (hst : st.prevOutputPts = ⟨st.prevInputPts⟩)
    (hle : ∀ m, st.prevInputPts = some m → m ≤ n) : p = n := by
  cases h with
  | first _ hc => exact (Option.some_inj.mp hc).symm
  | repeated _ hc hp =>
      rw [hst, hc] at hp
      cases hp
      rfl
  | increased _ _ hc _ => exact (Option.some_inj.mp hc).symm
  | @corrected q _ hne hq hnq _ =>
      have hin : st.prevInputPts = some q := by
        rw [hst] at hq
        exact congrArg PravegaTimestamp.nanoseconds hq
      have hnq : n ≤ q := by
        rw [← not_lt, lt_some_iff, UInt64.not_lt] at hnq
        exact hnq
      exact absurd (hin.trans (congrArg some (UInt64.le_antisymm (hle q hin) hnq))) hne

theorem outputBuffer_self {buffer : PayBuffer} (hpts : buffer.pts = some n) :
    outputBuffer buffer ⟨some n⟩ none = buffer := by
  have hstore : ClockTime.store (some n) = buffer.storedPts := by
    rw [← hpts]
    exact buffer.storedPts.store_time
  obtain ⟨⟨pts, duration, flags, payload, readable, offset, offsetEnd⟩, ⟨dts, hdts⟩⟩ := buffer
  cases hstore
  cases dts <;> rfl

/-- One call that corrects nothing. -/
theorem chain_unchanged (hmode : settings.inputTimestampMode = .tai)
    (hst : st.prevOutputPts = ⟨st.prevInputPts⟩) (hoff : st.ptsOffsetNanos = none)
    (hpts : input.buffer.pts = some n) (hle : ∀ m, st.prevInputPts = some m → m ≤ n) :
    chain checks settings input (some st) =
      (.pushed input.buffer, some ⟨some n, ⟨some n⟩, none⟩) := by
  have helem : Element.Consistent (some st) := by
    rintro _ ⟨⟩ hin
    obtain ⟨m, hm⟩ := Option.isSome_iff_exists.mp hin
    exact ⟨m, by rw [hst, hm]⟩
  obtain ⟨p, hp, ⟨_, q, hq, hlt⟩ | ⟨h, _⟩⟩ :=
    chain_of_converted helem hpts (correctedInputPts_tai hmode _ _ _)
  · have hin : st.prevInputPts = some q := by
      rw [hst] at hq
      exact congrArg PravegaTimestamp.nanoseconds hq
    rw [hp.eq_of_le hst hle] at hlt
    exact absurd hlt (UInt64.not_lt.mpr (hle q hin))
  · rw [h, hp.eq_of_le hst hle, hoff, outputBuffer_self hpts]

/-- The run. The induction is on the calls. -/
theorem answers_unchanged (hmode : settings.inputTimestampMode = .tai)
    (inputs : List Input) : ∀ {times : List UInt64} {st : StartedState},
      st.prevOutputPts = ⟨st.prevInputPts⟩ → st.ptsOffsetNanos = none →
      inputs.map (fun i => i.buffer.pts) = times.map some →
      (st.prevInputPts.toList ++ times).Pairwise (· ≤ ·) →
      Calls.answers (chain checks settings) inputs (some st) =
        inputs.map fun i => .pushed i.buffer := by
  induction inputs with
  | nil => exact fun _ _ _ _ => rfl
  | cons input inputs ih =>
      intro times st hst hoff htimes hsorted
      obtain ⟨n, times, rfl, hpts, htimes⟩ := List.map_eq_cons_iff.mp htimes.symm
      obtain ⟨_, hrest, hbefore⟩ := List.pairwise_append.mp hsorted
      have hle : ∀ m, st.prevInputPts = some m → m ≤ n := fun m hm =>
        hbefore m (by simp [hm]) n List.mem_cons_self
      rw [Calls.answers_cons, chain_unchanged hmode hst hoff hpts.symm hle, List.map_cons]
      exact congrArg _ (ih rfl rfl htimes.symm hrest)

/-- A buffer without a PTS is not pushed. -/
theorem pts_ne_none_of_answers (inputs : List Input) : ∀ {elem : Element}
    {buffers : List PayBuffer},
    Calls.answers (chain checks settings) inputs elem = buffers.map .pushed →
    ∀ i ∈ inputs, i.buffer.pts ≠ none := by
  induction inputs with
  | nil => exact fun _ => nofun
  | cons input inputs ih =>
      intro elem buffers h
      rw [Calls.answers_cons] at h
      obtain ⟨buffer, buffers, rfl, hfirst, hrest⟩ := List.map_eq_cons_iff.mp h.symm
      refine List.forall_mem_cons.mpr ⟨fun hnone => ?_, ih hrest.symm⟩
      cases elem with
      | none => cases hfirst
      | some st =>
          rw [chain, sinkChain, hnone] at hfirst
          cases hfirst

/-- **Where a second element in tai mode changes nothing.** Buffers with the PTS that a run
gave out, whatever its mode, are all pushed with the same PTS by a new element in tai mode,
if and only if no call of the run reckons with the number that stands for none. -/
theorem tai_behind_iff (checks checks' : Bool) (settings : Settings) (startTimestamp : UInt64)
    (inputs : List Input) :
    (∀ inputs' : List Input, inputs'.map (fun i => i.buffer.pts) =
        (pushes checks settings inputs).map (fun x => x.2.pts) →
      ∃ buffers : List PayBuffer,
        Calls.answers (chain checks' ⟨.tai, startTimestamp⟩) inputs' Element.new =
          buffers.map .pushed ∧
        buffers.map (fun b => b.pts) = inputs'.map fun i => i.buffer.pts) ↔
    Calls.Every (chain checks settings) (InTime checks settings) inputs Element.new := by
  rw [← forall_pushes_iff]
  constructor
  · intro h x hx
    obtain ⟨buffers, hpushed, _⟩ :=
      h ((pushes checks settings inputs).map fun x => ⟨0, x.2⟩) (by rw [List.map_map]; rfl)
    exact pts_ne_none_of_answers _ hpushed _ (List.mem_map_of_mem hx)
  · intro h inputs' hpts
    rw [pts_pushes h] at hpts
    have hpushed : Calls.answers (chain checks' ⟨.tai, startTimestamp⟩) inputs' Element.new =
        inputs'.map fun i => .pushed i.buffer :=
      answers_unchanged rfl inputs' rfl rfl hpts (pairwise_times h)
    refine ⟨inputs'.map fun i => i.buffer, ?_, List.map_map⟩
    rw [hpushed, List.map_map]
    rfl

end Tai

/-- A buffer with these times and nothing in it. -/
def timed (pts dts : ClockTime) : Input where
  systemTime := 0
  buffer := ⟨⟨pts.store, none, BufferFlags.empty, [], true, none, none⟩, dts.store⟩

/-- The converted PTS of the second buffer is -1 modulo `2 ^ 64`. -/
def belowFirst : List Input := [timed (some 10) none, timed (some 9) none]

theorem pushed_without_pts :
    (pushes true ⟨.startAtFixedTime, 0⟩ belowFirst).map (fun x => x.2.pts) =
      [some 0, none] ∧
    ¬ ∃ times : List UInt64, (pushes true ⟨.startAtFixedTime, 0⟩ belowFirst).map
      (fun x => x.2.pts) = times.map some ∧ times.Pairwise (· ≤ ·) := by
  have hpts : (pushes true ⟨.startAtFixedTime, 0⟩ belowFirst).map (fun x => x.2.pts) =
      [some 0, none] := by
    decide +kernel
  refine ⟨hpts, ?_⟩
  rintro ⟨times, htimes, _⟩
  rw [hpts] at htimes
  have hmem : none ∈ times.map some := htimes ▸ List.mem_cons_of_mem _ List.mem_cons_self
  obtain ⟨_, _, h⟩ := List.mem_map.mp hmem
  cases h

/-- The second element drops the second buffer. -/
theorem tai_drops_behind :
    ¬ ∀ inputs : List Input, inputs.map (fun i => i.buffer.pts) =
        (pushes true ⟨.startAtFixedTime, 0⟩ belowFirst).map (fun x => x.2.pts) →
      ∃ buffers : List PayBuffer,
        Calls.answers (chain true ⟨.tai, 0⟩) inputs Element.new = buffers.map .pushed ∧
        buffers.map (fun b => b.pts) = inputs.map fun i => i.buffer.pts := by
  intro h
  obtain ⟨buffers, hpushed, _⟩ := h [timed (some 0) none, timed none none] (by decide +kernel)
  have hdropped : Answer.dropped ∈ buffers.map Answer.pushed := by
    rw [← hpushed]
    decide +kernel
  obtain ⟨_, _, hbuffer⟩ := List.mem_map.mp hdropped
  cases hbuffer

end GstPravega.Plugin.TimestampCvt
