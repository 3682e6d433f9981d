import GstPravega.Proofs.Fates
import GstPravega.Proofs.IndexDecision
import GstPravega.Proofs.TimePartition

/-!
# When `render` returns well

With a client that does what it is asked and sums that fit, nothing in `render` panics: the
length of a fragment is the one `EventWriter` takes, and what is unwrapped is there. What
is left are the two refusals, of a buffer that cannot be read and of a record at time zero.
The decision to index looks at whether there is a timestamp and the index at whether it is
zero, and the two meet at a key frame of time zero that comes before every record.
-/

namespace GstPravega.Plugin.PravegaSink

open GstPravega.Lib GstPravega.Client GstPravega.Gst GstPravega.Video GstPravega.Lib.Program

open World

/-- The operations on the streams succeed. -/
def Succeeds : (c : SinkCmd) → c.Res → Prop
  | .append .., r => r = .ok ()
  | .flush _, r => r = .ok ()
  | .seal _, r => r = .ok ()
  | _, _ => True

/-- In a world where nothing has failed nothing had failed before, and the answer was that
of a success. -/
theorem Exec.succeeds {c : SinkCmd} {w w' : World} {r : c.Res} (h : Exec c w r w')
    (hw : w'.failed = false) : Succeeds c r ∧ w.failed = false := by
  cases c with
  | append s bytes =>
      rcases h with ⟨rfl, _, rfl⟩ | ⟨_, rfl⟩
      · cases s with
        | data => exact ⟨rfl, hw⟩
        | index => exact ⟨rfl, hw⟩
      · cases hw
  | flush s =>
      rcases h with ⟨rfl, rfl⟩ | ⟨_, rfl⟩
      · cases s with
        | data => exact ⟨rfl, hw⟩
        | index => exact ⟨rfl, hw⟩
      · cases hw
  | «seal» s =>
      rcases h with ⟨rfl, rfl⟩ | ⟨_, rfl⟩
      · exact ⟨rfl, hw⟩
      · cases hw
  | seekToTail s => exact ⟨trivial, h.1 ▸ hw⟩
  | createClientConfig controller file => exact ⟨trivial, (show w' = w from h) ▸ hw⟩
  | createScope scope => exact ⟨trivial, (show w' = w from h) ▸ hw⟩
  | createStream scope stream => exact ⟨trivial, (show w' = w from h) ▸ hw⟩
  | spawnRetention limits interval => exact ⟨trivial, (show w' = w from h) ▸ hw⟩
  | joinRetention => exact ⟨trivial, (show w' = w from h) ▸ hw⟩

theorem Outcome.unfailed {α : Type} {p : SinkProgram α} {w w' : World} {a : α}
    (h : Outcome (arena .ordered) p w a w') (hw : w'.failed = false) : w.failed = false := by
  refine h.before (fun w => w.failed = false) (fun s s' hs hg => ?_)
    (fun c s r s' he hg => (Exec.succeeds he hg).2) hw
  rw [← hs.failed, hg]

theorem Given.unfailed {α : Type} {p : SinkProgram α} {Q : α → Prop} {w w' : World} {a : α}
    (hp : Given Succeeds Q p) (h : Outcome (arena .ordered) p w a w')
    (hw : w'.failed = false) : Q a := by
  refine hp.outcome (fun w => w.failed = false) (fun s s' hs hg => ?_)
    (fun c s r s' he hg => Exec.succeeds he hg) h hw
  rw [← hs.failed, hg]

/-! ## Nothing panics -/

/-- With such answers the code does not panic, and what it gives is `Q`. -/
def Calm {α : Type} (m : SinkM α) (Q : α → Prop) : Prop :=
  ∀ st : Started, Given Succeeds
    (fun x => x.1 ≠ .error .panicked ∧ ∀ a, x.1 = .ok a → Q a) (m.run.run st)

section Calm

variable {α β : Type} {Q : α → Prop}

theorem calm_ok {a : α} (h : Q a) : (Except.ok a : Except Failure α) ≠ .error .panicked ∧
    ∀ b, (Except.ok a : Except Failure α) = .ok b → Q b := by
  refine ⟨by simp, fun b hb => ?_⟩
  injection hb with hb
  exact hb ▸ h

theorem calm_pure {a : α} (h : Q a) : Calm (pure a : SinkM α) Q := fun _ => calm_ok h

theorem calm_throw {e : Failure} (h : e ≠ .panicked) : Calm (throw e : SinkM α) Q := by
  refine fun st => ⟨fun he => ?_, fun b hb => nomatch hb⟩
  injection he with he
  exact h he

theorem calm_get : Calm (get : SinkM Started) fun _ => True := fun _ => calm_ok trivial

theorem calm_modify {f : Started → Started} : Calm (modify f : SinkM PUnit) fun _ => True :=
  fun _ => calm_ok trivial

theorem calm_bind {m : SinkM α} {f : α → SinkM β} {Q : β → Prop} {P : α → Prop}
    (hm : Calm m P) (hf : ∀ a, P a → Calm (f a) Q) : Calm (m >>= f) Q := by
  intro st
  refine given_bind ((hm st).mono ?_)
  rintro ⟨e | a, st'⟩ ⟨hpanic, hok⟩
  · refine ⟨fun he => ?_, fun b hb => nomatch hb⟩
    injection he with he
    exact hpanic (congrArg Except.error he)
  · exact hf a (hok a rfl) st'

theorem calm_command {c : SinkCmd} : Calm (SinkM.command c) (Succeeds c) :=
  fun _ _ hr => calm_ok hr

theorem given_flushBuf {b : BufWriter} :
    Given Succeeds (fun x => x.1 = .ok ()) b.flushBuf := by
  rw [BufWriter.flushBuf]
  split
  · exact rfl
  · rintro r rfl
    exact rfl

theorem given_writeThrough {b : BufWriter} {bytes : List UInt8} :
    Given Succeeds (fun x => x.1 = .ok ()) (b.writeThrough bytes) := by
  rw [BufWriter.writeThrough]
  split
  · exact fun r hr => hr
  · exact rfl

theorem given_bufWrite {b : BufWriter} {bytes : List UInt8} :
    Given Succeeds (fun x => x.1 = .ok ()) (b.write bytes) := by
  rw [BufWriter.write]
  split
  · exact rfl
  split
  · refine given_bind (given_flushBuf.mono ?_)
    rintro ⟨r, b'⟩ rfl
    exact given_writeThrough
  · exact given_writeThrough

theorem calm_writeAll {bytes : List UInt8} :
    Calm (SinkM.onWriter fun writer => writer.writeAll bytes) (· = .ok ()) := by
  refine fun st => given_bind (given_bind (given_bufWrite.mono ?_))
  rintro ⟨r, b⟩ rfl
  exact calm_ok rfl

theorem calm_flush : Calm (SinkM.onWriter CountingWriter.flush) (· = .ok ()) := by
  refine fun st => given_bind (given_bind (given_bind (given_flushBuf.mono ?_)))
  rintro ⟨r, b⟩ rfl
  rintro r rfl
  exact calm_ok rfl

theorem calm_orFail {domain : ErrorDomain} {text : String} {r : Except IoError Unit} :
    Calm (SinkM.orFail domain text r) fun _ => True := by
  cases r with
  | ok u => exact calm_pure trivial
  | error e => exact calm_throw (by simp)

theorem calm_unwrap {r : Except IoError Unit} (h : r = .ok ()) :
    Calm (SinkM.unwrap r) fun _ => True := by
  subst h
  exact calm_pure trivial

theorem calm_flushStreams {wanted : Bool} : Calm (flushStreams wanted) fun _ => True := by
  rw [flushStreams]
  split
  · refine calm_bind (P := fun _ => True) ?_ fun _ _ => ?_
    · exact calm_bind calm_flush fun _ _ => calm_orFail
    · exact calm_bind calm_command fun _ _ => calm_orFail
  · exact calm_pure trivial

theorem calm_writeBufferRecord {timestamp : PravegaTimestamp} {offset : Nat} {i r d : Bool} :
    Calm (writeBufferRecord timestamp offset i r d) fun _ => True := by
  rw [writeBufferRecord]
  split
  · refine calm_bind (P := fun _ => True) ?_ fun _ _ => calm_modify
    rw [writeIndexRecord]
    split
    · exact calm_throw (by simp)
    · exact calm_bind calm_command fun _ hr => calm_unwrap hr
  · exact calm_pure trivial

theorem calm_writeFragments {timestamp : PravegaTimestamp} {i r d : Bool}
    {payload : List UInt8} (fuel : Nat) :
    ∀ pos, Calm (writeFragments timestamp i r d payload fuel pos) fun _ => True := by
  induction fuel with
  | zero => exact fun _ => calm_throw (by simp)
  | succ fuel ih =>
      intro pos
      rw [writeFragments]
      dsimp only
      split
      · exact calm_pure trivial
      split
      · exact calm_throw (by simp)
      · refine calm_bind calm_writeAll fun _ hr => ?_
        exact calm_bind (calm_unwrap hr) fun _ _ => ih _

theorem calm_renderIndexed {checks : Bool} {buffer : Buffer} {timestamp : PravegaTimestamp}
    {offset : Nat} {included : Bool}
    (hfinal : ∀ old, ∃ new, finalTimestampOf checks timestamp old buffer.duration = some new) :
    Calm (renderIndexed checks buffer timestamp offset included) fun _ => True := by
  refine calm_bind calm_flushStreams fun _ _ => ?_
  refine calm_bind calm_get fun _ _ => ?_
  refine calm_bind calm_writeBufferRecord fun _ _ => ?_
  refine calm_bind (calm_writeFragments _ _) fun _ _ => ?_
  refine calm_bind calm_modify fun _ _ => ?_
  refine calm_bind calm_get fun _ _ => ?_
  refine calm_bind calm_flushStreams fun _ _ => ?_
  refine calm_bind calm_get fun st _ => ?_
  obtain ⟨new, hnew⟩ := hfinal st.finalTimestamp
  rw [hnew]
  refine calm_bind (P := fun _ => True) (calm_pure trivial) fun _ _ => ?_
  exact calm_bind calm_modify fun _ _ => calm_modify

end Calm

/-! ## What `render` returns -/

/-- One `render` after another, each with what it returned. -/
inductive Tries {F : Type} (checks : Bool) (settings : Settings F) :
    List Input → List (Except Failure Unit) → Started → World → Started → World → Prop where
  | nil {st w} : Tries checks settings [] [] st w st w
  | cons {baseTime buffer bs x xs st w st' w' st'' w''} :
      Outcome (arena .ordered) (render checks settings baseTime buffer (.started st)) w
        (x, .started st') w' →
      Tries checks settings bs xs st' w' st'' w'' →
      Tries checks settings ((baseTime, buffer) :: bs) (x :: xs) st w st'' w''

section Render

variable {F : Type} {checks : Bool} {settings : Settings F} {baseTime : ClockTime}
  {buffer : Buffer} {st st' : Started} {E : List Event} {R : List Record} {w w' : World}

/-- `render` past its decision. -/
theorem renderStarted_run {timestamp : PravegaTimestamp} {included : Bool}
    (h : Decided checks settings baseTime buffer st timestamp included) :
    (renderStarted checks settings baseTime buffer).run.run st =
      (renderIndexed checks buffer timestamp st.writer.position included).run.run
        (st.noteValidTime timestamp) := by
  rw [renderStarted, if_pos h.readable, h.time]
  show ((SinkM.checked (includeInIndex checks settings.indexMinNanos settings.indexMaxNanos
    (st.noteValidTime timestamp).firstValidTime st.lastIndexTime timestamp
    buffer.flags.deltaUnit) >>= _).run.run (st.noteValidTime timestamp)) = _
  rw [h.decision]
  rfl

theorem given_render (h : fateOf settings st.firstValidTime st.lastIndexTime
      (baseTime, buffer) ≠ .overflow) :
    Given Succeeds (fun x => x.1 ≠ .error .panicked)
      (render checks settings baseTime buffer (.started st)) := by
  have hcalm : Given Succeeds (fun x => x.1 ≠ .error .panicked)
      ((renderStarted checks settings baseTime buffer).run.run st) := by
    cases hreadable : buffer.readable with
    | false =>
        rw [renderStarted, hreadable, if_neg Bool.false_ne_true]
        exact (calm_throw (Q := fun _ => True) (by simp) st).mono fun _ hx => hx.1
    | true =>
        obtain ⟨timestamp, included, hdecided, hfinal⟩ :=
          decided_of_fateOf checks h hreadable
        rw [renderStarted_run hdecided]
        exact (calm_renderIndexed hfinal _).mono fun _ hx => hx.1
  refine given_bind (hcalm.mono ?_)
  rintro ⟨e | u, st'⟩ hx
  · exact fun he => hx (congrArg _ (Except.error.inj he))
  · intro he
    cases he

/-- Two decisions on one buffer are the same. -/
theorem Decided.unique {timestamp timestamp' : PravegaTimestamp} {included included' : Bool}
    (h : Decided checks settings baseTime buffer st timestamp included)
    (h' : Decided checks settings baseTime buffer st timestamp' included') :
    timestamp = timestamp' ∧ included = included' := by
  have htime := Option.some.inj (h.time.symm.trans h'.time)
  subst htime
  exact ⟨rfl, Option.some.inj (h.decision.symm.trans h'.decision)⟩

/-- A `render` under which nothing has failed and no sum overflows: a buffer that is to be
written is, and another one is refused. -/
theorem outcome_render_fate {x : Except Failure Unit} (hview : View .ordered st w E R)
    (hsteady : Steady st E)
    (h : Outcome (arena .ordered) (render checks settings baseTime buffer (.started st)) w
      (x, .started st') w') (hfailed : w'.failed = false)
    (hfate : fateOf settings st.firstValidTime st.lastIndexTime (baseTime, buffer) ≠
      .overflow) :
    (x = .ok () ↔ ∃ timestamp included,
      fateOf settings st.firstValidTime st.lastIndexTime (baseTime, buffer) =
        .written timestamp included) ∧
    ∃ E' R', View .ordered st' w' E' R' ∧ Steady st' E' ∧
      st'.firstValidTime = (fateOf settings st.firstValidTime st.lastIndexTime
        (baseTime, buffer)).firstValidTime st.firstValidTime ∧
      st'.lastIndexTime = (fateOf settings st.firstValidTime st.lastIndexTime
        (baseTime, buffer)).lastIndexTime st.lastIndexTime := by
  rcases outcome_render hview h with ⟨rfl, hok⟩ | ⟨e, rfl, hfails⟩
  · obtain ⟨timestamp, included, E', R', hdecided, hrendered, hview'⟩ := hok
    obtain ⟨heq, hfirst, hlast⟩ := fateOf_rendered hfate hdecided hrendered
    refine ⟨⟨fun _ => ⟨timestamp, included, heq⟩, fun _ => rfl⟩, ?_⟩
    rw [heq]
    exact ⟨E', R', hview', hrendered.steady, hfirst, hlast⟩
  · have hpanic := Given.unfailed (given_render hfate) h hfailed
    obtain ⟨hview', hsteady', hrefused⟩ :=
      hfails.refused (fun he => hpanic (congrArg _ he)) hfailed hsteady
    obtain ⟨fate, heq, hcase, hfirst, hlast⟩ := fateOf_refused hfate hrefused
    refine ⟨⟨(fun hx => nomatch hx), ?_⟩, ?_⟩
    · rintro ⟨timestamp, included, hwritten⟩
      rw [heq] at hwritten
      subst hwritten
      rcases hcase with hc | ⟨_, hc⟩
      · cases hc
      · cases hc
    · rw [heq]
      exact ⟨E, R, hview', hsteady', hfirst, hlast⟩

variable {bs : List Input} {xs : List (Except Failure Unit)}

theorem Tries.unfailed (h : Tries checks settings bs xs st w st' w')
    (hfailed : w'.failed = false) : w.failed = false := by
  induction h with
  | nil => exact hfailed
  | cons hrender _ ih => exact Outcome.unfailed hrender (ih hfailed)

theorem Tries.ok_iff (h : Tries checks settings bs xs st w st' w') :
    ∀ {E R}, View .ordered st w E R → Steady st E → w'.failed = false →
      SumsFit settings st.firstValidTime st.lastIndexTime bs →
      ((∀ x ∈ xs, x = .ok ()) ↔
        ∀ x ∈ fates settings st.firstValidTime st.lastIndexTime bs,
          ∃ timestamp included, x.2 = .written timestamp included) := by
  induction h with
  | nil => simp [fates]
  | @cons baseTime buffer bs x xs st w st₁ w₁ st₂ w₂ hrender hrest ih =>
      intro E R hview hsteady hfailed hfit
      obtain ⟨hfate, hfit⟩ := sumsFit_cons hfit
      obtain ⟨hx, E', R', hview', hsteady', hfirst, hlast⟩ :=
        outcome_render_fate hview hsteady hrender (hrest.unfailed hfailed) hfate
      rw [← hfirst, ← hlast] at hfit
      have ih := ih hview' hsteady' hfailed hfit
      rw [hfirst, hlast] at ih
      simp only [fates, List.forall_mem_cons]
      exact and_congr hx ih

/-! ## The buffers that are refused -/

/-- What is to be indexed at time zero is a key frame, and the first record. -/
theorem zero_of_included {indexMinNanos indexMaxNanos : UInt64}
    {first lastIndexTime timestamp : PravegaTimestamp} {isDeltaUnit : Bool}
    (hne : lastIndexTime ≠ ⟨some 0⟩)
    (h : includeInIndex true indexMinNanos indexMaxNanos first lastIndexTime timestamp
      isDeltaUnit = some true) (hzero : timestamp.nanoseconds.getD 0 = 0) :
    isDeltaUnit = false ∧ timestamp = ⟨some 0⟩ ∧ lastIndexTime.isSome = false := by
  obtain ⟨_ | t⟩ := timestamp
  · cases h
  obtain rfl : t = 0 := hzero
  have hexact := exactDecision_eq h
  obtain ⟨_ | l⟩ := lastIndexTime
  · cases isDeltaUnit with
    | false => exact ⟨rfl, rfl, rfl⟩
    | true =>
        obtain ⟨_ | f⟩ := first
        · cases h
        · have hgt : (indexMaxNanos.toNat : Int) < (0 : UInt64).toNat - f.toNat :=
            of_decide_eq_true hexact
          rw [UInt64.toNat_zero] at hgt
          omega
  · cases isDeltaUnit with
    | true =>
        have hgt : (indexMaxNanos.toNat : Int) < (0 : UInt64).toNat - l.toNat :=
          of_decide_eq_true hexact
        rw [UInt64.toNat_zero] at hgt
        omega
    | false =>
        -- The last record is not at zero, so zero is before the limit.
        have hge : (indexMinNanos.toNat : Int) ≤ (0 : UInt64).toNat - l.toNat :=
          of_decide_eq_true hexact
        rw [UInt64.toNat_zero] at hge
        have hl : l.toNat = (0 : UInt64).toNat := by
          rw [UInt64.toNat_zero]
          omega
        exact absurd (congrArg _ (congrArg _ (UInt64.toNat_inj.mp hl))) hne

/-- A buffer is refused if it cannot be read, or is a key frame at time zero and no record
is there. -/
theorem written_iff {firstValidTime lastIndexTime : PravegaTimestamp} {b : Input}
    (hne : lastIndexTime ≠ ⟨some 0⟩)
    (h : fateOf settings firstValidTime lastIndexTime b ≠ .overflow) :
    (∃ timestamp included, fateOf settings firstValidTime lastIndexTime b =
        .written timestamp included) ↔
      b.2.readable = true ∧ (b.2.flags.deltaUnit = false →
        timestampOf true settings.timestampMode b.1 b.2.pts = some ⟨some 0⟩ →
          lastIndexTime.isSome = true) := by
  rw [fateOf] at h ⊢
  split
  case isFalse hreadable => simp [hreadable]
  rename_i hreadable
  rw [if_pos hreadable] at h
  cases htime : timestampOf true settings.timestampMode b.1 b.2.pts with
  | none =>
      rw [htime] at h
      exact absurd rfl h
  | some timestamp =>
  rw [htime] at h
  dsimp only at h ⊢
  generalize (if firstValidTime.isNone = true then timestamp else firstValidTime) = first at h ⊢
  cases hinc : includeInIndex true settings.indexMinNanos settings.indexMaxNanos first
      lastIndexTime timestamp b.2.flags.deltaUnit with
  | none =>
      rw [hinc] at h
      exact absurd rfl h
  | some included =>
  rw [hinc] at h
  dsimp only at h ⊢
  by_cases hzero : included = true ∧ timestamp.nanoseconds.getD 0 = 0
  · rw [if_pos hzero]
    obtain ⟨rfl, hzero⟩ := hzero
    obtain ⟨hkey, htimestamp, hnone⟩ := zero_of_included hne hinc hzero
    simp [hkey, htimestamp, hnone]
  · rw [if_neg hzero] at h ⊢
    split
    case isFalse hfinal =>
      rw [if_neg hfinal] at h
      exact absurd rfl h
    refine ⟨fun _ => ⟨hreadable, fun hkey ht => ?_⟩, fun _ => ⟨timestamp, included, rfl⟩⟩
    injection ht with ht
    subst ht
    obtain ⟨_ | l⟩ := lastIndexTime
    · rw [hkey] at hinc
      injection hinc with hinc
      exact absurd ⟨hinc.symm, rfl⟩ hzero
    · rfl

/-- The timestamp of the last record, none or not zero. -/
theorem lastIndexTime_of_written {firstValidTime lastIndexTime : PravegaTimestamp} {b : Input}
    (hne : lastIndexTime ≠ ⟨some 0⟩) :
    let fate := fateOf settings firstValidTime lastIndexTime b
    fate.lastIndexTime lastIndexTime ≠ ⟨some 0⟩ ∧
      ((fate.lastIndexTime lastIndexTime).isSome = true ↔
        lastIndexTime.isSome = true ∨ ∃ timestamp, fate = .written timestamp true) := by
  dsimp only
  cases hfate : fateOf settings firstValidTime lastIndexTime b with
  | unreadable => simpa [Fate.lastIndexTime] using hne
  | overflow => simpa [Fate.lastIndexTime] using hne
  | zero t => simpa [Fate.lastIndexTime] using hne
  | written timestamp included =>
      cases included with
      | false => simpa [Fate.lastIndexTime] using hne
      | true =>
          have htime := timed_of_fateOf hfate
          obtain ⟨_ | t⟩ := timestamp
          · exact absurd rfl htime
          · refine ⟨fun hc => ?_, by simp [Fate.lastIndexTime, PravegaTimestamp.isSome]⟩
            injection hc with hc
            injection hc with hc
            exact htime hc

/-- All buffers are written if and only if all can be read and each key frame at time zero
comes behind a buffer that is indexed. The induction is on the buffers. -/
theorem all_written_iff (bs : List Input) :
    ∀ firstValidTime lastIndexTime, lastIndexTime ≠ ⟨some 0⟩ →
      SumsFit settings firstValidTime lastIndexTime bs →
      ((∀ x ∈ fates settings firstValidTime lastIndexTime bs,
          ∃ timestamp included, x.2 = .written timestamp included) ↔
        (∀ b ∈ bs, b.2.readable = true) ∧
          ∀ pre b post, bs = pre ++ b :: post → b.2.flags.deltaUnit = false →
            timestampOf true settings.timestampMode b.1 b.2.pts = some ⟨some 0⟩ →
            lastIndexTime.isSome = true ∨
              ∃ x ∈ fates settings firstValidTime lastIndexTime pre,
                ∃ timestamp, x.2 = .written timestamp true) := by
  induction bs with
  | nil => simp [fates]
  | cons b bs ih =>
      intro first last hne hfit
      obtain ⟨hfate, hfit⟩ := sumsFit_cons hfit
      obtain ⟨hne', hsome⟩ := @lastIndexTime_of_written F settings first last b hne
      have ih := ih _ _ hne' hfit
      rw [fates]
      rw [List.forall_mem_cons, written_iff hne hfate, ih, List.forall_mem_cons]
      constructor
      · rintro ⟨⟨hreadable, hzero⟩, hreadables, hzeros⟩
        refine ⟨⟨hreadable, hreadables⟩, fun pre c post hbs hkey htime => ?_⟩
        rcases List.cons_eq_append_iff.mp hbs with ⟨rfl, hc⟩ | ⟨pre, rfl, rfl⟩
        · injection hc with hc _
          subst hc
          exact Or.inl (hzero hkey htime)
        · simp only [fates, List.mem_cons, exists_eq_or_imp]
          rw [← or_assoc, ← hsome]
          exact hzeros pre c post rfl hkey htime
      · rintro ⟨⟨hreadable, hreadables⟩, hzeros⟩
        refine ⟨⟨hreadable, fun hkey htime => ?_⟩, hreadables, ?_⟩
        · simpa [fates] using hzeros [] b bs rfl hkey htime
        · intro pre c post hbs hkey htime
          have hc := hzeros (b :: pre) c post (by rw [hbs, List.cons_append]) hkey htime
          simp only [fates, List.mem_cons, exists_eq_or_imp] at hc
          rwa [← or_assoc, ← hsome] at hc

end Render

/-! ## A run of renders -/

/-- Each key frame at time zero comes behind a buffer that is indexed. -/
def ZeroIndexed {F : Type} (settings : Settings F) (bs : List Input) : Prop :=
  ∀ pre b post, bs = pre ++ b :: post → b.2.flags.deltaUnit = false →
    timestampOf true settings.timestampMode b.1 b.2.pts = some ⟨some 0⟩ →
      ∃ x ∈ fates settings .none .none pre, ∃ timestamp, x.2 = .written timestamp true

/-- In a run in which no stream operation fails and no sum overflows, every `render`
returns well if and only if every buffer can be read and each key frame at time zero comes
behind a buffer that is indexed. -/
theorem renders_ok_iff {F : Type} {checks : Bool} {settings : Settings F}
    {daysToSeconds : F → Int} {bs : List Input} {xs : List (Except Failure Unit)}
    {st₀ st : Started} {w₀ w₁ w : World} {E₀ : List Event} {R₀ : List Record}
    (h₀ : Whole .ordered w₀ E₀ R₀)
    (hstart : Outcome (arena .ordered) (start daysToSeconds settings .stopped) w₀
      (.ok (), .started st₀) w₁)
    (h : Tries checks settings bs xs st₀ w₁ st w) (hfailed : w.failed = false)
    (hfit : SumsFit settings .none .none bs) :
    (∀ x ∈ xs, x = .ok ()) ↔
      (∀ b ∈ bs, b.2.readable = true) ∧ ZeroIndexed settings bs := by
  obtain ⟨spawned, rfl, hwhole⟩ := h₀.started hstart
  refine (h.ok_iff (hwhole.view _ spawned) (by simp [Steady, Started.new]) hfailed
    hfit).trans ?_
  refine (all_written_iff bs .none .none (by simp [PravegaTimestamp.none]) hfit).trans ?_
  simp [ZeroIndexed, PravegaTimestamp.none, PravegaTimestamp.isSome]

/-- Renders that are all written, as tries. -/
theorem Renders.tries {F : Type} {checks : Bool} {settings : Settings F} {bs : List Input}
    {st st' : Started} {w w' : World} (h : Renders False checks settings bs st w st' w') :
    Tries checks settings bs (bs.map fun _ => .ok ()) st w st' w' := by
  induction h with
  | nil => exact .nil
  | cons hrender _ ih => exact .cons hrender ih
  | refused hfalse => exact hfalse.elim

theorem renders_ok_iff_movie :
    (∀ b ∈ movie.map fun b => ((none, b) : Input), b.2.readable = true) ∧
      ZeroIndexed cameraSettings (movie.map fun b => (none, b)) := by
  have hrun : (cameraMovie movie).2 = true := by decide +kernel
  have hfailed : (cameraMovie movie).1.2.failed = false := by decide +kernel
  have hfit : SumsFit cameraSettings .none .none (movie.map fun b => (none, b)) := by
    decide +kernel
  generalize movie = bs at hrun hfailed hfit ⊢
  refine (renders_ok_iff whole_empty camera_started (camera_runs hrun).tries hfailed hfit).mp ?_
  intro x hx
  obtain ⟨_, _, rfl⟩ := List.mem_map.mp hx
  rfl

/-- A key frame at time zero is the first buffer. It is to be indexed, and the index does
not take it. -/
theorem render_fails_at_zero :
    ¬ ∀ (bs : List Input) (xs : List (Except Failure Unit)) (st₀ st : Started)
      (w₁ w : World),
      Outcome (arena .ordered) (start (fun _ => 0) cameraSettings .stopped)
        ⟨.empty, .empty, false⟩ (.ok (), .started st₀) w₁ →
      Tries true cameraSettings bs xs st₀ w₁ st w → w.failed = false →
      SumsFit cameraSettings .none .none bs → (∀ b ∈ bs, b.2.readable = true) →
      ∀ x ∈ xs, x = .ok () := by
  intro hall
  have hzero : (cameraAdds { secondBuffer with storedPts := ClockTime.store (some 0) } cameraStarted
      cameraStart.2).1 =
        (.error (.error .resourceWrite "Failed to write index: Timestamp is none or 0"),
          .started { cameraStarted with firstValidTime := ⟨some 0⟩ }) := by decide +kernel
  have hok := hall _ _ _ _ _ _ camera_started (.cons (camera_render hzero) .nil)
    (by decide +kernel) (by decide +kernel) (by simp [secondBuffer]) _ List.mem_cons_self
  cases hok

end GstPravega.Plugin.PravegaSink
