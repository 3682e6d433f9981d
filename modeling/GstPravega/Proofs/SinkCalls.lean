import GstPravega.Proofs.Commands
import GstPravega.Proofs.SinkSpec

/-!
# The three calls

`start` finds the streams whole and durable and begins with an empty buffer at
their tails, `render` takes one view to the next, and `stop` leaves the streams
whole and durable again, with the final record at the end of the index. The
specifications are about every answer of the client, and about the failures as
well: a `start` that fails has changed nothing, a `render` that fails leaves what
`Fails` says, and a `stop` that fails has written the final record or not.
-/

namespace GstPravega.Plugin.PravegaSink

open GstPravega.Lib GstPravega.Client GstPravega.Gst GstPravega.Video GstPravega.Lib.Program

open World

variable {needs : Needs} {F : Type} {w : World} {E : List Event} {R : List Record}

/-! ## `start` -/

/-- Opening the streams changes nothing, and the data is as long as it was. -/
theorem openable_arena (hdurable : w.data.durable = w.data.entries.length) :
    Openable (arena needs) (Persists w) (fun n => n = w.data.entries.flatten.length) := by
  refine ⟨fun _ _ hw hw' _ => hw.trans _ _ _ hw', ?_, ?_⟩
  · intro c w₁ r w₂ hc hw hi hexec
    have heq : w₂ = w₁ := by
      cases c
      case seekToTail => exact hexec.1
      case createClientConfig | createScope | createStream => exact hexec
      all_goals exact hc.elim
    subst heq
    exact ⟨hw, hi, trivial⟩
  · rintro w₁ n w₂ hw ⟨-, rfl⟩
    show w₁.data.stored.flatten.length = _
    rw [Log.stored_eq_of_durable (hw.data.durable_eq hdurable), hw.data.1]

/-- Nothing is buffered and everything is durable. -/
structure Whole (needs : Needs) (w : World) (E : List Event) (R : List Record) :
    Prop where
  good : Good needs w E R
  data : w.data.durable = w.data.entries.length
  index : w.index.durable = w.index.entries.length

theorem Whole.persists {w' : World} (h : Whole needs w E R) (hw : Persists w w') :
    Whole needs w' E R :=
  ⟨h.good.persists hw, hw.data.durable_eq h.data, hw.index.durable_eq h.index⟩

theorem Whole.inv (h : Whole needs w E R) : Inv needs w := ⟨E, R, h.good⟩

theorem Whole.view (h : Whole needs w E R) (bufferSize : Nat) (spawned : Bool) :
    View needs (Started.new bufferSize (E.flatMap Event.frame).length spawned) w E R :=
  ⟨held_of_good rfl h.good, rfl⟩

theorem safe_start {daysToSeconds : F → Int} {settings : Settings F}
    {Q : Except Failure Unit × State → World → Prop} (h : Whole needs w E R)
    (hok : ∀ spawned w', Whole needs w' E R → Q (.ok (), .started
      (Started.new settings.bufferSize (E.flatMap Event.frame).length spawned)) w')
    (herr : ∀ e w', Whole needs w' E R → Q (.error e, .stopped) w') :
    Safe (arena needs) (start daysToSeconds settings .stopped) Q w := by
  refine (openable_arena h.data).start (Persists.refl w) ?_ ?_ ?_
  · intro limits interval w₁ r w₂ hw hi hexec
    have heq : w₂ = w₁ := hexec
    subst heq
    exact ⟨hw, hi, trivial⟩
  · exact fun message w' hw _ => herr _ w' (h.persists hw)
  · intro n spawned w' hn hw _
    rw [hn, h.good.data]
    exact hok spawned w' (h.persists hw)

/-! ## `render` -/

/-- The timestamp of a buffer that can be read, and the decision to index it. -/
structure Decided (checks : Bool) (settings : Settings F) (baseTime : ClockTime)
    (buffer : Buffer) (st : Started) (timestamp : PravegaTimestamp)
    (included : Bool) : Prop where
  readable : buffer.readable = true
  time : timestampOf checks settings.timestampMode baseTime buffer.pts = some timestamp
  decision : includeInIndex checks settings.indexMinNanos settings.indexMaxNanos
    (st.noteValidTime timestamp).firstValidTime st.lastIndexTime timestamp
    buffer.flags.deltaUnit = some included

/-- `render` reports an error before it has written anything: the buffer cannot be
read, or its timestamp is no timestamp for a record. -/
def Refused (checks : Bool) (settings : Settings F) (baseTime : ClockTime)
    (buffer : Buffer) (st st' : Started) : Prop :=
  buffer.readable = false ∧ st' = st ∨
    ∃ timestamp writer, Decided checks settings baseTime buffer st timestamp true ∧
      timestamp.nanoseconds.getD 0 = 0 ∧
      st' = { st.noteValidTime timestamp with writer := writer }

/-- `render` has written everything, and has failed to flush it as the buffer asks. -/
def LeftUnflushed (checks : Bool) (settings : Settings F) (baseTime : ClockTime)
    (buffer : Buffer) (st : Started) (E : List Event) (R : List Record) (st' : Started)
    (E' : List Event) (R' : List Record) : Prop :=
  ∃ timestamp included, Decided checks settings baseTime buffer st timestamp included ∧
    Unflushed buffer timestamp included (st.noteValidTime timestamp) st' E E' R R'

variable {st : Started}

theorem safe_onStarted {m : SinkM Unit} {after : Started → State}
    {Q : Except Failure Unit × State → World → Prop}
    {P : Failure → Started → World → Prop}
    (h : SafeS (arena needs) m (fun _ st' w' => ∀ w'', Persists w' w'' →
      Q (.ok (), after st') w'') P st w)
    (herr : ∀ e st' w' w'', P e st' w' → Persists w' w'' → Inv needs w'' →
      Q (.error e, .started st') w'') :
    Safe (arena needs) (onStarted m after st) Q w := by
  refine safe_bind (Safe.mono h fun x w' hx => ?_)
  obtain ⟨e | ⟨⟩, st'⟩ := x
  · exact fun w'' hw'' hi => herr e st' w' w'' hx hw'' hi
  · exact fun w'' hw'' _ => hx w'' hw''

theorem safe_render {checks : Bool} {settings : Settings F} {baseTime : ClockTime}
    {buffer : Buffer} {Q : Except Failure Unit × State → World → Prop}
    (h : View needs st w E R)
    (hcovered : needs.covered → ∀ timestamp,
      Decided checks settings baseTime buffer st timestamp true →
      isDiscontinuity buffer.flags st.buffersWritten true st.lastIndexTime = true ∨
        Open R E)
    (hok : ∀ timestamp included st' w' E' R',
      Decided checks settings baseTime buffer st timestamp included →
      View needs st' w' E' R' → Rendered checks buffer timestamp included
        (st.noteValidTime timestamp) st' E E' R R' → Q (.ok (), .started st') w')
    (herr : ∀ e st' w', Fails needs st E R (Refused checks settings baseTime buffer st)
        (LeftUnflushed checks settings baseTime buffer st E R) e st' w' →
      Inv needs w' → Q (.error e, .started st') w') :
    Safe (arena needs) (render checks settings baseTime buffer (.started st)) Q w := by
  have hErr : Stable needs (Fails needs st E R (Refused checks settings baseTime buffer st)
    (LeftUnflushed checks settings baseTime buffer st E R)) := stable_fails
  refine safe_onStarted ?_ fun e st' w' w'' he hw hi =>
    herr e st' w'' (hErr.2 e st' w' w'' he hw hi) hi
  rw [renderStarted]
  split
  case isFalse hreadable =>
    exact safeS_throw fun w' hw _ => .untouched (h.persists hw) ⟨rfl, rfl, rfl, rfl⟩
      fun _ => Or.inl ⟨Bool.not_eq_true _ ▸ hreadable, rfl⟩
  rename_i hreadable
  refine safeS_bind hErr.2 ?_
  cases htime : timestampOf checks settings.timestampMode baseTime buffer.pts with
  | none => exact safeS_throw fun w' _ _ => .panicked
  | some timestamp =>
  refine safeS_pure fun w₁ hw₁ _ => ?_
  refine safeS_bind hErr.2 (safeS_modify fun w₂ hw₂ _ => ?_)
  refine safeS_bind hErr.2 (safeS_get fun w₃ hw₃ _ => ?_)
  have hw := (hw₁.trans _ _ _ hw₂).trans _ _ _ hw₃
  refine safeS_bind hErr.2 ?_
  cases hdecision : includeInIndex checks settings.indexMinNanos settings.indexMaxNanos
      (st.noteValidTime timestamp).firstValidTime st.lastIndexTime timestamp
      buffer.flags.deltaUnit with
  | none =>
      have hchecked : SinkM.checked (includeInIndex checks settings.indexMinNanos
          settings.indexMaxNanos (st.noteValidTime timestamp).firstValidTime
          (st.noteValidTime timestamp).lastIndexTime timestamp
          buffer.flags.deltaUnit) = (throw .panicked : SinkM Bool) :=
        congrArg SinkM.checked hdecision
      rw [hchecked]
      exact safeS_throw fun w' _ _ => .panicked
  | some included =>
      have hchecked : SinkM.checked (includeInIndex checks settings.indexMinNanos
          settings.indexMaxNanos (st.noteValidTime timestamp).firstValidTime
          (st.noteValidTime timestamp).lastIndexTime timestamp
          buffer.flags.deltaUnit) = (pure included : SinkM Bool) :=
        congrArg SinkM.checked hdecision
      rw [hchecked]
      refine safeS_pure fun w₄ hw₄ _ => ?_
      have hview : View needs (st.noteValidTime timestamp) w₄ E R :=
        (h.persists (hw.trans _ _ _ hw₄)).of_writer rfl
      refine safeS_renderIndexed hview ⟨rfl, rfl, rfl, rfl⟩ h.offset ?_ ?_ ?_ ?_
      · intro hn hincluded
        subst hincluded
        exact hcovered hn timestamp ⟨hreadable, htime, hdecision⟩
      · intro st' w' E' R' hview' hrendered w'' hw''
        exact hok timestamp included st' w'' E' R' ⟨hreadable, htime, hdecision⟩
          (hview'.persists hw'') hrendered
      · intro hincluded hzero writer
        subst hincluded
        exact Or.inr ⟨timestamp, writer, ⟨hreadable, htime, hdecision⟩, hzero, rfl⟩
      · intro st' E' R' hunflushed
        exact ⟨timestamp, included, ⟨hreadable, htime, hdecision⟩, hunflushed⟩

/-! ## `stop` -/

/-- The record that `stop` writes. -/
def finalRecords (st : Started) : List IndexRecord :=
  match st.finalOffset with
  | some finalOffset =>
      if st.finalTimestamp.isSome then
        [IndexRecord.new st.finalTimestamp finalOffset false false]
      else []
  | none => []

theorem safeS_writeFinalRecord {Q : Unit → Started → World → Prop}
    {Err : Failure → Started → World → Prop} (hErr : Stable needs Err)
    (h : View needs st w E R) (hbuf : st.writer.inner.buf = [])
    (hdurable : w.data.durable = w.data.entries.length) (hlinked : Linked needs st E R)
    (hcovered : needs.covered → finalRecords st ≠ [] → Open R E)
    (hok : ∀ rs w', rs.map Record.toIndexRecord = finalRecords st →
      View needs st w' E (R ++ rs) → w.data.Persists w'.data → Q () st w')
    (herr : ∀ e w', View needs st w' E R → Err (.error .resourceWrite e) st w') :
    SafeS (arena needs) writeFinalRecord Q Err st w := by
  have hpure : ∀ w₁, Persists w w₁ → finalRecords st = [] →
      SafeS (arena needs) (pure ()) Q Err st w₁ := by
    intro w₁ hw₁ hnil
    refine safeS_pure fun w' hw _ => ?_
    have hw := hw₁.trans _ _ _ hw
    refine hok [] w' hnil.symm ?_ hw.data
    rw [List.append_nil]
    exact h.persists hw
  rw [writeFinalRecord]
  refine safeS_bind hErr.2 (safeS_get fun w₁ hw₁ _ => ?_)
  rw [finalRecords] at hok hpure hcovered
  cases hoffset : st.finalOffset with
  | none =>
      rw [hoffset] at hpure
      exact hpure w₁ hw₁ rfl
  | some o =>
      rw [hoffset] at hok hpure hcovered
      obtain ⟨hsorted, hle, hboundary⟩ := hlinked o hoffset
      dsimp only at hok hpure hcovered ⊢
      by_cases htime : st.finalTimestamp.isSome = true
      · rw [if_pos htime] at hok hcovered
        rw [if_pos htime]
        refine safeS_writeIndexRecord hErr (h.persists hw₁) hbuf
          (hw₁.data.durable_eq hdurable) hsorted hle hboundary ?_ ?_
          fun e w' _ => herr e w'
        · exact fun hm => Or.inr (hcovered hm (List.cons_ne_nil _ _))
        · intro r w' hr _ hview hw'
          refine hok [r] w' ?_ hview (hw₁.data.trans hw')
          rw [List.map_cons, hr, List.map_nil]
      · rw [if_neg htime] at hpure
        rw [if_neg htime]
        exact hpure w₁ hw₁ rfl

/-- Sealing leaves the streams alone. -/
theorem safeS_sealStream {s : Stream} {text : String}
    {Q : Unit → Started → World → Prop} {Err : Failure → Started → World → Prop}
    (hErr : Stable needs Err) (h : View needs st w E R)
    (hok : ∀ w', Persists w w' → Q () st w')
    (herr : ∀ e w', View needs st w' E R → Err e st w') :
    SafeS (arena needs) (sealStream s text) Q Err st w := by
  refine safeS_bind hErr.2 ?_
  intro w₁ hw₁ hi r w₂ hexec
  rcases hexec with ⟨rfl, rfl⟩ | ⟨⟨e, rfl⟩, rfl⟩
  · refine ⟨hi, trivial, fun w₃ hw₃ _ => ?_⟩
    refine safeS_orFail (fun _ w₄ hw₄ => ?_) fun e he => nomatch he
    exact hok w₄ ((hw₁.trans _ _ _ hw₃).trans _ _ _ hw₄)
  · have hfail := (h.persists hw₁).fail
    refine ⟨hfail.held.inv, trivial, fun w₃ hw₃ _ => ?_⟩
    exact safeS_orFail (fun he => nomatch he) fun e' _ w₄ hw₄ =>
      herr _ w₄ (hfail.persists (hw₃.trans _ _ _ hw₄))

theorem safeS_sealStreams {wanted : Bool} {Q : Unit → Started → World → Prop}
    {Err : Failure → Started → World → Prop} (hErr : Stable needs Err)
    (h : View needs st w E R) (hok : ∀ w', Persists w w' → Q () st w')
    (herr : ∀ e w', View needs st w' E R → Err e st w') :
    SafeS (arena needs) (sealStreams wanted) Q Err st w := by
  rw [sealStreams]
  split
  · refine safeS_bind hErr.2 (safeS_sealStream hErr h (fun w₁ hw₁ => ?_) herr)
    exact safeS_sealStream hErr (h.persists hw₁) (fun w₂ hw₂ => hok w₂ (hw₁.trans _ _ _ hw₂))
      herr
  · exact safeS_pure fun w₁ hw₁ _ => hok w₁ hw₁

theorem safeS_joinRetention {Q : Unit → Started → World → Prop}
    {Err : Failure → Started → World → Prop} (hErr : Stable needs Err)
    (hok : ∀ st' w', Persists w w' → Q () st' w') :
    SafeS (arena needs) joinRetention Q Err st w := by
  rw [joinRetention]
  refine safeS_bind hErr.2 (safeS_get fun w₁ hw₁ _ => ?_)
  split
  · refine safeS_bind hErr.2 ?_
    intro w₂ hw₂ hi r w₃ hexec
    have hexec : w₃ = w₂ := hexec
    subst hexec
    refine ⟨hi, trivial, fun w₄ hw₄ _ => safeS_modify fun w₅ hw₅ _ => ?_⟩
    exact hok _ w₅ (((hw₁.trans _ _ _ hw₂).trans _ _ _ hw₄).trans _ _ _ hw₅)
  · exact safeS_pure fun w₂ hw₂ _ => hok st w₂ (hw₁.trans _ _ _ hw₂)

/-- What a `stop` that failed leaves, if it has not panicked. -/
inductive StopFails (needs : Needs) (st₀ : Started) (E : List Event) (R : List Record) :
    Failure → Started → World → Prop where
  | panicked {st : Started} {w : World} : StopFails needs st₀ E R .panicked st w
  | left {e : Failure} {st : Started} {w : World} {rs : List Record} :
      rs = [] ∨ rs.map Record.toIndexRecord = finalRecords st₀ →
      View needs st w E (R ++ rs) → Untouched st₀ st → StopFails needs st₀ E R e st w

theorem stable_stopFails : Stable needs (StopFails needs st E R) := by
  refine ⟨fun _ _ => .panicked, fun e st w w' h hw _ => ?_⟩
  cases h with
  | panicked => exact .panicked
  | left hrs hview huntouched => exact .left hrs (hview.persists hw) huntouched

/-- After a `stop` that succeeds everything is durable, the final record at the
end. -/
theorem safe_stop {settings : Settings F}
    {Q : Except Failure Unit × State → World → Prop} (h : View needs st w E R)
    (hlinked : Linked needs st E R)
    (hcovered : needs.covered → finalRecords st ≠ [] → Open R E)
    (hok : ∀ rs w', rs.map Record.toIndexRecord = finalRecords st →
      Whole needs w' E (R ++ rs) → Q (.ok (), .stopped) w')
    (herr : ∀ e st' w', StopFails needs st E R e st' w' → Inv needs w' →
      Q (.error e, .started st') w') :
    Safe (arena needs) (stop settings (.started st)) Q w := by
  have hErr : Stable needs (StopFails needs st E R) := stable_stopFails
  have hnone : ∀ e writer w', View needs { st with writer := writer } w' E R →
      StopFails needs st E R e { st with writer := writer } w' := by
    intro e writer w' hview
    rw [← List.append_nil R] at hview
    exact .left (Or.inl rfl) hview ⟨rfl, rfl, rfl, rfl⟩
  refine safe_onStarted (P := StopFails needs st E R) ?_ fun e st' w' w'' he hw hi =>
    herr e st' w'' (hErr.2 e st' w' w'' he hw hi) hi
  rw [stopStarted]
  refine safeS_bind hErr.2 (safeS_flushData hErr h ?_ fun e writer w' hview _ =>
    hnone _ writer w' hview)
  intro writer w₁ h₁ hbuf hdurable
  refine safeS_bind hErr.2 (safeS_writeFinalRecord hErr h₁ hbuf hdurable hlinked
    hcovered ?_ fun e w' hview => hnone _ writer w' hview)
  intro rs w₂ hrs h₂ hw₂
  have hleft : ∀ e w', View needs { st with writer := writer } w' E (R ++ rs) →
      StopFails needs st E R e { st with writer := writer } w' := fun e w' hview =>
    .left (Or.inr hrs) hview ⟨rfl, rfl, rfl, rfl⟩
  refine safeS_bind hErr.2 (safeS_flushIndex hErr h₂ ?_ fun e w' hview _ => hleft _ w' hview)
  intro w₃ h₃ hw₃ hindex
  have hwhole : Whole needs w₃ E (R ++ rs) :=
    ⟨h₃.held.good hbuf, (hw₂.trans hw₃).durable_eq hdurable, hindex⟩
  refine safeS_bind hErr.2 (safeS_sealStreams hErr h₃ ?_ hleft)
  intro w₄ hw₄
  refine safeS_joinRetention hErr fun st' w₅ hw₅ w₆ hw₆ => ?_
  exact hok rs w₆ hrs
    (hwhole.persists ((hw₄.trans _ _ _ hw₅).trans _ _ _ hw₆))

end GstPravega.Plugin.PravegaSink
