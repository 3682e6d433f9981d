import GstPravega.Proofs.SinkHistory

/-!
# Sessions

A session is one instance of the sink from its start, over any buffers, with no
stream operation failing; the streams may hold anything whole before it. With
`refusals`, a `render` may still refuse its buffer. What such a session writes does not depend
on the answers of the client: it is `Recorded`, one `Rendered` step after another
from the started state. The properties of a session are proved by induction over
this.
-/

namespace GstPravega.Plugin.PravegaSink

open GstPravega.Lib GstPravega.Client GstPravega.Gst GstPravega.Video GstPravega.Lib.Program

open World

variable {F : Type}

/-- The buffers with the base time of the element when they come. -/
abbrev Input := ClockTime × Buffer

/-- One `render` after another. One that fails has refused its buffer. -/
inductive Renders (refusals : Prop) (checks : Bool) (settings : Settings F) :
    List Input → Started → World → Started → World → Prop where
  | nil {st w} : Renders refusals checks settings [] st w st w
  | cons {baseTime buffer bs st w st' w' st'' w''} :
      Outcome (arena .ordered) (render checks settings baseTime buffer (.started st)) w
        (.ok (), .started st') w' →
      Renders refusals checks settings bs st' w' st'' w'' →
      Renders refusals checks settings ((baseTime, buffer) :: bs) st w st'' w''
  | refused {baseTime buffer bs e st w st' w' st'' w''} : refusals →
      Outcome (arena .ordered) (render checks settings baseTime buffer (.started st)) w
        (.error e, .started st') w' →
      e ≠ .panicked → w'.failed = false →
      Renders refusals checks settings bs st' w' st'' w'' →
      Renders refusals checks settings ((baseTime, buffer) :: bs) st w st'' w''

/-- A start with success, and the renders. -/
def Session (refusals : Prop) (checks : Bool) (daysToSeconds : F → Int) (settings : Settings F)
    (w₀ : World) (bs : List Input) (st : Started) (w : World) : Prop :=
  ∃ st₀ w₁, Outcome (arena .ordered) (start daysToSeconds settings .stopped) w₀
      (.ok (), .started st₀) w₁ ∧
    Renders refusals checks settings bs st₀ w₁ st w

/-- A stop with success. -/
def Stops (settings : Settings F) (st : Started) (w w' : World) : Prop :=
  Outcome (arena .ordered) (stop settings (.started st)) w (.ok (), .stopped) w'

/-- All bytes written to the data stream, those in the buffer last. -/
def written (st : Started) (w : World) : List UInt8 :=
  w.data.entries.flatten ++ st.writer.inner.buf

/-- What the buffers make of the state, the events and the records. -/
inductive Recorded (refusals : Prop) (checks : Bool) (settings : Settings F) : List Input →
    Started → List Event → List Record → Started → List Event → List Record → Prop where
  | nil {st E R} : Recorded refusals checks settings [] st E R st E R
  | cons {baseTime buffer bs timestamp included st st' st'' E E' E'' R R' R''} :
      Decided checks settings baseTime buffer st timestamp included →
      Rendered checks buffer timestamp included (st.noteValidTime timestamp) st'
        E E' R R' →
      Recorded refusals checks settings bs st' E' R' st'' E'' R'' →
      Recorded refusals checks settings ((baseTime, buffer) :: bs) st E R st'' E'' R''
  | refused {baseTime buffer bs st st' st'' E E'' R R''} : refusals →
      Refused checks settings baseTime buffer st st' →
      Recorded refusals checks settings bs st' E R st'' E'' R'' →
      Recorded refusals checks settings ((baseTime, buffer) :: bs) st E R st'' E'' R''

variable {refusals : Prop} {checks : Bool} {daysToSeconds : F → Int}
  {settings : Settings F}
  {bs : List Input} {st st' : Started} {w w' w₀ : World} {E E₀ : List Event}
  {R R₀ : List Record}

theorem View.written {needs : Needs} (h : View needs st w E R) :
    written st w = E.flatMap Event.frame := by
  obtain ⟨⟨evs, buffered, rfl, hbuf, hgood⟩, _⟩ := h
  rw [PravegaSink.written, hgood.data, hbuf, List.flatMap_append]

theorem inv_persists (s s' : World) (h : (arena .ordered).inv s)
    (hs : (arena .ordered).rely s s') : (arena .ordered).inv s' := World.Inv.persists h hs

/-- One `render` of a session. -/
theorem outcome_render {baseTime : ClockTime} {buffer : Buffer}
    {x : Except Failure Unit} (hview : View .ordered st w E R)
    (h : Outcome (arena .ordered) (render checks settings baseTime buffer (.started st)) w
      (x, .started st') w') :
    (x = .ok () ∧ ∃ timestamp included E' R',
      Decided checks settings baseTime buffer st timestamp included ∧
      Rendered checks buffer timestamp included (st.noteValidTime timestamp) st'
        E E' R R' ∧ View .ordered st' w' E' R') ∨
    ∃ e, x = .error e ∧
      Fails .ordered st E R (Refused checks settings baseTime buffer st)
        (LeftUnflushed checks settings baseTime buffer st E R) e st' w' := by
  have hsafe : Safe (arena .ordered)
      (render checks settings baseTime buffer (.started st))
      (fun y w' => ∀ x, y = (x, .started st') →
        (x = .ok () ∧ ∃ timestamp included E' R',
          Decided checks settings baseTime buffer st timestamp included ∧
          Rendered checks buffer timestamp included (st.noteValidTime timestamp) st'
            E E' R R' ∧ View .ordered st' w' E' R') ∨
        ∃ e, x = .error e ∧
          Fails .ordered st E R (Refused checks settings baseTime buffer st)
            (LeftUnflushed checks settings baseTime buffer st E R) e st' w') w := by
    refine safe_render hview (fun hf => hf.elim) ?_ ?_
    · intro timestamp included st₁ w₁ E' R' hdecided hview' hrendered x hx
      injection hx with hx hst
      injection hst with hst
      subst hst
      exact Or.inl
        ⟨hx.symm, timestamp, included, E', R', hdecided, hrendered, hview'⟩
    · intro e st₁ w₁ hfails _ x hx
      injection hx with hx hst
      injection hst with hst
      subst hst
      exact Or.inr ⟨e, hx.symm, hfails⟩
  exact (hsafe.outcome inv_persists hview.held.inv h).1 x rfl

/-- A `render` that fails without a panic, while no stream operation fails, refuses its
buffer. -/
theorem Fails.refused {e : Failure} {P : Started → Prop}
    {W : Started → List Event → List Record → Prop} (h : Fails .ordered st E R P W e st' w')
    (hpanic : e ≠ .panicked) (hfailed : w'.failed = false) (hsteady : Steady st E) :
    View .ordered st' w' E R ∧ Steady st' E ∧ P st' := by
  cases h with
  | panicked => exact absurd rfl hpanic
  | untouched hview huntouched hP => exact ⟨hview, huntouched.steady hsteady, hP hfailed⟩
  | written _ _ hfailed' => cases hfailed.symm.trans hfailed'

theorem Renders.recorded (h : Renders refusals checks settings bs st w st' w') :
    ∀ {E R}, View .ordered st w E R → Steady st E →
      ∃ E' R', Recorded refusals checks settings bs st E R st' E' R' ∧
        View .ordered st' w' E' R' ∧ Steady st' E' := by
  induction h with
  | nil => exact fun hview hsteady => ⟨_, _, .nil, hview, hsteady⟩
  | @cons baseTime buffer bs st w st₁ w₁ st₂ w₂ hrender _ ih =>
      intro E R hview hsteady
      rcases outcome_render hview hrender with ⟨_, hok⟩ | ⟨e, he, _⟩
      · obtain ⟨timestamp, included, E', R', hdecided, hrendered, hview'⟩ := hok
        obtain ⟨E'', R'', hrecorded, hview'', hsteady''⟩ := ih hview' hrendered.steady
        exact ⟨E'', R'', .cons hdecided hrendered hrecorded, hview'', hsteady''⟩
      · cases he
  | @refused baseTime buffer bs e st w st₁ w₁ st₂ w₂ hr hrender hpanic hfailed _ ih =>
      intro E R hview hsteady
      rcases outcome_render hview hrender with ⟨he, _⟩ | ⟨e', he, hfails⟩
      · cases he
      · injection he with he
        subst he
        obtain ⟨hview', hsteady', hrefused⟩ := hfails.refused hpanic hfailed hsteady
        obtain ⟨E'', R'', hrecorded, hview'', hsteady''⟩ := ih hview' hsteady'
        exact ⟨E'', R'', .refused hr hrefused hrecorded, hview'', hsteady''⟩

/-- A start with success on streams that were whole. -/
theorem Whole.started (h₀ : Whole .ordered w₀ E₀ R₀)
    (hstart : Outcome (arena .ordered) (start daysToSeconds settings .stopped) w₀
      (.ok (), .started st) w) :
    ∃ spawned, st =
        Started.new settings.bufferSize (E₀.flatMap Event.frame).length spawned ∧
      Whole .ordered w E₀ R₀ := by
  have hsafe : Safe (arena .ordered) (start daysToSeconds settings .stopped)
      (fun x w' => x = (.ok (), .started st) → ∃ spawned,
        st = Started.new settings.bufferSize (E₀.flatMap Event.frame).length spawned ∧
        Whole .ordered w' E₀ R₀) w₀ := by
    refine safe_start h₀ ?_ ?_
    · intro spawned w' hwhole hx
      injection hx with _ hx
      injection hx with hx
      exact ⟨spawned, hx.symm, hwhole⟩
    · intro e w' _ hx
      injection hx with hx
      cases hx
  exact (hsafe.outcome inv_persists h₀.inv hstart).1 rfl

/-- A session on streams that were whole. -/
theorem Session.recorded (h₀ : Whole .ordered w₀ E₀ R₀)
    (h : Session refusals checks daysToSeconds settings w₀ bs st w) :
    ∃ spawned E R, Recorded refusals checks settings bs
        (Started.new settings.bufferSize (E₀.flatMap Event.frame).length spawned)
        E₀ R₀ st E R ∧
      View .ordered st w E R ∧ Steady st E := by
  obtain ⟨st₀, w₁, hstart, hrenders⟩ := h
  obtain ⟨spawned, rfl, hwhole⟩ := h₀.started hstart
  obtain ⟨E, R, hrecorded, hview, hsteady⟩ :=
    hrenders.recorded (hwhole.view _ spawned) (fun _ ho => nomatch ho)
  exact ⟨spawned, E, R, hrecorded, hview, hsteady⟩

/-- What a stop with success adds. -/
theorem Stops.whole (hview : View .ordered st w E R) (hsteady : Steady st E)
    (h : Stops settings st w w') :
    ∃ final, final.map Record.toIndexRecord = finalRecords st ∧
      Whole .ordered w' E (R ++ final) := by
  have hsafe : Safe (arena .ordered) (stop settings (.started st))
      (fun x w' => x = (.ok (), .stopped) → ∃ final,
        final.map Record.toIndexRecord = finalRecords st ∧
        Whole .ordered w' E (R ++ final)) w := by
    refine safe_stop hview (hsteady.linked hview) (fun hf => hf.elim) ?_ ?_
    · intro rs w₁ hrs hwhole _
      exact ⟨rs, hrs, hwhole⟩
    · intro e st₁ w₁ _ _ hx
      injection hx with hx
      cases hx
  exact (hsafe.outcome inv_persists hview.held.inv h).1 rfl

/-! ## Sessions that run -/

/-- A started instance with the camera settings, on empty streams. -/
def cameraStart : (Except Failure Unit × State) × World :=
  run World.answer (start (fun _ => 0) cameraSettings .stopped)
    ⟨.empty, .empty, false⟩

def cameraStarted : Started := Started.new (128 * 1024) 0 false

/-- A buffer into an instance, with a client that answers. -/
def cameraAdds (b : Buffer) (st : Started) (w : World) :
    (Except Failure Unit × State) × World :=
  run World.answer (render true cameraSettings none b (.started st)) w

def cameraStops (st : Started) (w : World) : (Except Failure Unit × State) × World :=
  run World.answer (stop cameraSettings (.started st)) w

theorem camera_render {b : Buffer} {st : Started} {w : World}
    {x : Except Failure Unit × State} (h : (cameraAdds b st w).1 = x) :
    Outcome (arena .ordered) (render true cameraSettings none b (.started st)) w x
      (cameraAdds b st w).2 := by
  have hrun := outcome_run (A := arena .ordered) World.answer_exec
    (render true cameraSettings none b (.started st)) w
  rw [cameraAdds] at h
  rw [h] at hrun
  exact hrun

theorem camera_renders {refusals : Prop} {b : Buffer} {bs : List Input}
    {st st' st'' : Started} {w w'' : World}
    (h : (cameraAdds b st w).1 = (.ok (), .started st'))
    (hrest : Renders refusals true cameraSettings bs st' (cameraAdds b st w).2 st'' w'') :
    Renders refusals true cameraSettings ((none, b) :: bs) st w st'' w'' :=
  .cons (camera_render h) hrest

/-- Buffers one after another, as long as they are written: where they lead, and whether
they all are. -/
def cameraRuns : List Buffer → Started → World → (Started × World) × Bool
  | [], st, w => ((st, w), true)
  | b :: bs, st, w =>
      match (cameraAdds b st w).1 with
      | (.ok (), .started st') => cameraRuns bs st' (cameraAdds b st w).2
      | _ => ((st, w), false)

theorem camera_runs {refusals : Prop} {bs : List Buffer} : ∀ {st : Started} {w : World},
    (cameraRuns bs st w).2 = true →
    Renders refusals true cameraSettings (bs.map fun b => (none, b)) st w
      (cameraRuns bs st w).1.1 (cameraRuns bs st w).1.2 := by
  induction bs with
  | nil => exact fun _ => .nil
  | cons b bs ih =>
      intro st w h
      rw [cameraRuns] at h ⊢
      split at h
      · next st' hadds => exact camera_renders hadds (ih h)
      · cases h

/-- A key frame, a delta unit, and a key frame. -/
def movie : List Buffer :=
  [⟨ClockTime.store (some 1000000000), none, BufferFlags.empty, [7], true, none, none⟩,
    ⟨ClockTime.store (some 2000000000), none, ⟨true, false, false, false⟩, [8], true, none, none⟩,
    ⟨ClockTime.store (some 3000000000), none, BufferFlags.empty, [9], true, none, none⟩]

theorem camera_started :
    Outcome (arena .ordered) (start (fun _ => 0) cameraSettings .stopped)
      ⟨.empty, .empty, false⟩ (.ok (), .started cameraStarted) cameraStart.2 := by
  have hstart : cameraStart.1 = (.ok (), .started cameraStarted) := by decide +kernel
  have hrun := outcome_run (A := arena .ordered) World.answer_exec
    (start (fun _ => 0) cameraSettings .stopped) ⟨.empty, .empty, false⟩
  rw [cameraStart] at hstart
  rw [hstart] at hrun
  exact hrun

theorem camera_session {refusals : Prop} {bs : List Input} {st : Started} {w : World}
    (h : Renders refusals true cameraSettings bs cameraStarted cameraStart.2 st w) :
    Session refusals true (fun _ => 0) cameraSettings ⟨.empty, .empty, false⟩ bs st w :=
  ⟨cameraStarted, cameraStart.2, camera_started, h⟩

/-- These buffers from the beginning. -/
def cameraMovie (bs : List Buffer) : (Started × World) × Bool :=
  cameraRuns bs cameraStarted cameraStart.2

theorem camera_movie {refusals : Prop} {bs : List Buffer} (h : (cameraMovie bs).2 = true) :
    Session refusals true (fun _ => 0) cameraSettings ⟨.empty, .empty, false⟩
      (bs.map fun b => (none, b)) (cameraMovie bs).1.1 (cameraMovie bs).1.2 :=
  camera_session (camera_runs h)

theorem camera_stops {st : Started} {w : World}
    (h : (cameraStops st w).1 = (.ok (), .stopped)) :
    Stops cameraSettings st w (cameraStops st w).2 := by
  have hrun := outcome_run (A := arena .ordered) World.answer_exec
    (stop cameraSettings (.started st)) w
  rw [cameraStops] at h
  rw [h] at hrun
  exact hrun

end GstPravega.Plugin.PravegaSink
