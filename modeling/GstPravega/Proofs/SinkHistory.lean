import GstPravega.Proofs.SinkCalls
import Mathlib.Logic.Relation

/-!
# Histories of sinks

Instances of the sink write one after another to one pair of streams. Between
two calls an instance is idle; during a call its program issues one command
after another, each answered in any way the client may answer. At any moment
more of what was appended may become durable, and at any moment the process may
die: what was buffered is gone, and of each log what was durable survives.

A call may end with an error, and any call may come behind it. Only one that
panicked leaves a poisoned lock behind, under which every other call panics too:
it is followed by a crash.

`Step` takes a restriction on the calls, so that one system serves for what
holds of every history and for what holds of the histories that keep to it.
-/

namespace GstPravega.Plugin.PravegaSink

open GstPravega.Lib GstPravega.Client GstPravega.Gst GstPravega.Video GstPravega.Lib.Program

open World

inductive Call (F : Type) where
  | start (settings : Settings F)
  | render (settings : Settings F) (baseTime : ClockTime) (buffer : Buffer)
  | stop (settings : Settings F)

def Call.isStart {F : Type} : Call F → Bool
  | .start _ => true
  | _ => false

def Call.isStop {F : Type} : Call F → Bool
  | .stop _ => true
  | _ => false

/-- What may follow: any call, or a crash alone. -/
inductive Mode where
  | live
  | dead
  deriving DecidableEq

inductive Phase (F : Type) where
  | idle (mode : Mode) (s : State)
  | busy (call : Call F) (p : SinkProgram (Except Failure Unit × State))

structure Config (F : Type) where
  world : World
  phase : Phase F

section

variable {F : Type}

def Call.program (checks : Bool) (daysToSeconds : F → Int) :
    Call F → State → SinkProgram (Except Failure Unit × State)
  | .start settings => PravegaSink.start daysToSeconds settings
  | .render settings baseTime buffer =>
      PravegaSink.render checks settings baseTime buffer
  | .stop settings => PravegaSink.stop settings

/-- What may follow a call. -/
def Mode.after : Except Failure Unit × State → Mode
  | (.error .panicked, _) => .dead
  | _ => .live

/-- A new call begins: nothing has failed under it. -/
def World.begin (w : World) : World := { w with failed := false }

/-- The process dies. -/
def World.crash (w : World) : World := ⟨w.data.crash, w.index.crash, false⟩

variable (checks : Bool) (daysToSeconds : F → Int)
  (allowed : Call F → State → World → Prop)

inductive Step : Config F → Config F → Prop where
  | persist {w w' phase} : Persists w w' → Step ⟨w, phase⟩ ⟨w', phase⟩
  | call {w s} {call : Call F} : allowed call s w →
      Step ⟨w, .idle .live s⟩
        ⟨w.begin, .busy call (call.program checks daysToSeconds s)⟩
  | io {w w' c k r} {call : Call F} : Exec c w r w' →
      Step ⟨w, .busy call (.call c k)⟩ ⟨w', .busy call (k r)⟩
  | ret {w x} {call : Call F} :
      Step ⟨w, .busy call (.ret x)⟩ ⟨w, .idle (.after x) x.2⟩
  | crash {w phase} : Step ⟨w, phase⟩ ⟨w.crash, .idle .live .stopped⟩

/-- Two empty streams and no instance. -/
def Config.initial : Config F := ⟨⟨.empty, .empty, false⟩, .idle .live .stopped⟩

inductive Reaches : Config F → Prop where
  | initial : Reaches Config.initial
  | step {x y} : Reaches x → Step checks daysToSeconds allowed x y → Reaches y

/-- From one moment to a later one. -/
abbrev Leads : Config F → Config F → Prop :=
  Relation.ReflTransGen (Step checks daysToSeconds allowed)

end

/-- A step stays one where more is allowed. -/
theorem Step.mono {F : Type} {checks : Bool} {daysToSeconds : F → Int}
    {allowed allowed' : Call F → State → World → Prop} {x y : Config F}
    (h : Step checks daysToSeconds allowed x y)
    (himp : ∀ c s w, allowed c s w → allowed' c s w) :
    Step checks daysToSeconds allowed' x y := by
  cases h with
  | persist hw => exact .persist hw
  | call hallowed => exact .call (himp _ _ _ hallowed)
  | io hexec => exact .io hexec
  | ret => exact .ret
  | crash => exact .crash

theorem Step.quiet_or_call {F : Type} {checks : Bool} {daysToSeconds : F → Int}
    {allowed : Call F → State → World → Prop} {x y : Config F}
    (h : Step checks daysToSeconds allowed x y) :
    Step checks daysToSeconds (fun _ _ _ => False) x y ∨ ∃ w s c,
      x = ⟨w, .idle .live s⟩ ∧ allowed c s w ∧
      y = ⟨w.begin, .busy c (c.program checks daysToSeconds s)⟩ := by
  cases h with
  | persist hw => exact Or.inl (.persist hw)
  | call hallowed => exact Or.inr ⟨_, _, _, rfl, hallowed, rfl⟩
  | io hexec => exact Or.inl (.io hexec)
  | ret => exact Or.inl .ret
  | crash => exact Or.inl .crash

/-! ## A call on a started instance -/

section

variable {F : Type}

/-- What a call leaves of the events, the records and the state of a started instance, if
it does not panic and the instance is still there. -/
inductive Becomes (checks : Bool) : Call F → Started → List Event → List Record →
    Started → List Event → List Record → Prop where
  | untouched {c st E R st'} : c.isStart = false → Untouched st st' →
      Becomes checks c st E R st' E R
  | rendered {settings baseTime buffer timestamp included st E R st' E' R'} :
      Decided checks settings baseTime buffer st timestamp included →
      Rendered checks buffer timestamp included (st.noteValidTime timestamp) st' E E' R R' →
      Becomes checks (.render settings baseTime buffer) st E R st' E' R'
  | unflushed {settings baseTime buffer timestamp included st E R st' E' R'} :
      Decided checks settings baseTime buffer st timestamp included →
      Unflushed buffer timestamp included (st.noteValidTime timestamp) st' E E' R R' →
      Becomes checks (.render settings baseTime buffer) st E R st' E' R'
  | closed {settings st E R st' rs} : rs.map Record.toIndexRecord = finalRecords st →
      Untouched st st' → Becomes checks (.stop settings) st E R st' E (R ++ rs)

/-- A `render` that writes a record, and that fails when it cannot flush what it has written,
finds the writer where the last one has left it that did not fail so. -/
def KeepsOrder (checks : Bool) : Call F → State → Prop
  | .render settings baseTime buffer, .started st => ∀ timestamp,
      Decided checks settings baseTime buffer st timestamp true →
      buffer.flags.syncAfter = true → ∀ o, st.finalOffset = some o → o = st.writer.offset
  | _, _ => True

/-- The call writes a record that is not marked as a discontinuity: `render` of a
buffer that is indexed and none, `stop` with a final record. -/
def WritesUnmarked (checks : Bool) : Call F → State → Prop
  | .render settings baseTime buffer, .started st => ∃ timestamp,
      Decided checks settings baseTime buffer st timestamp true ∧
        isDiscontinuity buffer.flags st.buffersWritten true st.lastIndexTime = false
  | .stop _, .started st => finalRecords st ≠ []
  | _, _ => False

theorem of_mem_finalRecords {st : Started} {rs : List Record}
    (h : rs.map Record.toIndexRecord = finalRecords st) {r : Record} (hr : r ∈ rs) :
    st.finalOffset = some r.offset := by
  have hmem := List.mem_map_of_mem (f := Record.toIndexRecord) hr
  rw [h, finalRecords] at hmem
  split at hmem
  · next o ho =>
      split at hmem
      · rw [ho, List.mem_singleton.mp hmem]
        rfl
      · cases hmem
  · cases hmem

theorem Becomes.linked {checks : Bool} {needs : Needs} {c : Call F} {st st' : Started}
    {w w' : World} {E E' : List Event} {R R' : List Record}
    (h : Becomes checks c st E R st' E' R') (hview : View needs st w E R)
    (hview' : View needs st' w' E' R') (hlinked : Linked needs st E R)
    (horder : needs.sorted → KeepsOrder checks c (.started st)) : Linked needs st' E' R' := by
  cases h with
  | untouched _ huntouched => exact huntouched.linked hlinked
  | rendered _ hrendered => exact hrendered.steady.linked hview'
  | @unflushed _ _ _ timestamp _ _ _ _ _ _ _ hdecided hunflushed =>
      have hnoted : Linked needs (st.noteValidTime timestamp) E R := hlinked
      refine hunflushed.linked hnoted fun hn hincluded hsync o ho => ?_
      subst hincluded
      rw [← hview.offset]
      exact horder hn _ hdecided hsync o ho
  | closed hrs huntouched =>
      refine huntouched.linked fun o ho => ?_
      obtain ⟨hsorted, hle, hboundary⟩ := hlinked o ho
      refine ⟨fun hn r hr => ?_, hle, hboundary⟩
      rcases List.mem_append.mp hr with hr | hr
      · exact hsorted hn r hr
      · exact Nat.le_of_eq (Option.some_inj.mp ((of_mem_finalRecords hrs hr).symm.trans ho))

end

/-! ## The invariant -/

section

variable {F : Type} {needs : Needs} {known known' : Started → List Event → List Record → Prop}
  {w w' : World} {E : List Event} {R : List Record}

theorem World.Good.of_logs (h : Good needs w E R) (hdata : w'.data = w.data)
    (hindex : w'.index = w.index) : Good needs w' E R := by
  obtain ⟨data, index, failed⟩ := w
  obtain ⟨data', index', failed'⟩ := w'
  dsimp only at hdata hindex
  subst hdata hindex
  exact ⟨h.data, h.bounded, h.chunks, h.index, h.sorted, h.durable, h.boundary,
    h.covered⟩

theorem World.Inv.begin (h : Inv needs w) : Inv needs w.begin := by
  obtain ⟨E, R, hgood⟩ := h
  exact ⟨E, R, hgood.of_logs rfl rfl⟩

theorem World.Inv.persists (h : Inv needs w) (hw : Persists w w') : Inv needs w' := by
  obtain ⟨E, R, hgood⟩ := h
  exact ⟨E, R, hgood.persists hw⟩

theorem Whole.begin (h : Whole needs w E R) : Whole needs w.begin E R :=
  ⟨h.good.of_logs rfl rfl, h.data, h.index⟩

theorem View.begin {st : Started} (h : View needs st w E R) :
    View needs st w.begin E R := by
  obtain ⟨⟨evs, buffered, hE, hbuf, hgood⟩, hoffset⟩ := h
  exact ⟨⟨evs, buffered, hE, hbuf, hgood.of_logs rfl rfl⟩, hoffset⟩

/-- What survives a crash is whole: the durable data is cut between appends, so
between frames, and no surviving record points behind it. -/
theorem World.Good.crash (h : Good needs w E R) :
    ∃ E' R', Whole needs w.crash E' R' := by
  obtain ⟨rest, hrest⟩ := w.data.stored_prefix
  obtain ⟨E', hE'⟩ := Framed.flatten fun c hc =>
    h.chunks c (w.data.stored_prefix.subset hc)
  have hsplit : E'.flatMap Event.frame ++ rest.flatten = E.flatMap Event.frame := by
    rw [← hE', ← List.flatten_append, hrest, h.data]
  obtain ⟨more, rfl⟩ :=
    flatMap_prefix Event.frame_delimiting Event.frame_injective hsplit
  have htake : ∀ o, o ≤ w.data.stored.flatten.length →
      w.data.stored.flatten.take o = w.data.entries.flatten.take o := by
    intro o ho
    rw [← hrest, List.flatten_append, List.take_append_of_le_length ho]
  have hsub : ∀ r ∈ R.take w.index.durable, r ∈ R := fun r hr => List.mem_of_mem_take hr
  refine ⟨E', R.take w.index.durable, ⟨hE', ?_, ?_, ?_, ?_, ?_, ?_, ?_⟩, ?_, ?_⟩
  · exact Nat.lt_of_le_of_lt (stored_flatten_le _) h.bounded
  · exact fun c hc => h.chunks c (w.data.stored_prefix.subset hc)
  · show w.index.entries.take w.index.durable = _
    rw [h.index, List.map_take]
  · exact fun hn => (h.sorted hn).sublist (List.take_sublist _ _)
  · intro r hr
    show r.offset ≤ w.data.crash.stored.flatten.length
    rw [Log.crash_stored]
    exact h.durable r (hsub r hr)
  · intro r hr
    show Framed Event.frame (w.data.stored.flatten.take r.offset)
    rw [htake r.offset (h.durable r (hsub r hr))]
    exact h.boundary r (hsub r hr)
  · intro hm
    have hcovered := h.covered hm
    rw [← List.take_append_drop w.index.durable R] at hcovered
    exact hcovered.of_append
  · rfl
  · rfl

/-- Between two calls. `known` is what else is known of an instance. -/
def Idle (needs : Needs) (known : Started → List Event → List Record → Prop) (w : World) :
    Mode → State → Prop
  | .dead, _ => Inv needs w
  | .live, .stopped => ∃ E R, Whole needs w E R
  | .live, .started st => ∃ E R, View needs st w E R ∧ Linked needs st E R ∧ known st E R

/-- At any moment. -/
def Config.Inv (needs : Needs) (known : Started → List Event → List Record → Prop) :
    Config F → Prop
  | ⟨w, .idle mode s⟩ => Idle needs known w mode s
  | ⟨w, .busy _ p⟩ => World.Inv needs w ∧ Safe (arena needs) p
      (fun x w' => Idle needs known w' (.after x) x.2) w

theorem Idle.inv {mode : Mode} {s : State} (h : Idle needs known w mode s) :
    World.Inv needs w := by
  cases mode <;> cases s
  case live.stopped =>
    obtain ⟨E, R, hwhole⟩ := h
    exact hwhole.inv
  case live.started =>
    obtain ⟨E, R, hview, _⟩ := h
    exact hview.held.inv
  case dead.stopped | dead.started => exact h

theorem Idle.persists {mode : Mode} {s : State} (h : Idle needs known w mode s)
    (hw : Persists w w') : Idle needs known w' mode s := by
  cases mode <;> cases s
  case live.stopped =>
    obtain ⟨E, R, hwhole⟩ := h
    exact ⟨E, R, hwhole.persists hw⟩
  case live.started =>
    obtain ⟨E, R, hview, hst⟩ := h
    exact ⟨E, R, hview.persists hw, hst⟩
  case dead.stopped | dead.started => exact World.Inv.persists h hw

theorem Config.Inv.world {x : Config F} (h : x.Inv needs known) :
    World.Inv needs x.world := by
  obtain ⟨w, ⟨mode, s⟩ | ⟨call, p⟩⟩ := x
  · exact Idle.inv h
  · exact h.1

/-- However a call ends. -/
theorem idle_of_view {st : Started} {x : Except Failure Unit} (hview : View needs st w E R)
    (hlinked : Linked needs st E R) (hknown : known st E R) :
    Idle needs known w (.after (x, .started st)) (.started st) := by
  have hlive : Idle needs known w .live (.started st) := ⟨E, R, hview, hlinked, hknown⟩
  cases x with
  | ok _ => exact hlive
  | error e =>
      cases e with
      | panicked => exact hview.held.inv
      | error domain message => exact hlive
      | outOfFuel => exact hlive

variable {checks : Bool} {daysToSeconds : F → Int}

/-- A call begins where another may follow. -/
theorem safe_call {s : State} {c : Call F} (h : Idle needs known w .live s)
    (horder : needs.sorted → KeepsOrder checks c s)
    (hopen : needs.covered → ∀ st E R, s = .started st → View needs st w E R →
      known st E R → WritesUnmarked checks c s → Open R E)
    (hnew : ∀ bufferSize offset spawned E R,
      known' (Started.new bufferSize offset spawned) E R)
    (hbecomes : ∀ st E R st' E' R', s = .started st → View needs st w E R → known st E R →
      Becomes checks c st E R st' E' R' → known' st' E' R') :
    Safe (arena needs) (c.program checks daysToSeconds s)
      (fun x w' => Idle needs known' w' (.after x) x.2) w.begin := by
  cases s with
  | stopped =>
      obtain ⟨E, R, hwhole⟩ := h
      have hrefused : ∀ w', Persists w.begin w' → Idle needs known' w' .live .stopped :=
        fun w' hw => ⟨E, R, hwhole.begin.persists hw⟩
      cases c with
      | start settings =>
          refine safe_start hwhole.begin (fun spawned w' hw => ?_) fun e w' hw => ?_
          · exact ⟨E, R, hw.view _ _, fun _ ho => (nomatch ho), hnew _ _ _ _ _⟩
          · cases e with
            | panicked => exact hw.inv
            | error domain message => exact ⟨E, R, hw⟩
            | outOfFuel => exact ⟨E, R, hw⟩
      | render settings baseTime buffer => exact fun w' hw _ => hrefused w' hw
      | stop settings => exact fun w' hw _ => hrefused w' hw
  | started st =>
      obtain ⟨E, R, hview, hlinked, hknown⟩ := h
      have hleft : ∀ x st' w' E' R', View needs st' w' E' R' →
          Becomes checks c st E R st' E' R' →
          Idle needs known' w' (.after (x, .started st')) (.started st') :=
        fun x st' w' E' R' hview' hl => idle_of_view hview'
          (hl.linked hview hview' hlinked horder) (hbecomes _ _ _ _ _ _ rfl hview hknown hl)
      cases c with
      | start settings => exact fun w' hw hi => hi
      | render settings baseTime buffer =>
          refine safe_render hview.begin ?_ ?_ ?_
          · intro hn timestamp hdecided
            cases hd : isDiscontinuity buffer.flags st.buffersWritten true
                st.lastIndexTime with
            | true => exact Or.inl rfl
            | false => exact Or.inr (hopen hn _ _ _ rfl hview hknown ⟨timestamp, hdecided, hd⟩)
          · intro timestamp included st' w' E' R' hdecided hview' hrendered
            exact hleft _ _ _ _ _ hview' (.rendered hdecided hrendered)
          · intro e st' w' hfails hi
            cases hfails with
            | panicked => exact hi
            | untouched hview' huntouched _ =>
                exact hleft _ _ _ _ _ hview' (.untouched rfl huntouched)
            | written hview' hunflushed _ =>
                obtain ⟨timestamp, included, hdecided, hunflushed⟩ := hunflushed
                exact hleft _ _ _ _ _ hview' (.unflushed hdecided hunflushed)
      | stop settings =>
          refine safe_stop hview.begin hlinked
            (fun hn hfinal => hopen hn _ _ _ rfl hview hknown hfinal) ?_ ?_
          · intro rs w' _ hwhole
            exact ⟨E, R ++ rs, hwhole⟩
          · intro e st' w' hfails hi
            cases hfails with
            | panicked => exact hi
            | left hrs hview' huntouched =>
                rcases hrs with rfl | hrs
                · rw [List.append_nil] at hview'
                  exact hleft _ _ _ _ _ hview' (.untouched rfl huntouched)
                · exact hleft _ _ _ _ _ hview' (.closed hrs huntouched)

/-- A step in which no call begins. -/
theorem Config.Inv.quiet {x y : Config F} (h : x.Inv needs known)
    (hstep : Step checks daysToSeconds (fun _ _ _ => False) x y) : y.Inv needs known := by
  cases hstep with
  | @persist w w' phase hw =>
      cases phase with
      | idle mode s => exact Idle.persists h hw
      | busy c p => exact ⟨h.1.persists hw, h.2.rely hw⟩
  | call hf => exact hf.elim
  | @io w w' c k r call hexec =>
      obtain ⟨hi, -, hk⟩ := h.2 w (Persists.refl w) h.1 r w' hexec
      exact ⟨hi, hk⟩
  | @ret w x c => exact h.2 w (Persists.refl w) h.1
  | @crash w phase =>
      obtain ⟨E, R, hgood⟩ := h.world
      exact hgood.crash

/-- Every step keeps the invariant, where marked records are not asked for. -/
theorem Config.Inv.step (hn : ¬ needs.covered) {allowed : Call F → State → World → Prop}
    (hallowed : needs.sorted → ∀ c s w, allowed c s w → KeepsOrder checks c s)
    {x y : Config F} (h : x.Inv needs fun _ _ _ => True)
    (hstep : Step checks daysToSeconds allowed x y) : y.Inv needs fun _ _ _ => True := by
  obtain hquiet | ⟨w, s, c, rfl, hcall, rfl⟩ := hstep.quiet_or_call
  · exact h.quiet hquiet
  · have h : Idle needs (fun _ _ _ => True) w .live s := h
    exact ⟨h.inv.begin, safe_call h (fun hs => hallowed hs c s w hcall)
      (fun hcovered => absurd hcovered hn) (fun _ _ _ _ _ => trivial)
      fun _ _ _ _ _ _ _ _ _ _ => trivial⟩

/-- Two empty streams. -/
theorem whole_empty {failed : Bool} : Whole needs ⟨.empty, .empty, failed⟩ [] [] := by
  refine ⟨⟨rfl, ?_, ?_, rfl, fun _ => List.Pairwise.nil, ?_, ?_, ?_⟩, rfl, rfl⟩
  · exact Nat.two_pow_pos 63
  · exact fun c hc => nomatch hc
  · exact fun r hr => nomatch hr
  · exact fun r hr => nomatch hr
  · exact fun _ => Covered.nil []

theorem Config.initial_inv : (Config.initial : Config F).Inv needs known :=
  ⟨[], [], whole_empty⟩

/-- A history that keeps to what is allowed keeps the invariant. -/
theorem Reaches.inv (hn : ¬ needs.covered) {allowed : Call F → State → World → Prop}
    (hallowed : needs.sorted → ∀ c s w, allowed c s w → KeepsOrder checks c s)
    {x : Config F} (h : Reaches checks daysToSeconds allowed x) :
    x.Inv needs fun _ _ _ => True := by
  induction h with
  | initial => exact Config.initial_inv
  | step _ hstep ih => exact ih.step hn hallowed hstep

/-- Whatever is allowed. -/
theorem Reaches.plain {allowed : Call F → State → World → Prop} {x : Config F}
    (h : Reaches checks daysToSeconds allowed x) : x.Inv .plain fun _ _ _ => True := by
  refine h.inv id fun hf => ?_
  exact hf.elim

theorem Reaches.leads {allowed : Call F → State → World → Prop} {x y : Config F}
    (h : Reaches checks daysToSeconds allowed x)
    (hrun : Leads checks daysToSeconds allowed x y) :
    Reaches checks daysToSeconds allowed y := by
  induction hrun with
  | refl => exact h
  | tail _ hstep ih => exact ih.step hstep

/-! ## Histories that run -/

/-- A client that does what it is asked, as far as a stream can grow. -/
def World.answer : (c : SinkCmd) → World → c.Res × World
  | .seekToTail s, w => ((w.get s).stored.flatten.length, w)
  | .append s bytes, w =>
      if (w.get s).entries.flatten.length + bytes.length < 2 ^ 63 then
        (.ok (), w.set ((w.get s).append bytes) s)
      else (.error ⟨.other, "stream is full"⟩, w.fail)
  | .flush s, w => (.ok (), w.set (w.get s).flush s)
  | .seal _, w => (.ok (), w)
  | .createClientConfig .., w => (.ok (), w)
  | .createScope _, w => (.ok (), w)
  | .createStream .., w => (.ok (), w)
  | .spawnRetention .., w => ((), w)
  | .joinRetention, w => ((), w)

theorem World.answer_exec (c : SinkCmd) (w : World) :
    Exec c w (answer c w).1 (answer c w).2 := by
  cases c with
  | append s bytes =>
      rw [answer]
      split
      · next h => exact Or.inl ⟨rfl, h, rfl⟩
      · exact Or.inr ⟨⟨_, rfl⟩, rfl⟩
  | seekToTail s => exact ⟨rfl, rfl⟩
  | flush s => exact Or.inl ⟨rfl, rfl⟩
  | «seal» s => exact Or.inl ⟨rfl, rfl⟩
  | createClientConfig controller file => exact rfl
  | createScope scope => exact rfl
  | createStream scope stream => exact rfl
  | spawnRetention limits interval => exact rfl
  | joinRetention => exact rfl

/-- All that was appended has become durable. -/
def World.settle (w : World) : World :=
  { w with data := w.data.flush, index := w.index.flush }

theorem World.persists_settle (w : World) : Persists w w.settle :=
  ⟨⟨rfl, w.data.durable_le⟩, ⟨rfl, w.index.durable_le⟩, rfl⟩

/-- A call goes on with a client of which each answer is one that may be given. -/
theorem Leads.answered {allowed : Call F → State → World → Prop} {x : Config F}
    {answer : (c : SinkCmd) → World → c.Res × World}
    (hanswer : ∀ c w, Exec c w (answer c w).1 (answer c w).2)
    {c : Call F} {p : SinkProgram (Except Failure Unit × State)}
    (h : Leads checks daysToSeconds allowed x ⟨w, .busy c p⟩) :
    Leads checks daysToSeconds allowed x
      ⟨(run answer p w).2, .busy c (.ret (run answer p w).1)⟩ := by
  induction p generalizing w with
  | ret x => exact h
  | call c k ih => exact ih _ (h.tail (.io (hanswer c w)))

/-- A whole call with such a client, which does not panic. -/
theorem Leads.left {allowed : Call F → State → World → Prop} {x : Config F}
    {answer : (c : SinkCmd) → World → c.Res × World}
    (hanswer : ∀ c w, Exec c w (answer c w).1 (answer c w).2) {c : Call F} {s : State}
    (h : Leads checks daysToSeconds allowed x ⟨w, .idle .live s⟩) (hc : allowed c s w)
    (hlive : Mode.after (run answer (c.program checks daysToSeconds s) w.begin).1 = .live) :
    Leads checks daysToSeconds allowed x
      ⟨(run answer (c.program checks daysToSeconds s) w.begin).2,
        .idle .live (run answer (c.program checks daysToSeconds s) w.begin).1.2⟩ := by
  have hret := (Leads.answered hanswer (h.tail (.call hc))).tail .ret
  rw [hlive] at hret
  exact hret

/-- A whole call with such a client. -/
def played (checks : Bool) (daysToSeconds : F → Int) (c : Call F) (x : World × State) :
    (Except Failure Unit × State) × World :=
  run World.answer (c.program checks daysToSeconds x.2) x.1.begin

/-- Calls with such a client, one after another: where they lead, and whether
they all succeed. -/
def plays (checks : Bool) (daysToSeconds : F → Int) :
    List (Call F) → World × State → (World × State) × Bool
  | [], x => (x, true)
  | c :: cs, x =>
      let r := played checks daysToSeconds c x
      let rest := plays checks daysToSeconds cs (r.2, r.1.2)
      (rest.1, decide (r.1.1 = .ok ()) && rest.2)

/-- Each of them is allowed where it is made. -/
def AllowedAlong (checks : Bool) (daysToSeconds : F → Int)
    (allowed : Call F → State → World → Prop) : List (Call F) → World × State → Prop
  | [], _ => True
  | c :: cs, x => allowed c x.2 x.1 ∧
      AllowedAlong checks daysToSeconds allowed cs
        ((played checks daysToSeconds c x).2, (played checks daysToSeconds c x).1.2)

/-- A call under way that succeeds. -/
theorem Leads.finished {allowed : Call F → State → World → Prop} {x : Config F}
    {c : Call F} {s s' : State}
    (h : Leads checks daysToSeconds allowed x
      ⟨w.begin, .busy c (c.program checks daysToSeconds s)⟩)
    (hrun : played checks daysToSeconds c (w, s) = ((.ok (), s'), w')) :
    Leads checks daysToSeconds allowed x ⟨w', .idle .live s'⟩ := by
  have hret := (Leads.answered World.answer_exec h).tail .ret
  rw [played] at hrun
  rw [hrun] at hret
  exact hret

/-- A whole call that succeeds. -/
theorem Leads.called {allowed : Call F → State → World → Prop} {x : Config F} {c : Call F}
    {s s' : State} (h : Leads checks daysToSeconds allowed x ⟨w, .idle .live s⟩)
    (hc : allowed c s w)
    (hrun : played checks daysToSeconds c (w, s) = ((.ok (), s'), w')) :
    Leads checks daysToSeconds allowed x ⟨w', .idle .live s'⟩ :=
  Leads.finished (h.tail (.call hc)) hrun

theorem Leads.plays {allowed : Call F → State → World → Prop} {y : Config F}
    (cs : List (Call F)) :
    ∀ x : World × State, AllowedAlong checks daysToSeconds allowed cs x →
      Leads checks daysToSeconds allowed y ⟨x.1, .idle .live x.2⟩ →
      (plays checks daysToSeconds cs x).2 = true →
      Leads checks daysToSeconds allowed y
        ⟨(plays checks daysToSeconds cs x).1.1,
          .idle .live (plays checks daysToSeconds cs x).1.2⟩ := by
  induction cs with
  | nil => exact fun _ _ h _ => h
  | cons c cs ih =>
      intro x hcs h hok
      obtain ⟨hc, hcs⟩ := hcs
      rw [PravegaSink.plays] at hok ⊢
      obtain ⟨hr, hok⟩ := Bool.and_eq_true_iff.mp hok
      have hr := of_decide_eq_true hr
      refine ih _ hcs (Leads.called h hc ?_) hok
      exact Prod.ext (Prod.ext hr rfl) rfl

theorem Reaches.called {allowed : Call F → State → World → Prop} {c : Call F}
    {s s' : State} (h : Reaches checks daysToSeconds allowed ⟨w, .idle .live s⟩)
    (hc : allowed c s w)
    (hrun : played checks daysToSeconds c (w, s) = ((.ok (), s'), w')) :
    Reaches checks daysToSeconds allowed ⟨w', .idle .live s'⟩ :=
  h.leads (Leads.called .refl hc hrun)

theorem Reaches.left {allowed : Call F → State → World → Prop}
    {answer : (c : SinkCmd) → World → c.Res × World}
    (hanswer : ∀ c w, Exec c w (answer c w).1 (answer c w).2) {c : Call F} {s : State}
    (h : Reaches checks daysToSeconds allowed ⟨w, .idle .live s⟩) (hc : allowed c s w)
    (hlive : Mode.after (run answer (c.program checks daysToSeconds s) w.begin).1 = .live) :
    Reaches checks daysToSeconds allowed
      ⟨(run answer (c.program checks daysToSeconds s) w.begin).2,
        .idle .live (run answer (c.program checks daysToSeconds s) w.begin).1.2⟩ :=
  h.leads (Leads.left hanswer .refl hc hlive)

/-- The default settings, for a stream. -/
def cameraSettings : Settings Unit :=
  { Settings.default with scope := some "examples", stream := some "camera" }

/-- A buffer for a sink with these settings. -/
def cameraRender (pts : UInt64) (flags : BufferFlags) (payload : List UInt8) :
    Call Unit :=
  .render cameraSettings none
    ⟨ClockTime.store (some pts), none, flags, payload, true, none, none⟩

/-- The instance once a key frame at one second is written, the data ending at
`dataOffset`. -/
def keyStarted (payload : List UInt8) (dataOffset : Nat) : Started where
  writer := ⟨⟨128 * 1024, payload⟩, dataOffset⟩
  firstValidTime := ⟨some 1000000000⟩
  lastIndexTime := ⟨some 1000000000⟩
  finalTimestamp := ⟨some 1000000001⟩
  finalOffset := some dataOffset
  buffersWritten := 1
  retentionThreadHandle := false

/-- The event of the key frame with one byte. -/
def keyEvent : EventWithHeader := ⟨⟨⟨some 1000000000⟩, true, true, true⟩, [7]⟩

/-- Calls from the beginning. -/
def cameraHistory (cs : List (Call Unit)) : (World × State) × Bool :=
  plays true (fun _ => 0) cs (⟨.empty, .empty, false⟩, .stopped)

theorem reaches_cameraHistory {allowed : Call Unit → State → World → Prop}
    {cs : List (Call Unit)} (hok : (cameraHistory cs).2 = true)
    (hcs : AllowedAlong true (fun _ => 0) allowed cs
      (⟨.empty, .empty, false⟩, .stopped)) :
    Reaches true (fun _ : Unit => 0) allowed
      ⟨(cameraHistory cs).1.1, .idle .live (cameraHistory cs).1.2⟩ :=
  Reaches.initial.leads (Leads.plays cs _ hcs .refl hok)

theorem allowedAlong_true {cs : List (Call F)} {x : World × State} :
    AllowedAlong checks daysToSeconds (fun _ _ _ => True) cs x := by
  induction cs generalizing x with
  | nil => exact trivial
  | cons c cs ih => exact ⟨trivial, ih⟩

end

end GstPravega.Plugin.PravegaSink
