import GstPravega.Proofs.CrashSafety

/-!
# Where the marks of the index fall short

The index promises that a reader who goes from one record to a later one without
meeting a marked record reads data that was written continuously. The sink marks
the record of a buffer that is a discontinuity, but such a buffer need not be
indexed: a delta unit is not, nor is a key frame too soon after the last record.
Then the data holds a marked event that no record announces, and the next record
that is not marked breaks the promise. So does the final record, which is never
marked, behind a session that had no other.

So a record without a mark has to be the first of the index, or come from an
instance that has written one before, and has since then been given no such
buffer. In every history whose calls keep to that, the promise is kept. What an
instance has been given is read off the calls: `Tracked` are the histories with
a record of them.
-/

namespace GstPravega.Plugin.PravegaSink

open GstPravega.Lib GstPravega.Client GstPravega.Gst GstPravega.Video GstPravega.Lib.Program

open World

/-- Between two records with no mark behind the first, no event is marked. -/
def MarksCovered (w : World) : Prop :=
  ∀ evs rs, w.data.entries.flatten = evs.flatMap Event.frame →
    w.index.entries.flatten = rs.flatMap Record.frame → Covered rs evs

theorem World.Good.marksCovered {w : World} {E : List Event} {R : List Record}
    (h : Good .marked w E R) : MarksCovered w := by
  intro evs rs hevs hrs
  rw [h.data] at hevs
  rw [h.index, ← List.flatMap_def] at hrs
  rw [← flatMap_injective Event.frame_delimiting Event.frame_injective hevs,
    ← flatMap_injective Record.frame_delimiting Record.frame_injective hrs]
  exact h.covered trivial

/-! ## The calls on an instance -/

section Histories

variable {F : Type}

/-- A call that was made, and what it found. -/
structure Made (F : Type) where
  call : Call F
  state : State
  world : World

/-- The calls on the instance that is there, the last one first: those since one was
started. -/
def ofInstance (made : List (Made F)) : List (Made F) :=
  made.takeWhile fun m => !m.call.isStart

/-- A buffer with a payload that is a discontinuity, and that is not indexed. -/
def Unannounced (checks : Bool) : Call F → State → Prop
  | .render settings baseTime buffer, .started st => buffer.payload ≠ [] ∧ ∃ timestamp,
      Decided checks settings baseTime buffer st timestamp false ∧
        isDiscontinuity buffer.flags st.buffersWritten false st.lastIndexTime = true
  | _, _ => False

/-- The instance has been given such a buffer since the last of these records was written.
Or it has been told to stop, and has failed to. -/
def Owes (checks : Bool) (made : List (Made F)) (records : Nat) : Prop :=
  ∃ m ∈ ofInstance made, m.call.isStop = true ∨
    (m.world.index.entries.length = records ∧ Unannounced checks m.call m.state)

/-- If the call writes a record that is not marked, it is the first of the index; or the
instance has written one before, and owes none for a discontinuity since. -/
def Announced (checks : Bool) (made : List (Made F)) (c : Call F) (s : State) (w : World) :
    Prop :=
  WritesUnmarked checks c s → w.index.entries = [] ∨
    (∃ st, s = .started st ∧ st.lastIndexTime.isSome = true) ∧
      ¬ Owes checks made w.index.entries.length

variable (checks : Bool) (daysToSeconds : F → Int)
  (allowed : List (Made F) → Call F → State → World → Prop)

/-- Histories with the calls that were made, the last one first. -/
inductive Tracked : List (Made F) → Config F → Prop where
  | initial : Tracked [] Config.initial
  | quiet {made x y} : Tracked made x →
      Step checks daysToSeconds (fun _ _ _ => False) x y → Tracked made y
  | call {made w s c} : Tracked made ⟨w, .idle .live s⟩ → allowed made c s w →
      Tracked (⟨c, s, w⟩ :: made) ⟨w.begin, .busy c (c.program checks daysToSeconds s)⟩

variable {checks daysToSeconds allowed}

/-- Every history is one of them, where every call is allowed. -/
theorem reaches_iff_tracked {x : Config F} :
    Reaches checks daysToSeconds (fun _ _ _ => True) x ↔
      ∃ made, Tracked checks daysToSeconds (fun _ _ _ _ => True) made x := by
  constructor
  · intro h
    induction h with
    | initial => exact ⟨[], .initial⟩
    | step _ hstep ih =>
        obtain ⟨made, ih⟩ := ih
        obtain hquiet | ⟨w, s, c, rfl, _, rfl⟩ := hstep.quiet_or_call
        · exact ⟨made, ih.quiet hquiet⟩
        · exact ⟨_, ih.call trivial⟩
  · rintro ⟨made, h⟩
    induction h with
    | initial => exact .initial
    | quiet _ hstep ih => exact ih.step (hstep.mono fun _ _ _ hf => hf.elim)
    | call _ _ ih => exact ih.step (.call trivial)

/-! ### What an instance owes -/

section Owes

variable {made : List (Made F)} {c : Call F} {s : State} {w : World} {records : Nat}

theorem Owes.cons (hc : c.isStart = false) (h : Owes checks made records) :
    Owes checks (⟨c, s, w⟩ :: made) records := by
  obtain ⟨m, hm, h⟩ := h
  refine ⟨m, ?_, h⟩
  rw [ofInstance, List.takeWhile_cons_of_pos (by rw [hc]; rfl)]
  exact List.mem_cons_of_mem _ hm

theorem owes_of_last (hc : c.isStart = false) (h : c.isStop = true ∨
    (w.index.entries.length = records ∧ Unannounced checks c s)) :
    Owes checks (⟨c, s, w⟩ :: made) records := by
  refine ⟨⟨c, s, w⟩, ?_, h⟩
  rw [ofInstance, List.takeWhile_cons_of_pos (by rw [hc]; rfl)]
  exact List.mem_cons_self

/-- The index is open for an instance that has written a record and owes none. -/
def Settled (checks : Bool) (made : List (Made F)) (st : Started) (E : List Event)
    (R : List Record) : Prop :=
  st.lastIndexTime.isSome = true → ¬ Owes checks made R.length → Open R E

variable {st st' : Started} {E E' : List Event} {R R' : List Record} {buffer : Buffer}
  {timestamp : PravegaTimestamp}

/-- A buffer that is indexed leaves the index open if its record is marked, or found it so. -/
theorem Wrote.open_of_included (h : Wrote buffer timestamp true st st' E E' R R')
    (hopen : isDiscontinuity buffer.flags st.buffersWritten true st.lastIndexTime = true ∨
      Open R E) : Open R' E' := by
  obtain ⟨rs, rfl, hrs⟩ := h.records
  obtain ⟨c, rfl, hc⟩ := List.map_eq_singleton_iff.mp hrs
  have hoffset : c.offset = (E.flatMap Event.frame).length := congrArg IndexRecord.offset hc
  have hmark : c.discontinuity =
      isDiscontinuity buffer.flags st.buffersWritten true st.lastIndexTime :=
    congrArg IndexRecord.discontinuity hc
  have hE : Open (R ++ [c]) E := by
    refine Open.append_record (hmark ▸ hopen) fun o e he _ => ?_
    have hle := (le_of_mem_layout he).2
    omega
  rw [h.events]
  cases hd : isDiscontinuity buffer.flags st.buffersWritten true st.lastIndexTime with
  | true =>
      refine hE.append_announced (hmark.trans hd) fun o e he hmarked => ?_
      rw [hoffset]
      exact Nat.le_of_eq (eq_of_discontinuity_fragments he hmarked).1
  | false =>
      exact hE.append_events fun e he => discontinuity_of_mem_fragments (Or.inr rfl) he

/-- Another one does if it is no discontinuity, or writes no event. -/
theorem Wrote.open_of_not_included (h : Wrote buffer timestamp false st st' E E' R R')
    (hopen : Open R E) (hquiet : buffer.payload = [] ∨
      isDiscontinuity buffer.flags st.buffersWritten false st.lastIndexTime = false) :
    R' = R ∧ Open R' E' := by
  obtain ⟨rs, rfl, hrs⟩ := h.records
  obtain rfl : rs = [] := List.map_eq_nil_iff.mp hrs
  rw [List.append_nil, h.events]
  exact ⟨rfl, hopen.append_events fun e he => discontinuity_of_mem_fragments hquiet he⟩

end Owes

/-! ### The run -/

theorem View.entries_length {st : Started} {w : World} {E : List Event} {R : List Record}
    (h : View .marked st w E R) : w.index.entries.length = R.length := by
  rw [h.index, List.length_map]

/-- An allowed call finds the index open for a record that is not marked. -/
theorem Announced.open {made : List (Made F)} {c : Call F} {st : Started} {w : World}
    {E : List Event} {R : List Record} (h : Announced checks made c (.started st) w)
    (hview : View .marked st w E R) (hsettled : Settled checks made st E R)
    (hunmarked : WritesUnmarked checks c (.started st)) : Open R E := by
  rcases h hunmarked with hempty | ⟨⟨st', hst, hlast⟩, howes⟩
  · rw [hview.index, List.map_eq_nil_iff] at hempty
    subst hempty
    exact Open.nil E
  · injection hst with hst
    subst hst
    rw [hview.entries_length] at howes
    exact hsettled hlast howes

section

variable {made : List (Made F)} {settings : Settings F} {baseTime : ClockTime}
  {buffer : Buffer} {timestamp : PravegaTimestamp} {included : Bool} {st st' : Started}
  {w : World} {E E' : List Event} {R R' : List Record}

theorem Wrote.settled
    (h : Wrote buffer timestamp included (st.noteValidTime timestamp) st' E E' R R')
    (hdecided : Decided checks settings baseTime buffer st timestamp included)
    (hview : View .marked st w E R) (hsettled : Settled checks made st E R)
    (hannounced : Announced checks made (.render settings baseTime buffer) (.started st) w) :
    Settled checks (⟨.render settings baseTime buffer, .started st, w⟩ :: made) st' E' R' := by
  intro hlast howes
  cases included with
  | true =>
      refine h.open_of_included ?_
      cases hd : isDiscontinuity buffer.flags st.buffersWritten true st.lastIndexTime with
      | true => exact Or.inl hd
      | false => exact Or.inr (hannounced.open hview hsettled ⟨timestamp, hdecided, hd⟩)
  | false =>
      obtain ⟨rs, rfl, hrs⟩ := h.records
      obtain rfl : rs = [] := List.map_eq_nil_iff.mp hrs
      rw [List.append_nil] at h howes ⊢
      have hkept : st'.lastIndexTime = st.lastIndexTime := h.lastIndexTime
      rw [hkept] at hlast
      refine (h.open_of_not_included (hsettled hlast fun ho => howes (ho.cons rfl)) ?_).2
      by_contra hnot
      obtain ⟨hpayload, hmarked⟩ := not_or.mp hnot
      exact howes (owes_of_last rfl (Or.inr ⟨hview.entries_length, hpayload, timestamp,
        hdecided, eq_true_of_ne_false hmarked⟩))

/-- What a call on the instance leaves is settled again. -/
theorem Becomes.settled {c : Call F} (h : Becomes checks c st E R st' E' R')
    (hview : View .marked st w E R) (hsettled : Settled checks made st E R)
    (hannounced : Announced checks made c (.started st) w) :
    Settled checks (⟨c, .started st, w⟩ :: made) st' E' R' := by
  cases h with
  | untouched hc huntouched =>
      intro hlast howes
      rw [huntouched.lastIndexTime] at hlast
      exact hsettled hlast fun h => howes (h.cons hc)
  | rendered hdecided hrendered =>
      exact hrendered.toWrote.settled hdecided hview hsettled hannounced
  | unflushed hdecided hunflushed =>
      exact hunflushed.toWrote.settled hdecided hview hsettled hannounced
  | closed _ _ => exact fun _ howes => absurd (owes_of_last rfl (Or.inl rfl)) howes

end

/-- An instance that has just started has written no record. -/
theorem settled_new {made : List (Made F)} {bufferSize offset : Nat} {spawned : Bool}
    {E : List Event} {R : List Record} :
    Settled checks made (Started.new bufferSize offset spawned) E R :=
  fun hlast => nomatch hlast

theorem Tracked.inv {made : List (Made F)} {x : Config F}
    (h : Tracked checks daysToSeconds (Announced checks) made x) :
    x.Inv .marked (Settled checks made) := by
  induction h with
  | initial => exact Config.initial_inv
  | quiet _ hstep ih => exact ih.quiet hstep
  | @call made w s c _ hannounced ih =>
      have h : Idle .marked (Settled checks made) w .live s := ih
      refine ⟨h.inv.begin, safe_call h (fun hs => hs.elim) ?_ (fun _ _ _ _ _ => settled_new) ?_⟩
      · intro _ st E R hs hview hsettled hunmarked
        subst hs
        exact hannounced.open hview hsettled hunmarked
      · intro st E R st' E' R' hs hview hsettled hbecomes
        subst hs
        exact hbecomes.settled hview hsettled hannounced

/-- Histories in which each record that is not marked is announced. -/
theorem marks_covered {made : List (Made F)} {x : Config F}
    (h : Tracked checks daysToSeconds (Announced checks) made x) : MarksCovered x.world := by
  obtain ⟨E, R, hgood⟩ := h.inv.world
  exact hgood.marksCovered

/-! ### Calls with a client that does what it is asked -/

theorem Tracked.leads {made : List (Made F)} {x y : Config F}
    (h : Tracked checks daysToSeconds allowed made x)
    (hrun : Leads checks daysToSeconds (fun _ _ _ => False) x y) :
    Tracked checks daysToSeconds allowed made y := by
  induction hrun with
  | refl => exact h
  | tail _ hstep ih => exact ih.quiet hstep

/-- The call may have been such a buffer without a record, or such a stop. -/
def Made.mayOwe (records : Nat) (m : Made F) : Bool :=
  m.call.isStop || (m.world.index.entries.length == records &&
    match m.call, m.state with
    | .render _ _ buffer, .started st =>
        isDiscontinuity buffer.flags st.buffersWritten false st.lastIndexTime
    | _, _ => false)

theorem Owes.any {made : List (Made F)} {records : Nat} (h : Owes checks made records) :
    (ofInstance made).any (Made.mayOwe records) = true := by
  obtain ⟨m, hm, h⟩ := h
  refine List.any_eq_true.mpr ⟨m, hm, ?_⟩
  obtain ⟨call, state, world⟩ := m
  rcases h with hstop | ⟨hlength, hunannounced⟩
  · exact Bool.or_eq_true_iff.mpr (Or.inl hstop)
  · refine Bool.or_eq_true_iff.mpr (Or.inr (Bool.and_eq_true_iff.mpr ⟨beq_iff_eq.mpr hlength, ?_⟩))
    cases call <;> cases state
    case render.started settings baseTime buffer st =>
      obtain ⟨_, _, _, hd⟩ := hunannounced
      exact hd
    all_goals exact hunannounced.elim

/-- Whatever is called here is announced. -/
def announces (made : List (Made F)) (s : State) (w : World) : Bool :=
  w.index.entries.isEmpty || match s with
  | .started st => st.lastIndexTime.isSome &&
      !(ofInstance made).any (Made.mayOwe w.index.entries.length)
  | .stopped => true

theorem announced_of_announces {made : List (Made F)} {c : Call F} {s : State} {w : World}
    (h : announces made s w = true) : Announced checks made c s w := by
  intro hunmarked
  rcases Bool.or_eq_true_iff.mp h with hempty | h
  · exact Or.inl (List.isEmpty_iff.mp hempty)
  · cases s with
    | stopped => cases c <;> exact hunmarked.elim
    | started st =>
        obtain ⟨hlast, howes⟩ := Bool.and_eq_true_iff.mp h
        refine Or.inr ⟨⟨st, rfl, hlast⟩, fun ho => ?_⟩
        rw [ho.any] at howes
        cases howes

/-- Calls that all succeed, and that are announced: what was called, and where they lead. -/
def tracks (checks : Bool) (daysToSeconds : F → Int) : List (Call F) →
    List (Made F) × World × State → (List (Made F) × World × State) × Bool
  | [], x => (x, true)
  | c :: cs, ⟨made, w, s⟩ =>
      let r := played checks daysToSeconds c (w, s)
      let rest := tracks checks daysToSeconds cs (⟨c, s, w⟩ :: made, r.2, r.1.2)
      (rest.1, decide (r.1.1 = .ok ()) && announces made s w && rest.2)

theorem Tracked.tracks (cs : List (Call F)) : ∀ x : List (Made F) × World × State,
    Tracked checks daysToSeconds (Announced checks) x.1 ⟨x.2.1, .idle .live x.2.2⟩ →
    (PravegaSink.tracks checks daysToSeconds cs x).2 = true →
    Tracked checks daysToSeconds (Announced checks)
      (PravegaSink.tracks checks daysToSeconds cs x).1.1
      ⟨(PravegaSink.tracks checks daysToSeconds cs x).1.2.1,
        .idle .live (PravegaSink.tracks checks daysToSeconds cs x).1.2.2⟩ := by
  induction cs with
  | nil => exact fun _ h _ => h
  | cons c cs ih =>
      rintro ⟨made, w, s⟩ h hok
      rw [PravegaSink.tracks] at hok ⊢
      obtain ⟨hr, hok⟩ := Bool.and_eq_true_iff.mp hok
      obtain ⟨hr, hannounces⟩ := Bool.and_eq_true_iff.mp hr
      have hr := of_decide_eq_true hr
      refine ih _ ?_ hok
      refine (h.call (announced_of_announces hannounces)).leads (Leads.finished .refl ?_)
      exact Prod.ext (Prod.ext hr rfl) rfl

end Histories

/-- Two key frames with a delta unit between them, and a stop: the second record and the final
one are not marked. -/
def continuous : List (Call Unit) := [.start cameraSettings,
  cameraRender 1000000000 BufferFlags.empty [1],
  cameraRender 2000000000 ⟨true, false, false, false⟩ [2],
  cameraRender 3000000000 BufferFlags.empty [3], .stop cameraSettings]

/-- What is made of calls from the beginning. -/
def cameraTracks (cs : List (Call Unit)) : (List (Made Unit) × World × State) × Bool :=
  tracks true (fun _ => 0) cs ([], ⟨.empty, .empty, false⟩, .stopped)

theorem tracked_cameraTracks {cs : List (Call Unit)} (hok : (cameraTracks cs).2 = true) :
    Tracked true (fun _ => 0) (Announced true) (cameraTracks cs).1.1
      ⟨(cameraTracks cs).1.2.1, .idle .live (cameraTracks cs).1.2.2⟩ :=
  Tracked.tracks cs _ .initial hok

theorem marks_covered_continuous : MarksCovered (cameraTracks continuous).1.2.1 := by
  have hok : (cameraTracks continuous).2 = true := by decide +kernel
  -- Nothing below looks into the run.
  generalize continuous = cs at hok ⊢
  exact marks_covered (tracked_cameraTracks hok)

/-- A key frame, a delta unit marked as a discontinuity, a key frame. -/
def unannounced : List (Call Unit) := [.start cameraSettings,
  cameraRender 1000000000 BufferFlags.empty [1],
  cameraRender 2000000000 ⟨true, true, false, false⟩ [2],
  cameraRender 3000000000 BufferFlags.empty [3], .stop cameraSettings]

def unannouncedEvents : List Event :=
  [EventWithHeader.stored ⟨⟨⟨some 1000000000⟩, true, true, true⟩, [1]⟩ (by decide),
    EventWithHeader.stored ⟨⟨⟨some 2000000000⟩, false, false, true⟩, [2]⟩ (by decide),
    EventWithHeader.stored ⟨⟨⟨some 3000000000⟩, true, true, false⟩, [3]⟩ (by decide)]

def unannouncedRecords : List Record :=
  [⟨⟨⟨some 1000000000⟩, 0, true, true⟩, by decide, by decide⟩,
    ⟨⟨⟨some 3000000000⟩, 42, true, false⟩, by decide, by decide⟩,
    ⟨⟨⟨some 3000000001⟩, 63, false, false⟩, by decide, by decide⟩]

/-- The delta unit stands at 21, between the records at 0 and at 42. -/
theorem not_covered_unannounced : ¬ Covered unannouncedRecords unannouncedEvents := by
  intro hcovered
  have hcontinuous : Continuous unannouncedRecords 0 1 := by
    intro i r hi hi' hr
    have hone : i = 1 := by omega
    subst hone
    injection hr with hr
    rw [← hr]
  have hdelta := hcovered 0 1 _ _ Nat.zero_lt_one rfl rfl hcontinuous 21
    (EventWithHeader.stored ⟨⟨⟨some 2000000000⟩, false, false, true⟩, [2]⟩ (by decide))
    (by decide +kernel) (by decide) (by decide)
  exact absurd hdelta (by decide)

theorem marks_uncovered_unannounced :
    ¬ ∀ (w : World) (phase : Phase Unit),
      Reaches true (fun _ => 0) (fun _ _ _ => True) ⟨w, phase⟩ → MarksCovered w := by
  intro hall
  have hok : (cameraHistory unannounced).2 = true := by decide +kernel
  have hcovered := hall _ _ (reaches_cameraHistory hok allowedAlong_true)
  refine not_covered_unannounced (hcovered _ _ ?_ ?_)
  · decide +kernel
  · decide +kernel

end GstPravega.Plugin.PravegaSink
