import GstPravega.Proofs.SinkHistory

/-!
# The index is safe against crashes

Whatever instances of the sink have done to a pair of streams, and wherever
they have died, each record of the index points at the start of an event, or at
the end of the data, and never behind what is durable.

The offsets do not decrease either, but for one thing: `stop` writes the final record
where the last `render` that succeeded has left the writer. One that fails after it has
written an indexed buffer leaves a record behind that place. A buffer that asks to be
flushed comes to that only when one before it has failed so: in histories in which it
does not come then, the offsets are in order.
-/

namespace GstPravega.Plugin.PravegaSink

open GstPravega.Lib GstPravega.Client GstPravega.Gst GstPravega.Video GstPravega.Lib.Program

open World

variable {F : Type} {checks : Bool} {daysToSeconds : F → Int}

/-- Every record of the index, durable or not, has an offset at a boundary of the
durable data, and the offsets do not decrease. -/
def IndexSafe (w : World) : Prop :=
  ∃ rs : List Record,
    w.index.entries.flatten = rs.flatMap Record.frame ∧
    rs.Pairwise (fun a b => a.offset ≤ b.offset) ∧
    ∀ r ∈ rs, r.offset ≤ w.data.stored.flatten.length ∧
      ∃ before after : List Event,
        w.data.stored.flatten =
          before.flatMap Event.frame ++ after.flatMap Event.frame ∧
        r.offset = (before.flatMap Event.frame).length

theorem World.Good.points_into_durable {needs : Needs} {w : World} {E : List Event}
    {R : List Record} (hgood : Good needs w E R) {r : Record} (hr : r ∈ R) :
    r.offset ≤ w.data.stored.flatten.length ∧ ∃ before after : List Event,
      w.data.stored.flatten = before.flatMap Event.frame ++ after.flatMap Event.frame ∧
      r.offset = (before.flatMap Event.frame).length := by
  have hdurable := hgood.durable r hr
  refine ⟨hdurable, ?_⟩
  obtain ⟨rest, hrest⟩ := w.data.stored_prefix
  have hstored : Framed Event.frame w.data.stored.flatten :=
    Framed.flatten fun c hc => hgood.chunks c (w.data.stored_prefix.subset hc)
  have hbefore : Framed Event.frame (w.data.stored.flatten.take r.offset) := by
    have hboundary := hgood.boundary r hr
    rw [← hrest, List.flatten_append, List.take_append_of_le_length hdurable]
      at hboundary
    exact hboundary
  have hafter : Framed Event.frame (w.data.stored.flatten.drop r.offset) := by
    refine hbefore.cancel Event.frame_delimiting ?_
    rw [List.take_append_drop]
    exact hstored
  obtain ⟨before, hbefore⟩ := hbefore
  obtain ⟨after, hafter⟩ := hafter
  refine ⟨before, after, ?_, ?_⟩
  · rw [← hbefore, ← hafter, List.take_append_drop]
  · rw [← hbefore, List.length_take, Nat.min_eq_left hdurable]

theorem World.Good.indexSafe {w : World} {E : List Event} {R : List Record}
    (hgood : Good .ordered w E R) : IndexSafe w :=
  ⟨R, by rw [hgood.index, List.flatMap_def], hgood.sorted trivial,
    fun _ hr => hgood.points_into_durable hr⟩

/-- In every history at all, what falls short is the order alone. -/
theorem Reaches.points_into_durable {allowed : Call F → State → World → Prop} {x : Config F}
    (h : Reaches checks daysToSeconds allowed x) :
    ∃ rs : List Record, x.world.index.entries.flatten = rs.flatMap Record.frame ∧
      ∀ r ∈ rs, r.offset ≤ x.world.data.stored.flatten.length ∧
        ∃ before after : List Event,
          x.world.data.stored.flatten =
            before.flatMap Event.frame ++ after.flatMap Event.frame ∧
          r.offset = (before.flatMap Event.frame).length := by
  obtain ⟨E, R, hgood⟩ := h.plain.world
  exact ⟨R, by rw [hgood.index, List.flatMap_def], fun _ hr => hgood.points_into_durable hr⟩

/-- In every history in which a buffer that is indexed and that is to be flushed comes only
where the writer stands at the offset of the final record. -/
theorem index_points_into_durable_data {x : Config F}
    (h : Reaches checks daysToSeconds (fun c s _ => KeepsOrder checks c s) x) :
    IndexSafe x.world := by
  have hinv : x.Inv .ordered fun _ _ _ => True := by
    refine h.inv id fun _ c s w hallowed => ?_
    exact hallowed
  obtain ⟨E, R, hgood⟩ := hinv.world
  exact hgood.indexSafe

/-- A key frame. -/
def keyFrame : List (Call Unit) :=
  [.start cameraSettings, cameraRender 1000000000 BufferFlags.empty [7]]

/-- It has to be flushed when it is written. -/
def flushed : BufferFlags := ⟨false, false, false, true⟩

/-- Another key frame, which has to be flushed. -/
def flushedFrames : List (Call Unit) := keyFrame ++ [cameraRender 2000000000 flushed [8]]

/-- The process has died when the records were durable and the last event was not. -/
def interrupted : World := (cameraHistory flushedFrames).1.1.settle.crash

theorem index_points_into_durable_data_interrupted : IndexSafe interrupted := by
  have hok : (cameraHistory flushedFrames).2 = true := by decide +kernel
  have hallowed : AllowedAlong true (fun _ => 0) (fun c s _ => KeepsOrder true c s)
      flushedFrames (⟨.empty, .empty, false⟩, .stopped) := by
    have hstart : (played true (fun _ => 0) (.start cameraSettings)
        (⟨.empty, .empty, false⟩, .stopped)).1.2 =
          .started (Started.new (128 * 1024) 0 false) := by decide +kernel
    have hkey : (played true (fun _ => 0) (cameraRender 1000000000 BufferFlags.empty [7])
        ((played true (fun _ => 0) (.start cameraSettings)
          (⟨.empty, .empty, false⟩, .stopped)).2,
        (played true (fun _ => 0) (.start cameraSettings)
          (⟨.empty, .empty, false⟩, .stopped)).1.2)).1.2 =
          .started (keyStarted keyEvent.encode 21) := by decide +kernel
    refine ⟨trivial, ?_, ?_, trivial⟩
    · dsimp only
      rw [hstart]
      exact fun _ _ hsync => nomatch hsync
    · dsimp only
      rw [hkey]
      rintro _ _ _ _ ⟨⟩
      rfl
  exact index_points_into_durable_data
    (((reaches_cameraHistory hok hallowed).step (.persist (persists_settle _))).step .crash)

/-! ## The final record -/

/-- A client that cannot flush the data when so many appends have come to it. -/
def World.refuse (appends : Nat) : (c : SinkCmd) → World → c.Res × World
  | .flush .data, w =>
      if w.data.entries.length = appends then (.error ⟨.other, "cannot flush"⟩, w.fail)
      else World.answer (.flush .data) w
  | c, w => World.answer c w

theorem World.refuse_exec (appends : Nat) (c : SinkCmd) (w : World) :
    Exec c w (World.refuse appends c w).1 (World.refuse appends c w).2 := by
  cases c with
  | flush s =>
      cases s with
      | data =>
          rw [refuse]
          split
          · exact Or.inr ⟨⟨_, rfl⟩, rfl⟩
          · exact World.answer_exec _ w
      | index => exact World.answer_exec _ w
  | append s bytes => exact World.answer_exec _ w
  | seekToTail s => exact World.answer_exec _ w
  | «seal» s => exact World.answer_exec _ w
  | createClientConfig controller file => exact World.answer_exec _ w
  | createScope scope => exact World.answer_exec _ w
  | createStream scope stream => exact World.answer_exec _ w
  | spawnRetention limits interval => exact World.answer_exec _ w
  | joinRetention => exact World.answer_exec _ w

/-- A call with such a client. -/
@[irreducible]
def refusedCall (appends : Nat) (c : Call Unit) (x : World × State) :
    (Except Failure Unit × State) × World :=
  run (World.refuse appends) (c.program true (fun _ => 0) x.2) x.1.begin

theorem reaches_refusedCall {x : World × State} {c : Call Unit} {appends : Nat}
    (h : Reaches true (fun _ : Unit => 0) (fun _ _ _ => True) ⟨x.1, .idle .live x.2⟩)
    (hlive : Mode.after (refusedCall appends c x).1 = .live) :
    Reaches true (fun _ : Unit => 0) (fun _ _ _ => True)
      ⟨(refusedCall appends c x).2, .idle .live (refusedCall appends c x).1.2⟩ := by
  rw [refusedCall] at hlive ⊢
  exact h.left (World.refuse_exec appends) trivial hlive

/-- A key frame that need not be flushed. -/
def unflushedKeyFrame : List (Call Unit) :=
  [.start cameraSettings, cameraRender 4000000000 BufferFlags.empty [7]]

/-- A key frame that cannot be flushed once it is written. -/
def unflushedFrame : (Except Failure Unit × State) × World :=
  refusedCall 2 (cameraRender 5000000000 flushed [8]) (cameraHistory unflushedKeyFrame).1

/-- And another one. -/
def unflushedFrames : (Except Failure Unit × State) × World :=
  refusedCall 3 (cameraRender 6000000000 flushed [9]) (unflushedFrame.2, unflushedFrame.1.2)

/-- The instance is stopped behind them. -/
def leftBehind : (Except Failure Unit × State) × World :=
  refusedCall 0 (.stop cameraSettings) (unflushedFrames.2, unflushedFrames.1.2)

theorem reaches_leftBehind : Reaches true (fun _ : Unit => 0) (fun _ _ _ => True)
    ⟨leftBehind.2, .idle .live leftBehind.1.2⟩ := by
  have hok : (cameraHistory unflushedKeyFrame).2 = true := by decide +kernel
  have hfirst : Mode.after unflushedFrame.1 = .live := by decide +kernel
  have hsecond : Mode.after unflushedFrames.1 = .live := by decide +kernel
  have hstop : Mode.after leftBehind.1 = .live := by decide +kernel
  rw [unflushedFrame] at hfirst
  rw [unflushedFrames] at hsecond
  rw [leftBehind] at hstop ⊢
  refine reaches_refusedCall ?_ hstop
  rw [unflushedFrames]
  refine reaches_refusedCall ?_ hsecond
  rw [unflushedFrame]
  exact reaches_refusedCall (reaches_cameraHistory hok allowedAlong_true) hfirst

/-- Its records: the three key frames, and the final record where the first one ends. -/
def leftBehindRecords : List Record :=
  [⟨⟨⟨some 4000000000⟩, 0, true, true⟩, by decide, by decide⟩,
    ⟨⟨⟨some 5000000000⟩, 21, true, false⟩, by decide, by decide⟩,
    ⟨⟨⟨some 6000000000⟩, 42, true, false⟩, by decide, by decide⟩,
    ⟨⟨⟨some 4000000001⟩, 21, false, false⟩, by decide, by decide⟩]

theorem not_sorted_leftBehind :
    ¬ leftBehindRecords.Pairwise fun a b => a.offset ≤ b.offset := by
  decide

theorem index_leftBehind : leftBehind.2.index.entries.flatten =
    leftBehindRecords.flatMap Record.frame := by
  decide +kernel

/-- The last `render` that succeeded is the first, so the final record is at 21, behind the
record at 42. -/
theorem final_record_behind : ¬ ∀ x : Config Unit,
    Reaches true (fun _ => 0) (fun _ _ _ => True) x → IndexSafe x.world := by
  intro hall
  have hsafe : IndexSafe leftBehind.2 := hall _ reaches_leftBehind
  obtain ⟨rs, hrs, hsorted, _⟩ := hsafe
  have heq : rs = leftBehindRecords :=
    flatMap_injective Record.frame_delimiting Record.frame_injective
      (hrs.symm.trans index_leftBehind)
  exact not_sorted_leftBehind (heq ▸ hsorted)

end GstPravega.Plugin.PravegaSink
