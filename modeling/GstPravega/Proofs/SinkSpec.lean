import GstPravega.Proofs.Fragments
import GstPravega.Proofs.SinkWorld

/-!
# What each call of the sink does

The events written so far are those appended to the data stream and, after
them, those still in the buffered writer (`Held`); the counting writer counts
them all (`View`). One specification for each operation, from the buffered
writer up to `render` and `stop`, says what it adds to the events and to the
records, for every answer of the client. What `render` adds when it succeeds is
spelled out in `Rendered`: everything that holds of a run of the sink is drawn
from it.
-/

namespace GstPravega.Plugin.PravegaSink

open GstPravega.Lib GstPravega.Client GstPravega.Gst GstPravega.Video GstPravega.Lib.Program

open World

variable {needs : Needs}

/-! ## The writers -/

/-- The events appended or in the buffer, and the records appended. -/
def Held (needs : Needs) (b : BufWriter) (w : World) (E : List Event)
    (R : List Record) : Prop :=
  ∃ evs buffered, E = evs ++ buffered ∧ b.buf = buffered.flatMap Event.frame ∧
    Good needs w evs R

theorem Held.persists {b : BufWriter} {w w' : World} {E : List Event}
    {R : List Record} (h : Held needs b w E R) (hw : Persists w w') :
    Held needs b w' E R := by
  obtain ⟨evs, buffered, hE, hbuf, hgood⟩ := h
  exact ⟨evs, buffered, hE, hbuf, hgood.persists hw⟩

theorem Held.fail {b : BufWriter} {w : World} {E : List Event} {R : List Record}
    (h : Held needs b w E R) : Held needs b w.fail E R := by
  obtain ⟨evs, buffered, hE, hbuf, hgood⟩ := h
  exact ⟨evs, buffered, hE, hbuf, hgood.fail⟩

theorem Held.inv {b : BufWriter} {w : World} {E : List Event} {R : List Record}
    (h : Held needs b w E R) : World.Inv needs w := by
  obtain ⟨evs, _, _, _, hgood⟩ := h
  exact ⟨evs, R, hgood⟩

theorem held_of_good {b : BufWriter} {w : World} {E : List Event} {R : List Record}
    (hbuf : b.buf = []) (h : Good needs w E R) : Held needs b w E R :=
  ⟨E, [], (List.append_nil E).symm, hbuf, h⟩

theorem Held.good {b : BufWriter} {w : World} {E : List Event} {R : List Record}
    (h : Held needs b w E R) (hbuf : b.buf = []) : Good needs w E R := by
  obtain ⟨evs, buffered, rfl, hframes, hgood⟩ := h
  cases buffered with
  | nil => rwa [List.append_nil]
  | cons e es =>
      rw [hbuf, List.flatMap_cons] at hframes
      exact absurd (List.append_eq_nil_iff.mp hframes.symm).1 e.frame_ne_nil

theorem Held.offset_le {b : BufWriter} {w : World} {E : List Event} {R : List Record}
    (h : Held needs b w E R) : ∀ r ∈ R, r.offset ≤ (E.flatMap Event.frame).length := by
  intro r hr
  obtain ⟨evs, buffered, rfl, _, hgood⟩ := h
  have hle := hgood.offset_le r hr
  rw [List.flatMap_append, List.length_append]
  omega

/-- Into the buffer. -/
theorem Held.write {b : BufWriter} {w : World} {E : List Event} {R : List Record}
    (h : Held needs b w E R) (e : Event) :
    Held needs { b with buf := b.buf ++ e.frame } w (E ++ [e]) R := by
  obtain ⟨evs, buffered, rfl, hbuf, hgood⟩ := h
  refine ⟨evs, buffered ++ [e], by simp, ?_, hgood⟩
  simp [hbuf]

theorem safe_flushBuf {b : BufWriter} {w : World} {E : List Event} {R : List Record}
    {Q : Except IoError Unit × BufWriter → World → Prop} (h : Held needs b w E R)
    (hok : ∀ w', Good needs w' E R → Q (.ok (), { b with buf := [] }) w')
    (herr : ∀ e w', Held needs b w' E R → w'.failed = true → Q (.error e, b) w') :
    Safe (arena needs) b.flushBuf Q w := by
  rw [BufWriter.flushBuf]
  split
  · next hnil =>
      intro w' hw _
      have := hok w' ((h.persists hw).good hnil)
      rwa [← hnil] at this
  · intro w' hw _ r w'' hexec
    obtain ⟨evs, buffered, hE, hbuf, hgood⟩ := h.persists hw
    rcases hexec with ⟨rfl, hlt, rfl⟩ | ⟨⟨e, rfl⟩, rfl⟩
    · rw [hbuf] at hlt
      have happ := hgood.append_data hlt
      rw [← hE, ← hbuf] at happ
      exact ⟨⟨E, R, happ⟩, trivial, fun t ht _ => hok t (happ.persists ht)⟩
    · have hfail : Held needs b w'.fail E R := (h.persists hw).fail
      exact ⟨hfail.inv, trivial, fun t ht _ => herr e t (hfail.persists ht) ht.failed⟩

theorem safe_bufFlush {b : BufWriter} {w : World} {E : List Event} {R : List Record}
    {Q : Except IoError Unit × BufWriter → World → Prop} (h : Held needs b w E R)
    (hok : ∀ w', Good needs w' E R → w'.data.durable = w'.data.entries.length →
      Q (.ok (), { b with buf := [] }) w')
    (herr : ∀ e b' w', Held needs b' w' E R → w'.failed = true → Q (.error e, b') w') :
    Safe (arena needs) b.flush Q w := by
  refine safe_bind (safe_flushBuf h ?_ ?_)
  · intro w' hgood t ht _ r t' hexec
    have hgood := hgood.persists ht
    rcases hexec with ⟨rfl, rfl⟩ | ⟨⟨e, rfl⟩, rfl⟩
    · refine ⟨⟨E, R, hgood.flush_data⟩, trivial, fun u hu _ => ?_⟩
      exact hok u (hgood.flush_data.persists hu) (hu.data.durable_eq rfl)
    · refine ⟨⟨E, R, hgood.fail⟩, trivial, fun u hu _ => ?_⟩
      exact herr e _ u (held_of_good rfl (hgood.fail.persists hu)) hu.failed
  · intro e w' hheld hfailed t ht _
    exact herr e b t (hheld.persists ht) (ht.failed.trans hfailed)

theorem safe_writeThrough {b : BufWriter} {w : World} {E : List Event}
    {R : List Record} {Q : Except IoError Unit × BufWriter → World → Prop} (e : Event)
    (h : Held needs b w E R) (hroom : b.buf = [] ∨ e.frame.length < b.capacity)
    (hok : ∀ b' w', Held needs b' w' (E ++ [e]) R → Q (.ok (), b') w')
    (herr : ∀ x b' w', Q (.error x, b') w') :
    Safe (arena needs) (b.writeThrough e.frame) Q w := by
  rw [BufWriter.writeThrough]
  split
  · next hge =>
      have hnil : b.buf = [] := hroom.resolve_right (by omega)
      intro w' hw _ r w'' hexec
      have hgood := (h.persists hw).good hnil
      rcases hexec with ⟨rfl, hlt, rfl⟩ | ⟨⟨x, rfl⟩, rfl⟩
      · have hframe : e.frame = [e].flatMap Event.frame := by simp
        rw [hframe] at hlt
        have happ := hgood.append_data hlt
        rw [← hframe] at happ
        exact ⟨⟨_, R, happ⟩, trivial,
          fun t ht _ => hok b t (held_of_good hnil (happ.persists ht))⟩
      · exact ⟨⟨E, R, hgood.fail⟩, trivial, fun t _ _ => herr x b t⟩
  · intro w' hw _
    exact hok _ w' ((h.persists hw).write e)

theorem safe_bufWrite {b : BufWriter} {w : World} {E : List Event} {R : List Record}
    {Q : Except IoError Unit × BufWriter → World → Prop} (e : Event)
    (h : Held needs b w E R)
    (hok : ∀ b' w', Held needs b' w' (E ++ [e]) R → Q (.ok (), b') w')
    (herr : ∀ x b' w', Q (.error x, b') w') :
    Safe (arena needs) (b.write e.frame) Q w := by
  rw [BufWriter.write]
  split
  · intro w' hw _
    exact hok _ w' ((h.persists hw).write e)
  split
  · refine safe_bind (safe_flushBuf h ?_ ?_)
    · intro w' hgood
      exact safe_writeThrough e (held_of_good rfl hgood) (Or.inl rfl) hok herr
    · intro x w' _ _ t _ _
      exact herr x b t
  · next hge hle =>
      have hpos := List.length_pos_iff.mpr e.frame_ne_nil
      exact safe_writeThrough e h (BufWriter.nil_or_lt_capacity hpos hge hle) hok herr

/-! ## The pieces of the calls -/

/-- The started state, the client's logs, and what they stand for. -/
structure View (needs : Needs) (st : Started) (w : World) (E : List Event)
    (R : List Record) : Prop where
  held : Held needs st.writer.inner w E R
  offset : st.writer.offset = (E.flatMap Event.frame).length

theorem View.persists {st : Started} {w w' : World} {E : List Event} {R : List Record}
    (h : View needs st w E R) (hw : Persists w w') : View needs st w' E R :=
  ⟨h.held.persists hw, h.offset⟩

theorem View.fail {st : Started} {w : World} {E : List Event} {R : List Record}
    (h : View needs st w E R) : View needs st w.fail E R :=
  ⟨h.held.fail, h.offset⟩

theorem View.of_writer {st st' : Started} {w : World} {E : List Event}
    {R : List Record} (h : View needs st w E R) (hst : st'.writer = st.writer) :
    View needs st' w E R := by
  refine ⟨?_, ?_⟩
  · rw [hst]
    exact h.held
  · rw [hst]
    exact h.offset

theorem View.index {st : Started} {w : World} {E : List Event} {R : List Record}
    (h : View needs st w E R) : w.index.entries = R.map Record.frame := by
  obtain ⟨⟨evs, buffered, _, _, hgood⟩, _⟩ := h
  exact hgood.index

/-- What an operation may leave behind when it fails: nothing is asked after a
panic. -/
def Stable (needs : Needs) (Err : Failure → Started → World → Prop) : Prop :=
  (∀ st w, Err .panicked st w) ∧
    ∀ e st w w', Err e st w → Persists w w' → Inv needs w' → Err e st w'

variable {Err : Failure → Started → World → Prop} {st : Started} {w : World}
  {E : List Event} {R : List Record}

theorem safeS_orFail {domain : ErrorDomain} {text : String} {r : Except IoError Unit}
    {Q : Unit → Started → World → Prop}
    (hok : r = .ok () → ∀ w', Persists w w' → Q () st w')
    (herr : ∀ e, r = .error e → ∀ w', Persists w w' →
      Err (.error domain (text ++ e.message)) st w') :
    SafeS (arena needs) (SinkM.orFail domain text r) Q Err st w := by
  cases r with
  | ok u => exact safeS_pure fun w' hw _ => hok rfl w' hw
  | error e => exact safeS_throw fun w' hw _ => herr e rfl w' hw

theorem safeS_flushData {Q : Unit → Started → World → Prop} {domain : ErrorDomain}
    (hErr : Stable needs Err) (h : View needs st w E R)
    (hok : ∀ writer w', View needs { st with writer := writer } w' E R →
      writer.inner.buf = [] → w'.data.durable = w'.data.entries.length →
      Q () { st with writer := writer } w')
    (herr : ∀ e writer w', View needs { st with writer := writer } w' E R →
      w'.failed = true → Err (.error domain e) { st with writer := writer } w') :
    SafeS (arena needs) (flushData domain) Q Err st w := by
  refine safeS_bind hErr.2 ?_
  refine safe_bind (safe_bind (safe_bufFlush h.held ?_ ?_))
  · intro w' hgood hdurable t ht _ u hu _
    have hw := Persists.trans _ _ _ ht hu
    refine safeS_orFail (fun _ x hx => ?_) (fun e he => nomatch he)
    have hw := Persists.trans _ _ _ hw hx
    exact hok _ x ⟨held_of_good rfl (hgood.persists hw), h.offset⟩ rfl
      (hw.data.durable_eq hdurable)
  · intro e b' w' hheld hfailed t ht _ u hu _
    have hw := Persists.trans _ _ _ ht hu
    refine safeS_orFail (fun he => nomatch he) (fun e' he x hx => ?_)
    have hw := Persists.trans _ _ _ hw hx
    exact herr _ _ x ⟨hheld.persists hw, h.offset⟩ (hw.failed.trans hfailed)

theorem safeS_flushIndex {Q : Unit → Started → World → Prop} {domain : ErrorDomain}
    (hErr : Stable needs Err) (h : View needs st w E R)
    (hok : ∀ w', View needs st w' E R → w.data.Persists w'.data →
      w'.index.durable = w'.index.entries.length → Q () st w')
    (herr : ∀ e w', View needs st w' E R → w'.failed = true →
      Err (.error domain e) st w') :
    SafeS (arena needs) (flushIndex domain) Q Err st w := by
  refine safeS_bind hErr.2 ?_
  intro w' hw _ r w'' hexec
  have hview := h.persists hw
  obtain ⟨evs, buffered, hE, hbuf, hgood⟩ := hview.held
  rcases hexec with ⟨rfl, rfl⟩ | ⟨⟨e, rfl⟩, rfl⟩
  · have hflush := hgood.flush_index
    refine ⟨⟨evs, R, hflush⟩, trivial, fun t ht _ => ?_⟩
    refine safeS_orFail (fun _ x hx => ?_) (fun e he => nomatch he)
    have hx := Persists.trans _ _ _ ht hx
    exact hok x ⟨⟨evs, buffered, hE, hbuf, hflush.persists hx⟩, h.offset⟩
      (hw.data.trans hx.data) (hx.index.durable_eq rfl)
  · refine ⟨⟨evs, R, hgood.fail⟩, trivial, fun t ht _ => ?_⟩
    refine safeS_orFail (fun he => nomatch he) (fun e' he x hx => ?_)
    have hx := Persists.trans _ _ _ ht hx
    exact herr _ x (hview.fail.persists hx) hx.failed

/-- A record at a boundary of the data, all of which is durable. -/
theorem safeS_writeIndexRecord {Q : Unit → Started → World → Prop} {text : String}
    {timestamp : PravegaTimestamp} {offset : Nat} {randomAccess discontinuity : Bool}
    (hErr : Stable needs Err) (h : View needs st w E R)
    (hbuf : st.writer.inner.buf = [])
    (hdurable : w.data.durable = w.data.entries.length)
    (hsorted : needs.sorted → ∀ a ∈ R, a.offset ≤ offset)
    (hle : offset ≤ (E.flatMap Event.frame).length)
    (hboundary : Framed Event.frame ((E.flatMap Event.frame).take offset))
    (hcovered : needs.covered → discontinuity = true ∨ Open R E)
    (hok : ∀ r w', r.toIndexRecord =
        IndexRecord.new timestamp offset randomAccess discontinuity →
      timestamp.nanoseconds.getD 0 ≠ 0 → View needs st w' E (R ++ [r]) →
      w.data.Persists w'.data → Q () st w')
    (herr : ∀ e w', timestamp.nanoseconds.getD 0 = 0 → View needs st w' E R →
      Err (.error .resourceWrite e) st w') :
    SafeS (arena needs) (writeIndexRecord text
      (IndexRecord.new timestamp offset randomAccess discontinuity)) Q Err st w := by
  rw [writeIndexRecord]
  split
  · next e hwrite =>
      exact safeS_throw fun w' hw _ =>
        herr _ w' (IndexRecordWriter.write_error hwrite) (h.persists hw)
  · next bytes hwrite =>
      refine safeS_bind hErr.2 ?_
      intro w' hw _ x w'' hexec
      have hgood := (h.persists hw).held.good hbuf
      rcases hexec with ⟨rfl, -, rfl⟩ | ⟨⟨e, rfl⟩, rfl⟩
      · have hstored : w'.data.stored.flatten = E.flatMap Event.frame := by
          rw [Log.stored_eq_of_durable (hw.data.durable_eq hdurable), hgood.data]
        have hbound := hgood.bounded
        rw [hgood.data] at hbound
        obtain ⟨htimed, r, hr, rfl⟩ := IndexRecordWriter.write_ok hwrite (by
          show offset < 2 ^ 64
          omega)
        have hoffset : r.offset = offset := by rw [hr]; rfl
        have hmark : r.discontinuity = discontinuity := by rw [hr]; rfl
        have happ : Good needs { w' with index := w'.index.append r.frame } E
            (R ++ [r]) := by
          refine hgood.append_index ?_ ?_ ?_ ?_
          · rwa [hoffset]
          · rwa [hoffset, hstored]
          · rwa [hoffset, hgood.data]
          · rwa [hmark]
        refine ⟨⟨E, _, happ⟩, trivial, fun t ht _ => safeS_pure fun x hx _ => ?_⟩
        have hx := Persists.trans _ _ _ ht hx
        exact hok r x hr htimed ⟨held_of_good hbuf (happ.persists hx), h.offset⟩
          (hw.data.trans hx.data)
      · refine ⟨⟨E, R, hgood.fail⟩, trivial, fun t ht _ => ?_⟩
        exact safeS_throw fun x _ _ => hErr.1 st x

/-! ## The loop of `render` -/

theorem safeS_writeAll {Q : Except IoError Unit → Started → World → Prop} (e : Event)
    (h : View needs st w E R)
    (hok : ∀ writer w', View needs { st with writer := writer } w' (E ++ [e]) R →
      Q (.ok ()) { st with writer := writer } w')
    (herr : ∀ x st' w', Q (.error x) st' w') :
    SafeS (arena needs)
      (SinkM.onWriter fun writer => writer.writeAll e.frame) Q Err st w := by
  refine safe_bind (safe_bind (safe_bufWrite e h.held ?_ ?_))
  · intro b' w' hheld t ht _ u hu _
    refine hok _ u ⟨hheld.persists (Persists.trans _ _ _ ht hu), ?_⟩
    simp [h.offset]
  · intro x b' w' t _ _ u _ _
    exact herr x _ u

/-- The loop writes the fragments of what is left. The induction is on its fuel. -/
theorem safeS_writeFragments {timestamp : PravegaTimestamp}
    {included randomAccess discontinuity : Bool} {payload : List UInt8}
    {Q : Unit → Started → World → Prop} (hErr : Stable needs Err) (fuel : Nat) :
    ∀ (pos : Nat) (i r d : Bool) (st : Started) (w : World) (E : List Event),
      payload.length - pos < fuel → View needs st w E R →
      (pos = 0 → (i, r, d) = (included, randomAccess, discontinuity)) →
      (pos ≠ 0 → (i, r, d) = (false, false, false)) →
      (∀ writer w', View needs { st with writer := writer } w'
        (E ++ fragments timestamp i r d (payload.drop pos)) R →
        Q () { st with writer := writer } w') →
      SafeS (arena needs) (writeFragments timestamp included randomAccess
        discontinuity payload fuel pos) Q Err st w := by
  induction fuel with
  | zero => exact fun pos _ _ _ _ _ _ h => absurd h (Nat.not_lt_zero _)
  | succ fuel ih =>
      intro pos i r d st w E hfuel h hfirst hlater hok
      rw [writeFragments]
      have hmax : 0 < EventWithHeader.maxPayloadSize := by decide
      split
      · next hzero =>
          have hnil : payload.drop pos = [] := List.drop_eq_nil_of_le (by omega)
          refine safeS_pure fun w' hw _ => hok st.writer w' ?_
          rw [hnil, fragments_nil, List.append_nil]
          exact h.persists hw
      · next hlen =>
          have hne : payload.drop pos ≠ [] := by
            intro hnil
            have := congrArg List.length hnil
            rw [List.length_drop, List.length_nil] at this
            omega
          have hpiece : (payload.drop pos).take (min (payload.length - pos)
              EventWithHeader.maxPayloadSize) =
              (payload.drop pos).take EventWithHeader.maxPayloadSize := by
            rw [← List.length_drop, Nat.min_comm, ← List.take_eq_take_min]
          have hdrop : payload.drop (pos + min (payload.length - pos)
              EventWithHeader.maxPayloadSize) =
              (payload.drop pos).drop EventWithHeader.maxPayloadSize := by
            rw [List.drop_drop]
            rcases Nat.le_total (payload.length - pos) EventWithHeader.maxPayloadSize
              with hle | hle
            · rw [Nat.min_eq_left hle, List.drop_eq_nil_of_le (by omega),
                List.drop_eq_nil_of_le (by omega)]
            · rw [Nat.min_eq_right hle]
          have hevent : (if pos = 0 then EventWithHeader.new
                ((payload.drop pos).take EventWithHeader.maxPayloadSize) timestamp
                included randomAccess discontinuity
              else EventWithHeader.new
                ((payload.drop pos).take EventWithHeader.maxPayloadSize) timestamp
                false false false) =
              ⟨⟨timestamp, i, r, d⟩,
                (payload.drop pos).take EventWithHeader.maxPayloadSize⟩ := by
            split
            · next hpos =>
                injection hfirst hpos with hi hrest
                injection hrest with hr hd
                rw [hi, hr, hd]
                rfl
            · next hpos =>
                injection hlater hpos with hi hrest
                injection hrest with hr hd
                rw [hi, hr, hd]
                rfl
          dsimp only
          rw [hpiece, hevent, EventWriter.write, if_neg]
          · dsimp only
            rw [← EventWithHeader.frame_stored _ (List.length_take_le _ _)]
            refine safeS_bind hErr.2 (safeS_writeAll _ h ?_ ?_)
            · intro writer w' hview
              refine safeS_bind hErr.2 (safeS_pure fun t ht _ => ?_)
              refine ih _ false false false _ t _ (by omega) (hview.persists ht)
                (by omega) (fun _ => rfl) fun writer' w'' hview' => ?_
              rw [hdrop, List.append_assoc, List.singleton_append] at hview'
              refine hok writer' w'' ?_
              rwa [fragments, if_neg hne]
            · intro x st' w'
              exact safeS_bind hErr.2 (safeS_throw fun t _ _ => hErr.1 _ t)
          · exact Nat.not_lt.mpr (List.length_take_le _ _)

/-! ## The calls -/

/-- A final record would stand behind all data. -/
def Steady (st : Started) (E : List Event) : Prop :=
  ∀ o, st.finalOffset = some o → o = (E.flatMap Event.frame).length

/-- A final record would stand at a boundary, and behind all records where they are to be
in order. -/
def Linked (needs : Needs) (st : Started) (E : List Event) (R : List Record) : Prop :=
  ∀ o, st.finalOffset = some o → (needs.sorted → ∀ r ∈ R, r.offset ≤ o) ∧
    o ≤ (E.flatMap Event.frame).length ∧
    Framed Event.frame ((E.flatMap Event.frame).take o)

theorem Steady.linked (h : Steady st E) (hview : View needs st w E R) :
    Linked needs st E R := by
  intro o ho
  rw [h o ho, List.take_length]
  exact ⟨fun _ => hview.held.offset_le, Nat.le_refl _, framed_flatMap E⟩

/-- A call has not got to what is kept for the records to come. -/
structure Untouched (st st' : Started) : Prop where
  lastIndexTime : st'.lastIndexTime = st.lastIndexTime
  finalTimestamp : st'.finalTimestamp = st.finalTimestamp
  finalOffset : st'.finalOffset = st.finalOffset
  buffersWritten : st'.buffersWritten = st.buffersWritten

theorem Untouched.steady {st' : Started} (h : Untouched st st') (hst : Steady st E) :
    Steady st' E := by
  rw [Steady, h.finalOffset]
  exact hst

theorem Untouched.linked {st' : Started} (h : Untouched st st') (hst : Linked needs st E R) :
    Linked needs st' E R := by
  rw [Linked, h.finalOffset]
  exact hst

/-- What a `render` that failed leaves. It has panicked; or it has written nothing, in a
state `P` when no stream operation has failed; or it has written everything, as `W` says,
and has failed to flush it. -/
inductive Fails (needs : Needs) (st₀ : Started) (E : List Event) (R : List Record)
    (P : Started → Prop) (W : Started → List Event → List Record → Prop) :
    Failure → Started → World → Prop where
  | panicked {st : Started} {w : World} : Fails needs st₀ E R P W .panicked st w
  | untouched {e : Failure} {st : Started} {w : World} : View needs st w E R → Untouched st₀ st →
      (w.failed = false → P st) → Fails needs st₀ E R P W e st w
  | written {e : Failure} {st : Started} {w : World} {E' : List Event} {R' : List Record} :
      View needs st w E' R' → W st E' R' → w.failed = true → Fails needs st₀ E R P W e st w

theorem stable_fails {st₀ : Started} {P : Started → Prop}
    {W : Started → List Event → List Record → Prop} :
    Stable needs (Fails needs st₀ E R P W) := by
  refine ⟨fun _ _ => .panicked, fun e st w w' h hw _ => ?_⟩
  cases h with
  | panicked => exact .panicked
  | untouched hview hkept hP =>
      exact .untouched (hview.persists hw) hkept fun hfailed => hP (hw.failed.symm.trans hfailed)
  | written hview hW hfailed =>
      exact .written (hview.persists hw) hW (hw.failed.trans hfailed)

theorem safeS_flushStreams {wanted : Bool} {Q : Unit → Started → World → Prop}
    (hErr : Stable needs Err) (h : View needs st w E R)
    (hok : ∀ writer w', View needs { st with writer := writer } w' E R →
      (wanted = true → writer.inner.buf = [] ∧
        w'.data.durable = w'.data.entries.length) →
      Q () { st with writer := writer } w')
    (herr : wanted = true → ∀ e writer w', View needs { st with writer := writer } w' E R →
      w'.failed = true → Err (.error .coreFailed e) { st with writer := writer } w') :
    SafeS (arena needs) (flushStreams wanted) Q Err st w := by
  rw [flushStreams]
  split
  · next hwanted =>
      refine safeS_bind hErr.2 (safeS_flushData hErr h ?_ (herr hwanted))
      intro writer w' hview hbuf hdurable
      refine safeS_flushIndex hErr hview ?_ fun e w'' => herr hwanted e writer w''
      intro w'' hview' hw _
      exact hok writer w'' hview' fun _ => ⟨hbuf, hw.durable_eq hdurable⟩
  · next hwanted =>
      refine safeS_pure fun w' hw _ => hok st.writer w' (h.persists hw) fun hw => ?_
      exact absurd hw hwanted

/-- The record of an indexed buffer, none for another. -/
def bufferRecords (timestamp : PravegaTimestamp) (offset : Nat)
    (includeInIndex randomAccess discontinuity : Bool) : List IndexRecord :=
  if includeInIndex then
    [IndexRecord.new timestamp offset randomAccess discontinuity]
  else []

theorem of_mem_bufferRecords {timestamp : PravegaTimestamp} {offset : Nat}
    {i r d : Bool} {rs : List Record}
    (h : rs.map Record.toIndexRecord = bufferRecords timestamp offset i r d)
    {a : Record} (ha : a ∈ rs) :
    i = true ∧ a.toIndexRecord = IndexRecord.new timestamp offset r d := by
  have hmem := List.mem_map_of_mem (f := Record.toIndexRecord) ha
  rw [h, bufferRecords] at hmem
  cases i with
  | true => exact ⟨rfl, List.mem_singleton.mp hmem⟩
  | false => cases hmem

theorem safeS_writeBufferRecord {timestamp : PravegaTimestamp} {offset : Nat}
    {included randomAccess discontinuity : Bool} {Q : Unit → Started → World → Prop}
    (hErr : Stable needs Err) (h : View needs st w E R)
    (hoffset : offset = (E.flatMap Event.frame).length)
    (hflushed : included = true → st.writer.inner.buf = [] ∧
      w.data.durable = w.data.entries.length)
    (hcovered : needs.covered → included = true → discontinuity = true ∨ Open R E)
    (hok : ∀ rs w', rs.map Record.toIndexRecord = bufferRecords timestamp
        (E.flatMap Event.frame).length included randomAccess discontinuity →
      (included = true → timestamp.nanoseconds.getD 0 ≠ 0) →
      View needs st w' E (R ++ rs) →
      Q () { st with
        lastIndexTime := if included then timestamp else st.lastIndexTime } w')
    (herr : ∀ e w', included = true → timestamp.nanoseconds.getD 0 = 0 →
      View needs st w' E R → Err (.error .resourceWrite e) st w') :
    SafeS (arena needs) (writeBufferRecord timestamp offset included randomAccess
      discontinuity) Q Err st w := by
  rw [writeBufferRecord, hoffset]
  cases included with
  | true =>
      obtain ⟨hbuf, hdurable⟩ := hflushed rfl
      refine safeS_bind hErr.2 (safeS_writeIndexRecord hErr h hbuf hdurable
        (fun _ => h.held.offset_le) (Nat.le_refl _) ?_ (fun hm => hcovered hm rfl) ?_
        fun e w' => herr e w' rfl)
      · rw [List.take_length]
        exact framed_flatMap E
      · intro r w' hr htimed hview _
        refine safeS_modify fun t ht _ => hok [r] t ?_ (fun _ => htimed)
          (hview.persists ht)
        simp [bufferRecords, hr]
  | false =>
      refine safeS_pure fun w' hw _ => hok [] w' rfl (fun hf => nomatch hf) ?_
      rw [List.append_nil]
      exact h.persists hw

/-- What a `render` has written: the events and the record it has added, and the state it
has left of what it keeps for the next. `included` is the index decision. -/
structure Wrote (buffer : Buffer) (timestamp : PravegaTimestamp) (included : Bool)
    (st st' : Started) (E E' : List Event) (R R' : List Record) : Prop where
  events : E' = E ++ fragments timestamp included (!buffer.flags.deltaUnit)
    (isDiscontinuity buffer.flags st.buffersWritten included st.lastIndexTime)
    buffer.payload
  records : ∃ rs, R' = R ++ rs ∧ rs.map Record.toIndexRecord = bufferRecords timestamp
    (E.flatMap Event.frame).length included (!buffer.flags.deltaUnit)
    (isDiscontinuity buffer.flags st.buffersWritten included st.lastIndexTime)
  timed : included = true → timestamp.nanoseconds.getD 0 ≠ 0
  firstValidTime : st'.firstValidTime = st.firstValidTime
  lastIndexTime : st'.lastIndexTime = if included then timestamp else st.lastIndexTime
  buffersWritten : st'.buffersWritten = st.buffersWritten + 1

/-- What a `render` that succeeds has done. -/
structure Rendered (checks : Bool) (buffer : Buffer) (timestamp : PravegaTimestamp)
    (included : Bool) (st st' : Started) (E E' : List Event) (R R' : List Record) : Prop
    extends Wrote buffer timestamp included st st' E E' R R' where
  finalTimestamp : finalTimestampOf checks timestamp st.finalTimestamp
    buffer.duration = some st'.finalTimestamp
  finalOffset : st'.finalOffset = some (E'.flatMap Event.frame).length

/-- What a `render` has done that has written everything, and then has failed to flush it
as the buffer asks: the final record is still that of the buffers before. -/
structure Unflushed (buffer : Buffer) (timestamp : PravegaTimestamp) (included : Bool)
    (st st' : Started) (E E' : List Event) (R R' : List Record) : Prop
    extends Wrote buffer timestamp included st st' E E' R R' where
  syncAfter : buffer.flags.syncAfter = true
  finalTimestamp : st'.finalTimestamp = st.finalTimestamp
  finalOffset : st'.finalOffset = st.finalOffset

section Written

variable {checks : Bool} {buffer : Buffer} {timestamp : PravegaTimestamp} {included : Bool}
  {st' : Started} {E' : List Event} {R' : List Record}

theorem Rendered.steady (h : Rendered checks buffer timestamp included st st' E E' R R') :
    Steady st' E' := by
  intro o ho
  rw [h.finalOffset] at ho
  injection ho with ho
  exact ho.symm

/-- The record of the buffer may stand behind the final offset, unless that is where the
writer stood. -/
theorem Unflushed.linked (h : Unflushed buffer timestamp included st st' E E' R R')
    (hst : Linked needs st E R)
    (horder : needs.sorted → included = true → buffer.flags.syncAfter = true → Steady st E) :
    Linked needs st' E' R' := by
  intro o ho
  rw [h.finalOffset] at ho
  obtain ⟨hsorted, hle, hboundary⟩ := hst o ho
  obtain ⟨rs, rfl, hrs⟩ := h.records
  rw [h.events, List.flatMap_append]
  refine ⟨fun hn r hr => ?_, ?_, ?_⟩
  · rcases List.mem_append.mp hr with hr | hr
    · exact hsorted hn r hr
    · obtain ⟨hincluded, hr⟩ := of_mem_bufferRecords hrs hr
      rw [horder hn hincluded h.syncAfter o ho, hr]
      exact Nat.le_refl _
  · rw [List.length_append]
    exact Nat.le_add_right_of_le hle
  · rw [List.take_append_of_le_length hle]
    exact hboundary

end Written

theorem safeS_renderIndexed {checks : Bool} {buffer : Buffer}
    {timestamp : PravegaTimestamp} {offset : Nat} {included : Bool}
    {Q : Unit → Started → World → Prop} {P : Started → Prop}
    {W : Started → List Event → List Record → Prop} {st₀ : Started}
    (h : View needs st w E R) (hkept : Untouched st₀ st)
    (hoffset : offset = (E.flatMap Event.frame).length)
    (hcovered : needs.covered → included = true →
      isDiscontinuity buffer.flags st.buffersWritten included st.lastIndexTime = true ∨
        Open R E)
    (hok : ∀ st' w' E' R', View needs st' w' E' R' →
      Rendered checks buffer timestamp included st st' E E' R R' → Q () st' w')
    (hrefused : included = true → timestamp.nanoseconds.getD 0 = 0 →
      ∀ writer, P { st with writer := writer })
    (hunflushed : ∀ st' E' R', Unflushed buffer timestamp included st st' E E' R R' →
      W st' E' R') :
    SafeS (arena needs)
      (renderIndexed checks buffer timestamp offset included) Q
      (Fails needs st₀ E R P W) st w := by
  have hErr : Stable needs (Fails needs st₀ E R P W) := stable_fails
  have hkept' : ∀ writer, Untouched st₀ { st with writer := writer } := fun _ =>
    ⟨hkept.lastIndexTime, hkept.finalTimestamp, hkept.finalOffset, hkept.buffersWritten⟩
  rw [renderIndexed]
  refine safeS_bind hErr.2 (safeS_flushStreams hErr h ?_ ?_)
  case refine_2 =>
    intro _ e writer w' hview hfailed
    refine .untouched hview (hkept' writer) fun hf => ?_
    rw [hfailed] at hf
    cases hf
  intro writer w₁ h₁ hflushed
  refine safeS_bind hErr.2 (safeS_get fun w₂ hw₂ _ => ?_)
  replace h₁ := h₁.persists hw₂
  refine safeS_bind hErr.2 (safeS_writeBufferRecord hErr h₁ hoffset ?_ hcovered ?_ ?_)
  case refine_1 =>
    intro hincluded
    obtain ⟨hbuf, hdurable⟩ := hflushed hincluded
    exact ⟨hbuf, hw₂.data.durable_eq hdurable⟩
  case refine_3 =>
    exact fun e w' hincluded hzero hview =>
      .untouched hview (hkept' writer) fun _ => hrefused hincluded hzero writer
  intro rs w₃ hrecords htimed h₃
  refine safeS_bind hErr.2 (safeS_writeFragments hErr _ 0 _ _ _ _ _ E
    (Nat.lt_succ_self _) (h₃.of_writer rfl) (fun _ => rfl) (fun h0 => absurd rfl h0) ?_)
  intro writer' w₄ h₄
  rw [List.drop_zero] at h₄
  refine safeS_bind hErr.2 (safeS_modify fun w₅ hw₅ _ => ?_)
  replace h₄ := h₄.persists hw₅
  refine safeS_bind hErr.2 (safeS_get fun w₆ hw₆ _ => ?_)
  replace h₄ := h₄.persists hw₆
  refine safeS_bind hErr.2 (safeS_flushStreams hErr (h₄.of_writer rfl) ?_ ?_)
  case refine_2 =>
    intro hsync e writer'' w' hview hfailed
    exact .written hview (hunflushed _ _ _
      ⟨⟨rfl, ⟨rs, rfl, hrecords⟩, htimed, rfl, rfl, rfl⟩, hsync, rfl, rfl⟩) hfailed
  intro writer'' w₇ h₇ _
  refine safeS_bind hErr.2 (safeS_get fun w₈ hw₈ _ => ?_)
  replace h₇ := h₇.persists hw₈
  refine safeS_bind hErr.2 ?_
  cases hfinal : finalTimestampOf checks timestamp st.finalTimestamp buffer.duration with
  | none =>
      rw [SinkM.checked]
      exact safeS_throw fun t _ _ => .panicked
  | some finalTimestamp =>
      rw [SinkM.checked]
      refine safeS_pure fun w₉ hw₉ _ => ?_
      refine safeS_bind hErr.2 (safeS_modify fun w₁₀ hw₁₀ _ => ?_)
      refine safeS_modify fun w₁₁ hw₁₁ _ => ?_
      have hw := Persists.trans _ _ _ (Persists.trans _ _ _ hw₉ hw₁₀) hw₁₁
      refine hok _ w₁₁ _ _ ((h₇.persists hw).of_writer rfl) ?_
      exact ⟨⟨rfl, ⟨rs, rfl, hrecords⟩, htimed, rfl, rfl, rfl⟩, hfinal,
        congrArg some h₄.offset⟩

end GstPravega.Plugin.PravegaSink
