import GstPravega.Proofs.Cadence
import GstPravega.Proofs.IndexDecision

/-!
# The record that closes a recording

`stop` writes a record at the end of the data, with the end of the last buffer that had a
timestamp: not the latest end there was. When the buffers come in decode order, a buffer
with a later timestamp may lie in front of the last one, and so may its record. Then the
final record does not close the recording. It does exactly when the last end is behind
every timestamp that left an event or a record.
-/

namespace GstPravega.Plugin.PravegaSink

open GstPravega.Lib GstPravega.Client GstPravega.Gst GstPravega.Video

variable {F : Type} {checks : Bool} {settings : Settings F} {bs : List Input}
  {st st' : Started} {E E' : List Event} {R R' : List Record}

/-- Where a buffer with this timestamp ends: a nanosecond behind it, or its duration. -/
def endOf (buffer : Buffer) (t : UInt64) : Nat :=
  t.toNat + max 1 (buffer.duration.getD 0).toNat

/-- The end of the last buffer so far that was written with a timestamp. -/
def endAfter (e : Option Nat) (x : Buffer × Fate) : Option Nat :=
  match x.2 with
  | .written ⟨some t⟩ _ => some (endOf x.1 t)
  | _ => e

def lastEnd (fs : List (Buffer × Fate)) : Option Nat := fs.foldl endAfter none

/-- The buffer is written with this timestamp, as events, or with a record. -/
def Leaves (x : Buffer × Fate) (t : UInt64) : Prop :=
  ∃ included, x.2 = .written ⟨some t⟩ included ∧ (x.1.payload ≠ [] ∨ included = true)

/-- Every timestamp that is left is before the last end. -/
def ClosedByLast (fs : List (Buffer × Fate)) : Prop :=
  ∀ x ∈ fs, ∀ t, Leaves x t → ∃ n, lastEnd fs = some n ∧ t.toNat < n

/-- These events and records carry the timestamp. -/
def Carries (es : List Event) (rs : List Record) (t : UInt64) : Prop :=
  (∃ e ∈ es, e.header.timestamp = ⟨some t⟩) ∨ ∃ r ∈ rs, r.timestamp = ⟨some t⟩

/-- What the instance has written, and what it holds for its final record. -/
structure Closing (fs : List (Buffer × Fate)) (st : Started) (es : List Event)
    (rs : List Record) : Prop where
  final : nanosOf st.finalTimestamp = lastEnd fs
  offset : lastEnd fs ≠ none → st.finalOffset ≠ none
  carries : ∀ t, Carries es rs t ↔ t ≠ 0 ∧ ∃ x ∈ fs, Leaves x t

theorem endOf_eq {buffer : Buffer} {t : UInt64} {old new : PravegaTimestamp}
    (hfits : (finalTimestampOf true ⟨some t⟩ .none buffer.duration).isSome = true)
    (h : finalTimestampOf checks ⟨some t⟩ old buffer.duration = some new) :
    nanosOf new = some (endOf buffer t) := by
  obtain ⟨x, hx⟩ := Option.isSome_iff_exists.mp hfits
  obtain ⟨c, hc, -⟩ := Option.map_eq_some_iff.mp hx
  obtain ⟨hlt, rfl⟩ := u64Add_true hc
  rw [finalTimestampOf] at h
  dsimp only at h
  rw [u64Add_of_lt hlt] at h
  injection h with h
  subst h
  show some (t + max 1 (buffer.duration.getD 0)).toNat = _
  rw [toNat_add_of_lt hlt, toNat_max_one, endOf]

/-- The timestamps that the fragments of a buffer carry. -/
theorem mem_fragments_iff {timestamp : PravegaTimestamp} {i r d : Bool}
    {payload : List UInt8} {t : UInt64} :
    (∃ e ∈ fragments timestamp i r d payload, e.header.timestamp = ⟨some t⟩) ↔
      payload ≠ [] ∧ timestamp = ⟨some t⟩ ∧ t ≠ 0 := by
  constructor
  · rintro ⟨e, he, ht⟩
    have hstored := timestamp_of_mem_fragments he
    rw [ht, storedTime] at hstored
    refine ⟨fun hnil => ?_, ?_⟩
    · rw [hnil, fragments_nil] at he
      cases he
    · split at hstored
      · cases hstored
      · next hne =>
          rw [← hstored] at hne ⊢
          exact ⟨rfl, fun hzero => hne (by rw [hzero])⟩
  · rintro ⟨hne, rfl, hzero⟩
    have hnot : (⟨some t⟩ : PravegaTimestamp) ≠ ⟨some 0⟩ := by simpa using hzero
    rw [fragments_of_ne hne]
    refine ⟨_, List.mem_cons_self, ?_⟩
    exact if_neg hnot

/-! ## The last end -/

theorem lastEnd_append {fs : List (Buffer × Fate)} {x : Buffer × Fate} :
    lastEnd (fs ++ [x]) = endAfter (lastEnd fs) x := by
  rw [lastEnd, List.foldl_append]
  rfl

theorem endAfter_leaves {e : Option Nat} {x : Buffer × Fate} {t : UInt64}
    (h : Leaves x t) : endAfter e x = some (endOf x.1 t) := by
  obtain ⟨included, hx, -⟩ := h
  rw [endAfter, hx]

/-- An end stays one, a later one perhaps, and it is never zero. -/
theorem endAfter_pos {e : Option Nat} (x : Buffer × Fate) (h : ∃ n, e = some n ∧ 0 < n) :
    ∃ n, endAfter e x = some n ∧ 0 < n := by
  rw [endAfter]
  split
  · refine ⟨_, rfl, ?_⟩
    rw [endOf]
    omega
  · exact h

theorem foldl_endAfter_pos (fs : List (Buffer × Fate)) :
    ∀ {e : Option Nat}, (∃ n, e = some n ∧ 0 < n) →
      ∃ n, fs.foldl endAfter e = some n ∧ 0 < n := by
  induction fs with
  | nil => exact fun h => h
  | cons x fs ih => exact fun h => ih (endAfter_pos x h)

/-- Where anything is left with a timestamp, there is a last end. -/
theorem lastEnd_pos {fs : List (Buffer × Fate)} {x : Buffer × Fate} {t : UInt64}
    (hx : x ∈ fs) (h : Leaves x t) : ∃ n, lastEnd fs = some n ∧ 0 < n := by
  obtain ⟨before, behind, rfl⟩ := List.append_of_mem hx
  rw [lastEnd, List.foldl_append, List.foldl_cons, endAfter_leaves h]
  refine foldl_endAfter_pos behind ⟨_, rfl, ?_⟩
  rw [endOf]
  omega

/-! ## What a session leaves -/

theorem carries_append {es es' : List Event} {rs rs' : List Record} {t : UInt64} :
    Carries (es ++ es') (rs ++ rs') t ↔ Carries es rs t ∨ Carries es' rs' t := by
  simp only [Carries, List.mem_append, or_and_right, exists_or]
  exact or_or_or_comm

/-- The events and the record of one buffer. -/
theorem carries_rendered {buffer : Buffer} {timestamp : PravegaTimestamp}
    {included r d : Bool} {offset : Nat} {new : List Record} {t : UInt64}
    (htimed : included = true → timestamp.nanoseconds.getD 0 ≠ 0)
    (hnew : new.map Record.toIndexRecord = bufferRecords timestamp offset included r d) :
    Carries (fragments timestamp included r d buffer.payload) new t ↔
      t ≠ 0 ∧ Leaves (buffer, .written timestamp included) t := by
  have hrecord : (∃ a ∈ new, a.timestamp = ⟨some t⟩) ↔
      included = true ∧ timestamp = ⟨some t⟩ := by
    constructor
    · rintro ⟨a, ha, ht⟩
      obtain ⟨hincluded, ha⟩ := of_mem_bufferRecords hnew ha
      exact ⟨hincluded, by rw [← ht, ha]; rfl⟩
    · rintro ⟨rfl, rfl⟩
      have hlen := congrArg List.length hnew
      rw [List.length_map] at hlen
      obtain ⟨a, rfl⟩ : ∃ a, new = [a] := List.length_eq_one_iff.mp hlen
      obtain ⟨-, ha⟩ := of_mem_bufferRecords hnew List.mem_cons_self
      exact ⟨a, List.mem_cons_self, by rw [ha]; rfl⟩
  rw [Carries, mem_fragments_iff, hrecord, Leaves]
  constructor
  · rintro (⟨hne, rfl, ht⟩ | ⟨rfl, rfl⟩)
    · exact ⟨ht, included, rfl, Or.inl hne⟩
    · exact ⟨htimed rfl, true, rfl, Or.inr rfl⟩
  · rintro ⟨ht, i, hx, hleft⟩
    injection hx with htime hi
    subst htime hi
    exact hleft.imp (fun hne => ⟨hne, rfl, ht⟩) fun hi => ⟨hi, rfl⟩

theorem exists_leaves_append {fs : List (Buffer × Fate)} {x : Buffer × Fate} {t : UInt64} :
    (∃ y ∈ fs ++ [x], Leaves y t) ↔ (∃ y ∈ fs, Leaves y t) ∨ Leaves x t := by
  simp only [List.mem_append, List.mem_singleton, or_and_right, exists_or, exists_eq_left]

variable {fs : List (Buffer × Fate)} {es : List Event} {rs : List Record}

/-- One more buffer is written. -/
theorem Closing.rendered {baseTime : ClockTime} {buffer : Buffer}
    {timestamp : PravegaTimestamp} {included r d : Bool} {offset : Nat} {new : List Record}
    (h : Closing fs st es rs)
    (hfate : fateOf settings st.firstValidTime st.lastIndexTime (baseTime, buffer) ≠
      .overflow)
    (hdecided : Decided checks settings baseTime buffer st timestamp included)
    (hrendered : Rendered checks buffer timestamp included (st.noteValidTime timestamp) st'
      E E' R R')
    (hnew : new.map Record.toIndexRecord = bufferRecords timestamp offset included r d) :
    Closing (fs ++ [(buffer, .written timestamp included)]) st'
      (es ++ fragments timestamp included r d buffer.payload) (rs ++ new) := by
  refine ⟨?_, fun _ hnone => ?_, fun t => ?_⟩
  · rw [lastEnd_append]
    have hfinal := hrendered.finalTimestamp
    obtain ⟨_ | t⟩ := timestamp
    · injection hfinal with hfinal
      rw [← hfinal]
      exact h.final
    · obtain ⟨time, i, hdecided', hfits⟩ := decided_of_fateOf true hfate hdecided.readable
      obtain rfl := Option.some.inj
        ((timestampOf_true hdecided'.time).symm.trans hdecided.time)
      exact endOf_eq (Option.isSome_iff_exists.mpr (hfits _)) hfinal
  · rw [hrendered.finalOffset] at hnone
    cases hnone
  · rw [carries_append, h.carries, carries_rendered hrendered.timed hnew,
      exists_leaves_append, and_or_left]

/-- A buffer is refused. -/
theorem Closing.refused {baseTime : ClockTime} {buffer : Buffer} {fate : Fate}
    (h : Closing fs st es rs)
    (hfate : fate = .unreadable ∨ ∃ timestamp, fate = .zero timestamp)
    (hrefused : Refused checks settings baseTime buffer st st') :
    Closing (fs ++ [(buffer, fate)]) st' es rs := by
  have hleaves : ∀ t, ¬ Leaves (buffer, fate) t := by
    rintro t ⟨included, hx, -⟩
    rcases hfate with rfl | ⟨timestamp, rfl⟩
    · cases hx
    · cases hx
  have hend : lastEnd (fs ++ [(buffer, fate)]) = lastEnd fs := by
    rw [lastEnd_append]
    rcases hfate with rfl | ⟨timestamp, rfl⟩
    · rfl
    · rfl
  have hfinal : st'.finalTimestamp = st.finalTimestamp ∧ st'.finalOffset = st.finalOffset := by
    rcases hrefused with ⟨-, rfl⟩ | ⟨timestamp, writer, -, -, rfl⟩
    · exact ⟨rfl, rfl⟩
    · exact ⟨rfl, rfl⟩
  refine ⟨?_, ?_, fun t => ?_⟩
  · rw [hfinal.1, hend]
    exact h.final
  · rw [hfinal.2, hend]
    exact h.offset
  · rw [h.carries, exists_leaves_append, or_iff_left (hleaves t)]

/-- A session. The induction is on the buffers, the fates of those before in `fs`. -/
theorem Recorded.closing {refusals : Prop}
    (h : Recorded refusals checks settings bs st E R st' E' R') :
    ∀ {fs es rs}, Closing fs st es rs →
      SumsFit settings st.firstValidTime st.lastIndexTime bs →
      ∃ es' rs', E' = E ++ es' ∧ R' = R ++ rs' ∧
        Closing (fs ++ fates settings st.firstValidTime st.lastIndexTime bs) st'
          (es ++ es') (rs ++ rs') := by
  induction h with
  | nil =>
      intro fs es rs hclosing _
      refine ⟨[], [], (List.append_nil _).symm, (List.append_nil _).symm, ?_⟩
      rw [fates, List.append_nil, List.append_nil, List.append_nil]
      exact hclosing
  | @cons baseTime buffer bs timestamp included st st₁ st₂ E E₁ E₂ R R₁ R₂ hdecided
      hrendered _ ih =>
      intro fs es rs hclosing hfit
      obtain ⟨hfate, hfit⟩ := sumsFit_cons hfit
      obtain ⟨heq, hfirst, hlast⟩ := fateOf_rendered hfate hdecided hrendered
      obtain ⟨new, hnew, hrecords⟩ := hrendered.records
      have hclosing₁ := hclosing.rendered hfate hdecided hrendered hrecords
      rw [heq, ← hfirst, ← hlast] at hfit
      obtain ⟨es', rs', rfl, rfl, hclosing₂⟩ := ih hclosing₁ hfit
      have hevents := hrendered.events
      rw [hevents, List.append_assoc]
      refine ⟨_, new ++ rs', rfl, ?_, ?_⟩
      · rw [hnew, List.append_assoc]
      · rw [fates]
        dsimp only
        rw [heq, ← hfirst, ← hlast, ← List.append_assoc, ← List.append_assoc,
          ← List.singleton_append, ← List.append_assoc]
        exact hclosing₂
  | @refused baseTime buffer bs st st₁ st₂ E E₂ R R₂ _ hrefused _ ih =>
      intro fs es rs hclosing hfit
      obtain ⟨hfate, hfit⟩ := sumsFit_cons hfit
      obtain ⟨fate, heq, hkind, hfirst, hlast⟩ := fateOf_refused hfate hrefused
      have hclosing₁ := hclosing.refused hkind hrefused
      rw [heq, ← hfirst, ← hlast] at hfit
      obtain ⟨es', rs', hE, hR, hclosing₂⟩ := ih hclosing₁ hfit
      refine ⟨es', rs', hE, hR, ?_⟩
      rw [fates]
      dsimp only
      rw [heq, ← hfirst, ← hlast, ← List.singleton_append, ← List.append_assoc]
      exact hclosing₂

theorem closing_new {bufferSize dataOffset : Nat} {spawned : Bool} :
    Closing [] (Started.new bufferSize dataOffset spawned) [] [] := by
  refine ⟨rfl, fun h => absurd rfl h, fun t => ?_⟩
  simp [Carries]

/-- A session and its stop. -/
theorem Stops.closing {refusals : Prop} {daysToSeconds : F → Int} {w₀ w w' : World}
    {E₀ : List Event} {R₀ : List Record} (h₀ : Whole .ordered w₀ E₀ R₀)
    (h : Session refusals checks daysToSeconds settings w₀ bs st w)
    (hstop : Stops settings st w w') (hfit : SumsFit settings .none .none bs) :
    ∃ (es : List Event) (rs final : List Record),
      w'.data.stored.flatten = w₀.data.entries.flatten ++ es.flatMap Event.frame ∧
      w'.index.entries = w₀.index.entries ++ (rs ++ final).map Record.frame ∧
      final.map Record.toIndexRecord = finalRecords st ∧
      (∀ o, st.finalOffset = some o → o = w'.data.stored.flatten.length) ∧
      Closing (fates settings .none .none bs) st es rs := by
  obtain ⟨spawned, E, R, hrecorded, hview, hsteady⟩ := h.recorded h₀
  obtain ⟨es, rs, rfl, rfl, hclosing⟩ := hrecorded.closing closing_new hfit
  obtain ⟨final, hfinal, hwhole⟩ := hstop.whole hview hsteady
  have hbytes : w'.data.stored.flatten = (E₀ ++ es).flatMap Event.frame := by
    rw [Log.stored_eq_of_durable hwhole.data, hwhole.good.data]
  refine ⟨es, rs, final, ?_, ?_, hfinal, fun o ho => ?_, hclosing⟩
  · rw [hbytes, h₀.good.data, List.flatMap_append]
  · rw [hwhole.good.index, h₀.good.index, List.map_append, List.map_append,
      List.map_append, List.append_assoc]
  · rw [hbytes]
    exact hsteady o ho

/-! ## The final record -/

theorem lt_some_iff {x : PravegaTimestamp} {n : UInt64} :
    x < ⟨some n⟩ ↔ ∀ t, x = ⟨some t⟩ → t.toNat < n.toNat := by
  obtain ⟨_ | t⟩ := x
  · simp [PravegaTimestamp.lt_iff]
  · simp [PravegaTimestamp.lt_iff]

/-- All these events and records are before a timestamp when what they carry is. -/
theorem all_before_iff {n : UInt64} :
    ((∀ e ∈ es, e.header.timestamp < ⟨some n⟩) ∧ ∀ a ∈ rs, a.timestamp < ⟨some n⟩) ↔
      ∀ t, Carries es rs t → t.toNat < n.toNat := by
  simp only [lt_some_iff, Carries]
  constructor
  · rintro ⟨hes, hrs⟩ t (⟨e, he, ht⟩ | ⟨a, ha, ht⟩)
    · exact hes e he t ht
    · exact hrs a ha t ht
  · intro h
    exact ⟨fun e he t ht => h t (Or.inl ⟨e, he, ht⟩), fun a ha t ht => h t (Or.inr ⟨a, ha, ht⟩)⟩

/-- Time zero is in no event and no record, and before every end. -/
theorem Closing.closed_iff (h : Closing fs st es rs) {n : Nat} (hn : lastEnd fs = some n) :
    ClosedByLast fs ↔ ∀ t, Carries es rs t → t.toNat < n := by
  constructor
  · intro hclosed t ht
    obtain ⟨-, x, hx, hleaves⟩ := (h.carries t).mp ht
    obtain ⟨m, hm, hlt⟩ := hclosed x hx t hleaves
    obtain rfl := Option.some.inj (hn.symm.trans hm)
    exact hlt
  · intro hall x hx t hleaves
    refine ⟨n, hn, ?_⟩
    by_cases hzero : t = 0
    · obtain ⟨m, hm, hpos⟩ := lastEnd_pos hx hleaves
      obtain rfl := Option.some.inj (hn.symm.trans hm)
      rw [hzero]
      exact hpos
    · exact hall t ((h.carries t).mpr ⟨hzero, x, hx, hleaves⟩)

theorem Closing.final_eq_nil_iff (h : Closing fs st es rs) {final : List Record}
    (hfinal : final.map Record.toIndexRecord = finalRecords st) :
    final = [] ↔ lastEnd fs = none := by
  rw [← List.map_eq_nil_iff (f := Record.toIndexRecord), hfinal, finalRecords]
  have hoffset := h.offset
  rw [← h.final] at hoffset ⊢
  cases ho : st.finalOffset with
  | none =>
      rw [ho] at hoffset
      exact ⟨fun _ => by_contra fun hne => hoffset hne rfl, fun _ => rfl⟩
  | some o =>
      simp only [PravegaTimestamp.isSome, nanosOf, Option.map_eq_none_iff]
      by_cases hn : st.finalTimestamp.nanoseconds = none
      · simp [hn]
      · simp [hn, Option.isSome_iff_ne_none]

theorem finalOffset_of_mem {final : List Record} {r : Record}
    (h : final.map Record.toIndexRecord = finalRecords st) (hr : r ∈ final) :
    st.finalOffset = some r.offset := by
  have hmem := List.mem_map_of_mem (f := Record.toIndexRecord) hr
  rw [h, finalRecords] at hmem
  split at hmem
  · next o ho =>
      split at hmem
      · have hr := List.mem_singleton.mp hmem
        rw [ho, show r.offset = o by rw [hr]; rfl]
      · cases hmem
  · cases hmem

/-- The final record is at the end of all data. It is later than every event and every
record of the instance exactly when the last end is behind what they carry. There is one
where a buffer was written with a timestamp. -/
theorem final_record_closes_iff {refusals : Prop} {daysToSeconds : F → Int}
    {w₀ w w' : World} {E₀ : List Event} {R₀ : List Record} (h₀ : Whole .ordered w₀ E₀ R₀)
    (h : Session refusals checks daysToSeconds settings w₀ bs st w)
    (hstop : Stops settings st w w') (hfit : SumsFit settings .none .none bs) :
    ∃ (es : List Event) (rs final : List Record),
      w'.data.stored.flatten = w₀.data.entries.flatten ++ es.flatMap Event.frame ∧
      w'.index.entries = w₀.index.entries ++ (rs ++ final).map Record.frame ∧
      final.map Record.toIndexRecord = finalRecords st ∧
      (final = [] ↔ lastEnd (fates settings .none .none bs) = none) ∧
      (∀ r ∈ final, r.offset = w'.data.stored.flatten.length) ∧
      ((∀ r ∈ final, (∀ e ∈ es, e.header.timestamp < r.timestamp) ∧
          ∀ a ∈ rs, a.timestamp < r.timestamp) ↔
        ClosedByLast (fates settings .none .none bs)) := by
  obtain ⟨es, rs, final, hdata, hindex, hfinal, hoffset, hclosing⟩ :=
    hstop.closing h₀ h hfit
  have hnil := hclosing.final_eq_nil_iff hfinal
  refine ⟨es, rs, final, hdata, hindex, hfinal, hnil, fun r hr => ?_, ?_⟩
  · exact hoffset _ (finalOffset_of_mem hfinal hr)
  cases hlast : lastEnd (fates settings .none .none bs) with
  | none =>
      rw [hnil.mpr hlast]
      refine ⟨fun _ x hx t hleaves => ?_, fun _ r hr => absurd hr List.not_mem_nil⟩
      obtain ⟨n, hn, -⟩ := lastEnd_pos hx hleaves
      rw [hlast] at hn
      cases hn
  | some n =>
      have htime := hclosing.final.trans hlast
      obtain ⟨m, hm, rfl⟩ := Option.map_eq_some_iff.mp htime
      have hst : st.finalTimestamp = ⟨some m⟩ := congrArg PravegaTimestamp.mk hm
      rw [hclosing.closed_iff hlast, ← all_before_iff, ← hst]
      obtain ⟨r, hr⟩ : ∃ r, r ∈ final := List.exists_mem_of_ne_nil final fun hc => by
        rw [hnil, hlast] at hc
        cases hc
      constructor
      · intro hall
        rw [← timestamp_finalRecords hfinal hr]
        exact hall r hr
      · intro hall r hr
        rw [timestamp_finalRecords hfinal hr]
        exact hall

def lateWorld : World := (cameraAdds lateBuffer secondStarted secondWorld).2

theorem final_record_closes_iff_late :
    ∃ (es : List Event) (rs final : List Record),
      (cameraStops lateStarted lateWorld).2.data.stored.flatten =
        [] ++ es.flatMap Event.frame ∧
      (cameraStops lateStarted lateWorld).2.index.entries =
        [] ++ (rs ++ final).map Record.frame ∧
      final.map Record.toIndexRecord = finalRecords lateStarted ∧
      (final = [] ↔ lastEnd (fates cameraSettings .none .none
        [(none, secondBuffer), (none, lateBuffer)]) = none) ∧
      (∀ r ∈ final,
        r.offset = (cameraStops lateStarted lateWorld).2.data.stored.flatten.length) ∧
      ((∀ r ∈ final, (∀ e ∈ es, e.header.timestamp < r.timestamp) ∧
          ∀ a ∈ rs, a.timestamp < r.timestamp) ↔
        ClosedByLast (fates cameraSettings .none .none
          [(none, secondBuffer), (none, lateBuffer)])) := by
  have hsecond : (cameraAdds secondBuffer cameraStarted cameraStart.2).1 =
      (.ok (), .started secondStarted) := by decide +kernel
  have hlate : (cameraAdds lateBuffer secondStarted secondWorld).1 =
      (.ok (), .started lateStarted) := by decide +kernel
  have hstop : (cameraStops lateStarted lateWorld).1 = (.ok (), .stopped) := by
    decide +kernel
  have hsession : Session False true (fun _ => 0) cameraSettings ⟨.empty, .empty, false⟩
      [(none, secondBuffer), (none, lateBuffer)] lateStarted lateWorld :=
    camera_session (camera_renders hsecond (camera_renders hlate .nil))
  exact final_record_closes_iff whole_empty hsession (camera_stops hstop)
    (by decide +kernel)

/-- A delta unit at eleven seconds, which comes behind the one at twelve. -/
def earlierBuffer : Buffer :=
  ⟨ClockTime.store (some 11000000000), none, ⟨true, false, false, false⟩, [9], true, none, none⟩

def earlierStarted : Started :=
  { lateStarted with
    writer := ⟨⟨128 * 1024, lateStarted.writer.inner.buf ++ EventWithHeader.encode
      ⟨⟨⟨some 11000000000⟩, false, false, false⟩, [9]⟩⟩, 63⟩
    finalTimestamp := ⟨some 11000000001⟩
    finalOffset := some 63
    buffersWritten := 3 }

def earlierWorld : World := (cameraAdds earlierBuffer lateStarted lateWorld).2

/-- In decode order the final record comes to lie a second before the record in front of
it. -/
theorem final_record_left_behind :
    ¬ ∀ (bs : List Input) (st : Started) (w w' : World) (es : List Event)
      (rs final : List Record),
      Session False true (fun _ => 0) cameraSettings ⟨.empty, .empty, false⟩ bs st w →
      Stops cameraSettings st w w' → SumsFit cameraSettings .none .none bs →
      w'.data.stored.flatten = es.flatMap Event.frame →
      w'.index.entries = (rs ++ final).map Record.frame →
      final.map Record.toIndexRecord = finalRecords st →
      ∀ r ∈ final, (∀ e ∈ es, e.header.timestamp < r.timestamp) ∧
        ∀ a ∈ rs, a.timestamp < r.timestamp := by
  intro hall
  have hsecond : (cameraAdds secondBuffer cameraStarted cameraStart.2).1 =
      (.ok (), .started secondStarted) := by decide +kernel
  have hlate : (cameraAdds lateBuffer secondStarted secondWorld).1 =
      (.ok (), .started lateStarted) := by decide +kernel
  have hearlier : (cameraAdds earlierBuffer lateStarted lateWorld).1 =
      (.ok (), .started earlierStarted) := by decide +kernel
  have hstop : (cameraStops earlierStarted earlierWorld).1 = (.ok (), .stopped) := by
    decide +kernel
  have hsession : Session False true (fun _ => 0) cameraSettings ⟨.empty, .empty, false⟩
      [(none, secondBuffer), (none, lateBuffer), (none, earlierBuffer)] earlierStarted
      earlierWorld :=
    camera_session (camera_renders hsecond (camera_renders hlate
      (camera_renders hearlier .nil)))
  have hfit : SumsFit cameraSettings .none .none
      [(none, secondBuffer), (none, lateBuffer), (none, earlierBuffer)] := by
    decide +kernel
  obtain ⟨es, rs, final, hdata, hindex, hfinal, -, hclosing⟩ :=
    (camera_stops hstop).closing whole_empty hsession hfit
  have hbefore := hall _ _ _ _ es rs final hsession (camera_stops hstop) hfit hdata hindex
    hfinal
  obtain ⟨r, hr⟩ : ∃ r, r ∈ final := List.exists_mem_of_ne_nil final fun hnil => by
    rw [hnil] at hfinal
    exact absurd hfinal (by decide +kernel)
  have htime := timestamp_finalRecords hfinal hr
  rw [show earlierStarted.finalTimestamp = ⟨some 11000000001⟩ from rfl] at htime
  have hall := hbefore r hr
  rw [htime, all_before_iff] at hall
  have hleft : ∃ x ∈ fates cameraSettings .none .none
      [(none, secondBuffer), (none, lateBuffer), (none, earlierBuffer)],
      Leaves x 12000000000 := by
    refine ⟨(lateBuffer, .written ⟨some 12000000000⟩ true), ?_, true, rfl, Or.inr rfl⟩
    decide +kernel
  have hlt := hall 12000000000 ((hclosing.carries _).mpr ⟨by decide, hleft⟩)
  exact absurd hlt (by decide)

end GstPravega.Plugin.PravegaSink
