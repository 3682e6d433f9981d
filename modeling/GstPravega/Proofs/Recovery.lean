import GstPravega.Plugin.TransactionCoordinator
import Mathlib.Data.List.Chain

/-!
# Recovery after a crash

A buffer is pushed first and recorded afterwards, so whenever the process dies the
record in the table is that of a buffer that was pushed, and resuming behind it loses
nothing: what has not been pushed comes later. What is repeated are the buffers pushed
since, and of these all but the last were found too close to the recorded one to be
recorded themselves.

`Inv` says this of the table and the pushed buffers at every moment, also between two
calls of the client and whether or not an insert that failed had its effect. `View`
adds what the element knows between two buffers.
-/

namespace GstPravega.Plugin.PravegaTC

open GstPravega.Lib GstPravega.Gst GstPravega.Video GstPravega.Lib.Program

/-! ## What the element runs in -/

/-- An element of the pipeline, with the properties that are set. -/
structure Child where
  typeName : String
  startMode : String
  startTimestamp : UInt64
  deriving DecidableEq, Repr

/-- The table with the version of its record, the pipeline, the buffers that were
pushed with success, and whether an insert was. -/
structure World where
  table : Option (PersistentState × Nat)
  children : List Child
  pushed : List Buffer
  inserted : Bool
  deriving DecidableEq, Repr

namespace World

def put (w : World) (s : PersistentState) (version : Nat) : World :=
  { w with table := some (s, version) }

def setStart (w : World) (i : Nat) (startMode : String) (startTimestamp : UInt64) : World :=
  { w with children := w.children.modify i fun child =>
      { child with startMode := startMode, startTimestamp := startTimestamp } }

/-- What a command does. A write to the table that fails may have been done. -/
def Exec : (c : TcCmd) → World → c.Res → World → Prop
  | .createClientConfig .., w, _, w' => w' = w
  | .createTable .., w, _, w' => w' = w
  | .get, w, r, w' => w' = w ∧ (r = .ok w.table ∨ ∃ e, r = .error e)
  | .insertConditionally s version, w, r, w' =>
      (r = .ok () ∧ (∃ s₀, w.table = some (s₀, version)) ∧ ∃ v, w' = w.put s v) ∨
        ((∃ e, r = .error e) ∧ (w' = w ∨ ∃ v, w' = w.put s v))
  | .insert s, w, r, w' =>
      (r = .ok () ∧ ∃ v, w' = { w.put s v with inserted := true }) ∨
        ((∃ e, r = .error e) ∧ (w' = w ∨ ∃ v, w' = w.put s v))
  | .push buffer, w, r, w' =>
      (r = .ok () ∧ w' = { w with pushed := w.pushed ++ [buffer] }) ∨
        ((∃ e, r = .error e) ∧ w' = w)
  | .children, w, r, w' => w' = w ∧ r = w.children.map fun child => child.typeName
  | .setStart i startMode startTimestamp, w, _, w' =>
      w' = w.setStart i startMode startTimestamp

end World

/-! ## Buffers in time -/

/-- The time from a buffer's PTS to where to resume behind it. -/
def span (buffer : Buffer) : Option (Nat × Nat) :=
  buffer.pts.map fun pts =>
    (pts.toNat, pts.toNat + max 1 (buffer.duration.getD 0).toNat)

/-- Each buffer with a PTS begins where the one before it ends, or later. -/
def Spaced (buffers : List Buffer) : Prop :=
  (buffers.filterMap span).IsChain fun a b => a.2 ≤ b.1

/-- No buffer ends behind the last time there is. -/
def Fits (buffers : List Buffer) : Prop := ∀ x ∈ buffers.filterMap span, x.2 < 2 ^ 64

theorem span_eq_some {buffer : Buffer} {x : Nat × Nat} : span buffer = some x ↔
    ∃ pts, buffer.pts = some pts ∧
      (pts.toNat, pts.toNat + max 1 (buffer.duration.getD 0).toNat) = x := by
  rw [span, Option.map_eq_some_iff]

theorem span_lt {buffer : Buffer} {x : Nat × Nat} (h : span buffer = some x) :
    x.1 < x.2 := by
  obtain ⟨pts, _, rfl⟩ := span_eq_some.mp h
  dsimp only
  omega

theorem span_eq_none {buffer : Buffer} : span buffer = none ↔ buffer.pts = none := by
  rw [span, Option.map_eq_none_iff]

/-- Along a chain of spans each ends before all that follow. -/
theorem le_of_isChain {xs : List (Nat × Nat)} (hlt : ∀ z ∈ xs, z.1 < z.2) :
    ∀ {x : Nat × Nat}, (x :: xs).IsChain (fun a b => a.2 ≤ b.1) → ∀ y ∈ xs, x.2 ≤ y.1 := by
  induction xs with
  | nil => exact fun _ y hy => nomatch hy
  | cons z xs ih =>
      intro x hchain y hy
      obtain ⟨hxz, hchain⟩ := List.isChain_cons_cons.mp hchain
      rcases List.mem_cons.mp hy with rfl | hy
      · exact hxz
      · have hz := hlt z List.mem_cons_self
        have := ih (fun z hz => hlt z (List.mem_cons_of_mem _ hz)) hchain y hy
        omega

/-- Where one buffer comes before another, it ends before the other begins. -/
theorem Spaced.le {pre post : List Buffer} {b c : Buffer} {x y : Nat × Nat}
    (h : Spaced (pre ++ b :: post)) (hb : span b = some x) (hc : c ∈ post)
    (hy : span c = some y) : x.2 ≤ y.1 := by
  rw [Spaced, List.filterMap_append, List.filterMap_cons_some hb] at h
  refine le_of_isChain ?_ h.right_of_append y (List.mem_filterMap.mpr ⟨c, hc, hy⟩)
  intro z hz
  obtain ⟨d, _, hd⟩ := List.mem_filterMap.mp hz
  exact span_lt hd

/-- The code's sum is where the span ends. -/
theorem resumeAtPtsOf_span {checks : Bool} {buffer : Buffer} {x : Nat × Nat}
    (h : span buffer = some x) (hlt : x.2 < 2 ^ 64) :
    resumeAtPtsOf checks buffer.pts buffer.duration = some ⟨some (UInt64.ofNat x.2)⟩ := by
  obtain ⟨pts, hpts, rfl⟩ := span_eq_some.mp h
  dsimp only at hlt ⊢
  have hmul : TimeDelta.mul checks (max 1 (buffer.duration.getD 0)).toNat NSECOND =
      some ⟨some (max 1 (buffer.duration.getD 0).toNat : Nat)⟩ := by
    rw [toNat_max_one, NSECOND, TimeDelta.mul_of_range (by omega) (by omega), Int.mul_one]
  rw [resumeAtPtsOf, hmul, Option.bind_eq_bind, Option.bind_some, hpts,
    PravegaTimestamp.fromNanoseconds, PravegaTimestamp.add_of_lt hlt]

/-! ## The invariant -/

section Invariant

variable {buffers : List Buffer} {period : UInt64}

/-- The record in the table is that of the buffer `b`. -/
structure RecordOf (w : World) (pre : List Buffer) (b : Buffer) (post : List Buffer) :
    Prop where
  pushed : w.pushed = pre ++ b :: post
  table : ∃ x v, span b = some x ∧ w.table = some (⟨UInt64.ofNat x.2, some 0⟩, v)

/-- None of the buffers is later than `b` by the record period. -/
def Near (period : UInt64) (b : Buffer) (cs : List Buffer) : Prop :=
  ∀ x, span b = some x → ∀ c ∈ cs, ∀ y, span c = some y → y.1 < x.1 + period.toNat

/-- At any moment of a session. -/
structure Inv (buffers : List Buffer) (period : UInt64) (w : World) : Prop where
  pushed : ∃ rest, buffers = w.pushed ++ rest
  recorded : w.inserted = true →
    ∃ pre b post, RecordOf w pre b post ∧ Near period b post.dropLast

/-- The final record is that of the last buffer pushed that has a PTS. -/
def FinalOf (pushed : List Buffer) (final : PravegaTimestamp) : Prop :=
  ((∀ c ∈ pushed, span c = none) ∧ final = PravegaTimestamp.none) ∨
    ∃ pre b post x, pushed = pre ++ b :: post ∧ span b = some x ∧
      (∀ c ∈ post, span c = none) ∧ final = ⟨some (UInt64.ofNat x.2)⟩

/-- Between two buffers, with `rest` still to come. -/
structure View (buffers : List Buffer) (period : UInt64) (rest : List Buffer)
    (st : Started) (w : World) : Prop where
  pushed : buffers = w.pushed ++ rest
  fresh : st.lastRecordedPts = none → w.inserted = false
  recorded : ∀ pts, st.lastRecordedPts = some pts →
    ∃ pre b post, RecordOf w pre b post ∧ b.pts = some pts ∧ Near period b post
  final : FinalOf w.pushed st.finalResumeAtPts

/-- When no buffer comes any more. -/
structure Ended (buffers : List Buffer) (period : UInt64) (st : Started) (w : World) :
    Prop where
  inv : Inv buffers period w
  final : FinalOf w.pushed st.finalResumeAtPts

/-- The element is alone with what it runs in. -/
abbrev arena (inv : World → Prop) : Arena World TcCmd TcCmd.Res := alone World.Exec inv

variable {st : Started} {w : World} {rest pre post : List Buffer} {b buffer : Buffer}

theorem Near.append {cs : List Buffer} (h : Near period b cs) (hc : span buffer = none) :
    Near period b (cs ++ [buffer]) := by
  intro x hx c hmem y hy
  rcases List.mem_append.mp hmem with hmem | hmem
  · exact h x hx c hmem y hy
  · rw [List.mem_singleton.mp hmem, hc] at hy
    cases hy

theorem near_of_untimed {cs : List Buffer} (h : ∀ c ∈ cs, span c = none) :
    Near period b cs := by
  intro x _ c hc y hy
  rw [h c hc] at hy
  cases hy

theorem Near.dropLast {cs : List Buffer} (h : Near period b cs) :
    Near period b cs.dropLast :=
  fun x hx c hc => h x hx c (List.dropLast_subset _ hc)

theorem View.inv (h : View buffers period rest st w) : Inv buffers period w where
  pushed := ⟨rest, h.pushed⟩
  recorded := by
    intro hinserted
    cases hlast : st.lastRecordedPts with
    | none =>
        rw [h.fresh hlast] at hinserted
        cases hinserted
    | some pts =>
        obtain ⟨pre, b, post, hrecord, _, hnear⟩ := h.recorded pts hlast
        exact ⟨pre, b, post, hrecord, hnear.dropLast⟩

theorem View.ended (h : View buffers period rest st w) : Ended buffers period st w :=
  ⟨h.inv, h.final⟩

/-- One buffer more is pushed. -/
def World.push (w : World) (buffer : Buffer) : World :=
  { w with pushed := w.pushed ++ [buffer] }

theorem RecordOf.push (h : RecordOf w pre b post) (buffer : Buffer) :
    RecordOf (w.push buffer) pre b (post ++ [buffer]) := by
  refine ⟨?_, h.table⟩
  rw [World.push, h.pushed, List.append_assoc, List.cons_append]

/-- Right after a push: the record may be late by this one buffer. -/
theorem View.push_inv (h : View buffers period (buffer :: rest) st w) :
    Inv buffers period (w.push buffer) where
  pushed := ⟨rest, by rw [h.pushed, World.push, List.append_assoc]; rfl⟩
  recorded := by
    intro hinserted
    cases hlast : st.lastRecordedPts with
    | none =>
        rw [World.push, h.fresh hlast] at hinserted
        cases hinserted
    | some pts =>
        obtain ⟨pre, b, post, hrecord, _, hnear⟩ := h.recorded pts hlast
        refine ⟨pre, b, post ++ [buffer], hrecord.push buffer, ?_⟩
        rw [List.dropLast_concat]
        exact hnear

theorem FinalOf.push_untimed {pushed : List Buffer} {final : PravegaTimestamp}
    (h : FinalOf pushed final) (hb : span buffer = none) :
    FinalOf (pushed ++ [buffer]) final := by
  have hall : ∀ cs : List Buffer, (∀ c ∈ cs, span c = none) →
      ∀ c ∈ cs ++ [buffer], span c = none := by
    intro cs hcs c hc
    rcases List.mem_append.mp hc with hc | hc
    · exact hcs c hc
    · rw [List.mem_singleton.mp hc, hb]
  rcases h with ⟨huntimed, hfinal⟩ | ⟨pre, b, post, x, rfl, hx, hpost, hfinal⟩
  · exact Or.inl ⟨hall _ huntimed, hfinal⟩
  · refine Or.inr ⟨pre, b, post ++ [buffer], x, ?_, hx, hall _ hpost, hfinal⟩
    rw [List.append_assoc, List.cons_append]

theorem finalOf_push (pushed : List Buffer) {x : Nat × Nat} (hb : span buffer = some x) :
    FinalOf (pushed ++ [buffer]) ⟨some (UInt64.ofNat x.2)⟩ :=
  Or.inr ⟨pushed, buffer, [], x, rfl, hb, fun _ hc => absurd hc List.not_mem_nil, rfl⟩

/-! ## `sink_chain` -/

variable {inv : World → Prop} {checks : Bool} {settings : Settings}

/-- A buffer that is not recorded is too close to the one that was. -/
theorem lt_of_not_due {last pts : ClockTime} (hperiod : settings.recordPeriod = some period)
    (h : ¬(last.isNone ∨ (last.add settings.recordPeriod).le pts)) :
    ∃ p, last = some p ∧ ∀ t, pts = some t → t.toNat < p.toNat + period.toNat := by
  rw [not_or, Bool.not_eq_true, Option.isNone_eq_false_iff, Option.isSome_iff_exists] at h
  obtain ⟨⟨p, rfl⟩, h⟩ := h
  refine ⟨p, rfl, ?_⟩
  rintro t rfl
  rw [hperiod, ClockTime.add] at h
  split at h
  · next hsum =>
      simp only [ClockTime.le, decide_eq_true_eq, UInt64.le_iff_toNat_le,
        UInt64.toNat_add] at h
      omega
  · exact absurd rfl h

theorem safeS_record (hperiod : settings.recordPeriod = some period) {x : Nat × Nat}
    (hx : span buffer = some x) (hlt : x.2 < 2 ^ 64)
    (h : View buffers period (buffer :: rest) st w) :
    SafeS (arena (Inv buffers period)) (record checks settings buffer)
      (fun _ st w => View buffers period rest st w)
      (fun _ st w => Ended buffers period st w) st (w.push buffer) := by
  have hfinal := finalOf_push w.pushed hx
  have hinv := h.push_inv
  obtain ⟨pts, hpts, hxpts⟩ := span_eq_some.mp hx
  rw [record, resumeAtPtsOf_span hx hlt]
  refine aloneS_bind (aloneS_pure (aloneS_bind (aloneS_modify ?_)))
  refine aloneS_bind (aloneS_get ?_)
  split
  · refine aloneS_bind (aloneS_pure (aloneS_bind (aloneS_command fun r w' hexec => ?_)))
    have hrecord : ∀ v inserted, RecordOf
        { (w.push buffer).put ⟨UInt64.ofNat x.2, some 0⟩ v with inserted := inserted }
        w.pushed buffer [] := fun v _ => ⟨rfl, x, v, hx, rfl⟩
    have hput : ∀ v inserted, Inv buffers period
        { (w.push buffer).put ⟨UInt64.ofNat x.2, some 0⟩ v with inserted := inserted } :=
      fun v inserted => ⟨hinv.pushed, fun _ =>
        ⟨_, _, _, hrecord v inserted, near_of_untimed fun _ hc => absurd hc List.not_mem_nil⟩⟩
    rcases hexec with ⟨rfl, v, rfl⟩ | ⟨⟨e, rfl⟩, rfl | ⟨v, rfl⟩⟩
    · refine ⟨hput v true, aloneS_modify ⟨?_, ?_, ?_, hfinal⟩⟩
      · rw [h.pushed]
        exact (List.append_assoc w.pushed [buffer] rest).symm
      · intro hnone
        rw [hpts] at hnone
        cases hnone
      · intro p hp
        exact ⟨_, _, _, hrecord v true, hp,
          near_of_untimed fun _ hc => absurd hc List.not_mem_nil⟩
    · exact ⟨hinv, aloneS_throw ⟨hinv, hfinal⟩⟩
    · exact ⟨hput v _, aloneS_throw ⟨hput v _, hfinal⟩⟩
  · next hdue =>
      obtain ⟨p, hp, hnear⟩ := lt_of_not_due hperiod hdue
      obtain ⟨pre, b, post, hrecord, hb, hpost⟩ := h.recorded p hp
      refine aloneS_pure ⟨?_, ?_, ?_, hfinal⟩
      · rw [h.pushed]
        exact (List.append_assoc w.pushed [buffer] rest).symm
      · intro hnone
        rw [show st.lastRecordedPts = none from hnone] at hp
        cases hp
      · intro p' hp'
        rw [show st.lastRecordedPts = some p' from hp'] at hp
        obtain rfl := Option.some.inj hp
        refine ⟨pre, b, post ++ [buffer], hrecord.push buffer, hb, ?_⟩
        intro y hy c hc z hz
        rcases List.mem_append.mp hc with hc | hc
        · exact hpost y hy c hc z hz
        · rw [List.mem_singleton.mp hc, hx] at hz
          obtain rfl := Option.some.inj hz
          rw [span, hb] at hy
          obtain rfl := Option.some.inj hy
          rw [← hxpts]
          exact hnear pts hpts

theorem View.push_untimed (h : View buffers period (buffer :: rest) st w)
    (hb : span buffer = none) : View buffers period rest st (w.push buffer) where
  pushed := by
    rw [h.pushed]
    exact (List.append_assoc w.pushed [buffer] rest).symm
  fresh := h.fresh
  recorded := by
    intro p hp
    obtain ⟨pre, b, post, hrecord, hpts, hnear⟩ := h.recorded p hp
    exact ⟨pre, b, post ++ [buffer], hrecord.push buffer, hpts, hnear.append hb⟩
  final := h.final.push_untimed hb

theorem safeS_chainStarted (hperiod : settings.recordPeriod = some period)
    (hfits : Fits buffers) (h : View buffers period (buffer :: rest) st w) :
    SafeS (arena (Inv buffers period)) (chainStarted checks settings buffer)
      (fun _ st w => View buffers period rest st w)
      (fun _ st w => Ended buffers period st w) st w := by
  rw [chainStarted]
  split
  · exact aloneS_throw h.ended
  · refine aloneS_bind (aloneS_command fun r w' hexec => ?_)
    rcases hexec with ⟨rfl, rfl⟩ | ⟨⟨e, rfl⟩, rfl⟩
    · refine ⟨h.push_inv, ?_⟩
      dsimp only
      cases hx : span buffer with
      | none =>
          rw [span_eq_none.mp hx]
          exact aloneS_pure (h.push_untimed hx)
      | some x =>
          obtain ⟨pts, hpts, _⟩ := span_eq_some.mp hx
          have hlt : x.2 < 2 ^ 64 := by
            refine hfits x (List.mem_filterMap.mpr ⟨buffer, ?_, hx⟩)
            rw [h.pushed]
            exact List.mem_append_right _ List.mem_cons_self
          rw [hpts, Option.isSome_some, if_pos rfl]
          exact safeS_record hperiod hx hlt h
    · exact ⟨h.inv, aloneS_throw h.ended⟩

/-! ## From the start to the stop -/

theorem safe_chain (hperiod : settings.recordPeriod = some period) (hfits : Fits buffers)
    {rest : List Buffer} :
    ∀ {st : Started} {w : World}, View buffers period rest st w →
      Safe (arena (Inv buffers period)) (chain checks rest ⟨settings, .started st⟩)
        (fun x w => ∃ st, x.2 = ⟨settings, .started st⟩ ∧ Ended buffers period st w) w := by
  induction rest with
  | nil =>
      exact fun h => alone_ret ⟨_, rfl, h.ended⟩
  | cons buffer rest ih =>
      intro st w h
      refine safe_bind (safe_bind (Safe.mono (safeS_chainStarted hperiod hfits h) ?_))
      rintro ⟨_ | ⟨⟩, st⟩ w₁ hends
      · exact alone_ret (alone_ret ⟨st, rfl, hends⟩)
      · exact alone_ret (ih hends)

/-- The record is behind every buffer that was pushed. -/
def Past (w : World) : Prop :=
  ∀ c ∈ w.pushed, ∀ x, span c = some x →
    ∃ r v, w.table = some (⟨r, some 0⟩, v) ∧ x.1 < r.toNat

/-- Behind the last buffer that has a PTS is behind all. -/
theorem past_of_record (hspaced : Spaced buffers) (hfits : Fits buffers)
    (hpushed : ∃ rest, buffers = w.pushed ++ rest) (h : RecordOf w pre b post)
    (hpost : ∀ c ∈ post, span c = none) : Past w := by
  obtain ⟨rest, hrest⟩ := hpushed
  obtain ⟨x, v, hx, htable⟩ := h.table
  rw [h.pushed, List.append_assoc, List.cons_append] at hrest
  have hlt : x.2 < 2 ^ 64 := by
    refine hfits x (List.mem_filterMap.mpr ⟨b, ?_, hx⟩)
    rw [hrest]
    exact List.mem_append_right _ List.mem_cons_self
  intro c hc y hy
  refine ⟨_, v, htable, ?_⟩
  rw [UInt64.toNat_ofNat', Nat.mod_eq_of_lt hlt]
  have hx12 := span_lt hx
  rw [h.pushed] at hc
  rcases List.mem_append.mp hc with hc | hc
  · obtain ⟨l, m, rfl⟩ := List.append_of_mem hc
    rw [List.append_assoc, List.cons_append] at hrest
    rw [hrest] at hspaced
    have hle := hspaced.le hy (List.mem_append_right m List.mem_cons_self) hx
    have hy12 := span_lt hy
    omega
  · rcases List.mem_cons.mp hc with rfl | hc
    · rw [hx] at hy
      obtain rfl := Option.some.inj hy
      exact hx12
    · rw [hpost c hc] at hy
      cases hy

theorem safe_stop (settings : Settings) (hspaced : Spaced buffers) (hfits : Fits buffers)
    (h : Ended buffers period st w) :
    Safe (arena (Inv buffers period)) (stop ⟨settings, .started st⟩)
      (fun x w => x.1 = .ok () → Past w) w := by
  refine safe_bind ?_
  rw [stopStarted]
  rcases h.final with ⟨huntimed, hfinal⟩ | ⟨pre, b, post, x, hpushed, hx, hpost, hfinal⟩
  · rw [hfinal]
    refine alone_ret (alone_ret fun _ c hc y hy => ?_)
    rw [huntimed c hc] at hy
    cases hy
  · rw [hfinal]
    refine alone_call fun r w' hexec => ?_
    have hrecord : ∀ v inserted, RecordOf
        { w.put ⟨UInt64.ofNat x.2, some 0⟩ v with inserted := inserted } pre b post :=
      fun v _ => ⟨hpushed, x, v, hx, rfl⟩
    have hput : ∀ v inserted, Inv buffers period
        { w.put ⟨UInt64.ofNat x.2, some 0⟩ v with inserted := inserted } :=
      fun v inserted => ⟨h.inv.pushed, fun _ =>
        ⟨pre, b, post, hrecord v inserted, (near_of_untimed hpost).dropLast⟩⟩
    rcases hexec with ⟨rfl, v, rfl⟩ | ⟨⟨e, rfl⟩, rfl | ⟨v, rfl⟩⟩
    · refine ⟨hput v true, alone_ret (alone_ret fun _ => ?_)⟩
      exact past_of_record hspaced hfits h.inv.pushed (hrecord v true) hpost
    · exact ⟨h.inv, alone_ret (alone_ret fun hok => nomatch hok)⟩
    · exact ⟨hput v _, alone_ret (alone_ret fun hok => nomatch hok)⟩

/-- Before the first buffer. -/
def Idle (w : World) : Prop := w.pushed = [] ∧ w.inserted = false

theorem Idle.view (h : Idle w) : View buffers period buffers ⟨none, .none⟩ w where
  pushed := by rw [h.1, List.nil_append]
  fresh _ := h.2
  recorded _ hp := nomatch hp
  final := Or.inl ⟨fun _ hc => absurd (h.1 ▸ hc) List.not_mem_nil, rfl⟩

end Invariant

end GstPravega.Plugin.PravegaTC
