import GstPravega.Proofs.SinkHistory

/-!
# How large an append may get

An append is taken whole or not at all only up to a size. No frame is larger, but the
buffered writer hands on what it has collected, and it collects as much as it has room
for. So an append is within the size for as long as the room is (`Fitted`), whatever the
client answers: each command that a call can issue is looked at, not the ones of a run.

With a larger buffer two frames that fit it one by one are handed on together.
-/

namespace GstPravega.Plugin.PravegaSink

open GstPravega.Lib GstPravega.Client GstPravega.Gst GstPravega.Video GstPravega.Lib.Program

/-- A command that appends no data but bounded data. -/
def AppendsBounded (c : SinkCmd) : Prop := ∀ bytes, c = .append .data bytes → Bounded bytes

/-- The buffer holds no more than it has room for, and that is not too much. -/
structure Fitted (b : BufWriter) : Prop where
  capacity : b.capacity ≤ EventWithHeader.maxAtomicWriteSize
  buf : b.buf.length ≤ b.capacity

/-- The same of an instance. -/
def State.Fitted : State → Prop
  | .started st => PravegaSink.Fitted st.writer.inner
  | .stopped => True

/-! ## The writers -/

section Writers

variable {b : BufWriter} {bytes : List UInt8}

theorem every_flushBuf (h : Fitted b) : Every AppendsBounded
    (fun x => Fitted x.2 ∧ (x.1 = .ok () → x.2.buf = [])) b.flushBuf := by
  rw [BufWriter.flushBuf]
  split
  · next hnil => exact ⟨h, fun _ => hnil⟩
  · next hne =>
      refine ⟨fun bytes hbytes => ?_, fun r => ?_⟩
      · cases hbytes
        exact ⟨hne, Nat.le_trans h.buf h.capacity⟩
      · cases r with
        | ok u => exact ⟨⟨h.capacity, Nat.zero_le _⟩, fun _ => rfl⟩
        | error e => exact ⟨h, by simp⟩

/-- With room behind what is buffered. -/
theorem every_writeThrough (h : Fitted b) (hbytes : Bounded bytes)
    (hroom : b.capacity ≤ bytes.length ∨ b.buf.length + bytes.length ≤ b.capacity) :
    Every AppendsBounded (fun x => Fitted x.2) (b.writeThrough bytes) := by
  rw [BufWriter.writeThrough]
  split
  · refine ⟨fun _ hc => ?_, fun _ => h⟩
    cases hc
    exact hbytes
  · next hlt =>
      refine ⟨h.capacity, ?_⟩
      rw [List.length_append]
      exact hroom.resolve_left hlt

theorem every_bufWrite (h : Fitted b) (hbytes : Bounded bytes) :
    Every AppendsBounded (fun x => Fitted x.2) (b.write bytes) := by
  have hbuf := h.buf
  rw [BufWriter.write]
  split
  · next hlt =>
      rw [BufWriter.spareCapacity] at hlt
      refine ⟨h.capacity, ?_⟩
      rw [List.length_append]
      dsimp only
      omega
  split
  · refine every_bind ((every_flushBuf h).mono ?_)
    rintro ⟨_ | ⟨⟩, b'⟩ ⟨hfitted, hnil⟩
    · exact hfitted
    · have hnil := hnil rfl
      refine every_writeThrough hfitted hbytes ?_
      dsimp only at hnil ⊢
      rw [hnil, List.length_nil, Nat.zero_add]
      exact Nat.le_total _ _
  · next hge hle =>
      rw [BufWriter.spareCapacity] at hge hle
      exact every_writeThrough h hbytes (Or.inr (by omega))

theorem every_bufFlush (h : Fitted b) :
    Every AppendsBounded (fun x => Fitted x.2) b.flush := by
  refine every_bind ((every_flushBuf h).mono ?_)
  rintro ⟨_ | ⟨⟩, b'⟩ ⟨hfitted, _⟩
  · exact hfitted
  · exact ⟨by simp [AppendsBounded], fun _ => hfitted⟩

end Writers

/-! ## The calls -/

section Calls

variable {F : Type} {settings : Settings F} {checks : Bool} {daysToSeconds : F → Int}

/-- The writers keep an instance fitted. -/
theorem kept_fitted : Kept AppendsBounded fun st => Fitted st.writer.inner := by
  refine ⟨fun bytes hbytes st h => ?_, fun st h => ?_, by simp [AppendsBounded],
    by simp [AppendsBounded], fun st st' h hwriter _ => ?_⟩
  · refine every_bind (every_bind ((every_bufWrite h hbytes).mono ?_))
    rintro ⟨_ | ⟨⟩, b⟩ hb
    · exact hb
    · exact hb
  · exact every_bind (every_bind ((every_bufFlush h).mono fun _ hb => hb))
  · rw [hwriter]
    exact h

theorem keeps_joinRetention :
    Keeps AppendsBounded (fun st => Fitted st.writer.inner) joinRetention := by
  refine keeps_bind keeps_get fun st => ?_
  split
  · refine keeps_bind (keeps_command (by simp [AppendsBounded])) fun _ => ?_
    exact keeps_modify fun _ h => h
  · exact keeps_pure ()

/-- Every command has an answer. -/
theorem nonempty_res (c : SinkCmd) : Nonempty c.Res := by
  cases c
  case seekToTail => exact ⟨(0 : Nat)⟩
  case spawnRetention | joinRetention => exact ⟨()⟩
  all_goals exact ⟨Except.ok ()⟩

theorem every_start (hsize : settings.bufferSize ≤ EventWithHeader.maxAtomicWriteSize) :
    Every AppendsBounded (fun x => x.2.Fitted)
      (start daysToSeconds settings .stopped) := by
  have hopen : ∀ c, Opening c → AppendsBounded c := by
    rintro c hc bytes rfl
    exact hc.elim
  have hopenable : Openable (anything AppendsBounded) (fun _ => True) fun _ => True :=
    ⟨fun _ _ _ _ _ => trivial, fun c _ _ _ hc _ _ _ => ⟨trivial, trivial, hopen c hc⟩,
      fun _ _ _ _ _ => trivial⟩
  have hres : ∀ c : SinkCmd, Nonempty c.Res := nonempty_res
  refine every_of_safe (hopenable.start trivial ?_ ?_ ?_)
  · exact fun _ _ _ _ _ _ _ _ => ⟨trivial, trivial, by simp [anything, AppendsBounded]⟩
  · exact fun _ _ _ _ => trivial
  · exact fun _ _ _ _ _ _ => ⟨hsize, Nat.zero_le _⟩

theorem every_call {c : Call F} {s : State}
    (hsize : ∀ settings, c = .start settings →
      settings.bufferSize ≤ EventWithHeader.maxAtomicWriteSize) (h : s.Fitted) :
    Every AppendsBounded (fun x => x.2.Fitted) (c.program checks daysToSeconds s) := by
  cases c with
  | start settings =>
      cases s with
      | started st => exact h
      | stopped =>
          exact every_start (hsize settings rfl)
  | render settings baseTime buffer =>
      cases s with
      | started st =>
          exact every_onStarted kept_fitted.renderStarted h (fun _ hst => hst) fun _ hst => hst
      | stopped => exact trivial
  | stop settings =>
      cases s with
      | started st =>
          have hstop : Keeps AppendsBounded (fun st => Fitted st.writer.inner)
              (stopStarted settings) :=
            kept_fitted.stopStarted (by simp [AppendsBounded]) keeps_joinRetention
          exact every_onStarted hstop h (fun _ _ => trivial) fun _ hst => hst
      | stopped => exact trivial

end Calls

/-! ## Histories -/

section Histories

variable {F : Type} {checks : Bool} {daysToSeconds : F → Int} {w w' : World}

/-- Every append to the data is bounded. -/
def Small (w : World) : Prop := ∀ c ∈ w.data.entries, Bounded c

theorem Small.exec {c : SinkCmd} {r : c.Res} (h : Small w) (hc : AppendsBounded c)
    (hexec : World.Exec c w r w') : Small w' := by
  by_cases hdata : ∃ bytes, c = .append .data bytes
  · obtain ⟨bytes, rfl⟩ := hdata
    rcases hexec with ⟨-, -, rfl⟩ | ⟨-, rfl⟩
    · intro x hx
      rcases List.mem_append.mp hx with hx | hx
      · exact h x hx
      · rw [List.mem_singleton.mp hx]
        exact hc bytes rfl
    · exact h
  · rw [Small, (World.entries_of_exec (fun bytes hb => hdata ⟨bytes, hb⟩) hexec).1]
    exact h

/-- At any moment of a history. -/
def Config.Fits : Config F → Prop
  | ⟨w, .idle _ s⟩ => Small w ∧ s.Fitted
  | ⟨w, .busy _ p⟩ => Small w ∧ Every AppendsBounded (fun x => x.2.Fitted) p

/-- An instance is only started with such a buffer size. -/
def StartsWith (sizes : Nat → Prop) (c : Call F) (_ : State) (_ : World) : Prop :=
  ∀ settings, c = .start settings → sizes settings.bufferSize

theorem Config.Fits.small {x : Config F} (h : x.Fits) : Small x.world := by
  obtain ⟨w, ⟨mode, s⟩ | ⟨call, p⟩⟩ := x
  · exact h.1
  · exact h.1

theorem Config.Fits.step {sizes : Nat → Prop} {x y : Config F}
    (hsizes : ∀ n, sizes n → n ≤ EventWithHeader.maxAtomicWriteSize) (h : x.Fits)
    (hstep : Step checks daysToSeconds (StartsWith sizes) x y) : y.Fits := by
  cases hstep with
  | @persist w w' phase hw =>
      have hsmall : Small w' := by
        rw [Small, hw.data.1]
        exact h.small
      cases phase with
      | idle mode s => exact ⟨hsmall, h.2⟩
      | busy c p => exact ⟨hsmall, h.2⟩
  | @call w s c hallowed =>
      exact ⟨h.1, every_call (fun settings hc => hsizes _ (hallowed settings hc)) h.2⟩
  | @io w w' c k r call hexec => exact ⟨h.1.exec h.2.1 hexec, h.2.2 r⟩
  | @ret w x c => exact h
  | @crash w phase =>
      exact ⟨fun c hc => h.small c (w.data.stored_prefix.subset hc), trivial⟩

theorem Reaches.fits {sizes : Nat → Prop} {x : Config F}
    (hsizes : ∀ n, sizes n → n ≤ EventWithHeader.maxAtomicWriteSize)
    (h : Reaches checks daysToSeconds (StartsWith sizes) x) : x.Fits := by
  induction h with
  | initial => exact ⟨fun c hc => absurd hc List.not_mem_nil, trivial⟩
  | step _ hstep ih => exact ih.step hsizes hstep

end Histories

/-! ## With a larger buffer -/

section Larger

theorem write_of_fits {b : BufWriter} {bytes : List UInt8} (hlt : bytes.length < b.capacity)
    (hfits : b.buf.length + bytes.length ≤ b.capacity) :
    b.write bytes = .ret (.ok (), { b with buf := b.buf ++ bytes }) := by
  rw [BufWriter.write, BufWriter.spareCapacity]
  split
  · rfl
  · rw [if_neg (by omega), BufWriter.writeThrough, if_neg (by omega)]

/-- A payload of one event, into the buffer. -/
theorem writeFragments_single {timestamp : PravegaTimestamp} {i r d : Bool}
    {payload : List UInt8} {st : Started} (hne : 0 < payload.length)
    (hmax : payload.length ≤ EventWithHeader.maxPayloadSize)
    (hlt : payload.length + 20 < st.writer.inner.capacity)
    (hfits : st.writer.inner.buf.length + (payload.length + 20) ≤
      st.writer.inner.capacity) :
    (writeFragments timestamp i r d payload (payload.length + 1) 0).run.run st =
      let bytes := (EventWithHeader.new payload timestamp i r d).encode
      .ret (.ok (), { st with writer :=
        ⟨{ st.writer.inner with buf := st.writer.inner.buf ++ bytes },
          st.writer.offset + bytes.length⟩ }) := by
  have hlen := (EventWithHeader.new payload timestamp i r d).length_encode
  have hpiece : min (payload.length - 0) EventWithHeader.maxPayloadSize =
      payload.length := by omega
  have hwrite : EventWriter.write (EventWithHeader.new payload timestamp i r d) =
      .ok (EventWithHeader.new payload timestamp i r d).encode :=
    if_neg (Nat.not_lt.mpr hmax)
  have hbuf : st.writer.inner.write (EventWithHeader.new payload timestamp i r d).encode = _ :=
    write_of_fits (hlen ▸ hlt) (hlen ▸ hfits)
  have hdone : writeFragments timestamp i r d payload payload.length payload.length =
      pure () := by
    have hdone : ∀ fuel, 0 < fuel →
        writeFragments timestamp i r d payload fuel payload.length = pure () := by
      intro fuel hfuel
      cases fuel with
      | zero => exact absurd hfuel (Nat.lt_irrefl 0)
      | succ fuel => rw [writeFragments, if_pos (by omega)]
    exact hdone _ hne
  rw [writeFragments]
  dsimp only
  rw [hpiece, if_neg (Nat.ne_of_gt hne), if_pos rfl, List.drop_zero, List.take_length, hwrite]
  dsimp only
  rw [Nat.zero_add, hdone]
  show (CountingWriter.writeAll st.writer _ >>= _) >>= _ = _
  rw [CountingWriter.writeAll, hbuf]
  rfl

variable {F : Type} {checks : Bool} {daysToSeconds : F → Int} {n offset written : Nat}
  {buf payload : List UInt8} {w : World}

def roomySettings (F : Type) (bufferSize : Nat) : Settings F :=
  { Settings.default with
    scope := some "examples", stream := some "camera", bufferSize := bufferSize }

/-- A buffer without a timestamp, which is not indexed. -/
def plainBuffer (payload : List UInt8) : Buffer :=
  ⟨ClockTime.store none, none, BufferFlags.empty, payload, true, none, none⟩

/-- The instance that has got such buffers only. -/
def holding (bufferSize : Nat) (buf : List UInt8) (offset buffersWritten : Nat)
    (finalOffset : Option Nat) : Started where
  writer := ⟨⟨bufferSize, buf⟩, offset⟩
  firstValidTime := PravegaTimestamp.none
  lastIndexTime := PravegaTimestamp.none
  finalTimestamp := PravegaTimestamp.none
  finalOffset := finalOffset
  buffersWritten := buffersWritten
  retentionThreadHandle := false

theorem played_render (checks : Bool) (daysToSeconds : F → Int) (final : Option Nat)
    (w : World) (hne : 0 < payload.length)
    (hmax : payload.length ≤ EventWithHeader.maxPayloadSize)
    (hlt : payload.length + 20 < n) (hfits : buf.length + (payload.length + 20) ≤ n) :
    ∃ bytes, bytes.length = payload.length + 20 ∧
      played checks daysToSeconds (.render (roomySettings F n) none (plainBuffer payload))
          (w, .started (holding n buf offset written final)) =
        ((.ok (), .started (holding n (buf ++ bytes) (offset + bytes.length) (written + 1)
          (some (offset + bytes.length)))), w.begin) := by
  let d := isDiscontinuity BufferFlags.empty written false PravegaTimestamp.none
  have hwrites : (writeFragments PravegaTimestamp.none false true d payload
      (payload.length + 1) 0).run.run (holding n buf offset written final) = _ :=
    writeFragments_single hne hmax hlt hfits
  refine ⟨_, EventWithHeader.length_encode
    (EventWithHeader.new payload PravegaTimestamp.none false true d), ?_⟩
  show run World.answer (((writeFragments PravegaTimestamp.none false true d payload
      (payload.length + 1) 0).run.run (holding n buf offset written final) >>= _) >>= _)
    w.begin = _
  rw [hwrites]
  rfl

/-- What is buffered goes out as one append. -/
theorem played_stop (hne : buf ≠ []) (hlt : buf.length < 2 ^ 63) :
    played checks daysToSeconds (.stop (roomySettings F n))
        (⟨.empty, .empty, false⟩, .started (holding n buf offset written (some offset))) =
      ((.ok (), .stopped), ⟨(Log.empty.append buf).flush, Log.empty.flush, false⟩) := by
  have hflush : (BufWriter.mk n buf).flushBuf = _ := if_neg hne
  have hanswer : World.answer (.append .data buf) ⟨.empty, .empty, false⟩ =
      (.ok (), ⟨Log.empty.append buf, .empty, false⟩) :=
    if_pos (by simpa [World.get, Log.empty] using hlt)
  show run World.answer (((((((BufWriter.mk n buf).flushBuf >>= _) >>= _) >>= _) >>= _)
    >>= _) >>= _) _ = _
  rw [hflush]
  show run World.answer (.call (.append .data buf) _) ⟨.empty, .empty, false⟩ = _
  rw [run_call, hanswer]
  rfl

/-- Two buffers that both fit are appended together. -/
theorem reaches_joined (checks : Bool) (daysToSeconds : F → Int) {sizes : Nat → Prop}
    {p q : List UInt8} (hn : sizes n)
    (hp : 0 < p.length) (hq : 0 < q.length)
    (hpmax : p.length ≤ EventWithHeader.maxPayloadSize)
    (hqmax : q.length ≤ EventWithHeader.maxPayloadSize)
    (hroom : p.length + q.length + 40 ≤ n) :
    ∃ x : Config F, Reaches checks daysToSeconds (StartsWith sizes) x ∧
      ∃ c ∈ x.world.data.entries, c.length = p.length + q.length + 40 := by
  have hstart : StartsWith sizes (.start (roomySettings F n)) .stopped
      ⟨.empty, .empty, false⟩ := by
    intro settings hs
    injection hs with hs
    exact hs ▸ hn
  have hrender : ∀ payload s w, StartsWith sizes
      (.render (roomySettings F n) none (plainBuffer payload)) s w :=
    by simp [StartsWith]
  have hstop : ∀ s w, StartsWith sizes (.stop (roomySettings F n)) s w :=
    by simp [StartsWith]
  have h0 : Reaches checks daysToSeconds (StartsWith sizes)
      (⟨⟨.empty, .empty, false⟩, .idle .live (.started (holding n [] 0 0 none))⟩ :
        Config F) := Reaches.initial.called hstart rfl
  have hfirst : ([] : List UInt8).length + (p.length + 20) ≤ n := by
    rw [List.length_nil]
    omega
  obtain ⟨bytes, hbytes, hrun⟩ := played_render checks daysToSeconds none
    ⟨.empty, .empty, false⟩ hp hpmax (by omega) hfirst
  have h1 := h0.called (hrender p _ _) hrun
  have hsecond : ([] ++ bytes).length + (q.length + 20) ≤ n := by
    rw [List.nil_append]
    omega
  obtain ⟨more, hmore, hrun⟩ := played_render checks daysToSeconds
    (some (0 + bytes.length)) ⟨.empty, .empty, false⟩ hq hqmax (by omega) hsecond
  have h2 := h1.called (hrender q _ _) hrun
  have hlen : (([] ++ bytes) ++ more).length = p.length + q.length + 40 := by
    rw [List.nil_append, List.length_append]
    omega
  simp only [EventWithHeader.maxPayloadSize, EventWithHeader.maxAtomicWriteSize]
    at hpmax hqmax
  have h3 := h2.called (hstop _ _) (played_stop
    (List.ne_nil_of_length_pos (by omega)) (by omega))
  exact ⟨_, h3, ([] ++ bytes) ++ more, List.mem_singleton.mpr rfl, hlen⟩

end Larger

/-! ## The sizes that do -/

/-- Each append to the data is made of whole frames, at least one, and is taken whole. -/
def AppendsAtomic (w : World) : Prop :=
  ∀ c ∈ w.data.entries, c ≠ [] ∧ Framed Event.frame c ∧
    c.length ≤ EventWithHeader.maxAtomicWriteSize

/-- Any larger buffer can hand on more than is taken whole. -/
theorem reaches_oversized {F : Type} (checks : Bool) (daysToSeconds : F → Int)
    (sizes : Nat → Prop) {n : Nat} (hn : sizes n)
    (hlt : EventWithHeader.maxAtomicWriteSize < n) :
    ∃ x : Config F, Reaches checks daysToSeconds (StartsWith sizes) x ∧
      ¬ AppendsAtomic x.world := by
  obtain ⟨p, hlen⟩ : ∃ p : List UInt8, p.length = EventWithHeader.maxAtomicWriteSize - 40 :=
    ⟨List.replicate _ 0, List.length_replicate⟩
  have hq : ([0] : List UInt8).length = 1 := rfl
  have hmax : EventWithHeader.maxPayloadSize = EventWithHeader.maxAtomicWriteSize - 20 := rfl
  have hbig : 40 < EventWithHeader.maxAtomicWriteSize := by decide
  have hp : p.length + ([0] : List UInt8).length + 40 ≤ n := by omega
  obtain ⟨x, hx, c, hc, hc_len⟩ := reaches_joined checks daysToSeconds hn (by omega)
    (by omega) (by omega) (by omega) hp
  refine ⟨x, hx, fun hall => ?_⟩
  have hle := (hall c hc).2.2
  omega

/-- The appends of every history are atomic if and only if no instance is started with
a buffer larger than what is taken whole. -/
theorem appends_atomic_iff {F : Type} (checks : Bool) (daysToSeconds : F → Int)
    (sizes : Nat → Prop) :
    (∀ x : Config F, Reaches checks daysToSeconds (StartsWith sizes) x →
        AppendsAtomic x.world) ↔
      ∀ n, sizes n → n ≤ EventWithHeader.maxAtomicWriteSize := by
  constructor
  · intro hall n hn
    by_contra hlt
    obtain ⟨x, hx, hnot⟩ :=
      reaches_oversized checks daysToSeconds sizes hn (Nat.lt_of_not_le hlt)
    exact hnot (hall x hx)
  · intro hsizes x hx c hc
    obtain ⟨E, R, hgood⟩ := hx.plain.world
    obtain ⟨hne, hle⟩ := (hx.fits hsizes).small c hc
    exact ⟨hne, hgood.chunks c hc, hle⟩

/-- A buffer of 16 MiB. -/
theorem appends_oversized : ¬ ∀ n < 2 ^ 32, ∀ x : Config Unit,
    Reaches true (fun _ => 0) (StartsWith (· = n)) x → AppendsAtomic x.world := by
  intro hall
  obtain ⟨x, hx, hnot⟩ := reaches_oversized true (fun _ : Unit => 0)
    (· = 16 * 1024 * 1024) rfl (by decide)
  exact hnot (hall _ (by decide) x hx)

end GstPravega.Plugin.PravegaSink
