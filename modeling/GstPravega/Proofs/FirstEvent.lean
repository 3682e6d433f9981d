import GstPravega.Proofs.TimePartition

/-!
# The first event of an instance

`render` marks a buffer as a discontinuity when it is the first that the instance writes.
What it counts is buffers, and a buffer without a payload is written as no event at all:
behind one the first event may go unmarked.

Here the data is cut where an instance is started. What lies behind the cut begins with
a marked event at every moment, whatever fails and wherever the process dies, as long as
the first payload that the instance is given is announced: it comes with the first buffer,
or upstream has marked it, or it gets the first record. The invariant is about the appends
one by one, so that a crash, which keeps some of them, keeps it too.
-/

namespace GstPravega.Plugin.PravegaSink

open GstPravega.Lib GstPravega.Client GstPravega.Gst GstPravega.Video GstPravega.Lib.Program

open World

/-- These bytes begin with an event that is marked. -/
def Opens (bytes : List UInt8) : Prop :=
  ∃ e : Event, e.header.discontinuity = true ∧ e.frame <+: bytes

/-- The appends behind the cut begin with a marked event. All before it is durable. -/
structure Opened (before chunks : List (List UInt8)) (w : World) : Prop where
  entries : w.data.entries = before ++ chunks
  durable : before.length ≤ w.data.durable
  head : ∀ c, chunks.head? = some c → Opens c

/-- So does what is in the buffer, if nothing has been appended. `begun` says that
something has been written. -/
structure PoisedAt (before chunks : List (List UInt8)) (begun : Prop) (b : BufWriter)
    (w : World) : Prop where
  opened : Opened before chunks w
  buffered : chunks = [] → b.buf = [] ∨ Opens b.buf
  begun : begun → chunks ≠ [] ∨ b.buf ≠ []

/-- The same, whatever has been appended. -/
def Poised (before : List (List UInt8)) (begun : Prop) (b : BufWriter) (w : World) : Prop :=
  ∃ chunks, PoisedAt before chunks begun b w

/-- The world behind the cut. -/
def behind (before : List (List UInt8)) : Arena World SinkCmd SinkCmd.Res where
  exec := Exec
  rely := Persists
  inv w := ∃ chunks, Opened before chunks w
  guar _ _ _ _ := True
  rely_refl := Persists.refl
  rely_trans := Persists.trans

variable {before chunks : List (List UInt8)} {begun : Prop} {b : BufWriter} {w w' : World}
  {bytes more : List UInt8}

theorem Opens.append (h : Opens bytes) : Opens (bytes ++ more) := by
  obtain ⟨e, hmark, hprefix⟩ := h
  exact ⟨e, hmark, hprefix.trans (List.prefix_append bytes more)⟩

theorem Opens.ne_nil (h : Opens bytes) : bytes ≠ [] := by
  rintro rfl
  obtain ⟨e, -, hprefix⟩ := h
  exact e.frame_ne_nil (List.prefix_nil.mp hprefix)

theorem opens_frame {e : Event} (h : e.header.discontinuity = true) : Opens e.frame :=
  ⟨e, h, List.prefix_refl _⟩

theorem Opened.persists (h : Opened before chunks w) (hw : Persists w w') :
    Opened before chunks w' :=
  ⟨hw.data.1.trans h.entries, Nat.le_trans h.durable hw.data.2, h.head⟩

theorem Opened.append (h : Opened before chunks w) (hbytes : chunks = [] → Opens bytes) :
    Opened before (chunks ++ [bytes]) { w with data := w.data.append bytes } := by
  refine ⟨?_, h.durable, fun c hc => ?_⟩
  · rw [Log.append_entries, h.entries, List.append_assoc]
  · cases chunks with
    | nil =>
        injection hc with hc
        exact hc ▸ hbytes rfl
    | cons c' chunks => exact h.head c hc

/-- What survives a crash begins with the same append, if any is left. -/
theorem Opened.crash (h : Opened before chunks w) :
    ∃ chunks', Opened before chunks' w.crash := by
  refine ⟨chunks.take (w.data.durable - before.length), ?_, ?_, fun c hc => h.head c ?_⟩
  · show w.data.stored = _
    rw [Log.stored, h.entries, List.take_append, List.take_of_length_le h.durable]
  · show before.length ≤ w.data.stored.length
    rw [Log.stored, List.length_take, Nat.min_eq_left w.data.durable_le]
    exact h.durable
  · rw [List.head?_take] at hc
    split at hc
    · cases hc
    · exact hc

theorem Poised.persists (h : Poised before begun b w) (hw : Persists w w') :
    Poised before begun b w' := by
  obtain ⟨chunks, hat⟩ := h
  exact ⟨chunks, hat.opened.persists hw, hat.buffered, hat.begun⟩

theorem Poised.inv (h : Poised before begun b w) : (behind before).inv w := by
  obtain ⟨chunks, hat⟩ := h
  exact ⟨chunks, hat.opened⟩

theorem Poised.fail (h : Poised before begun b w) : Poised before begun b w.fail := by
  obtain ⟨chunks, hat⟩ := h
  exact ⟨chunks, ⟨hat.opened.entries, hat.opened.durable, hat.opened.head⟩, hat.buffered,
    hat.begun⟩

theorem Poised.weaken (h : Poised before begun b w) : Poised before False b w := by
  obtain ⟨chunks, hat⟩ := h
  exact ⟨chunks, hat.opened, hat.buffered, fun hf => hf.elim⟩

/-- The index, or the durable part of the data, may change. -/
theorem Poised.of_data (h : Poised before begun b w) (hentries : w'.data.entries = w.data.entries)
    (hdurable : w.data.durable ≤ w'.data.durable) : Poised before begun b w' := by
  obtain ⟨chunks, hat⟩ := h
  exact ⟨chunks, ⟨hentries.trans hat.opened.entries,
    Nat.le_trans hat.opened.durable hdurable, hat.opened.head⟩, hat.buffered, hat.begun⟩

/-! ## The writers -/

section Writers

variable {Q : Except IoError Unit × BufWriter → World → Prop} {e : Event}

/-- What was in the buffer is appended. -/
theorem Poised.flushed (h : Poised before begun b w) (hne : b.buf ≠ []) :
    Poised before True { b with buf := [] } { w with data := w.data.append b.buf } := by
  obtain ⟨chunks, hat⟩ := h
  refine ⟨chunks ++ [b.buf], hat.opened.append fun hnil => ?_, ?_, fun _ => Or.inl ?_⟩
  · exact (hat.buffered hnil).resolve_left hne
  · exact fun hnil => absurd hnil (by simp)
  · simp

/-- An event into the buffer. -/
theorem Poised.written (h : Poised before begun b w)
    (hmark : begun ∨ e.header.discontinuity = true) :
    Poised before True { b with buf := b.buf ++ e.frame } w := by
  obtain ⟨chunks, hat⟩ := h
  refine ⟨chunks, hat.opened, fun hchunks => Or.inr ?_, fun _ => Or.inr ?_⟩
  · rcases hat.buffered hchunks with hnil | hopens
    · have hopens : Opens e.frame := opens_frame (hmark.resolve_left fun hbegun =>
        (hat.begun hbegun).elim (fun hne => hne hchunks) fun hne => hne hnil)
      rw [hnil]
      exact hopens
    · exact hopens.append
  · exact fun hnil => e.frame_ne_nil (List.append_eq_nil_iff.mp hnil).2

theorem safe_flushBuf_behind (h : Poised before begun b w)
    (hok : ∀ b' w', b'.buf = [] → Poised before begun b' w' → Q (.ok (), b') w')
    (herr : ∀ x w', Poised before begun b w' → Q (.error x, b) w') :
    Safe (behind before) b.flushBuf Q w := by
  rw [BufWriter.flushBuf]
  split
  · next hnil => exact fun w' hw _ => hok b w' hnil (h.persists hw)
  · next hne =>
      intro w₁ hw₁ _ r w₂ hexec
      have h₁ := h.persists hw₁
      rcases hexec with ⟨rfl, -, rfl⟩ | ⟨⟨x, rfl⟩, rfl⟩
      · have h₂ := h₁.flushed hne
        refine ⟨h₂.inv, trivial, fun w₃ hw₃ _ => hok _ w₃ rfl ?_⟩
        obtain ⟨chunks, hat⟩ := h₂.persists hw₃
        exact ⟨chunks, hat.opened, hat.buffered, fun _ => hat.begun trivial⟩
      · exact ⟨h₁.fail.inv, trivial, fun w₃ hw₃ _ => herr x w₃ (h₁.fail.persists hw₃)⟩

theorem safe_bufFlush_behind (h : Poised before begun b w)
    (hall : ∀ r b' w', Poised before begun b' w' → Q (r, b') w') :
    Safe (behind before) b.flush Q w := by
  refine safe_bind (safe_flushBuf_behind h ?_ ?_)
  · intro b' w₁ _ h₁ w₂ hw₂ _ r w₃ hexec
    have h₂ := h₁.persists hw₂
    rcases hexec with ⟨rfl, rfl⟩ | ⟨⟨x, rfl⟩, rfl⟩
    · have h₃ : Poised before begun b' { w₂ with data := w₂.data.flush } :=
        h₂.of_data rfl w₂.data.durable_le
      exact ⟨h₃.inv, trivial, fun w₄ hw₄ _ => hall _ b' w₄ (h₃.persists hw₄)⟩
    · exact ⟨h₂.fail.inv, trivial, fun w₄ hw₄ _ => hall _ b' w₄ (h₂.fail.persists hw₄)⟩
  · exact fun x w₁ h₁ w₂ hw₂ _ => hall _ b w₂ (h₁.persists hw₂)

/-- An event past the buffer, which is empty, or into it. -/
theorem safe_writeThrough_behind (h : Poised before begun b w)
    (hroom : b.buf = [] ∨ e.frame.length < b.capacity)
    (hmark : begun ∨ e.header.discontinuity = true)
    (hok : ∀ b' w', Poised before True b' w' → Q (.ok (), b') w')
    (herr : ∀ x b' w', Poised before False b' w' → Q (.error x, b') w') :
    Safe (behind before) (b.writeThrough e.frame) Q w := by
  rw [BufWriter.writeThrough]
  split
  · next hge =>
      have hnil : b.buf = [] := hroom.resolve_right (by omega)
      intro w₁ hw₁ _ r w₂ hexec
      have h₁ := h.persists hw₁
      rcases hexec with ⟨rfl, -, rfl⟩ | ⟨⟨x, rfl⟩, rfl⟩
      · obtain ⟨chunks, hat⟩ := h₁
        have h₂ : Poised before True b { w₁ with data := w₁.data.append e.frame } := by
          refine ⟨chunks ++ [e.frame], hat.opened.append fun hchunks => ?_,
            fun hchunks => absurd hchunks (by simp), fun _ => Or.inl (by simp)⟩
          refine opens_frame (hmark.resolve_left fun hbegun => ?_)
          exact (hat.begun hbegun).elim (fun hne => hne hchunks) fun hne => hne hnil
        exact ⟨h₂.inv, trivial, fun w₃ hw₃ _ => hok b w₃ (h₂.persists hw₃)⟩
      · exact ⟨h₁.fail.inv, trivial,
          fun w₃ hw₃ _ => herr x b w₃ (h₁.fail.persists hw₃).weaken⟩
  · intro w₁ hw₁ _
    exact hok _ w₁ ((h.persists hw₁).written hmark)

theorem safe_bufWrite_behind (h : Poised before begun b w)
    (hmark : begun ∨ e.header.discontinuity = true)
    (hok : ∀ b' w', Poised before True b' w' → Q (.ok (), b') w')
    (herr : ∀ x b' w', Poised before False b' w' → Q (.error x, b') w') :
    Safe (behind before) (b.write e.frame) Q w := by
  rw [BufWriter.write]
  split
  · exact fun w₁ hw₁ _ => hok _ w₁ ((h.persists hw₁).written hmark)
  split
  · refine safe_bind (safe_flushBuf_behind h ?_ ?_)
    · exact fun b' w₁ hnil h₁ => safe_writeThrough_behind h₁ (Or.inl hnil) hmark hok herr
    · exact fun x w₁ h₁ w₂ hw₂ _ => herr x b w₂ (h₁.persists hw₂).weaken
  · next hge hle =>
      have hpos := List.length_pos_iff.mpr e.frame_ne_nil
      have hroom := BufWriter.nil_or_lt_capacity hpos hge hle
      exact safe_writeThrough_behind h hroom hmark hok herr

end Writers

/-! ## The calls -/

section Calls

variable {st : Started} {Q : Unit → Started → World → Prop}

/-- What an operation that fails leaves. -/
def Left (before : List (List UInt8)) (_ : Failure) (st : Started) (w : World) : Prop :=
  Poised before False st.writer.inner w

/-- Code for the cut streams. -/
abbrev Cut {α : Type} (before : List (List UInt8)) (m : SinkM α)
    (Q : α → Started → World → Prop) (st : Started) (w : World) : Prop :=
  SafeS (behind before) m Q (Left before) st w

theorem cut_bind {α β : Type} {m : SinkM α} {f : α → SinkM β}
    {Q : β → Started → World → Prop}
    (h : Cut before m (fun a st' w' => Cut before (f a) Q st' w') st w) :
    Cut before (m >>= f) Q st w :=
  safeS_bind (fun _ _ _ _ hleft hw _ => Poised.persists hleft hw) h

theorem cut_orFail {domain : ErrorDomain} {text : String} {r : Except IoError Unit}
    (h : Poised before begun st.writer.inner w)
    (hok : ∀ w', Poised before begun st.writer.inner w' → Q () st w') :
    Cut before (SinkM.orFail domain text r) Q st w := by
  cases r with
  | ok u => exact safeS_pure fun w' hw _ => hok w' (h.persists hw)
  | error x => exact safeS_throw fun w' hw _ => (h.persists hw).weaken

theorem cut_unwrap {r : Except IoError Unit} (h : Poised before begun st.writer.inner w)
    (hok : ∀ w', Poised before begun st.writer.inner w' → Q () st w') :
    Cut before (SinkM.unwrap r) Q st w := by
  cases r with
  | ok u => exact safeS_pure fun w' hw _ => hok w' (h.persists hw)
  | error x => exact safeS_throw fun w' hw _ => (h.persists hw).weaken

theorem cut_checked {α : Type} {value : Option α} {Q : α → Started → World → Prop}
    (h : Poised before begun st.writer.inner w)
    (hok : ∀ a w', value = some a → Poised before begun st.writer.inner w' → Q a st w') :
    Cut before (SinkM.checked value) Q st w := by
  cases value with
  | none => exact safeS_throw fun w' hw _ => (h.persists hw).weaken
  | some a => exact safeS_pure fun w' hw _ => hok a w' rfl (h.persists hw)

/-- A command that appends no data. -/
theorem cut_command {c : SinkCmd} {Q : c.Res → Started → World → Prop}
    (hc : ∀ bytes, c ≠ .append .data bytes) (h : Poised before begun st.writer.inner w)
    (hok : ∀ r w', Poised before begun st.writer.inner w' → Q r st w') :
    Cut before (SinkM.command c) Q st w := by
  intro w₁ hw₁ _ r w₂ hexec
  have h₂ : Poised before begun st.writer.inner w₂ := by
    have hdata := entries_of_exec hc hexec
    exact (h.persists hw₁).of_data hdata.1 hdata.2
  exact ⟨h₂.inv, trivial, fun w₃ hw₃ _ => hok r w₃ (h₂.persists hw₃)⟩

theorem cut_flushData {domain : ErrorDomain} (h : Poised before begun st.writer.inner w)
    (hok : ∀ writer w', Poised before begun writer.inner w' →
      Q () { st with writer := writer } w') :
    Cut before (flushData domain) Q st w := by
  refine cut_bind (safe_bind (safe_bind (safe_bufFlush_behind h ?_)))
  intro r b' w₁ h₁ w₂ hw₂ _ w₃ hw₃ _
  exact cut_orFail ((h₁.persists hw₂).persists hw₃) fun w₄ h₄ => hok _ w₄ h₄

theorem cut_flushIndex {domain : ErrorDomain} (h : Poised before begun st.writer.inner w)
    (hok : ∀ w', Poised before begun st.writer.inner w' → Q () st w') :
    Cut before (flushIndex domain) Q st w :=
  cut_bind (cut_command (by simp) h fun _ _ h₁ => cut_orFail h₁ hok)

theorem cut_flushStreams {wanted : Bool} (h : Poised before begun st.writer.inner w)
    (hok : ∀ writer w', Poised before begun writer.inner w' →
      Q () { st with writer := writer } w') :
    Cut before (flushStreams wanted) Q st w := by
  rw [flushStreams]
  split
  · exact cut_bind (cut_flushData h fun writer w₁ h₁ => cut_flushIndex h₁ (hok writer))
  · exact safeS_pure fun w' hw _ => hok st.writer w' (h.persists hw)

theorem cut_writeIndexRecord {text : String} {record : IndexRecord}
    (h : Poised before begun st.writer.inner w)
    (hok : ∀ w', Poised before begun st.writer.inner w' → Q () st w') :
    Cut before (writeIndexRecord text record) Q st w := by
  rw [writeIndexRecord]
  split
  · exact safeS_throw fun w' hw _ => (h.persists hw).weaken
  · exact cut_bind (cut_command (by simp) h fun _ _ h₁ => cut_unwrap h₁ hok)

theorem cut_writeBufferRecord {timestamp : PravegaTimestamp} {offset : Nat} {i r d : Bool}
    (h : Poised before begun st.writer.inner w)
    (hok : ∀ last w', Poised before begun st.writer.inner w' →
      Q () { st with lastIndexTime := last } w') :
    Cut before (writeBufferRecord timestamp offset i r d) Q st w := by
  rw [writeBufferRecord]
  split
  · refine cut_bind (cut_writeIndexRecord h fun w₁ h₁ => ?_)
    exact safeS_modify fun w₂ hw₂ _ => hok _ w₂ (h₁.persists hw₂)
  · exact safeS_pure fun w' hw _ => hok st.lastIndexTime w' (h.persists hw)

/-- What is written is a frame. -/
theorem exists_frame {event : EventWithHeader} (h : EventWriter.write event = .ok bytes) :
    ∃ e : Event, e.toEventWithHeader = event.normalize ∧ bytes = e.frame := by
  rw [EventWriter.write] at h
  split at h
  · cases h
  · next hle =>
      injection h with h
      have hfits := Nat.not_lt.mp hle
      exact ⟨event.stored hfits, rfl, by rw [EventWithHeader.frame_stored, h]⟩

/-- The loop that writes the payload: the first fragment has the mark. The induction is on
its fuel. -/
theorem cut_writeFragments {timestamp : PravegaTimestamp} {i r d : Bool}
    {payload : List UInt8} (fuel : Nat) :
    ∀ (pos : Nat) (begun : Prop) (st : Started) (w : World),
      Poised before begun st.writer.inner w →
      (begun ∨ pos = 0 ∧ d = true ∨ payload.length ≤ pos) →
      (∀ writer w', Poised before False writer.inner w' →
        Q () { st with writer := writer } w') →
      Cut before (writeFragments timestamp i r d payload fuel pos) Q st w := by
  induction fuel with
  | zero =>
      intro pos begun st w h _ _
      exact safeS_throw fun w' hw _ => (h.persists hw).weaken
  | succ fuel ih =>
      intro pos begun st w h hmark hok
      rw [writeFragments]
      dsimp only
      split
      · exact safeS_pure fun w' hw _ => hok st.writer w' (h.persists hw).weaken
      next hlen =>
      split
      · exact safeS_throw fun w' hw _ => (h.persists hw).weaken
      next bytes hwrite =>
      obtain ⟨e, he, rfl⟩ := exists_frame hwrite
      have hmark : begun ∨ e.header.discontinuity = true := by
        rcases hmark with hbegun | ⟨rfl, rfl⟩ | hle
        · exact Or.inl hbegun
        · rw [if_pos rfl] at he
          exact Or.inr (by rw [he]; rfl)
        · have hmax : 0 < EventWithHeader.maxPayloadSize := by decide
          omega
      refine cut_bind (safe_bind (safe_bind (safe_bufWrite_behind h hmark ?_ ?_)))
      · intro b' w₁ h₁ w₂ hw₂ _ w₃ hw₃ _
        refine cut_bind (cut_unwrap ((h₁.persists hw₂).persists hw₃) fun w₄ h₄ => ?_)
        exact ih _ True _ w₄ h₄ (Or.inl trivial) fun writer => hok writer
      · intro x b' w₁ h₁ w₂ hw₂ _ w₃ hw₃ _
        refine cut_bind (safeS_throw fun w₄ hw₄ _ => ?_)
        exact ((h₁.persists hw₂).persists hw₃).persists hw₄

variable {F : Type} {checks : Bool} {settings : Settings F} {baseTime : ClockTime}
  {buffer : Buffer} {daysToSeconds : F → Int}

theorem cut_renderIndexed {timestamp : PravegaTimestamp} {offset : Nat} {included : Bool}
    (h : Poised before begun st.writer.inner w)
    (hmark : begun ∨ buffer.payload = [] ∨
      isDiscontinuity buffer.flags st.buffersWritten included st.lastIndexTime = true) :
    Cut before (renderIndexed checks buffer timestamp offset included)
      (fun _ st' w' => Poised before False st'.writer.inner w') st w := by
  refine cut_bind (cut_flushStreams h fun writer w₁ h₁ => ?_)
  refine cut_bind (safeS_get fun w₂ hw₂ _ => ?_)
  refine cut_bind (cut_writeBufferRecord (h₁.persists hw₂) fun last w₃ h₃ => ?_)
  refine cut_bind (cut_writeFragments _ 0 begun _ w₃ h₃ ?_ fun writer' w₄ h₄ => ?_)
  · rcases hmark with hbegun | hnil | hmark
    · exact Or.inl hbegun
    · exact Or.inr (Or.inr (by rw [hnil, List.length_nil]))
    · exact Or.inr (Or.inl ⟨rfl, hmark⟩)
  refine cut_bind (safeS_modify fun w₅ hw₅ _ => ?_)
  refine cut_bind (safeS_get fun w₆ hw₆ _ => ?_)
  refine cut_bind (cut_flushStreams ((h₄.persists hw₅).persists hw₆) fun writer'' w₇ h₇ => ?_)
  refine cut_bind (safeS_get fun w₈ hw₈ _ => ?_)
  refine cut_bind (cut_checked (h₇.persists hw₈) fun final w₉ _ h₉ => ?_)
  refine cut_bind (safeS_modify fun w' hw' _ => ?_)
  exact safeS_modify fun w'' hw'' _ => (h₉.persists hw').persists hw''

theorem cut_renderStarted (h : Poised before begun st.writer.inner w)
    (hmark : ∀ timestamp included,
      Decided checks settings baseTime buffer st timestamp included →
      begun ∨ buffer.payload = [] ∨
        isDiscontinuity buffer.flags st.buffersWritten included st.lastIndexTime = true) :
    Cut before (renderStarted checks settings baseTime buffer)
      (fun _ st' w' => Poised before False st'.writer.inner w') st w := by
  rw [renderStarted]
  split
  · next hreadable =>
      refine cut_bind (cut_checked h fun timestamp w₁ htime h₁ => ?_)
      refine cut_bind (safeS_modify fun w₂ hw₂ _ => ?_)
      refine cut_bind (safeS_get fun w₃ hw₃ _ => ?_)
      have h₃ : Poised before begun (st.noteValidTime timestamp).writer.inner w₃ :=
        (h₁.persists hw₂).persists hw₃
      refine cut_bind (cut_checked h₃ fun included w₄ hdecision h₄ => ?_)
      exact cut_renderIndexed h₄ (hmark timestamp included ⟨hreadable, htime, hdecision⟩)
  · exact safeS_throw fun w' hw _ => (h.persists hw).weaken

theorem cut_writeFinalRecord (h : Poised before begun st.writer.inner w)
    (hok : ∀ w', Poised before begun st.writer.inner w' → Q () st w') :
    Cut before writeFinalRecord Q st w := by
  refine cut_bind (safeS_get fun w₁ hw₁ _ => ?_)
  have h₁ := h.persists hw₁
  split
  · split
    · exact cut_writeIndexRecord h₁ hok
    · exact safeS_pure fun w₂ hw₂ _ => hok w₂ (h₁.persists hw₂)
  · exact safeS_pure fun w₂ hw₂ _ => hok w₂ (h₁.persists hw₂)

theorem cut_sealStreams {wanted : Bool} (h : Poised before begun st.writer.inner w)
    (hok : ∀ w', Poised before begun st.writer.inner w' → Q () st w') :
    Cut before (sealStreams wanted) Q st w := by
  have hseal : ∀ {s text w} {Q : Unit → Started → World → Prop},
      Poised before begun st.writer.inner w →
      (∀ w', Poised before begun st.writer.inner w' → Q () st w') →
      Cut before (sealStream s text) Q st w :=
    fun h hok => cut_bind (cut_command (by simp) h fun _ _ h₁ => cut_orFail h₁ hok)
  rw [sealStreams]
  split
  · exact cut_bind (hseal h fun w₁ h₁ => hseal h₁ hok)
  · exact safeS_pure fun w₁ hw₁ _ => hok w₁ (h.persists hw₁)

theorem cut_joinRetention (h : Poised before begun st.writer.inner w) :
    Cut before joinRetention (fun _ st' w' => Poised before False st'.writer.inner w')
      st w := by
  refine cut_bind (safeS_get fun w₁ hw₁ _ => ?_)
  have h₁ := h.persists hw₁
  split
  · refine cut_bind (cut_command (by simp) h₁ fun _ w₂ h₂ => ?_)
    exact safeS_modify fun w₃ hw₃ _ => (h₂.persists hw₃).weaken
  · exact safeS_pure fun w₂ hw₂ _ => (h₁.persists hw₂).weaken

theorem cut_stopStarted (h : Poised before begun st.writer.inner w) :
    Cut before (stopStarted settings)
      (fun _ st' w' => Poised before False st'.writer.inner w') st w := by
  refine cut_bind (cut_flushData h fun writer w₁ h₁ => ?_)
  refine cut_bind (cut_writeFinalRecord h₁ fun w₂ h₂ => ?_)
  refine cut_bind (cut_flushIndex h₂ fun w₃ h₃ => ?_)
  exact cut_bind (cut_sealStreams h₃ fun w₄ h₄ => cut_joinRetention h₄)

/-- What is known of an instance between two calls. -/
def State.Poised (before : List (List UInt8)) (w : World) : State → Prop
  | .started st => PravegaSink.Poised before False st.writer.inner w
  | .stopped => ∃ chunks, Opened before chunks w

theorem State.Poised.inv {s : State} (h : s.Poised before w) : (behind before).inv w := by
  cases s with
  | started st => exact PravegaSink.Poised.inv h
  | stopped => exact h

theorem State.Poised.persists {s : State} (h : s.Poised before w) (hw : Persists w w') :
    s.Poised before w' := by
  cases s with
  | started st => exact PravegaSink.Poised.persists h hw
  | stopped =>
      obtain ⟨chunks, h⟩ := h
      exact ⟨chunks, h.persists hw⟩

theorem safe_onStarted_behind {m : SinkM Unit} {after : Started → State}
    (hm : Cut before m (fun _ st' w' => Poised before False st'.writer.inner w') st w)
    (hafter : ∀ st w, Poised before False st.writer.inner w →
      (after st).Poised before w) :
    Safe (behind before) (onStarted m after st) (fun x w' => x.2.Poised before w') w := by
  refine safe_bind (Safe.mono hm fun x w₁ hx => ?_)
  obtain ⟨e | u, st'⟩ := x
  · exact fun w₂ hw₂ _ => Poised.persists hx hw₂
  · exact fun w₂ hw₂ _ => hafter st' w₂ (Poised.persists hx hw₂)

/-- `start`, where nothing has been appended behind the cut. -/
theorem safe_start_behind (h : Opened before [] w) :
    Safe (behind before) (start daysToSeconds settings .stopped)
      (fun x w' => x.2.Poised before w') w := by
  have hkeeps : ∀ c w r w', (∀ bytes, c ≠ .append .data bytes) → Opened before [] w →
      Exec c w r w' → Opened before [] w' ∧ (behind before).inv w' ∧ True := by
    intro c w r w' hc h hexec
    obtain ⟨hentries, hdurable⟩ := entries_of_exec hc hexec
    have h' : Opened before [] w' :=
      ⟨hentries.trans h.entries, Nat.le_trans h.durable hdurable, h.head⟩
    exact ⟨h', ⟨[], h'⟩, trivial⟩
  have hopenable : Openable (behind before) (Opened before []) fun _ => True := by
    refine ⟨fun _ _ h hw _ => h.persists hw, fun c w r w' hc h _ hexec => ?_,
      fun _ _ _ _ _ => trivial⟩
    exact hkeeps c w r w' (fun bytes hb => by rw [hb] at hc; exact hc) h hexec
  refine hopenable.start h (fun limits interval w r w' h _ hexec => ?_) ?_ ?_
  · exact hkeeps _ w r w' (by simp) h hexec
  · exact fun _ w' h' _ => ⟨[], h'⟩
  · exact fun _ _ w' _ h' _ => ⟨[], h', fun _ => Or.inl rfl, fun hf => hf.elim⟩

end Calls

/-! ## Histories from a start on -/

section Histories

variable {F : Type} {checks : Bool} {daysToSeconds : F → Int}

/-- No other instance is started. -/
def SameInstance : Call F → State → Prop
  | .start _, .stopped => False
  | _, _ => True

/-- While the instance has written nothing, be it in the buffer, a buffer that has a payload
is its first, or upstream has marked it, or it gets the first record. `offset` is where the
instance began. -/
def Announces (checks : Bool) (offset : Nat) : Call F → State → Prop
  | .render settings baseTime buffer, .started st =>
      st.writer.offset = offset → buffer.payload ≠ [] → ∀ timestamp included,
        Decided checks settings baseTime buffer st timestamp included →
        buffer.flags.discont = true ∨ buffer.flags.resync = true ∨ st.buffersWritten = 0 ∨
          (included = true ∧ st.lastIndexTime.isNone = true)
  | _, _ => True

/-- At any moment behind the cut. -/
def Config.Poised (before : List (List UInt8)) : Config F → Prop
  | ⟨w, .idle _ s⟩ => s.Poised before w
  | ⟨w, .busy _ p⟩ => (behind before).inv w ∧
      Safe (behind before) p (fun x w' => x.2.Poised before w') w

theorem Config.Poised.opened {x : Config F} (h : x.Poised before) :
    ∃ chunks, Opened before chunks x.world := by
  obtain ⟨w, ⟨mode, s⟩ | ⟨call, p⟩⟩ := x
  · exact State.Poised.inv h
  · exact h.1

theorem Poised.begin (h : Poised before begun b w) : Poised before begun b w.begin :=
  h.of_data rfl (Nat.le_refl _)

/-- The instance has written something when its writer has moved on. -/
theorem Poised.of_offset {st : Started} {E : List Event} {R : List Record} {needs : Needs}
    (h : Poised before False st.writer.inner w) (hview : View needs st w E R) :
    Poised before (st.writer.offset ≠ before.flatten.length) st.writer.inner w := by
  obtain ⟨chunks, hat⟩ := h
  refine ⟨chunks, hat.opened, hat.buffered, fun hne => ?_⟩
  by_contra hnot
  obtain ⟨hchunks, hbuf⟩ := not_or.mp hnot
  rw [not_not] at hchunks hbuf
  have hentries := hat.opened.entries
  rw [hchunks, List.append_nil] at hentries
  rw [hview.offset, ← (hview.held.good hbuf).data, hentries] at hne
  exact hne rfl

/-- A call on the instance. -/
theorem safe_call_behind {s : State} {c : Call F} (hsame : SameInstance c s)
    (hannounced : Announces checks before.flatten.length c s)
    (hidle : Idle .plain (fun _ _ _ => True) w .live s) (h : s.Poised before w) :
    Safe (behind before) (c.program checks daysToSeconds s)
      (fun x w' => x.2.Poised before w') w.begin := by
  cases s with
  | stopped =>
      have h' : (State.stopped).Poised before w.begin := by
        obtain ⟨chunks, h⟩ := h
        exact ⟨chunks, h.entries, h.durable, h.head⟩
      cases c with
      | start settings => exact hsame.elim
      | render settings baseTime buffer => exact fun w' hw _ => h'.persists hw
      | stop settings => exact fun w' hw _ => h'.persists hw
  | started st =>
      have h' : Poised before False st.writer.inner w.begin := Poised.begin h
      cases c with
      | start settings => exact fun w' hw _ => h'.persists hw
      | render settings baseTime buffer =>
          obtain ⟨E, R, hview, -⟩ := hidle
          refine safe_onStarted_behind (cut_renderStarted (h'.of_offset hview.begin)
            fun timestamp included hdecided => ?_) fun st' w' hst => hst
          by_cases hoffset : st.writer.offset = before.flatten.length
          · refine Or.inr ?_
            by_cases hnil : buffer.payload = []
            · exact Or.inl hnil
            · refine Or.inr ?_
              have hmark := hannounced hoffset hnil timestamp included hdecided
              simpa [isDiscontinuity, or_assoc] using hmark
          · exact Or.inl hoffset
      | stop settings =>
          refine safe_onStarted_behind (cut_stopStarted h') fun st' w' hst => ?_
          exact PravegaSink.Poised.inv hst

/-- Every step keeps it. -/
theorem Config.Poised.step {x y : Config F} (hinv : x.Inv .plain fun _ _ _ => True)
    (h : x.Poised before)
    (hstep : Step checks daysToSeconds (fun c s _ => SameInstance c s ∧
      Announces checks before.flatten.length c s) x y) : y.Poised before := by
  cases hstep with
  | @persist w w' phase hw =>
      cases phase with
      | idle mode s => exact State.Poised.persists h hw
      | busy c p =>
          obtain ⟨chunks, hopened⟩ := h.1
          exact ⟨⟨chunks, hopened.persists hw⟩, h.2.rely hw⟩
  | @call w s c hcall =>
      have h : s.Poised before w := h
      refine ⟨?_, safe_call_behind hcall.1 hcall.2 hinv h⟩
      obtain ⟨chunks, hopened⟩ := h.inv
      exact ⟨chunks, hopened.entries, hopened.durable, hopened.head⟩
  | @io w w' c k r call hexec =>
      obtain ⟨hi, -, hk⟩ := h.2 w (Persists.refl w) h.1 r w' hexec
      exact ⟨hi, hk⟩
  | @ret w x c => exact h.2 w (Persists.refl w) h.1
  | @crash w phase =>
      obtain ⟨chunks, hopened⟩ := h.opened
      exact hopened.crash

/-- What `Opens` says, when the data is read as events. -/
theorem Opened.events {E : List Event} {R : List Record} {needs : Needs}
    (hgood : Good needs w E R) (h : Opened before chunks w)
    (hbefore : Framed Event.frame before.flatten) :
    ∃ es : List Event, w.data.entries.flatten = before.flatten ++ es.flatMap Event.frame ∧
      ∀ e, es.head? = some e → e.header.discontinuity = true := by
  have hdata := hgood.data
  rw [h.entries, List.flatten_append] at hdata
  have hframed : Framed Event.frame chunks.flatten :=
    hbefore.cancel Event.frame_delimiting ⟨E, hdata⟩
  obtain ⟨es, hes⟩ := hframed
  refine ⟨es, by rw [h.entries, List.flatten_append, hes], fun e he => ?_⟩
  cases chunks with
  | nil =>
      cases es with
      | nil => cases he
      | cons e' es =>
          rw [List.flatten_nil, List.flatMap_cons] at hes
          exact absurd (List.append_eq_nil_iff.mp hes.symm).1 e'.frame_ne_nil
  | cons c chunks =>
      obtain ⟨marked, hmark, rest, hrest⟩ := h.head c rfl
      cases es with
      | nil => cases he
      | cons e' es =>
          injection he with he
          subst he
          rw [List.flatten_cons, ← hrest, List.append_assoc, List.flatMap_cons] at hes
          have hframe := Event.frame_delimiting.delimited hes
          rw [← Event.frame_injective hframe]
          exact hmark

/-- From the call of `start` on, in every state that the history comes to before another
instance is started: what the instance has appended begins with a marked event, as long as
its first payload is announced. -/
theorem first_event_marked {w₀ : World} {settings : Settings F} {y : Config F}
    (h : Reaches checks daysToSeconds (fun _ _ _ => True) ⟨w₀, .idle .live .stopped⟩)
    (hrun : Leads checks daysToSeconds (fun c s _ => SameInstance c s ∧
        Announces checks w₀.data.entries.flatten.length c s)
      ⟨w₀.begin, .busy (.start settings) (start daysToSeconds settings .stopped)⟩ y) :
    ∃ es : List Event,
      y.world.data.entries.flatten =
        w₀.data.entries.flatten ++ es.flatMap Event.frame ∧
      ∀ e, es.head? = some e → e.header.discontinuity = true := by
  obtain ⟨E₀, R₀, hwhole⟩ : ∃ E R, Whole .plain w₀ E R := h.plain
  have hopened : Opened w₀.data.entries [] w₀.begin :=
    ⟨(List.append_nil _).symm, Nat.le_of_eq hwhole.data.symm, fun _ hc => nomatch hc⟩
  have hy : (y.Inv .plain fun _ _ _ => True) ∧ y.Poised w₀.data.entries := by
    induction hrun with
    | refl =>
        refine ⟨(h.step (.call trivial)).plain, ⟨[], hopened⟩, ?_⟩
        exact safe_start_behind hopened
    | tail _ hstep ih =>
        exact ⟨ih.1.step id (fun hf : False => hf.elim) hstep, ih.2.step ih.1 hstep⟩
  obtain ⟨E, R, hgood⟩ := hy.1.world
  obtain ⟨chunks, hopened⟩ := hy.2.opened
  exact hopened.events hgood (Framed.flatten hwhole.good.chunks)

/-- A key frame, and a delta unit behind it. -/
def announced : List (Call Unit) := [cameraRender 1000000000 BufferFlags.empty [7],
  cameraRender 2000000000 ⟨true, false, false, false⟩ [8], .stop cameraSettings]

/-- The instance that runs them. -/
def cameraRun (cs : List (Call Unit)) : (World × State) × Bool :=
  plays true (fun _ => 0) cs (cameraStart.2, .started cameraStarted)

theorem leads_cameraRun {allowed : Call Unit → State → World → Prop}
    {cs : List (Call Unit)} (hok : (cameraRun cs).2 = true)
    (hcs : AllowedAlong true (fun _ => 0) allowed cs
      (cameraStart.2, .started cameraStarted)) :
    Leads true (fun _ : Unit => 0) allowed
      ⟨⟨.empty, .empty, false⟩, .busy (.start cameraSettings)
        (start (fun _ => 0) cameraSettings .stopped)⟩
      ⟨(cameraRun cs).1.1, .idle .live (cameraRun cs).1.2⟩ := by
  have hstart : cameraStart.1 = (.ok (), .started cameraStarted) := by decide +kernel
  have hstarted : Leads true (fun _ : Unit => 0) allowed
      ⟨⟨.empty, .empty, false⟩, .busy (.start cameraSettings)
        (start (fun _ => 0) cameraSettings .stopped)⟩
      ⟨cameraStart.2, .idle .live (.started cameraStarted)⟩ := by
    refine Leads.finished (s := .stopped) (w := ⟨.empty, .empty, false⟩) .refl ?_
    exact Prod.ext hstart rfl
  exact Leads.plays cs _ hcs hstarted hok

theorem first_event_marked_announced :
    ∃ es : List Event,
      (cameraRun announced).1.1.data.entries.flatten = [] ++ es.flatMap Event.frame ∧
      ∀ e, es.head? = some e → e.header.discontinuity = true := by
  have hok : (cameraRun announced).2 = true := by decide +kernel
  have hdelta : (played true (fun _ => 0) (cameraRender 1000000000 BufferFlags.empty [7])
      (cameraStart.2, .started cameraStarted)).1.2 = .started secondStarted := by
    decide +kernel
  refine first_event_marked .initial (leads_cameraRun hok ⟨⟨trivial, ?_⟩, ⟨trivial, ?_⟩,
    ⟨trivial, trivial⟩, trivial⟩)
  · exact fun _ _ _ _ _ => Or.inr (Or.inr (Or.inl rfl))
  · dsimp only
    rw [hdelta]
    exact fun hoffset => absurd hoffset (by decide)

/-- A key frame without a payload, and a delta unit behind it. -/
def unmarked : List (Call Unit) := [cameraRender 1000000000 BufferFlags.empty [],
  cameraRender 2000000000 ⟨true, false, false, false⟩ [8], .stop cameraSettings]

def unmarkedEvent : Event :=
  EventWithHeader.stored ⟨⟨⟨some 2000000000⟩, false, false, false⟩, [8]⟩ (by decide)

theorem first_event_unmarked :
    ¬ ∀ (w₀ : World) (settings : Settings Unit) (y : Config Unit),
      Reaches true (fun _ : Unit => 0) (fun _ _ _ => True) ⟨w₀, .idle .live .stopped⟩ →
      Leads true (fun _ => 0) (fun c s _ => SameInstance c s)
        ⟨w₀.begin, .busy (.start settings) (start (fun _ => 0) settings .stopped)⟩ y →
      ∃ es : List Event,
        y.world.data.entries.flatten =
          w₀.data.entries.flatten ++ es.flatMap Event.frame ∧
        ∀ e, es.head? = some e → e.header.discontinuity = true := by
  intro hall
  have hok : (cameraRun unmarked).2 = true := by decide +kernel
  have hdata : (cameraRun unmarked).1.1.data.entries.flatten =
      [unmarkedEvent].flatMap Event.frame := by decide +kernel
  obtain ⟨es, hes, hmark⟩ := hall _ cameraSettings _ .initial
    (leads_cameraRun hok ⟨trivial, trivial, trivial, trivial⟩)
  rw [hdata] at hes
  have heq : [unmarkedEvent] = es :=
    flatMap_injective Event.frame_delimiting Event.frame_injective hes
  exact absurd (hmark unmarkedEvent (by rw [← heq]; rfl)) (by decide)

end Histories

end GstPravega.Plugin.PravegaSink
