import GstPravega.Plugin.Sink

/-!
# The commands that a call can issue

Whatever the client answers: the commands of the whole tree of a call are looked at, not
those of a run. `start` opens the streams and changes nothing. `render` appends and
flushes, and of the state it keeps whatever does not depend on more than the writer and the
thread handle, if the writer keeps it (`Kept`).
-/

namespace GstPravega.Plugin.PravegaSink

open GstPravega.Lib GstPravega.Client GstPravega.Gst GstPravega.Video GstPravega.Lib.Program

variable {F : Type} {settings : Settings F} {checks : Bool} {daysToSeconds : F → Int}

/-! ## `start` -/

/-- A command that opens something. -/
def Opening : SinkCmd → Prop
  | .createClientConfig .. => True
  | .createScope _ => True
  | .createStream .. => True
  | .seekToTail _ => True
  | _ => False

section Start

variable {α β : Type}

/-- `P` of what `start` gets, or an error of the settings. -/
def Gets (P : α → Prop) : Except Failure α → Prop
  | .ok a => P a
  | .error e => ∃ message, e = .error .resourceSettings message

/-- Code that opens things only. -/
def Prepares (P : α → Prop) (m : StartM α) : Prop := Every Opening (Gets P) m.run

theorem prepares_pure {a : α} : Prepares (fun _ => True) (pure a) := trivial

theorem prepares_settingsError {message : String} {P : α → Prop} :
    Prepares P (StartM.settingsError message) := ⟨message, rfl⟩

theorem prepares_ensure {holds : Bool} {message : String} :
    Prepares (fun _ => True) (StartM.ensure holds message) := by
  rw [StartM.ensure]
  split
  · exact prepares_pure
  · exact prepares_settingsError

theorem prepares_require {value : Option String} {message : String} :
    Prepares (fun _ => True) (StartM.require value message) := by
  cases value with
  | none => exact prepares_settingsError
  | some a => exact prepares_pure

theorem prepares_createClientConfig {controller : String} {file : Option String} :
    Prepares (fun _ => True) (StartM.createClientConfig controller file) := by
  refine ⟨trivial, fun r => ?_⟩
  cases r with
  | ok u => exact prepares_pure
  | error e => exact prepares_settingsError

theorem prepares_createScope {wanted : Bool} {scope : String} :
    Prepares (fun _ => True) (StartM.createScope wanted scope) := by
  rw [StartM.createScope]
  split
  · exact ⟨trivial, fun _ => prepares_pure⟩
  · exact prepares_pure

theorem prepares_createStream {kind scope stream : String} :
    Prepares (fun _ => True) (StartM.createStream kind scope stream) := by
  refine ⟨trivial, fun r => ?_⟩
  cases r with
  | ok u => exact prepares_pure
  | error e => exact prepares_settingsError

/-- What `start` relies on: opening things keeps `J`, and the data is `Tail` bytes long. -/
structure Openable {σ : Type} (A : Arena σ SinkCmd SinkCmd.Res) (J : σ → Prop)
    (Tail : Nat → Prop) : Prop where
  rely : ∀ s s', J s → A.rely s s' → A.inv s' → J s'
  opening : ∀ c s r s', Opening c → J s → A.inv s → A.exec c s r s' →
    J s' ∧ A.inv s' ∧ A.guar c s r s'
  tail : ∀ s n s', J s → A.exec (.seekToTail .data) s n s' → Tail n

variable {σ : Type} {A : Arena σ SinkCmd SinkCmd.Res} {J : σ → Prop} {Tail : Nat → Prop}
  {s : σ}

theorem Openable.bind (h : Openable A J Tail) {m : StartM α} {f : α → StartM β}
    {P : α → Prop} {Q : Except Failure β → σ → Prop} (hm : Prepares P m) (hs : J s)
    (herr : ∀ message s', J s' → A.inv s' →
      Q (.error (.error .resourceSettings message)) s')
    (hf : ∀ a s', P a → J s' → Safe A (f a).run Q s') : Safe A (m >>= f).run Q s := by
  refine safe_bind ((hm.safe hs h.rely h.opening).mono ?_)
  rintro (e | a) s' ⟨hr, hs'⟩
  · obtain ⟨message, rfl⟩ := hr
    exact fun t ht hi => herr message t (h.rely s' t hs' ht hi) hi
  · exact hf a s' hr hs'

/-- The two seeks. -/
theorem Openable.seekToTail (h : Openable A J Tail) {t : Stream} {f : Nat → StartM β}
    {Q : Except Failure β → σ → Prop} (hs : J s)
    (hf : ∀ n s', (t = .data → Tail n) → J s' → Safe A (f n).run Q s') :
    Safe A (StartM.command (.seekToTail t) pure >>= f).run Q s := by
  intro s₁ hs₁ hi r s₂ hexec
  have hJ := h.rely s s₁ hs hs₁ hi
  obtain ⟨hJ₂, hi₂, hguar⟩ := h.opening (.seekToTail t) _ _ _ trivial hJ hi hexec
  refine ⟨hi₂, hguar, hf r s₂ ?_ hJ₂⟩
  rintro rfl
  exact h.tail s₁ r s₂ hJ hexec

/-- `start` opens things, and at the end it may run a retention thread, after which nothing
can fail. -/
theorem Openable.startStopped (h : Openable A J Tail)
    {Q : Except Failure Started → σ → Prop} (hs : J s)
    (herr : ∀ message s', J s' → A.inv s' →
      Q (.error (.error .resourceSettings message)) s')
    (halone : ∀ n s', Tail n → J s' → A.inv s' →
      Q (.ok (Started.new settings.bufferSize n false)) s')
    (hspawn : ∀ n limits interval s₁ r s₂, Tail n → J s₁ → A.inv s₁ →
      A.exec (.spawnRetention limits interval) s₁ r s₂ →
      A.inv s₂ ∧ A.guar (.spawnRetention limits interval) s₁ r s₂ ∧
        ∀ s₃, A.rely s₂ s₃ → A.inv s₃ →
          Q (.ok (Started.new settings.bufferSize n true)) s₃) :
    Safe A (startStopped daysToSeconds settings).run Q s := by
  refine h.bind prepares_ensure hs herr fun _ s₁ _ hs₁ => ?_
  refine h.bind prepares_require hs₁ herr fun scope s₂ _ hs₂ => ?_
  refine h.bind prepares_require hs₂ herr fun stream s₃ _ hs₃ => ?_
  refine h.bind prepares_require hs₃ herr fun controller s₄ _ hs₄ => ?_
  refine h.bind prepares_createClientConfig hs₄ herr fun _ s₅ _ hs₅ => ?_
  refine h.bind prepares_createScope hs₅ herr fun _ s₆ _ hs₆ => ?_
  refine h.bind prepares_createStream hs₆ herr fun _ s₇ _ hs₇ => ?_
  refine h.bind prepares_createStream hs₇ herr fun _ s₈ _ hs₈ => ?_
  refine h.seekToTail hs₈ fun n s₉ htail hs₉ => ?_
  refine h.seekToTail hs₉ fun _ s _ hs => ?_
  rw [StartM.runRetention]
  split
  · exact fun t ht hi => herr _ t (h.rely _ t hs ht hi) hi
  dsimp only
  split
  · intro t ht hi r u hexec
    exact hspawn n _ _ t r u (htail rfl) (h.rely _ t hs ht hi) hi hexec
  · exact fun t ht hi => halone n t (htail rfl) (h.rely _ t hs ht hi) hi

/-- Where a retention thread is nothing special. -/
theorem Openable.start (h : Openable A J Tail) {Q : Except Failure Unit × State → σ → Prop}
    (hs : J s)
    (hthread : ∀ limits interval s₁ r s₂, J s₁ → A.inv s₁ →
      A.exec (.spawnRetention limits interval) s₁ r s₂ →
      J s₂ ∧ A.inv s₂ ∧ A.guar (.spawnRetention limits interval) s₁ r s₂)
    (herr : ∀ message s', J s' → A.inv s' →
      Q (.error (.error .resourceSettings message), .stopped) s')
    (hok : ∀ n spawned s', Tail n → J s' → A.inv s' →
      Q (.ok (), .started (Started.new settings.bufferSize n spawned)) s') :
    Safe A (PravegaSink.start daysToSeconds settings .stopped) Q s := by
  refine safe_bind (h.startStopped hs ?_ ?_ ?_)
  · exact fun message s₁ hs₁ _ s₂ hs₂ hi => herr message s₂ (h.rely _ _ hs₁ hs₂ hi) hi
  · exact fun n s₁ hn hs₁ _ s₂ hs₂ hi => hok n false s₂ hn (h.rely _ _ hs₁ hs₂ hi) hi
  · intro n limits interval s₁ r s₂ hn hs₁ hi₁ hexec
    obtain ⟨hs₂, hi₂, hguar⟩ := hthread limits interval s₁ r s₂ hs₁ hi₁ hexec
    refine ⟨hi₂, hguar, fun s₃ hs₃ hi₃ s₄ hs₄ hi₄ => hok n true s₄ hn ?_ hi₄⟩
    exact h.rely _ _ (h.rely _ _ hs₂ hs₃ hi₃) hs₄ hi₄

end Start

/-! ## `render` and `stop` -/

/-- Data that is appended in one piece is something, and not too large. -/
def Bounded (c : List UInt8) : Prop :=
  c ≠ [] ∧ c.length ≤ EventWithHeader.maxAtomicWriteSize

section Keeps

variable {α β : Type} {G : SinkCmd → Prop} {I : Started → Prop}

/-- Code that issues such commands only and keeps the state such. -/
def Keeps (G : SinkCmd → Prop) (I : Started → Prop) (m : SinkM α) : Prop :=
  ∀ st : Started, I st → Every G (fun x => I x.2) (m.run.run st)

/-- The writer keeps it, and it does not depend on more than the writer and the handle. -/
structure Kept (G : SinkCmd → Prop) (I : Started → Prop) : Prop where
  writeAll : ∀ bytes, Bounded bytes →
    Keeps G I (SinkM.onWriter fun writer => writer.writeAll bytes)
  flush : Keeps G I (SinkM.onWriter CountingWriter.flush)
  append : ∀ bytes, G (.append .index bytes)
  flushIndex : G (.flush .index)
  state : ∀ st st' : Started, I st → st'.writer = st.writer →
    st'.retentionThreadHandle = st.retentionThreadHandle → I st'

theorem keeps_pure (a : α) : Keeps G I (pure a : SinkM α) := fun _ h => h

theorem keeps_throw (e : Failure) : Keeps G I (throw e : SinkM α) := fun _ h => h

theorem keeps_get : Keeps G I (get : SinkM Started) := fun _ h => h

theorem keeps_modify {f : Started → Started} (hf : ∀ st, I st → I (f st)) :
    Keeps G I (modify f : SinkM PUnit) := fun st h => hf st h

theorem keeps_bind {m : SinkM α} {f : α → SinkM β} (hm : Keeps G I m)
    (hf : ∀ a, Keeps G I (f a)) : Keeps G I (m >>= f) := by
  intro st h
  refine every_bind ((hm st h).mono ?_)
  rintro ⟨e | a, st'⟩ h'
  · exact h'
  · exact hf a st' h'

theorem keeps_command {c : SinkCmd} (hc : G c) : Keeps G I (SinkM.command c) :=
  fun _ h => ⟨hc, fun _ => h⟩

theorem keeps_orFail {domain : ErrorDomain} {text : String} (r : Except IoError Unit) :
    Keeps G I (SinkM.orFail domain text r) := by
  cases r with
  | ok u => exact keeps_pure ()
  | error e => exact keeps_throw _

theorem keeps_unwrap (r : Except IoError Unit) : Keeps G I (SinkM.unwrap r) := by
  cases r with
  | ok u => exact keeps_pure ()
  | error e => exact keeps_throw _

theorem keeps_checked (value : Option α) : Keeps G I (SinkM.checked value) := by
  cases value with
  | none => exact keeps_throw _
  | some a => exact keeps_pure a

/-- A frame that is written is bounded. -/
theorem bounded_of_write {event : EventWithHeader} {bytes : List UInt8}
    (h : EventWriter.write event = .ok bytes) : Bounded bytes := by
  rw [EventWriter.write] at h
  split at h
  · cases h
  · next hle =>
      injection h with h
      have hlen := event.length_encode
      rw [← h]
      refine ⟨fun hnil => ?_, ?_⟩
      · rw [hnil] at hlen
        simp at hlen
      · rw [EventWithHeader.maxPayloadSize] at hle
        rw [hlen]
        simp only [EventWithHeader.maxAtomicWriteSize] at hle ⊢
        omega

theorem Kept.update (h : Kept G I) {f : Started → Started}
    (hwriter : ∀ st, (f st).writer = st.writer)
    (hhandle : ∀ st, (f st).retentionThreadHandle = st.retentionThreadHandle) :
    Keeps G I (modify f : SinkM PUnit) :=
  keeps_modify fun st hst => h.state st _ hst (hwriter st) (hhandle st)

theorem Kept.flushData (h : Kept G I) {domain : ErrorDomain} :
    Keeps G I (PravegaSink.flushData domain) := keeps_bind h.flush keeps_orFail

theorem Kept.index (h : Kept G I) {domain : ErrorDomain} :
    Keeps G I (PravegaSink.flushIndex domain) :=
  keeps_bind (keeps_command h.flushIndex) keeps_orFail

theorem Kept.writeIndexRecord (h : Kept G I) {text : String} {record : IndexRecord} :
    Keeps G I (PravegaSink.writeIndexRecord text record) := by
  rw [PravegaSink.writeIndexRecord]
  split
  · exact keeps_throw _
  · exact keeps_bind (keeps_command (h.append _)) keeps_unwrap

theorem Kept.writeFragments (h : Kept G I) {timestamp : PravegaTimestamp} {i r d : Bool}
    {payload : List UInt8} (fuel : Nat) :
    ∀ pos, Keeps G I (PravegaSink.writeFragments timestamp i r d payload fuel pos) := by
  induction fuel with
  | zero => exact fun _ => keeps_throw _
  | succ fuel ih =>
      intro pos
      rw [PravegaSink.writeFragments]
      dsimp only
      split
      · exact keeps_pure ()
      split
      · exact keeps_throw _
      · next hwrite =>
          refine keeps_bind (h.writeAll _ (bounded_of_write hwrite)) fun r => ?_
          exact keeps_bind (keeps_unwrap r) fun _ => ih _

theorem Kept.flushStreams (h : Kept G I) {wanted : Bool} :
    Keeps G I (PravegaSink.flushStreams wanted) := by
  rw [PravegaSink.flushStreams]
  split
  · exact keeps_bind h.flushData fun _ => h.index
  · exact keeps_pure ()

theorem Kept.writeBufferRecord (h : Kept G I) {timestamp : PravegaTimestamp} {offset : Nat}
    {i r d : Bool} : Keeps G I (PravegaSink.writeBufferRecord timestamp offset i r d) := by
  rw [PravegaSink.writeBufferRecord]
  split
  · exact keeps_bind h.writeIndexRecord fun _ => h.update (fun _ => rfl) fun _ => rfl
  · exact keeps_pure ()

theorem Kept.renderIndexed (h : Kept G I) {buffer : Buffer} {timestamp : PravegaTimestamp}
    {offset : Nat} {included : Bool} :
    Keeps G I (PravegaSink.renderIndexed checks buffer timestamp offset included) := by
  refine keeps_bind h.flushStreams fun _ => keeps_bind keeps_get fun _ => ?_
  refine keeps_bind h.writeBufferRecord fun _ => ?_
  refine keeps_bind (h.writeFragments _ _) fun _ => ?_
  refine keeps_bind (h.update (fun _ => rfl) fun _ => rfl) fun _ => ?_
  refine keeps_bind keeps_get fun _ => ?_
  refine keeps_bind h.flushStreams fun _ => keeps_bind keeps_get fun _ => ?_
  refine keeps_bind (keeps_checked _) fun _ => ?_
  refine keeps_bind (h.update (fun _ => rfl) fun _ => rfl) fun _ => ?_
  exact h.update (fun _ => rfl) fun _ => rfl

theorem Kept.renderStarted (h : Kept G I) {baseTime : ClockTime} {buffer : Buffer} :
    Keeps G I (PravegaSink.renderStarted checks settings baseTime buffer) := by
  rw [PravegaSink.renderStarted]
  split
  · refine keeps_bind (keeps_checked _) fun _ => ?_
    refine keeps_bind (h.update (fun _ => rfl) fun _ => rfl) fun _ => ?_
    refine keeps_bind keeps_get fun _ => ?_
    exact keeps_bind (keeps_checked _) fun _ => h.renderIndexed
  · exact keeps_throw _

theorem Kept.writeFinalRecord (h : Kept G I) : Keeps G I PravegaSink.writeFinalRecord := by
  refine keeps_bind keeps_get fun st => ?_
  split
  · split
    · exact h.writeIndexRecord
    · exact keeps_pure ()
  · exact keeps_pure ()

theorem keeps_sealStreams (hseal : ∀ s, G (.seal s)) {wanted : Bool} :
    Keeps G I (sealStreams wanted) := by
  rw [sealStreams]
  split
  · refine keeps_bind (keeps_bind (keeps_command (hseal _)) keeps_orFail) fun _ => ?_
    exact keeps_bind (keeps_command (hseal _)) keeps_orFail
  · exact keeps_pure ()

theorem Kept.stopStarted (h : Kept G I) (hseal : ∀ s, G (.seal s))
    (hjoin : Keeps G I joinRetention) :
    Keeps G I (PravegaSink.stopStarted settings) := by
  refine keeps_bind h.flushData fun _ => keeps_bind h.writeFinalRecord fun _ => ?_
  refine keeps_bind h.index fun _ => ?_
  exact keeps_bind (keeps_sealStreams hseal) fun _ => hjoin

theorem every_onStarted {m : SinkM Unit} {after : Started → State} {st : Started}
    {P : State → Prop} (hm : Keeps G I m) (h : I st) (hafter : ∀ st, I st → P (after st))
    (hstarted : ∀ st, I st → P (.started st)) :
    Every G (fun x => P x.2) (onStarted m after st) := by
  refine every_bind ((hm st h).mono ?_)
  rintro ⟨_ | ⟨⟩, st'⟩ h'
  · exact hstarted st' h'
  · exact hafter st' h'

end Keeps

end GstPravega.Plugin.PravegaSink
