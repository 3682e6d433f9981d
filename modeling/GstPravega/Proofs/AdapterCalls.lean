import GstPravega.Proofs.WriterPool

/-!
# What the application sees of the protocol adapter

The calls were looked at one by one; here is what follows for all of them together, at any
moment of a connection: which events are durable and in which order, who is called back,
and that no call waits for ever for another.
-/

namespace GstPravega.Deepstream

open GstPravega.Lib GstPravega.Gst GstPravega.Lib.Program GstPravega.Lib.Threads

/-! ## A call by itself -/

/-- Every command succeeds. -/
def World.answer (i : Nat) : (c : AdapterCmd) → World → c.Res × World
  | .lock l, w => ((), { w with owner := Function.update w.owner l (some i) })
  | .unlock l, w => ((), { w with owner := Function.update w.owner l none })
  | .getWriter s, w => (w.writers.lookup s, w)
  | .createStream s, w => (.ok true, { w with streams := s :: w.streams })
  | .createEventWriter s, w => (w.made.length, { w with made := w.made ++ [s] })
  | .insertWriter s n, w => ((), { w with writers := (s, n) :: w.writers })
  | .writeEventByRoutingKey n routingKey event, w =>
      match w.made[n]? with
      | some s => (.ok (.ok ()), { w with durable := w.durable ++ [⟨i, s, routingKey, event⟩] })
      | none => (.error "", w)
  | .callback userPtr completionFlag, w =>
      ((), { w with
        callbacks := w.callbacks ++ [⟨i, userPtr, completionFlag⟩]
        inCallback := i :: w.inCallback })
  | .callbackReturns, w =>
      ((), { w with inCallback := w.inCallback.filter fun j => decide (j ≠ i) })

/-- The lock is free, or one's own. -/
def AdapterCmd.Ready (i : Nat) : AdapterCmd → World → Bool
  | .lock l, w => w.owner l == none
  | .unlock l, w => w.owner l == some i
  | _, _ => true

theorem exec_answer {i : Nat} {c : AdapterCmd} {w : World} (h : c.Ready i w = true) :
    World.Exec i c w (World.answer i c w).1 (World.answer i c w).2 := by
  cases c with
  | lock l => exact ⟨eq_of_beq h, rfl⟩
  | unlock l => exact ⟨eq_of_beq h, rfl⟩
  | getWriter s => exact ⟨rfl, rfl⟩
  | createStream s => exact Or.inl ⟨⟨true, rfl⟩, rfl⟩
  | createEventWriter s => exact ⟨rfl, rfl⟩
  | insertWriter s n => exact rfl
  | writeEventByRoutingKey n routingKey event =>
      rw [World.answer]
      split
      · next s hs => exact Or.inl ⟨rfl, s, hs, rfl⟩
      · exact Or.inr ⟨rfl, Or.inl rfl⟩
  | callback userPtr completionFlag => exact rfl
  | callbackReturns => exact rfl

/-- It is made, or it goes on by one command. -/
inductive Turn where
  | make (made : Call)
  | run (i : Nat)

/-- Calls that take turns: where they lead, and whether each could go on when it was its
turn. -/
def Session.take (handle : Handle) : List Turn → Session → Session × Bool
  | [], x => (x, true)
  | .make made :: turns, x => Session.take handle turns
      ({ x.1 with calls := x.1.calls ++ [made] }, x.2 ++ [made.thread handle])
  | .run i :: turns, x =>
      match x.2[i]? with
      | some (.call c k) =>
          let r := World.answer i c x.1
          let rest := Session.take handle turns (r.2, x.2.set i (k r.1))
          (rest.1, c.Ready i x.1 && rest.2)
      | _ => (x, false)

theorem connected_take {handle : Handle} (turns : List Turn) : ∀ {x : Session},
    x.1.calls.length = x.2.length → (Session.take handle turns x).2 = true →
    Connected handle x (Session.take handle turns x).1 := by
  induction turns with
  | nil => exact fun _ _ => .refl
  | cons turn turns ih =>
      intro x hlen h
      cases turn with
      | make made =>
          rw [Session.take] at h ⊢
          have hmade : Connected handle x
              ({ x.1 with calls := x.1.calls ++ [made] }, x.2 ++ [made.thread handle]) :=
            .single (.spawn ⟨made, hlen, rfl, rfl⟩)
          exact hmade.trans (ih (calls_length hlen hmade) h)
      | run i =>
          rw [Session.take] at h ⊢
          split at h
          · next c k hget =>
              obtain ⟨hready, hrest⟩ := Bool.and_eq_true_iff.mp h
              have hrun : Connected handle x
                  ((World.answer i c x.1).2, x.2.set i (k (World.answer i c x.1).1)) :=
                .single (.runs (.exec hget (exec_answer hready)))
              exact hrun.trans (ih (calls_length hlen hrun) hrest)
          · cases h

/-- A connection with a key, and how the client reads the topic of the tests. -/
def examplesHandle : Handle where
  routingKeyMethod := .fixed "abc123"
  scopedStreamFrom _ := ⟨"examples", "topic4"⟩

/-- A message that is waited for makes the writer, while one that is not waits for the pool
and takes the writer from it. -/
def examplesTurns : List Turn :=
  [.make (.send (some "examples/topic4") [123, 125]), .run 0,
    .make (.sendAsync (some "examples/topic4") [91, 93] 7), .run 0, .run 0, .run 0, .run 0,
    .run 0, .run 1, .run 0, .run 1, .run 0, .run 1, .run 0]

def examplesSent : Session := (Session.take examplesHandle examplesTurns (World.empty, [])).1

/-- A third one has its writer before the second is called back. -/
def examplesMoreTurns : List Turn :=
  [.make (.send (some "examples/topic4") [32]), .run 2, .run 1, .run 2, .run 1, .run 2, .run 1,
    .run 1, .run 1, .run 2, .run 2, .run 2]

def examplesCalled : Session := (Session.take examplesHandle examplesMoreTurns examplesSent).1

theorem connected_examplesSent :
    Connected examplesHandle (World.empty, []) examplesSent :=
  connected_take examplesTurns rfl (by decide +kernel)

theorem connected_examplesCalled : Connected examplesHandle examplesSent examplesCalled :=
  connected_take examplesMoreTurns (by decide +kernel) (by decide +kernel)

/-! ## What holds of all of them -/

theorem safe_makes {handle : Handle} (n : Nat)
    (p : AdapterProgram (Except Failure (Option NvDsMsgApiErrorType))) (w w' : World)
    (hi : Inv handle w) (hmakes : Makes handle n p w w') :
    Inv handle w' ∧ (∀ j, j ≠ n → Rely j w w') ∧
      Safe ((discipline handle).arena n) p (Leaves n) w' := by
  obtain ⟨hi', hrely⟩ := keeps_makes hi hmakes
  refine ⟨hi', fun j _ => hrely j, ?_⟩
  obtain ⟨call, hlen, rfl, rfl⟩ := hmakes
  have hnew : ∀ {j : Nat} {call : Call}, w.calls[j]? = some call → j ≠ n := fun hj => by
    have := (List.getElem?_eq_some_iff.mp hj).1
    omega
  refine safe_thread ⟨⟨⟨?_, fun l => ⟨fun hl => ?_, fun hl => nomatch hl⟩⟩, fun hin => ?_⟩,
    fun e he => ?_, fun b hb => ?_⟩
  · rw [← hlen, List.getElem?_concat_length]
  · have := hi.owners l n hl
    omega
  · obtain ⟨call', _, _, hcall, _⟩ := hi.inCallback n hin
    exact hnew hcall rfl
  · obtain ⟨call', hcall, _⟩ := hi.written e he
    exact hnew hcall
  · obtain ⟨call', hcall, _⟩ := hi.callbacks b hb
    exact hnew hcall

theorem good_connected {handle : Handle} {y : Session}
    (h : Connected handle (World.empty, []) y) : Good (discipline handle) Leaves y :=
  Good.reaches safe_makes (fun _ _ => keeps_moves) (good_nil (inv_empty handle)) h

/-- **One writer for a stream.** However the calls are interleaved, no stream is ever given
a second event writer, and none is given one before it was created. -/
theorem one_writer_per_stream {handle : Handle} {y : Session}
    (h : Connected handle (World.empty, []) y) :
    y.1.made.Nodup ∧ (∀ s ∈ y.1.made, s ∈ y.1.streams) ∧
      ∀ s n, y.1.writers.lookup s = some n → y.1.made[n]? = some s := by
  have hinv := (good_connected h).1
  exact ⟨hinv.nodup, hinv.created, hinv.writers⟩

theorem one_writer_per_stream_examples : examplesCalled.1.made.Nodup :=
  (one_writer_per_stream (connected_examplesSent.trans connected_examplesCalled)).1

/-- The application was told that the event of the call is durable. -/
def Confirmed (y : Session) (i : Nat) : Prop :=
  y.2[i]? = some (.ret (.ok (some .ok))) ∨
    ∃ b ∈ y.1.callbacks, b.call = i ∧ b.completionFlag = .ok

theorem durable_of_confirmed {handle : Handle} {y : Session}
    (h : Good (discipline handle) Leaves y) {i : Nat} (hi : Confirmed y i) :
    ∃ e ∈ y.1.durable, e.call = i := by
  rcases hi with hret | ⟨b, hb, rfl, hok⟩
  · exact (h.ret hret).2 rfl
  · obtain ⟨call, -, -, hdurable⟩ := h.1.callbacks b hb
    exact hdurable hok

/-- **What is durable.** Each durable event is that of a call, in the stream of its topic,
with the routing key of the connection and the payload as it was given, and no call has two.
A call that was confirmed has one, and one that panicked has none. -/
theorem confirmed_is_durable {handle : Handle} {y : Session}
    (h : Connected handle (World.empty, []) y) :
    (y.1.durable.map Written.call).Nodup ∧
      (∀ e ∈ y.1.durable, ∃ call, y.1.calls[e.call]? = some call ∧ call.Writes handle e) ∧
      (∀ i, Confirmed y i → ∃ e ∈ y.1.durable, e.call = i) ∧
      ∀ i e, y.2[i]? = some (.ret (.error e)) → ∀ x ∈ y.1.durable, x.call ≠ i := by
  have hgood := good_connected h
  have honce := hgood.1.once
  rw [World.written, List.map_append] at honce
  refine ⟨honce.of_append_left, fun e he => ?_, fun i => durable_of_confirmed hgood,
    fun i e hret x hx => ?_⟩
  · exact hgood.1.written e (List.mem_append_left _ he)
  · exact (hgood.ret hret).1 x (List.mem_append_left _ hx)

theorem confirmed_is_durable_examples : ∃ e ∈ examplesCalled.1.durable, e.call = 1 := by
  have hcalled : Confirmed examplesCalled 1 :=
    Or.inr ⟨⟨1, 7, .ok⟩, by decide +kernel, rfl, rfl⟩
  exact (confirmed_is_durable
    (connected_examplesSent.trans connected_examplesCalled)).2.2.1 1 hcalled

/-- The routing key of the configuration, if there is one. -/
def configuredKey (load : String → Except String Ini) (configPath : Option String) : String :=
  match configPath.map load with
  | some (.ok config) => (config.get "message-broker" "fixed-routing-key").getD ""
  | _ => ""

theorem routingKey_of_connect {load : String → Except String Ini}
    {createClientConfig : String → Option String → Except String Unit}
    {scopedStreamFrom : String → ScopedStream} {connectionStr configPath : Option String}
    {handle : Handle} (h : nvdsMsgapiConnect load createClientConfig scopedStreamFrom
      connectionStr configPath = some handle) :
    handle.routingKey = configuredKey load configPath ∧
      handle.scopedStreamFrom = scopedStreamFrom := by
  rw [nvdsMsgapiConnect] at h
  cases configPath with
  | none =>
      rw [readConfig] at h
      dsimp only at h
      split at h
      · cases h
      · cases h
        exact ⟨rfl, rfl⟩
  | some path =>
      rw [readConfig] at h
      cases hload : load path with
      | error e =>
          rw [hload] at h
          cases h
      | ok config =>
          rw [hload] at h
          dsimp only at h
          split at h
          · cases h
          · cases h
            refine ⟨?_, rfl⟩
            rw [configuredKey, Option.map_some, hload]
            dsimp only
            cases config.get "message-broker" "fixed-routing-key" <;> rfl

/-- **From the configuration to the events.** Whatever is sent over a connection that
`nvds_msgapi_connect` has made: each durable event has the routing key of the configuration,
and is in the stream that the client reads in the topic of a call. -/
theorem durable_of_connect {load : String → Except String Ini}
    {createClientConfig : String → Option String → Except String Unit}
    {scopedStreamFrom : String → ScopedStream} {connectionStr configPath : Option String}
    {handle : Handle} {y : Session} (hconnect : nvdsMsgapiConnect load createClientConfig
      scopedStreamFrom connectionStr configPath = some handle)
    (h : Connected handle (World.empty, []) y) :
    ∀ e ∈ y.1.durable, e.routingKey = configuredKey load configPath ∧
      ∃ call, y.1.calls[e.call]? = some call ∧ e.event = call.payload ∧
        call.topic.map scopedStreamFrom = some e.scopedStream := by
  obtain ⟨hkey, rfl⟩ := routingKey_of_connect hconnect
  intro e he
  obtain ⟨call, hcall, hwrites⟩ :=
    (good_connected h).1.written e (List.mem_append_left _ he)
  exact ⟨hwrites.routingKey.trans hkey, call, hcall, hwrites.event, hwrites.scopedStream⟩

/-- **In the order they were sent.** A call that was confirmed before another one was made
has its event in front of the other's. -/
theorem confirmed_in_order {handle : Handle} {y z : Session}
    (hy : Connected handle (World.empty, []) y) (hz : Connected handle y z) {i j : Nat}
    (hi : Confirmed y i) (hj : y.2.length ≤ j) {e e' : Written} (he : e ∈ z.1.durable)
    (he' : e' ∈ z.1.durable) (hcall : e.call = i) (hcall' : e'.call = j) :
    ∃ pre mid post, z.1.durable = pre ++ e :: mid ++ e' :: post := by
  have hgood := good_connected hy
  have hgood' := good_connected (hy.trans hz)
  have hrely := hgood.reaches_rely safe_makes (fun _ _ => keeps_moves) hz
    (Nat.le_refl z.2.length)
  obtain ⟨later, hlater⟩ := hrely.durable
  have hnodup : (z.1.durable.map Written.call).Nodup := by
    have honce := hgood'.1.once
    rw [World.written, List.map_append] at honce
    exact honce.of_append_left
  -- The event of `i` was there when `j` was not even a call.
  obtain ⟨x, hx, hxi⟩ := durable_of_confirmed hgood hi
  have hxe : x = e := by
    refine List.inj_on_of_nodup_map hnodup ?_ he (hxi.trans hcall.symm)
    rw [← hlater]
    exact List.mem_append_left _ hx
  subst hxe
  have hlate : e' ∈ later := by
    rw [← hlater] at he'
    refine (List.mem_append.mp he').resolve_left fun hearly => ?_
    obtain ⟨call, hget, -⟩ := hgood.1.written e' (List.mem_append_left _ hearly)
    have hlt := (List.getElem?_eq_some_iff.mp hget).1
    rw [calls_length rfl hy] at hlt
    omega
  obtain ⟨pre, mid, hpre⟩ := List.append_of_mem hx
  obtain ⟨mid', post, hpost⟩ := List.append_of_mem hlate
  refine ⟨pre, mid ++ mid', post, ?_⟩
  rw [← hlater, hpre, hpost]
  simp

theorem confirmed_in_order_examples : ∃ pre mid post, examplesCalled.1.durable =
    pre ++ ⟨0, ⟨"examples", "topic4"⟩, "abc123", [123, 125]⟩ :: mid ++
      ⟨2, ⟨"examples", "topic4"⟩, "abc123", [32]⟩ :: post :=
  confirmed_in_order connected_examplesSent connected_examplesCalled (Or.inl rfl)
    (Nat.le_refl 2) (by decide +kernel) (by decide +kernel) rfl rfl

/-- **One callback.** No call is told twice, and each is told with the pointer it gave. A
task that is over has told the application unless it panicked. The application's function
never runs twice at once for one stream. -/
theorem called_back_once {handle : Handle} {y : Session}
    (h : Connected handle (World.empty, []) y) :
    (y.1.callbacks.map Callback.call).Nodup ∧
      (∀ b ∈ y.1.callbacks, ∃ call, y.1.calls[b.call]? = some call ∧
        call.userPtr = some b.userPtr) ∧
      (∀ i r call, y.2[i]? = some (.ret r) → y.1.calls[i]? = some call →
        call.userPtr.isSome → ((∃ b ∈ y.1.callbacks, b.call = i) ↔ ∃ a, r = .ok a)) ∧
      ∀ i ∈ y.1.inCallback, ∀ j ∈ y.1.inCallback, ∀ call call',
        y.1.calls[i]? = some call → y.1.calls[j]? = some call' →
        call.topic.map handle.resolveTopic = call'.topic.map handle.resolveTopic → i = j := by
  have hgood := good_connected h
  have hinv := hgood.1
  refine ⟨hinv.calledOnce, fun b hb => ?_, fun i r call hret hcall huser => ?_,
    fun i hi j hj call call' hcall hcall' hsame => ?_⟩
  · obtain ⟨call, hcall, huser, -⟩ := hinv.callbacks b hb
    exact ⟨call, hcall, huser⟩
  · have hleaves := hgood.ret hret
    rcases r with e | _ | flag
    · refine ⟨fun ⟨b, hb, hbi⟩ => absurd hbi (hleaves.2 b hb), fun ⟨a, ha⟩ => nomatch ha⟩
    · exact ⟨fun _ => ⟨none, rfl⟩, fun _ => hleaves⟩
    · obtain ⟨⟨call', hget, hnone⟩, -⟩ := hleaves
      obtain rfl : call = call' := Option.some.inj (hcall.symm.trans hget)
      rw [hnone] at huser
      cases huser
  · obtain ⟨_, n, s, hget, hs, hmade, howner⟩ := hinv.inCallback i hi
    obtain ⟨_, m, s', hget', hs', hmade', howner'⟩ := hinv.inCallback j hj
    obtain rfl := Option.some.inj (hcall.symm.trans hget)
    obtain rfl := Option.some.inj (hcall'.symm.trans hget')
    obtain rfl := Option.some.inj (hs.symm.trans (hsame.trans hs'))
    -- One stream has one writer, and the writer one lock.
    obtain ⟨hlt, hn⟩ := List.getElem?_eq_some_iff.mp hmade
    obtain ⟨hlt', hm⟩ := List.getElem?_eq_some_iff.mp hmade'
    obtain rfl := (hinv.nodup.getElem_inj_iff).mp (hn.trans hm.symm)
    exact Option.some.inj (howner.symm.trans howner')

theorem called_back_once_examples : ∃ b ∈ examplesCalled.1.callbacks, b.call = 1 :=
  ((called_back_once (connected_examplesSent.trans connected_examplesCalled)).2.2.1 1
    (.ok none) _ rfl rfl rfl).mpr ⟨none, rfl⟩

/-! ## No call waits for ever -/

/-- What a command does to the locks. -/
def AdapterCmd.lockOp : AdapterCmd → LockOp Lock
  | .lock l => .take l
  | .unlock l => .give l
  | _ => .other

theorem locking : Locking World.Exec AdapterCmd.lockOp World.owner where
  take := by
    intro i c l w r w' hc hexec
    cases c with
    | lock l' =>
        cases hc
        obtain ⟨hfree, rfl⟩ := hexec
        exact ⟨hfree, rfl⟩
    | _ => cases hc
  give := by
    intro i c l w r w' hc hexec
    cases c with
    | unlock l' =>
        cases hc
        obtain ⟨-, rfl⟩ := hexec
        rfl
    | _ => cases hc
  other := by
    intro i c w r w' hc hexec
    cases c with
    | lock l => cases hc
    | unlock l => cases hc
    | getWriter s => rw [hexec.2]
    | createStream s =>
        rcases hexec with ⟨_, rfl⟩ | ⟨_, rfl | rfl⟩
        · rfl
        · rfl
        · rfl
    | createEventWriter s => rw [hexec.2]
    | insertWriter s n => rw [show w' = _ from hexec]
    | writeEventByRoutingKey n key event =>
        rcases hexec with ⟨_, s, _, rfl⟩ | ⟨_, rfl | ⟨s, _, rfl⟩⟩
        · rfl
        · rfl
        · rfl
    | callback userPtr flag => rw [show w' = _ from hexec]
    | callbackReturns => rw [show w' = _ from hexec]
  can_take := by
    intro i c l w hc hfree
    cases c with
    | lock l' =>
        cases hc
        exact ⟨(), _, hfree, rfl⟩
    | _ => cases hc
  can_give := by
    intro i c l w hc hmine
    cases c with
    | unlock l' =>
        cases hc
        exact ⟨(), _, hmine, rfl⟩
    | _ => cases hc
  can_other := by
    intro i c w hc
    cases c with
    | lock l => cases hc
    | unlock l => cases hc
    | getWriter s => exact ⟨_, _, rfl, rfl⟩
    | createStream s => exact ⟨.ok true, _, Or.inl ⟨⟨true, rfl⟩, rfl⟩⟩
    | createEventWriter s => exact ⟨_, _, rfl, rfl⟩
    | insertWriter s n => exact ⟨(), _, rfl⟩
    | writeEventByRoutingKey n key event => exact ⟨.error "", _, Or.inr ⟨rfl, Or.inl rfl⟩⟩
    | callback userPtr flag => exact ⟨(), _, rfl⟩
    | callbackReturns => exact ⟨(), _, rfl⟩

/-- The pool is given back before a writer is locked, also behind a panic. -/
theorem oneLock_getOrCreate (s : ScopedStream) :
    GivesBack AdapterCmd.lockOp none (getOrCreate s).run := by
  refine ⟨rfl, fun _ (found : Option Nat) => ?_⟩
  cases found with
  | some n => exact ⟨rfl, fun _ => rfl⟩
  | none =>
      intro (created : Except String Bool)
      cases created with
      | error e => exact ⟨rfl, fun _ => rfl⟩
      | ok b => exact fun _ _ => ⟨rfl, fun _ => rfl⟩

theorem nvdsMsgapiSend_some (handle : Handle) (topic : String) (payload : List UInt8) :
    nvdsMsgapiSend handle (some topic) payload = (do
      let writer ← getOrCreate (handle.resolveTopic topic)
      Task.command (.lock (.writer writer))
      let result ← Task.command (.writeEventByRoutingKey writer handle.routingKey payload)
      Task.command (.unlock (.writer writer))
      pure (flagOf result)) := rfl

theorem oneLock_thread (handle : Handle) (call : Call) :
    GivesBack AdapterCmd.lockOp none (call.thread handle) := by
  have hpool := oneLock_getOrCreate
  cases call with
  | send topic payload =>
      cases topic with
      | none => exact rfl
      | some topic =>
          rw [Call.thread, nvdsMsgapiSend_some]
          refine oneLock_bind (oneLock_bind ((hpool _).mono fun r held hheld => ?_))
          subst hheld
          cases r with
          | error e => exact rfl
          | ok n => exact ⟨rfl, fun _ _ => ⟨rfl, fun _ => rfl⟩⟩
  | sendAsync topic payload userPtr =>
      cases topic with
      | none => exact rfl
      | some topic =>
          refine oneLock_bind (oneLock_bind ((hpool _).mono fun r held hheld => ?_))
          subst hheld
          cases r with
          | error e => exact rfl
          | ok n => exact ⟨rfl, fun _ _ _ _ => ⟨rfl, fun _ => rfl⟩⟩

theorem held_connected {handle : Handle} {y : Session}
    (h : Connected handle (World.empty, []) y) : Held AdapterCmd.lockOp World.owner y := by
  refine Held.reaches locking ?_ ?_ (held_nil fun _ => rfl) h
  · rintro n p w w' ⟨call, -, rfl, rfl⟩
    exact ⟨oneLock_thread handle call, rfl⟩
  · rintro w w' hmoves
    cases hmoves with
    | arrives _ => rfl
    | lost _ => rfl

/-- The pool takes six commands, and a task five more. -/
theorem within_thread (handle : Handle) (call : Call) : Within 11 (call.thread handle) := by
  have hpool : ∀ s, Within 6 (getOrCreate s).run := by
    refine fun s _ (found : Option Nat) => ?_
    cases found with
    | some n => exact fun _ => trivial
    | none =>
        intro (created : Except String Bool)
        cases created with
        | error e => exact fun _ => trivial
        | ok b => exact fun _ _ _ => trivial
  cases call with
  | send topic payload =>
      cases topic with
      | none => exact trivial
      | some topic =>
          rw [Call.thread, nvdsMsgapiSend_some]
          refine within_bind (n := 11) (m := 0) (within_bind (n := 6) (m := 5) (hpool _) ?_)
            fun r => ?_
          · rintro (e | n)
            · exact trivial
            · exact fun _ _ _ => trivial
          · cases r <;> trivial
  | sendAsync topic payload userPtr =>
      cases topic with
      | none => exact trivial
      | some topic =>
          refine within_bind (n := 11) (m := 0) (within_bind (n := 6) (m := 5) (hpool _) ?_)
            fun r => ?_
          · rintro (e | n)
            · exact trivial
            · exact fun _ _ _ _ _ => trivial
          · cases r <;> trivial

/-- A thread has as many commands left as it takes, at most eleven. -/
theorem budget_connected {handle : Handle} {y : Session}
    (h : Connected handle (World.empty, []) y) :
    ∃ ns : List Nat, List.Forall₂ Within ns y.2 ∧ ns.sum ≤ 11 * y.2.length := by
  induction h with
  | refl => exact ⟨[], .nil, Nat.le_refl _⟩
  | tail _ hstep ih =>
      obtain ⟨ns, hns, hsum⟩ := ih
      cases hstep with
      | runs hruns =>
          obtain ⟨ns', hns', hsum'⟩ := hruns.budget hns
          refine ⟨ns', hns', ?_⟩
          cases hruns with
          | exec _ _ =>
              rw [List.length_set]
              exact Nat.le_trans (Nat.le_of_succ_le (Nat.le_of_eq hsum')) hsum
      | spawn hmakes =>
          obtain ⟨call, -, rfl, -⟩ := hmakes
          refine ⟨ns ++ [11], List.rel_append hns (.cons (within_thread handle call) .nil), ?_⟩
          rw [List.sum_append, List.length_append, Nat.mul_add]
          exact Nat.add_le_add hsum (Nat.le_refl 11)
      | env _ => exact ⟨ns, hns, hsum⟩

/-- **No call waits for ever.** Wherever a connection is, a call that is not over means that
one of them can go on. Left to themselves the calls are over after at most eleven commands
each, and they can all be brought to an end. -/
theorem calls_end {handle : Handle} {y : Session}
    (h : Connected handle (World.empty, []) y) :
    (¬Finished y.2 → ∃ z, Runs World.Exec y z) ∧
      (∀ m z, RunsIn World.Exec m y z → m ≤ 11 * y.2.length) ∧
      ∃ m z, RunsIn World.Exec m y z ∧ Finished z.2 := by
  have hheld := held_connected h
  obtain ⟨ns, hns, hsum⟩ := budget_connected h
  refine ⟨hheld.not_stuck locking, fun m z hruns => Nat.le_trans (hruns.le_sum hns) hsum, ?_⟩
  exact finishes (fun x hx => hx.not_stuck locking) (fun x y hx => hx.runs locking) hheld hns

theorem calls_end_examples :
    ∃ m z, RunsIn World.Exec m examplesSent z ∧ Finished z.2 :=
  (calls_end connected_examplesSent).2.2

end GstPravega.Deepstream
