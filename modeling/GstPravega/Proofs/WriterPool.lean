import GstPravega.Deepstream.ProtocolAdapter
import GstPravega.Lib.Threads
import Mathlib.Data.List.Nodup

/-!
# Calls of the protocol adapter side by side

Each call of `nvds_msgapi_send`, and each task of `nvds_msgapi_send_async`, is a thread.
Their commands come in any order that the locks allow, and an event whose write was
answered with an error may still become durable later.

`Inv` holds of the world at all times, `Rely` is what a call counts on meanwhile. The two
that matter are that nobody else adds an event or a callback under the call's number, and
that the pool stands still for the one who holds its lock: between the look into the pool
and the insert no other writer can be made, so there is never a second one for a stream.
-/

namespace GstPravega.Deepstream

open GstPravega.Lib GstPravega.Gst GstPravega.Lib.Program GstPravega.Lib.Threads

/-! ## What the calls run in -/

/-- A call of the application. -/
inductive Call where
  | send (topic : Option String) (payload : List UInt8)
  | sendAsync (topic : Option String) (payload : List UInt8) (userPtr : Nat)
  deriving DecidableEq, Repr

namespace Call

def topic : Call → Option String
  | .send topic _ => topic
  | .sendAsync topic .. => topic

def payload : Call → List UInt8
  | .send _ payload => payload
  | .sendAsync _ payload _ => payload

/-- Where a callback is asked for. -/
def userPtr : Call → Option Nat
  | .send .. => none
  | .sendAsync _ _ userPtr => some userPtr

/-- The thread of a call, and what it returns to the application, if it does. -/
def thread (handle : Handle) : Call → AdapterProgram (Except Failure (Option NvDsMsgApiErrorType))
  | .send topic payload => (some <$> nvdsMsgapiSend handle topic payload).run
  | .sendAsync topic payload userPtr =>
      match nvdsMsgapiSendAsync handle topic payload userPtr with
      | .error e => .ret (.error e)
      | .ok (_, task) => ((fun _ => none) <$> task).run

end Call

/-- An event of a call. -/
structure Written where
  call : Nat
  scopedStream : ScopedStream
  routingKey : String
  event : List UInt8
  deriving DecidableEq, Repr

/-- A callback made for a call. -/
structure Callback where
  call : Nat
  userPtr : Nat
  completionFlag : NvDsMsgApiErrorType
  deriving DecidableEq, Repr

/-- The calls in the order they were made, the locks, the pool with the stream of each
writer made, and what has become of the events and the callbacks. -/
structure World where
  calls : List Call
  owner : Lock → Option Nat
  writers : List (ScopedStream × Nat)
  streams : List ScopedStream
  made : List ScopedStream
  durable : List Written
  underWay : List Written
  callbacks : List Callback
  inCallback : List Nat

namespace World

def empty : World := ⟨[], fun _ => none, [], [], [], [], [], [], []⟩

/-- Every event of a call, durable or not. -/
def written (w : World) : List Written := w.durable ++ w.underWay

/-- What a command of call `i` does. An answer that the write failed says nothing about
the event. -/
def Exec (i : Nat) : (c : AdapterCmd) → World → c.Res → World → Prop
  | .lock l, w, _, w' =>
      w.owner l = none ∧ w' = { w with owner := Function.update w.owner l (some i) }
  | .unlock l, w, _, w' =>
      w.owner l = some i ∧ w' = { w with owner := Function.update w.owner l none }
  | .getWriter s, w, r, w' => r = w.writers.lookup s ∧ w' = w
  | .createStream s, w, r, w' =>
      ((∃ b, r = .ok b) ∧ w' = { w with streams := s :: w.streams }) ∨
        ((∃ e, r = .error e) ∧ (w' = w ∨ w' = { w with streams := s :: w.streams }))
  | .createEventWriter s, w, r, w' => r = w.made.length ∧ w' = { w with made := w.made ++ [s] }
  | .insertWriter s n, w, _, w' => w' = { w with writers := (s, n) :: w.writers }
  | .writeEventByRoutingKey n routingKey event, w, r, w' =>
      (r = .ok (.ok ()) ∧ ∃ s, w.made[n]? = some s ∧
          w' = { w with durable := w.durable ++ [⟨i, s, routingKey, event⟩] }) ∨
        (flagOf r = .err ∧ (w' = w ∨ ∃ s, w.made[n]? = some s ∧
          w' = { w with underWay := w.underWay ++ [⟨i, s, routingKey, event⟩] }))
  | .callback userPtr completionFlag, w, _, w' =>
      w' = { w with
        callbacks := w.callbacks ++ [⟨i, userPtr, completionFlag⟩]
        inCallback := i :: w.inCallback }
  | .callbackReturns, w, _, w' =>
      w' = { w with inCallback := w.inCallback.filter fun j => decide (j ≠ i) }

/-- An event that is under way becomes durable, or is lost. -/
inductive Moves : World → World → Prop where
  | arrives {w pre e post} : w.underWay = pre ++ e :: post →
      Moves w { w with durable := w.durable ++ [e], underWay := pre ++ post }
  | lost {w pre e post} : w.underWay = pre ++ e :: post →
      Moves w { w with underWay := pre ++ post }

end World

/-- The application makes its next call. -/
def Makes (handle : Handle) (n : Nat)
    (p : AdapterProgram (Except Failure (Option NvDsMsgApiErrorType))) (w w' : World) : Prop :=
  ∃ call, w.calls.length = n ∧ p = call.thread handle ∧
    w' = { w with calls := w.calls ++ [call] }

abbrev Session := Config World AdapterCmd AdapterCmd.Res
  (Except Failure (Option NvDsMsgApiErrorType))

/-- What a connection can come to. -/
abbrev Connected (handle : Handle) : Session → Session → Prop :=
  Reaches World.Exec (Makes handle) World.Moves

/-- The calls on record are the threads, so that none is ever refused. -/
theorem calls_length {handle : Handle} {x y : Session} (hx : x.1.calls.length = x.2.length)
    (h : Connected handle x y) : y.1.calls.length = y.2.length := by
  induction h with
  | refl => exact hx
  | tail _ hstep ih =>
      cases hstep with
      | runs hruns =>
          cases hruns with
          | @exec w w' ps i c k r _ hexec =>
              rw [List.length_set]
              suffices hcalls : w'.calls = w.calls by rw [hcalls]; exact ih
              cases c with
              | lock l => rw [hexec.2]
              | unlock l => rw [hexec.2]
              | getWriter s => rw [hexec.2]
              | createStream s =>
                  rcases hexec with ⟨_, rfl⟩ | ⟨_, rfl | rfl⟩
                  · rfl
                  · rfl
                  · rfl
              | createEventWriter s => rw [hexec.2]
              | insertWriter s n => rw [show w' = _ from hexec]
              | writeEventByRoutingKey n key event =>
                  rcases hexec with ⟨_, s, _, rfl⟩ | ⟨_, rfl | ⟨s, _, rfl⟩⟩
                  · rfl
                  · rfl
                  · rfl
              | callback userPtr flag => rw [show w' = _ from hexec]
              | callbackReturns => rw [show w' = _ from hexec]
      | spawn hmakes =>
          obtain ⟨call, hlen, -, rfl⟩ := hmakes
          rw [List.length_append, List.length_append, hlen]
          rfl
      | env hmoves =>
          cases hmoves with
          | arrives _ => exact ih
          | lost _ => exact ih

/-! ## The invariant -/

/-- The event is the one the call is to write. -/
structure Call.Writes (handle : Handle) (call : Call) (e : Written) : Prop where
  scopedStream : call.topic.map handle.resolveTopic = some e.scopedStream
  routingKey : e.routingKey = handle.routingKey
  event : e.event = call.payload

/-- At any moment. -/
structure Inv (handle : Handle) (w : World) : Prop where
  owners : ∀ l i, w.owner l = some i → i < w.calls.length
  nodup : w.made.Nodup
  created : ∀ s ∈ w.made, s ∈ w.streams
  writers : ∀ s n, w.writers.lookup s = some n → w.made[n]? = some s
  listed : w.owner .writers = none → ∀ s ∈ w.made, (w.writers.lookup s).isSome
  once : (w.written.map Written.call).Nodup
  written : ∀ e ∈ w.written, ∃ call, w.calls[e.call]? = some call ∧ call.Writes handle e
  calledOnce : (w.callbacks.map Callback.call).Nodup
  callbacks : ∀ b ∈ w.callbacks, ∃ call, w.calls[b.call]? = some call ∧
    call.userPtr = some b.userPtr ∧ (b.completionFlag = .ok → ∃ e ∈ w.durable, e.call = b.call)
  inCallback : ∀ i ∈ w.inCallback, ∃ call n s, w.calls[i]? = some call ∧
    call.topic.map handle.resolveTopic = some s ∧ w.made[n]? = some s ∧
    w.owner (.writer n) = some i

/-- What call `i` counts on. -/
structure Rely (i : Nat) (w w' : World) : Prop where
  owner : ∀ l, w'.owner l = some i ↔ w.owner l = some i
  pool : w.owner .writers = some i → w'.writers = w.writers ∧ w'.made = w.made
  made : w.made <+: w'.made
  streams : w.streams ⊆ w'.streams
  calls : w.calls <+: w'.calls
  durable : w.durable <+: w'.durable
  written : ∀ e ∈ w'.written, e.call = i → e ∈ w.written
  callbacks : ∀ b : Callback, b.call = i → (b ∈ w'.callbacks ↔ b ∈ w.callbacks)
  inCallback : i ∈ w'.inCallback → i ∈ w.inCallback

theorem Rely.refl (i : Nat) (w : World) : Rely i w w where
  owner _ := Iff.rfl
  pool _ := ⟨rfl, rfl⟩
  made := List.prefix_refl _
  streams := List.Subset.refl _
  calls := List.prefix_refl _
  durable := List.prefix_refl _
  written _ he _ := he
  callbacks _ _ := Iff.rfl
  inCallback hi := hi

theorem Rely.trans {i : Nat} {w₁ w₂ w₃ : World} (h : Rely i w₁ w₂) (h' : Rely i w₂ w₃) :
    Rely i w₁ w₃ where
  owner l := (h'.owner l).trans (h.owner l)
  pool hpool := by
    obtain ⟨hwriters, hmade⟩ := h.pool hpool
    obtain ⟨hwriters', hmade'⟩ := h'.pool ((h.owner _).mpr hpool)
    exact ⟨hwriters'.trans hwriters, hmade'.trans hmade⟩
  made := h.made.trans h'.made
  streams := fun _ hs => h'.streams (h.streams hs)
  calls := h.calls.trans h'.calls
  durable := h.durable.trans h'.durable
  written e he hi := h.written e (h'.written e he hi) hi
  callbacks b hb := (h'.callbacks b hb).trans (h.callbacks b hb)
  inCallback hi := h.inCallback (h'.inCallback hi)

def discipline (handle : Handle) : Discipline World AdapterCmd AdapterCmd.Res where
  exec := World.Exec
  rely := Rely
  inv := Inv handle
  rely_refl := Rely.refl
  rely_trans _ _ _ _ := Rely.trans

theorem inv_empty (handle : Handle) : Inv handle World.empty where
  owners _ _ hl := nomatch hl
  nodup := List.nodup_nil
  created _ hs := absurd hs List.not_mem_nil
  writers _ _ h := nomatch h
  listed _ _ hs := absurd hs List.not_mem_nil
  once := List.nodup_nil
  written _ he := absurd he List.not_mem_nil
  calledOnce := List.nodup_nil
  callbacks _ hb := absurd hb List.not_mem_nil
  inCallback _ hi := absurd hi List.not_mem_nil

/-! ## One command -/

/-- What a command of call `i` keeps. -/
def Keeps (handle : Handle) (i : Nat) (w w' : World) : Prop :=
  Inv handle w' ∧ ∀ j, j ≠ i → Rely j w w'

section Commands

variable {handle : Handle} {i : Nat} {w w' : World}

theorem keeps_refl (h : Inv handle w) : Keeps handle i w w := ⟨h, fun j _ => Rely.refl j w⟩

theorem getElem?_of_prefix {α : Type} {xs ys : List α} (h : xs <+: ys) {n : Nat} {a : α}
    (hn : xs[n]? = some a) : ys[n]? = some a := by
  obtain ⟨zs, rfl⟩ := h
  rw [List.getElem?_append_left (List.getElem?_eq_some_iff.mp hn).1, hn]

theorem update_some_iff {j : Nat} {l l' : Lock} {o : Option Nat} (hl : w.owner l ≠ some j)
    (ho : o ≠ some j) :
    Function.update w.owner l o l' = some j ↔ w.owner l' = some j := by
  rw [Function.update_apply]
  split
  · next h =>
      subst h
      exact ⟨fun h => absurd h ho, fun h => absurd h hl⟩
  · rfl

/-- A lock of one's own, or of nobody, changes hands. -/
theorem keeps_owner {l : Lock} {o : Option Nat} (h : Inv handle w)
    (hl : ∀ j, j ≠ i → w.owner l ≠ some j) (ho : ∀ j, j ≠ i → o ≠ some j)
    (hi : i < w.calls.length)
    (hlisted : l = .writers → o = none → ∀ s ∈ w.made, (w.writers.lookup s).isSome)
    (hcalling : i ∈ w.inCallback → ∀ n, l ≠ .writer n) :
    Keeps handle i w { w with owner := Function.update w.owner l o } := by
  refine ⟨{ h with
    owners := fun l' j hl' => ?_
    listed := fun hnone => ?_
    inCallback := fun j hj => ?_ }, fun j hj => ?_⟩
  · by_cases hji : j = i
    · exact hji ▸ hi
    · exact h.owners l' j ((update_some_iff (hl j hji) (ho j hji)).mp hl')
  · change Function.update w.owner l o .writers = none at hnone
    by_cases hw : l = .writers
    · rw [hw, Function.update_self] at hnone
      exact hlisted hw hnone
    · rw [Function.update_of_ne (Ne.symm hw)] at hnone
      exact h.listed hnone
  · obtain ⟨call, n, s, hcall, hs, hmade, howner⟩ := h.inCallback j hj
    refine ⟨call, n, s, hcall, hs, hmade, ?_⟩
    by_cases hji : j = i
    · subst hji
      exact (Function.update_of_ne (Ne.symm (hcalling hj n)) ..).trans howner
    · exact (update_some_iff (hl j hji) (ho j hji)).mpr howner
  · exact { Rely.refl j w with owner := fun l' => update_some_iff (hl j hj) (ho j hj) }

theorem keeps_lock {l : Lock} {r : Unit} (h : Inv handle w)
    (hexec : World.Exec i (.lock l) w r w') (hi : i < w.calls.length)
    (hcalling : i ∉ w.inCallback) : Keeps handle i w w' := by
  obtain ⟨hfree, rfl⟩ := hexec
  refine keeps_owner h (fun j _ hl => ?_) (fun j hj ho => ?_) hi (fun _ ho => nomatch ho)
    fun hi => absurd hi hcalling
  · rw [hfree] at hl
    cases hl
  · exact hj (Option.some.inj ho).symm

theorem keeps_unlock {l : Lock} {r : Unit} (h : Inv handle w)
    (hexec : World.Exec i (.unlock l) w r w') (hcalling : i ∉ w.inCallback)
    (hlisted : l = .writers → ∀ s ∈ w.made, (w.writers.lookup s).isSome) :
    Keeps handle i w w' := by
  obtain ⟨hmine, rfl⟩ := hexec
  refine keeps_owner h (fun j hj hl => ?_) (fun j hj ho => nomatch ho)
    (h.owners l i hmine) (fun hw _ => hlisted hw) fun hi => absurd hi hcalling
  rw [hmine] at hl
  exact hj (Option.some.inj hl).symm

theorem keeps_createStream {s : ScopedStream} {r : Except String Bool} (h : Inv handle w)
    (hexec : World.Exec i (.createStream s) w r w') :
    Keeps handle i w w' ∧ ((∃ b, r = .ok b) → s ∈ w'.streams) := by
  have hcons : Keeps handle i w { w with streams := s :: w.streams } :=
    ⟨{ h with created := fun s' hs' => List.mem_cons_of_mem _ (h.created s' hs') },
      fun j _ => { Rely.refl j w with streams := List.subset_cons_self _ _ }⟩
  rcases hexec with ⟨_, rfl⟩ | ⟨⟨e, rfl⟩, rfl | rfl⟩
  · exact ⟨hcons, fun _ => List.mem_cons_self⟩
  · exact ⟨keeps_refl h, fun hr => nomatch hr⟩
  · exact ⟨hcons, fun hr => nomatch hr⟩

/-- The pool is locked, and there is no writer for the stream. -/
theorem keeps_createEventWriter {s : ScopedStream} {r : Nat} (h : Inv handle w)
    (hexec : World.Exec i (.createEventWriter s) w r w') (hlock : w.owner .writers = some i)
    (hnew : s ∉ w.made) (hs : s ∈ w.streams) :
    Keeps handle i w w' ∧ w'.made[r]? = some s := by
  obtain ⟨rfl, rfl⟩ := hexec
  have hlift : ∀ {n : Nat} {s' : ScopedStream}, w.made[n]? = some s' →
      (w.made ++ [s])[n]? = some s' := getElem?_of_prefix (List.prefix_append _ _)
  refine ⟨⟨{ h with
    nodup := ?_
    created := fun s' hs' => ?_
    writers := fun s' n hn => hlift (h.writers s' n hn)
    listed := fun hnone => ?_
    inCallback := fun j hj => ?_ }, fun j hj => ?_⟩, List.getElem?_concat_length⟩
  · change (w.made ++ [s]).Nodup
    rw [← List.concat_eq_append]
    exact List.Nodup.concat hnew h.nodup
  · rcases List.mem_append.mp hs' with hs' | hs'
    · exact h.created s' hs'
    · exact List.mem_singleton.mp hs' ▸ hs
  · rw [show w.owner .writers = none from hnone] at hlock
    cases hlock
  · obtain ⟨call, n, s', hcall, hs', hmade, howner⟩ := h.inCallback j hj
    exact ⟨call, n, s', hcall, hs', hlift hmade, howner⟩
  · refine { Rely.refl j w with made := List.prefix_append _ _, pool := fun hpool => ?_ }
    rw [hlock] at hpool
    exact absurd (Option.some.inj hpool).symm hj

theorem keeps_insertWriter {s : ScopedStream} {n : Nat} {r : Unit} (h : Inv handle w)
    (hexec : World.Exec i (.insertWriter s n) w r w') (hlock : w.owner .writers = some i)
    (hmade : w.made[n]? = some s) : Keeps handle i w w' := by
  obtain rfl : w' = { w with writers := (s, n) :: w.writers } := hexec
  refine ⟨{ h with writers := fun s' n' hn => ?_, listed := fun hnone => ?_ }, fun j hj => ?_⟩
  · rw [List.lookup_cons] at hn
    split at hn
    · next heq =>
        rw [eq_of_beq heq, ← Option.some.inj hn]
        exact hmade
    · exact h.writers s' n' hn
  · rw [show w.owner .writers = none from hnone] at hlock
    cases hlock
  · refine { Rely.refl j w with pool := fun hpool => ?_ }
    rw [hlock] at hpool
    exact absurd (Option.some.inj hpool).symm hj

theorem nodup_append_singleton {α : Type} {xs : List α} {a : α} :
    (xs ++ [a]).Nodup ↔ a ∉ xs ∧ xs.Nodup := by
  rw [← List.concat_eq_append, List.nodup_concat]

/-- More events, in whatever order, and none behind a durable one is lost. -/
theorem rely_events {durable underWay : List Written} (h : Inv handle w)
    (hearlier : w.durable <+: durable)
    (honce : ((durable ++ underWay).map Written.call).Nodup)
    (hwritten : ∀ e ∈ durable ++ underWay,
      ∃ call, w.calls[e.call]? = some call ∧ call.Writes handle e) :
    Inv handle { w with durable := durable, underWay := underWay } ∧
      ∀ j, (∀ e ∈ durable ++ underWay, e.call = j → e ∈ w.written) →
        Rely j w { w with durable := durable, underWay := underWay } := by
  refine ⟨{ h with once := honce, written := hwritten, callbacks := fun b hb => ?_ },
    fun j hj => { Rely.refl j w with durable := hearlier, written := hj }⟩
  obtain ⟨call, hcall, huser, hok⟩ := h.callbacks b hb
  refine ⟨call, hcall, huser, fun hflag => ?_⟩
  obtain ⟨e, he, hecall⟩ := hok hflag
  exact ⟨e, hearlier.subset he, hecall⟩

/-- The event of the call, which has written none yet. -/
theorem keeps_writeEvent {n : Nat} {s : ScopedStream} {call : Call}
    {r : Except String (Except String Unit)} (h : Inv handle w)
    (hexec : World.Exec i (.writeEventByRoutingKey n handle.routingKey call.payload) w r w')
    (hcall : w.calls[i]? = some call) (hs : call.topic.map handle.resolveTopic = some s)
    (hmade : w.made[n]? = some s) (hnone : ∀ e ∈ w.written, e.call ≠ i) :
    Keeps handle i w w' ∧ (flagOf r = .ok → ∃ e ∈ w'.durable, e.call = i) := by
  have hwrites : call.Writes handle ⟨i, s, handle.routingKey, call.payload⟩ := ⟨hs, rfl, rfl⟩
  have hmap : i ∉ w.written.map Written.call := by
    intro hi
    obtain ⟨e, he, hei⟩ := List.mem_map.mp hi
    exact hnone e he hei
  -- Wherever the new event goes, it is one more.
  have hkeeps : ∀ durable underWay, w.durable <+: durable →
      (durable ++ underWay).Perm (w.written ++ [⟨i, s, handle.routingKey, call.payload⟩]) →
      Keeps handle i w { w with durable := durable, underWay := underWay } := by
    intro durable underWay hearlier hperm
    have hmem : ∀ e ∈ durable ++ underWay,
        e ∈ w.written ∨ e = ⟨i, s, handle.routingKey, call.payload⟩ := fun e he => by
      rcases List.mem_append.mp (hperm.subset he) with he | he
      · exact Or.inl he
      · exact Or.inr (List.mem_singleton.mp he)
    have honce : ((durable ++ underWay).map Written.call).Nodup := by
      refine (hperm.map Written.call).nodup_iff.mpr ?_
      rw [List.map_append]
      exact nodup_append_singleton.mpr ⟨hmap, h.once⟩
    have hwritten : ∀ e ∈ durable ++ underWay,
        ∃ call, w.calls[e.call]? = some call ∧ call.Writes handle e := by
      intro e he
      rcases hmem e he with he | rfl
      · exact h.written e he
      · exact ⟨call, hcall, hwrites⟩
    obtain ⟨hinv, hrely⟩ := rely_events h hearlier honce hwritten
    refine ⟨hinv, fun j hj => hrely j fun e he hej => (hmem e he).resolve_right ?_⟩
    rintro rfl
    exact hj hej.symm
  rcases hexec with ⟨rfl, s', hs', rfl⟩ | ⟨herr, rfl | ⟨s', hs', rfl⟩⟩
  · obtain rfl : s' = s := Option.some.inj (hs'.symm.trans hmade)
    refine ⟨hkeeps _ _ (List.prefix_append _ _) ?_, fun _ =>
      ⟨_, List.mem_append_right _ List.mem_cons_self, rfl⟩⟩
    rw [World.written, List.append_assoc, List.append_assoc]
    exact List.Perm.append_left _ List.perm_append_comm
  · exact ⟨keeps_refl h, fun hok => by rw [herr] at hok; cases hok⟩
  · obtain rfl : s' = s := Option.some.inj (hs'.symm.trans hmade)
    refine ⟨hkeeps _ _ (List.prefix_refl _) ?_, fun hok => by rw [herr] at hok; cases hok⟩
    rw [World.written, List.append_assoc]

/-- The first callback of the call, under the lock of the writer. -/
theorem keeps_callback {n userPtr : Nat} {s : ScopedStream} {call : Call}
    {flag : NvDsMsgApiErrorType} {r : Unit} (h : Inv handle w)
    (hexec : World.Exec i (.callback userPtr flag) w r w')
    (hcall : w.calls[i]? = some call) (huser : call.userPtr = some userPtr)
    (hs : call.topic.map handle.resolveTopic = some s) (hmade : w.made[n]? = some s)
    (hlock : w.owner (.writer n) = some i) (hnone : ∀ b ∈ w.callbacks, b.call ≠ i)
    (hok : flag = .ok → ∃ e ∈ w.durable, e.call = i) : Keeps handle i w w' := by
  obtain rfl : w' = _ := hexec
  refine ⟨{ h with
    calledOnce := ?_
    callbacks := fun b hb => ?_
    inCallback := fun j hj => ?_ }, fun j hj => ?_⟩
  · change ((w.callbacks ++ [(⟨i, userPtr, flag⟩ : Callback)]).map Callback.call).Nodup
    rw [List.map_append]
    refine nodup_append_singleton.mpr ⟨fun hi => ?_, h.calledOnce⟩
    obtain ⟨b, hb, hbi⟩ := List.mem_map.mp hi
    exact hnone b hb hbi
  · rcases List.mem_append.mp hb with hb | hb
    · exact h.callbacks b hb
    · rw [List.mem_singleton.mp hb]
      exact ⟨call, hcall, huser, hok⟩
  · rcases List.mem_cons.mp hj with rfl | hj
    · exact ⟨call, n, s, hcall, hs, hmade, hlock⟩
    · exact h.inCallback j hj
  · refine { Rely.refl j w with callbacks := fun b hb => ?_, inCallback := fun hi =>
      (List.mem_cons.mp hi).resolve_left hj }
    constructor
    · intro hmem
      refine (List.mem_append.mp hmem).resolve_right fun hmem => ?_
      rw [List.mem_singleton.mp hmem] at hb
      exact hj hb.symm
    · exact fun hmem => List.mem_append_left _ hmem

theorem keeps_callbackReturns {r : Unit} (h : Inv handle w)
    (hexec : World.Exec i .callbackReturns w r w') :
    Keeps handle i w w' ∧ i ∉ w'.inCallback := by
  obtain rfl : w' = _ := hexec
  refine ⟨⟨{ h with inCallback := fun j hj => ?_ }, fun j _ =>
      { Rely.refl j w with inCallback := List.mem_of_mem_filter }⟩, ?_⟩
  · exact h.inCallback j (List.mem_of_mem_filter hj)
  · simp

theorem keeps_moves (h : Inv handle w) (hmoves : World.Moves w w') :
    Inv handle w' ∧ ∀ j, Rely j w w' := by
  cases hmoves with
  | @arrives pre e post hsplit =>
      have hperm : (w.durable ++ [e] ++ (pre ++ post)).Perm w.written := by
        have hmiddle : (pre ++ e :: post).Perm (e :: (pre ++ post)) := List.perm_middle
        rw [World.written, hsplit, List.append_assoc]
        exact List.Perm.append_left w.durable hmiddle.symm
      obtain ⟨hinv, hrely⟩ := rely_events h (List.prefix_append w.durable [e])
        ((hperm.map Written.call).nodup_iff.mpr h.once)
        fun x hx => h.written x (hperm.subset hx)
      exact ⟨hinv, fun j => hrely j fun x hx _ => hperm.subset hx⟩
  | @lost pre e post hsplit =>
      have hsub : (w.durable ++ (pre ++ post)).Sublist w.written := by
        rw [World.written, hsplit]
        exact (List.Sublist.refl _).append ((List.Sublist.refl _).append
          (List.sublist_cons_self e post))
      obtain ⟨hinv, hrely⟩ := rely_events h (List.prefix_refl w.durable)
        ((hsub.map Written.call).nodup h.once)
        fun x hx => h.written x (hsub.subset hx)
      exact ⟨hinv, fun j => hrely j fun x hx _ => hsub.subset hx⟩

theorem keeps_makes {n : Nat} {p : AdapterProgram (Except Failure (Option NvDsMsgApiErrorType))}
    (h : Inv handle w) (hmakes : Makes handle n p w w') :
    Inv handle w' ∧ ∀ j, Rely j w w' := by
  obtain ⟨call, -, -, rfl⟩ := hmakes
  have hlift : ∀ {j : Nat} {call' : Call}, w.calls[j]? = some call' →
      (w.calls ++ [call])[j]? = some call' := getElem?_of_prefix (List.prefix_append _ _)
  refine ⟨{ h with
    owners := fun l j hl => by
      rw [List.length_append]
      exact Nat.lt_add_right _ (h.owners l j hl)
    written := fun e he => ?_
    callbacks := fun b hb => ?_
    inCallback := fun j hj => ?_ },
    fun j => { Rely.refl j w with calls := List.prefix_append _ _ }⟩
  · obtain ⟨call', hcall, hwrites⟩ := h.written e he
    exact ⟨call', hlift hcall, hwrites⟩
  · obtain ⟨call', hcall, hrest⟩ := h.callbacks b hb
    exact ⟨call', hlift hcall, hrest⟩
  · obtain ⟨call', m, s, hcall, hrest⟩ := h.inCallback j hj
    exact ⟨call', m, s, hlift hcall, hrest⟩

end Commands

/-! ## One call -/

/-- Call `i` holds this lock and no other. -/
structure Owns (i : Nat) (call : Call) (held : Option Lock) (w : World) : Prop where
  call : w.calls[i]? = some call
  owner : ∀ l, w.owner l = some i ↔ held = some l

/-- And the application's function does not run for it. -/
structure Mine (i : Nat) (call : Call) (held : Option Lock) (w : World) : Prop
    extends Owns i call held w where
  quiet : i ∉ w.inCallback

/-- And nothing has come of it yet. -/
structure Before (i : Nat) (call : Call) (held : Option Lock) (w : World) : Prop
    extends Mine i call held w where
  unwritten : ∀ e ∈ w.written, e.call ≠ i
  uncalled : ∀ b ∈ w.callbacks, b.call ≠ i

section Thread

variable {handle : Handle} {i : Nat} {call : Call} {held : Option Lock} {w w' : World}

theorem Rely.getElem? (h : Rely i w w') {n : Nat} {s : ScopedStream}
    (hn : w.made[n]? = some s) : w'.made[n]? = some s :=
  getElem?_of_prefix h.made hn

theorem Owns.rely (h : Owns i call held w) (hrely : Rely i w w') : Owns i call held w' where
  call := getElem?_of_prefix hrely.calls h.call
  owner l := (hrely.owner l).trans (h.owner l)

theorem Owns.lt (h : Owns i call held w) : i < w.calls.length :=
  (List.getElem?_eq_some_iff.mp h.call).1

theorem Mine.rely (h : Mine i call held w) (hrely : Rely i w w') : Mine i call held w' where
  toOwns := h.toOwns.rely hrely
  quiet hi := h.quiet (hrely.inCallback hi)

theorem Before.rely (h : Before i call held w) (hrely : Rely i w w') :
    Before i call held w' where
  toMine := h.toMine.rely hrely
  unwritten e he hi := h.unwritten e (hrely.written e he hi) hi
  uncalled b hb hi := h.uncalled b ((hrely.callbacks b hi).mp hb) hi

theorem Mine.lock {l : Lock} {r : Unit} (h : Mine i call none w)
    (hexec : World.Exec i (.lock l) w r w') : Mine i call (some l) w' := by
  obtain ⟨-, rfl⟩ := hexec
  refine { h with owner := fun l' => ?_ }
  change Function.update w.owner l (some i) l' = some i ↔ _
  rw [Function.update_apply]
  split
  · next hl => simp [hl]
  · next hl =>
      rw [h.owner l']
      simp [Ne.symm hl]

theorem Mine.unlock {l : Lock} {r : Unit} (h : Mine i call (some l) w)
    (hexec : World.Exec i (.unlock l) w r w') : Mine i call none w' := by
  obtain ⟨-, rfl⟩ := hexec
  refine { h with owner := fun l' => ?_ }
  change Function.update w.owner l none l' = some i ↔ _
  rw [Function.update_apply]
  split
  · simp
  · next hl =>
      rw [h.owner l']
      simp [Ne.symm hl]

theorem Before.lock {l : Lock} {r : Unit} (h : Before i call none w)
    (hexec : World.Exec i (.lock l) w r w') : Before i call (some l) w' := by
  have hmine := h.toMine.lock hexec
  obtain ⟨-, rfl⟩ := hexec
  exact { h with toMine := hmine }

theorem Before.unlock {l : Lock} {r : Unit} (h : Before i call (some l) w)
    (hexec : World.Exec i (.unlock l) w r w') : Before i call none w' := by
  have hmine := h.toMine.unlock hexec
  obtain ⟨-, rfl⟩ := hexec
  exact { h with toMine := hmine }

/-- The next command of a task, from what is known whatever the others do. -/
theorem safe_command {α : Type} {c : AdapterCmd} {f : c.Res → Task α}
    {Q : Except Failure α → World → Prop} {P : World → Prop} (hP : P w)
    (hstable : ∀ w w', P w → Rely i w w' → P w')
    (h : ∀ w r w', P w → Inv handle w → World.Exec i c w r w' → Keeps handle i w w' ∧
      Safe ((discipline handle).arena i) (f r).run Q w') :
    Safe ((discipline handle).arena i) (Task.command c >>= f).run Q w := by
  refine safe_call fun w₁ hrely hinv r w₂ hexec => ?_
  obtain ⟨⟨hinv', hothers⟩, hsafe⟩ := h w₁ r w₂ (hstable w w₁ hP hrely) hinv hexec
  exact ⟨hinv', hothers, hsafe⟩

/-! ### The pool -/

/-- The writers of these streams are in the pool, as far as `but` goes. -/
structure Pooled (i : Nat) (call : Call) (but : ScopedStream → Prop) (w : World) : Prop
    extends Before i call (some .writers) w where
  listed : ∀ s ∈ w.made, ¬but s → (w.writers.lookup s).isSome

theorem Pooled.rely {but : ScopedStream → Prop} (h : Pooled i call but w)
    (hrely : Rely i w w') : Pooled i call but w' where
  toBefore := h.toBefore.rely hrely
  listed := by
    obtain ⟨hwriters, hmade⟩ := hrely.pool ((h.owner _).mpr rfl)
    rw [hwriters, hmade]
    exact h.listed

theorem keeps_unlockPool {r : Unit} (h : Pooled i call (fun _ => False) w)
    (hi : Inv handle w) (hexec : World.Exec i (.unlock .writers) w r w') :
    Keeps handle i w w' ∧ Before i call none w' :=
  ⟨keeps_unlock hi hexec h.quiet fun _ s hs => h.listed s hs id, h.toBefore.unlock hexec⟩

/-- What is left of `get_or_create`: a writer for the stream, and nothing on a panic. -/
def Pools (i : Nat) (call : Call) (s : ScopedStream) (r : Except Failure Nat) (w : World) :
    Prop :=
  Before i call none w ∧ ∀ n, r = .ok n → w.made[n]? = some s

/-- The guard is dropped, and the writer handed on. -/
theorem safe_returnWriter {n : Nat} {s : ScopedStream}
    (h : Pooled i call (fun _ => False) w) (hmade : w.made[n]? = some s) :
    Safe ((discipline handle).arena i)
      (Task.command (.unlock .writers) >>= fun _ => pure n : Task Nat).run
      (Pools i call s) w := by
  have hstable : ∀ w w', Pooled i call (fun _ => False) w ∧ w.made[n]? = some s →
      Rely i w w' → Pooled i call (fun _ => False) w' ∧ w'.made[n]? = some s :=
    fun w w' h hrely => ⟨h.1.rely hrely, hrely.getElem? h.2⟩
  refine safe_command ⟨h, hmade⟩ hstable fun w r w' ⟨h, hmade⟩ hinv hexec => ?_
  obtain ⟨hkeeps, h'⟩ := keeps_unlockPool h hinv hexec
  obtain ⟨-, rfl⟩ := hexec
  refine ⟨hkeeps, fun w' hrely _ => ⟨h'.rely hrely, fun n' hn => ?_⟩⟩
  cases hn
  exact hrely.getElem? hmade

theorem safe_createWriter {s : ScopedStream} (h : Pooled i call (fun _ => False) w)
    (hnone : w.writers.lookup s = none) :
    Safe ((discipline handle).arena i) (createWriter s).run (Pools i call s) w := by
  have hstable : ∀ w w', Pooled i call (fun _ => False) w ∧ w.writers.lookup s = none →
      Rely i w w' → Pooled i call (fun _ => False) w' ∧ w'.writers.lookup s = none := by
    rintro w w' ⟨h, hnone⟩ hrely
    obtain ⟨hwriters, -⟩ := hrely.pool ((h.owner _).mpr rfl)
    exact ⟨h.rely hrely, by rw [hwriters, hnone]⟩
  refine safe_command ⟨h, hnone⟩ hstable fun w r w₁ ⟨h, hnone⟩ hinv hexec => ?_
  obtain ⟨hkeeps, hstreams⟩ := keeps_createStream hinv hexec
  refine ⟨hkeeps, ?_⟩
  have h₁ : Pooled i call (fun _ => False) w₁ ∧ w₁.writers.lookup s = none := by
    rcases hexec with ⟨_, rfl⟩ | ⟨_, rfl | rfl⟩
    · exact ⟨{ h with }, hnone⟩
    · exact ⟨h, hnone⟩
    · exact ⟨{ h with }, hnone⟩
  rcases r with e | b
  · -- The panic unlocks the pool on its way.
    refine safe_command h₁.1 (fun _ _ h => h.rely) fun w r w' h hinv hexec => ?_
    obtain ⟨hkeeps, h'⟩ := keeps_unlockPool h hinv hexec
    exact ⟨hkeeps, fun w' hrely _ => ⟨h'.rely hrely, fun _ hr => nomatch hr⟩⟩
  have hcreated : s ∈ w₁.streams := hstreams ⟨b, rfl⟩
  have hstable' : ∀ w w', (Pooled i call (fun _ => False) w ∧ w.writers.lookup s = none) ∧
      s ∈ w.streams → Rely i w w' → (Pooled i call (fun _ => False) w' ∧
        w'.writers.lookup s = none) ∧ s ∈ w'.streams :=
    fun w w' h hrely => ⟨hstable w w' h.1 hrely, hrely.streams h.2⟩
  refine safe_command ⟨h₁, hcreated⟩ hstable' fun w (n : Nat) w₂ h hinv hexec => ?_
  obtain ⟨⟨h, hnone⟩, hs⟩ := h
  have hnew : s ∉ w.made := fun hmem => by
    have := h.listed s hmem id
    rw [hnone] at this
    cases this
  obtain ⟨hkeeps, hmade⟩ := keeps_createEventWriter hinv hexec ((h.owner _).mpr rfl) hnew hs
  refine ⟨hkeeps, ?_⟩
  have h₂ : Pooled i call (fun s' => s' = s) w₂ := by
    obtain ⟨-, rfl⟩ := hexec
    refine { h with listed := fun s' hs' hne => ?_ }
    rcases List.mem_append.mp hs' with hs' | hs'
    · exact h.listed s' hs' id
    · exact absurd (List.mem_singleton.mp hs') hne
  have hstable'' : ∀ w w', Pooled i call (fun s' => s' = s) w ∧ w.made[n]? = some s →
      Rely i w w' → Pooled i call (fun s' => s' = s) w' ∧ w'.made[n]? = some s :=
    fun w w' h hrely => ⟨h.1.rely hrely, hrely.getElem? h.2⟩
  refine safe_command ⟨h₂, hmade⟩ hstable'' fun w r w₃ ⟨h, hmade⟩ hinv hexec => ?_
  refine ⟨keeps_insertWriter hinv hexec ((h.owner _).mpr rfl) hmade, ?_⟩
  obtain rfl : w₃ = _ := hexec
  refine safe_returnWriter { h with listed := fun s' hs' _ => ?_ } hmade
  change (List.lookup s' ((s, n) :: w.writers)).isSome
  rw [List.lookup_cons]
  split
  · rfl
  · next hne => exact h.listed s' hs' fun heq => by simp [heq] at hne

theorem safe_getOrCreate {s : ScopedStream} (h : Before i call none w) :
    Safe ((discipline handle).arena i) (getOrCreate s).run (Pools i call s) w := by
  refine safe_command h (fun _ _ h => h.rely) fun w r w₁ h hinv hexec => ?_
  refine ⟨keeps_lock hinv hexec h.lt h.quiet, ?_⟩
  have h₁ : Pooled i call (fun _ => False) w₁ := by
    have hlocked := h.lock hexec
    obtain ⟨hfree, rfl⟩ := hexec
    exact { hlocked with listed := fun s hs _ => hinv.listed hfree s hs }
  refine safe_command h₁ (fun _ _ h => h.rely) fun w r w₂ h hinv hexec => ?_
  obtain ⟨hlookup, rfl⟩ := hexec
  refine ⟨keeps_refl hinv, ?_⟩
  cases r with
  | none => exact safe_createWriter h hlookup.symm
  | some n => exact safe_returnWriter h (hinv.writers s n hlookup.symm)

/-! ### Sending -/

/-- The event was written under the lock of writer `n`, and the answer is `flag`. -/
structure Sent (i : Nat) (call : Call) (n : Nat) (s : ScopedStream) (flag : NvDsMsgApiErrorType)
    (w : World) : Prop extends Mine i call (some (.writer n)) w where
  made : w.made[n]? = some s
  uncalled : ∀ b ∈ w.callbacks, b.call ≠ i
  kept : flag = .ok → ∃ e ∈ w.durable, e.call = i

theorem kept_rely {flag : NvDsMsgApiErrorType}
    (h : flag = .ok → ∃ e ∈ w.durable, e.call = i) (hrely : Rely i w w') :
    flag = .ok → ∃ e ∈ w'.durable, e.call = i := by
  intro hflag
  obtain ⟨e, he, hei⟩ := h hflag
  exact ⟨e, hrely.durable.subset he, hei⟩

theorem Sent.rely {n : Nat} {s : ScopedStream} {flag : NvDsMsgApiErrorType}
    (h : Sent i call n s flag w) (hrely : Rely i w w') : Sent i call n s flag w' where
  toMine := h.toMine.rely hrely
  made := hrely.getElem? h.made
  uncalled b hb hi := h.uncalled b ((hrely.callbacks b hi).mp hb) hi
  kept := kept_rely h.kept hrely

/-- What a call leaves when it is over. -/
def Leaves (i : Nat) : Except Failure (Option NvDsMsgApiErrorType) → World → Prop
  | .error _, w => (∀ e ∈ w.written, e.call ≠ i) ∧ ∀ b ∈ w.callbacks, b.call ≠ i
  | .ok (some flag), w => (∃ call, w.calls[i]? = some call ∧ call.userPtr = none) ∧
      (flag = .ok → ∃ e ∈ w.durable, e.call = i)
  | .ok none, w => ∃ b ∈ w.callbacks, b.call = i

theorem Leaves.rely {r : Except Failure (Option NvDsMsgApiErrorType)} (h : Leaves i r w)
    (hrely : Rely i w w') : Leaves i r w' := by
  rcases r with e | _ | flag
  · exact ⟨fun e he hi => h.1 e (hrely.written e he hi) hi,
      fun b hb hi => h.2 b ((hrely.callbacks b hi).mp hb) hi⟩
  · obtain ⟨b, hb, hi⟩ := h
    exact ⟨b, (hrely.callbacks b hi).mpr hb, hi⟩
  · obtain ⟨⟨call, hcall, huser⟩, hkept⟩ := h
    exact ⟨⟨call, getElem?_of_prefix hrely.calls hcall, huser⟩, kept_rely hkept hrely⟩

theorem Before.leaves (h : Before i call held w) {e : Failure} : Leaves i (.error e) w :=
  ⟨h.unwritten, h.uncalled⟩

theorem safe_map {α : Type} {p : Task α} {g : α → Option NvDsMsgApiErrorType}
    (h : Safe ((discipline handle).arena i) p.run (fun r w => Leaves i (r.map g) w) w) :
    Safe ((discipline handle).arena i) (g <$> p).run (Leaves i) w := by
  refine safe_bind (Safe.mono h fun r w' hr => ?_)
  cases r with
  | error e => exact fun w'' hrely _ => hr.rely hrely
  | ok a => exact fun w'' hrely _ => hr.rely hrely

variable (handle) in
/-- The write, with what follows it. -/
theorem safe_write {α : Type} {s : ScopedStream} {f : Nat → NvDsMsgApiErrorType → Task α}
    {Q : Except Failure α → World → Prop} (h : Before i call none w)
    (hs : call.topic.map handle.resolveTopic = some s)
    (herror : ∀ e w, Before i call none w → Q (.error e) w)
    (hf : ∀ n flag w, Sent i call n s flag w → Inv handle w →
      Safe ((discipline handle).arena i) (f n flag).run Q w) :
    Safe ((discipline handle).arena i) (do
      let writer ← getOrCreate s
      Task.command (.lock (.writer writer))
      let result ← Task.command
        (.writeEventByRoutingKey writer handle.routingKey call.payload)
      f writer (flagOf result) : Task α).run Q w := by
  refine safe_bind (Safe.mono (safe_getOrCreate h) ?_)
  rintro (e | n) w ⟨h, hmade⟩
  · exact fun w' hrely _ => herror e w' (h.rely hrely)
  have hmade : w.made[n]? = some s := hmade n rfl
  refine safe_command (P := fun w => Before i call none w ∧ w.made[n]? = some s) ⟨h, hmade⟩
    (fun w w' h hrely => ⟨h.1.rely hrely, hrely.getElem? h.2⟩)
    fun w r w₁ ⟨h, hmade⟩ hinv hexec => ?_
  refine ⟨keeps_lock hinv hexec h.lt h.quiet, ?_⟩
  have h₁ := h.lock hexec
  obtain ⟨-, rfl⟩ := hexec
  have hstable : ∀ w w', Before i call (some (.writer n)) w ∧ w.made[n]? = some s →
      Rely i w w' → Before i call (some (.writer n)) w' ∧ w'.made[n]? = some s :=
    fun w w' h hrely => ⟨h.1.rely hrely, hrely.getElem? h.2⟩
  refine safe_command ⟨h₁, hmade⟩ hstable fun w r w₂ ⟨h, hmade⟩ hinv hexec => ?_
  obtain ⟨hkeeps, hkept⟩ := keeps_writeEvent hinv hexec h.call hs hmade h.unwritten
  refine ⟨hkeeps, hf n (flagOf r) w₂ ?_ hkeeps.1⟩
  rcases hexec with ⟨_, _, _, rfl⟩ | ⟨_, rfl | ⟨_, _, rfl⟩⟩
  · exact ⟨{ h.toMine with }, hmade, h.uncalled, hkept⟩
  · exact ⟨{ h.toMine with }, hmade, h.uncalled, hkept⟩
  · exact ⟨{ h.toMine with }, hmade, h.uncalled, hkept⟩

theorem safe_nvdsMsgapiSend {topic : Option String} {payload : List UInt8}
    (h : Before i (.send topic payload) none w) :
    Safe ((discipline handle).arena i) (nvdsMsgapiSend handle topic payload).run
      (fun r w => Leaves i (r.map some) w) w := by
  cases topic with
  | none => exact fun w' hrely _ => (h.rely hrely).leaves
  | some topic =>
      have hsends := safe_write handle (Q := fun r w => Leaves i (r.map some) w)
        (f := fun writer flag => do
          Task.command (.unlock (.writer writer))
          pure flag) h rfl (fun e w h => h.leaves) fun n flag w hsent _ => ?_
      · exact hsends
      refine safe_command hsent (fun _ _ h => h.rely) fun w r w₁ h hinv hexec => ?_
      refine ⟨keeps_unlock hinv hexec h.quiet (fun hl => nomatch hl), fun w' hrely _ => ?_⟩
      obtain ⟨-, rfl⟩ := hexec
      have hleaves : Leaves i (.ok (some flag))
          { w with owner := Function.update w.owner (.writer n) none } :=
        ⟨⟨_, h.call, rfl⟩, h.kept⟩
      exact hleaves.rely hrely

/-- The application was called back. -/
def Called (i : Nat) (w : World) : Prop := ∃ b ∈ w.callbacks, b.call = i

theorem Called.rely (h : Called i w) (hrely : Rely i w w') : Called i w' := by
  obtain ⟨b, hb, hi⟩ := h
  exact ⟨b, (hrely.callbacks b hi).mpr hb, hi⟩

/-- In the application's function: the guard is still there. -/
structure Calling (i : Nat) (call : Call) (n : Nat) (w : World) : Prop
    extends Owns i call (some (.writer n)) w where
  called : Called i w

theorem Calling.rely {n : Nat} (h : Calling i call n w) (hrely : Rely i w w') :
    Calling i call n w' := ⟨h.toOwns.rely hrely, h.called.rely hrely⟩

theorem safe_sendAsyncTask {topic : String} {payload : List UInt8} {userPtr : Nat}
    (h : Before i (.sendAsync (some topic) payload userPtr) none w) :
    Safe ((discipline handle).arena i)
      (sendAsyncTask handle (handle.resolveTopic topic) payload userPtr).run
      (fun r w => Leaves i (r.map fun _ => none) w) w := by
  have hsends := safe_write handle
    (Q := fun (r : Except Failure Unit) w => Leaves i (r.map fun _ => none) w)
    (f := fun writer flag => do
      Task.command (.callback userPtr flag)
      Task.command .callbackReturns
      Task.command (.unlock (.writer writer))) h rfl (fun e w h => h.leaves)
    fun n flag w hsent _ => ?_
  · exact hsends
  refine safe_command hsent (fun _ _ h => h.rely) fun w r w₁ h hinv hexec => ?_
  refine ⟨keeps_callback hinv hexec h.call rfl rfl h.made ((h.owner _).mpr rfl) h.uncalled
    h.kept, ?_⟩
  have h₁ : Calling i (.sendAsync (some topic) payload userPtr) n w₁ := by
    obtain rfl : w₁ = _ := hexec
    exact ⟨{ h.toOwns with }, _, List.mem_append_right _ List.mem_cons_self, rfl⟩
  refine safe_command h₁ (fun _ _ h => h.rely) fun w r w₂ h hinv hexec => ?_
  obtain ⟨hkeeps, hquiet⟩ := keeps_callbackReturns hinv hexec
  refine ⟨hkeeps, ?_⟩
  have h₂ : Mine i (.sendAsync (some topic) payload userPtr) (some (.writer n)) w₂ ∧
      Called i w₂ := by
    obtain rfl : w₂ = _ := hexec
    exact ⟨⟨{ h.toOwns with }, hquiet⟩, h.called⟩
  refine safe_call fun w hrely hinv r w₃ hexec => ?_
  have h := h₂.1.rely hrely
  have hcalled := h₂.2.rely hrely
  obtain ⟨hinv', hothers⟩ := keeps_unlock (r := r) hinv hexec h.quiet (fun hl => nomatch hl)
  refine ⟨hinv', hothers, fun w' hrely _ => ?_⟩
  obtain ⟨-, rfl⟩ := hexec
  have hleaves : Leaves i (.ok none)
      { w with owner := Function.update w.owner (.writer n) none } := hcalled
  exact hleaves.rely hrely

theorem safe_thread (h : Before i call none w) :
    Safe ((discipline handle).arena i) (call.thread handle) (Leaves i) w := by
  cases call with
  | send topic payload => exact safe_map (safe_nvdsMsgapiSend h)
  | sendAsync topic payload userPtr =>
      cases topic with
      | none => exact fun w' hrely _ => (h.rely hrely).leaves
      | some topic => exact safe_map (safe_sendAsyncTask h)

end Thread

end GstPravega.Deepstream
