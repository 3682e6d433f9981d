import GstPravega.Proofs.SinkSession

/-!
# Restarting the sink

`stop` gives up at the first operation that fails, with the element still started and the
retention thread still running: what resets the state and what ends the thread come last.
The next `start` then finds the element started and panics.

Runs here are sequences of calls on one element, each answered in any way, none after a
panic, which leaves the lock poisoned. Of the world only two things matter: whether a
stream operation has failed under the call, and how many retention threads have not been
told to end. A stop that returns leaves the element stopped and no thread exactly when
nothing has failed under it, and the timestamp of the final record, if there is one to
write, is not zero.
-/

namespace GstPravega.Plugin.PravegaSink

open GstPravega.Lib GstPravega.Client GstPravega.Gst GstPravega.Video GstPravega.Lib.Program

/-- What the calls of an element see of the world. -/
structure House where
  /-- A stream operation has failed under this call. -/
  failed : Bool
  /-- The retention threads that have not been told to end. -/
  threads : Nat
  deriving DecidableEq, Repr

namespace House

def answered (w : House) : Except IoError Unit → House
  | .ok () => w
  | .error _ => { w with failed := true }

/-- What a command does, whatever it is answered. -/
def Exec : (c : SinkCmd) → House → c.Res → House → Prop
  | .append .., w, r, w' => w' = w.answered r
  | .flush _, w, r, w' => w' = w.answered r
  | .seal _, w, r, w' => w' = w.answered r
  | .spawnRetention .., w, _, w' => w' = { w with threads := w.threads + 1 }
  | .joinRetention, w, _, w' => w' = { w with threads := w.threads - 1 }
  | .createClientConfig .., w, _, w' => w' = w
  | .createScope _, w, _, w' => w' = w
  | .createStream .., w, _, w' => w' = w
  | .seekToTail _, w, _, w' => w' = w

end House

/-- An element by itself. -/
abbrev house : Arena House SinkCmd SinkCmd.Res := alone House.Exec fun _ => True

/-- The retention threads of an element. -/
def State.threads : State → Nat
  | .started st => if st.retentionThreadHandle then 1 else 0
  | .stopped => 0

/-- There is a final record to write, at time zero. -/
def ZeroFinal (st : Started) : Prop :=
  st.finalOffset ≠ none ∧ st.finalTimestamp = ⟨some 0⟩

variable {F : Type} {settings : Settings F} {checks : Bool} {daysToSeconds : F → Int}
  {st : Started} {w w' : House}

/-! ## `stop` -/

section Stop

variable {Q : Unit → Started → House → Prop} {E : Failure → Started → House → Prop}

theorem house_orFail {domain : ErrorDomain} {text : String} {r : Except IoError Unit}
    (hok : Q () st w) (herr : ∀ e, E (.error domain e) st { w with failed := true }) :
    SafeS house (SinkM.orFail domain text r) Q E st (w.answered r) := by
  cases r with
  | ok u => exact aloneS_pure hok
  | error e => exact aloneS_throw (herr _)

theorem house_flushBuf {b : BufWriter} {Q : Except IoError Unit × BufWriter → House → Prop}
    (hok : ∀ b', Q (.ok (), b') w)
    (herr : ∀ e b', Q (.error e, b') { w with failed := true }) :
    Safe house b.flushBuf Q w := by
  rw [BufWriter.flushBuf]
  split
  · exact alone_ret (hok b)
  · refine alone_call fun r w' hr => ⟨trivial, ?_⟩
    have hr : w' = w.answered r := hr
    subst hr
    cases r with
    | ok u => exact alone_ret (hok _)
    | error e => exact alone_ret (herr e b)

theorem house_bufFlush {b : BufWriter} {Q : Except IoError Unit × BufWriter → House → Prop}
    (hok : ∀ b', Q (.ok (), b') w)
    (herr : ∀ e b', Q (.error e, b') { w with failed := true }) :
    Safe house b.flush Q w := by
  refine safe_bind (house_flushBuf (fun b' => ?_) fun e b' => alone_ret (herr e b'))
  refine alone_call fun r w' hr => ⟨trivial, ?_⟩
  have hr : w' = w.answered r := hr
  subst hr
  cases r with
  | ok u => exact alone_ret (hok b')
  | error e => exact alone_ret (herr e b')

theorem house_flushData {domain : ErrorDomain}
    (hok : ∀ writer, Q () { st with writer := writer } w)
    (herr : ∀ e writer, E (.error domain e) { st with writer := writer }
      { w with failed := true }) :
    SafeS house (flushData domain) Q E st w := by
  refine aloneS_bind (safe_bind (safe_bind (house_bufFlush (fun b' => ?_) fun e b' => ?_)))
  · exact alone_ret (alone_ret (house_orFail (r := .ok ()) (hok _) fun e => herr e _))
  · exact alone_ret (alone_ret (aloneS_throw (herr _ _)))

theorem house_flushIndex {domain : ErrorDomain} (hok : Q () st w)
    (herr : ∀ e, E (.error domain e) st { w with failed := true }) :
    SafeS house (flushIndex domain) Q E st w := by
  refine aloneS_bind (aloneS_command fun r w' hr => ⟨trivial, ?_⟩)
  have hr : w' = w.answered r := hr
  subst hr
  exact house_orFail hok herr

theorem house_sealStreams {wanted : Bool} (hok : Q () st w)
    (herr : ∀ e, E (.error .resourceWrite e) st { w with failed := true }) :
    SafeS house (sealStreams wanted) Q E st w := by
  have hseal : ∀ {s text} {Q : Unit → Started → House → Prop}, Q () st w →
      SafeS house (sealStream s text) Q E st w := by
    intro s text Q hok
    refine aloneS_bind (aloneS_command fun r w' hr => ⟨trivial, ?_⟩)
    have hr : w' = w.answered r := hr
    subst hr
    exact house_orFail hok herr
  rw [sealStreams]
  split
  · exact aloneS_bind (hseal (hseal hok))
  · exact aloneS_pure hok

/-- The final record: a timestamp of zero is an error, a failed append a panic. -/
theorem house_writeFinalRecord (hok : ¬ ZeroFinal st → Q () st w)
    (hzero : ZeroFinal st → ∀ e, E (.error .resourceWrite e) st w)
    (hpanic : ∀ w', E .panicked st w') : SafeS house writeFinalRecord Q E st w := by
  refine aloneS_bind (aloneS_get ?_)
  split
  · next offset hoffset =>
      split
      · next hsome =>
          rw [writeIndexRecord]
          split
          · next hwrite =>
              refine aloneS_throw (hzero ⟨by simp [hoffset], ?_⟩ _)
              obtain ⟨n, hn⟩ := Option.isSome_iff_exists.mp hsome
              have hz := IndexRecordWriter.write_error hwrite
              rw [IndexRecord.new, hn] at hz
              exact congrArg PravegaTimestamp.mk (hn.trans (congrArg some hz))
          · next bytes hwrite =>
              refine aloneS_bind (aloneS_command fun r w' hr => ⟨trivial, ?_⟩)
              have hr : w' = w.answered r := hr
              subst hr
              cases r with
              | ok u =>
                  refine aloneS_pure (hok ?_)
                  rintro ⟨-, hz⟩
                  have hrefused : IndexRecordWriter.write
                      (IndexRecord.new ⟨some 0⟩ offset false false) = .error _ := if_pos rfl
                  rw [hz, hrefused] at hwrite
                  cases hwrite
              | error e => exact aloneS_throw (hpanic _)
      · next hnone =>
          refine aloneS_pure (hok ?_)
          rintro ⟨-, hz⟩
          rw [hz] at hnone
          exact hnone rfl
  · next hoffset => exact aloneS_pure (hok fun hz => hz.1 hoffset)

theorem house_joinRetention {Q : Unit → Started → House → Prop}
    (hok : ∀ st', Q () st' { w with threads := w.threads -
      (State.started st).threads }) :
    SafeS house joinRetention Q E st w := by
  refine aloneS_bind (aloneS_get ?_)
  rw [State.threads] at hok
  split
  · next hhandle =>
      rw [if_pos hhandle] at hok
      refine aloneS_bind (aloneS_command fun r w' hr => ⟨trivial, ?_⟩)
      have hr : w' = { w with threads := w.threads - 1 } := hr
      subst hr
      exact aloneS_modify (hok _)
  · next hhandle =>
      rw [if_neg hhandle] at hok
      exact aloneS_pure (hok st)

/-- What a `stop` that fails leaves: the element as it was, as far as it matters. -/
def Broken (st₀ : Started) (n : Nat) (e : Failure) (st : Started) (w : House) : Prop :=
  e = .panicked ∨ (w.failed = true ∨ ZeroFinal st₀) ∧
    st.retentionThreadHandle = st₀.retentionThreadHandle ∧ w.threads = n

/-- `stop` on a started element. -/
theorem house_stopStarted {n : Nat} :
    SafeS house (stopStarted settings)
      (fun _ _ w' => ¬ ZeroFinal st ∧ w' = ⟨false, n - (State.started st).threads⟩)
      (Broken st n) st ⟨false, n⟩ := by
  refine aloneS_bind (house_flushData (fun writer => ?_) fun e writer => ?_)
  case refine_2 => exact Or.inr ⟨Or.inl rfl, rfl, rfl⟩
  refine aloneS_bind (house_writeFinalRecord (fun hzero => ?_) (fun hzero e => ?_) ?_)
  case refine_2 => exact Or.inr ⟨Or.inr hzero, rfl, rfl⟩
  case refine_3 => exact fun _ => Or.inl rfl
  refine aloneS_bind (house_flushIndex ?_ fun e => Or.inr ⟨Or.inl rfl, rfl, rfl⟩)
  refine aloneS_bind (house_sealStreams ?_ fun e => Or.inr ⟨Or.inl rfl, rfl, rfl⟩)
  exact house_joinRetention fun st' => ⟨hzero, rfl⟩

end Stop

/-- What a `stop` that returns leaves. -/
theorem house_stop :
    Safe house (stop settings (.started st)) (fun x w' => x.1 ≠ .error .panicked →
      (x.2 = .stopped ∧ w'.threads = 0 ↔ w'.failed = false ∧ ¬ ZeroFinal st) ∧
        w'.threads = x.2.threads) ⟨false, (State.started st).threads⟩ := by
  refine safe_bind (Safe.mono house_stopStarted fun x w' hx => ?_)
  obtain ⟨e | u, st'⟩ := x
  · refine alone_ret fun hpanic => ?_
    rcases hx with rfl | ⟨hbroken, hhandle, hthreads⟩
    · exact absurd rfl hpanic
    · refine ⟨⟨?_, ?_⟩, ?_⟩
      · rintro ⟨hst, -⟩
        cases hst
      · rintro ⟨hfailed, hzero⟩
        rcases hbroken with hbroken | hbroken
        · rw [hfailed] at hbroken
          cases hbroken
        · exact absurd hbroken hzero
      · rw [hthreads, State.threads, State.threads, hhandle]
  · obtain ⟨hzero, rfl⟩ := hx
    refine alone_ret fun _ => ⟨⟨fun _ => ⟨rfl, hzero⟩, fun _ => ⟨rfl, ?_⟩⟩, ?_⟩
    · exact Nat.sub_self _
    · exact Nat.sub_self _

/-! ## `render` and `start` -/

/-- A command on a stream. -/
def OnStream : SinkCmd → Prop
  | .append .. => True
  | .flush _ => True
  | _ => False

theorem every_flushBuf_onStream {b : BufWriter} : Every OnStream (fun _ => True) b.flushBuf := by
  rw [BufWriter.flushBuf]
  split
  · exact trivial
  · exact ⟨trivial, fun r => by cases r <;> exact trivial⟩

theorem every_writeThrough_onStream {b : BufWriter} {bytes : List UInt8} :
    Every OnStream (fun _ => True) (b.writeThrough bytes) := by
  rw [BufWriter.writeThrough]
  split
  · exact ⟨trivial, fun _ => trivial⟩
  · exact trivial

/-- `render` does not touch the thread handle. -/
theorem kept_handle (handle : Bool) :
    Kept OnStream fun st => st.retentionThreadHandle = handle := by
  refine ⟨fun bytes _ st h => ?_, fun st h => ?_, fun _ => trivial, trivial,
    fun st st' h _ hhandle => hhandle.trans h⟩
  · have hwrite : Every OnStream (fun _ => True) (st.writer.inner.write bytes) := by
      rw [BufWriter.write]
      split
      · exact trivial
      split
      · refine every_bind (every_flushBuf_onStream.mono ?_)
        rintro ⟨_ | ⟨⟩, b⟩ -
        · exact trivial
        · exact every_writeThrough_onStream
      · exact every_writeThrough_onStream
    refine every_bind (every_bind (hwrite.mono ?_))
    rintro ⟨_ | ⟨⟩, b⟩ -
    · exact h
    · exact h
  · refine every_bind (every_bind (every_bind (every_flushBuf_onStream.mono ?_)))
    rintro ⟨_ | ⟨⟩, b⟩ -
    · exact h
    · exact ⟨trivial, fun _ => h⟩

theorem answered_threads (w : House) (r : Except IoError Unit) :
    (w.answered r).threads = w.threads := by
  cases r with
  | ok u => rfl
  | error e => rfl

theorem house_render {baseTime : ClockTime} {buffer : Buffer} :
    Safe house (render checks settings baseTime buffer (.started st))
      (fun x w' => w'.threads = x.2.threads) ⟨false, (State.started st).threads⟩ := by
  have hevery : Every OnStream
      (fun x => x.2.threads = (State.started st).threads)
      (render checks settings baseTime buffer (.started st)) := by
    have hthreads : ∀ st' : Started, st'.retentionThreadHandle = st.retentionThreadHandle →
        (State.started st').threads = (State.started st).threads := by
      intro st' h
      rw [State.threads, State.threads, h]
    exact every_onStarted (P := fun s => s.threads = (State.started st).threads)
      (kept_handle st.retentionThreadHandle).renderStarted rfl hthreads hthreads
  have hsafe := hevery.safe (A := house)
    (J := fun w' : House => w'.threads = (State.started st).threads)
    (s := ⟨false, (State.started st).threads⟩) rfl
    (by rintro s _ hs rfl _; exact hs) ?_
  · exact hsafe.mono fun x w' hx => hx.2.trans hx.1.symm
  · intro c w r w' hc hw _ hexec
    refine ⟨?_, trivial, trivial⟩
    cases c
    case append | flush =>
      have hexec : w' = w.answered r := hexec
      subst hexec
      exact (answered_threads w r).trans hw
    all_goals exact hc.elim

/-- `start` does not panic on a stopped element. -/
theorem house_start :
    Safe house (start daysToSeconds settings .stopped)
      (fun x w' => x.1 ≠ .error .panicked ∧ w'.threads = x.2.threads) ⟨false, 0⟩ := by
  have hopenable : Openable house (· = ⟨false, 0⟩) fun _ => True := by
    refine ⟨by rintro s _ hs rfl _; exact hs, ?_, fun _ _ _ _ _ => trivial⟩
    intro c w r w' hc hw _ hexec
    refine ⟨?_, trivial, trivial⟩
    cases c
    case createClientConfig | createScope | createStream | seekToTail =>
      exact Eq.trans hexec hw
    all_goals exact hc.elim
  refine safe_bind (hopenable.startStopped rfl ?_ ?_ ?_)
  · rintro message w' rfl -
    exact alone_ret ⟨by simp, rfl⟩
  · rintro n w' - rfl -
    exact alone_ret ⟨by simp, rfl⟩
  · rintro n limits interval w r w' - rfl - hexec
    have hexec : w' = ⟨false, 1⟩ := hexec
    subst hexec
    refine ⟨trivial, trivial, ?_⟩
    rintro _ rfl -
    exact alone_ret ⟨by simp, rfl⟩

/-! ## Runs -/

/-- A call, and what it has led to. -/
structure Entry (F : Type) where
  call : Call F
  before : State
  result : Except Failure Unit
  after : State
  failed : Bool
  threads : Nat

namespace Entry

def Stops (x : Entry F) : Prop := ∃ settings, x.call = .stop settings

def Starts (x : Entry F) : Prop := ∃ settings, x.call = .start settings

def Returned (x : Entry F) : Prop := x.result ≠ .error .panicked

/-- Nothing has failed under a `stop` of a started element, and no final record was to be
written at time zero. -/
def Clean (x : Entry F) : Prop :=
  ∀ settings st, x.call = .stop settings → x.before = .started st → x.Returned →
    x.failed = false ∧ ¬ ZeroFinal st

end Entry

/-- Calls on one element, whatever they are answered, and what they leave: its state, and
the threads that have not been told to end. There is none after a panic. -/
inductive Served (checks : Bool) (daysToSeconds : F → Int) :
    List (Entry F) → State → Nat → Prop where
  | nil : Served checks daysToSeconds [] .stopped 0
  | call {es s n c r s' w'} : Served checks daysToSeconds es s n →
      (∀ x ∈ es, x.Returned) →
      Outcome house (c.program checks daysToSeconds s) ⟨false, n⟩ (r, s') w' →
      Served checks daysToSeconds (es ++ [⟨c, s, r, s', w'.failed, w'.threads⟩]) s'
        w'.threads

/-- A stop has returned, and no start has come since. -/
def StoppedSince (es : List (Entry F)) : Prop :=
  ∃ a x b, es = a ++ x :: b ∧ x.Stops ∧ ∀ z ∈ b, ¬ z.Starts

section Runs

variable {es : List (Entry F)} {s s' : State} {n : Nat} {c : Call F}
  {r : Except Failure Unit}

theorem house_outcome {p : SinkProgram (Except Failure Unit × State)}
    {Q : Except Failure Unit × State → House → Prop} {x : Except Failure Unit × State}
    (h : Safe house p Q w) (ho : Outcome house p w x w') : Q x w' :=
  (h.outcome (fun _ _ _ _ => trivial) trivial ho).1

theorem outcome_ret {x y : Except Failure Unit × State}
    (h : Outcome house (.ret x) w y w') : y = x ∧ w' = w := by
  cases h with
  | ret hw => exact ⟨rfl, hw⟩

/-- The threads that are left are those of the element. -/
theorem outcome_threads
    (h : Outcome house (c.program checks daysToSeconds s) ⟨false, s.threads⟩ (r, s') w')
    (hr : r ≠ .error .panicked) : w'.threads = s'.threads := by
  cases c with
  | start settings =>
      cases s with
      | stopped => exact (house_outcome house_start h).2
      | started st =>
          obtain ⟨hx, -⟩ := outcome_ret h
          injection hx with hx
          exact absurd hx hr
  | render settings baseTime buffer =>
      cases s with
      | stopped =>
          obtain ⟨hx, rfl⟩ := outcome_ret h
          injection hx with _ hx
          rw [hx]
      | started st => exact house_outcome house_render h
  | stop settings =>
      cases s with
      | stopped =>
          obtain ⟨hx, rfl⟩ := outcome_ret h
          injection hx with _ hx
          rw [hx]
      | started st => exact (house_outcome house_stop h hr).2

theorem Served.threads (h : Served checks daysToSeconds es s n)
    (hreturned : ∀ x ∈ es, x.Returned) : n = s.threads := by
  induction h with
  | nil => rfl
  | @call es s n c r s' w' _ hbefore hrun ih =>
      rw [ih hbefore] at hrun
      exact outcome_threads hrun (hreturned _ (List.mem_append_right es List.mem_cons_self))

/-- One call: what it leaves is as it should be exactly when it is clean. -/
theorem outcome_clean_iff
    (h : Outcome house (c.program checks daysToSeconds s) ⟨false, s.threads⟩ (r, s') w') :
    let x : Entry F := ⟨c, s, r, s', w'.failed, w'.threads⟩
    (x.Stops → x.Returned → x.after = .stopped ∧ x.threads = 0) ↔ x.Clean := by
  intro x
  cases c with
  | start settings =>
      refine iff_of_true ?_ fun _ _ hc => nomatch hc
      rintro ⟨_, hc⟩
      cases hc
  | render settings baseTime buffer =>
      refine iff_of_true ?_ fun _ _ hc => nomatch hc
      rintro ⟨_, hc⟩
      cases hc
  | stop settings =>
      cases s with
      | stopped =>
          obtain ⟨hx, rfl⟩ := outcome_ret h
          injection hx with _ hx
          exact iff_of_true (fun _ _ => ⟨hx, rfl⟩) fun _ _ _ hst => nomatch hst
      | started st =>
          have hstop := house_outcome house_stop h
          constructor
          · rintro hleft settings' st' - hst hreturned
            injection hst with hst
            rw [← hst]
            exact (hstop hreturned).1.mp (hleft ⟨settings, rfl⟩ hreturned)
          · intro hclean _ hreturned
            exact (hstop hreturned).1.mpr (hclean settings st rfl rfl hreturned)

theorem Served.clean_iff (h : Served checks daysToSeconds es s n) :
    ∀ x ∈ es, (x.Stops → x.Returned → x.after = .stopped ∧ x.threads = 0) ↔ x.Clean := by
  induction h with
  | nil => exact fun x hx => absurd hx List.not_mem_nil
  | @call es s n c r s' w' hserved hbefore hrun ih =>
      intro x hx
      rcases List.mem_append.mp hx with hx | hx
      · exact ih x hx
      · rw [List.mem_singleton.mp hx]
        rw [hserved.threads hbefore] at hrun
        exact outcome_clean_iff hrun

/-- Behind a stop that returned, until it is started again, the element is stopped. -/
theorem Served.stopped (h : Served checks daysToSeconds es s n)
    (hreturned : ∀ x ∈ es, x.Returned) (hclean : ∀ x ∈ es, x.Clean)
    (hsince : StoppedSince es) : s = .stopped := by
  induction h with
  | nil =>
      obtain ⟨a, x, b, hes, -, -⟩ := hsince
      exact absurd (congrArg List.length hes) (by simp)
  | @call es s n c r s' w' hserved hbefore hrun ih =>
      obtain ⟨a, x, b, hes, hstops, hstarts⟩ := hsince
      have hlast := List.mem_append_right es (List.mem_singleton_self
        (⟨c, s, r, s', w'.failed, w'.threads⟩ : Entry F))
      rcases List.eq_nil_or_concat b with rfl | ⟨b, y, rfl⟩
      · obtain ⟨-, hx⟩ := List.append_inj' hes rfl
        injection hx with hx
        rw [hserved.threads hbefore] at hrun
        rw [← hx] at hstops
        exact ((outcome_clean_iff hrun).mpr (hclean _ hlast) hstops (hreturned _ hlast)).1
      · rw [List.concat_eq_append, ← List.cons_append, ← List.append_assoc] at hes
        obtain ⟨hes, hy⟩ := List.append_inj' hes rfl
        injection hy with hy
        have hs : s = .stopped := by
          refine ih hbefore (fun z hz => hclean z (List.mem_append_left _ hz)) ?_
          exact ⟨a, x, b, hes, hstops, fun z hz => hstarts z (by simp [hz])⟩
        subst hs
        have hnot := hstarts y (by simp)
        rw [← hy] at hnot
        cases c with
        | start settings => exact absurd ⟨settings, rfl⟩ hnot
        | render settings baseTime buffer =>
            obtain ⟨hx, -⟩ := outcome_ret hrun
            injection hx
        | stop settings =>
            obtain ⟨hx, -⟩ := outcome_ret hrun
            injection hx

/-- A run up to one of its calls. -/
theorem Served.split (h : Served checks daysToSeconds es s n) :
    ∀ {es₁ y es₂}, es = es₁ ++ y :: es₂ → ∃ n₁ w', (∀ x ∈ es₁, x.Returned) ∧
      Served checks daysToSeconds es₁ y.before n₁ ∧
      Outcome house (y.call.program checks daysToSeconds y.before) ⟨false, n₁⟩
        (y.result, y.after) w' := by
  induction h with
  | nil =>
      intro es₁ y es₂ hes
      exact absurd (congrArg List.length hes) (by simp)
  | @call es s n c r s' w' hserved hbefore hrun ih =>
      intro es₁ y es₂ hes
      rcases List.eq_nil_or_concat es₂ with rfl | ⟨es₂, z, rfl⟩
      · obtain ⟨rfl, hy⟩ := List.append_inj' hes rfl
        injection hy with hy
        subst hy
        exact ⟨n, w', hbefore, hserved, hrun⟩
      · rw [List.concat_eq_append, ← List.cons_append, ← List.append_assoc] at hes
        exact ih (List.append_inj' hes rfl).1

/-- In a run, every stop that returns leaves the element stopped and has told the thread to
end exactly when every stop is clean. Then no start behind one panics. -/
theorem stop_restartable_iff (h : Served checks daysToSeconds es s n) :
    ((∀ x ∈ es, x.Stops → x.Returned → x.after = .stopped ∧ x.threads = 0) ↔
      ∀ x ∈ es, x.Clean) ∧
    ((∀ x ∈ es, x.Clean) → ∀ es₁ y es₂, es = es₁ ++ y :: es₂ → StoppedSince es₁ →
      y.Starts → y.Returned) := by
  constructor
  · constructor
    · exact fun hall x hx => (h.clean_iff x hx).mp (hall x hx)
    · exact fun hall x hx => (h.clean_iff x hx).mpr (hall x hx)
  · rintro hclean es₁ y es₂ rfl hsince ⟨settings, hcall⟩
    obtain ⟨n₁, w', hreturned, hserved, hrun⟩ := h.split rfl
    have hstopped := hserved.stopped hreturned
      (fun x hx => hclean x (List.mem_append_left _ hx)) hsince
    have hthreads := hserved.threads hreturned
    rw [hstopped] at hthreads
    rw [hcall, hstopped, hthreads] at hrun
    exact (house_outcome house_start hrun).1

/-- The camera, with a retention thread. -/
def keptSettings : Settings Unit :=
  { cameraSettings with retentionType := .bytes, retentionBytes := some 1000000 }

/-- A client that does what it is asked, but may refuse to flush. -/
def House.answer (refuses : Bool) : (c : SinkCmd) → House → c.Res × House
  | .seekToTail _, w => ((0 : Nat), w)
  | .append .., w => (Except.ok (), w)
  | .flush _, w =>
      if refuses then (Except.error ⟨.other, "connection lost"⟩, { w with failed := true })
      else (Except.ok (), w)
  | .seal _, w => (Except.ok (), w)
  | .createClientConfig .., w => (Except.ok (), w)
  | .createScope _, w => (Except.ok (), w)
  | .createStream .., w => (Except.ok (), w)
  | .spawnRetention .., w => ((), { w with threads := w.threads + 1 })
  | .joinRetention, w => ((), { w with threads := w.threads - 1 })

theorem House.answer_exec (refuses : Bool) (c : SinkCmd) (w : House) :
    House.Exec c w (House.answer refuses c w).1 (House.answer refuses c w).2 := by
  cases c
  case flush s =>
    cases refuses with
    | true => exact rfl
    | false => exact rfl
  all_goals exact rfl

theorem house_run {refuses : Bool} {x : Except Failure Unit × State}
    (h : run (House.answer refuses) (c.program checks daysToSeconds s) ⟨false, n⟩ = (x, w')) :
    Outcome house (c.program checks daysToSeconds s) ⟨false, n⟩ x w' := by
  have hrun := outcome_run (A := house) (House.answer_exec refuses)
    (c.program checks daysToSeconds s) ⟨false, n⟩
  rw [h] at hrun
  exact hrun

def keptStarted : Started := Started.new (128 * 1024) 0 true

def keptStart : Entry Unit :=
  ⟨.start keptSettings, .stopped, .ok (), .started keptStarted, false, 1⟩

theorem run_keptStart :
    run (House.answer false) (start (fun _ => 0) keptSettings .stopped) ⟨false, 0⟩ =
      ((.ok (), .started keptStarted), ⟨false, 1⟩) := by decide +kernel

theorem served_keptStart :
    Served true (fun _ => 0) [keptStart] (.started keptStarted) 1 :=
  Served.call (c := .start keptSettings) .nil (fun _ hx => absurd hx List.not_mem_nil)
    (house_run run_keptStart)

/-- It is stopped, and started again. -/
def restarted : List (Entry Unit) :=
  [keptStart, ⟨.stop keptSettings, .started keptStarted, .ok (), .stopped, false, 0⟩,
    keptStart]

theorem stop_restartable_iff_restarted :
    ((∀ x ∈ restarted, x.Stops → x.Returned → x.after = .stopped ∧ x.threads = 0) ↔
      ∀ x ∈ restarted, x.Clean) ∧
    ((∀ x ∈ restarted, x.Clean) → ∀ es₁ y es₂, restarted = es₁ ++ y :: es₂ →
      StoppedSince es₁ → y.Starts → y.Returned) := by
  have hstop : run (House.answer false) (stop keptSettings (.started keptStarted))
      ⟨false, 1⟩ = ((.ok (), .stopped), ⟨false, 0⟩) := by decide +kernel
  have hstopped := Served.call (c := .stop keptSettings) served_keptStart
    (by simp [Entry.Returned, keptStart]) (house_run hstop)
  exact stop_restartable_iff (Served.call (c := .start keptSettings) hstopped
    (by simp [Entry.Returned, keptStart]) (house_run run_keptStart))

/-- The flush of its stop is refused, and it is started again. -/
def refused : List (Entry Unit) :=
  [keptStart,
    ⟨.stop keptSettings, .started keptStarted,
      .error (.error .resourceWrite "Failed to flush Pravega data stream: connection lost"),
      .started keptStarted, true, 1⟩,
    ⟨.start keptSettings, .started keptStarted, .error .panicked, .started keptStarted,
      false, 1⟩]

theorem served_refused : Served true (fun _ => 0) refused (.started keptStarted) 1 := by
  have hstop : run (House.answer true) (stop keptSettings (.started keptStarted))
      ⟨false, 1⟩ =
      ((.error (.error .resourceWrite "Failed to flush Pravega data stream: connection lost"),
        .started keptStarted), ⟨true, 1⟩) := by decide +kernel
  have hstart : run (House.answer true) (start (fun _ => 0) keptSettings
      (.started keptStarted)) ⟨false, 1⟩ =
      ((.error .panicked, .started keptStarted), ⟨false, 1⟩) := by decide +kernel
  have hstopped := Served.call (c := .stop keptSettings) served_keptStart
    (by simp [Entry.Returned, keptStart]) (house_run hstop)
  exact Served.call (c := .start keptSettings) hstopped
    (by simp [Entry.Returned, keptStart]) (house_run hstart)

/-- The stop returns with the element started and its thread running, and the start behind
it panics. -/
theorem stop_not_restartable :
    (¬ ∀ (es : List (Entry Unit)) (s : State) (n : Nat),
      Served true (fun _ => 0) es s n →
      ∀ x ∈ es, x.Stops → x.Returned → x.after = .stopped ∧ x.threads = 0) ∧
    ¬ ∀ (es : List (Entry Unit)) (s : State) (n : Nat),
      Served true (fun _ => 0) es s n →
      ∀ es₁ y es₂, es = es₁ ++ y :: es₂ → StoppedSince es₁ → y.Starts → y.Returned := by
  constructor
  · intro hall
    have hstop := hall refused _ _ served_refused _
      (List.mem_cons_of_mem _ List.mem_cons_self) ⟨keptSettings, rfl⟩ (by simp [Entry.Returned])
    exact absurd hstop.2 (by decide)
  · intro hall
    have hreturned := hall refused _ _ served_refused (refused.take 2) _ [] rfl
      ⟨[keptStart], _, [], rfl, ⟨keptSettings, rfl⟩, by simp⟩ ⟨keptSettings, rfl⟩
    exact hreturned rfl

end Runs

end GstPravega.Plugin.PravegaSink
