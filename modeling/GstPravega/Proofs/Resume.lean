import GstPravega.Proofs.Recovery

/-!
# The start after a crash

`start` touches neither the buffers nor an inserted record; what a session leaves is
therefore what its buffers leave (`session_visits`). The first start that finds the
record of a session counts one attempt and sends the sources to where the record says.
-/

namespace GstPravega.Plugin.PravegaTC

open GstPravega.Lib GstPravega.Gst GstPravega.Video GstPravega.Lib.Program

/-! ## What `start` leaves alone -/

/-- A command of `start`. -/
def Quiet : TcCmd → Prop
  | .push _ => False
  | .insert _ => False
  | _ => True

section Quiet

variable {checks : Bool} {settings : Settings} {env : Option UInt64}

theorem everyE_command {α : Type} {G : TcCmd → Prop} {Q : α → Prop} {c : TcCmd}
    {k : c.Res → StartM α} (hc : G c) (hk : ∀ r, EveryE G Q (k r)) :
    EveryE G Q (StartM.command c k) := ⟨hc, hk⟩

theorem everyE_require {G : TcCmd → Prop} {Q : String → Prop} {value : Option String}
    {message : String} (h : ∀ a, Q a) : EveryE G Q (StartM.require value message) := by
  cases value with
  | none => exact everyE_throw
  | some a => exact everyE_pure (h a)

theorem everyE_checked {α : Type} {G : TcCmd → Prop} {Q : α → Prop} {value : Option α}
    (h : ∀ a, Q a) : EveryE G Q (StartM.checked value) := by
  cases value with
  | none => exact everyE_throw
  | some a => exact everyE_pure (h a)

theorem every_setStarts {G : TcCmd → Prop} {startMode : String} {startTimestamp : UInt64}
    (hG : ∀ child, G (.setStart child startMode startTimestamp))
    (names : List String) (child : Nat) :
    EveryE G (fun _ => True) (setStarts startMode startTimestamp child names) := by
  induction names generalizing child with
  | nil => exact everyE_pure trivial
  | cons typeName rest ih =>
      rw [setStarts]
      split
      · exact everyE_command (hG child) fun _ =>
          everyE_bind ((ih (child + 1)).mono fun _ _ => everyE_pure trivial)
      · exact ih (child + 1)

theorem every_resume {s : PersistentState} {version : Nat} :
    EveryE Quiet (fun _ => True) (resume checks s version) := by
  refine everyE_bind (everyE_checked fun count => ?_)
  refine everyE_bind (everyE_command trivial fun r => ?_)
  cases r with
  | error e => exact everyE_throw
  | ok u =>
      refine everyE_pure ?_
      refine everyE_bind (everyE_checked fun delta => ?_)
      refine everyE_bind (everyE_checked fun resumeAtPts => ?_)
      refine everyE_bind (everyE_checked fun startTimestamp => ?_)
      refine everyE_bind (everyE_command trivial fun names => ?_)
      refine (every_setStarts (fun _ => trivial) names 0).mono fun found _ => ?_
      cases found with
      | true => exact everyE_pure trivial
      | false => exact everyE_throw

theorem every_startStopped :
    EveryE Quiet (fun st => st = ⟨none, .none⟩) (startStopped checks settings) := by
  refine everyE_bind (everyE_require fun scope => ?_)
  refine everyE_bind (everyE_require fun table => ?_)
  refine everyE_bind (everyE_require fun controller => ?_)
  refine everyE_bind (everyE_command trivial fun r => ?_)
  cases r with
  | error e => exact everyE_throw
  | ok u =>
      refine everyE_pure ?_
      refine everyE_bind (everyE_command trivial fun _ => everyE_pure ?_)
      refine everyE_bind (everyE_command trivial fun r => ?_)
      cases r with
      | error e => exact everyE_throw
      | ok found =>
          refine everyE_pure ?_
          cases found with
          | none => exact everyE_pure rfl
          | some x => exact everyE_bind (every_resume.mono fun _ _ => everyE_pure rfl)

theorem every_start : Every Quiet
    (fun x => x.1 = .ok () → x.2 = ⟨settings.withFault env, .started ⟨none, .none⟩⟩)
    (start checks env ⟨settings, .stopped⟩) := by
  refine every_bind (Every.mono every_startStopped fun r hr => ?_)
  cases r with
  | error e => exact fun h => nomatch h
  | ok st =>
      rw [hr st rfl]
      exact fun _ => rfl

end Quiet

/-! ## A session -/

section Session

variable {buffers : List Buffer} {period : UInt64} {checks : Bool} {env : Option UInt64}
  {settings : Settings} {w w₀ : World}

theorem exec_quiet {c : TcCmd} {r : c.Res} {w' : World} (hc : Quiet c) (h : Idle w)
    (hexec : World.Exec c w r w') : Idle w' := by
  cases c with
  | createClientConfig controller keycloakFile => exact hexec ▸ h
  | createTable scope table => exact hexec ▸ h
  | get => exact hexec.1 ▸ h
  | insertConditionally s version =>
      rcases hexec with ⟨_, _, v, rfl⟩ | ⟨_, rfl | ⟨v, rfl⟩⟩
      · exact h
      · exact h
      · exact h
  | insert s => cases hc
  | push buffer => cases hc
  | children => exact hexec.1 ▸ h
  | setStart child startMode startTimestamp =>
      rw [show w' = w.setStart child startMode startTimestamp from hexec]
      exact h

theorem safe_session (hperiod : settings.recordPeriod = some period)
    (hspaced : Spaced buffers) (hfits : Fits buffers) (hidle : Idle w₀) :
    Safe (arena (Inv buffers period)) (session checks env buffers ⟨settings, .stopped⟩)
      (fun x w => x.1 = .ok () → Past w) w₀ := by
  refine safe_bind (Safe.mono (every_start.safe hidle ?_ ?_) ?_)
  · rintro w _ h rfl _
    exact h
  · intro c w r w' hc h _ hexec
    have h' := exec_quiet hc h hexec
    exact ⟨h', h'.view.inv, trivial⟩
  · rintro ⟨_ | ⟨⟩, self⟩ w ⟨hself, h⟩
    · exact alone_ret fun hok => nomatch hok
    · rw [show self = _ from hself rfl]
      have hperiod' : (settings.withFault env).recordPeriod = some period := by
        cases env with
        | none => exact hperiod
        | some pts => exact hperiod
      refine safe_bind (Safe.mono (safe_chain hperiod' hfits h.view) ?_)
      rintro ⟨r, self⟩ w ⟨st, hself, hended⟩
      obtain rfl : self = ⟨settings.withFault env, .started st⟩ := hself
      have hstop := safe_stop (settings.withFault env) hspaced hfits hended
      rcases r with (_ | _ | _ | _ | _) | ⟨⟩
      · exact hstop
      · exact hstop
      · exact hstop
      · exact alone_ret fun hok => nomatch hok
      · exact hstop
      · exact hstop

end Session

/-! ## The next start -/

/-- The element of the pipeline once the sources are set. -/
def Child.sendTo (startMode : String) (startTimestamp : UInt64) (child : Child) : Child :=
  if child.typeName = "PravegaSrc" then
    { child with startMode := startMode, startTimestamp := startTimestamp }
  else child

section Next

variable {checks : Bool} {w : World}

theorem modify_length {α : Type} (f : α → α) (xs : List α) (a : α) (ys : List α) :
    (xs ++ a :: ys).modify xs.length f = xs ++ f a :: ys := by
  induction xs with
  | nil => rfl
  | cons x xs ih => rw [List.cons_append, List.length_cons, List.modify_succ_cons, ih]; rfl

theorem setStart_children (startMode : String) (startTimestamp : UInt64)
    {done todo : List Child} {child : Child} (hw : w.children = done ++ child :: todo) :
    (w.setStart done.length startMode startTimestamp).children = done ++
      { child with startMode := startMode, startTimestamp := startTimestamp } :: todo := by
  rw [World.setStart, hw]
  exact modify_length _ done child todo

/-- The loop sets the sources that are left. -/
theorem safeE_setStarts {startMode : String} {startTimestamp : UInt64} (todo : List Child) :
    ∀ (done : List Child) (w : World), w.children = done ++ todo →
      SafeE (arena fun _ => True)
        (setStarts startMode startTimestamp done.length (todo.map Child.typeName))
        (fun _ w' => w'.table = w.table ∧
          w'.children = done ++ todo.map (Child.sendTo startMode startTimestamp)) w := by
  induction todo with
  | nil =>
      intro done w hw
      exact aloneE_pure ⟨rfl, hw⟩
  | cons child todo ih =>
      intro done w hw
      rw [List.map_cons, setStarts]
      by_cases hsrc : child.typeName = "PravegaSrc"
      · rw [if_pos hsrc]
        refine alone_call ?_
        rintro _ w₁ rfl
        refine ⟨trivial, safeE_bind ?_⟩
        have hset := setStart_children startMode startTimestamp hw
        rw [List.append_cons] at hset
        have hrest := ih _ _ hset
        rw [List.length_append, List.length_singleton] at hrest
        refine hrest.mono fun _ w₂ h => aloneE_pure ?_
        rw [List.map_cons, Child.sendTo, if_pos hsrc, List.append_cons]
        exact h
      · rw [if_neg hsrc]
        rw [List.append_cons] at hw
        have hrest := ih _ _ hw
        rw [List.length_append, List.length_singleton] at hrest
        rw [List.map_cons, Child.sendTo, if_neg hsrc, List.append_cons]
        exact hrest

theorem safeE_command {α : Type} {c : TcCmd} {k : c.Res → StartM α} {Q : α → World → Prop}
    (h : ∀ r w', World.Exec c w r w' → SafeE (arena fun _ => True) (k r) Q w') :
    SafeE (arena fun _ => True) (StartM.command c k) Q w :=
  alone_call fun r w' hexec => ⟨trivial, h r w' hexec⟩

theorem resumeTimeDelta_one : resumeTimeDelta checks 1 = some (⟨some 0⟩, "timestamp-exact") := by
  have hmul : TimeDelta.mul checks 0 SECOND = some ⟨some 0⟩ :=
    TimeDelta.mul_of_range (by decide) (by decide)
  rw [resumeTimeDelta, hmul]
  rfl

theorem add_zero_delta (r : UInt64) :
    PravegaTimestamp.add checks (PravegaTimestamp.fromNanoseconds (some r)) ⟨some 0⟩ =
      some ⟨some r⟩ := by
  have hadd := @PravegaTimestamp.add_of_lt checks r 0 r.toNat_lt
  rw [Nat.add_zero, UInt64.ofNat_toNat] at hadd
  exact hadd

section Alone

variable {α σ : Type} {exec : (c : TcCmd) → σ → c.Res → σ → Prop} {inv : σ → Prop} {s : σ}
  {value : Option α} {Q : α → σ → Prop}

theorem safeE_checked (h : ∀ a, value = some a → Q a s) :
    SafeE (alone exec inv) (StartM.checked value) Q s := by
  cases value with
  | none => exact safeE_throw
  | some a => exact aloneE_pure (h a rfl)

theorem safeE_require {value : Option String} {message : String} {Q : String → σ → Prop}
    (h : ∀ a, Q a s) : SafeE (alone exec inv) (StartM.require value message) Q s := by
  cases value with
  | none => exact safeE_throw
  | some a => exact aloneE_pure (h a)

end Alone

/-- What a start computes from the record, none of which panics: the count it writes, and
where the sources are sent and how. -/
def ResumesAt (checks : Bool) (s : PersistentState) (n t : UInt64) (startMode : String) : Prop :=
  u64Add checks (s.resumeCount.getD 0) 1 = some n ∧
    ∃ delta, resumeTimeDelta checks n = some (delta, startMode) ∧
      PravegaTimestamp.add checks (PravegaTimestamp.fromNanoseconds (some s.resumeAtPts)) delta =
        some ⟨some t⟩

/-- What it leaves. -/
def Resumed (s : PersistentState) (n t : UInt64) (startMode : String) (children : List Child)
    (w : World) : Prop :=
  (∃ v, w.table = some ({ s with resumeCount := some n }, v)) ∧
    w.children = children.map (Child.sendTo startMode t)

theorem ResumesAt.unique {s : PersistentState} {n n' t t' : UInt64} {startMode startMode' : String}
    (h : ResumesAt checks s n t startMode) (h' : ResumesAt checks s n' t' startMode') :
    n = n' ∧ t = t' ∧ startMode = startMode' := by
  obtain ⟨hn, delta, hdelta, hsum⟩ := h
  obtain ⟨hn', delta', hdelta', hsum'⟩ := h'
  obtain rfl := Option.some.inj (hn.symm.trans hn')
  obtain ⟨rfl, rfl⟩ := Prod.mk.inj (Option.some.inj (hdelta.symm.trans hdelta'))
  cases hsum.symm.trans hsum'
  exact ⟨rfl, rfl, rfl⟩

theorem resumesAt_first {s : PersistentState} (h : s.resumeCount.getD 0 = 0) :
    ResumesAt checks s 1 s.resumeAtPts "timestamp-exact" := by
  have hcount : u64Add checks 0 1 = some 1 := u64Add_of_lt (by decide)
  rw [← h] at hcount
  exact ⟨hcount, _, resumeTimeDelta_one, add_zero_delta s.resumeAtPts⟩

/-- What the first start behind a record `r` is to do. -/
def Sent (r : UInt64) (children : List Child) (w : World) : Prop :=
  (∃ v, w.table = some (⟨r, some 1⟩, v)) ∧
    w.children = children.map (Child.sendTo "timestamp-exact" r)

/-- What there is to show of `resume`: its insert, and the loop behind one that succeeds. -/
theorem safeE_resume_at {σ : Type} {exec : (c : TcCmd) → σ → c.Res → σ → Prop} {inv : σ → Prop}
    {x : σ} {s : PersistentState} {version : Nat} {Q : Unit → σ → Prop}
    (h : ∀ n, u64Add checks (s.resumeCount.getD 0) 1 = some n → ∀ r y,
      exec (.insertConditionally { s with resumeCount := some n } version) x r y →
      inv y ∧ (r = .ok () → ∀ t startMode, ResumesAt checks s n t startMode →
        ∀ names z, exec .children y names z → inv z ∧
          SafeE (alone exec inv) (setStarts startMode t 0 names) (fun _ z => Q () z) z)) :
    SafeE (alone exec inv) (resume checks s version) Q x := by
  refine safeE_bind (safeE_checked fun n hn => ?_)
  refine safeE_bind (alone_call fun r y hexec => ?_)
  obtain ⟨hy, hok⟩ := h n hn r y hexec
  refine ⟨hy, ?_⟩
  cases r with
  | error e => exact safeE_throw
  | ok u =>
      refine aloneE_pure ?_
      refine safeE_bind (safeE_checked fun x hdelta => ?_)
      obtain ⟨delta, startMode⟩ := x
      refine safeE_bind (safeE_checked fun resumeAtPts hsum => ?_)
      refine safeE_bind (safeE_checked fun t ht => ?_)
      obtain ⟨_⟩ := resumeAtPts
      obtain rfl : _ = some t := ht
      refine safeE_bind (alone_call fun names z hexec => ?_)
      obtain ⟨hz, hsets⟩ := hok rfl t startMode ⟨hn, delta, hdelta, hsum⟩ names z hexec
      refine ⟨hz, hsets.mono fun found w hfound => ?_⟩
      cases found with
      | true => exact aloneE_pure hfound
      | false => exact safeE_throw

theorem safeE_resume_of {σ : Type} {exec : (c : TcCmd) → σ → c.Res → σ → Prop} {inv : σ → Prop}
    {x : σ} {s : PersistentState} {version : Nat} {Q : Unit → σ → Prop}
    (h : ∀ n r y, exec (.insertConditionally { s with resumeCount := some n } version) x r y →
      inv y ∧ (r = .ok () → ∀ t startMode, ResumesAt checks s n t startMode →
        ∀ names z, exec .children y names z → inv z ∧
          SafeE (alone exec inv) (setStarts startMode t 0 names) (fun _ z => Q () z) z)) :
    SafeE (alone exec inv) (resume checks s version) Q x :=
  safeE_resume_at fun n _ => h n

theorem safeE_resume {s : PersistentState} {version : Nat} :
    SafeE (arena fun _ => True) (resume checks s version)
      (fun _ w' => ∃ n t startMode, ResumesAt checks s n t startMode ∧
        Resumed s n t startMode w.children w') w := by
  refine safeE_resume_of fun n r w₁ hexec => ⟨trivial, ?_⟩
  intro hok t startMode hresumes names w₂ hchildren
  obtain ⟨rfl, rfl⟩ := hchildren
  refine ⟨trivial, ?_⟩
  rcases hexec with ⟨-, _, v, rfl⟩ | ⟨⟨e, he⟩, -⟩
  · have hsets := @safeE_setStarts startMode t w.children []
      (w.put { s with resumeCount := some n } v) rfl
    exact hsets.mono fun _ _ hset => ⟨n, t, startMode, hresumes, ⟨v, hset.1⟩, hset.2⟩
  · cases hok.symm.trans he

variable {settings : Settings}

theorem safeE_startStopped {s : PersistentState} {version : Nat}
    (htable : w.table = some (s, version)) :
    SafeE (arena fun _ => True) (startStopped checks settings)
      (fun _ w' => ∃ n t startMode, ResumesAt checks s n t startMode ∧
        Resumed s n t startMode w.children w') w := by
  refine safeE_bind (safeE_require fun scope => ?_)
  refine safeE_bind (safeE_require fun table => ?_)
  refine safeE_bind (safeE_require fun controller => ?_)
  refine safeE_bind (safeE_command fun res w₁ hexec => ?_)
  obtain rfl : w₁ = w := hexec
  rcases res with e | ⟨⟩
  · exact safeE_throw
  · refine aloneE_pure (safeE_bind (safeE_command fun _ w₂ hexec => aloneE_pure ?_))
    obtain rfl : w₂ = w₁ := hexec
    refine safeE_bind (safeE_command fun res w₃ hexec => ?_)
    obtain ⟨rfl, rfl | ⟨e, rfl⟩⟩ := hexec
    · refine aloneE_pure ?_
      rw [htable]
      exact safeE_bind (safeE_resume.mono fun _ w₄ h => aloneE_pure h)
    · exact safeE_throw

/-- Every call succeeds. -/
def World.answer : (c : TcCmd) → World → c.Res × World
  | .createClientConfig .., w => (.ok (), w)
  | .createTable .., w => ((), w)
  | .get, w => (.ok w.table, w)
  | .insertConditionally s version, w =>
      if w.table.map Prod.snd = some version then (.ok (), w.put s (version + 1))
      else (.error "", w)
  | .insert s, w => (.ok (), { w.put s 0 with inserted := true })
  | .push buffer, w => (.ok (), w.push buffer)
  | .children, w => (w.children.map fun child => child.typeName, w)
  | .setStart i startMode startTimestamp, w => ((), w.setStart i startMode startTimestamp)

theorem exec_answer (c : TcCmd) (w : World) :
    World.Exec c w (World.answer c w).1 (World.answer c w).2 := by
  cases c with
  | createClientConfig controller keycloakFile => exact rfl
  | createTable scope table => exact rfl
  | get => exact ⟨rfl, Or.inl rfl⟩
  | insertConditionally s version =>
      rw [World.answer]
      split
      · next h =>
          obtain ⟨⟨s₀, v⟩, htable, rfl⟩ := Option.map_eq_some_iff.mp h
          exact Or.inl ⟨rfl, ⟨s₀, htable⟩, _, rfl⟩
      · exact Or.inr ⟨⟨_, rfl⟩, Or.inl rfl⟩
  | insert s => exact Or.inl ⟨rfl, 0, rfl⟩
  | push buffer => exact Or.inl ⟨rfl, rfl⟩
  | children => exact ⟨rfl, rfl⟩
  | setStart i startMode startTimestamp => exact rfl

/-- Ends well, when every call does. -/
def Succeeds {α : Type} (p : StartM α) (w : World) (Q : α → Prop) : Prop :=
  ∃ a w', Yields World.answer (fun _ _ => True) p.run w (.ok a) w' ∧ Q a

theorem succeeds_bind {α β : Type} {p : StartM α} {f : α → StartM β} {Q : β → Prop}
    {a : α} {w' : World} (hp : Yields World.answer (fun _ _ => True) p.run w (.ok a) w')
    (hf : Succeeds (f a) w' Q) : Succeeds (p >>= f) w Q := by
  obtain ⟨b, w'', hyields, hb⟩ := hf
  exact ⟨b, w'', Yields.bindE hp hyields, hb⟩

theorem yields_checked {α : Type} {value : Option α} {a : α} (h : value = some a) :
    Yields World.answer (fun _ _ => True) (StartM.checked value).run w (.ok a) w := by
  rw [h]
  exact yields_ret

theorem succeeds_setStarts {startMode : String} {startTimestamp : UInt64}
    (names : List String) : ∀ (child : Nat) (w : World),
      Succeeds (setStarts startMode startTimestamp child names) w
        fun found => "PravegaSrc" ∈ names → found = true := by
  induction names with
  | nil => exact fun _ w => ⟨false, w, yields_ret, fun h => absurd h List.not_mem_nil⟩
  | cons typeName rest ih =>
      intro child w
      rw [setStarts]
      by_cases hsrc : typeName = "PravegaSrc"
      · rw [if_pos hsrc]
        obtain ⟨_, w', hyields, _⟩ :=
          ih (child + 1) (w.setStart child startMode startTimestamp)
        exact ⟨true, w', yields_call trivial (Yields.bindE hyields yields_ret), fun _ => rfl⟩
      · rw [if_neg hsrc]
        obtain ⟨found, w', hyields, hfound⟩ := ih (child + 1) w
        refine ⟨found, w', hyields, fun h => hfound ?_⟩
        exact (List.mem_cons.mp h).resolve_left (Ne.symm hsrc)

variable {s : PersistentState} {n t : UInt64} {startMode : String} {version : Nat}

theorem succeeds_resume (h : ResumesAt checks s n t startMode)
    (htable : w.table = some (s, version))
    (hsrc : "PravegaSrc" ∈ w.children.map Child.typeName) :
    Succeeds (resume checks s version) w fun _ => True := by
  obtain ⟨hn, delta, hdelta, hsum⟩ := h
  have hput : World.answer (.insertConditionally { s with resumeCount := some n } version) w =
      (.ok (), w.put { s with resumeCount := some n } (version + 1)) := by
    simp [World.answer, htable]
  obtain ⟨found, w', hsets, hfound⟩ :=
    @succeeds_setStarts startMode t (w.children.map Child.typeName) 0
      (w.put { s with resumeCount := some n } (version + 1))
  refine succeeds_bind (yields_checked hn) ?_
  refine succeeds_bind (yields_call trivial (by rw [hput]; exact yields_ret)) ?_
  refine succeeds_bind (yields_checked hdelta) ?_
  refine succeeds_bind (yields_checked hsum) ?_
  refine succeeds_bind (yields_checked rfl) ?_
  refine succeeds_bind (yields_call trivial hsets) ?_
  rw [hfound hsrc]
  exact ⟨(), w', yields_ret, trivial⟩

theorem succeeds_startStopped (h : ResumesAt checks s n t startMode)
    {scope table controller : String}
    (hscope : settings.scope = some scope) (hsettings : settings.table = some table)
    (hcontroller : settings.controller = some controller)
    (htable : w.table = some (s, version))
    (hsrc : "PravegaSrc" ∈ w.children.map Child.typeName) :
    Succeeds (startStopped checks settings) w fun _ => True := by
  rw [startStopped, hscope, hsettings, hcontroller]
  refine succeeds_bind yields_ret (succeeds_bind yields_ret (succeeds_bind yields_ret ?_))
  refine succeeds_bind (yields_call trivial yields_ret) ?_
  refine succeeds_bind (yields_call trivial yields_ret) ?_
  refine succeeds_bind (yields_call trivial yields_ret) ?_
  have hfound : (World.answer (.createTable scope table) (World.answer
      (.createClientConfig controller settings.keycloakFile) w).2).2.table =
        some (s, version) := htable
  rw [hfound]
  obtain ⟨_, w', hresume, _⟩ := succeeds_resume h htable hsrc
  exact succeeds_bind hresume ⟨_, w', yields_ret, trivial⟩

theorem yields_start (h : ResumesAt checks s n t startMode) {env : Option UInt64}
    {scope table controller : String} (hscope : settings.scope = some scope)
    (hsettings : settings.table = some table)
    (hcontroller : settings.controller = some controller)
    (htable : w.table = some (s, version))
    (hsrc : "PravegaSrc" ∈ w.children.map Child.typeName) :
    ∃ self w', Yields World.answer (fun _ _ => True) (start checks env ⟨settings, .stopped⟩)
      w (.ok (), self) w' := by
  have hkeep : (settings.withFault env).scope = settings.scope ∧
      (settings.withFault env).table = settings.table ∧
      (settings.withFault env).controller = settings.controller := by
    cases env with
    | none => exact ⟨rfl, rfl, rfl⟩
    | some pts => exact ⟨rfl, rfl, rfl⟩
  obtain ⟨st, w', hyields, _⟩ := @succeeds_startStopped checks w (settings.withFault env)
    s n t startMode version h scope table controller (hkeep.1.trans hscope)
    (hkeep.2.1.trans hsettings) (hkeep.2.2.trans hcontroller) htable hsrc
  exact ⟨_, w', Yields.bind hyields yields_ret⟩

end Next

/-! ## The first recovery -/

/-- The program can return `a` and leave `w'`. -/
def Returns {α : Type} (p : TcProgram α) (w : World) (a : α) (w' : World) : Prop :=
  Outcome (arena fun _ => True) p w a w'

/-- What the next start makes of the table, in whatever pipeline: if it ends well it has
sent the sources to `r`, and it can end well where there is a source. -/
def FirstResume (r : UInt64) (table : Option (PersistentState × Nat)) : Prop :=
  ∀ (checks : Bool) (env : Option UInt64) (settings : Settings) (children : List Child),
    (∀ self w', Returns (start checks env ⟨settings, .stopped⟩)
        ⟨table, children, [], false⟩ (.ok (), self) w' → Sent r children w') ∧
      (settings.scope.isSome → settings.table.isSome → settings.controller.isSome →
        "PravegaSrc" ∈ children.map Child.typeName →
        ∃ self w', Returns (start checks env ⟨settings, .stopped⟩)
          ⟨table, children, [], false⟩ (.ok (), self) w')

theorem safe_start {checks : Bool} {env : Option UInt64} {settings : Settings} {w : World}
    {s : PersistentState} {version : Nat} (htable : w.table = some (s, version)) :
    Safe (arena fun _ => True) (start checks env ⟨settings, .stopped⟩)
      (fun x w' => x.1 = .ok () → ∃ n t startMode, ResumesAt checks s n t startMode ∧
        Resumed s n t startMode w.children w') w := by
  refine safe_bind (Safe.mono (safeE_startStopped htable) fun res w₁ h => ?_)
  cases res with
  | error e => exact alone_ret fun hok => nomatch hok
  | ok st => exact alone_ret fun _ => h st rfl

section Start

variable {checks : Bool} {env : Option UInt64} {settings : Settings} {children : List Child}
  {s : PersistentState} {n t : UInt64} {startMode : String} {version : Nat}

theorem resumed_of_returns {self : Element} {w' : World}
    (h : Returns (start checks env ⟨settings, .stopped⟩)
      ⟨some (s, version), children, [], false⟩ (.ok (), self) w') :
    ∃ n t startMode, ResumesAt checks s n t startMode ∧ Resumed s n t startMode children w' :=
  (Safe.outcome (fun _ _ _ _ => trivial) (safe_start rfl) trivial h).1 rfl

theorem returns_start (h : ResumesAt checks s n t startMode) (env : Option UInt64)
    (version : Nat) (hscope : settings.scope.isSome) (htable : settings.table.isSome)
    (hcontroller : settings.controller.isSome)
    (hsrc : "PravegaSrc" ∈ children.map Child.typeName) :
    ∃ self w', Returns (start checks env ⟨settings, .stopped⟩)
      ⟨some (s, version), children, [], false⟩ (.ok (), self) w' := by
  obtain ⟨scope, hscope⟩ := Option.isSome_iff_exists.mp hscope
  obtain ⟨table, htable⟩ := Option.isSome_iff_exists.mp htable
  obtain ⟨controller, hcontroller⟩ := Option.isSome_iff_exists.mp hcontroller
  obtain ⟨self, w', hrun, _⟩ := @yields_start checks
    ⟨some (s, version), children, [], false⟩ settings s n t startMode version h env scope table
    controller hscope htable hcontroller rfl hsrc
  have houtcome := outcome_run (A := arena fun _ => True) exec_answer
    (start checks env ⟨settings, .stopped⟩) ⟨some (s, version), children, [], false⟩
  rw [hrun] at houtcome
  exact ⟨self, w', houtcome⟩

end Start

theorem firstResume_of_record (r : UInt64) (version : Nat) :
    FirstResume r (some (⟨r, some 0⟩, version)) := by
  intro checks env settings children
  refine ⟨fun self w' hreturns => ?_,
    fun hscope htable hcontroller hsrc =>
      returns_start (resumesAt_first rfl) env version hscope htable hcontroller hsrc⟩
  obtain ⟨n, t, startMode, hresumes, hresumed⟩ := resumed_of_returns hreturns
  obtain ⟨rfl, rfl, rfl⟩ := hresumes.unique (resumesAt_first rfl)
  exact hresumed

theorem Idle.outcome {checks : Bool} {env : Option UInt64} {settings : Settings}
    {buffers : List Buffer} {period : UInt64} {w₀ w : World} {self : Element}
    (hperiod : settings.recordPeriod = some period) (hspaced : Spaced buffers)
    (hfits : Fits buffers) (h : Idle w₀)
    (hstop : Returns (session checks env buffers ⟨settings, .stopped⟩) w₀ (.ok (), self) w) :
    Past w := by
  have houtcome : Outcome (arena (Inv buffers period))
      (session checks env buffers ⟨settings, .stopped⟩) w₀ (.ok (), self) w := by
    refine Outcome.mono (A := arena fun _ => True) ?_ ?_ hstop
    · exact fun _ _ hw => hw
    · exact fun _ _ _ _ hexec => hexec
  refine (Safe.outcome ?_ (safe_session hperiod hspaced hfits h) h.view.inv houtcome).1 rfl
  rintro w _ hi rfl
  exact hi

/-- **The first recovery loses nothing and repeats little.** A process dies anywhere in
a session in which an insert succeeded. The next start resumes at a time `r` that is
behind a buffer that was pushed: no buffer still to be pushed begins before `r`, and of
those that were pushed and begin at `r` or later all but the last begin within the record
period of the recorded one. After a clean stop `r` is behind all that were pushed. -/
theorem first_recovery {checks : Bool} {env : Option UInt64} {settings : Settings}
    {buffers : List Buffer} {period : UInt64} {w₀ w : World}
    (hperiod : settings.recordPeriod = some period)
    (hspaced : Spaced buffers) (hfits : Fits buffers)
    (hpushed : w₀.pushed = []) (hfresh : w₀.inserted = false)
    (hcrash : Visits World.Exec (session checks env buffers ⟨settings, .stopped⟩) w₀ w)
    (hinserted : w.inserted = true) :
    ∃ (rest : List Buffer) (r : UInt64),
      buffers = w.pushed ++ rest ∧
      FirstResume r w.table ∧
      (∀ c ∈ rest, ∀ pts, c.pts = some pts → r ≤ pts) ∧
      (∃ b ∈ w.pushed, ∃ pts, b.pts = some pts ∧ span b = some (pts.toNat, r.toNat) ∧
        ∀ c ∈ w.pushed.dropLast, ∀ t, c.pts = some t → r ≤ t →
          t.toNat < pts.toNat + period.toNat) ∧
      ((∃ self, Returns (session checks env buffers ⟨settings, .stopped⟩) w₀
          (.ok (), self) w) →
        ∀ c ∈ w.pushed, ∀ t, c.pts = some t → t < r) := by
  have hidle : Idle w₀ := ⟨hpushed, hfresh⟩
  have hinv := (safe_session hperiod hspaced hfits hidle).visits hidle.view.inv hcrash
  obtain ⟨rest, hrest⟩ := hinv.pushed
  obtain ⟨pre, b, post, hrecord, hnear⟩ := hinv.recorded hinserted
  obtain ⟨x, v, hx, htable⟩ := hrecord.table
  obtain ⟨pts, hpts, hx12⟩ := span_eq_some.mp hx
  rw [hrecord.pushed, List.append_assoc, List.cons_append] at hrest
  have hlt : x.2 < 2 ^ 64 := by
    refine hfits x (List.mem_filterMap.mpr ⟨b, ?_, hx⟩)
    rw [hrest]
    exact List.mem_append_right _ List.mem_cons_self
  have hr : (UInt64.ofNat x.2).toNat = x.2 := by
    rw [UInt64.toNat_ofNat', Nat.mod_eq_of_lt hlt]
  have hspan : ∀ {c : Buffer} {t : UInt64}, c.pts = some t → ∃ y, span c = some y ∧
      y.1 = t.toNat := fun hc => ⟨_, span_eq_some.mpr ⟨_, hc, rfl⟩, rfl⟩
  refine ⟨rest, UInt64.ofNat x.2, ?_, ?_, ?_, ⟨b, ?_, pts, hpts, ?_, ?_⟩, ?_⟩
  · rw [hrest, hrecord.pushed, List.append_assoc, List.cons_append]
  · rw [htable]
    exact firstResume_of_record _ v
  · intro c hc t ht
    obtain ⟨y, hy, hyt⟩ := hspan ht
    rw [hrest] at hspaced
    have hle := hspaced.le hx (List.mem_append_right post hc) hy
    rw [UInt64.le_iff_toNat_le, hr]
    omega
  · rw [hrecord.pushed]
    exact List.mem_append_right _ List.mem_cons_self
  · rw [hx, hr, ← hx12]
  · intro c hc t ht hle
    obtain ⟨y, hy, hyt⟩ := hspan ht
    rw [UInt64.le_iff_toNat_le, hr] at hle
    have hy12 := span_lt hy
    have hx12' := span_lt hx
    rw [hrecord.pushed] at hc
    -- A buffer in front of the recorded one ends before `r`.
    have hpre : c ∉ pre := by
      intro hc
      obtain ⟨l, m, rfl⟩ := List.append_of_mem hc
      rw [List.append_assoc, List.cons_append] at hrest
      rw [hrest] at hspaced
      have := hspaced.le hy (List.mem_append_right m List.mem_cons_self) hx
      omega
    have hpost : c ∈ post.dropLast := by
      rw [List.dropLast_append_of_ne_nil (List.cons_ne_nil b post)] at hc
      have hc := (List.mem_append.mp hc).resolve_left hpre
      cases post with
      | nil => cases hc
      | cons p ps =>
          rw [List.dropLast_cons_cons] at hc
          rcases List.mem_cons.mp hc with rfl | hc
          · rw [hx] at hy
            obtain rfl := Option.some.inj hy
            omega
          · exact hc
    have hnear := hnear x hx c hpost y hy
    rw [← hx12] at hnear
    omega
  · rintro ⟨self, hstop⟩ c hc t ht
    obtain ⟨y, hy, hyt⟩ := hspan ht
    obtain ⟨r, v', htable', hlt'⟩ := hidle.outcome hperiod hspaced hfits hstop c hc y hy
    rw [htable] at htable'
    cases htable'
    rw [UInt64.lt_iff_toNat_lt]
    omega

/-- The settings of the tests, with all that a start needs. -/
def examplesSettings : Settings :=
  { Settings.default with scope := some "examples", table := some "recovery" }

/-- Video with a buffer each two thirds of a second, and one that has no time. -/
def examplesBuffers : List Buffer :=
  [some 0, some 666666667, none, some 1333333334].map fun pts : ClockTime =>
    ⟨pts.store, some 666666667, BufferFlags.empty, [], true, none, none⟩

/-- The last of them has been pushed and was not recorded yet. -/
def examplesCrash : World where
  table := some (⟨666666667, some 0⟩, 0)
  children := []
  pushed := examplesBuffers
  inserted := true

theorem first_recovery_examples :
    ∃ r, FirstResume r examplesCrash.table ∧
      ∃ b ∈ examplesBuffers, ∃ pts, span b = some (pts, r.toNat) := by
  have hcrash : Visits World.Exec
      (session true none examplesBuffers ⟨examplesSettings, .stopped⟩)
      ⟨none, [], [], false⟩ examplesCrash := by
    refine visits_of_mem_calls (x := (.insert ⟨2000000001, some 0⟩, examplesCrash))
      exec_answer ?_
    decide +kernel
  have hspaced : Spaced examplesBuffers := by
    rw [Spaced]
    decide
  have hfits : Fits examplesBuffers := by
    rw [Fits]
    decide
  obtain ⟨_, r, _, hresume, _, ⟨b, hb, pts, _, hspan, _⟩, _⟩ :=
    first_recovery rfl hspaced hfits rfl rfl hcrash rfl
  exact ⟨r, hresume, b, hb, _, hspan⟩

end GstPravega.Plugin.PravegaTC
