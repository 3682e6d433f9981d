import GstPravega.Proofs.Resume

/-!
# When a start skips ahead

A record counts the starts that resumed from it, whatever became of them. What sets
the count back is an insert, and of inserts there are two: behind a buffer that has a
PTS, and at a stop behind such a buffer. A start that is stopped again before any came
has therefore failed as far as the next one can see.

`Tally` is what holds of the table at every moment of one attempt, next to the commands
that were issued in it. Over a history of attempts it says that a count that is not
zero is the count of an attempt (`Accounted`), and that this one has failed, as long as
none ended well that had no buffer to record.
-/

namespace GstPravega.Plugin.PravegaTC

open GstPravega.Lib GstPravega.Gst GstPravega.Video GstPravega.Lib.Program

abbrev Table := Option (PersistentState × Nat)

/-- The count of a record, `unwrap_or_default`. -/
def PersistentState.attempts (s : PersistentState) : UInt64 := s.resumeCount.getD 0

/-! ## Histories -/

/-- What there is to say of a run of the element: the table it began with, the commands it
issued, the buffers it pushed with success, and whether it ended in a failure. -/
structure Attempt where
  found : Table
  issued : List TcCmd
  pushed : List Buffer
  failed : Bool

/-- It was counted as resuming from `r`. -/
def Attempt.ResumesFrom (a : Attempt) (r : UInt64) : Prop :=
  ∃ s version, .insertConditionally s version ∈ a.issued ∧ s.resumeAtPts = r

/-- One of the buffers has a PTS. -/
def Timed (buffers : List Buffer) : Prop := ∃ b ∈ buffers, b.pts.isSome

/-- Unless it failed, or began without a record, it pushed a buffer that can be recorded. -/
def Attempt.Recorded (a : Attempt) : Prop :=
  a.failed = false → a.found.isSome → Timed a.pushed

/-- A new process, on a table. -/
def fresh (table : Table) (children : List Child) : World × List TcCmd :=
  (⟨table, children, [], false⟩, [])

/-- The program can return `a`. -/
def Gives {α : Type} (p : TcProgram α) (x : World × List TcCmd) (a : α)
    (y : World × List TcCmd) : Prop :=
  Outcome (alone (logged World.Exec) fun _ => True) p x a y

/-- A run on a table, and the table it leaves. Wherever it is over, that may have been a
failure: the process died, or the last call reported one. It ended well where all calls
did, and it may have where the element downstream took no more buffers. -/
inductive Attempted (checks : Bool) (table : Table) : Attempt → Table → Prop where
  | fails {env settings buffers children x} :
      Visits (logged World.Exec) (session checks env buffers ⟨settings, .stopped⟩)
        (fresh table children) x →
      Attempted checks table ⟨table, x.2, x.1.pushed, true⟩ x.1.table
  | stops {env settings buffers children self self' self'' r x y z} :
      Gives (start checks env ⟨settings, .stopped⟩) (fresh table children) (.ok (), self) x →
      Gives (chain checks buffers self) x (r, self') y →
      (r = .ok () ∨ ∃ e, r = .error (.downstream e)) →
      Gives (stop self') y (.ok (), self'') z →
      Attempted checks table ⟨table, z.2, z.1.pushed, false⟩ z.1.table

/-- Attempts one after the other, over one table. -/
inductive History (checks : Bool) : List Attempt → Table → Prop where
  | nil : History checks [] none
  | snoc {as table a table'} : History checks as table → Attempted checks table a table' →
      History checks (as ++ [a]) table'

/-- A start on the table sets a pravegasrc to begin at `t`. -/
def SetsStart (checks : Bool) (table : Table) (t : UInt64) : Prop :=
  ∃ env settings children x child startMode,
    Visits (logged World.Exec) (start checks env ⟨settings, .stopped⟩)
      (fresh table children) x ∧
    .setStart child startMode t ∈ x.2

/-! ## One attempt -/

/-- What has become of a record: nothing, or it was replaced by one that was not resumed
from, or it was counted. -/
inductive Kept (table : Table) (x : World × List TcCmd) : Prop where
  | same (h : x.1.table = table)
  | replaced (r : UInt64) (version : Nat) (h : x.1.table = some (⟨r, some 0⟩, version))
  | counted (s s' : PersistentState) (version version' version'' : Nat)
      (hfound : table = some (s, version)) (hsame : s'.resumeAtPts = s.resumeAtPts)
      (h : x.1.table = some (s', version'))
      (hissued : .insertConditionally s' version'' ∈ x.2)

structure Tally (table : Table) (x : World × List TcCmd) : Prop where
  kept : Kept table x
  /-- Where no attempt is on record the sources are sent to the record itself. -/
  sets : ∀ child startMode t, .setStart child startMode t ∈ x.2 →
    ∃ s version, table = some (s, version) ∧ (s.attempts = 0 → t = s.resumeAtPts)

abbrev ledger (table : Table) : Arena (World × List TcCmd) TcCmd TcCmd.Res :=
  alone (logged World.Exec) (Tally table)

section Attempt

variable {checks : Bool} {table : Table} {x y : World × List TcCmd} {c : TcCmd}

/-- A command that is none of those `Tally.sets` is about. -/
def SetsNone : TcCmd → Prop
  | .setStart .. => False
  | _ => True

theorem Tally.sets_snoc (h : Tally table x) (hissued : y.2 = x.2 ++ [c]) (hc : SetsNone c) :
    ∀ child startMode t, .setStart child startMode t ∈ y.2 →
      ∃ s version, table = some (s, version) ∧ (s.attempts = 0 → t = s.resumeAtPts) := by
  intro child startMode t hmem
  rw [hissued] at hmem
  rcases List.mem_append.mp hmem with hmem | hmem
  · exact h.sets child startMode t hmem
  · rw [← List.mem_singleton.mp hmem] at hc
    exact hc.elim

theorem Kept.snoc (h : Kept table x) (htable : y.1.table = x.1.table)
    (hissued : y.2 = x.2 ++ [c]) : Kept table y := by
  cases h with
  | same h => exact .same (htable.trans h)
  | replaced r version h => exact .replaced r version (htable.trans h)
  | counted s s' version version' version'' hfound hsame h hmem =>
      refine .counted s s' version version' version'' hfound hsame (htable.trans h) ?_
      rw [hissued]
      exact List.mem_append_left _ hmem

theorem Tally.snoc (h : Tally table x) (hissued : y.2 = x.2 ++ [c]) (hc : SetsNone c)
    (htable : y.1.table = x.1.table) : Tally table y :=
  ⟨h.kept.snoc htable hissued, h.sets_snoc hissued hc⟩

/-- A record with no attempts, inserted or not. -/
theorem Tally.insert {r : UInt64} {e : Except String Unit} (h : Tally table x)
    (hexec : logged World.Exec (.insert ⟨r, some 0⟩) x e y) : Tally table y := by
  obtain ⟨hexec, hissued⟩ := hexec
  have hsets := h.sets_snoc hissued trivial
  rcases hexec with ⟨_, version, hy⟩ | ⟨_, hy | ⟨version, hy⟩⟩
  · exact ⟨.replaced r version (by rw [hy]; rfl), hsets⟩
  · exact ⟨h.kept.snoc (by rw [hy]) hissued, hsets⟩
  · exact ⟨.replaced r version (by rw [hy]; rfl), hsets⟩

/-! ### `start` -/

variable {env : Option UInt64} {settings : Settings}

theorem tally_fresh (children : List Child) : Tally table (fresh table children) :=
  ⟨.same rfl, fun _ _ _ hmem => absurd hmem List.not_mem_nil⟩

/-- From where no attempt is on record the sources are sent to the record itself. -/
theorem startTimestamp_eq {s : PersistentState} {n t : UInt64} {startMode : String}
    (h : ResumesAt checks s n t startMode) (hs : s.attempts = 0) : t = s.resumeAtPts :=
  (h.unique (resumesAt_first hs)).2.1

theorem safeE_setStarts_tally {startMode : String} {t : UInt64} {s : PersistentState}
    {version : Nat} (hfound : table = some (s, version))
    (ht : s.attempts = 0 → t = s.resumeAtPts) (names : List String) (child : Nat)
    (h : Tally table x) :
    SafeE (ledger table) (setStarts startMode t child names) (fun _ _ => True) x := by
  have hevery := every_setStarts (G := fun c => ∃ child, c = .setStart child startMode t)
    (fun child => ⟨child, rfl⟩) names child
  refine Safe.mono (hevery.safe h ?_ ?_) fun _ _ _ _ _ => trivial
  · rintro x _ h rfl _
    exact h
  · rintro _ x _ y ⟨child, rfl⟩ h _ ⟨hexec, hissued⟩
    have htable : y.1.table = x.1.table := by
      rw [show y.1 = x.1.setStart child startMode t from hexec]
      rfl
    have hy : Tally table y := by
      refine ⟨h.kept.snoc htable hissued, fun child' startMode' t' hmem => ?_⟩
      rw [hissued] at hmem
      rcases List.mem_append.mp hmem with hmem | hmem
      · exact h.sets child' startMode' t' hmem
      · cases List.mem_singleton.mp hmem
        exact ⟨s, version, hfound, ht⟩
    exact ⟨hy, hy, trivial⟩

theorem safeE_resume_tally {s : PersistentState} {version : Nat}
    (hfound : table = some (s, version)) (h : Tally table x) (htable : x.1.table = table) :
    SafeE (ledger table) (resume checks s version) (fun _ _ => True) x := by
  refine safeE_resume_of fun n r y hexec => ?_
  obtain ⟨hexec, hissued⟩ := hexec
  have hy : Tally table y := by
    refine ⟨?_, h.sets_snoc hissued trivial⟩
    have hmem : .insertConditionally { s with resumeCount := some n } version ∈ y.2 := by
      rw [hissued]
      exact List.mem_append_right _ List.mem_cons_self
    rcases hexec with ⟨_, _, version', hput⟩ | ⟨_, hput | ⟨version', hput⟩⟩
    · exact .counted s { s with resumeCount := some n } version version' version hfound rfl
        (by rw [hput]; rfl) hmem
    · exact .same (by rw [hput, htable])
    · exact .counted s { s with resumeCount := some n } version version' version hfound rfl
        (by rw [hput]; rfl) hmem
  refine ⟨hy, fun _ t startMode hresumes names z hexec => ?_⟩
  obtain ⟨hexec, hissued⟩ := hexec
  have hz : Tally table z := hy.snoc hissued trivial (by rw [hexec.1])
  exact ⟨hz, safeE_setStarts_tally hfound (startTimestamp_eq hresumes) names 0 hz⟩

theorem safeE_startStopped_tally (h : Tally table x) (htable : x.1.table = table) :
    SafeE (ledger table) (startStopped checks settings) (fun _ _ => True) x := by
  refine safeE_bind (safeE_require fun scope => ?_)
  refine safeE_bind (safeE_require fun name => ?_)
  refine safeE_bind (safeE_require fun controller => ?_)
  refine safeE_bind (alone_call fun r y hexec => ?_)
  obtain ⟨hexec, hissued⟩ := hexec
  have hy : y.1.table = x.1.table := by rw [show y.1 = x.1 from hexec]
  have h := h.snoc hissued trivial hy
  refine ⟨h, ?_⟩
  rcases r with e | ⟨⟩
  · exact safeE_throw
  refine aloneE_pure (safeE_bind (alone_call fun _ z hexec => ?_))
  obtain ⟨hexec, hissued⟩ := hexec
  have hz : z.1.table = y.1.table := by rw [show z.1 = y.1 from hexec]
  have h := h.snoc hissued trivial hz
  refine ⟨h, aloneE_pure (safeE_bind (alone_call fun r v hexec => ?_))⟩
  obtain ⟨⟨hexec, hget⟩, hissued⟩ := hexec
  have hv : v.1.table = z.1.table := by rw [hexec]
  have h := h.snoc hissued trivial hv
  refine ⟨h, ?_⟩
  rcases hget with rfl | ⟨e, rfl⟩
  · refine aloneE_pure ?_
    have hfound : z.1.table = table := (hz.trans hy).trans htable
    rw [hfound]
    cases hcase : table with
    | none =>
        subst hcase
        exact aloneE_pure trivial
    | some found =>
        obtain ⟨s, version⟩ := found
        subst hcase
        exact safeE_bind ((safeE_resume_tally rfl h (hv.trans hfound)).mono fun _ _ _ =>
          aloneE_pure trivial)
  · exact safeE_throw

/-- What a start leaves, if it ends well. -/
def StartsIdle (env : Option UInt64) (settings : Settings)
    (r : Except Failure Unit × Element) (y : World × List TcCmd) : Prop :=
  (r.1 = .ok () → r.2 = ⟨settings.withFault env, .started ⟨none, .none⟩⟩) ∧ Idle y.1

theorem safe_start_tally (h : Tally table x) (htable : x.1.table = table) (hidle : Idle x.1) :
    Safe (ledger table) (start checks env ⟨settings, .stopped⟩)
      (StartsIdle env settings) x := by
  have htally : Safe (ledger table) (start checks env ⟨settings, .stopped⟩)
      (fun _ _ => True) x := by
    refine safe_bind (Safe.mono (safeE_startStopped_tally h htable) fun r y _ => ?_)
    cases r with
    | error e => exact alone_ret trivial
    | ok st => exact alone_ret trivial
  refine (htally.and_alone (every_start.safe hidle ?_ ?_)).mono fun _ _ h => h.2
  · rintro x _ h rfl _
    exact h
  · rintro c x r y hc h _ ⟨hexec, -⟩
    exact ⟨exec_quiet hc h hexec, trivial, trivial⟩

/-! ### Buffers -/

variable {buffer : Buffer} {st : Started}

/-- Once a buffer with a PTS is pushed there is something to write at the stop. -/
def FinalSet (w : World) (st : Started) : Prop :=
  Timed w.pushed → st.finalResumeAtPts.isSome

theorem isSome_resumeAtPtsOf {pts duration : ClockTime} {t : PravegaTimestamp}
    (hpts : pts.isSome) (h : resumeAtPtsOf checks pts duration = some t) : t.isSome := by
  obtain ⟨n, rfl⟩ := Option.isSome_iff_exists.mp hpts
  rw [resumeAtPtsOf, TimeDelta.mul, NSECOND, Option.bind_eq_bind] at h
  obtain ⟨delta, hdelta, hsum⟩ := Option.bind_eq_some_iff.mp h
  obtain ⟨d, -, rfl⟩ := Option.map_eq_some_iff.mp hdelta
  rw [PravegaTimestamp.add, PravegaTimestamp.fromNanoseconds] at hsum
  obtain ⟨e, -, rfl⟩ := Option.map_eq_some_iff.mp hsum
  rfl

theorem safeS_checked {α σ : Type} {exec : (c : TcCmd) → σ → c.Res → σ → Prop}
    {inv : σ → Prop} {value : Option α} {Q : α → Started → σ → Prop}
    {E : ChainError → Started → σ → Prop} {s : σ} (h : ∀ a, value = some a → Q a st s)
    (hE : E .panicked st s) : SafeS (alone exec inv) (ChainM.checked value) Q E st s := by
  cases value with
  | none => exact aloneS_throw hE
  | some a => exact aloneS_pure (h a rfl)

theorem safeS_record_tally (hpts : buffer.pts.isSome) (h : Tally table x) :
    SafeS (ledger table) (record checks settings buffer)
      (fun _ st y => FinalSet y.1 st) (fun e st y => e ≠ .panicked → FinalSet y.1 st) st x := by
  refine aloneS_bind (safeS_checked (fun t ht => ?_) (fun hf => absurd rfl hf))
  have hsome := isSome_resumeAtPtsOf hpts ht
  refine aloneS_bind (aloneS_modify (aloneS_bind (aloneS_get ?_)))
  split
  · refine aloneS_bind (safeS_checked (fun n _ => ?_) (fun hf => absurd rfl hf))
    refine aloneS_bind (aloneS_command fun r y hexec => ?_)
    have hy := h.insert hexec
    refine ⟨hy, ?_⟩
    rcases r with e | ⟨⟩
    · exact aloneS_throw fun _ _ => hsome
    · exact aloneS_modify fun _ => hsome
  · exact aloneS_pure fun _ => hsome

theorem safeS_chainStarted_tally (h : Tally table x) (hfinal : FinalSet x.1 st) :
    SafeS (ledger table) (chainStarted checks settings buffer)
      (fun _ st y => FinalSet y.1 st) (fun e st y => e ≠ .panicked → FinalSet y.1 st) st x := by
  rw [chainStarted]
  split
  · exact aloneS_throw fun _ => hfinal
  refine aloneS_bind (aloneS_command fun r y hexec => ?_)
  obtain ⟨hexec, hissued⟩ := hexec
  rcases hexec with ⟨rfl, hpush⟩ | ⟨⟨e, rfl⟩, hsame⟩
  · have hy := h.snoc hissued trivial (by rw [hpush])
    refine ⟨hy, ?_⟩
    dsimp only
    split
    · next hpts => exact safeS_record_tally hpts hy
    · next hpts =>
        refine aloneS_pure fun htimed => hfinal ?_
        obtain ⟨b, hb, hbpts⟩ := htimed
        rw [hpush] at hb
        rcases List.mem_append.mp hb with hb | hb
        · exact ⟨b, hb, hbpts⟩
        · rw [List.mem_singleton.mp hb] at hbpts
          exact absurd hbpts hpts
  · have hy := h.snoc hissued trivial (by rw [hsame])
    rw [← hsame] at hfinal
    exact ⟨hy, aloneS_throw fun _ => hfinal⟩

theorem safe_chain_tally (buffers : List Buffer) :
    ∀ (st : Started) (x : World × List TcCmd), Tally table x → FinalSet x.1 st →
      Safe (ledger table) (chain checks buffers ⟨settings, .started st⟩)
        (fun r y => ∃ st, r.2 = ⟨settings, .started st⟩ ∧
          (r.1 ≠ .error .panicked → FinalSet y.1 st)) x := by
  induction buffers with
  | nil => exact fun st x h hfinal => alone_ret ⟨st, rfl, fun _ => hfinal⟩
  | cons buffer rest ih =>
      intro st x h hfinal
      refine safe_bind (safe_bind
        (Safe.mono (Safe.and_inv (safeS_chainStarted_tally h hfinal)) ?_))
      rintro ⟨e | ⟨⟩, st⟩ y ⟨hends, hy⟩
      · refine alone_ret (alone_ret ⟨st, rfl, fun hne => hends fun he => ?_⟩)
        exact hne (congrArg Except.error he)
      · exact alone_ret (ih st y hy hends)

/-! ### `stop` -/

/-- The record in the table has no attempts. -/
def Uncounted (table : Table) : Prop := ∃ r version, table = some (⟨r, some 0⟩, version)

theorem safe_stop_tally (h : Tally table x) (hfinal : FinalSet x.1 st) :
    Safe (ledger table) (stop ⟨settings, .started st⟩)
      (fun r y => y.1.pushed = x.1.pushed ∧
        (r.1 = .ok () → Timed x.1.pushed → Uncounted y.1.table)) x := by
  refine safe_bind ?_
  rw [stopStarted]
  cases hst : st.finalResumeAtPts.nanoseconds with
  | none =>
      refine alone_ret (alone_ret ⟨rfl, fun _ htimed => ?_⟩)
      have hsome := hfinal htimed
      rw [PravegaTimestamp.isSome, hst] at hsome
      cases hsome
  | some n =>
      refine alone_call fun r y hexec => ⟨h.insert hexec, ?_⟩
      obtain ⟨⟨rfl, version, hy⟩ | ⟨⟨e, rfl⟩, hy⟩, -⟩ := hexec
      · exact alone_ret (alone_ret ⟨by rw [hy]; rfl, fun _ _ => ⟨n, version, by rw [hy]; rfl⟩⟩)
      · refine alone_ret (alone_ret ⟨?_, ?_⟩)
        · rcases hy with hy | ⟨version, hy⟩
          · rw [hy]
          · rw [hy]
            rfl
        · intro hok
          cases hok

/-! ### From the start to the stop -/

theorem StartsIdle.finalSet {r : Except Failure Unit × Element}
    (h : StartsIdle env settings r x) : FinalSet x.1 ⟨none, .none⟩ := by
  rintro ⟨b, hb, -⟩
  rw [h.2.1] at hb
  cases hb

theorem safe_session_tally (buffers : List Buffer) (children : List Child) :
    Safe (ledger table) (session checks env buffers ⟨settings, .stopped⟩) (fun _ _ => True)
      (fresh table children) := by
  refine safe_bind (Safe.mono
    (safe_start_tally (tally_fresh children) rfl ⟨rfl, rfl⟩).and_inv ?_)
  rintro ⟨e | ⟨⟩, self⟩ x ⟨hidle, hx⟩
  · exact alone_ret trivial
  rw [show self = _ from hidle.1 rfl]
  refine safe_bind (Safe.mono (safe_chain_tally buffers _ x hx hidle.finalSet).and_inv ?_)
  rintro ⟨r, self⟩ y ⟨⟨st, hself, hfinal⟩, hy⟩
  obtain rfl : self = ⟨settings.withFault env, .started st⟩ := hself
  by_cases hpanicked : r = .error .panicked
  · rw [hpanicked]
    exact alone_ret trivial
  have hstop : Safe (ledger table) (stop ⟨settings.withFault env, .started st⟩)
      (fun _ _ => True) y := (safe_stop_tally hy (hfinal hpanicked)).mono fun _ _ _ => trivial
  rcases r with (_ | _ | _ | _ | _) | ⟨⟩
  · exact hstop
  · exact hstop
  · exact hstop
  · exact absurd rfl hpanicked
  · exact hstop
  · exact hstop

theorem Gives.tally {α : Type} {p : TcProgram α} {Q : α → World × List TcCmd → Prop}
    {a : α} (h : Safe (ledger table) p Q x) (hx : Tally table x) (hgives : Gives p x a y) :
    Q a y ∧ Tally table y := by
  have houtcome : Outcome (ledger table) p x a y := by
    refine Outcome.mono (A := alone (logged World.Exec) fun _ => True) ?_ ?_ hgives
    · exact fun _ _ hrely => hrely
    · exact fun _ _ _ _ hexec => hexec
  refine Safe.outcome ?_ h hx houtcome
  rintro x _ hx rfl
  exact hx

/-- Where an attempt ends well with a buffer to record, there is a record that was not
resumed from. -/
theorem Attempted.tally {a : Attempt} {table' : Table}
    (h : Attempted checks table a table') :
    ∃ x, Tally table x ∧ a.found = table ∧ x.2 = a.issued ∧ x.1.table = table' ∧
      (a.failed = false → Timed a.pushed → Uncounted table') := by
  cases h with
  | fails hvisits =>
      refine ⟨_, (safe_session_tally _ _).visits (tally_fresh _) hvisits, rfl, rfl, rfl, ?_⟩
      intro hf
      cases hf
  | @stops env settings buffers children self self' self'' r x y z hstart hchain hr hstop =>
      obtain ⟨hidle, hx⟩ := Gives.tally
        (safe_start_tally (tally_fresh children) rfl ⟨rfl, rfl⟩) (tally_fresh children) hstart
      rw [show self = _ from hidle.1 rfl] at hchain
      obtain ⟨⟨st, hself, hfinal⟩, hy⟩ :=
        Gives.tally (safe_chain_tally buffers _ x hx hidle.finalSet) hx hchain
      have hnot : r ≠ .error .panicked := by
        rintro rfl
        obtain hr | ⟨e, hr⟩ := hr
        · cases hr
        · cases hr
      rw [show self' = _ from hself] at hstop
      obtain ⟨⟨hpushed, hstopped⟩, hz⟩ :=
        Gives.tally (safe_stop_tally hy (hfinal hnot)) hy hstop
      refine ⟨z, hz, rfl, rfl, rfl, fun _ htimed => hstopped rfl ?_⟩
      rw [← hpushed]
      exact htimed

end Attempt

/-! ## Histories -/

section History

variable {checks : Bool} {as : List Attempt} {table : Table}

/-- A count that is not zero is that of an attempt that failed. -/
def Accounted (as : List Attempt) (table : Table) : Prop :=
  ∀ s version, table = some (s, version) → s.attempts ≠ 0 →
    ∃ a ∈ as, a.ResumesFrom s.resumeAtPts ∧ a.failed = true

theorem Accounted.snoc {a : Attempt} {table' : Table} (h : Accounted as table)
    (ha : Attempted checks table a table') (hrecorded : a.Recorded) :
    Accounted (as ++ [a]) table' := by
  intro s version hs hcount
  obtain ⟨x, hx, hbegan, hissued, htable, hends⟩ := ha.tally
  have huncounted : ¬ Uncounted table' := by
    rintro ⟨r, version', hr⟩
    rw [hr] at hs
    cases hs
    exact hcount rfl
  cases hx.kept with
  | same hsame =>
      obtain ⟨b, hb, hfailed⟩ := h s version (by rw [← hsame, htable, hs]) hcount
      exact ⟨b, List.mem_append_left _ hb, hfailed⟩
  | replaced r version' hr =>
      exact absurd ⟨r, version', by rw [← htable, hr]⟩ huncounted
  | counted s₀ s' version₀ version' version'' hfound hsame hs' hmem =>
      rw [htable, hs] at hs'
      cases hs'
      rw [hissued] at hmem
      have hresumes : a.ResumesFrom s.resumeAtPts := ⟨s, version'', hmem, rfl⟩
      refine ⟨a, List.mem_append_right _ List.mem_cons_self, hresumes, ?_⟩
      by_contra hfailed
      have hfailed := Bool.eq_false_iff.mpr hfailed
      exact huncounted (hends hfailed (hrecorded hfailed (by rw [hbegan, hfound]; rfl)))

theorem History.accounted (h : History checks as table) (has : ∀ a ∈ as, a.Recorded) :
    Accounted as table := by
  induction h with
  | nil => exact fun _ _ hs => nomatch hs
  | @snoc as table a table' _ ha ih =>
      have hprev := ih fun b hb => has b (List.mem_append_left _ hb)
      exact hprev.snoc ha (has a (List.mem_append_right _ List.mem_cons_self))

/-- Where the sources are sent further than the record, attempts are on record. -/
theorem SetsStart.attempts_ne_zero {t : UInt64} {s : PersistentState} {version : Nat}
    (h : SetsStart checks (some (s, version)) t) (hlt : s.resumeAtPts < t) :
    s.attempts ≠ 0 := by
  obtain ⟨env, settings, children, x, child, startMode, hvisits, hmem⟩ := h
  have hx := (safe_start_tally (tally_fresh children) rfl ⟨rfl, rfl⟩).visits
    (tally_fresh children) hvisits
  obtain ⟨s', version', hfound, hfirst⟩ := hx.sets child startMode t hmem
  cases hfound
  intro hzero
  rw [hfirst hzero] at hlt
  exact absurd hlt (UInt64.lt_irrefl _)

/-- **A start skips ahead only after a failure**, in a history whose attempts that find a
record and end well all push a buffer with a PTS: where it sends a source further than
the record, an earlier attempt resumed from the same PTS and failed. -/
theorem skips_after_failure {s : PersistentState} {version : Nat} {t : UInt64}
    (h : History checks as (some (s, version))) (has : ∀ a ∈ as, a.Recorded)
    (hsets : SetsStart checks (some (s, version)) t) (hlater : s.resumeAtPts < t) :
    ∃ a ∈ as, a.ResumesFrom s.resumeAtPts ∧ a.failed = true :=
  h.accounted has s version rfl (hsets.attempts_ne_zero hlater)

/-! ### Three runs -/

/-- A new process in a pipeline with one source, whose calls all succeed: its start, the
buffers up to the last, and its stop. -/
def starts (table : Table) : (Except Failure Unit × Element) × (World × List TcCmd) :=
  run (logging World.answer) (start true none ⟨examplesSettings, .stopped⟩)
    (fresh table [⟨"PravegaSrc", "earliest", 0⟩])

def chains (table : Table) (buffers : List Buffer) :
    (Except ChainError Unit × Element) × (World × List TcCmd) :=
  run (logging World.answer) (chain true buffers (starts table).1.2) (starts table).2

def stops (table : Table) (buffers : List Buffer) :
    (Except Failure Unit × Element) × (World × List TcCmd) :=
  run (logging World.answer) (stop (chains table buffers).1.2) (chains table buffers).2

theorem gives_run {α : Type} {p : TcProgram α} {x : World × List TcCmd} {a : α}
    (h : (run (logging World.answer) p x).1 = a) :
    Gives p x a (run (logging World.answer) p x).2 := by
  have houtcome := outcome_run (A := alone (logged World.Exec) fun _ => True)
    (logged_logging exec_answer) p x
  rw [h] at houtcome
  exact houtcome

/-- What such a process leaves, if it ends well. -/
def stopped (table : Table) (buffers : List Buffer) : Attempt :=
  ⟨table, (stops table buffers).2.2, (stops table buffers).2.1.pushed, false⟩

theorem attempted_stopped {table' : Table} {buffers : List Buffer}
    (hends : (starts table).1.1 = .ok () ∧ (chains table buffers).1.1 = .ok () ∧
      (stops table buffers).1.1 = .ok () ∧ (stops table buffers).2.1.table = table') :
    Attempted true table (stopped table buffers) table' := by
  obtain ⟨hstart, hchain, hstop, rfl⟩ := hends
  exact .stops (gives_run (Prod.ext hstart rfl)) (gives_run (Prod.ext hchain rfl))
    (Or.inl rfl) (gives_run (Prod.ext hstop rfl))

theorem setsStart_starts {startMode : String} {t : UInt64}
    (h : .setStart 0 startMode t ∈ (starts table).2.2) : SetsStart true table t :=
  ⟨none, examplesSettings, _, _, 0, startMode,
    visits_run (logged_logging exec_answer) _ _, h⟩

/-- The first of the buffers has been recorded. -/
def firstTable : Table := some (⟨666666667, some 0⟩, 0)

theorem attempted_first :
    Attempted true none (stopped none (examplesBuffers.take 1)) firstTable :=
  attempted_stopped (by decide +kernel)

/-- The second of three processes dies where it is about to set its source. -/
def crashed : World × List TcCmd :=
  ((calls (logging World.answer) (session true none [] ⟨examplesSettings, .stopped⟩)
    (fresh firstTable [⟨"PravegaSrc", "earliest", 0⟩])).get ⟨5, by decide +kernel⟩).2

theorem skips_after_failure_crashed :
    ∃ a ∈ [stopped none (examplesBuffers.take 1),
        ⟨firstTable, crashed.2, crashed.1.pushed, true⟩],
      a.ResumesFrom 666666667 ∧ a.failed = true := by
  have hsecond : Attempted true firstTable
      ⟨firstTable, crashed.2, crashed.1.pushed, true⟩ (some (⟨666666667, some 1⟩, 1)) := by
    have htable : crashed.1.table = some (⟨666666667, some 1⟩, 1) := by decide +kernel
    rw [← htable]
    exact .fails (visits_of_mem_calls (logged_logging exec_answer) (List.get_mem _ _))
  have hhistory := (History.nil.snoc attempted_first).snoc hsecond
  have hskips : .setStart 0 "timestamp" 2666666667 ∈
      (starts (some (⟨666666667, some 1⟩, 1))).2.2 := by decide +kernel
  refine skips_after_failure hhistory ?_ (setsStart_starts hskips) (by decide)
  intro a ha hfailed hfound
  rcases List.mem_cons.mp ha with rfl | ha
  · cases hfound
  · rw [List.mem_singleton.mp ha] at hfailed
    cases hfailed

/-- A process that is started and stopped before any buffer came leaves a count behind. -/
theorem skips_without_failure :
    ¬ ∀ (as : List Attempt) (s : PersistentState) (version : Nat) (t : UInt64),
      History true as (some (s, version)) → SetsStart true (some (s, version)) t →
      s.resumeAtPts < t → ∃ a ∈ as, a.ResumesFrom s.resumeAtPts ∧ a.failed = true := by
  intro hall
  have hsecond : Attempted true firstTable (stopped firstTable [])
      (some (⟨666666667, some 1⟩, 1)) :=
    attempted_stopped (by decide +kernel)
  have hskips : .setStart 0 "timestamp" 2666666667 ∈
      (starts (some (⟨666666667, some 1⟩, 1))).2.2 := by decide +kernel
  obtain ⟨a, ha, -, hfailed⟩ := hall _ _ _ _
    ((History.nil.snoc attempted_first).snoc hsecond) (setsStart_starts hskips) (by decide)
  rcases List.mem_cons.mp ha with rfl | ha
  · cases hfailed
  · rw [List.mem_singleton.mp ha] at hfailed
    cases hfailed

end History

end GstPravega.Plugin.PravegaTC
