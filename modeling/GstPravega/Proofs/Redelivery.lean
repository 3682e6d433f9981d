import GstPravega.Lib.Checkpoint
import GstPravega.Proofs.SkipAhead

/-!
# What is delivered over many crashes

A recording is played to the element, the process dies, the next one resumes, and so on.
A process that finds a record gets the recording from where `start` sends the sources, and
begins ahead of that if anything; what it pushes is then a run of buffers without a gap.
The record it leaves is the one it found, counted once more, or lies behind a buffer it
pushed (`Pushing`), whatever call it died in and whatever became of an insert that failed.

These are runs from checkpoints, and what holds of those holds here: a buffer that was
never pushed although a later one was lies in the time that some process skipped.
-/

namespace GstPravega.Plugin.PravegaTC

open GstPravega.Lib GstPravega.Gst GstPravega.Video GstPravega.Lib.Program

/-! ## Processes over one recording -/

/-- What a pipeline gets of a recording in a process that finds this table: the whole where
there is no record, and else an end of it from which nothing is missing that is not ahead of
where the sources are sent. -/
def Gets (checks : Bool) (recording : List Buffer) (found : Table) (buffers : List Buffer) :
    Prop :=
  ∃ front, recording = front ++ buffers ∧
    match found with
    | none => front = []
    | some (s, _) => ∀ n t startMode, ResumesAt checks s n t startMode →
        ∀ c ∈ front, ∀ pts, c.pts = some pts → pts < t

/-- A process that has died: the table it found, and what it pushed. -/
structure Pass where
  found : Table
  pushed : List Buffer

/-- One process after the other, each on the table the last one left, until it dies at
any moment from its start to its stop. -/
inductive Passes (checks : Bool) (recording : List Buffer) : List Pass → Table → Prop where
  | nil : Passes checks recording [] none
  | snoc {ps found env settings buffers children w} : Passes checks recording ps found →
      Gets checks recording found buffers →
      Visits World.Exec (session checks env buffers ⟨settings, .stopped⟩)
        ⟨found, children, [], false⟩ w →
      Passes checks recording (ps ++ [⟨found, w.pushed⟩]) w.table

/-! ## One process -/

/-- Where to resume, if anywhere. -/
def Table.resumeAtPts (table : Table) : Option UInt64 := table.map fun x => x.1.resumeAtPts

/-- A start on the table does not panic on what it computes. -/
def Resumable (checks : Bool) : Table → Prop
  | none => True
  | some (s, _) => ∃ n t startMode, ResumesAt checks s n t startMode

/-- What became of the record. -/
inductive Left (found : Table) (w : World) : Prop where
  | kept (h : Table.resumeAtPts w.table = found.resumeAtPts)
  | behind (b : Buffer) (x : Nat × Nat) (hb : b ∈ w.pushed) (hx : span b = some x)
      (h : Table.resumeAtPts w.table = some (UInt64.ofNat x.2))

/-- At any moment of a process. -/
structure Pushing (checks : Bool) (found : Table) (buffers : List Buffer) (w : World) :
    Prop where
  pushed : ∃ rest, buffers = w.pushed ++ rest
  resumable : w.pushed ≠ [] → Resumable checks found
  left : Left found w

/-- Nothing was pushed yet. -/
structure Begun (found : Table) (w : World) : Prop where
  pushed : w.pushed = []
  kept : Table.resumeAtPts w.table = found.resumeAtPts

section Process

variable {checks : Bool} {found : Table} {buffers rest : List Buffer} {w w' : World}
  {settings : Settings} {env : Option UInt64} {buffer : Buffer} {st : Started}

theorem Begun.pushing (h : Begun found w) : Pushing checks found buffers w where
  pushed := ⟨buffers, by rw [h.pushed, List.nil_append]⟩
  resumable hne := absurd h.pushed hne
  left := .kept h.kept

/-! ### `start` -/

theorem safeE_setStarts_begun {startMode : String} {t : UInt64} (names : List String)
    (child : Nat) (h : Begun found w) :
    SafeE (arena (Pushing checks found buffers)) (setStarts startMode t child names)
      (fun _ w => Begun found w) w := by
  have hevery := every_setStarts (G := fun c => ∃ child, c = .setStart child startMode t)
    (fun child => ⟨child, rfl⟩) names child
  refine Safe.mono (hevery.safe h ?_ ?_) fun _ _ h _ _ => h.2
  · intro w w' h hw _
    rw [show w' = w from hw]
    exact h
  · intro c w r w' hc h _ hexec
    obtain ⟨child, rfl⟩ := hc
    have hw' : Begun found w' := by
      rw [show w' = w.setStart child startMode t from hexec]
      exact ⟨h.pushed, h.kept⟩
    exact ⟨hw', hw'.pushing, trivial⟩

theorem safeE_resume_begun {s : PersistentState} {version : Nat}
    (hfound : found = some (s, version)) (h : Begun found w) :
    SafeE (arena (Pushing checks found buffers)) (resume checks s version)
      (fun _ w => Begun found w ∧ Resumable checks found) w := by
  refine safeE_resume_of fun n r w₁ hexec => ?_
  have hput : ∀ v, Begun found (w.put { s with resumeCount := some n } v) := by
    intro v
    refine ⟨h.pushed, ?_⟩
    rw [hfound]
    rfl
  have hw₁ : Begun found w₁ := by
    rcases hexec with ⟨_, _, v, rfl⟩ | ⟨_, rfl | ⟨v, rfl⟩⟩
    · exact hput v
    · exact h
    · exact hput v
  refine ⟨hw₁.pushing, fun _ t startMode hresumes names w₂ hexec => ?_⟩
  rw [show w₂ = w₁ from hexec.1]
  refine ⟨hw₁.pushing, (safeE_setStarts_begun names 0 hw₁).mono fun _ w h => ⟨h, ?_⟩⟩
  rw [hfound]
  exact ⟨n, t, startMode, hresumes⟩

theorem safeE_startStopped_begun (hpushed : w.pushed = []) (htable : w.table = found) :
    SafeE (arena (Pushing checks found buffers)) (startStopped checks settings)
      (fun st w => st = ⟨none, .none⟩ ∧ Begun found w ∧ Resumable checks found) w := by
  have h : Begun found w := ⟨hpushed, by rw [htable]⟩
  refine safeE_bind (safeE_require fun scope => ?_)
  refine safeE_bind (safeE_require fun name => ?_)
  refine safeE_bind (safeE_require fun controller => ?_)
  refine safeE_bind (alone_call fun r w₁ hexec => ?_)
  obtain rfl : w₁ = w := hexec
  refine ⟨h.pushing, ?_⟩
  cases r with
  | error e => exact safeE_throw
  | ok u =>
      refine aloneE_pure (safeE_bind (alone_call fun _ w₂ hexec => ?_))
      obtain rfl : w₂ = w₁ := hexec
      refine ⟨h.pushing, aloneE_pure (safeE_bind (alone_call fun r w₃ hexec => ?_))⟩
      obtain ⟨rfl, hget⟩ := hexec
      refine ⟨h.pushing, ?_⟩
      rcases hget with rfl | ⟨e, rfl⟩
      · refine aloneE_pure ?_
        rw [htable]
        cases hcase : found with
        | none =>
            rw [hcase] at h
            exact safeE_bind (aloneE_pure (aloneE_pure ⟨rfl, h, trivial⟩))
        | some x =>
            obtain ⟨s, version⟩ := x
            rw [hcase] at h
            exact safeE_bind ((safeE_resume_begun rfl h).mono fun _ w h => aloneE_pure ⟨rfl, h⟩)
      · exact safeE_throw

/-! ### Buffers -/

/-- What is written at the stop lies behind a buffer that was pushed. -/
def FinalBehind (pushed : List Buffer) (final : PravegaTimestamp) : Prop :=
  final = PravegaTimestamp.none ∨
    ∃ b ∈ pushed, ∃ x, span b = some x ∧ final = ⟨some (UInt64.ofNat x.2)⟩

theorem FinalBehind.push {pushed : List Buffer} {final : PravegaTimestamp}
    (h : FinalBehind pushed final) (buffer : Buffer) :
    FinalBehind (pushed ++ [buffer]) final := by
  rcases h with h | ⟨b, hb, x, hx, h⟩
  · exact Or.inl h
  · exact Or.inr ⟨b, List.mem_append_left _ hb, x, hx, h⟩

theorem Left.push (h : Left found w) (buffer : Buffer) : Left found (w.push buffer) := by
  cases h with
  | kept h => exact .kept h
  | behind b x hb hx h => exact .behind b x (List.mem_append_left _ hb) hx h

theorem Pushing.push (h : Pushing checks found buffers w)
    (hrest : buffers = w.pushed ++ buffer :: rest) (hresumable : Resumable checks found) :
    Pushing checks found buffers (w.push buffer) where
  pushed := ⟨rest, by rw [hrest, World.push, List.append_assoc]; rfl⟩
  resumable _ := hresumable
  left := h.left.push buffer

/-- An insert of a record behind a buffer that was pushed, whether it is done or not. -/
theorem Pushing.insert {b : Buffer} {x : Nat × Nat} {r : Except String Unit}
    (h : Pushing checks found buffers w) (hb : b ∈ w.pushed) (hx : span b = some x)
    (hexec : World.Exec (.insert ⟨UInt64.ofNat x.2, some 0⟩) w r w') :
    Pushing checks found buffers w' ∧ w'.pushed = w.pushed := by
  have hput : ∀ v inserted, Pushing checks found buffers
      { w.put ⟨UInt64.ofNat x.2, some 0⟩ v with inserted := inserted } :=
    fun v _ => ⟨h.pushed, h.resumable, .behind b x hb hx rfl⟩
  rcases hexec with ⟨_, v, rfl⟩ | ⟨_, rfl | ⟨v, rfl⟩⟩
  · exact ⟨hput v true, rfl⟩
  · exact ⟨h, rfl⟩
  · exact ⟨hput v w.inserted, rfl⟩

/-- Between two buffers. -/
structure Between (checks : Bool) (found : Table) (buffers rest : List Buffer) (st : Started)
    (w : World) : Prop where
  pushing : Pushing checks found buffers w
  rest : buffers = w.pushed ++ rest
  final : FinalBehind w.pushed st.finalResumeAtPts

theorem safeS_record_behind {x : Nat × Nat} (hx : span buffer = some x) (hlt : x.2 < 2 ^ 64)
    (h : Pushing checks found buffers w) (hb : buffer ∈ w.pushed)
    (hrest : buffers = w.pushed ++ rest) :
    SafeS (arena (Pushing checks found buffers)) (record checks settings buffer)
      (fun _ st w => Between checks found buffers rest st w)
      (fun _ st w => Pushing checks found buffers w ∧
        FinalBehind w.pushed st.finalResumeAtPts) st w := by
  have hfinal : FinalBehind w.pushed ⟨some (UInt64.ofNat x.2)⟩ := Or.inr ⟨buffer, hb, x, hx, rfl⟩
  rw [record, resumeAtPtsOf_span hx hlt]
  refine aloneS_bind (aloneS_pure (aloneS_bind (aloneS_modify ?_)))
  refine aloneS_bind (aloneS_get ?_)
  split
  · refine aloneS_bind (aloneS_pure (aloneS_bind (aloneS_command fun r w' hexec => ?_)))
    obtain ⟨h', hpushed⟩ := h.insert hb hx hexec
    rw [← hpushed] at hfinal hrest
    refine ⟨h', ?_⟩
    cases r with
    | error e => exact aloneS_throw ⟨h', hfinal⟩
    | ok u => exact aloneS_modify ⟨h', hrest, hfinal⟩
  · exact aloneS_pure ⟨h, hrest, hfinal⟩

theorem safeS_chainStarted_behind (hfits : Fits buffers) (hresumable : Resumable checks found)
    (h : Between checks found buffers (buffer :: rest) st w) :
    SafeS (arena (Pushing checks found buffers)) (chainStarted checks settings buffer)
      (fun _ st w => Between checks found buffers rest st w)
      (fun _ st w => Pushing checks found buffers w ∧
        FinalBehind w.pushed st.finalResumeAtPts) st w := by
  rw [chainStarted]
  split
  · exact aloneS_throw ⟨h.pushing, h.final⟩
  · refine aloneS_bind (aloneS_command fun r w' hexec => ?_)
    rcases hexec with ⟨rfl, rfl⟩ | ⟨⟨e, rfl⟩, rfl⟩
    · have hpush := h.pushing.push h.rest hresumable
      have hrest : buffers = (w.push buffer).pushed ++ rest := by
        rw [h.rest, World.push, List.append_assoc]
        rfl
      refine ⟨hpush, ?_⟩
      dsimp only
      cases hx : span buffer with
      | none =>
          rw [span_eq_none.mp hx]
          exact aloneS_pure ⟨hpush, hrest, h.final.push buffer⟩
      | some x =>
          obtain ⟨pts, hpts, _⟩ := span_eq_some.mp hx
          have hmem : buffer ∈ (w.push buffer).pushed :=
            List.mem_append_right _ List.mem_cons_self
          have hlt : x.2 < 2 ^ 64 := by
            refine hfits x (List.mem_filterMap.mpr ⟨buffer, ?_, hx⟩)
            rw [hrest]
            exact List.mem_append_left _ hmem
          rw [hpts, Option.isSome_some, if_pos rfl]
          exact safeS_record_behind hx hlt hpush hmem hrest
    · exact ⟨h.pushing, aloneS_throw ⟨h.pushing, h.final⟩⟩

theorem safe_chain_behind (hfits : Fits buffers) (hresumable : Resumable checks found)
    {rest : List Buffer} : ∀ {st : Started} {w : World},
      Between checks found buffers rest st w →
      Safe (arena (Pushing checks found buffers)) (chain checks rest ⟨settings, .started st⟩)
        (fun x w => ∃ st, x.2 = ⟨settings, .started st⟩ ∧ Pushing checks found buffers w ∧
          FinalBehind w.pushed st.finalResumeAtPts) w := by
  induction rest with
  | nil =>
      intro st w h
      exact alone_ret ⟨st, rfl, h.pushing, h.final⟩
  | cons buffer rest ih =>
      intro st w h
      refine safe_bind (safe_bind (Safe.mono (safeS_chainStarted_behind hfits hresumable h) ?_))
      intro x w₁ hends
      obtain ⟨e | u, st⟩ := x
      · exact alone_ret (alone_ret ⟨st, rfl, hends⟩)
      · exact alone_ret (ih hends)

/-! ### From the start to the stop -/

variable (settings) in
theorem safe_stop_behind (h : Pushing checks found buffers w)
    (hfinal : FinalBehind w.pushed st.finalResumeAtPts) :
    Safe (arena (Pushing checks found buffers)) (stop ⟨settings, .started st⟩)
      (fun _ _ => True) w := by
  refine safe_bind ?_
  rw [stopStarted]
  rcases hfinal with hnone | ⟨b, hb, x, hx, hsome⟩
  · rw [hnone]
    exact alone_ret (alone_ret trivial)
  · rw [hsome]
    refine alone_call fun r w' hexec => ⟨(h.insert hb hx hexec).1, ?_⟩
    cases r with
    | error e => exact alone_ret (alone_ret trivial)
    | ok u => exact alone_ret (alone_ret trivial)

theorem safe_session_behind (hfits : Fits buffers) (hpushed : w.pushed = [])
    (htable : w.table = found) :
    Safe (arena (Pushing checks found buffers))
      (session checks env buffers ⟨settings, .stopped⟩) (fun _ _ => True) w := by
  refine safe_bind (safe_bind (Safe.mono (safeE_startStopped_begun hpushed htable) ?_))
  intro r w₁ hr
  cases r with
  | error e => exact alone_ret (alone_ret trivial)
  | ok st₀ =>
      obtain ⟨rfl, hbegun, hresumable⟩ := hr st₀ rfl
      refine alone_ret ?_
      have hbetween : Between checks found buffers buffers ⟨none, .none⟩ w₁ :=
        ⟨hbegun.pushing, by rw [hbegun.pushed, List.nil_append], Or.inl rfl⟩
      refine safe_bind (Safe.mono (safe_chain_behind hfits hresumable hbetween) ?_)
      rintro ⟨r, self⟩ w₂ ⟨st, hself, hpushing, hfinal⟩
      obtain rfl : self = _ := hself
      have hstop := safe_stop_behind (settings.withFault env) hpushing hfinal
      rcases r with (_ | _ | _ | _ | _) | ⟨⟩
      · exact hstop
      · exact hstop
      · exact hstop
      · exact alone_ret trivial
      · exact hstop
      · exact hstop

/-- Wherever the process dies. -/
theorem pushing_of_visits {children : List Child} (hfits : Fits buffers)
    (h : Visits World.Exec (session checks env buffers ⟨settings, .stopped⟩)
      ⟨found, children, [], false⟩ w) : Pushing checks found buffers w := by
  have hbegun : Begun found ⟨found, children, [], false⟩ := ⟨rfl, rfl⟩
  have hsafe : Safe (arena (Pushing checks found buffers))
      (session checks env buffers ⟨settings, .stopped⟩) (fun _ _ => True)
      ⟨found, children, [], false⟩ := safe_session_behind hfits rfl rfl
  exact hsafe.visits hbegun.pushing h

end Process

/-! ## Over many processes -/

/-- When a buffer begins, and where to resume behind it. -/
def key (b : Buffer) : Nat := (b.pts.getD 0).toNat

def past (b : Buffer) : Nat := key b + max 1 (b.duration.getD 0).toNat

/-- The buffers that have a time. -/
def timed (recording : List Buffer) : List Buffer := recording.filter fun b => b.pts.isSome

/-- The process resumed ahead of the buffer although the record was not. -/
def Pass.Skips (checks : Bool) (p : Pass) (pts : UInt64) : Prop :=
  ∃ s version n t startMode, p.found = some (s, version) ∧ s.attempts ≠ 0 ∧
    ResumesAt checks s n t startMode ∧ s.resumeAtPts ≤ pts ∧ pts < t

section Over

variable {checks : Bool} {recording : List Buffer} {ps : List Pass} {table : Table}

theorem mem_timed {b : Buffer} : b ∈ timed recording ↔
    b ∈ recording ∧ ∃ x, span b = some x ∧ x = (key b, past b) := by
  rw [timed, List.mem_filter]
  refine and_congr_right fun _ => ?_
  cases hpts : b.pts with
  | none => simp [span, hpts]
  | some pts => simp [span, hpts, key, past]

theorem span_timed {b : Buffer} (h : b ∈ timed recording) : span b = some (key b, past b) := by
  obtain ⟨-, x, hx, rfl⟩ := mem_timed.mp h
  exact hx

theorem key_lt_past (b : Buffer) : key b < past b := by
  rw [past]
  omega

/-- What begins before a buffer is over does not begin behind it. -/
theorem key_le_of_lt_past (hspaced : Spaced recording) :
    ∀ b ∈ timed recording, ∀ c ∈ timed recording, key c < past b → key c ≤ key b := by
  intro b hb c hc hlt
  obtain ⟨pre, post, hsplit⟩ := List.append_of_mem (mem_timed.mp hb).1
  have hmem := (mem_timed.mp hc).1
  rw [hsplit] at hspaced hmem
  rcases List.mem_append.mp hmem with hpre | hpost
  · obtain ⟨l, m, rfl⟩ := List.append_of_mem hpre
    rw [List.append_assoc, List.cons_append] at hspaced
    have hle := hspaced.le (span_timed hc) (List.mem_append_right m List.mem_cons_self)
      (span_timed hb)
    have := key_lt_past c
    dsimp only at hle
    omega
  · rcases List.mem_cons.mp hpost with rfl | hpost
    · exact Nat.le_refl _
    · have hle := hspaced.le (span_timed hb) hpost (span_timed hc)
      dsimp only at hle
      omega

/-- A process as a run from a checkpoint. -/
structure Abstracts (checks : Bool) (p : Pass) (r : Checkpoint.Run Buffer Nat) : Prop where
  done : r.done = timed p.pushed
  found : r.found = p.found.resumeAtPts.map UInt64.toNat
  begins : ∀ s version, p.found = some (s, version) → r.begins = s.resumeAtPts.toNat ∨
    ∃ n t startMode, ResumesAt checks s n t startMode ∧ r.begins = t.toNat

/-- What the run went over the process skipped. -/
theorem Abstracts.skips {p : Pass} {r : Checkpoint.Run Buffer Nat} (h : Abstracts checks p r)
    {c : Buffer} {pts : UInt64} (hpts : c.pts = some pts) (hc : r.Skips key c) :
    p.Skips checks pts := by
  obtain ⟨k, hk, hle, hlt⟩ := hc
  have hkey : key c = pts.toNat := by rw [key, hpts, Option.getD_some]
  rw [hkey] at hle hlt
  rw [h.found] at hk
  cases hfound : p.found with
  | none =>
      rw [hfound] at hk
      cases hk
  | some x =>
      obtain ⟨s, version⟩ := x
      rw [hfound] at hk
      obtain rfl : s.resumeAtPts.toNat = k := Option.some.inj hk
      rcases h.begins s version hfound with hbegins | ⟨n, t, startMode, hresumes, hbegins⟩
      · omega
      · refine ⟨s, version, n, t, startMode, hfound, fun hzero => ?_, hresumes,
          UInt64.le_iff_toNat_le.mpr hle, UInt64.lt_iff_toNat_lt.mpr (hbegins ▸ hlt)⟩
        -- With no attempt on record nothing is skipped.
        rw [startTimestamp_eq hresumes hzero] at hbegins
        omega

theorem Gets.fits {found : Table} {buffers : List Buffer}
    (h : Gets checks recording found buffers) (hfits : Fits recording) : Fits buffers := by
  obtain ⟨front, rfl, -⟩ := h
  intro x hx
  refine hfits x ?_
  rw [List.filterMap_append]
  exact List.mem_append_right _ hx

theorem timed_append (xs ys : List Buffer) : timed (xs ++ ys) = timed xs ++ timed ys :=
  List.filter_append xs ys

/-- What is pushed of an end of the recording has no gap. -/
theorem mem_pushed {front pushed rest : List Buffer} {b c : Buffer}
    (hrecording : recording = front ++ (pushed ++ rest)) (hspaced : Spaced recording)
    (hb : b ∈ timed pushed) (hc : c ∈ timed recording) (hle : key c ≤ key b) :
    c ∈ timed front ∨ c ∈ timed pushed := by
  rw [hrecording, timed_append, timed_append] at hc
  rcases List.mem_append.mp hc with hc | hc
  · exact Or.inl hc
  · refine Or.inr ((List.mem_append.mp hc).resolve_right fun hrest => ?_)
    -- A buffer that comes behind `b` does not begin before `b` is over.
    obtain ⟨l, m, hsplit⟩ := List.append_of_mem (mem_timed.mp hb).1
    rw [hrecording, hsplit, List.append_assoc, ← List.append_assoc, List.cons_append] at hspaced
    have hpast := hspaced.le (span_timed hb)
      (List.mem_append_right m (mem_timed.mp hrest).1) (span_timed hrest)
    have hlt := key_lt_past b
    dsimp only at hpast
    omega

/-- One process more. -/
theorem abstracts_pass {found : Table} {buffers : List Buffer} {w : World}
    (hspaced : Spaced recording) (hfits : Fits recording)
    (hgets : Gets checks recording found buffers) (h : Pushing checks found buffers w) :
    ∃ r, Abstracts checks ⟨found, w.pushed⟩ r ∧ r.Unbroken key (timed recording) ∧
      r.Leaves past (timed recording) ((Table.resumeAtPts w.table).map UInt64.toNat) := by
  have hbuffers := hgets.fits hfits
  obtain ⟨rest, hrest⟩ := h.pushed
  obtain ⟨front, hfront, hsent⟩ := hgets
  have hrecording : recording = front ++ (w.pushed ++ rest) := by rw [hfront, hrest]
  -- The record it leaves, wherever it began.
  have hleaves : ∀ begins, Checkpoint.Run.Leaves past (timed recording)
      ⟨found.resumeAtPts.map UInt64.toNat, begins, timed w.pushed⟩
      ((Table.resumeAtPts w.table).map UInt64.toNat) := by
    intro begins
    cases h.left with
    | kept hkept => exact Or.inl (by rw [hkept])
    | behind b x hb hx htable =>
        have hlt : x.2 < 2 ^ 64 := by
          refine hbuffers x (List.mem_filterMap.mpr ⟨b, ?_, hx⟩)
          rw [hrest]
          exact List.mem_append_left _ hb
        have hmem : b ∈ timed w.pushed := by
          obtain ⟨pts, hpts, -⟩ := span_eq_some.mp hx
          exact List.mem_filter.mpr ⟨hb, by rw [hpts]; rfl⟩
        obtain rfl : (key b, past b) = x := Option.some.inj ((span_timed hmem).symm.trans hx)
        refine Or.inr ⟨b, hmem, ?_, ?_⟩
        · rw [hrecording, timed_append, timed_append]
          exact List.mem_append_right _ (List.mem_append_left _ hmem)
        · rw [htable, Option.map_some, UInt64.toNat_ofNat', Nat.mod_eq_of_lt hlt]
  cases found with
  | none =>
      refine ⟨⟨none, 0, timed w.pushed⟩, ⟨rfl, rfl, fun _ _ hf => nomatch hf⟩, ?_, hleaves 0⟩
      intro b hb c hc _ hle
      rcases mem_pushed hrecording hspaced hb hc hle with hc | hc
      · rw [show front = [] from hsent] at hc
        cases hc
      · exact hc
  | some x =>
      obtain ⟨s, version⟩ := x
      by_cases hresumable : Resumable checks (some (s, version))
      · obtain ⟨n, t, startMode, hresumes⟩ := hresumable
        refine ⟨⟨some s.resumeAtPts.toNat, t.toNat, timed w.pushed⟩, ⟨rfl, rfl, ?_⟩, ?_,
          hleaves t.toNat⟩
        · intro s' version' hf
          cases hf
          exact Or.inr ⟨n, t, startMode, hresumes, rfl⟩
        · intro b hb c hc hbegins hle
          rcases mem_pushed hrecording hspaced hb hc hle with hc | hc
          · obtain ⟨hmem, x, hx, -⟩ := mem_timed.mp hc
            obtain ⟨pts, hpts, -⟩ := span_eq_some.mp hx
            have hlt := hsent n t startMode hresumes c hmem pts hpts
            have hle := hbegins rfl
            rw [key, hpts, Option.getD_some] at hle
            rw [UInt64.lt_iff_toNat_lt] at hlt
            dsimp only at hle
            omega
          · exact hc
      · -- A start that panics pushes nothing.
        have hnil : w.pushed = [] := by
          by_contra hne
          exact hresumable (h.resumable hne)
        refine ⟨⟨some s.resumeAtPts.toNat, s.resumeAtPts.toNat, timed w.pushed⟩,
          ⟨rfl, rfl, ?_⟩, ?_, hleaves _⟩
        · intro s' version' hf
          cases hf
          exact Or.inl rfl
        · intro b hb
          rw [show timed w.pushed = [] by rw [hnil]; rfl] at hb
          cases hb

theorem abstracts_passes (hspaced : Spaced recording) (hfits : Fits recording)
    (h : Passes checks recording ps table) :
    ∃ rs, (∀ p ∈ ps, ∃ r ∈ rs, Abstracts checks p r) ∧
      (∀ r ∈ rs, ∃ p ∈ ps, Abstracts checks p r) ∧
      Checkpoint.History key past (timed recording) rs (table.resumeAtPts.map UInt64.toNat) := by
  induction h with
  | nil => exact ⟨[], fun _ hp => absurd hp List.not_mem_nil,
      fun _ hr => absurd hr List.not_mem_nil, .nil⟩
  | snoc _ hgets hvisits ih =>
      obtain ⟨rs, hps, hrs, hhistory⟩ := ih
      have hpushing := pushing_of_visits (hgets.fits hfits) hvisits
      obtain ⟨r, habstracts, hunbroken, hleaves⟩ :=
        abstracts_pass hspaced hfits hgets hpushing
      refine ⟨rs ++ [r], fun p hp => ?_, fun r' hr' => ?_,
        hhistory.snoc habstracts.found hunbroken hleaves⟩
      · rcases List.mem_append.mp hp with hp | hp
        · obtain ⟨r', hr', h'⟩ := hps p hp
          exact ⟨r', List.mem_append_left _ hr', h'⟩
        · rw [List.mem_singleton.mp hp]
          exact ⟨r, List.mem_append_right _ List.mem_cons_self, habstracts⟩
      · rcases List.mem_append.mp hr' with hr' | hr'
        · obtain ⟨p, hp, h'⟩ := hrs r' hr'
          exact ⟨p, List.mem_append_left _ hp, h'⟩
        · rw [List.mem_singleton.mp hr']
          exact ⟨_, List.mem_append_right _ List.mem_cons_self, habstracts⟩

/-- One of the processes pushed the buffer or skipped it. -/
def Delivered (checks : Bool) (ps : List Pass) (c : Buffer) : Prop :=
  ∃ p ∈ ps, c ∈ p.pushed ∨ ∃ pts, c.pts = some pts ∧ p.Skips checks pts

theorem Passes.covers (hspaced : Spaced recording) (hfits : Fits recording)
    (h : Passes checks recording ps table) :
    (∀ p ∈ ps, ∀ b ∈ timed p.pushed, ∀ c ∈ timed recording, key c ≤ key b →
      Delivered checks ps c) ∧
    ∀ t, table.resumeAtPts = some t → ∀ c ∈ timed recording, key c < t.toNat →
      Delivered checks ps c := by
  obtain ⟨rs, hps, hrs, hhistory⟩ := abstracts_passes hspaced hfits h
  obtain ⟨hdone, hbefore⟩ := hhistory.covers (key_le_of_lt_past hspaced)
  have hdelivered : ∀ c ∈ timed recording, Checkpoint.Covered key rs c →
      Delivered checks ps c := by
    intro c hc hcovered
    obtain ⟨-, x, hx, -⟩ := mem_timed.mp hc
    obtain ⟨pts, hpts, -⟩ := span_eq_some.mp hx
    obtain ⟨r, hr, hcase⟩ := hcovered
    obtain ⟨p, hp, habstracts⟩ := hrs r hr
    refine ⟨p, hp, hcase.imp (fun hc => ?_) fun hskips =>
      ⟨pts, hpts, habstracts.skips hpts hskips⟩⟩
    rw [habstracts.done] at hc
    exact (List.mem_filter.mp hc).1
  constructor
  · intro p hp b hb c hc hle
    obtain ⟨r, hr, habstracts⟩ := hps p hp
    refine hdelivered c hc (hdone r hr b ?_ c hc hle)
    rw [habstracts.done]
    exact hb
  · intro t ht c hc hlt
    exact hdelivered c hc (hbefore t.toNat (by rw [ht]; rfl) c hc hlt)

theorem key_eq {b : Buffer} {pts : UInt64} (h : b.pts = some pts) : key b = pts.toNat := by
  rw [key, h, Option.getD_some]

theorem mem_timed_of_pts {buffers : List Buffer} {b : Buffer} {pts : UInt64}
    (hb : b ∈ buffers) (hpts : b.pts = some pts) : b ∈ timed buffers :=
  List.mem_filter.mpr ⟨hb, by rw [hpts]; rfl⟩

/-- **Nothing is lost but what was skipped.** However often the process dies, and wherever:
a buffer that is not later than one that was pushed, or that begins before the time in the
record, was pushed by one of the processes, or one of them found a record that was counted
already, and skipped it. -/
theorem delivered_or_skipped (hspaced : Spaced recording) (hfits : Fits recording)
    (h : Passes checks recording ps table) {c : Buffer} (hc : c ∈ recording) {pts : UInt64}
    (hpts : c.pts = some pts)
    (hcome : (∃ p ∈ ps, ∃ b ∈ p.pushed, ∃ later, b.pts = some later ∧ pts ≤ later) ∨
      ∃ s version, table = some (s, version) ∧ pts < s.resumeAtPts) :
    ∃ p ∈ ps, c ∈ p.pushed ∨ p.Skips checks pts := by
  obtain ⟨hdone, hbefore⟩ := h.covers hspaced hfits
  have htimed := mem_timed_of_pts hc hpts
  have hdelivered : Delivered checks ps c := by
    rcases hcome with ⟨p, hp, b, hb, later, hlater, hle⟩ | ⟨s, version, rfl, hlt⟩
    · refine hdone p hp b (mem_timed_of_pts hb hlater) c htimed ?_
      rw [key_eq hpts, key_eq hlater]
      exact UInt64.le_iff_toNat_le.mp hle
    · refine hbefore s.resumeAtPts rfl c htimed ?_
      rw [key_eq hpts]
      exact UInt64.lt_iff_toNat_lt.mp hlt
  obtain ⟨p, hp, hcase⟩ := hdelivered
  refine ⟨p, hp, hcase.imp_right ?_⟩
  rintro ⟨pts', hpts', hskips⟩
  rw [hpts] at hpts'
  cases hpts'
  exact hskips

end Over

/-- The process behind the crash, with nothing that fails. -/
def examplesResumed : World :=
  (run World.answer (session true none (examplesBuffers.drop 1) ⟨examplesSettings, .stopped⟩)
    ⟨examplesCrash.table, [⟨"PravegaSrc", "earliest", 0⟩], [], false⟩).2

theorem passes_examples : Passes true examplesBuffers
    [⟨none, examplesBuffers⟩, ⟨examplesCrash.table, examplesResumed.pushed⟩]
    examplesResumed.table := by
  have hcrash : Visits World.Exec
      (session true none examplesBuffers ⟨examplesSettings, .stopped⟩)
      ⟨none, [], [], false⟩ examplesCrash := by
    refine visits_of_mem_calls (x := (.insert ⟨2000000001, some 0⟩, examplesCrash))
      exec_answer ?_
    decide +kernel
  have hresumed : Visits World.Exec
      (session true none (examplesBuffers.drop 1) ⟨examplesSettings, .stopped⟩)
      ⟨examplesCrash.table, [⟨"PravegaSrc", "earliest", 0⟩], [], false⟩ examplesResumed :=
    visits_run exec_answer _ _
  refine (Passes.nil.snoc ⟨[], rfl, rfl⟩ hcrash).snoc ⟨examplesBuffers.take 1, rfl, ?_⟩ hresumed
  intro n t startMode hresumes c hc pts hpts
  obtain ⟨rfl, rfl, rfl⟩ := hresumes.unique (resumesAt_first rfl)
  rw [List.mem_singleton.mp hc] at hpts
  cases hpts
  decide

theorem delivered_or_skipped_examples : ∃ p ∈ [(⟨none, examplesBuffers⟩ : Pass),
      ⟨examplesCrash.table, examplesResumed.pushed⟩],
    examplesBuffers.get ⟨1, by decide⟩ ∈ p.pushed ∨ p.Skips true 666666667 := by
  have hspaced : Spaced examplesBuffers := by
    rw [Spaced]
    decide
  have hfits : Fits examplesBuffers := by
    rw [Fits]
    decide
  refine delivered_or_skipped hspaced hfits passes_examples (List.get_mem _ _) rfl
    (Or.inl ⟨_, List.mem_cons_self, examplesBuffers.get ⟨3, by decide⟩, List.get_mem _ _,
      1333333334, rfl, by decide⟩)

end GstPravega.Plugin.PravegaTC
