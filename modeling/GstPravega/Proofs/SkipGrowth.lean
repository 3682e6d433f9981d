import GstPravega.Proofs.SkipAhead

/-!
# How far a start skips

With each start that resumes from one record the skip is twice as long, from two seconds up
to a year. But the exponent is cut to 32 bits before it is capped, so it begins again after
2³² starts, and the skip with it. And the greatest count cannot be added to: the start that
finds it panics, or, in a build without checks, counts from zero and skips nothing.
-/

namespace GstPravega.Plugin.PravegaTC

open GstPravega.Lib GstPravega.Gst GstPravega.Video GstPravega.Lib.Program

/-! ## What is computed -/

/-- How often the first skip is doubled, with this count in the record. -/
def doublings (count : UInt64) : Nat := (count.toNat - 1) % 2 ^ 32

/-- How far ahead of the record the sources are sent. -/
def skipNanos (count : UInt64) : Nat :=
  if count.toNat = 0 ∨ count.toNat = 2 ^ 64 - 1 then 0
  else 2 ^ min 24 (doublings count) * 2000000000

section Computed

variable {checks : Bool} {count n : UInt64}

theorem skipNanos_le (count : UInt64) : skipNanos count ≤ 2 ^ 25 * 10 ^ 9 := by
  rw [skipNanos]
  split
  · exact Nat.zero_le _
  · have hpow : 2 ^ min 24 (doublings count) ≤ 2 ^ 24 :=
      Nat.pow_le_pow_right (by decide) (Nat.min_le_left _ _)
    omega

theorem skipNanos_le_iff {c₁ c₂ : UInt64} (h : c₁ ≤ c₂) : skipNanos c₁ ≤ skipNanos c₂ ↔
    c₁.toNat = 0 ∨ c₁ = c₂ ∨
      (c₂.toNat ≠ 2 ^ 64 - 1 ∧ min 24 (doublings c₁) ≤ doublings c₂) := by
  have hlt := c₂.toNat_lt
  rw [UInt64.le_iff_toNat_le] at h
  by_cases hzero : c₁.toNat = 0
  · rw [skipNanos, if_pos (Or.inl hzero)]
    exact ⟨fun _ => Or.inl hzero, fun _ => Nat.zero_le _⟩
  by_cases heq : c₁ = c₂
  · rw [heq]
    exact ⟨fun _ => Or.inr (Or.inl rfl), fun _ => Nat.le_refl _⟩
  have hne : c₁.toNat ≠ c₂.toNat := fun hne => heq (UInt64.toNat_inj.mp hne)
  have hfirst : skipNanos c₁ = 2 ^ min 24 (doublings c₁) * 2000000000 :=
    if_neg (by omega)
  by_cases hlast : c₂.toNat = 2 ^ 64 - 1
  · have hsecond : skipNanos c₂ = 0 := if_pos (Or.inr hlast)
    have hpos : 0 < 2 ^ min 24 (doublings c₁) := Nat.pow_pos (by decide)
    rw [hfirst, hsecond]
    constructor
    · intro hle
      omega
    · rintro (hzero' | heq' | ⟨hlast', -⟩)
      · exact absurd hzero' hzero
      · exact absurd heq' heq
      · exact absurd hlast hlast'
  · have hsecond : skipNanos c₂ = 2 ^ min 24 (doublings c₂) * 2000000000 := if_neg (by omega)
    rw [hfirst, hsecond, Nat.mul_le_mul_right_iff (by decide),
      Nat.pow_le_pow_iff_right (by decide)]
    constructor
    · intro hle
      exact Or.inr (Or.inr ⟨hlast, hle.trans (Nat.min_le_right _ _)⟩)
    · rintro (hzero' | heq' | ⟨-, hle⟩)
      · exact absurd hzero' hzero
      · exact absurd heq' heq
      · exact Nat.le_min.mpr ⟨Nat.min_le_left _ _, hle⟩

theorem u64Add_one_eq (checks : Bool) (count : UInt64) : u64Add checks count 1 =
    if checks = true ∧ count.toNat = 2 ^ 64 - 1 then none else some (count + 1) := by
  have hlt := count.toNat_lt
  have hone : (1 : UInt64).toNat = 1 := rfl
  rw [u64Add, hone]
  refine if_congr ?_ rfl rfl
  rw [Bool.and_eq_true, decide_eq_true_eq]
  exact and_congr_right fun _ => by omega

theorem mul_second (checks : Bool) : TimeDelta.mul checks 2 SECOND = some ⟨some 2000000000⟩ :=
  TimeDelta.mul_of_range (by decide) (by decide)

theorem resumeTimeDelta_of_lt (h : n.toNat < 2) :
    resumeTimeDelta checks n = some (⟨some 0⟩, "timestamp-exact") := by
  have htwo : ¬ n ≥ 1 + 1 := fun hge => by
    rw [ge_iff_le, UInt64.le_iff_toNat_le] at hge
    exact absurd h (Nat.not_lt.mpr hge)
  have hone : resumeTimeDelta checks 1 = some (⟨some 0⟩, "timestamp-exact") :=
    resumeTimeDelta_one
  rw [resumeTimeDelta, if_neg (by decide)] at hone
  rw [resumeTimeDelta, if_neg htwo, hone]

theorem mul_two_pow (checks : Bool) {exponent : Nat} (h : exponent ≤ 24) :
    TimeDelta.mul checks (2 ^ exponent) ⟨some 2000000000⟩ =
      some ⟨some (2 ^ exponent * 2000000000 : Nat)⟩ := by
  have hpos : (0 : Int) ≤ 2 ^ exponent := by positivity
  have hpow : (2 : Int) ^ exponent ≤ 2 ^ 24 := pow_le_pow_right₀ (by decide) h
  rw [TimeDelta.mul_of_range (by omega) (by omega), Nat.cast_mul, Nat.cast_pow, Nat.cast_ofNat,
    Nat.cast_ofNat]

theorem resumeTimeDelta_of_ge (h : 2 ≤ n.toNat) : resumeTimeDelta checks n =
    some (⟨some (2 ^ min 24 ((n.toNat - 2) % 2 ^ 32) * 2000000000 : Nat)⟩, "timestamp") := by
  have htwo : n ≥ 1 + 1 := UInt64.le_iff_toNat_le.mpr h
  have hone : (1 : UInt64).toNat = 1 := rfl
  have hle : 1 ≤ n := UInt64.le_iff_toNat_le.mpr (by omega)
  have hsub : (n - 1).toNat = n.toNat - 1 := UInt64.toNat_sub_of_le _ _ hle
  have hle' : 1 ≤ n - 1 := UInt64.le_iff_toNat_le.mpr (by omega)
  have hsub' : (n - 1 - 1).toNat = n.toNat - 2 := by
    rw [UInt64.toNat_sub_of_le _ _ hle', hsub]
    omega
  have hcap := Nat.min_le_left 24 ((n.toNat - 2) % 2 ^ 32)
  rw [resumeTimeDelta]
  dsimp only
  rw [if_pos htwo, mul_second, hsub', Option.bind_eq_bind, Option.bind_some, mul_two_pow checks hcap,
    Option.bind_some, Option.pure_def]

/-- The skip for the count that a start writes is that for the count it has read. -/
theorem resumeTimeDelta_count (hn : u64Add checks count 1 = some n) :
    ∃ startMode, resumeTimeDelta checks n = some (⟨some (skipNanos count : Nat)⟩, startMode) := by
  have hlt := count.toNat_lt
  have hone : (1 : UInt64).toNat = 1 := rfl
  have hcount : n.toNat = (count.toNat + 1) % 2 ^ 64 := by
    rw [u64Add_one_eq] at hn
    split at hn
    · cases hn
    · rw [← Option.some.inj hn, UInt64.toNat_add, hone]
  rw [skipNanos]
  split
  · exact ⟨_, resumeTimeDelta_of_lt (by omega)⟩
  · have hdoublings : (n.toNat - 2) % 2 ^ 32 = doublings count := by
      rw [doublings]
      congr 1
      omega
    rw [← hdoublings]
    exact ⟨_, resumeTimeDelta_of_ge (by omega)⟩

theorem toNat_add_skip {r : UInt64} (hfits : r.toNat + 2 ^ 25 * 10 ^ 9 < 2 ^ 64)
    (count : UInt64) :
    (UInt64.ofNat (r.toNat + skipNanos count)).toNat = r.toNat + skipNanos count := by
  have hskip := skipNanos_le count
  rw [UInt64.toNat_ofNat', Nat.mod_eq_of_lt (by omega)]

/-- Where the sources are sent, if there is room for the longest skip. -/
theorem resumesAt_iff {s : PersistentState} {t : UInt64}
    (hfits : s.resumeAtPts.toNat + 2 ^ 25 * 10 ^ 9 < 2 ^ 64) :
    (∃ n startMode, ResumesAt checks s n t startMode) ↔
      ¬ (checks = true ∧ s.attempts.toNat = 2 ^ 64 - 1) ∧
        t.toNat = s.resumeAtPts.toNat + skipNanos s.attempts := by
  have hskip := skipNanos_le s.attempts
  have hadd := @PravegaTimestamp.add_of_lt checks s.resumeAtPts (skipNanos s.attempts) (by omega)
  have hsum := toNat_add_skip hfits s.attempts
  constructor
  · rintro ⟨n, startMode, hn, delta, hdelta, ht⟩
    obtain ⟨startMode', hdelta'⟩ := resumeTimeDelta_count hn
    cases hdelta.symm.trans hdelta'
    cases ht.symm.trans hadd
    refine ⟨fun hpanics => ?_, hsum⟩
    have hnone : u64Add checks s.attempts 1 = none := by rw [u64Add_one_eq, if_pos hpanics]
    cases hnone.symm.trans hn
  · rintro ⟨hsafe, ht⟩
    have hn : u64Add checks s.attempts 1 = some (s.attempts + 1) := by
      rw [u64Add_one_eq, if_neg hsafe]
    obtain ⟨startMode, hdelta⟩ := resumeTimeDelta_count hn
    rw [UInt64.toNat_inj.mp (hsum.trans ht.symm)] at hadd
    exact ⟨_, startMode, hn, _, hdelta, hadd⟩

end Computed

/-! ## What a start makes of it -/

/-- The answers to a start that finds the record. Everything else may be answered in any way. -/
def Finds (s : PersistentState) (version : Nat) : (c : TcCmd) → c.Res → Prop
  | .get, found => found = .ok (some (s, version))
  | _, _ => True

/-- A start that finds the record does not panic. If it ends well it has sent all sources to
`t`, and it can end well in any pipeline with a source. -/
structure StartsAt (checks : Bool) (s : PersistentState) (t : UInt64) : Prop where
  noPanic : ∀ env settings version, Given (Finds s version) (fun x => x.1 ≠ .error .panicked)
    (start checks env ⟨settings, .stopped⟩)
  sends : ∀ env settings version children self w',
    Returns (start checks env ⟨settings, .stopped⟩) ⟨some (s, version), children, [], false⟩
      (.ok (), self) w' →
    ∃ startMode, w'.children = children.map (Child.sendTo startMode t)
  ends : ∀ env (settings : Settings) version (children : List Child), settings.scope.isSome →
    settings.table.isSome → settings.controller.isSome →
    "PravegaSrc" ∈ children.map Child.typeName →
    ∃ self w', Returns (start checks env ⟨settings, .stopped⟩)
      ⟨some (s, version), children, [], false⟩ (.ok (), self) w'

section Start

variable {checks : Bool} {s : PersistentState} {version : Nat} {n t : UInt64} {startMode : String}
  {settings : Settings} {α β : Type} {Q : α → Prop}

/-- Code that does not panic. -/
def Calm (s : PersistentState) (version : Nat) (Q : α → Prop) (p : StartM α) : Prop :=
  Given (Finds s version) (fun r => r ≠ .error .panicked ∧ ∀ a, r = .ok a → Q a) p.run

theorem calm_pure {a : α} (h : Q a) : Calm s version Q (pure a) := by
  constructor
  · intro hpanics
    cases hpanics
  · intro b hb
    cases hb
    exact h

theorem calm_error {domain : ErrorDomain} {message : String} :
    Calm s version Q (throw (.error domain message)) := by
  constructor
  · intro hpanics
    cases hpanics
  · intro b hb
    cases hb

theorem calm_checked {value : Option α} {a : α} (h : value = some a) (ha : Q a) :
    Calm s version Q (StartM.checked value) := by
  rw [h]
  exact calm_pure ha

theorem calm_require {value : Option String} {message : String} {Q : String → Prop}
    (h : ∀ a, Q a) : Calm s version Q (StartM.require value message) := by
  cases value with
  | none => exact calm_error
  | some a => exact calm_pure (h a)

theorem calm_command {c : TcCmd} {k : c.Res → StartM α}
    (h : ∀ r, Finds s version c r → Calm s version Q (k r)) :
    Calm s version Q (StartM.command c k) := h

theorem calm_bind {p : StartM α} {f : α → StartM β} {Q : β → Prop}
    (h : Calm s version (fun a => Calm s version Q (f a)) p) : Calm s version Q (p >>= f) := by
  refine given_bind (Given.mono h fun r hr => ?_)
  cases r with
  | ok a => exact hr.2 a rfl
  | error e =>
      constructor
      · intro hpanics
        cases hpanics
        exact hr.1 rfl
      · intro b hb
        cases hb

theorem calm_setStarts (names : List String) (child : Nat) :
    Calm s version (fun _ => True) (setStarts startMode t child names) := by
  induction names generalizing child with
  | nil => exact calm_pure trivial
  | cons typeName rest ih =>
      rw [setStarts]
      split
      · exact calm_command fun _ _ => calm_bind
          (Given.mono (ih (child + 1)) fun _ hr => ⟨hr.1, fun _ _ => calm_pure trivial⟩)
      · exact ih (child + 1)

theorem calm_resume (h : ResumesAt checks s n t startMode) :
    Calm s version (fun _ => True) (resume checks s version) := by
  obtain ⟨hn, delta, hdelta, hsum⟩ := h
  refine calm_bind (calm_checked hn (calm_bind (calm_command fun r _ => ?_)))
  cases r with
  | error e => exact calm_error
  | ok u =>
      refine calm_pure (calm_bind (calm_checked hdelta ?_))
      refine calm_bind (calm_checked hsum (calm_bind (calm_checked rfl ?_)))
      refine calm_bind (calm_command fun names _ => ?_)
      refine Given.mono (calm_setStarts names 0) fun r hr => ⟨hr.1, fun found _ => ?_⟩
      cases found with
      | true => exact calm_pure trivial
      | false => exact calm_error

theorem calm_startStopped (h : ResumesAt checks s n t startMode) :
    Calm s version (fun _ => True) (startStopped checks settings) := by
  refine calm_bind (calm_require fun scope => ?_)
  refine calm_bind (calm_require fun table => ?_)
  refine calm_bind (calm_require fun controller => ?_)
  refine calm_bind (calm_command fun r _ => ?_)
  cases r with
  | error e => exact calm_error
  | ok u =>
      refine calm_pure (calm_bind (calm_command fun _ _ => calm_pure ?_))
      refine calm_bind (calm_command fun found hfound => ?_)
      obtain rfl : found = .ok (some (s, version)) := hfound
      refine calm_pure (calm_bind ?_)
      exact Given.mono (calm_resume h) fun r hr => ⟨hr.1, fun _ _ => calm_pure trivial⟩

theorem startsAt_iff_resumesAt :
    StartsAt checks s t ↔ ∃ n startMode, ResumesAt checks s n t startMode := by
  constructor
  · intro h
    obtain ⟨self, w', hreturns⟩ := h.ends none examplesSettings 0 [⟨"PravegaSrc", "earliest", 0⟩]
      rfl rfl rfl List.mem_cons_self
    obtain ⟨startMode, hsends⟩ := h.sends _ _ _ _ self w' hreturns
    obtain ⟨n, t', startMode', hresumes, -, hresumed⟩ := resumed_of_returns hreturns
    have hsource := (List.cons.inj (hresumed.symm.trans hsends)).1
    rw [Child.sendTo, if_pos rfl, Child.sendTo, if_pos rfl] at hsource
    obtain rfl : t' = t := congrArg Child.startTimestamp hsource
    exact ⟨n, startMode', hresumes⟩
  · rintro ⟨n, startMode, h⟩
    refine ⟨fun env settings version => ?_, fun env settings version children self w' hreturns => ?_,
      fun env settings version children => returns_start h env version⟩
    · refine given_bind (Given.mono (calm_startStopped h) fun r hr => ?_)
      cases r with
      | ok st =>
          show (Except.ok () : Except Failure Unit) ≠ .error .panicked
          intro hpanics
          cases hpanics
      | error e =>
          show (Except.error e : Except Failure Unit) ≠ .error .panicked
          intro hpanics
          cases hpanics
          exact hr.1 rfl
    · obtain ⟨n', t', startMode', hresumes, -, hresumed⟩ := resumed_of_returns hreturns
      obtain ⟨rfl, rfl, rfl⟩ := hresumes.unique h
      exact ⟨_, hresumed⟩

theorem startsAt_iff (hfits : s.resumeAtPts.toNat + 2 ^ 25 * 10 ^ 9 < 2 ^ 64) :
    StartsAt checks s t ↔ ¬ (checks = true ∧ s.attempts.toNat = 2 ^ 64 - 1) ∧
      t.toNat = s.resumeAtPts.toNat + skipNanos s.attempts :=
  startsAt_iff_resumesAt.trans (resumesAt_iff hfits)

end Start

/-- **The skip grows with the count**, for two records of the same time, exactly where the
greater count can be added to and the exponent, cut to 32 bits, has grown or is at its cap.
There is room for the longest skip. -/
theorem skip_grows_iff (checks : Bool) {s₁ s₂ : PersistentState}
    (hsame : s₁.resumeAtPts = s₂.resumeAtPts)
    (hfits : s₁.resumeAtPts.toNat + 2 ^ 25 * 10 ^ 9 < 2 ^ 64)
    (hle : s₁.attempts ≤ s₂.attempts) :
    (∃ t₁ t₂, StartsAt checks s₁ t₁ ∧ StartsAt checks s₂ t₂ ∧
      s₁.resumeAtPts ≤ t₁ ∧ s₂.resumeAtPts ≤ t₂ ∧ t₁ ≤ t₂) ↔
        ¬ (checks = true ∧ s₂.attempts.toNat = 2 ^ 64 - 1) ∧
          (s₁.attempts.toNat = 0 ∨ s₁.attempts = s₂.attempts ∨
            (s₂.attempts.toNat ≠ 2 ^ 64 - 1 ∧
              min 24 (doublings s₁.attempts) ≤ doublings s₂.attempts)) := by
  have hfits₂ := hfits
  rw [hsame] at hfits₂
  have hsum₁ := toNat_add_skip hfits s₁.attempts
  have hsum₂ := toNat_add_skip hfits₂ s₂.attempts
  rw [← skipNanos_le_iff hle]
  constructor
  · rintro ⟨t₁, t₂, h₁, h₂, -, -, hgrows⟩
    obtain ⟨-, ht₁⟩ := (startsAt_iff hfits).mp h₁
    obtain ⟨hsafe, ht₂⟩ := (startsAt_iff hfits₂).mp h₂
    rw [UInt64.le_iff_toNat_le, ht₁, ht₂, hsame] at hgrows
    exact ⟨hsafe, Nat.le_of_add_le_add_left hgrows⟩
  · rintro ⟨hsafe, hgrows⟩
    have hsafe₁ : ¬ (checks = true ∧ s₁.attempts.toNat = 2 ^ 64 - 1) := fun hpanics => by
      have hlt := s₂.attempts.toNat_lt
      rw [UInt64.le_iff_toNat_le] at hle
      exact hsafe ⟨hpanics.1, by omega⟩
    refine ⟨_, _, (startsAt_iff hfits).mpr ⟨hsafe₁, hsum₁⟩,
      (startsAt_iff hfits₂).mpr ⟨hsafe, hsum₂⟩, ?_, ?_, ?_⟩
    · rw [UInt64.le_iff_toNat_le, hsum₁]
      exact Nat.le_add_right _ _
    · rw [UInt64.le_iff_toNat_le, hsum₂]
      exact Nat.le_add_right _ _
    · rw [UInt64.le_iff_toNat_le, hsum₁, hsum₂, hsame]
      exact Nat.add_le_add_left hgrows _

/-- The second start and the third. -/
theorem skip_grows_third : ∃ t₁ t₂, StartsAt true ⟨666666667, some 1⟩ t₁ ∧
    StartsAt true ⟨666666667, some 2⟩ t₂ ∧ 666666667 ≤ t₁ ∧ 666666667 ≤ t₂ ∧ t₁ ≤ t₂ :=
  (@skip_grows_iff true ⟨666666667, some 1⟩ ⟨666666667, some 2⟩ rfl (by decide +kernel)
    (by decide +kernel)).mpr
    ⟨by decide +kernel, Or.inr (Or.inr ⟨by decide +kernel, by decide +kernel⟩)⟩

/-- With two starts on record the next one skips four seconds, with 2³² + 1 it skips two, and
with as many as there can be it panics. -/
theorem skip_shrinks_wrapped :
    StartsAt true ⟨666666667, some 2⟩ 4666666667 ∧
    StartsAt true ⟨666666667, some 4294967297⟩ 2666666667 ∧
    (starts (some (⟨666666667, some 18446744073709551615⟩, 0))).1.1 = .error .panicked := by
  refine ⟨?_, ?_, by decide +kernel⟩
  · exact (startsAt_iff (by decide +kernel)).mpr ⟨by decide +kernel, by decide +kernel⟩
  · exact (startsAt_iff (by decide +kernel)).mpr ⟨by decide +kernel, by decide +kernel⟩

end GstPravega.Plugin.PravegaTC
