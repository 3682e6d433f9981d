import Mathlib.Tactic.Linarith

/-!
# Programs over commands, and the rule for what runs beside them

A piece of code that does I/O is a tree: it either returns, or it issues one
command and goes on with the answer. That is all `Program` says, and it is
enough to talk about everything that can happen *between* two commands: the
rest of the world may move, the process may be killed, another thread may
have its turn.

`Safe` is the judgment. An `Arena` fixes what a command may do (`exec`), what
the surroundings may do between two commands (`rely`), what must hold of the
shared state at every point (`inv`), and what every command issued must
respect (`guar`). A program is safe for a postcondition when no choice of
answers and of interference breaks the invariant or the guarantee, and every
return meets the postcondition.

A program is run in three ways: `run` answers each command with a function, one
program alone; `Outcome` leaves the answers and the surroundings open; `Pool`
interleaves any number of programs with the surroundings. `Safe.outcome` and
`Pool.Good.reaches` carry a `Safe` proof to the last two.
-/

namespace GstPravega.Lib

/-- A program that issues commands `C`; a command `c` is answered by an `R c`. -/
inductive Program (C : Type) (R : C → Type) (α : Type) where
  | ret (a : α)
  | call (c : C) (k : R c → Program C R α)

namespace Program

variable {C : Type} {R : C → Type} {α β ε σ : Type}

protected def bind : Program C R α → (α → Program C R β) → Program C R β
  | ret a, f => f a
  | call c k, f => call c fun r => (k r).bind f

instance : Monad (Program C R) where
  pure := ret
  bind := Program.bind

/-- One command, its answer handed back. -/
def command (c : C) : Program C R (R c) := call c ret

@[simp] theorem pure_eq (a : α) : (pure a : Program C R α) = ret a := rfl

@[simp] theorem ret_bind (a : α) (f : α → Program C R β) :
    (ret a >>= f) = f a := rfl

@[simp] theorem call_bind (c : C) (k : R c → Program C R α)
    (f : α → Program C R β) :
    (call c k >>= f) = call c fun r => k r >>= f := rfl

/-! ## Running alone -/

/-- The program alone, every command answered by `h`. -/
def run (h : (c : C) → σ → R c × σ) : Program C R α → σ → α × σ
  | ret a, s => (a, s)
  | call c k, s => run h (k (h c s).1) (h c s).2

/-- The commands that run issues, in order, each with the state it found. -/
def calls (h : (c : C) → σ → R c × σ) : Program C R α → σ → List (C × σ)
  | ret _, _ => []
  | call c k, s => (c, s) :: calls h (k (h c s).1) (h c s).2

@[simp] theorem run_ret (h : (c : C) → σ → R c × σ) (a : α) (s : σ) :
    run h (ret a : Program C R α) s = (a, s) := rfl

@[simp] theorem run_call (h : (c : C) → σ → R c × σ) (c : C)
    (k : R c → Program C R α) (s : σ) :
    run h (call c k) s = run h (k (h c s).1) (h c s).2 := rfl

theorem calls_bind (h : (c : C) → σ → R c × σ) (p : Program C R α)
    (f : α → Program C R β) (s : σ) :
    calls h (p >>= f) s = calls h p s ++ calls h (f (run h p s).1) (run h p s).2 := by
  induction p generalizing s with
  | ret a => rfl
  | call c k ih => exact congrArg (List.cons (c, s)) (ih (h c s).1 (h c s).2)

/-- Alone from `s`, the program returns `a` in `s'`, and each command it issues
on the way meets `G`. -/
def Yields (h : (c : C) → σ → R c × σ) (G : C → σ → Prop) (p : Program C R α)
    (s : σ) (a : α) (s' : σ) : Prop :=
  run h p s = (a, s') ∧ ∀ x ∈ calls h p s, G x.1 x.2

variable {h : (c : C) → σ → R c × σ} {G : C → σ → Prop}

theorem yields_ret {a : α} {s : σ} : Yields h G (ret a) s a s :=
  ⟨rfl, fun _ hx => nomatch hx⟩

theorem yields_call {c : C} {k : R c → Program C R α} {s s' : σ} {a : α}
    (hc : G c s) (hk : Yields h G (k (h c s).1) (h c s).2 a s') :
    Yields h G (call c k) s a s' := by
  refine ⟨hk.1, fun x hx => ?_⟩
  rcases List.mem_cons.mp hx with rfl | hx
  · exact hc
  · exact hk.2 x hx

theorem Yields.bind {p : Program C R α} {f : α → Program C R β} {s s' s'' : σ}
    {a : α} {b : β} (hp : Yields h G p s a s') (hf : Yields h G (f a) s' b s'') :
    Yields h G (p >>= f) s b s'' := by
  obtain ⟨hrun, hcalls⟩ := hp
  induction p generalizing s with
  | ret a' =>
      cases hrun
      exact hf
  | call c k ih =>
      exact yields_call (hcalls (c, s) List.mem_cons_self)
        (ih _ hrun fun x hx => hcalls x (List.mem_cons_of_mem _ hx))

theorem Yields.mono {G' : C → σ → Prop} {p : Program C R α} {s s' : σ} {a : α}
    (hp : Yields h G p s a s') (hG : ∀ c t, G c t → G' c t) : Yields h G' p s a s' :=
  ⟨hp.1, fun x hx => hG _ _ (hp.2 x hx)⟩

/-- `Yields.bind` for a program that may stop with an error. -/
theorem Yields.bindE {p : ExceptT ε (Program C R) α}
    {f : α → ExceptT ε (Program C R) β} {s s' s'' : σ} {a : α} {b : Except ε β}
    (hp : Yields h G p.run s (.ok a) s') (hf : Yields h G (f a).run s' b s'') :
    Yields h G (p >>= f).run s b s'' := Yields.bind hp hf

theorem Yields.bindE_error {p : ExceptT ε (Program C R) α}
    {f : α → ExceptT ε (Program C R) β} {s s' : σ} {e : ε}
    (hp : Yields h G p.run s (.error e) s') :
    Yields h G (p >>= f).run s (.error e) s' := Yields.bind hp yields_ret

end Program

/-! ## The judgment -/

/-- What a program runs in: the effect of a command, the moves of everything
else, the shared invariant, and what each command must respect. -/
structure Arena (σ C : Type) (R : C → Type) where
  exec : (c : C) → σ → R c → σ → Prop
  rely : σ → σ → Prop
  inv : σ → Prop
  guar : (c : C) → σ → R c → σ → Prop
  rely_refl : ∀ s, rely s s
  rely_trans : ∀ s t u, rely s t → rely t u → rely s u

namespace Program

variable {C : Type} {R : C → Type} {α β ε σ : Type} {A : Arena σ C R}

/-- No interference and no answer breaks the invariant or the guarantee, and
whatever is returned satisfies `Q`. -/
def Safe (A : Arena σ C R) : Program C R α → (α → σ → Prop) → σ → Prop
  | ret a, Q, s => ∀ s', A.rely s s' → A.inv s' → Q a s'
  | call c k, Q, s => ∀ s', A.rely s s' → A.inv s' → ∀ r s'', A.exec c s' r s'' →
      A.inv s'' ∧ A.guar c s' r s'' ∧ Safe A (k r) Q s''

theorem safe_call {c : C} {k : R c → Program C R α} {Q : α → σ → Prop} {s : σ}
    (h : ∀ s', A.rely s s' → A.inv s' → ∀ r s'', A.exec c s' r s'' →
      A.inv s'' ∧ A.guar c s' r s'' ∧ Safe A (k r) Q s'') :
    Safe A (call c k) Q s := h

/-- The surroundings may move before the program does. -/
theorem Safe.rely {p : Program C R α} {Q : α → σ → Prop} {s s' : σ}
    (h : Safe A p Q s) (hs : A.rely s s') : Safe A p Q s' := by
  cases p with
  | ret a => exact fun t ht => h t (A.rely_trans _ _ _ hs ht)
  | call c k => exact fun t ht => h t (A.rely_trans _ _ _ hs ht)

/-- Conversely, it is enough to be safe wherever the surroundings lead. -/
theorem safe_of_forall_rely {p : Program C R α} {Q : α → σ → Prop} {s : σ}
    (h : ∀ s', A.rely s s' → A.inv s' → Safe A p Q s') : Safe A p Q s := by
  cases p with
  | ret a => exact fun t ht hi => h t ht hi t (A.rely_refl t) hi
  | call c k => exact fun t ht hi => h t ht hi t (A.rely_refl t) hi

theorem Safe.mono {p : Program C R α} {Q Q' : α → σ → Prop} {s : σ}
    (h : Safe A p Q s) (hQ : ∀ a s', Q a s' → Q' a s') : Safe A p Q' s := by
  induction p generalizing s with
  | ret a => exact fun t ht hi => hQ a t (h t ht hi)
  | call c k ih =>
      intro t ht hi r u hu
      obtain ⟨h1, h2, h3⟩ := h t ht hi r u hu
      exact ⟨h1, h2, ih r h3⟩

/-- What is returned is returned where the invariant holds. -/
theorem Safe.and_inv {p : Program C R α} {Q : α → σ → Prop} {s : σ} (h : Safe A p Q s) :
    Safe A p (fun a s' => Q a s' ∧ A.inv s') s := by
  induction p generalizing s with
  | ret a => exact fun t ht hi => ⟨h t ht hi, hi⟩
  | call c k ih =>
      intro t ht hi r u hu
      obtain ⟨h1, h2, h3⟩ := h t ht hi r u hu
      exact ⟨h1, h2, ih r h3⟩

theorem safe_bind {p : Program C R α} {f : α → Program C R β}
    {Q : β → σ → Prop} {s : σ}
    (h : Safe A p (fun a s' => Safe A (f a) Q s') s) : Safe A (p >>= f) Q s := by
  induction p generalizing s with
  | ret a => exact safe_of_forall_rely fun t ht hi => h t ht hi
  | call c k ih =>
      intro t ht hi r u hu
      obtain ⟨h1, h2, h3⟩ := h t ht hi r u hu
      exact ⟨h1, h2, ih r h3⟩

/-- `safe_bind` for a program that may stop with an error. -/
theorem safe_bindE {p : ExceptT ε (Program C R) α} {f : α → ExceptT ε (Program C R) β}
    {Q : Except ε β → σ → Prop} {s : σ}
    (h : Safe A p.run (fun r s' => (∃ a, r = .ok a ∧ Safe A (f a).run Q s') ∨
      ∃ e, r = .error e ∧ ∀ s'', A.rely s' s'' → A.inv s'' → Q (.error e) s'') s) :
    Safe A (p >>= f).run Q s := by
  refine safe_bind (h.mono fun r s' hr => ?_)
  rcases hr with ⟨a, rfl, ha⟩ | ⟨e, rfl, he⟩
  · exact ha
  · exact he

/-- `Safe` with nothing asked of an error. -/
def SafeE (A : Arena σ C R) (p : ExceptT ε (Program C R) α) (Q : α → σ → Prop)
    (s : σ) : Prop :=
  Safe A p.run (fun r s' => ∀ a, r = .ok a → Q a s') s

theorem safeE_pure {a : α} {Q : α → σ → Prop} {s : σ}
    (h : ∀ s', A.rely s s' → A.inv s' → Q a s') :
    SafeE A (pure a : ExceptT ε (Program C R) α) Q s := by
  intro s' hs hi b hb
  injection hb with hb
  subst hb
  exact h s' hs hi

theorem safeE_throw {e : ε} {Q : α → σ → Prop} {s : σ} :
    SafeE A (throw e : ExceptT ε (Program C R) α) Q s :=
  fun _ _ _ _ hb => nomatch hb

theorem safeE_bind {p : ExceptT ε (Program C R) α}
    {f : α → ExceptT ε (Program C R) β} {Q : β → σ → Prop} {s : σ}
    (h : SafeE A p (fun a s' => SafeE A (f a) Q s') s) : SafeE A (p >>= f) Q s := by
  refine safe_bind (h.mono fun r s' hr => ?_)
  cases r with
  | ok a => exact hr a rfl
  | error e => exact fun _ _ _ _ hb => nomatch hb

theorem SafeE.mono {p : ExceptT ε (Program C R) α} {Q Q' : α → σ → Prop} {s : σ}
    (h : SafeE A p Q s) (hQ : ∀ a s', Q a s' → Q' a s') : SafeE A p Q' s :=
  Safe.mono h fun _ s' hr a ha => hQ a s' (hr a ha)

/-! ### With a state and errors -/

section Stateful

variable {S : Type}

/-- `Q` for what is returned, `E` for what is left behind an error. -/
def Ends (Q : α → S → σ → Prop) (E : ε → S → σ → Prop) :
    Except ε α × S → σ → Prop
  | (.ok a, st), s => Q a st s
  | (.error e, st), s => E e st s

/-- `Safe` for code that keeps a state, whatever ends it. -/
def SafeS (A : Arena σ C R) (m : ExceptT ε (StateT S (Program C R)) α)
    (Q : α → S → σ → Prop) (E : ε → S → σ → Prop) (st : S) (s : σ) : Prop :=
  Safe A (m.run.run st) (Ends Q E) s

variable {Q Q' : α → S → σ → Prop} {E E' : ε → S → σ → Prop} {st : S} {s : σ}

theorem safeS_pure {a : α} (h : ∀ s', A.rely s s' → A.inv s' → Q a st s') :
    SafeS A (pure a : ExceptT ε (StateT S (Program C R)) α) Q E st s := h

theorem safeS_throw {e : ε} (h : ∀ s', A.rely s s' → A.inv s' → E e st s') :
    SafeS A (throw e : ExceptT ε (StateT S (Program C R)) α) Q E st s := h

theorem safeS_get {Q : S → S → σ → Prop}
    (h : ∀ s', A.rely s s' → A.inv s' → Q st st s') :
    SafeS A (get : ExceptT ε (StateT S (Program C R)) S) Q E st s := h

theorem safeS_modify {f : S → S} {Q : PUnit → S → σ → Prop}
    (h : ∀ s', A.rely s s' → A.inv s' → Q ⟨⟩ (f st) s') :
    SafeS A (modify f : ExceptT ε (StateT S (Program C R)) PUnit) Q E st s := h

theorem SafeS.mono {m : ExceptT ε (StateT S (Program C R)) α}
    (h : SafeS A m Q E st s) (hQ : ∀ a st s, Q a st s → Q' a st s)
    (hE : ∀ e st s, E e st s → E' e st s) : SafeS A m Q' E' st s := by
  refine Safe.mono h fun x s' hx => ?_
  obtain ⟨e | a, st'⟩ := x
  · exact hE e st' s' hx
  · exact hQ a st' s' hx

/-- The error skips the rest, while the surroundings may move on. -/
theorem safeS_bind {m : ExceptT ε (StateT S (Program C R)) α}
    {f : α → ExceptT ε (StateT S (Program C R)) β} {Q : β → S → σ → Prop}
    (hE : ∀ e st s s', E e st s → A.rely s s' → A.inv s' → E e st s')
    (h : SafeS A m (fun a st' s' => SafeS A (f a) Q E st' s') E st s) :
    SafeS A (m >>= f) Q E st s := by
  refine safe_bind (Safe.mono h fun x s' hx => ?_)
  obtain ⟨e | a, st'⟩ := x
  · intro t ht hi
    exact hE e st' s' t hx ht hi
  · exact hx

end Stateful

/-! ### Where nothing else moves -/

/-- The program is alone with the state. -/
def alone (exec : (c : C) → σ → R c → σ → Prop) (inv : σ → Prop) : Arena σ C R where
  exec := exec
  rely s s' := s' = s
  inv := inv
  guar _ _ _ _ := True
  rely_refl _ := rfl
  rely_trans _ _ _ h h' := h'.trans h

section Alone

variable {exec : (c : C) → σ → R c → σ → Prop} {inv : σ → Prop} {s : σ}

theorem alone_ret {a : α} {Q : α → σ → Prop} (h : Q a s) :
    Safe (alone exec inv) (ret a) Q s := by
  rintro _ rfl _
  exact h

theorem alone_call {c : C} {k : R c → Program C R α} {Q : α → σ → Prop}
    (h : ∀ r s', exec c s r s' → inv s' ∧ Safe (alone exec inv) (k r) Q s') :
    Safe (alone exec inv) (call c k) Q s := by
  rintro s rfl _ r s' hexec
  exact ⟨(h r s' hexec).1, trivial, (h r s' hexec).2⟩

theorem aloneE_pure {a : α} {Q : α → σ → Prop} (h : Q a s) :
    SafeE (alone exec inv) (pure a : ExceptT ε (Program C R) α) Q s := by
  refine safeE_pure ?_
  rintro _ rfl _
  exact h

variable {S : Type} {st : S} {E : ε → S → σ → Prop}

theorem aloneS_pure {a : α} {Q : α → S → σ → Prop} (h : Q a st s) :
    SafeS (alone exec inv) (pure a : ExceptT ε (StateT S (Program C R)) α) Q E st s := by
  refine safeS_pure ?_
  rintro _ rfl _
  exact h

theorem aloneS_throw {e : ε} {Q : α → S → σ → Prop} (h : E e st s) :
    SafeS (alone exec inv) (throw e : ExceptT ε (StateT S (Program C R)) α) Q E st s := by
  refine safeS_throw ?_
  rintro _ rfl _
  exact h

theorem aloneS_get {Q : S → S → σ → Prop} (h : Q st st s) :
    SafeS (alone exec inv) (get : ExceptT ε (StateT S (Program C R)) S) Q E st s := by
  refine safeS_get ?_
  rintro _ rfl _
  exact h

theorem aloneS_modify {f : S → S} {Q : PUnit → S → σ → Prop} (h : Q ⟨⟩ (f st) s) :
    SafeS (alone exec inv) (modify f : ExceptT ε (StateT S (Program C R)) PUnit) Q E st s := by
  refine safeS_modify ?_
  rintro _ rfl _
  exact h

/-- What is known of a program apart from the invariant. -/
theorem Safe.and_alone {p : Program C R α} {Q Q' : α → σ → Prop}
    (h : Safe (alone exec inv) p Q s) (h' : Safe (alone exec fun _ => True) p Q' s) :
    Safe (alone exec inv) p (fun a s => Q a s ∧ Q' a s) s := by
  induction p generalizing s with
  | ret a => exact fun s' hs hi => ⟨h s' hs hi, h' s' hs trivial⟩
  | call c k ih =>
      refine fun s' hs hi r s'' hexec => ?_
      obtain ⟨hi', hguar, hk⟩ := h s' hs hi r s'' hexec
      exact ⟨hi', hguar, ih r hk (h' s' hs trivial r s'' hexec).2.2⟩

/-- One command of such code. -/
theorem aloneS_command {c : C} {Q : R c → S → σ → Prop}
    (h : ∀ r s', exec c s r s' → inv s' ∧ Q r st s') :
    SafeS (alone exec inv)
      (ExceptT.mk fun st => call c fun r => ret (.ok r, st) :
        ExceptT ε (StateT S (Program C R)) (R c)) Q E st s :=
  alone_call fun r s' hexec => ⟨(h r s' hexec).1, alone_ret (h r s' hexec).2⟩

theorem aloneS_bind {m : ExceptT ε (StateT S (Program C R)) α}
    {f : α → ExceptT ε (StateT S (Program C R)) β} {Q : β → S → σ → Prop}
    (h : SafeS (alone exec inv) m
      (fun a st' s' => SafeS (alone exec inv) (f a) Q E st' s') E st s) :
    SafeS (alone exec inv) (m >>= f) Q E st s := by
  refine safeS_bind ?_ h
  rintro e st s _ he rfl _
  exact he

end Alone

/-- The program, whatever the answers and whatever happens meanwhile, can end
with `a` in this state. -/
inductive Outcome (A : Arena σ C R) : Program C R α → σ → α → σ → Prop where
  | ret {a s s'} : A.rely s s' → Outcome A (ret a) s a s'
  | call {c k s s' r s'' a t} : A.rely s s' → A.exec c s' r s'' →
      Outcome A (k r) s'' a t → Outcome A (call c k) s a t

theorem Safe.outcome (hinv : ∀ s s', A.inv s → A.rely s s' → A.inv s')
    {p : Program C R α} {Q : α → σ → Prop} {s s' : σ} {a : α} (h : Safe A p Q s)
    (hi : A.inv s) (ho : Outcome A p s a s') : Q a s' ∧ A.inv s' := by
  induction ho with
  | ret hs => exact ⟨h _ hs (hinv _ _ hi hs), hinv _ _ hi hs⟩
  | call hs hexec _ ih =>
      obtain ⟨hi', -, hk⟩ := h _ hs (hinv _ _ hi hs) _ _ hexec
      exact ih hk hi'

theorem Outcome.mono {B : Arena σ C R} (hrely : ∀ s s', A.rely s s' → B.rely s s')
    (hexec : ∀ c s r s', A.exec c s r s' → B.exec c s r s') {p : Program C R α} {s s' : σ}
    {a : α} (h : Outcome A p s a s') : Outcome B p s a s' := by
  induction h with
  | ret hs => exact .ret (hrely _ _ hs)
  | call hs he _ ih => exact .call (hrely _ _ hs) (hexec _ _ _ _ he) ih

/-- A run alone is one of the ways. -/
theorem outcome_run {h : (c : C) → σ → R c × σ}
    (hexec : ∀ c s, A.exec c s (h c s).1 (h c s).2) (p : Program C R α) (s : σ) :
    Outcome A p s (run h p s).1 (run h p s).2 := by
  induction p generalizing s with
  | ret a => exact .ret (A.rely_refl s)
  | call c k ih => exact .call (A.rely_refl s) (hexec c s) (ih _ _)

/-- The states a program may be killed in. A command that is under way then has had
its effect or not, which an answer nobody looks at covers. -/
inductive Visits (exec : (c : C) → σ → R c → σ → Prop) :
    Program C R α → σ → σ → Prop where
  | here {p s} : Visits exec p s s
  | call {c k s r s' t} : exec c s r s' → Visits exec (k r) s' t →
      Visits exec (call c k) s t

/-- Each state a run alone issues a command in is one. -/
theorem visits_of_mem_calls {exec : (c : C) → σ → R c → σ → Prop}
    {h : (c : C) → σ → R c × σ} (hexec : ∀ c s, exec c s (h c s).1 (h c s).2)
    {p : Program C R α} {s : σ} {x : C × σ} (hx : x ∈ calls h p s) :
    Visits exec p s x.2 := by
  induction p generalizing s with
  | ret a => cases hx
  | call c k ih =>
      rcases List.mem_cons.mp hx with rfl | hx
      · exact .here
      · exact .call (hexec c s) (ih _ hx)

theorem visits_run {exec : (c : C) → σ → R c → σ → Prop} {h : (c : C) → σ → R c × σ}
    (hexec : ∀ c s, exec c s (h c s).1 (h c s).2) (p : Program C R α) (s : σ) :
    Visits exec p s (run h p s).2 := by
  induction p generalizing s with
  | ret a => exact .here
  | call c k ih => exact .call (hexec c s) (ih _ _)

/-- `exec`, with the commands issued so far written down beside the state. -/
def logged (exec : (c : C) → σ → R c → σ → Prop) (c : C) (x : σ × List C) (r : R c)
    (y : σ × List C) : Prop :=
  exec c x.1 r y.1 ∧ y.2 = x.2 ++ [c]

/-- The same of a function that answers. -/
def logging (h : (c : C) → σ → R c × σ) (c : C) (x : σ × List C) : R c × (σ × List C) :=
  ((h c x.1).1, ((h c x.1).2, x.2 ++ [c]))

theorem logged_logging {exec : (c : C) → σ → R c → σ → Prop} {h : (c : C) → σ → R c × σ}
    (hexec : ∀ c s, exec c s (h c s).1 (h c s).2) (c : C) (x : σ × List C) :
    logged exec c x (logging h c x).1 (logging h c x).2 :=
  ⟨hexec c x.1, rfl⟩

theorem Safe.visits {p : Program C R α} {Q : α → σ → Prop} {s t : σ} (h : Safe A p Q s)
    (hi : A.inv s) (hv : Visits A.exec p s t) : A.inv t := by
  induction hv with
  | here => exact hi
  | @call c k s r s' t hexec _ ih =>
      obtain ⟨hi', -, hk⟩ := h s (A.rely_refl s) hi r s' hexec
      exact ih hk hi'

/-! ### Whatever the answers -/

/-- Each command the program can issue meets `G`, and whatever it returns meets `Q`. -/
def Every (G : C → Prop) (Q : α → Prop) : Program C R α → Prop
  | ret a => Q a
  | call c k => G c ∧ ∀ r, Every G Q (k r)

section Every

variable {G : C → Prop} {Q : α → Prop}

theorem Every.mono {Q' : α → Prop} {p : Program C R α} (h : Every G Q p)
    (hQ : ∀ a, Q a → Q' a) : Every G Q' p := by
  induction p with
  | ret a => exact hQ a h
  | call c k ih => exact ⟨h.1, fun r => ih r (h.2 r)⟩

/-- Any command may do anything, as long as it meets `G`. -/
def anything (G : C → Prop) : Arena Unit C R where
  exec _ _ _ _ := True
  rely _ _ := True
  inv _ := True
  guar c _ _ _ := G c
  rely_refl _ := trivial
  rely_trans _ _ _ _ _ := trivial

/-- With an answer for every command, each of them is looked at there. -/
theorem every_of_safe [∀ c, Nonempty (R c)] {p : Program C R α}
    (h : Safe (anything G) p (fun a _ => Q a) ()) : Every G Q p := by
  induction p with
  | ret a => exact h () trivial trivial
  | call c k ih =>
      have hk := h () trivial trivial
      obtain ⟨r⟩ : Nonempty (R c) := inferInstance
      exact ⟨(hk r () trivial).2.1, fun r => ih r (hk r () trivial).2.2⟩

theorem every_bind {p : Program C R α} {f : α → Program C R β} {Q : β → Prop}
    (h : Every G (fun a => Every G Q (f a)) p) : Every G Q (p >>= f) := by
  induction p with
  | ret a => exact h
  | call c k ih => exact ⟨h.1, fun r => ih r (h.2 r)⟩

/-- Where each such command keeps the invariant and `J`. -/
theorem Every.safe {p : Program C R α} {J : σ → Prop} {s : σ} (h : Every G Q p) (hJ : J s)
    (hrely : ∀ s s', J s → A.rely s s' → A.inv s' → J s')
    (hG : ∀ c s r s', G c → J s → A.inv s → A.exec c s r s' →
      J s' ∧ A.inv s' ∧ A.guar c s r s') :
    Safe A p (fun a s' => Q a ∧ J s') s := by
  induction p generalizing s with
  | ret a => exact fun s' hs hi => ⟨h, hrely s s' hJ hs hi⟩
  | call c k ih =>
      intro s' hs hi r s'' hexec
      obtain ⟨hJ', hi', hguar⟩ := hG c s' r s'' h.1 (hrely s s' hJ hs hi) hi hexec
      exact ⟨hi', hguar, ih r (h.2 r) hJ'⟩

/-- `Every` with nothing asked of an error. -/
def EveryE (G : C → Prop) (Q : α → Prop) (p : ExceptT ε (Program C R) α) : Prop :=
  Every G (fun r => ∀ a, r = .ok a → Q a) p.run

theorem EveryE.mono {Q' : α → Prop} {p : ExceptT ε (Program C R) α} (h : EveryE G Q p)
    (hQ : ∀ a, Q a → Q' a) : EveryE G Q' p :=
  Every.mono h fun _ hr a ha => hQ a (hr a ha)

theorem everyE_pure {a : α} (h : Q a) :
    EveryE G Q (pure a : ExceptT ε (Program C R) α) := by
  intro b hb
  injection hb with hb
  exact hb ▸ h

theorem everyE_throw {e : ε} : EveryE G Q (throw e : ExceptT ε (Program C R) α) :=
  fun _ hb => nomatch hb

theorem everyE_bind {p : ExceptT ε (Program C R) α} {f : α → ExceptT ε (Program C R) β}
    {Q : β → Prop} (h : EveryE G (fun a => EveryE G Q (f a)) p) : EveryE G Q (p >>= f) := by
  refine every_bind (Every.mono h fun r hr => ?_)
  cases r with
  | ok a => exact hr a rfl
  | error e => exact fun _ hb => nomatch hb

end Every

/-! ### When the answers are good -/

/-- Whatever the program returns meets `Q`, as long as each answer is one `S` allows. -/
def Given (S : (c : C) → R c → Prop) (Q : α → Prop) : Program C R α → Prop
  | ret a => Q a
  | call c k => ∀ r, S c r → Given S Q (k r)

section Given

variable {S : (c : C) → R c → Prop} {Q : α → Prop}

theorem Given.mono {Q' : α → Prop} {p : Program C R α} (h : Given S Q p)
    (hQ : ∀ a, Q a → Q' a) : Given S Q' p := by
  induction p with
  | ret a => exact hQ a h
  | call c k ih => exact fun r hr => ih r (h r hr)

theorem given_bind {p : Program C R α} {f : α → Program C R β} {Q : β → Prop}
    (h : Given S (fun a => Given S Q (f a)) p) : Given S Q (p >>= f) := by
  induction p with
  | ret a => exact h
  | call c k ih => exact fun r hr => ih r (h r hr)

/-- What a program ends in was so all along, if nothing can make it so. -/
theorem Outcome.before (good : σ → Prop) (hrely : ∀ s s', A.rely s s' → good s' → good s)
    (hexec : ∀ c s r s', A.exec c s r s' → good s' → good s) {p : Program C R α} {s s' : σ}
    {a : α} (ho : Outcome A p s a s') (hg : good s') : good s := by
  induction ho with
  | ret hs => exact hrely _ _ hs hg
  | call hs he _ ih => exact hrely _ _ hs (hexec _ _ _ _ he (ih hg))

/-- An outcome in a good state, where a bad answer would have been seen in it. -/
theorem Given.outcome (good : σ → Prop) (hrely : ∀ s s', A.rely s s' → good s' → good s)
    (hexec : ∀ c s r s', A.exec c s r s' → good s' → S c r ∧ good s) {p : Program C R α}
    {s s' : σ} {a : α} (h : Given S Q p) (ho : Outcome A p s a s') (hg : good s') : Q a := by
  induction ho with
  | ret hs => exact h
  | call hs he hrest ih =>
      have hg' := hrest.before good hrely (fun c s r s' he hg => (hexec c s r s' he hg).2) hg
      exact ih (h _ (hexec _ _ _ _ he hg').1) hg

end Given

end Program

/-! ## Running together -/

namespace Pool

variable {σ C : Type} {R : C → Type} {α : Type}

/-- Any number of programs over one state. `exec` is the effect of a command,
`entry` says which programs may be started, `env` what else moves the state. A
program may stop for good anywhere. -/
inductive Step (exec : (c : C) → σ → R c → σ → Prop) (entry : Program C R α → Prop)
    (env : σ → σ → Prop) :
    σ × List (Program C R α) → σ × List (Program C R α) → Prop where
  | env {s s' ps} : env s s' → Step exec entry env (s, ps) (s', ps)
  | spawn {s p ps} : entry p → Step exec entry env (s, ps) (s, p :: ps)
  | exec {s s' c k r ps qs} : exec c s r s' →
      Step exec entry env (s, ps ++ .call c k :: qs) (s', ps ++ k r :: qs)
  | die {s p ps qs} : Step exec entry env (s, ps ++ p :: qs) (s, ps ++ qs)

/-- What any interleaving leads to. -/
inductive Reaches (exec : (c : C) → σ → R c → σ → Prop)
    (entry : Program C R α → Prop) (env : σ → σ → Prop)
    (x : σ × List (Program C R α)) : σ × List (Program C R α) → Prop where
  | refl : Reaches exec entry env x x
  | step {y z} : Reaches exec entry env x y → Step exec entry env y z →
      Reaches exec entry env x z

theorem Reaches.trans {exec : (c : C) → σ → R c → σ → Prop} {entry : Program C R α → Prop}
    {env : σ → σ → Prop} {x y z : σ × List (Program C R α)} (h : Reaches exec entry env x y)
    (h' : Reaches exec entry env y z) : Reaches exec entry env x z := by
  induction h' with
  | refl => exact h
  | step _ hstep ih => exact .step ih hstep

/-- A program that has the state to itself. -/
theorem reaches_run {exec : (c : C) → σ → R c → σ → Prop} {entry : Program C R α → Prop}
    {env : σ → σ → Prop} {h : (c : C) → σ → R c × σ}
    (hexec : ∀ c s, exec c s (h c s).1 (h c s).2) (p : Program C R α) (s : σ) :
    Reaches exec entry env (s, [p]) ((p.run h s).2, [.ret (p.run h s).1]) := by
  induction p generalizing s with
  | ret a => exact .refl
  | call c k ih =>
      have hstep : Step exec entry env (s, [] ++ .call c k :: [])
          ((h c s).2, [] ++ k (h c s).1 :: []) := .exec (hexec c s)
      exact (Reaches.step .refl hstep).trans (ih _ _)

variable {A : Arena σ C R} {entry : Program C R α → Prop} {env : σ → σ → Prop}

/-- The invariant holds and every program still running is safe. -/
def Good (A : Arena σ C R) (x : σ × List (Program C R α)) : Prop :=
  A.inv x.1 ∧ ∀ p ∈ x.2, Program.Safe A p (fun _ _ => True) x.1

/-- One step, whoever takes it. Each one's guarantee and the environment's moves
are what the others rely on. -/
theorem Good.step (hentry : ∀ p, entry p → ∀ s, A.inv s →
      Program.Safe A p (fun _ _ => True) s)
    (henv : ∀ s s', A.inv s → env s s' → A.rely s s' ∧ A.inv s')
    (hguar : ∀ c s r s', A.guar c s r s' → A.rely s s')
    {x y : σ × List (Program C R α)} (hx : Good A x)
    (hstep : Step A.exec entry env x y) : Good A y ∧ A.rely x.1 y.1 := by
  obtain ⟨hi, hp⟩ := hx
  cases hstep with
  | env he =>
      obtain ⟨hrel, hi'⟩ := henv _ _ hi he
      exact ⟨⟨hi', fun p hm => (hp p hm).rely hrel⟩, hrel⟩
  | @spawn s p ps hp' =>
      refine ⟨⟨hi, fun q hm => ?_⟩, A.rely_refl s⟩
      rcases List.mem_cons.mp hm with rfl | hm
      · exact hentry _ hp' _ hi
      · exact hp q hm
  | @exec s s' c k r ps qs he =>
      have hrun := hp (.call c k) (List.mem_append_right ps List.mem_cons_self)
      obtain ⟨hi', hg, hk⟩ := hrun s (A.rely_refl s) hi r s' he
      have hrel := hguar c s r s' hg
      refine ⟨⟨hi', fun p hm => ?_⟩, hrel⟩
      rcases List.mem_append.mp hm with hm | hm
      · exact (hp p (List.mem_append_left _ hm)).rely hrel
      · rcases List.mem_cons.mp hm with rfl | hm
        · exact hk
        · exact (hp p (List.mem_append_right _ (List.mem_cons_of_mem _ hm))).rely hrel
  | @die s p ps qs =>
      refine ⟨⟨hi, fun q hm => hp q ?_⟩, A.rely_refl s⟩
      rcases List.mem_append.mp hm with hm | hm
      · exact List.mem_append_left _ hm
      · exact List.mem_append_right _ (List.mem_cons_of_mem _ hm)

/-- Programs that are safe on their own keep the invariant together. -/
theorem Good.reaches (hentry : ∀ p, entry p → ∀ s, A.inv s →
      Program.Safe A p (fun _ _ => True) s)
    (henv : ∀ s s', A.inv s → env s s' → A.rely s s' ∧ A.inv s')
    (hguar : ∀ c s r s', A.guar c s r s' → A.rely s s')
    {x y : σ × List (Program C R α)} (hx : Good A x)
    (hxy : Reaches A.exec entry env x y) : Good A y ∧ A.rely x.1 y.1 := by
  induction hxy with
  | refl => exact ⟨hx, A.rely_refl x.1⟩
  | step _ hstep ih =>
      obtain ⟨hgood, hrel⟩ := ih
      obtain ⟨hgood', hrel'⟩ := hgood.step hentry henv hguar hstep
      exact ⟨hgood', A.rely_trans _ _ _ hrel hrel'⟩

end Pool

end GstPravega.Lib
