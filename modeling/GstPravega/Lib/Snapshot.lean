import GstPravega.Lib.Program

/-!
# Looking at what changes

A program looks at something that others change meanwhile. If what it looks at can be told
from a snapshot, then what it gets is what it would get of the snapshot, or it is refused:
the one thing that may happen to it on the way is that what it asks for is gone. A program
that is `Strict` ends there, so its result is that of a run alone on the snapshot, or the
error of a refusal (`Strict.safe`).
-/

namespace GstPravega.Lib.Program

variable {C : Type} {R : C → Type} {α β ε σ τ : Type} {only : C → Prop}
  {refused : (c : C) → R c → ε → Prop}

/-- The program issues only such commands, and one that is refused ends it, with the
error. -/
def Strict (only : C → Prop) (refused : (c : C) → R c → ε → Prop) :
    Program C R (Except ε α) → Prop
  | ret _ => True
  | call c k =>
      only c ∧ ∀ r, (∀ e, refused c r e → k r = ret (.error e)) ∧ Strict only refused (k r)

theorem strict_pure (a : α) :
    Strict only refused (pure a : ExceptT ε (Program C R) α).run := trivial

theorem strict_throw (e : ε) :
    Strict only refused (throw e : ExceptT ε (Program C R) α).run := trivial

theorem strict_bind {p : ExceptT ε (Program C R) α} {f : α → ExceptT ε (Program C R) β}
    (hp : Strict only refused p.run) (hf : ∀ a, Strict only refused (f a).run) :
    Strict only refused (p >>= f).run := by
  change Strict only refused (Program.bind p _)
  change Strict only refused p at hp
  induction p with
  | ret a =>
      cases a with
      | error e => exact trivial
      | ok a => exact hf a
  | call c k ih =>
      refine ⟨hp.1, fun r => ?_⟩
      obtain ⟨hrefused, hk⟩ := hp.2 r
      refine ⟨fun e he => ?_, ih r hk⟩
      change (k r).bind _ = _
      rw [hrefused e he]
      rfl

/-- **The result is that of the snapshot, or a refusal.** In every state that `Tracks` the
snapshot `s`, a command of the run alone on `s` is answered as there, or refused. -/
theorem Strict.safe {A : Arena σ C R} {h : (c : C) → τ → R c × τ} {G : C → τ → Prop} {s : τ}
    (Tracks : σ → Prop) (E : ε → σ → Prop)
    (htracks : ∀ x y, Tracks x → A.rely x y → A.inv y → Tracks y)
    (herror : ∀ e x y, E e x → A.rely x y → A.inv y → E e y)
    (hexec : ∀ c x r y, only c → G c s → Tracks x → A.inv x → A.exec c x r y →
      A.inv y ∧ A.guar c x r y ∧ ((h c s = (r, s) ∧ Tracks y) ∨ ∃ e, refused c r e ∧ E e y))
    {p : Program C R (Except ε α)} {a : Except ε α} (hp : Strict only refused p)
    (ha : Yields h G p s a s) {x : σ} (hx : Tracks x) :
    Safe A p (fun b y => (b = a ∧ Tracks y) ∨ ∃ e, b = .error e ∧ E e y) x := by
  induction p generalizing x with
  | ret b =>
      intro y hxy hy
      obtain rfl : b = a := congrArg Prod.fst ha.1
      exact Or.inl ⟨rfl, htracks x y hx hxy hy⟩
  | call c k ih =>
      obtain ⟨hrun, hcalls⟩ := ha
      intro y hxy hy r z hcall
      obtain ⟨hz, hguar, hanswer⟩ := hexec c y r z hp.1 (hcalls (c, s) List.mem_cons_self)
        (htracks x y hx hxy hy) hy hcall
      refine ⟨hz, hguar, ?_⟩
      rcases hanswer with ⟨hsame, hz⟩ | ⟨e, hrefused, he⟩
      · rw [run_call, hsame] at hrun
        refine ih r (hp.2 r).2 ⟨hrun, fun x hx => ?_⟩ hz
        refine hcalls x (List.mem_cons_of_mem _ ?_)
        rw [hsame]
        exact hx
      · rw [(hp.2 r).1 e hrefused]
        exact fun y hzy hy => Or.inr ⟨e, rfl, herror e z y he hzy hy⟩

end GstPravega.Lib.Program
