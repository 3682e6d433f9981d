import GstPravega.Lib.Program
import Mathlib.Data.List.GetD
import Mathlib.Logic.Function.Basic
import Mathlib.Logic.Relation

/-!
# Threads that hold locks

A lock belongs to the thread that took it, so what a command does depends on who
issues it. A thread is named by its place in the list of those started, where it
stays after it has returned.

* **What holds.** A `Discipline` says what each thread counts on while the others run.
  If a thread is `Safe` in its own arena, where a command must leave the others what
  *they* count on, then it is safe among them (`Good.reaches`).
* **That it goes on.** `OneLock` looks at a program alone: it holds one lock at a time
  and returns with none. Then no state is stuck, since whoever has the lock the others
  wait for does not wait itself (`not_stuck`), and each command is one of a number that
  is known beforehand (`Within`), so that threads left to themselves end (`finishes`).
-/

namespace GstPravega.Lib.Threads

variable {σ C : Type} {R : C → Type} {α : Type}

/-- The shared state, and the threads started so far. -/
abbrev Config (σ C : Type) (R : C → Type) (α : Type) := σ × List (Program C R α)

section Steps

variable (exec : Nat → (c : C) → σ → R c → σ → Prop)

/-- Thread `i` issues its next command. -/
inductive Runs : Config σ C R α → Config σ C R α → Prop where
  | exec {s s' ps i c k r} : ps[i]? = some (.call c k) → exec i c s r s' →
      Runs (s, ps) (s', ps.set i (k r))

variable (spawn : Nat → Program C R α → σ → σ → Prop) (env : σ → σ → Prop)

/-- A thread runs, one is started, or the surroundings move. -/
inductive Step : Config σ C R α → Config σ C R α → Prop where
  | runs {x y} : Runs exec x y → Step x y
  | spawn {s s' p ps} : spawn ps.length p s s' → Step (s, ps) (s', ps ++ [p])
  | env {s s' ps} : env s s' → Step (s, ps) (s', ps)

/-- What any interleaving leads to. -/
abbrev Reaches : Config σ C R α → Config σ C R α → Prop :=
  Relation.ReflTransGen (Step exec spawn env)

end Steps

/-- So many commands of a program, if it issues that many. -/
def advance (h : (c : C) → σ → R c × σ) : Nat → Program C R α → σ → Program C R α × σ
  | 0, p, s => (p, s)
  | _ + 1, .ret a, s => (.ret a, s)
  | n + 1, .call c k, s => advance h n (k (h c s).1) (h c s).2

/-- The turn of a thread. -/
theorem runs_advance {exec : Nat → (c : C) → σ → R c → σ → Prop} {h : (c : C) → σ → R c × σ}
    {i : Nat} (hexec : ∀ c s, exec i c s (h c s).1 (h c s).2) (n : Nat) {p : Program C R α}
    {s : σ} {ps : List (Program C R α)} (hi : ps[i]? = some p) :
    Relation.ReflTransGen (Runs exec) (s, ps)
      ((advance h n p s).2, ps.set i (advance h n p s).1) := by
  obtain ⟨hlt, hget⟩ := List.getElem?_eq_some_iff.mp hi
  induction n generalizing p s ps with
  | zero => rw [advance, ← hget, List.set_getElem_self]
  | succ n ih =>
      cases p with
      | ret a => rw [advance, ← hget, List.set_getElem_self]
      | call c k =>
          have hset := List.getElem?_set_self (a := k (h c s).1) hlt
          obtain ⟨hlt', hget'⟩ := List.getElem?_eq_some_iff.mp hset
          have hrest := ih (s := (h c s).2) hset hlt' hget'
          rw [List.set_set] at hrest
          exact .head (.exec hi (hexec c s)) hrest

/-- Every thread has returned. -/
def Finished (ps : List (Program C R α)) : Prop := ∀ p ∈ ps, ∃ a, p = .ret a

/-! ## What a thread counts on -/

/-- What each thread counts on while the others run. -/
structure Discipline (σ C : Type) (R : C → Type) where
  exec : Nat → (c : C) → σ → R c → σ → Prop
  rely : Nat → σ → σ → Prop
  inv : σ → Prop
  rely_refl : ∀ i s, rely i s s
  rely_trans : ∀ i s t u, rely i s t → rely i t u → rely i s u

/-- Thread `i` among the others. -/
def Discipline.arena (D : Discipline σ C R) (i : Nat) : Arena σ C R where
  exec := D.exec i
  rely := D.rely i
  inv := D.inv
  guar _ s _ s' := ∀ j, j ≠ i → D.rely j s s'
  rely_refl := D.rely_refl i
  rely_trans := D.rely_trans i

/-- What the others do is taken for part of the command that comes next. -/
def Meanwhile (A : Arena σ C R) (c : C) (s : σ) (r : R c) (s' : σ) : Prop :=
  ∃ s₁, A.rely s s₁ ∧ A.inv s₁ ∧ A.exec c s₁ r s'

/-- Where a command never breaks what the others count on, a thread is as safe as one that
is alone with such commands. -/
theorem safe_of_alone {A : Arena σ C R} {p : Program C R α} {Q : α → σ → Prop} {s : σ}
    (hguar : ∀ c s r s', A.inv s → A.exec c s r s' → A.guar c s r s')
    (hQ : ∀ a s s', Q a s → A.rely s s' → A.inv s' → Q a s')
    (h : Program.Safe (Program.alone (Meanwhile A) A.inv) p Q s) (hi : A.inv s) :
    Program.Safe A p Q s := by
  induction p generalizing s with
  | ret a => exact fun s' hrely hi' => hQ a s s' (h s rfl hi) hrely hi'
  | call c k ih =>
      intro s₁ hrely hi₁ r s' hexec
      obtain ⟨hi', -, hk⟩ := h s rfl hi r s' ⟨s₁, hrely, hi₁, hexec⟩
      exact ⟨hi', hguar c s₁ r s' hi₁ hexec, ih r hk hi'⟩

section Good

variable {D : Discipline σ C R} {Q : Nat → α → σ → Prop}
  {spawn : Nat → Program C R α → σ → σ → Prop} {env : σ → σ → Prop}

/-- The invariant holds, and each thread is safe for what it is to leave. -/
def Good (D : Discipline σ C R) (Q : Nat → α → σ → Prop) (x : Config σ C R α) : Prop :=
  D.inv x.1 ∧ ∀ i p, x.2[i]? = some p → Program.Safe (D.arena i) p (Q i) x.1

theorem good_nil {s : σ} (h : D.inv s) : Good D Q (s, []) :=
  ⟨h, fun _ _ hp => nomatch hp⟩

/-- What a thread that has returned has left. -/
theorem Good.ret {x : Config σ C R α} (h : Good D Q x) {i : Nat} {a : α}
    (hi : x.2[i]? = some (.ret a)) : Q i a x.1 :=
  h.2 i _ hi x.1 (D.rely_refl i x.1) h.1

theorem Good.runs {x y : Config σ C R α} (h : Good D Q x) (hstep : Runs D.exec x y) :
    Good D Q y := by
  obtain ⟨hi, hp⟩ := h
  cases hstep with
  | @exec s s' ps i c k r hcall hexec =>
      obtain ⟨hi', hguar, hk⟩ := hp i _ hcall s (D.rely_refl i s) hi r s' hexec
      refine ⟨hi', fun j p hj => ?_⟩
      by_cases hji : j = i
      · subst hji
        rw [List.getElem?_set_self (List.getElem?_eq_some_iff.mp hcall).1] at hj
        obtain rfl := Option.some.inj hj
        exact hk
      · rw [List.getElem?_set_ne (Ne.symm hji)] at hj
        exact (hp j p hj).rely (hguar j hji)

theorem Good.step (hspawn : ∀ n p s s', D.inv s → spawn n p s s' →
      D.inv s' ∧ (∀ j, j ≠ n → D.rely j s s') ∧ Program.Safe (D.arena n) p (Q n) s')
    (henv : ∀ s s', D.inv s → env s s' → D.inv s' ∧ ∀ j, D.rely j s s')
    {x y : Config σ C R α} (h : Good D Q x) (hstep : Step D.exec spawn env x y) :
    Good D Q y := by
  cases hstep with
  | runs hruns => exact h.runs hruns
  | @spawn s s' p ps hsp =>
      obtain ⟨hi', hrely, hsafe⟩ := hspawn _ p s s' h.1 hsp
      refine ⟨hi', fun j q hj => ?_⟩
      rcases Nat.lt_trichotomy j ps.length with hlt | rfl | hgt
      · rw [List.getElem?_append_left hlt] at hj
        exact (h.2 j q hj).rely (hrely j (Nat.ne_of_lt hlt))
      · rw [List.getElem?_concat_length] at hj
        obtain rfl := Option.some.inj hj
        exact hsafe
      · have hlen := (List.getElem?_eq_some_iff.mp hj).1
        rw [List.length_append, List.length_singleton] at hlen
        omega
  | @env s s' ps he =>
      obtain ⟨hi', hrely⟩ := henv s s' h.1 he
      exact ⟨hi', fun j q hj => (h.2 j q hj).rely (hrely j)⟩

/-- Threads that are safe one by one are safe together. -/
theorem Good.reaches (hspawn : ∀ n p s s', D.inv s → spawn n p s s' →
      D.inv s' ∧ (∀ j, j ≠ n → D.rely j s s') ∧ Program.Safe (D.arena n) p (Q n) s')
    (henv : ∀ s s', D.inv s → env s s' → D.inv s' ∧ ∀ j, D.rely j s s')
    {x y : Config σ C R α} (h : Good D Q x) (hxy : Reaches D.exec spawn env x y) :
    Good D Q y := by
  induction hxy with
  | refl => exact h
  | tail _ hstep ih => exact ih.step hspawn henv hstep

/-- A thread that was not started yet could have counted on it all along. -/
theorem Good.reaches_rely (hspawn : ∀ n p s s', D.inv s → spawn n p s s' →
      D.inv s' ∧ (∀ j, j ≠ n → D.rely j s s') ∧ Program.Safe (D.arena n) p (Q n) s')
    (henv : ∀ s s', D.inv s → env s s' → D.inv s' ∧ ∀ j, D.rely j s s')
    {x y : Config σ C R α} (h : Good D Q x) (hxy : Reaches D.exec spawn env x y) {j : Nat}
    (hj : y.2.length ≤ j) : D.rely j x.1 y.1 := by
  induction hxy with
  | refl => exact D.rely_refl j x.1
  | @tail y z hxy hstep ih =>
      have hgood := h.reaches hspawn henv hxy
      suffices hrely : y.2.length ≤ j ∧ D.rely j y.1 z.1 from
        D.rely_trans _ _ _ _ (ih hrely.1) hrely.2
      cases hstep with
      | runs hruns =>
          cases hruns with
          | @exec s s' ps i c k r hcall hexec =>
              have hlt := (List.getElem?_eq_some_iff.mp hcall).1
              rw [List.length_set] at hj
              have hsafe := hgood.2 i _ hcall s (D.rely_refl i s) hgood.1 r s' hexec
              exact ⟨hj, hsafe.2.1 j (by omega)⟩
      | @spawn s s' p ps hsp =>
          rw [List.length_append, List.length_singleton] at hj
          obtain ⟨-, hrely, -⟩ := hspawn _ p s s' hgood.1 hsp
          exact ⟨Nat.le_of_succ_le hj, hrely j (Nat.ne_of_gt hj)⟩
      | @env s s' ps he => exact ⟨hj, (henv s s' hgood.1 he).2 j⟩

end Good

/-! ## Locks -/

/-- What a command does to the locks. -/
inductive LockOp (L : Type) where
  | take (l : L)
  | give (l : L)
  | other

section Locks

variable {L : Type} {op : C → LockOp L}

/-- With `held` in hand: never a second lock, and at the end `Q` of what is returned and
of what is still in hand. -/
def OneLock (op : C → LockOp L) (Q : α → Option L → Prop) :
    Option L → Program C R α → Prop
  | held, .ret a => Q a held
  | held, .call c k =>
      match op c with
      | .take l => held = none ∧ ∀ r, OneLock op Q (some l) (k r)
      | .give l => held = some l ∧ ∀ r, OneLock op Q none (k r)
      | .other => ∀ r, OneLock op Q held (k r)

/-- With none in hand at the end. -/
abbrev GivesBack (op : C → LockOp L) : Option L → Program C R α → Prop :=
  OneLock op fun _ held => held = none

section OneLock

variable {Q : α → Option L → Prop} {held : Option L} {c : C} {l : L}
  {k : R c → Program C R α}

theorem oneLock_take (hc : op c = .take l) :
    OneLock op Q held (.call c k) ↔ held = none ∧ ∀ r, OneLock op Q (some l) (k r) := by
  rw [OneLock, hc]

theorem oneLock_give (hc : op c = .give l) :
    OneLock op Q held (.call c k) ↔ held = some l ∧ ∀ r, OneLock op Q none (k r) := by
  rw [OneLock, hc]

theorem oneLock_other (hc : op c = .other) :
    OneLock op Q held (.call c k) ↔ ∀ r, OneLock op Q held (k r) := by
  rw [OneLock, hc]

theorem OneLock.mono {Q' : α → Option L → Prop} {p : Program C R α}
    (h : OneLock op Q held p) (hQ : ∀ a held, Q a held → Q' a held) :
    OneLock op Q' held p := by
  induction p generalizing held with
  | ret a => exact hQ a held h
  | call c k ih =>
      cases hc : op c with
      | take l =>
          rw [oneLock_take hc] at h ⊢
          exact ⟨h.1, fun r => ih r (h.2 r)⟩
      | give l =>
          rw [oneLock_give hc] at h ⊢
          exact ⟨h.1, fun r => ih r (h.2 r)⟩
      | other =>
          rw [oneLock_other hc] at h ⊢
          exact fun r => ih r (h r)

theorem oneLock_bind {β : Type} {Q : β → Option L → Prop} {p : Program C R α}
    {f : α → Program C R β}
    (h : OneLock op (fun a held => OneLock op Q held (f a)) held p) :
    OneLock op Q held (p >>= f) := by
  induction p generalizing held with
  | ret a => exact h
  | call c k ih =>
      rw [Program.call_bind]
      cases hc : op c with
      | take l =>
          rw [oneLock_take hc] at h ⊢
          exact ⟨h.1, fun r => ih r (h.2 r)⟩
      | give l =>
          rw [oneLock_give hc] at h ⊢
          exact ⟨h.1, fun r => ih r (h.2 r)⟩
      | other =>
          rw [oneLock_other hc] at h ⊢
          exact fun r => ih r (h r)

end OneLock

section Owners

variable {owner : σ → L → Option Nat}

/-- Each thread keeps to one lock, the one that is its own, and a lock that is taken is
a thread's. -/
structure Held (op : C → LockOp L) (owner : σ → L → Option Nat) (x : Config σ C R α) :
    Prop where
  thread : ∀ i p, x.2[i]? = some p → ∃ held, GivesBack op held p ∧
    ∀ l, owner x.1 l = some i ↔ held = some l
  lock : ∀ l i, owner x.1 l = some i → i < x.2.length

theorem held_nil {s : σ} (h : ∀ l, owner s l = none) :
    Held op owner ((s, []) : Config σ C R α) where
  thread _ _ hp := nomatch hp
  lock l i hl := by
    rw [show owner (s, ([] : List (Program C R α))).1 l = none from h l] at hl
    cases hl

end Owners

variable [DecidableEq L] {exec : Nat → (c : C) → σ → R c → σ → Prop}
  {spawn : Nat → Program C R α → σ → σ → Prop} {env : σ → σ → Prop}
  {owner : σ → L → Option Nat}

/-- A lock that is free can be taken, one's own can be given back, and every other
command is answered and leaves the locks alone. -/
structure Locking (exec : Nat → (c : C) → σ → R c → σ → Prop) (op : C → LockOp L)
    (owner : σ → L → Option Nat) : Prop where
  take : ∀ {i c l s r s'}, op c = .take l → exec i c s r s' →
    owner s l = none ∧ owner s' = Function.update (owner s) l (some i)
  give : ∀ {i c l s r s'}, op c = .give l → exec i c s r s' →
    owner s' = Function.update (owner s) l none
  other : ∀ {i c s r s'}, op c = .other → exec i c s r s' → owner s' = owner s
  can_take : ∀ i {c l s}, op c = .take l → owner s l = none → ∃ r s', exec i c s r s'
  can_give : ∀ {i c l s}, op c = .give l → owner s l = some i → ∃ r s', exec i c s r s'
  can_other : ∀ i {c} s, op c = .other → ∃ r s', exec i c s r s'

/-- What a command does to the lock in hand. -/
theorem owner_exec (hlocking : Locking exec op owner) {i : Nat} {c : C} {s s' : σ} {r : R c}
    {k : R c → Program C R α} {held : Option L} (hexec : exec i c s r s')
    (hone : GivesBack op held (.call c k)) (howner : ∀ l, owner s l = some i ↔ held = some l) :
    ∃ held', GivesBack op held' (k r) ∧ (∀ l, owner s' l = some i ↔ held' = some l) ∧
      ∀ l j, j ≠ i → (owner s' l = some j ↔ owner s l = some j) := by
  cases hc : op c with
  | take l₀ =>
      obtain ⟨rfl, hk⟩ := (oneLock_take hc).mp hone
      obtain ⟨hfree, hs'⟩ := hlocking.take hc hexec
      refine ⟨some l₀, hk r, fun l => ?_, fun l j hj => ?_⟩
      · rw [hs', Function.update_apply]
        split
        · next hl => simp [hl]
        · next hl =>
            rw [howner l]
            simp [Ne.symm hl]
      · rw [hs', Function.update_apply]
        split
        · next hl =>
            rw [hl, hfree]
            simp [Ne.symm hj]
        · rfl
  | give l₀ =>
      obtain ⟨rfl, hk⟩ := (oneLock_give hc).mp hone
      have hs' := hlocking.give hc hexec
      have hmine := (howner l₀).mpr rfl
      refine ⟨none, hk r, fun l => ?_, fun l j hj => ?_⟩
      · rw [hs', Function.update_apply]
        split
        · simp
        · next hl =>
            rw [howner l]
            simp [Ne.symm hl]
      · rw [hs', Function.update_apply]
        split
        · next hl =>
            rw [hl, hmine]
            simp [Ne.symm hj]
        · rfl
  | other =>
      have hs' := hlocking.other hc hexec
      rw [hs']
      exact ⟨held, (oneLock_other hc).mp hone r, howner, fun _ _ _ => Iff.rfl⟩

theorem Held.runs (hlocking : Locking exec op owner) {x y : Config σ C R α}
    (h : Held op owner x) (hstep : Runs exec x y) : Held op owner y := by
  cases hstep with
  | @exec s s' ps i c k r hcall hexec =>
      obtain ⟨held, hone, howner⟩ := h.thread i _ hcall
      obtain ⟨held', hone', howner', hothers⟩ := owner_exec hlocking hexec hone howner
      have hlen := (List.getElem?_eq_some_iff.mp hcall).1
      refine ⟨fun j p hj => ?_, fun l j hj => ?_⟩
      · by_cases hji : j = i
        · subst hji
          rw [List.getElem?_set_self hlen] at hj
          obtain rfl := Option.some.inj hj
          exact ⟨held', hone', howner'⟩
        · rw [List.getElem?_set_ne (Ne.symm hji)] at hj
          obtain ⟨heldⱼ, honeⱼ, hownerⱼ⟩ := h.thread j p hj
          exact ⟨heldⱼ, honeⱼ, fun l => (hothers l j hji).trans (hownerⱼ l)⟩
      · rw [List.length_set]
        by_cases hji : j = i
        · exact hji ▸ hlen
        · exact h.lock l j ((hothers l j hji).mp hj)

theorem Held.step (hlocking : Locking exec op owner)
    (hspawn : ∀ n p s s', spawn n p s s' → GivesBack op none p ∧ owner s' = owner s)
    (henv : ∀ s s', env s s' → owner s' = owner s) {x y : Config σ C R α}
    (h : Held op owner x) (hstep : Step exec spawn env x y) : Held op owner y := by
  cases hstep with
  | runs hruns => exact h.runs hlocking hruns
  | @spawn s s' p ps hsp =>
      obtain ⟨hone, hs'⟩ := hspawn _ p s s' hsp
      refine ⟨fun j q hj => ?_, fun l j hj => ?_⟩
      · rw [hs']
        rcases Nat.lt_or_ge j ps.length with hlt | hge
        · rw [List.getElem?_append_left hlt] at hj
          exact h.thread j q hj
        · have hlen := (List.getElem?_eq_some_iff.mp hj).1
          rw [List.length_append, List.length_singleton] at hlen
          obtain rfl : j = ps.length := by omega
          rw [List.getElem?_concat_length] at hj
          obtain rfl := Option.some.inj hj
          -- No lock is that of a thread that was not there yet.
          refine ⟨none, hone, fun l => ⟨fun hl => ?_, fun hl => nomatch hl⟩⟩
          exact absurd (h.lock l _ hl) (Nat.lt_irrefl _)
      · rw [hs'] at hj
        rw [List.length_append]
        exact Nat.lt_add_right _ (h.lock l j hj)
  | @env s s' ps he =>
      have hs' := henv s s' he
      refine ⟨fun j q hj => ?_, fun l j hj => ?_⟩
      · rw [hs']
        exact h.thread j q hj
      · rw [hs'] at hj
        exact h.lock l j hj

theorem Held.reaches (hlocking : Locking exec op owner)
    (hspawn : ∀ n p s s', spawn n p s s' → GivesBack op none p ∧ owner s' = owner s)
    (henv : ∀ s s', env s s' → owner s' = owner s) {x y : Config σ C R α}
    (h : Held op owner x) (hxy : Reaches exec spawn env x y) : Held op owner y := by
  induction hxy with
  | refl => exact h
  | tail _ hstep ih => exact ih.step hlocking hspawn henv hstep

/-- A thread whose next command is not to take a lock can go on. -/
theorem runs_of_not_take (hlocking : Locking exec op owner) {x : Config σ C R α}
    (h : Held op owner x) {i : Nat} {c : C} {k : R c → Program C R α}
    (hcall : x.2[i]? = some (.call c k)) (hc : ∀ l, op c ≠ .take l) :
    ∃ y, Runs exec x y := by
  obtain ⟨held, hone, howner⟩ := h.thread i _ hcall
  have hanswer : ∃ r s', exec i c x.1 r s' := by
    cases hop : op c with
    | take l => exact absurd hop (hc l)
    | give l =>
        have hheld := ((oneLock_give hop).mp hone).1
        exact hlocking.can_give hop ((howner l).mpr hheld)
    | other => exact hlocking.can_other i x.1 hop
  obtain ⟨r, s', hexec⟩ := hanswer
  exact ⟨_, .exec hcall hexec⟩

/-- **No state is stuck.** Where a thread has not returned, one can go on. -/
theorem Held.not_stuck (hlocking : Locking exec op owner) {x : Config σ C R α}
    (h : Held op owner x) (hx : ¬Finished x.2) : ∃ y, Runs exec x y := by
  obtain ⟨p, hp, hret⟩ : ∃ p ∈ x.2, ¬∃ a, p = .ret a := by
    simpa [Finished] using hx
  obtain ⟨i, hi⟩ := List.mem_iff_getElem?.mp hp
  cases p with
  | ret a => exact absurd ⟨a, rfl⟩ hret
  | call c k =>
      cases hc : op c with
      | give l => exact runs_of_not_take hlocking h hi (by simp [hc])
      | other => exact runs_of_not_take hlocking h hi (by simp [hc])
      | take l =>
          cases howner : owner x.1 l with
          | none =>
              obtain ⟨r, s', hexec⟩ := hlocking.can_take i hc howner
              exact ⟨_, .exec hi hexec⟩
          | some j =>
              -- The one who has the lock is behind its last `take`.
              have hlt := h.lock l j howner
              have hj := List.getElem?_eq_getElem hlt
              obtain ⟨held, hone, hheld⟩ := h.thread j _ hj
              have hsome := (hheld l).mp howner
              cases hq : x.2[j] with
              | ret a =>
                  rw [hq] at hone
                  cases hsome.symm.trans hone
              | call c' k' =>
                  rw [hq] at hone hj
                  refine runs_of_not_take hlocking h hj fun l' hc' => ?_
                  cases hsome.symm.trans ((oneLock_take hc').mp hone).1

end Locks

/-! ## That they end -/

/-- No run of the program issues more than `n` commands. -/
def Within : Nat → Program C R α → Prop
  | _, .ret _ => True
  | 0, .call _ _ => False
  | n + 1, .call _ k => ∀ r, Within n (k r)

theorem Within.mono {n m : Nat} {p : Program C R α} (h : Within n p) (hle : n ≤ m) :
    Within m p := by
  induction p generalizing n m with
  | ret a => cases m <;> trivial
  | call c k ih =>
      cases n with
      | zero => exact h.elim
      | succ n =>
          cases m with
          | zero => omega
          | succ m => exact fun r => ih r (h r) (by omega)

theorem within_bind {β : Type} {n m : Nat} {p : Program C R α} {f : α → Program C R β}
    (hp : Within n p) (hf : ∀ a, Within m (f a)) : Within (n + m) (p >>= f) := by
  induction p generalizing n with
  | ret a => exact (hf a).mono (Nat.le_add_left m n)
  | call c k ih =>
      cases n with
      | zero => exact hp.elim
      | succ n =>
          rw [Nat.add_right_comm]
          exact fun r => ih r (hp r)

section Ends

variable {exec : Nat → (c : C) → σ → R c → σ → Prop}

/-- So many commands lead from here to there. -/
inductive RunsIn (exec : Nat → (c : C) → σ → R c → σ → Prop) :
    Nat → Config σ C R α → Config σ C R α → Prop where
  | refl {x} : RunsIn exec 0 x x
  | step {n x y z} : Runs exec x y → RunsIn exec n y z → RunsIn exec (n + 1) x z

/-- Each command uses up one of those that are left. -/
theorem Runs.budget {x y : Config σ C R α} (hstep : Runs exec x y) {ns : List Nat}
    (h : List.Forall₂ Within ns x.2) :
    ∃ ns', List.Forall₂ Within ns' y.2 ∧ ns'.sum + 1 = ns.sum := by
  cases hstep with
  | @exec s s' ps i c k r hcall hexec =>
      clear hexec
      change List.Forall₂ Within ns ps at h
      induction h generalizing i with
      | nil => cases hcall
      | @cons n p ns ps hn hrest ih =>
          cases i with
          | zero =>
              obtain rfl := Option.some.inj hcall
              cases n with
              | zero => exact hn.elim
              | succ n =>
                  refine ⟨n :: ns, .cons (hn r) hrest, ?_⟩
                  rw [List.sum_cons, List.sum_cons]
                  omega
          | succ i =>
              obtain ⟨ns', hns', hsum⟩ := ih hcall
              refine ⟨n :: ns', .cons hn hns', ?_⟩
              rw [List.sum_cons, List.sum_cons]
              omega

theorem RunsIn.le_sum {m : Nat} {x y : Config σ C R α} (h : RunsIn exec m x y) :
    ∀ {ns : List Nat}, List.Forall₂ Within ns x.2 → m ≤ ns.sum := by
  induction h with
  | refl => exact fun _ => Nat.zero_le _
  | step hstep _ ih =>
      intro ns hns
      obtain ⟨ns', hns', hsum⟩ := hstep.budget hns
      have := ih hns'
      omega

theorem RunsIn.reaches {spawn : Nat → Program C R α → σ → σ → Prop} {env : σ → σ → Prop}
    {m : Nat} {x y : Config σ C R α} (h : RunsIn exec m x y) : Reaches exec spawn env x y := by
  induction h with
  | refl => exact .refl
  | step hstep _ ih => exact .head (.runs hstep) ih

/-- Left to themselves, threads that cannot be stuck come to an end. -/
theorem finishes {good : Config σ C R α → Prop}
    (hstuck : ∀ x, good x → ¬Finished x.2 → ∃ y, Runs exec x y)
    (hkeep : ∀ x y, good x → Runs exec x y → good y) {ns : List Nat} :
    ∀ {x : Config σ C R α}, good x → List.Forall₂ Within ns x.2 →
      ∃ m y, RunsIn exec m x y ∧ Finished y.2 := by
  induction hn : ns.sum generalizing ns with
  | zero =>
      intro x hx hns
      by_cases hfin : Finished x.2
      · exact ⟨0, x, .refl, hfin⟩
      · obtain ⟨y, hy⟩ := hstuck x hx hfin
        obtain ⟨ns', -, hsum⟩ := hy.budget hns
        omega
  | succ n ih =>
      intro x hx hns
      by_cases hfin : Finished x.2
      · exact ⟨0, x, .refl, hfin⟩
      · obtain ⟨y, hy⟩ := hstuck x hx hfin
        obtain ⟨ns', hns', hsum⟩ := hy.budget hns
        obtain ⟨m, z, hz, hzfin⟩ := ih (by omega) (hkeep x y hx hy) hns'
        exact ⟨m + 1, z, .step hy hz, hzfin⟩

end Ends

end GstPravega.Lib.Threads
