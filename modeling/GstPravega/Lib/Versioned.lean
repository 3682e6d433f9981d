import Mathlib.Data.List.Chain

/-!
# A value with a version

Whoever puts a value gives it a version that is new. A put may be conditional on the version
that is there: it is done only if nothing was put since that version was read. So a version is
replaced under a condition once, and a value that is computed from the one that was read is
computed from the one that it replaces, however late the put is done.

`Puts` is all that was put, the last first. What it says of a run of unconditional and
conditional puts is that of a value that is set and updated in one step each.
-/

namespace GstPravega.Lib.Versioned

variable {V : Type}

/-- Who is to put what, and the version it is to replace. -/
structure Request (V : Type) where
  writer : Nat
  expects : Option Nat
  value : V
  deriving DecidableEq, Repr

/-- One that was done, and the version it gave. -/
structure Put (V : Type) extends Request V where
  version : Nat
  deriving DecidableEq, Repr

/-- What is there now. -/
def current (puts : List (Put V)) : Option (V × Nat) :=
  puts.head?.map fun p => (p.value, p.version)

/-- A new version. -/
def Fresh (puts : List (Put V)) (version : Nat) : Prop := ∀ p ∈ puts, p.version ≠ version

/-- The request is done. -/
def Done (q : Request V) (puts puts' : List (Put V)) : Prop :=
  (∀ expected, q.expects = some expected → ∃ old, current puts = some (old, expected)) ∧
    ∃ version, Fresh puts version ∧ puts' = ⟨q, version⟩ :: puts

/-- What is put at once meets `Sets`, and what replaces a value `Updates` it. -/
inductive Puts (Sets : V → Prop) (Updates : V → V → Prop) : List (Put V) → Prop where
  | nil : Puts Sets Updates []
  | put {puts p} (h : Puts Sets Updates puts) (hfresh : Fresh puts p.version)
      (hexpects : p.expects = none) (hsets : Sets p.value) : Puts Sets Updates (p :: puts)
  | putIf {u puts p} (h : Puts Sets Updates (u :: puts)) (hfresh : Fresh (u :: puts) p.version)
      (hexpects : p.expects = some u.version) (hupdates : Updates u.value p.value) :
      Puts Sets Updates (p :: u :: puts)

section Puts

variable {Sets : V → Prop} {Updates : V → V → Prop} {puts puts' : List (Put V)} {p u : Put V}
  {q : Request V} {expected : Nat}

theorem mem_of_current {x : V × Nat} (h : current puts = some x) :
    ∃ p ∈ puts, p.value = x.1 ∧ p.version = x.2 := by
  rw [current, Option.map_eq_some_iff] at h
  obtain ⟨p, hp, rfl⟩ := h
  exact ⟨p, List.mem_of_head? hp, rfl, rfl⟩

theorem Puts.fresh (h : Puts Sets Updates (p :: puts)) : Fresh puts p.version := by
  cases h with
  | put _ hfresh _ _ => exact hfresh
  | putIf _ hfresh _ _ => exact hfresh

theorem Puts.tail (h : Puts Sets Updates (p :: puts)) : Puts Sets Updates puts := by
  cases h with
  | put h _ _ _ => exact h
  | putIf h _ _ _ => exact h

theorem Puts.of_suffix (h : Puts Sets Updates puts) (hsuffix : puts' <:+ puts) :
    Puts Sets Updates puts' := by
  obtain ⟨newer, rfl⟩ := hsuffix
  induction newer with
  | nil => exact h
  | cons p newer ih => exact ih h.tail

theorem Puts.nodup (h : Puts Sets Updates puts) : puts.Nodup := by
  induction puts with
  | nil => exact List.nodup_nil
  | cons p puts ih => exact List.nodup_cons.mpr ⟨fun hp => h.fresh p hp rfl, ih h.tail⟩

/-- A version tells what was put. -/
theorem Puts.eq_of_version (h : Puts Sets Updates puts) {p p' : Put V} (hp : p ∈ puts)
    (hp' : p' ∈ puts) (hversion : p.version = p'.version) : p = p' := by
  induction puts with
  | nil => cases hp
  | cons u puts ih =>
      rcases List.mem_cons.mp hp with rfl | hpt
      · rcases List.mem_cons.mp hp' with rfl | hp'
        · rfl
        · exact absurd hversion.symm (h.fresh p' hp')
      · rcases List.mem_cons.mp hp' with rfl | hp'
        · exact absurd hversion (h.fresh p hpt)
        · exact ih h.tail hpt hp'

/-- What is replaced was put before. -/
theorem Puts.replaced (h : Puts Sets Updates (u :: puts)) (hp : p ∈ u :: puts)
    (hexpects : p.expects = some expected) :
    ∃ old ∈ puts, old.version = expected ∧ Updates old.value p.value := by
  induction puts generalizing u with
  | nil =>
      obtain rfl := List.mem_singleton.mp hp
      cases h with
      | put _ _ hnone _ => cases hnone.symm.trans hexpects
  | cons old puts ih =>
      rcases List.mem_cons.mp hp with rfl | hp
      · cases h with
        | put _ _ hnone _ => cases hnone.symm.trans hexpects
        | putIf _ _ hexpects' hupdates =>
            have hversion := Option.some.inj (hexpects'.symm.trans hexpects)
            exact ⟨old, List.mem_cons_self, hversion, hupdates⟩
      · obtain ⟨old', hold', hversion⟩ := ih h.tail hp
        exact ⟨old', List.mem_cons_of_mem _ hold', hversion⟩

/-- What the last put replaces is the one before it, which none before that can replace. -/
theorem Puts.expects_ne (h : Puts Sets Updates (u :: puts)) (hu : u.expects = some expected)
    (hp : p ∈ puts) : p.expects ≠ some expected := by
  intro hexpects
  cases h with
  | put _ _ hnone _ => cases hnone.symm.trans hu
  | putIf h _ hexpects' _ =>
      obtain rfl := Option.some.inj (hexpects'.symm.trans hu)
      obtain ⟨old, hold, hversion, -⟩ := h.replaced hp hexpects
      exact h.fresh old hold hversion

/-- **A version is replaced under a condition once.** -/
theorem Puts.exclusive (h : Puts Sets Updates puts) {p p' : Put V} (hp : p ∈ puts)
    (hp' : p' ∈ puts) (hexpects : p.expects = some expected)
    (hexpects' : p'.expects = some expected) : p = p' := by
  induction puts with
  | nil => cases hp
  | cons u puts ih =>
      rcases List.mem_cons.mp hp with rfl | hpt
      · rcases List.mem_cons.mp hp' with rfl | hp'
        · rfl
        · exact absurd hexpects' (h.expects_ne hexpects hp')
      · rcases List.mem_cons.mp hp' with rfl | hp'
        · exact absurd hexpects (h.expects_ne hexpects' hpt)
        · exact ih h.tail hpt hp'

/-- What is there now: a value that was set, and the updates since then. -/
theorem Puts.since (h : Puts Sets Updates puts) (hne : puts ≠ []) :
    ∃ updates p rest, puts = updates ++ p :: rest ∧ (∀ u ∈ updates, u.expects ≠ none) ∧
      p.expects = none ∧ Sets p.value ∧
      (updates ++ [p]).IsChain fun newer older => Updates older.value newer.value := by
  induction h with
  | nil => exact absurd rfl hne
  | @put puts p _ _ hnone hsets _ =>
      exact ⟨[], p, puts, rfl, fun u hu => absurd hu List.not_mem_nil, hnone, hsets,
        .singleton _⟩
  | @putIf u puts p h hfresh hexpects hupdates ih =>
      obtain ⟨updates, first, rest, heq, hsome, hnone, hsets, hchain⟩ := ih (List.cons_ne_nil _ _)
      refine ⟨p :: updates, first, rest, ?_, ?_, hnone, hsets, ?_⟩
      · rw [heq, List.cons_append]
      · intro u' hu'
        rcases List.mem_cons.mp hu' with rfl | hu'
        · simp [hexpects]
        · exact hsome u' hu'
      · cases updates with
        | nil =>
            obtain ⟨rfl, -⟩ := List.cons.inj heq
            exact .cons_cons hupdates hchain
        | cons u' updates =>
            obtain ⟨rfl, -⟩ := List.cons.inj heq
            exact .cons_cons hupdates hchain

/-! ## Requests that may be late -/

/-- The request sets a value, or updates the one that has the version it is to replace. -/
structure Based (Sets : V → Prop) (Updates : V → V → Prop) (puts : List (Put V))
    (q : Request V) : Prop where
  sets : q.expects = none → Sets q.value
  updates : ∀ expected, q.expects = some expected →
    ∃ u ∈ puts, u.version = expected ∧ Updates u.value q.value

theorem Based.mono (h : Based Sets Updates puts q) (hsuffix : puts <:+ puts') :
    Based Sets Updates puts' q where
  sets := h.sets
  updates expected hexpects := by
    obtain ⟨u, hu, hupdates⟩ := h.updates expected hexpects
    exact ⟨u, hsuffix.subset hu, hupdates⟩

/-- Whenever it is done. -/
theorem Puts.done (h : Puts Sets Updates puts) (hq : Based Sets Updates puts q)
    (hdone : Done q puts puts') :
    Puts Sets Updates puts' ∧ ∃ version, puts' = ⟨q, version⟩ :: puts := by
  obtain ⟨hcurrent, version, hfresh, rfl⟩ := hdone
  refine ⟨?_, version, rfl⟩
  cases hexpects : q.expects with
  | none => exact h.put hfresh hexpects (hq.sets hexpects)
  | some expected =>
      obtain ⟨old, hcurrent⟩ := hcurrent expected hexpects
      obtain ⟨u, hu, hversion, hupdates⟩ := hq.updates expected hexpects
      cases puts with
      | nil => cases hu
      | cons p puts =>
          have hp : p.version = expected := (Prod.mk.inj (Option.some.inj hcurrent)).2
          obtain rfl : u = p := h.eq_of_version hu List.mem_cons_self (hversion.trans hp.symm)
          subst hp
          exact h.putIf hfresh hexpects hupdates

end Puts

end GstPravega.Lib.Versioned
