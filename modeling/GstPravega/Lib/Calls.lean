import Mathlib.Data.List.Basic
import Mathlib.Tactic.Common

/-!
# Runs of calls

A machine is called with one input after the other. Each call answers its input and
leaves the machine in another state. What is said here of all calls of a run is got from
what is known of one call: that it keeps an invariant, or that what it gives out goes
with what was given out last.
-/

namespace GstPravega.Lib.Calls

variable {ι ο σ β : Type} (step : ι → σ → ο × σ)

/-- The state after some calls. -/
def after (inputs : List ι) (s : σ) : σ := inputs.foldl (fun s i => (step i s).2) s

/-- The inputs of the calls with what was answered. -/
def answered : List ι → σ → List (ι × ο)
  | [], _ => []
  | i :: inputs, s => (i, (step i s).1) :: answered inputs (step i s).2

def answers (inputs : List ι) (s : σ) : List ο := (answered step inputs s).map Prod.snd

/-- Every call of the run has the property, in the state that it finds. -/
def Every (P : ι → σ → Prop) (inputs : List ι) (s : σ) : Prop :=
  ∀ before i rest, inputs = before ++ i :: rest → P i (after step before s)

variable {step}

@[simp] theorem after_nil (s : σ) : after step [] s = s := rfl

@[simp] theorem after_cons (i : ι) (inputs : List ι) (s : σ) :
    after step (i :: inputs) s = after step inputs (step i s).2 := rfl

theorem after_append (inputs inputs' : List ι) (s : σ) :
    after step (inputs ++ inputs') s = after step inputs' (after step inputs s) :=
  List.foldl_append

@[simp] theorem answers_nil (s : σ) : answers step [] s = [] := rfl

@[simp] theorem answers_cons (i : ι) (inputs : List ι) (s : σ) :
    answers step (i :: inputs) s = (step i s).1 :: answers step inputs (step i s).2 := rfl

/-- Each answer is that of a call in a state of the run. -/
theorem exists_of_mem_answered {inputs : List ι} {s : σ} {x : ι × ο}
    (h : x ∈ answered step inputs s) : ∃ before rest, inputs = before ++ x.1 :: rest ∧
      x.2 = (step x.1 (after step before s)).1 := by
  induction inputs generalizing s with
  | nil => cases h
  | cons i inputs ih =>
      rcases List.mem_cons.mp h with rfl | h
      · exact ⟨[], inputs, rfl, rfl⟩
      · obtain ⟨before, rest, heq, hbefore⟩ := ih h
        exact ⟨i :: before, rest, congrArg (List.cons i) heq, hbefore⟩

/-- An invariant of one call is one of every run. -/
theorem after_invariant {Inv : σ → Prop} (hstep : ∀ i s, Inv s → Inv (step i s).2)
    (inputs : List ι) {s : σ} (h : Inv s) : Inv (after step inputs s) := by
  induction inputs generalizing s with
  | nil => exact h
  | cons i inputs ih => exact ih (hstep i s h)

@[simp] theorem every_nil (P : ι → σ → Prop) (s : σ) : Every step P [] s := by
  intro before i rest h
  cases List.append_eq_nil_iff.mp h.symm with
  | intro _ h => cases h

@[simp] theorem every_cons (P : ι → σ → Prop) (i : ι) (inputs : List ι) (s : σ) :
    Every step P (i :: inputs) s ↔ P i s ∧ Every step P inputs (step i s).2 := by
  constructor
  · intro h
    refine ⟨h [] i inputs rfl, fun before j rest heq => ?_⟩
    exact h (i :: before) j rest (congrArg (List.cons i) heq)
  · rintro ⟨hi, h⟩ before j rest heq
    cases before with
    | nil =>
        cases heq
        exact hi
    | cons k before =>
        cases heq
        exact h before j rest rfl

/-- What the answers of a run are like. -/
theorem every_answer_iff {P : ο → Prop} {inputs : List ι} {s : σ} :
    Every step (fun i s => P (step i s).1) inputs s ↔
      ∀ x ∈ answered step inputs s, P x.2 := by
  induction inputs generalizing s with
  | nil => exact iff_of_true (every_nil _ _) nofun
  | cons i inputs ih => rw [every_cons, answered, List.forall_mem_cons, ih]

/-- What is the same for each call is the same for all of them. The invariant need only be
kept by the calls that have the property. The induction is on the calls. -/
theorem every_iff {Inv : σ → Prop} {A P Q : ι → σ → Prop} {inputs : List ι} {s : σ}
    (hstep : ∀ i s, Inv s → P i s → Inv (step i s).2) (hinv : Inv s)
    (h : ∀ i s, Inv s → A i s → (P i s ↔ Q i s)) (hA : Every step A inputs s) :
    Every step P inputs s ↔ Every step Q inputs s := by
  induction inputs generalizing s with
  | nil => exact iff_of_true (every_nil _ _) (every_nil _ _)
  | cons i inputs ih =>
      rw [every_cons] at hA
      rw [every_cons, every_cons, ← h i s hinv hA.1]
      exact and_congr_right fun hP => ih (hstep i s hinv hP) hA.2

/-- Each output goes with the one before it. `Last` says which output a state remembers
as the last one. The induction is on the calls. -/
theorem isChain_emitted {emit : ι × ο → Option β} {R : β → β → Prop}
    {Last : σ → Option β → Prop} {s : σ} {last : Option β} (h : Last s last)
    (hnone : ∀ i s last, Last s last → emit (i, (step i s).1) = none →
      Last (step i s).2 last)
    (hsome : ∀ i s last b, Last s last → emit (i, (step i s).1) = some b →
      (∀ a, last = some a → R a b) ∧ Last (step i s).2 (some b))
    (inputs : List ι) :
    (last.toList ++ (answered step inputs s).filterMap emit).IsChain R := by
  induction inputs generalizing s last with
  | nil => cases last <;> simp [answered]
  | cons i inputs ih =>
      rw [answered, List.filterMap_cons]
      cases hemit : emit (i, (step i s).1) with
      | none => exact ih (hnone i s last h hemit)
      | some b =>
          obtain ⟨hR, hLast⟩ := hsome i s last b h hemit
          have hrest := ih hLast
          cases last with
          | none => exact hrest
          | some a => exact List.isChain_cons_cons.mpr ⟨hR a rfl, hrest⟩

end GstPravega.Lib.Calls
