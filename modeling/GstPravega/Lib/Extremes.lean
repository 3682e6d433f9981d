import Mathlib.Data.List.Induction
import Mathlib.Tactic.Common

/-!
# The extreme of the values that are there

A list of values, some of which are missing, and a relation `r a b` that says that `a` is
at least as extreme as `b`: with `≤` the extreme is the least value, with `≥` the greatest.
Values come one by one behind the others (`Extreme.append_none` and its neighbours), or
many at once (`Extreme.append_iff`).

`keepLeast` is an accumulator that gives up what it has when a value is missing. What it
holds in the end is the least of the values behind the last missing one, which is the
least of all exactly where `Regained` holds.
-/

namespace GstPravega.Lib

variable {α : Type} {r : α → α → Prop}

/-- None where no value is there. -/
def Extreme (r : α → α → Prop) (xs : List (Option α)) : Option α → Prop
  | none => ∀ x ∈ xs, x = none
  | some m => some m ∈ xs ∧ ∀ a, some a ∈ xs → r m a

theorem extreme_nil : Extreme r [] none := fun _ h => absurd h List.not_mem_nil

theorem Extreme.unique (hanti : ∀ a b, r a b → r b a → a = b) {xs : List (Option α)}
    {x y : Option α} (hx : Extreme r xs x) (hy : Extreme r xs y) : x = y := by
  cases x with
  | none =>
      cases y with
      | none => rfl
      | some b => exact (hx _ hy.1).symm
  | some a =>
      cases y with
      | none => exact hy _ hx.1
      | some b => exact congrArg some (hanti a b (hx.2 b hy.1) (hy.2 a hx.1))

/-! ## One value behind the others -/

section Append

variable {xs : List (Option α)} {m a : α}

theorem Extreme.append_none {x : Option α} (h : Extreme r xs x) :
    Extreme r (xs ++ [none]) x := by
  cases x with
  | none =>
      intro y hy
      rcases List.mem_append.mp hy with hy | hy
      · exact h y hy
      · exact List.mem_singleton.mp hy
  | some m =>
      refine ⟨List.mem_append_left _ h.1, fun a ha => ?_⟩
      rcases List.mem_append.mp ha with ha | ha
      · exact h.2 a ha
      · cases List.mem_singleton.mp ha

theorem Extreme.append_first (hrefl : ∀ a, r a a) (h : Extreme r xs none) :
    Extreme r (xs ++ [some a]) (some a) := by
  refine ⟨List.mem_append_right _ List.mem_cons_self, fun b hb => ?_⟩
  rcases List.mem_append.mp hb with hb | hb
  · cases h _ hb
  · cases List.mem_singleton.mp hb
    exact hrefl a

theorem Extreme.append_keep (h : Extreme r xs (some m)) (hm : r m a) :
    Extreme r (xs ++ [some a]) (some m) := by
  refine ⟨List.mem_append_left _ h.1, fun b hb => ?_⟩
  rcases List.mem_append.mp hb with hb | hb
  · exact h.2 b hb
  · cases List.mem_singleton.mp hb
    exact hm

theorem Extreme.append_replace (hrefl : ∀ a, r a a) (htrans : ∀ a b c, r a b → r b c → r a c)
    (h : Extreme r xs (some m)) (ha : r a m) : Extreme r (xs ++ [some a]) (some a) := by
  refine ⟨List.mem_append_right _ List.mem_cons_self, fun b hb => ?_⟩
  rcases List.mem_append.mp hb with hb | hb
  · exact htrans _ _ _ ha (h.2 b hb)
  · cases List.mem_singleton.mp hb
    exact hrefl a

end Append

/-- More values in front do not matter when each one is matched. -/
theorem Extreme.append_iff (htrans : ∀ a b c, r a b → r b c → r a c)
    {xs ys : List (Option α)} {y : Option α} (h : Extreme r ys y) :
    Extreme r (xs ++ ys) y ↔ ∀ a, some a ∈ xs → ∃ b, some b ∈ ys ∧ r b a := by
  cases y with
  | none =>
      constructor
      · intro hall a ha
        cases hall _ (List.mem_append_left _ ha)
      · intro hmatch x hx
        rcases List.mem_append.mp hx with hx | hx
        · cases x with
          | none => rfl
          | some a =>
              obtain ⟨b, hb, -⟩ := hmatch a hx
              cases h _ hb
        · exact h x hx
  | some m =>
      constructor
      · intro hall a ha
        exact ⟨m, h.1, hall.2 a (List.mem_append_left _ ha)⟩
      · intro hmatch
        refine ⟨List.mem_append_right _ h.1, fun a ha => ?_⟩
        rcases List.mem_append.mp ha with ha | ha
        · obtain ⟨b, hb, hba⟩ := hmatch a ha
          exact htrans _ _ _ (h.2 b hb) hba
        · exact h.2 a ha

/-! ## An accumulator -/

/-- Behind each missing value there is a match for every value in front of it. -/
def Regained (r : α → α → Prop) (xs : List (Option α)) : Prop :=
  ∀ pre post, xs = pre ++ none :: post → ∀ a, some a ∈ pre → ∃ b, some b ∈ post ∧ r b a

theorem regained_of_isSome {xs : List (Option α)} (h : ∀ x ∈ xs, x.isSome = true) :
    Regained r xs := by
  rintro pre post rfl
  cases h none (List.mem_append_right _ List.mem_cons_self)

/-- The missing values split the list: what is behind the last one is what counts. -/
theorem exists_last_none (xs : List (Option α)) : (∀ x ∈ xs, x.isSome = true) ∨
    ∃ pre post, xs = pre ++ none :: post ∧ ∀ x ∈ post, x.isSome = true := by
  induction xs with
  | nil => exact Or.inl fun _ h => absurd h List.not_mem_nil
  | cons x xs ih =>
      rcases ih with hsome | ⟨pre, post, rfl, hpost⟩
      · cases x with
        | none => exact Or.inr ⟨[], xs, rfl, hsome⟩
        | some a => exact Or.inl (List.forall_mem_cons.mpr ⟨rfl, hsome⟩)
      · exact Or.inr ⟨x :: pre, post, rfl, hpost⟩

/-- It is the last missing value that matters. -/
theorem regained_iff {pre post : List (Option α)} (hpost : ∀ x ∈ post, x.isSome = true) :
    Regained r (pre ++ none :: post) ↔
      ∀ a, some a ∈ pre → ∃ b, some b ∈ post ∧ r b a := by
  refine ⟨fun h => h pre post rfl, fun hmatch pre' post' heq a ha => ?_⟩
  rcases List.append_eq_append_iff.mp heq with ⟨xs, rfl, hxs⟩ | ⟨xs, rfl, hxs⟩
  · cases xs with
    | nil =>
        rw [List.append_nil] at ha
        cases hxs
        exact hmatch a ha
    | cons x xs =>
        cases hxs
        cases hpost none (List.mem_append_right _ List.mem_cons_self)
  · obtain ⟨b, hb, hba⟩ := hmatch a (List.mem_append_left _ ha)
    refine ⟨b, ?_, hba⟩
    cases xs with
    | nil =>
        cases hxs
        exact hb
    | cons x xs =>
        cases hxs
        exact List.mem_append_right _ (List.mem_cons_of_mem _ hb)

/-- The value that comes replaces the one that is there unless that one is as extreme. -/
def keepLeast (r : α → α → Prop) [DecidableRel r] : Option α → Option α → Option α
  | some m, some a => if r m a then some m else some a
  | _, a => a

section KeepLeast

variable [DecidableRel r]

theorem keepLeast_none_right (x : Option α) : keepLeast r x none = none := by
  cases x <;> rfl

theorem foldl_keepLeast_none (xs ys : List (Option α)) (x : Option α) :
    (xs ++ none :: ys).foldl (keepLeast r) x = ys.foldl (keepLeast r) none := by
  rw [List.foldl_append, List.foldl_cons, keepLeast_none_right]

/-- What is held is one of the values. The induction is on the last value. -/
theorem mem_of_foldl_keepLeast {xs : List (Option α)} {m : α}
    (h : xs.foldl (keepLeast r) none = some m) : some m ∈ xs := by
  induction xs using List.reverseRecOn with
  | nil => cases h
  | append_singleton xs x ih =>
      rw [List.foldl_append, List.foldl_cons, List.foldl_nil] at h
      revert h ih
      cases xs.foldl (keepLeast r) none with
      | none =>
          intro _ h
          exact List.mem_append_right _ (List.mem_singleton.mpr h.symm)
      | some k =>
          cases x with
          | none => exact nofun
          | some a =>
              rw [keepLeast]
              intro ih h
              split at h
              · exact List.mem_append_left _ (ih h)
              · exact List.mem_append_right _ (List.mem_singleton.mpr h.symm)

/-- No value is missing. The induction is on the last value. -/
theorem extreme_foldl_keepLeast (hrefl : ∀ a, r a a)
    (htrans : ∀ a b c, r a b → r b c → r a c) (htotal : ∀ a b, r a b ∨ r b a)
    (xs : List (Option α)) (h : ∀ x ∈ xs, x.isSome = true) :
    Extreme r xs (xs.foldl (keepLeast r) none) := by
  induction xs using List.reverseRecOn with
  | nil => exact extreme_nil
  | append_singleton xs x ih =>
      have hxs := ih fun y hy => h y (List.mem_append_left _ hy)
      obtain ⟨a, rfl⟩ := Option.isSome_iff_exists.mp
        (h x (List.mem_append_right _ List.mem_cons_self))
      rw [List.foldl_append, List.foldl_cons, List.foldl_nil]
      revert hxs
      cases xs.foldl (keepLeast r) none with
      | none => exact fun hxs => hxs.append_first hrefl
      | some m =>
          intro hxs
          rw [keepLeast]
          split
          · next hm => exact hxs.append_keep hm
          · next hm =>
              exact hxs.append_replace hrefl htrans ((htotal m a).resolve_left hm)

/-- The accumulator holds the least of all values, or has lost it. -/
theorem extreme_foldl_keepLeast_iff (hrefl : ∀ a, r a a)
    (htrans : ∀ a b c, r a b → r b c → r a c) (htotal : ∀ a b, r a b ∨ r b a)
    (xs : List (Option α)) :
    Extreme r xs (xs.foldl (keepLeast r) none) ↔ Regained r xs := by
  rcases exists_last_none xs with hsome | ⟨pre, post, rfl, hpost⟩
  · exact iff_of_true (extreme_foldl_keepLeast hrefl htrans htotal xs hsome)
      (regained_of_isSome hsome)
  · have hleast := extreme_foldl_keepLeast hrefl htrans htotal post hpost
    rw [foldl_keepLeast_none, List.append_cons, hleast.append_iff htrans,
      ← List.append_cons, regained_iff hpost]
    refine forall_congr' fun a => ?_
    rw [List.mem_append, List.mem_singleton, or_iff_left (Option.some_ne_none a)]

end KeepLeast

/-- The value that comes replaces the one that is there where it is more extreme. -/
def keepGreatest (r : α → α → Prop) [DecidableRel r] : Option α → Option α → Option α
  | some m, some a => if r m a then some m else some a
  | some m, none => some m
  | none, a => a

/-- A missing value changes nothing. The induction is on the last value. -/
theorem extreme_foldl_keepGreatest [DecidableRel r] (hrefl : ∀ a, r a a)
    (htrans : ∀ a b c, r a b → r b c → r a c) (htotal : ∀ a b, r a b ∨ r b a)
    (xs : List (Option α)) : Extreme r xs (xs.foldl (keepGreatest r) none) := by
  induction xs using List.reverseRecOn with
  | nil => exact extreme_nil
  | append_singleton xs x ih =>
      rw [List.foldl_append, List.foldl_cons, List.foldl_nil]
      revert ih
      cases xs.foldl (keepGreatest r) none with
      | none =>
          intro ih
          cases x with
          | none => exact ih.append_none
          | some a => exact ih.append_first hrefl
      | some m =>
          intro ih
          cases x with
          | none => exact ih.append_none
          | some a =>
              rw [keepGreatest]
              split
              · next hm => exact ih.append_keep hm
              · next hm =>
                  exact ih.append_replace hrefl htrans ((htotal m a).resolve_left hm)

end GstPravega.Lib
