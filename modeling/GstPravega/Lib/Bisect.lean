import Mathlib.Tactic.Linarith

/-!
# Bisection that does not need an order

The loop keeps a window `[lo, hi]` and a verdict `side i` for every position:
`.lt` sends it right of `i`, `.gt` left, `.eq` ends it. Nothing is assumed
about how verdicts are arranged. What the loop maintains is a bracket: it has
seen `.lt` just left of the window and `.gt` just right of it, or the window
still ends where it began. So when the window closes it closes between two
neighbours with opposite verdicts, sorted or not.

On a sorted sequence the bracket pins the position down; the caller reads it through
the order.
-/

namespace GstPravega.Lib

/-- How a bisection ends: on a position, or between `i - 1` and `i`. -/
inductive Bisection where
  | hit (i : Nat)
  | gap (i : Nat)
  deriving DecidableEq, Repr

/-- The window after one verdict, or the end. Going left of position 0 has no
answer. -/
def bisect (side : Nat → Ordering) : Nat → Nat → Nat → Option Bisection
  | 0, _, _ => none
  | fuel + 1, lo, hi =>
      let mid := (hi + lo) / 2
      match side mid with
      | .eq => some (.hit mid)
      | .lt => if hi < mid + 1 then some (.gap (mid + 1))
          else bisect side fuel (mid + 1) hi
      | .gt => if mid = 0 then none
          else if mid - 1 < lo then some (.gap mid)
          else bisect side fuel lo (mid - 1)

/-- What a bisection started on `[f, l]` may answer. -/
def Bisection.Brackets (side : Nat → Ordering) (f l : Nat) : Bisection → Prop
  | .hit i => f ≤ i ∧ i ≤ l ∧ side i = .eq
  | .gap i => f < i ∧ i ≤ l ∧ side (i - 1) = .lt ∧ side i = .gt

/-- With the left end not sent left and the right end not sent right, the loop
answers, and its answer is bracketed. The induction is on the fuel; `hlo` and
`hhi` are the bracket. -/
theorem bisect_brackets_of {side : Nat → Ordering} {f l : Nat}
    (hf : side f ≠ .gt) (hl : side l ≠ .lt) :
    ∀ (fuel lo hi : Nat), f ≤ lo → lo ≤ hi → hi ≤ l → hi - lo < fuel →
      (lo = f ∨ side (lo - 1) = .lt) → (hi = l ∨ side (hi + 1) = .gt) →
      ∃ b, bisect side fuel lo hi = some b ∧ b.Brackets side f l := by
  intro fuel
  induction fuel with
  | zero => intro lo hi _ _ _ hfuel; omega
  | succ fuel ih =>
      intro lo hi hflo hlohi hhil hfuel hlo hhi
      have hmid : lo ≤ (hi + lo) / 2 ∧ (hi + lo) / 2 ≤ hi := by omega
      simp only [bisect]
      generalize (hi + lo) / 2 = mid at hmid ⊢
      cases hside : side mid with
      | eq => exact ⟨_, rfl, by omega, by omega, hside⟩
      | lt =>
          have hne : mid ≠ l := by rintro rfl; exact hl hside
          dsimp only
          split
          · next hend =>
              -- The window closed on its right end, which was bracketed.
              have hmh : mid = hi := by omega
              refine ⟨_, rfl, by omega, by omega, hside, ?_⟩
              rcases hhi with h | h
              · omega
              · rw [hmh]; exact h
          · exact ih (mid + 1) hi (by omega) (by omega) hhil (by omega)
              (Or.inr hside) hhi
      | gt =>
          have hne : mid ≠ f := by rintro rfl; exact hf hside
          dsimp only
          rw [if_neg (by omega)]
          split
          · next hend =>
              have hml : mid = lo := by omega
              refine ⟨_, rfl, by omega, by omega, ?_, hside⟩
              rcases hlo with h | h
              · omega
              · rw [hml]; exact h
          · refine ih lo (mid - 1) hflo (by omega) (by omega) (by omega) hlo
              (Or.inr ?_)
            rw [Nat.sub_add_cancel (by omega)]
            exact hside

/-- The whole loop, from its initial window. -/
theorem bisect_brackets {side : Nat → Ordering} {f l fuel : Nat} (hfl : f ≤ l)
    (hfuel : l - f < fuel) (hf : side f ≠ .gt) (hl : side l ≠ .lt) :
    ∃ b, bisect side fuel f l = some b ∧ b.Brackets side f l :=
  bisect_brackets_of hf hl fuel f l (Nat.le_refl f) hfl (Nat.le_refl l) hfuel
    (Or.inl rfl) (Or.inl rfl)

/-- The position at or left of where a bisection ends. -/
def Bisection.left : Bisection → Nat
  | .hit i => i
  | .gap i => i - 1

/-- The position at or right of it. -/
def Bisection.right : Bisection → Nat
  | .hit i => i
  | .gap i => i

theorem Bisection.left_le_right (b : Bisection) : b.left ≤ b.right := by
  cases b with
  | hit i => exact Nat.le_refl i
  | gap i => exact Nat.sub_le i 1

/-- On the window or at one of its ends. -/
def Bisection.Within (lo hi : Nat) : Bisection → Prop
  | .hit i => lo ≤ i ∧ i ≤ hi
  | .gap i => lo ≤ i ∧ i ≤ hi + 1

theorem Bisection.Within.mono {lo hi lo' hi' : Nat} {b : Bisection} (h : b.Within lo hi)
    (hlo : lo' ≤ lo) (hhi : hi ≤ hi') : b.Within lo' hi' := by
  cases b with
  | hit i => exact ⟨Nat.le_trans hlo h.1, Nat.le_trans h.2 hhi⟩
  | gap i => exact ⟨Nat.le_trans hlo h.1, Nat.le_trans h.2 (Nat.succ_le_succ hhi)⟩

/-- What one round does. -/
theorem bisect_cases {side : Nat → Ordering} {fuel lo hi : Nat} {b : Bisection}
    (h : bisect side (fuel + 1) lo hi = some b) :
    let mid := (hi + lo) / 2
    (side mid = .eq ∧ b = .hit mid) ∨
      (side mid = .lt ∧ (hi < mid + 1 ∧ b = .gap (mid + 1) ∨
        mid + 1 ≤ hi ∧ bisect side fuel (mid + 1) hi = some b)) ∨
      (side mid = .gt ∧ 0 < mid ∧ (mid - 1 < lo ∧ b = .gap mid ∨
        lo ≤ mid - 1 ∧ bisect side fuel lo (mid - 1) = some b)) := by
  simp only [bisect] at h ⊢
  generalize (hi + lo) / 2 = mid at h ⊢
  cases hside : side mid with
  | eq =>
      rw [hside] at h
      injection h with h
      exact Or.inl ⟨rfl, h.symm⟩
  | lt =>
      rw [hside] at h
      dsimp only at h
      refine Or.inr (Or.inl ⟨rfl, ?_⟩)
      split at h
      · next hend =>
          injection h with h
          exact Or.inl ⟨hend, h.symm⟩
      · next hend => exact Or.inr ⟨Nat.le_of_not_lt hend, h⟩
  | gt =>
      rw [hside] at h
      dsimp only at h
      split at h
      · cases h
      next hpos =>
      refine Or.inr (Or.inr ⟨rfl, Nat.pos_of_ne_zero hpos, ?_⟩)
      split at h
      · next hend =>
          injection h with h
          exact Or.inl ⟨hend, h.symm⟩
      · next hend => exact Or.inr ⟨Nat.le_of_not_lt hend, h⟩

/-- Whatever the verdicts, the loop does not leave its window. -/
theorem bisect_within {side : Nat → Ordering} {b : Bisection} :
    ∀ {fuel lo hi : Nat}, lo ≤ hi → bisect side fuel lo hi = some b → b.Within lo hi := by
  intro fuel
  induction fuel with
  | zero =>
      intro lo hi _ h
      cases h
  | succ fuel ih =>
      intro lo hi hle h
      have hmid : lo ≤ (hi + lo) / 2 ∧ (hi + lo) / 2 ≤ hi := by omega
      have hcases := bisect_cases h
      dsimp only at hcases
      generalize (hi + lo) / 2 = mid at hmid hcases
      rcases hcases with ⟨_, rfl⟩ | ⟨_, ⟨_, rfl⟩ | ⟨hend, h⟩⟩ | ⟨_, _, ⟨_, rfl⟩ | ⟨hend, h⟩⟩
      · exact hmid
      · exact ⟨by omega, by omega⟩
      · exact (ih hend h).mono (by omega) (Nat.le_refl hi)
      · exact ⟨by omega, by omega⟩
      · exact (ih hend h).mono (Nat.le_refl lo) (by omega)

/-- Sent right of `mid` it ends right of `mid`. -/
theorem bisect_within_right {side : Nat → Ordering} {fuel mid hi : Nat} {b : Bisection}
    (hmid : mid ≤ hi) (h : hi < mid + 1 ∧ b = .gap (mid + 1) ∨
      mid + 1 ≤ hi ∧ bisect side fuel (mid + 1) hi = some b) : b.Within (mid + 1) hi := by
  rcases h with ⟨_, rfl⟩ | ⟨hend, h⟩
  · exact ⟨Nat.le_refl _, Nat.succ_le_succ hmid⟩
  · exact bisect_within hend h

theorem bisect_within_left {side : Nat → Ordering} {fuel lo mid : Nat} {b : Bisection}
    (hmid : lo ≤ mid) (hpos : 0 < mid) (h : mid - 1 < lo ∧ b = .gap mid ∨
      lo ≤ mid - 1 ∧ bisect side fuel lo (mid - 1) = some b) : b.Within lo (mid - 1) := by
  rcases h with ⟨_, rfl⟩ | ⟨hend, h⟩
  · exact ⟨hmid, by omega⟩
  · exact bisect_within hend h

/-- One bisection ends left of another, or at the same place. -/
structure Bisection.Le (b b' : Bisection) : Prop where
  left : b.left ≤ b'.left
  right : b.right ≤ b'.right

theorem Bisection.Le.refl (b : Bisection) : b.Le b := ⟨Nat.le_refl _, Nat.le_refl _⟩

theorem Bisection.Within.le_pred {lo mid : Nat} {b : Bisection} (h : b.Within lo (mid - 1))
    (hpos : 0 < mid) : b.left ≤ mid - 1 ∧ b.right ≤ mid := by
  cases b with
  | hit i => exact ⟨h.2, Nat.le_trans h.2 (Nat.sub_le mid 1)⟩
  | gap i =>
      have hi : i ≤ mid := Nat.le_trans h.2 (Nat.le_of_eq (Nat.sub_add_cancel hpos))
      exact ⟨Nat.sub_le_sub_right hi 1, hi⟩

theorem Bisection.Within.succ_le {mid hi : Nat} {b : Bisection}
    (h : b.Within (mid + 1) hi) : mid ≤ b.left ∧ mid + 1 ≤ b.right := by
  cases b with
  | hit i => exact ⟨Nat.le_of_succ_le h.1, h.1⟩
  | gap i => exact ⟨Nat.le_sub_of_add_le h.1, h.1⟩

/-- Two bisections of one window, where the second is sent right wherever the first is
and the first left wherever the second is. They go the same way up to a position that
parts them. The induction is on the fuel they share. -/
theorem bisect_mono {side side' : Nat → Ordering} (hlt : ∀ i, side i = .lt → side' i = .lt)
    (hgt : ∀ i, side' i = .gt → side i = .gt) {b b' : Bisection} :
    ∀ {fuel lo hi : Nat}, lo ≤ hi → bisect side fuel lo hi = some b →
      bisect side' fuel lo hi = some b' → b.Le b' := by
  intro fuel
  induction fuel with
  | zero =>
      intro lo hi _ h
      cases h
  | succ fuel ih =>
      intro lo hi hle h h'
      have hmid : lo ≤ (hi + lo) / 2 ∧ (hi + lo) / 2 ≤ hi := by omega
      have hcases := bisect_cases h
      have hcases' := bisect_cases h'
      dsimp only at hcases hcases'
      generalize (hi + lo) / 2 = mid at hmid hcases hcases'
      rcases hcases with ⟨heq, rfl⟩ | ⟨hl, hb⟩ | ⟨hg, hpos, hb⟩
      · -- The first has found `mid`.
        rcases hcases' with ⟨_, rfl⟩ | ⟨_, hb'⟩ | ⟨hg', _⟩
        · exact .refl _
        · obtain ⟨hleft, hright⟩ := (bisect_within_right hmid.2 hb').succ_le
          exact ⟨hleft, Nat.le_of_succ_le hright⟩
        · rw [hgt mid hg'] at heq
          cases heq
      · -- Both go right.
        rcases hcases' with ⟨heq', _⟩ | ⟨_, hb'⟩ | ⟨hg', _⟩
        · rw [hlt mid hl] at heq'
          cases heq'
        · rcases hb with ⟨hend, rfl⟩ | ⟨hend, hb⟩
          · rcases hb' with ⟨_, rfl⟩ | ⟨hend', _⟩
            · exact .refl _
            · omega
          · rcases hb' with ⟨hend', _⟩ | ⟨_, hb'⟩
            · omega
            · exact ih hend hb hb'
        · rw [hlt mid hl] at hg'
          cases hg'
      · -- The first goes left.
        obtain ⟨hleft, hright⟩ := (bisect_within_left hmid.1 hpos hb).le_pred hpos
        rcases hcases' with ⟨_, rfl⟩ | ⟨_, hb'⟩ | ⟨_, _, hb'⟩
        · exact ⟨Nat.le_trans hleft (Nat.sub_le mid 1), hright⟩
        · obtain ⟨hleft', hright'⟩ := (bisect_within_right hmid.2 hb').succ_le
          exact ⟨by omega, by omega⟩
        · rcases hb with ⟨hend, rfl⟩ | ⟨hend, hb⟩
          · rcases hb' with ⟨_, rfl⟩ | ⟨hend', _⟩
            · exact .refl _
            · omega
          · rcases hb' with ⟨hend', _⟩ | ⟨_, hb'⟩
            · omega
            · exact ih hend hb hb'

end GstPravega.Lib
