import Mathlib.Order.Lattice

/-!
# Runs from checkpoints

Items in order are worked on by one run after the other. A run finds a checkpoint, begins
there or further ahead, and works on the items from where it begins without leaving one
out. The checkpoint it leaves is the one it found, or lies behind an item it has worked on.

What no run has worked on although it lies in front of a checkpoint, or of something that
was worked on, was skipped: it lies between a checkpoint that was found and where the run
began instead (`History.covers`).
-/

namespace GstPravega.Lib.Checkpoint

variable {α κ : Type} [LinearOrder κ]

/-- A run: the checkpoint it found, where it began, and what it has worked on. A run that
found none begins at the first item. -/
structure Run (α κ : Type) where
  found : Option κ
  begins : κ
  done : List α

/-- Ahead of the items from `begins` on the run leaves none out. -/
def Run.Unbroken (key : α → κ) (items : List α) (r : Run α κ) : Prop :=
  ∀ b ∈ r.done, ∀ c ∈ items, (r.found.isSome → r.begins ≤ key c) → key c ≤ key b → c ∈ r.done

/-- What the run leaves as a checkpoint. -/
def Run.Leaves (past : α → κ) (items : List α) (r : Run α κ) (checkpoint : Option κ) : Prop :=
  checkpoint = r.found ∨ ∃ b ∈ r.done, b ∈ items ∧ checkpoint = some (past b)

/-- The run went over it. -/
def Run.Skips (key : α → κ) (r : Run α κ) (c : α) : Prop :=
  ∃ k, r.found = some k ∧ k ≤ key c ∧ key c < r.begins

/-- A run has worked on it or skipped it. -/
def Covered (key : α → κ) (rs : List (Run α κ)) (c : α) : Prop :=
  ∃ r ∈ rs, c ∈ r.done ∨ r.Skips key c

/-- Runs one after the other, and the checkpoint that is left. -/
inductive History (key past : α → κ) (items : List α) : List (Run α κ) → Option κ → Prop where
  | nil : History key past items [] none
  | snoc {rs found r checkpoint} : History key past items rs found → r.found = found →
      r.Unbroken key items → r.Leaves past items checkpoint →
      History key past items (rs ++ [r]) checkpoint

theorem Covered.append {key : α → κ} {rs : List (Run α κ)} {c : α} (h : Covered key rs c)
    (r : Run α κ) : Covered key (rs ++ [r]) c := by
  obtain ⟨r', hr', hc⟩ := h
  exact ⟨r', List.mem_append_left _ hr', hc⟩

/-- **Nothing is left out but what was skipped.** -/
theorem History.covers {key past : α → κ} {items : List α}
    (hpast : ∀ b ∈ items, ∀ c ∈ items, key c < past b → key c ≤ key b)
    {rs : List (Run α κ)} {checkpoint : Option κ} (h : History key past items rs checkpoint) :
    (∀ r ∈ rs, ∀ b ∈ r.done, ∀ c ∈ items, key c ≤ key b → Covered key rs c) ∧
      ∀ k, checkpoint = some k → ∀ c ∈ items, key c < k → Covered key rs c := by
  induction h with
  | nil =>
      constructor
      · intro r hr
        cases hr
      · intro k hk
        cases hk
  | @snoc rs found r checkpoint _ hfound hunbroken hleaves ih =>
      obtain ⟨hdone, hbefore⟩ := ih
      have hlast : r ∈ rs ++ [r] := List.mem_append_right _ List.mem_cons_self
      -- What the last run has come to.
      have hnew : ∀ b ∈ r.done, ∀ c ∈ items, key c ≤ key b → Covered key (rs ++ [r]) c := by
        intro b hb c hc hle
        by_cases hbegins : r.found.isSome → r.begins ≤ key c
        · exact ⟨r, hlast, Or.inl (hunbroken b hb c hc hbegins hle)⟩
        · rw [Classical.not_imp, not_le] at hbegins
          obtain ⟨hsome, hlt⟩ := hbegins
          obtain ⟨k, hk⟩ := Option.isSome_iff_exists.mp hsome
          rcases lt_or_ge (key c) k with hck | hkc
          · exact (hbefore k (hfound.symm.trans hk) c hc hck).append r
          · exact ⟨r, hlast, Or.inr ⟨k, hk, hkc, hlt⟩⟩
      constructor
      · intro r' hr' b hb c hc hle
        rcases List.mem_append.mp hr' with hr' | hr'
        · exact (hdone r' hr' b hb c hc hle).append r
        · rw [List.mem_singleton.mp hr'] at hb
          exact hnew b hb c hc hle
      · intro k hk c hc hlt
        rcases hleaves with hsame | ⟨b, hb, hitem, hput⟩
        · have hk : found = some k := by rw [← hfound, ← hsame, hk]
          exact (hbefore k hk c hc hlt).append r
        · obtain rfl := Option.some.inj (hk.symm.trans hput)
          exact hnew b hb c hc (hpast b hitem c hc hlt)

end GstPravega.Lib.Checkpoint
