import Mathlib.Tactic.Linarith

/-!
# An append-only log behind an unreliable confirmation

A writer appends entries in order; the store makes them durable in that same
order, some time after the append and at the latest when a flush returns. A
crash keeps every durable entry and forgets the others. Since durability only
ever advances along the list, one number says it all.
-/

namespace GstPravega.Lib

/-- The appended entries, the first `durable` of which survive a crash. -/
structure Log (α : Type) where
  entries : List α
  durable : Nat
  durable_le : durable ≤ entries.length

namespace Log

variable {α : Type}

def empty : Log α := ⟨[], 0, Nat.le_refl 0⟩

def append (l : Log α) (a : α) : Log α :=
  ⟨l.entries ++ [a], l.durable, by
    have := l.durable_le
    rw [List.length_append]
    omega⟩

/-- All of it is durable. -/
def flush (l : Log α) : Log α := ⟨l.entries, l.entries.length, Nat.le_refl _⟩

/-- What survives a crash. -/
def stored (l : Log α) : List α := l.entries.take l.durable

def crash (l : Log α) : Log α := ⟨l.stored, l.stored.length, Nat.le_refl _⟩

/-- Some more entries became durable. -/
def Persists (l l' : Log α) : Prop :=
  l'.entries = l.entries ∧ l.durable ≤ l'.durable

@[simp] theorem append_entries (l : Log α) (a : α) :
    (l.append a).entries = l.entries ++ [a] := rfl

@[simp] theorem flush_entries (l : Log α) : l.flush.entries = l.entries := rfl

@[simp] theorem flush_stored (l : Log α) : l.flush.stored = l.entries := by
  simp [stored, flush]

@[simp] theorem crash_entries (l : Log α) : l.crash.entries = l.stored := rfl

@[simp] theorem crash_stored (l : Log α) : l.crash.stored = l.stored :=
  List.take_length

@[simp] theorem append_stored (l : Log α) (a : α) :
    (l.append a).stored = l.stored := by
  have h := l.durable_le
  simp only [stored, append, List.take_append]
  rw [Nat.sub_eq_zero_of_le h]
  simp

theorem stored_prefix (l : Log α) : l.stored <+: l.entries :=
  List.take_prefix _ _

theorem Persists.refl (l : Log α) : l.Persists l := ⟨rfl, Nat.le_refl _⟩

theorem Persists.trans {l l' l'' : Log α} (h : l.Persists l')
    (h' : l'.Persists l'') : l.Persists l'' :=
  ⟨h'.1.trans h.1, Nat.le_trans h.2 h'.2⟩

/-- What was stored stays stored, in place. -/
theorem Persists.stored_prefix {l l' : Log α} (h : l.Persists l') :
    l.stored <+: l'.stored := by
  rw [stored, stored, h.1]
  exact List.take_prefix_take_left h.2

/-- A log that was all durable still is. -/
theorem Persists.durable_eq {l l' : Log α} (h : l.Persists l')
    (hl : l.durable = l.entries.length) : l'.durable = l'.entries.length := by
  have h1 := l'.durable_le
  have h2 := h.2
  rw [h.1] at h1 ⊢
  omega

theorem stored_eq_of_durable {l : Log α} (h : l.durable = l.entries.length) :
    l.stored = l.entries := by
  rw [stored, h, List.take_length]

end Log

end GstPravega.Lib
