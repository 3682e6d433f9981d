import GstPravega.Lib.Io

/-!
# Byte writers

A writer is handed a slice and takes a piece of its own choosing from the front of it, or
none: then it fails, or it asks for the call to be made again. `writeAll` hands over what
is left until nothing is.

What a lawful writer has taken is a string that only grows (`LawfulWrite.written`).
`Takes` says that a writer takes a whole slice in the end, in whatever pieces. It is about
the writer alone, and `writeAll` succeeds on exactly those slices.
-/

namespace GstPravega.Lib

/-- What a call of `write` answers. The bytes it took are the first `n`. `interrupted` is
the error of that kind. -/
inductive WriteAnswer where
  | accepted (n : Nat)
  | interrupted
  | error (e : IoError)
  deriving DecidableEq, Repr

/-- `write`: some of the bytes. -/
class Write (ω : Type) where
  write : List UInt8 → ω → WriteAnswer × ω

/-- `write_all`: pieces until the slice is empty. A call that takes nothing is an error,
and one that is interrupted is made again. -/
def writeAll {ω : Type} [Write ω] : Nat → List UInt8 → ω → Except Fault Unit × ω
  | _, [], w => (.ok (), w)
  | 0, _ :: _, w => (.error .outOfFuel, w)
  | fuel + 1, b :: bytes, w =>
      match Write.write (b :: bytes) w with
      | (.accepted 0, w) =>
          (.error (.error ⟨.writeZero, "failed to write whole buffer"⟩), w)
      | (.accepted n, w) => writeAll fuel ((b :: bytes).drop n) w
      | (.interrupted, w) => writeAll fuel (b :: bytes) w
      | (.error e, w) => (.error (.error e), w)

/-- The writer takes the slice, piece after piece. -/
inductive Takes {ω : Type} [Write ω] : List UInt8 → ω → Prop where
  | nil (w : ω) : Takes [] w
  | piece {bytes : List UInt8} {w w' : ω} {n : Nat} (hbytes : bytes ≠ [])
      (hwrite : Write.write bytes w = (.accepted n, w')) (hn : 0 < n)
      (hrest : Takes (bytes.drop n) w') : Takes bytes w
  | again {bytes : List UInt8} {w w' : ω} (hbytes : bytes ≠ [])
      (hwrite : Write.write bytes w = (.interrupted, w')) (hrest : Takes bytes w') :
      Takes bytes w

/-- A lawful writer takes a piece that is not empty from the front of the slice, or
nothing. -/
class LawfulWrite (ω : Type) [Write ω] where
  written : ω → List UInt8
  write_accepted : ∀ {bytes : List UInt8} {w w' : ω} {n : Nat}, bytes ≠ [] →
    Write.write bytes w = (.accepted n, w') →
      0 < n ∧ n ≤ bytes.length ∧ written w' = written w ++ bytes.take n
  write_interrupted : ∀ {bytes : List UInt8} {w w' : ω},
    Write.write bytes w = (.interrupted, w') → written w' = written w
  write_error : ∀ {bytes : List UInt8} {w w' : ω} {e : IoError},
    Write.write bytes w = (.error e, w') → written w' = written w

open LawfulWrite

section Writing

variable {ω : Type} [Write ω]

theorem writeAll_of_takes {bytes : List UInt8} {w : ω} (h : Takes bytes w) :
    ∃ fuel w', writeAll fuel bytes w = (.ok (), w') := by
  induction h with
  | nil w => exact ⟨0, w, rfl⟩
  | @piece bytes w w' n hbytes hwrite hn _ ih =>
      obtain ⟨fuel, w'', h⟩ := ih
      obtain ⟨b, bytes, rfl⟩ := List.exists_cons_of_ne_nil hbytes
      obtain ⟨n, rfl⟩ := Nat.exists_eq_add_one.mpr hn
      refine ⟨fuel + 1, w'', ?_⟩
      rw [writeAll, hwrite]
      exact h
  | @again bytes w w' hbytes hwrite _ ih =>
      obtain ⟨fuel, w'', h⟩ := ih
      obtain ⟨b, bytes, rfl⟩ := List.exists_cons_of_ne_nil hbytes
      refine ⟨fuel + 1, w'', ?_⟩
      rw [writeAll, hwrite]
      exact h

/-- The induction is on the calls. -/
theorem takes_of_writeAll {fuel : Nat} : ∀ {bytes : List UInt8} {w w' : ω},
    writeAll fuel bytes w = (.ok (), w') → Takes bytes w := by
  induction fuel with
  | zero =>
      intro bytes w w' h
      cases bytes with
      | nil => exact .nil w
      | cons b bytes => cases h
  | succ fuel ih =>
      intro bytes w w' h
      cases bytes with
      | nil => exact .nil w
      | cons b bytes =>
          rw [writeAll] at h
          split at h
          · cases h
          · next n w₁ hn hwrite =>
              exact .piece (List.cons_ne_nil _ _) hwrite (Nat.pos_of_ne_zero hn) (ih h)
          · next hwrite => exact .again (List.cons_ne_nil _ _) hwrite (ih h)
          · cases h

/-- What has been written when `writeAll` has succeeded. -/
theorem written_of_writeAll [LawfulWrite ω] {fuel : Nat} :
    ∀ {bytes : List UInt8} {w w' : ω},
      writeAll fuel bytes w = (.ok (), w') → written w' = written w ++ bytes := by
  induction fuel with
  | zero =>
      intro bytes w w' h
      cases bytes with
      | nil =>
          cases h
          exact (List.append_nil _).symm
      | cons b bytes => cases h
  | succ fuel ih =>
      intro bytes w w' h
      cases bytes with
      | nil =>
          cases h
          exact (List.append_nil _).symm
      | cons b bytes =>
          rw [writeAll] at h
          split at h
          · cases h
          · next n w₁ hn hwrite =>
              obtain ⟨_, _, hwritten⟩ := write_accepted (List.cons_ne_nil _ _) hwrite
              rw [ih h, hwritten, List.append_assoc, List.take_append_drop]
          · next hwrite => rw [ih h, write_interrupted hwrite]
          · cases h

end Writing

/-! ## A writer to memory -/

/-- `Vec<u8>`, as far as writing goes. -/
structure VecWriter where
  bytes : List UInt8
  deriving DecidableEq, Repr

instance : Write VecWriter where
  write bytes w := (.accepted bytes.length, ⟨w.bytes ++ bytes⟩)

instance : LawfulWrite VecWriter where
  written w := w.bytes
  write_accepted hbytes h := by
    cases h
    exact ⟨List.length_pos_iff.mpr hbytes, Nat.le_refl _, by rw [List.take_length]⟩
  write_interrupted h := by cases h
  write_error h := by cases h

end GstPravega.Lib
