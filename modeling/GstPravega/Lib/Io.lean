import Mathlib.Tactic.Linarith

/-!
# Byte readers

A reader answers a request for up to `n` bytes with a piece of its own
choosing, and `readExact` asks until it has them all. What a reader delivers is
therefore not which pieces it returns but the string they spell:
`LawfulRead.remaining`. A lawful reader hands out a prefix of it and keeps the
rest, never an empty piece unless nothing is left, and moves its position by
what it handed out.

Everything a decoder does goes through `readExact`, so `readExact_spec` is the
only fact about a stack of readers that the decoders need: whatever is buffered
or limited underneath, `n` bytes are the first `n` of what remains, or the end.
-/

namespace GstPravega.Lib

/-- `blocked` is the model's own: the call waits, and what it waits for does not
come. -/
inductive ErrorKind where
  | unexpectedEof
  | invalidData
  | invalidInput
  | writeZero
  | other
  | blocked
  deriving DecidableEq, Repr

structure IoError where
  kind : ErrorKind
  message : String
  deriving DecidableEq, Repr

/-- How a call that hands back no value ends: with an error, or by panicking.
`outOfFuel` is the model's own: a loop was given too little. -/
inductive Fault where
  | error (e : IoError)
  | panicked
  | outOfFuel
  deriving DecidableEq, Repr

/-- `read`: up to so many bytes. -/
class Read (ρ : Type) where
  read : Nat → ρ → Except IoError (List UInt8) × ρ

/-- `read_exact`: pieces until the request is filled. An empty piece before
that is the end of the stream. -/
def readExact {ρ : Type} [Read ρ] (n : Nat) (r : ρ) :
    Except IoError (List UInt8) × ρ :=
  if n = 0 then (.ok [], r)
  else
    match Read.read n r with
    | (.error e, r') => (.error e, r')
    | (.ok piece, r') =>
        if piece = [] then
          (.error ⟨.unexpectedEof, "failed to fill whole buffer"⟩, r')
        else
          match readExact (n - piece.length) r' with
          | (.error e, r'') => (.error e, r'')
          | (.ok rest, r'') => (.ok (piece ++ rest), r'')
termination_by n
decreasing_by
  next hn hp =>
    have := List.length_pos_iff.mpr hp
    omega

/-- A reader that is ready delivers a fixed string, in order. -/
class LawfulRead (ρ : Type) [Read ρ] where
  Ready : ρ → Prop
  remaining : ρ → List UInt8
  position : ρ → Nat
  read_spec : ∀ (n : Nat) (r : ρ), Ready r → 0 < n → ∃ piece r',
    Read.read n r = (.ok piece, r') ∧ Ready r' ∧
      remaining r = piece ++ remaining r' ∧
      position r' = position r + piece.length ∧ piece.length ≤ n ∧
      (piece = [] → remaining r = [])

open LawfulRead

/-- A request that fits is filled from the front; one that does not runs into
the end. The induction is on the bytes still wanted. -/
theorem readExact_spec {ρ : Type} [Read ρ] [LawfulRead ρ] (n : Nat) :
    ∀ r : ρ, Ready r →
      (n ≤ (remaining r).length → ∃ r',
        readExact n r = (.ok ((remaining r).take n), r') ∧ Ready r' ∧
          remaining r' = (remaining r).drop n ∧
          position r' = position r + n) ∧
      ((remaining r).length < n → ∃ r',
        readExact n r =
          (.error ⟨.unexpectedEof, "failed to fill whole buffer"⟩, r') ∧
          Ready r' ∧ remaining r' = [] ∧
          position r' = position r + (remaining r).length) := by
  induction n using Nat.strongRecOn with
  | ind n ih =>
      intro r hr
      by_cases hn : n = 0
      · subst hn
        refine ⟨fun _ => ⟨r, ?_, hr, rfl, rfl⟩, fun h => absurd h (Nat.not_lt_zero _)⟩
        rw [readExact, if_pos rfl]
        rfl
      obtain ⟨piece, r', hread, hr', hrem, hpos, hlen, hnil⟩ :=
        read_spec n r hr (Nat.pos_of_ne_zero hn)
      rw [readExact, if_neg hn, hread]
      dsimp only
      by_cases hp : piece = []
      · have hend := hnil hp
        have hend' : remaining r' = [] := by
          rw [hend, hp] at hrem
          exact hrem.symm
        rw [if_pos hp, hend]
        refine ⟨fun h => absurd h ?_, fun _ => ⟨r', rfl, hr', hend', ?_⟩⟩
        · simp only [List.length_nil]
          omega
        · rw [hpos, hp]
      rw [if_neg hp]
      have hpiece := List.length_pos_iff.mpr hp
      obtain ⟨hfits, hshort⟩ := ih (n - piece.length) (by omega) r' hr'
      rw [hrem]
      constructor
      · intro h
        rw [List.length_append] at h
        obtain ⟨r'', hgo, hr'', hrem'', hpos''⟩ := hfits (by omega)
        rw [hgo]
        refine ⟨r'', ?_, hr'', ?_, by omega⟩
        · rw [List.take_append, List.take_of_length_le hlen]
        · rw [hrem'', List.drop_append, List.drop_of_length_le hlen,
            List.nil_append]
      · intro h
        rw [List.length_append] at h ⊢
        obtain ⟨r'', hgo, hr'', hrem'', hpos''⟩ := hshort (by omega)
        rw [hgo]
        exact ⟨r'', rfl, hr'', hrem'', by omega⟩

/-! ## A reader over a string in memory -/

/-- `std::io::Cursor`, as far as reading goes. -/
structure Cursor where
  bytes : List UInt8
  pos : Nat
  deriving DecidableEq, Repr

instance : Read Cursor where
  read n c :=
    let piece := (c.bytes.drop c.pos).take n
    (.ok piece, { c with pos := c.pos + piece.length })

instance : LawfulRead Cursor where
  Ready _ := True
  remaining c := c.bytes.drop c.pos
  position c := c.pos
  read_spec n c _ hn := by
    refine ⟨_, _, rfl, trivial, ?_, rfl, List.length_take_le _ _, fun h => ?_⟩
    · dsimp only
      rw [← List.drop_drop]
      exact (List.prefix_iff_eq_append.mp (List.take_prefix n _)).symm
    · exact (List.take_eq_nil_iff.mp h).resolve_left (Nat.ne_of_gt hn)

end GstPravega.Lib
