import GstPravega.Lib.Io

/-!
# Readers over readers

`Take` and `BufReader` of the standard library, over any reader that can be read
and sought.

What stands at the bottom of such a stack is a `Source`: it delivers bytes while
there are any, and what it does at its end is its own affair, it may wait there
for ever. `Take` makes a lawful reader of a source as long as its limit lies
within the bytes ahead, because at its limit it does not ask the source any more.
`BufReader` keeps a lawful reader lawful.
-/

namespace GstPravega.Lib

inductive SeekFrom where
  | start (offset : Nat)
  | «end» (delta : Int)
  | current (delta : Int)
  deriving DecidableEq, Repr

class Seek (ρ : Type) where
  seek : SeekFrom → ρ → Except IoError Nat × ρ

/-- `stream_position`. -/
def streamPosition {ρ : Type} [Seek ρ] (r : ρ) : Except IoError Nat × ρ :=
  Seek.seek (.current 0) r

/-- A reader that delivers what lies ahead of it, piece by piece. -/
class Source (ρ : Type) [Read ρ] where
  Open : ρ → Prop
  ahead : ρ → List UInt8
  offset : ρ → Nat
  read_spec : ∀ (n : Nat) (r : ρ), Open r → 0 < n → ahead r ≠ [] → ∃ piece r',
    Read.read n r = (.ok piece, r') ∧ Open r' ∧ ahead r = piece ++ ahead r' ∧
      offset r' = offset r + piece.length ∧ piece.length ≤ n ∧ piece ≠ []

variable {ρ : Type}

/-! ## A limit -/

structure Take (ρ : Type) where
  inner : ρ
  limit : Nat
  deriving DecidableEq, Repr

section Take

variable [Read ρ]

/-- At the limit the inner reader is not called, because it may still block. -/
instance : Read (Take ρ) where
  read n t :=
    if t.limit = 0 then (.ok [], t)
    else
      match Read.read (min n t.limit) t.inner with
      | (.error e, inner) => (.error e, { t with inner })
      | (.ok piece, inner) => (.ok piece, ⟨inner, t.limit - piece.length⟩)

open Source

instance [Source ρ] : LawfulRead (Take ρ) where
  Ready t := t.limit = 0 ∨ Open t.inner ∧ t.limit ≤ (ahead t.inner).length
  remaining t := (ahead t.inner).take t.limit
  position t := offset t.inner
  read_spec n t ht hn := by
    by_cases hlimit : t.limit = 0
    · refine ⟨[], t, ?_, ht, rfl, rfl, Nat.zero_le n, fun _ => ?_⟩
      · show (if t.limit = 0 then _ else _) = _
        rw [if_pos hlimit]
      · rw [hlimit, List.take_zero]
    · obtain ⟨hopen, hle⟩ := ht.resolve_left hlimit
      have hahead : ahead t.inner ≠ [] := by
        intro h
        rw [h, List.length_nil] at hle
        omega
      obtain ⟨piece, inner, hread, hopen', heq, hoff, hlen, hne⟩ :=
        read_spec (min n t.limit) t.inner hopen (by omega) hahead
      have htake : piece.length ≤ t.limit := by omega
      refine ⟨piece, ⟨inner, t.limit - piece.length⟩, ?_, ?_, ?_, hoff, by omega,
        fun h => absurd h hne⟩
      · show (if t.limit = 0 then _ else _) = _
        rw [if_neg hlimit, hread]
      · right
        rw [heq, List.length_append] at hle
        refine ⟨hopen', ?_⟩
        show t.limit - piece.length ≤ (ahead inner).length
        omega
      · rw [heq, List.take_append, List.take_of_length_le htake]

theorem Take.limit_eq_zero [Source ρ] {t : Take ρ} (ht : LawfulRead.Ready t)
    (h : LawfulRead.remaining t = []) : t.limit = 0 := by
  rcases ht with hlimit | ⟨_, hle⟩
  · exact hlimit
  · have hlen := congrArg List.length (show (ahead t.inner).take t.limit = [] from h)
    rw [List.length_take, Nat.min_eq_left hle] at hlen
    exact hlen

end Take

/-! ## A buffer -/

/-- The bytes read from the inner reader and not yet handed out are `buf`. -/
structure BufReader (ρ : Type) where
  inner : ρ
  capacity : Nat
  buf : List UInt8
  deriving DecidableEq, Repr

namespace BufReader

def withCapacity (capacity : Nat) (inner : ρ) : BufReader ρ := ⟨inner, capacity, []⟩

section Reading

variable [Read ρ]

def fillBuf (r : BufReader ρ) : Except IoError Unit × BufReader ρ :=
  if r.buf = [] then
    match Read.read r.capacity r.inner with
    | (.error e, inner) => (.error e, { r with inner })
    | (.ok piece, inner) => (.ok (), { r with inner, buf := piece })
  else (.ok (), r)

/-- A read that is larger than the buffer bypasses it, when it is empty. -/
instance : Read (BufReader ρ) where
  read n r :=
    if r.buf = [] ∧ r.capacity ≤ n then
      match Read.read n r.inner with
      | (result, inner) => (result, { r with inner })
    else
      match r.fillBuf with
      | (.error e, r) => (.error e, r)
      | (.ok (), r) => (.ok (r.buf.take n), { r with buf := r.buf.drop n })

open LawfulRead

instance [LawfulRead ρ] : LawfulRead (BufReader ρ) where
  Ready r := Ready r.inner ∧ r.buf.length ≤ position r.inner
  remaining r := r.buf ++ remaining r.inner
  position r := position r.inner - r.buf.length
  read_spec n r hr hn := by
    obtain ⟨hr, hbuf⟩ := hr
    by_cases hbypass : r.buf = [] ∧ r.capacity ≤ n
    · obtain ⟨piece, inner, hread, hr', hrem, hpos, hlen, hnil⟩ := read_spec n r.inner hr hn
      refine ⟨piece, { r with inner }, ?_, ⟨hr', ?_⟩, ?_, ?_, hlen, fun h => ?_⟩
      · show (if r.buf = [] ∧ r.capacity ≤ n then _ else _) = _
        rw [if_pos hbypass, hread]
      · show r.buf.length ≤ _
        rw [hpos]
        omega
      · show r.buf ++ remaining r.inner = piece ++ (r.buf ++ remaining inner)
        rw [hbypass.1, hrem]
        rfl
      · show position inner - r.buf.length = _
        rw [hpos, hbypass.1]
        rfl
      · show r.buf ++ remaining r.inner = []
        rw [hbypass.1, hnil h]
        rfl
    · -- The buffer, filled where it was empty, hands out its front.
      have hfill : ∃ r' : BufReader ρ, r.fillBuf = (.ok (), r') ∧ Ready r'.inner ∧
          r'.buf.length ≤ position r'.inner ∧
          r'.buf ++ remaining r'.inner = r.buf ++ remaining r.inner ∧
          position r'.inner - r'.buf.length = position r.inner - r.buf.length ∧
          (r'.buf = [] → r.buf ++ remaining r.inner = []) := by
        rw [fillBuf]
        by_cases hempty : r.buf = []
        · have hcap : 0 < r.capacity := by
            by_contra hcap
            exact hbypass ⟨hempty, by omega⟩
          obtain ⟨piece, inner, hread, hr', hrem, hpos, hlen, hnil⟩ :=
            read_spec r.capacity r.inner hr hcap
          rw [if_pos hempty, hread]
          refine ⟨{ r with inner, buf := piece }, rfl, hr', ?_, ?_, ?_, fun h => ?_⟩
          · show piece.length ≤ position inner
            omega
          · rw [hempty, hrem]
            rfl
          · show position inner - piece.length = _
            rw [hempty, List.length_nil]
            omega
          · rw [hempty, hnil h]
            rfl
        · rw [if_neg hempty]
          exact ⟨r, rfl, hr, hbuf, rfl, rfl, fun h => absurd h hempty⟩
      obtain ⟨r', hgo, hr', hbuf', hrem, hpos, hnil⟩ := hfill
      have hlen : (r'.buf.take n).length + (r'.buf.drop n).length = r'.buf.length := by
        rw [← List.length_append, List.take_append_drop]
      refine ⟨r'.buf.take n, { r' with buf := r'.buf.drop n }, ?_, ⟨hr', ?_⟩, ?_, ?_,
        List.length_take_le _ _, fun h => ?_⟩
      · show (if r.buf = [] ∧ r.capacity ≤ n then _ else _) = _
        rw [if_neg hbypass, hgo]
      · show (r'.buf.drop n).length ≤ position r'.inner
        omega
      · show r.buf ++ remaining r.inner =
          r'.buf.take n ++ (r'.buf.drop n ++ remaining r'.inner)
        rw [← List.append_assoc, List.take_append_drop, hrem]
      · show position r'.inner - (r'.buf.drop n).length =
          position r.inner - r.buf.length + (r'.buf.take n).length
        omega
      · exact hnil ((List.take_eq_nil_iff.mp h).resolve_left (Nat.ne_of_gt hn))

end Reading

section Seeking

variable [Seek ρ]

/-- What is buffered lies behind the new position, or nowhere. -/
def discardBuffer (r : BufReader ρ) : Except IoError Nat × ρ → Except IoError Nat × BufReader ρ
  | (.error e, inner) => (.error e, { r with inner })
  | (.ok offset, inner) => (.ok offset, { r with inner, buf := [] })

/-- A seek from the current position counts from what was handed out. Where the
sum does not fit 64 bits it is made in two steps. -/
instance : Seek (BufReader ρ) where
  seek pos r :=
    match pos with
    | .current n =>
        let remainder : Int := r.buf.length
        if -(2 : Int) ^ 63 ≤ n - remainder then
          r.discardBuffer (Seek.seek (.current (n - remainder)) r.inner)
        else
          match r.discardBuffer (Seek.seek (.current (-remainder)) r.inner) with
          | (.error e, r) => (.error e, r)
          | (.ok _, r) => r.discardBuffer (Seek.seek (.current n) r.inner)
    | pos => r.discardBuffer (Seek.seek pos r.inner)

theorem seek_start {r : BufReader ρ} {inner : ρ} {offset offset' : Nat}
    (h : Seek.seek (.start offset) r.inner = (.ok offset', inner)) :
    Seek.seek (.start offset) r = (.ok offset', { r with inner, buf := [] }) := by
  show r.discardBuffer (Seek.seek (.start offset) r.inner) = _
  rw [h, discardBuffer]

theorem seek_current {r : BufReader ρ} {inner : ρ} {offset : Nat} (hbuf : r.buf = [])
    (h : Seek.seek (.current 0) r.inner = (.ok offset, inner)) :
    Seek.seek (.current 0) r = (.ok offset, { r with inner }) := by
  show (if -(2 : Int) ^ 63 ≤ 0 - (r.buf.length : Int) then
    r.discardBuffer (Seek.seek (.current (0 - (r.buf.length : Int))) r.inner) else _) = _
  rw [hbuf, List.length_nil, if_pos (by decide)]
  show r.discardBuffer (Seek.seek (.current 0) r.inner) = _
  rw [h, discardBuffer, ← hbuf]

end Seeking

end BufReader

end GstPravega.Lib
