import GstPravega.Lib.Readers
import Mathlib.Data.List.Infix

/-!
# Readers over stored bytes

`Storage` says of a reader what its operations do when they succeed, and nothing of
when they do. `Plain` is the reader one has in mind: a position in the bytes that no
operation takes beyond an end position.

What a stack of adaptors does while nothing fails below is said with a reader that is
watched: it does what the reader does and keeps a mark once an operation has failed.
`Watches` carries both through an adaptor, so a stack over a watched reader tells what
the same stack over the reader itself would have done.
-/

namespace GstPravega.Lib

variable {ρ ω : Type}

/-- Where a seek from a position leads, in so many bytes. -/
def SeekFrom.target (length position : Nat) : SeekFrom → Int
  | .start offset => offset
  | .end delta => length + delta
  | .current delta => position + delta

/-- A reader over bytes that stay as they are. A read hands out the next of them, and
none at their end; a seek tells where it has gone. -/
class Storage (ρ : Type) [Read ρ] [Seek ρ] where
  bytes : ρ → List UInt8
  offset : ρ → Nat
  read_ok : ∀ {n : Nat} {r r' : ρ} {piece : List UInt8},
    Read.read n r = (.ok piece, r') →
      bytes r' = bytes r ∧ offset r' = offset r + piece.length ∧
        piece <+: (bytes r).drop (offset r) ∧ piece.length ≤ n ∧
        (piece = [] → n = 0 ∨ (bytes r).length ≤ offset r)
  seek_ok : ∀ {pos : SeekFrom} {r r' : ρ} {offset' : Nat},
    Seek.seek pos r = (.ok offset', r') →
      bytes r' = bytes r ∧ offset r' = offset' ∧
        pos.target (bytes r).length (offset r) = offset'

/-! ## A buffer whose operations succeed -/

namespace BufReader

variable {b b' : BufReader ρ} {n offset : Nat} {piece : List UInt8} {pos : SeekFrom}

/-- A read goes past an empty buffer, or fills it first, or is answered from it. -/
theorem read_ok [Read ρ] (h : Read.read n b = (.ok piece, b')) :
    (b.buf = [] ∧ ∃ inner, Read.read n b.inner = (.ok piece, inner) ∧
      b' = ⟨inner, b.capacity, []⟩) ∨
    (n < b.capacity ∧ b.buf = [] ∧ ∃ filled inner,
      Read.read b.capacity b.inner = (.ok filled, inner) ∧ piece = filled.take n ∧
      b' = ⟨inner, b.capacity, filled.drop n⟩) ∨
    (b.buf ≠ [] ∧ piece = b.buf.take n ∧ b' = ⟨b.inner, b.capacity, b.buf.drop n⟩) := by
  obtain ⟨r, capacity, buf⟩ := b
  dsimp only
  by_cases hempty : buf = []
  · by_cases hcapacity : capacity ≤ n
    · left
      simp only [Read.read, if_pos (And.intro hempty hcapacity)] at h
      cases hread : Read.read n r with
      | mk result inner =>
          rw [hread] at h
          cases h
          exact ⟨hempty, inner, rfl, by rw [hempty]⟩
    · right
      left
      have hfill : ¬(buf = [] ∧ capacity ≤ n) := fun hf => hcapacity hf.2
      simp only [Read.read, if_neg hfill, fillBuf, if_pos hempty] at h
      cases hread : Read.read capacity r with
      | mk result inner =>
          rw [hread] at h
          cases result with
          | error e => cases h
          | ok filled =>
              cases h
              exact ⟨Nat.lt_of_not_le hcapacity, hempty, filled, inner, rfl, rfl, rfl⟩
  · right
    right
    have hbuffered : ¬(buf = [] ∧ capacity ≤ n) := fun hf => hempty hf.1
    simp only [Read.read, if_neg hbuffered, fillBuf, if_neg hempty] at h
    cases h
    exact ⟨hempty, rfl, rfl⟩

theorem discardBuffer_ok {x : Except IoError Nat × ρ}
    (h : b.discardBuffer x = (.ok offset, b')) :
    ∃ inner, x = (.ok offset, inner) ∧ b' = ⟨inner, b.capacity, []⟩ := by
  obtain ⟨e | offset', inner⟩ := x
  · cases h
  · cases h
    exact ⟨inner, rfl, rfl⟩

/-- A seek from the current position is made from where the reader below is, and in two
steps where the first does not fit; any other is left to the reader below. -/
theorem seek_ok [Seek ρ] (h : Seek.seek pos b = (.ok offset, b')) :
    (∃ inner, Seek.seek pos b.inner = (.ok offset, inner) ∧ (∀ d, pos ≠ .current d) ∧
      b' = ⟨inner, b.capacity, []⟩) ∨
    ∃ d, pos = .current d ∧
      ((∃ inner, Seek.seek (.current (d - b.buf.length)) b.inner = (.ok offset, inner) ∧
        b' = ⟨inner, b.capacity, []⟩) ∨
      ∃ back middle inner,
        Seek.seek (.current (-b.buf.length)) b.inner = (.ok back, middle) ∧
        Seek.seek (.current d) middle = (.ok offset, inner) ∧
        b' = ⟨inner, b.capacity, []⟩) := by
  cases pos with
  | start o =>
      obtain ⟨inner, hinner, hb'⟩ := discardBuffer_ok h
      exact Or.inl ⟨inner, hinner, fun _ hf => (by cases hf), hb'⟩
  | «end» d =>
      obtain ⟨inner, hinner, hb'⟩ := discardBuffer_ok h
      exact Or.inl ⟨inner, hinner, fun _ hf => (by cases hf), hb'⟩
  | current d =>
      refine Or.inr ⟨d, rfl, ?_⟩
      by_cases hfits : -(2 : Int) ^ 63 ≤ d - (b.buf.length : Int)
      · simp only [Seek.seek, if_pos hfits] at h
        exact Or.inl (discardBuffer_ok h)
      · simp only [Seek.seek, if_neg hfits] at h
        cases hback : b.discardBuffer (Seek.seek (.current (-b.buf.length)) b.inner) with
        | mk result b'' =>
            rw [hback] at h
            cases result with
            | error e => cases h
            | ok back =>
                obtain ⟨middle, hmiddle, rfl⟩ := discardBuffer_ok hback
                obtain ⟨inner, hinner, hb'⟩ := discardBuffer_ok h
                exact Or.inr ⟨back, middle, inner, hmiddle, hinner, hb'⟩

end BufReader

/-! ## Operations -/

inductive Access where
  | read (n : Nat)
  | readExact (n : Nat)
  | seek (pos : SeekFrom)
  deriving DecidableEq, Repr

inductive Answer where
  | bytes (piece : List UInt8)
  | position (offset : Nat)
  | error (e : IoError)
  deriving DecidableEq, Repr

def Answer.ofBytes : Except IoError (List UInt8) → Answer
  | .ok piece => .bytes piece
  | .error e => .error e

def Answer.ofPosition : Except IoError Nat → Answer
  | .ok offset => .position offset
  | .error e => .error e

def perform [Read ρ] [Seek ρ] (r : ρ) : Access → Answer × ρ
  | .read n => (Answer.ofBytes (Read.read n r).1, (Read.read n r).2)
  | .readExact n => (Answer.ofBytes (readExact n r).1, (readExact n r).2)
  | .seek pos => (Answer.ofPosition (Seek.seek pos r).1, (Seek.seek pos r).2)

/-- One operation after the other, whatever they answer. -/
def performAll [Read ρ] [Seek ρ] : List Access → ρ → List Answer × ρ
  | [], r => ([], r)
  | access :: rest, r =>
      ((perform r access).1 :: (performAll rest (perform r access).2).1,
        (performAll rest (perform r access).2).2)

/-! ## The plain reader -/

section Plain

variable (bytes : List UInt8) (endPosition : Nat)

/-- The bytes are those from `pos` on, and all of them in front of the end position. -/
def BytesAt (pos : Nat) (piece : List UInt8) : Prop :=
  ∀ i b, piece[i]? = some b → bytes[pos + i]? = some b ∧ pos + i < endPosition

/-- What an operation may answer at a position, and where it leads. Only `read` has a
choice: how many bytes it hands out, but not none while there are any. -/
inductive Plain : Access → Nat → Answer → Nat → Prop where
  | read {n pos : Nat} {piece : List UInt8} (hbytes : BytesAt bytes endPosition pos piece)
      (hlength : piece.length ≤ n)
      (hempty : piece = [] → n = 0 ∨ pos = endPosition ∨ bytes.length ≤ pos) :
      Plain (.read n) pos (.bytes piece) (pos + piece.length)
  | exact {pos : Nat} {piece : List UInt8} (hbytes : BytesAt bytes endPosition pos piece) :
      Plain (.readExact piece.length) pos (.bytes piece) (pos + piece.length)
  | short {n pos : Nat} (hshort : max pos (min endPosition bytes.length) < pos + n) :
      Plain (.readExact n) pos (.error ⟨.unexpectedEof, "failed to fill whole buffer"⟩)
        (max pos (min endPosition bytes.length))
  | seek {pos target : Nat} {request : SeekFrom}
      (htarget : request.target bytes.length pos = target) :
      Plain (.seek request) pos (.position (min target endPosition)) (min target endPosition)

/-- Operations, their answers, and the position behind the last. -/
inductive PlainRun : List Access → Nat → List Answer → Nat → Prop where
  | nil {pos : Nat} : PlainRun [] pos [] pos
  | cons {access accesses answer answers} {pos pos' pos'' : Nat}
      (hhead : Plain bytes endPosition access pos answer pos')
      (htail : PlainRun accesses pos' answers pos'') :
      PlainRun (access :: accesses) pos (answer :: answers) pos''

end Plain

/-! ## A reader that is watched -/

structure Watched (ρ : Type) where
  inner : ρ
  failed : Bool
  deriving DecidableEq, Repr

/-- The mark after an answer. -/
def marked {α : Type} (failed : Bool) : Except IoError α → Bool
  | .ok _ => failed
  | .error _ => true

instance [Read ρ] : Read (Watched ρ) where
  read n w := ((Read.read n w.inner).1,
    ⟨(Read.read n w.inner).2, marked w.failed (Read.read n w.inner).1⟩)

instance [Seek ρ] : Seek (Watched ρ) where
  seek pos w := ((Seek.seek pos w.inner).1,
    ⟨(Seek.seek pos w.inner).2, marked w.failed (Seek.seek pos w.inner).1⟩)

instance [Read ρ] [Seek ρ] [Storage ρ] : Storage (Watched ρ) where
  bytes w := Storage.bytes w.inner
  offset w := Storage.offset w.inner
  read_ok {n w w' piece} h := by
    have hpiece : (Read.read n w.inner).1 = .ok piece := congrArg Prod.fst h
    have hinner : (Read.read n w.inner).2 = w'.inner := congrArg (fun x => x.2.inner) h
    exact Storage.read_ok (Prod.ext hpiece hinner)
  seek_ok {pos w w' offset} h := by
    have hoffset : (Seek.seek pos w.inner).1 = .ok offset := congrArg Prod.fst h
    have hinner : (Seek.seek pos w.inner).2 = w'.inner := congrArg (fun x => x.2.inner) h
    exact Storage.seek_ok (Prod.ext hoffset hinner)

/-- The operations of `ω` are those of `ρ`, with a mark that an error sets and nothing
takes away. -/
class Watches (ω ρ : Type) [Read ω] [Seek ω] [Read ρ] [Seek ρ] where
  watch : ρ → ω
  erase : ω → ρ
  Failed : ω → Prop
  erase_watch : ∀ r, erase (watch r) = r
  read_erase : ∀ n w, Read.read n (erase w) = ((Read.read n w).1, erase (Read.read n w).2)
  seek_erase : ∀ pos w,
    Seek.seek pos (erase w) = ((Seek.seek pos w).1, erase (Seek.seek pos w).2)
  failed_read : ∀ n w, (Failed w ∨ ∃ e, (Read.read n w).1 = .error e) →
    Failed (Read.read n w).2
  failed_seek : ∀ pos w, (Failed w ∨ ∃ e, (Seek.seek pos w).1 = .error e) →
    Failed (Seek.seek pos w).2

/-- A result that is `ok` leaves what came before. -/
theorem of_or_ok_eq_error {α : Type} {a : α} {p : Prop}
    (h : p ∨ ∃ e, (.ok a : Except IoError α) = .error e) : p := by
  rcases h with h | ⟨e, he⟩
  · exact h
  · cases he

theorem marked_eq_true {α : Type} {failed : Bool} {x : Except IoError α}
    (h : failed = true ∨ ∃ e, x = .error e) : marked failed x = true := by
  cases x with
  | error e => rfl
  | ok a => exact of_or_ok_eq_error h

instance [Read ρ] [Seek ρ] : Watches (Watched ρ) ρ where
  watch r := ⟨r, false⟩
  erase w := w.inner
  Failed w := w.failed = true
  erase_watch _ := rfl
  read_erase _ _ := rfl
  seek_erase _ _ := rfl
  failed_read _ _ h := marked_eq_true h
  failed_seek _ _ h := marked_eq_true h

/-! ### Through a buffer -/

section BufReader

variable [Read ω] [Seek ω] [Read ρ] [Seek ρ]

namespace BufReader

/-- The same buffer over another reader. -/
def map (f : ω → ρ) (b : BufReader ω) : BufReader ρ := ⟨f b.inner, b.capacity, b.buf⟩

variable [Watches ω ρ]

open Watches

theorem read_erase (n : Nat) (b : BufReader ω) :
    Read.read n (b.map (erase : ω → ρ)) = ((Read.read n b).1, (Read.read n b).2.map erase) := by
  obtain ⟨r, capacity, buf⟩ := b
  show Read.read n (⟨erase r, capacity, buf⟩ : BufReader ρ) = _
  by_cases hbypass : buf = [] ∧ capacity ≤ n
  · simp only [Read.read, if_pos hbypass, Watches.read_erase, map]
  · by_cases hempty : buf = []
    · simp only [Read.read, if_neg hbypass, fillBuf, if_pos hempty, Watches.read_erase]
      rcases Read.read capacity r with ⟨e | piece, r'⟩
      · rfl
      · rfl
    · simp only [Read.read, if_neg hbypass, fillBuf, if_neg hempty]
      rfl

theorem failed_read (n : Nat) (b : BufReader ω)
    (h : Failed ρ b.inner ∨ ∃ e, (Read.read n b).1 = .error e) :
    Failed ρ (Read.read n b).2.inner := by
  obtain ⟨r, capacity, buf⟩ := b
  by_cases hbypass : buf = [] ∧ capacity ≤ n
  · simp only [Read.read, if_pos hbypass] at h ⊢
    exact Watches.failed_read n r h
  by_cases hempty : buf = []
  · simp only [Read.read, if_neg hbypass, fillBuf, if_pos hempty] at h ⊢
    have hfill : (Failed ρ r ∨ ∃ e, (Read.read capacity r).1 = .error e) →
        Failed ρ (Read.read capacity r).2 := Watches.failed_read capacity r
    cases hread : Read.read capacity r with
    | mk result r' =>
        rw [hread] at h hfill
        cases result with
        | error e => exact hfill (Or.inr ⟨e, rfl⟩)
        | ok piece => exact hfill (Or.inl (of_or_ok_eq_error h))
  · simp only [Read.read, if_neg hbypass, fillBuf, if_neg hempty] at h ⊢
    exact of_or_ok_eq_error h

theorem discardBuffer_erase (r : ω) (capacity : Nat) (buf : List UInt8)
    (x : Except IoError Nat × ω) :
    discardBuffer ⟨erase r, capacity, buf⟩ (x.1, (erase x.2 : ρ)) =
      ((discardBuffer ⟨r, capacity, buf⟩ x).1,
        (discardBuffer ⟨r, capacity, buf⟩ x).2.map erase) := by
  obtain ⟨e | offset, r'⟩ := x
  · rfl
  · rfl

theorem seek_erase (pos : SeekFrom) (b : BufReader ω) :
    Seek.seek pos (b.map (erase : ω → ρ)) =
      ((Seek.seek pos b).1, (Seek.seek pos b).2.map erase) := by
  obtain ⟨r, capacity, buf⟩ := b
  show Seek.seek pos (⟨erase r, capacity, buf⟩ : BufReader ρ) = _
  cases pos with
  | start offset => simp only [Seek.seek, Watches.seek_erase, discardBuffer_erase]
  | «end» delta => simp only [Seek.seek, Watches.seek_erase, discardBuffer_erase]
  | current delta =>
      by_cases hfits : -(2 : Int) ^ 63 ≤ delta - (buf.length : Int)
      · simp only [Seek.seek, if_pos hfits, Watches.seek_erase, discardBuffer_erase]
      · simp only [Seek.seek, if_neg hfits, Watches.seek_erase, discardBuffer_erase]
        rcases Seek.seek (.current (-(buf.length : Int))) r with ⟨e | offset, r'⟩
        · rfl
        · simp only [discardBuffer, map, Watches.seek_erase]
          rcases Seek.seek (.current delta) r' with ⟨e | offset, r''⟩
          · rfl
          · rfl

theorem failed_discardBuffer {pos : SeekFrom} {r : ω} (b : BufReader ω)
    (h : Failed ρ r ∨ ∃ e, (b.discardBuffer (Seek.seek pos r)).1 = .error e) :
    Failed ρ (b.discardBuffer (Seek.seek pos r)).2.inner := by
  have hseek : (Failed ρ r ∨ ∃ e, (Seek.seek pos r).1 = .error e) →
      Failed ρ (Seek.seek pos r).2 := Watches.failed_seek pos r
  cases hresult : Seek.seek pos r with
  | mk result r' =>
      rw [hresult] at h hseek
      cases result with
      | error e => exact hseek h
      | ok offset => exact hseek h

theorem failed_seek (pos : SeekFrom) (b : BufReader ω)
    (h : Failed ρ b.inner ∨ ∃ e, (Seek.seek pos b).1 = .error e) :
    Failed ρ (Seek.seek pos b).2.inner := by
  cases pos with
  | start offset => exact failed_discardBuffer b h
  | «end» delta => exact failed_discardBuffer b h
  | current delta =>
      by_cases hfits : -(2 : Int) ^ 63 ≤ delta - (b.buf.length : Int)
      · simp only [Seek.seek, if_pos hfits] at h ⊢
        exact failed_discardBuffer b h
      · simp only [Seek.seek, if_neg hfits] at h ⊢
        have hback : (Failed ρ b.inner ∨
            ∃ e, (b.discardBuffer (Seek.seek (.current (-b.buf.length)) b.inner)).1 = .error e) →
              Failed ρ (b.discardBuffer (Seek.seek (.current (-b.buf.length)) b.inner)).2.inner :=
          failed_discardBuffer b
        cases hresult : b.discardBuffer (Seek.seek (.current (-b.buf.length)) b.inner) with
        | mk result b' =>
            rw [hresult] at h hback
            cases result with
            | error e => exact hback (Or.inr ⟨e, rfl⟩)
            | ok offset =>
                exact failed_discardBuffer b' (h.imp_left fun hf => hback (Or.inl hf))

instance : Watches (BufReader ω) (BufReader ρ) where
  watch b := b.map (watch : ρ → ω)
  erase b := b.map (erase : ω → ρ)
  Failed b := Failed ρ b.inner
  erase_watch b := by rw [map, map, erase_watch]
  read_erase := read_erase
  seek_erase := seek_erase
  failed_read := failed_read
  failed_seek := failed_seek

end BufReader

end BufReader

/-! ### Operations -/

section Perform

variable [Read ω] [Seek ω] [Read ρ] [Seek ρ] [Watches ω ρ]

open Watches

theorem exists_read_of_not_failed {n : Nat} {w : ω} (h : ¬ Failed ρ (Read.read n w).2) :
    ∃ piece w', Read.read n w = (.ok piece, w') := by
  cases hread : Read.read n w with
  | mk result w' =>
      cases result with
      | error e => exact absurd (failed_read n w (Or.inr ⟨e, congrArg Prod.fst hread⟩)) h
      | ok piece => exact ⟨piece, w', rfl⟩

theorem exists_seek_of_not_failed {pos : SeekFrom} {w : ω}
    (h : ¬ Failed ρ (Seek.seek pos w).2) :
    ∃ offset w', Seek.seek pos w = (.ok offset, w') := by
  cases hseek : Seek.seek pos w with
  | mk result w' =>
      cases result with
      | error e => exact absurd (failed_seek pos w (Or.inr ⟨e, congrArg Prod.fst hseek⟩)) h
      | ok offset => exact ⟨offset, w', rfl⟩

theorem readExact_erase (n : Nat) (w : ω) :
    readExact n (erase w : ρ) = ((readExact n w).1, erase (readExact n w).2) := by
  induction n using Nat.strongRecOn generalizing w with
  | ind n ih =>
      rw [readExact, readExact, read_erase]
      by_cases hn : n = 0
      · rw [if_pos hn, if_pos hn]
      rw [if_neg hn, if_neg hn]
      rcases Read.read n w with ⟨e | piece, w'⟩
      · rfl
      dsimp only
      by_cases hp : piece = []
      · rw [if_pos hp, if_pos hp]
      have hlt : n - piece.length < n := by
        have := List.length_pos_iff.mpr hp
        omega
      rw [if_neg hp, if_neg hp, ih _ hlt]
      rcases readExact (n - piece.length) w' with ⟨e | rest, w''⟩
      · rfl
      · rfl

/-- What has failed in its first read stays so. -/
theorem failed_readExact_of_read {n : Nat} (hn : n ≠ 0) (w : ω)
    (h : Failed ρ (Read.read n w).2) : Failed ρ (readExact n w).2 := by
  induction n using Nat.strongRecOn generalizing w with
  | ind n ih =>
      rw [readExact, if_neg hn]
      revert h
      rcases Read.read n w with ⟨e | piece, w'⟩
      · exact id
      intro hread
      dsimp only
      by_cases hp : piece = []
      · rw [if_pos hp]
        exact hread
      have hlt : n - piece.length < n := by
        have := List.length_pos_iff.mpr hp
        omega
      rw [if_neg hp]
      have hrest : Failed ρ (readExact (n - piece.length) w').2 := by
        by_cases hrest : n - piece.length = 0
        · rw [hrest, readExact, if_pos rfl]
          exact hread
        · exact ih _ hlt hrest w' (failed_read _ w' (Or.inl hread))
      revert hrest
      rcases readExact (n - piece.length) w' with ⟨e | rest, w''⟩
      · exact id
      · exact id

theorem failed_readExact (n : Nat) (w : ω) (h : Failed ρ w) : Failed ρ (readExact n w).2 := by
  by_cases hn : n = 0
  · rw [readExact, if_pos hn]
    exact h
  · exact failed_readExact_of_read hn w (failed_read n w (Or.inl h))

theorem perform_erase (access : Access) (w : ω) :
    perform (erase w : ρ) access = ((perform w access).1, erase (perform w access).2) := by
  cases access with
  | read n => rw [perform, perform, read_erase]
  | readExact n => rw [perform, perform, readExact_erase]
  | seek pos => rw [perform, perform, seek_erase]

theorem failed_perform (access : Access) (w : ω) (h : Failed ρ w) :
    Failed ρ (perform w access).2 := by
  cases access with
  | read n => exact failed_read n w (Or.inl h)
  | readExact n => exact failed_readExact n w h
  | seek pos => exact failed_seek pos w (Or.inl h)

theorem performAll_erase (accesses : List Access) (w : ω) :
    performAll accesses (erase w : ρ) =
      ((performAll accesses w).1, erase (performAll accesses w).2) := by
  induction accesses generalizing w with
  | nil => rfl
  | cons access rest ih => rw [performAll, performAll, perform_erase, ih]

theorem failed_performAll (accesses : List Access) (w : ω) (h : Failed ρ w) :
    Failed ρ (performAll accesses w).2 := by
  induction accesses generalizing w with
  | nil => exact h
  | cons access rest ih => exact ih _ (failed_perform access w h)

end Perform

end GstPravega.Lib
