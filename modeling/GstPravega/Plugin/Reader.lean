import GstPravega.Client.ByteReader

/-!
# The reader stack of the source

The source reads through a counting reader, a buffered reader and a reader that
ends at a fixed position of the stream. `SeekableTake` is a `Take` whose limit is
set anew by each seek, and `CountingReader` knows its position without asking the
reader below, which would empty the buffer.
-/

namespace GstPravega.Plugin

open GstPravega.Lib GstPravega.Client

variable {ρ : Type}

/-- Reader adaptor which returns EOF beyond the specified end position. -/
structure SeekableTake (ρ : Type) where
  inner : Take ρ
  endPosition : Nat
  deriving DecidableEq, Repr

namespace SeekableTake

instance [Read ρ] : Read (SeekableTake ρ) where
  read n r :=
    match Read.read n r.inner with
    | (result, inner) => (result, { r with inner })

instance [Seek ρ] : Seek (SeekableTake ρ) where
  seek pos r :=
    match Seek.seek pos r.inner.inner with
    | (.error e, inner) => (.error e, { r with inner := { r.inner with inner } })
    | (.ok newPos, inner) =>
        if newPos ≤ r.endPosition then
          (.ok newPos, { r with inner := ⟨inner, r.endPosition - newPos⟩ })
        else
          match Seek.seek (.start r.endPosition) inner with
          | (result, inner) => (result, { r with inner := ⟨inner, 0⟩ })

def new [Seek ρ] (reader : ρ) (endPosition : Nat) : Except IoError (SeekableTake ρ) :=
  let reader : SeekableTake ρ := ⟨⟨reader, 2 ^ 64 - 1⟩, endPosition⟩
  match Seek.seek (.current 0) reader with
  | (.error e, _) => .error e
  | (.ok _, reader) => .ok reader

open LawfulRead

instance [Read ρ] [Source ρ] : LawfulRead (SeekableTake ρ) where
  Ready r := Ready r.inner
  remaining r := remaining r.inner
  position r := position r.inner
  read_spec n r hr hn := by
    obtain ⟨piece, inner, hread, hspec⟩ := read_spec n r.inner hr hn
    refine ⟨piece, { r with inner }, ?_, hspec⟩
    show (match Read.read n r.inner with
      | (result, inner) => (result, { r with inner })) = _
    rw [hread]

/-- Up to the end position a seek goes where it is sent. -/
theorem seek_of_le [Seek ρ] {r : SeekableTake ρ} {pos : SeekFrom} {offset : Nat} {inner : ρ}
    (h : Seek.seek pos r.inner.inner = (.ok offset, inner)) (hle : offset ≤ r.endPosition) :
    Seek.seek pos r = (.ok offset, { r with inner := ⟨inner, r.endPosition - offset⟩ }) := by
  show (match Seek.seek pos r.inner.inner with | (.error e, inner) => _ | (.ok _, _) => _) = _
  rw [h]
  dsimp only
  rw [if_pos hle]

/-- Beyond it, to the end position. -/
theorem seek_of_gt [Seek ρ] {r : SeekableTake ρ} {pos : SeekFrom} {offset : Nat}
    {inner inner' : ρ} (h : Seek.seek pos r.inner.inner = (.ok offset, inner))
    (hgt : r.endPosition < offset)
    (hback : Seek.seek (.start r.endPosition) inner = (.ok r.endPosition, inner')) :
    Seek.seek pos r = (.ok r.endPosition, { r with inner := ⟨inner', 0⟩ }) := by
  show (match Seek.seek pos r.inner.inner with | (.error e, inner) => _ | (.ok _, _) => _) = _
  rw [h]
  dsimp only
  rw [if_neg (Nat.not_le.mpr hgt), hback]

end SeekableTake

/-- Read adaptor that tracks the current offset so it can be returned without
seeking the inner reader. -/
structure CountingReader (ρ : Type) where
  inner : ρ
  offset : Nat
  deriving DecidableEq, Repr

namespace CountingReader

def new [Seek ρ] (reader : ρ) : Except IoError (CountingReader ρ) :=
  match streamPosition reader with
  | (.error e, _) => .error e
  | (.ok offset, reader) => .ok ⟨reader, offset⟩

instance [Read ρ] : Read (CountingReader ρ) where
  read n r :=
    match Read.read n r.inner with
    | (.error e, inner) => (.error e, { r with inner })
    | (.ok piece, inner) => (.ok piece, ⟨inner, r.offset + piece.length⟩)

instance [Seek ρ] : Seek (CountingReader ρ) where
  seek pos r :=
    if pos = .current 0 then (.ok r.offset, r)
    else
      match Seek.seek pos r.inner with
      | (.error e, inner) => (.error e, { r with inner })
      | (.ok offset, inner) => (.ok offset, ⟨inner, offset⟩)

open LawfulRead

instance [Read ρ] [LawfulRead ρ] : LawfulRead (CountingReader ρ) where
  Ready r := Ready r.inner
  remaining r := remaining r.inner
  position r := r.offset
  read_spec n r hr hn := by
    obtain ⟨piece, inner, hread, hr', hrem, _, hspec⟩ := read_spec n r.inner hr hn
    refine ⟨piece, ⟨inner, r.offset + piece.length⟩, ?_, hr', hrem, rfl, hspec⟩
    show (match Read.read n r.inner with | (.error e, inner) => _ | (.ok _, _) => _) = _
    rw [hread]

@[simp] theorem streamPosition_eq [Seek ρ] (r : CountingReader ρ) :
    streamPosition r = (.ok r.offset, r) := rfl

theorem seek_start [Seek ρ] {r : CountingReader ρ} {offset offset' : Nat} {inner : ρ}
    (h : Seek.seek (.start offset) r.inner = (.ok offset', inner)) :
    Seek.seek (.start offset) r = (.ok offset', ⟨inner, offset'⟩) := by
  show (if SeekFrom.start offset = .current 0 then _ else _) = _
  rw [if_neg (fun hf => nomatch hf), h]

end CountingReader

end GstPravega.Plugin
