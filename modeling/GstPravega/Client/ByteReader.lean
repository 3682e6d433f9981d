import GstPravega.Client.ByteStream
import GstPravega.Lib.Storage

/-!
# The byte reader of the client

`SyncByteReader` over a byte stream that is left alone. A read returns what has
been fetched already, at least one byte and never more than is asked for. At the
tail it waits for an append; only the tail of a sealed stream is an end.
-/

namespace GstPravega.Client

open GstPravega.Lib

structure ByteReader where
  stream : ByteStream
  isSealed : Bool
  offset : Nat
  /-- The bytes that the next reads find fetched; behind the list, all they ask
  for. -/
  fetched : List Nat
  deriving DecidableEq

namespace ByteReader

/-- `create_byte_reader`: a reader starts at the head. -/
def new (stream : ByteStream) (isSealed : Bool) (fetched : List Nat) : ByteReader :=
  ⟨stream, isSealed, stream.head, fetched⟩

def currentHead (r : ByteReader) : Except IoError Nat := .ok r.stream.head

/-- How many of `n` bytes the next read returns. -/
def available (r : ByteReader) (n : Nat) : Nat := min n (max 1 (r.fetched.headD n))

instance : Read ByteReader where
  read n r :=
    if n = 0 then (.ok [], r)
    else if r.offset < r.stream.head then (.error ⟨.other, "segment truncated"⟩, r)
    else if r.stream.tail ≤ r.offset then
      if r.isSealed then (.ok [], r) else (.error ⟨.blocked, "waiting for an append"⟩, r)
    else
      let piece := (r.stream.bytes.drop r.offset).take (r.available n)
      (.ok piece, { r with offset := r.offset + piece.length, fetched := r.fetched.tail })

/-- A seek moves the reader without looking at the stream. Offsets are `i64`. -/
def moveTo (r : ByteReader) (offset : Int) : Except IoError Nat × ByteReader :=
  if offset < 0 then
    (.error ⟨.invalidInput, "Cannot seek to a negative offset"⟩, r)
  else if (2 : Int) ^ 63 ≤ offset then
    (.error ⟨.invalidInput, "offset out of range"⟩, r)
  else (.ok offset.toNat, { r with offset := offset.toNat })

instance : Seek ByteReader where
  seek pos r :=
    match pos with
    | .start offset => r.moveTo offset
    | .end delta => r.moveTo (r.stream.tail + delta)
    | .current delta => r.moveTo (r.offset + delta)

theorem moveTo_of_lt (r : ByteReader) {offset : Nat} (h : offset < 2 ^ 63) :
    r.moveTo offset = (.ok offset, { r with offset := offset }) := by
  have hneg : ¬ (offset : Int) < 0 := by omega
  have hlt : ¬ (2 : Int) ^ 63 ≤ offset := by omega
  rw [moveTo, if_neg hneg, if_neg hlt, Int.toNat_natCast]

theorem seek_start (r : ByteReader) {offset : Nat} (h : offset < 2 ^ 63) :
    Seek.seek (.start offset) r = (.ok offset, { r with offset := offset }) :=
  r.moveTo_of_lt h

theorem seek_end (r : ByteReader) :
    Seek.seek (.end 0) r = (.ok r.stream.tail, { r with offset := r.stream.tail }) := by
  show r.moveTo (r.stream.tail + 0) = _
  rw [Int.add_zero]
  exact r.moveTo_of_lt r.stream.tail_lt

theorem seek_current (r : ByteReader) (h : r.offset < 2 ^ 63) :
    Seek.seek (.current 0) r = (.ok r.offset, r) := by
  show r.moveTo (r.offset + 0) = _
  rw [Int.add_zero]
  exact r.moveTo_of_lt h

/-- Above the head there is something to read up to the tail. -/
instance : Source ByteReader where
  Open r := r.stream.head ≤ r.offset
  ahead r := r.stream.bytes.drop r.offset
  offset r := r.offset
  read_spec n r hhead hn hahead := by
    have htail : r.offset < r.stream.tail :=
      Nat.lt_of_not_le fun h => hahead (List.drop_eq_nil_of_le h)
    let piece := (r.stream.bytes.drop r.offset).take (r.available n)
    refine ⟨piece, { r with
        offset := r.offset + piece.length
        fetched := r.fetched.tail }, ?_, ?_, ?_, rfl, ?_, ?_⟩
    · show (if n = 0 then _ else _) = _
      rw [if_neg (Nat.ne_of_gt hn), if_neg (Nat.not_lt.mpr hhead),
        if_neg (Nat.not_le.mpr htail)]
    · exact Nat.le_trans hhead (Nat.le_add_right _ _)
    · dsimp only
      rw [← List.drop_drop]
      exact (List.prefix_iff_eq_append.mp (List.take_prefix _ _)).symm
    · exact Nat.le_trans (List.length_take_le _ _) (Nat.min_le_left _ _)
    · intro h
      rcases List.take_eq_nil_iff.mp h with h | h
      · rw [available] at h
        omega
      · exact hahead h

/-! ## What an operation that succeeds has done -/

theorem read_ok {n : Nat} {r r' : ByteReader} {piece : List UInt8}
    (h : Read.read n r = (.ok piece, r')) :
    r'.stream.bytes = r.stream.bytes ∧ r'.offset = r.offset + piece.length ∧
      piece <+: r.stream.bytes.drop r.offset ∧ piece.length ≤ n ∧
      (piece = [] → n = 0 ∨ r.stream.bytes.length ≤ r.offset) := by
  have hread : (if n = 0 then (.ok [], r)
      else if r.offset < r.stream.head then (.error ⟨.other, "segment truncated"⟩, r)
      else if r.stream.tail ≤ r.offset then
        if r.isSealed then (.ok [], r) else (.error ⟨.blocked, "waiting for an append"⟩, r)
      else
        (.ok ((r.stream.bytes.drop r.offset).take (r.available n)),
          { r with
            offset := r.offset + ((r.stream.bytes.drop r.offset).take (r.available n)).length
            fetched := r.fetched.tail }) :
      Except IoError (List UInt8) × ByteReader) = (.ok piece, r') := h
  split at hread
  · next hn =>
      cases hread
      exact ⟨rfl, rfl, List.nil_prefix, Nat.zero_le n, fun _ => Or.inl hn⟩
  split at hread
  · cases hread
  split at hread
  · next htail =>
      split at hread
      · cases hread
        exact ⟨rfl, rfl, List.nil_prefix, Nat.zero_le n, fun _ => Or.inr htail⟩
      · cases hread
  · next htail =>
      cases hread
      refine ⟨rfl, rfl, List.take_prefix _ _, ?_, fun hnil => ?_⟩
      · exact Nat.le_trans (List.length_take_le _ _) (Nat.min_le_left _ _)
      · rcases List.take_eq_nil_iff.mp hnil with hzero | hnil
        · rw [available] at hzero
          left
          omega
        · exact Or.inr (List.drop_eq_nil_iff.mp hnil)

theorem moveTo_ok {target : Int} {r r' : ByteReader} {offset : Nat}
    (h : r.moveTo target = (.ok offset, r')) :
    r'.stream.bytes = r.stream.bytes ∧ r'.offset = offset ∧ target = offset := by
  rw [moveTo] at h
  split at h
  · cases h
  · split at h
    · cases h
    · cases h
      exact ⟨rfl, rfl, by omega⟩

theorem seek_ok {pos : SeekFrom} {r r' : ByteReader} {offset : Nat}
    (h : Seek.seek pos r = (.ok offset, r')) :
    r'.stream.bytes = r.stream.bytes ∧ r'.offset = offset ∧
      pos.target r.stream.bytes.length r.offset = offset := by
  cases pos with
  | start o => exact moveTo_ok h
  | «end» delta => exact moveTo_ok h
  | current delta => exact moveTo_ok h

instance : Storage ByteReader where
  bytes r := r.stream.bytes
  offset r := r.offset
  read_ok := read_ok
  seek_ok := seek_ok

end ByteReader

end GstPravega.Client
