import GstPravega.Lib.Storage
import GstPravega.Plugin.Src

/-!
# The reader stack is a bounded reader

Three adaptors keep three notions of where the reader is: the limit that is left, the
bytes that are buffered, and the counted offset. In `StackAt` they agree: the reader
below is ahead of the position by what is buffered, and the limit is what is left to the
end position from there. Each operation that succeeds keeps the agreement and does what
a plain reader does at the position, a relative seek with bytes in the buffer included.

Errors are those of the reader below, except for the end that `read_exact` runs into. So
while nothing fails there, a run of the stack is a run of the plain reader.
-/

namespace GstPravega.Plugin

open GstPravega.Lib GstPravega.Client

variable {ρ ω : Type}

/-- What the source reads through. -/
abbrev Stack (ρ : Type) := CountingReader (BufReader (SeekableTake ρ))

/-- The stack over a reader, as `start` builds it. -/
def openStack [Seek ρ] (capacity endPosition : Nat) (reader : ρ) :
    Except IoError (Stack ρ) := do
  let limitedReader ← SeekableTake.new reader endPosition
  CountingReader.new (BufReader.withCapacity capacity limitedReader)

/-! ## Errors come from below -/

section Watches

variable [Read ω] [Seek ω] [Read ρ] [Seek ρ] [Watches ω ρ]

open Watches

namespace SeekableTake

def map (f : ω → ρ) (s : SeekableTake ω) : SeekableTake ρ :=
  ⟨⟨f s.inner.inner, s.inner.limit⟩, s.endPosition⟩

theorem read_erase (n : Nat) (s : SeekableTake ω) :
    Read.read n (s.map (erase : ω → ρ)) =
      ((Read.read n s).1, (Read.read n s).2.map erase) := by
  obtain ⟨⟨r, limit⟩, endPosition⟩ := s
  show Read.read n (⟨⟨erase r, limit⟩, endPosition⟩ : SeekableTake ρ) = _
  by_cases hlimit : limit = 0
  · simp only [Read.read, if_pos hlimit]
    rfl
  · simp only [Read.read, if_neg hlimit, Watches.read_erase]
    rcases Read.read (min n limit) r with ⟨e | piece, r'⟩
    · rfl
    · rfl

theorem failed_read (n : Nat) (s : SeekableTake ω)
    (h : Failed ρ s.inner.inner ∨ ∃ e, (Read.read n s).1 = .error e) :
    Failed ρ (Read.read n s).2.inner.inner := by
  obtain ⟨⟨r, limit⟩, endPosition⟩ := s
  by_cases hlimit : limit = 0
  · simp only [Read.read, if_pos hlimit] at h ⊢
    exact of_or_ok_eq_error h
  · simp only [Read.read, if_neg hlimit] at h ⊢
    have hread : (Failed ρ r ∨ ∃ e, (Read.read (min n limit) r).1 = .error e) →
        Failed ρ (Read.read (min n limit) r).2 := Watches.failed_read (min n limit) r
    revert h hread
    rcases Read.read (min n limit) r with ⟨e | piece, r'⟩
    · exact fun h hread => hread h
    · exact fun h hread => hread (Or.inl (of_or_ok_eq_error h))

theorem seek_erase (pos : SeekFrom) (s : SeekableTake ω) :
    Seek.seek pos (s.map (erase : ω → ρ)) =
      ((Seek.seek pos s).1, (Seek.seek pos s).2.map erase) := by
  obtain ⟨⟨r, limit⟩, endPosition⟩ := s
  show Seek.seek pos (⟨⟨erase r, limit⟩, endPosition⟩ : SeekableTake ρ) = _
  simp only [Seek.seek, Watches.seek_erase]
  rcases Seek.seek pos r with ⟨e | offset, r'⟩
  · rfl
  · by_cases hle : offset ≤ endPosition
    · simp only [if_pos hle]
      rfl
    · simp only [if_neg hle, Watches.seek_erase]
      rfl

theorem failed_seek (pos : SeekFrom) (s : SeekableTake ω)
    (h : Failed ρ s.inner.inner ∨ ∃ e, (Seek.seek pos s).1 = .error e) :
    Failed ρ (Seek.seek pos s).2.inner.inner := by
  obtain ⟨⟨r, limit⟩, endPosition⟩ := s
  simp only [Seek.seek] at h ⊢
  have hseek : (Failed ρ r ∨ ∃ e, (Seek.seek pos r).1 = .error e) →
      Failed ρ (Seek.seek pos r).2 := Watches.failed_seek pos r
  revert h hseek
  rcases Seek.seek pos r with ⟨e | offset, r'⟩
  · exact fun h hseek => hseek h
  · intro h hseek
    dsimp only at h ⊢
    by_cases hle : offset ≤ endPosition
    · rw [if_pos hle] at h ⊢
      exact hseek h
    · rw [if_neg hle] at h ⊢
      exact Watches.failed_seek (.start endPosition) r' (h.imp_left fun hf => hseek (Or.inl hf))

instance : Watches (SeekableTake ω) (SeekableTake ρ) where
  watch s := s.map (watch : ρ → ω)
  erase s := s.map (erase : ω → ρ)
  Failed s := Failed ρ s.inner.inner
  erase_watch s := by rw [map, map, erase_watch]
  read_erase := read_erase
  seek_erase := seek_erase
  failed_read := failed_read
  failed_seek := failed_seek

end SeekableTake

namespace CountingReader

def map (f : ω → ρ) (c : CountingReader ω) : CountingReader ρ := ⟨f c.inner, c.offset⟩

theorem read_erase (n : Nat) (c : CountingReader ω) :
    Read.read n (c.map (erase : ω → ρ)) =
      ((Read.read n c).1, (Read.read n c).2.map erase) := by
  obtain ⟨r, offset⟩ := c
  show Read.read n (⟨erase r, offset⟩ : CountingReader ρ) = _
  simp only [Read.read, Watches.read_erase]
  rcases Read.read n r with ⟨e | piece, r'⟩
  · rfl
  · rfl

theorem failed_read (n : Nat) (c : CountingReader ω)
    (h : Failed ρ c.inner ∨ ∃ e, (Read.read n c).1 = .error e) :
    Failed ρ (Read.read n c).2.inner := by
  obtain ⟨r, offset⟩ := c
  simp only [Read.read] at h ⊢
  have hread : (Failed ρ r ∨ ∃ e, (Read.read n r).1 = .error e) →
      Failed ρ (Read.read n r).2 := Watches.failed_read n r
  revert h hread
  rcases Read.read n r with ⟨e | piece, r'⟩
  · exact fun h hread => hread h
  · exact fun h hread => hread (Or.inl (of_or_ok_eq_error h))

theorem seek_erase (pos : SeekFrom) (c : CountingReader ω) :
    Seek.seek pos (c.map (erase : ω → ρ)) =
      ((Seek.seek pos c).1, (Seek.seek pos c).2.map erase) := by
  obtain ⟨r, offset⟩ := c
  show Seek.seek pos (⟨erase r, offset⟩ : CountingReader ρ) = _
  by_cases hcurrent : pos = .current 0
  · simp only [Seek.seek, if_pos hcurrent]
    rfl
  · simp only [Seek.seek, if_neg hcurrent, Watches.seek_erase]
    rcases Seek.seek pos r with ⟨e | offset', r'⟩
    · rfl
    · rfl

theorem failed_seek (pos : SeekFrom) (c : CountingReader ω)
    (h : Failed ρ c.inner ∨ ∃ e, (Seek.seek pos c).1 = .error e) :
    Failed ρ (Seek.seek pos c).2.inner := by
  obtain ⟨r, offset⟩ := c
  by_cases hcurrent : pos = .current 0
  · simp only [Seek.seek, if_pos hcurrent] at h ⊢
    exact of_or_ok_eq_error h
  · simp only [Seek.seek, if_neg hcurrent] at h ⊢
    have hseek : (Failed ρ r ∨ ∃ e, (Seek.seek pos r).1 = .error e) →
        Failed ρ (Seek.seek pos r).2 := Watches.failed_seek pos r
    revert h hseek
    rcases Seek.seek pos r with ⟨e | offset', r'⟩
    · exact fun h hseek => hseek h
    · exact fun h hseek => hseek (Or.inl (of_or_ok_eq_error h))

instance : Watches (CountingReader ω) (CountingReader ρ) where
  watch c := c.map (watch : ρ → ω)
  erase c := c.map (erase : ω → ρ)
  Failed c := Failed ρ c.inner
  erase_watch c := by rw [map, map, erase_watch]
  read_erase := read_erase
  seek_erase := seek_erase
  failed_read := failed_read
  failed_seek := failed_seek

end CountingReader

end Watches

/-! ## Operations that succeed -/

namespace CountingReader

variable {c c' : CountingReader ρ} {n offset : Nat} {piece : List UInt8} {pos : SeekFrom}

theorem read_ok [Read ρ] (h : Read.read n c = (.ok piece, c')) :
    ∃ inner, Read.read n c.inner = (.ok piece, inner) ∧
      c' = ⟨inner, c.offset + piece.length⟩ := by
  simp only [Read.read] at h
  cases hread : Read.read n c.inner with
  | mk result inner =>
      rw [hread] at h
      cases result with
      | error e => cases h
      | ok piece' =>
          cases h
          exact ⟨inner, rfl, rfl⟩

theorem seek_ok [Seek ρ] (h : Seek.seek pos c = (.ok offset, c')) :
    (pos = .current 0 ∧ offset = c.offset ∧ c' = c) ∨
    ∃ inner, Seek.seek pos c.inner = (.ok offset, inner) ∧ c' = ⟨inner, offset⟩ := by
  by_cases hcurrent : pos = .current 0
  · left
    simp only [Seek.seek, if_pos hcurrent] at h
    cases h
    exact ⟨hcurrent, rfl, rfl⟩
  · right
    simp only [Seek.seek, if_neg hcurrent] at h
    cases hseek : Seek.seek pos c.inner with
    | mk result inner =>
        rw [hseek] at h
        cases result with
        | error e => cases h
        | ok offset' =>
            cases h
            exact ⟨inner, rfl, rfl⟩

end CountingReader

section Storage

variable [Read ρ] [Seek ρ] [Storage ρ] {bytes : List UInt8} {endPosition n pos : Nat}
  {request : SeekFrom} {piece : List UInt8} {offset : Nat}

/-- What a read may hand out at a position: the next bytes, but not none while there are
any in front of the end position. -/
structure Handed (bytes : List UInt8) (endPosition n pos : Nat) (piece : List UInt8) :
    Prop where
  prefixed : piece <+: bytes.drop pos
  length_le : piece.length ≤ n
  empty : piece = [] → n = 0 ∨ pos = endPosition ∨ bytes.length ≤ pos

/-- The limited reader is at `pos`. -/
structure TakeAt (bytes : List UInt8) (endPosition pos : Nat) (s : SeekableTake ρ) :
    Prop where
  bytes_eq : Storage.bytes s.inner.inner = bytes
  end_eq : s.endPosition = endPosition
  offset_eq : Storage.offset s.inner.inner = pos
  limit : pos + s.inner.limit = endPosition

theorem TakeAt.read {s s' : SeekableTake ρ} (h : TakeAt bytes endPosition pos s)
    (hread : Read.read n s = (.ok piece, s')) :
    TakeAt bytes endPosition (pos + piece.length) s' ∧
      Handed bytes endPosition n pos piece := by
  obtain ⟨⟨r, limit⟩, e⟩ := s
  obtain ⟨rfl, rfl, rfl, hlimit⟩ := h
  dsimp only at hlimit
  by_cases hzero : limit = 0
  · simp only [Read.read, if_pos hzero] at hread
    cases hread
    refine ⟨⟨rfl, rfl, rfl, hlimit⟩, List.nil_prefix, Nat.zero_le n, fun _ => ?_⟩
    right
    left
    dsimp only
    omega
  · simp only [Read.read, if_neg hzero] at hread
    cases hinner : Read.read (min n limit) r with
    | mk result r' =>
        rw [hinner] at hread
        cases result with
        | error e => cases hread
        | ok piece' =>
            cases hread
            obtain ⟨hbytes, hoffset, hfront, hlength, hempty⟩ := Storage.read_ok hinner
            refine ⟨⟨hbytes, rfl, hoffset, ?_⟩, hfront, by omega, fun hnil => ?_⟩
            · dsimp only
              omega
            · dsimp only
              rcases hempty hnil with hn | hend
              · omega
              · exact Or.inr (Or.inr hend)

/-- Wherever the limit was. -/
theorem takeAt_seek {s s' : SeekableTake ρ}
    (hseek : Seek.seek request s = (.ok offset, s')) :
    ∃ target : Nat,
      request.target (Storage.bytes s.inner.inner).length (Storage.offset s.inner.inner) =
        target ∧
      offset = min target s.endPosition ∧
      TakeAt (Storage.bytes s.inner.inner) s.endPosition offset s' := by
  obtain ⟨⟨r, limit⟩, e⟩ := s
  simp only [Seek.seek] at hseek ⊢
  cases hinner : Seek.seek request r with
  | mk result r' =>
      rw [hinner] at hseek
      cases result with
      | error e => cases hseek
      | ok target =>
          obtain ⟨hbytes, hoffset, htarget⟩ := Storage.seek_ok hinner
          dsimp only at hseek
          refine ⟨target, htarget, ?_⟩
          by_cases hle : target ≤ e
          · rw [if_pos hle] at hseek
            cases hseek
            refine ⟨by omega, hbytes, rfl, hoffset, ?_⟩
            dsimp only
            omega
          · rw [if_neg hle] at hseek
            cases hback : Seek.seek (.start e) r' with
            | mk result r'' =>
                rw [hback] at hseek
                cases hseek
                obtain ⟨hbytes', hoffset', htarget'⟩ := Storage.seek_ok hback
                have heq : offset = e := (Int.ofNat_inj.mp htarget').symm
                exact ⟨by omega, hbytes'.trans hbytes, rfl, hoffset', by
                  dsimp only
                  omega⟩

theorem TakeAt.seek {s s' : SeekableTake ρ} (h : TakeAt bytes endPosition pos s)
    (hseek : Seek.seek request s = (.ok offset, s')) :
    ∃ target : Nat, request.target bytes.length pos = target ∧
      offset = min target endPosition ∧ TakeAt bytes endPosition offset s' := by
  have htake := takeAt_seek hseek
  rw [h.bytes_eq, h.end_eq, h.offset_eq] at htake
  exact htake

/-- The buffered reader is at `pos`: the reader below is ahead by what is buffered. -/
structure BufAt (bytes : List UInt8) (endPosition pos : Nat)
    (b : BufReader (SeekableTake ρ)) : Prop where
  inner : TakeAt bytes endPosition (pos + b.buf.length) b.inner
  buffered : b.buf <+: bytes.drop pos

/-- The front of what is buffered is handed out. -/
theorem BufAt.take {b : BufReader (SeekableTake ρ)} (h : BufAt bytes endPosition pos b)
    (n : Nat) :
    BufAt bytes endPosition (pos + (b.buf.take n).length) { b with buf := b.buf.drop n } ∧
      b.buf.take n <+: bytes.drop pos := by
  have hlength : (b.buf.take n).length + (b.buf.drop n).length = b.buf.length := by
    rw [← List.length_append, List.take_append_drop]
  refine ⟨⟨?_, ?_⟩, (List.take_prefix n b.buf).trans h.buffered⟩
  · dsimp only
    rw [Nat.add_assoc, hlength]
    exact h.inner
  · have hdrop := h.buffered.drop (b.buf.take n).length
    rw [List.drop_drop] at hdrop
    rcases Nat.le_total n b.buf.length with hle | hle
    · rw [List.length_take, Nat.min_eq_left hle] at hdrop ⊢
      exact hdrop
    · dsimp only
      rw [List.drop_eq_nil_of_le hle]
      exact List.nil_prefix

theorem BufAt.read {b b' : BufReader (SeekableTake ρ)} (h : BufAt bytes endPosition pos b)
    (hread : Read.read n b = (.ok piece, b')) :
    BufAt bytes endPosition (pos + piece.length) b' ∧
      Handed bytes endPosition n pos piece := by
  have hinner := h.inner
  rcases BufReader.read_ok hread with ⟨hempty, inner, hpast, rfl⟩ |
    ⟨hcapacity, hempty, filled, inner, hfill, rfl, rfl⟩ | ⟨hne, rfl, rfl⟩
  · rw [hempty] at hinner
    obtain ⟨htake, hhanded⟩ := hinner.read hpast
    exact ⟨⟨htake, List.nil_prefix⟩, hhanded⟩
  · rw [hempty] at hinner
    obtain ⟨htake, hhanded⟩ := hinner.read hfill
    have hat : BufAt bytes endPosition pos ⟨inner, b.capacity, filled⟩ :=
      ⟨htake, hhanded.prefixed⟩
    obtain ⟨hrest, hfront⟩ := hat.take n
    refine ⟨hrest, hfront, List.length_take_le n filled, fun hnil => ?_⟩
    rcases List.take_eq_nil_iff.mp hnil with hn | hnil
    · exact Or.inl hn
    · exact Or.inr ((hhanded.empty hnil).resolve_left (by omega))
  · obtain ⟨hrest, hfront⟩ := h.take n
    refine ⟨hrest, hfront, List.length_take_le n b.buf, fun hnil => Or.inl ?_⟩
    exact (List.take_eq_nil_iff.mp hnil).resolve_right hne

theorem BufAt.le {b : BufReader (SeekableTake ρ)} (h : BufAt bytes endPosition pos b) :
    pos ≤ endPosition := by
  have := h.inner.limit
  omega

/-- A seek counts from `pos`, whatever is buffered. -/
theorem BufAt.seek {b b' : BufReader (SeekableTake ρ)} (h : BufAt bytes endPosition pos b)
    (hseek : Seek.seek request b = (.ok offset, b')) :
    ∃ target : Nat, request.target bytes.length pos = target ∧
      offset = min target endPosition ∧ BufAt bytes endPosition offset b' := by
  rcases BufReader.seek_ok hseek with ⟨inner, hinner, hnot, rfl⟩ |
    ⟨d, rfl, ⟨inner, hinner, rfl⟩ | ⟨back, middle, inner, hback, hinner, rfl⟩⟩
  · obtain ⟨target, htarget, hmin, htake⟩ := h.inner.seek hinner
    refine ⟨target, ?_, hmin, htake, List.nil_prefix⟩
    cases request with
    | start o => exact htarget
    | «end» d => exact htarget
    | current d => exact absurd rfl (hnot d)
  · obtain ⟨target, htarget, hmin, htake⟩ := h.inner.seek hinner
    refine ⟨target, ?_, hmin, htake, List.nil_prefix⟩
    rw [SeekFrom.target] at htarget ⊢
    omega
  · obtain ⟨first, hfirst, hminfirst, hmiddle⟩ := h.inner.seek hback
    rw [SeekFrom.target] at hfirst
    -- The first step goes back to `pos`, which is within the limit.
    have hle := h.le
    obtain rfl : back = pos := by omega
    obtain ⟨target, htarget, hmin, htake⟩ := hmiddle.seek hinner
    exact ⟨target, htarget, hmin, htake, List.nil_prefix⟩

/-- The stack is at `pos`. -/
structure StackAt (bytes : List UInt8) (endPosition pos : Nat) (r : Stack ρ) : Prop where
  counted : r.offset = pos
  inner : BufAt bytes endPosition pos r.inner

theorem StackAt.read {r r' : Stack ρ} (h : StackAt bytes endPosition pos r)
    (hread : Read.read n r = (.ok piece, r')) :
    StackAt bytes endPosition (pos + piece.length) r' ∧
      Handed bytes endPosition n pos piece := by
  obtain ⟨rfl, hinner⟩ := h
  obtain ⟨b', hbuf, rfl⟩ := CountingReader.read_ok hread
  obtain ⟨hat, hhanded⟩ := hinner.read hbuf
  exact ⟨⟨rfl, hat⟩, hhanded⟩

theorem StackAt.seek {r r' : Stack ρ} (h : StackAt bytes endPosition pos r)
    (hseek : Seek.seek request r = (.ok offset, r')) :
    ∃ target : Nat, request.target bytes.length pos = target ∧
      offset = min target endPosition ∧ StackAt bytes endPosition offset r' := by
  rcases CountingReader.seek_ok hseek with ⟨rfl, rfl, rfl⟩ | ⟨b', hbuf, rfl⟩
  · have hle := h.inner.le
    have hcounted := h.counted
    refine ⟨pos, Int.add_zero _, by omega, rfl, ?_⟩
    rw [hcounted]
    exact h.inner
  · obtain ⟨target, htarget, hmin, hat⟩ := h.inner.seek hbuf
    exact ⟨target, htarget, hmin, rfl, hat⟩

theorem openStack_at {reader : ρ} {capacity : Nat} {r : Stack ρ}
    (h : openStack capacity endPosition reader = .ok r) :
    StackAt (Storage.bytes reader) endPosition (min (Storage.offset reader) endPosition) r := by
  rw [openStack, SeekableTake.new] at h
  cases htake : Seek.seek (.current 0)
      (⟨⟨reader, 2 ^ 64 - 1⟩, endPosition⟩ : SeekableTake ρ) with
  | mk result limited =>
      rw [htake] at h
      cases result with
      | error e => cases h
      | ok offset =>
          obtain ⟨target, htarget, hmin, hat⟩ := takeAt_seek htake
          rw [SeekFrom.target, Int.add_zero] at htarget
          have htarget := Int.ofNat_inj.mp htarget
          dsimp only at htarget hmin hat
          have hbuf : BufAt (Storage.bytes reader) endPosition offset
              (BufReader.withCapacity capacity limited) := ⟨hat, List.nil_prefix⟩
          have hcount : CountingReader.new (BufReader.withCapacity capacity limited) =
              .ok r := h
          rw [CountingReader.new, streamPosition] at hcount
          cases hseek : Seek.seek (.current 0) (BufReader.withCapacity capacity limited) with
          | mk result b =>
              rw [hseek] at hcount
              cases result with
              | error e => cases hcount
              | ok offset' =>
                  cases hcount
                  obtain ⟨target', htarget', hmin', hat'⟩ := hbuf.seek hseek
                  rw [SeekFrom.target, Int.add_zero] at htarget'
                  have htarget' := Int.ofNat_inj.mp htarget'
                  have hle := hbuf.le
                  obtain rfl : offset' = min (Storage.offset reader) endPosition := by omega
                  exact ⟨rfl, hat'⟩

theorem bytesAt_of_front (hfront : piece <+: bytes.drop pos)
    (hle : pos + piece.length ≤ endPosition) : BytesAt bytes endPosition pos piece := by
  intro i b hb
  have hi := (List.getElem?_eq_some_iff.mp hb).1
  refine ⟨?_, by omega⟩
  obtain ⟨rest, hrest⟩ := hfront
  rw [← List.getElem?_drop, ← hrest, List.getElem?_append_left hi]
  exact hb

end Storage

/-! ## While nothing fails -/

section Run

variable [Read ω] [Seek ω] [Storage ω] [Read ρ] [Seek ρ] [Watches ω ρ]
  {bytes : List UInt8} {endPosition pos : Nat}

open Watches

/-- `read_exact` fills its request from the bytes at the position, or comes to where they
end. The induction is on the bytes still wanted. -/
theorem StackAt.reads_exact (n : Nat) :
    ∀ {pos : Nat} {w : Stack ω}, StackAt bytes endPosition pos w →
      ¬ Failed (Stack ρ) (readExact n w).2 →
      (∃ piece w', readExact n w = (.ok piece, w') ∧ piece.length = n ∧
        piece <+: bytes.drop pos ∧ StackAt bytes endPosition (pos + n) w') ∨
      ∃ w', readExact n w = (.error ⟨.unexpectedEof, "failed to fill whole buffer"⟩, w') ∧
        max pos (min endPosition bytes.length) < pos + n ∧
        StackAt bytes endPosition (max pos (min endPosition bytes.length)) w' := by
  induction n using Nat.strongRecOn with
  | ind n ih =>
      intro pos w h hok
      by_cases hn : n = 0
      · subst hn
        refine Or.inl ⟨[], w, ?_, rfl, List.nil_prefix, h⟩
        rw [readExact, if_pos rfl]
      have hfirst : ¬ Failed (Stack ρ) (Read.read n w).2 :=
        fun hf => hok (failed_readExact_of_read hn w hf)
      obtain ⟨piece, w', hread⟩ := exists_read_of_not_failed hfirst
      obtain ⟨hat, hfront, hlength, hempty⟩ := h.read hread
      have hle := hat.inner.le
      rw [readExact, if_neg hn, hread] at hok ⊢
      dsimp only at hok ⊢
      by_cases hp : piece = []
      · rw [if_pos hp]
        rw [hp, List.length_nil, Nat.add_zero] at hat hle
        have hend := (hempty hp).resolve_left hn
        have heq : max pos (min endPosition bytes.length) = pos := by omega
        refine Or.inr ⟨w', rfl, by omega, ?_⟩
        rw [heq]
        exact hat
      · have hpos := List.length_pos_iff.mpr hp
        rw [if_neg hp] at hok ⊢
        have hstream := hfront.length_le
        rw [List.length_drop] at hstream
        have hrest := ih (n - piece.length) (by omega) hat
        have hsplit : pos + piece.length + (n - piece.length) = pos + n := by omega
        cases hexact : readExact (n - piece.length) w' with
        | mk result w'' =>
            rw [hexact] at hok hrest
            have hok : ¬ Failed (Stack ρ) w'' := by
              cases result with
              | error e => exact hok
              | ok rest => exact hok
            rcases hrest hok with ⟨rest, w₁, heq, hlen, hnext, hat'⟩ | ⟨w₁, heq, hshort, hat'⟩
            · cases heq
              rw [hsplit] at hat'
              refine Or.inl ⟨piece ++ rest, w'', rfl, ?_, ?_, hat'⟩
              · rw [List.length_append, hlen]
                omega
              · obtain ⟨tail, htail⟩ := hfront
                rw [← List.drop_drop, ← htail, List.drop_left] at hnext
                rw [← htail]
                exact (List.prefix_append_right_inj piece).mpr hnext
            · cases heq
              have heq : max (pos + piece.length) (min endPosition bytes.length) =
                  max pos (min endPosition bytes.length) := by omega
              rw [heq] at hat' hshort
              exact Or.inr ⟨w'', rfl, by omega, hat'⟩

/-- One operation of the stack is one of the plain reader. -/
theorem StackAt.perform {w : Stack ω} (h : StackAt bytes endPosition pos w)
    (access : Access) (hok : ¬ Failed (Stack ρ) (perform w access).2) :
    ∃ pos', Plain bytes endPosition access pos (perform w access).1 pos' ∧
      StackAt bytes endPosition pos' (perform w access).2 := by
  cases access with
  | read n =>
      rw [Lib.perform] at hok ⊢
      obtain ⟨piece, w', hread⟩ := exists_read_of_not_failed hok
      rw [hread]
      obtain ⟨hat, hfront, hlength, hempty⟩ := h.read hread
      have hbytes := bytesAt_of_front hfront hat.inner.le
      exact ⟨_, .read hbytes hlength hempty, hat⟩
  | readExact n =>
      rw [Lib.perform] at hok ⊢
      rcases h.reads_exact n hok with ⟨piece, w', heq, rfl, hfront, hat⟩ |
        ⟨w', heq, hshort, hat⟩
      · rw [heq]
        exact ⟨_, .exact (bytesAt_of_front hfront hat.inner.le), hat⟩
      · rw [heq]
        exact ⟨_, .short hshort, hat⟩
  | seek request =>
      rw [Lib.perform] at hok ⊢
      obtain ⟨offset, w', hseek⟩ := exists_seek_of_not_failed hok
      rw [hseek]
      obtain ⟨target, htarget, rfl, hat⟩ := h.seek hseek
      exact ⟨_, .seek htarget, hat⟩

theorem StackAt.performAll (accesses : List Access) :
    ∀ {pos : Nat} {w : Stack ω}, StackAt bytes endPosition pos w →
      ¬ Failed (Stack ρ) (performAll accesses w).2 →
      ∃ pos', PlainRun bytes endPosition accesses pos (performAll accesses w).1 pos' ∧
        StackAt bytes endPosition pos' (performAll accesses w).2 := by
  induction accesses with
  | nil => exact fun h _ => ⟨_, .nil, h⟩
  | cons access rest ih =>
      intro pos w h hok
      rw [Lib.performAll] at hok ⊢
      have hfirst : ¬ Failed (Stack ρ) (Lib.perform w access).2 :=
        fun hf => hok (failed_performAll rest _ hf)
      obtain ⟨pos', hplain, hat⟩ := h.perform access hfirst
      obtain ⟨pos'', hrun, hat'⟩ := ih hat hok
      exact ⟨pos'', .cons hplain hrun, hat'⟩

end Run

section Refinement

variable [Read ρ] [Seek ρ]

open Watches

/-- In these operations on the stack none of the reader below fails: with that reader
watched, there is no mark in the end. -/
def Unfailing (accesses : List Access) (r : Stack ρ) : Prop :=
  ¬ Failed (Stack ρ) (performAll accesses (watch r : Stack (Watched ρ))).2

/-- **The reader stack refines the plain bounded reader.** It is opened over any reader of
stored bytes, with a buffer of any size and any end position. While no operation of that
reader fails, the answers to any operations are those of a plain reader that starts
where it was, or at the end position if that is in front of it, and the position the
stack reports in the end is the plain reader's. -/
theorem stack_refines_plain [Storage ρ] {reader : ρ} {capacity endPosition : Nat}
    {r : Stack ρ} (hopen : openStack capacity endPosition reader = .ok r)
    (accesses : List Access) (hok : Unfailing accesses r) :
    ∃ pos, PlainRun (Storage.bytes reader) endPosition accesses
        (min (Storage.offset reader) endPosition) (performAll accesses r).1 pos ∧
      streamPosition (performAll accesses r).2 = (.ok pos, (performAll accesses r).2) := by
  have hat := openStack_at hopen
  have hwatched : StackAt (Storage.bytes reader) endPosition
      (min (Storage.offset reader) endPosition) (watch r : Stack (Watched ρ)) :=
    ⟨hat.counted, ⟨hat.inner.inner.bytes_eq, hat.inner.inner.end_eq,
      hat.inner.inner.offset_eq, hat.inner.inner.limit⟩, hat.inner.buffered⟩
  obtain ⟨pos, hrun, hend⟩ := hwatched.performAll accesses hok
  have hsame : performAll accesses r =
      ((performAll accesses (watch r : Stack (Watched ρ))).1,
        erase (performAll accesses (watch r : Stack (Watched ρ))).2) := by
    rw [← performAll_erase, erase_watch]
  rw [hsame]
  refine ⟨pos, hrun, ?_⟩
  rw [CountingReader.streamPosition_eq, ← hend.counted]
  rfl

end Refinement

/-! ## Over the client's reader -/

theorem openReader_eq (bufferSize endOffset : Nat) (reader : ByteReader) :
    PravegaSrc.openReader bufferSize endOffset reader =
      PravegaSrc.unwrap (openStack bufferSize endOffset reader) := by
  rw [PravegaSrc.openReader, openStack]
  cases SeekableTake.new reader endOffset with
  | error e => rfl
  | ok limitedReader => rfl

/-- The reader a source starts with is where the byte reader was, or at the end offset. -/
theorem openReader_at {bufferSize endOffset : Nat} {reader : ByteReader}
    {r : Stack ByteReader} (h : PravegaSrc.openReader bufferSize endOffset reader = .ok r) :
    StackAt reader.stream.bytes endOffset (min reader.offset endOffset) r := by
  rw [openReader_eq] at h
  cases hopen : openStack bufferSize endOffset reader with
  | error e =>
      rw [hopen] at h
      cases h
  | ok r' =>
      rw [hopen] at h
      cases h
      exact openStack_at hopen

/-- Ten bytes, of which six are to be read, through a buffer of four. -/
def tenBytes : ByteReader :=
  ⟨⟨0, [0, 1, 2, 3, 4, 5, 6, 7, 8, 9], by decide⟩, true, 0, [3]⟩

def tenOpened : Stack ByteReader := ⟨⟨⟨⟨tenBytes, 6⟩, 6⟩, 4, []⟩, 0⟩

/-- Back over what is still buffered, on to the end position, and past it. -/
def tenAccesses : List Access :=
  [.read 2, .seek (.current (-1)), .readExact 3, .read 9, .readExact 1, .seek (.end (-8)),
    .read 1, .seek (.current 20), .seek (.current 0)]

theorem stack_refines_plain_ten :
    ∃ pos, PlainRun [0, 1, 2, 3, 4, 5, 6, 7, 8, 9] 6 tenAccesses 0
        (performAll tenAccesses tenOpened).1 pos ∧
      streamPosition (performAll tenAccesses tenOpened).2 =
        (.ok pos, (performAll tenAccesses tenOpened).2) := by
  have hopen : openStack 4 6 tenBytes = .ok tenOpened := by decide +kernel
  have hok : Unfailing tenAccesses tenOpened := by
    show ¬ (performAll tenAccesses (Watches.watch tenOpened :
      Stack (Watched ByteReader))).2.inner.inner.inner.inner.failed = true
    decide +kernel
  exact stack_refines_plain hopen tenAccesses hok

end GstPravega.Plugin
