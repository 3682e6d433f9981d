import GstPravega.Proofs.BoundedReader

/-!
# The reader stack over the client's reader

The agreement of `StackAt` is that of operations that succeed. Over the client's reader it
survives those that fail as well: a failed read leaves every adaptor as it was, and the error
tells where the reader is, at bytes that are gone or at bytes that are not there yet. The end
of the stream is another thing: the end position, or the tail of a sealed stream.

`Stood.readExact` says this of the bytes that an event takes, and `read_bytes` that an event
is nothing but its bytes, whatever reader they come from.
-/

namespace GstPravega.Plugin

open GstPravega.Lib GstPravega.Client

/-! ## One read -/

section Reading

variable {ρ : Type} {r : Stack ρ} {n : Nat}

/-- The reader below. -/
def Stack.bottom (r : Stack ρ) : ρ := r.inner.inner.inner.inner

/-- What is buffered is handed out without the reader below. -/
theorem stack_read_buffered [Read ρ] (hn : 0 < n) (hbuf : r.inner.buf ≠ []) :
    ∃ piece r', Read.read n r = (.ok piece, r') ∧ piece ≠ [] ∧ r'.bottom = r.bottom := by
  obtain ⟨⟨inner, capacity, buf⟩, offset⟩ := r
  dsimp only at hbuf
  have hfill : ¬(buf = [] ∧ capacity ≤ n) := fun hf => hbuf hf.1
  simp only [Read.read, if_neg hfill, BufReader.fillBuf, if_neg hbuf]
  refine ⟨buf.take n, _, rfl, fun hnil => ?_, rfl⟩
  rcases List.take_eq_nil_iff.mp hnil with hzero | hnil
  · omega
  · exact hbuf hnil

/-- At the limit nothing is handed out. -/
theorem stack_read_limit [Read ρ] (hbuf : r.inner.buf = [])
    (hlimit : r.inner.inner.inner.limit = 0) :
    ∃ r', Read.read n r = (.ok [], r') ∧ r'.bottom = r.bottom := by
  obtain ⟨⟨⟨⟨inner, limit⟩, endPosition⟩, capacity, buf⟩, offset⟩ := r
  dsimp only at hbuf hlimit
  subst hbuf
  by_cases hcapacity : capacity ≤ n
  · simp only [Read.read, if_pos (And.intro trivial hcapacity), if_pos hlimit]
    exact ⟨_, rfl, rfl⟩
  · have hfill : ¬(True ∧ capacity ≤ n) := fun hf => hcapacity hf.2
    simp only [Read.read, if_neg hfill, BufReader.fillBuf, if_pos hlimit, if_true, List.take_nil]
    exact ⟨_, rfl, rfl⟩

/-- Else the reader below is asked for something. -/
theorem stack_read_bottom [Read ρ] (hn : 0 < n) (hbuf : r.inner.buf = [])
    (hlimit : r.inner.inner.inner.limit ≠ 0) :
    ∃ m, 0 < m ∧
      ((∃ e, (Read.read m r.bottom).1 = .error e ∧ (Read.read n r).1 = .error e ∧
          ((Read.read m r.bottom).2 = r.bottom → (Read.read n r).2 = r)) ∨
        ∃ piece piece', (Read.read m r.bottom).1 = .ok piece ∧
          (Read.read n r).1 = .ok piece' ∧ (piece' = [] → piece = [])) ∧
      (Read.read n r).2.bottom = (Read.read m r.bottom).2 := by
  obtain ⟨⟨⟨⟨inner, limit⟩, endPosition⟩, capacity, buf⟩, offset⟩ := r
  dsimp only at hbuf hlimit
  subst hbuf
  by_cases hcapacity : capacity ≤ n
  · refine ⟨min n limit, by omega, ?_⟩
    simp only [Read.read, Stack.bottom, if_pos (And.intro trivial hcapacity), if_neg hlimit]
    rcases Read.read (min n limit) inner with ⟨e | piece, inner'⟩
    · refine ⟨Or.inl ⟨e, rfl, rfl, fun hsame => ?_⟩, rfl⟩
      dsimp only at hsame ⊢
      rw [hsame]
    · exact ⟨Or.inr ⟨piece, piece, rfl, rfl, id⟩, rfl⟩
  · have hfill : ¬(True ∧ capacity ≤ n) := fun hf => hcapacity hf.2
    refine ⟨min capacity limit, by omega, ?_⟩
    simp only [Read.read, Stack.bottom, if_neg hfill, BufReader.fillBuf, if_neg hlimit, if_true]
    rcases Read.read (min capacity limit) inner with ⟨e | piece, inner'⟩
    · refine ⟨Or.inl ⟨e, rfl, rfl, fun hsame => ?_⟩, rfl⟩
      dsimp only at hsame ⊢
      rw [hsame]
    · refine ⟨Or.inr ⟨piece, piece.take n, rfl, rfl, fun hnil => ?_⟩, rfl⟩
      exact (List.take_eq_nil_iff.mp hnil).resolve_left (by omega)

end Reading

/-! ## The stack over the client's reader -/

/-- The stack is at `pos`, over this stream. -/
structure Stood (stream : ByteStream) (isSealed : Bool) (endPosition pos : Nat)
    (r : Stack ByteReader) : Prop where
  at_pos : StackAt stream.bytes endPosition pos r
  stream_eq : r.bottom.stream = stream
  isSealed_eq : r.bottom.isSealed = isSealed

/-- There are no more bytes, and there will not be any. -/
def Finished (stream : ByteStream) (isSealed : Bool) (endPosition pos : Nat) : Prop :=
  pos = endPosition ∨ (isSealed = true ∧ stream.tail ≤ pos)

/-- In front of the end position there are bytes that are gone, or not there yet. -/
def Cut (stream : ByteStream) (isSealed : Bool) (endPosition pos : Nat) : Prop :=
  pos < endPosition ∧ (pos < stream.head ∨ (isSealed = false ∧ stream.tail ≤ pos))

theorem byteReader_read_same (m : Nat) (r : ByteReader) :
    (Read.read m r).2.stream = r.stream ∧ (Read.read m r).2.isSealed = r.isSealed ∧
      ((∃ e, (Read.read m r).1 = .error e) → (Read.read m r).2 = r) := by
  simp only [Read.read]
  split
  · exact ⟨rfl, rfl, fun _ => rfl⟩
  split
  · exact ⟨rfl, rfl, fun _ => rfl⟩
  split
  · split
    · exact ⟨rfl, rfl, fun _ => rfl⟩
    · exact ⟨rfl, rfl, fun _ => rfl⟩
  · refine ⟨rfl, rfl, fun h => ?_⟩
    obtain ⟨e, he⟩ := h
    cases he

/-- What a read of the client's reader is, by where the reader is. -/
theorem byteReader_read_cases {m : Nat} (hm : 0 < m) (r : ByteReader) :
    (∃ e, (Read.read m r).1 = .error e ∧ e.kind ≠ .unexpectedEof ∧
        (r.offset < r.stream.head ∨ (r.isSealed = false ∧ r.stream.tail ≤ r.offset))) ∨
      ∃ piece, (Read.read m r).1 = .ok piece ∧
        (piece = [] → r.isSealed = true ∧ r.stream.tail ≤ r.offset) := by
  simp only [Read.read, if_neg (Nat.ne_of_gt hm)]
  split
  · next hhead => exact Or.inl ⟨_, rfl, by decide, Or.inl hhead⟩
  split
  · next htail =>
      split
      · next hsealed => exact Or.inr ⟨[], rfl, fun _ => ⟨hsealed, htail⟩⟩
      · next hopen =>
          exact Or.inl ⟨_, rfl, by decide, Or.inr ⟨Bool.not_eq_true _ ▸ hopen, htail⟩⟩
  · next htail =>
      refine Or.inr ⟨_, rfl, fun hnil => ?_⟩
      rcases List.take_eq_nil_iff.mp hnil with hzero | hnil
      · rw [ByteReader.available] at hzero
        omega
      · exact absurd (List.drop_eq_nil_iff.mp hnil) htail

theorem byteReader_moveTo_same (r : ByteReader) (offset : Int) :
    (r.moveTo offset).2.stream = r.stream ∧ (r.moveTo offset).2.isSealed = r.isSealed := by
  rw [ByteReader.moveTo]
  split
  · exact ⟨rfl, rfl⟩
  split
  · exact ⟨rfl, rfl⟩
  · exact ⟨rfl, rfl⟩

theorem byteReader_seek_same (request : SeekFrom) (r : ByteReader) :
    (Seek.seek request r).2.stream = r.stream ∧
      (Seek.seek request r).2.isSealed = r.isSealed := by
  cases request with
  | start offset => exact byteReader_moveTo_same r offset
  | «end» delta => exact byteReader_moveTo_same r (r.stream.tail + delta)
  | current delta => exact byteReader_moveTo_same r (r.offset + delta)

/-- What every seek of the reader below keeps. -/
theorem seekableTake_seek_keeps {ρ : Type} [Seek ρ] {P : ρ → Prop}
    (h : ∀ request r, P r → P (Seek.seek request r).2) {request : SeekFrom}
    {s s' : SeekableTake ρ} {x : Except IoError Nat} (hseek : Seek.seek request s = (x, s'))
    (hs : P s.inner.inner) : P s'.inner.inner := by
  have hfirst := h request s.inner.inner hs
  obtain rfl : (Seek.seek request s).2 = s' := congrArg Prod.snd hseek
  simp only [Seek.seek]
  rcases hgo : Seek.seek request s.inner.inner with ⟨e | offset, inner⟩
  · rw [hgo] at hfirst
    exact hfirst
  · rw [hgo] at hfirst
    dsimp only
    split
    · exact hfirst
    · exact h _ inner hfirst

theorem stack_seek_keeps {ρ : Type} [Seek ρ] {P : ρ → Prop}
    (h : ∀ request r, P r → P (Seek.seek request r).2) {offset offset' : Nat} {r r' : Stack ρ}
    (hseek : Seek.seek (.start offset) r = (.ok offset', r')) (hr : P r.bottom) :
    P r'.bottom := by
  rcases CountingReader.seek_ok hseek with ⟨hf, -⟩ | ⟨b, hbuf, rfl⟩
  · cases hf
  rcases BufReader.seek_ok hbuf with ⟨s, htake, -, rfl⟩ | ⟨_, hf, -⟩
  · exact seekableTake_seek_keeps h htake hr
  · cases hf

theorem openStack_keeps {ρ : Type} [Seek ρ] {P : ρ → Prop}
    (h : ∀ request r, P r → P (Seek.seek request r).2) {capacity endPosition : Nat} {reader : ρ}
    {r : Stack ρ} (hopen : openStack capacity endPosition reader = .ok r) (hreader : P reader) :
    P r.bottom := by
  rw [openStack, SeekableTake.new] at hopen
  rcases htake : Seek.seek (.current 0)
      (⟨⟨reader, 2 ^ 64 - 1⟩, endPosition⟩ : SeekableTake ρ) with ⟨e | offset, limited⟩
  · rw [htake] at hopen
    cases hopen
  rw [htake] at hopen
  have hlimited := seekableTake_seek_keeps h htake hreader
  have hcount : CountingReader.new (BufReader.withCapacity capacity limited) = .ok r := hopen
  rw [CountingReader.new, streamPosition] at hcount
  rcases hseek : Seek.seek (.current 0) (BufReader.withCapacity capacity limited) with
    ⟨e | offset', b⟩
  · rw [hseek] at hcount
    cases hcount
  rw [hseek] at hcount
  cases hcount
  rcases BufReader.seek_ok hseek with ⟨_, -, hnot, -⟩ |
    ⟨d, -, ⟨inner, hinner, rfl⟩ | ⟨back, middle, inner, hback, hinner, rfl⟩⟩
  · exact absurd rfl (hnot 0)
  · exact seekableTake_seek_keeps h hinner hlimited
  · exact seekableTake_seek_keeps h hinner (seekableTake_seek_keeps h hback hlimited)

section Stood

variable {stream : ByteStream} {isSealed : Bool} {endPosition pos : Nat} {r : Stack ByteReader}

/-- A read hands out the next bytes, or none at the end, or fails and changes nothing. -/
theorem Stood.read (h : Stood stream isSealed endPosition pos r) {n : Nat} (hn : 0 < n) :
    (∃ piece r', Read.read n r = (.ok piece, r') ∧
        Stood stream isSealed endPosition (pos + piece.length) r' ∧
        piece <+: stream.bytes.drop pos ∧ piece.length ≤ n ∧
        (piece = [] → Finished stream isSealed endPosition pos)) ∨
      ∃ e, Read.read n r = (.error e, r) ∧ e.kind ≠ .unexpectedEof ∧
        Cut stream isSealed endPosition pos := by
  obtain ⟨hat, rfl, rfl⟩ := h
  have hoffset := hat.inner.inner.offset_eq
  have hlimit := hat.inner.inner.limit
  by_cases hbuf : r.inner.buf = []
  · rw [hbuf, List.length_nil, Nat.add_zero] at hoffset hlimit
    by_cases hzero : r.inner.inner.inner.limit = 0
    · obtain ⟨r', hread, hbottom⟩ := stack_read_limit (n := n) hbuf hzero
      obtain ⟨hat', hhanded⟩ := hat.read hread
      refine Or.inl ⟨[], r', hread, ⟨hat', ?_, ?_⟩, hhanded.prefixed, hhanded.length_le,
        fun _ => Or.inl (by omega)⟩
      · rw [hbottom]
      · rw [hbottom]
    · obtain ⟨m, hm, hcase, hbottom⟩ := stack_read_bottom hn hbuf hzero
      obtain ⟨hstream, hsealed, hsame⟩ := byteReader_read_same m r.bottom
      have hoffset : r.bottom.offset = pos := hoffset
      rcases hcase with ⟨e, hbelow, herror, hrest⟩ | ⟨piece, piece', hbelow, hok, hnil⟩
      · rcases byteReader_read_cases hm r.bottom with ⟨e', he', hkind, hwhy⟩ | ⟨_, hok, -⟩
        · rw [hbelow] at he'
          cases he'
          rw [hoffset] at hwhy
          exact Or.inr ⟨e, Prod.ext herror (hrest (hsame ⟨e, hbelow⟩)), hkind, by omega, hwhy⟩
        · rw [hbelow] at hok
          cases hok
      · have hread : Read.read n r = (.ok piece', (Read.read n r).2) := Prod.ext hok rfl
        obtain ⟨hat', hhanded⟩ := hat.read hread
        refine Or.inl ⟨piece', _, hread, ⟨hat', ?_, ?_⟩, hhanded.prefixed, hhanded.length_le,
          fun hp => Or.inr ?_⟩
        · rw [hbottom, hstream]
        · rw [hbottom, hsealed]
        · rcases byteReader_read_cases hm r.bottom with ⟨e', he', -⟩ | ⟨_, hok', hend⟩
          · rw [hbelow] at he'
            cases he'
          · rw [hbelow] at hok'
            cases hok'
            rw [hoffset] at hend
            exact hend (hnil hp)
  · obtain ⟨piece, r', hread, hne, hbottom⟩ := stack_read_buffered hn hbuf
    obtain ⟨hat', hhanded⟩ := hat.read hread
    refine Or.inl ⟨piece, r', hread, ⟨hat', ?_, ?_⟩, hhanded.prefixed, hhanded.length_le,
      fun hp => absurd hp hne⟩
    · rw [hbottom]
    · rw [hbottom]

/-- `read_exact` takes the bytes off, or comes to the end of all bytes, or fails at bytes
that cannot be read. The induction is on the bytes still wanted. -/
theorem Stood.readExact (n : Nat) : ∀ {pos : Nat} {r : Stack ByteReader},
    Stood stream isSealed endPosition pos r →
      (∃ piece r', readExact n r = (.ok piece, r') ∧ piece.length = n ∧
        piece <+: stream.bytes.drop pos ∧ Stood stream isSealed endPosition (pos + n) r') ∨
      ∃ e r' pos', readExact n r = (.error e, r') ∧
        Stood stream isSealed endPosition pos' r' ∧ pos ≤ pos' ∧ pos' < pos + n ∧
        ((e.kind = .unexpectedEof ∧ Finished stream isSealed endPosition pos') ∨
          (e.kind ≠ .unexpectedEof ∧ Cut stream isSealed endPosition pos')) := by
  induction n using Nat.strongRecOn with
  | ind n ih =>
      intro pos r h
      by_cases hn : n = 0
      · subst hn
        refine Or.inl ⟨[], r, ?_, rfl, List.nil_prefix, h⟩
        rw [Lib.readExact, if_pos rfl]
      rw [Lib.readExact, if_neg hn]
      rcases h.read (Nat.pos_of_ne_zero hn) with ⟨piece, r', hread, hat, hfront, hlength, hempty⟩ |
        ⟨e, hread, hkind, hwhy⟩
      · rw [hread]
        dsimp only
        by_cases hp : piece = []
        · rw [if_pos hp]
          rw [hp, List.length_nil, Nat.add_zero] at hat
          exact Or.inr ⟨_, r', pos, rfl, hat, Nat.le_refl _, by omega, Or.inl ⟨rfl, hempty hp⟩⟩
        · have hpos := List.length_pos_iff.mpr hp
          rw [if_neg hp]
          rcases ih (n - piece.length) (by omega) hat with
            ⟨rest, r'', hrest, hlen, hnext, hat'⟩ | ⟨e, r'', pos', hrest, hat', hle, hlt, hwhy⟩
          · rw [hrest]
            have hsplit : pos + piece.length + (n - piece.length) = pos + n := by omega
            rw [hsplit] at hat'
            refine Or.inl ⟨piece ++ rest, r'', rfl, ?_, ?_, hat'⟩
            · rw [List.length_append, hlen]
              omega
            · obtain ⟨tail, htail⟩ := hfront
              rw [← List.drop_drop, ← htail, List.drop_left] at hnext
              rw [← htail]
              exact (List.prefix_append_right_inj piece).mpr hnext
          · rw [hrest]
            exact Or.inr ⟨e, r'', pos', rfl, hat', by omega, by omega, hwhy⟩
      · rw [hread]
        exact Or.inr ⟨e, r, pos, rfl, h, Nat.le_refl _, by omega, Or.inr ⟨hkind, hwhy⟩⟩

end Stood

end GstPravega.Plugin

namespace GstPravega.Video.EventReader

open GstPravega.Lib LawfulRead

/-! ## Reading an event is reading its bytes -/

section Same

variable {ρ ω : Type} [Read ρ] [Read ω] {r r' : ρ} {c c' : ω} {bytes : List UInt8}

theorem readRequiredBufferLength_same (self : EventReader) (hr : readExact 8 r = (.ok bytes, r'))
    (hc : readExact 8 c = (.ok bytes, c')) :
    self.readRequiredBufferLength r =
        ((self.readRequiredBufferLength c).1, (self.readRequiredBufferLength c).2.1, r') ∧
      (self.readRequiredBufferLength c).2.2 = c' := by
  rw [readRequiredBufferLength, readRequiredBufferLength, hr, hc]
  dsimp only
  split
  · exact ⟨rfl, rfl⟩
  · exact ⟨rfl, rfl⟩

theorem readEvent_same (self : EventReader) (bufferLength : Nat)
    (hr : readExact (self.requiredBufferLength - 8) r = (.ok bytes, r'))
    (hc : readExact (self.requiredBufferLength - 8) c = (.ok bytes, c')) :
    self.readEvent r bufferLength = ((self.readEvent c bufferLength).1,
      if bufferLength < self.requiredBufferLength then r else r') := by
  rw [readEvent, readEvent, hr, hc]
  split
  · rfl
  · dsimp only
    split
    · rfl
    · rfl

end Same

variable {ρ : Type} [Read ρ]

/-- Whatever the reader is like: where its bytes are those of a frame, it is the event. -/
theorem read_bytes (self : EventReader) (e : Event) {r r' : ρ}
    (hr : readExact 8 r = (.ok (e.frame.take 8), r')) :
    ∃ self', self.readRequiredBufferLength r = (.ok e.frame.length, self', r') ∧
      self'.requiredBufferLength = e.frame.length ∧
      ∀ {s s' : ρ}, readExact (e.frame.length - 8) s = (.ok (e.frame.drop 8), s') →
        self'.readEvent s e.frame.length = (.ok e.toEventWithHeader, s') := by
  have hlength := e.length_frame
  have hremaining : remaining (⟨e.frame, 0⟩ : Cursor) = e.frame ++ [] :=
    (List.append_nil e.frame).symm
  obtain ⟨c, hc, -, hrest, -⟩ := (readExact_spec 8 (⟨e.frame, 0⟩ : Cursor) trivial).1 (by
    rw [hremaining, List.append_nil]
    omega)
  obtain ⟨hsame, hthird⟩ := self.readRequiredBufferLength_same hr hc
  obtain ⟨c', hlen, -, hbody, -⟩ := self.readRequiredBufferLength_spec e
    (r := (⟨e.frame, 0⟩ : Cursor)) trivial hremaining
  rw [hlen] at hsame hthird
  obtain rfl : c' = c := hthird
  refine ⟨_, hsame, rfl, fun {s s'} hs => ?_⟩
  have hrest : remaining c' = e.frame.drop 8 := hrest
  obtain ⟨c'', hc', -⟩ := (readExact_spec (e.frame.length - 8) c' trivial).1 (by
    rw [hrest, List.length_drop])
  rw [hrest, List.take_of_length_le (Nat.le_of_eq List.length_drop)] at hc'
  obtain ⟨_, hevent, -⟩ := readEvent_spec e trivial hbody (Nat.le_refl _)
  refine Eq.trans (readEvent_same _ e.frame.length hs hc') ?_
  rw [hevent, if_neg (Nat.lt_irrefl _)]

theorem readRequiredBufferLength_reader (self : EventReader) (r : ρ) :
    (self.readRequiredBufferLength r).2.2 = (readExact 8 r).2 := by
  rw [readRequiredBufferLength]
  rcases readExact 8 r with ⟨e | bytes, r'⟩
  · rfl
  · dsimp only
    split
    · rfl
    · rfl

theorem readEvent_reader (self : EventReader) (r : ρ) (bufferLength : Nat) :
    (self.readEvent r bufferLength).2 = r ∨
      (self.readEvent r bufferLength).2 = (readExact (self.requiredBufferLength - 8) r).2 := by
  rw [readEvent]
  split
  · exact Or.inl rfl
  · right
    rcases readExact (self.requiredBufferLength - 8) r with ⟨e | bytes, r'⟩
    · rfl
    · dsimp only
      split
      · rfl
      · rfl

end GstPravega.Video.EventReader
