import GstPravega.Lib.Snapshot
import GstPravega.Proofs.SizeSearch
import GstPravega.Proofs.Truncation

/-!
# Searching an index that changes

A search asks for the head of the index, then for its tail, and then reads records one at
a time, while records are appended and others are truncated away. Records stay where they
are, so from the answer for the tail on the index of that moment is a snapshot, and every
record that is read is one of it. The head may be older than the tail. Then the first
record is gone at the moment of the tail already, and a search that needs it is refused;
one that does not need it returns the last record, whatever the head.

So a search is as good as one that is done at once, at some moment between its call and its
return, or it has failed at a record that was truncated away during the call.
-/

namespace GstPravega.Video

open GstPravega.Lib GstPravega.Client Program IndexSearcher

/-! ## The searches give up at the first error -/

/-- The answer is an error, which `?` hands on. -/
def Refuses : (c : StreamCmd) → c.Res → Fault → Prop
  | .currentHead _, r, e => ∃ io, r = .error io ∧ e = .error io
  | .seekEnd _, r, e => ∃ io, r = .error io ∧ e = .error io
  | .read .., r, e => ∃ io, r = .error io ∧ e = .error io
  | .truncateDataBefore .., r, e => ∃ io, r = .error io ∧ e = .error io

/-- A read of this stream. -/
def Reads (reader : Stream) : StreamCmd → Prop
  | .read s _ _ => s = reader
  | _ => False

section Strict

variable {checks : Bool} {reader : Stream}

theorem strict_read (offset n : Nat) :
    Strict (Reads reader) Refuses (StreamM.read reader offset n).run := by
  refine ⟨rfl, fun r => ⟨fun e he => ?_, trivial⟩⟩
  obtain ⟨io, rfl, rfl⟩ := he
  rfl

theorem strict_checked {α : Type} (o : Option α) :
    Strict (Reads reader) Refuses (StreamM.checked o).run := by
  cases o with
  | none => exact strict_throw _
  | some a => exact strict_pure a

theorem strict_readRecord (offset : Nat) :
    Strict (Reads reader) Refuses (readRecord reader offset).run :=
  strict_bind (strict_read offset _) fun _ => trivial

theorem strict_searchLoop (side : IndexRecord → Option Ordering) (method : SearchMethod) :
    ∀ fuel first last, Strict (Reads reader) Refuses
      (searchLoop checks reader side method fuel first last).run := by
  have hfinish : ∀ first last,
      Strict (Reads reader) Refuses (searchLoop.finish reader method first last).run := by
    intro first last
    cases method with
    | before => exact strict_bind (strict_readRecord last) fun _ => strict_pure _
    | after => exact strict_bind (strict_readRecord first) fun _ => strict_pure _
  intro fuel
  induction fuel with
  | zero => exact fun _ _ => strict_throw _
  | succ fuel ih =>
      intro first last
      refine strict_bind (strict_checked _) fun sum => ?_
      refine strict_bind (strict_readRecord _) fun record => ?_
      refine strict_bind (strict_checked _) fun order => ?_
      cases order with
      | eq => exact strict_pure _
      | gt =>
          refine strict_bind (strict_checked _) fun last => ?_
          split
          · exact hfinish first last
          · exact ih first last
      | lt =>
          refine strict_bind (strict_checked _) fun first => ?_
          split
          · exact hfinish first last
          · exact ih first last

end Strict

/-! ## An index that others change -/

theorem read_of_extends {st st' : ByteStream} (h : st.bytes <+: st'.bytes) {o n : Nat}
    (hhead : st.head ≤ o) (hhead' : st'.head ≤ o) (hle : o + n ≤ st.tail) :
    st'.read o n = st.read o n := by
  obtain ⟨more, hmore⟩ := h
  have htail : st.tail ≤ st'.tail := by
    rw [ByteStream.tail, ByteStream.tail, ← hmore, List.length_append]
    exact Nat.le_add_right _ _
  have hlen : n ≤ (st.bytes.drop o).length := by
    rw [List.length_drop]
    rw [ByteStream.tail] at hle
    omega
  rw [ByteStream.read_of_le hhead hle, ByteStream.read_of_le hhead' (Nat.le_trans hle htail),
    ← hmore, List.drop_append_of_le_length (by rw [ByteStream.tail] at hle; omega),
    List.take_append_of_le_length hlen]

/-- Of the commands, those of a search. -/
def Looks (reader : Stream) : StreamCmd → Prop
  | .currentHead s => s = reader
  | .seekEnd s => s = reader
  | .read s _ _ => s = reader
  | .truncateDataBefore .. => False

variable {σ : Type}

/-- In the arena the stream is an index that grows at its tail and is truncated at its head,
and a search only looks at it. Its commands may fail, if `fails`. -/
structure Serves (A : Arena σ StreamCmd StreamCmd.Res) (streams : σ → Streams)
    (reader : Stream) (fails : Prop) : Prop where
  holds : ∀ x, A.inv x → ∃ recs, Holds ((streams x).get reader) recs
  grows : ∀ x y, A.inv x → A.rely x y → A.inv y →
    ((streams x).get reader).bytes <+: ((streams y).get reader).bytes ∧
      ((streams x).get reader).head ≤ ((streams y).get reader).head
  exec : ∀ c x r y, Looks reader c → A.inv x → A.exec c x r y →
    y = x ∧ A.guar c x r x ∧
      (r = (Streams.answer c (streams x)).1 ∨ (fails ∧ ∃ io, Refuses c r (.error io)))

/-- What is returned is what is returned at one moment of the call. -/
def AtOnce (A : Arena σ StreamCmd StreamCmd.Res) (streams : σ → Streams) {α : Type}
    (p : StreamM α) (x : σ) (a : Except Fault α) (y : σ) : Prop :=
  ∃ m, A.rely x m ∧ A.inv m ∧ A.rely m y ∧ run Streams.answer p.run (streams m) = (a, streams m)

/-- A command was refused: it failed, or what it was to read was truncated meanwhile. -/
def Refused (streams : σ → Streams) (reader : Stream) (fails : Prop) (x : σ) (e : Fault)
    (y : σ) : Prop :=
  ∃ io, e = .error io ∧ (fails ∨ (io = ⟨.other, "segment truncated"⟩ ∧
    ((streams x).get reader).head < ((streams y).get reader).head))

section Search

variable {A : Arena σ StreamCmd StreamCmd.Res} {streams : σ → Streams} {reader : Stream}
  {fails : Prop} {checks : Bool} {x y z m : σ} {o n : Nat}

theorem Refused.rely (hs : Serves A streams reader fails) {e : Fault}
    (h : Refused streams reader fails x e m) (hm : A.inv m) (hmy : A.rely m y)
    (hy : A.inv y) : Refused streams reader fails x e y := by
  obtain ⟨io, he, hcase⟩ := h
  exact ⟨io, he, hcase.imp_right fun hgone =>
    ⟨hgone.1, Nat.lt_of_lt_of_le hgone.2 (hs.grows m y hm hmy hy).2⟩⟩

/-- What is gone cannot be read. -/
theorem Serves.read_gone (hs : Serves A streams reader fails) (hy : A.inv y)
    (ho : o < ((streams y).get reader).head)
    (hx : ((streams x).get reader).head < ((streams y).get reader).head) {r : Except IoError _}
    (hexec : A.exec (.read reader o n) y r z) :
    z = y ∧ A.guar (.read reader o n) y r y ∧ ∃ io, r = .error io ∧
      Refused streams reader fails x (.error io) y := by
  obtain ⟨rfl, hguar, hr | ⟨hfails, io, _, hr, he⟩⟩ := hs.exec (.read reader o n) y r z rfl hy hexec
  · refine ⟨rfl, hguar, _, ?_, _, rfl, Or.inr ⟨rfl, hx⟩⟩
    rw [hr]
    exact if_pos ho
  · cases he
    exact ⟨rfl, hguar, io, hr, io, rfl, Or.inl hfails⟩

/-- What is in the snapshot is read as it is there, or it is gone. -/
theorem Serves.read (hs : Serves A streams reader fails) (hm : A.inv m) (hmy : A.rely m y)
    (hy : A.inv y) (ho : ((streams m).get reader).head ≤ o)
    (hle : o + n ≤ ((streams m).get reader).tail)
    (hx : ((streams x).get reader).head ≤ ((streams m).get reader).head) {r : Except IoError _}
    (hexec : A.exec (.read reader o n) y r z) :
    z = y ∧ A.guar (.read reader o n) y r y ∧ (r = ((streams m).get reader).read o n ∨
      ∃ io, r = .error io ∧ Refused streams reader fails x (.error io) y) := by
  obtain ⟨hbytes, hhead⟩ := hs.grows m y hm hmy hy
  rcases Nat.lt_or_ge o ((streams y).get reader).head with hgone | hthere
  · have hmoved := Nat.lt_of_le_of_lt (Nat.le_trans hx ho) hgone
    obtain ⟨hz, hguar, hrefused⟩ := hs.read_gone hy hgone hmoved hexec
    exact ⟨hz, hguar, Or.inr hrefused⟩
  · obtain ⟨rfl, hguar, hr | ⟨hfails, io, _, hr, he⟩⟩ :=
      hs.exec (.read reader o n) y r z rfl hy hexec
    · refine ⟨rfl, hguar, Or.inl ?_⟩
      rw [hr]
      exact read_of_extends hbytes ho hthere hle
    · cases he
      exact ⟨rfl, hguar, Or.inr ⟨io, hr, io, rfl, Or.inl hfails⟩⟩

/-- A program that reads what is in the snapshot. -/
theorem Serves.safe (hs : Serves A streams reader fails) {α : Type} {p : StreamM α}
    {a : Except Fault α} (hp : Strict (Reads reader) Refuses p.run) (hm : A.inv m)
    (ha : Yields Streams.answer (ReadsRecords reader ((streams m).get reader).head
      ((streams m).get reader).tail) p.run (streams m) a (streams m))
    (hx : ((streams x).get reader).head ≤ ((streams m).get reader).head) :
    Safe A p.run (fun b y => (b = a ∧ A.inv y ∧ A.rely m y) ∨
      ∃ e, b = .error e ∧ A.inv y ∧ Refused streams reader fails x e y) m := by
  refine Strict.safe (fun y => A.inv y ∧ A.rely m y)
    (fun e y => A.inv y ∧ Refused streams reader fails x e y) ?_ ?_ ?_ hp ha
    ⟨hm, A.rely_refl m⟩
  · exact fun y z h hyz hz => ⟨hz, A.rely_trans m y z h.2 hyz⟩
  · exact fun e y z h hyz hz => ⟨hz, h.2.rely hs h.1 hyz hz⟩
  · intro c y r z hread hwithin htracks hy hexec
    cases c with
    | currentHead s => exact hread.elim
    | seekEnd s => exact hread.elim
    | truncateDataBefore s o => exact hread.elim
    | read s o n =>
        obtain rfl : s = reader := hread
        obtain ⟨-, rfl, -, hhead, htail⟩ := hwithin
        obtain ⟨rfl, hguar, hr⟩ := hs.read hm htracks.2 hy hhead htail hx hexec
        refine ⟨hy, hguar, ?_⟩
        rcases hr with hr | ⟨io, hr, hrefused⟩
        · exact Or.inl ⟨Prod.ext hr.symm rfl, htracks⟩
        · exact Or.inr ⟨.error io, ⟨io, hr, rfl⟩, hy, hrefused⟩

/-! ## The start of a search -/

/-- `searchStart`, behind the answers for the head and the tail. -/
def searchBehind (checks : Bool) (reader : Stream) {α : Type}
    (k : Nat → Nat → Nat → IndexRecord → StreamM α) (first tail : Nat) : StreamM α := do
  let least ← StreamM.checked (addU64 checks first IndexRecord.recordSize)
  if tail < least then throw noRecords
  else
    let last ← StreamM.checked (subU64 checks tail IndexRecord.recordSize)
    let lastRecord ← readRecord reader last
    k first tail last lastRecord

section Start

variable {α : Type} {k : Nat → Nat → Nat → IndexRecord → StreamM α} {first tail : Nat}

theorem searchBehind_empty (hfirst : first + IndexRecord.recordSize < 2 ^ 64)
    (h : tail < first + IndexRecord.recordSize) :
    searchBehind checks reader k first tail = throw noRecords := by
  rw [searchBehind, addU64_of_lt hfirst]
  exact if_pos h

theorem searchBehind_cons (hfirst : first + IndexRecord.recordSize < 2 ^ 64)
    (h : first + IndexRecord.recordSize ≤ tail) :
    searchBehind checks reader k first tail =
      readRecord reader (tail - IndexRecord.recordSize) >>=
        k first tail (tail - IndexRecord.recordSize) := by
  rw [searchBehind, addU64_of_lt hfirst, subU64_of_le (Nat.le_trans (Nat.le_add_left _ _) h)]
  exact if_neg (Nat.not_lt.mpr h)

/-- What is done with the answer for a record. -/
def readBehind (f : IndexRecord → StreamM α) :
    Except IoError (List UInt8) → Program StreamCmd StreamCmd.Res (Except Fault α)
  | .error io => .ret (.error (.error io))
  | .ok buffer =>
      match IndexRecordReader.decode buffer with
      | .error e => .ret (.error e)
      | .ok record => (f record).run

theorem readRecord_bind (o : Nat) (f : IndexRecord → StreamM α) :
    (readRecord reader o >>= f).run =
      .call (.read reader o IndexRecord.recordSize) (readBehind f) := by
  refine congrArg (Program.call _) (funext fun r => ?_)
  rcases r with io | buffer
  · rfl
  · rw [readBehind]
    change Program.bind (.ret (IndexRecordReader.decode buffer)) _ = _
    cases IndexRecordReader.decode buffer with
    | error e => rfl
    | ok record => rfl

theorem readBehind_frame (f : IndexRecord → StreamM α) (r : Record) :
    readBehind f (.ok r.frame) = (f r.toIndexRecord).run := by
  rw [readBehind, r.decode_frame]

theorem run_readRecord_bind {w : Streams} {o : Nat} {r : Record}
    (h : (w.get reader).read o IndexRecord.recordSize = .ok r.frame)
    (f : IndexRecord → StreamM α) :
    run Streams.answer (readRecord reader o >>= f).run w =
      run Streams.answer (f r.toIndexRecord).run w := by
  rw [readRecord_bind]
  change run _ (readBehind f ((w.get reader).read o IndexRecord.recordSize)) w = _
  rw [h, readBehind_frame]

/-- Behind the last record the search has its result, or reads the first record next. -/
def Late (reader : Stream) (k : Nat → Nat → Nat → IndexRecord → StreamM α) : Prop :=
  ∀ tail last record, (∃ a, ∀ first, (k first tail last record).run = .ret a) ∨
    ∀ first, ∃ k', (k first tail last record).run =
      .call (.read reader first IndexRecord.recordSize) k'

theorem strict_searchBehind
    (hk : ∀ first tail last r, Strict (Reads reader) Refuses (k first tail last r).run)
    (first tail : Nat) :
    Strict (Reads reader) Refuses (searchBehind checks reader k first tail).run := by
  refine strict_bind (strict_checked _) fun least => ?_
  split
  · exact strict_throw _
  · refine strict_bind (strict_checked _) fun last => ?_
    exact strict_bind (strict_readRecord _) fun record => hk first tail last record

/-- The last record is at the tail. -/
theorem Serves.last (hs : Serves A streams reader fails) (hm : A.inv m)
    (hle : ((streams m).get reader).head + IndexRecord.recordSize ≤
      ((streams m).get reader).tail) :
    ∃ r : Record, ((streams m).get reader).read
      (((streams m).get reader).tail - IndexRecord.recordSize) IndexRecord.recordSize =
        .ok r.frame := by
  obtain ⟨recs, h⟩ := hs.holds m hm
  have htail := h.tail_eq
  have hpos : 0 < recs.length := by
    rw [IndexRecord.recordSize] at htail hle
    omega
  obtain ⟨r, hget⟩ : ∃ r, recs[recs.length - 1]? = some r :=
    ⟨_, List.getElem?_eq_getElem (show recs.length - 1 < recs.length by omega)⟩
  refine ⟨r, ?_⟩
  rw [← h.read_record hget]
  congr 1
  rw [IndexRecord.recordSize] at htail ⊢
  omega

/-- With a head that is not that of the snapshot any more, but not with a first record that
is gone. -/
theorem Serves.safe_older (hs : Serves A streams reader fails)
    (hk : ∀ first tail last r, Strict (Reads reader) Refuses (k first tail last r).run)
    (hlate : Late reader k) (hm : A.inv m) {a : Except Fault α}
    (ha : run Streams.answer (searchBehind checks reader k ((streams m).get reader).head
      ((streams m).get reader).tail).run (streams m) = (a, streams m))
    (hx : ((streams x).get reader).head ≤ first)
    (hfirst : first < ((streams m).get reader).head) :
    Safe A (searchBehind checks reader k first ((streams m).get reader).tail).run
      (fun b y => (b = a ∧ A.inv y ∧ A.rely m y) ∨
        ∃ e, b = .error e ∧ A.inv y ∧ Refused streams reader fails x e y) m := by
  obtain ⟨recs, hholds⟩ := hs.holds m hm
  have hheadle := hholds.head_le
  have hlt := ((streams m).get reader).tail_lt
  rw [← ByteStream.tail] at hlt
  have hmoved := Nat.lt_of_le_of_lt hx hfirst
  generalize htail : ((streams m).get reader).tail = tail at *
  have hsize : IndexRecord.recordSize = 20 := rfl
  rcases Nat.lt_or_ge tail (first + IndexRecord.recordSize) with hempty | hcons
  · rw [searchBehind_empty (by omega) hempty]
    rw [searchBehind_empty (by omega) (by omega)] at ha
    intro y hmy hy
    exact Or.inl ⟨congrArg Prod.fst ha, hy, hmy⟩
  rw [searchBehind_cons (by omega) hcons, readRecord_bind]
  intro y hmy hy r z hexec
  rcases Nat.lt_or_ge (tail - IndexRecord.recordSize) ((streams m).get reader).head with
    hgone | hthere
  · -- Even the last record of the snapshot is gone.
    have hhead := (hs.grows m y hm hmy hy).2
    obtain ⟨rfl, hguar, io, rfl, hrefused⟩ := hs.read_gone hy
      (Nat.lt_of_lt_of_le hgone hhead) (Nat.lt_of_lt_of_le hmoved hhead) hexec
    refine ⟨hy, hguar, fun y' hyy' hy' => ?_⟩
    exact Or.inr ⟨_, rfl, hy', hrefused.rely hs hy hyy' hy'⟩
  obtain ⟨rfl, hguar, hr⟩ := hs.read hm hmy hy hthere (by omega) (Nat.le_of_lt hmoved) hexec
  refine ⟨hy, hguar, ?_⟩
  rcases hr with rfl | ⟨io, rfl, hrefused⟩
  · obtain ⟨last, hlast⟩ := hs.last hm (by omega)
    rw [htail] at hlast
    rw [searchBehind_cons (by omega) (by omega), run_readRecord_bind hlast] at ha
    rw [hlast, readBehind_frame]
    rcases hlate tail (tail - IndexRecord.recordSize) last.toIndexRecord with ⟨b, hb⟩ | hnext
    · -- The first record is not needed.
      rw [hb] at ha ⊢
      intro y' hyy' hy'
      exact Or.inl ⟨congrArg Prod.fst ha, hy', A.rely_trans _ _ _ hmy hyy'⟩
    · -- It is, and it is gone.
      have hstrict := hk first tail (tail - IndexRecord.recordSize) last.toIndexRecord
      obtain ⟨k', hk'⟩ := hnext first
      rw [hk'] at hstrict ⊢
      intro y' hyy' hy' r' z' hexec'
      have hhead := (hs.grows m y' hm (A.rely_trans _ _ _ hmy hyy') hy').2
      obtain ⟨rfl, hguar, io, rfl, hrefused⟩ := hs.read_gone hy'
        (Nat.lt_of_lt_of_le hfirst hhead) (Nat.lt_of_lt_of_le hmoved hhead) hexec'
      refine ⟨hy', hguar, ?_⟩
      rw [(hstrict.2 _).1 (.error io) ⟨io, rfl, rfl⟩]
      intro y'' hyy'' hy''
      exact Or.inr ⟨_, rfl, hy'', hrefused.rely hs hy' hyy'' hy''⟩
  · intro y' hyy' hy'
    exact Or.inr ⟨_, rfl, hy', hrefused.rely hs hy hyy' hy'⟩

/-- **A search is as good as one that is done at once, or it is refused.** The moment is
that of the answer for the tail. -/
theorem Serves.safe_searchStart (hs : Serves A streams reader fails)
    (hk : ∀ first tail last r, Strict (Reads reader) Refuses (k first tail last r).run)
    (hlate : Late reader k) (halone : ∀ m, A.inv m → ∃ a, Yields Streams.answer
      (ReadsRecords reader ((streams m).get reader).head ((streams m).get reader).tail)
      (searchStart checks reader k).run (streams m) a (streams m)) (hx : A.inv x) :
    Safe A (searchStart checks reader k).run (fun a y =>
      AtOnce A streams (searchStart checks reader k) x a y ∨
        ∃ e, a = .error e ∧ Refused streams reader fails x e y) x := by
  intro x' hxx₁ hx₁ r x₁ hexec
  obtain ⟨rfl, hguar, hr | ⟨hfails, io, _, rfl, he⟩⟩ :=
    hs.exec (.currentHead reader) x' r x₁ rfl hx₁ hexec
  rotate_left
  · cases he
    exact ⟨hx₁, hguar, fun _ _ _ => Or.inr ⟨_, rfl, io, rfl, Or.inl hfails⟩⟩
  obtain rfl : r = .ok ((streams x₁).get reader).head := hr
  refine ⟨hx₁, hguar, ?_⟩
  intro m' hx₁m hm r' m hexec'
  obtain ⟨rfl, hguar', hr' | ⟨hfails, io, _, rfl, he⟩⟩ :=
    hs.exec (.seekEnd reader) m' r' m rfl hm hexec'
  rotate_left
  · cases he
    exact ⟨hm, hguar', fun _ _ _ => Or.inr ⟨_, rfl, io, rfl, Or.inl hfails⟩⟩
  obtain rfl : r' = .ok ((streams m).get reader).tail := hr'
  refine ⟨hm, hguar', ?_⟩
  change Safe A (searchBehind checks reader k ((streams x₁).get reader).head
    ((streams m).get reader).tail).run _ m
  obtain ⟨a, hrun, hcalls⟩ := halone m hm
  have hxhead := (hs.grows x x₁ hx hxx₁ hx₁).2
  have hhead := (hs.grows x₁ m hx₁ hx₁m hm).2
  have hbehind : Safe A (searchBehind checks reader k ((streams x₁).get reader).head
      ((streams m).get reader).tail).run
      (fun b y => (b = a ∧ A.inv y ∧ A.rely m y) ∨
        ∃ e, b = .error e ∧ A.inv y ∧ Refused streams reader fails x e y) m := by
    rcases Nat.lt_or_eq_of_le hhead with hlt | heq
    · exact hs.safe_older hk hlate hm hrun hxhead hlt
    · rw [heq] at hxhead ⊢
      refine hs.safe (strict_searchBehind hk _ _) hm ⟨hrun, fun c hc => ?_⟩ hxhead
      exact hcalls c (List.mem_cons_of_mem _ (List.mem_cons_of_mem _ hc))
  refine hbehind.mono fun b y hb => ?_
  rcases hb with ⟨rfl, -, hmy⟩ | ⟨e, he, -, hrefused⟩
  · exact Or.inl ⟨m, A.rely_trans _ _ _ hxx₁ hx₁m, hm, hmy, hrun⟩
  · exact Or.inr ⟨e, he, hrefused⟩

end Start

/-- Either search. -/
inductive Searcher (reader : Stream) : StreamM (IndexRecord × Nat) → Prop where
  | timestamp (checks : Bool) (t : PravegaTimestamp) (method : SearchMethod) :
      Searcher reader (searchTimestampAndReturnIndexOffset checks reader t method)
  | size (checks : Bool) (bytes : Nat) (method : SearchMethod) :
      Searcher reader (searchSizeAndReturnIndexOffset checks reader bytes method)

/-- What either search does with the last record. -/
theorem Searcher.exists_start {p : StreamM (IndexRecord × Nat)} (h : Searcher reader p) :
    ∃ checks k, p = searchStart checks reader k ∧ Late reader k ∧
      ∀ first tail last r, Strict (Reads reader) Refuses (k first tail last r).run := by
  cases h with
  | timestamp checks t method =>
      refine ⟨checks, _, rfl, fun tail last record => ?_, fun first tail last record => ?_⟩
      · by_cases hle : record.timestamp ≤ t
        · refine Or.inl ⟨.ok (record, last), fun first => ?_⟩
          dsimp only
          rw [if_pos hle]
          rfl
        · refine Or.inr fun first => ?_
          dsimp only
          rw [if_neg hle, readRecord_bind]
          exact ⟨_, rfl⟩
      · split
        · exact strict_pure _
        · refine strict_bind (strict_readRecord _) fun firstRecord => ?_
          split
          · exact strict_pure _
          · exact strict_searchLoop _ _ _ _ _
  | size checks bytes method =>
      refine ⟨checks, _, rfl, fun tail last record => Or.inr fun first => ?_,
        fun first tail last record => ?_⟩
      · rw [readRecord_bind]
        exact ⟨_, rfl⟩
      · refine strict_bind (strict_readRecord _) fun firstRecord => ?_
        refine strict_bind (strict_checked _) fun distance => ?_
        split
        · exact strict_pure _
        · exact strict_searchLoop _ _ _ _ _

/-- Alone it has a result, on an index as the sink writes it. -/
theorem Searcher.alone {p : StreamM (IndexRecord × Nat)} (h : Searcher reader p) {w : Streams}
    {recs : List Record} (hholds : Holds (w.get reader) recs) (hsorted : Plugin.Nondecreasing recs) :
    ∃ a, Yields Streams.answer (ReadsRecords reader (w.get reader).head (w.get reader).tail)
      p.run w a w := by
  rcases eq_or_ne recs [] with rfl | hne
  · cases h with
    | timestamp checks t method => exact ⟨_, yields_searchStart_nil hholds⟩
    | size checks bytes method => exact ⟨_, yields_searchStart_nil hholds⟩
  · cases h with
    | timestamp checks t method =>
        obtain ⟨i, r, -, -, hrun⟩ := yields_searchTimestamp hholds checks hne t method
        exact ⟨_, hrun⟩
    | size checks bytes method =>
        obtain ⟨i, r, -, -, hrun⟩ := Plugin.yields_searchSizeBy hholds hne hsorted method
        exact ⟨_, hrun⟩

theorem Searcher.safe (hs : Serves A streams reader fails)
    (hsorted : ∀ m, A.inv m →
      ∃ recs, Holds ((streams m).get reader) recs ∧ Plugin.Nondecreasing recs)
    {p : StreamM (IndexRecord × Nat)} (hp : Searcher reader p) (hx : A.inv x) :
    Safe A p.run (fun a y => AtOnce A streams p x a y ∨
      ∃ e, a = .error e ∧ Refused streams reader fails x e y) x := by
  obtain ⟨checks, k, rfl, hlate, hstrict⟩ := hp.exists_start
  refine hs.safe_searchStart hstrict hlate (fun m hm => ?_) hx
  obtain ⟨recs, hholds, hrecs⟩ := hsorted m hm
  exact hp.alone hholds hrecs

end Search

end GstPravega.Video

namespace GstPravega.Plugin.Store

open GstPravega.Lib GstPravega.Client GstPravega.Video Program

/-! ## Beside a sink and truncators -/

/-- What any interleaving of the sink and the truncators leads to. -/
abbrev Moves := Pool.Reaches Exec Truncator Append

/-- A search beside them. -/
def beside (base : Nat) (fails : Prop) :
    Arena (Store × List (Program StreamCmd StreamCmd.Res (Except Fault Unit))) StreamCmd
      StreamCmd.Res where
  exec c x r y := Exec c x.1 r y.1 ∧ y.2 = x.2 ∧
    (¬fails → r = (Streams.answer c x.1.streams).1)
  rely := Moves
  inv := Pool.Good (arena base)
  guar _ _ _ _ := True
  rely_refl _ := .refl
  rely_trans _ _ _ h h' := h.trans h'

theorem good_moves {base : Nat}
    {x y : Store × List (Program StreamCmd StreamCmd.Res (Except Fault Unit))}
    (hx : Pool.Good (arena base) x) (hxy : Moves x y) :
    Pool.Good (arena base) y ∧ Grows x.1 y.1 :=
  hx.reaches (fun _ hp _ _ => safe_truncator hp) (fun _ _ => consistent_append)
    (fun _ _ _ _ h => h) hxy

theorem serves_beside (base : Nat) (fails : Prop) :
    Serves (beside base fails) (fun x => x.1.streams) .index fails where
  holds x hx := by
    obtain ⟨recs, hrecs⟩ := hx.1
    obtain ⟨recs', hsound⟩ := hrecs.sound
    exact ⟨recs', hsound.index⟩
  grows x y hx hxy _ :=
    have hgrows := (good_moves hx hxy).2
    ⟨hgrows.index_prefix, hgrows.index_head⟩
  exec c x r y hlooks _ hexec := by
    obtain ⟨hstore, hpool, hanswer⟩ := hexec
    have hcases : y.1 = x.1 ∧
        (r = (Streams.answer c x.1.streams).1 ∨ ∃ io, Refuses c r (.error io)) := by
      cases c with
      | currentHead s => exact hstore.imp_right (Or.imp_right fun ⟨io, hr⟩ => ⟨io, io, hr, rfl⟩)
      | seekEnd s => exact hstore.imp_right (Or.imp_right fun ⟨io, hr⟩ => ⟨io, io, hr, rfl⟩)
      | read s o n => exact hstore.imp_right (Or.imp_right fun ⟨io, hr⟩ => ⟨io, io, hr, rfl⟩)
      | truncateDataBefore s o => exact hlooks.elim
    refine ⟨Prod.ext hcases.1 hpool, trivial, ?_⟩
    by_cases hfails : fails
    · exact hcases.2.imp_right fun hrefuses => ⟨hfails, hrefuses⟩
    · exact Or.inl (hanswer hfails)

variable {fails : Prop} {s₀ : Store} {recs₀ : List Record}
  {x y : Store × List (Program StreamCmd StreamCmd.Res (Except Fault Unit))}

/-- **A search is linearizable.** While a sink appends and any number of truncators run,
a search by timestamp or by size returns what it would return if nothing happened during
the call, at some moment of the call; or it gives up, with the error of a command that
failed, or at a record that was truncated away during the call. -/
theorem search_linearizes (h₀ : Sound s₀ recs₀) (hx : Moves (s₀, []) x)
    {p : StreamM (IndexRecord × Nat)} (hp : Searcher .index p)
    {a : Except Fault (IndexRecord × Nat)}
    (hcall : Outcome (beside s₀.index.head fails) p.run x a y) :
    (∃ m, Moves x m ∧ Moves m y ∧ run Streams.answer p.run m.1.streams = (a, m.1.streams)) ∨
      ∃ io, a = .error (.error io) ∧ (fails ∨ (io = ⟨.other, "segment truncated"⟩ ∧
        x.1.index.head < y.1.index.head)) := by
  have hgood₀ : Pool.Good (arena s₀.index.head) (s₀,
      ([] : List (Program StreamCmd StreamCmd.Res (Except Fault Unit)))) :=
    ⟨⟨recs₀, h₀.indexes⟩, fun p hp => nomatch hp⟩
  have hgood := (good_moves hgood₀ hx).1
  have hsafe := hp.safe (serves_beside s₀.index.head fails) (fun m hm => ?_) hgood
  · obtain ⟨hcase, -⟩ := hsafe.outcome (fun _ _ hs hrely => (good_moves hs hrely).1) hgood hcall
    rcases hcase with ⟨m, hxm, -, hmy, hrun⟩ | ⟨e, rfl, io, rfl, hrefused⟩
    · exact Or.inl ⟨m, hxm, hmy, hrun⟩
    · exact Or.inr ⟨io, rfl, hrefused⟩
  · obtain ⟨recs, hrecs⟩ := hm.1
    obtain ⟨recs', hsound⟩ := hrecs.sound
    exact ⟨recs', hsound.index, hsound.sorted⟩

/-- The answers when nothing fails. -/
def answerAll (c : StreamCmd) (s : Store) : c.Res × Store :=
  ((Streams.answer c s.streams).1, ⟨(Streams.answer c s.streams).2, s.indexed⟩)

theorem exec_answerAll (c : StreamCmd) (s : Store) :
    Exec c s (answerAll c s).1 (answerAll c s).2 := by
  cases c with
  | currentHead stream => exact ⟨rfl, Or.inl rfl⟩
  | seekEnd stream => exact ⟨rfl, Or.inl rfl⟩
  | read stream o n => exact ⟨rfl, Or.inl rfl⟩
  | truncateDataBefore stream o => exact Or.inl rfl

theorem search_linearizes_young :
    let x : Store × List (Program StreamCmd StreamCmd.Res (Except Fault Unit)) :=
      (⟨youngStreams, 21⟩, [])
    let p := IndexSearcher.searchTimestampAndReturnIndexOffset true .index ⟨some 1500⟩ .before
    let result := run (fun c x => ((answerAll c x.1).1, (answerAll c x.1).2, x.2)) p.run x
    (∃ m, Moves x m ∧ Moves m result.2 ∧
        run Streams.answer p.run m.1.streams = (result.1, m.1.streams)) ∨
      ∃ io, result.1 = .error (.error io) ∧ (False ∨ (io = ⟨.other, "segment truncated"⟩ ∧
        x.1.index.head < result.2.1.index.head)) := by
  have h₀ : Sound ⟨youngStreams, 21⟩ youngRecords :=
    ⟨young_partitions.index, by decide, by decide, by decide, by decide, by decide⟩
  have hexec : ∀ c x, (beside 0 False).exec c x (answerAll c x.1).1 ((answerAll c x.1).2, x.2) :=
    fun c x => ⟨exec_answerAll c x.1, rfl, fun _ => rfl⟩
  exact search_linearizes h₀ .refl (.timestamp true ⟨some 1500⟩ .before) (outcome_run hexec _ _)

end GstPravega.Plugin.Store
