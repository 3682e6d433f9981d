import GstPravega.Proofs.RetentionDays

/-!
# Truncation under any interleaving

One sink appends while any number of truncators run, each of them a program
whose commands take effect one at a time, between any moves of the others. What
makes it safe is that the truncators only ever act on old news that stays true:
a record that was found keeps its place and its content, heads only move
forward, and the offsets in the index do not go down. So once the index has
been truncated at a found record, every record still there holds an offset at
least as large as the one the data is then truncated at, whoever else has
truncated meanwhile. `Found` is that news, and `Found.rely` says it is stable.

The last record is never before the place a truncator truncates at, so an index
that holds a record always will.
-/

namespace GstPravega.Plugin

open GstPravega.Lib GstPravega.Client GstPravega.Video Program IndexSearcher
  RetentionMaintainer

/-- The two streams, and how far the sink has indexed: the offset of its last
record, or where it began to write. -/
structure Store where
  streams : Streams
  indexed : Nat

namespace Store

def data (s : Store) : ByteStream := s.streams.data
def index (s : Store) : ByteStream := s.streams.index

/-- What the sink does. Index offsets do not go down and are within the data. -/
inductive Append : Store → Store → Prop where
  | data {s : Store} {st : ByteStream} (bytes : List UInt8) :
      st.head = s.data.head → st.bytes = s.data.bytes ++ bytes →
      Append s ⟨⟨st, s.index⟩, s.indexed⟩
  | index {s : Store} {st : ByteStream} (r : Record) :
      st.head = s.index.head → st.bytes = s.index.bytes ++ r.frame →
      s.indexed ≤ r.offset → r.offset ≤ s.data.tail →
      Append s ⟨⟨s.data, st⟩, r.offset⟩

/-- What a command of a truncator does. Any command may fail, a truncation also
after it has taken effect. -/
def Exec : (c : StreamCmd) → Store → c.Res → Store → Prop
  | .truncateDataBefore stream offset, s, r, s' =>
      s' = ⟨(Streams.answer (.truncateDataBefore stream offset) s.streams).2,
        s.indexed⟩ ∨ (s' = s ∧ ∃ e, r = .error e)
  | .currentHead stream, s, r, s' =>
      s' = s ∧ (r = .ok (s.streams.get stream).head ∨ ∃ e, r = .error e)
  | .seekEnd stream, s, r, s' =>
      s' = s ∧ (r = .ok (s.streams.get stream).tail ∨ ∃ e, r = .error e)
  | .read stream offset n, s, r, s' =>
      s' = s ∧ (r = (s.streams.get stream).read offset n ∨ ∃ e, r = .error e)

/-- `recs` are the records from the byte `base` on, of which those before the
head have been truncated. -/
structure Indexes (base : Nat) (s : Store) (recs : List Record) : Prop where
  base_aligned : IndexRecord.recordSize ∣ base
  head_aligned : IndexRecord.recordSize ∣ s.index.head
  base_le : base ≤ s.index.head
  head_le : s.index.head ≤ s.index.tail
  bytes : s.index.bytes.drop base = recs.flatMap Record.frame
  sorted : recs.Pairwise fun a b => a.offset ≤ b.offset
  within : ∀ r ∈ recs, r.offset ≤ s.indexed
  ahead : s.data.head ≤ s.indexed
  behind : s.indexed ≤ s.data.tail
  readable : ∀ i r, recs[i]? = some r →
    s.index.head ≤ base + IndexRecord.recordSize * i → s.data.head ≤ r.offset

def Consistent (base : Nat) (s : Store) : Prop := ∃ recs, Indexes base s recs

/-- What everyone relies on: nothing written is lost but below the heads, which
do not go back, and the index does not become empty. -/
structure Grows (s s' : Store) : Prop where
  index_prefix : s.index.bytes <+: s'.index.bytes
  index_head : s.index.head ≤ s'.index.head
  data_head : s.data.head ≤ s'.data.head
  nonempty : s.index.head < s.index.tail → s'.index.head < s'.index.tail

theorem Grows.refl (s : Store) : Grows s s :=
  ⟨List.prefix_rfl, Nat.le_refl _, Nat.le_refl _, id⟩

theorem Grows.trans (s t u : Store) (h : Grows s t) (h' : Grows t u) : Grows s u :=
  ⟨h.index_prefix.trans h'.index_prefix, Nat.le_trans h.index_head h'.index_head,
    Nat.le_trans h.data_head h'.data_head, fun hn => h'.nonempty (h.nonempty hn)⟩

theorem Grows.tail_le {s s' : Store} (h : Grows s s') :
    s.index.tail ≤ s'.index.tail := h.index_prefix.length_le

/-- Where the truncators run. -/
def arena (base : Nat) : Arena Store StreamCmd StreamCmd.Res where
  exec := Exec
  rely := Grows
  inv := Consistent base
  guar _ s _ s' := Grows s s'
  rely_refl := Grows.refl
  rely_trans := Grows.trans

/-! ## Records stay where they are -/

theorem Indexes.tail_eq {base : Nat} {s : Store} {recs : List Record}
    (h : Indexes base s recs) :
    s.index.tail = base + IndexRecord.recordSize * recs.length := by
  have hlen := congrArg List.length h.bytes
  rw [List.length_drop, length_flatMap_of_length Record.length_frame] at hlen
  have h1 := h.base_le
  have h2 := h.head_le
  rw [ByteStream.tail] at h2 ⊢
  omega

/-- Records are only ever added behind. -/
theorem Indexes.extends {base : Nat} {s s' : Store} {recs recs' : List Record}
    (h : Indexes base s recs) (hs : Grows s s') (h' : Indexes base s' recs') :
    ∃ more, recs' = recs ++ more := by
  obtain ⟨ys, hys⟩ := hs.index_prefix
  have hle : base ≤ s.index.bytes.length := Nat.le_trans h.base_le h.head_le
  have hb := h'.bytes
  rw [← hys, List.drop_append_of_le_length hle, h.bytes] at hb
  exact flatMap_prefix Record.frame_delimiting Record.frame_injective hb

/-- The record is, or was, in the index at that byte. -/
def Found (base : Nat) (s : Store) (x : IndexRecord × Nat) : Prop :=
  ∃ recs i r, Indexes base s recs ∧ recs[i]? = some r ∧ r.toIndexRecord = x.1 ∧
    x.2 = base + IndexRecord.recordSize * i

/-- What is at a multiple of the record size is a record. -/
theorem Indexes.slice {base : Nat} {s : Store} {recs : List Record}
    (h : Indexes base s recs) {offset : Nat} (hbase : base ≤ offset)
    (htail : offset + IndexRecord.recordSize ≤ s.index.tail)
    (haligned : IndexRecord.recordSize ∣ offset) :
    ∃ i r, recs[i]? = some r ∧ offset = base + IndexRecord.recordSize * i ∧
      (s.index.bytes.drop offset).take IndexRecord.recordSize = r.frame := by
  obtain ⟨k, hk⟩ := haligned
  obtain ⟨b, hb⟩ := h.base_aligned
  have heq := h.tail_eq
  rw [IndexRecord.recordSize] at hk hb heq htail
  have hi : k - b < recs.length := by omega
  have hoff : offset = base + IndexRecord.recordSize * (k - b) := by
    rw [IndexRecord.recordSize]
    omega
  refine ⟨k - b, recs[k - b], List.getElem?_eq_getElem hi, hoff, ?_⟩
  rw [hoff, ← List.drop_drop, h.bytes]
  exact slice_flatMap_of_length Record.length_frame (List.getElem?_eq_getElem hi)

theorem Grows.slice {s s' : Store} (h : Grows s s') {offset n : Nat}
    (htail : offset + n ≤ s.index.tail) :
    (s'.index.bytes.drop offset).take n = (s.index.bytes.drop offset).take n := by
  obtain ⟨ys, hys⟩ := h.index_prefix
  rw [ByteStream.tail] at htail
  rw [← hys, List.drop_append_of_le_length (by omega),
    List.take_append_of_le_length (by rw [List.length_drop]; omega)]

theorem Found.rely {base : Nat} {s s' : Store} {x : IndexRecord × Nat}
    (h : Found base s x) (hs : Grows s s') (hi : Consistent base s') :
    Found base s' x := by
  obtain ⟨recs, i, r, hrecs, hr, hx⟩ := h
  obtain ⟨recs', hrecs'⟩ := hi
  obtain ⟨more, rfl⟩ := hrecs.extends hs hrecs'
  obtain ⟨hlt, _⟩ := List.getElem?_eq_some_iff.mp hr
  exact ⟨_, i, r, hrecs', by rw [List.getElem?_append_left hlt, hr], hx⟩

theorem Found.le_tail {base : Nat} {s : Store} {x : IndexRecord × Nat}
    (h : Found base s x) : x.2 + IndexRecord.recordSize ≤ s.index.tail := by
  obtain ⟨recs, i, r, hrecs, hr, _, hx⟩ := h
  obtain ⟨hlt, _⟩ := List.getElem?_eq_some_iff.mp hr
  have hmul : IndexRecord.recordSize * (i + 1) ≤
      IndexRecord.recordSize * recs.length := Nat.mul_le_mul_left _ hlt
  rw [Nat.mul_succ] at hmul
  rw [hrecs.tail_eq, hx]
  omega

/-! ## What the programs do -/

variable {base : Nat} {s : Store}

theorem safeE_checked {α : Type} {o : Option α} {Q : α → Store → Prop}
    (h : ∀ a, o = some a → ∀ s', Grows s s' → Consistent base s' → Q a s') :
    SafeE (arena base) (StreamM.checked o) Q s := by
  cases o with
  | none => exact safeE_throw
  | some a => exact safeE_pure (h a rfl)

theorem safeE_attempt {α : Type} {p : StreamM α} {Q : α → Store → Prop}
    (h : SafeE (arena base) p Q s)
    (hQ : ∀ a s₁ s₂, Q a s₁ → Grows s₁ s₂ → Consistent base s₂ → Q a s₂) :
    SafeE (arena base) (StreamM.attempt p) (fun r s' => ∀ a, r = .ok a → Q a s') s := by
  refine safe_bind (Safe.mono h fun r s' hr => ?_)
  match r, hr with
  | .ok a, hr =>
      intro t ht hi r' hr' a' ha'
      injection hr' with hr'
      subst hr'
      injection ha' with ha'
      subst ha'
      exact hQ a s' t (hr a rfl) ht hi
  | .error (.error e), _ =>
      intro t _ _ r' hr' a' ha'
      injection hr' with hr'
      subst hr'
      cases ha'
  | .error .panicked, _ => exact fun _ _ _ _ hr' => nomatch hr'
  | .error .outOfFuel, _ => exact fun _ _ _ _ hr' => nomatch hr'

theorem safeE_unwrap {α : Type} {r : Except IoError α} {Q : α → Store → Prop}
    (h : ∀ a, r = .ok a → ∀ s', Grows s s' → Consistent base s' → Q a s') :
    SafeE (arena base) (StreamM.unwrap r) Q s := by
  cases r with
  | ok a => exact safeE_pure (h a rfl)
  | error e => exact safeE_throw

/-- A command that answers and changes nothing. -/
theorem safeE_query {α : Type} {c : StreamCmd} {k : c.Res → StreamM α}
    {Q : α → Store → Prop} (hsame : ∀ s₁ r s₂, Exec c s₁ r s₂ → s₂ = s₁)
    (h : ∀ s₁, Grows s s₁ → Consistent base s₁ → ∀ r, Exec c s₁ r s₁ →
      SafeE (arena base) (k r) Q s₁) :
    SafeE (arena base) (ExceptT.mk (.call c fun r => (k r).run)) Q s := by
  intro s₁ hs hi r s₂ he
  have heq := hsame s₁ r s₂ he
  subst heq
  exact ⟨hi, Grows.refl s₂, h s₂ hs hi r he⟩

theorem safeE_currentHead :
    SafeE (arena base) (StreamM.currentHead .index)
      (fun n _ => IndexRecord.recordSize ∣ n) s := by
  refine safeE_query (fun _ _ _ he => he.1) fun s₁ _ hi r he => ?_
  obtain ⟨recs, hrecs⟩ := hi
  rcases he.2 with rfl | ⟨e, rfl⟩
  · exact safeE_pure fun _ _ _ => hrecs.head_aligned
  · exact safeE_throw

theorem safeE_seekEnd :
    SafeE (arena base) (StreamM.seekEnd .index)
      (fun n _ => IndexRecord.recordSize ∣ n) s := by
  refine safeE_query (fun _ _ _ he => he.1) fun s₁ _ hi r he => ?_
  obtain ⟨recs, hrecs⟩ := hi
  rcases he.2 with rfl | ⟨e, rfl⟩
  · refine safeE_pure fun _ _ _ => ?_
    show IndexRecord.recordSize ∣ s₁.index.tail
    rw [hrecs.tail_eq]
    exact Nat.dvd_add hrecs.base_aligned (Nat.dvd_mul_right _ _)
  · exact safeE_throw

theorem safeE_read (offset n : Nat) :
    SafeE (arena base) (StreamM.read .index offset n)
      (fun bs s' => base ≤ offset ∧ offset + n ≤ s'.index.tail ∧
        (s'.index.bytes.drop offset).take n = bs) s := by
  refine safeE_query (fun _ _ _ he => he.1) fun s₁ _ hi r he => ?_
  obtain ⟨recs, hrecs⟩ := hi
  rcases he.2 with rfl | ⟨e, rfl⟩
  · cases hread : (s₁.streams.get .index).read offset n with
    | error e => exact safeE_throw
    | ok bs =>
        obtain ⟨hhead, htail, rfl⟩ := ByteStream.read_ok hread
        refine safeE_pure fun s₂ hs _ => ⟨?_, ?_, ?_⟩
        · exact Nat.le_trans hrecs.base_le hhead
        · exact Nat.le_trans htail hs.tail_le
        · exact hs.slice htail
  · exact safeE_throw

/-- Where records are, records are read. -/
theorem safeE_readRecord (offset : Nat) :
    SafeE (arena base) (readRecord .index offset)
      (fun r s' => offset + IndexRecord.recordSize ≤ s'.index.tail ∧
        (IndexRecord.recordSize ∣ offset → Found base s' (r, offset))) s := by
  refine safeE_bind ((safeE_read offset _).mono fun bs s₁ hbs => ?_)
  obtain ⟨hbase, htail, hbs⟩ := hbs
  cases hdec : IndexRecordReader.decode bs with
  | error e =>
      intro s₂ _ _ r hr
      cases hr
  | ok r =>
      refine safeE_pure fun s₂ hs hi => ?_
      have htail₂ := Nat.le_trans htail hs.tail_le
      refine ⟨htail₂, fun haligned => ?_⟩
      obtain ⟨recs, hrecs⟩ := hi
      obtain ⟨i, rec, hi, hoff, hslice⟩ := hrecs.slice hbase htail₂ haligned
      rw [hs.slice htail, hbs] at hslice
      rw [hslice, rec.decode_frame] at hdec
      injection hdec with hdec
      exact ⟨recs, i, rec, hrecs, hi, hdec, hoff⟩

/-- A place that holds a record, or one too far out to be read at all. -/
def Place (offset : Nat) : Prop :=
  IndexRecord.recordSize ∣ offset ∨ 2 ^ 63 ≤ offset

/-- A record read at a place is in its place. -/
theorem found_of_place {offset : Nat} {r : IndexRecord} (h : Place offset)
    (hr : offset + IndexRecord.recordSize ≤ s.index.tail ∧
      (IndexRecord.recordSize ∣ offset → Found base s (r, offset))) :
    Found base s (r, offset) := by
  rcases h with h | h
  · exact hr.2 h
  · have := s.index.tail_lt
    rw [ByteStream.tail] at hr
    omega

theorem place_sub {checks : Bool} {a b : Nat} (ha : IndexRecord.recordSize ∣ a)
    (h : subU64 checks a IndexRecord.recordSize = some b) : Place b := by
  rw [subU64] at h
  split at h
  · injection h with h
    rw [← h]
    exact Or.inl (Nat.dvd_sub ha (Nat.dvd_refl _))
  · split at h
    · cases h
    · injection h with h
      rw [IndexRecord.recordSize] at h
      exact Or.inr (by omega)

/-- Once the window has closed. -/
theorem safeE_finish {method : SearchMethod} {first last : Nat}
    (hfirst : IndexRecord.recordSize ∣ first) (hlast : Place last) :
    SafeE (arena base) (searchLoop.finish .index method first last)
      (fun x s' => Found base s' x) s := by
  cases method with
  | before =>
      refine safeE_bind ((safeE_readRecord last).mono fun r s₁ hr => ?_)
      exact safeE_pure fun s₂ hs hi => (found_of_place hlast hr).rely hs hi
  | after =>
      refine safeE_bind ((safeE_readRecord first).mono fun r s₁ hr => ?_)
      exact safeE_pure fun s₂ hs hi => (hr.2 hfirst).rely hs hi

/-- Whatever the loop comes across, what it returns is a record in its place.
The induction is on the fuel; the window stays on places. -/
theorem safeE_searchLoop {checks : Bool} {side : IndexRecord → Option Ordering}
    {method : SearchMethod} (fuel : Nat) :
    ∀ (s : Store) (first last : Nat), IndexRecord.recordSize ∣ first → Place last →
      SafeE (arena base) (searchLoop checks .index side method fuel first last)
        (fun x s' => Found base s' x) s := by
  induction fuel with
  | zero => exact fun _ _ _ _ _ => safeE_throw
  | succ fuel ih =>
      intro s first last hfirst hlast
      refine safeE_bind (safeE_checked fun sum _ s₁ _ _ => ?_)
      have hmiddle : IndexRecord.recordSize ∣
          sum / 2 / IndexRecord.recordSize * IndexRecord.recordSize :=
        Nat.dvd_mul_left _ _
      dsimp only
      generalize sum / 2 / IndexRecord.recordSize * IndexRecord.recordSize = middle
        at hmiddle ⊢
      refine safeE_bind ((safeE_readRecord middle).mono fun r s₂ hr => ?_)
      obtain ⟨htail, hfound⟩ := hr
      have hlt := s₂.index.tail_lt
      rw [← ByteStream.tail] at hlt
      refine safeE_bind (safeE_checked fun order _ s₃ h₃ hi₃ => ?_)
      cases order with
      | eq => exact safeE_pure fun s₄ h₄ hi₄ =>
          ((hfound hmiddle).rely h₃ hi₃).rely h₄ hi₄
      | lt =>
          refine safeE_bind (safeE_checked fun first' hfirst' s₄ _ _ => ?_)
          rw [addU64_of_lt (by omega)] at hfirst'
          injection hfirst' with hfirst'
          have hfirst' : IndexRecord.recordSize ∣ first' := by
            rw [← hfirst']
            exact Nat.dvd_add hmiddle (Nat.dvd_refl _)
          split
          · exact safeE_finish hfirst' hlast
          · exact ih s₄ first' last hfirst' hlast
      | gt =>
          refine safeE_bind (safeE_checked fun last' hlast' s₄ _ _ => ?_)
          have hplace := place_sub hmiddle hlast'
          split
          · exact safeE_finish hfirst hplace
          · exact ih s₄ first last' hfirst hplace

/-- What a search goes on with: the places of its first and of its last record, and the
last record. -/
theorem safeE_searchStart {checks : Bool} {α : Type} {Q : α → Store → Prop}
    {k : Nat → Nat → Nat → IndexRecord → StreamM α}
    (hk : ∀ {first tail last r s}, IndexRecord.recordSize ∣ first → Place last →
      Found base s (r, last) → SafeE (arena base) (k first tail last r) Q s) :
    SafeE (arena base) (searchStart checks .index k) Q s := by
  refine safeE_bind (safeE_currentHead.mono fun first s₁ hfirst => ?_)
  refine safeE_bind (safeE_seekEnd.mono fun tail s₂ htail => ?_)
  refine safeE_bind (safeE_checked fun least _ s₃ _ _ => ?_)
  split
  · exact safeE_throw
  refine safeE_bind (safeE_checked fun last hlast s₄ _ _ => ?_)
  have hplace := place_sub htail hlast
  refine safeE_bind ((safeE_readRecord last).mono fun r s₅ hr => ?_)
  exact hk hfirst hplace (found_of_place hplace hr)

theorem safeE_searchTimestamp {checks : Bool} {t : PravegaTimestamp}
    {method : SearchMethod} :
    SafeE (arena base) (searchTimestampAndReturnIndexOffset checks .index t method)
      (fun x s' => Found base s' x) s := by
  refine safeE_searchStart fun {first tail last r s₅} hfirst hplace hr => ?_
  split
  · exact safeE_pure fun s₆ hs hi => hr.rely hs hi
  refine safeE_bind ((safeE_readRecord first).mono fun r s₆ hr => ?_)
  split
  · exact safeE_pure fun s₇ hs hi => (hr.2 hfirst).rely hs hi
  · exact safeE_searchLoop _ s₆ first last hfirst hplace

theorem safeE_searchSize {checks : Bool} {sizeBytes : Nat} {method : SearchMethod} :
    SafeE (arena base) (searchSizeAndReturnIndexOffset checks .index sizeBytes method)
      (fun x s' => Found base s' x) s := by
  refine safeE_searchStart fun {first tail last tailRecord s₅} hfirst hplace _ => ?_
  refine safeE_bind ((safeE_readRecord first).mono fun r s₆ hr => ?_)
  refine safeE_bind (safeE_checked fun distance _ s₇ h₇ hi₇ => ?_)
  split
  · exact safeE_pure fun s₈ hs hi => ((hr.2 hfirst).rely h₇ hi₇).rely hs hi
  · exact safeE_searchLoop _ s₇ first last hfirst hplace

/-! ## Truncating -/

/-- The index truncated at a record it holds, or held. -/
theorem indexes_truncate_index {recs : List Record} {x : IndexRecord × Nat}
    (h : Indexes base s recs) (hx : Found base s x) :
    let s' : Store := ⟨⟨s.data, s.index.truncateDataBefore (asI64 x.2)⟩, s.indexed⟩
    Indexes base s' recs ∧ Grows s s' ∧ x.2 ≤ s'.index.head := by
  have hle := hx.le_tail
  have hlt := s.index.tail_lt
  rw [← ByteStream.tail] at hlt
  obtain ⟨_, i, r, hrecs, _, _, hoff⟩ := hx
  have haligned : IndexRecord.recordSize ∣ x.2 := by
    rw [hoff]
    exact Nat.dvd_add h.base_aligned (Nat.dvd_mul_right _ _)
  have hhead : (s.index.truncateDataBefore (asI64 x.2)).head = max s.index.head x.2 := by
    rw [ByteStream.truncateDataBefore_head, asI64_of_lt (by omega), Int.toNat_natCast]
  have hheadle := h.head_le
  refine ⟨⟨h.base_aligned, ?_, ?_, ?_, h.bytes, h.sorted, h.within, h.ahead, h.behind, ?_⟩,
    ⟨List.prefix_rfl, ?_, Nat.le_refl _, fun hn => ?_⟩, ?_⟩
  · show IndexRecord.recordSize ∣ (s.index.truncateDataBefore (asI64 x.2)).head
    rw [hhead]
    rcases Nat.le_total s.index.head x.2 with hc | hc
    · rw [Nat.max_eq_right hc]
      exact haligned
    · rw [Nat.max_eq_left hc]
      exact h.head_aligned
  · show base ≤ (s.index.truncateDataBefore (asI64 x.2)).head
    rw [hhead]
    exact Nat.le_trans h.base_le (Nat.le_max_left _ _)
  · show (s.index.truncateDataBefore (asI64 x.2)).head ≤ s.index.tail
    rw [hhead]
    exact Nat.max_le.mpr ⟨hheadle, by omega⟩
  · intro j r' hr' hj
    refine h.readable j r' hr' (Nat.le_trans ?_ hj)
    show s.index.head ≤ (s.index.truncateDataBefore (asI64 x.2)).head
    rw [hhead]
    exact Nat.le_max_left _ _
  · show s.index.head ≤ (s.index.truncateDataBefore (asI64 x.2)).head
    rw [hhead]
    exact Nat.le_max_left _ _
  · show (s.index.truncateDataBefore (asI64 x.2)).head < s.index.tail
    rw [hhead]
    rw [IndexRecord.recordSize] at hle
    exact Nat.max_lt.mpr ⟨hn, by omega⟩
  · show x.2 ≤ (s.index.truncateDataBefore (asI64 x.2)).head
    rw [hhead]
    exact Nat.le_max_right _ _

/-- The data truncated at the offset of a record at or before the index head:
no record left holds a smaller one. -/
theorem indexes_truncate_data {recs : List Record} {x : IndexRecord × Nat}
    (h : Indexes base s recs) (hx : Found base s x) (hhead : x.2 ≤ s.index.head) :
    let s' : Store := ⟨⟨s.data.truncateDataBefore (asI64 x.1.offset), s.index⟩, s.indexed⟩
    Indexes base s' recs ∧ Grows s s' := by
  obtain ⟨recs', i, r, hrecs, hr, hrx, hoff⟩ := hx
  obtain ⟨more, rfl⟩ := hrecs.extends (Grows.refl s) h
  obtain ⟨hi, hri⟩ := List.getElem?_eq_some_iff.mp hr
  have hget : (recs' ++ more)[i]? = some r := by
    rw [List.getElem?_append_left hi, hr]
  have hwithin := h.within r (List.mem_of_getElem? hget)
  have hbehind := h.behind
  have hlt := s.data.tail_lt
  rw [← ByteStream.tail] at hlt
  have hdata : (s.data.truncateDataBefore (asI64 x.1.offset)).head =
      max s.data.head r.offset := by
    rw [ByteStream.truncateDataBefore_head, ← hrx, asI64_of_lt (by omega),
      Int.toNat_natCast]
  refine ⟨⟨h.base_aligned, h.head_aligned, h.base_le, h.head_le, h.bytes, h.sorted,
    h.within, ?_, h.behind, fun j r' hr' hj => ?_⟩,
    ⟨List.prefix_rfl, Nat.le_refl _, ?_, id⟩⟩
  · show (s.data.truncateDataBefore (asI64 x.1.offset)).head ≤ s.indexed
    rw [hdata]
    exact Nat.max_le.mpr ⟨h.ahead, hwithin⟩
  · show (s.data.truncateDataBefore (asI64 x.1.offset)).head ≤ r'.offset
    rw [hdata]
    refine Nat.max_le.mpr ⟨h.readable j r' hr' hj, ?_⟩
    -- Everything left in the index is at or behind the record found.
    have hj : s.index.head ≤ base + IndexRecord.recordSize * j := hj
    have hij : i ≤ j := by
      rw [IndexRecord.recordSize] at hj hoff
      omega
    obtain ⟨hjlt, hjr⟩ := List.getElem?_eq_some_iff.mp hr'
    obtain ⟨hilt, hir⟩ := List.getElem?_eq_some_iff.mp hget
    rcases Nat.lt_or_eq_of_le hij with hlt | rfl
    · rw [← hir, ← hjr]
      exact List.pairwise_iff_getElem.mp h.sorted i j hilt hjlt hlt
    · rw [← hir, ← hjr]
  · show s.data.head ≤ (s.data.truncateDataBefore (asI64 x.1.offset)).head
    rw [hdata]
    exact Nat.le_max_left _ _

theorem safeE_truncate_index {x : IndexRecord × Nat} (hx : Found base s x) :
    SafeE (arena base) (StreamM.truncateDataBefore .index (asI64 x.2))
      (fun r s' => r = .ok () → Found base s' x ∧ x.2 ≤ s'.index.head) s := by
  intro s₁ hs hi r s₂ he
  have hx₁ := hx.rely hs hi
  obtain ⟨recs, hrecs⟩ := hi
  obtain ⟨htrunc, hgrows, hhead⟩ := indexes_truncate_index hrecs hx₁
  rcases he with rfl | ⟨rfl, e, rfl⟩
  · refine ⟨⟨recs, htrunc⟩, hgrows, fun s₃ h₃ hi₃ r' hr' hok => ?_⟩
    exact ⟨(hx₁.rely hgrows ⟨recs, htrunc⟩).rely h₃ hi₃, Nat.le_trans hhead h₃.index_head⟩
  · refine ⟨⟨recs, hrecs⟩, Grows.refl _, fun s₃ _ _ r' hr' hok => ?_⟩
    injection hr' with hr'
    rw [← hr'] at hok
    cases hok

theorem safeE_truncate_data {x : IndexRecord × Nat} (hx : Found base s x)
    (hhead : x.2 ≤ s.index.head) :
    SafeE (arena base) (StreamM.truncateDataBefore .data (asI64 x.1.offset))
      (fun _ _ => True) s := by
  intro s₁ hs hi r s₂ he
  have hx₁ := hx.rely hs hi
  obtain ⟨recs, hrecs⟩ := hi
  obtain ⟨htrunc, hgrows⟩ :=
    indexes_truncate_data hrecs hx₁ (Nat.le_trans hhead hs.index_head)
  rcases he with rfl | ⟨rfl, e, rfl⟩
  · exact ⟨⟨recs, htrunc⟩, hgrows, fun _ _ _ _ _ => trivial⟩
  · exact ⟨⟨recs, hrecs⟩, Grows.refl _, fun _ _ _ _ _ => trivial⟩

/-- The order of the two truncations is what the second one needs. -/
theorem safeE_truncateAt {x : IndexRecord × Nat} (hx : Found base s x) :
    SafeE (arena base) (truncateAt x) (fun _ _ => True) s := by
  refine safeE_bind ((safeE_truncate_index hx).mono fun r s₁ hr => ?_)
  refine safeE_bind (safeE_unwrap fun _ hok s₂ hs hi => ?_)
  obtain ⟨hx₁, hhead⟩ := hr hok
  have hhead₂ := Nat.le_trans hhead hs.index_head
  refine safeE_bind ((safeE_truncate_data (hx₁.rely hs hi) hhead₂).mono fun r s₃ _ => ?_)
  exact safeE_unwrap fun _ _ _ _ _ => trivial

theorem safeE_truncateIfFound {search : StreamM (IndexRecord × Nat)}
    (h : SafeE (arena base) search (fun x s' => Found base s' x) s) :
    SafeE (arena base) (truncateIfFound search) (fun _ _ => True) s := by
  refine safeE_bind ((safeE_attempt h fun x _ _ hx hs hi => hx.rely hs hi).mono
    fun r s₁ hr => ?_)
  cases r with
  | ok x => exact safeE_truncateAt (hr x rfl)
  | error e => exact safeE_pure fun _ _ _ => trivial

/-- One pass, under any policy. -/
theorem safeE_pass {checks : Bool} {now : PravegaTimestamp}
    {limits : Option Int × Option Nat} :
    SafeE (arena base) (pass checks now limits) (fun _ _ => True) s := by
  obtain ⟨seconds, bytes⟩ := limits
  have hdays : SafeE (arena base) (passDays checks now seconds) (fun _ _ => True) s := by
    cases seconds with
    | none => exact safeE_pure fun _ _ _ => trivial
    | some sec =>
        refine safeE_bind (safeE_checked fun period _ s₁ _ _ => ?_)
        refine safeE_bind (safeE_checked fun t _ s₂ _ _ => ?_)
        exact safeE_truncateIfFound safeE_searchTimestamp
  refine safeE_bind (hdays.mono fun _ s₁ _ => ?_)
  cases bytes with
  | none => exact safeE_pure fun _ _ _ => trivial
  | some bytes => exact safeE_truncateIfFound safeE_searchSize

/-- The whole thread. The induction is on the times it wakes up. -/
theorem safeE_run {checks : Bool} {limits : Option Int × Option Nat}
    (times : List PravegaTimestamp) :
    ∀ s : Store, SafeE (arena base) (RetentionMaintainer.run checks limits times)
      (fun _ _ => True) s := by
  induction times with
  | nil => exact fun s => safeE_pure fun _ _ _ => trivial
  | cons now rest ih =>
      intro s
      rw [RetentionMaintainer.run]
      split
      · exact safeE_pure fun _ _ _ => trivial
      · exact safeE_bind (safeE_pass.mono fun _ s₁ _ => ih s₁)

theorem safeE_truncateStream {checks : Bool} {t : PravegaTimestamp} :
    SafeE (arena base) (truncateStream checks t) (fun _ _ => True) s := by
  refine safeE_bind ((safeE_attempt safeE_searchTimestamp
    fun x _ _ hx hs hi => hx.rely hs hi).mono fun r s₁ hr => ?_)
  refine safeE_bind (safeE_unwrap fun x hok s₂ hs hi => ?_)
  exact safeE_truncateAt ((hr x hok).rely hs hi)

/-- The programs that truncate: a retention maintainer with any policy, waking
up at any times, and truncate-stream for any time. -/
inductive Truncator : Program StreamCmd StreamCmd.Res (Except Fault Unit) → Prop where
  | maintainer (checks : Bool) (limits : Option Int × Option Nat)
      (times : List PravegaTimestamp) :
      Truncator (RetentionMaintainer.run checks limits times).run
  | tool (checks : Bool) (t : PravegaTimestamp) : Truncator (truncateStream checks t).run

theorem safe_truncator {p : Program StreamCmd StreamCmd.Res (Except Fault Unit)}
    (hp : Truncator p) : Program.Safe (arena base) p (fun _ _ => True) s := by
  cases hp with
  | maintainer checks limits times =>
      exact Safe.mono (safeE_run times s) fun _ _ _ => trivial
  | tool checks t => exact Safe.mono safeE_truncateStream fun _ _ _ => trivial

/-- The sink keeps to what the truncators rely on. -/
theorem consistent_append {s' : Store} (hi : Consistent base s) (h : Append s s') :
    Grows s s' ∧ Consistent base s' := by
  obtain ⟨recs, hrecs⟩ := hi
  cases h with
  | @data st bytes hhead hbytes =>
      refine ⟨⟨List.prefix_rfl, Nat.le_refl _, Nat.le_of_eq hhead.symm, id⟩, recs,
        hrecs.base_aligned, hrecs.head_aligned, hrecs.base_le, hrecs.head_le,
        hrecs.bytes, hrecs.sorted, hrecs.within, ?_, ?_, ?_⟩
      · show st.head ≤ s.indexed
        rw [hhead]
        exact hrecs.ahead
      · show s.indexed ≤ st.tail
        refine Nat.le_trans hrecs.behind ?_
        rw [ByteStream.tail, ByteStream.tail, hbytes, List.length_append]
        omega
      · intro i r hr hi
        show st.head ≤ r.offset
        rw [hhead]
        exact hrecs.readable i r hr hi
  | @index st r hhead hbytes hle hbehind =>
      have htail : s.index.tail ≤ st.tail := by
        rw [ByteStream.tail, ByteStream.tail, hbytes, List.length_append]
        omega
      have hheadle := hrecs.head_le
      have hbase := hrecs.base_le
      refine ⟨⟨⟨r.frame, hbytes.symm⟩, Nat.le_of_eq hhead.symm, Nat.le_refl _,
        fun hn => ?_⟩, recs ++ [r], hrecs.base_aligned, ?_, ?_, ?_, ?_, ?_, ?_,
        Nat.le_trans hrecs.ahead hle, hbehind, ?_⟩
      · show st.head < st.tail
        rw [hhead]
        omega
      · show IndexRecord.recordSize ∣ st.head
        rw [hhead]
        exact hrecs.head_aligned
      · show base ≤ st.head
        rw [hhead]
        exact hbase
      · show st.head ≤ st.tail
        rw [hhead]
        omega
      · show st.bytes.drop base = _
        rw [hbytes, List.drop_append_of_le_length (by rw [← ByteStream.tail]; omega),
          hrecs.bytes, List.flatMap_append, List.flatMap_singleton]
      · rw [List.pairwise_append]
        refine ⟨hrecs.sorted, List.pairwise_singleton _ _, fun a ha b hb => ?_⟩
        rw [List.mem_singleton.mp hb]
        exact Nat.le_trans (hrecs.within a ha) hle
      · intro a ha
        rcases List.mem_append.mp ha with ha | ha
        · exact Nat.le_trans (hrecs.within a ha) hle
        · rw [List.mem_singleton.mp ha]
      · intro i a ha hi
        have hi : s.index.head ≤ base + IndexRecord.recordSize * i := by
          rw [← hhead]
          exact hi
        rcases List.mem_append.mp (List.mem_of_getElem? ha) with hm | hm
        · rw [List.getElem?_append] at ha
          split at ha
          · exact hrecs.readable i a ha hi
          · have := hrecs.ahead
            rw [List.mem_singleton.mp (List.mem_of_getElem? ha)]
            exact Nat.le_trans this hle
        · rw [List.mem_singleton.mp hm]
          exact Nat.le_trans hrecs.ahead hle

/-! ## Any interleaving -/

/-- A store as a truncator should find it: `recs` are the records of the index,
in the order of their offsets, and the data can be read from each of them. -/
structure Sound (s : Store) (recs : List Record) : Prop where
  index : Holds s.index recs
  sorted : recs.Pairwise fun a b => a.offset ≤ b.offset
  within : ∀ r ∈ recs, r.offset ≤ s.indexed
  ahead : s.data.head ≤ s.indexed
  behind : s.indexed ≤ s.data.tail
  readable : ∀ r ∈ recs, s.data.head ≤ r.offset

theorem Sound.indexes {recs : List Record} (h : Sound s recs) :
    Indexes s.index.head s recs where
  base_aligned := h.index.aligned
  head_aligned := h.index.aligned
  base_le := Nat.le_refl _
  head_le := h.index.head_le
  bytes := h.index.bytes
  sorted := h.sorted
  within := h.within
  ahead := h.ahead
  behind := h.behind
  readable := fun _ r hr _ => h.readable r (List.mem_of_getElem? hr)

/-- The records still in the index are those that have not been truncated. -/
theorem Indexes.sound {recs : List Record} (h : Indexes base s recs) :
    ∃ recs', Sound s recs' := by
  obtain ⟨k, hk⟩ := h.head_aligned
  obtain ⟨b, hb⟩ := h.base_aligned
  have hbase := h.base_le
  have hoff : s.index.head = base + IndexRecord.recordSize * (k - b) := by
    rw [IndexRecord.recordSize] at hk hb ⊢
    omega
  have hmem : ∀ r ∈ recs.drop (k - b), r ∈ recs := fun r hr => List.mem_of_mem_drop hr
  refine ⟨recs.drop (k - b), ⟨h.head_aligned, h.head_le, ?_⟩,
    h.sorted.sublist (List.drop_sublist _ _), fun r hr => h.within r (hmem r hr),
    h.ahead, h.behind, fun r hr => ?_⟩
  · rw [hoff, ← List.drop_drop, h.bytes, drop_flatMap_of_length Record.length_frame]
  · obtain ⟨i, hi⟩ := List.getElem?_of_mem hr
    rw [List.getElem?_drop] at hi
    refine h.readable (k - b + i) r hi ?_
    rw [hoff, Nat.mul_add]
    omega

/-- From a sound store, whatever the sink and the truncators do and whenever
any of them stops: the data can be read from every record left in the index,
and an index with a record never loses its last one. -/
theorem truncation_keeps_index_readable {s₀ : Store} {recs₀ : List Record}
    (h₀ : Sound s₀ recs₀)
    {x : Store × List (Program StreamCmd StreamCmd.Res (Except Fault Unit))}
    (hx : Pool.Reaches Exec Truncator Append (s₀, []) x) :
    (∃ recs, Holds x.1.index recs ∧ ∀ r ∈ recs, x.1.data.head ≤ r.offset) ∧
      ∀ y, Pool.Reaches Exec Truncator Append x y →
        x.1.index.head < x.1.index.tail → y.1.index.head < y.1.index.tail := by
  have hentry : ∀ p, Truncator p → ∀ s, Consistent s₀.index.head s →
      Program.Safe (arena s₀.index.head) p (fun _ _ => True) s :=
    fun p hp s _ => safe_truncator hp
  have henv : ∀ s s', Consistent s₀.index.head s → Append s s' →
      Grows s s' ∧ Consistent s₀.index.head s' :=
    fun s s' hi h => consistent_append hi h
  have hguar : ∀ (c : StreamCmd) (s : Store) (r : c.Res) (s' : Store),
      (arena s₀.index.head).guar c s r s' → (arena s₀.index.head).rely s s' :=
    fun _ _ _ _ h => h
  have hgood₀ : Pool.Good (arena s₀.index.head) (s₀,
      ([] : List (Program StreamCmd StreamCmd.Res (Except Fault Unit)))) :=
    ⟨⟨recs₀, h₀.indexes⟩, fun p hp => nomatch hp⟩
  obtain ⟨hgood, _⟩ := hgood₀.reaches hentry henv hguar hx
  refine ⟨?_, fun y hxy hn => ?_⟩
  · obtain ⟨recs, hrecs⟩ := hgood.1
    obtain ⟨recs', hsound⟩ := hrecs.sound
    exact ⟨recs', hsound.index, hsound.readable⟩
  · exact (hgood.reaches hentry henv hguar hxy).2.nonempty hn

theorem truncation_keeps_index_readable_young :
    let s : Store := ⟨youngStreams, 21⟩
    (∃ recs, Holds s.index recs ∧ ∀ r ∈ recs, s.data.head ≤ r.offset) ∧
      ∀ y, Pool.Reaches Exec Truncator Append
          (s, [(truncateStream true ⟨some 1500⟩).run]) y →
        s.index.head < s.index.tail → y.1.index.head < y.1.index.tail := by
  have h₀ : Sound ⟨youngStreams, 21⟩ youngRecords :=
    ⟨young_partitions.index, by decide, by decide, by decide, by decide, by decide⟩
  exact truncation_keeps_index_readable h₀
    (.step .refl (.spawn (.tool true ⟨some 1500⟩)))

end Store

end GstPravega.Plugin
