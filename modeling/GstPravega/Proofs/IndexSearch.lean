import GstPravega.Video.Index

/-!
# The search by timestamp

On a stream left alone the loop over byte offsets is the bisection over record
numbers: with the head a multiple of twenty, halving the sum of two record
offsets and rounding down to a record is halving the sum of their numbers. The
bracket of the bisection then says which record comes back, sorted index or
not, and the bounds on its window are the bounds on what is read.
-/

namespace GstPravega.Video

open GstPravega.Lib GstPravega.Client Program IndexSearcher

/-- What a search may do to its stream: ask for its ends and read whole records
that are there. -/
def ReadsRecords (reader : Stream) (head tail : Nat) : StreamCmd → Streams → Prop
  | .currentHead s, _ => s = reader
  | .seekEnd s, _ => s = reader
  | .read s offset n, _ => s = reader ∧ n = IndexRecord.recordSize ∧
      IndexRecord.recordSize ∣ offset ∧ head ≤ offset ∧
      offset + IndexRecord.recordSize ≤ tail
  | .truncateDataBefore .., _ => False

/-- Where a bisection that ends between two records leads. -/
def SearchMethod.pick (method : SearchMethod) : Bisection → Nat
  | .hit i => i
  | .gap i => match method with
      | .before => i - 1
      | .after => i

/-- The timestamp of the `i`-th record. -/
def timeAt (recs : List Record) (i : Nat) : PravegaTimestamp :=
  match recs[i]? with
  | some r => r.timestamp
  | none => PravegaTimestamp.none

/-- The record a search for `t` is to return, by its number: clamped at both
ends, else an exact match or the neighbour on the side of the method. -/
structure Located (recs : List Record) (t : PravegaTimestamp)
    (method : SearchMethod) (i : Nat) : Prop where
  lt_length : i < recs.length
  above : timeAt recs (recs.length - 1) ≤ t → i = recs.length - 1
  below : t < timeAt recs (recs.length - 1) → t ≤ timeAt recs 0 → i = 0
  between : timeAt recs 0 < t → t < timeAt recs (recs.length - 1) →
    timeAt recs i = t ∨
      (method = .before ∧ i + 1 < recs.length ∧ timeAt recs i < t ∧
        t < timeAt recs (i + 1)) ∨
      (method = .after ∧ 0 < i ∧ timeAt recs (i - 1) < t ∧ t < timeAt recs i)

theorem timeAt_of_getElem? {recs : List Record} {i : Nat} {r : Record}
    (h : recs[i]? = some r) : timeAt recs i = r.timestamp := by
  rw [timeAt, h]

theorem timeAt_append {recs more : List Record} {i : Nat} (hi : i < recs.length) :
    timeAt (recs ++ more) i = timeAt recs i := by
  rw [timeAt, timeAt, List.getElem?_append_left hi]

/-! ## On an increasing index -/

/-- Strictly increasing timestamps. -/
def Increasing (recs : List Record) : Prop :=
  recs.Pairwise fun a b => a.timestamp < b.timestamp

theorem Increasing.lt {recs : List Record} (h : Increasing recs) {i j : Nat}
    (hij : i < j) (hj : j < recs.length) : timeAt recs i < timeAt recs j := by
  have hi := Nat.lt_trans hij hj
  rw [timeAt_of_getElem? (List.getElem?_eq_getElem hi),
    timeAt_of_getElem? (List.getElem?_eq_getElem hj)]
  exact List.pairwise_iff_getElem.mp h i j hi hj hij

theorem Increasing.le {recs : List Record} (h : Increasing recs) {i j : Nat}
    (hij : i ≤ j) (hj : j < recs.length) : timeAt recs i ≤ timeAt recs j := by
  rcases Nat.lt_or_eq_of_le hij with hlt | rfl
  · exact le_of_lt (h.lt hlt hj)
  · exact le_refl _

theorem Increasing.le_iff {recs : List Record} (h : Increasing recs) {i j : Nat}
    (hi : i < recs.length) (hj : j < recs.length) :
    timeAt recs i ≤ timeAt recs j ↔ i ≤ j := by
  refine ⟨fun hle => ?_, fun hle => h.le hle hj⟩
  by_contra hlt
  exact absurd hle (not_le.mpr (h.lt (Nat.lt_of_not_le hlt) hi))

theorem Increasing.of_append {recs more : List Record} (h : Increasing (recs ++ more)) :
    Increasing recs := (List.pairwise_append.mp h).1

/-- `Before` is the last record not after `t`, or the first record. -/
theorem Located.before {recs : List Record} (h : Increasing recs)
    {t : PravegaTimestamp} {i : Nat} (hl : Located recs t .before i) :
    (t < timeAt recs 0 → i = 0) ∧
      (timeAt recs 0 ≤ t → timeAt recs i ≤ t ∧
        ∀ j < recs.length, timeAt recs j ≤ t → j ≤ i) := by
  have hpos := Nat.zero_lt_of_lt hl.lt_length
  have hlastlt : recs.length - 1 < recs.length := by omega
  constructor
  · intro hlt
    have hle := h.le (Nat.zero_le (recs.length - 1)) hlastlt
    exact hl.below (lt_of_lt_of_le hlt hle) (le_of_lt hlt)
  · intro hle
    by_cases habove : timeAt recs (recs.length - 1) ≤ t
    · rw [hl.above habove]
      exact ⟨habove, fun j hj _ => by omega⟩
    have habove := not_le.mp habove
    rcases le_iff_lt_or_eq.mp hle with hlt | heq
    · rcases hl.between hlt habove with heq | ⟨_, hi, h1, h2⟩ | ⟨hm, _⟩
      · refine ⟨le_of_eq heq, fun j hj hjt => ?_⟩
        rw [← heq, h.le_iff hj hl.lt_length] at hjt
        exact hjt
      · refine ⟨le_of_lt h1, fun j hj hjt => ?_⟩
        by_contra hlt
        have := h.le (show i + 1 ≤ j by omega) hj
        exact absurd hjt (not_le.mpr (lt_of_lt_of_le h2 this))
      · cases hm
    · rw [hl.below habove (le_of_eq heq.symm)]
      refine ⟨hle, fun j hj hjt => ?_⟩
      rw [← heq, h.le_iff hj hpos] at hjt
      exact hjt

/-- `After` is the first record not before `t`, or the last record. -/
theorem Located.after {recs : List Record} (h : Increasing recs)
    {t : PravegaTimestamp} {i : Nat} (hl : Located recs t .after i) :
    (timeAt recs (recs.length - 1) < t → i = recs.length - 1) ∧
      (t ≤ timeAt recs (recs.length - 1) → t ≤ timeAt recs i ∧
        ∀ j < recs.length, t ≤ timeAt recs j → i ≤ j) := by
  have hpos := Nat.zero_lt_of_lt hl.lt_length
  have hlastlt : recs.length - 1 < recs.length := by omega
  refine ⟨fun hlt => hl.above (le_of_lt hlt), fun hle => ?_⟩
  rcases le_iff_lt_or_eq.mp hle with hlt | heq
  · by_cases hbelow : t ≤ timeAt recs 0
    · rw [hl.below hlt hbelow]
      exact ⟨hbelow, fun j _ _ => Nat.zero_le j⟩
    rcases hl.between (not_le.mp hbelow) hlt with heq | ⟨hm, _⟩ | ⟨_, hi, h1, h2⟩
    · refine ⟨le_of_eq heq.symm, fun j hj hjt => ?_⟩
      rw [← heq, h.le_iff hl.lt_length hj] at hjt
      exact hjt
    · cases hm
    · refine ⟨le_of_lt h2, fun j hj hjt => ?_⟩
      by_contra hlt
      have hilt := hl.lt_length
      have := h.le (show j ≤ i - 1 by omega) (by omega)
      exact absurd hjt (not_le.mpr (lt_of_le_of_lt this h1))
  · rw [hl.above (le_of_eq heq.symm)]
    refine ⟨hle, fun j hj hjt => ?_⟩
    rw [heq, h.le_iff hlastlt hj] at hjt
    exact hjt

/-! ## An index over its data

Nothing is said of how the offsets are arranged. An event behind one record
and before another is between two neighbours somewhere on the way, which is
all that is needed. -/

/-- Offsets on the two sides of `o` have neighbours on the two sides of `o`. -/
theorem exists_crossing {f : Nat → Nat} {o i j : Nat} (hij : i ≤ j) (hi : f i ≤ o)
    (hj : o < f j) : ∃ k, i ≤ k ∧ k < j ∧ f k ≤ o ∧ o < f (k + 1) := by
  induction hij with
  | refl => omega
  | @step j hij ih =>
      by_cases h : f j ≤ o
      · exact ⟨j, hij, Nat.lt_succ_self j, h, hj⟩
      · obtain ⟨k, hik, hkj, hle, hlt⟩ := ih (Nat.lt_of_not_le h)
        exact ⟨k, hik, Nat.lt_succ_of_lt hkj, hle, hlt⟩

/-- The event `e` is stored at `o`, at or behind the head. -/
def StoredAt (st : ByteStream) (evs : List Event) (o : Nat) (e : Event) : Prop :=
  (o, e) ∈ layout Event.frame 0 evs ∧ st.head ≤ o

/-- The index of `w` partitions its data by time: the events from one record up
to the next have timestamps from the one's up to the next's. -/
structure Partitions (w : Streams) (recs : List Record) (evs : List Event) : Prop where
  index : Holds w.index recs
  data : w.data.bytes = evs.flatMap Event.frame
  increasing : Increasing recs
  bounded : ∀ r ∈ recs, r.offset ≤ w.data.tail
  between : ∀ (i : Nat) (a b : Record), recs[i]? = some a → recs[i + 1]? = some b →
    ∀ o e, StoredAt w.data evs o e → a.offset ≤ o → o < b.offset →
      a.timestamp ≤ e.header.timestamp ∧ e.header.timestamp < b.timestamp

/-- The offset of the `i`-th record. -/
def offsetAt (recs : List Record) (i : Nat) : Nat :=
  match recs[i]? with
  | some r => r.offset
  | none => 0

theorem offsetAt_of_getElem? {recs : List Record} {i : Nat} {r : Record}
    (h : recs[i]? = some r) : offsetAt recs i = r.offset := by
  rw [offsetAt, h]

/-- `Partitions.between`, as it can be computed. -/
theorem between_of_layout {st : ByteStream} {recs : List Record} {evs : List Event}
    (h : ∀ x ∈ layout Event.frame 0 evs, ∀ i < recs.length - 1,
      offsetAt recs i ≤ x.1 → x.1 < offsetAt recs (i + 1) →
        timeAt recs i ≤ x.2.header.timestamp ∧
          x.2.header.timestamp < timeAt recs (i + 1)) :
    ∀ (i : Nat) (a b : Record), recs[i]? = some a → recs[i + 1]? = some b →
      ∀ o e, StoredAt st evs o e → a.offset ≤ o → o < b.offset →
        a.timestamp ≤ e.header.timestamp ∧ e.header.timestamp < b.timestamp := by
  intro i a b ha hb o e he hao hob
  obtain ⟨hi, _⟩ := List.getElem?_eq_some_iff.mp hb
  rw [← offsetAt_of_getElem? ha] at hao
  rw [← offsetAt_of_getElem? hb] at hob
  rw [← timeAt_of_getElem? ha, ← timeAt_of_getElem? hb]
  exact h _ he.1 i (by omega) hao hob

/-- An event behind the `i`-th record and before the `j`-th is timed by two
neighbours on the way. -/
theorem Partitions.timed {w : Streams} {recs : List Record} {evs : List Event}
    (h : Partitions w recs evs) {i j o : Nat} {e : Event} (hij : i ≤ j)
    (hj : j < recs.length) (he : StoredAt w.data evs o e) (hi : offsetAt recs i ≤ o)
    (ho : o < offsetAt recs j) :
    timeAt recs i ≤ e.header.timestamp ∧ e.header.timestamp < timeAt recs j := by
  obtain ⟨k, hik, hkj, hle, hlt⟩ := exists_crossing hij hi ho
  have ha := List.getElem?_eq_getElem (show k < recs.length by omega)
  have hb := List.getElem?_eq_getElem (show k + 1 < recs.length by omega)
  rw [offsetAt_of_getElem? ha] at hle
  rw [offsetAt_of_getElem? hb] at hlt
  obtain ⟨h1, h2⟩ := h.between k _ _ ha hb o e he hle hlt
  rw [← timeAt_of_getElem? ha] at h1
  rw [← timeAt_of_getElem? hb] at h2
  exact ⟨le_trans (h.increasing.le hik (by omega)) h1,
    lt_of_lt_of_le h2 (h.increasing.le hkj hj)⟩

/-! ## The search -/

section Search

variable {w : Streams} {reader : Stream} {recs : List Record}

/-- The byte offset of the `i`-th record. -/
def recordOffset (w : Streams) (reader : Stream) (i : Nat) : Nat :=
  (w.get reader).head + IndexRecord.recordSize * i

theorem recordOffset_succ {i : Nat} : recordOffset w reader (i + 1) =
    recordOffset w reader i + IndexRecord.recordSize := by
  simp only [recordOffset, Nat.mul_succ, Nat.add_assoc]

theorem recordOffset_lt {i j : Nat} :
    recordOffset w reader i < recordOffset w reader j ↔ i < j := by
  simp only [recordOffset, IndexRecord.recordSize]
  omega

theorem recordOffset_le (h : Holds (w.get reader) recs) {i : Nat}
    (hi : i < recs.length) :
    recordOffset w reader i + IndexRecord.recordSize ≤ (w.get reader).tail := by
  have hmul : IndexRecord.recordSize * (i + 1) ≤
      IndexRecord.recordSize * recs.length := Nat.mul_le_mul_left _ hi
  rw [Nat.mul_succ] at hmul
  rw [recordOffset, h.tail_eq]
  omega

theorem yields_readRecord (h : Holds (w.get reader) recs) {i : Nat} {r : Record}
    (hr : recs[i]? = some r) :
    Yields Streams.answer
      (ReadsRecords reader (w.get reader).head (w.get reader).tail)
      (readRecord reader (recordOffset w reader i)).run w (.ok r.toIndexRecord) w := by
  obtain ⟨hi, _⟩ := List.getElem?_eq_some_iff.mp hr
  have hG : ReadsRecords reader (w.get reader).head (w.get reader).tail
      (.read reader (recordOffset w reader i) IndexRecord.recordSize) w :=
    ⟨rfl, rfl, Nat.dvd_add h.aligned (Nat.dvd_mul_right _ _), Nat.le_add_right _ _,
      recordOffset_le h hi⟩
  refine Yields.bindE (StreamM.yields_read hG (h.read_record hr)) ?_
  show Yields _ _ (.ret (IndexRecordReader.decode r.frame)) w _ w
  rw [r.decode_frame]
  exact yields_ret

/-- Halving two record offsets finds the record halfway. -/
theorem middle_offset (h : Holds (w.get reader) recs) (lo hi : Nat) :
    (recordOffset w reader hi + recordOffset w reader lo) / 2 /
        IndexRecord.recordSize * IndexRecord.recordSize =
      recordOffset w reader ((hi + lo) / 2) := by
  obtain ⟨k, hk⟩ := h.aligned
  simp only [recordOffset, IndexRecord.recordSize] at hk ⊢
  omega

/-- Once the window has closed between two records, the method picks one. -/
theorem yields_finish (h : Holds (w.get reader) recs) {method : SearchMethod}
    {i : Nat} {r : Record} (hr : recs[method.pick (.gap i)]? = some r) :
    Yields Streams.answer
      (ReadsRecords reader (w.get reader).head (w.get reader).tail)
      (searchLoop.finish reader method (recordOffset w reader i)
        (recordOffset w reader (i - 1))).run w
      (.ok (r.toIndexRecord, recordOffset w reader (method.pick (.gap i)))) w := by
  cases method with
  | before => exact Yields.bindE (yields_readRecord h hr) (StreamM.yields_pure _)
  | after => exact Yields.bindE (yields_readRecord h hr) (StreamM.yields_pure _)

/-- The loop ends where the bisection does. The induction is on the fuel the
two share. -/
theorem yields_searchLoop (h : Holds (w.get reader) recs) {checks : Bool}
    {side : IndexRecord → Option Ordering} {order : Nat → Ordering}
    (hside : ∀ i r, recs[i]? = some r → side r.toIndexRecord = some (order i))
    {method : SearchMethod} {b : Bisection} {r : Record}
    (hr : recs[method.pick b]? = some r) :
    ∀ (fuel lo hi : Nat), lo ≤ hi → hi < recs.length →
      bisect order fuel lo hi = some b →
      Yields Streams.answer
        (ReadsRecords reader (w.get reader).head (w.get reader).tail)
        (searchLoop checks reader side method fuel (recordOffset w reader lo)
          (recordOffset w reader hi)).run w
        (.ok (r.toIndexRecord, recordOffset w reader (method.pick b))) w := by
  have htail := (w.get reader).tail_lt
  rw [← ByteStream.tail] at htail
  intro fuel
  induction fuel with
  | zero => intro lo hi _ _ hgo; cases hgo
  | succ fuel ih =>
      intro lo hi hle hhi hgo
      have hbnd := recordOffset_le h hhi
      have hbnd' := recordOffset_le h (Nat.lt_of_le_of_lt hle hhi)
      have hmid : lo ≤ (hi + lo) / 2 ∧ (hi + lo) / 2 ≤ hi := by omega
      have hoff := middle_offset h lo hi
      have hcases := bisect_cases hgo
      dsimp only at hcases
      generalize (hi + lo) / 2 = mid at hmid hcases hoff
      have hlt : mid < recs.length := by omega
      have hget := List.getElem?_eq_getElem hlt
      have hbndm := recordOffset_le h hlt
      refine Yields.bindE (StreamM.yields_checked (addU64_of_lt (by omega))) ?_
      dsimp only
      rw [hoff]
      refine Yields.bindE (yields_readRecord h hget) ?_
      refine Yields.bindE (StreamM.yields_checked (hside mid _ hget)) ?_
      rcases hcases with ⟨hv, rfl⟩ | ⟨hv, hgo⟩ | ⟨hv, hpos, hgo⟩
      · -- Found.
        rw [hv]
        obtain rfl := Option.some.inj (hget.symm.trans hr)
        exact StreamM.yields_pure _
      · -- On to the right.
        rw [hv]
        dsimp only
        refine Yields.bindE (StreamM.yields_checked (addU64_of_lt (by omega))) ?_
        rw [← recordOffset_succ]
        rcases hgo with ⟨hend, rfl⟩ | ⟨hend, hgo⟩
        · obtain rfl : hi = mid := by omega
          rw [if_pos (recordOffset_lt.mpr (Nat.lt_succ_self hi))]
          exact yields_finish h hr
        · rw [if_neg (mt recordOffset_lt.mp (Nat.not_lt.mpr hend))]
          exact ih (mid + 1) hi hend hhi hgo
      · -- On to the left.
        rw [hv]
        dsimp only
        obtain ⟨k, rfl⟩ : ∃ k, mid = k + 1 := ⟨mid - 1, by omega⟩
        rw [Nat.add_sub_cancel] at hgo
        have hsize : IndexRecord.recordSize ≤ recordOffset w reader (k + 1) := by
          rw [recordOffset_succ]
          exact Nat.le_add_left _ _
        refine Yields.bindE (StreamM.yields_checked (subU64_of_le hsize)) ?_
        rw [recordOffset_succ, Nat.add_sub_cancel]
        rcases hgo with ⟨hend, rfl⟩ | ⟨hend, hgo⟩
        · obtain rfl : lo = k + 1 := by omega
          rw [if_pos (recordOffset_lt.mpr (Nat.lt_succ_self k))]
          exact yields_finish h hr
        · rw [if_neg (mt recordOffset_lt.mp (Nat.not_lt.mpr hend))]
          exact ih lo k hend (by omega) hgo

/-- The judgment of the `i`-th record. -/
def orderAt (recs : List Record) (t : PravegaTimestamp) (i : Nat) : Ordering :=
  if t < timeAt recs i then .gt
  else if t > timeAt recs i then .lt
  else .eq

theorem orderAt_gt {t : PravegaTimestamp} {i : Nat} :
    orderAt recs t i = .gt ↔ t < timeAt recs i := by
  rw [orderAt]
  split
  · next h => exact ⟨fun _ => h, fun _ => rfl⟩
  · next h =>
      split
      · exact ⟨fun hc => (nomatch hc), fun hc => absurd hc h⟩
      · exact ⟨fun hc => (nomatch hc), fun hc => absurd hc h⟩

theorem orderAt_lt {t : PravegaTimestamp} {i : Nat} :
    orderAt recs t i = .lt ↔ timeAt recs i < t := by
  rw [orderAt]
  split
  · next h => exact ⟨fun hc => (nomatch hc), fun hc => absurd hc (lt_asymm h)⟩
  · split
    · next h => exact ⟨fun _ => h, fun _ => rfl⟩
    · next h => exact ⟨fun hc => (nomatch hc), fun hc => absurd hc h⟩

theorem orderAt_eq {t : PravegaTimestamp} {i : Nat}
    (h : orderAt recs t i = .eq) : timeAt recs i = t := by
  rcases lt_trichotomy t (timeAt recs i) with hc | hc | hc
  · rw [orderAt_gt.mpr hc] at h
    cases h
  · exact hc.symm
  · rw [orderAt_lt.mpr hc] at h
    cases h

/-- What the bracket of the bisection says of the record picked. -/
theorem located_of_brackets {t : PravegaTimestamp} {method : SearchMethod}
    {b : Bisection} (hfirst : timeAt recs 0 < t)
    (hlast : t < timeAt recs (recs.length - 1)) (hpos : 0 < recs.length)
    (hb : b.Brackets (orderAt recs t) 0 (recs.length - 1)) :
    Located recs t method (method.pick b) := by
  have habove : ∀ i, timeAt recs (recs.length - 1) ≤ t → i = recs.length - 1 :=
    fun i hle => absurd hlast (not_lt.mpr hle)
  have hbelow : ∀ i, t < timeAt recs (recs.length - 1) → t ≤ timeAt recs 0 → i = 0 :=
    fun i _ hle => absurd hfirst (not_lt.mpr hle)
  cases b with
  | hit i =>
      obtain ⟨_, hi, heq⟩ := hb
      have hlt : i < recs.length := by omega
      exact ⟨hlt, habove _, hbelow _, fun _ _ => Or.inl (orderAt_eq heq)⟩
  | gap i =>
      obtain ⟨h0, hi, hl, hg⟩ := hb
      have hl := orderAt_lt.mp hl
      have hg := orderAt_gt.mp hg
      cases method with
      | before =>
          have hlt : i - 1 < recs.length := by omega
          refine ⟨hlt, habove _, hbelow _, fun _ _ => Or.inr (Or.inl ⟨rfl, ?_, hl, ?_⟩)⟩
          · show i - 1 + 1 < recs.length
            omega
          · show t < timeAt recs (i - 1 + 1)
            rw [Nat.sub_add_cancel h0]
            exact hg
      | after =>
          have hlt : i < recs.length := by omega
          exact ⟨hlt, habove _, hbelow _, fun _ _ => Or.inr (Or.inr ⟨rfl, h0, hl, hg⟩)⟩

/-- Both searches begin with the record at the tail. -/
def searchStart (checks : Bool) (reader : Stream) {α : Type}
    (k : Nat → Nat → Nat → IndexRecord → StreamM α) : StreamM α := do
  let firstIndexOffset ← StreamM.currentHead reader
  let tailOffset ← StreamM.seekEnd reader
  let least ← StreamM.checked
    (addU64 checks firstIndexOffset IndexRecord.recordSize)
  if tailOffset < least then throw noRecords
  else
    let lastIndexOffset ←
      StreamM.checked (subU64 checks tailOffset IndexRecord.recordSize)
    let lastIndexRecord ← readRecord reader lastIndexOffset
    k firstIndexOffset tailOffset lastIndexOffset lastIndexRecord

theorem yields_searchStart (h : Holds (w.get reader) recs) {checks : Bool} {last : Record}
    (hlast : recs[recs.length - 1]? = some last) {α : Type}
    {k : Nat → Nat → Nat → IndexRecord → StreamM α} {a : α} {w' : Streams}
    (hgo : Yields Streams.answer
      (ReadsRecords reader (w.get reader).head (w.get reader).tail)
      (k (recordOffset w reader 0) (w.get reader).tail
        (recordOffset w reader (recs.length - 1)) last.toIndexRecord).run w (.ok a) w') :
    Yields Streams.answer
      (ReadsRecords reader (w.get reader).head (w.get reader).tail)
      (searchStart checks reader k).run w (.ok a) w' := by
  obtain ⟨hlt, _⟩ := List.getElem?_eq_some_iff.mp hlast
  have htail := (w.get reader).tail_lt
  rw [← ByteStream.tail] at htail
  have hbnd := recordOffset_le h (show 0 < recs.length by omega)
  have hlastoff : (w.get reader).tail - IndexRecord.recordSize =
      recordOffset w reader (recs.length - 1) := by
    rw [h.tail_eq, recordOffset, IndexRecord.recordSize]
    omega
  have hfirstoff : (w.get reader).head = recordOffset w reader 0 := by
    rw [recordOffset, Nat.mul_zero, Nat.add_zero]
  refine Yields.bindE (StreamM.yields_currentHead rfl) ?_
  refine Yields.bindE (StreamM.yields_seekEnd rfl) ?_
  refine Yields.bindE (StreamM.yields_checked (addU64_of_lt ?_)) ?_
  · rw [← hfirstoff] at hbnd
    rw [IndexRecord.recordSize] at hbnd ⊢
    omega
  rw [if_neg (by rw [hfirstoff]; omega)]
  refine Yields.bindE (StreamM.yields_checked (subU64_of_le (by omega))) ?_
  rw [hlastoff, hfirstoff]
  exact Yields.bindE (yields_readRecord h hlast) hgo

/-- The number of the record a search lands on. -/
def landing (recs : List Record) (t : PravegaTimestamp) (method : SearchMethod)
    (fuel : Nat) : Option Nat :=
  if timeAt recs (recs.length - 1) ≤ t then some (recs.length - 1)
  else if t ≤ timeAt recs 0 then some 0
  else (bisect (orderAt recs t) fuel 0 (recs.length - 1)).map method.pick

/-- It lands where it is to, given enough fuel. -/
theorem exists_landing (hne : recs ≠ []) (t : PravegaTimestamp) (method : SearchMethod)
    {fuel : Nat} (hfuel : recs.length ≤ fuel) :
    ∃ i, landing recs t method fuel = some i ∧ Located recs t method i := by
  have hpos := List.length_pos_iff.mpr hne
  have hlastlt : recs.length - 1 < recs.length := by omega
  rw [landing]
  split
  · next habove =>
      refine ⟨_, rfl, hlastlt, fun _ => rfl, fun hlt => ?_, fun _ hlt => ?_⟩
      · exact absurd hlt (not_lt.mpr habove)
      · exact absurd hlt (not_lt.mpr habove)
  next habove =>
  split
  · next hbelow =>
      exact ⟨0, rfl, hpos, fun hle => absurd hle habove, fun _ _ => rfl,
        fun hlt _ => absurd hlt (not_lt.mpr hbelow)⟩
  next hbelow =>
  have hlt := not_le.mp habove
  have hgt := not_le.mp hbelow
  have hf : orderAt recs t 0 ≠ .gt := fun hc =>
    absurd (orderAt_gt.mp hc) (lt_asymm hgt)
  have hl : orderAt recs t (recs.length - 1) ≠ .lt := fun hc =>
    absurd (orderAt_lt.mp hc) (lt_asymm hlt)
  obtain ⟨b, hgo, hb⟩ := bisect_brackets (Nat.zero_le _) (by omega : _ < fuel) hf hl
  rw [hgo]
  exact ⟨method.pick b, rfl, located_of_brackets hgt hlt hpos hb⟩

theorem yields_landing (h : Holds (w.get reader) recs) (checks : Bool)
    {t : PravegaTimestamp} {method : SearchMethod} {i : Nat} {r : Record}
    (hi : landing recs t method (w.get reader).tail = some i) (hr : recs[i]? = some r) :
    Yields Streams.answer
      (ReadsRecords reader (w.get reader).head (w.get reader).tail)
      (searchTimestampAndReturnIndexOffset checks reader t method).run w
      (.ok (r.toIndexRecord, recordOffset w reader i)) w := by
  obtain ⟨hlt, _⟩ := List.getElem?_eq_some_iff.mp hr
  have hlastlt : recs.length - 1 < recs.length := by omega
  have hlast := List.getElem?_eq_getElem hlastlt
  have hfirst := List.getElem?_eq_getElem (show 0 < recs.length by omega)
  refine yields_searchStart h hlast ?_
  rw [landing, timeAt_of_getElem? hlast, timeAt_of_getElem? hfirst] at hi
  split at hi
  · next habove =>
      injection hi with hi
      subst hi
      obtain rfl := Option.some.inj (hr.symm.trans hlast)
      rw [if_pos habove]
      exact StreamM.yields_pure _
  next habove =>
  rw [if_neg habove]
  refine Yields.bindE (yields_readRecord h hfirst) ?_
  split at hi
  · next hbelow =>
      injection hi with hi
      subst hi
      obtain rfl := Option.some.inj (hr.symm.trans hfirst)
      rw [if_pos hbelow]
      exact StreamM.yields_pure _
  next hbelow =>
  rw [if_neg hbelow]
  obtain ⟨b, hb, rfl⟩ := Option.map_eq_some_iff.mp hi
  refine yields_searchLoop h ?_ hr _ 0 _ (Nat.zero_le _) hlastlt hb
  intro i r hi
  rw [timestampSide, orderAt, timeAt_of_getElem? hi]

theorem length_le_tail (h : Holds (w.get reader) recs) :
    recs.length ≤ (w.get reader).tail := by
  rw [h.tail_eq, IndexRecord.recordSize]
  omega

/-- The search, on a stream left alone that has a record. -/
theorem yields_searchTimestamp (h : Holds (w.get reader) recs) (checks : Bool)
    (hne : recs ≠ []) (t : PravegaTimestamp) (method : SearchMethod) :
    ∃ i r, recs[i]? = some r ∧ Located recs t method i ∧
      Yields Streams.answer
        (ReadsRecords reader (w.get reader).head (w.get reader).tail)
        (searchTimestampAndReturnIndexOffset checks reader t method).run w
        (.ok (r.toIndexRecord, recordOffset w reader i)) w := by
  obtain ⟨i, hi, hloc⟩ := exists_landing hne t method (length_le_tail h)
  have hr := List.getElem?_eq_getElem hloc.lt_length
  exact ⟨i, _, hr, hloc, yields_landing h checks hi hr⟩

/-- On an index with no record there is nothing to find. -/
theorem yields_searchStart_nil (h : Holds (w.get reader) []) {checks : Bool} {α : Type}
    {k : Nat → Nat → Nat → IndexRecord → StreamM α} :
    Yields Streams.answer
      (ReadsRecords reader (w.get reader).head (w.get reader).tail)
      (searchStart checks reader k).run w (.error noRecords) w := by
  have htail := (w.get reader).tail_lt
  have heq := h.tail_eq
  rw [List.length_nil, Nat.mul_zero, Nat.add_zero] at heq
  rw [← ByteStream.tail] at htail
  refine Yields.bindE (StreamM.yields_currentHead rfl) ?_
  refine Yields.bindE (StreamM.yields_seekEnd rfl) ?_
  refine Yields.bindE (StreamM.yields_checked (addU64_of_lt ?_)) ?_
  · rw [IndexRecord.recordSize]
    omega
  rw [if_pos (by rw [IndexRecord.recordSize]; omega)]
  exact StreamM.yields_throw _

theorem yields_searchTimestamp_nil (h : Holds (w.get reader) []) (checks : Bool)
    (t : PravegaTimestamp) (method : SearchMethod) :
    Yields Streams.answer
      (ReadsRecords reader (w.get reader).head (w.get reader).tail)
      (searchTimestampAndReturnIndexOffset checks reader t method).run w
      (.error noRecords) w :=
  yields_searchStart_nil h

end Search

/-! ## The search is correct -/

/-- Whatever the timestamps, the search ends, reads whole records of the index
only, and returns a record with its own byte offset: clamped at the two ends,
else an exact match or the neighbour on the side of the method. On an index
with strictly increasing timestamps that is the last record not after the
timestamp, or the first one not before it. In the build with overflow checks
an overflow would have been a panic. -/
theorem search_timestamp_correct (checks : Bool) (w : Streams) (reader : Stream)
    (recs : List Record) (t : PravegaTimestamp) (method : SearchMethod)
    (h : Holds (w.get reader) recs) :
    (recs = [] →
      Yields Streams.answer
        (ReadsRecords reader (w.get reader).head (w.get reader).tail)
        (searchTimestampAndReturnIndexOffset checks reader t method).run w
        (.error (.error ⟨.unexpectedEof, "Index has no records"⟩)) w) ∧
    (recs ≠ [] → ∃ i r, recs[i]? = some r ∧
      Yields Streams.answer
        (ReadsRecords reader (w.get reader).head (w.get reader).tail)
        (searchTimestampAndReturnIndexOffset checks reader t method).run w
        (.ok (r.toIndexRecord,
          (w.get reader).head + IndexRecord.recordSize * i)) w ∧
      (timeAt recs (recs.length - 1) ≤ t → i = recs.length - 1) ∧
      (t < timeAt recs (recs.length - 1) → t ≤ timeAt recs 0 → i = 0) ∧
      (timeAt recs 0 < t → t < timeAt recs (recs.length - 1) →
        timeAt recs i = t ∨
          (method = .before ∧ i + 1 < recs.length ∧ timeAt recs i < t ∧
            t < timeAt recs (i + 1)) ∨
          (method = .after ∧ 0 < i ∧ timeAt recs (i - 1) < t ∧
            t < timeAt recs i)) ∧
      (Increasing recs → method = .before →
        (t < timeAt recs 0 → i = 0) ∧
          (timeAt recs 0 ≤ t → timeAt recs i ≤ t ∧
            ∀ j < recs.length, timeAt recs j ≤ t → j ≤ i)) ∧
      (Increasing recs → method = .after →
        (timeAt recs (recs.length - 1) < t → i = recs.length - 1) ∧
          (t ≤ timeAt recs (recs.length - 1) → t ≤ timeAt recs i ∧
            ∀ j < recs.length, t ≤ timeAt recs j → i ≤ j))) := by
  constructor
  · rintro rfl
    exact yields_searchTimestamp_nil h checks t method
  · intro hne
    obtain ⟨i, r, hr, hloc, hrun⟩ := yields_searchTimestamp h checks hne t method
    refine ⟨i, r, hr, hrun, hloc.above, hloc.below, hloc.between, ?_, ?_⟩
    · rintro hinc rfl
      exact hloc.before hinc
    · rintro hinc rfl
      exact hloc.after hinc

/-- Three records, the first of which has been truncated away. -/
def searchExample : Streams :=
  ⟨⟨0, [], by decide⟩,
    ⟨20, IndexRecord.encode ⟨⟨some 1⟩, 0, true, true⟩ ++
      IndexRecord.encode ⟨⟨some 2⟩, 100, true, false⟩ ++
      IndexRecord.encode ⟨⟨none⟩, 200, true, false⟩, by decide⟩⟩

theorem search_timestamp_correct_example :
    ∃ i r, [(⟨⟨⟨some 2⟩, 100, true, false⟩, by decide, by decide⟩ : Record),
        ⟨⟨⟨none⟩, 200, true, false⟩, by decide, by decide⟩][i]? = some r ∧
      (run Streams.answer (searchTimestampAndReturnIndexOffset true .index
        ⟨some 2⟩ .before).run searchExample).1 =
        .ok (r.toIndexRecord, 20 + 20 * i) := by
  obtain ⟨i, r, hr, hrun, _⟩ := (search_timestamp_correct true searchExample .index
    [⟨⟨⟨some 2⟩, 100, true, false⟩, by decide, by decide⟩,
      ⟨⟨⟨none⟩, 200, true, false⟩, by decide, by decide⟩] ⟨some 2⟩ .before
    ⟨by decide, by decide, by decide⟩).2 (by decide)
  exact ⟨i, r, hr, congrArg Prod.fst hrun.1⟩

end GstPravega.Video
