import GstPravega.Proofs.LiveSearch
import GstPravega.Proofs.TimeWindow

/-!
# What retention keeps over whole runs

A sink records while any number of truncators run. Each has its limits: it looks for a time
not after some point, or leaves a number of bytes. What it finds was found at one moment of
its search (`Searcher.safe`), and there it was the first record of the index or lay beyond
its limits; that stays so, because the times of records do not change and the recording
only grows. The first record of the index is where it was in the beginning, or a truncator
has put it there. So what is in front of a record that is truncated at was recorded before
the limits, and an event within both limits can be read as long as it is within them.
-/

namespace GstPravega.Plugin.Store

open GstPravega.Lib GstPravega.Client GstPravega.Video Program IndexSearcher
  RetentionMaintainer

/-! ## Limits -/

/-- No truncator looks for a time behind `time`, and none leaves fewer than `bytes`. -/
structure Limits where
  time : UInt64
  bytes : Nat

/-- The truncators that keep to the limits. The period of a maintainer is not longer than
the time since the epoch. -/
inductive KeepsTo (l : Limits) : Program StreamCmd StreamCmd.Res (Except Fault Unit) → Prop where
  | maintainer (checks : Bool) (limits : Option Int × Option Nat)
      (times : List PravegaTimestamp)
      (hage : ∀ sec, limits.1 = some sec → 0 ≤ sec ∧ ∀ now ∈ times, ∃ n : UInt64,
        now = ⟨some n⟩ ∧ sec * 1000000000 ≤ n.toNat ∧ threshold n sec ≤ l.time.toNat)
      (hbytes : ∀ bytes, limits.2 = some bytes → l.bytes ≤ bytes) :
      KeepsTo l (RetentionMaintainer.run checks limits times).run
  | tool (checks : Bool) (t : PravegaTimestamp) (ht : t ≤ ⟨some l.time⟩) :
      KeepsTo l (truncateStream checks t).run

/-- The record is before the limits, at the latest by now. -/
def Beyond (l : Limits) (s : Store) (x : IndexRecord × Nat) : Prop :=
  x.1.timestamp ≤ ⟨some l.time⟩ ∨ x.1.offset + l.bytes ≤ s.indexed

/-- A record to truncate at. -/
def News (l : Limits) (base : Nat) (s : Store) (x : IndexRecord × Nat) : Prop :=
  Found base s x ∧ (x.2 = base ∨ Beyond l s x)

/-! ## The recording -/

/-- The events that can be read are older than the records behind them. -/
structure Timed (base : Nat) (s : Store) (recs : List Record) (evs : List Event) : Prop where
  indexes : Indexes base s recs
  data : s.data.bytes = evs.flatMap Event.frame
  older : ∀ r ∈ recs, ∀ o e, StoredAt s.data evs o e → offsetAt recs 0 ≤ o → o < r.offset →
    e.header.timestamp < r.timestamp

/-- A sink that keeps the index in the order of time. -/
def Records (base : Nat) (s s' : Store) : Prop :=
  Append s s' ∧ ∃ recs evs, Timed base s' recs evs

/-- What the truncators rely on. -/
structure Flows (s s' : Store) : Prop where
  grows : Grows s s'
  data_bytes : s.data.bytes <+: s'.data.bytes
  indexed : s.indexed ≤ s'.indexed

theorem Flows.refl (s : Store) : Flows s s := ⟨.refl s, List.prefix_rfl, Nat.le_refl _⟩

theorem Flows.trans (s t u : Store) (h : Flows s t) (h' : Flows t u) : Flows s u :=
  ⟨h.grows.trans _ _ _ h'.grows, h.data_bytes.trans h'.data_bytes,
    Nat.le_trans h.indexed h'.indexed⟩

/-- Within both limits. -/
def Recent (l : Limits) (s : Store) (o : Nat) (e : Event) : Prop :=
  ⟨some l.time⟩ ≤ e.header.timestamp ∧ s.indexed ≤ o + l.bytes

/-- What is recent can be read, and the first record is one to truncate at. -/
structure Keeps (l : Limits) (base : Nat) (s : Store) (recs : List Record)
    (evs : List Event) : Prop where
  timed : Timed base s recs evs
  first : s.index.head = base ∨ ∃ x, Found base s x ∧ x.2 = s.index.head ∧ Beyond l s x
  kept : recs ≠ [] → ∀ o e, (o, e) ∈ layout Event.frame 0 evs → offsetAt recs 0 ≤ o →
    Recent l s o e → s.data.head ≤ o

def Kept (l : Limits) (base : Nat) (s : Store) : Prop := ∃ recs evs, Keeps l base s recs evs

theorem Kept.consistent {l : Limits} {base : Nat} {s : Store} (h : Kept l base s) :
    Consistent base s := by
  obtain ⟨recs, _, h⟩ := h
  exact ⟨recs, h.timed.indexes⟩

/-- Where the truncators run. -/
def keeping (l : Limits) (base : Nat) : Arena Store StreamCmd StreamCmd.Res where
  exec := Exec
  rely := Flows
  inv := Kept l base
  guar _ s _ s' := Flows s s'
  rely_refl := Flows.refl
  rely_trans := Flows.trans

section Keeping

variable {l : Limits} {base : Nat} {s s' : Store} {recs : List Record}
  {evs : List Event} {x y : IndexRecord × Nat}

theorem Beyond.rely (h : Beyond l s x) (hs : Flows s s') : Beyond l s' x :=
  h.imp_right fun hle => Nat.le_trans hle hs.indexed

theorem News.rely (h : News l base s x) (hs : Flows s s') (hi : Kept l base s') :
    News l base s' x :=
  ⟨h.1.rely hs.grows hi.consistent, h.2.imp_right fun hx => hx.rely hs⟩

/-- The records and the events are settled by the bytes. -/
theorem Indexes.unique {recs' : List Record} (h : Indexes base s recs)
    (h' : Indexes base s recs') : recs = recs' :=
  flatMap_injective Record.frame_delimiting Record.frame_injective (h.bytes.symm.trans h'.bytes)

theorem Found.unique (hx : Found base s x) (hy : Found base s y) (h : x.2 = y.2) :
    x.1 = y.1 := by
  obtain ⟨recs, i, r, hrecs, hr, hrx, hxo⟩ := hx
  obtain ⟨recs', j, r', hrecs', hr', hry, hyo⟩ := hy
  obtain rfl := hrecs.unique hrecs'
  have hij : i = j := by
    rw [IndexRecord.recordSize] at hxo hyo
    omega
  rw [← hrx, ← hry, Option.some.inj (hr.symm.trans (hij ▸ hr'))]

/-- The records left in the index. -/
theorem Indexes.left (h : Indexes base s recs) :
    ∃ k, s.index.head = base + IndexRecord.recordSize * k ∧ Holds s.index (recs.drop k) := by
  obtain ⟨b, hb⟩ := h.base_aligned
  obtain ⟨k, hk⟩ := h.head_aligned
  have hbase := h.base_le
  have hhead : s.index.head = base + IndexRecord.recordSize * (k - b) := by
    rw [IndexRecord.recordSize] at hk hb ⊢
    omega
  refine ⟨k - b, hhead, h.head_aligned, h.head_le, ?_⟩
  rw [hhead, ← List.drop_drop, h.bytes, drop_flatMap_of_length Record.length_frame]

/-! ## What a search finds -/

theorem serves_keeping : Serves (keeping l base) Store.streams .index True where
  holds s hs := by
    obtain ⟨recs, hrecs⟩ := hs.consistent
    obtain ⟨k, -, hholds⟩ := hrecs.left
    exact ⟨_, hholds⟩
  grows s s' _ hflows _ := ⟨hflows.grows.index_prefix, hflows.grows.index_head⟩
  exec c s r s' hlooks _ hexec := by
    cases c with
    | currentHead stream =>
        obtain ⟨rfl, hr⟩ := hexec
        exact ⟨rfl, .refl _, hr.imp_right fun ⟨io, hr⟩ => ⟨trivial, io, io, hr, rfl⟩⟩
    | seekEnd stream =>
        obtain ⟨rfl, hr⟩ := hexec
        exact ⟨rfl, .refl _, hr.imp_right fun ⟨io, hr⟩ => ⟨trivial, io, io, hr, rfl⟩⟩
    | read stream o n =>
        obtain ⟨rfl, hr⟩ := hexec
        exact ⟨rfl, .refl _, hr.imp_right fun ⟨io, hr⟩ => ⟨trivial, io, io, hr, rfl⟩⟩
    | truncateDataBefore stream o => exact hlooks.elim

theorem Keeps.news (h : Keeps l base s recs evs) {k i : Nat} {r : Record}
    (hhead : s.index.head = base + IndexRecord.recordSize * k) (hr : (recs.drop k)[i]? = some r)
    (hbeyond : i = 0 ∨ Beyond l s (r.toIndexRecord, recordOffset s.streams .index i)) :
    News l base s (r.toIndexRecord, recordOffset s.streams .index i) := by
  have hfound : Found base s (r.toIndexRecord, recordOffset s.streams .index i) := by
    refine ⟨recs, k + i, r, h.timed.indexes, ?_, rfl, ?_⟩
    · rw [← List.getElem?_drop, hr]
    · change s.index.head + IndexRecord.recordSize * i = _
      rw [hhead, Nat.mul_add, Nat.add_assoc]
  refine ⟨hfound, ?_⟩
  rcases hbeyond with rfl | hbeyond
  · have hplace : recordOffset s.streams .index 0 = s.index.head := Nat.add_zero _
    rw [hplace] at hfound ⊢
    rcases h.first with hbase | ⟨y, hy, hyo, hbeyond⟩
    · exact Or.inl hbase
    · right
      rw [Beyond, hfound.unique hy hyo.symm]
      exact hbeyond
  · exact Or.inr hbeyond

/-- The search lands on the first record, or not behind the time. -/
theorem located_early {recs : List Record} {t : PravegaTimestamp} {i : Nat}
    (h : Located recs t .before i) : i = 0 ∨ timeAt recs i ≤ t := by
  rcases le_or_gt (timeAt recs (recs.length - 1)) t with hlast | hlast
  · right
    rw [h.above hlast]
    exact hlast
  rcases le_or_gt t (timeAt recs 0) with hfirst | hfirst
  · exact Or.inl (h.below hlast hfirst)
  right
  rcases h.between hfirst hlast with heq | ⟨-, -, hlt, -⟩ | ⟨hmethod, -⟩
  · exact le_of_eq heq
  · exact le_of_lt hlt
  · cases hmethod

theorem Kept.news_time (h : Kept l base s) {checks : Bool} {t : PravegaTimestamp}
    (ht : t ≤ ⟨some l.time⟩) (hrun : run Streams.answer
      (searchTimestampAndReturnIndexOffset checks .index t .before).run s.streams =
        (.ok x, s.streams)) : News l base s x := by
  obtain ⟨recs, evs, h⟩ := h
  obtain ⟨k, hhead, hholds⟩ := h.timed.indexes.left
  have hholds : Holds (s.streams.get .index) (recs.drop k) := hholds
  rcases eq_or_ne (recs.drop k) [] with hnil | hne
  · rw [hnil] at hholds
    cases (yields_searchTimestamp_nil hholds checks t .before).1.symm.trans hrun
  obtain ⟨i, r, hr, hlocated, halone⟩ :=
    yields_searchTimestamp hholds checks hne t .before
  cases halone.1.symm.trans hrun
  refine h.news hhead hr ((located_early hlocated).imp_right fun hle => Or.inl ?_)
  rw [timeAt_of_getElem? hr] at hle
  exact le_trans hle ht

theorem Kept.news_size (h : Kept l base s) {checks : Bool} {bytes : Nat}
    (hbytes : l.bytes ≤ bytes) (hrun : run Streams.answer
      (searchSizeAndReturnIndexOffset checks .index bytes .before).run s.streams =
        (.ok x, s.streams)) : News l base s x := by
  obtain ⟨recs, evs, h⟩ := h
  obtain ⟨k, hhead, hholds⟩ := h.timed.indexes.left
  have hholds : Holds (s.streams.get .index) (recs.drop k) := hholds
  have hsorted : Nondecreasing (recs.drop k) :=
    h.timed.indexes.sorted.sublist (List.drop_sublist k recs)
  rcases eq_or_ne (recs.drop k) [] with hnil | hne
  · rw [hnil] at hholds
    have hempty := (yields_searchStart_nil hholds).1.symm.trans hrun
    cases hempty
  obtain ⟨i, r, hr, hfound, halone⟩ := yields_searchSizeBy hholds hne hsorted .before
  cases halone.1.symm.trans hrun
  refine h.news hhead hr ?_
  rcases Nat.lt_or_ge bytes (distanceAt (recs.drop k) 0) with hfar | hnear
  · right
    right
    have hdistance : bytes ≤ distanceAt (recs.drop k) i := by
      rcases hfound.beyond hfar with heq | ⟨-, -, hlt, -⟩ | ⟨hmethod, -⟩
      · exact Nat.le_of_eq heq.symm
      · exact Nat.le_of_lt hlt
      · cases hmethod
    have hle := hsorted.le_last hfound.lt_length
    have hlast : lastOffset (recs.drop k) ≤ s.indexed := by
      have hpos := Nat.zero_lt_of_lt hfound.lt_length
      have hget := List.getElem?_eq_getElem
        (show (recs.drop k).length - 1 < (recs.drop k).length by omega)
      rw [lastOffset, offsetAt_of_getElem? hget]
      exact h.timed.indexes.within _ (List.mem_of_mem_drop (List.mem_of_getElem? hget))
    rw [distanceAt] at hdistance
    rw [offsetAt_of_getElem? hr] at hle hdistance
    change r.offset + l.bytes ≤ s.indexed
    omega
  · exact Or.inl (hfound.within hnear)

/-- What a search finds beside the others. -/
theorem safeE_news {p : StreamM (IndexRecord × Nat)} (hp : Searcher .index p)
    (hnews : ∀ m x, Kept l base m →
      run Streams.answer p.run m.streams = (.ok x, m.streams) → News l base m x) :
    SafeE (keeping l base) p (fun x s' => News l base s' x) s := by
  refine safe_of_forall_rely fun s _ hs => ?_
  have hsafe := hp.safe serves_keeping (fun m hm => ?_) hs
  · refine hsafe.and_inv.mono fun a s' h x hx => ?_
    obtain ⟨⟨m, -, hm, hms', hrun⟩ | ⟨e, he, -⟩, hs'⟩ := h
    · rw [hx] at hrun
      exact (hnews m x hm hrun).rely hms' hs'
    · rw [hx] at he
      cases he
  · obtain ⟨recs, evs, h⟩ := hm
    obtain ⟨k, -, hholds⟩ := h.timed.indexes.left
    exact ⟨_, hholds, h.timed.indexes.sorted.sublist (List.drop_sublist k recs)⟩

/-! ## What a truncation leaves -/

theorem Keeps.truncate_index (h : Keeps l base s recs evs) (hx : News l base s x) :
    let s' : Store := ⟨⟨s.data, s.index.truncateDataBefore (asI64 x.2)⟩, s.indexed⟩
    Keeps l base s' recs evs ∧ Flows s s' ∧ x.2 ≤ s'.index.head := by
  obtain ⟨hindexes, hgrows, hhead⟩ := indexes_truncate_index h.timed.indexes hx.1
  refine ⟨⟨⟨hindexes, h.timed.data, h.timed.older⟩, ?_, h.kept⟩,
    ⟨hgrows, List.prefix_rfl, Nat.le_refl _⟩, hhead⟩
  have htail := hx.1.le_tail
  have hlt := s.index.tail_lt
  rw [← ByteStream.tail] at hlt
  have hplace : (s.index.truncateDataBefore (asI64 x.2)).head = max s.index.head x.2 := by
    rw [ByteStream.truncateDataBefore_head, asI64_of_lt (by omega), Int.toNat_natCast]
  change (s.index.truncateDataBefore (asI64 x.2)).head = base ∨ ∃ y, Found base _ y ∧
    y.2 = (s.index.truncateDataBefore (asI64 x.2)).head ∧ Beyond l _ y
  rw [hplace]
  have hfound : ∀ y, Found base s y → Found base
      ⟨⟨s.data, s.index.truncateDataBefore (asI64 x.2)⟩, s.indexed⟩ y :=
    fun y hy => hy.rely hgrows ⟨recs, hindexes⟩
  rcases Nat.le_total s.index.head x.2 with hle | hle
  · rw [Nat.max_eq_right hle]
    exact hx.2.imp_right fun hbeyond => ⟨x, hfound x hx.1, rfl, hbeyond⟩
  · rw [Nat.max_eq_left hle]
    rcases h.first with hbase | ⟨y, hy, hyo, hbeyond⟩
    · exact Or.inl hbase
    · exact Or.inr ⟨y, hfound y hy, hyo, hbeyond⟩

/-- In front of a record to truncate at nothing is recent. -/
theorem Keeps.le_of_recent (h : Keeps l base s recs evs) (hx : News l base s x) {o : Nat}
    {e : Event} (he : StoredAt s.data evs o e) (hfirst : offsetAt recs 0 ≤ o)
    (hrecent : Recent l s o e) : x.1.offset ≤ o := by
  obtain ⟨⟨recs', i, r, hrecs, hr, hrx, hplace⟩, hbeyond⟩ := hx
  obtain rfl := h.timed.indexes.unique hrecs
  rw [← hrx]
  rcases hbeyond with hbase | htime | hbytes
  · obtain rfl : i = 0 := by
      rw [IndexRecord.recordSize] at hplace
      omega
    rw [offsetAt_of_getElem? hr] at hfirst
    exact hfirst
  · rw [← hrx] at htime
    by_contra hlt
    have holder := h.timed.older r (List.mem_of_getElem? hr) o e he hfirst (Nat.not_le.mp hlt)
    exact absurd (lt_of_lt_of_le holder (le_trans htime hrecent.1)) (lt_irrefl _)
  · rw [← hrx] at hbytes
    have := hrecent.2
    omega

theorem Keeps.truncate_data (h : Keeps l base s recs evs) (hx : News l base s x)
    (hhead : x.2 ≤ s.index.head) :
    let s' : Store := ⟨⟨s.data.truncateDataBefore (asI64 x.1.offset), s.index⟩, s.indexed⟩
    Keeps l base s' recs evs ∧ Flows s s' := by
  obtain ⟨hindexes, hgrows⟩ := indexes_truncate_data h.timed.indexes hx.1 hhead
  have hle : s.data.head ≤ (s.data.truncateDataBefore (asI64 x.1.offset)).head :=
    Nat.le_max_left _ _
  refine ⟨⟨⟨hindexes, h.timed.data, fun r hr o e he => ?_⟩, ?_, fun hne o e he hfirst hrecent => ?_⟩,
    ⟨hgrows, List.prefix_rfl, Nat.le_refl _⟩⟩
  · exact h.timed.older r hr o e ⟨he.1, Nat.le_trans hle he.2⟩
  · rcases h.first with hbase | ⟨y, hy, hyo, hbeyond⟩
    · exact Or.inl hbase
    · exact Or.inr ⟨y, hy.rely hgrows ⟨recs, hindexes⟩, hyo, hbeyond⟩
  · have hkept := h.kept hne o e he hfirst hrecent
    have hoffset := h.le_of_recent hx ⟨he, hkept⟩ hfirst hrecent
    have hbehind := h.timed.indexes.behind
    have hlt := s.data.tail_lt
    rw [← ByteStream.tail] at hlt
    obtain ⟨recs', i, r, hrecs, hr, hrx, -⟩ := hx.1
    have hwithin := hrecs.within r (List.mem_of_getElem? hr)
    rw [hrx] at hwithin
    change max s.data.head (asI64 x.1.offset).toNat ≤ o
    rw [asI64_of_lt (by omega), Int.toNat_natCast]
    exact Nat.max_le.mpr ⟨hkept, hoffset⟩

theorem safeE_keep_index (hx : News l base s x) :
    SafeE (keeping l base) (StreamM.truncateDataBefore .index (asI64 x.2))
      (fun r s' => News l base s' x ∧ (r = .ok () → x.2 ≤ s'.index.head)) s := by
  intro s₁ hs hi r s₂ hexec
  have hx₁ := hx.rely hs hi
  obtain ⟨recs, evs, h⟩ := hi
  obtain ⟨hkeeps, hflows, hhead⟩ := h.truncate_index hx₁
  rcases hexec with rfl | ⟨rfl, io, rfl⟩
  · refine ⟨⟨recs, evs, hkeeps⟩, hflows, fun s₃ hs₃ hi₃ r' _ => ?_⟩
    exact ⟨hx₁.rely (hflows.trans _ _ _ hs₃) hi₃,
      fun _ => Nat.le_trans hhead hs₃.grows.index_head⟩
  · refine ⟨⟨recs, evs, h⟩, .refl _, fun s₃ hs₃ hi₃ r' hr' => ?_⟩
    cases hr'
    exact ⟨hx₁.rely hs₃ hi₃, fun hok => nomatch hok⟩

theorem safeE_keep_data (hx : News l base s x) (hhead : x.2 ≤ s.index.head) :
    SafeE (keeping l base) (StreamM.truncateDataBefore .data (asI64 x.1.offset))
      (fun _ _ => True) s := by
  intro s₁ hs hi r s₂ hexec
  have hx₁ := hx.rely hs hi
  obtain ⟨recs, evs, h⟩ := hi
  obtain ⟨hkeeps, hflows⟩ := h.truncate_data hx₁ (Nat.le_trans hhead hs.grows.index_head)
  rcases hexec with rfl | ⟨rfl, io, rfl⟩
  · exact ⟨⟨recs, evs, hkeeps⟩, hflows, fun _ _ _ _ _ => trivial⟩
  · exact ⟨⟨recs, evs, h⟩, .refl _, fun _ _ _ _ _ => trivial⟩

theorem safeE_keep (hx : News l base s x) :
    SafeE (keeping l base) (truncateAt x) (fun _ _ => True) s := by
  refine safeE_bind ((safeE_keep_index hx).mono fun r s₁ hr => ?_)
  obtain ⟨hx₁, hok⟩ := hr
  refine safeE_bind (StreamM.safeE_unwrap fun u hu s₂ hs₂ hi₂ => ?_)
  have hhead := Nat.le_trans (hok hu) hs₂.grows.index_head
  refine safeE_bind ((safeE_keep_data (hx₁.rely hs₂ hi₂) hhead).mono fun r' s₃ _ => ?_)
  exact StreamM.safeE_unwrap fun _ _ _ _ _ => trivial

/-! ## The truncators -/

theorem safeE_keepIfFound {p : StreamM (IndexRecord × Nat)}
    (h : SafeE (keeping l base) p (fun x s' => News l base s' x) s) :
    SafeE (keeping l base) (truncateIfFound p) (fun _ _ => True) s := by
  refine safeE_bind ((StreamM.safeE_attempt h fun _ _ _ hx hs hi => hx.rely hs hi).mono
    fun r s₁ hr => ?_)
  cases r with
  | ok x => exact safeE_keep (hr x rfl)
  | error e => exact safeE_pure fun _ _ _ => trivial

theorem safeE_keepDays {checks : Bool} {sec : Int} {n : UInt64} (hsec : 0 ≤ sec)
    (hnow : sec * 1000000000 ≤ n.toNat) (htime : threshold n sec ≤ l.time.toNat) :
    SafeE (keeping l base) (passDays checks ⟨some n⟩ (some sec)) (fun _ _ => True) s := by
  refine safeE_bind (StreamM.safeE_checked fun period hperiod s₁ _ _ => ?_)
  refine safeE_bind (StreamM.safeE_checked fun t ht s₂ _ _ => ?_)
  have hn := n.toNat_lt
  have hpanics : ¬PeriodPanics checks sec := fun hpanics => by
    have := hpanics.2
    omega
  obtain ⟨period', hperiod', hsub⟩ := sub_period hsec hpanics
  obtain rfl := Option.some.inj (hperiod.symm.trans hperiod')
  obtain rfl := Option.some.inj (ht.symm.trans hsub)
  have hexact := threshold_eq_of_le hnow hsec
  have hle : wrappedThreshold n sec ≤ ⟨some l.time⟩ := by
    rw [wrappedThreshold, PravegaTimestamp.le_iff]
    change _ + 1 ≤ _ + 1
    omega
  exact safeE_keepIfFound
    (safeE_news (.timestamp checks _ .before) fun _ _ hm hrun => hm.news_time hle hrun)

theorem safeE_keepPass {checks : Bool} {limits : Option Int × Option Nat}
    {now : PravegaTimestamp}
    (hage : ∀ sec, limits.1 = some sec → 0 ≤ sec ∧ ∃ n : UInt64, now = ⟨some n⟩ ∧
      sec * 1000000000 ≤ n.toNat ∧ threshold n sec ≤ l.time.toNat)
    (hbytes : ∀ bytes, limits.2 = some bytes → l.bytes ≤ bytes) :
    SafeE (keeping l base) (pass checks now limits) (fun _ _ => True) s := by
  obtain ⟨age, size⟩ := limits
  have hdays : SafeE (keeping l base) (passDays checks now age) (fun _ _ => True) s := by
    cases age with
    | none => exact safeE_pure fun _ _ _ => trivial
    | some sec =>
        obtain ⟨hsec, n, rfl, hnow, htime⟩ := hage sec rfl
        exact safeE_keepDays hsec hnow htime
  refine safeE_bind (hdays.mono fun _ s₁ _ => ?_)
  cases size with
  | none => exact safeE_pure fun _ _ _ => trivial
  | some bytes =>
      exact safeE_keepIfFound (safeE_news (.size checks bytes .before)
        fun _ _ hm hrun => hm.news_size (hbytes bytes rfl) hrun)

/-- The whole thread. The induction is on the times it wakes up. -/
theorem safeE_keepRun {checks : Bool} {limits : Option Int × Option Nat}
    (hbytes : ∀ bytes, limits.2 = some bytes → l.bytes ≤ bytes) (times : List PravegaTimestamp) :
    ∀ s, (∀ sec, limits.1 = some sec → 0 ≤ sec ∧ ∀ now ∈ times, ∃ n : UInt64,
        now = ⟨some n⟩ ∧ sec * 1000000000 ≤ n.toNat ∧ threshold n sec ≤ l.time.toNat) →
      SafeE (keeping l base) (RetentionMaintainer.run checks limits times) (fun _ _ => True) s := by
  induction times with
  | nil => exact fun s _ => safeE_pure fun _ _ _ => trivial
  | cons now rest ih =>
      intro s hage
      rw [RetentionMaintainer.run]
      split
      · exact safeE_pure fun _ _ _ => trivial
      · have hpass : ∀ sec, limits.1 = some sec → 0 ≤ sec ∧ ∃ n : UInt64, now = ⟨some n⟩ ∧
            sec * 1000000000 ≤ n.toNat ∧ threshold n sec ≤ l.time.toNat := fun sec hsec =>
          ⟨(hage sec hsec).1, (hage sec hsec).2 now List.mem_cons_self⟩
        refine safeE_bind ((safeE_keepPass hpass hbytes).mono fun _ s₁ _ => ih s₁ fun sec hsec => ?_)
        exact ⟨(hage sec hsec).1, fun t ht => (hage sec hsec).2 t (List.mem_cons_of_mem _ ht)⟩

theorem safe_keepsTo {p : Program StreamCmd StreamCmd.Res (Except Fault Unit)}
    (hp : KeepsTo l p) : Safe (keeping l base) p (fun _ _ => True) s := by
  cases hp with
  | maintainer checks limits times hage hbytes =>
      exact Safe.mono (safeE_keepRun hbytes times s hage) fun _ _ _ => trivial
  | tool checks t ht =>
      have hsearch : SafeE (keeping l base)
          (searchTimestampAndReturnIndexOffset checks .index t .before)
          (fun x s' => News l base s' x) s :=
        safeE_news (.timestamp checks t .before) fun _ _ hm hrun => hm.news_time ht hrun
      refine Safe.mono (?_ : SafeE (keeping l base) (truncateStream checks t) (fun _ _ => True) s)
        fun _ _ _ => trivial
      refine safeE_bind ((StreamM.safeE_attempt hsearch fun _ _ _ hx hs hi => hx.rely hs hi).mono
        fun r s₁ hr => ?_)
      refine safeE_bind (StreamM.safeE_unwrap fun x hok s₂ hs hi => ?_)
      exact safeE_keep ((hr x hok).rely hs hi)

/-! ## The sink -/

theorem flows_append (h : Append s s') (hgrows : Grows s s') : Flows s s' := by
  cases h with
  | @data st bytes hhead hbytes =>
      exact ⟨hgrows, ⟨bytes, hbytes.symm⟩, Nat.le_refl _⟩
  | @index st r hhead hbytes hle hbehind => exact ⟨hgrows, List.prefix_rfl, hle⟩

/-- What is recorded stays recorded. -/
theorem Timed.extends {recs' : List Record} {evs' : List Event} (h : Timed base s recs evs)
    (hs : Flows s s') (h' : Timed base s' recs' evs') :
    (∃ more, recs' = recs ++ more) ∧ ∃ more, evs' = evs ++ more := by
  refine ⟨h.indexes.extends hs.grows h'.indexes, ?_⟩
  obtain ⟨bytes, hbytes⟩ := hs.data_bytes
  rw [h.data, h'.data] at hbytes
  exact flatMap_prefix Event.frame_delimiting Event.frame_injective hbytes

theorem offsetAt_append {more : List Record} {i : Nat} (hi : i < recs.length) :
    offsetAt (recs ++ more) i = offsetAt recs i := by
  rw [offsetAt, offsetAt, List.getElem?_append_left hi]

theorem kept_record (h : Kept l base s) (hstep : Records base s s') :
    Flows s s' ∧ Kept l base s' := by
  obtain ⟨happend, recs', evs', htimed'⟩ := hstep
  obtain ⟨hgrows, hconsistent⟩ := consistent_append h.consistent happend
  have hflows := flows_append happend hgrows
  obtain ⟨recs, evs, h⟩ := h
  obtain ⟨⟨newRecs, rfl⟩, newEvs, rfl⟩ := h.timed.extends hflows htimed'
  have hfirst' : s'.index.head = base ∨ ∃ x, Found base s' x ∧ x.2 = s'.index.head ∧
      Beyond l s' x := by
    have hhead : s'.index.head = s.index.head := by
      cases happend with
      | data bytes hhead hbytes => rfl
      | index r hhead hbytes hle hbehind => exact hhead
    rw [hhead]
    rcases h.first with hbase | ⟨x, hx, hxo, hbeyond⟩
    · exact Or.inl hbase
    · exact Or.inr ⟨x, hx.rely hgrows hconsistent, hxo, hbeyond.rely hflows⟩
  refine ⟨hflows, _, _, htimed', hfirst', fun hne o e he hfirst hrecent => ?_⟩
  have hahead := h.timed.indexes.ahead
  have hbehind := h.timed.indexes.behind
  cases happend with
  | @data st bytes hhead hbytes =>
      -- The index is the same, and new events are behind the old tail.
      change st.head ≤ o
      rw [hhead]
      have hrecs : recs = recs ++ newRecs :=
        flatMap_injective Record.frame_delimiting Record.frame_injective
          (h.timed.indexes.bytes.symm.trans htimed'.indexes.bytes)
      rw [← hrecs] at hfirst hne
      rcases mem_layout_append Event.frame_delimiting he with ⟨-, hold⟩ | ⟨hnew, -⟩
      · exact h.kept hne o e hold hfirst hrecent
      · rw [← h.timed.data, Nat.zero_add] at hnew
        exact Nat.le_trans hahead (Nat.le_trans hbehind hnew)
  | @index st r hhead hbytes hle hlast =>
      -- The data are the same, and a first record is not in front of the data.
      change s.data.head ≤ o
      have hevs : evs = evs ++ newEvs :=
        flatMap_injective Event.frame_delimiting Event.frame_injective
          (h.timed.data.symm.trans htimed'.data)
      rw [← hevs] at he
      have hrecent' : Recent l s o e := ⟨hrecent.1, Nat.le_trans hle hrecent.2⟩
      rcases eq_or_ne recs [] with rfl | hsome
      · have hempty : s.index.bytes.length = base := by
          have htail := h.timed.indexes.tail_eq
          rw [List.length_nil, Nat.mul_zero, Nat.add_zero] at htail
          exact htail
        have hnew : [] ++ newRecs = [r] := by
          refine flatMap_injective Record.frame_delimiting Record.frame_injective
            (htimed'.indexes.bytes.symm.trans ?_)
          change st.bytes.drop base = _
          rw [hbytes, List.drop_left' hempty, List.flatMap_singleton]
        rw [hnew] at hfirst
        exact Nat.le_trans hahead (Nat.le_trans hle hfirst)
      · rw [offsetAt_append (List.length_pos_iff.mpr hsome)] at hfirst
        exact h.kept hsome o e he hfirst hrecent'

end Keeping

/-! ## Any interleaving -/

/-- **Retention keeps what its limits keep.** From a sound store whose index partitions the
data by time, whatever a sink and any number of truncators do that keep to the limits: an
event recorded at or behind the first record of the index can be read as long as it is not
older than the limit of time and not further than the limit of bytes in front of the last
record of the index. -/
theorem retention_keeps {l : Limits} {s₀ : Store} {recs₀ : List Record} {evs₀ : List Event}
    (h₀ : Sound s₀ recs₀) (hp : Partitions s₀.streams recs₀ evs₀)
    {x : Store × List (Program StreamCmd StreamCmd.Res (Except Fault Unit))}
    (hx : Pool.Reaches Exec (KeepsTo l) (Records s₀.index.head) (s₀, []) x) :
    ∃ recs evs, Timed s₀.index.head x.1 (recs₀ ++ recs) (evs₀ ++ evs) ∧
      ∀ r₀, (recs₀ ++ recs)[0]? = some r₀ →
        ∀ o e, (o, e) ∈ layout Event.frame 0 (evs₀ ++ evs) → r₀.offset ≤ o →
          Recent l x.1 o e → StoredAt x.1.data (evs₀ ++ evs) o e := by
  have htimed : Timed s₀.index.head s₀ recs₀ evs₀ := by
    refine ⟨h₀.indexes, hp.data, fun r hr o e he hfirst hlt => ?_⟩
    obtain ⟨i, hi⟩ := List.mem_iff_getElem?.mp hr
    obtain ⟨hilt, -⟩ := List.getElem?_eq_some_iff.mp hi
    rw [← offsetAt_of_getElem? hi] at hlt
    rw [← timeAt_of_getElem? hi]
    exact (hp.timed (Nat.zero_le i) hilt he hfirst hlt).2
  have hkept : Kept l s₀.index.head s₀ := by
    refine ⟨recs₀, evs₀, htimed, Or.inl rfl, fun hne o e _ hfirst _ => ?_⟩
    have hget := List.getElem?_eq_getElem (List.length_pos_iff.mpr hne)
    rw [offsetAt_of_getElem? hget] at hfirst
    exact Nat.le_trans (h₀.readable _ (List.mem_of_getElem? hget)) hfirst
  have hgood₀ : Pool.Good (keeping l s₀.index.head) (s₀,
      ([] : List (Program StreamCmd StreamCmd.Res (Except Fault Unit)))) :=
    ⟨hkept, fun p hp => nomatch hp⟩
  obtain ⟨⟨⟨recs, evs, h⟩, -⟩, hflows⟩ := hgood₀.reaches
    (fun _ hp _ _ => safe_keepsTo hp) (fun _ _ => kept_record) (fun _ _ _ _ h => h) hx
  obtain ⟨⟨moreRecs, rfl⟩, moreEvs, rfl⟩ := htimed.extends hflows h.timed
  refine ⟨moreRecs, moreEvs, h.timed, fun r₀ hr₀ o e he hfirst hrecent => ⟨he, ?_⟩⟩
  obtain ⟨hlt, -⟩ := List.getElem?_eq_some_iff.mp hr₀
  rw [← offsetAt_of_getElem? hr₀] at hfirst
  exact h.kept (List.length_pos_iff.mp (Nat.zero_lt_of_lt hlt)) o e he hfirst hrecent

def cameraStore : Store := ⟨PravegaSrc.cameraStreams, 63⟩

/-- The camera, truncated at the time of its second event. -/
def cameraTruncated : Store :=
  (run answerAll (truncateStream true ⟨some 20⟩).run cameraStore).2

/-- That event and the one behind it are kept. -/
theorem retention_keeps_camera : cameraTruncated.data.head ≤ 21 := by
  have h₀ : Sound cameraStore PravegaSrc.cameraRecords :=
    ⟨PravegaSrc.camera_partitions.index, by decide, by decide, by decide, by decide, by decide⟩
  have hrun : Pool.Reaches Exec (KeepsTo ⟨20, 63⟩) (Records cameraStore.index.head)
      (cameraStore, []) (cameraTruncated, [_]) :=
    (Pool.Reaches.step .refl (.spawn (.tool true ⟨some 20⟩ (le_refl _)))).trans
      (Pool.reaches_run exec_answerAll _ _)
  obtain ⟨recs, evs, -, hkept⟩ := retention_keeps h₀ PravegaSrc.camera_partitions hrun
  refine (hkept _ rfl 21 (PravegaSrc.cameraEvents.get ⟨1, by decide⟩) ?_ (by decide)
    ⟨by decide, by decide⟩).2
  rw [layout_append]
  exact List.mem_append_left _ (List.mem_cons_of_mem _ List.mem_cons_self)

end GstPravega.Plugin.Store
