import GstPravega.Proofs.SearchMonotone
import Mathlib.Algebra.Order.Ring.Rat
import Mathlib.Tactic.NormNum

/-!
# Playlists that are asked for again

A player polls, and between two answers the index grows at its end and is truncated at
its head. A playlist that is finished does not change when the index grows: both of its
ends were found among the records that were there (`finished_playlist_stable`). A media
sequence number names the same two records in every playlist. But whether the second
follows the first or is behind a gap is judged by the segments before it, so by where the
playlist begins (`playlist_entries_agree`).
-/

namespace GstPravega.Server.Db

open GstPravega.Lib GstPravega.Client GstPravega.Video

/-! ## An index that grows -/

section Growing

variable {recs more : List Record} {t : PravegaTimestamp}

/-- A time up to the last record is found at the same record when others follow. -/
theorem located_append (hinc : Increasing (recs ++ more)) {i i' : Nat}
    (h : Located recs t .after i) (h' : Located (recs ++ more) t .after i')
    (ht : t ≤ timeAt recs (recs.length - 1)) : i' = i := by
  have hilt := h.lt_length
  have hlen : (recs ++ more).length = recs.length + more.length := List.length_append
  have hlast := hinc.le (show recs.length - 1 ≤ (recs ++ more).length - 1 by omega) (by omega)
  rw [timeAt_append (by omega)] at hlast
  obtain ⟨hle, hleast⟩ := (h.after hinc.of_append).2 ht
  obtain ⟨hle', hleast'⟩ := (h'.after hinc).2 (le_trans ht hlast)
  have hle₁ : i' ≤ i := hleast' i (by omega) (by rw [timeAt_append hilt]; exact hle)
  rw [timeAt_append (by omega)] at hle'
  exact Nat.le_antisymm hle₁ (hleast i' (by omega) hle')

theorem selected_append {i j : Nat} (hij : i ≤ j) (hj : j < recs.length) :
    selected (recs ++ more) i j = selected recs i j := by
  rw [selected, selected, List.drop_append_of_le_length (by omega),
    List.take_append_of_le_length (by rw [List.length_drop]; omega)]

end Growing

section Finished

variable {F : Type} [Add F] [Sub F] [Mul F] [LT F] [DecidableLT F] [OfScientific F] [F64 F]
  {w w' : Streams} {recs more : List Record}

theorem ne_nil_of_playlist {checks : Bool} {format : UInt64 → String}
    {indexReader : ByteReader} {b e : PravegaTimestamp} {pl : Playlist F}
    (hindex : Holds w.index recs) (h : playlist checks format w indexReader b e = .ok pl) :
    recs ≠ [] := by
  rintro rfl
  have hrun := yields_searchTimestamp_nil (show Holds (w.get .index) [] from hindex) checks b
    .after
  rw [playlist, searchAfter, hrun.1] at h
  cases h

/-- The records that the two searches find, in order. -/
theorem le_of_searches {checks : Bool} {b e : PravegaTimestamp} {i j : Nat}
    {first last : IndexRecord} (hindex : Holds w.index recs) (hbe : b ≤ e)
    (hbegin : searchAfter checks w b = .ok (first, w.index.head + IndexRecord.recordSize * i))
    (hend : searchAfter checks w e = .ok (last, w.index.head + IndexRecord.recordSize * j)) :
    i ≤ j := by
  have hle := searched_mono hindex hbe hbegin hend
  rw [IndexRecord.recordSize] at hle
  dsimp only at hle
  omega

theorem of_checked_map {α β : Type} {value : Option α} {f : α → β} {y : β}
    (h : (checked value).map f = .ok y) : ∃ x, value = some x ∧ f x = y := by
  cases value with
  | none => cases h
  | some x => exact ⟨x, rfl, by injection h⟩

/-- A playlist with an end tag is the same, to the letter, after records have been
appended to the index. -/
theorem finished_playlist_stable [ToString F] (checks : Bool) (format : UInt64 → String)
    {indexReader indexReader' : ByteReader} {opts : GetM3u8PlaylistOptions}
    {b e : PravegaTimestamp} {pl : Playlist F} (hindex : Holds w.index recs)
    (hindex' : Holds w'.index (recs ++ more)) (hhead : w'.index.head = w.index.head)
    (hinc : Increasing (recs ++ more)) (hreader : indexReader.stream = w.index)
    (hreader' : indexReader'.stream = w'.index)
    (htimes : timestamps checks opts = some (b, e)) (hbe : b ≤ e)
    (hpl : playlist checks format w indexReader b e = .ok pl)
    (hfinished : pl.haveAllData = true) :
    getM3u8Playlist (F := F) checks format w indexReader opts = .ok pl.text ∧
      getM3u8Playlist (F := F) checks format w' indexReader' opts = .ok pl.text := by
  have hne := ne_nil_of_playlist hindex hpl
  obtain ⟨i, first, hfirst, hbegin, hsearch⟩ := searchAfter_record hindex hne checks b
  obtain ⟨j, last, hlast, hend, hsearch'⟩ := searchAfter_record hindex hne checks e
  have hne' : recs ++ more ≠ [] := by simp [hne]
  obtain ⟨i', first', hfirst', hbegin', hsearch₁⟩ :=
    searchAfter_record hindex' hne' checks b
  obtain ⟨j', last', hlast', hend', hsearch₂⟩ := searchAfter_record hindex' hne' checks e
  have hjlt := hend.lt_length
  have hij := le_of_searches hindex hbe hsearch hsearch'
  have hplaylist := playlist_eq (F := F) format hindex hreader hij hjlt hsearch hsearch'
  -- The end tag says that the end time is not behind the last record.
  have htime : e ≤ timeAt recs (recs.length - 1) := by
    obtain ⟨body, hbody, rfl⟩ := of_checked_map (hplaylist.symm.trans hpl)
    have hlast_le : e ≤ last.timestamp := of_decide_eq_true hfinished
    rw [← timeAt_of_getElem? hlast] at hlast_le
    exact le_trans hlast_le (hinc.of_append.le (by omega) (by omega))
  have hi' := located_append hinc hbegin hbegin' (le_trans hbe htime)
  have hj' := located_append hinc hend hend' htime
  subst hi' hj'
  rw [List.getElem?_append_left (by omega)] at hfirst' hlast'
  obtain rfl := Option.some.inj (hfirst.symm.trans hfirst')
  obtain rfl := Option.some.inj (hlast.symm.trans hlast')
  have hplaylist' := playlist_eq (F := F) format hindex' hreader' hij hend'.lt_length hsearch₁
    hsearch₂
  rw [hhead, selected_append hij hjlt, ← hplaylist, hpl] at hplaylist'
  exact ⟨getM3u8Playlist_of_playlist htimes hbe hpl,
    getM3u8Playlist_of_playlist htimes hbe hplaylist'⟩

end Finished

def polledRecords : List Record :=
  [⟨⟨⟨some 38000000000⟩, 0, true, true⟩, by decide, by decide⟩,
    ⟨⟨⟨some 40000000000⟩, 21, true, false⟩, by decide, by decide⟩,
    ⟨⟨⟨some 42000000000⟩, 42, true, false⟩, by decide, by decide⟩]

def appendedRecord : Record := ⟨⟨⟨some 44000000000⟩, 63, true, false⟩, by decide, by decide⟩

def polledStreams : Streams :=
  ⟨⟨0, [], ByteStream.nil_tail_lt⟩, ⟨0, polledRecords.flatMap Record.frame, by decide⟩⟩

def appendedStreams : Streams :=
  ⟨⟨0, [], ByteStream.nil_tail_lt⟩,
    ⟨0, (polledRecords ++ [appendedRecord]).flatMap Record.frame, by decide⟩⟩

/-- Up to the second of three records, and of four. -/
theorem finished_playlist_stable_polled :
    let opts : GetM3u8PlaylistOptions := ⟨none, some 3000000000⟩
    ∃ text, getM3u8Playlist (F := Rat) true (fun _ => "now") polledStreams
        (.new polledStreams.index false [3]) opts = .ok text ∧
      getM3u8Playlist (F := Rat) true (fun _ => "now") appendedStreams
        (.new appendedStreams.index true []) opts = .ok text := by
  have hindex : Holds polledStreams.index polledRecords := ⟨by decide, by decide, rfl⟩
  have hindex' : Holds appendedStreams.index (polledRecords ++ [appendedRecord]) :=
    ⟨by decide, by decide, rfl⟩
  have htimes : timestamps true ⟨none, some 3000000000⟩ = some (.min, ⟨some 40000000000⟩) := by
    decide
  have hpl : playlist true (fun _ => "now") polledStreams (.new polledStreams.index false [3])
      .min ⟨some 40000000000⟩ =
        .ok (⟨0, 9, [.extinf 2, .programDateTime "now", .media 0 21], true⟩ : Playlist Rat) := by
    decide +kernel
  exact ⟨_, finished_playlist_stable true _ hindex hindex' rfl (by unfold Increasing; decide)
    rfl rfl htimes (by decide) hpl rfl⟩

/-! ## Entries -/

section Entries

variable {F : Type}

/-- The lines that end an entry. -/
def Line.isUrl : Line F → Bool
  | .media .. => true
  | .gap _ => true
  | _ => false

/-- Each `EXTINF` with the URL it is for. -/
def entries (body : List (Line F)) : List (Line F × Line F) :=
  (body.filter Line.isExtinf).zip (body.filter Line.isUrl)

/-- The entry with a media sequence number. -/
def Playlist.entry? (playlist : Playlist F) (n : Nat) : Option (Line F × Line F) :=
  if n < playlist.initialMediaSequenceNumber then none
  else (entries playlist.body)[n - playlist.initialMediaSequenceNumber]?

/-- As many of the ones as of the others. -/
def Balanced (body : List (Line F)) : Prop :=
  (body.filter Line.isExtinf).length = (body.filter Line.isUrl).length

theorem entries_append {xs ys : List (Line F)} (h : Balanced xs) :
    entries (xs ++ ys) = entries xs ++ entries ys := by
  rw [entries, List.filter_append, List.filter_append, List.zip_append h]
  rfl

def gapEntry : Line F × Line F := (.gapExtinf 5, .gap 5)

/-- The time of a record with a timestamp. -/
def nanos (r : Record) : UInt64 := r.timestamp.nanoseconds.getD 0

variable [Add F] [Sub F] [Mul F] [LT F] [DecidableLT F] [OfScientific F] [F64 F]

/-- From one record to the next, where the timestamps do not decrease. -/
def duration (a c : Record) : F := F64.ofU64 (nanos c - nanos a) * 1e-9

def mediaEntry (a c : Record) : Line F × Line F :=
  (.extinf (duration a c), .media a.offset c.offset)

/-- Whether the next record is too far behind for this target duration, or before. -/
def BehindGap (target : F) (a c : Record) : Prop :=
  nanos c < nanos a ∨ duration a c > target + 1.0

instance {target : F} {a c : Record} : Decidable (BehindGap target a c) :=
  inferInstanceAs (Decidable (_ ∨ _))

def entryOf (target : F) (a c : Record) : Line F × Line F :=
  if BehindGap target a c then gapEntry else mediaEntry a c

def nextTarget (target : F) (a c : Record) : F :=
  if BehindGap target a c then target
  else 0.1 * duration a c + (1.0 - 0.1) * target

/-- The entries behind a record. -/
def entriesOf (target : F) (a : Record) : List Record → List (Line F × Line F)
  | [] => []
  | c :: rs => entryOf target a c :: entriesOf (nextTarget target a c) c rs

/-- The entries of some records. -/
def entriesIn : List Record → List (Line F × Line F)
  | [] => []
  | a :: rs => entriesOf 10.0 a rs

theorem push_entryOf (format : UInt64 → String) {body : PlaylistBody F} {a c : Record}
    (hprev : body.prevIndexRecord = some a.toIndexRecord)
    (ha : a.timestamp.isSome = true) (hc : c.timestamp.isSome = true) :
    ∃ body' lines, body.push format c.toIndexRecord = some body' ∧
      body'.prevIndexRecord = some c.toIndexRecord ∧
      body'.targetDurationSeconds = nextTarget body.targetDurationSeconds a c ∧
      body'.playlistBody = body.playlistBody ++ lines ∧ Balanced lines ∧
      entries lines = [entryOf body.targetDurationSeconds a c] := by
  obtain ⟨time, htime⟩ := PravegaTimestamp.toIso8601_of_isSome format ha
  obtain ⟨t, ht⟩ := Option.isSome_iff_exists.mp ha
  obtain ⟨t', ht'⟩ := Option.isSome_iff_exists.mp hc
  have hduration : duration a c = F64.ofU64 (t' - t) * (1e-9 : F) := by
    rw [duration, nanos, nanos, ht, ht']
    rfl
  have hgap : BehindGap body.targetDurationSeconds a c ↔
      t' < t ∨ F64.ofU64 (t' - t) * 1e-9 > body.targetDurationSeconds + 1.0 := by
    rw [← hduration, BehindGap, nanos, nanos, ht, ht']
    rfl
  rw [PlaylistBody.push, hprev]
  dsimp only
  rw [PlaylistBody.pushSegment, ht', ht, entryOf, nextTarget]
  dsimp only
  split
  · next hlt =>
      have hgap := hgap.mpr (Or.inl hlt)
      rw [if_pos hgap, if_pos hgap]
      exact ⟨_, _, rfl, rfl, rfl, rfl, rfl, rfl⟩
  next hlt =>
  split
  · next hlong =>
      have hgap := hgap.mpr (Or.inr hlong)
      rw [if_pos hgap, if_pos hgap]
      exact ⟨_, _, rfl, rfl, rfl, rfl, rfl, rfl⟩
  · next hlong =>
      have hgap := mt hgap.mp (not_or.mpr ⟨hlt, hlong⟩)
      rw [if_neg hgap, if_neg hgap, htime, mediaEntry, hduration]
      refine ⟨_, _, rfl, rfl, rfl, List.append_assoc _ _ _, ?_, ?_⟩
      · cases body.nextSegmentDiscont <;> rfl
      · cases body.nextSegmentDiscont <;> rfl

/-- Records behind another, one entry each. -/
theorem bodyOf_entriesOf (format : UInt64 → String) {rs : List Record} :
    ∀ {body : PlaylistBody F} {a : Record},
      body.prevIndexRecord = some a.toIndexRecord → a.timestamp.isSome = true →
      (∀ r ∈ rs, r.timestamp.isSome = true) →
      ∃ body' lines, bodyOf format rs body = some body' ∧
        body'.playlistBody = body.playlistBody ++ lines ∧ Balanced lines ∧
        entries lines = entriesOf body.targetDurationSeconds a rs := by
  induction rs with
  | nil =>
      intro body a _ _ _
      exact ⟨body, [], rfl, (List.append_nil _).symm, rfl, rfl⟩
  | cons c rs ih =>
      intro body a hprev ha hvalid
      have hc := hvalid c List.mem_cons_self
      obtain ⟨body₁, lines₁, hpush, hprev₁, htarget, hlines₁, hbalanced₁, hentry⟩ :=
        push_entryOf format hprev ha hc
      obtain ⟨body₂, lines₂, hbody, hlines₂, hbalanced₂, hentries⟩ :=
        ih hprev₁ hc fun r hr => hvalid r (List.mem_cons_of_mem c hr)
      refine ⟨body₂, lines₁ ++ lines₂, ?_, ?_, ?_, ?_⟩
      · rw [bodyOf, List.foldlM_cons, hpush]
        exact hbody
      · rw [hlines₂, hlines₁, List.append_assoc]
      · rw [Balanced, List.filter_append, List.filter_append, List.length_append,
          List.length_append, hbalanced₁, hbalanced₂]
      · rw [entries_append hbalanced₁, hentry, hentries, htarget]
        rfl

theorem bodyOf_entriesIn (format : UInt64 → String) {rs : List Record}
    (hvalid : ∀ r ∈ rs, r.timestamp.isSome = true) :
    ∃ body : PlaylistBody F, bodyOf format rs PlaylistBody.initial = some body ∧
      entries body.playlistBody = entriesIn rs := by
  cases rs with
  | nil => exact ⟨PlaylistBody.initial, rfl, rfl⟩
  | cons a rs =>
      let first : PlaylistBody F :=
        { (PlaylistBody.initial : PlaylistBody F) with prevIndexRecord := some a.toIndexRecord }
      have hprev : first.prevIndexRecord = some a.toIndexRecord := rfl
      obtain ⟨body, lines, hbody, hlines, _, hentries⟩ :=
        bodyOf_entriesOf format hprev (hvalid a List.mem_cons_self)
          fun r hr => hvalid r (List.mem_cons_of_mem a hr)
      refine ⟨body, ?_, ?_⟩
      · rw [bodyOf, List.foldlM_cons]
        exact hbody
      · rw [hlines]
        exact hentries

/-- Where all the records are `all` and the first `m` are truncated away, the entries of a
playlist are those of the records from its number on. -/
theorem playlist_entriesIn {checks : Bool} {format : UInt64 → String} {w : Streams}
    {all : List Record} {m : Nat} {indexReader : ByteReader} {b e : PravegaTimestamp}
    {pl : Playlist F} (hindex : Holds w.index (all.drop m))
    (hhead : w.index.head = IndexRecord.recordSize * m)
    (hvalid : ∀ r ∈ all, r.timestamp.isSome = true) (hreader : indexReader.stream = w.index)
    (hbe : b ≤ e) (hpl : playlist checks format w indexReader b e = .ok pl) :
    ∃ j, entries pl.body = entriesIn (selected all pl.initialMediaSequenceNumber j) := by
  have hne := ne_nil_of_playlist hindex hpl
  obtain ⟨i, first, _, _, hsearch⟩ := searchAfter_record hindex hne checks b
  obtain ⟨j, last, _, hend, hsearch'⟩ := searchAfter_record hindex hne checks e
  have hij := le_of_searches hindex hbe hsearch hsearch'
  obtain ⟨body, hbody, hentries⟩ := bodyOf_entriesIn (F := F) format
    fun r hr => hvalid r (List.mem_of_mem_drop (mem_of_mem_selected hr))
  have hplaylist := playlist_eq (F := F) format hindex hreader hij hend.lt_length hsearch hsearch'
  rw [hbody, hpl] at hplaylist
  injection hplaylist with hplaylist
  have hnumber : pl.initialMediaSequenceNumber = m + i := by
    rw [hplaylist, hhead, ← Nat.mul_add]
    exact Nat.mul_div_cancel_left _ (by decide)
  refine ⟨m + j, ?_⟩
  rw [hnumber, hplaylist]
  dsimp only
  rw [hentries, selected, selected, List.drop_drop, Nat.add_sub_add_left]

theorem length_entriesOf {rs : List Record} :
    ∀ {target : F} {a : Record}, (entriesOf target a rs).length = rs.length := by
  induction rs with
  | nil => exact fun {_ _} => rfl
  | cons c rs ih => exact fun {_ _} => congrArg Nat.succ ih

theorem length_entriesIn {all : List Record} {i j : Nat} (hij : i ≤ j) (hj : j < all.length) :
    (entriesIn (selected all i j) : List (Line F × Line F)).length = j - i := by
  have hlength : (selected all i j).length = j - i + 1 := by
    rw [selected, List.length_take, List.length_drop]
    omega
  cases hselected : selected all i j with
  | nil =>
      rw [hselected] at hlength
      cases hlength
  | cons a rs =>
      rw [hselected] at hlength
      rw [entriesIn, length_entriesOf]
      exact Nat.succ.inj hlength

section ByNumber

variable {P : F → Prop} {s : Line F × Line F}

/-- The induction is on the records; what it carries is what is known of the target. -/
theorem getElem?_entriesOf
    (hnext : ∀ (target : F) (a c : Record), P target → P (nextTarget target a c))
    {rs : List Record} : ∀ {target : F} {a : Record} {k : Nat}, P target →
      (entriesOf target a rs)[k]? = some s →
      ∃ target', P target' ∧ ∃ a' c, (a :: rs)[k]? = some a' ∧
        (a :: rs)[k + 1]? = some c ∧ s = entryOf target' a' c := by
  induction rs with
  | nil =>
      intro target a k _ hs
      cases hs
  | cons c rs ih =>
      intro target a k htarget hs
      cases k with
      | zero =>
          injection hs with hs
          exact ⟨target, htarget, a, c, rfl, rfl, hs.symm⟩
      | succ k => exact ih (hnext target a c htarget) hs

theorem getElem?_entriesIn (hP : P 10.0)
    (hnext : ∀ (target : F) (a c : Record), P target → P (nextTarget target a c))
    {all : List Record} {i j k : Nat} (hs : (entriesIn (selected all i j))[k]? = some s) :
    ∃ target, P target ∧ ∃ a c, all[i + k]? = some a ∧ all[i + k + 1]? = some c ∧
      s = entryOf target a c := by
  cases hselected : selected all i j with
  | nil =>
      rw [hselected] at hs
      cases hs
  | cons a rs =>
      rw [hselected] at hs
      obtain ⟨target, htarget, a', c, ha, hc, hentry⟩ := getElem?_entriesOf hnext hP hs
      rw [← hselected] at ha hc
      have hc : all[i + (k + 1)]? = some c := getElem?_selected hc
      exact ⟨target, htarget, a', c, getElem?_selected ha, hc, hentry⟩

/-- What an entry of a playlist is, by its number. -/
theorem entry?_entriesIn (hP : P 10.0)
    (hnext : ∀ (target : F) (a c : Record), P target → P (nextTarget target a c))
    {all : List Record} {j n : Nat} {pl : Playlist F}
    (hentries : entries pl.body = entriesIn (selected all pl.initialMediaSequenceNumber j))
    (hs : pl.entry? n = some s) :
    ∃ target, P target ∧ ∃ a c, all[n]? = some a ∧ all[n + 1]? = some c ∧
      s = entryOf target a c := by
  rw [Playlist.entry?] at hs
  split at hs
  · cases hs
  · next hge =>
      rw [hentries] at hs
      have hentry := getElem?_entriesIn hP hnext hs
      rwa [Nat.add_sub_cancel' (Nat.le_of_not_lt hge)] at hentry

end ByNumber

theorem isPrefix_entriesOf {rs rs' : List Record} (h : rs <+: rs') :
    ∀ {target : F} {a : Record}, entriesOf target a rs <+: entriesOf target a rs' := by
  obtain ⟨more, rfl⟩ := h
  induction rs with
  | nil => exact fun {_ _} => List.nil_prefix
  | cons c rs ih => exact fun {_ _} => List.prefix_cons_inj _ |>.mpr ih

theorem getElem?_of_isPrefix {α : Type} {xs ys : List α} {n : Nat} {x : α} (h : xs <+: ys)
    (hx : xs[n]? = some x) : ys[n]? = some x := by
  obtain ⟨more, rfl⟩ := h
  obtain ⟨hn, _⟩ := List.getElem?_eq_some_iff.mp hx
  rw [List.getElem?_append_left hn, hx]

/-- The same first record: one is the beginning of the other. -/
theorem isPrefix_entriesIn {all : List Record} {i j j' : Nat} (h : j ≤ j') :
    (entriesIn (selected all i j) : List (Line F × Line F)) <+:
      entriesIn (selected all i j') := by
  have hprefix : selected all i j <+: selected all i j' :=
    List.take_prefix_take_left (by omega)
  cases hleft : selected all i j with
  | nil => exact List.nil_prefix
  | cons a rs =>
      rw [hleft] at hprefix
      obtain ⟨more, hmore⟩ := hprefix
      rw [← hmore]
      exact isPrefix_entriesOf (List.prefix_append rs more)

end Entries

/-! ### With exact durations -/

section Exact

theorem duration_nonneg (a c : Record) : (0 : Rat) ≤ duration a c :=
  mul_nonneg (Nat.cast_nonneg _) (by norm_num)

theorem nextTarget_nonneg {target : Rat} (h : 0 ≤ target) (a c : Record) :
    0 ≤ nextTarget target a c := by
  rw [nextTarget]
  split
  · exact h
  · exact add_nonneg (mul_nonneg (by norm_num) (duration_nonneg a c))
      (mul_nonneg (by norm_num) h)

/-- Where the timestamps do not decrease, a pair behind the gap for one target but not for
another is more than a second apart. -/
theorem second_of_behindGap {target target' : Rat} {a c : Record} (h : 0 ≤ target)
    (hgap : BehindGap target a c) (hgap' : ¬ BehindGap target' a c) :
    (nanos a).toNat + 10 ^ 9 < (nanos c).toNat := by
  obtain ⟨hle, _⟩ := not_or.mp hgap'
  rcases hgap with hlt | hlong
  · exact absurd hlt hle
  have hle : nanos a ≤ nanos c := UInt64.not_lt.mp hle
  have hlong : (1 : Rat) < duration a c := by
    have : (1.0 : Rat) = 1 := by norm_num
    rw [this] at hlong
    linarith
  have hduration : (duration a c : Rat) = (nanos c - nanos a).toNat * 1e-9 := rfl
  have hnanos : ((10 ^ 9 : Nat) : Rat) < (nanos c - nanos a).toNat := by
    rw [hduration] at hlong
    norm_num at hlong
    push_cast
    linarith
  have hnanos := Nat.cast_lt.mp hnanos
  rw [UInt64.toNat_sub_of_le _ _ hle] at hnanos
  omega

theorem second_of_entryOf_ne {target target' : Rat} {a c : Record} (h : 0 ≤ target)
    (h' : 0 ≤ target') (hne : entryOf target a c ≠ entryOf target' a c) :
    (nanos a).toNat + 10 ^ 9 < (nanos c).toNat := by
  by_cases hgap : BehindGap target a c
  · by_cases hgap' : BehindGap target' a c
    · exact absurd (by rw [entryOf, entryOf, if_pos hgap, if_pos hgap']) hne
    · exact second_of_behindGap h hgap hgap'
  · by_cases hgap' : BehindGap target' a c
    · exact second_of_behindGap h' hgap' hgap
    · exact absurd (by rw [entryOf, entryOf, if_neg hgap, if_neg hgap']) hne

/-- Entries with one number in two playlists. -/
theorem entries_agree {all : List Record} {j j' n : Nat} {pl pl' : Playlist Rat}
    {s s' : Line Rat × Line Rat}
    (h : entries pl.body = entriesIn (selected all pl.initialMediaSequenceNumber j))
    (h' : entries pl'.body = entriesIn (selected all pl'.initialMediaSequenceNumber j'))
    (hs : pl.entry? n = some s) (hs' : pl'.entry? n = some s') :
    ∃ a c, all[n]? = some a ∧ all[n + 1]? = some c ∧
      (s = gapEntry ∨ s = mediaEntry a c) ∧ (s' = gapEntry ∨ s' = mediaEntry a c) ∧
      (s ≠ s' → (nanos a).toNat + 10 ^ 9 < (nanos c).toNat ∧
        pl.initialMediaSequenceNumber ≠ pl'.initialMediaSequenceNumber) := by
  have hP : (0 : Rat) ≤ 10.0 := by norm_num
  have hnext := fun (target : Rat) (a c : Record) (h : 0 ≤ target) => nextTarget_nonneg h a c
  obtain ⟨target, htarget, a, c, ha, hc, rfl⟩ := entry?_entriesIn hP hnext h hs
  obtain ⟨target', htarget', a', c', ha', hc', rfl⟩ := entry?_entriesIn hP hnext h' hs'
  obtain rfl := Option.some.inj (ha.symm.trans ha')
  obtain rfl := Option.some.inj (hc.symm.trans hc')
  have hkind : ∀ t : Rat, entryOf t a c = gapEntry ∨ entryOf t a c = mediaEntry a c := by
    intro t
    rw [entryOf]
    split
    · exact Or.inl rfl
    · exact Or.inr rfl
  refine ⟨a, c, ha, hc, hkind target, hkind target', fun hne =>
    ⟨second_of_entryOf_ne htarget htarget' hne, fun hnumber => hne ?_⟩⟩
  rw [Playlist.entry?, h] at hs
  rw [Playlist.entry?, h', ← hnumber] at hs'
  split at hs
  · cases hs
  next hge =>
  rw [if_neg hge] at hs'
  -- With the same first record, the longer playlist begins with the shorter one.
  rcases Nat.le_total j j' with hle | hle
  · exact Option.some.inj ((getElem?_of_isPrefix (isPrefix_entriesIn hle) hs).symm.trans hs')
  · exact Option.some.inj (hs.symm.trans (getElem?_of_isPrefix (isPrefix_entriesIn hle) hs'))

/-- Two playlists over one sequence of records, of which more or less has been truncated
away. Where both have an entry with a number, it is the gap or the media from the record
with this number to the next. It is not the same in both only if the one record is more than
a second behind the other and the playlists begin with different records. -/
theorem playlist_entries_agree {checks : Bool} {format : UInt64 → String} {w w' : Streams}
    {all : List Record} {m m' n : Nat} {indexReader indexReader' : ByteReader}
    {b e b' e' : PravegaTimestamp} {pl pl' : Playlist Rat} {s s' : Line Rat × Line Rat}
    (hvalid : ∀ r ∈ all, r.timestamp.isSome = true)
    (hindex : Holds w.index (all.drop m)) (hindex' : Holds w'.index (all.drop m'))
    (hhead : w.index.head = IndexRecord.recordSize * m)
    (hhead' : w'.index.head = IndexRecord.recordSize * m')
    (hreader : indexReader.stream = w.index) (hreader' : indexReader'.stream = w'.index)
    (hbe : b ≤ e) (hbe' : b' ≤ e')
    (hpl : playlist checks format w indexReader b e = .ok pl)
    (hpl' : playlist checks format w' indexReader' b' e' = .ok pl')
    (hs : pl.entry? n = some s) (hs' : pl'.entry? n = some s') :
    ∃ a c, all[n]? = some a ∧ all[n + 1]? = some c ∧
      (s = gapEntry ∨ s = mediaEntry a c) ∧ (s' = gapEntry ∨ s' = mediaEntry a c) ∧
      (s ≠ s' → (nanos a).toNat + 10 ^ 9 < (nanos c).toNat ∧
        pl.initialMediaSequenceNumber ≠ pl'.initialMediaSequenceNumber) := by
  obtain ⟨j, hentries⟩ := playlist_entriesIn hindex hhead hvalid hreader hbe hpl
  obtain ⟨j', hentries'⟩ := playlist_entriesIn hindex' hhead' hvalid hreader' hbe' hpl'
  exact entries_agree hentries hentries' hs hs'

end Exact

/-! ### A pair that is judged twice -/

/-- Two records at nearly the same time, and one ten and a half seconds later. -/
def unevenRecords : List Record :=
  [⟨⟨⟨some 38000000000⟩, 0, true, true⟩, by decide, by decide⟩,
    ⟨⟨⟨some 38000000001⟩, 21, true, false⟩, by decide, by decide⟩,
    ⟨⟨⟨some 48500000001⟩, 42, true, false⟩, by decide, by decide⟩]

def unevenStreams : Streams :=
  ⟨⟨0, [], ByteStream.nil_tail_lt⟩, ⟨0, unevenRecords.flatMap Record.frame, by decide⟩⟩

/-- With the first record truncated away. -/
def unevenTruncated : Streams :=
  ⟨⟨0, [], ByteStream.nil_tail_lt⟩, ⟨20, unevenRecords.flatMap Record.frame, by decide⟩⟩

/-- The short segment pulls the target duration down, and the long one is behind a gap. -/
theorem playlist_uneven :
    playlist true (fun _ => "now") unevenStreams (.new unevenStreams.index false []) .min .max =
      .ok (⟨0, 9, [.extinf 1e-9, .programDateTime "now", .media 0 21, .discontinuity,
        .gapExtinf 5, .gap 5], false⟩ : Playlist Rat) := by
  decide +kernel

theorem playlist_unevenTruncated :
    playlist true (fun _ => "now") unevenTruncated (.new unevenTruncated.index false [])
      .min .max =
      .ok (⟨1, 10, [.extinf 10.5, .programDateTime "now", .media 21 42], false⟩ :
        Playlist Rat) := by
  decide +kernel

theorem playlist_entries_agree_uneven :
    ∃ s s' : Line Rat × Line Rat, s ≠ s' ∧
      ∃ a c, unevenRecords[1]? = some a ∧ unevenRecords[1 + 1]? = some c ∧
        (s = gapEntry ∨ s = mediaEntry a c) ∧ (s' = gapEntry ∨ s' = mediaEntry a c) ∧
        (s ≠ s' → (nanos a).toNat + 10 ^ 9 < (nanos c).toNat ∧ 0 ≠ 1) :=
  ⟨gapEntry, (.extinf 10.5, .media 21 42), by decide,
    playlist_entries_agree (by decide)
      (⟨by decide, by decide, rfl⟩ : Holds unevenStreams.index (unevenRecords.drop 0))
      (⟨by decide, by decide, rfl⟩ : Holds unevenTruncated.index (unevenRecords.drop 1))
      rfl rfl rfl rfl (by decide) (by decide) playlist_uneven playlist_unevenTruncated rfl rfl⟩

/-- One request, before and after the head of the index was truncated. -/
theorem playlist_entries_uneven :
    Holds unevenStreams.index (unevenRecords.drop 0) ∧
      Holds unevenTruncated.index (unevenRecords.drop 1) ∧
      (∀ r ∈ unevenRecords, r.timestamp.isSome = true) ∧
      ∃ pl pl' : Playlist Rat,
        playlist true (fun _ => "now") unevenStreams (.new unevenStreams.index false [])
          .min .max = .ok pl ∧
        playlist true (fun _ => "now") unevenTruncated (.new unevenTruncated.index false [])
          .min .max = .ok pl' ∧
        pl.entry? 1 = some (.gapExtinf 5, .gap 5) ∧
        pl'.entry? 1 = some (.extinf 10.5, .media 21 42) :=
  ⟨⟨by decide, by decide, rfl⟩, ⟨by decide, by decide, rfl⟩, by decide,
    _, _, playlist_uneven, playlist_unevenTruncated, rfl, rfl⟩

end GstPravega.Server.Db
