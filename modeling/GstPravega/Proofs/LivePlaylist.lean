import GstPravega.Proofs.LiveSearch
import GstPravega.Proofs.PlaylistStability

/-!
# Playlists of an index that changes

The handler searches twice and then reads the records between, while records are appended
and others are truncated away. Each search is as good as one that is done at once
(`Searcher.safe`), but the two are done at different moments. From the moment of the second
one the records are a snapshot. The first one has found a record that is still there, or the
reading fails at it; and if that record was not the last one then, it is the one that would
be found at the second moment as well, because timestamps increase.

So an answer is the playlist of one moment, `playlist` as it is made of streams that are left
alone, and all that is known of that one is known of the answer. Only its begin time may be
an earlier one than was asked for: that of a record that was the last one at the time.
-/

namespace GstPravega.Server.Db

open GstPravega.Lib GstPravega.Client GstPravega.Video Program

variable {F : Type} [Add F] [Sub F] [Mul F] [LT F] [DecidableLT F] [OfScientific F] [F64 F]

/-- From a record up to one that is not before it, nothing overflows. -/
theorem playlistBetween_of_le {checks : Bool} (format : UInt64 → String) (e : PravegaTimestamp)
    (first last : IndexRecord) {o o' : Nat} (hle : o ≤ o')
    (hlt : o' + IndexRecord.recordSize < 2 ^ 63) :
    playlistBetween (F := F) checks format e (first, o) (last, o') = (do
      let body ← readPlaylist format (o' + IndexRecord.recordSize - o + 1) o
        (o' + IndexRecord.recordSize - o) (PlaylistBody.initial : PlaylistBody F)
      pure ⟨o / IndexRecord.recordSize, F64.round body.targetDurationSeconds,
        body.playlistBody, decide (e ≤ last.timestamp)⟩) := by
  have hsub : o ≤ o' + IndexRecord.recordSize := Nat.le_trans hle (Nat.le_add_right _ _)
  rw [playlistBetween, addU64_of_lt (by omega)]
  change (StreamM.checked (subU64 checks (o' + IndexRecord.recordSize) o) >>= _) = _
  rw [subU64_of_le hsub]
  exact if_neg (by omega)

/-! ## On streams left alone -/

section Alone

variable {w : Streams} {recs : List Record}

theorem yields_readPlaylist (format : UInt64 → String) (hindex : Holds (w.get .index) recs) :
    ∀ {n i fuel : Nat} (body : PlaylistBody F), n < fuel → i + n ≤ recs.length →
      Yields Streams.answer (ReadsRecords .index w.index.head w.index.tail)
        (readPlaylist format fuel (recordOffset w .index i) (IndexRecord.recordSize * n) body).run
        w (checked (bodyOf format ((recs.drop i).take n) body)) w := by
  intro n
  induction n with
  | zero =>
      intro i fuel body hfuel _
      cases fuel with
      | zero => exact absurd hfuel (Nat.not_lt_zero _)
      | succ fuel =>
          rw [readPlaylist, if_pos (Nat.mul_zero _), List.take_zero]
          exact StreamM.yields_pure _
  | succ n ih =>
      intro i fuel body hfuel hi
      cases fuel with
      | zero => exact absurd hfuel (Nat.not_lt_zero _)
      | succ fuel =>
          have hsize : IndexRecord.recordSize * (n + 1) =
              IndexRecord.recordSize * n + IndexRecord.recordSize := Nat.mul_succ _ _
          have hpos : 0 < IndexRecord.recordSize := by decide
          have hget := List.getElem?_eq_getElem (show i < recs.length by omega)
          have hcons : (recs.drop i).take (n + 1) =
              recs[i] :: (recs.drop (i + 1)).take n := by
            rw [List.drop_eq_getElem_cons (by omega), List.take_succ_cons]
          rw [readPlaylist, if_neg (by omega), if_neg (by omega), hcons, bodyOf, List.foldlM_cons]
          refine Yields.bindE (yields_readRecord hindex hget) ?_
          cases hpush : body.push format recs[i].toIndexRecord with
          | none => exact Yields.bindE_error (StreamM.yields_throw _)
          | some body' =>
              refine Yields.bindE (StreamM.yields_checked rfl) ?_
              rw [← recordOffset_succ, hsize, Nat.add_sub_cancel]
              exact ih body' (by omega) (by omega)

/-- The playlist between two records is the one that is made at once. -/
theorem yields_playlistBetween {checks : Bool} (format : UInt64 → String)
    (indexReader : ByteReader) {b e : PravegaTimestamp} {i j : Nat} {first last : Record}
    (hindex : Holds (w.get .index) recs) (hreader : indexReader.stream = w.index) (hij : i ≤ j)
    (hj : j < recs.length)
    (hbegin : searchAfter checks w b =
      .ok (first.toIndexRecord, w.index.head + IndexRecord.recordSize * i))
    (hend : searchAfter checks w e =
      .ok (last.toIndexRecord, w.index.head + IndexRecord.recordSize * j)) :
    Yields Streams.answer (ReadsRecords .index w.index.head w.index.tail)
      (playlistBetween checks format e (first.toIndexRecord, recordOffset w .index i)
        (last.toIndexRecord, recordOffset w .index j)).run w
      (playlist (F := F) checks format w indexReader b e) w := by
  have hindex' : Holds w.index recs := hindex
  obtain ⟨hsum, hle⟩ := selected_le_tail hindex' hij hj
  have htail := w.index.tail_lt
  rw [← ByteStream.tail] at htail
  have hoffset : ∀ k, recordOffset w .index k = w.index.head + IndexRecord.recordSize * k :=
    fun _ => rfl
  have hsize : recordOffset w .index j + IndexRecord.recordSize - recordOffset w .index i =
      IndexRecord.recordSize * (j - i + 1) := by
    rw [hoffset, hoffset, ← hsum, Nat.add_sub_cancel_left]
  have hfuel : j - i + 1 ≤ IndexRecord.recordSize * (j - i + 1) :=
    Nat.le_mul_of_pos_left _ (by decide)
  have hloop := yields_readPlaylist format hindex (PlaylistBody.initial : PlaylistBody F)
    (show j - i + 1 < IndexRecord.recordSize * (j - i + 1) + 1 by omega)
    (show i + (j - i + 1) ≤ recs.length by omega)
  rw [playlist_eq format hindex' hreader hij hj hbegin hend,
    playlistBetween_of_le format e _ _ (recordOffset_mono hij) (by rw [hoffset]; omega), hsize]
  cases hbody : bodyOf format (selected recs i j) (PlaylistBody.initial : PlaylistBody F) with
  | none =>
      rw [selected] at hbody
      rw [hbody] at hloop
      exact Yields.bindE_error hloop
  | some body =>
      rw [selected] at hbody
      rw [hbody] at hloop
      exact Yields.bindE hloop (StreamM.yields_pure _)

end Alone

/-! ## The same index later -/

/-- The last record of the index. -/
def IsLast (st : ByteStream) (r : Record) : Prop :=
  ∃ recs, Holds st recs ∧ recs.getLast? = some r

section Later

variable {recs recs' more : List Record} {t t' : PravegaTimestamp} {st st' : ByteStream}

/-- Where the first record that is asked for is still there, the records are those that are
left, and others behind them. -/
theorem holds_later (h : Holds st recs) (h' : Holds st' recs') (hbytes : st.bytes <+: st'.bytes)
    {i : Nat} (hi : i < recs.length)
    (hhead : st'.head ≤ st.head + IndexRecord.recordSize * i) (hle : st.head ≤ st'.head) :
    ∃ k more, st'.head = st.head + IndexRecord.recordSize * k ∧ k ≤ i ∧
      recs' = (recs ++ more).drop k := by
  obtain ⟨a, ha⟩ := h.aligned
  obtain ⟨a', ha'⟩ := h'.aligned
  have hplace : st'.head = st.head + IndexRecord.recordSize * (a' - a) := by
    rw [IndexRecord.recordSize] at ha ha' ⊢
    omega
  obtain ⟨ys, hys⟩ := hbytes
  have hk : a' - a ≤ i := by
    rw [IndexRecord.recordSize] at hhead hplace
    omega
  have hrest : (recs.drop (a' - a)).flatMap Record.frame ++ ys = recs'.flatMap Record.frame := by
    rw [← h'.bytes, hplace, ← hys, ← List.drop_drop, List.drop_append_of_le_length h.head_le,
      h.bytes, List.drop_append_of_le_length, drop_flatMap_of_length Record.length_frame]
    rw [length_flatMap_of_length Record.length_frame]
    exact Nat.mul_le_mul_left _ (by omega)
  obtain ⟨more, hmore⟩ := flatMap_prefix Record.frame_delimiting Record.frame_injective hrest
  exact ⟨a' - a, more, hplace, hk, by rw [hmore, List.drop_append_of_le_length (by omega)]⟩

theorem increasing_drop (h : Increasing recs) (k : Nat) : Increasing (recs.drop k) := h.drop

theorem increasing_append (h : Increasing recs) {k : Nat} (hk : k < recs.length)
    (h' : Increasing ((recs ++ more).drop k)) : Increasing (recs ++ more) := by
  rw [List.drop_append_of_le_length (Nat.le_of_lt hk)] at h'
  obtain ⟨-, hmore, hbehind⟩ := List.pairwise_append.mp h'
  refine List.pairwise_append.mpr ⟨h, hmore, fun a ha c hc => ?_⟩
  -- The last one of the records before is left.
  have hlast : recs.length - 1 < recs.length := by omega
  have hmem : recs[recs.length - 1] ∈ recs.drop k := by
    refine List.mem_of_getElem? (i := recs.length - 1 - k) ?_
    rw [List.getElem?_drop, Nat.add_sub_cancel' (by omega), List.getElem?_eq_getElem hlast]
  obtain ⟨p, hp, rfl⟩ := List.getElem_of_mem ha
  have hle := h.le (show p ≤ recs.length - 1 by omega) hlast
  rw [timeAt_of_getElem? (List.getElem?_eq_getElem hp),
    timeAt_of_getElem? (List.getElem?_eq_getElem hlast)] at hle
  exact lt_of_le_of_lt hle (hbehind _ hmem c hc)

theorem timeAt_drop (k i : Nat) : timeAt (recs.drop k) i = timeAt recs (k + i) := by
  rw [timeAt, timeAt, List.getElem?_drop]

/-- What a search finds does not go back while the index grows and is truncated. -/
theorem located_le {k k' i i' : Nat} (hinc : Increasing (recs ++ more))
    (h : Located (recs.drop k) t .after i) (h' : Located ((recs ++ more).drop k') t' .after i')
    (hk : k ≤ k') (ht : t ≤ t') : k + i ≤ k' + i' := by
  have hi := h.lt_length
  have hi' := h'.lt_length
  rw [List.length_drop] at hi hi'
  rw [List.length_append] at hi'
  rcases lt_or_ge (timeAt ((recs ++ more).drop k') (((recs ++ more).drop k').length - 1)) t' with
    hbeyond | hwithin
  · -- The later search is clamped at the last record.
    have hlast := (h'.after (increasing_drop hinc k')).1 hbeyond
    rw [List.length_drop, List.length_append] at hlast
    omega
  by_contra hlt
  obtain ⟨p, hp⟩ : ∃ p, k' + i' = k + p := ⟨k' + i' - k, by omega⟩
  have hlength := List.length_drop (i := k) (l := recs)
  have hle : t ≤ timeAt (recs.drop k) p := by
    have hfound := ((h'.after (increasing_drop hinc k')).2 hwithin).1
    rw [timeAt_drop, hp, timeAt_append (by omega)] at hfound
    rw [timeAt_drop]
    exact le_trans ht hfound
  have hleft := increasing_drop hinc.of_append k
  have hlast := hleft.le (show p ≤ (recs.drop k).length - 1 by omega) (by omega)
  have hleast := ((h.after hleft).2 (le_trans hle hlast)).2 p (by omega) hle
  omega

/-- What was found, or was the last record then, is found later by its own time. -/
theorem located_later {k i i' : Nat} (hinc : Increasing (recs ++ more))
    (h : Located recs t .after i) (hk : k ≤ i)
    (h' : Located ((recs ++ more).drop k) (min t (timeAt recs (recs.length - 1))) .after i') :
    k + i' = i := by
  have hi := h.lt_length
  have hi' := h'.lt_length
  have hlength : ((recs ++ more).drop k).length = recs.length + more.length - k := by
    rw [List.length_drop, List.length_append]
  have hrecs := hinc.of_append
  have hfound := h.after hrecs
  have hlater := h'.after (increasing_drop hinc k)
  have hends := (increasing_drop hinc k).le
    (show recs.length - 1 - k ≤ ((recs ++ more).drop k).length - 1 by omega) (by omega)
  rw [timeAt_drop, Nat.add_sub_cancel' (show k ≤ recs.length - 1 by omega),
    timeAt_append (by omega)] at hends
  obtain ⟨hle', hleast'⟩ := hlater.2 (le_trans (min_le_right _ _) hends)
  have hthere : min t (timeAt recs (recs.length - 1)) ≤ timeAt recs i := by
    rcases le_or_gt t (timeAt recs (recs.length - 1)) with hle | hlt
    · exact le_trans (min_le_left _ _) (hfound.2 hle).1
    · rw [hfound.1 hlt]
      exact min_le_right _ _
  have hle : i' ≤ i - k := by
    refine hleast' (i - k) (by omega) ?_
    rw [timeAt_drop, Nat.add_sub_cancel' hk, timeAt_append hi]
    exact hthere
  rw [timeAt_drop, timeAt_append (by omega)] at hle'
  rcases le_or_gt t (timeAt recs (recs.length - 1)) with hwithin | hbeyond
  · rw [min_eq_left hwithin] at hle'
    have := (hfound.2 hwithin).2 (k + i') (by omega) hle'
    omega
  · rw [min_eq_right (le_of_lt hbeyond), hrecs.le_iff (by omega) (by omega)] at hle'
    have := hfound.1 hbeyond
    omega

/-- The record that was found is still there: the search for its time finds it. -/
theorem searchAfter_later {w w' : Streams} {i : Nat} {first : Record} (checks : Bool)
    (hindex : Holds w.index recs) (hinc : Increasing recs) (hindex' : Holds w'.index recs')
    (hinc' : Increasing recs') (hbytes : w.index.bytes <+: w'.index.bytes)
    (hhead : w.index.head ≤ w'.index.head) (hfirst : recs[i]? = some first)
    (hlocated : Located recs t .after i) (hthere : w'.index.head ≤ recordOffset w .index i) :
    ∃ i', recordOffset w .index i = recordOffset w' .index i' ∧
      searchAfter checks w' (min t (timeAt recs (recs.length - 1))) =
        .ok (first.toIndexRecord, w'.index.head + IndexRecord.recordSize * i') := by
  have hi := hlocated.lt_length
  obtain ⟨k, more, hk, hki, rfl⟩ := holds_later hindex hindex' hbytes hi hthere hhead
  have hall := increasing_append hinc (Nat.lt_of_le_of_lt hki hi) hinc'
  have hne : (recs ++ more).drop k ≠ [] := by
    refine List.ne_nil_of_length_pos ?_
    rw [List.length_drop, List.length_append]
    omega
  obtain ⟨i', first', hfirst', hlocated', hsearch⟩ := searchAfter_record hindex' hne checks
    (min t (timeAt recs (recs.length - 1)))
  have hii := located_later hall hlocated hki hlocated'
  rw [List.getElem?_drop, hii, List.getElem?_append_left hi, hfirst] at hfirst'
  obtain rfl := Option.some.inj hfirst'
  refine ⟨i', ?_, hsearch⟩
  change w.index.head + IndexRecord.recordSize * i = w'.index.head + _
  rw [hk, ← hii, Nat.mul_add, Nat.add_assoc]

end Later

/-! ## Beside others -/

theorem strict_readPlaylist (format : UInt64 → String) :
    ∀ (fuel offset limit : Nat) (body : PlaylistBody F), Strict (Reads .index) Refuses
      (readPlaylist format fuel offset limit body).run := by
  intro fuel
  induction fuel with
  | zero => exact fun _ _ _ => strict_throw _
  | succ fuel ih =>
      intro offset limit body
      rw [readPlaylist]
      split
      · exact strict_pure _
      split
      · exact strict_bind (strict_read _ _) fun _ => strict_pure _
      · refine strict_bind (strict_readRecord _) fun record => ?_
        exact strict_bind (strict_checked _) fun body => ih _ _ body

theorem strict_playlistBetween (checks : Bool) (format : UInt64 → String)
    (e : PravegaTimestamp) (first last : IndexRecord × Nat) : Strict (Reads .index) Refuses
      (playlistBetween (F := F) checks format e first last).run := by
  refine strict_bind (strict_checked _) fun indexEndOffset => ?_
  refine strict_bind (strict_checked _) fun indexSize => ?_
  split
  · exact strict_throw _
  · exact strict_bind (strict_readPlaylist format _ _ _ _) fun body => strict_pure _

section Beside

variable {σ : Type} {A : Arena σ StreamCmd StreamCmd.Res} {streams : σ → Streams}
  {fails : Prop} {x y m : σ}

theorem refused_of_rely (hs : Serves A streams .index fails) {e : Fault} (hx : A.inv x)
    (hxy : A.rely x y) (hy : A.inv y) (h : Refused streams .index fails y e m) :
    Refused streams .index fails x e m := by
  obtain ⟨io, he, hcase⟩ := h
  exact ⟨io, he, hcase.imp_right fun hgone =>
    ⟨hgone.1, Nat.lt_of_le_of_lt (hs.grows x y hx hxy hy).2 hgone.2⟩⟩

/-- The first record is gone. -/
theorem safe_playlistBetween_gone (hs : Serves A streams .index fails) {checks : Bool}
    (format : UInt64 → String) (e : PravegaTimestamp) (first last : IndexRecord) {o o' : Nat}
    (hle : o ≤ o') (hlt : o' + IndexRecord.recordSize < 2 ^ 63) (hy : A.inv y)
    (ho : o < ((streams y).get .index).head)
    (hx : ((streams x).get .index).head < ((streams y).get .index).head) :
    Safe A (playlistBetween (F := F) checks format e (first, o) (last, o')).run
      (fun a z => ∃ e, a = .error e ∧ A.inv z ∧ Refused streams .index fails x e z) y := by
  have hsize : ¬o' + IndexRecord.recordSize - o = 0 := by
    rw [IndexRecord.recordSize]
    omega
  rw [playlistBetween_of_le format e first last hle hlt, readPlaylist, if_neg hsize,
    if_neg (by omega)]
  refine safe_bindE ?_
  rw [readRecord_bind]
  intro y' hyy' hy' r z hexec
  have hhead := (hs.grows y y' hy hyy' hy').2
  obtain ⟨rfl, hguar, io, rfl, hrefused⟩ := hs.read_gone hy' (Nat.lt_of_lt_of_le ho hhead)
    (Nat.lt_of_lt_of_le hx hhead) hexec
  refine ⟨hy', hguar, fun z hz hiz => Or.inr ⟨_, rfl, fun z' hz' hiz' => ?_⟩⟩
  exact ⟨_, rfl, hiz', hrefused.rely hs hy' (A.rely_trans _ _ _ hz hz') hiz'⟩

/-- What a request that begins in `x` is answered with, in `y`. -/
inductive Answered (A : Arena σ StreamCmd StreamCmd.Res) (streams : σ → Streams) (fails : Prop)
    (checks : Bool) (format : UInt64 → String) (b e : PravegaTimestamp) (x y : σ) :
    Except Fault (Playlist F) → Prop where
  /-- The playlist of the moment `m₂`, from a record that was there at the moment `m₁`. -/
  | made {m₁ m₂ : σ} {last : Record} {a : Except Fault (Playlist F)} : A.rely x m₁ →
      A.inv m₁ → A.rely m₁ m₂ → A.inv m₂ → A.rely m₂ y → IsLast (streams m₁).index last →
      (∀ indexReader : ByteReader, indexReader.stream = (streams m₂).index →
        playlist checks format (streams m₂) indexReader (min b last.timestamp) e = a) →
      Answered A streams fails checks format b e x y a
  | empty {m : σ} : A.rely x m → A.inv m → A.rely m y → Holds (streams m).index [] →
      Answered A streams fails checks format b e x y (.error IndexSearcher.noRecords)
  | refused {f : Fault} : Refused streams .index fails x f y →
      Answered A streams fails checks format b e x y (.error f)

/-- A search at one moment. -/
theorem atOnce_search {checks : Bool} {t : PravegaTimestamp} {recs : List Record}
    {a : Except Fault (IndexRecord × Nat)} (hindex : Holds (streams m).index recs)
    (hrun : run Streams.answer (IndexSearcher.searchTimestampAndReturnIndexOffset checks .index t
      .after).run (streams m) = (a, streams m)) :
    (recs = [] ∧ a = .error IndexSearcher.noRecords) ∨
      ∃ i r, recs[i]? = some r ∧ Located recs t .after i ∧
        a = .ok (r.toIndexRecord, recordOffset (streams m) .index i) := by
  have hindex' : Holds ((streams m).get .index) recs := hindex
  rcases eq_or_ne recs [] with rfl | hne
  · exact Or.inl ⟨rfl, congrArg Prod.fst
      (hrun.symm.trans (yields_searchTimestamp_nil hindex' checks t .after).1)⟩
  · obtain ⟨i, r, hr, hlocated, hyields⟩ := yields_searchTimestamp hindex' checks hne t .after
    exact Or.inr ⟨i, r, hr, hlocated, congrArg Prod.fst (hrun.symm.trans hyields.1)⟩

/-- The second search has found its record in the snapshot, and the first one found one that
is in it too or is gone. -/
theorem safe_playlistBetween (hs : Serves A streams .index fails) {checks : Bool}
    (format : UInt64 → String) {b e : PravegaTimestamp} (hbe : b ≤ e) {m₁ m₂ : σ}
    {recs recs' : List Record} {i j : Nat} {first last : Record} (hx : A.inv x)
    (hxm : A.rely x m₁) (hm₁ : A.inv m₁) (hmm : A.rely m₁ m₂) (hm₂ : A.inv m₂)
    (hindex : Holds (streams m₁).index recs) (hinc : Increasing recs)
    (hindex' : Holds (streams m₂).index recs') (hinc' : Increasing recs')
    (hfirst : recs[i]? = some first) (hlocated : Located recs b .after i)
    (hlast : recs'[j]? = some last) (hend : searchAfter checks (streams m₂) e =
      .ok (last.toIndexRecord, (streams m₂).index.head + IndexRecord.recordSize * j)) :
    Safe A (playlistBetween (F := F) checks format e
        (first.toIndexRecord, recordOffset (streams m₁) .index i)
        (last.toIndexRecord, recordOffset (streams m₂) .index j)).run
      (fun a y => Answered A streams fails checks format b e x y a) m₂ := by
  obtain ⟨hbytes, hhead⟩ := hs.grows m₁ m₂ hm₁ hmm hm₂
  have hxhead := (hs.grows x m₁ hx hxm hm₁).2
  obtain ⟨hj, -⟩ := List.getElem?_eq_some_iff.mp hlast
  have hplace : ((streams m₁).get .index).head ≤ recordOffset (streams m₁) .index i :=
    Nat.le_add_right _ _
  have hplace' : ((streams m₂).get .index).head ≤ recordOffset (streams m₂) .index j :=
    Nat.le_add_right _ _
  have hwithin := recordOffset_le (show Holds ((streams m₂).get .index) recs' from hindex') hj
  have htail := ((streams m₂).get .index).tail_lt
  rw [← ByteStream.tail] at htail
  rcases Nat.lt_or_ge (recordOffset (streams m₁) .index i) ((streams m₂).get .index).head with
    hgone | hthere
  · refine (safe_playlistBetween_gone hs format e _ _ (x := x) (by omega) (by omega) hm₂ hgone
      (by omega)).mono ?_
    rintro a y ⟨f, rfl, -, hrefused⟩
    exact .refused hrefused
  obtain ⟨i', hsame, hbegin⟩ := searchAfter_later checks hindex hinc hindex' hinc' hbytes hhead
    hfirst hlocated hthere
  have hpos := Nat.zero_lt_of_lt hlocated.lt_length
  have hlatest := List.getElem?_eq_getElem (show recs.length - 1 < recs.length by omega)
  have hij := le_of_searches hindex' (le_trans (min_le_left _ _) hbe) hbegin hend
  rw [hsame]
  have hmade := yields_playlistBetween (F := F) format
    (.new (streams m₂).index false []) hindex' rfl hij hj hbegin hend
  refine (hs.safe (x := x) (strict_playlistBetween checks format e _ _) hm₂ hmade
    (by omega)).mono ?_
  rintro a y (⟨rfl, -, hmy⟩ | ⟨f, rfl, -, hrefused⟩)
  · have hislast : IsLast (streams m₁).index recs[recs.length - 1] :=
      ⟨recs, hindex, List.getLast?_eq_getElem?.trans hlatest⟩
    refine .made hxm hm₁ hmm hm₂ hmy hislast fun indexReader hreader => ?_
    rw [← timeAt_of_getElem? hlatest, playlist_eq format hindex' hreader hij hj hbegin hend,
      playlist_eq format hindex' rfl hij hj hbegin hend]
  · exact .refused hrefused

theorem safe_livePlaylist (hs : Serves A streams .index fails)
    (hordered : ∀ m, A.inv m → ∃ recs, Holds (streams m).index recs ∧
      Plugin.Nondecreasing recs ∧ Increasing recs) (checks : Bool) (format : UInt64 → String)
    {b e : PravegaTimestamp} (hbe : b ≤ e) (hx : A.inv x) :
    Safe A (livePlaylist (F := F) checks format b e).run
      (fun a y => Answered A streams fails checks format b e x y a) x := by
  have hsorted : ∀ m, A.inv m → ∃ recs, Holds ((streams m).get .index) recs ∧
      Plugin.Nondecreasing recs := by
    intro m hm
    obtain ⟨recs, hindex, hsorted, -⟩ := hordered m hm
    exact ⟨recs, hindex, hsorted⟩
  -- The begin of the playlist.
  refine safe_bindE ((Searcher.safe hs hsorted (.timestamp checks b .after) hx).and_inv.mono ?_)
  rintro a₁ y₁ ⟨⟨m₁, hxm₁, hm₁, hmy₁, hrun₁⟩ | ⟨f, rfl, hrefused⟩, hy₁⟩
  rotate_left
  · exact Or.inr ⟨f, rfl, fun y hyy hy => .refused (hrefused.rely hs hy₁ hyy hy)⟩
  obtain ⟨recs, hindex, -, hinc⟩ := hordered m₁ hm₁
  rcases atOnce_search hindex hrun₁ with ⟨rfl, rfl⟩ | ⟨i, first, hfirst, hlocated, rfl⟩
  · exact Or.inr ⟨_, rfl, fun y hyy _ => .empty hxm₁ hm₁ (A.rely_trans _ _ _ hmy₁ hyy) hindex⟩
  refine Or.inl ⟨_, rfl, ?_⟩
  -- Its end.
  refine safe_bindE ((Searcher.safe hs hsorted (.timestamp checks e .after) hy₁).and_inv.mono ?_)
  have hxy₁ := A.rely_trans _ _ _ hxm₁ hmy₁
  rintro a₂ y₂ ⟨⟨m₂, hym₂, hm₂, hmy₂, hrun₂⟩ | ⟨f, rfl, hrefused⟩, hy₂⟩
  rotate_left
  · exact Or.inr ⟨f, rfl, fun y hyy hy =>
      .refused ((refused_of_rely hs hx hxy₁ hy₁ hrefused).rely hs hy₂ hyy hy)⟩
  obtain ⟨recs', hindex', -, hinc'⟩ := hordered m₂ hm₂
  have hxm₂ := A.rely_trans _ _ _ hxy₁ hym₂
  rcases atOnce_search hindex' hrun₂ with ⟨rfl, rfl⟩ | ⟨j, last, hlast, hlocated', rfl⟩
  · exact Or.inr ⟨_, rfl, fun y hyy _ => .empty hxm₂ hm₂ (A.rely_trans _ _ _ hmy₂ hyy) hindex'⟩
  refine Or.inl ⟨_, rfl, ?_⟩
  have hend : searchAfter checks (streams m₂) e = _ := congrArg Prod.fst hrun₂
  exact (safe_playlistBetween hs format hbe hx hxm₁ hm₁ (A.rely_trans _ _ _ hmy₁ hym₂) hm₂ hindex
    hinc hindex' hinc' hfirst hlocated hlast hend).rely hmy₂

end Beside

end GstPravega.Server.Db
