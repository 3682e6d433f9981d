import GstPravega.Proofs.PlaylistStability

/-!
# Playlists over records without a timestamp

A record without a timestamp is behind a gap, whatever comes before it. The record that
follows it is compared with a timestamp that is not there, and if it has one itself the
loop panics. And some record that follows has one: a search for a time ends at a record with
a timestamp, unless it is clamped at the last record, where every other search then ends too.
-/

namespace GstPravega.Server.Db

open GstPravega.Lib GstPravega.Client GstPravega.Video

/-- A record without a timestamp has no record with one right behind it. -/
def Comparable (x : Record × Record) : Prop :=
  x.1.timestamp.isSome = true ∨ x.2.timestamp.isSome = false

instance (x : Record × Record) : Decidable (Comparable x) := inferInstanceAs (Decidable (_ ∨ _))

/-- The entry of two neighbours, which is the gap when one of them has no timestamp. -/
structure Judged {F : Type} (x : Record × Record) (entry : List (Line F)) : Prop where
  isEntry : IsEntry x.1 x.2 entry
  gap : x.1.timestamp.isSome = false ∨ x.2.timestamp.isSome = false →
    entry = [.discontinuity, .gapExtinf 5, .gap 5]

section Loop

variable {F : Type} [Add F] [Sub F] [Mul F] [LT F] [DecidableLT F] [OfScientific F] [F64 F]
  {format : UInt64 → String} {body : PlaylistBody F} {a b : Record}

theorem nanoseconds_of_isSome {t : PravegaTimestamp} (h : t.isSome = false) :
    t.nanoseconds = none := Option.isSome_eq_false_iff.mp h |> Option.isNone_iff_eq_none.mp

/-- A round of the loop behind another record. -/
theorem push_judged (format : UInt64 → String) (hprev : body.prevIndexRecord = some a.toIndexRecord)
    (h : Comparable (a, b)) :
    ∃ body' entry, body.push format b.toIndexRecord = some body' ∧
      body'.prevIndexRecord = some b.toIndexRecord ∧
      body'.playlistBody = body.playlistBody ++ entry ∧ Judged (a, b) entry := by
  cases hb : b.timestamp.isSome with
  | false =>
      rw [PlaylistBody.push, hprev]
      dsimp only
      rw [PlaylistBody.pushSegment, nanoseconds_of_isSome hb]
      exact ⟨_, _, rfl, rfl, rfl, .gap, fun _ => rfl⟩
  | true =>
      have ha : a.timestamp.isSome = true :=
        h.resolve_right fun hnone => Bool.noConfusion (hb.symm.trans hnone)
      obtain ⟨body', entry, hpush, hprev', hlines, hentry⟩ := push_entry format hprev ha hb
      refine ⟨body', entry, hpush, hprev', hlines, hentry, fun hnone => ?_⟩
      rcases hnone with hnone | hnone
      · exact Bool.noConfusion (ha.symm.trans hnone)
      · exact Bool.noConfusion (hb.symm.trans hnone)

/-- `unwrap` of the timestamp of the record before. -/
theorem push_panics (hprev : body.prevIndexRecord = some a.toIndexRecord)
    (h : ¬ Comparable (a, b)) : body.push format b.toIndexRecord = none := by
  obtain ⟨ha, hb⟩ := not_or.mp h
  obtain ⟨t, ht⟩ := Option.isSome_iff_exists.mp (Bool.eq_true_of_not_eq_false hb)
  rw [PlaylistBody.push, hprev]
  dsimp only
  rw [PlaylistBody.pushSegment, ht, nanoseconds_of_isSome (Bool.eq_false_iff.mpr ha)]
  rfl

/-- Records behind another: one entry for each pair of neighbours, or a panic. The induction
is on the records. -/
theorem bodyOf_judged (format : UInt64 → String) {rs : List Record} :
    ∀ {body : PlaylistBody F} {a : Record}, body.prevIndexRecord = some a.toIndexRecord →
      ((∀ x ∈ (a :: rs).consecutivePairs, Comparable x) ∧
        ∃ body' entries, bodyOf format rs body = some body' ∧
          body'.playlistBody = body.playlistBody ++ entries.flatten ∧
          List.Forall₂ Judged (a :: rs).consecutivePairs entries) ∨
      ((∃ x ∈ (a :: rs).consecutivePairs, ¬ Comparable x) ∧ bodyOf format rs body = none) := by
  induction rs with
  | nil =>
      intro body a _
      exact Or.inl ⟨fun _ h => absurd h List.not_mem_nil, body, [], rfl,
        (List.append_nil _).symm, .nil⟩
  | cons b rs ih =>
      intro body a hprev
      by_cases hab : Comparable (a, b)
      · obtain ⟨body₁, entry, hpush, hprev₁, hlines₁, hentry⟩ := push_judged format hprev hab
        have hbody : bodyOf format (b :: rs) body = bodyOf format rs body₁ := by
          rw [bodyOf, List.foldlM_cons, hpush]
          rfl
        rw [hbody]
        rcases ih hprev₁ with ⟨hall, body₂, entries, hbody₂, hlines₂, hentries⟩ | ⟨hsome, hnone⟩
        · refine Or.inl ⟨List.forall_mem_cons.mpr ⟨hab, hall⟩, body₂, entry :: entries, hbody₂,
            ?_, .cons hentry hentries⟩
          rw [hlines₂, hlines₁, List.flatten_cons, List.append_assoc]
        · obtain ⟨x, hx, hnot⟩ := hsome
          exact Or.inr ⟨⟨x, List.mem_cons_of_mem _ hx, hnot⟩, hnone⟩
      · refine Or.inr ⟨⟨(a, b), List.mem_cons_self, hab⟩, ?_⟩
        rw [bodyOf, List.foldlM_cons, push_panics hprev hab]
        rfl

/-- The body of a playlist over any records. -/
theorem bodyOf_initial_judged (format : UInt64 → String) (rs : List Record) :
    ((∀ x ∈ rs.consecutivePairs, Comparable x) ∧
      ∃ (body : PlaylistBody F) (entries : List (List (Line F))),
        bodyOf format rs PlaylistBody.initial = some body ∧ body.playlistBody = entries.flatten ∧
        List.Forall₂ Judged rs.consecutivePairs entries) ∨
    ((∃ x ∈ rs.consecutivePairs, ¬ Comparable x) ∧
      bodyOf format rs (PlaylistBody.initial : PlaylistBody F) = none) := by
  cases rs with
  | nil => exact Or.inl ⟨fun _ h => absurd h List.not_mem_nil, PlaylistBody.initial, [], rfl, rfl,
      .nil⟩
  | cons r rs =>
      let first : PlaylistBody F :=
        { (PlaylistBody.initial : PlaylistBody F) with prevIndexRecord := some r.toIndexRecord }
      have hbody : bodyOf format (r :: rs) (PlaylistBody.initial : PlaylistBody F) =
          bodyOf format rs first := by
        rw [bodyOf, List.foldlM_cons]
        rfl
      rw [hbody]
      exact bodyOf_judged format (show first.prevIndexRecord = some r.toIndexRecord from rfl)

end Loop

section Playlist

variable {F : Type} [Add F] [Sub F] [Mul F] [LT F] [DecidableLT F] [OfScientific F] [F64 F]
  {w : Streams} {recs : List Record}

/-- A run that ends with a timestamp has no other records. The induction is on the
records. -/
theorem isSome_of_comparable {rs : List Record} {last : Record} (hlast : rs.getLast? = some last)
    (htime : last.timestamp.isSome = true) (h : ∀ x ∈ rs.consecutivePairs, Comparable x) :
    ∀ r ∈ rs, r.timestamp.isSome = true := by
  induction rs with
  | nil => cases hlast
  | cons a rs ih =>
      cases rs with
      | nil =>
          obtain rfl : a = last := Option.some.inj hlast
          exact List.forall_mem_singleton.mpr htime
      | cons b rs =>
          rw [List.getLast?_cons_cons] at hlast
          obtain ⟨hab, hrest⟩ := List.forall_mem_cons.mp h
          have hall := ih hlast hrest
          refine List.forall_mem_cons.mpr ⟨hab.resolve_right fun hnone => ?_, hall⟩
          exact Bool.noConfusion ((hall b List.mem_cons_self).symm.trans hnone)

theorem getLast?_selected {i j : Nat} {last : Record} (hij : i ≤ j) (hlast : recs[j]? = some last) :
    (selected recs i j).getLast? = some last := by
  have hj := (List.getElem?_eq_some_iff.mp hlast).1
  have hlen : (selected recs i j).length = j - i + 1 := by
    rw [selected, List.length_take, List.length_drop]
    omega
  rw [List.getLast?_eq_getElem?, hlen, selected, List.getElem?_take_of_lt (by omega),
    List.getElem?_drop, ← hlast]
  congr 1
  omega

/-- A search for a time ends at a record with a timestamp. It may be clamped at one without,
and then so is the search for any other time. -/
theorem isSome_of_located {b e : PravegaTimestamp} {i j : Nat} {last : Record} (hij : i ≤ j)
    (hb : Located recs b .after i) (he : Located recs e .after j) (hlast : recs[j]? = some last) :
    i = j ∨ last.timestamp.isSome = true := by
  cases htime : last.timestamp.isSome with
  | true => exact Or.inr rfl
  | false =>
      have hnone : timeAt recs j = PravegaTimestamp.none := by
        rw [timeAt_of_getElem? hlast]
        exact congrArg PravegaTimestamp.mk (nanoseconds_of_isSome htime)
      have hnot : ∀ t : PravegaTimestamp, ¬ t < timeAt recs j := fun t hlt => by
        rw [hnone, PravegaTimestamp.lt_iff] at hlt
        exact Nat.not_lt_zero _ hlt
      left
      by_cases habove : timeAt recs (recs.length - 1) ≤ e
      · have hj := he.above habove
        rw [hb.above ((hj ▸ not_lt.mp (hnot b))), hj]
      · by_cases hbelow : e ≤ timeAt recs 0
        · have hj := he.below (not_le.mp habove) hbelow
          omega
        · rcases he.between (not_le.mp hbelow) (not_le.mp habove) with heq | ⟨h, -⟩ | ⟨-, -, -, hlt⟩
          · exact absurd (heq ▸ not_le.mp hbelow) (hnot _)
          · cases h
          · exact absurd hlt (hnot e)

theorem comparable_selected_iff {b e : PravegaTimestamp} {i j : Nat} {last : Record}
    (hij : i ≤ j) (hb : Located recs b .after i) (he : Located recs e .after j)
    (hlast : recs[j]? = some last) : (∀ x ∈ (selected recs i j).consecutivePairs, Comparable x) ↔
      i = j ∨ ∀ r ∈ selected recs i j, r.timestamp.isSome = true := by
  constructor
  · intro hall
    exact (isSome_of_located hij hb he hlast).imp_right fun htime =>
      isSome_of_comparable (getLast?_selected hij hlast) htime hall
  · rintro (rfl | hall) x hx
    · have hone : selected recs i i = [last] := by
        have hlen := (List.getElem?_eq_some_iff.mp hlast).1
        rw [selected, Nat.sub_self, List.drop_eq_getElem_cons hlen,
          (List.getElem?_eq_some_iff.mp hlast).2]
        rfl
      rw [hone] at hx
      cases hx
    · exact Or.inl (hall _ (List.of_mem_zip hx).1)

/-- **Playlists over any index.** The two searches find the ends of a run of records. The
playlist has one entry for each pair of neighbours of the run, with the gap for a pair with a
missing timestamp, exactly where the run is one record or has no record without a timestamp.
Elsewhere the handler panics. -/
theorem playlist_judged_iff (checks : Bool) (format : UInt64 → String)
    {indexReader : ByteReader} {b e : PravegaTimestamp} (hindex : Holds w.index recs)
    (hne : recs ≠ []) (hreader : indexReader.stream = w.index) (hbe : b ≤ e) :
    ∃ i j first last, i ≤ j ∧ recs[i]? = some first ∧ recs[j]? = some last ∧
      searchAfter checks w b =
        .ok (first.toIndexRecord, w.index.head + IndexRecord.recordSize * i) ∧
      searchAfter checks w e =
        .ok (last.toIndexRecord, w.index.head + IndexRecord.recordSize * j) ∧
      ((∃ (pl : Playlist F) (entries : List (List (Line F))),
          playlist checks format w indexReader b e = .ok pl ∧ pl.body = entries.flatten ∧
          List.Forall₂ Judged (selected recs i j).consecutivePairs entries) ↔
        i = j ∨ ∀ r ∈ selected recs i j, r.timestamp.isSome = true) ∧
      (¬ (i = j ∨ ∀ r ∈ selected recs i j, r.timestamp.isSome = true) →
        playlist (F := F) checks format w indexReader b e = .error .panicked) := by
  obtain ⟨i, first, hfirst, hloc, hbegin⟩ := searchAfter_record hindex hne checks b
  obtain ⟨j, last, hlast, hloc', hend⟩ := searchAfter_record hindex hne checks e
  have hij := le_of_searches hindex hbe hbegin hend
  have hplaylist := playlist_eq (F := F) format hindex hreader hij hloc'.lt_length hbegin hend
  refine ⟨i, j, first, last, hij, hfirst, hlast, hbegin, hend, ?_⟩
  rw [← comparable_selected_iff hij hloc hloc' hlast]
  rcases bodyOf_initial_judged (F := F) format (selected recs i j) with
    ⟨hall, body, entries, hbody, hlines, hjudged⟩ | ⟨⟨x, hx, hnot⟩, hnone⟩
  · rw [hbody] at hplaylist
    exact ⟨⟨fun _ => hall, fun _ => ⟨_, entries, hplaylist, hlines, hjudged⟩⟩,
      fun hnot => absurd hall hnot⟩
  · rw [hnone] at hplaylist
    refine ⟨⟨?_, fun hall => absurd (hall x hx) hnot⟩, fun _ => hplaylist⟩
    rintro ⟨pl, entries, hpl, -⟩
    cases hplaylist.symm.trans hpl

end Playlist

/-- The second record is earlier than the first. -/
def rewoundStreams : Streams :=
  ⟨⟨0, [], ByteStream.nil_tail_lt⟩,
    ⟨0, (unorderedRecords.eraseIdx 2).flatMap Record.frame, by decide⟩⟩

theorem playlist_judged_rewound : ∃ (pl : Playlist Rat) (entries : List (List (Line Rat))),
    playlist true (fun _ => "now") rewoundStreams (.new rewoundStreams.index false []) .min .max =
      .ok pl ∧ pl.body = entries.flatten ∧
    List.Forall₂ Judged (unorderedRecords.eraseIdx 2).consecutivePairs entries := by
  have hindex : Holds rewoundStreams.index (unorderedRecords.eraseIdx 2) :=
    ⟨by decide, by decide, rfl⟩
  have hreader : (ByteReader.new rewoundStreams.index false []).stream = rewoundStreams.index := rfl
  obtain ⟨i, j, first, last, -, -, -, hbegin, hend, hiff, -⟩ :=
    playlist_judged_iff (F := Rat) true (fun _ => "now") hindex (by decide) hreader
      (show PravegaTimestamp.min ≤ PravegaTimestamp.max by decide)
  have hi : (searchAfter true rewoundStreams .min).map Prod.snd = .ok 0 := by decide +kernel
  have hj : (searchAfter true rewoundStreams .max).map Prod.snd = .ok 40 := by decide +kernel
  rw [hbegin] at hi
  rw [hend] at hj
  have hi : 0 + 20 * i = 0 := Except.ok.inj hi
  have hj : 0 + 20 * j = 40 := Except.ok.inj hj
  obtain rfl : i = 0 := by omega
  obtain rfl : j = 2 := by omega
  exact hiff.mpr (Or.inr (by decide))

/-- Times at 5 and 1, a record without a timestamp, and one at 9. -/
theorem playlist_panics_unordered : Holds unorderedStreams.index unorderedRecords ∧
    PravegaTimestamp.min ≤ PravegaTimestamp.max ∧
    playlist (F := Rat) true (fun _ => "now") unorderedStreams
      (.new unorderedStreams.index false []) .min .max = .error .panicked :=
  ⟨⟨by decide, by decide, rfl⟩, by decide, by decide +kernel⟩

end GstPravega.Server.Db
