import GstPravega.Lib.MovingAverage
import GstPravega.Proofs.PlaylistStability

/-!
# The target duration of a playlist

The target duration that a playlist declares is a moving average of the durations of its
media, rounded. A segment is listed when it is at most a second longer than the average so
far. The average then follows it a tenth of the way, and may go down again with what comes
behind. So the declared value is a bound for no segment, but it is not far from the last
one, and how far it is from the others depends on how many come behind.
-/

namespace GstPravega.Server.Db

open GstPravega.Lib GstPravega.Client GstPravega.Video

section Round

variable {F : Type} [Add F] [Sub F] [Mul F] [LT F] [DecidableLT F] [OfScientific F] [F64 F]

/-- What a round of the loop does: it remembers a first record, or lists a gap, or media
that is at most a second longer than the average. -/
inductive Pushed (body body' : PlaylistBody F) : Prop where
  | first : body'.playlistBody = body.playlistBody →
      body'.targetDurationSeconds = body.targetDurationSeconds → Pushed body body'
  | gap : body'.playlistBody =
        body.playlistBody ++ [.discontinuity, .gapExtinf 5, .gap 5] →
      body'.targetDurationSeconds = body.targetDurationSeconds → Pushed body body'
  | media (nanos : UInt64) (time : String) («begin» «end» : Nat) :
      ¬ (F64.ofU64 nanos * 1e-9 : F) > body.targetDurationSeconds + 1.0 →
      body'.playlistBody = body.playlistBody ++
        (if body.nextSegmentDiscont then [.discontinuity] else []) ++
        [.extinf (F64.ofU64 nanos * 1e-9), .programDateTime time, .media «begin» «end»] →
      body'.targetDurationSeconds = 0.1 * (F64.ofU64 nanos * 1e-9) +
        (1.0 - 0.1) * body.targetDurationSeconds → Pushed body body'

theorem push_pushed {format : UInt64 → String} {body body' : PlaylistBody F} {c : IndexRecord}
    (h : body.push format c = some body') : Pushed body body' := by
  rw [PlaylistBody.push] at h
  obtain ⟨pushed, hpushed, rfl⟩ := Option.map_eq_some_iff.mp h
  split at hpushed
  · next a _ =>
      rw [PlaylistBody.pushSegment] at hpushed
      split at hpushed
      · next t _ =>
          split at hpushed
          · next t' _ =>
              split at hpushed
              · cases hpushed
                exact .gap rfl rfl
              · dsimp only at hpushed
                split at hpushed
                · cases hpushed
                  exact .gap rfl rfl
                · next hlong =>
                    obtain ⟨time, -, rfl⟩ := Option.map_eq_some_iff.mp hpushed
                    exact .media (t - t') time a.offset c.offset hlong rfl rfl
          · cases hpushed
      · cases hpushed
        exact .gap rfl rfl
  · cases hpushed
    exact .first rfl rfl

end Round

/-! ## With exact durations -/

/-- The durations of the media, in order. -/
def durations (body : List (Line Rat)) : List Rat :=
  body.filterMap fun line =>
    match line with
    | .extinf durationSeconds => some durationSeconds
    | _ => none

/-- The average in effect behind media of these durations. -/
def average (ds : List Rat) : Rat := movingAverage 0.1 10 ds

/-- The durations that may be listed one behind the other. -/
def Listed (ds : List Rat) : Prop :=
  ∀ pre d post, ds = pre ++ d :: post → 0 ≤ d ∧ d ≤ average pre + 1

/-- What the loop keeps. -/
structure Averaged (body : PlaylistBody Rat) : Prop where
  target : body.targetDurationSeconds = average (durations body.playlistBody)
  listed : Listed (durations body.playlistBody)
  gaps : ∀ n, .gapExtinf n ∈ body.playlistBody → n = 5

theorem durations_append (xs ys : List (Line Rat)) :
    durations (xs ++ ys) = durations xs ++ durations ys := List.filterMap_append

theorem listed_snoc {ds : List Rat} {d : Rat} (h : Listed ds) (h0 : 0 ≤ d)
    (hd : d ≤ average ds + 1) : Listed (ds ++ [d]) := by
  intro pre x post heq
  rcases List.eq_nil_or_concat post with rfl | ⟨post, y, rfl⟩
  · obtain ⟨rfl, hx⟩ := List.append_inj' heq rfl
    obtain rfl := List.singleton_inj.mp hx
    exact ⟨h0, hd⟩
  · rw [List.concat_eq_append, ← List.cons_append, ← List.append_assoc] at heq
    exact h pre x post (List.append_inj_left' heq rfl)

theorem Pushed.averaged {body body' : PlaylistBody Rat} (h : Pushed body body')
    (hbody : Averaged body) : Averaged body' := by
  cases h with
  | first hlines htarget =>
      refine ⟨?_, ?_, ?_⟩
      · rw [htarget, hlines, hbody.target]
      · rw [hlines]
        exact hbody.listed
      · rw [hlines]
        exact hbody.gaps
  | gap hlines htarget =>
      have hdurations : durations body'.playlistBody = durations body.playlistBody := by
        rw [hlines, durations_append]
        exact List.append_nil _
      refine ⟨?_, ?_, ?_⟩
      · rw [htarget, hdurations, hbody.target]
      · rw [hdurations]
        exact hbody.listed
      · intro n hn
        rw [hlines] at hn
        rcases List.mem_append.mp hn with hn | hn
        · exact hbody.gaps n hn
        · simpa using hn
  | media nanos time «begin» «end» hlong hlines htarget =>
      have hdurations : durations body'.playlistBody =
          durations body.playlistBody ++ [F64.ofU64 nanos * 1e-9] := by
        rw [hlines, durations_append, durations_append]
        cases body.nextSegmentDiscont <;> simp [durations]
      have h0 : (0 : Rat) ≤ F64.ofU64 nanos * 1e-9 :=
        mul_nonneg (Nat.cast_nonneg _) (by norm_num)
      refine ⟨?_, ?_, ?_⟩
      · rw [htarget, hdurations, average, movingAverage_append, ← average, hbody.target]
        norm_num [movingAverage]
      · rw [hdurations]
        refine listed_snoc hbody.listed h0 ?_
        rw [← hbody.target]
        have hle := not_lt.mp hlong
        norm_num at hle ⊢
        exact hle
      · intro n hn
        rw [hlines] at hn
        rcases List.mem_append.mp hn with hn | hn
        · rcases List.mem_append.mp hn with hn | hn
          · exact hbody.gaps n hn
          · split at hn <;> simp at hn
        · simp at hn

/-- The induction is on the records. -/
theorem averaged_of_bodyOf {format : UInt64 → String} {rs : List Record}
    {body body' : PlaylistBody Rat} (hbody : Averaged body)
    (h : bodyOf format rs body = some body') : Averaged body' := by
  induction rs generalizing body with
  | nil =>
      cases h
      exact hbody
  | cons r rs ih =>
      rw [bodyOf, List.foldlM_cons] at h
      obtain ⟨body₁, hpush, h⟩ := Option.bind_eq_some_iff.mp h
      exact ih ((push_pushed hpush).averaged hbody) h

theorem averaged_initial : Averaged PlaylistBody.initial := by
  refine ⟨?_, fun pre d post h => ?_, fun n hn => absurd hn List.not_mem_nil⟩
  · show (10.0 : Rat) = 10
    norm_num
  · cases List.append_eq_nil_iff.mp h.symm with
    | intro _ h => cases h

theorem average_nonneg {ds : List Rat} (h : ∀ d ∈ ds, 0 ≤ d) :
    10 * (9 / 10) ^ ds.length ≤ average ds := by
  have hle := pow_mul_le_movingAverage (t := 10) (show (0 : Rat) ≤ 0.1 by norm_num)
    (by norm_num) h
  rw [mul_comm, average]
  norm_num at hle ⊢
  exact hle

theorem Listed.nonneg {ds : List Rat} (h : Listed ds) : ∀ d ∈ ds, 0 ≤ d := by
  intro d hd
  obtain ⟨pre, post, rfl⟩ := List.append_of_mem hd
  exact (h pre d post rfl).1

theorem round_of_nonneg {x : Rat} (h : 0 ≤ x) : F64.round x = ((x + 1 / 2).floor : Rat) :=
  if_neg (not_lt.mpr h)

theorem round_le_add_one {x y : Rat} (hx : 0 ≤ x) (hy : 0 ≤ y) (h : x ≤ y + 1) :
    (F64.round x : Rat) ≤ F64.round y + 1 := by
  have hle : x + 1 / 2 ≤ y + 1 / 2 + 1 := by linarith
  have hfloor := Rat.floor_monotone hle
  rw [Rat.floor_add_one] at hfloor
  rw [round_of_nonneg hx, round_of_nonneg hy]
  exact_mod_cast hfloor

/-- What a playlist says of its durations. `durations` are those of its media, in order. -/
structure Declares (pl : Playlist Rat) : Prop where
  target : pl.targetDurationSeconds = F64.round (average (durations pl.body))
  /-- Media is at most a second longer than the average so far. -/
  listed : Listed (durations pl.body)
  gaps : ∀ n, .gapExtinf n ∈ pl.body → n = 5
  /-- Media with other media behind it. -/
  behind : ∀ pre d post, durations pl.body = pre ++ d :: post →
    (9 / 10) ^ post.length * (d - 9 / 10) ≤ average (durations pl.body)
  last : ∀ pre d, durations pl.body = pre ++ [d] → F64.round d ≤ pl.targetDurationSeconds + 1
  least : 10 * (9 / 10) ^ (durations pl.body).length ≤ average (durations pl.body)

theorem le_average_of_listed {ds pre post : List Rat} {d : Rat} (h : Listed ds)
    (hsplit : ds = pre ++ d :: post) : (9 / 10) ^ post.length * (d - 9 / 10) ≤ average ds := by
  have hpost : ∀ x ∈ post, 0 ≤ x := fun x hx => h.nonneg x
    (hsplit ▸ List.mem_append_right _ (List.mem_cons_of_mem _ hx))
  have hle := pow_mul_sub_le_movingAverage (show (0 : Rat) ≤ 0.1 by norm_num) (by norm_num) hpost
    (h pre d post hsplit).2
  rw [hsplit, average]
  norm_num at hle ⊢
  exact hle

/-- **The declared target duration.** In a playlist of whatever records, it is the rounded
average of the durations of the media, in which each one counts for a tenth of what comes
behind it. -/
theorem playlist_declares {checks : Bool} {format : UInt64 → String} {w : Streams}
    {recs : List Record} {indexReader : ByteReader} {b e : PravegaTimestamp} {pl : Playlist Rat}
    (hindex : Holds w.index recs) (hreader : indexReader.stream = w.index) (hbe : b ≤ e)
    (hpl : playlist checks format w indexReader b e = .ok pl) : Declares pl := by
  have hne := ne_nil_of_playlist hindex hpl
  obtain ⟨i, first, _, _, hbegin⟩ := searchAfter_record hindex hne checks b
  obtain ⟨j, last, _, hloc, hend⟩ := searchAfter_record hindex hne checks e
  have hij := le_of_searches hindex hbe hbegin hend
  have hplaylist := playlist_eq (F := Rat) format hindex hreader hij hloc.lt_length hbegin hend
  obtain ⟨body, hbody, rfl⟩ := of_checked_map (hplaylist.symm.trans hpl)
  obtain ⟨htarget, hlisted, hgaps⟩ := averaged_of_bodyOf averaged_initial hbody
  have hleast := average_nonneg hlisted.nonneg
  refine ⟨congrArg F64.round htarget, hlisted, hgaps,
    fun pre d post hsplit => le_average_of_listed hlisted hsplit, fun pre d hsplit => ?_, hleast⟩
  have haverage : 0 ≤ average (durations body.playlistBody) :=
    le_trans (by positivity) hleast
  have hle := le_average_of_listed hlisted hsplit
  rw [List.length_nil, pow_zero, one_mul] at hle
  dsimp only
  rw [htarget]
  exact round_le_add_one (hlisted pre d [] hsplit).1 haverage (by linarith)

/-- Two records, eleven seconds apart. -/
def elevenRecords : List Record :=
  [⟨⟨⟨some 39000000000⟩, 0, true, true⟩, by decide, by decide⟩,
    ⟨⟨⟨some 50000000000⟩, 21, true, false⟩, by decide, by decide⟩]

def elevenStreams : Streams :=
  ⟨⟨0, [], ByteStream.nil_tail_lt⟩, ⟨0, elevenRecords.flatMap Record.frame, by decide⟩⟩

theorem playlist_eleven :
    playlist true (fun _ => "now") elevenStreams (.new elevenStreams.index false []) .min .max =
      .ok (⟨0, 10, [.extinf 11, .programDateTime "now", .media 0 21], false⟩ : Playlist Rat) := by
  decide +kernel

theorem playlist_declares_eleven :
    Declares ⟨0, 10, [.extinf 11, .programDateTime "now", .media 0 21], false⟩ :=
  playlist_declares (⟨by decide, by decide, rfl⟩ : Holds elevenStreams.index elevenRecords) rfl
    (by decide) playlist_eleven

/-- A segment of eleven seconds under a target duration of ten. -/
theorem target_exceeded_eleven : Holds elevenStreams.index elevenRecords ∧
    (∀ r ∈ elevenRecords, r.timestamp.isSome = true) ∧ ∃ pl : Playlist Rat,
      playlist true (fun _ => "now") elevenStreams (.new elevenStreams.index false [])
        .min .max = .ok pl ∧
      .extinf 11 ∈ pl.body ∧ F64.round 11 > pl.targetDurationSeconds :=
  ⟨⟨by decide, by decide, rfl⟩, by decide, _, playlist_eleven, List.mem_cons_self,
    by decide +kernel⟩

end GstPravega.Server.Db
