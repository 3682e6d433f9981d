import GstPravega.Proofs.LivePlaylist
import GstPravega.Proofs.RetentionRuns

/-!
# A player that polls while the camera records

A sink records and truncators truncate, and a player asks for a playlist again and again.
Each answer is the playlist of one moment (`safe_livePlaylist`). Over these moments the
records have the same numbers, since they are counted from the creation of the index, and the
window of the playlist moves in one direction: neither its begin nor its end goes back. What is
listed can be fetched until its record is truncated away.
-/

namespace GstPravega.Plugin.Store

open GstPravega.Lib GstPravega.Client GstPravega.Video GstPravega.Server GstPravega.Server.Db
  Program

/-! ## The recording -/

/-- The index since it was created, in the order of time, and the events it points to. -/
structure Recording (s : Store) (all : List Record) (evs : List Event) : Prop where
  indexes : Indexes 0 s all
  increasing : Increasing all
  timed : ∀ r ∈ all, r.timestamp.isSome = true
  data : s.data.bytes = evs.flatMap Event.frame
  boundary : ∀ r ∈ all, Boundary Event.frame evs r.offset

/-- A sink that goes on with a recording. -/
def Continues (s s' : Store) : Prop := Append s s' ∧ ∃ all evs, Recording s' all evs

/-- What any interleaving of the sink and the truncators leads to. -/
abbrev Proceeds := Pool.Reaches Exec Truncator Continues

/-- A recording that truncators are at. -/
def Live (x : Store × List (Program StreamCmd StreamCmd.Res (Except Fault Unit))) : Prop :=
  Pool.Good (arena 0) x ∧ ∃ all evs, Recording x.1 all evs

variable {s s' : Store} {all all' : List Record} {evs evs' : List Event}
  {x y z : Store × List (Program StreamCmd StreamCmd.Res (Except Fault Unit))}

theorem Recording.extends (h : Recording s all evs) (hs : Flows s s')
    (h' : Recording s' all' evs') :
    (∃ more, all' = all ++ more) ∧ ∃ more, evs' = evs ++ more := by
  refine ⟨h.indexes.extends hs.grows h'.indexes, ?_⟩
  obtain ⟨bytes, hbytes⟩ := hs.data_bytes
  rw [h.data, h'.data] at hbytes
  exact flatMap_prefix Event.frame_delimiting Event.frame_injective hbytes

/-- Truncators move the heads only. -/
theorem exec_bytes {c : StreamCmd} {r : c.Res} (h : Exec c s r s') :
    s'.index.bytes = s.index.bytes ∧ s'.data.bytes = s.data.bytes ∧ s'.indexed = s.indexed := by
  cases c with
  | truncateDataBefore stream o =>
      rcases h with rfl | ⟨rfl, -⟩
      · cases stream <;> exact ⟨rfl, rfl, rfl⟩
      · exact ⟨rfl, rfl, rfl⟩
  | currentHead stream => exact h.1 ▸ ⟨rfl, rfl, rfl⟩
  | seekEnd stream => exact h.1 ▸ ⟨rfl, rfl, rfl⟩
  | read stream o n => exact h.1 ▸ ⟨rfl, rfl, rfl⟩

theorem Live.step (hx : Live x) (hstep : Pool.Step Exec Truncator Continues x y) :
    Live y ∧ Flows x.1 y.1 := by
  obtain ⟨hgood, all, evs, hrec⟩ := hx
  obtain ⟨hgood', hgrows⟩ := hgood.step (fun _ hp _ _ => safe_truncator hp)
    (fun _ _ hi h => consistent_append hi h.1) (fun _ _ _ _ h => h) hstep
  cases hstep with
  | env he => exact ⟨⟨hgood', he.2⟩, flows_append he.1 hgrows⟩
  | spawn hp => exact ⟨⟨hgood', all, evs, hrec⟩, .refl _⟩
  | exec he =>
      obtain ⟨hindex, hdata, hindexed⟩ := exec_bytes he
      obtain ⟨all', hindexes⟩ := hgood'.1
      have hbytes := hindexes.bytes
      rw [show _ = _ from hindex, hrec.indexes.bytes] at hbytes
      obtain rfl : all = all' :=
        flatMap_injective Record.frame_delimiting Record.frame_injective hbytes
      exact ⟨⟨hgood', all, evs, hindexes, hrec.increasing, hrec.timed, hdata.trans hrec.data,
        hrec.boundary⟩, hgrows, hdata ▸ List.prefix_rfl, Nat.le_of_eq hindexed.symm⟩
  | die => exact ⟨⟨hgood', all, evs, hrec⟩, .refl _⟩

/-- The recording goes on, and nothing of it changes. -/
theorem Live.proceeds (hx : Live x) (hxy : Proceeds x y) : Live y ∧ Flows x.1 y.1 := by
  induction hxy with
  | refl => exact ⟨hx, .refl _⟩
  | step _ hstep ih =>
      obtain ⟨hlive, hflows⟩ := ih.1.step hstep
      exact ⟨hlive, ih.2.trans _ _ _ hflows⟩

/-! ## One request -/

section Request

variable {F : Type} [Add F] [Sub F] [Mul F] [LT F] [DecidableLT F] [OfScientific F] [F64 F]
  {fails : Prop}

/-- A request beside them. -/
def polling (fails : Prop) :
    Arena (Store × List (Program StreamCmd StreamCmd.Res (Except Fault Unit))) StreamCmd
      StreamCmd.Res where
  exec := (beside 0 fails).exec
  rely := Proceeds
  inv := Live
  guar _ _ _ _ := True
  rely_refl _ := .refl
  rely_trans _ _ _ h h' := h.trans h'

theorem serves_polling (fails : Prop) :
    Serves (polling fails) (fun x => x.1.streams) .index fails where
  holds _ hx := (serves_beside 0 fails).holds _ hx.1
  grows _ _ hx hxy _ :=
    have hgrows := (hx.proceeds hxy).2.grows
    ⟨hgrows.index_prefix, hgrows.index_head⟩
  exec c x r y hlooks hx hexec := (serves_beside 0 fails).exec c x r y hlooks hx.1 hexec

/-- A request that is left alone. -/
theorem outcome_alone {α : Type} {p : Program StreamCmd StreamCmd.Res α} {a : α} {w : Streams}
    (hrun : run Streams.answer p s.streams = (a, w))
    (ps : List (Program StreamCmd StreamCmd.Res (Except Fault Unit))) :
    Outcome (polling False) p (s, ps) a (⟨w, s.indexed⟩, ps) := by
  induction p generalizing s with
  | ret a =>
      cases hrun
      exact .ret .refl
  | call c k ih =>
      have hexec : (polling False).exec c (s, ps) (answerAll c s).1 ((answerAll c s).2, ps) :=
        ⟨exec_answerAll c s, rfl, fun _ => rfl⟩
      exact .call .refl hexec (ih _ hrun)

/-- What is left of the recording. -/
theorem Recording.left (h : Recording s all evs) :
    ∃ k, s.index.head = IndexRecord.recordSize * k ∧ Holds s.index (all.drop k) ∧
      Nondecreasing (all.drop k) ∧ Increasing (all.drop k) := by
  obtain ⟨k, hhead, hindex⟩ := h.indexes.left
  rw [Nat.zero_add] at hhead
  exact ⟨k, hhead, hindex, h.indexes.sorted.sublist (List.drop_sublist k all),
    increasing_drop h.increasing k⟩

theorem live_nil (h : Recording s all evs) : Live (s, []) :=
  ⟨⟨⟨all, h.indexes⟩, fun _ hp => nomatch hp⟩, all, evs, h⟩

theorem answered (hx : Live x) (checks : Bool) (format : UInt64 → String)
    {b e : PravegaTimestamp} (hbe : b ≤ e) {a : Except Fault (Playlist F)}
    (hcall : Outcome (polling fails) (livePlaylist checks format b e).run x a y) :
    Answered (polling fails) (fun x => x.1.streams) fails checks format b e x y a ∧ Live y := by
  have hsafe := safe_livePlaylist (F := F) (serves_polling fails) (fun m hm => ?_) checks format
    hbe hx
  · exact hsafe.outcome (fun _ _ hs hrely => (hs.proceeds hrely).1) hx hcall
  · obtain ⟨-, all, evs, hrec⟩ := hm
    obtain ⟨k, -, hleft⟩ := hrec.left
    exact ⟨_, hleft⟩

/-- Where there is a last record, there is one later. -/
theorem IsLast.ne_nil {last : Record} {recs : List Record} (h : IsLast s.index last)
    (hs : Grows s s') (hindex : Holds s'.index recs) : recs ≠ [] := by
  obtain ⟨recs₀, hindex₀, hlast⟩ := h
  rintro rfl
  have hpos := List.length_pos_iff.mpr (List.ne_nil_of_mem (List.mem_of_getLast? hlast))
  have htail := hindex₀.tail_eq
  have htail' := hindex.tail_eq
  have hnonempty := hs.nonempty (by rw [htail, IndexRecord.recordSize]; omega)
  rw [htail'] at hnonempty
  exact absurd hnonempty (Nat.lt_irrefl _)

/-- There is a playlist of what a recording holds. -/
theorem Recording.exists_playlist (h : Recording s all evs) {k : Nat}
    (hindex : Holds s.index (all.drop k)) (hne : all.drop k ≠ []) (checks : Bool)
    (format : UInt64 → String) (indexReader : ByteReader) (hreader : indexReader.stream = s.index)
    {b e : PravegaTimestamp} (hbe : b ≤ e) :
    ∃ pl : Playlist F, playlist checks format s.streams indexReader b e = .ok pl := by
  obtain ⟨i, first, -, -, hsearch⟩ := searchAfter_record hindex hne checks b
  obtain ⟨j, last, -, hend, hsearch'⟩ := searchAfter_record hindex hne checks e
  have hij := le_of_searches hindex hbe hsearch hsearch'
  obtain ⟨pl, -, hpl, -⟩ := playlist_entries (F := F) format hindex hreader
    (fun r hr => h.timed r (List.mem_of_mem_drop hr)) hij hend.lt_length hsearch hsearch'
  exact ⟨pl, hpl⟩

/-- **A request for a playlist is answered as at one moment.** While a sink records and any
number of truncators run, the handler never panics on what it reads. Its answer is the playlist
that is made of the streams of one moment of the call, left alone, where a begin time behind the
last record of a moment before is that record's time; or there was no record; or the request
fails, with the error of a command that failed, or at a record that was truncated away during
the call. -/
theorem playlist_at_one_moment {s₀ : Store} {all₀ : List Record} {evs₀ : List Event}
    (h₀ : Recording s₀ all₀ evs₀) (hx : Proceeds (s₀, []) x) (checks : Bool)
    (format : UInt64 → String) {b e : PravegaTimestamp} (hbe : b ≤ e)
    {a : Except Fault (Playlist F)}
    (hcall : Outcome (polling fails) (livePlaylist checks format b e).run x a y) :
    (∃ pl m₁ m₂ last, a = .ok pl ∧ Proceeds x m₁ ∧ Proceeds m₁ m₂ ∧ Proceeds m₂ y ∧
        IsLast m₁.1.index last ∧
        ∀ indexReader : ByteReader, indexReader.stream = m₂.1.index →
          playlist checks format m₂.1.streams indexReader (min b last.timestamp) e = .ok pl) ∨
      (a = .error IndexSearcher.noRecords ∧
        ∃ m, Proceeds x m ∧ Proceeds m y ∧ Holds m.1.index []) ∨
      ∃ io, a = .error (.error io) ∧ (fails ∨ (io = ⟨.other, "segment truncated"⟩ ∧
        x.1.index.head < y.1.index.head)) := by
  have hlive := ((live_nil h₀).proceeds hx).1
  obtain ⟨hanswered, -⟩ := answered hlive checks format hbe hcall
  cases hanswered with
  | @made m₁ m₂ last a hxm hm₁ hmm hm₂ hmy hlast hmade =>
      obtain ⟨all, evs, hrec⟩ := hm₂.2
      obtain ⟨k, -, hindex, -⟩ := hrec.left
      have hne := IsLast.ne_nil hlast (hm₁.proceeds hmm).2.grows hindex
      obtain ⟨pl, hpl⟩ := hrec.exists_playlist (F := F) hindex hne checks format
        (.new m₂.1.index false []) rfl (le_trans (min_le_left b last.timestamp) hbe)
      obtain rfl := (hmade _ rfl).symm.trans hpl
      exact Or.inl ⟨pl, m₁, m₂, last, rfl, hxm, hmm, hmy, hlast, hmade⟩
  | empty hxm _ hmy hnil => exact Or.inr (Or.inl ⟨rfl, _, hxm, hmy, hnil⟩)
  | refused hrefused =>
      obtain ⟨io, rfl, hcase⟩ := hrefused
      exact Or.inr (Or.inr ⟨io, rfl, hcase⟩)

/-- The camera before its last record. -/
def youngCamera : Store :=
  ⟨⟨PravegaSrc.cameraStreams.data,
    ⟨0, (PravegaSrc.cameraRecords.take 2).flatMap Record.frame, by decide⟩⟩, 21⟩

theorem recording_youngCamera :
    Recording youngCamera (PravegaSrc.cameraRecords.take 2) PravegaSrc.cameraEvents where
  indexes := ⟨by decide, by decide, by decide, by decide, rfl, by decide, by decide, by decide,
    by decide, fun _ _ _ _ => Nat.zero_le _⟩
  increasing := by
    rw [Increasing]
    decide
  timed := by decide
  data := rfl
  boundary := by decide +kernel

theorem recording_cameraStore :
    Recording cameraStore PravegaSrc.cameraRecords PravegaSrc.cameraEvents where
  indexes := ⟨by decide, by decide, by decide, by decide, rfl, by decide, by decide, by decide,
    by decide, fun _ _ _ _ => Nat.zero_le _⟩
  increasing := PravegaSrc.camera_partitions.increasing
  timed := by decide
  data := rfl
  boundary := by decide +kernel

/-- The sink writes the last record. -/
theorem proceeds_camera : Proceeds (youngCamera, []) (cameraStore, []) :=
  .step .refl (.env ⟨.index (PravegaSrc.cameraRecords.get ⟨2, by decide⟩) rfl (by decide)
    (by decide) (by decide), _, _, recording_cameraStore⟩)

def youngPlaylist : Playlist Rat :=
  ⟨0, 9, [.extinf 1e-8, .programDateTime "now", .media 0 21], false⟩

def cameraPlaylist : Playlist Rat :=
  ⟨0, 8, [.extinf 1e-8, .programDateTime "now", .media 0 21, .extinf 2e-8,
    .programDateTime "now", .media 21 63], true⟩

theorem polled_youngCamera :
    Outcome (polling False) (livePlaylist true (fun _ => "now") ⟨some 10⟩ ⟨some 40⟩).run
      (youngCamera, []) (.ok youngPlaylist) (youngCamera, []) :=
  outcome_alone (by decide +kernel) []

theorem polled_cameraStore :
    Outcome (polling False) (livePlaylist true (fun _ => "now") ⟨some 10⟩ ⟨some 40⟩).run
      (cameraStore, []) (.ok cameraPlaylist) (cameraStore, []) :=
  outcome_alone (by decide +kernel) []

theorem playlist_at_one_moment_camera :
    ∃ m₁ m₂ last, Proceeds (cameraStore, []) m₁ ∧ Proceeds m₁ m₂ ∧
      Proceeds m₂ (cameraStore, []) ∧ IsLast m₁.1.index last ∧
      playlist true (fun _ => "now") m₂.1.streams (.new m₂.1.index false [])
        (min ⟨some 10⟩ last.timestamp) ⟨some 40⟩ = .ok cameraPlaylist := by
  rcases playlist_at_one_moment recording_youngCamera proceeds_camera true (fun _ => "now")
      (by decide) polled_cameraStore with
    ⟨pl, m₁, m₂, last, hpl, hxm, hmm, hmy, hlast, hmade⟩ | ⟨hpl, -⟩ | ⟨io, hpl, -⟩
  · injection hpl with hpl
    exact ⟨m₁, m₂, last, hxm, hmm, hmy, hlast, hpl ▸ hmade _ rfl⟩
  · cases hpl
  · cases hpl

end Request

/-! ## What a playlist lists -/

section Lists

variable {F : Type} [Add F] [Sub F] [Mul F] [LT F] [DecidableLT F] [OfScientific F] [F64 F]
  {format : UInt64 → String} {b e : PravegaTimestamp} {k i j : Nat} {pl : Playlist F}

/-- Of the records from number `k` on, those that are listed, up to number `k + j`. -/
structure Lists (format : UInt64 → String) (all : List Record) (k : Nat)
    (b e : PravegaTimestamp) (i j : Nat) (pl : Playlist F) : Prop where
  first : Located (all.drop k) b .after i
  last : Located (all.drop k) e .after j
  le : i ≤ j
  made : ∃ body : PlaylistBody F,
    bodyOf format (selected all (k + i) (k + j)) PlaylistBody.initial = some body ∧
      pl = ⟨k + i, F64.round body.targetDurationSeconds, body.playlistBody,
        decide (e ≤ timeAt all (k + j))⟩

theorem Recording.lists (h : Recording s all evs) {checks : Bool} (indexReader : ByteReader)
    (hreader : indexReader.stream = s.index) (hbe : b ≤ e)
    (hpl : playlist checks format s.streams indexReader b e = .ok pl) :
    ∃ k i j, s.index.head = IndexRecord.recordSize * k ∧ Lists format all k b e i j pl := by
  obtain ⟨k, hhead, hindex, -⟩ := h.left
  have hindex' : Holds s.streams.index (all.drop k) := hindex
  have hne := ne_nil_of_playlist hindex' hpl
  obtain ⟨i, first, -, hfirst, hsearch⟩ := searchAfter_record hindex' hne checks b
  obtain ⟨j, last, hget, hlast, hsearch'⟩ := searchAfter_record hindex' hne checks e
  have hij := le_of_searches hindex' hbe hsearch hsearch'
  have hmade := playlist_eq (F := F) format hindex' hreader hij hlast.lt_length hsearch hsearch'
  obtain ⟨body, hbody, rfl⟩ := of_checked_map (hmade.symm.trans hpl)
  refine ⟨k, i, j, hhead, hfirst, hlast, hij, body, ?_, ?_⟩
  · rw [selected, Nat.add_sub_add_left, ← List.drop_drop]
    exact hbody
  · rw [← timeAt_drop, timeAt_of_getElem? hget]
    have hnumber : (s.streams.index.head + IndexRecord.recordSize * i) / IndexRecord.recordSize =
        k + i := by
      rw [show s.streams.index.head = _ from hhead, ← Nat.mul_add]
      exact Nat.mul_div_cancel_left _ (by decide)
    rw [hnumber]

theorem Lists.lt_length (h : Lists format all k b e i j pl) : k + j < all.length := by
  have hlt := h.last.lt_length
  rw [List.length_drop] at hlt
  omega

theorem Lists.number (h : Lists format all k b e i j pl) :
    pl.initialMediaSequenceNumber = k + i := by
  obtain ⟨body, -, rfl⟩ := h.made
  rfl

/-- Behind other records the same ones are listed. -/
theorem Lists.entries_eq (h : Lists format all k b e i j pl) (more : List Record)
    (hvalid : ∀ r ∈ all, r.timestamp.isSome = true) :
    entries pl.body =
      entriesIn (selected (all ++ more) pl.initialMediaSequenceNumber (k + j)) := by
  have hselected : ∀ r ∈ selected all (k + i) (k + j), r.timestamp.isSome = true :=
    fun r hr => hvalid r (mem_of_mem_selected hr)
  obtain ⟨body, hbody, hentries⟩ := bodyOf_entriesIn (F := F) format hselected
  obtain ⟨body', hbody', rfl⟩ := h.made
  obtain rfl := Option.some.inj (hbody.symm.trans hbody')
  rw [selected_append (Nat.add_le_add_left h.le k) h.lt_length]
  exact hentries

theorem Lists.length_entries (h : Lists format all k b e i j pl)
    (hvalid : ∀ r ∈ all, r.timestamp.isSome = true) :
    pl.initialMediaSequenceNumber + (entries pl.body).length = k + j := by
  have hle := Nat.add_le_add_left h.le k
  have hlt := h.lt_length
  rw [h.entries_eq [] hvalid, List.append_nil, h.number, length_entriesIn hle hlt]
  exact Nat.add_sub_cancel' hle

/-- The media of an entry is from the record with its number to the next one. -/
theorem Lists.media (h : Lists format all k b e i j pl)
    (hvalid : ∀ r ∈ all, r.timestamp.isSome = true) {n o o' : Nat} {line : Line F}
    (hl : pl.entry? n = some (line, .media o o')) :
    ∃ a c, all[n]? = some a ∧ all[n + 1]? = some c ∧ o = a.offset ∧ o' = c.offset := by
  have hentries := h.entries_eq [] hvalid
  rw [List.append_nil] at hentries
  obtain ⟨target, -, a, c, ha, hc, hentry⟩ := entry?_entriesIn (P := fun _ : F => True) trivial
    (fun _ _ _ _ => trivial) hentries hl
  refine ⟨a, c, ha, hc, ?_⟩
  rw [entryOf] at hentry
  split at hentry
  · cases hentry
  · injection hentry with _ hmedia
    injection hmedia with ho ho'
    exact ⟨ho, ho'⟩

end Lists

/-! ## Two requests -/

section Polls

variable {F : Type} [Add F] [Sub F] [Mul F] [LT F] [DecidableLT F] [OfScientific F] [F64 F]
  {fails : Prop} {format : UInt64 → String} {pl pl' : Playlist F}

theorem IsLast.getLast? {last : Record} (h : Recording s all evs) (hlast : IsLast s.index last) :
    all.getLast? = some last := by
  obtain ⟨recs, hindex, hlast⟩ := hlast
  obtain ⟨k, -, hindex', -⟩ := h.left
  obtain rfl : recs = all.drop k :=
    flatMap_injective Record.frame_delimiting Record.frame_injective
      (hindex.bytes.symm.trans hindex'.bytes)
  rw [List.getLast?_drop] at hlast
  split at hlast
  · cases hlast
  · exact hlast

/-- The last record does not go back in time. -/
theorem last_le {last last' : Record} (h : Recording s all evs) (h' : Recording s' all' evs')
    (hs : Flows s s') (hlast : IsLast s.index last) (hlast' : IsLast s'.index last') :
    last.timestamp ≤ last'.timestamp := by
  obtain ⟨⟨more, rfl⟩, -⟩ := h.extends hs h'
  have hget := IsLast.getLast? h hlast
  have hget' := IsLast.getLast? h' hlast'
  rw [List.getLast?_eq_getElem?] at hget hget'
  obtain ⟨hlt, -⟩ := List.getElem?_eq_some_iff.mp hget
  obtain ⟨hlt', -⟩ := List.getElem?_eq_some_iff.mp hget'
  have hle := h'.increasing.le (show all.length - 1 ≤ (all ++ more).length - 1 by
    rw [List.length_append]
    omega) hlt'
  rwa [timeAt_append hlt, timeAt_of_getElem? hget, timeAt_of_getElem? hget'] at hle

theorem Lists.window {k i j k' i' j' : Nat} {more : List Record} {b e b' e' : PravegaTimestamp}
    (h : Lists format all k b e i j pl)
    (h' : Lists format (all ++ more) k' b' e' i' j' pl') (hinc : Increasing (all ++ more))
    (hk : k ≤ k') (hb : b ≤ b') (he : e ≤ e') : k + i ≤ k' + i' ∧ k + j ≤ k' + j' :=
  ⟨located_le hinc h.first h'.first hk hb, located_le hinc h.last h'.last hk he⟩

/-- A playlist with an end tag. -/
theorem Lists.finished {k i j k' i' j' : Nat} {more : List Record} {b b' e : PravegaTimestamp}
    (h : Lists format all k b e i j pl)
    (h' : Lists format (all ++ more) k' b' e i' j' pl') (hinc : Increasing (all ++ more))
    (hk : k ≤ k') (hfinished : pl.haveAllData = true) :
    pl'.haveAllData = true ∧
      (pl.initialMediaSequenceNumber = pl'.initialMediaSequenceNumber → pl' = pl) := by
  have hlt := h.lt_length
  have hlt' := h'.lt_length
  have hend := located_le hinc h.last h'.last hk (le_refl e)
  obtain ⟨body, hbody, rfl⟩ := h.made
  obtain ⟨body', hbody', rfl⟩ := h'.made
  have htime : e ≤ timeAt all (k + j) := of_decide_eq_true hfinished
  have hsame : timeAt (all ++ more) (k + j) = timeAt all (k + j) := timeAt_append hlt
  rw [← hsame] at htime
  have htime' := le_trans htime (hinc.le hend hlt')
  refine ⟨decide_eq_true htime', fun hbegin => ?_⟩
  have hnumber : k + i = k' + i' := hbegin
  have hle := h.le
  -- The record at the end is still there, and it is the first one behind the end time.
  obtain ⟨p, hp⟩ : ∃ p, k + j = k' + p := ⟨k + j - k', by omega⟩
  have hlength : ((all ++ more).drop k').length = (all ++ more).length - k' := List.length_drop
  have hends := (increasing_drop hinc k').le
    (show j' ≤ ((all ++ more).drop k').length - 1 by omega) (by omega)
  rw [timeAt_drop] at hends
  have hfirst := (h'.last.after (increasing_drop hinc k')).2 (le_trans htime' hends)
  have hjp : j' ≤ p := hfirst.2 p (by omega) (by rw [timeAt_drop, ← hp]; exact htime)
  have hj : k' + j' = k + j := by omega
  rw [hj, ← hnumber, selected_append (Nat.add_le_add_left hle k) hlt, hbody] at hbody'
  obtain rfl := Option.some.inj hbody'
  rw [hj, ← hnumber, hsame]

/-- An answer lists records of one moment, from one that was there at a moment before. -/
theorem Live.polled {checks : Bool} {b e : PravegaTimestamp}
    (hx : Live x) (hbe : b ≤ e)
    (hcall : Outcome (polling fails) (livePlaylist checks format b e).run x (.ok pl) y) :
    ∃ m₁ m₂ last all evs k i j, Proceeds x m₁ ∧ Proceeds m₁ m₂ ∧ Proceeds m₂ y ∧
      IsLast m₁.1.index last ∧ Recording m₂.1 all evs ∧
      m₂.1.index.head = IndexRecord.recordSize * k ∧
      Lists format all k (min b last.timestamp) e i j pl := by
  obtain ⟨hanswered, -⟩ := answered hx checks format hbe hcall
  cases hanswered with
  | @made m₁ m₂ last a hxm hm₁ hmm hm₂ hmy hlast hmade =>
      obtain ⟨all, evs, hrec⟩ := hm₂.2
      obtain ⟨k, i, j, hhead, hlists⟩ := hrec.lists (.new m₂.1.index false []) rfl
        (le_trans (min_le_left b last.timestamp) hbe) (hmade _ rfl)
      exact ⟨m₁, m₂, last, all, evs, k, i, j, hxm, hmm, hmy, hlast, hrec, hhead, hlists⟩

/-- What is between two events of the recording stays the same. -/
theorem mediaWithin_append {evs : List Event} {o o' : Nat} (ho : Boundary Event.frame evs o)
    (ho' : Boundary Event.frame evs o') (hle : o ≤ o') (more : List Event) :
    mediaWithin (evs ++ more) o o' = mediaWithin evs o o' := by
  obtain ⟨run, hrun⟩ := exists_between Event.frame_delimiting ho ho' hle
  have hlater : Between Event.frame (evs ++ more) o o' run := by
    obtain ⟨⟨before, after, rfl, hbefore⟩, hlength⟩ := hrun
    exact ⟨⟨before, after ++ more, List.append_assoc _ _ _, hbefore⟩, hlength⟩
  rw [mediaWithin, mediaWithin, hlater.within_eq Event.frame_delimiting,
    hrun.within_eq Event.frame_delimiting]

/-- **What is listed can be fetched.** A media entry of an answer is for the bytes from the
record that has the number of the entry to the next one. From the answer on, whatever the sink
and the truncators do, as long as the record has not been truncated away the server answers a
request for these bytes with the payloads of the events between the two, always the same. -/
theorem listed_media_kept {s₀ : Store} {all₀ : List Record} {evs₀ : List Event}
    (h₀ : Recording s₀ all₀ evs₀) (hx : Proceeds (s₀, []) x) {checks : Bool}
    {b e : PravegaTimestamp} (hbe : b ≤ e)
    (hcall : Outcome (polling fails) (livePlaylist checks format b e).run x (.ok pl) y)
    {n o o' : Nat} {line : Line F} (hl : pl.entry? n = some (line, .media o o')) :
    ∃ evs : List Event, y.1.data.bytes = evs.flatMap Event.frame ∧
      ∀ z, Proceeds y z → z.1.index.head ≤ IndexRecord.recordSize * n →
        ∀ reader : ByteReader, reader.stream = z.1.data →
          getMediaSegment reader ⟨o, o'⟩ = .ok ⟨"video/mp4", mediaWithin evs o o'⟩ := by
  have hlive := ((live_nil h₀).proceeds hx).1
  obtain ⟨m₁, m₂, last, all, evs, k, i, j, hxm, hmm, hmy, hlast, hrec, hhead, hlists⟩ :=
    hlive.polled hbe hcall
  have hlivem := ((hlive.proceeds hxm).1.proceeds hmm).1
  obtain ⟨hlivey, hflows⟩ := hlivem.proceeds hmy
  obtain ⟨ally, evsy, hrecy⟩ := hlivey.2
  obtain ⟨⟨more, rfl⟩, -⟩ := hrec.extends hflows hrecy
  obtain ⟨a, c, ha, hc, rfl, rfl⟩ := hlists.media hrec.timed hl
  have hamem := List.mem_append_left more (List.mem_of_getElem? ha)
  have hcmem := List.mem_append_left more (List.mem_of_getElem? hc)
  have hle : a.offset ≤ c.offset := by
    obtain ⟨hn, rfl⟩ := List.getElem?_eq_some_iff.mp ha
    obtain ⟨hn', rfl⟩ := List.getElem?_eq_some_iff.mp hc
    exact List.pairwise_iff_getElem.mp hrec.indexes.sorted n (n + 1) hn hn' (Nat.lt_succ_self n)
  refine ⟨evsy, hrecy.data, fun z hyz hthere reader hreader => ?_⟩
  obtain ⟨hlivez, hflowsz⟩ := hlivey.proceeds hyz
  obtain ⟨allz, evsz, hrecz⟩ := hlivez.2
  obtain ⟨⟨more', rfl⟩, moreEvs, rfl⟩ := hrecy.extends hflowsz hrecz
  obtain ⟨hn, -⟩ := List.getElem?_eq_some_iff.mp ha
  have hget : (all ++ more ++ more')[n]? = some a := by
    rw [List.append_assoc, List.getElem?_append_left hn, ha]
  have hreadable := hrecz.indexes.readable n a hget (by rw [Nat.zero_add]; exact hthere)
  rw [getMediaSegment_boundaries (by rw [hreader]; exact hrecz.data)
    (hrecz.boundary a (List.mem_append_left more' hamem))
    (hrecz.boundary c (List.mem_append_left more' hcmem)) hle (by rw [hreader]; exact hreadable),
    mediaWithin_append (hrecy.boundary a hamem) (hrecy.boundary c hcmem) hle]

theorem listed_media_kept_camera :
    getMediaSegment (.new cameraStore.data false []) ⟨0, 21⟩ = .ok ⟨"video/mp4", [7]⟩ := by
  obtain ⟨evs, hdata, hkept⟩ := listed_media_kept recording_youngCamera .refl (by decide)
    polled_youngCamera (show youngPlaylist.entry? 0 = some (.extinf 1e-8, .media 0 21) by
      decide +kernel)
  obtain rfl : PravegaSrc.cameraEvents = evs :=
    flatMap_injective Event.frame_delimiting Event.frame_injective hdata
  have hfetched := hkept _ proceeds_camera (by decide) (.new cameraStore.data false []) rfl
  have hmedia : mediaWithin PravegaSrc.cameraEvents 0 21 = [7] := by decide +kernel
  rwa [hmedia] at hfetched

end Polls

/-! ### With exact durations -/

section Exact

variable {fails fails' : Prop} {pl pl' : Playlist Rat}

/-- **The window slides.** A player asks twice, for times that do not go back, while a sink
records and any number of truncators run, before, between and during the requests. Neither the
first number of the playlist nor the last one goes back. Where both have an entry with a
number, it is the gap or the media between the two records that have had this number and the
next one since the index was created; it is not the same in both only if the one record is more
than a second behind the other and the playlists begin with different records. And a playlist
with an end tag keeps it; as long as it begins with the same record it does not change. -/
theorem playlists_slide {s₀ : Store} {all₀ : List Record} {evs₀ : List Event}
    (h₀ : Recording s₀ all₀ evs₀) (hx : Proceeds (s₀, []) x) {checks checks' : Bool}
    {format : UInt64 → String} {b e b' e' : PravegaTimestamp} (hbe : b ≤ e) (hbe' : b' ≤ e')
    (hb : b ≤ b') (he : e ≤ e')
    (hcall : Outcome (polling fails) (livePlaylist checks format b e).run x (.ok pl) y)
    (hyz : Proceeds y z) {z' : Store × List (Program StreamCmd StreamCmd.Res (Except Fault Unit))}
    (hcall' : Outcome (polling fails') (livePlaylist checks' format b' e').run z (.ok pl') z') :
    pl.initialMediaSequenceNumber ≤ pl'.initialMediaSequenceNumber ∧
      pl.initialMediaSequenceNumber + (entries pl.body).length ≤
        pl'.initialMediaSequenceNumber + (entries pl'.body).length ∧
      (∃ all : List Record, z'.1.index.bytes = all.flatMap Record.frame ∧
        ∀ n l l', pl.entry? n = some l → pl'.entry? n = some l' →
          ∃ a c, all[n]? = some a ∧ all[n + 1]? = some c ∧
            (l = gapEntry ∨ l = mediaEntry a c) ∧ (l' = gapEntry ∨ l' = mediaEntry a c) ∧
            (l ≠ l' → (nanos a).toNat + 10 ^ 9 < (nanos c).toNat ∧
              pl.initialMediaSequenceNumber ≠ pl'.initialMediaSequenceNumber)) ∧
      (pl.haveAllData = true → e = e' → pl'.haveAllData = true ∧
        (pl.initialMediaSequenceNumber = pl'.initialMediaSequenceNumber → pl' = pl)) := by
  have hlive := ((live_nil h₀).proceeds hx).1
  obtain ⟨m₁, m₂, last, all, evs, k, i, j, hxm, hmm, hmy, hlast, hrec, hhead, hlists⟩ :=
    hlive.polled hbe hcall
  have hlivem := (hlive.proceeds hxm).1
  have hlivem₂ := (hlivem.proceeds hmm).1
  have hlivez := (hlivem₂.proceeds (hmy.trans hyz)).1
  obtain ⟨n₁, n₂, last', all', evs', k', i', j', hzn, hnn, hnz, hlast', hrec', hhead', hlists'⟩ :=
    hlivez.polled hbe' hcall'
  have hliven := (hlivez.proceeds hzn).1
  have hliven₂ := (hliven.proceeds hnn).1
  obtain ⟨hlivez', hflowsz⟩ := hliven₂.proceeds hnz
  obtain ⟨all'', evs'', hrec''⟩ := hlivez'.2
  -- All that was listed is in the index of the end.
  have hmz := hmy.trans hyz
  have hflows := (hlivem₂.proceeds (hmz.trans (hzn.trans hnn))).2
  obtain ⟨⟨more, rfl⟩, -⟩ := hrec.extends hflows hrec'
  obtain ⟨⟨more', rfl⟩, -⟩ := hrec'.extends hflowsz hrec''
  have hentries := hlists.entries_eq (more ++ more') hrec.timed
  rw [← List.append_assoc] at hentries
  have hentries' := hlists'.entries_eq more' hrec'.timed
  -- The last record of the one moment is not behind that of the other.
  obtain ⟨all₁, evs₁, hrec₁⟩ := hlivem.2
  obtain ⟨all₂, evs₂, hrec₂⟩ := hliven.2
  have hflows₁ := (hlivem.proceeds (hmm.trans (hmz.trans hzn))).2
  have hlastle := last_le hrec₁ hrec₂ hflows₁ hlast hlast'
  have hk : k ≤ k' := by
    have hle := hflows.grows.index_head
    rw [hhead, hhead'] at hle
    exact Nat.le_of_mul_le_mul_left hle (by decide)
  obtain ⟨hbegin, hend⟩ :=
    hlists.window hlists' hrec'.increasing hk (min_le_min hb hlastle) he
  refine ⟨?_, ?_, ⟨_, hrec''.indexes.bytes, fun n l l' hl hl' =>
    entries_agree hentries hentries' hl hl'⟩, fun hfinished he => ?_⟩
  · rw [hlists.number, hlists'.number]
    exact hbegin
  · rw [hlists.length_entries hrec.timed, hlists'.length_entries hrec'.timed]
    exact hend
  · subst he
    exact hlists.finished hlists' hrec'.increasing hk hfinished

theorem playlists_slide_camera :
    youngPlaylist.initialMediaSequenceNumber ≤ cameraPlaylist.initialMediaSequenceNumber ∧
      youngPlaylist.initialMediaSequenceNumber + (entries youngPlaylist.body).length ≤
        cameraPlaylist.initialMediaSequenceNumber + (entries cameraPlaylist.body).length ∧
      (∃ all : List Record, cameraStore.index.bytes = all.flatMap Record.frame ∧
        ∀ n l l', youngPlaylist.entry? n = some l → cameraPlaylist.entry? n = some l' →
          ∃ a c, all[n]? = some a ∧ all[n + 1]? = some c ∧
            (l = gapEntry ∨ l = mediaEntry a c) ∧ (l' = gapEntry ∨ l' = mediaEntry a c)) := by
  obtain ⟨hbegin, hend, ⟨all, hbytes, hagree⟩, -⟩ := playlists_slide recording_youngCamera .refl
    (by decide) (by decide) (le_refl _) (le_refl _) polled_youngCamera proceeds_camera
    polled_cameraStore
  refine ⟨hbegin, hend, all, hbytes, fun n l l' hl hl' => ?_⟩
  obtain ⟨a, c, ha, hc, hkind, hkind', -⟩ := hagree n l l' hl hl'
  exact ⟨a, c, ha, hc, hkind, hkind'⟩

end Exact

end GstPravega.Plugin.Store
