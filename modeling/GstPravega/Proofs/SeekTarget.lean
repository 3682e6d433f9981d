import GstPravega.Proofs.CrashSafety
import GstPravega.Proofs.TimeWindow

/-!
# Where a seek lands

A seek that uses the index leads to the offset of the latest record of all that is
not after the requested time, and no further than the end position. The search does
not look at `random_access`, so this is the latest record that can be decoded from
only where no other kind of record lies in between, or where that makes no
difference to the offset.
-/

namespace GstPravega.Plugin.PravegaSrc

open GstPravega.Lib GstPravega.Client GstPravega.Gst GstPravega.Video

/-- The latest of the records of a kind that is not after `t`. -/
structure LatestOf (kind : Record → Prop) (recs : List Record) (t : PravegaTimestamp)
    (r : Record) : Prop where
  mem : r ∈ recs
  ofKind : kind r
  le : r.timestamp ≤ t
  latest : ∀ x ∈ recs, kind x → x.timestamp ≤ t → x.timestamp ≤ r.timestamp

section Latest

variable {kind : Record → Prop} {recs : List Record} {t : PravegaTimestamp} {r x : Record}

theorem Increasing.eq_of_timestamp_eq (h : Increasing recs) (hr : r ∈ recs) (hx : x ∈ recs)
    (htime : r.timestamp = x.timestamp) : r = x := by
  obtain ⟨i, hi, rfl⟩ := List.mem_iff_getElem.mp hr
  obtain ⟨j, hj, rfl⟩ := List.mem_iff_getElem.mp hx
  have htime : timeAt recs i = timeAt recs j := by
    rw [timeAt_of_getElem? (List.getElem?_eq_getElem hi),
      timeAt_of_getElem? (List.getElem?_eq_getElem hj), htime]
  have hij := (h.le_iff hi hj).mp (le_of_eq htime)
  have hji := (h.le_iff hj hi).mp (le_of_eq htime.symm)
  congr 1
  exact Nat.le_antisymm hij hji

theorem LatestOf.unique (h : Increasing recs) (hr : LatestOf kind recs t r)
    (hx : LatestOf kind recs t x) : r = x := by
  refine Increasing.eq_of_timestamp_eq h hr.mem hx.mem (le_antisymm ?_ ?_)
  · exact hx.latest r hr.mem hr.ofKind hr.le
  · exact hr.latest x hx.mem hx.ofKind hx.le

/-- What a search finds is the latest record of any kind. -/
theorem latestOf_located (h : Increasing recs) {i : Nat} (hl : Located recs t .before i)
    (hx : recs[i]? = some x) (hr : LatestOf kind recs t r) :
    LatestOf (fun _ => True) recs t x := by
  obtain ⟨k, hk, rfl⟩ := List.mem_iff_getElem.mp hr.mem
  have hle := hr.le
  rw [← timeAt_of_getElem? (List.getElem?_eq_getElem hk)] at hle
  have hfirst := le_trans (h.le (Nat.zero_le k) hk) hle
  obtain ⟨hlocated, hlast⟩ := (hl.before h).2 hfirst
  rw [timeAt_of_getElem? hx] at hlocated
  refine ⟨List.mem_of_getElem? hx, trivial, hlocated, fun y hy _ hyt => ?_⟩
  obtain ⟨j, hj, rfl⟩ := List.mem_iff_getElem.mp hy
  rw [← timeAt_of_getElem? (List.getElem?_eq_getElem hj)] at hyt ⊢
  rw [← timeAt_of_getElem? hx]
  exact h.le (hlast j hj hyt) hl.lt_length

end Latest

/-! ## Where the reader comes to stand -/

/-- The reader reports `offset`, the byte reader is there, and nothing is buffered. -/
structure Started.StandsAt (st : Started) (offset : Nat) : Prop where
  reported : streamPosition st.reader = (.ok offset, st.reader)
  below : st.reader.inner.inner.inner.inner.offset = offset
  buffered : st.reader.inner.buf = []

theorem Started.StandsAt.unique {st : Started} {o o' : Nat} (h : st.StandsAt o)
    (h' : st.StandsAt o') : o = o' :=
  h.below.symm.trans h'.below

/-- The end position of the reader. -/
def Started.endPosition (st : Started) : Nat := st.reader.inner.inner.endPosition

/-- A seek that succeeds goes to its offset, or to the end position in front of it. -/
theorem seekTo_standsAt {st st' : Started} {o : Nat} (h : seekTo o st = .ok st') :
    st'.StandsAt (min o st.endPosition) := by
  by_cases hlt : o < 2 ^ 63
  · have hinner := ByteReader.seek_start st.reader.inner.inner.inner.inner hlt
    by_cases hle : o ≤ st.endPosition
    · have hseek := CountingReader.seek_start (BufReader.seek_start
        (SeekableTake.seek_of_le hinner hle))
      rw [seekTo, hseek] at h
      cases h
      rw [Nat.min_eq_left hle]
      exact ⟨rfl, rfl, rfl⟩
    · have hgt := Nat.lt_of_not_le hle
      have hback := CountingReader.seek_start (BufReader.seek_start
        (SeekableTake.seek_of_gt hinner hgt
          (ByteReader.seek_start _ (Nat.lt_trans hgt hlt))))
      rw [seekTo, hback] at h
      cases h
      rw [Nat.min_eq_right (Nat.le_of_lt hgt)]
      exact ⟨rfl, rfl, rfl⟩
  · have hfails : ∃ e reader, Seek.seek (.start o) st.reader = (.error e, reader) := by
      have hneg : ¬ (o : Int) < 0 := by omega
      have hge : 9223372036854775808 ≤ o := Nat.le_of_not_lt hlt
      simp [Seek.seek, BufReader.discardBuffer, ByteReader.moveTo, hneg, hge]
    obtain ⟨e, reader, hfails⟩ := hfails
    rw [seekTo, hfails] at h
    cases h

/-- The requested timestamp of a seek. -/
def requestedSeekTimestamp (settings : Settings) (segment : Segment) (initial : Bool) :
    PravegaTimestamp :=
  if initial then initialSeekStartTimestamp settings else clocktimeToPravega segment.time

section Seek

variable {checks : Bool} {settings : Settings} {segment segment' : Segment}
  {st st' : Started} {recs : List Record} {initial : Bool} {r : Record}

/-- A seek by the index has searched it and gone where the record says. -/
theorem doSeek_index (hholds : Holds st.streams.index recs) (hne : recs ≠ [])
    (hinitial : initialSeek segment = some initial)
    (hindex : initial = true → settings.startMode ≠ .noSeek)
    (hseek : doSeek checks settings segment (.started st) = .ok (true, segment', st')) :
    ∃ i x, recs[i]? = some x ∧
      Located recs (requestedSeekTimestamp settings segment initial) .before i ∧
      st'.StandsAt (min x.offset st.endPosition) := by
  obtain ⟨i, x, hx, hlocated, hsearch⟩ := (search_timestamp hholds hne checks
    (requestedSeekTimestamp settings segment initial)).1
  refine ⟨i, x, hx, hlocated, seekTo_standsAt ?_⟩
  rw [doSeek, hinitial] at hseek
  dsimp only at hseek
  rw [if_neg (fun hmode => hindex hmode.1 hmode.2)] at hseek
  rw [requestedSeekTimestamp] at hsearch
  rw [seekUsingIndex, hsearch] at hseek
  dsimp only at hseek
  cases hto : seekTo x.toIndexRecord.offset st with
  | error e =>
      rw [hto] at hseek
      cases hseek
  | ok there =>
      rw [hto] at hseek
      cases hseek
      rfl

/-- The seek reaches `r`: reading does not end in front of it, and the latest record of
all can be decoded from too, or is at the same offset, or the end position is there. -/
structure KeyReached (recs : List Record) (t : PravegaTimestamp) (endPosition : Nat)
    (r : Record) : Prop where
  readable : r.offset ≤ endPosition
  latest : ∀ x, LatestOf (fun _ => True) recs t x → x.randomAccess = true ∨
    x.offset = r.offset ∨ (r.offset = endPosition ∧ endPosition ≤ x.offset)

theorem keyReached_iff {t : PravegaTimestamp} {x : Record} {endPosition : Nat}
    (h : Increasing recs) (hr : LatestOf (fun r => r.randomAccess = true) recs t r)
    (hx : LatestOf (fun _ => True) recs t x) :
    KeyReached recs t endPosition r ↔ min x.offset endPosition = r.offset := by
  constructor
  · intro hreached
    have hreadable := hreached.readable
    rcases hreached.latest x hx with hkey | hsame | ⟨hends, hbehind⟩
    · have hkeyLatest : LatestOf (fun r => r.randomAccess = true) recs t x :=
        ⟨hx.mem, hkey, hx.le, fun y hy _ => hx.latest y hy trivial⟩
      rw [hkeyLatest.unique h hr]
      omega
    · omega
    · omega
  · intro hmin
    refine ⟨by omega, fun y hy => ?_⟩
    rw [hy.unique h hx]
    omega

/-- A seek by the index lands on the latest random access record that is not after the
requested time if and only if `KeyReached`. -/
theorem seek_lands_on_random_access_iff (hholds : Holds st.streams.index recs)
    (hinc : Increasing recs) (hinitial : initialSeek segment = some initial)
    (hindex : initial = true → settings.startMode ≠ .noSeek)
    (hkey : LatestOf (fun r => r.randomAccess = true) recs
      (requestedSeekTimestamp settings segment initial) r)
    (hseek : doSeek checks settings segment (.started st) = .ok (true, segment', st')) :
    st'.StandsAt r.offset ↔
      KeyReached recs (requestedSeekTimestamp settings segment initial) st.endPosition r := by
  obtain ⟨i, x, hx, hlocated, hstands⟩ := doSeek_index hholds
    (List.ne_nil_of_mem hkey.mem) hinitial hindex hseek
  rw [keyReached_iff hinc hkey (latestOf_located hinc hlocated hx hkey)]
  constructor
  · exact hstands.unique
  · intro hmin
    rw [← hmin]
    exact hstands

end Seek

/-! ## A recording of one key frame -/

/-- The sink has recorded a key frame at one second and has been stopped. -/
def closedWorld : PravegaSink.World :=
  (PravegaSink.cameraHistory
    (PravegaSink.keyFrame ++ [.stop PravegaSink.cameraSettings])).1.1

theorem reaches_closedWorld :
    PravegaSink.Reaches true (fun _ : Unit => 0) (fun _ _ _ => True)
      ⟨closedWorld, .idle .live .stopped⟩ := by
  have hok : (PravegaSink.cameraHistory
      (PravegaSink.keyFrame ++ [.stop PravegaSink.cameraSettings])).2 = true := by
    decide +kernel
  exact PravegaSink.reaches_cameraHistory hok PravegaSink.allowedAlong_true

def keyRecord : IndexRecord := ⟨⟨some 1000000000⟩, 0, true, true⟩

def closedKey : Record := ⟨keyRecord, by decide, by decide⟩

/-- Its index: the key frame, and the record of the stop behind it. -/
def closedRecords : List Record :=
  [closedKey, ⟨⟨⟨some 1000000001⟩, 21, false, false⟩, by decide, by decide⟩]

def closedStreams : Streams :=
  ⟨⟨0, closedWorld.data.stored.flatten, by decide +kernel⟩,
    ⟨0, closedWorld.index.entries.flatten, by decide +kernel⟩⟩

theorem holds_closed : Holds closedStreams.index closedRecords := by
  refine ⟨by decide, ?_, ?_⟩
  · exact Nat.zero_le _
  · decide +kernel

theorem increasing_closed : Increasing closedRecords := by
  rw [Increasing]
  decide

/-- From a point in time to wherever the data ends. -/
def openSettings (startMode : StartMode) (startTimestamp : UInt64) : Settings :=
  { windowSettings startTimestamp 0 with startMode := startMode, endMode := .unbounded }

/-- The source that is started on this recording, with its reader at `offset`. -/
def closedStarted (offset : Nat) : Started :=
  ⟨⟨⟨⟨⟨⟨closedStreams.data, false, offset, [1, 2, 3]⟩, 2 ^ 64 - 1 - offset⟩, 2 ^ 64 - 1⟩,
    128 * 1024, []⟩, offset⟩, closedStreams⟩

theorem latestOf_closed {t : PravegaTimestamp} (h : closedKey.timestamp ≤ t) :
    LatestOf (fun r => r.randomAccess = true) closedRecords t closedKey := by
  refine ⟨by decide, rfl, h, fun x hx hkey _ => ?_⟩
  rcases List.mem_cons.mp hx with rfl | hx
  · exact le_refl _
  · rw [List.mem_singleton.mp hx] at hkey
    cases hkey

theorem seek_lands_on_random_access_iff_key_frame :
    (closedStarted 0).StandsAt closedKey.offset := by
  have hseek : doSeek true (openSettings .timestamp 1000000000) Segment.initial
      (.started (closedStarted 0)) =
        .ok (true, ⟨some 1000000000, some 1000000000, some 0⟩, closedStarted 0) := by
    decide +kernel
  have hkey : LatestOf (fun r => r.randomAccess = true) closedRecords
      (requestedSeekTimestamp (openSettings .timestamp 1000000000) Segment.initial true)
      closedKey := latestOf_closed (by decide)
  -- The final record is a nanosecond later than the time that is sought.
  have hreached : KeyReached closedRecords
      (requestedSeekTimestamp (openSettings .timestamp 1000000000) Segment.initial true)
      (closedStarted 0).endPosition closedKey := by
    refine ⟨by decide, fun x hx => Or.inl ?_⟩
    rcases List.mem_cons.mp hx.mem with rfl | hfinal
    · rfl
    · have hle := hx.le
      rw [List.mem_singleton.mp hfinal] at hle
      exact absurd hle (by decide)
  exact (seek_lands_on_random_access_iff holds_closed increasing_closed rfl (by decide)
    hkey hseek).mpr hreached

/-- The latest record is that of the stop, at the end of the data. -/
theorem seek_lands_on_final_record :
    ¬ ∀ (w : PravegaSink.World) (recs : List Record) (settings : Settings)
      (st st' : Started) (segment : Segment) (r : Record),
      PravegaSink.Reaches true (fun _ : Unit => 0) (fun _ _ _ => True)
        ⟨w, .idle .live .stopped⟩ →
      st.streams.index.bytes = w.index.entries.flatten →
      st.streams.data.bytes = w.data.stored.flatten → Holds st.streams.index recs →
      Increasing recs → settings.startMode = .latest →
      start true settings (windowClient st.streams) .stopped = (.ok (), .started st) →
      LatestOf (fun r => r.randomAccess = true) recs (initialSeekStartTimestamp settings)
        r →
      doSeek true settings Segment.initial (.started st) = .ok (true, segment, st') →
      st'.StandsAt r.offset := by
  intro hall
  have hstart : start true (openSettings .latest 0) (windowClient closedStreams) .stopped =
      (.ok (), .started (closedStarted 0)) := by decide +kernel
  have hseek : doSeek true (openSettings .latest 0) Segment.initial
      (.started (closedStarted 0)) =
        .ok (true, ⟨some 1000000001, some 1000000001, some 0⟩, closedStarted 21) := by
    decide +kernel
  have hstands := hall closedWorld closedRecords (openSettings .latest 0) (closedStarted 0)
    (closedStarted 21) _ closedKey reaches_closedWorld rfl rfl holds_closed
    increasing_closed rfl hstart (latestOf_closed (by decide)) hseek
  exact absurd hstands.below (by decide)

end GstPravega.Plugin.PravegaSrc
