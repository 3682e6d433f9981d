import GstPravega.Proofs.Playlist

/-!
# The search does not cross over

On an index in no order at all the search still does not send a later time to an
earlier record. Where it judges a record for two times, the later time is not sent left
unless the earlier one is, and up to the record that parts them the two searches probe
the same records (`bisect_mono`). So a playlist, which is cut out of the index by two
searches, has no negative size.
-/

namespace GstPravega.Video

open GstPravega.Lib GstPravega.Client Program IndexSearcher

theorem SearchMethod.pick_before (b : Bisection) : SearchMethod.before.pick b = b.left := by
  cases b <;> rfl

theorem SearchMethod.pick_after (b : Bisection) : SearchMethod.after.pick b = b.right := by
  cases b <;> rfl

theorem pick_mono {b b' : Bisection} (h : b.Le b') (method : SearchMethod) :
    method.pick b ≤ method.pick b' := by
  cases method with
  | before =>
      rw [SearchMethod.pick_before, SearchMethod.pick_before]
      exact h.left
  | after =>
      rw [SearchMethod.pick_after, SearchMethod.pick_after]
      exact h.right

variable {recs : List Record}

theorem orderAt_lt_of_le {t t' : PravegaTimestamp} (h : t ≤ t') {i : Nat}
    (hlt : orderAt recs t i = .lt) : orderAt recs t' i = .lt :=
  orderAt_lt.mpr (lt_of_lt_of_le (orderAt_lt.mp hlt) h)

theorem orderAt_gt_of_le {t t' : PravegaTimestamp} (h : t ≤ t') {i : Nat}
    (hgt : orderAt recs t' i = .gt) : orderAt recs t i = .gt :=
  orderAt_gt.mpr (lt_of_le_of_lt h (orderAt_gt.mp hgt))

/-- A later time lands at or behind where an earlier one does. -/
theorem landing_mono {t t' : PravegaTimestamp} (h : t ≤ t') {method : SearchMethod}
    {fuel i i' : Nat} (hfuel : recs.length ≤ fuel) (hne : recs ≠ [])
    (hi : landing recs t method fuel = some i)
    (hi' : landing recs t' method fuel = some i') : i ≤ i' := by
  obtain ⟨j, hj, hloc⟩ := exists_landing hne t method hfuel
  obtain rfl : j = i := Option.some.inj (hj.symm.trans hi)
  have hlt := hloc.lt_length
  rw [landing] at hi hi'
  by_cases habove' : timeAt recs (recs.length - 1) ≤ t'
  · -- The later time is clamped at the last record.
    rw [if_pos habove'] at hi'
    injection hi' with hi'
    omega
  have habove : ¬ timeAt recs (recs.length - 1) ≤ t := fun hle =>
    habove' (le_trans hle h)
  rw [if_neg habove] at hi
  rw [if_neg habove'] at hi'
  by_cases hbelow : t ≤ timeAt recs 0
  · -- The earlier one is clamped at the first.
    rw [if_pos hbelow] at hi
    injection hi with hi
    omega
  have hbelow' : ¬ t' ≤ timeAt recs 0 := fun hle => hbelow (le_trans h hle)
  rw [if_neg hbelow] at hi
  rw [if_neg hbelow'] at hi'
  obtain ⟨b, hb, rfl⟩ := Option.map_eq_some_iff.mp hi
  obtain ⟨b', hb', rfl⟩ := Option.map_eq_some_iff.mp hi'
  exact pick_mono (bisect_mono (fun _ => orderAt_lt_of_le h) (fun _ => orderAt_gt_of_le h)
    (Nat.zero_le _) hb hb') method

/-- The record before a time is at or before the one after it. -/
theorem landing_before_le_after {t : PravegaTimestamp} {fuel i j : Nat}
    (hi : landing recs t .before fuel = some i) (hj : landing recs t .after fuel = some j) :
    i ≤ j := by
  rw [landing] at hi hj
  split at hi
  · next habove =>
      rw [if_pos habove] at hj
      exact Nat.le_of_eq (Option.some.inj (hi.symm.trans hj))
  next habove =>
  rw [if_neg habove] at hj
  split at hi
  · next hbelow =>
      rw [if_pos hbelow] at hj
      exact Nat.le_of_eq (Option.some.inj (hi.symm.trans hj))
  next hbelow =>
  rw [if_neg hbelow] at hj
  obtain ⟨b, hb, rfl⟩ := Option.map_eq_some_iff.mp hi
  obtain ⟨b', hb', rfl⟩ := Option.map_eq_some_iff.mp hj
  obtain rfl : b = b' := Option.some.inj (hb.symm.trans hb')
  rw [SearchMethod.pick_before, SearchMethod.pick_after]
  exact b.left_le_right

/-! ## The offsets -/

/-- What a search of the index ends with. -/
def searched (checks : Bool) (w : Streams) (t : PravegaTimestamp) (method : SearchMethod) :
    Except Fault (IndexRecord × Nat) :=
  (run Streams.answer
    (searchTimestampAndReturnIndexOffset checks .index t method).run w).1

variable {w : Streams} {checks : Bool}

/-- A search that ends with a record has landed on it, and there is one. -/
theorem landing_of_searched (h : Holds w.index recs) {t : PravegaTimestamp}
    {method : SearchMethod} {x : IndexRecord × Nat} (hx : searched checks w t method = .ok x) :
    recs ≠ [] ∧ ∃ i, landing recs t method w.index.tail = some i ∧ i < recs.length ∧
      x.2 = recordOffset w .index i := by
  by_cases hne : recs = []
  · subst hne
    have hrun := yields_searchTimestamp_nil (show Holds (w.get .index) [] from h) checks t method
    rw [searched, hrun.1] at hx
    cases hx
  · obtain ⟨i, hi, hloc⟩ := exists_landing hne t method
      (length_le_tail (show Holds (w.get .index) recs from h))
    have hrun := yields_landing (show Holds (w.get .index) recs from h) checks hi
      (List.getElem?_eq_getElem hloc.lt_length)
    rw [searched, hrun.1] at hx
    injection hx with hx
    exact ⟨hne, i, hi, hloc.lt_length, by rw [← hx]⟩

theorem recordOffset_mono {reader : Stream} {i j : Nat} (h : i ≤ j) :
    recordOffset w reader i ≤ recordOffset w reader j :=
  Nat.add_le_add_left (Nat.mul_le_mul_left _ h) _

theorem searched_mono (h : Holds w.index recs) {t t' : PravegaTimestamp}
    {method : SearchMethod} {x x' : IndexRecord × Nat} (hle : t ≤ t')
    (hx : searched checks w t method = .ok x) (hx' : searched checks w t' method = .ok x') :
    x.2 ≤ x'.2 := by
  obtain ⟨hne, i, hi, _, ho⟩ := landing_of_searched h hx
  obtain ⟨_, i', hi', _, ho'⟩ := landing_of_searched h hx'
  rw [ho, ho']
  exact recordOffset_mono (landing_mono hle
    (length_le_tail (show Holds (w.get .index) recs from h)) hne hi hi')

/-- On any index, in whatever order: a later time is never found before an earlier one, nor
the record after a time before the one before it. So the part of the index that a playlist
reads has a size. -/
theorem search_monotone (checks : Bool) (h : Holds w.index recs) :
    (∀ {t t' : PravegaTimestamp} {method : SearchMethod} {x x' : IndexRecord × Nat}, t ≤ t' →
        searched checks w t method = .ok x → searched checks w t' method = .ok x' →
        x.2 ≤ x'.2) ∧
    (∀ {t : PravegaTimestamp} {x x' : IndexRecord × Nat},
        searched checks w t .before = .ok x → searched checks w t .after = .ok x' →
        x.2 ≤ x'.2) ∧
    (∀ {b e : PravegaTimestamp} {x x' : IndexRecord × Nat}, b ≤ e →
        Server.Db.searchAfter checks w b = .ok x → Server.Db.searchAfter checks w e = .ok x' →
        x.2 ≤ x'.2 ∧ addU64 checks x'.2 IndexRecord.recordSize =
            some (x'.2 + IndexRecord.recordSize) ∧
          subU64 checks (x'.2 + IndexRecord.recordSize) x.2 =
            some (x'.2 + IndexRecord.recordSize - x.2)) ∧
    (recs ≠ [] → ∀ (t : PravegaTimestamp) (method : SearchMethod),
        ∃ x, searched checks w t method = .ok x) := by
  refine ⟨fun hle hx hx' => searched_mono h hle hx hx', ?_, ?_, ?_⟩
  · intro t x x' hx hx'
    obtain ⟨_, i, hi, _, ho⟩ := landing_of_searched h hx
    obtain ⟨_, i', hi', _, ho'⟩ := landing_of_searched h hx'
    rw [ho, ho']
    exact recordOffset_mono (landing_before_le_after hi hi')
  · intro b e x x' hle hx hx'
    have hoffset : x.2 ≤ x'.2 := searched_mono h hle hx hx'
    obtain ⟨_, i', _, hlt, ho'⟩ := landing_of_searched h hx'
    have hbnd := recordOffset_le (show Holds (w.get .index) recs from h) hlt
    have htail : w.index.tail < 2 ^ 63 := w.index.tail_lt
    rw [← ho'] at hbnd
    have hbnd : x'.2 + IndexRecord.recordSize ≤ w.index.tail := hbnd
    exact ⟨hoffset, addU64_of_lt (by omega),
      subU64_of_le (Nat.le_trans hoffset (Nat.le_add_right _ _))⟩
  · intro hne t method
    obtain ⟨i, r, _, _, hrun⟩ :=
      yields_searchTimestamp (show Holds (w.get .index) recs from h) checks hne t method
    exact ⟨_, congrArg Prod.fst hrun.1⟩

/-- Clocks that were set back, and a record without a timestamp. -/
def unorderedRecords : List Record :=
  [⟨⟨⟨some 5⟩, 0, true, true⟩, by decide, by decide⟩,
    ⟨⟨⟨some 1⟩, 21, true, false⟩, by decide, by decide⟩,
    ⟨⟨⟨none⟩, 42, true, false⟩, by decide, by decide⟩,
    ⟨⟨⟨some 9⟩, 63, false, false⟩, by decide, by decide⟩]

def unorderedStreams : Streams :=
  ⟨⟨0, [], ByteStream.nil_tail_lt⟩, ⟨0, unorderedRecords.flatMap Record.frame, by decide⟩⟩

theorem search_monotone_unordered : ∃ x x',
    searched true unorderedStreams ⟨some 6⟩ .after = .ok x ∧
      searched true unorderedStreams ⟨some 7⟩ .after = .ok x' ∧ x.2 ≤ x'.2 := by
  have hindex : Holds unorderedStreams.index unorderedRecords :=
    ⟨by decide, by decide, rfl⟩
  obtain ⟨hmono, _, _, hfound⟩ := search_monotone true hindex
  obtain ⟨x, hx⟩ := hfound (by decide) ⟨some 6⟩ .after
  obtain ⟨x', hx'⟩ := hfound (by decide) ⟨some 7⟩ .after
  exact ⟨x, x', hx, hx', hmono (by decide) hx hx'⟩

end GstPravega.Video
