import GstPravega.Proofs.IndexSearch

/-!
# The search by size

The same loop, over a judgment that runs the other way: along the index the distance
to the last record falls, so a record too far from it lies in front of the place that is
looked for. The distance of the first record is compared before the loop, with `<=`, and
that of the last is zero, so the loop starts between two records that bracket the size,
and equal offsets in the bracket do not matter to it.
-/

namespace GstPravega.Plugin

open GstPravega.Lib GstPravega.Client GstPravega.Video Program IndexSearcher

/-- The offsets do not decrease. -/
def Nondecreasing (recs : List Record) : Prop :=
  recs.Pairwise fun a b => a.offset ≤ b.offset

/-- The offset of the last record. -/
def lastOffset (recs : List Record) : Nat := offsetAt recs (recs.length - 1)

/-- The distance of the `i`-th record to the last one. -/
def distanceAt (recs : List Record) (i : Nat) : Nat := lastOffset recs - offsetAt recs i

section SizeSearch

variable {w : Streams} {reader : Stream} {recs : List Record} {bytes : Nat} {checks : Bool}

theorem Nondecreasing.le (h : Nondecreasing recs) {i j : Nat} (hij : i ≤ j)
    (hj : j < recs.length) : offsetAt recs i ≤ offsetAt recs j := by
  rcases Nat.lt_or_eq_of_le hij with hlt | rfl
  · have hi := Nat.lt_trans hlt hj
    rw [offsetAt_of_getElem? (List.getElem?_eq_getElem hi),
      offsetAt_of_getElem? (List.getElem?_eq_getElem hj)]
    exact List.pairwise_iff_getElem.mp h i j hi hj hlt
  · exact Nat.le_refl _

theorem Nondecreasing.le_last (h : Nondecreasing recs) {i : Nat} (hi : i < recs.length) :
    offsetAt recs i ≤ lastOffset recs := h.le (by omega) (by omega)

theorem distanceAt_last : distanceAt recs (recs.length - 1) = 0 := Nat.sub_self _

/-- On such an index the difference of the stored offsets is the distance. -/
theorem Nondecreasing.subU64 (h : Nondecreasing recs) {last : Record}
    (hlast : recs[recs.length - 1]? = some last) {i : Nat} {r : Record}
    (hr : recs[i]? = some r) :
    subU64 checks last.offset r.offset = some (distanceAt recs i) := by
  obtain ⟨hi, _⟩ := List.getElem?_eq_some_iff.mp hr
  have hle := h.le_last hi
  rw [lastOffset, offsetAt_of_getElem? hr, offsetAt_of_getElem? hlast] at hle
  rw [subU64_of_le hle, distanceAt, lastOffset, offsetAt_of_getElem? hr,
    offsetAt_of_getElem? hlast]

/-- The judgment of the `i`-th record. -/
def sizeOrderAt (recs : List Record) (bytes i : Nat) : Ordering :=
  if bytes > distanceAt recs i then .gt
  else if bytes < distanceAt recs i then .lt
  else .eq

theorem sizeOrderAt_gt {i : Nat} :
    sizeOrderAt recs bytes i = .gt ↔ distanceAt recs i < bytes := by
  rw [sizeOrderAt]
  split
  · simp [*]
  · split <;> simp [*]

theorem sizeOrderAt_lt {i : Nat} :
    sizeOrderAt recs bytes i = .lt ↔ bytes < distanceAt recs i := by
  rw [sizeOrderAt]
  split
  · simp [*]
    omega
  · split <;> simp [*]

theorem sizeOrderAt_eq {i : Nat} :
    sizeOrderAt recs bytes i = .eq ↔ distanceAt recs i = bytes := by
  rw [sizeOrderAt]
  split
  · simp [*]
    omega
  · split <;> simp [*] <;> omega

theorem sizeSide_eq (hsorted : Nondecreasing recs) {last : Record}
    (hlast : recs[recs.length - 1]? = some last) {i : Nat} {r : Record}
    (hr : recs[i]? = some r) :
    sizeSide checks bytes last.toIndexRecord r.toIndexRecord =
      some (sizeOrderAt recs bytes i) := by
  rw [sizeSide, hsorted.subU64 hlast hr, sizeOrderAt]
  rfl

/-- The record a search for a size is to return, by its number: the first one where that
is within the size, else an exact match or the neighbour on the side of the method. -/
structure SizeFound (recs : List Record) (bytes : Nat) (method : SearchMethod) (i : Nat) :
    Prop where
  lt_length : i < recs.length
  within : distanceAt recs 0 ≤ bytes → i = 0
  beyond : bytes < distanceAt recs 0 →
    distanceAt recs i = bytes ∨
      (method = .before ∧ i + 1 < recs.length ∧ bytes < distanceAt recs i ∧
        distanceAt recs (i + 1) < bytes) ∨
      (method = .after ∧ 0 < i ∧ bytes < distanceAt recs (i - 1) ∧
        distanceAt recs i < bytes)

/-- What the bracket of the bisection says of the record picked. -/
theorem sizeFound_of_brackets {method : SearchMethod} {b : Bisection}
    (hpos : 0 < recs.length) (hlt : bytes < distanceAt recs 0)
    (hb : b.Brackets (sizeOrderAt recs bytes) 0 (recs.length - 1)) :
    SizeFound recs bytes method (method.pick b) := by
  have hwithin : ∀ i, distanceAt recs 0 ≤ bytes → i = 0 := fun i hle => by omega
  cases b with
  | hit i =>
      obtain ⟨_, hi, heq⟩ := hb
      have hlt : i < recs.length := by omega
      exact ⟨hlt, hwithin _, fun _ => Or.inl (sizeOrderAt_eq.mp heq)⟩
  | gap i =>
      obtain ⟨h0, hi, hl, hg⟩ := hb
      have hl := sizeOrderAt_lt.mp hl
      have hg := sizeOrderAt_gt.mp hg
      have hlast : i < recs.length := by
        -- The gap is in front of a record that is too near, and the last one is there.
        omega
      cases method with
      | before =>
          have hprev : i - 1 < recs.length := by omega
          refine ⟨hprev, hwithin _, fun _ => Or.inr (Or.inl ⟨rfl, ?_, hl, ?_⟩)⟩
          · show i - 1 + 1 < recs.length
            omega
          · show distanceAt recs (i - 1 + 1) < bytes
            rw [Nat.sub_add_cancel h0]
            exact hg
      | after => exact ⟨hlast, hwithin _, fun _ => Or.inr (Or.inr ⟨rfl, h0, hl, hg⟩)⟩

/-- The search, on a stream left alone that has a record. -/
theorem yields_searchSizeBy (h : Holds (w.get reader) recs) (hne : recs ≠ [])
    (hsorted : Nondecreasing recs) (method : SearchMethod) :
    ∃ i r, recs[i]? = some r ∧ SizeFound recs bytes method i ∧
      Yields Streams.answer
        (ReadsRecords reader (w.get reader).head (w.get reader).tail)
        (searchSizeAndReturnIndexOffset checks reader bytes method).run w
        (.ok (r.toIndexRecord, recordOffset w reader i)) w := by
  have hpos := List.length_pos_iff.mpr hne
  have hlastlt : recs.length - 1 < recs.length := by omega
  have hlast := List.getElem?_eq_getElem hlastlt
  have hfirst := List.getElem?_eq_getElem hpos
  by_cases hle : distanceAt recs 0 ≤ bytes
  · refine ⟨0, _, hfirst, ⟨hpos, fun _ => rfl, fun hlt => by omega⟩, ?_⟩
    refine yields_searchStart h hlast ?_
    refine Yields.bindE (yields_readRecord h hfirst) ?_
    refine Yields.bindE (StreamM.yields_checked (hsorted.subU64 hlast hfirst)) ?_
    rw [if_pos hle]
    exact StreamM.yields_pure _
  have hlt := Nat.lt_of_not_le hle
  have hzero := @distanceAt_last recs
  have hf : sizeOrderAt recs bytes 0 ≠ .gt := by
    rw [ne_eq, sizeOrderAt_gt]
    omega
  have hl : sizeOrderAt recs bytes (recs.length - 1) ≠ .lt := by
    rw [ne_eq, sizeOrderAt_lt]
    omega
  have hfuel : recs.length - 1 - 0 < (w.get reader).tail := by
    have := length_le_tail h
    omega
  obtain ⟨b, hgo, hb⟩ := bisect_brackets (Nat.zero_le _) hfuel hf hl
  have hfound : SizeFound recs bytes method (method.pick b) :=
    sizeFound_of_brackets hpos hlt hb
  have hr := List.getElem?_eq_getElem hfound.lt_length
  refine ⟨_, _, hr, hfound, ?_⟩
  refine yields_searchStart h hlast ?_
  refine Yields.bindE (yields_readRecord h hfirst) ?_
  refine Yields.bindE (StreamM.yields_checked (hsorted.subU64 hlast hfirst)) ?_
  rw [if_neg hle]
  exact yields_searchLoop h (fun i r hi => sizeSide_eq hsorted hlast hi) hr _ 0 _
    (Nat.zero_le _) hlastlt hgo

end SizeSearch

/-! ## The search is correct -/

/-- On an index with nondecreasing offsets the search ends, reads whole records of the
index only, and returns a record with its own byte offset: the first where its distance
to the last is within the size, else an exact match, else the neighbour that is still too
far for `Before` and the one that is already too near for `After`. In the build with
overflow checks a difference below zero would have been a panic. -/
theorem search_size_correct (checks : Bool) (w : Streams) (reader : Stream)
    (recs : List Record) (bytes : Nat) (method : SearchMethod)
    (h : Holds (w.get reader) recs) (hne : recs ≠ []) (hsorted : Nondecreasing recs) :
    ∃ i r, recs[i]? = some r ∧
      Yields Streams.answer
        (ReadsRecords reader (w.get reader).head (w.get reader).tail)
        (searchSizeAndReturnIndexOffset checks reader bytes method).run w
        (.ok (r.toIndexRecord, (w.get reader).head + IndexRecord.recordSize * i)) w ∧
      (distanceAt recs 0 ≤ bytes → i = 0) ∧
      (bytes < distanceAt recs 0 →
        distanceAt recs i = bytes ∨
          (method = .before ∧ i + 1 < recs.length ∧ bytes < distanceAt recs i ∧
            distanceAt recs (i + 1) < bytes) ∨
          (method = .after ∧ 0 < i ∧ bytes < distanceAt recs (i - 1) ∧
            distanceAt recs i < bytes)) := by
  obtain ⟨i, r, hr, hfound, hrun⟩ :=
    @yields_searchSizeBy w reader recs bytes checks h hne hsorted method
  exact ⟨i, r, hr, hrun, hfound.within, hfound.beyond⟩

/-- Four records behind a truncated one. Two of them have the same offset. -/
def truncatedRecords : List Record :=
  [⟨⟨⟨some 1200⟩, 0, true, true⟩, by decide, by decide⟩,
    ⟨⟨⟨some 2500⟩, 300, true, false⟩, by decide, by decide⟩,
    ⟨⟨⟨some 3500⟩, 300, false, false⟩, by decide, by decide⟩,
    ⟨⟨⟨some 4500⟩, 500, false, false⟩, by decide, by decide⟩]

def truncatedStreams : Streams :=
  ⟨⟨0, [], ByteStream.nil_tail_lt⟩,
    ⟨20, List.replicate 20 9 ++ truncatedRecords.flatMap Record.frame, by decide +kernel⟩⟩

/-- 400 bytes lie between the first record and the second. -/
theorem search_size_correct_after :
    (run Streams.answer
      (searchSizeAndReturnIndexOffset true .index 400 .after).run truncatedStreams).1 =
      .ok (⟨⟨some 2500⟩, 300, true, false⟩, 40) := by
  obtain ⟨i, r, hr, hrun, -, hbeyond⟩ := search_size_correct true truncatedStreams .index
    truncatedRecords 400 .after ⟨by decide, by decide +kernel, rfl⟩ (List.cons_ne_nil _ _)
    (by rw [Nondecreasing]; decide)
  have hone : ∀ j < 4, distanceAt truncatedRecords j ≠ 400 ∧
      (distanceAt truncatedRecords j < 400 → 400 < distanceAt truncatedRecords (j - 1) →
        j = 1) := by decide
  obtain ⟨hi, _⟩ := List.getElem?_eq_some_iff.mp hr
  obtain ⟨hne, hnear⟩ := hone i hi
  obtain rfl : i = 1 := by
    rcases hbeyond (by decide) with heq | ⟨hm, _⟩ | ⟨_, _, hfar, hlt⟩
    · exact absurd heq hne
    · cases hm
    · exact hnear hlt hfar
  obtain rfl := Option.some.inj hr
  exact congrArg Prod.fst hrun.1

end GstPravega.Plugin
