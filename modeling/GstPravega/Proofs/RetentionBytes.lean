import GstPravega.Proofs.RetentionDays
import GstPravega.Proofs.SizeSearch

/-!
# Retention by size

The pass searches for the record whose distance to the last one is the size to keep.
The distances fall from record to record, so where none is met exactly the neighbour
in front of the place is one whose distance is still larger than the size, and the pass
asks for that one. What it keeps is then more than it should.
-/

namespace GstPravega.Plugin

open GstPravega.Lib GstPravega.Client GstPravega.Video Program IndexSearcher
  RetentionMaintainer

/-- Data truncated at `o` is within the bound, and is not cut behind a record that is. -/
def KeepsBound (recs : List Record) (bytes : Nat) (o : Int) : Prop :=
  lastOffset recs - o ≤ bytes ∧
    ∀ i < recs.length, distanceAt recs i ≤ bytes → o ≤ offsetAt recs i

/-- The offsets a program truncates the data at. -/
def dataTruncations (p : StreamM Unit) (w : Streams) : List Int :=
  (calls Streams.answer p.run w).filterMap fun
    | (.truncateDataBefore .data o, _) => some o
    | _ => none

/-- What the search for a size gives, on either side of the place. -/
structure SizeLocated (recs : List Record) (bytes i : Nat) : Prop where
  lt_length : i < recs.length
  first : distanceAt recs 0 ≤ bytes → i = 0
  before : bytes < distanceAt recs 0 → distanceAt recs i = bytes ∨
    (bytes < distanceAt recs i ∧ i + 1 < recs.length ∧ distanceAt recs (i + 1) < bytes)

theorem SizeFound.located {recs : List Record} {bytes i : Nat}
    (h : SizeFound recs bytes .before i) : SizeLocated recs bytes i := by
  refine ⟨h.lt_length, h.within, fun hlt => ?_⟩
  rcases h.beyond hlt with heq | ⟨_, hnext, hfar, hnear⟩ | ⟨hm, _⟩
  · exact Or.inl heq
  · exact Or.inr ⟨hfar, hnext, hnear⟩
  · cases hm

section Size

variable {w : Streams} {recs : List Record} {bytes : Nat} {checks : Bool}

theorem dataTruncations_bind {α : Type} {p : StreamM α} {f : α → StreamM Unit} {a : α}
    {w' : Streams}
    (h : Yields Streams.answer (ReadsRecords .index w.index.head w.index.tail) p.run w
      (.ok a) w') :
    dataTruncations (p >>= f) w = dataTruncations (f a) w' := by
  have hnone : ∀ x ∈ calls Streams.answer p.run w, (match x with
      | (.truncateDataBefore .data o, _) => some o
      | _ => none : Option Int) = none := by
    rintro ⟨c, v⟩ hx
    have hc := h.2 _ hx
    cases c with
    | truncateDataBefore s o => cases hc
    | currentHead s => rfl
    | seekEnd s => rfl
    | read s o n => rfl
  rw [dataTruncations, show (p >>= f).run = p.run >>= ExceptT.bindCont _ from rfl,
    calls_bind, h.1, List.filterMap_append, List.filterMap_eq_nil_iff.mpr hnone]
  rfl

theorem dataTruncations_pass (now : PravegaTimestamp) :
    dataTruncations (pass checks now (none, some bytes)) w =
      dataTruncations (truncateIfFound
        (searchSizeAndReturnIndexOffset checks .index bytes .before)) w := rfl

/-- A pass over records truncates the data once, at the record that was found. -/
theorem pass_truncates (h : Holds w.index recs) (hne : recs ≠ [])
    (hsorted : Nondecreasing recs) (now : PravegaTimestamp) :
    ∃ i, SizeLocated recs bytes i ∧
      dataTruncations (pass checks now (none, some bytes)) w =
        [asI64 (offsetAt recs i)] := by
  have hindex : Holds (w.get .index) recs := h
  obtain ⟨i, r, hr, hfound, hrun⟩ :=
    @yields_searchSizeBy w .index recs bytes checks hindex hne hsorted .before
  refine ⟨i, hfound.located, ?_⟩
  rw [dataTruncations_pass, offsetAt_of_getElem? hr, truncateIfFound,
    dataTruncations_bind (StreamM.yields_attempt_ok hrun)]
  rfl

theorem pass_nil_truncates (h : Holds w.index []) {now : PravegaTimestamp} :
    dataTruncations (pass checks now (none, some bytes)) w = [] := by
  have hindex : Holds (w.get .index) [] := h
  have hsearch : Yields Streams.answer (ReadsRecords .index w.index.head w.index.tail)
      (searchSizeAndReturnIndexOffset checks .index bytes .before).run w
      (.error noRecords) w := yields_searchStart_nil hindex
  rw [dataTruncations_pass, truncateIfFound,
    dataTruncations_bind (StreamM.yields_attempt_error hsearch)]
  rfl

/-- One pass by size keeps the bound exactly when there is no record, or the whole index
is within it, or the distance of a record to the last one is the bound itself. -/
theorem bytes_pass_keeps_bound_iff (checks : Bool) (now : PravegaTimestamp) (w : Streams)
    (recs : List Record) (bytes : Nat) (h : Holds w.index recs)
    (hsorted : Nondecreasing recs) (hbytes : bytes < 2 ^ 64) :
    (recs ≠ [] → ∃ o, dataTruncations (pass checks now (none, some bytes)) w = [o]) ∧
      ((∀ o ∈ dataTruncations (pass checks now (none, some bytes)) w,
          KeepsBound recs bytes o) ↔
        recs = [] ∨ ∃ i < recs.length, offsetAt recs i < 2 ^ 63 ∧
          (i = 0 ∧ distanceAt recs 0 ≤ bytes ∨ distanceAt recs i = bytes)) := by
  by_cases hne : recs = []
  · subst hne
    refine ⟨fun hne => absurd rfl hne, fun _ => Or.inl rfl, fun _ o ho => ?_⟩
    rw [pass_nil_truncates h] at ho
    cases ho
  obtain ⟨i, hloc, htruncations⟩ :=
    @pass_truncates w recs bytes checks h hne hsorted now
  refine ⟨fun _ => ⟨_, htruncations⟩, ?_⟩
  rw [htruncations]
  have hi := hloc.lt_length
  have hx := hsorted.le_last hi
  constructor
  · intro hkeeps
    obtain ⟨hbound, -⟩ := hkeeps _ List.mem_cons_self
    have hlt : offsetAt recs i < 2 ^ 63 := by
      by_contra hge
      rw [asI64, if_neg hge] at hbound
      omega
    rw [asI64_of_lt hlt] at hbound
    refine Or.inr ⟨i, hi, hlt, ?_⟩
    rcases Nat.lt_or_ge bytes (distanceAt recs 0) with hgt | hle
    · rcases hloc.before hgt with heq | ⟨hout, _⟩
      · exact Or.inr heq
      · rw [distanceAt] at hout
        omega
    · exact Or.inl ⟨hloc.first hle, hle⟩
  · rintro (hnil | ⟨j, hj, hlt, hexact⟩) o ho
    · exact absurd hnil hne
    · rw [List.mem_singleton.mp ho]
      have hxj := hsorted.le_last hj
      have hcase : i = 0 ∧ distanceAt recs 0 ≤ bytes ∨
          distanceAt recs i = bytes ∧ distanceAt recs j = bytes := by
        rcases Nat.lt_or_ge bytes (distanceAt recs 0) with hgt | hle
        · have hexact := hexact.resolve_left (fun hc => by omega)
          refine Or.inr ⟨(hloc.before hgt).resolve_right ?_, hexact⟩
          rintro ⟨hout, hnext, hin⟩
          rw [distanceAt] at hout hin hexact
          rcases Nat.lt_or_ge i j with hij | hij
          · have := hsorted.le (show i + 1 ≤ j from hij) hj
            omega
          · have := hsorted.le hij hi
            omega
        · exact Or.inl ⟨hloc.first hle, hle⟩
      simp only [distanceAt] at hcase
      have hlt' : offsetAt recs i < 2 ^ 63 := by
        rcases hcase with ⟨rfl, _⟩ | _
        · have := hsorted.le (Nat.zero_le j) hj
          omega
        · omega
      rw [asI64_of_lt hlt']
      refine ⟨?_, fun k hk hkeep => ?_⟩
      · rcases hcase with ⟨rfl, _⟩ | _ <;> omega
      · have hxk := hsorted.le_last hk
        rw [distanceAt] at hkeep
        rcases hcase with ⟨rfl, _⟩ | _
        · exact_mod_cast hsorted.le (Nat.zero_le k) hk
        · omega

end Size

/-! ## A size between two records -/

/-- Two events of a hundred bytes with their records, and the record that closed the
recording. -/
def sizedEvents : List Event :=
  [⟨⟨⟨⟨some 1500⟩, true, true, true⟩, List.replicate 80 7⟩, by decide, by decide⟩,
    ⟨⟨⟨⟨some 2000⟩, true, true, false⟩, List.replicate 80 8⟩, by decide, by decide⟩]

def sizedRecords : List Record :=
  [⟨⟨⟨some 1500⟩, 0, true, true⟩, by decide, by decide⟩,
    ⟨⟨⟨some 2000⟩, 100, true, false⟩, by decide, by decide⟩,
    ⟨⟨⟨some 3000⟩, 200, false, false⟩, by decide, by decide⟩]

def sizedStreams : Streams :=
  ⟨⟨0, sizedEvents.flatMap Event.frame, by decide +kernel⟩,
    ⟨0, sizedRecords.flatMap Record.frame, by decide +kernel⟩⟩

theorem sized_holds : Holds sizedStreams.index sizedRecords :=
  ⟨by decide, by decide +kernel, rfl⟩

theorem sized_nondecreasing : Nondecreasing sizedRecords := by
  rw [Nondecreasing]
  decide

/-- To keep 150 bytes the data is to be truncated at 100. It is truncated at 0, and 200
bytes are kept. -/
theorem bytes_pass_exceeds_bound :
    Holds sizedStreams.index sizedRecords ∧ Nondecreasing sizedRecords ∧
      ¬ ∀ o ∈ dataTruncations (pass true ⟨some 4000⟩ (none, some 150)) sizedStreams,
        KeepsBound sizedRecords 150 o := by
  refine ⟨sized_holds, sized_nondecreasing, fun hall => ?_⟩
  have htruncations : dataTruncations (pass true ⟨some 4000⟩ (none, some 150))
      sizedStreams = [0] := by decide +kernel
  rw [htruncations] at hall
  exact absurd (hall 0 List.mem_cons_self).1 (by decide)

/-- To keep 100 bytes it is truncated at 100. -/
theorem bytes_pass_keeps_bound_iff_exact :
    dataTruncations (pass true ⟨some 4000⟩ (none, some 100)) sizedStreams = [100] ∧
      KeepsBound sizedRecords 100 100 := by
  have htruncations : dataTruncations (pass true ⟨some 4000⟩ (none, some 100))
      sizedStreams = [100] := by decide +kernel
  refine ⟨htruncations, ?_⟩
  exact (bytes_pass_keeps_bound_iff true ⟨some 4000⟩ sizedStreams sizedRecords 100 sized_holds
    sized_nondecreasing (by decide)).2.mpr (Or.inr ⟨1, by decide⟩) 100
    (htruncations ▸ List.mem_cons_self)

end GstPravega.Plugin
