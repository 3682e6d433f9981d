import GstPravega.Proofs.PayCalls

/-!
# The times and flags of a fragment

The tally of a fragment is kept buffer by buffer and is started anew when the fragment is
pushed, and only then. So the media data of an mdat atom that is dropped stays in it, and
the next fragment is pushed with times and flags that are not its own.

Where nothing was left in it, the tally is right but for the DTS: a missing DTS is less
than any other, and takes the place of the least one so far.
-/

namespace GstPravega.Plugin.FragMp4Pay

open GstPravega.Lib GstPravega.Gst

/-- The times and the flags of the buffer are those of the input buffers. -/
structure Describes (out : PayBuffer) (own : List PayBuffer) : Prop where
  pts : Extreme (· ≤ ·) (own.map fun b => b.pts) out.pts
  dts : Extreme (· ≤ ·) (own.map fun b => b.dts) out.dts
  ends : Extreme (· ≥ ·) (own.map fun b => b.pts.add b.duration) (out.pts.add out.duration)
  deltaUnit : out.flags.deltaUnit = true ↔ ∀ b ∈ own, b.flags.deltaUnit = true
  discont : out.flags.discont = true ↔ ∃ b ∈ own, b.flags.discont = true

section Tally

variable {own : List PayBuffer} {st : StartedState}

theorem add_sub_of_le {p m : UInt64} (h : p ≤ m) :
    ClockTime.add (some p) (ClockTime.sub (some m) (some p)) = some m := by
  have hle := UInt64.le_iff_toNat_le.mp h
  have hsub : (m - p).toNat = m.toNat - p.toNat := UInt64.toNat_sub_of_le m p h
  have hlt := m.toNat_lt
  rw [ClockTime.sub, if_pos h, ClockTime.add, hsub, if_pos (by omega), UInt64.add_comm,
    UInt64.sub_add_cancel]

/-- A sum that is there is no less than what was added to. -/
theorem le_of_add_eq_some {a d : ClockTime} {m : UInt64} (h : a.add d = some m) :
    ∃ p, a = some p ∧ p ≤ m := by
  cases a with
  | none => cases h
  | some p =>
      cases d with
      | none => cases h
      | some d =>
          rw [ClockTime.add] at h
          split at h
          · next hlt =>
              cases h
              refine ⟨p, rfl, UInt64.le_iff_toNat_le.mpr ?_⟩
              rw [UInt64.toNat_add, Nat.mod_eq_of_lt hlt]
              exact Nat.le_add_right _ _
          · cases h

theorem Tallied.extreme_pts (h : Tallied own st) :
    Extreme (· ≤ ·) (own.map fun b => b.pts) st.fragmentPts := by
  rw [h.pts]
  exact extreme_foldl_keepLeast (fun _ => UInt64.le_refl _) (fun _ _ _ => UInt64.le_trans)
    UInt64.le_total _ (List.forall_mem_map.mpr h.timed)

theorem Tallied.extreme_dts_iff (h : Tallied own st) :
    Extreme (· ≤ ·) (own.map fun b => b.dts) st.fragmentDts ↔
      Regained (· ≤ ·) (own.map fun b => b.dts) := by
  rw [h.dts]
  exact extreme_foldl_keepLeast_iff (fun _ => UInt64.le_refl _) (fun _ _ _ => UInt64.le_trans)
    UInt64.le_total _

theorem Tallied.extreme_ends (h : Tallied own st) :
    Extreme (· ≥ ·) (own.map fun b => b.pts.add b.duration) st.fragmentMaxPtsPlusDuration := by
  rw [h.ends]
  exact extreme_foldl_keepGreatest (r := (· ≥ ·)) (fun _ => UInt64.le_refl _)
    (fun _ _ _ h h' => UInt64.le_trans h' h) (fun a b => UInt64.le_total b a) _

/-- The end that the duration is reckoned from. -/
theorem Tallied.add_duration (h : Tallied own st) :
    st.fragmentPts.add (st.fragmentMaxPtsPlusDuration.sub st.fragmentPts) =
      st.fragmentMaxPtsPlusDuration := by
  have hpts := h.extreme_pts
  have hends := h.extreme_ends
  revert hpts hends
  generalize st.fragmentPts = pts
  cases st.fragmentMaxPtsPlusDuration with
  | none => intro _ _; cases pts <;> rfl
  | some m =>
      intro hpts hends
      -- The end is that of a buffer, which begins no earlier than the fragment.
      obtain ⟨b, hb, hm⟩ := List.mem_map.mp hends.1
      obtain ⟨q, hq, hqm⟩ := le_of_add_eq_some hm
      have hmem : some q ∈ own.map fun b => b.pts := List.mem_map.mpr ⟨b, hb, hq⟩
      cases pts with
      | none => cases hpts _ hmem
      | some p => exact add_sub_of_le (UInt64.le_trans (hpts.2 q hmem) hqm)

/-- The least time is one that a buffer has, so that it can be stored. -/
theorem Tallied.output_pts (h : Tallied own st) (payload : List UInt8) :
    (st.output payload).pts = st.fragmentPts := by
  refine ClockTime.stored_of_ne fun hmax => ?_
  rw [h.pts] at hmax
  obtain ⟨b, _, hb⟩ := List.mem_map.mp (mem_of_foldl_keepLeast hmax)
  exact b.pts_ne hb

theorem Tallied.output_dts (h : Tallied own st) (payload : List UInt8) :
    (st.output payload).dts = st.fragmentDts := by
  refine ClockTime.stored_of_ne fun hmax => ?_
  rw [h.dts] at hmax
  obtain ⟨b, _, hb⟩ := List.mem_map.mp (mem_of_foldl_keepLeast hmax)
  exact b.storedDts.storable hb

theorem Tallied.describes_iff (h : Tallied own st) (payload : List UInt8) :
    Describes (st.output payload) own ↔ Regained (· ≤ ·) (own.map fun b => b.dts) := by
  have hends : Extreme (· ≥ ·) (own.map fun b => b.pts.add b.duration)
      ((st.output payload).pts.add (st.output payload).duration) := by
    have hduration : (st.output payload).duration =
        st.fragmentMaxPtsPlusDuration.sub st.fragmentPts := rfl
    rw [h.output_pts, hduration, h.add_duration]
    exact h.extreme_ends
  have hdts := h.extreme_dts_iff
  rw [← h.output_dts payload] at hdts
  constructor
  · exact fun hdescribes => hdts.mp hdescribes.dts
  · intro hregained
    refine ⟨?_, hdts.mpr hregained, hends, ?_, ?_⟩
    · rw [h.output_pts]
      exact h.extreme_pts
    · rw [show (st.output payload).flags.deltaUnit = _ from h.deltaUnit, List.all_eq_true]
    · rw [show (st.output payload).flags.discont = _ from h.discont, List.any_eq_true]

end Tally

/-- **The times and flags of a fragment.** Whatever the element downstream answers, for
each buffer that is pushed: if nothing is left of an mdat atom that was dropped, then the
times and the flags are those of the buffers of its own mdat atom, exactly where behind
each of these without a DTS there comes a DTS no greater than those in front of it. -/
theorem describes_iff_regained (downstream : Downstream) (atoms : List Mp4Atom)
    (buffers : List PayBuffer) (h : Arrives atoms (readables buffers)) :
    ∃ handled, handled <+: atoms ∧
      ((Calls.after (payCall downstream) buffers (some .default, [])).1.isSome = true →
        handled = atoms) ∧
      List.Forall₂ (fun out place =>
          (∃ fragment, fragmentAt place.before place.mdat = some fragment ∧
            Carries out fragment) ∧
          (Unspoilt (readables buffers) place.before →
            (Describes out (ownBuffers (readables buffers) place.before place.mdat) ↔
              Regained (· ≤ ·) ((ownBuffers (readables buffers) place.before place.mdat).map
                fun b => b.dts))))
        (Calls.after (payCall downstream) buffers (some .default, [])).2 (places handled) := by
  obtain ⟨handled, hprefix, hsome, hpaid⟩ := paid_places downstream atoms buffers h
  refine ⟨handled, hprefix, hsome, hpaid.imp fun out place hpaid => ⟨hpaid.carries, ?_⟩⟩
  intro hunspoilt
  obtain ⟨left, st, hleft, htallied, hout⟩ := hpaid.tallied
  rw [hleft hunspoilt, List.nil_append] at htallied
  rw [hout]
  exact htallied.describes_iff out.payload

def bufferAt (pts : UInt64) (flags : BufferFlags) (atom : Mp4Atom) : PayBuffer :=
  ⟨⟨ClockTime.store (some pts), some 40000000, flags, atom.atomBytes, true, none, none⟩,
    ClockTime.store (some pts)⟩

theorem describes_fragmentAtoms : ∃ out,
    (Calls.after (payCall fun _ => .ok ()) (fragmentAtoms.map (bufferAt 5000000000 fragmentFlags))
      (some .default, [])).2 = [out] ∧
    Describes out [bufferAt 5000000000 fragmentFlags mdatAtom] := by
  have harrives : Arrives fragmentAtoms (fragmentAtoms.map (bufferAt 5000000000 fragmentFlags)) :=
    arrives_of_forall₂ fragmentAtoms_delivered.wellFormed
      (List.forall₂_map_right_iff.mpr (List.forall₂_same.mpr fun _ _ => rfl))
  obtain ⟨handled, -, hsome, hpushed⟩ :=
    describes_iff_regained (fun _ => .ok ()) fragmentAtoms
      (fragmentAtoms.map (bufferAt 5000000000 fragmentFlags)) harrives
  rw [hsome (by decide +kernel), show places fragmentAtoms =
    [⟨fragmentAtoms.take 3, mdatAtom⟩] by decide +kernel] at hpushed
  obtain ⟨out, outs, ⟨-, hdescribes⟩, hnil, hafter⟩ := List.forall₂_cons_right_iff.mp hpushed
  rw [List.forall₂_nil_right_iff.mp hnil] at hafter
  refine ⟨out, hafter, ?_⟩
  have hown : ownBuffers (readables (fragmentAtoms.map (bufferAt 5000000000 fragmentFlags)))
      (fragmentAtoms.take 3) mdatAtom = [bufferAt 5000000000 fragmentFlags mdatAtom] := by
    decide +kernel
  rw [hown] at hdescribes
  refine (hdescribes fun _ pre atom post heq => ownBuffers_of_ne ?_).mpr ?_
  · have hnone : ∀ a ∈ fragmentAtoms.take 3, a.atomType ≠ ATOM_TYPE_MDAT := by decide +kernel
    dsimp only at heq
    rw [heq] at hnone
    exact hnone atom (List.mem_append_right _ List.mem_cons_self)
  · exact regained_of_isSome (List.forall_mem_singleton.mpr rfl)

/-- An mdat atom before the header is dropped. The fragment behind it has its times, and is
taken for one with a key frame. -/
theorem describes_fails_dropped : ∃ out,
    Arrives (mdatAtom :: fragmentAtoms) (bufferAt 1000000000 BufferFlags.empty mdatAtom ::
      fragmentAtoms.map (bufferAt 5000000000 fragmentFlags)) ∧
    (Calls.after (payCall fun _ => .ok ()) (bufferAt 1000000000 BufferFlags.empty mdatAtom ::
      fragmentAtoms.map (bufferAt 5000000000 fragmentFlags)) (some .default, [])).2 = [out] ∧
    out.pts = some 1000000000 ∧ out.flags.deltaUnit = false ∧
    ownBuffers (bufferAt 1000000000 BufferFlags.empty mdatAtom ::
      fragmentAtoms.map (bufferAt 5000000000 fragmentFlags)) (mdatAtom :: fragmentAtoms.take 3)
      mdatAtom = [bufferAt 5000000000 fragmentFlags mdatAtom] ∧
    ¬ Describes out [bufferAt 5000000000 fragmentFlags mdatAtom] := by
  refine ⟨⟨⟨ClockTime.store (some 1000000000), some 4040000000, BufferFlags.empty,
    fragmentAtoms.flatMap Mp4Atom.atomBytes, true, none, none⟩,
    ClockTime.store (some 1000000000)⟩, ?_,
    by decide +kernel, rfl, rfl, by decide +kernel, ?_⟩
  · refine arrives_of_forall₂ (List.forall_mem_cons.mpr
      ⟨mdatAtom_wellFormed, fragmentAtoms_delivered.wellFormed⟩) ?_
    exact List.Forall₂.cons rfl
      (List.forall₂_map_right_iff.mpr (List.forall₂_same.mpr fun _ _ => rfl))
  · intro hdescribes
    cases List.mem_singleton.mp hdescribes.pts.1

end GstPravega.Plugin.FragMp4Pay
