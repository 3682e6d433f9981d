import GstPravega.Proofs.PayCalls
import Mathlib.Data.List.DropRight

/-!
# Which moof atom goes with which mdat atom

The element keeps a moof atom when it has pushed it. The next mdat atom goes with the same
one, unless another has come in between. Where a moof atom comes between any two mdat
atoms the second of which is pushed, none goes with more than one of them.
-/

namespace GstPravega.Plugin.FragMp4Pay

open GstPravega.Lib GstPravega.Gst

def notMoof (atom : Mp4Atom) : Bool := atom.atomType != ATOM_TYPE_MOOF

namespace Place

/-- Where in the stream the most recent moof atom stands. -/
def moofAt (place : Place) : Nat := (place.before.rdropWhile notMoof).length - 1

/-- The atoms between that moof atom and the mdat atom. -/
def sinceMoof (place : Place) : List Mp4Atom := place.before.rtakeWhile notMoof

end Place

/-- No moof atom goes with two mdat atoms, and each comes behind the mdat atom before the
one it goes with. -/
structure Fresh (pushed : List Place) : Prop where
  once : (pushed.map Place.moofAt).Nodup
  since : ∀ place ∈ pushed, ∀ atom ∈ place.sinceMoof, atom.atomType ≠ ATOM_TYPE_MDAT

/-- Of two mdat atoms without a moof atom between them the second is one that comes before
the header and a moof atom are there. -/
def MoofBetween (atoms : List Mp4Atom) : Prop :=
  ∀ pre first mid second post, atoms = pre ++ first :: mid ++ second :: post →
    first.atomType = ATOM_TYPE_MDAT → second.atomType = ATOM_TYPE_MDAT →
    (∀ atom ∈ mid, atom.atomType ≠ ATOM_TYPE_MOOF) →
    fragmentAt (pre ++ first :: mid) second = none

section Places

variable {atoms before rest : List Mp4Atom} {place : Place} {fragment : Fragment}

theorem notMoof_iff {atom : Mp4Atom} :
    notMoof atom = true ↔ atom.atomType ≠ ATOM_TYPE_MOOF := bne_iff_ne

/-- The moof atom that goes with the mdat atom. The induction is on the last atom. -/
theorem exists_moof_split (h : (latest ATOM_TYPE_MOOF before).isSome = true) :
    ∃ pre moof, latest ATOM_TYPE_MOOF before = some moof ∧
      before.rdropWhile notMoof = pre ++ [moof] := by
  induction before using List.reverseRecOn with
  | nil => cases h
  | append_singleton before atom ih =>
      rw [latest_append] at h ⊢
      split at h
      · next hmoof =>
          rw [if_pos hmoof]
          refine ⟨before, atom, rfl, List.rdropWhile_concat_neg _ _ _ ?_⟩
          rw [notMoof_iff]
          exact fun hne => hne hmoof
      · next hmoof =>
          rw [if_neg hmoof, List.rdropWhile_concat_pos _ _ _ (notMoof_iff.mpr hmoof)]
          exact ih h

theorem rtakeWhile_append {α : Type} {p : α → Bool} {xs ys : List α}
    (h : ∀ y ∈ ys, p y = true) : (xs ++ ys).rtakeWhile p = xs.rtakeWhile p ++ ys := by
  rw [List.rtakeWhile, List.reverse_append, List.takeWhile_append_of_pos
    (fun y hy => h y (List.mem_reverse.mp hy)), List.reverse_append, List.reverse_reverse,
    List.rtakeWhile]

theorem fragmentAt_moof (h : fragmentAt before place.mdat = some fragment) :
    latest ATOM_TYPE_MOOF before = some fragment.moof ∧ fragment.mdat = place.mdat := by
  rw [fragmentAt] at h
  split at h
  · obtain ⟨ftyp, -, h⟩ := Option.bind_eq_some_iff.mp h
    obtain ⟨moov, -, h⟩ := Option.bind_eq_some_iff.mp h
    obtain ⟨moof, hmoof, h⟩ := Option.bind_eq_some_iff.mp h
    cases h
    exact ⟨hmoof, rfl⟩
  · cases h

/-- The atoms in front of the mdat atom, cut behind the moof atom that goes with it. -/
theorem before_eq (h : fragmentAt place.before place.mdat = some fragment) :
    ∃ pre, place.before = pre ++ fragment.moof :: place.sinceMoof ∧ place.moofAt = pre.length := by
  have hlatest := (fragmentAt_moof h).1
  obtain ⟨pre, moof, hmoof, hdrop⟩ := exists_moof_split (Option.isSome_of_eq_some hlatest)
  rw [hlatest] at hmoof
  cases hmoof
  refine ⟨pre, ?_, ?_⟩
  · rw [Place.sinceMoof, List.append_cons, ← hdrop, List.rdropWhile_append_rtakeWhile]
  · rw [Place.moofAt, hdrop, List.length_append]
    rfl

theorem mem_places (h : place ∈ places atoms) :
    (fragmentAt place.before place.mdat).isSome = true ∧
      ∃ post, atoms = place.before ++ place.mdat :: post := by
  obtain ⟨hat, pre, post, rfl, hbefore⟩ := mem_placesFrom h
  rw [List.nil_append] at hbefore
  exact ⟨hat, post, by rw [hbefore]⟩

theorem places_append_cons (before rest : List Mp4Atom) (atom : Mp4Atom) :
    places (before ++ atom :: rest) =
      places before ++ (placeAt before atom ++ placesFrom (before ++ [atom]) rest) :=
  placesFrom_append [] before (atom :: rest)

/-- The atoms of a pushed buffer, where they stand in the stream. -/
theorem getElem?_moofAt (hplace : place ∈ places atoms)
    (hat : fragmentAt place.before place.mdat = some fragment) :
    atoms[place.moofAt]? = some fragment.moof ∧
      atoms[place.before.length]? = some fragment.mdat := by
  obtain ⟨-, post, rfl⟩ := mem_places hplace
  obtain ⟨pre, hbefore, hmoofAt⟩ := before_eq hat
  constructor
  · rw [hmoofAt, hbefore, List.append_assoc, List.cons_append,
      List.getElem?_append_right (Nat.le_refl _), Nat.sub_self]
    rfl
  · rw [List.getElem?_append_right (Nat.le_refl _), Nat.sub_self, (fragmentAt_moof hat).2]
    rfl

/-- Each one is in front of the next. The induction is on the atoms. -/
theorem pairwise_placesFrom (before rest : List Mp4Atom) :
    (placesFrom before rest).Pairwise fun p q => ∃ mid, q.before = p.before ++ p.mdat :: mid := by
  induction rest generalizing before with
  | nil => exact List.Pairwise.nil
  | cons atom rest ih =>
      refine List.pairwise_append.mpr ⟨?_, ih _, fun p hp q hq => ?_⟩
      · rw [placeAt]
        split
        · exact List.pairwise_singleton _ _
        · exact List.Pairwise.nil
      · obtain ⟨rfl, -⟩ := mem_placeAt hp
        obtain ⟨-, pre, -, -, hbefore⟩ := mem_placesFrom hq
        exact ⟨pre, by rw [hbefore, List.append_assoc, List.singleton_append]⟩

/-- A moof atom behind each mdat atom stands behind the moof atom that goes with that
one. -/
theorem moofAt_lt {p q : Place} {mid : List Mp4Atom}
    (hp : (fragmentAt p.before p.mdat).isSome = true)
    (hq : (fragmentAt q.before q.mdat).isSome = true)
    (hbefore : q.before = p.before ++ p.mdat :: mid)
    (hsince : ∀ atom ∈ q.sinceMoof, atom.atomType ≠ ATOM_TYPE_MDAT) : p.moofAt < q.moofAt := by
  obtain ⟨fragment, hfragment⟩ := Option.isSome_iff_exists.mp hp
  obtain ⟨fragment', hfragment'⟩ := Option.isSome_iff_exists.mp hq
  obtain ⟨pre, hpre, hpAt⟩ := before_eq hfragment
  obtain ⟨pre', hpre', hqAt⟩ := before_eq hfragment'
  have hlen := congrArg List.length hpre
  rw [List.length_append, List.length_cons] at hlen
  -- The mdat atom of `p` is not behind the moof atom of `q`.
  have hle : p.before.length < pre'.length + 1 := by
    by_contra hge
    have hmem : p.mdat ∈ q.sinceMoof := by
      have hdrop := congrArg (List.drop (pre'.length + 1)) (hpre'.symm.trans hbefore)
      rw [List.drop_append, Nat.sub_eq_of_eq_add' rfl, List.drop_of_length_le (by omega),
        List.nil_append, List.drop_one, List.tail_cons] at hdrop
      rw [hdrop, List.drop_append_of_le_length (by omega)]
      exact List.mem_append_right _ List.mem_cons_self
    exact hsince _ hmem (isSome_fragmentAt.mp hp).1
  omega

theorem fresh_places_iff : Fresh (places atoms) ↔ MoofBetween atoms := by
  constructor
  · rintro hfresh pre first mid second post rfl hfirst hsecond hmid
    cases hat : fragmentAt (pre ++ first :: mid) second with
    | none => rfl
    | some fragment =>
        have hplace : ⟨pre ++ first :: mid, second⟩ ∈
            places (pre ++ first :: mid ++ second :: post) := by
          rw [places_append_cons, placeAt, hat]
          exact List.mem_append_right _ List.mem_cons_self
        have hsince : Place.sinceMoof ⟨pre ++ first :: mid, second⟩ =
            pre.rtakeWhile notMoof ++ first :: mid := by
          refine rtakeWhile_append fun atom hatom => notMoof_iff.mpr ?_
          rcases List.mem_cons.mp hatom with rfl | hatom
          · rw [hfirst]
            decide
          · exact hmid atom hatom
        refine absurd hfirst (hfresh.since _ hplace first ?_)
        rw [hsince]
        exact List.mem_append_right _ List.mem_cons_self
  · intro hbetween
    have hsince : ∀ place ∈ places atoms, ∀ atom ∈ place.sinceMoof,
        atom.atomType ≠ ATOM_TYPE_MDAT := by
      intro place hplace atom hatom hmdat
      obtain ⟨hat, post, rfl⟩ := mem_places hplace
      obtain ⟨fragment, hfragment⟩ := Option.isSome_iff_exists.mp hat
      obtain ⟨pre, hbefore, -⟩ := before_eq hfragment
      obtain ⟨xs, mid, hsplit⟩ := List.append_of_mem hatom
      have hnot : ∀ a ∈ mid, a.atomType ≠ ATOM_TYPE_MOOF := fun a ha => notMoof_iff.mp
        (List.mem_rtakeWhile_imp (hsplit ▸ List.mem_append_right _ (List.mem_cons_of_mem _ ha)))
      have hcut : place.before = (pre ++ fragment.moof :: xs) ++ atom :: mid := by
        rw [hbefore, hsplit, List.append_assoc, List.cons_append]
      have hnone := hbetween _ atom mid place.mdat post (by rw [← hcut]) hmdat
        (isSome_fragmentAt.mp hat).1 hnot
      rw [← hcut, hfragment] at hnone
      cases hnone
    refine ⟨List.pairwise_map.mpr ?_, hsince⟩
    refine (pairwise_placesFrom [] atoms).imp_of_mem ?_
    rintro p q hp hq ⟨mid, hbefore⟩
    exact Nat.ne_of_lt (moofAt_lt (mem_places hp).1 (mem_places hq).1 hbefore (hsince q hq))

end Places

/-- **A moof atom in one buffer only.** Whatever the element downstream answers, each
buffer that is pushed has the moof atom at `moofAt` and the mdat atom behind all that come
before it. No moof atom is in two of them, and each comes behind the mdat atom before its
own, exactly where no two mdat atoms come without a moof atom between them, but for those
the second of which is dropped. -/
theorem fresh_iff_moofBetween (downstream : Downstream) (atoms : List Mp4Atom)
    (buffers : List PayBuffer) (h : Arrives atoms (readables buffers)) :
    ∃ handled, handled <+: atoms ∧
      ((Calls.after (payCall downstream) buffers (some .default, [])).1.isSome = true →
        handled = atoms) ∧
      List.Forall₂ (fun out place => ∃ fragment, Carries out fragment ∧
          handled[place.moofAt]? = some fragment.moof ∧
          handled[place.before.length]? = some fragment.mdat)
        (Calls.after (payCall downstream) buffers (some .default, [])).2 (places handled) ∧
      (Fresh (places handled) ↔ MoofBetween handled) := by
  obtain ⟨handled, hprefix, hsome, hpaid⟩ := paid_places downstream atoms buffers h
  refine ⟨handled, hprefix, hsome, ?_, fresh_places_iff⟩
  have hmem := (List.forall₂_and_left (places handled) _).mpr ⟨fun _ h => h, hpaid.flip⟩
  refine hmem.flip.imp fun out place ⟨hplace, hpaid⟩ => ?_
  obtain ⟨fragment, hat, hcarries⟩ := hpaid.carries
  exact ⟨fragment, hcarries, getElem?_moofAt hplace hat⟩

/-- Two fragments behind one header. -/
def twoFragments : List Mp4Atom := fragmentAtoms ++ fragmentAtoms.drop 2

theorem arrives_twoFragments :
    Arrives twoFragments (readables (twoFragments.map atomBuffer)) := by
  have hreadable : readables (twoFragments.map atomBuffer) = twoFragments.map atomBuffer := rfl
  rw [hreadable]
  refine arrives_of_forall₂ (fun atom hatom => ?_) ?_
  · rcases List.mem_append.mp hatom with hatom | hatom
    · exact fragmentAtoms_delivered.wellFormed atom hatom
    · exact fragmentAtoms_delivered.wellFormed atom (List.mem_of_mem_drop hatom)
  · exact List.forall₂_map_right_iff.mpr (List.forall₂_same.mpr fun _ _ => rfl)

theorem fresh_iff_moofBetween_two : MoofBetween twoFragments := by
  obtain ⟨handled, -, hsome, -, hiff⟩ := fresh_iff_moofBetween (fun _ => .ok ()) twoFragments
    (twoFragments.map atomBuffer) arrives_twoFragments
  rw [hsome (by decide +kernel)] at hiff
  exact hiff.mp ⟨by decide +kernel, by decide +kernel⟩

/-- Two mdat atoms behind one moof atom: both are pushed with it. -/
theorem fresh_fails_two :
    Arrives (fragmentAtoms ++ [mdatAtom]) ((fragmentAtoms ++ [mdatAtom]).map atomBuffer) ∧
    (Calls.after (payCall fun _ => .ok ()) ((fragmentAtoms ++ [mdatAtom]).map atomBuffer)
        (some .default, [])).2.map (fun out => out.payload) =
      List.replicate 2 (fragmentAtoms.flatMap Mp4Atom.atomBytes) ∧
    (places (fragmentAtoms ++ [mdatAtom])).map Place.moofAt = [2, 2] ∧
    ¬ Fresh (places (fragmentAtoms ++ [mdatAtom])) := by
  have hplaces : (places (fragmentAtoms ++ [mdatAtom])).map Place.moofAt = [2, 2] := by
    decide +kernel
  refine ⟨arrives_of_forall₂ ?_ ?_, by decide +kernel, hplaces, fun hfresh => ?_⟩
  · intro atom hatom
    rcases List.mem_append.mp hatom with hatom | hatom
    · exact fragmentAtoms_delivered.wellFormed atom hatom
    · exact List.mem_singleton.mp hatom ▸ mdatAtom_wellFormed
  · exact List.forall₂_map_right_iff.mpr (List.forall₂_same.mpr fun _ _ => rfl)
  · have honce := hfresh.once
    rw [hplaces] at honce
    exact absurd honce (by decide)

end GstPravega.Plugin.FragMp4Pay
