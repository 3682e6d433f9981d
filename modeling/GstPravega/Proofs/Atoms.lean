import GstPravega.Lib.Framing
import GstPravega.Plugin.FragMp4Pay

/-!
# Atoms in pieces

The parser is given the stream in buffers and is asked for atoms until it has none. It
takes an atom once all of it is there, and asserts that nothing else is. So the buffers
may cut an atom anywhere, but they must not reach past its end: behind the bytes of one
atom the next byte has to come in a buffer of its own.
-/

namespace GstPravega.Plugin.FragMp4Pay

open GstPravega.Lib

/-! ## The parser -/

/-- The size and the type are those in the first eight bytes. -/
structure Mp4Atom.WellFormed (atom : Mp4Atom) : Prop where
  header : 8 ≤ atom.atomBytes.length
  size : beNat (atom.atomBytes.take 4) = atom.atomBytes.length
  type : beNat ((atom.atomBytes.drop 4).take 4) = atom.atomType

theorem Mp4Atom.WellFormed.length_pos {atom : Mp4Atom} (h : atom.WellFormed) :
    0 < atom.atomBytes.length := Nat.lt_of_lt_of_le (by decide) h.header

theorem Mp4Atom.WellFormed.ne_nil {atom : Mp4Atom} (h : atom.WellFormed) :
    atom.atomBytes ≠ [] := List.length_pos_iff.mp h.length_pos

theorem popAtom_some {p p' : Mp4Parser} {atom : Mp4Atom}
    (h : p.popAtom = some (some atom, p')) :
    atom.WellFormed ∧ p.buf = atom.atomBytes ∧ p'.buf = [] := by
  rw [Mp4Parser.popAtom] at h
  dsimp only at h
  split at h
  · next hheader =>
      split at h
      · split at h
        · next hsize =>
            cases h
            rw [← hsize, List.take_length]
            exact ⟨⟨hheader, hsize.symm, rfl⟩, rfl, rfl⟩
        · cases h
      · cases h
  · cases h

theorem popAtom_none {p p' : Mp4Parser} (h : p.popAtom = some (none, p')) : p' = p := by
  rw [Mp4Parser.popAtom] at h
  dsimp only at h
  split at h
  · split at h
    · split at h
      · cases h
      · cases h
    · cases h
      rfl
  · cases h
    rfl

section Parser

variable {atom : Mp4Atom} {held more : List UInt8}

theorem popAtom_whole (hatom : atom.WellFormed) :
    Mp4Parser.popAtom ⟨atom.atomBytes⟩ = some (some atom, ⟨[]⟩) := by
  rw [Mp4Parser.popAtom]
  dsimp only
  rw [if_pos hatom.header, hatom.size, if_pos (Nat.le_refl _), if_pos rfl, hatom.type,
    List.take_length]

/-- The atom is not complete. -/
theorem popAtom_part (hatom : atom.WellFormed) (hheld : held ++ more = atom.atomBytes)
    (hmore : more ≠ []) : Mp4Parser.popAtom ⟨held⟩ = some (none, ⟨held⟩) := by
  rw [Mp4Parser.popAtom]
  dsimp only
  split
  · next hheader =>
      have hsize : beNat (held.take 4) = held.length + more.length := by
        rw [← List.length_append, hheld, ← hatom.size, ← hheld,
          List.take_append_of_le_length (by omega)]
      have hpos := List.length_pos_iff.mpr hmore
      rw [if_neg (by omega)]
  · rfl

/-- More than the atom is there. -/
theorem popAtom_more (hatom : atom.WellFormed) (hmore : more ≠ []) :
    Mp4Parser.popAtom ⟨atom.atomBytes ++ more⟩ = none := by
  have hheader := hatom.header
  have hpos := List.length_pos_iff.mpr hmore
  rw [Mp4Parser.popAtom]
  dsimp only
  rw [List.take_append_of_le_length (by omega), hatom.size, List.length_append,
    if_pos (by omega), if_pos (by omega), if_neg (by omega)]

theorem popAtom_past (hatom : atom.WellFormed) {rest after : List UInt8}
    (h : held ++ rest = atom.atomBytes ++ after) (hlt : atom.atomBytes.length < held.length) :
    Mp4Parser.popAtom ⟨held⟩ = none := by
  obtain ⟨more, rfl⟩ := List.prefix_of_prefix_length_le
    (List.prefix_append atom.atomBytes after) ⟨rest, h⟩ (Nat.le_of_lt hlt)
  refine popAtom_more hatom ?_
  rintro rfl
  rw [List.append_nil] at hlt
  exact Nat.lt_irrefl _ hlt

theorem popAtom_nil : Mp4Parser.popAtom ⟨[]⟩ = some (none, ⟨[]⟩) := rfl

end Parser

/-- `pop_atom` until it returns none. -/
def popUntilNone (parser : Mp4Parser) : Option (List Mp4Atom × Mp4Parser) :=
  match _ : parser.popAtom with
  | none => none
  | some (none, parser') => some ([], parser')
  | some (some atom, parser') =>
      (popUntilNone parser').map fun r => (atom :: r.1, r.2)
termination_by parser.buf.length
decreasing_by
  obtain ⟨hatom, hbuf, hempty⟩ := popAtom_some (by assumption)
  rw [hbuf, hempty]
  exact Nat.lt_of_lt_of_le (by decide) hatom.header

/-- The buffers one by one, and after each of them all atoms there are. -/
def feed : Mp4Parser → List (List UInt8) → Option (List Mp4Atom × Mp4Parser)
  | parser, [] => some ([], parser)
  | parser, buffer :: buffers => do
      let (atoms, parser) ← popUntilNone (parser.add buffer)
      let (rest, parser) ← feed parser buffers
      some (atoms ++ rest, parser)

/-- No buffer reaches past the end of the atom in progress. -/
def Contained (atoms : List Mp4Atom) (buffers : List (List UInt8)) : Prop :=
  EachPiece Mp4Atom.atomBytes id
    (fun held atom buffer => held + buffer.length ≤ atom.atomBytes.length) 0 atoms buffers

section Feed

variable {parser parser' : Mp4Parser} {atom : Mp4Atom} {atoms : List Mp4Atom}

theorem popUntilNone_panic (h : parser.popAtom = none) : popUntilNone parser = none := by
  rw [popUntilNone]
  split
  · rfl
  · next heq => cases h.symm.trans heq
  · next heq => cases h.symm.trans heq

theorem popUntilNone_none (h : parser.popAtom = some (none, parser')) :
    popUntilNone parser = some ([], parser') := by
  rw [popUntilNone]
  split
  · next heq => cases h.symm.trans heq
  · next heq =>
      cases h.symm.trans heq
      rfl
  · next heq => cases h.symm.trans heq

theorem popUntilNone_some (h : parser.popAtom = some (some atom, parser')) :
    popUntilNone parser = (popUntilNone parser').map fun r => (atom :: r.1, r.2) := by
  rw [popUntilNone]
  split
  · next heq => cases h.symm.trans heq
  · next heq => cases h.symm.trans heq
  · next heq =>
      cases h.symm.trans heq
      rfl

/-- Exactly one atom is there. -/
theorem popUntilNone_whole (hatom : atom.WellFormed) :
    popUntilNone ⟨atom.atomBytes⟩ = some ([atom], ⟨[]⟩) := by
  rw [popUntilNone_some (popAtom_whole hatom), popUntilNone_none popAtom_nil]
  rfl

theorem feed_cons_panic {buffer : List UInt8} (h : popUntilNone (parser.add buffer) = none)
    (buffers : List (List UInt8)) : feed parser (buffer :: buffers) = none := by
  rw [feed, h]
  rfl

theorem feed_cons_iff {buffer : List UInt8} {before : List Mp4Atom}
    (h : popUntilNone (parser.add buffer) = some (before, parser'))
    (buffers : List (List UInt8)) :
    (feed parser (buffer :: buffers)).map Prod.fst = some (before ++ atoms) ↔
      (feed parser' buffers).map Prod.fst = some atoms := by
  rw [feed, h]
  simp only [Option.bind_eq_bind, Option.bind_some]
  cases feed parser' buffers with
  | none => exact iff_of_false (Option.some_ne_none _).symm (Option.some_ne_none _).symm
  | some r =>
      simp only [Option.bind_some, Option.map_some, Option.some_inj]
      exact ⟨List.append_cancel_left, fun h => by rw [h]⟩

/-- From any point within an atom, or behind all of them. The induction is on the
buffers. -/
theorem feed_iff (buffers : List (List UInt8)) : ∀ {held : List UInt8} {atoms : List Mp4Atom},
    (∀ atom ∈ atoms, atom.WellFormed) →
    held ++ buffers.flatten = atoms.flatMap Mp4Atom.atomBytes →
    (∀ atom rest, atoms = atom :: rest → held.length < atom.atomBytes.length) →
    ((feed ⟨held⟩ buffers).map Prod.fst = some atoms ↔
      EachPiece Mp4Atom.atomBytes id
        (fun held atom buffer => held + buffer.length ≤ atom.atomBytes.length) held.length
        atoms buffers) := by
  induction buffers with
  | nil =>
      intro held atoms hwell hbytes hheld
      rw [List.flatten_nil, List.append_nil] at hbytes
      have hatoms : atoms = [] := by
        cases atoms with
        | nil => rfl
        | cons atom rest =>
            have hlt := hheld atom rest rfl
            have hlen := congrArg List.length hbytes
            rw [List.flatMap_cons, List.length_append] at hlen
            omega
      subst hatoms
      exact iff_of_true rfl (eachPiece_nil _ _)
  | cons buffer buffers ih =>
      intro held atoms hwell hbytes hheld
      cases atoms with
      | nil =>
          obtain ⟨rfl, hrest⟩ := List.append_eq_nil_iff.mp hbytes
          rw [List.flatten_cons] at hrest
          obtain ⟨rfl, hrest⟩ := List.append_eq_nil_iff.mp hrest
          have hpop : popUntilNone (Mp4Parser.add ⟨[]⟩ []) = some ([], ⟨[]⟩) :=
            popUntilNone_none popAtom_nil
          refine (feed_cons_iff hpop buffers).trans ?_
          rw [ih hwell hrest hheld]
          exact iff_of_true (eachPiece_nil _ _) (eachPiece_nil _ _)
      | cons atom rest =>
          have hatom := hwell atom List.mem_cons_self
          have hlt := hheld atom rest rfl
          have hsplit : (held ++ buffer) ++ buffers.flatten =
              atom.atomBytes ++ rest.flatMap Mp4Atom.atomBytes := by
            rw [List.append_assoc]
            exact hbytes
          have hlen : (held ++ buffer).length = held.length + buffer.length :=
            List.length_append
          rw [eachPiece_cons hlt, id, ← hlen]
          rcases Nat.lt_or_ge atom.atomBytes.length (held ++ buffer).length with h | h
          -- The buffer reaches past the end of the atom.
          · have hpop : popUntilNone (Mp4Parser.add ⟨held⟩ buffer) = none :=
              popUntilNone_panic (popAtom_past hatom hsplit h)
            rw [feed_cons_panic hpop]
            refine iff_of_false ?_ (fun hle => absurd hle.1 (Nat.not_le.mpr h))
            intro hnone
            cases hnone
          rcases piece_cases hsplit h with ⟨more, hne, hmore⟩ | ⟨hwhole, hrest⟩
          -- The atom goes on in the next buffer.
          · have hnext : ∀ atom' rest', atom :: rest = atom' :: rest' →
                (held ++ buffer).length < atom'.atomBytes.length := by
              rintro _ _ ⟨⟩
              exact length_lt_of_append hmore hne
            have hpop : popUntilNone (Mp4Parser.add ⟨held⟩ buffer) =
                some ([], ⟨held ++ buffer⟩) := popUntilNone_none (popAtom_part hatom hmore hne)
            refine (feed_cons_iff hpop buffers).trans ?_
            rw [ih hwell hsplit hnext]
            exact (and_iff_right h).symm
          -- The atom ends with the buffer.
          · have hnext : ∀ atom' rest', rest = atom' :: rest' →
                ([] : List UInt8).length < atom'.atomBytes.length := by
              rintro atom' rest' rfl
              exact (hwell atom' (by simp)).length_pos
            have hpop : popUntilNone (Mp4Parser.add ⟨held⟩ buffer) = some ([atom], ⟨[]⟩) := by
              rw [Mp4Parser.add, hwhole, popUntilNone_whole hatom]
            refine (feed_cons_iff hpop buffers).trans ?_
            rw [hwhole, eachPiece_next,
              ih (fun a ha => hwell a (List.mem_cons_of_mem _ ha)) hrest hnext]
            exact (and_iff_right (Nat.le_refl _)).symm

end Feed

/-- **Where the parser finds all atoms.** The buffers that the bytes of well-formed atoms
come in make the parser give exactly these atoms, and no assertion fails, if and only if
no buffer reaches past the end of the atom in progress. -/
theorem feed_contained_iff (atoms : List Mp4Atom) (buffers : List (List UInt8))
    (hwell : ∀ atom ∈ atoms, atom.WellFormed)
    (hbytes : buffers.flatten = atoms.flatMap Mp4Atom.atomBytes) :
    (feed Mp4Parser.new buffers).map Prod.fst = some atoms ↔ Contained atoms buffers := by
  refine feed_iff buffers hwell hbytes ?_
  rintro atom rest rfl
  exact (hwell atom List.mem_cons_self).length_pos

/-- A header without contents, and a single byte of media. -/
def ftypAtom : Mp4Atom := ⟨ATOM_TYPE_FTYPE, [0, 0, 0, 8, 0x66, 0x74, 0x79, 0x70]⟩

def mdatAtom : Mp4Atom := ⟨ATOM_TYPE_MDAT, [0, 0, 0, 9, 0x6d, 0x64, 0x61, 0x74, 7]⟩

theorem ftypAtom_wellFormed : ftypAtom.WellFormed :=
  ⟨by decide, by decide, by decide +kernel⟩

theorem mdatAtom_wellFormed : mdatAtom.WellFormed :=
  ⟨by decide, by decide, by decide +kernel⟩

/-- The first atom comes in two buffers. -/
theorem feed_contained_split : (feed Mp4Parser.new [ftypAtom.atomBytes.take 5,
    ftypAtom.atomBytes.drop 5, mdatAtom.atomBytes]).map Prod.fst =
      some [ftypAtom, mdatAtom] := by
  have hwell : ∀ atom ∈ [ftypAtom, mdatAtom], atom.WellFormed :=
    List.forall_mem_cons.mpr
      ⟨ftypAtom_wellFormed, List.forall_mem_singleton.mpr mdatAtom_wellFormed⟩
  refine (feed_contained_iff [ftypAtom, mdatAtom] _ hwell (by decide +kernel)).mpr ?_
  unfold Contained
  rw [eachPiece_cons (by decide), eachPiece_cons (by decide)]
  refine ⟨by decide, by decide, (eachPiece_next (a := ftypAtom)).mpr ?_⟩
  rw [eachPiece_cons (by decide)]
  exact ⟨by decide, (eachPiece_next (a := mdatAtom)).mpr (eachPiece_nil _ _)⟩

/-- Both atoms come in one buffer. -/
theorem feed_panics_on_two : ftypAtom.WellFormed ∧ mdatAtom.WellFormed ∧
    feed Mp4Parser.new [ftypAtom.atomBytes ++ mdatAtom.atomBytes] = none :=
  ⟨ftypAtom_wellFormed, mdatAtom_wellFormed,
    feed_cons_panic (popUntilNone_panic (by decide +kernel)) []⟩

end GstPravega.Plugin.FragMp4Pay
