import GstPravega.Lib.Calls
import GstPravega.Proofs.Atoms
import Mathlib.Data.List.Forall2

/-!
# What fragmp4pay pushes

The element downstream takes every buffer. Then a call of the chain function is a step on
the state and on what has been pushed, and nothing in it is left open: `received` is the
state once the buffer is in it, and `Handled` says what comes of an atom that the buffer
completes.

A stream of atoms comes in pieces (`InPieces`). Piece by piece the state keeps what is most
recent of the header and the moof atoms, and what is pushed is the fragments of the stream.
-/

namespace GstPravega.Plugin.FragMp4Pay

open GstPravega.Lib GstPravega.Gst GstPravega.Lib.Program

/-! ## Fragments -/

/-- The most recent atom of a type. -/
def latest (atomType : Nat) (atoms : List Mp4Atom) : Option Mp4Atom :=
  (atoms.filter fun atom => atom.atomType = atomType).getLast?

@[simp] theorem latest_append (atomType : Nat) (atoms : List Mp4Atom) (atom : Mp4Atom) :
    latest atomType (atoms ++ [atom]) =
      if atom.atomType = atomType then some atom else latest atomType atoms := by
  rw [latest, List.filter_append]
  split
  · next h => simp [h]
  · next h => simp [h, latest]

/-- An mdat atom, with what is most recent before it. -/
structure Fragment where
  ftyp : Mp4Atom
  moov : Mp4Atom
  moof : Mp4Atom
  mdat : Mp4Atom
  deriving DecidableEq, Repr

/-- None where an atom of the header or the moof atom is missing. -/
def fragmentAt (before : List Mp4Atom) (atom : Mp4Atom) : Option Fragment :=
  if atom.atomType = ATOM_TYPE_MDAT then do
    let ftyp ← latest ATOM_TYPE_FTYPE before
    let moov ← latest ATOM_TYPE_MOOV before
    let moof ← latest ATOM_TYPE_MOOF before
    some ⟨ftyp, moov, moof, atom⟩
  else none

def fragmentsFrom : List Mp4Atom → List Mp4Atom → List Fragment
  | _, [] => []
  | before, atom :: rest =>
      (fragmentAt before atom).toList ++ fragmentsFrom (before ++ [atom]) rest

/-- The fragments of a stream, in order. -/
def fragmentsOf (atoms : List Mp4Atom) : List Fragment := fragmentsFrom [] atoms

/-- The header is there exactly when the buffer does not carry DELTA_UNIT. -/
def Carries (out : PayBuffer) (fragment : Fragment) : Prop :=
  out.payload =
    (if out.flags.deltaUnit then []
      else fragment.ftyp.atomBytes ++ fragment.moov.atomBytes) ++
    fragment.moof.atomBytes ++ fragment.mdat.atomBytes

/-! ## The bytes of a fragment -/

/-- The header is in front where DELTA_UNIT is not set. -/
def StartedState.fragmentBytes (st : StartedState) (ftyp moov moof mdat : Mp4Atom) :
    List UInt8 :=
  (if st.fragmentBufferFlags.deltaUnit then [] else ftyp.atomBytes ++ moov.atomBytes) ++
    moof.atomBytes ++ mdat.atomBytes

/-- The copy goes behind what has been copied. -/
theorem copyFromSlice_replicate (copied bytes : List UInt8) (n : Nat) :
    copyFromSlice (copied ++ List.replicate (bytes.length + n) 0) copied.length bytes =
      some ((copied ++ bytes) ++ List.replicate n 0, (copied ++ bytes).length) := by
  have hfits : copied.length + bytes.length ≤
      (copied ++ List.replicate (bytes.length + n) 0).length := by
    rw [List.length_append, List.length_replicate]
    omega
  rw [copyFromSlice, if_pos hfits, List.take_left, List.drop_append, List.length_append,
    List.drop_of_length_le (by omega), List.drop_replicate, List.nil_append]
  congr 3
  congr 1
  omega

/-- The copies fill the buffer. -/
theorem writeOutput_eq (st : StartedState) (ftyp moov moof mdat : Mp4Atom) :
    st.writeOutput ftyp moov moof mdat = some (st.fragmentBytes ftyp moov moof mdat) := by
  rw [StartedState.writeOutput, StartedState.fragmentBytes]
  cases hdelta : st.fragmentBufferFlags.deltaUnit with
  | true =>
      have hmoof := copyFromSlice_replicate [] moof.atomBytes mdat.atomBytes.length
      have hmdat := copyFromSlice_replicate moof.atomBytes mdat.atomBytes 0
      simp only [List.nil_append, List.length_nil, Nat.add_zero] at hmoof hmdat
      simp [hmoof, hmdat]
  | false =>
      have hftyp := copyFromSlice_replicate [] ftyp.atomBytes
        (moov.atomBytes.length + (moof.atomBytes.length + mdat.atomBytes.length))
      have hmoov := copyFromSlice_replicate ftyp.atomBytes moov.atomBytes
        (moof.atomBytes.length + mdat.atomBytes.length)
      have hmoof := copyFromSlice_replicate (ftyp.atomBytes ++ moov.atomBytes) moof.atomBytes
        mdat.atomBytes.length
      have hmdat := copyFromSlice_replicate
        (ftyp.atomBytes ++ moov.atomBytes ++ moof.atomBytes) mdat.atomBytes 0
      simp only [List.nil_append, List.length_nil, List.append_assoc, List.length_append,
        List.replicate_zero, List.append_nil, Nat.add_zero] at hftyp hmoov hmoof hmdat
      simp [hftyp, hmoov, hmoof, hmdat, Nat.add_assoc]

/-! ## An atom -/

/-- What a push does: the buffer is downstream, or the push has failed. -/
def Exec : (c : PayCmd) → List PayBuffer → c.Res → List PayBuffer → Prop
  | .push buffer, outs, r, outs' =>
      (r = .ok () ∧ outs' = outs ++ [buffer]) ∨ ((∃ e, r = .error e) ∧ outs' = outs)

/-- Every push succeeds. -/
def accept : (c : PayCmd) → List PayBuffer → c.Res × List PayBuffer
  | .push buffer, outs => (.ok (), outs ++ [buffer])

theorem exec_accept (c : PayCmd) (outs : List PayBuffer) :
    Exec c outs (accept c outs).1 (accept c outs).2 := by
  cases c
  exact Or.inl ⟨rfl, rfl⟩

theorem exec_ok (buffer : PayBuffer) (outs outs' : List PayBuffer)
    (h : Exec (.push buffer) outs (.ok ()) outs') : outs' = outs ++ [buffer] := by
  rcases h with ⟨-, h⟩ | ⟨⟨e, he⟩, -⟩
  · exact h
  · cases he

/-- What comes of an atom: it is kept, it completes a fragment, or it is dropped. -/
inductive Handled (atom : Mp4Atom) (st : StartedState) :
    StartedState → List PayBuffer → Prop where
  | ftype : atom.atomType = ATOM_TYPE_FTYPE →
      Handled atom st { st with ftypeAtom := some atom } []
  | moov : atom.atomType = ATOM_TYPE_MOOV →
      Handled atom st { st with moovAtom := some atom } []
  | moof : atom.atomType = ATOM_TYPE_MOOF →
      Handled atom st { st with moofAtom := some atom } []
  | fragment {ftyp moov moof} : atom.atomType = ATOM_TYPE_MDAT →
      st.ftypeAtom = some ftyp → st.moovAtom = some moov → st.moofAtom = some moof →
      Handled atom st st.clearFragment [st.output (st.fragmentBytes ftyp moov moof atom)]
  | incomplete : atom.atomType = ATOM_TYPE_MDAT →
      st.ftypeAtom = none ∨ st.moovAtom = none ∨ st.moofAtom = none → Handled atom st st []
  | unknown : atom.atomType ≠ ATOM_TYPE_FTYPE → atom.atomType ≠ ATOM_TYPE_MOOV →
      atom.atomType ≠ ATOM_TYPE_MOOF → atom.atomType ≠ ATOM_TYPE_MDAT → Handled atom st st []

/-- The state keeps what is most recent of these atoms. -/
structure Kept (atoms : List Mp4Atom) (st : StartedState) : Prop where
  ftype : st.ftypeAtom = latest ATOM_TYPE_FTYPE atoms
  moov : st.moovAtom = latest ATOM_TYPE_MOOV atoms
  moof : st.moofAtom = latest ATOM_TYPE_MOOF atoms

section Handling

variable {atom : Mp4Atom} {atoms : List Mp4Atom} {st st' : StartedState}
  {outs pushed : List PayBuffer}

theorem Handled.parser (h : Handled atom st st' pushed) : st'.mp4Parser = st.mp4Parser := by
  cases h <;> rfl

theorem Handled.kept (h : Handled atom st st' pushed) (hkept : Kept atoms st) :
    Kept (atoms ++ [atom]) st' := by
  cases h with
  | ftype h =>
      exact ⟨by simp [h], by simp [h, hkept.moov, ATOM_TYPE_FTYPE, ATOM_TYPE_MOOV],
        by simp [h, hkept.moof, ATOM_TYPE_FTYPE, ATOM_TYPE_MOOF]⟩
  | moov h =>
      exact ⟨by simp [h, hkept.ftype, ATOM_TYPE_FTYPE, ATOM_TYPE_MOOV], by simp [h],
        by simp [h, hkept.moof, ATOM_TYPE_MOOV, ATOM_TYPE_MOOF]⟩
  | moof h =>
      exact ⟨by simp [h, hkept.ftype, ATOM_TYPE_FTYPE, ATOM_TYPE_MOOF],
        by simp [h, hkept.moov, ATOM_TYPE_MOOV, ATOM_TYPE_MOOF], by simp [h]⟩
  | fragment h _ _ _ | incomplete h _ =>
      exact ⟨by simp [h, hkept.ftype, StartedState.clearFragment, ATOM_TYPE_FTYPE, ATOM_TYPE_MDAT],
        by simp [h, hkept.moov, StartedState.clearFragment, ATOM_TYPE_MOOV, ATOM_TYPE_MDAT],
        by simp [h, hkept.moof, StartedState.clearFragment, ATOM_TYPE_MOOF, ATOM_TYPE_MDAT]⟩
  | unknown hf hv ho _ =>
      exact ⟨by simp [hf, hkept.ftype], by simp [hv, hkept.moov], by simp [ho, hkept.moof]⟩

/-- An atom makes the element push its fragment, where it completes one. -/
theorem Handled.carries (h : Handled atom st st' pushed) (hkept : Kept atoms st) :
    List.Forall₂ Carries pushed (fragmentAt atoms atom).toList := by
  cases h with
  | ftype h | moov h | moof h =>
      rw [fragmentAt, h, if_neg (by decide)]
      exact List.Forall₂.nil
  | @fragment ftyp moov moof h hf hv ho =>
      rw [hkept.ftype] at hf
      rw [hkept.moov] at hv
      rw [hkept.moof] at ho
      rw [fragmentAt, if_pos h, hf, hv, ho]
      exact List.Forall₂.cons rfl List.Forall₂.nil
  | incomplete h hnone =>
      rw [hkept.ftype, hkept.moov, hkept.moof] at hnone
      have hat : fragmentAt atoms atom = none := by
        rw [fragmentAt, if_pos h]
        rcases hnone with hnone | hnone | hnone <;> simp [hnone]
      rw [hat]
      exact List.Forall₂.nil
  | unknown _ _ _ h =>
      rw [fragmentAt, if_neg h]
      exact List.Forall₂.nil

/-- Where a push that succeeds has handed its buffer on. An error is that of a push. -/
theorem safeS_handleAtom {exec : (c : PayCmd) → List PayBuffer → c.Res → List PayBuffer → Prop}
    {E : ChainError → StartedState → List PayBuffer → Prop}
    (hok : ∀ buffer outs', exec (.push buffer) outs (.ok ()) outs' → outs' = outs ++ [buffer])
    (herror : ∀ buffer e outs', exec (.push buffer) outs (.error e) outs' →
      ∀ st', Handled atom st st' [buffer] → E (.downstream e) st' outs') :
    SafeS (alone exec fun _ => True) (handleAtom atom)
      (fun _ st' outs' => ∃ pushed, Handled atom st st' pushed ∧ outs' = outs ++ pushed)
      E st outs := by
  rw [handleAtom]
  split
  · next h => exact aloneS_modify ⟨[], .ftype h, (List.append_nil _).symm⟩
  next hf =>
  split
  · next h => exact aloneS_modify ⟨[], .moov h, (List.append_nil _).symm⟩
  next hv =>
  split
  · next h => exact aloneS_modify ⟨[], .moof h, (List.append_nil _).symm⟩
  next ho =>
  split
  · next h =>
      refine aloneS_bind (aloneS_get ?_)
      split
      · next hftyp hmoov hmoof =>
          refine aloneS_bind (aloneS_get ?_)
          rw [writeOutput_eq]
          refine aloneS_bind (aloneS_modify ?_)
          refine aloneS_bind (aloneS_command fun r outs' hpush => ⟨trivial, ?_⟩)
          have hhandled := Handled.fragment h hftyp hmoov hmoof
          cases r with
          | ok a => exact aloneS_pure ⟨_, hhandled, hok _ _ hpush⟩
          | error e => exact aloneS_throw (herror _ _ _ hpush _ hhandled)
      · next hnone =>
          refine aloneS_pure ⟨[], .incomplete h ?_, (List.append_nil _).symm⟩
          cases hftyp : st.ftypeAtom with
          | none => exact Or.inl rfl
          | some ftyp =>
              cases hmoov : st.moovAtom with
              | none => exact Or.inr (Or.inl rfl)
              | some moov =>
                  cases hmoof : st.moofAtom with
                  | none => exact Or.inr (Or.inr rfl)
                  | some moof => exact absurd hmoof (hnone ftyp moov moof hftyp hmoov)
  · next hm => exact aloneS_pure ⟨[], .unknown hf hv ho hm, (List.append_nil _).symm⟩

end Handling

/-! ## A call -/

/-- A call of the chain function: what it returns, the state, and all that has been
pushed. -/
def sinkCall (buffer : PayBuffer) (s : StartedState × List PayBuffer) :
    Except ChainError Unit × StartedState × List PayBuffer :=
  let r := run accept ((sinkChain buffer).run.run s.1) s.2
  (r.1.1, r.1.2, r.2)

/-- The state with the buffer, before any atom is taken from it. -/
def received (st : StartedState) (buffer : PayBuffer) : StartedState :=
  let added := { st with mp4Parser := st.mp4Parser.add buffer.payload }
  if added.mp4Parser.haveMdat then added.noteBuffer buffer else added

def Accepts (c : PayCmd) (outs : List PayBuffer) (r : c.Res) (outs' : List PayBuffer) : Prop :=
  (r, outs') = accept c outs

abbrev accepting : Arena (List PayBuffer) PayCmd PayCmd.Res := alone Accepts fun _ => True

section Call

variable {atom : Mp4Atom} {atoms : List Mp4Atom} {st : StartedState} {buffer : PayBuffer}
  {outs : List PayBuffer} {Q : Unit → StartedState → List PayBuffer → Prop}
  {E : ChainError → StartedState → List PayBuffer → Prop}
  {exec : (c : PayCmd) → List PayBuffer → c.Res → List PayBuffer → Prop}

theorem accepts_ok (buffer : PayBuffer) (outs outs' : List PayBuffer)
    (h : Accepts (.push buffer) outs (.ok ()) outs') : outs' = outs ++ [buffer] := by
  cases h
  rfl

theorem accepts_error (buffer : PayBuffer) (outs : List PayBuffer) (e : FlowError)
    (outs' : List PayBuffer) (h : Accepts (.push buffer) outs (.error e) outs') : False := by
  cases h

theorem mp4Parser_received : (received st buffer).mp4Parser = st.mp4Parser.add buffer.payload := by
  rw [received]
  split <;> rfl

theorem Kept.received (h : Kept atoms st) : Kept atoms (received st buffer) := by
  rw [FragMp4Pay.received]
  split <;> exact ⟨h.ftype, h.moov, h.moof⟩

/-- The parser has seen some of the atom. -/
theorem haveMdat_of_append (hatom : atom.WellFormed) {held more : List UInt8}
    (h : held ++ more = atom.atomBytes) (hmdat : Mp4Parser.haveMdat ⟨held⟩ = true) :
    atom.atomType = ATOM_TYPE_MDAT ∧ 8 < held.length := by
  rw [Mp4Parser.haveMdat] at hmdat
  dsimp only at hmdat
  split at hmdat
  · next hlen =>
      refine ⟨?_, hlen⟩
      rw [← hatom.type, ← of_decide_eq_true hmdat, ← h, List.drop_append_of_le_length (by omega),
        List.take_append_of_le_length (by rw [List.length_drop]; omega)]
  · cases hmdat

theorem safeS_popAtoms_none (hpop : st.mp4Parser.popAtom = some (none, st.mp4Parser))
    (fuel : Nat) (h : Q () st outs) :
    SafeS (alone exec fun _ => True) (popAtoms (fuel + 1)) Q E st outs := by
  refine aloneS_bind (aloneS_bind (aloneS_get ?_))
  rw [hpop]
  exact aloneS_bind (aloneS_modify (aloneS_pure (aloneS_pure h)))

/-- Exactly one atom is there. -/
theorem safeS_popAtoms_whole (hatom : atom.WellFormed)
    (hparser : st.mp4Parser = ⟨atom.atomBytes⟩)
    (hok : ∀ buffer outs', exec (.push buffer) outs (.ok ()) outs' → outs' = outs ++ [buffer])
    (herror : ∀ buffer e outs', exec (.push buffer) outs (.error e) outs' →
      ∀ st', Handled atom { st with mp4Parser := ⟨[]⟩ } st' [buffer] →
        E (.downstream e) st' outs')
    (fuel : Nat) : SafeS (alone exec fun _ => True) (popAtoms (fuel + 2))
      (fun _ st' outs' => ∃ pushed,
        Handled atom { st with mp4Parser := ⟨[]⟩ } st' pushed ∧ outs' = outs ++ pushed)
      E st outs := by
  refine aloneS_bind (aloneS_bind (aloneS_get ?_))
  rw [hparser, popAtom_whole hatom]
  refine aloneS_bind (aloneS_modify (aloneS_pure (aloneS_bind ?_)))
  refine (safeS_handleAtom hok herror).mono (fun _ st' outs' h => ?_) fun _ _ _ h => h
  obtain ⟨pushed, hhandled, rfl⟩ := h
  refine safeS_popAtoms_none ?_ fuel ⟨pushed, hhandled, rfl⟩
  rw [hhandled.parser]
  exact popAtom_nil

theorem safeS_sinkChain_received (hreadable : buffer.readable = true)
    (hpts : (st.mp4Parser.add buffer.payload).haveMdat = true → buffer.pts.isSome = true)
    {fuel : Nat} (hfuel : (st.mp4Parser.add buffer.payload).buf.length = fuel)
    (h : SafeS (alone exec fun _ => True) (popAtoms (fuel + 1)) Q E (received st buffer) outs) :
    SafeS (alone exec fun _ => True) (sinkChain buffer) Q E st outs := by
  subst hfuel
  rw [sinkChain, if_pos hreadable]
  rw [received] at h
  refine aloneS_bind (aloneS_modify (aloneS_bind (aloneS_get ?_)))
  split
  · next hmdat =>
      rw [if_pos hmdat] at h
      rw [if_pos (hpts hmdat)]
      exact aloneS_bind (aloneS_modify (aloneS_bind (aloneS_get h)))
  · next hmdat =>
      rw [if_neg hmdat] at h
      exact aloneS_bind (aloneS_get h)

/-- No atom ends with the buffer. -/
theorem safeS_sinkChain_part (hreadable : buffer.readable = true)
    (hpts : (st.mp4Parser.add buffer.payload).haveMdat = true → buffer.pts.isSome = true)
    (hpop : (st.mp4Parser.add buffer.payload).popAtom =
      some (none, st.mp4Parser.add buffer.payload)) :
    SafeS (alone exec fun _ => True) (sinkChain buffer)
      (fun _ st' outs' => st' = received st buffer ∧ outs' = outs) E st outs := by
  rw [← mp4Parser_received] at hpop
  exact safeS_sinkChain_received hreadable hpts rfl (safeS_popAtoms_none hpop _ ⟨rfl, rfl⟩)

/-- The atom ends with the buffer. -/
theorem safeS_sinkChain_whole (hreadable : buffer.readable = true)
    (hpts : (st.mp4Parser.add buffer.payload).haveMdat = true → buffer.pts.isSome = true)
    (hatom : atom.WellFormed) (hparser : st.mp4Parser.add buffer.payload = ⟨atom.atomBytes⟩)
    (hok : ∀ buffer outs', exec (.push buffer) outs (.ok ()) outs' → outs' = outs ++ [buffer])
    (herror : ∀ out e outs', exec (.push out) outs (.error e) outs' →
      ∀ st', Handled atom { received st buffer with mp4Parser := ⟨[]⟩ } st' [out] →
        E (.downstream e) st' outs') :
    SafeS (alone exec fun _ => True) (sinkChain buffer)
      (fun _ st' outs' => ∃ pushed,
        Handled atom { received st buffer with mp4Parser := ⟨[]⟩ } st' pushed ∧
          outs' = outs ++ pushed) E st outs := by
  have hheader := hatom.header
  obtain ⟨fuel, hfuel⟩ : ∃ fuel, atom.atomBytes.length = fuel + 1 :=
    Nat.exists_eq_succ_of_ne_zero (by omega)
  rw [← congrArg (fun p => p.buf.length) hparser] at hfuel
  exact safeS_sinkChain_received hreadable hpts hfuel (safeS_popAtoms_whole hatom
    (mp4Parser_received.trans hparser) hok herror fuel)

theorem sinkCall_of_safeS (h : SafeS accepting (sinkChain buffer) Q (fun _ _ _ => False) st outs) :
    ∃ st' outs', sinkCall buffer (st, outs) = (.ok (), st', outs') ∧ Q () st' outs' := by
  have hrun := outcome_run (A := accepting) (h := accept) (fun _ _ => rfl)
    ((sinkChain buffer).run.run st) outs
  have hends := (Safe.outcome (fun _ _ _ _ => trivial) h trivial hrun).1
  rw [sinkCall]
  revert hends
  generalize run accept ((sinkChain buffer).run.run st) outs = r
  obtain ⟨⟨e | a, st'⟩, outs'⟩ := r
  · exact False.elim
  · exact fun hQ => ⟨st', outs', rfl, hQ⟩

theorem sinkCall_unreadable (h : buffer.readable = false) :
    sinkCall buffer (st, outs) =
      (.error (.reported .coreFailed "Failed to map buffer"), st, outs) := by
  rw [sinkCall, sinkChain, h]
  rfl

/-- No atom ends with the buffer. -/
theorem sinkCall_part (hreadable : buffer.readable = true)
    (hpts : (st.mp4Parser.add buffer.payload).haveMdat = true → buffer.pts.isSome = true)
    (hpop : (st.mp4Parser.add buffer.payload).popAtom =
      some (none, st.mp4Parser.add buffer.payload)) :
    sinkCall buffer (st, outs) = (.ok (), received st buffer, outs) := by
  obtain ⟨_, _, hcall, rfl, rfl⟩ :=
    sinkCall_of_safeS (safeS_sinkChain_part hreadable hpts hpop)
  exact hcall

/-- The atom ends with the buffer. -/
theorem sinkCall_whole (hreadable : buffer.readable = true)
    (hpts : (st.mp4Parser.add buffer.payload).haveMdat = true → buffer.pts.isSome = true)
    (hatom : atom.WellFormed) (hparser : st.mp4Parser.add buffer.payload = ⟨atom.atomBytes⟩)
    (outs : List PayBuffer) : ∃ st' pushed,
      sinkCall buffer (st, outs) = (.ok (), st', outs ++ pushed) ∧
        Handled atom { received st buffer with mp4Parser := ⟨[]⟩ } st' pushed := by
  have hwhole := safeS_sinkChain_whole (E := fun _ _ _ => False) hreadable hpts hatom hparser
    (fun buffer => accepts_ok buffer outs) fun buffer e outs' h _ _ =>
      accepts_error buffer outs e outs' h
  obtain ⟨st', _, hcall, pushed, hhandled, rfl⟩ := sinkCall_of_safeS hwhole
  exact ⟨st', pushed, hcall, hhandled⟩

end Call

/-! ## A stream -/

/-- Media data comes with a PTS: some of the body of an mdat atom is there with the
buffer. -/
def Timed (held : Nat) (atom : Mp4Atom) (buffer : PayBuffer) : Prop :=
  atom.atomType = ATOM_TYPE_MDAT → 8 < held + buffer.payload.length → buffer.pts.isSome = true

/-- The buffers are those that the atoms come in. -/
structure Delivered (atoms : List Mp4Atom) (buffers : List PayBuffer) : Prop where
  wellFormed : ∀ atom ∈ atoms, atom.WellFormed
  bytes : buffers.flatMap (fun b => b.payload) = atoms.flatMap Mp4Atom.atomBytes
  /-- A buffer does not reach past the end of the atom in progress. -/
  contained : EachPiece Mp4Atom.atomBytes (fun b : PayBuffer => b.payload)
    (fun held atom b => held + b.payload.length ≤ atom.atomBytes.length) 0 atoms buffers
  timed : EachPiece Mp4Atom.atomBytes (fun b : PayBuffer => b.payload) Timed 0 atoms buffers

abbrev InBuffers : List UInt8 → List Mp4Atom → List PayBuffer → Prop :=
  InPieces Mp4Atom.atomBytes (fun b => b.payload) Timed

/-- What a call returns: it fails where the buffer cannot be read. -/
def answer (buffer : PayBuffer) : Except ChainError Unit :=
  if buffer.readable then .ok () else .error (.reported .coreFailed "Failed to map buffer")

section Stream

variable {atom : Mp4Atom} {atoms done rest : List Mp4Atom} {st : StartedState}
  {buffer : PayBuffer} {buffers outs : List PayBuffer} {held more : List UInt8}

theorem Delivered.inBuffers (h : Delivered atoms buffers) : InBuffers [] atoms buffers := by
  refine inPieces_of_eachPiece buffers (fun atom hatom => (h.wellFormed atom hatom).ne_nil)
    h.bytes ?_ h.contained h.timed
  rintro atom rest rfl
  exact (h.wellFormed atom List.mem_cons_self).length_pos

/-- The assertion on the PTS holds. -/
theorem Timed.isSome (h : Timed held.length atom buffer) (hatom : atom.WellFormed)
    (hsplit : (held ++ buffer.payload) ++ more = atom.atomBytes)
    (hmdat : Mp4Parser.haveMdat ⟨held ++ buffer.payload⟩ = true) :
    buffer.pts.isSome = true := by
  obtain ⟨htype, hlen⟩ := haveMdat_of_append hatom hsplit hmdat
  rw [List.length_append] at hlen
  exact h htype hlen

/-- A call with a buffer of the stream. -/
theorem sinkCall_inBuffers (hparser : st.mp4Parser = ⟨held⟩)
    (hwell : ∀ atom ∈ rest, atom.WellFormed) (hreadable : buffer.readable = true)
    (h : InBuffers held rest (buffer :: buffers)) (outs : List PayBuffer) :
    (sinkCall buffer (st, outs) = (.ok (), received st buffer, outs) ∧
      InBuffers (held ++ buffer.payload) rest buffers) ∨
    ∃ atom rest' st' pushed, rest = atom :: rest' ∧
      sinkCall buffer (st, outs) = (.ok (), st', outs ++ pushed) ∧
      Handled atom { received st buffer with mp4Parser := ⟨[]⟩ } st' pushed ∧
      InBuffers [] rest' buffers := by
  have hadd : st.mp4Parser.add buffer.payload = ⟨held ++ buffer.payload⟩ := by
    rw [hparser, Mp4Parser.add]
  cases h with
  -- There is nothing in the buffer.
  | idle hnil hpieces =>
      have hempty : st.mp4Parser.add buffer.payload = ⟨[]⟩ := by
        rw [hadd, hnil, List.nil_append]
      rw [hnil]
      refine Or.inl ⟨sinkCall_part hreadable ?_ ?_, hpieces⟩
      · rw [hempty]
        exact fun h => absurd h Bool.false_ne_true
      · rw [hempty]
        exact popAtom_nil
  | part htimed hmore hsplit hpieces =>
      have hatom := hwell _ List.mem_cons_self
      refine Or.inl ⟨sinkCall_part hreadable ?_ ?_, hpieces⟩
      · rw [hadd]
        exact htimed.isSome hatom hsplit
      · rw [hadd]
        exact popAtom_part hatom hsplit hmore
  | whole htimed hwhole hpieces =>
      have hatom := hwell _ List.mem_cons_self
      have hpts : (st.mp4Parser.add buffer.payload).haveMdat = true → buffer.pts.isSome = true := by
        rw [hadd]
        exact htimed.isSome hatom ((List.append_nil _).trans hwhole)
      obtain ⟨st', pushed, hcall, hhandled⟩ :=
        sinkCall_whole hreadable hpts hatom (by rw [hadd, hwhole]) outs
      exact Or.inr ⟨_, _, st', pushed, rfl, hcall, hhandled, hpieces⟩

/-- From any point within an atom, or behind all of them. The induction is on the
buffers. -/
theorem pushes_from (buffers : List PayBuffer) : ∀ {held : List UInt8}
    {done rest : List Mp4Atom} {st : StartedState} (outs : List PayBuffer),
    st.mp4Parser = ⟨held⟩ → Kept done st → (∀ atom ∈ rest, atom.WellFormed) →
    InBuffers held rest (buffers.filter fun b => b.readable) →
    Calls.answers sinkCall buffers (st, outs) = buffers.map answer ∧
      ∃ pushed, (Calls.after sinkCall buffers (st, outs)).2 = outs ++ pushed ∧
        List.Forall₂ Carries pushed (fragmentsFrom done rest) := by
  induction buffers with
  | nil =>
      intro held done rest st outs _ _ _ hpieces
      cases hpieces
      exact ⟨rfl, [], (List.append_nil _).symm, List.Forall₂.nil⟩
  | cons buffer buffers ih =>
      intro held done rest st outs hparser hkept hwell hpieces
      rw [Calls.answers_cons, Calls.after_cons, List.map_cons]
      rw [List.filter_cons] at hpieces
      cases hreadable : buffer.readable with
      | false =>
          rw [if_neg (by rw [hreadable]; exact Bool.false_ne_true)] at hpieces
          rw [sinkCall_unreadable hreadable, answer, hreadable]
          obtain ⟨hanswers, hpushed⟩ := ih outs hparser hkept hwell hpieces
          exact ⟨congrArg _ hanswers, hpushed⟩
      | true =>
          rw [if_pos hreadable] at hpieces
          rw [answer, if_pos hreadable]
          rcases sinkCall_inBuffers hparser hwell hreadable hpieces outs with
            ⟨hcall, hpieces⟩ | ⟨atom, rest, st', pushed, rfl, hcall, hhandled, hpieces⟩
          · have hparser' : (received st buffer).mp4Parser = ⟨held ++ buffer.payload⟩ := by
              rw [mp4Parser_received, hparser, Mp4Parser.add]
            rw [hcall]
            obtain ⟨hanswers, hpushed⟩ := ih outs hparser' hkept.received hwell hpieces
            exact ⟨congrArg _ hanswers, hpushed⟩
          · have hkept' : Kept done { received st buffer with mp4Parser := ⟨[]⟩ } :=
              ⟨hkept.received.ftype, hkept.received.moov, hkept.received.moof⟩
            have hwell' : ∀ a ∈ rest, a.WellFormed :=
              fun a ha => hwell a (List.mem_cons_of_mem _ ha)
            rw [hcall]
            obtain ⟨hanswers, pushed', hafter, hcarries⟩ := ih (outs ++ pushed)
              hhandled.parser (hhandled.kept hkept') hwell' hpieces
            refine ⟨congrArg _ hanswers, pushed ++ pushed', ?_, ?_⟩
            · rw [hafter, List.append_assoc]
            · exact List.rel_append (hhandled.carries hkept') hcarries

/-- **The fragments of the stream are pushed.** Whatever the buffers that the atoms come
in, with the pushes succeeding, a call fails with an error where its buffer cannot be
read, and succeeds otherwise. One buffer is pushed for each mdat atom behind a ftyp, a moov
and a moof atom, in order: the most recent moof atom and that mdat atom, with the most
recent ftyp and moov atom in front exactly when the buffer does not carry DELTA_UNIT. -/
theorem pushes_fragments (atoms : List Mp4Atom) (buffers : List PayBuffer)
    (h : Delivered atoms (buffers.filter fun b => b.readable)) :
    Calls.answers sinkCall buffers (StartedState.default, []) = buffers.map answer ∧
      List.Forall₂ Carries (Calls.after sinkCall buffers (StartedState.default, [])).2
        (fragmentsOf atoms) := by
  have hparser : StartedState.default.mp4Parser = ⟨[]⟩ := rfl
  have hkept : Kept [] StartedState.default := ⟨rfl, rfl, rfl⟩
  obtain ⟨hanswers, pushed, hafter, hcarries⟩ :=
    pushes_from buffers [] hparser hkept h.wellFormed h.inBuffers
  rw [hafter]
  exact ⟨hanswers, hcarries⟩

end Stream

/-- A header and one fragment. -/
def fragmentAtoms : List Mp4Atom :=
  [ftypAtom, ⟨ATOM_TYPE_MOOV, [0, 0, 0, 8, 0x6d, 0x6f, 0x6f, 0x76]⟩,
    ⟨ATOM_TYPE_MOOF, [0, 0, 0, 8, 0x6d, 0x6f, 0x6f, 0x66]⟩, mdatAtom]

def atomBuffer (atom : Mp4Atom) : PayBuffer :=
  ⟨⟨ClockTime.store (some 5000000000), none, BufferFlags.empty, atom.atomBytes, true, none, none⟩,
    ClockTime.store none⟩

theorem fragmentAtoms_delivered : Delivered fragmentAtoms (fragmentAtoms.map atomBuffer) := by
  have hwell : ∀ atom ∈ fragmentAtoms, atom.WellFormed := by
    refine List.forall_mem_cons.mpr ⟨ftypAtom_wellFormed, List.forall_mem_cons.mpr ⟨?_, ?_⟩⟩
    · exact ⟨by decide, by decide, by decide +kernel⟩
    refine List.forall_mem_cons.mpr ⟨?_, List.forall_mem_singleton.mpr mdatAtom_wellFormed⟩
    exact ⟨by decide, by decide, by decide +kernel⟩
  refine ⟨hwell, rfl, ?_, ?_⟩
  · refine eachPiece_map (fun _ => rfl) (fun atom h => (hwell atom h).ne_nil) fun atom _ => ?_
    exact Nat.le_of_eq (Nat.zero_add _)
  · exact eachPiece_map (fun _ => rfl) (fun atom h => (hwell atom h).ne_nil)
      fun _ _ _ _ => rfl

theorem pushes_fragments_one : ∃ out,
    Calls.answers sinkCall (fragmentAtoms.map atomBuffer) (StartedState.default, []) =
      List.replicate 4 (.ok ()) ∧
    (Calls.after sinkCall (fragmentAtoms.map atomBuffer) (StartedState.default, [])).2 = [out] ∧
    Carries out ⟨ftypAtom, fragmentAtoms[1], fragmentAtoms[2], mdatAtom⟩ := by
  obtain ⟨hanswers, hcarries⟩ := pushes_fragments fragmentAtoms
    (fragmentAtoms.map atomBuffer) fragmentAtoms_delivered
  have hfragments : fragmentsOf fragmentAtoms =
      [⟨ftypAtom, fragmentAtoms[1], fragmentAtoms[2], mdatAtom⟩] := by decide +kernel
  rw [hfragments] at hcarries
  obtain ⟨out, outs, hout, hnil, heq⟩ := List.forall₂_cons_right_iff.mp hcarries
  rw [List.forall₂_nil_right_iff.mp hnil] at heq
  exact ⟨out, hanswers, heq, hout⟩

end GstPravega.Plugin.FragMp4Pay
