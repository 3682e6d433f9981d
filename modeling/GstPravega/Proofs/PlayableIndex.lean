import GstPravega.Proofs.IndexedEvents
import GstPravega.Proofs.Payloader

/-!
# Playing from an index record

The payloader puts the ftyp and the moov atom in front of a fragment exactly when it
leaves the DELTA_UNIT flag off the buffer, and the sink marks a record as random access
exactly when that flag is off. So a record that is marked points at the events of a
buffer that begins with the two atoms.

`View` follows the payloader through the atoms it has taken from its input. What the
sink makes of the buffers is read off `Recorded`.
-/

namespace GstPravega.Plugin.FragMp4Pay

open GstPravega.Lib GstPravega.Gst GstPravega.Lib.Program

/-! ## Fragments with a header -/

/-- One fragment behind what is most recent of the header when it ends. -/
def Playable (atoms : List Mp4Atom) (payload : List UInt8) : Prop :=
  ∃ pre mdat post ftyp moov moof, atoms = pre ++ mdat :: post ∧
    mdat.atomType = ATOM_TYPE_MDAT ∧
    latest ATOM_TYPE_FTYPE pre = some ftyp ∧ latest ATOM_TYPE_MOOV pre = some moov ∧
    latest ATOM_TYPE_MOOF pre = some moof ∧
    payload = ftyp.atomBytes ++ moov.atomBytes ++ moof.atomBytes ++ mdat.atomBytes

theorem Playable.append {atoms : List Mp4Atom} {payload : List UInt8}
    (h : Playable atoms payload) (more : List Mp4Atom) :
    Playable (atoms ++ more) payload := by
  obtain ⟨pre, mdat, post, ftyp, moov, moof, rfl, h⟩ := h
  refine ⟨pre, mdat, post ++ more, ftyp, moov, moof, ?_, h⟩
  rw [List.append_assoc, List.cons_append]

/-! ## The payloader -/

abbrev arena : Arena (List PayBuffer) PayCmd PayCmd.Res := alone Exec fun _ => True

/-- The atoms taken from the input so far. -/
structure View (inputs : List PayBuffer) (atoms : List Mp4Atom) (st : StartedState)
    (outs : List PayBuffer) : Prop where
  bytes : inputs.flatMap (fun b => b.payload) =
    atoms.flatMap Mp4Atom.atomBytes ++ st.mp4Parser.buf
  wellFormed : ∀ atom ∈ atoms, atom.WellFormed
  ftype : st.ftypeAtom = latest ATOM_TYPE_FTYPE atoms
  moov : st.moovAtom = latest ATOM_TYPE_MOOV atoms
  moof : st.moofAtom = latest ATOM_TYPE_MOOF atoms
  playable : ∀ out ∈ outs, out.flags.deltaUnit = false → Playable atoms out.payload

/-- `View` for some atoms. -/
def Viewed (inputs : List PayBuffer) (st : StartedState) (outs : List PayBuffer) : Prop :=
  ∃ atoms, View inputs atoms st outs

section Payloader

variable {inputs outs : List PayBuffer} {atoms : List Mp4Atom} {st : StartedState}
  {buffer : PayBuffer} {atom ftyp moov moof : Mp4Atom}

/-- A buffer that carries a fragment with its header. -/
theorem Carries.playable {fragment : Fragment} {out : PayBuffer} (h : Carries out fragment)
    (hat : fragmentAt atoms atom = some fragment) (hdelta : out.flags.deltaUnit = false) :
    Playable (atoms ++ [atom]) out.payload := by
  rw [fragmentAt] at hat
  split at hat
  · next hmdat =>
      obtain ⟨ftyp, hftyp, hat⟩ := Option.bind_eq_some_iff.mp hat
      obtain ⟨moov, hmoov, hat⟩ := Option.bind_eq_some_iff.mp hat
      obtain ⟨moof, hmoof, hat⟩ := Option.bind_eq_some_iff.mp hat
      cases hat
      refine ⟨atoms, atom, [], ftyp, moov, moof, rfl, hmdat, hftyp, hmoov, hmoof, ?_⟩
      rw [h, hdelta]
      rfl
  · cases hat

/-- The atom behind the others, which has left the parser. -/
theorem Handled.view {st' : StartedState} {pushed : List PayBuffer}
    (h : Handled atom { st with mp4Parser := ⟨[]⟩ } st' pushed)
    (hview : View inputs atoms st outs) (hatom : atom.WellFormed)
    (hparser : st.mp4Parser.buf = atom.atomBytes) :
    View inputs (atoms ++ [atom]) st' (outs ++ pushed) := by
  have hkept : Kept atoms { st with mp4Parser := ⟨[]⟩ } :=
    ⟨hview.ftype, hview.moov, hview.moof⟩
  obtain ⟨hftype, hmoov, hmoof⟩ := h.kept hkept
  refine ⟨?_, ?_, hftype, hmoov, hmoof, ?_⟩
  · rw [h.parser, hview.bytes, hparser]
    simp
  · intro a ha
    rcases List.mem_append.mp ha with ha | ha
    · exact hview.wellFormed a ha
    · exact List.mem_singleton.mp ha ▸ hatom
  · intro out hout hdelta
    rcases List.mem_append.mp hout with hout | hout
    · exact (hview.playable out hout hdelta).append [atom]
    · have hcarries := h.carries hkept
      cases hat : fragmentAt atoms atom with
      | none =>
          rw [hat] at hcarries
          rw [List.forall₂_nil_right_iff.mp hcarries] at hout
          cases hout
      | some fragment =>
          rw [hat] at hcarries
          obtain ⟨out', rest, hcarried, hrest, rfl⟩ := List.forall₂_cons_right_iff.mp hcarries
          rw [List.forall₂_nil_right_iff.mp hrest] at hout
          obtain rfl := List.mem_singleton.mp hout
          exact hcarried.playable hat hdelta

theorem safeS_handleAtom_view (hview : View inputs atoms st outs) (hatom : atom.WellFormed)
    (hparser : st.mp4Parser.buf = atom.atomBytes) :
    SafeS arena (handleAtom atom) (fun _ st => View inputs (atoms ++ [atom]) st)
      (fun _ _ _ => True) { st with mp4Parser := ⟨[]⟩ } outs := by
  refine (safeS_handleAtom (E := fun _ _ _ => True) (fun buffer => exec_ok buffer outs) ?_).mono
    ?_ ?_
  · exact fun _ _ _ _ _ _ => trivial
  · rintro _ st' outs' ⟨pushed, hhandled, rfl⟩
    exact hhandled.view hview hatom hparser
  · exact fun _ _ _ h => h

/-- The loop. The induction is on the fuel. -/
theorem safeS_popAtoms (fuel : Nat) : ∀ {st : StartedState} {outs : List PayBuffer},
    Viewed inputs st outs →
      SafeS arena (popAtoms fuel) (fun _ => Viewed inputs) (fun _ _ _ => True) st outs := by
  induction fuel with
  | zero => exact fun _ => aloneS_throw trivial
  | succ fuel ih =>
      rintro st outs ⟨atoms, hview⟩
      refine aloneS_bind (aloneS_bind (aloneS_get ?_))
      split
      · next atom parser hpop =>
          refine aloneS_bind (aloneS_modify (aloneS_pure ?_))
          cases atom with
          | none =>
              rw [popAtom_none hpop]
              exact aloneS_pure ⟨atoms, hview⟩
          | some atom =>
              obtain ⟨hatom, hbuf, hparser⟩ := popAtom_some hpop
              rw [show parser = ⟨[]⟩ from congrArg Mp4Parser.mk hparser]
              refine aloneS_bind ((safeS_handleAtom_view hview hatom hbuf).mono ?_ ?_)
              · exact fun _ st outs h => ih ⟨_, h⟩
              · exact fun _ _ _ _ => trivial
      · exact aloneS_throw trivial

theorem safeS_sinkChain (h : Viewed inputs st outs) :
    SafeS arena (sinkChain buffer) (fun _ => Viewed (inputs ++ [buffer]))
      (fun _ _ _ => True) st outs := by
  obtain ⟨atoms, hview⟩ := h
  have hadd : ∀ st', st'.mp4Parser = st.mp4Parser.add buffer.payload →
      st'.ftypeAtom = st.ftypeAtom → st'.moovAtom = st.moovAtom →
      st'.moofAtom = st.moofAtom → Viewed (inputs ++ [buffer]) st' outs := by
    intro st' hparser hftyp hmoov hmoof
    refine ⟨atoms, ?_, hview.wellFormed, ?_, ?_, ?_, hview.playable⟩
    · rw [hparser, List.flatMap_append, hview.bytes, List.append_assoc]
      simp [Mp4Parser.add]
    · rw [hftyp, hview.ftype]
    · rw [hmoov, hview.moov]
    · rw [hmoof, hview.moof]
  rw [sinkChain]
  split
  · refine aloneS_bind (aloneS_modify (aloneS_bind (aloneS_get ?_)))
    split
    · split
      · refine aloneS_bind (aloneS_modify (aloneS_bind (aloneS_get ?_)))
        exact safeS_popAtoms _ (hadd _ rfl rfl rfl rfl)
      · exact aloneS_bind (aloneS_throw trivial)
    · refine aloneS_bind (aloneS_get ?_)
      exact safeS_popAtoms _ (hadd _ rfl rfl rfl rfl)
  · exact aloneS_throw trivial

theorem safeS_chain (buffers : List PayBuffer) :
    ∀ {inputs outs : List PayBuffer} {st : StartedState}, Viewed inputs st outs →
      SafeS arena (chain buffers) (fun _ => Viewed (inputs ++ buffers))
        (fun _ _ _ => True) st outs := by
  induction buffers with
  | nil =>
      intro inputs outs st h
      rw [List.append_nil]
      exact aloneS_pure h
  | cons buffer buffers ih =>
      intro inputs outs st h
      rw [List.append_cons]
      refine aloneS_bind ((safeS_sinkChain h).mono (fun _ st outs h => ih h) ?_)
      exact fun _ _ _ _ => trivial

/-- The buffers the element makes of its input, all its calls returning `Ok`. -/
def Pays (inputs outputs : List PayBuffer) : Prop :=
  ∃ st, Outcome arena ((chain inputs).run.run StartedState.default) [] (.ok (), st) outputs

theorem Pays.viewed {outputs : List PayBuffer} (h : Pays inputs outputs) :
    ∃ st, Viewed inputs st outputs := by
  obtain ⟨st, houtcome⟩ := h
  have hstart : Viewed [] StartedState.default [] :=
    ⟨[], rfl, fun _ h => absurd h List.not_mem_nil, rfl, rfl, rfl,
      fun _ h => absurd h List.not_mem_nil⟩
  have hsafe := safeS_chain inputs hstart
  have hview := (Safe.outcome (fun _ _ _ _ => trivial) hsafe trivial houtcome).1
  exact ⟨st, hview⟩

theorem Playable.ne_nil {payload : List UInt8} (h : Playable atoms payload)
    (hwell : ∀ atom ∈ atoms, atom.WellFormed) : payload ≠ [] := by
  obtain ⟨pre, mdat, post, ftyp, moov, moof, rfl, _, _, _, _, rfl⟩ := h
  have hmdat := (hwell mdat (List.mem_append_right _ List.mem_cons_self)).header
  intro hnil
  have hlen := congrArg List.length hnil
  rw [List.length_append, List.length_nil] at hlen
  omega

end Payloader

end GstPravega.Plugin.FragMp4Pay

namespace GstPravega.Plugin.PravegaSink

open GstPravega.Lib GstPravega.Client GstPravega.Gst GstPravega.Video GstPravega.Lib.Program

open FragMp4Pay (PayBuffer Mp4Atom Pays Playable)

/-! ## The sink behind it -/

/-- The event at the offset of the record and the events that continue it are those of
one buffer with this payload. -/
def CarriedAt (bytes : List UInt8) (r : Record) (payload : List UInt8) : Prop :=
  ∃ before event continuation after, bytes =
      (before ++ (event :: continuation) ++ after).flatMap Event.frame ∧
    r.offset = (before.flatMap Event.frame).length ∧
    event :: continuation =
      fragments r.timestamp true r.randomAccess r.discontinuity payload ∧
    (event :: continuation).flatMap (fun e => e.payload) = payload

variable {F : Type} {checks : Bool} {settings : Settings F} {bs : List Input}
  {st st' : Started} {E E' : List Event} {R R' : List Record}

/-- Each record points at the fragments of a buffer. The induction is on the buffers. -/
theorem Recorded.points {refusals : Prop}
    (h : Recorded refusals checks settings bs st E R st' E' R') :
    ∃ E₁ rs, E' = E ++ E₁ ∧ R' = R ++ rs ∧ ∀ r ∈ rs, ∃ x ∈ bs, ∃ before after,
      E₁ = before ++ fragments r.timestamp true r.randomAccess r.discontinuity x.2.payload ++
        after ∧
      r.offset = ((E ++ before).flatMap Event.frame).length ∧
      r.randomAccess = !x.2.flags.deltaUnit := by
  induction h with
  | nil => exact ⟨[], [], by simp, by simp, fun r hr => absurd hr List.not_mem_nil⟩
  | @cons baseTime buffer bs timestamp included st st₁ st₂ E E₁ E₂ R R₁ R₂ hdecided
      hrendered _ ih =>
      obtain ⟨rs₁, rfl, hrs₁⟩ := hrendered.records
      obtain ⟨F₂, rs₂, rfl, rfl, hpoints⟩ := ih
      obtain ⟨F₁, hF₁, rfl⟩ : ∃ F₁, F₁ = fragments timestamp included
          (!buffer.flags.deltaUnit) _ buffer.payload ∧ E₁ = E ++ F₁ :=
        ⟨_, rfl, hrendered.events⟩
      refine ⟨F₁ ++ F₂, rs₁ ++ rs₂, List.append_assoc _ _ _, List.append_assoc _ _ _, ?_⟩
      intro r hr
      rcases List.mem_append.mp hr with hr | hr
      · obtain ⟨rfl, heq⟩ := of_mem_bufferRecords hrs₁ hr
        refine ⟨_, List.mem_cons_self, [], F₂, ?_, ?_, ?_⟩
        · rw [heq, hF₁]
          rfl
        · rw [heq, List.append_nil]
          rfl
        · rw [heq]
          rfl
      · obtain ⟨x, hx, before, after, hF₂, hoffset, hrandom⟩ := hpoints r hr
        refine ⟨x, List.mem_cons_of_mem _ hx, F₁ ++ before, after, ?_, ?_, hrandom⟩
        · rw [hF₂, List.append_assoc, List.append_assoc, List.append_assoc]
        · rw [hoffset, List.append_assoc]
  | refused _ _ _ ih =>
      obtain ⟨E₁, rs, hE, hR, hpoints⟩ := ih
      refine ⟨E₁, rs, hE, hR, fun r hr => ?_⟩
      obtain ⟨x, hx, h⟩ := hpoints r hr
      exact ⟨x, List.mem_cons_of_mem _ hx, h⟩

theorem randomAccess_of_mem_finalRecords {r : IndexRecord} (hr : r ∈ finalRecords st) :
    r.randomAccess = false := by
  rw [finalRecords] at hr
  split at hr
  · split at hr
    · rw [List.mem_singleton.mp hr]
      rfl
    · cases hr
  · cases hr

/-- **A record that is marked as random access can be played from.** The payloader feeds
one instance of the sink. At the offset of each such record the data carries a buffer of
the payloader that consists of the ftyp, the moov and the moof atom that were the most
recent ones when its mdat atom ended, and of that mdat atom. A stop adds none that are
marked. -/
theorem random_access_playable {daysToSeconds : F → Int} {inputs outputs : List PayBuffer}
    {w₀ w : World} {E₀ : List Event} {R₀ : List Record} (hpays : Pays inputs outputs)
    (hfed : bs.map Prod.snd = outputs.map PayBuffer.toBuffer)
    (h₀ : Whole .ordered w₀ E₀ R₀)
    (h : Session False checks daysToSeconds settings w₀ bs st w) :
    ∃ (atoms : List Mp4Atom) (rest : List UInt8) (rs : List Record),
      inputs.flatMap (fun b => b.payload) = atoms.flatMap Mp4Atom.atomBytes ++ rest ∧
      (∀ atom ∈ atoms, atom.WellFormed) ∧
      w.index.entries = w₀.index.entries ++ rs.map Record.frame ∧
      (∀ r ∈ rs, r.randomAccess = true →
        ∃ payload, Playable atoms payload ∧ CarriedAt (written st w) r payload) ∧
      ∀ w', Stops settings st w w' →
        w'.data.stored.flatten = written st w ∧
        ∃ final : List Record, w'.index.entries =
            w₀.index.entries ++ rs.map Record.frame ++ final.map Record.frame ∧
          ∀ r ∈ final, r.randomAccess = false := by
  obtain ⟨pay, atoms, hpay⟩ := hpays.viewed
  obtain ⟨spawned, E, R, hrecorded, hview, hsteady⟩ := h.recorded h₀
  obtain ⟨E₁, rs, rfl, rfl, hpoints⟩ := hrecorded.points
  refine ⟨atoms, _, rs, hpay.bytes, hpay.wellFormed, ?_, ?_, fun w' hstop => ?_⟩
  · rw [hview.index, h₀.good.index, List.map_append]
  · intro r hr hrandom
    obtain ⟨x, hx, before, after, rfl, hoffset, hdelta⟩ := hpoints r hr
    obtain ⟨out, hout, hxout⟩ : ∃ out ∈ outputs, out.toBuffer = x.2 := by
      have hmem := List.mem_map_of_mem (f := Prod.snd) hx
      rw [hfed] at hmem
      exact List.mem_map.mp hmem
    have hplayable : Playable atoms x.2.payload := by
      rw [← hxout]
      refine hpay.playable out hout ?_
      rw [hrandom, ← hxout] at hdelta
      simpa using hdelta.symm
    refine ⟨x.2.payload, hplayable, ?_⟩
    have hne : fragments r.timestamp true r.randomAccess r.discontinuity x.2.payload = _ :=
      fragments_of_ne (hplayable.ne_nil hpay.wellFormed)
    refine ⟨E₀ ++ before, _, _, after, ?_, hoffset, hne.symm, ?_⟩
    · rw [hview.written, ← hne]
      simp
    · rw [← hne]
      exact payload_fragments
  · obtain ⟨final, hfinal, hwhole⟩ := hstop.whole hview hsteady
    refine ⟨?_, final, ?_, fun r hr => ?_⟩
    · rw [Log.stored_eq_of_durable hwhole.data, hwhole.good.data, hview.written]
    · rw [hwhole.good.index, h₀.good.index, List.map_append, List.map_append]
    · have hmem := List.mem_map_of_mem (f := Record.toIndexRecord) hr
      rw [hfinal] at hmem
      exact randomAccess_of_mem_finalRecords hmem

/-- A header and one fragment, an atom to a buffer. -/
def keyAtoms : List (List UInt8) :=
  [[0, 0, 0, 8, 0x66, 0x74, 0x79, 0x70], [0, 0, 0, 8, 0x6d, 0x6f, 0x6f, 0x76],
    [0, 0, 0, 8, 0x6d, 0x6f, 0x6f, 0x66], [0, 0, 0, 9, 0x6d, 0x64, 0x61, 0x74, 7]]

def keyInputs : List PayBuffer := keyAtoms.map fun atom => ⟨keyBuffer atom, ClockTime.store none⟩

def keyFragment : EventWithHeader :=
  ⟨⟨⟨some 1000000000⟩, true, true, true⟩, keyAtoms.flatten⟩

theorem random_access_playable_key_frame : ∃ rs : List Record,
    (cameraAdds (keyBuffer keyAtoms.flatten) cameraStarted cameraStart.2).2.index.entries =
      [] ++ rs.map Record.frame ∧
    ∀ r ∈ rs, r.randomAccess = true → ∃ atoms payload, Playable atoms payload ∧
      CarriedAt (written (keyStarted keyFragment.encode 53)
        (cameraAdds (keyBuffer keyAtoms.flatten) cameraStarted cameraStart.2).2) r payload := by
  have hpays : Pays keyInputs [⟨keyBuffer keyAtoms.flatten, ClockTime.store none⟩] := by
    have hrun := outcome_run (A := FragMp4Pay.arena) FragMp4Pay.exec_accept
      ((FragMp4Pay.chain keyInputs).run.run FragMp4Pay.StartedState.default) []
    have hresult : run FragMp4Pay.accept
        ((FragMp4Pay.chain keyInputs).run.run FragMp4Pay.StartedState.default) [] =
          ((.ok (), { FragMp4Pay.StartedState.default with
            ftypeAtom := some ⟨FragMp4Pay.ATOM_TYPE_FTYPE, keyAtoms[0]⟩
            moovAtom := some ⟨FragMp4Pay.ATOM_TYPE_MOOV, keyAtoms[1]⟩
            moofAtom := some ⟨FragMp4Pay.ATOM_TYPE_MOOF, keyAtoms[2]⟩ }),
          [⟨keyBuffer keyAtoms.flatten, ClockTime.store none⟩]) := by decide +kernel
    rw [hresult] at hrun
    exact ⟨_, hrun⟩
  have hrendered :
      (cameraAdds (keyBuffer keyAtoms.flatten) cameraStarted cameraStart.2).1 =
        (.ok (), .started (keyStarted keyFragment.encode 53)) := by decide +kernel
  obtain ⟨atoms, _, rs, _, _, hindex, hplayable, _⟩ := random_access_playable hpays
    rfl whole_empty (camera_session (camera_renders hrendered .nil))
  exact ⟨rs, hindex, fun r hr hrandom => ⟨atoms, hplayable r hr hrandom⟩⟩

end GstPravega.Plugin.PravegaSink
