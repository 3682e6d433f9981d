import GstPravega.Lib.Extremes
import GstPravega.Proofs.Payloader

/-!
# The payloader, whatever it is given back

Nothing is assumed here of the element downstream, which may fail any push, or of the
buffers' times: media data without a PTS makes a call panic, which leaves the lock
poisoned, so that the calls after it do nothing.

`payCall` is a call. What a fragment is made of besides its atoms is said with the buffers
that the body of its mdat atom came in (`ownBuffers`). Between two calls the state has the
tally of some buffers (`Tallied`): those of the mdat atom in progress, behind those of
mdat atoms that were dropped. `pays_from` follows it through a stream.
-/

namespace GstPravega.Plugin.FragMp4Pay

open GstPravega.Lib GstPravega.Gst GstPravega.Lib.Program

/-! ## Calls -/

/-- How the element downstream answers, by all that it has been given. -/
abbrev Downstream := List PayBuffer → Except FlowError Unit

def offer (downstream : Downstream) :
    (c : PayCmd) → List PayBuffer → c.Res × List PayBuffer
  | .push buffer, outs => (downstream (outs ++ [buffer]), outs ++ [buffer])

/-- There is no state once a call has panicked. -/
def settled : Except ChainError Unit × StartedState → Option StartedState
  | (.error .panicked, _) => none
  | (_, st) => some st

/-- A call of the chain function: what it returns, the state, and all that has been
pushed. -/
def payCall (downstream : Downstream) (buffer : PayBuffer)
    (s : Option StartedState × List PayBuffer) :
    Except ChainError Unit × Option StartedState × List PayBuffer :=
  match s.1 with
  | none => (.error .panicked, none, s.2)
  | some st =>
      let r := run (offer downstream) ((sinkChain buffer).run.run st) s.2
      (r.1.1, settled r.1, r.2)

def Offers (downstream : Downstream) (c : PayCmd) (outs : List PayBuffer) (r : c.Res)
    (outs' : List PayBuffer) : Prop :=
  (r, outs') = offer downstream c outs

section Call

variable {downstream : Downstream} {atom : Mp4Atom} {st : StartedState} {buffer : PayBuffer}
  {outs : List PayBuffer} {Q : Unit → StartedState → List PayBuffer → Prop}
  {E : ChainError → StartedState → List PayBuffer → Prop}

theorem offers_ok (downstream : Downstream) (buffer : PayBuffer) (outs outs' : List PayBuffer)
    (h : Offers downstream (.push buffer) outs (.ok ()) outs') : outs' = outs ++ [buffer] :=
  (Prod.mk.inj h).2

theorem offers_error (downstream : Downstream) (buffer : PayBuffer) (outs : List PayBuffer)
    (e : FlowError) (outs' : List PayBuffer)
    (h : Offers downstream (.push buffer) outs (.error e) outs') : outs' = outs ++ [buffer] :=
  (Prod.mk.inj h).2

theorem settled_error {e : ChainError} (h : e ≠ .panicked) :
    settled (.error e, st) = some st := by
  cases e with
  | panicked => exact absurd rfl h
  | failed | reported | downstream | outOfFuel => rfl

theorem payCall_of_safeS
    (h : SafeS (alone (Offers downstream) fun _ => True) (sinkChain buffer) Q E st outs) :
    ∃ r outs', payCall downstream buffer (some st, outs) = (r.1, settled r, outs') ∧
      Ends Q E r outs' := by
  have hrun := outcome_run (A := alone (Offers downstream) fun _ => True)
    (h := offer downstream) (fun _ _ => rfl) ((sinkChain buffer).run.run st) outs
  exact ⟨_, _, rfl, (Safe.outcome (fun _ _ _ _ => trivial) h trivial hrun).1⟩

theorem payCall_unreadable (h : buffer.readable = false) :
    payCall downstream buffer (some st, outs) =
      (.error (.reported .coreFailed "Failed to map buffer"), some st, outs) := by
  rw [payCall, sinkChain, h]
  rfl

/-- The assertion on the PTS fails. -/
theorem payCall_untimed (hreadable : buffer.readable = true)
    (hmdat : (st.mp4Parser.add buffer.payload).haveMdat = true)
    (hpts : buffer.pts.isSome = false) :
    payCall downstream buffer (some st, outs) = (.error .panicked, none, outs) := by
  have hsafe : SafeS (alone (Offers downstream) fun _ => True) (sinkChain buffer)
      (fun _ _ _ => False) (fun e _ outs' => e = .panicked ∧ outs' = outs) st outs := by
    rw [sinkChain, if_pos hreadable]
    refine aloneS_bind (aloneS_modify (aloneS_bind (aloneS_get ?_)))
    rw [if_pos hmdat, hpts, if_neg Bool.false_ne_true]
    exact aloneS_bind (aloneS_throw ⟨rfl, rfl⟩)
  obtain ⟨⟨r, st'⟩, outs', hcall, hends⟩ := payCall_of_safeS hsafe
  cases r with
  | ok a => exact hends.elim
  | error e =>
      obtain ⟨rfl, rfl⟩ := hends
      exact hcall

/-- No atom ends with the buffer. -/
theorem payCall_part (hreadable : buffer.readable = true)
    (hpts : (st.mp4Parser.add buffer.payload).haveMdat = true → buffer.pts.isSome = true)
    (hpop : (st.mp4Parser.add buffer.payload).popAtom =
      some (none, st.mp4Parser.add buffer.payload)) :
    payCall downstream buffer (some st, outs) = (.ok (), some (received st buffer), outs) := by
  obtain ⟨⟨r, st'⟩, outs', hcall, hends⟩ := payCall_of_safeS
    (safeS_sinkChain_part (E := fun _ _ _ => False) hreadable hpts hpop)
  cases r with
  | ok a =>
      obtain ⟨rfl, rfl⟩ := hends
      exact hcall
  | error e => exact hends.elim

/-- The atom ends with the buffer. The error of a push comes with the atom handled. -/
theorem payCall_whole (hreadable : buffer.readable = true)
    (hpts : (st.mp4Parser.add buffer.payload).haveMdat = true → buffer.pts.isSome = true)
    (hatom : atom.WellFormed) (hparser : st.mp4Parser.add buffer.payload = ⟨atom.atomBytes⟩)
    (downstream : Downstream) (outs : List PayBuffer) : ∃ answer st' pushed,
      payCall downstream buffer (some st, outs) = (answer, some st', outs ++ pushed) ∧
        Handled atom { received st buffer with mp4Parser := ⟨[]⟩ } st' pushed := by
  have hwhole := safeS_sinkChain_whole (E := fun e st' outs' => e ≠ .panicked ∧ ∃ pushed,
      Handled atom { received st buffer with mp4Parser := ⟨[]⟩ } st' pushed ∧
        outs' = outs ++ pushed)
    hreadable hpts hatom hparser (fun buffer => offers_ok downstream buffer outs)
    fun buffer e outs' h st' hhandled => ⟨ChainError.noConfusion, [buffer], hhandled,
      offers_error downstream buffer outs e outs' h⟩
  obtain ⟨⟨r, st'⟩, outs', hcall, hends⟩ := payCall_of_safeS hwhole
  cases r with
  | ok a =>
      obtain ⟨pushed, hhandled, rfl⟩ := hends
      exact ⟨_, st', pushed, hcall, hhandled⟩
  | error e =>
      obtain ⟨he, pushed, hhandled, rfl⟩ := hends
      rw [settled_error he] at hcall
      exact ⟨_, st', pushed, hcall, hhandled⟩

end Call

/-! ## The atoms of a stream -/

/-- An mdat atom that completes a fragment, with the atoms in front of it. -/
structure Place where
  before : List Mp4Atom
  mdat : Mp4Atom
  deriving DecidableEq, Repr

def placeAt (before : List Mp4Atom) (atom : Mp4Atom) : List Place :=
  if (fragmentAt before atom).isSome then [⟨before, atom⟩] else []

def placesFrom : List Mp4Atom → List Mp4Atom → List Place
  | _, [] => []
  | before, atom :: rest => placeAt before atom ++ placesFrom (before ++ [atom]) rest

def places (atoms : List Mp4Atom) : List Place := placesFrom [] atoms

section Places

variable {before atoms rest : List Mp4Atom} {atom : Mp4Atom} {atomType : Nat}

theorem placesFrom_append (before atoms rest : List Mp4Atom) :
    placesFrom before (atoms ++ rest) =
      placesFrom before atoms ++ placesFrom (before ++ atoms) rest := by
  induction atoms generalizing before with
  | nil => rw [List.nil_append, List.append_nil, placesFrom, List.nil_append]
  | cons atom atoms ih =>
      rw [List.cons_append, placesFrom, placesFrom, ih, List.append_assoc, List.append_assoc,
        List.singleton_append]

theorem placesFrom_singleton (before : List Mp4Atom) (atom : Mp4Atom) :
    placesFrom before [atom] = placeAt before atom := List.append_nil _

/-- Once there it is never missing again. -/
theorem latest_isSome_append (h : (latest atomType before).isSome = true) :
    (latest atomType (before ++ rest)).isSome = true := by
  induction rest using List.reverseRecOn with
  | nil => rwa [List.append_nil]
  | append_singleton rest atom ih =>
      rw [← List.append_assoc, latest_append]
      split
      · rfl
      · exact ih

theorem isSome_fragmentAt : (fragmentAt before atom).isSome = true ↔
    atom.atomType = ATOM_TYPE_MDAT ∧ (latest ATOM_TYPE_FTYPE before).isSome = true ∧
      (latest ATOM_TYPE_MOOV before).isSome = true ∧
      (latest ATOM_TYPE_MOOF before).isSome = true := by
  rw [fragmentAt]
  split
  · next h =>
      cases latest ATOM_TYPE_FTYPE before <;> cases latest ATOM_TYPE_MOOV before <;>
        cases latest ATOM_TYPE_MOOF before <;> simp [h]
  · next h => simp [h]

/-- Behind a fragment no mdat atom is dropped. -/
theorem isSome_fragmentAt_append {mdat : Mp4Atom}
    (h : (fragmentAt before atom).isSome = true) (hmdat : mdat.atomType = ATOM_TYPE_MDAT) :
    (fragmentAt (before ++ rest) mdat).isSome = true := by
  obtain ⟨-, hftyp, hmoov, hmoof⟩ := isSome_fragmentAt.mp h
  exact isSome_fragmentAt.mpr ⟨hmdat, latest_isSome_append hftyp, latest_isSome_append hmoov,
    latest_isSome_append hmoof⟩

theorem mem_placeAt {place : Place} (h : place ∈ placeAt before atom) :
    place = ⟨before, atom⟩ ∧ (fragmentAt before atom).isSome = true := by
  rw [placeAt] at h
  split at h
  · next hat => exact ⟨List.mem_singleton.mp h, hat⟩
  · cases h

/-- The induction is on the atoms. -/
theorem mem_placesFrom {place : Place} (h : place ∈ placesFrom before atoms) :
    (fragmentAt place.before place.mdat).isSome = true ∧ ∃ pre post,
      atoms = pre ++ place.mdat :: post ∧ place.before = before ++ pre := by
  induction atoms generalizing before with
  | nil => cases h
  | cons atom atoms ih =>
      rw [placesFrom] at h
      rcases List.mem_append.mp h with h | h
      · obtain ⟨rfl, hat⟩ := mem_placeAt h
        exact ⟨hat, [], atoms, rfl, (List.append_nil _).symm⟩
      · obtain ⟨hat, pre, post, rfl, hbefore⟩ := ih h
        refine ⟨hat, atom :: pre, post, rfl, ?_⟩
        rw [hbefore, List.append_assoc, List.singleton_append]

end Places

/-! ## The buffers of an mdat atom -/

/-- The buffers that come while the mdat atom is pending, as soon as more of it is there
than the header. -/
def ownBuffers (buffers : List PayBuffer) (before : List Mp4Atom) (atom : Mp4Atom) :
    List PayBuffer :=
  if atom.atomType = ATOM_TYPE_MDAT then
    let start := (before.flatMap Mp4Atom.atomBytes).length
    ((within (fun b => b.payload) buffers start (start + atom.atomBytes.length)).filter
      fun x => start + 8 < x.1 + x.2.payload.length).map Prod.snd
  else []

/-- Nothing is left of an mdat atom that was dropped: a fragment has been pushed since, or
none of them had media data. -/
def Unspoilt (buffers : List PayBuffer) (before : List Mp4Atom) : Prop :=
  places before = [] → ∀ pre atom post, before = pre ++ atom :: post →
    ownBuffers buffers pre atom = []

section OwnBuffers

variable {taken more : List PayBuffer} {buffer : PayBuffer} {done : List Mp4Atom}
  {atom : Mp4Atom}

theorem ownBuffers_of_ne (h : atom.atomType ≠ ATOM_TYPE_MDAT) :
    ownBuffers taken done atom = [] := if_neg h

/-- The atom has not begun. -/
theorem ownBuffers_eq_nil (h : (taken.flatMap fun b => b.payload).length ≤
    (done.flatMap Mp4Atom.atomBytes).length) : ownBuffers taken done atom = [] := by
  rw [ownBuffers]
  split
  · refine List.map_eq_nil_iff.mpr (List.filter_eq_nil_iff.mpr fun x hx => ?_)
    have hle := (le_of_mem_layout (List.mem_filter.mp hx).1).2
    rw [decide_eq_true_eq]
    omega
  · rfl

/-- All of the atom is there. -/
theorem ownBuffers_append (h : (taken.flatMap fun b => b.payload).length =
    (done.flatMap Mp4Atom.atomBytes).length + atom.atomBytes.length) :
    ownBuffers (taken ++ more) done atom = ownBuffers taken done atom := by
  rw [ownBuffers, ownBuffers]
  split
  · have hafter : (layout (fun b : PayBuffer => b.payload)
        (0 + (taken.flatMap fun b => b.payload).length) more).filter (fun x =>
          (done.flatMap Mp4Atom.atomBytes).length ≤ x.1 ∧
            x.1 < (done.flatMap Mp4Atom.atomBytes).length + atom.atomBytes.length) = [] := by
      refine List.filter_eq_nil_iff.mpr fun x hx => ?_
      have hle := (le_of_mem_layout hx).1
      rw [decide_eq_true_eq]
      omega
    dsimp only
    rw [within, layout_append, List.filter_append, hafter, List.append_nil, within]
  · rfl

/-- One more buffer while the atom is pending. -/
theorem ownBuffers_snoc {n : Nat} (h : (taken.flatMap fun b => b.payload).length =
    (done.flatMap Mp4Atom.atomBytes).length + n) (hn : n < atom.atomBytes.length) :
    ownBuffers (taken ++ [buffer]) done atom = ownBuffers taken done atom ++
      if atom.atomType = ATOM_TYPE_MDAT ∧ 8 < n + buffer.payload.length then [buffer]
      else [] := by
  rw [ownBuffers, ownBuffers]
  split
  · next hmdat =>
      have hin : decide ((done.flatMap Mp4Atom.atomBytes).length ≤
            (done.flatMap Mp4Atom.atomBytes).length + n ∧
          (done.flatMap Mp4Atom.atomBytes).length + n <
            (done.flatMap Mp4Atom.atomBytes).length + atom.atomBytes.length) = true :=
        decide_eq_true (by omega)
      dsimp only
      rw [within, layout_append, List.filter_append, List.filter_append, List.map_append,
        within, layout, layout, h, Nat.zero_add, List.filter_cons, if_pos hin, List.filter_nil]
      congr 1
      by_cases hlen : 8 < n + buffer.payload.length
      · rw [List.filter_cons, if_pos (decide_eq_true (by dsimp only; omega)), if_pos ⟨hmdat, hlen⟩]
        rfl
      · have hout : ¬ decide ((done.flatMap Mp4Atom.atomBytes).length + 8 <
            (done.flatMap Mp4Atom.atomBytes).length + n + buffer.payload.length) = true := by
          rw [decide_eq_true_eq]
          omega
        rw [List.filter_cons, if_neg hout, if_neg fun h => hlen h.2]
        rfl
  · next hmdat =>
      rw [if_neg fun h => hmdat h.1]
      rfl

end OwnBuffers

/-! ## The tally -/

/-- The state has the tally of these buffers. -/
structure Tallied (pending : List PayBuffer) (st : StartedState) : Prop where
  timed : ∀ b ∈ pending, b.pts.isSome = true
  pts : st.fragmentPts = (pending.map fun b => b.pts).foldl (keepLeast (· ≤ ·)) none
  dts : st.fragmentDts = (pending.map fun b => b.dts).foldl (keepLeast (· ≤ ·)) none
  ends : st.fragmentMaxPtsPlusDuration =
    (pending.map fun b => b.pts.add b.duration).foldl (keepGreatest (· ≥ ·)) none
  deltaUnit : st.fragmentBufferFlags.deltaUnit = pending.all fun b => b.flags.deltaUnit
  discont : st.fragmentBufferFlags.discont = pending.any fun b => b.flags.discont

/-- What a pushed buffer is made of: the atoms of the fragment, and the tally of the buffers
of its mdat atom behind those that were left. -/
structure Paid (buffers : List PayBuffer) (out : PayBuffer) (place : Place) : Prop where
  carries : ∃ fragment, fragmentAt place.before place.mdat = some fragment ∧ Carries out fragment
  tallied : ∃ left st, (Unspoilt buffers place.before → left = []) ∧
    Tallied (left ++ ownBuffers buffers place.before place.mdat) st ∧ out = st.output out.payload

section Tally

variable {atom : Mp4Atom} {done : List Mp4Atom} {st st' : StartedState} {buffer : PayBuffer}
  {buffers pending left pushed : List PayBuffer}

theorem if_le_eq_keepLeast (acc t : ClockTime) :
    (if acc.isNone || !ClockTime.le acc t then t else acc) = keepLeast (· ≤ ·) acc t := by
  cases acc with
  | none => rfl
  | some m =>
      cases t with
      | none => rfl
      | some a =>
          by_cases h : m ≤ a <;> simp [ClockTime.le, keepLeast, h]

theorem if_le_eq_keepGreatest (acc t : ClockTime) :
    (if acc.isNone || !ClockTime.le t acc then t else acc) = keepGreatest (· ≥ ·) acc t := by
  cases acc with
  | none => rfl
  | some m =>
      cases t with
      | none => rfl
      | some a =>
          by_cases h : a ≤ m <;> simp [ClockTime.le, keepGreatest, h]

theorem tallied_clearFragment (st : StartedState) : Tallied [] st.clearFragment :=
  ⟨fun _ h => absurd h List.not_mem_nil, rfl, rfl, rfl, rfl, rfl⟩

theorem Tallied.noteBuffer (h : Tallied pending st) (hpts : buffer.pts.isSome = true) :
    Tallied (pending ++ [buffer]) (st.noteBuffer buffer) := by
  refine ⟨?_, ?_, ?_, ?_, ?_, ?_⟩
  · intro b hb
    rcases List.mem_append.mp hb with hb | hb
    · exact h.timed b hb
    · exact List.mem_singleton.mp hb ▸ hpts
  · rw [List.map_append, List.foldl_append, ← h.pts]
    exact if_le_eq_keepLeast _ _
  · rw [List.map_append, List.foldl_append, ← h.dts]
    exact if_le_eq_keepLeast _ _
  · rw [List.map_append, List.foldl_append, ← h.ends]
    exact if_le_eq_keepGreatest _ _
  · rw [List.all_append, ← h.deltaUnit]
    show (if st.fragmentBufferFlags.deltaUnit && !buffer.flags.deltaUnit then false
      else st.fragmentBufferFlags.deltaUnit) = _
    cases st.fragmentBufferFlags.deltaUnit <;> cases hb : buffer.flags.deltaUnit <;> simp [hb]
  · rw [List.any_append, ← h.discont]
    show (if buffer.flags.discont then true else st.fragmentBufferFlags.discont) = _
    cases st.fragmentBufferFlags.discont <;> cases hb : buffer.flags.discont <;> simp [hb]

/-- The parser has seen some of the atom. -/
theorem haveMdat_iff (hatom : atom.WellFormed) {held more : List UInt8}
    (h : held ++ more = atom.atomBytes) : Mp4Parser.haveMdat ⟨held⟩ = true ↔
      atom.atomType = ATOM_TYPE_MDAT ∧ 8 < held.length := by
  refine ⟨haveMdat_of_append hatom h, fun ⟨hmdat, hlen⟩ => ?_⟩
  rw [Mp4Parser.haveMdat]
  dsimp only
  rw [if_pos hlen, decide_eq_true_eq, ← hmdat, ← hatom.type, ← h,
    List.drop_append_of_le_length (by omega),
    List.take_append_of_le_length (by rw [List.length_drop]; omega)]

/-- The buffer counts where the assertion on its PTS is made. -/
theorem Tallied.received (h : Tallied pending st)
    (hpts : (st.mp4Parser.add buffer.payload).haveMdat = true → buffer.pts.isSome = true) :
    Tallied (pending ++ if (st.mp4Parser.add buffer.payload).haveMdat then [buffer] else [])
      (received st buffer) := by
  rw [FragMp4Pay.received]
  dsimp only
  split
  · next hmdat =>
      have hadded : Tallied pending { st with mp4Parser := st.mp4Parser.add buffer.payload } :=
        ⟨h.timed, h.pts, h.dts, h.ends, h.deltaUnit, h.discont⟩
      exact hadded.noteBuffer (hpts hmdat)
  · rw [List.append_nil]
    exact ⟨h.timed, h.pts, h.dts, h.ends, h.deltaUnit, h.discont⟩

/-- An atom that drops nothing leaves things as they are. -/
theorem unspoilt_of_append (hat : fragmentAt done atom = none)
    (h : Unspoilt buffers (done ++ [atom])) :
    Unspoilt buffers done ∧ ownBuffers buffers done atom = [] := by
  have hplaces : places (done ++ [atom]) = places done := by
    rw [places, placesFrom_append, placesFrom_singleton, List.nil_append, placeAt, hat]
    exact List.append_nil _
  rw [Unspoilt, hplaces] at h
  by_cases hdone : places done = []
  · have hown := h hdone
    refine ⟨fun _ pre a post heq => hown pre a (post ++ [atom]) ?_, hown done atom [] rfl⟩
    rw [heq, List.append_assoc, List.cons_append]
  · refine ⟨fun h => absurd h hdone, ?_⟩
    by_cases hmdat : atom.atomType = ATOM_TYPE_MDAT
    · -- A fragment has been pushed, so that the atom is not dropped.
      obtain ⟨place, hplace⟩ := List.exists_mem_of_ne_nil _ hdone
      obtain ⟨hsome, pre, post, heq, hbefore⟩ := mem_placesFrom hplace
      rw [List.nil_append] at hbefore
      have hcomplete : (fragmentAt (place.before ++ place.mdat :: post) atom).isSome = true :=
        isSome_fragmentAt_append hsome hmdat
      rw [hbefore, ← heq, hat] at hcomplete
      cases hcomplete
    · exact ownBuffers_of_ne hmdat

theorem Handled.tallied (h : Handled atom st st' []) (htallied : Tallied pending st) :
    Tallied pending st' := by
  obtain ⟨htimed, hpts, hdts, hends, hdelta, hdiscont⟩ := htallied
  cases h with
  | ftype _ | moov _ | moof _ | incomplete _ _ | unknown _ _ _ _ =>
      exact ⟨htimed, hpts, hdts, hends, hdelta, hdiscont⟩

theorem Handled.output {out : PayBuffer} (h : Handled atom st st' [out]) :
    out = st.output out.payload ∧ st' = st.clearFragment := by
  cases h with
  | fragment _ _ _ _ => exact ⟨rfl, rfl⟩

/-- What is left of the buffers when an atom has been handled. -/
theorem Handled.paid (h : Handled atom st st' pushed) (hkept : Kept done st)
    (hleft : Unspoilt buffers done → left = [])
    (htallied : Tallied (left ++ ownBuffers buffers done atom) st) :
    List.Forall₂ (Paid buffers) pushed (placeAt done atom) ∧
      ∃ left', (Unspoilt buffers (done ++ [atom]) → left' = []) ∧ Tallied left' st' := by
  have hcarries := h.carries hkept
  cases hat : fragmentAt done atom with
  | some fragment =>
      rw [hat] at hcarries
      obtain ⟨out, rest, hcarried, hrest, rfl⟩ := List.forall₂_cons_right_iff.mp hcarries
      obtain rfl := List.forall₂_nil_right_iff.mp hrest
      obtain ⟨hout, rfl⟩ := h.output
      rw [placeAt, hat]
      exact ⟨List.Forall₂.cons ⟨⟨fragment, hat, hcarried⟩, left, st, hleft, htallied, hout⟩
        List.Forall₂.nil, [], fun _ => rfl, tallied_clearFragment st⟩
  | none =>
      rw [hat] at hcarries
      obtain rfl := List.forall₂_nil_right_iff.mp hcarries
      rw [placeAt, hat]
      refine ⟨List.Forall₂.nil, _, fun hunspoilt => ?_, h.tallied htallied⟩
      obtain ⟨hdone, hown⟩ := unspoilt_of_append hat hunspoilt
      rw [hleft hdone, hown, List.append_nil]

end Tally

/-! ## A stream -/

/-- The buffers are those that the atoms come in, each within one atom. -/
structure Arrives (atoms : List Mp4Atom) (buffers : List PayBuffer) : Prop where
  wellFormed : ∀ atom ∈ atoms, atom.WellFormed
  bytes : buffers.flatMap (fun b => b.payload) = atoms.flatMap Mp4Atom.atomBytes
  /-- A buffer does not reach past the end of the atom in progress. -/
  contained : EachPiece Mp4Atom.atomBytes (fun b : PayBuffer => b.payload)
    (fun held atom b => held + b.payload.length ≤ atom.atomBytes.length) 0 atoms buffers

theorem Delivered.arrives {atoms : List Mp4Atom} {buffers : List PayBuffer}
    (h : Delivered atoms buffers) : Arrives atoms buffers := ⟨h.wellFormed, h.bytes, h.contained⟩

/-- A call with another buffer fails, and does nothing else. -/
abbrev readables (buffers : List PayBuffer) : List PayBuffer :=
  buffers.filter fun b => b.readable

/-- Each atom comes in a buffer of its own. -/
theorem arrives_of_forall₂ {atoms : List Mp4Atom} {buffers : List PayBuffer}
    (hwell : ∀ atom ∈ atoms, atom.WellFormed)
    (h : List.Forall₂ (fun atom b => b.payload = atom.atomBytes) atoms buffers) :
    Arrives atoms buffers := by
  induction h with
  | nil => exact ⟨hwell, rfl, eachPiece_nil _ _⟩
  | @cons atom b atoms buffers hpayload _ ih =>
      have hatom := hwell atom List.mem_cons_self
      obtain ⟨hwell', hbytes, hcontained⟩ := ih fun a ha => hwell a (List.mem_cons_of_mem _ ha)
      refine ⟨hwell, ?_, ?_⟩
      · rw [List.flatMap_cons, List.flatMap_cons, hpayload, hbytes]
      · rw [eachPiece_cons hatom.length_pos, hpayload, Nat.zero_add, eachPiece_next]
        exact ⟨Nat.le_refl _, hcontained⟩

abbrev Cuts : List UInt8 → List Mp4Atom → List PayBuffer → Prop :=
  InPieces Mp4Atom.atomBytes (fun b => b.payload) fun _ _ _ => True

/-- The own buffers of the atom in progress. -/
def inProgress (taken : List PayBuffer) (done : List Mp4Atom) : List Mp4Atom → List PayBuffer
  | [] => []
  | atom :: _ => ownBuffers taken done atom

section Stream

variable {downstream : Downstream} {atom : Mp4Atom} {atoms done rest : List Mp4Atom}
  {st : StartedState} {buffer : PayBuffer} {buffers taken left outs : List PayBuffer}
  {held : List UInt8}

theorem Arrives.cuts (h : Arrives atoms buffers) : Cuts [] atoms buffers := by
  refine inPieces_of_eachPiece buffers (fun atom hatom => (h.wellFormed atom hatom).ne_nil)
    h.bytes ?_ h.contained fun _ _ _ _ _ _ _ _ _ _ _ => trivial
  rintro atom rest rfl
  exact (h.wellFormed atom List.mem_cons_self).length_pos

theorem after_poisoned (buffers : List PayBuffer) (outs : List PayBuffer) :
    Calls.after (payCall downstream) buffers (none, outs) = (none, outs) := by
  induction buffers with
  | nil => rfl
  | cons buffer buffers ih => exact ih

theorem inProgress_eq_nil (h : (taken.flatMap fun b => b.payload).length ≤
    (done.flatMap Mp4Atom.atomBytes).length) : inProgress taken done rest = [] := by
  cases rest with
  | nil => rfl
  | cons atom rest => exact ownBuffers_eq_nil h

/-- A buffer of the atom in progress. -/
theorem Tallied.received_own {more : List UInt8} (hatom : atom.WellFormed)
    (hparser : st.mp4Parser = ⟨held⟩) (hsplit : (held ++ buffer.payload) ++ more = atom.atomBytes)
    (hheld : held.length < atom.atomBytes.length)
    (hplace : (taken.flatMap fun b => b.payload).length =
      (done.flatMap Mp4Atom.atomBytes).length + held.length)
    (hpts : (st.mp4Parser.add buffer.payload).haveMdat = true → buffer.pts.isSome = true)
    (htallied : Tallied (left ++ ownBuffers taken done atom) st) :
    Tallied (left ++ ownBuffers (taken ++ [buffer]) done atom)
      (FragMp4Pay.received st buffer) := by
  have hreceived := htallied.received hpts
  have hadd : st.mp4Parser.add buffer.payload = ⟨held ++ buffer.payload⟩ := by
    rw [hparser, Mp4Parser.add]
  have hiff := haveMdat_iff hatom hsplit
  rw [List.length_append] at hiff
  simp only [hadd, hiff] at hreceived
  rw [ownBuffers_snoc hplace hheld, ← List.append_assoc]
  exact hreceived

theorem length_taken (hplace : (taken.flatMap fun b => b.payload).length =
      (done.flatMap Mp4Atom.atomBytes).length + held.length) :
    ((taken ++ [buffer]).flatMap fun b => b.payload).length =
      (done.flatMap Mp4Atom.atomBytes).length + (held ++ buffer.payload).length := by
  rw [List.flatMap_append, List.length_append, hplace, List.flatMap_singleton,
    List.length_append, Nat.add_assoc]

/-- The atom in progress ends with the buffer. More buffers come behind it. -/
theorem payCall_completes {more : List PayBuffer} (hatom : atom.WellFormed)
    (hreadable : buffer.readable = true)
    (hpts : (st.mp4Parser.add buffer.payload).haveMdat = true → buffer.pts.isSome = true)
    (hparser : st.mp4Parser = ⟨held⟩) (hwhole : held ++ buffer.payload = atom.atomBytes)
    (hheld : held.length < atom.atomBytes.length)
    (hplace : (taken.flatMap fun b => b.payload).length =
      (done.flatMap Mp4Atom.atomBytes).length + held.length) (hkept : Kept done st)
    (hleft : Unspoilt (taken ++ [buffer] ++ more) done → left = [])
    (htallied : Tallied (left ++ ownBuffers taken done atom) st) (downstream : Downstream)
    (outs : List PayBuffer) : ∃ answer st' pushed left',
      payCall downstream buffer (some st, outs) = (answer, some st', outs ++ pushed) ∧
        st'.mp4Parser = ⟨[]⟩ ∧ Kept (done ++ [atom]) st' ∧
        List.Forall₂ (Paid (taken ++ [buffer] ++ more)) pushed (placeAt done atom) ∧
        (Unspoilt (taken ++ [buffer] ++ more) (done ++ [atom]) → left' = []) ∧
        Tallied left' st' := by
  have hadd : st.mp4Parser.add buffer.payload = ⟨atom.atomBytes⟩ := by
    rw [hparser, Mp4Parser.add, hwhole]
  obtain ⟨answer, st', pushed, hcall, hhandled⟩ :=
    payCall_whole hreadable hpts hatom hadd downstream outs
  have hkept' : Kept done { received st buffer with mp4Parser := ⟨[]⟩ } :=
    ⟨hkept.received.ftype, hkept.received.moov, hkept.received.moof⟩
  have hown := htallied.received_own hatom hparser ((List.append_nil _).trans hwhole) hheld
    hplace hpts
  have hall : ownBuffers (taken ++ [buffer] ++ more) done atom =
      ownBuffers (taken ++ [buffer]) done atom :=
    ownBuffers_append ((length_taken hplace).trans (by rw [hwhole]))
  rw [← hall] at hown
  obtain ⟨hpaid, left', hleft', htallied'⟩ := hhandled.paid hkept' hleft
    ⟨hown.timed, hown.pts, hown.dts, hown.ends, hown.deltaUnit, hown.discont⟩
  exact ⟨answer, st', pushed, left', hcall, hhandled.parser, hhandled.kept hkept', hpaid, hleft',
    htallied'⟩

/-- The buffers of the stream are those taken and those to come. From any point within an
atom, or behind all of them. The induction is on the buffers to come. -/
theorem pays_from (downstream : Downstream) (buffers : List PayBuffer) :
    ∀ {held : List UInt8} {done rest : List Mp4Atom} {st : StartedState}
      {taken left : List PayBuffer} (outs : List PayBuffer),
    st.mp4Parser = ⟨held⟩ → Kept done st → (∀ atom ∈ rest, atom.WellFormed) →
    (∀ atom rest', rest = atom :: rest' → held.length < atom.atomBytes.length) →
    Cuts held rest (buffers.filter fun b => b.readable) →
    (taken.flatMap fun b => b.payload).length =
      (done.flatMap Mp4Atom.atomBytes).length + held.length →
    (Unspoilt (taken ++ buffers.filter fun b => b.readable) done → left = []) →
    Tallied (left ++ inProgress taken done rest) st →
    ∃ handled pushed, handled <+: rest ∧
      ((Calls.after (payCall downstream) buffers (some st, outs)).1.isSome = true →
        handled = rest) ∧
      (Calls.after (payCall downstream) buffers (some st, outs)).2 = outs ++ pushed ∧
      List.Forall₂ (Paid (taken ++ buffers.filter fun b => b.readable)) pushed
        (placesFrom done handled) := by
  induction buffers with
  | nil =>
      intro held done rest st taken left outs _ _ _ _ hcuts _ _ _
      cases hcuts
      exact ⟨[], [], List.prefix_rfl, fun _ => rfl, (List.append_nil _).symm, List.Forall₂.nil⟩
  | cons buffer buffers ih =>
      intro held done rest st taken left outs hparser hkept hwell hheld hcuts hplace hleft htallied
      rw [Calls.after_cons]
      rw [List.filter_cons] at hcuts hleft ⊢
      cases hreadable : buffer.readable with
      | false =>
          rw [hreadable, if_neg Bool.false_ne_true] at hcuts hleft
          rw [if_neg Bool.false_ne_true, payCall_unreadable hreadable]
          exact ih outs hparser hkept hwell hheld hcuts hplace hleft htallied
      | true =>
          rw [hreadable, if_pos rfl] at hcuts hleft
          rw [if_pos rfl]
          have hadd : st.mp4Parser.add buffer.payload = ⟨held ++ buffer.payload⟩ := by
            rw [hparser, Mp4Parser.add]
          have hparser' : (received st buffer).mp4Parser = ⟨held ++ buffer.payload⟩ :=
            mp4Parser_received.trans hadd
          by_cases hpts : (st.mp4Parser.add buffer.payload).haveMdat = true →
              buffer.pts.isSome = true
          · rw [List.append_cons] at hleft ⊢
            cases hcuts with
            -- There is nothing in the buffer.
            | idle hnil hcuts =>
                have hempty : st.mp4Parser.add buffer.payload = ⟨[]⟩ := by
                  rw [hadd, hnil, List.append_nil]
                have hreceived := htallied.received hpts
                rw [hempty, if_neg (show ¬ Mp4Parser.haveMdat ⟨[]⟩ = true from Bool.false_ne_true),
                  List.append_nil] at hreceived
                rw [payCall_part hreadable hpts (by rw [hempty]; exact popAtom_nil)]
                refine ih outs (mp4Parser_received.trans hempty) hkept.received hwell ?_ hcuts ?_
                  hleft hreceived
                · exact fun _ _ h => absurd h (List.cons_ne_nil _ _).symm
                · rw [List.flatMap_append, List.length_append, hplace, List.flatMap_singleton,
                    hnil, List.length_nil, Nat.add_zero]
            | part _ hmore hsplit hcuts =>
                have hatom := hwell _ List.mem_cons_self
                rw [payCall_part hreadable hpts
                  (by rw [hadd]; exact popAtom_part hatom hsplit hmore)]
                refine ih outs hparser' hkept.received hwell ?_ hcuts ?_ hleft
                  (htallied.received_own hatom hparser hsplit (hheld _ _ rfl) hplace hpts)
                · rintro _ _ ⟨⟩
                  exact length_lt_of_append hsplit hmore
                · exact length_taken hplace
            | @whole _ atom rest _ _ _ hwhole hcuts =>
                have hatom := hwell _ List.mem_cons_self
                have hwell' : ∀ a ∈ rest, a.WellFormed :=
                  fun a ha => hwell a (List.mem_cons_of_mem _ ha)
                obtain ⟨answer, st', pushed, left', hcall, hempty, hkept', hpaid, hleft',
                    htallied'⟩ := payCall_completes hatom hreadable hpts hparser hwhole (hheld _ _ rfl) hplace
                    hkept hleft htallied downstream outs
                have hplace' : ((taken ++ [buffer]).flatMap fun b => b.payload).length =
                    ((done ++ [atom]).flatMap Mp4Atom.atomBytes).length + 0 := by
                  rw [length_taken hplace, hwhole, List.flatMap_append, List.length_append,
                    List.flatMap_singleton, Nat.add_zero]
                have hnone : inProgress (taken ++ [buffer]) (done ++ [atom]) rest = [] :=
                  inProgress_eq_nil (Nat.le_of_eq hplace')
                obtain ⟨handled, pushed', hprefix, hsome, hafter, hpaid'⟩ := ih (outs ++ pushed)
                  hempty hkept' hwell'
                  (fun a rest' h => (hwell' a (h ▸ List.mem_cons_self)).length_pos) hcuts hplace'
                  hleft' (by rw [hnone, List.append_nil]; exact htallied')
                rw [hcall]
                refine ⟨atom :: handled, pushed ++ pushed', ?_, ?_, ?_, ?_⟩
                · exact (List.prefix_cons_inj atom).mpr hprefix
                · exact fun h => congrArg _ (hsome h)
                · rw [hafter, List.append_assoc]
                · exact List.rel_append hpaid hpaid'
          · obtain ⟨hmdat, hnone⟩ := Classical.not_imp.mp hpts
            rw [payCall_untimed hreadable hmdat (Bool.eq_false_iff.mpr hnone), after_poisoned]
            exact ⟨[], [], List.nil_prefix, fun h => absurd h Bool.false_ne_true,
              (List.append_nil _).symm, List.Forall₂.nil⟩

/-- The atoms handled are all of them, or those before a call that panicked. -/
theorem paid_places (downstream : Downstream) (atoms : List Mp4Atom) (buffers : List PayBuffer)
    (h : Arrives atoms (readables buffers)) :
    ∃ handled, handled <+: atoms ∧
      ((Calls.after (payCall downstream) buffers (some .default, [])).1.isSome = true →
        handled = atoms) ∧
      List.Forall₂ (Paid (readables buffers))
        (Calls.after (payCall downstream) buffers (some .default, [])).2 (places handled) := by
  have htallied : Tallied ([] ++ inProgress [] [] atoms) StartedState.default := by
    rw [inProgress_eq_nil (Nat.le_refl _)]
    exact ⟨fun _ h => absurd h List.not_mem_nil, rfl, rfl, rfl, rfl, rfl⟩
  have hparser : StartedState.default.mp4Parser = ⟨[]⟩ := rfl
  obtain ⟨handled, pushed, hprefix, hsome, hafter, hpaid⟩ := pays_from downstream buffers []
    hparser ⟨rfl, rfl, rfl⟩ h.wellFormed
    (fun a rest heq => (h.wellFormed a (heq ▸ List.mem_cons_self)).length_pos) h.cuts rfl
    (fun _ => rfl) htallied
  rw [hafter]
  exact ⟨handled, hprefix, hsome, hpaid⟩

end Stream

end GstPravega.Plugin.FragMp4Pay
