import GstPravega.Lib.Threads
import GstPravega.Lib.Versioned
import GstPravega.Proofs.SkipAhead
import Mathlib.Algebra.Order.BigOperators.Group.List
import Mathlib.Data.List.Nodup

/-!
# Sessions that share a table

A session that is taken for dead may run on while the next one starts, and many may start at
once. What they share is the record in the table, which the element replaces at a start only
if it still has the version that was read, and otherwise at once.

So each attempt to resume is counted (`sent_as_counted`): where the sources of a session are
sent is what the record of progress says for as many attempts as there were sessions, and of
the sessions that found one version of the record one goes on (`other_goes_no_further`). Neither
depends on when the writes are done whose answer was an error.
-/

namespace GstPravega.Plugin.PravegaTC

open GstPravega.Lib GstPravega.Lib.Threads GstPravega.Lib.Versioned GstPravega.Gst
open GstPravega.Video GstPravega.Lib.Program

/-! ## The sessions and the table -/

/-- What a session found in the table, if it was answered, and what it did in its pipeline. -/
structure Trace where
  found : Option Table
  acts : List TcCmd
  deriving DecidableEq, Repr

def Trace.find (found : Table) (trace : Trace) : Trace := { trace with found := some found }

def Trace.act (c : TcCmd) (trace : Trace) : Trace := { trace with acts := trace.acts ++ [c] }

/-- What was written to the record, the writes under way, and the sessions. -/
structure Cluster where
  puts : List (Put PersistentState)
  underWay : List (Request PersistentState)
  traces : List Trace

namespace Cluster

def empty : Cluster := ⟨[], [], []⟩

def record (w : Cluster) (i : Nat) (f : Trace → Trace) : Cluster :=
  { w with traces := w.traces.modify i f }

theorem record_self {w : Cluster} {i : Nat} {f : Trace → Trace} {trace : Trace}
    (h : w.traces[i]? = some trace) : (w.record i f).traces[i]? = some (f trace) := by
  rw [record, List.getElem?_modify_eq, h]
  rfl

theorem record_ne {w : Cluster} {i j : Nat} {f : Trace → Trace} (h : j ≠ i) :
    (w.record i f).traces[j]? = w.traces[j]? :=
  List.getElem?_modify_ne f w.traces (Ne.symm h)

/-- A write that fails may be done, now or later. -/
def Writes (q : Request PersistentState) (w : Cluster) (r : Except String Unit) (w' : Cluster) :
    Prop :=
  (r = .ok () ∧ ∃ puts, Done q w.puts puts ∧ w' = { w with puts := puts }) ∨
    ((∃ e, r = .error e) ∧ (w' = w ∨ w' = { w with underWay := q :: w.underWay }))

/-- What a command of session `i` does. -/
def Exec (i : Nat) : (c : TcCmd) → Cluster → c.Res → Cluster → Prop
  | .createClientConfig .., w, _, w' => w' = w
  | .createTable .., w, _, w' => w' = w
  | .get, w, r, w' =>
      (r = .ok (current w.puts) ∧ w' = w.record i (Trace.find (current w.puts))) ∨
        ((∃ e, r = .error e) ∧ w' = w)
  | .insertConditionally s version, w, r, w' => Writes ⟨i, some version, s⟩ w r w'
  | .insert s, w, r, w' => Writes ⟨i, none, s⟩ w r w'
  | .push buffer, w, _, w' => w' = w.record i (Trace.act (.push buffer))
  | .children, w, _, w' => w' = w
  | .setStart child startMode startTimestamp, w, _, w' =>
      w' = w.record i (Trace.act (.setStart child startMode startTimestamp))

/-- A write that was under way is done. -/
inductive Moves : Cluster → Cluster → Prop where
  | arrives {w pre q post puts} : w.underWay = pre ++ q :: post → Done q w.puts puts →
      Moves w { w with puts := puts, underWay := pre ++ post }

end Cluster

/-- One more session. -/
def Starts (checks : Bool) (n : Nat) (p : TcProgram (Except Failure Unit × Element))
    (w w' : Cluster) : Prop :=
  ∃ env buffers settings, w.traces.length = n ∧
    p = session checks env buffers ⟨settings, .stopped⟩ ∧
    w' = { w with traces := w.traces ++ [⟨none, []⟩] }

abbrev Sessions := Config Cluster TcCmd TcCmd.Res (Except Failure Unit × Element)

/-- What any number of sessions come to. -/
abbrev Shared (checks : Bool) : Sessions → Sessions → Prop :=
  Reaches Cluster.Exec (Starts checks) Cluster.Moves

theorem Cluster.Writes.traces {q : Request PersistentState} {w w' : Cluster}
    {r : Except String Unit} (h : Cluster.Writes q w r w') : w'.traces = w.traces := by
  rcases h with ⟨_, _, _, rfl⟩ | ⟨_, rfl | rfl⟩
  · rfl
  · rfl
  · rfl

/-- The traces on record are those of the sessions, so that none is ever refused. -/
theorem traces_length {checks : Bool} {x y : Sessions}
    (hx : x.1.traces.length = x.2.length) (h : Shared checks x y) :
    y.1.traces.length = y.2.length := by
  induction h with
  | refl => exact hx
  | tail _ hstep ih =>
      cases hstep with
      | runs hruns =>
          cases hruns with
          | @exec w w' ps i c k r _ hexec =>
              rw [List.length_set]
              suffices hlen : w'.traces.length = w.traces.length by rw [hlen]; exact ih
              cases c with
              | createClientConfig controller keycloakFile => rw [show w' = w from hexec]
              | createTable scope table => rw [show w' = w from hexec]
              | get =>
                  rcases hexec with ⟨_, rfl⟩ | ⟨_, rfl⟩
                  · exact List.length_modify ..
                  · rfl
              | insertConditionally s version => rw [Cluster.Writes.traces hexec]
              | insert s => rw [Cluster.Writes.traces hexec]
              | push buffer =>
                  rw [show w' = _ from hexec]
                  exact List.length_modify ..
              | children => rw [show w' = w from hexec]
              | setStart child startMode startTimestamp =>
                  rw [show w' = _ from hexec]
                  exact List.length_modify ..
      | spawn hstarts =>
          obtain ⟨env, buffers, settings, hlen, -, rfl⟩ := hstarts
          rw [List.length_append, List.length_append, hlen]
          rfl
      | env hmoves =>
          cases hmoves with
          | arrives _ _ => exact ih

/-! ## The invariant -/

/-- A record as it is written behind a buffer or at the stop. -/
def Progress (s : PersistentState) : Prop := s.resumeCount = some 0

/-- One more attempt to resume. -/
def Counts (checks : Bool) (s s' : PersistentState) : Prop :=
  ∃ n, u64Add checks (s.resumeCount.getD 0) 1 = some n ∧ s' = { s with resumeCount := some n }

/-- A session replaces what it found. -/
def Asked (traces : List Trace) (q : Request PersistentState) : Prop :=
  ∀ expected, q.expects = some expected →
    ∃ trace s, traces[q.writer]? = some trace ∧ trace.found = some (some (s, expected))

/-- A session that may go on: it found no record and plays from where it is, or it has counted
its attempt and sends the sources where the record says. -/
inductive Entitled (checks : Bool) (puts : List (Put PersistentState)) (i : Nat) :
    Trace → Prop where
  | fresh {acts} (hacts : ∀ c ∈ acts, ∃ buffer, c = .push buffer) :
      Entitled checks puts i ⟨some none, acts⟩
  | resumed {s version n t startMode acts} (hresumes : ResumesAt checks s n t startMode)
      (hfound : ∃ p ∈ puts, p.value = s ∧ p.version = version)
      (hcounted : ∃ p ∈ puts,
        p.toRequest = ⟨i, some version, { s with resumeCount := some n }⟩)
      (hacts : ∀ c ∈ acts, (∃ buffer, c = .push buffer) ∨
        ∃ child, c = .setStart child startMode t) :
      Entitled checks puts i ⟨some (some (s, version)), acts⟩

/-- Every write, done or under way. -/
def Cluster.requests (w : Cluster) : List (Request PersistentState) :=
  w.underWay ++ w.puts.map Put.toRequest

/-- At any moment. -/
structure Shares (checks : Bool) (w : Cluster) : Prop where
  puts : Puts Progress (Counts checks) w.puts
  underWay : ∀ q ∈ w.underWay, Based Progress (Counts checks) w.puts q
  asked : ∀ q ∈ w.requests, Asked w.traces q
  acts : ∀ i trace, w.traces[i]? = some trace → trace.acts ≠ [] →
    Entitled checks w.puts i trace

/-- What session `i` counts on. -/
structure Counting (i : Nat) (w w' : Cluster) : Prop where
  puts : w.puts <:+ w'.puts
  trace : w'.traces[i]? = w.traces[i]?

def sharing (checks : Bool) : Discipline Cluster TcCmd TcCmd.Res where
  exec := Cluster.Exec
  rely := Counting
  inv := Shares checks
  rely_refl _ w := ⟨List.suffix_refl w.puts, rfl⟩
  rely_trans _ _ _ _ h h' := ⟨h.puts.trans h'.puts, h'.trace.trans h.trace⟩

theorem shares_empty (checks : Bool) : Shares checks Cluster.empty where
  puts := .nil
  underWay _ hq := absurd hq List.not_mem_nil
  asked _ hq := absurd hq List.not_mem_nil
  acts _ _ htrace := nomatch htrace

section Commands

variable {checks : Bool} {i : Nat} {w w' : Cluster} {q : Request PersistentState}
  {trace : Trace}

theorem Entitled.mono {puts puts' : List (Put PersistentState)}
    (h : Entitled checks puts i trace) (hsuffix : puts <:+ puts') :
    Entitled checks puts' i trace := by
  cases h with
  | fresh hacts => exact .fresh hacts
  | resumed hresumes hfound hcounted hacts =>
      obtain ⟨u, hu, hfound⟩ := hfound
      obtain ⟨p, hp, hcounted⟩ := hcounted
      exact .resumed hresumes ⟨u, hsuffix.subset hu, hfound⟩ ⟨p, hsuffix.subset hp, hcounted⟩
        hacts

/-- A write is done. -/
theorem Shares.put {puts : List (Put PersistentState)} (h : Shares checks w)
    (hbased : Based Progress (Counts checks) w.puts q) (hasked : Asked w.traces q)
    (hdone : Done q w.puts puts) :
    Shares checks { w with puts := puts } ∧ w.puts <:+ puts ∧
      ∃ p ∈ puts, p.toRequest = q := by
  obtain ⟨hputs, version, rfl⟩ := h.puts.done hbased hdone
  have hsuffix : w.puts <:+ ⟨q, version⟩ :: w.puts := List.suffix_cons _ _
  refine ⟨⟨hputs, fun q' hq' => (h.underWay q' hq').mono hsuffix, fun q' hq' => ?_,
    fun j trace htrace hacts => (h.acts j trace htrace hacts).mono hsuffix⟩, hsuffix, _,
    List.mem_cons_self, rfl⟩
  rcases List.mem_append.mp hq' with hq' | hq'
  · exact h.asked q' (List.mem_append_left _ hq')
  · rcases List.mem_cons.mp hq' with rfl | hq'
    · exact hasked
    · exact h.asked q' (List.mem_append_right _ hq')

/-- A write, whatever becomes of it. -/
theorem Shares.writes {r : Except String Unit} (h : Shares checks w)
    (hbased : Based Progress (Counts checks) w.puts q) (hasked : Asked w.traces q)
    (hexec : Cluster.Writes q w r w') :
    Shares checks w' ∧ w.puts <:+ w'.puts ∧ (r = .ok () → ∃ p ∈ w'.puts, p.toRequest = q) := by
  rcases hexec with ⟨_, puts, hdone, rfl⟩ | ⟨⟨e, rfl⟩, rfl | rfl⟩
  · obtain ⟨hputs, hsuffix, hp⟩ := h.put hbased hasked hdone
    exact ⟨hputs, hsuffix, fun _ => hp⟩
  · exact ⟨h, List.suffix_refl _, fun hr => nomatch hr⟩
  · refine ⟨{ h with underWay := fun q' hq' => ?_, asked := fun q' hq' => ?_ },
      List.suffix_refl _, fun hr => nomatch hr⟩
    · rcases List.mem_cons.mp hq' with rfl | hq'
      · exact hbased
      · exact h.underWay q' hq'
    · rcases List.mem_cons.mp hq' with rfl | hq'
      · exact hasked
      · exact h.asked q' hq'

/-- A session finds something, or does something in its pipeline. -/
theorem Shares.record {f : Trace → Trace} (h : Shares checks w)
    (htrace : w.traces[i]? = some trace)
    (hfound : trace.found ≠ none → (f trace).found = trace.found)
    (hacts : (f trace).acts ≠ [] → Entitled checks w.puts i (f trace)) :
    Shares checks (w.record i f) := by
  have hget := Cluster.record_self (f := f) htrace
  refine { h with asked := fun q hq expected hexpects => ?_, acts := fun j trace' htrace' => ?_ }
  · obtain ⟨trace', s, htrace', hs⟩ := h.asked q hq expected hexpects
    by_cases hj : q.writer = i
    · rw [hj] at htrace' ⊢
      obtain rfl := Option.some.inj (htrace.symm.trans htrace')
      exact ⟨f trace, s, hget, (hfound (by simp [hs])).trans hs⟩
    · exact ⟨trace', s, (Cluster.record_ne hj).trans htrace', hs⟩
  · by_cases hj : j = i
    · rw [hj, hget] at htrace'
      obtain rfl := Option.some.inj htrace'
      exact hj ▸ hacts
    · exact h.acts j trace' ((Cluster.record_ne hj).symm.trans htrace')

/-- No command of a session changes what the others count on. -/
theorem counting_of_exec {c : TcCmd} {r : c.Res} (hexec : Cluster.Exec i c w r w') {j : Nat}
    (hj : j ≠ i) : Counting j w w' := by
  have hself : Counting j w w := ⟨List.suffix_refl _, rfl⟩
  have hrecord : ∀ f, Counting j w (w.record i f) := fun f =>
    ⟨hself.puts, Cluster.record_ne hj⟩
  have hwrites : ∀ {q r}, Cluster.Writes q w r w' → Counting j w w' := by
    intro q r hexec
    refine ⟨?_, by rw [hexec.traces]⟩
    rcases hexec with ⟨_, puts, ⟨_, version, _, rfl⟩, rfl⟩ | ⟨_, rfl | rfl⟩
    · exact List.suffix_cons _ _
    · exact hself.puts
    · exact hself.puts
  cases c with
  | createClientConfig controller keycloakFile => exact (show w' = w from hexec) ▸ hself
  | createTable scope table => exact (show w' = w from hexec) ▸ hself
  | get =>
      rcases hexec with ⟨_, rfl⟩ | ⟨_, rfl⟩
      · exact hrecord _
      · exact hself
  | insertConditionally s version => exact hwrites hexec
  | insert s => exact hwrites hexec
  | push buffer => exact (show w' = _ from hexec) ▸ hrecord _
  | children => exact (show w' = w from hexec) ▸ hself
  | setStart child startMode startTimestamp => exact (show w' = _ from hexec) ▸ hrecord _

end Commands

/-! ## One session among the others -/

/-- A session, with what the others do meanwhile. -/
abbrev among (checks : Bool) (i : Nat) : Arena Cluster TcCmd TcCmd.Res :=
  alone (Meanwhile ((sharing checks).arena i)) (Shares checks)

/-- Session `i` may go on with what it found. -/
def Playing (checks : Bool) (i : Nat) (found : Table) (w : Cluster) : Prop :=
  ∃ acts, w.traces[i]? = some ⟨some found, acts⟩ ∧
    Entitled checks w.puts i ⟨some found, acts⟩

section Session

variable {checks : Bool} {i : Nat} {found : Table} {w w' : Cluster} {settings : Settings}
  {env : Option UInt64} {buffer : Buffer} {st : Started} {s : PersistentState} {version : Nat}

theorem Playing.counting (h : Playing checks i found w) (hw : Counting i w w') :
    Playing checks i found w' := by
  obtain ⟨acts, htrace, hentitled⟩ := h
  exact ⟨acts, hw.trace.trans htrace, hentitled.mono hw.puts⟩

theorem Entitled.push {puts : List (Put PersistentState)} {trace : Trace}
    (h : Entitled checks puts i trace) (buffer : Buffer) :
    Entitled checks puts i (trace.act (.push buffer)) := by
  cases h with
  | fresh hacts =>
      refine .fresh fun c hc => ?_
      rcases List.mem_append.mp hc with hc | hc
      · exact hacts c hc
      · exact ⟨buffer, List.mem_singleton.mp hc⟩
  | resumed hresumes hfound hcounted hacts =>
      refine .resumed hresumes hfound hcounted fun c hc => ?_
      rcases List.mem_append.mp hc with hc | hc
      · exact hacts c hc
      · exact Or.inl ⟨buffer, List.mem_singleton.mp hc⟩

theorem Entitled.setStart {puts : List (Put PersistentState)} {acts : List TcCmd}
    {n t : UInt64} {startMode : String} (hresumes : ResumesAt checks s n t startMode)
    (h : Entitled checks puts i ⟨some (some (s, version)), acts⟩) (child : Nat) :
    Entitled checks puts i
      (Trace.act (.setStart child startMode t) ⟨some (some (s, version)), acts⟩) := by
  cases h with
  | resumed hresumes' hfound hcounted hacts =>
      obtain ⟨rfl, rfl, rfl⟩ := hresumes.unique hresumes'
      refine .resumed hresumes hfound hcounted fun c hc => ?_
      rcases List.mem_append.mp hc with hc | hc
      · exact hacts c hc
      · exact Or.inr ⟨child, List.mem_singleton.mp hc⟩

/-- It does something in its pipeline. -/
theorem Playing.act {c : TcCmd} (h : Playing checks i found w) (hw : Shares checks w)
    (hc : ∀ acts, Entitled checks w.puts i ⟨some found, acts⟩ →
      Entitled checks w.puts i (Trace.act c ⟨some found, acts⟩)) :
    Shares checks (w.record i (Trace.act c)) ∧
      Playing checks i found (w.record i (Trace.act c)) := by
  obtain ⟨acts, htrace, hentitled⟩ := h
  have hentitled' := hc acts hentitled
  exact ⟨hw.record htrace (fun _ => rfl) fun _ => hentitled', _, Cluster.record_self htrace,
    hentitled'⟩

/-- It writes a record of progress. -/
theorem Playing.insert {r : Except String Unit} (h : Playing checks i found w)
    (hw : Shares checks w) (hs : Progress s)
    (hexec : Cluster.Writes ⟨i, none, s⟩ w r w') :
    Shares checks w' ∧ Playing checks i found w' := by
  have hbased : Based Progress (Counts checks) w.puts ⟨i, none, s⟩ :=
    ⟨fun _ => hs, fun _ hexpects => nomatch hexpects⟩
  obtain ⟨hw', hsuffix, -⟩ := hw.writes hbased (fun _ hexpects => nomatch hexpects) hexec
  exact ⟨hw', h.counting ⟨hsuffix, by rw [hexec.traces]⟩⟩

/-! ### `start` -/

theorem safeE_setStarts_plays {n t : UInt64} {startMode : String}
    (hresumes : ResumesAt checks s n t startMode) (names : List String) (child : Nat)
    (h : Playing checks i (some (s, version)) w) :
    SafeE (among checks i) (setStarts startMode t child names)
      (fun _ w => Playing checks i (some (s, version)) w) w := by
  have hevery := every_setStarts (G := fun c => ∃ child, c = .setStart child startMode t)
    (fun child => ⟨child, rfl⟩) names child
  refine Safe.mono (hevery.safe h ?_ ?_) fun _ _ h _ _ => h.2
  · intro w w' h hw _
    rw [show w' = w from hw]
    exact h
  · intro c w r w' hc h _ hexec
    obtain ⟨child, rfl⟩ := hc
    obtain ⟨w₁, hrely, hw₁, hexec⟩ := hexec
    obtain rfl : w' = _ := hexec
    obtain ⟨hw', h'⟩ := (h.counting hrely).act hw₁ fun acts hentitled =>
      hentitled.setStart hresumes child
    exact ⟨h', hw', trivial⟩

theorem safeE_resume_counts (htrace : w.traces[i]? = some ⟨some (some (s, version)), []⟩)
    (hfound : ∃ p ∈ w.puts, p.value = s ∧ p.version = version) :
    SafeE (among checks i) (resume checks s version)
      (fun _ w => Playing checks i (some (s, version)) w) w := by
  refine safeE_resume_at fun n hn r y hexec => ?_
  obtain ⟨w₁, hrely, hw₁, hexec⟩ := hexec
  obtain ⟨p, hp, hvalue, hversion⟩ := hfound
  have hp₁ := hrely.puts.subset hp
  have htrace₁ := hrely.trace.trans htrace
  have hbased : Based Progress (Counts checks) w₁.puts
      ⟨i, some version, { s with resumeCount := some n }⟩ :=
    ⟨fun hexpects => (nomatch hexpects), fun expected hexpects =>
      ⟨p, hp₁, hversion.trans (Option.some.inj hexpects), n, hvalue ▸ hn, hvalue ▸ rfl⟩⟩
  have hasked : Asked w₁.traces ⟨i, some version, { s with resumeCount := some n }⟩ :=
    fun expected hexpects => ⟨_, s, htrace₁, Option.some.inj hexpects ▸ rfl⟩
  obtain ⟨hy, hsuffix, hcounted⟩ := hw₁.writes hbased hasked hexec
  refine ⟨hy, fun hok t startMode hresumes names z hexec' => ?_⟩
  obtain ⟨w₂, hrely₂, hw₂, hz⟩ := hexec'
  obtain rfl : z = w₂ := hz
  have hplaying : Playing checks i (some (s, version)) y := by
    refine ⟨[], ?_, .resumed hresumes ⟨p, hsuffix.subset hp₁, hvalue, hversion⟩
      (hcounted hok) fun c hc => nomatch hc⟩
    rw [Cluster.Writes.traces hexec]
    exact htrace₁
  exact ⟨hw₂, safeE_setStarts_plays hresumes names 0 (hplaying.counting hrely₂)⟩

theorem safeE_startStopped_plays (htrace : w.traces[i]? = some ⟨none, []⟩) :
    SafeE (among checks i) (startStopped checks settings)
      (fun _ w => ∃ found, Playing checks i found w) w := by
  refine safeE_bind (safeE_require fun scope => ?_)
  refine safeE_bind (safeE_require fun name => ?_)
  refine safeE_bind (safeE_require fun controller => ?_)
  refine safeE_bind (alone_call fun r w₁ hexec => ?_)
  obtain ⟨w₁', hrely₁, hw₁, hexec⟩ := hexec
  obtain rfl : w₁ = w₁' := hexec
  refine ⟨hw₁, ?_⟩
  cases r with
  | error e => exact safeE_throw
  | ok u =>
      refine aloneE_pure (safeE_bind (alone_call fun _ w₂ hexec => ?_))
      obtain ⟨w₂', hrely₂, hw₂, hexec⟩ := hexec
      obtain rfl : w₂ = w₂' := hexec
      refine ⟨hw₂, aloneE_pure (safeE_bind (alone_call fun r w₃ hexec => ?_))⟩
      obtain ⟨w₃', hrely₃, hw₃, hexec⟩ := hexec
      have htrace₃ := hrely₃.trace.trans (hrely₂.trace.trans (hrely₁.trace.trans htrace))
      rcases hexec with ⟨rfl, rfl⟩ | ⟨⟨e, rfl⟩, rfl⟩
      · have hget := Cluster.record_self (f := Trace.find (current w₃'.puts)) htrace₃
        -- Nothing is done yet, so that nothing has to be shown of it.
        have hfound : Shares checks (w₃'.record i (Trace.find (current w₃'.puts))) :=
          hw₃.record htrace₃ (fun h => absurd rfl h) fun h => absurd rfl h
        refine ⟨hfound, aloneE_pure ?_⟩
        cases hcurrent : current w₃'.puts with
        | none =>
            rw [hcurrent] at hget
            exact safeE_bind (aloneE_pure (aloneE_pure
              ⟨none, [], hget, .fresh fun c hc => nomatch hc⟩))
        | some x =>
            obtain ⟨s, version⟩ := x
            rw [hcurrent] at hget
            refine safeE_bind ((safeE_resume_counts hget (mem_of_current hcurrent)).mono ?_)
            exact fun _ w h => aloneE_pure ⟨_, h⟩
      · exact ⟨hw₃, safeE_throw⟩

/-! ### Buffers and the stop -/

theorem safeS_record_plays (h : Playing checks i found w) :
    SafeS (among checks i) (PravegaTC.record checks settings buffer)
      (fun _ _ w => Playing checks i found w) (fun _ _ w => Playing checks i found w) st w := by
  rw [PravegaTC.record]
  cases resumeAtPtsOf checks buffer.pts buffer.duration with
  | none => exact aloneS_bind (aloneS_throw h)
  | some resumeAtPts =>
      refine aloneS_bind (aloneS_pure (aloneS_bind (aloneS_modify ?_)))
      refine aloneS_bind (aloneS_get ?_)
      split
      · cases resumeAtPts.nanoseconds with
        | none => exact aloneS_bind (aloneS_throw h)
        | some nanoseconds =>
            refine aloneS_bind (aloneS_pure (aloneS_bind (aloneS_command ?_)))
            intro r w' hexec
            obtain ⟨w₁, hrely, hw₁, hexec⟩ := hexec
            have hprogress : Progress ⟨nanoseconds, some 0⟩ := rfl
            obtain ⟨hw', h'⟩ := (h.counting hrely).insert hw₁ hprogress hexec
            refine ⟨hw', ?_⟩
            cases r with
            | error e => exact aloneS_throw h'
            | ok u => exact aloneS_modify h'
      · exact aloneS_pure h

theorem safeS_chainStarted_plays (h : Playing checks i found w) :
    SafeS (among checks i) (chainStarted checks settings buffer)
      (fun _ _ w => Playing checks i found w) (fun _ _ w => Playing checks i found w) st w := by
  rw [chainStarted]
  split
  · exact aloneS_throw h
  · refine aloneS_bind (aloneS_command fun r w' hexec => ?_)
    obtain ⟨w₁, hrely, hw₁, hexec⟩ := hexec
    obtain rfl : w' = _ := hexec
    obtain ⟨hw', h'⟩ := (h.counting hrely).act hw₁ fun acts hentitled => hentitled.push buffer
    refine ⟨hw', ?_⟩
    cases r with
    | error e => exact aloneS_throw h'
    | ok u =>
        dsimp only
        split
        · exact safeS_record_plays h'
        · exact aloneS_pure h'

theorem safe_chain_plays (buffers : List Buffer) : ∀ {st : Started} {w : Cluster},
    Playing checks i found w →
    Safe (among checks i) (chain checks buffers ⟨settings, .started st⟩)
      (fun x w => ∃ st, x.2 = ⟨settings, .started st⟩ ∧ Playing checks i found w) w := by
  induction buffers with
  | nil => exact fun h => alone_ret ⟨_, rfl, h⟩
  | cons buffer rest ih =>
      intro st w h
      refine safe_bind (safe_bind (Safe.mono (safeS_chainStarted_plays h) ?_))
      rintro ⟨e | u, st⟩ w₁ hends
      · exact alone_ret (alone_ret ⟨st, rfl, hends⟩)
      · exact alone_ret (ih hends)

theorem safe_stop_plays (h : Playing checks i found w) :
    Safe (among checks i) (stop ⟨settings, .started st⟩) (fun _ _ => True) w := by
  refine safe_bind ?_
  rw [stopStarted]
  split
  · next nanoseconds _ =>
    refine alone_call fun r w' hexec => ?_
    obtain ⟨w₁, hrely, hw₁, hexec⟩ := hexec
    have hprogress : Progress ⟨nanoseconds, some 0⟩ := rfl
    refine ⟨((h.counting hrely).insert hw₁ hprogress hexec).1, ?_⟩
    cases r with
    | error e => exact alone_ret (alone_ret trivial)
    | ok u => exact alone_ret (alone_ret trivial)
  · exact alone_ret (alone_ret trivial)

theorem safe_session_plays (buffers : List Buffer)
    (htrace : w.traces[i]? = some ⟨none, []⟩) :
    Safe (among checks i) (session checks env buffers ⟨settings, .stopped⟩)
      (fun _ _ => True) w := by
  refine safe_bind (safe_bind (Safe.mono (safeE_startStopped_plays htrace) ?_))
  intro r w₁ hr
  cases r with
  | error e => exact alone_ret (alone_ret trivial)
  | ok st₀ =>
      obtain ⟨found, hplaying⟩ := hr st₀ rfl
      refine alone_ret (safe_bind (Safe.mono (safe_chain_plays buffers hplaying) ?_))
      rintro ⟨r, self⟩ w₂ ⟨st, hself, hplaying⟩
      obtain rfl : self = _ := hself
      have hstop := @safe_stop_plays checks i found w₂ (settings.withFault env) st hplaying
      rcases r with (_ | _ | _ | _ | _) | ⟨⟩
      · exact hstop
      · exact hstop
      · exact hstop
      · exact alone_ret trivial
      · exact hstop
      · exact hstop

end Session

/-! ## All of them -/

section All

variable {checks : Bool} {w w' : Cluster} {x : Sessions}

theorem getElem?_concat_ne {α : Type} {xs : List α} {a : α} {j : Nat} (hj : j ≠ xs.length) :
    (xs ++ [a])[j]? = xs[j]? := by
  rcases Nat.lt_or_gt_of_ne hj with hlt | hgt
  · exact List.getElem?_append_left hlt
  · rw [List.getElem?_eq_none (Nat.le_of_lt hgt), List.getElem?_eq_none]
    rw [List.length_append, List.length_singleton]
    exact hgt

theorem shares_starts {n : Nat} {p : TcProgram (Except Failure Unit × Element)}
    (h : Shares checks w) (hstarts : Starts checks n p w w') :
    Shares checks w' ∧ (∀ j, j ≠ n → Counting j w w') ∧
      Safe ((sharing checks).arena n) p (fun _ _ => True) w' := by
  obtain ⟨env, buffers, settings, rfl, rfl, rfl⟩ := hstarts
  have hnew : (w.traces ++ [⟨none, []⟩])[w.traces.length]? = some ⟨none, []⟩ :=
    List.getElem?_concat_length
  have hshares : Shares checks { w with traces := w.traces ++ [⟨none, []⟩] } := by
    refine { h with
      asked := fun q hq expected hexpects => ?_
      acts := fun j trace htrace hacts => ?_ }
    · obtain ⟨trace, s, htrace, hfound⟩ := h.asked q hq expected hexpects
      have hlt := (List.getElem?_eq_some_iff.mp htrace).1
      exact ⟨trace, s, (List.getElem?_append_left hlt).trans htrace, hfound⟩
    · by_cases hj : j = w.traces.length
      · rw [hj, hnew] at htrace
        obtain rfl := Option.some.inj htrace
        exact absurd rfl hacts
      · exact h.acts j trace ((getElem?_concat_ne hj).symm.trans htrace) hacts
  refine ⟨hshares, fun j hj => ⟨List.suffix_refl _, getElem?_concat_ne hj⟩, ?_⟩
  exact safe_of_alone (fun c s r s' _ hexec j hj => counting_of_exec hexec hj)
    (fun _ _ _ _ _ _ => trivial) (safe_session_plays buffers hnew) hshares

theorem shares_moves (h : Shares checks w) (hmoves : Cluster.Moves w w') :
    Shares checks w' ∧ ∀ j, Counting j w w' := by
  cases hmoves with
  | @arrives pre q post puts hunderWay hdone =>
      have hq : q ∈ w.underWay := by simp [hunderWay]
      have hleft : ∀ q' ∈ pre ++ post, q' ∈ w.underWay := by
        intro q' hq'
        rw [hunderWay]
        rcases List.mem_append.mp hq' with hq' | hq'
        · exact List.mem_append_left _ hq'
        · exact List.mem_append_right _ (List.mem_cons_of_mem _ hq')
      have hless : Shares checks { w with underWay := pre ++ post } := by
        refine { h with underWay := fun q' hq' => h.underWay q' (hleft q' hq'), asked := ?_ }
        intro q' hq'
        rcases List.mem_append.mp hq' with hq' | hq'
        · exact h.asked q' (List.mem_append_left _ (hleft q' hq'))
        · exact h.asked q' (List.mem_append_right _ hq')
      obtain ⟨hw', hsuffix, -⟩ := hless.put (h.underWay q hq)
        (h.asked q (List.mem_append_left _ hq)) hdone
      exact ⟨hw', fun j => ⟨hsuffix, rfl⟩⟩

theorem shares_of_shared (h : Shared checks (Cluster.empty, []) x) : Shares checks x.1 := by
  have hgood : Good (sharing checks) (fun _ _ _ => True) ((Cluster.empty, []) : Sessions) :=
    good_nil (shares_empty checks)
  exact (hgood.reaches (fun _ _ _ _ => shares_starts) (fun _ _ => shares_moves) h).1

/-! ### What the record counts -/

/-- What was written since a record of progress, each time by another session that resumed. -/
structure Tried (puts attempts : List (Put PersistentState)) (progress : Put PersistentState) :
    Prop where
  puts : ∃ newer older, puts = newer ++ (attempts ++ progress :: older)
  sets : progress.expects = none
  resumed : ∀ p ∈ attempts, p.expects ≠ none
  writers : (attempts.map fun p => p.writer).Nodup

/-- The count is that of the attempts. -/
theorem counts_attempts {progress p : Put PersistentState} (hprogress : Progress progress.value)
    {attempts : List (Put PersistentState)}
    (hchain : (attempts ++ [progress]).IsChain fun newer older =>
      Counts checks older.value newer.value)
    (hp : (attempts ++ [progress]).head? = some p) :
    p.value = ⟨progress.value.resumeAtPts, some (UInt64.ofNat attempts.length)⟩ := by
  induction attempts generalizing p with
  | nil =>
      obtain rfl := Option.some.inj hp
      exact PersistentState.mk.injEq .. ▸ ⟨rfl, hprogress⟩
  | cons newer attempts ih =>
      obtain rfl := Option.some.inj hp
      obtain ⟨older, holder⟩ : ∃ older, (attempts ++ [progress]).head? = some older := by
        cases attempts with
        | nil => exact ⟨_, rfl⟩
        | cons older attempts => exact ⟨_, rfl⟩
      obtain ⟨rest, hrest⟩ : ∃ rest, attempts ++ [progress] = older :: rest := by
        exact List.head?_eq_some_iff.mp holder
      rw [List.cons_append, hrest] at hchain
      obtain ⟨⟨n, hn, hvalue⟩, hchain⟩ := List.isChain_cons_cons.mp hchain
      have hcount := ih (hrest ▸ hchain) holder
      rw [hcount] at hn hvalue
      rw [u64Add] at hn
      split at hn
      · cases hn
      · obtain rfl := Option.some.inj hn
        rw [hvalue, List.length_cons, UInt64.ofNat_add]
        rfl

/-- Whenever a record was written, it counts the sessions that resumed since the last one of
progress. -/
theorem Shares.counted (h : Shares checks w) {p : Put PersistentState} (hp : p ∈ w.puts) :
    ∃ attempts progress, Tried w.puts attempts progress ∧
      (attempts ++ [progress]).head? = some p ∧
      p.value = ⟨progress.value.resumeAtPts, some (UInt64.ofNat attempts.length)⟩ := by
  obtain ⟨newer, older, hputs⟩ := List.append_of_mem hp
  have hsuffix : p :: older <:+ w.puts := ⟨newer, hputs.symm⟩
  obtain ⟨attempts, progress, older', heq, hexpects, hnone, hprogress, hchain⟩ :=
    (h.puts.of_suffix hsuffix).since (List.cons_ne_nil _ _)
  have hhead : (attempts ++ [progress]).head? = some p := by
    cases attempts with
    | nil => exact congrArg some (List.cons.inj heq).1.symm
    | cons q attempts => exact congrArg some (List.cons.inj heq).1.symm
  have hsub : attempts.Sublist w.puts := by
    refine List.Sublist.trans ?_ hsuffix.sublist
    rw [heq]
    exact List.sublist_append_left _ _
  refine ⟨attempts, progress, ⟨⟨newer, older', heq ▸ hputs⟩, hnone, hexpects, ?_⟩, hhead,
    counts_attempts hprogress hchain hhead⟩
  refine List.Nodup.map_on (fun q hq q' hq' hwriter => ?_) (h.puts.nodup.sublist hsub)
  -- A session replaces the one version that it found.
  have hreplaced : ∀ {q}, q ∈ attempts → ∃ trace s version, w.traces[q.writer]? = some trace ∧
      trace.found = some (some (s, version)) ∧ q.expects = some version := by
    intro q hq
    obtain ⟨version, hversion⟩ := Option.ne_none_iff_exists'.mp (hexpects q hq)
    obtain ⟨trace, s, htrace, hfound⟩ := h.asked q.toRequest (List.mem_append_right _
      (List.mem_map_of_mem (hsub.subset hq))) version hversion
    exact ⟨trace, s, version, htrace, hfound, hversion⟩
  obtain ⟨trace, s, version, htrace, hfound, hversion⟩ := hreplaced hq
  obtain ⟨trace', s', version', htrace', hfound', hversion'⟩ := hreplaced hq'
  rw [show q.writer = q'.writer from hwriter, htrace'] at htrace
  obtain rfl := Option.some.inj htrace
  obtain ⟨-, rfl⟩ := Prod.mk.inj (Option.some.inj (Option.some.inj (hfound'.symm.trans hfound)))
  exact h.puts.exclusive (hsub.subset hq) (hsub.subset hq') hversion hversion'

/-- **Sources are sent ahead by the attempts there were.** However many sessions start at
once, and whenever their writes are done, where one sends its sources is what a record of
progress says for the number of sessions that resumed from it, the last of them this one. -/
theorem sent_as_counted (h : Shared checks (Cluster.empty, []) x) {i : Nat} {trace : Trace}
    (hi : x.1.traces[i]? = some trace) {child : Nat} {startMode : String} {t : UInt64}
    (hsent : .setStart child startMode t ∈ trace.acts) :
    ∃ attempts progress, Tried x.1.puts attempts progress ∧
      (attempts.head?.map fun p => p.writer) = some i ∧
      ∃ delta, resumeTimeDelta checks (UInt64.ofNat attempts.length) = some (delta, startMode) ∧
        PravegaTimestamp.add checks
          (PravegaTimestamp.fromNanoseconds (some progress.value.resumeAtPts)) delta =
            some ⟨some t⟩ := by
  have hshares := shares_of_shared h
  cases hshares.acts i trace hi (List.ne_nil_of_mem hsent) with
  | fresh hacts =>
      obtain ⟨buffer, hc⟩ := hacts _ hsent
      cases hc
  | @resumed s version n t' startMode' acts hresumes hfound hcounted hacts =>
      rcases hacts _ hsent with ⟨buffer, hc⟩ | ⟨child', hc⟩
      · cases hc
      obtain ⟨rfl, rfl, rfl⟩ := TcCmd.setStart.inj hc
      obtain ⟨p, hp, hrequest⟩ := hcounted
      obtain ⟨attempts, progress, htried, hhead, hvalue⟩ := hshares.counted hp
      have hexpects : p.expects = some version := congrArg Request.expects hrequest
      have hvalue' : p.value = { s with resumeCount := some n } :=
        congrArg Request.value hrequest
      obtain ⟨hpts, hn⟩ := PersistentState.mk.inj (hvalue'.symm.trans hvalue)
      obtain ⟨-, delta, hdelta, hsum⟩ := hresumes
      refine ⟨attempts, progress, htried, ?_, delta, Option.some.inj hn ▸ hdelta, hpts ▸ hsum⟩
      cases attempts with
      | nil =>
          obtain rfl := Option.some.inj hhead
          cases htried.sets.symm.trans hexpects
      | cons q attempts =>
          obtain rfl := Option.some.inj hhead
          exact congrArg some (congrArg Request.writer hrequest)

/-- **Of two sessions that find one record one goes no further.** It sets no source and pushes
no buffer, however many there are and whenever their writes are done. -/
theorem other_goes_no_further (h : Shared checks (Cluster.empty, []) x) {i j : Nat}
    (hij : i ≠ j) {trace trace' : Trace} (hi : x.1.traces[i]? = some trace)
    (hj : x.1.traces[j]? = some trace') {s s' : PersistentState} {version : Nat}
    (hfound : trace.found = some (some (s, version)))
    (hfound' : trace'.found = some (some (s', version))) :
    trace.acts = [] ∨ trace'.acts = [] := by
  by_contra hacts
  rw [not_or] at hacts
  have hshares := shares_of_shared h
  have hcounted : ∀ {i : Nat} {trace : Trace} {s : PersistentState},
      x.1.traces[i]? = some trace → trace.found = some (some (s, version)) →
      trace.acts ≠ [] → ∃ p ∈ x.1.puts, p.expects = some version ∧ p.writer = i := by
    intro i trace s hi hfound hacts
    cases hshares.acts i trace hi hacts with
    | fresh _ => cases hfound
    | resumed _ _ hcounted _ =>
        obtain ⟨p, hp, hrequest⟩ := hcounted
        cases hfound
        exact ⟨p, hp, congrArg Request.expects hrequest, congrArg Request.writer hrequest⟩
  obtain ⟨p, hp, hexpects, rfl⟩ := hcounted hi hfound hacts.1
  obtain ⟨q, hq, hexpects', rfl⟩ := hcounted hj hfound' hacts.2
  exact hij (congrArg (fun p => p.writer) (hshares.puts.exclusive hp hq hexpects hexpects'))

end All

/-! ## Three sessions -/

/-- The version of the next write. -/
def Cluster.nextVersion (w : Cluster) : Nat := (w.puts.map fun p => p.version).sum + 1

theorem fresh_nextVersion (w : Cluster) : Fresh w.puts w.nextVersion := by
  intro p hp
  have hle : p.version ≤ (w.puts.map fun p => p.version).sum :=
    List.single_le_sum (fun _ _ => Nat.zero_le _) _ (List.mem_map_of_mem hp)
  rw [Cluster.nextVersion]
  omega

def Cluster.put (w : Cluster) (q : Request PersistentState) : Cluster :=
  { w with puts := ⟨q, w.nextVersion⟩ :: w.puts }

/-- Every call succeeds, and there is one source in the pipeline. -/
def Cluster.answer (i : Nat) : (c : TcCmd) → Cluster → c.Res × Cluster
  | .createClientConfig .., w => (.ok (), w)
  | .createTable .., w => ((), w)
  | .get, w => (.ok (current w.puts), w.record i (Trace.find (current w.puts)))
  | .insertConditionally s version, w =>
      if (current w.puts).map Prod.snd = some version then (.ok (), w.put ⟨i, some version, s⟩)
      else (.error "", w)
  | .insert s, w => (.ok (), w.put ⟨i, none, s⟩)
  | .push buffer, w => (.ok (), w.record i (Trace.act (.push buffer)))
  | .children, w => (["PravegaSrc"], w)
  | .setStart child startMode startTimestamp, w =>
      ((), w.record i (Trace.act (.setStart child startMode startTimestamp)))

theorem Cluster.exec_answer (i : Nat) (c : TcCmd) (w : Cluster) :
    Cluster.Exec i c w (Cluster.answer i c w).1 (Cluster.answer i c w).2 := by
  cases c with
  | createClientConfig controller keycloakFile => exact rfl
  | createTable scope table => exact rfl
  | get => exact Or.inl ⟨rfl, rfl⟩
  | insertConditionally s version =>
      rw [Cluster.answer]
      split
      · next h =>
          obtain ⟨⟨old, expected⟩, hcurrent, rfl⟩ := Option.map_eq_some_iff.mp h
          refine Or.inl ⟨rfl, _, ⟨fun version hexpects => ⟨old, ?_⟩, _, fresh_nextVersion w, rfl⟩,
            rfl⟩
          rw [← Option.some.inj hexpects]
          exact hcurrent
      · exact Or.inr ⟨⟨_, rfl⟩, Or.inl rfl⟩
  | insert s =>
      refine Or.inl ⟨rfl, _, ⟨fun version hexpects => ?_, _, fresh_nextVersion w, rfl⟩, rfl⟩
      cases hexpects
  | push buffer => exact rfl
  | children => exact rfl
  | setStart child startMode startTimestamp => exact rfl

/-- One more session. -/
def Sessions.start (checks : Bool) (buffers : List Buffer) (settings : Settings)
    (x : Sessions) : Sessions :=
  ({ x.1 with traces := x.1.traces ++ [⟨none, []⟩] },
    x.2 ++ [session checks none buffers ⟨settings, .stopped⟩])

/-- The turn of session `i`. -/
def Sessions.turn (i n : Nat) (x : Sessions) : Sessions :=
  match x.2[i]? with
  | none => x
  | some p =>
      let result := advance (Cluster.answer i) n p x.1
      (result.2, x.2.set i result.1)

theorem shared_start {checks : Bool} {x : Sessions} (h : Shared checks (Cluster.empty, []) x)
    (buffers : List Buffer) (settings : Settings) :
    Shared checks (Cluster.empty, []) (Sessions.start checks buffers settings x) :=
  h.tail (.spawn ⟨none, buffers, settings, traces_length rfl h, rfl, rfl⟩)

theorem shared_turn {checks : Bool} {x : Sessions} (h : Shared checks (Cluster.empty, []) x)
    (i n : Nat) : Shared checks (Cluster.empty, []) (Sessions.turn i n x) := by
  rw [Sessions.turn]
  split
  · exact h
  · next p hp =>
    have hruns := runs_advance (Cluster.exec_answer i) n (s := x.1) hp
    exact h.trans (Relation.ReflTransGen.mono (fun _ _ h => Step.runs h) _ _ hruns)

/-- Behind a session that has ended two more find its record, and the second one is first. -/
def examplesRace : Sessions :=
  let start := Sessions.start true examplesBuffers examplesSettings
  let first := (start (Cluster.empty, [])).turn 0 16
  let both := (start ((start first).turn 1 3)).turn 2 16
  both.turn 1 16

theorem shared_examplesRace : Shared true (Cluster.empty, []) examplesRace := by
  have hnone : Shared true (Cluster.empty, []) (Cluster.empty, []) := .refl
  have hfirst := shared_turn (shared_start hnone examplesBuffers examplesSettings) 0 16
  have hfound := shared_turn (shared_start hfirst examplesBuffers examplesSettings) 1 3
  exact shared_turn (shared_turn (shared_start hfound examplesBuffers examplesSettings) 2 16) 1 16

theorem sent_as_counted_examples :
    ∃ attempts progress, Tried examplesRace.1.puts attempts progress ∧
      (attempts.head?.map fun p => p.writer) = some 2 ∧
      ∃ delta, resumeTimeDelta true (UInt64.ofNat attempts.length) =
          some (delta, "timestamp-exact") ∧
        PravegaTimestamp.add true
          (PravegaTimestamp.fromNanoseconds (some progress.value.resumeAtPts)) delta =
            some ⟨some 2000000001⟩ := by
  have hsent : (examplesRace.1.traces[2]?.map fun trace => trace.acts.head?) =
      some (some (.setStart 0 "timestamp-exact" 2000000001)) := by decide +kernel
  obtain ⟨trace, htrace, hhead⟩ := Option.map_eq_some_iff.mp hsent
  exact sent_as_counted shared_examplesRace htrace (List.mem_of_head? hhead)

theorem other_goes_no_further_examples :
    ∃ trace trace', examplesRace.1.traces[1]? = some trace ∧
      examplesRace.1.traces[2]? = some trace' ∧ (trace.acts = [] ∨ trace'.acts = []) := by
  have hfound : (examplesRace.1.traces[1]?.map fun trace => trace.found) =
      some (some (some (⟨2000000001, some 0⟩, 4))) := by decide +kernel
  have hfound' : (examplesRace.1.traces[2]?.map fun trace => trace.found) =
      some (some (some (⟨2000000001, some 0⟩, 4))) := by decide +kernel
  obtain ⟨trace, htrace, hfound⟩ := Option.map_eq_some_iff.mp hfound
  obtain ⟨trace', htrace', hfound'⟩ := Option.map_eq_some_iff.mp hfound'
  exact ⟨trace, trace', htrace, htrace', other_goes_no_further shared_examplesRace (by decide)
    htrace htrace' hfound hfound'⟩

end GstPravega.Plugin.PravegaTC
