import GstPravega.Video.EventSerde

/-!
# The fragments of a payload

A payload that does not fit one event is written as several. Only the first
carries the flags of the buffer; all carry its timestamp. An empty payload is
written as no event at all.
-/

namespace GstPravega.Plugin.PravegaSink

open GstPravega.Lib GstPravega.Video

/-- The events a payload is written as. -/
def fragments (timestamp : PravegaTimestamp) (includeInIndex randomAccess
    discontinuity : Bool) (payload : List UInt8) : List Event :=
  if payload = [] then []
  else
    EventWithHeader.stored
        ⟨⟨timestamp, includeInIndex, randomAccess, discontinuity⟩,
          payload.take EventWithHeader.maxPayloadSize⟩ (List.length_take_le _ _) ::
      fragments timestamp false false false
        (payload.drop EventWithHeader.maxPayloadSize)
termination_by payload.length
decreasing_by
  next h =>
    have := List.length_pos_iff.mpr h
    rw [List.length_drop, EventWithHeader.maxPayloadSize,
      EventWithHeader.maxAtomicWriteSize]
    omega

variable {timestamp : PravegaTimestamp} {i r d : Bool} {payload : List UInt8}

@[simp] theorem fragments_nil : fragments timestamp i r d [] = [] := by
  rw [fragments, if_pos rfl]

theorem fragments_of_ne (h : payload ≠ []) :
    fragments timestamp i r d payload =
      EventWithHeader.stored ⟨⟨timestamp, i, r, d⟩,
          payload.take EventWithHeader.maxPayloadSize⟩ (List.length_take_le _ _) ::
        fragments timestamp false false false
          (payload.drop EventWithHeader.maxPayloadSize) := by
  rw [fragments, if_neg h]

/-- The timestamp an event is read back with. -/
def storedTime (timestamp : PravegaTimestamp) : PravegaTimestamp :=
  if timestamp = ⟨some 0⟩ then ⟨none⟩ else timestamp

/-- Every fragment carries the timestamp. -/
theorem timestamp_of_mem_fragments {e : Event}
    (he : e ∈ fragments timestamp i r d payload) :
    e.header.timestamp = storedTime timestamp := by
  induction i, r, d, payload using fragments.induct with
  | case1 i r d =>
      rw [fragments_nil] at he
      cases he
  | case2 i r d payload hne ih =>
      rw [fragments_of_ne hne] at he
      rcases List.mem_cons.mp he with rfl | he
      · rfl
      · exact ih he

/-- Without flags, no fragment has any. -/
theorem flags_of_mem_fragments (payload : List UInt8) {e : Event}
    (he : e ∈ fragments timestamp false false false payload) :
    e.header.includeInIndex = false ∧ e.header.randomAccess = false ∧
      e.header.discontinuity = false := by
  by_cases hne : payload = []
  · subst hne
    rw [fragments_nil] at he
    cases he
  · rw [fragments_of_ne hne] at he
    rcases List.mem_cons.mp he with rfl | he
    · exact ⟨rfl, rfl, rfl⟩
    · exact flags_of_mem_fragments _ he
termination_by payload.length
decreasing_by
  have := List.length_pos_iff.mpr hne
  rw [List.length_drop, EventWithHeader.maxPayloadSize,
    EventWithHeader.maxAtomicWriteSize]
  omega

/-- Only the first fragment may be a discontinuity. -/
theorem eq_of_discontinuity_fragments {base o : Nat} {e : Event}
    (he : (o, e) ∈ layout Event.frame base (fragments timestamp i r d payload))
    (hd : e.header.discontinuity = true) : o = base ∧ d = true := by
  by_cases hne : payload = []
  · rw [hne, fragments_nil] at he
    cases he
  · rw [fragments_of_ne hne, layout] at he
    rcases List.mem_cons.mp he with heq | he
    · cases heq
      exact ⟨rfl, hd⟩
    · have hmem := List.mem_map_of_mem (f := Prod.snd) he
      rw [layout_map_snd] at hmem
      rw [(flags_of_mem_fragments _ hmem).2.2] at hd
      cases hd

theorem discontinuity_of_mem_fragments (h : payload = [] ∨ d = false) {e : Event}
    (he : e ∈ fragments timestamp i r d payload) : e.header.discontinuity = false := by
  rw [← layout_map_snd Event.frame 0 (fragments timestamp i r d payload)] at he
  obtain ⟨⟨o, e⟩, hmem, rfl⟩ := List.mem_map.mp he
  rcases h with rfl | rfl
  · rw [fragments_nil] at hmem
    cases hmem
  · by_contra hd
    cases (eq_of_discontinuity_fragments hmem (Bool.not_eq_false _ ▸ hd)).2

/-- The fragments spell the payload. -/
theorem payload_fragments :
    (fragments timestamp i r d payload).flatMap (fun e => e.payload) = payload := by
  induction i, r, d, payload using fragments.induct with
  | case1 i r d => rw [fragments_nil, List.flatMap_nil]
  | case2 i r d payload hne ih =>
      rw [fragments_of_ne hne, List.flatMap_cons, ih]
      exact List.take_append_drop _ _

theorem length_fragments :
    (fragments timestamp i r d payload).length =
      (payload.length + EventWithHeader.maxPayloadSize - 1) /
        EventWithHeader.maxPayloadSize := by
  have hmax : 0 < EventWithHeader.maxPayloadSize := by decide
  induction i, r, d, payload using fragments.induct with
  | case1 i r d =>
      rw [fragments_nil, List.length_nil, List.length_nil, Nat.zero_add,
        Nat.div_eq_of_lt (by omega)]
  | case2 i r d payload hne ih =>
      have hlen := List.length_pos_iff.mpr hne
      rw [fragments_of_ne hne, List.length_cons, ih, List.length_drop]
      generalize EventWithHeader.maxPayloadSize = m at hmax ⊢
      rcases Nat.lt_or_ge payload.length m with hlt | hge
      · rw [Nat.sub_eq_zero_of_le (Nat.le_of_lt hlt), Nat.div_eq_of_lt (by omega),
          show payload.length + m - 1 = payload.length - 1 + m by omega,
          Nat.add_div_right _ hmax, Nat.div_eq_of_lt (by omega)]
      · rw [show payload.length - m + m - 1 = payload.length - 1 by omega,
          show payload.length + m - 1 = payload.length - 1 + m by omega,
          Nat.add_div_right _ hmax]

end GstPravega.Plugin.PravegaSink
