import GstPravega.Lib.Log
import GstPravega.Plugin.Sink
import GstPravega.Proofs.Discontinuity

/-!
# The streams a sink writes to

The client keeps two logs of appends, with a durable prefix each. `Good` is what
the calls of the sink maintain of them at every moment, also between two
commands of one call: the data is made of whole frames, and each record in the
index points at a boundary of the durable data. It comes from the order of
things in `render` and `stop`, the data flushed first, then the record. What
takes more than that order is included where it is needed: that the offsets do
not decrease, and that marked records cover the marked events, see
`Discontinuity`.
-/

namespace GstPravega.Plugin.PravegaSink

open GstPravega.Lib GstPravega.Client GstPravega.Gst GstPravega.Video

/-! ## The client's side -/

/-- The appends to the two streams. `failed` says that a command has failed
since the call in progress began. -/
structure World where
  data : Log (List UInt8)
  index : Log (List UInt8)
  failed : Bool

/-- What else is to hold of the records. -/
structure Needs where
  sorted : Prop
  covered : Prop

/-- Nothing else. -/
def Needs.plain : Needs := ⟨False, False⟩

/-- The records are to be in order. -/
def Needs.ordered : Needs := ⟨True, False⟩

/-- The marked records are to cover the marked events. -/
def Needs.marked : Needs := ⟨False, True⟩

namespace World

def get (w : World) : Stream → Log (List UInt8)
  | .data => w.data
  | .index => w.index

def set (w : World) (l : Log (List UInt8)) : Stream → World
  | .data => { w with data := l }
  | .index => { w with index := l }

def fail (w : World) : World := { w with failed := true }

/-- What a command does. An append is taken whole or not at all, and what is
flushed is durable. A stream cannot reach `2 ^ 63` bytes. -/
def Exec : (c : SinkCmd) → World → c.Res → World → Prop
  | .seekToTail s, w, n, w' => w' = w ∧ n = (w.get s).stored.flatten.length
  | .append s bytes, w, r, w' =>
      (r = .ok () ∧ (w.get s).entries.flatten.length + bytes.length < 2 ^ 63 ∧
        w' = w.set ((w.get s).append bytes) s) ∨ ((∃ e, r = .error e) ∧ w' = w.fail)
  | .flush s, w, r, w' =>
      (r = .ok () ∧ w' = w.set (w.get s).flush s) ∨ ((∃ e, r = .error e) ∧ w' = w.fail)
  | .seal _, w, r, w' => (r = .ok () ∧ w' = w) ∨ ((∃ e, r = .error e) ∧ w' = w.fail)
  | .createClientConfig .., w, _, w' => w' = w
  | .createScope _, w, _, w' => w' = w
  | .createStream .., w, _, w' => w' = w
  | .spawnRetention .., w, _, w' => w' = w
  | .joinRetention, w, _, w' => w' = w

/-- Any command but an append to it leaves the data as it is; more of it may be durable. -/
theorem entries_of_exec {w w' : World} {c : SinkCmd} {r : c.Res}
    (hc : ∀ bytes, c ≠ .append .data bytes) (hexec : Exec c w r w') :
    w'.data.entries = w.data.entries ∧ w.data.durable ≤ w'.data.durable := by
  have hsame : w' = w →
      w'.data.entries = w.data.entries ∧ w.data.durable ≤ w'.data.durable := by
    rintro rfl
    exact ⟨rfl, Nat.le_refl _⟩
  cases c with
  | append s bytes =>
      cases s with
      | data => exact absurd rfl (hc bytes)
      | index =>
          rcases hexec with ⟨-, -, rfl⟩ | ⟨-, rfl⟩
          · exact ⟨rfl, Nat.le_refl _⟩
          · exact ⟨rfl, Nat.le_refl _⟩
  | flush s =>
      rcases hexec with ⟨-, rfl⟩ | ⟨-, rfl⟩
      · cases s with
        | data => exact ⟨rfl, w.data.durable_le⟩
        | index => exact ⟨rfl, Nat.le_refl _⟩
      · exact ⟨rfl, Nat.le_refl _⟩
  | «seal» s =>
      rcases hexec with ⟨-, rfl⟩ | ⟨-, rfl⟩
      · exact ⟨rfl, Nat.le_refl _⟩
      · exact ⟨rfl, Nat.le_refl _⟩
  | seekToTail s => exact hsame hexec.1
  | createClientConfig controller file => exact hsame hexec
  | createScope scope => exact hsame hexec
  | createStream scope stream => exact hsame hexec
  | spawnRetention limits interval => exact hsame hexec
  | joinRetention => exact hsame hexec

/-- Meanwhile more may become durable. -/
structure Persists (w w' : World) : Prop where
  data : w.data.Persists w'.data
  index : w.index.Persists w'.index
  failed : w'.failed = w.failed

theorem Persists.refl (w : World) : Persists w w :=
  ⟨Log.Persists.refl _, Log.Persists.refl _, rfl⟩

theorem Persists.trans (w w' w'' : World) (h : Persists w w') (h' : Persists w' w'') :
    Persists w w'' :=
  ⟨h.data.trans h'.data, h.index.trans h'.index, h'.failed.trans h.failed⟩

/-- The streams hold these events and records, and every record can be read
from: its offset is a boundary between frames, and durable. -/
structure Good (needs : Needs) (w : World) (evs : List Event) (rs : List Record) :
    Prop where
  data : w.data.entries.flatten = evs.flatMap Event.frame
  bounded : w.data.entries.flatten.length < 2 ^ 63
  chunks : ∀ c ∈ w.data.entries, Framed Event.frame c
  index : w.index.entries = rs.map Record.frame
  sorted : needs.sorted → rs.Pairwise fun a b => a.offset ≤ b.offset
  durable : ∀ r ∈ rs, r.offset ≤ w.data.stored.flatten.length
  boundary : ∀ r ∈ rs, Framed Event.frame (w.data.entries.flatten.take r.offset)
  covered : needs.covered → Covered rs evs

def Inv (needs : Needs) (w : World) : Prop := ∃ evs rs, Good needs w evs rs

theorem stored_flatten_le (l : Log (List UInt8)) :
    l.stored.flatten.length ≤ l.entries.flatten.length := by
  obtain ⟨ys, hys⟩ := l.stored_prefix
  rw [← hys, List.flatten_append, List.length_append]
  omega

theorem persists_stored_le {l l' : Log (List UInt8)} (h : l.Persists l') :
    l.stored.flatten.length ≤ l'.stored.flatten.length := by
  obtain ⟨ys, hys⟩ := h.stored_prefix
  rw [← hys, List.flatten_append, List.length_append]
  omega

theorem Good.persists {needs : Needs} {w w' : World} {evs : List Event}
    {rs : List Record} (h : Good needs w evs rs) (hw : Persists w w') :
    Good needs w' evs rs where
  data := by rw [hw.data.1, h.data]
  bounded := by rw [hw.data.1]; exact h.bounded
  chunks := by rw [hw.data.1]; exact h.chunks
  index := by rw [hw.index.1, h.index]
  sorted := h.sorted
  durable := fun r hr => Nat.le_trans (h.durable r hr) (persists_stored_le hw.data)
  boundary := by rw [hw.data.1]; exact h.boundary
  covered := h.covered

theorem Good.offset_le {needs : Needs} {w : World} {evs : List Event}
    {rs : List Record} (h : Good needs w evs rs) :
    ∀ r ∈ rs, r.offset ≤ (evs.flatMap Event.frame).length := by
  intro r hr
  rw [← h.data]
  exact Nat.le_trans (h.durable r hr) (stored_flatten_le _)

theorem Good.fail {needs : Needs} {w : World} {evs : List Event} {rs : List Record}
    (h : Good needs w evs rs) : Good needs w.fail evs rs :=
  ⟨h.data, h.bounded, h.chunks, h.index, h.sorted, h.durable, h.boundary, h.covered⟩

/-- More frames appended to the data. -/
theorem Good.append_data {needs : Needs} {w : World} {evs more : List Event}
    {rs : List Record} (h : Good needs w evs rs)
    (hlt : w.data.entries.flatten.length + (more.flatMap Event.frame).length < 2 ^ 63) :
    Good needs { w with data := w.data.append (more.flatMap Event.frame) }
      (evs ++ more) rs where
  data := by
    rw [Log.append_entries, List.flatten_append, h.data, List.flatMap_append]
    simp
  bounded := by
    rw [Log.append_entries, List.flatten_append, List.length_append]
    simpa using hlt
  chunks := by
    intro c hc
    rw [Log.append_entries] at hc
    rcases List.mem_append.mp hc with hc | hc
    · exact h.chunks c hc
    · rw [List.mem_singleton.mp hc]
      exact framed_flatMap more
  index := h.index
  sorted := h.sorted
  durable := by
    intro r hr
    rw [Log.append_stored]
    exact h.durable r hr
  boundary := by
    intro r hr
    have hle := Nat.le_trans (h.durable r hr) (stored_flatten_le _)
    rw [Log.append_entries, List.flatten_append, List.take_append_of_le_length hle]
    exact h.boundary r hr
  covered := fun hm => (h.covered hm).append_events h.offset_le

theorem Good.flush_data {needs : Needs} {w : World} {evs : List Event}
    {rs : List Record} (h : Good needs w evs rs) :
    Good needs { w with data := w.data.flush } evs rs where
  data := h.data
  bounded := h.bounded
  chunks := h.chunks
  index := h.index
  sorted := h.sorted
  durable := by
    intro r hr
    rw [Log.flush_stored]
    exact Nat.le_trans (h.durable r hr) (stored_flatten_le _)
  boundary := h.boundary
  covered := h.covered

theorem Good.flush_index {needs : Needs} {w : World} {evs : List Event}
    {rs : List Record} (h : Good needs w evs rs) :
    Good needs { w with index := w.index.flush } evs rs :=
  ⟨h.data, h.bounded, h.chunks, h.index, h.sorted, h.durable, h.boundary, h.covered⟩

/-- One more record, behind all others, at a durable boundary. -/
theorem Good.append_index {needs : Needs} {w : World} {evs : List Event}
    {rs : List Record} (h : Good needs w evs rs) {r : Record}
    (hsorted : needs.sorted → ∀ a ∈ rs, a.offset ≤ r.offset)
    (hdurable : r.offset ≤ w.data.stored.flatten.length)
    (hboundary : Framed Event.frame (w.data.entries.flatten.take r.offset))
    (hcovered : needs.covered → r.discontinuity = true ∨ Open rs evs) :
    Good needs { w with index := w.index.append r.frame } evs (rs ++ [r]) where
  data := h.data
  bounded := h.bounded
  chunks := h.chunks
  index := by rw [Log.append_entries, h.index, List.map_append]; rfl
  sorted := by
    intro hn
    rw [List.pairwise_append]
    refine ⟨h.sorted hn, List.pairwise_singleton _ _, fun a ha b hb => ?_⟩
    rw [List.mem_singleton.mp hb]
    exact hsorted hn a ha
  durable := by
    intro a ha
    rcases List.mem_append.mp ha with ha | ha
    · exact h.durable a ha
    · rw [List.mem_singleton.mp ha]
      exact hdurable
  boundary := by
    intro a ha
    rcases List.mem_append.mp ha with ha | ha
    · exact h.boundary a ha
    · rw [List.mem_singleton.mp ha]
      exact hboundary
  covered := fun hm => (h.covered hm).append_record (hcovered hm)

/-- The world the sink runs in. -/
def arena (needs : Needs) : Arena World SinkCmd SinkCmd.Res where
  exec := Exec
  rely := Persists
  inv := Inv needs
  guar _ _ _ _ := True
  rely_refl := Persists.refl
  rely_trans := Persists.trans

end World

end GstPravega.Plugin.PravegaSink
