import GstPravega.Video.Index

/-!
# Discontinuities and the index

The index promises that between two of its records nothing in the data is
marked as a discontinuity, unless one of the records behind the first is. That
is `Covered`, about pairs of records. Appending a record that is not marked
keeps it only if no marked event lies behind the records it can pair with; this
is `Open`. Marked events that are not indexed close an open index until a
marked record comes.
-/

namespace GstPravega.Video

open GstPravega.Lib

/-- No record behind the `j`-th up to the `k`-th is marked. -/
def Continuous (rs : List Record) (j k : Nat) : Prop :=
  ∀ i r, j < i → i ≤ k → rs[i]? = some r → r.discontinuity = false

/-- No marked event strictly between the offsets of two records with no mark
behind the first of them. -/
def Covered (rs : List Record) (evs : List Event) : Prop :=
  ∀ j k a c, j < k → rs[j]? = some a → rs[k]? = some c → Continuous rs j k →
    ∀ o e, (o, e) ∈ layout Event.frame 0 evs → a.offset < o → o < c.offset →
      e.header.discontinuity = false

/-- No marked event behind a record with no marked record behind it. -/
def Open (rs : List Record) (evs : List Event) : Prop :=
  ∀ j a, rs[j]? = some a → Continuous rs j (rs.length - 1) →
    ∀ o e, (o, e) ∈ layout Event.frame 0 evs → e.header.discontinuity = true →
      o ≤ a.offset

theorem Covered.nil (evs : List Event) : Covered [] evs :=
  fun _ _ _ _ _ ha => nomatch ha

theorem Open.nil (evs : List Event) : Open [] evs := fun _ _ ha => nomatch ha

theorem Continuous.of_append {rs more : List Record} {j k : Nat} (hk : k < rs.length)
    (h : Continuous (rs ++ more) j k) : Continuous rs j k := by
  intro i r hj hi hr
  refine h i r hj hi ?_
  rw [List.getElem?_append_left (by omega), hr]

/-- Fewer records and fewer events promise less. -/
theorem Covered.of_append {rs rs' : List Record} {evs evs' : List Event}
    (h : Covered (rs ++ rs') (evs ++ evs')) : Covered rs evs := by
  intro j k a c hjk ha hc hcont o e he hao hoc
  obtain ⟨hklt, _⟩ := List.getElem?_eq_some_iff.mp hc
  refine h j k a c hjk ?_ ?_ ?_ o e ?_ hao hoc
  · rw [List.getElem?_append_left (by omega), ha]
  · rw [List.getElem?_append_left hklt, hc]
  · intro i r hj hi hr
    refine hcont i r hj hi ?_
    rw [List.getElem?_append_left (by omega)] at hr
    exact hr
  · rw [layout_append]
    exact List.mem_append_left _ he

/-- New events come behind every record. -/
theorem Covered.append_events {rs : List Record} {evs more : List Event}
    (h : Covered rs evs)
    (hle : ∀ r ∈ rs, r.offset ≤ (evs.flatMap Event.frame).length) :
    Covered rs (evs ++ more) := by
  intro j k a c hjk ha hc hcont o e he hao hoc
  have hc' := hle c (List.mem_of_getElem? hc)
  rcases mem_layout_append Event.frame_delimiting he with ⟨_, he⟩ | ⟨hge, _⟩
  · exact h j k a c hjk ha hc hcont o e he hao hoc
  · omega

/-- The last of the records with one more. -/
theorem getElem?_append_singleton {rs : List Record} {c : Record} {i : Nat} {r : Record}
    (h : (rs ++ [c])[i]? = some r) :
    (i < rs.length ∧ rs[i]? = some r) ∨ (i = rs.length ∧ r = c) := by
  rcases Nat.lt_or_ge i rs.length with hlt | hge
  · rw [List.getElem?_append_left hlt] at h
    exact Or.inl ⟨hlt, h⟩
  · rw [List.getElem?_append_right hge] at h
    obtain ⟨hlt, heq⟩ := List.getElem?_eq_some_iff.mp h
    rw [List.length_singleton] at hlt
    have hi : i = rs.length := by omega
    subst hi
    refine Or.inr ⟨rfl, ?_⟩
    rw [← heq]
    simp

/-- A record may follow that is marked, or that finds the index open. -/
theorem Covered.append_record {rs : List Record} {evs : List Event} {c : Record}
    (h : Covered rs evs) (hc : c.discontinuity = true ∨ Open rs evs) :
    Covered (rs ++ [c]) evs := by
  intro j k a c' hjk ha hc' hcont o e he hao hoc
  rcases getElem?_append_singleton hc' with ⟨hklt, hc'⟩ | ⟨rfl, rfl⟩
  · rcases getElem?_append_singleton ha with ⟨_, ha⟩ | ⟨rfl, _⟩
    · exact h j k a c' hjk ha hc' (hcont.of_append hklt) o e he hao hoc
    · omega
  · rcases getElem?_append_singleton ha with ⟨hjlt, ha⟩ | ⟨rfl, _⟩
    · have hunmarked := hcont rs.length c' hjlt (Nat.le_refl _) (by simp)
      rcases hc with hmark | hopen
      · rw [hmark] at hunmarked
        cases hunmarked
      · by_contra hd
        have hcont' : Continuous rs j (rs.length - 1) := by
          intro i r hj hi hr
          obtain ⟨hilt, _⟩ := List.getElem?_eq_some_iff.mp hr
          refine hcont i r hj (by omega) ?_
          rw [List.getElem?_append_left hilt, hr]
        have := hopen j a ha hcont' o e he (by simpa using hd)
        omega
    · omega

/-- Behind a record that no marked event lies behind, the index is open. -/
theorem Open.append_record {rs : List Record} {evs : List Event} {c : Record}
    (hc : c.discontinuity = true ∨ Open rs evs)
    (hlast : ∀ o e, (o, e) ∈ layout Event.frame 0 evs → e.header.discontinuity = true →
      o ≤ c.offset) : Open (rs ++ [c]) evs := by
  intro j a ha hcont o e he hd
  rw [List.length_append, List.length_singleton, Nat.add_sub_cancel] at hcont
  rcases getElem?_append_singleton ha with ⟨hjlt, ha⟩ | ⟨_, rfl⟩
  · rcases hc with hmark | hopen
    · have hunmarked := hcont rs.length c hjlt (Nat.le_refl _) (by simp)
      rw [hmark] at hunmarked
      cases hunmarked
    · refine hopen j a ha ?_ o e he hd
      intro i r hj hi hr
      obtain ⟨hilt, _⟩ := List.getElem?_eq_some_iff.mp hr
      refine hcont i r hj (by omega) ?_
      rw [List.getElem?_append_left hilt, hr]
  · exact hlast o e he hd

/-- Behind a marked record an event may follow that is marked, where the record points. -/
theorem Open.append_announced {rs : List Record} {evs more : List Event} {c : Record}
    (h : Open (rs ++ [c]) evs) (hc : c.discontinuity = true)
    (hmore : ∀ o e, (o, e) ∈ layout Event.frame (evs.flatMap Event.frame).length more →
      e.header.discontinuity = true → o ≤ c.offset) : Open (rs ++ [c]) (evs ++ more) := by
  intro j a ha hcont o e he hd
  rcases mem_layout_append Event.frame_delimiting he with ⟨_, he⟩ | ⟨_, he⟩
  · exact h j a ha hcont o e he hd
  · rcases getElem?_append_singleton ha with ⟨hjlt, _⟩ | ⟨_, rfl⟩
    · have hunmarked := hcont rs.length c hjlt (by simp) (by simp)
      rw [hc] at hunmarked
      cases hunmarked
    · rw [Nat.zero_add] at he
      exact hmore o e he hd

/-- Events that are not marked leave the index open. -/
theorem Open.append_events {rs : List Record} {evs more : List Event} (h : Open rs evs)
    (hmore : ∀ e ∈ more, e.header.discontinuity = false) : Open rs (evs ++ more) := by
  intro j a ha hcont o e he hd
  rcases mem_layout_append Event.frame_delimiting he with ⟨_, he⟩ | ⟨_, he⟩
  · exact h j a ha hcont o e he hd
  · have hmem : e ∈ more := by
      rw [← layout_map_snd Event.frame (0 + (evs.flatMap Event.frame).length) more]
      exact List.mem_map_of_mem he
    rw [hmore e hmem] at hd
    cases hd

end GstPravega.Video
