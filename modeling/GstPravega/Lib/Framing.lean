import Mathlib.Data.List.Defs
import Mathlib.Tactic.Linarith

/-!
# Streams of self-delimiting frames

A stream is the concatenation of the frames of its items. The one property of
the frame format that matters is that a frame tells its own end: two streams
that agree from some point on agree on the frame that starts there. From this
the cut points of a stream are well behaved. Removing whole frames from the
front of a framed string leaves a framed string (`Framed.cancel`), so the
boundaries of a string stay boundaries when it grows, and the items of a
stream are determined by its bytes (`flatMap_injective`, `flatMap_prefix`).

`layout` is a stream seen as its items with their offsets. `EachPiece` is about a stream
that comes in pieces of any size: what it says of a piece it says with the item that is
in progress when the piece comes. Where no piece reaches past the end of that item, the
pieces are those of `InPieces`, on which proofs are by induction.
-/

namespace GstPravega.Lib

variable {α β : Type}

/-- Frames are not empty, and each one tells its own end. -/
structure SelfDelimiting (f : α → List β) : Prop where
  nonempty : ∀ a, f a ≠ []
  delimited : ∀ {a b x y}, f a ++ x = f b ++ y → f a = f b

/-- A concatenation of whole frames. -/
def Framed (f : α → List β) (bs : List β) : Prop := ∃ as : List α, bs = as.flatMap f

theorem framed_nil {f : α → List β} : Framed f [] := ⟨[], rfl⟩

theorem framed_flatMap {f : α → List β} (as : List α) : Framed f (as.flatMap f) :=
  ⟨as, rfl⟩

theorem Framed.append {f : α → List β} {xs ys : List β} (hx : Framed f xs)
    (hy : Framed f ys) : Framed f (xs ++ ys) := by
  obtain ⟨as, rfl⟩ := hx
  obtain ⟨bs, rfl⟩ := hy
  exact ⟨as ++ bs, by rw [List.flatMap_append]⟩

theorem Framed.flatten {f : α → List β} {xss : List (List β)}
    (h : ∀ xs ∈ xss, Framed f xs) : Framed f xss.flatten := by
  induction xss with
  | nil => exact framed_nil
  | cons xs xss ih =>
      rw [List.flatten_cons]
      exact (h xs List.mem_cons_self).append
        (ih fun ys hy => h ys (List.mem_cons_of_mem _ hy))

/-- Whole frames taken off the front leave whole frames. The induction is on
the frames taken off. -/
theorem Framed.cancel {f : α → List β} (hf : SelfDelimiting f) {xs ys : List β}
    (hx : Framed f xs) (h : Framed f (xs ++ ys)) : Framed f ys := by
  obtain ⟨as, rfl⟩ := hx
  induction as with
  | nil => exact h
  | cons a as ih =>
      apply ih
      obtain ⟨bs, hbs⟩ := h
      rw [List.flatMap_cons, List.append_assoc] at hbs
      cases bs with
      | nil =>
          have := List.append_eq_nil_iff.mp hbs
          exact absurd this.1 (hf.nonempty a)
      | cons b bs =>
          rw [List.flatMap_cons] at hbs
          have hab := hf.delimited hbs
          rw [hab] at hbs
          exact ⟨bs, List.append_cancel_left hbs⟩

/-- The bytes determine the items, when the frames do. -/
theorem flatMap_prefix {f : α → List β} (hf : SelfDelimiting f)
    (hinj : Function.Injective f) {as bs : List α} {ys : List β}
    (h : as.flatMap f ++ ys = bs.flatMap f) : ∃ cs, bs = as ++ cs := by
  induction as generalizing bs with
  | nil => exact ⟨bs, rfl⟩
  | cons a as ih =>
      rw [List.flatMap_cons, List.append_assoc] at h
      cases bs with
      | nil => exact absurd (List.append_eq_nil_iff.mp h).1 (hf.nonempty a)
      | cons b bs =>
          rw [List.flatMap_cons] at h
          have hab := hf.delimited h
          rw [hab] at h
          obtain ⟨cs, rfl⟩ := ih (List.append_cancel_left h)
          exact ⟨cs, by rw [hinj hab, List.cons_append]⟩

theorem flatMap_injective {f : α → List β} (hf : SelfDelimiting f)
    (hinj : Function.Injective f) {as bs : List α}
    (h : as.flatMap f = bs.flatMap f) : as = bs := by
  have hpre : as.flatMap f ++ [] = bs.flatMap f := by rw [List.append_nil, h]
  obtain ⟨cs, rfl⟩ := flatMap_prefix hf hinj hpre
  rw [List.flatMap_append] at hpre
  have hnil := List.append_cancel_left hpre
  cases cs with
  | nil => rw [List.append_nil]
  | cons c cs =>
      rw [List.flatMap_cons] at hnil
      exact absurd (List.append_eq_nil_iff.mp hnil.symm).1 (hf.nonempty c)

/-! ## Frames of one length -/

theorem length_flatMap_of_length {f : α → List β} {k : Nat}
    (hk : ∀ a, (f a).length = k) (as : List α) :
    (as.flatMap f).length = k * as.length := by
  induction as with
  | nil => rfl
  | cons a as ih =>
      rw [List.flatMap_cons, List.length_append, hk, ih, List.length_cons,
        Nat.mul_succ, Nat.add_comm]

theorem drop_flatMap_of_length {f : α → List β} {k : Nat}
    (hk : ∀ a, (f a).length = k) (as : List α) (i : Nat) :
    (as.flatMap f).drop (k * i) = (as.drop i).flatMap f := by
  induction as generalizing i with
  | nil => simp
  | cons a as ih =>
      cases i with
      | zero => simp
      | succ i =>
          rw [List.flatMap_cons, Nat.mul_succ, Nat.add_comm, ← List.drop_drop,
            List.drop_left' (hk a), ih, List.drop_succ_cons]

theorem take_flatMap_of_length {f : α → List β} {k : Nat}
    (hk : ∀ a, (f a).length = k) (as : List α) (i : Nat) :
    (as.flatMap f).take (k * i) = (as.take i).flatMap f := by
  have hsplit : as.flatMap f = (as.take i).flatMap f ++ (as.drop i).flatMap f := by
    rw [← List.flatMap_append, List.take_append_drop]
  rcases Nat.lt_or_ge as.length i with hlt | hge
  · rw [List.take_of_length_le (Nat.le_of_lt hlt), List.take_of_length_le]
    rw [length_flatMap_of_length hk]
    exact Nat.mul_le_mul_left k (Nat.le_of_lt hlt)
  · rw [hsplit, List.take_left']
    rw [length_flatMap_of_length hk, List.length_take, Nat.min_eq_left hge]

/-- The frame of the `i`-th item, cut out at its place. -/
theorem slice_flatMap_of_length {f : α → List β} {k : Nat}
    (hk : ∀ a, (f a).length = k) {as : List α} {i : Nat} {a : α}
    (h : as[i]? = some a) : ((as.flatMap f).drop (k * i)).take k = f a := by
  obtain ⟨hi, rfl⟩ := List.getElem?_eq_some_iff.mp h
  rw [drop_flatMap_of_length hk, List.drop_eq_getElem_cons hi, List.flatMap_cons,
    List.take_left' (hk _)]

/-! ## Offsets -/

/-- The items with the offsets of their frames, the first at `base`. -/
def layout (f : α → List β) : Nat → List α → List (Nat × α)
  | _, [] => []
  | base, a :: as => (base, a) :: layout f (base + (f a).length) as

theorem layout_append (f : α → List β) (base : Nat) (as bs : List α) :
    layout f base (as ++ bs) =
      layout f base as ++ layout f (base + (as.flatMap f).length) bs := by
  induction as generalizing base with
  | nil => rfl
  | cons a as ih =>
      rw [List.cons_append, layout, layout, ih, List.cons_append, List.flatMap_cons,
        List.length_append, Nat.add_assoc]

@[simp] theorem layout_map_snd (f : α → List β) (base : Nat) (as : List α) :
    (layout f base as).map Prod.snd = as := by
  induction as generalizing base with
  | nil => rfl
  | cons a as ih => rw [layout, List.map_cons, ih]

theorem le_of_mem_layout {f : α → List β} {base o : Nat} {a : α} {as : List α}
    (h : (o, a) ∈ layout f base as) :
    base ≤ o ∧ o + (f a).length ≤ base + (as.flatMap f).length := by
  induction as generalizing base with
  | nil => cases h
  | cons b as ih =>
      rw [List.flatMap_cons, List.length_append]
      rw [layout] at h
      rcases List.mem_cons.mp h with h | h
      · injection h with h1 h2
        subst h1 h2
        omega
      · have := ih h
        omega

/-- No two items share an offset. -/
theorem layout_pairwise {f : α → List β} (hf : SelfDelimiting f) (base : Nat)
    (as : List α) : (layout f base as).Pairwise fun x y => x.1 < y.1 := by
  induction as generalizing base with
  | nil => exact List.Pairwise.nil
  | cons a as ih =>
      refine List.Pairwise.cons (fun x hx => ?_) (ih _)
      have hle := (le_of_mem_layout hx).1
      have hpos := List.length_pos_iff.mpr (hf.nonempty a)
      show base < x.1
      omega

/-- Each item starts where the one before it ends. -/
theorem layout_isChain (f : α → List β) (base : Nat) (as : List α) :
    (layout f base as).IsChain fun x y => x.1 + (f x.2).length = y.1 := by
  induction as generalizing base with
  | nil => exact List.IsChain.nil
  | cons a as ih =>
      cases as with
      | nil => exact List.IsChain.singleton _
      | cons b as => exact List.IsChain.cons_cons rfl (ih _)

/-- An item of a concatenation starts in the part it comes from. -/
theorem mem_layout_append {f : α → List β} (hf : SelfDelimiting f) {base o : Nat}
    {a : α} {as bs : List α} (h : (o, a) ∈ layout f base (as ++ bs)) :
    (o < base + (as.flatMap f).length ∧ (o, a) ∈ layout f base as) ∨
      (base + (as.flatMap f).length ≤ o ∧
        (o, a) ∈ layout f (base + (as.flatMap f).length) bs) := by
  rw [layout_append] at h
  rcases List.mem_append.mp h with h | h
  · have hle := (le_of_mem_layout h).2
    have hpos := List.length_pos_iff.mpr (hf.nonempty a)
    exact Or.inl ⟨by omega, h⟩
  · exact Or.inr ⟨(le_of_mem_layout h).1, h⟩

/-! ## Cutting a stream between two frames -/

/-- A place in front of an item, or behind the last one. -/
def Boundary (f : α → List β) (as : List α) (o : Nat) : Prop :=
  ∃ before after, as = before ++ after ∧ (before.flatMap f).length = o

theorem Boundary.le {f : α → List β} {as : List α} {o : Nat} (h : Boundary f as o) :
    o ≤ (as.flatMap f).length := by
  obtain ⟨before, after, rfl, rfl⟩ := h
  rw [List.flatMap_append, List.length_append]
  exact Nat.le_add_right _ _

theorem boundary_iff_take {f : α → List β} {as : List α} {o : Nat} :
    Boundary f as o ↔ ∃ k ≤ as.length, ((as.take k).flatMap f).length = o := by
  constructor
  · rintro ⟨before, after, rfl, ho⟩
    refine ⟨before.length, ?_, by rw [List.take_left, ho]⟩
    rw [List.length_append]
    exact Nat.le_add_right _ _
  · rintro ⟨k, _, ho⟩
    exact ⟨as.take k, as.drop k, (List.take_append_drop k as).symm, ho⟩

instance (f : α → List β) (as : List α) (o : Nat) : Decidable (Boundary f as o) :=
  decidable_of_iff (∃ k ≤ as.length, ((as.take k).flatMap f).length = o)
    boundary_iff_take.symm

/-- The items between two boundaries. -/
structure Between (f : α → List β) (as : List α) (i j : Nat) (run : List α) : Prop where
  split : ∃ before after, as = before ++ run ++ after ∧ (before.flatMap f).length = i
  length : i + (run.flatMap f).length = j

theorem exists_between {f : α → List β} (hf : SelfDelimiting f) {as : List α} {i j : Nat}
    (hi : Boundary f as i) (hj : Boundary f as j) (hij : i ≤ j) :
    ∃ run, Between f as i j run := by
  obtain ⟨before, after, rfl, rfl⟩ := hi
  obtain ⟨before', after', heq, rfl⟩ := hj
  rcases List.append_eq_append_iff.mp heq with ⟨run, rfl, rfl⟩ | ⟨run, rfl, rfl⟩
  · refine ⟨run, ⟨before, after', (List.append_assoc _ _ _).symm, rfl⟩, ?_⟩
    rw [List.flatMap_append, List.length_append]
  · -- The second boundary cannot be in front of the first.
    rw [List.flatMap_append, List.length_append] at hij
    cases run with
    | nil =>
        refine ⟨[], ⟨before', after, ?_, ?_⟩, ?_⟩ <;> simp
    | cons a run =>
        have hpos := List.length_pos_iff.mpr (hf.nonempty a)
        rw [List.flatMap_cons, List.length_append] at hij
        omega

/-- What follows one boundary is what lies before the next, and what follows that. -/
theorem exists_middle {f : α → List β} (hf : SelfDelimiting f)
    {before after before' after' : List α} (h : before ++ after = before' ++ after')
    (hle : (before.flatMap f).length ≤ (before'.flatMap f).length) :
    ∃ middle, before' = before ++ middle ∧ after = middle ++ after' := by
  rcases List.append_eq_append_iff.mp h with ⟨middle, hbefore, hafter⟩ | ⟨middle, hbefore, hafter⟩
  · exact ⟨middle, hbefore, hafter⟩
  · -- The second boundary cannot be in front of the first.
    cases middle with
    | nil =>
        rw [List.append_nil] at hbefore
        exact ⟨[], by rw [List.append_nil, hbefore], hafter.symm⟩
    | cons a middle =>
        have hpos := List.length_pos_iff.mpr (hf.nonempty a)
        rw [hbefore, List.flatMap_append, List.length_append, List.flatMap_cons,
          List.length_append] at hle
        omega

/-- One boundary splits the frames in one way. -/
theorem after_unique {f : α → List β} (hf : SelfDelimiting f)
    {before after before' after' : List α} (h : before ++ after = before' ++ after')
    (hlength : (before.flatMap f).length = (before'.flatMap f).length) : after = after' := by
  obtain ⟨middle, hbefore, hafter⟩ := exists_middle hf h (Nat.le_of_eq hlength)
  cases middle with
  | nil => exact hafter
  | cons a middle =>
      have hpos := List.length_pos_iff.mpr (hf.nonempty a)
      rw [hbefore, List.flatMap_append, List.length_append, List.flatMap_cons,
        List.length_append] at hlength
      omega

namespace Between

variable {f : α → List β} {as run : List α} {i j : Nat}

/-- The bytes between two boundaries. -/
theorem slice (h : Between f as i j run) :
    ((as.flatMap f).drop i).take (j - i) = run.flatMap f := by
  obtain ⟨⟨before, after, rfl, rfl⟩, rfl⟩ := h
  rw [List.flatMap_append, List.flatMap_append, List.append_assoc, List.drop_left,
    Nat.add_sub_cancel_left, List.take_left]

/-- The items that start between two boundaries. -/
theorem mem_layout_iff (hf : SelfDelimiting f) (h : Between f as i j run) {o : Nat} {a : α} :
    (o, a) ∈ layout f i run ↔ (o, a) ∈ layout f 0 as ∧ i ≤ o ∧ o < j := by
  obtain ⟨⟨before, after, rfl, rfl⟩, rfl⟩ := h
  rw [layout_append, layout_append, Nat.zero_add, List.flatMap_append, List.length_append]
  constructor
  · intro hmem
    have hle := le_of_mem_layout hmem
    have hpos := List.length_pos_iff.mpr (hf.nonempty a)
    exact ⟨List.mem_append_left _ (List.mem_append_right _ hmem), hle.1, by omega⟩
  · rintro ⟨hmem, hi, hj⟩
    rcases List.mem_append.mp hmem with hmem | hmem
    · rcases List.mem_append.mp hmem with hmem | hmem
      · have hle := (le_of_mem_layout hmem).2
        have hpos := List.length_pos_iff.mpr (hf.nonempty a)
        omega
      · exact hmem
    · have hle := (le_of_mem_layout hmem).1
      omega

end Between

/-! ## Ranges -/

/-- The items that start in a range of the stream, with their offsets. -/
def within (f : α → List β) (as : List α) (i j : Nat) : List (Nat × α) :=
  (layout f 0 as).filter fun x => i ≤ x.1 ∧ x.1 < j

theorem Between.within_eq {f : α → List β} (hf : SelfDelimiting f) {as run : List α}
    {i j : Nat} (h : Between f as i j run) : within f as i j = layout f i run := by
  obtain ⟨⟨before, after, rfl, rfl⟩, rfl⟩ := h
  rw [within, layout_append, layout_append, List.filter_append, List.filter_append,
    List.flatMap_append, List.length_append]
  simp only [Nat.zero_add]
  have hbefore : (layout f 0 before).filter (fun x => (before.flatMap f).length ≤ x.1 ∧
      x.1 < (before.flatMap f).length + (run.flatMap f).length) = [] := by
    rw [List.filter_eq_nil_iff]
    intro x hx
    have hle := (le_of_mem_layout hx).2
    have hpos := List.length_pos_iff.mpr (hf.nonempty x.2)
    simp only [decide_eq_true_eq]
    omega
  have hrun : (layout f (before.flatMap f).length run).filter
      (fun x => (before.flatMap f).length ≤ x.1 ∧
        x.1 < (before.flatMap f).length + (run.flatMap f).length) =
      layout f (before.flatMap f).length run := by
    rw [List.filter_eq_self]
    intro x hx
    have hle := le_of_mem_layout hx
    have hpos := List.length_pos_iff.mpr (hf.nonempty x.2)
    simp only [decide_eq_true_eq]
    omega
  have hafter : (layout f ((before.flatMap f).length + (run.flatMap f).length) after).filter
      (fun x => (before.flatMap f).length ≤ x.1 ∧
        x.1 < (before.flatMap f).length + (run.flatMap f).length) = [] := by
    rw [List.filter_eq_nil_iff]
    intro x hx
    have hle := (le_of_mem_layout hx).1
    simp only [decide_eq_true_eq]
    omega
  rw [hbefore, hrun, hafter, List.nil_append, List.append_nil]

/-- Two ranges, one behind the other. The induction is on the items, the first of
which is in one of the ranges or in neither. -/
theorem filter_range_append {xs : List (Nat × α)} (h : xs.Pairwise fun x y => x.1 < y.1)
    {i j k : Nat} (hij : i ≤ j) (hjk : j ≤ k) :
    (xs.filter fun x => i ≤ x.1 ∧ x.1 < j) ++ (xs.filter fun x => j ≤ x.1 ∧ x.1 < k) =
      xs.filter fun x => i ≤ x.1 ∧ x.1 < k := by
  induction h with
  | nil => rfl
  | @cons x xs hx _ ih =>
      rcases Nat.lt_or_ge x.1 j with hlt | hge
      · have hsecond : decide (j ≤ x.1 ∧ x.1 < k) = false := decide_eq_false (by omega)
        by_cases hle : i ≤ x.1
        · have hfirst : decide (i ≤ x.1 ∧ x.1 < j) = true := decide_eq_true ⟨hle, hlt⟩
          have hboth : decide (i ≤ x.1 ∧ x.1 < k) = true := decide_eq_true (by omega)
          simp only [List.filter_cons, hfirst, hsecond, hboth, if_true, Bool.false_eq_true,
            if_false, List.cons_append, ih]
        · have hfirst : decide (i ≤ x.1 ∧ x.1 < j) = false := decide_eq_false (by omega)
          have hboth : decide (i ≤ x.1 ∧ x.1 < k) = false := decide_eq_false (by omega)
          simp only [List.filter_cons, hfirst, hsecond, hboth, Bool.false_eq_true,
            if_false, ih]
      · have hnone : (x :: xs).filter (fun y => i ≤ y.1 ∧ y.1 < j) = [] := by
          rw [List.filter_eq_nil_iff]
          intro y hy
          simp only [decide_eq_true_eq]
          rcases List.mem_cons.mp hy with rfl | hy
          · omega
          · have := hx y hy
            omega
        rw [hnone, List.nil_append]
        refine List.filter_congr fun y hy => ?_
        have hle : j ≤ y.1 := by
          rcases List.mem_cons.mp hy with rfl | hy
          · exact hge
          · exact Nat.le_trans hge (Nat.le_of_lt (hx y hy))
        simp only [decide_eq_decide]
        omega

theorem within_append {f : α → List β} (hf : SelfDelimiting f) (as : List α) {i j k : Nat}
    (hij : i ≤ j) (hjk : j ≤ k) :
    within f as i j ++ within f as j k = within f as i k :=
  filter_range_append (layout_pairwise hf 0 as) hij hjk

theorem within_self (f : α → List β) (as : List α) (i : Nat) : within f as i i = [] := by
  rw [within, List.filter_eq_nil_iff]
  intro x _
  simp only [decide_eq_true_eq]
  omega

theorem rel_of_mem_consecutivePairs {γ : Type} {R : γ → γ → Prop} {cs : List γ}
    (h : cs.Pairwise R) {x : γ × γ} (hx : x ∈ cs.consecutivePairs) : R x.1 x.2 := by
  induction h with
  | nil => exact absurd hx List.not_mem_nil
  | @cons a cs ha _ ih =>
      cases cs with
      | nil => exact absurd hx List.not_mem_nil
      | cons b cs =>
          rcases List.mem_cons.mp hx with rfl | hx
          · exact ha b List.mem_cons_self
          · exact ih hx

/-- The ranges between neighbours make up the range from the first to the last. -/
theorem flatMap_within {γ : Type} {f : α → List β} (hf : SelfDelimiting f) (as : List α)
    (key : γ → Nat) {cs : List γ} (h : cs.Pairwise fun x y => key x ≤ key y) {c : γ}
    (hlast : cs.getLast? = some c) :
    ∀ {a : γ}, cs.head? = some a →
      cs.consecutivePairs.flatMap (fun x => within f as (key x.1) (key x.2)) =
        within f as (key a) (key c) := by
  induction h with
  | nil => cases hlast
  | @cons a cs ha hsorted ih =>
      intro a' hhead
      obtain rfl : a = a' := Option.some.inj hhead
      cases cs with
      | nil =>
          obtain rfl : a = c := Option.some.inj hlast
          exact (within_self f as (key a)).symm
      | cons b cs =>
          rw [List.getLast?_cons_cons] at hlast
          have hbc : key b ≤ key c := by
            rcases List.mem_cons.mp (List.mem_of_getLast? hlast) with rfl | hc
            · exact Nat.le_refl _
            · exact (List.pairwise_cons.mp hsorted).1 c hc
          show within f as (key a) (key b) ++ (b :: cs).consecutivePairs.flatMap _ = _
          rw [ih hlast rfl]
          exact within_append hf as (ha b List.mem_cons_self) hbc

theorem length_le_flatMap {f : α → List β} (hf : SelfDelimiting f) (as : List α) :
    as.length ≤ (as.flatMap f).length := by
  induction as with
  | nil => exact Nat.le_refl _
  | cons a as ih =>
      have hpos := List.length_pos_iff.mpr (hf.nonempty a)
      rw [List.flatMap_cons, List.length_append, List.length_cons]
      omega

/-! ## Groups -/

/-- Groups of items one behind the other, each with its own layout. -/
def layouts (f : α → List β) : Nat → List (List α) → List (List (Nat × α))
  | _, [] => []
  | base, as :: ass => layout f base as :: layouts f (base + (as.flatMap f).length) ass

theorem flatten_layouts (f : α → List β) (base : Nat) (ass : List (List α)) :
    (layouts f base ass).flatten = layout f base ass.flatten := by
  induction ass generalizing base with
  | nil => rfl
  | cons as ass ih => rw [layouts, List.flatten_cons, ih, List.flatten_cons, layout_append]

theorem layouts_map_snd (f : α → List β) (base : Nat) (ass : List (List α)) :
    (layouts f base ass).map (fun xs => xs.map Prod.snd) = ass := by
  induction ass generalizing base with
  | nil => rfl
  | cons as ass ih => rw [layouts, List.map_cons, ih, layout_map_snd]

/-! ## Pieces -/

section Pieces

variable {π : Type} {f : α → List β} {g : π → List β} {P : Nat → α → π → Prop}

/-- Each piece meets `P` with the item in progress and with how much of the item is there
when the piece comes. So much of the first item is there before all of them. -/
def EachPiece (f : α → List β) (g : π → List β) (P : Nat → α → π → Prop) (held : Nat)
    (as : List α) (pieces : List π) : Prop :=
  ∀ pre piece post, pieces = pre ++ piece :: post → ∀ done a rest, as = done ++ a :: rest →
    ∀ n, held + (pre.flatMap g).length = (done.flatMap f).length + n → n < (f a).length →
      P n a piece

theorem eachPiece_nil (held : Nat) (pieces : List π) : EachPiece f g P held [] pieces := by
  intro _ _ _ _ done a rest h
  cases List.append_eq_nil_iff.mp h.symm with
  | intro _ h => cases h

/-- The first item is in progress. -/
theorem eachPiece_cons {held : Nat} {a : α} {as : List α} {piece : π} {pieces : List π}
    (hheld : held < (f a).length) :
    EachPiece f g P held (a :: as) (piece :: pieces) ↔
      P held a piece ∧ EachPiece f g P (held + (g piece).length) (a :: as) pieces := by
  constructor
  · intro h
    refine ⟨h [] piece pieces rfl [] a as rfl held (Nat.add_comm _ _) hheld, ?_⟩
    intro pre p post hpieces done b rest hitems n hn hlt
    refine h (piece :: pre) p post (congrArg _ hpieces) done b rest hitems n ?_ hlt
    rw [List.flatMap_cons, List.length_append]
    omega
  · rintro ⟨hpiece, h⟩ pre p post hpieces done b rest hitems n hn hlt
    cases pre with
    | nil =>
        cases hpieces
        cases done with
        | nil =>
            cases hitems
            rw [List.flatMap_nil, List.length_nil] at hn
            rw [show n = held by simpa using hn.symm]
            exact hpiece
        | cons c done =>
            cases hitems
            rw [List.flatMap_cons, List.length_append, List.flatMap_nil] at hn
            simp only [List.length_nil] at hn
            omega
    | cons q pre =>
        cases hpieces
        refine h pre p post rfl done b rest hitems n ?_ hlt
        rw [List.flatMap_cons, List.length_append] at hn
        omega

/-- All of the first item is there. -/
theorem eachPiece_next {a : α} {as : List α} {pieces : List π} :
    EachPiece f g P (f a).length (a :: as) pieces ↔ EachPiece f g P 0 as pieces := by
  constructor
  · intro h pre p post hpieces done b rest hitems n hn hlt
    refine h pre p post hpieces (a :: done) b rest (congrArg _ hitems) n ?_ hlt
    rw [List.flatMap_cons, List.length_append]
    omega
  · intro h pre p post hpieces done b rest hitems n hn hlt
    cases done with
    | nil =>
        cases hitems
        rw [List.flatMap_nil, List.length_nil] at hn
        omega
    | cons c done =>
        cases hitems
        refine h pre p post hpieces done b rest rfl n ?_ hlt
        rw [List.flatMap_cons, List.length_append] at hn
        omega

/-- Each item comes in a piece of its own. -/
theorem eachPiece_map {piece : α → π} (hpiece : ∀ a, g (piece a) = f a) {as : List α}
    (hne : ∀ a ∈ as, f a ≠ []) (h : ∀ a ∈ as, P 0 a (piece a)) :
    EachPiece f g P 0 as (as.map piece) := by
  induction as with
  | nil => exact eachPiece_nil _ _
  | cons a as ih =>
      rw [List.map_cons,
        eachPiece_cons (List.length_pos_iff.mpr (hne a List.mem_cons_self)), Nat.zero_add,
        hpiece, eachPiece_next]
      exact ⟨h a List.mem_cons_self, ih (fun b hb => hne b (List.mem_cons_of_mem _ hb))
        fun b hb => h b (List.mem_cons_of_mem _ hb)⟩

theorem length_lt_of_append {held more frame : List β} (h : held ++ more = frame)
    (hmore : more ≠ []) : held.length < frame.length := by
  have hpos := List.length_pos_iff.mpr hmore
  rw [← h, List.length_append]
  omega

/-- A piece that does not reach past the end of the item in progress. -/
theorem piece_cases {held piece rest frame after : List β}
    (h : (held ++ piece) ++ rest = frame ++ after)
    (hle : (held ++ piece).length ≤ frame.length) :
    (∃ more, more ≠ [] ∧ (held ++ piece) ++ more = frame) ∨
      (held ++ piece = frame ∧ rest = after) := by
  obtain ⟨more, hmore⟩ :=
    List.prefix_of_prefix_length_le ⟨rest, h⟩ (List.prefix_append frame after) hle
  cases more with
  | nil =>
      rw [List.append_nil] at hmore
      rw [hmore] at h
      exact Or.inr ⟨hmore, List.append_cancel_left h⟩
  | cons b more => exact Or.inl ⟨_, List.cons_ne_nil b more, hmore⟩

/-- The items in pieces, none of which reaches past the end of the item in progress. Some
of the first item, `held`, is there already. -/
inductive InPieces (f : α → List β) (g : π → List β) (P : Nat → α → π → Prop) :
    List β → List α → List π → Prop where
  | nil : InPieces f g P [] [] []
  | idle {piece pieces} : g piece = [] → InPieces f g P [] [] pieces →
      InPieces f g P [] [] (piece :: pieces)
  | part {held more a as piece pieces} : P held.length a piece → more ≠ [] →
      (held ++ g piece) ++ more = f a → InPieces f g P (held ++ g piece) (a :: as) pieces →
      InPieces f g P held (a :: as) (piece :: pieces)
  | whole {held a as piece pieces} : P held.length a piece → held ++ g piece = f a →
      InPieces f g P [] as pieces → InPieces f g P held (a :: as) (piece :: pieces)

/-- The induction is on the pieces. -/
theorem inPieces_of_eachPiece (pieces : List π) : ∀ {held : List β} {as : List α},
    (∀ a ∈ as, f a ≠ []) → held ++ pieces.flatMap g = as.flatMap f →
    (∀ a rest, as = a :: rest → held.length < (f a).length) →
    EachPiece f g (fun n a piece => n + (g piece).length ≤ (f a).length) held.length as pieces →
    EachPiece f g P held.length as pieces → InPieces f g P held as pieces := by
  induction pieces with
  | nil =>
      intro held as hne hbytes hheld _ _
      rw [List.flatMap_nil, List.append_nil] at hbytes
      cases as with
      | nil =>
          rw [hbytes]
          exact .nil
      | cons a rest =>
          have hlt := hheld a rest rfl
          have hlen := congrArg List.length hbytes
          rw [List.flatMap_cons, List.length_append] at hlen
          omega
  | cons piece pieces ih =>
      intro held as hne hbytes hheld hcontained hP
      rw [List.flatMap_cons, ← List.append_assoc] at hbytes
      cases as with
      | nil =>
          obtain ⟨hpiece, hrest⟩ := List.append_eq_nil_iff.mp hbytes
          obtain ⟨rfl, hpiece⟩ := List.append_eq_nil_iff.mp hpiece
          exact .idle hpiece (ih hne hrest hheld (eachPiece_nil _ _) (eachPiece_nil _ _))
      | cons a rest =>
          have hlt := hheld a rest rfl
          rw [eachPiece_cons hlt, ← List.length_append] at hcontained hP
          rcases piece_cases hbytes hcontained.1 with ⟨more, hmore, hsplit⟩ | ⟨hwhole, hrest⟩
          · refine .part hP.1 hmore hsplit (ih hne hbytes ?_ hcontained.2 hP.2)
            rintro _ _ ⟨⟩
            exact length_lt_of_append hsplit hmore
          · rw [hwhole, eachPiece_next] at hcontained hP
            have hne' : ∀ b ∈ rest, f b ≠ [] := fun b hb => hne b (List.mem_cons_of_mem _ hb)
            refine .whole hP.1 hwhole (ih hne' hrest ?_ hcontained.2 hP.2)
            rintro b rest' rfl
            exact List.length_pos_iff.mpr (hne' b List.mem_cons_self)

end Pieces

end GstPravega.Lib
