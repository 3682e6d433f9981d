import Mathlib.Algebra.Order.Field.Basic
import Mathlib.Tactic.Linarith
import Mathlib.Tactic.Positivity
import Mathlib.Tactic.Ring

/-!
# Exponential moving averages

Each value that comes moves the average a part `α` of the way to it. Values that are not
negative can pull the average down no faster than by the factor `1 - α` each, so that what
it was is a bound for what it is (`pow_mul_le_movingAverage`). The same is said of a value
that was not far above the average when it came (`pow_mul_sub_le_movingAverage`).
-/

namespace GstPravega.Lib

variable {K : Type} [Field K]

/-- The average that begins with `t`, after these values. -/
def movingAverage (α t : K) (xs : List K) : K :=
  xs.foldl (fun t x => α * x + (1 - α) * t) t

theorem movingAverage_append (α t : K) (xs ys : List K) :
    movingAverage α t (xs ++ ys) = movingAverage α (movingAverage α t xs) ys :=
  List.foldl_append

theorem movingAverage_cons (α t x : K) (xs : List K) :
    movingAverage α t (x :: xs) = movingAverage α (α * x + (1 - α) * t) xs := rfl

section Ordered

variable [LinearOrder K] [IsStrictOrderedRing K] {α t d s : K} {xs post : List K}

/-- The induction is on the values. -/
theorem pow_mul_le_movingAverage (h0 : 0 ≤ α) (h1 : α ≤ 1) (hxs : ∀ x ∈ xs, 0 ≤ x) :
    (1 - α) ^ xs.length * t ≤ movingAverage α t xs := by
  induction xs generalizing t with
  | nil =>
      rw [List.length_nil, pow_zero, one_mul]
      exact le_refl t
  | cons x xs ih =>
      obtain ⟨hx, hxs⟩ := List.forall_mem_cons.mp hxs
      have hpow : 0 ≤ (1 - α) ^ xs.length := pow_nonneg (sub_nonneg.mpr h1) _
      have hstep : (1 - α) * t ≤ α * x + (1 - α) * t :=
        le_add_of_nonneg_left (mul_nonneg h0 hx)
      calc (1 - α) ^ (x :: xs).length * t
          = (1 - α) ^ xs.length * ((1 - α) * t) := by rw [List.length_cons, pow_succ, mul_assoc]
        _ ≤ (1 - α) ^ xs.length * (α * x + (1 - α) * t) := mul_le_mul_of_nonneg_left hstep hpow
        _ ≤ movingAverage α t (x :: xs) := ih hxs

/-- A value that was at most `s` above the average when it came. -/
theorem pow_mul_sub_le_movingAverage (h0 : 0 ≤ α) (h1 : α ≤ 1) (hpost : ∀ x ∈ post, 0 ≤ x)
    (hd : d ≤ movingAverage α t xs + s) :
    (1 - α) ^ post.length * (d - (1 - α) * s) ≤ movingAverage α t (xs ++ d :: post) := by
  rw [movingAverage_append, movingAverage_cons]
  have hpow : 0 ≤ (1 - α) ^ post.length := pow_nonneg (sub_nonneg.mpr h1) _
  have hmul := mul_le_mul_of_nonneg_left hd (sub_nonneg.mpr h1)
  have hstep : d - (1 - α) * s ≤ α * d + (1 - α) * movingAverage α t xs := by
    linarith
  exact le_trans (mul_le_mul_of_nonneg_left hstep hpow) (pow_mul_le_movingAverage h0 h1 hpost)

end Ordered

end GstPravega.Lib
