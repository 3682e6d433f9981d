import Mathlib.Tactic.Linarith

/-!
# Machine integers

Plain `+` and `-` on a machine integer panic when the result does not fit and
overflow checks are compiled in, and wrap when they are not. Every sum below
takes the build as an argument: `checks` is true with the checks on, and `none`
is the panic. A lemma that holds for both values of `checks` holds of both
builds.
-/

namespace GstPravega.Lib

/-- `a + b` on `u64`. -/
def u64Add (checks : Bool) (a b : UInt64) : Option UInt64 :=
  if checks && decide (2 ^ 64 ≤ a.toNat + b.toNat) then none else some (a + b)

theorem u64Add_of_lt {checks : Bool} {a b : UInt64}
    (h : a.toNat + b.toNat < 2 ^ 64) : u64Add checks a b = some (a + b) := by
  rw [u64Add, if_neg]
  simp only [Bool.and_eq_true, decide_eq_true_eq, not_and]
  omega

/-- With checks a sum that is there fits. -/
theorem u64Add_true {a b c : UInt64} (h : u64Add true a b = some c) :
    a.toNat + b.toNat < 2 ^ 64 ∧ c = a + b := by
  rcases Nat.lt_or_ge (a.toNat + b.toNat) (2 ^ 64) with hlt | hge
  · rw [u64Add_of_lt hlt] at h
    injection h with h
    exact ⟨hlt, h.symm⟩
  · rw [u64Add, if_pos (by simpa using hge)] at h
    cases h

theorem toNat_add_of_lt {a b : UInt64} (h : a.toNat + b.toNat < 2 ^ 64) :
    (a + b).toNat = a.toNat + b.toNat := by
  rw [UInt64.toNat_add, Nat.mod_eq_of_lt h]

/-- `a + b` on a `u64` that counts bytes and is kept as a natural number. -/
def addU64 (checks : Bool) (a b : Nat) : Option Nat :=
  if a + b < 2 ^ 64 then some (a + b)
  else if checks then none else some (a + b - 2 ^ 64)

/-- `a - b` on such a `u64`. -/
def subU64 (checks : Bool) (a b : Nat) : Option Nat :=
  if b ≤ a then some (a - b)
  else if checks then none else some (a + 2 ^ 64 - b)

theorem addU64_of_lt {checks : Bool} {a b : Nat} (h : a + b < 2 ^ 64) :
    addU64 checks a b = some (a + b) := if_pos h

theorem subU64_of_le {checks : Bool} {a b : Nat} (h : b ≤ a) :
    subU64 checks a b = some (a - b) := if_pos h

/-- `as i64` of a `u64`. -/
def asI64 (n : Nat) : Int := if n < 2 ^ 63 then n else (n : Int) - 2 ^ 64

theorem asI64_of_lt {n : Nat} (h : n < 2 ^ 63) : asI64 n = n := if_pos h

/-- A 128-bit signed result. -/
def i128 (checks : Bool) (n : Int) : Option Int :=
  if -2 ^ 127 ≤ n ∧ n < 2 ^ 127 then some n
  else if checks then none
  else some (n.bmod (2 ^ 128))

theorem i128_of_range {checks : Bool} {n : Int} (h : 0 ≤ n) (h' : n < 2 ^ 127) :
    i128 checks n = some n := by
  rw [i128, if_pos ⟨by omega, h'⟩]

/-- `as u64` of an `i128`: the low 64 bits. -/
def asU64 (n : Int) : UInt64 := UInt64.ofNat (n % 2 ^ 64).toNat

theorem asU64_toNat (n : Int) : ((asU64 n).toNat : Int) = n % 2 ^ 64 := by
  have h0 := Int.emod_nonneg n (show (2 : Int) ^ 64 ≠ 0 by decide)
  have h1 := Int.emod_lt_of_pos n (show (0 : Int) < 2 ^ 64 by decide)
  rw [asU64, UInt64.toNat_ofNat']
  omega

/-- Wrapping to 128 bits first changes nothing below bit 64. -/
theorem i128_emod {checks : Bool} {n m : Int} (h : i128 checks n = some m) :
    m % 2 ^ 64 = n % 2 ^ 64 := by
  rw [i128] at h
  split at h
  · injection h with h
    rw [h]
  · split at h
    · cases h
    · injection h with h
      rw [← h, ← Int.emod_emod_of_dvd (n.bmod (2 ^ 128))
          (show (2 : Int) ^ 64 ∣ (2 ^ 128 : Nat) by decide),
        Int.bmod_emod, Int.emod_emod_of_dvd _ (by decide)]

theorem i128_range {checks : Bool} {n m : Int} (h : i128 checks n = some m) :
    -2 ^ 127 ≤ m ∧ m < 2 ^ 127 := by
  rw [i128] at h
  split at h
  · next hn =>
      injection h with h
      rw [← h]
      exact hn
  · split at h
    · cases h
    · injection h with h
      have h1 := Int.le_bmod (x := n) (show 0 < 2 ^ 128 by decide)
      have h2 := Int.bmod_lt (x := n) (show 0 < 2 ^ 128 by decide)
      rw [h] at h1 h2
      omega

-- Programs that contain such a sum are unfolded; its bounds are not to be.
attribute [irreducible] i128

/-- Only the low 64 bits count. -/
theorem asU64_congr {n m : Int} (h : n % 2 ^ 64 = m % 2 ^ 64) : asU64 n = asU64 m := by
  rw [asU64, asU64, h]

theorem asU64_of_range {n : Int} (h : 0 ≤ n) (h' : n < 2 ^ 64) :
    ((asU64 n).toNat : Int) = n := by
  rw [asU64_toNat, Int.emod_eq_of_lt h h']

theorem asU64_natCast {n : Nat} (h : n < 2 ^ 64) : asU64 n = UInt64.ofNat n := by
  rw [asU64, Int.emod_eq_of_lt (by omega) (by omega), Int.toNat_natCast]

theorem toNat_max_one (n : UInt64) : (max 1 n).toNat = max 1 n.toNat := by
  have hone : (1 : UInt64).toNat = 1 := rfl
  show (if (1 : UInt64) ≤ n then n else 1).toNat = _
  split
  · next h =>
      rw [UInt64.le_iff_toNat_le] at h
      omega
  · next h =>
      rw [UInt64.le_iff_toNat_le] at h
      omega

end GstPravega.Lib
