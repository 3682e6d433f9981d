import Mathlib.Tactic.Linarith

/-!
# Big-endian integers of a fixed width

The two directions of `to_be_bytes` and `from_be_bytes`, for any width: the
most significant byte comes first and the number of bytes is fixed, so a
number too large for the width is written modulo `256 ^ width` and every byte
string of that width is read back to exactly itself.
-/

namespace GstPravega.Lib

/-- The `w` bytes of `n`, most significant first. -/
def beBytes : Nat → Nat → List UInt8
  | 0, _ => []
  | w + 1, n => UInt8.ofNat (n / 256 ^ w) :: beBytes w n

/-- The number a byte string spells, most significant byte first. -/
def beNat : List UInt8 → Nat
  | [] => 0
  | b :: bs => b.toNat * 256 ^ bs.length + beNat bs

@[simp] theorem length_beBytes (w n : Nat) : (beBytes w n).length = w := by
  induction w with
  | zero => rfl
  | succ w ih => simp [beBytes, ih]

theorem beNat_lt (bs : List UInt8) : beNat bs < 256 ^ bs.length := by
  induction bs with
  | nil => simp [beNat]
  | cons b bs ih =>
      have hb : b.toNat + 1 ≤ 256 := b.toNat_lt
      have hmul := Nat.mul_le_mul_right (256 ^ bs.length) hb
      rw [Nat.add_mul, Nat.one_mul] at hmul
      simp only [beNat, List.length_cons, Nat.pow_succ]
      omega

/-- Reading what was written gives the number modulo the width. -/
theorem beNat_beBytes (w n : Nat) : beNat (beBytes w n) = n % 256 ^ w := by
  induction w with
  | zero => simp [beBytes, beNat, Nat.mod_one]
  | succ w ih =>
      have hbyte : (UInt8.ofNat (n / 256 ^ w)).toNat = n / 256 ^ w % 256 := by
        simp
      rw [beBytes, beNat, length_beBytes, hbyte, ih, Nat.pow_succ,
        Nat.mod_mul, Nat.mul_comm (n / 256 ^ w % 256), Nat.add_comm]

theorem beNat_beBytes_of_lt {w n : Nat} (h : n < 256 ^ w) :
    beNat (beBytes w n) = n := by
  rw [beNat_beBytes, Nat.mod_eq_of_lt h]

/-- Writing only looks at the number modulo the width. -/
theorem beBytes_add_mul (w n k : Nat) :
    beBytes w (n + k * 256 ^ w) = beBytes w n := by
  induction w generalizing k with
  | zero => rfl
  | succ w ih =>
      have hsplit : n + k * 256 ^ (w + 1) = n + k * 256 * 256 ^ w := by
        rw [Nat.pow_succ, Nat.mul_comm (256 ^ w), Nat.mul_assoc]
      rw [beBytes, beBytes, hsplit, ih,
        Nat.add_mul_div_right n (k * 256) (Nat.pow_pos (by decide))]
      congr 1
      apply UInt8.toNat_inj.mp
      simp

/-- Writing what was read gives the bytes back. -/
theorem beBytes_beNat (bs : List UInt8) : beBytes bs.length (beNat bs) = bs := by
  induction bs with
  | nil => rfl
  | cons b bs ih =>
      have hlt := beNat_lt bs
      have hpos : 0 < 256 ^ bs.length := Nat.pow_pos (by decide)
      rw [List.length_cons, beNat, beBytes, Nat.add_comm, beBytes_add_mul, ih,
        Nat.add_mul_div_right _ _ hpos, Nat.div_eq_of_lt hlt, Nat.zero_add]
      simp

end GstPravega.Lib
