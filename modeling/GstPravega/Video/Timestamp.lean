import GstPravega.Lib.Machine
import Mathlib.Tactic.Linarith

/-!
# Timestamps

`PravegaTimestamp` is an optional count of nanoseconds since the TAI epoch,
ordered as Rust derives it: no timestamp comes before every timestamp.
`TimeDelta` is an optional signed count, carried in 128 bits.

A conversion that adds on machine integers takes `checks`, the build it is
compiled for, and returns `none` where that build panics.
-/

namespace GstPravega.Video

open GstPravega.Lib

structure PravegaTimestamp where
  nanoseconds : Option UInt64
  deriving DecidableEq, Repr

namespace PravegaTimestamp

protected def none : PravegaTimestamp := ⟨none⟩
protected def min : PravegaTimestamp := ⟨some 0⟩
protected def max : PravegaTimestamp := ⟨some (UInt64.ofNat (2 ^ 64 - 1))⟩

def unixToNtpSeconds : UInt64 := (70 * 365 + 17) * 24 * 60 * 60
def utcToTaiSeconds : UInt64 := 37

def fromNanoseconds (nanoseconds : Option UInt64) : PravegaTimestamp :=
  ⟨nanoseconds⟩

def fromUnixNanoseconds (checks : Bool) :
    Option UInt64 → Option PravegaTimestamp
  | some nanoseconds =>
      (u64Add checks nanoseconds (utcToTaiSeconds * 1000000000)).map
        fun n => ⟨some n⟩
  | none => some ⟨none⟩

def fromNtpNanoseconds (checks : Bool) :
    Option UInt64 → Option PravegaTimestamp
  | some nanoseconds =>
      if nanoseconds ≥ unixToNtpSeconds * 1000000000 then
        fromUnixNanoseconds checks
          (some (nanoseconds - unixToNtpSeconds * 1000000000))
      else some ⟨none⟩
  | none => some ⟨none⟩

/-- From a `SystemTime`, which is given by its nanoseconds since the Unix epoch. The
conversion panics before the epoch. -/
def fromSystemTime (checks : Bool) (t : Int) : Option PravegaTimestamp :=
  if 0 ≤ t then
    fromUnixNanoseconds checks
      (if t < 2 ^ 64 then some (UInt64.ofNat t.toNat) else none)
  else none

/-- `now`, where the clock of the system shows `systemTime`. -/
def now (checks : Bool) (systemTime : Int) : Option PravegaTimestamp :=
  fromSystemTime checks systemTime

/-- From an optional `DateTime<Utc>`, which is given by its `timestamp_nanos`. -/
def fromDateTime (checks : Bool) : Option Int → Option PravegaTimestamp
  | some t =>
      fromUnixNanoseconds checks (if 0 ≤ t then some (UInt64.ofNat t.toNat) else none)
  | none => some PravegaTimestamp.none

/-- `try_from` of a text. `parse` is `parse_from_rfc3339` and `timestamp_nanos`, and gives
nothing for a text that is no time. The inner `none` is the error. -/
def tryFrom (checks : Bool) (parse : String → Option Int) (t : String) :
    Option (Option PravegaTimestamp) :=
  match parse t with
  | some nanos =>
      if 0 ≤ nanos then
        (fromUnixNanoseconds checks (some (UInt64.ofNat nanos.toNat))).map some
      else some none
  | none => some none

def zeroLeapSecondsUntilSeconds : UInt64 := (1972 - 1970) * 365 * 24 * 60 * 60

def toUnixNanoseconds (t : PravegaTimestamp) : Option UInt64 :=
  match t.nanoseconds with
  | some nanoseconds =>
      if nanoseconds < zeroLeapSecondsUntilSeconds * 1000000000 then some nanoseconds
      else some (nanoseconds - utcToTaiSeconds * 1000000000)
  | none => none

/-- `to_iso_8601`, where `format` writes a count of nanoseconds since the Unix epoch
as `%Y-%m-%dT%T.%9fZ`. -/
def toIso8601 (format : UInt64 → String) (t : PravegaTimestamp) : Option String :=
  t.toUnixNanoseconds.map format

def isSome (t : PravegaTimestamp) : Bool := t.nanoseconds.isSome

def isNone (t : PravegaTimestamp) : Bool := !t.isSome

theorem toIso8601_of_isSome (format : UInt64 → String) {t : PravegaTimestamp}
    (h : t.isSome = true) : ∃ time, t.toIso8601 format = some time := by
  obtain ⟨_ | n⟩ := t
  · cases h
  · rw [toIso8601, toUnixNanoseconds]
    dsimp only
    split
    · exact ⟨_, rfl⟩
    · exact ⟨_, rfl⟩

/-- `or`: the first timestamp there is. -/
def or (t optb : PravegaTimestamp) : PravegaTimestamp :=
  match t.nanoseconds with
  | some _ => t
  | none => optb

/-- The offset between the epochs of NTP and of Unix. -/
def unixToNtpNanos : UInt64 := unixToNtpSeconds * 1000000000

theorem toNat_unixToNtpNanos : unixToNtpNanos.toNat = 2208988800000000000 := by
  decide +kernel

theorem toNat_sub_unixToNtpNanos {n : UInt64} (hle : unixToNtpNanos ≤ n) :
    (n - unixToNtpNanos).toNat + 2208988800000000000 = n.toNat := by
  rw [UInt64.toNat_sub_of_le _ _ hle, toNat_unixToNtpNanos]
  rw [UInt64.le_iff_toNat_le, toNat_unixToNtpNanos] at hle
  omega

theorem toNat_ofNtp {n : UInt64} (hle : unixToNtpNanos ≤ n) :
    (n - unixToNtpNanos + 37000000000).toNat + 2208988800000000000 =
      n.toNat + 37000000000 := by
  have hn := n.toNat_lt
  have hsub := toNat_sub_unixToNtpNanos hle
  have htai : (37000000000 : UInt64).toNat = 37000000000 := rfl
  rw [toNat_add_of_lt (by rw [htai]; omega), htai]
  omega

/-- No time is too large to be converted, and one before the epoch of Unix is none. -/
theorem fromNtpNanoseconds_some (checks : Bool) (n : UInt64) :
    fromNtpNanoseconds checks (some n) =
      some ⟨if unixToNtpNanos ≤ n then some (n - unixToNtpNanos + 37000000000) else none⟩ := by
  rw [fromNtpNanoseconds]
  split
  · next hle =>
      change unixToNtpNanos ≤ n at hle
      have hfits : (n - unixToNtpNanos).toNat + (37000000000 : UInt64).toNat < 2 ^ 64 := by
        have hn := n.toNat_lt
        have hsub := toNat_sub_unixToNtpNanos hle
        have htai : (37000000000 : UInt64).toNat = 37000000000 := rfl
        omega
      have hadd : u64Add checks (n - unixToNtpNanos) (utcToTaiSeconds * 1000000000) = _ :=
        u64Add_of_lt hfits
      rw [if_pos hle, fromUnixNanoseconds]
      exact congrArg (Option.map _) hadd
  · next hlt =>
      rw [if_neg (show ¬ unixToNtpNanos ≤ n from hlt)]

/-- The derived order, as a number: 0 for no timestamp. -/
def key (t : PravegaTimestamp) : Nat :=
  match t.nanoseconds with
  | none => 0
  | some n => n.toNat + 1

theorem key_injective : Function.Injective key := by
  rintro ⟨a⟩ ⟨b⟩ h
  cases a <;> cases b <;> simp_all [key, UInt64.toNat_inj]

instance : LinearOrder PravegaTimestamp := LinearOrder.lift' key key_injective

theorem le_iff {a b : PravegaTimestamp} : a ≤ b ↔ a.key ≤ b.key := Iff.rfl

theorem lt_iff {a b : PravegaTimestamp} : a < b ↔ a.key < b.key := Iff.rfl

@[simp] theorem key_some (n : UInt64) : key ⟨some n⟩ = n.toNat + 1 := rfl

@[simp] theorem key_none : key ⟨none⟩ = 0 := rfl

end PravegaTimestamp

/-- A difference of timestamps, of either sign. -/
structure TimeDelta where
  nanoseconds : Option Int
  deriving DecidableEq, Repr

def SECOND : TimeDelta := ⟨some 1000000000⟩
def MSECOND : TimeDelta := ⟨some 1000000⟩
def NSECOND : TimeDelta := ⟨some 1⟩

namespace TimeDelta

/-- `self * rhs` for an `i128`. -/
def mul (checks : Bool) (self : Int) (rhs : TimeDelta) : Option TimeDelta :=
  match rhs.nanoseconds with
  | some rhs => (i128 checks (self * rhs)).map fun n => ⟨some n⟩
  | none => some ⟨none⟩

theorem mul_of_range {checks : Bool} {self rhs : Int} (h : 0 ≤ self * rhs)
    (h' : self * rhs < 2 ^ 127) : mul checks self ⟨some rhs⟩ = some ⟨some (self * rhs)⟩ := by
  rw [mul]
  dsimp only
  rw [i128_of_range h h']
  rfl

end TimeDelta

/-- `self - rhs`: the difference is taken in 128 bits and cut to 64. -/
def PravegaTimestamp.sub (checks : Bool) (self : PravegaTimestamp)
    (rhs : TimeDelta) : Option PravegaTimestamp :=
  match self.nanoseconds, rhs.nanoseconds with
  | some this, some rhs =>
      (i128 checks (this.toNat - rhs)).map fun n => ⟨some (asU64 n)⟩
  | _, _ => some ⟨none⟩

/-- `self + rhs`, likewise. -/
def PravegaTimestamp.add (checks : Bool) (self : PravegaTimestamp)
    (rhs : TimeDelta) : Option PravegaTimestamp :=
  match self.nanoseconds, rhs.nanoseconds with
  | some this, some rhs =>
      (i128 checks (this.toNat + rhs)).map fun n => ⟨some (asU64 n)⟩
  | _, _ => some ⟨none⟩

theorem PravegaTimestamp.add_natCast {checks : Bool} {n : UInt64} {delta : Nat}
    (h : delta < 2 ^ 64) : PravegaTimestamp.add checks ⟨some n⟩ ⟨some delta⟩ =
      some ⟨some (asU64 (n.toNat + delta : Nat))⟩ := by
  have hn := n.toNat_lt
  rw [PravegaTimestamp.add]
  dsimp only
  rw [← Int.natCast_add, i128_of_range (by omega) (by omega)]
  rfl

/-- Where the sum fits it is not cut. -/
theorem PravegaTimestamp.add_of_lt {checks : Bool} {n : UInt64} {delta : Nat}
    (h : n.toNat + delta < 2 ^ 64) : PravegaTimestamp.add checks ⟨some n⟩ ⟨some delta⟩ =
      some ⟨some (UInt64.ofNat (n.toNat + delta))⟩ := by
  rw [add_natCast (by omega), asU64_natCast h]

end GstPravega.Video
