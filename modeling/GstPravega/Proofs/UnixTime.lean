import GstPravega.Video.Timestamp

/-!
# Unix time and back

From Unix time to TAI always adds the 37 leap seconds of today. Back they are subtracted
only from times since the first leap second. So the two directions are inverse from then
on, and not before; and just after it, time is behind what it was just before.
-/

namespace GstPravega.Video.PravegaTimestamp

open GstPravega.Lib

/-- The leap seconds that are added. -/
def utcToTaiNanos : Nat := utcToTaiSeconds.toNat * 10 ^ 9

/-- The time from which on they are subtracted. -/
def zeroLeapNanos : Nat := zeroLeapSecondsUntilSeconds.toNat * 10 ^ 9

theorem utcToTaiNanos_eq : utcToTaiNanos = 37000000000 := by decide

theorem zeroLeapNanos_eq : zeroLeapNanos = 63072000000000000 := by decide

/-- `to_unix_nanoseconds` on numbers. -/
def unixOf (n : Nat) : Nat := if n < zeroLeapNanos then n else n - utcToTaiNanos

theorem fromUnixNanoseconds_of_lt (checks : Bool) {u : UInt64}
    (h : u.toNat + utcToTaiNanos < 2 ^ 64) :
    ∃ n : UInt64, fromUnixNanoseconds checks (some u) = some ⟨some n⟩ ∧
      n.toNat = u.toNat + utcToTaiNanos := by
  have htai : (utcToTaiSeconds * 1000000000).toNat = utcToTaiNanos := by decide
  rw [← htai] at h ⊢
  refine ⟨u + utcToTaiSeconds * 1000000000, ?_, toNat_add_of_lt h⟩
  rw [fromUnixNanoseconds, u64Add_of_lt h]
  rfl

theorem toUnixNanoseconds_some (n : UInt64) :
    ∃ u : UInt64, toUnixNanoseconds ⟨some n⟩ = some u ∧ u.toNat = unixOf n.toNat := by
  have hzero : (zeroLeapSecondsUntilSeconds * 1000000000).toNat = zeroLeapNanos := by decide
  have htai : (utcToTaiSeconds * 1000000000).toNat = utcToTaiNanos := by decide
  rw [toUnixNanoseconds]
  dsimp only
  split
  · next hlt =>
      rw [UInt64.lt_iff_toNat_lt, hzero] at hlt
      exact ⟨n, rfl, by rw [unixOf, if_pos hlt]⟩
  · next hge =>
      rw [UInt64.lt_iff_toNat_lt, hzero] at hge
      refine ⟨_, rfl, ?_⟩
      have hle : utcToTaiSeconds * 1000000000 ≤ n := by
        rw [UInt64.le_iff_toNat_le, htai, utcToTaiNanos_eq]
        rw [zeroLeapNanos_eq] at hge
        omega
      rw [UInt64.toNat_sub_of_le _ _ hle, htai, unixOf, if_neg hge]

theorem unixOf_add_iff (u : Nat) :
    unixOf (u + utcToTaiNanos) = u ↔ zeroLeapNanos ≤ u + utcToTaiNanos := by
  rw [unixOf, utcToTaiNanos_eq, zeroLeapNanos_eq]
  split <;> omega

theorem unixOf_add_tai_iff {n : Nat} : unixOf n + utcToTaiNanos = n ↔ zeroLeapNanos ≤ n := by
  rw [unixOf, utcToTaiNanos_eq, zeroLeapNanos_eq]
  split <;> omega

/-- Less than the leap seconds behind the first of them, time is behind what it was. -/
theorem unixOf_le_iff {a b : Nat} (h : a ≤ b) : unixOf a ≤ unixOf b ↔
    ¬ (a < zeroLeapNanos ∧ zeroLeapNanos ≤ b ∧ b < a + utcToTaiNanos) := by
  rw [unixOf, unixOf, utcToTaiNanos_eq, zeroLeapNanos_eq]
  split <;> split <;> omega

/-- The leap seconds can be added again. -/
theorem unixOf_add_lt {n : Nat} (h : n < 2 ^ 64) : unixOf n + utcToTaiNanos < 2 ^ 64 := by
  rw [unixOf, utcToTaiNanos_eq, zeroLeapNanos_eq]
  split <;> omega

theorem toUnix_fromUnix_iff {u n : UInt64} (hn : n.toNat = u.toNat + utcToTaiNanos) :
    toUnixNanoseconds ⟨some n⟩ = some u ↔ zeroLeapNanos ≤ u.toNat + utcToTaiNanos := by
  obtain ⟨u', hto, hu'⟩ := toUnixNanoseconds_some n
  rw [hto, Option.some_inj, ← UInt64.toNat_inj, hu', hn]
  exact unixOf_add_iff u.toNat

theorem fromUnix_toUnix_iff (checks : Bool) (n : UInt64) :
    fromUnixNanoseconds checks (toUnixNanoseconds ⟨some n⟩) = some ⟨some n⟩ ↔
      zeroLeapNanos ≤ n.toNat := by
  obtain ⟨u, hto, hu⟩ := toUnixNanoseconds_some n
  have hfits : u.toNat + utcToTaiNanos < 2 ^ 64 := hu ▸ unixOf_add_lt n.toNat_lt
  obtain ⟨n', hfrom, hn'⟩ := fromUnixNanoseconds_of_lt checks hfits
  rw [hto, hfrom, Option.some_inj, PravegaTimestamp.mk.injEq, Option.some_inj, ← UInt64.toNat_inj,
    hn', hu]
  exact unixOf_add_tai_iff

/-- The order of what two timestamps are converted to, in which a missing one comes first. -/
def UnixOrdered (t₁ t₂ : PravegaTimestamp) : Prop :=
  ∀ u₁, t₁.toUnixNanoseconds = some u₁ → ∃ u₂, t₂.toUnixNanoseconds = some u₂ ∧ u₁ ≤ u₂

/-- One is before the first leap second, the other less than the leap seconds later and not
before it. -/
def AcrossLeap (t₁ t₂ : PravegaTimestamp) : Prop :=
  ∃ a b, t₁.nanoseconds = some a ∧ t₂.nanoseconds = some b ∧ a.toNat < zeroLeapNanos ∧
    zeroLeapNanos ≤ b.toNat ∧ b.toNat < a.toNat + utcToTaiNanos

theorem unixOrdered_iff {t₁ t₂ : PravegaTimestamp} (h : t₁ ≤ t₂) :
    UnixOrdered t₁ t₂ ↔ ¬ AcrossLeap t₁ t₂ := by
  obtain ⟨_ | a⟩ := t₁
  · constructor
    · rintro _ ⟨_, _, ha, _⟩
      cases ha
    · intro _ _ hu
      cases hu
  · obtain ⟨_ | b⟩ := t₂
    · rw [le_iff, key_some, key_none] at h
      exact absurd h (Nat.not_succ_le_zero _)
    · rw [le_iff, key_some, key_some] at h
      have hab : a.toNat ≤ b.toNat := Nat.le_of_succ_le_succ h
      obtain ⟨u₁, hto₁, hu₁⟩ := toUnixNanoseconds_some a
      obtain ⟨u₂, hto₂, hu₂⟩ := toUnixNanoseconds_some b
      have hle : UnixOrdered ⟨some a⟩ ⟨some b⟩ ↔ unixOf a.toNat ≤ unixOf b.toNat := by
        rw [← hu₁, ← hu₂, ← UInt64.le_iff_toNat_le]
        constructor
        · intro hordered
          obtain ⟨u, hu, hle⟩ := hordered u₁ hto₁
          cases hto₂.symm.trans hu
          exact hle
        · intro hle u hu
          cases hto₁.symm.trans hu
          exact ⟨u₂, hto₂, hle⟩
      rw [hle, unixOf_le_iff hab]
      refine not_congr ⟨fun hnear => ⟨a, b, rfl, rfl, hnear⟩, ?_⟩
      rintro ⟨a', b', ha, hb, hnear⟩
      cases ha
      cases hb
      exact hnear

/-- Reading a text, and writing what was read. -/
theorem toIso8601_tryFrom_iff (checks : Bool) {format : UInt64 → String}
    {parse : String → Option Int} {u : UInt64} (hfits : u.toNat + utcToTaiNanos < 2 ^ 64)
    (hparse : parse (format u) = some (u.toNat : Int))
    (hformat : ∀ u' : UInt64, u'.toNat = u.toNat + utcToTaiNanos → format u' ≠ format u) :
    (∃ t, tryFrom checks parse (format u) = some (some t) ∧
        t.toIso8601 format = some (format u)) ↔ zeroLeapNanos ≤ u.toNat + utcToTaiNanos := by
  obtain ⟨n, hfrom, hn⟩ := fromUnixNanoseconds_of_lt checks hfits
  have htry : tryFrom checks parse (format u) = some (some ⟨some n⟩) := by
    rw [tryFrom, hparse]
    dsimp only
    rw [if_pos (Int.natCast_nonneg _), Int.toNat_natCast, UInt64.ofNat_toNat, hfrom]
    rfl
  obtain ⟨u', hto, hu'⟩ := toUnixNanoseconds_some n
  rw [← toUnix_fromUnix_iff hn]
  constructor
  · rintro ⟨t, ht, hiso⟩
    cases htry.symm.trans ht
    rw [toIso8601, hto, Option.map_some, Option.some_inj] at hiso
    by_contra hne
    refine hformat u' ?_ hiso
    rw [toUnix_fromUnix_iff hn, not_le] at hne
    rw [hu', hn, unixOf, if_pos hne]
  · intro hback
    exact ⟨_, htry, by rw [toIso8601, hback, Option.map_some]⟩

/-- **Unix time and back.** The conversions are inverse to each other exactly for times
that are not before the first leap second as TAI counts them, so that exactly these texts are
written as they were read. They keep the order of two timestamps exactly when those are not
close to each other across the first leap second. -/
theorem unix_conversions_iff (checks : Bool) (format : UInt64 → String)
    (parse : String → Option Int) :
    (∀ u : UInt64, u.toNat + utcToTaiNanos < 2 ^ 64 →
      ∃ t, fromUnixNanoseconds checks (some u) = some t ∧
        (t.toUnixNanoseconds = some u ↔ zeroLeapNanos ≤ u.toNat + utcToTaiNanos)) ∧
    (∀ n : UInt64, utcToTaiNanos ≤ n.toNat →
      (fromUnixNanoseconds checks (toUnixNanoseconds ⟨some n⟩) = some ⟨some n⟩ ↔
        zeroLeapNanos ≤ n.toNat)) ∧
    (∀ t₁ t₂ : PravegaTimestamp, t₁ ≤ t₂ → (UnixOrdered t₁ t₂ ↔ ¬ AcrossLeap t₁ t₂)) ∧
    ∀ u : UInt64, u.toNat + utcToTaiNanos < 2 ^ 64 →
      parse (format u) = some (u.toNat : Int) →
      (∀ u' : UInt64, u'.toNat = u.toNat + utcToTaiNanos → format u' ≠ format u) →
      ((∃ t, tryFrom checks parse (format u) = some (some t) ∧
        t.toIso8601 format = some (format u)) ↔
          zeroLeapNanos ≤ u.toNat + utcToTaiNanos) := by
  refine ⟨fun u hfits => ?_, fun n _ => fromUnix_toUnix_iff checks n,
    fun t₁ t₂ h => unixOrdered_iff h, fun u hfits hparse hformat =>
      toIso8601_tryFrom_iff checks hfits hparse hformat⟩
  obtain ⟨n, hfrom, hn⟩ := fromUnixNanoseconds_of_lt checks hfits
  exact ⟨_, hfrom, toUnix_fromUnix_iff hn⟩

/-- Two times of the third of February 2001, as they are written. -/
def fourOClock (u : UInt64) : String :=
  if u = 981172800000000000 then "2001-02-03T04:00:00.000000000Z"
  else if u = 981172837000000000 then "2001-02-03T04:00:37.000000000Z"
  else ""

def readFourOClock (s : String) : Option Int :=
  if s = "2001-02-03T04:00:00.000000000Z" then some 981172800000000000
  else if s = "2001-02-03T04:00:37.000000000Z" then some 981172837000000000
  else none

theorem unix_conversions_fourOClock :
    ∃ t, tryFrom true readFourOClock (fourOClock 981172800000000000) = some (some t) ∧
      t.toIso8601 fourOClock = some (fourOClock 981172800000000000) := by
  refine ((unix_conversions_iff true fourOClock readFourOClock).2.2.2 981172800000000000
    (by decide +kernel) (by decide +kernel) ?_).mpr (by decide +kernel)
  intro u' hu'
  have hthen : u' = 981172837000000000 := by
    rw [← UInt64.toNat_inj, hu']
    decide +kernel
  rw [hthen]
  decide +kernel

/-- The epoch of Unix is read as 37 s after that of TAI, and written as that; a time of a
hundred seconds is read back as 137; and time goes back at the end of 1971. -/
theorem unix_conversions_fail_early :
    fromUnixNanoseconds true (some 0) = some ⟨some 37000000000⟩ ∧
    toUnixNanoseconds ⟨some 37000000000⟩ ≠ some 0 ∧
    fromUnixNanoseconds true (toUnixNanoseconds ⟨some 100000000000⟩) =
      some ⟨some 137000000000⟩ ∧
    (⟨some 63071999999999999⟩ : PravegaTimestamp) ≤ ⟨some 63072000000000000⟩ ∧
    toUnixNanoseconds ⟨some 63071999999999999⟩ = some 63071999999999999 ∧
    toUnixNanoseconds ⟨some 63072000000000000⟩ = some 63071963000000000 := by
  decide +kernel

end GstPravega.Video.PravegaTimestamp
