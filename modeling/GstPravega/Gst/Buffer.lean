import Mathlib.Tactic.Linarith

/-!
# Buffers

What the elements read and set of a GStreamer buffer, and how one of their
calls may end without success.
-/

namespace GstPravega.Gst

/-- `gst::ClockTime`: nanoseconds, or none. -/
abbrev ClockTime := Option UInt64

/-- `+` on clock times: none when either is, or when the sum does not fit. -/
def ClockTime.add : ClockTime → ClockTime → ClockTime
  | some a, some b => if a.toNat + b.toNat < 2 ^ 64 then some (a + b) else none
  | _, _ => none

/-- `-`, likewise. -/
def ClockTime.sub : ClockTime → ClockTime → ClockTime
  | some a, some b => if b ≤ a then some (a - b) else none
  | _, _ => none

/-- `<=` on clock times: none comes first. -/
def ClockTime.le : ClockTime → ClockTime → Bool
  | none, _ => true
  | some _, none => false
  | some a, some b => decide (a ≤ b)

/-- `GST_CLOCK_TIME_NONE`: the number that stands for none in a buffer. -/
def GST_CLOCK_TIME_NONE : UInt64 := 18446744073709551615

theorem le_GST_CLOCK_TIME_NONE (n : UInt64) : n ≤ GST_CLOCK_TIME_NONE := by
  have h := n.toNat_lt
  have hnone : GST_CLOCK_TIME_NONE.toNat = 2 ^ 64 - 1 := rfl
  rw [UInt64.le_iff_toNat_le]
  omega

/-- What is read where a clock time was set: the number that stands for none is none. -/
def ClockTime.stored (t : ClockTime) : ClockTime :=
  if t = some GST_CLOCK_TIME_NONE then none else t

theorem ClockTime.stored_ne (t : ClockTime) : t.stored ≠ some GST_CLOCK_TIME_NONE := by
  rw [stored]
  split
  · exact nofun
  · next h => exact h

theorem ClockTime.stored_of_ne {t : ClockTime} (h : t ≠ some GST_CLOCK_TIME_NONE) :
    t.stored = t :=
  if_neg h

@[simp]
theorem ClockTime.stored_none : ClockTime.stored none = none := rfl

theorem ClockTime.stored_eq_some_iff {t : ClockTime} {n : UInt64} :
    t.stored = some n ↔ t = some n ∧ n ≠ GST_CLOCK_TIME_NONE := by
  constructor
  · intro h
    have hne : t ≠ some GST_CLOCK_TIME_NONE := by
      rintro rfl
      cases h
    rw [stored_of_ne hne] at h
    exact ⟨h, fun hn => hne (hn ▸ h)⟩
  · rintro ⟨rfl, hn⟩
    exact stored_of_ne fun h => hn (Option.some_inj.mp h)

theorem ClockTime.stored_some_inj {m n : UInt64} :
    ClockTime.stored (some m) = ClockTime.stored (some n) ↔ m = n := by
  refine ⟨fun h => ?_, fun h => h ▸ rfl⟩
  by_cases hm : some m = some GST_CLOCK_TIME_NONE
  · by_cases hn : some n = some GST_CLOCK_TIME_NONE
    · exact Option.some_inj.mp (hm.trans hn.symm)
    · rw [stored_of_ne hn, stored, if_pos hm] at h
      cases h
  · rw [stored_of_ne hm] at h
    exact (Option.some_inj.mp (stored_eq_some_iff.mp h.symm).1).symm

/-- A time in a buffer. -/
structure StoredTime where
  time : ClockTime
  storable : time ≠ some GST_CLOCK_TIME_NONE
  deriving DecidableEq, Repr

/-- A time set in a buffer. -/
def ClockTime.store (t : ClockTime) : StoredTime := ⟨t.stored, t.stored_ne⟩

theorem StoredTime.store_time (s : StoredTime) : ClockTime.store s.time = s := by
  obtain ⟨time, storable⟩ := s
  rw [ClockTime.store, StoredTime.mk.injEq]
  exact ClockTime.stored_of_ne storable

structure BufferFlags where
  deltaUnit : Bool
  discont : Bool
  resync : Bool
  syncAfter : Bool
  deriving DecidableEq, Repr

def BufferFlags.empty : BufferFlags := ⟨false, false, false, false⟩

structure Buffer where
  storedPts : StoredTime
  duration : ClockTime
  flags : BufferFlags
  payload : List UInt8
  /-- Whether `map_readable` succeeds. -/
  readable : Bool
  offset : Option Nat
  offsetEnd : Option Nat
  deriving DecidableEq, Repr

def Buffer.pts (buffer : Buffer) : ClockTime := buffer.storedPts.time

theorem Buffer.pts_ne (buffer : Buffer) : buffer.pts ≠ some GST_CLOCK_TIME_NONE :=
  buffer.storedPts.storable

/-- The error domains used when an element reports an error. -/
inductive ErrorDomain where
  | coreFailed
  | resourceSettings
  | resourceWrite
  | resourceRead
  deriving DecidableEq, Repr

/-- How a call of an element ends otherwise than well: with a reported error,
or by panicking. `outOfFuel` is the model's own. -/
inductive Failure where
  | error (domain : ErrorDomain) (message : String)
  | panicked
  | outOfFuel
  deriving DecidableEq, Repr

/-- How a call that is to give a buffer ends without one. -/
inductive FlowError where
  | eos
  | failed (f : Failure)
  deriving DecidableEq, Repr

/-- How a chain function ends without success. `failed` is `FlowError::Error` with
nothing reported; an error of the push downstream is handed on. `outOfFuel` is the
model's own. -/
inductive ChainError where
  | failed
  | reported (domain : ErrorDomain) (message : String)
  | downstream (e : FlowError)
  | panicked
  | outOfFuel
  deriving DecidableEq, Repr

/-- `gst::Segment` in time format; its times are stored as those of a buffer are. -/
structure Segment where
  start : ClockTime
  time : ClockTime
  position : ClockTime
  deriving DecidableEq, Repr

/-- The segment an element gets right after its start. -/
def Segment.initial : Segment := ⟨some 0, some 0, some 0⟩

end GstPravega.Gst
