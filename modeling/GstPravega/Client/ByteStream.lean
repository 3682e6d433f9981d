import GstPravega.Lib.Io
import GstPravega.Lib.Program

/-!
# The byte streams of the client

What the code is written against. A byte stream is a sequence of bytes at fixed
offsets; appending extends it, truncating moves its head forward and never
back, and reading below the head fails. Offsets are `i64` in the client, so a
stream is shorter than `2 ^ 63`.

A data stream and its index stream go together. Code that reads and truncates
them is a program over `StreamCmd`; `Streams.answer` is what the commands do
when nothing else happens.
-/

namespace GstPravega.Client

open GstPravega.Lib

structure ByteStream where
  head : Nat
  bytes : List UInt8
  tail_lt : bytes.length < 2 ^ 63
  deriving DecidableEq

namespace ByteStream

theorem nil_tail_lt : ([] : List UInt8).length < 2 ^ 63 := by decide

def tail (st : ByteStream) : Nat := st.bytes.length

/-- `n` bytes at an offset. -/
def read (st : ByteStream) (offset n : Nat) : Except IoError (List UInt8) :=
  if offset < st.head then .error ⟨.other, "segment truncated"⟩
  else if st.tail < offset + n then
    .error ⟨.unexpectedEof, "failed to fill whole buffer"⟩
  else .ok ((st.bytes.drop offset).take n)

def truncateDataBefore (st : ByteStream) (offset : Int) : ByteStream :=
  { st with head := max st.head offset.toNat }

@[simp] theorem truncateDataBefore_bytes (st : ByteStream) (offset : Int) :
    (st.truncateDataBefore offset).bytes = st.bytes := rfl

@[simp] theorem truncateDataBefore_head (st : ByteStream) (offset : Int) :
    (st.truncateDataBefore offset).head = max st.head offset.toNat := rfl

theorem read_of_le {st : ByteStream} {offset n : Nat} (h : st.head ≤ offset)
    (h' : offset + n ≤ st.tail) :
    st.read offset n = .ok ((st.bytes.drop offset).take n) := by
  rw [read, if_neg (Nat.not_lt.mpr h), if_neg (Nat.not_lt.mpr h')]

theorem read_ok {st : ByteStream} {offset n : Nat} {bs : List UInt8}
    (h : st.read offset n = .ok bs) :
    st.head ≤ offset ∧ offset + n ≤ st.tail ∧
      bs = (st.bytes.drop offset).take n := by
  rw [read] at h
  split at h
  · cases h
  · split at h
    · cases h
    · injection h with h
      exact ⟨by omega, by omega, h.symm⟩

end ByteStream

/-- Which of the two streams. -/
inductive Stream where
  | data
  | index
  deriving DecidableEq, Repr

structure Streams where
  data : ByteStream
  index : ByteStream
  deriving DecidableEq

def Streams.get (w : Streams) : Stream → ByteStream
  | .data => w.data
  | .index => w.index

def Streams.set (w : Streams) (st : ByteStream) : Stream → Streams
  | .data => { w with data := st }
  | .index => { w with index := st }

inductive StreamCmd where
  | currentHead (s : Stream)
  | seekEnd (s : Stream)
  | read (s : Stream) (offset n : Nat)
  | truncateDataBefore (s : Stream) (offset : Int)
  deriving DecidableEq, Repr

def StreamCmd.Res : StreamCmd → Type
  | .currentHead _ => Except IoError Nat
  | .seekEnd _ => Except IoError Nat
  | .read .. => Except IoError (List UInt8)
  | .truncateDataBefore .. => Except IoError Unit

/-- The streams left alone: every command succeeds but a read out of bounds. -/
def Streams.answer : (c : StreamCmd) → Streams → c.Res × Streams
  | .currentHead s, w => (.ok (w.get s).head, w)
  | .seekEnd s, w => (.ok (w.get s).tail, w)
  | .read s offset n, w => ((w.get s).read offset n, w)
  | .truncateDataBefore s offset, w =>
      (.ok (), w.set ((w.get s).truncateDataBefore offset) s)

/-- Code over the streams. It ends with a value, an error, or a panic. -/
abbrev StreamM := ExceptT Fault (Program StreamCmd StreamCmd.Res)

namespace StreamM

/-- The `?` operator. -/
def lift {α : Type} (r : Except IoError α) : StreamM α :=
  ExceptT.mk (.ret (r.mapError Fault.error))

/-- A sum or difference that may panic. -/
def checked {α : Type} : Option α → StreamM α
  | some a => pure a
  | none => throw .panicked

/-- `unwrap`. -/
def unwrap {α : Type} : Except IoError α → StreamM α
  | .ok a => pure a
  | .error _ => throw .panicked

/-- The `Result` of a call, for the caller to look at. A panic is not one. -/
def attempt {α : Type} (p : StreamM α) : StreamM (Except IoError α) :=
  ExceptT.mk (p.run >>= fun
    | .ok a => .ret (.ok (.ok a))
    | .error (.error e) => .ret (.ok (.error e))
    | .error e => .ret (.error e))

def currentHead (s : Stream) : StreamM Nat :=
  ExceptT.mk (.call (.currentHead s) fun (r : Except IoError Nat) => (lift r).run)

def seekEnd (s : Stream) : StreamM Nat :=
  ExceptT.mk (.call (.seekEnd s) fun (r : Except IoError Nat) => (lift r).run)

def read (s : Stream) (offset n : Nat) : StreamM (List UInt8) :=
  ExceptT.mk (.call (.read s offset n) fun (r : Except IoError (List UInt8)) =>
    (lift r).run)

def truncateDataBefore (s : Stream) (offset : Int) :
    StreamM (Except IoError Unit) :=
  ExceptT.mk (.call (.truncateDataBefore s offset) fun (r : Except IoError Unit) =>
    .ret (.ok r))

/-! ## Running alone -/

section Alone

open Program

variable {α : Type} {G : StreamCmd → Streams → Prop} {w w' : Streams}

theorem yields_pure (a : α) :
    Yields Streams.answer G (pure a : StreamM α).run w (.ok a) w := yields_ret

theorem yields_throw (e : Fault) :
    Yields Streams.answer G (throw e : StreamM α).run w (.error e) w := yields_ret

theorem yields_checked {o : Option α} {a : α} (h : o = some a) :
    Yields Streams.answer G (checked o).run w (.ok a) w := by
  subst h
  exact yields_ret

theorem yields_currentHead {s : Stream} (hG : G (.currentHead s) w) :
    Yields Streams.answer G (currentHead s).run w (.ok (w.get s).head) w :=
  yields_call hG yields_ret

theorem yields_seekEnd {s : Stream} (hG : G (.seekEnd s) w) :
    Yields Streams.answer G (seekEnd s).run w (.ok (w.get s).tail) w :=
  yields_call hG yields_ret

theorem yields_read {s : Stream} {offset n : Nat} {bs : List UInt8}
    (hG : G (.read s offset n) w) (h : (w.get s).read offset n = .ok bs) :
    Yields Streams.answer G (read s offset n).run w (.ok bs) w := by
  refine yields_call hG ?_
  show Yields _ G (lift ((w.get s).read offset n)).run w (.ok bs) w
  rw [h]
  exact yields_ret

theorem yields_truncateDataBefore {s : Stream} {offset : Int}
    (hG : G (.truncateDataBefore s offset) w) :
    Yields Streams.answer G (truncateDataBefore s offset).run w (.ok (.ok ()))
      (w.set ((w.get s).truncateDataBefore offset) s) :=
  yields_call hG yields_ret

theorem yields_attempt_ok {p : StreamM α} {a : α}
    (h : Yields Streams.answer G p.run w (.ok a) w') :
    Yields Streams.answer G (attempt p).run w (.ok (.ok a)) w' :=
  Yields.bind h yields_ret

theorem yields_attempt_error {p : StreamM α} {e : IoError}
    (h : Yields Streams.answer G p.run w (.error (.error e)) w') :
    Yields Streams.answer G (attempt p).run w (.ok (.error e)) w' :=
  Yields.bind h yields_ret

end Alone

/-! ## Running beside others -/

section Beside

open Program

variable {α σ : Type} {A : Arena σ StreamCmd StreamCmd.Res} {s : σ}

theorem safeE_checked {o : Option α} {Q : α → σ → Prop}
    (h : ∀ a, o = some a → ∀ s', A.rely s s' → A.inv s' → Q a s') :
    SafeE A (checked o) Q s := by
  cases o with
  | none => exact safeE_throw
  | some a => exact safeE_pure (h a rfl)

theorem safeE_unwrap {r : Except IoError α} {Q : α → σ → Prop}
    (h : ∀ a, r = .ok a → ∀ s', A.rely s s' → A.inv s' → Q a s') :
    SafeE A (unwrap r) Q s := by
  cases r with
  | error e => exact safeE_throw
  | ok a => exact safeE_pure (h a rfl)

theorem safeE_attempt {p : StreamM α} {Q : α → σ → Prop} (h : SafeE A p Q s)
    (hQ : ∀ a s₁ s₂, Q a s₁ → A.rely s₁ s₂ → A.inv s₂ → Q a s₂) :
    SafeE A (attempt p) (fun r s' => ∀ a, r = .ok a → Q a s') s := by
  refine safe_bind (Safe.mono h fun r s₁ hr => ?_)
  match r, hr with
  | .ok a, hr =>
      intro s₂ hs hi r' hr' b hb
      cases hr'
      cases hb
      exact hQ a s₁ s₂ (hr a rfl) hs hi
  | .error (.error e), _ =>
      intro s₂ _ _ r' hr' b hb
      cases hr'
      cases hb
  | .error .panicked, _ => exact fun _ _ _ _ hr' => nomatch hr'
  | .error .outOfFuel, _ => exact fun _ _ _ _ hr' => nomatch hr'

end Beside

end StreamM

end GstPravega.Client
