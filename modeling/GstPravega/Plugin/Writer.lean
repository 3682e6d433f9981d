import GstPravega.Client.ByteStream

/-!
# The writer stack of the sink

Data goes through a counting writer and a buffered writer to the byte writer of
the client. Each call that reaches the client is one command: an append is
taken whole, so what the buffered writer hands on in one call becomes durable
as one piece or not at all. The index has no buffer; its records are appended
one by one.
-/

namespace GstPravega.Plugin

open GstPravega.Lib GstPravega.Client

/-- The calls of the sink that leave the process. -/
inductive SinkCmd where
  | createClientConfig (controller : String) (keycloakFile : Option String)
  | createScope (scope : String)
  | createStream (scope stream : String)
  | seekToTail (s : Stream)
  | append (s : Stream) (bytes : List UInt8)
  | flush (s : Stream)
  | seal (s : Stream)
  | spawnRetention (limits : Option Int × Option Nat) (intervalSeconds : Nat)
  | joinRetention
  deriving DecidableEq, Repr

def SinkCmd.Res : SinkCmd → Type
  | .createClientConfig .. => Except String Unit
  | .createScope _ => Except String Unit
  | .createStream .. => Except String Unit
  | .seekToTail _ => Nat
  | .append .. => Except IoError Unit
  | .flush _ => Except IoError Unit
  | .seal _ => Except IoError Unit
  | .spawnRetention .. => Unit
  | .joinRetention => Unit

abbrev SinkProgram := Program SinkCmd SinkCmd.Res

/-- `std::io::BufWriter` over the data stream. -/
structure BufWriter where
  capacity : Nat
  buf : List UInt8
  deriving DecidableEq, Repr

namespace BufWriter

def withCapacity (capacity : Nat) : BufWriter := ⟨capacity, []⟩

def spareCapacity (self : BufWriter) : Nat := self.capacity - self.buf.length

/-- `flush_buf`. An empty buffer is not written. -/
def flushBuf (self : BufWriter) : SinkProgram (Except IoError Unit × BufWriter) :=
  if self.buf = [] then .ret (.ok (), self)
  else
    .call (.append .data self.buf) fun (r : Except IoError Unit) =>
      match r with
      | .ok () => .ret (.ok (), { self with buf := [] })
      | .error e => .ret (.error e, self)

/-- The end of `write_cold`: past the buffer, or into it. -/
def writeThrough (self : BufWriter) (bytes : List UInt8) :
    SinkProgram (Except IoError Unit × BufWriter) :=
  if self.capacity ≤ bytes.length then
    .call (.append .data bytes) fun (r : Except IoError Unit) => .ret (r, self)
  else .ret (.ok (), { self with buf := self.buf ++ bytes })

/-- `write`, which here takes all it is given. -/
def write (self : BufWriter) (bytes : List UInt8) :
    SinkProgram (Except IoError Unit × BufWriter) :=
  if bytes.length < self.spareCapacity then
    .ret (.ok (), { self with buf := self.buf ++ bytes })
  else if self.spareCapacity < bytes.length then
    self.flushBuf >>= fun
      | (.ok (), self) => self.writeThrough bytes
      | (.error e, self) => .ret (.error e, self)
  else self.writeThrough bytes

/-- What fills the room that is left exactly is all the buffer holds only if that is
empty. -/
theorem nil_or_lt_capacity {self : BufWriter} {bytes : List UInt8}
    (hpos : 0 < bytes.length) (hge : ¬ bytes.length < self.spareCapacity)
    (hle : ¬ self.spareCapacity < bytes.length) :
    self.buf = [] ∨ bytes.length < self.capacity := by
  rw [spareCapacity] at hge hle
  by_cases hnil : self.buf = []
  · exact Or.inl hnil
  · have := List.length_pos_iff.mpr hnil
    exact Or.inr (by omega)

def flush (self : BufWriter) : SinkProgram (Except IoError Unit × BufWriter) :=
  self.flushBuf >>= fun
    | (.ok (), self) =>
        .call (.flush .data) fun (r : Except IoError Unit) => .ret (r, self)
    | (.error e, self) => .ret (.error e, self)

end BufWriter

/-- Write adaptor that tracks the current offset so it can be returned without
seeking the inner writer. -/
structure CountingWriter where
  inner : BufWriter
  offset : Nat
  deriving DecidableEq, Repr

namespace CountingWriter

/-- `CountingWriter::new`, with the offset the seek of the inner writer gives:
nothing is buffered yet, so it is the one of the byte writer. -/
def new (writer : BufWriter) (currentOffset : Nat) : CountingWriter :=
  ⟨writer, currentOffset⟩

/-- `write_all`: one call of `write`, since that takes everything. -/
def writeAll (self : CountingWriter) (bytes : List UInt8) :
    SinkProgram (Except IoError Unit × CountingWriter) :=
  self.inner.write bytes >>= fun
    | (.ok (), inner) => .ret (.ok (), ⟨inner, self.offset + bytes.length⟩)
    | (.error e, inner) => .ret (.error e, ⟨inner, self.offset⟩)

def flush (self : CountingWriter) :
    SinkProgram (Except IoError Unit × CountingWriter) :=
  self.inner.flush >>= fun (r, inner) => .ret (r, ⟨inner, self.offset⟩)

/-- `seek(SeekFrom::Current(0))`. -/
def position (self : CountingWriter) : Nat := self.offset

end CountingWriter

end GstPravega.Plugin
