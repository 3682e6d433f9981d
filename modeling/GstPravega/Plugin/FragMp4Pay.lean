import GstPravega.Gst.Buffer
import GstPravega.Lib.BigEndian
import GstPravega.Lib.Program

/-!
# fragmp4pay

The element takes a fragmented MP4 stream in pieces and hands on one buffer for each
fragment, a moof atom and an mdat atom. A fragment with a key frame is prefixed with
the ftyp and the moov atom, so that a player can start there.

A call of the chain function is a program over the pushes to the element downstream.
-/

namespace GstPravega.Plugin

open GstPravega.Lib GstPravega.Gst

namespace FragMp4Pay

def ATOM_TYPE_FTYPE : Nat := 1718909296
def ATOM_TYPE_MOOV : Nat := 1836019574
def ATOM_TYPE_MOOF : Nat := 1836019558
def ATOM_TYPE_MDAT : Nat := 1835295092

structure Mp4Atom where
  atomType : Nat
  /-- Includes atom size and type. -/
  atomBytes : List UInt8
  deriving DecidableEq, Repr

structure Mp4Parser where
  buf : List UInt8
  deriving DecidableEq, Repr

namespace Mp4Parser

def new : Mp4Parser := ⟨[]⟩

def add (self : Mp4Parser) (buf : List UInt8) : Mp4Parser := ⟨self.buf ++ buf⟩

/-- Whether all or part of an MDAT body has been added. -/
def haveMdat (self : Mp4Parser) : Bool :=
  if self.buf.length > 8 then beNat ((self.buf.drop 4).take 4) = ATOM_TYPE_MDAT
  else false

/-- The atom at the front, once all of it is there. More than that is not expected:
`none` is the failed assertion. -/
def popAtom (self : Mp4Parser) : Option (Option Mp4Atom × Mp4Parser) :=
  if self.buf.length ≥ 8 then
    let atomSize := beNat (self.buf.take 4)
    let atomType := beNat ((self.buf.drop 4).take 4)
    if self.buf.length ≥ atomSize then
      if self.buf.length = atomSize then
        some (some ⟨atomType, self.buf.take atomSize⟩, ⟨[]⟩)
      else none
    else some (none, self)
  else some (none, self)

end Mp4Parser

/-- A buffer with its DTS, which this element reads too. -/
structure PayBuffer extends Buffer where
  storedDts : StoredTime
  deriving DecidableEq, Repr

def PayBuffer.dts (buffer : PayBuffer) : ClockTime := buffer.storedDts.time

/-- Behind the atoms, the current fragment: its times, offsets and flags. -/
structure StartedState where
  mp4Parser : Mp4Parser
  ftypeAtom : Option Mp4Atom
  moovAtom : Option Mp4Atom
  moofAtom : Option Mp4Atom
  /-- Minimum PTS in fragment. -/
  fragmentPts : ClockTime
  /-- Minimum DTS in fragment. -/
  fragmentDts : ClockTime
  /-- Maximum PTS + duration in fragment. -/
  fragmentMaxPtsPlusDuration : ClockTime
  /-- Minimum offset in fragment. -/
  fragmentOffset : Option Nat
  /-- Maximum offset end in fragment. -/
  fragmentOffsetEnd : Option Nat
  fragmentBufferFlags : BufferFlags
  deriving DecidableEq, Repr

def fragmentFlags : BufferFlags := { BufferFlags.empty with deltaUnit := true }

def StartedState.default : StartedState where
  mp4Parser := Mp4Parser.new
  ftypeAtom := none
  moovAtom := none
  moofAtom := none
  fragmentPts := none
  fragmentDts := none
  fragmentMaxPtsPlusDuration := none
  fragmentOffset := none
  fragmentOffsetEnd := none
  fragmentBufferFlags := fragmentFlags

/-- `slice[pos..pos + bytes.len()].copy_from_slice(bytes)`, with the position behind it. -/
def copyFromSlice (slice : List UInt8) (pos : Nat) (bytes : List UInt8) :
    Option (List UInt8 × Nat) :=
  if pos + bytes.length ≤ slice.length then
    some (slice.take pos ++ bytes ++ slice.drop (pos + bytes.length), pos + bytes.length)
  else none

namespace StartedState

/-- A buffer with some of the MDAT body counts for the fragment. -/
def noteBuffer (st : StartedState) (buffer : PayBuffer) : StartedState :=
  let ptsPlusDuration := buffer.pts.add buffer.duration
  { st with
    fragmentPts :=
      if st.fragmentPts.isNone || !st.fragmentPts.le buffer.pts then buffer.pts
      else st.fragmentPts
    fragmentDts :=
      if st.fragmentDts.isNone || !st.fragmentDts.le buffer.dts then buffer.dts
      else st.fragmentDts
    fragmentMaxPtsPlusDuration :=
      if st.fragmentMaxPtsPlusDuration.isNone ||
          !ptsPlusDuration.le st.fragmentMaxPtsPlusDuration then ptsPlusDuration
      else st.fragmentMaxPtsPlusDuration
    fragmentOffset :=
      if buffer.offset.isSome &&
          (st.fragmentOffset.isNone || buffer.offset.getD 0 < st.fragmentOffset.getD 0) then
        buffer.offset
      else st.fragmentOffset
    fragmentOffsetEnd :=
      if buffer.offsetEnd.isSome && (st.fragmentOffsetEnd.isNone ||
          st.fragmentOffsetEnd.getD 0 < buffer.offsetEnd.getD 0) then buffer.offsetEnd
      else st.fragmentOffsetEnd
    fragmentBufferFlags :=
      { st.fragmentBufferFlags with
        deltaUnit :=
          if st.fragmentBufferFlags.deltaUnit && !buffer.flags.deltaUnit then false
          else st.fragmentBufferFlags.deltaUnit
        discont :=
          if buffer.flags.discont then true else st.fragmentBufferFlags.discont } }

def clearFragment (st : StartedState) : StartedState :=
  { st with
    fragmentPts := none
    fragmentDts := none
    fragmentMaxPtsPlusDuration := none
    fragmentOffset := none
    fragmentOffsetEnd := none
    fragmentBufferFlags := fragmentFlags }

/-- The bytes of the fragment, copied one atom after the other to a buffer of the length
they are to have. `none` is a panic: a range that the buffer does not have, or the failed
assertion that it is full. -/
def writeOutput (st : StartedState) (ftypeAtom moovAtom moofAtom mdatAtom : Mp4Atom) :
    Option (List UInt8) := do
  let includeHeader := !st.fragmentBufferFlags.deltaUnit
  let headerLen :=
    if includeHeader then ftypeAtom.atomBytes.length + moovAtom.atomBytes.length else 0
  let outputBufLen := headerLen + moofAtom.atomBytes.length + mdatAtom.atomBytes.length
  let slice := List.replicate outputBufLen 0
  let (slice, pos) ←
    if includeHeader then do
      let (slice, pos) ← copyFromSlice slice 0 ftypeAtom.atomBytes
      copyFromSlice slice pos moovAtom.atomBytes
    else some (slice, 0)
  let (slice, pos) ← copyFromSlice slice pos moofAtom.atomBytes
  let (slice, pos) ← copyFromSlice slice pos mdatAtom.atomBytes
  if pos = outputBufLen then some slice else none

/-- The buffer of the fragment. -/
def output (st : StartedState) (payload : List UInt8) : PayBuffer where
  storedPts := st.fragmentPts.store
  storedDts := st.fragmentDts.store
  duration := st.fragmentMaxPtsPlusDuration.sub st.fragmentPts
  offset := st.fragmentOffset
  offsetEnd := st.fragmentOffsetEnd
  flags := st.fragmentBufferFlags
  payload := payload
  readable := true

end StartedState

/-! ## `sink_chain` -/

inductive PayCmd where
  | push (buffer : PayBuffer)
  deriving DecidableEq, Repr

def PayCmd.Res : PayCmd → Type
  | .push _ => Except FlowError Unit

abbrev PayProgram := Program PayCmd PayCmd.Res

/-- Code that runs with the state locked. -/
abbrev PayM := ExceptT ChainError (StateT StartedState PayProgram)

namespace PayM

def push (buffer : PayBuffer) : PayM (Except FlowError Unit) :=
  ExceptT.mk fun st => .call (.push buffer) fun r => .ret (.ok r, st)

/-- A step of the parser, which may panic. -/
def popAtom : PayM (Option Mp4Atom) := do
  match (← get).mp4Parser.popAtom with
  | some (atom, parser) =>
      modify fun st => { st with mp4Parser := parser }
      pure atom
  | none => throw .panicked

end PayM

/-- The end of a fragment. -/
def pushFragment (ftypeAtom moovAtom moofAtom mdatAtom : Mp4Atom) : PayM Unit := do
  let st ← get
  match st.writeOutput ftypeAtom moovAtom moofAtom mdatAtom with
  | some payload => do
      modify StartedState.clearFragment
      match ← PayM.push (st.output payload) with
      | .error e => throw (.downstream e)
      | .ok () => pure ()
  | none => throw .panicked

def handleAtom (atom : Mp4Atom) : PayM Unit :=
  if atom.atomType = ATOM_TYPE_FTYPE then
    modify fun st => { st with ftypeAtom := some atom }
  else if atom.atomType = ATOM_TYPE_MOOV then
    modify fun st => { st with moovAtom := some atom }
  else if atom.atomType = ATOM_TYPE_MOOF then
    modify fun st => { st with moofAtom := some atom }
  else if atom.atomType = ATOM_TYPE_MDAT then do
    let st ← get
    match st.ftypeAtom, st.moovAtom, st.moofAtom with
    | some ftypeAtom, some moovAtom, some moofAtom =>
        pushFragment ftypeAtom moovAtom moofAtom atom
    | _, _, _ => pure ()
  else pure ()

/-- The loop over the atoms that are complete. -/
def popAtoms : Nat → PayM Unit
  | 0 => throw .outOfFuel
  | fuel + 1 => do
      match ← PayM.popAtom with
      | some atom => do
          handleAtom atom
          popAtoms fuel
      | none => pure ()

def sinkChain (buffer : PayBuffer) : PayM Unit := do
  if buffer.readable then
    modify fun st => { st with mp4Parser := st.mp4Parser.add buffer.payload }
    if (← get).mp4Parser.haveMdat then
      if buffer.pts.isSome then modify fun st => st.noteBuffer buffer
      else throw .panicked
    popAtoms ((← get).mp4Parser.buf.length + 1)
  else throw (.reported .coreFailed "Failed to map buffer")

/-- Buffers, until one fails. -/
def chain (buffers : List PayBuffer) : PayM Unit := buffers.forM sinkChain

end FragMp4Pay

end GstPravega.Plugin
