import GstPravega.Gst.Buffer
import GstPravega.Lib.Program
import Mathlib.Logic.Function.Basic

/-!
# The DeepStream protocol adapter

The library writes messages of DeepStream to event streams. A connection has a pool of
event writers, one for each stream, which is made when the first message for the stream
is sent. `nvds_msgapi_send` waits for its message to be durable. `nvds_msgapi_send_async`
starts a task that does, and tells the application by a callback.

The pool and each writer are behind a lock. A guard that goes out of scope is an `unlock`
here, also where a panic unwinds the stack.
-/

namespace GstPravega.Deepstream

open GstPravega.Lib GstPravega.Gst

inductive NvDsMsgApiErrorType where
  | ok
  | err
  | unknownTopic
  deriving DecidableEq, Repr

inductive RoutingKeyMethod where
  | fixed (routingKey : String)
  deriving DecidableEq, Repr

structure ScopedStream where
  scope : String
  stream : String
  deriving DecidableEq, Repr

/-- `NvDsPravegaClientHandle`, without the pool, and how the client reads a topic. -/
structure Handle where
  routingKeyMethod : RoutingKeyMethod
  scopedStreamFrom : String → ScopedStream

/-- `resolve_topic`. -/
def Handle.resolveTopic (handle : Handle) (topic : String) : ScopedStream :=
  handle.scopedStreamFrom topic

/-- The key that every event of the connection is written with. -/
def Handle.routingKey (handle : Handle) : String :=
  match handle.routingKeyMethod with
  | .fixed routingKey => routingKey

/-! ## `nvds_msgapi_connect` -/

/-- A loaded INI file. -/
structure Ini where
  get : String → String → Option String

/-- The routing key and the Keycloak file, from the configuration. -/
def readConfig (load : String → Except String Ini) :
    Option String → Option (RoutingKeyMethod × Option String)
  | some path =>
      match load path with
      | .error _ => none
      | .ok config =>
          let routingKeyMethod :=
            match config.get "message-broker" "fixed-routing-key" with
            | some fixedRoutingKey => RoutingKeyMethod.fixed fixedRoutingKey
            | none => .fixed ""
          some (routingKeyMethod, config.get "message-broker" "keycloak-file")
  | none => some (.fixed "", none)

/-- The handle, or null. -/
def nvdsMsgapiConnect (load : String → Except String Ini)
    (createClientConfig : String → Option String → Except String Unit)
    (scopedStreamFrom : String → ScopedStream) (connectionStr configPath : Option String) :
    Option Handle :=
  let connectionStr := connectionStr.getD "tcp://127.0.0.1:9090"
  match readConfig load configPath with
  | none => none
  | some (routingKeyMethod, keycloakFile) =>
      match createClientConfig connectionStr keycloakFile with
      | .error _ => none
      | .ok () => some ⟨routingKeyMethod, scopedStreamFrom⟩

/-! ## Commands -/

/-- The lock of the pool, and that of a writer. -/
inductive Lock where
  | writers
  | writer (n : Nat)
  deriving DecidableEq, Repr

/-- A writer is known by its place among those made. `callback` is the call of the
application's function, `callbackReturns` the moment it gives control back. -/
inductive AdapterCmd where
  | lock (l : Lock)
  | unlock (l : Lock)
  | getWriter (scopedStream : ScopedStream)
  | createStream (scopedStream : ScopedStream)
  | createEventWriter (scopedStream : ScopedStream)
  | insertWriter (scopedStream : ScopedStream) (writer : Nat)
  | writeEventByRoutingKey (writer : Nat) (routingKey : String) (event : List UInt8)
  | callback (userPtr : Nat) (completionFlag : NvDsMsgApiErrorType)
  | callbackReturns
  deriving DecidableEq, Repr

/-- Awaiting the receiver of a write ends with what the writer sent, or with the loss of
the sender. -/
def AdapterCmd.Res : AdapterCmd → Type
  | .getWriter _ => Option Nat
  | .createStream _ => Except String Bool
  | .createEventWriter _ => Nat
  | .writeEventByRoutingKey .. => Except String (Except String Unit)
  | _ => Unit

abbrev AdapterProgram := Program AdapterCmd AdapterCmd.Res

/-- Code that may panic. -/
abbrev Task := ExceptT Failure AdapterProgram

def Task.command (c : AdapterCmd) : Task c.Res :=
  ExceptT.mk (.call c fun r => .ret (.ok r))

/-! ## The pool -/

/-- `get_or_create` with no writer in the pool, under the lock. -/
def createWriter (scopedStream : ScopedStream) : Task Nat := do
  match ← Task.command (.createStream scopedStream) with
  | .error _ =>
      Task.command (.unlock .writers)
      throw .panicked
  | .ok _ =>
      let writer ← Task.command (.createEventWriter scopedStream)
      Task.command (.insertWriter scopedStream writer)
      Task.command (.unlock .writers)
      pure writer

def getOrCreate (scopedStream : ScopedStream) : Task Nat := do
  Task.command (.lock .writers)
  match ← Task.command (.getWriter scopedStream) with
  | some writer =>
      Task.command (.unlock .writers)
      pure writer
  | none => createWriter scopedStream

/-! ## Sending -/

/-- What the application is told of a write. -/
def flagOf : Except String (Except String Unit) → NvDsMsgApiErrorType
  | .ok (.ok ()) => .ok
  | .ok (.error _) => .err
  | .error _ => .err

/-- `c_string_to_string` and `unwrap`. -/
def topicOf : Option String → Task String
  | some topic => pure topic
  | none => throw .panicked

def nvdsMsgapiSend (handle : Handle) (topic : Option String) (payload : List UInt8) :
    Task NvDsMsgApiErrorType := do
  let topic ← topicOf topic
  let writer ← getOrCreate (handle.resolveTopic topic)
  Task.command (.lock (.writer writer))
  let result ← Task.command (.writeEventByRoutingKey writer handle.routingKey payload)
  Task.command (.unlock (.writer writer))
  pure (flagOf result)

/-- The task that `nvds_msgapi_send_async` spawns. The callback is made with the guard of
the writer still in scope. -/
def sendAsyncTask (handle : Handle) (scopedStream : ScopedStream) (event : List UInt8)
    (userPtr : Nat) : Task Unit := do
  let writer ← getOrCreate scopedStream
  Task.command (.lock (.writer writer))
  let result ← Task.command (.writeEventByRoutingKey writer handle.routingKey event)
  Task.command (.callback userPtr (flagOf result))
  Task.command .callbackReturns
  Task.command (.unlock (.writer writer))

/-- What it returns, and what it spawned. -/
def nvdsMsgapiSendAsync (handle : Handle) (topic : Option String) (payload : List UInt8)
    (userPtr : Nat) : Except Failure (NvDsMsgApiErrorType × Task Unit) :=
  match topic with
  | none => .error .panicked
  | some topic => .ok (.ok, sendAsyncTask handle (handle.resolveTopic topic) payload userPtr)

end GstPravega.Deepstream
