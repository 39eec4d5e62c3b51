import Olric.Protocol.Message

namespace Olric

/-- The registered operations, over the state that the handlers work on. -/
structure Server (Node : Type*) where
  maxValueSize : Int
  operations : UInt8 → Option (Message → Node → Message × Node)

inductive RequestError
  | read (e : ReadError)
  | unknownOperation (op : UInt8)
deriving DecidableEq

def RequestError.text : RequestError → String
  | .read e => "failed to read request: " ++ e.text
  | .unknownOperation op => "unknown operation: " ++ toString op.toNat

inductive RequestOutcome (Node : Type*)
  | responded (req resp : Message) (node : Node) (rest : Bytes)
  | failed (e : RequestError) (h : Header) (rest : Bytes)
  | panic

/-- One round of the connection loop that writes a response: the request given to a handler,
the response, and what the connection still holds after it. -/
structure Served where
  handled : Option Message
  response : Message
  rest : Bytes
deriving DecidableEq

inductive ConnEnd
  | closed
  | panic
  | running
deriving DecidableEq

namespace Server

variable {Node : Type*}

def waitForRequest (srv : Server Node) (node : Node) (conn : Bytes) : RequestOutcome Node :=
  match Message.read srv.maxValueSize conn with
  | .panic => .panic
  | .error e h rest => .failed (.read e) h rest
  | .ok req rest =>
    match srv.operations req.op with
    | none => .failed (.unknownOperation req.op) req.toHeader rest
    | some opr => .responded req (opr req node).1 (opr req node).2 rest

/-- The loop of `handleConn`, for at most `fuel` rounds. -/
def serve (srv : Server Node) : Nat → Node → Bytes → List Served × Node × ConnEnd
  | 0, node, _ => ([], node, .running)
  | fuel + 1, node, conn =>
    match srv.waitForRequest node conn with
    | .panic => ([], node, .panic)
    | .failed e h rest =>
      if e = .read .eof then ([], node, .closed)
      else
        let (served, ending) := srv.serve fuel node rest
        (⟨none, h.error statusInternalServerError e.text, rest⟩ :: served, ending)
    | .responded req resp node rest =>
      let (served, ending) := srv.serve fuel node rest
      (⟨some req, resp, rest⟩ :: served, ending)

/-- Serve a connection on which `conn` arrives before the peer closes it. Every round takes at
least a header off the connection. -/
def handleConn (srv : Server Node) (node : Node) (conn : Bytes) : List Served × Node × ConnEnd :=
  srv.serve (conn.length + 1) node conn

end Server

end Olric
