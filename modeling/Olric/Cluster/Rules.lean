import Olric.Lib.Network
import Olric.Node.Stored

namespace Olric

/-- The commands that wait for other members. -/
def Cmd.outgoing : Cmd → Option (List (Host × Request))
  | .request dst req => some [(dst, req)]
  | .requestAll dst req => some (dst.map fun host => (host, req))
  | _ => none

def Cmd.collect : (c : Cmd) → List Response → Option c.Reply
  | .request .., resps => resps.head?
  | .requestAll .., resps => some resps
  | _, _ => none

/-- The routing table answers for the owners of a partition. -/
def Cmd.Routed (routing : Place → List Host) : (c : Cmd) → c.Reply → Prop
  | .owners p, reply => reply = routing p
  | _, _ => True

/-- Members with one configuration each, the same hash function and a routing table that does not
change. -/
structure Members where
  config : Host → Config
  sum64 : Bytes → UInt64
  routing : Place → List Host

/-- A dmap object that nobody has locked, with an open storage. -/
def DMap.Idle (dm : DMap) : Prop := dm.mutex = none ∧ dm.str.closed = false

abbrev Cluster := Network Cmd Cmd.Reply Host Request Response Node

abbrev ClusterLabel := Network.Label Cmd Cmd.Reply Host Response

/-- The members run what `starts` lets them, and serve each other's requests. No member fails, and
no message is lost. Asynchronous backups arrive as requests that nobody waits for. -/
def Members.rules (members : Members) (starts : Host → Prog Response → Prop) :
    Network.Rules Cmd Cmd.Reply Host Request Response Node where
  initial nodes := ∀ host r dm, (nodes host).dmaps r = some dm → dm.Idle
  starts host p := starts host p ∨ ∃ name key value timeout,
    p = (members.config host).handle members.sum64 (.putBackup name key value timeout)
  outgoing := Cmd.outgoing
  collect := Cmd.collect
  handle host req := (members.config host).handle members.sum64 req
  exec _ tid s c reply s' := s.exec tid c reply s' ∧ c.Routed members.routing reply

/-- The goroutine that a command starts. -/
def Cmd.job : Cmd → Option Job
  | .go job => some job
  | _ => none

def Config.forks (cfg : Config) : (c : Cmd) → Option (c.Reply × Prog Response)
  | .go job => some ((), answered (cfg.job job))
  | _ => none

/-- The members from given states on. The goroutines that handlers start run on their own. -/
def Members.goRules (members : Members) (initial : (Host → Node) → Prop) (starts : Host → Prog Response → Prop) :
    Network.Rules Cmd Cmd.Reply Host Request Response Node where
  initial := initial
  starts := starts
  outgoing := Cmd.outgoing
  collect := Cmd.collect
  handle host req := (members.config host).handle members.sum64 req
  exec _ tid s c reply s' := c.job = none ∧ s.exec tid c reply s' ∧ c.Routed members.routing reply
  forks host := (members.config host).forks

/-- What a goroutine does on its own member. -/
def Members.Acts (members : Members) (tid : Tid) (s : Node) (c : Cmd) (reply : c.Reply) (s' : Node) : Prop :=
  c.outgoing = none ∧ s.exec tid c reply s' ∧ c.Routed members.routing reply

def previousHost : Host := ⟨[80], 0⟩
def primaryHost : Host := ⟨[78], 0⟩

/-- Two members of a partition that the first has handed over to the second. -/
def twoMembers : Members where
  config host := { soloConfig with this := host }
  sum64 _ := 7
  routing p := if p.backup then [] else [previousHost, primaryHost]

end Olric
