/-
# Routes and environments

A concrete route announcement with all its attributes, and the part of a router's state that a
policy may ask for besides the route: which tracks succeed, and which VRF the route comes from.
-/

import RouteSolver.AsPath
import RouteSolver.Community
import RouteSolver.Network

namespace RouteSolver

/-- The protocol that produced a route. -/
inductive Protocol where
  | bgp
  | ibgp
  | aggregate
  | connected
  | localHost
  | staticRoute
  | ospf
  | ospfIA
  | ospfE1
  | ospfE2
  | isis
  | eigrp
  | rip
deriving DecidableEq, Repr, Inhabited

namespace Protocol

/-- All protocols in their order. -/
def all : List Protocol :=
  [bgp, ibgp, aggregate, connected, localHost, staticRoute, ospf, ospfIA, ospfE1, ospfE2, isis,
    eigrp, rip]

/-- The name of a protocol in reports. -/
def name : Protocol → String
  | bgp => "bgp"
  | ibgp => "ibgp"
  | aggregate => "aggregate"
  | connected => "connected"
  | localHost => "local"
  | staticRoute => "static"
  | ospf => "ospf"
  | ospfIA => "ospfIA"
  | ospfE1 => "ospfE1"
  | ospfE2 => "ospfE2"
  | isis => "isis"
  | eigrp => "eigrp"
  | rip => "rip"

/-- The word for a protocol in data: as its name, but with low lines instead of capitals. -/
def keyword : Protocol → String
  | ospfIA => "ospf_ia"
  | ospfE1 => "ospf_e1"
  | ospfE2 => "ospf_e2"
  | p => p.name

theorem mem_all (p : Protocol) : p ∈ all := by cases p <;> decide

end Protocol

/-- The origin attribute of a BGP route. -/
inductive OriginType where
  | igp
  | egp
  | incomplete
deriving DecidableEq, Repr, Inhabited

namespace OriginType

/-- All origins in their order. -/
def all : List OriginType := [igp, egp, incomplete]

/-- The word for an origin. -/
def keyword : OriginType → String
  | igp => "igp"
  | egp => "egp"
  | incomplete => "incomplete"

theorem mem_all (o : OriginType) : o ∈ all := by cases o <;> decide

end OriginType

/-- How a route entered the routing table. -/
inductive OriginMechanism where
  | learned
  | network
  | redistribute
  | generated
deriving DecidableEq, Repr, Inhabited

namespace OriginMechanism

/-- All mechanisms in their order. -/
def all : List OriginMechanism := [learned, network, redistribute, generated]

/-- The word for a mechanism. -/
def keyword : OriginMechanism → String
  | learned => "learned"
  | network => "network"
  | redistribute => "redistribute"
  | generated => "generated"

end OriginMechanism

/-- Where a route was received from. -/
inductive ReceivedFrom where
  /-- From the router itself. -/
  | selfOrigin
  /-- From a neighbour. -/
  | ip (address : Address)
deriving DecidableEq, Repr, Inhabited

/-- Where packets go next. -/
inductive NextHop where
  /-- To an address. -/
  | ip (address : Address)
  /-- To an address, through a named interface. -/
  | interface (name : String) (address : Address)
deriving DecidableEq, Repr, Inhabited

namespace NextHop

/-- The address. -/
def address : NextHop → Address
  | ip a => a
  | interface _ a => a

/-- The interface, if one is named. -/
def interface? : NextHop → Option String
  | ip _ => none
  | interface name _ => some name

/-- The address, and the interface if one is named. -/
def text : NextHop → String
  | ip a => a.text
  | interface name a => a.text ++ " via " ++ name

end NextHop

/-- A concrete route. -/
structure Route where
  network : Network
  localPreference : UInt32
  adminDistance : UInt32
  metric : UInt32
  tag : UInt32
  originType : OriginType
  protocol : Protocol
  clusterList : AscendingSet UInt32
  communities : AscendingSet Community
  asPath : AsPath
  nextHop : NextHop
  originatorIp : Address
  receivedFrom : ReceivedFrom
  originMechanism : OriginMechanism
deriving DecidableEq

/-- The state of a router that a policy may ask for. -/
structure Environment where
  /-- The tracks that succeed. -/
  successfulTracks : List String
  /-- The VRF that the route comes from. -/
  sourceVrf : Option String
deriving DecidableEq, Repr, Inhabited

/-- Whether a track succeeds; one that is not listed does not. -/
def Environment.trackSucceeds (e : Environment) (track : String) : Bool :=
  e.successfulTracks.contains track

end RouteSolver
