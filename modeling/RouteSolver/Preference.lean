/-
# Preferences

Constraints seldom settle a route, and the least model of what they leave open reads oddly. So a
few wishes are added in order, each one only if the rest stays satisfiable. `steer` returns the
least model of the result together with the wishes that were granted.
-/

import RouteSolver.Diagram.Model
import RouteSolver.Layout

namespace RouteSolver

open Diagram

/-- What is wished of a route. -/
structure Preferences where
  /-- The protocol. -/
  protocol : Protocol
  /-- The local preference. -/
  localPreference : UInt32
  /-- The prefix is one of these. -/
  prefixes : List Network
  /-- Failing that, its address is at least this one … -/
  minAddress : Address
  /-- … and its length at least this. -/
  minLength : UInt8
deriving DecidableEq, Repr

namespace Preferences

/-- The local preference of a BGP route that sets none. -/
def defaultLocalPreference : UInt32 := 100

/-- What is wished if nothing else is said. -/
def default : Preferences where
  protocol := .bgp
  localPreference := defaultLocalPreference
  prefixes :=
    [⟨.ofOctets 8 8 8 0, 24, by decide⟩, ⟨.ofOctets 52 0 0 0, 10, by decide⟩,
      ⟨.ofOctets 10 0 0 0, 8, by decide⟩]
  minAddress := .ofOctets 10 0 0 0
  minLength := 16

instance : Inhabited Preferences := ⟨default⟩

end Preferences

/-- One wish. -/
inductive Wish where
  | protocol (p : Protocol)
  | localPreference (n : UInt32)
  | prefixIn (networks : List Network)
  | prefixAtLeast (address : Address) (length : UInt8)
deriving DecidableEq, Repr

/-- The wishes in the order in which they are tried. -/
def Preferences.wishes (p : Preferences) : List Wish :=
  [.protocol p.protocol, .localPreference p.localPreference, .prefixIn p.prefixes,
    .prefixAtLeast p.minAddress p.minLength]

namespace Wish

/-- A wish in a report. -/
def text : Wish → String
  | protocol p => "protocol = " ++ p.name
  | localPreference n => "local preference = " ++ Decimal.text n.toNat
  | prefixIn networks =>
    "prefix in \x7b" ++ Text.joinWith ", " (networks.map Network.text) ++ "\x7d"
  | prefixAtLeast address length =>
    "prefix address >= " ++ address.text ++ ", length >= " ++ Decimal.text length.toNat

/-- "The prefix is this network." -/
def isPrefix (l : Layout) (n : Network) : Build Ref := do
  let address ← l.address.eq n.first.toNat
  let length ← l.length.eq n.length
  conj address length

/-- What a wish asks for, over the variables of a layout. -/
def formula (l : Layout) : Wish → Build Ref
  | protocol p => l.protocol.eq p
  | localPreference n => l.localPreference.eq n.toNat
  | prefixIn networks => do
    let each ← networks.mapM (isPrefix l)
    disjAll each
  | prefixAtLeast address length => do
    let high ← l.address.ge address.toNat
    let long ← l.length.ge length.toNat
    conj high long

end Wish

/-- Grant the wishes that can be granted, in order: what holds then, and which they were. -/
def grant (l : Layout) : Ref → List Wish → Build (Ref × List Wish)
  | current, [] => pure (current, [])
  | current, wish :: rest => do
    let asked ← wish.formula l
    let narrowed ← conj current asked
    if narrowed.isSatisfiable then
      let (final, granted) ← grant l narrowed rest
      return (final, wish :: granted)
    else grant l current rest

/-- A model of a formula, and the wishes that shaped it. -/
structure Steered where
  /-- The cube that fixes every variable. -/
  model : Ref
  /-- The wishes that were granted, in order. -/
  granted : List Wish
deriving DecidableEq, Repr

/-- The least model of a formula and of the wishes that can be granted on top of it; nothing if the
formula is unsatisfiable. -/
def steer (d : Domain) (p : Preferences) (formula : Ref) : Build (Option Steered) := do
  if !formula.isSatisfiable then return none
  let l ← Layout.ofDomain d
  let (final, granted) ← grant l formula p.wishes
  let model ← leastModel final
  return some ⟨model, granted⟩

end RouteSolver
