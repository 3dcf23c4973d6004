import Gem5.Lib.SortedMap
import Gem5.Lib.Walks

namespace Gem5.Ruby

open Lib Lib.SortedMap

structure ExtLink where
  extNode : Nat
  intNode : Nat
  weight : Int
deriving DecidableEq

structure IntLink where
  srcNode : Nat
  dstNode : Nat
  weight : Int
deriving DecidableEq

/-- A topology. Every controller has one external link, so the number of these links is
the number of controllers. -/
structure Topology where
  extLinks : List ExtLink
  intLinks : List IntLink
  nodes_gt : 1 < extLinks.length
  ext_lt : ∀ l ∈ extLinks, l.extNode < extLinks.length

/-- `+` of two `int`s. Where the sum does not fit, it wraps around. -/
def plus (a b : Int) : Int := (a + b).bmod (2 ^ 32)

theorem plus_eq {a b : Int} (ha : 0 ≤ a ∧ a < 2 ^ 30) (hb : 0 ≤ b ∧ b < 2 ^ 30) :
    plus a b = a + b := by
  unfold plus
  rw [Int.bmod_eq_of_le] <;> omega

/-- `vector<vector<int>>`, by its two indices. -/
abbrev Matrix := Nat → Nat → Int

def Matrix.set (m : Matrix) (i j : Nat) (v : Int) : Matrix :=
  fun a b => if a = i ∧ b = j then v else m a b

def INFINITE_LATENCY : Int := 10000

/-- `INFINITE_` of the network's own types. -/
def INFINITE_ : Int := 10000

abbrev LinkMap := List ((Nat ×ₗ Nat) × Int)

def addLink (links : LinkMap) (src dest : Nat) (weight : Int) : LinkMap :=
  upsert (toLex (src, dest)) (fun _ => weight) links

namespace Topology

section

variable (T : Topology)
include T

def nodes : Nat := T.extLinks.length

/-- The links of the constructor. The first `nodes` switches stand for the links into the
network, the next `nodes` for those out of it; routers follow. -/
def linkMap : LinkMap :=
  let ext := T.extLinks.foldl (fun links l =>
    addLink (addLink links l.extNode (l.intNode + 2 * T.nodes) l.weight)
      (l.intNode + 2 * T.nodes) (l.extNode + T.nodes) l.weight) []
  T.intLinks.foldl (fun links l =>
    addLink links (l.srcNode + 2 * T.nodes) (l.dstNode + 2 * T.nodes) l.weight) ext

def maxSwitchId : Nat :=
  T.linkMap.foldl (fun m e => max (max m (ofLex e.1).1) (ofLex e.1).2) 0

def numSwitches : Nat := T.maxSwitchId + 1

/-- `topology_weights`: no link, then nothing to the switch itself, then the links. -/
def topologyWeights : Matrix :=
  T.linkMap.foldl (fun m e => m.set (ofLex e.1).1 (ofLex e.1).2 e.2)
    (fun i j => if i = j then 0 else INFINITE_LATENCY)

end

end Topology

structure Paths where
  dist : Matrix
  latencies : Matrix
  interSwitches : Matrix

structure Scan where
  minimum : Int
  intermediateSwitch : Option Nat
  interSwitches : Matrix

def Scan.turn (dist : Matrix) (i j : Nat) (s : Scan) (k : Nat) : Scan :=
  let minimum := min s.minimum (plus (dist i k) (dist k j))
  if s.minimum ≠ minimum then
    { minimum
      intermediateSwitch := some k
      interSwitches := s.interSwitches.set i j
        (plus (plus (s.interSwitches i k) (s.interSwitches k j)) 1) }
  else { s with minimum }

/-- The body of the loops over `i` and `j`, with the flag `change`. It is `none` where
the assertion on the intermediate switch fails. -/
def relaxPair (nodes : Nat) (s : Paths × Bool) (at' : Nat × Nat) : Option (Paths × Bool) :=
  let (p, change) := s
  let (i, j) := at'
  let scan := (List.range nodes).foldl (Scan.turn p.dist i j) ⟨p.dist i j, none, p.interSwitches⟩
  if p.dist i j ≠ scan.minimum then
    scan.intermediateSwitch.map (fun k =>
      ({ dist := p.dist.set i j scan.minimum
         latencies := p.latencies.set i j (plus (p.latencies i k) (p.latencies k j))
         interSwitches := scan.interSwitches }, true))
  else some ({ p with interSwitches := scan.interSwitches }, change)

def pairs (nodes : Nat) : List (Nat × Nat) :=
  (List.range nodes).flatMap (fun i => (List.range nodes).map (fun j => (i, j)))

/-- `extend_shortest_path`, with at most `fuel` turns of its `while`. -/
def extendShortestPath (nodes : Nat) : Nat → Paths → Option Paths
  | 0, _ => none
  | fuel + 1, p =>
    ((pairs nodes).foldlM (relaxPair nodes) (p, false)).bind (fun (p, change) =>
      if change then extendShortestPath nodes fuel p else some p)

namespace Topology

/-- `shortest_path` as `createLinks` calls it. `latencies` is what it knows of the links. -/
def shortestPath (T : Topology) (latencies : Matrix) (fuel : Nat) : Option Paths :=
  extendShortestPath T.numSwitches fuel ⟨T.topologyWeights, latencies, fun _ _ => 0⟩

def linkIsShortestPathToNode (T : Topology) (dist : Matrix) (src next final : Nat) : Bool :=
  plus (T.topologyWeights src next) (dist next final) = dist src final

/-- The controllers to which a link is on a shortest path. -/
def shortestPathToNode (T : Topology) (dist : Matrix) (src next : Nat) : List Nat :=
  (List.range T.nodes).filter (fun d => T.linkIsShortestPathToNode dist src next (d + T.nodes))

end Topology

/-- An output port of a router: what `addRoute` and `addWeight` enter for it, and the
switch at the end of its link. -/
structure OutPort where
  next : Nat
  destinations : List Nat
  weight : Int

namespace Topology

/-- The tables of the router that is switch `src`, as `createLinks` fills them. -/
def routingTable (T : Topology) (dist : Matrix) (src : Nat) : List OutPort :=
  (List.range T.numSwitches).filterMap (fun j =>
    let weight := T.topologyWeights src j
    if 0 < weight ∧ weight ≠ INFINITE_LATENCY then
      some ⟨j, T.shortestPathToNode dist src j, weight⟩
    else none)

end Topology

def OutPort.leadsTo (p : OutPort) (msgDestination : List Nat) : Bool :=
  msgDestination.any (fun d => d ∈ p.destinations)

/-- The least weight among the ports that lead to the destination. -/
def minWeight (table : List OutPort) (msgDestination : List Nat) : Int :=
  table.foldl (fun minWeight p =>
    if p.leadsTo msgDestination ∧ p.weight ≤ minWeight then p.weight else minWeight) INFINITE_

def outputLinkCandidates (table : List OutPort) (msgDestination : List Nat) : List OutPort :=
  table.filter (fun p =>
    p.leadsTo msgDestination ∧ p.weight = minWeight table msgDestination)

/-- `lookupRoutingTable`, with the value of `rand()`. It is `none` where the code is
fatal. -/
def lookupRoutingTable (table : List OutPort) (vnetOrdered : Bool) (rand : Nat)
    (msgDestination : List Nat) : Option OutPort :=
  let candidates := outputLinkCandidates table msgDestination
  candidates[if vnetOrdered then 0 else rand % candidates.length]?

namespace Topology

/-- One hop of a packet for a controller: only routers choose an output link. -/
def hop (T : Topology) (dist : Matrix) (vnetOrdered : Bool) (d : Nat) (rand src : Nat) :
    Option Nat :=
  if 2 * T.nodes ≤ src then
    (lookupRoutingTable (T.routingTable dist src) vnetOrdered rand [d]).map OutPort.next
  else none

def travel (T : Topology) (dist : Matrix) (vnetOrdered : Bool) (d : Nat) :
    (Nat → Nat) → Nat → Nat → Option Nat
  | _, 0, src => some src
  | rand, n + 1, src =>
    (T.hop dist vnetOrdered d (rand 0) src).bind
      (T.travel dist vnetOrdered d (fun k => rand (k + 1)) n)

def Link (T : Topology) (i j : Nat) (w : Int) : Prop := lookup (toLex (i, j)) T.linkMap = some w

end Topology

end Gem5.Ruby
