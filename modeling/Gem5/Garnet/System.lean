import Gem5.Garnet.NetworkInterface
import Gem5.Garnet.Router
import Gem5.Lib.Transition

namespace Gem5.Garnet

open Lib

variable {X : Heaps}

/-- What happens in a network: the next cycle begins, a component wakes up, or a
controller puts a message into a buffer of its node. -/
inductive Label
  | tick
  | ni (node : Nat)
  | router (router : Nat) (rand : Nat → Nat)
  | link (source : Port)
  | credit (source : Port)
  | send (node vnet : Nat) (destination : List Nat) (size delta : Nat) (c : Ruby.Chance)

namespace Net

/-- Routers and links wake up when they are scheduled, and once. The buffers of the
protocol wake a node up at any time. The next cycle begins when all wakeups of this one
are done. -/
def Enabled (cfg : Config) (s : Net X) : Label → Prop
  | .tick => ∀ e ∈ s.events, s.now < e.2
  | .ni n => n < cfg.nodes
  | .router r _ => (.router r, s.now) ∈ s.events
  | .link source => (.link source, s.now) ∈ s.events ∧ cfg.LinkExists source
  | .credit source => (.credit source, s.now) ∈ s.events ∧ cfg.LinkExists source
  | .send n vnet destination size _ _ =>
    n < cfg.nodes ∧ vnet < cfg.virtualNetworks ∧ destination ≠ [] ∧ destination.Nodup ∧ 0 < size

instance (cfg : Config) (s : Net X) : (l : Label) → Decidable (s.Enabled cfg l)
  | .tick => inferInstanceAs (Decidable (∀ e ∈ s.events, s.now < e.2))
  | .ni n => inferInstanceAs (Decidable (n < cfg.nodes))
  | .router r _ => inferInstanceAs (Decidable ((.router r, s.now) ∈ s.events))
  | .link source =>
    inferInstanceAs (Decidable ((.link source, s.now) ∈ s.events ∧ cfg.LinkExists source))
  | .credit source =>
    inferInstanceAs (Decidable ((.credit source, s.now) ∈ s.events ∧ cfg.LinkExists source))
  | .send n vnet destination size _ _ =>
    inferInstanceAs (Decidable (n < cfg.nodes ∧ vnet < cfg.virtualNetworks ∧ destination ≠ [] ∧
      destination.Nodup ∧ 0 < size))

/-- The wakeup of a component in this cycle is no longer scheduled. -/
def awake (s : Net X) (c : Component) : Net X :=
  { s with events := s.events.filter (· ≠ (c, s.now)) }

def send (s : Net X) (n vnet : Nat) (destination : List Nat) (size delta : Nat) (c : Ruby.Chance) :
    Except Fault (Net X) :=
  match ((s.nis n).inNode vnet).enqueue (.fresh s.nextMessage) s.now delta c with
  | none => .error .protocolBuffer
  | some b =>
    .ok { s.setNi n { s.nis n with
        inNode := Function.update (s.nis n).inNode vnet b
        sent := (s.nis n).sent ++ [(vnet, s.nextMessage, destination)] } with
      messages := Function.update s.messages s.nextMessage ⟨destination, size⟩
      nextMessage := s.nextMessage + 1 }

def exec (cfg : Config) (s : Net X) : Label → Except Fault (Net X)
  | .tick => .ok { s with now := s.now + 1 }
  | .ni n => NetworkInterface.wakeup cfg n (s.awake (.ni n))
  | .router r rand => Router.wakeup cfg r rand (s.awake (.router r))
  | .link source => .ok (NetworkLink.wakeup cfg source (s.awake (.link source)))
  | .credit source => .ok (CreditLink.wakeup cfg source (s.awake (.credit source)))
  | .send n vnet destination size delta c => s.send n vnet destination size delta c

def start (cfg : Config) (buffers : Nat → Nat → Ruby.MessageBuffer) : Net X where
  now := 0
  events := []
  channels _ :=
    ⟨fun vc => ⟨.idle, 0, cfg.maxCreditCount vc⟩, .empty _, .empty _, fun _ => .new X, .empty _,
      .empty _⟩
  routers _ := ⟨fun _ => 0, fun _ => 0, []⟩
  nis n := ⟨buffers n, fun _ => .empty _, fun _ => INFINITE_, fun _ => 0, 0, none, [], [], [], []⟩
  messages _ := ⟨[], 0⟩
  nextMessage := 0

/-- The step that a label takes, if it can be taken. -/
def step? (cfg : Config) (s : Net X) (l : Label) : Option (Net X) :=
  if s.Enabled cfg l then (s.exec cfg l).toOption else none

end Net

theorem Net.step?_step {cfg : Config} {s t : Net X} {l : Label} (h : s.step? cfg l = some t) :
    s.Enabled cfg l ∧ s.exec cfg l = .ok t := by
  obtain ⟨henabled, h⟩ := Option.ite_none_right_eq_some.mp h
  exact ⟨henabled, toOption_eq_some.mp h⟩

def machine (X : Heaps) (cfg : Config) : Machine (Net X) Label where
  init s := ∃ buffers : Nat → Nat → Ruby.MessageBuffer,
    (∀ n vnet, (buffers n vnet).prioHeap = []) ∧ s = .start cfg buffers
  step s l s' := s.Enabled cfg l ∧ s.exec cfg l = .ok s'

theorem machine_step {cfg : Config} (s : Net X) (l : Label) (t : Net X)
    (h : s.step? cfg l = some t) : (machine X cfg).step s l t :=
  Net.step?_step h

/-! ### A small network -/

/-- Each of two nodes has its port at the one router. -/
def starWiring : Port → Port
  | .ni n => .router 0 n
  | .router 0 p => .ni p
  | .router (r + 1) p => .router (r + 1) p

theorem starWiring_involutive : Function.Involutive starWiring := by
  intro p
  match p with
  | .ni n => rfl
  | .router 0 p => rfl
  | .router (r + 1) p => rfl

/-- Two nodes at one router, with one ordered virtual network of two VCs. -/
def twoNodes : Config where
  virtualNetworks := 1
  vcPerVnet := 2
  isVNetOrdered _ := true
  isDataVnet _ := true
  buffersPerDataVC := 4
  buffersPerCtrlVC := 1
  niFlitSize := 16
  niFlitSize_pos := by decide
  nodes := 2
  numInports r := if r = 0 then 2 else 0
  numOutports r := if r = 0 then 2 else 0
  pipeStages _ := 1
  pipeStages_pos _ := by decide
  wiring := starWiring_involutive.toPerm
  linkLatency _ := 1
  linkLatency_pos _ := by decide
  creditLatency _ := 1
  creditLatency_pos _ := by decide
  routing :=
    { algorithm := .table
      table := fun _ => [⟨0, [0], 1⟩, ⟨1, [1], 1⟩]
      routerOf := fun _ => 0
      numRows := 1
      numCols := 1
      inportDirection := fun _ _ => .localNode
      outportIdx := fun _ _ => 0 }
  wiring_below source h := by
    match source with
    | .ni n => exact h
    | .router 0 p => exact h
    | .router (r + 1) p => exact absurd h (Nat.not_lt_zero _)

def twoNodes.start : Net .sorted :=
  .start twoNodes (fun _ _ => { maxSize := 0, strictFifo := true, randomized := false })

theorem twoNodes.reachable_start : (machine .sorted twoNodes).Reachable twoNodes.start :=
  .start ⟨_, fun _ _ => rfl, rfl⟩

end Gem5.Garnet
