import Gem5.Lib.Heap
import Gem5.Lib.PrefixMask

namespace Gem5.Base.Trie

open Lib

/-- `w` is `MaxBits`, and a value pointer that is not null is `some`. -/
structure Node (w : Nat) (V : Type) where
  key : BitVec w
  mask : BitVec w
  value : Option V
  parent : Option Nat
  kid0 : Option Nat
  kid1 : Option Nat
deriving DecidableEq

/-- Why a call does not return: an assertion, one of the three panics, the use of
a deleted node, or a loop that runs longer than it can. -/
inductive Fault
  | assertion
  | endOfInsert
  | removeRoot
  | inconsistent
  | dangling
  | diverges
deriving DecidableEq, Repr

abbrev Res := Except Fault

variable {w : Nat} {V : Type}

namespace Node

def make (key mask : BitVec w) (value : Option V) : Node w V :=
  { key := key &&& mask, mask, value, parent := none, kid0 := none, kid1 := none }

def «matches» (n : Node w V) (test : BitVec w) : Bool := test &&& n.mask == n.key

def kid (n : Node w V) : Bool → Option Nat
  | false => n.kid0
  | true => n.kid1

def setKid (n : Node w V) (i : Bool) (k : Option Nat) : Node w V :=
  match i with
  | false => { n with kid0 := k }
  | true => { n with kid1 := k }

end Node

abbrev Nodes (w : Nat) (V : Type) := Heap (Node w V)

def deref (h : Nodes w V) (p : Nat) : Res (Node w V) :=
  match h.get p with
  | some n => .ok n
  | none => .error .dangling

/-- The node `head` is a member of the trie: its address is fixed. -/
def head : Nat := 0

def init : Nodes w V := Heap.empty.alloc (Node.make 0 0 none)

def goesAfter (h : Nodes w V) (kid : Option Nat) (key newMask : BitVec w) : Res Bool :=
  match kid with
  | none => .ok false
  | some k => do
    let n ← deref h k
    return n.matches key && n.mask &&& newMask == n.mask

/-- The loop over `goesAfter`: the last node the new one comes after. -/
def walk (h : Nodes w V) (key newMask : BitVec w) : Nat → Nat → Res Nat
  | 0, _ => .error .diverges
  | fuel + 1, node => do
    let n ← deref h node
    if ← goesAfter h n.kid0 key newMask then walk h key newMask fuel (n.kid0.getD node)
    else if ← goesAfter h n.kid1 key newMask then walk h key newMask fuel (n.kid1.getD node)
    else return node

def extendMask (orig : BitVec w) : BitVec w := orig ||| (orig >>> 1) ||| BitVec.twoPow w (w - 1)

def legMask (key newMask kidKey : BitVec w) : Nat → BitVec w → Res (BitVec w)
  | 0, _ => .error .diverges
  | fuel + 1, curMask =>
    let next := extendMask curMask
    if key &&& next != kidKey &&& next || curMask == newMask then .ok curMask
    else legMask key newMask kidKey fuel next

/-- A new node for the key's first bits, between `node` and its kid `i`. -/
def splitAbove (h : Nodes w V) (node : Nat) (n : Node w V) (i : Bool) (kid : Nat) (k : Node w V)
    (key curMask : BitVec w) : Nodes w V :=
  let new := h.size
  let h := h.alloc { Node.make key curMask none with parent := some node, kid0 := some kid }
  let h := h.set kid { k with parent := some new }
  h.set node (n.setKid i (some new))

/-- One round of the loop over the kids of `node`: `none` is `continue`. -/
def insertLeg (h : Nodes w V) (node : Nat) (key newMask : BitVec w) (val : V) (i : Bool) :
    Res (Option (Nodes w V × Nat)) := do
  let n ← deref h node
  match n.kid i with
  | none =>
    let new := h.size
    let h := h.alloc { Node.make key newMask (some val) with parent := some node }
    return some (h.set node (n.setKid i (some new)), new)
  | some kid =>
    let k ← deref h kid
    let curMask ← legMask key newMask k.key (w + 1) n.mask
    if curMask == n.mask then return none
    else
      let new := h.size
      let h := splitAbove h node n i kid k key curMask
      let m ← deref h new
      if curMask == newMask then
        return some (h.set new { m with value := some val }, new)
      else
        let new' := h.size
        let h := h.alloc { Node.make key newMask (some val) with parent := some new }
        return some (h.set new { m with kid1 := some new' }, new')

def insertBelow (h : Nodes w V) (node : Nat) (key newMask : BitVec w) (val : V) :
    Res (Nodes w V × Nat) := do
  let n ← deref h node
  if n.mask == newMask then
    if n.value.isSome then .error .assertion
    else return (h.set node { n with value := some val }, node)
  else
    match ← insertLeg h node key newMask val false with
    | some r => return r
    | none =>
      match ← insertLeg h node key newMask val true with
      | some r => return r
      | none => .error .endOfInsert

def insert (h : Nodes w V) (key : BitVec w) (width : Nat) (val : V) : Res (Nodes w V × Nat) := do
  let newMask := if width < w then BitVec.allOnes w <<< (w - width) else BitVec.allOnes w
  let key := key &&& newMask
  let node ← walk h key newMask h.size head
  insertBelow h node key newMask val

def kidMatches (h : Nodes w V) (kid : Option Nat) (key : BitVec w) : Res Bool :=
  match kid with
  | none => .ok false
  | some k => do return (← deref h k).matches key

def lookupFrom (h : Nodes w V) (key : BitVec w) : Nat → Nat → Res (Option Nat)
  | 0, _ => .error .diverges
  | fuel + 1, node => do
    let n ← deref h node
    if n.value.isSome then return some node
    else if ← kidMatches h n.kid0 key then lookupFrom h key fuel (n.kid0.getD node)
    else if ← kidMatches h n.kid1 key then lookupFrom h key fuel (n.kid1.getD node)
    else return none

def lookupHandle (h : Nodes w V) (key : BitVec w) : Res (Option Nat) :=
  lookupFrom h key h.size head

def lookup (h : Nodes w V) (key : BitVec w) : Res (Option V) := do
  match ← lookupHandle h key with
  | some node => return (← deref h node).value
  | none => return none

/-- The parent `m` of a removed node: `kid` takes the place of `node`, and a single
kid becomes `kids[0]`. -/
def relink (m : Node w V) (node : Nat) (kid : Option Nat) : Res (Node w V) := do
  let m ←
    if m.kid0 = some node then pure { m with kid0 := kid }
    else if m.kid1 = some node then pure { m with kid1 := kid }
    else .error .inconsistent
  return if m.kid1.isSome && m.kid0.isNone then { m with kid0 := m.kid1, kid1 := none } else m

/-- The middle of `remove`: the only kid of `node`, if any, takes its place below
`parent`. -/
def unlink (h : Nodes w V) (node : Nat) (n : Node w V) (parent : Nat) : Res (Nodes w V) := do
  let h ← match n.kid0 with
    | none => pure h
    | some kid => do
      let k ← deref h kid
      pure (h.set kid { k with parent := some parent })
  let m ← relink (← deref h parent) node n.kid0
  return h.set parent m

/-- `remove(handle)`; a parent left with one kid and no value is removed too. -/
def removeFrom (h : Nodes w V) : Nat → Nat → Res (Nodes w V × Option V)
  | 0, _ => .error .diverges
  | fuel + 1, node => do
    let n ← deref h node
    if n.kid1.isSome then
      if n.value.isNone then .error .assertion
      else return (h.set node { n with value := none }, n.value)
    else
      match n.parent with
      | none => .error .removeRoot
      | some parent =>
        let h ← unlink h node n parent
        let m ← deref h parent
        if m.kid1.isNone && m.value.isNone && m.parent.isSome then
          let (h, _) ← removeFrom h fuel parent
          return (h.free node, n.value)
        else return (h.free node, n.value)

def removeHandle (h : Nodes w V) (handle : Nat) : Res (Nodes w V × Option V) :=
  removeFrom h h.size handle

def removeKey (h : Nodes w V) (key : BitVec w) : Res (Nodes w V × Option V) := do
  match ← lookupHandle h key with
  | none => return (h, none)
  | some handle => removeHandle h handle

end Gem5.Base.Trie
