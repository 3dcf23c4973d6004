import Gem5.Lib.Loop

namespace Gem5.Dev

open Lib

/-! VirtIO queues: the device follows chains of descriptors that the guest has written. -/

inductive ByteOrder
  | little | big
deriving DecidableEq

abbrev GuestMemory := UInt64 → UInt8

def GuestMemory.readInt (mem : GuestMemory) (order : ByteOrder) (addr : UInt64)
    (bytes : Nat) : Nat :=
  let blob := (List.range bytes).map (fun i => (mem (addr + UInt64.ofNat i)).toNat)
  match order with
  | .little => blob.foldr (fun b v => b + 256 * v) 0
  | .big => blob.foldl (fun v b => 256 * v + b) 0

structure VringDesc where
  addr : UInt64 := 0
  len : UInt32 := 0
  flags : UInt16 := 0
  next : UInt16 := 0
deriving DecidableEq

namespace VringDesc

def hasNext (d : VringDesc) : Bool := d.flags &&& 1 != 0

def isOutgoing (d : VringDesc) : Bool := d.flags &&& 2 != 0

def isIncoming (d : VringDesc) : Bool := !d.isOutgoing

end VringDesc

def GuestMemory.readDesc (mem : GuestMemory) (order : ByteOrder) (addr : UInt64) : VringDesc where
  addr := UInt64.ofNat (mem.readInt order addr 8)
  len := UInt32.ofNat (mem.readInt order (addr + 8) 4)
  flags := UInt16.ofNat (mem.readInt order (addr + 12) 2)
  next := UInt16.ofNat (mem.readInt order (addr + 14) 2)

/-- How the simulator stops. An access to an object outside of the vector, and a division by zero,
are not meant to happen. -/
inductive Stop
  | assertion (text : String)
  | panic (text : String)
  | divideByZero
  | outOfBounds (index : Nat)
deriving DecidableEq

/-- The descriptors are the copies that the device has of those of the guest. -/
structure VirtQueue where
  size : Nat
  order : ByteOrder := .little
  address : UInt64 := 0
  availBase : UInt64 := 0
  lastAvail : UInt16 := 0
  descriptors : Nat → VringDesc := fun _ => {}

namespace VirtQueue

def setAddress (address : UInt64) (q : VirtQueue) : VirtQueue :=
  { q with address, availBase := address + UInt64.ofNat (16 * q.size) }

/-- The descriptor that the guest has at an index; nothing is loaded before the queue has an
address. -/
def loaded (mem : GuestMemory) (q : VirtQueue) (i : Nat) : VringDesc :=
  if q.address = 0 then q.descriptors i
  else mem.readDesc q.order (q.address + UInt64.ofNat (16 * i))

def update (mem : GuestMemory) (i : Nat) (q : VirtQueue) : VirtQueue :=
  { q with descriptors := Function.update q.descriptors i (q.loaded mem i) }

def nextOf (d : VringDesc) : Option Nat := if d.hasNext then some d.next.toNat else none

def next (q : VirtQueue) (i : Nat) : Option Nat := nextOf (q.descriptors i)

/-- Where `updateChain` is, and the descriptors that it has updated. -/
structure ChainWalk where
  queue : VirtQueue
  desc : Nat
  visited : List Nat := []

def updateRound (mem : GuestMemory) (head : Nat) (w : ChainWalk) :
    ChainWalk ⊕ (Except Stop VirtQueue × List Nat) :=
  let visited := w.visited ++ [w.desc]
  if w.queue.size ≤ w.desc then .inr (.error (.outOfBounds w.desc), visited)
  else
    let queue := w.queue.update mem w.desc
    match queue.next w.desc with
    | none => .inr (.ok queue, visited)
    | some desc =>
      if desc = head then .inr (.error (.panic "Loop in descriptor chain!\n"), visited)
      else .inl { queue, desc, visited }

/-- The index of the ring of available descriptors, as the guest has it. -/
def availIndex (mem : GuestMemory) (q : VirtQueue) : UInt16 :=
  UInt16.ofNat (mem.readInt q.order (q.availBase + 2) 2)

/-- The descriptor that the guest offers next. -/
def availHead (mem : GuestMemory) (q : VirtQueue) : Nat :=
  mem.readInt q.order (q.availBase + 4 + UInt64.ofNat (2 * (q.lastAvail.toNat % q.size))) 2

/-- The descriptor, if there is one, with the queue and the descriptors that have been updated;
`none` when the fuel runs out. -/
def consumeDescriptor (fuel : Nat) (mem : GuestMemory) (q : VirtQueue) :
    Option (Except Stop (Option Nat × VirtQueue) × List Nat) :=
  if q.availBase = 0 then some (.error (.assertion "_base != 0"), [])
  else if q.lastAvail = q.availIndex mem then some (.ok (none, q), [])
  else if q.size = 0 then some (.error .divideByZero, [])
  else
    let index := q.availHead mem
    let q := { q with lastAvail := q.lastAvail + 1 }
    (loop (updateRound mem index) fuel { queue := q, desc := index }).map
      (fun (r, visited) => (r.map (fun q => (some index, q)), visited))

/-! The functions of the devices on a chain. -/

def sizeRound (q : VirtQueue) : Nat × Nat → (Nat × Nat) ⊕ Except Stop Nat
  | (desc, size) =>
    if q.size ≤ desc then .inr (.error (.outOfBounds desc))
    else
      let size := size + (q.descriptors desc).len.toNat
      match q.next desc with
      | none => .inr (.ok size)
      | some desc => .inl (desc, size)

def chainSize (fuel : Nat) (q : VirtQueue) (desc : Nat) : Option (Except Stop Nat) :=
  loop q.sizeRound fuel (desc, 0)

/-- What is left of a transfer: the offset into the chain, and the number of bytes; and the bytes
that have been read, or are to be written. -/
structure Transfer where
  offset : Nat
  size : Nat
  data : List UInt8 := []

def readBlob (mem : GuestMemory) (addr : UInt64) (size : Nat) : List UInt8 :=
  (List.range size).map (fun i => mem (addr + UInt64.ofNat i))

def read (mem : GuestMemory) (d : VringDesc) (t : Transfer) : Except Stop Transfer :=
  let chunk := min (d.len.toNat - t.offset) t.size
  if d.isOutgoing then .error (.panic "Trying to read from outgoing buffer\n")
  else .ok
    { offset := 0, size := t.size - chunk,
      data := t.data ++ readBlob mem (d.addr + UInt64.ofNat t.offset) chunk }

def readDescriptor (mem : GuestMemory) (d : VringDesc) (t : Transfer) : Except Stop Transfer :=
  if t.offset < d.len.toNat then read mem d t
  else .ok { t with offset := t.offset - d.len.toNat }

def failedRead : String := "Failed to read %i bytes from chain of %i bytes @ offset %i\n"

def failedWrite : String := "Failed to write %i bytes into chain of %i bytes @ offset %i\n"

/-- The check after the loop. The message has the size of the chain, which is walked for it. -/
def finish (fuel : Nat) (q : VirtQueue) (desc : Nat) (text : String) (t : Transfer) :
    Option (Except Stop Transfer) :=
  if t.size ≠ 0 then (q.chainSize fuel desc).map (Except.bind · (fun _ => .error (.panic text)))
  else some (.ok t)

def readRound (mem : GuestMemory) (q : VirtQueue) :
    Nat × Transfer → (Nat × Transfer) ⊕ Except Stop Transfer
  | (desc, t) =>
    if q.size ≤ desc then .inr (.error (.outOfBounds desc))
    else
      match readDescriptor mem (q.descriptors desc) t with
      | .error e => .inr (.error e)
      | .ok t =>
        match q.next desc with
        | none => .inr (.ok t)
        | some desc =>
          if q.size ≤ desc then .inr (.error (.outOfBounds desc))
          else if (q.descriptors desc).isIncoming ∧ 0 < t.size then .inl (desc, t)
          else .inr (.ok t)

def chainRead (fuel : Nat) (mem : GuestMemory) (q : VirtQueue) (desc offset size : Nat) :
    Option (Except Stop Transfer) :=
  (loop (q.readRound mem) fuel (desc, { offset, size })).bind (fun r =>
    match r with
    | .error e => some (.error e)
    | .ok t => finish fuel q desc failedRead t)

def writeBlob (mem : GuestMemory) (addr : UInt64) (data : List UInt8) : GuestMemory :=
  data.zipIdx.foldl (fun mem (b, i) => Function.update mem (addr + UInt64.ofNat i) b) mem

def write (d : VringDesc) (t : Transfer) (mem : GuestMemory) :
    Except Stop (Transfer × GuestMemory) :=
  let chunk := min (d.len.toNat - t.offset) t.size
  if d.isIncoming then .error (.panic "Trying to write to incoming buffer\n")
  else .ok ({ offset := 0, size := t.size - chunk, data := t.data.drop chunk },
    writeBlob mem (d.addr + UInt64.ofNat t.offset) (t.data.take chunk))

def writeDescriptor (d : VringDesc) (t : Transfer) (mem : GuestMemory) :
    Except Stop (Transfer × GuestMemory) :=
  if t.offset < d.len.toNat then write d t mem
  else .ok ({ t with offset := t.offset - d.len.toNat }, mem)

def writeRound (q : VirtQueue) :
    Nat × Transfer × GuestMemory →
      (Nat × Transfer × GuestMemory) ⊕ Except Stop (Transfer × GuestMemory)
  | (desc, t, mem) =>
    if q.size ≤ desc then .inr (.error (.outOfBounds desc))
    else
      match writeDescriptor (q.descriptors desc) t mem with
      | .error e => .inr (.error e)
      | .ok (t, mem) =>
        match q.next desc with
        | none => .inr (.ok (t, mem))
        | some desc => if 0 < t.size then .inl (desc, t, mem) else .inr (.ok (t, mem))

def chainWrite (fuel : Nat) (mem : GuestMemory) (q : VirtQueue) (desc offset : Nat)
    (src : List UInt8) : Option (Except Stop GuestMemory) :=
  (loop q.writeRound fuel (desc, { offset, size := src.length, data := src }, mem)).bind (fun r =>
    match r with
    | .error e => some (.error e)
    | .ok (t, mem) => (finish fuel q desc failedWrite t).map (Except.map (fun _ => mem)))

end VirtQueue

end Gem5.Dev
