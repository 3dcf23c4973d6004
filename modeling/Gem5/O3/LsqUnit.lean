import Gem5.Lib.Ring
import Gem5.Lib.Outcome
import Gem5.Lib.Transition

namespace Gem5.O3

open Lib

/-- The parameters of a load/store queue unit. The index of a sender state has eight bits. -/
structure LsqConfig where
  maxLQEntries : Nat
  maxSQEntries : Nat
  depCheckShift : Nat
  checkLoads : Bool
  cachePorts : Nat
  needsTSO : Bool
  hasUnalignedMemAcc : Bool
  cacheLineSize : Nat
  sqEntries_le : maxSQEntries + 1 ≤ 256

namespace LsqConfig

/-- Each queue has one entry more than it holds. -/
def lqEntries (cfg : LsqConfig) : Nat := cfg.maxLQEntries + 1

def sqEntries (cfg : LsqConfig) : Nat := cfg.maxSQEntries + 1

end LsqConfig

/-- A request of a load or a store. Addresses do not wrap; `split` is set where the access
crosses a block, and there are two requests for its halves. -/
structure Request where
  vaddr : Nat
  size : Nat
  paddrLow : Nat := 0
  paddrHigh : Nat := 0
  strictlyOrdered : Bool := false
  mmappedIpr : Bool := false
  cacheBlockZero : Bool := false
  split : Bool := false
deriving DecidableEq

/-- What the unit reads and writes of an instruction. The index into the store queue of a load
may be -1, which is `none`. -/
structure DynInst where
  isLoad : Bool
  isStoreConditional : Bool := false
  isDataPrefetch : Bool := false
  lqIdx : Nat := 0
  sqIdx : Option Nat := none
  effAddr : Nat := 0
  effSize : Nat := 0
  effAddrValid : Bool := false
  strictlyOrdered : Bool := false
  physEffAddrLow : Nat := 0
  physEffAddrHigh : Nat := 0
  possibleLoadViolation : Bool := false
  hitExternalSnoop : Bool := false
  memData : Option (List UInt8) := none
  squashed : Bool := false
deriving DecidableEq

/-- A packet of a store: its only one, or one of its two halves. -/
inductive Part
  | whole | low | high
deriving DecidableEq

structure StorePacket where
  inst : Nat
  part : Part
deriving DecidableEq

structure SenderState where
  idx : Nat := 0
  outstanding : Nat := 1
  noWB : Bool := false
  isSplit : Bool := false
  pktToSend : Bool := false
  pendingPacket : Option StorePacket := none

structure SQEntry where
  inst : Option Nat := none
  req : Option Request := none
  data : Nat → UInt8 := fun _ => 0
  size : Nat := 0
  isSplit : Bool := false
  canWB : Bool := false
  committed : Bool := false
  completed : Bool := false
  isAllZeros : Bool := false

/-- What a run shows of the stores: packets that the cache has accepted, stores that completed,
store conditionals that failed, and stores that `storeWBIdx` has moved past. -/
inductive StoreEvent
  | accepted (pkt : StorePacket)
  | completed (inst : Nat)
  | failed (inst : Nat)
  | advanced (inst : Nat)
deriving DecidableEq

/-- Assertions and panics of the unit, null pointers, and loops that do not end. -/
inductive LsqFault
  | loadQueueFull | storeQueueFull | squashedInst | noLoad | noStallingLoad | noStore | noStores
  | effAddrInvalid | completedStore | iprData | storeTooLarge | storeFault
  | stalledStore | noRequest | committedTwice | storeData | splitConditional | iprConditional
  | retryPkt | pendingPkt | negative | endless
deriving DecidableEq

/-- The unit of one thread. Instructions are named by their sequence numbers. `violatedBy` is the
instruction whose check has set `memDepViolator`. -/
structure LsqUnit where
  insts : Nat → DynInst
  senders : Nat → SenderState
  loadQueue : Nat → Option Nat
  storeQueue : Nat → SQEntry
  loads : Int
  stores : Int
  storesToWB : Int
  loadHead : Nat
  loadTail : Nat
  storeHead : Nat
  storeWBIdx : Nat
  storeTail : Nat
  usedPorts : Nat
  stalled : Bool
  stallingStoreIsn : Nat
  stallingLoadIdx : Nat
  retryPkt : Option StorePacket
  isStoreBlocked : Bool
  storeInFlight : Bool
  memDepViolator : Option Nat
  violatedBy : Nat
  hasPendingPkt : Bool
  pendingPkt : Option StorePacket
  log : List StoreEvent

namespace LsqUnit

variable (cfg : LsqConfig)

section

variable (u : LsqUnit)
include u

def setInst (seqNum : Nat) (i : DynInst) : LsqUnit :=
  { u with insts := Function.update u.insts seqNum i }

def setSender (seqNum : Nat) (s : SenderState) : LsqUnit :=
  { u with senders := Function.update u.senders seqNum s }

def setStore (idx : Nat) (e : SQEntry) : LsqUnit :=
  { u with storeQueue := Function.update u.storeQueue idx e }

def setLoad (idx : Nat) (l : Option Nat) : LsqUnit :=
  { u with loadQueue := Function.update u.loadQueue idx l }

def insertLoad (seqNum : Nat) (inst : DynInst) : Except LsqFault LsqUnit :=
  if (u.loadTail + 1) % cfg.lqEntries = u.loadHead ∨ ¬u.loads < cfg.lqEntries then
    .error .loadQueueFull
  else
    let sqIdx := if u.stores = 0 then none else some u.storeTail
    let u := u.setInst seqNum { inst with lqIdx := u.loadTail, sqIdx }
    let u := u.setLoad u.loadTail (some seqNum)
    .ok { u with loadTail := Ring.next cfg.lqEntries u.loadTail, loads := u.loads + 1 }

def insertStore (seqNum : Nat) (inst : DynInst) : Except LsqFault LsqUnit :=
  if (u.storeTail + 1) % cfg.sqEntries = u.storeHead ∨ ¬u.stores < cfg.sqEntries then
    .error .storeQueueFull
  else
    let u := u.setInst seqNum { inst with lqIdx := u.loadTail, sqIdx := some u.storeTail }
    let u := u.setStore u.storeTail { inst := some seqNum }
    .ok { u with storeTail := Ring.next cfg.sqEntries u.storeTail, stores := u.stores + 1 }

def getMemDepViolator : Option Nat × LsqUnit :=
  (u.memDepViolator, { u with memDepViolator := none })

end

/-! Snoops and memory order violations. -/

/-- The loop of `checkSnoop`, which leaves the loads to execute again to their faults. -/
def snoopLoop (invalidateAddr : Nat) : Nat → Nat → Bool → LsqUnit → Except LsqFault LsqUnit
  | 0, _, _, _ => .error .endless
  | fuel + 1, loadIdx, forceSquash, u =>
    if loadIdx = u.loadTail then .ok u
    else match u.loadQueue loadIdx with
      | none => .error .noLoad
      | some ld =>
        let i := u.insts ld
        if !i.effAddrValid || i.strictlyOrdered then
          snoopLoop invalidateAddr fuel (Ring.next cfg.lqEntries loadIdx) forceSquash u
        else if i.physEffAddrLow / cfg.cacheLineSize = invalidateAddr ∨
            i.physEffAddrHigh / cfg.cacheLineSize = invalidateAddr ∨ forceSquash = true then
          let forceSquash := forceSquash || cfg.needsTSO
          let u :=
            if i.possibleLoadViolation || forceSquash then u
            else u.setInst ld { i with hitExternalSnoop := true }
          snoopLoop invalidateAddr fuel (Ring.next cfg.lqEntries loadIdx) forceSquash u
        else snoopLoop invalidateAddr fuel (Ring.next cfg.lqEntries loadIdx) forceSquash u

def checkSnoop (addr : Nat) (u : LsqUnit) : Except LsqFault LsqUnit :=
  if u.loadHead = u.loadTail then .ok u
  else snoopLoop cfg (addr / cfg.cacheLineSize) cfg.lqEntries
    (Ring.next cfg.lqEntries u.loadHead) false u

/-- The blocks that an instruction touches, as far as the dependence check sees them, meet. -/
def conflict (inst ld : DynInst) : Bool :=
  (inst.effAddr + inst.effSize - 1) >>> cfg.depCheckShift ≥ ld.effAddr >>> cfg.depCheckShift &&
    inst.effAddr >>> cfg.depCheckShift ≤ (ld.effAddr + ld.effSize - 1) >>> cfg.depCheckShift

def checkViolations (seqNum : Nat) : Nat → Nat → LsqUnit → Except LsqFault LsqUnit
  | 0, _, _ => .error .endless
  | fuel + 1, loadIdx, u =>
    if loadIdx = u.loadTail then .ok u
    else match u.loadQueue loadIdx with
      | none => .error .noLoad
      | some ld =>
        let i := u.insts ld
        if !i.effAddrValid || i.strictlyOrdered then
          checkViolations seqNum fuel (Ring.next cfg.lqEntries loadIdx) u
        else if conflict cfg (u.insts seqNum) i then
          if (u.insts seqNum).isLoad then
            if i.hitExternalSnoop && u.memDepViolator.all (ld < ·) then
              .ok { u with memDepViolator := some ld, violatedBy := seqNum }
            else
              checkViolations seqNum fuel (Ring.next cfg.lqEntries loadIdx)
                (u.setInst ld { i with possibleLoadViolation := true })
          else if u.memDepViolator.any (· < ld) then .ok u
          else .ok { u with memDepViolator := some ld, violatedBy := seqNum }
        else checkViolations seqNum fuel (Ring.next cfg.lqEntries loadIdx) u

/-! Executing loads and stores. -/

/-- What comes of `initiateAcc`: the translation is delayed, or has a fault, the predicate is
false, or the access goes on to `read` or `write`. -/
inductive Initiated
  | delayed
  | fault (strictlyOrdered : Bool)
  | predicatedFalse
  | access (req : Request)
deriving DecidableEq

inductive ReadResult
  | fault | ipr | forwarded | rescheduled | blocked | sent
deriving DecidableEq

/-- What `read` gets from outside: whether the load is at commit, the data of a memory-mapped
register, and whether the cache takes the packets. -/
structure ReadEnv where
  atCommit : Bool := false
  iprData : List UInt8 := []
  acceptFirst : Bool := true
  acceptSecond : Bool := true

/-- The bytes that a store has for a load. -/
def forwardData (e : SQEntry) (shift size : Nat) : List UInt8 :=
  if e.isAllZeros then List.replicate size 0
  else (List.range size).map (fun i => e.data (shift + i))

def accessCache (req : Request) (ld : Nat) (env : ReadEnv) (u : LsqUnit) : ReadResult × LsqUnit :=
  let i := u.insts ld
  let u := u.setInst ld { i with memData := some (i.memData.getD (List.replicate req.size 0)) }
  let u := { u with usedPorts := u.usedPorts + 1 }
  if !env.acceptFirst then (.blocked, u)
  else if cfg.hasUnalignedMemAcc && req.split then
    (if env.acceptSecond then .sent else .blocked, { u with usedPorts := u.usedPorts + 1 })
  else (.sent, u)

def forwardLoop (req : Request) (ld loadIdx : Nat) (env : ReadEnv) :
    Nat → Nat → LsqUnit → Except LsqFault (ReadResult × LsqUnit)
  | 0, _, _ => .error .endless
  | fuel + 1, storeIdx, u =>
    if storeIdx = u.storeWBIdx then .ok (accessCache cfg req ld env u)
    else
      let storeIdx := Ring.prev cfg.sqEntries storeIdx
      let e := u.storeQueue storeIdx
      match e.inst with
      | none => .error .noStore
      | some st =>
        let i := u.insts st
        if e.size = 0 then forwardLoop req ld loadIdx env fuel storeIdx u
        else if i.strictlyOrdered then forwardLoop req ld loadIdx env fuel storeIdx u
        else if !i.effAddrValid then .error .effAddrInvalid
        else
          let storeHasLowerLimit := decide (req.vaddr ≥ i.effAddr)
          let storeHasUpperLimit := decide (req.vaddr + req.size ≤ i.effAddr + e.size)
          let lowerLoadHasStorePart := decide (req.vaddr < i.effAddr + e.size)
          let upperLoadHasStorePart := decide (req.vaddr + req.size > i.effAddr)
          if storeHasLowerLimit && storeHasUpperLimit then
            .ok (.forwarded, u.setInst ld
              { u.insts ld with
                memData := some (forwardData e (req.vaddr - i.effAddr) req.size) })
          else if (storeHasLowerLimit && lowerLoadHasStorePart) ||
              (storeHasUpperLimit && upperLoadHasStorePart) ||
              (lowerLoadHasStorePart && upperLoadHasStorePart) then
            if e.completed then .error .completedStore
            else if !u.stalled then
              .ok (.rescheduled,
                { u with stalled := true, stallingStoreIsn := st, stallingLoadIdx := loadIdx })
            else match u.loadQueue u.stallingLoadIdx with
              | none => .error .noStallingLoad
              | some stalling =>
                if ld < stalling then
                  .ok (.rescheduled, { u with stallingStoreIsn := st, stallingLoadIdx := loadIdx })
                else .ok (.rescheduled, u)
          else forwardLoop req ld loadIdx env fuel storeIdx u

def read (req : Request) (loadIdx : Nat) (env : ReadEnv) (u : LsqUnit) :
    Except LsqFault (ReadResult × LsqUnit) :=
  match u.loadQueue loadIdx with
  | none => .error .noLoad
  | some ld =>
    if req.strictlyOrdered && (loadIdx ≠ u.loadHead || !env.atCommit) then .ok (.fault, u)
    else if req.mmappedIpr then
      if (u.insts ld).memData.isSome then .error .iprData
      else .ok (.ipr, u.setInst ld { u.insts ld with memData := some env.iprData })
    else match (u.insts ld).sqIdx with
      | none => .ok (accessCache cfg req ld env u)
      | some storeIdx => forwardLoop cfg req ld loadIdx env (cfg.sqEntries + 1) storeIdx u

/-- What `initiateMemRead` and `writeMem` note in the instruction before `read` and `write`. -/
def DynInst.translated (i : DynInst) (req : Request) : DynInst :=
  { i with
    effAddr := req.vaddr
    effSize := req.size
    effAddrValid := true
    strictlyOrdered := req.strictlyOrdered
    physEffAddrLow := req.paddrLow
    physEffAddrHigh := if req.split then req.paddrHigh else i.physEffAddrHigh }

def executeLoad (seqNum : Nat) (initiated : Initiated) (env : ReadEnv) (u : LsqUnit) :
    Except LsqFault (Option ReadResult × LsqUnit) :=
  let i := u.insts seqNum
  if i.squashed then .error .squashedInst
  else match initiated with
    | .delayed => .ok (none, u)
    | .fault strictlyOrdered => .ok (none, u.setInst seqNum { i with strictlyOrdered })
    | .predicatedFalse => .ok (none, u)
    | .access req => do
      let (result, u) ← read cfg req i.lqIdx env (u.setInst seqNum (DynInst.translated i req))
      if result = .fault then .ok (some result, u)
      else if cfg.checkLoads then
        let u ← checkViolations cfg seqNum (cfg.lqEntries + 1) (Ring.next cfg.lqEntries i.lqIdx) u
        .ok (some result, u)
      else .ok (some result, u)

/-- A size has eight bits in the store queue. -/
def write (req : Request) (data : Nat → UInt8) (storeIdx : Nat) (u : LsqUnit) :
    Except LsqFault LsqUnit :=
  let e := u.storeQueue storeIdx
  if e.inst.isNone then .error .noStore
  else if ¬(req.size ≤ 16 ∨ req.cacheBlockZero = true) then .error .storeTooLarge
  else
    .ok (u.setStore storeIdx
      { e with
        req := some req
        size := req.size % 256
        isAllZeros := req.cacheBlockZero
        isSplit := e.isSplit || (cfg.hasUnalignedMemAcc && req.split)
        data := if req.cacheBlockZero then e.data
          else fun i => if i < req.size then data i else e.data i })

/-- The end of `executeStore`, for a store that has been written to its entry. The flag says
that the store was checked for violations. -/
def checkStore (seqNum storeIdx : Nat) (u : LsqUnit) : Except LsqFault (Bool × LsqUnit) := do
  let e := u.storeQueue storeIdx
  if e.size = 0 then .ok (false, u)
  else
    let i := u.insts seqNum
    let u :=
      if i.isStoreConditional then
        { u.setStore storeIdx { e with canWB := true } with storesToWB := u.storesToWB + 1 }
      else u
    let u ← checkViolations cfg seqNum (cfg.lqEntries + 1) i.lqIdx u
    .ok (true, u)

def executeStore (seqNum : Nat) (initiated : Initiated) (data : Nat → UInt8) (u : LsqUnit) :
    Except LsqFault (Bool × LsqUnit) :=
  let i := u.insts seqNum
  if u.stores = 0 then .error .noStores
  else if i.squashed then .error .squashedInst
  else match i.sqIdx with
    | none => .error .noStore
    | some storeIdx => match initiated with
      | .delayed => .ok (false, u)
      | .fault strictlyOrdered =>
        if (u.storeQueue storeIdx).size = 0 then
          .ok (false, u.setInst seqNum { i with strictlyOrdered })
        else .error .storeFault
      | .predicatedFalse => .ok (false, u)
      | .access req => do
        let u ← write cfg req data storeIdx (u.setInst seqNum (DynInst.translated i req))
        checkStore cfg seqNum storeIdx u

/-! Committing. -/

def commitLoad (u : LsqUnit) : Except LsqFault LsqUnit :=
  if (u.loadQueue u.loadHead).isNone then .error .noLoad
  else
    let u := u.setLoad u.loadHead none
    .ok { u with loadHead := Ring.next cfg.lqEntries u.loadHead, loads := u.loads - 1 }

def commitLoads (youngest : Nat) : Nat → LsqUnit → Except LsqFault LsqUnit
  | 0, _ => .error .endless
  | fuel + 1, u =>
    if u.loads = 0 then .ok u
    else match u.loadQueue u.loadHead with
      | none => .error .noLoad
      | some ld =>
        if ld ≤ youngest then (commitLoad cfg u).bind (commitLoads youngest fuel) else .ok u

def commitStores (youngest : Nat) : Nat → Nat → LsqUnit → Except LsqFault LsqUnit
  | 0, _, _ => .error .endless
  | fuel + 1, storeIdx, u =>
    if storeIdx = u.storeTail then .ok u
    else
      let e := u.storeQueue storeIdx
      match e.inst with
      | none => .error .noStore
      | some st =>
        if e.canWB then commitStores youngest fuel (Ring.next cfg.sqEntries storeIdx) u
        else if youngest < st then .ok u
        else commitStores youngest fuel (Ring.next cfg.sqEntries storeIdx)
          { u.setStore storeIdx { e with canWB := true } with storesToWB := u.storesToWB + 1 }

/-! Writing back stores. -/

/-- What writing back gets from outside: whether the cache takes a packet, and whether a store
conditional succeeds. -/
structure WritebackEnv where
  accept : StorePacket → Bool
  handleLockedWrite : Nat → Bool

def advance (u : LsqUnit) : LsqUnit :=
  { u with
    storeWBIdx := Ring.next cfg.sqEntries u.storeWBIdx
    log := u.log ++ (u.storeQueue u.storeWBIdx).inst.toList.map StoreEvent.advanced }

/-- The loop of `completeStore` that frees the entries of completed stores. -/
def freeLoop : Nat → LsqUnit → Except LsqFault LsqUnit
  | 0, _ => .error .endless
  | fuel + 1, u =>
    let u := { u with storeHead := Ring.next cfg.sqEntries u.storeHead, stores := u.stores - 1 }
    if (u.storeQueue u.storeHead).completed ∧ u.storeHead ≠ u.storeTail then freeLoop fuel u
    else .ok u

def unstall (seqNum : Nat) (u : LsqUnit) : LsqUnit :=
  if u.stalled = true ∧ seqNum = u.stallingStoreIsn then
    { u with stalled := false, stallingStoreIsn := 0 }
  else u

def completeStore (storeIdx : Nat) (u : LsqUnit) : Except LsqFault LsqUnit :=
  let e := u.storeQueue storeIdx
  match e.inst with
  | none => .error .noStore
  | some st => do
    let u := { u.setStore storeIdx { e with completed := true } with
      storesToWB := u.storesToWB - 1 }
    let u ← if storeIdx = u.storeHead then freeLoop cfg cfg.sqEntries u else .ok u
    let u := u.unstall st
    .ok { u with
      storeInFlight := if cfg.needsTSO then false else u.storeInFlight
      log := u.log ++ [.completed st] }

def storePostSend (u : LsqUnit) : Except LsqFault LsqUnit :=
  match (u.storeQueue u.storeWBIdx).inst with
  | none => .error .noStore
  | some st =>
    let u := u.unstall st
    .ok (advance cfg { u with storeInFlight := if cfg.needsTSO then true else u.storeInFlight })

section

variable (env : WritebackEnv)
include env

def sendStore (pkt : StorePacket) (u : LsqUnit) : Except LsqFault (Bool × LsqUnit) :=
  if env.accept pkt then .ok (true, { u with log := u.log ++ [.accepted pkt] })
  else if u.retryPkt.isSome then .error .retryPkt
  else .ok (false, { u with isStoreBlocked := true, retryPkt := some pkt })

def sendLast (pkt : StorePacket) (u : LsqUnit) : Except LsqFault LsqUnit := do
  let (sent, u) ← sendStore env pkt u
  if sent then storePostSend cfg u else .ok u

def writebackPendingStore (u : LsqUnit) : Except LsqFault LsqUnit :=
  if u.hasPendingPkt then
    match u.pendingPkt with
    | none => .error .pendingPkt
    | some pkt => do
      let u ← sendLast cfg env pkt u
      .ok { u with pendingPkt := none, hasPendingPkt := false }
  else .ok u

def sendPackets (st : Nat) (split : Bool) (u : LsqUnit) : Except LsqFault LsqUnit :=
  if split then do
    let (sent, u) ← sendStore env ⟨st, .low⟩ u
    if !sent then
      .ok (u.setSender st
        { u.senders st with pktToSend := true, pendingPacket := some ⟨st, .high⟩ })
    else if u.usedPorts < cfg.cachePorts then
      sendLast cfg env ⟨st, .high⟩ { u with usedPorts := u.usedPorts + 1 }
    else if u.pendingPkt.isSome then .error .pendingPkt
    else .ok { u with pendingPkt := some ⟨st, .high⟩, hasPendingPkt := true }
  else sendLast cfg env ⟨st, .whole⟩ u

end

/-- A store that needs no packet completes on the spot. -/
def completeAndAdvance (u : LsqUnit) : Except LsqFault LsqUnit := do
  let u ← completeStore cfg u.storeWBIdx u
  .ok (advance cfg u)

/-- The store at `storeWBIdx` is committed: its data is copied and it gets a sender state. -/
def launch (st : Nat) (e : SQEntry) (req : Request) (split : Bool) (u : LsqUnit) : LsqUnit :=
  let u := u.setStore u.storeWBIdx { e with committed := true }
  let u := u.setInst st { u.insts st with memData := some (forwardData e 0 req.size) }
  u.setSender st
    { idx := u.storeWBIdx % 256
      outstanding := if split then 2 else 1
      isSplit := split
      noWB := !(u.insts st).isStoreConditional }

def writebackStore (env : WritebackEnv) (u : LsqUnit) : Except LsqFault LsqUnit :=
  let e := u.storeQueue u.storeWBIdx
  let u := { u with usedPorts := u.usedPorts + 1 }
  match e.inst with
  | none => .error .noStore
  | some st =>
    let i := u.insts st
    if i.isDataPrefetch then .ok (advance cfg u)
    else match e.req with
      | none => .error .noRequest
      | some req =>
        let split := cfg.hasUnalignedMemAcc && e.isSplit
        if e.committed then .error .committedTwice
        else if i.memData.isSome then .error .storeData
        else
          let u := u.launch st e req split
          if i.isStoreConditional = true ∧ e.isSplit = true then .error .splitConditional
          else if i.isStoreConditional = true ∧ env.handleLockedWrite st = false then
            completeAndAdvance cfg { u with log := u.log ++ [.failed st] }
          else if req.mmappedIpr then
            if i.isStoreConditional then .error .iprConditional else completeAndAdvance cfg u
          else sendPackets cfg env st split u

def canWriteback (u : LsqUnit) : Bool :=
  u.storesToWB > 0 && u.storeWBIdx ≠ u.storeTail && (u.storeQueue u.storeWBIdx).inst.isSome &&
    (u.storeQueue u.storeWBIdx).canWB && (!cfg.needsTSO || !u.storeInFlight) &&
    u.usedPorts < cfg.cachePorts

def writebackLoop (env : WritebackEnv) : Nat → LsqUnit → Except LsqFault LsqUnit
  | 0, _ => .error .endless
  | fuel + 1, u =>
    if canWriteback cfg u then
      if u.isStoreBlocked then .ok u
      else if (u.storeQueue u.storeWBIdx).size = 0 then
        (completeAndAdvance cfg u).bind (writebackLoop env fuel)
      else (writebackStore cfg env u).bind (writebackLoop env fuel)
    else .ok u

def writebackStores (env : WritebackEnv) (u : LsqUnit) : Except LsqFault LsqUnit := do
  let u ← if cfg.hasUnalignedMemAcc then writebackPendingStore cfg env u else .ok u
  let u ← writebackLoop cfg env (cfg.sqEntries + 1) u
  if u.stores < 0 ∨ u.storesToWB < 0 then .error .negative else .ok { u with usedPorts := 0 }

def recvRetry (env : WritebackEnv) (u : LsqUnit) : Except LsqFault LsqUnit :=
  if u.isStoreBlocked then
    match u.retryPkt with
    | none => .error .retryPkt
    | some pkt =>
      if env.accept pkt then do
        let s := u.senders pkt.inst
        let u := { u with log := u.log ++ [.accepted pkt] }
        -- the store is finished by its last packet
        let last := !cfg.hasUnalignedMemAcc || !s.pktToSend || s.pendingPacket = some pkt
        let u ← if last then storePostSend cfg (u.setSender pkt.inst { s with pktToSend := false })
          else .ok u
        let u := { u with retryPkt := none, isStoreBlocked := false }
        if cfg.hasUnalignedMemAcc && (u.senders pkt.inst).pktToSend then
          match (u.senders pkt.inst).pendingPacket with
          | none => .error .pendingPkt
          | some next => sendLast cfg env next u
        else .ok u
      else .ok u
  else .ok u

def completeDataAccess (pkt : StorePacket) (u : LsqUnit) : Except LsqFault LsqUnit :=
  let s := u.senders pkt.inst
  let s := if cfg.hasUnalignedMemAcc then { s with outstanding := s.outstanding - 1 } else s
  let u := u.setSender pkt.inst s
  if cfg.hasUnalignedMemAcc && s.outstanding ≠ 0 then .ok u
  else if (u.insts pkt.inst).squashed then .ok u
  else completeStore cfg s.idx u

/-! Squashing. -/

def squashLoad (loadIdx ld : Nat) (u : LsqUnit) : LsqUnit :=
  let u :=
    if u.stalled = true ∧ loadIdx = u.stallingLoadIdx then
      { u with stalled := false, stallingStoreIsn := 0, stallingLoadIdx := 0 }
    else u
  let u := u.setInst ld { u.insts ld with squashed := true }
  let u := u.setLoad loadIdx none
  { u with loads := u.loads - 1, loadTail := loadIdx }

def squashLoads (squashedNum : Nat) : Nat → Nat → LsqUnit → Except LsqFault LsqUnit
  | 0, _, _ => .error .endless
  | fuel + 1, loadIdx, u =>
    if u.loads = 0 then .ok u
    else match u.loadQueue loadIdx with
      | none => .error .noLoad
      | some ld =>
        if squashedNum < ld then
          squashLoads squashedNum fuel (Ring.prev cfg.lqEntries loadIdx) (u.squashLoad loadIdx ld)
        else .ok u

def squashStore (storeIdx st : Nat) (u : LsqUnit) : LsqUnit :=
  let u := u.setInst st { u.insts st with squashed := true }
  let u := u.setStore storeIdx
    { u.storeQueue storeIdx with inst := none, canWB := false, req := none }
  { u with stores := u.stores - 1, storeTail := storeIdx }

def squashStores (squashedNum : Nat) : Nat → Nat → LsqUnit → Except LsqFault LsqUnit
  | 0, _, _ => .error .endless
  | fuel + 1, storeIdx, u =>
    if u.stores = 0 then .ok u
    else
      let e := u.storeQueue storeIdx
      match e.inst with
      | none => .error .noStore
      | some st =>
        if squashedNum < st then
          if e.canWB then .ok u
          else if u.stalled = true ∧ st = u.stallingStoreIsn then .error .stalledStore
          else squashStores squashedNum fuel (Ring.prev cfg.sqEntries storeIdx)
            (u.squashStore storeIdx st)
        else .ok u

def squash (squashedNum : Nat) (u : LsqUnit) : Except LsqFault LsqUnit := do
  let u ← squashLoads cfg squashedNum (cfg.lqEntries + 1) (Ring.prev cfg.lqEntries u.loadTail) u
  let u :=
    if u.memDepViolator.any (squashedNum < ·) then { u with memDepViolator := none } else u
  squashStores cfg squashedNum (cfg.sqEntries + 1) (Ring.prev cfg.sqEntries u.storeTail) u

/-! Runs. -/

/-- What a run has shown besides the unit. The pipeline gives numbers to instructions in program
order. None up to `committedNum` is still to be executed: it has committed, or it is a store
conditional that executes at the head of the reorder buffer, or is before one. `program` lists
the stores that have been inserted and not squashed, `requests` what they write, and `responded`
the packets that the cache has answered. -/
structure History where
  lastSeqNum : Nat
  committedNum : Nat
  program : List Nat
  requests : Nat → Option (Request × (Nat → UInt8))
  responded : List StorePacket

structure Watched extends History where
  unit : LsqUnit

inductive Move
  | insertLoad (seqNum : Nat) (isDataPrefetch : Bool)
  | insertStore (seqNum : Nat) (isStoreConditional isDataPrefetch : Bool)
  | executeLoad (seqNum : Nat) (initiated : Initiated) (env : ReadEnv)
  | executeStore (seqNum : Nat) (initiated : Initiated) (data : Nat → UInt8)
  | commitLoads (youngest : Nat)
  | commitStores (youngest : Nat)
  | squash (squashedNum : Nat)
  | getMemDepViolator
  | checkSnoop (addr : Nat)
  | tick
  | writebackStores (env : WritebackEnv)
  | recvRetry (env : WritebackEnv)
  | completeDataAccess (pkt : StorePacket)

/-- How the pipeline and the cache call the unit. Instructions are inserted in program order;
one that executes is in its queue and has not committed, and a store that has been written to
its entry is not executed again. The cache answers a packet once it has accepted it, and once. -/
def Enabled (w : Watched) : Move → Prop
  | .insertLoad seqNum _ => w.lastSeqNum < seqNum
  | .insertStore seqNum _ _ => w.lastSeqNum < seqNum
  | .executeLoad seqNum _ _ => w.committedNum < seqNum ∧
      w.unit.loadQueue (w.unit.insts seqNum).lqIdx = some seqNum
  | .executeStore seqNum _ _ => w.committedNum < seqNum ∧ seqNum ∈ w.program ∧
      (w.requests seqNum).isNone = true
  | .completeDataAccess pkt => StoreEvent.accepted pkt ∈ w.unit.log ∧ pkt ∉ w.responded
  | _ => True

instance (w : Watched) (m : Move) : Decidable (Enabled w m) := by
  cases m <;> unfold Enabled <;> infer_instance

def apply (w : Watched) : Move → Except LsqFault Watched
  | .insertLoad seqNum isDataPrefetch => do
    let u ← insertLoad cfg w.unit seqNum { isLoad := true, isDataPrefetch }
    .ok { w with unit := u, lastSeqNum := seqNum }
  | .insertStore seqNum isStoreConditional isDataPrefetch => do
    let u ← insertStore cfg w.unit seqNum { isLoad := false, isStoreConditional, isDataPrefetch }
    .ok { w with unit := u, lastSeqNum := seqNum, program := w.program ++ [seqNum] }
  | .executeLoad seqNum initiated env => do
    let (_, u) ← executeLoad cfg seqNum initiated env w.unit
    .ok { w with unit := u }
  | .executeStore seqNum initiated data => do
    let (checked, u) ← executeStore cfg seqNum initiated data w.unit
    .ok { w with
      unit := u
      committedNum := if checked && (u.insts seqNum).isStoreConditional then seqNum
        else w.committedNum
      requests := match initiated with
        | .access req => Function.update w.requests seqNum (some (req, data))
        | _ => w.requests }
  | .commitLoads youngest => do
    let u ← commitLoads cfg youngest (cfg.lqEntries + 1) w.unit
    .ok { w with unit := u, committedNum := max w.committedNum youngest }
  | .commitStores youngest => do
    let u ← commitStores cfg youngest (cfg.sqEntries + 1) w.unit.storeHead w.unit
    .ok { w with unit := u, committedNum := max w.committedNum youngest }
  | .squash squashedNum => do
    let u ← squash cfg squashedNum w.unit
    .ok { w with unit := u, program := w.program.filter (fun s => !(u.insts s).squashed) }
  | .getMemDepViolator => .ok { w with unit := w.unit.getMemDepViolator.2 }
  | .checkSnoop addr => do
    let u ← checkSnoop cfg addr w.unit
    .ok { w with unit := u }
  | .tick => .ok { w with unit := { w.unit with usedPorts := 0 } }
  | .writebackStores env => do
    let u ← writebackStores cfg env w.unit
    .ok { w with unit := u }
  | .recvRetry env => do
    let u ← recvRetry cfg env w.unit
    .ok { w with unit := u }
  | .completeDataAccess pkt => do
    let u ← completeDataAccess cfg pkt w.unit
    .ok { w with unit := u, responded := pkt :: w.responded }

def move (w : Watched) (m : Move) : Option Watched :=
  if Enabled w m then (apply cfg w m).toOption else none

def initial : Watched where
  unit :=
    { insts := fun _ => { isLoad := true }
      senders := fun _ => {}
      loadQueue := fun _ => none
      storeQueue := fun _ => {}
      loads := 0
      stores := 0
      storesToWB := 0
      loadHead := 0
      loadTail := 0
      storeHead := 0
      storeWBIdx := 0
      storeTail := 0
      usedPorts := 0
      stalled := false
      stallingStoreIsn := 0
      stallingLoadIdx := 0
      retryPkt := none
      isStoreBlocked := false
      storeInFlight := false
      memDepViolator := none
      violatedBy := 0
      hasPendingPkt := false
      pendingPkt := none
      log := [] }
  lastSeqNum := 0
  committedNum := 0
  program := []
  requests := fun _ => none
  responded := []

def machine : Machine Watched Move where
  init w := w = initial
  step w m w' := Enabled w m ∧ apply cfg w m = .ok w'

theorem step_of_move (w : Watched) (m : Move) (w' : Watched) (h : move cfg w m = some w') :
    (machine cfg).step w m w' := by
  obtain ⟨hen, h⟩ := Option.ite_none_right_eq_some.mp h
  exact ⟨hen, toOption_eq_some.mp h⟩

end LsqUnit

end Gem5.O3
