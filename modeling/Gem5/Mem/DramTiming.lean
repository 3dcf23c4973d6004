import Gem5.Lib.Spacing
import Gem5.Lib.Transition

namespace Gem5.Mem

open Lib

/-! The DRAM controller: when the commands of an access are issued. -/

inductive PageManage
  | openPage | openAdaptive | closePage | closeAdaptive
deriving DecidableEq

structure DramConfig where
  ranksPerChannel : Nat
  banksPerRank : Nat
  bankGroupsPerRank : Nat
  tCS : Nat
  tBURST : Nat
  tCCD_L : Nat
  tRCD : Nat
  tCL : Nat
  tRP : Nat
  tRAS : Nat
  tWR : Nat
  tRTP : Nat
  tRFC : Nat
  tRRD : Nat
  tRRD_L : Nat
  tXAW : Nat
  activationLimit : Nat
  burstSize : Nat
  maxAccessesPerRow : Nat
  pageMgmt : PageManage
  groups : 0 < bankGroupsPerRank → tBURST < tCCD_L ∧ tRRD ≤ tRRD_L

namespace DramConfig

variable (cfg : DramConfig)

def bankGroupArch : Bool := 0 < cfg.bankGroupsPerRank

def bankgr (bank : Nat) : Nat := if cfg.bankGroupArch then bank % cfg.bankGroupsPerRank else bank

def sameGroup (bank bank' : Nat) : Bool := cfg.bankGroupArch && cfg.bankgr bank == cfg.bankgr bank'

/-- From an activate of a bank to one of another bank of the rank. -/
def actDelay (bank bank' : Nat) : Nat := if cfg.sameGroup bank bank' then cfg.tRRD_L else cfg.tRRD

/-- From a burst of a bank to one of another bank, perhaps of another rank. -/
def cmdDly (rank bank rank' bank' : Nat) : Nat :=
  if rank = rank' then if cfg.sameGroup bank bank' then cfg.tCCD_L else cfg.tBURST
  else cfg.tBURST + cfg.tCS

end DramConfig

structure DramBank where
  openRow : Option Nat := none
  colAllowedAt : Nat := 0
  preAllowedAt : Nat := 0
  actAllowedAt : Nat := 0
  rowAccesses : Nat := 0
  bytesAccessed : Nat := 0

/-- The ticks of the last activates, newest first; 0 stands for none. -/
structure DramRank (cfg : DramConfig) where
  banks : Fin cfg.banksPerRank → DramBank := fun _ => {}
  actTicks : List Nat := List.replicate cfg.activationLimit 0
  numBanksActive : Nat := 0

inductive DramCmd
  | act | pre | rd | wr
deriving DecidableEq

structure DramCommand (cfg : DramConfig) where
  cmd : DramCmd
  rank : Fin cfg.ranksPerChannel
  bank : Fin cfg.banksPerRank
  timeStamp : Nat

/-- The commands since the last refresh are kept, newest first. -/
structure DramCtrl (cfg : DramConfig) where
  ranks : Fin cfg.ranksPerChannel → DramRank cfg := fun _ => {}
  busBusyUntil : Nat := 0
  nextReqTime : Nat := 0
  activeRank : Nat := 0
  cmdList : List (DramCommand cfg) := []

inductive DramStop
  | assertion (text : String)
  | panic (text : String)
deriving DecidableEq

structure DramPacket (cfg : DramConfig) where
  isRead : Bool
  rank : Fin cfg.ranksPerChannel
  bank : Fin cfg.banksPerRank
  row : Nat

variable {cfg : DramConfig}

namespace DramRank

/-- The oldest of the activates, if another one at `actTick` is in one window with it. -/
def tooSoon (cfg : DramConfig) (actTick : Nat) (actTicks : List Nat) : Option Nat :=
  actTicks.getLast?.filter (fun t => t ≠ 0 ∧ actTick - t < cfg.tXAW)

/-- The new activate takes the place of the oldest. -/
def pushTick (actTick : Nat) (actTicks : List Nat) : List Nat :=
  if actTicks = [] then [] else actTick :: actTicks.dropLast

def delay (tick : Option Nat) (b : DramBank) : DramBank :=
  { b with actAllowedAt := max (tick.getD 0) b.actAllowedAt }

def numOpen (rank : DramRank cfg) : Nat :=
  (Finset.univ.filter (fun b => (rank.banks b).openRow.isSome)).card

/-- The row is opened: all banks of the rank have to wait with their next activates. -/
def activate (bank : Fin cfg.banksPerRank) (actTick row : Nat) (rank : DramRank cfg) :
    DramRank cfg :=
  let old := rank.banks bank
  let banks := Function.update rank.banks bank { old with
    openRow := some row
    bytesAccessed := 0
    rowAccesses := 0
    preAllowedAt := actTick + cfg.tRAS
    colAllowedAt := max (actTick + cfg.tRCD) old.colAllowedAt }
  let actTicks := pushTick actTick rank.actTicks
  { banks := fun i => delay ((tooSoon cfg actTick actTicks).map (· + cfg.tXAW))
      (delay (some (actTick + cfg.actDelay bank i)) (banks i))
    actTicks
    numBanksActive := rank.numBanksActive + 1 }

def precharge (bank : Fin cfg.banksPerRank) (preAt : Nat) (rank : DramRank cfg) : DramRank cfg :=
  let old := rank.banks bank
  { rank with
    banks := Function.update rank.banks bank { old with
      openRow := none
      preAllowedAt := preAt
      actAllowedAt := max old.actAllowedAt (preAt + cfg.tRP) }
    numBanksActive := rank.numBanksActive - 1 }

/-- Before a refresh, the banks that are open are closed, at the same tick. -/
def prechargeAll (now : Nat) (rank : DramRank cfg) : DramRank cfg :=
  let preAt := max now (Finset.univ.sup (fun b => (rank.banks b).preAllowedAt))
  { rank with
    banks := fun b =>
      let bank := rank.banks b
      { bank with
        openRow := none
        preAllowedAt := if bank.openRow = none then max bank.preAllowedAt preAt else preAt
        actAllowedAt := max bank.actAllowedAt (preAt + cfg.tRP) }
    numBanksActive := rank.numBanksActive - rank.numOpen }

/-- No bank is activated before the refresh is done. -/
def refresh (now : Nat) (rank : DramRank cfg) : DramRank cfg :=
  { rank with banks := fun b => { rank.banks b with actAllowedAt := now + cfg.tRFC } }

end DramRank

namespace DramCtrl

def bank (s : DramCtrl cfg) (r : Fin cfg.ranksPerChannel) (b : Fin cfg.banksPerRank) : DramBank :=
  (s.ranks r).banks b

def setRank (r : Fin cfg.ranksPerChannel) (rank : DramRank cfg) (s : DramCtrl cfg) : DramCtrl cfg :=
  { s with ranks := Function.update s.ranks r rank }

def emit (c : DramCommand cfg) (s : DramCtrl cfg) : DramCtrl cfg :=
  { s with cmdList := c :: s.cmdList }

def activateBank (r : Fin cfg.ranksPerChannel) (b : Fin cfg.banksPerRank) (actTick row : Nat)
    (s : DramCtrl cfg) : Except DramStop (DramCtrl cfg) :=
  if (s.ranks r).actTicks.length ≠ cfg.activationLimit then
    .error (.assertion "rank_ref.actTicks.size() == activationLimit")
  else if (s.bank r b).openRow ≠ none then
    .error (.assertion "bank_ref.openRow == Bank::NO_ROW")
  else if cfg.banksPerRank < (s.ranks r).numBanksActive + 1 then
    .error (.assertion "rank_ref.numBanksActive <= banksPerRank")
  else if (DramRank.tooSoon cfg actTick (s.ranks r).actTicks).isSome then
    .error (.panic
      "Got %d activates in window %d (%llu - %llu) which is smaller than %llu\n")
  else .ok ((s.setRank r ((s.ranks r).activate b actTick row)).emit ⟨.act, r, b, actTick⟩)

def prechargeBank (r : Fin cfg.ranksPerChannel) (b : Fin cfg.banksPerRank) (preAt : Nat)
    (trace : Bool) (s : DramCtrl cfg) : Except DramStop (DramCtrl cfg) :=
  if (s.bank r b).openRow = none then .error (.assertion "bank.openRow != Bank::NO_ROW")
  else if (s.ranks r).numBanksActive = 0 then
    .error (.assertion "rank_ref.numBanksActive != 0")
  else
    let s := s.setRank r ((s.ranks r).precharge b preAt)
    .ok (if trace then s.emit ⟨.pre, r, b, preAt⟩ else s)

/-- A precharge that is done only if there is need of it. -/
def prechargeIf (needed : Bool) (now : Nat) (r : Fin cfg.ranksPerChannel) (b : Fin cfg.banksPerRank)
    (s : DramCtrl cfg) : Except DramStop (DramCtrl cfg) :=
  if needed then s.prechargeBank r b (max (s.bank r b).preAllowedAt now) true else .ok s

/-- The row of the access is opened if it is not; the tick at which the column command can be
issued. -/
def prepareRow (now : Nat) (pkt : DramPacket cfg) (s : DramCtrl cfg) :
    Except DramStop (DramCtrl cfg × Nat) :=
  let bank := s.bank pkt.rank pkt.bank
  if bank.openRow = some pkt.row then .ok (s, max bank.colAllowedAt now)
  else do
    let s ← s.prechargeIf bank.openRow.isSome now pkt.rank pkt.bank
    let actTick := max (s.bank pkt.rank pkt.bank).actAllowedAt now
    let s ← s.activateBank pkt.rank pkt.bank actTick pkt.row
    return (s, (s.bank pkt.rank pkt.bank).colAllowedAt)

/-- The column command is issued: all banks have to wait with their next bursts. -/
def burst (pkt : DramPacket cfg) (cmdAt readyTime : Nat) (s : DramCtrl cfg) : DramCtrl cfg :=
  let delayed := fun j i => { s.bank j i with
    colAllowedAt := max (cmdAt + cfg.cmdDly pkt.rank pkt.bank j i) (s.bank j i).colAllowedAt }
  let old := delayed pkt.rank pkt.bank
  let bank := { old with
    preAllowedAt := max old.preAllowedAt
      (if pkt.isRead then cmdAt + cfg.tRTP else readyTime + cfg.tWR)
    bytesAccessed := (old.bytesAccessed + cfg.burstSize) % 2 ^ 32
    rowAccesses := (old.rowAccesses + 1) % 2 ^ 32 }
  { s with
    ranks := fun j => { s.ranks j with
      banks := fun i => if j = pkt.rank ∧ i = pkt.bank then bank else delayed j i }
    busBusyUntil := readyTime
    activeRank := pkt.rank
    cmdList :=
      ⟨if pkt.isRead then .rd else .wr, pkt.rank, pkt.bank, cmdAt⟩ :: s.cmdList }

/-- Whether the row is closed after the burst. The queue is that of the packet, without it. -/
def autoPrecharge (pkt : DramPacket cfg) (queue : List (DramPacket cfg))
    (s : DramCtrl cfg) : Bool :=
  let full := decide (cfg.pageMgmt = .closePage ∨
    (s.bank pkt.rank pkt.bank).rowAccesses = cfg.maxAccessesPerRow)
  let sameBank := fun p : DramPacket cfg => decide (pkt.rank = p.rank) && decide (pkt.bank = p.bank)
  let gotMoreHits := queue.any (fun p => sameBank p && decide (pkt.row = p.row))
  let gotBankConflict := queue.any (fun p => sameBank p && decide (pkt.row ≠ p.row))
  if !full && decide (cfg.pageMgmt = .openAdaptive ∨ cfg.pageMgmt = .closeAdaptive) then
    !gotMoreHits && (gotBankConflict || decide (cfg.pageMgmt = .closeAdaptive))
  else full

/-- The controller and the tick at which the data is there. -/
def doDRAMAccess (now : Nat) (pkt : DramPacket cfg) (queue : List (DramPacket cfg))
    (s : DramCtrl cfg) : Except DramStop (DramCtrl cfg × Nat) := do
  let (s, cmdAt) ← s.prepareRow now pkt
  let cmdAt := max cmdAt (s.busBusyUntil - cfg.tCL)
  let readyTime := cmdAt + cfg.tCL + cfg.tBURST
  if readyTime - s.busBusyUntil < cfg.tBURST then
    .error (.assertion "dram_pkt->readyTime - busBusyUntil >= tBURST")
  else
    let s := s.burst pkt cmdAt readyTime
    let s ← s.prechargeIf (s.autoPrecharge pkt queue) now pkt.rank pkt.bank
    return ({ s with nextReqTime := s.busBusyUntil - (cfg.tRP + cfg.tRCD + cfg.tCL) }, readyTime)

def startup (cfg : DramConfig) (now : Nat) : DramCtrl cfg where
  busBusyUntil := now + cfg.tRP + cfg.tRCD + cfg.tCL

/-- The commands before a refresh are forgotten. -/
def prechargeAll (now : Nat) (r : Fin cfg.ranksPerChannel) (s : DramCtrl cfg) : DramCtrl cfg :=
  { s.setRank r ((s.ranks r).prechargeAll now) with cmdList := [] }

def refresh (now : Nat) (r : Fin cfg.ranksPerChannel) (s : DramCtrl cfg) : DramCtrl cfg :=
  { s.setRank r ((s.ranks r).refresh now) with cmdList := [] }

end DramCtrl

/-- The controller at a tick, and the ticks at which the data of the accesses is there, newest
first. -/
structure DramRun (cfg : DramConfig) where
  now : Nat
  ctrl : DramCtrl cfg
  readyTimes : List Nat := []

namespace DramRun

/-- An access, with the bubble that a change of direction puts on the bus, or a part of a
refresh. -/
inductive Move (cfg : DramConfig)
  | access (now bubble : Nat) (pkt : DramPacket cfg) (queue : List (DramPacket cfg))
  | prechargeAll (now : Nat) (r : Fin cfg.ranksPerChannel)
  | refresh (now : Nat) (r : Fin cfg.ranksPerChannel)

/-- A rank is refreshed when all its banks are closed and have been precharged. -/
def Enabled (w : DramRun cfg) : Move cfg → Prop
  | .access now _ _ _ => w.now ≤ now
  | .prechargeAll now _ => w.now ≤ now
  | .refresh now r => w.now ≤ now ∧ (w.ctrl.ranks r).numBanksActive = 0 ∧
      ∀ b, (w.ctrl.bank r b).preAllowedAt ≤ now

instance (w : DramRun cfg) (m : Move cfg) : Decidable (Enabled w m) := by
  cases m <;> unfold Enabled <;> infer_instance

def access (bubble now : Nat) (pkt : DramPacket cfg) (queue : List (DramPacket cfg))
    (s : DramCtrl cfg) : Except DramStop (DramCtrl cfg × Nat) :=
  { s with busBusyUntil := s.busBusyUntil + bubble }.doDRAMAccess now pkt queue

def apply (w : DramRun cfg) : Move cfg → Except DramStop (DramRun cfg)
  | .access now bubble pkt queue => (access bubble now pkt queue w.ctrl).map
    (fun (ctrl, readyTime) =>
      { now, ctrl, readyTimes := readyTime :: w.readyTimes })
  | .prechargeAll now r => .ok { w with now, ctrl := w.ctrl.prechargeAll now r }
  | .refresh now r => .ok { w with now, ctrl := w.ctrl.refresh now r }

def machine (cfg : DramConfig) : Machine (DramRun cfg) (Move cfg) where
  init w := w.ctrl = .startup cfg w.now ∧ w.readyTimes = []
  step w m w' := Enabled w m ∧ w.apply m = .ok w'

/-- Tick 0 is not used for accesses, and when a refresh is over, so is the window of the activates
before it. -/
def Apart (w : DramRun cfg) : Move cfg → Prop
  | .access now _ _ _ => 0 < now
  | .prechargeAll _ _ => True
  | .refresh now r => ∀ t ∈ (w.ctrl.ranks r).actTicks.getLast?,
    t ≠ 0 → t + cfg.tXAW ≤ now + cfg.tRFC

end DramRun

/-! What the commands have to wait for. -/

namespace DramCommand

/-- The distance from a command to another one, if the first is issued before the second. -/
def gap (c x : DramCommand cfg) : Option Nat :=
  let own := fun n => if c.rank = x.rank ∧ c.bank = x.bank then some n else none
  match c.cmd, x.cmd with
  | .act, .act => if c.rank = x.rank then some (cfg.actDelay c.bank x.bank) else none
  | .act, .pre => own cfg.tRAS
  | .act, _ => own cfg.tRCD
  | .pre, .act => own cfg.tRP
  | .pre, _ => none
  | .rd, .pre => own cfg.tRTP
  | .wr, .pre => own (cfg.tCL + cfg.tBURST + cfg.tWR)
  | _, .act => none
  | _, _ => some (cfg.cmdDly c.rank c.bank x.rank x.bank)

def spacing (cfg : DramConfig) : Spacing (DramCommand cfg) where
  time := timeStamp
  gap := gap

end DramCommand

namespace DramCtrl

/-- The tick from which a command is allowed. -/
def allowed (s : DramCtrl cfg) (x : DramCommand cfg) : Nat :=
  let bank := s.bank x.rank x.bank
  match x.cmd with
  | .act => bank.actAllowedAt
  | .pre => bank.preAllowedAt
  | _ => max bank.colAllowedAt (s.busBusyUntil - cfg.tCL)

def acts (s : DramCtrl cfg) (r : Fin cfg.ranksPerChannel) : List Nat :=
  (s.cmdList.filter (fun c => c.cmd = .act ∧ c.rank = r)).map DramCommand.timeStamp

end DramCtrl

end Gem5.Mem
