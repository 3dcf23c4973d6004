import Gem5.Lib.Transition

namespace Gem5.Mem

open Lib List Option

/-- The commands that `access` tells apart: three by name, the others by attributes. -/
inductive MemCmd
  | cleanEvict
  | writebackClean
  | swapReq
  | other (isRead isWrite isInvalidate isLLSC : Bool)
deriving DecidableEq

namespace MemCmd

def readReq : MemCmd := .other true false false false
def writeReq : MemCmd := .other false true false false
def loadLockedReq : MemCmd := .other true false false true
def storeCondReq : MemCmd := .other false true false true

def isRead : MemCmd → Bool
  | .other isRead _ _ _ => isRead
  | _ => false

def isWrite : MemCmd → Bool
  | .other _ isWrite _ _ => isWrite
  | _ => false

def isInvalidate : MemCmd → Bool
  | .other _ _ isInvalidate _ => isInvalidate
  | _ => false

def isLLSC : MemCmd → Bool
  | .other _ _ _ isLLSC => isLLSC
  | _ => false

end MemCmd

/-- A request to the memory. An atomic operation maps the bytes it finds to those it leaves. -/
structure MemPacket where
  cmd : MemCmd
  contextId : Nat
  addr : Nat
  size : Nat
  data : List UInt8 := []
  cacheResponding : Bool := false
  atomicOp : Option (List UInt8 → List UInt8) := none
  isCondSwap : Bool := false
  extraData : Nat := 0

structure LockedAddr where
  addr : Nat
  contextId : Nat
deriving DecidableEq

/-- `LockedAddr::mask`: the lower four bits are cleared. -/
def LockedAddr.mask (paddr : Nat) : Nat := paddr / 16 * 16

/-- A memory. Its bytes are indexed by their address; `pmem` is false for a null memory. -/
structure AbstractMemory where
  start : Nat
  finish : Nat
  pmem : Bool
  bytes : Nat → UInt8
  lockedAddrList : List LockedAddr

/-- What an access did: whether it wrote to its bytes, the data left in the packet, and the
answer to a conditional store. -/
structure AccessResult where
  data : List UInt8
  wrote : Bool := false
  extraData : Option Bool := none
deriving DecidableEq

namespace AbstractMemory

def read (m : AbstractMemory) (addr size : Nat) : List UInt8 :=
  (List.range size).map (fun i => m.bytes (addr + i))

/-- `memcpy` to the host memory, over the bytes of a packet. -/
def write (m : AbstractMemory) (addr size : Nat) (data : List UInt8) : AbstractMemory :=
  { m with
    bytes := fun a => if addr ≤ a ∧ a < addr + size then data.getD (a - addr) 0 else m.bytes a }

def relock (paddr contextId : Nat) : List LockedAddr → Option (List LockedAddr)
  | [] => none
  | i :: rest =>
    if i.contextId = contextId then some ({ i with addr := paddr } :: rest)
    else (relock paddr contextId rest).map (fun rest => i :: rest)

section

variable (m : AbstractMemory) (pkt : MemPacket)
include m pkt

def trackLoadLocked : AbstractMemory :=
  let paddr := LockedAddr.mask pkt.addr
  match relock paddr pkt.contextId m.lockedAddrList with
  | some list => { m with lockedAddrList := list }
  | none => { m with lockedAddrList := ⟨paddr, pkt.contextId⟩ :: m.lockedAddrList }

/-- `checkLockedAddrList`: whether the store may go on, and the list after it. -/
def checkLockedAddrList : Bool × AbstractMemory :=
  let paddr := LockedAddr.mask pkt.addr
  let allowStore := !pkt.cmd.isLLSC ||
    m.lockedAddrList.any (fun i => i.addr == paddr && i.contextId == pkt.contextId)
  if allowStore then
    (true, { m with lockedAddrList := m.lockedAddrList.filter (fun i => i.addr != paddr) })
  else (false, m)

def writeOK : Bool × AbstractMemory :=
  if m.lockedAddrList = [] then (!pkt.cmd.isLLSC, m) else m.checkLockedAddrList pkt

end

def wordBytes (size word : Nat) : List UInt8 :=
  (List.range size).map (fun i => UInt8.ofNat (word / 256 ^ i))

section

variable (m : AbstractMemory) (pkt : MemPacket)
include m pkt

/-- Whether a swap overwrites the memory; none is the panic on the size. -/
def overwriteMem : Option Bool :=
  if pkt.isCondSwap then
    if pkt.size = 8 ∨ pkt.size = 4 then
      some (wordBytes pkt.size pkt.extraData == m.read pkt.addr pkt.size)
    else none
  else some true

def accessSwap : Option (AccessResult × AbstractMemory) :=
  let old := m.read pkt.addr pkt.size
  match pkt.atomicOp with
  | some op =>
    if m.pmem then some (⟨old, true, none⟩, m.write pkt.addr pkt.size (op old))
    else some (⟨pkt.data, false, none⟩, m)
  | none =>
    if m.pmem then
      (m.overwriteMem pkt).map (fun overwrite =>
        (⟨old, overwrite, none⟩, if overwrite then m.write pkt.addr pkt.size pkt.data else m))
    else none

def accessRead : AccessResult × AbstractMemory :=
  (⟨if m.pmem then m.read pkt.addr pkt.size else pkt.data, false, none⟩,
    if pkt.cmd.isLLSC then m.trackLoadLocked pkt else m)

def accessWrite : AccessResult × AbstractMemory :=
  let ok := (m.writeOK pkt).1
  let m := (m.writeOK pkt).2
  (⟨pkt.data, ok && m.pmem, if pkt.cmd.isLLSC then some ok else none⟩,
    if ok && m.pmem then m.write pkt.addr pkt.size pkt.data else m)

def access : Option (AccessResult × AbstractMemory) :=
  if pkt.cacheResponding || pkt.cmd = .cleanEvict || pkt.cmd = .writebackClean then
    some (⟨pkt.data, false, none⟩, m)
  else if pkt.addr < m.start ∨ m.finish < pkt.addr + (pkt.size - 1) then none
  else if pkt.cmd = .swapReq then m.accessSwap pkt
  else if pkt.cmd.isRead then if pkt.cmd.isWrite then none else some (m.accessRead pkt)
  else if pkt.cmd.isInvalidate then some (⟨pkt.data, false, none⟩, m)
  else if pkt.cmd.isWrite then some (m.accessWrite pkt)
  else none

end

structure History where
  mem : AbstractMemory
  log : List (MemPacket × AccessResult)

def perform (s : History) (pkt : MemPacket) : Option History :=
  (s.mem.access pkt).map (fun r => ⟨r.2, (pkt, r.1) :: s.log⟩)

def machine : Machine History MemPacket where
  init s := s.mem.lockedAddrList = [] ∧ s.log = []
  step s pkt t := perform s pkt = some t

/-! What an access does to reservations. -/

/-- Whether two ranges of bytes have one in common. -/
def overlap (a n b m : Nat) : Bool := a < b + m && b < a + n

theorem mask_le (a : Nat) : LockedAddr.mask a ≤ a := Nat.div_mul_le_self a 16

theorem mem_relock (h : relock paddr contextId list = some list') (hi : i ∈ list') :
    i ∈ list ∨ i = ⟨paddr, contextId⟩ := by
  induction list generalizing list' with
  | nil => cases h
  | cons j rest ih =>
    unfold relock at h
    split_ifs at h with hj
    · cases h
      rcases mem_cons.mp hi with heq | hi
      · exact .inr (by rw [heq, hj])
      · exact .inl (.tail _ hi)
    · obtain ⟨rest', hrest, rfl⟩ := map_eq_some_iff.mp h
      rcases mem_cons.mp hi with heq | hi
      · exact .inl (by rw [heq]; exact .head _)
      · exact (ih hrest hi).imp_left (mem_cons_of_mem _)

variable {pkt : MemPacket} {m m' : AbstractMemory} {r : AccessResult}

theorem mem_trackLoadLocked {m : AbstractMemory} {i : LockedAddr}
    (hi : i ∈ (m.trackLoadLocked pkt).lockedAddrList) :
    i ∈ m.lockedAddrList ∨ i = ⟨LockedAddr.mask pkt.addr, pkt.contextId⟩ := by
  unfold trackLoadLocked at hi
  dsimp only at hi
  split at hi
  · rename_i list hlist
    exact mem_relock hlist hi
  · rcases mem_cons.mp hi with heq | hi
    · exact .inr heq
    · exact .inl hi

/-- A store goes on if it is not conditional or its context has the granule reserved, and
then all reservations of the granule are gone; otherwise nothing changes. -/
theorem writeOK_cases (m : AbstractMemory) (pkt : MemPacket) :
    ((m.writeOK pkt).1 = true ∧ (m.writeOK pkt).2 = { m with
        lockedAddrList := m.lockedAddrList.filter (fun i => i.addr != LockedAddr.mask pkt.addr) } ∧
      (pkt.cmd.isLLSC = true → ⟨LockedAddr.mask pkt.addr, pkt.contextId⟩ ∈ m.lockedAddrList)) ∨
    ((m.writeOK pkt).1 = false ∧ (m.writeOK pkt).2 = m) := by
  unfold writeOK checkLockedAddrList
  split_ifs with hnil
  · cases hllsc : pkt.cmd.isLLSC with
    | true => exact .inr ⟨rfl, rfl⟩
    | false =>
      refine .inl ⟨rfl, ?_, nofun⟩
      dsimp only
      rw [hnil, filter_nil, ← hnil]
  dsimp only
  split_ifs with hallow
  · refine .inl ⟨rfl, rfl, fun hllsc => ?_⟩
    rw [hllsc, Bool.not_true, Bool.false_or] at hallow
    obtain ⟨i, hi, hmatch⟩ := any_eq_true.mp hallow
    obtain ⟨haddr, hctx⟩ := Bool.and_eq_true_iff.mp hmatch
    have : i = ⟨LockedAddr.mask pkt.addr, pkt.contextId⟩ :=
      LockedAddr.mk.injEq .. ▸ ⟨eq_of_beq haddr, eq_of_beq hctx⟩
    rwa [← this]
  · exact .inr ⟨rfl, rfl⟩

def LoadLocked (pkt : MemPacket) : Bool :=
  !pkt.cacheResponding && pkt.cmd.isRead && pkt.cmd.isLLSC

/-- A reservation after an access was there before, and its granule is not the one of a store
that went on, or it is the one that the access makes. -/
theorem mem_access (h : m.access pkt = some (r, m')) {i : LockedAddr} (hi : i ∈ m'.lockedAddrList) :
    (i ∈ m.lockedAddrList ∧
      (r.wrote = true → pkt.cmd ≠ .swapReq → i.addr ≠ LockedAddr.mask pkt.addr)) ∨
    (LoadLocked pkt = true ∧ i = ⟨LockedAddr.mask pkt.addr, pkt.contextId⟩) := by
  unfold access at h
  split at h
  · cases h
    exact .inl ⟨hi, nofun⟩
  rename_i hhere
  split at h
  · cases h
  split at h
  · rename_i hswap
    refine .inl ⟨?_, fun _ hne => absurd hswap hne⟩
    unfold accessSwap at h
    dsimp only at h
    split at h
    · split at h <;> cases h <;> exact hi
    · split_ifs at h
      obtain ⟨overwrite, -, hr⟩ := map_eq_some_iff.mp h
      cases hr
      cases overwrite <;> exact hi
  split at h
  · rename_i hread
    split at h
    · cases h
    cases h
    split_ifs at hi with hllsc
    · refine (mem_trackLoadLocked hi).imp (fun hi => ⟨hi, nofun⟩)
        (fun heq => ⟨?_, heq⟩)
      have hcache : pkt.cacheResponding = false := by
        by_contra hc
        simp [hc] at hhere
      simp [LoadLocked, hcache, hread, hllsc]
    · exact .inl ⟨hi, nofun⟩
  split at h
  · cases h
    exact .inl ⟨hi, nofun⟩
  split_ifs at h
  cases h
  left
  rcases m.writeOK_cases pkt with ⟨hok, hm, -⟩ | ⟨hok, hm⟩
  · have hi : i ∈ m.lockedAddrList.filter (fun i => i.addr != LockedAddr.mask pkt.addr) := by
      rw [hm] at hi
      split at hi <;> exact hi
    obtain ⟨hi, hne⟩ := mem_filter.mp hi
    exact ⟨hi, fun _ _ => by simpa using hne⟩
  · dsimp only [accessWrite] at hi ⊢
    rw [hok, hm] at hi
    refine ⟨hi, fun hw => ?_⟩
    rw [hok] at hw
    cases hw

/-- Whether an access wrote to the location of a packet: to its bytes, or to their granule. -/
def modifies (e : MemPacket × AccessResult) (pkt : MemPacket) : Bool :=
  e.2.wrote && (overlap (LockedAddr.mask pkt.addr) 16 e.1.addr e.1.size ||
    overlap pkt.addr pkt.size e.1.addr e.1.size)

/-- The context of a packet has done a load-locked of its location, which no access has
modified since. The log is newest first. -/
def Reserved (pkt : MemPacket) : List (MemPacket × AccessResult) → Prop
  | [] => False
  | e :: log =>
    (LoadLocked e.1 = true ∧ e.1.contextId = pkt.contextId ∧
      LockedAddr.mask e.1.addr = LockedAddr.mask pkt.addr) ∨
    (modifies e pkt = false ∧ Reserved pkt log)

instance (pkt : MemPacket) : (log : List (MemPacket × AccessResult)) → Decidable (Reserved pkt log)
  | [] => inferInstanceAs (Decidable False)
  | _ :: log =>
    have := instDecidableReserved pkt log
    inferInstanceAs (Decidable (_ ∨ (_ ∧ Reserved pkt log)))

/-- The condition on an access: what it writes lies in granules without reservations, but for
the first one of a store; a conditional store stays inside one granule. -/
def Contained (s : History) (pkt : MemPacket) : Prop :=
  (∀ r ∈ s.mem.access pkt, r.1.wrote = true → ∀ i ∈ s.mem.lockedAddrList,
    overlap i.addr 16 pkt.addr pkt.size = true →
      pkt.cmd ≠ .swapReq ∧ i.addr = LockedAddr.mask pkt.addr) ∧
  (pkt.cmd.isWrite = true → pkt.cmd.isLLSC = true →
    pkt.addr + pkt.size ≤ LockedAddr.mask pkt.addr + 16)

instance (s : History) (pkt : MemPacket) : Decidable (Contained s pkt) := by
  unfold Contained
  infer_instance

/-- Every reservation goes back to a load-locked after which its granule was left alone. -/
def Justified (s : History) : Prop :=
  ∀ i ∈ s.mem.lockedAddrList, ∀ pkt : MemPacket, pkt.contextId = i.contextId →
    LockedAddr.mask pkt.addr = i.addr → pkt.addr + pkt.size ≤ i.addr + 16 → Reserved pkt s.log

/-- The bytes of a packet that stays inside a granule are modified only with the granule. -/
theorem modifies_eq_false (hsize : pkt.addr + pkt.size ≤ LockedAddr.mask pkt.addr + 16)
    (h : e.2.wrote = true → overlap (LockedAddr.mask pkt.addr) 16 e.1.addr e.1.size = false) :
    modifies e pkt = false := by
  unfold modifies
  cases hw : e.2.wrote with
  | false => rfl
  | true =>
    have hle := mask_le pkt.addr
    have hgranule := h hw
    rw [hgranule]
    simp only [overlap, Bool.and_eq_false_iff, decide_eq_false_iff_not, Bool.true_and,
      Bool.false_or] at hgranule ⊢
    omega

theorem Justified.perform {s t : History} (h : Justified s)
    (hrun : perform s pkt = some t) (hpkt : Contained s pkt) : Justified t := by
  obtain ⟨⟨r, m'⟩, hr, rfl⟩ := map_eq_some_iff.mp hrun
  intro i hi pkt' hctx haddr hsize
  rcases mem_access hr hi with ⟨hi, hstore⟩ | ⟨hll, rfl⟩
  · refine .inr ⟨?_, h i hi pkt' hctx haddr hsize⟩
    rw [← haddr] at hsize
    refine modifies_eq_false hsize (fun hw => ?_)
    by_contra hover
    rw [haddr, Bool.not_eq_false] at hover
    obtain ⟨hswap, hsame⟩ := hpkt.1 (r, m') hr hw i hi hover
    exact hstore hw hswap hsame
  · exact .inl ⟨hll, hctx.symm, haddr.symm⟩

theorem Justified.of_reachable (h : (machine.restrict Contained).Reachable s) : Justified s := by
  refine h.invariant (fun s hs i hi => ?_) (fun _ _ _ hi hs => hi.perform hs.1 hs.2)
  rw [hs.1] at hi
  cases hi

/-- The answer to a conditional store, and what it leaves if it fails. -/
theorem access_storeCond (h : m.access pkt = some (r, m')) (hwrite : pkt.cmd.isWrite = true)
    (hllsc : pkt.cmd.isLLSC = true) :
    (r.extraData = some true ∧ ⟨LockedAddr.mask pkt.addr, pkt.contextId⟩ ∈ m.lockedAddrList) ∨
    (r.extraData ≠ some true ∧ m' = m) := by
  unfold access at h
  split at h
  · cases h
    exact .inr ⟨nofun, rfl⟩
  split at h
  · cases h
  split at h
  · rename_i hswap
    rw [hswap] at hwrite
    cases hwrite
  split at h
  · cases h
  split at h
  · cases h
    exact .inr ⟨nofun, rfl⟩
  cases h
  dsimp only [accessWrite]
  rw [if_pos hllsc]
  rcases m.writeOK_cases pkt with ⟨hok, -, hmem⟩ | ⟨hok, hm⟩
  · exact .inl ⟨by rw [hok], hmem hllsc⟩
  · refine .inr ⟨by rw [hok]; nofun, ?_⟩
    rw [hok, hm]
    rfl

/-- A conditional store that fails changes nothing. In runs whose accesses are all contained,
one that succeeds comes from a context that has done a load-locked of the location, which no
access has modified since. -/
theorem storeCond_reserved (s : History) {pkt : MemPacket} {r : AccessResult}
    {m' : AbstractMemory} (hwrite : pkt.cmd.isWrite = true) (hllsc : pkt.cmd.isLLSC = true)
    (haccess : s.mem.access pkt = some (r, m')) :
    (r.extraData ≠ some true → m' = s.mem) ∧
      ((machine.restrict Contained).Reachable s → Contained s pkt → r.extraData = some true →
        Reserved pkt s.log) := by
  rcases access_storeCond haccess hwrite hllsc with ⟨hok, hmem⟩ | ⟨hfail, hm⟩
  · refine ⟨fun hne => absurd hok hne, fun hr hpkt _ => ?_⟩
    exact Justified.of_reachable hr _ hmem pkt rfl rfl (hpkt.2 hwrite hllsc)
  · exact ⟨fun _ => hm, fun _ _ hok => absurd hok hfail⟩

def page : History := ⟨⟨0, 4095, true, fun _ => 0, []⟩, []⟩

def loadLocked (contextId addr size : Nat) : MemPacket :=
  { cmd := .loadLockedReq, contextId, addr, size }

def storeCond (contextId addr size : Nat) : MemPacket :=
  { cmd := .storeCondReq, contextId, addr, size, data := wordBytes size 1 }

/-- A load-locked, a store to another granule, and the conditional store. -/
theorem storeCond_reserved_page :
    ∃ s, (machine.restrict Contained).Reachable s ∧ Reserved (storeCond 0 64 4) s.log := by
  obtain ⟨s, hr, hpkt, haccess⟩ := Machine.exists_run (M := machine.restrict Contained)
    (s := page) (Machine.restrict_step (f := perform) (fun _ _ _ h => h) Contained)
    (.start ⟨rfl, rfl⟩) [loadLocked 0 64 4,
      { cmd := .writeReq, contextId := 1, addr := 80, size := 4 }]
    (P := fun s => Contained s (storeCond 0 64 4) ∧
      (s.mem.access (storeCond 0 64 4)).any (fun r => r.1.extraData = some true) = true) (by decide)
  obtain ⟨⟨r, m'⟩, hr', hok⟩ := (any_eq_true _ _).mp haccess
  exact ⟨s, hr, (storeCond_reserved s rfl rfl hr').2 hr hpkt (of_decide_eq_true hok)⟩

/-- Some accesses after which a conditional store succeeds although its location has been
modified. -/
def SucceedsUnreserved (l : List MemPacket) (sc : MemPacket) : Prop :=
  ∃ s, l.foldlM perform page = some s ∧ machine.Reachable s ∧ ¬Reserved sc s.log ∧
    ∃ r m', s.mem.access sc = some (r, m') ∧ r.extraData = some true

theorem succeedsUnreserved_of_run
    (h : (l.foldlM perform page).any (fun s => decide (¬Reserved sc s.log ∧
      (s.mem.access sc).any (fun r => r.1.extraData = some true) = true)) = true) :
    SucceedsUnreserved l sc := by
  obtain ⟨s, hs, hok⟩ := (any_eq_true _ _).mp h
  have hr : machine.Reachable s :=
    Machine.Reachable.foldlM (f := perform) (fun _ _ _ h => h) (.start ⟨rfl, rfl⟩) hs
  obtain ⟨hsc, haccess⟩ := of_decide_eq_true hok
  obtain ⟨⟨r, m'⟩, hr', hok⟩ := (any_eq_true _ _).mp haccess
  exact ⟨s, hs, hr, hsc, r, m', hr', of_decide_eq_true hok⟩

/-- A swap between the load-locked and the conditional store. -/
theorem storeCond_succeeds_after_swap : SucceedsUnreserved
      [loadLocked 0 64 4, { cmd := .swapReq, contextId := 1, addr := 64, size := 4 }]
      (storeCond 0 64 4) :=
  succeedsUnreserved_of_run (by decide)

end AbstractMemory

end Gem5.Mem
