import Gem5.Lib.Loop

namespace Gem5.Arm

/-! The translation lookaside buffers: a table in order of use, looked up from the front. -/

inductive LookupLevel
  | L0 | L1 | L2 | L3
deriving DecidableEq, Repr

inductive MemoryType
  | StronglyOrdered | Device | Normal
deriving DecidableEq, Repr

inductive DomainType
  | NoAccess | Client | Reserved | Manager
deriving DecidableEq, Repr

/-- An entry. The defaults are those of its constructor without arguments. -/
structure TlbEntry where
  pfn : UInt64 := 0
  size : UInt64 := 0
  vpn : UInt64 := 0
  attributes : UInt64 := 0
  lookupLevel : LookupLevel := .L1
  asid : UInt16 := 0
  vmid : UInt8 := 0
  N : UInt8 := 0
  innerAttrs : UInt8 := 0
  outerAttrs : UInt8 := 0
  ap : UInt8 := 0
  hap : UInt8 := 3
  domain : DomainType := .Client
  mtype : MemoryType := .StronglyOrdered
  longDescFormat : Bool := false
  isHyp : Bool := false
  global : Bool := false
  valid : Bool := false
  ns : Bool := true
  nstid : Bool := true
  el : UInt8 := 0
  nonCacheable : Bool := false
  shareable : Bool := false
  outerShareable : Bool := false
  xn : Bool := false
  pxn : Bool := false
deriving DecidableEq, Repr

/-- The arguments that an entry is compared with. -/
structure LookupArgs where
  va : UInt64
  asn : UInt16
  vmid : UInt8
  hyp : Bool
  secure : Bool
  ignoreAsn : Bool
  targetEl : UInt8

namespace TlbEntry

/-- The first address of the entry. -/
def pageBase (e : TlbEntry) : UInt64 := e.vpn <<< e.N.toUInt64

/-- The entry belongs to the exception level of the access. -/
def elMatch (targetEl el : UInt8) : Bool :=
  if targetEl == 2 || targetEl == 3 then el == targetEl else el == 0 || el == 1

/-- The function `match`. -/
def isMatch (e : TlbEntry) (k : LookupArgs) : Bool :=
  if e.valid && decide (e.pageBase ≤ k.va) && decide (k.va ≤ e.pageBase + e.size) &&
      (k.secure == !e.nstid) && (k.hyp == e.isHyp) then
    elMatch k.targetEl e.el && (k.ignoreAsn || e.global || k.asn == e.asid) &&
      (!e.nstid || e.isHyp || k.vmid == e.vmid)
  else false

def pAddr (e : TlbEntry) (va : UInt64) : UInt64 := (e.pfn <<< e.N.toUInt64) ||| (va &&& e.size)

def invalidate (e : TlbEntry) : TlbEntry := { e with valid := false }

theorem isMatch_invalidate (e : TlbEntry) (k : LookupArgs) : e.invalidate.isMatch k = false := by
  simp [isMatch, invalidate]

variable {k : LookupArgs} {e : TlbEntry}

theorem secure_of_isMatch (h : e.isMatch k = true) : (k.secure == !e.nstid) = true := by
  unfold isMatch at h
  split_ifs at h
  simp_all

/-- An entry that is hit with some ASN is hit when the ASN is ignored. -/
theorem isMatch_ignoreAsn (h : e.isMatch k = true) :
    e.isMatch { k with ignoreAsn := true } = true := by
  unfold isMatch at h ⊢
  split_ifs at h with hcond
  rw [if_pos hcond]
  simp only [Bool.and_eq_true] at h ⊢
  exact ⟨⟨h.1.1, rfl⟩, h.2⟩

theorem isMatch_asn (h : e.isMatch { k with ignoreAsn := true } = true) (asn : UInt16) :
    e.isMatch { k with asn, ignoreAsn := true } = true := by
  unfold isMatch at h ⊢
  simpa only [Bool.true_or] using h

/-- An entry that is hit when the ASN is ignored is hit with its own. -/
theorem isMatch_own (h : e.isMatch { k with ignoreAsn := true } = true) :
    e.isMatch { k with asn := e.asid, ignoreAsn := false } = true := by
  unfold isMatch at h ⊢
  split_ifs at h with hcond
  rw [if_pos hcond]
  simp only [Bool.and_eq_true] at h ⊢
  exact ⟨⟨h.1.1, by simp⟩, h.2⟩

end TlbEntry

/-- A buffer with the registers that it has cached. -/
structure Tlb where
  table : List TlbEntry
  rangeMRU : Int := 1
  isStage2 : Bool := false
  isHyp : Bool := false
  vmid : UInt8 := 0

namespace Tlb

def construct (size : Nat) (isStage2 : Bool) : Tlb where
  table := List.replicate size {}
  isStage2 := isStage2

def updateMiscReg (isHyp : Bool) (vmid : UInt8) (t : Tlb) : Tlb := { t with isHyp, vmid }

/-- The index of the entry that is found, and the table in its new order. -/
def lookup (t : Tlb) (k : LookupArgs) (functional : Bool) : Option Nat × Tlb :=
  match t.table.findIdx? (fun e => e.isMatch k) with
  | none => (none, t)
  | some x =>
    if t.rangeMRU < (x : Int) ∧ functional = false then
      (some 0, { t with table := t.table.getD x {} :: t.table.eraseIdx x })
    else (some x, t)

def insert (t : Tlb) (e : TlbEntry) : Tlb :=
  { t with table := (e :: t.table).take t.table.length }

def checkELMatch (targetEl tentryEl : UInt8) (ignoreEl : Bool) : Bool :=
  ignoreEl || TlbEntry.elMatch targetEl tentryEl

def flushWhere (p : TlbEntry → Bool) (t : Tlb) : Tlb :=
  { t with table := t.table.map (fun e => if e.valid && p e then e.invalidate else e) }

def flushAllSecurityTable (secureLookup : Bool) (targetEl : UInt8) (ignoreEl : Bool)
    (t : Tlb) : Tlb :=
  t.flushWhere (fun e => (secureLookup == !e.nstid) && (e.vmid == t.vmid || secureLookup) &&
    checkELMatch targetEl e.el ignoreEl)

def flushAllNsTable (hyp : Bool) (targetEl : UInt8) (ignoreEl : Bool) (t : Tlb) : Tlb :=
  t.flushWhere (fun e => e.nstid && (e.isHyp == hyp) && checkELMatch targetEl e.el ignoreEl)

def flushAsid (asn : UInt64) (secureLookup : Bool) (targetEl : UInt8) (t : Tlb) : Tlb :=
  t.flushWhere (fun e => (e.asid.toUInt64 == asn) && (secureLookup == !e.nstid) &&
    (e.vmid == t.vmid || secureLookup) && checkELMatch targetEl e.el false)

def invalidateAt (t : Tlb) (x : Nat) : Tlb :=
  { t with table := t.table.modify x TlbEntry.invalidate }

def flushMvaRound (k : LookupArgs) (t : Tlb) : Tlb ⊕ Tlb :=
  match t.lookup k false with
  | (none, t) => .inr t
  | (some x, t) =>
    .inl (if k.secure == !(t.table.getD x {}).nstid then t.invalidateAt x else t)

/-- The upper bits are set if bit 55 is. -/
def sext56 (mva : UInt64) : UInt64 :=
  if (mva >>> 55) &&& 1 = 1 then mva ||| 0xff00000000000000 else mva

def flushArgs (t : Tlb) (mva : UInt64) (asn : UInt64) (secureLookup hyp ignoreAsn : Bool)
    (targetEl : UInt8) : LookupArgs :=
  { va := sext56 mva, asn := asn.toUInt16, vmid := t.vmid, hyp, secure := secureLookup, ignoreAsn,
    targetEl }

/-- The function `_flushMva`; `none` when the fuel runs out. -/
def flushMvaWith (fuel : Nat) (mva : UInt64) (asn : UInt64) (secureLookup hyp ignoreAsn : Bool)
    (targetEl : UInt8) (t : Tlb) : Option Tlb :=
  Lib.loop (flushMvaRound (t.flushArgs mva asn secureLookup hyp ignoreAsn targetEl)) fuel t

def flushMvaAsid (fuel : Nat) (mva asn : UInt64) (secureLookup : Bool) (targetEl : UInt8)
    (t : Tlb) :
    Option Tlb :=
  t.flushMvaWith fuel mva asn secureLookup false false targetEl

def flushMva (fuel : Nat) (mva : UInt64) (secureLookup hyp : Bool) (targetEl : UInt8) (t : Tlb) :
    Option Tlb :=
  t.flushMvaWith fuel mva 0xbeef secureLookup hyp true targetEl

end Tlb

/-- A first stage buffer and the second stage buffer that it refers to. -/
structure TlbPair where
  tlb : Tlb
  stage2Tlb : Tlb

namespace TlbPair

/-- In hyp mode the second stage is flushed for exception level 1. -/
def flushAllSecurity (secureLookup : Bool) (targetEl : UInt8) (ignoreEl : Bool) (p : TlbPair) :
    TlbPair :=
  { tlb := p.tlb.flushAllSecurityTable secureLookup targetEl ignoreEl
    stage2Tlb :=
      if !p.tlb.isStage2 && p.tlb.isHyp then p.stage2Tlb.flushAllSecurityTable secureLookup 1 false
      else p.stage2Tlb }

def flushAllNs (hyp : Bool) (targetEl : UInt8) (ignoreEl : Bool) (p : TlbPair) : TlbPair :=
  { tlb := p.tlb.flushAllNsTable hyp targetEl ignoreEl
    stage2Tlb :=
      if !p.tlb.isStage2 && !hyp then p.stage2Tlb.flushAllNsTable false 1 false else p.stage2Tlb }

def flushAll (p : TlbPair) : TlbPair :=
  (p.flushAllSecurity false 0 true).flushAllSecurity true 0 true

/-- The second stage has no such function: it fails an assertion. -/
def flushIpaVmid (fuel : Nat) (ipa : UInt64) (secureLookup hyp : Bool) (targetEl : UInt8)
    (p : TlbPair) : Option (Except String TlbPair) :=
  if p.tlb.isStage2 then some (.error "!isStage2")
  else (p.stage2Tlb.flushMvaWith fuel ipa 0xbeef secureLookup hyp true targetEl).map
    (fun stage2Tlb => .ok { p with stage2Tlb })

end TlbPair

end Gem5.Arm
