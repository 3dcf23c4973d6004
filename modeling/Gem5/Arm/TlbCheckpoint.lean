import Gem5.Arm.TlbFlush
import Gem5.Lib.Transition

namespace Gem5.Arm

open Lib List Option TlbEntry Nat

/-! Checkpoints of the buffers. -/

inductive ParamValue
  | int (n : Nat)
  | bool (b : Bool)

abbrev CheckpointSection := List (String × ParamValue)

namespace CheckpointSection

def paramInBool (cp : CheckpointSection) (name : String) : Option Bool :=
  match cp.lookup name with
  | some (.bool b) => some b
  | _ => none

/-- A number below the limit of its type. -/
def paramInInt (limit : Nat) (cp : CheckpointSection) (name : String) : Option Nat :=
  match cp.lookup name with
  | some (.int n) => if n < limit then some n else none
  | _ => none

section

variable (cp : CheckpointSection) (name : String)
include cp name

def paramIn8 : Option UInt8 :=
  (cp.paramInInt (2 ^ 8) name).map UInt8.ofNat

def paramIn16 : Option UInt16 :=
  (cp.paramInInt (2 ^ 16) name).map UInt16.ofNat

def paramIn64 : Option UInt64 :=
  (cp.paramInInt (2 ^ 64) name).map UInt64.ofNat

end

variable {cp : CheckpointSection}

section

variable (name : String)
include name

theorem paramInBool_of_lookup (h : cp.lookup name = some (.bool b)) :
    cp.paramInBool name = some b := by
  rw [paramInBool, h]

theorem paramInInt_of_lookup (h : cp.lookup name = some (.int n))
    (hlt : n < limit) : cp.paramInInt limit name = some n := by
  rw [paramInInt, h]
  exact if_pos hlt

theorem paramIn8_of_lookup (h : cp.lookup name = some (.int x.toNat)) :
    cp.paramIn8 name = some x := by
  rw [paramIn8, paramInInt_of_lookup name h x.toNat_lt, map_some, UInt8.ofNat_toNat]

theorem paramIn16_of_lookup (h : cp.lookup name = some (.int x.toNat)) :
    cp.paramIn16 name = some x := by
  rw [paramIn16, paramInInt_of_lookup name h x.toNat_lt, map_some, UInt16.ofNat_toNat]

theorem paramIn64_of_lookup (h : cp.lookup name = some (.int x.toNat)) :
    cp.paramIn64 name = some x := by
  rw [paramIn64, paramInInt_of_lookup name h x.toNat_lt, map_some, UInt64.ofNat_toNat]

end

end CheckpointSection

open CheckpointSection

def LookupLevel.toInt : LookupLevel → Nat
  | .L0 => 0 | .L1 => 1 | .L2 => 2 | .L3 => 3

def LookupLevel.ofInt : Nat → Option LookupLevel
  | 0 => some .L0 | 1 => some .L1 | 2 => some .L2 | 3 => some .L3 | _ => none

def MemoryType.toInt : MemoryType → Nat
  | .StronglyOrdered => 0 | .Device => 1 | .Normal => 2

def MemoryType.ofInt : Nat → Option MemoryType
  | 0 => some .StronglyOrdered | 1 => some .Device | 2 => some .Normal | _ => none

def DomainType.toInt : DomainType → Nat
  | .NoAccess => 0 | .Client => 1 | .Reserved => 2 | .Manager => 3

def DomainType.ofInt : Nat → Option DomainType
  | 0 => some .NoAccess | 1 => some .Client | 2 => some .Reserved | 3 => some .Manager | _ => none

theorem LookupLevel.toInt_lt (l : LookupLevel) : l.toInt < 2 ^ 31 := by cases l <;> decide

theorem LookupLevel.ofInt_toInt (l : LookupLevel) : ofInt l.toInt = some l := by cases l <;> rfl

theorem MemoryType.toInt_lt (m : MemoryType) : m.toInt < 2 ^ 31 := by cases m <;> decide

theorem MemoryType.ofInt_toInt (m : MemoryType) : ofInt m.toInt = some m := by cases m <;> rfl

theorem DomainType.toInt_lt (d : DomainType) : d.toInt < 2 ^ 8 := by cases d <;> decide

theorem DomainType.ofInt_toInt (d : DomainType) : ofInt d.toInt = some d := by cases d <;> rfl

namespace TlbEntry

def serialize (e : TlbEntry) : CheckpointSection :=
  [("longDescFormat", .bool e.longDescFormat), ("pfn", .int e.pfn.toNat),
    ("size", .int e.size.toNat), ("vpn", .int e.vpn.toNat), ("asid", .int e.asid.toNat),
    ("vmid", .int e.vmid.toNat), ("isHyp", .bool e.isHyp), ("N", .int e.N.toNat),
    ("global", .bool e.global), ("valid", .bool e.valid), ("ns", .bool e.ns),
    ("nstid", .bool e.nstid), ("nonCacheable", .bool e.nonCacheable),
    ("lookupLevel", .int e.lookupLevel.toInt), ("mtype", .int e.mtype.toInt),
    ("innerAttrs", .int e.innerAttrs.toNat), ("outerAttrs", .int e.outerAttrs.toNat),
    ("shareable", .bool e.shareable), ("outerShareable", .bool e.outerShareable),
    ("attributes", .int e.attributes.toNat), ("xn", .bool e.xn), ("pxn", .bool e.pxn),
    ("ap", .int e.ap.toNat), ("hap", .int e.hap.toNat), ("domain", .int e.domain.toInt)]

/-- `none` is the fatal error. -/
def unserialize (e : TlbEntry) (cp : CheckpointSection) : Option TlbEntry := do
  let longDescFormat ← cp.paramInBool "longDescFormat"
  let pfn ← cp.paramIn64 "pfn"
  let size ← cp.paramIn64 "size"
  let vpn ← cp.paramIn64 "vpn"
  let asid ← cp.paramIn16 "asid"
  let vmid ← cp.paramIn8 "vmid"
  let isHyp ← cp.paramInBool "isHyp"
  let N ← cp.paramIn8 "N"
  let global ← cp.paramInBool "global"
  let valid ← cp.paramInBool "valid"
  let ns ← cp.paramInBool "ns"
  let nstid ← cp.paramInBool "nstid"
  let nonCacheable ← cp.paramInBool "nonCacheable"
  let lookupLevel ← (cp.paramInInt (2 ^ 31) "lookupLevel").bind LookupLevel.ofInt
  let mtype ← (cp.paramInInt (2 ^ 31) "mtype").bind MemoryType.ofInt
  let innerAttrs ← cp.paramIn8 "innerAttrs"
  let outerAttrs ← cp.paramIn8 "outerAttrs"
  let shareable ← cp.paramInBool "shareable"
  let outerShareable ← cp.paramInBool "outerShareable"
  let attributes ← cp.paramIn64 "attributes"
  let xn ← cp.paramInBool "xn"
  let pxn ← cp.paramInBool "pxn"
  let ap ← cp.paramIn8 "ap"
  let hap ← cp.paramIn8 "hap"
  let domain ← (cp.paramInInt (2 ^ 8) "domain").bind DomainType.ofInt
  return { e with
    longDescFormat, pfn, size, vpn, asid, vmid, isHyp, N, global, valid, ns, nstid, nonCacheable,
    lookupLevel, mtype, innerAttrs, outerAttrs, shareable, outerShareable, attributes, xn, pxn, ap,
    hap, domain }

/-- An entry is restored but for its exception level, which is that of the entry before. -/
theorem unserialize_serialize (e e₀ : TlbEntry) :
    e₀.unserialize e.serialize = some { e with el := e₀.el } := by
  unfold unserialize
  rw [paramInBool_of_lookup "longDescFormat" rfl,
    paramIn64_of_lookup "pfn" rfl,
    paramIn64_of_lookup "size" rfl,
    paramIn64_of_lookup "vpn" rfl,
    paramIn16_of_lookup "asid" rfl,
    paramIn8_of_lookup "vmid" rfl,
    paramInBool_of_lookup "isHyp" rfl,
    paramIn8_of_lookup "N" rfl,
    paramInBool_of_lookup "global" rfl,
    paramInBool_of_lookup "valid" rfl,
    paramInBool_of_lookup "ns" rfl,
    paramInBool_of_lookup "nstid" rfl,
    paramInBool_of_lookup "nonCacheable" rfl,
    paramInInt_of_lookup "lookupLevel" rfl e.lookupLevel.toInt_lt,
    paramInInt_of_lookup "mtype" rfl e.mtype.toInt_lt,
    paramIn8_of_lookup "innerAttrs" rfl,
    paramIn8_of_lookup "outerAttrs" rfl,
    paramInBool_of_lookup "shareable" rfl,
    paramInBool_of_lookup "outerShareable" rfl,
    paramIn64_of_lookup "attributes" rfl,
    paramInBool_of_lookup "xn" rfl,
    paramInBool_of_lookup "pxn" rfl,
    paramIn8_of_lookup "ap" rfl,
    paramIn8_of_lookup "hap" rfl,
    paramInInt_of_lookup "domain" rfl e.domain.toInt_lt,
    bind_some, bind_some, bind_some, e.lookupLevel.ofInt_toInt,
    e.mtype.ofInt_toInt, e.domain.ofInt_toInt]
  rfl

/-- What a checkpoint keeps of an entry, in a new buffer. -/
def restored (e : TlbEntry) : TlbEntry := { e with el := 0 }

/-- The entry belongs to exception level 0 or 1. -/
def LowEl (e : TlbEntry) : Prop := e.valid = true → e.el = 0 ∨ e.el = 1

variable {e : TlbEntry}

/-- An entry of exception level 0 or 1 matches after a restore what it matched before. -/
theorem isMatch_restored (h : e.LowEl) (k : LookupArgs) : e.restored.isMatch k = e.isMatch k := by
  have hel : e.valid = true → elMatch k.targetEl 0 = elMatch k.targetEl e.el := by
    intro hvalid
    unfold elMatch
    rcases h hvalid with hel | hel <;> rw [hel]
    split_ifs with htarget
    · rcases Bool.or_eq_true_iff.mp htarget with htarget | htarget <;>
        rw [eq_of_beq htarget] <;> rfl
    · rfl
  unfold isMatch
  change (if e.valid && decide (e.pageBase ≤ k.va) && decide (k.va ≤ e.pageBase + e.size) &&
    (k.secure == !e.nstid) && (k.hyp == e.isHyp) then elMatch k.targetEl 0 && _ && _ else false) = _
  split_ifs with hcond
  · simp only [Bool.and_eq_true] at hcond
    rw [hel hcond.1.1.1.1]
    rfl
  · rfl

/-- After a restore no entry matches for exception level 2 or 3. -/
theorem isMatch_restored_high (e : TlbEntry) (h : k.targetEl = 2 ∨ k.targetEl = 3) :
    e.restored.isMatch k = false := by
  have hel : elMatch k.targetEl 0 = false := by
    rcases h with h | h <;> rw [h] <;> rfl
  unfold isMatch
  split
  · change (elMatch k.targetEl 0 && _ && _) = false
    rw [hel]
    rfl
  · rfl

/-- The entries that the table walker makes. -/
structure FromWalk (vaddr : UInt64) (e : TlbEntry) : Prop where
  valid : e.valid = true
  bits : e.N ≤ 30
  vpn : e.vpn = vaddr >>> e.N.toUInt64
  size : e.size = (1 <<< e.N.toUInt64) - 1
  el : e.el ≤ 3

instance (vaddr : UInt64) (e : TlbEntry) : Decidable (FromWalk vaddr e) :=
  decidable_of_iff (e.valid = true ∧ e.N ≤ 30 ∧ e.vpn = vaddr >>> e.N.toUInt64 ∧
      e.size = (1 <<< e.N.toUInt64) - 1 ∧ e.el ≤ 3)
    ⟨fun h => ⟨h.1, h.2.1, h.2.2.1, h.2.2.2.1, h.2.2.2.2⟩, fun h => ⟨h.1, h.2, h.3, h.4, h.5⟩⟩

theorem toNat_pageBase (vaddr : UInt64) {n : UInt8} (h : n.toNat ≤ 30) :
    ((vaddr >>> n.toUInt64) <<< n.toUInt64).toNat = vaddr.toNat / 2 ^ n.toNat * 2 ^ n.toNat := by
  have hmod : n.toUInt64.toNat % 64 = n.toNat := by
    rw [UInt8.toNat_toUInt64]
    omega
  rw [UInt64.toNat_shiftLeft, UInt64.toNat_shiftRight, hmod, shiftLeft_eq,
    shiftRight_eq_div_pow]
  exact mod_eq_of_lt ((div_mul_le_self _ _).trans_lt vaddr.toNat_lt)

theorem toNat_pageSize {n : UInt8} (h : n.toNat ≤ 30) :
    (((1 : UInt64) <<< n.toUInt64) - 1).toNat = 2 ^ n.toNat - 1 := by
  have hmod : n.toUInt64.toNat % 64 = n.toNat := by
    rw [UInt8.toNat_toUInt64]
    omega
  have hlt : 2 ^ n.toNat < 2 ^ 64 := Nat.pow_lt_pow_right (by decide) (by omega)
  have hshift : ((1 : UInt64) <<< n.toUInt64).toNat = 2 ^ n.toNat := by
    rw [UInt64.toNat_shiftLeft, hmod, shiftLeft_eq]
    simpa using mod_eq_of_lt hlt
  rw [UInt64.toNat_sub_of_le, hshift]
  · rfl
  · rw [UInt64.le_iff_toNat_le, hshift]
    exact Nat.one_le_two_pow

theorem FromWalk.pageBase_le {vaddr : UInt64} (h : FromWalk vaddr e) :
    e.pageBase ≤ e.pageBase + e.size := by
  have hN : e.N.toNat ≤ 30 := h.bits
  have hdvd : 2 ^ e.N.toNat ∣ 2 ^ 64 := pow_dvd_pow 2 (by omega)
  have hlt : vaddr.toNat / 2 ^ e.N.toNat < 2 ^ 64 / 2 ^ e.N.toNat :=
    div_lt_div_of_lt_of_dvd hdvd vaddr.toNat_lt
  have hmul : (vaddr.toNat / 2 ^ e.N.toNat + 1) * 2 ^ e.N.toNat ≤ 2 ^ 64 := by
    calc (vaddr.toNat / 2 ^ e.N.toNat + 1) * 2 ^ e.N.toNat
        ≤ 2 ^ 64 / 2 ^ e.N.toNat * 2 ^ e.N.toNat := mul_le_mul_right _ hlt
      _ = 2 ^ 64 := Nat.div_mul_cancel hdvd
  rw [Nat.add_one_mul] at hmul
  unfold pageBase
  have hpos : 0 < 2 ^ e.N.toNat := Nat.two_pow_pos _
  rw [h.vpn, h.size, UInt64.le_iff_toNat_le, UInt64.toNat_add, toNat_pageBase vaddr hN,
    toNat_pageSize hN, mod_eq_of_lt (by omega)]
  omega

/-- An entry that can be hit belongs to an exception level, and its first address is in its
range. -/
def Hittable (e : TlbEntry) : Prop :=
  e.valid = true → e.pageBase ≤ e.pageBase + e.size ∧ e.el ≤ 3

theorem hittable_of_not_valid (h : e.valid = false) : e.Hittable :=
  fun hvalid => by rw [h] at hvalid; cases hvalid

def ownArgs (e : TlbEntry) : LookupArgs :=
  { va := e.pageBase, asn := e.asid, vmid := e.vmid, hyp := e.isHyp, secure := !e.nstid,
    ignoreAsn := false, targetEl := e.el }

theorem isMatch_ownArgs (hvalid : e.valid = true)
    (hle : e.pageBase ≤ e.pageBase + e.size) (hel : e.el = 2 ∨ e.el = 3) :
    e.isMatch e.ownArgs = true := by
  rcases hel with hel | hel <;> simp [isMatch, ownArgs, elMatch, hvalid, hle, hel]

end TlbEntry

namespace Tlb

structure Checkpoint where
  numEntries : Nat
  entries : List CheckpointSection

def serialize (t : Tlb) : Checkpoint where
  numEntries := t.table.length
  entries := t.table.map TlbEntry.serialize

/-- The loop over the entries. `none` is the fatal error. -/
def unserializeEntries : Nat → List CheckpointSection → List TlbEntry → Option (List TlbEntry)
  | 0, _, table => some table
  | _ + 1, _, [] => some []
  | _ + 1, [], _ :: _ => none
  | n + 1, cp :: cps, e :: table => do
    let e' ← e.unserialize cp
    let table' ← unserializeEntries n cps table
    return e' :: table'

def unserialize (t : Tlb) (cp : Checkpoint) : Option Tlb :=
  (unserializeEntries cp.numEntries cp.entries t.table).map (fun table => { t with table })

/-- The entries are read back in their order, but for their levels. -/
theorem unserializeEntries_serialize (l : List TlbEntry) :
    unserializeEntries l.length (l.map TlbEntry.serialize) (List.replicate l.length {}) =
      some (l.map restored) := by
  induction l with
  | nil => rfl
  | cons e l ih =>
    rw [length_cons, replicate_succ, map_cons, unserializeEntries,
      unserialize_serialize, ih]
    rfl

/-- A restored buffer has the entries, without their exception levels. -/
theorem unserialize_serialize (t : Tlb) :
    (construct t.table.length t.isStage2).unserialize t.serialize =
      some { construct t.table.length t.isStage2 with table := t.table.map TlbEntry.restored } := by
  unfold unserialize serialize construct
  rw [unserializeEntries_serialize]
  rfl

def translations : List (LookupArgs × Bool) → Tlb → List (Option UInt64)
  | [], _ => []
  | (k, functional) :: rest, t =>
    let (x, t') := t.lookup k functional
    x.map (fun x => (t'.table.getD x {}).pAddr k.va) :: translations rest t'

theorem findIdx?_restored {l : List TlbEntry} (h : ∀ e ∈ l, e.LowEl) (k : LookupArgs) :
    (l.map restored).findIdx? (fun e => e.isMatch k) =
      l.findIdx? (fun e => e.isMatch k) := by
  induction l with
  | nil => rfl
  | cons e l ih =>
    rw [map_cons, findIdx?_cons, findIdx?_cons, isMatch_restored (h e mem_cons_self) k,
      ih (fun e he => h e (.tail _ he))]

theorem pAddr_getD_restored (l : List TlbEntry) (x : Nat) (va : UInt64) :
    ((l.map restored).getD x {}).pAddr va = (l.getD x {}).pAddr va := by
  rw [getD_eq_getElem?_getD, getD_eq_getElem?_getD, getElem?_map]
  cases l[x]? <;> rfl

variable {t t' : Tlb}

/-- A lookup after a restore finds the entry that it found before. -/
theorem lookup_restored (hlow : ∀ e ∈ t.table, e.LowEl)
    (htable : t'.table = t.table.map restored) (hmru : t'.rangeMRU = t.rangeMRU)
    (k : LookupArgs) (functional : Bool) :
    (t'.lookup k functional).1 = (t.lookup k functional).1 ∧ (t'.lookup k functional).2.table =
        (t.lookup k functional).2.table.map restored ∧
      (t'.lookup k functional).2.rangeMRU = (t.lookup k functional).2.rangeMRU := by
  unfold lookup
  rw [htable, findIdx?_restored hlow k, hmru]
  cases hx : t.table.findIdx? (fun e => e.isMatch k) with
  | none => exact ⟨rfl, htable, hmru⟩
  | some x =>
    obtain ⟨hlt, -⟩ := findIdx?_eq_some_iff_getElem.mp hx
    dsimp only
    split
    · refine ⟨rfl, ?_, rfl⟩
      rw [map_cons, getD_eq_getElem _ _ hlt,
        getD_eq_getElem _ _ (by simpa using hlt), getElem_map, eraseIdx_map]
    · exact ⟨rfl, htable, hmru⟩

theorem translations_restored (ls : List (LookupArgs × Bool))
    (hlow : ∀ e ∈ t.table, e.LowEl) (htable : t'.table = t.table.map restored)
    (hmru : t'.rangeMRU = t.rangeMRU) : t'.translations ls = t.translations ls := by
  induction ls generalizing t t' with
  | nil => rfl
  | cons l ls ih =>
    obtain ⟨k, functional⟩ := l
    obtain ⟨hx, htable', hmru'⟩ := lookup_restored hlow htable hmru k functional
    have hlow' : ∀ e ∈ (t.lookup k functional).2.table, e.LowEl := by
      intro e he
      cases h : t.lookup k functional with
      | mk x u =>
        rw [h] at he
        cases x with
        | none => exact hlow e (lookup_none h ▸ he)
        | some x =>
          obtain ⟨-, -, hperm, -⟩ := lookup_some h
          exact hlow e (hperm.mem_iff.mp he)
    unfold translations
    dsimp only
    rw [hx, htable', ih hlow' htable' hmru']
    congr 2
    funext x
    exact pAddr_getD_restored _ x k.va

inductive Move
  | insert (vaddr : UInt64) (e : TlbEntry)
  | lookup (k : LookupArgs) (functional : Bool)
  | updateMiscReg (isHyp : Bool) (vmid : UInt8)
  | flushAsid (asn : UInt64) (secureLookup : Bool) (targetEl : UInt8)
  | flushMvaAsid (fuel : Nat) (mva asn : UInt64) (secureLookup : Bool) (targetEl : UInt8)
  | flushMva (fuel : Nat) (mva : UInt64) (secureLookup hyp : Bool) (targetEl : UInt8)

def move (t : Tlb) : Move → Option Tlb
  | .insert vaddr e => if TlbEntry.FromWalk vaddr e then some (t.insert e) else none
  | .lookup k functional => some (t.lookup k functional).2
  | .updateMiscReg isHyp vmid => some (t.updateMiscReg isHyp vmid)
  | .flushAsid asn secureLookup targetEl => some (t.flushAsid asn secureLookup targetEl)
  | .flushMvaAsid fuel mva asn secureLookup targetEl =>
    t.flushMvaAsid fuel mva asn secureLookup targetEl
  | .flushMva fuel mva secureLookup hyp targetEl => t.flushMva fuel mva secureLookup hyp targetEl

/-- A buffer as it can be: its entries can be hit. -/
structure Sound (t : Tlb) : Prop where
  rangeMRU : t.rangeMRU = 1
  hittable : ∀ e ∈ t.table, e.Hittable

theorem sound_construct (size : Nat) (isStage2 : Bool) : (construct size isStage2).Sound where
  rangeMRU := rfl
  hittable e he := by
    rw [eq_of_mem_replicate he]
    exact hittable_of_not_valid rfl

section

variable (h : t.Sound)
include h

theorem Sound.insert {vaddr : UInt64} (he : FromWalk vaddr e) : (t.insert e).Sound := by
  refine ⟨h.rangeMRU, fun e' he' => ?_⟩
  rcases mem_cons.mp (mem_of_mem_take he') with rfl | hold
  · exact fun _ => ⟨he.pageBase_le, he.el⟩
  · exact h.hittable e' hold

theorem Sound.lookup (k : LookupArgs) (functional : Bool) : (t.lookup k functional).2.Sound := by
  cases hl : t.lookup k functional with
  | mk x u =>
    cases x with
    | none =>
      rw [lookup_none hl]
      exact h
    | some x =>
      obtain ⟨-, -, hperm, hsame⟩ := lookup_some hl
      refine ⟨?_, fun e he => h.hittable e (hperm.mem_iff.mp he)⟩
      rw [hsame]
      exact h.rangeMRU

theorem Sound.flushWhere (p : TlbEntry → Bool) : (t.flushWhere p).Sound := by
  refine ⟨h.rangeMRU, fun e he hvalid => ?_⟩
  obtain ⟨hmem, -, -⟩ := valid_flushWhere.mp ⟨he, hvalid⟩
  exact h.hittable e hmem hvalid

theorem Sound.flushMvaWith {fuel : Nat} {mva asn : UInt64}
    {secureLookup hyp ignoreAsn : Bool} {targetEl : UInt8}
    (hflush : t.flushMvaWith fuel mva asn secureLookup hyp ignoreAsn targetEl = some t') :
    t'.Sound := by
  obtain ⟨u, ⟨n, hends⟩, hperm, hsame⟩ :=
    ends_flushMvaRound (t.flushArgs mva asn secureLookup hyp ignoreAsn targetEl) t
  have heq : t' = u := by
    have hmore := loop_mono hflush (le_max_right n fuel)
    rw [hends _ (le_max_left n fuel)] at hmore
    exact (some.inj hmore).symm
  rw [heq]
  refine ⟨by rw [hsame]; exact h.rangeMRU, fun e he => ?_⟩
  obtain ⟨e₀, he₀, rfl⟩ := mem_map.mp (hperm.mem_iff.mp he)
  unfold clear
  split
  · exact hittable_of_not_valid rfl
  · exact h.hittable e₀ he₀

/-- What each call keeps. -/
theorem Sound.move {m : Move} (hm : t.move m = some t') : t'.Sound := by
  cases m with
  | insert vaddr e =>
    change (if FromWalk vaddr e then some (t.insert e) else none) = some t' at hm
    split_ifs at hm with he
    exact some.inj hm ▸ h.insert he
  | lookup k functional => exact some.inj hm ▸ h.lookup k functional
  | updateMiscReg isHyp vmid => exact some.inj hm ▸ ⟨h.rangeMRU, h.hittable⟩
  | flushAsid asn secureLookup targetEl => exact some.inj hm ▸ h.flushWhere _
  | flushMvaAsid fuel mva asn secureLookup targetEl => exact h.flushMvaWith hm
  | flushMva fuel mva secureLookup hyp targetEl => exact h.flushMvaWith hm

/-- A restored buffer translates like the one before if and only if no entry belongs to exception
level 2 or 3. -/
theorem Sound.translations_iff {t' : Tlb}
    (htable : t'.table = t.table.map restored) (hmru : t'.rangeMRU = 1) :
    (∀ ls, t'.translations ls = t.translations ls) ↔ ∀ e ∈ t.table, e.LowEl := by
  refine ⟨fun hsame e he hvalid => ?_, fun hlow ls =>
    translations_restored ls hlow htable (hmru.trans h.rangeMRU.symm)⟩
  obtain ⟨hle, hel⟩ := h.hittable e he hvalid
  have hcases : (e.el = 0 ∨ e.el = 1) ∨ e.el = 2 ∨ e.el = 3 := by
    have hlt : e.el.toNat ≤ 3 := hel
    have hof : e.el = UInt8.ofNat e.el.toNat := by simp
    generalize e.el.toNat = n at hlt hof
    interval_cases n
    · exact .inl (.inl hof)
    · exact .inl (.inr hof)
    · exact .inr (.inl hof)
    · exact .inr (.inr hof)
  refine hcases.resolve_right (fun hhigh => ?_)
  -- the lookup of the entry itself hits before, and misses after
  have hhit : (t.lookup e.ownArgs true).1 ≠ none := by
    intro hnone
    have hno := lookup_eq_none_iff.mp hnone e he
    rw [isMatch_ownArgs hvalid hle hhigh] at hno
    cases hno
  have hmiss : (t'.lookup e.ownArgs true).1 = none := by
    refine lookup_eq_none_iff.mpr (fun e' he' => ?_)
    rw [htable] at he'
    obtain ⟨e₀, -, rfl⟩ := mem_map.mp he'
    exact isMatch_restored_high e₀ hhigh
  have heq := hsame [(e.ownArgs, true)]
  unfold translations translations at heq
  dsimp only at heq
  rw [hmiss] at heq
  cases hx : (t.lookup e.ownArgs true).1 with
  | none => exact hhit hx
  | some x =>
    rw [hx] at heq
    cases heq

end

end Tlb

namespace TlbPair

inductive Move
  | tlb (m : Tlb.Move)
  | stage2Tlb (m : Tlb.Move)
  | flushAllSecurity (secureLookup : Bool) (targetEl : UInt8) (ignoreEl : Bool)
  | flushAllNs (hyp : Bool) (targetEl : UInt8) (ignoreEl : Bool)
  | flushAll
  | flushIpaVmid (fuel : Nat) (ipa : UInt64) (secureLookup hyp : Bool) (targetEl : UInt8)

def move (p : TlbPair) : Move → Option TlbPair
  | .tlb m => (p.tlb.move m).map (fun tlb => { p with tlb })
  | .stage2Tlb m => (p.stage2Tlb.move m).map (fun stage2Tlb => { p with stage2Tlb })
  | .flushAllSecurity secureLookup targetEl ignoreEl =>
    some (p.flushAllSecurity secureLookup targetEl ignoreEl)
  | .flushAllNs hyp targetEl ignoreEl => some (p.flushAllNs hyp targetEl ignoreEl)
  | .flushAll => some p.flushAll
  | .flushIpaVmid fuel ipa secureLookup hyp targetEl =>
    (p.flushIpaVmid fuel ipa secureLookup hyp targetEl).bind Except.toOption

/-- The two buffers of a system, of any sizes. -/
def machine (size size2 : Nat) : Machine TlbPair Move where
  init p := p = ⟨Tlb.construct size false, Tlb.construct size2 true⟩
  step p m p' := p.move m = some p'

theorem sound_flushAllSecurity {p : TlbPair} (h : p.tlb.Sound) (h2 : p.stage2Tlb.Sound)
    (secureLookup : Bool) (targetEl : UInt8) (ignoreEl : Bool) :
    (p.flushAllSecurity secureLookup targetEl ignoreEl).tlb.Sound ∧
      (p.flushAllSecurity secureLookup targetEl ignoreEl).stage2Tlb.Sound := by
  refine ⟨h.flushWhere _, ?_⟩
  unfold flushAllSecurity
  split
  · exact h2.flushWhere _
  · exact h2

theorem Reachable.sound {size size2 : Nat} {p : TlbPair} (hp : (machine size size2).Reachable p) :
    p.tlb.Sound ∧ p.stage2Tlb.Sound := by
  refine hp.invariant (I := fun p => p.tlb.Sound ∧ p.stage2Tlb.Sound) (fun p hinit => ?_)
    (fun p m p' h hstep => ?_)
  · rw [show p = _ from hinit]
    exact ⟨Tlb.sound_construct size false, Tlb.sound_construct size2 true⟩
  cases m with
  | tlb m =>
    obtain ⟨t, ht, rfl⟩ := map_eq_some_iff.mp hstep
    exact ⟨h.1.move ht, h.2⟩
  | stage2Tlb m =>
    obtain ⟨t, ht, rfl⟩ := map_eq_some_iff.mp hstep
    exact ⟨h.1, h.2.move ht⟩
  | flushAllSecurity secureLookup targetEl ignoreEl =>
    exact some.inj hstep ▸
      sound_flushAllSecurity h.1 h.2 secureLookup targetEl ignoreEl
  | flushAllNs hyp targetEl ignoreEl =>
    rw [← some.inj hstep]
    refine ⟨h.1.flushWhere _, ?_⟩
    unfold flushAllNs
    split
    · exact h.2.flushWhere _
    · exact h.2
  | flushAll =>
    obtain ⟨h1, h2⟩ := sound_flushAllSecurity h.1 h.2 false 0 true
    exact some.inj hstep ▸ sound_flushAllSecurity h1 h2 true 0 true
  | flushIpaVmid fuel ipa secureLookup hyp targetEl =>
    obtain ⟨r, hr, hok⟩ := bind_eq_some_iff.mp hstep
    unfold flushIpaVmid at hr
    split at hr
    · rw [← some.inj hr] at hok
      cases hok
    · obtain ⟨t, ht, rfl⟩ := map_eq_some_iff.mp hr
      rw [← some.inj hok]
      exact ⟨h.1, h.2.flushMvaWith ht⟩

/-- In every run, restoring a checkpoint gives a buffer that translates like the one before exactly
if no entry belongs to exception level 2 or 3. -/
theorem restored_translates_iff (size size2 : Nat) (p : TlbPair)
    (hp : (machine size size2).Reachable p) :
    ∀ t, t = p.tlb ∨ t = p.stage2Tlb →
      ∃ t', (Tlb.construct t.table.length t.isStage2).unserialize t.serialize = some t' ∧
        ((∀ ls, t'.translations ls = t.translations ls) ↔
          ∀ e ∈ t.table, e.valid = true → e.el = 0 ∨ e.el = 1) := by
  intro t ht
  obtain ⟨h1, h2⟩ := Reachable.sound hp
  have hsound : t.Sound := by
    rcases ht with rfl | rfl
    · exact h1
    · exact h2
  exact ⟨_, Tlb.unserialize_serialize t, hsound.translations_iff rfl rfl⟩

def el2Entry : TlbEntry :=
  { valid := true, N := 12, vpn := 1, size := 4095, pfn := 7, el := 2 }

theorem restored_translates_iff_low : ∃ p, (machine 2 0).Reachable p ∧ p.tlb.table ≠ [] ∧
      ∃ t', (Tlb.construct p.tlb.table.length p.tlb.isStage2).unserialize p.tlb.serialize =
        some t' ∧
        ∀ ls, t'.translations ls = p.tlb.translations ls := by
  obtain ⟨p, hp, hne, hlow⟩ := Machine.exists_run (M := machine 2 0) (f := move)
    (fun _ _ _ h => h) (.start rfl) [.tlb (.insert 0x1234 { el2Entry with el := 1 }), .flushAll,
      .tlb (.insert 0x1234 { el2Entry with el := 0 })] (P := fun p => p.tlb.table ≠ [] ∧
      ∀ e ∈ p.tlb.table, e.valid = true → e.el = 0 ∨ e.el = 1) (by decide)
  obtain ⟨t', ht', hiff⟩ := restored_translates_iff 2 0 p hp p.tlb (.inl rfl)
  exact ⟨p, hp, hne, t', ht', hiff.mpr hlow⟩

/-- After a restore an access from exception level 1 translates through the entry of level 2, and
the access from level 2 misses. -/
theorem restored_crosses_levels : ∃ p, (machine 2 0).Reachable p ∧
      ∃ t', (Tlb.construct p.tlb.table.length p.tlb.isStage2).unserialize p.tlb.serialize =
        some t' ∧
        p.tlb.translations [({ el2Entry.ownArgs with targetEl := 1 }, false),
          (el2Entry.ownArgs, false)] = [none, some 0x7000] ∧
        t'.translations [({ el2Entry.ownArgs with targetEl := 1 }, false),
          (el2Entry.ownArgs, false)] = [some 0x7000, none] :=
  ⟨_, .next (.start rfl) (a := .tlb (.insert 0x1234 el2Entry)) rfl, _,
    Tlb.unserialize_serialize _, by decide, by decide⟩

end TlbPair

end Gem5.Arm
