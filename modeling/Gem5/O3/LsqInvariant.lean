import Gem5.O3.LsqForward

namespace Gem5.O3.LsqUnit

open Lib List Function

variable {cfg : LsqConfig} {u u' : LsqUnit} {h h' : History} {f f' : Layout} {log : List StoreEvent}

/-! What the log shows. -/

def accepted (log : List StoreEvent) : List StorePacket :=
  log.filterMap (fun e => match e with
    | .accepted pkt => some pkt
    | _ => none)

def advanced (log : List StoreEvent) : List Nat :=
  log.filterMap (fun e => match e with
    | .advanced s => some s
    | _ => none)

@[simp]
theorem accepted_append (log log' : List StoreEvent) :
    accepted (log ++ log') = accepted log ++ accepted log' :=
  filterMap_append

@[simp]
theorem advanced_append (log log' : List StoreEvent) :
    advanced (log ++ log') = advanced log ++ advanced log' :=
  filterMap_append

theorem mem_accepted {pkt : StorePacket} : pkt ∈ accepted log ↔ StoreEvent.accepted pkt ∈ log := by
  unfold accepted
  rw [mem_filterMap]
  constructor
  · rintro ⟨e, he, heq⟩
    cases e <;> cases heq
    exact he
  · exact fun hpkt => ⟨_, hpkt, rfl⟩

/-- No packet is accepted while a store before it, other than a prefetch, has not completed. -/
def TsoOrdered (prefetch : Nat → Bool) (log : List StoreEvent) : Prop :=
  ∀ pre pkt post, log = pre ++ StoreEvent.accepted pkt :: post →
    ∀ s ∈ advanced pre, prefetch s = true ∨ StoreEvent.completed s ∈ pre

/-- An event keeps the order if it is no packet, or the stores before it have completed. -/
theorem TsoOrdered.snoc {prefetch : Nat → Bool} (ht : TsoOrdered prefetch log) {e : StoreEvent}
    (he : ∀ pkt, e = .accepted pkt →
      ∀ s ∈ advanced log, prefetch s = true ∨ StoreEvent.completed s ∈ log) :
    TsoOrdered prefetch (log ++ [e]) := by
  intro pre pkt post heq
  rcases eq_nil_or_concat post with rfl | ⟨post', e', rfl⟩
  · obtain ⟨rfl, hlast⟩ := append_inj' heq rfl
    exact he pkt (List.cons.inj hlast).1
  · rw [show pre ++ StoreEvent.accepted pkt :: (post'.concat e') =
      (pre ++ StoreEvent.accepted pkt :: post') ++ [e'] by simp] at heq
    obtain ⟨hlog, -⟩ := append_inj' heq rfl
    exact ht pre pkt post' hlog

def packets (cfg : LsqConfig) (u : LsqUnit) (h : History) (s : Nat) : List StorePacket :=
  match h.requests s with
  | none => []
  | some (req, _) =>
    if req.size % 256 = 0 ∨ (u.insts s).isDataPrefetch = true ∨ req.mmappedIpr = true ∨
        StoreEvent.failed s ∈ u.log then []
    else if cfg.hasUnalignedMemAcc && req.split then [⟨s, .low⟩, ⟨s, .high⟩]
    else [⟨s, .whole⟩]

theorem inst_of_mem_packets (hpkt : pkt ∈ packets cfg u h s) : pkt.inst = s := by
  unfold packets at hpkt
  split at hpkt
  · cases hpkt
  split at hpkt
  · cases hpkt
  · split at hpkt
    · rcases mem_cons.mp hpkt with rfl | hpkt
      · rfl
      · rw [mem_singleton.mp hpkt]
    · rw [mem_singleton.mp hpkt]

theorem packets_nodup (s : Nat) : (packets cfg u h s).Nodup := by
  unfold packets
  split
  · exact nodup_nil
  · split
    · exact nodup_nil
    · split <;> simp

theorem hasUnalignedMemAcc_of_packets (hpk : packets cfg u h s = pkt :: pkt' :: rest) :
    cfg.hasUnalignedMemAcc = true ∧ rest = [] := by
  unfold packets at hpk
  split at hpk
  · cases hpk
  · split at hpk
    · cases hpk
    · split_ifs at hpk with hsplit
      · exact ⟨(Bool.and_eq_true _ _ ▸ hsplit).1, (List.cons.inj (List.cons.inj hpk).2).2.symm⟩
      · cases (List.cons.inj hpk).2

/-- What a store sends depends on its request, its kind and whether it has failed. -/
theorem packets_congr (hreq : h'.requests s = h.requests s)
    (hpre : (u'.insts s).isDataPrefetch = (u.insts s).isDataPrefetch)
    (hfailed : StoreEvent.failed s ∈ u'.log ↔ StoreEvent.failed s ∈ u.log) :
    packets cfg u' h' s = packets cfg u h s := by
  unfold packets
  rw [hreq, hpre]
  simp only [hfailed]

def HasData (h : History) (s : Nat) : Prop := ∃ r, h.requests s = some r ∧ r.1.size % 256 ≠ 0

/-- How many packets of a store the cache has not answered. -/
def unanswered (cfg : LsqConfig) (u : LsqUnit) (h : History) (s : Nat) : Nat :=
  ((packets cfg u h s).filter (· ∉ h.responded)).length

/-! What the entries hold. -/

/-- The entry of a store that has been written. -/
structure Filled (cfg : LsqConfig) (e : SQEntry) (i : DynInst) (req : Request)
    (data : Nat → UInt8) : Prop where
  request : e.req = some req
  size : e.size = req.size % 256
  zeros : e.isAllZeros = req.cacheBlockZero
  split : e.isSplit = (cfg.hasUnalignedMemAcc && req.split)
  bytes : req.cacheBlockZero = false → req.size ≤ 16 ∧ ∀ k, k < req.size → e.data k = data k
  addr : i.effAddr = req.vaddr
  valid : i.effAddrValid = true
  strict : i.strictlyOrdered = req.strictlyOrdered

/-- The entries of the stores still to be sent hold what the stores write. -/
structure Written (cfg : LsqConfig) (u : LsqUnit) (h : History) (f : Layout) : Prop where
  fresh : ∀ s, h.lastSeqNum < s → h.requests s = none
  blank : ∀ p, f.storeWB ≤ p → p < f.storeTail → h.requests (f.storeAt p) = none →
    (u.storeQueue (p % cfg.sqEntries)).size = 0 ∧ (u.storeQueue (p % cfg.sqEntries)).isSplit = false
  filled : ∀ p, f.storeWB ≤ p → p < f.storeTail → ∀ req data,
    h.requests (f.storeAt p) = some (req, data) →
    Filled cfg (u.storeQueue (p % cfg.sqEntries)) (u.insts (f.storeAt p)) req data

theorem Written.valid (hw : Written cfg u h f) (p : Nat) (hp : f.storeWB ≤ p)
    (hp' : p < f.storeTail) (hsize : (u.storeQueue (p % cfg.sqEntries)).size ≠ 0) :
    (u.insts (f.storeAt p)).effAddrValid = true := by
  cases hreq : h.requests (f.storeAt p) with
  | none => exact absurd (hw.blank p hp hp' hreq).1 hsize
  | some r => exact (hw.filled p hp hp' r.1 r.2 hreq).valid

/-! Where the stores stand on their way to the cache. -/

/-- The sender state of the store at position `p` counts the answers still to come. -/
def Served (cfg : LsqConfig) (u : LsqUnit) (h : History) (s p : Nat) : Prop :=
  (u.senders s).idx = p % cfg.sqEntries ∧
    (cfg.hasUnalignedMemAcc = true → (u.senders s).outstanding = unanswered cfg u h s)

/-- The store at `storeWBIdx` is on its way to the cache, which has accepted the packets `part` and
not yet `rest`. -/
structure Outgoing (cfg : LsqConfig) (u : LsqUnit) (h : History) (f : Layout)
    (part rest : List StorePacket) : Prop where
  lt : f.storeWB < f.storeTail
  canWB : (u.storeQueue (f.storeWB % cfg.sqEntries)).canWB = true
  packets : packets cfg u h (f.storeAt f.storeWB) = part ++ rest
  served : Served cfg u h (f.storeAt f.storeWB) f.storeWB
  flight : cfg.needsTSO = true → u.storeInFlight = false

/-- The packet that was rejected and the one that waits for a port, each with its flag. -/
structure Hand where
  isStoreBlocked : Bool
  retryPkt : Option StorePacket
  hasPendingPkt : Bool
  pendingPkt : Option StorePacket

def hand (u : LsqUnit) : Hand := ⟨u.isStoreBlocked, u.retryPkt, u.hasPendingPkt, u.pendingPkt⟩

def Hand.of (retry pending : Option StorePacket) : Hand :=
  ⟨retry.isSome, retry, pending.isSome, pending⟩

/-- What the unit keeps of the packets `rest` of a store with sender state `t`: the first packet
or the last was rejected, or the last one waits for a port. -/
inductive Held (t : SenderState) : Hand → List StorePacket → List StorePacket → Prop
  | first {pkt : StorePacket} {rest : List StorePacket}
      (hsend : rest = [] ∧ t.pktToSend = false ∨
        ∃ next, rest = [next] ∧ t.pktToSend = true ∧ t.pendingPacket = some next) :
      Held t (.of (some pkt) none) [] (pkt :: rest)
  | second {pkt next : StorePacket}
      (hsend : t.pktToSend = false ∨ t.pendingPacket = some next) :
      Held t (.of (some next) none) [pkt] [next]
  | pending {pkt next : StorePacket} (hsend : t.pktToSend = false) :
      Held t (.of none (some next)) [pkt] [next]

/-- The store at `storeWBIdx` has not been started, or the unit keeps what is left of it. -/
inductive InHand (cfg : LsqConfig) (u : LsqUnit) (h : History) (f : Layout) :
    List StorePacket → Prop
  | idle (hhand : u.hand = .of none none) (hstart : f.storeWB < f.storeTail →
        (u.storeQueue (f.storeWB % cfg.sqEntries)).committed = false) : InHand cfg u h f []
  | busy {part rest : List StorePacket} {hand : Hand} (hout : Outgoing cfg u h f part rest)
      (hhand : u.hand = hand) (hheld : Held (u.senders (f.storeAt f.storeWB)) hand part rest) :
      InHand cfg u h f part

/-- The stores that have not been written back, in program order. -/
def liveStores (f : Layout) : List Nat :=
  (List.range' f.storeWB (f.storeTail - f.storeWB)).map f.storeAt

theorem mem_liveStores :
    s ∈ liveStores f ↔ ∃ p, f.storeWB ≤ p ∧ p < f.storeTail ∧ f.storeAt p = s := by
  unfold liveStores
  simp only [mem_map, mem_range'_1]
  constructor
  · rintro ⟨p, ⟨hle, hlt⟩, rfl⟩
    exact ⟨p, hle, by omega, rfl⟩
  · rintro ⟨p, hle, hlt, rfl⟩
    exact ⟨p, ⟨hle, by omega⟩, rfl⟩

theorem liveStores_cons (hlt : f.storeWB < f.storeTail) :
    liveStores f = f.storeAt f.storeWB :: liveStores { f with storeWB := f.storeWB + 1 } := by
  unfold liveStores
  dsimp only
  rw [show f.storeTail - f.storeWB = (f.storeTail - (f.storeWB + 1)) + 1 by omega,
    range'_succ, map_cons]

/-- The entries that may be written back and have not completed. -/
def openStores (cfg : LsqConfig) (u : LsqUnit) (f : Layout) : Finset Nat :=
  (Finset.Ico f.storeHead f.storeTail).filter (fun p =>
    (u.storeQueue (p % cfg.sqEntries)).canWB = true ∧
      (u.storeQueue (p % cfg.sqEntries)).completed = false)

/-- The stores in program order: those that `storeWBIdx` has passed, and the rest. -/
structure ProgramOrder (u : LsqUnit) (h : History) (f : Layout) : Prop where
  program : h.program = advanced u.log ++ liveStores f
  isStore : ∀ s ∈ h.program, (u.insts s).isLoad = false
  live : ∀ s ∈ h.program, (u.insts s).squashed = false
  fresh : ∀ s, h.lastSeqNum < s → (u.insts s).isLoad = true
  sorted : h.program.Pairwise (· < ·)
  known : ∀ s ∈ h.program, s ≤ h.lastSeqNum
  passed : ∀ s ∈ advanced u.log, s ≤ h.committedNum
  sent : ∀ p, f.storeHead ≤ p → p < f.storeWB → f.storeAt p ∈ advanced u.log

/-- The flags of the entries. -/
structure Entries (cfg : LsqConfig) (u : LsqUnit) (h : History) (f : Layout) : Prop where
  canWB : ∀ p, f.storeHead ≤ p → p < f.storeWB → (u.storeQueue (p % cfg.sqEntries)).canWB = true
  bound : ∀ p, f.storeHead ≤ p → p < f.storeTail →
    (u.storeQueue (p % cfg.sqEntries)).canWB = true → f.storeAt p ≤ h.committedNum
  waiting : ∀ p, f.storeWB ≤ p → p < f.storeTail →
    (u.storeQueue (p % cfg.sqEntries)).completed = false
  unstarted : ∀ p, f.storeWB < p → p < f.storeTail →
    (u.storeQueue (p % cfg.sqEntries)).committed = false
  noData : ∀ p, f.storeWB ≤ p → p < f.storeTail →
    (u.storeQueue (p % cfg.sqEntries)).committed = false → (u.insts (f.storeAt p)).memData = none
  count : u.storesToWB = ((openStores cfg u f).card : Int)

/-- The stores that `storeWBIdx` has passed are with the cache or have completed, and `part` is
what the cache has of the next one. -/
structure Service (cfg : LsqConfig) (u : LsqUnit) (h : History) (f : Layout)
    (part : List StorePacket) : Prop where
  served : ∀ p, f.storeHead ≤ p → p < f.storeWB →
    (u.storeQueue (p % cfg.sqEntries)).completed = false →
    ((u.insts (f.storeAt p)).isDataPrefetch = true ∧ HasData h (f.storeAt p)) ∨
      (Served cfg u h (f.storeAt p) p ∧ ∃ pkt ∈ packets cfg u h (f.storeAt p), pkt ∉ h.responded)
  finished : ∀ s, StoreEvent.failed s ∈ u.log ∨ StoreEvent.completed s ∈ u.log → s ∈ advanced u.log
  accepted : accepted u.log = (advanced u.log).flatMap (packets cfg u h) ++ part
  responded : ∀ pkt ∈ h.responded, pkt ∈ LsqUnit.accepted u.log
  answered : ∀ s, StoreEvent.completed s ∈ u.log → ∀ pkt ∈ packets cfg u h s, pkt ∈ h.responded
  done : ∀ s ∈ advanced u.log, StoreEvent.completed s ∈ u.log ∨
    ∃ p, f.storeHead ≤ p ∧ p < f.storeWB ∧ f.storeAt p = s ∧
      (u.storeQueue (p % cfg.sqEntries)).completed = false
  single : cfg.needsTSO = true → ∀ p p', f.storeHead ≤ p → p < f.storeWB → f.storeHead ≤ p' →
    p' < f.storeWB → (u.storeQueue (p % cfg.sqEntries)).completed = false →
    (u.storeQueue (p' % cfg.sqEntries)).completed = false →
    (u.insts (f.storeAt p)).isDataPrefetch = false →
    (u.insts (f.storeAt p')).isDataPrefetch = false → p = p' ∧ u.storeInFlight = true
  inFlight : cfg.needsTSO = true → u.storeInFlight = true → ∃ p, f.storeHead ≤ p ∧ p < f.storeWB ∧
    (u.storeQueue (p % cfg.sqEntries)).completed = false ∧
    (u.insts (f.storeAt p)).isDataPrefetch = false
  tso : cfg.needsTSO = true → TsoOrdered (fun s => (u.insts s).isDataPrefetch) u.log

/-! One entry of the store queue changes. -/

structure EntrySet (cfg : LsqConfig) (u u' : LsqUnit) (f : Layout) (p : Nat) (e : SQEntry) :
    Prop where
  head_le : f.storeHead ≤ p
  lt_tail : p < f.storeTail
  room : f.storeTail < f.storeHead + cfg.sqEntries
  storeQueue : u'.storeQueue = Function.update u.storeQueue (p % cfg.sqEntries) e

namespace EntrySet

variable {p : Nat} {e : SQEntry}

theorem self (hs : EntrySet cfg u u' f p e) : u'.storeQueue (p % cfg.sqEntries) = e := by
  rw [hs.storeQueue, update_self]

theorem other (hs : EntrySet cfg u u' f p e) (hp : f.storeHead ≤ p') (hp' : p' < f.storeTail)
    (hne : p' ≠ p) : u'.storeQueue (p' % cfg.sqEntries) = u.storeQueue (p' % cfg.sqEntries) := by
  have h1 := hs.head_le
  have h2 := hs.lt_tail
  have h3 := hs.room
  rw [hs.storeQueue]
  exact Ring.update_of_ne hne (by omega) (by omega) _

theorem rel {P : SQEntry → SQEntry → Prop} (hs : EntrySet cfg u u' f p e) (hrefl : ∀ a, P a a)
    (he : P (u.storeQueue (p % cfg.sqEntries)) e) (idx : Nat) :
    P (u.storeQueue idx) (u'.storeQueue idx) := by
  rw [hs.storeQueue]
  by_cases hidx : idx = p % cfg.sqEntries
  · rw [hidx, update_self]
    exact he
  · rw [update_of_ne hidx]
    exact hrefl _

theorem keeps (hs : EntrySet cfg u u' f p e) (g : SQEntry → α)
    (hg : g e = g (u.storeQueue (p % cfg.sqEntries))) (idx : Nat) :
    g (u'.storeQueue idx) = g (u.storeQueue idx) :=
  hs.rel (P := fun a b => g b = g a) (fun _ => rfl) hg idx

/-- How the number of stores to be written back changes with one entry. -/
theorem card_openStores (hs : EntrySet cfg u u' f p e) :
    ((openStores cfg u' f).card : Int) = (openStores cfg u f).card +
      (if e.canWB = true ∧ e.completed = false then 1 else 0) -
      if (u.storeQueue (p % cfg.sqEntries)).canWB = true ∧
        (u.storeQueue (p % cfg.sqEntries)).completed = false then 1 else 0 := by
  have hmem : ∀ v : LsqUnit, p ∈ openStores cfg v f ↔
      (v.storeQueue (p % cfg.sqEntries)).canWB = true ∧
        (v.storeQueue (p % cfg.sqEntries)).completed = false := by
    intro v
    unfold openStores
    simp [hs.head_le, hs.lt_tail]
  have herase : (openStores cfg u' f).erase p = (openStores cfg u f).erase p := by
    ext p'
    unfold openStores
    simp only [Finset.mem_erase, Finset.mem_filter, Finset.mem_Ico]
    refine and_congr_right (fun hne => and_congr_right (fun hr => ?_))
    rw [hs.other hr.1 hr.2 hne]
  have hcard : ∀ v : LsqUnit, ((openStores cfg v f).card : Int) =
      ((openStores cfg v f).erase p).card + if (v.storeQueue (p % cfg.sqEntries)).canWB = true ∧
        (v.storeQueue (p % cfg.sqEntries)).completed = false then 1 else 0 := by
    intro v
    split_ifs with hopen
    · have := Finset.card_erase_add_one ((hmem v).mpr hopen)
      omega
    · rw [Finset.erase_eq_of_notMem (fun hin => hopen ((hmem v).mp hin))]
      exact (add_zero _).symm
  rw [hcard u', hcard u, herase, hs.self]
  omega

end EntrySet

/-- The violator is a load after the instruction whose check has found it, and not squashed. -/
def ViolatorLive (u : LsqUnit) (last : Nat) : Prop :=
  ∀ v, u.memDepViolator = some v →
    (u.insts v).isLoad = true ∧ (u.insts v).squashed = false ∧ u.violatedBy < v ∧ v ≤ last

/-- The queues, and what the cache has of the stores. -/
structure Queues (cfg : LsqConfig) (u : LsqUnit) (h : History) (f : Layout)
    (part : List StorePacket) : Prop where
  loads : LoadWindow cfg u h.lastSeqNum f
  stores : StoreWindow cfg u h.lastSeqNum f
  written : Written cfg u h f
  order : ProgramOrder u h f
  entries : Entries cfg u h f
  service : Service cfg u h f part

def Freed (cfg : LsqConfig) (u : LsqUnit) (f : Layout) : Prop :=
  f.storeHead < f.storeTail → (u.storeQueue (f.storeHead % cfg.sqEntries)).completed = false

/-- The invariant, but for the indices that instructions have noted. -/
structure Core (cfg : LsqConfig) (u : LsqUnit) (h : History) (f : Layout)
    (part : List StorePacket) : Prop extends Queues cfg u h f part where
  inHand : InHand cfg u h f part
  freed : Freed cfg u f

structure Inv (cfg : LsqConfig) (u : LsqUnit) (h : History) (f : Layout)
    (part : List StorePacket) : Prop extends Core cfg u h f part where
  indices : Indices cfg u h.committedNum f

/-- The invariant, but for the store in hand. -/
structure Aside (cfg : LsqConfig) (u : LsqUnit) (h : History) (f : Layout)
    (part : List StorePacket) : Prop extends Queues cfg u h f part where
  indices : Indices cfg u h.committedNum f

theorem Inv.aside (hi : Inv cfg u h f part) : Aside cfg u h f part :=
  ⟨hi.toQueues, hi.indices⟩

theorem Aside.inv (ha : Aside cfg u h f part)
    (hh : InHand cfg u h f part) (hfreed : Freed cfg u f) : Inv cfg u h f part :=
  ⟨⟨ha.toQueues, hh, hfreed⟩, ha.indices⟩

/-! Operations that only touch loads keep the invariant. -/

theorem Served.congr (hs : Served cfg u h s p)
    (hsenders : u'.senders s = u.senders s) (hresponded : h'.responded = h.responded)
    (hpackets : packets cfg u' h' s = packets cfg u h s) : Served cfg u' h' s p := by
  unfold Served unanswered
  rw [hsenders, hpackets, hresponded]
  exact hs

/-- The packet in hand does not depend on the rest of the unit. -/
theorem InHand.congr (hh : InHand cfg u h f part) (hwb : f'.storeWB = f.storeWB)
    (hhand : u'.hand = u.hand) (hflight : u'.storeInFlight = u.storeInFlight)
    (hsenders : u'.senders = u.senders) (hresponded : h'.responded = h.responded)
    (hstart : (f.storeWB < f.storeTail →
        (u.storeQueue (f.storeWB % cfg.sqEntries)).committed = false) →
      f.storeWB < f'.storeTail → (u'.storeQueue (f.storeWB % cfg.sqEntries)).committed = false)
    (hkeep : f.storeWB < f.storeTail → (u.storeQueue (f.storeWB % cfg.sqEntries)).canWB = true →
      f.storeWB < f'.storeTail ∧ f'.storeAt f.storeWB = f.storeAt f.storeWB ∧
        (u'.storeQueue (f.storeWB % cfg.sqEntries)).canWB = true ∧
        packets cfg u' h' (f.storeAt f.storeWB) = packets cfg u h (f.storeAt f.storeWB)) :
    InHand cfg u' h' f' part := by
  cases hh with
  | idle h1 h2 => exact .idle (hhand.trans h1) (by rw [hwb]; exact hstart h2)
  | busy ho h1 hheld =>
    obtain ⟨hlt, hat, hcan, hpk⟩ := hkeep ho.lt ho.canWB
    rw [← hsenders, ← hat, ← hwb] at hheld
    refine .busy ⟨by rwa [hwb], by rwa [hwb], ?_, ?_, fun ht => hflight.trans (ho.flight ht)⟩
      (hhand.trans h1) hheld <;> rw [hwb, hat]
    · exact hpk.trans ho.packets
    · exact ho.served.congr (by rw [hsenders]) hresponded hpk

theorem TsoOrdered.congr {prefetch prefetch' : Nat → Bool}
    (ht : TsoOrdered prefetch log) (heq : ∀ s ∈ advanced log, prefetch' s = prefetch s) :
    TsoOrdered prefetch' log := by
  intro pre pkt post hlog s hs
  have hmem : s ∈ advanced log := by
    rw [hlog, advanced_append]
    exact mem_append_left _ hs
  rw [heq s hmem]
  exact ht pre pkt post hlog s hs

/-- The service of the stores does not depend on what is younger. -/
theorem Service.congr (hs : Service cfg u h f part)
    (ho : ProgramOrder u h f) (hhead : f'.storeHead = f.storeHead) (hwb : f'.storeWB = f.storeWB)
    (hat : ∀ p, f.storeHead ≤ p → p < f.storeWB → f'.storeAt p = f.storeAt p)
    (hlog : u'.log = u.log) (hflight : u'.storeInFlight = u.storeInFlight)
    (hresponded : h'.responded = h.responded)
    (hsenders : ∀ s ∈ advanced u.log, u'.senders s = u.senders s)
    (hcompleted : ∀ p, f.storeHead ≤ p → p < f.storeWB →
      (u'.storeQueue (p % cfg.sqEntries)).completed = (u.storeQueue (p % cfg.sqEntries)).completed)
    (hprefetch : ∀ s ∈ advanced u.log, (u'.insts s).isDataPrefetch = (u.insts s).isDataPrefetch)
    (hrequests : ∀ s ∈ advanced u.log, h'.requests s = h.requests s) :
    Service cfg u' h' f' part := by
  have hpackets : ∀ s ∈ advanced u.log, packets cfg u' h' s = packets cfg u h s :=
    fun s hmem => packets_congr (hrequests s hmem) (hprefetch s hmem) (by rw [hlog])
  refine ⟨?_, ?_, ?_, ?_, fun s hc pkt hpkt => ?_, fun s hmem => ?_, fun ht => ?_,
    fun ht hfl => ?_, fun ht => ?_⟩
  · rw [hhead, hwb]
    intro p hp hp' hc
    have hmem := ho.sent p hp hp'
    rw [hcompleted p hp hp'] at hc
    unfold HasData
    rw [hat p hp hp', hprefetch _ hmem, hpackets _ hmem, hresponded, hrequests _ hmem]
    exact (hs.served p hp hp' hc).imp_right
      (fun hx => ⟨hx.1.congr (hsenders _ hmem) hresponded (hpackets _ hmem), hx.2⟩)
  · rw [hlog]
    exact hs.finished
  · rw [hlog, flatMap_congr hpackets]
    exact hs.accepted
  · rw [hlog, hresponded]
    exact hs.responded
  · rw [hlog] at hc
    rw [hpackets s (hs.finished s (.inr hc))] at hpkt
    rw [hresponded]
    exact hs.answered s hc pkt hpkt
  · rw [hlog] at hmem ⊢
    rw [hhead, hwb]
    refine (hs.done s hmem).imp_right (fun ⟨p, h1, h2, h3, h4⟩ => ⟨p, h1, h2, ?_, ?_⟩)
    · rwa [hat p h1 h2]
    · rwa [hcompleted p h1 h2]
  · rw [hhead, hwb]
    intro p p' h1 h2 h3 h4
    rw [hcompleted p h1 h2, hcompleted p' h3 h4, hat p h1 h2, hat p' h3 h4,
      hprefetch _ (ho.sent p h1 h2), hprefetch _ (ho.sent p' h3 h4), hflight]
    exact hs.single ht p p' h1 h2 h3 h4
  · rw [hflight] at hfl
    rw [hhead, hwb]
    obtain ⟨p, h1, h2, h3, h4⟩ := hs.inFlight ht hfl
    refine ⟨p, h1, h2, (hcompleted p h1 h2).trans h3, ?_⟩
    rwa [hat p h1 h2, hprefetch _ (ho.sent p h1 h2)]
  · rw [hlog]
    exact (hs.tso ht).congr hprefetch

theorem ProgramOrder.mem_of_advanced (ho : ProgramOrder u h f) (hs : s ∈ advanced u.log) :
    s ∈ h.program := by
  rw [ho.program]
  exact mem_append_left _ hs

/-- The order of the stores rests on what has been passed and on what stays of the instructions. -/
theorem ProgramOrder.congr (ho : ProgramOrder u h f) (hadv : advanced u'.log = advanced u.log)
    (hload : ∀ s, (u'.insts s).isLoad = (u.insts s).isLoad)
    (hlive : ∀ s ∈ h.program, (u'.insts s).squashed = (u.insts s).squashed) :
    ProgramOrder u' h f where
  __ := ho
  program := by
    rw [hadv]
    exact ho.program
  isStore s hs := (hload s).trans (ho.isStore s hs)
  live s hs := (hlive s hs).trans (ho.live s hs)
  fresh s hs := (hload s).trans (ho.fresh s hs)
  passed := by
    rw [hadv]
    exact ho.passed
  sent := by
    rw [hadv]
    exact ho.sent

theorem Entries.congr (he : Entries cfg u h f) (hqueue : u'.storeQueue = u.storeQueue)
    (hcount : u'.storesToWB = u.storesToWB) (hdata : ∀ p, f.storeWB ≤ p → p < f.storeTail →
      (u'.insts (f.storeAt p)).memData = (u.insts (f.storeAt p)).memData) :
    Entries cfg u' h f where
  canWB := by
    rw [hqueue]
    exact he.canWB
  bound := by
    rw [hqueue]
    exact he.bound
  waiting := by
    rw [hqueue]
    exact he.waiting
  unstarted := by
    rw [hqueue]
    exact he.unstarted
  noData p hp hp' hc := by
    rw [hqueue] at hc
    rw [hdata p hp hp']
    exact he.noData p hp hp' hc
  count := by
    rw [hcount, he.count]
    unfold openStores
    rw [hqueue]

section

variable (hu : StoreSide u u')
include hu

theorem StoreSide.packets (h : History) (hs : (u.insts s).isLoad = false) :
    packets cfg u' h s = LsqUnit.packets cfg u h s :=
  packets_congr rfl (by rw [hu.stores s hs]) (by rw [hu.frame])

theorem StoreSide.order (ho : ProgramOrder u h f) : ProgramOrder u' h f :=
  ho.congr (by rw [hu.frame]) hu.isLoad (fun s hs => by rw [hu.stores s (ho.isStore s hs)])

theorem StoreSide.entries (hw : StoreWindow cfg u h.lastSeqNum f)
    (he : Entries cfg u h f) : Entries cfg u' h f :=
  he.congr (by rw [hu.frame]) (by rw [hu.frame])
    (fun p hp hp' => by rw [hu.stores _ (hw.isStore p (hw.head_le.trans hp) hp')])

theorem StoreSide.service (ho : ProgramOrder u h f)
    (hs : Service cfg u h f part) : Service cfg u' h f part :=
  hs.congr ho rfl rfl (fun _ _ _ => rfl) (by rw [hu.frame]) (by rw [hu.frame]) rfl
    (fun _ _ => by rw [hu.frame]) (fun _ _ _ => by rw [hu.frame])
    (fun s hs => by rw [hu.stores s (ho.isStore s (ho.mem_of_advanced hs))]) (fun _ _ => rfl)

end

variable {last : Nat}

theorem StoreSide.inHand (hu : StoreSide u u')
    (hw : StoreWindow cfg u last f) (hh : InHand cfg u h f part) : InHand cfg u' h f part :=
  hh.congr rfl (by rw [hu.frame]; rfl) (by rw [hu.frame]) (by rw [hu.frame]) rfl
    (fun hstart => by rwa [hu.frame])
    (fun hlt hc => ⟨hlt, rfl, by rwa [hu.frame], hu.packets h (hw.isStore _ hw.head_le hlt)⟩)

theorem StoreSide.written (hu : StoreSide u u') (hw : StoreWindow cfg u h.lastSeqNum f)
    (hs : Written cfg u h f) : Written cfg u' h f where
  fresh := hs.fresh
  blank := by
    rw [hu.frame]
    exact hs.blank
  filled p hp hp' req data hreq := by
    rw [hu.stores _ (hw.isStore p (hw.head_le.trans hp) hp'), hu.frame]
    exact hs.filled p hp hp' req data hreq

/-- The loads that the queue holds may change, and the last number. -/
theorem StoreSide.core (hu : StoreSide u u') (hc : Core cfg u h f part)
    {last head tail : Nat} (hle : h.lastSeqNum ≤ last) (hloads : LoadWindow cfg u' last
      { f with loadHead := head, loadTail := tail, loadAt := loadAt }) :
    Core cfg u' { h with lastSeqNum := last }
      { f with loadHead := head, loadTail := tail, loadAt := loadAt } part := by
  have hs := hu.storeWindow hc.stores
  have hw := hu.written hc.stores hc.written
  have ho := hu.order hc.order
  refine ⟨⟨hloads, { hs with known := fun p h1 h2 => (hs.known p h1 h2).trans hle },
    { hw with fresh := fun s hs => hw.fresh s (hle.trans_lt hs) },
    { ho with
      fresh := fun s hs => ho.fresh s (hle.trans_lt hs)
      known := fun s hs => (ho.known s hs).trans hle },
    { hu.entries hc.stores hc.entries with }, ?_⟩, ?_, ?_⟩
  · exact { hu.service hc.order hc.service with }
  · exact (hu.inHand hc.stores hc.inHand).congr rfl rfl rfl rfl rfl (fun hstart => hstart)
      (fun hlt hcan => ⟨hlt, rfl, hcan, rfl⟩)
  · intro hlt
    rw [hu.frame]
    exact hc.freed hlt

/-- Whatever happens to loads only, the invariant holds. -/
theorem LoadOnly.inv (hu : LoadOnly u u') (hi : Inv cfg u h f part) : Inv cfg u' h f part :=
  ⟨hu.core hi.toCore (le_rfl) (hu.loadWindow hi.loads), hi.indices.congr (le_rfl) hu.same⟩

theorem ViolatorLive.same (hv : ViolatorLive u last)
    (hsame : ∀ s, DynInst.Same (u.insts s) (u'.insts s))
    (hviolator : u'.memDepViolator = u.memDepViolator) (hby : u'.violatedBy = u.violatedBy) :
    ViolatorLive u' last := by
  intro v hset
  rw [hviolator] at hset
  obtain ⟨hload, hlive, hlt, hle⟩ := hv v hset
  exact ⟨(hsame v).isLoad.trans hload, (hsame v).squashed.trans hlive, by rwa [hby], hle⟩

theorem ViolatorLive.keep (hv : ViolatorLive u last) (hu : LoadOnly u u')
    (hkeep : u'.memDepViolator = u.memDepViolator ∧ u'.violatedBy = u.violatedBy) :
    ViolatorLive u' last :=
  hv.same hu.same hkeep.1 hkeep.2

theorem ViolatorLive.checked {last seqNum q : Nat} (hv : ViolatorLive u last)
    (hw : LoadWindow cfg u last f) (hc : Checked u u' f seqNum q) (hhead : f.loadHead ≤ q)
    (hlt : ∀ q', q ≤ q' → q' < f.loadTail → seqNum < f.loadAt q') : ViolatorLive u' last := by
  rcases hc.violator with hkeep | ⟨q', hle, hlt', hset, hby⟩
  · exact hv.keep hc.only hkeep
  intro v hset'
  rw [hset] at hset'
  cases hset'
  have hq := hhead.trans hle
  exact ⟨(hc.only.same _).isLoad.trans (hw.isLoad q' hq hlt'),
    (hc.only.same _).squashed.trans (hw.live q' hq hlt'), by rw [hby]; exact hlt q' hle hlt',
    hw.known q' hq hlt'⟩

end Gem5.O3.LsqUnit
