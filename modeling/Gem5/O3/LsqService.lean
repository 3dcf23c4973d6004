import Gem5.O3.LsqSquash

namespace Gem5.O3.LsqUnit

open Lib List Function SQEntry Nat

variable {cfg : LsqConfig} {u u' : LsqUnit} {h : History} {f : Layout} {part : List StorePacket}

/-! The steps of a store on its way to the cache, apart from the flags of the store in hand. -/

/-- Only the ports, the stalls and the packets in hand change. -/
def Inert (u u' : LsqUnit) : Prop :=
  u' = { u with
    usedPorts := u'.usedPorts
    stalled := u'.stalled
    stallingStoreIsn := u'.stallingStoreIsn
    isStoreBlocked := u'.isStoreBlocked
    retryPkt := u'.retryPkt
    hasPendingPkt := u'.hasPendingPkt
    pendingPkt := u'.pendingPkt }

theorem Aside.inert (ha : Aside cfg u h f part) (hu : Inert u u') : Aside cfg u' h f part := by
  rw [hu]
  exact ⟨⟨{ ha.loads with }, { ha.stores with }, { ha.written with }, { ha.order with },
    { ha.entries with }, { ha.service with }⟩, { ha.indices with }⟩

/-- The store at `storeWBIdx` is committed. -/
abbrev launchWB (u : LsqUnit) (f : Layout) (req : Request) (split : Bool) : LsqUnit :=
  u.launch (f.storeAt f.storeWB) (u.storeQueue u.storeWBIdx) req split

theorem Aside.launch (ha : Aside cfg u h f part) (hlt : f.storeWB < f.storeTail) (req : Request)
    (split : Bool) : Aside cfg (u.launchWB f req split) h f part := by
  have hhead := ha.stores.head_le
  have hset : EntrySet cfg u (u.launchWB f req split) f f.storeWB
      { u.storeQueue (f.storeWB % cfg.sqEntries) with committed := true } :=
    ⟨hhead, hlt, ha.stores.room, by rw [← ha.stores.wb]; rfl⟩
  have hkeep : ∀ s, s ≠ f.storeAt f.storeWB → (u.launchWB f req split).insts s = u.insts s :=
    fun s hne => update_of_ne hne _ _
  have hinst : ∀ s, ∃ d, (u.launchWB f req split).insts s = { u.insts s with memData := d } := by
    intro s
    obtain rfl | hs := eq_or_ne s (f.storeAt f.storeWB)
    · exact ⟨_, update_self _ _ _⟩
    · exact ⟨(u.insts s).memData, hkeep s hs⟩
  have hsame : ∀ s, DynInst.Same (u.insts s) ((u.launchWB f req split).insts s) := by
    intro s
    obtain ⟨d, hd⟩ := hinst s
    rw [hd]
    exact ⟨rfl, rfl, rfl, rfl, rfl, rfl⟩
  refine ⟨⟨ha.loads.congr le_rfl (fun _ _ _ => hsame _) rfl rfl rfl rfl,
    ha.stores.congr rfl rfl rfl rfl (hset.keeps inst rfl) (fun _ _ _ => hsame _),
    ⟨ha.written.fresh, fun p h1 h2 hreq => ?_, fun p h1 h2 r data hreq => ?_⟩,
    ha.order.congr rfl (fun s => (hsame s).isLoad) (fun s _ => (hsame s).squashed),
    ⟨fun p h1 h2 => (hset.keeps canWB rfl _).trans (ha.entries.canWB p h1 h2),
      fun p h1 h2 hc => ha.entries.bound p h1 h2 ((hset.keeps canWB rfl _).symm.trans hc),
      fun p h1 h2 => (hset.keeps completed rfl _).trans (ha.entries.waiting p h1 h2),
      fun p h1 h2 => ?_, fun p h1 h2 hc => ?_, ?_⟩,
    ha.service.congr ha.order rfl rfl (fun _ _ _ => rfl) rfl rfl rfl
      (fun s hs => update_of_ne (ha.order.lt_of_advanced hs le_rfl hlt).ne _ _)
      (fun p _ _ => hset.keeps completed rfl _) (fun s _ => (hsame s).isDataPrefetch)
      (fun _ _ => rfl)⟩, ha.indices.congr le_rfl hsame⟩
  · rw [hset.keeps size rfl, hset.keeps isSplit rfl]
    exact ha.written.blank p h1 h2 hreq
  · obtain ⟨d, hd⟩ := hinst (f.storeAt p)
    rw [hd]
    refine hset.rel (P := fun a b => Filled cfg a _ r data → Filled cfg b _ r data) (fun _ hf => hf)
      (fun hf => { hf with }) _ { ha.written.filled p h1 h2 r data hreq with }
  · rw [hset.other (hhead.trans h1.le) h2 h1.ne']
    exact ha.entries.unstarted p h1 h2
  · obtain rfl | heq := eq_or_ne p f.storeWB
    · rw [hset.self] at hc
      cases hc
    · rw [hset.other (hhead.trans h1) h2 heq] at hc
      rw [hkeep _ (ha.stores.storeAt_ne hhead hlt (hhead.trans h1) h2 heq)]
      exact ha.entries.noData p h1 h2 hc
  · rw [hset.card_openStores, add_sub_cancel_right]
    exact ha.entries.count

theorem Service.idle (hs : Service cfg u h f part) (htso : cfg.needsTSO = true)
    (hflight : u.storeInFlight = false) (hp : f.storeHead ≤ p) (hp' : p < f.storeWB)
    (hc : (u.storeQueue (p % cfg.sqEntries)).completed = false) :
    (u.insts (f.storeAt p)).isDataPrefetch = true := by
  by_contra hno
  have hno : (u.insts (f.storeAt p)).isDataPrefetch = false := by simpa using hno
  have hin := (hs.single htso p p hp hp' hp hp' hc hc hno hno).2
  rw [hflight] at hin
  cases hin

theorem Aside.accept (ha : Aside cfg u h f part) (pkt : StorePacket)
    (hflight : cfg.needsTSO = true → u.storeInFlight = false) :
    Aside cfg { u with log := u.log ++ [.accepted pkt] } h f (part ++ [pkt]) := by
  have hadv : advanced (u.log ++ [.accepted pkt]) = advanced u.log := by
    rw [advanced_append]
    exact append_nil _
  have hmem : ∀ e, (∀ pkt, e ≠ StoreEvent.accepted pkt) →
      (e ∈ u.log ++ [StoreEvent.accepted pkt] ↔ e ∈ u.log) := by
    intro e hne
    rw [mem_append, mem_singleton]
    exact or_iff_left (hne pkt)
  have hpk : ∀ s, packets cfg { u with log := u.log ++ [.accepted pkt] } h s = packets cfg u h s :=
    fun s => packets_congr rfl rfl (hmem _ nofun)
  have hs := ha.service
  refine ⟨⟨{ ha.loads with }, { ha.stores with }, { ha.written with },
    ha.order.congr hadv (fun _ => rfl) (fun _ _ => rfl), { ha.entries with },
    ⟨fun p h1 h2 hc => ?_, fun s hfin => ?_, ?_, fun pk hresp => ?_, fun s hc pk hpkt => ?_,
      fun s hadv' => ?_, hs.single, hs.inFlight, fun htso => ?_⟩⟩, { ha.indices with }⟩
  · rw [hpk]
    exact (hs.served p h1 h2 hc).imp_right (fun hx => ⟨hx.1.congr rfl rfl (hpk _), hx.2⟩)
  · rw [hmem (.failed s) nofun, hmem (.completed s) nofun] at hfin
    rw [hadv]
    exact hs.finished s hfin
  · rw [accepted_append, hadv, hs.accepted, append_assoc, flatMap_congr (fun s _ => hpk s)]
    rfl
  · rw [accepted_append]
    exact mem_append_left _ (hs.responded pk hresp)
  · rw [hmem (.completed s) nofun] at hc
    rw [hpk] at hpkt
    exact hs.answered s hc pk hpkt
  · rw [hadv] at hadv'
    rw [hmem (.completed s) nofun]
    exact hs.done s hadv'
  · refine (hs.tso htso).snoc (fun _ _ s hs' => ?_)
    -- what has not completed is a prefetch
    rcases hs.done s hs' with hc | ⟨p, h1, h2, rfl, h4⟩
    · exact .inr hc
    · exact .inl (hs.idle htso (hflight htso) h1 h2 h4)

theorem TsoOrdered.append {prefetch : Nat → Bool} {log : List StoreEvent}
    (ht : TsoOrdered prefetch log) (evs : List StoreEvent)
    (hevs : ∀ e ∈ evs, ∀ pkt, e ≠ StoreEvent.accepted pkt) : TsoOrdered prefetch (log ++ evs) := by
  induction evs generalizing log with
  | nil => rwa [append_nil]
  | cons e evs ih =>
    rw [append_cons]
    refine ih (ht.snoc (fun pkt heq => ?_)) (fun e' he' => hevs e' (.tail _ he'))
    exact absurd heq (hevs e mem_cons_self pkt)

/-- `storeWBIdx` moves past the store in hand, which completes on the spot if `done`. -/
def passWB (cfg : LsqConfig) (u : LsqUnit) (f : Layout) (done : Bool) (pre : List StoreEvent)
    (storeInFlight : Bool) : LsqUnit :=
  { u with
    storeWBIdx := Ring.next cfg.sqEntries u.storeWBIdx
    storeQueue := update u.storeQueue (f.storeWB % cfg.sqEntries)
      { u.storeQueue (f.storeWB % cfg.sqEntries) with completed := done }
    storesToWB := if done then u.storesToWB - 1 else u.storesToWB
    storeInFlight
    log := u.log ++ pre ++ [.advanced (f.storeAt f.storeWB)] }

/-- The events of a store that is passed: a store conditional may fail, and what needs no answer
completes. -/
structure Ending (st : Nat) (done : Bool) (pre : List StoreEvent) : Prop where
  events : ∀ e ∈ pre, e = .failed st ∨ e = .completed st
  completes : done = true ↔ StoreEvent.completed st ∈ pre

section

variable {done flight : Bool} {pre : List StoreEvent}
  (he : Ending (f.storeAt f.storeWB) done pre)
include he

theorem advanced_pass :
    advanced (passWB cfg u f done pre flight).log = advanced u.log ++ [f.storeAt f.storeWB] := by
  have hnil : advanced pre = [] := by
    refine filterMap_eq_nil_iff.mpr (fun e hmem => ?_)
    rcases he.events e hmem with rfl | rfl <;> rfl
  change advanced (u.log ++ pre ++ [.advanced (f.storeAt f.storeWB)]) = _
  rw [advanced_append, advanced_append, hnil, append_nil]
  rfl

theorem accepted_pass : accepted (passWB cfg u f done pre flight).log = accepted u.log := by
  have hnil : accepted pre = [] := by
    refine filterMap_eq_nil_iff.mpr (fun e hmem => ?_)
    rcases he.events e hmem with rfl | rfl <;> rfl
  change accepted (u.log ++ pre ++ [.advanced (f.storeAt f.storeWB)]) = _
  rw [accepted_append, accepted_append, hnil, append_nil]
  exact append_nil _

omit he in
theorem mem_log_pass (e : StoreEvent) (hne : ∀ s, e ≠ .advanced s) :
    e ∈ (passWB cfg u f done pre flight).log ↔ e ∈ u.log ∨ e ∈ pre := by
  change e ∈ u.log ++ pre ++ [.advanced (f.storeAt f.storeWB)] ↔ _
  rw [mem_append, mem_append, mem_singleton]
  exact or_iff_left (hne _)

theorem packets_pass (h : History) (hs : s ≠ f.storeAt f.storeWB) :
    packets cfg (passWB cfg u f done pre flight) h s = packets cfg u h s := by
  refine packets_congr rfl rfl ((mem_log_pass (.failed s) nofun).trans (or_iff_left ?_))
  intro hmem
  rcases he.events _ hmem with heq | heq
  · exact hs (StoreEvent.failed.inj heq)
  · cases heq

omit he in
theorem entrySet_pass {last : Nat} (done : Bool) (pre : List StoreEvent) (flight : Bool)
    (hw : StoreWindow cfg u last f) (hlt : f.storeWB < f.storeTail) :
    EntrySet cfg u (passWB cfg u f done pre flight) f f.storeWB
      { u.storeQueue (f.storeWB % cfg.sqEntries) with completed := done } :=
  ⟨hw.head_le, hlt, hw.room, rfl⟩

omit he in
theorem later_pass {last : Nat} (hw : StoreWindow cfg u last f) (hp : f.storeWB + 1 ≤ p)
    (hp' : p < f.storeTail) : (passWB cfg u f done pre flight).storeQueue (p % cfg.sqEntries) =
      u.storeQueue (p % cfg.sqEntries) :=
  (entrySet_pass done pre flight hw ((lt_of_succ_le hp).trans hp')).other
    (hw.head_le.trans (le_of_succ_le hp)) hp' (ne_of_gt hp)

omit he in
theorem StoreWindow.pass {last : Nat} (hw : StoreWindow cfg u last f)
    (hlt : f.storeWB < f.storeTail) :
    StoreWindow cfg (passWB cfg u f done pre flight) last { f with storeWB := f.storeWB + 1 } :=
  { hw with
    wb := (congrArg _ hw.wb).trans (Ring.next_mod (sqEntries_pos cfg) _)
    head_le := hw.head_le.trans (le_succ _)
    wb_le := hlt
    cell := fun p hp hp' =>
      ((entrySet_pass done pre flight hw hlt).keeps inst rfl _).trans (hw.cell p hp hp') }

omit he in
theorem Written.pass (hs : Written cfg u h f) (hw : StoreWindow cfg u h.lastSeqNum f) :
    Written cfg (passWB cfg u f done pre flight) h { f with storeWB := f.storeWB + 1 } where
  fresh := hs.fresh
  blank p hp hp' := by
    rw [later_pass hw hp hp']
    exact hs.blank p (le_of_succ_le hp) hp'
  filled p hp hp' := by
    rw [later_pass hw hp hp']
    exact hs.filled p (le_of_succ_le hp) hp'

theorem ProgramOrder.pass (ho : ProgramOrder u h f)
    (hlt : f.storeWB < f.storeTail) (hle : f.storeAt f.storeWB ≤ h.committedNum) :
    ProgramOrder (passWB cfg u f done pre flight) h { f with storeWB := f.storeWB + 1 } where
  __ := ho
  program := by
    rw [advanced_pass he, ho.program, liveStores_cons hlt, append_assoc]
    rfl
  passed s hs := by
    rw [advanced_pass he] at hs
    rcases mem_append.mp hs with hs | hs
    · exact ho.passed s hs
    · rw [mem_singleton.mp hs]
      exact hle
  sent p hp hp' := by
    rw [advanced_pass he]
    rcases Nat.lt_succ_iff_lt_or_eq.mp hp' with hlt' | rfl
    · exact mem_append_left _ (ho.sent p hp hlt')
    · exact mem_append_right _ (mem_singleton_self _)

omit he in
theorem Entries.pass (he : Entries cfg u h f) (hw : StoreWindow cfg u h.lastSeqNum f)
    (hlt : f.storeWB < f.storeTail)
    (hcan : (u.storeQueue (f.storeWB % cfg.sqEntries)).canWB = true) :
    Entries cfg (passWB cfg u f done pre flight) h { f with storeWB := f.storeWB + 1 } where
  canWB p hp hp' := by
    rw [(entrySet_pass done pre flight hw hlt).keeps SQEntry.canWB rfl]
    rcases Nat.lt_succ_iff_lt_or_eq.mp hp' with hlt' | rfl
    · exact he.canWB p hp hlt'
    · exact hcan
  bound p hp hp' hc :=
    he.bound p hp hp'
      (((entrySet_pass done pre flight hw hlt).keeps SQEntry.canWB rfl _).symm.trans hc)
  waiting p hp hp' := by
    rw [later_pass hw hp hp']
    exact he.waiting p (le_of_succ_le hp) hp'
  unstarted p hp hp' := ((entrySet_pass done pre flight hw hlt).keeps committed rfl _).trans
    (he.unstarted p ((lt_add_one _).trans hp) hp')
  noData p hp hp' hc := he.noData p (le_of_succ_le hp) hp'
    (((entrySet_pass done pre flight hw hlt).keeps committed rfl _).symm.trans hc)
  count := by
    have hc := he.waiting _ le_rfl hlt
    have hcard := (entrySet_pass done pre flight hw hlt).card_openStores
    rw [← he.count] at hcard
    refine Eq.trans ?_ hcard.symm
    cases done <;> simp [passWB, hcan, hc]

/-- Passing the store in hand, which completes, is a prefetch, or waits for answers. -/
theorem Service.pass (hs : Service cfg u h f part) (hw : StoreWindow cfg u h.lastSeqNum f)
    (ho : ProgramOrder u h f) (hlt : f.storeWB < f.storeTail)
    (hpart : packets cfg (passWB cfg u f done pre flight) h (f.storeAt f.storeWB) = part)
    (hnone : done = true → part = [])
    (hserved : done = false → ((u.insts (f.storeAt f.storeWB)).isDataPrefetch = true ∧
        HasData h (f.storeAt f.storeWB)) ∨
      (Served cfg (passWB cfg u f done pre flight) h (f.storeAt f.storeWB) f.storeWB ∧
        ∃ pkt ∈ part, pkt ∉ h.responded))
    (hflight : cfg.needsTSO = true → u.storeInFlight = false)
    (hnext : cfg.needsTSO = true →
      flight = (!done && !(u.insts (f.storeAt f.storeWB)).isDataPrefetch)) :
    Service cfg (passWB cfg u f done pre flight) h { f with storeWB := f.storeWB + 1 } [] := by
  have hset : EntrySet cfg u (passWB cfg u f done pre flight) f f.storeWB _ :=
    entrySet_pass done pre flight hw hlt
  have hpk : ∀ s ∈ advanced u.log,
      packets cfg (passWB cfg u f done pre flight) h s = packets cfg u h s :=
    fun s hs => packets_pass he h (ho.lt_of_advanced hs le_rfl hlt).ne
  have hold : ∀ p, f.storeHead ≤ p → p < f.storeWB →
      (passWB cfg u f done pre flight).storeQueue (p % cfg.sqEntries) =
        u.storeQueue (p % cfg.sqEntries) :=
    fun p h1 h2 => hset.other h1 (h2.trans hlt) h2.ne
  have hdone : ((passWB cfg u f done pre flight).storeQueue
      (f.storeWB % cfg.sqEntries)).completed = done := by rw [hset.self]
  have hst : ∀ e ∈ pre, ∀ s, e = StoreEvent.failed s ∨ e = .completed s →
      s = f.storeAt f.storeWB := by
    intro e hmem s heq
    rcases he.events e hmem with rfl | rfl <;> rcases heq with heq | heq <;> cases heq <;> rfl
  -- under TSO, what was passed before is a prefetch or has completed
  have halone : cfg.needsTSO = true → ∀ p, f.storeHead ≤ p → p < f.storeWB + 1 →
      ((passWB cfg u f done pre flight).storeQueue (p % cfg.sqEntries)).completed = false →
      (u.insts (f.storeAt p)).isDataPrefetch = false → p = f.storeWB := by
    intro ht p h1 h2 hc hpre
    rcases Nat.lt_succ_iff_lt_or_eq.mp h2 with h2 | h2
    · rw [hold p h1 h2] at hc
      rw [hs.idle ht (hflight ht) h1 h2 hc] at hpre
      cases hpre
    · exact h2
  refine ⟨fun p h1 h2 hc => ?_, fun s hfin => ?_, ?_, ?_, fun s hc pkt hpkt => ?_, fun s hmem => ?_,
    fun ht p p' h1 h2 h3 h4 hc hc' hpre hpre' => ?_, fun ht hfl => ?_, fun ht => ?_⟩
  · rcases Nat.lt_succ_iff_lt_or_eq.mp h2 with h2 | rfl
    · have hadv := ho.sent p h1 h2
      rw [hold p h1 h2] at hc
      rw [hpk _ hadv]
      exact (hs.served p h1 h2 hc).imp_right (fun hx => ⟨hx.1.congr rfl rfl (hpk _ hadv), hx.2⟩)
    · rw [hdone] at hc
      rw [hpart]
      exact hserved hc
  · rw [mem_log_pass (.failed s) nofun, mem_log_pass (.completed s) nofun] at hfin
    rw [advanced_pass he, mem_append, mem_singleton]
    rcases hfin with (hf | hf) | (hf | hf)
    · exact .inl (hs.finished s (.inl hf))
    · exact .inr (hst _ hf s (.inl rfl))
    · exact .inl (hs.finished s (.inr hf))
    · exact .inr (hst _ hf s (.inr rfl))
  · rw [accepted_pass he, advanced_pass he, hs.accepted, append_nil, flatMap_append,
      flatMap_congr hpk]
    simp [hpart]
  · rw [accepted_pass he]
    exact hs.responded
  · rw [mem_log_pass (.completed s) nofun] at hc
    rcases hc with hc | hc
    · rw [hpk s (hs.finished s (.inr hc))] at hpkt
      exact hs.answered s hc pkt hpkt
    · obtain rfl := hst _ hc s (.inr rfl)
      rw [hpart, hnone (he.completes.mpr hc)] at hpkt
      cases hpkt
  · rw [advanced_pass he] at hmem
    rw [mem_log_pass (.completed s) nofun]
    rcases mem_append.mp hmem with hmem | hmem
    · rcases hs.done s hmem with hc | ⟨p, h1, h2, h3, h4⟩
      · exact .inl (.inl hc)
      · exact .inr ⟨p, h1, lt_succ_of_lt h2, h3, by rwa [hold p h1 h2]⟩
    · rw [mem_singleton.mp hmem]
      cases hd : done with
      | true => exact .inl (.inr (he.completes.mp hd))
      | false => exact .inr ⟨f.storeWB, hw.head_le, lt_add_one _, rfl, hd ▸ hdone⟩
  · obtain rfl := halone ht p h1 h2 hc hpre
    rw [hdone] at hc
    refine ⟨(halone ht p' h3 h4 hc' hpre').symm, (hnext ht).trans ?_⟩
    rw [hc, show (u.insts (f.storeAt f.storeWB)).isDataPrefetch = false from hpre]
    rfl
  · rw [show flight = true from hfl] at hnext
    have hboth := (hnext ht).symm
    rw [Bool.and_eq_true, Bool.not_eq_true', Bool.not_eq_true'] at hboth
    exact ⟨f.storeWB, hw.head_le, lt_add_one _, hdone.trans hboth.1, hboth.2⟩
  · change TsoOrdered _ (u.log ++ pre ++ [.advanced (f.storeAt f.storeWB)])
    rw [append_assoc]
    refine (hs.tso ht).append _ (fun e hmem pkt heq => ?_)
    rw [heq] at hmem
    rcases mem_append.mp hmem with hmem | hmem
    · rcases he.events _ hmem with heq | heq <;> cases heq
    · cases mem_singleton.mp hmem

/-- Passing the store in hand keeps the invariant, and the next store has not been started. -/
theorem Aside.pass (ha : Aside cfg u h f part) (hlt : f.storeWB < f.storeTail)
    (hcan : (u.storeQueue (f.storeWB % cfg.sqEntries)).canWB = true)
    (hs : Service cfg (passWB cfg u f done pre flight) h { f with storeWB := f.storeWB + 1 } []) :
    Aside cfg (passWB cfg u f done pre flight) h { f with storeWB := f.storeWB + 1 } [] ∧
      (f.storeWB + 1 < f.storeTail → ((passWB cfg u f done pre flight).storeQueue
        ((f.storeWB + 1) % cfg.sqEntries)).committed = false) :=
  ⟨⟨⟨{ ha.loads with }, ha.stores.pass hlt, ha.written.pass ha.stores,
    ha.order.pass he hlt (ha.entries.bound _ ha.stores.head_le hlt hcan),
    ha.entries.pass ha.stores hlt hcan, hs⟩, { ha.indices with }⟩, fun hnext =>
    ((entrySet_pass done pre flight ha.stores hlt).keeps committed rfl _).trans
      (ha.entries.unstarted _ (lt_add_one _) hnext)⟩

end

/-! Answers of the cache. -/

theorem Served.other (hs : Served cfg u h s p)
    (hne : s ≠ pkt.inst) (hsenders : u'.senders s = u.senders s)
    (hpackets : packets cfg u' h' s = packets cfg u h s)
    (hresponded : h'.responded = pkt :: h.responded) : Served cfg u' h' s p := by
  unfold Served unanswered
  rw [hsenders, hpackets, hresponded]
  refine ⟨hs.1, fun huna => (hs.2 huna).trans (congrArg List.length ?_)⟩
  refine filter_congr (fun pk hpk => ?_)
  have hpne : pk ≠ pkt := fun heq => hne (by rw [← heq, inst_of_mem_packets hpk])
  simp [hpne]

/-- An answer to another store leaves the packets of this one unanswered. -/
theorem unanswered_other (hmem : pk ∈ packets cfg u h s) (hnot : pk ∉ h.responded)
    (hne : s ≠ pkt.inst) : pk ∉ pkt :: h.responded := by
  intro hin
  rcases mem_cons.mp hin with rfl | hin
  · exact hne (inst_of_mem_packets hmem).symm
  · exact hnot hin

theorem Aside.respond (ha : Aside cfg u h f part) (hacc : pkt ∈ accepted u.log)
    (hidx : s'.idx = (u.senders pkt.inst).idx)
    (hout : cfg.hasUnalignedMemAcc = true → s'.outstanding =
      unanswered cfg u { h with responded := pkt :: h.responded } pkt.inst)
    (hmore : ∃ pk ∈ packets cfg u h pkt.inst, pk ∉ pkt :: h.responded) :
    Aside cfg (u.setSender pkt.inst s') { h with responded := pkt :: h.responded } f part := by
  have hs := ha.service
  refine ⟨⟨{ ha.loads with }, { ha.stores with }, { ha.written with }, { ha.order with },
    { ha.entries with },
    { hs with
      served := fun p h1 h2 hc => ?_
      responded := fun pk hresp => ?_
      answered := fun s hc pk hpkt => .tail _ (hs.answered s hc pk hpkt) }⟩, { ha.indices with }⟩
  · refine (hs.served p h1 h2 hc).imp_right (fun ⟨hserved, pk, hmem, hnot⟩ => ?_)
    by_cases heq : f.storeAt p = pkt.inst
    · rw [heq]
      refine ⟨?_, hmore⟩
      unfold Served
      rw [show (u.setSender pkt.inst s').senders pkt.inst = s' from update_self _ _ _, hidx, ← heq]
      exact ⟨hserved.1, heq ▸ hout⟩
    · exact ⟨hserved.other heq (update_of_ne heq _ _) rfl rfl, pk, hmem,
        unanswered_other hmem hnot heq⟩
  · rcases mem_cons.mp hresp with rfl | hresp
    · exact hacc
    · exact hs.responded pk hresp

/-- The store at `p` completes. -/
def completeAt (cfg : LsqConfig) (u : LsqUnit) (p st : Nat) : LsqUnit :=
  { u with
    storeQueue := update u.storeQueue (p % cfg.sqEntries)
      { u.storeQueue (p % cfg.sqEntries) with completed := true }
    storesToWB := u.storesToWB - 1
    storeInFlight := if cfg.needsTSO then false else u.storeInFlight
    log := u.log ++ [.completed st] }

theorem Aside.complete (ha : Aside cfg u h f part) (s' : SenderState)
    (hp : f.storeHead ≤ p) (hp' : p < f.storeWB) (hat : f.storeAt p = pkt.inst)
    (hc : (u.storeQueue (p % cfg.sqEntries)).completed = false)
    (hprefetch : (u.insts pkt.inst).isDataPrefetch = false) (hacc : pkt ∈ accepted u.log)
    (hall : ∀ pk ∈ packets cfg u h pkt.inst, pk ∈ pkt :: h.responded) :
    Aside cfg (completeAt cfg (u.setSender pkt.inst s') p pkt.inst)
      { h with responded := pkt :: h.responded } f part := by
  have hw := ha.stores
  have hwb := hw.head_le
  have hlt : p < f.storeTail := hp'.trans_le hw.wb_le
  have hs := ha.service
  have hset : EntrySet cfg u (completeAt cfg (u.setSender pkt.inst s') p pkt.inst) f p
      { u.storeQueue (p % cfg.sqEntries) with completed := true } := ⟨hp, hlt, hw.room, rfl⟩
  have hadv : advanced (u.log ++ [.completed pkt.inst]) = advanced u.log := by
    rw [advanced_append]
    exact append_nil _
  have ho : ProgramOrder (completeAt cfg (u.setSender pkt.inst s') p pkt.inst) h f :=
    ha.order.congr hadv (fun _ => rfl) (fun _ _ => rfl)
  have haccepted : accepted (u.log ++ [.completed pkt.inst]) = accepted u.log := by
    rw [accepted_append]
    exact append_nil _
  have hmem : ∀ e, e ∈ u.log ++ [.completed pkt.inst] ↔ e ∈ u.log ∨ e = .completed pkt.inst := by
    intro e
    rw [mem_append, mem_singleton]
  have hpk : ∀ s, packets cfg (completeAt cfg (u.setSender pkt.inst s') p pkt.inst)
      { h with responded := pkt :: h.responded } s = packets cfg u h s :=
    fun s => packets_congr rfl rfl ((hmem _).trans (or_iff_left nofun))
  -- what is open is another store, and as before
  have hopen : ∀ p₁, f.storeHead ≤ p₁ → p₁ < f.storeWB →
      (update u.storeQueue (p % cfg.sqEntries) { u.storeQueue (p % cfg.sqEntries) with
        completed := true } (p₁ % cfg.sqEntries)).completed = false →
      p₁ ≠ p ∧ (u.storeQueue (p₁ % cfg.sqEntries)).completed = false := by
    intro p₁ h1 h2 hc₁
    obtain rfl | hne := eq_or_ne p₁ p
    · rw [update_self] at hc₁
      cases hc₁
    · exact ⟨hne, (congrArg completed (hset.other h1 (h2.trans_le hw.wb_le) hne)).symm.trans hc₁⟩
  refine ⟨⟨{ ha.loads with },
    hw.congr rfl rfl rfl rfl (hset.keeps inst rfl) (fun _ _ _ => .refl _),
    ⟨ha.written.fresh, fun p₁ h1 h2 => ?_, fun p₁ h1 h2 => ?_⟩,
    { ho with },
    ⟨fun p₁ h1 h2 => (hset.keeps canWB rfl _).trans (ha.entries.canWB p₁ h1 h2),
      fun p₁ h1 h2 hc₁ => ha.entries.bound p₁ h1 h2 ((hset.keeps canWB rfl _).symm.trans hc₁),
      fun p₁ h1 h2 => ?_,
      fun p₁ h1 h2 => (hset.keeps committed rfl _).trans (ha.entries.unstarted p₁ h1 h2),
      fun p₁ h1 h2 hc₁ => ha.entries.noData p₁ h1 h2 ((hset.keeps committed rfl _).symm.trans hc₁),
      ?_⟩,
    ⟨fun p₁ h1 h2 hc₁ => ?_, fun s hfin => ?_, ?_, fun pk hresp => ?_, fun s hc₁ pk hpkt => ?_,
      fun s hadv' => ?_, fun ht p₁ p₂ h1 h2 h3 h4 hc₁ hc₂ hpre hpre' => ?_, fun ht hfl => ?_,
      fun ht => (hs.tso ht).snoc nofun⟩⟩, { ha.indices with }⟩
  · rw [hset.other (hwb.trans h1) h2 (by omega)]
    exact ha.written.blank p₁ h1 h2
  · rw [hset.other (hwb.trans h1) h2 (by omega)]
    exact ha.written.filled p₁ h1 h2
  · rw [hset.other (hwb.trans h1) h2 (by omega)]
    exact ha.entries.waiting p₁ h1 h2
  · rw [hset.card_openStores, ha.entries.canWB p hp hp', hc, ← ha.entries.count]
    simp [completeAt, setSender]
  · obtain ⟨hp₁, hc₁⟩ := hopen p₁ h1 h2 hc₁
    have hne₁ : f.storeAt p₁ ≠ pkt.inst := by
      rw [← hat]
      exact hw.storeAt_ne hp hlt h1 (h2.trans_le hw.wb_le) hp₁
    rw [hpk]
    exact (hs.served p₁ h1 h2 hc₁).imp_right (fun ⟨hserved, pk, hmem, hnot⟩ =>
      ⟨hserved.other hne₁ (update_of_ne hne₁ _ _) (hpk _) rfl, pk, hmem,
        unanswered_other hmem hnot hne₁⟩)
  · refine hadv.symm ▸ ?_
    rcases hfin with hf | hf <;> rcases (hmem _).mp hf with hf | hf
    · exact hs.finished s (.inl hf)
    · cases hf
    · exact hs.finished s (.inr hf)
    · rw [StoreEvent.completed.inj hf, ← hat]
      exact ha.order.sent p hp hp'
  · refine haccepted.trans (hs.accepted.trans ?_)
    rw [flatMap_congr (fun s _ => hpk s)]
    exact congrArg (fun l => flatMap (packets cfg u h) l ++ part) hadv.symm
  · refine haccepted.symm ▸ ?_
    rcases mem_cons.mp hresp with rfl | hresp
    · exact hacc
    · exact hs.responded pk hresp
  · rw [hpk] at hpkt
    rcases (hmem _).mp hc₁ with hc₁ | hc₁
    · exact .tail _ (hs.answered s hc₁ pk hpkt)
    · cases hc₁
      exact hall pk hpkt
  · refine Or.imp_left (hmem _).mpr ?_
    obtain rfl | heq := eq_or_ne s pkt.inst
    · exact .inl (.inr rfl)
    · rcases hs.done s (hadv ▸ hadv') with hc₁ | ⟨p₁, h1, h2, h3, h4⟩
      · exact .inl (.inl hc₁)
      · have hp₁ : p₁ ≠ p := fun hp₁ => heq (by rw [← h3, hp₁, hat])
        exact .inr ⟨p₁, h1, h2, h3, by rwa [hset.other h1 (h2.trans_le hw.wb_le) hp₁]⟩
  · -- another store in flight would be this one
    obtain ⟨hp₁, hc₁⟩ := hopen p₁ h1 h2 hc₁
    exact absurd (hs.single ht p₁ p h1 h2 hp hp' hc₁ hc hpre (by rw [hat]; exact hprefetch)).1 hp₁
  · change (if cfg.needsTSO then false else u.storeInFlight) = true at hfl
    rw [if_pos ht] at hfl
    cases hfl

theorem Aside.pop (ha : Aside cfg u h f part) (hle : f.storeHead ≤ c) (hc : c ≤ f.storeWB)
    (hdone : ∀ p, f.storeHead ≤ p → p < c → (u.storeQueue (p % cfg.sqEntries)).completed = true) :
    Aside cfg { u with storeHead := c % cfg.sqEntries, stores := (f.storeTail : Int) - c } h
      { f with storeHead := c } part := by
  have hw := ha.stores
  have he := ha.entries
  have hs := ha.service
  have hroom := hw.room
  have hfree : ∀ p, f.storeHead ≤ p → (u.storeQueue (p % cfg.sqEntries)).completed = false →
      c ≤ p := by
    intro p h1 h2
    by_contra hlt
    rw [hdone p h1 (not_le.mp hlt)] at h2
    cases h2
  refine ⟨⟨{ ha.loads with }, ⟨rfl, hw.wb, hw.tail, hc, hw.wb_le, by dsimp only; omega, rfl,
      fun p h1 => hw.cell p (hle.trans h1), fun p h1 => hw.isStore p (hle.trans h1),
      fun p h1 => hw.sqIdx p (hle.trans h1), fun p h1 => hw.live p (hle.trans h1),
      fun p h1 => hw.known p (hle.trans h1), fun p p' h1 => hw.order p p' (hle.trans h1)⟩,
    { ha.written with }, { ha.order with sent := fun p h1 => ha.order.sent p (hle.trans h1) },
    { he with
      canWB := fun p h1 => he.canWB p (hle.trans h1)
      bound := fun p h1 => he.bound p (hle.trans h1)
      count := ?_ },
    { hs with
      served := fun p h1 => hs.served p (hle.trans h1)
      done := fun s hmem => (hs.done s hmem).imp_right
        (fun ⟨p, h1, h2, h3, h4⟩ => ⟨p, hfree p h1 h4, h2, h3, h4⟩)
      single := fun ht p p' h1 h2 h3 => hs.single ht p p' (hle.trans h1) h2 (hle.trans h3)
      inFlight := fun ht hfl => (hs.inFlight ht hfl).imp
        (fun p ⟨h1, h2, h3, h4⟩ => ⟨hfree p h1 h3, h2, h3, h4⟩) }⟩,
    ⟨fun q h1 h2 hlt => ?_, fun p h1 => ha.indices.store p (hle.trans h1)⟩⟩
  · refine he.count.trans (congrArg (fun s : Finset Nat => (s.card : Int)) ?_)
    ext p
    unfold openStores
    simp only [Finset.mem_filter, Finset.mem_Ico]
    exact ⟨fun ⟨⟨h1, h2⟩, h3, h4⟩ => ⟨⟨hfree p h1 h4, h2⟩, h3, h4⟩,
      fun ⟨⟨h1, h2⟩, h3⟩ => ⟨⟨hle.trans h1, h2⟩, h3⟩⟩
  · rcases ha.storesBefore h1 h2 hlt with ⟨hnone, hafter⟩ | ⟨high, hlow, hhigh, hsome, hiff⟩
    · rcases ha.indices.load q h1 h2 hlt with ⟨_, hafter'⟩ | ⟨p₀, _, _, hsome, _⟩
      · exact .inl ⟨hnone, fun p h3 => hafter' p (hle.trans h3)⟩
      · rw [hnone] at hsome
        cases hsome
    refine .inr ⟨high, hc.trans hlow, hhigh, hsome, fun p h3 h4 => ?_⟩
    by_cases hwb : f.storeWB ≤ p
    · exact hiff p hwb h4
    · -- what has been passed has committed
      have hcan := he.canWB p (hle.trans h3) (not_le.mp hwb)
      have hbound := he.bound p (hle.trans h3) h4 hcan
      exact ⟨fun _ => (not_le.mp hwb).trans_le hlow, fun _ => hbound.trans_lt hlt⟩

end Gem5.O3.LsqUnit
