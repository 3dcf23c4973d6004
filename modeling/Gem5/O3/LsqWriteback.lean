import Gem5.O3.LsqService

namespace Gem5.O3.LsqUnit

open Lib List Function

variable {cfg : LsqConfig} {u u' : LsqUnit} {h : History} {f : Layout}
  {part rest : List StorePacket} {env : WritebackEnv}

/-- What writing back leaves alone. -/
structure Kept (u u' : LsqUnit) : Prop where
  same : ∀ s, DynInst.Same (u.insts s) (u'.insts s)
  violator : u'.memDepViolator = u.memDepViolator
  violatedBy : u'.violatedBy = u.violatedBy
  log : u.log <+: u'.log

namespace Kept

theorem refl (u : LsqUnit) : Kept u u := ⟨fun _ => .refl _, rfl, rfl, prefix_rfl⟩

theorem trans (hu : Kept u u') (hu' : Kept u' u'') : Kept u u'' :=
  ⟨fun s => (hu.same s).trans (hu'.same s), hu'.violator.trans hu.violator,
    hu'.violatedBy.trans hu.violatedBy, hu.log.trans hu'.log⟩

theorem inert (hu : Inert u u') : Kept u u' := by
  rw [hu]
  exact ⟨fun _ => .refl _, rfl, rfl, prefix_rfl⟩

theorem violatorLive {last : Nat} (hu : Kept u u') (hv : ViolatorLive u last) :
    ViolatorLive u' last :=
  hv.same hu.same hu.violator hu.violatedBy

end Kept

/-! Moving past a store. -/

/-- `storeWBIdx` has moved past the store in hand. -/
structure Onward (cfg : LsqConfig) (u u' : LsqUnit) (h : History) (f : Layout) : Prop where
  kept : Kept u u'
  aside : ∃ head, Aside cfg u' h { f with storeHead := head, storeWB := f.storeWB + 1 } [] ∧
    Freed cfg u' { f with storeHead := head, storeWB := f.storeWB + 1 }
  start : f.storeWB + 1 < f.storeTail →
    (u'.storeQueue ((f.storeWB + 1) % cfg.sqEntries)).committed = false
  hand : u'.hand = u.hand
  senders : u'.senders = u.senders
  longer : u.log.length < u'.log.length

theorem Onward.inv (ho : Onward cfg u u' h f) (hfree : u.hand = .of none none) :
    ∃ head, Inv cfg u' h { f with storeHead := head, storeWB := f.storeWB + 1 } [] := by
  obtain ⟨head, ha, hfreed⟩ := ho.aside
  exact ⟨head, ha.inv (.idle (ho.hand.trans hfree) ho.start) hfreed⟩

theorem unstall_eq (seqNum : Nat) (u : LsqUnit) :
    ∃ b n, u.unstall seqNum = { u with stalled := b, stallingStoreIsn := n } := by
  unfold unstall
  split
  · exact ⟨_, _, rfl⟩
  · exact ⟨u.stalled, u.stallingStoreIsn, rfl⟩

theorem advance_eq {last : Nat} (hw : StoreWindow cfg u last f) (hlt : f.storeWB < f.storeTail)
    (hc : (u.storeQueue (f.storeWB % cfg.sqEntries)).completed = false) (flight : Bool) :
    advance cfg { u with storeInFlight := flight } = passWB cfg u f false [] flight := by
  have hself : { u.storeQueue (f.storeWB % cfg.sqEntries) with completed := false } =
      u.storeQueue (f.storeWB % cfg.sqEntries) := by rw [← hc]
  unfold advance passWB
  rw [hself, update_eq_self, hw.wb, hw.cell _ hw.head_le hlt, append_nil]
  rfl

theorem pass_kept (cfg : LsqConfig) (u : LsqUnit) (f : Layout) (done : Bool)
    (pre : List StoreEvent) (flight : Bool) :
    Kept u (passWB cfg u f done pre flight) ∧
      u.log.length < (passWB cfg u f done pre flight).log.length := by
  refine ⟨⟨fun _ => .refl _, rfl, rfl, (prefix_append _ _).trans (prefix_append _ _)⟩, ?_⟩
  change _ < (u.log ++ pre ++ [StoreEvent.advanced (f.storeAt f.storeWB)]).length
  rw [length_append, length_append, length_singleton]
  omega

/-- A store that waits for answers, or is a prefetch, is passed without an event. -/
theorem Aside.onward (ha : Aside cfg u h f part) (hfreed : Freed cfg u f)
    (hlt : f.storeWB < f.storeTail)
    (hcan : (u.storeQueue (f.storeWB % cfg.sqEntries)).canWB = true)
    (hs : Service cfg (passWB cfg u f false [] flight) h { f with storeWB := f.storeWB + 1 } []) :
    Onward cfg u (passWB cfg u f false [] flight) h f := by
  obtain ⟨ha', hstart⟩ := ha.pass ⟨forall_mem_nil _, by simp⟩ hlt hcan hs
  obtain ⟨hkept, hlonger⟩ := pass_kept cfg u f false [] flight
  refine ⟨hkept, ⟨f.storeHead, ha', fun hlt' => ?_⟩, hstart, rfl, rfl, hlonger⟩
  have hset := entrySet_pass false [] flight ha.stores hlt
  by_cases heq : f.storeHead = f.storeWB
  · rw [heq, hset.self]
  · exact (congrArg SQEntry.completed (hset.other le_rfl hlt' heq)).trans (hfreed hlt')

theorem prefetch_of_packets (hpkt : pkt ∈ packets cfg u h s) :
    (u.insts s).isDataPrefetch = false := by
  unfold packets at hpkt
  split at hpkt
  · cases hpkt
  · split at hpkt
    · cases hpkt
    · rename_i hno
      rw [Bool.eq_false_iff]
      exact fun hpre => hno (.inr (.inl hpre))

theorem Aside.skip (ha : Aside cfg u h f []) (hfreed : Freed cfg u f)
    (hlt : f.storeWB < f.storeTail)
    (hcan : (u.storeQueue (f.storeWB % cfg.sqEntries)).canWB = true)
    (hpre : (u.insts (f.storeAt f.storeWB)).isDataPrefetch = true)
    (hdata : HasData h (f.storeAt f.storeWB))
    (hflight : cfg.needsTSO = true → u.storeInFlight = false) :
    Onward cfg u (advance cfg u) h f := by
  rw [show advance cfg u = _ from
    advance_eq ha.stores hlt (ha.entries.waiting _ le_rfl hlt) u.storeInFlight]
  have hnil : packets cfg (passWB cfg u f false [] u.storeInFlight) h (f.storeAt f.storeWB) =
      [] := by
    refine eq_nil_iff_forall_not_mem.mpr (fun pkt hpkt => ?_)
    have hno := prefetch_of_packets hpkt
    exact absurd (hpre.symm.trans hno) (by simp)
  exact ha.onward hfreed hlt hcan (ha.service.pass ⟨forall_mem_nil _, by simp⟩ ha.stores ha.order
    hlt hnil nofun (fun _ => .inl ⟨hpre, hdata⟩) hflight (fun ht => by rw [hpre]; exact hflight ht))

/-! Completing stores. -/

/-- The loop that frees entries ends at the first store that has not completed, or at `b` at the
latest. -/
theorem freeLoop_eq (fuel : Nat) :
    ∀ (a : Nat) (u : LsqUnit), u.storeHead = a % cfg.sqEntries → u.storeTail = t % cfg.sqEntries →
      t < a + cfg.sqEntries → a < b → b ≤ t →
      b = t ∨ (u.storeQueue (b % cfg.sqEntries)).completed = false → b ≤ a + fuel →
      Yields (freeLoop cfg fuel u) (fun u' => ∃ c, a < c ∧ c ≤ b ∧
        (∀ p, a < p → p < c → (u.storeQueue (p % cfg.sqEntries)).completed = true) ∧
        (c < t → (u.storeQueue (c % cfg.sqEntries)).completed = false) ∧
        u' = { u with storeHead := c % cfg.sqEntries, stores := u.stores - ((c : Int) - a) }) := by
  induction fuel with
  | zero =>
    intro a u _ _ _ hlt _ _ hfuel
    omega
  | succ fuel ih =>
    intro a u hhead htail hroom hlt hle hstop hfuel
    unfold freeLoop
    dsimp only
    have hnext : Ring.next cfg.sqEntries u.storeHead = (a + 1) % cfg.sqEntries := by
      rw [hhead, Ring.next_mod (sqEntries_pos cfg)]
    rw [hnext]
    split_ifs with hgo
    · have hne : a + 1 ≠ b := by
        rintro rfl
        rcases hstop with rfl | hstop
        · exact hgo.2 htail.symm
        · rw [hgo.1] at hstop
          cases hstop
      refine (ih (a + 1) { u with
        storeHead := (a + 1) % cfg.sqEntries
        stores := u.stores - 1 } rfl htail (by omega) (by omega) hle hstop (by omega)).mono
        (fun u' ⟨c, h1, h2, h3, hend, h4⟩ => ⟨c, by omega, h2, fun p h5 h6 => ?_, hend, ?_⟩)
      · rcases Nat.eq_or_lt_of_le h5 with rfl | h5
        · exact hgo.1
        · exact h3 p h5 h6
      · rw [h4]
        congr 1
        push_cast
        ring
    · refine .ok ⟨a + 1, by omega, by omega, fun p h5 h6 => by omega, fun hlt' => ?_, ?_⟩
      · rw [Bool.eq_false_iff]
        refine fun hc => hgo ⟨hc, ?_⟩
        rw [htail]
        exact Ring.mod_ne (by omega) (by omega) (by omega)
      congr 1
      push_cast
      ring

/-- `completeStore` marks the store, and may free its entry and others up to `b`. -/
theorem completeStore_eq {last p b : Nat} (hw : StoreWindow cfg u last f) (hp : f.storeHead ≤ p)
    (hp' : p < f.storeTail) (hb : p < b) (hb' : b ≤ f.storeTail)
    (hstop : b = f.storeTail ∨ (u.storeQueue (b % cfg.sqEntries)).completed = false)
    (hfreed : Freed cfg u f) :
    Yields (completeStore cfg (p % cfg.sqEntries) u) (fun u' => ∃ c stalled isn,
      f.storeHead ≤ c ∧ c ≤ b ∧ (∀ p₁, f.storeHead ≤ p₁ → p₁ < c →
        p₁ = p ∨ (u.storeQueue (p₁ % cfg.sqEntries)).completed = true) ∧
      Freed cfg u' { f with storeHead := c } ∧
      u' = { completeAt cfg u p (f.storeAt p) with
        storeHead := c % cfg.sqEntries
        stores := (f.storeTail : Int) - c
        stalled := stalled
        stallingStoreIsn := isn }) := by
  have hroom := hw.room
  have hcell := hw.cell p hp hp'
  unfold completeStore
  dsimp only
  split
  · rename_i hnone
    rw [hcell] at hnone
    cases hnone
  rename_i st hst
  cases hcell.symm.trans hst
  have hother : ∀ p₁, f.storeHead ≤ p₁ → p₁ < f.storeTail → p₁ ≠ p → (u.setStore (p % cfg.sqEntries)
        { u.storeQueue (p % cfg.sqEntries) with completed := true }).storeQueue
          (p₁ % cfg.sqEntries) = u.storeQueue (p₁ % cfg.sqEntries) :=
    fun p₁ h1 h2 hne => Ring.update_of_ne hne (by omega) (by omega) _
  split
  · rename_i hhead
    have hpe : p = f.storeHead := Ring.mod_inj (hhead.trans hw.head) (by omega) (by omega)
    subst hpe
    refine (freeLoop_eq (b := b) (t := f.storeTail) cfg.sqEntries f.storeHead
      { u.setStore (f.storeHead % cfg.sqEntries)
          { u.storeQueue (f.storeHead % cfg.sqEntries) with completed := true } with
        storesToWB := u.storesToWB - 1 } hw.head hw.tail hroom hb hb' ?_
      (by omega)).bind (fun u₁ hu₁ => ?_)
    · rcases hstop with hstop | hstop
      · exact .inl hstop
      · rcases Nat.eq_or_lt_of_le hb' with heq | hlt
        · exact .inl heq
        · refine .inr ?_
          rw [← hstop]
          exact congrArg SQEntry.completed (hother b (by omega) hlt (by omega))
    obtain ⟨c, h1, h2, h3, hend, h4⟩ := hu₁
    obtain ⟨stalled, isn, heq⟩ := unstall_eq (f.storeAt f.storeHead) u₁
    refine .ok ⟨c, stalled, isn, h1.le, h2, fun p₁ h5 h6 => ?_, fun hlt => ?_, ?_⟩
    · rcases Nat.eq_or_lt_of_le h5 with rfl | h5
      · exact .inl rfl
      · refine .inr ?_
        rw [← hother p₁ h5.le (by omega) h5.ne']
        exact h3 p₁ h5 h6
    · rw [heq, h4]
      exact hend hlt
    · have hcount : u.stores - ((c : Int) - f.storeHead) = (f.storeTail : Int) - c := by
        rw [hw.stores]
        ring
      rw [heq, h4, ← hcount]
      rfl
  · rename_i hno
    obtain ⟨stalled, isn, heq⟩ := unstall_eq (f.storeAt p) { u.setStore (p % cfg.sqEntries)
        { u.storeQueue (p % cfg.sqEntries) with completed := true } with
      storesToWB := u.storesToWB - 1 }
    refine .ok ⟨f.storeHead, stalled, isn, le_rfl, by omega,
      fun p₁ h1 h2 => absurd h1 (by omega), fun hlt => ?_, ?_⟩
    · have hpne : f.storeHead ≠ p := by
        rintro rfl
        exact hno hw.head.symm
      rw [heq]
      exact (congrArg SQEntry.completed (hother _ (le_rfl) hlt hpne)).trans (hfreed hlt)
    rw [← hw.head, ← hw.stores]
    refine (congrArg (fun u₁ : LsqUnit => { u₁ with
      storeInFlight := if cfg.needsTSO then false else u₁.storeInFlight
      log := u₁.log ++ [StoreEvent.completed (f.storeAt p)] }) heq).trans ?_
    rfl

/-- A store of which the cache gets nothing completes and is passed. If it is a store conditional
that has failed, the log says so first. -/
theorem completeAndAdvance_onward (hv : v = { u with log := u.log ++ l }) (ha : Aside cfg u h f [])
    (hfreed : Freed cfg u f)
    (hlt : f.storeWB < f.storeTail) (hcan : (u.storeQueue (f.storeWB % cfg.sqEntries)).canWB = true)
    (hfail : ∀ e ∈ l, e = .failed (f.storeAt f.storeWB))
    (hnil : packets cfg v h (f.storeAt f.storeWB) = [])
    (hflight : cfg.needsTSO = true → u.storeInFlight = false) :
    Yields (completeAndAdvance cfg v) (fun u' => Onward cfg u u' h f) := by
  have hhead := ha.stores.head_le
  have hw : StoreWindow cfg v h.lastSeqNum f := by
    rw [hv]
    exact { ha.stores with }
  have hstop : f.storeWB + 1 = f.storeTail ∨
      (u.storeQueue ((f.storeWB + 1) % cfg.sqEntries)).completed = false :=
    (Nat.eq_or_lt_of_le hlt).imp_right (ha.entries.waiting _ (Nat.le_succ _))
  unfold completeAndAdvance
  rw [hw.wb]
  subst hv
  refine (completeStore_eq hw hhead hlt (lt_add_one _) hlt hstop hfreed).bind
    (fun u₁ ⟨c, stalled, isn, hle, hle', hdone, hfreed', heq⟩ => .ok ?_)
  -- first the store is passed, then entries are freed
  obtain ⟨flight, hfl⟩ : ∃ b, b = if cfg.needsTSO then false else u.storeInFlight := ⟨_, rfl⟩
  have hend : Ending (f.storeAt f.storeWB) true (l ++ [.completed (f.storeAt f.storeWB)]) := by
    refine ⟨fun e he => ?_, by simp⟩
    exact (mem_append.mp he).imp (hfail e) mem_singleton.mp
  have hu : advance cfg u₁ =
      { passWB cfg u f true (l ++ [.completed (f.storeAt f.storeWB)]) flight with
        storeHead := c % cfg.sqEntries
        stores := (f.storeTail : Int) - c
        stalled := stalled
        stallingStoreIsn := isn } := by
    have hinst : (update u.storeQueue (f.storeWB % cfg.sqEntries)
        { u.storeQueue (f.storeWB % cfg.sqEntries) with completed := true } u.storeWBIdx).inst =
        some (f.storeAt f.storeWB) := by
      rw [ha.stores.wb, update_self]
      exact ha.stores.cell _ hhead hlt
    rw [heq, hfl]
    unfold advance completeAt passWB
    rw [hinst, append_assoc u.log]
    rfl
  have hpart : packets cfg (passWB cfg u f true (l ++ [.completed (f.storeAt f.storeWB)]) flight) h
      (f.storeAt f.storeWB) = [] := by
    rw [← hnil]
    refine packets_congr rfl rfl ((mem_log_pass (.failed _) nofun).trans ?_)
    simp
  have hs := ha.service.pass hend ha.stores ha.order hlt hpart (fun _ => rfl) nofun hflight
    (fun ht => hfl.trans (if_pos ht))
  obtain ⟨ha', hstart⟩ := ha.pass hend hlt hcan hs
  have hset := entrySet_pass true (l ++ [.completed (f.storeAt f.storeWB)]) flight ha.stores hlt
  have hpop := ha'.pop (c := c) hle hle' (fun p h1 h2 => by
    obtain rfl | hp := eq_or_ne p f.storeWB
    · rw [hset.self]
    · rw [hset.other h1 (by omega) hp]
      exact (hdone p h1 h2).resolve_left hp)
  obtain ⟨hkept, hlonger⟩ := pass_kept cfg u f true
    (l ++ [.completed (f.storeAt f.storeWB)]) flight
  replace hfreed' : Freed cfg (advance cfg u₁) { f with storeHead := c } := hfreed'
  rw [hu] at hfreed' ⊢
  exact ⟨{ hkept with }, ⟨c, hpop.inert rfl, hfreed'⟩, hstart, rfl, rfl, hlonger⟩

/-! Sending packets. -/

/-- The packets `rest` of the store at `storeWBIdx` are still to be sent. -/
structure Sending (cfg : LsqConfig) (u : LsqUnit) (h : History) (f : Layout)
    (part rest : List StorePacket) : Prop
    extends Aside cfg u h f part, Outgoing cfg u h f part rest where
  freed : Freed cfg u f

namespace Sending

theorem inert (hs : Sending cfg u h f part rest) (hu : Inert u u') :
    Sending cfg u' h f part rest := by
  have ha := hs.toAside.inert hu
  rw [hu] at ha ⊢
  exact ⟨ha, { hs.toOutgoing with }, hs.freed⟩

theorem inv (hs : Sending cfg u h f part rest) (hu : Inert u u') (hhand : u'.hand = hd)
    (hheld : Held (u'.senders (f.storeAt f.storeWB)) hd part rest) : Inv cfg u' h f part :=
  (hs.inert hu).toAside.inv (.busy (hs.inert hu).toOutgoing hhand hheld) (hs.inert hu).freed

/-- The sender state of the store notes which packet is to be sent. -/
theorem sender (hs : Sending cfg u h f part rest)
    (hidx : t.idx = (u.senders (f.storeAt f.storeWB)).idx)
    (hout : t.outstanding = (u.senders (f.storeAt f.storeWB)).outstanding) :
    Sending cfg (u.setSender (f.storeAt f.storeWB) t) h f part rest := by
  have ho := hs.order
  have hself : (u.setSender (f.storeAt f.storeWB) t).senders (f.storeAt f.storeWB) = t :=
    update_self _ _ _
  refine ⟨⟨⟨{ hs.loads with }, { hs.stores with }, { hs.written with }, { ho with },
    { hs.entries with },
    hs.service.congr ho rfl rfl (fun _ _ _ => rfl) rfl rfl rfl
      (fun s hmem => update_of_ne (ho.lt_of_advanced hmem le_rfl hs.lt).ne _ _)
      (fun _ _ _ => rfl) (fun _ _ => rfl) (fun _ _ => rfl)⟩, { hs.indices with }⟩,
    { hs.toOutgoing with served := ?_ }, hs.freed⟩
  unfold Served
  rw [hself, hidx, hout]
  exact hs.served

theorem accept (hs : Sending cfg u h f part (pkt :: rest)) :
    Sending cfg { u with log := u.log ++ [.accepted pkt] } h f (part ++ [pkt]) rest := by
  have hpk : LsqUnit.packets cfg { u with log := u.log ++ [.accepted pkt] } h
      (f.storeAt f.storeWB) = LsqUnit.packets cfg u h (f.storeAt f.storeWB) := by
    refine packets_congr rfl rfl ?_
    rw [mem_append, mem_singleton]
    exact or_iff_left nofun
  refine ⟨hs.toAside.accept pkt hs.flight, ⟨hs.lt, hs.canWB, ?_, hs.served.congr rfl rfl hpk,
    hs.flight⟩, hs.freed⟩
  rw [hpk, hs.packets, append_assoc]
  rfl

theorem unsent (hs : Sending cfg u h f part rest) (hpkt : pkt ∈ rest) : pkt ∉ h.responded := by
  intro hresp
  have hacc := hs.service.responded pkt hresp
  have hmem : pkt ∈ LsqUnit.packets cfg u h (f.storeAt f.storeWB) := by
    rw [hs.packets]
    exact mem_append_right _ hpkt
  rw [hs.service.accepted, mem_append, mem_flatMap] at hacc
  rcases hacc with ⟨s, hadv, hpk⟩ | hpart
  · have hlt := hs.order.lt_of_advanced hadv (le_rfl) hs.lt
    rw [← inst_of_mem_packets hpk, ← inst_of_mem_packets hmem] at hlt
    exact lt_irrefl _ hlt
  · have hnodup : (LsqUnit.packets cfg u h (f.storeAt f.storeWB)).Nodup := packets_nodup _
    rw [hs.packets] at hnodup
    exact disjoint_of_nodup_append hnodup hpart hpkt

theorem postSend (hs : Sending cfg u h f part []) (hmore : ∃ pkt ∈ part, pkt ∉ h.responded) :
    Yields (storePostSend cfg u) (fun u' => Onward cfg u u' h f) := by
  have hw := hs.stores
  have hcell := hw.cell _ hw.head_le hs.lt
  rw [← hw.wb] at hcell
  have hpackets := hs.packets
  rw [append_nil] at hpackets
  obtain ⟨pkt, hpkt, hnot⟩ := hmore
  have hpre : (u.insts (f.storeAt f.storeWB)).isDataPrefetch = false :=
    prefetch_of_packets (by rw [hpackets]; exact hpkt)
  unfold storePostSend
  rw [hcell]
  dsimp only
  obtain ⟨b, n, heq⟩ := unstall_eq (f.storeAt f.storeWB) u
  rw [heq]
  have hs' : Sending cfg { u with stalled := b, stallingStoreIsn := n } h f part [] := hs.inert rfl
  rw [advance_eq hs'.stores hs.lt (hs.entries.waiting _ le_rfl hs.lt)]
  have hpart : LsqUnit.packets cfg (passWB cfg { u with stalled := b, stallingStoreIsn := n } f
      false [] (if cfg.needsTSO then true else u.storeInFlight)) h (f.storeAt f.storeWB) =
        part := by
    rw [← hpackets]
    exact packets_congr rfl rfl ((mem_log_pass (.failed _) nofun).trans (or_iff_left not_mem_nil))
  have ho := hs'.toAside.onward hs'.freed hs.lt hs.canWB (hs'.service.pass
    ⟨forall_mem_nil _, by simp⟩ hs'.stores hs'.order hs.lt hpart nofun
    (fun _ => .inr ⟨hs.served.congr rfl rfl (hpart.trans hpackets.symm), pkt, hpkt, hnot⟩) hs.flight
    (fun ht => (if_pos ht).trans (by rw [show DynInst.isDataPrefetch _ = false from hpre]; rfl)))
  exact .ok { ho with kept := { ho.kept with } }

end Sending

theorem Onward.accepted (ho : Onward cfg { u with log := u.log ++ [.accepted pkt] } u' h f) :
    Onward cfg u u' h f := by
  have hlonger := ho.longer
  rw [length_append] at hlonger
  exact { ho with
    kept := { ho.kept with log := (prefix_append _ _).trans ho.kept.log }
    longer := by omega }

theorem sendLast_spec (hs : Sending cfg u h f part [pkt]) (hretry : u.retryPkt = none) :
    Yields (sendLast cfg env pkt u) (fun u' => Onward cfg u u' h f ∨
      env.accept pkt = false ∧ u' = { u with isStoreBlocked := true, retryPkt := some pkt }) := by
  unfold sendLast sendStore
  by_cases hacc : env.accept pkt = true
  · rw [if_pos hacc]
    refine (hs.accept.postSend ⟨pkt, mem_append_right _ (mem_singleton_self _),
      hs.unsent (mem_singleton_self _)⟩).mono (fun u' hu' => .inl hu'.accepted)
  · rw [if_neg hacc, hretry, if_neg (by simp)]
    exact .ok (.inr ⟨by simpa using hacc, rfl⟩)

/-- One round of `writebackStores`: the store in hand is passed, or it is the last round. If the
cache takes what it is offered, the log grows. -/
structure Round (cfg : LsqConfig) (env : WritebackEnv) (u u' : LsqUnit) (h : History) (f : Layout) :
    Prop where
  kept : Kept u u'
  longer : (∀ pkt, env.accept pkt = true) → u.log.length < u'.log.length
  pending : u'.hasPendingPkt = true → ¬u'.usedPorts < cfg.cachePorts
  inv : (∃ head, Inv cfg u' h { f with storeHead := head, storeWB := f.storeWB + 1 } []) ∨
    (u'.isStoreBlocked = true ∨ ¬u'.usedPorts < cfg.cachePorts) ∧ ∃ part, Inv cfg u' h f part

theorem Onward.round (ho : Onward cfg u u' h f) (hfree : u.hand = .of none none) :
    Round cfg env u u' h f where
  kept := ho.kept
  longer _ := ho.longer
  pending hhas := by
    cases hhas.symm.trans (congrArg Hand.hasPendingPkt (ho.hand.trans hfree))
  inv := .inl (ho.inv hfree)

/-- A round that starts with what is left alone, and may have had packets accepted before. -/
theorem Round.after (hr : Round cfg env v u' h f) (hk : Kept u v) : Round cfg env u u' h f :=
  ⟨hk.trans hr.kept, fun hall => hk.log.length_le.trans_lt (hr.longer hall), hr.pending, hr.inv⟩

theorem hand_blocked (hfree : u.hand = .of none none) (pkt : StorePacket) :
    ({ u with isStoreBlocked := true, retryPkt := some pkt } : LsqUnit).hand =
      .of (some pkt) none := by
  simp_all [hand, Hand.of]

def partsOf (st : Nat) (split : Bool) : List StorePacket :=
  if split then [⟨st, .low⟩, ⟨st, .high⟩] else [⟨st, .whole⟩]

theorem sendPackets_round {split : Bool}
    (hs : Sending cfg u h f [] (partsOf (f.storeAt f.storeWB) split))
    (hfree : u.hand = .of none none)
    (hto : (u.senders (f.storeAt f.storeWB)).pktToSend = false) :
    Yields (sendPackets cfg env (f.storeAt f.storeWB) split u)
      (fun u' => Round cfg env u u' h f) := by
  have hretry : u.retryPkt = none := congrArg Hand.retryPkt hfree
  have hhas : u.hasPendingPkt = false := congrArg Hand.hasPendingPkt hfree
  have hpending : u.pendingPkt = none := congrArg Hand.pendingPkt hfree
  have hreject : ∀ {v : LsqUnit} {pkt : StorePacket}, env.accept pkt = false →
      (∀ pkt, env.accept pkt = true) → u.log.length < v.log.length := by
    intro v pkt hrej hall
    rw [hall pkt] at hrej
    cases hrej
  have hnot : ∀ {P : Prop}, u.hasPendingPkt = true → P := by
    intro P hno
    rw [hhas] at hno
    cases hno
  unfold sendPackets
  cases split with
  | false =>
    rw [if_neg (by simp)]
    refine (sendLast_spec hs hretry).mono (fun u' hu' => ?_)
    rcases hu' with hu' | ⟨hrej, rfl⟩
    · exact hu'.round hfree
    · exact ⟨.inert rfl, hreject hrej, hnot,
        .inr ⟨.inl rfl, [], hs.inv rfl (hand_blocked hfree _) (.first (.inl ⟨rfl, hto⟩))⟩⟩
  | true =>
    rw [if_pos rfl]
    unfold sendStore
    by_cases hacc : env.accept ⟨f.storeAt f.storeWB, .low⟩ = true
    · rw [if_pos hacc]
      have hlow := hs.accept
      have hkept : ∀ {v : LsqUnit},
          Inert { u with log := u.log ++ [.accepted ⟨f.storeAt f.storeWB, .low⟩] } v →
          Kept u v := by
        intro v hv
        have hstart : Kept u { u with log := u.log ++ [.accepted ⟨f.storeAt f.storeWB, .low⟩] } :=
          ⟨fun _ => .refl _, rfl, rfl, prefix_append _ _⟩
        exact hstart.trans (.inert hv)
      have hgrown : u.log.length <
          (u.log ++ [StoreEvent.accepted ⟨f.storeAt f.storeWB, .low⟩]).length := by
        rw [length_append]
        exact lt_add_one _
      change Meets (if u.usedPorts < cfg.cachePorts then _ else _) _ _
      split
      · have hsecond : Sending cfg { u with
            log := u.log ++ [.accepted ⟨f.storeAt f.storeWB, .low⟩]
            usedPorts := u.usedPorts + 1 } h f _ _ := hlow.inert rfl
        refine (sendLast_spec hsecond hretry).mono (fun u' hu' => ?_)
        rcases hu' with hu' | ⟨hrej, rfl⟩
        · exact (hu'.round hfree).after (hkept rfl)
        · exact ⟨hkept rfl, fun _ => hgrown, hnot, .inr ⟨.inl rfl, [_],
            hlow.inv rfl (hand_blocked hfree _) (.second (.inl hto))⟩⟩
      · rename_i hports
        rw [hpending, if_neg (by simp)]
        refine .ok ⟨hkept rfl, fun _ => hgrown, fun _ => hports,
          .inr ⟨.inr hports, [_], hlow.inv rfl ?_ (.pending hto)⟩⟩
        unfold hand
        rw [show u.isStoreBlocked = false from congrArg Hand.isStoreBlocked hfree, hretry]
        rfl
    · rw [if_neg hacc, hretry, if_neg (by simp)]
      refine .ok ⟨⟨fun _ => .refl _, rfl, rfl, prefix_rfl⟩, hreject (by simpa using hacc), hnot,
        .inr ⟨.inl rfl, [], (hs.sender (t := { u.senders (f.storeAt f.storeWB) with
          pktToSend := true
          pendingPacket := some ⟨f.storeAt f.storeWB, .high⟩ }) rfl rfl).inv rfl
            (hand_blocked hfree _) ?_⟩⟩
      change Held (update u.senders (f.storeAt f.storeWB) _ (f.storeAt f.storeWB)) _ _ _
      rw [update_self]
      exact .first (.inr ⟨_, rfl, rfl, rfl⟩)

/-! The loop of `writebackStores`. -/

theorem launch_kept (u : LsqUnit) (f : Layout) (req : Request) (split : Bool) :
    Kept u (u.launchWB f req split) :=
  ⟨same_setInst u (i := { u.insts (f.storeAt f.storeWB) with
    memData := some (forwardData (u.storeQueue u.storeWBIdx) 0 req.size) })
    ⟨rfl, rfl, rfl, rfl, rfl, rfl⟩, rfl, rfl, prefix_rfl⟩

theorem launch_sender (u : LsqUnit) (f : Layout) (req : Request) (split : Bool) :
    ((u.launchWB f req split).senders (f.storeAt f.storeWB)).idx = u.storeWBIdx % 256 ∧
      ((u.launchWB f req split).senders (f.storeAt f.storeWB)).outstanding =
        (if split then 2 else 1) ∧
      ((u.launchWB f req split).senders (f.storeAt f.storeWB)).pktToSend = false := by
  unfold launchWB launch setSender
  dsimp only
  rw [update_self]
  exact ⟨rfl, rfl, rfl⟩

theorem launch_entry (u : LsqUnit) (f : Layout) (req : Request) (split : Bool) (idx : Nat) :
    ((u.launchWB f req split).storeQueue idx).canWB = (u.storeQueue idx).canWB ∧
      ((u.launchWB f req split).storeQueue idx).completed = (u.storeQueue idx).completed := by
  change (update u.storeQueue u.storeWBIdx
      { u.storeQueue u.storeWBIdx with committed := true } idx).canWB = _ ∧
    (update u.storeQueue u.storeWBIdx
      { u.storeQueue u.storeWBIdx with committed := true } idx).completed = _
  obtain rfl | hidx := eq_or_ne idx u.storeWBIdx
  · rw [update_self]
    exact ⟨rfl, rfl⟩
  · rw [update_of_ne hidx]
    exact ⟨rfl, rfl⟩

theorem Aside.sending (ha : Aside cfg u h f []) (hfreed : Freed cfg u f)
    (hlt : f.storeWB < f.storeTail) (hcan : (u.storeQueue (f.storeWB % cfg.sqEntries)).canWB = true)
    (hflight : cfg.needsTSO = true → u.storeInFlight = false)
    (hreq : h.requests (f.storeAt f.storeWB) = some (req, data)) (hsize : req.size % 256 ≠ 0)
    (hpre : (u.insts (f.storeAt f.storeWB)).isDataPrefetch = false) (hipr : req.mmappedIpr = false)
    {split : Bool} (hsplit : split = (cfg.hasUnalignedMemAcc && req.split)) :
    Sending cfg (u.launchWB f req split) h f [] (partsOf (f.storeAt f.storeWB) split) := by
  have hw := ha.stores
  have hbound := cfg.sqEntries_le
  have hst : f.storeAt f.storeWB ∉ advanced u.log := fun hmem =>
    lt_irrefl _ (ha.order.lt_of_advanced hmem le_rfl hlt)
  have hfailed : StoreEvent.failed (f.storeAt f.storeWB) ∉ u.log := fun hmem =>
    hst (ha.service.finished _ (.inl hmem))
  have hkept := launch_kept u f req split
  obtain ⟨hidx, hout, -⟩ := launch_sender u f req split
  have hqueue := launch_entry u f req split
  have hpackets : packets cfg (u.launchWB f req split) h (f.storeAt f.storeWB) =
      partsOf (f.storeAt f.storeWB) split := by
    unfold packets partsOf
    rw [hreq]
    dsimp only
    rw [if_neg, hsplit]
    rw [(hkept.same _).isDataPrefetch, show (u.launchWB f req split).log = u.log from rfl, hpre,
      hipr]
    simp [hsize, hfailed]
  have hnew : ∀ pkt ∈ packets cfg (u.launchWB f req split) h (f.storeAt f.storeWB),
      pkt ∉ h.responded := by
    intro pkt hpkt hresp
    have hacc := ha.service.responded pkt hresp
    rw [ha.service.accepted, append_nil, mem_flatMap] at hacc
    obtain ⟨s, hadv, hpk⟩ := hacc
    rw [← inst_of_mem_packets hpkt, inst_of_mem_packets hpk] at hst
    exact hst hadv
  refine ⟨ha.launch hlt req split, ⟨hlt, (hqueue _).1.trans hcan, hpackets, ⟨?_, fun _ => ?_⟩,
    hflight⟩, fun hlt' => (hqueue _).2.trans (hfreed hlt')⟩
  · rw [hidx, hw.wb]
    exact Nat.mod_eq_of_lt (lt_of_lt_of_le (Nat.mod_lt _ (sqEntries_pos cfg)) hbound)
  · rw [hout]
    unfold unanswered
    rw [filter_eq_self.mpr (fun pkt hpkt => by simpa using hnew pkt hpkt), hpackets]
    unfold partsOf
    split <;> rfl

theorem writebackStore_round (ha : Aside cfg u h f []) (hfreed : Freed cfg u f)
    (hfree : u.hand = .of none none) (hlt : f.storeWB < f.storeTail)
    (hcan : (u.storeQueue (f.storeWB % cfg.sqEntries)).canWB = true)
    (hstart : (u.storeQueue (f.storeWB % cfg.sqEntries)).committed = false)
    (hflight : cfg.needsTSO = true → u.storeInFlight = false)
    (hsize : (u.storeQueue (f.storeWB % cfg.sqEntries)).size ≠ 0) :
    Meets (writebackStore cfg env u) (fun e => e = .splitConditional ∨ e = .iprConditional)
      (fun u' => Round cfg env u u' h f) := by
  have hw := ha.stores
  have hcell := hw.cell _ hw.head_le hlt
  have hdata := ha.entries.noData _ (le_rfl) hlt hstart
  obtain ⟨req, data, hreq⟩ : ∃ req data, h.requests (f.storeAt f.storeWB) = some (req, data) := by
    cases hreq : h.requests (f.storeAt f.storeWB) with
    | none => exact absurd (ha.written.blank _ (le_rfl) hlt hreq).1 hsize
    | some r => exact ⟨r.1, r.2, rfl⟩
  have hfilled := ha.written.filled _ (le_rfl) hlt req data hreq
  have hnz : req.size % 256 ≠ 0 := by
    rw [← hfilled.size]
    exact hsize
  have hport : Inert u { u with usedPorts := u.usedPorts + 1 } := rfl
  unfold writebackStore
  dsimp only
  rw [← hw.wb] at hcell hstart
  rw [hcell]
  dsimp only
  split
  · rename_i hpre
    refine .ok (Round.after ?_ (.inert hport))
    exact ((ha.inert hport).skip hfreed hlt hcan hpre ⟨_, hreq, hnz⟩ hflight).round hfree
  rename_i hpre
  have hpre : (u.insts (f.storeAt f.storeWB)).isDataPrefetch = false := by simpa using hpre
  rw [← hw.wb] at hfilled
  rw [hfilled.request]
  dsimp only
  rw [if_neg (by simp [hstart]), if_neg (by simp [hdata])]
  have hsplit : (cfg.hasUnalignedMemAcc && (u.storeQueue u.storeWBIdx).isSplit) =
      (cfg.hasUnalignedMemAcc && req.split) := by
    rw [hfilled.split, ← Bool.and_assoc, Bool.and_self]
  generalize (cfg.hasUnalignedMemAcc && (u.storeQueue u.storeWBIdx).isSplit) = split at hsplit
  have hlaunch := (ha.inert hport).launch hlt req split
  have hkept := (Kept.inert hport).trans
    (launch_kept { u with usedPorts := u.usedPorts + 1 } f req split)
  have hentry := launch_entry { u with usedPorts := u.usedPorts + 1 } f req split
  have hcan' := (hentry (f.storeWB % cfg.sqEntries)).1.trans hcan
  have hfreed' : Freed cfg (launchWB { u with usedPorts := u.usedPorts + 1 } f req split) f :=
    fun hlt' => (hentry _).2.trans (hfreed hlt')
  split
  · exact .error (.inl rfl)
  split
  · -- a store conditional that fails
    refine ((completeAndAdvance_onward rfl hlaunch hfreed' hlt hcan' (fun e he => ?_) ?_
      hflight).of_yields).mono
      (fun u' hu' => (hu'.round hfree).after hkept)
    · exact mem_singleton.mp he
    · unfold packets
      rw [hreq]
      exact if_pos (.inr (.inr (.inr (mem_append_right _ (mem_singleton_self _)))))
  split
  · rename_i hipr
    split
    · exact .error (.inr rfl)
    refine ((completeAndAdvance_onward (l := []) ?_ hlaunch hfreed' hlt hcan'
      (forall_mem_nil _) ?_ hflight).of_yields).mono
      (fun u' hu' => (hu'.round hfree).after hkept)
    · rw [append_nil]
    · unfold packets
      rw [hreq]
      exact if_pos (.inr (.inr (.inl hipr)))
  · rename_i hipr
    have hsend := (ha.inert hport).sending hfreed hlt hcan hflight hreq hnz hpre
      (by simpa using hipr) hsplit
    exact (sendPackets_round hsend hfree (launch_sender _ f req split).2.2).of_yields.mono
      (fun u' hu' => hu'.after hkept)

/-- The call ends in a state between calls; on `go` the log grows, if the cache takes what it is
offered. -/
structure Progress (cfg : LsqConfig) (env : WritebackEnv) (u u' : LsqUnit) (h : History)
    (go : Prop) : Prop where
  inv : ∃ f' part', Inv cfg u' h f' part'
  kept : Kept u u'
  longer : go → (∀ pkt, env.accept pkt = true) → u.log.length < u'.log.length

theorem writebackLoop_spec (fuel : Nat) :
    ∀ (u : LsqUnit) (f : Layout) (part : List StorePacket), Inv cfg u h f part →
      (u.hasPendingPkt = true → ¬u.usedPorts < cfg.cachePorts) →
      (f.storeTail < f.storeWB + fuel ∨
        0 < fuel ∧ (u.isStoreBlocked = true ∨ ¬u.usedPorts < cfg.cachePorts)) →
      Meets (writebackLoop cfg env fuel u) (fun e => e = .splitConditional ∨ e = .iprConditional)
        (fun u' => Progress cfg env u u' h
          (canWriteback cfg u = true ∧ u.isStoreBlocked = false)) := by
  induction fuel with
  | zero =>
    intro u f part hi _ hfuel
    have := hi.stores.wb_le
    omega
  | succ fuel ih =>
    intro u f part hi hports hfuel
    unfold writebackLoop
    by_cases hgo : canWriteback cfg u = true
    · rw [if_pos hgo]
      by_cases hblocked : u.isStoreBlocked = true
      · rw [if_pos hblocked]
        refine .ok ⟨⟨f, part, hi⟩, .refl u, fun hno => ?_⟩
        rw [hblocked] at hno
        cases hno.2
      rw [if_neg hblocked]
      unfold canWriteback at hgo
      simp only [Bool.and_eq_true, decide_eq_true_eq, Bool.or_eq_true, Bool.not_eq_true'] at hgo
      obtain ⟨⟨⟨⟨⟨-, hne⟩, -⟩, hcan⟩, hgate⟩, hport⟩ := hgo
      have hw := hi.stores
      have hlt : f.storeWB < f.storeTail := by
        have := hw.wb_le
        rcases lt_or_ge f.storeWB f.storeTail with hlt | hge
        · exact hlt
        · rw [hw.wb, hw.tail, show f.storeWB = f.storeTail by omega] at hne
          exact absurd rfl hne
      have hflight : cfg.needsTSO = true → u.storeInFlight = false := by
        intro ht
        rcases hgate with hno | hno
        · rw [ht] at hno
          cases hno
        · exact hno
      rw [hw.wb] at hcan
      -- nothing is in hand
      obtain ⟨rfl, hfree, hstart⟩ : part = [] ∧ u.hand = .of none none ∧
          (u.storeQueue (f.storeWB % cfg.sqEntries)).committed = false := by
        cases hi.inHand with
        | idle h1 h2 => exact ⟨rfl, h1, h2 hlt⟩
        | busy _ hhand hheld =>
          cases hheld with
          | first | second => exact absurd (congrArg Hand.isStoreBlocked hhand) hblocked
          | pending => exact absurd hport (hports (congrArg Hand.hasPendingPkt hhand))
      have hround : Meets (if (u.storeQueue u.storeWBIdx).size = 0 then completeAndAdvance cfg u
          else writebackStore cfg env u) (fun e => e = .splitConditional ∨ e = .iprConditional)
          (fun u' => Round cfg env u u' h f) := by
        split_ifs with hsize
        · refine ((completeAndAdvance_onward (l := []) ?_ hi.aside hi.freed hlt hcan
            (forall_mem_nil _) ?_ hflight).of_yields).mono
            (fun u' hu' => hu'.round hfree)
          · rw [append_nil]
          unfold packets
          split
          · rfl
          · rename_i req data hreq
            have hf := hi.written.filled _ (le_rfl) hlt req data hreq
            rw [← hw.wb] at hf
            exact if_pos (.inl (hf.size.symm.trans hsize))
        · rw [hw.wb] at hsize
          exact writebackStore_round hi.aside hi.freed hfree hlt hcan hstart hflight hsize
      have hnext : ∀ u₁, Round cfg env u u₁ h f → Meets (writebackLoop cfg env fuel u₁)
            (fun e => e = .splitConditional ∨ e = .iprConditional)
            (fun u' => Progress cfg env u u' h
              (canWriteback cfg u = true ∧ u.isStoreBlocked = false)) := by
        intro u₁ hr
        have hmore : f.storeTail < f.storeWB + (fuel + 1) := by
          rcases hfuel with hfuel | ⟨-, hb | hp⟩
          · exact hfuel
          · exact absurd hb hblocked
          · exact absurd hport hp
        obtain ⟨f₁, part₁, hi₁, hf₁⟩ : ∃ f₁ part₁, Inv cfg u₁ h f₁ part₁ ∧
            (f₁.storeTail < f₁.storeWB + fuel ∨
              0 < fuel ∧ (u₁.isStoreBlocked = true ∨ ¬u₁.usedPorts < cfg.cachePorts)) := by
          rcases hr.inv with ⟨head, hi₁⟩ | ⟨hstop, part₁, hi₁⟩
          · exact ⟨_, _, hi₁, .inl (by dsimp only; omega)⟩
          · exact ⟨_, _, hi₁, .inr ⟨by omega, hstop⟩⟩
        exact (ih u₁ f₁ part₁ hi₁ hr.pending hf₁).mono (fun u' hu' =>
          ⟨hu'.inv, hr.kept.trans hu'.kept, fun _ hall =>
            (hr.longer hall).trans_le hu'.kept.log.length_le⟩)
      split_ifs at hround with hsize
      · rw [if_pos hsize]
        exact hround.bind hnext
      · rw [if_neg hsize]
        exact hround.bind hnext
    · rw [if_neg hgo]
      exact .ok ⟨⟨f, part, hi⟩, .refl u, fun hno => absurd hno.1 hgo⟩

end Gem5.O3.LsqUnit
