import Gem5.O3.LsqWriteback

namespace Gem5.O3.LsqUnit

open Lib List Function

variable {cfg : LsqConfig} {u u' : LsqUnit} {h : History} {f : Layout} {part : List StorePacket}
  {env : WritebackEnv}

theorem hand_sent (hh : u.hand = .of none pending) :
    ({ u with pendingPkt := none, hasPendingPkt := false } : LsqUnit).hand = .of none none := by
  simp_all [hand, Hand.of]

theorem hand_retried (hh : u.hand = .of retry none) :
    ({ u with retryPkt := none, isStoreBlocked := false } : LsqUnit).hand = .of none none := by
  simp_all [hand, Hand.of]

/-- After a store has been passed, the packet in hand is dropped. -/
theorem Onward.settle (ho : Onward cfg u u' h f) (hu : Inert u' v)
    (hfree : v.hand = .of none none) :
    ∃ head, Inv cfg v h { f with storeHead := head, storeWB := f.storeWB + 1 } [] := by
  obtain ⟨head, ha, hfreed⟩ := ho.aside
  have ha' := ha.inert hu
  rw [hu] at ha' hfree ⊢
  exact ⟨head, ha'.inv (.idle hfree ho.start) hfreed⟩

theorem writebackPendingStore_spec (hi : Inv cfg u h f part) :
    Yields (writebackPendingStore cfg env u) (fun u' =>
      Progress cfg env u u' h (u.hasPendingPkt = true) ∧ u'.hasPendingPkt = false ∧
        (u.hasPendingPkt = false → u' = u)) := by
  by_cases hhas : u.hasPendingPkt = false
  · unfold writebackPendingStore
    rw [hhas, if_neg (by simp)]
    exact .ok ⟨⟨⟨f, part, hi⟩, .refl u, fun hno => (Bool.false_ne_true hno).elim⟩, hhas,
      fun _ => rfl⟩
  cases hi.inHand with
  | idle hhand => exact absurd (congrArg Hand.hasPendingPkt hhand) hhas
  | busy hout hhand hheld =>
    have hs : Sending cfg u h f _ _ := ⟨hi.aside, hout, hi.freed⟩
    cases hheld with
    | first | second => exact absurd (congrArg Hand.hasPendingPkt hhand) hhas
    | @pending pkt next hsend =>
      have hhas : u.hasPendingPkt = true := congrArg Hand.hasPendingPkt hhand
      unfold writebackPendingStore
      rw [hhas, if_pos rfl, show u.pendingPkt = some next from congrArg Hand.pendingPkt hhand]
      refine (sendLast_spec hs (congrArg Hand.retryPkt hhand)).bind (fun u₁ hu₁ => .ok ?_)
      rcases hu₁ with hu₁ | ⟨hrej, rfl⟩
      · obtain ⟨head, hi'⟩ := hu₁.settle
          (v := { u₁ with pendingPkt := none, hasPendingPkt := false }) rfl
          (hand_sent (hu₁.hand.trans hhand))
        exact ⟨⟨⟨_, _, hi'⟩, hu₁.kept.trans (.inert rfl), fun _ _ => hu₁.longer⟩, rfl, nofun⟩
      refine ⟨⟨⟨f, [pkt], hs.inv rfl rfl (.second (.inl hsend))⟩, .inert rfl,
        fun _ hall => ?_⟩, rfl, nofun⟩
      rw [hall next] at hrej
      cases hrej

/-- `writebackStores` ends in a state between calls. If the cache takes what it is offered, a
store that may be sent makes progress. -/
theorem writebackStores_spec (hi : Inv cfg u h f part) :
    Meets (writebackStores cfg env u) (fun e => e = .splitConditional ∨ e = .iprConditional)
      (fun u' => Progress cfg env u u' h
        (u.hasPendingPkt = true ∨ canWriteback cfg u = true ∧ u.isStoreBlocked = false)) := by
  have hloop : ∀ u₁, Progress cfg env u u₁ h (u.hasPendingPkt = true) ∧ u₁.hasPendingPkt = false ∧
        (u.hasPendingPkt = false → u₁ = u) →
      Meets (do
          let u ← writebackLoop cfg env (cfg.sqEntries + 1) u₁
          if u.stores < 0 ∨ u.storesToWB < 0 then .error .negative
          else .ok { u with usedPorts := 0 })
        (fun e => e = .splitConditional ∨ e = .iprConditional)
        (fun u' => Progress cfg env u u' h
          (u.hasPendingPkt = true ∨ canWriteback cfg u = true ∧ u.isStoreBlocked = false)) := by
    intro u₁ ⟨⟨⟨f₁, part₁, hi₁⟩, hkept, hlonger⟩, hhas, hsame⟩
    have hroom := hi₁.stores.room
    have hhead := hi₁.stores.head_le
    refine (writebackLoop_spec (cfg.sqEntries + 1) u₁ f₁ part₁ hi₁
      (fun hno => by rw [hhas] at hno; cases hno) (.inl (by omega))).bind
      (fun u₂ ⟨⟨f₂, part₂, hi₂⟩, hkept₂, hgrow⟩ => ?_)
    have hstores := hi₂.stores.stores
    have hcount := hi₂.entries.count
    have hle := hi₂.stores.head_le.trans hi₂.stores.wb_le
    rw [if_neg (by omega)]
    refine .ok ⟨⟨f₂, part₂, Aside.inv (hi₂.aside.inert rfl) ?_ hi₂.freed⟩,
      hkept.trans (hkept₂.trans (.inert rfl)), fun hready hall => ?_⟩
    · exact hi₂.inHand.congr rfl rfl rfl rfl rfl (fun hstart => hstart)
        (fun hlt hcan => ⟨hlt, rfl, hcan, rfl⟩)
    have hle' := hkept₂.log.length_le
    rcases hready with hpend | ⟨hgo, hblocked⟩
    · exact (hlonger hpend hall).trans_le hle'
    · by_cases hpend : u.hasPendingPkt = true
      · exact (hlonger hpend hall).trans_le hle'
      · rw [hsame (by simpa using hpend)] at hgrow
        exact hgrow ⟨hgo, hblocked⟩ hall
  unfold writebackStores
  split_ifs with huna
  · exact ((writebackPendingStore_spec hi).of_yields).bind hloop
  -- only a split store can be pending
  have hhas : u.hasPendingPkt = false := by
    cases hi.inHand with
    | idle hhand => exact congrArg Hand.hasPendingPkt hhand
    | busy hout hhand hheld =>
      cases hheld with
      | first | second => exact congrArg Hand.hasPendingPkt hhand
      | pending => exact absurd (hasUnalignedMemAcc_of_packets hout.packets).1 huna
  exact hloop u ⟨⟨⟨f, part, hi⟩, .refl u, fun hno => by rw [hhas] at hno; cases hno⟩, hhas,
    fun _ => rfl⟩

/-! Retries. -/

/-- A packet that was rejected is accepted, and it is the last of its store. -/
theorem retryLast (hs : Sending cfg u h f part [pkt])
    (hhand : u.hand = .of (some pkt) none)
    (hidx : t.idx = (u.senders (f.storeAt f.storeWB)).idx)
    (hout : t.outstanding = (u.senders (f.storeAt f.storeWB)).outstanding) :
    Yields (storePostSend cfg
        (LsqUnit.setSender { u with log := u.log ++ [.accepted pkt] } (f.storeAt f.storeWB) t))
      (fun u' => (∃ f' part',
          Inv cfg { u' with retryPkt := none, isStoreBlocked := false } h f' part') ∧
          Kept u u' ∧ u.log.length < u'.log.length ∧ u'.senders (f.storeAt f.storeWB) = t) := by
  have hsend := hs.accept.sender (t := t) hidx hout
  refine (hsend.postSend ⟨pkt, mem_append_right _ (mem_singleton_self _),
    hs.unsent (mem_singleton_self _)⟩).mono (fun u' ho => ?_)
  have hkept : Kept u
      (LsqUnit.setSender { u with log := u.log ++ [.accepted pkt] } (f.storeAt f.storeWB) t) :=
    ⟨fun _ => .refl _, rfl, rfl, prefix_append _ _⟩
  obtain ⟨head, hi'⟩ := ho.settle (v := { u' with retryPkt := none, isStoreBlocked := false })
    rfl (hand_retried (ho.hand.trans hhand))
  refine ⟨⟨_, _, hi'⟩, hkept.trans ho.kept, hkept.log.length_le.trans_lt ho.longer, ?_⟩
  rw [ho.senders]
  exact update_self _ _ _

/-- `recvRetry` ends in a state between calls. A packet that is accepted makes the log grow. -/
theorem recvRetry_spec (hi : Inv cfg u h f part) :
    Yields (recvRetry cfg env u) (fun u' => Progress cfg env u u' h (u.isStoreBlocked = true)) := by
  -- the call does nothing
  have hstay : ((∀ pkt, env.accept pkt = true) → u.isStoreBlocked = false) →
      Progress cfg env u u h (u.isStoreBlocked = true) := fun hno =>
    ⟨⟨f, part, hi⟩, .refl u, fun hb hall => by rw [hno hall] at hb; cases hb⟩
  have hrejected : ∀ pkt, env.accept pkt ≠ true →
      (∀ pkt, env.accept pkt = true) → u.isStoreBlocked = false :=
    fun pkt hne hall => absurd (hall pkt) hne
  -- the packet is the last of its store
  have hlast : ∀ {part pkt}, Sending cfg u h f part [pkt] → u.hand = .of (some pkt) none →
      pkt.inst = f.storeAt f.storeWB →
      ((u.senders (f.storeAt f.storeWB)).pktToSend = false ∨
        (u.senders (f.storeAt f.storeWB)).pendingPacket = some pkt) →
      Yields (recvRetry cfg env u)
        (fun u' => Progress cfg env u u' h (u.isStoreBlocked = true)) := by
    intro part pkt hs hhand hinst hsend
    have hblocked : u.isStoreBlocked = true := congrArg Hand.isStoreBlocked hhand
    have hretry : u.retryPkt = some pkt := congrArg Hand.retryPkt hhand
    unfold recvRetry
    rw [if_pos hblocked]
    split
    · rename_i hnone
      rw [hretry] at hnone
      cases hnone
    rename_i pkt' hsome
    cases hretry.symm.trans hsome
    split_ifs with hrej
    · rw [hinst, if_pos (by rcases hsend with hsend | hsend <;> simp [hsend])]
      refine (retryLast hs hhand
        (t := { u.senders (f.storeAt f.storeWB) with pktToSend := false }) rfl rfl).bind
        (fun u₁ hu₁ => ?_)
      obtain ⟨hi₁, hkept, hlonger, hsender⟩ := hu₁
      dsimp only
      rw [if_neg (by rw [hsender]; simp)]
      exact .ok ⟨hi₁, { hkept with }, fun _ _ => hlonger⟩
    · exact .ok (hstay (hrejected _ hrej))
  have hidle : u.isStoreBlocked = false →
      Yields (recvRetry cfg env u)
        (fun u' => Progress cfg env u u' h (u.isStoreBlocked = true)) := by
    intro hb
    unfold recvRetry
    rw [if_neg (by rw [hb]; simp)]
    exact .ok (hstay (fun _ => hb))
  cases hi.inHand with
  | idle hhand => exact hidle (congrArg Hand.isStoreBlocked hhand)
  | busy hout hhand hheld =>
  have hs : Sending cfg u h f _ _ := ⟨hi.aside, hout, hi.freed⟩
  cases hheld with
  | pending => exact hidle (congrArg Hand.isStoreBlocked hhand)
  | @second pkt next hsend =>
    have hpk : packets cfg u h (f.storeAt f.storeWB) = [pkt, next] := hout.packets
    exact hlast hs hhand
      (inst_of_mem_packets (hpk ▸ mem_cons_of_mem _ (mem_singleton_self _))) hsend
  | @first pkt rest hsend =>
    have hpk : packets cfg u h (f.storeAt f.storeWB) = pkt :: rest := hout.packets
    have hinst : pkt.inst = f.storeAt f.storeWB := inst_of_mem_packets (hpk ▸ mem_cons_self)
    rcases hsend with ⟨rfl, hto⟩ | ⟨next, rfl, hto, hnext⟩
    · exact hlast hs hhand hinst (.inl hto)
    have hblocked : u.isStoreBlocked = true := congrArg Hand.isStoreBlocked hhand
    have hretry : u.retryPkt = some pkt := congrArg Hand.retryPkt hhand
    -- the second packet follows the first
    unfold recvRetry
    rw [if_pos hblocked]
    split
    · rename_i hnone
      rw [hretry] at hnone
      cases hnone
    rename_i pkt' hsome
    cases hretry.symm.trans hsome
    split_ifs with hrej
    · have huna := (hasUnalignedMemAcc_of_packets hpk).1
      have hne : next ≠ pkt := by
        rintro rfl
        have hnodup : (packets cfg u h (f.storeAt f.storeWB)).Nodup := packets_nodup _
        rw [hpk] at hnodup
        simp at hnodup
      have hkept : ∀ {v : LsqUnit}, Inert { u with log := u.log ++ [.accepted pkt] } v →
          Kept u v := by
        intro v hv
        have hstart : Kept u { u with log := u.log ++ [.accepted pkt] } :=
          ⟨fun _ => .refl _, rfl, rfl, prefix_append _ _⟩
        exact hstart.trans (.inert hv)
      have hgrown : u.log.length < (u.log ++ [StoreEvent.accepted pkt]).length := by
        rw [length_append]
        exact lt_add_one _
      have hsecond : Sending cfg { u with
        log := u.log ++ [.accepted pkt]
        retryPkt := none
        isStoreBlocked := false } h f _ _ := hs.accept.inert rfl
      rw [if_neg (by simp [huna, hinst, hto, hnext, hne])]
      refine Meets.bind (.ok (Q := fun v => v = { u with log := u.log ++ [.accepted pkt] }) rfl) ?_
      rintro _ rfl
      dsimp only
      rw [if_pos (by simp [huna, hinst, hto]), hinst, hnext]
      refine (sendLast_spec hsecond rfl).mono (fun u' hu' => ?_)
      rcases hu' with hu' | ⟨hrej, rfl⟩
      · obtain ⟨head, hi'⟩ := hu'.inv (hand_retried hhand)
        exact ⟨⟨_, _, hi'⟩, .trans (by exact hkept rfl) hu'.kept,
          fun _ _ => hgrown.trans hu'.longer⟩
      · exact ⟨⟨f, [pkt], hs.accept.inv rfl (hand_blocked (hand_retried hhand) next)
          (.second (.inr hnext))⟩, hkept rfl, fun _ _ => hgrown⟩
    · exact .ok (hstay (hrejected _ hrej))

/-! Answers. -/

theorem unanswered_succ (hpkt : pkt ∈ packets cfg u h pkt.inst) (hnot : pkt ∉ h.responded) :
    unanswered cfg u h pkt.inst =
      unanswered cfg u { h with responded := pkt :: h.responded } pkt.inst + 1 := by
  have hpk : packets cfg u { h with responded := pkt :: h.responded } pkt.inst =
      packets cfg u h pkt.inst := packets_congr rfl rfl Iff.rfl
  unfold unanswered
  rw [hpk]
  have hnodup : (packets cfg u h pkt.inst).Nodup := packets_nodup _
  have hmem : pkt ∈ (packets cfg u h pkt.inst).filter (· ∉ h.responded) := by
    simpa using ⟨hpkt, hnot⟩
  have herase : (packets cfg u h pkt.inst).filter (· ∉ pkt :: h.responded) =
      ((packets cfg u h pkt.inst).filter (· ∉ h.responded)).erase pkt := by
    rw [(hnodup.filter _).erase_eq_filter, filter_filter]
    refine filter_congr (fun pk _ => ?_)
    simp [bne]
    grind
  rw [herase, length_erase_of_mem hmem]
  have := length_pos_of_mem hmem
  omega

theorem Held.congr (hh : Held t hd part rest) (hto : t'.pktToSend = t.pktToSend)
    (hnext : t'.pendingPacket = t.pendingPacket) : Held t' hd part rest := by
  cases hh with
  | first hsend => exact .first (by rwa [hto, hnext])
  | second hsend => exact .second (by rwa [hto, hnext])
  | pending hsend => exact .pending (hto.trans hsend)

section

variable (hi : Inv cfg u h f part)
include hi

theorem respond_inv (hacc : StoreEvent.accepted pkt ∈ u.log)
    (hidx : s'.idx = (u.senders pkt.inst).idx)
    (hout : cfg.hasUnalignedMemAcc = true → s'.outstanding =
      unanswered cfg u { h with responded := pkt :: h.responded } pkt.inst)
    (hto : s'.pktToSend = (u.senders pkt.inst).pktToSend)
    (hpending : s'.pendingPacket = (u.senders pkt.inst).pendingPacket)
    (hmore : ∃ pk ∈ packets cfg u h pkt.inst, pk ∉ pkt :: h.responded) :
    Inv cfg (u.setSender pkt.inst s') { h with responded := pkt :: h.responded } f part := by
  have hself : (u.setSender pkt.inst s').senders pkt.inst = s' := update_self _ _ _
  refine (hi.aside.respond (mem_accepted.mpr hacc) hidx hout hmore).inv ?_ hi.freed
  cases hi.inHand with
  | idle hhand hstart => exact .idle hhand hstart
  | busy ho hhand hheld =>
    by_cases hs : f.storeAt f.storeWB = pkt.inst
    · have hserved := ho.served.1
      rw [hs] at hserved hheld
      refine .busy { ho with served := ?_ } hhand ?_
      · unfold Served
        rw [hs, hself, hidx]
        exact ⟨hserved, hout⟩
      · rw [hs, hself]
        exact hheld.congr hto hpending
    · have hother : (u.setSender pkt.inst s').senders (f.storeAt f.storeWB) =
          u.senders (f.storeAt f.storeWB) := update_of_ne hs _ _
      exact .busy { ho with served := ho.served.other hs hother rfl rfl } hhand (by rwa [hother])

theorem complete_inv (s' : SenderState)
    (hp : f.storeHead ≤ p) (hp' : p < f.storeWB) (hat : f.storeAt p = pkt.inst)
    (hc : (u.storeQueue (p % cfg.sqEntries)).completed = false)
    (hprefetch : (u.insts pkt.inst).isDataPrefetch = false) (hacc : StoreEvent.accepted pkt ∈ u.log)
    (hall : ∀ pk ∈ packets cfg u h pkt.inst, pk ∈ pkt :: h.responded) :
    Yields (completeStore cfg (p % cfg.sqEntries) (u.setSender pkt.inst s'))
      (fun u' => (∃ f' part',
          Inv cfg u' { h with responded := pkt :: h.responded } f' part') ∧ Kept u u' ∧
        StoreEvent.completed pkt.inst ∈ u'.log) := by
  have hw := hi.stores
  have hroom := hw.room
  have hwbt := hw.wb_le
  have hhead := hw.head_le
  have hw' : StoreWindow cfg (u.setSender pkt.inst s') h.lastSeqNum f := { hw with }
  have hstop : f.storeWB = f.storeTail ∨
      (u.storeQueue (f.storeWB % cfg.sqEntries)).completed = false :=
    (Nat.eq_or_lt_of_le hwbt).imp_right (hi.entries.waiting _ le_rfl)
  have hcomplete := hi.aside.complete s' hp hp' hat hc hprefetch (mem_accepted.mpr hacc) hall
  have hset : EntrySet cfg u (completeAt cfg (u.setSender pkt.inst s') p pkt.inst) f p
      { u.storeQueue (p % cfg.sqEntries) with completed := true } := ⟨hp, by omega, hroom, rfl⟩
  refine (completeStore_eq hw' hp (by omega) hp' hwbt hstop hi.freed).mono
    (fun u' ⟨c, stalled, isn, hle, hle', hdone, hfreed, heq⟩ => ?_)
  have hpop := hcomplete.pop (c := c) hle hle' (fun p₁ h1 h2 => by
    obtain rfl | hp₁ := eq_or_ne p₁ p
    · rw [hset.self]
    · rw [hset.other h1 (by omega) hp₁]
      exact (hdone p₁ h1 h2).resolve_left hp₁)
  rw [hat] at heq
  subst heq
  refine ⟨⟨{ f with storeHead := c }, part, Aside.inv (hpop.inert rfl) ?_ hfreed⟩,
    ⟨fun _ => .refl _, rfl, rfl, prefix_append _ _⟩, mem_append_right _ (mem_singleton_self _)⟩
  cases hi.inHand with
  | idle hhand hstart =>
    exact .idle hhand (fun hlt => (hset.keeps SQEntry.committed rfl _).trans (hstart hlt))
  | busy ho hhand hheld =>
    -- the store in hand is another one
    have hne : f.storeAt f.storeWB ≠ pkt.inst := by
      rw [← hat]
      exact hw.storeAt_ne hp (by omega) hhead ho.lt (by omega)
    have hsender : (completeAt cfg (u.setSender pkt.inst s') p pkt.inst).senders
        (f.storeAt f.storeWB) = u.senders (f.storeAt f.storeWB) := update_of_ne hne _ _
    have hpk : packets cfg (completeAt cfg (u.setSender pkt.inst s') p pkt.inst)
        { h with responded := pkt :: h.responded } (f.storeAt f.storeWB) =
        packets cfg u h (f.storeAt f.storeWB) := by
      refine packets_congr rfl rfl (mem_append.trans (or_iff_left ?_))
      rw [mem_singleton]
      exact nofun
    rw [← hsender] at hheld
    exact .busy ⟨ho.lt, (hset.keeps SQEntry.canWB rfl _).trans ho.canWB, hpk.trans ho.packets,
      ho.served.other hne hsender hpk rfl, fun ht => if_pos ht⟩ hhand hheld

/-- A packet that the cache has is of a store that has been passed, or of the one in hand. -/
theorem Inv.find (hacc : StoreEvent.accepted pkt ∈ u.log) (hnot : pkt ∉ h.responded) :
    pkt ∈ packets cfg u h pkt.inst ∧
      ((∃ p, f.storeHead ≤ p ∧ p < f.storeWB ∧ f.storeAt p = pkt.inst ∧
        (u.storeQueue (p % cfg.sqEntries)).completed = false ∧ Served cfg u h pkt.inst p) ∨
      f.storeWB < f.storeTail ∧ f.storeAt f.storeWB = pkt.inst ∧ Served cfg u h pkt.inst f.storeWB ∧
        ∃ pk ∈ packets cfg u h pkt.inst, pk ∉ pkt :: h.responded) := by
  have hmem := mem_accepted.mpr hacc
  rw [hi.service.accepted, mem_append, mem_flatMap] at hmem
  rcases hmem with ⟨s, hadv, hpkt⟩ | hpart
  · have hinst := inst_of_mem_packets hpkt
    subst hinst
    refine ⟨hpkt, .inl ?_⟩
    rcases hi.service.done _ hadv with hc | ⟨p, h1, h2, h3, h4⟩
    · exact absurd (hi.service.answered _ hc pkt hpkt) hnot
    · refine ⟨p, h1, h2, h3, h4, ?_⟩
      rcases hi.service.served p h1 h2 h4 with ⟨hpre, -⟩ | ⟨hserved, -⟩
      · rw [h3, prefetch_of_packets hpkt] at hpre
        cases hpre
      · rwa [h3] at hserved
  cases hi.inHand with
  | idle => cases hpart
  | @busy _ rest _ ho _ hheld =>
    have hs : Sending cfg u h f part rest := ⟨hi.aside, ho, hi.freed⟩
    obtain ⟨next, hnext⟩ : ∃ next, next ∈ rest := by
      cases hheld with
      | first => cases hpart
      | second | pending => exact ⟨_, mem_singleton_self _⟩
    have hnodup : (packets cfg u h (f.storeAt f.storeWB)).Nodup := packets_nodup _
    have hmem : pkt ∈ packets cfg u h (f.storeAt f.storeWB) := by
      rw [ho.packets]
      exact mem_append_left _ hpart
    have hinst := inst_of_mem_packets hmem
    rw [hinst]
    refine ⟨hmem, .inr ⟨ho.lt, rfl, ho.served, next, ?_, fun hin => ?_⟩⟩
    · rw [ho.packets]
      exact mem_append_right _ hnext
    · rw [ho.packets] at hnodup
      rcases mem_cons.mp hin with rfl | hin
      · exact disjoint_of_nodup_append hnodup hpart hnext
      · exact hs.unsent hnext hin

theorem completeDataAccess_spec (hacc : StoreEvent.accepted pkt ∈ u.log)
    (hnot : pkt ∉ h.responded) :
    Yields (completeDataAccess cfg pkt u) (fun u' =>
      (∃ f' part', Inv cfg u' { h with responded := pkt :: h.responded } f' part') ∧ Kept u u' ∧
        ((∀ pk ∈ packets cfg u h pkt.inst, pk ∈ pkt :: h.responded) →
          StoreEvent.completed pkt.inst ∈ u'.log)) := by
  obtain ⟨hpkt, hwhere⟩ := hi.find hacc hnot
  have hsucc := unanswered_succ hpkt hnot
  have hpk : packets cfg u { h with responded := pkt :: h.responded } pkt.inst =
      packets cfg u h pkt.inst := packets_congr rfl rfl Iff.rfl
  have hserved : ∃ p, Served cfg u h pkt.inst p := by
    rcases hwhere with ⟨p, -, -, -, -, hs⟩ | ⟨-, -, hs, -⟩
    · exact ⟨p, hs⟩
    · exact ⟨_, hs⟩
  obtain ⟨p₀, hserved⟩ := hserved
  unfold completeDataAccess
  dsimp only
  by_cases hall : ∀ pk ∈ packets cfg u h pkt.inst, pk ∈ pkt :: h.responded
  · -- the last answer
    obtain ⟨p, h1, h2, h3, h4, hs⟩ : ∃ p, f.storeHead ≤ p ∧ p < f.storeWB ∧ f.storeAt p = pkt.inst ∧
        (u.storeQueue (p % cfg.sqEntries)).completed = false ∧ Served cfg u h pkt.inst p := by
      rcases hwhere with hw | ⟨-, -, -, pk, hmem, hno⟩
      · exact hw
      · exact absurd (hall pk hmem) hno
    have hzero : unanswered cfg u { h with responded := pkt :: h.responded } pkt.inst = 0 := by
      unfold unanswered
      rw [hpk, length_eq_zero_iff, filter_eq_nil_iff]
      intro pk hmem
      rw [decide_eq_true_eq, not_not]
      exact hall pk hmem
    have hlive : (u.insts pkt.inst).squashed = false := by
      rw [← h3]
      exact hi.stores.live p h1 (h2.trans_le hi.stores.wb_le)
    rw [if_neg, if_neg (by change ¬(u.insts pkt.inst).squashed = true; simp [hlive])]
    · have hidx : (if cfg.hasUnalignedMemAcc = true then
          { u.senders pkt.inst with outstanding := (u.senders pkt.inst).outstanding - 1 }
          else u.senders pkt.inst).idx = p % cfg.sqEntries := by
        split <;> exact hs.1
      rw [hidx]
      exact (complete_inv hi _ h1 h2 h3 h4 (prefetch_of_packets hpkt) hacc hall).mono
        (fun u' hu' => ⟨hu'.1, hu'.2.1, fun _ => hu'.2.2⟩)
    · by_cases huna : cfg.hasUnalignedMemAcc = true
      · have hout := hserved.2 huna
        simp [huna, hout, hsucc, hzero]
      · simp [huna]
  · have hmore : ∃ pk ∈ packets cfg u h pkt.inst, pk ∉ pkt :: h.responded := by
      by_contra hno
      refine hall (fun pk hmem => ?_)
      by_contra hn
      exact hno ⟨pk, hmem, hn⟩
    -- there are two packets
    have huna : cfg.hasUnalignedMemAcc = true := by
      obtain ⟨pk, hmem, hn⟩ := hmore
      have hne : pk ≠ pkt := fun heq => hn (heq ▸ .head _)
      match hlist : packets cfg u h pkt.inst with
      | [] =>
        rw [hlist] at hmem
        cases hmem
      | [x] =>
        rw [hlist] at hmem hpkt
        exact absurd ((mem_singleton.mp hmem).trans (mem_singleton.mp hpkt).symm) hne
      | x :: y :: rest => exact (hasUnalignedMemAcc_of_packets hlist).1
    have hout := hserved.2 huna
    have hpos : unanswered cfg u { h with responded := pkt :: h.responded } pkt.inst ≠ 0 := by
      obtain ⟨pk, hmem, hn⟩ := hmore
      unfold unanswered
      rw [hpk]
      have hfilter : pk ∈ (packets cfg u h pkt.inst).filter (· ∉ pkt :: h.responded) :=
        mem_filter.mpr ⟨hmem, by simpa using hn⟩
      exact (length_pos_of_mem hfilter).ne'
    rw [if_pos huna, if_pos (by simp [huna, hout, hsucc, hpos])]
    refine .ok ⟨⟨f, part, respond_inv hi hacc rfl (fun _ => ?_) rfl rfl hmore⟩,
      ⟨fun _ => .refl _, rfl, rfl, prefix_rfl⟩, fun hno => absurd hno hall⟩
    dsimp only
    omega

end

end Gem5.O3.LsqUnit
