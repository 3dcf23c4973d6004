import Gem5.Garnet.Lanes

namespace Gem5.Garnet

open Lib Function

variable {X : Heaps} {cfg : Config}

/-- The lanes with another one for a VC of a link. -/
def setLane (lanes : Port → Nat → Lane) (source : Port) (v : Nat) (ℓ : Lane) : Port → Nat → Lane :=
  Function.update lanes source (Function.update (lanes source) v ℓ)

theorem setLane_self (lanes : Port → Nat → Lane) (source : Port) (v : Nat) (ℓ : Lane) :
    setLane lanes source v ℓ source v = ℓ := by
  unfold setLane
  rw [update_self, update_self]

theorem setLane_other (h : ¬ (source' = source ∧ v' = v)) :
    setLane lanes source v ℓ source' v' = lanes source' v' := by
  unfold setLane
  obtain rfl | hs := eq_or_ne source' source
  · rw [update_self, update_of_ne (fun hv => h ⟨rfl, hv⟩)]
  · rw [update_of_ne hs]

/-- What a new lane has in common with the one in its place. -/
theorem setLane_keeps (g : Lane → α) (hg : g ℓ = g (lanes source v)) (source' : Port) (v' : Nat) :
    g (setLane lanes source v ℓ source' v') = g (lanes source' v') := by
  by_cases h : source' = source ∧ v' = v
  · rw [h.1, h.2, setLane_self, hg]
  · rw [setLane_other h]

namespace LaneAt

variable {s : Net X} {source : Port} {v : Nat} {ℓ : Lane}

theorem setChannel (h : LaneAt cfg s source v ℓ) (hne : source ≠ source')
    (ch : Channel X) : LaneAt cfg (s.setChannel source' ch) source v ℓ := by
  have hsame := s.channels_setChannel_of_ne hne ch
  refine ⟨?_, ?_, h.toNode, h.fromNode, h.fromRouter⟩
  · rw [hsame]
    exact h.channel
  · rw [hsame]
    exact h.toRouter

theorem ofChannel (h : LaneAt cfg s source v ℓ) (hch : ch.At v (cfg.maxCreditCount v) s.now ℓ')
    (hto : ∀ r p, cfg.wiring source = .router r p → (ch.vcs v).At s.now ℓ')
    (hnode : ∀ n, cfg.wiring source = .ni n → ℓ'.arrived = ℓ'.forwarded)
    (hpacket : ℓ'.packet = ℓ.packet) (hbusy : ℓ'.busy = ℓ.busy) (hsent : ℓ'.sent = ℓ.sent)
    (hqueued : ℓ'.queued = ℓ.queued) : LaneAt cfg (s.setChannel source ch) source v ℓ' := by
  have hself := s.channels_setChannel_self source ch
  refine ⟨?_, ?_, hnode, fun n hn => ?_, fun r o hro => ⟨?_⟩⟩
  · rw [hself]
    exact hch
  · rw [hself]
    exact hto
  · have hni := h.fromNode n hn
    refine ⟨?_, hni.vc, by rw [hqueued, hsent, hni.queued]⟩
    unfold Lane.toSend
    rw [hpacket, hbusy, hsent]
    exact hni.buffer
  · rw [hpacket, hqueued, hsent]
    exact (h.fromRouter r o hro).switch

end LaneAt

/-- A change of a channel that leaves its input VCs alone changes no ownership. -/
theorem Owns.of_setChannel (h : Owns cfg (s.setChannel source ch) r source' u o w)
    (hvcs : ch.vcs = (s.channels source).vcs) : Owns cfg s r source' u o w := by
  have hvc := s.keeps_setChannel (Channel.vcs · u) (congrFun hvcs u) source'
  exact ⟨h.target, hvc ▸ h.outport, hvc ▸ h.outvc⟩

/-- If one VC of a channel changes, what is owned afterwards was so before, or by this VC. -/
theorem Owns.of_setVc {s : Net X} (h : Owns cfg (s.setChannel inp ch) r source u o w)
    (hother : ∀ u', u' ≠ invc → ch.vcs u' = (s.channels inp).vcs u') :
    Owns cfg s r source u o w ∨ source = inp ∧ u = invc ∧ (ch.vcs invc).outport = some o ∧
      (ch.vcs invc).outvc = some w := by
  have hport := h.outport
  have hout := h.outvc
  obtain rfl | hs := eq_or_ne source inp
  · rw [s.channels_setChannel_self] at hport hout
    obtain rfl | hu := eq_or_ne u invc
    · exact .inr ⟨rfl, rfl, hport, hout⟩
    · rw [hother u hu] at hport hout
      exact .inl ⟨h.target, hport, hout⟩
  · rw [s.channels_setChannel_of_ne hs] at hport hout
    exact .inl ⟨h.target, hport, hout⟩

/-- The faults that come from a network's routes and from the protocol's buffers. -/
def Benign : Fault → Prop
  | .noRoute | .badDirection | .customRouting | .protocolBuffer => True
  | _ => False

namespace Lanes

variable {s s' : Net X} {lanes : Port → Nat → Lane}

section

variable (h : Lanes cfg s lanes)
include h

theorem change (hlane : LaneAt cfg s' source v ℓ)
    (hother : ∀ source' v', ¬ (source' = source ∧ v' = v) →
      LaneAt cfg s' source' v' (lanes source' v'))
    (howns : ∀ r source' u o w, Owns cfg s' r source' u o w → Owns cfg s r source' u o w)
    (hout : ∀ r o, source = .router r o → ∀ source' u, Owns cfg s r source' u o v →
      ℓ.busy = (lanes source v).busy ∧ ℓ.packet = (lanes source v).packet ∧
        ℓ.sent = (lanes source v).sent) (hin : ∀ r o w, Owns cfg s r source v o w →
      ℓ.packet = (lanes source v).packet ∧ ℓ.forwarded = (lanes source v).forwarded) :
    Lanes cfg s' (setLane lanes source v ℓ) := by
  refine ⟨fun source' v' => ?_, fun r source' u o w hown => ?_,
    fun r source' source'' u u' o w h₁ h₂ => h.unique r source' source'' u u' o w
      (howns _ _ _ _ _ h₁) (howns _ _ _ _ _ h₂)⟩
  · by_cases hself : source' = source ∧ v' = v
    · rw [hself.1, hself.2, setLane_self]
      exact hlane
    · rw [setLane_other hself]
      exact hother source' v' hself
  have hold := howns _ _ _ _ _ hown
  obtain ⟨hbusy, hpacket, hsent, hvnet, hne⟩ := h.owner r source' u o w hold
  -- what the input VC has forwarded, and what it has sent
  have hfwd : (setLane lanes source v ℓ source' u).packet = (lanes source' u).packet ∧
      (setLane lanes source v ℓ source' u).forwarded = (lanes source' u).forwarded := by
    by_cases hself : source' = source ∧ u = v
    · obtain ⟨rfl, rfl⟩ := hself
      rw [setLane_self]
      exact hin r o w hold
    · rw [setLane_other hself]
      exact ⟨rfl, rfl⟩
  rw [hfwd.1, hfwd.2]
  by_cases hself : Port.router r o = source ∧ w = v
  · obtain ⟨rfl, rfl⟩ := hself
    rw [setLane_self]
    obtain ⟨hb, hp, hs⟩ := hout r o rfl source' u hold
    exact ⟨hb.trans hbusy, hp.trans hpacket, hs.trans hsent, hvnet, hne⟩
  · rw [setLane_other hself]
    exact ⟨hbusy, hpacket, hsent, hvnet, hne⟩

theorem of_eq (hnow : s'.now = s.now) (hch : s'.channels = s.channels)
    (hnis : ∀ n, (s'.nis n).outVcBuffers = (s.nis n).outVcBuffers)
    (hrouters : ∀ r, (s'.routers r).switchBuffer = (s.routers r).switchBuffer) :
    Lanes cfg s' lanes := by
  have howns : ∀ r source u o w, Owns cfg s' r source u o w → Owns cfg s r source u o w := by
    intro r source u o w hown
    refine ⟨hown.target, ?_, ?_⟩
    · rw [← hch]
      exact hown.outport
    · rw [← hch]
      exact hown.outvc
  refine ⟨fun source v => ?_, fun r source u o v hown => h.owner r source u o v
    (howns _ _ _ _ _ hown),
    fun r source source' u u' o v h₁ h₂ => h.unique r source source' u u' o v
      (howns _ _ _ _ _ h₁) (howns _ _ _ _ _ h₂)⟩
  have hl := h.lane source v
  refine ⟨?_, ?_, hl.toNode, fun n hn => ?_, fun r o hro => ⟨?_⟩⟩
  · rw [hch, hnow]
    exact hl.channel
  · rw [hch, hnow]
    exact hl.toRouter
  · have hni := hl.fromNode n hn
    refine ⟨?_, ?_, hni.queued⟩
    · rw [hnis]
      exact hni.buffer
    · rw [hnis, hnow]
      exact hni.vc
  · rw [hrouters]
    exact (hl.fromRouter r o hro).switch

theorem schedule (c : Component) (time : Nat) : Lanes cfg (s.schedule c time) lanes :=
  h.of_eq rfl rfl (fun _ => rfl) (fun _ => rfl)

theorem setNi (hni : ni.outVcBuffers = (s.nis n).outVcBuffers) :
    Lanes cfg (s.setNi n ni) lanes := by
  refine h.of_eq rfl rfl (fun m => ?_) (fun _ => rfl)
  obtain rfl | hm := eq_or_ne m n
  · rw [s.nis_setNi_self, hni]
  · rw [s.nis_setNi_of_ne hm]

theorem setRouter {router : RouterState}
    (hrouter : router.switchBuffer = (s.routers r).switchBuffer) :
    Lanes cfg (s.setRouter r router) lanes := by
  refine h.of_eq rfl rfl (fun _ => rfl) (fun r' => ?_)
  obtain rfl | hr := eq_or_ne r' r
  · rw [s.routers_setRouter_self, hrouter]
  · rw [s.routers_setRouter_of_ne hr]

theorem tick : Lanes cfg { s with now := s.now + 1 } lanes := by
  refine ⟨fun source v => ?_, fun r source u o v hown => h.owner r source u o v
      { hown with },
    fun r source source' u u' o v h₁ h₂ => h.unique r source source' u u' o v
      { h₁ with } { h₂ with }⟩
  have hl := h.lane source v
  refine ⟨hl.channel.later (Nat.le_succ _), fun r p hp => (hl.toRouter r p hp).later
    (Nat.le_succ _),
    hl.toNode, fun n hn => ?_, hl.fromRouter⟩
  have hni := hl.fromNode n hn
  exact { hni with vc := fun f hf => ⟨(hni.vc f hf).1, (hni.vc f hf).2.trans (Nat.le_succ _)⟩ }

/-- The other lanes after a change of one channel that leaves its input VCs alone. -/
theorem setChannel_other
    (hother : ∀ u, u ≠ v → ch.At u (cfg.maxCreditCount u) s.now (lanes source u))
    (hvcs : ch.vcs = (s.channels source).vcs) (source' : Port) (v' : Nat)
    (hne : ¬ (source' = source ∧ v' = v)) :
    LaneAt cfg (s.setChannel source ch) source' v' (lanes source' v') := by
  have hl := h.lane source' v'
  obtain rfl | hs := eq_or_ne source' source
  · refine hl.ofChannel (hother v' (fun hv => hne ⟨rfl, hv⟩)) (fun r p hp => ?_) hl.toNode rfl rfl
      rfl rfl
    rw [hvcs]
    exact hl.toRouter r p hp
  · exact hl.setChannel hs ch

theorem changeChannel (hch : ch.At v (cfg.maxCreditCount v) s.now ℓ)
    (hother : ∀ u, u ≠ v → ch.At u (cfg.maxCreditCount u) s.now (lanes source u))
    (hvcs : ch.vcs = (s.channels source).vcs)
    (hpacket : ℓ.packet = (lanes source v).packet) (hbusy : ℓ.busy = (lanes source v).busy)
    (hsent : ℓ.sent = (lanes source v).sent) (hqueued : ℓ.queued = (lanes source v).queued)
    (harrived : ℓ.arrived = (lanes source v).arrived)
    (hforwarded : ℓ.forwarded = (lanes source v).forwarded) :
    Lanes cfg (s.setChannel source ch) (setLane lanes source v ℓ) := by
  refine h.change ?_ (h.setChannel_other hother hvcs)
    (fun _ _ _ _ _ hown => hown.of_setChannel hvcs)
    (fun _ _ _ _ _ _ => ⟨hbusy, hpacket, hsent⟩) (fun _ _ _ _ => ⟨hpacket, hforwarded⟩)
  have hl := h.lane source v
  refine hl.ofChannel hch (fun r p hp => ?_) (fun n hn => ?_) hpacket hbusy hsent hqueued
  · rw [hvcs]
    exact (hl.toRouter r p hp).congr hpacket harrived hforwarded
  · rw [harrived, hforwarded]
    exact hl.toNode n hn

theorem link (source : Port)
    (htimes : ∀ f ∈ (s.channels source).linkBuffer.items, f.time ≤ s.now + cfg.linkLatency source) :
    ∃ lanes', Lanes cfg (NetworkLink.wakeup cfg source s) lanes' := by
  unfold NetworkLink.wakeup
  dsimp only
  split
  · exact ⟨lanes, h⟩
  rename_i f rest hpop
  refine ⟨setLane lanes source f.vc
    { lanes source f.vc with linked := (lanes source f.vc).linked + 1 }, ?_⟩
  exact (h.changeChannel ((h.lane source f.vc).channel.link hpop rfl htimes)
    (fun u hu => (h.lane source u).channel.link_other hpop hu.symm) rfl rfl rfl rfl rfl rfl
    rfl).schedule _ _

theorem creditLink (source : Port) (htimes : ∀ c ∈ (s.channels source).creditBuffer.items,
      c.time < s.now + cfg.creditLatency source) :
    ∃ lanes', Lanes cfg (CreditLink.wakeup cfg source s) lanes' := by
  unfold CreditLink.wakeup
  dsimp only
  split
  · exact ⟨lanes, h⟩
  rename_i c rest hpop
  refine ⟨setLane lanes source c.vc
    { lanes source c.vc with returned := (lanes source c.vc).returned + 1 }, ?_⟩
  exact (h.changeChannel ((h.lane source c.vc).channel.returnLink hpop rfl htimes)
    (fun u hu => (h.lane source u).channel.returnLink_other hpop hu.symm) rfl rfl rfl rfl rfl rfl
    rfl).schedule _ _

theorem unfinished (hown : Owns cfg s r source u o v) :
    ((s.channels source).vcs u).state = .active ∧ 0 < (lanes source u).arrived ∧
      (lanes source u).forwarded < (lanes source u).packet.size := by
  obtain ⟨p, hp⟩ := hown.target
  have hvc := (h.lane source u).toRouter r p hp
  have hstate := hvc.state
  split_ifs at hstate with hcond
  · exact ⟨hstate, hcond⟩
  · have hnone := hvc.idle hstate
    rw [hown.outvc] at hnone
    cases hnone

/-- A credit comes back. The last one of a packet finds that all flits were forwarded. -/
theorem takeCredit (source : Port) :
    Meets ((s.channels source).takeCredit cfg.maxCreditCount s.now) Benign
      (fun ch => ∃ lanes', Lanes cfg (s.setChannel source ch) lanes') := by
  unfold Channel.takeCredit
  split
  · refine .ok ⟨lanes, h.of_eq rfl ?_ (fun _ => rfl) (fun _ => rfl)⟩
    exact update_eq_self _ _
  rename_i c rest hpop
  have hl := h.lane source c.vc
  obtain ⟨hlt, hfree, hrest⟩ := hl.channel.credit_lt hpop rfl
  obtain ⟨-, hrf, hfa, hal, hlq, hqs, hsize⟩ := hl.chain
  have hcredit := hl.channel.credit
  have hbusy : (lanes source c.vc).busy = true := by
    by_contra hnot
    have := hl.channel.free (Bool.eq_false_iff.mpr hnot)
    omega
  unfold OutVcState.incrementCredit
  rw [if_pos (by omega)]
  refine .ok ?_
  have hself : ∀ o, (({ s.channels source with creditBuffer := rest }).setOutVc c.vc o).outVcs
      c.vc = o := fun o => update_self _ _ _
  by_cases hlast : (lanes source c.vc).credited + 1 = (lanes source c.vc).packet.size
  · rw [if_pos (hfree.trans (decide_eq_true hlast))]
    refine ⟨setLane lanes source c.vc (.free (lanes source c.vc).packet), ?_⟩
    -- all flits were forwarded, so that no input VC has anything to do with the lane
    refine h.change ?_ (h.setChannel_other
      (fun u hu => (h.lane source u).channel.takeCredit_other hpop hu.symm _) rfl)
      (fun _ _ _ _ _ hown => hown.of_setChannel rfl)
      (fun r o hro source' u hown => ?_) (fun r o w hown => ?_)
    · have hch := hl.channel
      refine ⟨?_, fun r p hp => ?_, fun _ _ => rfl, fun n hn => ?_, fun r o hro => ⟨?_⟩⟩
      · rw [s.channels_setChannel_self]
        refine ⟨Nat.zero_le _, fun _ => rfl, fun hb => absurd hb Bool.false_ne_true, ?_, ?_, ?_,
          hch.outQueue.reset ?_ 0, hch.linkBuffer.reset ?_ 0, hch.creditQueue.reset ?_ 0,
          hrest.reset ?_ 0⟩
        · rw [hself]
          rfl
        · rw [hself]
          exact le_rfl
        · rw [hself]
          dsimp only [OutVcState.setState, Lane.free]
          omega
        all_goals omega
      · rw [s.channels_setChannel_self]
        have hvc := hl.toRouter r p hp
        have hidle : ((s.channels source).vcs c.vc).state = .idle := by
          rw [hvc.state, if_neg (by omega)]
        refine ⟨hvc.buffer.reset (by omega) 0, hvc.times, ?_, hvc.stateTime, hvc.idle, hvc.outport,
          fun _ _ => rfl⟩
        exact hidle.trans (if_neg (fun hcond => lt_irrefl 0 hcond.1)).symm
      · have hni := hl.fromNode n hn
        refine ⟨hni.buffer.reset ?_ 0, hni.vc, rfl⟩
        unfold Lane.toSend
        rw [if_pos hbusy]
        omega
      · exact (hl.fromRouter r o hro).switch.reset (by omega) 0
    · subst hro
      obtain ⟨-, hpacket, hsent, -⟩ := h.owner r source' u o c.vc hown
      obtain ⟨-, -, hfwd⟩ := h.unfinished hown
      rw [← hpacket, ← hsent] at hfwd
      omega
    · obtain ⟨-, -, hfwd⟩ := h.unfinished hown
      omega
  · rw [if_neg (by rw [hfree]; simpa using hlast)]
    refine ⟨setLane lanes source c.vc
      { lanes source c.vc with credited := (lanes source c.vc).credited + 1 }, h.changeChannel ?_
      (fun u hu => (h.lane source u).channel.takeCredit_other hpop hu.symm _)
      rfl rfl rfl rfl rfl rfl rfl⟩
    refine { hl.channel with
      unfinished := fun _ => ?_
      state := ?_
      time := ?_
      credit := ?_
      creditBuffer := hrest }
    · dsimp only
      omega
    · rw [hself]
      exact hl.channel.state
    · rw [hself]
      exact hl.channel.time
    · rw [hself]
      dsimp only
      omega

end

end Lanes

end Gem5.Garnet
