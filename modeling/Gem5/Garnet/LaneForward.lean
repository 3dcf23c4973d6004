import Gem5.Garnet.LaneSwitch

namespace Gem5.Garnet

open Lib List Function SwitchAllocator

variable {X : Heaps} {cfg : Config}

/-- The top flit of an input VC is the next one of its packet. The last one leaves the VC
empty, and idle. -/
theorem VirtualChannel.At.release {vc : VirtualChannel X} {now : Nat} {ℓ : Lane} (h : vc.At now ℓ)
    (hle : ℓ.arrived ≤ ℓ.packet.size) (hout : vc.outvc ≠ none) {f : Flit}
    (hfront : vc.buffer.front = some f) :
    f.packet = ℓ.packet ∧ f.id = ℓ.forwarded ∧ f.time ≤ now ∧ ℓ.forwarded < ℓ.packet.size ∧
      f.isTail = decide (ℓ.forwarded + 1 = ℓ.packet.size) ∧
      Meets (release { vc with buffer := vc.buffer.drop } f now) Benign (fun v =>
        v.At now { ℓ with forwarded := ℓ.forwarded + 1 } ∧
        (v.outvc = none ∨ v.outvc = vc.outvc ∧ v.outport = vc.outport)) := by
  obtain ⟨hlt, htag, hrest⟩ := h.buffer.drop hfront rfl
  obtain ⟨hpacket, hid⟩ := Prod.mk.inj htag
  have hperm := (PQueue.front_eq_some hfront).1
  have hactive := h.active_of_front hle hfront
  have htail : f.isTail = decide (ℓ.forwarded + 1 = ℓ.packet.size) := by
    rw [Bool.eq_iff_iff, Flit.isTail_iff (by rw [hpacket]; omega), decide_eq_true_iff, hid, hpacket]
  have htimes : ∀ g ∈ vc.buffer.drop.items, g.time ≤ now :=
    fun g hg => h.times g (hperm.mem_iff.mpr (.tail _ hg))
  refine ⟨hpacket, hid, h.times f (hperm.mem_iff.mpr mem_cons_self), by omega, htail, ?_⟩
  unfold SwitchAllocator.release
  by_cases hlast : ℓ.forwarded + 1 = ℓ.packet.size
  · rw [if_pos (htail.trans (decide_eq_true hlast))]
    have hempty : vc.buffer.drop.items = [] := by
      have habs := hrest.absent (by omega)
      exact eq_nil_iff_forall_not_mem.mpr (fun g hg => Bool.noConfusion (habs g hg))
    have hnot : FlitBuffer.isReady vc.buffer.drop now = false := by
      unfold FlitBuffer.isReady
      rw [PQueue.front_eq_none.mpr hempty]
      rfl
    rw [if_neg (by rw [hnot]; exact Bool.false_ne_true)]
    refine Meets.ok ⟨⟨hrest, htimes, ?_, le_rfl, fun _ => rfl, nofun,
      nofun⟩, .inl rfl⟩
    refine (if_neg ?_).symm
    dsimp only
    omega
  · rw [if_neg (by rw [htail]; simpa using hlast)]
    refine Meets.ok ⟨⟨hrest, htimes, ?_, h.stateTime, h.idle, h.outport,
      fun _ hnone => absurd hnone hout⟩, .inr ⟨rfl, rfl⟩⟩
    refine hactive.trans (if_pos ?_).symm
    dsimp only
    omega

namespace Lanes

variable {s : Net X} {lanes : Port → Nat → Lane}

theorem toSwitch (h : Lanes cfg s lanes) (hbusy : (lanes (.router r o) w).busy = true)
    (hlt : (lanes (.router r o) w).sent < (lanes (.router r o) w).packet.size)
    (hcredit : 0 < ((s.channels (.router r o)).outVcs w).creditCount)
    (hport : e.2.outport = o) (hvc : e.2.vc = w)
    (htag : (e.2.packet, e.2.id) = ((lanes (.router r o) w).packet, (lanes (.router r o) w).sent))
    (hfree : ∀ e' ∈ (s.routers r).switchBuffer, e'.2.outport ≠ o) (source : Port) (v : Nat) :
    LaneAt cfg ((s.setChannel (.router r o) ((s.channels (.router r o)).setOutVc w
        { (s.channels (.router r o)).outVcs w with
          creditCount := ((s.channels (.router r o)).outVcs w).creditCount - 1 })).setRouter r
        { s.routers r with switchBuffer := (s.routers r).switchBuffer ++ [e] }) source v
      (setLane lanes (.router r o) w
        { lanes (.router r o) w with sent := (lanes (.router r o) w).sent + 1 } source v) := by
  have hl := h.lane source v
  -- the flits at the switch are those of before and the new one
  have happend : ((s.routers r).switchBuffer ++ [e]).Perm (e :: (s.routers r).switchBuffer) :=
    perm_append_comm
  have hrouter : ∀ r' o', source = .router r' o' → ¬ (source = .router r o ∧ v = w) →
      ((s.setRouter r { s.routers r with
        switchBuffer := (s.routers r).switchBuffer ++ [e] }).routers r').At o' v
          (lanes source v) := by
    intro r' o' hro hne
    have hold := hl.fromRouter r' o' hro
    obtain rfl | hr := eq_or_ne r' r
    · rw [Net.routers_setRouter_self]
      refine ⟨(hold.switch.push_other (decide_eq_false ?_)).perm happend⟩
      rintro ⟨ho, hv⟩
      exact hne ⟨by rw [hro, ← ho, hport], hv.symm.trans hvc⟩
    · rw [Net.routers_setRouter_of_ne _ hr]
      exact hold
  obtain rfl | hs := eq_or_ne source (.router r o)
  · have hself := s.channels_setChannel_self (.router r o) ((s.channels (.router r o)).setOutVc w
      { (s.channels (.router r o)).outVcs w with
        creditCount := ((s.channels (.router r o)).outVcs w).creditCount - 1 })
    obtain rfl | hv := eq_or_ne v w
    · rw [setLane_self]
      have hold := (hl.fromRouter r o rfl).switch
      -- the lane had no flit at the switch
      have habs : ∀ e' ∈ (s.routers r).switchBuffer, decide (e'.2.outport = o ∧ e'.2.vc = v) =
          false :=
        fun e' he' => decide_eq_false (fun hcls => hfree e' he' hcls.1)
      refine ⟨?_, fun r' p hp => ?_, hl.toNode, nofun, fun r' o' hro => ?_⟩
      · refine (congrArg (fun ch : Channel X => ch.At v
          (cfg.maxCreditCount v) s.now _) hself).mpr ?_
        exact hl.channel.send hbusy hlt hcredit
      · refine (congrArg (fun ch : Channel X => (ch.vcs v).At s.now _) hself).mpr ?_
        exact (hl.toRouter r' p hp).congr rfl rfl rfl
      · cases hro
        rw [Net.routers_setRouter_self]
        refine ⟨(hold.push (decide_eq_true ⟨hport, hvc⟩) htag (fun e' he' hcls => ?_)).perm happend⟩
        exact absurd ((habs e' he').symm.trans hcls) Bool.false_ne_true
    · rw [setLane_other (fun heq => hv heq.2)]
      refine ⟨?_, fun r' p hp => ?_, hl.toNode, nofun,
        fun r' o' hro => hrouter r' o' hro (fun heq => hv heq.2)⟩
      · refine (congrArg (fun ch : Channel X => ch.At v
          (cfg.maxCreditCount v) s.now _) hself).mpr ?_
        exact hl.channel.setOutVc_other (Ne.symm hv) _
      · refine (congrArg (fun ch : Channel X => (ch.vcs v).At s.now _) hself).mpr ?_
        exact hl.toRouter r' p hp
  · rw [setLane_other (fun heq => hs heq.1)]
    have hother := hl.setChannel hs ((s.channels (.router r o)).setOutVc w
      { (s.channels (.router r o)).outVcs w with
        creditCount := ((s.channels (.router r o)).outVcs w).creditCount - 1 })
    exact ⟨hother.channel, hother.toRouter, hother.toNode, hother.fromNode,
      fun r' o' hro => hrouter r' o' hro (fun heq => hs heq.1)⟩

/-- When a VC forwards a flit, what it has forwarded is what its output VC has sent, as for all
other VCs that have one. -/
theorem forward_owner (h : Lanes cfg s lanes) (hown : Owns cfg s r inp invc o w)
    (hold : Owns cfg s r' source u o' w')
    (hmid : mid = setLane lanes (.router r o) w
      { lanes (.router r o) w with sent := (lanes (.router r o) w).sent + 1 })
    (hlanes : lanes' = setLane mid inp invc
      { lanes inp invc with forwarded := (lanes inp invc).forwarded + 1 }) :
    (lanes' (.router r' o') w').busy = true ∧
    (lanes' (.router r' o') w').packet = (lanes' source u).packet ∧
    (lanes' (.router r' o') w').sent = (lanes' source u).forwarded ∧
    cfg.vnetOf w' = cfg.vnetOf u ∧ ¬ (source = .router r' o' ∧ u = w') := by
  obtain ⟨-, -, hsent, -, hne⟩ := h.owner _ _ _ _ _ hown
  obtain ⟨hbusy, hpacket, hsent', hvnet, hne'⟩ := h.owner _ _ _ _ _ hold
  have hinp : mid inp invc = lanes inp invc := by
    rw [hmid, setLane_other hne]
  have hkeeps : ∀ {α : Type} (g : Lane → α), g (lanes inp invc) =
      g { lanes inp invc with forwarded := (lanes inp invc).forwarded + 1 } →
      ∀ source v, g (lanes' source v) = g (mid source v) := by
    intro α g hg source v
    rw [hlanes]
    exact setLane_keeps g (by rw [hinp, hg]) source v
  have hkept : ∀ {α : Type} (g : Lane → α), g (lanes (.router r o) w) =
      g { lanes (.router r o) w with sent := (lanes (.router r o) w).sent + 1 } →
      ∀ source v, g (mid source v) = g (lanes source v) := by
    intro α g hg source v
    rw [hmid]
    exact setLane_keeps g hg.symm source v
  rw [hkeeps Lane.busy rfl, hkept Lane.busy rfl, hkeeps Lane.packet rfl, hkept Lane.packet rfl,
    hkeeps Lane.packet rfl, hkept Lane.packet rfl, hkeeps Lane.sent rfl]
  refine ⟨hbusy, hpacket, ?_, hvnet, hne'⟩
  by_cases hu : source = inp ∧ u = invc
  · -- the VC that forwards: both counts go up
    obtain ⟨rfl, rfl⟩ := hu
    have ho : some o' = some o := hold.outport.symm.trans hown.outport
    have hw : some w' = some w := hold.outvc.symm.trans hown.outvc
    obtain ⟨p, hp⟩ := hown.target
    obtain ⟨p', hp'⟩ := hold.target
    rw [hp] at hp'
    cases hp'
    cases ho
    cases hw
    rw [hlanes, setLane_self, hmid, setLane_self]
    exact congrArg (· + 1) hsent
  · have hmine : ¬ (Port.router r' o' = .router r o ∧ w' = w) := by
      rintro ⟨hro, rfl⟩
      cases hro
      exact hu (h.unique _ _ _ _ _ _ _ hold hown)
    rw [hlanes, setLane_other hu, hkept Lane.forwarded rfl, hmid, setLane_other hmine]
    exact hsent'

/-- An input VC forwards the flit that was sent for it, and returns a credit. -/
theorem forward (h : Lanes cfg s lanes) (hown : Owns cfg s r inp invc o w)
    (hlane : ∀ source v, LaneAt cfg s₁ source v (setLane lanes (.router r o) w
      { lanes (.router r o) w with sent := (lanes (.router r o) w).sent + 1 } source v))
    (hvcs : ∀ source, (s₁.channels source).vcs = (s.channels source).vcs)
    (htimes : ∀ c ∈ (s₁.channels inp).creditQueue.items, c.time < s₁.now)
    (hvc : vc.At s₁.now { lanes inp invc with forwarded := (lanes inp invc).forwarded + 1 })
    (hkeep : vc.outvc = none ∨ vc.outvc = ((s.channels inp).vcs invc).outvc ∧
      vc.outport = ((s.channels inp).vcs invc).outport) :
    Lanes cfg (s₁.setChannel inp (((s₁.channels inp).setVc invc vc).returnCredit invc
        (decide ((lanes inp invc).forwarded + 1 = (lanes inp invc).packet.size)) s₁.now))
      (setLane (setLane lanes (.router r o) w
        { lanes (.router r o) w with sent := (lanes (.router r o) w).sent + 1 }) inp invc
        { lanes inp invc with forwarded := (lanes inp invc).forwarded + 1 }) := by
  obtain ⟨p, hp⟩ := hown.target
  generalize hmid : setLane lanes (.router r o) w
    { lanes (.router r o) w with sent := (lanes (.router r o) w).sent + 1 } = mid at hlane ⊢
  have hinp : mid inp invc = lanes inp invc := by
    rw [← hmid, setLane_other (h.owner _ _ _ _ _ hown).2.2.2.2]
  generalize hch : ((s₁.channels inp).setVc invc vc).returnCredit invc
    (decide ((lanes inp invc).forwarded + 1 = (lanes inp invc).packet.size)) s₁.now = ch
  have hother : ∀ u, u ≠ invc → ch.vcs u = (s₁.channels inp).vcs u :=
    fun u hu => hch ▸ Channel.vcs_setVc_of_ne _ hu vc
  have hself : ch.vcs invc = vc := hch ▸ Channel.vcs_setVc_self _ invc vc
  -- no input VC owns more than before
  have howns : ∀ r' source u o' w', Owns cfg (s₁.setChannel inp ch) r' source u o' w' →
      Owns cfg s r' source u o' w' := by
    intro r' source u o' w' hnew
    rcases hnew.of_setVc hother with hold | ⟨rfl, rfl, hport, hout⟩
    · exact ⟨hold.target, hvcs source ▸ hold.outport, hvcs source ▸ hold.outvc⟩
    · rw [hself] at hport hout
      rcases hkeep with hnone | heq
      · rw [hnone] at hout
        cases hout
      · exact ⟨hnew.target, heq.2 ▸ hport, heq.1 ▸ hout⟩
  refine ⟨fun source v => ?_,
    fun r' source u o' w' hnew => h.forward_owner hown (howns _ _ _ _ _ hnew) hmid.symm rfl,
    fun r' source source' u u' o' w' h₁ h₂ => h.unique r' source source' u u' o' w'
      (howns _ _ _ _ _ h₁) (howns _ _ _ _ _ h₂)⟩
  have hl := hlane source v
  obtain rfl | hs := eq_or_ne source inp
  · obtain rfl | hv := eq_or_ne v invc
    · rw [setLane_self]
      rw [hinp] at hl
      refine hl.ofChannel (hch ▸ (hl.channel.setVc _ _).returnCredit htimes) (fun _ _ _ => ?_)
        (fun n hn => ?_) rfl rfl rfl rfl
      · rw [hself]
        exact hvc
      · rw [hp] at hn
        cases hn
    · rw [setLane_other (fun heq => hv heq.2)]
      refine hl.ofChannel (hch ▸ (hl.channel.setVc _ _).returnCredit_other (Ne.symm hv) _)
        (fun r' p' hp' => ?_) hl.toNode rfl rfl rfl rfl
      rw [hother v hv]
      exact hl.toRouter r' p' hp'
  · rw [setLane_other (fun heq => hs heq.1)]
    exact hl.setChannel hs _

/-- The top flit of an input VC goes on to the output VC that it has. -/
theorem sendToSwitch (h : Lanes cfg s lanes) {r inport invc o w : Nat} {f : Flit}
    (hport : (SwitchAllocator.inputVc cfg s r inport invc).outport = some o)
    (hout : (SwitchAllocator.inputVc cfg s r inport invc).outvc = some w)
    (hfront : (SwitchAllocator.inputVc cfg s r inport invc).buffer.front = some f)
    (hcredit : 0 < ((s.channels (.router r o)).outVcs w).creditCount)
    (htimes : ∀ c ∈ (s.channels (cfg.linkTo (.router r inport))).creditQueue.items, c.time < s.now)
    (hfree : ∀ e ∈ (s.routers r).switchBuffer, e.2.outport ≠ o) :
    Meets (sendToSwitch cfg r o inport invc w s) Benign (fun t =>
      (∃ lanes', Lanes cfg t lanes') ∧
      s.Touches (.router r o) (cfg.linkTo (.router r inport)) t ∧
      ∃ g : Flit, g.outport = o ∧ g.time ≤ s.now ∧ g.stage = (.st, s.now) ∧
        (t.routers r).switchBuffer = (s.routers r).switchBuffer ++ [(inport, g)]) := by
  have hown : Owns cfg s r (cfg.linkTo (.router r inport)) invc o w :=
    ⟨⟨inport, cfg.wiring.apply_symm_apply _⟩, hport, hout⟩
  obtain ⟨hbusy, hpacket, hsent, -⟩ := h.owner _ _ _ _ _ hown
  obtain ⟨-, -, -, hal, hlq, hqs, hsize⟩ := (h.lane (cfg.linkTo (.router r inport)) invc).chain
  obtain ⟨hfpacket, hfid, hftime, hlt, htail, hrelease⟩ := (h.inputVc r inport invc).release
    (by omega) (by rw [hout]; exact Option.some_ne_none _) hfront
  have hlane := h.toSwitch (e := (inport, { f with outport := o, vc := w, stage := (.st, s.now) }))
    hbusy (by rw [hpacket, hsent]; exact hlt) hcredit rfl rfl
    (by rw [hpacket, hsent]; exact Prod.ext hfpacket hfid) hfree
  have hbuffer : ((s.channels (cfg.linkTo (.router r inport))).vcs invc).buffer.front = some f :=
    hfront
  unfold SwitchAllocator.sendToSwitch
  dsimp only
  rw [hbuffer]
  unfold OutVcState.decrementCredit
  rw [if_pos hcredit]
  refine hrelease.bind (fun vc hvc => ?_)
  have hlanes := h.forward hown hlane (fun source => s.vcs_setOutVc (.router r o) source w _)
    (fun c hc => htimes c (s.creditQueue_setOutVc (.router r o) _ w _ ▸ hc)) hvc.1 hvc.2
  rw [← htail] at hlanes
  refine .ok ⟨⟨_, hlanes.schedule _ _⟩, ?_, ?_⟩
  · refine Net.Touches.schedule
      (Net.Touches.setIn (((Net.Touches.refl s).setOut _ _).setRouter _ _) ?_) _ _
    rfl
  · refine ⟨{ f with outport := o, vc := w, stage := (.st, s.now) }, rfl, hftime, rfl, ?_⟩
    exact congrArg RouterState.switchBuffer (Net.routers_setRouter_self _ r _)

end Lanes

/-! ### Switch allocation at the output ports -/

/-- While the output ports of a router are served, with those that are left: the requests
for these are ready, and the flits that were granted wait at the switch, at most one from
each input port. -/
structure Granting (cfg : Config) (r : Nat) (reqs : List (Option (Nat × Nat))) (left : List Nat)
    (s : Net X) : Prop where
  lanes : ∃ lanes, Lanes cfg s lanes
  ports : left.Nodup
  ready : ∀ p o invc, o ∈ left → reqs[p]? = some (some (o, invc)) →
    p < cfg.numInports r ∧ Ready cfg s r p invc o ∧
      ∀ c ∈ (s.channels (cfg.linkTo (.router r p))).creditQueue.items, c.time < s.now
  granted : ∀ e ∈ (s.routers r).switchBuffer, e.2.outport ∉ left ∧
    ∃ invc, reqs[e.1]? = some (some (e.2.outport, invc))
  switch : ∀ e ∈ (s.routers r).switchBuffer, e.1 < cfg.numInports r ∧ e.2.time ≤ s.now ∧
    e.2.stage = (.st, s.now)
  nodup : ((s.routers r).switchBuffer.map Prod.fst).Nodup

theorem SwitchAllocator.winner_eq_some {order : List Nat}
    (h : winner reqs o order = some (p, invc)) :
    reqs[p]? = some (some (o, invc)) := by
  obtain ⟨q, -, hq⟩ := exists_of_findSome?_eq_some h
  split at hq
  · rename_i o' invc' hreq
    split_ifs at hq with ho
    cases hq
    rw [hreq, ho]
  · cases hq

theorem Config.linkTo_ne (h : p' ≠ p) : cfg.linkTo (.router r p') ≠ cfg.linkTo (.router r p) := by
  intro heq
  have := cfg.wiring.symm.injective heq
  cases this
  exact h rfl

namespace Granting

variable {s : Net X} {r : Nat} {reqs : List (Option (Nat × Nat))} {o : Nat} {left : List Nat}

theorem setRouter (h : Granting cfg r reqs left s) {router : RouterState}
    (hrouter : router.switchBuffer = (s.routers r).switchBuffer) :
    Granting cfg r reqs left (s.setRouter r router) := by
  have hself : ((s.setRouter r router).routers r).switchBuffer = (s.routers r).switchBuffer := by
    rw [Net.routers_setRouter_self, hrouter]
  obtain ⟨lanes, hlanes⟩ := h.lanes
  refine ⟨⟨lanes, hlanes.setRouter hrouter⟩, h.ports, fun p o invc ho hreq => ?_,
    hself ▸ h.granted, hself ▸ h.switch, hself ▸ h.nodup⟩
  obtain ⟨hp, hready, htimes⟩ := h.ready p o invc ho hreq
  exact ⟨hp, { hready with }, htimes⟩

theorem skip (h : Granting cfg r reqs (o :: left) s) : Granting cfg r reqs left s :=
  { h with
    ports := (nodup_cons.mp h.ports).2
    ready := fun p o invc ho => h.ready p o invc (.tail _ ho)
    granted := fun e he =>
      ⟨fun hmem => (h.granted e he).1 (.tail _ hmem), (h.granted e he).2⟩ }

theorem arbitrate (h : Granting cfg r reqs (o :: left) s) :
    Meets (SwitchAllocator.arbitrateOutport cfg r reqs s o) Benign (Granting cfg r reqs left) := by
  unfold arbitrateOutport
  dsimp only
  have h' : Granting cfg r reqs (o :: left) (s.setRouter r { s.routers r with
      roundRobinInport := update (s.routers r).roundRobinInport o
        (advance ((s.routers r).roundRobinInport o) (cfg.numInports r)) }) :=
    h.setRouter rfl
  generalize s.setRouter r { s.routers r with
    roundRobinInport := update (s.routers r).roundRobinInport o
      (advance ((s.routers r).roundRobinInport o) (cfg.numInports r)) } = s' at h' ⊢
  split
  · exact .ok h'.skip
  rename_i p invc hwin
  have hreq := winner_eq_some hwin
  obtain ⟨hp, hready, htimes⟩ := h'.ready p o invc mem_cons_self hreq
  obtain ⟨f, hfront⟩ := hready.front
  obtain ⟨lanes, hlanes⟩ := h'.lanes
  have hfree : ∀ e ∈ (s'.routers r).switchBuffer, e.2.outport ≠ o :=
    fun e he heq => (h'.granted e he).1 (heq ▸ .head _)
  refine (hlanes.outVcFor hready).bind (fun q hq => ?_)
  obtain ⟨⟨lanes', hlanes'⟩, hport, hout, hbuffer, hcredit, htouch, hrouters, hcq⟩ := hq
  refine (hlanes'.sendToSwitch hport hout (by rw [hbuffer]; exact hfront) hcredit
    (by rw [hcq, htouch.now]; exact htimes) (by rw [hrouters]; exact hfree)).mono (fun t ht => ?_)
  obtain ⟨hlanes'', htouch', g, hgport, hgtime, hgstage, hswitch⟩ := ht
  have htouches := htouch.trans htouch'
  rw [hrouters] at hswitch
  rw [htouch.now] at hgtime hgstage
  obtain ⟨hnotin, hnodup⟩ := nodup_cons.mp h'.ports
  refine ⟨hlanes'', h'.skip.ports, fun p' o' invc' ho' hreq' => ?_, fun e he => ?_,
    fun e he => ?_, ?_⟩
  · -- another output port has its request from another input port
    have hne : o' ≠ o := fun heq => hnotin (heq ▸ ho')
    have hpne : p' ≠ p := by
      rintro rfl
      rw [hreq] at hreq'
      cases hreq'
      exact hne rfl
    obtain ⟨hp', hready', htimes'⟩ := h'.ready p' o' invc' (.tail _ ho') hreq'
    refine ⟨hp', htouches.ready (Config.linkTo_ne hpne) (fun heq => ?_) hready', ?_⟩
    · cases heq
      exact hne rfl
    · rw [htouches.creditQueue _ (Config.linkTo_ne hpne), htouches.now]
      exact htimes'
  · rw [hswitch] at he
    rcases mem_append.mp he with he | he
    · exact h'.skip.granted e he
    · rw [mem_singleton.mp he]
      rw [hgport]
      exact ⟨hnotin, invc, hreq⟩
  · rw [hswitch] at he
    rw [htouches.now]
    rcases mem_append.mp he with he | he
    · exact h'.switch e he
    · rw [mem_singleton.mp he]
      exact ⟨hp, hgtime, hgstage⟩
  · rw [hswitch, map_append, nodup_append]
    refine ⟨h'.nodup, nodup_singleton _, fun a ha b hb heq => ?_⟩
    obtain ⟨e, he, rfl⟩ := mem_map.mp ha
    rw [map_singleton, mem_singleton] at hb
    -- an input port makes one request
    obtain ⟨hne, invc', hreq'⟩ := h'.granted e he
    rw [heq, hb, hreq] at hreq'
    cases hreq'
    exact hfree e he rfl

end Granting

end Gem5.Garnet
