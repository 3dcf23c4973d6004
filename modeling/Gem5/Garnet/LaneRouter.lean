import Gem5.Garnet.LaneSteps

namespace Gem5.Garnet

open Lib Function

variable {X : Heaps} {cfg : Config}

theorem Routing.lookupRoutingTable_benign (R : Routing) (router : Nat) (vnetOrdered : Bool)
    (rand : Nat) (dest : List Nat) :
    Meets (R.lookupRoutingTable router vnetOrdered rand dest) Benign (fun _ => True) := by
  unfold Routing.lookupRoutingTable
  split <;> trivial

theorem Routing.directionXY_benign (R : Routing) (myId destId : Nat) (dirn : PortDirection) :
    Meets (R.directionXY myId destId dirn) Benign (fun _ => True) := by
  unfold Routing.directionXY
  dsimp only
  repeat' split
  all_goals trivial

theorem Routing.outportCompute_benign (R : Routing) (router inport : Nat) (vnetOrdered : Bool)
    (rand : Nat) (route : Packet) :
    Meets (R.outportCompute router inport vnetOrdered rand route) Benign (fun _ => True) := by
  unfold Routing.outportCompute
  split
  · exact R.lookupRoutingTable_benign _ _ _ _
  split
  · exact R.lookupRoutingTable_benign _ _ _ _
  · unfold Routing.outportComputeXY
    have h := R.directionXY_benign router route.destRouter (R.inportDirection router inport)
    cases hdir : R.directionXY router route.destRouter (R.inportDirection router inport) with
    | ok d => trivial
    | error e =>
      rw [hdir] at h
      exact h
  · trivial

/-- The input VC of the next flit of a packet. A head flit finds it idle, and another one
finds it active. -/
theorem VirtualChannel.At.activate {now : Nat} (h : v.At now ℓ)
    (hpacket : f.packet = ℓ.packet) (hid : f.id = ℓ.arrived)
    (hlt : ℓ.arrived < ℓ.packet.size) (r inport rand : Nat) :
    Meets (InputUnit.activate cfg r inport rand now f v) Benign (fun v' =>
      v'.buffer = v.buffer ∧ v'.state = .active ∧ v'.stateTime ≤ now ∧ v'.outport.isSome ∧
        v'.outvc = v.outvc ∧ (v.outvc ≠ none → v'.outport = v.outport)) := by
  have hle := h.buffer.le
  have hhead := Flit.isHead_iff (f := f) (by rw [hpacket, hid]; exact hlt)
  unfold InputUnit.activate
  split
  · rename_i hh
    have hzero : ℓ.arrived = 0 := hid.symm.trans (hhead.mp hh)
    have hidle : v.state = .idle := by
      rw [h.state, if_neg (by omega)]
    rw [if_pos hidle]
    have hroute := cfg.routing.outportCompute_benign r inport (cfg.isVNetOrdered f.packet.vnet)
      rand f.packet
    cases hcompute : cfg.routing.outportCompute r inport (cfg.isVNetOrdered f.packet.vnet) rand
        f.packet with
    | ok o => exact ⟨rfl, rfl, le_rfl, rfl, rfl, fun hne => absurd (h.idle hidle) hne⟩
    | error e =>
      rw [hcompute] at hroute
      exact hroute
  · rename_i hh
    have hpos : 0 < ℓ.arrived := by
      by_contra hzero
      exact hh (hhead.mpr (by omega))
    have hactive : v.state = .active := by
      rw [h.state, if_pos (by omega)]
    rw [if_pos hactive]
    exact ⟨rfl, hactive, h.stateTime, h.outport hactive, rfl, fun _ => rfl⟩

namespace Lanes

variable {s s' : Net X} {lanes : Port → Nat → Lane}

theorem changeInput (h : Lanes cfg s lanes) (hch : ch.At v (cfg.maxCreditCount v) s.now ℓ)
    (hother : ∀ u, u ≠ v → ch.At u (cfg.maxCreditCount u) s.now (lanes source u))
    (hvc : (ch.vcs v).At s.now ℓ) (hvcs : ∀ u, u ≠ v → ch.vcs u = (s.channels source).vcs u)
    (hnode : ∀ n, cfg.wiring source ≠ .ni n)
    (hpacket : ℓ.packet = (lanes source v).packet) (hbusy : ℓ.busy = (lanes source v).busy)
    (hsent : ℓ.sent = (lanes source v).sent) (hqueued : ℓ.queued = (lanes source v).queued)
    (hforwarded : ℓ.forwarded = (lanes source v).forwarded)
    (houtvc : (ch.vcs v).outvc = ((s.channels source).vcs v).outvc)
    (houtport : ((s.channels source).vcs v).outvc ≠ none →
      (ch.vcs v).outport = ((s.channels source).vcs v).outport) :
    Lanes cfg (s.setChannel source ch) (setLane lanes source v ℓ) := by
  refine h.change ?_ (fun source' v' hne => ?_) (fun r source' u o w hown => ?_)
    (fun _ _ _ _ _ _ => ⟨hbusy, hpacket, hsent⟩) (fun _ _ _ _ => ⟨hpacket, hforwarded⟩)
  · exact (h.lane source v).ofChannel hch (fun _ _ _ => hvc) (fun n hn => absurd hn (hnode n))
      hpacket hbusy hsent hqueued
  · have hl := h.lane source' v'
    obtain rfl | hs := eq_or_ne source' source
    · have hv : v' ≠ v := fun hv => hne ⟨rfl, hv⟩
      refine hl.ofChannel (hother v' hv) (fun r p hp => ?_) hl.toNode rfl rfl rfl rfl
      rw [hvcs v' hv]
      exact hl.toRouter r p hp
    · exact hl.setChannel hs ch
  obtain rfl | hs := eq_or_ne source' source
  · have hport := hown.outport
    have hout := hown.outvc
    rw [s.channels_setChannel_self] at hport hout
    obtain rfl | hu := eq_or_ne u v
    · rw [houtvc] at hout
      rw [houtport (by rw [hout]; exact Option.some_ne_none _)] at hport
      exact ⟨hown.target, hport, hout⟩
    · rw [hvcs u hu] at hport hout
      exact ⟨hown.target, hport, hout⟩
  · have hport := hown.outport
    have hout := hown.outvc
    rw [s.channels_setChannel_of_ne hs] at hport hout
    exact ⟨hown.target, hport, hout⟩

theorem inputUnit (h : Lanes cfg s lanes) (r : Nat) (rand : Nat → Nat) (inport : Nat)
    (hfresh : ∀ f ∈ (s.channels (cfg.linkTo (.router r inport))).linkBuffer.items, s.now ≤ f.time) :
    Meets (InputUnit.wakeup cfg r rand s inport) Benign (fun t => ∃ lanes',
      Lanes cfg t lanes') := by
  unfold InputUnit.wakeup
  dsimp only
  split
  · exact .ok ⟨lanes, h⟩
  rename_i f rest hpop
  have hto : cfg.wiring (cfg.linkTo (.router r inport)) = .router r inport :=
    cfg.wiring.apply_symm_apply _
  have hl := h.lane (cfg.linkTo (.router r inport)) f.vc
  have hvc := hl.toRouter r inport hto
  obtain ⟨hlt, hpacket, hid, hch⟩ := hl.channel.arrive hpop rfl
  obtain ⟨-, -, hfa, hal, hlq, hqs, hsize⟩ := hl.chain
  obtain ⟨hready, hperm, -⟩ := PQueue.takeIf_eq_some hpop
  have hftime : f.time ≤ s.now := of_decide_eq_true hready
  have hnow : s.now ≤ f.time := hfresh f (hperm.mem_iff.mpr List.mem_cons_self)
  refine (hvc.activate hpacket hid (by omega) r inport (rand inport)).bind (fun v' hv' => .ok ?_)
  obtain ⟨hbuffer, hstate, hstateTime, houtport, houtvc, hsame⟩ := hv'
  have hself : ∀ w, (({ s.channels (cfg.linkTo (.router r inport)) with
      linkBuffer := rest }).setVc f.vc w).vcs f.vc = w := fun w => update_self _ _ _
  have hlanes : Lanes cfg (s.setChannel (cfg.linkTo (.router r inport))
      (({ s.channels (cfg.linkTo (.router r inport)) with linkBuffer := rest }).setVc f.vc
        { v' with
          buffer := v'.buffer.insert { f with
            stage := (.sa, s.now + (cfg.pipeStages r - 1)) } }))
      (setLane lanes (cfg.linkTo (.router r inport)) f.vc
        { lanes (cfg.linkTo (.router r inport)) f.vc with
          arrived := (lanes (cfg.linkTo (.router r inport)) f.vc).arrived + 1 }) := by
    refine h.changeInput (hch.setVc _ _)
      (fun u hu => ((h.lane _ u).channel.arrive_other hpop hu.symm).setVc _ _) ?_
      (fun u hu => update_of_ne hu _ _) (fun n hn => by rw [hto] at hn; cases hn)
      rfl rfl rfl rfl rfl ?_ ?_
    · rw [hself]
      refine ⟨?_, fun g hg => ?_, ?_, hstateTime, fun hidle => ?_, fun _ => houtport,
        fun _ hnone => ?_⟩
      · rw [hbuffer]
        refine hvc.buffer.insert rfl (Prod.ext hpacket hid) (fun g hg _ => ?_)
        obtain ⟨i, -, hi, htag⟩ := hvc.buffer.tag_of_mem hg rfl
        have hgid : g.id = i := (Prod.mk.inj htag).2
        have := hvc.times g hg
        unfold KeyLt Flit.key
        dsimp only
        omega
      · rw [hbuffer] at hg
        rcases PQueue.mem_insert.mp hg with heq | hg
        · rw [heq]
          exact hftime
        · exact hvc.times g hg
      · dsimp only
        rw [hstate, if_pos (by omega)]
      · rw [hstate] at hidle
        cases hidle
      · dsimp only at hnone ⊢
        rw [houtvc] at hnone
        -- without an output VC, an active VC has forwarded nothing yet
        by_cases hact : ((s.channels (cfg.linkTo (.router r inport))).vcs f.vc).state = .active
        · exact hvc.outvc hact hnone
        · have hcond := hvc.state
          split at hcond
          · exact absurd hcond hact
          · omega
    · rw [hself]
      exact houtvc
    · rw [hself]
      exact hsame
  split
  · exact ⟨_, hlanes⟩
  · exact ⟨_, hlanes.schedule _ _⟩

end Lanes

end Gem5.Garnet
