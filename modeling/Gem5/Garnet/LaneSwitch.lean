import Gem5.Garnet.LaneRouter

namespace Gem5.Garnet

open Lib SwitchAllocator Function Meets List OutputUnit

variable {X : Heaps} {cfg : Config}

/-- An input VC has a flit for an output port, and there is room for it. -/
structure Ready (cfg : Config) (s : Net X) (r inport invc o : Nat) : Prop where
  active : (inputVc cfg s r inport invc).state = .active
  outport : (inputVc cfg s r inport invc).outport = some o
  front : ∃ f, (inputVc cfg s r inport invc).buffer.front = some f
  free : (inputVc cfg s r inport invc).outvc = none →
    (OutputUnit.freeVc cfg (cfg.vnetOf invc) (s.channels (.router r o)).outVcs s.now).isSome
  credit : ∀ w, (inputVc cfg s r inport invc).outvc = some w →
    0 < ((s.channels (.router r o)).outVcs w).creditCount

theorem Config.vnetOf_of_mem_vcsOf (cfg : Config) (h : w ∈ cfg.vcsOf vnet) :
    cfg.vnetOf w = vnet := by
  obtain ⟨i, hi, rfl⟩ := mem_map.mp h
  have hlt := mem_range.mp hi
  unfold Config.vnetOf
  rw [mul_comm, Nat.mul_add_div (by omega), Nat.div_eq_of_lt hlt, add_zero]

theorem OutputUnit.freeVc_eq_some (h : freeVc cfg vnet outVcs curTime = some w) :
    (outVcs w).state = .idle ∧ cfg.vnetOf w = vnet := by
  have hidle := find?_some h
  exact ⟨(of_decide_eq_true hidle).1, cfg.vnetOf_of_mem_vcsOf (mem_of_find?_eq_some h)⟩

theorem Net.vcs_setOutVc (s : Net X) (out source : Port) (v : Nat) (o : OutVcState) :
    ((s.setChannel out ((s.channels out).setOutVc v o)).channels source).vcs =
      (s.channels source).vcs :=
  s.keeps_setChannel Channel.vcs (by rfl) source

theorem Net.creditQueue_setOutVc (s : Net X) (out source : Port) (v : Nat) (o : OutVcState) :
    ((s.setChannel out ((s.channels out).setOutVc v o)).channels source).creditQueue =
      (s.channels source).creditQueue :=
  s.keeps_setChannel Channel.creditQueue (by rfl) source

theorem Net.outVcs_setVc (s : Net X) (inp source : Port) (v : Nat) (vc : VirtualChannel X) :
    ((s.setChannel inp ((s.channels inp).setVc v vc)).channels source).outVcs =
      (s.channels source).outVcs :=
  s.keeps_setChannel Channel.outVcs (by rfl) source

/-- Of the output VCs only those at `out` change, and of the input VCs and the credits that
go back only those at `inp`. -/
structure Net.Touches (out inp : Port) (s t : Net X) : Prop where
  now : t.now = s.now
  outVcs : ∀ source, source ≠ out → (t.channels source).outVcs = (s.channels source).outVcs
  vcs : ∀ source, source ≠ inp → (t.channels source).vcs = (s.channels source).vcs
  creditQueue : ∀ source, source ≠ inp →
    (t.channels source).creditQueue = (s.channels source).creditQueue

namespace Net.Touches

variable {out inp : Port} {s t u : Net X}

theorem refl (s : Net X) : Touches out inp s s :=
  ⟨rfl, fun _ _ => rfl, fun _ _ => rfl, fun _ _ => rfl⟩

section

variable (h : Touches out inp s t)
include h

theorem trans (h' : Touches out inp t u) : Touches out inp s u :=
  ⟨h'.now.trans h.now, fun source hne => (h'.outVcs source hne).trans (h.outVcs source hne),
    fun source hne => (h'.vcs source hne).trans (h.vcs source hne),
    fun source hne => (h'.creditQueue source hne).trans (h.creditQueue source hne)⟩

theorem setOut (v : Nat) (o : OutVcState) :
    Touches out inp s (t.setChannel out ((t.channels out).setOutVc v o)) := by
  refine ⟨h.now, fun source hne => ?_, fun source hne => ?_, fun source hne => ?_⟩
  · rw [t.channels_setChannel_of_ne hne]
    exact h.outVcs source hne
  · rw [t.vcs_setOutVc]
    exact h.vcs source hne
  · rw [t.creditQueue_setOutVc]
    exact h.creditQueue source hne

theorem setIn (hch : ch.outVcs = (t.channels inp).outVcs) :
    Touches out inp s (t.setChannel inp ch) := by
  refine ⟨h.now, fun source hne => ?_, fun source hne => ?_, fun source hne => ?_⟩
  · rw [t.keeps_setChannel Channel.outVcs hch]
    exact h.outVcs source hne
  · rw [t.channels_setChannel_of_ne hne]
    exact h.vcs source hne
  · rw [t.channels_setChannel_of_ne hne]
    exact h.creditQueue source hne

theorem setRouter (r : Nat) (router : RouterState) :
    Touches out inp s (t.setRouter r router) := { h with }

theorem schedule (c : Component) (time : Nat) : Touches out inp s (t.schedule c time) := { h with }

theorem ready (hin : cfg.linkTo (.router r inport) ≠ inp) (hout : .router r o ≠ out)
    (hready : Ready cfg s r inport invc o) : Ready cfg t r inport invc o := by
  have hvc : inputVc cfg t r inport invc = inputVc cfg s r inport invc :=
    congrFun (h.vcs _ hin) invc
  have hout := h.outVcs _ hout
  exact ⟨hvc ▸ hready.active, hvc ▸ hready.outport, hvc ▸ hready.front,
    by rw [hvc, hout, h.now]; exact hready.free, by rw [hvc, hout]; exact hready.credit⟩

end

end Net.Touches

namespace Lanes

variable {s s' : Net X} {lanes : Port → Nat → Lane}

section

variable (h : Lanes cfg s lanes)
include h

theorem inputVc (r inport v : Nat) : (SwitchAllocator.inputVc cfg s r inport v).At s.now
      (lanes (cfg.linkTo (.router r inport)) v) :=
  (h.lane _ v).toRouter r inport (cfg.wiring.apply_symm_apply _)

theorem needStage (r inport v : Nat) (stage : FlitStage) (htime : s.now ≤ time) :
    ∃ b, (SwitchAllocator.inputVc cfg s r inport v).needStage stage time = .ok b ∧
      (b = true → (SwitchAllocator.inputVc cfg s r inport v).state = .active ∧
        ∃ f, (SwitchAllocator.inputVc cfg s r inport v).buffer.front = some f) := by
  obtain ⟨-, -, -, hal, hlq, hqs, hsize⟩ := (h.lane (cfg.linkTo (.router r inport)) v).chain
  exact (h.inputVc r inport v).needStage (by omega) stage htime

theorem hasRoom (houtport : (SwitchAllocator.inputVc cfg s r inport invc).outport = some outport) :
    Meets (SwitchAllocator.hasRoom cfg s r (cfg.vnetOf invc) outport
      (SwitchAllocator.inputVc cfg s r inport invc).outvc) Benign (fun b => b = true →
        ((SwitchAllocator.inputVc cfg s r inport invc).outvc = none →
          (freeVc cfg (cfg.vnetOf invc) (s.channels (.router r outport)).outVcs
            s.now).isSome) ∧
        ∀ w, (SwitchAllocator.inputVc cfg s r inport invc).outvc = some w →
          0 < ((s.channels (.router r outport)).outVcs w).creditCount) := by
  cases houtvc : (SwitchAllocator.inputVc cfg s r inport invc).outvc with
  | none => exact ok (fun hb => ⟨fun _ => hb, nofun⟩)
  | some w =>
    have hown : Owns cfg s r (cfg.linkTo (.router r inport)) invc outport w :=
      ⟨⟨inport, cfg.wiring.apply_symm_apply _⟩, houtport, houtvc⟩
    obtain ⟨hbusy, -⟩ := h.owner _ _ _ _ _ hown
    have hch := (h.lane (.router r outport) w).channel
    have hstate : ((s.channels (.router r outport)).outVcs w).isInState .active s.now = true := by
      refine decide_eq_true ⟨?_, hch.time⟩
      rw [hch.state, if_pos hbusy]
    unfold SwitchAllocator.hasRoom hasCredit
    dsimp only
    rw [if_pos hstate]
    refine ok (fun hb => ⟨nofun, fun w' hw' => ?_⟩)
    cases hw'
    exact of_decide_eq_true hb

theorem inOrder : Meets (SwitchAllocator.inOrder cfg s r inport invc outport) Benign
    (fun _ => True) := by
  unfold SwitchAllocator.inOrder
  dsimp only
  split
  · refine (anyM (fun v _ => ?_)).map (fun _ _ => trivial)
    obtain ⟨b, hb, -⟩ := h.needStage r inport v .sa (Nat.le_refl s.now)
    unfold isEarlier
    dsimp only
    rw [hb]
    trivial
  · trivial

theorem sendAllowed (hroom : Meets (SwitchAllocator.hasRoom cfg s r (cfg.vnetOf invc) outport outvc)
      Benign (fun b => b = true → Q)) :
    Meets (SwitchAllocator.sendAllowed cfg s r inport invc outport outvc) Benign
      (fun b => b = true → Q) := by
  refine hroom.bind (fun b hb => ?_)
  split_ifs with hb'
  · exact h.inOrder.mono (fun _ _ _ => hb hb')
  · exact ok (fun hb => absurd hb Bool.false_ne_true)

theorem pickVc (r inport : Nat) (vcs : List Nat) :
    Meets (SwitchAllocator.pickVc cfg s r inport vcs) Benign (fun res =>
      ∀ o invc, res = some (o, invc) → Ready cfg s r inport invc o) := by
  induction vcs with
  | nil => exact ok nofun
  | cons invc rest ih =>
    unfold SwitchAllocator.pickVc
    dsimp only
    obtain ⟨b, hb, hready⟩ := h.needStage r inport invc .sa (Nat.le_refl s.now)
    rw [hb]
    cases b with
    | false => exact ih
    | true =>
      obtain ⟨hactive, hfront⟩ := hready rfl
      have hsome := (h.inputVc r inport invc).outport hactive
      split
      · rename_i hnone
        rw [hnone] at hsome
        cases hsome
      rename_i o ho
      refine (h.sendAllowed (h.hasRoom ho)).bind (fun b hb => ?_)
      split_ifs with hallowed
      · refine ok (fun o' invc' hres => ?_)
        cases hres
        exact ⟨hactive, ho, hfront, (hb hallowed).1, (hb hallowed).2⟩
      · exact ih

/-- Switch allocation at the input ports makes requests that are ready. -/
theorem requests (r : Nat) : Meets (SwitchAllocator.requests cfg r s) Benign (fun reqs =>
      ∀ p o invc, reqs[p]? = some (some (o, invc)) →
        p < cfg.numInports r ∧ Ready cfg s r p invc o) := by
  refine (mapM (fun p _ => h.pickVc r p _)).mono (fun reqs hreqs p o invc hp => ?_)
  obtain ⟨hlen, hget⟩ := forall₂_iff_get.mp hreqs
  obtain ⟨hlt, hval⟩ := List.getElem?_eq_some_iff.mp hp
  have hrange : p < (range (cfg.numInports r)).length := by omega
  have hready := hget p hrange hlt
  rw [length_range] at hrange
  refine ⟨hrange, ?_⟩
  have := hready o invc (by rw [get_eq_getElem, hval])
  simpa using this

theorem openLane (hsize : 0 < packet.size)
    (hidle : ((s.channels (.router r o)).outVcs w).state = .idle) :
    (lanes (.router r o) w).busy = false ∧ (∀ source u, ¬ Owns cfg s r source u o w) ∧
      Lanes cfg (s.setChannel (.router r o) ((s.channels (.router r o)).setOutVc w
        (((s.channels (.router r o)).outVcs w).setState .active s.now)))
        (setLane lanes (.router r o) w (.start packet)) := by
  have hl := h.lane (.router r o) w
  have hfree : (lanes (.router r o) w).busy = false := by
    by_contra hbusy
    have := hl.channel.state
    rw [if_pos (by simpa using hbusy), hidle] at this
    cases this
  have hnone : ∀ source u, ¬ Owns cfg s r source u o w := by
    intro source u hown
    have := (h.owner r source u o w hown).1
    rw [hfree] at this
    cases this
  have hsent := hl.channel.free hfree
  obtain ⟨-, hrf, hfa, hal, hlq, hqs, -⟩ := hl.chain
  refine ⟨hfree, hnone, h.change ?_ (h.setChannel_other
    (fun u hu => (h.lane _ u).channel.setOutVc_other hu.symm _) rfl)
    (fun _ _ _ _ _ hown => hown.of_setChannel rfl) (fun r' o' hro source u hown => ?_)
    (fun r' o' w' hown => ?_)⟩
  · refine ⟨?_, fun r' p hp => ?_, fun _ _ => rfl, nofun, fun r' o' hro => ⟨?_⟩⟩
    · rw [s.channels_setChannel_self]
      exact hl.channel.start hsize (by omega) hfree (by omega)
    · rw [s.channels_setChannel_self]
      have hold := hl.toRouter r' p hp
      refine ⟨hold.buffer.reset (by omega) 0, hold.times, ?_, hold.stateTime, hold.idle,
        hold.outport, fun _ _ => rfl⟩
      refine hold.state.trans ?_
      rw [if_neg (by omega), if_neg (fun hcond => lt_irrefl 0 hcond.1)]
    · exact (hl.fromRouter r' o' hro).switch.reset (by omega) 0
  · cases hro
    exact absurd hown (hnone source u)
  · have := h.unfinished hown
    omega

theorem assignOutVc (hactive : (SwitchAllocator.inputVc cfg s r inport invc).state = .active)
    (houtport : (SwitchAllocator.inputVc cfg s r inport invc).outport = some o)
    (hnone : (SwitchAllocator.inputVc cfg s r inport invc).outvc = none)
    (hlane : lanes (.router r o) w = .start (lanes (cfg.linkTo (.router r inport)) invc).packet)
    (hvnet : cfg.vnetOf w = cfg.vnetOf invc)
    (hne : ¬ (cfg.linkTo (.router r inport) = .router r o ∧ invc = w))
    (hfree : ∀ source u, ¬ Owns cfg s r source u o w) :
    Lanes cfg (s.setChannel (cfg.linkTo (.router r inport))
      ((s.channels (cfg.linkTo (.router r inport))).setVc invc
        { (s.channels (cfg.linkTo (.router r inport))).vcs invc with outvc := some w })) lanes := by
  have hto : cfg.wiring (cfg.linkTo (.router r inport)) = .router r inport :=
    cfg.wiring.apply_symm_apply _
  have hvc := h.inputVc r inport invc
  unfold SwitchAllocator.inputVc at hactive houtport hnone hvc
  generalize cfg.linkTo (.router r inport) = inp at *
  have hself : ∀ v, ((s.channels inp).setVc invc v).vcs invc = v := fun v => update_self _ _ _
  have hother : ∀ u v, u ≠ invc →
      ((s.channels inp).setVc invc v).vcs u = (s.channels inp).vcs u :=
    fun u v hu => update_of_ne hu _ _
  -- ownership is as before, but for the new one
  have howns : ∀ r' source u o' w', Owns cfg (s.setChannel inp ((s.channels inp).setVc invc
        { (s.channels inp).vcs invc with outvc := some w })) r' source u o' w' →
      (source = inp ∧ u = invc ∧ r' = r ∧ o' = o ∧ w' = w) ∨ Owns cfg s r' source u o' w' := by
    intro r' source u o' w' hown
    rcases hown.of_setVc (fun u hu => hother u _ hu) with hold | ⟨rfl, rfl, hport, hout⟩
    · exact .inr hold
    · rw [hself] at hport hout
      obtain ⟨p, hp⟩ := hown.target
      rw [hto] at hp
      cases hp
      have ho : some o' = some o := hport.symm.trans houtport
      cases ho
      cases hout
      exact .inl ⟨rfl, rfl, rfl, rfl, rfl⟩
  refine ⟨fun source v => ?_, fun r' source u o' w' hown => ?_,
    fun r' source source' u u' o' w' h₁ h₂ => ?_⟩
  · have hl := h.lane source v
    obtain rfl | hs := eq_or_ne source inp
    · refine hl.ofChannel (hl.channel.setVc _ _) (fun r' p hp => ?_) hl.toNode rfl rfl rfl rfl
      obtain rfl | hv := eq_or_ne v invc
      · rw [hself]
        exact { hvc with
          idle := fun hidle => (by cases hactive.symm.trans hidle)
          outvc := nofun }
      · rw [hother v _ hv]
        exact hl.toRouter r' p hp
    · exact hl.setChannel hs _
  · rcases howns r' source u o' w' hown with heq | hold
    · obtain ⟨rfl, rfl, rfl, rfl, rfl⟩ := heq
      rw [hlane]
      exact ⟨rfl, rfl, (hvc.outvc hactive hnone).symm, hvnet, hne⟩
    · exact h.owner r' source u o' w' hold
  · rcases howns r' source u o' w' h₁ with heq₁ | hold₁
    · obtain ⟨rfl, rfl, rfl, rfl, rfl⟩ := heq₁
      rcases howns _ source' u' _ _ h₂ with heq₂ | hold
      · exact ⟨heq₂.1.symm, heq₂.2.1.symm⟩
      · exact absurd hold (hfree source' u')
    · rcases howns r' source' u' o' w' h₂ with heq₂ | hold₂
      · obtain ⟨rfl, rfl, rfl, rfl, rfl⟩ := heq₂
        exact absurd hold₁ (hfree source u)
      · exact h.unique r' source source' u u' o' w' hold₁ hold₂

/-- An input VC that is ready has an output VC, with room in it, when it is granted. -/
theorem outVcFor (hready : Ready cfg s r inport invc o) :
    Meets (SwitchAllocator.outVcFor cfg r o inport invc s) Benign (fun p =>
      (∃ lanes', Lanes cfg p.2 lanes') ∧
      (SwitchAllocator.inputVc cfg p.2 r inport invc).outport = some o ∧
      (SwitchAllocator.inputVc cfg p.2 r inport invc).outvc = some p.1 ∧
      (SwitchAllocator.inputVc cfg p.2 r inport invc).buffer =
        (SwitchAllocator.inputVc cfg s r inport invc).buffer ∧
      0 < ((p.2.channels (.router r o)).outVcs p.1).creditCount ∧
      s.Touches (.router r o) (cfg.linkTo (.router r inport)) p.2 ∧
      p.2.routers = s.routers ∧
      (p.2.channels (cfg.linkTo (.router r inport))).creditQueue =
        (s.channels (cfg.linkTo (.router r inport))).creditQueue) := by
  unfold SwitchAllocator.outVcFor
  dsimp only
  split
  · rename_i w hw
    exact ok ⟨⟨lanes, h⟩, hready.outport, hw, rfl, hready.credit w hw, .refl s, rfl, rfl⟩
  rename_i hnone
  split
  · rename_i hfree
    have := hready.free hnone
    rw [hfree] at this
    cases this
  rename_i w hw
  obtain ⟨hidle, hvnet⟩ := freeVc_eq_some hw
  have hl := h.lane (cfg.linkTo (.router r inport)) invc
  obtain ⟨hcr, hrf, -, hal, hlq, hqs, hsize⟩ := hl.chain
  have hcond : 0 < (lanes (cfg.linkTo (.router r inport)) invc).arrived := by
    have hstate := (h.inputVc r inport invc).state
    split_ifs at hstate with hcond
    · exact hcond.1
    · have : VcState.active = .idle := hready.active.symm.trans hstate
      cases this
  obtain ⟨hfree, hnobody, hopen⟩ := h.openLane
    (show 0 < (lanes (cfg.linkTo (.router r inport)) invc).packet.size by omega) hidle
  have hbusy : (lanes (cfg.linkTo (.router r inport)) invc).busy = true := by
    by_contra hnot
    have := hl.channel.free (Bool.eq_false_iff.mpr hnot)
    omega
  have hne : ¬ (cfg.linkTo (.router r inport) = .router r o ∧ invc = w) := by
    intro heq
    rw [heq.1, heq.2, hfree] at hbusy
    cases hbusy
  have hvcs := congrFun (s.vcs_setOutVc (.router r o) (cfg.linkTo (.router r inport)) w
    (((s.channels (.router r o)).outVcs w).setState .active s.now)) invc
  have hlanes := hopen.assignOutVc (r := r) (o := o) (w := w)
    (by unfold SwitchAllocator.inputVc; rw [hvcs]; exact hready.active)
    (by unfold SwitchAllocator.inputVc; rw [hvcs]; exact hready.outport)
    (by unfold SwitchAllocator.inputVc; rw [hvcs]; exact hnone)
    (by rw [setLane_self, setLane_other hne]) hvnet hne
    (fun source u hown => hnobody source u (hown.of_setChannel rfl))
  have hcredit := (h.lane (.router r o) w).channel.credit
  have hzero := (h.lane (.router r o) w).channel.free hfree
  -- a flit got to the input VC, so that the VCs of its virtual network have room
  have hmax : cfg.maxCreditCount w = cfg.maxCreditCount invc := by
    unfold Config.maxCreditCount
    rw [hvnet]
  have hinput := hl.channel.credit
  have hforwarded := (h.inputVc r inport invc).outvc hready.active hnone
  refine ok ⟨⟨_, hlanes⟩, ?_, ?_, ?_, ?_,
    ((Net.Touches.refl s).setOut _ _).setIn rfl, rfl, ?_⟩
  · unfold SwitchAllocator.inputVc
    rw [Net.channels_setChannel_self, Channel.vcs_setVc_self]
    rw [hvcs]
    exact hready.outport
  · unfold SwitchAllocator.inputVc
    rw [Net.channels_setChannel_self, Channel.vcs_setVc_self]
  · unfold SwitchAllocator.inputVc
    rw [Net.channels_setChannel_self, Channel.vcs_setVc_self]
    rw [hvcs]
  · rw [Net.outVcs_setVc, s.channels_setChannel_self, Channel.outVcs_setOutVc_self]
    dsimp only [OutVcState.setState]
    omega
  · rw [Net.channels_setChannel_self]
    exact s.creditQueue_setOutVc _ _ _ _

end

end Lanes

end Gem5.Garnet
