import Gem5.Garnet.LaneForward
import Gem5.Garnet.Turns

namespace Gem5.Garnet

open Lib List SwitchAllocator Net

variable {X : Heaps} {cfg : Config}

/-! ### The crossbar -/

namespace Lanes

variable {s : Net X} {lanes : Port → Nat → Lane}

theorem traverse (h : Lanes cfg s lanes) (he : e ∈ (s.routers r).switchBuffer)
    (htimes : ∀ f ∈ (s.channels (.router r e.2.outport)).outQueue.items, f.time ≤ s.now + 1) :
    ∃ lanes', Lanes cfg ((s.setRouter r { s.routers r with
        switchBuffer := (s.routers r).switchBuffer.erase e }).setChannel (.router r e.2.outport)
      { s.channels (.router r e.2.outport) with
        outQueue := (s.channels (.router r e.2.outport)).outQueue.insert
          { e.2 with stage := (.lt, s.now + 1), time := s.now + 1 } }) lanes' := by
  have hperm := perm_cons_erase he
  have hl := h.lane (.router r e.2.outport) e.2.vc
  obtain ⟨-, htag, hrest⟩ := ((hl.fromRouter r e.2.outport rfl).switch.perm hperm.symm).pop
    (decide_eq_true ⟨rfl, rfl⟩) (fun _ _ => id)
  obtain ⟨hpacket, hid⟩ := Prod.mk.inj htag
  have hself := (s.setRouter r { s.routers r with
    switchBuffer := (s.routers r).switchBuffer.erase e }).channels_setChannel_self
    (.router r e.2.outport) { s.channels (.router r e.2.outport) with
      outQueue := (s.channels (.router r e.2.outport)).outQueue.insert
        { e.2 with stage := (.lt, s.now + 1), time := s.now + 1 } }
  refine ⟨setLane lanes (.router r e.2.outport) e.2.vc
    { lanes (.router r e.2.outport) e.2.vc with
      queued := (lanes (.router r e.2.outport) e.2.vc).queued + 1 }, h.change ?_
    (fun source v hne => ?_) (fun r' source u o w hown => ?_) (fun _ _ _ _ _ _ => ⟨rfl, rfl, rfl⟩)
    (fun _ _ _ _ => ⟨rfl, rfl⟩)⟩
  · refine ⟨?_, fun r' p hp => ?_, hl.toNode, nofun, fun r' o' hro => ?_⟩
    · rw [hself]
      exact hl.channel.queue (f := { e.2 with stage := (.lt, s.now + 1), time := s.now + 1 }) rfl
        hpacket hid htimes
    · rw [hself]
      exact (hl.toRouter r' p hp).congr rfl rfl rfl
    · cases hro
      refine ⟨?_⟩
      rw [show ((s.setRouter r { s.routers r with
        switchBuffer := (s.routers r).switchBuffer.erase e }).setChannel _ _).routers r = _ from
        routers_setRouter_self _ _ _]
      exact hrest
  · have hl := h.lane source v
    -- the other flits at the switch stay there
    have hrouter : ∀ r' o', source = .router r' o' → ((s.setRouter r { s.routers r with
        switchBuffer := (s.routers r).switchBuffer.erase e }).routers r').At o' v
          (lanes source v) := by
      intro r' o' hro
      have hold := hl.fromRouter r' o' hro
      obtain rfl | hr := eq_or_ne r' r
      · rw [routers_setRouter_self]
        refine ⟨(hold.switch.perm hperm.symm).pop_other (decide_eq_false ?_)⟩
        rintro ⟨rfl, rfl⟩
        exact hne ⟨hro, rfl⟩
      · rw [routers_setRouter_of_ne _ hr]
        exact hold
    obtain rfl | hs := eq_or_ne source (.router r e.2.outport)
    · have hv : v ≠ e.2.vc := fun hv => hne ⟨rfl, hv⟩
      refine ⟨?_, fun r' p hp => ?_, hl.toNode, nofun, hrouter⟩
      · rw [hself]
        exact hl.channel.queue_other
          (f := { e.2 with stage := (.lt, s.now + 1), time := s.now + 1 }) hv.symm
      · rw [hself]
        exact hl.toRouter r' p hp
    · have hother : LaneAt cfg (s.setRouter r { s.routers r with
          switchBuffer := (s.routers r).switchBuffer.erase e }) source v (lanes source v) :=
        ⟨hl.channel, hl.toRouter, hl.toNode, hl.fromNode, hrouter⟩
      exact hother.setChannel hs _
  · have hown' := hown.of_setChannel rfl
    exact { hown' with }

end Lanes

/-- While the input ports of a crossbar are served, with those that are left. -/
structure Crossing (cfg : Config) (r : Nat) (left : List Nat) (s : Net X) : Prop where
  lanes : ∃ lanes, Lanes cfg s lanes
  switch : ∀ e ∈ (s.routers r).switchBuffer, e.1 ∈ left ∧ e.2.time ≤ s.now ∧
    e.2.stage = (.st, s.now)
  nodup : ((s.routers r).switchBuffer.map Prod.fst).Nodup
  outQueue : ∀ source, ∀ f ∈ (s.channels source).outQueue.items, f.time ≤ s.now + 1

namespace Crossing

variable {s : Net X} {r : Nat} {p : Nat} {left : List Nat}

theorem traverse (h : Crossing cfg r (p :: left) s) :
    Crossing cfg r left (CrossbarSwitch.traverse r s p) := by
  unfold CrossbarSwitch.traverse
  dsimp only
  split
  · rename_i hnone
    refine { h with switch := fun e he => ⟨?_, (h.switch e he).2⟩ }
    have hne : e.1 ≠ p := by simpa using find?_eq_none.mp hnone e he
    exact (mem_cons.mp (h.switch e he).1).resolve_left hne
  rename_i e hfind
  have he := mem_of_find?_eq_some hfind
  have hport : e.1 = p := by simpa using find?_some hfind
  obtain ⟨-, htime, hstage⟩ := h.switch e he
  rw [if_pos ⟨htime, decide_eq_true (by rw [hstage]; exact ⟨rfl, le_rfl⟩)⟩]
  obtain ⟨lanes, hlanes⟩ := h.lanes
  obtain ⟨lanes', hlanes'⟩ := hlanes.traverse he (h.outQueue _)
  have hswitch : (((s.setRouter r { s.routers r with
      switchBuffer := (s.routers r).switchBuffer.erase e }).routers r).switchBuffer) =
      (s.routers r).switchBuffer.erase e := by
    rw [routers_setRouter_self]
  refine ⟨⟨lanes', hlanes'.schedule _ _⟩, fun e' he' => ?_, ?_, fun source f hf => ?_⟩
  · have he' : e' ∈ (s.routers r).switchBuffer.erase e := hswitch ▸ he'
    obtain ⟨hmem, hrest⟩ := h.switch e' (mem_of_mem_erase he')
    refine ⟨(mem_cons.mp hmem).resolve_left (fun heq => ?_), hrest⟩
    -- the input port had one flit at the switch
    have hnodup := (((perm_cons_erase he).map Prod.fst).nodup_iff).mp h.nodup
    rw [map_cons, nodup_cons] at hnodup
    exact hnodup.1 (hport.trans heq.symm ▸ mem_map_of_mem he')
  · refine (congrArg (fun l : List (Nat × Flit) => (l.map Prod.fst).Nodup) hswitch).mpr ?_
    exact h.nodup.sublist ((erase_sublist).map _)
  · change f ∈ ((setChannel _ _ _).channels source).outQueue.items at hf
    obtain rfl | hs := eq_or_ne source (.router r e.2.outport)
    · rw [channels_setChannel_self] at hf
      rcases PQueue.mem_insert.mp hf with heq | hf
      · rw [heq]
        exact le_rfl
      · exact h.outQueue _ f hf
    · rw [channels_setChannel_of_ne _ hs] at hf
      exact h.outQueue source f hf

theorem wakeup (h : Crossing cfg r (List.range (cfg.numInports r)) s) :
    Crossing cfg r [] (CrossbarSwitch.wakeup cfg r s) := by
  unfold CrossbarSwitch.wakeup
  generalize List.range (cfg.numInports r) = left at h ⊢
  induction left generalizing s with
  | nil => exact h
  | cons p left ih => exact ih h.traverse

theorem empty (h : Crossing cfg r [] s) : (s.routers r).switchBuffer = [] :=
  eq_nil_iff_forall_not_mem.mpr (fun e he => absurd (h.switch e he).1 not_mem_nil)

end Crossing

/-! ### The wakeup of a router -/

namespace Lanes

variable {s : Net X} {lanes : Port → Nat → Lane}

theorem checkForWakeup (h : Lanes cfg s lanes) (r : Nat) :
    Meets (checkForWakeup cfg r s) Benign (fun t =>
      Lanes cfg t lanes ∧ t.now = s.now ∧ t.routers = s.routers) := by
  refine Meets.bind (Q := fun _ => True) (Meets.anyM (fun inport _ => Meets.anyM (fun vc _ => ?_)))
    (fun ready _ => .ok ?_)
  · obtain ⟨b, hb, -⟩ := h.needStage r inport vc .sa (Nat.le_succ s.now)
    rw [hb]
    trivial
  · split
    · exact ⟨h.schedule _ _, rfl, rfl⟩
    · exact ⟨h, rfl, rfl⟩

/-- Switch allocation, when the switch is empty and no credits were returned in this cycle. -/
theorem switchAllocator (h : Lanes cfg s lanes) (r : Nat) (hempty : (s.routers r).switchBuffer = [])
    (htimes : ∀ p, ∀ c ∈ (s.channels (cfg.linkTo (.router r p))).creditQueue.items,
      c.time < s.now) :
    Meets (wakeup cfg r s) Benign (fun t => (∃ lanes', Lanes cfg t lanes') ∧
      (∀ e ∈ (t.routers r).switchBuffer, e.1 ∈ List.range (cfg.numInports r) ∧ e.2.time ≤ t.now ∧
        e.2.stage = (.st, t.now)) ∧
      ((t.routers r).switchBuffer.map Prod.fst).Nodup) := by
  refine (h.requests r).bind (fun reqs hreqs => ?_)
  have hstart : Granting cfg r reqs (List.range (cfg.numOutports r)) s := by
    refine ⟨⟨lanes, h⟩, nodup_range, fun p o invc _ hreq => ?_, ?_, ?_, ?_⟩
    · obtain ⟨hp, hready⟩ := hreqs p o invc hreq
      exact ⟨hp, hready, htimes p⟩
    all_goals
      rw [hempty]
      simp
  have hadvance : Granting cfg r reqs (List.range (cfg.numOutports r)) (s.setRouter r
      { s.routers r with roundRobinInvc := fun inport =>
        SwitchAllocator.advance ((s.routers r).roundRobinInvc inport) cfg.numVcs }) :=
    hstart.setRouter rfl
  have hloop := Meets.foldlM_left (R := Granting cfg r reqs)
    (f := arbitrateOutport cfg r reqs) hadvance (fun o left t ht => ht.arbitrate)
  refine hloop.bind (fun t ht => ?_)
  obtain ⟨lanes', hlanes'⟩ := ht.lanes
  refine (hlanes'.checkForWakeup r).mono (fun u hu => ⟨⟨lanes', hu.1⟩, ?_, ?_⟩)
  · rw [hu.2.1, hu.2.2]
    exact fun e he => ⟨mem_range.mpr (ht.switch e he).1, (ht.switch e he).2⟩
  · rw [hu.2.2]
    exact ht.nodup

end Lanes

theorem InputUnit.drained (r : Nat) (rand : Nat → Nat) {s : Net X} {inport : Nat}
    (hfresh : ∀ f ∈ (s.channels (cfg.linkTo (.router r inport))).linkBuffer.items, s.now ≤ f.time)
    (hdistinct : ∀ time, (s.channels (cfg.linkTo (.router r inport))).linkBuffer.items.countP
      (fun f => f.time = time) ≤ 1) :
    Meets (InputUnit.wakeup cfg r rand s inport) AnyFault (fun t =>
      ∀ f ∈ (t.channels (cfg.linkTo (.router r inport))).linkBuffer.items, s.now < f.time) := by
  unfold InputUnit.wakeup
  dsimp only
  split
  · rename_i hnone
    exact .ok (due_none hnone)
  rename_i f rest hpop
  refine (meets_anyFault _).bind (fun v _ => .ok ?_)
  have hdue := (due_some hpop hfresh hdistinct).2
  split
  · rw [channels_setChannel_self]
    exact hdue
  · intro g hg
    change g ∈ ((setChannel _ _ _).channels _).linkBuffer.items at hg
    rw [channels_setChannel_self] at hg
    exact hdue g hg

end Gem5.Garnet
