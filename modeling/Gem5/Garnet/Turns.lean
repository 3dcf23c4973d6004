import Gem5.Garnet.Frames
import Gem5.Garnet.Timing

namespace Gem5.Garnet

open Lib Net Net.Handled

variable {X : Heaps} {cfg : Config}

/-! What the units of a router and of a node do in a turn. Those that return no credits may
do it in the turn of any component. -/

namespace InputUnit

theorem handled (r : Nat) (rand : Nat → Nat) (s : Net X) (inport : Nat) :
    Meets (InputUnit.wakeup cfg r rand s inport) AnyFault (fun t => ∀ c,
      Net.Handled cfg c s t) := by
  unfold InputUnit.wakeup
  dsimp only
  split
  · exact .ok (fun _ => .refl s)
  rename_i f rest hpop
  refine (meets_anyFault _).bind (fun v _ => .ok (fun c => ?_))
  have h : ∀ v, Net.Handled cfg c s (s.setChannel (cfg.linkTo (.router r inport))
      (({ s.channels (cfg.linkTo (.router r inport)) with linkBuffer := rest }).setVc f.vc v)) :=
    fun v => (refl s).setChannel (((Channel.Handled.refl _).arrive hpop).setVc _ _)
  split
  · exact h _
  · have := cfg.pipeStages_pos r
    exact (h _).schedule _ (by omega)

end InputUnit

theorem OutputUnit.handled (r : Nat) (s : Net X) (outport : Nat) :
    Meets (OutputUnit.wakeup cfg r s outport) AnyFault (fun t => ∀ c, Net.Handled cfg c s t) := by
  unfold OutputUnit.wakeup
  cases htake : (s.channels (.router r outport)).takeCredit cfg.maxCreditCount s.now with
  | error e => exact trivial
  | ok ch =>
    exact fun c => (refl s).setChannel ((Channel.Handled.refl _).takeCredit _ _ htake)

namespace SwitchAllocator

theorem outVcFor_handled (r outport inport invc : Nat) (s : Net X) :
    Meets (outVcFor cfg r outport inport invc s) AnyFault
      (fun p => Net.Handled cfg (.router r) s p.2) := by
  unfold outVcFor
  dsimp only
  split
  · exact .ok (.refl s)
  · split
    · exact .error trivial
    · exact .ok (((refl s).setChannel ((Channel.Handled.refl _).setOutVc _ _)).setChannel
        ((Channel.Handled.refl _).setVc _ _))

theorem sendToSwitch_handled (r outport inport invc outvc : Nat) (s : Net X) :
    Meets (sendToSwitch cfg r outport inport invc outvc s) AnyFault
      (Net.Handled cfg (.router r) s) := by
  unfold sendToSwitch
  dsimp only
  split
  · exact .error trivial
  refine (meets_anyFault _).bind (fun o _ => ?_)
  refine (meets_anyFault _).bind (fun v _ => .ok ?_)
  have hto : cfg.consumer (cfg.linkTo (.router r inport)) = .router r :=
    Config.consumer_router (cfg.wiring.apply_symm_apply _)
  refine schedule ((((refl s).setChannel
    ((Channel.Handled.refl _).setOutVc _ _)).setRouter _).setChannel
    (((Channel.Handled.refl _).setVc _ _).returnCredit hto _ _)) _ ?_
  exact lt_add_one _

theorem arbitrateOutport_handled (r : Nat) (reqs : List (Option (Nat × Nat))) (s : Net X)
    (outport : Nat) :
    Meets (arbitrateOutport cfg r reqs s outport) AnyFault (Net.Handled cfg (.router r) s) := by
  unfold arbitrateOutport
  dsimp only
  split
  · exact .ok ((refl s).setRouter _)
  · refine (outVcFor_handled _ _ _ _ _).bind (fun p hp => ?_)
    exact (sendToSwitch_handled _ _ _ _ _ _).mono
      (fun t ht => (((refl s).setRouter _).trans hp).trans ht)

theorem wakeup_handled (r : Nat) (s : Net X) :
    Meets (wakeup cfg r s) AnyFault (Net.Handled cfg (.router r) s) := by
  refine (meets_anyFault _).bind (fun reqs _ => ?_)
  refine Meets.bind (Q := Net.Handled cfg (.router r) s)
    (Meets.foldlM ((refl s).setRouter _)
      (fun o _ t ht => (arbitrateOutport_handled r reqs t o).mono (fun u hu => ht.trans hu))) ?_
  intro t ht
  refine (meets_anyFault _).bind (fun ready _ => .ok ?_)
  split
  · exact ht.schedule _ (by rw [ht.now]; exact lt_add_one _)
  · exact ht

end SwitchAllocator

theorem CrossbarSwitch.handled (r : Nat) (s : Net X) :
    Net.Handled cfg (.router r) s (CrossbarSwitch.wakeup cfg r s) := by
  refine List.foldlRecOn (motive := Net.Handled cfg (.router r) s) _ _ (.refl s)
    (fun t ht inport _ => ht.trans ?_)
  unfold CrossbarSwitch.traverse
  dsimp only
  split
  · exact .refl t
  · split
    · refine schedule (setChannel ((refl t).setRouter _) ?_) _
        (lt_add_one _)
      exact Channel.Handled.queue (Channel.Handled.refl _) rfl
    · exact .refl t

namespace NetworkInterface

theorem flitisizeMessage_handled (n vnet msg : Nat) (s : Net X) (c : Component) :
    Net.Handled cfg c s (flitisizeMessage cfg n vnet msg s).2 := by
  have hloop : ∀ (dests : List Nat) (numFlits : Nat) (unicast : Bool) (w : Injection X),
      Channel.Handled (cfg.consumer (.ni n) = c) s.now (s.channels (.ni n)) w.channel →
      Channel.Handled (cfg.consumer (.ni n) = c) s.now (s.channels (.ni n))
        (flitisizeLoop cfg n vnet msg numFlits s.now unicast dests w).2.channel := by
    intro dests
    induction dests with
    | nil => exact fun _ _ _ h => h
    | cons d ds ih =>
      intro numFlits unicast w h
      unfold flitisizeLoop
      split
      · exact h
      · exact ih _ _ _ (h.setOutVc _ _)
  have h := (refl s).setChannel (hloop (s.messages msg).destination
    (cfg.numFlits (s.messages msg).size) ((s.messages msg).destination.length ≤ 1)
    ⟨s.nis n, s.channels (.ni n), s.messages msg⟩ (.refl _))
  exact { h with }

theorem sendFlit_handled (n vc : Nat) (s : Net X) :
    Meets (sendFlit n vc s) AnyFault (fun t => ∀ c, Net.Handled cfg c s t) := by
  unfold sendFlit
  dsimp only
  split
  · exact .ok (fun _ => .refl s)
  · refine (meets_anyFault _).bind (fun o _ => .ok (fun c => ?_))
    refine schedule (((refl s).setChannel ?_).setNi _ _) _ (lt_add_one _)
    exact Channel.Handled.queue ((Channel.Handled.refl _).setOutVc _ _) rfl

section

variable (n : Nat) (s : Net X)
include n s

theorem scheduleOutputLink_handled :
    Meets (scheduleOutputLink cfg n s) AnyFault (fun t => ∀ c, Net.Handled cfg c s t) := by
  unfold scheduleOutputLink
  dsimp only
  split
  · exact .ok (fun c => (refl s).setNi _ _)
  · exact (sendFlit_handled _ _ _).mono (fun t ht c => ((refl s).setNi _ _).trans (ht c))

theorem checkReschedule_handled (c : Component) :
    Net.Handled cfg c s (checkReschedule cfg n s) := by
  unfold checkReschedule
  split
  · exact (refl s).schedule _ (lt_add_one _)
  · exact .refl s

theorem receiveFlit_handled : Net.Handled cfg (.ni n) s (receiveFlit cfg n s) := by
  unfold receiveFlit
  dsimp only
  split
  · exact .refl s
  · rename_i f rest hpop
    have hto : cfg.consumer (cfg.linkTo (.ni n)) = .ni n :=
      Config.consumer_ni (cfg.wiring.apply_symm_apply _)
    refine schedule (((refl s).setChannel ?_).setNi _ _) _ (lt_add_one _)
    exact ((Channel.Handled.refl _).arrive hpop).returnCredit hto _ _

theorem receiveCredit_handled :
    Meets (receiveCredit cfg n s) AnyFault (Net.Handled cfg (.ni n) s) := by
  unfold receiveCredit
  cases htake : (s.channels (.ni n)).takeCredit cfg.maxCreditCount s.now with
  | error e => exact trivial
  | ok ch => exact (refl s).setChannel ((Channel.Handled.refl _).takeCredit _ _ htake)

end

end NetworkInterface

/-! Flits that are due are taken: there is at most one on a link. -/

theorem due_none {now : Nat} (hnone : FlitBuffer.getReady b now = none) :
    ∀ f ∈ b.items, now < f.time := by
  intro f hf
  rcases PQueue.takeIf_eq_none hnone with hnil | h
  · rw [hnil] at hf
    cases hf
  · obtain ⟨a, -, ha, hmin⟩ := h
    have hlate : now < a.time := by simpa using ha
    rcases hmin f hf with hnot | heq
    · unfold KeyLt Flit.key at hnot
      omega
    · rwa [heq]

theorem due_some {now : Nat}
    (hpop : FlitBuffer.getReady b now = some (f, rest)) (hfresh : ∀ g ∈ b.items, now ≤ g.time)
    (hdistinct : ∀ time, b.items.countP (fun g => g.time = time) ≤ 1) :
    f.time = now ∧ ∀ g ∈ rest.items, now < g.time := by
  obtain ⟨hready, hperm, -⟩ := PQueue.takeIf_eq_some hpop
  have hf : f.time = now :=
    Nat.le_antisymm (of_decide_eq_true hready) (hfresh f (hperm.mem_iff.mpr List.mem_cons_self))
  refine ⟨hf, fun g hg => ?_⟩
  have hge := hfresh g (hperm.mem_iff.mpr (.tail _ hg))
  have hcount := hdistinct now
  rw [hperm.countP_eq, List.countP_cons, if_pos (decide_eq_true hf)] at hcount
  have hzero : rest.items.countP (fun g => g.time = now) = 0 := by omega
  have hne := List.countP_eq_zero.mp hzero g hg
  have hne : g.time ≠ now := fun heq => hne (decide_eq_true heq)
  omega

end Gem5.Garnet
