import Gem5.Garnet.System

namespace Gem5.Garnet

open Lib Function CrossbarSwitch Meets

variable {X : Heaps} {cfg : Config}

structure Net.SameNodes (s t : Net X) : Prop where
  now : t.now = s.now
  nis : t.nis = s.nis
  messages : t.messages = s.messages
  nextMessage : t.nextMessage = s.nextMessage

namespace Net.SameNodes

variable {s t u : Net X}

theorem refl (s : Net X) : s.SameNodes s := ⟨rfl, rfl, rfl, rfl⟩

section

variable (h : s.SameNodes t)
include h

theorem trans (h' : t.SameNodes u) : s.SameNodes u :=
  ⟨h'.now.trans h.now, h'.nis.trans h.nis, h'.messages.trans h.messages,
    h'.nextMessage.trans h.nextMessage⟩

theorem setChannel (source : Port) (ch : Channel X) :
    s.SameNodes (t.setChannel source ch) := { h with }

theorem setRouter (r : Nat) (router : RouterState) :
    s.SameNodes (t.setRouter r router) := { h with }

theorem schedule (c : Component) (time : Nat) : s.SameNodes (t.schedule c time) := { h with }

end

end Net.SameNodes

open Net

theorem NetworkLink.sameNodes (s : Net X) (source : Port) :
    s.SameNodes (NetworkLink.wakeup cfg source s) := by
  unfold NetworkLink.wakeup
  dsimp only
  split
  · exact .refl s
  · exact ((SameNodes.refl s).setChannel _ _).schedule _ _

theorem CreditLink.sameNodes (s : Net X) (source : Port) :
    s.SameNodes (CreditLink.wakeup cfg source s) := by
  unfold CreditLink.wakeup
  dsimp only
  split
  · exact .refl s
  · exact ((SameNodes.refl s).setChannel _ _).schedule _ _

section Router

variable {E : Fault → Prop}

abbrev AnyFault : Fault → Prop := fun _ => True

theorem meets_anyFault {α : Type} (x : Except Fault α) : Meets x AnyFault (fun _ => True) := by
  cases x <;> trivial

theorem InputUnit.sameNodes (r : Nat) (rand : Nat → Nat) (s : Net X) (inport : Nat) :
    Meets (InputUnit.wakeup cfg r rand s inport) AnyFault s.SameNodes := by
  unfold InputUnit.wakeup
  dsimp only
  split
  · exact .ok (.refl s)
  · refine (meets_anyFault _).bind (fun v _ => ?_)
    refine .ok ?_
    split
    · exact (SameNodes.refl s).setChannel _ _
    · exact ((SameNodes.refl s).setChannel _ _).schedule _ _

theorem OutputUnit.sameNodes (r : Nat) (s : Net X) (outport : Nat) :
    Meets (OutputUnit.wakeup cfg r s outport) AnyFault s.SameNodes :=
  (meets_anyFault _).bind (fun _ _ => .ok ((SameNodes.refl s).setChannel _ _))

namespace SwitchAllocator

theorem outVcFor_sameNodes (r outport inport invc : Nat) (s : Net X) :
    Meets (outVcFor cfg r outport inport invc s) AnyFault (fun p => s.SameNodes p.2) := by
  unfold outVcFor
  dsimp only
  split
  · exact .ok (.refl s)
  · split
    · exact .error trivial
    · exact .ok (((SameNodes.refl s).setChannel _ _).setChannel _ _)

theorem sendToSwitch_sameNodes (r outport inport invc outvc : Nat) (s : Net X) :
    Meets (sendToSwitch cfg r outport inport invc outvc s) AnyFault s.SameNodes := by
  unfold sendToSwitch
  dsimp only
  split
  · exact .error trivial
  · refine (meets_anyFault _).bind (fun o _ => ?_)
    refine (meets_anyFault _).bind (fun v _ => .ok ?_)
    exact ((((SameNodes.refl s).setChannel _ _).setRouter _ _).setChannel _ _).schedule _ _

theorem arbitrateOutport_sameNodes (r : Nat) (reqs : List (Option (Nat × Nat))) (s : Net X)
    (outport : Nat) : Meets (arbitrateOutport cfg r reqs s outport) AnyFault s.SameNodes := by
  unfold arbitrateOutport
  dsimp only
  split
  · exact .ok ((SameNodes.refl s).setRouter _ _)
  · refine (outVcFor_sameNodes _ _ _ _ _).bind (fun p hp => ?_)
    exact (sendToSwitch_sameNodes _ _ _ _ _ _).mono
      (fun t ht => (((SameNodes.refl s).setRouter _ _).trans hp).trans ht)

theorem wakeup_sameNodes (r : Nat) (s : Net X) : Meets (wakeup cfg r s) AnyFault s.SameNodes := by
  refine (meets_anyFault _).bind (fun reqs _ => ?_)
  refine bind (Q := s.SameNodes) (foldlM ((SameNodes.refl s).setRouter _ _)
    (fun o _ t ht => (arbitrateOutport_sameNodes r reqs t o).mono (fun u hu => ht.trans hu))) ?_
  intro t ht
  refine (meets_anyFault _).bind (fun ready _ => .ok ?_)
  split
  · exact ht.schedule _ _
  · exact ht

end SwitchAllocator

theorem CrossbarSwitch.traverse_sameNodes (r : Nat) (s : Net X) (inport : Nat) :
    s.SameNodes (traverse r s inport) := by
  unfold traverse
  dsimp only
  split
  · exact .refl s
  · split
    · exact (((SameNodes.refl s).setRouter _ _).setChannel _ _).schedule _ _
    · exact .refl s

theorem CrossbarSwitch.sameNodes (r : Nat) (s : Net X) :
    s.SameNodes (wakeup cfg r s) :=
  List.foldlRecOn (motive := s.SameNodes) _ _ (.refl s)
    (fun t ht inport _ => ht.trans (traverse_sameNodes r t inport))

theorem Router.sameNodes (r : Nat) (rand : Nat → Nat) (s : Net X) :
    Meets (Router.wakeup cfg r rand s) AnyFault s.SameNodes := by
  refine bind (Q := s.SameNodes) (foldlM (.refl s)
    (fun p _ t ht => (InputUnit.sameNodes r rand t p).mono (fun u hu => ht.trans hu))) ?_
  intro t ht
  refine bind (Q := s.SameNodes) (foldlM ht
    (fun o _ t ht => (OutputUnit.sameNodes r t o).mono (fun u hu => ht.trans hu))) ?_
  intro u hu
  refine (SwitchAllocator.wakeup_sameNodes r u).bind (fun v hv => .ok ?_)
  exact (hu.trans hv).trans (CrossbarSwitch.sameNodes r v)

end Router

structure Mailbox where
  inNode : Nat → Ruby.MessageBuffer
  sent : List (Nat × Nat × List Nat)
  injected : List Packet
  dequeued : List (Nat × Nat)

def NetworkInterface.mailbox (ni : NetworkInterface X) : Mailbox :=
  { ni with }

/-- The cycle, the messages, and what the interfaces have to do with them are the same. -/
structure Net.SameMail (s t : Net X) : Prop where
  now : t.now = s.now
  mail : ∀ n, (t.nis n).mailbox = (s.nis n).mailbox
  messages : t.messages = s.messages
  nextMessage : t.nextMessage = s.nextMessage

namespace Net.SameMail

variable {s t u : Net X}

theorem refl (s : Net X) : s.SameMail s := ⟨rfl, fun _ => rfl, rfl, rfl⟩

section

variable (h : s.SameMail t)
include h

theorem trans (h' : t.SameMail u) : s.SameMail u :=
  ⟨h'.now.trans h.now, fun n => (h'.mail n).trans (h.mail n), h'.messages.trans h.messages,
    h'.nextMessage.trans h.nextMessage⟩

theorem setChannel (source : Port) (ch : Channel X) :
    s.SameMail (t.setChannel source ch) := { h with }

theorem schedule (c : Component) (time : Nat) : s.SameMail (t.schedule c time) := { h with }

theorem setNi (hni : ni.mailbox = (t.nis n).mailbox) : s.SameMail (t.setNi n ni) := by
  refine ⟨h.now, fun m => ?_, h.messages, h.nextMessage⟩
  rw [← h.mail m]
  unfold Net.setNi
  dsimp only
  obtain rfl | hm := eq_or_ne m n
  · rw [update_self, hni]
  · rw [update_of_ne hm]

end

end Net.SameMail

theorem Net.SameNodes.sameMail {s t : Net X} (h : s.SameNodes t) : s.SameMail t :=
  ⟨h.now, fun n => by rw [h.nis], h.messages, h.nextMessage⟩

namespace NetworkInterface

theorem sendFlit_sameMail (n vc : Nat) (s : Net X) :
    Meets (sendFlit n vc s) AnyFault s.SameMail := by
  unfold sendFlit
  dsimp only
  split
  · exact .ok (.refl s)
  · refine (meets_anyFault _).bind (fun o _ => .ok ?_)
    refine SameMail.schedule (SameMail.setNi ((SameMail.refl s).setChannel _ _) ?_) _ _
    rfl

section

variable (n : Nat) (s : Net X)
include n s

theorem scheduleOutputLink_sameMail : Meets (scheduleOutputLink cfg n s) AnyFault s.SameMail := by
  unfold scheduleOutputLink
  dsimp only
  have h : s.SameMail (s.setNi n { s.nis n with
      vcRoundRobin := if (s.nis n).vcRoundRobin + 1 = cfg.numVcs then 0
        else (s.nis n).vcRoundRobin + 1 }) := (SameMail.refl s).setNi rfl
  split
  · exact .ok h
  · exact (sendFlit_sameMail _ _ _).mono (fun t ht => h.trans ht)

theorem checkReschedule_sameMail : s.SameMail (checkReschedule cfg n s) := by
  unfold checkReschedule
  split
  · exact (SameMail.refl s).schedule _ _
  · exact .refl s

theorem receiveFlit_sameMail : s.SameMail (receiveFlit cfg n s) := by
  unfold receiveFlit
  dsimp only
  split
  · exact .refl s
  · refine SameMail.schedule (SameMail.setNi ((SameMail.refl s).setChannel _ _) ?_) _ _
    rfl

theorem receiveCredit_sameMail : Meets (receiveCredit cfg n s) AnyFault s.SameMail :=
  (meets_anyFault _).bind (fun _ _ => .ok ((SameMail.refl s).setChannel _ _))

end

/-- After the messages are taken, a wakeup leaves the mail alone. -/
theorem wakeup_mail {Q : Net X → Prop} (n : Nat) (s : Net X)
    (hQ : ∀ s t : Net X, s.SameMail t → Q s → Q t) (hs : Q s)
    (htake : ∀ s : Net X, Q s →
      Meets (takeMessages cfg n (List.range cfg.virtualNetworks) s) AnyFault Q) :
    Meets (wakeup cfg n s) AnyFault Q := by
  unfold wakeup
  have hwoken : s.SameMail (s.setNi n { s.nis n with lastWakeup := some s.now }) :=
    (SameMail.refl s).setNi rfl
  refine (htake _ (hQ s _ hwoken hs)).bind (fun t ht => ?_)
  refine (scheduleOutputLink_sameMail n t).bind (fun u hu => ?_)
  refine (receiveCredit_sameMail n _).mono (fun v hv => hQ t v ?_ ht)
  exact hu.trans (((checkReschedule_sameMail n u).trans (receiveFlit_sameMail n _)).trans hv)

end NetworkInterface

end Gem5.Garnet
