import Gem5.Garnet.LaneNodes
import Gem5.Garnet.LaneRouters
import Gem5.Garnet.Multicast

namespace Gem5.Garnet

open Lib List Function NetworkInterface Net Config Stream

variable {X : Heaps} {cfg : Config}

/-! ### Messages that wait have a size -/

namespace Sized

variable {s t : Net X}

theorem sameMail (h : Sized s) (hst : s.SameMail t) : Sized t := by
  intro n vnet m hm
  have hin : (t.nis n).inNode = (s.nis n).inNode := congrArg Mailbox.inNode (hst.mail n)
  rw [hst.messages]
  exact h n vnet m (by rwa [← hin])

theorem flitisizeMessage (h : Sized s) (n vnet msg : Nat) :
    Sized (flitisizeMessage cfg n vnet msg s).2 := by
  obtain ⟨done, left, -, -, hmail, -⟩ := @flitisizeLoop_spec X cfg n vnet msg
    (cfg.numFlits (s.messages msg).size) s.now ((s.messages msg).destination.length ≤ 1)
    (s.messages msg).destination ⟨s.nis n, s.channels (.ni n), s.messages msg⟩
  have hin : ∀ n', ((NetworkInterface.flitisizeMessage cfg n vnet msg s).2.nis n').inNode =
      (s.nis n').inNode := by
    intro n'
    obtain rfl | hn := eq_or_ne n' n
    · exact (congrArg inNode (nis_setNi_self _ _ _)).trans
        (congrArg Mailbox.inNode hmail)
    · rw [(flitisizeMessage_frame n vnet msg s).1 n' hn]
  have hsize : ∀ m, ((NetworkInterface.flitisizeMessage cfg n vnet msg s).2.messages m).size =
      (s.messages m).size := by
    intro m
    obtain rfl | hm := eq_or_ne m msg
    · exact (congrArg MessageObject.size (update_self _ _ _)).trans (flitisizeLoop_size _ _)
    · rw [(flitisizeMessage_frame n vnet msg s).2.1 m hm]
  intro n' vnet' m hm
  rw [hsize]
  exact h n' vnet' m (by rwa [hin] at hm)

theorem setNi (h : Sized s) (hni : ni.inNode = update (s.nis n).inNode vnet b)
    (hb : ∀ m ∈ b.prioHeap, 0 < (s.messages m.id).size) : Sized (s.setNi n ni) := by
  intro n' vnet' m hm
  obtain rfl | hn := eq_or_ne n' n
  · rw [s.nis_setNi_self, hni] at hm
    obtain rfl | hv := eq_or_ne vnet' vnet
    · rw [update_self] at hm
      exact hb m hm
    · rw [update_of_ne hv] at hm
      exact h n' vnet' m hm
  · rw [s.nis_setNi_of_ne hn] at hm
    exact h n' vnet' m hm

theorem send (h : Sized s) {size delta : Nat} (hsize : 0 < size) :
    Meets (s.send n vnet D size delta c) Benign Sized := by
  unfold Net.send
  split
  · exact .error trivial
  rename_i b henq
  have hnew : ∀ msg, 0 < (s.messages msg).size →
      0 < (update s.messages s.nextMessage ⟨D, size⟩ msg).size := by
    intro msg hmsg
    by_cases heq : msg = s.nextMessage
    · rw [heq, update_self]
      exact hsize
    · rw [update_of_ne heq]
      exact hmsg
  have hold : Sized { s with
      messages := update s.messages s.nextMessage ⟨D, size⟩
      nextMessage := s.nextMessage + 1 } := fun n' vnet' m hm => hnew m.id (h n' vnet' m hm)
  refine .ok (hold.setNi (b := b) rfl (fun m hm => ?_))
  have hmem := (Ruby.MessageBuffer.enqueue_spec henq).1.mem_iff.mp (mem_map_of_mem hm)
  rcases mem_cons.mp hmem with heq | hmem
  · rw [heq]
    change 0 < (update s.messages s.nextMessage ⟨D, size⟩ s.nextMessage).size
    rw [update_self]
    exact hsize
  · obtain ⟨m', hm', heq⟩ := mem_map.mp hmem
    rw [← heq]
    exact hnew m'.id (h n vnet m' hm')

end Sized

/-- What every state of a network keeps: the VCs of all links are lanes, flits and credits
are on time, and the crossbars are empty between wakeups. -/
structure Flows (cfg : Config) (s : Net X) : Prop where
  lanes : ∃ lanes, Lanes cfg s lanes
  timed : Timed cfg s
  sized : Sized s
  switch : ∀ r, (s.routers r).switchBuffer = []

theorem Lanes.awake (h : Lanes cfg s lanes) (c : Component) : Lanes cfg (s.awake c) lanes :=
  h.of_eq rfl rfl (fun _ => rfl) (fun _ => rfl)

/-- Inside the wakeup of a component, as long as it has done only what any component may do. -/
structure Awake (cfg : Config) (c : Component) (s t : Net X) : Prop where
  lanes : ∃ lanes, Lanes cfg t lanes
  handled : ∀ c', Handled cfg c' (s.awake c) t

theorem Awake.trans (h : Awake cfg c s t) (hlanes : ∃ lanes, Lanes cfg u lanes)
    (hh : ∀ c', Handled cfg c' t u) : Awake cfg c s u :=
  ⟨hlanes, fun c' => (h.handled c').trans (hh c')⟩

/-- The flits of this cycle have been taken from the input ports of a router but those `left`. -/
structure Inputs (cfg : Config) (r : Nat) (s : Net X) (left : List Nat) (t : Net X) : Prop
    extends Awake cfg (.router r) s t where
  drained : ∀ p < cfg.numInports r, p ∉ left →
    ∀ f ∈ (t.channels (cfg.linkTo (.router r p))).linkBuffer.items, s.now < f.time

namespace Inputs

variable {s t u : Net X}

theorem inputUnit (ht : Inputs cfg r s (p :: left) t) (h : Timed cfg s) (rand : Nat → Nat) :
    Meets (InputUnit.wakeup cfg r rand t p) Benign (Inputs cfg r s left) := by
  obtain ⟨lanes, hlanes⟩ := ht.lanes
  have hht := ht.handled (.router r)
  have hfresh := h.fresh hht (cfg.linkTo (.router r p))
  refine (((hlanes.inputUnit r rand p hfresh).and (InputUnit.handled r rand t p)).and
    (InputUnit.drained r rand hfresh (h.distinct hht _))).mono (fun u hu => ?_)
  obtain ⟨⟨hu, hhu⟩, hdrained⟩ := hu
  refine ⟨ht.trans hu hhu, fun p' hp' hnot f hf => ?_⟩
  obtain rfl | heq := eq_or_ne p' p
  · have := hdrained f hf
    rwa [hht.now] at this
  · refine ht.drained p' hp' (fun hmem => ?_) f (((hhu (.router r)).channel _).linkBuffer.subset hf)
    exact (mem_cons.mp hmem).elim heq hnot

theorem outputUnit (ht : Inputs cfg r s left t) (o : Nat) :
    Meets (OutputUnit.wakeup cfg r t o) Benign (Inputs cfg r s left) := by
  obtain ⟨lanes, hlanes⟩ := ht.lanes
  have htake : Meets (OutputUnit.wakeup cfg r t o) Benign
      (fun u => ∃ lanes', Lanes cfg u lanes') :=
    (hlanes.takeCredit (.router r o)).bind (fun ch hch => .ok hch)
  refine (htake.and (OutputUnit.handled r t o)).mono
    (fun u hu => ⟨ht.trans hu.1 hu.2, fun p hp hnot f hf => ?_⟩)
  exact ht.drained p hp hnot f (((hu.2 (.router r)).channel _).linkBuffer.subset hf)

theorem drainedRouter (ht : Inputs cfg r s [] t) (hh : Handled cfg (.router r) t u) :
    Drained cfg (.router r) u := by
  intro source hexists hcons f hf
  obtain ⟨p, hw, rfl⟩ := eq_linkTo_router hcons
  have hbelow := cfg.wiring_below _ hexists
  rw [hw] at hbelow
  rw [hh.now, (ht.handled (.router r)).now]
  exact ht.drained p hbelow not_mem_nil f ((hh.channel _).linkBuffer.subset hf)

/-- After the units the switch is arbitrated and traversed. -/
theorem switch (ht : Inputs cfg r s [] t) (h : Flows cfg s)
    (hdue : (.router r, s.now) ∈ s.events) :
    Meets (SwitchAllocator.wakeup cfg r t >>= fun u => .ok (CrossbarSwitch.wakeup cfg r u)) Benign
      (fun u => (∃ lanes, Lanes cfg u lanes) ∧ Handled cfg (.router r) (s.awake (.router r)) u ∧
        Drained cfg (.router r) u ∧ (u.routers r).switchBuffer = []) := by
  obtain ⟨lanes, hlanes⟩ := ht.lanes
  have hempty : (t.routers r).switchBuffer = [] := by
    rw [(ht.handled (.ni 0)).others r nofun]
    exact h.switch r
  have htimes : ∀ p, ∀ c ∈ (t.channels (cfg.linkTo (.router r p))).creditQueue.items,
      c.time < t.now := by
    intro p c hc
    rw [(ht.handled (.router r)).now]
    exact (h.timed.channel _).routerDue r p (cfg.wiring.apply_symm_apply _) hdue c
      ((ht.handled (.link (.ni 0))).creditQueue_of_ne (consumer_ne_link _ _) c hc)
  refine ((hlanes.switchAllocator r hempty htimes).and
    (SwitchAllocator.wakeup_handled r t)).bind (fun u hu => .ok ?_)
  obtain ⟨⟨hu, hswitch, hnodup⟩, hhu⟩ := hu
  have hsu := (ht.handled (.router r)).trans hhu
  have hcross : Crossing cfg r (List.range (cfg.numInports r)) u :=
    ⟨hu, hswitch, hnodup, h.timed.outQueue hsu⟩
  have hhv : Handled cfg (.router r) u (CrossbarSwitch.wakeup cfg r u) :=
    CrossbarSwitch.handled r u
  exact ⟨hcross.wakeup.lanes, hsu.trans hhv, ht.drainedRouter (hhu.trans hhv), hcross.wakeup.empty⟩

end Inputs

namespace Flows

variable {s : Net X}

/-- A router takes all flits that are due, and its crossbar is empty again. -/
theorem router (h : Flows cfg s) (rand : Nat → Nat) (hdue : (.router r, s.now) ∈ s.events) :
    Meets (Router.wakeup cfg r rand (s.awake (.router r))) Benign (Flows cfg) := by
  obtain ⟨lanes, hlanes⟩ := h.lanes
  have hstart : Inputs cfg r s (List.range (cfg.numInports r)) (s.awake (.router r)) :=
    ⟨⟨⟨lanes, hlanes.awake _⟩, fun c => .refl _⟩, fun p hp hnot => absurd (mem_range.mpr hp) hnot⟩
  have hmain : Meets (Router.wakeup cfg r rand (s.awake (.router r))) Benign _ :=
    (Meets.foldlM_left hstart (fun p left t ht => ht.inputUnit h.timed rand)).bind (fun t ht =>
      (Meets.foldlM ht (fun o _ u hu => hu.outputUnit o)).bind (fun u hu => hu.switch h hdue))
  refine (hmain.and (Router.sameNodes r rand _)).mono (fun t ht => ?_)
  obtain ⟨⟨hlanes', hhandled, hdrained, hempty⟩, hnodes⟩ := ht
  have hawake : Sized (s.awake (.router r)) := h.sized
  refine ⟨hlanes', h.timed.wake hhandled hdrained, hawake.sameMail hnodes.sameMail, fun r' => ?_⟩
  by_cases hr : r' = r
  · rw [hr]
    exact hempty
  · rw [hhandled.others r' (fun heq => hr (by cases heq; rfl))]
    exact h.switch r'

theorem scheduleOutputLink {t : Net X} {lanes : Port → Nat → Lane} (hlanes : Lanes cfg t lanes)
    (n : Nat) (htimes : ∀ f ∈ (t.channels (.ni n)).outQueue.items, f.time ≤ t.now + 1) :
    Meets (scheduleOutputLink cfg n t) Benign
      (fun u => ∃ lanes', Lanes cfg u lanes') := by
  unfold NetworkInterface.scheduleOutputLink
  dsimp only
  split
  · exact .ok ⟨lanes, hlanes.setNi rfl⟩
  rename_i vc hfind
  have hcand := find?_some hfind
  unfold isCandidateVc at hcand
  simp only [Bool.and_eq_true] at hcand
  have hset : Lanes cfg (t.setNi n { t.nis n with
      vcRoundRobin := if (t.nis n).vcRoundRobin + 1 = cfg.numVcs then 0
        else (t.nis n).vcRoundRobin + 1 }) lanes := hlanes.setNi rfl
  exact hset.sendFlit n vc (of_decide_eq_true hcand.1.2) htimes

theorem receiveFlit {v : Net X} (h : Timed cfg s) (hv : Awake cfg (.ni n) s v) :
    (∃ lanes, Lanes cfg (receiveFlit cfg n v) lanes) ∧
    ∀ f ∈ ((NetworkInterface.receiveFlit cfg n v).channels (cfg.linkTo (.ni n))).linkBuffer.items,
      s.now < f.time := by
  obtain ⟨lanes, hlanes⟩ := hv.lanes
  have hsv := hv.handled (.ni n)
  have hch := h.channel (cfg.linkTo (.ni n))
  have hfresh := h.fresh hsv (cfg.linkTo (.ni n))
  have hdistinct := h.distinct hsv (cfg.linkTo (.ni n))
  have hnow := hsv.now
  constructor
  · -- a flit that is due finds that no credit was returned in this cycle
    refine hlanes.receiveFlit n (fun f rest hpop c hc => ?_)
    have hold := (hv.handled (.link (.ni 0))).creditQueue_of_ne (consumer_ne_link _ _) c hc
    have hf := (due_some hpop hfresh hdistinct).1
    obtain ⟨-, hperm, -⟩ := PQueue.takeIf_eq_some hpop
    have hmem := (hsv.channel _).linkBuffer.subset (hperm.mem_iff.mpr mem_cons_self)
    rw [hnow] at hf ⊢
    refine lt_of_le_of_ne (hch.creditQueue c hold) (fun heq => ?_)
    exact absurd hf (hch.nodeDue n (cfg.wiring.apply_symm_apply _) c hold heq f hmem).ne'
  · unfold NetworkInterface.receiveFlit
    dsimp only
    split
    · rename_i hnone
      have := due_none hnone
      rwa [hnow] at this
    rename_i f rest hpop
    have := (due_some hpop hfresh hdistinct).2
    rw [hnow] at this
    intro g hg
    change g ∈ ((setChannel _ _ _).channels _).linkBuffer.items at hg
    rw [channels_setChannel_self] at hg
    exact this g hg

section

variable (h : Flows cfg s)
include h

theorem takeMessages (n : Nat) :
    Meets (takeMessages cfg n (List.range cfg.virtualNetworks) ((s.awake (.ni n)).setNi n
      { (s.awake (.ni n)).nis n with lastWakeup := some (s.awake (.ni n)).now })) Benign
      (fun t => Awake cfg (.ni n) s t ∧ Sized t) := by
  obtain ⟨lanes, hlanes⟩ := h.lanes
  refine takeMessages_rule (fun t vnet m ht hm => ?_) (fun t vnet m b x ht hdeq => ?_) _ _
    ⟨⟨⟨lanes, (hlanes.awake _).setNi rfl⟩, fun c => (Net.Handled.refl _).setNi _ _⟩, ?_⟩
  · obtain ⟨ht, hsized⟩ := ht
    obtain ⟨lanes', hlanes'⟩ := ht.lanes
    exact ⟨ht.trans (hlanes'.flitisizeMessage n vnet m.id (hsized n vnet m hm))
      (flitisizeMessage_handled n vnet m.id t), hsized.flitisizeMessage n vnet m.id⟩
  · obtain ⟨⟨⟨lanes', hlanes'⟩, hht⟩, hsized⟩ := ht
    refine ⟨⟨⟨lanes', hlanes'.setNi rfl⟩, fun c => (hht c).setNi _ _⟩,
      hsized.setNi rfl (fun m' hm' => ?_)⟩
    obtain ⟨front, hfront, -⟩ := Ruby.MessageBuffer.dequeue_spec hdeq
    exact hsized n vnet m' (hfront ▸ .tail _ hm')
  · have hawake : Sized (s.awake (.ni n)) := h.sized
    refine hawake.sameMail (Net.SameMail.setNi (Net.SameMail.refl _) ?_)
    rfl

/-- A network interface takes the flit that is due and sends one at most. -/
theorem node (n : Nat) :
    Meets (wakeup cfg n (s.awake (.ni n))) Benign (Flows cfg) := by
  unfold wakeup
  refine (h.takeMessages n).bind (fun t ht => ?_)
  obtain ⟨ht, hsized⟩ := ht
  obtain ⟨lanes, hlanes⟩ := ht.lanes
  have htimes := h.timed.outQueue (ht.handled (.ni n)) (.ni n)
  refine (((scheduleOutputLink hlanes n htimes).and (scheduleOutputLink_handled n t)).and
    (scheduleOutputLink_sameMail n t)).bind (fun u hu => ?_)
  obtain ⟨⟨⟨lanes', hu⟩, hhu⟩, hmail⟩ := hu
  have hv : Awake cfg (.ni n) s (checkReschedule cfg n u) := by
    refine (ht.trans ⟨lanes', hu⟩ hhu).trans ⟨lanes', ?_⟩ (checkReschedule_handled n u)
    unfold checkReschedule
    split
    · exact hu.schedule _ _
    · exact hu
  have hmailv : t.SameMail (checkReschedule cfg n u) := hmail.trans (checkReschedule_sameMail n u)
  generalize checkReschedule cfg n u = v at hv hmailv
  obtain ⟨⟨lanes₁, hrecv⟩, hdrained⟩ := receiveFlit h.timed hv
  have htakeCredit : Meets (receiveCredit cfg n (NetworkInterface.receiveFlit cfg n v)) Benign
      (fun w => ∃ lanes', Lanes cfg w lanes') :=
    (hrecv.takeCredit (.ni n)).bind (fun ch hch => .ok hch)
  refine ((htakeCredit.and (receiveCredit_handled n _)).and
    (receiveCredit_sameMail n _)).mono (fun w hw => ?_)
  obtain ⟨⟨hw, hhcredit⟩, hmailw⟩ := hw
  have hsw := ((hv.handled (.ni n)).trans (receiveFlit_handled n v)).trans hhcredit
  refine ⟨hw, h.timed.wake hsw (fun source _ hcons f hf => ?_), ?_, fun r => ?_⟩
  · obtain rfl := eq_linkTo_ni hcons
    rw [hsw.now]
    exact hdrained f ((hhcredit.channel _).linkBuffer.subset hf)
  · exact hsized.sameMail ((hmailv.trans (receiveFlit_sameMail n v)).trans hmailw)
  · rw [hsw.others r nofun]
    exact h.switch r

theorem link (hdue : (.link source, s.now) ∈ s.events) (hexists : cfg.LinkExists source) :
    Flows cfg (NetworkLink.wakeup cfg source (s.awake (.link source))) := by
  obtain ⟨lanes, hlanes⟩ := h.lanes
  have hsized : Sized (s.awake (.link source)) := h.sized
  refine ⟨(hlanes.awake _).link source (fun f hf => ((h.timed.channel source).linkBuffer f hf).2.1),
    h.timed.link hdue hexists, hsized.sameMail (NetworkLink.sameNodes _ source).sameMail,
    fun r => ?_⟩
  unfold NetworkLink.wakeup
  dsimp only
  split <;> exact h.switch r

theorem creditLink (hdue : (.credit source, s.now) ∈ s.events) :
    Flows cfg (CreditLink.wakeup cfg source (s.awake (.credit source))) := by
  obtain ⟨lanes, hlanes⟩ := h.lanes
  have hsized : Sized (s.awake (.credit source)) := h.sized
  refine ⟨(hlanes.awake _).creditLink source ((h.timed.channel source).creditDue hdue),
    h.timed.creditLink source, hsized.sameMail (CreditLink.sameNodes _ source).sameMail,
    fun r => ?_⟩
  unfold CreditLink.wakeup
  dsimp only
  split <;> exact h.switch r

theorem send {size delta : Nat} (hsize : 0 < size) :
    Meets (s.send n vnet D size delta c) Benign (Flows cfg) := by
  obtain ⟨lanes, hlanes⟩ := h.lanes
  have hsized : Meets (s.send n vnet D size delta c) Benign Sized := h.sized.send hsize
  unfold Net.send at hsized ⊢
  split
  · exact .error trivial
  rename_i b henq
  rw [henq] at hsized
  refine .ok ⟨⟨lanes, hlanes.of_eq rfl rfl (fun m => ?_) (fun _ => rfl)⟩,
    ⟨h.timed.channel, h.timed.events⟩, hsized, h.switch⟩
  obtain rfl | hm := eq_or_ne m n
  · rw [s.nis_setNi_self]
  · rw [s.nis_setNi_of_ne hm]

theorem tick (hdue : ∀ e ∈ s.events, s.now < e.2) : Flows cfg { s with now := s.now + 1 } := by
  obtain ⟨lanes, hlanes⟩ := h.lanes
  exact ⟨⟨lanes, hlanes.tick⟩, h.timed.tick hdue, h.sized, h.switch⟩

/-- Whatever a network does, it fails no assertion of its flow control. -/
theorem exec (henabled : s.Enabled cfg l) : Meets (s.exec cfg l) Benign (Flows cfg) := by
  cases l with
  | tick => exact .ok (h.tick henabled)
  | ni n => exact h.node n
  | router r rand => exact h.router rand henabled
  | link source => exact .ok (h.link henabled.1 henabled.2)
  | credit source => exact .ok (h.creditLink henabled.1)
  | send n vnet D size delta c => exact h.send henabled.2.2.2.2

end

theorem start (hempty : ∀ n vnet, (buffers n vnet).prioHeap = []) :
    Flows cfg (start cfg buffers : Net X) := by
  have hnone : ∀ (packet : Packet) (v : Nat), Flits [] v packet 0 0 :=
    fun packet v => of_absent nofun 0
  have hcredits : ∀ v size : Nat, Credits [] v size 0 0 :=
    fun v size => of_absent nofun 0
  refine ⟨⟨fun _ _ => .free ⟨0, [], 0, 0, 0, 0, 0⟩,
    ⟨fun source v => ?_, fun r source u o v hown => ?_,
    fun r source source' u u' o v hown => ?_⟩⟩, .start buffers, fun n vnet m hm => ?_, fun _ => rfl⟩
  · refine ⟨⟨le_rfl, fun _ => rfl, fun hb => absurd hb Bool.false_ne_true, rfl, le_rfl,
      rfl, hnone _ _, hnone _ _, hcredits _ _, hcredits _ _⟩, fun r p _ => ⟨?_, ?_, rfl, le_rfl,
      fun _ => rfl, ?_, ?_⟩, fun _ _ => rfl, fun n _ => ⟨?_, ?_, rfl⟩, fun r o _ => ⟨?_⟩⟩
    · exact of_absent nofun 0
    · intro f hf
      cases hf
    · intro hactive
      cases hactive
    · intro hactive
      cases hactive
    · exact of_absent nofun 0
    · intro f hf
      cases hf
    · exact of_absent nofun 0
  · cases hown.outvc
  · cases hown.outvc
  · have hheap : ((Net.start cfg buffers : Net X).nis n).inNode vnet = buffers n vnet := rfl
    rw [hheap, hempty n vnet] at hm
    cases hm

theorem of_reachable (h : (machine X cfg).Reachable s) : Flows cfg s :=
  h.invariant (fun _ ⟨_, hempty, hs⟩ => hs ▸ start hempty)
    (fun _ _ _ h hs => (h.exec hs.1).of_ok hs.2)

end Flows

end Gem5.Garnet
