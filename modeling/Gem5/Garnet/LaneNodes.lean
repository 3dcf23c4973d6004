import Gem5.Garnet.LaneSteps

namespace Gem5.Garnet

open Lib NetworkInterface List Function Injection

variable {X : Heaps} {cfg : Config}

/-- A change of an interface that is not at the start of the lane. -/
theorem LaneAt.setNi (h : LaneAt cfg s source v ℓ) (hne : source ≠ .ni n)
    (ni : NetworkInterface X) :
    LaneAt cfg (s.setNi n ni) source v ℓ := by
  refine ⟨h.channel, h.toRouter, h.toNode, fun m hm => ?_, h.fromRouter⟩
  have hmn : m ≠ n := fun heq => hne (hm.trans (congrArg Port.ni heq))
  rw [s.nis_setNi_of_ne hmn]
  exact h.fromNode m hm

theorem LaneAt.ofNode {s : Net X} {n v : Nat} {ℓ : Lane} {ch : Channel X}
    {ni : NetworkInterface X} (hch : ch.At v (cfg.maxCreditCount v) s.now ℓ) (hni : ni.At v s.now ℓ)
    (hto : ∀ r p, cfg.wiring (.ni n) = .router r p → (ch.vcs v).At s.now ℓ)
    (hnode : ∀ m, cfg.wiring (.ni n) = .ni m → ℓ.arrived = ℓ.forwarded) :
    LaneAt cfg ((s.setChannel (.ni n) ch).setNi n ni) (.ni n) v ℓ := by
  have hself : ((s.setChannel (.ni n) ch).setNi n ni).channels (.ni n) = ch :=
    s.channels_setChannel_self _ _
  refine ⟨?_, ?_, hnode, fun m hm => ?_, nofun⟩
  · rw [hself]
    exact hch
  · rw [hself]
    exact hto
  · cases hm
    rw [Net.nis_setNi_self]
    exact hni

namespace Lanes

variable {s s' : Net X} {lanes : Port → Nat → Lane}

theorem changeNode (h : Lanes cfg s lanes) {n v : Nat} {ℓ : Lane} {ch : Channel X}
    {ni : NetworkInterface X} (hch : ch.At v (cfg.maxCreditCount v) s.now ℓ)
    (hother : ∀ u, u ≠ v → ch.At u (cfg.maxCreditCount u) s.now (lanes (.ni n) u))
    (hvcs : ch.vcs = (s.channels (.ni n)).vcs) (hni : ni.At v s.now ℓ)
    (hbuffers : ∀ u, u ≠ v → ni.outVcBuffers u = (s.nis n).outVcBuffers u)
    (hto : ∀ r p, cfg.wiring (.ni n) = .router r p → (ch.vcs v).At s.now ℓ)
    (hnode : ∀ m, cfg.wiring (.ni n) = .ni m → ℓ.arrived = ℓ.forwarded)
    (hin : ∀ r o w, Owns cfg s r (.ni n) v o w →
      ℓ.packet = (lanes (.ni n) v).packet ∧ ℓ.forwarded = (lanes (.ni n) v).forwarded) :
    Lanes cfg ((s.setChannel (.ni n) ch).setNi n ni) (setLane lanes (.ni n) v ℓ) := by
  refine h.change (.ofNode hch hni hto hnode) (fun source' v' hne => ?_)
    (fun r source' u o w hown => ?_) nofun hin
  · have hl := h.lane source' v'
    obtain rfl | hs := eq_or_ne source' (.ni n)
    · have hv : v' ≠ v := fun hv => hne ⟨rfl, hv⟩
      refine .ofNode (hother v' hv) ?_ (fun r p hp => ?_) hl.toNode
      · have hold := hl.fromNode n rfl
        refine ⟨?_, ?_, hold.queued⟩
        · rw [hbuffers v' hv]
          exact hold.buffer
        · rw [hbuffers v' hv]
          exact hold.vc
      · rw [hvcs]
        exact hl.toRouter r p hp
    · exact (hl.setChannel hs ch).setNi hs ni
  · have hown' : Owns cfg (s.setChannel (.ni n) ch) r source' u o w :=
      { hown with }
    exact hown'.of_setChannel hvcs

end Lanes

/-! ### Making flits -/

theorem allFlits_flitsOf {q : FlitBuffer X} (hempty : q.items = []) (packet : Packet)
    (vc curTime : Nat) :
    AllFlits ((flitsOf packet vc curTime).foldl PQueue.insert q).items packet 0 packet.size ∧
      ∀ f ∈ ((flitsOf packet vc curTime).foldl PQueue.insert q).items,
        f.vc = vc ∧ f.time = curTime := by
  unfold flitsOf
  induction packet.size with
  | zero =>
    rw [range_zero, map_nil, foldl_nil, hempty]
    exact ⟨Stream.of_absent nofun 0, nofun⟩
  | succ k ih =>
    obtain ⟨hall, hvc⟩ := ih
    rw [range_succ, map_append, foldl_append]
    refine ⟨hall.insert rfl rfl (fun g hg _ => ?_), fun f hf => ?_⟩
    · obtain ⟨i, -, hi, htag⟩ := hall.tag_of_mem hg rfl
      have hgid : g.id = i := (Prod.mk.inj htag).2
      have hgt := (hvc g hg).2
      unfold KeyLt Flit.key
      dsimp only
      omega
    · rcases PQueue.mem_insert.mp hf with heq | hf
      · rw [heq]
        exact ⟨rfl, rfl⟩
      · exact hvc f hf

theorem calculateVC_idle {vnet curTime vc next : Nat}
    (h : calculateVC cfg vnet curTime outVcs rounds a = (some vc, next)) :
    (outVcs vc).state = .idle := by
  induction rounds generalizing a with
  | zero => cases h
  | succ rounds ih =>
    unfold calculateVC at h
    dsimp only at h
    split at h
    · rename_i hidle
      cases h
      exact (of_decide_eq_true hidle).1
    · exact ih h

namespace Lanes

variable {s : Net X} {lanes : Port → Nat → Lane}

theorem inject (h : Lanes cfg s lanes) (n vc : Nat) (packet : Packet) (ni : NetworkInterface X)
    (hsize : 0 < packet.size) (hidle : ((s.channels (.ni n)).outVcs vc).state = .idle)
    (hni : ni.outVcBuffers = update (s.nis n).outVcBuffers vc
      ((flitsOf packet vc s.now).foldl PQueue.insert ((s.nis n).outVcBuffers vc))) :
    Lanes cfg ((s.setChannel (.ni n) ((s.channels (.ni n)).setOutVc vc
      (((s.channels (.ni n)).outVcs vc).setState .active s.now))).setNi n ni)
      (setLane lanes (.ni n) vc (.start packet)) := by
  have hl := h.lane (.ni n) vc
  have hfree : (lanes (.ni n) vc).busy = false := by
    by_contra hbusy
    have := hl.channel.state
    rw [if_pos (by simpa using hbusy), hidle] at this
    cases this
  have hsent := hl.channel.free hfree
  obtain ⟨-, hrf, hfa, hal, hlq, hqs, -⟩ := hl.chain
  have hold := hl.fromNode n rfl
  have hempty : ((s.nis n).outVcBuffers vc).items = [] := by
    have habs := hold.buffer.absent (by unfold Lane.toSend; rw [hfree, hsent]; rfl)
    exact eq_nil_iff_forall_not_mem.mpr (fun f hf => Bool.noConfusion (habs f hf))
  obtain ⟨hall, hvc⟩ := allFlits_flitsOf hempty packet vc s.now
  refine h.changeNode (hl.channel.start hsize (by omega) hfree (by omega))
    (fun u hu => (h.lane (.ni n) u).channel.setOutVc_other hu.symm _) rfl ⟨?_, ?_, rfl⟩
    (fun u hu => ?_) (fun r p hp => ?_) (fun _ _ => rfl) (fun r o w hown => ?_)
  · rw [hni, update_self]
    exact hall
  · intro f hf
    rw [hni, update_self] at hf
    exact ⟨(hvc f hf).1, (hvc f hf).2.le⟩
  · rw [hni, update_of_ne hu]
  · have hold := hl.toRouter r p hp
    refine ⟨hold.buffer.reset (by omega) 0, hold.times, ?_, hold.stateTime, hold.idle, hold.outport,
      fun _ _ => rfl⟩
    refine hold.state.trans ?_
    rw [if_neg (by omega), if_neg (fun hcond => lt_irrefl 0 hcond.1)]
  · have := h.unfinished hown
    omega

theorem sendFlit (h : Lanes cfg s lanes) (n vc : Nat)
    (hcredit : 0 < ((s.channels (.ni n)).outVcs vc).creditCount)
    (htimes : ∀ f ∈ (s.channels (.ni n)).outQueue.items, f.time ≤ s.now + 1) :
    Meets (NetworkInterface.sendFlit n vc s) Benign (fun t => ∃ lanes', Lanes cfg t lanes') := by
  unfold NetworkInterface.sendFlit
  dsimp only
  split
  · exact .ok ⟨lanes, h⟩
  rename_i f hfront
  unfold OutVcState.decrementCredit
  rw [if_pos hcredit]
  have hl := h.lane (.ni n) vc
  have hold := hl.fromNode n rfl
  obtain ⟨hlt, htag, hrest⟩ := hold.buffer.drop hfront rfl
  obtain ⟨hpacket, hid⟩ := Prod.mk.inj htag
  have hperm := (PQueue.front_eq_some hfront).1
  have hvc := (hold.vc f (hperm.mem_iff.mpr mem_cons_self)).1
  have hbusy : (lanes (.ni n) vc).busy = true := by
    by_contra hnot
    unfold Lane.toSend at hlt
    rw [if_neg hnot] at hlt
    omega
  have hsize : (lanes (.ni n) vc).toSend = (lanes (.ni n) vc).packet.size := if_pos hbusy
  refine .ok ⟨setLane lanes (.ni n) vc { lanes (.ni n) vc with
    sent := (lanes (.ni n) vc).sent + 1
    queued := (lanes (.ni n) vc).queued + 1 }, ?_⟩
  refine Lanes.schedule (h.changeNode
    ((hl.channel.send hbusy (hsize ▸ hlt) hcredit).queue (f := { f with time := s.now + 1 }) hvc
      hpacket (hid.trans hold.queued.symm) htimes)
    (fun u hu => ((h.lane (.ni n) u).channel.setOutVc_other hu.symm _).queue_other
      (f := { f with time := s.now + 1 }) (fun heq => hu (heq.symm.trans hvc))) rfl
    ⟨?_, ?_, congrArg (· + 1) hold.queued⟩ (fun u hu => ?_)
    (fun r p hp => (hl.toRouter r p hp).congr rfl rfl rfl) hl.toNode
    (fun _ _ _ _ => ⟨rfl, rfl⟩)) _ _
  · dsimp only
    rw [update_self]
    exact hrest
  · intro g hg
    dsimp only at hg
    rw [update_self] at hg
    exact hold.vc g (hperm.mem_iff.mpr (.tail _ hg))
  · dsimp only
    rw [update_of_ne hu]

theorem receiveFlit (h : Lanes cfg s lanes) (n : Nat)
    (htimes : ∀ f rest, s.arrival (cfg.linkTo (.ni n)) = some (f, rest) →
      ∀ c ∈ (s.channels (cfg.linkTo (.ni n))).creditQueue.items, c.time < s.now) :
    ∃ lanes', Lanes cfg (NetworkInterface.receiveFlit cfg n s) lanes' := by
  unfold NetworkInterface.receiveFlit
  dsimp only
  split
  · exact ⟨lanes, h⟩
  rename_i f rest hpop
  have hto : cfg.wiring (cfg.linkTo (.ni n)) = .ni n := cfg.wiring.apply_symm_apply _
  have hl := h.lane (cfg.linkTo (.ni n)) f.vc
  have hnode := hl.toNode n hto
  obtain ⟨hlt, hpacket, hid, hch⟩ := hl.channel.arrive hpop rfl
  obtain ⟨-, hrf, hfa, hal, hlq, hqs, hsize⟩ := hl.chain
  have htail : f.isTail = decide ((lanes (cfg.linkTo (.ni n)) f.vc).forwarded + 1 =
      (lanes (cfg.linkTo (.ni n)) f.vc).packet.size) := by
    rw [Bool.eq_iff_iff, Flit.isTail_iff (by rw [hpacket]; omega), decide_eq_true_iff, hid, hpacket,
      hnode]
  refine ⟨setLane lanes (cfg.linkTo (.ni n)) f.vc { lanes (cfg.linkTo (.ni n)) f.vc with
    arrived := (lanes (cfg.linkTo (.ni n)) f.vc).arrived + 1
    forwarded := (lanes (cfg.linkTo (.ni n)) f.vc).forwarded + 1 }, ?_⟩
  have hnew := hch.returnCredit (htimes f rest hpop)
  rw [htail]
  have hlanes : Lanes cfg (s.setChannel (cfg.linkTo (.ni n))
      (({ s.channels (cfg.linkTo (.ni n)) with linkBuffer := rest }).returnCredit f.vc
        (decide ((lanes (cfg.linkTo (.ni n)) f.vc).forwarded + 1 =
          (lanes (cfg.linkTo (.ni n)) f.vc).packet.size)) s.now)) (setLane lanes
      (cfg.linkTo (.ni n)) f.vc { lanes (cfg.linkTo (.ni n)) f.vc with
        arrived := (lanes (cfg.linkTo (.ni n)) f.vc).arrived + 1
        forwarded := (lanes (cfg.linkTo (.ni n)) f.vc).forwarded + 1 }) := by
    refine h.change (hl.ofChannel hnew (fun r p hp => ?_) (fun _ _ => ?_) rfl rfl rfl rfl)
      (h.setChannel_other (fun u hu =>
        ((h.lane _ u).channel.arrive_other hpop hu.symm).returnCredit_other hu.symm _) rfl)
      (fun _ _ _ _ _ hown => hown.of_setChannel rfl) (fun _ _ _ _ _ _ => ⟨rfl, rfl, rfl⟩)
      (fun r o w hown => ?_)
    · rw [hto] at hp
      cases hp
    · exact congrArg (· + 1) hnode
    · obtain ⟨p, hp⟩ := hown.target
      rw [hto] at hp
      cases hp
  refine Lanes.schedule (Lanes.setNi hlanes ?_) _ _
  rfl

end Lanes

/-! ### The wakeup of a node -/

def NetworkInterface.Injection.net (s : Net X) (n : Nat) (w : Injection X) : Net X :=
  (s.setChannel (.ni n) w.channel).setNi n w.ni

theorem NetworkInterface.Injection.net_set (s : Net X) (n : Nat) (w : Injection X) (ch : Channel X)
    (ni : NetworkInterface X) :
    ((w.net s n).setChannel (.ni n) ch).setNi n ni = (s.setChannel (.ni n) ch).setNi n ni := by
  unfold net Net.setNi Net.setChannel
  simp only [update_idem]

/-- Every message that waits has a size. -/
def Sized (s : Net X) : Prop :=
  ∀ n vnet, ∀ m ∈ ((s.nis n).inNode vnet).prioHeap, 0 < (s.messages m.id).size

theorem Config.numFlits_pos (cfg : Config) {size : Nat} (h : 0 < size) : 0 < cfg.numFlits size := by
  have := cfg.niFlitSize_pos
  exact Nat.div_pos (by omega) this

namespace Lanes

variable {s : Net X} {lanes : Port → Nat → Lane}

theorem flitisizeLoop (h : Lanes cfg (w.net s n) lanes)
    (vnet msg : Nat) (unicast : Bool) {numFlits : Nat} (hsize : 0 < numFlits) (dests : List Nat) :
    ∃ lanes', Lanes cfg ((NetworkInterface.flitisizeLoop cfg n vnet msg numFlits s.now unicast dests
      w).2.net s n) lanes' := by
  induction dests generalizing w lanes with
  | nil => exact ⟨lanes, h⟩
  | cons d ds ih =>
    unfold NetworkInterface.flitisizeLoop
    split
    · rename_i allocator _
      have hnew : Lanes cfg ((w.net s n).setNi n { w.ni with
          vcAllocator := update w.ni.vcAllocator vnet allocator }) lanes :=
        h.setNi (by rw [net, Net.nis_setNi_self])
      refine ⟨lanes, hnew.of_eq rfl rfl (fun m => ?_) (fun _ => rfl)⟩
      unfold net Net.setNi
      simp only [update_idem]
    rename_i vc allocator hvc
    have hch : (w.net s n).channels (.ni n) = w.channel := s.channels_setChannel_self _ _
    have hni : (w.net s n).nis n = w.ni := Net.nis_setNi_self _ _ _
    have hinj := h.inject n vc
      ⟨msg, if unicast then w.msg.destination else [d], vnet, numFlits, n, d,
        cfg.routing.routerOf d⟩
      (NetworkInterface.inject ⟨msg, if unicast then w.msg.destination else [d], vnet, numFlits,
        n, d, cfg.routing.routerOf d⟩ vc s.now { w with
          ni := { w.ni with vcAllocator := update w.ni.vcAllocator vnet allocator }
          msg := if unicast then w.msg
            else { w.msg with destination := w.msg.destination.filter (· ≠ d) } }).ni hsize
      (by rw [hch]; exact calculateVC_idle hvc) (by rw [hni]; rfl)
    rw [hch, net_set] at hinj
    exact ih hinj

theorem flitisizeMessage (h : Lanes cfg s lanes) (n vnet msg : Nat)
    (hsize : 0 < (s.messages msg).size) :
    ∃ lanes', Lanes cfg (NetworkInterface.flitisizeMessage cfg n vnet msg s).2 lanes' := by
  have hstart : Lanes cfg (net s n ⟨s.nis n, s.channels (.ni n), s.messages msg⟩) lanes := by
    refine h.of_eq rfl ?_ (fun m => ?_) (fun _ => rfl)
    · exact update_eq_self _ _
    · unfold net Net.setNi Net.setChannel
      dsimp only
      rw [update_eq_self]
  obtain ⟨lanes', hlanes⟩ := hstart.flitisizeLoop vnet msg
    ((s.messages msg).destination.length ≤ 1) (cfg.numFlits_pos hsize)
    (s.messages msg).destination
  exact ⟨lanes', hlanes.of_eq rfl rfl (fun _ => rfl) (fun _ => rfl)⟩

end Lanes

theorem flitisizeLoop_size {n vnet msg numFlits curTime : Nat} (dests : List Nat)
    (w : Injection X) :
    (NetworkInterface.flitisizeLoop cfg n vnet msg numFlits curTime unicast dests w).2.msg.size =
      w.msg.size := by
  induction dests generalizing w with
  | nil => rfl
  | cons d ds ih =>
    unfold NetworkInterface.flitisizeLoop
    split
    · rfl
    · rw [ih]
      split <;> rfl

/-- What holds while a node takes its messages, if making flits and taking a message off its
buffer keep it. -/
theorem takeMessages_rule {Q : Net X → Prop} {n : Nat}
    (hflits : ∀ s vnet m, Q s → m ∈ ((s.nis n).inNode vnet).prioHeap →
      Q (NetworkInterface.flitisizeMessage cfg n vnet m.id s).2)
    (hdeq : ∀ s vnet m b x, Q s → ((s.nis n).inNode vnet).dequeue s.now = some (x, b) →
      Q (s.setNi n { s.nis n with
        inNode := update (s.nis n).inNode vnet b
        dequeued := (s.nis n).dequeued ++ [(vnet, m)] })) (vnets : List Nat) (s : Net X) (h : Q s) :
    Meets (NetworkInterface.takeMessages cfg n vnets s) Benign Q := by
  induction vnets generalizing s with
  | nil => exact .ok h
  | cons vnet rest ih =>
    unfold NetworkInterface.takeMessages
    split
    · exact ih s h
    rename_i m heap hheap
    split
    · have hQ := hflits s vnet m h (hheap ▸ .head _)
      split
      · rename_i t hfl
        rw [hfl] at hQ
        exact .ok hQ
      rename_i t hfl
      rw [hfl] at hQ
      split
      · exact .error trivial
      · rename_i x b hb
        exact ih _ (hdeq t vnet m.id b x hQ hb)
    · exact ih s h

end Gem5.Garnet
