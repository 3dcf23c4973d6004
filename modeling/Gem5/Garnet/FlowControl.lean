import Gem5.Garnet.Flows

namespace Gem5.Garnet

open Lib

variable {X : Heaps} {cfg : Config} {s : Net X}

/-- The flits that the end of a link has buffered for a VC. A network interface keeps none. -/
def Net.buffered (cfg : Config) (s : Net X) (source : Port) (vc : Nat) : Nat :=
  match cfg.wiring source with
  | .ni _ => 0
  | .router _ _ => ((s.channels source).vcs vc).buffer.items.length

/-- Between wakeups, what was sent to a VC is in the output queue or further. -/
theorem Flows.queued (h : Flows cfg s) (hl : LaneAt cfg s source v ℓ) : ℓ.queued = ℓ.sent := by
  cases hsource : source with
  | ni n => exact (hl.fromNode n hsource).queued
  | router r o =>
    have hswitch := (hl.fromRouter r o hsource).switch
    have hle := hswitch.le
    have hcount := hswitch.countP
    rw [h.switch r] at hcount
    have hzero : ℓ.sent - ℓ.queued = 0 := hcount.symm
    omega

theorem LaneAt.buffered (hl : LaneAt cfg s source v ℓ) :
    s.buffered cfg source v + ℓ.forwarded = ℓ.arrived := by
  unfold Net.buffered
  cases hw : cfg.wiring source with
  | ni n => exact (zero_add _).trans (hl.toNode n hw).symm
  | router r p =>
    have hbuffer := (hl.toRouter r p hw).buffer
    have hle := hbuffer.le
    have hcount := hbuffer.countP
    rw [List.countP_true] at hcount
    dsimp only
    omega

/-- Credits are conserved: for every link and every VC of it, the credits upstream, the flits
on their way or buffered downstream, and the credits on their way back make up the size of
the VC. So the credits upstream never exceed it, and nothing that can happen fails the
assertions on them. As in all that follows, links take a cycle at least. -/
theorem credit_conservation (h : (machine X cfg).Reachable s) : (∀ source vc,
      ((s.channels source).outVcs vc).creditCount +
        (s.channels source).outQueue.items.countP (fun f => f.vc = vc) +
        (s.channels source).linkBuffer.items.countP (fun f => f.vc = vc) +
        s.buffered cfg source vc +
        (s.channels source).creditQueue.items.countP (fun c => c.vc = vc) +
        (s.channels source).creditBuffer.items.countP (fun c => c.vc = vc) = cfg.maxCreditCount vc ∧
      ((s.channels source).outVcs vc).creditCount ≤ cfg.maxCreditCount vc) ∧
    ∀ l, s.Enabled cfg l → s.exec cfg l ≠ .error .creditAboveMax ∧
      s.exec cfg l ≠ .error .creditBelowZero := by
  have hflows := Flows.of_reachable h
  obtain ⟨lanes, hlanes⟩ := hflows.lanes
  refine ⟨fun source vc => ?_, fun l henabled => ?_⟩
  · have hl := hlanes.lane source vc
    have hqueued := hflows.queued hl
    have hbuffered := hl.buffered
    obtain ⟨hcr, hrf, hfa, hal, hlq, hqs, -⟩ := hl.chain
    have hcredit := hl.channel.credit
    have houtQueue := hl.channel.outQueue.countP
    have hlinkBuffer := hl.channel.linkBuffer.countP
    have hcreditQueue := hl.channel.creditQueue.countP
    have hcreditBuffer := hl.channel.creditBuffer.countP
    omega
  · have hexec := hflows.exec henabled
    exact ⟨fun herror => hexec.of_error herror, fun herror => hexec.of_error herror⟩

/-- Two flits of a message of three have been sent to a VC of four places. -/
theorem credit_conservation_sending : ∃ s, (machine .sorted twoNodes).Reachable s ∧
    ((s.channels (.ni 0)).outVcs 0).creditCount = 2 ∧
    (s.channels (.ni 0)).outQueue.items.countP (fun f => f.vc = 0) +
      (s.channels (.ni 0)).linkBuffer.items.countP (fun f => f.vc = 0) +
      s.buffered twoNodes (.ni 0) 0 +
      (s.channels (.ni 0)).creditQueue.items.countP (fun c => c.vc = 0) +
      (s.channels (.ni 0)).creditBuffer.items.countP (fun c => c.vc = 0) = 2 := by
  obtain ⟨s, hs, hcredit⟩ := Machine.exists_run machine_step twoNodes.reachable_start
    [.send 0 0 [1] 48 1 .none, .tick, .ni 0, .tick, .ni 0, .link (.ni 0)]
    (P := fun s => ((s.channels (.ni 0)).outVcs 0).creditCount = 2) (by decide)
  have hsum := ((credit_conservation hs).1 (.ni 0) 0).1
  have hmax : twoNodes.maxCreditCount 0 = 4 := rfl
  exact ⟨s, hs, hcredit, by omega⟩

/-- A VC has one packet at a time. An input VC holds flits of one packet, without a gap and in
their order, from the head on as long as it has no output VC. An output VC is idle only when
the input VC it leads to is idle and empty, none of its flits is on the way, and all of its
credits are there. So nothing that can happen fails an assertion of the input units, of the
virtual channels or of the switch allocators, where links take a cycle at least. -/
theorem vc_exclusivity (h : (machine X cfg).Reachable s) :
    (∀ source vc r p, cfg.wiring source = .router r p →
      (∃ packet lo hi, AllFlits ((s.channels source).vcs vc).buffer.items packet lo hi ∧
        hi ≤ packet.size ∧ (((s.channels source).vcs vc).outvc = none → lo < hi → lo = 0)) ∧
      (((s.channels source).vcs vc).state = .idle →
        ((s.channels source).vcs vc).buffer.items = [])) ∧
    (∀ source vc, ((s.channels source).outVcs vc).state = .idle →
      (∀ r p, cfg.wiring source = .router r p → ((s.channels source).vcs vc).state = .idle ∧
        ((s.channels source).vcs vc).buffer.items = []) ∧
      (∀ f ∈ (s.channels source).outQueue.items, f.vc ≠ vc) ∧
      (∀ f ∈ (s.channels source).linkBuffer.items, f.vc ≠ vc) ∧
      ((s.channels source).outVcs vc).creditCount = cfg.maxCreditCount vc) ∧
    ∀ l, s.Enabled cfg l → ∀ e ∈ [Fault.headVcNotIdle, .bodyVcNotActive, .needStage,
      .inputVcNotEmpty, .noOutVc, .outVcNotActive, .portRange], s.exec cfg l ≠ .error e := by
  have hflows := Flows.of_reachable h
  obtain ⟨lanes, hlanes⟩ := hflows.lanes
  have hempty : ∀ {b : FlitBuffer X} {packet : Packet} {lo hi : Nat},
      AllFlits b.items packet lo hi →
      lo = hi → b.items = [] := fun hb heq => List.eq_nil_iff_forall_not_mem.mpr
    (fun f hf => Bool.noConfusion (hb.absent heq f hf))
  refine ⟨fun source vc r p hw => ?_, fun source vc hidle => ?_, fun l henabled e he herror => ?_⟩
  · have hl := hlanes.lane source vc
    have hvc := hl.toRouter r p hw
    obtain ⟨-, -, hfa, hal, hlq, hqs, hsize⟩ := hl.chain
    refine ⟨⟨_, _, _, hvc.buffer, by omega, fun hnone hlt => hvc.outvc ?_ hnone⟩,
      fun hidle => hempty hvc.buffer ?_⟩
    · rw [hvc.state, if_pos (by omega)]
    · have hstate := hvc.state
      rw [hidle] at hstate
      split_ifs at hstate
      omega
  · have hl := hlanes.lane source vc
    have hch := hl.channel
    obtain ⟨hcr, hrf, hfa, hal, hlq, hqs, -⟩ := hl.chain
    have hfree : (lanes source vc).busy = false := by
      by_contra hbusy
      have := hch.state
      rw [if_pos (by simpa using hbusy), hidle] at this
      cases this
    have hsent := hch.free hfree
    have hcredit := hch.credit
    refine ⟨fun r p hw => ?_, fun f hf => ?_, fun f hf => ?_, by omega⟩
    · have hvc := hl.toRouter r p hw
      refine ⟨?_, hempty hvc.buffer (by omega)⟩
      rw [hvc.state, if_neg (by omega)]
    · exact of_decide_eq_false (hch.outQueue.absent (by omega) f hf)
    · exact of_decide_eq_false (hch.linkBuffer.absent (by omega) f hf)
  · have hbenign := (hflows.exec henabled).of_error herror
    simp only [List.mem_cons, List.not_mem_nil, or_false] at he
    rcases he with rfl | rfl | rfl | rfl | rfl | rfl | rfl <;> exact hbenign

/-- Both nodes send to the second one. A flit waits in an input VC of the router while the
other one passes, and the output port has a VC that is idle. -/
theorem vc_exclusivity_contention : ∃ s, (machine .sorted twoNodes).Reachable s ∧
    twoNodes.wiring (.ni 1) = .router 0 1 ∧
    ((s.channels (.ni 1)).vcs 0).buffer.items.length = 1 ∧
    (∃ packet lo hi, AllFlits ((s.channels (.ni 1)).vcs 0).buffer.items packet lo hi) ∧
    ((s.channels (.router 0 1)).outVcs 1).state = .idle ∧
    ((s.channels (.router 0 1)).outVcs 1).creditCount = 4 := by
  obtain ⟨s, hs, hwaits, hidle⟩ := Machine.exists_run machine_step twoNodes.reachable_start
    [.send 0 0 [1] 16 1 .none, .send 1 0 [1] 16 1 .none, .tick, .ni 0, .ni 1, .tick, .link (.ni 0),
      .link (.ni 1), .tick, .router 0 (fun _ => 0)]
    (P := fun s => ((s.channels (.ni 1)).vcs 0).buffer.items.length = 1 ∧
      ((s.channels (.router 0 1)).outVcs 1).state = .idle) (by decide)
  have hall := vc_exclusivity hs
  obtain ⟨packet, lo, hi, hflits, -⟩ := (hall.1 (.ni 1) 0 0 1 rfl).1
  exact ⟨s, hs, rfl, hwaits, ⟨packet, lo, hi, hflits⟩, hidle,
    (hall.2.1 (.router 0 1) 1 hidle).2.2.2⟩

/-- An input VC of a router that has an output VC has it alone, within its virtual network. What
has gone out on that VC and is still on the way belongs to the packet that the input VC holds,
and comes before what is left of it there: packets are not mixed on a VC, where links take a
cycle at least. -/
theorem output_vc_not_shared (h : (machine X cfg).Reachable s) {r u o v : Nat} {source : Port}
    (hown : Owns cfg s r source u o v) :
    (∀ source' u', Owns cfg s r source' u' o v → source' = source ∧ u' = u) ∧
    cfg.vnetOf v = cfg.vnetOf u ∧ ((s.channels (.router r o)).outVcs v).state = .active ∧
    ∀ f ∈ ((s.channels source).vcs u).buffer.items,
      ∀ g ∈ (s.channels (.router r o)).outQueue.items ++
        (s.channels (.router r o)).linkBuffer.items,
        g.vc = v → g.packet = f.packet ∧ g.id < f.id := by
  obtain ⟨lanes, hlanes⟩ := (Flows.of_reachable h).lanes
  obtain ⟨hbusy, hpacket, hsent, hvnet, -⟩ := hlanes.owner r source u o v hown
  have hl := hlanes.lane (.router r o) v
  have hstate := hl.channel.state
  rw [if_pos hbusy] at hstate
  refine ⟨fun source' u' hown' => hlanes.unique r source' source u' u o v hown' hown, hvnet, hstate,
    fun f hf g hg hv => ?_⟩
  obtain ⟨p, hw⟩ := hown.target
  obtain ⟨i, hi, -, hfi⟩ := ((hlanes.lane source u).toRouter r p hw).buffer.tag_of_mem hf rfl
  obtain ⟨-, -, -, -, hlq, hqs, -⟩ := hl.chain
  have hsome : ∃ k < (lanes (.router r o) v).queued,
      (g.packet, g.id) = ((lanes (.router r o) v).packet, k) := by
    rcases List.mem_append.mp hg with hg | hg
    · obtain ⟨k, -, hk, hgk⟩ := hl.channel.outQueue.tag_of_mem hg (by simpa using hv)
      exact ⟨k, hk, hgk⟩
    · obtain ⟨k, -, hk, hgk⟩ := hl.channel.linkBuffer.tag_of_mem hg (by simpa using hv)
      exact ⟨k, by omega, hgk⟩
  obtain ⟨k, hk, hgk⟩ := hsome
  rw [Prod.mk.injEq] at hfi hgk
  exact ⟨by rw [hfi.1, hgk.1, hpacket], by omega⟩

/-- Two flits of a message of three have left the router. -/
theorem output_vc_not_shared_two : ∃ s, (machine .sorted twoNodes).Reachable s ∧
    Owns twoNodes s 0 (.ni 0) 0 1 0 ∧ ((s.channels (.router 0 1)).outVcs 0).state = .active := by
  obtain ⟨s, hs, hport, hvc⟩ := Machine.exists_run machine_step twoNodes.reachable_start
    [.send 0 0 [1] 48 1 .none, .tick, .ni 0, .tick, .ni 0, .link (.ni 0), .tick, .ni 0,
      .link (.ni 0), .router 0 (fun _ => 0), .tick, .router 0 (fun _ => 0)]
    (P := fun s => ((s.channels (.ni 0)).vcs 0).outport = some 1 ∧
      ((s.channels (.ni 0)).vcs 0).outvc = some 0) (by decide)
  have hown : Owns twoNodes s 0 (.ni 0) 0 1 0 := ⟨⟨0, rfl⟩, hport, hvc⟩
  exact ⟨s, hs, hown, (output_vc_not_shared hs hown).2.2.1⟩

/-- A flit on a link arrives within the latency of the link, in a cycle for which the end of the
link is scheduled and in which no other flit arrives on it; and nothing is scheduled for a cycle
that has passed. -/
theorem flits_arrive_on_time (h : (machine X cfg).Reachable s) :
    (∀ source, ∀ f ∈ (s.channels source).linkBuffer.items,
      s.now ≤ f.time ∧ f.time ≤ s.now + cfg.linkLatency source ∧
      (cfg.consumer source, f.time) ∈ s.events ∧
      (s.channels source).linkBuffer.items.countP (fun g => g.time = f.time) = 1) ∧
    ∀ e ∈ s.events, s.now ≤ e.2 := by
  have htimed := (Flows.of_reachable h).timed
  refine ⟨fun source f hf => ?_, htimed.events⟩
  obtain ⟨hnow, hlatency, -⟩ := (htimed.channel source).linkBuffer f hf
  refine ⟨hnow, hlatency, (htimed.channel source).scheduled f hf, le_antisymm ?_ ?_⟩
  · exact (htimed.channel source).distinct f.time
  · exact List.countP_pos_iff.mpr ⟨f, hf, by simp⟩

/-- The first flit of a message, on its way to the router. -/
theorem flits_arrive_on_time_first : ∃ s, (machine .sorted twoNodes).Reachable s ∧
    ∃ f ∈ (s.channels (.ni 0)).linkBuffer.items, (Component.router 0, f.time) ∈ s.events := by
  obtain ⟨s, hs, hflit⟩ := Machine.exists_run machine_step twoNodes.reachable_start
    [.send 0 0 [1] 48 1 .none, .tick, .ni 0, .tick, .ni 0, .link (.ni 0)]
    (P := fun s => (s.channels (.ni 0)).linkBuffer.items ≠ []) (by decide)
  obtain ⟨f, hf⟩ := List.exists_mem_of_ne_nil _ hflit
  exact ⟨s, hs, f, hf, ((flits_arrive_on_time hs).1 (.ni 0) f hf).2.2.1⟩

end Gem5.Garnet
