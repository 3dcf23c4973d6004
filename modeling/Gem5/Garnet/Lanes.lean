import Gem5.Garnet.System
import Gem5.Lib.Stream

namespace Gem5.Garnet

open Lib Function CreditBuffer FlitBuffer

variable {X : Heaps} {cfg : Config}

/-- A VC of a link as a pipeline: the packet that has it, and how many of its flits were
sent to it, put into the output queue, taken by the link, buffered at its end and
forwarded there, and for how many of these the credit was taken by the credit link and
has come back. -/
structure Lane where
  packet : Packet
  busy : Bool
  sent : Nat
  queued : Nat
  linked : Nat
  arrived : Nat
  forwarded : Nat
  returned : Nat
  credited : Nat

namespace Lane

def free (packet : Packet) : Lane := ⟨packet, false, 0, 0, 0, 0, 0, 0, 0⟩

def start (packet : Packet) : Lane := ⟨packet, true, 0, 0, 0, 0, 0, 0, 0⟩

def toSend (ℓ : Lane) : Nat := if ℓ.busy then ℓ.packet.size else 0

end Lane

/-- The flits of a VC in a buffer are those of a packet from `lo` up to `hi`, in order. -/
abbrev Flits (items : List Flit) (v : Nat) (packet : Packet) (lo hi : Nat) : Prop :=
  Stream (KeyLt Flit.key) (fun f => f.vc = v) (fun f => (f.packet, f.id)) (fun i => (packet, i))
    items lo hi

/-- The same of a buffer for one VC. -/
abbrev AllFlits (items : List Flit) (packet : Packet) (lo hi : Nat) : Prop :=
  Stream (KeyLt Flit.key) (fun _ => true) (fun f => (f.packet, f.id)) (fun i => (packet, i))
    items lo hi

/-- The credits of a VC in a buffer are those for the flits from `lo` up to `hi` of a packet
of this size, in order: the one for the last flit frees the VC. -/
abbrev Credits (items : List Credit) (v size lo hi : Nat) : Prop :=
  Stream (KeyLt Credit.key) (fun c => c.vc = v) Credit.isFreeSignal (fun i => decide (i + 1 = size))
    items lo hi

/-- A channel does what the lane of a VC says. -/
structure Channel.At (ch : Channel X) (v max now : Nat) (ℓ : Lane) : Prop where
  sent_le : ℓ.sent ≤ ℓ.packet.size
  free : ℓ.busy = false → ℓ.sent = 0
  unfinished : ℓ.busy = true → ℓ.credited < ℓ.packet.size
  state : (ch.outVcs v).state = if ℓ.busy then .active else .idle
  time : (ch.outVcs v).time ≤ now
  credit : (ch.outVcs v).creditCount + ℓ.sent = max + ℓ.credited
  outQueue : Flits ch.outQueue.items v ℓ.packet ℓ.linked ℓ.queued
  linkBuffer : Flits ch.linkBuffer.items v ℓ.packet ℓ.arrived ℓ.linked
  creditQueue : Credits ch.creditQueue.items v ℓ.packet.size ℓ.returned ℓ.forwarded
  creditBuffer : Credits ch.creditBuffer.items v ℓ.packet.size ℓ.credited ℓ.returned

/-- An input VC does. It is active from the arrival of the first flit until the last one
is forwarded. -/
structure VirtualChannel.At (vc : VirtualChannel X) (now : Nat) (ℓ : Lane) : Prop where
  buffer : AllFlits vc.buffer.items ℓ.packet ℓ.forwarded ℓ.arrived
  times : ∀ f ∈ vc.buffer.items, f.time ≤ now
  state : vc.state = if 0 < ℓ.arrived ∧ ℓ.forwarded < ℓ.packet.size then .active else .idle
  stateTime : vc.stateTime ≤ now
  idle : vc.state = .idle → vc.outvc = none
  outport : vc.state = .active → vc.outport.isSome
  outvc : vc.state = .active → vc.outvc = none → ℓ.forwarded = 0

/-- A network interface does, at the start of its link. -/
structure NetworkInterface.At (ni : NetworkInterface X) (v now : Nat) (ℓ : Lane) : Prop where
  buffer : AllFlits (ni.outVcBuffers v).items ℓ.packet ℓ.sent ℓ.toSend
  vc : ∀ f ∈ (ni.outVcBuffers v).items, f.vc = v ∧ f.time ≤ now
  queued : ℓ.queued = ℓ.sent

/-- The crossbar of a router does, at the start of a link. It has at most one flit for it. -/
structure RouterState.At (router : RouterState) (outport v : Nat) (ℓ : Lane) : Prop where
  switch : Stream (fun _ _ => False) (fun e => e.2.outport = outport ∧ e.2.vc = v)
    (fun e => (e.2.packet, e.2.id)) (fun i => (ℓ.packet, i)) router.switchBuffer ℓ.queued ℓ.sent

/-- A network does what a lane says, at both ends. -/
structure LaneAt (cfg : Config) (s : Net X) (source : Port) (v : Nat) (ℓ : Lane) : Prop where
  channel : (s.channels source).At v (cfg.maxCreditCount v) s.now ℓ
  toRouter : ∀ r p, cfg.wiring source = .router r p → ((s.channels source).vcs v).At s.now ℓ
  toNode : ∀ n, cfg.wiring source = .ni n → ℓ.arrived = ℓ.forwarded
  fromNode : ∀ n, source = .ni n → (s.nis n).At v s.now ℓ
  fromRouter : ∀ r o, source = .router r o → (s.routers r).At o v ℓ

/-- An input VC of a router, at the end of a link, has a VC of an output port. -/
structure Owns (cfg : Config) (s : Net X) (r : Nat) (source : Port) (u o v : Nat) : Prop where
  target : ∃ p, cfg.wiring source = .router r p
  outport : ((s.channels source).vcs u).outport = some o
  outvc : ((s.channels source).vcs u).outvc = some v

/-- The lanes of all VCs of a network. An input VC that has an output VC has sent to it
what it forwarded. -/
structure Lanes (cfg : Config) (s : Net X) (lanes : Port → Nat → Lane) : Prop where
  lane : ∀ source v, LaneAt cfg s source v (lanes source v)
  owner : ∀ r source u o v, Owns cfg s r source u o v → (lanes (.router r o) v).busy = true ∧
    (lanes (.router r o) v).packet = (lanes source u).packet ∧
    (lanes (.router r o) v).sent = (lanes source u).forwarded ∧
    cfg.vnetOf v = cfg.vnetOf u ∧ ¬ (source = .router r o ∧ u = v)
  unique : ∀ r source source' u u' o v, Owns cfg s r source u o v → Owns cfg s r source' u' o v →
    source = source' ∧ u = u'

theorem LaneAt.chain (h : LaneAt cfg s source v ℓ) :
    ℓ.credited ≤ ℓ.returned ∧ ℓ.returned ≤ ℓ.forwarded ∧ ℓ.forwarded ≤ ℓ.arrived ∧
      ℓ.arrived ≤ ℓ.linked ∧ ℓ.linked ≤ ℓ.queued ∧ ℓ.queued ≤ ℓ.sent ∧ ℓ.sent ≤ ℓ.packet.size := by
  refine ⟨h.channel.creditBuffer.le, h.channel.creditQueue.le, ?_, h.channel.linkBuffer.le,
    h.channel.outQueue.le, ?_, h.channel.sent_le⟩
  · cases htarget : cfg.wiring source with
    | ni n => exact (h.toNode n htarget).ge
    | router r p => exact (h.toRouter r p htarget).buffer.le
  · cases hsource : source with
    | ni n => exact (h.fromNode n hsource).queued.le
    | router r o => exact (h.fromRouter r o hsource).switch.le

namespace Channel.At

variable {ch : Channel X} {v max now : Nat} {ℓ : Lane}

theorem later (h : ch.At v max now ℓ) (hle : now ≤ now') : ch.At v max now' ℓ :=
  { h with time := h.time.trans hle }

/-! ### What happens to the flits of the lane, and to those of others -/

section

variable (h : ch.At v max now ℓ)
include h

theorem link {f : Flit} {rest : FlitBuffer X} {time : Nat}
    (hpop : getReady ch.outQueue now = some (f, rest)) (hvc : f.vc = v)
    (htimes : ∀ g ∈ ch.linkBuffer.items, g.time ≤ time) :
    At { ch with outQueue := rest, linkBuffer := ch.linkBuffer.insert { f with time } } v max now
      { ℓ with linked := ℓ.linked + 1 } := by
  obtain ⟨hlt, htag, hrest⟩ := h.outQueue.takeIf hpop (decide_eq_true hvc)
  obtain ⟨hpacket, hid⟩ := Prod.mk.inj htag
  refine { h with outQueue := hrest, linkBuffer := ?_ }
  refine h.linkBuffer.insert (decide_eq_true hvc) (Prod.ext hpacket hid) (fun g hg hgv => ?_)
  obtain ⟨i, -, hi, htag⟩ := h.linkBuffer.tag_of_mem hg hgv
  have hgid : g.id = i := (Prod.mk.inj htag).2
  have := htimes g hg
  unfold KeyLt Flit.key
  dsimp only
  omega

theorem link_other {f : Flit} {rest : FlitBuffer X} {time : Nat}
    (hpop : getReady ch.outQueue now = some (f, rest)) (hvc : f.vc ≠ v) :
    At { ch with outQueue := rest, linkBuffer := ch.linkBuffer.insert { f with time } } v max now
      ℓ :=
  { h with
    outQueue := h.outQueue.takeIf_other hpop (decide_eq_false hvc)
    linkBuffer := h.linkBuffer.insert_other (decide_eq_false hvc) }

theorem returnLink {c : Credit} {rest : CreditBuffer X} {time : Nat}
    (hpop : getReady ch.creditQueue now = some (c, rest)) (hvc : c.vc = v)
    (htimes : ∀ d ∈ ch.creditBuffer.items, d.time < time) :
    At { ch with creditQueue := rest, creditBuffer := ch.creditBuffer.insert { c with time } } v max
      now { ℓ with returned := ℓ.returned + 1 } := by
  obtain ⟨hlt, htag, hrest⟩ := h.creditQueue.takeIf hpop (decide_eq_true hvc)
  refine { h with creditQueue := hrest, creditBuffer := ?_ }
  exact h.creditBuffer.insert (decide_eq_true hvc) htag (fun d hd _ => .inl (htimes d hd))

theorem returnLink_other {c : Credit} {rest : CreditBuffer X} {time : Nat}
    (hpop : getReady ch.creditQueue now = some (c, rest)) (hvc : c.vc ≠ v) :
    At { ch with creditQueue := rest, creditBuffer := ch.creditBuffer.insert { c with time } } v max
      now ℓ :=
  { h with
    creditQueue := h.creditQueue.takeIf_other hpop (decide_eq_false hvc)
    creditBuffer := h.creditBuffer.insert_other (decide_eq_false hvc) }

/-- The flit at the end of the link is the next one of its packet. -/
theorem arrive (hpop : getReady ch.linkBuffer now = some (f, rest)) (hvc : f.vc = v) :
    ℓ.arrived < ℓ.linked ∧ f.packet = ℓ.packet ∧ f.id = ℓ.arrived ∧
      At { ch with linkBuffer := rest } v max now { ℓ with arrived := ℓ.arrived + 1 } := by
  obtain ⟨hlt, htag, hrest⟩ := h.linkBuffer.takeIf hpop (decide_eq_true hvc)
  obtain ⟨hpacket, hid⟩ := Prod.mk.inj htag
  exact ⟨hlt, hpacket, hid, { h with linkBuffer := hrest }⟩

theorem arrive_other
    (hpop : getReady ch.linkBuffer now = some (f, rest)) (hvc : f.vc ≠ v) :
    At { ch with linkBuffer := rest } v max now ℓ :=
  { h with linkBuffer := h.linkBuffer.takeIf_other hpop (decide_eq_false hvc) }

theorem setVc (u : Nat) (w : VirtualChannel X) : (ch.setVc u w).At v max now ℓ :=
  { h with }

theorem returnCredit (htimes : ∀ d ∈ ch.creditQueue.items, d.time < now) :
    (ch.returnCredit v (decide (ℓ.forwarded + 1 = ℓ.packet.size)) now).At v max now
      { ℓ with forwarded := ℓ.forwarded + 1 } :=
  { h with
    creditQueue := h.creditQueue.insert (decide_eq_true rfl) rfl
      (fun d hd _ => .inl (htimes d hd)) }

theorem returnCredit_other (hu : u ≠ v) (isFreeSignal : Bool) :
    (ch.returnCredit u isFreeSignal now).At v max now ℓ :=
  { h with creditQueue := h.creditQueue.insert_other (decide_eq_false hu) }

theorem setOutVc_other (hu : u ≠ v) (o : OutVcState) : (ch.setOutVc u o).At v max now ℓ := by
  have hsame : (ch.setOutVc u o).outVcs v = ch.outVcs v := update_of_ne hu.symm _ _
  refine { h with state := ?_, time := ?_, credit := ?_ }
  · rw [hsame]
    exact h.state
  · rw [hsame]
    exact h.time
  · rw [hsame]
    exact h.credit

theorem send (hbusy : ℓ.busy = true) (hlt : ℓ.sent < ℓ.packet.size)
    (hcredit : 0 < (ch.outVcs v).creditCount) :
    (ch.setOutVc v { ch.outVcs v with creditCount := (ch.outVcs v).creditCount - 1 }).At v max now
      { ℓ with sent := ℓ.sent + 1 } := by
  have hself : ∀ o, (ch.setOutVc v o).outVcs v = o := fun o => update_self _ _ _
  refine { h with sent_le := hlt, free := ?_, state := ?_, time := ?_, credit := ?_ }
  · intro hfree
    exact absurd (hbusy.symm.trans hfree) (by decide)
  · rw [hself]
    exact h.state
  · rw [hself]
    exact h.time
  · rw [hself]
    have := h.credit
    dsimp only
    omega

theorem queue (hvc : f.vc = v) (hpacket : f.packet = ℓ.packet)
    (hid : f.id = ℓ.queued) (htimes : ∀ g ∈ ch.outQueue.items, g.time ≤ f.time) :
    At { ch with outQueue := ch.outQueue.insert f } v max now
      { ℓ with queued := ℓ.queued + 1 } := by
  refine { h with outQueue := ?_ }
  refine h.outQueue.insert (decide_eq_true hvc) (Prod.ext hpacket hid) (fun g hg hgv => ?_)
  obtain ⟨i, -, hi, htag⟩ := h.outQueue.tag_of_mem hg hgv
  have hgid : g.id = i := (Prod.mk.inj htag).2
  have := htimes g hg
  unfold KeyLt Flit.key
  dsimp only
  omega

theorem queue_other (hvc : f.vc ≠ v) :
    At { ch with outQueue := ch.outQueue.insert f } v max now ℓ :=
  { h with outQueue := h.outQueue.insert_other (decide_eq_false hvc) }

theorem start (hsize : 0 < packet.size)
    (hzero : ℓ.queued = 0) (hfree : ℓ.busy = false) (hfwd : ℓ.forwarded = 0) :
    (ch.setOutVc v ((ch.outVcs v).setState .active now)).At v max now (Lane.start packet) := by
  have hself : ∀ o, (ch.setOutVc v o).outVcs v = o := fun o => update_self _ _ _
  have hsent := h.free hfree
  have hq := h.outQueue.le
  have hl := h.linkBuffer.le
  have hr := h.creditQueue.le
  have hc := h.creditBuffer.le
  have hcredit := h.credit
  refine ⟨Nat.zero_le _, fun hb => rfl, fun _ => hsize, ?_, ?_, ?_, h.outQueue.reset ?_ 0,
    h.linkBuffer.reset ?_ 0, h.creditQueue.reset ?_ 0, h.creditBuffer.reset ?_ 0⟩
  · rw [hself]
    rfl
  · rw [hself]
    exact le_rfl
  · rw [hself]
    dsimp only [OutVcState.setState, Lane.start]
    omega
  all_goals omega

theorem credit_lt
    (hpop : getReady ch.creditBuffer now = some (c, rest)) (hvc : c.vc = v) :
    ℓ.credited < ℓ.returned ∧ c.isFreeSignal = decide (ℓ.credited + 1 = ℓ.packet.size) ∧
      Credits rest.items v ℓ.packet.size (ℓ.credited + 1) ℓ.returned := by
  obtain ⟨hlt, htag, hrest⟩ := h.creditBuffer.takeIf hpop (decide_eq_true hvc)
  exact ⟨hlt, htag, hrest⟩

theorem takeCredit_other
    (hpop : getReady ch.creditBuffer now = some (c, rest)) (hvc : c.vc ≠ v)
    (o : OutVcState) :
    (({ ch with creditBuffer := rest }).setOutVc c.vc o).At v max now ℓ := by
  have h' : At { ch with creditBuffer := rest } v max now ℓ :=
    { h with creditBuffer := h.creditBuffer.takeIf_other hpop (decide_eq_false hvc) }
  exact h'.setOutVc_other hvc o

end

end Channel.At

namespace VirtualChannel.At

variable {vc : VirtualChannel X} {now : Nat} {ℓ : Lane}

section

variable (h : vc.At now ℓ)
include h

theorem later (hle : now ≤ now') : vc.At now' ℓ :=
  { h with times := fun f hf => (h.times f hf).trans hle, stateTime := h.stateTime.trans hle }

theorem congr (hpacket : ℓ'.packet = ℓ.packet)
    (harrived : ℓ'.arrived = ℓ.arrived) (hforwarded : ℓ'.forwarded = ℓ.forwarded) :
    vc.At now ℓ' := by
  refine ⟨?_, h.times, ?_, h.stateTime, h.idle, h.outport, ?_⟩
  · rw [hpacket, harrived, hforwarded]
    exact h.buffer
  · rw [hpacket, harrived, hforwarded]
    exact h.state
  · rw [hforwarded]
    exact h.outvc

theorem active_of_front (hle : ℓ.arrived ≤ ℓ.packet.size)
    (hfront : vc.buffer.front = some f) : vc.state = .active := by
  obtain ⟨hlt, -⟩ := h.buffer.drop hfront rfl
  rw [h.state, if_pos (by omega)]

theorem needStage (hle : ℓ.arrived ≤ ℓ.packet.size) (stage : FlitStage)
    (htime : now ≤ time) : ∃ b, vc.needStage stage time = .ok b ∧
      (b = true → vc.state = .active ∧ ∃ f, vc.buffer.front = some f) := by
  unfold VirtualChannel.needStage
  split
  · exact ⟨false, rfl, fun hb => absurd hb Bool.false_ne_true⟩
  rename_i f hfront
  have hactive := h.active_of_front hle hfront
  split
  · rw [if_pos ⟨hactive, h.stateTime.trans htime⟩]
    exact ⟨_, rfl, fun _ => ⟨hactive, f, hfront⟩⟩
  · exact ⟨false, rfl, fun hb => absurd hb Bool.false_ne_true⟩

end

end VirtualChannel.At

end Gem5.Garnet
