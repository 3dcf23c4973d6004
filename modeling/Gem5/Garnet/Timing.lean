import Gem5.Garnet.System

namespace Gem5.Garnet

open Lib List PQueue Net Config

variable {X : Heaps} {cfg : Config}

/-- What a unit of a node or a router may do to the flits and credits at the two ends of a
channel in a cycle: take what is on the way, put flits into the output queue for the next
cycle, and, if the channel ends here, return credits. -/
structure Channel.Handled (endsHere : Prop) (now : Nat) (ch ch' : Channel X) : Prop where
  linkBuffer : ch'.linkBuffer.items.Subperm ch.linkBuffer.items
  creditBuffer : ∀ c ∈ ch'.creditBuffer.items, c ∈ ch.creditBuffer.items
  outQueue : ∀ f ∈ ch'.outQueue.items, f ∈ ch.outQueue.items ∨ f.time = now + 1
  creditQueue : ∀ c ∈ ch'.creditQueue.items, c ∈ ch.creditQueue.items ∨ (c.time = now ∧ endsHere)

namespace Channel.Handled

variable {endsHere : Prop} {now : Nat} {ch ch' ch'' : Channel X}

theorem refl (ch : Channel X) : Handled endsHere now ch ch :=
  ⟨.refl _, fun _ => id, fun _ => .inl, fun _ => .inl⟩

section

variable (h : Handled endsHere now ch ch')
include h

theorem trans (h' : Handled endsHere now ch' ch'') : Handled endsHere now ch ch'' :=
  ⟨h'.linkBuffer.trans h.linkBuffer, fun c hc => h.creditBuffer c (h'.creditBuffer c hc),
    fun f hf => (h'.outQueue f hf).elim (h.outQueue f) .inr,
    fun c hc => (h'.creditQueue c hc).elim (h.creditQueue c) .inr⟩

theorem setOutVc (v : Nat) (o : OutVcState) : Handled endsHere now ch (ch'.setOutVc v o) :=
  { h with }

theorem setVc (v : Nat) (vc : VirtualChannel X) : Handled endsHere now ch (ch'.setVc v vc) :=
  { h with }

theorem returnCredit (hends : endsHere) (v : Nat) (b : Bool) :
    Handled endsHere now ch (ch'.returnCredit v b now) := by
  refine ⟨h.linkBuffer, h.creditBuffer, h.outQueue, fun c hc => ?_⟩
  rcases mem_insert.mp hc with rfl | hc
  · exact .inr ⟨rfl, hends⟩
  · exact h.creditQueue c hc

theorem queue (hf : f.time = now + 1) :
    Handled endsHere now ch { ch' with outQueue := ch'.outQueue.insert f } := by
  refine ⟨h.linkBuffer, h.creditBuffer, fun g hg => ?_, h.creditQueue⟩
  rcases mem_insert.mp hg with rfl | hg
  · exact .inr hf
  · exact h.outQueue g hg

theorem arrive (hpop : FlitBuffer.getReady ch'.linkBuffer time = some (f, rest)) :
    Handled endsHere now ch { ch' with linkBuffer := rest } := by
  obtain ⟨-, hperm, -⟩ := takeIf_eq_some hpop
  refine ⟨List.Subperm.trans ?_ h.linkBuffer, h.creditBuffer, h.outQueue, h.creditQueue⟩
  exact (subperm_cons_self).trans hperm.symm.subperm

theorem takeCredit (max : Nat → Nat) (time : Nat)
    (htake : ch'.takeCredit max time = .ok ch'') : Handled endsHere now ch ch'' := by
  unfold Channel.takeCredit at htake
  split at htake
  · cases htake
    exact h
  rename_i c rest hpop
  obtain ⟨-, hperm, -⟩ := takeIf_eq_some hpop
  obtain ⟨o, -, htake⟩ := bind_eq_ok.mp htake
  cases htake
  refine ⟨h.linkBuffer, fun d hd => ?_, h.outQueue, h.creditQueue⟩
  exact h.creditBuffer d (hperm.mem_iff.mpr (.tail _ hd))

end

end Channel.Handled

/-- A component takes its turn in a cycle. -/
structure Net.Handled (cfg : Config) (c : Component) (s t : Net X) : Prop where
  now : t.now = s.now
  channel : ∀ source, Channel.Handled (cfg.consumer source = c) s.now (s.channels source)
    (t.channels source)
  later : ∀ e ∈ t.events, e ∈ s.events ∨ s.now < e.2
  keep : ∀ e ∈ s.events, e ∈ t.events
  others : ∀ r, c ≠ .router r → t.routers r = s.routers r

namespace Net.Handled

variable {c : Component} {s t u : Net X}

theorem refl (s : Net X) : Handled cfg c s s :=
  ⟨rfl, fun _ => .refl _, fun _ => .inl, fun _ => id, fun _ _ => rfl⟩

theorem trans (h : Handled cfg c s t) (h' : Handled cfg c t u) : Handled cfg c s u := by
  have hnow := h.now
  refine ⟨h'.now.trans hnow, fun source => (h.channel source).trans ?_, fun e he => ?_,
    fun e he => h'.keep e (h.keep e he), fun r hr => (h'.others r hr).trans (h.others r hr)⟩
  · rw [← hnow]
    exact h'.channel source
  · rcases h'.later e he with he | hlt
    · exact h.later e he
    · exact .inr (hnow ▸ hlt)

theorem setChannel (h : Handled cfg c s t)
    (hch : Channel.Handled (cfg.consumer source = c) s.now (t.channels source) ch) :
    Handled cfg c s (t.setChannel source ch) := by
  refine ⟨h.now, fun source' => ?_, h.later, h.keep, h.others⟩
  obtain rfl | hs := eq_or_ne source' source
  · rw [t.channels_setChannel_self]
    exact (h.channel source').trans hch
  · rw [t.channels_setChannel_of_ne hs]
    exact h.channel source'

theorem setNi (h : Handled cfg c s t) (n : Nat) (ni : NetworkInterface X) :
    Handled cfg c s (t.setNi n ni) := { h with }

theorem setRouter (h : Handled cfg (.router r) s t) (router : RouterState) :
    Handled cfg (.router r) s (t.setRouter r router) := by
  refine ⟨h.now, h.channel, h.later, h.keep, fun r' hr => ?_⟩
  rw [t.routers_setRouter_of_ne (fun heq => hr (congrArg Component.router heq.symm))]
  exact h.others r' hr

theorem schedule (h : Handled cfg c s t) (c' : Component) (htime : s.now < time) :
    Handled cfg c s (t.schedule c' time) := by
  refine ⟨h.now, h.channel, fun e he => ?_, fun e he => .tail _ (h.keep e he), h.others⟩
  rcases mem_cons.mp he with heq | he
  · rw [heq]
    exact .inr htime
  · exact h.later e he

/-- Credits go back only to where the links of the component come from. -/
theorem creditQueue_of_ne (h : Handled cfg c s t) (hc : cfg.consumer source ≠ c) :
    ∀ x ∈ (t.channels source).creditQueue.items, x ∈ (s.channels source).creditQueue.items :=
  fun x hx => ((h.channel source).creditQueue x hx).resolve_right (fun heq => hc heq.2)

end Net.Handled

/-- All flits that a component takes from its links in this cycle are taken. -/
def Drained (cfg : Config) (c : Component) (s : Net X) : Prop :=
  ∀ source, cfg.LinkExists source → cfg.consumer source = c →
    ∀ f ∈ (s.channels source).linkBuffer.items, s.now < f.time

/-- The times of the flits and credits in a channel. Those on the link all have different
times, for a link takes one in a cycle, and none is late, for its consumer is scheduled. -/
structure Channel.Timed (cfg : Config) (now : Nat) (events : List (Component × Nat)) (source : Port)
    (ch : Channel X) : Prop where
  outQueue : ∀ f ∈ ch.outQueue.items, f.time ≤ now + 1
  linkBuffer : ∀ f ∈ ch.linkBuffer.items,
    now ≤ f.time ∧ f.time ≤ now + cfg.linkLatency source ∧ cfg.LinkExists source
  distinct : ∀ time, ch.linkBuffer.items.countP (fun f => f.time = time) ≤ 1
  creditQueue : ∀ c ∈ ch.creditQueue.items, c.time ≤ now
  creditBuffer : ∀ c ∈ ch.creditBuffer.items, c.time ≤ now + cfg.creditLatency source
  linkDue : (.link source, now) ∈ events →
    ∀ f ∈ ch.linkBuffer.items, f.time < now + cfg.linkLatency source
  creditDue : (.credit source, now) ∈ events →
    ∀ c ∈ ch.creditBuffer.items, c.time < now + cfg.creditLatency source
  routerDue : ∀ r p, cfg.wiring source = .router r p → (.router r, now) ∈ events →
    ∀ c ∈ ch.creditQueue.items, c.time < now
  nodeDue : ∀ n, cfg.wiring source = .ni n → ∀ c ∈ ch.creditQueue.items, c.time = now →
    ∀ f ∈ ch.linkBuffer.items, now < f.time
  scheduled : ∀ f ∈ ch.linkBuffer.items, (cfg.consumer source, f.time) ∈ events

structure Timed (cfg : Config) (s : Net X) : Prop where
  channel : ∀ source, (s.channels source).Timed cfg s.now s.events source
  events : ∀ e ∈ s.events, s.now ≤ e.2

theorem Config.consumer_router (h : cfg.wiring source = .router r p) :
    cfg.consumer source = .router r := by
  unfold consumer
  rw [h]

theorem Config.consumer_ni (h : cfg.wiring source = .ni n) : cfg.consumer source = .ni n := by
  unfold consumer
  rw [h]

theorem Config.eq_linkTo_router (h : cfg.consumer source = .router r) :
    ∃ p, cfg.wiring source = .router r p ∧ source = cfg.linkTo (.router r p) := by
  cases hw : cfg.wiring source with
  | ni n =>
    rw [consumer_ni hw] at h
    cases h
  | router r' p =>
    rw [consumer_router hw] at h
    cases h
    exact ⟨p, rfl, (cfg.wiring.symm_apply_eq.mpr hw.symm).symm⟩

theorem Config.eq_linkTo_ni (h : cfg.consumer source = .ni n) : source = cfg.linkTo (.ni n) := by
  cases hw : cfg.wiring source with
  | router r p =>
    rw [consumer_router hw] at h
    cases h
  | ni m =>
    rw [consumer_ni hw] at h
    cases h
    exact (cfg.wiring.symm_apply_eq.mpr hw.symm).symm

theorem Config.consumer_ne_link (source source' : Port) : cfg.consumer source ≠ .link source' := by
  unfold consumer
  split <;> exact nofun

theorem Config.consumer_ne_credit (source source' : Port) :
    cfg.consumer source ≠ .credit source' := by
  unfold consumer
  split <;> exact nofun

variable {c : Component} {source : Port}

theorem Net.mem_awake {s : Net X} {e : Component × Nat} :
    e ∈ (s.awake c).events ↔ e ∈ s.events ∧ e ≠ (c, s.now) := by
  unfold awake
  simp

/-- Another schedule: nothing new in this cycle, and nothing lost that the link needs. -/
theorem Channel.Timed.reschedule {now : Nat} {events events' : List (Component × Nat)}
    {ch : Channel X} (h : ch.Timed cfg now events source)
    (hnow : ∀ c, (c, now) ∈ events' → (c, now) ∈ events)
    (hkeep : ∀ f ∈ ch.linkBuffer.items, (cfg.consumer source, f.time) ∈ events →
      (cfg.consumer source, f.time) ∈ events') : ch.Timed cfg now events' source :=
  { h with
    linkDue := fun he => h.linkDue (hnow _ he)
    creditDue := fun he => h.creditDue (hnow _ he)
    routerDue := fun r p hp he => h.routerDue r p hp (hnow _ he)
    scheduled := fun f hf => hkeep f hf (h.scheduled f hf) }

namespace Timed

variable {s t : Net X}

section

variable (h : Timed cfg s)
include h

/-- Within a wakeup, no flit on a link is late. -/
theorem fresh (hh : Handled cfg c' (s.awake c) t) (source : Port) :
    ∀ f ∈ (t.channels source).linkBuffer.items, t.now ≤ f.time := by
  intro f hf
  rw [hh.now]
  exact ((h.channel source).linkBuffer f ((hh.channel source).linkBuffer.subset hf)).1

theorem distinct (hh : Handled cfg c' (s.awake c) t) (source : Port) (time : Nat) :
    (t.channels source).linkBuffer.items.countP (fun f => f.time = time) ≤ 1 :=
  ((hh.channel source).linkBuffer.countP_le _).trans ((h.channel source).distinct time)

theorem outQueue (hh : Handled cfg c' (s.awake c) t) (source : Port) :
    ∀ f ∈ (t.channels source).outQueue.items, f.time ≤ t.now + 1 := by
  intro f hf
  rw [hh.now]
  rcases (hh.channel source).outQueue f hf with hf | heq
  · exact (h.channel source).outQueue f hf
  · exact heq.le

/-- The wakeup of a node or a router that takes all flits that are due. -/
theorem wake (hh : Handled cfg c (s.awake c) t) (hdrained : Drained cfg c t) : Timed cfg t := by
  have hnow : t.now = s.now := hh.now
  have hold : ∀ c', (c', s.now) ∈ t.events → (c', s.now) ∈ s.events ∧ c' ≠ c := by
    intro c' he
    rcases hh.later _ he with he | hlt
    · obtain ⟨he, hne⟩ := mem_awake.mp he
      exact ⟨he, fun heq => hne (by rw [heq])⟩
    · exact absurd hlt (lt_irrefl _)
  refine ⟨fun source => ?_, fun e he => ?_⟩
  · have hch := h.channel source
    have hhch := hh.channel source
    have hlink : ∀ f ∈ (t.channels source).linkBuffer.items,
        f ∈ (s.channels source).linkBuffer.items := fun f hf => hhch.linkBuffer.subset hf
    have hdr : cfg.consumer source = c →
        ∀ f ∈ (t.channels source).linkBuffer.items, s.now < f.time := by
      intro hc f hf
      have := hdrained source (hch.linkBuffer f (hlink f hf)).2.2 hc f hf
      rwa [hnow] at this
    rw [hnow]
    refine ⟨hnow ▸ h.outQueue hh source, fun f hf => hch.linkBuffer f (hlink f hf),
      h.distinct hh source, fun x hx => ?_,
      fun x hx => hch.creditBuffer x (hhch.creditBuffer x hx),
      fun he f hf => hch.linkDue (hold _ he).1 f (hlink f hf),
      fun he x hx => hch.creditDue (hold _ he).1 x (hhch.creditBuffer x hx),
      fun r p hp he x hx => ?_, fun n hn x hx htime f hf => ?_, fun f hf => ?_⟩
    · rcases hhch.creditQueue x hx with hx | heq
      · exact hch.creditQueue x hx
      · exact heq.1.le
    · obtain ⟨he, hne⟩ := hold _ he
      rcases hhch.creditQueue x hx with hx | heq
      · exact hch.routerDue r p hp he x hx
      · exact absurd (consumer_router hp ▸ heq.2) hne
    · rcases hhch.creditQueue x hx with hx | heq
      · exact hch.nodeDue n hn x hx htime f (hlink f hf)
      · exact hdr heq.2 f hf
    · refine hh.keep _ (mem_awake.mpr ⟨hch.scheduled f (hlink f hf), fun heq => ?_⟩)
      obtain ⟨hc, htime⟩ := Prod.mk.inj heq
      have := hdr hc f hf
      omega
  · rw [hnow]
    rcases hh.later e he with he | hlt
    · exact h.events e (mem_awake.mp he).1
    · exact hlt.le

theorem tick (hdue : ∀ e ∈ s.events, s.now < e.2) : Timed cfg { s with now := s.now + 1 } := by
  refine ⟨fun source => ?_, fun e he => hdue e he⟩
  have hch := h.channel source
  refine ⟨fun f hf => (hch.outQueue f hf).trans (Nat.le_succ _), fun f hf => ?_, hch.distinct,
    fun c hc => (hch.creditQueue c hc).trans (Nat.le_succ _), fun c hc => ?_, fun _ f hf => ?_,
    fun _ c hc => ?_, fun _ _ _ _ c hc => Nat.lt_succ_of_le (hch.creditQueue c hc),
    fun _ _ c hc htime => ?_, hch.scheduled⟩
  · obtain ⟨-, hle, hexists⟩ := hch.linkBuffer f hf
    exact ⟨hdue _ (hch.scheduled f hf), hle.trans (by dsimp only; omega), hexists⟩
  · exact (hch.creditBuffer c hc).trans (by dsimp only; omega)
  · have := (hch.linkBuffer f hf).2.1
    dsimp only
    omega
  · have := hch.creditBuffer c hc
    dsimp only
    omega
  · have := hch.creditQueue c hc
    dsimp only at htime
    omega

/-- The wakeup of a link takes nothing off the schedule of others. -/
theorem awake (hc : ∀ source, cfg.consumer source ≠ c) : Timed cfg (s.awake c) :=
  ⟨fun source => (h.channel source).reschedule (fun _ he => (mem_awake.mp he).1)
    (fun _ _ he => mem_awake.mpr ⟨he, fun heq => hc source (Prod.mk.inj heq).1⟩),
    fun e he => h.events e (mem_awake.mp he).1⟩

/-- One channel changes, and a wakeup is scheduled for a later cycle. -/
theorem setChannel {ch : Channel X} {time : Nat}
    (htime : s.now < time) (hch : ch.Timed cfg s.now ((c, time) :: s.events) source) :
    Timed cfg ((s.setChannel source ch).schedule c time) := by
  refine ⟨fun source' => ?_, fun e he => ?_⟩
  · change ((s.setChannel source ch).channels source').Timed cfg s.now
        ((c, time) :: s.events) source'
    obtain rfl | hs := eq_or_ne source' source
    · rw [s.channels_setChannel_self]
      exact hch
    rw [s.channels_setChannel_of_ne hs]
    refine (h.channel source').reschedule (fun c' he => ?_)
      (fun _ _ he => .tail _ he)
    rcases mem_cons.mp he with heq | he
    · have := (Prod.mk.inj heq).2
      omega
    · exact he
  · rcases mem_cons.mp he with heq | he
    · rw [heq]
      exact htime.le
    · exact h.events e he

theorem link (hdue : (.link source, s.now) ∈ s.events) (hexists : cfg.LinkExists source) :
    Timed cfg (NetworkLink.wakeup cfg source (s.awake (.link source))) := by
  have hawake : Timed cfg (s.awake (.link source)) :=
    h.awake (fun source' => consumer_ne_link source' source)
  unfold NetworkLink.wakeup
  dsimp only
  split
  · exact hawake
  rename_i f rest hpop
  obtain ⟨-, hperm, -⟩ := takeIf_eq_some hpop
  have hlat := cfg.linkLatency_pos source
  have hch := h.channel source
  have hlt := hch.linkDue hdue
  refine hawake.setChannel (Nat.lt_add_of_pos_right hlat) ?_
  -- the events of this cycle are those that were there before, but for the link itself
  have hold : ∀ c, (c, s.now) ∈ (cfg.consumer source, s.now + cfg.linkLatency source) ::
      (s.awake (.link source)).events → (c, s.now) ∈ s.events ∧ c ≠ .link source := by
    intro c hmem
    rcases mem_cons.mp hmem with heq | hmem
    · have := (Prod.mk.inj heq).2
      omega
    · obtain ⟨hmem, hne⟩ := mem_awake.mp hmem
      exact ⟨hmem, fun heq => hne (by rw [heq])⟩
  refine ⟨fun g hg => ?_, fun g hg => ?_, fun time => ?_, hch.creditQueue, hch.creditBuffer,
    fun he => absurd rfl (hold _ he).2, fun he => hch.creditDue (hold _ he).1,
    fun r p hp he => hch.routerDue r p hp (hold _ he).1, fun n hn c hc htime g hg => ?_,
    fun g hg => ?_⟩
  · exact hch.outQueue g (hperm.mem_iff.mpr (.tail _ hg))
  · rcases mem_insert.mp hg with rfl | hg
    · exact ⟨Nat.le_add_right _ _, Nat.le_refl _, hexists⟩
    · exact hch.linkBuffer g hg
  · rw [(perm_insert _ _).countP_eq, countP_cons]
    split_ifs with heq
    · have hzero : (s.channels source).linkBuffer.items.countP (fun g => g.time = time) = 0 := by
        refine countP_eq_zero.mpr (fun g hg hgt => ?_)
        have hgt := of_decide_eq_true hgt
        have heq := of_decide_eq_true heq
        have := hlt g hg
        dsimp only [Net.awake] at heq
        omega
      exact (congrArg (· + 1) hzero).le
    · exact hch.distinct time
  · rcases mem_insert.mp hg with rfl | hg
    · exact Nat.lt_add_of_pos_right hlat
    · exact hch.nodeDue n hn c hc htime g hg
  · rcases mem_insert.mp hg with rfl | hg
    · exact .head _
    · exact .tail _ ((hawake.channel source).scheduled g hg)

theorem creditLink (source : Port) :
    Timed cfg (CreditLink.wakeup cfg source (s.awake (.credit source))) := by
  have hawake : Timed cfg (s.awake (.credit source)) :=
    h.awake (fun source' => consumer_ne_credit source' source)
  unfold CreditLink.wakeup
  dsimp only
  split
  · exact hawake
  rename_i c rest hpop
  obtain ⟨-, hperm, -⟩ := takeIf_eq_some hpop
  have hlat := cfg.creditLatency_pos source
  have hch := h.channel source
  refine hawake.setChannel (Nat.lt_add_of_pos_right hlat) ?_
  have hrest : ∀ d ∈ rest.items, d ∈ (s.channels source).creditQueue.items :=
    fun d hd => hperm.mem_iff.mpr (.tail _ hd)
  have hold : ∀ c, (c, s.now) ∈ (creditConsumer source, s.now + cfg.creditLatency source) ::
      (s.awake (.credit source)).events → (c, s.now) ∈ s.events ∧ c ≠ .credit source := by
    intro c hmem
    rcases mem_cons.mp hmem with heq | hmem
    · have := (Prod.mk.inj heq).2
      omega
    · obtain ⟨hmem, hne⟩ := mem_awake.mp hmem
      exact ⟨hmem, fun heq => hne (by rw [heq])⟩
  refine ⟨hch.outQueue, hch.linkBuffer, hch.distinct, fun d hd => hch.creditQueue d (hrest d hd),
    fun d hd => ?_, fun he => hch.linkDue (hold _ he).1, fun he => absurd rfl (hold _ he).2,
    fun r p hp he d hd => hch.routerDue r p hp (hold _ he).1 d (hrest d hd),
    fun n hn d hd => hch.nodeDue n hn d (hrest d hd), fun g hg => ?_⟩
  · rcases mem_insert.mp hd with rfl | hd
    · exact le_rfl
    · exact hch.creditBuffer d hd
  · exact .tail _ ((hawake.channel source).scheduled g hg)

end

theorem start (buffers : Nat → Nat → Ruby.MessageBuffer) :
    Timed cfg (start cfg buffers : Net X) := by
  refine ⟨fun source => ⟨?_, ?_, fun _ => Nat.zero_le _, ?_, ?_, ?_, ?_, ?_, ?_, ?_⟩, ?_⟩
  · intro f hf
    cases hf
  · intro f hf
    cases hf
  · intro c hc
    cases hc
  · intro c hc
    cases hc
  · intro _ f hf
    cases hf
  · intro _ c hc
    cases hc
  · intro r p _ _ c hc
    cases hc
  · intro n _ c hc
    cases hc
  · intro f hf
    cases hf
  · intro e he
    cases he

end Timed

end Gem5.Garnet
