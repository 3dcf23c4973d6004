import Gem5.Garnet.Frames
import Gem5.Ruby.MessageBufferStalls

namespace Gem5.Garnet

open Lib List Function Mailbox

variable {X : Heaps} {cfg : Config}

namespace Mailbox

def packetsOf (b : Mailbox) (msg : Nat) : List Packet := b.injected.filter (·.msg = msg)

def waiting (b : Mailbox) (vnet : Nat) : List Nat := (b.inNode vnet).prioHeap.map Ruby.Message.id

/-- The mailbox after packets were made, all of one message. -/
def inject (b : Mailbox) (ps : List Packet) : Mailbox := { b with injected := b.injected ++ ps }

def take (b : Mailbox) (vnet msg : Nat) (rest : Ruby.MessageBuffer) : Mailbox :=
  { b with
    inNode := Function.update b.inNode vnet rest
    dequeued := b.dequeued ++ [(vnet, msg)] }

def put (b : Mailbox) (vnet msg : Nat) (D : List Nat) (buffer : Ruby.MessageBuffer) : Mailbox :=
  { b with
    inNode := Function.update b.inNode vnet buffer
    sent := b.sent ++ [(vnet, msg, D)] }

theorem packetsOf_inject {b : Mailbox} {ps : List Packet} {msg : Nat} (hps : ∀ p ∈ ps, p.msg = msg)
    (other : Nat) :
    (b.inject ps).packetsOf other = b.packetsOf other ++ if other = msg then ps else [] := by
  unfold packetsOf inject
  rw [filter_append]
  congr 1
  split_ifs with heq
  · exact filter_eq_self.mpr (fun p hp => by simp [hps p hp, heq])
  · exact filter_eq_nil_iff.mpr (fun p hp => by simp [hps p hp, Ne.symm heq])

theorem waiting_update (b : Mailbox) (vnet other : Nat) (buffer : Ruby.MessageBuffer) :
    (update b.inNode vnet buffer other).prioHeap.map Ruby.Message.id =
      if other = vnet then buffer.prioHeap.map Ruby.Message.id else b.waiting other := by
  by_cases h : other = vnet
  · rw [if_pos h, h, update_self]
  · rw [if_neg h, update_of_ne h]
    rfl

end Mailbox

/-- How far a message with destinations `D` has come: it waits and its packets leave out
just the destinations that it still has, or it is gone and they leave out none. -/
inductive Progress (b : Mailbox) (m : MessageObject) (vnet msg : Nat) (D : List Nat) : Prop
  | waiting (hin : msg ∈ b.waiting vnet) (hout : (vnet, msg) ∉ b.dequeued)
      (hleft : m.destination ≠ [])
      (hperm : ((b.packetsOf msg).map Packet.destNi ++ m.destination).Perm D)
  | done (hout : msg ∉ b.waiting vnet) (hin : (vnet, msg) ∈ b.dequeued)
      (hperm : ((b.packetsOf msg).map Packet.destNi).Perm D)

/-- What a node keeps: each of its messages was put into one buffer and makes progress
there, and each packet carries one destination of such a message. -/
structure Multicast (messages : Nat → MessageObject) (n : Nat) (b : Mailbox) : Prop where
  nodup : ∀ vnet msg D, (vnet, msg, D) ∈ b.sent → D.Nodup
  unique : ∀ vnet vnet' msg D D', (vnet, msg, D) ∈ b.sent → (vnet', msg, D') ∈ b.sent →
    vnet = vnet' ∧ D = D'
  waiting : ∀ vnet, ∀ msg ∈ b.waiting vnet, ∃ D, (vnet, msg, D) ∈ b.sent
  waiting_nodup : ∀ vnet, (b.waiting vnet).Nodup
  packets : ∀ p ∈ b.injected, p.destination = [p.destNi] ∧ p.srcNi = n ∧
    ∃ D, (p.vnet, p.msg, D) ∈ b.sent
  dequeued : ∀ e ∈ b.dequeued, ∃ D, (e.1, e.2, D) ∈ b.sent
  progress : ∀ vnet msg D, (vnet, msg, D) ∈ b.sent → Progress b (messages msg) vnet msg D

namespace Multicast

variable {messages messages' : Nat → MessageObject} {n : Nat} {b : Mailbox}

section

variable (h : Multicast messages n b)
include h

theorem congr (hsame : ∀ vnet msg D, (vnet, msg, D) ∈ b.sent → messages' msg = messages msg) :
    Multicast messages' n b :=
  { h with
    progress := fun vnet msg D hsent => by
      rw [hsame vnet msg D hsent]
      exact h.progress vnet msg D hsent }

theorem put (hnew : ∀ vnet D, (vnet, msg, D) ∉ b.sent) (hD : D.Nodup)
    (hne : D ≠ []) (hm : (messages msg).destination = D)
    (hbuffer : (buffer.prioHeap.map Ruby.Message.id).Perm (msg :: b.waiting vnet)) :
    Multicast messages n (b.put vnet msg D buffer) := by
  have hsent : ∀ {e}, e ∈ (b.put vnet msg D buffer).sent ↔ e ∈ b.sent ∨ e = (vnet, msg, D) := by
    intro e
    unfold Mailbox.put
    simp
  have hfresh : ∀ v, msg ∉ b.waiting v := by
    intro v hmem
    obtain ⟨D', hD'⟩ := h.waiting v msg hmem
    exact hnew v D' hD'
  have hwait : ∀ v m, m ∈ (b.put vnet msg D buffer).waiting v ↔
      m ∈ b.waiting v ∨ (v = vnet ∧ m = msg) := by
    intro v m
    unfold Mailbox.waiting Mailbox.put
    rw [waiting_update]
    split_ifs with hv
    · subst hv
      rw [hbuffer.mem_iff, mem_cons]
      tauto
    · tauto
  refine ⟨?_, ?_, ?_, ?_, ?_, ?_, ?_⟩
  · intro v m D' hm
    rcases hsent.mp hm with hm | hm
    · exact h.nodup v m D' hm
    · cases hm
      exact hD
  · intro v v' m D₁ D₂ h₁ h₂
    rcases hsent.mp h₁ with h₁ | h₁
    · rcases hsent.mp h₂ with h₂ | h₂
      · exact h.unique v v' m D₁ D₂ h₁ h₂
      · cases h₂
        exact absurd h₁ (hnew v D₁)
    · cases h₁
      rcases hsent.mp h₂ with h₂ | h₂
      · exact absurd h₂ (hnew v' D₂)
      · cases h₂
        exact ⟨rfl, rfl⟩
  · intro v m hm
    rcases (hwait v m).mp hm with hm | hm
    · obtain ⟨D', hD'⟩ := h.waiting v m hm
      exact ⟨D', hsent.mpr (.inl hD')⟩
    · exact ⟨D, hsent.mpr (.inr (by rw [hm.1, hm.2]))⟩
  · intro v
    unfold Mailbox.waiting Mailbox.put
    rw [waiting_update]
    split
    · exact hbuffer.nodup_iff.mpr (nodup_cons.mpr ⟨hfresh vnet, h.waiting_nodup vnet⟩)
    · exact h.waiting_nodup v
  · intro p hp
    obtain ⟨hdest, hsrc, D', hD'⟩ := h.packets p hp
    exact ⟨hdest, hsrc, D', hsent.mpr (.inl hD')⟩
  · intro e he
    obtain ⟨D', hD'⟩ := h.dequeued e he
    exact ⟨D', hsent.mpr (.inl hD')⟩
  · intro v m D' hmem
    rcases hsent.mp hmem with hmem | hmem
    · have hold : m ∈ (b.put vnet msg D buffer).waiting v ↔ m ∈ b.waiting v := by
        rw [hwait]
        refine or_iff_left (fun heq => ?_)
        exact hnew v D' (heq.2 ▸ hmem)
      cases h.progress v m D' hmem with
      | waiting hin hout hleft hperm => exact .waiting (hold.mpr hin) hout hleft hperm
      | done hout hin hperm => exact .done (fun hw => hout (hold.mp hw)) hin hperm
    · cases hmem
      have hnone : b.packetsOf msg = [] := by
        refine filter_eq_nil_iff.mpr (fun p hp heq => ?_)
        obtain ⟨-, -, D', hD'⟩ := h.packets p hp
        exact hnew p.vnet D' (of_decide_eq_true heq ▸ hD')
      refine .waiting ((hwait vnet msg).mpr (.inr ⟨rfl, rfl⟩)) (fun hmem => ?_) (hm ▸ hne) ?_
      · obtain ⟨D', hD'⟩ := h.dequeued _ hmem
        exact hnew vnet D' hD'
      · rw [hm]
        change ((b.packetsOf msg).map Packet.destNi ++ D).Perm D
        rw [hnone]
        exact .refl _

/-- Packets for some destinations of a message that waits. It keeps the others, or it is
taken if there are none. -/
theorem inject {vnet msg : Nat} {done left : List Nat}
    {ps : List Packet} (hin : msg ∈ b.waiting vnet)
    (hdest : (messages msg).destination = done ++ left)
    (hps : ∀ p ∈ ps, p.msg = msg ∧ p.vnet = vnet ∧ p.srcNi = n ∧ p.destination = [p.destNi])
    (hdone : ps.map Packet.destNi = done) (hleft : left ≠ [])
    (hmsg : (messages' msg).destination = left)
    (hsame : ∀ m, m ≠ msg → messages' m = messages m) :
    Multicast messages' n (b.inject ps) := by
  have hpackets := packetsOf_inject (b := b) (fun p hp => (hps p hp).1)
  refine { h with packets := fun p hp => ?_, progress := fun v m D hsent => ?_ }
  · rcases mem_append.mp hp with hp | hp
    · exact h.packets p hp
    · obtain ⟨hm, hv, hsrc, hd⟩ := hps p hp
      obtain ⟨D, hD⟩ := h.waiting vnet msg hin
      exact ⟨hd, hsrc, D, hv.symm ▸ hm.symm ▸ hD⟩
  obtain rfl | hm := eq_or_ne m msg
  · obtain ⟨D', hD'⟩ := h.waiting vnet m hin
    obtain ⟨rfl, rfl⟩ := h.unique _ _ _ _ _ hsent hD'
    cases h.progress v m D hsent with
    | waiting hw hout _ hperm =>
      refine .waiting hw hout (hmsg ▸ hleft) ?_
      rw [hpackets, if_pos rfl, map_append, hdone, hmsg, append_assoc, ← hdest]
      exact hperm
    | done hw _ _ => exact absurd hin hw
  · rw [hsame m hm]
    cases h.progress v m D hsent with
    | waiting hw hout hl hperm =>
      refine .waiting hw hout hl ?_
      rwa [hpackets, if_neg hm, append_nil]
    | done hw hout hperm =>
      refine .done hw hout ?_
      rwa [hpackets, if_neg hm, append_nil]

theorem take {vnet msg : Nat} {ps : List Packet}
    {buffer : Ruby.MessageBuffer} (hin : msg ∈ b.waiting vnet)
    (hps : ∀ p ∈ ps, p.msg = msg ∧ p.vnet = vnet ∧ p.srcNi = n ∧ p.destination = [p.destNi])
    (hdone : ps.map Packet.destNi = (messages msg).destination)
    (hsame : ∀ m, m ≠ msg → messages' m = messages m)
    (hbuffer : b.waiting vnet = msg :: buffer.prioHeap.map Ruby.Message.id) :
    Multicast messages' n ((b.inject ps).take vnet msg buffer) := by
  have hpackets := packetsOf_inject (b := b) (fun p hp => (hps p hp).1)
  have hnd := h.waiting_nodup vnet
  rw [hbuffer] at hnd
  have hwaiting : ∀ v, ((b.inject ps).take vnet msg buffer).waiting v =
      if v = vnet then buffer.prioHeap.map Ruby.Message.id else b.waiting v :=
    fun v => waiting_update b vnet v buffer
  have hwait : ∀ v m, m ∈ ((b.inject ps).take vnet msg buffer).waiting v ↔
      m ∈ b.waiting v ∧ ¬ (v = vnet ∧ m = msg) := by
    intro v m
    rw [hwaiting]
    split_ifs with hv
    · subst hv
      rw [hbuffer, mem_cons]
      constructor
      · intro hm
        refine ⟨.inr hm, fun heq => ?_⟩
        exact (nodup_cons.mp hnd).1 (heq.2 ▸ hm)
      · intro hm
        exact hm.1.resolve_left (fun heq => hm.2 ⟨rfl, heq⟩)
    · exact (and_iff_left (fun heq => hv heq.1)).symm
  have hdeq : ∀ e, e ∈ ((b.inject ps).take vnet msg buffer).dequeued ↔
      e ∈ b.dequeued ∨ e = (vnet, msg) := by
    intro e
    unfold Mailbox.take Mailbox.inject
    simp
  obtain ⟨D₀, hD₀⟩ := h.waiting vnet msg hin
  refine ⟨h.nodup, h.unique, ?_, ?_, ?_, ?_, ?_⟩
  · intro v m hm
    exact h.waiting v m ((hwait v m).mp hm).1
  · intro v
    rw [hwaiting]
    split
    · exact (nodup_cons.mp hnd).2
    · exact h.waiting_nodup v
  · intro p hp
    rcases mem_append.mp hp with hp | hp
    · exact h.packets p hp
    · obtain ⟨hm, hv, hsrc, hd⟩ := hps p hp
      exact ⟨hd, hsrc, D₀, hv.symm ▸ hm.symm ▸ hD₀⟩
  · intro e he
    rcases (hdeq e).mp he with he | he
    · exact h.dequeued e he
    · exact ⟨D₀, he ▸ hD₀⟩
  · intro v m D hsent
    have hpk : ((b.inject ps).take vnet msg buffer).packetsOf m =
        b.packetsOf m ++ if m = msg then ps else [] := hpackets m
    obtain rfl | hm := eq_or_ne m msg
    · obtain ⟨rfl, rfl⟩ := h.unique _ _ _ _ _ hsent hD₀
      cases h.progress v m D hsent with
      | waiting hw hout _ hperm =>
        refine .done (fun hmem => ((hwait v m).mp hmem).2 ⟨rfl, rfl⟩)
          ((hdeq (v, m)).mpr (.inr rfl)) ?_
        rwa [hpk, if_pos rfl, map_append, hdone]
      | done hw _ _ => exact absurd hin hw
    · rw [hsame m hm]
      have hne : (v, m) ≠ (vnet, msg) := fun heq => hm (Prod.mk.inj heq).2
      cases h.progress v m D hsent with
      | waiting hw hout hl hperm =>
        refine .waiting ((hwait v m).mpr ⟨hw, fun heq => hm heq.2⟩)
          (fun hmem => ((hdeq _).mp hmem).elim hout hne) hl ?_
        rwa [hpk, if_neg hm, append_nil]
      | done hw hout hperm =>
        refine .done (fun hmem => hw ((hwait v m).mp hmem).1) ((hdeq _).mpr (.inl hout)) ?_
        rwa [hpk, if_neg hm, append_nil]

end

end Multicast

namespace NetworkInterface

def packetFor (cfg : Config) (n vnet msg numFlits : Nat) (destination : List Nat) (destId : Nat) :
    Packet :=
  ⟨msg, destination, vnet, numFlits, n, destId, cfg.routing.routerOf destId⟩

/-- The loop makes packets for the first destinations, and for all of them if it succeeds.
If there were several, the message loses the ones that got a packet. -/
theorem flitisizeLoop_spec {n vnet msg numFlits curTime : Nat} {unicast : Bool}
    (dests : List Nat) (w : Injection X) :
    ∃ done left, dests = done ++ left ∧
      ((flitisizeLoop cfg n vnet msg numFlits curTime unicast dests w).1 = true ↔ left = []) ∧
      (flitisizeLoop cfg n vnet msg numFlits curTime unicast dests w).2.ni.mailbox =
        w.ni.mailbox.inject (done.map (fun d =>
          packetFor cfg n vnet msg numFlits (if unicast then w.msg.destination else [d]) d)) ∧
      (flitisizeLoop cfg n vnet msg numFlits curTime unicast dests w).2.msg.destination =
        if unicast then w.msg.destination else w.msg.destination.filter (· ∉ done) := by
  induction dests generalizing w with
  | nil =>
    refine ⟨[], [], rfl, by simp [flitisizeLoop], ?_, ?_⟩
    · simp [flitisizeLoop, Mailbox.inject, mailbox]
    · simp [flitisizeLoop]
  | cons d ds ih =>
    unfold flitisizeLoop
    split
    · refine ⟨[], d :: ds, rfl, by simp, ?_, by simp⟩
      simp [Mailbox.inject, mailbox]
    rename_i vc allocator _
    obtain ⟨done, left, hds, hres, hmail, hdest⟩ := ih (inject
      ⟨msg, if unicast then w.msg.destination else [d], vnet, numFlits, n, d,
        cfg.routing.routerOf d⟩ vc curTime { w with
        ni := { w.ni with vcAllocator := update w.ni.vcAllocator vnet allocator }
        msg := if unicast then w.msg
          else { w.msg with destination := w.msg.destination.filter (· ≠ d) } })
    refine ⟨d :: done, left, by rw [hds, cons_append], hres, ?_, ?_⟩
    · rw [hmail]
      cases unicast <;> simp [Mailbox.inject, mailbox, inject, packetFor]
    rw [hdest]
    cases unicast
    · dsimp only [inject]
      rw [if_neg Bool.false_ne_true, if_neg Bool.false_ne_true, if_neg Bool.false_ne_true,
        filter_filter]
      refine filter_congr (fun x _ => ?_)
      exact Bool.eq_iff_iff.mpr (by simp [and_comm])
    · simp [inject]

/-- What `flitisizeMessage` does for a message that still has destinations: it makes packets
for the first of them, each for one, and the message keeps the others. -/
theorem flitisizeMessage_spec (n vnet msg : Nat) (s : Net X)
    (hne : (s.messages msg).destination ≠ []) (hnodup : (s.messages msg).destination.Nodup) :
    ∃ ps left, (s.messages msg).destination = ps.map Packet.destNi ++ left ∧
      (∀ p ∈ ps, p.msg = msg ∧ p.vnet = vnet ∧ p.srcNi = n ∧ p.destination = [p.destNi]) ∧
      ((flitisizeMessage cfg n vnet msg s).1 = true ↔ left = []) ∧
      ((flitisizeMessage cfg n vnet msg s).2.nis n).mailbox = (s.nis n).mailbox.inject ps ∧
      (left ≠ [] → ((flitisizeMessage cfg n vnet msg s).2.messages msg).destination = left) := by
  obtain ⟨done, left, hsplit, hres, hmail, hdest⟩ :=
    @flitisizeLoop_spec X cfg n vnet msg (cfg.numFlits (s.messages msg).size) s.now
      ((s.messages msg).destination.length ≤ 1)
      (s.messages msg).destination ⟨s.nis n, s.channels (.ni n), s.messages msg⟩
  -- a message for one destination keeps it, and its packet has the same destinations
  have hone : (s.messages msg).destination.length ≤ 1 →
      ∃ d, (s.messages msg).destination = [d] := by
    intro hlen
    exact length_eq_one_iff.mp
      (le_antisymm hlen (length_pos_iff.mpr hne))
  refine ⟨done.map (fun d => packetFor cfg n vnet msg (cfg.numFlits (s.messages msg).size)
    (if (s.messages msg).destination.length ≤ 1 then (s.messages msg).destination else [d]) d),
    left, ?_, ?_, hres, ?_, ?_⟩
  · rw [map_map, hsplit]
    congr 1
    exact (map_id done).symm
  · intro p hp
    obtain ⟨d, hd, rfl⟩ := mem_map.mp hp
    refine ⟨rfl, rfl, rfl, ?_⟩
    dsimp only [packetFor]
    split_ifs with hlen
    · obtain ⟨d', hd'⟩ := hone hlen
      have hmem : d ∈ (s.messages msg).destination := hsplit ▸ mem_append_left _ hd
      rw [hd'] at hmem ⊢
      rw [mem_singleton.mp hmem]
    · rfl
  · unfold flitisizeMessage Net.setNi
    dsimp only
    rw [update_self, hmail]
    simp only [decide_eq_true_eq]
  · intro hleft
    unfold flitisizeMessage
    dsimp only
    rw [update_self, hdest]
    simp only [decide_eq_true_eq]
    split_ifs with hlen
    · obtain ⟨d, hd⟩ := hone hlen
      rw [hd] at hsplit ⊢
      cases done with
      | nil => exact hsplit
      | cons x xs =>
        have := congrArg List.length hsplit
        have := length_pos_iff.mpr hleft
        simp only [length_cons, length_append, length_nil] at *
        omega
    · rw [hsplit, filter_append]
      rw [hsplit] at hnodup
      have hdis := (nodup_append.mp hnodup).2.2
      rw [filter_eq_nil_iff.mpr (fun x hx => by simp [hx]), nil_append]
      refine filter_eq_self.mpr (fun x hx => ?_)
      simp only [decide_eq_true_eq]
      exact fun hdone => hdis x hdone x hx rfl

theorem flitisizeMessage_frame (n vnet msg : Nat) (s : Net X) :
    (∀ m, m ≠ n → (flitisizeMessage cfg n vnet msg s).2.nis m = s.nis m) ∧
      (∀ m, m ≠ msg → (flitisizeMessage cfg n vnet msg s).2.messages m = s.messages m) ∧
      (flitisizeMessage cfg n vnet msg s).2.nextMessage = s.nextMessage ∧
      (flitisizeMessage cfg n vnet msg s).2.now = s.now :=
  ⟨fun _ hm => update_of_ne hm _ _, fun _ hm => update_of_ne hm _ _, rfl, rfl⟩

end NetworkInterface

structure Multicasts (s : Net X) : Prop where
  node : ∀ n, Multicast s.messages n (s.nis n).mailbox
  below : ∀ n vnet msg D, (vnet, msg, D) ∈ (s.nis n).sent → msg < s.nextMessage
  owner : ∀ n n' vnet vnet' msg D D', (vnet, msg, D) ∈ (s.nis n).sent →
    (vnet', msg, D') ∈ (s.nis n').sent → n = n'

namespace Multicasts

variable {s t : Net X}

theorem sameMail (h : Multicasts s) (hst : s.SameMail t) : Multicasts t := by
  have hsent : ∀ n, (t.nis n).sent = (s.nis n).sent := fun n => congrArg sent (hst.mail n)
  refine ⟨fun n => ?_, ?_, ?_⟩
  · rw [hst.mail n, hst.messages]
    exact h.node n
  · simp only [hsent, hst.nextMessage]
    exact h.below
  · simp only [hsent]
    exact h.owner

theorem change (h : Multicasts s) {n : Nat}
    (hother : ∀ m, m ≠ n → t.nis m = s.nis m) (hsent : (t.nis n).sent = (s.nis n).sent)
    (hnext : t.nextMessage = s.nextMessage)
    (hsame : ∀ msg, (∀ vnet D, (vnet, msg, D) ∉ (s.nis n).sent) → t.messages msg = s.messages msg)
    (hnode : Multicast t.messages n (t.nis n).mailbox) : Multicasts t := by
  have hsent : ∀ m, (t.nis m).sent = (s.nis m).sent := by
    intro m
    by_cases hm : m = n
    · rw [hm, hsent]
    · rw [hother m hm]
  refine ⟨fun m => ?_, ?_, ?_⟩
  · by_cases hm : m = n
    · rw [hm]
      exact hnode
    · rw [hother m hm]
      refine (h.node m).congr (fun vnet msg D hmsg => hsame msg (fun vnet' D' hmsg' => ?_))
      exact hm (h.owner m n vnet vnet' msg D D' hmsg hmsg')
  · simp only [hsent, hnext]
    exact h.below
  · simp only [hsent]
    exact h.owner

theorem takeMessages (n : Nat) (vnets : List Nat) (h : Multicasts s) :
    Meets (NetworkInterface.takeMessages cfg n vnets s) AnyFault Multicasts := by
  induction vnets generalizing s with
  | nil => exact .ok h
  | cons vnet rest ih =>
    unfold NetworkInterface.takeMessages
    split
    · exact ih h
    rename_i m heap hheap
    split
    · have hin : m.id ∈ (s.nis n).mailbox.waiting vnet :=
        mem_map.mpr ⟨m, by rw [NetworkInterface.mailbox, hheap]; exact .head _, rfl⟩
      obtain ⟨D, hD⟩ := (h.node n).waiting vnet m.id hin
      have hleft : (s.messages m.id).destination ≠ [] ∧ (s.messages m.id).destination.Nodup := by
        cases (h.node n).progress vnet m.id D hD with
        | waiting _ _ hleft hperm =>
          exact ⟨hleft, (nodup_append.mp
            (hperm.nodup_iff.mpr ((h.node n).nodup vnet m.id D hD))).2.1⟩
        | done hout _ _ => exact absurd hin hout
      obtain ⟨ps, left, hsplit, hps, hres, hmail, hdest⟩ :=
        @NetworkInterface.flitisizeMessage_spec X cfg n vnet m.id s hleft.1 hleft.2
      obtain ⟨hnis, hmessages, hnext, -⟩ :=
        @NetworkInterface.flitisizeMessage_frame X cfg n vnet m.id s
      have hsame : ∀ msg, (∀ vnet D, (vnet, msg, D) ∉ (s.nis n).sent) →
          (NetworkInterface.flitisizeMessage cfg n vnet m.id s).2.messages msg =
            s.messages msg := by
        intro msg hmsg
        refine hmessages msg (fun heq => ?_)
        exact hmsg vnet D (heq ▸ hD)
      split
      · rename_i t hfl
        rw [hfl] at hres hmail hdest hnis hmessages hnext hsame
        have hl : left ≠ [] := fun hl => Bool.false_ne_true (hres.mpr hl)
        refine .ok (h.change hnis (congrArg sent hmail) hnext hsame ?_)
        rw [hmail]
        exact (h.node n).inject hin hsplit hps rfl hl (hdest hl) hmessages
      rename_i t hfl
      rw [hfl] at hres hmail hdest hnis hmessages hnext hsame
      have hl : left = [] := hres.mp rfl
      split
      · exact .error trivial
      rename_i x buffer hdeq
      refine ih (h.change (n := n) ?_ ?_ hnext hsame ?_)
      · intro m' hm'
        unfold Net.setNi
        dsimp only
        rw [update_of_ne hm']
        exact hnis m' hm'
      · unfold Net.setNi
        dsimp only
        rw [update_self]
        exact congrArg sent hmail
      have hbox : ((t.setNi n { t.nis n with
          inNode := update (t.nis n).inNode vnet buffer
          dequeued := (t.nis n).dequeued ++ [(vnet, m.id)] }).nis n).mailbox =
          ((s.nis n).mailbox.inject ps).take vnet m.id buffer := by
        unfold Net.setNi
        dsimp only
        rw [update_self, ← hmail]
        rfl
      have hnode : (t.nis n).inNode = (s.nis n).inNode := congrArg inNode hmail
      obtain ⟨front, hfront, -⟩ := Ruby.MessageBuffer.dequeue_spec hdeq
      rw [hnode, hheap] at hfront
      cases hfront
      rw [hbox]
      refine (h.node n).take hin hps ?_ hmessages ?_
      · rw [hsplit, hl, append_nil]
      · exact congrArg (List.map Ruby.Message.id) hheap
    · exact ih h

theorem send (h : Multicasts s) {size delta : Nat} (hD : D.Nodup) (hne : D ≠ []) :
    Meets (s.send n vnet D size delta c) AnyFault Multicasts := by
  unfold Net.send
  split
  · exact .error trivial
  rename_i buffer henq
  have hnew : ∀ m vnet D, (vnet, s.nextMessage, D) ∉ (s.nis m).sent :=
    fun m vnet D hmem => lt_irrefl _ (h.below m vnet _ D hmem)
  have hsame : ∀ m vnet msg D', (vnet, msg, D') ∈ (s.nis m).sent →
      update s.messages s.nextMessage ⟨D, size⟩ msg = s.messages msg := by
    intro m vnet msg D' hmem
    exact update_of_ne (h.below m vnet msg D' hmem).ne _ _
  have hsent : ∀ m v msg D', (v, msg, D') ∈ (update s.nis n { s.nis n with
      inNode := update (s.nis n).inNode vnet buffer
      sent := (s.nis n).sent ++ [(vnet, s.nextMessage, D)] } m).sent ↔
        (v, msg, D') ∈ (s.nis m).sent ∨ (m = n ∧ v = vnet ∧ msg = s.nextMessage ∧ D' = D) := by
    intro m v msg D'
    obtain rfl | hm := eq_or_ne m n
    · rw [update_self]
      simp
    · rw [update_of_ne hm]
      simp [hm]
  refine .ok ⟨fun m => ?_, fun m v msg D' hmem => ?_, fun m m' v v' msg D₁ D₂ h₁ h₂ => ?_⟩
  · unfold Net.setNi
    dsimp only
    obtain rfl | hm := eq_or_ne m n
    · rw [update_self]
      refine Multicast.put ((h.node m).congr (hsame m)) (hnew m) hD hne ?_
        (Ruby.MessageBuffer.enqueue_spec henq).1
      rw [update_self]
    · rw [update_of_ne hm]
      exact (h.node m).congr (hsame m)
  · rcases (hsent m v msg D').mp hmem with hmem | hmem
    · exact Nat.lt_succ_of_lt (h.below m v msg D' hmem)
    · exact Nat.lt_succ_of_le hmem.2.2.1.le
  · rcases (hsent m v msg D₁).mp h₁ with h₁ | h₁
    · rcases (hsent m' v' msg D₂).mp h₂ with h₂ | h₂
      · exact h.owner m m' v v' msg D₁ D₂ h₁ h₂
      · exact absurd (h₂.2.2.1 ▸ h₁) (hnew m v D₁)
    · rcases (hsent m' v' msg D₂).mp h₂ with h₂ | h₂
      · exact absurd (h₁.2.2.1 ▸ h₂) (hnew m' v' D₂)
      · exact h₁.1.trans h₂.1.symm

theorem start (buffers : Nat → Nat → Ruby.MessageBuffer)
    (hempty : ∀ n vnet, (buffers n vnet).prioHeap = []) :
    Multicasts (Net.start cfg buffers : Net X) := by
  have hwait : ∀ n vnet, ((Net.start cfg buffers : Net X).nis n).mailbox.waiting vnet = [] := by
    intro n vnet
    unfold waiting NetworkInterface.mailbox Net.start
    rw [hempty n vnet, map_nil]
  refine ⟨fun n => ⟨?_, ?_, ?_, ?_, ?_, ?_, ?_⟩, ?_, ?_⟩
  · intro vnet msg D hmem
    cases hmem
  · intro vnet vnet' msg D D' hmem
    cases hmem
  · intro vnet msg hmem
    rw [hwait] at hmem
    cases hmem
  · intro vnet
    rw [hwait]
    exact nodup_nil
  · intro p hmem
    cases hmem
  · intro e hmem
    cases hmem
  · intro vnet msg D hmem
    cases hmem
  · intro n vnet msg D hmem
    cases hmem
  · intro n n' vnet vnet' msg D D' hmem
    cases hmem

theorem step (h : Multicasts s) (hstep : (machine X cfg).step s l t) : Multicasts t := by
  obtain ⟨henabled, hexec⟩ := hstep
  cases l with
  | tick =>
    cases hexec
    exact { h with }
  | ni n =>
    have hawake : Multicasts (s.awake (.ni n)) := { h with }
    exact (NetworkInterface.wakeup_mail n _ (fun _ _ hst hs => hs.sameMail hst) hawake
      (fun u hu => hu.takeMessages n _)).of_ok hexec
  | router r rand =>
    have hawake : Multicasts (s.awake (.router r)) := { h with }
    exact hawake.sameMail ((Router.sameNodes r rand _).of_ok hexec).sameMail
  | link source =>
    cases hexec
    have hawake : Multicasts (s.awake (.link source)) := { h with }
    exact hawake.sameMail (NetworkLink.sameNodes _ source).sameMail
  | credit source =>
    cases hexec
    have hawake : Multicasts (s.awake (.credit source)) := { h with }
    exact hawake.sameMail (CreditLink.sameNodes _ source).sameMail
  | send n vnet D size delta c => exact (h.send henabled.2.2.2.1 henabled.2.2.1).of_ok hexec

end Multicasts

end Gem5.Garnet
