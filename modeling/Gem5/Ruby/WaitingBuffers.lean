import Gem5.Ruby.MessageBufferStalls

namespace Gem5.Ruby

open Lib Lib.SortedMap MessageBuffer Option Function

/-- What a controller keeps of stalled messages. Buffers are named by numbers; the entry
of an address has one slot for each rank. -/
structure AbstractController where
  inPorts : Nat
  curInPort : Nat
  waitingBuffers : List (Nat × List (Option Nat))
  buffers : Nat → MessageBuffer

namespace AbstractController

def setBuffer (c : AbstractController) (buf : Nat) (b : MessageBuffer) : AbstractController :=
  { c with buffers := Function.update c.buffers buf b }

def stallBuffer (c : AbstractController) (buf addr : Nat) : Option AbstractController :=
  if c.curInPort < c.inPorts then
    some { c with
           waitingBuffers := upsert addr (fun msgVec =>
             (msgVec.getD (List.replicate c.inPorts none)).set c.curInPort (some buf))
             c.waitingBuffers }
  else none

def stallAndWait (c : AbstractController) (buf addr t : Nat) : Option AbstractController := do
  let c ← c.stallBuffer buf addr
  let b ← (c.buffers buf).stallMessage addr t
  pure (c.setBuffer buf b)

def reanalyze (addr t : Nat) (c : AbstractController) : Option Nat → Option AbstractController
  | none => some c
  | some buf => ((c.buffers buf).reanalyzeMessages addr t).map (c.setBuffer buf)

section

variable (c : AbstractController) (addr t : Nat)
include c addr t

/-- Wakes the buffers in some slots of an address and drops its whole entry. -/
def wakeSlots (slots : List (Option Nat) → List (Option Nat)) : Option AbstractController :=
  match lookup addr c.waitingBuffers with
  | none => some c
  | some msgVec =>
    ((slots msgVec).foldlM (reanalyze addr t) c).map (fun c =>
      { c with waitingBuffers := erase addr c.waitingBuffers })

/-- `wakeUpBuffers(addr)`: from the rank below the current port downwards. -/
def wakeUpBuffers : Option AbstractController :=
  c.wakeSlots addr t (fun msgVec => (msgVec.take c.curInPort).reverse)

def wakeUpAllBuffersOf : Option AbstractController :=
  c.wakeSlots addr t List.reverse

end

/-- The loops of `wakeUpAllBuffers()`, over the slots of all addresses, with the buffers
woken so far. -/
def reanalyzeAll (t : Nat) : List (Option Nat) → List Nat → AbstractController → AbstractController
  | [], _, c => c
  | none :: slots, woken, c => reanalyzeAll t slots woken c
  | some buf :: slots, woken, c =>
    if buf ∈ woken then reanalyzeAll t slots woken c
    else reanalyzeAll t slots (buf :: woken)
      (c.setBuffer buf ((c.buffers buf).reanalyzeAllMessages t))

def wakeUpAllBuffers (c : AbstractController) (t : Nat) : AbstractController :=
  { reanalyzeAll t (c.waitingBuffers.map Prod.snd).flatten [] c with waitingBuffers := [] }

/-- What a controller does: it turns to a port of some rank, or makes a call at a time. -/
inductive Move
  | enterPort (rank : Nat)
  | call (buf : Nat) (op : Op) (t : Nat)
  | stallAndWait (buf addr t : Nat)
  | wakeUpBuffers (addr t : Nat)
  | wakeUpAllBuffersOf (addr t : Nat)
  | wakeUpAllBuffers (t : Nat)

/-- A move. The rank of a port is at most the number of ports, so `wakeUpBuffers` reads
no slot outside a vector. -/
def move (c : AbstractController) : Move → Option AbstractController
  | .enterPort rank => if rank ≤ c.inPorts then some { c with curInPort := rank } else none
  | .call buf op t =>
    match op with
    | .enqueue .. | .dequeue | .recycle _ | .delayHead .. =>
      (op.apply (c.buffers buf) t).map (c.setBuffer buf)
    | .stallMessage _ | .reanalyzeMessages _ | .reanalyzeAllMessages => none
  | .stallAndWait buf addr t => c.stallAndWait buf addr t
  | .wakeUpBuffers addr t => c.wakeUpBuffers addr t
  | .wakeUpAllBuffersOf addr t => c.wakeUpAllBuffersOf addr t
  | .wakeUpAllBuffers t => some (c.wakeUpAllBuffers t)

/-- A controller with `inPorts` ports. At the start nothing is stalled. -/
def machine (inPorts : Nat) : Machine AbstractController Move where
  init c := c.inPorts = inPorts ∧ c.curInPort = 0 ∧ c.waitingBuffers = [] ∧
    ∀ buf, (c.buffers buf).stallMsgMap = []
  step c m c' := c.move m = some c'

section

variable (c : AbstractController)
include c

def waitingAt (addr rank : Nat) : Option Nat :=
  ((lookup addr c.waitingBuffers).bind (fun msgVec => msgVec[rank]?)).join

/-- A buffer waits for an address: messages are stalled on it there. -/
def Waits (addr buf : Nat) : Prop :=
  (c.buffers buf).isStalledOn addr = true

/-- What a move has to meet. A buffer is recorded for an address at one rank, and no
other buffer has the slot; and `wakeUpBuffers` leaves out no rank at which a buffer is
recorded. -/
def Orderly : Move → Prop
  | .stallAndWait buf addr _ => (∀ other ∈ c.waitingAt addr c.curInPort, other = buf) ∧
      ∀ rank < c.inPorts, c.waitingAt addr rank = some buf → rank = c.curInPort
  | .wakeUpBuffers addr _ => ∀ rank < c.inPorts, c.curInPort ≤ rank → c.waitingAt addr rank = none
  | _ => True

instance : (m : Move) → Decidable (c.Orderly m)
  | .stallAndWait buf addr _ =>
    inferInstanceAs (Decidable ((∀ other ∈ c.waitingAt addr c.curInPort, other = buf) ∧
      ∀ rank < c.inPorts, c.waitingAt addr rank = some buf → rank = c.curInPort))
  | .wakeUpBuffers addr _ => inferInstanceAs (Decidable (∀ rank < c.inPorts,
      c.curInPort ≤ rank → c.waitingAt addr rank = none))
  | .enterPort _ | .call .. | .wakeUpAllBuffersOf .. | .wakeUpAllBuffers _ =>
    inferInstanceAs (Decidable True)

end

/-- The record agrees with the stall maps. -/
structure Consistent (c : AbstractController) : Prop where
  ascending : Ascending c.waitingBuffers
  vectors : ∀ addr msgVec, lookup addr c.waitingBuffers = some msgVec → msgVec.length = c.inPorts
  recorded : ∀ addr buf, c.Waits addr buf ↔ ∃ rank, c.waitingAt addr rank = some buf
  unique : ∀ addr buf rank rank', c.waitingAt addr rank = some buf →
    c.waitingAt addr rank' = some buf → rank = rank'

theorem isStalledOn_push (addr a : Nat) (m : Message) (stalled : List (Nat × List Message)) :
    (pushStalled addr m stalled).any (fun e => e.1 = a) = true ↔
      addr = a ∨ stalled.any (fun e => e.1 = a) = true := by
  induction stalled with
  | nil => simp [pushStalled]
  | cons e rest ih =>
    obtain ⟨a', ms⟩ := e
    unfold pushStalled
    split
    · rename_i heq
      simp only [heq, List.any_cons, Bool.or_eq_true, decide_eq_true_eq]
      exact or_self_left.symm
    · split
      · simp only [List.any_cons, Bool.or_eq_true, decide_eq_true_eq]
      · rw [List.any_cons, List.any_cons, Bool.or_eq_true, ih, Bool.or_eq_true]
        exact or_left_comm

variable {addr t : Nat}

theorem isStalledOn_stallMessage {b b' : MessageBuffer}
    (h : b.stallMessage addr t = some b') (a : Nat) :
    b'.isStalledOn a = true ↔ addr = a ∨ b.isStalledOn a = true := by
  obtain ⟨⟨m, b₁⟩, hd, rfl⟩ := map_eq_some_iff.mp h
  obtain ⟨_, _, _, hmap⟩ := dequeue_spec hd
  show (pushStalled addr m b₁.stallMsgMap).any _ = true ↔ _
  rw [hmap]
  exact isStalledOn_push addr a m b.stallMsgMap

theorem isStalledOn_reanalyzeMessages {b : MessageBuffer} (h : b.isStalledOn addr = true) :
    ∃ b', b.reanalyzeMessages addr t = some b' ∧
      ∀ a, b'.isStalledOn a = true ↔ b.isStalledOn a = true ∧ a ≠ addr := by
  refine ⟨_, if_pos h, fun a => ?_⟩
  simp only [isStalledOn, List.any_eq_true, List.mem_filter, decide_eq_true_eq]
  constructor
  · intro ⟨e, ⟨he, hne⟩, ha⟩
    exact ⟨⟨e, he, ha⟩, ha ▸ hne⟩
  · intro ⟨⟨e, he, ha⟩, hne⟩
    exact ⟨e, ⟨he, ha ▸ hne⟩, ha⟩

theorem waits_setBuffer (c : AbstractController) (addr buf other : Nat) (b : MessageBuffer) :
    (c.setBuffer buf b).Waits addr other ↔
      if other = buf then b.isStalledOn addr = true else c.Waits addr other := by
  unfold Waits setBuffer
  by_cases h : other = buf
  · subst other
    simp
  · simp [h]

variable {c : AbstractController} {addr rank buf : Nat}

/-- Waking some slots of an address: every buffer there has messages stalled on it. -/
theorem reanalyze_slots {slots : List (Option Nat)}
    (hwait : ∀ buf, some buf ∈ slots → c.Waits addr buf)
    (hdistinct : slots.Pairwise (fun x y => x = y → x = none)) :
    ∃ buffers, slots.foldlM (reanalyze addr t) c = some { c with buffers } ∧
      ∀ a buf, Waits { c with buffers } a buf ↔ c.Waits a buf ∧ ¬(a = addr ∧ some buf ∈ slots) := by
  induction slots generalizing c with
  | nil => exact ⟨c.buffers, rfl, fun a buf => by simp⟩
  | cons slot slots ih =>
    obtain ⟨hfirst, hrest⟩ := List.pairwise_cons.mp hdistinct
    cases slot with
    | none =>
      obtain ⟨buffers, hrun, hwaits⟩ :=
        ih (fun buf hbuf => hwait buf (.tail _ hbuf)) hrest
      exact ⟨buffers, hrun, fun a buf => by simp [hwaits]⟩
    | some buf₀ =>
      have hnot : some buf₀ ∉ slots := fun h => by cases hfirst _ h rfl
      obtain ⟨b, hb, hbstalled⟩ := isStalledOn_reanalyzeMessages (t := t)
        (hwait buf₀ List.mem_cons_self)
      have hstep : ∀ a buf, (c.setBuffer buf₀ b).Waits a buf ↔
          c.Waits a buf ∧ ¬(a = addr ∧ buf = buf₀) := by
        intro a buf
        rw [waits_setBuffer]
        by_cases h : buf = buf₀
        · subst buf
          simp only [if_true, hbstalled, and_true, ne_eq]
          rfl
        · simp [h]
      obtain ⟨buffers, hrun, hwaits⟩ := ih (c := c.setBuffer buf₀ b)
        (fun buf hbuf => (hstep addr buf).mpr
          ⟨hwait buf (.tail _ hbuf), fun h => hnot (h.2 ▸ hbuf)⟩) hrest
      refine ⟨buffers, ?_, fun a buf => ?_⟩
      · rw [List.foldlM_cons]
        simp only [reanalyze, hb, map_some, bind_eq_bind, bind_some]
        exact hrun
      · have := hwaits a buf
        rw [hstep a buf] at this
        refine this.trans ?_
        simp only [List.mem_cons, Option.some.injEq]
        tauto

theorem waitingAt_eq_some : c.waitingAt addr rank = some buf ↔
      ∃ msgVec, lookup addr c.waitingBuffers = some msgVec ∧ msgVec[rank]? = some (some buf) := by
  unfold waitingAt
  cases lookup addr c.waitingBuffers with
  | none => simp
  | some msgVec => simp [join_eq_some_iff]

theorem waitingAt_erase (c : AbstractController) (addr a rank : Nat)
    (buffers : Nat → MessageBuffer) :
    waitingAt { c with waitingBuffers := erase addr c.waitingBuffers, buffers } a rank =
      if addr = a then none else c.waitingAt a rank := by
  unfold waitingAt
  dsimp only
  rw [lookup_erase]
  split <;> rfl

section

variable (h : Consistent c)
include h

theorem Consistent.rank_lt (hw : c.waitingAt addr rank = some buf) : rank < c.inPorts := by
  obtain ⟨msgVec, hvec, hslot⟩ := waitingAt_eq_some.mp hw
  have := (List.getElem?_eq_some_iff.mp hslot).1
  rwa [h.vectors addr msgVec hvec] at this

theorem Consistent.distinct {addr : Nat}
    {msgVec : List (Option Nat)} (hvec : lookup addr c.waitingBuffers = some msgVec) :
    msgVec.Pairwise (fun x y => x = y → x = none) := by
  refine List.pairwise_iff_getElem.mpr (fun i j hi hj hij heq => ?_)
  cases hslot : msgVec[i] with
  | none => rfl
  | some buf =>
    have hat : ∀ rank (hr : rank < msgVec.length), msgVec[rank] = some buf →
        c.waitingAt addr rank = some buf := fun rank hr hrank =>
      waitingAt_eq_some.mpr ⟨msgVec, hvec, List.getElem?_eq_some_iff.mpr ⟨hr, hrank⟩⟩
    have := h.unique addr buf i j (hat i hi hslot) (hat j hj (heq ▸ hslot))
    omega

/-- The wakeups of one address. `slots` picks the slots that are woken. -/
theorem Consistent.wakeSlots (addr t : Nat) {slots : List (Option Nat) → List (Option Nat)}
    (hsub : ∀ msgVec x, x ∈ slots msgVec → x ∈ msgVec)
    (hpair : ∀ msgVec, msgVec.Pairwise (fun x y => x = y → x = none) →
      (slots msgVec).Pairwise (fun x y : Option Nat => x = y → x = none)) :
    ∃ c', c.wakeSlots addr t slots = some c' ∧
      ((∀ msgVec, lookup addr c.waitingBuffers = some msgVec → ∀ buf, some buf ∈ msgVec →
        some buf ∈ slots msgVec) → Consistent c') := by
  unfold AbstractController.wakeSlots
  cases hvec : lookup addr c.waitingBuffers with
  | none => exact ⟨c, rfl, fun _ => h⟩
  | some msgVec =>
    have hwait : ∀ buf, some buf ∈ slots msgVec → c.Waits addr buf := by
      intro buf hbuf
      obtain ⟨rank, hrank⟩ := List.mem_iff_getElem?.mp (hsub msgVec _ hbuf)
      exact (h.recorded addr buf).mpr ⟨rank, waitingAt_eq_some.mpr ⟨msgVec, hvec, hrank⟩⟩
    obtain ⟨buffers, hrun, hwaits⟩ :=
      reanalyze_slots (t := t) hwait (hpair msgVec (h.distinct hvec))
    simp only [hrun, map_some]
    refine ⟨_, rfl, fun hall => ⟨h.ascending.erase addr, ?_, ?_, ?_⟩⟩
    · intro a vec ha
      dsimp only at ha
      rw [lookup_erase] at ha
      split_ifs at ha
      exact h.vectors a vec ha
    · intro a buf
      simp only [waitingAt_erase]
      refine (hwaits a buf).trans ?_
      by_cases ha : addr = a
      · subst a
        simp only [true_and, if_true, reduceCtorEq, exists_false, iff_false, not_and, not_not]
        intro hw
        obtain ⟨rank, hrank⟩ := (h.recorded addr buf).mp hw
        obtain ⟨vec, hvec', hslot⟩ := waitingAt_eq_some.mp hrank
        cases hvec.symm.trans hvec'
        exact hall msgVec rfl buf (List.mem_of_getElem? hslot)
      · simp only [if_neg ha, Ne.symm ha, false_and, not_false_eq_true, and_true]
        exact h.recorded a buf
    · intro a buf rank rank'
      simp only [waitingAt_erase]
      split
      · intro hr
        cases hr
      · exact h.unique a buf rank rank'

theorem waitingAt_record
    (hcur : c.curInPort < c.inPorts) (addr buf a rank : Nat) (buffers : Nat → MessageBuffer) :
    waitingAt { c with
        waitingBuffers := upsert addr (fun msgVec =>
          (msgVec.getD (List.replicate c.inPorts none)).set c.curInPort (some buf)) c.waitingBuffers
        buffers } a rank =
      if addr = a ∧ rank = c.curInPort then some buf else c.waitingAt a rank := by
  unfold waitingAt
  dsimp only
  rw [h.ascending.lookup_upsert]
  by_cases ha : addr = a
  · subst a
    rw [if_pos rfl, bind_some]
    cases hvec : lookup addr c.waitingBuffers with
    | none =>
      simp only [getD_none, true_and, bind_none, join_none]
      by_cases hr : rank = c.curInPort
      · subst rank
        simp [hcur]
      · rw [if_neg hr, List.getElem?_set_ne (Ne.symm hr), List.getElem?_replicate]
        split <;> rfl
    | some msgVec =>
      have hlen := h.vectors addr msgVec hvec
      simp only [getD_some, true_and, bind_some]
      by_cases hr : rank = c.curInPort
      · subst rank
        simp [hlen, hcur]
      · rw [if_neg hr, List.getElem?_set_ne (Ne.symm hr)]
  · rw [if_neg ha, if_neg (fun h => ha h.1)]

theorem Consistent.stallAndWait
    (ho : c.Orderly (.stallAndWait buf addr t)) (hs : c.stallAndWait buf addr t = some c') :
    Consistent c' := by
  obtain ⟨hslot, hrank⟩ := ho
  obtain ⟨c₁, hc₁, hs⟩ := bind_eq_some_iff.mp hs
  obtain ⟨b, hb, hs⟩ := bind_eq_some_iff.mp hs
  cases hs
  unfold stallBuffer at hc₁
  split_ifs at hc₁ with hcur
  cases hc₁
  have hwaits : ∀ a other, Waits (setBuffer { c with
      waitingBuffers := upsert addr (fun msgVec =>
        (msgVec.getD (List.replicate c.inPorts none)).set c.curInPort (some buf))
        c.waitingBuffers } buf b) a other ↔ (addr = a ∧ other = buf) ∨ c.Waits a other := by
    intro a other
    rw [waits_setBuffer]
    split_ifs with heq
    · subst other
      rw [isStalledOn_stallMessage hb]
      simp [Waits]
    · simp [Waits, heq]
  refine ⟨h.ascending.upsert, ?_, ?_, ?_⟩
  · intro a vec ha
    simp only [setBuffer] at ha ⊢
    rw [h.ascending.lookup_upsert] at ha
    split at ha
    · cases ha
      rw [List.length_set]
      cases hvec : lookup addr c.waitingBuffers with
      | none => exact List.length_replicate
      | some msgVec => exact h.vectors addr msgVec hvec
    · exact h.vectors a vec ha
  · intro a other
    refine (hwaits a other).trans ?_
    simp only [setBuffer, waitingAt_record h hcur, h.recorded]
    constructor
    · intro hor
      rcases hor with hnew | hold
      · rw [hnew.2]
        exact ⟨c.curInPort, if_pos ⟨hnew.1, rfl⟩⟩
      · obtain ⟨rank, hr⟩ := hold
        refine ⟨rank, ?_⟩
        split_ifs with hsame
        · -- the slot can only have been this buffer's own
          rw [hslot other (by rw [← hsame.2, hsame.1]; exact hr)]
        · exact hr
    · intro ⟨rank, hr⟩
      split_ifs at hr with hsame
      · exact .inl ⟨hsame.1, (some.inj hr).symm⟩
      · exact .inr ⟨rank, hr⟩
  · intro a other rank rank' hr hr'
    simp only [setBuffer, waitingAt_record h hcur] at hr hr'
    have hown : ∀ rank, c.waitingAt a rank = some buf → addr = a → rank = c.curInPort :=
      fun rank hw ha => hrank rank (h.rank_lt hw) (ha ▸ hw)
    split_ifs at hr with hnew
    · cases hr
      split at hr'
      · rename_i hnew'
        rw [hnew.2, hnew'.2]
      · rw [hnew.2, hown rank' hr' hnew.1]
    · split at hr'
      · rename_i hnew'
        cases hr'
        rw [hnew'.2, hown rank hr hnew'.1]
      · exact h.unique a other rank rank' hr hr'

theorem Consistent.setBuffer (hmap : b.stallMsgMap = (c.buffers buf).stallMsgMap) :
    Consistent (c.setBuffer buf b) := by
  refine ⟨h.ascending, h.vectors, fun addr other => ?_, h.unique⟩
  refine Iff.trans ?_ (h.recorded addr other)
  rw [waits_setBuffer]
  split_ifs with heq
  · rw [heq, Waits, isStalledOn, isStalledOn, hmap]
  · rfl

theorem Consistent.call (hc : c.move (.call buf op t) = some c') : Consistent c' := by
  cases op with
  | enqueue m delta ch =>
    obtain ⟨b, hb, rfl⟩ := map_eq_some_iff.mp hc
    exact h.setBuffer (enqueue_spec hb).2
  | dequeue =>
    obtain ⟨b, hb, rfl⟩ := map_eq_some_iff.mp hc
    obtain ⟨⟨m, _⟩, hd, rfl⟩ := map_eq_some_iff.mp hb
    obtain ⟨_, _, _, hmap⟩ := dequeue_spec hd
    exact h.setBuffer hmap
  | recycle latency =>
    obtain ⟨b, hb, rfl⟩ := map_eq_some_iff.mp hc
    simp only [Op.apply, recycle] at hb
    split at hb
    · cases hb
    · split_ifs at hb
      cases hb
      exact h.setBuffer rfl
  | delayHead delta ch =>
    obtain ⟨b, hb, rfl⟩ := map_eq_some_iff.mp hc
    simp only [Op.apply, delayHead] at hb
    split at hb
    · cases hb
    · exact h.setBuffer (enqueue_spec hb).2
  | stallMessage addr => cases hc
  | reanalyzeMessages addr => cases hc
  | reanalyzeAllMessages => cases hc

end

theorem reanalyzeAll_slots (t : Nat) (slots : List (Option Nat)) (woken : List Nat)
    (c : AbstractController) :
    ∃ buffers, reanalyzeAll t slots woken c = { c with buffers } ∧
      ∀ a buf, Waits { c with buffers } a buf →
        c.Waits a buf ∧ (some buf ∈ slots → buf ∈ woken) := by
  induction slots generalizing woken c with
  | nil => exact ⟨c.buffers, rfl, fun a buf hw => ⟨hw, nofun⟩⟩
  | cons slot slots ih =>
    cases slot with
    | none =>
      obtain ⟨buffers, hrun, hwaits⟩ := ih woken c
      refine ⟨buffers, hrun, fun a buf hw => ?_⟩
      simpa using hwaits a buf hw
    | some buf₀ =>
      unfold reanalyzeAll
      split_ifs with hold
      · obtain ⟨buffers, hrun, hwaits⟩ := ih woken c
        refine ⟨buffers, hrun, fun a buf hw => ⟨(hwaits a buf hw).1, fun hmem => ?_⟩⟩
        rcases List.mem_cons.mp hmem with heq | hmem
        · exact some.inj heq ▸ hold
        · exact (hwaits a buf hw).2 hmem
      obtain ⟨buffers, hrun, hwaits⟩ := ih (buf₀ :: woken)
        (c.setBuffer buf₀ ((c.buffers buf₀).reanalyzeAllMessages t))
      refine ⟨buffers, hrun, fun a buf hw => ?_⟩
      obtain ⟨hbefore, hmem⟩ := hwaits a buf hw
      rw [waits_setBuffer] at hbefore
      split_ifs at hbefore with hne
      · cases hbefore
      · refine ⟨hbefore, fun hin => ?_⟩
        rcases List.mem_cons.mp hin with heq | hin
        · exact absurd (some.inj heq) hne
        · exact (List.mem_cons.mp (hmem hin)).resolve_left hne

section

variable (h : Consistent c)
include h

theorem Consistent.wakeUpAllBuffers (t : Nat) : Consistent (c.wakeUpAllBuffers t) := by
  obtain ⟨buffers, hrun, hwaits⟩ :=
    reanalyzeAll_slots t (c.waitingBuffers.map Prod.snd).flatten [] c
  unfold AbstractController.wakeUpAllBuffers
  rw [hrun]
  refine ⟨.nil, nofun, fun addr buf => ?_, ?_⟩
  · constructor
    · intro hw
      obtain ⟨hbefore, hnone⟩ := hwaits addr buf hw
      obtain ⟨rank, hr⟩ := (h.recorded addr buf).mp hbefore
      obtain ⟨msgVec, hvec, hslot⟩ := waitingAt_eq_some.mp hr
      have hmem : some buf ∈ (c.waitingBuffers.map Prod.snd).flatten :=
        List.mem_flatten.mpr ⟨msgVec, List.mem_map.mpr ⟨_, mem_of_lookup hvec, rfl⟩,
          List.mem_of_getElem? hslot⟩
      cases hnone hmem
    · intro ⟨rank, hr⟩
      cases hr
  · intro addr buf rank rank' hr
    cases hr

theorem Consistent.wakeUpBuffers (addr t : Nat) : ∃ c', c.wakeUpBuffers addr t = some c' ∧
      (c.Orderly (.wakeUpBuffers addr t) → Consistent c') := by
  obtain ⟨c', hc', hcons⟩ := @wakeSlots c h addr t
    (fun msgVec => (msgVec.take c.curInPort).reverse)
    (fun msgVec x hx => List.mem_of_mem_take (List.mem_reverse.mp hx))
    (fun msgVec hpair => List.pairwise_reverse.mpr
      ((hpair.sublist (List.take_sublist _ _)).imp (fun h heq => heq ▸ h heq.symm)))
  refine ⟨c', hc', fun ho => hcons (fun msgVec hvec buf hbuf => List.mem_reverse.mpr ?_)⟩
  obtain ⟨rank, hrank⟩ := List.mem_iff_getElem?.mp hbuf
  have hw : c.waitingAt addr rank = some buf := waitingAt_eq_some.mpr ⟨msgVec, hvec, hrank⟩
  have hlt : rank < c.curInPort := by
    by_contra hge
    have hnone := ho rank (h.rank_lt hw) (not_lt.mp hge)
    rw [hw] at hnone
    cases hnone
  exact List.mem_of_getElem? ((List.getElem?_take_of_lt hlt).trans hrank)

theorem Consistent.wakeUpAllBuffersOf (addr t : Nat) :
    ∃ c', c.wakeUpAllBuffersOf addr t = some c' ∧ Consistent c' := by
  obtain ⟨c', hc', hcons⟩ := @wakeSlots c h addr t List.reverse
    (fun msgVec x hx => List.mem_reverse.mp hx)
    (fun msgVec hpair => List.pairwise_reverse.mpr (hpair.imp (fun h heq => heq ▸ h heq.symm)))
  exact ⟨c', hc', hcons (fun msgVec _ buf hbuf => List.mem_reverse.mpr hbuf)⟩

theorem Consistent.step (ho : c.Orderly m) (hm : c.move m = some c') : Consistent c' := by
  cases m with
  | enterPort rank =>
    simp only [move] at hm
    split_ifs at hm
    cases hm
    exact { h with }
  | call buf op t => exact h.call hm
  | stallAndWait buf addr t => exact h.stallAndWait ho hm
  | wakeUpBuffers addr t =>
    obtain ⟨c₁, hc₁, hcons⟩ := h.wakeUpBuffers addr t
    cases hc₁.symm.trans hm
    exact hcons ho
  | wakeUpAllBuffersOf addr t =>
    obtain ⟨c₁, hc₁, hcons⟩ := h.wakeUpAllBuffersOf addr t
    cases hc₁.symm.trans hm
    exact hcons
  | wakeUpAllBuffers t =>
    cases hm
    exact h.wakeUpAllBuffers t

end

/-- In every run of orderly moves no stalled message is stranded: its buffer is in the
record of the address, and every wakeup finds messages to wake in the buffers it calls. -/
theorem stalled_recorded {inPorts : Nat} {c : AbstractController}
    (hr : ((machine inPorts).restrict Orderly).Reachable c) :
    (∀ addr buf, c.Waits addr buf → ∃ rank, c.waitingAt addr rank = some buf) ∧
      ∀ addr t, (c.wakeUpBuffers addr t).isSome ∧ (c.wakeUpAllBuffersOf addr t).isSome := by
  have h : Consistent c := by
    refine hr.invariant (I := Consistent) ?_ ?_
    · intro c hc
      obtain ⟨_, _, hempty, hstalls⟩ := hc
      have hnone : ∀ addr rank, c.waitingAt addr rank = none := by
        intro addr rank
        rw [waitingAt, hempty]
        rfl
      refine ⟨by rw [hempty]; exact .nil, ?_, fun addr buf => ?_, ?_⟩
      · intro addr vec hvec
        rw [hempty] at hvec
        cases hvec
      · rw [Waits, isStalledOn, hstalls buf]
        simp [hnone]
      · intro addr buf rank rank' hrank
        rw [hnone] at hrank
        cases hrank
    · intro c m c' h hstep
      exact h.step hstep.2 hstep.1
  refine ⟨fun addr buf hw => (h.recorded addr buf).mp hw, fun addr t => ⟨?_, ?_⟩⟩
  · obtain ⟨c', hc', _⟩ := h.wakeUpBuffers addr t
    rw [hc']
    rfl
  · obtain ⟨c', hc', _⟩ := h.wakeUpAllBuffersOf addr t
    rw [hc']
    rfl

def idle (inPorts : Nat) : AbstractController :=
  ⟨inPorts, 0, [], fun _ => { maxSize := 0, strictFifo := false, randomized := false }⟩

theorem idle_init (inPorts : Nat) : (machine inPorts).init (idle inPorts) :=
  ⟨rfl, rfl, rfl, fun _ => rfl⟩

/-- A message stalled while the port of rank 0 is served, and the port of rank 1 next. -/
theorem stalled_recorded_rank_zero :
    ∃ c, ((machine 2).restrict Orderly).Reachable c ∧ c.curInPort = 1 ∧ c.Waits 64 0 ∧
      (∃ rank, c.waitingAt 64 rank = some 0) ∧ (c.wakeUpBuffers 64 3).isSome := by
  obtain ⟨c, hr, hcur, hw⟩ := Machine.exists_run (M := (machine 2).restrict Orderly)
    (Machine.restrict_step (f := move) (fun _ _ _ h => h) Orderly) (.start (idle_init 2))
    [.call 0 (.enqueue (Message.fresh 0) 1 Chance.none) 1, .stallAndWait 0 64 2, .enterPort 1]
    (P := fun c => c.curInPort = 1 ∧ (c.buffers 0).isStalledOn 64 = true) (by decide)
  have h := stalled_recorded hr
  exact ⟨c, hr, hcur, hw, h.1 64 0 hw, (h.2 64 3).1⟩

/-- The port of rank 1 stalls a message and then wakes up the buffers of the address:
its own is left out, and the record is gone. -/
theorem stalled_at_own_rank_stranded :
    ∃ c, (machine 2).Reachable c ∧ c.Waits 64 0 ∧ ∀ rank, c.waitingAt 64 rank = none := by
  obtain ⟨c, hr, hw, hempty⟩ := Machine.exists_run (M := machine 2) (f := move) (fun _ _ _ h => h)
    (.start (idle_init 2)) [.call 0 (.enqueue (Message.fresh 0) 1 Chance.none) 1, .enterPort 1,
      .stallAndWait 0 64 2, .wakeUpBuffers 64 2]
    (P := fun c => (c.buffers 0).isStalledOn 64 = true ∧ c.waitingBuffers = []) (by decide)
  refine ⟨c, hr, hw, fun rank => ?_⟩
  rw [waitingAt, hempty]
  rfl

end AbstractController

end Gem5.Ruby
