import Gem5.Lib.Transition

namespace Gem5.Mem

open Lib List Option Function

/-! A layer of a crossbar: the way to one destination port, for which the sources wait in turn. -/

inductive LayerState
  | idle
  | busy
  | retry
  deriving DecidableEq, Repr

inductive DrainState
  | running
  | draining
  | drained
  deriving DecidableEq, Repr

/-- `releaseEvent` is the tick for which the event is scheduled. -/
structure XBarLayer (Src : Type) where
  state : LayerState
  waitingForLayer : List Src
  waitingForPeer : Option Src
  releaseEvent : Option Nat
  drainState : DrainState

namespace XBarLayer

variable {Src : Type} [DecidableEq Src]

/-! In what follows `none` is a failed assertion. -/

/-- The event must not be scheduled already, and not in the past. -/
def occupyLayer (now «until» : Nat) (l : XBarLayer Src) : Option (XBarLayer Src) :=
  if l.state = .busy ∧ «until» ≠ 0 ∧ l.releaseEvent = none ∧ now ≤ «until» then
    some { l with releaseEvent := some «until» }
  else none

def tryTiming (srcPort : Src) (l : XBarLayer Src) : Option (Bool × XBarLayer Src) :=
  if l.state = .busy ∨ l.waitingForPeer ≠ none then
    if srcPort ∈ l.waitingForLayer then none
    else some (false, { l with waitingForLayer := l.waitingForLayer ++ [srcPort] })
  else some (true, { l with state := .busy })

def succeededTiming (now busyTime : Nat) (l : XBarLayer Src) : Option (XBarLayer Src) :=
  if l.state = .busy then occupyLayer now busyTime l else none

def failedTiming (now : Nat) (srcPort : Src) (busyTime : Nat) (l : XBarLayer Src) :
    Option (XBarLayer Src) :=
  if l.waitingForPeer = none then
    let l := { l with waitingForPeer := some srcPort }
    if l.state = .busy then occupyLayer now busyTime l else none
  else none

/-- Up to the call of `sendRetry`: the port that is sent the retry. -/
def retryWaiting (l : XBarLayer Src) : Option (Src × XBarLayer Src) :=
  match l.waitingForLayer with
  | [] => none
  | retryingPort :: rest =>
    if l.state = .idle then some (retryingPort, { l with state := .retry, waitingForLayer := rest })
    else none

def retryReturned (now clockEdge : Nat) (l : XBarLayer Src) : Option (XBarLayer Src) :=
  if l.state = .retry then occupyLayer now clockEdge { l with state := .busy } else some l

section

variable (l : XBarLayer Src)
include l

def releaseLayer : Option (Option Src × XBarLayer Src) :=
  if l.state = .busy ∧ l.releaseEvent = none then
    let l := { l with state := .idle }
    if l.waitingForLayer ≠ [] then
      if l.waitingForPeer = none then (retryWaiting l).map (Prod.map some id) else some (none, l)
    else if l.waitingForPeer = none ∧ l.drainState = .draining then
      some (none, { l with drainState := .drained })
    else some (none, l)
  else none

def recvRetry : Option (Option Src × XBarLayer Src) :=
  match l.waitingForPeer with
  | none => none
  | some srcPort =>
    let l := { l with waitingForLayer := srcPort :: l.waitingForLayer, waitingForPeer := none }
    if l.state = .idle then (retryWaiting l).map (Prod.map some id)
    else if l.state = .busy then some (none, l)
    else none

def drain : XBarLayer Src :=
  { l with drainState := if l.state ≠ .idle then .draining else .drained }

def drainResume : XBarLayer Src := { l with drainState := .running }

end

def initial : XBarLayer Src where
  state := .idle
  waitingForLayer := []
  waitingForPeer := none
  releaseEvent := none
  drainState := .running

end XBarLayer

open XBarLayer

/-! The turns of the sources, without the layer. -/

/-- What is told to a source: its packet is refused by the layer, its packet is rejected by the
peer, or it shall retry. -/
inductive Note (Src : Type)
  | refused (src : Src)
  | rejected (src : Src)
  | retried (src : Src)

/-- The source whose packet the peer has rejected, and those that the layer has refused, in the
order of the refusals. -/
structure Turns (Src : Type) where
  rejected : Option Src := none
  refused : List Src := []

namespace Turns

variable {Src : Type} [DecidableEq Src]

/-- The one that is next: the rejected one goes first. -/
def turn (t : Turns Src) : Option Src := t.rejected <|> t.refused.head?

/-- Only the source that is next may be told to retry. -/
def tell (t : Turns Src) : Note Src → Option (Turns Src)
  | .refused src => some { t with refused := t.refused ++ [src] }
  | .rejected src => if t.rejected = none then some { t with rejected := some src } else none
  | .retried src =>
    if t.turn = some src then
      some (if t.rejected = none then { t with refused := t.refused.tail }
        else { t with rejected := none })
    else none

/-- All that wait, the next one first. -/
def all (t : Turns Src) : List Src := t.rejected.toList ++ t.refused

theorem tell_retried {t : Turns Src} {src : Src} {rest : List Src} (h : t.all = src :: rest) :
    ∃ t', t.tell (.retried src) = some t' ∧ t'.rejected = none ∧ t'.refused = rest := by
  obtain ⟨rejected, refused⟩ := t
  cases rejected with
  | none =>
    have h : refused = src :: rest := h
    subst h
    exact ⟨⟨none, rest⟩, by simp [tell, turn], rfl, rfl⟩
  | some s =>
    obtain ⟨rfl, rfl⟩ : s = src ∧ refused = rest := by simpa [all] using h
    exact ⟨⟨none, refused⟩, by simp [tell, turn], rfl, rfl⟩

end Turns

structure XBarClock where
  clockEdge : Nat → Nat
  le_clockEdge : ∀ now, now ≤ clockEdge now

/-- What is in progress when the layer is called again: a packet of a source is on its way to the
peer, or a retry is being sent. -/
inductive Frame (Src : Type)
  | sending (src : Src)
  | retrying
  deriving DecidableEq

/-- The layer, the calls in progress, the sources that have been refused and not been told to retry,
the retries that the peer owes, and what has been told to the sources. -/
structure LayerRun (Src : Type) where
  layer : XBarLayer Src
  now : Nat
  frames : List (Frame Src)
  refused : Src → Bool
  owed : Nat
  told : List (Note Src)

namespace LayerRun

variable {Src : Type} [DecidableEq Src]

inductive Move (Src : Type)
  | tryTiming (src : Src)
  | succeededTiming (busyTime : Nat)
  | failedTiming (busyTime : Nat)
  | recvRetry
  | retryReturns
  | release
  | wait (tick : Nat)
  | drain
  | drainResume

section

variable (w : LayerRun Src)
include w

def sender : Option Src :=
  match w.frames with
  | .sending src :: _ => some src
  | _ => none

/-- The port protocol. A source that waits for a retry does not send. A packet that the layer has
let through is accepted or rejected once, after the calls made meanwhile. The peer sends a retry if
it owes one. Between the events time passes, and no event is missed. -/
def Enabled : Move Src → Prop
  | .tryTiming src => w.refused src = false
  | .succeededTiming busyTime =>
    w.sender.isSome ∧ w.now ≤ busyTime ∧ busyTime ≠ 0
  | .failedTiming busyTime =>
    w.sender.isSome ∧ w.now ≤ busyTime ∧ busyTime ≠ 0
  | .recvRetry => 0 < w.owed
  | .retryReturns => w.frames.head? = some .retrying
  | .release => w.frames = [] ∧ w.layer.releaseEvent = some w.now
  | .wait tick => w.frames = [] ∧ w.now ≤ tick ∧ ∀ t ∈ w.layer.releaseEvent, tick ≤ t
  | .drain => w.frames = []
  | .drainResume => w.frames = []

instance (m : Move Src) : Decidable (Enabled w m) := by
  cases m <;> unfold Enabled <;> infer_instance

/-- The rule that the protocol lacks: a packet is not rejected if the layer has refused another one
of its source meanwhile, so that a source waits for one retry at most. -/
def OnePacket : Move Src → Prop
  | .failedTiming _ => ∀ src, w.sender = some src → w.refused src = false
  | _ => True

instance (m : Move Src) : Decidable (OnePacket w m) := by
  cases m <;> unfold OnePacket <;> infer_instance

def sendRetry : Option Src × XBarLayer Src → LayerRun Src
  | (none, layer) => { w with layer }
  | (some src, layer) =>
    { w with
      layer
      frames := .retrying :: w.frames
      refused := Function.update w.refused src false
      told := w.told ++ [.retried src] }

end

/-- `none` is a failed assertion. -/
def apply (clock : XBarClock) (w : LayerRun Src) : Move Src → Option (LayerRun Src)
  | .tryTiming src => (w.layer.tryTiming src).map (fun (accepted, layer) =>
      if accepted then { w with layer, frames := .sending src :: w.frames }
      else
        { w with
          layer
          refused := Function.update w.refused src true
          told := w.told ++ [.refused src] })
  | .succeededTiming busyTime => (w.layer.succeededTiming w.now busyTime).map (fun layer =>
      { w with layer, frames := w.frames.tail })
  | .failedTiming busyTime =>
    match w.sender with
    | some src => (w.layer.failedTiming w.now src busyTime).map (fun layer =>
        { w with
          layer
          frames := w.frames.tail
          refused := Function.update w.refused src true
          owed := w.owed + 1
          told := w.told ++ [.rejected src] })
    | none => none
  | .recvRetry => w.layer.recvRetry.map (sendRetry { w with owed := w.owed - 1 })
  | .retryReturns => (w.layer.retryReturned w.now (clock.clockEdge w.now)).map (fun layer =>
      { w with layer, frames := w.frames.tail })
  | .release =>
    ({ w.layer with releaseEvent := none } : XBarLayer Src).releaseLayer.map (sendRetry w)
  | .wait tick => some { w with now := tick }
  | .drain => some { w with layer := w.layer.drain }
  | .drainResume => some { w with layer := w.layer.drainResume }

def initial : LayerRun Src where
  layer := XBarLayer.initial
  now := 0
  frames := []
  refused := fun _ => false
  owed := 0
  told := []

def machine (clock : XBarClock) : Machine (LayerRun Src) (Move Src) where
  init w := w = initial
  step w m w' := Enabled w m ∧ apply clock w m = some w'

/-! What the layer is doing, and who waits. -/

inductive Phase (now : Nat) : XBarLayer Src → List (Frame Src) → Prop
  | idle {peer : Option Src} {waiting : List Src} {drainState : DrainState}
      (waits : waiting ≠ [] → peer.isSome) (late : peer.isSome → 0 < now) :
      Phase now ⟨.idle, waiting, peer, none, drainState⟩ []
  | occupied {peer : Option Src} {waiting : List Src} {drainState : DrainState} {t : Nat}
      {frames : List (Frame Src)} (pos : 0 < t) (le : now ≤ t)
      (inner : frames = [] ∨ frames = [.retrying]) :
      Phase now ⟨.busy, waiting, peer, some t, drainState⟩ frames
  | sending {waiting : List Src} {drainState : DrainState} {src : Src} {rest : List (Frame Src)}
      (inner : rest = [] ∨ rest = [.retrying]) :
      Phase now ⟨.busy, waiting, none, none, drainState⟩ (.sending src :: rest)
  | retrying {waiting : List Src} {drainState : DrainState} (late : 0 < now) :
      Phase now ⟨.retry, waiting, none, none, drainState⟩ [.retrying]

/-- Those that are recorded, the next one first. -/
def recorded (l : XBarLayer Src) : List Src := l.waitingForPeer.toList ++ l.waitingForLayer

/-- The turns are those of the layer. -/
structure InTurn (l : XBarLayer Src) (t : Turns Src) : Prop where
  all : t.all = recorded l
  peer : ∀ src, l.waitingForPeer = some src → t.rejected = some src
  free : l.releaseEvent = none → l.waitingForPeer = none → t.rejected = none

structure Accounted (w : LayerRun Src) : Prop where
  phase : Phase w.now w.layer w.frames
  once : ∀ src, (recorded w.layer).count src = if w.refused src then 1 else 0
  owed : w.owed = w.layer.waitingForPeer.toList.length
  turns : ∃ t, w.told.foldlM Turns.tell {} = some t ∧ InTurn w.layer t

theorem Accounted.not_mem {w : LayerRun Src} (h : Accounted w) {src : Src}
    (hsrc : w.refused src = false) : src ∉ recorded w.layer := by
  have hcount := h.once src
  rw [hsrc] at hcount
  exact count_eq_zero.mp hcount

theorem count_update {refused : Src → Bool} {l l' : List Src} {src : Src}
    (hsrc : refused src = false) (honce : ∀ s, l.count s = if refused s then 1 else 0)
    (hl : ∀ s, l'.count s = l.count s + if s = src then 1 else 0) (s : Src) :
    l'.count s = if update refused src true s then 1 else 0 := by
  rw [hl s, honce s]
  obtain rfl | hs := eq_or_ne s src
  · simp [hsrc]
  · simp [hs]

theorem foldlM_told {told : List (Note Src)} {t t' : Turns Src} {note : Note Src}
    (h : told.foldlM Turns.tell {} = some t) (hnote : t.tell note = some t') :
    (told ++ [note]).foldlM Turns.tell {} = some t' := by
  simp [foldlM_append, h, hnote]

variable {clock : XBarClock} {w : LayerRun Src}

theorem Accounted.refuse (h : Accounted w) {src : Src} (hsrc : w.refused src = false)
    (hphase : Phase w.now
      { w.layer with waitingForLayer := w.layer.waitingForLayer ++ [src] } w.frames) :
    Accounted
      { w with
        layer := { w.layer with waitingForLayer := w.layer.waitingForLayer ++ [src] }
        refused := update w.refused src true
        told := w.told ++ [.refused src] } where
  phase := hphase
  once := count_update hsrc h.once (fun s => by
    simp only [recorded, count_append, count_singleton, beq_iff_eq]
    simp only [eq_comm (a := src)]
    omega)
  owed := h.owed
  turns := by
    obtain ⟨t, ht, hturn⟩ := h.turns
    refine ⟨{ t with refused := t.refused ++ [src] }, foldlM_told ht rfl, ?_, hturn.peer,
      hturn.free⟩
    have hall := hturn.all
    simp only [Turns.all, recorded] at hall ⊢
    rw [← append_assoc, ← append_assoc, hall]

theorem Accounted.tryTiming (h : Accounted w) {src : Src} (hen : Enabled w (.tryTiming src)) :
    ∃ w', apply clock w (.tryTiming src) = some w' ∧ Accounted w' := by
  have hen : w.refused src = false := hen
  have hnot := h.not_mem hen
  have hnot : src ∉ w.layer.waitingForLayer := fun hin => hnot (mem_append_right _ hin)
  by_cases hbusy : w.layer.state = .busy ∨ w.layer.waitingForPeer ≠ none
  · refine ⟨_, by simp [apply, XBarLayer.tryTiming, hbusy, hnot], h.refuse hen ?_⟩
    have hphase := h.phase
    generalize w.layer = l at *
    generalize w.frames = frames at *
    cases hphase with
    | idle waits late =>
      have hpeer : _ ≠ none := hbusy.resolve_left (by simp)
      exact .idle (fun _ => isSome_iff_ne_none.mpr hpeer) late
    | occupied pos le inner => exact .occupied pos le inner
    | sending inner => exact .sending inner
    | retrying late => simp at hbusy
  · refine ⟨{ w with layer := { w.layer with state := .busy }, frames := .sending src :: w.frames },
      by simp [apply, XBarLayer.tryTiming, hbusy], ?_, h.once, h.owed, ?_⟩
    swap
    · obtain ⟨t, ht, hturn⟩ := h.turns
      exact ⟨t, ht, hturn.all, hturn.peer, hturn.free⟩
    have hphase := h.phase
    have hidle := not_or.mp hbusy
    dsimp only
    generalize w.layer = l at *
    generalize w.frames = frames at *
    cases hphase with
    | idle waits late =>
      have hpeer := not_not.mp hidle.2
      subst hpeer
      exact .sending (.inl rfl)
    | occupied pos le inner => exact absurd rfl hidle.1
    | sending inner => exact absurd rfl hidle.1
    | retrying late => exact .sending (.inr rfl)

omit [DecidableEq Src] in
theorem sender_eq (h : w.sender = some src) : ∃ rest, w.frames = .sending src :: rest := by
  unfold sender at h
  split at h
  · rename_i rest hframes
    cases h
    exact ⟨rest, hframes⟩
  · cases h

theorem Accounted.succeededTiming (h : Accounted w) (hen : Enabled w (.succeededTiming busyTime)) :
    ∃ w', apply clock w (.succeededTiming busyTime) = some w' ∧ Accounted w' := by
  obtain ⟨hsender, hle, hpos⟩ := hen
  obtain ⟨src, hsender⟩ := isSome_iff_exists.mp hsender
  obtain ⟨rest, hframes⟩ := sender_eq hsender
  obtain ⟨layer, now, frames, refused, owed, told⟩ := w
  obtain ⟨hphase, honce, howed, t, ht, hturn⟩ := h
  dsimp only at *
  subst hframes
  cases hphase with
  | occupied pos le inner => simp at inner
  | @sending waiting drainState _ _ inner =>
    refine ⟨_, by
      simp [apply, succeededTiming, occupyLayer, hle, hpos]; rfl, ?_⟩
    refine ⟨.occupied (Nat.pos_of_ne_zero hpos) hle inner, honce, howed, t, ht, ?_⟩
    exact ⟨hturn.all, hturn.peer, fun _ => hturn.free rfl⟩

/-- A source that the peer refuses waits for the peer. -/
theorem Accounted.failedTiming (h : Accounted w) {busyTime : Nat}
    (hen : Enabled w (.failedTiming busyTime)) (hone : OnePacket w (.failedTiming busyTime)) :
    ∃ w', apply clock w (.failedTiming busyTime) = some w' ∧ Accounted w' := by
  obtain ⟨hsender, hle, hpos⟩ := hen
  obtain ⟨src, hsender⟩ := isSome_iff_exists.mp hsender
  obtain ⟨rest, hframes⟩ := sender_eq hsender
  have hsrc := hone src hsender
  obtain ⟨layer, now, frames, refused, owed, told⟩ := w
  obtain ⟨hphase, honce, howed, t, ht, hturn⟩ := h
  dsimp only at *
  subst hframes
  cases hphase with
  | occupied pos le inner => simp at inner
  | @sending waiting drainState _ _ inner =>
    have hfree : t.rejected = none := hturn.free rfl rfl
    refine ⟨_, by
      simp [apply, hsender, failedTiming, occupyLayer, hle, hpos]; rfl, ?_⟩
    refine ⟨.occupied (Nat.pos_of_ne_zero hpos) hle inner, ?_, ?_, { t with rejected := some src },
      foldlM_told ht (by simp [Turns.tell, hfree]), ?_⟩
    · refine count_update hsrc honce (fun s => ?_)
      simp only [recorded, toList_some, toList_none, singleton_append,
        nil_append, count_cons, beq_iff_eq]
      simp only [eq_comm (a := src)]
    · simpa using howed
    · refine ⟨?_, fun s hs => hs, nofun⟩
      have hall := hturn.all
      simp only [Turns.all, recorded, hfree, toList_none, nil_append] at hall
      simp [Turns.all, recorded, hall]

theorem accounted_sendRetry {src : Src} {rest : List Src} {drainState : DrainState} {t : Turns Src}
    (hframes : w.frames = []) (hlate : 0 < w.now) (howed : w.owed = 0)
    (honce : ∀ s, (src :: rest).count s = if w.refused s then 1 else 0)
    (ht : w.told.foldlM Turns.tell {} = some t) (hall : t.all = src :: rest) :
    Accounted (sendRetry w (some src, ⟨.retry, rest, none, none, drainState⟩)) := by
  obtain ⟨t', ht', hrejected, hrefused⟩ := Turns.tell_retried hall
  refine ⟨?_, fun s => ?_, howed, t', foldlM_told ht ht', ?_, nofun,
    fun _ _ => hrejected⟩
  · simp only [sendRetry, hframes]
    exact .retrying hlate
  · have hs := honce s
    rw [count_cons] at hs
    obtain rfl | hsrc := eq_or_ne s src
    · simp [sendRetry, recorded] at hs ⊢
      split at hs <;> omega
    · have hne : src ≠ s := Ne.symm hsrc
      simpa [sendRetry, recorded, hsrc, hne] using hs
  · simp [Turns.all, recorded, sendRetry, hrejected, hrefused]

section

variable (h : Accounted w)
include h

/-- The peer sends its retry: the source of the rejected packet is the first one. -/
theorem Accounted.recvRetry (hen : Enabled w .recvRetry) :
    ∃ w', apply clock w .recvRetry = some w' ∧ Accounted w' := by
  obtain ⟨⟨state, waiting, peer, releaseEvent, drainState⟩, now, frames, refused, owed, told⟩ := w
  obtain ⟨hphase, honce, howed, t, ht, hturn⟩ := h
  have hen : 0 < owed := hen
  cases peer with
  | none => exact absurd howed (by simpa using hen.ne')
  | some src =>
    have hall := hturn.all
    have howed : owed = 1 := howed
    subst howed
    cases hphase with
    | idle waits late =>
      refine ⟨_, by simp [apply, recvRetry, retryWaiting]; rfl, ?_⟩
      exact accounted_sendRetry rfl (late rfl) rfl honce ht hall
    | occupied pos le inner =>
      refine ⟨_, by simp [apply, recvRetry]; rfl, ?_⟩
      refine ⟨.occupied pos le inner, honce, rfl, t, ht, hall, nofun,
        fun hno => ?_⟩
      cases hno

theorem Accounted.retryReturns (hen : Enabled w .retryReturns) :
    ∃ w', apply clock w .retryReturns = some w' ∧ Accounted w' := by
  obtain ⟨rest, hframes⟩ := head?_eq_some_iff.mp hen
  obtain ⟨layer, now, frames, refused, owed, told⟩ := w
  obtain ⟨hphase, honce, howed, t, ht, hturn⟩ := h
  dsimp only at *
  subst hframes
  cases hphase with
  | occupied pos le inner =>
    obtain rfl : rest = [] := by simpa using inner
    refine ⟨_, by simp [apply, retryReturned]; rfl, ?_⟩
    exact ⟨.occupied pos le (.inl rfl), honce, howed, t, ht, hturn⟩
  | retrying late =>
    have hpos : 0 < clock.clockEdge now := late.trans_le (clock.le_clockEdge now)
    refine ⟨_, by
      simp [apply, retryReturned, occupyLayer, clock.le_clockEdge, hpos.ne']
      rfl, ?_⟩
    exact ⟨.occupied hpos (clock.le_clockEdge now) (.inl rfl), honce, howed, t, ht, hturn.all,
      hturn.peer, fun _ => hturn.free rfl⟩

/-- The layer is released, and the next source is told to retry unless the peer owes a retry. -/
theorem Accounted.release (hen : Enabled w .release) :
    ∃ w', apply clock w .release = some w' ∧ Accounted w' := by
  obtain ⟨hframes, hnow⟩ := hen
  obtain ⟨layer, now, frames, refused, owed, told⟩ := w
  obtain ⟨hphase, honce, howed, t, ht, hturn⟩ := h
  dsimp only at *
  subst hframes
  cases hphase with
  | idle waits late => cases hnow
  | @occupied peer waiting drainState tick _ pos le inner =>
    obtain rfl : tick = now := some.inj hnow
    have hall := hturn.all
    cases peer with
    | some src =>
      -- the peer owes a retry
      refine ⟨{ layer := ⟨.idle, waiting, some src, none, drainState⟩
                now := tick, frames := [], refused, owed, told }, ?_, ?_⟩
      · cases waiting <;> simp [apply, releaseLayer, sendRetry]
      · exact ⟨.idle (fun _ => rfl) (fun _ => pos), honce, howed, t, ht, hall, hturn.peer,
          nofun⟩
    | none =>
      cases waiting with
      | cons src rest =>
        refine ⟨_, by simp [apply, releaseLayer, retryWaiting]; rfl, ?_⟩
        exact accounted_sendRetry rfl pos howed honce ht hall
      | nil =>
        have hrejected : t.rejected = none := by
          cases hr : t.rejected with
          | none => rfl
          | some s => simp [Turns.all, recorded, hr] at hall
        refine ⟨{ layer := ⟨.idle, [], none, none,
                    if drainState = .draining then .drained else drainState⟩
                  now := tick, frames := [], refused, owed, told }, ?_, ?_⟩
        · by_cases hdrain : drainState = .draining <;>
            simp [apply, releaseLayer, sendRetry, hdrain]
        · exact ⟨.idle (fun hno => absurd rfl hno) nofun, honce, howed, t, ht,
            hall, hturn.peer, fun _ _ => hrejected⟩

theorem Accounted.wait {tick : Nat} (hen : Enabled w (.wait tick)) :
    Accounted { w with now := tick } := by
  obtain ⟨hframes, hle, hlate⟩ := hen
  obtain ⟨layer, now, frames, refused, owed, told⟩ := w
  obtain ⟨hphase, honce, howed, hturns⟩ := h
  dsimp only at *
  subst hframes
  refine ⟨?_, honce, howed, hturns⟩
  cases hphase with
  | idle waits late => exact .idle waits (fun hpeer => (late hpeer).trans_le hle)
  | occupied pos le inner => exact .occupied pos (hlate _ rfl) inner

theorem Accounted.drained (drainState : DrainState) :
    Accounted { w with layer := { w.layer with drainState } } := by
  obtain ⟨layer, now, frames, refused, owed, told⟩ := w
  obtain ⟨hphase, honce, howed, t, ht, hturn⟩ := h
  refine ⟨?_, honce, howed, t, ht, hturn.all, hturn.peer, hturn.free⟩
  dsimp only at *
  cases hphase with
  | idle waits late => exact .idle waits late
  | occupied pos le inner => exact .occupied pos le inner
  | sending inner => exact .sending inner
  | retrying late => exact .retrying late

/-- What the protocol and the rule allow passes the assertions, and all sources that wait are
accounted for afterwards. -/
theorem Accounted.step (hen : Enabled w m) (hone : OnePacket w m) :
    ∃ w', apply clock w m = some w' ∧ Accounted w' := by
  cases m with
  | tryTiming src => exact h.tryTiming hen
  | succeededTiming busyTime => exact h.succeededTiming hen
  | failedTiming busyTime => exact h.failedTiming hen hone
  | recvRetry => exact h.recvRetry hen
  | retryReturns => exact h.retryReturns hen
  | release => exact h.release hen
  | wait tick => exact ⟨_, rfl, h.wait hen⟩
  | drain => exact ⟨_, rfl, h.drained _⟩
  | drainResume => exact ⟨_, rfl, h.drained _⟩

end

theorem accounted_initial : Accounted (initial : LayerRun Src) where
  phase := .idle (fun hno => absurd rfl hno) nofun
  once := fun _ => rfl
  owed := rfl
  turns := ⟨{}, rfl, rfl, nofun, fun _ _ => rfl⟩

/-- Where no source waits for two retries: between the events every source that was refused is
recorded once, the layer is busy while its release is scheduled, and those that wait have an
event or the peer to wait for. At all times the sources are told to retry in turn, and no
assertion fails. -/
theorem layer_loses_no_retry (hw : ((machine clock).restrict OnePacket).Reachable w) :
    (w.frames = [] →
      (∀ src, (recorded w.layer).count src = if w.refused src then 1 else 0) ∧
      (w.layer.state = .busy ↔ w.layer.releaseEvent.isSome) ∧ w.layer.state ≠ .retry ∧
      (w.layer.waitingForLayer ≠ [] →
        w.layer.releaseEvent.isSome ∨ w.layer.waitingForPeer.isSome)) ∧
    (w.told.foldlM Turns.tell {}).isSome ∧
    ∀ m, Enabled w m → OnePacket w m → (apply clock w m).isSome := by
  have h : Accounted w := by
    refine hw.invariant (I := Accounted) (fun w h0 => ?_) (fun w m w' h hstep => ?_)
    · rw [show w = initial from h0]
      exact accounted_initial
    · obtain ⟨⟨hen, happly⟩, hone⟩ := hstep
      obtain ⟨v, hv, hacc⟩ := h.step hen hone
      rw [some.inj (happly.symm.trans hv)]
      exact hacc
  refine ⟨fun hframes => ⟨h.once, ?_⟩, ?_, fun m hen hone => ?_⟩
  · have hphase := h.phase
    rw [hframes] at hphase
    generalize w.layer = l at *
    cases hphase with
    | idle waits late => exact ⟨by simp, by simp, fun hne => .inr (waits hne)⟩
    | occupied pos le inner => simp
  · obtain ⟨t, ht, -⟩ := h.turns
    exact isSome_iff_exists.mpr ⟨t, ht⟩
  · obtain ⟨v, hv, -⟩ := h.step hen hone
    exact isSome_iff_exists.mpr ⟨v, hv⟩

def move (clock : XBarClock) (w : LayerRun Src) (m : Move Src) : Option (LayerRun Src) :=
  if Enabled w m then apply clock w m else none

theorem step_of_move (clock : XBarClock) (w : LayerRun Src) (m : Move Src) (w' : LayerRun Src)
    (h : move clock w m = some w') : (machine clock).step w m w' :=
  Option.ite_none_right_eq_some.mp h

def everyTick : XBarClock where
  clockEdge := id
  le_clockEdge := fun _ => Nat.le_refl _

/-- Two sources wait while the packet of a third one is rejected; it is told to retry first, and is
accepted while the retry is being sent. -/
theorem layer_loses_no_retry_rejected :
    ∃ w : LayerRun Nat, ((machine everyTick).restrict OnePacket).Reachable w ∧ w.frames = [] ∧
      w.layer.waitingForLayer = [1, 2] ∧ (∀ src, (recorded w.layer).count src =
        if w.refused src then 1 else 0) ∧ w.layer.releaseEvent = some 7 := by
  obtain ⟨w, hw, hframes, hwaiting, hrelease⟩ := Machine.exists_run
    (Machine.restrict_step (step_of_move everyTick) OnePacket)
    (.start (s := (initial : LayerRun Nat)) rfl)
    [.tryTiming 0, .tryTiming 1, .failedTiming 3, .tryTiming 2, .wait 3, .release, .wait 5,
      .recvRetry, .tryTiming 0, .succeededTiming 7, .retryReturns]
    (P := fun w => w.frames = [] ∧ w.layer.waitingForLayer = [1, 2] ∧
      w.layer.releaseEvent = some 7) (by decide)
  exact ⟨w, hw, hframes, hwaiting, ((layer_loses_no_retry hw).1 hframes).1, hrelease⟩

/-- A source sends again while its packet is on its way to the peer: the second one is refused, and
then the first one is rejected. -/
theorem source_recorded_twice : ∃ w : LayerRun Nat, (machine everyTick).Reachable w ∧
    w.frames = [] ∧ w.refused 0 = true ∧ (recorded w.layer).count 0 = 2 :=
  Machine.exists_run (step_of_move everyTick) (.start (s := (initial : LayerRun Nat)) rfl)
    [.tryTiming 0, .tryTiming 0, .failedTiming 3] (by decide)

end LayerRun

end Gem5.Mem
