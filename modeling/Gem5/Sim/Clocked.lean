import Gem5.Lib.Transition

namespace Gem5.Sim

open Lib List Nat

/-! Clocked objects: they advance their clocks only when they are asked, and the period of their
domains can change. -/

def divCeil (a b : Nat) : Nat := (a + b - 1) / b

structure ClockEdge where
  tick : Nat
  period : Nat

structure EdgeCall where
  now : Nat
  period : Nat
  cycles : Nat
  edge : Nat

/-- The tick of the next edge, and its cycle, as of the last update. In addition there are the edges
that time has passed and the calls, newest first. -/
structure Clocked where
  name : Nat
  tick : Nat := 0
  cycle : Nat := 0
  edges : List ClockEdge := []
  edgeCalls : List EdgeCall := []
  cycleCalls : List Nat := []

namespace Clocked

/-- Align to the next edge. -/
def update (now period : Nat) (c : Clocked) : Clocked :=
  if now ≤ c.tick then c
  else
    let c := { c with tick := c.tick + period, cycle := c.cycle + 1 }
    if now ≤ c.tick then c
    else
      let elapsedCycles := divCeil (now - c.tick) period
      { c with cycle := c.cycle + elapsedCycles, tick := c.tick + elapsedCycles * period }

def clockEdge (now period cycles : Nat) (c : Clocked) : Nat × Clocked :=
  let c := c.update now period
  (c.tick + period * cycles, c)

def curCycle (now period : Nat) (c : Clocked) : Nat × Clocked :=
  let c := c.update now period
  (c.cycle, c)

/-- The edge after those that have been passed. The first one is at tick 0. -/
def nextEdge : List ClockEdge → Nat
  | [] => 0
  | e :: _ => e.tick + e.period

/-- Time goes on: the next edge is passed if this is its tick. -/
def pass (now period : Nat) (c : Clocked) : Clocked :=
  if nextEdge c.edges = now then { c with edges := ⟨now, period⟩ :: c.edges } else c

def callClockEdge (now period cycles : Nat) (c : Clocked) : Clocked :=
  let (edge, c) := c.clockEdge now period cycles
  { c with edgeCalls := ⟨now, period, cycles, edge⟩ :: c.edgeCalls }

def callCurCycle (now period : Nat) (c : Clocked) : Clocked :=
  let (cycle, c) := c.curCycle now period
  { c with cycleCalls := cycle :: c.cycleCalls }

end Clocked

/-- A member of a domain, with the period of the domain and its ratio to that of the source. -/
structure ClockMember where
  ratio : Nat
  period : Nat
  clock : Clocked

/-- The derived domains of a domain: the first one with its own derived domains, and the rest. -/
inductive DerivedDomains
  | none
  | cons (clockDivider clockPeriod : Nat) (members : List Clocked) (children rest : DerivedDomains)

namespace DerivedDomains

def updateClockPeriod (now parentPeriod : Nat) : DerivedDomains → DerivedDomains
  | none => none
  | cons clockDivider clockPeriod members children rest =>
    cons clockDivider (parentPeriod * clockDivider) (members.map (Clocked.update now clockPeriod))
      (children.updateClockPeriod now (parentPeriod * clockDivider))
      (rest.updateClockPeriod now parentPeriod)

def map (f : Nat → Clocked → Clocked) : DerivedDomains → DerivedDomains
  | none => none
  | cons clockDivider clockPeriod members children rest =>
    cons clockDivider clockPeriod (members.map (f clockPeriod)) (children.map f) (rest.map f)

def members (ratio : Nat) : DerivedDomains → List ClockMember
  | none => []
  | cons clockDivider clockPeriod ms children rest =>
    ms.map (fun c => ⟨ratio * clockDivider, clockPeriod, c⟩) ++
      children.members (ratio * clockDivider) ++ rest.members ratio

end DerivedDomains

structure SrcClockDomain where
  period : Nat
  ownMembers : List Clocked
  children : DerivedDomains

namespace SrcClockDomain

/-- `none` is a fatal error. -/
def clockPeriod (now clockPeriod : Nat) (d : SrcClockDomain) : Option SrcClockDomain :=
  if clockPeriod = 0 then none
  else some {
    period := clockPeriod
    ownMembers := d.ownMembers.map (Clocked.update now d.period)
    children := d.children.updateClockPeriod now clockPeriod }

def map (f : Nat → Clocked → Clocked) (d : SrcClockDomain) : SrcClockDomain where
  period := d.period
  ownMembers := d.ownMembers.map (f d.period)
  children := d.children.map f

def members (d : SrcClockDomain) : List ClockMember :=
  d.ownMembers.map (fun c => ⟨1, d.period, c⟩) ++ d.children.members 1

end SrcClockDomain

open SrcClockDomain

structure ClockRun where
  now : Nat
  src : SrcClockDomain

namespace ClockRun

/-- Time goes on by a tick, an object is called, or the period is changed. -/
inductive Move
  | tick
  | clockEdge (name cycles : Nat)
  | curCycle (name : Nat)
  | clockPeriod (period : Nat)

def move (w : ClockRun) : Move → Option ClockRun
  | .tick => some { now := w.now + 1, src := w.src.map (Clocked.pass w.now) }
  | .clockEdge name cycles => some { w with
      src := w.src.map (fun period c =>
        if c.name = name then c.callClockEdge w.now period cycles else c) }
  | .curCycle name => some { w with
      src := w.src.map (fun period c => if c.name = name then c.callCurCycle w.now period else c) }
  | .clockPeriod period => (w.src.clockPeriod w.now period).map (fun src => { w with src })

/-- The domains as their constructors leave them: a divider is at least 1, and the period of a
derived domain is that of its parent times its divider. -/
def machine : Machine ClockRun Move where
  init w := w.now = 0 ∧ 0 < w.src.period ∧ ∀ x ∈ w.src.members,
    0 < x.ratio ∧ x.period = w.src.period * x.ratio ∧ x.clock = { name := x.clock.name }
  step w m w' := w.move m = some w'

/-- The next edge of every object is less than a new period away. -/
def Near (w : ClockRun) : Move → Prop
  | .clockPeriod period => ∀ x ∈ w.src.members,
      (x.clock.update w.now x.period).tick < w.now + period * x.ratio
  | _ => True

end ClockRun

/-! An object and its edges. -/

theorem divCeil_eq (hle : a ≤ n * b) (hlt : n * b < a + b) : divCeil a b = n := by
  apply Nat.div_eq_of_lt_le
  · omega
  · rw [succ_mul]
    omega

namespace Clocked

variable {now period : Nat} {c : Clocked}

/-- The clock is some edges behind, and these are a period apart. -/
def Tracks (now period : Nat) (c : Clocked) : Prop :=
  ∃ k, nextEdge c.edges = c.tick + k * period ∧ c.edges.length = c.cycle + k ∧
    now ≤ c.tick + k * period ∧ (k = 0 ∨ c.tick + k * period < now + period)

/-- The clock is at the next edge. -/
structure Aligned (now : Nat) (c : Clocked) : Prop where
  tick : c.tick = nextEdge c.edges
  cycle : c.cycle = c.edges.length
  le : now ≤ c.tick

theorem Aligned.tracks (h : Aligned now c) (period : Nat) : Tracks now period c :=
  ⟨0, by simp [h.tick], by simp [h.cycle], by simpa using h.le, .inl rfl⟩

@[simp] theorem update_edges : (c.update now period).edges = c.edges := by
  unfold update
  split
  · rfl
  · dsimp only
    split <;> rfl

@[simp] theorem update_edgeCalls : (c.update now period).edgeCalls = c.edgeCalls := by
  unfold update
  split
  · rfl
  · dsimp only
    split <;> rfl

@[simp] theorem update_cycleCalls : (c.update now period).cycleCalls = c.cycleCalls := by
  unfold update
  split
  · rfl
  · dsimp only
    split <;> rfl

@[simp] theorem callClockEdge_edges :
    (c.callClockEdge now period cycles).edges = c.edges := update_edges

@[simp] theorem callClockEdge_cycleCalls :
    (c.callClockEdge now period cycles).cycleCalls = c.cycleCalls := update_cycleCalls

@[simp] theorem callCurCycle_edges : (c.callCurCycle now period).edges = c.edges := update_edges

@[simp] theorem callCurCycle_edgeCalls :
    (c.callCurCycle now period).edgeCalls = c.edgeCalls := update_edgeCalls

/-- Updating brings the clock to the next edge, whatever the number of edges that it is behind. -/
theorem Tracks.update (h : Tracks now period c) : Aligned now (c.update now period) := by
  obtain ⟨k, hnext, hlen, hle, hlt⟩ := h
  unfold Clocked.update
  by_cases h0 : now ≤ c.tick
  · rw [if_pos h0]
    cases k with
    | zero => exact ⟨by omega, by omega, h0⟩
    | succ k =>
      rw [succ_mul] at hlt
      omega
  rw [if_neg h0]
  dsimp only
  cases k with
  | zero => omega
  | succ k =>
    rw [succ_mul] at hnext hle hlt
    by_cases h1 : now ≤ c.tick + period
    · rw [if_pos h1]
      cases k with
      | zero => exact ⟨by dsimp only; omega, by dsimp only; omega, h1⟩
      | succ k =>
        rw [succ_mul] at hlt
        omega
    · rw [if_neg h1, divCeil_eq (n := k) (by omega) (by omega)]
      constructor <;> dsimp only <;> omega

theorem Tracks.pass (h : Tracks now period c) (hperiod : 0 < period) :
    Tracks (now + 1) period (c.pass now period) := by
  obtain ⟨k, hnext, hlen, hle, hlt⟩ := h
  unfold Clocked.pass
  split_ifs with heq
  · refine ⟨k + 1, ?_, ?_, ?_, .inr ?_⟩ <;>
      simp only [nextEdge, length_cons, succ_mul] <;>
      omega
  · exact ⟨k, hnext, hlen, by omega, hlt.imp_right (fun hlt => by omega)⟩

/-- Each edge is where the one before it says. -/
def Consecutive : List ClockEdge → Prop
  | [] => True
  | e :: rest => e.tick = nextEdge rest ∧ 0 < e.period ∧ Consecutive rest

theorem Consecutive.lt_nextEdge (h : Consecutive l) (he : e ∈ l) : e.tick < nextEdge l := by
  induction l with
  | nil => cases he
  | cons e' rest ih =>
    obtain ⟨htick, hperiod, hrest⟩ := h
    change e.tick < e'.tick + e'.period
    rcases mem_cons.mp he with rfl | he
    · omega
    · have := ih hrest he
      omega

theorem Consecutive.pairwise (h : Consecutive l) :
    (nextEdge l :: l.map ClockEdge.tick).Pairwise (· > ·) := by
  induction l with
  | nil => exact pairwise_singleton _ _
  | cons e rest ih =>
    refine pairwise_cons.mpr ⟨fun t ht => ?_, ?_⟩
    · obtain ⟨e', he', rfl⟩ := mem_map.mp ht
      exact h.lt_nextEdge he'
    · rw [map_cons, h.1]
      exact ih h.2.2

theorem Consecutive.isChain (h : Consecutive l) :
    l.IsChain (fun later earlier => later.tick = earlier.tick + earlier.period) := by
  induction l with
  | nil => exact .nil
  | cons e rest ih =>
    cases rest with
    | nil => exact .singleton e
    | cons e' rest => exact .cons_cons h.1 (ih h.2.2)

theorem Consecutive.pass (h : Consecutive c.edges) (hperiod : 0 < period) :
    Consecutive (c.pass now period).edges := by
  unfold Clocked.pass
  split_ifs with heq
  · exact ⟨heq.symm, hperiod, h⟩
  · exact h

/-- What has been said about the cycle does not decrease. -/
structure CyclesKept (c : Clocked) : Prop where
  le : ∀ n ∈ c.cycleCalls, n ≤ c.edges.length
  sorted : c.cycleCalls.Pairwise (fun later earlier => earlier ≤ later)

theorem CyclesKept.pass (h : CyclesKept c) : CyclesKept (c.pass now period) := by
  unfold Clocked.pass
  split
  · exact ⟨fun n hn => le_succ_of_le (h.le n hn), h.sorted⟩
  · exact h

theorem CyclesKept.update (h : CyclesKept c) : CyclesKept (c.update now period) :=
  ⟨by simpa using h.le, by simpa using h.sorted⟩

theorem CyclesKept.callCurCycle (h : CyclesKept c) (htracks : Tracks now period c) :
    CyclesKept (c.callCurCycle now period) := by
  have hcycle : (c.update now period).cycle = c.edges.length := by
    rw [htracks.update.cycle, update_edges]
  have hcalls : (c.callCurCycle now period).cycleCalls = c.edges.length :: c.cycleCalls := by
    simp [Clocked.callCurCycle, curCycle, hcycle]
  constructor
  · intro n hn
    rw [callCurCycle_edges]
    rw [hcalls] at hn
    rcases mem_cons.mp hn with rfl | hn
    · exact le_rfl
    · exact h.le n hn
  · rw [hcalls]
    exact pairwise_cons.mpr ⟨h.le, h.sorted⟩

end Clocked

/-! The domains. -/

namespace DerivedDomains

theorem members_map (f : Nat → Clocked → Clocked) (d : DerivedDomains) (ratio : Nat) :
    (d.map f).members ratio =
      (d.members ratio).map (fun x => { x with clock := f x.period x.clock }) := by
  induction d generalizing ratio with
  | none => rfl
  | cons clockDivider clockPeriod ms children rest ihChildren ihRest =>
    simp [map, members, ihChildren, ihRest]

theorem members_updateClockPeriod (now q : Nat) (d : DerivedDomains) (ratio : Nat) :
    (d.updateClockPeriod now (q * ratio)).members ratio = (d.members ratio).map (fun x =>
        { x with period := q * x.ratio, clock := x.clock.update now x.period }) := by
  induction d generalizing ratio with
  | none => rfl
  | cons clockDivider clockPeriod ms children rest ihChildren ihRest =>
    simp [updateClockPeriod, members, ihRest, mul_assoc, ihChildren (ratio * clockDivider)]

end DerivedDomains

namespace SrcClockDomain

theorem members_map (f : Nat → Clocked → Clocked) (d : SrcClockDomain) :
    (d.map f).members = d.members.map (fun x => { x with clock := f x.period x.clock }) := by
  simp [map, members, DerivedDomains.members_map]

theorem members_clockPeriod {now q : Nat} {d d' : SrcClockDomain}
    (h : d.clockPeriod now q = some d') :
    0 < q ∧ d'.members = d.members.map (fun x =>
      { x with period := q * x.ratio, clock := x.clock.update now x.period }) := by
  unfold clockPeriod at h
  split_ifs at h with hq
  obtain rfl := Option.some.inj h
  have hchildren := DerivedDomains.members_updateClockPeriod now q d.children 1
  rw [mul_one] at hchildren
  exact ⟨pos_of_ne_zero hq, by simp [members, hchildren]⟩

end SrcClockDomain

namespace ClockRun

open Clocked

variable {w w' : ClockRun}

def moved (w : ClockRun) (m : Move) (x : ClockMember) : ClockMember :=
  match m with
  | .tick => { x with clock := x.clock.pass w.now x.period }
  | .clockEdge name cycles => { x with
      clock := if x.clock.name = name then x.clock.callClockEdge w.now x.period cycles
        else x.clock }
  | .curCycle name => { x with
      clock := if x.clock.name = name then x.clock.callCurCycle w.now x.period else x.clock }
  | .clockPeriod period => { x with
      period := period * x.ratio
      clock := x.clock.update w.now x.period }

def nowAfter (w : ClockRun) : Move → Nat
  | .tick => w.now + 1
  | _ => w.now

theorem step_members {m : Move} (h : machine.step w m w') :
    w'.now = w.nowAfter m ∧ w'.src.members = w.src.members.map (w.moved m) ∧
      ∀ p, m = .clockPeriod p → 0 < p := by
  cases m with
  | tick =>
    obtain rfl := Option.some.inj h
    exact ⟨rfl, members_map _ _, nofun⟩
  | clockEdge name cycles =>
    obtain rfl := Option.some.inj h
    exact ⟨rfl, members_map _ _, nofun⟩
  | curCycle name =>
    obtain rfl := Option.some.inj h
    exact ⟨rfl, members_map _ _, nofun⟩
  | clockPeriod period =>
    obtain ⟨src, hsrc, rfl⟩ := Option.map_eq_some_iff.mp h
    obtain ⟨hpos, hmembers⟩ := members_clockPeriod hsrc
    exact ⟨rfl, hmembers, fun p hp => (by cases hp; exact hpos)⟩

structure Kept (now : Nat) (x : ClockMember) : Prop where
  ratio : 0 < x.ratio
  period : 0 < x.period
  tracks : Tracks now x.period x.clock
  consecutive : Consecutive x.clock.edges
  cycles : CyclesKept x.clock

theorem Kept.moved (h : Kept w.now x) (m : Move)
    (hm : ∀ p, m = .clockPeriod p → 0 < p) : Kept (w.nowAfter m) (w.moved m x) := by
  cases m with
  | tick =>
    exact ⟨h.ratio, h.period, h.tracks.pass h.period, h.consecutive.pass h.period, h.cycles.pass⟩
  | clockEdge name cycles =>
    refine ⟨h.ratio, h.period, ?_, ?_, ?_⟩ <;> dsimp only [ClockRun.moved] <;> split
    · have haligned := h.tracks.update
      exact Aligned.tracks { haligned with } _
    · exact h.tracks
    · rw [callClockEdge_edges]
      exact h.consecutive
    · exact h.consecutive
    · exact ⟨by simpa using h.cycles.le, by simpa using h.cycles.sorted⟩
    · exact h.cycles
  | curCycle name =>
    refine ⟨h.ratio, h.period, ?_, ?_, ?_⟩ <;> dsimp only [ClockRun.moved] <;> split
    · have haligned := h.tracks.update
      exact Aligned.tracks { haligned with } _
    · exact h.tracks
    · rw [callCurCycle_edges]
      exact h.consecutive
    · exact h.consecutive
    · exact h.cycles.callCurCycle h.tracks
    · exact h.cycles
  | clockPeriod period =>
    exact ⟨h.ratio, mul_pos (hm period rfl) h.ratio, h.tracks.update.tracks _,
      by simpa [ClockRun.moved] using h.consecutive, h.cycles.update⟩

theorem kept_of_reachable (h : machine.Reachable w) : ∀ x ∈ w.src.members, Kept w.now x := by
  refine h.invariant (I := fun w => ∀ x ∈ w.src.members, Kept w.now x)
    (fun w hw x hx => ?_) (fun w m w' hw hstep x' hx' => ?_)
  · obtain ⟨hnow, hsrc, hinit⟩ := hw
    obtain ⟨hratio, hperiod, hclock⟩ := hinit x hx
    refine ⟨hratio, hperiod ▸ mul_pos hsrc hratio, ?_, ?_, ?_⟩
    · rw [hclock, hnow]
      exact ⟨0, by simp [nextEdge], rfl, zero_le _, .inl rfl⟩
    · rw [hclock]
      trivial
    · rw [hclock]
      exact ⟨nofun, .nil⟩
  · obtain ⟨hnow, hmembers, hm⟩ := step_members hstep
    rw [hmembers] at hx'
    obtain ⟨x, hx, rfl⟩ := mem_map.mp hx'
    rw [hnow]
    exact (hw x hx).moved m hm

/-- A call gave an edge as it is documented. -/
def EdgeCall.Documented (call : EdgeCall) : Prop :=
  call.now + call.period * call.cycles ≤ call.edge ∧
    call.edge < call.now + call.period + call.period * call.cycles

/-- The next edge is less than a period away, and was at every call. -/
structure Within (now : Nat) (x : ClockMember) : Prop where
  near : nextEdge x.clock.edges < now + x.period
  calls : ∀ call ∈ x.clock.edgeCalls, EdgeCall.Documented call

theorem Within.moved (h : Within w.now x) (hkept : Kept w.now x) (hx : x ∈ w.src.members)
    (hnear : Near w m) : Within (w.nowAfter m) (w.moved m x) := by
  have haligned := hkept.tracks.update
  cases m with
  | tick =>
    have hle : w.now ≤ nextEdge x.clock.edges := by
      rw [← update_edges, ← haligned.tick]
      exact haligned.le
    have hperiod := hkept.period
    have hlt := h.near
    dsimp only [ClockRun.moved, nowAfter, Clocked.pass]
    split
    · exact ⟨by simp only [nextEdge]; omega, h.calls⟩
    · exact ⟨by dsimp only; omega, h.calls⟩
  | clockEdge name cycles =>
    dsimp only [ClockRun.moved]
    split
    · refine ⟨?_, fun call hcall => ?_⟩
      · simpa [nowAfter] using h.near
      have htick := haligned.tick
      rw [update_edges] at htick
      simp only [callClockEdge, clockEdge, update_edgeCalls, mem_cons] at hcall
      rcases hcall with rfl | hcall
      · have hlt := h.near
        have hle := haligned.le
        constructor <;> dsimp only <;> omega
      · exact h.calls call hcall
    · exact h
  | curCycle name =>
    dsimp only [ClockRun.moved]
    split
    · exact ⟨by simpa [nowAfter] using h.near, by simpa using h.calls⟩
    · exact h
  | clockPeriod period =>
    have hlt := hnear x hx
    rw [haligned.tick, update_edges] at hlt
    exact ⟨by simpa [ClockRun.moved, nowAfter] using hlt, by simpa [ClockRun.moved] using h.calls⟩

theorem within_of_reachable (h : (machine.restrict Near).Reachable w) :
    ∀ x ∈ w.src.members, Within w.now x := by
  suffices hinv : machine.Reachable w ∧ ∀ x ∈ w.src.members, Within w.now x from hinv.2
  refine Machine.Reachable.invariant (M := machine.restrict Near)
    (I := fun w => machine.Reachable w ∧ ∀ x ∈ w.src.members, Within w.now x)
    (fun w hw => ⟨.start hw, fun x hx => ?_⟩) (fun w m w' hw hstep => ⟨hw.1.next hstep.1, ?_⟩) h
  · obtain ⟨hnow, hsrc, hinit⟩ := hw
    obtain ⟨hratio, hperiod, hclock⟩ := hinit x hx
    have hpos : 0 < x.period := hperiod ▸ mul_pos hsrc hratio
    constructor
    · rw [hclock]
      exact Nat.lt_add_left _ hpos
    · rw [hclock]
      exact nofun
  · intro x' hx'
    obtain ⟨hnow, hmembers, -⟩ := step_members hstep.1
    rw [hmembers] at hx'
    obtain ⟨x, hx, rfl⟩ := mem_map.mp hx'
    rw [hnow]
    exact (hw.2 x hx).moved (kept_of_reachable hw.1 x hx) hx hstep.2

/-- The edges are a period apart, an update finds the next one with its number, and cycles do not
decrease; the edges are where they are documented to be if all changes of the period are near. -/
theorem clock_edges_kept (h : machine.Reachable w) {x : ClockMember} (hx : x ∈ w.src.members) :
    (nextEdge x.clock.edges :: x.clock.edges.map ClockEdge.tick).Pairwise (· > ·) ∧
    x.clock.edges.IsChain (fun later earlier => later.tick = earlier.tick + earlier.period) ∧
    Aligned w.now (x.clock.update w.now x.period) ∧
    x.clock.cycleCalls.Pairwise (fun later earlier => earlier ≤ later) ∧
    ((machine.restrict Near).Reachable w → ∀ call ∈ x.clock.edgeCalls,
      EdgeCall.Documented call) := by
  have hkept := kept_of_reachable h x hx
  exact ⟨hkept.consecutive.pairwise, hkept.consecutive.isChain, hkept.tracks.update,
    hkept.cycles.sorted, fun hnear => (within_of_reachable hnear x hx).calls⟩

instance (w : ClockRun) (m : Move) : Decidable (Near w m) := by
  cases m <;> unfold Near <;> infer_instance

/-- An object in a source domain, and one in a domain of half the frequency. -/
def twoDomains : ClockRun where
  now := 0
  src := ⟨10, [{ name := 0 }], .cons 2 20 [{ name := 1 }] .none .none⟩

theorem twoDomains_init : machine.init twoDomains := by
  refine ⟨rfl, by decide, fun x hx => ?_⟩
  rcases mem_cons.mp hx with rfl | hx
  · exact ⟨by decide, by decide, rfl⟩
  · obtain rfl := mem_singleton.mp hx
    exact ⟨by decide, by decide, rfl⟩

/-- The period grows from 10 to 15 before the edge at 10. -/
theorem clock_edges_kept_slower : ∃ w x, (machine.restrict Near).Reachable w ∧
    x ∈ w.src.members ∧ x.clock.edgeCalls.length = 1 ∧
    ∀ call ∈ x.clock.edgeCalls, EdgeCall.Documented call := by
  obtain ⟨w, hw, hP⟩ := Machine.exists_run
    (Machine.restrict_step (M := machine) (f := move) (fun _ _ _ h => h) Near)
    (.start twoDomains_init) [.tick, .curCycle 1, .clockPeriod 15, .tick, .clockEdge 0 3]
    (P := fun w => w.src.members.any (fun x => x.clock.edgeCalls.length = 1)) (by decide)
  obtain ⟨x, hx, hcalls⟩ := any_eq_true.mp hP
  exact ⟨w, x, hw, hx, of_decide_eq_true hcalls, (clock_edges_kept hw.of_restrict hx).2.2.2.2 hw⟩

/-- The period becomes 2 at tick 1, but the next edge is still at 10. -/
theorem clockEdge_after_faster : ∃ w x call, machine.Reachable w ∧ x ∈ w.src.members ∧
    call ∈ x.clock.edgeCalls ∧ call.cycles = 0 ∧ call.now + call.period ≤ call.edge := by
  obtain ⟨w, hw, hP⟩ := Machine.exists_run (M := machine) (f := move) (fun _ _ _ h => h)
    (.start twoDomains_init) [.tick, .clockPeriod 2, .clockEdge 0 0]
    (P := fun w => w.src.members.any (fun x => x.clock.edgeCalls.any (fun call =>
      call.cycles = 0 ∧ call.now + call.period ≤ call.edge))) (by decide)
  obtain ⟨x, hx, hcalls⟩ := any_eq_true.mp hP
  obtain ⟨call, hcall, hedge⟩ := any_eq_true.mp hcalls
  exact ⟨w, x, call, hw, hx, hcall, of_decide_eq_true hedge⟩

end ClockRun

end Gem5.Sim
