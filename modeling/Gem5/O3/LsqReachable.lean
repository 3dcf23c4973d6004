import Gem5.O3.LsqRetry

namespace Gem5.O3.LsqUnit

open Lib

variable {cfg : LsqConfig} {w w' : Watched}

structure Sound (cfg : LsqConfig) (w : Watched) : Prop where
  inv : ∃ f part, Inv cfg w.unit w.toHistory f part
  violator : ViolatorLive w.unit w.lastSeqNum

/-- The faults that a call may end in: a full queue, a load or store that no instruction set of
the unit has, a squash of the store that has stalled a load, and a stalled load that has left the
queue. -/
def Allowed : LsqFault → Prop
  | .loadQueueFull | .storeQueueFull | .noStallingLoad | .iprData | .storeTooLarge | .stalledStore
  | .splitConditional | .iprConditional => True
  | _ => False

/-- Whether an instruction is a data prefetch does not change. -/
structure PrefetchKept (w w' : Watched) : Prop where
  prefetch : ∀ s, s ≤ w.lastSeqNum →
    (w'.unit.insts s).isDataPrefetch = (w.unit.insts s).isDataPrefetch

theorem initial_sound (cfg : LsqConfig) : Sound cfg initial := by
  refine ⟨⟨⟨0, 0, 0, 0, 0, fun _ => 0, fun _ => 0⟩, [], ?_⟩, nofun⟩
  have hno : ∀ {P : Prop} {p : Nat}, p < 0 → P := fun hp => absurd hp (Nat.not_lt_zero _)
  have hlq := lqEntries_pos cfg
  have hsq := sqEntries_pos cfg
  refine ⟨⟨⟨?_, ?_, ?_, ?_, ?_, ?_⟩, ?_, fun hlt => hno hlt⟩,
    ⟨fun _ _ hq => hno hq, fun _ _ hq => hno hq⟩⟩
  · refine ⟨(Nat.zero_mod _).symm, (Nat.zero_mod _).symm, le_rfl, ?_, rfl,
      fun _ _ hq => hno hq, fun _ _ hld => ?_, fun _ _ hq => hno hq, fun _ _ hq => hno hq,
      fun _ _ hq => hno hq, fun _ _ hq => hno hq, fun _ _ _ _ hq => hno hq⟩
    · dsimp only
      omega
    · cases hld
  · refine ⟨(Nat.zero_mod _).symm, (Nat.zero_mod _).symm, (Nat.zero_mod _).symm, le_rfl,
      le_rfl, ?_, rfl, fun _ _ hq => hno hq, fun _ _ hq => hno hq, fun _ _ hq => hno hq,
      fun _ _ hq => hno hq, fun _ _ hq => hno hq, fun _ _ _ _ hq => hno hq⟩
    dsimp only
    omega
  · exact ⟨fun _ _ => rfl, fun _ _ hq => hno hq, fun _ _ hq => hno hq⟩
  · exact ⟨rfl, List.forall_mem_nil _, List.forall_mem_nil _, fun _ _ => rfl, .nil,
      List.forall_mem_nil _, List.forall_mem_nil _, fun _ _ hq => hno hq⟩
  · exact ⟨fun _ _ hq => hno hq, fun _ _ hq => hno hq, fun _ _ hq => hno hq,
      fun _ _ hq => hno hq, fun _ _ hq => hno hq, rfl⟩
  · refine ⟨fun _ _ hq => hno hq, fun s hs => ?_, rfl, List.forall_mem_nil _, fun s hs => ?_,
      List.forall_mem_nil _, fun _ _ _ _ hq => hno hq, fun _ hfl => ?_,
      fun _ pre pkt post hlog => ?_⟩
    · rcases hs with hs | hs <;> cases hs
    · cases hs
    · cases hfl
    · simp [initial] at hlog
  · exact .idle rfl (fun hlt => hno hlt)

theorem ViolatorLive.insts {last last' : Nat} (hv : ViolatorLive u last)
    (hle : last ≤ last') (hinsts : ∀ s, s ≤ last → u'.insts s = u.insts s)
    (hviolator : u'.memDepViolator = u.memDepViolator) (hby : u'.violatedBy = u.violatedBy) :
    ViolatorLive u' last' := by
  intro v hset
  rw [hviolator] at hset
  obtain ⟨hload, hlive, hlt, hlast⟩ := hv v hset
  rw [hinsts v hlast, hby]
  exact ⟨hload, hlive, hlt, hlast.trans hle⟩

/-- Every call that the pipeline or the cache may make keeps the invariant, or ends in one of a
few faults. -/
theorem apply_sound (hs : Sound cfg w) (m : Move) (hen : Enabled w m) :
    Meets (apply cfg w m) Allowed (fun w' => Sound cfg w' ∧ PrefetchKept w w') := by
  obtain ⟨⟨f, part, hi⟩, hv⟩ := hs
  cases m with
  | insertLoad seqNum isDataPrefetch =>
    refine ((insertLoad_inv hi hen isDataPrefetch).mono_error
      (fun e he => by rw [he]; trivial)).bind
      (fun u ⟨hi', hinsts, hset, hby⟩ => .ok ⟨⟨⟨_, _, hi'⟩, ?_⟩, ⟨fun s hs => ?_⟩⟩)
    · exact hv.insts (hen.le) hinsts hset hby
    · exact congrArg DynInst.isDataPrefetch (hinsts s hs)
  | insertStore seqNum isStoreConditional isDataPrefetch =>
    refine ((insertStore_inv hi hen isStoreConditional isDataPrefetch).mono_error
      (fun e he => by rw [he]; trivial)).bind
      (fun u ⟨hi', hinsts, hset, hby⟩ => .ok ⟨⟨⟨_, _, hi'⟩, ?_⟩, ⟨fun s hs => ?_⟩⟩)
    · exact hv.insts (hen.le) hinsts hset hby
    · exact congrArg DynInst.isDataPrefetch (hinsts s hs)
  | executeLoad seqNum initiated env =>
    refine ((executeLoad_inv hi hv hen.1 hen.2 initiated env).mono_error (fun e he => by
      rcases he with rfl | rfl <;> trivial)).bind (fun r ⟨hi', hv', hsame⟩ => .ok ?_)
    exact ⟨⟨⟨f, part, hi'⟩, hv'⟩, ⟨fun s _ => (hsame s).isDataPrefetch⟩⟩
  | executeStore seqNum initiated data =>
    refine ((executeStore_inv hi hv hen.1 hen.2.1 (Option.isNone_iff_eq_none.mp hen.2.2) initiated
      data).mono_error (fun e he => by rw [he]; trivial)).bind
      (fun r ⟨hi', hv', _, hsame⟩ => .ok ?_)
    exact ⟨⟨⟨f, part, hi'⟩, hv'⟩, ⟨fun s _ => (hsame s).isDataPrefetch⟩⟩
  | commitLoads youngest =>
    have hroom := hi.loads.room
    refine ((commitLoads_inv (le_max_right _ _) _ w.unit f
      (hi.raise (le_max_left _ youngest)) (by omega)).of_yields).bind
      (fun u ⟨⟨head, hi'⟩, hinsts, hset, hby⟩ => .ok ?_)
    exact ⟨⟨⟨_, _, hi'⟩, hv.insts (le_rfl) (fun s _ => by rw [hinsts]) hset hby⟩,
      ⟨fun s _ => by rw [hinsts]⟩⟩
  | commitStores youngest =>
    have hroom := hi.stores.room
    have hle := hi.stores.head_le.trans hi.stores.wb_le
    refine Meets.bind (Q := fun u' => Inv cfg u'
        { w.toHistory with committedNum := max w.committedNum youngest } f part ∧
        u'.insts = w.unit.insts ∧ u'.memDepViolator = w.unit.memDepViolator ∧
        u'.violatedBy = w.unit.violatedBy) ?_ (fun u ⟨hi', hinsts, hset, hby⟩ => .ok ?_)
    · rw [hi.stores.head]
      exact (commitStores_inv _ f.storeHead w.unit (hi.raise (le_max_left _ youngest))
        (le_max_right _ _) (le_rfl) hle (by omega)).of_yields
    · exact ⟨⟨⟨f, part, hi'⟩, hv.insts (le_rfl) (fun s _ => by rw [hinsts]) hset hby⟩,
        ⟨fun s _ => by rw [hinsts]⟩⟩
  | squash squashedNum =>
    refine ((squash_inv hi hv squashedNum).mono_error (fun e he => by rw [he]; trivial)).bind
      (fun u ⟨f', hi', hv', hpre⟩ => .ok ⟨⟨⟨f', part, hi'⟩, hv'⟩, ⟨fun s _ => hpre s⟩⟩)
  | getMemDepViolator =>
    have hu : LoadOnly w.unit w.unit.getMemDepViolator.2 :=
      { LoadOnly.refl w.unit with frame := rfl }
    exact .ok ⟨⟨⟨f, part, hu.inv hi⟩, nofun⟩, ⟨fun _ _ => rfl⟩⟩
  | checkSnoop addr =>
    exact ((checkSnoop_quiet hi.loads addr).of_yields).bind
      (fun u hu => .ok ⟨⟨⟨f, part, hu.1.inv hi⟩, hv.keep hu.1 hu.2⟩,
        ⟨fun s _ => (hu.1.same s).isDataPrefetch⟩⟩)
  | tick =>
    have hu : LoadOnly w.unit { w.unit with usedPorts := 0 } :=
      { LoadOnly.refl w.unit with frame := rfl }
    exact .ok ⟨⟨⟨f, part, hu.inv hi⟩, hv.keep hu ⟨rfl, rfl⟩⟩, ⟨fun _ _ => rfl⟩⟩
  | writebackStores env =>
    refine ((writebackStores_spec hi).mono_error (fun e he => by
      rcases he with rfl | rfl <;> trivial)).bind (fun u ⟨hi', hkept, _⟩ => .ok ?_)
    exact ⟨⟨hi', hkept.violatorLive hv⟩, ⟨fun s _ => (hkept.same s).isDataPrefetch⟩⟩
  | recvRetry env =>
    refine ((recvRetry_spec hi).of_yields).bind
      (fun u ⟨hi', hkept, _⟩ => .ok ?_)
    exact ⟨⟨hi', hkept.violatorLive hv⟩, ⟨fun s _ => (hkept.same s).isDataPrefetch⟩⟩
  | completeDataAccess pkt =>
    refine ((completeDataAccess_spec hi hen.1 hen.2).of_yields).bind
      (fun u ⟨hi', hkept, _⟩ => .ok ?_)
    exact ⟨⟨hi', hkept.violatorLive hv⟩, ⟨fun s _ => (hkept.same s).isDataPrefetch⟩⟩

theorem reachable_sound (h : (machine cfg).Reachable w) : Sound cfg w := by
  refine h.invariant (fun s hs => ?_) (fun s m t hs hstep => ?_)
  · rw [show s = initial from hs]
    exact initial_sound cfg
  · exact ((apply_sound hs m hstep.1).of_ok hstep.2).1

end Gem5.O3.LsqUnit
