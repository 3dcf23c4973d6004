import Gem5.Lib.Outcome
import Gem5.Mem.DramTiming

namespace Gem5.Mem

open Lib Option List DramRank Nat

/-! The allowed ticks of the banks account for all commands that have been issued. -/

variable {cfg : DramConfig}

namespace DramRank

variable {rank : DramRank cfg} {b i : Fin cfg.banksPerRank} {t row : Nat}

@[simp] theorem activate_openRow : ((rank.activate b t row).banks i).openRow =
    if i = b then some row else (rank.banks i).openRow := by
  obtain rfl | h := eq_or_ne i b
  · simp [activate, delay]
  · simp [activate, delay, h]

@[simp] theorem activate_colAllowedAt : ((rank.activate b t row).banks i).colAllowedAt =
    if i = b then max (t + cfg.tRCD) (rank.banks i).colAllowedAt
    else (rank.banks i).colAllowedAt := by
  obtain rfl | h := eq_or_ne i b
  · simp [activate, delay]
  · simp [activate, delay, h]

@[simp] theorem activate_preAllowedAt : ((rank.activate b t row).banks i).preAllowedAt =
    if i = b then t + cfg.tRAS else (rank.banks i).preAllowedAt := by
  obtain rfl | h := eq_or_ne i b
  · simp [activate, delay]
  · simp [activate, delay, h]

theorem activate_actAllowedAt : ((rank.activate b t row).banks i).actAllowedAt =
    max (((tooSoon cfg t (pushTick t rank.actTicks)).map (· + cfg.tXAW)).getD 0)
      (max (t + cfg.actDelay b i) (rank.banks i).actAllowedAt) := by
  obtain rfl | h := eq_or_ne i b
  · simp [activate, delay]
  · simp [activate, delay, h]

theorem le_activate_actAllowedAt (i : Fin cfg.banksPerRank) :
    (rank.banks i).actAllowedAt ≤ ((rank.activate b t row).banks i).actAllowedAt := by
  rw [activate_actAllowedAt]
  omega

/-- The next activate of a bank keeps its distance from this one. -/
theorem delay_le_activate (i : Fin cfg.banksPerRank) :
    t + cfg.actDelay b i ≤ ((rank.activate b t row).banks i).actAllowedAt := by
  rw [activate_actAllowedAt]
  omega

@[simp] theorem precharge_self : (rank.precharge b t).banks b = { rank.banks b with
    openRow := none
    preAllowedAt := t
    actAllowedAt := max (rank.banks b).actAllowedAt (t + cfg.tRP) } :=
  Function.update_self _ _ _

@[simp] theorem precharge_ne (h : i ≠ b) : (rank.precharge b t).banks i = rank.banks i :=
  Function.update_of_ne h _ _

/-- A bank that is opened is one more of the open ones. -/
theorem numOpen_activate (t row : Nat) (h : (rank.banks b).openRow = none) :
    (rank.activate b t row).numOpen = rank.numOpen + 1 := by
  have hset : Finset.univ.filter (fun i => ((rank.activate b t row).banks i).openRow.isSome) =
      insert b (Finset.univ.filter (fun i => (rank.banks i).openRow.isSome)) := by
    ext i
    by_cases hi : i = b <;> simp [hi]
  unfold numOpen
  rw [hset, Finset.card_insert_of_notMem (by simp [h])]

/-- A bank that is closed is one less of the open ones. -/
theorem numOpen_precharge (t : Nat) (h : (rank.banks b).openRow ≠ none) :
    (rank.precharge b t).numOpen + 1 = rank.numOpen := by
  have hset : Finset.univ.filter (fun i => ((rank.precharge b t).banks i).openRow.isSome) =
      (Finset.univ.filter (fun i => (rank.banks i).openRow.isSome)).erase b := by
    ext i
    by_cases hi : i = b <;> simp [hi]
  have hmem : b ∈ Finset.univ.filter (fun i => (rank.banks i).openRow.isSome) := by
    simpa [isSome_iff_ne_none] using h
  unfold numOpen
  rw [hset, Finset.card_erase_add_one hmem]

theorem numOpen_le (rank : DramRank cfg) : rank.numOpen ≤ cfg.banksPerRank :=
  (Finset.card_le_univ _).trans_eq (Fintype.card_fin _)

/-- An activate a window after the oldest one that counts is not too soon. -/
theorem tooSoon_eq_none (h : ∀ x ∈ l.getLast?, x ≠ 0 → x + cfg.tXAW ≤ t) :
    tooSoon cfg t l = none := by
  unfold tooSoon
  rw [filter_eq_none_iff]
  intro x hx
  simp only [decide_eq_true_eq, not_and, not_lt]
  intro hne
  have := h x hx hne
  omega

/-- After an activate, the oldest one that counts is a window before the next. -/
theorem window_activate (hx : x ∈ (rank.activate b t row).actTicks.getLast?) (hne : x ≠ 0)
    (hle : x ≤ t) (i : Fin cfg.banksPerRank) :
    x + cfg.tXAW ≤ ((rank.activate b t row).banks i).actAllowedAt := by
  have hx' : (pushTick t rank.actTicks).getLast? = some x := hx
  rw [activate_actAllowedAt]
  by_cases hsoon : t - x < cfg.tXAW
  · have : tooSoon cfg t (pushTick t rank.actTicks) = some x := by
      simp [tooSoon, hx', Option.filter, hne, hsoon]
    rw [this]
    simp
  · omega

theorem length_pushTick (t : Nat) (l : List Nat) : (pushTick t l).length = l.length := by
  unfold pushTick
  split_ifs with h
  · simp [h]
  · have := length_pos_iff.mpr h
    simp
    omega

theorem mem_pushTick (h : x ∈ pushTick t l) : x = t ∨ x ∈ l := by
  unfold pushTick at h
  split at h
  · cases h
  · rcases mem_cons.mp h with h | h
    · exact .inl h
    · exact .inr (mem_of_mem_dropLast h)

/-- What a rank keeps. A tick of an activate is not after those that its banks wait for. -/
structure Sound (rank : DramRank cfg) : Prop where
  limit : rank.actTicks.length = cfg.activationLimit
  active : rank.numBanksActive = rank.numOpen
  closed : ∀ i, (rank.banks i).openRow = none →
    (rank.banks i).preAllowedAt ≤ (rank.banks i).actAllowedAt
  older : ∀ x ∈ rank.actTicks, ∀ i, x ≤ (rank.banks i).actAllowedAt
  started : ∀ x ∈ rank.actTicks, x = 0 ∨ ∃ i, x ≤ (rank.banks i).preAllowedAt
  window : ∀ x ∈ rank.actTicks.getLast?, x ≠ 0 → ∀ i, x + cfg.tXAW ≤ (rank.banks i).actAllowedAt

structure Later (b b' : DramBank) : Prop where
  col : b.colAllowedAt ≤ b'.colAllowedAt
  pre : b.preAllowedAt ≤ b'.preAllowedAt
  act : b.actAllowedAt ≤ b'.actAllowedAt

theorem Later.refl (b : DramBank) : Later b b := ⟨le_rfl, le_rfl, le_rfl⟩

/-- An activate lets no bank go earlier. -/
theorem later_activate (hpre : (rank.banks b).preAllowedAt ≤ t) (i : Fin cfg.banksPerRank) :
    Later (rank.banks i) ((rank.activate b t row).banks i) := by
  refine ⟨?_, ?_, le_activate_actAllowedAt i⟩
  · rw [activate_colAllowedAt]
    split
    · exact le_max_right _ _
    · exact le_rfl
  · rw [activate_preAllowedAt]
    split_ifs with hi
    · subst hi
      omega
    · exact le_rfl

theorem later_precharge (hpre : (rank.banks b).preAllowedAt ≤ t) (i : Fin cfg.banksPerRank) :
    Later (rank.banks i) ((rank.precharge b t).banks i) := by
  obtain rfl | hi := eq_or_ne i b
  · rw [precharge_self]
    exact ⟨le_rfl, hpre, le_max_left _ _⟩
  · rw [precharge_ne hi]
    exact .refl _

/-- The ticks of the activates stay behind when the banks have to wait longer. -/
theorem Sound.mono {rank' : DramRank cfg} (h : rank.Sound)
    (hticks : rank'.actTicks = rank.actTicks)
    (hlater : ∀ i, Later (rank.banks i) (rank'.banks i))
    (hactive : rank'.numBanksActive = rank'.numOpen)
    (hclosed : ∀ i, (rank'.banks i).openRow = none →
      (rank'.banks i).preAllowedAt ≤ (rank'.banks i).actAllowedAt) : rank'.Sound where
  limit := hticks ▸ h.limit
  active := hactive
  closed := hclosed
  older x hx i := (h.older x (hticks ▸ hx) i).trans (hlater i).act
  started x hx :=
    (h.started x (hticks ▸ hx)).imp_right (fun ⟨i, hi⟩ => ⟨i, hi.trans (hlater i).pre⟩)
  window x hx hne i := (h.window x (hticks ▸ hx) hne i).trans (hlater i).act

/-- A closed bank is opened at a tick at which it is allowed to be. -/
theorem Sound.activate (h : rank.Sound) (hclosed : (rank.banks b).openRow = none)
    (hready : (rank.banks b).actAllowedAt ≤ t) : (rank.activate b t row).Sound := by
  have hpre := (h.closed b hclosed).trans hready
  have holder : ∀ x ∈ rank.actTicks, x ≤ t := fun x hx => (h.older x hx b).trans hready
  have hticks : (rank.activate b t row).actTicks = pushTick t rank.actTicks := rfl
  constructor
  case limit =>
    rw [hticks, length_pushTick]
    exact h.limit
  case active =>
    rw [numOpen_activate t row hclosed]
    exact congrArg (· + 1) h.active
  case closed =>
    intro i hi
    rw [activate_openRow] at hi
    split_ifs at hi with hne
    rw [activate_preAllowedAt, if_neg hne]
    exact (h.closed i hi).trans (le_activate_actAllowedAt i)
  case older =>
    intro x hx i
    have hdelay : t + cfg.actDelay b i ≤ ((rank.activate b t row).banks i).actAllowedAt :=
      delay_le_activate i
    rcases mem_pushTick hx with rfl | hx
    · omega
    · have := holder x hx
      omega
  case started =>
    intro x hx
    rcases mem_pushTick hx with rfl | hx
    · exact .inr ⟨b, by simp⟩
    · refine (h.started x hx).imp_right (fun ⟨i, hi⟩ => ⟨i, ?_⟩)
      exact hi.trans (later_activate hpre i).pre
  case window =>
    intro x hx hne i
    refine window_activate hx hne ?_ i
    rcases mem_pushTick (mem_of_getLast? hx) with rfl | hx
    · exact le_rfl
    · exact holder x hx

theorem Sound.precharge (h : rank.Sound) (hopen : (rank.banks b).openRow ≠ none)
    (hready : (rank.banks b).preAllowedAt ≤ t) : (rank.precharge b t).Sound := by
  refine h.mono rfl (later_precharge hready) ?_ (fun i hi => ?_)
  · have hnum := numOpen_precharge t hopen
    have hactive := h.active
    change rank.numBanksActive - 1 = _
    omega
  obtain rfl | hb := eq_or_ne i b
  · rw [precharge_self]
    dsimp only
    omega
  · rw [precharge_ne hb] at hi ⊢
    exact h.closed i hi

theorem numOpen_eq_zero (h : ∀ i, (rank.banks i).openRow = none) : rank.numOpen = 0 := by
  simp [numOpen, h]

theorem Sound.prechargeAll (h : rank.Sound) (now : Nat) : (rank.prechargeAll now).Sound := by
  have hle : ∀ i, (rank.banks i).preAllowedAt ≤
      max now (Finset.univ.sup (fun b => (rank.banks b).preAllowedAt)) := fun i =>
    (Finset.le_sup (f := fun b => (rank.banks b).preAllowedAt) (Finset.mem_univ i)).trans
      (le_max_right _ _)
  refine h.mono rfl (fun i => ⟨le_rfl, ?_, le_max_left _ _⟩) ?_ (fun i _ => ?_)
  · dsimp only [DramRank.prechargeAll]
    split
    · exact le_max_left _ _
    · exact hle i
  · exact (Nat.sub_eq_zero_of_le (h.active.le)).trans (numOpen_eq_zero (fun _ => rfl)).symm
  · dsimp only [DramRank.prechargeAll]
    split_ifs with hnone
    · have := h.closed i hnone
      omega
    · omega

theorem Sound.refresh (h : rank.Sound) {now : Nat} (hpre : ∀ i, (rank.banks i).preAllowedAt ≤ now)
    (hwindow : ∀ x ∈ rank.actTicks.getLast?, x ≠ 0 → x + cfg.tXAW ≤ now + cfg.tRFC) :
    (rank.refresh now).Sound where
  limit := h.limit
  active := h.active
  closed i _ := (hpre i).trans (le_add_right _ _)
  older x hx _ := by
    rcases h.started x hx with rfl | ⟨i, hi⟩
    · exact zero_le _
    · exact (hi.trans (hpre i)).trans (le_add_right _ _)
  started := h.started
  window x hx hne _ := hwindow x hx hne

/-- The activates that have been issued are in the ticks of the rank, as far as these go. -/
structure Recorded (rank : DramRank cfg) (acts : List Nat) : Prop where
  recent : acts.take cfg.activationLimit <+: rank.actTicks
  positive : ∀ x ∈ acts, x ≠ 0
  spans : 0 < cfg.activationLimit → Spans cfg.activationLimit cfg.tXAW acts

theorem Recorded.nil (rank : DramRank cfg) : rank.Recorded [] :=
  ⟨by simp, nofun, fun _ => .nil _ _⟩

/-- The ticks of a rank stay those of its last activates. -/
theorem recent_pushTick {acts ticks : List Nat} (hlimit : ticks.length = n)
    (h : acts.take n <+: ticks) : (t :: acts).take n <+: pushTick t ticks := by
  cases n with
  | zero => exact nil_prefix
  | succ n =>
    have hne : ticks ≠ [] := ne_nil_of_length_eq_add_one hlimit
    have htake : ticks.dropLast = ticks.take n := by
      rw [dropLast_eq_take, hlimit, Nat.add_sub_cancel]
    unfold pushTick
    rw [if_neg hne, take_succ_cons, htake]
    refine cons_prefix_cons.mpr ⟨rfl, ?_⟩
    have hprefix := h.take n
    rwa [take_take, min_eq_left (le_succ n)] at hprefix

theorem getLast_of_recent {acts ticks : List Nat} (hlimit : ticks.length = n + 1)
    (h : acts.take (n + 1) <+: ticks) (ht : acts[n]? = some t) : ticks.getLast? = some t := by
  obtain ⟨rest, hrest⟩ := h
  have hlt : n < (acts.take (n + 1)).length := by
    have := (List.getElem?_eq_some_iff.mp ht).1
    rw [length_take]
    omega
  rw [getLast?_eq_getElem?, hlimit, Nat.add_sub_cancel, ← hrest, getElem?_append_left hlt,
    getElem?_take_of_lt (lt_succ_self n), ht]

/-- An activate that is allowed keeps the window: the rank knows the tick that it has to wait
for. -/
theorem Recorded.activate {acts : List Nat} (h : rank.Recorded acts) (hsound : rank.Sound)
    (hready : (rank.banks b).actAllowedAt ≤ t) (hpos : t ≠ 0) :
    (rank.activate b t row).Recorded (t :: acts) := by
  refine ⟨recent_pushTick hsound.limit h.recent, fun x hx => ?_, fun hlimit => ?_⟩
  · rcases mem_cons.mp hx with rfl | hx
    · exact hpos
    · exact h.positive x hx
  have hspans := h.spans hlimit
  have hlength := hsound.limit
  have hrecent := h.recent
  obtain ⟨n, hn⟩ := Nat.exists_eq_add_of_lt hlimit
  rw [zero_add] at hn
  rw [hn] at hspans hlength hrecent ⊢
  refine hspans.cons (fun x hx => ?_)
  -- the activate before the window is the oldest that the rank has
  have hlast := getLast_of_recent hlength hrecent hx
  have hne := h.positive x (mem_of_getElem? hx)
  exact (hsound.window x hlast hne b).trans hready

end DramRank

namespace DramCtrl

open DramRank (Later)

variable {s s' : DramCtrl cfg} {r : Fin cfg.ranksPerChannel} {b : Fin cfg.banksPerRank}

@[simp] theorem ranks_setRank_self : (s.setRank r rank).ranks r = rank := by
  simp [setRank]

theorem ranks_setRank_ne (h : r' ≠ r) : (s.setRank r rank).ranks r' = s.ranks r' := by
  simp [setRank, h]

@[simp] theorem bank_setRank_self (i : Fin cfg.banksPerRank) :
    (s.setRank r rank).bank r i = rank.banks i := by
  simp [bank]

/-- What holds of the new rank and of all others holds of every rank. -/
theorem forall_setRank {P : Fin cfg.ranksPerChannel → DramRank cfg → Prop}
    (hothers : ∀ r', r' ≠ r → P r' (s.ranks r')) (hself : P r rank) (r' : Fin cfg.ranksPerChannel) :
    P r' ((s.setRank r rank).ranks r') := by
  obtain rfl | hr := eq_or_ne r' r
  · rw [ranks_setRank_self]
    exact hself
  · rw [ranks_setRank_ne hr]
    exact hothers r' hr

/-- No command is allowed earlier when the banks and the bus are later. -/
theorem allowed_mono (hbus : s.busBusyUntil ≤ s'.busBusyUntil)
    (h : ∀ r i, Later (s.bank r i) (s'.bank r i)) (x : DramCommand cfg) :
    s.allowed x ≤ s'.allowed x := by
  obtain ⟨cmd, r, i, time⟩ := x
  have hcol := (h r i).col
  cases cmd with
  | act => exact (h r i).act
  | pre => exact (h r i).pre
  | rd =>
    dsimp only [allowed]
    omega
  | wr =>
    dsimp only [allowed]
    omega

theorem allowed_setRank (h : ∀ i, Later ((s.ranks r).banks i) (rank.banks i))
    (x : DramCommand cfg) : s.allowed x ≤ (s.setRank r rank).allowed x := by
  apply allowed_mono
  · exact le_rfl
  · exact forall_setRank (P := fun r' rank' => ∀ i, Later ((s.ranks r').banks i) (rank'.banks i))
      (fun _ _ _ => .refl _) h

/-- After an activate the banks wait as long as the distances from it ask for. -/
theorem covers_activate (x : DramCommand cfg) (g : Nat)
    (hg : g ∈ DramCommand.gap ⟨.act, r, b, t⟩ x) :
    t + g ≤ (s.setRank r ((s.ranks r).activate b t row)).allowed x := by
  obtain ⟨cmd, r', i, time⟩ := x
  cases cmd <;> simp only [DramCommand.gap, mem_def, ite_none_right_eq_some,
    Option.some.injEq] at hg
  case act =>
    obtain ⟨rfl, rfl⟩ := hg
    simp only [allowed, bank_setRank_self]
    exact delay_le_activate i
  all_goals
    obtain ⟨⟨rfl, rfl⟩, rfl⟩ := hg
    simp [allowed]

theorem covers_precharge (x : DramCommand cfg) (g : Nat)
    (hg : g ∈ DramCommand.gap ⟨.pre, r, b, t⟩ x) :
    t + g ≤ (s.setRank r ((s.ranks r).precharge b t)).allowed x := by
  obtain ⟨cmd, r', i, time⟩ := x
  cases cmd <;> simp only [DramCommand.gap, mem_def, ite_none_right_eq_some,
    Option.some.injEq, reduceCtorEq] at hg
  obtain ⟨⟨rfl, rfl⟩, rfl⟩ := hg
  simp [allowed]

theorem acts_cons (h : c.cmd ≠ .act) (hs : s'.cmdList = c :: s.cmdList)
    (r : Fin cfg.ranksPerChannel) : s'.acts r = s.acts r := by
  simp [acts, hs, h]

structure Sound (s : DramCtrl cfg) : Prop where
  ranks : ∀ r, (s.ranks r).Sound
  recorded : ∀ r, (s.ranks r).Recorded (s.acts r)
  bus : cfg.tCL ≤ s.busBusyUntil
  guards : (DramCommand.spacing cfg).Guards s.allowed s.cmdList

/-- No assertion of `activateBank` fails at a tick that is allowed. -/
theorem Sound.activateBank (h : Sound s) (row : Nat) (hclosed : (s.bank r b).openRow = none)
    (hready : (s.bank r b).actAllowedAt ≤ t) (hpos : t ≠ 0) :
    ∃ s', s.activateBank r b t row = .ok s' ∧ Sound s' ∧ (s'.bank r b).openRow = some row ∧
      s'.busBusyUntil = s.busBusyUntil := by
  have hrank := h.ranks r
  have hpre := (hrank.closed b hclosed).trans hready
  have hfew : (s.ranks r).numBanksActive + 1 ≤ cfg.banksPerRank := by
    rw [hrank.active, ← numOpen_activate t row hclosed]
    exact numOpen_le _
  refine ⟨(s.setRank r ((s.ranks r).activate b t row)).emit ⟨.act, r, b, t⟩, ?_, ?_, ?_, rfl⟩
  · unfold DramCtrl.activateBank
    rw [if_neg (not_not.mpr hrank.limit), if_neg (not_not.mpr hclosed), if_neg (by omega),
      tooSoon_eq_none (fun x hx hne => (hrank.window x hx hne b).trans hready)]
    rfl
  · constructor
    case ranks =>
      exact forall_setRank (P := fun _ rank => rank.Sound) (fun r' _ => h.ranks r')
        (hrank.activate hclosed hready)
    case recorded =>
      refine forall_setRank (P := fun r' rank => rank.Recorded _) (fun r' hr => ?_) ?_
      · simpa [acts, emit, setRank, Ne.symm hr] using h.recorded r'
      · simpa [acts, emit, setRank] using (h.recorded r).activate hrank hready hpos
    case bus => exact h.bus
    case guards =>
      exact h.guards.emit hready (allowed_setRank (later_activate hpre))
        (fun x g hg => covers_activate x g hg)
  · change ((s.setRank r _).bank r b).openRow = _
    rw [bank_setRank_self, activate_openRow, if_pos rfl]

/-- No assertion of `prechargeBank` fails at a tick that is allowed. -/
theorem Sound.prechargeBank (h : Sound s) (hopen : (s.bank r b).openRow ≠ none)
    (hready : (s.bank r b).preAllowedAt ≤ t) :
    ∃ s', s.prechargeBank r b t true = .ok s' ∧ Sound s' ∧ (s'.bank r b).openRow = none ∧
      s'.busBusyUntil = s.busBusyUntil := by
  have hrank := h.ranks r
  have hactive : (s.ranks r).numBanksActive ≠ 0 := by
    have := numOpen_precharge t hopen
    have := hrank.active
    omega
  refine ⟨(s.setRank r ((s.ranks r).precharge b t)).emit ⟨.pre, r, b, t⟩, ?_, ?_, ?_, rfl⟩
  · unfold DramCtrl.prechargeBank
    rw [if_neg hopen, if_neg hactive]
    rfl
  · constructor
    case ranks =>
      exact forall_setRank (P := fun _ rank => rank.Sound) (fun r' _ => h.ranks r')
        (hrank.precharge hopen hready)
    case recorded =>
      intro r'
      rw [acts_cons (s := s) (c := ⟨.pre, r, b, t⟩) (by simp) rfl]
      refine forall_setRank (P := fun r' rank => rank.Recorded (s.acts r'))
        (fun r' _ => h.recorded r') ?_ r'
      exact { h.recorded r with }
    case bus => exact h.bus
    case guards =>
      exact h.guards.emit hready (allowed_setRank (later_precharge hready))
        (fun x g hg => covers_precharge x g hg)
  · change ((s.setRank r _).bank r b).openRow = _
    rw [bank_setRank_self, precharge_self]

section Burst

variable {pkt : DramPacket cfg} {cmdAt readyTime : Nat} {j : Fin cfg.ranksPerChannel}
  {i : Fin cfg.banksPerRank}

/-- A burst makes all banks wait with their columns, and its own bank with the precharge. -/
theorem bank_burst : (s.burst pkt cmdAt readyTime).bank j i = { s.bank j i with
    colAllowedAt := max (cmdAt + cfg.cmdDly pkt.rank pkt.bank j i) (s.bank j i).colAllowedAt
    preAllowedAt := if j = pkt.rank ∧ i = pkt.bank then max (s.bank j i).preAllowedAt
      (if pkt.isRead then cmdAt + cfg.tRTP else readyTime + cfg.tWR) else (s.bank j i).preAllowedAt
    bytesAccessed := ((s.burst pkt cmdAt readyTime).bank j i).bytesAccessed
    rowAccesses := ((s.burst pkt cmdAt readyTime).bank j i).rowAccesses } := by
  by_cases h : j = pkt.rank ∧ i = pkt.bank
  · obtain ⟨rfl, rfl⟩ := h
    simp [burst, bank]
  · simp [burst, bank, h]

theorem burst_openRow :
    ((s.burst pkt cmdAt readyTime).bank j i).openRow = (s.bank j i).openRow := by
  rw [bank_burst]

theorem later_burst (j : Fin cfg.ranksPerChannel) (i : Fin cfg.banksPerRank) :
    Later (s.bank j i) ((s.burst pkt cmdAt readyTime).bank j i) := by
  rw [bank_burst]
  refine ⟨le_max_right _ _, ?_, le_rfl⟩
  dsimp only
  split
  · exact le_max_left _ _
  · exact le_rfl

/-- What follows a column command has to wait for it. -/
theorem covers_burst (x : DramCommand cfg) (g : Nat)
    (hg : g ∈ DramCommand.gap ⟨if pkt.isRead then .rd else .wr, pkt.rank, pkt.bank, cmdAt⟩ x) :
    cmdAt + g ≤ (s.burst pkt cmdAt (cmdAt + cfg.tCL + cfg.tBURST)).allowed x := by
  obtain ⟨cmd, j, i, time⟩ := x
  cases hread : pkt.isRead <;> rw [hread] at hg <;>
    cases cmd <;> simp only [DramCommand.gap, mem_def, ite_none_right_eq_some,
      Option.some.injEq, reduceCtorEq, if_true, Bool.false_eq_true, if_false] at hg
  -- the precharge of the bank waits for the end of the command or of the data
  case false.pre | true.pre =>
    obtain ⟨⟨rfl, rfl⟩, rfl⟩ := hg
    dsimp only [allowed]
    rw [bank_burst]
    simp only [hread, and_self, if_true, Bool.false_eq_true, if_false]
    omega
  all_goals
    subst hg
    dsimp only [allowed]
    rw [bank_burst]
    dsimp only
    omega

/-- A burst goes out when its column is ready and the bus is free. -/
theorem Sound.burst (h : Sound s) (cmdAt : Nat) (hopen : (s.bank pkt.rank pkt.bank).openRow ≠ none)
    (hcol : (s.bank pkt.rank pkt.bank).colAllowedAt ≤ cmdAt)
    (hbus : s.busBusyUntil - cfg.tCL ≤ cmdAt) :
    Sound (s.burst pkt cmdAt (cmdAt + cfg.tCL + cfg.tBURST)) := by
  constructor
  case ranks =>
    intro j
    refine (h.ranks j).mono rfl (fun i => later_burst j i) ?_ (fun i hi => ?_)
    · have hnum : ((s.burst pkt cmdAt (cmdAt + cfg.tCL + cfg.tBURST)).ranks j).numOpen =
          (s.ranks j).numOpen :=
        congrArg Finset.card (Finset.filter_congr (fun i _ =>
          iff_of_eq (congrArg (fun o => o.isSome = true) burst_openRow)))
      rw [hnum]
      exact (h.ranks j).active
    · change ((s.burst pkt cmdAt _).bank j i).openRow = none at hi
      change ((s.burst pkt cmdAt _).bank j i).preAllowedAt ≤
        ((s.burst pkt cmdAt _).bank j i).actAllowedAt
      rw [burst_openRow] at hi
      rw [bank_burst]
      dsimp only
      rw [if_neg]
      · exact (h.ranks j).closed i hi
      · rintro ⟨rfl, rfl⟩
        exact hopen hi
  case recorded =>
    intro j
    rw [acts_cons (s := s) (c := ⟨if pkt.isRead then .rd else .wr, pkt.rank, pkt.bank, cmdAt⟩)
      (by split <;> simp) rfl]
    exact { h.recorded j with }
  case bus =>
    change cfg.tCL ≤ cmdAt + cfg.tCL + cfg.tBURST
    omega
  case guards =>
    have hready :
        s.allowed ⟨if pkt.isRead then .rd else .wr, pkt.rank, pkt.bank, cmdAt⟩ ≤ cmdAt := by
      cases pkt.isRead <;> exact Nat.max_le.mpr ⟨hcol, hbus⟩
    have hbusy : s.busBusyUntil ≤ cmdAt + cfg.tCL + cfg.tBURST := by omega
    exact h.guards.emit hready (allowed_mono hbusy later_burst) (fun x g hg => covers_burst x g hg)

end Burst

/-- A bubble on the bus delays the bursts after it. -/
theorem Sound.bubble (h : Sound s) (n : Nat) :
    Sound { s with busBusyUntil := s.busBusyUntil + n } :=
  { h with
    bus := le_add_right_of_le h.bus
    guards := h.guards.mono (allowed_mono (le_add_right _ _) (fun _ _ => .refl _)) }

theorem Sound.prechargeIf (h : Sound s) (needed : Bool) (now : Nat) (r : Fin cfg.ranksPerChannel)
    (b : Fin cfg.banksPerRank) (hopen : needed = true → (s.bank r b).openRow ≠ none) :
    ∃ s', s.prechargeIf needed now r b = .ok s' ∧ Sound s' ∧ s'.busBusyUntil = s.busBusyUntil ∧
      (needed = true ∨ (s.bank r b).openRow = none → (s'.bank r b).openRow = none) := by
  cases needed with
  | false => exact ⟨s, rfl, h, rfl, fun hnone => hnone.resolve_left (by simp)⟩
  | true =>
    obtain ⟨s', hs', hsound, hclosed, hbus⟩ := h.prechargeBank (hopen rfl) (le_max_left _ now)
    exact ⟨s', hs', hsound, hbus, fun _ => hclosed⟩

section

variable (h : Sound s) {now : Nat} (hnow : 0 < now) (pkt : DramPacket cfg)
include h hnow pkt

/-- The row of an access is open, and its column command is allowed. -/
theorem Sound.prepareRow : ∃ s' cmdAt, s.prepareRow now pkt = .ok (s', cmdAt) ∧ Sound s' ∧
      (s'.bank pkt.rank pkt.bank).openRow ≠ none ∧
      (s'.bank pkt.rank pkt.bank).colAllowedAt ≤ cmdAt ∧ s'.busBusyUntil = s.busBusyUntil := by
  unfold DramCtrl.prepareRow
  by_cases hhit : (s.bank pkt.rank pkt.bank).openRow = some pkt.row
  · exact ⟨s, _, if_pos hhit, h, by simp [hhit], le_max_left _ _, rfl⟩
  obtain ⟨s₁, hs₁, hsound₁, hbus₁, hclosed⟩ := h.prechargeIf
    (s.bank pkt.rank pkt.bank).openRow.isSome now pkt.rank pkt.bank
    (fun hsome => isSome_iff_ne_none.mp hsome)
  have hclosed := hclosed (by cases (s.bank pkt.rank pkt.bank).openRow <;> simp)
  obtain ⟨s₂, hs₂, hsound₂, hopen, hbus₂⟩ := hsound₁.activateBank pkt.row hclosed
    (le_max_left _ now) (by omega)
  refine ⟨s₂, (s₂.bank pkt.rank pkt.bank).colAllowedAt, ?_, hsound₂, by simp [hopen],
    le_rfl, hbus₂.trans hbus₁⟩
  rw [if_neg hhit, hs₁, ok_bind]
  dsimp only
  rw [hs₂, ok_bind]
  rfl

/-- An access does not fail, and its burst comes after those before it. -/
theorem Sound.doDRAMAccess (queue : List (DramPacket cfg)) :
    ∃ s' readyTime, s.doDRAMAccess now pkt queue = .ok (s', readyTime) ∧ Sound s' ∧
      s'.busBusyUntil = readyTime ∧ s.busBusyUntil + cfg.tBURST ≤ readyTime := by
  obtain ⟨s₁, cmdAt, hs₁, hsound₁, hopen, hcol, hbus₁⟩ := h.prepareRow hnow pkt
  generalize hcmd : max cmdAt (s₁.busBusyUntil - cfg.tCL) = cmd
  have hsound₂ := hsound₁.burst cmd hopen (by omega) (by omega)
  obtain ⟨s₃, hs₃, hsound₃, hbus₃, -⟩ := hsound₂.prechargeIf
    ((s₁.burst pkt cmd (cmd + cfg.tCL + cfg.tBURST)).autoPrecharge pkt queue) now pkt.rank pkt.bank
    (fun _ => by rwa [burst_openRow])
  refine ⟨{ s₃ with nextReqTime := s₃.busBusyUntil - (cfg.tRP + cfg.tRCD + cfg.tCL) },
    cmd + cfg.tCL + cfg.tBURST, ?_,
    { hsound₃ with }, hbus₃, by omega⟩
  unfold DramCtrl.doDRAMAccess
  rw [hs₁, ok_bind]
  dsimp only
  rw [hcmd, if_neg (by omega), hs₃, ok_bind]
  rfl

end

theorem sound_startup (now : Nat) : Sound (startup cfg now) where
  ranks _ := {
    limit := length_replicate
    active := (numOpen_eq_zero (fun _ => rfl)).symm
    closed := fun _ _ => le_rfl
    older := fun _ hx _ => le_of_eq (eq_of_mem_replicate hx)
    started := fun _ hx => .inl (eq_of_mem_replicate hx)
    window := fun _ hx hne => absurd (eq_of_mem_replicate (mem_of_getLast? hx)) hne }
  recorded _ := .nil _
  bus := le_add_left _ _
  guards := .nil _

theorem Sound.prechargeAll (h : Sound s) (now : Nat) (r : Fin cfg.ranksPerChannel) :
    Sound (s.prechargeAll now r) where
  ranks := forall_setRank (P := fun _ rank => rank.Sound) (fun r' _ => h.ranks r')
    ((h.ranks r).prechargeAll now)
  recorded _ := .nil _
  bus := h.bus
  guards := .nil _

theorem Sound.refresh (h : Sound s) {now : Nat} (hpre : ∀ i, (s.bank r i).preAllowedAt ≤ now)
    (hwindow : ∀ x ∈ (s.ranks r).actTicks.getLast?, x ≠ 0 → x + cfg.tXAW ≤ now + cfg.tRFC) :
    Sound (s.refresh now r) where
  ranks := forall_setRank (P := fun _ rank => rank.Sound) (fun r' _ => h.ranks r')
    ((h.ranks r).refresh hpre hwindow)
  recorded _ := .nil _
  bus := h.bus
  guards := .nil _

end DramCtrl

namespace DramRun

variable {w w' : DramRun cfg}

/-- The controller is sound, and the bus has been given to one burst after the other. -/
structure Inv (w : DramRun cfg) : Prop where
  sound : w.ctrl.Sound
  bursts : w.readyTimes.Pairwise (fun later earlier => earlier + cfg.tBURST ≤ later)
  bus : ∀ t ∈ w.readyTimes, t ≤ w.ctrl.busBusyUntil

theorem Inv.access (h : Inv w) {now : Nat} (hnow : 0 < now) (bubble : Nat) (pkt : DramPacket cfg)
    (queue : List (DramPacket cfg)) :
    ∃ s readyTime, access bubble now pkt queue w.ctrl = .ok (s, readyTime) ∧
      Inv { now, ctrl := s, readyTimes := readyTime :: w.readyTimes } := by
  obtain ⟨s, readyTime, hs, hsound, hbus, hlater⟩ :=
    (h.sound.bubble bubble).doDRAMAccess hnow pkt queue
  dsimp only at hlater
  refine ⟨s, readyTime, hs, hsound, ?_, fun t ht => ?_⟩
  · refine pairwise_cons.mpr ⟨fun t ht => ?_, h.bursts⟩
    have := h.bus t ht
    omega
  · rw [hbus]
    rcases mem_cons.mp ht with rfl | ht
    · exact le_rfl
    · have := h.bus t ht
      omega

/-- What a step keeps, as far as activates count and refreshes are far enough apart. -/
theorem Inv.step (h : Inv w) (hstep : (machine cfg).step w m w') (hapart : Apart w m) : Inv w' := by
  obtain ⟨henabled, hw'⟩ := hstep
  cases m with
  | access now bubble pkt queue =>
    obtain ⟨s, readyTime, hs, hinv⟩ := h.access hapart bubble pkt queue
    rw [apply, hs] at hw'
    rw [← Except.ok.inj hw']
    exact hinv
  | prechargeAll now r =>
    rw [← Except.ok.inj hw']
    exact ⟨h.sound.prechargeAll now r, h.bursts, h.bus⟩
  | refresh now r =>
    rw [← Except.ok.inj hw']
    exact ⟨h.sound.refresh henabled.2.2 hapart, h.bursts, h.bus⟩

theorem inv_of_reachable (h : ((machine cfg).restrict Apart).Reachable w) : Inv w := by
  refine h.invariant (fun w hw => ?_) (fun _ _ _ hw hstep => hw.step hstep.1 hstep.2)
  obtain ⟨hctrl, hready⟩ := hw
  refine ⟨hctrl ▸ DramCtrl.sound_startup w.now, ?_, ?_⟩
  · rw [hready]
    exact .nil
  · rw [hready]
    exact nofun

/-- Commands keep their distances, activates their window, and bursts do not overlap; no access
fails. -/
theorem dram_timing_kept (h : ((machine cfg).restrict Apart).Reachable w) :
    w.ctrl.cmdList.Pairwise (fun later earlier => (DramCommand.spacing cfg).Spaced earlier later) ∧
    (∀ r, 0 < cfg.activationLimit → Spans cfg.activationLimit cfg.tXAW (w.ctrl.acts r)) ∧
    w.readyTimes.Pairwise (fun later earlier => earlier + cfg.tBURST ≤ later) ∧
    (0 < cfg.tBURST → w.readyTimes.Pairwise (· > ·)) ∧
    ∀ now bubble pkt queue, 0 < now → ∃ r, access bubble now pkt queue w.ctrl = .ok r := by
  have hinv := inv_of_reachable h
  refine ⟨hinv.sound.guards.spaced, fun r hlimit => (hinv.sound.recorded r).spans hlimit,
    hinv.bursts, fun hburst => hinv.bursts.imp (fun hle => by omega),
    fun now bubble pkt queue hnow => ?_⟩
  obtain ⟨s, readyTime, hs, -⟩ := hinv.access hnow bubble pkt queue
  exact ⟨(s, readyTime), hs⟩

def move (w : DramRun cfg) (m : Move cfg) : Option (DramRun cfg) :=
  if Enabled w m then (w.apply m).toOption else none

theorem step_of_move (w : DramRun cfg) (m : Move cfg) (w' : DramRun cfg) (h : w.move m = some w') :
    (machine cfg).step w m w' := by
  obtain ⟨henabled, h⟩ := Option.ite_none_right_eq_some.mp h
  exact ⟨henabled, toOption_eq_some.mp h⟩

instance (w : DramRun cfg) : (m : Move cfg) → Decidable (Apart w m)
  | .access now _ _ _ => inferInstanceAs (Decidable (0 < now))
  | .prechargeAll _ _ => .isTrue trivial
  | .refresh now r => inferInstanceAs (Decidable
      (∀ t ∈ (w.ctrl.ranks r).actTicks.getLast?, t ≠ 0 → t + cfg.tXAW ≤ now + cfg.tRFC))

def ddr3 : DramConfig where
  ranksPerChannel := 1
  banksPerRank := 8
  bankGroupsPerRank := 0
  tCS := 2500
  tBURST := 5000
  tCCD_L := 0
  tRCD := 13750
  tCL := 13750
  tRP := 13750
  tRAS := 35000
  tWR := 15000
  tRTP := 7500
  tRFC := 260000
  tRRD := 6000
  tRRD_L := 0
  tXAW := 30000
  activationLimit := 4
  burstSize := 64
  maxAccessesPerRow := 16
  pageMgmt := .openAdaptive
  groups := by decide

def fiveReads (now : Nat) : List (Move ddr3) :=
  [0, 1, 2, 3, 4].map (fun b => .access now 0 ⟨true, (0 : Fin 1), (b : Fin 8), 7⟩ [])

/-- The fifth activate waits for the window. -/
theorem dram_timing_kept_five : ∃ w : DramRun ddr3, ((machine ddr3).restrict Apart).Reachable w ∧
    w.ctrl.acts (0 : Fin 1) = [30001, 18001, 12001, 6001, 1] ∧
    Spans 4 30000 (w.ctrl.acts (0 : Fin 1)) := by
  obtain ⟨w, hw, hP⟩ := Machine.exists_run
    (Machine.restrict_step (M := machine ddr3) step_of_move Apart)
    (.start (s := ({ now := 0, ctrl := .startup ddr3 0 } : DramRun ddr3)) ⟨rfl, rfl⟩) (fiveReads 1)
    (P := fun w => w.ctrl.acts (0 : Fin 1) = [30001, 18001, 12001, 6001, 1]) (by decide)
  exact ⟨w, hw, hP, (dram_timing_kept hw).2.1 (0 : Fin 1) (by decide)⟩

/-- An activate at tick 0 does not count, so five are in one window. -/
theorem five_activates_in_window : ∃ w : DramRun ddr3, (machine ddr3).Reachable w ∧
    w.ctrl.acts (0 : Fin 1) = [24000, 18000, 12000, 6000, 0] ∧
    ¬Spans ddr3.activationLimit ddr3.tXAW (w.ctrl.acts (0 : Fin 1)) := by
  obtain ⟨w, hw, hacts⟩ := Machine.exists_run (M := machine ddr3) step_of_move
    (.start (s := ({ now := 0, ctrl := .startup ddr3 0 } : DramRun ddr3)) ⟨rfl, rfl⟩) (fiveReads 0)
    (P := fun w => w.ctrl.acts (0 : Fin 1) = [24000, 18000, 12000, 6000, 0]) (by decide)
  refine ⟨w, hw, hacts, fun hspans => ?_⟩
  have := hspans 0 24000 0 (by rw [hacts]; rfl) (by rw [hacts]; rfl)
  exact absurd this (by decide)

end DramRun

end Gem5.Mem
