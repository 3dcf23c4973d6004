import Gem5.Ruby.TopologyPaths

namespace Gem5.Ruby

open Lib Lib.SortedMap

namespace Topology

variable {T : Topology}

theorem linkMap_ascending (T : Topology) : Ascending T.linkMap := by
  refine List.foldlRecOn _ _ ?_ (fun links h l _ => h.upsert)
  exact List.foldlRecOn _ _ .nil (fun links h l _ => h.upsert.upsert)

/-- What holds of the entries that the constructor adds holds of every link. -/
theorem linkMap_forall {Q : Nat → Nat → Int → Prop}
    (hin : ∀ l ∈ T.extLinks, Q l.extNode (l.intNode + 2 * T.nodes) l.weight)
    (hout : ∀ l ∈ T.extLinks, Q (l.intNode + 2 * T.nodes) (l.extNode + T.nodes) l.weight)
    (hint : ∀ l ∈ T.intLinks, Q (l.srcNode + 2 * T.nodes) (l.dstNode + 2 * T.nodes) l.weight)
    (h : T.Link i j w) : Q i j w := by
  have hadd : ∀ (links : LinkMap) (src dest : Nat) (weight : Int), Ascending links →
      Q src dest weight → (∀ e ∈ links, Q (ofLex e.1).1 (ofLex e.1).2 e.2) →
      Ascending (addLink links src dest weight) ∧
        ∀ e ∈ addLink links src dest weight, Q (ofLex e.1).1 (ofLex e.1).2 e.2 := by
    intro links src dest weight hasc hq hall
    refine ⟨hasc.upsert, fun e he => ?_⟩
    rcases hasc.mem_upsert he with he | he
    · rw [he]
      exact hq
    · exact hall e he
  have hall : Ascending T.linkMap ∧ ∀ e ∈ T.linkMap, Q (ofLex e.1).1 (ofLex e.1).2 e.2 := by
    refine List.foldlRecOn (motive := fun links : LinkMap => Ascending links ∧
      ∀ e ∈ links, Q (ofLex e.1).1 (ofLex e.1).2 e.2) _ _ ?_ ?_
    · refine List.foldlRecOn (motive := fun links : LinkMap => Ascending links ∧
        ∀ e ∈ links, Q (ofLex e.1).1 (ofLex e.1).2 e.2) _ _ ⟨.nil, nofun⟩ ?_
      intro links hI l hl
      obtain ⟨hasc, hall⟩ := hadd links _ _ _ hI.1 (hin l hl) hI.2
      exact hadd _ _ _ _ hasc (hout l hl) hall
    · intro links hI l hl
      exact hadd links _ _ _ hI.1 (hint l hl) hI.2
  exact hall.2 _ (mem_of_lookup h)

/-- A link leads from a controller to a router, from a router to a controller, or from
a router to a router. -/
theorem Link.shape (h : T.Link i j w) : (i < T.nodes ∧ 2 * T.nodes ≤ j) ∨
      (2 * T.nodes ≤ i ∧ T.nodes ≤ j ∧ (j < 2 * T.nodes ∨ 2 * T.nodes ≤ j)) := by
  have hlt : ∀ l ∈ T.extLinks, l.extNode < T.nodes := T.ext_lt
  refine linkMap_forall (Q := fun i j _ => (i < T.nodes ∧ 2 * T.nodes ≤ j) ∨
    (2 * T.nodes ≤ i ∧ T.nodes ≤ j ∧ (j < 2 * T.nodes ∨ 2 * T.nodes ≤ j))) ?_ ?_ ?_ h
  · intro l hl
    exact .inl ⟨hlt l hl, by omega⟩
  · intro l hl
    exact .inr ⟨by omega, by omega, .inl (by have := hlt l hl; omega)⟩
  · intro l _
    exact .inr ⟨by omega, by omega, .inr (by omega)⟩

/-- The weights are positive, and the sum of any two is an `int`. -/
def Positive (T : Topology) : Prop :=
  (∀ l ∈ T.extLinks, 0 < l.weight ∧ l.weight < 2 ^ 30) ∧
    ∀ l ∈ T.intLinks, 0 < l.weight ∧ l.weight < 2 ^ 30

theorem Link.range (hpos : T.Positive) (h : T.Link i j w) : 0 < w ∧ w < 2 ^ 30 :=
  linkMap_forall (Q := fun _ _ w => 0 < w ∧ w < 2 ^ 30) hpos.1 hpos.1 hpos.2 h

theorem Link.pos (hpos : T.Positive) (h : T.Link i j w) : 0 < w := (h.range hpos).1

theorem Link.self (h : T.Link i i w) : ∃ l ∈ T.intLinks, l.srcNode = l.dstNode := by
  have hlt : ∀ l ∈ T.extLinks, l.extNode < T.nodes := T.ext_lt
  refine linkMap_forall (Q := fun i j _ => i = j → ∃ l ∈ T.intLinks, l.srcNode = l.dstNode)
    ?_ ?_ ?_ h rfl
  · intro l hl heq
    have := hlt l hl
    omega
  · intro l hl heq
    have := hlt l hl
    omega
  · intro l hl heq
    exact ⟨l, hl, by omega⟩

/-- Every internal link is in the map, with its own weight or that of a later one. -/
theorem exists_link (hl : l ∈ T.intLinks) :
    ∃ w, T.Link (l.srcNode + 2 * T.nodes) (l.dstNode + 2 * T.nodes) w := by
  have hfold : ∀ (ls : List IntLink) (links : LinkMap), Ascending links →
      (l ∈ ls ∨ ∃ w, lookup (toLex (l.srcNode + 2 * T.nodes, l.dstNode + 2 * T.nodes)) links =
        some w) →
      ∃ w, lookup (toLex (l.srcNode + 2 * T.nodes, l.dstNode + 2 * T.nodes))
        (ls.foldl (fun links l =>
          addLink links (l.srcNode + 2 * T.nodes) (l.dstNode + 2 * T.nodes) l.weight) links) =
        some w := by
    intro ls
    induction ls with
    | nil =>
      intro links _ h
      exact h.resolve_left (by simp)
    | cons l' ls ih =>
      intro links hasc h
      refine ih _ hasc.upsert ?_
      dsimp only [addLink]
      rw [hasc.lookup_upsert]
      by_cases hkey : toLex (l'.srcNode + 2 * T.nodes, l'.dstNode + 2 * T.nodes) =
          toLex (l.srcNode + 2 * T.nodes, l.dstNode + 2 * T.nodes)
      · exact .inr ⟨l'.weight, if_pos hkey⟩
      rw [if_neg hkey]
      rcases h with hmem | hold
      · rcases List.mem_cons.mp hmem with heq | hmem
        · exact absurd (heq ▸ rfl) hkey
        · exact .inl hmem
      · exact .inr hold
  exact hfold T.intLinks _ (List.foldlRecOn _ _ .nil (fun links h l _ => h.upsert.upsert)) (.inl hl)

theorem Link.lt (h : T.Link i j w) : i < T.numSwitches ∧ j < T.numSwitches := by
  have hmono : ∀ (links : LinkMap) (m : Nat),
      m ≤ links.foldl (fun m e => max (max m (ofLex e.1).1) (ofLex e.1).2) m ∧
      ∀ e ∈ links, (ofLex e.1).1 ≤ links.foldl
        (fun m e => max (max m (ofLex e.1).1) (ofLex e.1).2) m ∧
        (ofLex e.1).2 ≤ links.foldl (fun m e => max (max m (ofLex e.1).1) (ofLex e.1).2) m := by
    intro links
    induction links with
    | nil => exact fun m => ⟨Nat.le_refl m, nofun⟩
    | cons e links ih =>
      intro m
      obtain ⟨hm, hall⟩ := ih (max (max m (ofLex e.1).1) (ofLex e.1).2)
      rw [List.foldl_cons]
      refine ⟨by omega, fun e' he' => ?_⟩
      cases List.mem_cons.mp he' with
      | inl heq =>
        subst heq
        constructor <;> omega
      | inr he' => exact hall e' he'
  have := (hmono T.linkMap 0).2 _ (mem_of_lookup h)
  unfold numSwitches maxSwitchId
  exact ⟨Nat.lt_succ_of_le this.1, Nat.lt_succ_of_le this.2⟩

theorem foldl_set (h : Ascending links) (m : Matrix) (i j : Nat) :
    links.foldl (fun m e => m.set (ofLex e.1).1 (ofLex e.1).2 e.2) m i j =
      (lookup (toLex (i, j)) links).getD (m i j) := by
  induction links generalizing m with
  | nil => rfl
  | cons e links ih =>
    obtain ⟨k, w⟩ := e
    rw [List.foldl_cons, ih h.tail, lookup_cons]
    obtain rfl | hk := eq_or_ne k (toLex (i, j))
    · have hnone : lookup (toLex (i, j)) links = none :=
        lookup_eq_none (fun e he => ((List.pairwise_cons.mp h).1 e he).ne')
      rw [hnone, if_pos rfl]
      simp [Matrix.set]
    rw [if_neg hk]
    congr 1
    unfold Matrix.set
    rw [if_neg]
    intro hij
    exact hk (by rw [hij.1, hij.2]; rfl)

theorem topologyWeights_eq (T : Topology) (i j : Nat) :
    T.topologyWeights i j = (lookup (toLex (i, j)) T.linkMap).getD
      (if i = j then 0 else INFINITE_LATENCY) :=
  foldl_set T.linkMap_ascending _ i j

theorem Link.weight_eq (h : T.Link i j w) : T.topologyWeights i j = w := by
  rw [topologyWeights_eq, h]
  rfl

theorem weight_cases (T : Topology) (i j : Nat) :
    T.Link i j (T.topologyWeights i j) ∨ (i = j ∧ T.topologyWeights i j = 0) ∨
      (i ≠ j ∧ T.topologyWeights i j = INFINITE_LATENCY) := by
  cases hl : lookup (toLex (i, j)) T.linkMap with
  | some w =>
    have hlink : T.Link i j w := hl
    exact .inl (hlink.weight_eq.symm ▸ hlink)
  | none =>
    rw [topologyWeights_eq, hl, Option.getD_none]
    by_cases hij : i = j
    · exact .inr (.inl ⟨hij, if_pos hij⟩)
    · exact .inr (.inr ⟨hij, if_neg hij⟩)

theorem sound_weights (hpos : T.Positive) :
    Sound T.Link T.topologyWeights T.numSwitches T.topologyWeights := by
  have hinf : (0 : Int) < INFINITE_LATENCY ∧ INFINITE_LATENCY < 2 ^ 30 := by decide
  have hrange : ∀ i j, 0 ≤ T.topologyWeights i j ∧ T.topologyWeights i j < 2 ^ 30 := by
    intro i j
    obtain hl | ⟨_, h0⟩ | ⟨_, hi⟩ := T.weight_cases i j
    · exact ⟨(hl.pos hpos).le, (hl.range hpos).2⟩
    · omega
    · omega
  refine ⟨fun i j _ _ => (hrange i j).1, fun i j _ _ => (hrange i j).2, fun i j _ _ => ?_,
    fun i j _ _ => Int.le_rfl, fun i j _ _ hij => ?_⟩
  · obtain hl | ⟨heq, h0⟩ | ⟨_, hi⟩ := T.weight_cases i j
    · exact .inr (.single hl)
    · rw [h0]
      subst heq
      exact .inr (.nil i)
    · exact .inl (Int.le_of_eq hi.symm)
  · obtain hl | ⟨heq, h0⟩ | ⟨_, hi⟩ := T.weight_cases i j
    · exact hl.pos hpos
    · subst heq
      rcases hij with hne | hw
      · exact absurd rfl hne
      · exact hw
    · omega

/-- The least weight is that of a port that leads to the destination, if there is one
below the initial value. -/
theorem minWeight_spec (table : List OutPort) (dest : List Nat) :
    (minWeight table dest = INFINITE_ ∨
      ∃ p ∈ table, p.leadsTo dest = true ∧ p.weight = minWeight table dest) ∧
    ∀ p ∈ table, p.leadsTo dest = true → minWeight table dest ≤ p.weight := by
  have hfold : ∀ (ps : List OutPort) (m : Int),
      let r := ps.foldl (fun m p => if p.leadsTo dest ∧ p.weight ≤ m then p.weight else m) m
      (r = m ∨ ∃ p ∈ ps, p.leadsTo dest = true ∧ p.weight = r) ∧ r ≤ m ∧
        ∀ p ∈ ps, p.leadsTo dest = true → r ≤ p.weight := by
    intro ps
    induction ps with
    | nil => exact fun m => ⟨.inl rfl, Int.le_refl m, nofun⟩
    | cons p ps ih =>
      intro m
      dsimp only
      rw [List.foldl_cons]
      obtain ⟨hval, hle, hall⟩ := ih (if p.leadsTo dest ∧ p.weight ≤ m then p.weight else m)
      have hstep : (if p.leadsTo dest = true ∧ p.weight ≤ m then p.weight else m) ≤ m := by
        split_ifs with h
        · exact h.2
        · exact Int.le_refl m
      refine ⟨?_, hle.trans hstep, fun p' hp' hleads => ?_⟩
      · rcases hval with hval | hval
        · rw [hval]
          split_ifs with h
          · exact .inr ⟨p, .head _, h.1, rfl⟩
          · exact .inl rfl
        · obtain ⟨p', hp', h⟩ := hval
          exact .inr ⟨p', .tail _ hp', h⟩
      · cases List.mem_cons.mp hp' with
        | inl heq =>
          subst heq
          refine hle.trans ?_
          split_ifs with h
          · exact Int.le_rfl
          · have : ¬p'.weight ≤ m := fun hw => h ⟨hleads, hw⟩
            omega
        | inr hp' => exact hall p' hp' hleads
  obtain ⟨hval, _, hall⟩ := hfold table INFINITE_
  exact ⟨hval, hall⟩

/-- `lookupRoutingTable` finds a port, and one that leads to the destination. -/
theorem lookupRoutingTable_spec {table : List OutPort} (hp : p ∈ table)
    (hleads : p.leadsTo dest = true) (hw : p.weight < INFINITE_)
    (vnetOrdered : Bool) (rand : Nat) :
    ∃ q, lookupRoutingTable table vnetOrdered rand dest = some q ∧ q ∈ table ∧
      q.leadsTo dest = true := by
  obtain ⟨hval, hall⟩ := minWeight_spec table dest
  have hmin := hall p hp hleads
  obtain ⟨q, hq, hqleads, hqw⟩ := hval.resolve_left (by omega)
  have hmem : q ∈ outputLinkCandidates table dest :=
    List.mem_filter.mpr ⟨hq, decide_eq_true ⟨hqleads, hqw⟩⟩
  have hlen := List.length_pos_of_mem hmem
  have hidx : (if vnetOrdered then 0 else rand % (outputLinkCandidates table dest).length) <
      (outputLinkCandidates table dest).length := by
    split
    · exact hlen
    · exact Nat.mod_lt _ hlen
  refine ⟨_, List.getElem?_eq_getElem hidx, ?_, ?_⟩
  · exact List.mem_of_mem_filter (List.getElem_mem hidx)
  · exact (of_decide_eq_true (List.mem_filter.mp (List.getElem_mem hidx)).2).1

/-- The distances that `extend_shortest_path` leaves. -/
structure Final (T : Topology) (d : Matrix) : Prop where
  sound : Sound T.Link T.topologyWeights T.numSwitches d
  triangle : ∀ i j k, i < T.numSwitches → j < T.numSwitches → k < T.numSwitches →
    d i j ≤ d i k + d k j

/-- Every shortest distance is below the sentinel. -/
def Bounded (T : Topology) : Prop :=
  ∀ i j, (∃ c, Walk T.Link i j c) → ∃ c < INFINITE_LATENCY, Walk T.Link i j c

theorem Final.le_walk (h : Final T d) (hw : Walk T.Link i j c) (hj : j < T.numSwitches) :
    d i j ≤ c ∨ i = j ∧ c = 0 := by
  refine hw.le_of_closed (P := fun i => i < T.numSwitches) (fun _ _ _ hl => Link.lt hl)
    h.triangle ?_ hj
  intro a b w hl
  have hl : T.Link a b w := hl
  have := h.sound.le a b hl.lt.1 hl.lt.2
  rwa [hl.weight_eq] at this

theorem Final.isDist (h : Final T d) (hbound : T.Bounded) (hi : i < T.numSwitches)
    (hj : j < T.numSwitches)
    (hself : i = j → d i j ≤ 0) (hw : ∃ c, Walk T.Link i j c) : IsDist T.Link i j (d i j) := by
  have hle : ∀ c, Walk T.Link i j c → d i j ≤ c := by
    intro c hc
    rcases h.le_walk hc hj with hle | heq
    · exact hle
    · rw [heq.2]
      exact hself heq.1
  obtain ⟨c, hc, hwalk⟩ := hbound i j hw
  have := hle c hwalk
  exact ⟨(h.sound.walk i j hi hj).resolve_left (by omega), hle⟩

/-- A hop of a packet, where its destination can be reached: the distance goes down. -/
theorem Final.hop (h : Final T d) (hpos : T.Positive) (hbound : T.Bounded)
    {src node : Nat} (hsrc : src < T.numSwitches) (hnode : node < T.nodes)
    (hrouter : 2 * T.nodes ≤ src) (hw : ∃ c, Walk T.Link src (node + T.nodes) c)
    (vnetOrdered : Bool) (rand : Nat) :
    (lookupRoutingTable (T.routingTable d src) vnetOrdered rand [node]).isSome ∧
      ∃ j, T.hop d vnetOrdered node rand src = some j ∧ j < T.numSwitches ∧
        d j (node + T.nodes) < d src (node + T.nodes) ∧
        (∃ c, Walk T.Link j (node + T.nodes) c) ∧ (j = node + T.nodes ∨ 2 * T.nodes ≤ j) := by
  have hfinal : node + T.nodes < T.numSwitches := by omega
  have hne : src ≠ node + T.nodes := by omega
  have hdist := h.isDist hbound hsrc hfinal (fun heq => absurd heq hne) hw
  have hlt : d src (node + T.nodes) < INFINITE_LATENCY := by
    obtain ⟨c, hc, hwalk⟩ := hbound _ _ hw
    exact (hdist.2 c hwalk).trans_lt hc
  -- the first link of a shortest walk has a port that leads to the destination
  obtain ⟨k, w, hlink, hrest⟩ := hdist.exists_link hne
  have hwpos := hlink.pos hpos
  have hk := hlink.lt.2
  have hrest0 := hrest.1.nonneg (fun _ _ _ hl => hl.pos hpos)
  have hdk : w + d k (node + T.nodes) = d src (node + T.nodes) := by
    have hself : k = node + T.nodes → d k (node + T.nodes) ≤ 0 := by
      intro heq
      subst heq
      obtain hl | ⟨_, h0⟩ | ⟨hne, _⟩ := T.weight_cases (node + T.nodes) (node + T.nodes)
      · have := hl.shape
        omega
      · exact h0 ▸ h.sound.le _ _ hk hk
      · exact absurd rfl hne
    have := (h.isDist hbound hk hfinal hself ⟨_, hrest.1⟩).unique hrest
    omega
  have hplus : ∀ j < T.numSwitches, plus (T.topologyWeights src j) (d j (node + T.nodes)) =
      T.topologyWeights src j + d j (node + T.nodes) := fun j hj => plus_eq
    ⟨(sound_weights hpos).nonneg src j hsrc hj, (sound_weights hpos).small src j hsrc hj⟩
    ⟨h.sound.nonneg j _ hj hfinal, h.sound.small j _ hj hfinal⟩
  have hport : ∀ j < T.numSwitches,
      T.topologyWeights src j + d j (node + T.nodes) = d src (node + T.nodes) →
      (OutPort.mk j (T.shortestPathToNode d src j) (T.topologyWeights src j)).leadsTo [node] =
        true := by
    intro j hjn hj
    have : node ∈ T.shortestPathToNode d src j :=
      List.mem_filter.mpr ⟨List.mem_range.mpr hnode, decide_eq_true ((hplus j hjn).trans hj)⟩
    simpa [OutPort.leadsTo] using this
  have hweight := hlink.weight_eq
  have hmem : OutPort.mk k (T.shortestPathToNode d src k) (T.topologyWeights src k) ∈
      T.routingTable d src := by
    refine List.mem_filterMap.mpr ⟨k, List.mem_range.mpr hk, if_pos ⟨?_, ?_⟩⟩
    · omega
    · omega
  have hinf : INFINITE_ = INFINITE_LATENCY := rfl
  obtain ⟨q, hq, hqmem, hqleads⟩ := lookupRoutingTable_spec hmem (hport k hk (by omega))
    (by dsimp only; omega) vnetOrdered rand
  refine ⟨by rw [hq]; rfl, q.next, by rw [Topology.hop, if_pos hrouter, hq]; rfl, ?_⟩
  -- what the chosen port is
  obtain ⟨j, hj, hqj⟩ := List.mem_filterMap.mp hqmem
  dsimp only at hqj
  split_ifs at hqj with hmade
  cases hqj
  have hj := List.mem_range.mp hj
  have hsum : T.topologyWeights src j + d j (node + T.nodes) = d src (node + T.nodes) := by
    have : node ∈ T.shortestPathToNode d src j := by simpa [OutPort.leadsTo] using hqleads
    exact (hplus j hj).symm.trans (of_decide_eq_true (List.mem_filter.mp this).2)
  have hlinkj : T.Link src j (T.topologyWeights src j) := by
    obtain hl | ⟨_, h0⟩ | ⟨_, hinf⟩ := T.weight_cases src j
    · exact hl
    · omega
    · exact absurd hinf hmade.2
  have hwalk : Walk T.Link j (node + T.nodes) (d j (node + T.nodes)) :=
    (h.sound.walk j _ hj hfinal).resolve_left (by omega)
  refine ⟨hj, by dsimp only; omega, ⟨_, hwalk⟩, ?_⟩
  by_cases heq : j = node + T.nodes
  · exact .inl heq
  · -- a switch with a way on is not the end of a link out of the network
    obtain ⟨_, _, hl⟩ := hwalk.exists_link heq
    have := hl.shape
    have := hlinkj.shape
    exact .inr (by dsimp only; omega)

theorem Final.travel {d : Matrix} (h : Final T d) (hpos : T.Positive) (hbound : T.Bounded)
    {node : Nat} (hnode : node < T.nodes) (vnetOrdered : Bool) {n : Nat} {rand : Nat → Nat}
    {src : Nat} (hsrc : src < T.numSwitches) (hrouter : 2 * T.nodes ≤ src)
    (hw : ∃ c, Walk T.Link src (node + T.nodes) c)
    (hn : d src (node + T.nodes) ≤ n) :
    ∃ hops, T.travel d vnetOrdered node rand hops src = some (node + T.nodes) ∧
      ∀ m < hops, ∃ s s', T.travel d vnetOrdered node rand m src = some s ∧
        T.travel d vnetOrdered node rand (m + 1) src = some s' ∧
        d s' (node + T.nodes) < d s (node + T.nodes) := by
  have hfinal : node + T.nodes < T.numSwitches := by omega
  induction n generalizing src rand with
  | zero =>
    have := h.sound.pos src (node + T.nodes) hsrc hfinal (.inl (by omega))
    omega
  | succ n ih =>
    obtain ⟨_, j, hhop, hj, hlt, hwj, hend⟩ :=
      h.hop hpos hbound hsrc hnode hrouter hw vnetOrdered (rand 0)
    have hfirst : T.travel d vnetOrdered node rand 1 src = some j := by
      rw [Topology.travel, hhop]
      rfl
    rcases hend with rfl | hrouterj
    · refine ⟨1, hfirst, fun m hm => ?_⟩
      obtain rfl : m = 0 := by omega
      exact ⟨src, _, rfl, hfirst, hlt⟩
    · obtain ⟨hops, harrive, hdown⟩ :=
        @ih (fun k => rand (k + 1)) j hj hrouterj hwj (by omega)
      have hshift : ∀ m, T.travel d vnetOrdered node rand (m + 1) src =
          T.travel d vnetOrdered node (fun k => rand (k + 1)) m j := by
        intro m
        rw [Topology.travel, hhop]
        rfl
      refine ⟨hops + 1, (hshift hops).trans harrive, fun m hm => ?_⟩
      cases m with
      | zero => exact ⟨src, j, rfl, hfirst, hlt⟩
      | succ m =>
        rw [hshift, hshift]
        exact hdown m (by omega)

/-- Table routing is right: the loop ends with the least weights of the paths; from every
router a packet for a controller that can be reached gets there, whatever the random
choices, with every hop nearer to it; and no lookup is fatal. -/
def RoutesWell (T : Topology) : Prop :=
  ∀ latencies, ∃ fuel p, T.shortestPath latencies fuel = some p ∧
    (∀ i j, i < T.numSwitches → j < T.numSwitches → (∃ c, Walk T.Link i j c) →
      IsDist T.Link i j (p.dist i j)) ∧
    ∀ src node, src < T.numSwitches → 2 * T.nodes ≤ src → node < T.nodes →
      (∃ c, Walk T.Link src (node + T.nodes) c) → ∀ vnetOrdered,
      (∀ rand, (lookupRoutingTable (T.routingTable p.dist src) vnetOrdered rand [node]).isSome) ∧
      ∀ rand : Nat → Nat, ∃ hops,
        T.travel p.dist vnetOrdered node rand hops src = some (node + T.nodes) ∧
        ∀ m < hops, ∃ s s', T.travel p.dist vnetOrdered node rand m src = some s ∧
          T.travel p.dist vnetOrdered node rand (m + 1) src = some s' ∧
          p.dist s' (node + T.nodes) < p.dist s (node + T.nodes)

/-- Table routing is right exactly if no router has a link to itself. -/
theorem routesWell_iff (hpos : T.Positive) (hbound : T.Bounded) :
    T.RoutesWell ↔ ∀ l ∈ T.intLinks, l.srcNode ≠ l.dstNode := by
  constructor
  · intro hwell l hl hself
    obtain ⟨fuel, p, hrun, hdist, _⟩ := hwell (fun _ _ => 0)
    obtain ⟨w, hlink⟩ := exists_link hl
    rw [← hself] at hlink
    have hlt := hlink.lt.1
    have hsound := (sound_weights hpos).extendShortestPath hrun
    have hwpos : 0 < T.topologyWeights _ _ := hlink.weight_eq ▸ hlink.pos hpos
    have hdpos := hsound.pos _ _ hlt hlt (.inr hwpos)
    have := (hdist _ _ hlt hlt ⟨0, .nil _⟩).2 0 (.nil _)
    omega
  intro hself latencies
  obtain ⟨p, hrun, hsound, htri⟩ := extendShortestPath_spec (n := T.numSwitches)
    (p := ⟨T.topologyWeights, latencies, fun _ _ => 0⟩) (sound_weights hpos) (lt_add_one _)
  have hp : Final T p.dist := ⟨hsound, htri⟩
  refine ⟨_, p, hrun, fun i j hi hj hw => ?_, ?_⟩
  · refine hp.isDist hbound hi hj (fun heq => ?_) hw
    subst heq
    obtain hl | ⟨_, h0⟩ | ⟨hne, _⟩ := T.weight_cases i i
    · obtain ⟨l, hl, heq⟩ := hl.self
      exact absurd heq (hself l hl)
    · exact h0 ▸ hp.sound.le i i hi hi
    · exact absurd rfl hne
  · intro src node hsrc hrouter hnode hw vnetOrdered
    refine ⟨fun rand => (hp.hop hpos hbound hsrc hnode hrouter hw vnetOrdered rand).1, ?_⟩
    intro rand
    refine hp.travel hpos hbound hnode vnetOrdered hsrc hrouter hw
      (n := (p.dist src (node + T.nodes)).toNat) ?_
    exact Int.self_le_toNat _

/-- Two controllers at one router, which may have a link to itself. -/
def star (loop : Bool) : Topology where
  extLinks := [⟨0, 0, 1⟩, ⟨1, 0, 1⟩]
  intLinks := if loop then [⟨0, 0, 1⟩] else []
  nodes_gt := by decide
  ext_lt := by decide

theorem star_positive (loop : Bool) : (star loop).Positive := by
  unfold Positive
  cases loop <;> decide

theorem star_link {loop : Bool} (h : (star loop).Link i j w) :
    w = 1 ∧ (i < 2 ∧ j = 4 ∨ i = 4 ∧ (j = 4 ∨ 2 ≤ j ∧ j < 4)) := by
  refine linkMap_forall
    (Q := fun i j w => w = 1 ∧ (i < 2 ∧ j = 4 ∨ i = 4 ∧ (j = 4 ∨ 2 ≤ j ∧ j < 4)))
    ?_ ?_ ?_ h <;> cases loop <;> decide

theorem star_bounded (loop : Bool) : (star loop).Bounded := by
  have hshort : ∀ i j c, Walk (star loop).Link i j c →
      ∃ c' ≤ (if i < 2 then 2 else 1 : Int), Walk (star loop).Link i j c' := by
    intro i j c h
    induction h with
    | nil i => exact ⟨0, by split <;> decide, .nil i⟩
    | @cons i j k w c hl rest ih =>
      obtain ⟨c', hc', hw⟩ := ih
      obtain ⟨rfl, hi | hi⟩ := star_link hl
      · -- from a controller to the router, and on
        obtain ⟨hi, rfl⟩ := hi
        refine ⟨1 + c', ?_, .cons hl hw⟩
        rw [if_pos hi]
        rw [if_neg (by decide)] at hc'
        omega
      obtain ⟨rfl, rfl | hk⟩ := hi
      · exact ⟨c', hc', hw⟩
      -- the way ends where a link leaves the network
      have hend : k = j := by
        by_contra hne
        obtain ⟨_, _, hl'⟩ := rest.exists_link hne
        have := (star_link hl').2
        omega
      subst hend
      exact ⟨1, by decide, .single hl⟩
  intro i j h
  obtain ⟨c, hc⟩ := h
  obtain ⟨c', hc', hw⟩ := hshort i j c hc
  refine ⟨c', lt_of_le_of_lt hc' ?_, hw⟩
  split <;> decide

theorem star_routesWell : (star false).RoutesWell :=
  (routesWell_iff (star_positive false) (star_bounded false)).mpr (by decide)

/-- The weight of the link to itself takes the place of the zero on the diagonal, so the
router has a positive distance to itself. -/
theorem self_link_distance :
    (star true).Positive ∧ (star true).Bounded ∧ ¬(star true).RoutesWell := by
  refine ⟨star_positive true, star_bounded true, fun hwell => ?_⟩
  obtain ⟨fuel, p, hrun, hdist, _⟩ := hwell (fun _ _ => 0)
  have hsound := (sound_weights (star_positive true)).extendShortestPath hrun
  have hlt : 4 < (star true).numSwitches := by decide
  have hpos := hsound.pos 4 4 hlt hlt (.inr (by decide))
  have := (hdist 4 4 hlt hlt ⟨0, .nil 4⟩).2 0 (.nil 4)
  omega

/-- Links to a router itself and pairs that are too far apart do no harm to others: the loop ends,
and between two switches it has the least weight of the paths if that, or a path, is below the
sentinel. -/
theorem near_switches_exact (hpos : T.Positive) (latencies : Matrix) :
    ∃ fuel p, T.shortestPath latencies fuel = some p ∧
      ∀ i j, i < T.numSwitches → j < T.numSwitches → i ≠ j →
        (p.dist i j < INFINITE_LATENCY ∨ ∃ c < INFINITE_LATENCY, Walk T.Link i j c) →
        IsDist T.Link i j (p.dist i j) := by
  obtain ⟨p, hrun, hsound, htri⟩ := extendShortestPath_spec (n := T.numSwitches)
    (p := ⟨T.topologyWeights, latencies, fun _ _ => 0⟩) (sound_weights hpos) (lt_add_one _)
  refine ⟨_, p, hrun, fun i j hi hj hne hnear => ?_⟩
  have hle : ∀ c, Walk T.Link i j c → p.dist i j ≤ c :=
    fun c hc => (Final.le_walk ⟨hsound, htri⟩ hc hj).resolve_right (fun heq => hne heq.1)
  have hlt : p.dist i j < INFINITE_LATENCY := by
    rcases hnear with hlt | ⟨c, hlt, hc⟩
    · exact hlt
    · exact (hle c hc).trans_lt hlt
  exact ⟨(hsound.walk i j hi hj).resolve_left (not_le.mpr hlt), hle⟩

theorem near_switches_exact_star : ∃ fuel p, (star true).shortestPath (fun _ _ => 0) fuel = some p ∧
    IsDist (star true).Link 0 4 (p.dist 0 4) := by
  obtain ⟨fuel, p, hrun, hdist⟩ := near_switches_exact (star_positive true) (fun _ _ => 0)
  exact ⟨fuel, p, hrun,
    hdist 0 4 (by decide) (by decide) (by decide) (.inr ⟨1, by decide, .single rfl⟩)⟩

end Topology

end Gem5.Ruby
