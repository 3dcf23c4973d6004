import Gem5.Base.TrieShape
import Gem5.Lib.Outcome

namespace Gem5.Base.Trie

open Lib List Option Context Trie.Tree Heap

variable {w : Nat} {V : Type} {key ks : BitVec w} {par : Option Nat} {h : Nodes w V}

theorem deref_of_get (hp : h.get p = some n) : deref h p = .ok n := by
  simp [deref, hp]

/-- The key lies in the part of the trie below this node. -/
def Tree.Matches (t : Tree w V) (key : BitVec w) : Prop :=
  ∃ k n, t.info = some (k, n) ∧ Agree k key n

/-- A new node of the given length goes below this node. -/
def Tree.Enters (t : Tree w V) (key : BitVec w) (len : Nat) : Prop :=
  ∃ k n, t.info = some (k, n) ∧ Agree k key n ∧ n ≤ len

theorem cell_matches {key test : BitVec w} {parent kid0 kid1 : Option Nat} (hlen : len ≤ w)
    (hk : key &&& prefixMask w len = key) :
    (cell key len value parent kid0 kid1).matches test = true ↔ Agree key test len := by
  rw [← and_prefixMask_eq_iff hlen, hk, Node.matches, beq_iff_eq]
  exact eq_comm

variable {t : Tree w V} {len : Nat}

theorem goesAfter_spec (key : BitVec w) (hr : t.Rep h par) (hw : t.Wf) (hlen : len ≤ w) :
    ∃ b, goesAfter h t.root key (prefixMask w len) = .ok b ∧ (b = true ↔ t.Enters key len) := by
  cases t with
  | nil =>
    refine ⟨false, rfl, ?_⟩
    simp [Enters, info]
  | node p k n v l r =>
    obtain ⟨hp, _, _⟩ := hr
    obtain ⟨hloc, _, _⟩ := hw
    have hmask : prefixMask w n &&& prefixMask w len = prefixMask w n ↔ n ≤ len := by
      rw [prefixMask_and_prefixMask hloc.bound hlen, prefixMask_inj (by omega) hloc.bound]
      omega
    refine ⟨(cell k n v par l.root r.root).matches key &&
      (prefixMask w n &&& prefixMask w len == prefixMask w n), ?_, ?_⟩
    · simp only [goesAfter, root, deref_of_get hp, ok_bind, pure_eq_ok]
      rfl
    rw [Bool.and_eq_true, cell_matches hloc.bound hloc.masked, beq_iff_eq, hmask]
    simp only [Enters, info, Option.some.injEq, Prod.mk.injEq]
    constructor
    · exact fun hh => ⟨k, n, ⟨rfl, rfl⟩, hh⟩
    · rintro ⟨_, _, ⟨rfl, rfl⟩, hh⟩
      exact hh

theorem Tree.exists_root (h : t.Enters key len) : ∃ p k n v l r, t = .node p k n v l r := by
  cases t with
  | nil =>
    obtain ⟨_, _, hi, _⟩ := h
    cases hi
  | node p k n v l r => exact ⟨p, k, n, v, l, r, rfl⟩

/-- The walk of `insert` ends at a node that the new one belongs to, none of
whose kids it goes below. -/
theorem walk_spec (hlen : len ≤ w) {p : Nat} {fuel : Nat} (hr : t.Rep h par) (hw : t.Wf)
    (he : t.Enters key len) (hp : t.root = some p) (hf : t.nodes.length ≤ fuel) :
    ∃ c p' k n v l r, t = plug c (.node p' k n v l r) ∧
      walk h key (prefixMask w len) fuel p = .ok p' ∧ Agree k key n ∧ n ≤ len ∧
      ¬l.Enters key len ∧ ¬r.Enters key len := by
  induction t generalizing p par fuel with
  | nil => cases hp
  | node q k n v l r ihl ihr =>
    obtain rfl := some.inj hp
    obtain ⟨hq, hrl, hrr⟩ := hr
    obtain ⟨hloc, hwl, hwr⟩ := hw
    obtain ⟨b₀, hb₀, he₀⟩ := goesAfter_spec key hrl hwl hlen
    obtain ⟨b₁, hb₁, he₁⟩ := goesAfter_spec key hrr hwr hlen
    have hnodes : l.nodes.length + r.nodes.length + 1 ≤ fuel := by
      simpa [Tree.nodes] using hf
    obtain ⟨fuel, rfl⟩ : ∃ m, fuel = m + 1 := ⟨fuel - 1, by omega⟩
    have hkid0 : (cell k n v par l.root r.root).kid0 = l.root := rfl
    have hkid1 : (cell k n v par l.root r.root).kid1 = r.root := rfl
    cases b₀ with
    | true =>
      obtain ⟨pl, kl, nl, vl, ll, rl, rfl⟩ := exists_root (he₀.mp rfl)
      obtain ⟨c, p', k', n', v', l', r', heq, hwalk, hres⟩ :=
        ihl hrl hwl (he₀.mp rfl) rfl (show _ ≤ fuel by omega)
      refine ⟨c ++ [⟨q, k, n, v, false, r⟩], p', k', n', v', l', r', ?_, ?_, hres⟩
      · rw [plug_append, ← heq]
        rfl
      · simp only [walk, deref_of_get hq, hkid0, hb₀, ok_bind, if_true]
        exact hwalk
    | false =>
      cases b₁ with
      | true =>
        obtain ⟨pr, kr, nr, vr, lr, rr, rfl⟩ := exists_root (he₁.mp rfl)
        obtain ⟨c, p', k', n', v', l', r', heq, hwalk, hres⟩ :=
          ihr hrr hwr (he₁.mp rfl) rfl (show _ ≤ fuel by omega)
        refine ⟨c ++ [⟨q, k, n, v, true, l⟩], p', k', n', v', l', r', ?_, ?_, hres⟩
        · rw [plug_append, ← heq]
          rfl
        · simp only [walk, deref_of_get hq, hkid0, hkid1, hb₀, hb₁, ok_bind, if_true,
            Bool.false_eq_true, if_false]
          exact hwalk
      | false =>
        obtain ⟨k', n', hi, hagree, hle⟩ := he
        obtain ⟨rfl, rfl⟩ := Prod.mk.inj (some.inj hi)
        refine ⟨[], q, k, n, v, l, r, rfl, ?_, hagree, hle, ?_, ?_⟩
        · simp [walk, deref_of_get hq, hkid0, hkid1, hb₀, hb₁]
        · exact fun hl => Bool.false_ne_true (he₀.mpr hl)
        · exact fun hr => Bool.false_ne_true (he₁.mpr hr)

/-- The inner loop of `insert` finds how far the key and the kid go together, up
to the length of the new node. -/
theorem legMask_spec {key kidKey : BitVec w} (hlen : len ≤ w) (hn : n ≤ len)
    (ha : Agree key kidKey n) (hf : len - n < fuel) :
    ∃ c, legMask key (prefixMask w len) kidKey fuel (prefixMask w n) = .ok (prefixMask w c) ∧
      n ≤ c ∧ c ≤ len ∧ Agree key kidKey c ∧
      (c = len ∨ key.getMsbD c ≠ kidKey.getMsbD c) := by
  induction fuel generalizing n with
  | zero => omega
  | succ fuel ih =>
    unfold legMask
    obtain rfl | hend := eq_or_ne n len
    · exact ⟨n, by simp, le_rfl, le_rfl, ha, .inl rfl⟩
    have hlt : n < w := by omega
    have hext : extendMask (prefixMask w n) = prefixMask w (n + 1) := prefixMask_succ hlt
    have hneq : (prefixMask w n == prefixMask w len) = false := by
      simpa [prefixMask_inj hlt.le hlen] using hend
    by_cases hbit : key.getMsbD n = kidKey.getMsbD n
    · have hsame : key &&& prefixMask w (n + 1) = kidKey &&& prefixMask w (n + 1) :=
        (and_prefixMask_eq_iff hlt).mpr (ha.succ hbit)
      obtain ⟨c, hc, hnc, hres⟩ := ih (by omega) (ha.succ hbit) (by omega)
      refine ⟨c, ?_, by omega, hres⟩
      simp only [hext, hsame, bne_self_eq_false, hneq, Bool.or_self, Bool.false_eq_true, if_false]
      exact hc
    · refine ⟨n, ?_, le_rfl, hn, ha, .inr hbit⟩
      have hdiff : key &&& prefixMask w (n + 1) ≠ kidKey &&& prefixMask w (n + 1) := by
        rw [Ne, and_prefixMask_eq_iff hlt]
        exact fun hag => hbit (hag n (by omega))
      simp [hext, hdiff]

def leafNode (p : Nat) (key : BitVec w) (len : Nat) (val : V) : Tree w V :=
  .node p key len (some val) .nil .nil

/-- What `insert` puts in the place of the kid `s` when the key leaves it after
`c` bits: the new node itself, or a node without value above the two. -/
def splitLeg (a b : Nat) (key : BitVec w) (c len : Nat) (val : V) (s : Tree w V) : Tree w V :=
  if c = len then .node a key len (some val) s .nil
  else .node a (key &&& prefixMask w c) c none s (leafNode b key len val)

/-- What is the same after nodes were added below `node`, next to its kid `s`. -/
structure Grown (h h' : Nodes w V) (node : Nat) (s : Tree w V) : Prop where
  size : h.size ≤ h'.size
  bounded : h'.Bounded
  frame : ∀ q, q < h.size → q ≠ node → s.root ≠ some q → h'.get q = h.get q

theorem frameCell_kid (f : Frame w V) (par link : Option Nat) :
    (frameCell f par link).kid f.side = link := by
  unfold frameCell
  cases f.side <;> rfl

theorem frameCell_setKid (f : Frame w V) (par link link' : Option Nat) :
    (frameCell f par link).setKid f.side link' = frameCell f par link' := by
  unfold frameCell
  cases f.side <;> rfl

theorem frameCell_mask (f : Frame w V) (par link : Option Nat) :
    (frameCell f par link).mask = prefixMask w f.len := by
  unfold frameCell
  cases f.side <;> rfl

theorem insertLeg_nil (val : V) (hr : (f.fill .nil).Rep h par) (hb : h.Bounded)
    (hd : Distinct f (.nil : Tree w V)) (hk : key &&& prefixMask w len = key) :
    ∃ h', insertLeg h f.p key (prefixMask w len) val f.side = .ok (some (h', h.size)) ∧
      (f.fill (leafNode h.size key len val)).Rep h' par ∧ Grown h h' f.p .nil := by
  obtain ⟨hp, hsib, _⟩ := fill_rep.mp hr
  have hsize : f.p ≠ h.size := (hb _ _ hp).ne
  refine ⟨(h.alloc (cell key len (some val) (some f.p) none none)).set f.p
    (frameCell f par (some h.size)), ?_, ?_, ?_⟩
  · simp only [insertLeg, deref_of_get hp, frameCell_kid, root, frameCell_setKid, ok_bind,
      pure_eq_ok, Node.make, hk]
    rfl
  · rw [fill_rep]
    refine ⟨get_set_self _ _ _, hsib.frame ?_, ?_, trivial, trivial⟩
    · intro q hq
      have hqp : q ≠ f.p := fun heq => hd.sib (heq ▸ hq)
      rw [get_set_ne _ _ hqp, get_alloc_ne _ _ (hsib.lt_size hb hq).ne]
    · rw [get_set_ne _ _ hsize.symm]
      exact get_alloc_self _ _
  · refine ⟨Nat.le_succ _, ?_, ?_⟩
    · refine (hb.alloc _).set (a := frameCell f par none) ?_ _
      rw [get_alloc_ne _ _ hsize]
      exact hp
    · intro q hq hne _
      rw [get_set_ne _ _ hne, get_alloc_ne _ _ hq.ne]

/-- The parent pointer of a tree is all that its root's cell changes in. -/
theorem Tree.Rep.reparent {h h' : Nodes w V} {q : Nat} {k : BitVec w} {n : Nat} {v : Option V}
    {l r : Tree w V} {par par' : Option Nat} (hr : (node q k n v l r).Rep h par)
    (hq : h'.get q = some (cell k n v par' l.root r.root))
    (hf : ∀ x ∈ l.ptrs ++ r.ptrs, h'.get x = h.get x) :
    (node q k n v l r).Rep h' par' :=
  ⟨hq, hr.2.1.frame (fun x hx => hf x (by simp [hx])),
    hr.2.2.frame (fun x hx => hf x (by simp [hx]))⟩

/-- A new node with the cell `m` stands between a frame and its kid `s`. Whatever is done at new
addresses afterwards, the rest of the tree is in place. -/
structure Above (h h₁ : Nodes w V) (f : Frame w V) (par : Option Nat) (s : Tree w V)
    (m : Node w V) : Prop where
  size : h₁.size = h.size + 1
  bounded : h₁.Bounded
  new : h₁.get h.size = some m
  rest : ∀ h₂ : Nodes w V, (∀ x < h.size, h₂.get x = h₁.get x) →
    h₂.get f.p = some (frameCell f par (some h.size)) ∧ f.sib.Rep h₂ (some f.p) ∧
      s.Rep h₂ (some h.size)
  frame : ∀ x < h.size, x ≠ f.p → s.root ≠ some x → h₁.get x = h.get x

theorem Above.grown (ha : Above h h₁ f par s m) (hsize : h₁.size ≤ h₂.size) (hb : h₂.Bounded)
    (hkeep : ∀ x < h.size, h₂.get x = h₁.get x) : Grown h h₂ f.p s :=
  ⟨(ha.size ▸ Nat.le_succ _ : h.size ≤ h₁.size).trans hsize, hb,
    fun x hx hxp hxs => (hkeep x hx).trans (ha.frame x hx hxp hxs)⟩

section

variable {f : Frame w V} {q : Nat} {ns : Nat} {vs : Option V} {ls rs : Tree w V}
  (hr : (f.fill (.node q ks ns vs ls rs)).Rep h par) (hb : h.Bounded)
  (hd : Distinct f (.node q ks ns vs ls rs)) (hnd : (node q ks ns vs ls rs).ptrs.Nodup)
include hr hb hd hnd

theorem splitAbove_spec (key : BitVec w) (c : Nat) :
    Above h (splitAbove h f.p (frameCell f par (some q)) f.side q
        (cell ks ns vs (some f.p) ls.root rs.root) key (prefixMask w c)) f par
      (.node q ks ns vs ls rs)
      (cell (key &&& prefixMask w c) c none (some f.p) (some q) none) := by
  obtain ⟨hp, hsib, hs⟩ := fill_rep.mp hr
  obtain ⟨hq, hls, hrs⟩ := hs
  have hpq : f.p ≠ q := fun heq => hd.kid (by rw [ptrs_node]; simp [heq])
  have hpn : f.p ≠ h.size := (hb _ _ hp).ne
  have hqn : q ≠ h.size := (hb _ _ hq).ne
  rw [splitAbove, frameCell_setKid]
  have hother : ∀ (m k p : Node w V), ∀ x < h.size, x ≠ f.p → x ≠ q →
      (((h.alloc m).set q k).set f.p p).get x = h.get x := by
    intro m k p x hx hxp hxq
    rw [get_set_ne _ _ hxp, get_set_ne _ _ hxq, get_alloc_ne _ _ hx.ne]
  refine ⟨rfl, ?_, ?_, fun h₂ hkeep => ⟨?_, hsib.frame (fun x hx => ?_),
    Tree.Rep.reparent ⟨hq, hls, hrs⟩ ?_ (fun x hx => ?_)⟩,
    fun x hx hxp hxq => hother _ _ _ x hx hxp (fun heq => hxq (by rw [heq, root_node]))⟩
  · have hq' : ∀ m, (h.alloc m).get q = some _ := fun m => (get_alloc_ne _ _ hqn).trans hq
    have hp' : ∀ m k, ((h.alloc m).set q k).get f.p = some _ := fun m k =>
      (get_set_ne _ _ hpq).trans ((get_alloc_ne _ _ hpn).trans hp)
    exact ((hb.alloc _).set (hq' _) _).set (hp' _ _) _
  · rw [get_set_ne _ _ hpn.symm, get_set_ne _ _ hqn.symm, get_alloc_self]
    rfl
  · rw [hkeep f.p (hb _ _ hp), get_set_self]
  · have hxlt := hsib.lt_size hb hx
    rw [hkeep x hxlt, hother _ _ _ x hxlt (fun heq => hd.sib (heq ▸ hx))]
    rintro rfl
    exact hd.apart x hx (by rw [ptrs_node]; simp)
  · rw [hkeep q (hb _ _ hq), get_set_ne _ _ hpq.symm, get_set_self]
    rfl
  · rw [ptrs_node] at hnd
    have hxlt : x < h.size := (mem_append.mp hx).elim (hls.lt_size hb ·) (hrs.lt_size hb ·)
    rw [hkeep x hxlt, hother _ _ _ x hxlt (fun heq => hd.kid ?_)
      (fun heq => (nodup_cons.mp hnd).1 (heq ▸ hx))]
    rw [ptrs_node, ← heq]
    exact .tail _ hx

/-- An existing kid: it is skipped if the key leaves it at once, and otherwise
split where the key leaves it. -/
theorem insertLeg_node {len : Nat} (val : V) (hk : key &&& prefixMask w len = key)
    (hlen : len ≤ w) (hf : f.len < len) (ha : Agree key ks f.len) :
    ∃ c, f.len ≤ c ∧ c ≤ len ∧ Agree key ks c ∧ (c = len ∨ key.getMsbD c ≠ ks.getMsbD c) ∧
      ((c = f.len ∧ insertLeg h f.p key (prefixMask w len) val f.side = .ok none) ∨
        (f.len < c ∧ ∃ h', insertLeg h f.p key (prefixMask w len) val f.side =
            .ok (some (h', if c = len then h.size else h.size + 1)) ∧
          (f.fill (splitLeg h.size (h.size + 1) key c len val
            (.node q ks ns vs ls rs))).Rep h' par ∧
          Grown h h' f.p (.node q ks ns vs ls rs))) := by
  have hp := (fill_rep.mp hr).1
  have hq := (fill_rep.mp hr).2.2.1
  obtain ⟨c, hleg, hfc, hcl, hac, hend⟩ :=
    legMask_spec hlen hf.le ha (show len - f.len < w + 1 by omega)
  refine ⟨c, hfc, hcl, hac, hend, ?_⟩
  have hkey : (cell ks ns vs (some f.p) ls.root rs.root : Node w V).key = ks := rfl
  by_cases hcf : c = f.len
  · refine .inl ⟨hcf, ?_⟩
    subst hcf
    simp [insertLeg, deref_of_get hp, frameCell_kid, frameCell_mask, deref_of_get hq, hkey, hleg]
  refine .inr ⟨by omega, ?_⟩
  have hne : (prefixMask w c == prefixMask w f.len) = false := by
    simpa [prefixMask_inj (hcl.trans hlen) (hf.le.trans hlen)] using hcf
  have habove := splitAbove_spec hr hb hd hnd key c
  generalize hh₁ : splitAbove h f.p (frameCell f par (some q)) f.side q
    (cell ks ns vs (some f.p) ls.root rs.root) key (prefixMask w c) = h₁ at habove
  let m : Node w V := cell (key &&& prefixMask w c) c none (some f.p) (some q) none
  have hrun : insertLeg h f.p key (prefixMask w len) val f.side =
      if prefixMask w c == prefixMask w len then
        .ok (some (h₁.set h.size { m with value := some val }, h.size))
      else .ok (some ((h₁.alloc (cell key len (some val) (some h.size) none none)).set h.size
        { m with kid1 := some h₁.size }, h₁.size)) := by
    simp only [insertLeg, deref_of_get hp, frameCell_kid, root_node, deref_of_get hq, hkey,
      frameCell_mask, hleg, hne, hh₁, deref_of_get habove.new, ok_bind, pure_eq_ok,
      Bool.false_eq_true, if_false, Node.make, hk]
    rfl
  rw [hrun]
  by_cases hcl' : c = len
  · subst hcl'
    have hkeep : ∀ x < h.size, (h₁.set h.size { m with value := some val }).get x = h₁.get x :=
      fun x hx => get_set_ne _ _ hx.ne
    obtain ⟨hfp, hfs, hfq⟩ := habove.rest _ hkeep
    refine ⟨h₁.set h.size { m with value := some val }, by simp, ?_,
      habove.grown le_rfl (habove.bounded.set habove.new _) hkeep⟩
    rw [fill_rep, splitLeg, if_pos rfl]
    refine ⟨hfp, hfs, ?_, hfq, trivial⟩
    rw [get_set_self]
    simp [m, cell, hk, root]
  have hneq : prefixMask w c ≠ prefixMask w len :=
    (prefixMask_inj (hcl.trans hlen) hlen).not.mpr hcl'
  have hsize := habove.size
  let h₂ := (h₁.alloc (cell key len (some val) (some h.size) none none)).set h.size
    { m with kid1 := some h₁.size }
  have hkeep : ∀ x < h.size, h₂.get x = h₁.get x := by
    intro x hx
    rw [get_set_ne _ _ hx.ne, get_alloc_ne _ _ (by omega)]
  have hnew : (h₁.alloc (cell key len (some val) (some h.size) none none)).get h.size = some m := by
    rw [get_alloc_ne _ _ (by omega), habove.new]
  obtain ⟨hfp, hfs, hfq⟩ := habove.rest h₂ hkeep
  refine ⟨h₂, by simp [hneq, hcl', hsize, h₂], ?_,
    habove.grown (Nat.le_succ _) ((habove.bounded.alloc _).set hnew _) hkeep⟩
  rw [fill_rep, splitLeg, if_neg hcl']
  refine ⟨hfp, hfs, ?_, hfq, ?_, trivial, trivial⟩
  · rw [get_set_self, hsize]
    rfl
  · rw [get_set_ne _ _ (by omega), ← hsize, get_alloc_self]
    rfl

end

section focus

variable {h h' : Nodes w V} {c : Context w V} {t t' : Tree w V}

section

variable (hh : Holds h (Context.plug c t))
include hh

/-- Replacing the subtree at an open place by one with the same root, where the
frames around it were not touched. -/
theorem Holds.replace (hrep : t'.Rep h' (parent c))
    (hwf : t'.Wf) (hroot : t'.root = t.root) (hinfo : t'.info = t.info) (hb : h'.Bounded)
    (hframe : ∀ q ∈ ptrs c, h'.get q = h.get q)
    (hnodup : (ptrs c ++ t'.ptrs).Nodup) : Holds h' (plug c t') := by
  obtain ⟨hc, _⟩ := plug_rep.mp hh.rep
  obtain ⟨hwc, _⟩ := plug_wf.mp hh.wf
  refine ⟨plug_rep.mpr ⟨hroot ▸ hc.frame hframe, hrep⟩,
    plug_wf.mpr ⟨hinfo ▸ hwc, hwf⟩, ?_, hb, ?_, ?_⟩
  · rw [(plug_ptrs c t').nodup_iff]
    exact hnodup
  · cases c with
    | nil => exact hroot.trans hh.root
    | cons f c => rw [← hh.root]; exact plug_root_congr f c t t'
  · cases c with
    | nil => exact hinfo.trans hh.info
    | cons f c => rw [← hh.info]; exact plug_info_congr f c t t'

theorem Holds.nodup_split :
    (ptrs c).Nodup ∧ t.ptrs.Nodup ∧ ∀ q ∈ ptrs c, q ∉ t.ptrs := by
  have hn := (plug_ptrs c t).nodup_iff.mp hh.nodup
  obtain ⟨hc, ht, hd⟩ := nodup_append.mp hn
  exact ⟨hc, ht, fun q hq hq' => hd q hq q hq' rfl⟩

theorem Holds.lt_size : (∀ q ∈ ptrs c, q < h.size) ∧ ∀ q ∈ t.ptrs, q < h.size := by
  have hmem := fun q => (plug_ptrs c t).mem_iff (a := q)
  constructor
  · exact fun q hq => hh.rep.lt_size hh.bounded ((hmem q).mpr (mem_append_left _ hq))
  · exact fun q hq => hh.rep.lt_size hh.bounded ((hmem q).mpr (mem_append_right _ hq))

end

theorem Tree.root_mem (h : t.root = some q) : q ∈ t.ptrs := by
  cases t with
  | nil => cases h
  | node p k n v l r =>
    obtain rfl := some.inj h
    rw [ptrs_node]
    exact .head _

theorem Holds.grow (hh : Holds h (plug c (f.fill s))) (new : List Nat)
    (hg : Grown h h' f.p s)
    (hrep : (f.fill s').Rep h' (parent c)) (hloc : FrameLocal f s'.info)
    (hwf : s'.Wf) (hptrs : s'.ptrs.Perm (new ++ s.ptrs)) (hnew : new.Nodup)
    (hfresh : ∀ q ∈ new, h.size ≤ q) : Holds h' (plug c (f.fill s')) := by
  obtain ⟨hnc, hnt, hdisj⟩ := hh.nodup_split
  obtain ⟨hlc, hlt⟩ := hh.lt_size
  have hfill := fill_ptrs f s
  have hfill' : (f.fill s').ptrs.Perm (new ++ (f.fill s).ptrs) := by
    refine (fill_ptrs f s').trans ?_
    have h₁ : (f.sib.ptrs ++ s'.ptrs).Perm (new ++ (f.sib.ptrs ++ s.ptrs)) := by
      refine (hptrs.append_left _).trans ?_
      rw [← append_assoc, ← append_assoc]
      exact perm_append_comm.append_right _
    exact (h₁.cons _).trans (List.perm_middle.symm.trans (hfill.symm.append_left new))
  refine hh.replace hrep ?_ ?_ ?_ hg.bounded ?_ ?_
  · exact fill_wf.mpr ⟨hloc, (fill_wf.mp (plug_wf.mp hh.wf).2).2.1, hwf⟩
  · rw [fill_root, fill_root]
  · rw [fill_info, fill_info]
  · intro q hq
    have hqt : q ∉ f.p :: (f.sib.ptrs ++ s.ptrs) := fun hm => hdisj q hq (hfill.mem_iff.mpr hm)
    refine hg.frame q (hlc q hq) (fun heq => hqt (by simp [heq])) (fun heq => hqt ?_)
    exact .tail _ (mem_append_right _ (root_mem heq))
  rw [(hfill'.append_left _).nodup_iff, nodup_append]
  refine ⟨hnc, nodup_append.mpr ⟨hnew, hnt, ?_⟩, ?_⟩
  · intro a ha b hb
    have h₁ := hfresh a ha
    have h₂ := hlt b hb
    omega
  intro a ha b hb
  rcases mem_append.mp hb with hb | hb
  · have h₁ := hlc a ha
    have h₂ := hfresh b hb
    omega
  · exact fun heq => hdisj a ha (heq ▸ hb)

theorem Holds.leaf (hh : Holds h (plug c (f.fill .nil))) (hlen : len ≤ w) (hpos : 0 < len)
    (hk : key &&& prefixMask w len = key) (hg : Grown h h' f.p .nil)
    (hrep : (f.fill (leafNode h.size key len val)).Rep h' (parent c))
    (hloc : FrameLocal f (some (key, len))) :
    Holds h' (plug c (f.fill (leafNode h.size key len val))) ∧
      (plug c (f.fill (leafNode h.size key len val))).entries.Perm
        (⟨h.size, key, len, val⟩ :: (plug c (f.fill .nil)).entries) := by
  constructor
  · refine hh.grow [h.size] hg hrep hloc ⟨⟨hlen, hk, fun _ => rfl, ?_, ?_, ?_, by simp, by omega⟩,
      trivial, trivial⟩ (List.Perm.refl _) (by simp) (by simp)
    · rintro _ _ ⟨⟩
    · rintro _ _ ⟨⟩
    · rintro _ _ _ _ ⟨⟩
  · exact plug_entries_cons (c := f :: c) (List.Perm.refl _)

/-- Where a kid was there are now the new node or nodes, and the kid below. -/
theorem Holds.split {f : Frame w V} {s : Tree w V} {m ns len : Nat} {val : V}
    (hh : Holds h (plug c (f.fill s))) (hs : s.info = some (ks, ns)) (hlen : len ≤ w)
    (hpos : 0 < len) (hk : key &&& prefixMask w len = key) (hfm : f.len < m) (hml : m ≤ len)
    (hms : m < ns) (ha : Agree key ks m) (hend : m = len ∨ key.getMsbD m ≠ ks.getMsbD m)
    (hg : Grown h h' f.p s)
    (hrep : (f.fill (splitLeg h.size (h.size + 1) key m len val s)).Rep h' (parent c)) :
    Holds h' (plug c (f.fill (splitLeg h.size (h.size + 1) key m len val s))) ∧
      (plug c (f.fill (splitLeg h.size (h.size + 1) key m len val s))).entries.Perm
        (⟨if m = len then h.size else h.size + 1, key, len, val⟩ ::
          (plug c (f.fill s)).entries) := by
  obtain ⟨hloc, hwsib, hws⟩ := fill_wf.mp (plug_wf.mp hh.wf).2
  rw [hs] at hloc
  obtain rfl | hm := eq_or_ne m len
  · simp only [splitLeg, if_true] at hrep ⊢
    constructor
    · refine hh.grow [h.size] hg hrep (hloc.congr hfm (ha.symm.mono hfm))
        ⟨⟨hlen, hk, fun _ => rfl, ?_, ?_, ?_, by simp, by omega⟩, hws, trivial⟩
        ?_ (by simp) (by simp)
      · intro k n hkn
        obtain ⟨rfl, rfl⟩ := Prod.mk.inj (some.inj (hs.symm.trans hkn))
        exact ⟨hms, ha⟩
      · rintro _ _ ⟨⟩
      · rintro _ _ _ _ _ ⟨⟩
      · rw [Tree.ptrs_node]
        simp [Tree.ptrs, Tree.nodes]
    · exact plug_entries_cons (c := f :: c)
        (by simp [Tree.entries, Tree.nodes, toEntry])
  · have hlt : m < len := by omega
    have hbit := hend.resolve_left hm
    have hmasked : Agree (key &&& prefixMask w m) key m := agree_masked (hml.trans hlen)
    simp only [splitLeg, if_neg hm] at hrep ⊢
    constructor
    · refine hh.grow [h.size, h.size + 1] hg hrep
        (hloc.congr hfm ((ha.symm.trans hmasked.symm).mono hfm))
        ⟨⟨hml.trans hlen, ?_, ?_, ?_, ?_, ?_, by simp [leafNode, Tree.info], fun _ => rfl⟩, hws,
          ⟨⟨hlen, hk, fun _ => rfl, ?_, ?_, ?_, by simp, by omega⟩, trivial, trivial⟩⟩
        ?_ (by simp) (by simp)
      · exact masked_and_of_le (le_rfl) (hml.trans hlen)
      · intro hnone
        simp [hs] at hnone
      · intro k n hkn
        obtain ⟨rfl, rfl⟩ := Prod.mk.inj (some.inj (hs.symm.trans hkn))
        exact ⟨hms, hmasked.trans ha⟩
      · rintro _ _ ⟨⟩
        exact ⟨hlt, hmasked⟩
      · rintro k₀ n₀ _ _ h₀ ⟨⟩
        obtain ⟨rfl, rfl⟩ := Prod.mk.inj (some.inj (hs.symm.trans h₀))
        exact hbit.symm
      · rintro _ _ ⟨⟩
      · rintro _ _ ⟨⟩
      · rintro _ _ _ _ ⟨⟩
      · rw [ptrs_node]
        exact (List.perm_append_comm.trans (List.Perm.refl _)).cons _
    · refine plug_entries_cons (c := f :: c) ?_
      have hperm : (s.nodes ++ [(h.size + 1, key, len, some val)]).Perm
          ((h.size + 1, key, len, some val) :: s.nodes) := perm_append_comm
      simp only [Tree.entries, Tree.nodes, leafNode, append_nil]
      exact hperm.filterMap toEntry

theorem Holds.withValue {v : Option V} (hh : Holds h (plug c (.node p k n v' l r)))
    (hloc : Local k n v l.info r.info) :
    Holds (h.set p (cell k n v (parent c) l.root r.root))
      (plug c (.node p k n v l r)) := by
  obtain ⟨hnc, hnt, hdisj⟩ := hh.nodup_split
  obtain ⟨hp, hl, hr⟩ := (plug_rep.mp hh.rep).2
  obtain ⟨-, hwl, hwr⟩ := (plug_wf.mp hh.wf).2
  have hnt' := hnt
  rw [ptrs_node, nodup_cons] at hnt'
  have hkeep : ∀ q ∈ l.ptrs ++ r.ptrs, q ≠ p := fun q hq heq => hnt'.1 (heq ▸ hq)
  refine hh.replace ⟨get_set_self _ _ _, hl.frame ?_, hr.frame ?_⟩ ⟨hloc, hwl, hwr⟩ rfl rfl
    (hh.bounded.set hp _) ?_ ?_
  · exact fun q hq => get_set_ne _ _ (hkeep q (mem_append_left _ hq))
  · exact fun q hq => get_set_ne _ _ (hkeep q (mem_append_right _ hq))
  · refine fun q hq => get_set_ne _ _ (fun heq => hdisj q hq ?_)
    rw [ptrs_node, heq]
    exact .head _
  · exact nodup_append.mpr ⟨hnc, hnt, fun a ha b hb heq => hdisj a ha (heq ▸ hb)⟩

/-- The key of the new node itself, where the walk ends on its very prefix. -/
theorem Holds.setValue (val : V)
    (hh : Holds h (plug c (.node p k n none l r))) (hn : n ≠ 0) :
    Holds (h.set p (cell k n (some val) (parent c) l.root r.root))
        (plug c (.node p k n (some val) l r)) ∧
      (plug c (.node p k n (some val) l r)).entries.Perm
        (⟨p, k, n, val⟩ :: (plug c (.node p k n none l r)).entries) := by
  have hloc := (plug_wf.mp hh.wf).2.1
  refine ⟨hh.withValue { hloc with kept := by simp, bare := fun h0 => absurd h0 hn }, ?_⟩
  exact plug_entries_cons (List.Perm.refl _)

theorem lt_of_not_enters {s : Tree w V} {m ns len : Nat}
    (hs : s.info = some (ks, ns)) (he : ¬s.Enters key len) (ha : Agree key ks m) (hm : m ≤ len) :
    m < ns := by
  by_contra hle
  exact he ⟨ks, ns, hs, ha.symm.mono (by omega), by omega⟩

/-- The second half of `insert`, at the node where the walk ends. -/
theorem insertBelow_spec {p : Nat} {k key : BitVec w} {n len : Nat} {v : Option V}
    {l r : Tree w V} (val : V) (hh : Holds h (plug c (.node p k n v l r)))
    (hlen : len ≤ w) (hpos : 0 < len) (hk : key &&& prefixMask w len = key) (ha : Agree k key n)
    (hn : n ≤ len) (hl : ¬l.Enters key len) (hr : ¬r.Enters key len) (hfree : n = len → v = none) :
    ∃ h' t q, insertBelow h p key (prefixMask w len) val = .ok (h', q) ∧ Holds h' t ∧
      t.entries.Perm (⟨q, key, len, val⟩ :: (plug c (.node p k n v l r)).entries) := by
  obtain ⟨hp, hrl, hrr⟩ := (plug_rep.mp hh.rep).2
  obtain ⟨hloc, hwl, hwr⟩ := (plug_wf.mp hh.wf).2
  obtain ⟨hnc, hnt, hdisj⟩ := hh.nodup_split
  have hmask : (cell k n v (parent c) l.root r.root).mask = prefixMask w n := rfl
  by_cases hnl : n = len
  · obtain rfl := hfree hnl
    subst hnl
    have hkk : k = key := by
      rw [← hloc.masked, ← hk]
      exact (and_prefixMask_eq_iff hlen).mpr ha
    subst hkk
    obtain ⟨hh', hperm⟩ := hh.setValue val (by omega)
    refine ⟨_, _, p, ?_, hh', hperm⟩
    simp [insertBelow, deref_of_get hp, cell]
  have hlt : n < len := by omega
  have hneq : prefixMask w n ≠ prefixMask w len := (prefixMask_inj hloc.bound hlen).not.mpr hnl
  have hfirst {x : Nodes w V × Nat}
      (h₀ : insertLeg h p key (prefixMask w len) val false = .ok (some x)) :
      insertBelow h p key (prefixMask w len) val = .ok x := by
    simp [insertBelow, deref_of_get hp, hmask, hneq, h₀]
  have hsecond {x : Nodes w V × Nat}
      (h₀ : insertLeg h p key (prefixMask w len) val false = .ok none)
      (h₁ : insertLeg h p key (prefixMask w len) val true = .ok (some x)) :
      insertBelow h p key (prefixMask w len) val = .ok x := by
    simp [insertBelow, deref_of_get hp, hmask, hneq, h₀, h₁]
  cases l with
  | nil =>
    have hnone : r.info = none := hloc.first rfl
    obtain ⟨h', hleg, hrep, hg⟩ := insertLeg_nil (f := ⟨p, k, n, v, false, r⟩) val
      ⟨hp, trivial, hrr⟩ hh.bounded (distinct_of_nodup hnt) hk
    obtain ⟨hh', hperm⟩ := Holds.leaf (f := ⟨p, k, n, v, false, r⟩) hh hlen hpos hk hg hrep
      ⟨hloc.bound, hloc.masked, by simp, by rintro _ _ ⟨⟩; exact ⟨hlt, ha⟩, hloc.below₁,
        by simp [hnone], hloc.kept, hloc.bare⟩
    exact ⟨h', _, _, hfirst hleg, hh', hperm⟩
  | node q ks ns vs ls rs =>
    have hls := (hloc.below₀ ks ns rfl).2
    have hnl' : (node q ks ns vs ls rs).ptrs.Nodup := by
      rw [ptrs_node, nodup_cons, nodup_append] at hnt
      exact hnt.2.1
    obtain ⟨m, hnm, hml, hma, hend, hskip | ⟨hlt', h', hleg, hrep, hg⟩⟩ :=
      insertLeg_node (f := ⟨p, k, n, v, false, r⟩) ⟨hp, hrl, hrr⟩ hh.bounded
        (distinct_of_nodup hnt) hnl' val hk hlen hlt (ha.symm.trans hls)
    · obtain ⟨rfl, h₀⟩ := hskip
      have hbit : key.getMsbD m ≠ ks.getMsbD m := hend.resolve_left hnl
      cases r with
      | nil =>
        obtain ⟨h', hleg, hrep, hg⟩ := insertLeg_nil (f := ⟨p, k, m, v, true, _⟩) val
          ⟨hp, hrl, trivial⟩ hh.bounded (distinct_of_nodup hnt) hk
        obtain ⟨hh', hperm⟩ := Holds.leaf (f := ⟨p, k, m, v, true, _⟩) hh hlen hpos hk hg hrep
          ⟨hloc.bound, hloc.masked, by simp [info], hloc.below₀,
            by rintro _ _ ⟨⟩; exact ⟨hlt, ha⟩, by rintro _ _ _ _ ⟨⟩ ⟨⟩; exact hbit.symm,
            by simp, hloc.bare⟩
        exact ⟨h', _, _, hsecond h₀ hleg, hh', hperm⟩
      | node q' kr nr vr lr rr =>
        have hrs := (hloc.below₁ kr nr rfl).2
        have hnr : (node q' kr nr vr lr rr).ptrs.Nodup := by
          rw [ptrs_node, nodup_cons, nodup_append] at hnt
          exact hnt.2.2.1
        obtain ⟨m', hnm', hml', hma', hend', hskip' | ⟨hlt', h', hleg, hrep, hg⟩⟩ :=
          insertLeg_node (f := ⟨p, k, m, v, true, _⟩) ⟨hp, hrl, hrr⟩ hh.bounded
            (distinct_of_nodup hnt) hnr val hk hlen hlt (ha.symm.trans hrs)
        · -- the key would leave both kids on the same bit, where they differ
          obtain ⟨rfl, _⟩ := hskip'
          have hbit' : key.getMsbD m' ≠ kr.getMsbD m' := hend'.resolve_left hnl
          have hap := hloc.apart ks ns kr nr rfl rfl
          revert hbit hbit' hap
          cases key.getMsbD m' <;> cases ks.getMsbD m' <;> cases kr.getMsbD m' <;> simp
        · obtain ⟨hh', hperm⟩ := Holds.split (f := ⟨p, k, m, v, true, _⟩) hh rfl hlen hpos hk hlt'
            hml' (lt_of_not_enters rfl hr hma' hml') hma' hend' hg hrep
          exact ⟨h', _, _, hsecond h₀ hleg, hh', hperm⟩
    · obtain ⟨hh', hperm⟩ := Holds.split (f := ⟨p, k, n, v, false, r⟩) hh rfl hlen hpos hk hlt' hml
        (lt_of_not_enters rfl hl hma hml) hma hend hg hrep
      exact ⟨h', _, _, hfirst hleg, hh', hperm⟩

theorem mem_entries_plug :
    (⟨p, k, n, v⟩ : Entry w V) ∈ (plug c (.node p k n (some v) l r)).entries := by
  rw [(plug_entries c _).mem_iff]
  exact mem_append_right _ (by simp [Tree.entries, Tree.nodes, toEntry])

end focus

/-- `insert` of a prefix that is not stored puts it into the trie, at the node it
returns. -/
theorem insert_spec (hh : Holds h t) (key : BitVec w) (val : V) (hpos : 1 ≤ width) (hw : width ≤ w)
    (hfree : ∀ e ∈ t.entries, ¬(e.width = width ∧ e.key = key &&& prefixMask w width)) :
    ∃ h' t' q, insert h key width val = .ok (h', q) ∧ Holds h' t' ∧
      t'.entries.Perm (⟨q, key &&& prefixMask w width, width, val⟩ :: t.entries) := by
  have hmask : (if width < w then BitVec.allOnes w <<< (w - width) else BitVec.allOnes w) =
      prefixMask w width := by
    split
    · rfl
    · rw [← prefixMask_full, show width = w by omega]
  have hk : key &&& prefixMask w width &&& prefixMask w width = key &&& prefixMask w width :=
    masked_and_of_le (le_rfl) hw
  have henter : t.Enters (key &&& prefixMask w width) width :=
    ⟨0#w, 0, hh.info, fun i hi => absurd hi (Nat.not_lt_zero i), Nat.zero_le _⟩
  obtain ⟨c, p, k, n, v, l, r, rfl, hwalk, ha, hn, hl, hr⟩ :=
    walk_spec hw hh.rep hh.wf henter hh.root hh.nodes_length
  have hv : n = width → v = none := by
    rintro rfl
    cases v with
    | none => rfl
    | some x =>
      have hloc := (plug_wf.mp hh.wf).2.1
      refine absurd ⟨rfl, ?_⟩ (hfree ⟨p, k, n, x⟩ mem_entries_plug)
      rw [← hk, ← (and_prefixMask_eq_iff hw).mpr ha, hloc.masked]
  obtain ⟨h', t', q, hrun, hh', hperm⟩ := insertBelow_spec val hh hw hpos hk ha hn hl hr hv
  refine ⟨h', t', q, ?_, hh', hperm⟩
  simp only [insert, hmask, hwalk, ok_bind]
  exact hrun

end Gem5.Base.Trie
