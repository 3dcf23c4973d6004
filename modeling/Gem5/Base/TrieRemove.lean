import Gem5.Base.TrieInsert

namespace Gem5.Base.Trie

open Lib List Context Heap Option

variable {w : Nat} {V : Type}

/-- What a node becomes when the kid at its open place is replaced by `l`: a kid
that is left alone moves to `kids[0]`. -/
def Frame.refill (f : Frame w V) : Tree w V → Tree w V
  | .nil => .node f.p f.key f.len f.value f.sib .nil
  | .node p k n v l r => f.fill (.node p k n v l r)

section

variable (f : Frame w V) (t : Tree w V)
include f t

theorem Frame.refill_root : (f.refill t).root = some f.p := by
  cases t with
  | nil => rfl
  | node => exact fill_root f _

theorem Frame.refill_info : (f.refill t).info = some (f.key, f.len) := by
  cases t with
  | nil => rfl
  | node => exact fill_info f _

theorem Frame.refill_nodes :
    (f.refill t).nodes.Perm ((f.p, f.key, f.len, f.value) :: (f.sib.nodes ++ t.nodes)) := by
  cases t with
  | nil => exact List.Perm.refl _
  | node => exact fill_nodes f _

end

/-- Memory holds the nodes of a tree, which need not be a proper trie. -/
structure Shape (h : Nodes w V) (t : Tree w V) : Prop where
  rep : t.Rep h none
  nodup : t.ptrs.Nodup
  bounded : h.Bounded

theorem Holds.shape (hh : Holds h t) : Shape h t :=
  { hh with }

theorem Shape.free (hs : Shape h t) (hp : p ∉ t.ptrs) : Shape (h.free p) t :=
  ⟨hs.rep.frame (fun _ hq => get_free_ne h (fun heq => hp (heq ▸ hq))), hs.nodup,
    hs.bounded.free p⟩

theorem frameCell_value (f : Frame w V) (par link : Option Nat) :
    (frameCell f par link).value = f.value := by
  unfold frameCell
  cases f.side <;> rfl

theorem frameCell_parent (f : Frame w V) (par link : Option Nat) :
    (frameCell f par link).parent = par := by
  unfold frameCell
  cases f.side <;> rfl

/-- The cell of a frame after `unlink` replaced its kid by `l`. -/
def refillCell (f : Frame w V) (par : Option Nat) : Tree w V → Node w V
  | .nil => cell f.key f.len f.value par f.sib.root none
  | .node p _ _ _ _ _ => Context.frameCell f par (some p)

theorem refill_rep : (f.refill l).Rep h par ↔ h.get f.p = some (refillCell f par l) ∧
      f.sib.Rep h (some f.p) ∧ l.Rep h (some f.p) := by
  cases l with
  | nil => simp only [Frame.refill, refillCell, Tree.Rep, Tree.root]
  | node => exact fill_rep

theorem relink_spec (l : Tree w V)
    (hp : f.sib.root ≠ some p) (hside : f.side = true → f.sib ≠ .nil) :
    relink (frameCell f par (some p)) p l.root = .ok (refillCell f par l) := by
  unfold relink refillCell frameCell
  cases hs : f.side with
  | false =>
    cases l with
    | nil =>
      cases hsib : f.sib with
      | nil => simp [cell, Tree.root]
      | node => simp [cell, Tree.root]
    | node => simp [cell]
  | true =>
    have hne := hside hs
    cases hsib : f.sib with
    | nil => exact absurd hsib hne
    | node q k n v l' r' =>
      rw [hsib, Tree.root_node, Ne, some_inj] at hp
      cases l with
      | nil => simp [cell, Tree.root, hp]
      | node => simp [cell, hp]

/-- `unlink` of a node with at most one kid. The node itself is not changed. -/
theorem unlink_spec {h : Nodes w V} {f : Frame w V} {c : Context w V} {p : Nat} {k : BitVec w}
    {n : Nat} {v : Option V} {l : Tree w V}
    (hs : Shape h (plug (f :: c) (.node p k n v l .nil)))
    (hside : f.side = true → f.sib ≠ .nil) :
    ∃ h', unlink h p (cell k n v (some f.p) l.root none) f.p = .ok h' ∧
      Shape h' (plug c (f.refill l)) ∧ p ∉ (plug c (f.refill l)).ptrs := by
  have hnd := (plug_ptrs (f :: c) _).nodup_iff.mp hs.nodup
  rw [ptrs_cons, Tree.ptrs_node] at hnd
  obtain ⟨hndc, hndt, hdisj⟩ := nodup_append.mp hnd
  obtain ⟨hf, hndsc⟩ := nodup_cons.mp hndc
  obtain ⟨hpl, hndl⟩ := nodup_cons.mp hndt
  have hptrs : (plug c (f.refill l)).ptrs.Perm
      (f.p :: (f.sib.ptrs ++ ptrs c) ++ (l.ptrs ++ Tree.ptrs (.nil : Tree w V))) := by
    refine (plug_ptrs c _).trans ?_
    have hre := (f.refill_nodes l).map Prod.fst
    rw [map_cons, map_append] at hre
    have hnil : Tree.ptrs (.nil : Tree w V) = [] := rfl
    rw [hnil, append_nil]
    refine (hre.append_left _).trans (List.perm_middle.trans ?_)
    rw [cons_append, append_assoc]
    refine List.Perm.cons _ ?_
    rw [← append_assoc, ← append_assoc]
    exact perm_append_comm.append_right _
  have hfp : f.p ∉ l.ptrs := fun hm =>
    hdisj f.p (by simp) f.p (.tail _ (mem_append_left _ hm)) rfl
  have hpf : p ≠ f.p := fun heq => hdisj f.p (by simp) p (by simp) heq.symm
  obtain ⟨⟨hget, hsib, hc⟩, hp, hl, _⟩ := plug_rep.mp hs.rep
  -- what has to be shown of the memory in the end
  have hdone : ∀ h' : Nodes w V, (∀ x ∈ f.sib.ptrs ++ ptrs c, h'.get x = h.get x) →
      h'.get f.p = some (refillCell f (parent c) l) →
      l.Rep h' (some f.p) → h'.Bounded →
      Shape h' (plug c (f.refill l)) ∧ p ∉ (plug c (f.refill l)).ptrs := by
    intro h' hkeep hcell hl' hb
    refine ⟨⟨plug_rep.mpr ⟨?_, refill_rep.mpr ⟨hcell, ?_, hl'⟩⟩, ?_, hb⟩, ?_⟩
    · rw [f.refill_root]
      exact hc.frame (fun x hx => hkeep x (mem_append_right _ hx))
    · exact hsib.frame (fun x hx => hkeep x (mem_append_left _ hx))
    · rw [hptrs.nodup_iff]
      exact nodup_append.mpr ⟨hndc, hndl, fun a ha b hb => hdisj a ha b (.tail _ hb)⟩
    · rw [hptrs.mem_iff, mem_append]
      rintro (hm | hm)
      · exact hdisj p hm p (by simp) rfl
      · exact hpl hm
  have hsp : f.sib.root ≠ some p := by
    intro heq
    have hm := Tree.root_mem heq
    exact hdisj p (.tail _ (mem_append_left _ hm)) p (by simp) rfl
  have hrelink : relink (frameCell f (parent c) (some p)) p l.root = _ :=
    relink_spec l hsp hside
  have hsc : ∀ x ∈ f.sib.ptrs ++ ptrs c, x ≠ f.p := fun x hx heq => hf (heq ▸ hx)
  cases l with
  | nil =>
    refine ⟨h.set f.p (refillCell f (parent c) .nil), ?_, hdone _ ?_ ?_ trivial ?_⟩
    · simp only [unlink, cell, Tree.root, deref_of_get hget, ok_bind, pure_eq_ok]
      rw [show relink _ p none = _ from hrelink, ok_bind]
    · exact fun x hx => get_set_ne _ _ (hsc x hx)
    · exact get_set_self _ _ _
    · exact hs.bounded.set hget _
  | node q kl nl vl ll rl =>
    have hql : q ∈ (Tree.node q kl nl vl ll rl).ptrs := Tree.root_mem rfl
    have hqf : q ≠ f.p := fun heq => hfp (heq ▸ hql)
    have hq := hl.1
    have hget' : (h.set q (cell kl nl vl (some f.p) ll.root rl.root)).get f.p =
        some (frameCell f (parent c) (some p)) := by
      rw [get_set_ne _ _ hqf.symm]
      exact hget
    refine ⟨(h.set q (cell kl nl vl (some f.p) ll.root rl.root)).set f.p
      (refillCell f (parent c) (.node q kl nl vl ll rl)), ?_, hdone _ ?_ ?_ ?_ ?_⟩
    · simp only [unlink, cell, Tree.root_node, deref_of_get hq, ok_bind, pure_eq_ok]
      have hd := deref_of_get hget'
      simp only [cell] at hd
      simp only [hd, ok_bind]
      simp only [show relink _ p (some q) = _ from hrelink, ok_bind]
    · intro x hx
      rw [get_set_ne _ _ (hsc x hx), get_set_ne]
      rintro rfl
      exact hdisj x (.tail _ hx) x
        (.tail _ (mem_append_left _ hql)) rfl
    · exact get_set_self _ _ _
    · refine hl.reparent ?_ ?_
      · rw [get_set_ne _ _ hqf, get_set_self]
      intro x hx
      have hxl : x ∈ (Tree.node q kl nl vl ll rl).ptrs := by
        rw [Tree.ptrs_node]
        exact .tail _ hx
      rw [Tree.ptrs_node] at hpl hndl
      rw [get_set_ne _ _ (fun heq : x = f.p => hfp (heq ▸ hxl)), get_set_ne]
      rintro rfl
      exact (nodup_cons.mp (nodup_append.mp hndl).1).1 hx
    · exact (hs.bounded.set hq _).set hget' _

/-- The parent that `unlink` left with one kid and no value. -/
def collapses (f : Frame w V) (c : Context w V) (l : Tree w V) : Bool :=
  (refillCell f (Context.parent c) l).kid1.isNone && f.value.isNone && (Context.parent c).isSome

theorem refillCell_value (f : Frame w V) (par : Option Nat) (l : Tree w V) :
    (refillCell f par l).value = f.value := by
  cases l with
  | nil => rfl
  | node => exact frameCell_value f par _

theorem refillCell_parent (f : Frame w V) (par : Option Nat) (l : Tree w V) :
    (refillCell f par l).parent = par := by
  cases l with
  | nil => rfl
  | node => exact frameCell_parent f par _

theorem removeFrom_unlink (hs : Shape h (plug (f :: c) (.node p k n v l .nil)))
    (hside : f.side = true → f.sib ≠ .nil) (fuel : Nat) :
    ∃ h₁, Shape h₁ (plug c (f.refill l)) ∧ p ∉ (plug c (f.refill l)).ptrs ∧
      (collapses f c l = false → removeFrom h (fuel + 1) p = .ok (h₁.free p, v)) ∧
      (collapses f c l = true → ∀ h₂ x, removeFrom h₁ fuel f.p = .ok (h₂, x) →
        removeFrom h (fuel + 1) p = .ok (h₂.free p, v)) := by
  obtain ⟨h₁, hun, hs₁, hp₁⟩ := unlink_spec hs hside
  have hp : h.get p = some (cell k n v (some f.p) l.root none) :=
    (plug_rep.mp hs.rep).2.1
  have hf := (refill_rep.mp (plug_rep.mp hs₁.rep).2).1
  have hround : removeFrom h (fuel + 1) p = if collapses f c l then (do
        let r ← removeFrom h₁ fuel f.p
        return (r.1.free p, v)) else .ok (h₁.free p, v) := by
    rw [removeFrom]
    simp only [deref_of_get hp, ok_bind, pure_eq_ok]
    simp only [cell] at hun
    simp only [cell, hun, deref_of_get hf, refillCell_value, refillCell_parent, collapses,
      isSome_none, Bool.false_eq_true, if_false, ok_bind]
    rfl
  refine ⟨h₁, hs₁, hp₁, fun hc => by rw [hround, hc]; rfl, fun hc h₂ x hx => ?_⟩
  rw [hround, hc, hx]
  rfl

theorem Frame.fill_refill_nodes (f : Frame w V) (p : Nat) (k : BitVec w) (n : Nat) (v : Option V)
    (l : Tree w V) :
    (f.fill (.node p k n v l .nil)).nodes.Perm ((p, k, n, v) :: (f.refill l).nodes) := by
  refine (fill_nodes f _).trans ?_
  refine List.Perm.trans ?_ ((f.refill_nodes l).symm.cons _)
  rw [Tree.nodes, Tree.nodes, append_nil]
  exact (List.perm_middle.cons _).trans (List.Perm.swap _ _ _)

theorem Context.plug_nodes_cons (h : t'.nodes.Perm (x :: t.nodes)) :
    (plug c t').nodes.Perm (x :: (plug c t).nodes) := by
  refine (plug_nodes c t').trans ((h.append_left _).trans ?_)
  exact List.perm_middle.trans ((plug_nodes c t).symm.cons x)

/-- A frame of a trie knows its open kid as `kids[1]` only beside a sibling. -/
theorem Context.FrameLocal.sib_ne_nil (h : FrameLocal f (some i)) (hs : f.side = true) :
    f.sib ≠ .nil := by
  unfold FrameLocal at h
  rw [hs] at h
  intro hnil
  have := h.first (by rw [hnil]; rfl)
  cases this

theorem Context.FrameLocal.sib_of_bare (h : FrameLocal f (some i)) (hv : f.value = none)
    (hl : f.len ≠ 0) : f.sib ≠ .nil := by
  cases hs : f.side with
  | true => exact h.sib_ne_nil hs
  | false =>
    unfold FrameLocal at h
    rw [hs] at h
    intro hnil
    exact h.kept hv hl (by rw [hnil]; rfl)

/-- Only the removal of a leaf can leave a parent that is removed too. -/
theorem collapses_node (hf : FrameLocal f (some i)) (hc : c ≠ [] → f.len ≠ 0) :
    collapses f c (.node p k n v l r) = false := by
  by_contra hcol
  simp only [collapses, refillCell, Bool.not_eq_false, Bool.and_eq_true, isNone_iff_eq_none]
    at hcol
  obtain ⟨⟨hk, hv⟩, hpar⟩ := hcol
  have hne : c ≠ [] := by
    rintro rfl
    simp [parent] at hpar
  have hsib := hf.sib_of_bare hv (hc hne)
  unfold frameCell at hk
  cases hs : f.side with
  | true => simp [hs, cell] at hk
  | false =>
    cases hsn : f.sib with
    | nil => exact hsib hsn
    | node => simp [hs, hsn, cell] at hk

/-- Memory that holds the nodes of a trie with one subtree exchanged. -/
theorem Shape.holds (hs : Shape h' (plug c t')) (hh : Holds h (plug c t))
    (hwf : t'.Wf)
    (hroot : t'.root = t.root) (hinfo : t'.info = t.info) : Holds h' (plug c t') := by
  have hwc := (plug_wf.mp hh.wf).1
  refine ⟨hs.rep, plug_wf.mpr ⟨hinfo ▸ hwc, hwf⟩, hs.nodup, hs.bounded, ?_, ?_⟩
  · cases c with
    | nil => exact hroot.trans hh.root
    | cons f c => rw [← hh.root]; exact plug_root_congr f c t t'
  · cases c with
    | nil => exact hinfo.trans hh.info
    | cons f c => rw [← hh.info]; exact plug_info_congr f c t t'

theorem Shape.holds_refill (hs : Shape h' (plug c (f.refill l)))
    (hh : Holds h (plug (f :: c) t))
    (hwf : (f.refill l).Wf) : Holds h' (plug c (f.refill l)) := by
  refine Shape.holds (t := f.fill t) hs hh hwf ?_ ?_
  · rw [f.refill_root, fill_root]
  · rw [f.refill_info, fill_info]

theorem Frame.refill_wf_node (hf : FrameLocal f (some (k, n))) (hsib : f.sib.Wf)
    (hbelow : n < nl ∧ Agree k kl n)
    (hl : (Tree.node q kl nl vl ll rl).Wf) : (f.refill (.node q kl nl vl ll rl)).Wf := by
  have hfn := hf.below.1
  obtain ⟨hlt, ha⟩ := hbelow
  exact fill_wf.mpr ⟨hf.congr (by omega) (ha.mono (by omega)), hsib, hl⟩

theorem Context.FrameLocal.sib_below (h : FrameLocal f i) (hs : f.sib.info = some (k, n)) :
    f.len < n ∧ Agree f.key k f.len := by
  unfold FrameLocal at h
  cases hside : f.side with
  | true => rw [hside] at h; exact h.below₀ k n hs
  | false => rw [hside] at h; exact h.below₁ k n hs

theorem Frame.refill_wf_nil {f : Frame w V} {i : BitVec w × Nat}
    (hf : FrameLocal f (some i)) (hsib : f.sib.Wf) (hkept : f.value = none → f.len = 0) :
    (f.refill .nil).Wf := by
  have hown : f.len ≤ w ∧ f.key &&& prefixMask w f.len = f.key ∧ (f.len = 0 → f.value = none) := by
    unfold FrameLocal at hf
    cases hs : f.side with
    | true => rw [hs] at hf; exact ⟨hf.bound, hf.masked, hf.bare⟩
    | false => rw [hs] at hf; exact ⟨hf.bound, hf.masked, hf.bare⟩
  exact ⟨⟨hown.1, hown.2.1, fun _ => rfl, fun _ _ => hf.sib_below, by simp [Tree.info],
    by simp [Tree.info], fun hv hl => absurd (hkept hv) hl, hown.2.2⟩, hsib, trivial⟩

theorem Context.Wf.len_ne_zero (hc : Wf c (some (k, n))) (hne : c ≠ []) : n ≠ 0 := by
  cases c with
  | nil => exact absurd rfl hne
  | cons g c =>
    have := hc.1.below.1
    omega

section remove

variable {h : Nodes w V} {c : Context w V} {p : Nat} {k : BitVec w} {n : Nat}

theorem Holds.clearValue (hh : Holds h (plug c (.node p k n (some val) l r)))
    (hr : r.info ≠ none) :
    Holds (h.set p (cell k n none (parent c) l.root r.root))
        (plug c (.node p k n none l r)) ∧
      (plug c (.node p k n (some val) l r)).entries.Perm
        (⟨p, k, n, val⟩ :: (plug c (.node p k n none l r)).entries) := by
  have hloc := (plug_wf.mp hh.wf).2.1
  refine ⟨hh.withValue { hloc with kept := fun _ _ => hr, bare := fun _ => rfl }, ?_⟩
  exact plug_entries_cons (List.Perm.refl _)

theorem filterMap_cons_perm {xs ys : List (Nat × BitVec w × Nat × Option V)} {val : V}
    (hx : xs.Perm ((p, k, n, some val) :: ys)) :
    (xs.filterMap toEntry).Perm (⟨p, k, n, val⟩ :: ys.filterMap toEntry) := by
  have := hx.filterMap toEntry
  rwa [filterMap_cons_some (by rfl)] at this

theorem removeFrom_splice {f : Frame w V} {val : V} {l : Tree w V}
    (hh : Holds h (plug (f :: c) (.node p k n (some val) l .nil))) (fuel : Nat) :
    ∃ h' t', removeFrom h (fuel + 2) p = .ok (h', some val) ∧ Holds h' t' ∧
      (plug (f :: c) (.node p k n (some val) l .nil)).entries.Perm
        (⟨p, k, n, val⟩ :: t'.entries) := by
  obtain ⟨⟨hf, hsib, hc⟩, hloc, hwl, _⟩ := plug_wf.mp hh.wf
  have hlen := hc.len_ne_zero
  obtain ⟨h₁, hs₁, hp₁, hstay, hgo⟩ := removeFrom_unlink hh.shape hf.sib_ne_nil (fuel + 1)
  have hnodes : (plug (f :: c) (.node p k n (some val) l .nil)).nodes.Perm
      ((p, k, n, some val) :: (plug c (f.refill l)).nodes) :=
    plug_nodes_cons (f.fill_refill_nodes p k n (some val) l)
  cases l with
  | node q kl nl vl ll rl =>
    have hwf := Frame.refill_wf_node hf hsib (hloc.below₀ kl nl rfl) hwl
    exact ⟨_, _, hstay (collapses_node hf hlen),
      (hs₁.free hp₁).holds_refill hh hwf, filterMap_cons_perm hnodes⟩
  | nil =>
    by_cases hkeep : f.value = none → f.len = 0
    · -- the parent stays: it has a value, or it is the root
      have hcol : collapses f c .nil = false := by
        by_contra hcol
        simp only [collapses, Bool.not_eq_false, Bool.and_eq_true, isNone_iff_eq_none]
          at hcol
        refine hlen ?_ (hkeep hcol.1.2)
        rintro rfl
        simp [parent] at hcol
      exact ⟨_, _, hstay hcol, (hs₁.free hp₁).holds_refill hh (Frame.refill_wf_nil hf hsib hkeep),
        filterMap_cons_perm hnodes⟩
    -- the parent only joined two kids: its other kid takes its place
    push Not at hkeep
    obtain ⟨hv, hl0⟩ := hkeep
    cases c with
    | nil =>
      have hi : (f.fill _).info = _ := hh.info
      rw [fill_info] at hi
      simp only [some.injEq, Prod.mk.injEq] at hi
      exact absurd hi.2 hl0
    | cons g c =>
      obtain ⟨hg, hgsib, hgc⟩ := hc
      obtain ⟨h₂, hs₂, hp₂, hstay₂, _⟩ := removeFrom_unlink hs₁ hg.sib_ne_nil fuel
      have hne := hf.sib_of_bare hv hl0
      have hnodes₂ : (plug (g :: c) (f.refill .nil)).nodes.Perm
          ((f.p, f.key, f.len, f.value) :: (plug c (g.refill f.sib)).nodes) :=
        plug_nodes_cons (g.fill_refill_nodes f.p f.key f.len f.value f.sib)
      have hp₂' : p ∉ (plug c (g.refill f.sib)).ptrs := by
        intro hm
        refine hp₁ ((hnodes₂.map Prod.fst).mem_iff.mpr ?_)
        exact .tail _ hm
      have hwf : (g.refill f.sib).Wf ∧ collapses g c f.sib = false := by
        cases hsn : f.sib with
        | nil => exact absurd hsn hne
        | node q ks ns vs ls rs =>
          have hbelow : f.len < ns ∧ _ := hf.sib_below (by rw [hsn]; rfl)
          exact ⟨Frame.refill_wf_node hg hgsib hbelow (hsn ▸ hsib),
            collapses_node hg hgc.len_ne_zero⟩
      refine ⟨_, _, hgo ?_ _ _ (hstay₂ hwf.2),
        ((hs₂.free hp₂).free hp₂').holds_refill (t := f.fill _) hh hwf.1,
        (filterMap_cons_perm hnodes).trans (List.Perm.cons _ ?_)⟩
      · simp [collapses, refillCell, cell, hv, parent]
      · have hfm := hnodes₂.filterMap toEntry
        rwa [filterMap_cons_none (by rw [toEntry, hv]; rfl)] at hfm

/-- `remove(handle)` of a node that holds a value returns the value and takes
exactly this prefix out of the trie. -/
theorem removeHandle_spec (hh : Holds h t) (he : e ∈ t.entries) :
    ∃ h' t', removeHandle h e.handle = .ok (h', some e.value) ∧ Holds h' t' ∧
      t.entries.Perm (e :: t'.entries) := by
  obtain ⟨p, k, n, val⟩ := e
  obtain ⟨c, l, r, rfl⟩ := Tree.exists_plug (Tree.mem_entries.mp he)
  have hsize := hh.nodes_length
  rw [(plug_nodes c _).length_eq, length_append, Tree.nodes, length_cons] at hsize
  obtain ⟨hwc, hloc, hwl, hwr⟩ := plug_wf.mp hh.wf
  cases r with
  | node q kr nr vr lr rr =>
    obtain ⟨fuel, hfuel⟩ : ∃ fuel, h.size = fuel + 1 := ⟨h.size - 1, by omega⟩
    obtain ⟨hh', hperm⟩ := hh.clearValue (by simp [Tree.info])
    refine ⟨_, _, ?_, hh', hperm⟩
    rw [removeHandle, hfuel, removeFrom]
    simp only [deref_of_get (plug_rep.mp hh.rep).2.1, ok_bind, pure_eq_ok]
    rfl
  | nil =>
    cases c with
    | nil =>
      -- a node with a value is not the root
      have hi := hh.info
      simp only [plug, Tree.info, some.injEq, Prod.mk.injEq] at hi
      cases hloc.bare hi.2
    | cons f c =>
      rw [nodes, length_cons] at hsize
      obtain ⟨fuel, hfuel⟩ : ∃ fuel, h.size = fuel + 2 := ⟨h.size - 2, by omega⟩
      rw [removeHandle, hfuel]
      exact removeFrom_splice hh fuel

end remove

end Gem5.Base.Trie
