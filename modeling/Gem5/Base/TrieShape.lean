import Gem5.Base.Trie

namespace Gem5.Base.Trie

open Lib List

variable {w : Nat} {V : Type}

/-- The tree that the nodes form. A mask is given by its length, and `nil` is a
kid that is not there. -/
inductive Tree (w : Nat) (V : Type)
  | nil
  | node (p : Nat) (key : BitVec w) (len : Nat) (value : Option V) (kid0 kid1 : Tree w V)

namespace Tree

def root : Tree w V → Option Nat
  | nil => none
  | node p _ _ _ _ _ => some p

@[simp] theorem root_node (p : Nat) (key : BitVec w) (len : Nat) (value : Option V)
    (l r : Tree w V) : (node p key len value l r).root = some p := rfl

def info : Tree w V → Option (BitVec w × Nat)
  | nil => none
  | node _ key len _ _ _ => some (key, len)

def nodes : Tree w V → List (Nat × BitVec w × Nat × Option V)
  | nil => []
  | node p key len value l r => (p, key, len, value) :: (l.nodes ++ r.nodes)

end Tree

/-- What the code keeps true of a node and its kids: the kids' prefixes go on
from the node's own, in different directions; a single kid is `kids[0]`; a node
without value has two kids, except for the root, which never has a value. -/
structure Local (key : BitVec w) (len : Nat) (value : Option V)
    (i₀ i₁ : Option (BitVec w × Nat)) : Prop where
  bound : len ≤ w
  masked : key &&& prefixMask w len = key
  first : i₀ = none → i₁ = none
  below₀ : ∀ k n, i₀ = some (k, n) → len < n ∧ Agree key k len
  below₁ : ∀ k n, i₁ = some (k, n) → len < n ∧ Agree key k len
  apart : ∀ k₀ n₀ k₁ n₁, i₀ = some (k₀, n₀) → i₁ = some (k₁, n₁) → k₀.getMsbD len ≠ k₁.getMsbD len
  kept : value = none → len ≠ 0 → i₁ ≠ none
  bare : len = 0 → value = none

def Tree.Wf : Tree w V → Prop
  | .nil => True
  | .node _ key len value l r => Local key len value l.info r.info ∧ l.Wf ∧ r.Wf

/-- A node with one of its two kids left open: `kids[1]` if `side` is set. -/
structure Frame (w : Nat) (V : Type) where
  p : Nat
  key : BitVec w
  len : Nat
  value : Option V
  side : Bool
  sib : Tree w V

namespace Frame

def fill (f : Frame w V) (t : Tree w V) : Tree w V :=
  match f.side with
  | false => .node f.p f.key f.len f.value t f.sib
  | true => .node f.p f.key f.len f.value f.sib t

end Frame

/-- A tree around an open place, given by the frames from there to the root. -/
abbrev Context (w : Nat) (V : Type) := List (Frame w V)

namespace Context

def plug : Context w V → Tree w V → Tree w V
  | [], t => t
  | f :: c, t => plug c (f.fill t)

def parent : Context w V → Option Nat
  | [] => none
  | f :: _ => some f.p

def nodes : Context w V → List (Nat × BitVec w × Nat × Option V)
  | [] => []
  | f :: c => (f.p, f.key, f.len, f.value) :: (f.sib.nodes ++ nodes c)

def FrameLocal (f : Frame w V) (i : Option (BitVec w × Nat)) : Prop :=
  match f.side with
  | false => Local f.key f.len f.value i f.sib.info
  | true => Local f.key f.len f.value f.sib.info i

/-- Well-formed around a tree whose root has the given prefix. -/
def Wf : Context w V → Option (BitVec w × Nat) → Prop
  | [], _ => True
  | f :: c, i => FrameLocal f i ∧ f.sib.Wf ∧ Wf c (some (f.key, f.len))

theorem fill_wf : (f.fill t).Wf ↔ FrameLocal f t.info ∧ f.sib.Wf ∧ t.Wf := by
  unfold Frame.fill FrameLocal
  cases f.side
  · simp only [Tree.Wf]
    tauto
  · simp only [Tree.Wf]

theorem fill_info (f : Frame w V) (t : Tree w V) : (f.fill t).info = some (f.key, f.len) := by
  unfold Frame.fill
  cases f.side <;> rfl

theorem fill_root (f : Frame w V) (t : Tree w V) : (f.fill t).root = some f.p := by
  unfold Frame.fill
  cases f.side <;> rfl

theorem plug_wf : (plug c t).Wf ↔ Wf c t.info ∧ t.Wf := by
  induction c generalizing t with
  | nil => simp [plug, Wf]
  | cons f c ih =>
    rw [plug, ih, fill_wf, fill_info, Wf]
    tauto

theorem fill_nodes (f : Frame w V) (t : Tree w V) :
    (f.fill t).nodes.Perm ((f.p, f.key, f.len, f.value) :: (f.sib.nodes ++ t.nodes)) := by
  unfold Frame.fill
  cases f.side
  · exact (perm_append_comm).cons _
  · exact List.Perm.refl _

theorem plug_nodes (c : Context w V) (t : Tree w V) :
    (plug c t).nodes.Perm (nodes c ++ t.nodes) := by
  induction c generalizing t with
  | nil => exact List.Perm.refl _
  | cons f c ih =>
    have hfill := (ih (f.fill t)).trans ((fill_nodes f t).append_left (nodes c))
    refine hfill.trans ?_
    rw [nodes]
    have hperm : (nodes c ++ (f.sib.nodes ++ t.nodes)).Perm
        (f.sib.nodes ++ nodes c ++ t.nodes) := by
      rw [← append_assoc]
      exact perm_append_comm.append_right _
    exact List.perm_middle.trans (hperm.cons _)

/-- The root of a tree with a frame around the open place does not depend on
what is put there. -/
theorem plug_root_congr (f : Frame w V) (c : Context w V) (t t' : Tree w V) :
    (plug (f :: c) t').root = (plug (f :: c) t).root := by
  induction c generalizing f t t' with
  | nil => simp only [plug, fill_root]
  | cons g c ih => exact ih g (f.fill t) (f.fill t')

theorem plug_info_congr (f : Frame w V) (c : Context w V) (t t' : Tree w V) :
    (plug (f :: c) t').info = (plug (f :: c) t).info := by
  induction c generalizing f t t' with
  | nil => simp only [plug, fill_info]
  | cons g c ih => exact ih g (f.fill t) (f.fill t')

theorem plug_append (c d : Context w V) (t : Tree w V) : plug (c ++ d) t = plug d (plug c t) := by
  induction c generalizing t with
  | nil => rfl
  | cons f c ih => simp only [cons_append, plug, ih]

end Context

def cell (key : BitVec w) (len : Nat) (value : Option V) (parent kid0 kid1 : Option Nat) :
    Node w V :=
  { key, mask := prefixMask w len, value, parent, kid0, kid1 }

def Tree.Rep (h : Nodes w V) (parent : Option Nat) : Tree w V → Prop
  | .nil => True
  | .node p key len value l r =>
    h.get p = some (cell key len value parent l.root r.root) ∧ l.Rep h (some p) ∧ r.Rep h (some p)

def Tree.ptrs (t : Tree w V) : List Nat := t.nodes.map Prod.fst

namespace Context

def ptrs (c : Context w V) : List Nat := (nodes c).map Prod.fst

def frameCell (f : Frame w V) (parent link : Option Nat) : Node w V :=
  match f.side with
  | false => cell f.key f.len f.value parent link f.sib.root
  | true => cell f.key f.len f.value parent f.sib.root link

/-- Memory holds the frames around an open place that points to `link`. -/
def Rep (h : Nodes w V) : Context w V → Option Nat → Prop
  | [], _ => True
  | f :: c, link => h.get f.p = some (frameCell f (parent c) link) ∧
      f.sib.Rep h (some f.p) ∧ Rep h c (some f.p)

theorem fill_rep : (f.fill t).Rep h par ↔ h.get f.p = some (frameCell f par t.root) ∧
      f.sib.Rep h (some f.p) ∧ t.Rep h (some f.p) := by
  unfold Frame.fill frameCell
  cases f.side
  · simp only [Tree.Rep]
    tauto
  · simp only [Tree.Rep]

theorem plug_rep : (plug c t).Rep h none ↔ Rep h c t.root ∧ t.Rep h (parent c) := by
  induction c generalizing t with
  | nil => simp [plug, Rep, parent]
  | cons f c ih =>
    rw [plug, ih, fill_rep, fill_root, Rep, parent]
    tauto

end Context

theorem Tree.ptrs_node (p : Nat) (key : BitVec w) (len : Nat) (value : Option V)
    (l r : Tree w V) : (Tree.node p key len value l r).ptrs = p :: (l.ptrs ++ r.ptrs) := by
  simp [ptrs, nodes]

theorem Context.ptrs_cons (f : Frame w V) (c : Context w V) :
    ptrs (f :: c) = f.p :: (f.sib.ptrs ++ ptrs c) := by
  simp [ptrs, nodes, Tree.ptrs]

theorem Context.plug_ptrs (c : Context w V) (t : Tree w V) :
    (plug c t).ptrs.Perm (ptrs c ++ t.ptrs) := by
  have h := (plug_nodes c t).map Prod.fst
  rwa [map_append] at h

theorem Context.fill_ptrs (f : Frame w V) (t : Tree w V) :
    (f.fill t).ptrs.Perm (f.p :: (f.sib.ptrs ++ t.ptrs)) := by
  have h := (fill_nodes f t).map Prod.fst
  rwa [map_cons, map_append] at h

/-- The addresses of a node, of its kid on the one side and on the other. -/
structure Context.Distinct (f : Frame w V) (t : Tree w V) : Prop where
  sib : f.p ∉ f.sib.ptrs
  kid : f.p ∉ t.ptrs
  apart : ∀ q ∈ f.sib.ptrs, q ∉ t.ptrs

theorem Context.distinct_of_nodup (h : (f.fill t).ptrs.Nodup) : Distinct f t := by
  rw [(fill_ptrs f t).nodup_iff, nodup_cons, nodup_append] at h
  obtain ⟨hp, _, _, hd⟩ := h
  exact ⟨fun hm => hp (mem_append_left _ hm), fun hm => hp (mem_append_right _ hm),
    fun q hq hq' => hd q hq q hq' rfl⟩

variable {t : Tree w V} {par : Option Nat} {h h' : Nodes w V}

theorem Tree.Rep.frame (hr : t.Rep h par)
    (hf : ∀ p ∈ t.ptrs, h'.get p = h.get p) : t.Rep h' par := by
  induction t generalizing par with
  | nil => trivial
  | node p key len value l r ihl ihr =>
    obtain ⟨hp, hl, hr⟩ := hr
    rw [ptrs_node] at hf
    refine ⟨(hf p (by simp)).trans hp, ihl hl (fun q hq => hf q ?_), ihr hr (fun q hq => hf q ?_)⟩
    · simp [hq]
    · simp [hq]

theorem Context.Rep.frame {c : Context w V} {link : Option Nat}
    (hr : Rep h c link) (hf : ∀ p ∈ ptrs c, h'.get p = h.get p) : Rep h' c link := by
  induction c generalizing link with
  | nil => trivial
  | cons f c ih =>
    obtain ⟨hp, hs, hc⟩ := hr
    rw [ptrs_cons] at hf
    refine ⟨(hf f.p (by simp)).trans hp, hs.frame (fun q hq => hf q ?_),
      ih hc (fun q hq => hf q ?_)⟩
    · simp [hq]
    · simp [hq]

theorem Tree.Rep.get (hr : t.Rep h par) {p : Nat} (hp : p ∈ t.ptrs) : ∃ n, h.get p = some n := by
  induction t generalizing par with
  | nil => simp [ptrs, nodes] at hp
  | node q key len value l r ihl ihr =>
    obtain ⟨hq, hl, hr⟩ := hr
    rw [ptrs_node] at hp
    rcases mem_cons.mp hp with rfl | hp
    · exact ⟨_, hq⟩
    · rcases mem_append.mp hp with hp | hp
      · exact ihl hl hp
      · exact ihr hr hp

theorem Tree.Rep.lt_size (hr : t.Rep h par)
    (hb : h.Bounded) {p : Nat} (hp : p ∈ t.ptrs) : p < h.size := by
  obtain ⟨n, hn⟩ := hr.get hp
  exact hb p n hn

theorem Tree.exists_plug {key : BitVec w} (hp : (p, key, len, value) ∈ t.nodes) :
    ∃ c l r, t = Context.plug c (.node p key len value l r) := by
  induction t with
  | nil => cases hp
  | node q k n v l r ihl ihr =>
    rcases mem_cons.mp hp with heq | hp
    · cases heq
      exact ⟨[], l, r, rfl⟩
    rcases mem_append.mp hp with hp | hp
    · obtain ⟨c, l', r', rfl⟩ := ihl hp
      refine ⟨c ++ [⟨q, k, n, v, false, r⟩], l', r', ?_⟩
      rw [Context.plug_append]
      rfl
    · obtain ⟨c, l', r', rfl⟩ := ihr hp
      refine ⟨c ++ [⟨q, k, n, v, true, l⟩], l', r', ?_⟩
      rw [Context.plug_append]
      rfl

/-- A stored prefix, with the node that holds its value. -/
structure Entry (w : Nat) (V : Type) where
  handle : Nat
  key : BitVec w
  width : Nat
  value : V
deriving DecidableEq

def toEntry : Nat × BitVec w × Nat × Option V → Option (Entry w V)
  | (p, key, len, value) => value.map (fun v => ⟨p, key, len, v⟩)

def Tree.entries (t : Tree w V) : List (Entry w V) := t.nodes.filterMap toEntry

theorem Tree.mem_entries {e : Entry w V} :
    e ∈ t.entries ↔ (e.handle, e.key, e.width, some e.value) ∈ t.nodes := by
  rw [entries, mem_filterMap]
  constructor
  · rintro ⟨⟨p, k, n, v⟩, hx, he⟩
    rw [toEntry, Option.map_eq_some_iff] at he
    obtain ⟨val, rfl, rfl⟩ := he
    exact hx
  · exact fun hx => ⟨_, hx, rfl⟩

def Context.entries (c : Context w V) : List (Entry w V) := (nodes c).filterMap toEntry

theorem Context.plug_entries (c : Context w V) (t : Tree w V) :
    (plug c t).entries.Perm (entries c ++ t.entries) := by
  have h := (plug_nodes c t).filterMap toEntry
  rwa [filterMap_append] at h

theorem Context.plug_entries_cons (h : t'.entries.Perm (e :: t.entries)) :
    (plug c t').entries.Perm (e :: (plug c t).entries) := by
  refine (plug_entries c t').trans ((h.append_left _).trans ?_)
  exact List.perm_middle.trans ((plug_entries c t).symm.cons e)

/-- What a frame asks of a kid: that it goes on from the frame's prefix, on its
own side. A kid that agrees one bit further serves as well. -/
theorem Context.FrameLocal.congr (h : FrameLocal f (some (k, n))) (hn : f.len < n')
    (ha : Agree k k' (f.len + 1)) :
    FrameLocal f (some (k', n')) := by
  unfold FrameLocal at h ⊢
  have hbit : k.getMsbD f.len = k'.getMsbD f.len := ha f.len (by omega)
  cases hs : f.side with
  | false =>
    rw [hs] at h
    refine ⟨h.bound, h.masked, by simp, ?_, h.below₁, ?_, h.kept, h.bare⟩
    · rintro _ _ ⟨⟩
      exact ⟨hn, (h.below₀ k n rfl).2.trans (ha.mono (by omega))⟩
    · rintro _ _ k₁ n₁ ⟨⟩ h₁
      rw [← hbit]
      exact h.apart k n k₁ n₁ rfl h₁
  | true =>
    rw [hs] at h
    refine ⟨h.bound, h.masked, ?_, h.below₀, ?_, ?_, by simp, h.bare⟩
    · intro h₀
      cases h.first h₀
    · rintro _ _ ⟨⟩
      exact ⟨hn, (h.below₁ k n rfl).2.trans (ha.mono (by omega))⟩
    · rintro k₀ n₀ _ _ h₀ ⟨⟩
      rw [← hbit]
      exact h.apart k₀ n₀ k n h₀ rfl

theorem Context.FrameLocal.below (h : FrameLocal f (some (k, n))) :
    f.len < n ∧ Agree f.key k f.len := by
  unfold FrameLocal at h
  cases hs : f.side with
  | false => rw [hs] at h; exact h.below₀ k n rfl
  | true => rw [hs] at h; exact h.below₁ k n rfl

/-- Memory holds a trie whose nodes form the tree `t`. -/
structure Holds (h : Nodes w V) (t : Tree w V) : Prop where
  rep : t.Rep h none
  wf : t.Wf
  nodup : t.ptrs.Nodup
  bounded : h.Bounded
  root : t.root = some head
  info : t.info = some (0#w, 0)

/-- The nodes of a trie are no more than the addresses given out. -/
theorem Holds.nodes_length (hh : Holds h t) : t.nodes.length ≤ h.size := by
  have hsub : t.ptrs ⊆ List.range h.size :=
    fun p hp => mem_range.mpr (hh.rep.lt_size hh.bounded hp)
  have hle := (hh.nodup.subperm hsub).length_le
  simpa [Tree.ptrs] using hle

end Gem5.Base.Trie
