import Gem5.Lib.Outcome
import Gem5.Sim.EventBins

namespace Gem5.Sim

open Lib List Heap EventQueue Event Relinked

/-- Placing an event on top of a list of bins none of which comes before it. -/
theorem insertBefore_spec (hb : Bins h r bs) (ho : Ordered h.key bs)
    (hg : h.get p = some e) (hp : p ∉ bs.flatten) (hle : ∀ q ∈ bs.flatten, h.key p ≤ h.key q) :
    ∃ e', e'.body = e.body ∧ insertBefore h p r = .ok (h.set p e') ∧
      ∃ bs', Bins (h.set p e') (some p) bs' ∧ Ordered h.key bs' ∧
        bs'.flatten = p :: bs.flatten := by
  cases hb with
  | nil =>
    refine ⟨{ e with nextBin := none, nextInBin := none }, rfl, ?_, [[p]], ?_, ?_, rfl⟩
    · simp [insertBefore, deref_of_get hg]
    · exact .cons _ (get_set_self h p _) .nil .nil
    · exact ⟨by simp, by simp⟩
  | @cons c cs bs ce found below rest =>
    have hbins : Bins h (some c) ((c :: cs) :: bs) := .cons ce found below rest
    have hkey : h.key p = e.key := key_of_get hg
    have hc : h.key c = ce.key := key_of_get found
    by_cases hlt : e.lt ce = true
    · refine ⟨{ e with nextBin := some c, nextInBin := none }, rfl, ?_,
        [p] :: (c :: cs) :: bs, ?_, ?_, rfl⟩
      · simp [insertBefore, deref_of_get hg, deref_of_get found, hlt]
      · exact .cons _ (get_set_self h p _) .nil (hbins.set _ hp)
      refine ho.cons (by simp) ?_
      intro a ha q hq
      obtain rfl := mem_singleton.mp ha
      have hlt' : h.key a < h.key c := by rw [hkey, hc]; exact (e.lt_iff ce).mp hlt
      rcases mem_append.mp (flatten_cons ▸ hq) with hq | hq
      · rw [ho.same _ (by simp) q hq c (by simp)]
        exact hlt'
      · exact hlt'.trans (ho.head_lt (by simp) hq)
    · -- the event joins the bin of `c`, whose own link to the next bin goes stale
      have heq : h.key p = h.key c := by
        refine le_antisymm (hle c (by simp)) (not_lt.mp ?_)
        rw [hkey, hc]
        exact fun hl => hlt ((e.lt_iff ce).mpr hl)
      have hp' : p ∉ (c :: cs) ∧ p ∉ bs.flatten := by
        simpa only [flatten_cons, mem_append, not_or] using hp
      have hin : InBin h (some c) (c :: cs) := .cons ce found below
      refine ⟨{ e with nextBin := ce.nextBin, nextInBin := some c }, rfl, ?_,
        (p :: c :: cs) :: bs, ?_, ?_, rfl⟩
      · simp [insertBefore, deref_of_get hg, deref_of_get found, hlt]
      · exact .cons _ (get_set_self h p _) (hin.set _ hp'.1) (rest.set _ hp'.2)
      have hall : ∀ q ∈ p :: c :: cs, h.key q = h.key c := by
        intro q hq
        rcases mem_cons.mp hq with rfl | hq
        · exact heq
        · exact ho.same _ (by simp) q hq c (by simp)
      refine ho.tail.cons (fun a ha b hb => (hall a ha).trans (hall b hb).symm) ?_
      intro a ha q hq
      rw [hall a ha]
      exact ho.head_lt (by simp) hq

/-- Linking a list of bins that starts at `p` behind the bin of `prev`. -/
theorem link_behind {p prev : EventPtr} (hg : h.get prev = some pe)
    (hin : InBin h pe.nextInBin ps) (hb : Bins h (some p) bs)
    (hn : prev ∉ ps) (hd : prev ∉ bs.flatten) :
    setNextBin h prev (some p) = .ok (h.set prev { pe with nextBin := some p }) ∧
      Bins (h.set prev { pe with nextBin := some p }) (some prev) ((prev :: ps) :: bs) := by
  constructor
  · simp [setNextBin, deref_of_get hg]
  · exact .cons _ (get_set_self h prev _) (hin.set _ hn) (hb.set _ hd)

/-- A bin whose events were left alone stays in front of whatever follows it. -/
theorem Bins.push {prev : EventPtr} (hpe : h.get prev = some pe) (hin : InBin h pe.nextInBin ps)
    (hkeep : ∀ q ∈ prev :: ps, h'.get q = h.get q) (hb : Bins h' pe.nextBin bs) :
    Bins h' (some prev) ((prev :: ps) :: bs) := by
  refine .cons pe ((hkeep prev (by simp)).trans hpe) (hin.frame ?_) hb
  intro q hq d hd
  exact ⟨d, by rw [hkeep q (by simp [hq]), hd], rfl⟩

/-- What `h₂` is after an insertion of `p` behind the bin of `prev`. -/
structure InsertedBehind (h h₂ : Heap) (p prev : EventPtr) (ps : List EventPtr)
    (bs : List (List EventPtr)) : Prop where
  relinked : Relinked h h₂
  frame : ∀ q, q ≠ p → q ∉ ((prev :: ps) :: bs).flatten → h₂.get q = h.get q
  bins : ∃ bs', Bins h₂ (some prev) ((prev :: ps) :: bs') ∧
    Ordered h.key ((prev :: ps) :: bs') ∧ bs'.flatten = insertSorted h.key p bs.flatten

section

variable (hg : h.get p = some e) {prev : EventPtr} (hpe : h.get prev = some pe)
  (hin : InBin h pe.nextInBin ps) (hb : Bins h pe.nextBin bs)
  (ho : Ordered h.key ((prev :: ps) :: bs)) (hnd : ((prev :: ps) :: bs).flatten.Nodup)
  (hp : p ∉ ((prev :: ps) :: bs).flatten) (hlt : h.key prev < h.key p)
include hg hpe hin hb ho hnd hp hlt

theorem insert_here (hle : ∀ q ∈ bs.flatten, h.key p ≤ h.key q) :
    ∃ h₁ h₂, insertBefore h p pe.nextBin = .ok h₁ ∧
      setNextBin h₁ prev (some p) = .ok h₂ ∧ InsertedBehind h h₂ p prev ps bs := by
  have hsplit : p ∉ prev :: ps ∧ p ∉ bs.flatten := by
    simpa only [flatten_cons, mem_append, not_or] using hp
  have hne : prev ≠ p := fun heq => hsplit.1 (by simp [heq])
  have hnodup := nodup_append.mp (flatten_cons ▸ hnd)
  have hprev : prev ∉ ps := (nodup_cons.mp hnodup.1).1
  have hrest : prev ∉ bs.flatten := fun hq => hnodup.2.2 prev (by simp) prev hq rfl
  obtain ⟨e', hbody, hins, bs', hb', ho', hfl⟩ := insertBefore_spec hb ho.tail hg hsplit.2 hle
  have hpe' : (h.set p e').get prev = some pe := by rw [get_set_ne h e' hne, hpe]
  have hprev' : prev ∉ bs'.flatten := by
    rw [hfl]
    exact fun hm => (mem_cons.mp hm).elim hne hrest
  obtain ⟨hset, hbins⟩ :=
    link_behind hpe' (hin.set e' (fun hm => hsplit.1 (by simp [hm]))) hb' hprev hprev'
  refine ⟨_, _, hins, hset, (set hg hbody).trans (set hpe' rfl), ?_, bs', hbins,
    ?_, ?_⟩
  · intro q hq hq'
    have hqprev : q ≠ prev := fun heq => hq' (by simp [heq])
    rw [get_set_ne _ _ hqprev, get_set_ne _ _ hq]
  · refine ho'.cons (ho.same _ (by simp)) ?_
    intro a ha q hq
    rcases mem_cons.mp (hfl ▸ hq) with rfl | hq
    · rw [ho.same _ (by simp) a ha prev (by simp)]
      exact hlt
    · exact ho.head_lt ha hq
  · rw [hfl, insertSorted_front hle]

/-- The part of `insert` behind the head: the new event goes behind every bin
that comes before it, and only the links from there on change. -/
theorem insert_behind (hf : bs.length ≤ fuel) :
    ∃ last curr h₁ h₂, findBin h e fuel prev pe.nextBin = .ok (last, curr) ∧
      insertBefore h p curr = .ok h₁ ∧ setNextBin h₁ last (some p) = .ok h₂ ∧
      InsertedBehind h h₂ p prev ps bs := by
  induction bs generalizing prev ps pe fuel with
  | nil =>
    obtain ⟨h₁, h₂, hins, hset, hres⟩ := insert_here hg hpe hin hb ho hnd hp hlt (by simp)
    cases hnb : pe.nextBin with
    | none => exact ⟨prev, none, h₁, h₂, by simp [findBin], hnb ▸ hins, hset, hres⟩
    | some c => rw [hnb] at hb; cases hb
  | cons b bs ih =>
    cases hnb : pe.nextBin with
    | none => rw [hnb] at hb; cases hb
    | some c =>
      have hb₀ := hb
      rw [hnb] at hb
      cases hb with
      | @cons _ cs _ ce found below rest =>
      obtain ⟨fuel, rfl⟩ : ∃ n, fuel = n + 1 := ⟨fuel - 1, by simp at hf; omega⟩
      have hnodup := nodup_append.mp (flatten_cons ▸ hnd)
      have hdisj : ∀ q ∈ prev :: ps, q ∉ ((c :: cs) :: bs).flatten :=
        fun q hq hq' => hnodup.2.2 q hq q hq' rfl
      have hsplit : p ∉ prev :: ps ∧ p ∉ ((c :: cs) :: bs).flatten := by
        simpa only [flatten_cons, mem_append, not_or] using hp
      have hkp : h.key p = e.key := key_of_get hg
      have hkc : h.key c = ce.key := key_of_get found
      by_cases hce : ce.lt e = true
      · have hcp : h.key c < h.key p := by rw [hkp, hkc]; exact (ce.lt_iff e).mp hce
        obtain ⟨last, curr, h₁, h₂, hfind, hins, hset, hrel, hframe, bs', hbins, hord, hfl⟩ :=
          ih found below rest ho.tail hnodup.2.1 hsplit.2 hcp (by simpa using hf)
        refine ⟨last, curr, h₁, h₂, ?_, hins, hset, hrel, ?_, (c :: cs) :: bs', ?_, ?_, ?_⟩
        · simp [findBin, deref_of_get found, hce, hfind]
        · intro q hq hq'
          refine hframe q hq (fun hm => hq' ?_)
          rw [flatten_cons]
          exact mem_append_right _ hm
        · have hkeep : ∀ q ∈ prev :: ps, h₂.get q = h.get q :=
            fun q hq => hframe q (fun heq => hsplit.1 (heq ▸ hq)) (hdisj q hq)
          exact .push hpe hin hkeep (hnb ▸ hbins)
        · refine hord.cons (ho.same _ (by simp)) ?_
          intro a ha q hq
          rcases mem_append.mp (flatten_cons ▸ hq) with hq | hq
          · refine ho.head_lt ha ?_
            rw [flatten_cons]
            exact mem_append_left _ hq
          rw [hfl, (perm_orderedInsert _ _ _).mem_iff] at hq
          rcases mem_cons.mp hq with rfl | hq
          · rw [ho.same _ (by simp) a ha prev (by simp)]
            exact hlt
          · refine ho.head_lt ha ?_
            rw [flatten_cons]
            exact mem_append_right _ hq
        · rw [flatten_cons, flatten_cons, hfl, insertSorted_append]
          intro q hq
          rw [ho.tail.same _ (by simp) q hq c (by simp)]
          exact hcp
      · have hle : ∀ q ∈ ((c :: cs) :: bs).flatten, h.key p ≤ h.key q := by
          have hcp : h.key p ≤ h.key c := by
            rw [hkp, hkc]
            exact not_lt.mp (fun hl => hce ((ce.lt_iff e).mpr hl))
          intro q hq
          rcases mem_append.mp (flatten_cons ▸ hq) with hq | hq
          · rw [ho.tail.same _ (by simp) q hq c (by simp)]
            exact hcp
          · exact hcp.trans (ho.tail.head_lt (by simp) hq).le
        obtain ⟨h₁, h₂, hins, hset, hres⟩ := insert_here hg hpe hin hb₀ ho hnd hp hlt hle
        refine ⟨prev, some c, h₁, h₂, ?_, hnb ▸ hins, hset, hres⟩
        simp [findBin, deref_of_get found, hce]

end

/-- The search loop of `removeItem` takes one event out from below the top and
leaves every `nextBin` alone. -/
theorem unlinkInBin_spec (hc : h.get curr = some ce) (hin : InBin h ce.nextInBin ps)
    (hnd : (curr :: ps).Nodup) (hp : p ∈ ps) (hf : ps.length ≤ fuel) :
    ∃ h', unlinkInBin h p fuel curr ce.nextInBin = .ok h' ∧ Relinked h h' ∧
      (∀ q, q ∉ curr :: ps → h'.get q = h.get q) ∧
      ∃ ce', h'.get curr = some ce' ∧ ce'.nextBin = ce.nextBin ∧
        InBin h' ce'.nextInBin (ps.erase p) := by
  induction ps generalizing curr ce fuel with
  | nil => cases hp
  | cons n ps ih =>
    cases hnx : ce.nextInBin with
    | none => rw [hnx] at hin; cases hin
    | some n' =>
      rw [hnx] at hin
      cases hin with
      | @cons _ _ ne found tail =>
      obtain ⟨fuel, rfl⟩ : ∃ k, fuel = k + 1 := ⟨fuel - 1, by simp at hf; omega⟩
      have hcn : curr ≠ n := fun heq => (nodup_cons.mp hnd).1 (by simp [heq])
      obtain rfl | hpn := eq_or_ne p n
      · refine ⟨h.set curr { ce with nextInBin := ne.nextInBin }, ?_, set hc rfl, ?_,
          _, get_set_self h curr _, rfl, ?_⟩
        · simp [unlinkInBin, deref_of_get found, deref_of_get hc]
        · intro q hq
          exact get_set_ne h _ (fun heq => hq (by simp [heq]))
        · rw [erase_cons_head]
          exact tail.set _ (fun hm => (nodup_cons.mp hnd).1 (by simp [hm]))
      · have hp' : p ∈ ps := (mem_cons.mp hp).resolve_left hpn
        obtain ⟨h', hun, hrel, hframe, ne', hn', _, hin'⟩ :=
          ih found tail (nodup_cons.mp hnd).2 hp' (by simpa using hf)
        have hkeep : h'.get curr = some ce :=
          (hframe curr (nodup_cons.mp hnd).1).trans hc
        refine ⟨h', ?_, hrel, fun q hq => hframe q (fun hm => hq (by simp [mem_cons.mp hm])),
          ce, hkeep, rfl, ?_⟩
        · simp [unlinkInBin, deref_of_get found, hpn, hun]
        · rw [hnx, erase_cons_tail (by simpa using fun heq => hpn heq.symm)]
          exact .cons ne' hn' hin'

/-- Taking the top event off a bin leaves the events below it, if any. -/
theorem popTop_spec (hin : InBin h te.nextInBin ps) (hb : Bins h te.nextBin bs)
    (ho : Ordered h.key (ps :: bs))
    (hnd : (ps :: bs).flatten.Nodup) :
    ∃ h' top', popTop h te = .ok (h', top') ∧ Relinked h h' ∧
      (∀ q, q ∉ ps → h'.get q = h.get q) ∧
      ∃ bs', Bins h' top' bs' ∧ Ordered h.key bs' ∧ bs'.flatten = (ps :: bs).flatten := by
  cases hnx : te.nextInBin with
  | none =>
    rw [hnx] at hin
    cases hin
    exact ⟨h, te.nextBin, by simp [popTop, hnx], .refl h,
      fun _ _ => rfl, bs, hb, ho.tail, rfl⟩
  | some next =>
    rw [hnx] at hin
    cases hin with
    | @cons _ ps ne found tail =>
    have hnodup := nodup_append.mp (flatten_cons ▸ hnd)
    refine ⟨h.set next { ne with nextBin := te.nextBin }, some next, ?_, set found rfl, ?_,
      (next :: ps) :: bs, ?_, ho, rfl⟩
    · simp [popTop, hnx, deref_of_get found]
    · exact fun q hq => get_set_ne h _ (fun heq => hq (by simp [heq]))
    · refine .cons _ (get_set_self h next _) (tail.set _ (nodup_cons.mp hnodup.1).1)
        (hb.set _ ?_)
      exact fun hm => hnodup.2.2 next (by simp) next hm rfl

/-- The bins without one event of the first bin, which may leave nothing of it. -/
theorem ordered_erase (ho : Ordered k (b :: bs)) (p : EventPtr) : Ordered k (b.erase p :: bs) :=
  ho.tail.cons (fun q hq r hr => ho.same b (by simp) q (mem_of_mem_erase hq) r
      (mem_of_mem_erase hr))
    (fun _ hq _ hr => ho.head_lt (mem_of_mem_erase hq) hr)

theorem removeItem_spec {p top : EventPtr} (hb : Bins h (some top) ((top :: ps) :: bs))
    (ho : Ordered h.key ((top :: ps) :: bs)) (hnd : ((top :: ps) :: bs).flatten.Nodup)
    (hp : p ∈ top :: ps) (hf : ps.length ≤ h.size) :
    ∃ h' top', removeItem h p top = .ok (h', top') ∧ Relinked h h' ∧
      (∀ q, q ∉ top :: ps → h'.get q = h.get q) ∧
      ∃ bs', Bins h' top' bs' ∧ Ordered h.key bs' ∧
        bs'.flatten = ((top :: ps) :: bs).flatten.erase p := by
  cases hb with
  | cons te found below rest =>
  have hnodup := nodup_append.mp (flatten_cons ▸ hnd)
  obtain rfl | hpt := eq_or_ne p top
  · have hnd' : (ps :: bs).flatten.Nodup := (nodup_cons.mp hnd).2
    obtain ⟨h', top', hpop, hrel, hframe, bs', hbins, hord, hfl⟩ :=
      popTop_spec below rest (by simpa using ordered_erase ho p) hnd'
    refine ⟨h', top', ?_, hrel, fun q hq => hframe q (fun hm => hq (by simp [hm])), bs', hbins,
      hord, by simp [hfl]⟩
    simp [removeItem, deref_of_get found, hpop]
  have hp' : p ∈ ps := (mem_cons.mp hp).resolve_left hpt
  have hne : (top == p) = false := by simpa using fun heq => hpt heq.symm
  obtain ⟨h', hun, hrel, hframe, te', ht', hnb, hin'⟩ :=
    unlinkInBin_spec found below hnodup.1 hp' hf
  refine ⟨h', some top, ?_, hrel, hframe, (top :: ps.erase p) :: bs, ?_, ?_, ?_⟩
  · simp [removeItem, deref_of_get found, hpt, hun]
  · refine .cons te' ht' hin' (hnb ▸ rest.frame ?_)
    intro q hq d hd
    refine ⟨d, ?_, rfl, rfl⟩
    rw [hframe q (fun hm => hnodup.2.2 q hm q hq rfl), hd]
  · simpa [erase_cons, hne] using ordered_erase ho p
  · rw [flatten_cons, flatten_cons, erase_append_left _ hp, erase_cons]
    simp [hne]

theorem remove_behind (hg : h.get p = some e) {prev : EventPtr} (hpe : h.get prev = some pe)
    (hin : InBin h pe.nextInBin ps) (hb : Bins h pe.nextBin bs)
    (ho : Ordered h.key ((prev :: ps) :: bs)) (hnd : ((prev :: ps) :: bs).flatten.Nodup)
    (hp : p ∈ bs.flatten) (hf : bs.length ≤ fuel) (hsize : bs.flatten.length ≤ h.size) :
    ∃ last curr ce h₁ h₂ top, findBin h e fuel prev pe.nextBin = .ok (last, some curr) ∧
      h.get curr = some ce ∧ ce.ne e = false ∧ removeItem h p curr = .ok (h₁, top) ∧
      setNextBin h₁ last top = .ok h₂ ∧ Relinked h h₂ ∧
      (∀ q, q ∉ ((prev :: ps) :: bs).flatten → h₂.get q = h.get q) ∧
      ∃ bs', Bins h₂ (some prev) ((prev :: ps) :: bs') ∧
        Ordered h.key ((prev :: ps) :: bs') ∧ bs'.flatten = bs.flatten.erase p := by
  induction bs generalizing prev ps pe fuel with
  | nil => cases hp
  | cons b bs ih =>
    cases hnb : pe.nextBin with
    | none => rw [hnb] at hb; cases hb
    | some c =>
      rw [hnb] at hb
      have hb₀ := hb
      cases hb with
      | @cons _ cs _ ce found below rest =>
      obtain ⟨fuel, rfl⟩ : ∃ n, fuel = n + 1 := ⟨fuel - 1, by simp at hf; omega⟩
      have hnodup := nodup_append.mp (flatten_cons ▸ hnd)
      have hprev := nodup_cons.mp hnodup.1
      have hdisj : ∀ q ∈ prev :: ps, q ∉ ((c :: cs) :: bs).flatten :=
        fun q hq hq' => hnodup.2.2 q hq q hq' rfl
      have hkp : h.key p = e.key := key_of_get hg
      have hkc : h.key c = ce.key := key_of_get found
      rcases mem_append.mp (flatten_cons ▸ hp) with hpb | hpb
      · have hcp : ce.key = e.key := by
          rw [← hkp, ← hkc]
          exact ho.tail.same _ (by simp) c (by simp) p hpb
        have hnlt : ce.lt e = false := by
          rw [Bool.eq_false_iff]
          exact fun hl => absurd ((ce.lt_iff e).mp hl) (hcp ▸ lt_irrefl _)
        have hnne : ce.ne e = false := by
          rw [Bool.eq_false_iff]
          exact fun hn => (ce.ne_iff e).mp hn hcp
        have hlen : cs.length ≤ h.size := by
          rw [flatten_cons, length_append, length_cons] at hsize
          omega
        obtain ⟨h₁, top, hrm, hrel, hframe, bs', hbins, hord, hfl⟩ :=
          removeItem_spec hb₀ ho.tail hnodup.2.1 hpb hlen
        have hkeep : ∀ q ∈ prev :: ps, h₁.get q = h.get q := by
          refine fun q hq => hframe q (fun hm => hdisj q hq ?_)
          rw [flatten_cons]
          exact mem_append_left _ hm
        have hpe' : h₁.get prev = some pe := (hkeep prev (by simp)).trans hpe
        have hin' : InBin h₁ pe.nextInBin ps :=
          hin.frame (fun q hq d hd => ⟨d, by rw [hkeep q (by simp [hq]), hd], rfl⟩)
        have hsub : ∀ q ∈ bs'.flatten, q ∈ ((c :: cs) :: bs).flatten :=
          fun q hq => mem_of_mem_erase (hfl ▸ hq)
        refine ⟨prev, c, ce, h₁, h₁.set prev { pe with nextBin := top }, top, ?_, found, hnne, hrm,
          ?_, hrel.trans (set hpe' rfl), ?_, bs', ?_, ?_, hfl⟩
        · simp [findBin, deref_of_get found, hnlt]
        · simp [setNextBin, deref_of_get hpe']
        · intro q hq
          have hq' : q ∉ prev :: ps ∧ q ∉ (c :: cs) ∧ q ∉ bs.flatten := by
            simpa only [flatten_cons, mem_append, not_or] using hq
          rw [get_set_ne _ _ (fun heq => hq'.1 (by simp [heq])), hframe q hq'.2.1]
        · exact .cons _ (get_set_self _ _ _) (hin'.set _ hprev.1)
            (hbins.set _ (fun hm => hdisj prev (by simp) (hsub prev hm)))
        · exact hord.cons (ho.same _ (by simp)) (fun a ha q hq => ho.head_lt ha (hsub q hq))
      · have hcp : h.key c < h.key p := ho.tail.head_lt (by simp) hpb
        have hlt : ce.lt e = true := (ce.lt_iff e).mpr (hkp ▸ hkc ▸ hcp)
        have hsize' : bs.flatten.length ≤ h.size := by
          rw [flatten_cons, length_append] at hsize
          omega
        obtain ⟨last, curr, ce', h₁, h₂, top, hfind, hcurr, hne, hrm, hset, hrel, hframe, bs',
          hbins, hord, hfl⟩ :=
          ih found below rest ho.tail hnodup.2.1 hpb (by simpa using hf) hsize'
        have hnc : p ∉ c :: cs := by
          have hnd' := nodup_append.mp (flatten_cons ▸ hnodup.2.1)
          exact fun hm => hnd'.2.2 p hm p hpb rfl
        have hfl' : ((c :: cs) :: bs').flatten = ((c :: cs) :: bs).flatten.erase p := by
          rw [flatten_cons, flatten_cons, erase_append_right _ hnc, hfl]
        refine ⟨last, curr, ce', h₁, h₂, top, ?_, hcurr, hne, hrm, hset, hrel, ?_,
          (c :: cs) :: bs', ?_, ?_, hfl'⟩
        · simp [findBin, deref_of_get found, hlt, hfind]
        · intro q hq
          refine hframe q (fun hm => hq ?_)
          rw [flatten_cons]
          exact mem_append_right _ hm
        · exact .push hpe hin (fun q hq => hframe q (hdisj q hq)) (hnb ▸ hbins)
        · refine hord.cons (ho.same _ (by simp)) (fun a ha q hq => ho.head_lt ha ?_)
          rw [hfl'] at hq
          exact mem_of_mem_erase hq

end Gem5.Sim
