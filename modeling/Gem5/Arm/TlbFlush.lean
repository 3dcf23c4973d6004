import Gem5.Arm.Tlb

namespace Gem5.Arm

open List TlbEntry Tlb

/-! What the flushes leave in the table. -/

namespace TlbEntry

def clear (k : LookupArgs) (e : TlbEntry) : TlbEntry := if e.isMatch k then e.invalidate else e

@[simp] theorem isMatch_clear (k : LookupArgs) (e : TlbEntry) : (e.clear k).isMatch k = false := by
  unfold clear
  split_ifs with h
  · exact isMatch_invalidate e k
  · exact eq_false_of_ne_true h

theorem clear_of_not_isMatch {k : LookupArgs} {e : TlbEntry} (h : e.isMatch k = false) :
    e.clear k = e := by
  simp [clear, h]

theorem clear_of_isMatch {k : LookupArgs} {e : TlbEntry} (h : e.isMatch k = true) :
    e.clear k = e.invalidate := by
  simp [clear, h]

theorem clear_invalidate (k : LookupArgs) (e : TlbEntry) : e.invalidate.clear k = e.invalidate :=
  clear_of_not_isMatch (isMatch_invalidate e k)

end TlbEntry

namespace Tlb

variable {t t' : Tlb} {k : LookupArgs} {functional : Bool} {l : List TlbEntry} {targetEl : UInt8}

theorem lookup_eq_none_iff : (t.lookup k functional).1 = none ↔
    ∀ e ∈ t.table, e.isMatch k = false := by
  unfold lookup
  cases h : t.table.findIdx? (fun e => e.isMatch k) with
  | none => simpa using findIdx?_eq_none_iff.mp h
  | some x =>
    obtain ⟨hlt, hx, -⟩ := findIdx?_eq_some_iff_getElem.mp h
    have hne : ¬ ∀ e ∈ t.table, e.isMatch k = false := by
      intro hall
      rw [hall _ (getElem_mem hlt)] at hx
      cases hx
    dsimp only
    split <;> simp [hne]

theorem lookup_none (h : t.lookup k functional = (none, t')) : t' = t := by
  unfold lookup at h
  split at h
  · exact (Prod.mk.inj h).2.symm
  · split at h <;> cases (Prod.mk.inj h).1

/-- The entry that is found is in the table at the index, and the table has the same entries. -/
theorem lookup_some (h : t.lookup k functional = (some x, t')) :
    ∃ hx : x < t'.table.length, (t'.table[x]).isMatch k = true ∧ t'.table.Perm t.table ∧
      t' = { t with table := t'.table } := by
  unfold lookup at h
  split at h
  · cases (Prod.mk.inj h).1
  rename_i y hy
  obtain ⟨hlt, hmatch, -⟩ := findIdx?_eq_some_iff_getElem.mp hy
  split at h
  · obtain ⟨hx, ht⟩ := Prod.mk.inj h
    rw [← Option.some.inj hx, ← ht, getD_eq_getElem _ _ hlt]
    refine ⟨Nat.zero_lt_succ _, hmatch, ?_, rfl⟩
    exact (getElem_cons_eraseIdx_perm hlt)
  · obtain ⟨hx, ht⟩ := Prod.mk.inj h
    rw [← Option.some.inj hx, ← ht]
    exact ⟨hlt, hmatch, List.Perm.refl _, rfl⟩

theorem map_clear_modify (k : LookupArgs) {x : Nat} (hx : x < l.length)
    (hmatch : (l[x]).isMatch k = true) :
    (l.modify x invalidate).map (clear k) = l.map (clear k) := by
  refine ext_getElem (by simp) (fun i hi hi' => ?_)
  rw [getElem_map, getElem_map, getElem_modify]
  split_ifs with heq
  · subst heq
    rw [clear_invalidate, clear_of_isMatch hmatch]
  · rfl

theorem countP_modify_lt (k : LookupArgs) {x : Nat} (hx : x < l.length)
    (hmatch : (l[x]).isMatch k = true) :
    (l.modify x invalidate).countP (fun e => e.isMatch k) <
      l.countP (fun e => e.isMatch k) := by
  induction l generalizing x with
  | nil => cases hx
  | cons e l ih =>
    cases x with
    | zero =>
      have hmatch : e.isMatch k = true := hmatch
      simp [isMatch_invalidate, hmatch]
    | succ x =>
      have := ih (Nat.lt_of_succ_lt_succ hx) hmatch
      simp only [modify_succ_cons, countP_cons]
      omega

/-- The loop of a flush by address ends, and has cleared what its lookups hit. -/
theorem ends_flushMvaRound (k : LookupArgs) (t : Tlb) : ∃ t', Lib.Ends (flushMvaRound k) t t' ∧
      t'.table.Perm (t.table.map (clear k)) ∧ t' = { t with table := t'.table } := by
  obtain ⟨s, t', ⟨hperm, hsame⟩, hend, hloop⟩ := Lib.exists_ends (f := flushMvaRound k)
    (fun s => (s.table.map (clear k)).Perm (t.table.map (clear k)) ∧
      s = { t with table := s.table })
    (fun s => s.table.countP (fun e => e.isMatch k))
    (fun s s' hs hround => by
      obtain ⟨hperm, hsame⟩ := hs
      unfold flushMvaRound at hround
      split at hround
      · cases hround
      rename_i x u hlookup
      obtain ⟨hx, hmatch, hu, hsameu⟩ := lookup_some hlookup
      rw [getD_eq_getElem _ _ hx, if_pos (secure_of_isMatch hmatch)] at hround
      rw [← Sum.inl.inj hround]
      refine ⟨⟨?_, ?_⟩, ?_⟩
      · change ((u.table.modify x invalidate).map _).Perm _
        rw [map_clear_modify k hx hmatch]
        exact (hu.map _).trans hperm
      · unfold invalidateAt
        rw [hsameu, hsame]
      · have hlt := countP_modify_lt k hx hmatch
        rw [hu.countP_eq] at hlt
        exact hlt)
    (s := t) ⟨List.Perm.refl _, rfl⟩
  refine ⟨t', Lib.Ends.of_loop hloop, ?_⟩
  unfold flushMvaRound at hend
  split at hend
  · rename_i u hlookup
    have hnone : (s.lookup k false).1 = none := by rw [hlookup]
    have hall := lookup_eq_none_iff.mp hnone
    rw [← Sum.inr.inj hend, lookup_none hlookup]
    refine ⟨?_, hsame⟩
    have hid : s.table.map (clear k) = s.table := by
      conv_rhs => rw [← map_id s.table]
      exact map_congr_left (fun e he => clear_of_not_isMatch (hall e he))
    rwa [hid] at hperm
  · cases hend

/-- A flush by address ends; the entries that its lookups hit are not valid any more, and the others
are as they were. -/
theorem flushMvaWith_spec (t : Tlb) (mva asn : UInt64) (secureLookup hyp ignoreAsn : Bool)
    (targetEl : UInt8) :
    ∃ t', (∃ n, ∀ fuel, n ≤ fuel →
        t.flushMvaWith fuel mva asn secureLookup hyp ignoreAsn targetEl = some t') ∧
      t'.table.Perm (t.table.map
        (clear (t.flushArgs mva asn secureLookup hyp ignoreAsn targetEl))) := by
  obtain ⟨t', hends, hperm, -⟩ :=
    ends_flushMvaRound (t.flushArgs mva asn secureLookup hyp ignoreAsn targetEl) t
  exact ⟨t', hends, hperm⟩

theorem isMatch_flushArgs {t : Tlb} {e : TlbEntry} {mva : UInt64} (asn : UInt64)
    {secureLookup hyp ignoreAsn : Bool} {asn' : UInt16}
    (h : e.isMatch ⟨sext56 mva, asn', t.vmid, hyp, secureLookup, ignoreAsn, targetEl⟩ = true) :
    e.isMatch (t.flushArgs mva asn secureLookup hyp true targetEl) = true := by
  exact isMatch_asn (isMatch_ignoreAsn h) asn.toUInt16

theorem isMatch_flushArgs_own {t : Tlb} {e : TlbEntry} {mva asn : UInt64} {secureLookup hyp : Bool}
    (h : e.isMatch (t.flushArgs mva asn secureLookup hyp true targetEl) = true) :
    e.isMatch ⟨sext56 mva, e.asid, t.vmid, hyp, secureLookup, false, targetEl⟩ = true :=
  isMatch_own (k := t.flushArgs mva asn secureLookup hyp true targetEl) h

theorem lookup_cleared (hperm : t'.table.Perm (t.table.map (clear k)))
    (hk : ∀ e : TlbEntry, e.isMatch k' = true → e.isMatch k = true) (functional : Bool) :
    (t'.lookup k' functional).1 = none := by
  refine lookup_eq_none_iff.mpr (fun e he => ?_)
  obtain ⟨e₀, -, rfl⟩ := mem_map.mp (hperm.mem_iff.mp he)
  refine eq_false_of_ne_true (fun hmatch => ?_)
  have hno := hk _ hmatch
  rw [isMatch_clear] at hno
  cases hno

theorem valid_flushWhere :
    e ∈ (t.flushWhere p).table ∧ e.valid = true ↔ e ∈ t.table ∧ e.valid = true ∧ p e = false := by
  refine ⟨fun ⟨hmem, hvalid⟩ => ?_, fun ⟨hmem, hvalid, hp⟩ => ⟨?_, hvalid⟩⟩
  · obtain ⟨e₀, he₀, rfl⟩ := mem_map.mp hmem
    split_ifs at hvalid with hnot
    · cases hvalid
    · rw [if_neg hnot]
      rw [hvalid, Bool.true_and] at hnot
      exact ⟨he₀, hvalid, eq_false_of_ne_true hnot⟩
  · refine mem_map.mpr ⟨e, hmem, ?_⟩
    simp [hp]

end Tlb

namespace TlbPair

/-- What a flush of everything leaves valid: the non-secure entries of other virtual machines. -/
theorem valid_flushAll {p : TlbPair} {e : TlbEntry} : e ∈ p.flushAll.tlb.table ∧ e.valid = true ↔
      e ∈ p.tlb.table ∧ e.valid = true ∧ e.nstid = true ∧ e.vmid ≠ p.tlb.vmid := by
  change e ∈ ((p.tlb.flushAllSecurityTable false 0 true).flushAllSecurityTable true 0 true).table ∧
    e.valid = true ↔ _
  unfold flushAllSecurityTable
  rw [valid_flushWhere]
  constructor
  · rintro ⟨hmem, hvalid, hsecure⟩
    obtain ⟨hmem, hvalid, hns⟩ := valid_flushWhere.mp ⟨hmem, hvalid⟩
    have hnstid : e.nstid = true := by simpa [checkELMatch] using hsecure
    refine ⟨hmem, hvalid, hnstid, ?_⟩
    simpa [checkELMatch, hnstid] using hns
  · rintro ⟨hmem, hvalid, hnstid, hne⟩
    obtain ⟨hmem, -⟩ := valid_flushWhere (p := fun e => (false == !e.nstid) &&
      (e.vmid == p.tlb.vmid || false) && checkELMatch 0 e.el true).mpr
      ⟨hmem, hvalid, by simp [hne]⟩
    exact ⟨hmem, hvalid, by simp [hnstid]⟩

/-- A flush of everything leaves no valid entry exactly if the non-secure ones belong to the current
virtual machine. The flushes by address end, leave nothing that their lookups hit, and leave the
other entries as they were. -/
theorem flushes_exact (p : TlbPair) : ((∀ e ∈ p.flushAll.tlb.table, e.valid = false) ↔
      ∀ e ∈ p.tlb.table, e.valid = true → e.nstid = true → e.vmid = p.tlb.vmid) ∧
    (∀ mva asn secureLookup targetEl, ∃ t', (∃ n, ∀ fuel, n ≤ fuel →
        p.tlb.flushMvaAsid fuel mva asn secureLookup targetEl = some t') ∧
      (∀ functional, (t'.lookup ⟨Tlb.sext56 mva, asn.toUInt16, p.tlb.vmid, false,
        secureLookup, false,
        targetEl⟩ functional).1 = none) ∧
      t'.table.Perm (p.tlb.table.map (fun e =>
        if e.isMatch (p.tlb.flushArgs mva asn secureLookup false false targetEl)
        then e.invalidate else e))) ∧
    (∀ mva secureLookup hyp targetEl, ∃ t',
      (∃ n, ∀ fuel, n ≤ fuel → p.tlb.flushMva fuel mva secureLookup hyp targetEl = some t') ∧
      (∀ asn ignoreAsn functional, (t'.lookup ⟨Tlb.sext56 mva, asn, p.tlb.vmid, hyp, secureLookup,
        ignoreAsn, targetEl⟩ functional).1 = none) ∧
      t'.table.Perm (p.tlb.table.map (fun e =>
        if e.isMatch (p.tlb.flushArgs mva 0xbeef secureLookup hyp true targetEl)
        then e.invalidate else e)) ∧
      ∀ e : TlbEntry, e.isMatch (p.tlb.flushArgs mva 0xbeef secureLookup hyp true targetEl) = true ↔
        ∃ asn, e.isMatch ⟨Tlb.sext56 mva, asn, p.tlb.vmid, hyp, secureLookup, false, targetEl⟩
          = true) ∧
    ∀ ipa secureLookup hyp targetEl, ∃ r n, ∀ fuel, n ≤ fuel →
      p.flushIpaVmid fuel ipa secureLookup hyp targetEl = some r := by
  refine ⟨⟨fun hall e hmem hvalid hnstid => ?_, fun hall e hmem => ?_⟩,
    fun mva asn secureLookup targetEl => ?_, fun mva secureLookup hyp targetEl => ?_,
    fun ipa secureLookup hyp targetEl => ?_⟩
  · by_contra hne
    obtain ⟨hleft, hstill⟩ := valid_flushAll.mpr ⟨hmem, hvalid, hnstid, hne⟩
    rw [hall e hleft] at hstill
    cases hstill
  · refine eq_false_of_ne_true (fun hvalid => ?_)
    obtain ⟨hmem, hvalid, hnstid, hne⟩ := valid_flushAll.mp ⟨hmem, hvalid⟩
    exact hne (hall e hmem hvalid hnstid)
  · obtain ⟨t', hends, hperm⟩ :=
      p.tlb.flushMvaWith_spec mva asn secureLookup false false targetEl
    exact ⟨t', hends, lookup_cleared hperm (fun _ h => h), hperm⟩
  · obtain ⟨t', hends, hperm⟩ :=
      p.tlb.flushMvaWith_spec mva 0xbeef secureLookup hyp true targetEl
    refine ⟨t', hends, fun asn ignoreAsn => lookup_cleared hperm (fun e he => ?_), hperm,
      fun e => ⟨fun he => ⟨e.asid, ?_⟩, fun ⟨asn, he⟩ => ?_⟩⟩
    · exact isMatch_flushArgs 0xbeef he
    · exact isMatch_flushArgs_own he
    · exact isMatch_flushArgs 0xbeef he
  · unfold flushIpaVmid
    by_cases hstage2 : p.tlb.isStage2 = true
    · exact ⟨.error "!isStage2", 0, fun fuel _ => by rw [if_pos hstage2]⟩
    · obtain ⟨t', ⟨n, hends⟩, -⟩ :=
        p.stage2Tlb.flushMvaWith_spec ipa 0xbeef secureLookup hyp true targetEl
      refine ⟨.ok { p with stage2Tlb := t' }, n, fun fuel hle => ?_⟩
      rw [if_neg hstage2, hends fuel hle]
      rfl

/-- An entry of virtual machine 5 is still valid after the current one has become 0 and everything
has been flushed. -/
theorem flushAll_keeps_other_vmid : ∃ e ∈ (TlbPair.flushAll
      { tlb := ((((Tlb.construct 2 false).updateMiscReg false 5).insert
          { valid := true, vmid := 5, N := 12, vpn := 1, size := 4095, el := 1 }).updateMiscReg
            false 0)
        stage2Tlb := Tlb.construct 0 true }).tlb.table, e.valid = true :=
  ⟨{ valid := true, vmid := 5, N := 12, vpn := 1, size := 4095, el := 1 }, by decide, rfl⟩

end TlbPair

end Gem5.Arm
