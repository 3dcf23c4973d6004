import Gem5.Dev.VirtQueue

namespace Gem5.Dev.VirtQueue

open Lib List Option

/-! Which chains the device can follow. -/

variable {mem : GuestMemory} {q : VirtQueue} {head : Nat}

def link (mem : GuestMemory) (q : VirtQueue) (i : Nat) : Option Nat := nextOf (q.loaded mem i)

@[simp] theorem next_update_self (i : Nat) : (q.update mem i).next i = q.link mem i := by
  simp [next, update, link]

/-- What has been updated has the links of the guest. -/
structure Walked (mem : GuestMemory) (q : VirtQueue) (visited : List Nat) (q' : VirtQueue) :
    Prop where
  size : q'.size = q.size
  order : q'.order = q.order
  address : q'.address = q.address
  loaded : ∀ i ∈ visited, q'.descriptors i = q.loaded mem i
  others : ∀ i, i ∉ visited → q'.descriptors i = q.descriptors i

theorem Walked.refl (mem : GuestMemory) (q : VirtQueue) : Walked mem q [] q :=
  ⟨rfl, rfl, rfl, nofun, fun _ _ => rfl⟩

section

variable (h : Walked mem q visited q')
include h

theorem Walked.loaded_eq (i : Nat) : q'.loaded mem i = q.loaded mem i := by
  unfold VirtQueue.loaded
  rw [h.address, h.order]
  split_ifs with haddr
  · by_cases hi : i ∈ visited
    · rw [h.loaded i hi]
      unfold VirtQueue.loaded
      rw [if_pos haddr]
    · exact h.others i hi
  · rfl

theorem Walked.update (i : Nat) : Walked mem q (visited ++ [i]) (q'.update mem i) := by
  refine ⟨h.size, h.order, h.address, fun j hj => ?_, fun j hj => ?_⟩
  · obtain rfl | hji := eq_or_ne j i
    · simp [VirtQueue.update, h.loaded_eq]
    · have hmem : j ∈ visited := by
        rcases mem_append.mp hj with hj | hj
        · exact hj
        · exact absurd (mem_singleton.mp hj) hji
      simp [VirtQueue.update, hji, h.loaded j hmem]
  · rw [mem_append, not_or] at hj
    have hji : j ≠ i := fun heq => hj.2 (heq ▸ mem_singleton_self j)
    simp [VirtQueue.update, hji, h.others j hj.1]

theorem Walked.link_eq (i : Nat) : q'.link mem i = q.link mem i := by
  unfold link
  rw [h.loaded_eq]

theorem Walked.next_eq (hi : i ∈ visited) : q'.next i = q.link mem i := by
  unfold next link
  rw [h.loaded i hi]

end

/-- What a round of `updateChain` finds: an index outside of the queue, the end of the chain, the
head again, or another descriptor. -/
theorem updateRound_cases (mem : GuestMemory) (head : Nat) (w : ChainWalk) :
    (w.queue.size ≤ w.desc ∧ updateRound mem head w =
      .inr (.error (.outOfBounds w.desc), w.visited ++ [w.desc])) ∨
    (w.desc < w.queue.size ∧ w.queue.link mem w.desc = none ∧ updateRound mem head w =
      .inr (.ok (w.queue.update mem w.desc), w.visited ++ [w.desc])) ∨
    (w.desc < w.queue.size ∧ w.queue.link mem w.desc = some head ∧ updateRound mem head w =
      .inr (.error (.panic "Loop in descriptor chain!\n"), w.visited ++ [w.desc])) ∨
    ∃ j, w.desc < w.queue.size ∧ w.queue.link mem w.desc = some j ∧ j ≠ head ∧
      updateRound mem head w =
        .inl
          { queue := w.queue.update mem w.desc
            desc := j
            visited := w.visited ++ [w.desc] } := by
  unfold updateRound
  dsimp only
  by_cases hsize : w.queue.size ≤ w.desc
  · exact .inl ⟨hsize, if_pos hsize⟩
  have hlt := not_le.mp hsize
  rw [if_neg hsize, next_update_self]
  cases hlink : w.queue.link mem w.desc with
  | none => exact .inr (.inl ⟨hlt, rfl, rfl⟩)
  | some j =>
    by_cases hj : j = head
    · exact .inr (.inr (.inl ⟨hlt, by rw [hj], by simp [hj]⟩))
    · exact .inr (.inr (.inr ⟨j, hlt, rfl, hj, by simp [hj]⟩))

/-- A chain that is followed to its end: every descriptor is in the queue and is visited once, and
the last one has no successor, or the head. -/
structure Followed (mem : GuestMemory) (q : VirtQueue) (head : Nat) (path : List Nat) (last : Nat) :
    Prop where
  links : Path (q.link mem) head path last
  nodup : path.Nodup
  inside : ∀ i ∈ path, i < q.size
  ends : q.link mem last = none ∨ q.link mem last = some head

theorem Followed.ends_updateRound {last : Nat} (h : Followed mem q head path last) :
    ∃ q', Walked mem q path q' ∧ Ends (updateRound mem head) { queue := q, desc := head }
        (if q.link mem last = none then .ok q' else .error (.panic "Loop in descriptor chain!\n"),
          path) := by
  -- the walk goes along the path
  have hgo : ∀ rest i visited q₁, Path (q.link mem) i rest last → Walked mem q visited q₁ →
      path = visited ++ rest → (∀ j ∈ rest.tail, j ≠ head) →
      ∃ q', Walked mem q path q' ∧
        loop (updateRound mem head) rest.length { queue := q₁, desc := i, visited } =
          some (if q.link mem last = none then .ok q' else .error
            (.panic "Loop in descriptor chain!\n"),
            path) := by
    intro rest i visited q₁ hpath
    induction hpath generalizing visited q₁ with
    | single i =>
      intro hwalked hrest _
      have hinside := h.inside i (hrest ▸ mem_append_right _ (mem_singleton_self i))
      refine ⟨q₁.update mem i, hrest ▸ hwalked.update i, ?_⟩
      rcases updateRound_cases mem head { queue := q₁, desc := i, visited } with
        ⟨hle, -⟩ | ⟨-, hlink, hround⟩ | ⟨-, hlink, hround⟩ | ⟨j, -, hlink, hne, -⟩
      · exact absurd (hwalked.size ▸ hle) (not_le.mpr hinside)
      · rw [hwalked.link_eq] at hlink
        rw [length_singleton, loop_succ_inr hround, if_pos hlink, hrest]
      · rw [hwalked.link_eq] at hlink
        rw [length_singleton, loop_succ_inr hround, if_neg (by rw [hlink]; simp), hrest]
      · rw [hwalked.link_eq] at hlink
        rcases h.ends with hend | hend
        · rw [hlink] at hend
          cases hend
        · rw [hlink] at hend
          exact absurd (some.inj hend) hne
    | @cons i j k l hj hrestPath ih =>
      intro hwalked hrest htail
      have hinside := h.inside i (hrest ▸ mem_append_right _ mem_cons_self)
      have hjhead : j ≠ head := by
        cases hrestPath with
        | single => exact htail j (mem_singleton_self j)
        | cons => exact htail j mem_cons_self
      rcases updateRound_cases mem head { queue := q₁, desc := i, visited } with
        ⟨hle, -⟩ | ⟨-, hlink, -⟩ | ⟨-, hlink, -⟩ | ⟨j', -, hlink, -, hround⟩
      · exact absurd (hwalked.size ▸ hle) (not_le.mpr hinside)
      · rw [hwalked.link_eq, hj] at hlink
        cases hlink
      · rw [hwalked.link_eq, hj] at hlink
        exact absurd (some.inj hlink) hjhead
      rw [hwalked.link_eq, hj] at hlink
      obtain rfl := some.inj hlink
      obtain ⟨q', hq', hloop⟩ := ih h (visited ++ [i]) (q₁.update mem i) (hwalked.update i)
        (by rw [hrest, append_assoc]; rfl)
        (fun m hm => htail m (mem_of_mem_tail hm))
      refine ⟨q', hq', ?_⟩
      rw [length_cons, loop_succ_inl hround]
      exact hloop
  have htail : ∀ j ∈ path.tail, j ≠ head := by
    intro j hj heq
    have hnodup := h.nodup
    cases h.links with
    | single => cases hj
    | cons => exact (nodup_cons.mp hnodup).1 (heq ▸ hj)
  obtain ⟨q', hq', hloop⟩ := hgo path head [] q h.links (.refl mem q) rfl htail
  exact ⟨q', hq', .of_loop hloop⟩

/-- The descriptors that `updateChain` has updated are such a chain, unless one is visited twice or
lies outside of the queue. -/
theorem exists_followed
    (hloop : loop (updateRound mem head) fuel { queue := q, desc := head } = some (r, visited))
    (hnodup : visited.Nodup) (hinside : ∀ i, r ≠ .error (.outOfBounds i)) :
    ∃ last, Followed mem q head visited last := by
  obtain ⟨w, ⟨hwalked, hpath, hsize⟩, hend⟩ := loop_invariant (f := updateRound mem head)
    (fun w => Walked mem q w.visited w.queue ∧
      Path (q.link mem) head (w.visited ++ [w.desc]) w.desc ∧ ∀ i ∈ w.visited, i < q.size)
    (fun w w' hw hround => by
      obtain ⟨hwalked, hpath, hsize⟩ := hw
      rcases updateRound_cases mem head w with
        ⟨-, heq⟩ | ⟨-, -, heq⟩ | ⟨-, -, heq⟩ | ⟨j, hlt, hlink, -, heq⟩
      · rw [heq] at hround
        cases hround
      · rw [heq] at hround
        cases hround
      · rw [heq] at hround
        cases hround
      · rw [heq] at hround
        rw [hwalked.link_eq] at hlink
        rw [← Sum.inl.inj hround]
        refine ⟨hwalked.update w.desc, hpath.snoc hlink, fun i hi => ?_⟩
        rcases mem_append.mp hi with hi | hi
        · exact hsize i hi
        · rw [mem_singleton.mp hi, ← hwalked.size]
          exact hlt)
    ⟨.refl mem q, .single head, fun _ h => (by cases h)⟩ hloop
  have hall : w.desc < w.queue.size → ∀ i ∈ w.visited ++ [w.desc], i < q.size := by
    intro hlt i hi
    rcases mem_append.mp hi with hi | hi
    · exact hsize i hi
    · rw [mem_singleton.mp hi, ← hwalked.size]
      exact hlt
  rcases updateRound_cases mem head w with
    ⟨-, heq⟩ | ⟨hlt, hlink, heq⟩ | ⟨hlt, hlink, heq⟩ | ⟨j, -, -, -, heq⟩
  · rw [heq] at hend
    exact absurd (Prod.mk.inj (Sum.inr.inj hend)).1.symm (hinside w.desc)
  · rw [heq] at hend
    obtain ⟨-, rfl⟩ := Prod.mk.inj (Sum.inr.inj hend)
    exact ⟨w.desc, hpath, hnodup, hall hlt, .inl (hwalked.link_eq w.desc ▸ hlink)⟩
  · rw [heq] at hend
    obtain ⟨-, rfl⟩ := Prod.mk.inj (Sum.inr.inj hend)
    exact ⟨w.desc, hpath, hnodup, hall hlt, .inr (hwalked.link_eq w.desc ▸ hlink)⟩
  · rw [heq] at hend
    cases hend

/-! The loops of the devices follow the links. -/

theorem sizeRound_next (h : q.sizeRound (i, s) = .inl (j, s')) : q.next i = some j := by
  dsimp only [sizeRound] at h
  split_ifs at h
  split at h
  · cases h
  · rename_i hnext
    rw [hnext, (Prod.mk.inj (Sum.inl.inj h)).1]

theorem readRound_next (h : q.readRound mem (i, t) = .inl (j, t')) : q.next i = some j := by
  dsimp only [readRound] at h
  split_ifs at h
  split at h
  · cases h
  split at h
  · cases h
  · rename_i hnext
    split at h
    · cases h
    · split_ifs at h
      rw [hnext, (Prod.mk.inj (Sum.inl.inj h)).1]

theorem writeRound_next (h : q.writeRound (i, s) = .inl (j, s')) : q.next i = some j := by
  obtain ⟨t, mem⟩ := s
  dsimp only [writeRound] at h
  split_ifs at h
  split at h
  · cases h
  · split at h
    · cases h
    · rename_i hnext
      split_ifs at h
      rw [hnext, (Prod.mk.inj (Sum.inl.inj h)).1]

structure Finite (q : VirtQueue) (d : Nat) : Prop where
  chain : ∃ path last, Path q.next d path last ∧ q.next last = none ∧ path.Nodup ∧
    ∀ i ∈ path, i < q.size
  chainSize : ∃ a n, ∀ fuel, n ≤ fuel → q.chainSize fuel d = some a
  chainRead : ∀ mem offset size, ∃ a n, ∀ fuel, n ≤ fuel →
    q.chainRead fuel mem d offset size = some a
  chainWrite : ∀ mem offset src, ∃ a n, ∀ fuel, n ≤ fuel →
    q.chainWrite fuel mem d offset src = some a

theorem finish_ends (h : ∃ a n, ∀ fuel, n ≤ fuel → q.chainSize fuel d = some a) (text : String)
    (t : Transfer) : ∃ a n, ∀ fuel, n ≤ fuel → finish fuel q d text t = some a := by
  obtain ⟨a, n, h⟩ := h
  unfold finish
  split_ifs
  · exact ⟨_, n, fun fuel hle => by rw [h fuel hle]; rfl⟩
  · exact ⟨_, 0, fun _ _ => rfl⟩

theorem finite_of_path {d last : Nat} (hpath : Path q.next d path last)
    (hlast : q.next last = none) (hnodup : path.Nodup) (hinside : ∀ i ∈ path, i < q.size) :
    q.Finite d := by
  have hsize := hpath.ends (fun _ _ _ _ h => sizeRound_next h) hlast 0
  refine ⟨⟨path, last, hpath, hlast, hnodup, hinside⟩, hsize, fun mem offset size => ?_,
    fun mem offset src => ?_⟩
  · obtain ⟨a, n, hloop⟩ := hpath.ends
      (fun i t j t' (h : q.readRound mem (i, t) = .inl (j, t')) => readRound_next h) hlast
      ({ offset, size } : Transfer)
    unfold VirtQueue.chainRead
    cases a with
    | error e => exact ⟨_, n, fun fuel hle => by rw [hloop fuel hle]; rfl⟩
    | ok t =>
      obtain ⟨a, n', hfinish⟩ := finish_ends hsize failedRead t
      exact ⟨a, max n n', fun fuel hle => by
        rw [hloop fuel (by omega)]
        exact hfinish fuel (by omega)⟩
  · obtain ⟨a, n, hloop⟩ := hpath.ends (fun _ _ _ _ h => writeRound_next h) hlast
      (({ offset, size := src.length, data := src } : Transfer), mem)
    unfold VirtQueue.chainWrite
    cases a with
    | error e => exact ⟨_, n, fun fuel hle => by rw [hloop fuel hle]; rfl⟩
    | ok x =>
      obtain ⟨a, n', hfinish⟩ := finish_ends hsize failedWrite x.1
      exact ⟨_, max n n', fun fuel hle => by
        rw [hloop fuel (by omega)]
        exact congrArg (Option.map (Except.map _)) (hfinish fuel (by omega))⟩

/-- The device is safe with this memory: it gets a descriptor or stops as it is meant to, after it
has visited every descriptor once at most. -/
def Safe (mem : GuestMemory) (q : VirtQueue) : Prop :=
  ∃ r visited, (∃ n, ∀ fuel, n ≤ fuel → q.consumeDescriptor fuel mem = some (r, visited)) ∧
    visited.Nodup ∧ r ≠ .error .divideByZero ∧ (∀ i, r ≠ .error (.outOfBounds i)) ∧
    ∀ d q', r = .ok (some d, q') → q'.Finite d

/-- The queue has no address or nothing new, or the chain that the guest offers stays in the queue
and comes to an end, or back to its head, without a loop on the way. -/
def WellLinked (mem : GuestMemory) (q : VirtQueue) : Prop :=
  q.availBase = 0 ∨ q.lastAvail = q.availIndex mem ∨
    q.size ≠ 0 ∧ ∃ path last, Followed mem q (q.availHead mem) path last

theorem consumeDescriptor_safe_iff (mem : GuestMemory) (q : VirtQueue) :
    Safe mem q ↔ WellLinked mem q := by
  unfold Safe WellLinked consumeDescriptor
  by_cases hbase : q.availBase = 0
  · refine ⟨fun _ => .inl hbase, fun _ => ⟨.error (.assertion "_base != 0"), [],
      ⟨0, fun fuel _ => ?_⟩,
      nodup_nil, ?_, fun i => ?_, fun d q' => ?_⟩⟩
    · rw [if_pos hbase]
    all_goals exact nofun
  by_cases hindex : q.lastAvail = q.availIndex mem
  · refine ⟨fun _ => .inr (.inl hindex), fun _ => ⟨.ok (none, q), [], ⟨0, fun fuel _ => ?_⟩,
      nodup_nil, ?_, fun i => ?_, fun d q' => ?_⟩⟩
    · rw [if_neg hbase, if_pos hindex]
    all_goals exact nofun
  simp only [if_neg hbase, if_neg hindex]
  by_cases hsize : q.size = 0
  · simp only [if_pos hsize]
    constructor
    · rintro ⟨r, visited, ⟨n, hrun⟩, -, hzero, -⟩
      exact absurd (Prod.mk.inj (some.inj (hrun n n.le_refl))).1.symm hzero
    · rintro (h | h | h)
      · exact absurd h hbase
      · exact absurd h hindex
      · exact absurd hsize h.1
  simp only [if_neg hsize]
  constructor
  · rintro ⟨r, visited, ⟨n, hrun⟩, hnodup, -, hinside, -⟩
    obtain ⟨⟨r', visited'⟩, hloop, hr⟩ := map_eq_some_iff.mp (hrun n n.le_refl)
    obtain ⟨rfl, rfl⟩ := Prod.mk.inj hr
    obtain ⟨last, h⟩ := exists_followed hloop hnodup (fun i hi => hinside i (by rw [hi]; rfl))
    exact .inr (.inr ⟨hsize, visited', last, h.links, h.nodup, h.inside, h.ends⟩)
  rintro (h | h | ⟨-, path, last, h⟩)
  · exact absurd h hbase
  · exact absurd h hindex
  have h' : Followed mem { q with lastAvail := q.lastAvail + 1 } (q.availHead mem) path last :=
    { h with }
  obtain ⟨q', hwalked, n, hloop⟩ := h'.ends_updateRound
  refine ⟨Except.map (fun q => (some (availHead mem _), q)) _, path,
    ⟨n, fun fuel hle => by rw [hloop fuel hle]; rfl⟩, h.nodup, ?_⟩
  by_cases hlast : q.link mem last = none
  · rw [if_pos (by exact hlast)]
    refine ⟨nofun, nofun, fun d q'' hr => ?_⟩
    obtain ⟨hd, rfl⟩ := Prod.mk.inj (Except.ok.inj hr)
    obtain rfl := some.inj hd
    refine finite_of_path (h.links.mono (fun i hi => hwalked.next_eq hi))
      ((hwalked.next_eq h.links.mem_last).trans hlast) h.nodup (fun i hi => ?_)
    rw [hwalked.size]
    exact h.inside i hi
  · rw [if_neg (by exact hlast)]
    exact ⟨nofun, nofun, nofun⟩

/-- A queue of the guest at 4096, with descriptors 0, 1 and 2 linked to the given ones, and
descriptor `head` on offer. -/
def linkedMemory (head next₀ next₁ next₂ : UInt8) : GuestMemory := fun a =>
  if a = 4096 + 12 ∨ a = 4096 + 28 ∨ a = 4096 + 44 then 1
  else if a = 4096 + 14 then next₀
  else if a = 4096 + 30 then next₁
  else if a = 4096 + 46 then next₂
  else if a = 4096 + 66 then 1
  else if a = 4096 + 68 then head
  else 0

/-- A loop that does not go through the head is followed for ever, and an index that is not below
the size of the queue is used as it is. -/
theorem consumeDescriptor_follows_guest :
    (∀ fuel, consumeDescriptor fuel (linkedMemory 0 1 2 1) (setAddress 4096 { size := 4 }) = none) ∧
    (consumeDescriptor 1 (linkedMemory 9 1 2 1) (setAddress 4096 { size := 4 })).map Prod.snd =
      some [9] := by
  constructor
  · intro fuel
    let q : VirtQueue := { setAddress 4096 { size := 4 } with lastAvail := 1 }
    have hloop : loop (updateRound (linkedMemory 0 1 2 1) 0) fuel { queue := q, desc := 0 } =
        none := by
      apply loop_eq_none (fun w => Walked (linkedMemory 0 1 2 1) q w.visited w.queue ∧
        (w.desc = 0 ∨ w.desc = 1 ∨ w.desc = 2))
      · intro w ⟨hwalked, hdesc⟩
        have hlink : ∃ j, q.link (linkedMemory 0 1 2 1) w.desc = some j ∧ (j = 1 ∨ j = 2) := by
          rcases hdesc with h | h | h
          · exact ⟨1, by rw [h]; decide, .inl rfl⟩
          · exact ⟨2, by rw [h]; decide, .inr rfl⟩
          · exact ⟨1, by rw [h]; decide, .inl rfl⟩
        obtain ⟨j, hj, hcases⟩ := hlink
        rcases updateRound_cases (linkedMemory 0 1 2 1) 0 w with
          ⟨hle, -⟩ | ⟨-, h, -⟩ | ⟨-, h, -⟩ | ⟨j', -, h, -, hround⟩
        · have hsize : w.queue.size = 4 := hwalked.size
          omega
        · rw [hwalked.link_eq, hj] at h
          cases h
        · rw [hwalked.link_eq, hj] at h
          obtain rfl := some.inj h
          omega
        · rw [hwalked.link_eq, hj] at h
          obtain rfl := some.inj h
          exact ⟨_, hround, hwalked.update w.desc, .inr hcases⟩
      · exact ⟨.refl _ q, .inl rfl⟩
    have hhead : availHead (linkedMemory 0 1 2 1) (setAddress 4096 { size := 4 }) = 0 := by decide
    unfold consumeDescriptor
    rw [if_neg (by decide), if_neg (by decide), if_neg (by decide), hhead]
    exact map_eq_none_iff.mpr hloop
  · decide

/-! What the device reads from a chain. -/

def bufferAddrs (d : VringDesc) : List UInt64 :=
  (range d.len.toNat).map (d.addr + UInt64.ofNat ·)

def chainAddrs (q : VirtQueue) (path : List Nat) : List UInt64 :=
  path.flatMap (fun i => bufferAddrs (q.descriptors i))

/-- What is left of a transfer after these bytes have been read or skipped. -/
def readStep (mem : GuestMemory) (addrs : List UInt64) (t : Transfer) : Transfer where
  offset := t.offset - addrs.length
  size := t.size - (addrs.length - t.offset)
  data := t.data ++ ((addrs.drop t.offset).take t.size).map mem

theorem readDescriptor_eq (t : Transfer) (hin : d.isIncoming) :
    readDescriptor mem d t = .ok (readStep mem (bufferAddrs d) t) := by
  have hlen : (bufferAddrs d).length = d.len.toNat := by simp [bufferAddrs]
  have hout : ¬ d.isOutgoing := by simpa [VringDesc.isIncoming] using hin
  unfold readDescriptor read readStep
  rw [hlen, if_neg hout]
  split_ifs with hlt
  · have hdata : readBlob mem (d.addr + .ofNat t.offset) (min (d.len.toNat - t.offset) t.size) =
        (((bufferAddrs d).drop t.offset).take t.size).map mem := by
      refine ext_getElem (by simp [readBlob, hlen, min_comm]) (fun m _ _ => ?_)
      simp [readBlob, bufferAddrs, add_assoc]
    rw [hdata, Nat.sub_eq_zero_of_le hlt.le]
    congr 2
    omega
  · rw [drop_eq_nil_of_le (by omega), Nat.sub_eq_zero_of_le (not_lt.mp hlt)]
    simp

theorem readStep_append (a b : List UInt64) (t : Transfer) :
    readStep mem (a ++ b) t = readStep mem b (readStep mem a t) := by
  simp only [readStep, length_append, drop_append, take_append, length_drop, map_append,
    append_assoc, Transfer.mk.injEq, and_true]
  omega

/-- The incoming buffers at the head of a chain. -/
structure Incoming (q : VirtQueue) (head : Nat) (path : List Nat) (last : Nat) : Prop where
  links : Path q.next head path last
  incoming : ∀ i ∈ path, i < q.size ∧ (q.descriptors i).isIncoming
  ends : ∀ j, q.next last = some j → j < q.size ∧ ¬ (q.descriptors j).isIncoming

/-- The buffers are read as if they were one. -/
theorem Incoming.loop_readRound (mem) {last : Nat} (h : q.Incoming head path last) (t : Transfer) :
    ∃ t', loop (q.readRound mem) path.length (head, t) = some (.ok t') ∧
      t'.size = (readStep mem (q.chainAddrs path) t).size ∧
      t'.data = (readStep mem (q.chainAddrs path) t).data := by
  obtain ⟨hpath, hin, hlast⟩ := h
  induction hpath generalizing t with
  | single i =>
    obtain ⟨hi, hinc⟩ := hin i (mem_singleton_self i)
    have hround : q.readRound mem (i, t) = .inr (.ok (readStep mem (q.chainAddrs [i]) t)) := by
      simp only [readRound, hi.not_ge, readDescriptor_eq t hinc, chainAddrs, flatMap_singleton,
        if_false]
      cases hnext : q.next i with
      | none => rfl
      | some j => simp [(hlast j hnext).1.not_ge, hlast j hnext]
    exact ⟨_, loop_succ_inr hround 0, rfl, rfl⟩
  | @cons i j k l hj rest ih =>
    obtain ⟨hi, hinc⟩ := hin i mem_cons_self
    obtain ⟨hj', hinc'⟩ := hin j (.tail _ (by cases rest <;> exact mem_cons_self))
    have hstep : readDescriptor mem _ t = _ := readDescriptor_eq t hinc
    have haddrs : q.chainAddrs (i :: l) = bufferAddrs (q.descriptors i) ++ q.chainAddrs l := rfl
    rw [length_cons, haddrs, readStep_append]
    generalize readStep mem _ t = t' at hstep ⊢
    have hround : q.readRound mem (i, t) = if 0 < t'.size then .inl (j, t') else .inr (.ok t') := by
      simp [readRound, hi.not_ge, hstep, hj, hj'.not_ge, hinc']
    split_ifs at hround with hsize
    · rw [loop_succ_inl hround]
      exact ih t' (fun m hm => hin m (.tail _ hm)) hlast
    · -- the rest of the chain is not looked at
      refine ⟨t', loop_succ_inr hround _, ?_⟩
      simp [readStep, Nat.eq_zero_of_not_pos hsize]

/-- A read gives the bytes that lie at its place in the incoming buffers. When these are too short
for it, it panics with the size of the whole chain, if that comes to an end. -/
theorem chainRead_slice (mem : GuestMemory) {last : Nat} (h : q.Incoming head path last)
    (offset size : Nat) (hfuel : path.length ≤ fuel) :
    (q.chainRead fuel mem head offset size).map (Except.map Transfer.data) =
      if size ≤ (q.chainAddrs path).length - offset
      then some (.ok ((((q.chainAddrs path).drop offset).take size).map mem))
      else (q.chainSize fuel head).map (Except.bind · (fun _ => .error (.panic failedRead))) := by
  obtain ⟨t, ht, hsize, hdata⟩ := h.loop_readRound mem { offset, size }
  rw [chainRead, loop_mono ht hfuel, bind_some]
  simp only [finish, hsize, readStep, ne_eq, Nat.sub_eq_zero_iff_le, ite_not]
  split_ifs
  · simp [Except.map, hdata, readStep]
  · cases q.chainSize fuel head with
    | none => rfl
    | some n => cases n <;> rfl

/-- Three bytes are read across the border of two buffers, and six are too many. -/
theorem chainRead_slice_two : (chainRead 2 UInt64.toUInt8 { size := 2, descriptors := fun i =>
    if i = 0 then { addr := 16, len := 2, flags := 1, next := 1 } else { addr := 32, len := 4 } }
    0 1 3).map (Except.map Transfer.data) = some (.ok [17, 32, 33]) ∧
    (chainRead 2 UInt64.toUInt8 { size := 2, descriptors := fun i =>
      if i = 0 then { addr := 16, len := 2, flags := 1, next := 1 } else { addr := 32, len := 4 } }
      0 1 6).map (Except.map Transfer.data) = some (.error (.panic failedRead)) :=
  ⟨chainRead_slice UInt64.toUInt8 ⟨.cons rfl (.single 1), by decide, by decide⟩ 1 3 le_rfl,
    chainRead_slice UInt64.toUInt8 ⟨.cons rfl (.single 1), by decide, by decide⟩ 1 6 le_rfl⟩

end Gem5.Dev.VirtQueue
