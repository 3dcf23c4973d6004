import Gem5.Lib.Transition
import Gem5.Ruby.DirectoryMemory

namespace Gem5.Ruby

open Lib Function Option

inductive AccessPermission
  | readOnly | readWrite | maybeStale | backingStore | invalid | notPresent | busy
deriving DecidableEq

inductive ReplacementPolicy
  | lru | pseudoLru | weightedLru

structure CacheConfig where
  size : Nat
  assoc : Nat
  blockSize : Nat
  startIndexBit : Nat
  policy : ReplacementPolicy
  ways : 0 < assoc
  manySets : 1 < size / assoc / blockSize

namespace CacheConfig

variable (cfg : CacheConfig)

def numSets : Nat := cfg.size / cfg.assoc / cfg.blockSize

def numSetBits : Nat := Nat.log2 cfg.numSets

def addressToCacheSet (address : Nat) : Nat :=
  bitSelect address cfg.startIndexBit (cfg.startIndexBit + cfg.numSetBits - 1)

/-- The leaves of the tree of a set, and how many levels there are above them. -/
def effectiveAssoc : Nat := Nat.nextPowerOfTwo cfg.assoc

def numLevels : Nat := Nat.log2 cfg.effectiveAssoc

end CacheConfig

/-- When the ways of the sets were last used and with which occupancy, and the bits of the sets'
trees. -/
structure Replacement where
  lastRef : Nat → Nat → Nat := fun _ _ => 0
  lastOcc : Nat → Nat → Int := fun _ _ => 0
  trees : Nat → Nat → Bool := fun _ _ => false

namespace Replacement

variable (cfg : CacheConfig) (s : Replacement)

/-- The bits on the path to a way say where it is. -/
def touchTree (index : Nat) (tree : Nat → Bool) : Nat → Bool :=
  ((List.range cfg.numLevels).reverse.foldl (fun (p : (Nat → Bool) × Nat) i =>
    (Function.update p.1 p.2 (index.testBit i),
      if index.testBit i then p.2 * 2 + 2 else p.2 * 2 + 1)) (tree, 0)).1

def touch (set index time : Nat) : Replacement where
  lastRef := Function.update s.lastRef set (Function.update (s.lastRef set) index time)
  lastOcc := s.lastOcc
  trees := match cfg.policy with
    | .lru | .weightedLru => s.trees
    | .pseudoLru => Function.update s.trees set (touchTree cfg index (s.trees set))

/-- As `setMRU` with an occupancy calls it, which only a weighted policy uses. -/
def touchOccupancy (set index time : Nat) (occupancy : Int) : Replacement :=
  match cfg.policy with
  | .lru | .pseudoLru => s.touch cfg set index time
  | .weightedLru => { s.touch cfg set index time with
      lastOcc := Function.update s.lastOcc set (Function.update (s.lastOcc set) index occupancy) }

def lruVictim (lastRef : Nat → Nat) : Nat :=
  (List.range cfg.assoc).foldl (fun smallest i => if lastRef i < lastRef smallest then i
    else smallest) 0

/-- Away from where the bits lead; a leaf that is no way stands for the last way. -/
def treeVictim (tree : Nat → Bool) : Nat :=
  min ((List.range cfg.numLevels).foldl (fun (p : Nat × Nat) i =>
    if tree p.2 then (p.1, p.2 * 2 + 1)
    else (p.1 + cfg.effectiveAssoc >>> (i + 1), p.2 * 2 + 2)) (0, 0)).1 (cfg.assoc - 1)

/-- The index, the time and the weight of the smallest way so far. Way 0 comes with its time as its
weight, in an `int`. -/
def weightedVictim (lastRef : Nat → Nat) (lastOcc : Nat → Int) : Nat :=
  ((List.range' 1 (cfg.assoc - 1)).foldl (fun (smallest : Nat × Nat × Int) i =>
    if lastOcc i < smallest.2.2 then (i, lastRef i, lastOcc i)
    else if lastOcc i = smallest.2.2 ∧ lastRef i < smallest.2.1 then (i, lastRef i, smallest.2.2)
    else smallest) (0, lastRef 0, Int.bmod (lastRef 0) (2 ^ 32))).1

def getVictim (set : Nat) : Nat :=
  match cfg.policy with
  | .lru => lruVictim cfg (s.lastRef set)
  | .pseudoLru => treeVictim cfg (s.trees set)
  | .weightedLru => weightedVictim cfg (s.lastRef set) (s.lastOcc set)

theorem getVictim_lt (set : Nat) : s.getVictim cfg set < cfg.assoc := by
  unfold getVictim
  have hways := cfg.ways
  cases cfg.policy with
  | lru =>
    refine List.foldlRecOn (motive := (· < cfg.assoc)) _ _ hways (fun smallest h i hi => ?_)
    have := List.mem_range.mp hi
    split <;> assumption
  | pseudoLru =>
    simp only [treeVictim]
    omega
  | weightedLru =>
    refine List.foldlRecOn (motive := fun smallest : Nat × Nat × Int => smallest.1 < cfg.assoc) _ _
      hways (fun smallest h i hi => ?_)
    have := (List.mem_range'_1.mp hi).2
    split_ifs <;> omega

end Replacement

structure CacheEntry where
  address : Nat
  permission : AccessPermission
deriving DecidableEq

structure CacheMemory where
  tagIndex : Nat → Option Nat := fun _ => none
  cache : Nat → Nat → Option CacheEntry := fun _ _ => none
  replacement : Replacement := {}

namespace CacheMemory

variable (cfg : CacheConfig) (s : CacheMemory)

/-- The way of a tag that is present. There is no result where a null pointer is followed. -/
def findTagInSet (cacheSet tag : Nat) : Option (Option Nat) :=
  match s.tagIndex tag with
  | none => some none
  | some way => (s.cache cacheSet way).map (fun entry =>
      if entry.permission = .notPresent then none else some way)

def isTagPresent (address : Nat) : Option Bool :=
  (s.findTagInSet (cfg.addressToCacheSet address) address).map Option.isSome

def lookup (address : Nat) : Option (Option CacheEntry) :=
  (s.findTagInSet (cfg.addressToCacheSet address) address).map
    (fun loc => loc.bind (s.cache (cfg.addressToCacheSet address)))

def isOpen (cacheSet way : Nat) : Bool :=
  (s.cache cacheSet way).all (fun entry => entry.permission = .notPresent)

def cacheAvail (address : Nat) : Bool :=
  (List.range cfg.assoc).any (fun i => (s.cache (cfg.addressToCacheSet address) i).all (fun entry =>
    entry.address = address ∨ entry.permission = .notPresent))

def put (cacheSet way : Nat) (entry : Option CacheEntry) : CacheMemory :=
  { s with cache := fun i j => if i = cacheSet ∧ j = way then entry else s.cache i j }

def slot (address : Nat) : Option Nat :=
  (List.range cfg.assoc).find? (s.isOpen (cfg.addressToCacheSet address))

def allocate (address : Nat) (touch : Bool) (now : Nat) : Option CacheMemory :=
  let cacheSet := cfg.addressToCacheSet address
  if s.isTagPresent cfg address = some false ∧ s.cacheAvail cfg address then
    (s.slot cfg address).map (fun i =>
      { s.put cacheSet i (some ⟨address, .invalid⟩) with
        tagIndex := Function.update s.tagIndex address (some i)
        replacement := if touch then s.replacement.touch cfg cacheSet i now else s.replacement })
  else none

def deallocate (address : Nat) : Option CacheMemory :=
  let cacheSet := cfg.addressToCacheSet address
  (s.findTagInSet cacheSet address).join.map (fun loc =>
    { s.put cacheSet loc none with tagIndex := Function.update s.tagIndex address none })

def cacheProbe (address : Nat) : Option Nat :=
  let cacheSet := cfg.addressToCacheSet address
  if s.cacheAvail cfg address then none
  else (s.cache cacheSet (s.replacement.getVictim cfg cacheSet)).map CacheEntry.address

end CacheMemory

/-- A cache, and the lines that have been allocated and not been deallocated, with their
permissions. -/
structure CacheRun where
  mem : CacheMemory := {}
  lines : Nat → Option AccessPermission := fun _ => none

namespace CacheRun

/-- What a controller does with its cache. Permissions are those of the entries in the cache. -/
inductive Move
  | allocate (address : Nat) (touch : Bool) (now : Nat)
  | deallocate (address : Nat)
  | changePermission (cacheSet way : Nat) (permission : AccessPermission)
  | touch (cacheSet way now : Nat)
  | touchOccupancy (cacheSet way now : Nat) (occupancy : Int)

variable (cfg : CacheConfig)

def move (r : CacheRun) : Move → Option CacheRun
  | .allocate address touch now => (r.mem.allocate cfg address touch now).map
      (⟨·, Function.update r.lines address (some .invalid)⟩)
  | .deallocate address => (r.mem.deallocate cfg address).map
      (⟨·, Function.update r.lines address none⟩)
  | .changePermission cacheSet way permission => (r.mem.cache cacheSet way).map (fun entry =>
      ⟨r.mem.put cacheSet way (some { entry with permission }),
        Function.update r.lines entry.address (some permission)⟩)
  | .touch cacheSet way now => some { r with
      mem := { r.mem with replacement := r.mem.replacement.touch cfg cacheSet way now } }
  | .touchOccupancy cacheSet way now occupancy => some { r with mem := { r.mem with
      replacement := r.mem.replacement.touchOccupancy cfg cacheSet way now occupancy } }

def machine : Machine CacheRun Move where
  init r := r = {}
  step r m t := r.move cfg m = some t

structure IsMap (r : CacheRun) : Prop where
  found : ∀ a entry, r.mem.lookup cfg a = some (some entry) → entry.address = a
  present : ∀ a, r.mem.isTagPresent cfg a =
    some (decide (∃ permission ∈ r.lines a, permission ≠ .notPresent))
  distinct : ∀ cacheSet way way' entry entry', r.mem.cache cacheSet way = some entry →
    r.mem.cache cacheSet way' = some entry' → entry.address = entry'.address → way = way'
  victim : ∀ a, r.mem.cacheAvail cfg a = false → ∃ b, r.mem.cacheProbe cfg a = some b ∧
    (r.lines b).isSome ∧ cfg.addressToCacheSet b = cfg.addressToCacheSet a

/-- A way of the address's set is the one of the address, if it has one, and of no other address. -/
def Owns (r : CacheRun) (a way : Nat) : Prop :=
  ∀ j, ∀ entry ∈ r.mem.cache (cfg.addressToCacheSet a) j, j = way ↔ entry.address = a

/-- An allocation takes a way that is not the one of another address. -/
def TakesOwnWay (r : CacheRun) : Move → Prop
  | .allocate a _ _ => ∀ way ∈ r.mem.slot cfg a, Owns cfg r a way
  | _ => True

structure Inv (r : CacheRun) : Prop where
  indexed : ∀ a way, r.mem.tagIndex a = some way ↔
    ∃ entry, r.mem.cache (cfg.addressToCacheSet a) way = some entry ∧ entry.address = a
  placed : ∀ cacheSet way entry, r.mem.cache cacheSet way = some entry →
    cfg.addressToCacheSet entry.address = cacheSet
  lines : ∀ a, r.lines a = (r.mem.tagIndex a).bind (fun way =>
    (r.mem.cache (cfg.addressToCacheSet a) way).map CacheEntry.permission)

variable {cfg} {r t : CacheRun}

theorem Inv.find (h : Inv cfg r) (a : Nat) : (r.mem.tagIndex a = none ∧ r.lines a = none ∧
      r.mem.findTagInSet (cfg.addressToCacheSet a) a = some none) ∨
    ∃ way entry, r.mem.tagIndex a = some way ∧ entry.address = a ∧
      r.mem.cache (cfg.addressToCacheSet a) way = some entry ∧ r.lines a = some entry.permission ∧
      r.mem.findTagInSet (cfg.addressToCacheSet a) a =
        some (if entry.permission = .notPresent then none else some way) := by
  have hlines := h.lines a
  cases hway : r.mem.tagIndex a with
  | none => exact .inl ⟨rfl, by simpa [hway] using hlines, by simp [CacheMemory.findTagInSet, hway]⟩
  | some way =>
    obtain ⟨entry, hentry, haddr⟩ := (h.indexed a way).mp hway
    exact .inr ⟨way, entry, rfl, haddr, hentry, by simpa [hway, hentry] using hlines,
      by simp [CacheMemory.findTagInSet, hway, hentry]⟩

theorem Inv.isMap (h : Inv cfg r) : IsMap cfg r where
  found a entry hlook := by
    obtain ⟨-, -, hfind⟩ | ⟨way, e, -, haddr, hcache, -, hfind⟩ := h.find a
    · simp [CacheMemory.lookup, hfind] at hlook
    · by_cases hp : e.permission = .notPresent
      · simp [CacheMemory.lookup, hfind, hp] at hlook
      · simp only [CacheMemory.lookup, hfind, hp, if_false, map_some, bind_some, hcache,
          some.injEq] at hlook
        rwa [← hlook]
  present a := by
    obtain ⟨-, hline, hfind⟩ | ⟨way, e, -, -, -, hline, hfind⟩ := h.find a
    · simp [CacheMemory.isTagPresent, hfind, hline]
    · by_cases hp : e.permission = .notPresent <;>
        simp [CacheMemory.isTagPresent, hfind, hline, hp]
  distinct cacheSet way way' entry entry' hway hway' heq := by
    have hset := h.placed _ _ _ hway
    have h1 := (h.indexed entry.address way).mpr ⟨entry, by rw [hset, hway], rfl⟩
    have h2 := (h.indexed entry.address way').mpr ⟨entry', by rw [hset, hway'], heq.symm⟩
    exact some.inj (h1.symm.trans h2)
  victim a hfull := by
    have hlt := r.mem.replacement.getVictim_lt cfg (cfg.addressToCacheSet a)
    simp only [CacheMemory.cacheAvail, List.any_eq_false, List.mem_range] at hfull
    have hway := hfull _ hlt
    cases hentry : r.mem.cache (cfg.addressToCacheSet a)
        (r.mem.replacement.getVictim cfg (cfg.addressToCacheSet a)) with
    | none => simp [hentry] at hway
    | some entry =>
      have hset := h.placed _ _ _ hentry
      have hindex := (h.indexed entry.address _).mpr ⟨entry, by rw [hset, hentry], rfl⟩
      refine ⟨entry.address, ?_, ?_, hset⟩
      · simp only [CacheMemory.cacheProbe, CacheMemory.cacheAvail, hentry, map_some]
        rw [if_neg]
        simpa using hfull
      · simp [h.lines, hindex, hset, hentry]

/-- The way of an address gets another entry of the address, or none. -/
theorem Inv.put (h : Inv cfg r) {a way : Nat} {x : Option CacheEntry} {mem : CacheMemory}
    (hown : Owns cfg r a way) (hnew : ∀ entry ∈ x, entry.address = a)
    (hcache : mem.cache = (r.mem.put (cfg.addressToCacheSet a) way x).cache)
    (htag : mem.tagIndex = update r.mem.tagIndex a (x.map (fun _ => way))) :
    Inv cfg ⟨mem, update r.lines a (x.map CacheEntry.permission)⟩ := by
  have hother : ∀ b j, b ≠ a → r.mem.tagIndex b = some j →
      ¬ (cfg.addressToCacheSet b = cfg.addressToCacheSet a ∧ j = way) := by
    rintro b j hb hj ⟨hset, heq⟩
    obtain ⟨entry, hentry, haddr⟩ := (h.indexed b j).mp hj
    exact hb (haddr.symm.trans ((hown j entry (hset ▸ hentry)).mp heq))
  refine ⟨fun b j => ?_, fun cacheSet j entry hentry => ?_, fun b => ?_⟩
  · simp only [htag, hcache, CacheMemory.put]
    obtain rfl | hb := eq_or_ne b a
    · by_cases hj : j = way
      · cases x <;> simp_all
      · have : ∀ entry ∈ r.mem.cache (cfg.addressToCacheSet b) j, entry.address ≠ b :=
          fun entry hentry haddr => hj ((hown j entry hentry).mpr haddr)
        cases x <;> simp_all [Ne.symm hj]
    · rw [update_of_ne hb]
      split_ifs with hat
      · refine ⟨fun hj => absurd hat (hother b j hb hj), ?_⟩
        rintro ⟨entry, hentry, haddr⟩
        exact absurd (haddr.symm.trans (hnew entry hentry)) hb
      · exact h.indexed b j
  · simp only [hcache, CacheMemory.put] at hentry
    split_ifs at hentry with hat
    · rw [hnew entry hentry, hat.1]
    · exact h.placed _ _ _ hentry
  · simp only [htag, hcache, CacheMemory.put]
    obtain rfl | hb := eq_or_ne b a
    · cases x <;> simp
    · rw [update_of_ne hb, update_of_ne hb, h.lines]
      cases hj : r.mem.tagIndex b with
      | none => rfl
      | some j => simp [hother b j hb hj]

theorem Inv.owns (h : Inv cfg r) {a way : Nat} (hway : r.mem.tagIndex a = some way) :
    Owns cfg r a way := by
  obtain ⟨entry, hentry, haddr⟩ := (h.indexed a way).mp hway
  refine fun j e he => ⟨fun hj => ?_, fun heq => ?_⟩
  · subst hj
    rw [← some.inj (hentry.symm.trans he), haddr]
  · exact (h.isMap.distinct _ _ _ _ _ hentry he (haddr.trans heq.symm)).symm

theorem allocate_cases {a now : Nat} {touch : Bool} {mem : CacheMemory}
    (h : r.mem.allocate cfg a touch now = some mem) : ∃ way, r.mem.slot cfg a = some way ∧
      mem.cache = (r.mem.put (cfg.addressToCacheSet a) way (some ⟨a, .invalid⟩)).cache ∧
      mem.tagIndex = update r.mem.tagIndex a (some way) := by
  unfold CacheMemory.allocate at h
  split at h
  · obtain ⟨way, hway, rfl⟩ := map_eq_some_iff.mp h
    exact ⟨way, hway, rfl, rfl⟩
  · cases h

theorem Inv.step (h : Inv cfg r) {m : Move} (hstep : (machine cfg).step r m t)
    (hown : TakesOwnWay cfg r m) : Inv cfg t := by
  cases m with
  | allocate a touch now =>
    obtain ⟨mem, hmem, rfl⟩ := map_eq_some_iff.mp hstep
    obtain ⟨way, hslot, hcache, htag⟩ := allocate_cases hmem
    exact h.put (x := some ⟨a, .invalid⟩) (hown way hslot) (by simp) hcache htag
  | deallocate a =>
    obtain ⟨mem, hmem, rfl⟩ := map_eq_some_iff.mp hstep
    obtain ⟨way, hway, rfl⟩ := map_eq_some_iff.mp hmem
    obtain ⟨-, -, hfind⟩ | ⟨j, entry, hj, -, -, -, hfind⟩ := h.find a
    · simp [hfind] at hway
    · have : j = way := by
        rw [hfind] at hway
        split at hway <;> simp_all
      exact h.put (x := none) (h.owns (this ▸ hj)) (by simp) rfl rfl
  | changePermission cacheSet way permission =>
    obtain ⟨entry, hentry, rfl⟩ := map_eq_some_iff.mp hstep
    obtain rfl := h.placed _ _ _ hentry
    have hway := (h.indexed _ _).mpr ⟨entry, hentry, rfl⟩
    refine h.put (x := some { entry with permission }) (h.owns hway) (by simp) rfl ?_
    exact (Function.update_eq_self_iff.mpr hway.symm).symm
  | touch cacheSet way now =>
    obtain rfl := some.inj hstep
    exact { h with }
  | touchOccupancy cacheSet way now occupancy =>
    obtain rfl := some.inj hstep
    exact { h with }

/-- An allocation in the way of another address leaves the tag of that address behind. -/
theorem Inv.takesOwnWay (h : Inv cfg r) {m : Move} (hstep : (machine cfg).step r m t)
    (hmap : IsMap cfg t) : TakesOwnWay cfg r m := by
  cases m with
  | allocate a touch now =>
    intro way hslot j entry hentry
    obtain ⟨mem, hmem, rfl⟩ := map_eq_some_iff.mp hstep
    obtain ⟨i, hi, hcache, htag⟩ := allocate_cases hmem
    obtain rfl := some.inj (hslot.symm.trans hi)
    refine ⟨fun hj => by_contra fun hne => ?_, fun haddr => by_contra fun hne => ?_⟩
    · subst hj
      have hset := h.placed _ _ _ hentry
      have hindex := (h.indexed entry.address j).mpr ⟨entry, by rw [hset]; exact hentry, rfl⟩
      have hfound := hmap.found entry.address ⟨a, .invalid⟩ (by
        simp [CacheMemory.lookup, CacheMemory.findTagInSet, htag, hcache, CacheMemory.put,
          hne, hindex,
          hset])
      exact hne hfound.symm
    · refine hne (hmap.distinct (cfg.addressToCacheSet a) j way entry ⟨a, .invalid⟩ ?_ ?_ haddr)
      · simpa [hcache, CacheMemory.put, hne] using hentry
      · simp [hcache, CacheMemory.put]
  | deallocate a => trivial
  | changePermission cacheSet way permission => trivial
  | touch cacheSet way now => trivial
  | touchOccupancy cacheSet way now occupancy => trivial

theorem inv_of_reachable (h : ((machine cfg).restrict (TakesOwnWay cfg)).Reachable r) :
    Inv cfg r := by
  refine Machine.Reachable.invariant (M := (machine cfg).restrict (TakesOwnWay cfg)) ?_ ?_ h
  · rintro s rfl
    exact ⟨by simp, by simp, by simp⟩
  · exact fun s m t hs hstep => hs.step hstep.1 hstep.2

/-- The cache is a map of the lines as long as no allocation takes the way of another address, and
not after one that does. -/
theorem cache_is_map (h : ((machine cfg).restrict (TakesOwnWay cfg)).Reachable r) :
    IsMap cfg r ∧ ∀ m t, (machine cfg).step r m t → (IsMap cfg t ↔ TakesOwnWay cfg r m) := by
  have hinv := inv_of_reachable h
  exact ⟨hinv.isMap, fun m t hstep =>
    ⟨hinv.takesOwnWay hstep, fun hown => (hinv.step hstep hown).isMap⟩⟩

/-- The line's own way, or one without an entry: what a run can test before an allocation. -/
def TakesFreeWay (cfg : CacheConfig) (r : CacheRun) : Move → Prop
  | .allocate a _ _ => ∀ way ∈ r.mem.slot cfg a, r.mem.tagIndex a = some way ∨
      r.mem.tagIndex a = none ∧ r.mem.cache (cfg.addressToCacheSet a) way = none
  | _ => True

instance (m : Move) : Decidable (TakesFreeWay cfg r m) := by
  cases m <;> unfold TakesFreeWay <;> infer_instance

theorem Inv.takesFreeWay (h : Inv cfg r) {m : Move} (hfree : TakesFreeWay cfg r m) :
    TakesOwnWay cfg r m := by
  cases m with
  | allocate a touch now =>
    intro way hslot
    rcases hfree way hslot with hway | ⟨htag, hnone⟩
    · exact h.owns hway
    · refine fun j entry hentry => ⟨fun hj => ?_, fun haddr => ?_⟩
      · rw [hj, hnone] at hentry
        cases hentry
      · rw [(h.indexed a j).mpr ⟨entry, hentry, haddr⟩] at htag
        cases htag
  | deallocate a => trivial
  | changePermission cacheSet way permission => trivial
  | touch cacheSet way now => trivial
  | touchOccupancy cacheSet way now occupancy => trivial

theorem reachable_of_free (h : ((machine cfg).restrict (TakesFreeWay cfg)).Reachable r) :
    ((machine cfg).restrict (TakesOwnWay cfg)).Reachable r :=
  h.invariant (fun _ h0 => .start h0)
    (fun _ _ _ hr hs => hr.next ⟨hs.1, (inv_of_reachable hr).takesFreeWay hs.2⟩)

def tinyCache : CacheConfig where
  size := 128
  assoc := 1
  blockSize := 64
  startIndexBit := 6
  policy := .lru
  ways := by decide
  manySets := by decide

def pairCache : CacheConfig :=
  { tinyCache with
    size := 256
    assoc := 2
    policy := .weightedLru
    ways := by decide
    manySets := by decide }

/-- Two lines of one set, of which line 0 is not present for a while and then allocated again, in
its own way: the set is full, and the line with the smaller weight makes room. -/
theorem cache_is_map_again : ∃ r t : CacheRun,
    ((machine pairCache).restrict (TakesOwnWay pairCache)).Reachable r ∧
      r.lines 0 = some .notPresent ∧
    r.mem.isTagPresent pairCache 0 = some false ∧ (machine pairCache).step r
      (.allocate 0 true 4) t ∧
    IsMap pairCache r ∧ IsMap pairCache t ∧ t.mem.lookup pairCache 0 = some (some ⟨0, .invalid⟩) ∧
    t.mem.lookup pairCache 128 = some (some ⟨128, .readWrite⟩) ∧
      t.mem.cacheAvail pairCache 256 = false ∧
    t.mem.cacheProbe pairCache 256 = some 128 := by
  obtain ⟨r, t, hr, ⟨hstep, hfree⟩, hline, hgone, hzero, hother, hfull, hvictim⟩ :=
    Machine.exists_run_next (Machine.restrict_step (M := machine pairCache) (f := move pairCache)
      (fun _ _ _ h => h) (TakesFreeWay pairCache)) (.start rfl)
    [.allocate 0 true 1, .allocate 128 true 2, .changePermission 0 1 .readWrite,
      .touchOccupancy 0 1 3 1, .changePermission 0 0 .notPresent] (a := .allocate 0 true 4)
    (P := fun r t => r.lines 0 = some .notPresent ∧ r.mem.isTagPresent pairCache 0 = some false ∧
      t.mem.lookup pairCache 0 = some (some ⟨0, .invalid⟩) ∧
      t.mem.lookup pairCache 128 = some (some ⟨128, .readWrite⟩) ∧
        t.mem.cacheAvail pairCache 256 = false ∧
      t.mem.cacheProbe pairCache 256 = some 128) (by decide)
  have hr := reachable_of_free hr
  obtain ⟨hmap, hnext⟩ := cache_is_map hr
  exact ⟨r, t, hr, hline, hgone, hstep, hmap,
    (hnext _ t hstep).mpr ((inv_of_reachable hr).takesFreeWay hfree), hzero, hother, hfull, hvictim⟩

/-- Line 0 loses its way while it is not present, and then has the entry of line 128; when that is
deallocated, a lookup of line 0 follows a null pointer. -/
theorem tag_left_behind : (∃ r, (machine tinyCache).Reachable r ∧ r.lines 0 = some .notPresent ∧
      r.mem.lookup tinyCache 0 = some (some ⟨128, .invalid⟩)) ∧
    ∃ r, (machine tinyCache).Reachable r ∧ r.mem.lookup tinyCache 0 = none := by
  constructor
  · exact Machine.exists_run (M := machine tinyCache) (f := move tinyCache) (fun _ _ _ h => h)
      (.start rfl) [.allocate 0 true 1, .changePermission 0 0 .notPresent, .allocate 128 true 2]
      (by decide)
  · exact Machine.exists_run (M := machine tinyCache) (f := move tinyCache) (fun _ _ _ h => h)
      (.start rfl) [.allocate 0 true 1, .changePermission 0 0 .notPresent, .allocate 128 true 2,
        .deallocate 128] (by decide)

end CacheRun

end Gem5.Ruby
