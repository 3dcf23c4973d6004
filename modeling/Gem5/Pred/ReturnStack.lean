import Gem5.Pred.BranchPredictor

namespace Gem5.Pred

open Lib Function List

/-! The return address stack against a stack of the return addresses that are live. -/

/-- The live return addresses, the last one first, and the cell of the last one. -/
structure Shadow (PC : Type) where
  tos : Nat
  stack : List PC

namespace Shadow

variable {PC : Type} (n : Nat)

def push (returnAddr : PC) (a : Shadow PC) : Shadow PC where
  tos := Ring.next n a.tos
  stack := returnAddr :: a.stack

def pop (a : Shadow PC) : Shadow PC where
  tos := Ring.prev n a.tos
  stack := a.stack.tail

end Shadow

/-- The cell that is `i` below the cell `t`. -/
def slot (n t i : Nat) : Nat := (t + n - i) % n

section Slots

variable {n t i : Nat}

section

variable (h : t < n)
include h

theorem slot_zero : slot n t 0 = t := by
  unfold slot
  rw [Nat.sub_zero, Nat.add_mod_right, Nat.mod_eq_of_lt h]

theorem next_lt : Ring.next n t < n := by
  unfold Ring.next
  split <;> omega

theorem prev_lt : Ring.prev n t < n := by
  unfold Ring.prev
  split <;> omega

theorem prev_next : Ring.prev n (Ring.next n t) = t := by
  unfold Ring.prev Ring.next
  split <;> split <;> omega

theorem next_prev : Ring.next n (Ring.prev n t) = t := by
  unfold Ring.prev Ring.next
  split <;> split <;> omega

/-- The cells below the top keep their distance to it when the top moves. -/
theorem slot_next (hi : i < n) : slot n (Ring.next n t) (i + 1) = slot n t i := by
  unfold slot Ring.next
  split
  · have hlast : t + 1 = n := by omega
    rw [show t + n - i = (0 + n - (i + 1)) + n by omega, Nat.add_mod_right]
  · rw [show t + 1 + n - (i + 1) = t + n - i by omega]

/-- No cell below the top is the top, if there are not too many. -/
theorem slot_ne (hi : 0 < i) (hlt : i < n) : slot n t i ≠ t := by
  have hne : (t + n - i) % n ≠ t % n := Ring.mod_ne (by omega) (by omega) (by omega)
  rwa [Nat.mod_eq_of_lt h] at hne

end

end Slots

/-- The stack has the live return addresses below its top. If `right`, it counts them too: the count
is wrong once a return that has popped is taken back. -/
structure Represents {PC : Type} (n : Nat) (right : Prop) (s : ReturnAddrStack PC)
    (a : Shadow PC) : Prop where
  tos : s.tos = a.tos
  bound : a.tos < n
  cells : ∀ i x, a.stack[i]? = some x → s.addrStack (slot n a.tos i) = x
  used : right → s.usedEntries = a.stack.length

namespace Represents

variable {PC : Type} {n : Nat} {right : Prop} {s : ReturnAddrStack PC} {a : Shadow PC}

theorem mono (h : Represents n right s a) (hle : right' → right) : Represents n right' s a :=
  { h with used := fun hr => h.used (hle hr) }

/-- A push keeps the addresses below it while there is a free cell. -/
theorem push (h : Represents n right s a) (hlt : a.stack.length < n) (returnAddr : PC) :
    Represents n right (s.push n returnAddr) (a.push n returnAddr) where
  tos := congrArg (Ring.next n) h.tos
  bound := next_lt h.bound
  cells i x hx := by
    change update s.addrStack (Ring.next n s.tos) returnAddr
      (slot n (Ring.next n a.tos) i) = x
    rw [h.tos]
    cases i with
    | zero =>
      rw [slot_zero (next_lt h.bound), update_self]
      exact Option.some.inj hx
    | succ i =>
      have hx : a.stack[i]? = some x := hx
      obtain ⟨hi, -⟩ := List.getElem?_eq_some_iff.mp hx
      rw [update_of_ne (slot_ne (next_lt h.bound) (Nat.succ_pos i) (by omega)),
        slot_next h.bound (by omega)]
      exact h.cells i x hx
  used hr := by
    have hused := h.used hr
    change (if s.usedEntries ≠ n then s.usedEntries + 1 else s.usedEntries) = a.stack.length + 1
    rw [if_pos (by omega), hused]

/-- A pop leaves the addresses below. -/
theorem pop (h : Represents n right s a) (hle : a.stack.length ≤ n) :
    Represents n right (s.pop n) (a.pop n) where
  tos := congrArg (Ring.prev n) h.tos
  bound := prev_lt h.bound
  cells i x hx := by
    have hx : a.stack.tail[i]? = some x := hx
    rw [getElem?_tail] at hx
    obtain ⟨hi, -⟩ := List.getElem?_eq_some_iff.mp hx
    have hcell := h.cells (i + 1) x hx
    have hslot := slot_next (prev_lt h.bound) (show i < n by omega)
    rw [next_prev h.bound] at hslot
    change s.addrStack (slot n (Ring.prev n a.tos) i) = x
    rwa [← hslot]
  used hr := by
    have hused := h.used hr
    change (if 0 < s.usedEntries then s.usedEntries - 1 else s.usedEntries) = a.stack.tail.length
    rw [length_tail]
    split <;> omega

/-- Popping what was pushed gives back the stack before. -/
theorem unpush (h : Represents n right s (a.push n x)) (hbound : a.tos < n)
    (hlt : a.stack.length < n) : Represents n right (s.pop n) a := by
  have hpop := h.pop hlt
  have heq : (a.push n x).pop n = a := by
    change (⟨Ring.prev n (Ring.next n a.tos), a.stack⟩ : Shadow PC) = a
    rw [prev_next hbound]
  rwa [heq] at hpop

/-- A restore brings back the address that was popped, but not the count. -/
theorem restore (h : Represents n right s (a.pop n)) (hbound : a.tos < n)
    (hle : a.stack.length ≤ n) {restored : PC} (htop : ∀ x l, a.stack = x :: l → restored = x)
    (hwrong : ¬ right') : Represents n right' (s.restore a.tos restored) a where
  tos := rfl
  bound := hbound
  used hr := absurd hr hwrong
  cells i x hx := by
    change update s.addrStack a.tos restored (slot n a.tos i) = x
    cases hstack : a.stack with
    | nil =>
      rw [hstack] at hx
      cases hx
    | cons y l =>
      rw [hstack] at hx hle
      cases i with
      | zero =>
        rw [slot_zero hbound, update_self, htop y l hstack]
        exact Option.some.inj hx
      | succ i =>
        have hx : l[i]? = some x := hx
        obtain ⟨hi, -⟩ := List.getElem?_eq_some_iff.mp hx
        rw [length_cons] at hle
        rw [update_of_ne (slot_ne hbound (Nat.succ_pos i) (by omega))]
        have hslot := slot_next (prev_lt hbound) (show i < n by omega)
        rw [next_prev hbound] at hslot
        rw [hslot]
        refine h.cells i x ?_
        change a.stack.tail[i]? = some x
        rw [hstack]
        exact hx

end Represents

/-! The branches that survive, and the stack that they make. -/

/-- A branch with the outcome that counts: the predicted one, where an unconditional branch is
taken, or the corrected one. -/
structure Branch (PC : Type) where
  seqNum : Nat
  pc : PC
  inst : BranchInst
  taken : Bool

namespace Branch

variable {PC : Type} (n : Nat)

/-- A return that is taken pops, and a call that is taken pushes. -/
def onStack (b : Branch PC) (s : ReturnAddrStack PC) : ReturnAddrStack PC :=
  if b.taken then
    if b.inst.isReturn then s.pop n else if b.inst.isCall then s.push n b.pc else s
  else s

def onShadow (b : Branch PC) (a : Shadow PC) : Shadow PC :=
  if b.taken then
    if b.inst.isReturn then a.pop n else if b.inst.isCall then a.push n b.pc else a
  else a

end Branch

variable {PC : Type} {cfg : BPredConfig PC}

def replay (cfg : BPredConfig PC) (branches : List (Branch PC)) : ReturnAddrStack PC :=
  branches.foldl (fun s b => b.onStack cfg.numEntries s) (ReturnAddrStack.initial cfg.zero)

section

variable (n : Nat) (branches : List (Branch PC))
include n branches

def shadow : Shadow PC :=
  branches.foldl (fun a b => b.onShadow n a) ⟨0, []⟩

/-- At no time are there more live return addresses than cells. -/
def Fits : Prop :=
  ∀ p, p <+: branches → (shadow n p).stack.length ≤ n

theorem shadow_snoc (b : Branch PC) :
    shadow n (branches ++ [b]) = b.onShadow n (shadow n branches) := by
  unfold shadow
  rw [foldl_append]
  rfl

end

theorem replay_snoc (branches : List (Branch PC)) (b : Branch PC) :
    replay cfg (branches ++ [b]) = b.onStack cfg.numEntries (replay cfg branches) := by
  unfold replay
  rw [foldl_append]
  rfl

/-- What fits also fits before the last branches. -/
theorem Fits.of_prefix (h : Fits n q) (hp : p <+: q) : Fits n p :=
  fun _ hr => h _ (hr.trans hp)

theorem Fits.self (h : Fits n p) : (shadow n p).stack.length ≤ n :=
  h p (prefix_refl _)

theorem Fits.snoc (h : Fits n p)
    (hlast : (shadow n (p ++ [b])).stack.length ≤ n) : Fits n (p ++ [b]) := by
  intro q hq
  rcases prefix_concat_iff.mp hq with rfl | hq
  · exact hlast
  · exact h q hq

/-- The top of the stack is a cell of it. -/
theorem shadow_bound (hn : 0 < n) (branches : List (Branch PC)) : (shadow n branches).tos < n := by
  induction branches using reverseRecOn with
  | nil => exact hn
  | append_singleton p b ih =>
    rw [shadow_snoc]
    unfold Branch.onShadow
    split
    · split
      · exact prev_lt ih
      · split
        · exact next_lt ih
        · exact ih
    · exact ih

theorem shadow_cons (done bs : List (Branch PC)) (b : Branch PC) :
    shadow n (done ++ (b :: bs).reverse) = b.onShadow n (shadow n (done ++ bs.reverse)) := by
  rw [reverse_cons, ← append_assoc, shadow_snoc]

theorem Fits.cons_tail {done bs : List (Branch PC)} (h : Fits n (done ++ (b :: bs).reverse)) :
    Fits n (done ++ bs.reverse) := by
  rw [reverse_cons, ← append_assoc] at h
  exact h.of_prefix (prefix_append _ _)

/-- A branch does to the stack what it does to the live return addresses. -/
theorem Represents.branch {n : Nat} {s : ReturnAddrStack PC} {a : Shadow PC}
    (h : Represents n right s a) (hle : a.stack.length ≤ n) {b : Branch PC}
    (hafter : (b.onShadow n a).stack.length ≤ n) :
    Represents n right (b.onStack n s) (b.onShadow n a) := by
  unfold Branch.onStack
  unfold Branch.onShadow at hafter ⊢
  split
  · rename_i htaken
    rw [if_pos htaken] at hafter
    split
    · exact h.pop hle
    rename_i hreturn
    rw [if_neg hreturn] at hafter
    split_ifs with hcall
    · rw [if_pos hcall] at hafter
      exact h.push hafter _
    · exact h
  · exact h

/-- A replay of branches that fit makes the stack of their live return addresses. -/
theorem replay_represents {branches : List (Branch PC)} (h : Fits cfg.numEntries branches) :
    Represents cfg.numEntries True (replay cfg branches) (shadow cfg.numEntries branches) := by
  induction branches using reverseRecOn with
  | nil => exact ⟨rfl, cfg.numEntries_pos, fun i x hx => (by cases hx), fun _ => rfl⟩
  | append_singleton p b ih =>
    have hp := h.of_prefix (prefix_append p [b])
    have hlast := h.self
    rw [shadow_snoc] at hlast ⊢
    rw [replay_snoc]
    exact (ih hp).branch hp.self hlast

end Gem5.Pred
