import Gem5.Lib.Transition

namespace Gem5.Dev

open Lib Nat

/-! The queue of packets of a network device. Sizes have 32 bits. -/

structure PacketFifoEntry where
  packet : List UInt8
  slack : Nat := 0

structure PacketFifo where
  fifo : List PacketFifoEntry := []
  maxsize : Nat
  size : Nat := 0
  reserved : Nat := 0

inductive FifoMove
  | push (packet : List UInt8) | pop | reserve (len : Nat) | clear

namespace PacketFifo

def avail (f : PacketFifo) : Nat := (f.maxsize + 2 * 2 ^ 32 - f.size - f.reserved) % 2 ^ 32

def reserve (f : PacketFifo) (len : Nat) : Option PacketFifo :=
  if len ≤ f.avail then some { f with reserved := (f.reserved + len) % 2 ^ 32 } else none

def push (f : PacketFifo) (packet : List UInt8) : Option (PacketFifo × Bool) :=
  if packet.length ≠ 0 ∧ f.reserved ≤ packet.length then
    if f.avail < packet.length - f.reserved then some (f, false)
    else some ({ f with
      fifo := f.fifo ++ [{ packet }]
      size := (f.size + packet.length) % 2 ^ 32
      reserved := 0 }, true)
  else none

def pop (f : PacketFifo) : PacketFifo :=
  if f.size = 0 then f
  else
    match f.fifo with
    | [] => f
    | e :: fifo =>
      { f with fifo, size := (f.size + 2 * 2 ^ 32 - e.packet.length - e.slack) % 2 ^ 32 }

def clear (f : PacketFifo) : PacketFifo := { f with fifo := [], size := 0, reserved := 0 }

/-- The inner loop. It goes on comparing with the packet it started from, while the iterator moves;
`none` when the iterator leaves the list. -/
def skip (length : Nat) : List PacketFifoEntry → Nat → Option (List PacketFifoEntry × Nat)
  | [], offset => if offset < length then some ([], offset) else none
  | e :: rest, offset =>
    if offset < length then some (e :: rest, offset) else skip length rest (offset - length)

/-- The outer loop. A round takes an entry, so the list bounds the number of rounds. -/
def copyRounds : Nat → List PacketFifoEntry → Nat → Nat → List UInt8 → Option (List UInt8)
  | 0, _, _, _, _ => none
  | rounds + 1, rest, offset, len, data =>
    if len = 0 then some data
    else
      match rest with
      | [] => none
      | pkt :: _ =>
        match skip pkt.packet.length rest offset with
        | none => none
        | some ([], _) => none
        | some (_ :: rest, offset) =>
          let size := min (pkt.packet.length - offset) len
          copyRounds rounds rest 0 (len - size) (data ++ pkt.packet.take size)

/-- The result, with the bytes written; `none` for a panic or a read behind the list. -/
def copyout (f : PacketFifo) (offset len : Nat) : Option (Bool × List UInt8) :=
  if f.size ≤ (offset + len) % 2 ^ 32 then some (false, [])
  else (copyRounds (f.fifo.length + 1) f.fifo offset len []).map (true, ·)

def move (f : PacketFifo) : FifoMove → Option PacketFifo
  | .push packet => (f.push packet).map (·.1)
  | .pop => some f.pop
  | .reserve len => f.reserve len
  | .clear => some f.clear

def machine : Machine PacketFifo FifoMove where
  init f := ∃ maxsize < 2 ^ 32, f = { maxsize }
  step f m t := f.move m = some t

def bytes (f : PacketFifo) : List UInt8 := f.fifo.flatMap (·.packet)

structure Inv (f : PacketFifo) : Prop where
  entries : ∀ e ∈ f.fifo, e.packet ≠ [] ∧ e.slack = 0
  total : f.size = f.bytes.length
  room : f.size + f.reserved ≤ f.maxsize
  word : f.maxsize < 2 ^ 32

variable {f t : PacketFifo}

theorem Inv.avail (h : Inv f) : f.avail = f.maxsize - f.size - f.reserved := by
  have := h.room
  have := h.word
  rw [PacketFifo.avail]
  omega

theorem Inv.pop_cons (h : Inv f) (hf : f.fifo = e :: rest) :
    f.pop = { f with fifo := rest, size := f.size - e.packet.length } := by
  obtain ⟨hne, hslack⟩ := h.entries e (by simp [hf])
  have htotal := h.total
  have hpos := List.length_pos_iff.mpr hne
  have := h.room
  have := h.word
  simp only [bytes, hf, List.flatMap_cons, List.length_append] at htotal
  simp only [pop, hf, hslack, if_neg (by omega : f.size ≠ 0), mk.injEq, true_and, and_true]
  omega

theorem Inv.step (h : Inv f) {m : FifoMove} (hs : f.move m = some t) : Inv t := by
  have ⟨hentries, htotal, hroom, hword⟩ := h
  have havail := h.avail
  cases m with
  | push packet =>
    simp only [move, push] at hs
    split_ifs at hs with hok hfull <;> cases hs
    · exact h
    refine ⟨?_, ?_, by dsimp only; omega, hword⟩
    · simp only [List.mem_append, List.mem_singleton]
      rintro e (he | rfl)
      exacts [hentries e he, ⟨by simpa using hok.1, rfl⟩]
    · simp [bytes] at htotal ⊢
      omega
  | pop =>
    cases hs
    cases hf : f.fifo with
    | nil => simpa [pop, hf] using h
    | cons e rest =>
      rw [h.pop_cons hf]
      refine ⟨fun e he => hentries e (by simp [hf, he]), ?_, by dsimp only; omega, hword⟩
      simp [bytes, hf] at htotal ⊢
      omega
  | reserve len =>
    simp only [move, reserve] at hs
    split_ifs at hs with hok
    cases hs
    exact ⟨hentries, htotal, by dsimp only; omega, hword⟩
  | clear =>
    cases hs
    exact ⟨by simp [clear], rfl, zero_le _, hword⟩

theorem reachable_inv (h : machine.Reachable f) : Inv f := by
  refine h.invariant ?_ (fun _ _ _ hi hs => hi.step hs)
  rintro _ ⟨max, hmax, rfl⟩
  exact ⟨by simp, rfl, zero_le _, hmax⟩

/-- The same fifo with other packets. -/
def carrying (f : PacketFifo) (packets : List (List UInt8)) : PacketFifo :=
  { f with fifo := packets.map ({ packet := · }) }

/-- The calls do not look into the packets. -/
theorem reachable_carrying (h : machine.Reachable f) {packets : List (List UInt8)}
    (hlen : packets.map List.length = f.fifo.map (·.packet.length)) :
    machine.Reachable (f.carrying packets) := by
  obtain ⟨log, r⟩ := h
  induction r generalizing packets with
  | start h =>
    obtain ⟨max, hmax, rfl⟩ := h
    obtain rfl : packets = [] := by simpa using hlen
    exact .start ⟨max, hmax, rfl⟩
  | @next f t m log r hs ih =>
    have hi := reachable_inv ⟨log, r⟩
    cases m with
    | push packet =>
      simp only [machine, move, push] at hs
      split_ifs at hs with hok hfull <;> cases hs
      · exact ih hlen
      simp only [List.map_append, List.map_eq_append_iff, List.map_singleton,
        List.map_eq_singleton_iff] at hlen
      obtain ⟨init, _, rfl, hinit, p, rfl, hp⟩ := hlen
      refine (ih hinit).next (a := .push p) ?_
      simp only [machine, move, push, hp]
      refine (congrArg _ ((if_pos hok).trans (if_neg hfull))).trans ?_
      simp [carrying]
    | pop =>
      cases hs
      cases hf : f.fifo with
      | nil =>
        rw [show f.pop = f by simp [pop, hf]] at hlen ⊢
        exact ih hlen
      | cons e rest =>
        rw [hi.pop_cons hf] at hlen ⊢
        have hr : machine.Reachable (f.carrying (e.packet :: packets)) :=
          ih (by simpa [hf] using hlen)
        refine hr.next (a := .pop) (congrArg some ?_)
        rw [(reachable_inv hr).pop_cons rfl]
        rfl
    | reserve len =>
      simp only [machine, move, reserve] at hs
      split_ifs at hs with hok
      cases hs
      exact (ih hlen).next (a := .reserve len) (if_pos hok)
    | clear =>
      cases hs
      obtain rfl : packets = [] := by simpa [clear] using hlen
      have hr : machine.Reachable (f.carrying (f.fifo.map (·.packet))) := ih (by simp)
      exact hr.next (a := .clear) rfl

theorem copyRounds_prefix (h : copyRounds n rest offset len data = some d) : data <+: d := by
  induction n generalizing rest offset len data with
  | zero => cases h
  | succ n ih =>
    unfold copyRounds at h
    split_ifs at h
    · cases h
      exact List.prefix_rfl
    split at h
    · cases h
    · split at h
      · cases h
      · cases h
      · exact (List.prefix_append _ _).trans (ih h)

theorem skip_lt (h : skip length rest offset = some (rest', offset')) : offset' < length := by
  induction rest generalizing offset with
  | nil =>
    rw [skip] at h
    split_ifs at h with hlt
    cases h
    exact hlt
  | cons e rest ih =>
    rw [skip] at h
    split_ifs at h with hlt
    · cases h
      exact hlt
    · exact ih h

/-- Whatever the offset, the first byte written is the first one of the first packet. -/
theorem copyRounds_head (hlen : len ≠ 0)
    (h : copyRounds n ({ packet := b :: p } :: rest) offset len [] = some d) :
    d.head? = some b := by
  cases n with
  | zero => cases h
  | succ n =>
    rw [copyRounds, if_neg hlen] at h
    dsimp only at h
    split at h
    · cases h
    · cases h
    rename_i offset' hskip
    have hlt := skip_lt hskip
    obtain ⟨k, hk⟩ : ∃ k, min ((b :: p).length - offset') len = k + 1 :=
      exists_eq_add_one.mpr (by omega)
    rw [hk] at h
    obtain ⟨d', rfl⟩ := copyRounds_prefix h
    rfl

theorem copyRounds_zero (hpos : ∀ e ∈ rest, e.packet ≠ []) (hn : rest.length < n)
    (hle : len ≤ (rest.flatMap (·.packet)).length) :
    copyRounds n rest 0 len data = some (data ++ (rest.flatMap (·.packet)).take len) := by
  induction rest generalizing n len data with
  | nil =>
    obtain ⟨n, rfl⟩ := exists_eq_add_one.mpr hn
    obtain rfl : len = 0 := by simpa using hle
    simp [copyRounds]
  | cons e rest ih =>
    obtain ⟨n, rfl⟩ := exists_eq_add_one.mpr (zero_lt_of_lt hn)
    have hp := List.length_pos_iff.mpr (hpos e List.mem_cons_self)
    by_cases hlen : len = 0
    · simp [copyRounds, hlen]
    simp only [List.flatMap_cons, List.length_append, List.length_cons] at hle hn
    rw [copyRounds, if_neg hlen]
    simp only [skip, if_pos hp]
    rw [ih (fun e he => hpos e (.tail _ he)) (by omega) (by omega), List.flatMap_cons,
      List.take_append, List.append_assoc, List.take_eq_take_min (i := len), min_comm]
    congr 4
    omega

/-- The bytes asked for. -/
def CopiesOut (f : PacketFifo) (offset len : Nat) : Prop :=
  f.copyout offset len = some (true, (f.bytes.drop offset).take len)

/-- Bytes come out right, whatever the packets of a fifo hold, exactly from its start and short of
its end. -/
theorem copyout_right_iff (h : machine.Reachable f) (hlen : 1 ≤ len) (hle : offset + len ≤ f.size) :
    (∀ g, machine.Reachable g → g.size = f.size →
      g.fifo.map (·.packet.length) = f.fifo.map (·.packet.length) → CopiesOut g offset len) ↔
      offset = 0 ∧ len < f.size := by
  have hi := reachable_inv h
  have htotal := hi.total
  have := hi.room
  have := hi.word
  constructor
  · intro hall
    have hshort : offset + len < f.size := by
      by_contra hlt
      have hc := hall f h rfl rfl
      rw [CopiesOut, copyout, if_pos (by omega)] at hc
      cases hc
    refine ⟨Nat.eq_zero_of_not_pos fun hpos => ?_, by omega⟩
    -- packets whose only byte that is not zero is the very first
    cases hf : f.fifo with
    | nil => simp [bytes, hf] at htotal; omega
    | cons e rest =>
      obtain ⟨n, hn⟩ : ∃ n, e.packet.length = n + 1 :=
        exists_eq_add_one.mpr (List.length_pos_iff.mpr (hi.entries e (by simp [hf])).1)
      let packets := (1 :: .replicate n 0) :: rest.map
          (fun e => .replicate e.packet.length (0 : UInt8))
      have hsame : packets.map List.length = f.fifo.map (·.packet.length) := by
        simp [packets, hf, hn]
      have hc := hall (f.carrying packets) (reachable_carrying h hsame) rfl
        (by simpa [carrying, Function.comp_def] using hsame)
      obtain ⟨o, rfl⟩ := exists_eq_add_one.mpr hpos
      rw [CopiesOut, copyout, if_neg (by simp only [carrying]; omega), Option.map_eq_some_iff] at hc
      obtain ⟨d, hd, heq⟩ := hc
      have hhead := copyRounds_head (by omega) hd
      rw [(Prod.mk.inj heq).2, List.head?_take, if_neg (by omega), List.head?_drop] at hhead
      have hmem := List.mem_of_getElem? (l := .replicate n 0 ++ _) (i := o) hhead
      simp at hmem
  · rintro ⟨rfl, hlt⟩ g hg hsize hsame
    have hgi := reachable_inv hg
    have hgt := hgi.total
    rw [CopiesOut, copyout, if_neg (by rw [mod_eq_of_lt] <;> omega),
      copyRounds_zero (fun e he => (hgi.entries e he).1) (lt_succ_self _)
        (by rw [bytes] at hgt; omega)]
    rfl

theorem one_packet :
    machine.Reachable { fifo := [{ packet := [7, 8, 9] }], maxsize := 8, size := 3 } :=
  (Machine.Reachable.start (M := machine) ⟨8, by decide, rfl⟩).next (a := .push [7, 8, 9]) rfl

theorem two_packets : machine.Reachable
    { fifo := [{ packet := [7, 8, 9] }, { packet := [4, 5, 6] }], maxsize := 8, size := 6 } :=
  one_packet.next (a := .push [4, 5, 6]) rfl

/-- A copy across the border of the packets. -/
theorem copyout_right_iff_two : CopiesOut
    { fifo := [{ packet := [7, 8, 9] }, { packet := [4, 5, 6] }], maxsize := 8, size := 6 } 0 5 :=
  (copyout_right_iff two_packets (by decide) (by decide)).mpr (by decide) _ two_packets rfl rfl

/-- The offset is dropped, and a copy up to the last byte is refused. -/
theorem copyout_ignores_offset : ∃ f, machine.Reachable f ∧ f.bytes = [7, 8, 9] ∧
    f.copyout 1 1 = some (true, [7]) ∧ f.copyout 0 3 = some (false, []) :=
  ⟨_, one_packet, rfl, by decide, by decide⟩

end PacketFifo

end Gem5.Dev
