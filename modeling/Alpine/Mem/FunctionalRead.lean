import Alpine.Mem.LlscPacket

/-!
# Functional reads of queued packets (`mem/packet.cc`, `mem/packet_queue.cc`)

A functional read takes its bytes from the packets of a queue, one after the other, until all its bytes have
been supplied.

* `Packet.trySatisfyFunctional` and `trySatisfyFunctional` as in the source.
* `newest` — the byte of the last packet that supplies it.
* `Ends` — the scan ends at a packet of the queue.
* `trySatisfyFunctional_spec` — the read gets each byte from the last packet, of those up to the end of the
  scan, that supplies it.
-/

namespace Alpine.Mem.Functional

open Llsc (Bytes)
open Llsc.Packet (memcpy)

/-- `Packet`.  `bytesValid` is by the offset; a vector that is still empty is one of no valid bytes. -/
structure Packet where
  cmd : MemCmd
  addr : Nat
  size : Nat
  isSecure : Bool
  data : Bytes
  bytesValid : Nat → Bool
  nowrap : 0 < addr + size ∧ addr + size ≤ 2 ^ 64

namespace Packet

variable (pkt other : Packet)

def isRead : Bool := pkt.cmd.testCmdAttrib .IsRead
def isWrite : Bool := pkt.cmd.testCmdAttrib .IsWrite
def isPrint : Bool := pkt.cmd.testCmdAttrib .IsPrint
def hasData : Bool := pkt.cmd.testCmdAttrib .HasData

/-- The address of the last byte. -/
def last : Nat := pkt.addr + pkt.size - 1

/-- `Packet::trySatisfyFunctional`: the result, the packet, and the other packet; `none` is a panic or a
failed assertion. -/
def trySatisfyFunctional : Option (Bool × Packet × Packet) :=
  if other.isSecure ≠ pkt.isSecure ∨ pkt.addr > other.last ∨ other.addr > pkt.last then
    some (false, pkt, other)
  else if pkt.isPrint then if other.hasData then none else some (false, pkt, other)
  else if !other.hasData then some (false, pkt, other)
  else
    let val_offset := if pkt.addr > other.addr then pkt.addr - other.addr else 0
    let func_offset := if pkt.addr < other.addr then other.addr - pkt.addr else 0
    let overlap_size := min other.last pkt.last + 1 - max other.addr pkt.addr
    if pkt.isRead then
      let data := memcpy pkt.data func_offset (fun i => other.data (val_offset + i)) overlap_size
      let bytesValid := fun i =>
        pkt.bytesValid i || decide (func_offset ≤ i ∧ i < func_offset + overlap_size)
      -- the loops over the bytes before and behind the copied ones
      let all_bytes_valid := (List.range func_offset).all pkt.bytesValid &&
        (List.range' (func_offset + overlap_size) (pkt.size - (func_offset + overlap_size))).all bytesValid
      some (all_bytes_valid, { pkt with data, bytesValid }, other)
    else if pkt.isWrite then
      some (false, pkt, { other with
        data := memcpy other.data val_offset (fun i => pkt.data (func_offset + i)) overlap_size })
    else none

end Packet

/-- `PacketQueue::trySatisfyFunctional`, on the packets of `transmitList`. -/
def trySatisfyFunctional : Packet → List Packet → Option (Bool × Packet × List Packet)
  | pkt, [] => some (false, pkt, [])
  | pkt, p :: transmitList =>
    match pkt.trySatisfyFunctional p with
    | none => none
    | some (true, pkt', p') => some (true, pkt', p' :: transmitList)
    | some (false, pkt', p') =>
      (trySatisfyFunctional pkt' transmitList).map fun r => (r.1, r.2.1, p' :: r.2.2)

/-! ## What a read should get -/

/-- The data of `p` cover byte `i` of the packet, in the same security space. -/
def supplies (pkt p : Packet) (i : Nat) : Bool :=
  p.isSecure = pkt.isSecure ∧ p.hasData = true ∧ p.addr ≤ pkt.addr + i ∧ pkt.addr + i < p.addr + p.size

/-- The value of byte `i` in the last of the packets that cover it. -/
def newest (pkt : Packet) (seen : List Packet) (i : Nat) : Option UInt8 :=
  ((seen.filter (supplies pkt · i)).getLast?).map fun p => p.data (pkt.addr + i - p.addr)

/-- Byte `i` has been supplied: it was valid before, or one of the packets covers it. -/
def Supplied (pkt : Packet) (seen : List Packet) (i : Nat) : Prop :=
  pkt.bytesValid i = true ∨ ∃ p ∈ seen, supplies pkt p i = true

/-- A packet with data that overlaps the read, even if by no byte because one of them has none. -/
def overlaps (pkt p : Packet) : Bool :=
  p.isSecure = pkt.isSecure ∧ p.hasData = true ∧ pkt.addr ≤ p.last ∧ p.addr ≤ pkt.last

/-- The packet at position `n` overlaps the read, and with it all bytes have been supplied. -/
def Ends (pkt : Packet) (queue : List Packet) (n : Nat) : Prop :=
  (∃ p, queue[n]? = some p ∧ overlaps pkt p = true) ∧ ∀ i < pkt.size, Supplied pkt (queue.take (n + 1)) i

/-- The packet after the read has the newest bytes of the packets seen, and knows which bytes are valid. -/
def Filled (pkt : Packet) (seen : List Packet) (pkt' : Packet) : Prop :=
  ∀ i < pkt.size, pkt'.data i = (newest pkt seen i).getD (pkt.data i) ∧
    (pkt'.bytesValid i = true ↔ Supplied pkt seen i)

/-- The outcome of a functional read of a queue. -/
structure Satisfied (pkt : Packet) (queue : List Packet) (found : Bool) (pkt' : Packet) : Prop where
  found : found = true ↔ ∃ n, Ends pkt queue n
  upTo : ∀ n, Ends pkt queue n → (∀ m < n, ¬ Ends pkt queue m) → Filled pkt (queue.take (n + 1)) pkt'
  all : (∀ n, ¬ Ends pkt queue n) → Filled pkt queue pkt'

/-! ## One packet -/

section One

variable {pkt p : Packet}

theorem not_print_of_read (h : pkt.isRead = true) : pkt.isPrint = false := by
  unfold Packet.isRead at h
  unfold Packet.isPrint
  revert h
  cases pkt.cmd <;> decide

/-- What one queued packet does to a read. -/
structure Step (pkt p : Packet) (found : Bool) (pkt' : Packet) : Prop where
  cmd : pkt'.cmd = pkt.cmd
  addr : pkt'.addr = pkt.addr
  size : pkt'.size = pkt.size
  secure : pkt'.isSecure = pkt.isSecure
  data : ∀ i < pkt.size,
    pkt'.data i = if supplies pkt p i then p.data (pkt.addr + i - p.addr) else pkt.data i
  valid : ∀ i < pkt.size, pkt'.bytesValid i = (pkt.bytesValid i || supplies pkt p i)
  found : found = true ↔ overlaps pkt p = true ∧ ∀ i < pkt.size, pkt'.bytesValid i = true

theorem Step.nothing (hover : overlaps pkt p = false) (hnone : ∀ i < pkt.size, supplies pkt p i = false) :
    Step pkt p false pkt where
  cmd := rfl
  addr := rfl
  size := rfl
  secure := rfl
  data i hi := by
    rw [hnone i hi]
    exact (if_neg Bool.false_ne_true).symm
  valid i hi := by
    rw [hnone i hi, Bool.or_false]
  found := by
    rw [hover]
    exact iff_of_false Bool.false_ne_true fun h => Bool.false_ne_true h.1

theorem trySatisfy_read (hread : pkt.isRead = true) :
    ∃ found pkt', pkt.trySatisfyFunctional p = some (found, pkt', p) ∧ Step pkt p found pkt' := by
  have hprint := not_print_of_read hread
  have hpkt := pkt.nowrap
  have hp := p.nowrap
  unfold Packet.trySatisfyFunctional
  split
  · rename_i hout
    refine ⟨false, pkt, rfl, .nothing (decide_eq_false ?_) fun i hi => decide_eq_false ?_⟩
    · rintro ⟨hsec, -, hlo, hhi⟩
      rcases hout with hout | hout | hout
      · exact hout hsec
      · omega
      · omega
    · rintro ⟨hsec, -, hlo, hhi⟩
      unfold Packet.last at hout
      rcases hout with hout | hout | hout
      · exact hout hsec
      · omega
      · omega
  rename_i hin
  push Not at hin
  obtain ⟨hsec, hlo, hhi⟩ := hin
  rw [hprint, if_neg Bool.false_ne_true]
  split
  · rename_i hdata
    have hno : ¬ p.hasData = true := fun h => by
      rw [h] at hdata
      cases hdata
    exact ⟨false, pkt, rfl, .nothing (decide_eq_false fun h => hno h.2.1)
      fun i _ => decide_eq_false fun h => hno h.2.1⟩
  rename_i hdata
  have hdata : p.hasData = true := by
    cases h : p.hasData with
    | true => rfl
    | false =>
      rw [h] at hdata
      exact absurd rfl hdata
  dsimp only
  have hover : overlaps pkt p = true := decide_eq_true ⟨hsec, hdata, hlo, hhi⟩
  unfold Packet.last at hlo hhi ⊢
  generalize hfo : (if pkt.addr < p.addr then p.addr - pkt.addr else 0) = fo
  generalize hvo : (if pkt.addr > p.addr then pkt.addr - p.addr else 0) = vo
  generalize hov : min (p.addr + p.size - 1) (pkt.addr + pkt.size - 1) + 1 - max p.addr pkt.addr = ov
  -- the bytes that are copied are those that the packet covers
  have hcopied : ∀ i < pkt.size, (fo ≤ i ∧ i < fo + ov ↔ supplies pkt p i = true) := by
    intro i hi
    have hiff : supplies pkt p i = true ↔ p.addr ≤ pkt.addr + i ∧ pkt.addr + i < p.addr + p.size := by
      unfold supplies
      rw [decide_eq_true_eq]
      exact ⟨fun h => h.2.2, fun h => ⟨hsec, hdata, h⟩⟩
    rw [hiff]
    split at hfo
    · omega
    · omega
  refine ⟨_, _, rfl, rfl, rfl, rfl, rfl, fun i hi => ?_, fun i hi => ?_, ?_⟩
  · unfold memcpy
    dsimp only
    by_cases hc : supplies pkt p i = true
    · have hrange := (hcopied i hi).2 hc
      rw [if_pos hrange, if_pos hc]
      congr 1
      split at hfo
      · rw [if_neg (by omega)] at hvo
        omega
      · split at hvo
        · omega
        · omega
    · rw [if_neg (mt (hcopied i hi).1 hc), if_neg hc]
  · dsimp only
    rw [Bool.eq_iff_iff, Bool.or_eq_true, Bool.or_eq_true, decide_eq_true_eq, hcopied i hi]
  · dsimp only
    rw [Bool.and_eq_true, List.all_eq_true, List.all_eq_true]
    constructor
    · rintro ⟨hbefore, hbehind⟩
      refine ⟨hover, fun i hi => ?_⟩
      by_cases hlt : i < fo
      · rw [hbefore i (List.mem_range.2 hlt), Bool.true_or]
      · by_cases hmid : i < fo + ov
        · rw [decide_eq_true ⟨Nat.le_of_not_lt hlt, hmid⟩, Bool.or_true]
        · exact hbehind i (List.mem_range'_1.2 ⟨by omega, by omega⟩)
    · rintro ⟨-, hall⟩
      have hfo' : fo ≤ pkt.size := by
        split at hfo
        · omega
        · omega
      refine ⟨fun i hi => ?_, fun i hi => ?_⟩
      · have hlt := List.mem_range.1 hi
        have hv := hall i (by omega)
        rw [decide_eq_false (by omega), Bool.or_false] at hv
        exact hv
      · have hi := List.mem_range'_1.1 hi
        exact hall i (by omega)

end One

/-! ## The queue -/

section Queue

variable {pkt pkt' p : Packet} {queue : List Packet} {found : Bool}

theorem newest_cons (pkt p : Packet) (seen : List Packet) (i : Nat) : newest pkt (p :: seen) i =
    (newest pkt seen i).or (if supplies pkt p i then some (p.data (pkt.addr + i - p.addr)) else none) := by
  unfold newest
  cases hp : supplies pkt p i with
  | false =>
    rw [List.filter_cons_of_neg (by rw [hp]; exact Bool.false_ne_true)]
    exact (Option.or_none).symm
  | true =>
    rw [List.filter_cons_of_pos (p := (supplies pkt · i)) hp, List.getLast?_cons]
    cases (seen.filter (supplies pkt · i)).getLast? with
    | none => rfl
    | some q => rfl

theorem supplied_cons {seen : List Packet} {i : Nat} : Supplied pkt (p :: seen) i ↔
    (pkt.bytesValid i || supplies pkt p i) = true ∨ ∃ q ∈ seen, supplies pkt q i = true := by
  unfold Supplied
  rw [Bool.or_eq_true, or_assoc]
  simp only [List.mem_cons, exists_eq_or_imp]

namespace Step

variable (h : Step pkt p found pkt')
include h

theorem supplies_eq (q : Packet) (i : Nat) : supplies pkt' q i = supplies pkt q i := by
  unfold supplies
  rw [h.secure, h.addr]

theorem overlaps_eq (q : Packet) : overlaps pkt' q = overlaps pkt q := by
  unfold overlaps Packet.last
  rw [h.secure, h.addr, h.size]

theorem newest_eq (seen : List Packet) (i : Nat) : newest pkt' seen i = newest pkt seen i := by
  unfold newest
  simp only [h.supplies_eq, h.addr]

theorem supplied_iff {seen : List Packet} {i : Nat} (hi : i < pkt.size) :
    Supplied pkt' seen i ↔ Supplied pkt (p :: seen) i := by
  rw [supplied_cons, ← h.valid i hi]
  unfold Supplied
  simp only [h.supplies_eq]

/-- What the rest of a queue fills in after the first packet is what the whole queue fills in. -/
theorem filled {seen : List Packet} {pkt2 : Packet} (hf : Filled pkt' seen pkt2) : Filled pkt (p :: seen) pkt2 := by
  intro i hi
  obtain ⟨hdata, hvalid⟩ := hf i (h.size.symm ▸ hi)
  refine ⟨?_, hvalid.trans (h.supplied_iff hi)⟩
  rw [hdata, h.newest_eq, h.data i hi, newest_cons]
  cases newest pkt seen i with
  | some v => rfl
  | none =>
    rw [Option.getD_none, Option.none_or]
    split
    · rfl
    · rfl

theorem filled_single : Filled pkt [p] pkt' := by
  refine h.filled fun i _ => ⟨rfl, ?_⟩
  unfold Supplied
  simp

theorem ends_zero : Ends pkt (p :: queue) 0 ↔ found = true := by
  rw [h.found]
  refine and_congr ⟨?_, fun hover => ⟨p, rfl, hover⟩⟩ (forall₂_congr fun i hi => ?_)
  · rintro ⟨q, hq, hover⟩
    cases hq
    exact hover
  · exact (h.filled_single i hi).2.symm

theorem ends_succ (n : Nat) : Ends pkt (p :: queue) (n + 1) ↔ Ends pkt' queue n := by
  unfold Ends
  rw [h.size, List.getElem?_cons_succ, List.take_succ_cons]
  refine and_congr ?_ (forall₂_congr fun i hi => (h.supplied_iff hi).symm)
  simp only [h.overlaps_eq]

theorem satisfied_now (hfound : found = true) : Satisfied pkt (p :: queue) true pkt' where
  found := iff_of_true rfl ⟨0, h.ends_zero.2 hfound⟩
  upTo n hn hmin := by
    cases n with
    | zero => exact h.filled_single
    | succ n => exact absurd (h.ends_zero.2 hfound) (hmin 0 (Nat.succ_pos n))
  all hnone := absurd (h.ends_zero.2 hfound) (hnone 0)

theorem satisfied_later {f : Bool} {pkt2 : Packet} (hfound : found = false)
    (hrest : Satisfied pkt' queue f pkt2) : Satisfied pkt (p :: queue) f pkt2 where
  found := by
    rw [hrest.found]
    constructor
    · rintro ⟨n, hn⟩
      exact ⟨n + 1, (h.ends_succ n).2 hn⟩
    · rintro ⟨n, hn⟩
      cases n with
      | zero =>
        rw [h.ends_zero, hfound] at hn
        cases hn
      | succ n => exact ⟨n, (h.ends_succ n).1 hn⟩
  upTo n hn hmin := by
    cases n with
    | zero =>
      rw [h.ends_zero, hfound] at hn
      cases hn
    | succ n =>
      refine h.filled (hrest.upTo n ((h.ends_succ n).1 hn) fun m hm hends => ?_)
      exact hmin (m + 1) (Nat.succ_lt_succ hm) ((h.ends_succ m).2 hends)
  all hnone := h.filled (hrest.all fun n hn => hnone (n + 1) ((h.ends_succ n).2 hn))

end Step

/-- **What a functional read gets from a queue.**  For every queue and every set of bytes that are valid already: the
scan ends at the first packet that overlaps the read and with which all bytes have been supplied, and the result is true
exactly if it ends.  Each byte gets its value in the last of the packets up to there that cover it, and is unchanged if
none does; the queue is unchanged. -/
theorem trySatisfyFunctional_spec : ∀ (queue : List Packet) (pkt : Packet), pkt.isRead = true →
    ∃ found pkt', trySatisfyFunctional pkt queue = some (found, pkt', queue) ∧ Satisfied pkt queue found pkt'
  | [], pkt, _ => by
    have hnone : ∀ n, ¬ Ends pkt [] n := by
      rintro n ⟨⟨p, hp, -⟩, -⟩
      cases hp
    refine ⟨false, pkt, rfl, iff_of_false Bool.false_ne_true fun ⟨n, hn⟩ => hnone n hn,
      fun n hn => absurd hn (hnone n), fun _ i _ => ⟨rfl, ?_⟩⟩
    unfold Supplied
    simp
  | p :: queue, pkt, hread => by
    obtain ⟨found, pkt', htry, hstep⟩ := trySatisfy_read (p := p) hread
    unfold trySatisfyFunctional
    rw [htry]
    cases found with
    | true => exact ⟨true, pkt', rfl, hstep.satisfied_now rfl⟩
    | false =>
      have hread' : pkt'.isRead = true := by
        unfold Packet.isRead
        rw [hstep.cmd]
        exact hread
      obtain ⟨f, pkt2, hrun, hrest⟩ := trySatisfyFunctional_spec queue pkt' hread'
      dsimp only
      rw [hrun]
      exact ⟨f, pkt2, rfl, hstep.satisfied_later rfl hrest⟩

end Queue

/-! ## A byte that is queued twice -/

theorem byte_nowrap : 0 < 0 + 1 ∧ 0 + 1 ≤ 2 ^ 64 := ⟨by decide, by decide⟩

/-- A write of value `v` to address 0. -/
def byteWrite (v : UInt8) : Packet := ⟨.WriteReq, 0, 1, false, fun _ => v, fun _ => false, byte_nowrap⟩

/-- A read of the byte at address 0, without or with the byte supplied already. -/
def byteRead (valid : Bool) : Packet := ⟨.ReadReq, 0, 1, false, fun _ => 0, fun _ => valid, byte_nowrap⟩

theorem word_nowrap : 0 < 0 + 2 ∧ 0 + 2 ≤ 2 ^ 64 := ⟨by decide, by decide⟩

/-- A write of both bytes of a word, and a read of them. -/
def wordWrite : Packet := ⟨.WriteReq, 0, 2, false, fun i => if i = 0 then 2 else 3, fun _ => false, word_nowrap⟩
def wordRead : Packet := ⟨.ReadReq, 0, 2, false, fun _ => 0, fun _ => false, word_nowrap⟩

/-- The first write supplies one byte of the word, the second both, and the third is not read. -/
theorem wordRead_spec : ∃ pkt', trySatisfyFunctional wordRead [byteWrite 1, wordWrite, byteWrite 4] =
      some (true, pkt', [byteWrite 1, wordWrite, byteWrite 4]) ∧ pkt'.data 0 = 2 ∧ pkt'.data 1 = 3 ∧
    Satisfied wordRead [byteWrite 1, wordWrite, byteWrite 4] true pkt' := by
  obtain ⟨found, pkt', hrun, hsat⟩ := trySatisfyFunctional_spec [byteWrite 1, wordWrite, byteWrite 4] wordRead rfl
  cases hrun
  exact ⟨_, rfl, rfl, rfl, hsat⟩

/-- **The first write is read, not the last**, and a read whose byte is valid already is not found
satisfied. -/
theorem first_write_read :
    (trySatisfyFunctional (byteRead false) [byteWrite 1, byteWrite 2]).map (fun r => (r.1, r.2.1.data 0)) =
      some (true, 1) ∧ newest (byteRead false) [byteWrite 1, byteWrite 2] 0 = some 2 ∧
    (trySatisfyFunctional (byteRead true) []).map Prod.fst = some false ∧ Supplied (byteRead true) [] 0 :=
  ⟨rfl, rfl, rfl, .inl rfl⟩

end Alpine.Mem.Functional
