import Alpine.Dev.VirtQueueWalk

/-!
# Transfers to and from a chain

* `window` — the part of a list that starts at an offset; `store_append`, `map_store`, `store_frame` — bytes written one
  after the other.
* `addresses`, `cells` — the concatenation of the buffers of a chain, by address, and with the descriptor of each
  byte; `leading` — the incoming buffers at its start.
* `chainReadLoop_eq`, `chainWriteLoop_eq`, `chainWriteLoop_panic` — the loops, on any rest of a chain.
* `ReadsWindow`, `WritesWindow` — what is wanted of `chainRead` and `chainWrite`; `ReadGuard` — when it holds
  (`chain_transfers_iff`).
-/

namespace Alpine.Dev

/-! ### Windows -/

variable {offset : Nat}

section

variable {α β : Type}

def window (l : List α) (offset size : Nat) : List α := (l.drop offset).take size

theorem window_append (l l' : List α) (offset size : Nat) : window (l ++ l') offset size =
      window l offset size ++ window l' (offset - l.length) (size - (l.length - offset)) := by
  unfold window
  rw [List.drop_append, List.take_append, List.length_drop]

theorem window_map (f : α → β) (l : List α) (offset size : Nat) :
    window (l.map f) offset size = (window l offset size).map f := by
  unfold window
  rw [← List.map_drop, ← List.map_take]

theorem length_window (l : List α) (offset size : Nat) :
    (window l offset size).length = min size (l.length - offset) := by
  unfold window
  rw [List.length_take, List.length_drop]

theorem window_zero (l : List α) (offset : Nat) : window l offset 0 = [] := by
  unfold window
  rw [List.take_zero]

theorem window_nil (offset size : Nat) : window ([] : List α) offset size = [] := by
  unfold window
  rw [List.drop_nil, List.take_nil]

theorem window_of_ge {l : List α} (h : l.length ≤ offset) (size : Nat) : window l offset size = [] := by
  unfold window
  rw [List.drop_eq_nil_of_le h, List.take_nil]

end

/-! ### Bytes in memory -/

theorem add_ofNat_succ (addr : Addr) (k : Nat) : addr + BitVec.ofNat 64 (k + 1) = addr + 1 + BitVec.ofNat 64 k := by
  rw [BitVec.ofNat_add, BitVec.add_assoc, BitVec.add_comm (BitVec.ofNat 64 k)]
  rfl

theorem length_span (addr : Addr) (size : Nat) : (span addr size).length = size := by
  induction size generalizing addr with
  | zero => rfl
  | succ size ih => rw [span, List.length_cons, ih]

theorem window_span (addr : Addr) (len offset size : Nat) :
    window (span addr len) offset size = span (addr + BitVec.ofNat 64 offset) (min size (len - offset)) := by
  induction len generalizing addr offset size with
  | zero => simp [window_nil, span]
  | succ len ih =>
    cases offset with
    | zero =>
      cases size with
      | zero => simp [window_zero, span]
      | succ size =>
        have h := ih (addr + 1) 0 size
        simp only [window, List.drop_zero, Nat.sub_zero, BitVec.ofNat_eq_ofNat, BitVec.add_zero] at h
        simp [window, span, h, Nat.succ_min_succ]
    | succ offset =>
      have h := ih (addr + 1) offset size
      rw [add_ofNat_succ, Nat.succ_sub_succ, ← h]
      rfl

variable {size : Nat}

theorem mem_span {addr a : Addr} : a ∈ span addr size ↔ ∃ k < size, a = addr + BitVec.ofNat 64 k := by
  induction size generalizing addr with
  | zero => simp [span]
  | succ size ih =>
    rw [span, List.mem_cons, ih]
    constructor
    · rintro (rfl | ⟨k, hk, rfl⟩)
      · exact ⟨0, Nat.succ_pos size, by simp⟩
      · exact ⟨k + 1, Nat.succ_lt_succ hk, (add_ofNat_succ addr k).symm⟩
    · rintro ⟨k, hk, rfl⟩
      cases k with
      | zero => exact .inl (by simp)
      | succ k => exact .inr ⟨k, Nat.lt_of_succ_lt_succ hk, add_ofNat_succ addr k⟩

theorem nodup_span (addr : Addr) (h : size ≤ 2 ^ 64) : (span addr size).Nodup := by
  induction size generalizing addr with
  | zero => exact List.nodup_nil
  | succ size ih =>
    refine List.nodup_cons.2 ⟨?_, ih (addr + 1) (by omega)⟩
    rw [mem_span]
    rintro ⟨k, hk, heq⟩
    rw [← add_ofNat_succ] at heq
    have hz : BitVec.ofNat 64 (k + 1) = 0 := BitVec.self_eq_add_right.1 heq
    have := congrArg BitVec.toNat hz
    rw [BitVec.toNat_ofNat, Nat.mod_eq_of_lt (by omega)] at this
    exact Nat.succ_ne_zero k this

theorem store_nil (bytes : Addr → BitVec 8) (src : List (BitVec 8)) : store bytes [] src = bytes := by
  rw [store]
  rintro a as v vs ⟨⟩

theorem store_nil_src (bytes : Addr → BitVec 8) (as : List Addr) : store bytes as [] = bytes := by
  cases as <;> rfl

theorem store_append (bytes : Addr → BitVec 8) (as bs : List Addr) (src : List (BitVec 8)) :
    store bytes (as ++ bs) src = store (store bytes as src) bs (src.drop as.length) := by
  induction as generalizing bytes src with
  | nil => rw [List.nil_append, store_nil, List.length_nil, List.drop_zero]
  | cons a as ih =>
    cases src with
    | nil => rw [store_nil_src, store_nil_src, List.drop_nil, store_nil_src]
    | cons v vs =>
      rw [List.cons_append, store, ih, store]
      rfl

theorem store_take (bytes : Addr → BitVec 8) (as : List Addr) (src : List (BitVec 8)) {k : Nat}
    (hk : as.length = k) : store bytes as (src.take k) = store bytes as src := by
  subst hk
  induction as generalizing bytes src with
  | nil => rw [store_nil, store_nil]
  | cons a as ih =>
    cases src with
    | nil => rfl
    | cons v vs => rw [List.length_cons, List.take_succ_cons, store, store, ih]

theorem store_frame {bytes : Addr → BitVec 8} {as : List Addr} {a : Addr} (h : a ∉ as) (src : List (BitVec 8)) :
    store bytes as src a = bytes a := by
  induction as generalizing bytes src with
  | nil => rw [store_nil]
  | cons b as ih =>
    cases src with
    | nil => rfl
    | cons v vs =>
      rw [store, ih (fun hm => h (List.mem_cons_of_mem b hm)), Function.update_of_ne]
      rintro rfl
      exact h List.mem_cons_self

variable {src : List (BitVec 8)}

/-- What is written to different addresses is read back. -/
theorem map_store {bytes : Addr → BitVec 8} {as : List Addr} (hn : as.Nodup) (hlen : as.length = src.length) :
    as.map (store bytes as src) = src := by
  induction as generalizing bytes src with
  | nil => exact (List.length_eq_zero_iff.1 hlen.symm).symm
  | cons a as ih =>
    cases src with
    | nil => cases hlen
    | cons v vs =>
      obtain ⟨ha, hn⟩ := List.nodup_cons.1 hn
      rw [List.map_cons, store, ih hn (Nat.succ.inj hlen), store_frame ha, Function.update_self]

/-! ### The buffers of a chain -/

namespace VringDesc

def addresses (d : VringDesc) : List Addr := span d.addr d.size

theorem length_addresses (d : VringDesc) : d.addresses.length = d.size := length_span _ _

theorem window_addresses (d : VringDesc) (offset size : Nat) :
    window d.addresses offset size = span (d.addr + BitVec.ofNat 64 offset) (min size (d.size - offset)) :=
  window_span _ _ _ _

end VringDesc

/-- The bytes of all buffers, each with its descriptor. -/
def cells (l : List VringDesc) : List (VringDesc × Addr) := l.flatMap fun d => d.addresses.map (d, ·)

/-- The concatenation of all buffers. -/
def addresses (l : List VringDesc) : List Addr := l.flatMap VringDesc.addresses

/-- The buffers at the start that the device may read. -/
def leading (l : List VringDesc) : List VringDesc := l.takeWhile VringDesc.isIncoming

theorem cells_cons (d : VringDesc) (l : List VringDesc) : cells (d :: l) = d.addresses.map (d, ·) ++ cells l :=
  List.flatMap_cons

theorem addresses_cons (d : VringDesc) (l : List VringDesc) : addresses (d :: l) = d.addresses ++ addresses l :=
  List.flatMap_cons

/-- Buffers without a common byte. -/
def DisjointBuffers (l : List VringDesc) : Prop :=
  l.Pairwise fun d e => ∀ j < d.size, ∀ k < e.size, d.addr + BitVec.ofNat 64 j ≠ e.addr + BitVec.ofNat 64 k

variable {l : List VringDesc}

theorem DisjointBuffers.nodup (h : DisjointBuffers l) : (addresses l).Nodup := by
  refine List.nodup_flatMap.2 ⟨fun d _ => nodup_span d.addr ?_, h.imp fun hde a had hae => ?_⟩
  · have := d.len.isLt
    unfold VringDesc.size
    omega
  · obtain ⟨j, hj, rfl⟩ := mem_span.1 had
    obtain ⟨k, hk, heq⟩ := mem_span.1 hae
    exact hde j hj k hk heq

namespace VirtQueue

variable {n : Nat}

/-! ### Rounds -/

theorem sub_of_le {a b : Nat} (h : b ≤ a) : sub a b = .ok (a - b) := if_pos h

variable {q : VirtQueue n} {d : Fin n} (g : Guest n)

theorem read_incoming (hin : (q.desc d).isIncoming = true) (hle : offset + size ≤ (q.desc d).size) :
    q.read g d offset size = .ok (readBlob g.bytes ((q.desc d).addr + BitVec.ofNat 64 offset) size) := by
  have hsize : ¬ ¬ size ≤ (q.desc d).size - offset := by omega
  unfold read
  rw [sub_of_le (by omega)]
  simp only [bind, Except.bind, if_neg hsize, hin]
  rfl

theorem read_outgoing (hin : (q.desc d).isIncoming = false) (hle : offset + size ≤ (q.desc d).size) :
    q.read g d offset size = .error (.panic "Trying to read from outgoing buffer\n") := by
  have hsize : ¬ ¬ size ≤ (q.desc d).size - offset := by omega
  unfold read
  rw [sub_of_le (by omega)]
  simp only [bind, Except.bind, if_neg hsize, hin]
  rfl

theorem write_outgoing (hout : (q.desc d).isOutgoing = true) (hle : offset + src.length ≤ (q.desc d).size) :
    q.write g d offset src =
      .ok { g with bytes := writeBlob g.bytes ((q.desc d).addr + BitVec.ofNat 64 offset) src } := by
  have hsize : ¬ ¬ src.length ≤ (q.desc d).size - offset := by omega
  unfold write
  rw [sub_of_le (by omega)]
  simp only [bind, Except.bind, if_neg hsize, hout]
  rfl

theorem write_incoming (hout : (q.desc d).isOutgoing = false) (hle : offset + src.length ≤ (q.desc d).size) :
    q.write g d offset src = .error (.panic "Trying to write to incoming buffer\n") := by
  have hsize : ¬ ¬ src.length ≤ (q.desc d).size - offset := by omega
  unfold write
  rw [sub_of_le (by omega)]
  simp only [bind, Except.bind, if_neg hsize, hout]
  rfl

/-- A round reads the part of the window that lies in the buffer, unless it would read from an outgoing one. -/
theorem readRound_eq (dst : List (BitVec 8)) (h : (q.desc d).isIncoming = true ∨ (q.desc d).size ≤ offset) :
    q.readRound g d offset size dst = .ok (offset - (q.desc d).size, size - ((q.desc d).size - offset),
      dst ++ (window (q.desc d).addresses offset size).map g.bytes) := by
  unfold readRound
  by_cases hlt : offset < (q.desc d).size
  · have hin := h.resolve_right (by omega)
    have hmin : size - min ((q.desc d).size - offset) size = size - ((q.desc d).size - offset) := by omega
    have hoff : offset - (q.desc d).size = 0 := by omega
    rw [if_pos hlt, sub_of_le (by omega)]
    simp only [bind, Except.bind, read_incoming g hin (show offset + min ((q.desc d).size - offset) size ≤ _ by omega),
      sub_of_le (Nat.min_le_right _ size)]
    rw [hmin, hoff, VringDesc.window_addresses, Nat.min_comm size]
    rfl
  · have hw : window (q.desc d).addresses offset size = [] :=
      window_of_ge (by rw [VringDesc.length_addresses]; omega) size
    have hsize : size - ((q.desc d).size - offset) = size := by omega
    rw [if_neg hlt, sub_of_le (by omega), hw, hsize, List.map_nil, List.append_nil]
    rfl

theorem readRound_outgoing (dst : List (BitVec 8)) (hin : (q.desc d).isIncoming = false)
    (hlt : offset < (q.desc d).size) :
    q.readRound g d offset size dst = .error (.panic "Trying to read from outgoing buffer\n") := by
  unfold readRound
  rw [if_pos hlt, sub_of_le (by omega)]
  simp only [bind, Except.bind, read_outgoing g hin (show offset + min ((q.desc d).size - offset) size ≤ _ by omega)]

/-- A round writes the part of the window that lies in the buffer, unless it would write to an incoming one. -/
theorem writeRound_eq (h : (q.desc d).isOutgoing = true ∨ (q.desc d).size ≤ offset) :
    q.writeRound g d offset src = .ok (offset - (q.desc d).size, src.drop ((q.desc d).size - offset),
      { g with bytes := store g.bytes (window (q.desc d).addresses offset src.length) src }) := by
  unfold writeRound
  by_cases hlt : offset < (q.desc d).size
  · have hout := h.resolve_right (by omega)
    have hoff : offset - (q.desc d).size = 0 := by omega
    have hlen : (src.take (min ((q.desc d).size - offset) src.length)).length =
        min ((q.desc d).size - offset) src.length := by rw [List.length_take]; omega
    have hdrop : src.drop (min ((q.desc d).size - offset) src.length) = src.drop ((q.desc d).size - offset) := by
      rcases Nat.le_total ((q.desc d).size - offset) src.length with hle | hle
      · rw [Nat.min_eq_left hle]
      · rw [Nat.min_eq_right hle, List.drop_length, List.drop_eq_nil_of_le hle]
    have hstore : writeBlob g.bytes ((q.desc d).addr + BitVec.ofNat 64 offset)
        (src.take (min ((q.desc d).size - offset) src.length)) =
          store g.bytes (window (q.desc d).addresses offset src.length) src := by
      rw [writeBlob, hlen, VringDesc.window_addresses, Nat.min_comm src.length]
      exact store_take _ _ _ (length_span _ _)
    rw [if_pos hlt, sub_of_le (by omega)]
    simp only [bind, Except.bind, write_outgoing g hout (show offset + (src.take _).length ≤ _ by rw [hlen]; omega),
      sub_of_le (Nat.min_le_right _ src.length), hstore, hdrop, hoff]
    rfl
  · have hw : window (q.desc d).addresses offset src.length = [] :=
      window_of_ge (by rw [VringDesc.length_addresses]; omega) src.length
    have hsize : (q.desc d).size - offset = 0 := by omega
    rw [if_neg hlt, sub_of_le (by omega), hw, hsize, store_nil, List.drop_zero]
    rfl

theorem writeRound_incoming (hout : (q.desc d).isOutgoing = false) (hlt : offset < (q.desc d).size) :
    q.writeRound g d offset src = .error (.panic "Trying to write to incoming buffer\n") := by
  unfold writeRound
  rw [if_pos hlt, sub_of_le (by omega)]
  simp only [bind, Except.bind, write_incoming g hout
    (show offset + (src.take (min ((q.desc d).size - offset) src.length)).length ≤ _ by rw [List.length_take]; omega)]

/-! ### Loops -/

theorem Spells.eq_cons (h : q.Spells d l) : l = q.desc d :: l.tail := by
  cases h with
  | last _ => rfl
  | cons _ _ => rfl

/-- From a descriptor whose bytes are readable or skipped, the loop reads what there is of the window in it and in the
incoming buffers after it. -/
theorem chainReadLoop_eq (h : q.Spells d l) :
    ∀ {fuel : Nat}, l.length ≤ fuel → ∀ (offset size : Nat) (dst : List (BitVec 8)),
      (q.desc d).isIncoming = true ∨ (q.desc d).size ≤ offset → ∃ offset', chainReadLoop q g fuel d offset size dst =
        .ok (offset', size - ((addresses (q.desc d :: leading l.tail)).length - offset),
          dst ++ (window (addresses (q.desc d :: leading l.tail)) offset size).map g.bytes) := by
  induction h with
  | @last d hn =>
    intro fuel hle offset size dst hd
    obtain ⟨fuel, rfl, -⟩ := exists_fuel hle
    have hnil : addresses (q.desc d :: leading [q.desc d].tail) = (q.desc d).addresses := List.append_nil _
    refine ⟨offset - (q.desc d).size, ?_⟩
    rw [chainReadLoop, readRound_eq g dst hd, hnil, VringDesc.length_addresses]
    simp only [bind, Except.bind, hn]
    rfl
  | @cons d e l hn hs ih =>
    intro fuel hle offset size dst hd
    obtain ⟨fuel, rfl, hle'⟩ := exists_fuel hle
    rw [List.tail_cons, addresses_cons, window_append, List.length_append, VringDesc.length_addresses, List.map_append,
      ← List.append_assoc, chainReadLoop, readRound_eq g dst hd]
    simp only [bind, Except.bind, hn]
    by_cases hc : (q.desc e).isIncoming = true ∧ size - ((q.desc d).size - offset) > 0
    · obtain ⟨offset', hloop⟩ := ih hle' (offset - (q.desc d).size)
        (size - ((q.desc d).size - offset)) (dst ++ (window (q.desc d).addresses offset size).map g.bytes) (.inl hc.1)
      have hlead : leading l = q.desc e :: leading l.tail := by
        conv_lhs => rw [hs.eq_cons]
        exact List.takeWhile_cons_of_pos hc.1
      rw [← hlead] at hloop
      refine ⟨offset', ?_⟩
      rw [if_pos hc, hloop]
      congr 3
      omega
    · -- nothing of the window is left, or the next buffer ends the incoming ones
      have hend : (window (addresses (leading l)) (offset - (q.desc d).size) (size - ((q.desc d).size - offset))) = [] ∧
          size - ((q.desc d).size - offset) =
            size - ((q.desc d).size + (addresses (leading l)).length - offset) := by
        by_cases hin : (q.desc e).isIncoming = true
        · have hz : size - ((q.desc d).size - offset) = 0 := by
            by_contra hne
            exact hc ⟨hin, Nat.pos_of_ne_zero hne⟩
          exact ⟨by rw [hz, window_zero], by omega⟩
        · have hlead : leading l = [] := by
            rw [hs.eq_cons]
            exact List.takeWhile_cons_of_neg hin
          rw [hlead]
          exact ⟨window_nil _ _, rfl⟩
      refine ⟨offset - (q.desc d).size, ?_⟩
      rw [if_neg hc, hend.1, ← hend.2, List.map_nil, List.append_nil]
      rfl

theorem chainReadLoop_panic {fuel : Nat} (dst : List (BitVec 8))
    (hin : (q.desc d).isIncoming = false) (hlt : offset < (q.desc d).size) :
    chainReadLoop q g (fuel + 1) d offset size dst = .error (.panic "Trying to read from outgoing buffer\n") := by
  rw [chainReadLoop, readRound_outgoing g dst hin hlt]
  rfl

theorem fst_of_mem_window {x : VringDesc} {c : VringDesc × Addr}
    (h : c ∈ window (x.addresses.map (x, ·)) offset size) : c.1 = x := by
  rw [window_map] at h
  obtain ⟨a, -, rfl⟩ := List.mem_map.1 h
  rfl

theorem writable_of_window {x : VringDesc} (hpos : 0 < size)
    (h : ∀ c ∈ window (x.addresses.map (x, ·)) offset size, c.1.isOutgoing = true) :
    x.isOutgoing = true ∨ x.size ≤ offset := by
  by_cases hlt : offset < x.size
  · have hlen : 0 < (window (x.addresses.map (x, ·)) offset size).length := by
      rw [length_window, List.length_map, VringDesc.length_addresses]
      omega
    obtain ⟨c, hc⟩ := List.exists_mem_of_length_pos hlen
    left
    rw [← fst_of_mem_window hc]
    exact h c hc
  · exact .inr (Nat.le_of_not_lt hlt)

theorem window_cells_cons (x : VringDesc) (l : List VringDesc) (offset size : Nat) :
    window (cells (x :: l)) offset size = window (x.addresses.map (x, ·)) offset size ++
      window (cells l) (offset - x.size) (size - (x.size - offset)) := by
  rw [cells_cons, window_append, List.length_map, VringDesc.length_addresses]

/-- Where the window is writable the loop writes what there is of it. -/
theorem chainWriteLoop_eq (h : q.Spells d l) :
    ∀ {fuel : Nat}, l.length ≤ fuel → ∀ (g : Guest n) (offset : Nat) (src : List (BitVec 8)), 0 < src.length →
      (∀ c ∈ window (cells l) offset src.length, c.1.isOutgoing = true) →
      ∃ offset', chainWriteLoop q fuel g d offset src = .ok (offset', src.drop ((addresses l).length - offset),
        { g with bytes := store g.bytes (window (addresses l) offset src.length) src }) := by
  induction h with
  | @last d hn =>
    intro fuel hle g offset src hpos hw
    obtain ⟨fuel, rfl, -⟩ := exists_fuel hle
    have hnil : addresses [q.desc d] = (q.desc d).addresses := List.append_nil _
    have hd := writable_of_window hpos fun c hc => hw c (by
      rw [window_cells_cons]
      exact List.mem_append_left _ hc)
    refine ⟨offset - (q.desc d).size, ?_⟩
    rw [chainWriteLoop, writeRound_eq g hd, hnil, VringDesc.length_addresses]
    simp only [bind, Except.bind, hn]
    rfl
  | @cons d e l hn hs ih =>
    intro fuel hle g offset src hpos hw
    obtain ⟨fuel, rfl, hle'⟩ := exists_fuel hle
    rw [window_cells_cons] at hw
    have hd := writable_of_window hpos fun c hc => hw c (List.mem_append_left _ hc)
    have hsrc : (src.drop ((q.desc d).size - offset)).length = src.length - ((q.desc d).size - offset) :=
      List.length_drop
    -- the bytes of this buffer first, then the others
    have hstore : store g.bytes (window (addresses (q.desc d :: l)) offset src.length) src =
        store (store g.bytes (window (q.desc d).addresses offset src.length) src)
          (window (addresses l) (offset - (q.desc d).size) (src.length - ((q.desc d).size - offset)))
          (src.drop ((q.desc d).size - offset)) := by
      rw [addresses_cons, window_append, store_append, length_window, VringDesc.length_addresses]
      rcases Nat.le_total ((q.desc d).size - offset) src.length with hmin | hmin
      · rw [Nat.min_eq_right hmin]
      · rw [Nat.min_eq_left hmin, List.drop_length, List.drop_eq_nil_of_le hmin]
    rw [chainWriteLoop, writeRound_eq g hd, hstore, addresses_cons, List.length_append, VringDesc.length_addresses]
    simp only [bind, Except.bind, hn]
    by_cases hc : (src.drop ((q.desc d).size - offset)).length > 0
    · obtain ⟨offset', hloop⟩ := ih hle'
        { g with bytes := store g.bytes (window (q.desc d).addresses offset src.length) src }
        (offset - (q.desc d).size) (src.drop ((q.desc d).size - offset)) hc
        (fun c hm => hw c (List.mem_append_right _ (by rw [hsrc] at hm; exact hm)))
      refine ⟨offset', ?_⟩
      rw [if_pos hc, hloop, hsrc, List.drop_drop]
      congr 4
      omega
    · have hnil : src.drop ((q.desc d).size - offset) = [] := List.length_eq_zero_iff.1 (by omega)
      refine ⟨offset - (q.desc d).size, ?_⟩
      rw [if_neg hc, hnil, store_nil_src, List.drop_eq_nil_of_le (by omega)]
      rfl

/-- Where a byte of the window is not writable the loop panics. -/
theorem chainWriteLoop_panic (h : q.Spells d l) :
    ∀ {fuel : Nat}, l.length ≤ fuel → ∀ (g : Guest n) (offset : Nat) (src : List (BitVec 8)), 0 < src.length →
      ¬ (∀ c ∈ window (cells l) offset src.length, c.1.isOutgoing = true) →
      chainWriteLoop q fuel g d offset src = .error (.panic "Trying to write to incoming buffer\n") := by
  -- the first buffer that the window meets and that is not writable
  have hhead : ∀ (d : Fin n) (fuel : Nat) (g : Guest n) (offset : Nat) (src : List (BitVec 8)),
      ¬ ((q.desc d).isOutgoing = true ∨ (q.desc d).size ≤ offset) →
      chainWriteLoop q (fuel + 1) g d offset src = .error (.panic "Trying to write to incoming buffer\n") := by
    intro d fuel g offset src hd
    rw [not_or, Bool.not_eq_true, Nat.not_le] at hd
    rw [chainWriteLoop, writeRound_incoming g hd.1 hd.2]
    rfl
  have hfirst : ∀ (d : Fin n) (offset size : Nat), (q.desc d).isOutgoing = true ∨ (q.desc d).size ≤ offset →
      ∀ c ∈ window ((q.desc d).addresses.map (q.desc d, ·)) offset size, c.1.isOutgoing = true := by
    intro d offset size hd c hc
    cases hd with
    | inl hout =>
      rw [fst_of_mem_window hc]
      exact hout
    | inr hle =>
      rw [window_of_ge (by rw [List.length_map, VringDesc.length_addresses]; exact hle)] at hc
      exact absurd hc List.not_mem_nil
  induction h with
  | @last d hn =>
    intro fuel hle g offset src hpos hw
    obtain ⟨fuel, rfl, -⟩ := exists_fuel hle
    refine hhead d fuel g offset src fun hd => hw fun c hc => hfirst d offset src.length hd c ?_
    rw [window_cells_cons, show cells [] = [] from rfl, window_nil, List.append_nil] at hc
    exact hc
  | @cons d e l hn hs ih =>
    intro fuel hle g offset src hpos hw
    obtain ⟨fuel, rfl, hle'⟩ := exists_fuel hle
    by_cases hd : (q.desc d).isOutgoing = true ∨ (q.desc d).size ≤ offset
    · have hsrc : (src.drop ((q.desc d).size - offset)).length = src.length - ((q.desc d).size - offset) :=
        List.length_drop
      have hrest : ¬ ∀ c ∈ window (cells l) (offset - (q.desc d).size)
          (src.drop ((q.desc d).size - offset)).length, c.1.isOutgoing = true := by
        intro hall
        rw [hsrc] at hall
        refine hw fun c hc => ?_
        rw [window_cells_cons] at hc
        exact (List.mem_append.1 hc).elim (hfirst d offset src.length hd c) (hall c)
      have hc : (src.drop ((q.desc d).size - offset)).length > 0 := by
        rw [gt_iff_lt, Nat.pos_iff_ne_zero]
        intro hz
        rw [hz, window_zero] at hrest
        exact hrest fun c hc => absurd hc List.not_mem_nil
      rw [chainWriteLoop, writeRound_eq g hd]
      simp only [bind, Except.bind, hn]
      rw [if_pos hc]
      exact ih hle' _ _ _ hc hrest
    · exact hhead d fuel g offset src hd

theorem chainSizeLoop_eq (h : q.Spells d l) :
    ∀ {fuel : Nat}, l.length ≤ fuel → ∀ size, chainSizeLoop q fuel d size = .ok (size + (addresses l).length) := by
  induction h with
  | @last d hn =>
    intro fuel hle size
    obtain ⟨fuel, rfl, -⟩ := exists_fuel hle
    rw [chainSizeLoop, hn, addresses_cons, List.length_append, VringDesc.length_addresses]
    rfl
  | @cons d e l hn hs ih =>
    intro fuel hle size
    obtain ⟨fuel, rfl, hle'⟩ := exists_fuel hle
    rw [chainSizeLoop, hn, addresses_cons, List.length_append, VringDesc.length_addresses, ← Nat.add_assoc]
    exact ih hle' _

/-! ### Transfers -/

/-- `chainRead` delivers the window of the leading incoming buffers, and panics where it is not all there. -/
def ReadsWindow (q : VirtQueue n) (g : Guest n) (d : Fin n) (l : List VringDesc) (offset size : Nat) : Prop :=
  ∀ fuel ≥ l.length,
    if offset + size ≤ (addresses (leading l)).length
    then q.chainRead fuel g d offset size = .ok ((window (addresses (leading l)) offset size).map g.bytes)
    else ∃ text, q.chainRead fuel g d offset size = .error (.panic text)

/-- `chainWrite` changes the window of all buffers to `src` and nothing else, and panics where it is not all there or
not all writable. -/
def WritesWindow (q : VirtQueue n) (g : Guest n) (d : Fin n) (l : List VringDesc) (offset : Nat)
    (src : List (BitVec 8)) : Prop :=
  ∀ fuel ≥ l.length,
    if offset + src.length ≤ (addresses l).length ∧ ∀ c ∈ window (cells l) offset src.length, c.1.isOutgoing = true
    then ∃ bytes, q.chainWrite fuel g d offset src = .ok { g with bytes := bytes } ∧
      (window (addresses l) offset src.length).map bytes = src ∧
      ∀ a, a ∉ window (addresses l) offset src.length → bytes a = g.bytes a
    else ∃ text, q.chainWrite fuel g d offset src = .error (.panic text)

/-- Not: the first buffer is an outgoing one that `offset` skips, and the rest of the window lies in the incoming buffers
that follow it. -/
def ReadGuard (l : List VringDesc) (offset size : Nat) : Prop :=
  ∀ x l', l = x :: l' → x.isOutgoing = true → x.size ≤ offset →
    (addresses (leading l')).length < offset - x.size + size

theorem chainRead_of_loop (h : q.Spells d l) {fuel : Nat} (hle : l.length ≤ fuel) (offset : Nat)
    (hpos : 1 ≤ size) (hd : (q.desc d).isIncoming = true ∨ (q.desc d).size ≤ offset) :
    if offset + size ≤ (addresses (q.desc d :: leading l.tail)).length then q.chainRead fuel g d offset size =
      .ok ((window (addresses (q.desc d :: leading l.tail)) offset size).map g.bytes)
    else ∃ text, q.chainRead fuel g d offset size = .error (.panic text) := by
  obtain ⟨offset', hloop⟩ := chainReadLoop_eq g h hle offset size [] hd
  unfold chainRead
  simp only [bind, Except.bind, hloop]
  by_cases hfit : offset + size ≤ (addresses (q.desc d :: leading l.tail)).length
  · have hz : size - ((addresses (q.desc d :: leading l.tail)).length - offset) = 0 := by omega
    simp only [if_pos hfit, hz, ne_eq, not_true_eq_false, if_false, List.nil_append]
    rfl
  · have hne : size - ((addresses (q.desc d :: leading l.tail)).length - offset) ≠ 0 := by omega
    simp only [if_neg hfit, hne, ne_eq, not_false_eq_true, if_true, chainSize, chainSizeLoop_eq h hle]
    exact ⟨_, rfl⟩

theorem leading_cons_incoming {x : VringDesc} (l : List VringDesc) (h : x.isIncoming = true) :
    leading (x :: l) = x :: leading l :=
  List.takeWhile_cons_of_pos h

theorem leading_cons_outgoing {x : VringDesc} (l : List VringDesc) (h : x.isOutgoing = true) : leading (x :: l) = [] :=
  List.takeWhile_cons_of_neg (by rw [VringDesc.isIncoming, h]; decide)

theorem readsWindow_iff (h : q.Spells d l) (offset : Nat) (hpos : 1 ≤ size) :
    q.ReadsWindow g d l offset size ↔ ReadGuard l offset size := by
  have hcons := h.eq_cons
  cases hout : (q.desc d).isOutgoing with
  | false =>
    have hin : (q.desc d).isIncoming = true := by rw [VringDesc.isIncoming, hout]; rfl
    refine iff_of_true (fun fuel hle => ?_) ?_
    · have hread := chainRead_of_loop g h hle offset hpos (.inl hin)
      rw [← leading_cons_incoming _ hin, ← hcons] at hread
      exact hread
    · intro x l' hl hx
      rw [hcons, List.cons.injEq] at hl
      rw [hl.1, hx] at hout
      cases hout
  | true =>
    have hin : (q.desc d).isIncoming = false := by rw [VringDesc.isIncoming, hout]; rfl
    have hlead : addresses (leading l) = [] := by
      rw [hcons, leading_cons_outgoing _ hout]
      rfl
    have hfit : ¬ offset + size ≤ (addresses (leading l)).length := by
      rw [hlead, List.length_nil]
      omega
    unfold ReadsWindow
    simp only [if_neg hfit]
    by_cases hskip : (q.desc d).size ≤ offset
    · -- the first buffer is skipped: the code reads the incoming ones behind it
      have hlen : (addresses (q.desc d :: leading l.tail)).length =
          (q.desc d).size + (addresses (leading l.tail)).length := by
        rw [addresses_cons, List.length_append, VringDesc.length_addresses]
      constructor
      · intro hread x l' hl _ _
        obtain ⟨text, htext⟩ := hread l.length le_rfl
        have hloop := chainRead_of_loop g h le_rfl offset hpos (.inr hskip)
        rw [hcons, List.cons.injEq] at hl
        rw [← hl.1, ← hl.2]
        by_contra hge
        rw [if_pos (by omega), htext] at hloop
        cases hloop
      · intro hguard fuel hle
        have hlt := hguard (q.desc d) l.tail hcons hout hskip
        have hloop := chainRead_of_loop g h hle offset hpos (.inr hskip)
        rw [if_neg (by omega)] at hloop
        exact hloop
    · refine iff_of_true (fun fuel hle => ?_) ?_
      · have hne : 0 < l.length := by
          rw [hcons]
          exact Nat.succ_pos _
        obtain ⟨fuel, rfl⟩ := Nat.exists_eq_succ_of_ne_zero (Nat.ne_of_gt (Nat.lt_of_lt_of_le hne hle))
        unfold chainRead
        rw [chainReadLoop_panic g [] hin (Nat.lt_of_not_le hskip)]
        exact ⟨_, rfl⟩
      · intro x l' hl _ hx
        rw [hcons, List.cons.injEq] at hl
        rw [← hl.1] at hx
        exact absurd hx hskip

theorem writesWindow (h : q.Spells d l) (hdisj : DisjointBuffers l) (offset : Nat)
    (hpos : 1 ≤ src.length) : q.WritesWindow g d l offset src := by
  intro fuel hle
  by_cases hw : ∀ c ∈ window (cells l) offset src.length, c.1.isOutgoing = true
  · obtain ⟨offset', hloop⟩ := chainWriteLoop_eq h hle g offset src hpos hw
    unfold chainWrite
    simp only [bind, Except.bind, hloop, List.length_drop]
    by_cases hfit : offset + src.length ≤ (addresses l).length
    · have hz : src.length - ((addresses l).length - offset) = 0 := by omega
      have hnodup : (window (addresses l) offset src.length).Nodup :=
        (hdisj.nodup.sublist (List.drop_sublist _ _)).sublist (List.take_sublist _ _)
      have hlen : (window (addresses l) offset src.length).length = src.length := by
        rw [length_window]
        omega
      rw [if_pos ⟨hfit, hw⟩]
      simp only [hz, ne_eq, not_true_eq_false, if_false]
      exact ⟨_, rfl, map_store hnodup hlen, fun a ha => store_frame ha src⟩
    · have hne : src.length - ((addresses l).length - offset) ≠ 0 := by omega
      rw [if_neg fun hc => hfit hc.1]
      simp only [hne, ne_eq, not_false_eq_true, if_true, chainSize, chainSizeLoop_eq h hle]
      exact ⟨_, rfl⟩
  · rw [if_neg fun hc => hw hc.2]
    unfold chainWrite
    rw [chainWriteLoop_panic h hle g offset src hpos hw]
    exact ⟨_, rfl⟩

/-- `chainRead` and `chainWrite` transfer the window just on the guarded ones, and `chainWrite` always does. -/
theorem chain_transfers_iff (n : Nat) (q : VirtQueue n) (g : Guest n) (d : Fin n) (l : List VringDesc)
    (hl : q.Spells d l) (hdisj : DisjointBuffers l) (offset size : Nat) (hsize : 1 ≤ size) :
    ((q.ReadsWindow g d l offset size ∧
        ∀ src : List (BitVec 8), src.length = size → q.WritesWindow g d l offset src) ↔ ReadGuard l offset size) ∧
    ∀ src : List (BitVec 8), src.length = size → q.WritesWindow g d l offset src := by
  have hwrite : ∀ src : List (BitVec 8), src.length = size → q.WritesWindow g d l offset src :=
    fun src hsrc => writesWindow g hl hdisj offset (by rw [hsrc]; exact hsize)
  refine ⟨?_, hwrite⟩
  rw [readsWindow_iff g hl offset hsize]
  exact ⟨fun h => h.1, fun h => ⟨h, hwrite⟩⟩

/-- A guest in whose memory every byte is the low byte of its address. -/
def echo : Guest 2 := { straying 1 with bytes := fun a => a.setWidth 8 }

/-- Two buffers of two bytes: one that the device reads, then one that it writes. -/
def request : VirtQueue 2 :=
  { VirtQueue.new 2 with descriptors := #v[⟨0x8000, 2, 1, 1⟩, ⟨0x9000, 2, 2, 0⟩] }

/-- Two buffers of two bytes: one that the device writes, then one that it reads. -/
def response : VirtQueue 2 :=
  { VirtQueue.new 2 with descriptors := #v[⟨0x9000, 2, 3, 1⟩, ⟨0x8000, 2, 0, 0⟩] }

theorem spells_request : request.Spells 0 [⟨0x8000, 2, 1, 1⟩, ⟨0x9000, 2, 2, 0⟩] :=
  Spells.cons (e := 1) (by rfl) (Spells.last (by rfl))

theorem spells_response : response.Spells 0 [⟨0x9000, 2, 3, 1⟩, ⟨0x8000, 2, 0, 0⟩] :=
  Spells.cons (e := 1) (by rfl) (Spells.last (by rfl))

theorem transfers_request : ((request.ReadsWindow echo 0 [⟨0x8000, 2, 1, 1⟩, ⟨0x9000, 2, 2, 0⟩] 1 1 ∧
        ∀ src : List (BitVec 8), src.length = 1 →
          request.WritesWindow echo 0 [⟨0x8000, 2, 1, 1⟩, ⟨0x9000, 2, 2, 0⟩] 1 src) ↔
      ReadGuard [⟨0x8000, 2, 1, 1⟩, ⟨0x9000, 2, 2, 0⟩] 1 1) ∧ ∀ src : List (BitVec 8), src.length = 1 →
      request.WritesWindow echo 0 [⟨0x8000, 2, 1, 1⟩, ⟨0x9000, 2, 2, 0⟩] 1 src :=
  chain_transfers_iff 2 request echo 0 _ spells_request (by unfold DisjointBuffers VringDesc.size; decide) 1 1 (by decide)

/-- Behind an outgoing buffer `chainRead` finds bytes that are not in the leading incoming ones. -/
theorem chainRead_behind_outgoing : response.Spells 0 [⟨0x9000, 2, 3, 1⟩, ⟨0x8000, 2, 0, 0⟩] ∧
    DisjointBuffers [⟨0x9000, 2, 3, 1⟩, ⟨0x8000, 2, 0, 0⟩] ∧
    addresses (leading [⟨0x9000, 2, 3, 1⟩, ⟨0x8000, 2, 0, 0⟩]) = [] ∧ response.chainRead 2 echo 0 2 2 = .ok [0, 1] ∧
    ¬ response.ReadsWindow echo 0 [⟨0x9000, 2, 3, 1⟩, ⟨0x8000, 2, 0, 0⟩] 2 2 := by
  have hread : response.chainRead 2 echo 0 2 2 = .ok [0, 1] := by rfl
  refine ⟨spells_response, by unfold DisjointBuffers VringDesc.size; decide, by rfl, hread, ?_⟩
  intro h
  obtain ⟨text, htext⟩ := h 2 (by decide)
  rw [hread] at htext
  cases htext

end VirtQueue

end Alpine.Dev
