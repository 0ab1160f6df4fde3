import Alpine.Aimc.Emulation

/-!
# Packed and single transfers (`dev/arm/aimc_cluster.cc`)

* `tileQueueSingle`, `tileDequeueSingle` — the transfers of one value.
* `queueSingles_nat`, `dequeueSingles_nat` — what four of them do.
* `transfers_agree_iff` — **a packed transfer is four single ones exactly when its block ends strictly inside
  the memory, the counter overflows, or the memory holds what the packed transfer takes it to hold.**
-/

namespace Alpine.Aimc.Cluster

variable {H W : Nat}

def tileQueueSingle (t : Tile H W) (val : BitVec 8) : Option (Tile H W) := do
  let idx := t.inputMemoryCounter
  let mem ← if idx < H then store t.inputMemory idx val else some t.inputMemory
  let counter ← int? (idx + 1)
  some { t with inputMemory := mem, inputMemoryCounter := counter }

def tileDequeueSingle (t : Tile H W) : Option (Tile H W × BitVec 8) := do
  let idx := t.outputMemoryCounter
  let next ← int? (idx + 1)
  let result ← if next < W then load t.outputMemory idx else some 0
  let counter ← int? (idx + 1)
  some ({ t with outputMemoryCounter := counter }, result)

/-- The bytes of a word queued one by one. -/
def queueSingles (t : Tile H W) (val : BitVec 32) : Option (Tile H W) :=
  (List.range vectorization).foldlM (fun t i => tileQueueSingle t (byteAt val i)) t

/-- Four values dequeued one by one, packed into a word. -/
def dequeueSingles (t : Tile H W) : Option (Tile H W × BitVec 32) := do
  let (t, b0) ← tileDequeueSingle t
  let (t, b1) ← tileDequeueSingle t
  let (t, b2) ← tileDequeueSingle t
  let (t, b3) ← tileDequeueSingle t
  some (t, packWord b0 b1 b2 b3)

/-- The packed queue has the effect of four single ones. -/
def QueueAgrees (t : Tile H W) (val : BitVec 32) : Prop :=
  (t.inputMemoryCounter + 4 < H ∨ ¬ IsInt (t.inputMemoryCounter + 4)) ∨
    ∀ i < 4, t.inputMemoryCounter + (i : Nat) < H →
      load t.inputMemory (t.inputMemoryCounter + (i : Nat)) = some (byteAt val i)

/-- The packed dequeue has the effect of four single ones. -/
def DequeueAgrees (t : Tile H W) : Prop :=
  (t.outputMemoryCounter + 4 < W ∨ ¬ IsInt (t.outputMemoryCounter + 4)) ∨
    ∀ i < 4, t.outputMemoryCounter + (i : Nat) + 1 < W →
      load t.outputMemory (t.outputMemoryCounter + (i : Nat)) = some 0

/-! ## Queueing -/

variable {c : Nat} (t : Tile H W)

theorem tileQueueSingle_nat (hc : t.inputMemoryCounter = c) (hb : c + 1 < 2147483648)
    (val : BitVec 8) : ∃ mem : Vector (BitVec 8) H,
      tileQueueSingle t val = some { t with inputMemory := mem, inputMemoryCounter := (c + 1 : Nat) } ∧
      ∀ k (hk : k < H), mem[k] = if k = c then val else t.inputMemory[k] := by
  have hnext : int? ((c : Int) + 1) = some ((c + 1 : Nat) : Int) := int?_natCast hb
  unfold tileQueueSingle
  rw [hc]
  simp only [hnext]
  by_cases h : c < H
  · refine ⟨t.inputMemory.set c val h, ?_, fun k hk => ?_⟩
    · rw [if_pos (by omega), store_nat _ h]
      rfl
    · rw [Vector.getElem_set]
      simp only [eq_comm]
  · refine ⟨t.inputMemory, ?_, fun k hk => by rw [if_neg (by omega)]⟩
    rw [if_neg (by omega)]
    rfl

theorem queueSingles_nat (val : BitVec 32) (t : Tile H W) (hc : t.inputMemoryCounter = c) :
    ∀ len : Nat, c + len < 2147483648 → ∃ mem : Vector (BitVec 8) H,
      (List.range len).foldlM (fun t i => tileQueueSingle t (byteAt val i)) t =
        some { t with inputMemory := mem, inputMemoryCounter := (c + len : Nat) } ∧
      ∀ k (hk : k < H), mem[k] = if c ≤ k ∧ k < c + len then byteAt val (k - c) else t.inputMemory[k]
  | 0, _ => ⟨t.inputMemory, by rw [Nat.add_zero, ← hc]; rfl, fun k hk => by rw [if_neg (by omega)]⟩
  | len + 1, hlen => by
    obtain ⟨mem, hmem, hget⟩ := queueSingles_nat val t hc len (by omega)
    obtain ⟨mem', hmem', hget'⟩ := tileQueueSingle_nat
      { t with inputMemory := mem, inputMemoryCounter := (c + len : Nat) } rfl (by omega) (byteAt val len)
    refine ⟨mem', ?_, fun k hk => ?_⟩
    · rw [List.range_succ, List.foldlM_append, hmem, bind_some_eq]
      simp only [List.foldlM_cons, List.foldlM_nil, hmem']
      rfl
    · rw [hget' k hk]
      by_cases e : k = c + len
      · rw [if_pos e, if_pos (by omega), e, Nat.add_sub_cancel_left]
      · rw [if_neg e]
        show mem[k] = _
        rw [hget k hk]
        by_cases h : c ≤ k ∧ k < c + len
        · rw [if_pos h, if_pos (by omega)]
        · rw [if_neg h, if_neg (by omega)]

/-- At the last counter the increment overflows. -/
theorem tileQueueSingle_overflow (hc : t.inputMemoryCounter = c) (hb : ¬ c + 1 < 2147483648)
    (val : BitVec 8) : tileQueueSingle t val = none := by
  have hnext : int? ((c : Int) + 1) = none := if_neg fun h => hb (by have := h.2; omega)
  unfold tileQueueSingle
  rw [hc]
  simp only [hnext]
  by_cases h : c < H
  · rw [if_pos (by omega), store_nat _ h]
    rfl
  · rw [if_neg (by omega)]
    rfl

theorem queueSingles_overflow (val : BitVec 32) (t : Tile H W) (hc : t.inputMemoryCounter = c) :
    ∀ len : Nat, 0 < len → ¬ c + len < 2147483648 →
      (List.range len).foldlM (fun t i => tileQueueSingle t (byteAt val i)) t = none
  | len + 1, _, hb => by
    rw [List.range_succ, List.foldlM_append]
    by_cases hlen : c + len < 2147483648
    · obtain ⟨mem, hmem, _⟩ := queueSingles_nat val t hc len hlen
      have hlast := tileQueueSingle_overflow
        { t with inputMemory := mem, inputMemoryCounter := (c + len : Nat) } rfl (by omega) (byteAt val len)
      rw [hmem, bind_some_eq]
      simp only [List.foldlM_cons, hlast]
      rfl
    · cases len with
      | zero =>
        have hfirst := tileQueueSingle_overflow t hc (by omega) (byteAt val 0)
        show (some t >>= fun t => tileQueueSingle t (byteAt val 0) >>= some) = none
        rw [bind_some_eq, hfirst]
        rfl
      | succ len =>
        rw [queueSingles_overflow val t hc (len + 1) (by omega) hlen]
        rfl

/-- A negative counter is an index before the memory. -/
theorem queueSingles_neg (val : BitVec 32) (t : Tile H W) (hc : t.inputMemoryCounter < 0) :
    queueSingles t val = none := by
  have hfirst : tileQueueSingle t (byteAt val 0) = none := by
    unfold tileQueueSingle
    simp only
    rw [if_pos (by omega), store_none _ (by omega)]
    rfl
  unfold queueSingles
  rw [show List.range vectorization = [0, 1, 2, 3] from rfl, List.foldlM_cons, hfirst]
  rfl

theorem tileQueue_overflow (val : BitVec 32) (hb : ¬ IsInt (t.inputMemoryCounter + 4)) : tileQueue t val = none := by
  have hstop : int? (t.inputMemoryCounter + vectorization) = none := if_neg hb
  unfold tileQueue
  simp only [hstop]
  rfl

/-- With a negative counter the packed queue indexes before the memory, or drops its block. -/
theorem tileQueue_neg (val : BitVec 32) (hc : t.inputMemoryCounter < 0) (hb : IsInt (t.inputMemoryCounter + 4)) :
    tileQueue t val = if t.inputMemoryCounter + 4 < H then none
      else some { t with inputMemoryCounter := t.inputMemoryCounter + 4 } := by
  have hstop : int? (t.inputMemoryCounter + vectorization) = some (t.inputMemoryCounter + 4) := int?_some hb
  unfold tileQueue
  simp only [hstop, bind_some_eq]
  by_cases h : t.inputMemoryCounter + 4 < H
  · rw [if_pos h, if_pos h, show List.range vectorization = [0, 1, 2, 3] from rfl, List.foldlM_cons,
      store_none _ (by omega)]
    rfl
  · rw [if_neg h, if_neg h]

theorem queue_agrees_iff (val : BitVec 32) : tileQueue t val = queueSingles t val ↔ QueueAgrees t val := by
  unfold QueueAgrees
  by_cases hint : IsInt (t.inputMemoryCounter + 4)
  · by_cases hneg : t.inputMemoryCounter < 0
    · rw [queueSingles_neg val t hneg, tileQueue_neg t val hneg hint]
      by_cases h : t.inputMemoryCounter + 4 < H
      · rw [if_pos h]
        exact iff_of_true rfl (Or.inl (Or.inl h))
      · rw [if_neg h]
        refine iff_of_false (by simp) ?_
        rintro ((h' | h') | hall)
        · exact h h'
        · exact h' hint
        · have hfirst := hall 0 (by omega) (by omega)
          rw [load_none _ (by omega)] at hfirst
          cases hfirst
    · obtain ⟨c, hc⟩ := Int.eq_ofNat_of_zero_le (not_lt.1 hneg)
      have hb : c + 4 < 2147483648 := by have := hint.2; omega
      obtain ⟨mem, hmem, hget⟩ := Check.coreQueue_spec t hc hb val
      obtain ⟨mem', hmem', hget'⟩ := queueSingles_nat val t hc 4 hb
      rw [← coreQueue_eq_tileQueue, hmem, queueSingles, show vectorization = 4 from rfl, hmem', hc]
      by_cases h : c + 4 < H
      · refine iff_of_true ?_ (Or.inl (Or.inl (by omega)))
        have hsame : mem = mem' := Vector.ext fun k hk => by
          rw [hget k hk, hget' k hk]
          simp only [h, true_and]
        rw [hsame]
      · constructor
        · intro heq
          refine Or.inr fun i hi hlt => ?_
          have hsame : mem = mem' := congrArg Tile.inputMemory (Option.some.inj heq)
          have hk : c + i < H := by omega
          have hcell := hget (c + i) hk
          rw [hsame, hget' (c + i) hk, if_pos (by omega), if_neg (by omega), Nat.add_sub_cancel_left] at hcell
          rw [← Int.natCast_add, load_nat _ hk, hcell]
        · rintro ((h' | h') | hall)
          · exact absurd h' (by omega)
          · exact absurd (hc ▸ hint) h'
          · have hsame : mem = mem' := Vector.ext fun k hk => by
              rw [hget k hk, hget' k hk, if_neg (fun e => h e.1)]
              by_cases e : c ≤ k ∧ k < c + 4
              · have hcell := hall (k - c) (by omega) (by omega)
                rw [show (c : Int) + (k - c : Nat) = (k : Nat) by omega, load_nat _ hk] at hcell
                rw [if_pos e, Option.some.inj hcell]
              · rw [if_neg e]
            rw [hsame]
  · rw [tileQueue_overflow t val hint]
    refine iff_of_true ?_ (Or.inl (Or.inr hint))
    by_cases hneg : t.inputMemoryCounter < 0
    · exact (queueSingles_neg val t hneg).symm
    · obtain ⟨c, hc⟩ := Int.eq_ofNat_of_zero_le (not_lt.1 hneg)
      exact (queueSingles_overflow val t hc 4 (by omega)
        fun hb => hint (by rw [hc]; exact isInt_natCast hb)).symm

/-! ## Dequeueing -/

/-- The value a single dequeue takes at `c`. -/
def singleAt (out : Vector (BitVec 8) W) (c : Nat) : BitVec 8 :=
  if h : c + 1 < W then out[c] else 0

theorem tileDequeueSingle_nat (hc : t.outputMemoryCounter = c) (hb : c + 1 < 2147483648) : tileDequeueSingle t =
      some ({ t with outputMemoryCounter := (c + 1 : Nat) }, singleAt t.outputMemory c) := by
  have hnext : int? ((c : Int) + 1) = some ((c + 1 : Nat) : Int) := int?_natCast hb
  unfold tileDequeueSingle singleAt
  rw [hc]
  simp only [hnext, bind_some_eq]
  by_cases h : c + 1 < W
  · rw [if_pos (by omega), load_nat _ (by omega), dif_pos h]
    rfl
  · rw [if_neg (by omega), dif_neg h]

theorem tileDequeueSingle_overflow (hb : ¬ IsInt (t.outputMemoryCounter + 1)) : tileDequeueSingle t = none := by
  have hnext : int? (t.outputMemoryCounter + 1) = none := if_neg hb
  unfold tileDequeueSingle
  simp only [hnext]
  rfl

/-- A negative counter is an index before the memory, unless the memory is empty. -/
theorem tileDequeueSingle_neg (hc : t.outputMemoryCounter < 0)
    (hlt : t.outputMemoryCounter + 1 < W) : tileDequeueSingle t = none := by
  by_cases hb : IsInt (t.outputMemoryCounter + 1)
  · unfold tileDequeueSingle
    simp only [int?_some hb, bind_some_eq]
    rw [if_pos hlt, load_none _ (by omega)]
    rfl
  · exact tileDequeueSingle_overflow t hb

/-- Past the end of the memory a dequeue returns zero. -/
theorem tileDequeueSingle_past {c : Int} (hc : t.outputMemoryCounter = c) (hb : IsInt (c + 1))
    (h : ¬ c + 1 < W) : tileDequeueSingle t = some ({ t with outputMemoryCounter := c + 1 }, 0) := by
  unfold tileDequeueSingle
  rw [hc]
  simp only [int?_some hb, bind_some_eq]
  rw [if_neg h]

theorem dequeueSingles_nat (hc : t.outputMemoryCounter = c) (hb : c + 4 < 2147483648) : ∃ w : BitVec 32,
      dequeueSingles t = some ({ t with outputMemoryCounter := (c + 4 : Nat) }, w) ∧
      ∀ i < 4, byteAt w i = singleAt t.outputMemory (c + i) := by
  have h0 := tileDequeueSingle_nat t hc (by omega)
  have h1 := tileDequeueSingle_nat { t with outputMemoryCounter := (c + 1 : Nat) } rfl (by omega)
  have h2 := tileDequeueSingle_nat { t with outputMemoryCounter := (c + 1 + 1 : Nat) } rfl (by omega)
  have h3 := tileDequeueSingle_nat { t with outputMemoryCounter := (c + 1 + 1 + 1 : Nat) } rfl (by omega)
  obtain ⟨b0, b1, b2, b3⟩ := byteAt_packWord (singleAt t.outputMemory c)
    (singleAt t.outputMemory (c + 1)) (singleAt t.outputMemory (c + 2)) (singleAt t.outputMemory (c + 3))
  refine ⟨packWord (singleAt t.outputMemory c) (singleAt t.outputMemory (c + 1))
    (singleAt t.outputMemory (c + 2)) (singleAt t.outputMemory (c + 3)), ?_, fun i hi => ?_⟩
  · unfold dequeueSingles
    simp only [h0, h1, h2, h3, bind_some_eq]
  · rcases (by omega : i = 0 ∨ i = 1 ∨ i = 2 ∨ i = 3) with rfl | rfl | rfl | rfl
    · exact b0
    · exact b1
    · exact b2
    · exact b3

/-- From just before an empty memory. -/
theorem dequeueSingles_past {c : Int} (hc : t.outputMemoryCounter = c) (hlo : -2147483648 ≤ c)
    (hb : IsInt (c + 4)) (h : ¬ c + 1 < W) :
    dequeueSingles t = some ({ t with outputMemoryCounter := c + 4 }, 0) := by
  obtain ⟨_, hhi⟩ := hb
  have h0 := tileDequeueSingle_past t hc ⟨by omega, by omega⟩ h
  have h1 := tileDequeueSingle_past (c := c + 1) { t with outputMemoryCounter := c + 1 } rfl
    ⟨by omega, by omega⟩ (by omega)
  have h2 := tileDequeueSingle_past (c := c + 1 + 1) { t with outputMemoryCounter := c + 1 + 1 } rfl
    ⟨by omega, by omega⟩ (by omega)
  have h3 := tileDequeueSingle_past (c := c + 1 + 1 + 1) { t with outputMemoryCounter := c + 1 + 1 + 1 } rfl
    ⟨by omega, by omega⟩ (by omega)
  unfold dequeueSingles
  simp only [h0, h1, h2, h3, bind_some_eq, show c + 1 + 1 + 1 + 1 = c + 4 by omega]
  rfl

/-- Dequeues one by one overflow where a packed one does. -/
theorem dequeueSingles_overflow (hc : t.outputMemoryCounter = c) (hb : ¬ c + 4 < 2147483648) :
    dequeueSingles t = none := by
  have hlast : ∀ (t : Tile H W) (d : Nat), t.outputMemoryCounter = d → ¬ d + 1 < 2147483648 →
      tileDequeueSingle t = none := fun t d hd hlt =>
    tileDequeueSingle_overflow t fun h => hlt (by have := h.2; omega)
  unfold dequeueSingles
  by_cases h0 : c + 1 < 2147483648
  · simp only [tileDequeueSingle_nat t hc h0, bind_some_eq]
    by_cases h1 : c + 1 + 1 < 2147483648
    · simp only [tileDequeueSingle_nat { t with outputMemoryCounter := (c + 1 : Nat) } rfl h1, bind_some_eq]
      by_cases h2 : c + 1 + 1 + 1 < 2147483648
      · simp only [tileDequeueSingle_nat { t with outputMemoryCounter := (c + 1 + 1 : Nat) } rfl h2, bind_some_eq]
        rw [hlast { t with outputMemoryCounter := (c + 1 + 1 + 1 : Nat) } _ rfl (by omega)]
        rfl
      · rw [hlast { t with outputMemoryCounter := (c + 1 + 1 : Nat) } _ rfl h2]
        rfl
    · rw [hlast { t with outputMemoryCounter := (c + 1 : Nat) } _ rfl h1]
      rfl
  · rw [hlast t c hc h0]
    rfl

theorem tileDequeue_overflow (hb : ¬ IsInt (t.outputMemoryCounter + 4)) : tileDequeue t = none := by
  have hstop : int? (t.outputMemoryCounter + vectorization) = none := if_neg hb
  unfold tileDequeue
  simp only [hstop]
  rfl

/-- The first byte of a block that starts before the memory cannot be read. -/
theorem tileDequeue_neg (hc : t.outputMemoryCounter < 0) (hb : IsInt (t.outputMemoryCounter + 4)) : tileDequeue t =
      if t.outputMemoryCounter + 4 < W then none
      else some ({ t with outputMemoryCounter := t.outputMemoryCounter + 4 }, 0) := by
  have hstop : int? (t.outputMemoryCounter + vectorization) = some (t.outputMemoryCounter + 4) := int?_some hb
  unfold tileDequeue
  simp only [hstop, bind_some_eq]
  by_cases h : t.outputMemoryCounter + 4 < W
  · have hfirst : load t.outputMemory (t.outputMemoryCounter + (0 : Nat)) = none :=
      load_none _ (by omega)
    rw [if_pos h, if_pos h, show (List.range vectorization).reverse = [3, 2, 1] ++ [0] from rfl,
      List.foldlM_append]
    simp only [List.foldlM_cons, List.foldlM_nil, hfirst]
    simp
  · rw [if_neg h, if_neg h]
    rfl

/-- The value of a single dequeue is zero exactly where the packed one takes it to be. -/
theorem singleAt_eq_zero_iff (out : Vector (BitVec 8) W) (c i : Nat) : singleAt out (c + i) = 0 ↔
      ((c : Int) + (i : Nat) + 1 < W → load out ((c : Int) + (i : Nat)) = some 0) := by
  rw [← Int.natCast_add]
  unfold singleAt
  by_cases h : c + i + 1 < W
  · rw [dif_pos h, load_nat _ (by omega)]
    simp only [Option.some.injEq]
    exact ⟨fun e _ => e, fun e => e (by omega)⟩
  · rw [dif_neg h]
    exact iff_of_true rfl fun e => absurd e (by omega)

theorem dequeue_agrees_iff : tileDequeue t = dequeueSingles t ↔ DequeueAgrees t := by
  unfold DequeueAgrees
  by_cases hneg : t.outputMemoryCounter < 0
  · by_cases hlt : t.outputMemoryCounter + 1 < W
    · have hsingles : dequeueSingles t = none := by
        unfold dequeueSingles
        rw [tileDequeueSingle_neg t hneg hlt]
        rfl
      rw [hsingles]
      by_cases hint : IsInt (t.outputMemoryCounter + 4)
      · rw [tileDequeue_neg t hneg hint]
        by_cases h : t.outputMemoryCounter + 4 < W
        · rw [if_pos h]
          exact iff_of_true rfl (Or.inl (Or.inl h))
        · rw [if_neg h]
          refine iff_of_false (by simp) ?_
          rintro ((h' | h') | hall)
          · exact h h'
          · exact h' hint
          · have hfirst := hall 0 (by omega) (by simpa using hlt)
            rw [load_none _ (by omega)] at hfirst
            cases hfirst
      · exact iff_of_true (tileDequeue_overflow t hint) (Or.inl (Or.inr hint))
    · -- the memory is empty and the counter just before it
      have hint : IsInt (t.outputMemoryCounter + 4) := ⟨by omega, by omega⟩
      rw [dequeueSingles_past t rfl (by omega) hint hlt, tileDequeue_neg t hneg hint, if_neg (by omega)]
      exact iff_of_true rfl (Or.inr fun i hi h => absurd h (by omega))
  · obtain ⟨c, hc⟩ := Int.eq_ofNat_of_zero_le (not_lt.1 hneg)
    by_cases hb : c + 4 < 2147483648
    · obtain ⟨r, hr, hbytes⟩ := Check.coreDequeue_spec t hc hb
      obtain ⟨w, hw, hsingle⟩ := dequeueSingles_nat t hc hb
      rw [← coreDequeue_eq_tileDequeue, hr, hw, hc]
      by_cases h : c + 4 < W
      · refine iff_of_true ?_ (Or.inl (Or.inl (by omega)))
        have hsame : r = w := word_ext fun i hi => by
          rw [hbytes i hi, dif_pos ⟨h, hi⟩, hsingle i hi, singleAt, dif_pos (by omega)]
        rw [hsame]
      · have hzero : ∀ i < 4, byteAt r i = 0 := fun i hi => by rw [hbytes i hi, dif_neg (fun e => h e.1)]
        constructor
        · intro heq
          refine Or.inr fun i hi => (singleAt_eq_zero_iff t.outputMemory c i).1 ?_
          rw [← hsingle i hi, ← (Prod.mk.inj (Option.some.inj heq)).2]
          exact hzero i hi
        · rintro ((h' | h') | hall)
          · exact absurd h' (by omega)
          · exact absurd (isInt_natCast (k := c + 4) hb) h'
          · have hsame : r = w := word_ext fun i hi => by
              rw [hzero i hi, hsingle i hi, (singleAt_eq_zero_iff t.outputMemory c i).2 (hall i hi)]
            rw [hsame]
    · have hint : ¬ IsInt (t.outputMemoryCounter + 4) := fun h => hb (by have := h.2; omega)
      rw [dequeueSingles_overflow t hc hb]
      exact iff_of_true (tileDequeue_overflow t hint) (Or.inl (Or.inr hint))

/-! ## Both transfers -/

/-- **A packed transfer is four single ones exactly when it ends strictly inside the memory** or nothing
shows that it is dropped. -/
theorem transfers_agree_iff (t : Tile H W) (val : BitVec 32) :
    (tileQueue t val = queueSingles t val ↔ QueueAgrees t val) ∧
      (tileDequeue t = dequeueSingles t ↔ DequeueAgrees t) :=
  ⟨queue_agrees_iff t val, dequeue_agrees_iff t⟩

/-- A tile of the size the simulator has, with both counters at the last block of the memories. -/
def lastBlock : Tile 2000 2000 :=
  { Tile.fresh (H := 2000) (W := 2000) fits_2000 with
    outputMemory := Vector.replicate 2000 1, inputMemoryCounter := 1996, outputMemoryCounter := 1996 }

/-- The last block of each memory is dropped by the packed transfers only. -/
theorem transfers_lastBlock : ¬ (tileQueue lastBlock 0x04030201#32 = queueSingles lastBlock 0x04030201#32) ∧
      ¬ (tileDequeue lastBlock = dequeueSingles lastBlock) := by
  refine ⟨fun h => ?_, fun h => ?_⟩
  · obtain (h' | h') | hall := (queue_agrees_iff _ _).1 h
    · exact absurd h' (by decide)
    · exact h' (by decide)
    · have hfirst := hall 0 (by decide) (by decide)
      have hload : load lastBlock.inputMemory (lastBlock.inputMemoryCounter + (0 : Nat)) = some 0 :=
        (load_nat lastBlock.inputMemory (i := 1996) (by omega)).trans
          (congrArg some (Vector.getElem_replicate _))
      rw [hload] at hfirst
      exact absurd hfirst (by decide)
  · obtain (h' | h') | hall := (dequeue_agrees_iff _).1 h
    · exact absurd h' (by decide)
    · exact h' (by decide)
    · have hfirst := hall 0 (by decide) (by decide)
      have hload : load lastBlock.outputMemory (lastBlock.outputMemoryCounter + (0 : Nat)) = some 1 :=
        (load_nat lastBlock.outputMemory (i := 1996) (by omega)).trans
          (congrArg some (Vector.getElem_replicate _))
      rw [hload] at hfirst
      exact absurd hfirst (by decide)

end Alpine.Aimc.Cluster
