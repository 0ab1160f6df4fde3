import Alpine.Lib.Mask
import Alpine.Mem.FALRU

/-!
# Moves in the fully associative tag store

What the list and the tracking look like, by positions in the list from head to tail, and that the moves keep
it.

* `TrackOk` — the sizes with which the tracking works: the smallest tracked cache is made of whole blocks, and
  of more than one.
* `Tracked` — the invariant: the list has every block once; a block is in the tracked caches that reach beyond
  its position; the boundary of a cache is its last block.
* `tracked_moveToHead`, `tracked_moveToTail` — the moves return and keep it.
* `tracked_new` — it holds at the start.
* `check_of_tracked` — the self-check passes.
-/

namespace Alpine.Mem

namespace FALRUParams

variable (p : FALRUParams)

/-- How many blocks the tracked cache `i` has. -/
def cacheBlocks (i : Nat) : Nat := (p.minTrackedSize <<< i) / p.blkSize

/-- The smallest tracked cache is made of whole blocks, at least two. -/
def TrackOk : Prop :=
  p.numTrackedCaches ≠ 0 → p.blkSize ∣ p.minTrackedSize ∧ 2 * p.blkSize ≤ p.minTrackedSize

variable {p}

theorem blkSize_pos : 0 < p.blkSize := by
  obtain ⟨k, hk⟩ := p.blkPow
  rw [hk]
  exact Nat.two_pow_pos k

theorem tracked_lt {i : Nat} (hi : i < p.numTrackedCaches) :
    p.minTrackedSize < p.size ∧ i < 32 ∧ p.minTrackedSize * 2 ^ i < p.size := by
  obtain ⟨a, ha⟩ := p.sizePow
  unfold numTrackedCaches at hi
  split at hi
  · rename_i hlt
    have hpos := p.minPos hlt
    have hlog : Nat.log2 p.size = a := by rw [ha, Nat.log2_two_pow]
    have hmin : p.minTrackedSize < 2 ^ (Nat.log2 p.minTrackedSize + 1) := Nat.lt_log2_self
    have ha32 : a < 32 := by
      have := p.fits.1
      rw [ha] at this
      exact (Nat.pow_lt_pow_iff_right (by decide)).1 this
    refine ⟨hlt, by omega, ?_⟩
    calc p.minTrackedSize * 2 ^ i < 2 ^ (Nat.log2 p.minTrackedSize + 1) * 2 ^ i :=
          Nat.mul_lt_mul_of_pos_right hmin (Nat.two_pow_pos i)
      _ = 2 ^ (Nat.log2 p.minTrackedSize + 1 + i) := (Nat.pow_add 2 _ _).symm
      _ ≤ 2 ^ a := Nat.pow_le_pow_right (by decide) (by omega)
      _ = p.size := ha.symm
  · omega

theorem size_le_tracked : p.size ≤ p.minTrackedSize * 2 ^ p.numTrackedCaches := by
  obtain ⟨a, ha⟩ := p.sizePow
  unfold numTrackedCaches
  split
  · rename_i hlt
    have hpos := p.minPos hlt
    have hlog : Nat.log2 p.size = a := by rw [ha, Nat.log2_two_pow]
    have hmin : 2 ^ Nat.log2 p.minTrackedSize ≤ p.minTrackedSize := Nat.log2_self_le (by omega)
    have hle : Nat.log2 p.minTrackedSize ≤ a := by
      rw [← Nat.pow_le_pow_iff_right (show 1 < 2 by decide)]
      omega
    calc p.size = 2 ^ (Nat.log2 p.minTrackedSize + (Nat.log2 p.size - Nat.log2 p.minTrackedSize)) := by
          rw [hlog, Nat.add_sub_cancel' hle, ha]
      _ = 2 ^ Nat.log2 p.minTrackedSize * 2 ^ (Nat.log2 p.size - Nat.log2 p.minTrackedSize) := Nat.pow_add 2 _ _
      _ ≤ p.minTrackedSize * 2 ^ (Nat.log2 p.size - Nat.log2 p.minTrackedSize) := Nat.mul_le_mul_right _ hmin
  · omega

theorem numTrackedCaches_le : p.numTrackedCaches ≤ 32 := by
  by_contra h
  have := (tracked_lt (p := p) (i := 32) (by omega)).2.1
  omega

theorem size_eq (h : p.blkSize ≤ p.size) : p.size = p.numBlocks * p.blkSize := by
  obtain ⟨a, ha⟩ := p.sizePow
  obtain ⟨k, hk⟩ := p.blkPow
  rw [ha, hk] at h
  have hka : k ≤ a := (Nat.pow_le_pow_iff_right (by decide)).1 h
  have hdvd : p.blkSize ∣ p.size := by
    rw [ha, hk]
    exact Nat.pow_dvd_pow 2 hka
  exact (Nat.div_mul_cancel hdvd).symm

/-- Every tracked cache has at least two blocks and fewer than the cache itself. -/
theorem cacheBlocks_spec (hok : p.TrackOk) {i : Nat} (hi : i < p.numTrackedCaches) :
    2 ≤ p.cacheBlocks i ∧ p.cacheBlocks i < p.numBlocks ∧ p.cacheBlocks i * p.blkSize = p.minTrackedSize * 2 ^ i := by
  obtain ⟨⟨m, hm⟩, htwo⟩ := hok (by omega)
  obtain ⟨hlt, -, hi'⟩ := tracked_lt hi
  have hpos := blkSize_pos (p := p)
  have hcb : p.cacheBlocks i = m * 2 ^ i := by
    unfold cacheBlocks
    rw [Nat.shiftLeft_eq, hm, Nat.mul_assoc, Nat.mul_div_cancel_left _ hpos]
  have hm2 : 2 ≤ m := by
    rw [hm, Nat.mul_comm 2] at htwo
    exact Nat.le_of_mul_le_mul_left htwo hpos
  have hmul : p.cacheBlocks i * p.blkSize = p.minTrackedSize * 2 ^ i := by
    rw [hcb, hm]
    ring
  refine ⟨?_, ?_, hmul⟩
  · rw [hcb]
    calc 2 ≤ m * 1 := by omega
      _ ≤ m * 2 ^ i := Nat.mul_le_mul_left m Nat.one_le_two_pow
  · rw [size_eq (by omega), ← hmul] at hi'
    exact Nat.lt_of_mul_lt_mul_right hi'

theorem getLsbD_inAll (i : Nat) : p.inAllCachesMask.getLsbD i = decide (i < p.numTrackedCaches) :=
  getLsbD_ones numTrackedCaches_le i

end FALRUParams

namespace FALRU

variable {p : FALRUParams} {s : FALRU} {L : List Nat}

/-- The list has every block once, a block is in the caches that reach beyond its position, and the
boundary of a cache is its last block. -/
structure Tracked (p : FALRUParams) (s : FALRU) (L : List Nat) : Prop where
  linked : s.toLinks.Linked L
  perm : L.Perm (List.range p.numBlocks)
  mask : ∀ k x i, L[k]? = some x →
    (s.inCachesMask x).getLsbD i = decide (i < p.numTrackedCaches ∧ k < p.cacheBlocks i)
  boundary : ∀ i, i < p.numTrackedCaches → s.boundaries i = L[p.cacheBlocks i - 1]?

theorem Tracked.nodup (h : Tracked p s L) : L.Nodup := h.perm.nodup_iff.2 List.nodup_range

theorem Tracked.length (h : Tracked p s L) : L.length = p.numBlocks := by
  rw [h.perm.length_eq, List.length_range]

variable {k : Nat}

theorem Tracked.getElem_inj (h : Tracked p s L) {k' x : Nat} (hk : L[k]? = some x) (hk' : L[k']? = some x) :
    k = k' := by
  obtain ⟨hlt, hx⟩ := List.getElem?_eq_some_iff.1 hk
  obtain ⟨hlt', hx'⟩ := List.getElem?_eq_some_iff.1 hk'
  exact (h.nodup.getElem_inj_iff).1 (hx.trans hx'.symm)

/-! ## The loops over the caches -/

theorem update_lt_succ {B F G : Nat → Option Nat} {v : Option Nat}
    (hB : ∀ i, B i = if i < k then F i else G i) (hv : v = F k) (i : Nat) :
    Function.update B k v i = if i < k + 1 then F i else G i := by
  by_cases hi : i = k
  · subst hi
    rw [Function.update_self, if_pos (Nat.lt_succ_self i), hv]
  · rw [Function.update_of_ne hi, hB]
    simp [hi, show i < k + 1 ↔ i < k ∨ i = k by omega]

theorem decide_lt_succ_and {i : Nat} {P : Prop} [Decidable P] (hk : i = k → ¬ P) :
    decide (i < k + 1 ∧ P) = decide (i < k ∧ P) := by
  rw [decide_eq_decide]
  by_cases hi : i = k
  · simp [hk hi]
  · simp [hi, show i < k + 1 ↔ i < k ∨ i = k by omega]

/-- What the boundary of a cache becomes when a block moves to the head. -/
def headBoundary (s : FALRU) (blk : Nat) (u : BitVec 32) (i : Nat) : Option Nat :=
  if u.getLsbD i then (s.boundaries i).bind s.prev
  else if s.boundaries i = some blk then s.prev blk else s.boundaries i

theorem foldlM_boundaryToHead (s : FALRU) (blk : Nat) (u : BitVec 32) : ∀ {k : Nat}, k ≤ 32 →
    (∀ i < k, (s.boundaries i).isSome) → ∃ M B, (List.range k).foldlM (boundaryToHead blk u) s =
        some { s with inCachesMask := M, boundaries := B } ∧
      (∀ x i, (M x).getLsbD i = ((s.inCachesMask x).getLsbD i &&
        !decide (i < k ∧ u.getLsbD i = true ∧ s.boundaries i = some x))) ∧
      ∀ i, B i = if i < k then headBoundary s blk u i else s.boundaries i
  | 0, _, _ => ⟨s.inCachesMask, s.boundaries, rfl, by simp, by simp⟩
  | k + 1, hk, hsome => by
    obtain ⟨M, B, hfold, hM, hB⟩ := foldlM_boundaryToHead s blk u (k := k) (by omega)
      fun i hi => hsome i (by omega)
    have hBk : B k = s.boundaries k := by rw [hB, if_neg (Nat.lt_irrefl k)]
    have hlt : ∀ i, i < k + 1 ↔ i < k ∨ i = k := fun i => by omega
    rw [List.range_succ, List.foldlM_append, hfold]
    simp only [Option.bind_eq_bind, Option.bind_some, List.foldlM_cons, List.foldlM_nil]
    unfold boundaryToHead
    simp only [one_shift_and_ne_zero (show k < 32 by omega), hBk]
    split
    · rename_i hu
      obtain ⟨x0, hx0⟩ := Option.isSome_iff_exists.1 (hsome k (by omega))
      rw [hx0]
      refine ⟨_, _, rfl, ?_, ?_⟩
      · intro x i
        by_cases hx : x = x0
        · subst hx
          rw [Function.update_self, getLsbD_clear (by omega), hM, Bool.and_assoc]
          congr 1
          by_cases hi : i = k
          · subst hi
            simp [hu, hx0]
          · simp [hi, hlt]
        · rw [Function.update_of_ne hx, hM, decide_lt_succ_and]
          rintro rfl
          simp [hx0, Ne.symm hx]
      · exact update_lt_succ hB (by rw [headBoundary, if_pos hu, hx0]; rfl)
    · rename_i hu
      have hM' : ∀ x i, (M x).getLsbD i = ((s.inCachesMask x).getLsbD i &&
          !decide (i < k + 1 ∧ u.getLsbD i = true ∧ s.boundaries i = some x)) := by
        intro x i
        rw [hM, decide_lt_succ_and]
        rintro rfl
        simp [hu]
      split
      · rename_i hblk
        exact ⟨_, _, rfl, hM', update_lt_succ hB (by rw [headBoundary, if_neg hu, if_pos hblk])⟩
      · rename_i hblk
        have hB' := update_lt_succ hB (v := B k) (by rw [headBoundary, if_neg hu, if_neg hblk, hBk])
        rw [Function.update_eq_self] at hB'
        exact ⟨_, _, rfl, hM', hB'⟩

/-- What the boundary of a cache becomes when a block moves to the tail. -/
def tailBoundary (s : FALRU) (blk : Nat) (u : BitVec 32) (i : Nat) : Option Nat :=
  if u.getLsbD i then
    (s.boundaries i).bind fun b => if s.next b = some blk then s.next blk else s.next b
  else s.boundaries i

theorem foldlM_boundaryToTail (s : FALRU) (blk : Nat) (u : BitVec 32) : ∀ {k : Nat}, k ≤ 32 →
    (∀ i < k, (tailBoundary s blk u i).isSome) → ∃ M B, (List.range k).foldlM (boundaryToTail blk u) s =
        some { s with inCachesMask := M, boundaries := B } ∧
      (∀ x i, (M x).getLsbD i = ((s.inCachesMask x).getLsbD i ||
        decide (i < k ∧ u.getLsbD i = true ∧ tailBoundary s blk u i = some x))) ∧
      ∀ i, B i = if i < k then tailBoundary s blk u i else s.boundaries i
  | 0, _, _ => ⟨s.inCachesMask, s.boundaries, rfl, by simp, by simp⟩
  | k + 1, hk, hsome => by
    obtain ⟨M, B, hfold, hM, hB⟩ := foldlM_boundaryToTail s blk u (k := k) (by omega)
      fun i hi => hsome i (by omega)
    have hBk : B k = s.boundaries k := by rw [hB, if_neg (Nat.lt_irrefl k)]
    have hlt : ∀ i, i < k + 1 ↔ i < k ∨ i = k := fun i => by omega
    rw [List.range_succ, List.foldlM_append, hfold]
    simp only [Option.bind_eq_bind, Option.bind_some, List.foldlM_cons, List.foldlM_nil]
    unfold boundaryToTail
    simp only [one_shift_and_ne_zero (show k < 32 by omega), hBk]
    split
    · rename_i hu
      obtain ⟨y, hy⟩ := Option.isSome_iff_exists.1 (hsome k (by omega))
      have hy' := hy
      unfold tailBoundary at hy'
      rw [if_pos hu] at hy'
      obtain ⟨x0, hx0, hnext⟩ := Option.bind_eq_some_iff.1 hy'
      rw [hx0]
      simp only [Option.bind_eq_bind, Option.bind_some, hnext]
      refine ⟨_, _, rfl, ?_, ?_⟩
      · intro x i
        by_cases hx : x = y
        · subst hx
          rw [Function.update_self, getLsbD_set (by omega), hM, Bool.or_assoc]
          congr 1
          by_cases hi : i = k
          · subst hi
            simp [hu, hy]
          · simp [hi, hlt]
        · rw [Function.update_of_ne hx, hM, decide_lt_succ_and]
          rintro rfl
          simp [hy, Ne.symm hx]
      · exact update_lt_succ hB hy.symm
    · rename_i hu
      have hB' := update_lt_succ hB (v := B k) (by rw [tailBoundary, if_neg hu, hBk])
      rw [Function.update_eq_self] at hB'
      refine ⟨_, _, rfl, fun x i => ?_, hB'⟩
      rw [hM, decide_lt_succ_and]
      rintro rfl
      simp [hu]

/-! ## Moves -/

variable {b q : Nat}

theorem Tracked.boundary_some (h : Tracked p s L) (hok : p.TrackOk) {i : Nat}
    (hi : i < p.numTrackedCaches) : ∃ x, s.boundaries i = some x ∧ L[p.cacheBlocks i - 1]? = some x := by
  have hspec := FALRUParams.cacheBlocks_spec hok hi
  have hlen := h.length
  have hlt : p.cacheBlocks i - 1 < L.length := by omega
  exact ⟨_, (h.boundary i hi).trans (List.getElem?_eq_getElem hlt), List.getElem?_eq_getElem hlt⟩

/-- A block is the boundary of a cache exactly if its position is the last one of the cache. -/
theorem Tracked.boundary_iff (h : Tracked p s L) {i x : Nat} (hi : i < p.numTrackedCaches)
    (hx : L[k]? = some x) : s.boundaries i = some x ↔ p.cacheBlocks i - 1 = k := by
  constructor
  · intro hb
    rw [h.boundary i hi] at hb
    exact h.getElem_inj hb hx
  · rintro rfl
    rw [h.boundary i hi, hx]

theorem getElem?_front (k : Nat) : (b :: L.eraseIdx q)[k + 1]? = if k < q then L[k]? else L[k + 1]? := by
  rw [List.getElem?_cons_succ, List.getElem?_eraseIdx]

/-- **A block moves to the head.** -/
theorem tracked_moveToHead (h : Tracked p s L) (hok : p.TrackOk) (hb : L[q]? = some b) :
    ∃ l M B, s.moveToHead p b = some { s with toLinks := l, inCachesMask := M, boundaries := B } ∧
      Tracked p { s with toLinks := l, inCachesMask := M, boundaries := B } (b :: L.eraseIdx q) := by
  obtain ⟨hq, hbq⟩ := List.getElem?_eq_some_iff.1 hb
  unfold moveToHead
  by_cases hhead : b = s.head
  · have hq0 : q = 0 := by
      refine h.getElem_inj hb ?_
      rw [hhead, ← List.head?_eq_getElem?]
      exact h.linked.head_eq
    subst hq0
    have hL : b :: L.eraseIdx 0 = L := by
      rw [List.eraseIdx_zero, ← hbq, ← List.drop_one]
      exact List.getElem_cons_drop hq
    rw [if_neg (by simpa using hhead)]
    exact ⟨s.toLinks, s.inCachesMask, s.boundaries, rfl, hL.symm ▸ h⟩
  · have hq0 : q ≠ 0 := by
      rintro rfl
      have := h.linked.head_eq
      rw [List.head?_eq_getElem?, hb] at this
      exact hhead (Option.some.inj this)
    have hu : ∀ i, (p.inAllCachesMask ^^^ s.inCachesMask b).getLsbD i =
        decide (i < p.numTrackedCaches ∧ p.cacheBlocks i ≤ q) := by
      intro i
      rw [BitVec.getLsbD_xor, FALRUParams.getLsbD_inAll, h.mask q b i hb]
      by_cases hi : i < p.numTrackedCaches
      · simp only [hi, true_and, decide_true, Bool.true_xor]
        rw [← decide_not, decide_eq_decide, Nat.not_lt]
      · simp [hi]
    obtain ⟨M, B, hfold, hM, hB⟩ := foldlM_boundaryToHead s b (p.inAllCachesMask ^^^ s.inCachesMask b)
      FALRUParams.numTrackedCaches_le fun i hi => by
        obtain ⟨x, hx, -⟩ := h.boundary_some hok hi
        rw [hx]
        rfl
    obtain ⟨l, hl, hlinked⟩ := h.linked.moveToHead h.nodup hb
    rw [if_pos hhead]
    refine ⟨l, Function.update M b p.inAllCachesMask, B, ?_, hlinked, ?_, ?_, ?_⟩
    · unfold moveBlockToHead
      dsimp only
      rw [hfold]
      simp only [Option.bind_eq_bind, Option.bind_some, hl]
    · refine List.Perm.trans ?_ h.perm
      rw [← hbq]
      exact List.getElem_cons_eraseIdx_perm hq
    · intro k x i hx
      show ((Function.update M b p.inAllCachesMask) x).getLsbD i = _
      cases k with
      | zero =>
        cases hx
        rw [Function.update_self, FALRUParams.getLsbD_inAll]
        by_cases hi : i < p.numTrackedCaches
        · have := FALRUParams.cacheBlocks_spec hok hi
          simp [hi]
          omega
        · simp [hi]
      | succ k =>
        rw [getElem?_front] at hx
        have hpos : ∃ k', L[k']? = some x ∧ k' ≠ q ∧ (k' = k ∧ k < q ∨ k' = k + 1 ∧ q ≤ k) := by
          split at hx
          · exact ⟨k, hx, by omega, .inl ⟨rfl, by omega⟩⟩
          · exact ⟨k + 1, hx, by omega, .inr ⟨rfl, by omega⟩⟩
        obtain ⟨k', hx, hne, hk⟩ := hpos
        have hxb : x ≠ b := by
          rintro rfl
          exact hne (h.getElem_inj hx hb)
        rw [Function.update_of_ne hxb, hM, h.mask k' x i hx, hu]
        by_cases hi : i < p.numTrackedCaches
        · have hspec := FALRUParams.cacheBlocks_spec hok hi
          have hbd := h.boundary_iff hi hx
          rw [Bool.eq_iff_iff]
          simp only [hi, true_and, decide_eq_true_eq, Bool.and_eq_true, Bool.not_eq_true',
            decide_eq_false_iff_not, hbd]
          omega
        · simp [hi]
    · intro i hi
      show B i = _
      have hspec := FALRUParams.cacheBlocks_spec hok hi
      have hfront := getElem?_front (b := b) (L := L) (q := q) (p.cacheBlocks i - 2)
      rw [show p.cacheBlocks i - 2 + 1 = p.cacheBlocks i - 1 by omega] at hfront
      rw [hB, if_pos hi, hfront, headBoundary, hu]
      obtain ⟨y, hy, hLy⟩ := h.boundary_some hok hi
      by_cases hc : p.cacheBlocks i ≤ q
      · rw [if_pos (by simp [hi, hc]), hy, if_pos (by omega)]
        refine h.linked.prev_eq ?_
        rw [show p.cacheBlocks i - 2 + 1 = p.cacheBlocks i - 1 by omega]
        exact hLy
      · rw [if_neg (by simp [hc])]
        by_cases hqc : p.cacheBlocks i - 1 = q
        · rw [if_pos ((h.boundary_iff hi hb).2 hqc), if_pos (by omega)]
          refine h.linked.prev_eq ?_
          rw [show p.cacheBlocks i - 2 + 1 = q by omega]
          exact hb
        · rw [if_neg (fun e => hqc ((h.boundary_iff hi hb).1 e)), if_neg (by omega)]
          exact h.boundary i hi

theorem getElem?_back (hq : q < L.length) (k : Nat) : (L.eraseIdx q ++ [b])[k]? =
    if k < q then L[k]? else if k + 1 < L.length then L[k + 1]? else if k + 1 = L.length then some b else none := by
  have hlen : (L.eraseIdx q).length = L.length - 1 := List.length_eraseIdx_of_lt hq
  by_cases hk : k < L.length - 1
  · rw [List.getElem?_append_left (by omega), List.getElem?_eraseIdx]
    split
    · rfl
    · rw [if_pos (by omega)]
  · rw [if_neg (by omega), if_neg (by omega), List.getElem?_append_right (by omega), hlen]
    split
    · rename_i hk'
      rw [show k - (L.length - 1) = 0 by omega]
      rfl
    · rw [List.getElem?_eq_none]
      simp
      omega

theorem eraseIdx_last (hb : L[L.length - 1]? = some b) : L.eraseIdx (L.length - 1) ++ [b] = L := by
  obtain ⟨hq, -⟩ := List.getElem?_eq_some_iff.1 hb
  apply List.ext_getElem?
  intro k
  rw [getElem?_back hq]
  split
  · rfl
  · rw [if_neg (by omega)]
    split
    · rw [← hb]
      congr 1
      omega
    · rw [List.getElem?_eq_none (by omega)]

/-- **A block moves to the tail.** -/
theorem tracked_moveToTail (h : Tracked p s L) (hok : p.TrackOk) (hb : L[q]? = some b) :
    ∃ l M B, s.moveToTail p b = some { s with toLinks := l, inCachesMask := M, boundaries := B } ∧
      Tracked p { s with toLinks := l, inCachesMask := M, boundaries := B } (L.eraseIdx q ++ [b]) := by
  obtain ⟨hq, hbq⟩ := List.getElem?_eq_some_iff.1 hb
  have hlen := h.length
  have hlast : L[L.length - 1]? = some s.tail := by
    rw [← List.getLast?_eq_getElem?]
    exact h.linked.tail_eq
  unfold moveToTail
  by_cases htail : b = s.tail
  · have hq' : q = L.length - 1 := h.getElem_inj hb (htail ▸ hlast)
    have hL : L.eraseIdx q ++ [b] = L := by
      rw [hq'] at hb ⊢
      exact eraseIdx_last hb
    rw [if_neg (by simpa using htail)]
    exact ⟨s.toLinks, s.inCachesMask, s.boundaries, rfl, hL.symm ▸ h⟩
  · have hq' : q ≠ L.length - 1 := by
      rintro rfl
      rw [hlast] at hb
      exact htail (Option.some.inj hb).symm
    have hu : ∀ i, (s.inCachesMask b).getLsbD i =
        decide (i < p.numTrackedCaches ∧ q < p.cacheBlocks i) := fun i => h.mask q b i hb
    -- the boundary of a cache that has the block moves one position to the tail
    have hnew : ∀ i, i < p.numTrackedCaches → tailBoundary s b (s.inCachesMask b) i =
        if q < p.cacheBlocks i then L[p.cacheBlocks i]? else L[p.cacheBlocks i - 1]? := by
      intro i hi
      have hspec := FALRUParams.cacheBlocks_spec hok hi
      obtain ⟨y, hy, hLy⟩ := h.boundary_some hok hi
      have hnext := h.linked.next_eq hLy
      rw [show p.cacheBlocks i - 1 + 1 = p.cacheBlocks i by omega] at hnext
      unfold tailBoundary
      rw [hu, hy]
      by_cases hc : q < p.cacheBlocks i
      · have hne : ¬ s.next y = some b := by
          rw [hnext]
          intro e
          have := h.getElem_inj e hb
          omega
        rw [if_pos (by simp [hi, hc]), if_pos hc, Option.bind_some, if_neg hne]
        exact hnext
      · rw [if_neg (by simp [hc]), if_neg hc]
        exact hLy.symm
    obtain ⟨M, B, hfold, hM, hB⟩ := foldlM_boundaryToTail s b (s.inCachesMask b)
      FALRUParams.numTrackedCaches_le fun i hi => by
        have hspec := FALRUParams.cacheBlocks_spec hok hi
        rw [hnew i hi]
        split
        · rw [List.getElem?_eq_getElem (by omega)]
          rfl
        · rw [List.getElem?_eq_getElem (by omega)]
          rfl
    obtain ⟨l, hl, hlinked⟩ := h.linked.moveToTail h.nodup hb
    rw [if_pos htail]
    refine ⟨l, Function.update M b 0, B, ?_, hlinked, ?_, ?_, ?_⟩
    · unfold moveBlockToTail
      dsimp only
      rw [hfold]
      simp only [Option.bind_eq_bind, Option.bind_some, hl]
    · refine List.Perm.trans ?_ h.perm
      refine (List.perm_append_singleton b _).trans ?_
      rw [← hbq]
      exact List.getElem_cons_eraseIdx_perm hq
    · intro k x i hx
      show ((Function.update M b 0) x).getLsbD i = _
      rw [getElem?_back hq] at hx
      have hpos : (x = b ∧ k + 1 = L.length) ∨
          ∃ k', L[k']? = some x ∧ k' ≠ q ∧ (k' = k ∧ k < q ∨ k' = k + 1 ∧ q ≤ k) := by
        split at hx
        · exact .inr ⟨k, hx, by omega, .inl ⟨rfl, by omega⟩⟩
        · split at hx
          · exact .inr ⟨k + 1, hx, by omega, .inr ⟨rfl, by omega⟩⟩
          · split at hx
            · cases hx
              exact .inl ⟨rfl, by assumption⟩
            · cases hx
      rcases hpos with ⟨rfl, hk⟩ | ⟨k', hx', hne, hk⟩
      · rw [Function.update_self]
        by_cases hi : i < p.numTrackedCaches
        · have hspec := FALRUParams.cacheBlocks_spec hok hi
          simp [hi]
          omega
        · simp [hi]
      · have hxb : x ≠ b := by
          rintro rfl
          exact hne (h.getElem_inj hx' hb)
        rw [Function.update_of_ne hxb, hM, h.mask k' x i hx', hu]
        by_cases hi : i < p.numTrackedCaches
        · have hspec := FALRUParams.cacheBlocks_spec hok hi
          have hbd : q < p.cacheBlocks i → (tailBoundary s b (s.inCachesMask b) i = some x ↔
              p.cacheBlocks i = k') := by
            intro hc
            rw [hnew i hi, if_pos hc]
            constructor
            · intro e
              exact h.getElem_inj e hx'
            · rintro rfl
              exact hx'
          rw [Bool.eq_iff_iff]
          simp only [hi, true_and, decide_eq_true_eq, Bool.or_eq_true]
          by_cases hc : q < p.cacheBlocks i
          · rw [hbd hc]
            omega
          · simp only [hc, false_and, or_false]
            omega
        · simp [hi]
    · intro i hi
      show B i = _
      have hspec := FALRUParams.cacheBlocks_spec hok hi
      rw [hB, if_pos hi, hnew i hi, getElem?_back hq]
      split
      · rw [if_neg (by omega), if_pos (by omega)]
        congr 1
        omega
      · rw [if_pos (by omega)]

/-! ## The walk from head to tail -/

/-- The position of the loops of `init` and `check` at block `k` of the list. -/
def posAt (p : FALRUParams) : Nat → TrackPos
  | 0 => .start p
  | k + 1 => (posAt p k).advance p (k + 1 = p.numBlocks)

/-- At block `k` the caches of at most `k` blocks have been passed. -/
structure PosOk (p : FALRUParams) (t : TrackPos) (k : Nat) : Prop where
  currSize : t.currSize = k * p.blkSize
  trackedCacheSize : t.trackedCacheSize = p.minTrackedSize * 2 ^ t.j
  mask : ∀ i, t.inCachesMask.getLsbD i = decide (i < p.numTrackedCaches ∧ t.j ≤ i)
  le : t.j ≤ p.numTrackedCaches
  passed : ∀ i, i < p.numTrackedCaches → (i < t.j ↔ p.cacheBlocks i ≤ k)

theorem atBoundary_iff (hok : p.TrackOk) (hblk : p.blkSize ≤ p.size) {t : TrackPos} (h : PosOk p t k)
    (hk : k < p.numBlocks) :
    t.atBoundary p (k + 1 = p.numBlocks) = true ↔ t.j < p.numTrackedCaches ∧ p.cacheBlocks t.j = k + 1 := by
  have hsize := FALRUParams.size_eq hblk
  have hpos := FALRUParams.blkSize_pos (p := p)
  have hfits := p.fits.1
  have hk1 : (k + 1) * p.blkSize ≤ p.size := by
    rw [hsize]
    exact Nat.mul_le_mul_right _ hk
  have hsucc : k * p.blkSize + p.blkSize = (k + 1) * p.blkSize := (Nat.succ_mul k p.blkSize).symm
  unfold TrackPos.atBoundary
  rw [h.currSize, hsucc, Nat.mod_eq_of_lt (by omega), h.trackedCacheSize]
  simp only [Bool.and_eq_true, decide_eq_true_eq, Bool.not_eq_true', decide_eq_false_iff_not]
  constructor
  · rintro ⟨heq, hlast⟩
    have hj : t.j < p.numTrackedCaches := by
      by_contra hj
      have hle := h.le
      have hnum := FALRUParams.size_le_tracked (p := p)
      rw [show p.numTrackedCaches = t.j by omega, ← heq] at hnum
      have : p.numBlocks * p.blkSize ≤ (k + 1) * p.blkSize := hsize ▸ hnum
      have := Nat.le_of_mul_le_mul_right this hpos
      omega
    have hspec := FALRUParams.cacheBlocks_spec hok hj
    refine ⟨hj, Nat.eq_of_mul_eq_mul_right hpos ?_⟩
    rw [hspec.2.2, heq]
  · rintro ⟨hj, heq⟩
    have hspec := FALRUParams.cacheBlocks_spec hok hj
    refine ⟨?_, by omega⟩
    rw [← heq, hspec.2.2]

theorem cacheBlocks_strictMono (hok : p.TrackOk) {i i' : Nat} (hi : i < p.numTrackedCaches)
    (hi' : i' < p.numTrackedCaches) : p.cacheBlocks i < p.cacheBlocks i' ↔ i < i' := by
  have hpos := FALRUParams.blkSize_pos (p := p)
  have hmin : 0 < p.minTrackedSize := p.minPos (FALRUParams.tracked_lt hi).1
  rw [← Nat.mul_lt_mul_right hpos, (FALRUParams.cacheBlocks_spec hok hi).2.2,
    (FALRUParams.cacheBlocks_spec hok hi').2.2, Nat.mul_lt_mul_left hmin, Nat.pow_lt_pow_iff_right (by decide)]

theorem posOk_advance (hok : p.TrackOk) (hblk : p.blkSize ≤ p.size) {t : TrackPos} (h : PosOk p t k)
    (hk : k < p.numBlocks) : PosOk p (t.advance p (k + 1 = p.numBlocks)) (k + 1) := by
  have hsize := FALRUParams.size_eq hblk
  have hfits := p.fits.1
  have hcurr : (t.currSize + p.blkSize) % 2 ^ 32 = (k + 1) * p.blkSize := by
    have hk1 : (k + 1) * p.blkSize ≤ p.size := by
      rw [hsize]
      exact Nat.mul_le_mul_right _ hk
    rw [h.currSize, show k * p.blkSize + p.blkSize = (k + 1) * p.blkSize from (Nat.succ_mul k _).symm,
      Nat.mod_eq_of_lt (by omega)]
  have hiff := atBoundary_iff hok hblk h hk
  unfold TrackPos.advance
  split
  · rename_i hat
    obtain ⟨hj, heq⟩ := hiff.1 hat
    have hlt := FALRUParams.tracked_lt hj
    refine ⟨hcurr, ?_, fun i => ?_, hj, fun i hi => ?_⟩
    · show t.trackedCacheSize <<< 1 % 2 ^ 32 = p.minTrackedSize * 2 ^ (t.j + 1)
      have hsz : p.size ≤ 2 ^ 31 := by
        obtain ⟨a, ha⟩ := p.sizePow
        rw [ha] at hfits ⊢
        have := (Nat.pow_lt_pow_iff_right (show 1 < 2 by decide)).1 hfits
        exact Nat.pow_le_pow_right (by decide) (by omega)
      have hdouble : p.minTrackedSize * 2 ^ (t.j + 1) = p.minTrackedSize * 2 ^ t.j * 2 := by ring
      rw [h.trackedCacheSize, Nat.shiftLeft_eq, Nat.pow_one, hdouble]
      omega
    · rw [getLsbD_clear hlt.2.1, h.mask]
      by_cases hi : i < p.numTrackedCaches
      · rw [Bool.eq_iff_iff]
        simp only [hi, true_and, Bool.and_eq_true, decide_eq_true_eq]
        omega
      · simp [hi]
    · show i < t.j + 1 ↔ p.cacheBlocks i ≤ k + 1
      rw [← heq, ← Nat.not_lt, cacheBlocks_strictMono hok hj hi]
      omega
  · rename_i hat
    refine ⟨hcurr, h.trackedCacheSize, h.mask, h.le, fun i hi => ?_⟩
    show i < t.j ↔ p.cacheBlocks i ≤ k + 1
    rw [h.passed i hi]
    constructor
    · omega
    · intro hle
      by_contra hgt
      -- otherwise the next boundary would be here
      have heq : p.cacheBlocks i = k + 1 := by omega
      have hj : t.j < p.numTrackedCaches := by
        have := (h.passed i hi).not.2 (by omega)
        omega
      have hji : ¬ t.j < i := by
        intro hlt
        have := (cacheBlocks_strictMono hok hj hi).2 hlt
        have := (h.passed t.j hj).2 (by omega)
        omega
      have hij := (h.passed i hi).not.2 (by omega)
      have : i = t.j := by omega
      exact hat (hiff.2 ⟨hj, this ▸ heq⟩)

theorem posOk (hok : p.TrackOk) (hblk : p.blkSize ≤ p.size) : ∀ {k : Nat}, k ≤ p.numBlocks → PosOk p (posAt p k) k
  | 0, _ => by
    refine ⟨by simp [posAt, TrackPos.start], by simp [posAt, TrackPos.start], ?_, Nat.zero_le _, ?_⟩
    · intro i
      simp [posAt, TrackPos.start, FALRUParams.getLsbD_inAll]
    · intro i hi
      have := FALRUParams.cacheBlocks_spec hok hi
      simp [posAt, TrackPos.start]
      omega
  | k + 1, hk => posOk_advance hok hblk (posOk hok hblk (by omega)) hk

/-- The mask of the walk is the mask of the position. -/
theorem posAt_mask (hok : p.TrackOk) (hblk : p.blkSize ≤ p.size) (hk : k < p.numBlocks) (i : Nat) :
    (posAt p k).inCachesMask.getLsbD i = decide (i < p.numTrackedCaches ∧ k < p.cacheBlocks i) := by
  have h := posOk hok hblk (Nat.le_of_lt hk)
  rw [h.mask]
  by_cases hi : i < p.numTrackedCaches
  · have := h.passed i hi
    rw [Bool.eq_iff_iff]
    simp only [hi, true_and, decide_eq_true_eq]
    omega
  · simp [hi]

theorem Tracked.tail_iff (h : Tracked p s L) {x : Nat} (hx : L[k]? = some x) : x = s.tail ↔ k + 1 = p.numBlocks := by
  have hlen := h.length
  obtain ⟨hk, -⟩ := List.getElem?_eq_some_iff.1 hx
  have hlast : L[L.length - 1]? = some s.tail := by
    rw [← List.getLast?_eq_getElem?]
    exact h.linked.tail_eq
  constructor
  · rintro rfl
    have := h.getElem_inj hx hlast
    omega
  · intro hk'
    rw [show L.length - 1 = k by omega, hx] at hlast
    exact Option.some.inj hlast

theorem checkLoop_of_tracked (hok : p.TrackOk) (hblk : p.blkSize ≤ p.size) (h : Tracked p s L) :
    ∀ (fuel k : Nat), s.checkLoop p fuel L[k]? (posAt p k) = true
  | 0, _ => rfl
  | fuel + 1, k => by
    cases hx : L[k]? with
    | none => rfl
    | some x =>
      have hlen := h.length
      obtain ⟨hk, -⟩ := List.getElem?_eq_some_iff.1 hx
      have htail : decide (x = s.tail) = decide (k + 1 = p.numBlocks) :=
        decide_eq_decide.2 (h.tail_iff hx)
      have hrest : s.checkLoop p fuel L[k + 1]? ((posAt p k).advance p (k + 1 = p.numBlocks)) = true :=
        checkLoop_of_tracked hok hblk h fuel (k + 1)
      unfold checkLoop
      rw [htail, h.linked.next_eq hx, hrest, Bool.and_true]
      simp only [Bool.and_eq_true, decide_eq_true_eq, Bool.or_eq_true, Bool.not_eq_true']
      constructor
      · apply BitVec.eq_of_getLsbD_eq
        intro i _
        rw [h.mask k x i hx, posAt_mask hok hblk (by omega)]
      · cases hat : (posAt p k).atBoundary p (k + 1 = p.numBlocks) with
        | false => exact .inl rfl
        | true =>
          obtain ⟨hj, heq⟩ := (atBoundary_iff hok hblk (posOk hok hblk (by omega)) (by omega)).1 hat
          refine .inr ?_
          rw [h.boundary _ hj, heq]
          exact hx

/-- **The self-check passes.** -/
theorem check_of_tracked (hok : p.TrackOk) (hblk : p.blkSize ≤ p.size) (h : Tracked p s L) : s.check p = true := by
  have hloop := checkLoop_of_tracked hok hblk h (p.numBlocks + 1) 0
  rw [← List.head?_eq_getElem?, h.linked.head_eq] at hloop
  exact hloop

/-! ## The start -/

theorem initLoop_spec (hok : p.TrackOk) (hblk : p.blkSize ≤ p.size) : ∀ (fuel k : Nat) (s : FALRU),
    p.numBlocks < fuel + k → s.toLinks.Linked (List.range p.numBlocks) →
    (∀ m, m < k → m < p.numBlocks → s.inCachesMask m = (posAt p m).inCachesMask) →
    (∀ i, i < p.numTrackedCaches → p.cacheBlocks i ≤ k → s.boundaries i = some (p.cacheBlocks i - 1)) →
    ∃ M B, initLoop p fuel s (List.range p.numBlocks)[k]? (posAt p k) =
        { s with inCachesMask := M, boundaries := B } ∧ (∀ m, m < p.numBlocks → M m = (posAt p m).inCachesMask) ∧
      ∀ i, i < p.numTrackedCaches → B i = some (p.cacheBlocks i - 1)
  | 0, k, s, hfuel, _, hmask, hbd =>
    ⟨s.inCachesMask, s.boundaries, rfl, fun m hm => hmask m (by omega) hm, fun i hi => by
      have := FALRUParams.cacheBlocks_spec hok hi
      exact hbd i hi (by omega)⟩
  | fuel + 1, k, s, hfuel, hlinked, hmask, hbd => by
    by_cases hk : k < p.numBlocks
    · have hx : (List.range p.numBlocks)[k]? = some k := List.getElem?_range hk
      have hpos := posOk hok hblk (Nat.le_of_lt hk)
      have hlast : (List.range p.numBlocks)[p.numBlocks - 1]? = some s.tail := by
        have := hlinked.tail_eq
        rw [List.getLast?_eq_getElem?, List.length_range] at this
        exact this
      have htail : decide (k = s.tail) = decide (k + 1 = p.numBlocks) := by
        rw [List.getElem?_range (by omega)] at hlast
        have := Option.some.inj hlast
        apply decide_eq_decide.2
        omega
      rw [hx]
      unfold initLoop
      rw [htail, hlinked.next_eq hx]
      have hmask' : ∀ m, m < k + 1 → m < p.numBlocks →
          Function.update s.inCachesMask k (posAt p k).inCachesMask m = (posAt p m).inCachesMask := by
        intro m hm hm'
        by_cases hmk : m = k
        · subst hmk
          exact Function.update_self _ _ _
        · exact (Function.update_of_ne hmk _ _).trans (hmask m (by omega) hm')
      have hiff := atBoundary_iff hok hblk hpos hk
      have hbd' : ∀ i, i < p.numTrackedCaches → p.cacheBlocks i ≤ k + 1 →
          (if (posAt p k).atBoundary p (k + 1 = p.numBlocks) then
            Function.update s.boundaries (posAt p k).j (some k) else s.boundaries) i =
              some (p.cacheBlocks i - 1) := by
        intro i hi hle
        split
        · rename_i hat
          obtain ⟨hj, heq⟩ := hiff.1 hat
          by_cases hij : i = (posAt p k).j
          · rw [hij, Function.update_self, heq]
            rfl
          · rw [Function.update_of_ne hij]
            apply hbd i hi
            have hmono := cacheBlocks_strictMono hok hj hi
            have hpassed := hpos.passed i hi
            omega
        · rename_i hat
          apply hbd i hi
          have hnext := (posOk_advance hok hblk hpos hk).passed i hi
          unfold TrackPos.advance at hnext
          rw [if_neg hat] at hnext
          exact (hpos.passed i hi).1 (hnext.2 hle)
      exact initLoop_spec hok hblk fuel (k + 1) _ (by omega) hlinked hmask' hbd'
    · rw [List.getElem?_eq_none (by simpa using hk)]
      refine ⟨s.inCachesMask, s.boundaries, rfl, fun m hm => hmask m (by omega) hm, fun i hi => ?_⟩
      have := FALRUParams.cacheBlocks_spec hok hi
      exact hbd i hi (by omega)

/-- The loop only writes masks and boundaries. -/
theorem initLoop_frame : ∀ (fuel : Nat) (s : FALRU) (o : Option Nat) (t : TrackPos),
    ∃ M B, initLoop p fuel s o t = { s with inCachesMask := M, boundaries := B }
  | 0, s, _, _ => ⟨s.inCachesMask, s.boundaries, rfl⟩
  | _ + 1, s, none, _ => ⟨s.inCachesMask, s.boundaries, rfl⟩
  | fuel + 1, s, some blk, t => by
    unfold initLoop
    exact initLoop_frame fuel _ _ _

theorem new_frame (mask : Nat → BitVec 32) (boundaries : Nat → Option Nat) : ∃ M B, new p mask boundaries =
      { linkedBlocks p mask boundaries with inCachesMask := M, boundaries := B } :=
  initLoop_frame _ _ _ _

theorem getElem?_range_eq {n x : Nat} (hx : (List.range n)[k]? = some x) : x = k ∧ k < n := by
  obtain ⟨hk, hx⟩ := List.getElem?_eq_some_iff.1 hx
  rw [List.length_range] at hk
  rw [List.getElem_range] at hx
  exact ⟨hx.symm, hk⟩

theorem linked_linkedBlocks (hn : 2 ≤ p.numBlocks) (hfit : p.numBlocks < 2 ^ 32)
    (mask : Nat → BitVec 32) (boundaries : Nat → Option Nat) :
    (linkedBlocks p mask boundaries).toLinks.Linked (List.range p.numBlocks) := by
  apply Links.linked_of_getElem
  · rw [List.head?_eq_getElem?, List.getElem?_range (by omega)]
    rfl
  · rw [List.getLast?_eq_getElem?, List.length_range, List.getElem?_range (by omega)]
    rfl
  · intro k x hx
    obtain ⟨rfl, hk⟩ := getElem?_range_eq hx
    show (if x + 1 = p.numBlocks then none else some (x + 1)) = _
    split
    · rw [List.getElem?_eq_none (by rw [List.length_range]; omega)]
    · rw [List.getElem?_range (by omega)]
  · intro k x hx
    obtain ⟨rfl, hk⟩ := getElem?_range_eq hx
    rw [List.getElem?_range (by omega)]
    show (if k + 1 + 1 = p.numBlocks then some ((p.numBlocks + 2 ^ 32 - 2) % 2 ^ 32)
      else if k + 1 = 0 then none else some (k + 1 - 1)) = some k
    split
    · rw [show (p.numBlocks + 2 ^ 32 - 2) % 2 ^ 32 = k by omega]
    · rw [if_neg (Nat.succ_ne_zero k), Nat.add_sub_cancel]
  · have hone : ¬ 0 + 1 = p.numBlocks := by omega
    exact if_neg hone

/-- **The constructor establishes the invariant**; if no cache is tracked the masks have to be zero. -/
theorem tracked_new (hok : p.TrackOk) (hn : 2 ≤ p.numBlocks) (mask : Nat → BitVec 32)
    (boundaries : Nat → Option Nat) (hmask : p.numTrackedCaches = 0 → ∀ x, mask x = 0) :
    Tracked p (new p mask boundaries) (List.range p.numBlocks) := by
  have hblk : p.blkSize ≤ p.size := by
    by_contra hlt
    have : p.numBlocks = 0 := Nat.div_eq_of_lt (by omega)
    omega
  have hfit : p.numBlocks < 2 ^ 32 := by
    have := p.fits.1
    have := Nat.div_le_self p.size p.blkSize
    unfold FALRUParams.numBlocks
    omega
  have hlinked := linked_linkedBlocks hn hfit mask boundaries
  unfold new init
  by_cases hnum : p.numTrackedCaches = 0
  · rw [if_neg (by simpa using hnum)]
    refine ⟨hlinked, List.Perm.refl _, fun k x i hx => ?_, fun i hi => by omega⟩
    show (mask x).getLsbD i = _
    rw [hmask hnum x]
    simp [hnum]
  · have h0 : (if p.numTrackedCaches ≠ 0 then some (linkedBlocks p mask boundaries).head else none) =
        (List.range p.numBlocks)[0]? := by
      rw [if_pos hnum, List.getElem?_range (by omega)]
      rfl
    obtain ⟨M, B, heq, hM, hB⟩ := initLoop_spec hok hblk (p.numBlocks + 1) 0
      (linkedBlocks p mask boundaries) (by omega) hlinked (fun m hm => absurd hm (Nat.not_lt_zero m))
      (fun i hi hle => by
        have := FALRUParams.cacheBlocks_spec hok hi
        omega)
    rw [h0]
    show Tracked p (initLoop p _ _ _ (posAt p 0)) _
    rw [heq]
    refine ⟨hlinked, List.Perm.refl _, fun k x i hx => ?_, fun i hi => ?_⟩
    · obtain ⟨rfl, hk⟩ := getElem?_range_eq hx
      rw [← posAt_mask hok hblk hk]
      exact congrArg (BitVec.getLsbD · i) (hM x hk)
    · have hspec := FALRUParams.cacheBlocks_spec hok hi
      rw [List.getElem?_range (by omega)]
      exact hB i hi

end FALRU

end Alpine.Mem
