import Alpine.Lib.Lru
import Alpine.Mem.FALRURun

/-!
# The hits of the tracked caches

A sequence of line accesses, each miss followed by a fill, compared with LRU caches of the tracked sizes on the
same sequence.  `accessBlock` records an access after it has moved the block to the head, where the block is in
all tracked caches: a hit of the cache is counted as a hit of every tracked cache.

* `HitsOk` — the invariant: the valid blocks, in list order, hold what the LRU cache of that many entries holds,
  and the hits counted so far are those of the LRU caches.
* `falru_hits` — the hits are right in every run whose hits are hits of the smallest tracked cache, and the
  self-check passes before and after every move.
-/

namespace Alpine.Mem

open FALRU

variable {p : FALRUParams}

/-- An access to a line, and when its data is there if it has to be filled. -/
structure LineAccess where
  addr : Nat
  isSecure : Bool
  curTick : Nat := 0
  whenReady : Nat := 0

/-- The tag store with its history and the lines accessed so far. -/
structure HitRun where
  run : TagRun
  seq : List LineKey := []

namespace HitRun

variable (p : FALRUParams)

def key (a : LineAccess) : LineKey := (p.extractTag a.addr, a.isSecure)

/-- `accessBlock`, followed on a miss by the fill of the victim. -/
def step (h : HitRun) (a : LineAccess) : Option HitRun := do
  let blk ← h.run.tags.findBlock (key p a)
  let r ← TagRun.step p h.run (.accessBlock a.addr a.isSecure a.curTick)
  let r ← match blk.filter fun b => (h.run.tags.blks b).isValid with
    | some _ => some r
    | none => TagRun.step p r (.fill a.addr a.isSecure a.whenReady)
  some { run := r, seq := h.seq ++ [key p a] }

/-- The line is not stale; if a block holds it, the block is in all tracked caches; and if the victim has to
be evicted, that does not erase the entry of another block. -/
def AccessOk (h : HitRun) (a : LineAccess) : Prop :=
  key p a ∉ h.run.stale ∧
  (∀ b, (h.run.tags.blks b).isValid = true → keyOf h.run.tags.blks b = key p a →
    h.run.tags.inCachesMask b = p.inAllCachesMask) ∧
  ((h.run.tags.blks h.run.tags.tail).isValid = true → TagRun.NoOther h.run.tags.blks h.run.tags.tail)

end HitRun

/-- The valid blocks come first and hold what an LRU cache holds; the hits are those of LRU caches. -/
structure HitsOk (p : FALRUParams) (h : HitRun) (V I : List Nat) : Prop where
  tags : TagsOk p h.run (V ++ I)
  valid : ∀ b ∈ V, (h.run.tags.blks b).isValid = true
  invalid : ∀ b ∈ I, (h.run.tags.blks b).isValid = false
  keys : V.map (keyOf h.run.tags.blks) = (lruRun p.numBlocks h.seq).1
  hits : ∀ i, i < p.numTrackedCaches → h.run.tags.hits i = (lruRun (p.cacheBlocks i) h.seq).2

section Lines

variable {h : HitRun} {V I : List Nat} {b q : Nat} {k : LineKey}

theorem HitsOk.length (hh : HitsOk p h V I) : V.length + I.length = p.numBlocks := by
  rw [← List.length_append]
  exact hh.tags.tracked.length

theorem HitsOk.mem_valid (hh : HitsOk p h V I) (hv : (h.run.tags.blks b).isValid = true) : b ∈ V := by
  have hmem : b ∈ V ++ I :=
    hh.tags.tracked.perm.mem_iff.2 (List.mem_range.2 (hh.tags.clock b hv).1)
  rcases List.mem_append.1 hmem with hb | hb
  · exact hb
  · have := hh.invalid b hb
    rw [hv] at this
    cases this

theorem HitsOk.keys_nodup (hh : HitsOk p h V I) : (V.map (keyOf h.run.tags.blks)).Nodup := by
  refine List.Nodup.map_on ?_ (List.nodup_append.1 hh.tags.tracked.nodup).1
  intro x hx y hy hxy
  exact hh.tags.hashOk.keyOf_inj (hh.valid x hx) (hh.valid y hy) hxy

/-- A line that no block holds misses in all LRU caches. -/
theorem HitsOk.not_mem_lru (hh : HitsOk p h V I)
    (hk : ∀ b, (h.run.tags.blks b).isValid = true → keyOf h.run.tags.blks b ≠ k) {c : Nat}
    (hc : c ≤ p.numBlocks) : k ∉ (lruRun c h.seq).1 := by
  rw [lruRun_take hc, ← hh.keys]
  intro hmem
  obtain ⟨b, hb, hkey⟩ := List.mem_map.1 (List.mem_of_mem_take hmem)
  exact hk b (hh.valid b hb) hkey

/-- A line whose block is at position `q` hits in the LRU caches that reach beyond it. -/
theorem HitsOk.mem_lru (hh : HitsOk p h V I) (hb : V[q]? = some b) {c : Nat} (hqc : q < c)
    (hc : c ≤ p.numBlocks) : keyOf h.run.tags.blks b ∈ (lruRun c h.seq).1 := by
  rw [lruRun_take hc, ← hh.keys, List.mem_take_iff_getElem]
  obtain ⟨hq, hbq⟩ := List.getElem?_eq_some_iff.1 hb
  refine ⟨q, by rw [List.length_map]; omega, ?_⟩
  rw [List.getElem_map, hbq]

theorem hits_recordAccess_none (s : FALRU) (i : Nat) : (s.recordAccess p none).hits i = s.hits i := by
  simp [recordAccess]

theorem hits_recordAccess_some {s : FALRU} {i : Nat} (hi : i < p.numTrackedCaches)
    (hbit : (s.inCachesMask b).getLsbD i = true) : (s.recordAccess p (some b)).hits i = s.hits i + 1 := by
  have hi32 : i < 32 := Nat.lt_of_lt_of_le hi FALRUParams.numTrackedCaches_le
  have hne := (one_shift_and_ne_zero hi32 (s.inCachesMask b)).2 hbit
  simpa [recordAccess, hi, Nat.le_of_lt hi] using hne

theorem HitsOk.hit (hok : p.TrackOk) (hh : HitsOk p h V I) (a : LineAccess)
    (hfind : h.run.tags.findBlock (HitRun.key p a) = some (some b))
    (hv : (h.run.tags.blks b).isValid = true) (hkey : keyOf h.run.tags.blks b = HitRun.key p a)
    (hmask : h.run.tags.inCachesMask b = p.inAllCachesMask) :
    ∃ h' V', HitRun.step p h a = some h' ∧ HitsOk p h' V' I := by
  obtain ⟨q, hq⟩ := List.mem_iff_getElem?.1 (hh.mem_valid hv)
  obtain ⟨hqV, hbq⟩ := List.getElem?_eq_some_iff.1 hq
  have hqL : (V ++ I)[q]? = some b := by rw [List.getElem?_append_left hqV, hq]
  obtain ⟨s, lat, hacc, htracked, hblks, hhash, hhits⟩ :=
    accessBlock_hit hh.tags.tracked hok hqL hfind hv a.curTick
  have herase : (V ++ I).eraseIdx q = V.eraseIdx q ++ I := List.eraseIdx_append_of_lt_length hqV I
  have hstep : HitRun.step p h a = some
      { run := ({ h.run with tags := s.recordAccess p (some b) } : TagRun).use b
        seq := h.seq ++ [HitRun.key p a] } := by
    unfold HitRun.step TagRun.step
    unfold HitRun.key at hfind hacc ⊢
    simp only [hfind, hacc, Option.bind_eq_bind, Option.bind_some, Option.filter_some, hv, if_true]
  have hkeyOf : keyOf s.blks = keyOf h.run.tags.blks := by rw [hblks]
  refine ⟨_, b :: V.eraseIdx q, hstep, ?_, ?_, ?_, ?_, ?_⟩
  · rw [List.cons_append, ← herase]
    exact hh.tags.hit hv hblks hhash htracked
  · intro x hx
    show (s.blks x).isValid = true
    rw [hblks]
    rcases List.mem_cons.1 hx with rfl | hx
    · exact hv
    · exact hh.valid x (List.mem_of_mem_eraseIdx hx)
  · intro x hx
    show (s.blks x).isValid = false
    rw [hblks]
    exact hh.invalid x hx
  · have hget : (lruRun p.numBlocks h.seq).1[q]? = some (HitRun.key p a) := by
      rw [← hh.keys, List.getElem?_map, hq, ← hkey]
      rfl
    show (b :: V.eraseIdx q).map (keyOf s.blks) = _
    rw [lruRun_hit_idx (hh.keys ▸ hh.keys_nodup) hget, hkeyOf, List.map_cons, hkey, ← hh.keys, List.eraseIdx_map]
  · intro i hi
    have hspec := FALRUParams.cacheBlocks_spec hok hi
    have hqi : q < p.cacheBlocks i := by
      have hbit := hh.tags.tracked.mask q b i hqL
      rw [hmask, FALRUParams.getLsbD_inAll] at hbit
      simp only [hi, true_and, decide_true] at hbit
      exact of_decide_eq_true hbit.symm
    have hmem : HitRun.key p a ∈ (lruRun (p.cacheBlocks i) h.seq).1 := by
      rw [← hkey]
      exact hh.mem_lru hq hqi (by omega)
    have hbit : (s.inCachesMask b).getLsbD i = true := by
      rw [htracked.mask 0 b i rfl]
      simp [hi]
      omega
    rw [lruRun_hit hmem]
    show (s.recordAccess p (some b)).hits i = _
    rw [hits_recordAccess_some hi hbit, hhits, hh.hits i hi]

/-- The victim is the last invalid block, or the last block if all are valid. -/
theorem victim_split (hh : HitsOk p h V I) : ∃ V' I', (V ++ I).eraseIdx ((V ++ I).length - 1) = V' ++ I' ∧
    V' = V.take (p.numBlocks - 1) ∧ ∀ x ∈ I', x ∈ I := by
  have hlen := hh.length
  have herase : (V ++ I).eraseIdx ((V ++ I).length - 1) = (V ++ I).take (p.numBlocks - 1) := by
    rw [List.eraseIdx_eq_take_drop_succ, List.length_append, hlen, List.drop_eq_nil_of_le (by simp; omega),
      List.append_nil]
  refine ⟨V.take (p.numBlocks - 1), I.take (p.numBlocks - 1 - V.length), ?_, rfl, fun x hx => ?_⟩
  · rw [herase, List.take_append]
  · exact List.mem_of_mem_take hx

theorem HitsOk.miss (hok : p.TrackOk) (hh : HitsOk p h V I) (a : LineAccess)
    (hfind : h.run.tags.findBlock (HitRun.key p a) = some none)
    (hk : ∀ b, (h.run.tags.blks b).isValid = true → keyOf h.run.tags.blks b ≠ HitRun.key p a)
    (hother : (h.run.tags.blks h.run.tags.tail).isValid = true → TagRun.NoOther h.run.tags.blks h.run.tags.tail) :
    ∃ h' V' I', HitRun.step p h a = some h' ∧ HitsOk p h' V' I' := by
  have hacc := accessBlock_miss (p := p) hfind (fun b hb => (nomatch hb)) a.curTick
  have hlen := hh.length
  have htracked : Tracked p (h.run.tags.recordAccess p none) (V ++ I) := hh.tags.tracked.congr rfl rfl rfl
  have htags : TagsOk p { h.run with tags := h.run.tags.recordAccess p none } (V ++ I) :=
    ⟨htracked, hh.tags.order, hh.tags.clock, hh.tags.hashOk⟩
  obtain ⟨l, M, B, hfill, -⟩ := fill_spec htracked hok (HitRun.key p a) a.whenReady
  have hdone := htags.fill hok hk hother hfill
  have hstep : ∃ r, HitRun.step p h a = some { run := r, seq := h.seq ++ [HitRun.key p a] } ∧
      TagsOk p r (h.run.tags.tail :: (V ++ I).eraseIdx ((V ++ I).length - 1)) ∧
      r.tags.blks = Function.update h.run.tags.blks h.run.tags.tail (filled (HitRun.key p a) a.whenReady) ∧
      r.tags.hits = (h.run.tags.recordAccess p none).hits := by
    refine ⟨_, ?_, hdone, rfl, rfl⟩
    unfold HitRun.step TagRun.step
    unfold HitRun.key at hfind hacc hfill ⊢
    simp only [hfind, hacc, hfill, Option.bind_eq_bind, Option.bind_some, Option.filter_none]
    rfl
  obtain ⟨r, hstep, hr, hblks, hhits⟩ := hstep
  obtain ⟨V', I', hL', hV', hI'⟩ := victim_split hh
  rw [hL', ← List.cons_append] at hr
  have hne : ∀ x ∈ V' ++ I', x ≠ h.run.tags.tail := by
    rintro x hx rfl
    exact (List.nodup_cons.1 hr.tracked.nodup).1 hx
  have hmem : HitRun.key p a ∉ (lruRun p.numBlocks h.seq).1 := hh.not_mem_lru hk (Nat.le_refl _)
  refine ⟨_, h.run.tags.tail :: V', I', hstep, hr, ?_, ?_, ?_, ?_⟩
  · intro x hx
    show (r.tags.blks x).isValid = true
    rw [hblks]
    rcases List.mem_cons.1 hx with rfl | hx
    · rw [Function.update_self]
      rfl
    · rw [Function.update_of_ne (hne x (List.mem_append_left _ hx))]
      exact hh.valid x (List.mem_of_mem_take (hV' ▸ hx))
  · intro x hx
    show (r.tags.blks x).isValid = false
    rw [hblks, Function.update_of_ne (hne x (List.mem_append_right _ hx))]
    exact hh.invalid x (hI' x hx)
  · have hkeys : V'.map (keyOf r.tags.blks) = V'.map (keyOf h.run.tags.blks) := by
      refine List.map_congr_left fun x hx => ?_
      rw [hblks, keyOf_update_ne (hne x (List.mem_append_left _ hx))]
    have hkey : keyOf r.tags.blks h.run.tags.tail = HitRun.key p a := by
      unfold keyOf
      rw [hblks, Function.update_self]
      rfl
    show (h.run.tags.tail :: V').map (keyOf r.tags.blks) = _
    rw [lruRun_miss hmem, ← hh.keys, List.map_cons, hkey, hkeys, hV', List.map_take]
    have hpos : p.numBlocks = p.numBlocks - 1 + 1 := by
      have := hh.tags.tracked.tail_lt
      omega
    rw [hpos, List.take_succ_cons, Nat.add_sub_cancel]
  · intro i hi
    have hspec := FALRUParams.cacheBlocks_spec hok hi
    rw [lruRun_miss (hh.not_mem_lru hk (Nat.le_of_lt hspec.2.1))]
    show r.tags.hits i = _
    rw [hhits, hits_recordAccess_none, hh.hits i hi]

theorem HitsOk.step (hok : p.TrackOk) (hh : HitsOk p h V I) {a : LineAccess} (ha : HitRun.AccessOk p h a) :
    ∃ h' V' I', HitRun.step p h a = some h' ∧ HitsOk p h' V' I' := by
  obtain ⟨hfresh, hmask, hother⟩ := ha
  obtain ⟨o, hfind, ho⟩ := hh.tags.findBlock hfresh
  cases o with
  | none =>
    refine hh.miss hok a hfind (fun b hv hkey => ?_) hother
    exact nomatch (ho b).2 ⟨hv, hkey⟩
  | some b =>
    obtain ⟨hv, hkey⟩ := (ho b).1 rfl
    obtain ⟨h', V', hstep, hh'⟩ := hh.hit hok a hfind hv hkey (hmask b hv hkey)
    exact ⟨h', V', I, hstep, hh'⟩

theorem hitsOk_start (hok : p.TrackOk) (hnum : p.numTrackedCaches ≠ 0) {mask : Nat → BitVec 32}
    {boundaries : Nat → Option Nat} :
    HitsOk p { run := TagRun.start p mask boundaries } [] (List.range p.numBlocks) := by
  have hspec := FALRUParams.cacheBlocks_spec hok (Nat.pos_of_ne_zero hnum)
  have htags := tagsOk_start hok (by omega) mask boundaries fun h0 => absurd h0 hnum
  obtain ⟨M, B, hnew⟩ := new_frame (p := p) mask boundaries
  refine ⟨htags, fun b hb => absurd hb List.not_mem_nil, fun b _ => ?_, rfl, fun i _ => ?_⟩
  · show ((new p mask boundaries).blks b).isValid = false
    rw [hnew]
    rfl
  · show (new p mask boundaries).hits i = 0
    rw [hnew]
    rfl

end Lines

/-- **The tracked caches count the hits of LRU caches as long as the hits are hits of the smallest one.** -/
theorem falru_hits (hok : p.TrackOk) (hnum : p.numTrackedCaches ≠ 0) {mask : Nat → BitVec 32}
    {boundaries : Nat → Option Nat} {h : HitRun}
    (hrun : Run.Reaches (HitRun.step p) (HitRun.AccessOk p) { run := TagRun.start p mask boundaries } h) :
    (∀ i, i < p.numTrackedCaches → h.run.tags.hits i = (lruRun (p.cacheBlocks i) h.seq).2) ∧
    h.run.tags.check p = true ∧ (∀ b, b < p.numBlocks → (∃ s, h.run.tags.moveToHead p b = some s ∧ s.check p = true) ∧
      ∃ s, h.run.tags.moveToTail p b = some s ∧ s.check p = true) ∧
    ∀ a, HitRun.AccessOk p h a → (HitRun.step p h a).isSome = true := by
  obtain ⟨V, I, hh⟩ : ∃ V I, HitsOk p h V I := by
    refine hrun.inv (P := fun h => ∃ V I, HitsOk p h V I) ⟨[], _, hitsOk_start hok hnum⟩ ?_
    rintro t a t' ⟨V, I, ht⟩ ha hstep
    obtain ⟨h', V', I', hstep', hh'⟩ := ht.step hok ha
    rw [hstep] at hstep'
    cases hstep'
    exact ⟨V', I', hh'⟩
  have hspec := FALRUParams.cacheBlocks_spec hok (Nat.pos_of_ne_zero hnum)
  have hblk : p.blkSize ≤ p.size := by
    have := (FALRUParams.tracked_lt (p := p) (Nat.pos_of_ne_zero hnum)).1
    have := (hok hnum).2
    omega
  refine ⟨hh.hits, check_of_tracked hok hblk hh.tags.tracked, fun b hb => ?_, fun a ha => ?_⟩
  · obtain ⟨q, hq⟩ := hh.tags.tracked.exists_pos hb
    obtain ⟨l, M, B, hhead, hthead⟩ := tracked_moveToHead hh.tags.tracked hok hq
    obtain ⟨l', M', B', htail, httail⟩ := tracked_moveToTail hh.tags.tracked hok hq
    exact ⟨⟨_, hhead, check_of_tracked hok hblk hthead⟩, _, htail, check_of_tracked hok hblk httail⟩
  · obtain ⟨h', V', I', hstep, -⟩ := hh.step hok ha
    rw [hstep]
    rfl

/-- Line 64 is used twice in a row. -/
theorem falru_hits_twice : ∃ h, Run.Reaches (HitRun.step fourBlocks) (HitRun.AccessOk fourBlocks)
    { run := TagRun.start fourBlocks (fun _ => 0) (fun _ => none) } h ∧ h.run.tags.hits 0 = 1 ∧
      h.run.tags.hits 0 = (lruRun 2 h.seq).2 := by
  have h₀ : Run.Reaches (HitRun.step fourBlocks) (HitRun.AccessOk fourBlocks)
    { run := TagRun.start fourBlocks (fun _ => 0) (fun _ => none) } _ := .refl
  have h1 := h₀.step (i := LineAccess.mk 70 false 0 0)
    ⟨List.not_mem_nil, fun b hb => (nomatch hb), fun hv => (nomatch hv)⟩ rfl
  have h2 := h1.step (i := LineAccess.mk 64 false 5 0)
    (by
      refine ⟨List.not_mem_nil, fun b hb _ => ?_, fun hv => (nomatch hv)⟩
      rcases b with _ | _ | _ | _ | b
      · cases hb
      · cases hb
      · cases hb
      · rfl
      · cases hb) rfl
  exact ⟨_, h2, rfl, (falru_hits fourBlocks_trackOk (by decide) h2).1 0 (by decide)⟩

/-- After three other lines the first line is a hit of the four blocks, counted for the tracked cache of two,
where it would miss. -/
theorem falru_hits_wrong : ∃ h, Run.Reaches (HitRun.step fourBlocks) (fun _ _ => True)
    { run := TagRun.start fourBlocks (fun _ => 0) (fun _ => none) } h ∧ h.run.tags.hits 0 = 1 ∧
      (lruRun (fourBlocks.cacheBlocks 0) h.seq).2 = 0 := by
  have h₀ : Run.Reaches (HitRun.step fourBlocks) (fun _ _ => True)
    { run := TagRun.start fourBlocks (fun _ => 0) (fun _ => none) } _ := .refl
  have h1 := h₀.step (i := ⟨0, false, 0, 0⟩) trivial rfl
  have h2 := h1.step (i := ⟨64, false, 0, 0⟩) trivial rfl
  have h3 := h2.step (i := ⟨128, false, 0, 0⟩) trivial rfl
  have h4 := h3.step (i := ⟨0, false, 0, 0⟩) trivial rfl
  exact ⟨_, h4, rfl, rfl⟩

end Alpine.Mem
