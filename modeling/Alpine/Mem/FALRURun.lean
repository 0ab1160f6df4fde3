import Alpine.Mem.FALRUTrack

/-!
# Lines and blocks of the fully associative tag store

The history of a run is when each block was last used and which lines are stale: their block was invalidated,
and they have not been inserted since.  `FALRU::invalidate` resets the block's tag before it erases the entry
of the tag, so that the entry of a stale line stays in the hash table.

* `invalidateBlock_spec`, `fill_spec`, `accessBlock_hit` — what the operations do.
* `TagsOk` — the invariant of all runs: valid blocks stand in the order of their last use, every valid block has
  its entry, and all other entries are of stale lines.
* `falru_map` — the tag store is a map from lines to blocks exactly as long as no line is stale.
-/

namespace Alpine.Mem

namespace FALRU

variable {p : FALRUParams} {s : FALRU} {L : List Nat} {b q : Nat}

/-- The line that a block holds. -/
def keyOf (blks : Nat → CacheBlk) (b : Nat) : LineKey := ((blks b).tag, (blks b).isSecure)

/-- The line that a block seems to hold after it has been reset. -/
def resetKey : LineKey := (MaxAddr, false)

/-! ## Operations -/

theorem Tracked.congr {s' : FALRU} (h : Tracked p s L) (hl : s'.toLinks = s.toLinks)
    (hm : s'.inCachesMask = s.inCachesMask) (hb : s'.boundaries = s.boundaries) : Tracked p s' L :=
  ⟨hl ▸ h.linked, h.perm, hm ▸ h.mask, hb ▸ h.boundary⟩

theorem Tracked.exists_pos (h : Tracked p s L) (hb : b < p.numBlocks) : ∃ q : Nat, L[q]? = some b :=
  List.mem_iff_getElem?.1 (h.perm.mem_iff.2 (List.mem_range.2 hb))

theorem Tracked.tail_lt (h : Tracked p s L) : s.tail < p.numBlocks :=
  List.mem_range.1 (h.perm.mem_iff.1 (List.mem_of_getLast? h.linked.tail_eq))

theorem Tracked.tail_getElem (h : Tracked p s L) : L[L.length - 1]? = some s.tail := by
  rw [← List.getLast?_eq_getElem?]
  exact h.linked.tail_eq

/-- The victim is in none of the tracked caches. -/
theorem Tracked.mask_tail (h : Tracked p s L) (hok : p.TrackOk) : s.inCachesMask s.tail = 0 := by
  apply BitVec.eq_of_getLsbD_eq
  intro i _
  have hlen := h.length
  rw [h.mask _ _ i h.tail_getElem]
  by_cases hi : i < p.numTrackedCaches
  · have hspec := FALRUParams.cacheBlocks_spec hok hi
    simp [hi]
    omega
  · simp [hi]

theorem invalidateBlock_spec (h : Tracked p s L) (hok : p.TrackOk) (hb : L[q]? = some b)
    (hv : (s.blks b).isValid = true) : ∃ l M B, s.invalidateBlock p b = some { s with
        toLinks := l, inCachesMask := M, boundaries := B
        blks := Function.update s.blks b .invalidated
        tagHash := Function.update s.tagHash resetKey none } ∧
      Tracked p { s with toLinks := l, inCachesMask := M, boundaries := B } (L.eraseIdx q ++ [b]) := by
  have h' : Tracked p { s with blks := Function.update s.blks b .invalidated } L := h.congr rfl rfl rfl
  obtain ⟨l, M, B, hmove, htracked⟩ := tracked_moveToTail h' hok hb
  refine ⟨l, M, B, ?_, htracked.congr rfl rfl rfl⟩
  unfold invalidateBlock invalidate
  rw [if_pos hv]
  dsimp only
  rw [hmove]
  simp only [Option.bind_eq_bind, Option.bind_some, Function.update_self, Function.update_idem]
  rfl

theorem insertBlock_spec (h : Tracked p s L) (hok : p.TrackOk) (hb : L[q]? = some b)
    (hm : s.inCachesMask b = 0) (hv : (s.blks b).isValid = false) (k : LineKey) :
    ∃ l M B, s.insertBlock p k b = some { s with
        toLinks := l, inCachesMask := M, boundaries := B
        blks := Function.update s.blks b ((s.blks b).insert k.1 k.2)
        tagHash := Function.update s.tagHash k (some b) } ∧
      Tracked p { s with toLinks := l, inCachesMask := M, boundaries := B } (b :: L.eraseIdx q) := by
  have h' : Tracked p { s with blks := Function.update s.blks b ((s.blks b).insert k.1 k.2) } L :=
    h.congr rfl rfl rfl
  obtain ⟨l, M, B, hmove, htracked⟩ := tracked_moveToHead h' hok hb
  refine ⟨l, M, B, ?_, htracked.congr rfl rfl rfl⟩
  unfold insertBlock
  rw [if_pos ⟨hm, hv⟩]
  dsimp only
  rw [hmove]
  simp only [Option.bind_eq_bind, Option.bind_some, Function.update_self]
  rfl

/-- The block of the victim after a fill. -/
def filled (k : LineKey) (whenReady : Nat) : CacheBlk where
  tag := k.1
  isValid := true
  isSecure := k.2
  whenReady := whenReady

theorem fill_spec (h : Tracked p s L) (hok : p.TrackOk) (k : LineKey) (whenReady : Nat) :
    ∃ l M B, s.fill p k whenReady = some { s with
        toLinks := l, inCachesMask := M, boundaries := B
        blks := Function.update s.blks s.tail (filled k whenReady)
        tagHash := Function.update
          (if (s.blks s.tail).isValid then Function.update s.tagHash resetKey none else s.tagHash)
          k (some s.tail) } ∧
      Tracked p { s with toLinks := l, inCachesMask := M, boundaries := B }
        (s.tail :: L.eraseIdx (L.length - 1)) := by
  have htail := h.tail_getElem
  have hmask := h.mask_tail hok
  unfold fill findVictim
  dsimp only
  cases hv : (s.blks s.tail).isValid with
  | false =>
    obtain ⟨l, M, B, hins, htracked⟩ := insertBlock_spec h hok htail hmask hv k
    refine ⟨l, M, B, ?_, htracked⟩
    simp only [Bool.false_eq_true, if_false, Option.bind_eq_bind, Option.bind_some, hins,
      Function.update_self, Function.update_idem]
    rfl
  | true =>
    obtain ⟨l, M, B, hinv, htracked⟩ := invalidateBlock_spec h hok htail hv
    rw [eraseIdx_last htail] at htracked
    have htail' : l.tail = s.tail := by
      have := htracked.tail_getElem
      rw [htail] at this
      exact (Option.some.inj this).symm
    have hmask' : M s.tail = 0 := htail' ▸ htracked.mask_tail hok
    have htracked' : Tracked p { s with
        toLinks := l, inCachesMask := M, boundaries := B
        blks := Function.update s.blks s.tail .invalidated
        tagHash := Function.update s.tagHash resetKey none } L := htracked.congr rfl rfl rfl
    obtain ⟨l', M', B', hins, hdone⟩ := insertBlock_spec htracked' hok htail hmask'
      (by simp [CacheBlk.invalidated]) k
    refine ⟨l', M', B', ?_, hdone.congr rfl rfl rfl⟩
    simp only [if_true, hinv, Option.bind_eq_bind, Option.bind_some, hins, Function.update_self, Function.update_idem]
    rfl

theorem accessBlock_hit (h : Tracked p s L) (hok : p.TrackOk) {k : LineKey} (hb : L[q]? = some b)
    (hfind : s.findBlock k = some (some b)) (hv : (s.blks b).isValid = true) (curTick : Nat) :
    ∃ s' lat, s.accessBlock p curTick k = some (s'.recordAccess p (some b), some b, lat, s.inCachesMask b) ∧
      Tracked p s' (b :: L.eraseIdx q) ∧ s'.blks = s.blks ∧ s'.tagHash = s.tagHash ∧ s'.hits = s.hits := by
  obtain ⟨l, M, B, hmove, htracked⟩ := tracked_moveToHead h hok hb
  unfold accessBlock
  simp only [hfind, Option.bind_eq_bind, Option.bind_some, Option.filter_some, hv, if_true, hmove]
  exact ⟨_, _, rfl, htracked, rfl, rfl, rfl⟩

theorem accessBlock_miss {k : LineKey} {o : Option Nat} (hfind : s.findBlock k = some o)
    (hv : ∀ b, o = some b → (s.blks b).isValid = false) (curTick : Nat) :
    s.accessBlock p curTick k = some (s.recordAccess p o, o, p.lookupLatency, 0) := by
  have hfilter : (o.filter fun b => (s.blks b).isValid) = none := by
    cases o with
    | none => rfl
    | some b => simp [hv b rfl]
  unfold accessBlock
  simp only [hfind, Option.bind_eq_bind, Option.bind_some, hfilter]

end FALRU

/-! ## Runs -/

open FALRU

/-- A call of the interface; addresses name the line they are in. -/
inductive TagCall where
  | accessBlock (addr : Nat) (isSecure : Bool) (curTick : Nat)
  | findBlock (addr : Nat) (isSecure : Bool)
  | fill (addr : Nat) (isSecure : Bool) (whenReady : Nat)
  | invalidateBlock (blk : Nat)

/-- The tag store with its history: the stale lines, and when a block was last used. -/
structure TagRun where
  tags : FALRU
  stale : List LineKey := []
  time : Nat := 0
  lastUse : Nat → Nat := fun _ => 0

namespace TagRun

variable (p : FALRUParams)

/-- The line of a block that is invalidated becomes stale, unless it is the one whose entry is erased. -/
def afterInvalidate (stale : List LineKey) (k : LineKey) : List LineKey :=
  (k :: stale).filter (· ≠ resetKey)

def use (r : TagRun) (b : Nat) : TagRun :=
  { r with time := r.time + 1, lastUse := Function.update r.lastUse b r.time }

def step (r : TagRun) : TagCall → Option TagRun
  | .accessBlock addr isSecure curTick => do
    let (s, blk, _) ← r.tags.accessBlock p curTick (p.extractTag addr, isSecure)
    let r' : TagRun := { r with tags := s }
    match blk.filter fun b => (r.tags.blks b).isValid with
    | some b => some (r'.use b)
    | none => some r'
  | .findBlock addr isSecure => do
    let _ ← r.tags.findBlock (p.extractTag addr, isSecure)
    some r
  | .fill addr isSecure whenReady => do
    let k := (p.extractTag addr, isSecure)
    let victim := r.tags.findVictim
    let s ← r.tags.fill p k whenReady
    let stale :=
      if (r.tags.blks victim).isValid then afterInvalidate r.stale (keyOf r.tags.blks victim) else r.stale
    let r' : TagRun := { r with tags := s, stale := stale.filter (· ≠ k) }
    some (r'.use victim)
  | .invalidateBlock blk => do
    let s ← r.tags.invalidateBlock p blk
    some { r with tags := s, stale := afterInvalidate r.stale (keyOf r.tags.blks blk) }

/-- No valid block except `b` holds the line whose entry an invalidation erases. -/
def NoOther (blks : Nat → CacheBlk) (b : Nat) : Prop :=
  ∀ b', (blks b').isValid = true → b' ≠ b → keyOf blks b' ≠ resetKey

/-- A line is inserted after a miss, and an invalidation does not erase the entry of another block. -/
def StepOk (r : TagRun) : TagCall → Prop
  | .fill addr isSecure _ =>
    (∀ b, (r.tags.blks b).isValid = true → keyOf r.tags.blks b ≠ (p.extractTag addr, isSecure)) ∧
      ((r.tags.blks r.tags.findVictim).isValid = true → NoOther r.tags.blks r.tags.findVictim)
  | .invalidateBlock blk => NoOther r.tags.blks blk
  | _ => True

/-- The constructed tag store. -/
def start (mask : Nat → BitVec 32) (boundaries : Nat → Option Nat) : TagRun where
  tags := FALRU.new p mask boundaries

end TagRun

/-! ## The invariant -/

variable {p : FALRUParams}

/-- Every valid block has its entry, and all other entries are of stale lines. -/
structure HashOk (blks : Nat → CacheBlk) (tagHash : LineKey → Option Nat) (stale : List LineKey) : Prop where
  entry : ∀ b, (blks b).isValid = true → tagHash (keyOf blks b) = some b ∧ keyOf blks b ∉ stale
  hash : ∀ k b, tagHash k = some b → ((blks b).isValid = true ∧ keyOf blks b = k) ∨ k ∈ stale
  stale : ∀ k ∈ stale, ∃ b, tagHash k = some b

/-- Valid blocks stand in the order of their last use. -/
structure TagsOk (p : FALRUParams) (r : TagRun) (L : List Nat) : Prop where
  tracked : Tracked p r.tags L
  order : (L.filter fun b => (r.tags.blks b).isValid).Pairwise fun b b' => r.lastUse b' < r.lastUse b
  clock : ∀ b, (r.tags.blks b).isValid = true → b < p.numBlocks ∧ r.lastUse b < r.time
  hashOk : HashOk r.tags.blks r.tags.tagHash r.stale

section Hash

variable {blks : Nat → CacheBlk} {tagHash : LineKey → Option Nat} {stale : List LineKey} {b : Nat}

theorem keyOf_update_ne {b' : Nat} {blk : CacheBlk} (h : b' ≠ b) :
    keyOf (Function.update blks b blk) b' = keyOf blks b' := by
  unfold keyOf
  rw [Function.update_of_ne h]

theorem HashOk.keyOf_inj (h : HashOk blks tagHash stale) {b' : Nat} (hb : (blks b).isValid = true)
    (hb' : (blks b').isValid = true) (hk : keyOf blks b = keyOf blks b') : b = b' := by
  have h1 := (h.entry b hb).1
  rw [hk, (h.entry b' hb').1] at h1
  exact (Option.some.inj h1).symm

theorem HashOk.invalidate (h : HashOk blks tagHash stale) (hb : (blks b).isValid = true)
    (hother : TagRun.NoOther blks b) :
    HashOk (Function.update blks b .invalidated) (Function.update tagHash resetKey none)
      (TagRun.afterInvalidate stale (keyOf blks b)) := by
  have hvalid : ∀ x, (Function.update blks b CacheBlk.invalidated x).isValid = true →
      x ≠ b ∧ (blks x).isValid = true := by
    intro x hx
    by_cases e : x = b
    · subst e
      rw [Function.update_self] at hx
      cases hx
    · rw [Function.update_of_ne e] at hx
      exact ⟨e, hx⟩
  refine ⟨fun x hx => ?_, fun k x hx => ?_, fun k hk => ?_⟩
  · obtain ⟨hne, hx⟩ := hvalid x hx
    obtain ⟨hentry, hfresh⟩ := h.entry x hx
    rw [keyOf_update_ne hne, Function.update_of_ne (hother x hx hne)]
    refine ⟨hentry, fun hmem => ?_⟩
    rcases List.mem_cons.1 (List.mem_filter.1 hmem).1 with hk | hk
    · exact hne (h.keyOf_inj hx hb hk)
    · exact hfresh hk
  · have hk : k ≠ resetKey := by
      rintro rfl
      rw [Function.update_self] at hx
      cases hx
    rw [Function.update_of_ne hk] at hx
    rcases h.hash k x hx with ⟨hv, rfl⟩ | hstale
    · by_cases e : x = b
      · subst e
        exact .inr (List.mem_filter.2 ⟨List.mem_cons_self, by simpa using hk⟩)
      · refine .inl ⟨?_, keyOf_update_ne e⟩
        rw [Function.update_of_ne e]
        exact hv
    · exact .inr (List.mem_filter.2 ⟨List.mem_cons_of_mem _ hstale, by simpa using hk⟩)
  · obtain ⟨hmem, hne⟩ := List.mem_filter.1 hk
    have hne : k ≠ resetKey := by simpa using hne
    rw [Function.update_of_ne hne]
    rcases List.mem_cons.1 hmem with rfl | hmem
    · exact ⟨b, (h.entry b hb).1⟩
    · exact h.stale k hmem

theorem HashOk.insert (h : HashOk blks tagHash stale) (hb : (blks b).isValid = false) {k : LineKey}
    (hk : ∀ x, (blks x).isValid = true → keyOf blks x ≠ k) (whenReady : Nat) :
    HashOk (Function.update blks b (filled k whenReady)) (Function.update tagHash k (some b))
      (stale.filter (· ≠ k)) := by
  have hkey : keyOf (Function.update blks b (filled k whenReady)) b = k := by
    unfold keyOf
    rw [Function.update_self]
    rfl
  refine ⟨fun x hx => ?_, fun k' x hx => ?_, fun k' hk' => ?_⟩
  · by_cases e : x = b
    · subst e
      rw [hkey, Function.update_self]
      exact ⟨rfl, by simp⟩
    · rw [Function.update_of_ne e] at hx
      rw [keyOf_update_ne e, Function.update_of_ne (hk x hx)]
      exact ⟨(h.entry x hx).1, fun hmem => (h.entry x hx).2 (List.mem_filter.1 hmem).1⟩
  · by_cases e : k' = k
    · subst e
      rw [Function.update_self] at hx
      cases hx
      exact .inl ⟨by rw [Function.update_self]; rfl, hkey⟩
    · rw [Function.update_of_ne e] at hx
      rcases h.hash k' x hx with ⟨hv, rfl⟩ | hstale
      · have hne : x ≠ b := by
          rintro rfl
          rw [hb] at hv
          cases hv
        refine .inl ⟨?_, keyOf_update_ne hne⟩
        rw [Function.update_of_ne hne]
        exact hv
      · exact .inr (List.mem_filter.2 ⟨hstale, by simpa using e⟩)
  · obtain ⟨hmem, hne⟩ := List.mem_filter.1 hk'
    have hne : k' ≠ k := by simpa using hne
    rw [Function.update_of_ne hne]
    exact h.stale k' hmem

end Hash

section Order

variable {L : List Nat} {valid valid' : Nat → Bool} {use : Nat → Nat} {b q : Nat}

/-- The block that is used last comes first. -/
theorem order_front {time : Nat} (hnodup : (b :: L.eraseIdx q).Nodup)
    (horder : (L.filter valid).Pairwise fun x y => use y < use x)
    (hclock : ∀ x, valid x = true → use x < time) (hb : valid' b = true)
    (hother : ∀ x, x ≠ b → valid' x = valid x) :
    ((b :: L.eraseIdx q).filter valid').Pairwise
      fun x y => Function.update use b time y < Function.update use b time x := by
  have hne : ∀ x ∈ L.eraseIdx q, x ≠ b := by
    rintro x hx rfl
    exact (List.nodup_cons.1 hnodup).1 hx
  have hfilter : (L.eraseIdx q).filter valid' = (L.eraseIdx q).filter valid :=
    List.filter_congr fun x hx => hother x (hne x hx)
  rw [List.filter_cons_of_pos hb, hfilter, List.pairwise_cons]
  constructor
  · intro x hx
    obtain ⟨hmem, hv⟩ := List.mem_filter.1 hx
    rw [Function.update_self, Function.update_of_ne (hne x hmem)]
    exact hclock x hv
  · refine (horder.sublist ((List.eraseIdx_sublist L q).filter _)).imp_of_mem ?_
    intro x y hx hy hxy
    rw [Function.update_of_ne (hne x (List.mem_filter.1 hx).1),
      Function.update_of_ne (hne y (List.mem_filter.1 hy).1)]
    exact hxy

end Order

section Step

variable {r : TagRun} {L : List Nat} {b q : Nat}

/-- A lookup of a line that is not stale finds the block that holds it. -/
theorem TagsOk.findBlock (h : TagsOk p r L) {k : LineKey} (hk : k ∉ r.stale) : ∃ o, r.tags.findBlock k = some o ∧
      ∀ b, o = some b ↔ (r.tags.blks b).isValid = true ∧ keyOf r.tags.blks b = k := by
  unfold FALRU.findBlock
  cases hh : r.tags.tagHash k with
  | none =>
    refine ⟨none, rfl, fun b => ⟨fun e => (nomatch e), ?_⟩⟩
    rintro ⟨hv, rfl⟩
    rw [(h.hashOk.entry b hv).1] at hh
    cases hh
  | some x =>
    obtain ⟨hv, rfl⟩ := (h.hashOk.hash k x hh).resolve_right hk
    refine ⟨some x, ?_, fun b => ?_⟩
    · dsimp only
      rw [if_pos hv, if_pos ⟨rfl, rfl⟩]
    · constructor
      · rintro ⟨⟩
        exact ⟨hv, rfl⟩
      · rintro ⟨hv', hkey⟩
        rw [h.hashOk.keyOf_inj hv' hv hkey]

theorem TagsOk.hit (h : TagsOk p r L) (hv : (r.tags.blks b).isValid = true) {s : FALRU} {o : Option Nat}
    (hblks : s.blks = r.tags.blks) (hhash : s.tagHash = r.tags.tagHash) (htracked : Tracked p s (b :: L.eraseIdx q)) :
    TagsOk p (({ r with tags := s.recordAccess p o } : TagRun).use b) (b :: L.eraseIdx q) := by
  have hvalid : ∀ x, (s.blks x).isValid = (r.tags.blks x).isValid := fun x => by rw [hblks]
  refine ⟨htracked.congr rfl rfl rfl, ?_, fun x hx => ?_, ?_⟩
  · exact order_front htracked.nodup h.order (fun x hx => (h.clock x hx).2) ((hvalid b).trans hv)
      fun x _ => hvalid x
  · obtain ⟨hx, htime⟩ := h.clock x ((hvalid x).symm.trans hx)
    refine ⟨hx, ?_⟩
    show Function.update r.lastUse b r.time x < r.time + 1
    by_cases e : x = b
    · subst e
      rw [Function.update_self]
      exact Nat.lt_succ_self _
    · rw [Function.update_of_ne e]
      omega
  · show HashOk s.blks s.tagHash r.stale
    rw [hblks, hhash]
    exact h.hashOk

theorem TagsOk.fill (h : TagsOk p r L) (hok : p.TrackOk) {k : LineKey} {whenReady : Nat} {s : FALRU}
    (hk : ∀ b, (r.tags.blks b).isValid = true → keyOf r.tags.blks b ≠ k)
    (hother : (r.tags.blks r.tags.tail).isValid = true → TagRun.NoOther r.tags.blks r.tags.tail)
    (hfill : r.tags.fill p k whenReady = some s) : TagsOk p (({ r with
      tags := s
      stale := (if (r.tags.blks r.tags.tail).isValid then
          TagRun.afterInvalidate r.stale (keyOf r.tags.blks r.tags.tail)
        else r.stale).filter (· ≠ k) } : TagRun).use r.tags.tail)
      (r.tags.tail :: L.eraseIdx (L.length - 1)) := by
  obtain ⟨l, M, B, hspec, htracked⟩ := fill_spec h.tracked hok k whenReady
  rw [hspec] at hfill
  cases hfill
  refine ⟨htracked.congr rfl rfl rfl, ?_, fun x hx => ?_, ?_⟩
  · refine order_front htracked.nodup h.order (fun x hx => (h.clock x hx).2) ?_ fun x hx => ?_
    · show (Function.update r.tags.blks r.tags.tail (filled k whenReady) r.tags.tail).isValid = true
      rw [Function.update_self]
      rfl
    · show (Function.update r.tags.blks r.tags.tail (filled k whenReady) x).isValid = _
      rw [Function.update_of_ne hx]
  · show x < p.numBlocks ∧ Function.update r.lastUse r.tags.tail r.time x < r.time + 1
    by_cases e : x = r.tags.tail
    · subst e
      rw [Function.update_self]
      exact ⟨h.tracked.tail_lt, Nat.lt_succ_self _⟩
    · change (Function.update r.tags.blks r.tags.tail (filled k whenReady) x).isValid = true at hx
      rw [Function.update_of_ne e] at hx ⊢
      have := h.clock x hx
      omega
  · show HashOk (Function.update r.tags.blks r.tags.tail (filled k whenReady)) (Function.update _ k _) _
    cases hv : (r.tags.blks r.tags.tail).isValid with
    | false =>
      simp only [Bool.false_eq_true, if_false]
      exact h.hashOk.insert hv hk whenReady
    | true =>
      simp only [if_true]
      have hinv := h.hashOk.invalidate hv (hother hv)
      have hins := hinv.insert (b := r.tags.tail) (k := k) (by rw [Function.update_self]; rfl)
        (fun x hx => by
          have hne : x ≠ r.tags.tail := by
            rintro rfl
            rw [Function.update_self] at hx
            cases hx
          rw [Function.update_of_ne hne] at hx
          rw [keyOf_update_ne hne]
          exact hk x hx) whenReady
      rw [Function.update_idem] at hins
      exact hins

theorem TagsOk.invalidate (h : TagsOk p r L) (hok : p.TrackOk) {s : FALRU}
    (hother : TagRun.NoOther r.tags.blks b) (hinv : r.tags.invalidateBlock p b = some s) : ∃ L', TagsOk p { r with
      tags := s, stale := TagRun.afterInvalidate r.stale (keyOf r.tags.blks b) } L' := by
  have hv : (r.tags.blks b).isValid = true := by
    by_contra hv
    unfold FALRU.invalidateBlock FALRU.invalidate at hinv
    rw [if_neg hv] at hinv
    cases hinv
  obtain ⟨q, hq⟩ := h.tracked.exists_pos (h.clock b hv).1
  obtain ⟨l, M, B, hspec, htracked⟩ := invalidateBlock_spec h.tracked hok hq hv
  rw [hspec] at hinv
  cases hinv
  have hnodup := htracked.nodup
  refine ⟨_, htracked.congr rfl rfl rfl, ?_, fun x hx => ?_, h.hashOk.invalidate hv hother⟩
  · have hfilter : ((L.eraseIdx q ++ [b]).filter fun x =>
        (Function.update r.tags.blks b CacheBlk.invalidated x).isValid) =
        (L.eraseIdx q).filter fun x => (r.tags.blks x).isValid := by
      rw [List.filter_append, List.filter_cons_of_neg (by rw [Function.update_self]; decide), List.filter_nil,
        List.append_nil]
      refine List.filter_congr fun x hx => ?_
      have hne : x ≠ b := by
        rintro rfl
        exact (List.nodup_append.1 hnodup).2.2 x hx x List.mem_cons_self rfl
      rw [Function.update_of_ne hne]
    show List.Pairwise _ ((L.eraseIdx q ++ [b]).filter _)
    rw [hfilter]
    exact h.order.sublist ((List.eraseIdx_sublist L q).filter _)
  · have hne : x ≠ b := by
      rintro rfl
      change (Function.update r.tags.blks x CacheBlk.invalidated x).isValid = true at hx
      rw [Function.update_self] at hx
      cases hx
    change (Function.update r.tags.blks b CacheBlk.invalidated x).isValid = true at hx
    rw [Function.update_of_ne hne] at hx
    exact h.clock x hx

theorem TagsOk.step (hok : p.TrackOk) {c : TagCall} {r' : TagRun} (h : TagsOk p r L)
    (hc : TagRun.StepOk p r c) (hstep : TagRun.step p r c = some r') : ∃ L', TagsOk p r' L' := by
  cases c with
  | accessBlock addr isSecure curTick =>
    cases hfind : r.tags.findBlock (p.extractTag addr, isSecure) with
    | none =>
      have hnone : r.tags.accessBlock p curTick (p.extractTag addr, isSecure) = none := by
        unfold FALRU.accessBlock
        rw [hfind]
        rfl
      unfold TagRun.step at hstep
      simp only [hnone] at hstep
      cases hstep
    | some o =>
      by_cases hhit : ∃ x, o = some x ∧ (r.tags.blks x).isValid = true
      · obtain ⟨x, rfl, hv⟩ := hhit
        obtain ⟨q, hq⟩ := h.tracked.exists_pos (h.clock x hv).1
        obtain ⟨s, lat, hacc, htracked, hblks, hhash, -⟩ :=
          accessBlock_hit h.tracked hok hq hfind hv curTick
        unfold TagRun.step at hstep
        simp only [hacc, Option.bind_eq_bind, Option.bind_some, Option.filter_some, hv, if_true,
          Option.some.injEq] at hstep
        subst hstep
        exact ⟨_, h.hit hv hblks hhash htracked⟩
      · have hmiss : ∀ x, o = some x → (r.tags.blks x).isValid = false := fun x hx =>
          Bool.eq_false_iff.2 fun hv => hhit ⟨x, hx, hv⟩
        have hfilter : (o.filter fun b => (r.tags.blks b).isValid) = none := by
          cases o with
          | none => rfl
          | some x => simp [hmiss x rfl]
        unfold TagRun.step at hstep
        simp only [accessBlock_miss hfind hmiss, Option.bind_eq_bind, Option.bind_some, hfilter,
          Option.some.injEq] at hstep
        subst hstep
        exact ⟨L, h.tracked.congr rfl rfl rfl, h.order, h.clock, h.hashOk⟩
  | findBlock addr isSecure =>
    obtain ⟨o, -, hr⟩ := Option.bind_eq_some_iff.1 hstep
    cases hr
    exact ⟨L, h⟩
  | fill addr isSecure whenReady =>
    obtain ⟨s, hfill, hr⟩ := Option.bind_eq_some_iff.1 hstep
    cases hr
    exact ⟨_, h.fill hok hc.1 hc.2 hfill⟩
  | invalidateBlock blk =>
    obtain ⟨s, hinv, hr⟩ := Option.bind_eq_some_iff.1 hstep
    cases hr
    exact h.invalidate hok hc hinv

theorem tagsOk_start (hok : p.TrackOk) (hn : 2 ≤ p.numBlocks) (mask : Nat → BitVec 32)
    (boundaries : Nat → Option Nat) (hmask : p.numTrackedCaches = 0 → ∀ x, mask x = 0) :
    TagsOk p (TagRun.start p mask boundaries) (List.range p.numBlocks) := by
  have htracked := tracked_new hok hn mask boundaries hmask
  obtain ⟨M, B, hnew⟩ := new_frame (p := p) mask boundaries
  have hvalid : ∀ b, ((new p mask boundaries).blks b).isValid = false := fun b => by rw [hnew]; rfl
  have hhash : ∀ k, (new p mask boundaries).tagHash k = none := fun k => by rw [hnew]; rfl
  have hnot : ∀ {b : Nat} {P : Prop}, ((new p mask boundaries).blks b).isValid = true → P := by
    intro b P hb
    rw [hvalid] at hb
    cases hb
  refine ⟨htracked, ?_, fun b hb => hnot hb, fun b hb => hnot hb, fun k b hb => ?_, fun k hk => ?_⟩
  · have hnil : (List.range p.numBlocks).filter (fun b => ((new p mask boundaries).blks b).isValid) = [] :=
      List.filter_eq_nil_iff.2 fun b _ => by simp [hvalid b]
    show List.Pairwise _ ((List.range p.numBlocks).filter fun b => ((new p mask boundaries).blks b).isValid)
    rw [hnil]
    exact .nil
  · change (new p mask boundaries).tagHash k = some b at hb
    rw [hhash] at hb
    cases hb
  · exact absurd hk List.not_mem_nil

end Step

/-- The tag store is a map from lines to blocks: lookups find the valid block with the line, and the hash
table has the entries of the valid blocks. -/
structure IsMap (s : FALRU) : Prop where
  find : ∀ k, ∃ o, s.findBlock k = some o ∧
    ∀ b, o = some b ↔ (s.blks b).isValid = true ∧ keyOf s.blks b = k
  hash : ∀ k b, s.tagHash k = some b ↔ (s.blks b).isValid = true ∧ keyOf s.blks b = k

theorem TagsOk.isMap_iff {r : TagRun} {L : List Nat} (h : TagsOk p r L) : IsMap r.tags ↔ r.stale = [] := by
  constructor
  · intro hmap
    refine List.eq_nil_iff_forall_not_mem.2 fun k hk => ?_
    obtain ⟨b, hb⟩ := h.hashOk.stale k hk
    obtain ⟨hv, rfl⟩ := (hmap.hash k b).1 hb
    exact (h.hashOk.entry b hv).2 hk
  · intro hnil
    have hfresh : ∀ k, k ∉ r.stale := fun k => by simp [hnil]
    refine ⟨fun k => h.findBlock (hfresh k), fun k b => ⟨fun hb => ?_, ?_⟩⟩
    · exact (h.hashOk.hash k b hb).resolve_right (hfresh k)
    · rintro ⟨hv, rfl⟩
      exact (h.hashOk.entry b hv).1

/-- **The tag store is a map in LRU order exactly as long as no line is stale.** -/
theorem falru_map (hok : p.TrackOk) (hn : 2 ≤ p.numBlocks) {mask : Nat → BitVec 32}
    {boundaries : Nat → Option Nat} (hmask : p.numTrackedCaches = 0 → ∀ x, mask x = 0) {r : TagRun}
    (h : Run.Reaches (TagRun.step p) (TagRun.StepOk p) (TagRun.start p mask boundaries) r) :
    (∃ L, r.tags.toLinks.Linked L ∧ L.Perm (List.range p.numBlocks) ∧
      (L.filter fun b => (r.tags.blks b).isValid).Pairwise fun b b' => r.lastUse b' < r.lastUse b) ∧
    (∀ k whenReady, (r.tags.fill p k whenReady).isSome = true) ∧
    (∀ k, k ∉ r.stale → ∃ o, r.tags.findBlock k = some o ∧
      ∀ b, o = some b ↔ (r.tags.blks b).isValid = true ∧ keyOf r.tags.blks b = k) ∧
    (IsMap r.tags ↔ r.stale = []) := by
  obtain ⟨L, hL⟩ : ∃ L, TagsOk p r L := by
    refine h.inv (P := fun r => ∃ L, TagsOk p r L) ⟨_, tagsOk_start hok hn mask boundaries hmask⟩ ?_
    rintro t c t' ⟨L, ht⟩ hc hstep
    exact ht.step hok hc hstep
  refine ⟨⟨L, hL.tracked.linked, hL.tracked.perm, hL.order⟩, fun k whenReady => ?_,
    fun k hk => hL.findBlock hk, hL.isMap_iff⟩
  obtain ⟨l, M, B, hfill, -⟩ := fill_spec hL.tracked hok k whenReady
  rw [hfill]
  rfl

theorem fourBlocks_pow : ∃ k, 256 = 2 ^ k := ⟨8, rfl⟩

/-- Four blocks of 64 bytes, and one tracked cache of two. -/
def fourBlocks : FALRUParams where
  size := 256
  blkSize := 64
  minTrackedSize := 128
  fits := by decide
  blkPow := ⟨6, rfl⟩
  sizePow := fourBlocks_pow
  minPos := fun _ => by decide

theorem fourBlocks_trackOk : fourBlocks.TrackOk := fun _ => ⟨⟨2, rfl⟩, Nat.le_refl 128⟩

/-- One line is inserted and used again. -/
theorem falru_map_one_line : ∃ r, Run.Reaches (TagRun.step fourBlocks) (TagRun.StepOk fourBlocks)
    (TagRun.start fourBlocks (fun _ => 0) (fun _ => none)) r ∧ r.tags.head = 3 ∧ IsMap r.tags := by
  have h0 : Run.Reaches (TagRun.step fourBlocks) (TagRun.StepOk fourBlocks)
    (TagRun.start fourBlocks (fun _ => 0) (fun _ => none)) _ := .refl
  have h1 := h0.step (i := TagCall.fill 70 false 0) ⟨fun b hb => (nomatch hb), fun hv => (nomatch hv)⟩ rfl
  have h2 := h1.step (i := TagCall.accessBlock 64 false 5) trivial rfl
  have hmap := falru_map fourBlocks_trackOk (by decide) (fun h => (nomatch h)) h2
  exact ⟨_, h2, rfl, hmap.2.2.2.2 rfl⟩

/-- A line is inserted and invalidated, its block is given to another line: the lookup of the first line
fails an assertion. -/
theorem falru_stale_entry : ∃ r, Run.Reaches (TagRun.step fourBlocks) (fun _ _ => True)
    (TagRun.start fourBlocks (fun _ => 0) (fun _ => none)) r ∧
      (∀ b < 4, (r.tags.blks b).isValid = true → keyOf r.tags.blks b = (64, false)) ∧
      r.tags.findBlock (0, false) = none := by
  have h0 : Run.Reaches (TagRun.step fourBlocks) (fun _ _ => True)
    (TagRun.start fourBlocks (fun _ => 0) (fun _ => none)) _ := .refl
  have h1 := h0.step (i := TagCall.fill 0 false 0) trivial rfl
  have h2 := h1.step (i := TagCall.invalidateBlock 3) trivial rfl
  have h3 := h2.step (i := TagCall.fill 64 false 0) trivial rfl
  exact ⟨_, h3, by decide, rfl⟩

end Alpine.Mem
