import Alpine.Lib.Run
import Alpine.Mem.SectorGeometry

/-!
# Sectored tags (`mem/cache/tags/sector_tags.cc`, `mem/cache/sector_blk.cc`)

The tags of a sector are kept once, the validity and the security state for each of its blocks.  A run fills
blocks after a miss, as `BaseCache::handleFill` does, and invalidates valid blocks.

* `findBlock`, `findVictim`, `insertBlock`, `invalidate` as in the source; a failed assertion or a panic is
  `none`.
* `Uniform` — the valid blocks of a sector share its tag and one security state.
* `Consistent` — the invariant; `fill_spec` and `invalidate_spec` keep it.
* `sectors_sound` — no aliases, lookups are exact, no panic, and `tagsInUse` counts the sectors in use.
-/

namespace Alpine.Mem.Sector

variable {g : Geometry}

/-- `SectorSubBlk`: its own tag and the bits of its status. -/
structure SubBlk where
  tag : Nat
  valid : Bool
  secure : Bool

/-- `CacheBlk::invalidate`. -/
def SubBlk.invalid : SubBlk := ⟨2 ^ 64 - 1, false, false⟩

/-- `SectorBlk`. -/
structure SectorBlk (g : Geometry) where
  tag : Nat
  blks : Fin g.numBlocksPerSector → SubBlk

namespace SectorBlk

def isValid (s : SectorBlk g) : Bool := (List.finRange g.numBlocksPerSector).any fun k => (s.blks k).valid

/-- The security state of the first valid block. -/
def isSecure (s : SectorBlk g) : Bool :=
  match (List.finRange g.numBlocksPerSector).find? fun k => (s.blks k).valid with
  | some k => (s.blks k).secure
  | none => false

def setBlk (s : SectorBlk g) (k : Fin g.numBlocksPerSector) (b : SubBlk) : SectorBlk g :=
  { s with blks := Function.update s.blks k b }

end SectorBlk

/-- Where a sector is: its set and its way. -/
abbrev Place (g : Geometry) := Fin g.numSets × Fin g.assoc

structure SectorTags (g : Geometry) where
  sets : Place g → SectorBlk g
  tagsInUse : Int

namespace SectorTags

variable (t : SectorTags g)

/-- `SectorTags::invalidate`, with `BaseTags::invalidate`. -/
def invalidate (p : Place g) (k : Fin g.numBlocksPerSector) : Option (SectorTags g) :=
  if !((t.sets p).blks k).valid then none else
  let s := (t.sets p).setBlk k .invalid
  some ⟨Function.update t.sets p s, if s.isValid then t.tagsInUse else t.tagsInUse - 1⟩

/-- `SectorTags::insertBlock`, with `BaseTags::insertBlock` and `SectorSubBlk::insert`. -/
def insertBlock (addr : Nat) (is_secure : Bool) (p : Place g) (k : Fin g.numBlocksPerSector) :
    Option (SectorTags g) :=
  let s := t.sets p
  let tag := g.extractTag addr
  if (s.blks k).valid then none
  else if s.isValid && (s.tag ≠ tag || s.isSecure ≠ is_secure) then none
  else
    let s' := { s.setBlk k ⟨tag, false, is_secure⟩ with tag := tag }
    some ⟨Function.update t.sets p s', if s'.isValid then t.tagsInUse else t.tagsInUse + 1⟩

/-- `blk->status |= BlkValid`. -/
def setValid (p : Place g) (k : Fin g.numBlocksPerSector) : SectorTags g :=
  let b := (t.sets p).blks k
  { t with sets := Function.update t.sets p ((t.sets p).setBlk k { b with valid := true }) }

/-- `SectorTags::findBlock`: the place and the offset of the block. -/
def findBlock (addr : Nat) (is_secure : Bool) : Option (Place g × Fin g.numBlocksPerSector) :=
  let set := g.extractSet addr
  let offset := g.extractSectorOffset addr
  ((List.finRange g.assoc).find? fun way =>
    let s := t.sets (set, way)
    s.tag = g.extractTag addr && (s.blks offset).valid && (s.blks offset).secure = is_secure).map
      fun way => ((set, way), offset)

/-- `SectorTags::findVictim`: the way of the victim, and the offsets of the blocks to evict.  `policy` is the
way that the replacement policy chooses. -/
def findVictim (addr : Nat) (is_secure : Bool) (policy : Fin g.assoc) :
    Option (Fin g.assoc × List (Fin g.numBlocksPerSector)) :=
  let set := g.extractSet addr
  let tag := g.extractTag addr
  let way := ((List.finRange g.assoc).find? fun way =>
    let s := t.sets (set, way)
    tag = s.tag && s.isValid && is_secure = s.isSecure).getD policy
  let s := t.sets (set, way)
  if tag = s.tag && is_secure = s.isSecure then
    if (s.blks (g.extractSectorOffset addr)).valid then none else some (way, [])
  else some (way, List.finRange g.numBlocksPerSector)

/-- The valid blocks of a list are evicted. -/
def evictBlocks (p : Place g) (ks : List (Fin g.numBlocksPerSector)) : Option (SectorTags g) :=
  ks.foldlM (fun t k => if ((t.sets p).blks k).valid then t.invalidate p k else some t) t

/-- `regenerateBlkAddr`. -/
def regenerateBlkAddr (b : Place g × Fin g.numBlocksPerSector) : Nat :=
  g.regenerateAddr (t.sets b.1).tag b.1.1 b.2

/-- The block at a place. -/
def blk (b : Place g × Fin g.numBlocksPerSector) : SubBlk := (t.sets b.1).blks b.2

/-- A block is allocated after a miss and becomes valid. -/
def fill (addr : Nat) (is_secure : Bool) (policy : Fin g.assoc) : Option (SectorTags g) := do
  let (way, evict_blks) ← t.findVictim addr is_secure policy
  let p := (g.extractSet addr, way)
  let t ← t.evictBlocks p evict_blks
  let t ← t.insertBlock addr is_secure p (g.extractSectorOffset addr)
  return t.setValid p (g.extractSectorOffset addr)

/-- The sectors with a valid block. -/
def sectorsInUse : Nat := (Finset.univ.filter fun p => (t.sets p).isValid = true).card

end SectorTags

/-! ## Runs -/

inductive Op (g : Geometry) where
  | fill (addr : Nat) (is_secure : Bool) (policy : Fin g.assoc)
  | invalidate (p : Place g) (k : Fin g.numBlocksPerSector)

def SectorTags.step (t : SectorTags g) : Op g → Option (SectorTags g)
  | .fill addr is_secure policy => t.fill addr is_secure policy
  | .invalidate p k => t.invalidate p k

/-- What the cache does: it fills blocks of 64-bit addresses that it has not found, and invalidates valid
blocks. -/
def SectorTags.Permitted (t : SectorTags g) : Op g → Prop
  | .fill addr is_secure _ => addr < 2 ^ 64 ∧ t.findBlock addr is_secure = none
  | .invalidate p k => (t.blk (p, k)).valid = true

/-- The tags as they are constructed. -/
def SectorTags.initial (g : Geometry) : SectorTags g := ⟨fun _ => ⟨2 ^ 64 - 1, fun _ => .invalid⟩, 0⟩

/-- What sectored tags are for. -/
structure SectorTags.Sound (t : SectorTags g) : Prop where
  shared : ∀ p k k', (t.blk (p, k)).valid = true → (t.blk (p, k')).valid = true →
    (t.blk (p, k)).tag = (t.sets p).tag ∧ (t.blk (p, k)).secure = (t.blk (p, k')).secure
  single : ∀ b b', (t.blk b).valid = true → (t.blk b').valid = true →
    t.regenerateBlkAddr b = t.regenerateBlkAddr b' → (t.blk b).secure = (t.blk b').secure → b = b'
  found : ∀ addr < 2 ^ 64, ∀ is_secure b, t.findBlock addr is_secure = some b ↔
    (t.blk b).valid = true ∧ (t.blk b).secure = is_secure ∧ t.regenerateBlkAddr b = g.line addr
  noPanic : ∀ op, t.Permitted op → (t.step op).isSome = true
  counted : t.tagsInUse = t.sectorsInUse

/-! ## One sector -/

/-- The valid blocks of a sector share its tag, which is that of an address, and one security state. -/
structure SectorBlk.Uniform (s : SectorBlk g) : Prop where
  tags : ∀ k, (s.blks k).valid = true → (s.blks k).tag = s.tag
  addr : s.isValid = true → ∃ a < 2 ^ 64, g.extractTag a = s.tag
  secure : ∀ k, (s.blks k).valid = true → (s.blks k).secure = s.isSecure

namespace SectorBlk

variable {s : SectorBlk g} {k : Fin g.numBlocksPerSector} {b : SubBlk}

theorem isValid_iff : s.isValid = true ↔ ∃ k, (s.blks k).valid = true := by
  unfold isValid
  rw [List.any_eq_true]
  exact ⟨fun ⟨k, _, hk⟩ => ⟨k, hk⟩, fun ⟨k, hk⟩ => ⟨k, List.mem_finRange k, hk⟩⟩

/-- If all valid blocks have one security state, the sector has it. -/
theorem isSecure_eq {sec : Bool} (hall : ∀ k, (s.blks k).valid = true → (s.blks k).secure = sec)
    (hk : (s.blks k).valid = true) : s.isSecure = sec := by
  unfold isSecure
  split
  · rename_i k' hfind
    have hmem := List.find?_some hfind
    exact hall k' hmem
  · rename_i hfind
    exact absurd hk (List.find?_eq_none.1 hfind k (List.mem_finRange k))

theorem setBlk_self : (s.setBlk k b).blks k = b := Function.update_self ..

theorem setBlk_of_ne {k' : Fin g.numBlocksPerSector} (h : k' ≠ k) : (s.setBlk k b).blks k' = s.blks k' :=
  Function.update_of_ne h ..

theorem valid_of_setBlk_invalid {k' : Fin g.numBlocksPerSector} (h : ((s.setBlk k .invalid).blks k').valid = true) :
    (s.setBlk k .invalid).blks k' = s.blks k' := by
  by_cases hk : k' = k
  · subst hk
    rw [setBlk_self] at h
    cases h
  · exact setBlk_of_ne hk

theorem Uniform.invalidate (h : s.Uniform) (k : Fin g.numBlocksPerSector) : (s.setBlk k .invalid).Uniform := by
  have hsec : ∀ k', ((s.setBlk k .invalid).blks k').valid = true →
      ((s.setBlk k .invalid).blks k').secure = s.isSecure := by
    intro k' hk'
    have heq := valid_of_setBlk_invalid hk'
    rw [heq] at hk' ⊢
    exact h.secure k' hk'
  refine ⟨fun k' hk' => ?_, fun hv => ?_, fun k' hk' => ?_⟩
  · have heq := valid_of_setBlk_invalid hk'
    rw [heq] at hk' ⊢
    exact h.tags k' hk'
  · obtain ⟨k', hk'⟩ := isValid_iff.1 hv
    have heq := valid_of_setBlk_invalid hk'
    rw [heq] at hk'
    exact h.addr (isValid_iff.2 ⟨k', hk'⟩)
  · rw [hsec k' hk', isSecure_eq hsec hk']

/-- A sector that stays valid keeps its security state. -/
theorem Uniform.isSecure_invalidate (h : s.Uniform) (hv : (s.setBlk k .invalid).isValid = true) :
    s.isValid = true ∧ (s.setBlk k .invalid).isSecure = s.isSecure := by
  obtain ⟨k', hk'⟩ := isValid_iff.1 hv
  have hsec := (h.invalidate k).secure k' hk'
  have heq := valid_of_setBlk_invalid hk'
  rw [heq] at hk' hsec
  exact ⟨isValid_iff.2 ⟨k', hk'⟩, hsec.symm.trans (h.secure k' hk')⟩

end SectorBlk

/-! ## The invariant -/

/-- The sectors are uniform, no two valid ones of a set have the same tag and security state, and `tagsInUse`
counts the valid ones. -/
structure Consistent (t : SectorTags g) : Prop where
  uniform : ∀ p, (t.sets p).Uniform
  unique : ∀ i j j', (t.sets (i, j)).isValid = true → (t.sets (i, j')).isValid = true →
    (t.sets (i, j)).tag = (t.sets (i, j')).tag → (t.sets (i, j)).isSecure = (t.sets (i, j')).isSecure → j = j'
  counted : t.tagsInUse = t.sectorsInUse

section Invariant

variable {t t' : SectorTags g} {p : Place g} {k : Fin g.numBlocksPerSector} {addr : Nat} {is_secure : Bool}

/-- Another sector at one place changes the count by that place only. -/
theorem sectorsInUse_update (sets : Place g → SectorBlk g) (n n' : Int) (p : Place g) (s : SectorBlk g) :
    ((⟨Function.update sets p s, n⟩ : SectorTags g).sectorsInUse : Int) =
      (⟨sets, n'⟩ : SectorTags g).sectorsInUse - (if (sets p).isValid then 1 else 0) +
        (if s.isValid then 1 else 0) := by
  have hsum : ∀ f : Place g → SectorBlk g, ∀ n, ((⟨f, n⟩ : SectorTags g).sectorsInUse : Int) =
      (if (f p).isValid then 1 else 0) +
        ∑ q ∈ Finset.univ.erase p, if (f q).isValid then (1 : Int) else 0 := by
    intro f n
    unfold SectorTags.sectorsInUse
    rw [Finset.card_filter, Nat.cast_sum, ← Finset.add_sum_erase _ _ (Finset.mem_univ p)]
    push_cast
    rfl
  rw [hsum, hsum sets, Function.update_self]
  have hrest : ∑ q ∈ Finset.univ.erase p, (if (Function.update sets p s q).isValid then (1 : Int) else 0) =
      ∑ q ∈ Finset.univ.erase p, if (sets q).isValid then (1 : Int) else 0 := by
    refine Finset.sum_congr rfl fun q hq => ?_
    rw [Function.update_of_ne (Finset.ne_of_mem_erase hq)]
  rw [hrest]
  ring

/-- The invariant when the sector at one place is replaced. -/
theorem Consistent.update (h : Consistent t) {s : SectorBlk g} {n : Int} (hs : s.Uniform)
    (hunique : s.isValid = true → ∀ j, j ≠ p.2 → (t.sets (p.1, j)).isValid = true →
      (t.sets (p.1, j)).tag = s.tag → (t.sets (p.1, j)).isSecure ≠ s.isSecure)
    (hn : n = t.tagsInUse - (if (t.sets p).isValid then 1 else 0) + (if s.isValid then 1 else 0)) :
    Consistent ⟨Function.update t.sets p s, n⟩ where
  uniform q := by
    dsimp only
    by_cases hq : q = p
    · rw [hq, Function.update_self]
      exact hs
    · rw [Function.update_of_ne hq]
      exact h.uniform q
  unique i j j' := by
    dsimp only
    obtain ⟨pi, pj⟩ := p
    by_cases hj : (i, j) = (pi, pj)
    · obtain ⟨rfl, rfl⟩ := Prod.mk.inj hj
      by_cases hj' : j' = j
      · exact fun _ _ _ _ => hj'.symm
      · rw [Function.update_self, Function.update_of_ne (fun he => hj' (Prod.mk.inj he).2)]
        intro hv hv' htag hsec
        exact absurd hsec.symm (hunique hv j' hj' hv' htag.symm)
    · rw [Function.update_of_ne hj]
      by_cases hj' : (i, j') = (pi, pj)
      · obtain ⟨rfl, rfl⟩ := Prod.mk.inj hj'
        rw [Function.update_self]
        intro hv hv' htag hsec
        exact absurd hsec (hunique hv' j (fun he => hj (by rw [he])) hv htag)
      · rw [Function.update_of_ne hj']
        exact h.unique i j j'
  counted := by
    rw [sectorsInUse_update t.sets n t.tagsInUse p s, hn, h.counted]
    rfl

theorem invalidate_spec (h : Consistent t) (hv : ((t.sets p).blks k).valid = true) :
    ∃ t', t.invalidate p k = some t' ∧ Consistent t' ∧
      t'.sets = Function.update t.sets p ((t.sets p).setBlk k .invalid) := by
  have hs := h.uniform p
  have hpv : (t.sets p).isValid = true := SectorBlk.isValid_iff.2 ⟨k, hv⟩
  unfold SectorTags.invalidate
  rw [hv, Bool.not_true, if_neg Bool.false_ne_true]
  refine ⟨_, rfl, h.update (hs.invalidate k) (fun hsv j hj hjv htag hsec => ?_) ?_, rfl⟩
  · rw [(hs.isSecure_invalidate hsv).2] at hsec
    exact hj (h.unique p.1 j p.2 hjv hpv htag hsec)
  · rw [hpv, if_pos rfl]
    split
    · omega
    · omega

/-- What an eviction leaves: the other sectors, and of its own sector no block that was listed. -/
structure Evicted (p : Place g) (ks : List (Fin g.numBlocksPerSector)) (t t' : SectorTags g) : Prop where
  consistent : Consistent t'
  others : ∀ q, q ≠ p → t'.sets q = t.sets q
  listed : ∀ k ∈ ks, ((t'.sets p).blks k).valid = false
  kept : ∀ k, ((t.sets p).blks k).valid = false → ((t'.sets p).blks k).valid = false

theorem evictBlocks_spec : ∀ (ks : List (Fin g.numBlocksPerSector)) {t : SectorTags g}, Consistent t →
    ∃ t', t.evictBlocks p ks = some t' ∧ Evicted p ks t t'
  | [], t, h => ⟨t, rfl, h, fun _ _ => rfl, fun _ hk => absurd hk List.not_mem_nil, fun _ hk => hk⟩
  | k :: ks, t, h => by
    unfold SectorTags.evictBlocks
    rw [List.foldlM_cons]
    cases hv : ((t.sets p).blks k).valid with
    | false =>
      obtain ⟨t', hrun, he⟩ := evictBlocks_spec ks h
      refine ⟨t', ?_, he.consistent, he.others, fun k' hk' => ?_, he.kept⟩
      · rw [if_neg Bool.false_ne_true]
        exact hrun
      · rcases List.mem_cons.1 hk' with rfl | hk'
        · exact he.kept k' hv
        · exact he.listed k' hk'
    | true =>
      obtain ⟨t1, hinv, h1, hsets⟩ := invalidate_spec h hv
      obtain ⟨t', hrun, he⟩ := evictBlocks_spec ks h1
      have hblks : ∀ k', ((t1.sets p).blks k').valid = true →
          k' ≠ k ∧ ((t.sets p).blks k').valid = true := by
        intro k' hk'
        rw [hsets, Function.update_self] at hk'
        have heq := SectorBlk.valid_of_setBlk_invalid hk'
        rw [heq] at hk'
        refine ⟨?_, hk'⟩
        rintro rfl
        rw [SectorBlk.setBlk_self] at heq
        rw [← heq] at hk'
        cases hk'
      refine ⟨t', ?_, he.consistent, fun q hq => ?_, fun k' hk' => ?_, fun k' hk' => he.kept k' ?_⟩
      · rw [if_pos rfl, hinv]
        exact hrun
      · rw [he.others q hq, hsets, Function.update_of_ne hq]
      · rcases List.mem_cons.1 hk' with rfl | hk'
        · refine he.kept k' (Bool.eq_false_iff.2 fun hv' => ?_)
          exact (hblks k' hv').1 rfl
        · exact he.listed k' hk'
      · refine Bool.eq_false_iff.2 fun hv' => ?_
        rw [(hblks k' hv').2] at hk'
        cases hk'

/-- A block is inserted and becomes valid, if its sector is the one of its tag or is not in use, and no other
way has that sector. -/
theorem place_spec (is_secure : Bool) (h : Consistent t) (ha : addr < 2 ^ 64) (hk : ((t.sets p).blks k).valid = false)
    (hsector : (t.sets p).isValid = true → (t.sets p).tag = g.extractTag addr ∧ (t.sets p).isSecure = is_secure)
    (hunique : ∀ j, j ≠ p.2 → (t.sets (p.1, j)).isValid = true →
      (t.sets (p.1, j)).tag = g.extractTag addr → (t.sets (p.1, j)).isSecure ≠ is_secure) :
    ∃ t1, t.insertBlock addr is_secure p k = some t1 ∧ Consistent (t1.setValid p k) := by
  have hs := h.uniform p
  -- the sector after both steps
  let s : SectorBlk g := { (t.sets p).setBlk k ⟨g.extractTag addr, true, is_secure⟩ with
    tag := g.extractTag addr }
  have hself : s.blks k = ⟨g.extractTag addr, true, is_secure⟩ := SectorBlk.setBlk_self
  have hother : ∀ k', k' ≠ k → s.blks k' = (t.sets p).blks k' := fun k' hne => SectorBlk.setBlk_of_ne hne
  have hvalid : s.isValid = true := SectorBlk.isValid_iff.2 ⟨k, by rw [hself]⟩
  have hblks : ∀ k', (s.blks k').valid = true →
      (s.blks k').tag = g.extractTag addr ∧ (s.blks k').secure = is_secure := by
    intro k' hk'
    by_cases hne : k' = k
    · rw [hne, hself]
      exact ⟨rfl, rfl⟩
    · rw [hother k' hne] at hk' ⊢
      obtain ⟨htag, hsec⟩ := hsector (SectorBlk.isValid_iff.2 ⟨k', hk'⟩)
      exact ⟨(hs.tags k' hk').trans htag, (hs.secure k' hk').trans hsec⟩
  have hsecure : s.isSecure = is_secure :=
    SectorBlk.isSecure_eq (fun k' hk' => (hblks k' hk').2) (k := k) (by rw [hself])
  have huniform : s.Uniform :=
    ⟨fun k' hk' => (hblks k' hk').1, fun _ => ⟨addr, ha, rfl⟩,
      fun k' hk' => (hblks k' hk').2.trans hsecure.symm⟩
  have hcond : ¬ ((t.sets p).isValid &&
      ((t.sets p).tag ≠ g.extractTag addr || (t.sets p).isSecure ≠ is_secure)) = true := by
    intro hc
    obtain ⟨hv, hdiff⟩ := Bool.and_eq_true_iff.1 hc
    obtain ⟨htag, hsec⟩ := hsector hv
    rw [htag, hsec] at hdiff
    simp at hdiff
  -- the block that is inserted is not valid yet, so the test sees whether the sector was in use
  have hinuse : ({ (t.sets p).setBlk k ⟨g.extractTag addr, false, is_secure⟩ with
      tag := g.extractTag addr } : SectorBlk g).isValid = (t.sets p).isValid := by
    rw [Bool.eq_iff_iff, SectorBlk.isValid_iff, SectorBlk.isValid_iff]
    refine exists_congr fun k' => ?_
    dsimp only
    by_cases hne : k' = k
    · rw [hne, SectorBlk.setBlk_self, hk]
    · rw [SectorBlk.setBlk_of_ne hne]
  unfold SectorTags.insertBlock
  dsimp only
  rw [hk, if_neg Bool.false_ne_true, if_neg hcond, hinuse]
  refine ⟨_, rfl, ?_⟩
  unfold SectorTags.setValid
  dsimp only
  rw [Function.update_self, Function.update_idem]
  have hset : (SectorBlk.setBlk { (t.sets p).setBlk k ⟨g.extractTag addr, false, is_secure⟩ with
      tag := g.extractTag addr } k ⟨g.extractTag addr, true, is_secure⟩ : SectorBlk g) = s := by
    unfold SectorBlk.setBlk
    dsimp only
    rw [Function.update_idem]
    rfl
  rw [SectorBlk.setBlk_self, hset]
  refine h.update huniform (fun _ j hj hv htag => ?_) ?_
  · rw [hsecure]
    exact hunique j hj hv htag
  · rw [hvalid, if_pos rfl]
    split
    · omega
    · omega

/-- A lookup finds exactly the valid block of the line and the security state. -/
theorem findBlock_iff (is_secure : Bool) (h : Consistent t) (ha : addr < 2 ^ 64)
    {b : Place g × Fin g.numBlocksPerSector} : t.findBlock addr is_secure = some b ↔
      (t.blk b).valid = true ∧ (t.blk b).secure = is_secure ∧ t.regenerateBlkAddr b = g.line addr := by
  unfold SectorTags.findBlock
  rw [Option.map_eq_some_iff]
  constructor
  · rintro ⟨way, hfind, rfl⟩
    have hmatch := List.find?_some hfind
    simp only [Bool.and_eq_true, decide_eq_true_eq] at hmatch
    obtain ⟨⟨htag, hv⟩, hsec⟩ := hmatch
    refine ⟨hv, hsec, ?_⟩
    unfold SectorTags.regenerateBlkAddr
    rw [htag]
    exact (g.regenerateAddr_iff ha _ _).2 ⟨rfl, rfl, rfl⟩
  · obtain ⟨⟨i, j⟩, k⟩ := b
    rintro ⟨hv, hsec, hline⟩
    have hvalid : (t.sets (i, j)).isValid = true := SectorBlk.isValid_iff.2 ⟨k, hv⟩
    obtain ⟨a, ha', htag⟩ := (h.uniform (i, j)).addr hvalid
    unfold SectorTags.regenerateBlkAddr at hline
    rw [← htag] at hline
    obtain ⟨htag', rfl, rfl⟩ := (g.regenerateAddr_iff ha' _ _).1 hline
    have hthere : ∃ way, (List.finRange g.assoc).find? (fun way =>
        (t.sets (g.extractSet addr, way)).tag = g.extractTag addr &&
        ((t.sets (g.extractSet addr, way)).blks (g.extractSectorOffset addr)).valid &&
        ((t.sets (g.extractSet addr, way)).blks (g.extractSectorOffset addr)).secure = is_secure) =
          some way := by
      refine Option.isSome_iff_exists.1 (List.find?_isSome.2 ⟨j, List.mem_finRange j, ?_⟩)
      simp only [Bool.and_eq_true, decide_eq_true_eq]
      exact ⟨⟨htag.symm.trans htag', hv⟩, hsec⟩
    obtain ⟨way, hfind⟩ := hthere
    have hmatch := List.find?_some hfind
    simp only [Bool.and_eq_true, decide_eq_true_eq] at hmatch
    obtain ⟨⟨htagw, hvw⟩, hsecw⟩ := hmatch
    refine ⟨way, hfind, ?_⟩
    have hway : way = j := by
      refine h.unique (g.extractSet addr) way j (SectorBlk.isValid_iff.2 ⟨_, hvw⟩) hvalid ?_ ?_
      · rw [htagw, ← htag', htag]
      · rw [← (h.uniform _).secure _ hvw, ← (h.uniform _).secure _ hv]
        exact hsecw.trans hsec.symm
    rw [hway]

/-- **A fill after a miss meets no panic and no failed assertion, and keeps the invariant.** -/
theorem fill_spec (h : Consistent t) (ha : addr < 2 ^ 64) (hmiss : t.findBlock addr is_secure = none)
    (policy : Fin g.assoc) : ∃ t', t.fill addr is_secure policy = some t' ∧ Consistent t' := by
  have hnot : ∀ way, (t.sets (g.extractSet addr, way)).tag = g.extractTag addr →
      (t.sets (g.extractSet addr, way)).isSecure = is_secure →
      ((t.sets (g.extractSet addr, way)).blks (g.extractSectorOffset addr)).valid = false := by
    intro way htag hsec
    refine Bool.eq_false_iff.2 fun hv => ?_
    have hfound : t.findBlock addr is_secure =
        some ((g.extractSet addr, way), g.extractSectorOffset addr) := by
      refine (findBlock_iff is_secure h ha).2 ⟨hv, ((h.uniform _).secure _ hv).trans hsec, ?_⟩
      unfold SectorTags.regenerateBlkAddr
      rw [htag]
      exact (g.regenerateAddr_iff ha _ _).2 ⟨rfl, rfl, rfl⟩
    rw [hfound] at hmiss
    cases hmiss
  unfold SectorTags.fill SectorTags.findVictim
  dsimp only
  cases hfind : (List.finRange g.assoc).find? (fun way =>
      g.extractTag addr = (t.sets (g.extractSet addr, way)).tag &&
      (t.sets (g.extractSet addr, way)).isValid &&
      is_secure = (t.sets (g.extractSet addr, way)).isSecure) with
  | some way =>
    -- the sector is present
    have hmatch := List.find?_some hfind
    simp only [Bool.and_eq_true, decide_eq_true_eq] at hmatch
    obtain ⟨⟨htag, hv⟩, hsec⟩ := hmatch
    have hk := hnot way htag.symm hsec.symm
    obtain ⟨t1, hins, hcons⟩ := place_spec (p := (g.extractSet addr, way)) is_secure h ha hk
      (fun _ => ⟨htag.symm, hsec.symm⟩) fun j hj hjv hjtag hjsec =>
        hj (h.unique _ j way hjv hv (hjtag.trans htag) (hjsec.trans hsec))
    rw [Option.getD_some, decide_eq_true htag, decide_eq_true hsec, Bool.and_true, if_pos rfl, hk,
      if_neg Bool.false_ne_true]
    refine ⟨_, ?_, hcons⟩
    show (t.insertBlock addr is_secure _ _).bind _ = _
    rw [hins]
    rfl
  | none =>
    have hout : ∀ way, (t.sets (g.extractSet addr, way)).isValid = true →
        (t.sets (g.extractSet addr, way)).tag = g.extractTag addr →
        (t.sets (g.extractSet addr, way)).isSecure ≠ is_secure := by
      intro way hv htag hsec
      have hno := List.find?_eq_none.1 hfind way (List.mem_finRange way)
      rw [decide_eq_true htag.symm, hv, decide_eq_true hsec.symm] at hno
      exact hno rfl
    rw [Option.getD_none]
    split
    · -- a sector that is not in use and still has the tag
      rename_i hsame
      simp only [Bool.and_eq_true, decide_eq_true_eq] at hsame
      have hk := hnot policy hsame.1.symm hsame.2.symm
      obtain ⟨t1, hins, hcons⟩ := place_spec (p := (g.extractSet addr, policy)) is_secure h ha hk
        (fun _ => ⟨hsame.1.symm, hsame.2.symm⟩) fun j _ hjv hjtag => hout j hjv hjtag
      rw [hk, if_neg Bool.false_ne_true]
      refine ⟨_, ?_, hcons⟩
      show (t.insertBlock addr is_secure _ _).bind _ = _
      rw [hins]
      rfl
    · -- another sector, which is evicted
      obtain ⟨t2, hevict, he⟩ := evictBlocks_spec (p := (g.extractSet addr, policy))
        (List.finRange g.numBlocksPerSector) h
      have hempty : ∀ k, ((t2.sets (g.extractSet addr, policy)).blks k).valid = false :=
        fun k => he.listed k (List.mem_finRange k)
      obtain ⟨t1, hins, hcons⟩ := place_spec
        (p := (g.extractSet addr, policy)) (k := g.extractSectorOffset addr) is_secure he.consistent ha
        (hempty _) (by
          intro hv
          obtain ⟨k, hk⟩ := SectorBlk.isValid_iff.1 hv
          rw [hempty k] at hk
          cases hk) (by
          intro j hj hjv hjtag
          rw [he.others _ fun heq => hj (Prod.mk.inj heq).2] at hjv hjtag ⊢
          exact hout j hjv hjtag)
      refine ⟨_, ?_, hcons⟩
      show (t.evictBlocks _ _).bind _ = _
      rw [hevict]
      show (t2.insertBlock addr is_secure _ _).bind _ = _
      rw [hins]
      rfl

theorem Consistent.step (h : Consistent t) {op : Op g} (hop : t.Permitted op) :
    ∃ t', t.step op = some t' ∧ Consistent t' := by
  cases op with
  | fill addr is_secure policy => exact fill_spec h hop.1 hop.2 policy
  | invalidate p k =>
    obtain ⟨t', hinv, hcons, -⟩ := invalidate_spec h hop
    exact ⟨t', hinv, hcons⟩

theorem Consistent.sound (h : Consistent t) : t.Sound where
  shared p k k' hk hk' :=
    ⟨(h.uniform p).tags k hk, ((h.uniform p).secure k hk).trans ((h.uniform p).secure k' hk').symm⟩
  single b b' hv hv' haddr hsec := by
    obtain ⟨a, ha, htag⟩ := (h.uniform b.1).addr (SectorBlk.isValid_iff.2 ⟨b.2, hv⟩)
    -- both are what a lookup of the address of the first finds
    have hlt : t.regenerateBlkAddr b < 2 ^ 64 := Nat.mod_lt _ (Nat.two_pow_pos 64)
    have hline : g.line (t.regenerateBlkAddr b) = t.regenerateBlkAddr b := by
      unfold SectorTags.regenerateBlkAddr
      rw [← htag]
      exact g.line_regenerateAddr ha _ _
    have hb := (findBlock_iff (t.blk b).secure h hlt).2 ⟨hv, rfl, hline.symm⟩
    have hb' := (findBlock_iff (t.blk b).secure h hlt).2
      ⟨hv', hsec.symm, haddr.symm.trans hline.symm⟩
    exact Option.some.inj (hb.symm.trans hb')
  found addr ha is_secure b := findBlock_iff is_secure h ha
  noPanic op hop := by
    obtain ⟨t', ht', -⟩ := h.step hop
    rw [ht']
    rfl
  counted := h.counted

theorem consistent_initial (g : Geometry) : Consistent (SectorTags.initial g) := by
  have hinvalid : ∀ p, ((SectorTags.initial g).sets p).isValid = false := by
    refine fun p => Bool.eq_false_iff.2 fun hv => ?_
    obtain ⟨k, hk⟩ := SectorBlk.isValid_iff.1 hv
    cases hk
  refine ⟨fun p => ⟨fun k hk => ?_, fun hv => ?_, fun k hk => ?_⟩, fun i j j' hv => ?_, ?_⟩
  · cases hk
  · rw [hinvalid p] at hv
    cases hv
  · cases hk
  · rw [hinvalid (i, j)] at hv
    cases hv
  · unfold SectorTags.sectorsInUse
    rw [Finset.filter_false_of_mem fun p _ => by rw [hinvalid p]; exact Bool.false_ne_true]
    rfl

end Invariant

/-- **Sectored tags never alias.**  For every geometry that the constructor accepts, in every state of a run
of fills after a miss, with the eviction of what they list, and of invalidations of valid blocks: the valid
blocks of a sector share its tag and security state, there is one valid block at most for a line and a
security state, lookups find exactly that block, no operation panics, and `tagsInUse` counts the sectors in use. -/
theorem sectors_sound (g : Geometry) {t : SectorTags g}
    (h : Run.Reaches SectorTags.step SectorTags.Permitted (SectorTags.initial g) t) : t.Sound := by
  have hcons : Consistent t := by
    refine h.inv (consistent_initial g) fun t op t' ht hop hstep => ?_
    obtain ⟨t1, ht1, hc⟩ := ht.step hop
    cases hstep.symm.trans ht1
    exact hc
  exact hcons.sound

/-! ## A small cache -/

theorem small_size : 16 < 2 ^ 32 := by decide

theorem small_blkSize : 4 ≤ 4 ∧ 4 < 2 ^ 32 ∧ StackDist.isPowerOf2 4 = true := by decide

theorem small_numSets : StackDist.isPowerOf2 (16 / 4 / 2 / 1) = true := by decide

theorem small_sector : 2 < 2 ^ 32 ∧ StackDist.isPowerOf2 2 = true := by decide

/-- Two sets, each of one sector of two blocks of four bytes. -/
def smallCache : Geometry where
  size := 16
  blkSize := 4
  assoc := 1
  numBlocksPerSector := 2
  size_lt := small_size
  blkSize_ok := small_blkSize
  numSets_ok := small_numSets
  numBlocksPerSector_ok := small_sector
  assoc_pos := Nat.one_pos

/-- Both blocks of a sector are filled, and then a block of another sector in their place. -/
theorem sectors_sound_replaced : ∃ t : SectorTags smallCache, (t.findBlock 20 true).isSome = true ∧
    (t.findBlock 16 true).isSome = true ∧ t.Sound ∧ ∃ t', t.step (.fill 32 false ⟨0, Nat.one_pos⟩) = some t' ∧
      t'.findBlock 16 true = none ∧ (t'.findBlock 32 false).isSome = true ∧ t'.tagsInUse = 1 ∧ t'.Sound := by
  have h1 := (Run.Reaches.refl : Run.Reaches SectorTags.step SectorTags.Permitted (SectorTags.initial smallCache) _).step
    (i := Op.fill 20 true ⟨0, Nat.one_pos⟩) ⟨by decide, rfl⟩ rfl
  have h2 := h1.step (i := Op.fill 16 true ⟨0, Nat.one_pos⟩) ⟨by decide, rfl⟩ rfl
  have h3 := h2.step (i := Op.fill 32 false ⟨0, Nat.one_pos⟩) ⟨by decide, rfl⟩ rfl
  exact ⟨_, rfl, rfl, sectors_sound smallCache h2, _, rfl, rfl, rfl, rfl, sectors_sound smallCache h3⟩

end Alpine.Mem.Sector
