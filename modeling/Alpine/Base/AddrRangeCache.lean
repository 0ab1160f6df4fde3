import Alpine.Base.AddrRangeMap

/-!
# The cache of the address map (`base/addr_range_map.hh`)

A map with a cache next to the map that has none.  The cache is looked at first, and what it finds may be an
entry that the search through the tree does not get to; and `erase(p, q)` takes `p` out of the cache once for
every entry that it erases.

* `Reached` — the search through the tree gets to the entry; `mem_probes` — it looks at these entries.
* `Synced` — the invariant: the two trees are equal, and the cache is small and has iterators of the tree.
* `contains_same_iff` — a lookup returns the same entry with and without the cache if and only if the cached
  entry that has the range, if there is one, is reached.
* `eraseRange_cached_iff` — the cache stays valid if and only if no other entry of the range than its first
  is cached.
* `cache_transparent` — any run.
-/

namespace Alpine.Base.AddrRangeMap

open AddrRange

variable {V : Type} {maxCacheSize : Nat} {m m' : AddrRangeMap V} {r : AddrRange} {cond : RangeCond}

/-- A call on the map without a cache; one that panics leaves it as it is. -/
def callUncached (m : AddrRangeMap V) (c : MapCall V) : AddrRangeMap V := (call 0 m c).getD m

/-- A call on a map and on the one without a cache. -/
def callBoth (maxCacheSize : Nat) (s : AddrRangeMap V × AddrRangeMap V) (c : MapCall V) :
    Option (AddrRangeMap V × AddrRangeMap V) :=
  (call maxCacheSize s.1 c).map fun m => (m, callUncached s.2 c)

/-! ## The entries that a search gets to -/

/-- The entry is the first after the range, or the entries between it and the range are all of its
interleaving. -/
structure Reached (m : AddrRangeMap V) (r : AddrRange) (e : MapNode V) : Prop where
  above : r.lt e.first = true → ∀ e' ∈ m.tree, r.lt e'.first = true → e'.first.lt e.first = false
  below : r.lt e.first = false → ∀ e' ∈ m.tree, e.first.lt e'.first = true → r.lt e'.first = false →
    e.first.mergesWith e'.first = true

theorem lt_irrefl (r : AddrRange) : r.lt r = false := by
  rw [Bool.eq_false_iff, ne_eq, lt_iff]
  omega

theorem lt_asymm {r' : AddrRange} (h : r.lt r' = true) : r'.lt r = false := by
  rw [lt_iff] at h
  rw [Bool.eq_false_iff, ne_eq, lt_iff]
  omega

theorem merges_of_mem_visited : ∀ {l k : List (MapNode V)} {e : MapNode V}, e ∉ l →
    e ∈ visited (l ++ e :: k) → ∀ x ∈ l, e.first.mergesWith x.first = true
  | [], _, _, _, _, x, hx => absurd hx List.not_mem_nil
  | [y], k, e, hne, h, x, hx => by
    have h : e ∈ visited (y :: e :: k) := h
    unfold visited at h
    rcases List.mem_cons.1 h with rfl | h
    · exact absurd List.mem_cons_self hne
    · split at h
      · rename_i hm
        rw [List.mem_singleton.1 hx]
        exact hm
      · exact absurd h List.not_mem_nil
  | y :: y' :: l, k, e, hne, h, x, hx => by
    have h : e ∈ visited (y :: y' :: (l ++ e :: k)) := h
    unfold visited at h
    rcases List.mem_cons.1 h with rfl | h
    · exact absurd List.mem_cons_self hne
    · split at h
      · rename_i hm
        have hrest := merges_of_mem_visited (l := y' :: l) (fun hin => hne (List.mem_cons_of_mem _ hin)) h
        rcases List.mem_cons.1 hx with rfl | hx
        · exact mergesWith_trans (hrest y' List.mem_cons_self) hm
        · exact hrest x hx
      · exact absurd h List.not_mem_nil

/-- **The entries that a search through the tree looks at.** -/
theorem mem_probes (hm : m.tree.Pairwise fun e e' => e.first.lt e'.first = true) {e : MapNode V}
    (he : e ∈ m.tree) : e ∈ m.probes r ↔ Reached m r e := by
  have hsplit := split_tree m r
  have hpart : ∀ x ∈ m.tree, (x ∈ m.tree.takeWhile fun e => !r.lt e.first) ∨
      x ∈ m.tree.dropWhile fun e => !r.lt e.first := by
    intro x hx
    rw [← hsplit] at hx
    exact List.mem_append.1 hx
  have habove : ∀ x ∈ m.tree, r.lt x.first = true → x ∈ m.tree.dropWhile fun e => !r.lt e.first := by
    intro x hx hlt
    rcases hpart x hx with h | h
    · rw [not_lt_of_below h] at hlt
      cases hlt
    · exact h
  have hbelow : ∀ x ∈ m.tree, r.lt x.first = false → x ∈ m.tree.takeWhile fun e => !r.lt e.first := by
    intro x hx hlt
    rcases hpart x hx with h | h
    · exact h
    · rw [lt_of_above hm h] at hlt
      cases hlt
  unfold probes
  rw [List.mem_append]
  cases hlt : r.lt e.first with
  | true =>
    have hnot : e ∉ visited (m.tree.takeWhile fun e => !r.lt e.first).reverse := by
      intro hin
      rw [not_lt_of_below (List.mem_reverse.1 (visited_subset hin))] at hlt
      cases hlt
    have hsorted := hm.sublist (List.dropWhile_sublist fun e => !r.lt e.first)
    have hall : ∀ x, x ∈ (m.tree.dropWhile fun e => !r.lt e.first) → x ∈ m.tree := fun x hx =>
      (List.dropWhile_sublist _).subset hx
    have hin := habove e he hlt
    cases hd : m.tree.dropWhile fun e => !r.lt e.first with
    | nil =>
      rw [hd] at hin
      exact absurd hin List.not_mem_nil
    | cons n rest =>
      rw [hd] at hin hsorted hall
      have hn : n ∈ m.tree := hall n List.mem_cons_self
      have hnlt : r.lt n.first = true := lt_of_above hm (hd ▸ List.mem_cons_self)
      rw [List.head?_cons, Option.toList_some, List.mem_singleton, or_iff_left hnot]
      constructor
      · rintro rfl
        refine ⟨fun _ e' he' hlt' => ?_, fun hfalse => ?_⟩
        · have hin' := habove e' he' hlt'
          rw [hd] at hin'
          rcases List.mem_cons.1 hin' with rfl | hrest
          · exact lt_irrefl _
          · exact lt_asymm (List.rel_of_pairwise_cons hsorted hrest)
        · rw [hlt] at hfalse
          cases hfalse
      · intro hreach
        rcases List.mem_cons.1 hin with rfl | hrest
        · rfl
        · have hfirst := hreach.above hlt n hn hnlt
          rw [List.rel_of_pairwise_cons hsorted hrest] at hfirst
          cases hfirst
  | false =>
    have hnot : e ∉ (m.tree.dropWhile fun e => !r.lt e.first).head?.toList := by
      intro hin
      have hdrop := List.mem_of_mem_head? (Option.mem_toList.1 hin)
      rw [lt_of_above hm hdrop] at hlt
      cases hlt
    have hin := List.mem_reverse.2 (hbelow e he hlt)
    have hsorted := pairwise_reverse_below (r := r) hm
    obtain ⟨xs, ys, hxy⟩ := List.append_of_mem hin
    rw [or_iff_right hnot, hxy]
    rw [hxy] at hsorted
    have hafter : ∀ x ∈ xs, e.first.lt x.first = true := fun x hx =>
      (List.pairwise_append.1 hsorted).2.2 x hx e List.mem_cons_self
    have hbefore : ∀ y ∈ ys, y.first.lt e.first = true := fun y hy =>
      List.rel_of_pairwise_cons (List.pairwise_append.1 hsorted).2.1 hy
    have hxs : e ∉ xs := by
      intro hex
      have hself := hafter e hex
      rw [lt_irrefl] at hself
      cases hself
    constructor
    · intro hvis
      refine ⟨fun htrue => ?_, fun _ e' he' hlt' hr' => ?_⟩
      · rw [hlt] at htrue
        cases htrue
      · have hin' := List.mem_reverse.2 (hbelow e' he' hr')
        rw [hxy] at hin'
        rcases List.mem_append.1 hin' with h | h
        · exact merges_of_mem_visited hxs hvis e' h
        · rcases List.mem_cons.1 h with rfl | h
          · rw [lt_irrefl] at hlt'
            cases hlt'
          · rw [lt_asymm (hbefore e' h)] at hlt'
            cases hlt'
    · intro hreach
      refine mem_visited fun x hx => ?_
      have hx' : x ∈ (m.tree.takeWhile fun e => !r.lt e.first).reverse := by
        rw [hxy]
        exact List.mem_append_left _ hx
      exact hreach.below hlt x (mem_tree_of_below hx') (hafter x hx) (not_lt_of_below (List.mem_reverse.1 hx'))

theorem probes_ne_nil (h : m.tree ≠ []) : m.probes r ≠ [] := by
  intro hnil
  obtain ⟨hhead, hvis⟩ := List.append_eq_nil_iff.1 hnil
  have habove : (m.tree.dropWhile fun e => !r.lt e.first) = [] := by
    cases hd : m.tree.dropWhile fun e => !r.lt e.first with
    | nil => rfl
    | cons n rest =>
      rw [hd] at hhead
      cases hhead
  have hbelow : (m.tree.takeWhile fun e => !r.lt e.first).reverse = [] := by
    cases hd : (m.tree.takeWhile fun e => !r.lt e.first).reverse with
    | nil => rfl
    | cons i before =>
      rw [hd] at hvis
      cases before with
      | nil => cases hvis
      | cons next before => cases hvis
  apply h
  rw [← split_tree m r, habove, List.reverse_eq_nil_iff.1 hbelow]
  rfl

/-! ## Both maps -/

/-- The two maps differ in the cache only, which is small and has iterators of the tree. -/
structure Synced (maxCacheSize : Nat) (s : AddrRangeMap V × AddrRangeMap V) : Prop where
  uncached : s.2 = { s.1 with cache := [] }
  cached : ∀ c ∈ s.1.cache, c ∈ s.1.tree.map (·.id)
  small : s.1.cache.length ≤ maxCacheSize
  sorted : s.1.tree.Pairwise fun e e' => e.first.lt e'.first = true
  disjoint : s.1.tree.Pairwise fun e e' => ¬ Intersects e.first e'.first
  ids : (s.1.tree.map (·.id)).Nodup
  fresh : ∀ e ∈ s.1.tree, e.id < s.1.nextId

theorem find_uncached (hnil : m.cache = []) : m.find 0 r cond = (firstOf cond (m.probes r)).map fun o => (o, m) := by
  unfold find
  rw [hnil]
  simp only [searchCache]
  rw [searchTree_eq]
  cases firstOf cond (m.probes r) with
  | error f => rfl
  | ok o =>
    cases o with
    | none => rfl
    | some it => rfl

/-! ## Lookups -/

/-- A cached entry that has the range is reached. -/
def SeenCached (m : AddrRangeMap V) (r : AddrRange) : Prop :=
  ∀ e ∈ m.tree, e.id ∈ m.cache → r.isSubset e.first = .ok true → Reached m r e

/-- A superset contains the first address. -/
theorem contains_start {r' : AddrRange} (hr : r.start ≤ r.stop) (h : r.isSubset r' = .ok true) :
    r'.contains r.start = true := by
  unfold isSubset at h
  split at h
  · cases h
  · split at h
    · simp only [Except.ok.injEq, Bool.and_eq_true] at h
      exact h.1.1
    · rename_i hplain
      simp only [Except.ok.injEq, Bool.and_eq_true, decide_eq_true_eq] at h
      exact (AddrRange.contains_plain (by simpa using hplain)).2 ⟨h.1, Nat.le_trans hr h.2⟩

theorem eq_of_disjoint (hdis : m.tree.Pairwise fun e e' => ¬ Intersects e.first e'.first) {e e' : MapNode V}
    (he : e ∈ m.tree) (he' : e' ∈ m.tree) {a : Nat} (ha : e.first.contains a = true)
    (ha' : e'.first.contains a = true) : e = e' := by
  by_contra hne
  have hsymm : Std.Symm fun e e' : MapNode V => ¬ Intersects e.first e'.first := ⟨fun _ _ h h' => h h'.symm⟩
  exact hdis.forall he he' hne ⟨a, ha, ha'⟩

/-- At most one entry has a range. -/
theorem eq_of_subset (hdis : m.tree.Pairwise fun e e' => ¬ Intersects e.first e'.first)
    (hr : r.start ≤ r.stop) {e e' : MapNode V} (he : e ∈ m.tree) (he' : e' ∈ m.tree)
    (h : r.isSubset e.first = .ok true) (h' : r.isSubset e'.first = .ok true) : e = e' :=
  eq_of_disjoint hdis he he' (contains_start hr h) (contains_start hr h')

theorem isSubset_defined (hi : r.interleaved = false) :
    ∃ p : AddrRange → Bool, (fun r1 => r.isSubset r1) = fun r1 => .ok (p r1) := by
  refine ⟨fun r1 => bif r1.interleaved then r1.contains r.start && r1.contains r.stop && r.size ≤ r1.granularity
    else r.start ≥ r1.start && r.stop ≤ r1.stop, ?_⟩
  funext r1
  unfold isSubset
  rw [hi, if_neg Bool.false_ne_true]
  cases hi1 : r1.interleaved with
  | true => simp [hi1]
  | false => simp [hi1]

/-- The test of an interleaved range panics, and there is an entry to test if there is one in the cache. -/
theorem contains_interleaved (hcached : ∀ c ∈ m.cache, c ∈ m.tree.map (·.id))
    (hids : (m.tree.map (·.id)).Nodup) (hi : r.interleaved = true) : (m.contains maxCacheSize r).map (·.1) =
      (({ m with cache := [] } : AddrRangeMap V).contains 0 r).map (·.1) := by
  have hpanic : ∀ r1 : AddrRange, r.isSubset r1 =
      .error (.panic "Cannot test subset of interleaved range %s\n") := by
    intro r1
    unfold isSubset
    rw [hi, if_pos rfl]
  have hsame : ({ m with cache := [] } : AddrRangeMap V).probes r = m.probes r := rfl
  unfold contains
  rw [find_uncached rfl, hsame]
  unfold find
  cases hc : m.cache with
  | nil =>
    simp only [searchCache]
    rw [searchTree_eq]
    cases firstOf (fun r1 => r.isSubset r1) (m.probes r) with
    | error f => rfl
    | ok o =>
      cases o with
      | none => rfl
      | some it => rfl
  | cons c cs =>
    obtain ⟨e, he, rfl⟩ := List.mem_map.1 (hcached c (hc ▸ List.mem_cons_self))
    unfold searchCache
    rw [find?_id hids he]
    dsimp only
    rw [hpanic]
    cases hp : m.probes r with
    | nil => exact absurd hp (probes_ne_nil (List.ne_nil_of_mem he))
    | cons e' es =>
      unfold firstOf
      rw [hpanic]
      rfl

/-- **A lookup is not changed by the cache exactly if a cached entry that has the range is reached.** -/
theorem contains_same_iff {s : AddrRangeMap V × AddrRangeMap V} (h : Synced maxCacheSize s) (hr : r.start ≤ r.stop) :
    (s.1.contains maxCacheSize r).map (·.1) = (s.2.contains 0 r).map (·.1) ↔ SeenCached s.1 r := by
  obtain ⟨m, m0⟩ := s
  obtain ⟨huncached, hcached, -, hsorted, hdis, hids, -⟩ := h
  dsimp only at huncached hcached hsorted hdis hids ⊢
  subst huncached
  cases hi : r.interleaved with
  | true =>
    refine iff_of_true (contains_interleaved hcached hids hi) fun e _ _ hsub => ?_
    unfold isSubset at hsub
    rw [hi, if_pos rfl] at hsub
    cases hsub
  | false =>
    obtain ⟨p, hp⟩ := isSubset_defined hi
    have hpe : ∀ e : MapNode V, r.isSubset e.first = .ok (p e.first) := fun e => congrFun hp e.first
    obtain ⟨o, ho⟩ := searchCache_ok (m := m) (p := p) hcached
    have hsame : ({ m with cache := [] } : AddrRangeMap V).probes r = m.probes r := rfl
    unfold contains
    rw [find_uncached rfl, hsame]
    unfold find
    rw [hp, ho, firstOf_ok]
    cases o with
    | some it =>
      obtain ⟨hit, hid, hc⟩ := searchCache_some ho
      have hsub : r.isSubset it.first = .ok true := (hpe it).trans hc
      have hfind : (m.probes r).find? (fun e => p e.first) = some it ↔ it ∈ m.probes r := by
        constructor
        · exact List.mem_of_find?_eq_some
        · intro hin
          cases hf : (m.probes r).find? (fun e => p e.first) with
          | none =>
            refine absurd ?_ (List.find?_eq_none.1 hf it hin)
            exact Except.ok.inj hc
          | some e =>
            have hpe' : p e.first = true := by simpa using List.find?_some hf
            have hin' := probes_subset (List.mem_of_find?_eq_some hf)
            rw [eq_of_subset hdis hr hin' hit ((hpe e).trans (congrArg Except.ok hpe')) hsub]
      show Except.ok (some it) = Except.ok ((m.probes r).find? fun e => p e.first) ↔ _
      rw [Except.ok.injEq, eq_comm, hfind, mem_probes hsorted hit]
      constructor
      · intro hreach e he _ hsub'
        rw [eq_of_subset hdis hr he hit hsub' hsub]
        exact hreach
      · exact fun hseen => hseen it hit hid hsub
    | none =>
      have hmiss := searchCache_none hids ho
      refine iff_of_true ?_ fun e he hid hsub => ?_
      · rw [searchTree_eq, firstOf_ok]
        cases (m.probes r).find? fun e => p e.first with
        | none => rfl
        | some it => rfl
      · rw [hpe, hmiss e he hid] at hsub
        cases hsub

/-! ## Steps -/

/-- The range is disjoint from those in the map. -/
def CallDisjoint (m : AddrRangeMap V) : MapCall V → Prop
  | .insert r _ => ∀ e ∈ m.tree, ¬ Intersects r e.first
  | _ => True

/-- Ranges stay disjoint; if a cached entry passes for one that intersects a new range, so does one that is
reached; and no other entry of an erased range than the first is cached. -/
def CallSeen (m : AddrRangeMap V) : MapCall V → Prop
  | .insert r _ => (∀ e ∈ m.tree, ¬ Intersects r e.first) ∧
      ((∃ e ∈ m.tree, e.id ∈ m.cache ∧ r.intersects e.first = .ok true) →
        ∃ e ∈ m.tree, Reached m r e ∧ r.intersects e.first = .ok true)
  | .eraseRange p q => EraseOk m p q
  | _ => True

theorem firstOf_of_false : ∀ {l : List (MapNode V)}, (∀ e ∈ l, cond e.first = .ok false) → firstOf cond l = .ok none
  | [], _ => rfl
  | e :: l, h => by
    unfold firstOf
    rw [h e List.mem_cons_self]
    exact firstOf_of_false fun e' he' => h e' (List.mem_cons_of_mem _ he')

theorem lookup_uncached (hnil : m.cache = []) {c : MapCall V} (hc : (∃ r, c = .contains r) ∨ ∃ r, c = .intersects r) :
    callUncached m c = m := by
  have hfind : ∀ r cond, ((m.find 0 r cond).toOption.map (·.2)).getD m = m := by
    intro r cond
    rw [find_uncached hnil]
    cases firstOf cond (m.probes r) with
    | error f => rfl
    | ok o => rfl
  rcases hc with ⟨r, rfl⟩ | ⟨r, rfl⟩
  · exact hfind r _
  · exact hfind r _

/-- Without a cache, a range that an entry on the way passes for intersecting is not inserted. -/
theorem insert_uncached_refused (hnil : m.cache = []) {d : V} {e : MapNode V} (he : e ∈ m.probes r)
    (htest : r.intersects e.first = .ok true) : callUncached m (.insert r d) = m := by
  show ((m.insert 0 r d).toOption.map (·.2)).getD m = m
  unfold insert intersects
  rw [find_uncached hnil]
  cases hf : firstOf (fun r1 => r.intersects r1) (m.probes r) with
  | error f => rfl
  | ok o =>
    cases o with
    | none =>
      rw [firstOf_none hf e he] at htest
      cases htest
    | some it => rfl

theorem insert_uncached_made (hnil : m.cache = []) {d : V}
    (hmiss : ∀ e ∈ m.probes r, r.intersects e.first = .ok false) :
    callUncached m (.insert r d) = (m.insertTree r d).2 := by
  show ((m.insert 0 r d).toOption.map (·.2)).getD m = _
  unfold insert intersects
  rw [find_uncached hnil, firstOf_of_false hmiss]
  rfl

namespace Synced

variable {s : AddrRangeMap V × AddrRangeMap V}

theorem linked (h : Synced maxCacheSize s) : Linked s.1 := ⟨h.sorted, h.ids, h.fresh, h.cached⟩

theorem find (h : Synced maxCacheSize s) {o : Option (MapNode V)}
    (hfind : s.1.find maxCacheSize r cond = .ok (o, m')) : Synced maxCacheSize (m', s.2) := by
  obtain ⟨hl, htree, hnext⟩ := h.linked.find hfind
  refine ⟨?_, hl.cached, ?_, hl.sorted, htree ▸ h.disjoint, hl.ids, hl.fresh⟩
  · rw [h.uncached]
    show AddrRangeMap.mk _ _ _ = AddrRangeMap.mk _ _ _
    rw [htree, hnext]
  · rcases find_cases hfind with ⟨it, -, -, -, -, -, -, hlen⟩ | ⟨-, rfl, -⟩
    · exact hlen h.small
    · exact h.small

/-- Both trees lose the same entries. -/
theorem shrink (h : Synced maxCacheSize s) {m'' : AddrRangeMap V} (huncached : m'' = { m' with cache := [] })
    (hsub : m'.tree.Sublist s.1.tree) (hnext : m'.nextId = s.1.nextId)
    (hlen : m'.cache.length ≤ s.1.cache.length) (hcached : ∀ c ∈ m'.cache, c ∈ m'.tree.map (·.id)) :
    Synced maxCacheSize (m', m'') := by
  have hl := h.linked.sublist hsub hnext hcached
  exact ⟨huncached, hcached, Nat.le_trans hlen h.small, hl.sorted, h.disjoint.sublist hsub, hl.ids, hl.fresh⟩

/-- Both trees get the same entry. -/
theorem insertTree (h : Synced maxCacheSize s) {d : V} (hdis : ∀ e ∈ s.1.tree, ¬ Intersects r e.first) :
    Synced maxCacheSize ((s.1.insertTree r d).2, (s.2.insertTree r d).2) := by
  have huncached : (s.2.insertTree r d).2 = { (s.1.insertTree r d).2 with cache := [] } := by
    rw [h.uncached]
    unfold AddrRangeMap.insertTree
    dsimp only
    cases s.1.tree.find? fun e => !e.first.lt r && !r.lt e.first with
    | none => rfl
    | some e => rfl
  have hsymm : ∀ {e e' : MapNode V}, ¬ Intersects e.first e'.first → ¬ Intersects e'.first e.first :=
    fun h h' => h h'.symm
  have hl := h.linked.insertTree r d
  refine ⟨huncached, hl.cached, ?_, hl.sorted, ?_, hl.ids, hl.fresh⟩
  all_goals rcases insertTree_cases h.sorted r d with hsame | ⟨hcache, -, hperm, -⟩
  · rw [hsame]
    exact h.small
  · dsimp only
    rw [hcache]
    exact h.small
  · rw [hsame]
    exact h.disjoint
  · exact (hperm.pairwise_iff hsymm).2 (List.pairwise_cons.2 ⟨hdis, h.disjoint⟩)

theorem insert (h : Synced maxCacheSize s) {d : V} (hok : CallSeen s.1 (.insert r d)) {o : Option (MapNode V)}
    (hins : s.1.insert maxCacheSize r d = .ok (o, m')) :
    Synced maxCacheSize (m', callUncached s.2 (.insert r d)) := by
  have hnil : s.2.cache = [] := by rw [h.uncached]
  have hprobes : s.2.probes r = s.1.probes r := by
    rw [h.uncached]
    rfl
  unfold AddrRangeMap.insert at hins
  split at hins
  · cases hins
  · rename_i it m1 hfind
    cases hins
    -- an entry on the way through the tree passes for intersecting as well
    obtain ⟨e, he, htest⟩ : ∃ e ∈ s.1.probes r, r.intersects e.first = .ok true := by
      rcases find_cases hfind with ⟨it', hit, -, htest, -, -, hid | hprobe, -⟩ | ⟨hnone, -⟩
      · obtain ⟨e, he, hreach, htest⟩ := hok.2 ⟨it', hit, hid, htest⟩
        exact ⟨e, (mem_probes h.sorted he).2 hreach, htest⟩
      · exact ⟨it', hprobe, htest⟩
      · cases hnone
    rw [insert_uncached_refused hnil (hprobes ▸ he) htest]
    exact h.find hfind
  · rename_i m1 hfind
    cases hins
    rcases find_cases hfind with ⟨it', -, hsome, -⟩ | ⟨-, rfl, -, hmiss⟩
    · cases hsome
    · rw [insert_uncached_made hnil (hprobes ▸ hmiss)]
      exact h.insertTree hok.1

end Synced

/-- **What a call does to the two maps.** -/
theorem callBoth_synced {s s' : AddrRangeMap V × AddrRangeMap V} {c : MapCall V} (h : Synced maxCacheSize s)
    (hok : CallSeen s.1 c) (hcall : callBoth maxCacheSize s c = some s') : Synced maxCacheSize s' := by
  have hnil : s.2.cache = [] := by rw [h.uncached]
  obtain ⟨m', hm', rfl⟩ := Option.map_eq_some_iff.1 hcall
  cases c with
  | insert r d =>
    obtain ⟨⟨o, m1⟩, hins, rfl⟩ := toOption_map_eq_some.1 hm'
    exact h.insert hok hins
  | erase p =>
    have herase := toOption_eq_some.1 hm'
    obtain ⟨htree, hcache, hnext⟩ := erase_cases herase
    refine h.shrink ?_ (htree ▸ List.filter_sublist) hnext (hcache ▸ List.length_filter_le _ _)
      (erase_cached herase h.cached)
    show ((s.2.erase p).toOption).getD s.2 = _
    rw [h.uncached]
    unfold erase at herase ⊢
    split at herase
    · rename_i hp
      cases herase
      rw [if_pos hp]
      rfl
    · cases herase
  | eraseRange p q =>
    have herase := toOption_eq_some.1 hm'
    obtain ⟨htree, hcache, hnext⟩ := eraseRange_cases herase
    refine h.shrink ?_ (htree ▸ List.filter_sublist) hnext ?_ ((eraseRange_cached_iff herase h.cached).2 hok)
    · show ((s.2.eraseRange p q).toOption).getD s.2 = _
      rw [h.uncached]
      unfold eraseRange at herase ⊢
      dsimp only at herase ⊢
      split at herase
      · rename_i hpq
        cases herase
        rw [if_pos hpq]
        show AddrRangeMap.mk _ _ _ = AddrRangeMap.mk _ _ _
        congr 1
        refine List.eq_nil_iff_forall_not_mem.2 fun c hc => ?_
        exact absurd (mem_foldl_remove.1 hc).1 List.not_mem_nil
      · cases herase
    · rw [hcache]
      generalize s.1.between p q = l
      generalize s.1.cache = cache
      induction l generalizing cache with
      | nil => exact Nat.le_refl _
      | cons e l ih => exact Nat.le_trans (ih _) (List.length_filter_le _ _)
  | clear =>
    cases hm'
    refine h.shrink ?_ (List.nil_sublist _) rfl (Nat.zero_le _) fun c hc => absurd hc List.not_mem_nil
    show s.2.clear = _
    rw [h.uncached]
    rfl
  | contains r =>
    obtain ⟨⟨o, m1⟩, hfind, rfl⟩ := toOption_map_eq_some.1 hm'
    rw [lookup_uncached hnil (.inl ⟨r, rfl⟩)]
    exact h.find hfind
  | intersects r =>
    obtain ⟨⟨o, m1⟩, hfind, rfl⟩ := toOption_map_eq_some.1 hm'
    rw [lookup_uncached hnil (.inr ⟨r, rfl⟩)]
    exact h.find hfind

/-! ## Runs -/

theorem synced_empty (maxCacheSize : Nat) : Synced maxCacheSize (({}, {}) : AddrRangeMap V × AddrRangeMap V) where
  uncached := rfl
  cached := fun _ hc => absurd hc List.not_mem_nil
  small := Nat.zero_le _
  sorted := .nil
  disjoint := .nil
  ids := List.nodup_nil
  fresh := fun _ he => absurd he List.not_mem_nil

/-- **Transparency of the cache.**  In every run on disjoint ranges in which the range erasures spare the
cached entries, apart from their first, and a cached entry that passes for intersecting a new range is not the
only one on the way to it, the cache is small and has iterators of the tree, a lookup of a valid range returns
the same entry as without the cache exactly if the cached entry that has it is reached, and the next range
erasure keeps the cache valid exactly if it spares the cached entries. -/
theorem cache_transparent {s : AddrRangeMap V × AddrRangeMap V}
    (h : Run.Reaches (callBoth maxCacheSize) (fun s => CallSeen s.1) ({}, {}) s) :
    (∀ c ∈ s.1.cache, c ∈ s.1.tree.map (·.id)) ∧ s.1.cache.length ≤ maxCacheSize ∧
    (∀ r : AddrRange, r.start ≤ r.stop →
      ((s.1.contains maxCacheSize r).map (·.1) = (s.2.contains 0 r).map (·.1) ↔ SeenCached s.1 r)) ∧
    ∀ p q m', s.1.eraseRange p q = .ok m' → ((∀ c ∈ m'.cache, c ∈ m'.tree.map (·.id)) ↔ EraseOk s.1 p q) := by
  have hs : Synced maxCacheSize s := h.inv (synced_empty maxCacheSize) fun t c t' ht hok hcall =>
    callBoth_synced ht hok hcall
  exact ⟨hs.cached, hs.small, fun r hr => contains_same_iff hs hr,
    fun p q m' herase => eraseRange_cached_iff herase hs.cached⟩

theorem cache_transparent_one_stripe : ∃ s : AddrRangeMap Unit × AddrRangeMap Unit,
    Run.Reaches (callBoth 3) (fun s => CallSeen s.1) ({}, {}) s ∧ s.1.cache.length = 1 ∧
      (s.1.contains 3 (.single 64 (by decide))).map (·.1) = (s.2.contains 0 (.single 64 (by decide))).map (·.1) := by
  have h0 : Run.Reaches (callBoth 3) (fun s => CallSeen s.1)
    (({}, {}) : AddrRangeMap Unit × AddrRangeMap Unit) ({}, {}) := .refl
  have h1 := h0.step (i := MapCall.insert (quarter 2 (by decide)) ())
    ⟨fun e he => absurd he List.not_mem_nil, fun ⟨e, he, _⟩ => absurd he List.not_mem_nil⟩ rfl
  have h2 := h1.step (i := MapCall.contains (.single 64 (by decide))) trivial rfl
  refine ⟨_, h2, rfl, ((cache_transparent h2).2.2.1 _ (Nat.le_refl _)).2 fun e he _ _ => ?_⟩
  rw [List.mem_singleton.1 he]
  refine ⟨fun _ e' he' _ => ?_, fun _ e' he' hlt => ?_⟩
  · rw [List.mem_singleton.1 he']
    rfl
  · rw [List.mem_singleton.1 he'] at hlt
    cases hlt

/-- The range of 32 bytes at an address. -/
def line (a : Nat) (h : a + 31 < 2 ^ 64) : AddrRange where
  start := a
  stop := a + 31
  fits := ⟨Nat.lt_of_le_of_lt (Nat.le_add_right a 31) h, h⟩
  slice := plain_slice
  xorSlice := plain_xorSlice

/-- Of two entries the second is cached when both are erased as a range; and of three stripes of an
interleaving the one that has its first address is found there only after a lookup of another address. -/
theorem cache_not_transparent : (∃ s : AddrRangeMap Unit × AddrRangeMap Unit,
      Run.Reaches (callBoth 3) (fun s => CallDisjoint s.1) ({}, {}) s ∧ s.1.tree = [] ∧ s.1.cache = [1]) ∧
    ∃ s : AddrRangeMap Unit × AddrRangeMap Unit, Run.Reaches (callBoth 3) (fun s => CallDisjoint s.1) ({}, {}) s ∧
        (s.1.containsAddr 3 64 (by decide)).toOption.map (fun q => q.1.map (·.id)) = some (some 2) ∧
        (s.2.containsAddr 0 64 (by decide)).toOption.map (fun q => q.1.map (·.id)) = some none := by
  have h0 : Run.Reaches (callBoth 3) (fun s => CallDisjoint s.1)
    (({}, {}) : AddrRangeMap Unit × AddrRangeMap Unit) ({}, {}) := .refl
  constructor
  · have h1 := h0.step (i := MapCall.insert (line 0 (by decide)) ()) (fun e he => absurd he List.not_mem_nil) rfl
    have h2 := h1.step (i := MapCall.insert (line 32 (by decide)) ()) (fun e he => by
      rw [List.mem_singleton.1 he]
      exact Apart.not_intersects (.inr (.inl (by decide)))) rfl
    have h3 := h2.step (i := MapCall.contains (.single 40 (by decide))) trivial rfl
    exact ⟨_, h3.step (i := MapCall.eraseRange (some 0) none) trivial rfl, rfl, rfl⟩
  · have hdis : ∀ i j (hi : i < 4) (hj : j < 4), i ≠ j → ¬ Intersects (quarter i hi) (quarter j hj) :=
      fun i j hi hj hne => Apart.not_intersects (.inr (.inr ⟨rfl, rfl, hne⟩))
    have h1 := h0.step (i := MapCall.insert (quarter 0 (by decide)) ())
      (fun e he => absurd he List.not_mem_nil) rfl
    have h2 := h1.step (i := MapCall.insert (quarter 1 (by decide)) ()) (fun e he => by
      rw [List.mem_singleton.1 he]
      exact hdis 1 0 (by decide) (by decide) (by decide)) rfl
    have h3 := h2.step (i := MapCall.insert (quarter 2 (by decide)) ()) (fun e he => by
      rcases List.mem_cons.1 he with rfl | he
      · exact hdis 2 0 (by decide) (by decide) (by decide)
      · rw [List.mem_singleton.1 he]
        exact hdis 2 1 (by decide) (by decide) (by decide)) rfl
    exact ⟨_, h3.step (i := MapCall.contains (.single 70 (by decide))) trivial rfl, rfl, rfl⟩

end Alpine.Base.AddrRangeMap
