import Alpine.Base.AddrRangeCache

/-!
# Lookups of one address (`base/addr_range_map.hh`)

What the map does whatever ranges it is given: ranges without addresses, and ranges that overlap where the
test for intersections does not see it.

* `Linked.insert` — an insertion adds entries with new names only.
* `Seen` — an entry that has the address is in the cache, or the search through the tree gets to it.
* `contains_single` — a lookup of one address never fails, and finds an entry if and only if one is seen.
-/

namespace Alpine.Base.AddrRangeMap

open AddrRange

variable {V : Type} {maxCacheSize : Nat} {m m' : AddrRangeMap V} {r : AddrRange} {cond : RangeCond}

/-! ## Insertion -/

/-- What an insertion for `d` does to the entries: the earlier ones stay, and the new ones have new names. -/
structure Grows (d : V) (m m' : AddrRangeMap V) : Prop where
  next : m.nextId ≤ m'.nextId
  kept : ∀ e ∈ m.tree, e ∈ m'.tree
  new : ∀ e ∈ m'.tree, e ∈ m.tree ∨ m.nextId ≤ e.id ∧ e.second = d

theorem Grows.refl (d : V) (m : AddrRangeMap V) : Grows d m m :=
  ⟨Nat.le_refl _, fun _ he => he, fun _ he => .inl he⟩

theorem Grows.trans {d : V} {m'' : AddrRangeMap V} (h : Grows d m m') (h' : Grows d m' m'') : Grows d m m'' where
  next := Nat.le_trans h.next h'.next
  kept := fun e he => h'.kept e (h.kept e he)
  new := fun e he => by
    rcases h'.new e he with he | ⟨hid, hd⟩
    · exact h.new e he
    · exact .inr ⟨Nat.le_trans h.next hid, hd⟩

theorem insertTree_grows (hm : Linked m) (r : AddrRange) (d : V) : Grows d m (m.insertTree r d).2 := by
  rcases insertTree_cases hm.sorted r d with hsame | ⟨-, hnext, hperm, -⟩
  · rw [hsame]
    exact Grows.refl d m
  · refine ⟨?_, fun e he => hperm.symm.subset (List.mem_cons_of_mem _ he), fun e he => ?_⟩
    · rw [hnext]
      exact Nat.le_succ _
    · rcases List.mem_cons.1 (hperm.subset he) with rfl | he
      · exact .inr ⟨Nat.le_refl _, rfl⟩
      · exact .inl he

theorem Linked.insert (hm : Linked m) {d : V} {o : Option (MapNode V)}
    (h : m.insert maxCacheSize r d = .ok (o, m')) : Linked m' ∧ Grows d m m' := by
  unfold AddrRangeMap.insert at h
  split at h
  · cases h
  · rename_i hfind
    cases h
    obtain ⟨hl, htree, hnext⟩ := hm.find hfind
    refine ⟨hl, Nat.le_of_eq hnext.symm, fun e he => htree ▸ he, fun e he => .inl (htree ▸ he)⟩
  · rename_i m1 hfind
    cases h
    rcases find_cases hfind with ⟨it, -, hsome, -⟩ | ⟨-, rfl, -⟩
    · cases hsome
    · exact ⟨hm.insertTree r d, insertTree_grows hm r d⟩

/-! ## One address -/

/-- An entry that has the address is recently used, or the search through the tree gets to it. -/
def Seen (m : AddrRangeMap V) (a : Nat) (ha : a < 2 ^ 64) : Prop :=
  ∃ e ∈ m.tree, e.first.contains a = true ∧ (e.id ∈ m.cache ∨ Reached m (.single a ha) e)

/-- **A lookup of one address finds an entry exactly if one that has it is seen.** -/
theorem contains_single (hm : Linked m) {a : Nat} (ha : a < 2 ^ 64) :
    ∃ o m', m.contains maxCacheSize (.single a ha) = .ok (o, m') ∧ (o.isSome = true ↔ Seen m a ha) := by
  have hcond : (fun r1 => (single a ha).isSubset r1) = fun r1 => .ok (r1.contains a) := by
    funext r1
    exact single_isSubset ha
  obtain ⟨o, ho⟩ := searchCache_ok (m := m) (p := (·.contains a)) hm.cached
  unfold contains AddrRangeMap.find
  rw [hcond, ho]
  cases o with
  | some it =>
    obtain ⟨hit, hid, hc⟩ := searchCache_some ho
    have hia : it.first.contains a = true := by simpa using hc
    exact ⟨_, _, rfl, iff_of_true rfl ⟨it, hit, hia, .inl hid⟩⟩
  | none =>
    have hmiss := searchCache_none hm.ids ho
    have hseen : Seen m a ha ↔ ∃ e ∈ m.probes (single a ha), e.first.contains a = true := by
      constructor
      · rintro ⟨e, he, hea, hid | hreach⟩
        · have hfalse := hmiss e he hid
          simp [hea] at hfalse
        · exact ⟨e, (mem_probes hm.sorted he).2 hreach, hea⟩
      · rintro ⟨e, hprobe, hea⟩
        have he := probes_subset hprobe
        exact ⟨e, he, hea, .inr ((mem_probes hm.sorted he).1 hprobe)⟩
    simp only [searchTree_eq, firstOf_ok]
    rw [hseen]
    cases hf : (m.probes (single a ha)).find? fun e => e.first.contains a with
    | none =>
      refine ⟨none, m, rfl, iff_of_false Bool.false_ne_true ?_⟩
      rintro ⟨e, he, hea⟩
      exact List.find?_eq_none.1 hf e he hea
    | some it =>
      refine ⟨_, _, rfl, iff_of_true rfl ⟨it, List.mem_of_find?_eq_some hf, ?_⟩⟩
      simpa using List.find?_some hf

/-- **Among ranges that are apart, only an address at which an interleaving starts is not seen**, and only if
it is in a stripe behind another one after stripe 0. -/
theorem seen_iff_not_hidden (hm : Ordered m) {a : Nat} (ha : a < 2 ^ 64)
    (h : ∃ e ∈ m.tree, e.first.contains a = true) : Seen m a ha ↔ ¬ Hidden m a := by
  constructor
  · rintro ⟨e, he, hea, hseen⟩ ⟨e', he', hea', hnot, hshadowed⟩
    rw [eq_of_contains hm he' he hea' hea] at hnot hshadowed
    rcases hseen with hid | hreach
    · exact hnot hid
    · exact (mem_probes_iff hm ha he hea).1 ((mem_probes hm.sorted he).2 hreach) hshadowed
  · intro hnot
    obtain ⟨e, he, hea⟩ := h
    refine ⟨e, he, hea, ?_⟩
    by_cases hid : e.id ∈ m.cache
    · exact .inl hid
    · refine .inr ((mem_probes hm.sorted he).1 ((mem_probes_iff hm ha he hea).2 fun hs => ?_))
      exact hnot ⟨e, he, hea, hid, hs⟩

end Alpine.Base.AddrRangeMap
