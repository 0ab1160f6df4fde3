import Alpine.Base.AddrRange
import Alpine.Lib.Outcome
import Alpine.Lib.Run

/-!
# The address map (`base/addr_range_map.hh`)

`AddrRangeMap<V, max_cache_size>`: a sorted tree of ranges with a list of recently used entries.  An
iterator is the name of a node; a name is never used again, so that following one to an erased node is
seen.

* `find`, `insert`, `erase`, `clear`, `contains`, `intersects` as in the source.
* `AddrRangeMap.Linked` — the invariant whatever the ranges are: sorted, and the recently used entries are in
  the tree; `Ordered` — besides, every range has an address, and the ranges are pairwise apart.
* `probes_apart` — if the entries that a search looks at are apart from a range, all entries are.
* `mem_probes_iff` — a search for one address looks at the entry that has it, unless that entry starts
  with the address and is not the first of its interleaving after stripe 0.
* `map_lookup` — lookup and insertion after any run that keeps away from the three slips.
-/

namespace Alpine.Base

/-- A node of the tree. -/
structure MapNode (V : Type) where
  id : Nat
  first : AddrRange
  second : V

/-- `AddrRangeMap`: the nodes in order, the cache of iterators, and the next fresh name. -/
structure AddrRangeMap (V : Type) where
  tree : List (MapNode V) := []
  cache : List Nat := []
  nextId : Nat := 0

/-- The condition of a search. -/
abbrev RangeCond : Type := AddrRange → Except RangeFault Bool

namespace AddrRangeMap

variable {V : Type} (maxCacheSize : Nat) (m : AddrRangeMap V)

def addNewEntryToCache (it : MapNode V) : AddrRangeMap V :=
  if maxCacheSize ≠ 0 then
    if m.cache.length ≥ maxCacheSize then { m with cache := it.id :: m.cache.dropLast }
    else { m with cache := it.id :: m.cache }
  else m

/-- The search through the cache. -/
def searchCache (cond : RangeCond) : List Nat → Except RangeFault (Option (MapNode V))
  | [] => .ok none
  | c :: cs =>
    match m.tree.find? (·.id = c) with
    | none => .error .danglingIterator
    | some it =>
      match cond it.first with
      | .error f => .error f
      | .ok true => .ok (some it)
      | .ok false => searchCache cond cs

/-- The loop that walks down from an entry. -/
def walk (cond : RangeCond) : MapNode V → List (MapNode V) → Except RangeFault (Option (MapNode V))
  | i, before =>
    match cond i.first with
    | .error f => .error f
    | .ok true => .ok (some i)
    | .ok false =>
      match before with
      | [] => .ok none
      | next :: before => if next.first.mergesWith i.first then walk cond next before else .ok none

/-- The search through the tree. -/
def searchTree (r : AddrRange) (cond : RangeCond) : Except RangeFault (Option (MapNode V)) :=
  let below := m.tree.takeWhile fun e => !r.lt e.first
  let next := (m.tree.dropWhile fun e => !r.lt e.first).head?
  let down := match below.reverse with
    | [] => .ok none
    | i :: before => walk cond i before
  match next with
  | none => down
  | some next =>
    match cond next.first with
    | .error f => .error f
    | .ok true => .ok (some next)
    | .ok false => down

def find (r : AddrRange) (cond : RangeCond) : Except RangeFault (Option (MapNode V) × AddrRangeMap V) :=
  match m.searchCache cond m.cache with
  | .error f => .error f
  | .ok (some it) => .ok (some it, { m with cache := it.id :: m.cache.erase it.id })
  | .ok none =>
    match m.searchTree r cond with
    | .error f => .error f
    | .ok (some it) => .ok (some it, m.addNewEntryToCache maxCacheSize it)
    | .ok none => .ok (none, m)

def contains (r : AddrRange) : Except RangeFault (Option (MapNode V) × AddrRangeMap V) :=
  m.find maxCacheSize r fun r1 => r.isSubset r1

def containsAddr (a : Nat) (ha : a < 2 ^ 64) : Except RangeFault (Option (MapNode V) × AddrRangeMap V) :=
  m.contains maxCacheSize (.single a ha)

def intersects (r : AddrRange) : Except RangeFault (Option (MapNode V) × AddrRangeMap V) :=
  m.find maxCacheSize r fun r1 => r.intersects r1

/-- `std::map::insert`: an entry with an equivalent key stays. -/
def insertTree (r : AddrRange) (d : V) : MapNode V × AddrRangeMap V :=
  match m.tree.find? fun e => !e.first.lt r && !r.lt e.first with
  | some e => (e, m)
  | none =>
    let e : MapNode V := { id := m.nextId, first := r, second := d }
    (e, { m with
      tree := (m.tree.takeWhile fun e => !r.lt e.first) ++ e :: m.tree.dropWhile fun e => !r.lt e.first
      nextId := m.nextId + 1 })

def insert (r : AddrRange) (d : V) : Except RangeFault (Option (MapNode V) × AddrRangeMap V) :=
  match m.intersects maxCacheSize r with
  | .error f => .error f
  | .ok (some _, m') => .ok (none, m')
  | .ok (none, m') =>
    let (e, m'') := m'.insertTree r d
    .ok (some e, m'')

/-- `erase(p)`. -/
def erase (p : Nat) : Except RangeFault (AddrRangeMap V) :=
  if p ∈ m.tree.map (·.id) then
    .ok { m with cache := m.cache.filter (· ≠ p), tree := m.tree.filter (·.id ≠ p) }
  else .error .danglingIterator

/-- The entries from `p` up to `q`, `none` standing for `end()`. -/
def between (p q : Option Nat) : List (MapNode V) :=
  (m.tree.dropWhile fun e => some e.id ≠ p).takeWhile fun e => some e.id ≠ q

/-- `erase(p, q)`: the loop removes `p` from the cache once for every entry. -/
def eraseRange (p q : Option Nat) : Except RangeFault (AddrRangeMap V) :=
  let after := m.tree.dropWhile fun e => some e.id ≠ p
  if (p = none ∨ p ∈ m.tree.map (some ·.id)) ∧ (q = none ∨ q ∈ after.map (some ·.id)) then
    .ok { m with
      cache := (m.between p q).foldl (fun cache _ => cache.filter (some · ≠ p)) m.cache
      tree := m.tree.filter fun e => e.id ∉ (m.between p q).map (·.id) }
  else .error .danglingIterator

def clear : AddrRangeMap V := { m with cache := [], tree := [] }

end AddrRangeMap

/-! ## What a search looks at -/

namespace AddrRangeMap

open AddrRange

variable {V : Type} {maxCacheSize : Nat} {m m' : AddrRangeMap V} {r : AddrRange} {cond : RangeCond}

instance : Std.Symm fun e e' : MapNode V => Apart e.first e'.first := ⟨fun _ _ h => h.symm⟩

/-- The entries that a walk looks at. -/
def visited : List (MapNode V) → List (MapNode V)
  | [] => []
  | [i] => [i]
  | i :: next :: before => i :: if next.first.mergesWith i.first then visited (next :: before) else []

/-- The entries that a search through the tree looks at. -/
def probes (m : AddrRangeMap V) (r : AddrRange) : List (MapNode V) :=
  (m.tree.dropWhile fun e => !r.lt e.first).head?.toList ++
    visited (m.tree.takeWhile fun e => !r.lt e.first).reverse

/-- The first entry of a list that meets the condition. -/
def firstOf (cond : RangeCond) : List (MapNode V) → Except RangeFault (Option (MapNode V))
  | [] => .ok none
  | e :: es =>
    match cond e.first with
    | .error f => .error f
    | .ok true => .ok (some e)
    | .ok false => firstOf cond es

theorem walk_eq (cond : RangeCond) : ∀ (i : MapNode V) (before : List (MapNode V)),
    walk cond i before = firstOf cond (visited (i :: before))
  | i, [] => by
    unfold walk visited firstOf
    split <;> rfl
  | i, next :: before => by
    unfold walk visited firstOf
    split
    · rfl
    · rfl
    · dsimp only
      split
      · exact walk_eq cond next before
      · rfl

theorem searchTree_eq (m : AddrRangeMap V) (r : AddrRange) (cond : RangeCond) :
    m.searchTree r cond = firstOf cond (m.probes r) := by
  have hdown : (match (m.tree.takeWhile fun e => !r.lt e.first).reverse with
      | [] => .ok none
      | i :: before => walk cond i before) =
      firstOf cond (visited (m.tree.takeWhile fun e => !r.lt e.first).reverse) := by
    cases (m.tree.takeWhile fun e => !r.lt e.first).reverse with
    | nil => rfl
    | cons i before => exact walk_eq cond i before
  unfold searchTree probes
  dsimp only
  rw [hdown]
  cases (m.tree.dropWhile fun e => !r.lt e.first).head? with
  | none => rfl
  | some next => rfl

theorem visited_subset : ∀ {l : List (MapNode V)} {e : MapNode V}, e ∈ visited l → e ∈ l
  | [i], e, h => h
  | i :: next :: before, e, h => by
    unfold visited at h
    rcases List.mem_cons.1 h with rfl | h
    · exact List.mem_cons_self
    · split at h
      · exact List.mem_cons_of_mem _ (visited_subset h)
      · exact absurd h List.not_mem_nil

variable {e : MapNode V}

theorem probes_subset (h : e ∈ m.probes r) : e ∈ m.tree := by
  rcases List.mem_append.1 h with h | h
  · have hhead := Option.mem_toList.1 h
    exact (List.dropWhile_sublist _).subset (List.mem_of_mem_head? hhead)
  · exact (List.takeWhile_sublist _).subset (List.mem_reverse.1 (visited_subset h))

theorem firstOf_some : ∀ {l : List (MapNode V)} {e : MapNode V}, firstOf cond l = .ok (some e) →
    e ∈ l ∧ cond e.first = .ok true
  | e' :: l, e, h => by
    unfold firstOf at h
    split at h
    · cases h
    · rename_i hc
      cases h
      exact ⟨List.mem_cons_self, hc⟩
    · obtain ⟨he, hc⟩ := firstOf_some h
      exact ⟨List.mem_cons_of_mem _ he, hc⟩

theorem firstOf_none : ∀ {l : List (MapNode V)}, firstOf cond l = .ok none → ∀ e ∈ l, cond e.first = .ok false
  | [], _, e, he => absurd he List.not_mem_nil
  | e' :: l, h, e, he => by
    unfold firstOf at h
    split at h
    · cases h
    · cases h
    · rename_i hc
      rcases List.mem_cons.1 he with rfl | he
      · exact hc
      · exact firstOf_none h e he

/-! ## The order of the tree -/

/-- Sorted, every range has an address, the ranges are pairwise apart, names are fresh, and the cache
holds iterators of the tree. -/
structure Ordered (m : AddrRangeMap V) : Prop where
  sorted : m.tree.Pairwise fun e e' => e.first.lt e'.first = true
  inhabited : ∀ e ∈ m.tree, e.first.Inhabited
  apart : m.tree.Pairwise fun e e' => Apart e.first e'.first
  ids : (m.tree.map (·.id)).Nodup
  fresh : ∀ e ∈ m.tree, e.id < m.nextId
  cached : ∀ c ∈ m.cache, c ∈ m.tree.map (·.id)

/-- Sorted, names are fresh, and the cache holds iterators of the tree, whatever the ranges are. -/
structure Linked (m : AddrRangeMap V) : Prop where
  sorted : m.tree.Pairwise fun e e' => e.first.lt e'.first = true
  ids : (m.tree.map (·.id)).Nodup
  fresh : ∀ e ∈ m.tree, e.id < m.nextId
  cached : ∀ c ∈ m.cache, c ∈ m.tree.map (·.id)

theorem Ordered.linked (hm : Ordered m) : Linked m := ⟨hm.sorted, hm.ids, hm.fresh, hm.cached⟩

theorem Linked.ordered (hl : Linked m) (hinh : ∀ e ∈ m.tree, e.first.Inhabited)
    (hap : m.tree.Pairwise fun e e' => Apart e.first e'.first) : Ordered m :=
  ⟨hl.sorted, hinh, hap, hl.ids, hl.fresh, hl.cached⟩

theorem linked_empty : Linked ({} : AddrRangeMap V) where
  sorted := .nil
  ids := List.nodup_nil
  fresh := fun _ he => absurd he List.not_mem_nil
  cached := fun _ hc => absurd hc List.not_mem_nil

theorem split_tree (m : AddrRangeMap V) (r : AddrRange) :
    (m.tree.takeWhile fun e => !r.lt e.first) ++ (m.tree.dropWhile fun e => !r.lt e.first) = m.tree :=
  List.takeWhile_append_dropWhile

theorem not_lt_of_below (he : e ∈ m.tree.takeWhile fun e => !r.lt e.first) : r.lt e.first = false := by
  simpa using List.mem_takeWhile_imp he

theorem lt_of_above (hm : m.tree.Pairwise fun e e' => e.first.lt e'.first = true)
    (he : e ∈ m.tree.dropWhile fun e => !r.lt e.first) : r.lt e.first = true := by
  have hsorted := hm.sublist (List.dropWhile_sublist fun e => !r.lt e.first)
  cases habove : m.tree.dropWhile fun e => !r.lt e.first with
  | nil =>
    rw [habove] at he
    exact absurd he List.not_mem_nil
  | cons h above =>
    have hh : r.lt h.first = true := by
      have := List.head?_dropWhile_not (fun e : MapNode V => !r.lt e.first) m.tree
      rw [habove] at this
      simpa using this
    rw [habove] at he hsorted
    rcases List.mem_cons.1 he with rfl | he
    · exact hh
    · exact lt_trans' hh (List.rel_of_pairwise_cons hsorted he)

/-- An entry after one that is apart from a range is apart from it as well. -/
theorem apart_after {h e : AddrRange} (hh : h.Inhabited) (he : e.Inhabited) (hr : r.lt h = true)
    (hlt : h.lt e = true) (hrh : Apart r h) (hhe : Apart h e) : Apart r e := by
  have hv := hh.valid
  have hv' := he.valid
  rw [lt_iff] at hr hlt
  rcases hrh with hfar | hfar | hs
  · exact .inl (by omega)
  · omega
  · obtain ⟨hstart, hstop, -, -, -⟩ := mergesWith_iff.1 hs.1
    rcases hhe with hfar | hfar | hs'
    · exact .inl (by omega)
    · omega
    · obtain ⟨hstart', -, -, -, -⟩ := mergesWith_iff.1 hs'.1
      refine .inr (.inr ⟨mergesWith_trans hs.1 hs'.1, hs.2.1, ?_⟩)
      omega

/-- Two entries of the tree that share an address range of the order are stripes of one interleaving. -/
theorem stripes_of_near {e e' : AddrRange} (h : Apart e e') (hle : e.start ≤ e'.stop)
    (hle' : e'.start ≤ e.stop) : Stripes e e' := by
  rcases h with h | h | h
  · omega
  · omega
  · exact h

/-- The walk only has to look at the stripes of the interleaving that the last entry belongs to. -/
theorem visited_apart (hr : r.start ≤ r.stop) : ∀ {l : List (MapNode V)},
    l.Pairwise (fun e e' => e'.first.lt e.first = true) → (∀ e ∈ l, e.first.Inhabited) →
    l.Pairwise (fun e e' => Apart e.first e'.first) → (∀ e ∈ l, r.lt e.first = false) →
    (∀ e ∈ visited l, Apart r e.first) → ∀ e ∈ l, Apart r e.first
  | [], _, _, _, _, _, e, he => absurd he List.not_mem_nil
  | [i], _, _, _, _, hvis, e, he => hvis e he
  | i :: next :: before, hsorted, hinh, hapart, hle, hvis, e, he => by
    have hi : Apart r i.first := hvis i List.mem_cons_self
    rcases List.mem_cons.1 he with rfl | he
    · exact hi
    · have hvi := (hinh i List.mem_cons_self).valid
      have hve := (hinh e (List.mem_cons_of_mem _ he)).valid
      have hri : ¬ r.lt i.first = true := by simp [hle i List.mem_cons_self]
      have hei := lt_iff.1 (List.rel_of_pairwise_cons hsorted he)
      have hie : Apart i.first e.first := List.rel_of_pairwise_cons hapart he
      rw [lt_iff] at hri
      rcases hi with hfar | hfar | hs
      · omega
      · refine .inr (.inl ?_)
        rcases hie with h | h | h
        · omega
        · omega
        · obtain ⟨-, hstop, -⟩ := mergesWith_iff.1 h.1
          omega
      · obtain ⟨hstart, hstop, -⟩ := mergesWith_iff.1 hs.1
        cases hm : next.first.mergesWith i.first with
        | true =>
          refine visited_apart hr hsorted.of_cons (fun x hx => hinh x (List.mem_cons_of_mem _ hx))
            hapart.of_cons (fun x hx => hle x (List.mem_cons_of_mem _ hx)) ?_ e he
          intro x hx
          apply hvis
          unfold visited
          rw [hm, if_pos rfl]
          exact List.mem_cons_of_mem _ hx
        | false =>
          -- the next entry ends before the interleaving starts, and so do all below it
          have hvn := (hinh next (by simp)).valid
          have hin : Apart i.first next.first := List.rel_of_pairwise_cons hapart List.mem_cons_self
          have hni := lt_iff.1 (List.rel_of_pairwise_cons hsorted (List.mem_cons_self))
          have hstop' : next.first.stop < i.first.start := by
            rcases hin with h | h | h
            · omega
            · exact h
            · rw [mergesWith_symm h.1] at hm
              cases hm
          refine .inr (.inl ?_)
          rcases List.mem_cons.1 he with rfl | he
          · omega
          · have hen := lt_iff.1 (List.rel_of_pairwise_cons hsorted.of_cons he)
            have hne : Apart next.first e.first := List.rel_of_pairwise_cons hapart.of_cons he
            rcases hne with h | h | h
            · omega
            · omega
            · obtain ⟨-, hstop'', -⟩ := mergesWith_iff.1 h.1
              omega

theorem pairwise_reverse_below (hm : m.tree.Pairwise fun e e' => e.first.lt e'.first = true) :
    ((m.tree.takeWhile fun e => !r.lt e.first).reverse).Pairwise fun e e' => e'.first.lt e.first = true :=
  List.pairwise_reverse.2 (hm.sublist (List.takeWhile_sublist _))

theorem mem_tree_of_below (he : e ∈ (m.tree.takeWhile fun e => !r.lt e.first).reverse) : e ∈ m.tree :=
  (List.takeWhile_sublist _).subset (List.mem_reverse.1 he)

/-- **If the entries that a search looks at are apart from the range, all entries are.** -/
theorem probes_apart (hm : Ordered m) (hr : r.start ≤ r.stop) (h : ∀ e ∈ m.probes r, Apart r e.first) :
    ∀ e ∈ m.tree, Apart r e.first := by
  intro e he
  rw [← split_tree m r] at he
  rcases List.mem_append.1 he with he | he
  · refine visited_apart hr (pairwise_reverse_below hm.sorted) (fun x hx => hm.inhabited x (mem_tree_of_below hx)) ?_
      (fun x hx => not_lt_of_below (List.mem_reverse.1 hx)) ?_ e (List.mem_reverse.2 he)
    · refine List.pairwise_reverse.2 ((hm.apart.sublist (List.takeWhile_sublist _)).imp ?_)
      intro a b hab
      exact hab.symm
    · intro x hx
      exact h x (List.mem_append_right _ hx)
  · cases hd : m.tree.dropWhile fun e => !r.lt e.first with
    | nil =>
      rw [hd] at he
      exact absurd he List.not_mem_nil
    | cons n above =>
      have hn : n ∈ m.tree.dropWhile fun e => !r.lt e.first := by
        rw [hd]
        exact List.mem_cons_self
      have hrn : Apart r n.first := h n (List.mem_append_left _ (by rw [hd]; simp))
      have hsub : (n :: above).Sublist m.tree := hd ▸ List.dropWhile_sublist _
      rw [hd] at he
      rcases List.mem_cons.1 he with rfl | he'
      · exact hrn
      · exact apart_after (hm.inhabited n (hsub.subset List.mem_cons_self))
          (hm.inhabited e (hsub.subset he)) (lt_of_above hm.sorted hn)
          (List.rel_of_pairwise_cons (hm.sorted.sublist hsub) he') hrn
          (List.rel_of_pairwise_cons (hm.apart.sublist hsub) he')

theorem mem_visited : ∀ {l k : List (MapNode V)} {e : MapNode V},
    (∀ x ∈ l, e.first.mergesWith x.first = true) → e ∈ visited (l ++ e :: k)
  | [], [], e, _ => List.mem_singleton_self e
  | [], _ :: _, e, _ => List.mem_cons_self
  | [x], k, e, h => by
    show e ∈ visited (x :: e :: k)
    unfold visited
    rw [h x List.mem_cons_self, if_pos rfl]
    exact List.mem_cons_of_mem _ (mem_visited (l := []) (fun x hx => absurd hx List.not_mem_nil))
  | x :: x' :: l, k, e, h => by
    have hx := h x List.mem_cons_self
    have hx' := h x' (List.mem_cons_of_mem _ List.mem_cons_self)
    show e ∈ visited (x :: x' :: (l ++ e :: k))
    unfold visited
    rw [mergesWith_trans (mergesWith_symm hx') hx, if_pos rfl]
    exact List.mem_cons_of_mem _
      (mem_visited (l := x' :: l) fun y hy => h y (List.mem_cons_of_mem _ hy))

/-- Among the entries that start with the address, one stands between stripe 0 and the entry. -/
def Shadowed (m : AddrRangeMap V) (e : MapNode V) (a : Nat) : Prop :=
  e.first.start = a ∧
    ∃ e' ∈ m.tree, e'.first.start = a ∧ 0 < e'.first.intlvMatch ∧ e'.first.intlvMatch < e.first.intlvMatch

theorem single_lt {a : Nat} (ha : a < 2 ^ 64) :
    (single a ha).lt r = true ↔ a < r.start ∨ (a = r.start ∧ 0 < r.intlvMatch) :=
  lt_iff

/-- **A search for one address looks at the entry that has it, unless the entry is shadowed.** -/
theorem mem_probes_iff (hm : Ordered m) {a : Nat} (ha : a < 2 ^ 64) (he : e ∈ m.tree)
    (hea : e.first.contains a = true) : e ∈ m.probes (single a ha) ↔ ¬ Shadowed m e a := by
  have hbet := between_of_contains hea
  have hsplit := split_tree m (single a ha)
  have hsorted := hm.sorted.sublist (List.dropWhile_sublist fun e => !(single a ha).lt e.first)
  constructor
  · rintro hprobe ⟨hstart, e', he', hstart', hpos, hlt⟩
    have habove' : e' ∈ m.tree.dropWhile fun e => !(single a ha).lt e.first := by
      rw [← hsplit] at he'
      rcases List.mem_append.1 he' with h | h
      · have := (single_lt ha).2 (.inr ⟨hstart'.symm, hpos⟩)
        rw [not_lt_of_below h] at this
        cases this
      · exact h
    rcases List.mem_append.1 hprobe with h | h
    · cases hd : m.tree.dropWhile fun e => !(single a ha).lt e.first with
      | nil =>
        rw [hd] at h
        exact absurd h List.not_mem_nil
      | cons n above =>
        rw [hd] at h habove' hsorted
        have hn : e = n := by simpa using h
        subst hn
        rcases List.mem_cons.1 habove' with rfl | h'
        · omega
        · have := lt_iff.1 (List.rel_of_pairwise_cons hsorted h')
          omega
    · have hbelow := List.mem_reverse.1 (visited_subset h)
      have := (single_lt ha).2 (.inr ⟨hstart.symm, Nat.zero_lt_of_lt hlt⟩)
      rw [not_lt_of_below hbelow] at this
      cases this
  · intro hns
    rw [← hsplit] at he
    rcases List.mem_append.1 he with hbelow | habove
    · -- whatever stands between the entry and the address shares the entry's interleaving
      refine List.mem_append_right _ ?_
      obtain ⟨xs, ys, hxy⟩ := List.append_of_mem (List.mem_reverse.2 hbelow)
      rw [hxy]
      refine mem_visited fun x hx => ?_
      have hxb : x ∈ (m.tree.takeWhile fun e => !(single a ha).lt e.first).reverse := by
        rw [hxy]
        exact List.mem_append_left _ hx
      have hsortr := pairwise_reverse_below (r := single a ha) hm.sorted
      have hapartr : ((m.tree.takeWhile fun e => !(single a ha).lt e.first).reverse).Pairwise
          fun e e' => Apart e'.first e.first :=
        List.pairwise_reverse.2 (hm.apart.sublist (List.takeWhile_sublist _))
      rw [hxy] at hsortr hapartr
      have hex := lt_iff.1 ((List.pairwise_append.1 hsortr).2.2 x hx e List.mem_cons_self)
      have hap := (List.pairwise_append.1 hapartr).2.2 x hx e List.mem_cons_self
      have hxa : ¬ (single a ha).lt x.first = true := by
        simp [not_lt_of_below (List.mem_reverse.1 hxb)]
      rw [single_lt] at hxa
      have hvx := (hm.inhabited x (mem_tree_of_below hxb)).valid
      exact (stripes_of_near hap (by omega) (by omega)).1
    · refine List.mem_append_left _ ?_
      have hea' := (single_lt ha).1 (lt_of_above hm.sorted habove)
      cases hd : m.tree.dropWhile fun e => !(single a ha).lt e.first with
      | nil =>
        rw [hd] at habove
        exact absurd habove List.not_mem_nil
      | cons n above =>
        have hn : n ∈ m.tree.dropWhile fun e => !(single a ha).lt e.first := by
          rw [hd]
          exact List.mem_cons_self
        have hna := (single_lt ha).1 (lt_of_above hm.sorted hn)
        rw [hd] at habove hsorted
        rcases List.mem_cons.1 habove with rfl | h
        · simp
        · have hne := lt_iff.1 (List.rel_of_pairwise_cons hsorted h)
          refine absurd ⟨by omega, n, (List.dropWhile_sublist _).subset hn, ?_, ?_, ?_⟩ hns <;> omega

/-! ## Searches -/

theorem searchCache_some : ∀ {cs : List Nat} {it : MapNode V}, m.searchCache cond cs = .ok (some it) →
    it ∈ m.tree ∧ it.id ∈ cs ∧ cond it.first = .ok true
  | c :: cs, it, h => by
    unfold searchCache at h
    split at h
    · cases h
    · rename_i it' hfind
      split at h
      · cases h
      · rename_i hc
        cases h
        have hid : it.id = c := by simpa using List.find?_some hfind
        exact ⟨List.mem_of_find?_eq_some hfind, hid ▸ List.mem_cons_self, hc⟩
      · obtain ⟨ht, hid, hc⟩ := searchCache_some h
        exact ⟨ht, List.mem_cons_of_mem _ hid, hc⟩

theorem find?_id (hids : (m.tree.map (·.id)).Nodup) (he : e ∈ m.tree) : m.tree.find? (·.id = e.id) = some e := by
  cases hf : m.tree.find? (·.id = e.id) with
  | none =>
    have := List.find?_eq_none.1 hf e he
    simp at this
  | some e' =>
    have hid : e'.id = e.id := by simpa using List.find?_some hf
    rw [List.inj_on_of_nodup_map hids (List.mem_of_find?_eq_some hf) he hid]

theorem searchCache_none (hids : (m.tree.map (·.id)).Nodup) : ∀ {cs : List Nat},
    m.searchCache cond cs = .ok none → ∀ e ∈ m.tree, e.id ∈ cs → cond e.first = .ok false
  | [], _, e, _, hc => absurd hc List.not_mem_nil
  | c :: cs, h, e, he, hc => by
    unfold searchCache at h
    split at h
    · cases h
    · rename_i it hfind
      split at h
      · cases h
      · cases h
      · rename_i hcond
        rcases List.mem_cons.1 hc with rfl | hc
        · rw [find?_id hids he] at hfind
          cases hfind
          exact hcond
        · exact searchCache_none hids h e he hc

theorem searchCache_ok {p : AddrRange → Bool} : ∀ {cs : List Nat}, (∀ c ∈ cs, c ∈ m.tree.map (·.id)) →
    ∃ o, m.searchCache (fun r => .ok (p r)) cs = .ok o
  | [], _ => ⟨none, rfl⟩
  | c :: cs, h => by
    obtain ⟨e, he, rfl⟩ := List.mem_map.1 (h c List.mem_cons_self)
    unfold searchCache
    cases hf : m.tree.find? (·.id = e.id) with
    | none =>
      have := List.find?_eq_none.1 hf e he
      simp at this
    | some it =>
      cases hp : p it.first with
      | true => exact ⟨some it, by simp [hp]⟩
      | false =>
        obtain ⟨o, ho⟩ := searchCache_ok (p := p) fun c hc => h c (List.mem_cons_of_mem _ hc)
        exact ⟨o, by simpa [hp] using ho⟩

theorem firstOf_ok {p : AddrRange → Bool} : ∀ {l : List (MapNode V)},
    firstOf (fun r => .ok (p r)) l = .ok (l.find? fun e => p e.first)
  | [] => rfl
  | e :: l => by
    unfold firstOf
    cases hp : p e.first with
    | true => simp [hp]
    | false =>
      simp only [List.find?_cons, hp]
      exact firstOf_ok

variable {o : Option (MapNode V)}

/-- What a search can do: an entry that meets the condition becomes the most recently used, or nothing that
was looked at meets it and the map stays as it is. -/
theorem find_cases (h : m.find maxCacheSize r cond = .ok (o, m')) :
    (∃ it ∈ m.tree, o = some it ∧ cond it.first = .ok true ∧
      m' = { m with cache := m'.cache } ∧ (∀ c ∈ m'.cache, c = it.id ∨ c ∈ m.cache) ∧
      (it.id ∈ m.cache ∨ it ∈ m.probes r) ∧ (m.cache.length ≤ maxCacheSize → m'.cache.length ≤ maxCacheSize)) ∨
    (o = none ∧ m' = m ∧ m.searchCache cond m.cache = .ok none ∧ ∀ e ∈ m.probes r, cond e.first = .ok false) := by
  unfold find at h
  split at h
  · cases h
  · rename_i it hs
    cases h
    obtain ⟨ht, hid, hc⟩ := searchCache_some hs
    refine .inl ⟨it, ht, rfl, hc, rfl, fun c hc => ?_, .inl hid, fun hlen => ?_⟩
    · rcases List.mem_cons.1 hc with rfl | hc
      · exact .inl rfl
      · exact .inr (List.mem_of_mem_erase hc)
    · have hpos := List.length_pos_of_mem hid
      show (it.id :: m.cache.erase it.id).length ≤ maxCacheSize
      rw [List.length_cons, List.length_erase_of_mem hid]
      omega
  · rename_i hnone
    rw [searchTree_eq] at h
    split at h
    · cases h
    · rename_i it hs
      cases h
      obtain ⟨hp, hc⟩ := firstOf_some hs
      refine .inl ⟨it, probes_subset hp, rfl, hc, ?_, fun c hc => ?_, .inr hp, fun hlen => ?_⟩
      · unfold addNewEntryToCache
        split
        · split <;> rfl
        · rfl
      · unfold addNewEntryToCache at hc
        split at hc
        · split at hc
          · rcases List.mem_cons.1 hc with rfl | hc
            · exact .inl rfl
            · exact .inr (List.mem_of_mem_dropLast hc)
          · rcases List.mem_cons.1 hc with rfl | hc
            · exact .inl rfl
            · exact .inr hc
        · exact .inr hc
      · unfold addNewEntryToCache
        split
        · split
          · show (it.id :: m.cache.dropLast).length ≤ maxCacheSize
            rw [List.length_cons, List.length_dropLast]
            omega
          · show (it.id :: m.cache).length ≤ maxCacheSize
            rw [List.length_cons]
            omega
        · exact hlen
    · rename_i hs
      cases h
      exact .inr ⟨rfl, rfl, hnone, firstOf_none hs⟩

theorem Linked.find (hm : Linked m) (h : m.find maxCacheSize r cond = .ok (o, m')) :
    Linked m' ∧ m'.tree = m.tree ∧ m'.nextId = m.nextId := by
  rcases find_cases h with ⟨it, hit, -, -, hm', hcache, -⟩ | ⟨-, rfl, -⟩
  · rw [hm']
    refine ⟨⟨hm.sorted, hm.ids, hm.fresh, fun c hc => ?_⟩, rfl, rfl⟩
    rcases hcache c hc with rfl | hc
    · exact List.mem_map_of_mem hit
    · exact hm.cached c hc
  · exact ⟨hm, rfl, rfl⟩

theorem find_ordered (hm : Ordered m) (h : m.find maxCacheSize r cond = .ok (o, m')) : Ordered m' := by
  obtain ⟨hl, htree, -⟩ := hm.linked.find h
  exact hl.ordered (fun e he => hm.inhabited e (htree ▸ he)) (htree ▸ hm.apart)

/-! ## Lookup -/

theorem eq_of_contains (hm : Ordered m) {a : Nat} {e' : MapNode V} (he : e ∈ m.tree) (he' : e' ∈ m.tree)
    (hea : e.first.contains a = true) (hea' : e'.first.contains a = true) : e = e' := by
  by_contra hne
  have hap : Apart e.first e'.first := hm.apart.forall he he' hne
  exact hap.not_intersects ⟨a, hea, hea'⟩

theorem scan_eq_some (hm : Ordered m) {a : Nat} (he : e ∈ m.tree) (hea : e.first.contains a = true)
    {l : List (MapNode V)} (hl : ∀ x ∈ l, x ∈ m.tree) : l.find? (·.first.contains a) = some e ↔ e ∈ l := by
  constructor
  · exact List.mem_of_find?_eq_some
  · intro hel
    cases hf : l.find? (·.first.contains a) with
    | none => exact absurd hea (List.find?_eq_none.1 hf e hel)
    | some e' =>
      have hea' : e'.first.contains a = true := by simpa using List.find?_some hf
      rw [eq_of_contains hm (hl e' (List.mem_of_find?_eq_some hf)) he hea' hea]

/-- The entry with the address is shadowed and not among the recently used ones. -/
def Hidden (m : AddrRangeMap V) (a : Nat) : Prop :=
  ∃ e ∈ m.tree, e.first.contains a = true ∧ e.id ∉ m.cache ∧ Shadowed m e a

/-- **A lookup finds what a linear scan finds, exactly if the entry is not hidden.** -/
theorem containsAddr_iff (hm : Ordered m) {a : Nat} (ha : a < 2 ^ 64) :
    (∃ m', m.containsAddr maxCacheSize a ha = .ok (m.tree.find? (·.first.contains a), m')) ↔ ¬ Hidden m a := by
  have hcond : (fun r1 => (single a ha).isSubset r1) = fun r1 => .ok (r1.contains a) := by
    funext r1
    exact single_isSubset ha
  obtain ⟨o, ho⟩ := searchCache_ok (m := m) (p := (·.contains a)) hm.cached
  unfold containsAddr contains find
  rw [hcond, ho]
  cases o with
  | some it =>
    obtain ⟨ht, hid, hc⟩ := searchCache_some ho
    have hit : it.first.contains a = true := by simpa using hc
    rw [(scan_eq_some hm ht hit fun _ hx => hx).2 ht]
    simp only [Except.ok.injEq, Prod.mk.injEq, true_and, exists_eq', true_iff]
    rintro ⟨e, he, hea, hnot, -⟩
    rw [eq_of_contains hm he ht hea hit] at hnot
    exact hnot hid
  | none =>
    have hmiss := searchCache_none hm.ids ho
    simp only [searchTree_eq, firstOf_ok]
    by_cases hex : ∃ e ∈ m.tree, e.first.contains a = true
    · obtain ⟨e, he, hea⟩ := hex
      have hnot : e.id ∉ m.cache := by
        intro hid
        have := hmiss e he hid
        simp [hea] at this
      have hhid : Hidden m a ↔ Shadowed m e a := by
        constructor
        · rintro ⟨e', he', hea', -, hs⟩
          rwa [eq_of_contains hm he' he hea' hea] at hs
        · intro hs
          exact ⟨e, he, hea, hnot, hs⟩
      rw [(scan_eq_some hm he hea fun _ hx => hx).2 he, hhid, ← mem_probes_iff hm ha he hea,
        ← scan_eq_some hm he hea fun _ hx => probes_subset hx]
      cases hp : (m.probes (single a ha)).find? (·.first.contains a) with
      | none => simp
      | some e' => simp
    · have hnone : ∀ {l : List (MapNode V)}, (∀ x ∈ l, x ∈ m.tree) →
          l.find? (·.first.contains a) = none := by
        intro l hl
        refine List.find?_eq_none.2 fun x hx hxa => hex ⟨x, hl x hx, hxa⟩
      rw [hnone fun _ hx => hx, hnone fun _ hx => probes_subset hx]
      simp only [Except.ok.injEq, Prod.mk.injEq, true_and, exists_eq', true_iff]
      rintro ⟨e, he, hea, -⟩
      exact hex ⟨e, he, hea⟩

/-! ## Insertion and erasure -/

/-- The range has an address, and no entry is compared with it by its first address only. -/
def InsertOk (m : AddrRangeMap V) (r : AddrRange) : Prop :=
  r.Inhabited ∧ ∀ e ∈ m.tree, ¬ TestsOne r e.first

/-- If the search that comes before an insertion finds nothing, every entry is apart from the range. -/
theorem apart_of_miss (hm : Ordered m) (hr : InsertOk m r)
    (h : ∀ e ∈ m.probes r, r.intersects e.first = .ok false) : ∀ e ∈ m.tree, Apart r e.first := by
  apply probes_apart hm hr.1.valid
  intro e he
  have het := probes_subset he
  rcases intersects_cases hr.1 (hm.inhabited e het) (hr.2 e het) with ⟨h', -⟩ | ⟨-, hap⟩ | ⟨f, h'⟩
  · rw [h e he] at h'
    cases h'
  · exact hap
  · rw [h e he] at h'
    cases h'

/-- An insertion into a sorted tree adds one entry, or finds an equivalent one. -/
theorem insertTree_cases (hm : m.tree.Pairwise fun e e' => e.first.lt e'.first = true) (r : AddrRange) (d : V) :
    (m.insertTree r d).2 = m ∨ (m.insertTree r d).2.cache = m.cache ∧ (m.insertTree r d).2.nextId = m.nextId + 1 ∧
        (m.insertTree r d).2.tree.Perm (⟨m.nextId, r, d⟩ :: m.tree) ∧
        (m.insertTree r d).2.tree.Pairwise fun e e' => e.first.lt e'.first = true := by
  have hsplit := split_tree m r
  unfold insertTree
  split
  · exact .inl rfl
  · rename_i hfind
    have hbelow : ∀ e ∈ m.tree.takeWhile fun e => !r.lt e.first, e.first.lt r = true := by
      intro e he
      have hnot := List.find?_eq_none.1 hfind e ((List.takeWhile_sublist _).subset he)
      simpa [not_lt_of_below he] using hnot
    refine .inr ⟨rfl, rfl, ?_, ?_⟩
    · show List.Perm (_ ++ _ :: _) _
      conv => rhs; rw [← hsplit]
      exact List.perm_middle
    · obtain ⟨h1, h2, h12⟩ := List.pairwise_append.1 (hsplit ▸ hm)
      refine List.pairwise_append.2 ⟨h1, List.pairwise_cons.2 ⟨fun e he => lt_of_above hm he, h2⟩, ?_⟩
      intro e he e' he'
      rcases List.mem_cons.1 he' with rfl | he'
      · exact hbelow e he
      · exact h12 e he e' he'

theorem names_of_perm (hid : e.id = m.nextId) (hperm : m'.tree.Perm (e :: m.tree))
    (hids : (m.tree.map (·.id)).Nodup) (hfresh : ∀ e ∈ m.tree, e.id < m.nextId) :
    (m'.tree.map (·.id)).Nodup ∧ ∀ e ∈ m'.tree, e.id < m.nextId + 1 := by
  constructor
  · refine (hperm.map _).nodup_iff.2 (List.nodup_cons.2 ⟨?_, hids⟩)
    intro hmem
    obtain ⟨e', he', hide⟩ := List.mem_map.1 hmem
    have hlt := hfresh e' he'
    rw [hide.trans hid] at hlt
    exact Nat.lt_irrefl _ hlt
  · intro e' he'
    rcases List.mem_cons.1 (hperm.subset he') with rfl | he'
    · rw [hid]
      exact Nat.lt_succ_self _
    · have hlt := hfresh e' he'
      omega

theorem Linked.insertTree (hm : Linked m) (r : AddrRange) (d : V) : Linked (m.insertTree r d).2 := by
  rcases insertTree_cases hm.sorted r d with hsame | ⟨hcache, hnext, hperm, hsorted⟩
  · rw [hsame]
    exact hm
  · obtain ⟨hids, hfresh⟩ := names_of_perm rfl hperm hm.ids hm.fresh
    refine ⟨hsorted, hids, hnext ▸ hfresh, fun c hc => ?_⟩
    rw [hcache] at hc
    exact (hperm.map _).symm.subset (List.mem_cons_of_mem _ (hm.cached c hc))

theorem insertTree_ordered (hm : Ordered m) (hr : r.Inhabited) (hap : ∀ e ∈ m.tree, Apart r e.first)
    (d : V) : Ordered (m.insertTree r d).2 := by
  have hl := hm.linked.insertTree r d
  rcases insertTree_cases hm.sorted r d with hsame | ⟨-, -, hperm, -⟩
  · rw [hsame]
    exact hm
  · refine hl.ordered (fun e he => ?_) ?_
    · rcases List.mem_cons.1 (hperm.subset he) with rfl | he
      · exact hr
      · exact hm.inhabited e he
    · exact (hperm.pairwise_iff fun h => Apart.symm h).2 (List.pairwise_cons.2 ⟨hap, hm.apart⟩)

/-- **An insertion that is made is refused exactly if the range intersects a stored one.** -/
theorem insert_iff (hm : Ordered m) (hr : InsertOk m r) {d : V} (h : m.insert maxCacheSize r d = .ok (o, m')) :
    Ordered m' ∧ (o = none ↔ ∃ e ∈ m.tree, Intersects r e.first) := by
  unfold insert at h
  split at h
  · cases h
  · rename_i it m1 hfind
    cases h
    refine ⟨find_ordered hm hfind, ?_⟩
    rcases find_cases hfind with ⟨it', hit, hsome, hc, -⟩ | ⟨hnone, -⟩
    · cases hsome
      refine ⟨fun _ => ⟨it, hit, ?_⟩, fun _ => rfl⟩
      rcases intersects_cases hr.1 (hm.inhabited it hit) (hr.2 it hit) with ⟨-, hi⟩ | ⟨h', -⟩ | ⟨f, h'⟩
      · exact hi
      · rw [hc] at h'
        cases h'
      · rw [hc] at h'
        cases h'
    · cases hnone
  · rename_i m1 hfind
    rcases find_cases hfind with ⟨it', -, hsome, -⟩ | ⟨-, rfl, -, hmiss⟩
    · cases hsome
    · cases h
      have hap := apart_of_miss hm hr hmiss
      refine ⟨insertTree_ordered hm hr.1 hap d, fun hnone => (nomatch hnone), ?_⟩
      rintro ⟨e, he, hi⟩
      exact absurd hi (hap e he).not_intersects

/-- Some entries are taken out, and the cache has iterators of those that stay. -/
theorem Linked.sublist (hm : Linked m) (hsub : m'.tree.Sublist m.tree) (hnext : m'.nextId = m.nextId)
    (hcache : ∀ c ∈ m'.cache, c ∈ m'.tree.map (·.id)) : Linked m' where
  sorted := hm.sorted.sublist hsub
  ids := hm.ids.sublist (hsub.map _)
  fresh := fun e he => hnext ▸ hm.fresh e (hsub.subset he)
  cached := hcache

theorem sublist_ordered (hm : Ordered m) (hsub : m'.tree.Sublist m.tree)
    (hnext : m'.nextId = m.nextId) (hcache : ∀ c ∈ m'.cache, c ∈ m'.tree.map (·.id)) : Ordered m' :=
  (hm.linked.sublist hsub hnext hcache).ordered (fun e he => hm.inhabited e (hsub.subset he))
    (hm.apart.sublist hsub)

/-- What an erasure leaves. -/
theorem erase_cases {p : Nat} (h : m.erase p = .ok m') :
    m'.tree = m.tree.filter (·.id ≠ p) ∧ m'.cache = m.cache.filter (· ≠ p) ∧ m'.nextId = m.nextId := by
  unfold erase at h
  split at h
  · cases h
    exact ⟨rfl, rfl, rfl⟩
  · cases h

theorem erase_cached {p : Nat} (h : m.erase p = .ok m') (hcached : ∀ c ∈ m.cache, c ∈ m.tree.map (·.id)) :
    ∀ c ∈ m'.cache, c ∈ m'.tree.map (·.id) := by
  obtain ⟨htree, hcache, -⟩ := erase_cases h
  intro c hc
  rw [hcache] at hc
  obtain ⟨hc, hne⟩ := List.mem_filter.1 hc
  obtain ⟨e, he, rfl⟩ := List.mem_map.1 (hcached c hc)
  rw [htree]
  exact List.mem_map_of_mem (List.mem_filter.2 ⟨he, hne⟩)

theorem Linked.erase (hm : Linked m) {p : Nat} (h : m.erase p = .ok m') : Linked m' := by
  obtain ⟨htree, -, hnext⟩ := erase_cases h
  exact hm.sublist (htree ▸ List.filter_sublist) hnext (erase_cached h hm.cached)

theorem erase_ordered (hm : Ordered m) {p : Nat} (h : m.erase p = .ok m') : Ordered m' := by
  obtain ⟨htree, -, hnext⟩ := erase_cases h
  exact sublist_ordered hm (htree ▸ List.filter_sublist) hnext (erase_cached h hm.cached)

/-- No recently used entry is erased with the range, except its first. -/
def EraseOk (m : AddrRangeMap V) (p q : Option Nat) : Prop :=
  ∀ e ∈ m.between p q, some e.id ≠ p → e.id ∉ m.cache

theorem mem_foldl_remove {p : Option Nat} : ∀ {l : List (MapNode V)} {cache : List Nat} {c : Nat},
    c ∈ l.foldl (fun cache _ => cache.filter (some · ≠ p)) cache ↔ c ∈ cache ∧ (l ≠ [] → some c ≠ p)
  | [], cache, c => ⟨fun h => ⟨h, fun hne => absurd rfl hne⟩, fun h => h.1⟩
  | e :: l, cache, c => by
    rw [List.foldl_cons, mem_foldl_remove (l := l), List.mem_filter, decide_eq_true_eq]
    constructor
    · rintro ⟨⟨hc, hne⟩, -⟩
      exact ⟨hc, fun _ => hne⟩
    · rintro ⟨hc, hne⟩
      have hne := hne (List.cons_ne_nil e l)
      exact ⟨⟨hc, hne⟩, fun _ => hne⟩

theorem eraseRange_cases {p q : Option Nat} (h : m.eraseRange p q = .ok m') :
    (m'.tree = m.tree.filter fun e => e.id ∉ (m.between p q).map (·.id)) ∧
      (m'.cache = (m.between p q).foldl (fun cache _ => cache.filter (some · ≠ p)) m.cache) ∧
      m'.nextId = m.nextId := by
  unfold eraseRange at h
  dsimp only at h
  split at h
  · cases h
    exact ⟨rfl, rfl, rfl⟩
  · cases h

/-- **The cache has iterators of the tree after the erasure exactly if no other erased entry than the first
was cached.** -/
theorem eraseRange_cached_iff {p q : Option Nat} (h : m.eraseRange p q = .ok m')
    (hcached : ∀ c ∈ m.cache, c ∈ m.tree.map (·.id)) : (∀ c ∈ m'.cache, c ∈ m'.tree.map (·.id)) ↔ EraseOk m p q := by
  obtain ⟨htree, hcache, -⟩ := eraseRange_cases h
  rw [hcache, htree]
  constructor
  · intro hall e he hne hc
    obtain ⟨e', he', hid⟩ := List.mem_map.1 (hall e.id (mem_foldl_remove.2 ⟨hc, fun _ => hne⟩))
    have hnot := of_decide_eq_true (List.mem_filter.1 he').2
    exact hnot (List.mem_map.2 ⟨e, he, hid.symm⟩)
  · intro hok c hc
    obtain ⟨hc, hne⟩ := mem_foldl_remove.1 hc
    obtain ⟨e, he, rfl⟩ := List.mem_map.1 (hcached c hc)
    refine List.mem_map_of_mem (List.mem_filter.2 ⟨he, ?_⟩)
    simp only [decide_eq_true_eq]
    intro hmem
    obtain ⟨e', he', hid⟩ := List.mem_map.1 hmem
    have hne' := hne (List.ne_nil_of_mem he')
    rw [← hid] at hne' hc
    exact hok e' he' hne' hc

theorem eraseRange_ordered (hm : Ordered m) {p q : Option Nat} (hok : EraseOk m p q)
    (h : m.eraseRange p q = .ok m') : Ordered m' := by
  obtain ⟨htree, -, hnext⟩ := eraseRange_cases h
  exact sublist_ordered hm (htree ▸ List.filter_sublist) hnext ((eraseRange_cached_iff h hm.cached).2 hok)

/-! ## Runs -/

/-- A call of the interface. -/
inductive MapCall (V : Type) where
  | insert (r : AddrRange) (d : V)
  | erase (p : Nat)
  | eraseRange (p q : Option Nat)
  | clear
  | contains (r : AddrRange)
  | intersects (r : AddrRange)

/-- One call; `none` when it panics or follows an iterator to an erased node. -/
def call (maxCacheSize : Nat) (m : AddrRangeMap V) : MapCall V → Option (AddrRangeMap V)
  | .insert r d => (m.insert maxCacheSize r d).toOption.map (·.2)
  | .erase p => (m.erase p).toOption
  | .eraseRange p q => (m.eraseRange p q).toOption
  | .clear => some m.clear
  | .contains r => (m.contains maxCacheSize r).toOption.map (·.2)
  | .intersects r => (m.intersects maxCacheSize r).toOption.map (·.2)

def CallOk (m : AddrRangeMap V) : MapCall V → Prop
  | .insert r _ => InsertOk m r
  | .eraseRange p q => EraseOk m p q
  | _ => True

theorem ordered_empty : Ordered ({} : AddrRangeMap V) :=
  linked_empty.ordered (fun _ he => absurd he List.not_mem_nil) .nil

theorem call_ordered {c : MapCall V} (hm : Ordered m) (hok : CallOk m c) (h : call maxCacheSize m c = some m') :
    Ordered m' := by
  cases c with
  | insert r d =>
    obtain ⟨⟨o, m1⟩, hins, rfl⟩ := toOption_map_eq_some.1 h
    exact (insert_iff hm hok hins).1
  | erase p => exact erase_ordered hm (toOption_eq_some.1 h)
  | eraseRange p q => exact eraseRange_ordered hm hok (toOption_eq_some.1 h)
  | clear =>
    cases h
    exact sublist_ordered hm (List.nil_sublist _) rfl fun c hc => absurd hc List.not_mem_nil
  | contains r =>
    obtain ⟨⟨o, m1⟩, hfind, rfl⟩ := toOption_map_eq_some.1 h
    exact find_ordered hm hfind
  | intersects r =>
    obtain ⟨⟨o, m1⟩, hfind, rfl⟩ := toOption_map_eq_some.1 h
    exact find_ordered hm hfind

/-- **Lookup and insertion after any run.** -/
theorem map_lookup (h : Run.Reaches (call maxCacheSize) CallOk ({} : AddrRangeMap V) m) :
    m.tree.Pairwise (fun e e' => ¬ Intersects e.first e'.first) ∧
    (∀ r d o m', InsertOk m r → m.insert maxCacheSize r d = .ok (o, m') →
      (o = none ↔ ∃ e ∈ m.tree, Intersects r e.first)) ∧ (∀ a (ha : a < 2 ^ 64),
      (∃ m', m.containsAddr maxCacheSize a ha = .ok (m.tree.find? (·.first.contains a), m')) ↔ ¬ Hidden m a) := by
  have hm : Ordered m := h.inv ordered_empty fun t c t' ht hok hcall => call_ordered ht hok hcall
  refine ⟨hm.apart.imp fun hap => hap.not_intersects, ?_, fun a ha => containsAddr_iff hm ha⟩
  intro r d o m' hr hins
  exact (insert_iff hm hr hins).2

/-- Stripe `k` of the four stripes of 32 bytes between 64 and 191; address 64 is in stripe 2. -/
def quarter (k : Nat) (hk : k < 4) : AddrRange where
  start := 64
  stop := 191
  intlvHighBit := 6
  intlvBits := 2
  intlvMatch := k
  fits := by decide
  slice := fun _ => ⟨by decide, by decide, hk⟩
  xorSlice := fun _ h => absurd rfl h

theorem quarter_insertOk {m : AddrRangeMap Unit} (k : Nat) (hk : k < 4) (hr : (quarter k hk).Inhabited)
    (h : ∀ e ∈ m.tree, ∃ k hk, e.first = quarter k hk) : CallOk m (.insert (quarter k hk) ()) := by
  refine ⟨hr, fun e he => ?_⟩
  obtain ⟨k, hk, hq⟩ := h e he
  rw [hq]
  rintro ⟨-, -, -, hsize⟩
  simp [size, quarter] at hsize

theorem map_lookup_two_stripes : ∃ m : AddrRangeMap Unit,
    Run.Reaches (call 2) CallOk {} m ∧ m.tree.length = 2 ∧ ¬ Hidden m 64 ∧
      ∃ m', m.containsAddr 2 64 (by decide) = .ok (m.tree.find? (·.first.contains 64), m') := by
  have h0 : Run.Reaches (call 2) CallOk ({} : AddrRangeMap Unit) {} := .refl
  have h1 := h0.step (quarter_insertOk 0 (by decide) ⟨128, by decide⟩
    fun e he => absurd he List.not_mem_nil) rfl
  have h2 := h1.step (quarter_insertOk 2 (by decide) ⟨64, by decide⟩
    fun e he => ⟨0, by decide, by rw [List.mem_singleton.1 he]⟩) rfl
  have hhid := ((map_lookup h2).2.2 64 (by decide)).1 ⟨_, rfl⟩
  exact ⟨_, h2, rfl, hhid, ((map_lookup h2).2.2 64 (by decide)).2 hhid⟩

/-- With all four stripes in the map, the address at which the interleaving starts is not found. -/
theorem map_start_missed : ∃ m : AddrRangeMap Unit, Run.Reaches (call 0) (fun _ _ => True) {} m ∧
      (m.containsAddr 0 64 (by decide)).toOption.map (·.1) = some none ∧
      (m.tree.find? (·.first.contains 64)).isSome = true := by
  have h0 : Run.Reaches (call 0) (fun _ _ => True) ({} : AddrRangeMap Unit) {} := .refl
  have h1 := h0.step (i := .insert (quarter 0 (by decide)) ()) trivial rfl
  have h2 := h1.step (i := .insert (quarter 1 (by decide)) ()) trivial rfl
  have h3 := h2.step (i := .insert (quarter 2 (by decide)) ()) trivial rfl
  have h4 := h3.step (i := .insert (quarter 3 (by decide)) ()) trivial rfl
  exact ⟨_, h4, rfl, rfl⟩

end AddrRangeMap

end Alpine.Base
