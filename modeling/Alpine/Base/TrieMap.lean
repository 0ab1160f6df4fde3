import Alpine.Base.TrieRemove
import Alpine.Lib.Run

/-!
# The trie is a map of prefixes

* `PrefixMap` — what the trie is for: a handle and a value for every stored prefix; `shortest` looks for
  the shortest stored prefix of a key.
* `called`, `allowed` — the calls of a user, each with its effect on the map.
* `trie_prefixMap` — after any run of allowed calls, lookups, insertions and removals do what the map says,
  and no call ends in a fault.
-/

namespace Alpine.Base

/-- A handle and a value for every stored prefix. -/
abbrev PrefixMap (V : Type) := List Bool → Option (Nat × V)

namespace PrefixMap

variable {V : Type}

/-- The shortest stored prefix that extends `pre` by bits of `rest`. -/
def shortestFrom (m : PrefixMap V) (pre : List Bool) : List Bool → Option (Nat × V)
  | [] => m pre
  | b :: rest =>
    match m pre with
    | some e => some e
    | none => shortestFrom m (pre ++ [b]) rest

/-- The entry of the shortest stored prefix of a key. -/
def shortest (m : PrefixMap V) (key : List Bool) : Option (Nat × V) :=
  m.shortestFrom [] key

theorem shortestFrom_empty : ∀ (rest pre : List Bool), shortestFrom (fun _ => none : PrefixMap V) pre rest = none
  | [], _ => rfl
  | _ :: rest, pre => shortestFrom_empty rest (pre ++ _)

/-- The map without the entry of a handle. -/
def drop (m : PrefixMap V) (handle : Nat) : PrefixMap V := fun q =>
  match m q with
  | some e => if e.1 = handle then none else some e
  | none => none

end PrefixMap

/-- The calls of a user. -/
inductive TrieCall (w : Nat) (V : Type) where
  | insert (key : BitVec w) (width : Nat) (val : V)
  | remove (handle : Nat)
  | removeKey (key : BitVec w)
  | clear

namespace Trie

variable {w : Nat} {V : Type}

/-- The prefix of a key. -/
def pre (key : BitVec w) (width : Nat) : List Bool :=
  (Msb.bits key).take width

/-- A call, and what it does to the map; a call that ends in a fault has no next state. -/
def called (fuel : Nat) (s : Trie w V × PrefixMap V) : TrieCall w V → Option (Trie w V × PrefixMap V)
  | .insert key width val =>
    match s.1.insert fuel key width val with
    | .ok (t, handle) => some (t, Function.update s.2 (pre key width) (some (handle, val)))
    | .error _ => none
  | .remove handle =>
    match s.1.remove fuel handle with
    | .ok (t, _) => some (t, s.2.drop handle)
    | .error _ => none
  | .removeKey key =>
    match s.1.removeKey fuel key with
    | .ok (t, _) =>
      match s.2.shortest (Msb.bits key) with
      | some e => some (t, s.2.drop e.1)
      | none => some (t, s.2)
    | .error _ => none
  | .clear =>
    match s.1.clear fuel with
    | .ok t => some (t, fun _ => none)
    | .error _ => none

/-- A width from 1 to the bits of a key and a prefix that is not stored; the handle of an entry. -/
def allowed (s : Trie w V × PrefixMap V) : TrieCall w V → Prop
  | .insert key width _ => 1 ≤ width ∧ width ≤ w ∧ s.2 (pre key width) = none
  | .remove handle => ∃ q v, s.2 q = some (handle, v)
  | .removeKey _ => True
  | .clear => True

/-- The map holds the entries of the tree. -/
def Holds (m : PrefixMap V) (g : PrefixTree V) : Prop :=
  ∀ q a v, m q = some (a, v) ↔ Entry g q a v

open Alpine.PrefixTree (Shape)

variable {m : PrefixMap V} {g : PrefixTree V} {q : List Bool}

theorem Holds.none_iff (hm : Holds m g) : m q = none ↔ ∀ a v, ¬ Entry g q a v := by
  constructor
  · intro h a v he
    rw [(hm q a v).2 he] at h
    cases h
  · intro h
    cases hq : m q with
    | none => rfl
    | some e => exact (h e.1 e.2 ((hm q e.1 e.2).1 hq)).elim

theorem IsFirst.here (hs : Shape w g) {p key : List Bool} {a : Nat} {v : V} (ha : Entry g p a v)
    (hp : p <+: key) {r : Option Nat} (hr : IsFirst g p key r) : r = some a := by
  have hv : g.value a ≠ none := by
    rw [ha.2]
    exact Option.some_ne_none v
  cases r with
  | none => exact (hv (hr a p ha.1 List.prefix_rfl hp)).elim
  | some c =>
    obtain ⟨bc, hc, hpc, _, _, hfirst⟩ := hr
    have hcp := hfirst a p ha.1 List.prefix_rfl hp hv
    have heq : p = bc := hpc.eq_of_length (Nat.le_antisymm hpc.length_le hcp.length_le)
    subst heq
    rw [hs.inj hc ha.1]

/-- Without one the search goes on with the next bit. -/
theorem IsFirst.next {p rest : List Bool} {b : Bool} (hno : ∀ a v, ¬ Entry g p a v) {r : Option Nat}
    (hr : IsFirst g p (p ++ b :: rest) r) : IsFirst g (p ++ [b]) (p ++ b :: rest) r := by
  have hb : p ++ [b] <+: p ++ b :: rest := ⟨rest, by simp⟩
  have hnext : ∀ {c bc}, g.bits c = some bc → p <+: bc → bc <+: p ++ b :: rest → g.value c ≠ none →
      p ++ [b] <+: bc := by
    intro c bc hc hpc hck hv
    obtain ⟨v, hv⟩ := Option.ne_none_iff_exists'.1 hv
    have hne : p ≠ bc := by
      rintro rfl
      exact hno c v ⟨hc, hv⟩
    obtain ⟨d, hd⟩ := PrefixTree.snoc_prefix_of_ne hpc hne
    cases PrefixTree.snoc_prefix_inj (hd.trans hck) hb
    exact hd
  cases r with
  | none =>
    intro c bc hc hpc hck
    exact hr c bc hc (PrefixTree.snoc_prefix_weaken hpc) hck
  | some a =>
    obtain ⟨ba, ha, hpa, hak, hv, hfirst⟩ := hr
    refine ⟨ba, ha, hnext ha hpa hak hv, hak, hv, ?_⟩
    intro c bc hc hpc hck hvc
    exact hfirst c bc hc (PrefixTree.snoc_prefix_weaken hpc) hck hvc

/-- What the map finds from `p` on. -/
theorem shortestFrom_spec (hs : Shape w g) (hm : Holds m g) :
    ∀ (rest p : List Bool) {r : Option Nat}, IsFirst g p (p ++ rest) r →
      m.shortestFrom p rest = r.bind fun a => (g.value a).map fun v => (a, v)
  | rest, p, r, hr => by
    cases hp : m p with
    | some e =>
      obtain ⟨a, v⟩ := e
      have he := (hm p a v).1 hp
      rw [hr.here hs he (List.prefix_append p rest)]
      have hfound : m.shortestFrom p rest = some (a, v) := by
        cases rest with
        | nil => exact hp
        | cons b rest => simp only [PrefixMap.shortestFrom, hp]
      rw [hfound, Option.bind_some, he.2]
      rfl
    | none =>
      have hno := hm.none_iff.1 hp
      cases rest with
      | nil =>
        rw [PrefixMap.shortestFrom, hp]
        rw [List.append_nil] at hr
        cases r with
        | none => rfl
        | some a =>
          obtain ⟨ba, ha, hpa, hap, hv, _⟩ := hr
          obtain ⟨v, hv⟩ := Option.ne_none_iff_exists'.1 hv
          have heq : p = ba := hpa.eq_of_length (Nat.le_antisymm hpa.length_le hap.length_le)
          subst heq
          exact (hno a v ⟨ha, hv⟩).elim
      | cons b rest =>
        simp only [PrefixMap.shortestFrom, hp]
        have hnext := hr.next hno
        rw [show p ++ b :: rest = (p ++ [b]) ++ rest by simp] at hnext
        exact shortestFrom_spec hs hm rest (p ++ [b]) hnext

theorem lookupHandle_shortest {t : Trie w V} (hinv : TrieInv t g) (hm : Holds m g) {fuel : Nat}
    (hf : w < fuel) (key : BitVec w) : (t.lookupHandle fuel key = .ok none ∧ m.shortest (Msb.bits key) = none) ∨
    ∃ q a v, Entry g q a v ∧ t.lookupHandle fuel key = .ok (some a) ∧ m.shortest (Msb.bits key) = some (a, v) := by
  obtain ⟨r, hrun, hfirst⟩ := lookupHandle_spec hinv.shape hinv.rep hf key
  have hshort : m.shortest (Msb.bits key) = _ :=
    shortestFrom_spec hinv.shape hm (Msb.bits key) [] (r := r) hfirst
  cases r with
  | none => exact .inl ⟨hrun, hshort⟩
  | some a =>
    obtain ⟨q, ha, _, _, hv, _⟩ := hfirst
    obtain ⟨v, hv⟩ := Option.ne_none_iff_exists'.1 hv
    rw [Option.bind_some, hv] at hshort
    exact .inr ⟨q, a, v, ⟨ha, hv⟩, hrun, hshort⟩

theorem lookup_spec {t : Trie w V} (hinv : TrieInv t g) (hm : Holds m g) {fuel : Nat} (hf : w < fuel)
    (key : BitVec w) : t.lookup fuel key = .ok ((m.shortest (Msb.bits key)).map Prod.snd) := by
  rcases lookupHandle_shortest hinv hm hf key with ⟨hrun, hshort⟩ | ⟨q, a, v, he, hrun, hshort⟩
  · simp only [lookup, hrun, hshort, bind, Except.bind]
    rfl
  · simp only [lookup, hrun, hshort, bind, Except.bind, hinv.rep.deref he.1, nodeOf_value, he.2]
    rfl

/-! ## Runs -/

theorem Holds.inserted {g' : PrefixTree V} (hs : Shape w g') (hm : Holds m g) {f : Nat} {v : V}
    (h : Inserted g g' q f v) : Holds (Function.update m q (some (f, v))) g' := by
  intro r a u
  by_cases hr : r = q
  · subst hr
    rw [Function.update_self]
    constructor
    · intro he
      cases he
      exact h.new
    · intro he
      cases hs.inj he.1 h.new.1
      have huv := h.new.2.symm.trans he.2
      cases huv
      rfl
  · rw [Function.update_of_ne hr, h.others r a u hr]
    exact hm r a u

theorem Holds.removed {g' : PrefixTree V} (hm : Holds m g) {a : Nat} (h : Removed g g' a) : Holds (m.drop a) g' := by
  intro r x u
  rw [h r x u, ← hm r x u]
  unfold PrefixMap.drop
  cases hr : m r with
  | none => simp
  | some e =>
    simp only
    split
    · rename_i hea
      subst hea
      constructor
      · intro hx
        cases hx
      · rintro ⟨hx, hxa⟩
        cases hx
        exact (hxa rfl).elim
    · rename_i hea
      constructor
      · intro hx
        cases hx
        exact ⟨rfl, hea⟩
      · exact And.left

/-- A trie and the map that its entries are. -/
def Good (s : Trie w V × PrefixMap V) : Prop :=
  ∃ g, TrieInv s.1 g ∧ Holds s.2 g

theorem Good.empty : Good ((Trie.empty : Trie w V), fun _ => none) := by
  refine ⟨PrefixTree.bare V, .empty, ?_⟩
  intro q a v
  constructor
  · intro h
    cases h
  · rintro ⟨_, h⟩
    cases h

section Calls

variable {fuel : Nat} (hf : w + 1 < fuel) {t : Trie w V} {m : PrefixMap V}

theorem Good.handle_inj (h : Good (t, m)) {q' : List Bool} {a : Nat} {v v' : V} (hq : m q = some (a, v))
    (hq' : m q' = some (a, v')) : q = q' := by
  obtain ⟨g, _, hm⟩ := h
  have he := ((hm q a v).1 hq).1
  have he' := ((hm q' a v').1 hq').1
  rw [he] at he'
  cases he'
  rfl

theorem Good.drop_eq (h : Good (t, m)) {a : Nat} {v : V} (hq : m q = some (a, v)) :
    m.drop a = Function.update m q none := by
  funext r
  unfold PrefixMap.drop
  by_cases hr : r = q
  · subst hr
    simp [hq]
  · rw [Function.update_of_ne hr]
    cases hmr : m r with
    | none => rfl
    | some e =>
      have hne : e.1 ≠ a := by
        rintro rfl
        exact hr (h.handle_inj hmr hq)
      simp only [hne, if_false]

include hf

theorem Good.lookup (h : Good (t, m)) (key : BitVec w) :
    t.lookup fuel key = .ok ((m.shortest (Msb.bits key)).map Prod.snd) := by
  obtain ⟨g, hinv, hm⟩ := h
  exact lookup_spec hinv hm (by omega) key

theorem Good.insert (h : Good (t, m)) {key : BitVec w} {width : Nat} (v : V) (h1 : 1 ≤ width)
    (hwidth : width ≤ w) (hfree : m (pre key width) = none) :
    ∃ t' handle, t.insert fuel key width v = .ok (t', handle) ∧
      Good (t', Function.update m (pre key width) (some (handle, v))) ∧ ∀ q e, m q = some e → e.1 ≠ handle := by
  obtain ⟨g, hinv, hm⟩ := h
  obtain ⟨t', f, g', hrun, hinv', hins⟩ := insert_spec hinv (v := v) h1 hwidth (by omega : w < fuel)
    (hm.none_iff.1 hfree)
  refine ⟨t', f, hrun, ⟨g', hinv', hm.inserted hinv'.shape hins⟩, ?_⟩
  rintro q ⟨a, u⟩ hq rfl
  have hqne : q ≠ pre key width := by
    rintro rfl
    rw [hfree] at hq
    cases hq
  have he := (hins.others q _ u hqne).2 ((hm q _ u).1 hq)
  have hbits := he.1.symm.trans hins.new.1
  cases hbits
  exact hqne rfl

theorem Good.remove (h : Good (t, m)) {a : Nat} {v : V} (hq : m q = some (a, v)) :
    ∃ t', t.remove fuel a = .ok (t', some v) ∧ Good (t', m.drop a) := by
  obtain ⟨g, hinv, hm⟩ := h
  obtain ⟨t', g', hrun, hinv', hrem⟩ := remove_spec hinv ((hm q a v).1 hq) (by omega : 2 ≤ fuel)
  exact ⟨t', hrun, g', hinv', hm.removed hrem⟩

theorem Good.removeKey_eq (h : Good (t, m)) (key : BitVec w) :
    (m.shortest (Msb.bits key) = none → t.removeKey fuel key = .ok (t, none)) ∧
    ∀ a v, m.shortest (Msb.bits key) = some (a, v) →
      (∃ q, m q = some (a, v)) ∧ t.removeKey fuel key = t.remove fuel a := by
  obtain ⟨g, hinv, hm⟩ := h
  rcases lookupHandle_shortest hinv hm (by omega : w < fuel) key with
    ⟨hrun, hshort⟩ | ⟨q, c, u, he, hrun, hshort⟩
  · rw [hshort]
    refine ⟨fun _ => ?_, fun a v h => (nomatch h)⟩
    simp only [Trie.removeKey, hrun, bind, Except.bind]
    rfl
  · rw [hshort]
    refine ⟨fun h => (nomatch h), ?_⟩
    intro a v h
    cases h
    refine ⟨⟨q, (hm q c u).2 he⟩, ?_⟩
    simp only [Trie.removeKey, hrun, bind, Except.bind]

theorem Good.clear (h : Good (t, m)) : ∃ t', t.clear fuel = .ok t' ∧ Good (t', fun _ => none) := by
  obtain ⟨g, hinv, hm⟩ := h
  obtain ⟨t', hrun, hinv'⟩ := clear_spec hinv (by omega : w < fuel)
  refine ⟨t', hrun, PrefixTree.bare V, hinv', ?_⟩
  intro q a v
  constructor
  · intro h
    cases h
  · rintro ⟨_, h⟩
    cases h

theorem Good.called {c : TrieCall w V} {s : Trie w V × PrefixMap V} (h : Good (t, m))
    (hc : allowed (t, m) c) (hs : called fuel (t, m) c = some s) : Good s := by
  cases c with
  | insert key width v =>
    obtain ⟨h1, hwidth, hfree⟩ := hc
    obtain ⟨t', f, hrun, hgood, _⟩ := h.insert hf v h1 hwidth hfree
    simp only [Trie.called, hrun] at hs
    cases hs
    exact hgood
  | remove a =>
    obtain ⟨q, v, hq⟩ := hc
    obtain ⟨t', hrun, hgood⟩ := h.remove hf hq
    simp only [Trie.called, hrun] at hs
    cases hs
    exact hgood
  | removeKey key =>
    obtain ⟨hnone, hsome⟩ := h.removeKey_eq hf key
    cases hshort : m.shortest (Msb.bits key) with
    | none =>
      simp only [Trie.called, hnone hshort, hshort] at hs
      cases hs
      exact h
    | some e =>
      obtain ⟨⟨q, hq⟩, hkey⟩ := hsome e.1 e.2 hshort
      obtain ⟨t', hrun, hgood⟩ := h.remove hf hq
      simp only [Trie.called, hkey, hrun, hshort] at hs
      cases hs
      exact hgood
  | clear =>
    obtain ⟨t', hrun, hgood⟩ := h.clear hf
    simp only [Trie.called, hrun] at hs
    cases hs
    exact hgood

theorem good_of_run {s : Trie w V × PrefixMap V}
    (hrun : Run.Reaches (Trie.called fuel) allowed ((Trie.empty : Trie w V), fun _ => none) s) : Good s := by
  refine hrun.inv (P := Good) Good.empty ?_
  rintro ⟨t, m⟩ c s' hgood hc hs
  exact hgood.called hf hc hs

end Calls

/-- **The trie is a map of prefixes.**  After every run of allowed calls the map tells what a lookup
returns and what a removal returns and leaves, each handle belongs to one prefix, and no allowed call ends
in a panic, a failed assertion, a dangling pointer or an endless loop. -/
theorem trie_prefixMap {fuel : Nat} (hf : w + 1 < fuel) {t : Trie w V} {m : PrefixMap V}
    (hrun : Run.Reaches (called fuel) allowed ((empty : Trie w V), fun _ => none) (t, m)) :
    (∀ key, t.lookup fuel key = .ok ((m.shortest (Msb.bits key)).map Prod.snd)) ∧
    (∀ key width v, 1 ≤ width → width ≤ w → m (pre key width) = none →
      ∃ t' handle, t.insert fuel key width v = .ok (t', handle) ∧ (∀ q e, m q = some e → e.1 ≠ handle) ∧
        ∀ key', t'.lookup fuel key' = .ok ((PrefixMap.shortest
          (Function.update m (pre key width) (some (handle, v))) (Msb.bits key')).map Prod.snd)) ∧
    (∀ q a v, m q = some (a, v) → (∀ q' v', m q' = some (a, v') → q' = q) ∧ ∃ t', t.remove fuel a = .ok (t', some v) ∧
        ∀ key, t'.lookup fuel key =
          .ok ((PrefixMap.shortest (Function.update m q none) (Msb.bits key)).map Prod.snd)) ∧
    (∀ key, (m.shortest (Msb.bits key) = none → t.removeKey fuel key = .ok (t, none)) ∧
      ∀ a v, m.shortest (Msb.bits key) = some (a, v) →
        (∃ q, m q = some (a, v)) ∧ t.removeKey fuel key = t.remove fuel a) ∧
    ∃ t', t.clear fuel = .ok t' ∧ ∀ key, t'.lookup fuel key = .ok none := by
  have hgood := good_of_run hf hrun
  refine ⟨fun key => hgood.lookup hf key, ?_, ?_, ?_, ?_⟩
  · intro key width v h1 hwidth hfree
    obtain ⟨t', handle, hins, hgood', hne⟩ := hgood.insert hf v h1 hwidth hfree
    exact ⟨t', handle, hins, hne, fun key' => hgood'.lookup hf key'⟩
  · intro q a v hq
    refine ⟨fun q' v' hq' => hgood.handle_inj hq' hq, ?_⟩
    obtain ⟨t', hrem, hgood'⟩ := hgood.remove hf hq
    rw [hgood.drop_eq hq] at hgood'
    exact ⟨t', hrem, fun key => hgood'.lookup hf key⟩
  · exact fun key => hgood.removeKey_eq hf key
  · obtain ⟨t', hclear, hgood'⟩ := hgood.clear hf
    refine ⟨t', hclear, fun key => ?_⟩
    rw [hgood'.lookup hf key, PrefixMap.shortest, PrefixMap.shortestFrom_empty]
    rfl

/-- Two nested prefixes are stored and the shorter one is removed. -/
theorem trie_prefixMap_nested : ∃ (t : Trie 4 Nat) (m : PrefixMap Nat),
      Run.Reaches (called 6) allowed ((empty : Trie 4 Nat), fun _ => none) (t, m) ∧
      t.lookup 6 0b1011 = .ok (some 8) := by
  have h0 : Run.Reaches (called 6) allowed ((empty : Trie 4 Nat), fun _ => none)
      ((empty : Trie 4 Nat), fun _ => none) := .refl
  have h₁ := Run.Reaches.step (i := TrieCall.insert (w := 4) 0b1000 1 7) h0
    (And.intro (by decide) (And.intro (by decide) rfl)) rfl
  have h2 := Run.Reaches.step (i := TrieCall.insert (w := 4) 0b1010 3 8) h₁
    (And.intro (by decide) (And.intro (by decide) rfl)) rfl
  have h3 := Run.Reaches.step (i := TrieCall.removeKey (w := 4) 0b1011) h2 trivial rfl
  exact ⟨_, _, h3, (trie_prefixMap (by decide) h3).1 0b1011⟩

end Trie

end Alpine.Base
