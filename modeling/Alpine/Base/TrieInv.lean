import Alpine.Base.Trie
import Alpine.Lib.Msb
import Alpine.Lib.PrefixTree
import Alpine.Lib.Outcome

/-!
# The invariant of the trie

* `Rep` — the heap holds a tree of prefixes, each as the key and the mask of its node.
* `TrieInv` — the tree has its shape, a lone kid is the first one, and a node without a value has two kids.
* `walk_spec`, `legMask_spec` — the loops of `insert` stop, and where.
* `lookupHandle_spec` — a lookup ends at the first node with a value on the way to its key.
-/

namespace Alpine.Base.Trie

open Alpine.Msb
open Alpine.PrefixTree (Shape)

variable {w : Nat} {V : Type}

/-- The node that stands for the name `a` with bits `b`. -/
def nodeOf (w : Nat) (g : PrefixTree V) (a : Nat) (b : List Bool) : TrieNode w V where
  key := word w b
  mask := mask w b.length
  value := g.value a
  parent := g.parent a
  kids := g.kids a

@[simp] theorem nodeOf_kids (g : PrefixTree V) (a : Nat) (b : List Bool) : (nodeOf w g a b).kids = g.kids a := rfl

@[simp] theorem nodeOf_value (g : PrefixTree V) (a : Nat) (b : List Bool) : (nodeOf w g a b).value = g.value a := rfl

@[simp] theorem nodeOf_parent (g : PrefixTree V) (a : Nat) (b : List Bool) :
    (nodeOf w g a b).parent = g.parent a := rfl

@[simp] theorem nodeOf_mask (g : PrefixTree V) (a : Nat) (b : List Bool) :
    (nodeOf w g a b).mask = mask w b.length := rfl

@[simp] theorem nodeOf_key (g : PrefixTree V) (a : Nat) (b : List Bool) : (nodeOf w g a b).key = word w b := rfl

def Rep (t : Trie w V) (g : PrefixTree V) : Prop :=
  ∀ a b, g.bits a = some b → t.nodes a = some (nodeOf w g a b)

/-- The prefix `q` is stored with value `v` in the node `a`. -/
def Entry (g : PrefixTree V) (q : List Bool) (a : Nat) (v : V) : Prop :=
  g.bits a = some q ∧ g.value a = some v

structure Standing (t : Trie w V) (g : PrefixTree V) : Prop where
  shape : Shape w g
  rep : Rep t g
  fresh : ∀ a, t.fresh ≤ a → g.bits a = none
  root_value : g.value 0 = none
  ordered : ∀ p b, g.bits p = some b → g.kids p 0 = none → g.kids p 1 = none

structure TrieInv (t : Trie w V) (g : PrefixTree V) : Prop extends Standing t g where
  filled : ∀ a b, g.bits a = some b → a ≠ 0 → g.value a = none → g.kids a 1 ≠ none

/-! ## Keys and masks -/

theorem extendMask_mask (n : Nat) (hw : 0 < w) : extendMask (mask w n) = mask w (n + 1) :=
  mask_succ n hw

theorem widthMask_eq {width : Nat} (h : width ≤ w) : widthMask w width = mask w width := by
  unfold widthMask
  split
  · exact mask_shift width h
  · rw [show width = w by omega, mask_full]

theorem make_mask (q : List Bool) (n : Nat) (v : Option V) :
    TrieNode.make (word w q) (mask w n) v = { key := word w (q.take n), mask := mask w n, value := v } := by
  unfold TrieNode.make
  rw [word_and_mask]

variable {g : PrefixTree V} {b q : List Bool}

theorem nodeOf_matches {a : Nat} (hb : b.length ≤ w) (hq : b.length ≤ q.length) :
    (nodeOf w g a b).matches (word w q) = true ↔ b <+: q := by
  unfold TrieNode.matches nodeOf
  rw [beq_iff_eq, word_and_mask, List.prefix_iff_eq_take]
  constructor
  · intro h
    have hlen : (q.take b.length).length = b.length := by
      rw [List.length_take]
      omega
    exact (word_inj hlen (by omega) h).symm
  · intro h
    rw [← h]

variable {t : Trie w V}

theorem Rep.deref (hr : Rep t g) {a : Nat} (ha : g.bits a = some b) : t.deref a = .ok (nodeOf w g a b) := by
  unfold Trie.deref
  rw [hr a b ha]

/-! ## The walks -/

theorem goesAfter_some (hs : Shape w g) (hr : Rep t g) {k : Nat} {bk : List Bool} (hk : g.bits k = some bk)
    (hq : bk <+: q) : t.goesAfter (some k) (word w q) (mask w q.length) = .ok (some k) := by
  have hm := (nodeOf_matches (g := g) (a := k) (hs.bound hk) hq.length_le).2 hq
  have hsub : (nodeOf w g k bk).mask &&& mask w q.length = (nodeOf w g k bk).mask := by
    rw [nodeOf_mask, mask_and, Nat.min_eq_left hq.length_le]
  simp only [goesAfter, hr.deref hk, bind, Except.bind, hm, hsub, beq_self_eq_true, Bool.and_self, if_true]
  rfl

theorem goesAfter_none (hs : Shape w g) (hr : Rep t g) {p : Nat} {i : Fin 2} (hp : g.bits p = some b)
    (hql : q.length ≤ w) (hno : ∀ {k bk}, g.kids p i = some k → g.bits k = some bk → ¬ bk <+: q) :
    t.goesAfter (g.kids p i) (word w q) (mask w q.length) = .ok none := by
  cases hk : g.kids p i with
  | none => rfl
  | some k =>
    obtain ⟨bk, c, hbk, _, _⟩ := hs.kid hp hk
    have hnot := hno hk hbk
    simp only [goesAfter, hr.deref hbk, bind, Except.bind]
    by_cases hle : bk.length ≤ q.length
    · have hm : (nodeOf w g k bk).matches (word w q) = false := by
        rw [Bool.eq_false_iff]
        intro h
        exact hnot ((nodeOf_matches (hs.bound hbk) hle).1 h)
      simp only [hm, Bool.false_and]
      rfl
    · have hm : ((nodeOf w g k bk).mask &&& mask w q.length == (nodeOf w g k bk).mask) = false := by
        rw [Bool.eq_false_iff, ne_eq, beq_iff_eq, nodeOf_mask, mask_and]
        intro h
        have := mask_inj (by omega) (hs.bound hbk) h
        omega
      simp only [hm, Bool.and_false]
      rfl

/-- The walk stops at a node whose kids do not lie on the way to `q`. -/
theorem walk_spec (hs : Shape w g) (hr : Rep t g) (hql : q.length ≤ w) :
    ∀ (fuel a : Nat) (b : List Bool), g.bits a = some b → b <+: q →
      q.length < fuel + b.length → ∃ p bp, t.walk (word w q) (mask w q.length) fuel a = .ok p ∧
        g.bits p = some bp ∧ bp <+: q ∧ ∀ {i k bk}, g.kids p i = some k → g.bits k = some bk → ¬ bk <+: q
  | 0, a, b, ha, hb, hf => by
    have := hb.length_le
    omega
  | fuel + 1, a, b, ha, hb, hf => by
    have hstep : ∀ {i k bk}, g.kids a i = some k → g.bits k = some bk → bk <+: q →
        q.length < fuel + bk.length := by
      intro i k bk hk hbk _
      obtain ⟨bk', c, hbk', _, hext⟩ := hs.kid ha hk
      rw [hbk] at hbk'
      cases hbk'
      have hl := hext.length_le
      rw [List.length_append, List.length_singleton] at hl
      omega
    simp only [walk, hr.deref ha, bind, Except.bind, nodeOf_kids]
    by_cases h0 : ∃ k bk, g.kids a 0 = some k ∧ g.bits k = some bk ∧ bk <+: q
    · obtain ⟨k, bk, hk, hbk, hpre⟩ := h0
      rw [hk, goesAfter_some hs hr hbk hpre]
      exact walk_spec hs hr hql fuel k bk hbk hpre (hstep hk hbk hpre)
    · have hn0 : ∀ {k bk}, g.kids a 0 = some k → g.bits k = some bk → ¬ bk <+: q :=
        fun hk hbk hpre => h0 ⟨_, _, hk, hbk, hpre⟩
      rw [goesAfter_none hs hr ha hql hn0]
      by_cases h1 : ∃ k bk, g.kids a 1 = some k ∧ g.bits k = some bk ∧ bk <+: q
      · obtain ⟨k, bk, hk, hbk, hpre⟩ := h1
        simp only
        rw [hk, goesAfter_some hs hr hbk hpre]
        exact walk_spec hs hr hql fuel k bk hbk hpre (hstep hk hbk hpre)
      · have hn1 : ∀ {k bk}, g.kids a 1 = some k → g.bits k = some bk → ¬ bk <+: q :=
          fun hk hbk hpre => h1 ⟨_, _, hk, hbk, hpre⟩
        simp only
        rw [goesAfter_none hs hr ha hql hn1]
        refine ⟨a, b, rfl, ha, hb, ?_⟩
        intro i k bk hk
        have hi : i = 0 ∨ i = 1 := by omega
        rcases hi with rfl | rfl
        · exact hn0 hk
        · exact hn1 hk

/-- The loop down a leg stops at the bits that the two keys share. -/
theorem legMask_spec {p : List Bool} (hw : 0 < w) (hp : p.length ≤ w) (hq : q.length ≤ w) (hnot : ¬ p <+: q) :
    ∀ (fuel j : Nat), q.take j = p.take j → j ≤ q.length → q.length < fuel + j →
      ∃ l, legMask (word w q) (word w p) (mask w q.length) fuel (mask w j) = .ok (mask w l) ∧
        j ≤ l ∧ l ≤ q.length ∧ l < p.length ∧ q.take l = p.take l ∧ (l = q.length ∨ q.take (l + 1) ≠ p.take (l + 1))
  | 0, j, _, hj, hf => by omega
  | fuel + 1, j, heq, hj, hf => by
    have hjp : j < p.length := by
      by_contra hge
      rw [List.take_of_length_le (l := p) (by omega)] at heq
      exact hnot (heq ▸ List.take_prefix j q)
    unfold legMask
    simp only [extendMask_mask j hw, word_and_mask]
    by_cases hdone : word w (q.take (j + 1)) ≠ word w (p.take (j + 1)) ∨ mask w j = mask w q.length
    · rw [if_pos hdone]
      refine ⟨j, rfl, Nat.le.refl, hj, hjp, heq, ?_⟩
      rcases hdone with hne | hm
      · exact .inr fun h => hne (by rw [h])
      · exact .inl (mask_inj (by omega) hq hm)
    · rw [if_neg hdone]
      rw [not_or, not_not] at hdone
      obtain ⟨hsame, hm⟩ := hdone
      have hjq : j < q.length := by
        rcases Nat.lt_or_eq_of_le hj with h | h
        · exact h
        · exact absurd (by rw [h]) hm
      have hnext : q.take (j + 1) = p.take (j + 1) := by
        apply word_inj _ _ hsame
        · rw [List.length_take, List.length_take]
          omega
        · rw [List.length_take]
          omega
      obtain ⟨l, hl, hjl, hrest⟩ := legMask_spec hw hp hq hnot fuel (j + 1) hnext hjq (by omega)
      exact ⟨l, hl, by omega, hrest⟩

/-! ## Lookup -/

/-- The first node with a value on the way from `b` to `key`, none if there is none. -/
def IsFirst (g : PrefixTree V) (b key : List Bool) : Option Nat → Prop
  | none => ∀ c bc, g.bits c = some bc → b <+: bc → bc <+: key → g.value c = none
  | some a => ∃ ba, g.bits a = some ba ∧ b <+: ba ∧ ba <+: key ∧ g.value a ≠ none ∧
      ∀ c bc, g.bits c = some bc → b <+: bc → bc <+: key → g.value c ≠ none → ba <+: bc

theorem kidMatches_true (hs : Shape w g) (hr : Rep t g) {k : Nat} {bk : List Bool} {key : BitVec w}
    (hk : g.bits k = some bk) (hpre : bk <+: Msb.bits key) : t.kidMatches (some k) key = .ok true := by
  have hm := (nodeOf_matches (g := g) (a := k) (hs.bound hk) hpre.length_le).2 hpre
  rw [word_bits] at hm
  simp only [kidMatches, hr.deref hk, bind, Except.bind, hm]
  rfl

theorem kidMatches_false (hs : Shape w g) (hr : Rep t g) {p : Nat} {i : Fin 2} {key : BitVec w}
    (hp : g.bits p = some b) (hno : ∀ {k bk}, g.kids p i = some k → g.bits k = some bk → ¬ bk <+: Msb.bits key) :
    t.kidMatches (g.kids p i) key = .ok false := by
  cases hk : g.kids p i with
  | none => rfl
  | some k =>
    obtain ⟨bk, c, hbk, _, _⟩ := hs.kid hp hk
    have hm : (nodeOf w g k bk).matches key = false := by
      rw [Bool.eq_false_iff]
      intro h
      rw [← word_bits key] at h
      have hle : bk.length ≤ (Msb.bits key).length := by
        rw [length_bits]
        exact hs.bound hbk
      exact hno hk hbk ((nodeOf_matches (hs.bound hbk) hle).1 h)
    simp only [kidMatches, hr.deref hbk, bind, Except.bind, hm]
    rfl

/-- What a kid on the way finds first, its parent without a value finds first. -/
theorem IsFirst.of_kid (hs : Shape w g) {p k : Nat} {bk key : List Bool} {i : Fin 2} (hp : g.bits p = some b)
    (hv : g.value p = none) (hi : g.kids p i = some k) (hk : g.bits k = some bk) (hpre : bk <+: key) :
    ∀ {r : Option Nat}, IsFirst g bk key r → IsFirst g b key r := by
  obtain ⟨bk', d, hk', _, hext⟩ := hs.kid hp hi
  rw [hk] at hk'
  cases hk'
  -- a node with a value between `b` and `key` is not `p`, so it lies below the kid
  have hbelow : ∀ c bc, g.bits c = some bc → b <+: bc → bc <+: key → g.value c ≠ none → bk <+: bc := by
    intro c bc hc hbc hck hvc
    have hne : b ≠ bc := by
      rintro rfl
      cases hs.inj hp hc
      exact hvc hv
    obtain ⟨e, he⟩ := PrefixTree.snoc_prefix_of_ne hbc hne
    cases PrefixTree.snoc_prefix_inj (he.trans hck) (hext.trans hpre)
    exact hs.kid_of_snoc hp hi hk hc hext he
  intro r hr
  cases r with
  | none =>
    intro c bc hc hbc hck
    by_contra hvc
    exact hvc (hr c bc hc (hbelow c bc hc hbc hck hvc) hck)
  | some a =>
    obtain ⟨ba, ha, hka, hak, hva, hfirst⟩ := hr
    refine ⟨ba, ha, (PrefixTree.snoc_prefix_weaken hext).trans hka, hak, hva, ?_⟩
    intro c bc hc hbc hck hvc
    exact hfirst c bc hc (hbelow c bc hc hbc hck hvc) hck hvc

theorem lookupFrom_spec (hs : Shape w g) (hr : Rep t g) (key : BitVec w) :
    ∀ (fuel p : Nat) (b : List Bool), g.bits p = some b → b <+: Msb.bits key →
      w < fuel + b.length → ∃ r, t.lookupFrom key fuel p = .ok r ∧ IsFirst g b (Msb.bits key) r
  | 0, p, b, hp, hb, hf => by
    have hl := hb.length_le
    rw [length_bits] at hl
    omega
  | fuel + 1, p, b, hp, hb, hf => by
    by_cases hv : g.value p = none
    · simp only [lookupFrom, hr.deref hp, bind, Except.bind, nodeOf_value, nodeOf_kids, hv,
        Option.isSome_none, Bool.false_eq_true, if_false]
      have hgo : ∀ {i k bk}, g.kids p i = some k → g.bits k = some bk → bk <+: Msb.bits key →
          ∃ r, t.lookupFrom key fuel k = .ok r ∧ IsFirst g b (Msb.bits key) r := by
        intro i k bk hi hk hpre
        obtain ⟨bk', d, hk', _, hext⟩ := hs.kid hp hi
        rw [hk] at hk'
        cases hk'
        have hl := hext.length_le
        rw [List.length_append, List.length_singleton] at hl
        obtain ⟨r, hrun, hfirst⟩ := lookupFrom_spec hs hr key fuel k bk hk hpre (by omega)
        exact ⟨r, hrun, .of_kid hs hp hv hi hk hpre hfirst⟩
      by_cases h0 : ∃ k bk, g.kids p 0 = some k ∧ g.bits k = some bk ∧ bk <+: Msb.bits key
      · obtain ⟨k, bk, hi, hk, hpre⟩ := h0
        rw [hi, kidMatches_true hs hr hk hpre]
        exact hgo hi hk hpre
      · have hn0 : ∀ {k bk}, g.kids p 0 = some k → g.bits k = some bk → ¬ bk <+: Msb.bits key :=
          fun hk hbk hpre => h0 ⟨_, _, hk, hbk, hpre⟩
        rw [kidMatches_false hs hr hp hn0]
        simp only [Bool.false_eq_true, if_false]
        by_cases h1 : ∃ k bk, g.kids p 1 = some k ∧ g.bits k = some bk ∧ bk <+: Msb.bits key
        · obtain ⟨k, bk, hi, hk, hpre⟩ := h1
          rw [hi, kidMatches_true hs hr hk hpre]
          exact hgo hi hk hpre
        · have hn1 : ∀ {k bk}, g.kids p 1 = some k → g.bits k = some bk → ¬ bk <+: Msb.bits key :=
            fun hk hbk hpre => h1 ⟨_, _, hk, hbk, hpre⟩
          rw [kidMatches_false hs hr hp hn1]
          refine ⟨none, rfl, ?_⟩
          intro c bc hc hbc hck
          rcases hs.cover hp hc hbc with rfl | ⟨i, k, bk, hi, hk, hpre⟩
          · exact hv
          · have hi' : i = 0 ∨ i = 1 := by omega
            rcases hi' with rfl | rfl
            · exact (hn0 hi hk (hpre.trans hck)).elim
            · exact (hn1 hi hk (hpre.trans hck)).elim
    · simp only [lookupFrom, hr.deref hp, bind, Except.bind, nodeOf_value, nodeOf_kids,
        Option.isSome_iff_ne_none.2 hv, if_true]
      refine ⟨some p, rfl, b, hp, List.prefix_rfl, hb, hv, ?_⟩
      intro c bc _ hbc _ _
      exact hbc

theorem lookupHandle_spec (hs : Shape w g) (hr : Rep t g) {fuel : Nat} (hf : w < fuel) (key : BitVec w) :
    ∃ r, t.lookupHandle fuel key = .ok r ∧ IsFirst g [] (Msb.bits key) r :=
  lookupFrom_spec hs hr key fuel 0 [] hs.root_bits List.nil_prefix (by simpa using hf)

end Alpine.Base.Trie
