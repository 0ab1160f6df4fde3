import Mathlib

/-!
# Linked trees of prefixes

Nodes by name, each with a list of bits, an optional value, a parent and two kids.  A kid extends the bits
of its parent, by any number of bits.

* `Shape` — the nodes form a tree: a root with no bits, kids that point back and extend their parent, two
  kids that differ in the next bit, and below a node everything that extends its bits.
* `Shape.inj`, `Shape.parent_kid`, `Shape.kid_unique` — one node for a list of bits, and one place for a
  node.
* `Shape.setValue`, `Shape.addLeaf`, `Shape.spliceIn`, `Shape.spliceOut`, `Shape.moveKid` — the edits that
  keep it.
-/

namespace Alpine

/-- The nodes by name; a name without bits is not in the tree. -/
structure PrefixTree (V : Type) where
  bits : Nat → Option (List Bool)
  value : Nat → Option V
  parent : Nat → Option Nat
  kids : Nat → Fin 2 → Option Nat

namespace PrefixTree

local instance neZeroTwo : NeZero 2 := ⟨by decide⟩

/-- The tree of a root alone. -/
def bare (V : Type) : PrefixTree V where
  bits x := if x = 0 then some [] else none
  value _ := none
  parent _ := none
  kids _ _ := none

theorem snoc_prefix_of_ne {p q : List Bool} (h : p <+: q) (hne : p ≠ q) : ∃ c, p ++ [c] <+: q := by
  obtain ⟨r, rfl⟩ := h
  cases r with
  | nil => exact absurd (List.append_nil p).symm hne
  | cons c r => exact ⟨c, r, by simp⟩

variable {c : Bool}

theorem snoc_prefix_inj {p q : List Bool} {d : Bool} (hc : p ++ [c] <+: q) (hd : p ++ [d] <+: q) : c = d := by
  have heq := List.prefix_of_prefix_length_le hc hd (by simp)
  simpa using heq.eq_of_length (by simp)

theorem snoc_prefix_irrefl {p : List Bool} (h : p ++ [c] <+: p) : False := by
  have hlen := h.length_le
  rw [List.length_append, List.length_singleton] at hlen
  omega

theorem snoc_prefix_weaken {p q : List Bool} (h : p ++ [c] <+: q) : p <+: q :=
  (List.prefix_append _ _).trans h

variable {V : Type} {w : Nat} {g : PrefixTree V}

structure Shape (w : Nat) (g : PrefixTree V) : Prop where
  root_bits : g.bits 0 = some []
  root_parent : g.parent 0 = none
  bound : ∀ {a b}, g.bits a = some b → b.length ≤ w
  kid : ∀ {p b i k}, g.bits p = some b → g.kids p i = some k →
    ∃ bk c, g.bits k = some bk ∧ g.parent k = some p ∧ b ++ [c] <+: bk
  apart : ∀ {p b i j x y bx b' c}, g.bits p = some b → g.kids p i = some x → g.kids p j = some y →
    g.bits x = some bx → g.bits y = some b' → b ++ [c] <+: bx → b ++ [c] <+: b' → i = j
  cover : ∀ {p b a ba}, g.bits p = some b → g.bits a = some ba → b <+: ba →
    p = a ∨ ∃ i k bk, g.kids p i = some k ∧ g.bits k = some bk ∧ bk <+: ba

variable {p : Nat} {b ba : List Bool} {i : Fin 2}

namespace Shape

theorem bare (w : Nat) (V : Type) : Shape w (PrefixTree.bare V) := by
  constructor <;> simp only [PrefixTree.bare] <;> grind

theorem kid_ne_root (hs : Shape w g) {k : Nat} (hp : g.bits p = some b) (hk : g.kids p i = some k) : k ≠ 0 := by
  intro h0
  obtain ⟨bk, c, _, hpar, _⟩ := hs.kid hp hk
  rw [h0, hs.root_parent] at hpar
  cases hpar

theorem inj (hs : Shape w g) {x y : Nat} (hx : g.bits x = some b) (hy : g.bits y = some b) : x = y := by
  rcases hs.cover hx hy (List.prefix_refl b) with heq | ⟨i, k, bk, hk, hbk, hpre⟩
  · exact heq
  · obtain ⟨bk', c, hbk', _, hext⟩ := hs.kid hx hk
    rw [hbk] at hbk'
    cases hbk'
    exact (snoc_prefix_irrefl (hext.trans hpre)).elim

/-- Every node but the root is a kid of its parent. -/
theorem parent_kid (hs : Shape w g) {a : Nat} (ha : g.bits a = some ba) (ha0 : a ≠ 0) :
    ∃ p b i, g.parent a = some p ∧ g.bits p = some b ∧ g.kids p i = some a := by
  -- walk down from a node above `a` until `a` is a kid
  have hwalk : ∀ m p b, g.bits p = some b → b <+: ba → p ≠ a → ba.length - b.length ≤ m →
      ∃ q bq i, g.bits q = some bq ∧ g.kids q i = some a := by
    intro m
    induction m with
    | zero =>
      intro p b hp hpre hne hlen
      have heq := hpre.eq_of_length_le (by omega)
      subst heq
      exact (hne (hs.inj hp ha)).elim
    | succ m ih =>
      intro p b hp hpre hne hlen
      rcases hs.cover hp ha hpre with heq | ⟨i, k, bk, hk, hbk, hkpre⟩
      · exact (hne heq).elim
      · by_cases hka : k = a
        · subst hka
          exact ⟨p, b, i, hp, hk⟩
        · obtain ⟨bk', c, hbk', _, hext⟩ := hs.kid hp hk
          rw [hbk] at hbk'
          cases hbk'
          have hl := hext.length_le
          rw [List.length_append, List.length_singleton] at hl
          exact ih k bk hbk hkpre hka (by omega)
  obtain ⟨q, bq, i, hq, hk⟩ := hwalk _ 0 [] hs.root_bits List.nil_prefix ha0.symm Nat.le.refl
  obtain ⟨_, _, _, hpar, _⟩ := hs.kid hq hk
  exact ⟨q, bq, i, hpar, hq, hk⟩

theorem kid_unique (hs : Shape w g) {q a : Nat} {bq : List Bool} {j : Fin 2} (hp : g.bits p = some b)
    (hq : g.bits q = some bq) (hi : g.kids p i = some a) (hj : g.kids q j = some a) : p = q ∧ i = j := by
  obtain ⟨ba, c, ha, hpar, hext⟩ := hs.kid hp hi
  obtain ⟨_, _, _, hpar', _⟩ := hs.kid hq hj
  rw [hpar] at hpar'
  cases hpar'
  exact ⟨rfl, hs.apart hp hi hj ha ha hext hext⟩

/-- The kid with the next bit of a node below leads to that node. -/
theorem kid_of_snoc (hs : Shape w g) {k a : Nat} {bk : List Bool} (hp : g.bits p = some b)
    (hi : g.kids p i = some k) (hk : g.bits k = some bk) (ha : g.bits a = some ba) (hkc : b ++ [c] <+: bk)
    (hac : b ++ [c] <+: ba) : bk <+: ba := by
  rcases hs.cover hp ha (snoc_prefix_weaken hac) with heq | ⟨j, y, b', hj, hy, hpre⟩
  · subst heq
    rw [hp] at ha
    cases ha
    exact (snoc_prefix_irrefl hac).elim
  · obtain ⟨b'', d, hy', _, hext⟩ := hs.kid hp hj
    rw [hy] at hy'
    cases hy'
    have hd := snoc_prefix_inj hac (hext.trans hpre)
    subst hd
    have hij := hs.apart hp hi hj hk hy hkc hext
    subst hij
    rw [hi] at hj
    cases hj
    rw [hk] at hy
    cases hy
    exact hpre

end Shape

/-! ## The edits -/

def setValue (g : PrefixTree V) (a : Nat) (v : Option V) : PrefixTree V :=
  { g with value := Function.update g.value a v }

/-- A new node `f` with bits `q` and value `v`, at place `i` below `p`. -/
def addLeaf (g : PrefixTree V) (p : Nat) (i : Fin 2) (f : Nat) (q : List Bool) (v : Option V) : PrefixTree V where
  bits x := if x = f then some q else g.bits x
  value x := if x = f then v else g.value x
  parent x := if x = f then some p else g.parent x
  kids x j := if x = f then none else if x = p ∧ j = i then some f else g.kids x j

/-- A new node `f` with bits `m` and value `v`, between `p` and its kid `k` at place `i`. -/
def spliceIn (g : PrefixTree V) (p : Nat) (i : Fin 2) (k f : Nat) (m : List Bool) (v : Option V) : PrefixTree V where
  bits x := if x = f then some m else g.bits x
  value x := if x = f then v else g.value x
  parent x := if x = f then some p else if x = k then some f else g.parent x
  kids x j :=
    if x = f then if j = 0 then some k else none
    else if x = p ∧ j = i then some f else g.kids x j

/-- The node `a` leaves its place `i` below `p` to its first kid. -/
def spliceOut (g : PrefixTree V) (p : Nat) (i : Fin 2) (a : Nat) : PrefixTree V where
  bits x := if x = a then none else g.bits x
  value := g.value
  parent x := if g.kids a 0 = some x then some p else g.parent x
  kids x j := if x = p ∧ j = i then g.kids a 0 else g.kids x j

/-- The second kid of `p` moves to the first place. -/
def moveKid (g : PrefixTree V) (p : Nat) : PrefixTree V where
  bits := g.bits
  value := g.value
  parent := g.parent
  kids x j := if x = p then if j = 0 then g.kids p 1 else none else g.kids x j

/-- The node `a` is taken out, and a lone kid of `p` is its first. -/
def takeOut (g : PrefixTree V) (p : Nat) (i : Fin 2) (a : Nat) : PrefixTree V :=
  if ((g.spliceOut p i a).kids p 1).isSome ∧ (g.spliceOut p i a).kids p 0 = none then
    (g.spliceOut p i a).moveKid p
  else g.spliceOut p i a

section TakeOut

variable (g) (p : Nat) (i : Fin 2) (a : Nat)

@[simp] theorem takeOut_bits (x : Nat) : (g.takeOut p i a).bits x = if x = a then none else g.bits x := by
  unfold takeOut
  split <;> rfl

@[simp] theorem takeOut_value : (g.takeOut p i a).value = g.value := by
  unfold takeOut
  split <;> rfl

theorem takeOut_parent (x : Nat) :
    (g.takeOut p i a).parent x = if g.kids a 0 = some x then some p else g.parent x := by
  unfold takeOut
  split <;> rfl

theorem takeOut_kids_of_ne {x : Nat} (hx : x ≠ p) (j : Fin 2) : (g.takeOut p i a).kids x j = g.kids x j := by
  unfold takeOut
  split
  · simp only [moveKid, spliceOut]
    grind
  · simp only [spliceOut]
    grind

theorem takeOut_ordered (h : (g.takeOut p i a).kids p 0 = none) : (g.takeOut p i a).kids p 1 = none := by
  unfold takeOut at h ⊢
  split
  · simp [moveKid]
  · rename_i hc
    rw [if_neg hc] at h
    by_contra h1
    exact hc ⟨Option.isSome_iff_ne_none.2 h1, h⟩

theorem takeOut_kid (h : ∀ j, g.kids p j ≠ none) : (g.takeOut p i a).kids p 0 ≠ none := by
  have h0 := h 0
  have h1 := h 1
  unfold takeOut
  split
  · rename_i hc
    simp only [moveKid, if_true]
    exact Option.isSome_iff_ne_none.1 hc.1
  · rename_i hc
    intro h2
    have h3 : (g.spliceOut p i a).kids p 1 = none := by
      by_contra h3
      exact hc ⟨Option.isSome_iff_ne_none.2 h3, h2⟩
    simp only [spliceOut] at h2 h3
    grind

theorem takeOut_full (h : ∀ j, g.kids p j ≠ none) (hk : g.kids a 0 ≠ none) (j : Fin 2) :
    (g.takeOut p i a).kids p j ≠ none := by
  have hout : ∀ j, (g.spliceOut p i a).kids p j ≠ none := by
    intro j
    have := h j
    simp only [spliceOut]
    grind
  unfold takeOut
  split
  · rename_i hc
    exact (hout 0 hc.2).elim
  · exact hout j

end TakeOut

namespace Shape

/-- No kid of `p` has the next bit, so nothing below `p` has. -/
theorem not_below (hs : Shape w g) (hp : g.bits p = some b)
    (hfree : ∀ {j k bk}, g.kids p j = some k → g.bits k = some bk → ¬ b ++ [c] <+: bk) {a : Nat}
    (ha : g.bits a = some ba) : ¬ b ++ [c] <+: ba := by
  intro hac
  rcases hs.cover hp ha (snoc_prefix_weaken hac) with heq | ⟨j, k, bk, hj, hk, hpre⟩
  · subst heq
    rw [hp] at ha
    cases ha
    exact snoc_prefix_irrefl hac
  · obtain ⟨bk', d, hk', _, hext⟩ := hs.kid hp hj
    rw [hk] at hk'
    cases hk'
    have hd := snoc_prefix_inj hac (hext.trans hpre)
    subst hd
    exact hfree hj hk hext

theorem setValue (hs : Shape w g) (a : Nat) (v : Option V) : Shape w (g.setValue a v) :=
  ⟨hs.root_bits, hs.root_parent, hs.bound, hs.kid, hs.apart, hs.cover⟩

theorem addLeaf (hs : Shape w g) {f : Nat} {q : List Bool} (v : Option V) (hp : g.bits p = some b)
    (hi : g.kids p i = none) (hf : g.bits f = none) (hext : b ++ [c] <+: q) (hlen : q.length ≤ w)
    (hfree : ∀ {j k bk}, g.kids p j = some k → g.bits k = some bk → ¬ b ++ [c] <+: bk) :
    Shape w (g.addLeaf p i f q v) := by
  have hne : ∀ {x bx}, g.bits x = some bx → x ≠ f := by
    rintro x bx hx rfl
    rw [hx] at hf
    cases hf
  have hno : ∀ {x bx}, g.bits x = some bx → ¬ b ++ [c] <+: bx := fun hx => hs.not_below hp hfree hx
  have hr := hs.root_bits
  have hr' := hs.root_parent
  constructor
  · simp only [PrefixTree.addLeaf]
    grind
  · simp only [PrefixTree.addLeaf]
    grind
  · intro a ba ha
    simp only [PrefixTree.addLeaf] at ha
    have := @hs.bound a ba
    grind
  · intro x bx j k hx hk
    simp only [PrefixTree.addLeaf] at hx hk ⊢
    have := @hs.kid x bx j k
    grind
  · intro x bx j j' y y' by' by'' d hx hy hy' hby hby' hd hd'
    simp only [PrefixTree.addLeaf] at hx hy hy' hby hby'
    have := @hs.apart x bx j j' y y' by' by'' d
    have hq : ∀ e, b ++ [e] <+: q → e = c := fun e he => snoc_prefix_inj he hext
    have hnf : ∀ j, g.bits x = some bx → g.kids x j ≠ some f := by
      intro j hx hk
      obtain ⟨bk, _, hbk, _⟩ := hs.kid hx hk
      exact hne hbk rfl
    grind
  · intro x bx y by' hx hy hpre
    simp only [PrefixTree.addLeaf] at hx hy ⊢
    by_cases hxf : x = f
    · -- nothing extends the new leaf
      subst hxf
      grind [hext.trans]
    · rw [if_neg hxf] at hx
      by_cases hyf : y = f
      · subst hyf
        cases (if_pos rfl).symm.trans hy
        rcases List.prefix_or_prefix_of_prefix hpre (snoc_prefix_weaken hext) with hle | hge
        · rcases hs.cover hx hp hle with rfl | ⟨j, k, bk, hk, hbk, hkp⟩
          · exact .inr ⟨i, y, q, by grind⟩
          · exact .inr ⟨j, k, bk, by grind, by grind, hkp.trans (snoc_prefix_weaken hext)⟩
        · by_cases hb : b = bx
          · subst hb
            cases hs.inj hp hx
            exact .inr ⟨i, y, q, by grind⟩
          · obtain ⟨d, hd⟩ := snoc_prefix_of_ne hge hb
            cases snoc_prefix_inj (hd.trans hpre) hext
            exact (hno hx hd).elim
      · rw [if_neg hyf] at hy
        rcases hs.cover hx hy hpre with heq | ⟨j, k, bk, hk, hbk, hkp⟩
        · exact .inl heq
        · exact .inr ⟨j, k, bk, by grind, by grind, hkp⟩

theorem spliceIn (hs : Shape w g) {k f : Nat} {m bk : List Bool} {d : Bool} (v : Option V)
    (hp : g.bits p = some b) (hi : g.kids p i = some k) (hk : g.bits k = some bk) (hf : g.bits f = none)
    (hext : b ++ [c] <+: m) (hm : m ++ [d] <+: bk) : Shape w (g.spliceIn p i k f m v) := by
  have hne : ∀ {x bx}, g.bits x = some bx → x ≠ f := by
    rintro x bx hx rfl
    rw [hx] at hf
    cases hf
  have hlive : ∀ {x bx j y}, g.bits x = some bx → g.kids x j = some y → ∃ b', g.bits y = some b' := by
    intro x bx j y hx hy
    obtain ⟨b', _, hb', _⟩ := hs.kid hx hy
    exact ⟨b', hb'⟩
  have hck : b ++ [c] <+: bk := hext.trans (snoc_prefix_weaken hm)
  have hr := hs.root_bits
  have hr' := hs.root_parent
  have hk0 := hs.kid_ne_root hp hi
  have huniq : ∀ {x bx j}, g.bits x = some bx → g.kids x j = some k → x = p ∧ j = i :=
    fun hx hj => hs.kid_unique hx hp hj hi
  have hml : m.length ≤ w := (snoc_prefix_weaken hm).length_le.trans (hs.bound hk)
  constructor
  · simp only [PrefixTree.spliceIn]
    grind
  · simp only [PrefixTree.spliceIn]
    grind
  · intro a ba ha
    simp only [PrefixTree.spliceIn] at ha
    have := @hs.bound a ba
    grind
  · intro x bx j y hx hy
    simp only [PrefixTree.spliceIn] at hx hy ⊢
    have := @hs.kid x bx j y
    grind
  · intro x bx j j' y y' by' by'' e hx hy hy' hby hby' he he'
    simp only [PrefixTree.spliceIn] at hx hy hy' hby hby'
    have hold := @hs.apart x bx j j' y y' by' by'' e
    have hnext : ∀ e, b ++ [e] <+: m → e = c := fun e he => snoc_prefix_inj he hext
    have hside : ∀ {j y by'}, g.kids p j = some y → g.bits y = some by' → b ++ [c] <+: by' → j = i :=
      fun hj hy hby => hs.apart hp hj hi hy hk hby hck
    have hnf : ∀ j, g.bits x = some bx → g.kids x j ≠ some f := by
      intro j hx hk
      obtain ⟨b', hb'⟩ := hlive hx hk
      exact hne hb' rfl
    grind
  · intro x bx y by' hx hy hpre
    simp only [PrefixTree.spliceIn] at hx hy ⊢
    by_cases hxf : x = f
    · subst hxf
      cases (if_pos rfl).symm.trans hx
      by_cases hyf : y = x
      · exact .inl hyf.symm
      · rw [if_neg hyf] at hy
        have hkp := hs.kid_of_snoc hp hi hk hy hck (hext.trans hpre)
        exact .inr ⟨0, k, bk, by grind, by grind, hkp⟩
    · rw [if_neg hxf] at hx
      by_cases hxp : x = p
      · subst hxp
        by_cases hyf : y = f
        · subst hyf
          cases (if_pos rfl).symm.trans hy
          exact .inr ⟨i, y, m, by grind⟩
        · rw [if_neg hyf] at hy
          rcases hs.cover hx hy hpre with heq | ⟨j, k', bk', hk', hbk', hkp⟩
          · exact .inl heq
          · by_cases hji : j = i
            · subst hji
              rw [hi] at hk'
              cases hk'
              rw [hk] at hbk'
              cases hbk'
              exact .inr ⟨j, f, m, by grind, by grind, (snoc_prefix_weaken hm).trans hkp⟩
            · exact .inr ⟨j, k', bk', by grind, by grind, hkp⟩
      · by_cases hyf : y = f
        · subst hyf
          cases (if_pos rfl).symm.trans hy
          rcases List.prefix_or_prefix_of_prefix hpre (snoc_prefix_weaken hext) with hle | hge
          · rcases hs.cover hx hp hle with heq | ⟨j, k', bk', hk', hbk', hkp⟩
            · exact (hxp heq).elim
            · exact .inr ⟨j, k', bk', by grind, by grind, hkp.trans (snoc_prefix_weaken hext)⟩
          · have hb : b ≠ bx := by
              rintro rfl
              exact hxp (hs.inj hx hp)
            -- below `p` and above `m` there was nothing
            obtain ⟨e, he⟩ := snoc_prefix_of_ne hge hb
            cases snoc_prefix_inj (he.trans hpre) hext
            have hkx := hs.kid_of_snoc hp hi hk hx hck he
            exact (snoc_prefix_irrefl (hm.trans (hkx.trans hpre))).elim
        · rw [if_neg hyf] at hy
          rcases hs.cover hx hy hpre with heq | ⟨j, k', bk', hk', hbk', hkp⟩
          · exact .inl heq
          · exact .inr ⟨j, k', bk', by grind, by grind, hkp⟩

theorem spliceOut (hs : Shape w g) {a : Nat} (hp : g.bits p = some b) (hi : g.kids p i = some a)
    (ha : g.bits a = some ba) (h1 : g.kids a 1 = none) : Shape w (g.spliceOut p i a) := by
  obtain ⟨ba', c, ha', hpar, hext⟩ := hs.kid hp hi
  rw [ha] at ha'
  cases ha'
  have ha0 := hs.kid_ne_root hp hi
  have hap : a ≠ p := by
    rintro rfl
    rw [ha] at hp
    cases hp
    exact snoc_prefix_irrefl hext
  have huniq : ∀ {x bx j}, g.bits x = some bx → g.kids x j = some a → x = p ∧ j = i :=
    fun hx hj => hs.kid_unique hx hp hj hi
  have huniq' : ∀ {x bx j y}, g.bits x = some bx → g.kids x j = some y → g.kids a 0 = some y → x = a :=
    fun hx hj hy => (hs.kid_unique hx ha hj hy).1
  have hkid : ∀ {y}, g.kids a 0 = some y → ∃ b', g.bits y = some b' ∧ b ++ [c] <+: b' ∧ y ≠ a ∧ y ≠ 0 := by
    intro y hy
    obtain ⟨b', d, hb', _, he⟩ := hs.kid ha hy
    refine ⟨b', hb', hext.trans (snoc_prefix_weaken he), ?_, hs.kid_ne_root ha hy⟩
    rintro rfl
    exact hap (huniq ha hy).1
  have hr := hs.root_bits
  have hr' := hs.root_parent
  constructor
  · simp only [PrefixTree.spliceOut]
    grind
  · simp only [PrefixTree.spliceOut]
    grind
  · intro x bx hx
    simp only [PrefixTree.spliceOut] at hx
    have := @hs.bound x bx
    grind
  · intro x bx j y hx hy
    simp only [PrefixTree.spliceOut] at hx hy ⊢
    have := @hs.kid x bx j y
    grind
  · intro x bx j j' y y' by' by'' e hx hy hy' hby hby' he he'
    simp only [PrefixTree.spliceOut] at hx hy hy' hby hby'
    have hold := @hs.apart x bx j j' y y' by' by'' e
    have hside : ∀ {j y by'}, g.kids p j = some y → g.bits y = some by' → b ++ [c] <+: by' → j = i :=
      fun hj hy hby => hs.apart hp hj hi hy ha hby hext
    have hnext : ∀ {e b'}, b ++ [e] <+: b' → b ++ [c] <+: b' → e = c := fun h h' => snoc_prefix_inj h h'
    grind
  · intro x bx y by' hx hy hpre
    simp only [PrefixTree.spliceOut] at hx hy ⊢
    by_cases hxa : x = a
    · grind
    · rw [if_neg hxa] at hx
      by_cases hya : y = a
      · grind
      · rw [if_neg hya] at hy
        rcases hs.cover hx hy hpre with heq | ⟨j, k', bk', hk', hbk', hkp⟩
        · exact .inl heq
        · by_cases hka : k' = a
          · subst hka
            obtain ⟨rfl, rfl⟩ := huniq hx hk'
            rw [ha] at hbk'
            cases hbk'
            rcases hs.cover ha hy hkp with heq | ⟨j', k, bk, hk, hbk, hkp'⟩
            · exact (hya heq.symm).elim
            · have hj' : j' = 0 ∨ j' = 1 := by omega
              rcases hj' with rfl | rfl
              · exact .inr ⟨j, k, bk, by grind, by grind, hkp'⟩
              · rw [h1] at hk
                cases hk
          · exact .inr ⟨j, k', bk', by grind, by grind, hkp⟩

theorem moveKid (hs : Shape w g) (h0 : g.kids p 0 = none) : Shape w (g.moveKid p) := by
  constructor
  · exact hs.root_bits
  · exact hs.root_parent
  · exact hs.bound
  · intro x bx j y hx hy
    simp only [PrefixTree.moveKid] at hx hy ⊢
    have := @hs.kid x bx
    grind
  · intro x bx j j' y y' by' by'' e hx hy hy' hby hby' he he'
    simp only [PrefixTree.moveKid] at hx hy hy' hby hby'
    have hold := @hs.apart x bx
    grind
  · intro x bx y by' hx hy hpre
    rcases hs.cover hx hy hpre with heq | ⟨j, k, bk, hk, hbk, hkp⟩
    · exact .inl heq
    · right
      by_cases hxp : x = p
      · subst hxp
        refine ⟨0, k, bk, ?_, hbk, hkp⟩
        have hj : j = 0 ∨ j = 1 := by omega
        simp only [PrefixTree.moveKid]
        grind
      · refine ⟨j, k, bk, ?_, hbk, hkp⟩
        simp only [PrefixTree.moveKid]
        grind

theorem takeOut (hs : Shape w g) {a : Nat} (hp : g.bits p = some b) (hi : g.kids p i = some a)
    (ha : g.bits a = some ba) (h1 : g.kids a 1 = none) : Shape w (g.takeOut p i a) := by
  have hout := hs.spliceOut hp hi ha h1
  unfold PrefixTree.takeOut
  split
  · rename_i hc
    exact hout.moveKid hc.2
  · exact hout

end Shape

end PrefixTree

end Alpine
