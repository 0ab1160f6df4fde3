import Alpine.Base.TrieInsert

/-!
# Removal from the trie

* `remove_step` — a node with at most one kid is taken out of the tree, and then its parent if it has
  become superfluous.
* `remove_spec` — the recursion goes up once at most, the entry of the handle is gone and no other changes.
* `clearNode_spec`, `clear_spec` — the root is left alone.
-/

namespace Alpine.Base.Trie

open Alpine.Msb
open Alpine.PrefixTree (Shape)

attribute [local instance] PrefixTree.neZeroTwo

variable {w : Nat} {V : Type}

/-! ## Removal -/

/-- What a step of a removal does: the tree becomes `g`, and what was allocated still is, but for the nodes
in `gone`. -/
structure Cut (t t' : Trie w V) (g : PrefixTree V) (gone : Nat → Prop) : Prop where
  rep : Rep t' g
  fresh : t'.fresh = t.fresh
  allocated : ∀ x, ¬ gone x → t.nodes x ≠ none → t'.nodes x ≠ none

variable {t : Trie w V} {g : PrefixTree V}

theorem Cut.refl (hr : Rep t g) (gone : Nat → Prop) : Cut t t g gone :=
  ⟨hr, rfl, fun _ _ h => h⟩

theorem Cut.trans {t1 t2 : Trie w V} {g1 g2 : PrefixTree V} {gone : Nat → Prop} (h₁ : Cut t t1 g1 gone)
    (h2 : Cut t1 t2 g2 gone) : Cut t t2 g2 gone :=
  ⟨h2.rep, h2.fresh.trans h₁.fresh, fun x hx h => h2.allocated x hx (h₁.allocated x hx h)⟩

variable {a : Nat} {b : List Bool}

theorem modify_cut {g' : PrefixTree V} (hr : Rep t g) (ha : g.bits a = some b)
    {f : TrieNode w V → TrieNode w V} (hbits : ∀ {x bx}, g'.bits x = some bx → g.bits x = some bx)
    (hself : g'.bits a = some b → f (nodeOf w g a b) = nodeOf w g' a b)
    (hrest : ∀ {x bx}, x ≠ a → g'.bits x = some bx → nodeOf w g x bx = nodeOf w g' x bx) (gone : Nat → Prop) :
    ∃ t', t.modify a f = .ok t' ∧ Cut t t' g' gone := by
  refine ⟨_, modify_eq (hr a b ha) f, ?_, rfl, ?_⟩
  · intro x bx hx
    by_cases hxa : x = a
    · subst hxa
      have hx' := hbits hx
      rw [ha] at hx'
      cases hx'
      simp [hself hx]
    · simp [hxa, hr x bx (hbits hx), hrest hxa hx]
  · intro x _ hx
    by_cases hxa : x = a
    · subst hxa
      simp
    · simpa [hxa] using hx

theorem adopt_spec (hs : Shape w g) (hr : Rep t g) {ba : List Bool} (p : Nat) (ha : g.bits a = some ba)
    (gone : Nat → Prop) : ∃ t', t.adopt (g.kids a 0) p = .ok t' ∧
      Cut t t' { g with parent := fun x => if g.kids a 0 = some x then some p else g.parent x } gone := by
  cases hk : g.kids a 0 with
  | none =>
    refine ⟨t, rfl, ?_, rfl, fun _ _ h => h⟩
    intro x bx hx
    simp [hr x bx hx, nodeOf]
  | some k =>
    obtain ⟨bk, c, hbk, _, _⟩ := hs.kid ha hk
    refine modify_cut hr hbk ?_ ?_ ?_ gone
    · exact id
    · intro _
      simp [nodeOf]
    · intro x bx hxk _
      simp [nodeOf, Ne.symm hxk]

theorem replaceKid_spec (hs : Shape w g) {p : Nat} {i : Fin 2} (hp : g.bits p = some b) (hpi : g.kids p i = some a)
    (hr : Rep t { g with parent := fun x => if g.kids a 0 = some x then some p else g.parent x })
    (gone : Nat → Prop) :
    ∃ t', t.replaceKid p a (g.kids a 0) = .ok t' ∧ Cut t t' (g.spliceOut p i a) gone := by
  have hmod : ∀ j, g.kids p j = some a → ∃ t', (t.modify p fun n => n.setKid j (g.kids a 0)) = .ok t' ∧
      Cut t t' (g.spliceOut p i a) gone := by
    intro j hj
    obtain ⟨_, rfl⟩ := hs.kid_unique hp hp hpi hj
    refine modify_cut hr hp ?_ ?_ ?_ gone
    · intro x bx hx
      simp only [PrefixTree.spliceOut] at hx
      grind
    · intro _
      simp only [TrieNode.setKid, nodeOf, PrefixTree.spliceOut, true_and]
      congr 1
      funext j
      rw [Function.update_apply]
    · intro x bx hxp _
      simp [nodeOf, PrefixTree.spliceOut, hxp]
  by_cases h0 : g.kids p 0 = some a
  · simp only [replaceKid, hr.deref hp, bind, Except.bind, nodeOf_kids, h0, if_true]
    exact hmod 0 h0
  · have hi2 : i = 0 ∨ i = 1 := by omega
    rcases hi2 with rfl | rfl
    · exact (h0 hpi).elim
    · simp only [replaceKid, hr.deref hp, bind, Except.bind, nodeOf_kids, h0, if_false, hpi, if_true]
      exact hmod 1 hpi

theorem straighten_spec {p : Nat} {i : Fin 2} (hr : Rep t (g.spliceOut p i a)) (hp : g.bits p = some b)
    (hpa : p ≠ a) (gone : Nat → Prop) : ∃ t', t.straighten p = .ok t' ∧ Cut t t' (g.takeOut p i a) gone := by
  have hp' : (g.spliceOut p i a).bits p = some b := (if_neg hpa).trans hp
  unfold PrefixTree.takeOut
  by_cases hc : ((g.spliceOut p i a).kids p 1).isSome ∧ (g.spliceOut p i a).kids p 0 = none
  · simp only [straighten, hr.deref hp', bind, Except.bind, nodeOf_kids, hc, and_self, if_true]
    refine modify_cut hr hp' ?_ ?_ ?_ gone
    · exact id
    · intro _
      simp only [TrieNode.setKid, nodeOf, PrefixTree.moveKid, if_true]
      congr 1
      funext j
      rw [Function.update_apply, Function.update_apply]
      grind
    · intro x bx hxp _
      simp [nodeOf, PrefixTree.moveKid, hxp]
  · simp only [straighten, hr.deref hp', bind, Except.bind, nodeOf_kids, hc, if_false]
    exact ⟨t, rfl, .refl hr gone⟩

/-- Less than two kids, no cargo, and not the root. -/
def Superfluous (g : PrefixTree V) (p : Nat) : Prop :=
  g.kids p 1 = none ∧ g.value p = none ∧ (g.parent p).isSome

/-- A node with at most one kid is taken out; then its parent is, if it has become superfluous. -/
theorem remove_step (hi : Standing t g) {p : Nat} {ba : List Bool} {i : Fin 2} (hp : g.bits p = some b)
    (hpi : g.kids p i = some a) (ha : g.bits a = some ba) (h1 : g.kids a 1 = none) :
    ∃ t', Standing t' (g.takeOut p i a) ∧ (∀ x, t.nodes x ≠ none → t'.nodes x ≠ none) ∧
      (g.takeOut p i a).bits p = some b ∧ (g.takeOut p i a).parent p = g.parent p ∧
      (¬ Superfluous (g.takeOut p i a) p → ∀ fuel u, t'.delete a = .ok u →
        t.remove (fuel + 1) a = .ok (u, g.value a)) ∧
      (Superfluous (g.takeOut p i a) p → ∀ fuel s r u, t'.remove fuel p = .ok (s, r) →
        s.delete a = .ok u → t.remove (fuel + 1) a = .ok (u, g.value a)) := by
  obtain ⟨ba', c, ha', hpar, hext⟩ := hi.shape.kid hp hpi
  rw [ha] at ha'
  cases ha'
  have hpa : p ≠ a := by
    rintro rfl
    rw [hp] at ha
    cases ha
    exact PrefixTree.snoc_prefix_irrefl hext
  have hkp : g.kids a 0 ≠ some p := by
    intro hk
    obtain ⟨bp, d, hb, _, hext'⟩ := hi.shape.kid ha hk
    rw [hp] at hb
    cases hb
    exact PrefixTree.snoc_prefix_irrefl (hext.trans (PrefixTree.snoc_prefix_weaken hext'))
  obtain ⟨t1, hrun1, hc1⟩ := adopt_spec hi.shape hi.rep p ha fun _ => False
  obtain ⟨t2, hrun2, hc2⟩ := replaceKid_spec hi.shape hp hpi hc1.rep fun _ => False
  obtain ⟨t3, hrun3, hc3⟩ := straighten_spec hc2.rep hp hpa fun _ => False
  have hc := (hc1.trans hc2).trans hc3
  have hbits : (g.takeOut p i a).bits p = some b := by
    rw [PrefixTree.takeOut_bits, if_neg hpa, hp]
  have hparent : (g.takeOut p i a).parent p = g.parent p := by
    rw [PrefixTree.takeOut_parent, if_neg hkp]
  have hstand : Standing t3 (g.takeOut p i a) := by
    refine ⟨hi.shape.takeOut hp hpi ha h1, hc.rep, ?_, ?_, ?_⟩
    · intro x hx
      rw [hc.fresh] at hx
      rw [PrefixTree.takeOut_bits, hi.fresh x hx, ite_self]
    · rw [PrefixTree.takeOut_value]
      exact hi.root_value
    · intro x bx hx h0
      by_cases hxp : x = p
      · subst hxp
        exact PrefixTree.takeOut_ordered _ _ _ _ h0
      · rw [PrefixTree.takeOut_bits] at hx
        rw [PrefixTree.takeOut_kids_of_ne _ _ _ _ hxp] at h0 ⊢
        split at hx
        · cases hx
        · exact hi.ordered x bx hx h0
  have hd := hstand.rep.deref hbits
  refine ⟨t3, hstand, fun x hx => hc.allocated x id hx, hbits, hparent, ?_, ?_⟩
  · intro hno fuel u hdel
    simp only [remove, hi.rep.deref ha, bind, Except.bind, nodeOf_kids, nodeOf_parent, nodeOf_value, h1,
      Option.isSome_none, Bool.false_eq_true, if_false, hpar, hrun1, hrun2, hrun3, hd]
    unfold Superfluous at hno
    simp only [hno, if_false, pure, Except.pure, hdel]
  · intro hyes fuel s r u hrun hdel
    simp only [remove, hi.rep.deref ha, bind, Except.bind, nodeOf_kids, nodeOf_parent, nodeOf_value, h1,
      Option.isSome_none, Bool.false_eq_true, if_false, hpar, hrun1, hrun2, hrun3, hd]
    unfold Superfluous at hyes
    simp only [hyes, and_self, if_true, pure, Except.pure, hrun, hdel]

theorem delete_spec (hi : Standing t g) (ha : g.bits a = none) (hlive : t.nodes a ≠ none) :
    ∃ t', t.delete a = .ok t' ∧ Standing t' g ∧ ∀ x, x ≠ a → t.nodes x ≠ none → t'.nodes x ≠ none := by
  obtain ⟨n, hn⟩ := Option.ne_none_iff_exists'.1 hlive
  refine ⟨{ t with nodes := Function.update t.nodes a none }, ?_, ⟨hi.shape, ?_, hi.fresh, hi.root_value,
    hi.ordered⟩, ?_⟩
  · unfold delete deref
    rw [hn]
    rfl
  · intro x bx hx
    have hxa : x ≠ a := by
      rintro rfl
      rw [ha] at hx
      cases hx
    simp [hxa, hi.rep x bx hx]
  · intro x hxa hx
    simpa [hxa] using hx

/-- The entries after a removal. -/
def Removed (g g' : PrefixTree V) (a : Nat) : Prop :=
  ∀ r x u, Entry g' r x u ↔ Entry g r x u ∧ x ≠ a

theorem Removed.takeOut (g : PrefixTree V) (p : Nat) (i : Fin 2) (a : Nat) : Removed g (g.takeOut p i a) a := by
  intro r x u
  unfold Entry
  rw [PrefixTree.takeOut_bits, PrefixTree.takeOut_value]
  grind

theorem remove_spec (hinv : TrieInv t g) {fuel : Nat} {q : List Bool} {v : V} (ha : Entry g q a v)
    (hf : 2 ≤ fuel) : ∃ t' g', t.remove fuel a = .ok (t', some v) ∧ TrieInv t' g' ∧ Removed g g' a := by
  obtain ⟨fuel, rfl⟩ : ∃ n, fuel = n + 2 := ⟨fuel - 2, by omega⟩
  obtain ⟨hbits, hval⟩ := ha
  have hi := hinv.toStanding
  have ha0 : a ≠ 0 := by
    rintro rfl
    rw [hi.root_value] at hval
    cases hval
  cases h1 : g.kids a 1 with
  | some k =>
    obtain ⟨t', hrun, hi'⟩ := hi.setValue hbits ha0 none
    refine ⟨t', _, ?_, ⟨hi', ?_⟩, ?_⟩
    · simp only [remove, hi.rep.deref hbits, bind, Except.bind, nodeOf_kids, nodeOf_value, h1, hval,
        Option.isSome_some, Option.isNone_some, Bool.false_eq_true, if_true, if_false, hrun]
      rfl
    · intro x bx hx hx0
      have := hinv.filled x bx
      simp only [PrefixTree.setValue, Function.update_apply] at hx ⊢
      grind
    · intro r x u
      simp only [Entry, PrefixTree.setValue, Function.update_apply]
      grind
  | none =>
    obtain ⟨p, b, i, hpar, hp, hpi⟩ := hi.shape.parent_kid hbits ha0
    obtain ⟨t1, hi1, hlive1, hp1, hpar1, hstop, hup⟩ := remove_step hi hp hpi hbits h1
    have halloc : t1.nodes a ≠ none := hlive1 a (by rw [hi.rep a q hbits]; exact Option.some_ne_none _)
    have hgone : (g.takeOut p i a).bits a = none := by
      rw [PrefixTree.takeOut_bits, if_pos rfl]
    by_cases hc : Superfluous (g.takeOut p i a) p
    · -- the parent only branched, and now it does not
      have hp0 : p ≠ 0 := by
        rintro rfl
        have := hc.2.2
        rw [hi1.shape.root_parent] at this
        cases this
      have hboth : ∀ j, g.kids p j ≠ none := by
        have h1p := hinv.filled p b hp hp0 (by rw [← PrefixTree.takeOut_value g p i a]; exact hc.2.1)
        have h0p : g.kids p 0 ≠ none := fun h => h1p (hi.ordered p b hp h)
        intro j
        have hj2 : j = 0 ∨ j = 1 := by omega
        rcases hj2 with rfl | rfl
        · exact h0p
        · exact h1p
      have hk0 := PrefixTree.takeOut_kid g p i a hboth
      obtain ⟨r, br, j, hparr, hr, hrj⟩ := hi1.shape.parent_kid hp1 hp0
      have hrp : r ≠ p := by
        rintro rfl
        obtain ⟨b', c, hb', _, hext⟩ := hi1.shape.kid hr hrj
        rw [hr] at hb'
        cases hb'
        exact PrefixTree.snoc_prefix_irrefl hext
      obtain ⟨t2, hi₂, hlive2, hr2, _, hstop2, _⟩ := remove_step hi1 hr hrj hp1 hc.1
      have hfull : r ≠ 0 → g.value r = none → ∀ j', ((g.takeOut p i a).takeOut r j p).kids r j' ≠ none := by
        intro hr0 hvr
        apply PrefixTree.takeOut_full _ _ _ _ _ hk0
        intro j'
        rw [PrefixTree.takeOut_kids_of_ne _ _ _ _ hrp]
        rw [PrefixTree.takeOut_bits] at hr
        split at hr
        · cases hr
        · have h1r := hinv.filled r br hr hr0 hvr
          have hj2 : j' = 0 ∨ j' = 1 := by omega
          rcases hj2 with rfl | rfl
          · exact fun h => h1r (hi.ordered r br hr h)
          · exact h1r
      have hc2 : ¬ Superfluous ((g.takeOut p i a).takeOut r j p) r := by
        rintro ⟨hk, hv, hsome⟩
        have hr0 : r ≠ 0 := by
          rintro rfl
          rw [hi₂.shape.root_parent] at hsome
          cases hsome
        rw [PrefixTree.takeOut_value, PrefixTree.takeOut_value] at hv
        exact hfull hr0 hv 1 hk
      have hpalloc : t2.nodes p ≠ none :=
        hlive2 p (by rw [hi1.rep p b hp1]; exact Option.some_ne_none _)
      obtain ⟨t3, hdel3, hi3, hlive3⟩ := delete_spec hi₂ (by rw [PrefixTree.takeOut_bits, if_pos rfl]) hpalloc
      have hap : a ≠ p := by
        rintro rfl
        rw [hgone] at hp1
        cases hp1
      obtain ⟨t4, hdel4, hi4, _⟩ := delete_spec hi3
        (by rw [PrefixTree.takeOut_bits, if_neg hap, hgone]) (hlive3 a hap (hlive2 a halloc))
      refine ⟨t4, _, ?_, ⟨hi4, ?_⟩, ?_⟩
      · rw [hup hc _ t3 _ t4 (hstop2 hc2 fuel t3 hdel3) hdel4, hval]
      · intro x bx hx hx0 hvx
        rw [PrefixTree.takeOut_value, PrefixTree.takeOut_value] at hvx
        by_cases hxr : x = r
        · subst hxr
          exact hfull hx0 hvx 1
        · rw [PrefixTree.takeOut_kids_of_ne _ _ _ _ hxr]
          rw [PrefixTree.takeOut_bits, PrefixTree.takeOut_bits] at hx
          split at hx
          · cases hx
          · rename_i hxp
            rw [PrefixTree.takeOut_kids_of_ne _ _ _ _ hxp]
            split at hx
            · cases hx
            · exact hinv.filled x bx hx hx0 hvx
      · intro s x u
        rw [Removed.takeOut _ r j p s x u, Removed.takeOut g p i a s x u]
        constructor
        · rintro ⟨h, _⟩
          exact h
        · rintro ⟨⟨hx, hvx⟩, hxa⟩
          refine ⟨⟨⟨hx, hvx⟩, hxa⟩, ?_⟩
          rintro rfl
          have hv := hc.2.1
          rw [PrefixTree.takeOut_value, hvx] at hv
          cases hv
    · obtain ⟨t2, hdel, hi₂, _⟩ := delete_spec hi1 hgone halloc
      refine ⟨t2, _, ?_, ⟨hi₂, ?_⟩, .takeOut g p i a⟩
      · rw [hstop hc _ t2 hdel, hval]
      · intro x bx hx hx0 hvx
        by_cases hxp : x = p
        · subst hxp
          intro hk
          obtain ⟨r, _, _, hr, _⟩ := hi1.shape.parent_kid hx hx0
          exact hc ⟨hk, hvx, by rw [hr]; rfl⟩
        · rw [PrefixTree.takeOut_bits] at hx
          rw [PrefixTree.takeOut_value] at hvx
          rw [PrefixTree.takeOut_kids_of_ne _ _ _ _ hxp]
          split at hx
          · cases hx
          · exact hinv.filled x bx hx hx0 hvx

/-! ## Clearing -/

/-- The heap holds the tree at and below the bits `b`. -/
def RepBelow (t : Trie w V) (g : PrefixTree V) (b : List Bool) : Prop :=
  ∀ x bx, g.bits x = some bx → b <+: bx → t.nodes x = some (nodeOf w g x bx)

theorem clearKid_spec {clearAll : Trie w V → Nat → Except TrieFault (Trie w V)} (hs : Shape w g)
    {n : TrieNode w V} {i : Fin 2} (ha : g.bits a = some b) (hn : t.nodes a = some n) (hni : n.kids i = g.kids a i)
    (hbelow : ∀ {k bk}, g.kids a i = some k → g.bits k = some bk → RepBelow t g bk)
    (ih : ∀ {k bk}, g.kids a i = some k → g.bits k = some bk → RepBelow t g bk →
      ∃ t' n', clearAll t k = .ok t' ∧ t'.nodes k = some n' ∧ t'.fresh = t.fresh ∧
        ∀ x, x ≠ k → (∀ bx, g.bits x = some bx → ¬ bk <+: bx) → t'.nodes x = t.nodes x) :
    ∃ t', clearKid clearAll t a i = .ok t' ∧ t'.nodes a = some (n.setKid i none) ∧ t'.fresh = t.fresh ∧
      ∀ x, x ≠ a → (∀ k bk bx, g.kids a i = some k → g.bits k = some bk → g.bits x = some bx →
        ¬ bk <+: bx) → t'.nodes x = t.nodes x := by
  have hd : t.deref a = .ok n := by
    unfold deref
    rw [hn]
  cases hk : g.kids a i with
  | none =>
    rw [hk] at hni
    refine ⟨t, ?_, ?_, rfl, fun _ _ _ => rfl⟩
    · simp only [clearKid, hd, bind, Except.bind, hni]
      rfl
    · rw [hn, TrieNode.setKid, ← hni, Function.update_eq_self]
  | some k =>
    rw [hk] at hni
    obtain ⟨bk, c, hbk, _, hext⟩ := hs.kid ha hk
    obtain ⟨t1, n', hrun, hn', hfr, hsame⟩ := ih hk hbk (hbelow hk hbk)
    have hak : a ≠ k := by
      rintro rfl
      rw [ha] at hbk
      cases hbk
      exact PrefixTree.snoc_prefix_irrefl hext
    have hna : t1.nodes a = some n := by
      rw [hsame a hak, hn]
      intro bx hx hpre
      rw [ha] at hx
      cases hx
      exact PrefixTree.snoc_prefix_irrefl (hext.trans hpre)
    have hdel : t1.delete k = .ok { t1 with nodes := Function.update t1.nodes k none } := by
      unfold delete deref
      rw [hn']
      rfl
    have hmod := modify_eq (t := { t1 with nodes := Function.update t1.nodes k none }) (a := a) (n := n)
      (by simp [hak, hna]) fun n => n.setKid i none
    refine ⟨⟨Function.update (Function.update t1.nodes k none) a (some (n.setKid i none)), t1.fresh⟩,
      ?_, ?_, hfr, ?_⟩
    · simp only [clearKid, hd, bind, Except.bind, hni, hrun, hdel]
      exact hmod
    · simp
    · intro x hxa hout
      have hxk : x ≠ k := by
        rintro rfl
        exact hout x bk bk rfl hbk hbk List.prefix_rfl
      simp only [Function.update_of_ne hxa, Function.update_of_ne hxk]
      exact hsame x hxk fun bx hx => hout k bk bx rfl hbk hx

theorem clearNode_spec (hs : Shape w g) : ∀ (fuel : Nat) (t : Trie w V) (a : Nat)
    (b : List Bool), g.bits a = some b → RepBelow t g b → w < fuel + b.length → ∃ t', clearNode fuel t a = .ok t' ∧
      t'.nodes a = some { nodeOf w g a b with kids := fun _ => none } ∧ t'.fresh = t.fresh ∧
      ∀ x, x ≠ a → (∀ bx, g.bits x = some bx → ¬ b <+: bx) → t'.nodes x = t.nodes x
  | 0, t, a, b, ha, _, hf => by
    have := hs.bound ha
    omega
  | fuel + 1, t, a, b, ha, hr, hf => by
    have hkid : ∀ {i k bk}, g.kids a i = some k → g.bits k = some bk → ∃ c, b ++ [c] <+: bk := by
      intro i k bk hk hbk
      obtain ⟨bk', c, hbk', _, hext⟩ := hs.kid ha hk
      rw [hbk] at hbk'
      cases hbk'
      exact ⟨c, hext⟩
    have ih : ∀ {i k bk} {u : Trie w V}, g.kids a i = some k → g.bits k = some bk → RepBelow u g bk →
        ∃ t' n', clearNode fuel u k = .ok t' ∧ t'.nodes k = some n' ∧ t'.fresh = u.fresh ∧
          ∀ x, x ≠ k → (∀ bx, g.bits x = some bx → ¬ bk <+: bx) → t'.nodes x = u.nodes x := by
      intro i k bk u hk hbk hrk
      obtain ⟨c, hext⟩ := hkid hk hbk
      have hl := hext.length_le
      rw [List.length_append, List.length_singleton] at hl
      obtain ⟨t', h₁, h2, h3⟩ := clearNode_spec hs fuel u k bk hbk hrk (by omega)
      exact ⟨t', _, h₁, h2, h3⟩
    have hbelow : ∀ {i k bk}, g.kids a i = some k → g.bits k = some bk → RepBelow t g bk := by
      intro i k bk hk hbk x bx hx hpre
      obtain ⟨c, hext⟩ := hkid hk hbk
      exact hr x bx hx ((PrefixTree.snoc_prefix_weaken hext).trans hpre)
    obtain ⟨t1, hrun1, hn1, hfr1, hsame1⟩ := clearKid_spec (i := 1) hs ha (hr a b ha List.prefix_rfl) rfl
      hbelow ih
    -- the second kid's tree is not the first kid's
    have hbelow1 : ∀ {k bk}, g.kids a 0 = some k → g.bits k = some bk → RepBelow t1 g bk := by
      intro k bk hk hbk x bx hx hpre
      obtain ⟨c, hext⟩ := hkid hk hbk
      rw [hsame1 x]
      · exact hbelow hk hbk x bx hx hpre
      · rintro rfl
        rw [ha] at hx
        cases hx
        exact PrefixTree.snoc_prefix_irrefl (hext.trans hpre)
      · intro k' bk' bx' hk' hbk' hx' hpre'
        rw [hx] at hx'
        cases hx'
        obtain ⟨d, hext'⟩ := hkid hk' hbk'
        cases PrefixTree.snoc_prefix_inj (hext.trans hpre) (hext'.trans hpre')
        exact absurd (hs.apart ha hk hk' hbk hbk' hext hext') (by decide)
    obtain ⟨t2, hrun2, hn2, hfr2, hsame2⟩ := clearKid_spec (i := 0) hs ha hn1
      (by simp [TrieNode.setKid]) hbelow1 ih
    refine ⟨t2, ?_, ?_, hfr2.trans hfr1, ?_⟩
    · simp only [clearNode, hrun1, bind, Except.bind]
      exact hrun2
    · rw [hn2]
      simp only [TrieNode.setKid, nodeOf]
      congr 2
      funext j
      rw [Function.update_apply, Function.update_apply]
      have hj2 : j = 0 ∨ j = 1 := by omega
      rcases hj2 with rfl | rfl <;> rfl
    · intro x hxa hout
      have hnot : ∀ i k bk bx, g.kids a i = some k → g.bits k = some bk → g.bits x = some bx →
          ¬ bk <+: bx := by
        intro i k bk bx hk hbk hx hpre
        obtain ⟨c, hext⟩ := hkid hk hbk
        exact hout bx hx ((PrefixTree.snoc_prefix_weaken hext).trans hpre)
      rw [hsame2 x hxa (hnot 0), hsame1 x hxa (hnot 1)]

theorem TrieInv.bare (h0 : t.nodes 0 = some { key := 0, mask := 0, value := none }) (hfr : 0 < t.fresh) :
    TrieInv t (PrefixTree.bare V) where
  shape := .bare w V
  rep := by
    intro a b hb
    obtain ⟨ha, hb⟩ := Option.ite_none_right_eq_some.1 hb
    subst ha
    cases hb
    rw [h0]
    simp [nodeOf, PrefixTree.bare]
  fresh := by
    intro a ha
    exact if_neg (by omega)
  root_value := rfl
  ordered _ _ _ _ := rfl
  filled := by
    intro a b hb ha
    simp only [PrefixTree.bare, if_neg ha] at hb
    cases hb

theorem clear_spec (hinv : TrieInv t g) {fuel : Nat} (hf : w < fuel) :
    ∃ t', t.clear fuel = .ok t' ∧ TrieInv t' (PrefixTree.bare V) := by
  obtain ⟨t', hrun, hn, hfr, _⟩ := clearNode_spec hinv.shape fuel t 0 [] hinv.shape.root_bits
    (fun x bx hx _ => hinv.rep x bx hx) (by simpa using hf)
  refine ⟨t', hrun, .bare ?_ ?_⟩
  · rw [hn]
    simp [nodeOf, hinv.root_value, hinv.shape.root_parent]
  · rw [hfr]
    exact Nat.pos_of_ne_zero (hinv.fresh_ne hinv.shape.root_bits).symm

theorem TrieInv.empty : TrieInv (Trie.empty : Trie w V) (PrefixTree.bare V) :=
  .bare (by simp [Trie.empty, TrieNode.make]) Nat.one_pos

end Alpine.Base.Trie
