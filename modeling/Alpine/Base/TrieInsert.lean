import Alpine.Base.TrieInv

/-!
# Insertion into the trie

* `hang_spec`, `splice_spec` — the two ways a new node gets into the heap, as edits of the tree.
* `leg_spec` — where the walk down a leg ends.
* `insertLeg_spec` — one round of the loop over the legs: the leg shares no bit with the new key, or the
  new key is in.
* `insert_spec` — a prefix that is not stored is stored, no other entry changes, and the end of the loop
  is never reached.
-/

namespace Alpine.Base.Trie

open Alpine.Msb
open Alpine.PrefixTree (Shape)

variable {w : Nat} {V : Type}

variable {t : Trie w V}

@[simp] theorem modify_eq {a : Nat} {n : TrieNode w V} (h : t.nodes a = some n) (f : TrieNode w V → TrieNode w V) :
    t.modify a f = .ok { t with nodes := Function.update t.nodes a (some (f n)) } := by
  unfold modify deref
  rw [h]
  rfl

variable {g : PrefixTree V} {b : List Bool}

theorem setValue_spec (hr : Rep t g) {a : Nat} (ha : g.bits a = some b) (v : Option V) :
    ∃ t', t.modify a (fun n => { n with value := v }) = .ok t' ∧ t'.fresh = t.fresh ∧ Rep t' (g.setValue a v) := by
  refine ⟨_, modify_eq (hr a b ha) _, rfl, ?_⟩
  intro x bx (hx : g.bits x = some bx)
  have hrx := hr x bx hx
  by_cases hxa : x = a
  · subst hxa
    rw [ha] at hx
    cases hx
    simp [nodeOf, PrefixTree.setValue]
  · simp [hxa, hrx, nodeOf, PrefixTree.setValue]

variable {p : Nat} {q : List Bool}

theorem hang_spec (hr : Rep t g) (hfr : g.bits t.fresh = none) (i : Fin 2) (v : V) (hp : g.bits p = some b) :
    ∃ t', t.hang p i (.make (word w q) (mask w q.length) (some v)) = .ok (t', t.fresh) ∧
      t'.fresh = t.fresh + 1 ∧ Rep t' (g.addLeaf p i t.fresh q (some v)) := by
  have hpf : p ≠ t.fresh := by
    rintro rfl
    rw [hp] at hfr
    cases hfr
  simp only [hang, bind, Except.bind, new]
  rw [modify_eq (n := .make (word w q) (mask w q.length) (some v)) (by simp)]
  simp only
  rw [modify_eq (n := nodeOf w g p b) (by simp [hpf, hr p b hp])]
  refine ⟨_, rfl, rfl, ?_⟩
  intro x bx hx
  simp only [PrefixTree.addLeaf] at hx
  by_cases hxf : x = t.fresh
  · subst hxf
    cases (if_pos rfl).symm.trans hx
    simp [Function.update_of_ne hpf.symm, nodeOf, make_mask, PrefixTree.addLeaf]
  · rw [if_neg hxf] at hx
    by_cases hxp : x = p
    · subst hxp
      rw [hp] at hx
      cases hx
      simp only [Function.update_self, Option.some.injEq, nodeOf, TrieNode.setKid, PrefixTree.addLeaf, hxf,
        if_false, true_and]
      congr 1
      funext j
      rw [Function.update_apply]
    · simp [hr x bx hx, nodeOf, PrefixTree.addLeaf, hxf, hxp]

theorem splice_spec (hs : Shape w g) (hr : Rep t g) (hfr : g.bits t.fresh = none) {k l : Nat} {i : Fin 2}
    (hp : g.bits p = some b) (hi : g.kids p i = some k) (hlq : l ≤ q.length) :
    ∃ t', t.splice p i k (.make (word w q) (mask w l) none) = .ok (t', t.fresh) ∧
      t'.fresh = t.fresh + 1 ∧ Rep t' (g.spliceIn p i k t.fresh (q.take l) none) := by
  obtain ⟨bk, c, hk, hpar, hext⟩ := hs.kid hp hi
  have hpf : p ≠ t.fresh := by
    rintro rfl
    rw [hp] at hfr
    cases hfr
  have hkf : k ≠ t.fresh := by
    rintro rfl
    rw [hk] at hfr
    cases hfr
  have hpk : p ≠ k := by
    rintro rfl
    rw [hp] at hk
    cases hk
    exact PrefixTree.snoc_prefix_irrefl hext
  simp only [splice, bind, Except.bind, new]
  rw [modify_eq (n := .make (word w q) (mask w l) none) (by simp)]
  simp only
  rw [modify_eq (n := nodeOf w g k bk) (by simp [hkf, hr k bk hk])]
  simp only
  rw [modify_eq (n := { TrieNode.make (word w q) (mask w l) none with parent := some p })
    (by simp [hkf.symm])]
  simp only
  rw [modify_eq (n := nodeOf w g p b) (by simp [hpf, hpk, hr p b hp])]
  refine ⟨_, rfl, rfl, ?_⟩
  intro x bx hx
  simp only [PrefixTree.spliceIn] at hx
  by_cases hxf : x = t.fresh
  · subst hxf
    cases (if_pos rfl).symm.trans hx
    simp only [Function.update_of_ne hpf.symm, Function.update_self]
    simp only [TrieNode.setKid, make_mask, nodeOf, PrefixTree.spliceIn, if_true, List.length_take,
      Nat.min_eq_left hlq]
    congr 2
    funext j
    rw [Function.update_apply]
  · rw [if_neg hxf] at hx
    by_cases hxp : x = p
    · subst hxp
      rw [hp] at hx
      cases hx
      simp only [Function.update_self, nodeOf, TrieNode.setKid, PrefixTree.spliceIn, hxf, hpk, if_false, true_and]
      congr 2
      funext j
      rw [Function.update_apply]
    · by_cases hxk : x = k
      · subst hxk
        rw [hk] at hx
        cases hx
        simp [hxf, hxp, nodeOf, PrefixTree.spliceIn]
      · simp [hr x bx hx, nodeOf, PrefixTree.spliceIn, hxf, hxp, hxk]

/-- Where the walk down a leg ends: at the node itself, or at bits `m` that the kid goes on from. -/
theorem leg_spec (hw : 0 < w) {bk : List Bool} {c : Bool} {fuel : Nat} (hql : q.length ≤ w)
    (hkl : bk.length ≤ w) (hbk : b <+: bk) (hext : b ++ [c] <+: q) (hnot : ¬ bk <+: q) (hf : q.length < fuel) :
    ∃ l, legMask (word w q) (word w bk) (mask w q.length) fuel (mask w b.length) = .ok (mask w l) ∧
      l ≤ q.length ∧ (l = b.length ∧ ¬ b ++ [c] <+: bk ∨
        b.length < l ∧ b ++ [c] <+: q.take l ∧ ∃ d, q.take l ++ [d] <+: bk ∧
          (l = q.length ∨ l < q.length ∧ ∃ e, e ≠ d ∧ q.take l ++ [e] <+: q)) := by
  have hbq := PrefixTree.snoc_prefix_weaken hext
  have hlen := hext.length_le
  rw [List.length_append, List.length_singleton] at hlen
  obtain ⟨l, hl, hbl, hlq, hlk, heq, hstop⟩ := legMask_spec hw hkl hql hnot fuel b.length
    (by rw [← List.prefix_iff_eq_take.1 hbq, ← List.prefix_iff_eq_take.1 hbk]) (by omega) (by omega)
  refine ⟨l, hl, hlq, ?_⟩
  have hd : q.take l ++ [bk[l]] <+: bk := by
    rw [heq, ← List.take_succ_eq_append_getElem hlk]
    exact List.take_prefix _ _
  rcases Nat.eq_or_lt_of_le hbl with rfl | hlt
  · refine .inl ⟨rfl, fun hck => ?_⟩
    rcases hstop with h | h
    · omega
    · apply h
      have h₁ := List.prefix_iff_eq_take.1 hext
      have h2 := List.prefix_iff_eq_take.1 hck
      rw [List.length_append, List.length_singleton] at h₁ h2
      exact h₁.symm.trans h2
  · refine .inr ⟨hlt, ?_, bk[l], hd, ?_⟩
    · apply List.prefix_of_prefix_length_le hext (List.take_prefix l q)
      rw [List.length_append, List.length_singleton, List.length_take]
      omega
    · rcases hstop with h | h
      · exact .inl h
      · by_cases hlq' : l = q.length
        · exact .inl hlq'
        · have hlt' : l < q.length := by omega
          refine .inr ⟨hlt', q[l], ?_, ?_⟩
          · intro he
            apply h
            rw [List.take_succ_eq_append_getElem hlt', List.take_succ_eq_append_getElem hlk, heq, he]
          · rw [← List.take_succ_eq_append_getElem hlt']
            exact List.take_prefix _ _

/-- The entries after an insertion. -/
structure Inserted (g g' : PrefixTree V) (q : List Bool) (f : Nat) (v : V) : Prop where
  new : Entry g' q f v
  others : ∀ r a u, r ≠ q → (Entry g' r a u ↔ Entry g r a u)

theorem Standing.fresh_ne (hi : Standing t g) {a : Nat} (ha : g.bits a = some b) : a ≠ t.fresh := by
  rintro rfl
  rw [hi.fresh _ Nat.le.refl] at ha
  cases ha

theorem Standing.setValue (hi : Standing t g) {a : Nat} (ha : g.bits a = some b) (ha0 : a ≠ 0) (v : Option V) :
    ∃ t', t.modify a (fun n => { n with value := v }) = .ok t' ∧ Standing t' (g.setValue a v) := by
  obtain ⟨t', hrun, hfresh, hrep⟩ := setValue_spec hi.rep ha v
  refine ⟨t', hrun, hi.shape.setValue a v, hrep, ?_, ?_, hi.ordered⟩
  · rw [hfresh]
    exact hi.fresh
  · exact (Function.update_of_ne ha0.symm _ _).trans hi.root_value

theorem Standing.hang (hi : Standing t g) {i : Fin 2} {c : Bool} (v : V) (hp : g.bits p = some b)
    (hpi : g.kids p i = none) (hext : b ++ [c] <+: q) (hlen : q.length ≤ w) (hord : i = 1 → g.kids p 0 ≠ none)
    (hfree : ∀ {j k bk}, g.kids p j = some k → g.bits k = some bk → ¬ b ++ [c] <+: bk) :
    ∃ t', t.hang p i (.make (word w q) (mask w q.length) (some v)) = .ok (t', t.fresh) ∧
      Standing t' (g.addLeaf p i t.fresh q (some v)) := by
  have hf := hi.fresh _ Nat.le.refl
  obtain ⟨t', hrun, hfresh, hrep⟩ := hang_spec hi.rep hf i v hp
  have h0 := hi.fresh_ne hi.shape.root_bits
  refine ⟨t', hrun, hi.shape.addLeaf _ hp hpi hf hext hlen hfree, hrep, ?_, ?_, ?_⟩
  · intro a ha
    rw [hfresh] at ha
    exact (if_neg (by omega)).trans (hi.fresh a (by omega))
  · exact (if_neg h0).trans hi.root_value
  · intro x bx hx
    have := hi.ordered x bx
    simp only [PrefixTree.addLeaf] at hx ⊢
    grind

theorem Standing.splice (hi : Standing t g) {k l : Nat} {bk : List Bool} {i : Fin 2} {c d : Bool}
    (hp : g.bits p = some b) (hpi : g.kids p i = some k) (hk : g.bits k = some bk) (hlq : l ≤ q.length)
    (hext : b ++ [c] <+: q.take l) (hd : q.take l ++ [d] <+: bk) :
    ∃ t', t.splice p i k (.make (word w q) (mask w l) none) = .ok (t', t.fresh) ∧
      t'.fresh = t.fresh + 1 ∧ Standing t' (g.spliceIn p i k t.fresh (q.take l) none) := by
  have hf := hi.fresh _ Nat.le.refl
  obtain ⟨t', hrun, hfresh, hrep⟩ := splice_spec hi.shape hi.rep hf hp hpi hlq
  have h0 := hi.fresh_ne hi.shape.root_bits
  refine ⟨t', hrun, hfresh, hi.shape.spliceIn _ hp hpi hk hf hext hd, hrep, ?_, ?_, ?_⟩
  · intro a ha
    rw [hfresh] at ha
    exact (if_neg (by omega)).trans (hi.fresh a (by omega))
  · exact (if_neg h0).trans hi.root_value
  · intro x bx hx
    have := hi.ordered x bx
    have := hi.ordered p b hp
    simp only [PrefixTree.spliceIn] at hx ⊢
    have hi2 : i = 0 ∨ i = 1 := by omega
    grind

theorem Inserted.addLeaf {f : Nat} (hf : g.bits f = none) (p : Nat) (i : Fin 2) (q : List Bool) (v : V) :
    Inserted g (g.addLeaf p i f q (some v)) q f v where
  new := ⟨if_pos rfl, if_pos rfl⟩
  others := by
    intro r a u hr
    simp only [Entry, PrefixTree.addLeaf]
    grind

theorem Inserted.spliceIn {f : Nat} (hf : g.bits f = none) (p : Nat) (i : Fin 2) (k : Nat) (q : List Bool)
    (v : V) : Inserted g ((g.spliceIn p i k f q none).setValue f (some v)) q f v where
  new := ⟨if_pos rfl, Function.update_self ..⟩
  others := by
    intro r a u hr
    simp only [Entry, PrefixTree.spliceIn, PrefixTree.setValue, Function.update_apply]
    grind

/-- A node without a value is no entry. -/
theorem Inserted.of_spliceIn {g' : PrefixTree V} {f f' k : Nat} {i : Fin 2} {m : List Bool} {v : V}
    (hf : g.bits f = none) (h : Inserted (g.spliceIn p i k f m none) g' q f' v) : Inserted g g' q f' v where
  new := h.new
  others := by
    intro r a u hr
    rw [h.others r a u hr]
    simp only [Entry, PrefixTree.spliceIn]
    grind

/-- One round of the loop over the legs: the leg is skipped, or the new key is in. -/
theorem insertLeg_spec (hinv : TrieInv t g) (hw : 0 < w) {fuel : Nat} {c : Bool} (v : V) (i : Fin 2)
    (hp : g.bits p = some b) (hql : q.length ≤ w) (hext : b ++ [c] <+: q) (hf : q.length < fuel)
    (hno : ∀ {j k bk}, g.kids p j = some k → g.bits k = some bk → ¬ bk <+: q)
    (hlow : ∀ {j k bk}, j < i → g.kids p j = some k → g.bits k = some bk → ¬ b ++ [c] <+: bk)
    (hord : i = 1 → g.kids p 0 ≠ none) : (∃ k bk, g.kids p i = some k ∧ g.bits k = some bk ∧ ¬ b ++ [c] <+: bk ∧
      t.insertLeg fuel p (word w q) (mask w q.length) (mask w b.length) v i = .ok (.skip (mask w b.length))) ∨
    ∃ t' f g', t.insertLeg fuel p (word w q) (mask w q.length) (mask w b.length) v i =
      .ok (.done t' f) ∧ TrieInv t' g' ∧ Inserted g g' q f v := by
  have hi := hinv.toStanding
  cases hpi : g.kids p i with
  | none =>
    have hfree : ∀ {j k bk}, g.kids p j = some k → g.bits k = some bk → ¬ b ++ [c] <+: bk := by
      intro j k bk hj hk
      by_cases hji : j < i
      · exact hlow hji hj hk
      · have h01 := hi.ordered p b hp
        have hi2 : i = 0 ∨ i = 1 := by omega
        have hj2 : j = 0 ∨ j = 1 := by omega
        grind
    obtain ⟨t', hrun, hi'⟩ := hi.hang v hp hpi hext hql hord hfree
    refine .inr ⟨t', t.fresh, _, ?_, ⟨hi', ?_⟩, .addLeaf (hi.fresh _ Nat.le.refl) p i q v⟩
    · simp only [insertLeg, hi.rep.deref hp, bind, Except.bind, nodeOf_kids, hpi, hrun]
      rfl
    · intro a ba ha ha0
      have := hinv.filled a ba
      simp only [PrefixTree.addLeaf] at ha ⊢
      grind
  | some k =>
    obtain ⟨bk, d, hk, _, hkext⟩ := hi.shape.kid hp hpi
    have hkl := hi.shape.bound hk
    obtain ⟨l, hl, hlq, hend⟩ := leg_spec hw hql hkl (PrefixTree.snoc_prefix_weaken hkext) hext
      (hno hpi hk) hf
    rcases hend with ⟨rfl, hskip⟩ | ⟨hbl, hbm, d, hd, hend⟩
    · refine .inl ⟨k, bk, rfl, hk, hskip, ?_⟩
      simp only [insertLeg, hi.rep.deref hp, bind, Except.bind, nodeOf_kids, hpi, hi.rep.deref hk,
        nodeOf_key, hl, nodeOf_mask, if_true]
      rfl
    · right
      have hff := hi.fresh _ Nat.le.refl
      have hne : mask w l ≠ mask w b.length := by
        intro h
        have := mask_inj (by omega) (hi.shape.bound hp) h
        omega
      obtain ⟨t1, hrun, hfresh, hi1⟩ := hi.splice hp hpi hk hlq hbm hd
      have hf1 : (g.spliceIn p i k t.fresh (q.take l) none).bits t.fresh = some (q.take l) := if_pos rfl
      rcases hend with rfl | ⟨hlt, e, hed, he⟩
      · rw [List.take_length] at hi1 hf1
        obtain ⟨t2, hrun2, hi₂⟩ := hi1.setValue hf1 (hi.fresh_ne hi.shape.root_bits).symm (some v)
        refine ⟨t2, t.fresh, _, ?_, ⟨hi₂, ?_⟩, .spliceIn hff p i k q v⟩
        · simp only [insertLeg, hi.rep.deref hp, bind, Except.bind, nodeOf_kids, hpi, hi.rep.deref hk,
            nodeOf_key, hl, nodeOf_mask, if_neg hne, hrun, if_true, hrun2]
          rfl
        · intro a ba ha ha0
          have := hinv.filled a ba
          simp only [PrefixTree.spliceIn, PrefixTree.setValue, Function.update_apply] at ha ⊢
          grind
      · have hne' : mask w l ≠ mask w q.length := by
          intro h
          have := mask_inj (by omega) hql h
          omega
        have hkf := hi.fresh_ne hk
        have hfree : ∀ {j y b'}, (g.spliceIn p i k t.fresh (q.take l) none).kids t.fresh j = some y →
            (g.spliceIn p i k t.fresh (q.take l) none).bits y = some b' → ¬ q.take l ++ [e] <+: b' := by
          intro j y b' hj hy hpre
          have hky : y = k ∧ b' = bk := by
            simp only [PrefixTree.spliceIn] at hj hy
            grind
          obtain ⟨rfl, rfl⟩ := hky
          exact hed (PrefixTree.snoc_prefix_inj hpre hd)
        obtain ⟨t2, hrun2, hi₂⟩ := hi1.hang (i := 1) v hf1 (by simp [PrefixTree.spliceIn]) he hql
          (by simp [PrefixTree.spliceIn]) hfree
        refine ⟨t2, t1.fresh, _, ?_, ⟨hi₂, ?_⟩,
          .of_spliceIn hff (.addLeaf (hi1.fresh _ Nat.le.refl) t.fresh 1 q v)⟩
        · simp only [insertLeg, hi.rep.deref hp, bind, Except.bind, nodeOf_kids, hpi, hi.rep.deref hk,
            nodeOf_key, hl, nodeOf_mask, if_neg hne, hrun, if_neg hne', hrun2]
          rfl
        · intro a ba ha ha0
          have := hinv.filled a ba
          simp only [PrefixTree.spliceIn, PrefixTree.addLeaf] at ha ⊢
          grind

theorem insertLegs_spec (hinv : TrieInv t g) (hw : 0 < w) {fuel : Nat} {c : Bool} (v : V)
    (hp : g.bits p = some b) (hql : q.length ≤ w) (hext : b ++ [c] <+: q) (hf : q.length < fuel)
    (hno : ∀ {j k bk}, g.kids p j = some k → g.bits k = some bk → ¬ bk <+: q) :
    ∃ t' f g', t.insertLegs fuel p (word w q) (mask w q.length) v (mask w b.length) [0, 1] = .ok (t', f) ∧
      TrieInv t' g' ∧ Inserted g g' q f v := by
  rcases insertLeg_spec hinv hw v 0 hp hql hext hf hno (by simp) (by simp) with
    ⟨k, bk, hk, hbk, hnk, hrun⟩ | ⟨t', f, g', hrun, hrest⟩
  · have hlow : ∀ {j y b'}, j < (1 : Fin 2) → g.kids p j = some y → g.bits y = some b' →
        ¬ b ++ [c] <+: b' := by
      intro j y b' hj hy hb'
      have hj0 : j = 0 := by omega
      subst hj0
      rw [hk] at hy
      cases hy
      rw [hbk] at hb'
      cases hb'
      exact hnk
    rcases insertLeg_spec hinv hw v 1 hp hql hext hf hno hlow (by simp [hk]) with
      ⟨k', bk', hk', hbk', hnk', hrun'⟩ | ⟨t', f, g', hrun', hrest⟩
    · -- the two kids would share their next bit
      obtain ⟨b1, d, hb1, _, hd⟩ := hinv.shape.kid hp hk
      obtain ⟨b2, e, hb2, _, he⟩ := hinv.shape.kid hp hk'
      rw [hbk] at hb1
      rw [hbk'] at hb2
      cases hb1
      cases hb2
      have hdc : d ≠ c := by
        rintro rfl
        exact hnk hd
      have hec : e ≠ c := by
        rintro rfl
        exact hnk' he
      have hde : d = e := by
        revert hdc hec
        cases c <;> cases d <;> cases e <;> simp
      subst hde
      exact absurd (hinv.shape.apart hp hk hk' hbk hbk' hd he) (by decide)
    · refine ⟨t', f, g', ?_, hrest⟩
      simp only [insertLegs, hrun, bind, Except.bind, hrun']
      rfl
  · refine ⟨t', f, g', ?_, hrest⟩
    simp only [insertLegs, hrun, bind, Except.bind]
    rfl

theorem insert_spec (hinv : TrieInv t g) {key : BitVec w} {width : Nat} {v : V} {fuel : Nat} (h1 : 1 ≤ width)
    (hwidth : width ≤ w) (hf : w < fuel) (hfree : ∀ a u, ¬ Entry g ((Msb.bits key).take width) a u) :
    ∃ t' f g', t.insert fuel key width v = .ok (t', f) ∧ TrieInv t' g' ∧
      Inserted g g' ((Msb.bits key).take width) f v := by
  have hlen : ((Msb.bits key).take width).length = width := by
    rw [List.length_take, length_bits, Nat.min_eq_left hwidth]
  have hkey : key &&& widthMask w width = word w ((Msb.bits key).take width) := by
    rw [widthMask_eq hwidth, and_mask]
  have hmask : widthMask w width = mask w ((Msb.bits key).take width).length := by
    rw [widthMask_eq hwidth, hlen]
  revert hlen hkey hmask hfree
  generalize (Msb.bits key).take width = q
  intro hfree hlen hkey hmask
  rw [hmask] at hkey
  have hql : q.length ≤ w := by omega
  obtain ⟨p, bp, hwalk, hp, hpre, hno⟩ := walk_spec hinv.shape hinv.rep hql fuel 0 [] hinv.shape.root_bits
    List.nil_prefix (by simp only [List.length_nil]; omega)
  have hpl := hinv.shape.bound hp
  unfold insert
  simp only [hkey, hmask, hwalk, hinv.rep.deref hp, bind, Except.bind, nodeOf_mask, nodeOf_value]
  by_cases heq : mask w bp.length = mask w q.length
  · have hbp : bp = q := hpre.eq_of_length (mask_inj hpl hql heq)
    subst hbp
    have hp0 : p ≠ 0 := by
      rintro rfl
      rw [hinv.shape.root_bits] at hp
      cases hp
      simp at hlen
      omega
    have hv : g.value p = none := by
      cases hv : g.value p with
      | none => rfl
      | some u => exact (hfree p u ⟨hp, hv⟩).elim
    obtain ⟨t', hrun, hi'⟩ := hinv.toStanding.setValue hp hp0 (some v)
    refine ⟨t', p, _, ?_, ⟨hi', ?_⟩, ⟨hp, Function.update_self ..⟩, ?_⟩
    · simp only [if_true, hv, Option.isSome_none, Bool.false_eq_true, if_false, hrun]
      rfl
    · intro a ba ha ha0
      have := hinv.filled a ba
      simp only [PrefixTree.setValue, Function.update_apply] at ha ⊢
      grind
    · intro r a u hr
      simp only [Entry, PrefixTree.setValue, Function.update_apply]
      grind
  · obtain ⟨c, hext⟩ := PrefixTree.snoc_prefix_of_ne hpre (fun h => heq (by rw [h]))
    rw [if_neg heq]
    exact insertLegs_spec hinv (by omega) v hp hql hext (by omega) hno

end Alpine.Base.Trie
