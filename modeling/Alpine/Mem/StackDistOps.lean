import Alpine.Lib.Ranked
import Alpine.Mem.StackDistGrow

/-!
# The operations and the naive stack

The naive stack is the list of the addresses, the last one that was added first.

* `verifyStackDist_eq` — the stack of the verification is a naive stack.
* `Inv` — the leaves are the numbers of the last accesses to the addresses of the naive stack.
* `removeLeaf_spec`, `addLeaf_eq` — the two halves of an update.
* `Call.run_spec` — a call returns the distance on the naive stack and the mark, and keeps the invariant.  It
  fails only where the naive stack of the verification is another one.
-/

namespace Alpine.Mem.StackDist

open Alpine Alpine.Dyadic

/-! ## The naive stack -/

/-- How many distinct other addresses are above an address. -/
def naiveDistance (L : List ℕ) (r_address : ℕ) : ℕ :=
  if r_address ∈ L then (L.takeWhile fun a => a ≠ r_address).toFinset.card else Infinity

variable {L : List ℕ} {a : ℕ}

theorem length_takeWhile_ne (a : ℕ) : ∀ L : List ℕ, a ∈ L → (L.takeWhile fun b => b ≠ a).length = L.idxOf a
  | b :: L, ha => by
    by_cases hb : b = a
    · rw [hb, List.idxOf_cons_self, List.takeWhile_cons_of_neg (by simp)]
      rfl
    · rw [List.idxOf_cons_ne _ hb, List.takeWhile_cons_of_pos (by simpa using hb), List.length_cons,
        length_takeWhile_ne a L ((List.mem_cons.1 ha).resolve_left fun h => hb h.symm)]

theorem naiveDistance_eq (hL : L.Nodup) (ha : a ∈ L) : naiveDistance L a = L.idxOf a := by
  unfold naiveDistance
  rw [if_pos ha, List.toFinset_card_of_nodup (hL.sublist (List.takeWhile_sublist _)), length_takeWhile_ne a L ha]

theorem seek_eq (a : ℕ) : ∀ (L : List ℕ) (d : ℕ), StackDistCalc.seek a d L =
    if a ∈ L then some (d + L.idxOf a, L.erase a) else none
  | [], _ => rfl
  | b :: L, d => by
    rw [StackDistCalc.seek]
    by_cases hb : b = a
    · rw [if_pos hb, hb, if_pos List.mem_cons_self, List.idxOf_cons_self, List.erase_cons_head]
      rfl
    · rw [if_neg hb, seek_eq a L (d + 1), List.idxOf_cons_ne _ hb, List.erase_cons_tail (by simpa using hb)]
      by_cases ha : a ∈ L
      · rw [if_pos ha, if_pos (List.mem_cons_of_mem b ha)]
        show some (d + 1 + L.idxOf a, _) = _
        rw [Nat.add_assoc, Nat.add_comm 1]
      · rw [if_neg ha, if_neg fun h => ha ((List.mem_cons.1 h).resolve_left fun heq => hb heq.symm)]
        rfl

theorem verifyStackDist_eq (hL : L.Nodup) (a : ℕ) (update : Bool) :
    StackDistCalc.verifyStackDist L a update = (naiveDistance L a, if update then a :: L.erase a else L) := by
  unfold StackDistCalc.verifyStackDist
  rw [seek_eq a L 0]
  by_cases ha : a ∈ L
  · rw [if_pos ha, naiveDistance_eq hL ha, Nat.zero_add]
  · unfold naiveDistance
    rw [if_neg ha, if_neg ha, List.erase_of_not_mem ha]

/-! ## The invariant -/

structure LeafOk (i : ℕ) (leaf : Node) : Prop where
  sum : leaf.sumLeft = 1
  nodeIndex : leaf.nodeIndex = i
  parent : leaf.parent = some (i / 2)
  isLeftNode : leaf.isLeftNode = decide (i % 2 = 0)

structure LeavesOk (S : Finset ℕ) (t : Tree) : Prop where
  leaf : ∀ i ∈ S, ∃ leaf, t 0 i = some leaf ∧ LeafOk i leaf
  none : ∀ i, i ∉ S → t 0 i = none

/-- The tree holds the numbers of the last accesses. -/
structure Held (s : StackDistCalc) (num : ℕ → ℕ) (L : List ℕ) : Prop where
  shape : Shape s
  ranked : Ranked num L
  recent : ∀ a ∈ L, num a < s.index
  leaves : LeavesOk (nums num L) s.tree
  tree : TreeOk s.treeDepth s.index (nums num L) (nums num L) s.tree

structure Inv (s : StackDistCalc) (num : ℕ → ℕ) (L : List ℕ) : Prop extends Held s num L where
  aiMap : ∀ a, s.aiMap a = if a ∈ L then some (num a) else none

/-- The mark of the last access to an address. -/
def StackDistCalc.mark (s : StackDistCalc) (a : ℕ) : Bool :=
  ((s.aiMap a).bind (s.tree 0)).any Node.isMarked

section Walk

variable {depth N i : ℕ} {S E S' E' : Finset ℕ} {t : Tree}

theorem walk_spec (h : Changes S E S' E' i) (ht : TreeOk depth N S E t) (hpos : 0 < depth)
    (hdepth : depth ≤ 31) (hi : i ∈ E) (hlt : i < 2 ^ depth) (hS : ∀ x ∈ S, x < 2 ^ depth)
    (verifyStack b : Bool) (hb : b = true → i ∉ E' ∧ i < N) :
    ∃ t', updateSum verifyStack depth t (i / 2) (decide (i % 2 = 0)) (if i ∈ S' then 1 else 0) 0 0 b =
        .ok ((S.filter fun x => i < x).card, t') ∧ TreeOk depth N S' E' t' ∧ t' 0 = t 0 := by
  obtain ⟨d, rfl⟩ : ∃ d, depth = d + 1 := ⟨depth - 1, by omega⟩
  obtain ⟨t', hrun, hw⟩ := updateSum_spec h hdepth verifyStack d (b := b) (Nat.zero_add _)
    (ht.climbable hi) fun hbt => by
      rw [pow_zero, Nat.div_one]
      refine ⟨?_, by have := (hb hbt).2; omega⟩
      rw [count_zero, if_neg (hb hbt).1]
  refine ⟨t', ?_, ht.update h hlt hw, funext fun j => hw.same 0 j (.inl le_rfl)⟩
  rw [above_top hS hlt, above_zero] at hrun
  rw [← hrun, pow_zero, Nat.div_one, Nat.zero_add, pow_one, count_zero]

theorem climb_parent {k l j parent : ℕ} {node : Node} (hnode : t l j = some node)
    (hparent : node.parent = some parent) :
    StackDistCalc.climb t (k + 1) l j = StackDistCalc.climb t k (l + 1) parent := by
  rw [StackDistCalc.climb, hnode]
  dsimp only [get, bind, Except.bind]
  rw [hparent]

theorem climb_spec : ∀ (k : ℕ) {l : ℕ}, l + k + 1 = depth → Climbable depth N S E i l t →
    ∃ top, StackDistCalc.climb t k (l + 1) (i / 2 ^ (l + 1)) = .ok top ∧ top.parent = none
  | k, l, hk, hclimb => by
    obtain ⟨node, hnode⟩ := hclimb.path l le_rfl (by omega)
    have hok := hclimb.nodes l _ node le_rfl (by omega) hnode
    cases k with
    | zero =>
      refine ⟨node, ?_, by rw [hok.parent, if_pos (by omega)]⟩
      rw [StackDistCalc.climb, hnode]
      rfl
    | succ k =>
      obtain ⟨top, htop, hparent⟩ := climb_spec k (l := l + 1) (by omega)
        ⟨fun k j node hk => hclimb.nodes k j node (by omega), fun k hk => hclimb.path k (by omega)⟩
      refine ⟨top, ?_, hparent⟩
      rw [climb_parent hnode (hok.parent.trans (if_neg (by omega))), ← htop, div_pow_succ i (l + 1)]

end Walk

/-! ## The operations -/

variable {s : StackDistCalc} {num : ℕ → ℕ}

theorem Held.lt_index (h : Held s num L) {x : ℕ} (hx : x ∈ nums num L) : x < s.index := by
  obtain ⟨b, hb, rfl⟩ := mem_nums.1 hx
  exact h.recent b hb

theorem Held.depth_le (h : Held s num L) (hindex : s.index < 2 ^ 31) : s.treeDepth ≤ 31 :=
  StackDist.depth_le hindex (h.shape.small.imp_right fun hlt => hlt.le)

theorem updateSumsLeavesToRoot_eq {i p : ℕ} {leaf : Node} (hleaf : s.tree 0 i = some leaf)
    (hp : leaf.parent = some p) (b : Bool) : s.updateSumsLeavesToRoot i b = (updateSum s.verifyStack s.treeDepth
        (s.tree.set 0 i (some { leaf with sumLeft := if b then 1 else 0 })) p leaf.isLeftNode
        (if b then 1 else 0) 0 0 (!b)).map fun q =>
          (if b then Infinity else q.1, { s with tree := q.2 }) := by
  unfold StackDistCalc.updateSumsLeavesToRoot
  rw [hleaf]
  show (get leaf.parent >>= fun parent => _) = _
  rw [hp]
  show (updateSum _ _ _ _ _ _ _ _ _ >>= fun _ => _) = _
  cases updateSum s.verifyStack s.treeDepth
      (s.tree.set 0 i (some { leaf with sumLeft := if b then 1 else 0 })) p leaf.isLeftNode
      (if b then 1 else 0) 0 0 (!b) with
  | ok q => rfl
  | error e => rfl

theorem updateSums_remove (h : Held s num L) (hindex : s.index < 2 ^ 31) (ha : a ∈ L) {leaf : Node}
    (hleaf : s.tree 0 (num a) = some leaf) (hok : LeafOk (num a) leaf) :
    ∃ t', s.updateSumsLeavesToRoot (num a) false = .ok (naiveDistance L a, { s with tree := t' }) ∧
      TreeOk s.treeDepth s.index (nums num (L.erase a)) (nums num (L.erase a)) t' ∧
      t' 0 = s.tree.set 0 (num a) (some { leaf with sumLeft := 0 }) 0 := by
  have hi : num a ∈ nums num L := mem_nums.2 ⟨a, ha, rfl⟩
  have hroom := h.shape.room
  have hlt : ∀ x ∈ nums num L, x < 2 ^ s.treeDepth := fun x hx => (h.lt_index hx).trans_le hroom
  have hchanges : Changes (nums num L) (nums num L) (nums num (L.erase a)) (nums num (L.erase a))
      (num a) := by
    rw [h.ranked.nums_erase ha]
    exact ⟨fun x hx => by rw [Finset.mem_erase, and_iff_right hx], Finset.erase_subset _ _⟩
  have hgone : num a ∉ nums num (L.erase a) := by
    rw [h.ranked.nums_erase ha]
    exact Finset.notMem_erase _ _
  obtain ⟨t', hrun, htree, hsame⟩ := walk_spec hchanges
    (h.tree.set_leaf (num a) (some { leaf with sumLeft := 0 }) h.shape.pos) h.shape.pos
    (h.depth_le hindex) hi (hlt _ hi) hlt s.verifyStack true fun _ => ⟨hgone, h.lt_index hi⟩
  refine ⟨t', ?_, htree, hsame⟩
  rw [if_neg hgone, ← h.ranked.idxOf_eq ha, ← naiveDistance_eq h.ranked.nodup ha] at hrun
  rw [← hok.isLeftNode] at hrun
  rw [updateSumsLeavesToRoot_eq hleaf hok.parent false]
  simp only [Bool.false_eq_true, if_false, Bool.not_false]
  rw [hrun]
  rfl

theorem removeLeaf_spec (h : Inv s num L) (hindex : s.index < 2 ^ 31) (a : ℕ) (addNewNode : Bool) :
    ∃ s', s.removeLeaf a addNewNode = .ok (s', naiveDistance L a, s.mark a) ∧ Held s' num (L.erase a) ∧
      (∀ b, s'.aiMap b = if b = a then (if addNewNode then some s.index else none) else s.aiMap b) ∧
      s'.index = s.index ∧ s'.stack = s.stack ∧ s'.verifyStack = s.verifyStack := by
  unfold StackDistCalc.removeLeaf StackDistCalc.mark
  rw [h.aiMap a]
  by_cases ha : a ∈ L
  · rw [if_pos ha]
    obtain ⟨leaf, hleaf, hok⟩ := h.leaves.leaf (num a) (mem_nums.2 ⟨a, ha, rfl⟩)
    obtain ⟨s1, hs1⟩ : ∃ s1 : StackDistCalc, s1 = { s with
      aiMap := Function.update s.aiMap a (if addNewNode then some s.index else none) } := ⟨_, rfl⟩
    have h1 : Held s1 num L := hs1 ▸ ⟨⟨h.shape.pos, h.shape.room, h.shape.small, h.shape.next⟩, h.ranked,
      h.recent, h.leaves, h.tree⟩
    obtain ⟨t', hrun, htree, hsame⟩ := updateSums_remove h1 (hs1 ▸ hindex) ha (hs1 ▸ hleaf) hok
    have hgone : t' 0 (num a) = some { leaf with sumLeft := 0 } := by rw [hsame, Tree.set_self]
    have hother : ∀ i, i ≠ num a → t'.set 0 (num a) none 0 i = s.tree 0 i := fun i hi => by
      rw [Tree.set_ne t' none (.inr hi), hsame, Tree.set_ne _ _ (.inr hi), hs1]
    have hmark : ((some (num a)).bind (s.tree 0)).any Node.isMarked = leaf.isMarked := by
      rw [Option.bind_some, hleaf]
      rfl
    refine ⟨{ s1 with tree := t'.set 0 (num a) none }, ?_, ⟨?_, h.ranked.erase a, ?_, ⟨?_, ?_⟩, ?_⟩, ?_,
      by rw [hs1], by rw [hs1], by rw [hs1]⟩
    · dsimp only
      rw [← hs1, hrun, hmark]
      show (get (t' 0 (num a)) >>= fun leaf => _) = _
      rw [hgone]
      rfl
    · exact ⟨h1.shape.pos, h1.shape.room, h1.shape.small, h1.shape.next⟩
    · exact fun b hb => h1.recent b (List.mem_of_mem_erase hb)
    · intro i hi
      rw [h.ranked.nums_erase ha] at hi
      obtain ⟨hne, hi⟩ := Finset.mem_erase.1 hi
      show ∃ leaf, t'.set 0 (num a) none 0 i = some leaf ∧ _
      rw [hother i hne]
      exact h.leaves.leaf i hi
    · intro i hi
      rw [h.ranked.nums_erase ha, Finset.mem_erase, not_and] at hi
      show t'.set 0 (num a) none 0 i = none
      by_cases hne : i = num a
      · rw [hne, Tree.set_self]
      · rw [hother i hne]
        exact h.leaves.none i (hi hne)
    · exact htree.set_leaf _ _ h1.shape.pos
    · intro b
      rw [hs1]
      exact Function.update_apply ..
  · rw [if_neg ha]
    refine ⟨{ s with aiMap := if addNewNode then Function.update s.aiMap a (some s.index) else s.aiMap }, ?_,
      ?_, fun b => ?_, rfl, rfl, rfl⟩
    · rw [show naiveDistance L a = Infinity from if_neg ha]
      rfl
    · rw [List.erase_of_not_mem ha]
      exact ⟨⟨h.shape.pos, h.shape.room, h.shape.small, h.shape.next⟩, h.ranked, h.recent, h.leaves, h.tree⟩
    · cases addNewNode with
      | true => exact Function.update_apply ..
      | false =>
        show s.aiMap b = if b = a then none else s.aiMap b
        split
        · rename_i hb
          rw [hb, h.aiMap a, if_neg ha]
        · rfl

theorem grow_spec (h : Held s num L) (hindex : s.index < 2 ^ 31) :
    ∃ s1, (if s.index % 2 = 0 then s.updateTree else .ok s) = .ok s1 ∧ Grown s.index (nums num L) 0 s1 ∧
      Frame s s1 ∧ Roomy s.index s1 := by
  by_cases heven : s.index % 2 = 0
  · rw [if_pos heven]
    exact updateTree_spec h.shape h.tree (fun x hx => h.lt_index hx) heven hindex
  · rw [if_neg heven]
    obtain ⟨hgrown, hroomy⟩ := h.shape.grown_odd h.tree (by omega)
    exact ⟨s, rfl, hgrown, .refl s, hroomy⟩

def newLeaf (i : ℕ) : Node :=
  { Node.new with nodeIndex := i, isLeftNode := decide (i % 2 = 0), parent := some (i / 2) }

theorem updateSums_add (h : Held s num L) {s1 s2 : StackDistCalc} (hindex : s.index < 2 ^ 31)
    (hgrown : Grown s.index (nums num L) 0 s1) (hroomy : Roomy s.index s1)
    (hdepth : s2.treeDepth = s1.treeDepth) (hs2 : s2.tree = s1.tree.set 0 s.index (some (newLeaf s.index))) :
    ∃ t', s2.updateSumsLeavesToRoot s.index true = .ok (Infinity, { s2 with tree := t' }) ∧
      TreeOk s1.treeDepth (s.index + 1) (insert s.index (nums num L)) (insert s.index (nums num L)) t' ∧
      t' 0 = s1.tree.set 0 s.index (some { newLeaf s.index with sumLeft := 1 }) 0 := by
  have hnot : s.index ∉ nums num L := fun hmem => Nat.lt_irrefl _ (h.lt_index hmem)
  have hchanges : Changes (nums num L) (insert s.index (nums num L)) (insert s.index (nums num L))
      (insert s.index (nums num L)) s.index :=
    ⟨fun x hx => by rw [Finset.mem_insert, or_iff_right hx], Finset.Subset.refl _⟩
  have htwice : (s1.tree.set 0 s.index (some (newLeaf s.index))).set 0 s.index
      (some { newLeaf s.index with sumLeft := 1 }) =
      s1.tree.set 0 s.index (some { newLeaf s.index with sumLeft := 1 }) := by
    funext k i
    by_cases hki : k ≠ 0 ∨ i ≠ s.index
    · rw [Tree.set_ne _ _ hki, Tree.set_ne _ _ hki, Tree.set_ne _ _ hki]
    · obtain ⟨rfl, rfl⟩ : k = 0 ∧ i = s.index := by omega
      rw [Tree.set_self, Tree.set_self]
  obtain ⟨t', hrun, htree, hsame⟩ := walk_spec hchanges
    ((hgrown.come hroomy).set_leaf s.index (some { newLeaf s.index with sumLeft := 1 }) hroomy.pos) hroomy.pos
    (depth_le hindex hroomy.small) (Finset.mem_insert_self _ _) hroomy.room
    (fun x hx => (h.lt_index hx).trans hroomy.room) s2.verifyStack false fun hb => Bool.noConfusion hb
  refine ⟨t', ?_, htree, hsame⟩
  have hleaf : s2.tree 0 s.index = some (newLeaf s.index) := by rw [hs2, Tree.set_self]
  rw [updateSumsLeavesToRoot_eq hleaf rfl true, hs2, hdepth]
  simp only [if_true, Bool.not_true]
  rw [if_pos (Finset.mem_insert_self _ _)] at hrun
  rw [htwice, show (newLeaf s.index).isLeftNode = decide (s.index % 2 = 0) from rfl, hrun]
  rfl

theorem sanityCheck_ok {depth N i : ℕ} {S E : Finset ℕ} {s3 : StackDistCalc}
    (ht : TreeOk depth N S E s3.tree) (hd : s3.treeDepth = depth) (hpos : 0 < depth) (hi : i ∈ E) :
    s3.sanityCheckTree (newLeaf i) = .ok () := by
  obtain ⟨top, htop, hparent⟩ := climb_spec (depth - 1) (l := 0) (by omega) (ht.climbable hi)
  unfold StackDistCalc.sanityCheckTree
  rw [Nat.zero_add, pow_one] at htop
  show (StackDistCalc.climb s3.tree (s3.treeDepth - 1) 1 (i / 2) >>= fun top => _) = _
  rw [hd, htop]
  show panic_if top.parent.isSome .sanity = _
  rw [hparent]
  rfl

theorem addLeaf_eq (h : Held s num L) (ha : a ∉ L) (hindex : s.index < 2 ^ 31) :
    ∃ s3 : StackDistCalc, (∀ d, s.addLeaf a d =
      (if s.verifyStack then s3.checkStack a d true else .ok s3).map fun s4 =>
        { s4 with index := s4.index + 1 }) ∧
      Held { s3 with index := s3.index + 1 } (Function.update num a s.index) (a :: L) ∧
      s3.index = s.index ∧ s3.aiMap = s.aiMap ∧ s3.stack = s.stack ∧ s3.verifyStack = s.verifyStack := by
  obtain ⟨s1, hgrow, hgrown, hframe, hroomy⟩ := grow_spec h hindex
  obtain ⟨hnext, parent, hparent⟩ := hgrown.after 1 (by omega) hroomy.pos
  obtain ⟨s2, hs2⟩ : ∃ s2 : StackDistCalc, s2 = { s1 with
    nextIndex := Function.update s1.nextIndex 0 (s1.nextIndex 0 + 1)
    tree := s1.tree.set 0 s.index (some (newLeaf s.index)) } := ⟨_, rfl⟩
  obtain ⟨t', hrun, htree, hsame⟩ := updateSums_add h hindex hgrown hroomy
    (show s2.treeDepth = s1.treeDepth by rw [hs2]) (by rw [hs2])
  rw [pow_one] at hnext hparent
  have hsanity : StackDistCalc.sanityCheckTree { s2 with tree := t' } (newLeaf s.index) = .ok () :=
    sanityCheck_ok htree (by rw [hs2]) hroomy.pos (Finset.mem_insert_self _ _)
  have hnums : nums (Function.update num a s.index) (a :: L) = insert s.index (nums num L) := nums_touch ha
  refine ⟨{ s2 with tree := t' }, fun d => ?_, ⟨?_, ?_, ?_, ⟨?_, ?_⟩, ?_⟩, ?_, ?_, ?_, ?_⟩
  · unfold StackDistCalc.addLeaf
    rw [hgrow]
    show (get (s1.tree 1 (s1.nextIndex 1 - 1)) >>= fun _ => _) = _
    rw [hnext, Nat.add_sub_cancel, hparent]
    show (StackDistCalc.updateSumsLeavesToRoot { s1 with
      nextIndex := Function.update s1.nextIndex 0 (s1.nextIndex 0 + 1)
      tree := s1.tree.set 0 s.index (some (newLeaf s.index)) } s.index true >>= fun q => _) = _
    rw [← hs2, hrun]
    cases s.verifyStack with
    | false => rfl
    | true =>
      show ((StackDistCalc.sanityCheckTree { s2 with tree := t' } (newLeaf s.index) >>= fun _ =>
        StackDistCalc.checkStack { s2 with tree := t' } a d true) >>= fun s4 => _) = _
      rw [hsanity]
      show (StackDistCalc.checkStack { s2 with tree := t' } a d true >>= fun s4 => _) = _
      cases StackDistCalc.checkStack { s2 with tree := t' } a d true with
      | ok s4 => rfl
      | error e => rfl
  · refine hgrown.shape hroomy ?_ (by rw [hs2]) fun l hl => ?_
    · rw [hs2]
      exact congrArg (· + 1) hframe.index
    · rw [hs2]
      exact Function.update_of_ne (by omega) ..
  · exact h.ranked.touch ha h.recent
  · intro b hb
    rw [hs2]
    show _ < s1.index + 1
    rw [hframe.index]
    rcases List.mem_cons.1 hb with rfl | hb
    · rw [Function.update_self]
      exact Nat.lt_succ_self _
    · rw [Function.update_of_ne (fun hba : b = a => ha (hba ▸ hb))]
      exact Nat.lt_succ_of_lt (h.recent b hb)
  · intro i hi
    rw [hnums] at hi
    show ∃ leaf, t' 0 i = some leaf ∧ _
    rw [hsame]
    by_cases hne : i = s.index
    · rw [hne, Tree.set_self]
      exact ⟨_, rfl, rfl, rfl, rfl, rfl⟩
    · rw [Tree.set_ne _ _ (.inr hne), hframe.leaves]
      exact h.leaves.leaf i (Finset.mem_of_mem_insert_of_ne hi hne)
  · intro i hi
    rw [hnums, Finset.mem_insert, not_or] at hi
    show t' 0 i = none
    rw [hsame, Tree.set_ne _ _ (.inr hi.1), hframe.leaves]
    exact h.leaves.none i hi.2
  · rw [hnums]
    show TreeOk s2.treeDepth (s2.index + 1) _ _ t'
    rw [hs2]
    show TreeOk s1.treeDepth (s1.index + 1) _ _ t'
    rw [hframe.index]
    exact htree
  · rw [hs2]
    exact hframe.index
  · rw [hs2]
    exact hframe.aiMap
  · rw [hs2]
    exact hframe.stack
  · rw [hs2]
    exact hframe.verifyStack

/-! ## Calls -/

inductive Call where
  | calcStackDistAndUpdate (r_address : ℕ) (addNewNode : Bool)
  | calcStackDist (r_address : ℕ) (mark : Bool)

namespace Call

def run (s : StackDistCalc) : Call → Except Failure (StackDistCalc × ℕ × Bool)
  | .calcStackDistAndUpdate a addNewNode => s.calcStackDistAndUpdate a addNewNode
  | .calcStackDist a mark => s.calcStackDist a mark

def address : Call → ℕ
  | .calcStackDistAndUpdate a _ => a
  | .calcStackDist a _ => a

/-- The call adds a leaf. -/
def adds : Call → Bool
  | .calcStackDistAndUpdate _ addNewNode => addNewNode
  | .calcStackDist _ _ => false

/-- The call takes an address of the stack away. -/
def removes (L : List ℕ) : Call → Bool
  | .calcStackDistAndUpdate a addNewNode => !addNewNode && decide (a ∈ L)
  | .calcStackDist _ _ => false

/-- What the call does to the naive stack. -/
def next (L : List ℕ) : Call → List ℕ
  | .calcStackDistAndUpdate a true => a :: L.erase a
  | .calcStackDistAndUpdate a false => L.erase a
  | .calcStackDist _ _ => L

/-- A call that has returned. -/
structure Done (s : StackDistCalc) (L : List ℕ) (c : Call) (r : StackDistCalc × ℕ × Bool) : Prop where
  inv : ∃ num, Inv r.1 num (c.next L)
  result : r.2 = (naiveDistance L c.address, s.mark c.address)
  index : r.1.index = s.index + c.adds.toNat
  verifyStack : r.1.verifyStack = s.verifyStack
  stack : s.verifyStack = true → s.stack = L → c.removes L = false → r.1.stack = c.next L

end Call

theorem checkStack_spec (s : StackDistCalc) (a d : ℕ) (update_stack : Bool) :
    Outcome (fun e => e = .stackDist ∧ (StackDistCalc.verifyStackDist s.stack a update_stack).1 ≠ d)
      (fun s' => s' = { s with stack := (StackDistCalc.verifyStackDist s.stack a update_stack).2 })
      (s.checkStack a d update_stack) := by
  unfold StackDistCalc.checkStack panic_if
  by_cases hd : (StackDistCalc.verifyStackDist s.stack a update_stack).1 = d
  · simp only [hd, ne_eq, not_true_eq_false, decide_false, Bool.false_eq_true, if_false]
    rfl
  · simp only [ne_eq, hd, not_false_eq_true, decide_true, if_true]
    exact ⟨rfl, trivial⟩

theorem Held.setStack (h : Held s num L) (stack : List ℕ) : Held { s with stack := stack } num L :=
  ⟨⟨h.shape.pos, h.shape.room, h.shape.small, h.shape.next⟩, h.ranked, h.recent, h.leaves, h.tree⟩

theorem checkStack_naive (hL : L.Nodup) (update_stack : Bool) : Outcome (fun e => e = .stackDist ∧ s.stack ≠ L)
      (fun s' => ∃ stack, s' = { s with stack := stack } ∧
        (s.stack = L → stack = if update_stack then a :: L.erase a else L))
      (s.checkStack a (naiveDistance L a) update_stack) := by
  have hspec := checkStack_spec s a (naiveDistance L a) update_stack
  cases hcheck : s.checkStack a (naiveDistance L a) update_stack with
  | error e =>
    rw [hcheck] at hspec
    refine ⟨hspec.1, fun hs => hspec.2 ?_⟩
    rw [hs, verifyStackDist_eq hL]
  | ok s' =>
    rw [hcheck] at hspec
    refine ⟨_, hspec, fun hs => ?_⟩
    rw [hs, verifyStackDist_eq hL]

theorem Inv.aiMap_next (h : Inv s num L) {aiMap : ℕ → Option ℕ} {i : Option ℕ} {b : ℕ}
    (haiMap : aiMap b = if b = a then i else s.aiMap b) :
    aiMap b = if b = a then i else if b ∈ L.erase a then some (num b) else none := by
  rw [haiMap]
  by_cases hb : b = a
  · rw [if_pos hb, if_pos hb]
  · rw [if_neg hb, if_neg hb, h.aiMap b]
    exact if_congr (List.mem_erase_of_ne hb).symm rfl rfl

theorem calcStackDistAndUpdate_spec (h : Inv s num L) (a : ℕ) (addNewNode : Bool)
    (hindex : s.index + addNewNode.toNat < 2 ^ 31) :
    Outcome (fun e => e = .stackDist ∧ s.verifyStack = true ∧ s.stack ≠ L)
      (Call.Done s L (.calcStackDistAndUpdate a addNewNode)) (s.calcStackDistAndUpdate a addNewNode) := by
  obtain ⟨s1, hremove, h1, haiMap, hindex1, hstack1, hverify1⟩ := removeLeaf_spec h (by omega) a addNewNode
  have hnot : a ∉ L.erase a := fun hmem => (h.ranked.nodup.mem_erase_iff.1 hmem).1 rfl
  unfold StackDistCalc.calcStackDistAndUpdate
  rw [hremove]
  cases addNewNode with
  | false =>
    refine ⟨⟨num, h1, fun b => ?_⟩, rfl, hindex1, hverify1, fun _ hs hno => ?_⟩
    · rw [h.aiMap_next (haiMap b)]
      by_cases hb : b = a
      · rw [if_pos hb, hb]
        exact (if_neg hnot).symm
      · rw [if_neg hb]
        rfl
    · show s1.stack = L.erase a
      rw [List.erase_of_not_mem (of_decide_eq_false hno), ← hs, hstack1]
  | true =>
    obtain ⟨s3, hadd, h3, hindex3, haiMap3, hstack3, hverify3⟩ := addLeaf_eq h1 hnot (by omega)
    have hdone : ∀ stack, (s.verifyStack = true → s.stack = L → stack = a :: L.erase a) →
        Call.Done s L (.calcStackDistAndUpdate a true)
          ({ s3 with stack := stack, index := s3.index + 1 }, naiveDistance L a, s.mark a) := by
      intro stack hstack
      refine ⟨⟨_, h3.setStack stack, fun b => ?_⟩, rfl, ?_, hverify3.trans hverify1,
        fun hv hs _ => hstack hv hs⟩
      · show s3.aiMap b = _
        rw [haiMap3, h.aiMap_next (haiMap b)]
        by_cases hb : b = a
        · rw [if_pos hb, hb, hindex1, Function.update_self]
          exact (if_pos List.mem_cons_self).symm
        · rw [if_neg hb, Function.update_of_ne hb]
          exact if_congr (List.mem_cons.trans (or_iff_right hb)).symm rfl rfl
      · show s3.index + 1 = s.index + 1
        rw [hindex3, hindex1]
    show Outcome _ _ (s1.addLeaf a (naiveDistance L a) >>= fun s2 => .ok (s2, naiveDistance L a, s.mark a))
    rw [hadd, hverify1]
    cases hv : s.verifyStack with
    | false => exact hdone s3.stack fun hv' => absurd (hv.symm.trans hv') Bool.false_ne_true
    | true =>
      have hcheck := checkStack_naive (s := s3) (a := a) h.ranked.nodup true
      rw [if_pos rfl]
      cases hc : s3.checkStack a (naiveDistance L a) true with
      | error e =>
        rw [hc] at hcheck
        exact ⟨hcheck.1, rfl, fun hs => hcheck.2 (hstack3.trans (hstack1.trans hs))⟩
      | ok s4 =>
        rw [hc] at hcheck
        obtain ⟨stack, rfl, hstack⟩ := hcheck
        exact hdone stack fun _ hs => hstack (hstack3.trans (hstack1.trans hs))

theorem Inv.setMark (h : Inv s num L) {i : ℕ} {leaf : Node} (hleaf : s.tree 0 i = some leaf) (mark : Bool) :
    Inv { s with tree := s.tree.set 0 i (some { leaf with isMarked := mark }) } num L := by
  have hset : ∀ j, j ≠ i → s.tree.set 0 i (some { leaf with isMarked := mark }) 0 j = s.tree 0 j :=
    fun j hj => Tree.set_ne _ _ (.inr hj)
  refine ⟨⟨⟨h.shape.pos, h.shape.room, h.shape.small, h.shape.next⟩, h.ranked, h.recent, ⟨fun j hj => ?_,
    fun j hj => ?_⟩, h.tree.set_leaf _ _ h.shape.pos⟩, h.aiMap⟩
  · show ∃ leaf', s.tree.set 0 i (some { leaf with isMarked := mark }) 0 j = some leaf' ∧ _
    obtain ⟨leaf', hleaf', hok⟩ := h.leaves.leaf j hj
    by_cases hji : j = i
    · subst hji
      obtain rfl := Option.some.inj (hleaf.symm.trans hleaf')
      exact ⟨_, Tree.set_self .., hok.sum, hok.nodeIndex, hok.parent, hok.isLeftNode⟩
    · rw [hset j hji]
      exact ⟨leaf', hleaf', hok⟩
  · show s.tree.set 0 i (some { leaf with isMarked := mark }) 0 j = none
    have hji : j ≠ i := fun hji => by
      rw [← hji, h.leaves.none j hj] at hleaf
      cases hleaf
    rw [hset j hji]
    exact h.leaves.none j hj

theorem getSums_spec (h : Held s num L) (ha : a ∈ L) : s.getSumsLeavesToRoot (num a) = .ok (naiveDistance L a) := by
  have hi : num a ∈ nums num L := mem_nums.2 ⟨a, ha, rfl⟩
  have hlt : ∀ x ∈ nums num L, x < 2 ^ s.treeDepth := fun x hx => (h.lt_index hx).trans_le h.shape.room
  obtain ⟨leaf, hleaf, hok⟩ := h.leaves.leaf (num a) hi
  obtain ⟨d, hd⟩ : ∃ d, s.treeDepth = d + 1 := ⟨s.treeDepth - 1, by have := h.shape.pos; omega⟩
  have hsum := getSum_spec d (l := 0) (by omega) (h.tree.climbable hi)
  rw [above_top hlt (hlt _ hi), above_zero, ← h.ranked.idxOf_eq ha, ← naiveDistance_eq h.ranked.nodup ha,
    pow_zero, Nat.div_one, Nat.zero_add, pow_one, ← hd] at hsum
  unfold StackDistCalc.getSumsLeavesToRoot
  rw [hleaf]
  show (get leaf.parent >>= fun parent => getSum s.tree s.treeDepth parent leaf.isLeftNode 0 0) = _
  rw [hok.parent, hok.isLeftNode]
  exact hsum

theorem calcStackDist_eq (h : Inv s num L) (a : ℕ) (mark : Bool) : ∃ s1 : StackDistCalc, s.calcStackDist a mark =
        (if s.verifyStack then s1.checkStack a (naiveDistance L a) false else .ok s1).map (fun s2 =>
          (s2, naiveDistance L a, s.mark a)) ∧
      Inv s1 num L ∧ s1.index = s.index ∧ s1.stack = s.stack ∧ s1.verifyStack = s.verifyStack := by
  have hrest : ∀ s1 : StackDistCalc,
      ((if s.verifyStack then s1.checkStack a (naiveDistance L a) false else .ok s1) >>= fun s2 =>
        (.ok (s2, naiveDistance L a, s.mark a) : Except Failure _)) =
      (if s.verifyStack then s1.checkStack a (naiveDistance L a) false else .ok s1).map fun s2 =>
          (s2, naiveDistance L a, s.mark a) := fun s1 => by
    cases (if s.verifyStack then s1.checkStack a (naiveDistance L a) false else .ok s1) with
    | ok s2 => rfl
    | error e => rfl
  by_cases ha : a ∈ L
  · obtain ⟨leaf, hleaf, -⟩ := h.leaves.leaf (num a) (mem_nums.2 ⟨a, ha, rfl⟩)
    have h1 := h.setMark hleaf mark
    refine ⟨_, ?_, h1, rfl, rfl, rfl⟩
    have hmark : s.mark a = leaf.isMarked := by
      unfold StackDistCalc.mark
      rw [h.aiMap a, if_pos ha, Option.bind_some, hleaf]
      rfl
    rw [← hrest, hmark]
    unfold StackDistCalc.calcStackDist
    rw [h.aiMap a, if_pos ha]
    show ((get (s.tree 0 (num a)) >>= fun leaf => _) >>= fun q => _) = _
    rw [hleaf]
    show ((StackDistCalc.getSumsLeavesToRoot { s with
      tree := s.tree.set 0 (num a) (some { leaf with isMarked := mark }) } (num a) >>= fun d => _) >>=
        fun q => _) = _
    rw [getSums_spec h1.toHeld ha]
    rfl
  · refine ⟨s, ?_, h, rfl, rfl, rfl⟩
    have hmark : s.mark a = false := by
      unfold StackDistCalc.mark
      rw [h.aiMap a, if_neg ha]
      rfl
    rw [← hrest, hmark, show naiveDistance L a = Infinity from if_neg ha]
    unfold StackDistCalc.calcStackDist
    rw [h.aiMap a, if_neg ha]
    rfl

theorem calcStackDist_spec (h : Inv s num L) (a : ℕ) (mark : Bool) :
    Outcome (fun e => e = .stackDist ∧ s.verifyStack = true ∧ s.stack ≠ L)
      (Call.Done s L (.calcStackDist a mark)) (s.calcStackDist a mark) := by
  obtain ⟨s1, heq, h1, hindex, hstack, hverify⟩ := calcStackDist_eq h a mark
  have hdone : ∀ stack, (s.verifyStack = true → s.stack = L → stack = L) →
      Call.Done s L (.calcStackDist a mark) ({ s1 with stack := stack }, naiveDistance L a, s.mark a) :=
    fun stack hst =>
      ⟨⟨num, h1.toHeld.setStack stack, h1.aiMap⟩, rfl, hindex, hverify, fun hv hs _ => hst hv hs⟩
  rw [heq]
  cases hv : s.verifyStack with
  | false => exact hdone s1.stack fun hv' => absurd (hv.symm.trans hv') Bool.false_ne_true
  | true =>
    have hcheck := checkStack_naive (s := s1) (a := a) h.ranked.nodup false
    rw [if_pos rfl]
    cases hc : s1.checkStack a (naiveDistance L a) false with
    | error e =>
      rw [hc] at hcheck
      exact ⟨hcheck.1, rfl, fun hs => hcheck.2 (hstack.trans hs)⟩
    | ok s2 =>
      rw [hc] at hcheck
      obtain ⟨stack, rfl, hst⟩ := hcheck
      exact hdone stack fun _ hs => hst (hstack.trans hs)

/-- **One call.** -/
theorem Call.run_spec (h : Inv s num L) (c : Call) (hindex : s.index + c.adds.toNat < 2 ^ 31) :
    Outcome (fun e => e = .stackDist ∧ s.verifyStack = true ∧ s.stack ≠ L) (c.Done s L) (c.run s) := by
  cases c with
  | calcStackDistAndUpdate a addNewNode => exact calcStackDistAndUpdate_spec h a addNewNode hindex
  | calcStackDist a mark => exact calcStackDist_spec h a mark

end Alpine.Mem.StackDist
