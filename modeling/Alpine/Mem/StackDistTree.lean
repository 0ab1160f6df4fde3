import Alpine.Lib.DyadicCount
import Alpine.Mem.StackDist

/-!
# The sums of the tree (`updateSum`, `getSum`)

Node `j` of the layer `l + 1` stands for the leaves `x` with `x / 2 ^ (l + 1) = j`; its halves are the blocks
`2 * j` and `2 * j + 1` of the level `l`.

* `NodeOk` — the sums of a node count its halves, a half is discarded when no leaf can come into it any more,
  and the pointer to the parent is right.
* `updateSum_spec` — a walk to the root adapts the sums of the nodes it meets, deletes only what has no leaf,
  and collects the leaves above the one it started from; `getSum_spec` — so does a walk that changes nothing.
* `TreeOk.update` — the tree that a walk leaves.
-/

namespace Alpine.Mem.StackDist

open Alpine Alpine.Dyadic

/-! ## Trees -/

@[simp] theorem Tree.set_self (t : Tree) (l j : ℕ) (o : Option Node) : t.set l j o l j = o := by
  unfold Tree.set
  rw [Function.update_self, Function.update_self]

variable {l j : ℕ}

theorem Tree.set_ne (t : Tree) {k i : ℕ} (o : Option Node) (h : k ≠ l ∨ i ≠ j) : t.set l j o k i = t k i := by
  unfold Tree.set
  by_cases hk : k = l
  · subst hk
    rw [Function.update_self, Function.update_of_ne (h.resolve_left fun h => h rfl)]
  · rw [Function.update_of_ne hk]

/-- The node `j` of the layer `l + 1`: `S` are the leaves, those that are there or come are in `E` or at least
`N`. -/
structure NodeOk (depth N : ℕ) (S E : Finset ℕ) (l j : ℕ) (node : Node) : Prop where
  sumLeft : node.sumLeft = count S l (2 * j)
  sumRight : node.sumRight = count S l (2 * j + 1)
  discardLeft : node.discardLeft = true → count E l (2 * j) = 0 ∧ (2 * j + 1) * 2 ^ l ≤ N
  discardRight : node.discardRight = true → count E l (2 * j + 1) = 0 ∧ (2 * j + 2) * 2 ^ l ≤ N
  nodeIndex : node.nodeIndex = j
  parent : node.parent = if l + 1 = depth then none else some (j / 2)
  isLeftNode : node.isLeftNode = decide (j % 2 = 0)

/-- What the tree must have a node for: leaves, the block that is being filled, and the root. -/
def Needed (depth N : ℕ) (E : Finset ℕ) (l j : ℕ) : Prop :=
  (∃ i ∈ E, i / 2 ^ (l + 1) = j) ∨ (N % 2 ^ (l + 1) ≠ 0 ∧ N / 2 ^ (l + 1) = j) ∨ (l + 1 = depth ∧ j = 0)

structure TreeOk (depth N : ℕ) (S E : Finset ℕ) (t : Tree) : Prop where
  nodes : ∀ l j node, l < depth → t (l + 1) j = some node → NodeOk depth N S E l j node
  exist : ∀ l j, l < depth → Needed depth N E l j → ∃ node, t (l + 1) j = some node
  root : ∀ j node, t depth j = some node → j = 0
  empty : ∀ l j, depth < l → t l j = none

theorem oneShl_ok {i : ℕ} (h : i < 31) : oneShl i = .ok (2 ^ i) := if_pos h

variable {node : Node}

/-- A sum is at most the size of its half, so that the check passes. -/
theorem NodeOk.checkSums {depth N : ℕ} {S E : Finset ℕ} (h : NodeOk depth N S E l j node) (hl : l < 31) :
    node.checkSums (l + 1) = .ok () := by
  unfold Node.checkSums
  rw [Nat.add_sub_cancel, oneShl_ok hl]
  show (panic_if (node.sumLeft > 2 ^ l) .sums >>= fun _ => panic_if (node.sumRight > 2 ^ l) .sums) = .ok ()
  rw [h.sumLeft, h.sumRight, decide_eq_false (not_lt.2 (count_le S l _)), decide_eq_false (not_lt.2 (count_le S l _))]
  rfl

/-! ## One node of a walk -/

section Walk

variable {depth N i : ℕ} {S E S' E' : Finset ℕ}

/-- The leaf `i` is added to the leaves or removed from them. -/
structure Changes (S E S' E' : Finset ℕ) (i : ℕ) : Prop where
  leaves : ∀ x, x ≠ i → (x ∈ S' ↔ x ∈ S)
  mayCome : E' ⊆ E

/-- What is handed to a node: the block below has been discarded. -/
def Discarded (N : ℕ) (E' : Finset ℕ) (l j : ℕ) : Prop := count E' l j = 0 ∧ (j + 1) * 2 ^ l ≤ N

theorem Changes.count_eq (h : Changes S E S' E' i) (hj : i / 2 ^ l ≠ j) : count S' l j = count S l j :=
  count_congr fun x hx => h.leaves x fun hxi => hj (hxi ▸ hx)

theorem Changes.discarded (h : Changes S E S' E' i) (hd : Discarded N E l j) : Discarded N E' l j :=
  ⟨Nat.le_zero.1 ((count_mono h.mayCome l j).trans hd.1.le), hd.2⟩

theorem NodeOk.other (h : Changes S E S' E' i) (hok : NodeOk depth N S E l j node) (hj : i / 2 ^ (l + 1) ≠ j) :
    NodeOk depth N S' E' l j node := by
  rw [div_pow_succ] at hj
  refine ⟨?_, ?_, fun hd => h.discarded (hok.discardLeft hd), fun hd => h.discarded (hok.discardRight hd),
    hok.nodeIndex, hok.parent, hok.isLeftNode⟩
  · rw [h.count_eq (j := 2 * j) (by omega)]
    exact hok.sumLeft
  · rw [h.count_eq (j := 2 * j + 1) (by omega)]
    exact hok.sumRight

theorem NodeOk.visit (h : Changes S E S' E' i) {b : Bool} (hok : NodeOk depth N S E l (i / 2 ^ (l + 1)) node)
    (hb : b = true → Discarded N E' l (i / 2 ^ l)) : NodeOk depth N S' E' l (i / 2 ^ (l + 1))
      (node.visit (decide (i / 2 ^ l % 2 = 0)) (count S' l (i / 2 ^ l)) b) := by
  have hdiv : i / 2 ^ (l + 1) = i / 2 ^ l / 2 := div_pow_succ i l
  by_cases hleft : i / 2 ^ l % 2 = 0
  · have hj : 2 * (i / 2 ^ (l + 1)) = i / 2 ^ l := by omega
    have hother : count S' l (2 * (i / 2 ^ (l + 1)) + 1) = count S l (2 * (i / 2 ^ (l + 1)) + 1) :=
      h.count_eq (by omega)
    rw [decide_eq_true hleft]
    refine ⟨?_, ?_, ?_, ?_, hok.nodeIndex, hok.parent, hok.isLeftNode⟩
    · rw [hj]
      rfl
    · rw [hother]
      exact hok.sumRight
    · intro hd
      rcases Bool.or_eq_true_iff.1 hd with hd | hd
      · exact h.discarded (hok.discardLeft hd)
      · rw [hj]
        exact hb (Bool.and_eq_true_iff.1 (Bool.and_eq_true_iff.1 hd).1).1
    · intro hd
      rcases Bool.or_eq_true_iff.1 hd with hd | hd
      · exact h.discarded (hok.discardRight hd)
      · exact absurd (Bool.and_eq_true_iff.1 hd).2 Bool.false_ne_true
  · have hj : 2 * (i / 2 ^ (l + 1)) + 1 = i / 2 ^ l := by omega
    have hother : count S' l (2 * (i / 2 ^ (l + 1))) = count S l (2 * (i / 2 ^ (l + 1))) :=
      h.count_eq (by omega)
    rw [decide_eq_false hleft]
    refine ⟨?_, ?_, ?_, ?_, hok.nodeIndex, hok.parent, hok.isLeftNode⟩
    · rw [hother]
      exact hok.sumLeft
    · rw [hj]
      rfl
    · intro hd
      rcases Bool.or_eq_true_iff.1 hd with hd | hd
      · exact h.discarded (hok.discardLeft hd)
      · exact absurd (Bool.and_eq_true_iff.1 hd).2 Bool.false_ne_true
    · intro hd
      rcases Bool.or_eq_true_iff.1 hd with hd | hd
      · exact h.discarded (hok.discardRight hd)
      · have hbelow := hb (Bool.and_eq_true_iff.1 (Bool.and_eq_true_iff.1 hd).1).1
        rw [← hj] at hbelow
        exact hbelow

theorem NodeOk.discarded (hok : NodeOk depth N S E l j node) (hl : node.discardLeft = true)
    (hr : node.discardRight = true) : Discarded N E (l + 1) j := by
  refine ⟨count_succ_eq_zero.2 ⟨(hok.discardLeft hl).1, (hok.discardRight hr).1⟩, ?_⟩
  rw [pow_succ, show (j + 1) * (2 ^ l * 2) = (2 * j + 2) * 2 ^ l by ring]
  exact (hok.discardRight hr).2

theorem NodeOk.sum (hok : NodeOk depth N S E l j node) : node.sumLeft + node.sumRight = count S (l + 1) j := by
  rw [hok.sumLeft, hok.sumRight, count_succ]

theorem NodeOk.above (hok : NodeOk depth N S E l (i / 2 ^ (l + 1)) node) :
    (if decide (i / 2 ^ l % 2 = 0) = true then Dyadic.above S l i + node.sumRight else Dyadic.above S l i) =
      Dyadic.above S (l + 1) i := by
  have hdiv : i / 2 ^ (l + 1) = i / 2 ^ l / 2 := div_pow_succ i l
  by_cases hleft : i / 2 ^ l % 2 = 0
  · rw [if_pos (decide_eq_true hleft), above_left hleft, hok.sumRight]
    congr 2
    omega
  · rw [if_neg (by rw [decide_eq_false hleft]; exact Bool.false_ne_true), above_right (by omega)]

/-! ## The walk -/

/-- The nodes in the layers above `l` are right, and those above the leaf `i` are there. -/
structure Climbable (depth N : ℕ) (S E : Finset ℕ) (i l : ℕ) (t : Tree) : Prop where
  nodes : ∀ k j node, l ≤ k → k < depth → t (k + 1) j = some node → NodeOk depth N S E k j node
  path : ∀ k, l ≤ k → k < depth → ∃ node, t (k + 1) (i / 2 ^ (k + 1)) = some node

/-- What a walk from the layer `l` has done. -/
structure Walked (depth N : ℕ) (S' E' : Finset ℕ) (i l : ℕ) (t t' : Tree) : Prop where
  same : ∀ k j, k ≤ l ∨ depth < k ∨ j ≠ i / 2 ^ k → t' k j = t k j
  path : ∀ k, l ≤ k → k < depth →
    (∃ node, t' (k + 1) (i / 2 ^ (k + 1)) = some node ∧ NodeOk depth N S' E' k (i / 2 ^ (k + 1)) node) ∨
      (t' (k + 1) (i / 2 ^ (k + 1)) = none ∧ k + 1 ≠ depth ∧ Discarded N E' (k + 1) (i / 2 ^ (k + 1)))

theorem Climbable.next {t : Tree} (h : Climbable depth N S E i l t) (o : Option Node) :
    Climbable depth N S E i (l + 1) (t.set (l + 1) j o) := by
  have hset : ∀ k j', l + 1 ≤ k → t.set (l + 1) j o (k + 1) j' = t (k + 1) j' := fun k j' hk =>
    Tree.set_ne t o (.inl (by omega))
  refine ⟨fun k j' node hk hd hnode => ?_, fun k hk hd => ?_⟩
  · rw [hset k j' hk] at hnode
    exact h.nodes k j' node (by omega) hd hnode
  · rw [hset k _ hk]
    exact h.path k (by omega) hd

/-- The walk goes on after the node `j`, with what is left of it. -/
def Node.isDeleted (node : Node) (discard_node : Bool) (sum_from_below : ℕ) : Bool :=
  node.discardLeft && node.discardRight && discard_node && node.parent.isSome && sum_from_below = 0

theorem updateSum_eq {verifyStack : Bool} {fuel sum stack_dist : ℕ} {t : Tree} {from_left b : Bool}
    {old new : Node} (hold : t (l + 1) j = some old) (hcheck : old.checkSums (l + 1) = .ok ())
    (hnew : new = old.visit from_left sum b) (hindex : old.nodeIndex = j) :
    updateSum verifyStack (fuel + 1) t j from_left sum l stack_dist b =
      (let t1 := t.set (l + 1) j (if new.isDeleted b sum then none else some new)
      let d := if from_left then stack_dist + old.sumRight else stack_dist
      match new.parent with
      | some parent =>
        updateSum verifyStack fuel t1 parent new.isLeftNode (new.sumLeft + new.sumRight) (l + 1) d
          (new.isDeleted b sum)
      | none => .ok (d, t1)) := by
  have htree : (if new.isDeleted b sum then t.set (l + 1) new.nodeIndex none
      else t.set (l + 1) j (some new)) =
      t.set (l + 1) j (if new.isDeleted b sum then none else some new) := by
    rw [show new.nodeIndex = j by rw [hnew]; exact hindex]
    split
    · rfl
    · rfl
  dsimp only
  rw [← htree, hnew, updateSum, hold]
  cases verifyStack with
  | false => rfl
  | true =>
    show (old.checkSums (l + 1) >>= fun _ => _) = _
    rw [hcheck]
    rfl

/-- **The walk of `updateSum`.**  It reaches the root, collects the leaves above the leaf `i` and leaves the
nodes with the sums of the new leaves. -/
theorem updateSum_spec (h : Changes S E S' E' i) (hdepth : depth ≤ 31) (verifyStack : Bool) :
    ∀ (fuel : ℕ) {l : ℕ} {t : Tree} {b : Bool}, l + (fuel + 1) = depth → Climbable depth N S E i l t →
      (b = true → Discarded N E' l (i / 2 ^ l)) →
      ∃ t', updateSum verifyStack (fuel + 1) t (i / 2 ^ (l + 1)) (decide (i / 2 ^ l % 2 = 0))
          (count S' l (i / 2 ^ l)) l (Dyadic.above S l i) b = .ok (Dyadic.above S depth i, t') ∧
        Walked depth N S' E' i l t t'
  | fuel, l, t, b, hfuel, hclimb, hb => by
    obtain ⟨node, hnode⟩ := hclimb.path l le_rfl (by omega)
    have hold := hclimb.nodes l _ node le_rfl (by omega) hnode
    obtain ⟨new, hnew⟩ : ∃ new, new =
      node.visit (decide (i / 2 ^ l % 2 = 0)) (count S' l (i / 2 ^ l)) b := ⟨_, rfl⟩
    have hok : NodeOk depth N S' E' l (i / 2 ^ (l + 1)) new := hnew ▸ hold.visit h hb
    obtain ⟨d, hd⟩ : ∃ d, d = new.isDeleted b (count S' l (i / 2 ^ l)) := ⟨_, rfl⟩
    -- what is deleted has been discarded, and is not the root
    have hdeleted : d = true → l + 1 ≠ depth ∧ Discarded N E' (l + 1) (i / 2 ^ (l + 1)) := by
      intro hdt
      rw [hd] at hdt
      unfold Node.isDeleted at hdt
      simp only [Bool.and_eq_true] at hdt
      obtain ⟨⟨⟨⟨hl, hr⟩, -⟩, hp⟩, -⟩ := hdt
      refine ⟨fun hroot => ?_, hok.discarded hl hr⟩
      rw [hok.parent, if_pos hroot] at hp
      cases hp
    have hpath : (∃ node', t.set (l + 1) (i / 2 ^ (l + 1)) (if d then none else some new) (l + 1)
          (i / 2 ^ (l + 1)) = some node' ∧ NodeOk depth N S' E' l (i / 2 ^ (l + 1)) node') ∨
        (t.set (l + 1) (i / 2 ^ (l + 1)) (if d then none else some new) (l + 1) (i / 2 ^ (l + 1)) = none ∧
          l + 1 ≠ depth ∧ Discarded N E' (l + 1) (i / 2 ^ (l + 1))) := by
      rw [Tree.set_self]
      split
      · rename_i hdt
        exact .inr ⟨rfl, hdeleted hdt⟩
      · exact .inl ⟨new, rfl, hok⟩
    rw [updateSum_eq hnode (hold.checkSums (by omega)) hnew hold.nodeIndex, ← hd, hold.above, hok.parent,
      hok.isLeftNode, hok.sum]
    by_cases hroot : l + 1 = depth
    · rw [if_pos hroot, ← hroot]
      refine ⟨_, rfl, fun k j hk => Tree.set_ne t _ ?_, fun k hk hkd => ?_⟩
      · by_cases hkl : k = l + 1
        · subst hkl
          exact .inr ((hk.resolve_left (by omega)).resolve_left (by omega))
        · exact .inl hkl
      · obtain rfl : k = l := by omega
        rw [hroot]
        exact hroot ▸ hpath
    · rw [if_neg hroot]
      obtain ⟨fuel, rfl⟩ : ∃ f, fuel = f + 1 := ⟨fuel - 1, by omega⟩
      obtain ⟨t', hrun, hwalked⟩ := updateSum_spec h hdepth verifyStack fuel
        (b := d) (by omega) (hclimb.next (j := i / 2 ^ (l + 1)) (if d then none else some new))
        fun hdt => (hdeleted hdt).2
      dsimp only
      rw [← div_pow_succ]
      refine ⟨t', hrun, fun k j hk => ?_, fun k hk hkd => ?_⟩
      · rw [hwalked.same k j (by omega)]
        refine Tree.set_ne t _ ?_
        by_cases hkl : k = l + 1
        · subst hkl
          exact .inr ((hk.resolve_left (by omega)).resolve_left (by omega))
        · exact .inl hkl
      · by_cases hkl : k = l
        · subst hkl
          rw [hwalked.same (k + 1) _ (.inl le_rfl)]
          exact hpath
        · exact hwalked.path k (by omega) hkd

theorem getSum_spec {t : Tree} : ∀ (fuel : ℕ) {l : ℕ}, l + (fuel + 1) = depth → Climbable depth N S E i l t →
    getSum t (fuel + 1) (i / 2 ^ (l + 1)) (decide (i / 2 ^ l % 2 = 0)) (Dyadic.above S l i) l =
      .ok (Dyadic.above S depth i)
  | fuel, l, hfuel, hclimb => by
    obtain ⟨node, hnode⟩ := hclimb.path l le_rfl (by omega)
    have hok := hclimb.nodes l _ node le_rfl (by omega) hnode
    rw [getSum, hnode]
    show (match node.parent with
      | some parent => getSum t fuel parent node.isLeftNode
        (if decide (i / 2 ^ l % 2 = 0) = true then Dyadic.above S l i + node.sumRight
          else Dyadic.above S l i) (l + 1)
      | none => .ok (if decide (i / 2 ^ l % 2 = 0) = true then Dyadic.above S l i + node.sumRight
          else Dyadic.above S l i)) = _
    rw [hok.above, hok.parent, hok.isLeftNode]
    by_cases hroot : l + 1 = depth
    · rw [if_pos hroot, hroot]
    · rw [if_neg hroot]
      obtain ⟨fuel, rfl⟩ : ∃ f, fuel = f + 1 := ⟨fuel - 1, by omega⟩
      dsimp only
      rw [← div_pow_succ]
      exact getSum_spec fuel (by omega)
        ⟨fun k j node hk => hclimb.nodes k j node (by omega), fun k hk => hclimb.path k (by omega)⟩

/-! ## The whole tree -/

variable {t t' : Tree}

/-- Above a leaf that is there or may come, there are nodes up to the root. -/
theorem TreeOk.climbable (h : TreeOk depth N S E t) (hi : i ∈ E) : Climbable depth N S E i 0 t :=
  ⟨fun k j node _ hk => h.nodes k j node hk, fun k _ hk => h.exist k _ hk (.inl ⟨i, hi, rfl⟩)⟩

/-- Only the leaves matter. -/
theorem TreeOk.set_leaf (h : TreeOk depth N S E t) (j : ℕ) (o : Option Node) (hdepth : 0 < depth) :
    TreeOk depth N S E (t.set 0 j o) := by
  have hset : ∀ k j', t.set 0 j o (k + 1) j' = t (k + 1) j' := fun k j' => Tree.set_ne t o (.inl (by omega))
  obtain ⟨d, rfl⟩ : ∃ d, depth = d + 1 := ⟨depth - 1, by omega⟩
  refine ⟨fun l j' node hl hnode => ?_, fun l j' hl hneeded => ?_, fun j' node hnode => ?_, fun l j' hl => ?_⟩
  · exact h.nodes l j' node hl (hset l j' ▸ hnode)
  · rw [hset]
    exact h.exist l j' hl hneeded
  · exact h.root j' node (hset d j' ▸ hnode)
  · obtain ⟨l, rfl⟩ : ∃ k, l = k + 1 := ⟨l - 1, by omega⟩
    rw [hset]
    exact h.empty _ j' hl

theorem not_discarded_of_needed (hneeded : Needed depth N E l j) (hroot : l + 1 ≠ depth) :
    ¬ Discarded N E (l + 1) j := by
  rintro ⟨hzero, hend⟩
  rcases hneeded with ⟨x, hx, hxj⟩ | ⟨-, hNj⟩ | ⟨hroot', -⟩
  · exact count_eq_zero.1 hzero x hx hxj
  · have hlt : N < (N / 2 ^ (l + 1) + 1) * 2 ^ (l + 1) := Nat.lt_mul_of_div_lt (by omega) (by positivity)
    rw [hNj] at hlt
    omega
  · exact hroot hroot'

/-- **The tree that a walk leaves.** -/
theorem TreeOk.update (h : TreeOk depth N S E t) (hc : Changes S E S' E' i) (hi : i < 2 ^ depth)
    (hw : Walked depth N S' E' i 0 t t') : TreeOk depth N S' E' t' := by
  refine ⟨fun l j node hl hnode => ?_, fun l j hl hneeded => ?_, fun j node hnode => ?_, fun l j hl => ?_⟩
  · by_cases hj : i / 2 ^ (l + 1) = j
    · subst hj
      rcases hw.path l (Nat.zero_le l) hl with ⟨node', hnode', hok⟩ | ⟨hnone, -⟩
      · obtain rfl := Option.some.inj (hnode.symm.trans hnode')
        exact hok
      · cases hnode.symm.trans hnone
    · rw [hw.same (l + 1) j (.inr (.inr fun heq => hj heq.symm))] at hnode
      exact (h.nodes l j node hl hnode).other hc hj
  · by_cases hj : i / 2 ^ (l + 1) = j
    · subst hj
      rcases hw.path l (Nat.zero_le l) hl with ⟨node', hnode', -⟩ | ⟨-, hroot, hd⟩
      · exact ⟨node', hnode'⟩
      · exact absurd hd (not_discarded_of_needed hneeded hroot)
    · rw [hw.same (l + 1) j (.inr (.inr fun heq => hj heq.symm))]
      exact h.exist l j hl (hneeded.imp_left fun ⟨x, hx, hxj⟩ => ⟨x, hc.mayCome hx, hxj⟩)
  · by_cases hj : j = i / 2 ^ depth
    · rw [hj, Nat.div_eq_of_lt hi]
    · exact h.root j node (hw.same depth j (.inr (.inr hj)) ▸ hnode)
  · rw [hw.same l j (.inr (.inl hl))]
    exact h.empty l j hl

end Walk

end Alpine.Mem.StackDist
