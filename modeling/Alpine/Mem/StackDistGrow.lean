import Alpine.Mem.StackDistTree
import Alpine.Lib.Mask

/-!
# Growing the tree (`updateTree`)

Before a leaf with an even index comes, `updateTree` adds nodes above it: one in every layer whose last block
is full, and a new root when the whole tree is.

* `Grown` — what the loops keep: the layers they have passed have a node for the new leaf.
* `updateTree_spec` — after `updateTree` every layer has one, and the root has room for the leaf.
* `Grown.come` — the leaf may come.
-/

namespace Alpine.Mem.StackDist

open Alpine Alpine.Dyadic

/-! ## Arithmetic -/

theorem isPowerOf2_iff {n : ℕ} (hn : n < 2 ^ 64) : isPowerOf2 n = true ↔ ∃ k, n = 2 ^ k := by
  have hnat : (BitVec.ofNat 64 n).toNat = n := Nat.mod_eq_of_lt hn
  unfold isPowerOf2
  rw [Bool.and_eq_true, decide_eq_true_iff, decide_eq_true_iff]
  by_cases h : n = 0
  · subst h
    exact iff_of_false (fun h => h.1 rfl) fun ⟨k, hk⟩ => (Nat.two_pow_pos k).ne hk
  · have hne : BitVec.ofNat 64 n ≠ 0#64 := fun h0 => h (hnat.symm.trans (congrArg BitVec.toNat h0))
    rw [and_not_pred_eq_self_iff hne, hnat]
    exact and_iff_right h

/-- The block of the last leaf and that of the next one. -/
theorem pred_div_of_mod_ne {N m : ℕ} (h : N % m ≠ 0) : (N - 1) / m = N / m := by
  obtain ⟨M, rfl⟩ : ∃ M, N = M + 1 := ⟨N - 1, by
    have hN : N ≠ 0 := fun hN => h (by rw [hN, Nat.zero_mod])
    omega⟩
  rw [Nat.add_sub_cancel, Nat.succ_div, if_neg fun hdvd => h (Nat.mod_eq_zero_of_dvd hdvd), Nat.add_zero]

theorem pred_div_of_mod_eq {N m : ℕ} (h : N % m = 0) (hN : 0 < N) : (N - 1) / m + 1 = N / m := by
  obtain ⟨M, rfl⟩ : ∃ M, N = M + 1 := ⟨N - 1, by omega⟩
  rw [Nat.add_sub_cancel, Nat.succ_div, if_pos (Nat.dvd_of_mod_eq_zero h)]

/-! ## The loops -/

/-- What `updateTree` leaves alone. -/
structure Frame (s s' : StackDistCalc) : Prop where
  index : s'.index = s.index
  aiMap : s'.aiMap = s.aiMap
  stack : s'.stack = s.stack
  verifyStack : s'.verifyStack = s.verifyStack
  leaves : s'.tree 0 = s.tree 0

theorem Frame.refl (s : StackDistCalc) : Frame s s := ⟨rfl, rfl, rfl, rfl, rfl⟩

theorem Frame.trans {s s' s'' : StackDistCalc} (h : Frame s s') (h' : Frame s' s'') : Frame s s'' :=
  ⟨h'.index.trans h.index, h'.aiMap.trans h.aiMap, h'.stack.trans h.stack,
    h'.verifyStack.trans h.verifyStack, h'.leaves.trans h.leaves⟩

/-- The layers above `k` have a node for the leaf `N`; the other ones are as they were after the last leaf. -/
structure Grown (N : ℕ) (S : Finset ℕ) (k : ℕ) (s : StackDistCalc) : Prop where
  tree : TreeOk s.treeDepth N S S s.tree
  before : ∀ l, 1 ≤ l → l ≤ k → s.nextIndex l = (N - 1) / 2 ^ l + 1
  after : ∀ l, k < l → l ≤ s.treeDepth →
    s.nextIndex l = N / 2 ^ l + 1 ∧ ∃ node, s.tree l (N / 2 ^ l) = some node

variable {N : ℕ} {S : Finset ℕ} {k : ℕ} {s : StackDistCalc}

theorem Grown.skip (h : Grown N S (k + 1) s) (hk : k + 1 < s.treeDepth) (hmod : N % 2 ^ (k + 1) ≠ 0) :
    Grown N S k s := by
  refine ⟨h.tree, fun l hl hlk => h.before l hl (by omega), fun l hkl hl => ?_⟩
  by_cases hlk : l = k + 1
  · subst hlk
    refine ⟨?_, h.tree.exist k _ (by omega) (.inr (.inl ⟨hmod, rfl⟩))⟩
    rw [h.before (k + 1) (by omega) le_rfl, pred_div_of_mod_ne hmod]
  · exact h.after l (by omega) hl

/-- No leaf is in a block that begins at the next leaf. -/
theorem count_eq_zero_of_ge (hS : ∀ x ∈ S, x < N) {l j : ℕ} (hj : N ≤ j * 2 ^ l) : count S l j = 0 := by
  refine count_eq_zero.2 fun x hx hxj => ?_
  have hle : j * 2 ^ l ≤ x := by
    rw [← hxj]
    exact Nat.div_mul_le_self x _
  have hlt := hS x hx
  omega

theorem TreeOk.add {depth l j : ℕ} {E : Finset ℕ} {t : Tree} {node : Node} (h : TreeOk depth N S E t)
    (hl : l + 1 < depth) (hok : NodeOk depth N S E l j node) : TreeOk depth N S E (t.set (l + 1) j (some node)) := by
  refine ⟨fun k i node' hk hnode => ?_, fun k i hk hneeded => ?_, fun i node' hnode => ?_, fun k i hk => ?_⟩
  · by_cases hki : k = l ∧ i = j
    · obtain ⟨rfl, rfl⟩ := hki
      rw [Tree.set_self] at hnode
      exact Option.some.inj hnode ▸ hok
    · rw [Tree.set_ne t _ (by omega)] at hnode
      exact h.nodes k i node' hk hnode
  · by_cases hki : k = l ∧ i = j
    · obtain ⟨rfl, rfl⟩ := hki
      exact ⟨node, Tree.set_self ..⟩
    · rw [Tree.set_ne t _ (by omega)]
      exact h.exist k i hk hneeded
  · rw [Tree.set_ne t _ (.inl (by omega))] at hnode
    exact h.root i node' hnode
  · rw [Tree.set_ne t _ (.inl (by omega))]
    exact h.empty k i hk

theorem addINode_spec (h : Grown N S (k + 1) s) (hk : k + 1 < s.treeDepth) (hmod : N % 2 ^ (k + 1) = 0)
    (hN : 0 < N) (hS : ∀ x ∈ S, x < N) :
    ∃ s', s.addINode (k + 1) = .ok s' ∧ Grown N S k s' ∧ Frame s s' ∧ s'.treeDepth = s.treeDepth := by
  obtain ⟨hnext, parent, hparent⟩ := h.after (k + 2) (by omega) (by omega)
  have hindex : s.nextIndex (k + 1) = N / 2 ^ (k + 1) := by
    rw [h.before (k + 1) (by omega) le_rfl, pred_div_of_mod_eq hmod hN]
  have hstart : 2 * (N / 2 ^ (k + 1)) * 2 ^ k = N := by
    rw [show 2 * (N / 2 ^ (k + 1)) * 2 ^ k = N / 2 ^ (k + 1) * 2 ^ (k + 1) by ring]
    exact Nat.div_mul_cancel (Nat.dvd_of_mod_eq_zero hmod)
  have hright : N ≤ (2 * (N / 2 ^ (k + 1)) + 1) * 2 ^ k := by
    rw [Nat.add_mul, hstart]
    exact Nat.le_add_right N _
  unfold StackDistCalc.addINode
  rw [show k + 1 + 1 = k + 2 from rfl, hnext, Nat.add_sub_cancel]
  dsimp only
  rw [hparent, hindex]
  refine ⟨_, rfl, ⟨?_, fun l hl hlk => ?_, fun l hkl hl => ?_⟩, ⟨rfl, rfl, rfl, rfl, rfl⟩, rfl⟩
  · refine h.tree.add hk ⟨(count_eq_zero_of_ge hS hstart.ge).symm, (count_eq_zero_of_ge hS hright).symm,
      fun hd => Bool.noConfusion hd, fun hd => Bool.noConfusion hd, rfl, ?_, rfl⟩
    rw [if_neg hk.ne, ← div_pow_succ]
  · show Function.update s.nextIndex (k + 1) _ l = _
    rw [Function.update_of_ne (by omega)]
    exact h.before l hl (by omega)
  · show Function.update s.nextIndex (k + 1) _ l = _ ∧ _
    by_cases hlk : l = k + 1
    · subst hlk
      rw [Function.update_self]
      exact ⟨rfl, _, Tree.set_self ..⟩
    · rw [Function.update_of_ne hlk]
      obtain ⟨hnext', node, hnode⟩ := h.after l (by omega) hl
      exact ⟨hnext', node, (Tree.set_ne s.tree _ (.inl hlk)).trans hnode⟩

/-- **The loops of `updateTree`.** -/
theorem addINodes_spec (needs : ℕ → Except Failure Bool) (hN : 0 < N) (hS : ∀ x ∈ S, x < N) :
    ∀ (k : ℕ) {s : StackDistCalc}, Grown N S k s → k < s.treeDepth →
      (∀ i, 1 ≤ i → i ≤ k → needs i = .ok (decide (N % 2 ^ i = 0))) →
      ∃ s', StackDistCalc.addINodes needs k s = .ok s' ∧ Grown N S 0 s' ∧ Frame s s' ∧ s'.treeDepth = s.treeDepth
  | 0, s, h, _, _ => ⟨s, rfl, h, .refl s, rfl⟩
  | k + 1, s, h, hk, hneeds => by
    rw [StackDistCalc.addINodes, hneeds (k + 1) (by omega) le_rfl]
    by_cases hmod : N % 2 ^ (k + 1) = 0
    · obtain ⟨s1, hadd, h1, hframe, hdepth⟩ := addINode_spec h hk hmod hN hS
      obtain ⟨s', hrun, h', hframe', hdepth'⟩ := addINodes_spec needs hN hS k h1 (by omega)
        fun i hi hik => hneeds i hi (by omega)
      refine ⟨s', ?_, h', hframe.trans hframe', hdepth'.trans hdepth⟩
      rw [decide_eq_true hmod, ← hrun]
      show (s.addINode (k + 1) >>= fun s' => StackDistCalc.addINodes needs k s') = _
      rw [hadd]
      rfl
    · rw [decide_eq_false hmod]
      exact addINodes_spec needs hN hS k (h.skip hk hmod) (by omega) fun i hi hik => hneeds i hi (by omega)

/-! ## A new root -/

/-- A node below the root is not touched. -/
theorem NodeOk.deepen {depth l j : ℕ} {E : Finset ℕ} {node : Node} (h : NodeOk depth N S E l j node)
    (hl : l + 1 < depth) : NodeOk (depth + 1) N S E l j node := by
  refine ⟨h.sumLeft, h.sumRight, h.discardLeft, h.discardRight, h.nodeIndex, ?_, h.isLeftNode⟩
  rw [h.parent, if_neg hl.ne, if_neg (by omega)]

theorem TreeOk.addRoot {e : ℕ} {t : Tree} {root top : Node} (h : TreeOk (e + 1) (2 ^ (e + 1)) S S t)
    (hS : ∀ x ∈ S, x < 2 ^ (e + 1)) (hroot : NodeOk (e + 2) (2 ^ (e + 1)) S S e 0 root)
    (htop : NodeOk (e + 2) (2 ^ (e + 1)) S S (e + 1) 0 top) :
    TreeOk (e + 2) (2 ^ (e + 1)) S S ((t.set (e + 2) 0 (some top)).set (e + 1) 0 (some root)) := by
  have hlt : (2 : ℕ) ^ (e + 1) < 2 ^ (e + 2) := Nat.pow_lt_pow_right (by omega) (by omega)
  have htopmost : ((t.set (e + 2) 0 (some top)).set (e + 1) 0 (some root)) (e + 2) 0 = some top := by
    rw [Tree.set_ne _ _ (.inl (by omega)), Tree.set_self]
  have habove : ∀ j node, ((t.set (e + 2) 0 (some top)).set (e + 1) 0 (some root)) (e + 2) j = some node →
      j = 0 := by
    intro j node hnode
    by_contra hj
    rw [Tree.set_ne _ _ (.inl (by omega)), Tree.set_ne _ _ (.inr hj), h.empty _ j (by omega)] at hnode
    cases hnode
  refine ⟨fun l j node hl hnode => ?_, fun l j hl hneeded => ?_, habove, fun l j hl => ?_⟩
  · rcases (by omega : l = e + 1 ∨ l = e ∨ l < e) with rfl | rfl | hle
    · obtain rfl := habove j node hnode
      exact Option.some.inj (htopmost.symm.trans hnode) ▸ htop
    · by_cases hj : j = 0
      · subst hj
        rw [Tree.set_self] at hnode
        exact Option.some.inj hnode ▸ hroot
      · rw [Tree.set_ne _ _ (.inr hj), Tree.set_ne _ _ (.inl (by omega))] at hnode
        exact absurd (h.root j node hnode) hj
    · rw [Tree.set_ne _ _ (.inl (by omega)), Tree.set_ne _ _ (.inl (by omega))] at hnode
      exact (h.nodes l j node (by omega) hnode).deepen (by omega)
  · rcases (by omega : l = e + 1 ∨ l = e ∨ l < e) with rfl | rfl | hle
    · have hj : j = 0 := by
        rcases hneeded with ⟨x, hx, rfl⟩ | ⟨-, rfl⟩ | ⟨-, rfl⟩
        · exact Nat.div_eq_of_lt ((hS x hx).trans hlt)
        · exact Nat.div_eq_of_lt hlt
        · rfl
      subst hj
      exact ⟨top, htopmost⟩
    · have hj : j = 0 := by
        rcases hneeded with ⟨x, hx, rfl⟩ | ⟨hmod, -⟩ | ⟨-, rfl⟩
        · exact Nat.div_eq_of_lt (hS x hx)
        · exact absurd (Nat.mod_self _) hmod
        · rfl
      subst hj
      exact ⟨root, Tree.set_self ..⟩
    · rw [Tree.set_ne _ _ (.inl (by omega)), Tree.set_ne _ _ (.inl (by omega))]
      refine h.exist l j (by omega) ?_
      rcases hneeded with hleaf | hopen | ⟨hl, -⟩
      · exact .inl hleaf
      · exact .inr (.inl hopen)
      · omega
  · rw [Tree.set_ne _ _ (.inl (by omega)), Tree.set_ne _ _ (.inl (by omega))]
    exact h.empty l j (by omega)

theorem addRoot_spec {d : ℕ} (h : TreeOk d (2 ^ d) S S s.tree) (hd : s.treeDepth = d) (hpos : 0 < d)
    (hS : ∀ x ∈ S, x < 2 ^ d) (hnext : ∀ l, 1 ≤ l → l ≤ d → s.nextIndex l = (2 ^ d - 1) / 2 ^ l + 1) :
    ∃ s', s.addRoot = .ok s' ∧ Grown (2 ^ d) S d s' ∧ Frame s s' ∧ s'.treeDepth = d + 1 := by
  obtain ⟨e, rfl⟩ : ∃ e, d = e + 1 := ⟨d - 1, by omega⟩
  obtain ⟨root, hroot⟩ := h.exist e 0 (by omega) (.inr (.inr ⟨rfl, rfl⟩))
  have hok := h.nodes e 0 root (by omega) hroot
  have hlt : (2 : ℕ) ^ (e + 1) < 2 ^ (e + 2) := Nat.pow_lt_pow_right (by omega) (by omega)
  have hsum : root.sumRight + root.sumLeft = count S (e + 1) (2 * 0) := by
    rw [Nat.add_comm, hok.sum]
  have hright : count S (e + 1) (2 * 0 + 1) = 0 := count_eq_zero_of_ge hS (by
    rw [Nat.mul_zero, Nat.zero_add, Nat.one_mul])
  have hdiscard : (root.discardLeft && root.discardRight) = true →
      count S (e + 1) (2 * 0) = 0 ∧ (2 * 0 + 1) * 2 ^ (e + 1) ≤ 2 ^ (e + 1) := fun hd => by
    obtain ⟨hl, hr⟩ := Bool.and_eq_true_iff.1 hd
    exact hok.discarded hl hr
  unfold StackDistCalc.addRoot
  rw [hd, hroot]
  refine ⟨_, rfl, ⟨?_, fun l hl hle => ?_, fun l hel hl => ?_⟩, ⟨rfl, rfl, rfl, rfl, rfl⟩, rfl⟩
  · refine h.addRoot hS ?_ ⟨hsum, hright.symm, hdiscard, fun hd => Bool.noConfusion hd, rfl, ?_, rfl⟩
    · refine ⟨hok.sumLeft, hok.sumRight, hok.discardLeft, hok.discardRight, hok.nodeIndex, ?_, hok.isLeftNode⟩
      rw [if_neg (by omega)]
    · rw [if_pos rfl]
      rfl
  · show Function.update s.nextIndex (e + 2) 1 l = _
    rw [Function.update_of_ne (by omega)]
    exact hnext l hl hle
  · obtain rfl : l = e + 2 := Nat.le_antisymm hl hel
    show Function.update s.nextIndex (e + 2) 1 (e + 2) = _ ∧ _
    rw [Function.update_self, Nat.div_eq_of_lt hlt]
    exact ⟨rfl, _, (Tree.set_ne _ _ (.inl (by omega))).trans (Tree.set_self ..)⟩

/-! ## `updateTree` -/

/-- The size of the tree after the last leaf. -/
structure Shape (s : StackDistCalc) : Prop where
  pos : 0 < s.treeDepth
  room : s.index ≤ 2 ^ s.treeDepth
  small : s.treeDepth = 1 ∨ 2 ^ (s.treeDepth - 1) < s.index
  next : ∀ l, 1 ≤ l → l ≤ s.treeDepth → s.nextIndex l = (s.index - 1) / 2 ^ l + 1

/-- The size of the tree before the next leaf. -/
structure Roomy (N : ℕ) (s : StackDistCalc) : Prop where
  pos : 0 < s.treeDepth
  room : N < 2 ^ s.treeDepth
  small : s.treeDepth = 1 ∨ 2 ^ (s.treeDepth - 1) ≤ N

theorem depth_le {depth : ℕ} (hN : N < 2 ^ 31) (hsmall : depth = 1 ∨ 2 ^ (depth - 1) ≤ N) : depth ≤ 31 := by
  rcases hsmall with hone | hle
  · omega
  · have hlt : depth - 1 < 31 := (Nat.pow_lt_pow_iff_right (by omega)).1 (hle.trans_lt hN)
    omega

/-- The root has room: the topmost layer has its node. -/
theorem Shape.grown (h : Shape s) (ht : TreeOk s.treeDepth s.index S S s.tree)
    (hroom : s.index < 2 ^ s.treeDepth) : Grown s.index S (s.treeDepth - 1) s := by
  refine ⟨ht, fun l hl hle => h.next l hl (by omega), fun l hlt hl => ?_⟩
  obtain rfl : l = s.treeDepth := by omega
  have hpred : (s.index - 1) / 2 ^ s.treeDepth = 0 := Nat.div_eq_of_lt (by omega)
  rw [h.next _ h.pos le_rfl, hpred, Nat.div_eq_of_lt hroom]
  obtain ⟨e, he⟩ : ∃ e, s.treeDepth = e + 1 := ⟨s.treeDepth - 1, by have := h.pos; omega⟩
  refine ⟨rfl, ?_⟩
  have hroot := ht.exist e 0 (by omega) (.inr (.inr ⟨he.symm, rfl⟩))
  rwa [← he] at hroot

/-- A leaf with an odd index finds all nodes above it. -/
theorem Shape.grown_odd (h : Shape s) (ht : TreeOk s.treeDepth s.index S S s.tree)
    (hodd : s.index % 2 = 1) : Grown s.index S 0 s ∧ Roomy s.index s := by
  have hmod : ∀ l, 1 ≤ l → s.index % 2 ^ l ≠ 0 := fun l hl hzero => by
    have hdvd : 2 ∣ s.index := (dvd_pow_self 2 (by omega)).trans (Nat.dvd_of_mod_eq_zero hzero)
    omega
  have hroom : s.index < 2 ^ s.treeDepth := by
    refine lt_of_le_of_ne h.room fun heq => hmod s.treeDepth h.pos ?_
    rw [heq, Nat.mod_self]
  refine ⟨⟨ht, fun l hl hle => by omega, fun l hl hle => ?_⟩, h.pos, hroom,
    h.small.imp_right fun hlt => hlt.le⟩
  rw [h.next l hl hle, pred_div_of_mod_ne (hmod l hl)]
  obtain ⟨k, rfl⟩ : ∃ k, l = k + 1 := ⟨l - 1, by omega⟩
  exact ⟨rfl, ht.exist k _ (by omega) (.inr (.inl ⟨hmod (k + 1) hl, rfl⟩))⟩

/-- **`updateTree`** gives every layer a node for the leaf that comes. -/
theorem updateTree_spec (h : Shape s) (ht : TreeOk s.treeDepth s.index S S s.tree)
    (hS : ∀ x ∈ S, x < s.index) (heven : s.index % 2 = 0) (hindex : s.index < 2 ^ 31) :
    ∃ s', s.updateTree = .ok s' ∧ Grown s.index S 0 s' ∧ Frame s s' ∧ Roomy s.index s' := by
  have hpow := isPowerOf2_iff (n := s.index) (by omega)
  unfold StackDistCalc.updateTree
  by_cases hp : isPowerOf2 s.index = true
  · rw [if_pos hp]
    obtain ⟨k, hk⟩ := hpow.1 hp
    have hkpos : 0 < k := Nat.pos_of_ne_zero fun hzero => by
      rw [hk, hzero] at heven
      omega
    have hdepth : s.treeDepth = k := by
      have hle : k ≤ s.treeDepth := (Nat.pow_le_pow_iff_right (by omega)).1 (hk ▸ h.room)
      rcases h.small with hone | hlt
      · omega
      · have hlt' : s.treeDepth - 1 < k := (Nat.pow_lt_pow_iff_right (by omega)).1 (hk ▸ hlt)
        omega
    rw [hk] at ht hS ⊢
    obtain ⟨s1, hroot, h1, hframe, hdepth1⟩ := addRoot_spec (hdepth ▸ ht) hdepth hkpos hS
      fun l hl hlk => hk ▸ h.next l hl (by omega)
    obtain ⟨s2, hrun, h2, hframe2, hdepth2⟩ := addINodes_spec (fun _ => .ok true)
      (by positivity) hS k h1 (by omega) fun i _ hik => by
        rw [decide_eq_true (Nat.mod_eq_zero_of_dvd (Nat.pow_dvd_pow 2 hik))]
    refine ⟨s2, ?_, h2, hframe.trans hframe2, by omega, ?_, .inr ?_⟩
    · rw [hroot, ← hrun]
      show StackDistCalc.addINodes _ (s1.treeDepth - 1) s1 = _
      rw [hdepth1, Nat.add_sub_cancel]
    · rw [hdepth2, hdepth1]
      exact Nat.pow_lt_pow_right (by omega) (by omega)
    · rw [hdepth2, hdepth1, Nat.add_sub_cancel]
  · rw [if_neg hp]
    have hroom : s.index < 2 ^ s.treeDepth := lt_of_le_of_ne h.room fun heq => hp (hpow.2 ⟨_, heq⟩)
    have hsmall := h.small.imp_right fun hlt => hlt.le
    have hroomy : Roomy s.index s := ⟨h.pos, hroom, hsmall⟩
    have hgrown := h.grown ht hroom
    by_cases hN : s.index = 0
    · -- the first leaf finds the root
      have hone : s.treeDepth - 1 = 0 := by
        rcases h.small with hone | hlt
        · omega
        · exact absurd (hN ▸ hlt) (Nat.not_lt_zero _)
      rw [hone] at hgrown ⊢
      exact ⟨s, rfl, hgrown, .refl s, hroomy⟩
    · have hle := depth_le hindex hsmall
      obtain ⟨s', hrun, h', hframe, hdepth⟩ := addINodes_spec
        (fun i => oneShl i >>= fun period => return s.index % period = 0) (by omega) hS _ hgrown
        (by have := h.pos; omega) fun i _ hik => by
          rw [oneShl_ok (by omega)]
          rfl
      exact ⟨s', hrun, h', hframe, hdepth ▸ h.pos, hdepth ▸ hroom, hdepth ▸ hsmall⟩

/-- The leaf may come: it is among those that are expected. -/
theorem Grown.come (h : Grown N S 0 s) (hroomy : Roomy N s) : TreeOk s.treeDepth (N + 1) S (insert N S) s.tree := by
  have hmay : ∀ {l j : ℕ}, Discarded N S l j → Discarded (N + 1) (insert N S) l j := by
    rintro l j ⟨hzero, hend⟩
    refine ⟨count_eq_zero.2 fun x hx hxj => ?_, by omega⟩
    rcases Finset.mem_insert.1 hx with rfl | hx
    · have hlt : x < (x / 2 ^ l + 1) * 2 ^ l := Nat.lt_mul_of_div_lt (by omega) (by positivity)
      rw [hxj] at hlt
      omega
    · exact count_eq_zero.1 hzero x hx hxj
  refine ⟨fun l j node hl hnode => ?_, fun l j hl hneeded => ?_, h.tree.root, h.tree.empty⟩
  · have hok := h.tree.nodes l j node hl hnode
    exact ⟨hok.sumLeft, hok.sumRight, fun hd => hmay (hok.discardLeft hd),
      fun hd => hmay (hok.discardRight hd), hok.nodeIndex, hok.parent, hok.isLeftNode⟩
  · have hnew : j = N / 2 ^ (l + 1) → ∃ node, s.tree (l + 1) j = some node := fun hj =>
      hj ▸ (h.after (l + 1) (by omega) (by omega)).2
    rcases hneeded with ⟨x, hx, hxj⟩ | ⟨hmod, hj⟩ | ⟨hl, hj⟩
    · rcases Finset.mem_insert.1 hx with rfl | hx
      · exact hnew hxj.symm
      · exact h.tree.exist l j (by omega) (.inl ⟨x, hx, hxj⟩)
    · refine hnew ?_
      rw [← hj, Nat.succ_div, if_neg fun hdvd => hmod (Nat.mod_eq_zero_of_dvd hdvd), Nat.add_zero]
    · exact h.tree.exist l j (by omega) (.inr (.inr ⟨hl, hj⟩))

/-- The size of the tree once the leaf has come. -/
theorem Grown.shape {s' : StackDistCalc} (h : Grown N S 0 s) (hroomy : Roomy N s)
    (hindex : s'.index = N + 1) (hdepth : s'.treeDepth = s.treeDepth)
    (hnext : ∀ l, 1 ≤ l → s'.nextIndex l = s.nextIndex l) : Shape s' := by
  have hroom := hroomy.room
  refine ⟨hdepth ▸ hroomy.pos, ?_, ?_, fun l hl hle => ?_⟩
  · rw [hindex, hdepth]
    omega
  · rw [hindex, hdepth]
    exact hroomy.small.imp_right Nat.lt_succ_of_le
  · rw [hnext l hl, hindex, Nat.add_sub_cancel]
    exact (h.after l (by omega) (by omega)).1

end Alpine.Mem.StackDist
