import Alpine.Sim.EventQueue
import Alpine.Lib.Run
import Mathlib.Data.Fintype.Card

/-!
# The event queue is a sorted list

`Bins` is what the pointers of a queue spell: for each bin its top event and the events below it.
`Rep` is the representation invariant.

* `insert_spec`, `remove_spec` — the two pointer operations: the list is the old one with the event put before the
  first event that is not smaller, or without the event.
-/

namespace Alpine.Sim

variable {n : Nat}

/-! ## What the pointers spell -/

/-- The bins in order: the top event and the events below it. -/
abbrev Bins (n : Nat) := List (Fin n × List (Fin n))

def tops (bins : Bins n) : List (Fin n) := bins.map Prod.fst

def toList (bins : Bins n) : List (Fin n) := bins.flatMap fun b => b.1 :: b.2

@[simp] theorem tops_nil : tops ([] : Bins n) = [] := rfl
@[simp] theorem tops_cons (b : Fin n × List (Fin n)) (bins : Bins n) : tops (b :: bins) = b.1 :: tops bins := rfl
@[simp] theorem tops_append (pre post : Bins n) : tops (pre ++ post) = tops pre ++ tops post :=
  List.map_append
@[simp] theorem toList_nil : toList ([] : Bins n) = [] := rfl
@[simp] theorem toList_cons (b : Fin n × List (Fin n)) (bins : Bins n) :
    toList (b :: bins) = b.1 :: b.2 ++ toList bins := rfl
@[simp] theorem toList_append (pre post : Bins n) : toList (pre ++ post) = toList pre ++ toList post :=
  List.flatMap_append

theorem tops_sublist : ∀ bins : Bins n, (tops bins).Sublist (toList bins)
  | [] => List.Sublist.refl _
  | b :: bins => by
    rw [tops_cons, toList_cons, List.cons_append]
    exact ((tops_sublist bins).trans (List.sublist_append_right _ _)).cons_cons b.1

variable {bins : Bins n} {e : Fin n}

theorem mem_toList : e ∈ toList bins ↔ ∃ b ∈ bins, e ∈ b.1 :: b.2 :=
  List.mem_flatMap

/-- The queue's pointers spell these bins. -/
structure Spells (q : EventQueue n) (bins : Bins n) : Prop where
  byBin : Chain q.nextBin q.head (tops bins) none
  inBin : ∀ b ∈ bins, Chain q.nextInBin (q.nextInBin b.1) b.2 none

variable {q : EventQueue n}

theorem Spells.unique {bins' : Bins n} (h : Spells q bins) (h' : Spells q bins') : bins = bins' := by
  have htops : tops bins = tops bins' := h.byBin.unique h'.byBin
  have hlen : bins.length = bins'.length := by
    have hlen := congrArg List.length htops
    unfold tops at hlen
    rwa [List.length_map, List.length_map] at hlen
  refine List.ext_getElem hlen fun i hi hi' => ?_
  have htop : (bins[i]).1 = (bins'[i]).1 := by
    have hget := congrArg (·[i]?) htops
    simpa [tops, List.getElem?_map, List.getElem?_eq_getElem hi, List.getElem?_eq_getElem hi'] using hget
  have hin := h.inBin _ (List.getElem_mem hi)
  rw [htop] at hin
  exact Prod.ext htop (hin.unique (h'.inBin _ (List.getElem_mem hi')))

/-- Each event stands once, a bin has one key, and keys increase from bin to bin. -/
structure Ordered (q : EventQueue n) (bins : Bins n) : Prop where
  nodup : (toList bins).Nodup
  sameKey : ∀ b ∈ bins, ∀ e ∈ b.2, (q.events e).Eq (q.events b.1)
  increasing : bins.Pairwise fun a b => (q.events a.1).Lt (q.events b.1)

/-- The representation invariant. -/
structure Rep (q : EventQueue n) (bins : Bins n) : Prop extends Spells q bins, Ordered q bins where
  scheduled : ∀ e, (q.events e).scheduled = true ↔ e ∈ toList bins
  future : ∀ e ∈ toList bins, q.curTick ≤ (q.events e).when

/-! ## Fields other than the pointers -/

/-- Everything but the two pointers. -/
def Event.data (ev : Event n) : Nat × Int × Bool × Bool × Bool :=
  (ev.when, ev.priority, ev.scheduled, ev.squashed, ev.isExitEvent)

/-- The queues differ in pointers only. -/
structure SameData (q q' : EventQueue n) : Prop where
  curTick : q'.curTick = q.curTick
  data : ∀ x, (q'.events x).data = (q.events x).data

theorem SameData.refl (q : EventQueue n) : SameData q q := ⟨rfl, fun _ => rfl⟩

variable {q' : EventQueue n}

theorem SameData.trans {q'' : EventQueue n} (h1 : SameData q q') (h2 : SameData q' q'') : SameData q q'' :=
  ⟨h2.curTick.trans h1.curTick, fun x => (h2.data x).trans (h1.data x)⟩

theorem SameData.modify (q : EventQueue n) (e : Fin n) {f : Event n → Event n}
    (hf : ∀ ev, (f ev).data = ev.data) : SameData q (q.modify e f) := by
  refine ⟨rfl, fun x => ?_⟩
  by_cases h : x = e
  · subst h
    rw [EventQueue.modify_same, hf]
  · rw [EventQueue.modify_ne q h]

theorem SameData.when (h : SameData q q') (x : Fin n) :
    (q'.events x).when = (q.events x).when := congrArg Prod.fst (h.data x)

theorem SameData.priority (h : SameData q q') (x : Fin n) :
    (q'.events x).priority = (q.events x).priority := congrArg (·.2.1) (h.data x)

theorem SameData.scheduled (h : SameData q q') (x : Fin n) :
    (q'.events x).scheduled = (q.events x).scheduled := congrArg (·.2.2.1) (h.data x)

/-- The queues have the same keys at the events of the bins. -/
def SameKeys (bins : Bins n) (q q' : EventQueue n) : Prop :=
  ∀ x ∈ toList bins, (q'.events x).when = (q.events x).when ∧ (q'.events x).priority = (q.events x).priority

theorem SameData.sameKeys (h : SameData q q') (bins : Bins n) :
    SameKeys bins q q' := fun x _ => ⟨h.when x, h.priority x⟩

variable {b : Fin n × List (Fin n)}

theorem top_mem (hb : b ∈ bins) : b.1 ∈ toList bins :=
  mem_toList.2 ⟨b, hb, List.mem_cons_self⟩

theorem below_mem (hb : b ∈ bins) (he : e ∈ b.2) : e ∈ toList bins := mem_toList.2 ⟨b, hb, List.mem_cons_of_mem _ he⟩

theorem Ordered.congr (h : Ordered q bins) (hk : SameKeys bins q q') : Ordered q' bins := by
  refine ⟨h.nodup, fun b hb e he => ?_, ?_⟩
  · obtain ⟨h1, h2⟩ := hk e (below_mem hb he)
    obtain ⟨h3, h4⟩ := hk b.1 (top_mem hb)
    have := h.sameKey b hb e he
    unfold Event.Eq at this ⊢
    rw [h1, h2, h3, h4]
    exact this
  · refine h.increasing.imp_of_mem fun {a b} ha hb hlt => ?_
    obtain ⟨h1, h2⟩ := hk a.1 (top_mem ha)
    obtain ⟨h3, h4⟩ := hk b.1 (top_mem hb)
    unfold Event.Lt at hlt ⊢
    rw [h1, h2, h3, h4]
    exact hlt

/-! ## Relinking -/

/-- Write the pointer that leads to the bin after `pre`: the head, or `nextBin` of the last top. -/
def link (q : EventQueue n) (pre : Bins n) (p : Option (Fin n)) : EventQueue n :=
  match pre.getLast? with
  | none => { q with head := p }
  | some b => q.modify b.1 fun ev => { ev with nextBin := p }

theorem link_nil (q : EventQueue n) (p : Option (Fin n)) : link q [] p = { q with head := p } := rfl

theorem link_snoc (q : EventQueue n) (pre : Bins n) (b : Fin n × List (Fin n)) (p : Option (Fin n)) :
    link q (pre ++ [b]) p = q.modify b.1 fun ev => { ev with nextBin := p } := by
  unfold link
  rw [List.getLast?_append]
  rfl

theorem link_sameData (q : EventQueue n) (pre : Bins n) (p : Option (Fin n)) : SameData q (link q pre p) := by
  unfold link
  split
  · exact ⟨rfl, fun _ => rfl⟩
  · exact SameData.modify q _ fun _ => rfl

theorem link_nextInBin (q : EventQueue n) (pre : Bins n) (p : Option (Fin n)) (x : Fin n) :
    (link q pre p).nextInBin x = q.nextInBin x := by
  unfold link
  split
  · rfl
  · rename_i b _
    unfold EventQueue.nextInBin
    by_cases h : x = b.1
    · subst h
      rw [EventQueue.modify_same]
    · rw [EventQueue.modify_ne q h]

variable {pre : Bins n}

theorem link_nextBin (q : EventQueue n) (p : Option (Fin n)) {x : Fin n} (hx : x ∉ tops pre) :
    (link q pre p).nextBin x = q.nextBin x := by
  unfold link
  split
  · rfl
  · rename_i b hb
    have hne : x ≠ b.1 := by
      rintro rfl
      exact hx (List.mem_map.2 ⟨b, List.mem_of_getLast? hb, rfl⟩)
    unfold EventQueue.nextBin
    rw [EventQueue.modify_ne q hne]

theorem link_tops {m : Option (Fin n)} (p : Option (Fin n)) (h : Chain q.nextBin q.head (tops pre) m)
    (hnd : (tops pre).Nodup) : Chain (link q pre p).nextBin (link q pre p).head (tops pre) p := by
  rcases List.eq_nil_or_concat' pre with rfl | ⟨pre, b, rfl⟩
  · rfl
  · rw [link_snoc, EventQueue.modify_head]
    rw [tops_append] at h hnd ⊢
    refine h.relink (fun a ha => ?_) ?_
    · have hne : a ≠ b.1 := by
        rintro rfl
        exact (List.nodup_append.1 hnd).2.2 b.1 ha b.1 (by simp) rfl
      unfold EventQueue.nextBin
      rw [EventQueue.modify_ne q hne]
    · unfold EventQueue.nextBin
      rw [EventQueue.modify_same]

variable {post : Bins n}

/-- Replacing the bins behind `pre`: they are spelt from `p`, and the pointers of `pre` are as in
`q`. -/
theorem Spells.relink {post' : Bins n} {p : Option (Fin n)} (h : Spells q (pre ++ post))
    (hnd : (tops (pre ++ post')).Nodup) (hhead : q'.head = q.head) (hbin : ∀ x ∈ tops pre, q'.nextBin x = q.nextBin x)
    (hin : ∀ x ∈ toList pre, q'.nextInBin x = q.nextInBin x) (htops : Chain q'.nextBin p (tops post') none)
    (hpost : ∀ b ∈ post', Chain q'.nextInBin (q'.nextInBin b.1) b.2 none) :
    Spells (link q' pre p) (pre ++ post') := by
  rw [tops_append] at hnd
  obtain ⟨hndpre, -, hdisj⟩ := List.nodup_append.1 hnd
  have hnext : (link q' pre p).nextInBin = q'.nextInBin := funext (link_nextInBin q' pre p)
  refine ⟨?_, fun b hb => ?_⟩
  · have htopspre := h.byBin
    rw [tops_append] at htopspre ⊢
    obtain ⟨m, hpre, -⟩ := chain_append.1 htopspre
    rw [← hhead] at hpre
    refine chain_append.2 ⟨p, link_tops p (hpre.congr hbin) hndpre, htops.congr fun x hx => ?_⟩
    exact link_nextBin q' p fun hx' => hdisj x hx' x hx rfl
  · rw [hnext]
    rcases List.mem_append.1 hb with hb | hb
    · rw [hin b.1 (top_mem hb)]
      exact (h.inBin b (List.mem_append_left _ hb)).congr fun x hx => hin x (below_mem hb hx)
    · exact hpost b hb

/-! ## Finding the bin -/

theorem Spells.head_eq (h : Spells q bins) : q.head = (tops bins).head? := h.byBin.head_eq

/-- The search over the bins stops between the bins before the event and the others. -/
theorem findBin_eq (h : Spells q (b :: pre ++ post)) (hnd : (toList (b :: pre ++ post)).Nodup)
    (hpre : ∀ a ∈ pre, (q.events a.1).Lt (q.events e)) (hpost : ∀ a ∈ post.head?, ¬ (q.events a.1).Lt (q.events e)) :
    ∃ last, (b :: pre).getLast? = some last ∧ findBin q e b.1 = some (last.1, (tops post).head?) := by
  have hchain : Chain q.nextBin (q.nextBin b.1) (tops pre ++ tops post) none := by
    have := h.byBin
    rw [List.cons_append, tops_cons, tops_append] at this
    exact this.2
  have hlen : (tops pre ++ tops post).length < n + 1 := by
    have hsub := (tops_sublist (b :: pre ++ post)).nodup hnd
    rw [List.cons_append, tops_cons, tops_append] at hsub
    have := (List.nodup_cons.1 hsub).2.length_le_card
    rw [Fintype.card_fin] at this
    omega
  have htake : (tops pre ++ tops post).takeWhile (fun curr => (q.events curr).Lt (q.events e)) =
      tops pre ∧
      (tops pre ++ tops post).dropWhile (fun curr => (q.events curr).Lt (q.events e)) = tops post := by
    have hall : ∀ x ∈ tops pre, decide ((q.events x).Lt (q.events e)) = true := by
      intro x hx
      obtain ⟨a, ha, rfl⟩ := List.mem_map.1 hx
      exact decide_eq_true (hpre a ha)
    rw [List.takeWhile_append_of_pos hall, List.dropWhile_append_of_pos hall]
    cases post with
    | nil => exact ⟨by simp, rfl⟩
    | cons c post =>
      have hc : ¬ (q.events c.1).Lt (q.events e) := hpost c rfl
      simp only [tops_cons, List.takeWhile_cons, List.dropWhile_cons, decide_eq_false hc,
        Bool.false_eq_true, if_false, List.append_nil, and_self]
  obtain ⟨last, hlast, hscan⟩ := scan_eq (fun curr => decide ((q.events curr).Lt (q.events e)))
    b.1 hchain hlen
  rw [htake.1, ← tops_cons] at hlast
  rw [htake.2] at hscan
  unfold tops at hlast
  rw [List.getLast?_map] at hlast
  obtain ⟨c, hc, rfl⟩ := Option.map_eq_some_iff.1 hlast
  exact ⟨c, hc, hscan⟩

/-! ## Insertion -/

/-- The bins from the event on: a new bin in front, or the event on top of the first bin. -/
def pushBin (q : EventQueue n) (e : Fin n) : Bins n → Bins n
  | [] => [(e, [])]
  | b :: post => if (q.events e).Lt (q.events b.1) then (e, []) :: b :: post else (e, b.1 :: b.2) :: post

theorem pushBin_cons (q : EventQueue n) (e : Fin n) (b : Fin n × List (Fin n)) (post : Bins n) :
    pushBin q e (b :: post) =
      if (q.events e).Lt (q.events b.1) then (e, []) :: b :: post else (e, b.1 :: b.2) :: post := rfl

theorem toList_pushBin (q : EventQueue n) (e : Fin n) (post : Bins n) :
    toList (pushBin q e post) = e :: toList post := by
  cases post with
  | nil => rfl
  | cons b post =>
    rw [pushBin_cons]
    split
    · rfl
    · rfl

theorem insertBefore_lt (q : EventQueue n) {c : Fin n} (h : (q.events e).Lt (q.events c)) :
    insertBefore q e (some c) = q.modify e fun ev => { ev with nextBin := some c, nextInBin := none } := if_pos h

theorem insertBefore_not_lt (q : EventQueue n) {c : Fin n} (h : ¬ (q.events e).Lt (q.events c)) :
    insertBefore q e (some c) =
      q.modify e fun ev => { ev with nextBin := q.nextBin c, nextInBin := some c } := if_neg h

theorem insertBefore_ne (q : EventQueue n) {x : Fin n} (c : Option (Fin n)) (h : x ≠ e) :
    (insertBefore q e c).events x = q.events x := by
  unfold insertBefore
  split
  · exact EventQueue.modify_ne q h _
  · split
    · exact EventQueue.modify_ne q h _
    · exact EventQueue.modify_ne q h _

theorem insertBefore_head (q : EventQueue n) (e : Fin n) (c : Option (Fin n)) :
    (insertBefore q e c).head = q.head := by
  unfold insertBefore
  split
  · rfl
  · split
    · rfl
    · rfl

theorem insertBefore_sameData (q : EventQueue n) (e : Fin n) (c : Option (Fin n)) :
    SameData q (insertBefore q e c) := by
  unfold insertBefore
  split
  · exact SameData.modify q _ fun _ => rfl
  · split
    · exact SameData.modify q _ fun _ => rfl
    · exact SameData.modify q _ fun _ => rfl

theorem insertBefore_spells {p : Option (Fin n)} (he : e ∉ toList post) (hchain : Chain q.nextBin p (tops post) none)
    (hin : ∀ b ∈ post, Chain q.nextInBin (q.nextInBin b.1) b.2 none) :
    Chain (insertBefore q e (tops post).head?).nextBin (some e) (tops (pushBin q e post)) none ∧
      ∀ b ∈ pushBin q e post, Chain (insertBefore q e (tops post).head?).nextInBin
        ((insertBefore q e (tops post).head?).nextInBin b.1) b.2 none := by
  have hne : ∀ x ∈ toList post, (insertBefore q e (tops post).head?).events x = q.events x :=
    fun x hx => insertBefore_ne q _ fun h => he (h ▸ hx)
  have hbin : ∀ x ∈ toList post, (insertBefore q e (tops post).head?).nextBin x = q.nextBin x :=
    fun x hx => congrArg Event.nextBin (hne x hx)
  have hinbin : ∀ x ∈ toList post, (insertBefore q e (tops post).head?).nextInBin x = q.nextInBin x :=
    fun x hx => congrArg Event.nextInBin (hne x hx)
  have hold : ∀ b ∈ post, Chain (insertBefore q e (tops post).head?).nextInBin
      ((insertBefore q e (tops post).head?).nextInBin b.1) b.2 none := by
    intro b hb
    rw [hinbin b.1 (top_mem hb)]
    exact (hin b hb).congr fun x hx => hinbin x (below_mem hb hx)
  have htops : ∀ x ∈ tops post, x ∈ toList post := fun x hx => (tops_sublist post).subset hx
  cases post with
  | nil =>
    have hev : (insertBefore q e none).events e =
        { q.events e with nextBin := none, nextInBin := none } := by
      unfold insertBefore
      rw [EventQueue.modify_same]
    refine ⟨⟨rfl, congrArg Event.nextBin hev⟩, fun b hb => ?_⟩
    rw [List.mem_singleton.1 hb]
    exact congrArg Event.nextInBin hev
  | cons c post =>
    rw [tops_cons] at hchain
    obtain ⟨rfl, hrest⟩ := hchain
    rw [show (tops (c :: post)).head? = some c.1 from rfl] at hbin hold ⊢
    by_cases hlt : (q.events e).Lt (q.events c.1)
    · have hev : (insertBefore q e (some c.1)).events e =
          { q.events e with nextBin := some c.1, nextInBin := none } := by
        rw [insertBefore_lt q hlt, EventQueue.modify_same]
      have hpush : pushBin q e (c :: post) = (e, []) :: c :: post := if_pos hlt
      rw [hpush]
      refine ⟨⟨rfl, congrArg Event.nextBin hev, ?_⟩, fun b hb => ?_⟩
      · rw [hbin c.1 (htops c.1 List.mem_cons_self)]
        exact hrest.congr fun x hx => hbin x (htops x (List.mem_cons_of_mem _ hx))
      · rcases List.mem_cons.1 hb with rfl | hb
        · exact congrArg Event.nextInBin hev
        · exact hold b hb
    · have hev : (insertBefore q e (some c.1)).events e =
          { q.events e with nextBin := q.nextBin c.1, nextInBin := some c.1 } := by
        rw [insertBefore_not_lt q hlt, EventQueue.modify_same]
      have hpush : pushBin q e (c :: post) = (e, c.1 :: c.2) :: post := if_neg hlt
      rw [hpush]
      refine ⟨⟨rfl, ?_⟩, fun b hb => ?_⟩
      · have hnext : (insertBefore q e (some c.1)).nextBin e = q.nextBin c.1 := by
          unfold EventQueue.nextBin
          rw [hev]
          rfl
        rw [hnext]
        exact hrest.congr fun x hx => hbin x (htops x (List.mem_cons_of_mem _ hx))
      · rcases List.mem_cons.1 hb with rfl | hb
        · exact ⟨congrArg Event.nextInBin hev, hold c List.mem_cons_self⟩
        · exact hold b (List.mem_cons_of_mem _ hb)

/-- `insert` writes the event's pointers and the one pointer that leads to it. -/
theorem insert_eq (h : Spells q (pre ++ post)) (hnd : (toList (pre ++ post)).Nodup)
    (hpre : ∀ a ∈ pre, (q.events a.1).Lt (q.events e)) (hpost : ∀ a ∈ post.head?, ¬ (q.events a.1).Lt (q.events e)) :
    insert q e = .ok (link (insertBefore q e (tops post).head?) pre (some e)) := by
  have hhead := h.head_eq
  unfold insert
  cases pre with
  | nil =>
    rw [List.nil_append] at hhead
    rw [hhead, link_nil]
    cases post with
    | nil => rfl
    | cons c post =>
      show (if (q.events e).Le (q.events c.1) then _ else _) = _
      rw [if_pos (Event.le_iff.2 (hpost c rfl))]
      rfl
  | cons b pre =>
    have hb : (q.events b.1).Lt (q.events e) := hpre b List.mem_cons_self
    obtain ⟨last, hlast, hfind⟩ := findBin_eq h hnd
      (fun a ha => hpre a (List.mem_cons_of_mem _ ha)) hpost
    rw [hhead]
    show (if (q.events e).Le (q.events b.1) then _ else _) = _
    rw [if_neg (fun hle => Event.le_iff.1 hle hb), hfind]
    unfold link
    rw [hlast]

theorem pushBin_sameKey (h : ∀ b ∈ post, ∀ x ∈ b.2, (q.events x).Eq (q.events b.1))
    (hpost : ∀ a ∈ post.head?, ¬ (q.events a.1).Lt (q.events e)) :
    ∀ b ∈ pushBin q e post, ∀ x ∈ b.2, (q.events x).Eq (q.events b.1) := by
  intro b hb x hx
  cases post with
  | nil =>
    rw [List.mem_singleton.1 hb] at hx
    cases hx
  | cons c post =>
    rw [pushBin_cons] at hb
    split at hb
    · rcases List.mem_cons.1 hb with rfl | hb
      · cases hx
      · exact h b hb x hx
    · rename_i hlt
      rcases List.mem_cons.1 hb with rfl | hb
      · have hce : (q.events c.1).Eq (q.events e) := by
          rcases Event.not_lt_iff.1 hlt with h | h
          · exact absurd h (hpost c rfl)
          · exact h
        rcases List.mem_cons.1 hx with rfl | hx
        · exact hce
        · exact (h c List.mem_cons_self x hx).trans hce
      · exact h b (List.mem_cons_of_mem _ hb) x hx

theorem pushBin_increasing (h : post.Pairwise fun a b => (q.events a.1).Lt (q.events b.1))
    (hpost : ∀ a ∈ post.head?, ¬ (q.events a.1).Lt (q.events e)) :
    (pushBin q e post).Pairwise fun a b => (q.events a.1).Lt (q.events b.1) := by
  cases post with
  | nil => exact List.pairwise_singleton _ _
  | cons c post =>
    have hc := (List.pairwise_cons.1 h).1
    rw [pushBin_cons]
    split
    · rename_i hlt
      refine List.pairwise_cons.2 ⟨fun b hb => ?_, h⟩
      rcases List.mem_cons.1 hb with rfl | hb
      · exact hlt
      · exact hlt.trans (hc b hb)
    · rename_i hlt
      refine List.pairwise_cons.2 ⟨fun b hb => ?_, (List.pairwise_cons.1 h).2⟩
      rcases Event.not_lt_iff.1 hlt with h' | h'
      · exact absurd h' (hpost c rfl)
      · exact h'.symm.lt (hc b hb)

/-- The tops of the new bins are the event and old tops. -/
theorem pushBin_top (hb : b ∈ pushBin q e post) : b.1 = e ∨ b ∈ post := by
  cases post with
  | nil => exact Or.inl (congrArg Prod.fst (List.mem_singleton.1 hb))
  | cons c post =>
    rw [pushBin_cons] at hb
    split at hb
    · rcases List.mem_cons.1 hb with rfl | hb
      · exact Or.inl rfl
      · exact Or.inr hb
    · rcases List.mem_cons.1 hb with rfl | hb
      · exact Or.inl rfl
      · exact Or.inr (List.mem_cons_of_mem _ hb)

theorem Ordered.push (h : Ordered q (pre ++ post)) (he : e ∉ toList (pre ++ post))
    (hpre : ∀ a ∈ pre, (q.events a.1).Lt (q.events e))
    (hpost : ∀ a ∈ post.head?, ¬ (q.events a.1).Lt (q.events e)) : Ordered q (pre ++ pushBin q e post) := by
  obtain ⟨hincpre, hincpost, hcross⟩ := List.pairwise_append.1 h.increasing
  refine ⟨?_, fun b hb => ?_, ?_⟩
  · rw [toList_append, toList_pushBin, List.nodup_middle, ← toList_append]
    exact List.nodup_cons.2 ⟨he, h.nodup⟩
  · rcases List.mem_append.1 hb with hb | hb
    · exact h.sameKey b (List.mem_append_left _ hb)
    · exact pushBin_sameKey (fun b hb => h.sameKey b (List.mem_append_right _ hb)) hpost b hb
  · refine List.pairwise_append.2 ⟨hincpre, pushBin_increasing hincpost hpost, fun a ha b hb => ?_⟩
    rcases pushBin_top hb with hb | hb
    · rw [hb]
      exact hpre a ha
    · exact hcross a ha b hb

/-- The bins before the event and the others. -/
theorem exists_split (h : Ordered q bins) (e : Fin n) :
    ∃ pre post, bins = pre ++ post ∧ (∀ a ∈ pre, (q.events a.1).Lt (q.events e)) ∧
      ∀ a ∈ post, ¬ (q.events a.1).Lt (q.events e) := by
  have hinc := h.increasing
  clear h
  induction bins with
  | nil => exact ⟨[], [], rfl, fun a ha => absurd ha List.not_mem_nil, fun a ha => absurd ha List.not_mem_nil⟩
  | cons b bins ih =>
    obtain ⟨hb, hinc⟩ := List.pairwise_cons.1 hinc
    by_cases hlt : (q.events b.1).Lt (q.events e)
    · obtain ⟨pre, post, rfl, hpre, hpost⟩ := ih hinc
      refine ⟨b :: pre, post, rfl, fun a ha => ?_, hpost⟩
      rcases List.mem_cons.1 ha with rfl | ha
      · exact hlt
      · exact hpre a ha
    · refine ⟨[], b :: bins, rfl, fun a ha => absurd ha List.not_mem_nil, fun a ha hlt' => ?_⟩
      rcases List.mem_cons.1 ha with rfl | ha
      · exact hlt hlt'
      · exact hlt ((hb a ha).trans hlt')

theorem insert_spec (hs : Spells q bins) (ho : Ordered q bins) (he : e ∉ toList bins) :
    ∃ q' pre post, insert q e = .ok q' ∧ bins = pre ++ post ∧ SameData q q' ∧
      (∀ a ∈ pre, (q.events a.1).Lt (q.events e)) ∧ (∀ a ∈ post, ¬ (q.events a.1).Lt (q.events e)) ∧
      Spells q' (pre ++ pushBin q e post) ∧ Ordered q' (pre ++ pushBin q e post) := by
  obtain ⟨pre, post, rfl, hpre, hpost⟩ := exists_split ho e
  have hhead : ∀ a ∈ post.head?, ¬ (q.events a.1).Lt (q.events e) :=
    fun a ha => hpost a (List.mem_of_head? ha)
  have hord := ho.push he hpre hhead
  have hdata := (insertBefore_sameData q e (tops post).head?).trans
    (link_sameData (insertBefore q e (tops post).head?) pre (some e))
  have hepre : ∀ x ∈ toList pre, x ≠ e := by
    rintro x hx rfl
    exact he (by rw [toList_append]; exact List.mem_append_left _ hx)
  have hepost : e ∉ toList post := fun h => he (by rw [toList_append]; exact List.mem_append_right _ h)
  have hchain := hs.byBin
  rw [tops_append] at hchain
  obtain ⟨m, -, hchainpost⟩ := chain_append.1 hchain
  obtain ⟨htops, hin⟩ := insertBefore_spells hepost hchainpost
    fun b hb => hs.inBin b (List.mem_append_right _ hb)
  refine ⟨_, pre, post, insert_eq hs ho.nodup hpre hhead, rfl, hdata, hpre, hpost, ?_,
    hord.congr (hdata.sameKeys _)⟩
  refine hs.relink ((tops_sublist _).nodup hord.nodup) (insertBefore_head q e _) (fun x hx => ?_)
    (fun x hx => ?_) htops hin
  · exact congrArg Event.nextBin (insertBefore_ne q _ (hepre x ((tops_sublist pre).subset hx)))
  · exact congrArg Event.nextInBin (insertBefore_ne q _ (hepre x hx))

/-! ## Removal -/

/-- The bin of an event, and the keys around it. -/
theorem exists_bin (h : Ordered q bins) (he : e ∈ toList bins) :
    ∃ pre c cs post, bins = pre ++ (c, cs) :: post ∧ e ∈ c :: cs ∧
      (q.events c).Eq (q.events e) ∧ ∀ a ∈ pre, (q.events a.1).Lt (q.events e) := by
  obtain ⟨⟨c, cs⟩, hb, hin⟩ := mem_toList.1 he
  obtain ⟨pre, post, rfl⟩ := List.append_of_mem hb
  have hkey : (q.events c).Eq (q.events e) := by
    rcases List.mem_cons.1 hin with rfl | hin
    · exact ⟨rfl, rfl⟩
    · exact (h.sameKey (c, cs) hb e hin).symm
  refine ⟨pre, c, cs, post, rfl, hin, hkey, fun a ha => ?_⟩
  exact ((List.pairwise_append.1 h.increasing).2.2 a ha (c, cs) List.mem_cons_self).of_eq hkey

theorem remove_eq {c : Fin n} {cs : List (Fin n)} (h : Spells q (pre ++ (c, cs) :: post))
    (hnd : (toList (pre ++ (c, cs) :: post)).Nodup) (hkey : (q.events c).Eq (q.events e))
    (hpre : ∀ a ∈ pre, (q.events a.1).Lt (q.events e)) :
    remove q e = (removeItem q e c).map fun r => link r.1 pre r.2 := by
  have hhead := h.head_eq
  unfold remove
  cases pre with
  | nil =>
    rw [hhead]
    show (if (q.events c).Eq (q.events e) then _ else _) = _
    rw [if_pos hkey]
    rfl
  | cons b pre =>
    have hb : (q.events b.1).Lt (q.events e) := hpre b List.mem_cons_self
    obtain ⟨last, hlast, hfind⟩ := findBin_eq h hnd
      (fun a ha => hpre a (List.mem_cons_of_mem _ ha)) (e := e) (fun a ha => by
        cases ha
        exact fun hlt => hlt.not_eq hkey)
    rw [hhead]
    show (if (q.events b.1).Eq (q.events e) then _ else _) = _
    rw [if_neg hb.not_eq, hfind]
    show (if ¬ (q.events c).Eq (q.events e) then _ else _) = _
    rw [if_neg (fun hne => hne hkey)]
    congr 1
    funext r
    unfold link
    rw [hlast]

theorem Ordered.shrink {c d : Fin n} {cs ds : List (Fin n)} (h : Ordered q (pre ++ (c, cs) :: post))
    (hsub : (d :: ds).Sublist (c :: cs)) : Ordered q (pre ++ (d, ds) :: post) := by
  have hkey : ∀ x ∈ c :: cs, (q.events x).Eq (q.events c) := by
    intro x hx
    rcases List.mem_cons.1 hx with rfl | hx
    · exact ⟨rfl, rfl⟩
    · exact h.sameKey (c, cs) (List.mem_append_right _ List.mem_cons_self) x hx
  have hd := hkey d (hsub.subset List.mem_cons_self)
  obtain ⟨hincpre, hincpost, hcross⟩ := List.pairwise_append.1 h.increasing
  obtain ⟨hc, hincpost⟩ := List.pairwise_cons.1 hincpost
  refine ⟨?_, fun b hb => ?_, ?_⟩
  · refine List.Nodup.sublist ?_ h.nodup
    rw [toList_append, toList_append, toList_cons, toList_cons]
    exact (hsub.append_right _).append_left _
  · rcases List.mem_append.1 hb with hb | hb
    · exact h.sameKey b (List.mem_append_left _ hb)
    · rcases List.mem_cons.1 hb with rfl | hb
      · exact fun x hx => (hkey x (hsub.subset (List.mem_cons_of_mem _ hx))).trans hd.symm
      · exact h.sameKey b (List.mem_append_right _ (List.mem_cons_of_mem _ hb))
  · refine List.pairwise_append.2 ⟨hincpre, List.pairwise_cons.2 ⟨fun b hb => hd.lt (hc b hb), hincpost⟩,
      fun a ha b hb => ?_⟩
    rcases List.mem_cons.1 hb with rfl | hb
    · exact (hcross a ha (c, cs) List.mem_cons_self).of_eq hd.symm
    · exact hcross a ha b (List.mem_cons_of_mem _ hb)

theorem Ordered.drop (pre : Bins n) (h : Ordered q (pre ++ b :: post)) : Ordered q (pre ++ post) := by
  have hsub : (pre ++ post).Sublist (pre ++ b :: post) := (List.sublist_cons_self b post).append_left pre
  refine ⟨?_, fun a ha => h.sameKey a (hsub.subset ha), h.increasing.sublist hsub⟩
  refine List.Nodup.sublist ?_ h.nodup
  rw [toList_append, toList_append, toList_cons]
  exact (List.sublist_append_right _ _).append_left _

/-- A queue whose bins are those of `q` except that one bin has lost an event. -/
structure Removed (q q' : EventQueue n) (pre post : Bins n) (c : Fin n) (cs : List (Fin n)) (e : Fin n)
    (mid : Bins n) : Prop where
  data : SameData q q'
  spells : Spells q' (pre ++ mid ++ post)
  ordered : Ordered q (pre ++ mid ++ post)
  mid : toList mid = (c :: cs).erase e

section Remove

variable {q : EventQueue n} {pre post : Bins n} {c e : Fin n} {cs : List (Fin n)}

theorem Spells.chain_post (h : Spells q (pre ++ (c, cs) :: post)) :
    Chain q.nextBin (q.nextBin c) (tops post) none := by
  have := h.byBin
  rw [tops_append] at this
  obtain ⟨m, -, hm⟩ := chain_append.1 this
  exact hm.2

theorem removeItem_single (h : Spells q (pre ++ (c, []) :: post)) (ho : Ordered q (pre ++ (c, []) :: post)) :
    ∃ r, removeItem q c c = .ok r ∧ Removed q (link r.1 pre r.2) pre post c [] c [] := by
  have hnil : q.nextInBin c = none :=
    h.inBin (c, []) (List.mem_append_right _ List.mem_cons_self)
  refine ⟨(q, q.nextBin c), ?_, link_sameData q pre _, ?_, ?_, ?_⟩
  · unfold removeItem
    rw [if_pos rfl, hnil]
  · rw [List.append_nil]
    exact h.relink ((tops_sublist _).nodup (ho.drop pre).nodup) rfl (fun _ _ => rfl) (fun _ _ => rfl)
      h.chain_post fun b hb => h.inBin b (List.mem_append_right _ (List.mem_cons_of_mem _ hb))
  · rw [List.append_nil]
    exact ho.drop pre
  · simp

variable (pre) in
theorem removeItem_top {d : Fin n} {ds : List (Fin n)} (h : Spells q (pre ++ (c, d :: ds) :: post))
    (ho : Ordered q (pre ++ (c, d :: ds) :: post)) : ∃ r, removeItem q c c = .ok r ∧
      Removed q (link r.1 pre r.2) pre post c (d :: ds) c [(d, ds)] := by
  have hbin := h.inBin (c, d :: ds) (List.mem_append_right _ List.mem_cons_self)
  obtain ⟨hcd, hds⟩ := hbin
  have hord : Ordered q (pre ++ (d, ds) :: post) := ho.shrink (List.sublist_cons_self _ _)
  have hnd := hord.nodup
  rw [toList_append, toList_cons, List.cons_append] at hnd
  obtain ⟨-, hnd, hdpre⟩ := List.nodup_append.1 hnd
  have hdrest : d ∉ ds ++ toList post := (List.nodup_cons.1 hnd).1
  have hne : ∀ x, x ≠ d → (q.modify d fun ev => { ev with nextBin := q.nextBin c }).nextBin x =
      q.nextBin x := fun x hx => congrArg Event.nextBin (EventQueue.modify_ne q hx _)
  have hin : ∀ x, (q.modify d fun ev => { ev with nextBin := q.nextBin c }).nextInBin x =
      q.nextInBin x := by
    intro x
    unfold EventQueue.nextInBin
    by_cases hx : x = d
    · subst hx
      rw [EventQueue.modify_same]
    · rw [EventQueue.modify_ne q hx]
  have hd : (q.modify d fun ev => { ev with nextBin := q.nextBin c }).nextBin d = q.nextBin c := by
    unfold EventQueue.nextBin
    rw [EventQueue.modify_same]
  have hchain : ∀ b ∈ post, Chain q.nextInBin (q.nextInBin b.1) b.2 none :=
    fun b hb => h.inBin b (List.mem_append_right _ (List.mem_cons_of_mem _ hb))
  have hdata : SameData q (q.modify d fun ev => { ev with nextBin := q.nextBin c }) :=
    SameData.modify q d fun _ => rfl
  refine ⟨(q.modify d fun ev => { ev with nextBin := q.nextBin c }, some d), ?_,
    hdata.trans (link_sameData _ pre _), ?_, ?_, ?_⟩
  · unfold removeItem
    rw [if_pos rfl]
    rw [show q.nextInBin c = some d from hcd]
  · rw [List.append_assoc]
    refine h.relink ((tops_sublist _).nodup hord.nodup) rfl (fun x hx => hne x ?_) (fun x _ => hin x)
      ⟨rfl, ?_⟩ fun b hb => ?_
    · rintro rfl
      exact hdpre x ((tops_sublist pre).subset hx) x List.mem_cons_self rfl
    · rw [hd]
      refine h.chain_post.congr fun x hx => hne x ?_
      rintro rfl
      exact hdrest (List.mem_append_right _ ((tops_sublist post).subset hx))
    · rw [funext hin]
      rcases List.mem_cons.1 hb with rfl | hb
      · exact hds
      · exact hchain b hb
  · rw [List.append_assoc]
    exact hord
  · simp

/-- The search for an event passes what stands before it. -/
theorem takeWhile_ne {as : List (Fin n)} (heas : e ∉ as) (bs : List (Fin n)) :
    (as ++ e :: bs).takeWhile (fun next => decide (e ≠ next)) = as ∧
      (as ++ e :: bs).dropWhile (fun next => decide (e ≠ next)) = e :: bs := by
  have hall : ∀ x ∈ as, decide (e ≠ x) = true := by
    intro x hx
    exact decide_eq_true fun hex => heas (hex ▸ hx)
  rw [List.takeWhile_append_of_pos hall, List.dropWhile_append_of_pos hall]
  simp

/-- An event below the top: its predecessor in the bin skips it. -/
theorem removeItem_below {as bs : List (Fin n)} (h : Spells q (pre ++ (c, as ++ e :: bs) :: post))
    (ho : Ordered q (pre ++ (c, as ++ e :: bs) :: post)) (hec : e ≠ c) : ∃ r, removeItem q e c = .ok r ∧
      Removed q (link r.1 pre r.2) pre post c (as ++ e :: bs) e [(c, as ++ bs)] := by
  have hbin : Chain q.nextInBin (q.nextInBin c) (as ++ e :: bs) none :=
    h.inBin (c, as ++ e :: bs) (List.mem_append_right _ List.mem_cons_self)
  have hsub : (c :: (as ++ bs)).Sublist (c :: (as ++ e :: bs)) :=
    ((List.sublist_cons_self e bs).append_left as).cons_cons c
  have hord : Ordered q (pre ++ (c, as ++ bs) :: post) := ho.shrink hsub
  -- no event twice, within the bin and across bins
  have hnd := ho.nodup
  rw [toList_append, toList_cons] at hnd
  obtain ⟨-, hndmid, hdisjpre⟩ := List.nodup_append.1 hnd
  obtain ⟨hndbin, -, hdisjpost⟩ := List.nodup_append.1 hndmid
  have hndas : (c :: as ++ e :: bs).Nodup := hndbin
  obtain ⟨-, -, hdisj⟩ := List.nodup_append.1 hndas
  have heas : e ∉ as := fun he => hdisj e (List.mem_cons_of_mem _ he) e List.mem_cons_self rfl
  have hlen : (as ++ e :: bs).length < n + 1 := by
    have : (as ++ e :: bs).length ≤ Fintype.card (Fin n) := (List.nodup_cons.1 hndbin).2.length_le_card
    rw [Fintype.card_fin] at this
    omega
  obtain ⟨htake, hdrop⟩ := takeWhile_ne heas bs
  obtain ⟨last, hlast, hscan⟩ := scan_eq (fun next => decide (e ≠ next)) c hbin hlen
  rw [htake] at hlast
  rw [hdrop] at hscan
  have hlastmem : last ∈ c :: as := List.mem_of_getLast? hlast
  have hne : ∀ x, x ≠ last →
      (q.modify last fun ev => { ev with nextInBin := q.nextInBin e }).nextInBin x = q.nextInBin x :=
    fun x hx => congrArg Event.nextInBin (EventQueue.modify_ne q hx _)
  have hbinEq : ∀ x,
      (q.modify last fun ev => { ev with nextInBin := q.nextInBin e }).nextBin x = q.nextBin x := by
    intro x
    unfold EventQueue.nextBin
    by_cases hx : x = last
    · subst hx
      rw [EventQueue.modify_same]
    · rw [EventQueue.modify_ne q hx]
  have hlastEq : (q.modify last fun ev => { ev with nextInBin := q.nextInBin e }).nextInBin last =
      q.nextInBin e := by
    unfold EventQueue.nextInBin
    rw [EventQueue.modify_same]
  have hnotlast : ∀ x, x ∈ toList pre ∨ x ∈ toList post ∨ x ∈ bs → x ≠ last := by
    rintro x hx rfl
    have hmem : x ∈ c :: (as ++ e :: bs) := by
      rcases List.mem_cons.1 hlastmem with rfl | hlastmem
      · exact List.mem_cons_self
      · exact List.mem_cons_of_mem _ (List.mem_append_left _ hlastmem)
    rcases hx with hx | hx | hx
    · exact hdisjpre x hx x (List.mem_append_left _ hmem) rfl
    · exact hdisjpost x hmem x hx rfl
    · exact hdisj x hlastmem x (List.mem_cons_of_mem _ hx) rfl
  -- the bin, read as a chain from its top
  have hchain : Chain (q.modify last fun ev => { ev with nextInBin := q.nextInBin e }).nextInBin
      (some c) (c :: (as ++ bs)) none := by
    have hold : Chain q.nextInBin (some c) ((c :: as) ++ e :: bs) none := ⟨rfl, hbin⟩
    exact hold.skip hlast (hsub.nodup hndbin) hne hlastEq
  have hdata : SameData q (q.modify last fun ev => { ev with nextInBin := q.nextInBin e }) :=
    SameData.modify q last fun _ => rfl
  refine ⟨(q.modify last fun ev => { ev with nextInBin := q.nextInBin e }, some c), ?_,
    hdata.trans (link_sameData _ pre _), ?_, ?_, ?_⟩
  · unfold removeItem
    rw [if_neg hec, hscan]
    rfl
  · rw [List.append_assoc]
    refine h.relink ((tops_sublist _).nodup hord.nodup) rfl (fun x _ => hbinEq x)
      (fun x hx => hne x (hnotlast x (by simp [hx]))) ⟨rfl, ?_⟩ fun b hb => ?_
    · rw [hbinEq]
      exact h.chain_post.congr fun x _ => hbinEq x
    · rcases List.mem_cons.1 hb with rfl | hb
      · exact hchain.2
      · have hb' := h.inBin b (List.mem_append_right _ (List.mem_cons_of_mem _ hb))
        rw [hne b.1 (hnotlast _ (Or.inr (Or.inl (top_mem hb))))]
        exact hb'.congr fun x hx => hne x (hnotlast x (Or.inr (Or.inl (below_mem hb hx))))
  · rw [List.append_assoc]
    exact hord
  · rw [List.erase_cons_tail (by simpa using Ne.symm hec), List.erase_append_right _ heas]
    simp

theorem remove_spec (hs : Spells q bins) (ho : Ordered q bins) (he : e ∈ toList bins) :
    ∃ q' bins', remove q e = .ok q' ∧ SameData q q' ∧ Spells q' bins' ∧ Ordered q' bins' ∧
      toList bins' = (toList bins).erase e := by
  obtain ⟨pre, c, cs, post, rfl, hin, hkey, hpre⟩ := exists_bin ho he
  have hitem : ∃ r mid, removeItem q e c = .ok r ∧ Removed q (link r.1 pre r.2) pre post c cs e mid := by
    by_cases hec : e = c
    · subst hec
      cases cs with
      | nil =>
        obtain ⟨r, hr, hrem⟩ := removeItem_single hs ho
        exact ⟨r, [], hr, hrem⟩
      | cons d ds =>
        obtain ⟨r, hr, hrem⟩ := removeItem_top _ hs ho
        exact ⟨r, _, hr, hrem⟩
    · have hcs : e ∈ cs := by
        rcases List.mem_cons.1 hin with hin | hin
        · exact absurd hin hec
        · exact hin
      obtain ⟨as, bs, rfl⟩ := List.append_of_mem hcs
      obtain ⟨r, hr, hrem⟩ := removeItem_below hs ho hec
      exact ⟨r, _, hr, hrem⟩
  obtain ⟨r, mid, hr, hrem⟩ := hitem
  refine ⟨link r.1 pre r.2, pre ++ mid ++ post, ?_, hrem.data, hrem.spells,
    hrem.ordered.congr (hrem.data.sameKeys _), ?_⟩
  · rw [remove_eq hs ho.nodup hkey hpre, hr]
    rfl
  · have hepre : e ∉ toList pre := by
      intro hmem
      have hnd := ho.nodup
      rw [toList_append, toList_cons] at hnd
      exact (List.nodup_append.1 hnd).2.2 e hmem e (List.mem_append_left _ hin) rfl
    rw [toList_append, toList_append, hrem.mid, toList_append, toList_cons,
      List.erase_append_right _ hepre, List.append_assoc]
    exact congrArg (toList pre ++ ·) (List.erase_append_left _ hin).symm

end Remove

end Alpine.Sim
