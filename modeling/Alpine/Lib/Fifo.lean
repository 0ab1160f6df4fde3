import Mathlib.Data.List.Sublists

/-!
# Queues whose items can be dropped

A first-in first-out queue that in each cycle takes items in, drops some of those that it then holds, and
puts some out.

* `Fifo.Step`, `Fifo.Run` — a cycle and a run of cycles.
* `Run.sublist` — what came out, followed by what is still held, is a part of what came in, in its order.
* `Run.kept` — an item that is not dropped comes out or is still held.
* `Run.came_in` — an item that comes out came in before, and was not dropped in between.
-/

namespace Alpine.Fifo

variable {α : Type}

/-- What happens to a queue in a cycle. -/
structure Cycle (α : Type) where
  input : List α
  dropped : α → Bool
  output : List α

def Step (q : List α) (c : Cycle α) (q' : List α) : Prop :=
  (q ++ c.input).filter (fun x => !c.dropped x) = c.output ++ q'

def Run : List α → List (Cycle α) → List α → Prop
  | q, [], q' => q' = q
  | q, c :: cs, q' => ∃ q1, Step q c q1 ∧ Run q1 cs q'

variable {c : Cycle α}

theorem Step.sublist {q q' : List α} (h : Step q c q') : (c.output ++ q').Sublist (q ++ c.input) := by
  rw [← h]
  exact List.filter_sublist

/-- An item that a cycle does not drop comes out or is still held. -/
theorem Step.kept {q q' : List α} {x : α} (h : Step q c q') (hx : x ∈ q ∨ x ∈ c.input)
    (hd : c.dropped x = false) : x ∈ c.output ∨ x ∈ q' := by
  rw [← List.mem_append, ← h, List.mem_filter, List.mem_append]
  exact ⟨hx, by simp [hd]⟩

/-- What comes out or is held was held or came in, and is not dropped. -/
theorem Step.came_in {q q' : List α} {x : α} (h : Step q c q') (hx : x ∈ c.output ∨ x ∈ q') :
    (x ∈ q ∨ x ∈ c.input) ∧ c.dropped x = false := by
  rw [← List.mem_append, ← h, List.mem_filter, List.mem_append] at hx
  exact ⟨hx.1, by simpa using hx.2⟩

theorem Run.sublist : ∀ {cs : List (Cycle α)} {q q' : List α}, Run q cs q' →
    (cs.flatMap Cycle.output ++ q').Sublist (q ++ cs.flatMap Cycle.input)
  | [], q, q', h => by
    rw [show q' = q from h]
    simp
  | c :: cs, q, q', h => by
    obtain ⟨q1, hstep, hrun⟩ := h
    have hrest := (hrun.sublist).append_left c.output
    have hfirst := hstep.sublist.append_right (cs.flatMap Cycle.input)
    simp only [List.flatMap_cons, List.append_assoc] at hrest hfirst ⊢
    exact hrest.trans hfirst

theorem Run.kept_held {x : α} : ∀ {cs : List (Cycle α)} {q q' : List α}, Run q cs q' → x ∈ q →
    (∀ c ∈ cs, c.dropped x = false) → (∃ c ∈ cs, x ∈ c.output) ∨ x ∈ q'
  | [], q, q', h, hx, _ => by
    rw [show q' = q from h]
    exact .inr hx
  | c :: cs, q, q', h, hx, hd => by
    obtain ⟨q1, hstep, hrun⟩ := h
    rcases hstep.kept (.inl hx) (hd c List.mem_cons_self) with hout | hheld
    · exact .inl ⟨c, List.mem_cons_self, hout⟩
    · rcases hrun.kept_held hheld (fun c' hc' => hd c' (List.mem_cons_of_mem c hc')) with ⟨c', hc', hout⟩ | hq
      · exact .inl ⟨c', List.mem_cons_of_mem c hc', hout⟩
      · exact .inr hq

/-- **An item that is not dropped comes out or is still held.** -/
theorem Run.kept {post : List (Cycle α)} {x : α} : ∀ {pre : List (Cycle α)} {q q' : List α},
    Run q (pre ++ c :: post) q' → x ∈ c.input → (∀ c' ∈ c :: post, c'.dropped x = false) →
      (∃ c' ∈ c :: post, x ∈ c'.output) ∨ x ∈ q'
  | [], q, q', h, hx, hd => by
    obtain ⟨q1, hstep, hrun⟩ := h
    rcases hstep.kept (.inr hx) (hd c List.mem_cons_self) with hout | hheld
    · exact .inl ⟨c, List.mem_cons_self, hout⟩
    · rcases hrun.kept_held hheld (fun c' hc' => hd c' (List.mem_cons_of_mem c hc')) with ⟨c', hc', hout⟩ | hq
      · exact .inl ⟨c', List.mem_cons_of_mem c hc', hout⟩
      · exact .inr hq
  | _ :: _, _, _, h, hx, hd => by
    obtain ⟨_, _, hrun⟩ := h
    exact hrun.kept hx hd

theorem Run.came_in_held {post : List (Cycle α)} {x : α} : ∀ {pre : List (Cycle α)}
    {q q' : List α}, Run q (pre ++ c :: post) q' → x ∈ c.output → (x ∈ q ∧ ∀ c' ∈ pre ++ [c], c'.dropped x = false) ∨
        ∃ pre1 c1 mid, pre ++ [c] = pre1 ++ c1 :: mid ∧ x ∈ c1.input ∧ ∀ c' ∈ c1 :: mid, c'.dropped x = false
  | [], q, q', h, hx => by
    obtain ⟨q1, hstep, _⟩ := h
    obtain ⟨hq | hin, hd⟩ := hstep.came_in (.inl hx)
    · exact .inl ⟨hq, by simpa using hd⟩
    · exact .inr ⟨[], c, [], rfl, hin, by simpa using hd⟩
  | c0 :: pre, q, q', h, hx => by
    obtain ⟨q1, hstep, hrun⟩ := h
    rcases hrun.came_in_held hx with ⟨hq1, hd⟩ | ⟨pre1, c1, mid, hsplit, hin, hd⟩
    · obtain ⟨hq | hin, hd0⟩ := hstep.came_in (.inr hq1)
      · exact .inl ⟨hq, List.forall_mem_cons.2 ⟨hd0, hd⟩⟩
      · exact .inr ⟨[], c0, pre ++ [c], rfl, hin, List.forall_mem_cons.2 ⟨hd0, hd⟩⟩
    · exact .inr ⟨c0 :: pre1, c1, mid, by rw [List.cons_append, hsplit, List.cons_append], hin, hd⟩

/-- **What comes out of a queue that was empty came in before, and was not dropped in between.** -/
theorem Run.came_in {pre : List (Cycle α)} {post : List (Cycle α)} {q' : List α} {x : α}
    (h : Run [] (pre ++ c :: post) q') (hx : x ∈ c.output) :
    ∃ pre1 c1 mid, pre ++ [c] = pre1 ++ c1 :: mid ∧ x ∈ c1.input ∧ ∀ c' ∈ c1 :: mid, c'.dropped x = false := by
  rcases h.came_in_held hx with ⟨hx, _⟩ | h
  · cases hx
  · exact h

end Alpine.Fifo
