/-!
# Linked lists in a heap

`next : α → Option α` is a pointer field of the nodes `α`.  `Chain next p l q` says that following it
from `p` visits the nodes of `l` and arrives at `q`; a list is a chain that arrives at `none`.

* `chain_append`, `chain_snoc` — splitting a chain.
* `Chain.congr` — the frame rule: a chain only depends on the fields of its nodes.
* `Chain.relink` — writing the field of the last node; `Chain.skip` — taking out the node after it.
* `Chain.unique` — the pointers spell one list only.
* `scan` — the search loop `while (curr && p(curr)) { prev = curr; curr = curr->next; }`, with a bound on
  the number of iterations; `scan_eq` — on a list that is shorter than the bound it stops at the first
  node that fails the test.
-/

namespace Alpine

variable {α : Type} {next next' : α → Option α}

def Chain (next : α → Option α) : Option α → List α → Option α → Prop
  | p, [], q => p = q
  | p, a :: l, q => p = some a ∧ Chain next (next a) l q

theorem chain_append : ∀ {l l' : List α} {p q : Option α},
    Chain next p (l ++ l') q ↔ ∃ m, Chain next p l m ∧ Chain next m l' q
  | [], l', p, q => by
    constructor
    · intro h; exact ⟨p, rfl, h⟩
    · rintro ⟨m, rfl, h⟩; exact h
  | a :: l, l', p, q => by
    rw [List.cons_append]
    constructor
    · rintro ⟨hp, h⟩
      obtain ⟨m, h1, h2⟩ := chain_append.1 h
      exact ⟨m, ⟨hp, h1⟩, h2⟩
    · rintro ⟨m, ⟨hp, h1⟩, h2⟩
      exact ⟨hp, chain_append.2 ⟨m, h1, h2⟩⟩

theorem chain_snoc {l : List α} {a : α} {p q : Option α} :
    Chain next p (l ++ [a]) q ↔ Chain next p l (some a) ∧ next a = q := by
  rw [chain_append]
  constructor
  · rintro ⟨m, h, rfl, hq⟩; exact ⟨h, hq⟩
  · rintro ⟨h, hq⟩; exact ⟨some a, h, rfl, hq⟩

theorem Chain.congr : ∀ {l : List α} {p q : Option α}, (∀ a ∈ l, next' a = next a) →
    Chain next p l q → Chain next' p l q
  | [], _, _, _, h => h
  | a :: l, p, q, hcongr, ⟨hp, h⟩ => by
    refine ⟨hp, ?_⟩
    rw [hcongr a List.mem_cons_self]
    exact Chain.congr (fun b hb => hcongr b (List.mem_cons_of_mem _ hb)) h

theorem Chain.relink {l : List α} {a : α} {p q q' : Option α} (h : Chain next p (l ++ [a]) q)
    (hcongr : ∀ b ∈ l, next' b = next b) (ha : next' a = q') : Chain next' p (l ++ [a]) q' := by
  rw [chain_snoc] at h ⊢
  exact ⟨h.1.congr hcongr, ha⟩

theorem Chain.skip {l l' : List α} {a e : α} {p q : Option α} (h : Chain next p (l ++ e :: l') q)
    (hlast : l.getLast? = some a) (hnodup : (l ++ l').Nodup) (hcongr : ∀ b, b ≠ a → next' b = next b)
    (ha : next' a = next e) : Chain next' p (l ++ l') q := by
  obtain ⟨l0, rfl⟩ := List.getLast?_eq_some_iff.1 hlast
  obtain ⟨m, hl, rfl, hl'⟩ := chain_append.1 h
  obtain ⟨hl0, -, hdisj⟩ := List.nodup_append.1 hnodup
  refine chain_append.2 ⟨next e, hl.relink (fun b hb => hcongr b ?_) ha, hl'.congr fun b hb => hcongr b ?_⟩
  · rintro rfl
    exact (List.nodup_append.1 hl0).2.2 b hb b List.mem_cons_self rfl
  · rintro rfl
    exact hdisj b (List.mem_append_right _ List.mem_cons_self) b hb rfl

theorem Chain.head_eq {l : List α} {p : Option α} (h : Chain next p l none) : p = l.head? := by
  cases l with
  | nil => exact h
  | cons a l => exact h.1

theorem Chain.unique : ∀ {l l' : List α} {p : Option α}, Chain next p l none → Chain next p l' none → l = l'
  | [], [], _, _, _ => rfl
  | [], b :: l', p, h, ⟨hp, _⟩ => by
    rw [show p = none from h] at hp
    cases hp
  | a :: l, [], p, ⟨hp, _⟩, h => by
    rw [show p = none from h] at hp
    cases hp
  | a :: l, b :: l', p, ⟨hp, h⟩, ⟨hp', h'⟩ => by
    rw [hp] at hp'
    cases hp'
    rw [Chain.unique h h']

/-- The search loop: the last node passed and the node it stops at; `none` when the bound is used
up. -/
def scan (next : α → Option α) (p : α → Bool) : Nat → α → Option α → Option (α × Option α)
  | 0, _, _ => none
  | _ + 1, prev, none => some (prev, none)
  | fuel + 1, prev, some curr =>
    if p curr then scan next p fuel curr (next curr) else some (prev, some curr)

theorem scan_eq (p : α → Bool) : ∀ {l : List α} {fuel : Nat} (prev : α) {curr : Option α},
    Chain next curr l none → l.length < fuel → ∃ last, (prev :: l.takeWhile p).getLast? = some last ∧
        scan next p fuel prev curr = some (last, (l.dropWhile p).head?)
  | [], fuel + 1, prev, curr, h, _ => by
    cases h
    exact ⟨prev, rfl, rfl⟩
  | a :: l, fuel + 1, prev, curr, ⟨hc, h⟩, hlen => by
    subst hc
    unfold scan
    cases hp : p a with
    | true =>
      obtain ⟨last, hlast, hscan⟩ := scan_eq p a h (Nat.lt_of_succ_lt_succ hlen)
      refine ⟨last, ?_, ?_⟩
      · rw [List.takeWhile_cons_of_pos hp, List.getLast?_cons_cons]
        exact hlast
      · rw [if_pos rfl, List.dropWhile_cons_of_pos hp]
        exact hscan
    | false =>
      refine ⟨prev, ?_, ?_⟩
      · rw [List.takeWhile_cons_of_neg (by rw [hp]; decide)]
        rfl
      · rw [if_neg (by decide), List.dropWhile_cons_of_neg (by rw [hp]; decide)]
        rfl

end Alpine
