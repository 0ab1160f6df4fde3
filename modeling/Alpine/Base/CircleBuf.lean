import Alpine.Lib.Ring
import Alpine.Lib.Run
import Mathlib

/-!
# The circular buffer (`base/circlebuf.hh`)

A vector with the index `_start` of the first element and the index `_stop` after the last one, which may be past
the end of the vector, where it stands for an index from the front.  No index is ever three times the capacity or
more, and indices are natural numbers here.

* `flush`, `peek`, `read`, `write`, `normalize` as in the source; `none` is a panic, a failed assertion or an
  access outside the vector.
* `Holds` — the documented invariants, with the elements.
* `queueStep` — the abstract queue: a write keeps the last elements that fit.
* `run_queue` — both give the same results on all sequences of calls.
-/

namespace Alpine.Base

structure CircleBuf (α : Type) where
  buf : List α
  _start : Nat
  _stop : Nat

namespace CircleBuf

variable {α : Type}

/-- `std::copy` out of the vector. -/
def copyOut (buf : List α) (pos len : Nat) : Option (List α) :=
  if pos + len ≤ buf.length then some ((buf.drop pos).take len) else none

/-- `std::copy` into the vector. -/
def copyIn (buf : List α) (pos : Nat) (xs : List α) : Option (List α) :=
  if pos + xs.length ≤ buf.length then some (buf.take pos ++ xs ++ buf.drop (pos + xs.length)) else none

def new (buf : List α) : CircleBuf α := ⟨buf, 0, 0⟩

variable (b : CircleBuf α)

def size : Nat := b._stop - b._start

def flush : CircleBuf α := { b with _start := 0, _stop := 0 }

def normalize : Option (CircleBuf α) :=
  let b := if b.buf.length ≤ b._start
    then { b with _stop := b._stop - b.buf.length, _start := b._start - b.buf.length } else b
  if b._start < b.buf.length ∧ b._stop < 2 * b.buf.length ∧ b._start ≤ b._stop then some b else none

def peek (offset len : Nat) : Option (List α) :=
  -- `real_start` is a remainder by the size of the vector
  if offset + len > b.size ∨ b.buf.length = 0 then none
  else
    let real_start := (offset + b._start) % b.buf.length
    if real_start + len ≤ b.buf.length then copyOut b.buf real_start len
    else
      let head_size := b.buf.length - real_start
      let tail_size := len - head_size
      (copyOut b.buf real_start head_size).bind fun head => (copyOut b.buf 0 tail_size).map (head ++ ·)

def read (len : Nat) : Option (CircleBuf α × List α) :=
  (b.peek 0 len).bind fun out => ({ b with _start := b._start + len }.normalize).map (·, out)

def write (xs : List α) : Option (CircleBuf α) :=
  let xs := if xs.length > b.buf.length then xs.drop (xs.length - b.buf.length) else xs
  let next := b._stop % b.buf.length
  let head_len := min (b.buf.length - next) xs.length
  (copyIn b.buf next (xs.take head_len)).bind fun buf =>
    (copyIn buf 0 (xs.drop head_len)).bind fun buf =>
      let b := { b with buf := buf, _stop := b._stop + xs.length }
      let b := if b.size > b.buf.length then { b with _start := b._stop - b.buf.length } else b
      b.normalize

inductive Call (α : Type) where
  | write (xs : List α)
  | read (len : Nat)
  | peek (offset len : Nat)
  | flush

/-- A call and what it copies out. -/
def step (b : CircleBuf α) : Call α → Option (CircleBuf α × List α)
  | .write xs => (b.write xs).map (·, [])
  | .read len => b.read len
  | .peek offset len => (b.peek offset len).map (b, ·)
  | .flush => some (b.flush, [])

/-! ## The abstract queue -/

/-- The last `min capacity n` of `n` elements. -/
def keepLast (capacity : Nat) (q : List α) : List α := q.drop (q.length - min capacity q.length)

/-- A queue that keeps the last `capacity` elements; reads and peeks past its end are refused. -/
def queueStep (capacity : Nat) (q : List α) : Call α → Option (List α × List α)
  | .write xs => some (keepLast capacity (q ++ xs), [])
  | .read len => if len ≤ q.length then some (q.drop len, q.take len) else none
  | .peek offset len => if offset + len ≤ q.length then some (q, (q.drop offset).take len) else none
  | .flush => some ([], [])

/-! ## The invariant -/

/-- The documented invariants hold, and the elements are those of `q`. -/
structure Holds (capacity : Nat) (b : CircleBuf α) (q : List α) : Prop where
  buf_length : b.buf.length = capacity
  start_le : b._start ≤ b._stop
  start_lt : b._start < capacity
  stop_lt : b._stop < 2 * capacity
  length : q.length = b.size
  size_le : b.size ≤ capacity
  elements : ∀ k < q.length, b.buf[(b._start + k) % capacity]? = q[k]?

variable {b} {capacity : Nat} {q : List α}

theorem getElem?_copyIn {buf buf' xs : List α} {pos : Nat} (h : copyIn buf pos xs = some buf') :
    buf'.length = buf.length ∧ ∀ s, buf'[s]? = if pos ≤ s ∧ s < pos + xs.length then xs[s - pos]? else buf[s]? := by
  unfold copyIn at h
  split at h
  next hle =>
    obtain rfl := Option.some.inj h
    have hpos : (buf.take pos).length = pos := by
      rw [List.length_take]
      omega
    refine ⟨by simp only [List.length_append, hpos, List.length_drop]; omega, fun s => ?_⟩
    rw [List.append_assoc]
    by_cases hs : s < pos
    · rw [List.getElem?_append_left (by omega), List.getElem?_take_of_lt hs, if_neg (by omega)]
    · rw [List.getElem?_append_right (by omega), hpos]
      by_cases hs' : s < pos + xs.length
      · rw [List.getElem?_append_left (by omega), if_pos ⟨by omega, hs'⟩]
      · rw [List.getElem?_append_right (by omega), List.getElem?_drop, if_neg (by omega)]
        congr 1
        omega
  next => exact absurd h nofun

theorem Holds.normalize {start stop : Nat} (hbuf : b.buf.length = capacity)
    (hle : start ≤ stop) (hstart : start < 2 * capacity) (hsize : stop - start ≤ capacity)
    (hlen : q.length = stop - start) (helems : ∀ k < q.length, b.buf[(start + k) % capacity]? = q[k]?) :
    ∃ b', ({ b with _start := start, _stop := stop } : CircleBuf α).normalize = some b' ∧ Holds capacity b' q := by
  unfold CircleBuf.normalize
  simp only [hbuf]
  by_cases hover : capacity ≤ start
  · have helems' : ∀ k < q.length, b.buf[(start - capacity + k) % capacity]? = q[k]? := by
      intro k hk
      have hmod : (start - capacity + k) % capacity = (start + k) % capacity := by
        rw [← Nat.add_mod_right, show start - capacity + k + capacity = start + k by omega]
      rw [hmod]
      exact helems k hk
    simp only [hover, if_true]
    rw [if_pos ⟨by omega, by omega, by omega⟩]
    exact ⟨_, rfl, hbuf, by show start - capacity ≤ stop - capacity; omega, by show start - capacity < capacity; omega,
      by show stop - capacity < 2 * capacity; omega, by rw [hlen]; show _ = stop - capacity - (start - capacity); omega,
      by show stop - capacity - (start - capacity) ≤ capacity; omega, helems'⟩
  · simp only [hover, if_false]
    rw [if_pos ⟨by omega, by omega, hle⟩]
    exact ⟨_, rfl, hbuf, hle, by show start < capacity; omega, by show stop < 2 * capacity; omega, hlen, hsize, helems⟩

theorem Holds.peek (h : Holds capacity b q) (offset len : Nat) :
    b.peek offset len = if offset + len ≤ q.length then some ((q.drop offset).take len) else none := by
  have hcap := Nat.zero_lt_of_lt h.start_lt
  unfold CircleBuf.peek
  by_cases hin : offset + len ≤ q.length
  · have hsize := h.length
    have hle := h.size_le
    have hlt := Nat.mod_lt (offset + b._start) hcap
    have hat : ∀ k < len, ((q.drop offset).take len)[k]? =
        b.buf[if (offset + b._start) % capacity + k < capacity then (offset + b._start) % capacity + k
          else (offset + b._start) % capacity + k - capacity]? := by
      intro k hk
      rw [List.getElem?_take_of_lt hk, List.getElem?_drop, ← h.elements _ (by omega),
        show b._start + (offset + k) = offset + b._start + k by omega, Ring.add_mod_of_lt (by omega) (offset + b._start)]
    have hlen : ((q.drop offset).take len).length = len := by
      rw [List.length_take, List.length_drop]
      omega
    rw [if_neg (by rw [h.buf_length]; omega), if_pos hin, h.buf_length]
    dsimp only
    generalize (offset + b._start) % capacity = real_start at hat hlt ⊢
    by_cases hwrap : real_start + len ≤ capacity
    · rw [if_pos hwrap, copyOut, if_pos (by rw [h.buf_length]; exact hwrap)]
      refine congrArg some (List.ext_getElem? fun k => ?_)
      by_cases hk : k < len
      · rw [hat k hk, List.getElem?_take_of_lt hk, List.getElem?_drop, if_pos (by omega)]
      · rw [List.getElem?_eq_none (by rw [List.length_take]; omega), List.getElem?_eq_none (by omega)]
    · -- the elements up to the end of the vector, and the rest from its front
      have hhead : real_start + (capacity - real_start) ≤ b.buf.length := by
        rw [h.buf_length]
        omega
      have htail : 0 + (len - (capacity - real_start)) ≤ b.buf.length := by
        rw [h.buf_length]
        omega
      rw [if_neg hwrap, copyOut, if_pos hhead, Option.bind_some, copyOut, if_pos htail, Option.map_some]
      refine congrArg some (List.ext_getElem? fun k => ?_)
      have hheadLen : ((b.buf.drop real_start).take
          (capacity - real_start)).length = capacity - real_start := by
        rw [List.length_take, List.length_drop, h.buf_length]
        omega
      by_cases hk : k < len
      · rw [hat k hk]
        by_cases hk' : k < capacity - real_start
        · rw [List.getElem?_append_left (by omega), List.getElem?_take_of_lt hk', List.getElem?_drop, if_pos (by omega)]
        · rw [List.getElem?_append_right (by omega), hheadLen, List.getElem?_take_of_lt (by omega), List.getElem?_drop,
            if_neg (by omega)]
          congr 1
          omega
      · rw [List.getElem?_eq_none, List.getElem?_eq_none (by omega)]
        rw [List.length_append, hheadLen, List.length_take]
        omega
  · have hsize := h.length
    rw [if_pos (by omega), if_neg hin]

theorem Holds.read (h : Holds capacity b q) {len : Nat} (hlen : len ≤ q.length) :
    ∃ b', b.read len = some (b', q.take len) ∧ Holds capacity b' (q.drop len) := by
  have hsize : q.length = b._stop - b._start := h.length
  have hle : b._stop - b._start ≤ capacity := h.size_le
  have hstart := h.start_lt
  have hstop := h.start_le
  obtain ⟨b', hb', hholds⟩ := @Holds.normalize _ b _ (q.drop len) (b._start + len) b._stop
    h.buf_length (by omega) (by omega) (by omega)
    (by rw [List.length_drop]; omega) fun k hk => by
      rw [List.length_drop] at hk
      rw [List.getElem?_drop, ← h.elements _ (by omega), Nat.add_assoc]
  refine ⟨b', ?_, hholds⟩
  unfold CircleBuf.read
  rw [h.peek, if_pos (by omega), Option.bind_some, hb', List.drop_zero]
  rfl

/-- The two copies of a write put the elements where the queue goes on. -/
theorem copyIn_wrapped {buf xs : List α} {pos : Nat} (hbuf : buf.length = capacity) (hpos : pos < capacity)
    (hxs : xs.length ≤ capacity) : ∃ buf1 buf', copyIn buf pos (xs.take (min (capacity - pos) xs.length)) = some buf1 ∧
      copyIn buf1 0 (xs.drop (min (capacity - pos) xs.length)) = some buf' ∧ buf'.length = capacity ∧
      (∀ j < xs.length, buf'[if pos + j < capacity then pos + j else pos + j - capacity]? = xs[j]?) ∧
      ∀ s < capacity, (∀ j < xs.length, s ≠ if pos + j < capacity then pos + j else pos + j - capacity) →
        buf'[s]? = buf[s]? := by
  have htake : (xs.take (min (capacity - pos) xs.length)).length = min (capacity - pos) xs.length := by
    rw [List.length_take]
    omega
  have hdrop : (xs.drop (min (capacity - pos) xs.length)).length = xs.length - min (capacity - pos) xs.length :=
    List.length_drop
  have h1 : ∃ buf1, copyIn buf pos (xs.take (min (capacity - pos) xs.length)) = some buf1 :=
    ⟨_, if_pos (by rw [htake, hbuf]; omega)⟩
  obtain ⟨buf1, h1⟩ := h1
  obtain ⟨hlen1, hat1⟩ := getElem?_copyIn h1
  have h2 : ∃ buf', copyIn buf1 0 (xs.drop (min (capacity - pos) xs.length)) = some buf' :=
    ⟨_, if_pos (by rw [hdrop, hlen1, hbuf]; omega)⟩
  obtain ⟨buf', h2⟩ := h2
  obtain ⟨hlen2, hat2⟩ := getElem?_copyIn h2
  rw [htake] at hat1
  rw [hdrop] at hat2
  refine ⟨buf1, buf', h1, h2, by rw [hlen2, hlen1, hbuf], fun j hj => ?_, fun s hs hne => ?_⟩
  · rw [hat2, hat1]
    by_cases hwrap : pos + j < capacity
    · rw [if_pos hwrap, if_neg (by omega), if_pos (by omega), List.getElem?_take_of_lt (by omega)]
      congr 1
      omega
    · rw [if_neg hwrap, if_pos (by omega), List.getElem?_drop]
      congr 1
      omega
  · rw [hat2, hat1, if_neg, if_neg]
    · intro hs'
      have hj := hne (s - pos) (by omega)
      rw [if_pos (by omega)] at hj
      omega
    · intro hs'
      have hj := hne (s + (capacity - pos)) (by omega)
      rw [if_neg (by omega)] at hj
      omega

theorem length_keepLast (q : List α) : (keepLast capacity q).length = min capacity q.length := by
  rw [keepLast, List.length_drop]
  omega

/-- The elements written are the last ones, however many there are. -/
theorem getElem?_keepLast_append {xs xs' : List α} (hq : q.length ≤ capacity)
    (hxs : xs' = if xs.length > capacity then xs.drop (xs.length - capacity) else xs) (k : Nat) :
    (keepLast capacity (q ++ xs))[k]? = (q ++ xs')[q.length + xs'.length - min capacity (q.length + xs'.length) + k]? := by
  rw [keepLast, List.getElem?_drop, List.length_append]
  split at hxs
  next hlong =>
    have hlen : xs'.length = capacity := by
      rw [hxs, List.length_drop]
      omega
    rw [List.getElem?_append_right (by omega), List.getElem?_append_right (by omega), hlen, hxs, List.getElem?_drop]
    congr 1
    omega
  next => rw [hxs]

theorem Holds.write (h : Holds capacity b q) (xs : List α) :
    ∃ b', b.write xs = some b' ∧ Holds capacity b' (keepLast capacity (q ++ xs)) := by
  have hcap := Nat.zero_lt_of_lt h.start_lt
  have hlength : q.length = b._stop - b._start := h.length
  have hsize : b._stop - b._start ≤ capacity := h.size_le
  have hle := h.start_le
  have hstart := h.start_lt
  have hstop := h.stop_lt
  unfold CircleBuf.write
  rw [h.buf_length]
  generalize hxs : (if xs.length > capacity then xs.drop (xs.length - capacity) else xs) = xs'
  have hlast := getElem?_keepLast_append (q := q) (by omega) hxs.symm
  have hxs' : xs'.length = min xs.length capacity := by
    rw [← hxs]
    split
    · rw [List.length_drop]
      omega
    · omega
  obtain ⟨buf1, buf', h1, h2, hlen', hnew, hold⟩ :=
    @copyIn_wrapped _ _ _ xs' _ h.buf_length (Nat.mod_lt b._stop hcap) (by omega)
  dsimp only
  rw [h1, Option.bind_some, h2, Option.bind_some]
  -- the new positions of the first element and after the last one
  obtain ⟨start', hstart', heq⟩ : ∃ start', start' = (if b._stop + xs'.length - b._start > capacity
      then b._stop + xs'.length - capacity else b._start) ∧
      (if CircleBuf.size { b with buf := buf', _stop := b._stop + xs'.length } > buf'.length
        then ({ b with buf := buf', _stop := b._stop + xs'.length, _start := b._stop + xs'.length - buf'.length } :
          CircleBuf α) else { b with buf := buf', _stop := b._stop + xs'.length }) =
      { b with buf := buf', _start := start', _stop := b._stop + xs'.length } := by
    refine ⟨_, rfl, ?_⟩
    rw [hlen']
    show (if b._stop + xs'.length - b._start > capacity then _ else _) = _
    split <;> rfl
  rw [heq]
  have hwindow : start' + min capacity (q.length + xs'.length) = b._stop + xs'.length := by
    rw [hstart']
    split <;> omega
  refine Holds.normalize (b := { b with buf := buf' }) hlen' (by omega) (by omega) (by omega) ?_ fun k hk => ?_
  · rw [length_keepLast, List.length_append]
    omega
  · rw [length_keepLast, List.length_append] at hk
    rw [hlast]
    by_cases hwritten : b._stop ≤ start' + k
    · obtain ⟨j, hj⟩ := Nat.exists_eq_add_of_le hwritten
      rw [hj, Ring.add_mod_of_lt (by omega), List.getElem?_append_right (by omega)]
      show buf'[_]? = _
      rw [hnew j (by omega)]
      congr 1
      omega
    · have hother : ∀ j < xs'.length, (start' + k) % capacity ≠ if b._stop % capacity + j < capacity
          then b._stop % capacity + j else b._stop % capacity + j - capacity := by
        intro j hj heq
        rw [← Ring.add_mod_of_lt (by omega)] at heq
        have hsame := @Ring.mod_inj _ (start' + k) _ _ (Nat.le_refl _) (by omega) (by omega) (by omega) heq
        omega
      rw [List.getElem?_append_left (by omega)]
      show buf'[_]? = _
      rw [hold _ (Nat.mod_lt _ hcap) hother, show start' + k = b._start + (start' + k - b._start) by
        rw [hstart']
        split <;> omega, h.elements _ (by omega)]
      congr 1
      omega

theorem holds_new {buf : List α} (hbuf : buf ≠ []) : Holds buf.length (new buf) [] where
  buf_length := rfl
  start_le := Nat.le_refl 0
  start_lt := List.length_pos_iff.2 hbuf
  stop_lt := Nat.mul_pos (by decide) (List.length_pos_iff.2 hbuf)
  length := rfl
  size_le := Nat.zero_le _
  elements k hk := absurd hk (Nat.not_lt_zero k)

theorem Holds.step (h : Holds capacity b q) (call : Call α) : (∀ q' out, queueStep capacity q call = some (q', out) →
      ∃ b', b.step call = some (b', out) ∧ Holds capacity b' q') ∧
    (queueStep capacity q call = none → b.step call = none) := by
  cases call with
  | write xs =>
    obtain ⟨b', hb', hholds⟩ := h.write xs
    refine ⟨fun q' out heq => ?_, fun heq => absurd heq nofun⟩
    cases heq
    exact ⟨b', by rw [CircleBuf.step, hb']; rfl, hholds⟩
  | read len =>
    simp only [queueStep]
    split
    next hlen =>
      obtain ⟨b', hb', hholds⟩ := h.read hlen
      refine ⟨fun q' out heq => ?_, fun heq => absurd heq nofun⟩
      cases heq
      exact ⟨b', hb', hholds⟩
    next hlen =>
      refine ⟨fun q' out heq => absurd heq nofun, fun _ => ?_⟩
      rw [CircleBuf.step, CircleBuf.read, h.peek, if_neg (by omega)]
      rfl
  | peek offset len =>
    simp only [queueStep, CircleBuf.step, h.peek]
    split
    · refine ⟨fun q' out heq => ?_, fun heq => absurd heq nofun⟩
      cases heq
      exact ⟨b, rfl, h⟩
    · exact ⟨fun q' out heq => absurd heq nofun, fun _ => rfl⟩
  | flush =>
    refine ⟨fun q' out heq => ?_, fun heq => absurd heq nofun⟩
    cases heq
    have hcap := Nat.zero_lt_of_lt h.start_lt
    exact ⟨b.flush, rfl, h.buf_length, Nat.le_refl 0, hcap, by show 0 < 2 * capacity; omega, rfl, Nat.zero_le _,
      fun k hk => absurd hk (Nat.not_lt_zero k)⟩

/-- **The circular buffer is a bounded queue.**  For every vector that is not empty and every sequence of calls,
the buffer copies out what the abstract queue does and ends with its elements, within the documented invariants;
it panics only if the abstract queue refuses a call. -/
theorem run_queue {buf : List α} (hbuf : buf ≠ []) (calls : List (Call α)) :
    (∀ q outs, Run.run (queueStep buf.length) [] calls = some (q, outs) →
      ∃ b, Run.run CircleBuf.step (new buf) calls = some (b, outs) ∧ Holds buf.length b q) ∧
    (Run.run (queueStep buf.length) [] calls = none → Run.run CircleBuf.step (new buf) calls = none) := by
  have hrun : ∀ (calls : List (Call α)) (b : CircleBuf α) (q : List α), Holds buf.length b q →
      (∀ q' outs, Run.run (queueStep buf.length) q calls = some (q', outs) →
        ∃ b', Run.run CircleBuf.step b calls = some (b', outs) ∧ Holds buf.length b' q') ∧
      (Run.run (queueStep buf.length) q calls = none → Run.run CircleBuf.step b calls = none) := by
    intro calls
    induction calls with
    | nil =>
      intro b q h
      refine ⟨fun q' outs heq => ?_, fun heq => absurd heq nofun⟩
      cases heq
      exact ⟨b, rfl, h⟩
    | cons call calls ih =>
      intro b q h
      obtain ⟨hsome, hnone⟩ := h.step call
      cases hq : queueStep buf.length q call with
      | none =>
        refine ⟨fun q' outs heq => absurd heq ?_, fun _ => ?_⟩
        · rw [Run.run, hq]
          intro heq'
          cases heq'
        · rw [Run.run, hnone hq]
      | some r =>
        obtain ⟨q1, out⟩ := r
        obtain ⟨b1, hb1, h1⟩ := hsome q1 out hq
        obtain ⟨ihsome, ihnone⟩ := ih b1 q1 h1
        rw [Run.run, Run.run, hq, hb1]
        dsimp only
        refine ⟨fun q' outs heq => ?_, fun heq => ?_⟩
        · obtain ⟨⟨q2, outs2⟩, hrest, heq2⟩ := Option.map_eq_some_iff.1 heq
          obtain ⟨b2, hb2, h2⟩ := ihsome q2 outs2 hrest
          cases heq2
          exact ⟨b2, by rw [hb2]; rfl, h2⟩
        · rw [ihnone (Option.map_eq_none_iff.1 heq)]
          rfl
  exact hrun calls (new buf) [] (holds_new hbuf)

/-- A buffer of three elements, through a write that wraps and one that is too long. -/
theorem run_queue_three : ∃ b, Run.run CircleBuf.step (new [0, 0, 0])
      [.write [1, 2], .read 1, .write [3, 4], .peek 1 2, .write [5, 6, 7, 8], .read 2] =
        some (b, [[], [1], [], [3, 4], [], [6, 7]]) ∧ Holds 3 b [8] :=
  (@run_queue _ [0, 0, 0] (by decide)
    [.write [1, 2], .read 1, .write [3, 4], .peek 1 2, .write [5, 6, 7, 8], .read 2]).1 _ _ (by decide)

/-! ## Not the end of an unbounded queue -/

/-- The elements, from the first on. -/
def contents (b : CircleBuf α) : List α := (b.peek 0 b.size).getD []

/-- A queue without bound. -/
def unboundedStep (q : List α) : Call α → Option (List α × List α)
  | .write xs => some (q ++ xs, [])
  | .read len => if len ≤ q.length then some (q.drop len, q.take len) else none
  | .peek offset len => if offset + len ≤ q.length then some (q, (q.drop offset).take len) else none
  | .flush => some ([], [])

/-- A read takes the oldest element of the buffer, which an unbounded queue has behind those that the buffer lost. -/
theorem contents_ne_unbounded : ∃ b q outs outs', Run.run CircleBuf.step (new [0, 0]) [.write [1, 2, 3], .read 1] =
      some (b, outs) ∧ Run.run unboundedStep [] [.write [1, 2, 3], .read 1] = some (q, outs') ∧
      b.contents ≠ keepLast 2 q :=
  ⟨⟨[2, 3], 1, 2⟩, [2, 3], _, _, rfl, rfl, by decide⟩

end CircleBuf

end Alpine.Base
