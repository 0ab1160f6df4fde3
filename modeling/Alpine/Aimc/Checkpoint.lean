import Alpine.Aimc.Single
import Alpine.Lib.Outcome

/-!
# Checkpoints of an AIMC cluster (`dev/arm/aimc_cluster.cc`)

`AIMCCluster` keeps pointers to its tiles.  The constructor and `unserialize` push a new tile for each CPU,
`serialize` and the destructor free the tiles with `delete[]`; a checkpoint has no contents of tiles.

* `Objects` — what `new` has returned and the vector of pointers; `step` and `run` as in the source.  The use of
  a deleted tile and the `delete[]` of a single object are faults of their own.
* `Plain` — the purpose of the cluster: a list of tiles, which a checkpoint keeps.
* `checkpoint_iff` — **without checkpoints, or without CPUs, the cluster is the list of tiles; every other
  `serialize` is undefined, and every other `unserialize` leaves a number of tiles that is not that of the CPUs.**
-/

namespace Alpine.Aimc.Cluster

variable {H W : Nat}

/-! ## The cluster as an object -/

inductive Fault where
  /-- `tiles[tid]` outside of the vector -/
  | index
  /-- a pointer to a deleted tile is used -/
  | deleted
  /-- `delete[]` of what `new` without brackets has returned -/
  | mismatch
  /-- the operation itself is undefined -/
  | operation

/-- The forms of `new` and of `delete`: without and with brackets. -/
inductive Form where
  | single
  | array
  deriving DecidableEq

structure Objects (H W : Nat) where
  /-- Every tile that `new` has returned, `none` once it is deleted. -/
  heap : List (Option (Form × Tile H W))
  tiles : List Nat

/-- A member function of the cluster that works on one tile. -/
inductive Call where
  | tile (op : TileOp)
  | aimcQueueSingle (val : BitVec 8)
  | aimcDequeueSingle
  deriving DecidableEq

def Call.run (t : Tile H W) : Call → Option (Tile H W × TileRet)
  | .tile op => tileStep t op
  | .aimcQueueSingle val => (tileQueueSingle t val).map (·, .void)
  | .aimcDequeueSingle => (tileDequeueSingle t).map fun r => (r.1, .param r.2)

/-- `v[i]` of a vector. -/
def index {α : Type} (v : List α) (i : Int) : Except Fault α :=
  if 0 ≤ i then
    match v[i.toNat]? with
    | some a => .ok a
    | none => .error .index
  else .error .index

inductive Event (H W cpus : Nat) where
  | call (tid : Int) (c : Call)
  | serialize
  /-- of a checkpoint that was taken with these tiles -/
  | unserialize (cp : Vector (Tile H W) cpus)

namespace Objects

/-- `tiles.push_back(new AIMCTile())`, on memory with the contents `raw`. -/
def pushTile (fits : W * H < 2147483648) (raw : RawTile H W) (s : Objects H W) : Objects H W where
  heap := s.heap ++ [some (.single, AIMCTile.new fits raw)]
  tiles := s.tiles ++ [s.heap.length]

/-- The loop over the CPUs; `raw i` is the contents of the memory of object `i`. -/
def pushTiles (fits : W * H < 2147483648) (raw : Nat → RawTile H W) : Nat → Objects H W → Objects H W
  | 0, s => s
  | cpus + 1, s => pushTiles fits raw cpus (s.pushTile fits (raw s.heap.length))

/-- `AIMCCluster::AIMCCluster`. -/
def new (fits : W * H < 2147483648) (raw : Nat → RawTile H W) (cpus : Nat) : Objects H W :=
  pushTiles fits raw cpus ⟨[], []⟩

/-- The object a pointer points to. -/
def deref (s : Objects H W) (p : Nat) : Except Fault (Form × Tile H W) :=
  match s.heap[p]? with
  | some (some o) => .ok o
  | _ => .error .deleted

def delete (form : Form) (s : Objects H W) (p : Nat) : Except Fault (Objects H W) := do
  let o ← s.deref p
  if o.1 = form then .ok { s with heap := s.heap.set p none } else .error .mismatch

/-- The loop over the tiles: `delete[]` of the memories of each, which are arrays, and of the tile. -/
def deleteTiles (s : Objects H W) : Except Fault (Objects H W) :=
  s.tiles.foldlM (delete .array) s

/-- `AIMCCluster::~AIMCCluster`. -/
def destroy (s : Objects H W) : Except Fault (Objects H W) := s.deleteTiles

/-- `AIMCCluster::serialize`; it is `const` and leaves the vector as it is. -/
def serialize (s : Objects H W) : Except Fault (Objects H W) := s.deleteTiles

/-- `AIMCCluster::unserialize`, which reads nothing of the checkpoint. -/
def unserialize (fits : W * H < 2147483648) (raw : Nat → RawTile H W) (cpus : Nat) (s : Objects H W) : Objects H W :=
  pushTiles fits raw cpus s

def call (s : Objects H W) (tid : Int) (c : Call) : Except Fault (Objects H W × TileRet) := do
  let p ← index s.tiles tid
  let o ← s.deref p
  match c.run o.2 with
  | some (t', r) => .ok ({ s with heap := s.heap.set p (some (o.1, t')) }, r)
  | none => .error .operation

variable {cpus : Nat} (fits : W * H < 2147483648) (raw : Nat → RawTile H W)

def step (s : Objects H W) : Event H W cpus → Except Fault (Objects H W)
  | .call tid c => do
    let r ← s.call tid c
    .ok r.1
  | .serialize => s.serialize
  | .unserialize _ => .ok (s.unserialize fits raw cpus)

def run : List (Event H W cpus) → Objects H W → Except Fault (Objects H W)
  | [], s => .ok s
  | e :: es, s => do
    let s ← s.step fits raw e
    run es s

/-- The tiles that the vector points to. -/
def contents (s : Objects H W) : Except Fault (List (Tile H W)) :=
  s.tiles.mapM fun p => (s.deref p).map Prod.snd

end Objects

/-! ## A plain list of tiles -/

namespace Plain

/-- A call works on one tile of the list. -/
def call (ts : List (Tile H W)) (tid : Int) (c : Call) : Except Fault (List (Tile H W) × TileRet) := do
  let t ← index ts tid
  match c.run t with
  | some (t', r) => .ok (ts.set tid.toNat t', r)
  | none => .error .operation

/-- Saving the tiles leaves them, and they are restored as they were saved. -/
def step {cpus : Nat} (ts : List (Tile H W)) : Event H W cpus → Except Fault (List (Tile H W))
  | .call tid c => do
    let r ← call ts tid c
    .ok r.1
  | .serialize => .ok ts
  | .unserialize cp => .ok cp.toList

def run {cpus : Nat} : List (Event H W cpus) → List (Tile H W) → Except Fault (List (Tile H W))
  | [], ts => .ok ts
  | e :: es, ts => do
    let ts ← step ts e
    run es ts

end Plain

/-! ## Pointers -/

namespace Objects

/-- The objects of a plain list. -/
def ofPlain (ts : List (Tile H W)) : Objects H W where
  heap := ts.map fun t => some (.single, t)
  tiles := List.range ts.length

variable {fits : W * H < 2147483648} {raw : Nat → RawTile H W} {cpus : Nat}

theorem pushTiles_plain : ∀ (cpus : Nat) (ts : List (Tile H W)),
    pushTiles fits raw cpus (ofPlain ts) = ofPlain (ts ++ List.replicate cpus (Tile.fresh fits))
  | 0, ts => by rw [pushTiles, List.replicate_zero, List.append_nil]
  | cpus + 1, ts => by
    have hpush : (ofPlain ts).pushTile fits (raw (ofPlain ts).heap.length) = ofPlain (ts ++ [Tile.fresh fits]) := by
      simp [pushTile, ofPlain, new_eq_fresh, List.range_succ]
    rw [pushTiles, hpush, pushTiles_plain cpus, List.replicate_succ, List.append_assoc, List.singleton_append]

theorem new_plain : new fits raw cpus = ofPlain (List.replicate cpus (Tile.fresh fits)) :=
  pushTiles_plain cpus []

theorem deref_plain {ts : List (Tile H W)} {p : Nat} {t : Tile H W} (h : ts[p]? = some t) :
    (ofPlain ts).deref p = .ok (.single, t) := by
  unfold deref ofPlain
  rw [List.getElem?_map, h]
  rfl

theorem contents_plain (ts : List (Tile H W)) : (ofPlain ts).contents = .ok ts := by
  have htake : ∀ k ≤ ts.length,
      (List.range k).mapM (fun p => ((ofPlain ts).deref p).map Prod.snd) = .ok (ts.take k) := by
    intro k
    induction k with
    | zero => exact fun _ => rfl
    | succ k ih =>
      intro hk
      rw [List.range_succ, List.mapM_append, ih (by omega), List.take_add_one, List.getElem?_eq_getElem (by omega)]
      simp [deref_plain (List.getElem?_eq_getElem (show k < ts.length by omega)), Except.map, bind, Except.bind, pure,
        Except.pure]
  have hall := htake ts.length le_rfl
  rwa [List.take_length] at hall

theorem deleteTiles_plain {ts : List (Tile H W)} (h : ts ≠ []) : (ofPlain ts).deleteTiles = .error .mismatch := by
  obtain ⟨t, ts, rfl⟩ := List.exists_cons_of_ne_nil h
  unfold deleteTiles
  rw [show (ofPlain (t :: ts)).tiles = 0 :: (List.range ts.length).map Nat.succ from List.range_succ_eq_map,
    List.foldlM_cons]
  rfl

/-- Indexing the pointers is indexing the tiles. -/
theorem index_range {α : Type} (v : List α) (i : Int) :
    index (List.range v.length) i = (index v i).map fun _ => i.toNat := by
  unfold index
  by_cases hi : 0 ≤ i
  · rw [if_pos hi, if_pos hi]
    by_cases hlt : i.toNat < v.length
    · rw [List.getElem?_range hlt, List.getElem?_eq_getElem hlt]
      rfl
    · rw [List.getElem?_eq_none (by rw [List.length_range]; omega), List.getElem?_eq_none (by omega)]
      rfl
  · rw [if_neg hi, if_neg hi]
    rfl

theorem index_ok {α : Type} {v : List α} {i : Int} {a : α} (h : index v i = .ok a) : v[i.toNat]? = some a := by
  unfold index at h
  by_cases hi : 0 ≤ i
  · rw [if_pos hi] at h
    cases hv : v[i.toNat]? with
    | none =>
      rw [hv] at h
      cases h
    | some b =>
      rw [hv] at h
      cases h
      rfl
  · rw [if_neg hi] at h
    cases h

theorem call_plain (ts : List (Tile H W)) (tid : Int) (c : Call) :
    (ofPlain ts).call tid c = (Plain.call ts tid c).map fun r => (ofPlain r.1, r.2) := by
  unfold call Plain.call
  rw [show (ofPlain ts).tiles = List.range ts.length from rfl, index_range]
  cases ht : index ts tid with
  | error e => rfl
  | ok t =>
    show (do let o ← (ofPlain ts).deref tid.toNat; _) = _
    rw [deref_plain (index_ok ht)]
    show (match c.run t with | some (t', r) => _ | none => _) = Except.map _ (match c.run t with | some (t', r) => _ | none => _)
    cases c.run t with
    | none => rfl
    | some q =>
      obtain ⟨t', r⟩ := q
      refine congrArg Except.ok (Prod.ext ?_ rfl)
      unfold ofPlain
      dsimp only
      rw [List.map_set, List.length_set]

theorem index_error {α : Type} {v : List α} {i : Int} {e : Fault} (h : index v i = .error e) : e = .index := by
  unfold index at h
  by_cases hi : 0 ≤ i
  · rw [if_pos hi] at h
    cases hv : v[i.toNat]? with
    | none =>
      rw [hv] at h
      cases h
      rfl
    | some b =>
      rw [hv] at h
      cases h
  · rw [if_neg hi] at h
    cases h
    rfl

end Objects

/-! ## Runs -/

open Objects

/-- The call is no `serialize` and no `unserialize`, or there are no tiles. -/
def Event.Spares {cpus : Nat} (e : Event H W cpus) : Prop := cpus = 0 ∨ ∃ tid c, e = .call tid c

/-- What a call is to do: `serialize` leaves the tiles, `unserialize` restores those that were saved, one for each
CPU, and no deleted tile is used. -/
structure Intact {cpus : Nat} (fits : W * H < 2147483648) (raw : Nat → RawTile H W) (s : Objects H W)
    (e : Event H W cpus) : Prop where
  serialize : e = .serialize → ∃ s', s.step fits raw e = .ok s' ∧ s'.contents = s.contents
  unserialize : ∀ cp, e = .unserialize cp → ∃ s', s.step fits raw e = .ok s' ∧ s'.contents = .ok cp.toList
  deleted : s.step fits raw e ≠ .error .deleted

section Runs

variable {cpus : Nat} {fits : W * H < 2147483648} {raw : Nat → RawTile H W} {ts : List (Tile H W)} {e : Event H W cpus}

/-- No call on the list changes the number of the tiles, or uses a deleted one. -/
theorem Plain.step_spec (hlen : ts.length = cpus) (e : Event H W cpus) :
    Outcome (· ≠ .deleted) (fun ts' => ts'.length = cpus) (Plain.step ts e) := by
  cases e with
  | call tid c =>
    have hcall : Outcome (· ≠ .deleted) (fun r => r.1.length = cpus) (Plain.call ts tid c) := by
      refine Outcome.bind (P := fun _ => True) ?_ fun t _ => ?_
      · cases ht : index ts tid with
        | error f =>
          rw [index_error ht]
          exact Fault.noConfusion
        | ok t => trivial
      · cases c.run t with
        | none => exact Fault.noConfusion
        | some q => exact List.length_set.trans hlen
    exact hcall.bind fun _ hr => hr
  | serialize => exact hlen
  | unserialize cp => exact cp.length_toList

theorem step_plain (hlen : ts.length = cpus) (he : e.Spares) :
    (ofPlain ts).step fits raw e = (Plain.step ts e).map ofPlain := by
  cases e with
  | call tid c =>
    unfold Objects.step Plain.step
    simp only [call_plain]
    cases Plain.call ts tid c with
    | error e => rfl
    | ok r => rfl
  | serialize =>
    obtain rfl := he.resolve_right fun ⟨_, _, h⟩ => by cases h
    obtain rfl := List.eq_nil_of_length_eq_zero hlen
    rfl
  | unserialize cp =>
    obtain rfl := he.resolve_right fun ⟨_, _, h⟩ => by cases h
    obtain rfl := List.eq_nil_of_length_eq_zero hlen
    show _ = Except.ok (ofPlain cp.toList)
    rw [List.eq_nil_of_length_eq_zero cp.length_toList]
    rfl

theorem run_plain : ∀ (es : List (Event H W cpus)) {ts : List (Tile H W)}, ts.length = cpus → (∀ e ∈ es, e.Spares) →
    run fits raw es (ofPlain ts) = (Plain.run es ts).map ofPlain ∧
      Outcome (· ≠ .deleted) (fun ts' => ts'.length = cpus) (Plain.run es ts)
  | [], _, hlen, _ => ⟨rfl, hlen⟩
  | e :: es, ts, hlen, hes => by
    have hspec := Plain.step_spec hlen e
    unfold run Plain.run
    rw [step_plain hlen (hes e List.mem_cons_self)]
    cases hp : Plain.step ts e with
    | error f =>
      rw [hp] at hspec
      exact ⟨rfl, hspec⟩
    | ok ts' =>
      rw [hp] at hspec
      exact run_plain es hspec fun e he => hes e (List.mem_cons_of_mem _ he)

theorem step_intact (hlen : ts.length = cpus) (he : e.Spares) : Intact fits raw (ofPlain ts) e := by
  have hstep : (ofPlain ts).step fits raw e = _ := step_plain hlen he
  refine ⟨?_, ?_, ?_⟩
  · rintro rfl
    exact ⟨_, hstep, rfl⟩
  · rintro cp rfl
    exact ⟨_, hstep, contents_plain _⟩
  · have hspec := Plain.step_spec hlen e
    rw [hstep]
    cases hp : Plain.step ts e with
    | error f =>
      rw [hp] at hspec
      exact fun h => hspec (Except.error.inj h)
    | ok ts' => exact fun h => by cases h

/-- With CPUs the others do not do what they are to do. -/
theorem Intact.spares (hlen : ts.length = cpus) (h : Intact fits raw (ofPlain ts) e) : e.Spares := by
  by_contra hno
  obtain ⟨hcpus, hcall⟩ := not_or.1 hno
  cases e with
  | call tid c => exact hcall ⟨tid, c, rfl⟩
  | serialize =>
    obtain ⟨s', hs', -⟩ := h.serialize rfl
    have hnil : ts ≠ [] := by
      rintro rfl
      exact hcpus hlen.symm
    cases (deleteTiles_plain hnil).symm.trans hs'
  | unserialize cp =>
    obtain ⟨s', hs', hcontents⟩ := h.unserialize cp rfl
    have hpush : pushTiles fits raw cpus (ofPlain ts) = _ := pushTiles_plain cpus ts
    obtain rfl : pushTiles fits raw cpus (ofPlain ts) = s' := Except.ok.inj hs'
    rw [hpush, contents_plain] at hcontents
    have hlength := congrArg List.length (Except.ok.inj hcontents)
    rw [List.length_append, List.length_replicate, cp.length_toList] at hlength
    omega

end Runs

/-- **Without checkpoints, or without CPUs, the cluster is a plain list of tiles, one for each CPU, and no deleted tile
is used; and in every state that is reached so, a call does what it is to do exactly if it is no `serialize` and no
`unserialize`, or there are no CPUs.** -/
theorem checkpoint_iff {cpus : Nat} (fits : W * H < 2147483648) (raw : Nat → RawTile H W)
    {es : List (Event H W cpus)} (hes : ∀ e ∈ es, e.Spares) :
    (run fits raw es (new fits raw cpus) >>= contents) = Plain.run es (List.replicate cpus (Tile.fresh fits)) ∧
      Outcome (· ≠ .deleted) (fun ts => ts.length = cpus) (Plain.run es (List.replicate cpus (Tile.fresh fits))) ∧
      ∀ s, run fits raw es (new fits raw cpus) = .ok s → ∀ e : Event H W cpus, Intact fits raw s e ↔ e.Spares := by
  obtain ⟨hrun, hlen⟩ : run fits raw es (ofPlain (List.replicate cpus (Tile.fresh fits))) = _ ∧ _ :=
    run_plain es List.length_replicate hes
  rw [new_plain, hrun]
  cases hplain : Plain.run es (List.replicate cpus (Tile.fresh fits)) with
  | error f =>
    rw [hplain] at hlen
    exact ⟨rfl, hlen, fun _ h => by cases h⟩
  | ok ts =>
    rw [hplain] at hlen
    refine ⟨contents_plain ts, hlen, fun s h e => ?_⟩
    cases h
    exact ⟨Intact.spares hlen, step_intact hlen⟩

/-- Memory that `new` returns. -/
def someRaw (H W : Nat) : RawTile H W :=
  ⟨Vector.replicate _ 7, Vector.replicate _ 7, Vector.replicate _ 7⟩

/-- Two CPUs and a call on the second tile, and then a `serialize`. -/
theorem checkpoint_iff_call : ∃ s : Objects 5 6,
    run (by decide) (fun _ => someRaw 5 6) [(.call 1 (.aimcQueueSingle 9) : Event 5 6 2)]
      (new (by decide) (fun _ => someRaw 5 6) 2) = .ok s ∧
    ¬ Intact (by decide) (fun _ => someRaw 5 6) s (.serialize : Event 5 6 2) := by
  refine ⟨_, rfl, fun hintact => ?_⟩
  have hes : ∀ e ∈ [(.call 1 (.aimcQueueSingle 9) : Event 5 6 2)], e.Spares :=
    fun e he => .inr ⟨1, .aimcQueueSingle 9, List.mem_singleton.1 he⟩
  obtain h | ⟨_, _, h⟩ := ((checkpoint_iff _ (fun _ => someRaw 5 6) hes).2.2 _ rfl _).1 hintact
  · cases h
  · cases h

theorem real_fits : 2000 * 2000 < 2147483648 := by
  omega

/-- For one CPU: a `serialize` is undefined, and an `unserialize` leaves two tiles. -/
theorem checkpoint_breaks : ∃ s, run real_fits (fun _ => someRaw 2000 2000) ([] : List (Event 2000 2000 1))
        (new real_fits (fun _ => someRaw 2000 2000) 1) = .ok s ∧
      s.serialize = .error .mismatch ∧
      ¬ Intact real_fits (fun _ => someRaw 2000 2000) s (.serialize : Event 2000 2000 1) ∧
      ∀ cp : Vector _ 1, ¬ Intact real_fits (fun _ => someRaw 2000 2000) s (.unserialize cp) := by
  have hno : ∀ e : Event 2000 2000 1, (∀ tid c, e ≠ .call tid c) →
      ¬ Intact real_fits (fun _ => someRaw 2000 2000) (ofPlain [Tile.fresh real_fits]) e := by
    intro e he h
    obtain h | ⟨tid, c, h⟩ := Intact.spares rfl h
    · cases h
    · exact he tid c h
  refine ⟨ofPlain [Tile.fresh real_fits], congrArg Except.ok new_plain, deleteTiles_plain (List.cons_ne_nil _ _), ?_,
    fun cp => ?_⟩
  · exact hno .serialize fun _ _ h => by cases h
  · exact hno (.unserialize cp) fun _ _ h => by cases h

end Alpine.Aimc.Cluster
