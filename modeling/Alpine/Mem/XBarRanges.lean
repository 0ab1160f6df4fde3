import Alpine.Base.AddrRangeLookup
import Alpine.Base.AddrRangeMerge

/-!
# The address ranges of a crossbar (`mem/xbar.cc`)

`BaseXBar` collects the ranges of the modules below it in `portMap` and advertises their union to the modules
above it.  A run is any sequence of range changes and of address lookups; it ends with the first call that
fails.

* `findPort`, `recvRangeChange` as in the source; `aggregate` is the last part of `recvRangeChange`.
* `aggregate_spec` — what is advertised is the default range and the entries of the map.
* `updateRanges_spec` — an update of a port removes its entries and no others.
* `allSeen_iff` — where the ranges are apart, only starts of interleavings are not seen.
* `ranges_routed` — in any run, the addresses that are advertised are those that are routed if and only if
  every entry outside the default range is seen by the lookup of its addresses.
-/

namespace Alpine.Mem.XBarRanges

open Alpine.Base

variable {n : Nat}

/-- `InvalidPortID` is `none`. -/
structure Config (n : Nat) where
  defaultPortID : Option (Fin n)
  useDefaultRange : Bool

structure State (n : Nat) where
  gotAddrRanges : Fin n → Bool := fun _ => false
  gotAllAddrRanges : Bool := false
  portMap : AddrRangeMap (Fin n) := {}
  defaultRange : AddrRange := .empty
  xbarRanges : List AddrRange := []

/-- How a call fails. -/
inductive Fault where
  | fatal (msg : String)
  | range (f : RangeFault)
  | merge (f : MergeFault)
  | assertion
  | invalidPort
  | endIterator

/-- The size of the cache of `portMap`. -/
def maxCacheSize : Nat := 3

variable (x : Config n) (s : State n)

/-! ## Lookups -/

def findPort (addr_range : AddrRange) : Except Fault (Option (Fin n) × State n) :=
  if !s.gotAllAddrRanges then .error .assertion
  else
    match s.portMap.contains maxCacheSize addr_range with
    | .error f => .error (.range f)
    | .ok (some i, portMap) => .ok (some i.second, { s with portMap := portMap })
    | .ok (none, portMap) =>
      if x.useDefaultRange then
        match addr_range.isSubset s.defaultRange with
        | .error f => .error (.range f)
        | .ok true => .ok (x.defaultPortID, { s with portMap := portMap })
        | .ok false => .error (.fatal "Unable to find destination for %s on %s\n")
      else if x.defaultPortID ≠ none then .ok (x.defaultPortID, { s with portMap := portMap })
      else .error (.fatal "Unable to find destination for %s on %s\n")

/-! ## Range changes -/

/-- The loop over `portMap` that erases the entries of the port. -/
def removeLoop (master_port_id : Fin n) :
    List (MapNode (Fin n)) → AddrRangeMap (Fin n) → Except Fault (AddrRangeMap (Fin n))
  | [], portMap => .ok portMap
  | p :: ps, portMap =>
    if p.second = master_port_id then do
      let portMap ← (portMap.erase p.id).mapError .range
      removeLoop master_port_id ps portMap
    else removeLoop master_port_id ps portMap

def removeEntries (master_port_id : Fin n) : Except Fault (AddrRangeMap (Fin n)) :=
  if s.gotAddrRanges master_port_id then removeLoop master_port_id s.portMap.tree s.portMap
  else .ok s.portMap

/-- The loop over the ranges of the port. -/
def insertLoop (master_port_id : Fin n) : List AddrRange → AddrRangeMap (Fin n) → Except Fault (AddrRangeMap (Fin n))
  | [], portMap => .ok portMap
  | r :: ranges, portMap =>
    match portMap.insert maxCacheSize r master_port_id with
    | .error f => .error (.range f)
    | .ok (some _, portMap) => insertLoop master_port_id ranges portMap
    | .ok (none, portMap) =>
      match portMap.intersects maxCacheSize r with
      | .error f => .error (.range f)
      | .ok (none, _) => .error .endIterator
      | .ok (some _, _) =>
        .error (.fatal "%s has two ports responding within range %s:\n\t%s\n\t%s\n")

/-- The ranges that the module below the port reports replace its earlier ones. -/
def updateRanges (master_port_id : Fin n) (ranges : List AddrRange) : Except Fault (State n) :=
  if x.defaultPortID = some master_port_id then
    if x.useDefaultRange then
      match ranges with
      | [r] => .ok { s with defaultRange := r }
      | _ => .error (.fatal "Crossbar %s may only have a single default range")
    else .ok s
  else do
    let portMap ← removeEntries s master_port_id
    let portMap ← insertLoop master_port_id ranges portMap
    return { s with portMap := portMap }

/-- A range is kept unless it is a subset of the default range. -/
def addRange (d r : AddrRange) (xbarRanges : List AddrRange) : Except Fault (List AddrRange) :=
  if x.useDefaultRange then
    match r.isSubset d with
    | .error f => .error (.range f)
    | .ok true => .ok xbarRanges
    | .ok false => .ok (xbarRanges ++ [r])
  else .ok (xbarRanges ++ [r])

def addMerged (d : AddrRange) (intlv_ranges xbarRanges : List AddrRange) : Except Fault (List AddrRange) := do
  let merged_range ← (AddrRange.merge intlv_ranges).mapError .merge
  addRange x d merged_range xbarRanges

/-- The loop over `portMap` that merges interleaved ranges. -/
def mergeRanges (d : AddrRange) :
    List (MapNode (Fin n)) → List AddrRange → List AddrRange → Except Fault (List AddrRange)
  | [], intlv_ranges, xbarRanges =>
    if intlv_ranges.isEmpty then .ok xbarRanges else addMerged x d intlv_ranges xbarRanges
  | r :: rs, intlv_ranges, xbarRanges =>
    if r.first.interleaved then
      if intlv_ranges.getLast?.any fun back => !back.mergesWith r.first then do
        let xbarRanges ← addMerged x d intlv_ranges xbarRanges
        mergeRanges d rs [r.first] xbarRanges
      else mergeRanges d rs (intlv_ranges ++ [r.first]) xbarRanges
    else do
      let xbarRanges ← addRange x d r.first xbarRanges
      mergeRanges d rs intlv_ranges xbarRanges

/-- No range intersects the default range without being a subset of it. -/
def checkDefault (d : AddrRange) : List AddrRange → Except Fault Unit
  | [] => .ok ()
  | r :: rs =>
    match r.intersects d with
    | .error f => .error (.range f)
    | .ok false => checkDefault d rs
    | .ok true =>
      match r.isSubset d with
      | .error f => .error (.range f)
      | .ok true => checkDefault d rs
      | .ok false => .error (.fatal "Range %s intersects the default range of %s but is not a subset\n")

def checkRanges (d : AddrRange) (xbarRanges : List AddrRange) : Except Fault Unit :=
  if x.useDefaultRange then checkDefault d xbarRanges else .ok ()

/-- The ranges to start with; without a default port the flag of port -1 would be read. -/
def defaultRanges : Except Fault (List AddrRange) :=
  if x.useDefaultRange then
    match x.defaultPortID with
    | none => .error .invalidPort
    | some p =>
      if !s.gotAddrRanges p then
        .error (.fatal "Crossbar %s uses default range, but none provided")
      else .ok [s.defaultRange]
  else .ok []

def aggregate : Except Fault (State n) := do
  let xbarRanges ← defaultRanges x s
  let xbarRanges ← mergeRanges x s.defaultRange s.portMap.tree [] xbarRanges
  checkRanges x s.defaultRange xbarRanges
  return { s with xbarRanges := xbarRanges }

/-- The port has reported. -/
def gotRanges (master_port_id : Fin n) : State n :=
  let gotAddrRanges := Function.update s.gotAddrRanges master_port_id true
  { s with
    gotAddrRanges := gotAddrRanges
    gotAllAddrRanges := s.gotAllAddrRanges || (List.finRange n).all gotAddrRanges }

/-- `ranges` is what the module below the port reports. -/
def recvRangeChange (master_port_id : Fin n) (ranges : List AddrRange) : Except Fault (State n) := do
  let s ← updateRanges x (gotRanges s master_port_id) master_port_id ranges
  if s.gotAllAddrRanges then aggregate x s else .ok s

/-! ## Runs -/

/-- A call of a neighbour. -/
inductive Call (n : Nat) where
  | recvRangeChange (master_port_id : Fin n) (ranges : List AddrRange)
  | findPort (addr_range : AddrRange)

/-- One call; `none` when it fails. -/
def step : Call n → Option (State n)
  | .recvRangeChange p ranges => (recvRangeChange x s p ranges).toOption
  | .findPort r => (findPort x s r).toOption.map (·.2)

/-- The address is in a range of the list. -/
def Has (rs : List AddrRange) (a : Nat) : Prop := ∃ r ∈ rs, r.contains a = true

/-- The address is in the default range, and that is used. -/
def InDefault (a : Nat) : Prop := x.useDefaultRange = true ∧ s.defaultRange.contains a = true

/-- The address is in an entry of the map. -/
def InMap (a : Nat) : Prop := ∃ e ∈ s.portMap.tree, e.first.contains a = true

/-- `findPort` returns for the address. -/
def Resolves (a : Nat) (ha : a < 2 ^ 64) : Prop := ∃ o s', findPort x s (.single a ha) = .ok (o, s')

/-- Every entry outside the default range is seen by the lookup of its addresses. -/
def AllSeen : Prop :=
  ∀ a (ha : a < 2 ^ 64), InMap s a → ¬ InDefault x s a → AddrRangeMap.Seen s.portMap a ha

variable {x s} {s' : State n} {p : Fin n} {ranges : List AddrRange} {d : AddrRange}

/-! ## What is advertised -/

theorem has_append {rs rs' : List AddrRange} {a : Nat} : Has (rs ++ rs') a ↔ Has rs a ∨ Has rs' a := by
  unfold Has
  simp only [List.mem_append, or_and_right, exists_or]

theorem has_singleton {r : AddrRange} {a : Nat} : Has [r] a ↔ r.contains a = true := by
  unfold Has
  simp only [List.mem_singleton, exists_eq_left]

theorem has_map {es : List (MapNode (Fin n))} {a : Nat} :
    Has (es.map (·.first)) a ↔ ∃ e ∈ es, e.first.contains a = true := by
  unfold Has
  simp only [List.mem_map, exists_exists_and_eq_and]

/-- The test of subsets of the default range is right. -/
def SoundDefault (x : Config n) (d : AddrRange) : Prop :=
  x.useDefaultRange = true → ∀ r : AddrRange, r.interleaved = false → r.isSubset d = .ok true →
    ∀ a, r.contains a = true → d.contains a = true

variable {xs xs' : List AddrRange}

/-- Ranges are added at the end. -/
theorem addRange_extends {r : AddrRange} (h : addRange x d r xs = .ok xs') : xs <+: xs' := by
  unfold addRange at h
  split at h
  · split at h
    · cases h
    · cases h
      exact List.prefix_refl _
    · cases h
      exact List.prefix_append _ _
  · cases h
    exact List.prefix_append _ _

theorem addRange_has (hd : SoundDefault x d) {r : AddrRange} (hr : r.interleaved = false)
    (hxs : x.useDefaultRange = true → d ∈ xs) (h : addRange x d r xs = .ok xs') (a : Nat) :
    Has xs' a ↔ Has xs a ∨ r.contains a = true := by
  unfold addRange at h
  split at h
  · rename_i huse
    split at h
    · cases h
    · rename_i hsub
      cases h
      refine ⟨.inl, fun h => ?_⟩
      rcases h with h | h
      · exact h
      · exact ⟨d, hxs huse, hd huse r hr hsub a h⟩
    · cases h
      rw [has_append, has_singleton]
  · cases h
    rw [has_append, has_singleton]

theorem addMerged_extends {intlv : List AddrRange} (h : addMerged x d intlv xs = .ok xs') : xs <+: xs' := by
  obtain ⟨r, -, h⟩ := bind_ok_iff.1 h
  exact addRange_extends h

/-- The interleaved ranges that wait to be merged. -/
structure Waiting (intlv : List AddrRange) : Prop where
  sorted : intlv.Pairwise fun r r' => r.lt r' = true
  interleaved : ∀ r ∈ intlv, r.interleaved = true

theorem addMerged_has (hd : SoundDefault x d) {intlv : List AddrRange} (hne : intlv ≠ []) (hw : Waiting intlv)
    (hxs : x.useDefaultRange = true → d ∈ xs) (h : addMerged x d intlv xs = .ok xs') (a : Nat) :
    Has xs' a ↔ Has xs a ∨ Has intlv a := by
  obtain ⟨r, hmerge, h⟩ := bind_ok_iff.1 h
  have hmerge := mapError_ok_iff.1 hmerge
  rw [addRange_has hd (AddrRange.merge_ok hmerge hne).1 hxs h,
    AddrRange.merge_contains hmerge hne hw.sorted hw.interleaved]
  exact Iff.rfl

theorem mergeRanges_extends : ∀ {es : List (MapNode (Fin n))} {intlv xs xs' : List AddrRange},
    mergeRanges x d es intlv xs = .ok xs' → xs <+: xs'
  | [], intlv, xs, xs', h => by
    unfold mergeRanges at h
    split at h
    · cases h
      exact List.prefix_refl _
    · exact addMerged_extends h
  | e :: es, intlv, xs, xs', h => by
    unfold mergeRanges at h
    split at h
    · split at h
      · obtain ⟨xs1, hadd, h⟩ := bind_ok_iff.1 h
        exact (addMerged_extends hadd).trans (mergeRanges_extends h)
      · exact mergeRanges_extends h
    · obtain ⟨xs1, hadd, h⟩ := bind_ok_iff.1 h
      exact (addRange_extends hadd).trans (mergeRanges_extends h)

/-- **The loop over the map keeps all addresses**: those of the ranges that it has, of those that wait, and of
the entries to come. -/
theorem mergeRanges_has (hd : SoundDefault x d) : ∀ {es : List (MapNode (Fin n))}
    {intlv xs xs' : List AddrRange}, Waiting intlv →
    (intlv ++ es.map (·.first)).Pairwise (fun r r' => r.lt r' = true) →
    (x.useDefaultRange = true → d ∈ xs) → mergeRanges x d es intlv xs = .ok xs' →
    ∀ a, Has xs' a ↔ Has xs a ∨ Has intlv a ∨ Has (es.map (·.first)) a
  | [], intlv, xs, xs', hw, _, hxs, h, a => by
    have hnil : ¬ Has ([].map fun e : MapNode (Fin n) => e.first) a := fun ⟨_, hr, _⟩ =>
      absurd hr List.not_mem_nil
    rw [or_iff_left hnil]
    unfold mergeRanges at h
    split at h
    · rename_i hempty
      cases h
      rw [List.isEmpty_iff.1 hempty]
      exact (or_iff_left fun ⟨r, hr, _⟩ => absurd hr List.not_mem_nil).symm
    · rename_i hne
      exact addMerged_has hd (fun h => hne (List.isEmpty_iff.2 h)) hw hxs h a
  | e :: es, intlv, xs, xs', hw, hsorted, hxs, h, a => by
    have hcons : Has ((e :: es).map (·.first)) a ↔ Has [e.first] a ∨ Has (es.map (·.first)) a := by
      rw [← has_append]
      exact Iff.rfl
    have hrest : ([e.first] ++ es.map (·.first)).Pairwise fun r r' => r.lt r' = true :=
      (List.pairwise_append.1 hsorted).2.1
    unfold mergeRanges at h
    split at h
    · rename_i hi
      split at h
      · -- the waiting ranges are merged, and this one starts a new group
        rename_i hback
        obtain ⟨xs1, hadd, h⟩ := bind_ok_iff.1 h
        have hne : intlv ≠ [] := by
          rintro rfl
          cases hback
        have hone : Waiting [e.first] := by
          refine ⟨List.pairwise_singleton _ _, fun r hr => ?_⟩
          rwa [List.mem_singleton.1 hr]
        rw [mergeRanges_has hd hone hrest (fun huse => (addMerged_extends hadd).subset (hxs huse)) h a,
          addMerged_has hd hne hw hxs hadd a, hcons, or_assoc]
      · have happ : intlv ++ (e :: es).map (·.first) = intlv ++ [e.first] ++ es.map (·.first) := by simp
        rw [happ] at hsorted
        have hmore : Waiting (intlv ++ [e.first]) := by
          refine ⟨(List.pairwise_append.1 hsorted).1, fun r hr => ?_⟩
          rcases List.mem_append.1 hr with hr | hr
          · exact hw.interleaved r hr
          · rwa [List.mem_singleton.1 hr]
        rw [mergeRanges_has hd hmore hsorted hxs h a, has_append, hcons, or_assoc]
    · rename_i hi
      obtain ⟨xs1, hadd, h⟩ := bind_ok_iff.1 h
      have hskip : (intlv ++ es.map (·.first)).Pairwise fun r r' => r.lt r' = true :=
        hsorted.sublist (List.Sublist.append_left (List.sublist_cons_self _ _) _)
      rw [mergeRanges_has hd hw hskip (fun huse => (addRange_extends hadd).subset (hxs huse)) h a,
        addRange_has hd (Bool.eq_false_iff.2 hi) hxs hadd a, hcons, has_singleton]
      tauto

/-- An interleaved default range that passes the check is of size 1. -/
theorem checkDefault_size : ∀ {rs : List AddrRange}, checkDefault d rs = .ok () → d ∈ rs →
    d.interleaved = true → d.start ≤ d.stop → d.size = 1
  | r :: rs, h, hmem, hi, hvalid => by
    unfold checkDefault at h
    rcases List.mem_cons.1 hmem with rfl | hmem
    · by_contra hsize
      have hmerges : d.mergesWith d = true := AddrRange.mergesWith_iff.2 ⟨rfl, rfl, rfl, rfl, rfl⟩
      have htest : d.intersects d = .ok true := by
        have hnear : (decide (d.start > d.stop) || decide (d.stop < d.start)) = false := by
          simpa using hvalid
        unfold AddrRange.intersects
        rw [hnear, hi, if_neg Bool.false_ne_true, if_neg hsize, hmerges]
        simp
      have hpanic : d.isSubset d = .error (.panic "Cannot test subset of interleaved range %s\n") := by
        unfold AddrRange.isSubset
        rw [hi, if_pos rfl]
      rw [htest] at h
      dsimp only at h
      rw [hpanic] at h
      cases h
    · split at h
      · cases h
      · exact checkDefault_size h hmem hi hvalid
      · split at h
        · cases h
        · exact checkDefault_size h hmem hi hvalid
        · cases h

theorem soundDefault_of_size (h : x.useDefaultRange = true → d.interleaved = true → d.start ≤ d.stop → d.size = 1) :
    SoundDefault x d := by
  intro huse r hr hsub a ha
  refine AddrRange.isSubset_sound hr (fun hi hvalid => ?_) hsub ha
  rw [h huse hi hvalid]
  decide

theorem defaultRanges_has (h : defaultRanges x s = .ok xs) :
    (x.useDefaultRange = true → s.defaultRange ∈ xs) ∧ ∀ a, Has xs a ↔ InDefault x s a := by
  unfold defaultRanges at h
  unfold InDefault
  split at h
  · rename_i huse
    split at h
    · cases h
    · split at h
      · cases h
      · cases h
        exact ⟨fun _ => List.mem_cons_self, fun a => by rw [has_singleton, and_iff_right huse]⟩
  · rename_i huse
    cases h
    exact ⟨fun h => absurd h huse, fun a => iff_of_false (fun ⟨r, hr, _⟩ => absurd hr List.not_mem_nil)
      fun h => huse h.1⟩

/-- **What is advertised is the default range and the entries of the map.** -/
theorem aggregate_spec (hsorted : s.portMap.tree.Pairwise fun e e' => e.first.lt e'.first = true)
    (h : aggregate x s = .ok s') :
    (∃ xs, s' = { s with xbarRanges := xs }) ∧
      ∀ a, Has s'.xbarRanges a ↔ InDefault x s a ∨ InMap s a := by
  obtain ⟨xs0, hdefault, h⟩ := bind_ok_iff.1 h
  obtain ⟨xs, hloop, h⟩ := bind_ok_iff.1 h
  obtain ⟨⟨⟩, hcheck, h⟩ := bind_ok_iff.1 h
  cases h
  refine ⟨⟨xs, rfl⟩, fun a => ?_⟩
  obtain ⟨hmem, hhas⟩ := defaultRanges_has hdefault
  have hd : SoundDefault x s.defaultRange := by
    refine soundDefault_of_size fun huse hi hvalid => ?_
    unfold checkRanges at hcheck
    rw [if_pos huse] at hcheck
    exact checkDefault_size hcheck ((mergeRanges_extends hloop).subset (hmem huse)) hi hvalid
  have hsorted' : (([] : List AddrRange) ++ s.portMap.tree.map (·.first)).Pairwise
      fun r r' => r.lt r' = true := List.pairwise_map.2 hsorted
  have hwait : Waiting [] := ⟨.nil, fun r hr => absurd hr List.not_mem_nil⟩
  rw [mergeRanges_has hd hwait hsorted' hmem hloop a, hhas a, has_map]
  refine or_congr_right (or_iff_right ?_)
  rintro ⟨r, hr, -⟩
  exact absurd hr List.not_mem_nil

/-! ## What an update does to the map -/

theorem removeLoop_spec : ∀ {es : List (MapNode (Fin n))} {m m' : AddrRangeMap (Fin n)},
    AddrRangeMap.Linked m → removeLoop p es m = .ok m' → AddrRangeMap.Linked m' ∧ m'.nextId = m.nextId ∧
      ∀ e, e ∈ m'.tree ↔ e ∈ m.tree ∧ ∀ e' ∈ es, e'.second = p → e.id ≠ e'.id
  | [], m, m', hm, h => by
    cases h
    exact ⟨hm, rfl, fun e => (and_iff_left fun e' he' => absurd he' List.not_mem_nil).symm⟩
  | q :: es, m, m', hm, h => by
    unfold removeLoop at h
    split at h
    · rename_i hq
      obtain ⟨m1, herase, h⟩ := bind_ok_iff.1 h
      have herase := mapError_ok_iff.1 herase
      obtain ⟨htree, -, hnext⟩ := AddrRangeMap.erase_cases herase
      obtain ⟨hl, hnext', hmem⟩ := removeLoop_spec (hm.erase herase) h
      refine ⟨hl, hnext'.trans hnext, fun e => ?_⟩
      rw [hmem, htree, List.mem_filter, decide_eq_true_eq, List.forall_mem_cons, and_assoc]
      exact and_congr_right fun _ => and_congr_left fun _ => ⟨fun h _ => h, fun h => h hq⟩
    · rename_i hq
      obtain ⟨hl, hnext, hmem⟩ := removeLoop_spec hm h
      refine ⟨hl, hnext, fun e => ?_⟩
      rw [hmem, List.forall_mem_cons]
      exact and_congr_right fun _ => (and_iff_right fun hq' => absurd hq' hq).symm

theorem removeLoop_tree {m m' : AddrRangeMap (Fin n)} (hm : AddrRangeMap.Linked m)
    (h : removeLoop p m.tree m = .ok m') :
    AddrRangeMap.Linked m' ∧ m'.nextId = m.nextId ∧ ∀ e, e ∈ m'.tree ↔ e ∈ m.tree ∧ e.second ≠ p := by
  obtain ⟨hl, hnext, hmem⟩ := removeLoop_spec hm h
  refine ⟨hl, hnext, fun e => ?_⟩
  rw [hmem]
  refine and_congr_right fun he => ⟨fun h hp => h e he hp rfl, fun hne e' he' hp hid => ?_⟩
  rw [List.inj_on_of_nodup_map hm.ids he he' hid] at hne
  exact hne hp

theorem insertLoop_spec : ∀ {rs : List AddrRange} {m m' : AddrRangeMap (Fin n)},
    AddrRangeMap.Linked m → insertLoop p rs m = .ok m' → AddrRangeMap.Linked m' ∧ AddrRangeMap.Grows p m m'
  | [], m, m', hm, h => by
    cases h
    exact ⟨hm, .refl p m⟩
  | r :: rs, m, m', hm, h => by
    unfold insertLoop at h
    split at h
    · cases h
    · rename_i hins
      obtain ⟨hl, hgrows⟩ := hm.insert hins
      obtain ⟨hl', hgrows'⟩ := insertLoop_spec hl h
      exact ⟨hl', hgrows.trans hgrows'⟩
    · split at h
      · cases h
      · cases h
      · cases h

/-- The entries of the port are replaced by new ones, and the others stay. -/
structure Replaced (p : Fin n) (m m' : AddrRangeMap (Fin n)) : Prop where
  earlier : ∀ e ∈ m.tree, e ∈ m'.tree ↔ e.second ≠ p
  new : ∀ e ∈ m'.tree, e ∈ m.tree ∨ e.second = p

/-- No entry belongs to the default port. -/
def NotDefault (x : Config n) (m : AddrRangeMap (Fin n)) : Prop :=
  ∀ e ∈ m.tree, x.defaultPortID ≠ some e.second

theorem updateRanges_spec (hgot : s.gotAddrRanges p = true) (hm : AddrRangeMap.Linked s.portMap)
    (hdefault : NotDefault x s.portMap) (h : updateRanges x s p ranges = .ok s') :
    (∃ m d, s' = { s with portMap := m, defaultRange := d }) ∧ AddrRangeMap.Linked s'.portMap ∧
      NotDefault x s'.portMap ∧ Replaced p s.portMap s'.portMap := by
  unfold updateRanges at h
  split at h
  · rename_i hp
    have hsame : Replaced p s.portMap s.portMap := by
      refine ⟨fun e he => iff_of_true he fun hep => ?_, fun e he => .inl he⟩
      rw [← hep] at hp
      exact hdefault e he hp
    split at h
    · split at h
      · cases h
        exact ⟨⟨_, _, rfl⟩, hm, hdefault, hsame⟩
      · cases h
    · cases h
      exact ⟨⟨_, _, rfl⟩, hm, hdefault, hsame⟩
  · rename_i hp
    obtain ⟨m1, hremove, h⟩ := bind_ok_iff.1 h
    obtain ⟨m2, hinsert, h⟩ := bind_ok_iff.1 h
    cases h
    unfold removeEntries at hremove
    rw [hgot, if_pos rfl] at hremove
    obtain ⟨hl1, hnext, hmem⟩ := removeLoop_tree hm hremove
    obtain ⟨hl2, hgrows⟩ := insertLoop_spec hl1 hinsert
    refine ⟨⟨_, _, rfl⟩, hl2, fun e he => ?_, fun e he => ⟨fun hin => ?_, fun hne => ?_⟩, fun e he => ?_⟩
    · rcases hgrows.new e he with hold | ⟨-, hep⟩
      · exact hdefault e ((hmem e).1 hold).1
      · rwa [hep]
    · -- an entry with an old name is none of the new ones
      rcases hgrows.new e hin with hold | ⟨hid, -⟩
      · exact ((hmem e).1 hold).2
      · have hfresh := hm.fresh e he
        omega
    · exact hgrows.kept e ((hmem e).2 ⟨he, hne⟩)
    · rcases hgrows.new e he with hold | ⟨-, hep⟩
      · exact .inl ((hmem e).1 hold).1
      · exact .inr hep

/-! ## The invariant -/

structure Inv (x : Config n) (s : State n) : Prop where
  linked : AddrRangeMap.Linked s.portMap
  notDefault : NotDefault x s.portMap
  all : (∃ q, s.gotAddrRanges q = true) → (∀ q, s.gotAddrRanges q = true) → s.gotAllAddrRanges = true
  none : (∀ q, s.gotAddrRanges q = false) → s.xbarRanges = [] ∧ s.gotAllAddrRanges = false
  advertised : s.gotAllAddrRanges = true → ∀ a, Has s.xbarRanges a ↔ InDefault x s a ∨ InMap s a

theorem inv_empty (x : Config n) : Inv x {} where
  linked := AddrRangeMap.linked_empty
  notDefault := fun _ he => absurd he List.not_mem_nil
  all := fun ⟨_, hq⟩ => (Bool.false_ne_true hq).elim
  none := fun _ => ⟨rfl, rfl⟩
  advertised := fun h => (Bool.false_ne_true h).elim

theorem gotRanges_all (h : ∀ q, (gotRanges s p).gotAddrRanges q = true) :
    (gotRanges s p).gotAllAddrRanges = true := by
  unfold gotRanges
  dsimp only
  rw [Bool.or_eq_true]
  exact .inr (List.all_eq_true.2 fun q _ => h q)

/-- **A range change replaces the entries of the port and keeps the invariant.** -/
theorem recvRangeChange_spec (hs : Inv x s) (h : recvRangeChange x s p ranges = .ok s') :
    Inv x s' ∧ Replaced p s.portMap s'.portMap := by
  obtain ⟨s1, hupdate, h⟩ := bind_ok_iff.1 h
  have hgot : (gotRanges s p).gotAddrRanges p = true := by
    unfold gotRanges
    exact Function.update_self ..
  obtain ⟨⟨m, d, hs1⟩, hl, hnot, hreplaced⟩ := updateRanges_spec hgot hs.linked hs.notDefault hupdate
  have hall : (∀ q, s1.gotAddrRanges q = true) → s1.gotAllAddrRanges = true := by
    rw [hs1]
    exact gotRanges_all
  have hsome : s1.gotAddrRanges p = true := by
    rw [hs1]
    exact hgot
  have hnone : ¬ ∀ q, s1.gotAddrRanges q = false := by
    intro hfalse
    rw [hfalse p] at hsome
    cases hsome
  split at h
  · obtain ⟨⟨xs, rfl⟩, hhas⟩ := aggregate_spec hl.sorted h
    exact ⟨⟨hl, hnot, fun _ => hall, fun hf => absurd hf hnone, fun _ => hhas⟩, hreplaced⟩
  · rename_i hnotAll
    cases h
    exact ⟨⟨hl, hnot, fun _ => hall, fun hf => absurd hf hnone, fun hf => absurd hf hnotAll⟩, hreplaced⟩

theorem findPort_spec (hs : Inv x s) {r : AddrRange} {o : Option (Fin n)} (h : findPort x s r = .ok (o, s')) :
    Inv x s' := by
  have hkeep : ∀ {o m}, s.portMap.contains maxCacheSize r = .ok (o, m) → Inv x { s with portMap := m } := by
    intro o m hfind
    obtain ⟨hl, htree, -⟩ := hs.linked.find hfind
    refine ⟨hl, fun e he => hs.notDefault e (htree ▸ he), hs.all, hs.none, fun hgot a => ?_⟩
    rw [hs.advertised hgot a]
    unfold InMap
    dsimp only
    rw [htree]
    exact Iff.rfl
  unfold findPort at h
  split at h
  · cases h
  · split at h
    · cases h
    · rename_i hfind
      cases h
      exact hkeep hfind
    · rename_i hfind
      split at h
      · split at h
        · cases h
        · cases h
          exact hkeep hfind
        · cases h
      · split at h
        · cases h
          exact hkeep hfind
        · cases h

theorem step_inv {c : Call n} (hs : Inv x s) (h : step x s c = some s') : Inv x s' := by
  cases c with
  | recvRangeChange p ranges => exact (recvRangeChange_spec hs (toOption_eq_some.1 h)).1
  | findPort r =>
    obtain ⟨⟨o, s1⟩, hfind, rfl⟩ := toOption_map_eq_some.1 h
    exact findPort_spec hs hfind

/-! ## What is routed -/

/-- **An address is routed if its entry is seen, or it is in the default range.** -/
theorem resolves_iff (hs : Inv x s) (hgot : s.gotAllAddrRanges = true)
    (hdef : x.defaultPortID = none ∨ x.useDefaultRange = true) {a : Nat} (ha : a < 2 ^ 64) :
    Resolves x s a ha ↔ AddrRangeMap.Seen s.portMap a ha ∨ InDefault x s a := by
  obtain ⟨o, m, hfind, hseen⟩ : ∃ o m, s.portMap.contains maxCacheSize (.single a ha) = .ok (o, m) ∧
      (o.isSome = true ↔ AddrRangeMap.Seen s.portMap a ha) := AddrRangeMap.contains_single hs.linked ha
  unfold Resolves findPort InDefault
  rw [hgot, hfind, AddrRange.single_isSubset, ← hseen]
  cases o with
  | some e => exact iff_of_true ⟨_, _, rfl⟩ (.inl rfl)
  | none =>
    simp only [Bool.not_true, Bool.false_eq_true, if_false, Option.isSome_none, false_or]
    split
    · rename_i huse
      cases s.defaultRange.contains a with
      | true => exact iff_of_true ⟨_, _, rfl⟩ ⟨huse, rfl⟩
      | false => exact iff_of_false (fun ⟨_, _, h⟩ => by cases h) fun h => Bool.false_ne_true h.2
    · rename_i huse
      rw [if_neg (not_not.2 (hdef.resolve_right huse))]
      exact iff_of_false (fun ⟨_, _, h⟩ => by cases h) fun h => huse h.1

theorem routed_iff (hs : Inv x s) (hall : ∀ q, s.gotAddrRanges q = true)
    (hdef : x.defaultPortID = none ∨ x.useDefaultRange = true) :
    (∀ a (ha : a < 2 ^ 64), Has s.xbarRanges a ↔ Resolves x s a ha) ↔ AllSeen x s := by
  cases hgot : s.gotAllAddrRanges with
  | true =>
    refine forall₂_congr fun a ha => ?_
    rw [hs.advertised hgot, resolves_iff hs hgot hdef]
    have hin : AddrRangeMap.Seen s.portMap a ha → InMap s a := fun ⟨e, he, hea, _⟩ => ⟨e, he, hea⟩
    constructor
    · intro h hmap hnot
      exact (h.1 (.inr hmap)).resolve_right hnot
    · intro h
      by_cases hd : InDefault x s a
      · exact iff_of_true (.inl hd) (.inr hd)
      · rw [or_iff_right hd, or_iff_left hd]
        exact ⟨fun hmap => h hmap hd, hin⟩
  | false =>
    -- there is no port at all
    have hnoPort : ∀ q, s.gotAddrRanges q = false := by
      intro q
      rw [hs.all ⟨q, hall q⟩ hall] at hgot
      cases hgot
    refine iff_of_true (fun a ha => ?_) fun a ha hmap => ?_
    · rw [(hs.none hnoPort).1]
      refine iff_of_false (fun ⟨r, hr, _⟩ => absurd hr List.not_mem_nil) ?_
      rintro ⟨o, s', h⟩
      unfold findPort at h
      rw [hgot] at h
      cases h
    · obtain ⟨e, -, -⟩ := hmap
      have hport := hall e.second
      rw [hnoPort] at hport
      cases hport

/-- Where the ranges are apart, the addresses that are not seen are starts of interleavings. -/
theorem allSeen_iff (hm : AddrRangeMap.Ordered s.portMap) :
    AllSeen x s ↔ ∀ a, a < 2 ^ 64 → AddrRangeMap.Hidden s.portMap a → InDefault x s a := by
  constructor
  · intro h a ha hhid
    have hmap : InMap s a := by
      obtain ⟨e, he, hea, -⟩ := hhid
      exact ⟨e, he, hea⟩
    by_contra hnot
    exact (AddrRangeMap.seen_iff_not_hidden hm ha hmap).1 (h a ha hmap hnot) hhid
  · intro h a ha hmap hnot
    exact (AddrRangeMap.seen_iff_not_hidden hm ha hmap).2 fun hhid => hnot (h a ha hhid)

/-- **The ranges that are advertised are those that are routed.**  In every state that any run reaches: once
all ports have reported, and if there is no default port or the default range is used, the addresses of
`xbarRanges` are those that `findPort` resolves if and only if every entry outside the default range is seen
by the lookup of its addresses; and an accepted update of a port removes the entries of that port and no
others. -/
theorem ranges_routed {x : Config n} {s : State n} (h : Run.Reaches (step x) (fun _ _ => True) {} s) :
    ((∀ q, s.gotAddrRanges q = true) → (x.defaultPortID = none ∨ x.useDefaultRange = true) →
      ((∀ a (ha : a < 2 ^ 64), Has s.xbarRanges a ↔ Resolves x s a ha) ↔ AllSeen x s)) ∧
    ∀ p ranges s', recvRangeChange x s p ranges = .ok s' → Replaced p s.portMap s'.portMap := by
  have hs : Inv x s := h.inv (inv_empty x) fun t c t' ht _ hstep => step_inv ht hstep
  exact ⟨routed_iff hs, fun p ranges s' hs' => (recvRangeChange_spec hs hs').2⟩

/-- A port moves its range, and the default port reports one. -/
theorem ranges_routed_moved : ∃ s : State 2,
    Run.Reaches (step ⟨some 1, true⟩) (fun _ _ => True) {} s ∧ s.xbarRanges.length = 2 ∧
      ∀ a (ha : a < 2 ^ 64), Has s.xbarRanges a ↔ Resolves ⟨some 1, true⟩ s a ha := by
  have h0 : Run.Reaches (step ⟨some 1, true⟩) (fun _ _ => True) ({} : State 2) {} := .refl
  have h1 := h0.step (i := .recvRangeChange 0 [AddrRangeMap.line 0 (by decide)]) trivial rfl
  have h2 := h1.step (i := .recvRangeChange 1 [AddrRangeMap.line 64 (by decide)]) trivial rfl
  have h3 := h2.step (i := .recvRangeChange 0 [AddrRangeMap.line 32 (by decide)]) trivial rfl
  refine ⟨_, h3, rfl, ((ranges_routed h3).1 (by decide) (.inr rfl)).2 fun a ha hmap _ => ?_⟩
  obtain ⟨e, he, hea⟩ := hmap
  refine ⟨e, he, hea, .inr ⟨fun _ e' he' _ => ?_, fun _ e' he' hlt => ?_⟩⟩
  · rw [List.mem_singleton.1 he', List.mem_singleton.1 he]
    rfl
  · rw [List.mem_singleton.1 he', List.mem_singleton.1 he] at hlt
    cases hlt

/-- Four stripes of one interleaving are advertised as one range, but the address at which it starts is in
stripe 2 and is not routed. -/
theorem start_not_routed : ∃ s : State 1,
    Run.Reaches (step ⟨none, false⟩) (fun _ _ => True) {} s ∧ (∀ q, s.gotAddrRanges q = true) ∧
      Has s.xbarRanges 64 ∧ ¬ Resolves ⟨none, false⟩ s 64 (by decide) := by
  have h0 : Run.Reaches (step ⟨none, false⟩) (fun _ _ => True) ({} : State 1) {} := .refl
  have h1 := h0.step (i := .recvRangeChange 0 [AddrRangeMap.quarter 0 (by decide),
    AddrRangeMap.quarter 1 (by decide), AddrRangeMap.quarter 2 (by decide), AddrRangeMap.quarter 3 (by decide)])
    trivial rfl
  refine ⟨_, h1, by decide, ⟨_, List.mem_cons_self, rfl⟩, ?_⟩
  rintro ⟨o, s', h⟩
  cases h

end Alpine.Mem.XBarRanges
