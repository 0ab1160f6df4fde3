import Alpine.Mem.TargetLimit

/-!
# The limit on targets over a run

* `Inv` — the limit, and that a cache with a full MSHR waits for that MSHR; `Inv.step` — what one call does.
* `Held.step` — nothing but a response ends the wait.
* `limited_iff` — the limit is kept in every run whose misses meet no saved snoop where they are the last
  that fits, and whose caches take more than one target; and the first miss that is not such breaks it.
* `limit_stepped_over` — a snoop that is saved between two misses.
-/

namespace Alpine.Mem.TargetLimit

open Alpine Alpine.Mem Alpine.Mem.MSHR Alpine.Run

variable {κ : Type} [DecidableEq κ] {n : Nat} {cfg : Config κ n} {σ σ' : Caches κ n} {k : κ} {m : Fin n}
  {h h' : Heap n}

/-- The cache of an MSHR is blocked for it. -/
def Held (cfg : Config κ n) (σ : Caches κ n) (m : Fin n) : Prop :=
  σ.blocked (cfg.cache m) .Blocked_NoTargets = true ∧ σ.noTargetMSHR (cfg.cache m) = some m

/-- Requests are in front, an MSHR that takes one target never fills up, and a cache that waits for no MSHR is
not blocked for targets. -/
structure Base (cfg : Config κ n) (σ : Caches κ n) : Prop where
  fronted : ∀ m, (σ.heap m).Fronted
  single : ∀ k, cfg.numTarget k = 1 → σ.noTargetMSHR k = none
  idle : ∀ k, σ.noTargetMSHR k = none → σ.blocked k .Blocked_NoTargets = false

structure Inv (cfg : Config κ n) (σ : Caches κ n) : Prop extends Base cfg σ where
  room : ∀ m, requests (σ.heap m) ≤ cfg.numTarget (cfg.cache m)
  held : ∀ m, requests (σ.heap m) = cfg.numTarget (cfg.cache m) → Held cfg σ m

omit [DecidableEq κ] in
theorem Inv.limited (hi : Inv cfg σ) : Limited cfg σ := fun m => ⟨hi.room m, fun heq => (hi.held m heq).1⟩

omit [DecidableEq κ] in
theorem Held.quiet (hh : Held cfg σ m) (hq : Quiet σ σ') : Held cfg σ' m :=
  ⟨(hq.noTargets _).trans hh.1, (congrFun hq.noTargetMSHR _).trans hh.2⟩

omit [DecidableEq κ] in
theorem Base.quiet (hb : Base cfg σ) (hq : Quiet σ σ') (hf : ∀ m, (σ'.heap m).Fronted) : Base cfg σ' := by
  refine ⟨hf, fun k hone => ?_, fun k hnone => ?_⟩
  · rw [hq.noTargetMSHR]
    exact hb.single k hone
  · rw [hq.noTargets]
    exact hb.idle k (hq.noTargetMSHR ▸ hnone)

omit [DecidableEq κ] in
theorem Inv.quiet (hi : Inv cfg σ) (hq : Quiet σ σ') (hf : ∀ m, (σ'.heap m).Fronted)
    (hle : ∀ x, requests (σ'.heap x) ≤ requests (σ.heap x)) : Inv cfg σ' := by
  refine ⟨hi.toBase.quiet hq hf, fun x => (hle x).trans (hi.room x), fun x heq => ?_⟩
  exact (hi.held x (le_antisymm (hi.room x) (heq ▸ hle x))).quiet hq

theorem Held.other {x : Fin n} {b : Bool} {w : Option (Fin n)} (hh : Held cfg σ x) (hk : cfg.cache x ≠ k)
    (hset : Quiet ((σ.setNoTargetMSHR k w).setCause k .Blocked_NoTargets b) σ') : Held cfg σ' x := by
  refine Held.quiet ⟨?_, ?_⟩ hset
  · exact (congrFun (Function.update_of_ne hk ..) _).trans hh.1
  · exact (Function.update_of_ne hk ..).trans hh.2

/-! ## One call -/

theorem coalesce_cases {numTarget : κ → Nat} {pkt : Pkt n} {a : Bool}
    (hok : coalesce numTarget k m pkt a σ = .ok σ') : allocateTarget m pkt a σ.heap = .ok σ'.heap ∧
      ((getNumTargets (σ'.heap m) = numTarget k ∧
          σ' = ((σ.setHeap σ'.heap).setNoTargetMSHR k (some m)).setBlocked k .Blocked_NoTargets) ∨
        (getNumTargets (σ'.heap m) ≠ numTarget k ∧ σ' = σ.setHeap σ'.heap)) := by
  unfold coalesce at hok
  obtain ⟨h, hallocate, hok⟩ := bind_ok_iff.1 hok
  split at hok
  · rename_i hfull
    cases hok
    exact ⟨hallocate, .inl ⟨hfull, rfl⟩⟩
  · rename_i hroom
    cases hok
    exact ⟨hallocate, .inr ⟨hroom, rfl⟩⟩

theorem Inv.joins {pkt : Pkt n} {a : Bool} (hi : Inv cfg σ) (hk : cfg.cache m = k)
    (hfree : σ.isBlocked k = false) (hok : coalesce cfg.numTarget k m pkt a σ = .ok σ') : Base cfg σ' ∧
      ((requests (σ.heap m) + 1 = cfg.numTarget k → snoops (σ.heap m) = 0) → Inv cfg σ') ∧
      (Limited cfg σ' → requests (σ.heap m) + 1 = cfg.numTarget k → snoops (σ.heap m) = 0) := by
  subst hk
  obtain ⟨hallocate, hcases⟩ := coalesce_cases hok
  obtain ⟨hcount, hsnoops, hpos, honly⟩ := allocateTarget_requests (hi.fronted m) hallocate
  have hnone : σ.blocked (cfg.cache m) .Blocked_NoTargets = false := by
    unfold Caches.isBlocked at hfree
    exact (Bool.or_eq_false_iff.1 hfree).2
  have htotal : getNumTargets (σ'.heap m) = requests (σ.heap m) + 1 + snoops (σ.heap m) := by
    rw [getNumTargets_eq, hcount, hsnoops]
  have hother : ∀ x, x ≠ m → requests (σ'.heap x) = requests (σ.heap x) := fun x hx =>
    requests_onlyAt honly hx
  -- no MSHR of this cache is full before
  have hroom : ∀ x, cfg.cache x = cfg.cache m → requests (σ.heap x) < cfg.numTarget (cfg.cache m) := by
    intro x hx
    have hbound := hi.room x
    rw [hx] at hbound
    refine lt_of_le_of_ne hbound fun heq => ?_
    have hblocked := (hi.held x (by rw [hx, heq])).1
    rw [hx] at hblocked
    exact Bool.false_ne_true (hnone.symm.trans hblocked)
  have hf : ∀ x, (σ'.heap x).Fronted :=
    fronted_blind.forall honly (allocateTarget_fronted (hi.fronted m) hallocate) hi.fronted
  have hbound : ∀ x, requests (σ'.heap x) ≤ cfg.numTarget (cfg.cache x) := by
    intro x
    by_cases hx : x = m
    · rw [hx, hcount]
      exact hroom m rfl
    · rw [hother x hx]
      exact hi.room x
  rcases hcases with ⟨hfull, hσ'⟩ | ⟨hne, hσ'⟩
  · -- the target that was added is the last one
    have hq : Quiet
        ((σ.setNoTargetMSHR (cfg.cache m) (some m)).setCause (cfg.cache m) .Blocked_NoTargets true) σ' := by
      rw [hσ']
      exact ⟨fun _ => rfl, rfl⟩
    have hwaits : Held cfg σ' m := by
      refine ⟨(hq.noTargets _).trans (setCause_blocked ..), ?_⟩
      rw [hq.noTargetMSHR]
      exact Function.update_self ..
    have hbase : Base cfg σ' := by
      refine ⟨hf, fun k hone => ?_, fun k hidle => ?_⟩
      · have hk : k ≠ cfg.cache m := by
          rintro rfl
          omega
        rw [hq.noTargetMSHR]
        exact (Function.update_of_ne hk ..).trans (hi.single k hone)
      · have hk : k ≠ cfg.cache m := by
          rintro rfl
          exact Option.some_ne_none m (hwaits.2.symm.trans hidle)
        rw [hq.noTargets]
        rw [hq.noTargetMSHR] at hidle
        refine (congrFun (Function.update_of_ne hk ..) _).trans (hi.idle k ?_)
        exact (Function.update_of_ne hk ..).symm.trans hidle
    refine ⟨hbase, fun _ => ⟨hbase, hbound, fun x heq => ?_⟩, fun _ hlast => by omega⟩
    by_cases hx : x = m
    · rw [hx]
      exact hwaits
    · rw [hother x hx] at heq
      have hc : cfg.cache x ≠ cfg.cache m := fun hc => (hroom x hc).ne (hc ▸ heq)
      exact (hi.held x heq).other hc hq
  · have hq : Quiet σ σ' := by
      rw [hσ']
      exact .setHeap σ _
    have hbase := hi.toBase.quiet hq hf
    refine ⟨hbase, fun hlast => ⟨hbase, hbound, fun x heq => ?_⟩, fun hl hlast => ?_⟩
    · by_cases hx : x = m
      · subst hx
        rw [hcount] at heq
        have hzero := hlast heq
        exact absurd (by omega) hne
      · rw [hother x hx] at heq
        exact (hi.held x heq).quiet hq
    · have hblocked := (hl m).2 (by rw [hcount, hlast])
      rw [hq.noTargets] at hblocked
      exact absurd (hnone.symm.trans hblocked) Bool.false_ne_true

omit [DecidableEq κ] in
theorem Inv.opens {pkt : Pkt n} {a : Bool} (hN : ∀ k, 1 ≤ cfg.numTarget k) (hi : Inv cfg σ)
    (hq : Quiet σ σ') (hok : allocate m pkt a σ.heap = .ok σ'.heap) :
    Base cfg σ' ∧ (cfg.numTarget (cfg.cache m) ≠ 1 → Inv cfg σ') ∧
      (Limited cfg σ' → cfg.numTarget (cfg.cache m) ≠ 1) := by
  obtain ⟨hone, honly⟩ := allocate_requests hok
  have hpos := hN (cfg.cache m)
  have hf : ∀ x, (σ'.heap x).Fronted :=
    fronted_blind.forall honly (allocate_fronted (hi.fronted m) hok) hi.fronted
  have hbase := hi.toBase.quiet hq hf
  refine ⟨hbase, fun hN1 => ⟨hbase, fun x => ?_, fun x heq => ?_⟩, fun hl hN1 => ?_⟩
  · by_cases hx : x = m
    · rw [hx, hone]
      exact hpos
    · rw [requests_onlyAt honly hx]
      exact hi.room x
  · by_cases hx : x = m
    · subst hx
      rw [hone] at heq
      exact absurd heq.symm hN1
    · rw [requests_onlyAt honly hx] at heq
      exact (hi.held x heq).quiet hq
  · have hblocked := (hl m).2 (by rw [hone, hN1])
    have hidle := hbase.idle _ (hbase.single _ hN1)
    exact Bool.false_ne_true (hidle.symm.trans hblocked)

theorem recvTimingSnoopReq_requests {pkt : Pkt n} (hf : ∀ x, (h x).Fronted)
    (hok : recvTimingSnoopReq m pkt h = .ok h') : (∀ x, requests (h' x) = requests (h x)) ∧ ∀ x, (h' x).Fronted := by
  unfold recvTimingSnoopReq at hok
  split at hok
  · cases hok
    exact ⟨fun _ => rfl, hf⟩
  · split at hok
    · cases hok
      exact ⟨fun _ => rfl, hf⟩
    · obtain ⟨r, hsnoop, hok⟩ := bind_ok_iff.1 hok
      cases hok
      obtain ⟨e', hbare, -⟩ := handleSnoop_bare hsnoop
      refine ⟨handleSnoop_requests hsnoop, ?_⟩
      exact fronted_blind.forall (.of_bare hbare) (handleSnoop_fronted (hf m) hsnoop) hf

/-- What a response does to the wait of its cache. -/
theorem recvTimingResp_done {r : Resp} {drained : Bool} (hok : recvTimingResp (cfg.cache m) r m drained σ = .ok σ') :
    MSHR.recvTimingResp r m σ.heap = .ok σ'.heap ∧ ((σ.noTargetMSHR (cfg.cache m) = some m ∧
          Quiet ((σ.setNoTargetMSHR (cfg.cache m) none).setCause (cfg.cache m) .Blocked_NoTargets false) σ') ∨
        (σ.noTargetMSHR (cfg.cache m) ≠ some m ∧ Quiet σ σ')) := by
  unfold recvTimingResp Caches.unblock at hok
  split at hok
  · rename_i hm
    obtain ⟨h, hresp, hok⟩ := bind_ok_iff.1 hok
    cases hok
    split
    · exact ⟨hresp, .inl ⟨hm, (Quiet.setHeap _ h).trans (.setCause _ _ false (by decide))⟩⟩
    · exact ⟨hresp, .inl ⟨hm, .setHeap _ h⟩⟩
  · rename_i hm
    obtain ⟨h, hresp, hok⟩ := bind_ok_iff.1 hok
    cases hok
    split
    · exact ⟨hresp, .inr ⟨hm, (Quiet.setHeap σ h).trans (.setCause _ _ false (by decide))⟩⟩
    · exact ⟨hresp, .inr ⟨hm, .setHeap σ h⟩⟩

/-- A response to the MSHR that has no room unblocks its cache, and makes room. -/
theorem Inv.responds {r : Resp} {drained : Bool} (hi : Inv cfg σ)
    (hok : recvTimingResp (cfg.cache m) r m drained σ = .ok σ') : Inv cfg σ' := by
  obtain ⟨hresp, hcases⟩ := recvTimingResp_done hok
  have hless := recvTimingResp_requests (hi.fronted m) hresp
  have honly := recvTimingResp_onlyAt hresp
  have hle : ∀ x, requests (σ'.heap x) ≤ requests (σ.heap x) := by
    intro x
    by_cases hx : x = m
    · rw [hx]
      exact hless.le
    · exact (requests_onlyAt honly hx).le
  have hf : ∀ x, (σ'.heap x).Fronted :=
    fronted_blind.forall honly (recvTimingResp_fronted (hi.fronted m) hresp) hi.fronted
  rcases hcases with ⟨hm, hq⟩ | ⟨-, hq⟩
  · have hnone : σ'.noTargetMSHR (cfg.cache m) = none := by
      rw [hq.noTargetMSHR]
      exact Function.update_self ..
    refine ⟨⟨hf, fun k hone => ?_, fun k hidle => ?_⟩, fun x => (hle x).trans (hi.room x), fun x heq => ?_⟩
    · by_cases hk : k = cfg.cache m
      · rw [hk]
        exact hnone
      · rw [hq.noTargetMSHR]
        exact (Function.update_of_ne hk ..).trans (hi.single k hone)
    · rw [hq.noTargets]
      by_cases hk : k = cfg.cache m
      · rw [hk]
        exact setCause_blocked ..
      · rw [hq.noTargetMSHR] at hidle
        refine (congrFun (Function.update_of_ne hk ..) _).trans (hi.idle k ?_)
        exact (Function.update_of_ne hk ..).symm.trans hidle
    · -- a full MSHR is one of another cache: this cache waited for the MSHR that is served
      have hheld := hi.held x (le_antisymm (hi.room x) (heq ▸ hle x))
      have hc : cfg.cache x ≠ cfg.cache m := by
        intro hc
        have hxm : x = m := by
          have hx := hheld.2
          rw [hc, hm] at hx
          exact (Option.some.inj hx).symm
        rw [hxm] at heq
        exact absurd (heq ▸ hless) (not_lt.2 (hi.room m))
      exact hheld.other hc hq
  · exact hi.quiet hq hf hle

def Effect.At (cfg : Config κ n) (k : κ) : Effect n → Prop
  | .none => True
  | .joins m => cfg.cache m = k
  | .opens m => cfg.cache m = k

omit [DecidableEq κ] in
/-- A miss concerns the MSHRs of its own cache. -/
theorem missEffect_cache (σ : Caches κ n) {q : Found n} (hmine : ∀ m, q.mshr = some m → cfg.cache m = k)
    (hfree : cfg.cache q.free = k) (pkt : Pkt n) : (missEffect σ k pkt q).At cfg k := by
  unfold missEffect
  split
  · trivial
  · split
    · split
      · trivial
      · exact hfree
    · split
      · rename_i m hm
        split
        · trivial
        · exact hmine m hm
      · split
        · trivial
        · exact hfree

/-- **Step lemma.**  A call that fits keeps the invariant, and one that does not breaks the limit. -/
theorem Inv.step {c : Call κ n} (hN : ∀ k, 1 ≤ cfg.numTarget k) (hi : Inv cfg σ) (hc : c.ok cfg σ)
    (hstep : step cfg σ c = some σ') : (c.fits cfg σ → Inv cfg σ') ∧ (Limited cfg σ' → c.fits cfg σ) := by
  have hok : c.run cfg σ = .ok σ' := toOption_eq_some.1 hstep
  cases c with
  | recvTimingReq k pkt q =>
    obtain ⟨hexpress, hmine, hfree⟩ := hc
    have hdone := recvTimingReq_done hexpress hok
    have hat := missEffect_cache σ hmine hfree pkt
    unfold Call.fits Call.effect
    dsimp only
    cases heffect : missEffect σ k pkt q with
    | none =>
      rw [heffect] at hdone
      obtain ⟨hheap, hq⟩ := hdone
      refine ⟨fun _ => hi.quiet hq (fun x => ?_) fun x => ?_, fun _ => trivial⟩
      · rw [hheap]
        exact hi.fronted x
      · rw [hheap]
    | joins m =>
      rw [heffect] at hdone hat
      obtain ⟨hblocked, pkt', a, hcoalesce⟩ := hdone
      have hk : cfg.cache m = k := hat
      dsimp only
      rw [hk]
      exact (hi.joins hk hblocked hcoalesce).2
    | opens m =>
      rw [heffect] at hdone
      obtain ⟨hq, pkt', a, hallocate⟩ := hdone
      exact (hi.opens hN hq hallocate).2
  | prefetch k pkt q =>
    obtain ⟨hq, pkt', a, hallocate⟩ := allocateMissBuffer_done hok
    exact (hi.opens hN hq hallocate).2
  | sendMSHRQueuePacket m q drained =>
    obtain ⟨h, hsend, hok⟩ := bind_ok_iff.1 hok
    obtain ⟨hle, hf⟩ := sendMSHRQueuePacket_requests hi.fronted hc hsend
    refine ⟨fun _ => ?_, fun _ => trivial⟩
    cases hok
    split
    · exact hi.quiet ((Quiet.setHeap σ h).trans (.setCause _ _ false (by decide))) hf hle
    · exact hi.quiet (.setHeap σ h) hf hle
  | recvTimingSnoopReq m pkt =>
    obtain ⟨h, hsnoop, hok⟩ := bind_ok_iff.1 hok
    obtain ⟨hcount, hf⟩ := recvTimingSnoopReq_requests hi.fronted hsnoop
    cases hok
    exact ⟨fun _ => hi.quiet (.setHeap σ h) hf fun x => (hcount x).le, fun _ => trivial⟩
  | recvTimingResp r m drained => exact ⟨fun _ => hi.responds hok, fun _ => trivial⟩
  | writeBuffer k full =>
    cases hok
    exact ⟨fun _ => hi.quiet (.setCause σ k full (by decide)) hi.fronted fun _ => le_rfl, fun _ => trivial⟩

/-! ## How long a cache is blocked -/

def Call.responds (m : Fin n) : Call κ n → Prop
  | .recvTimingResp _ m' _ => m' = m
  | _ => False

theorem Held.step {c : Call κ n} (hh : Held cfg σ m) (hc : c.ok cfg σ) (hno : ¬ c.responds m)
    (hstep : step cfg σ c = some σ') : Held cfg σ' m := by
  have hok : c.run cfg σ = .ok σ' := toOption_eq_some.1 hstep
  cases c with
  | recvTimingReq k pkt q =>
    have hdone := recvTimingReq_done hc.1 hok
    cases heffect : missEffect σ k pkt q with
    | none =>
      rw [heffect] at hdone
      exact hh.quiet hdone.2
    | joins m' =>
      rw [heffect] at hdone
      obtain ⟨hblocked, pkt', a, hcoalesce⟩ := hdone
      -- a blocked cache takes no miss, so this is another one
      have hk : cfg.cache m ≠ k := by
        rintro rfl
        unfold Caches.isBlocked at hblocked
        exact Bool.false_ne_true ((Bool.or_eq_false_iff.1 hblocked).2.symm.trans hh.1)
      obtain ⟨-, ⟨-, heq⟩ | ⟨-, heq⟩⟩ := coalesce_cases hcoalesce
      · refine hh.other hk (b := true) (w := some m') ?_
        rw [heq]
        exact ⟨fun _ => rfl, rfl⟩
      · rw [heq]
        exact hh
    | opens m' =>
      rw [heffect] at hdone
      exact hh.quiet hdone.1
  | prefetch k pkt q => exact hh.quiet (allocateMissBuffer_done hok).1
  | sendMSHRQueuePacket m' q drained =>
    obtain ⟨h, -, hok⟩ := bind_ok_iff.1 hok
    cases hok
    split
    · exact hh.quiet ((Quiet.setHeap σ h).trans (.setCause _ _ false (by decide)))
    · exact hh
  | recvTimingSnoopReq m' pkt =>
    obtain ⟨h, -, hok⟩ := bind_ok_iff.1 hok
    cases hok
    exact hh
  | recvTimingResp r m' drained =>
    obtain ⟨-, ⟨hm', hq⟩ | ⟨-, hq⟩⟩ := recvTimingResp_done hok
    · refine hh.other (fun hk => hno ?_) hq
      rw [← hk] at hm'
      exact Option.some.inj (hm'.symm.trans hh.2)
    · exact hh.quiet hq
  | writeBuffer k full =>
    cases hok
    exact hh.quiet (.setCause σ k full (by decide))

/-! ## The limit in every run -/

omit [DecidableEq κ] in
theorem init_inv (hN : ∀ k, 1 ≤ cfg.numTarget k) : Inv cfg (Caches.init : Caches κ n) := by
  refine ⟨⟨fun m => new_fronted, fun _ _ => rfl, fun _ _ => rfl⟩, fun m => Nat.zero_le _, fun m heq => ?_⟩
  have hpos := hN (cfg.cache m)
  have hzero : 0 = cfg.numTarget (cfg.cache m) := heq
  omega

/-- **The limit on targets.**  It is kept in every run whose misses fit; an MSHR that has reached it keeps its
cache blocked until a response comes; and the next call keeps it exactly if it fits: a miss that is the last
to fit meets no saved snoop, and no MSHR is opened where one target is the limit. -/
theorem limited_iff (cfg : Config κ n) (hN : ∀ k, 1 ≤ cfg.numTarget k)
    (hrun : Reaches (step cfg) (fun σ c => c.ok cfg σ ∧ c.fits cfg σ) Caches.init σ) : Limited cfg σ ∧
    (∀ m σ', requests (σ.heap m) = cfg.numTarget (cfg.cache m) →
      Reaches (step cfg) (fun σ c => c.ok cfg σ ∧ ¬ c.responds m) σ σ' →
        σ'.blocked (cfg.cache m) .Blocked_NoTargets = true) ∧
    ∀ c σ', c.ok cfg σ → step cfg σ c = some σ' → (Limited cfg σ' ↔ c.fits cfg σ) := by
  have hi : Inv cfg σ := hrun.inv (init_inv hN) fun _ _ _ hi hc hstep => (hi.step hN hc.1 hstep).1 hc.2
  refine ⟨hi.limited, fun m σ' hfull hlater => ?_, fun c σ' hc hstep => ?_⟩
  · have hheld : Held cfg σ' m := hlater.inv (P := fun σ => Held cfg σ m) (hi.held m hfull)
      fun _ _ _ hh hc hstep => hh.step hc.1 hc.2 hstep
    exact hheld.1
  · obtain ⟨hkeeps, hfits⟩ := hi.step hN hc hstep
    exact ⟨hfits, fun h => (hkeeps h).limited⟩

/-! ### A cache with one MSHR that takes two targets -/

local instance neZeroOne : NeZero 1 := ⟨one_ne_zero⟩

def twoTargets : Config Unit 1 := ⟨fun _ => (), fun _ => 2⟩

theorem writeMiss_isRequest : MemCmd.WriteReq.testCmdAttrib .IsRequest = true := rfl
theorem readMiss_isRequest : MemCmd.ReadReq.testCmdAttrib .IsRequest = true := rfl
theorem readSnoop_isRequest : MemCmd.ReadSharedReq.testCmdAttrib .IsRequest = true := rfl

def writeMiss (mshr : Option (Fin 1)) : Call Unit 1 :=
  .recvTimingReq () { cmd := .WriteReq, isRequest := writeMiss_isRequest, mshr := none }
    ⟨mshr, 0, true, false⟩

def readMiss : Call Unit 1 :=
  .recvTimingReq () { cmd := .ReadReq, isRequest := readMiss_isRequest, mshr := none }
    ⟨some 0, 0, true, false⟩

def sent : Call Unit 1 := .sendMSHRQueuePacket 0 ⟨false, false, false, false, false, some false⟩ false

def readSnoop : Call Unit 1 :=
  .recvTimingSnoopReq 0 { cmd := .ReadSharedReq, isRequest := readSnoop_isRequest, mshr := none }

/-- Two misses without a snoop between them block the cache. -/
theorem limited_iff_two : ∃ σ : Caches Unit 1,
    Reaches (step twoTargets) (fun σ c => c.ok twoTargets σ ∧ c.fits twoTargets σ) Caches.init σ ∧
    requests (σ.heap 0) = 2 ∧ Limited twoTargets σ ∧
    (∀ m σ', requests (σ.heap m) = twoTargets.numTarget (twoTargets.cache m) →
      Reaches (step twoTargets) (fun σ c => c.ok twoTargets σ ∧ ¬ c.responds m) σ σ' →
        σ'.blocked (twoTargets.cache m) .Blocked_NoTargets = true) ∧
    ∀ c σ', c.ok twoTargets σ → step twoTargets σ c = some σ' → (Limited twoTargets σ' ↔ c.fits twoTargets σ) := by
  have hmine : ∀ q : Found 1, ∀ m, q.mshr = some m → twoTargets.cache m = () := fun _ _ _ => rfl
  have h0 : Reaches (step twoTargets) (fun σ c => c.ok twoTargets σ ∧ c.fits twoTargets σ)
    (Caches.init : Caches Unit 1) Caches.init := .refl
  have h1 := h0.step (i := writeMiss none)
    ⟨⟨fun he => Bool.noConfusion he, hmine _, rfl⟩, (by decide : (2 : Nat) ≠ 1)⟩ rfl
  have h2 := h1.step (i := sent) ⟨rfl, trivial⟩ rfl
  have h3 := h2.step (i := readMiss)
    ⟨⟨fun he => Bool.noConfusion he, hmine _, rfl⟩, fun _ => rfl⟩ rfl
  exact ⟨_, h3, by decide, limited_iff twoTargets (fun _ => one_le_two) h3⟩

/-- **The limit is stepped over.**  A snoop is saved between the two misses: the MSHR has three targets, and
the cache takes a third miss. -/
theorem limit_stepped_over : ∃ σ σ' : Caches Unit 1,
    Reaches (step twoTargets) (fun σ c => c.ok twoTargets σ) Caches.init σ ∧
    requests (σ.heap 0) = 2 ∧ σ.blocked () .Blocked_NoTargets = false ∧ ¬ Limited twoTargets σ ∧
    step twoTargets σ readMiss = some σ' ∧ requests (σ'.heap 0) = 3 := by
  have hmine : ∀ q : Found 1, ∀ m, q.mshr = some m → twoTargets.cache m = () := fun _ _ _ => rfl
  have h0 : Reaches (step twoTargets) (fun σ c => c.ok twoTargets σ)
    (Caches.init : Caches Unit 1) Caches.init := .refl
  have h1 := h0.step (i := writeMiss none) ⟨fun he => Bool.noConfusion he, hmine _, rfl⟩ rfl
  have h2 := h1.step (i := sent) rfl rfl
  have h3 := h2.step (i := readSnoop) trivial rfl
  have h4 := h3.step (i := readMiss) ⟨fun he => Bool.noConfusion he, hmine _, rfl⟩ rfl
  refine ⟨_, _, h4, by decide, by decide, fun hl => ?_, rfl, by decide⟩
  exact absurd ((hl 0).2 (by decide)) (by decide)

end Alpine.Mem.TargetLimit
