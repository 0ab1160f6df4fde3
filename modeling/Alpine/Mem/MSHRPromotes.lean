import Alpine.Mem.MSHRCalls

/-!
# The promotions that a response makes (`mem/cache/mshr.cc`, `mem/cache/base.cc`)

* `Promotes` — a response calls `promoteReadable` or `promoteWritable` on an MSHR; the heap is the one the
  call finds.
* `Entry.moved` — what the call moves; `Entry.Promoted.targets`, `Entry.Promoted.deferred` — and what it
  leaves on the two lists.
* `promotions_rule`, `service_calls` — rules for the calls before and in the service loop.
* `allocateTarget_cases` — a request is deferred, or joins the list of a request that is no maintenance
  operation.
-/

namespace Alpine.Mem.MSHR

open Alpine Alpine.Mem

variable {n : Nat} {h h' : Heap n} {m : Fin n} {e e' : Entry n} {r : Resp}

/-! ## The calls -/

/-- A promotion is one of `promoteWritable`, or else of `promoteReadable`. -/
def Entry.promoting (e : Entry n) (writable : Bool) : Bool :=
  if writable then e.promotes else e.promotesReadable

def Pkt.moves (pkt : Pkt n) (writable : Bool) : Bool := if writable then pkt.promotable else pkt.readable

/-- The deferred targets that a promotion moves. -/
def Entry.moved (e : Entry n) (writable : Bool) : List (Target n) :=
  if e.promoting writable then e.deferredTargets.list.takeWhile fun t => t.pkt.moves writable else []

/-- The first promotion of a response. -/
def promoteFirst (r : Resp) (m : Fin n) (h : Heap n) : Except Failure (Heap n) :=
  if r.readable then promoteReadable m h else .ok h

/-- `recvTimingResp` makes a promotion on the heap `g`. -/
inductive Promotes (r : Resp) (m : Fin n) (h : Heap n) : Bool → Heap n → Prop where
  | readable (hr : r.readable = true) : Promotes r m h false h
  | writable {h1 : Heap n} (hfirst : promoteFirst r m h = .ok h1) (hw : r.writable = true) :
      Promotes r m h true h1
  | line {h2 g : Heap n} {ready : TargetList n} {e : Entry n} {pre post : List (Target n)} {t : Target n}
      (hpromote : promotions r m h = .ok h2)
      (hextract : extractServiceableTargets r.cmd (h2 m) = .ok (ready, e))
      (hready : ready.list = pre ++ t :: post)
      (hbefore : pre.foldlM (serviceTarget r m) (h2.set m e) = .ok g)
      (hcpu : t.source = .FromCPU) (hline : t.pkt.cmd = .WriteLineReq) (herror : r.isError = false) :
      Promotes r m h true g

theorem promotions_eq : promotions r m h = (do
    let h1 ← promoteFirst r m h
    if r.writable then promoteWritable m h1 else .ok h1) := rfl

/-! ## What a promotion moves -/

theorem take_prefixLength (e : Entry n) (f : Pkt n → Bool) :
    e.deferredTargets.list.take (e.prefixLength f) = e.deferredTargets.list.takeWhile fun t => f t.pkt :=
  (List.prefix_iff_eq_take.1 (List.takeWhile_prefix _)).symm

theorem drop_prefixLength (e : Entry n) (f : Pkt n → Bool) :
    e.deferredTargets.list.drop (e.prefixLength f) = e.deferredTargets.list.dropWhile fun t => f t.pkt := by
  have hsplit := e.deferredTargets.list.takeWhile_append_dropWhile (p := fun t => f t.pkt)
  unfold Entry.prefixLength
  nth_rewrite 2 [← hsplit]
  exact List.drop_left' rfl

theorem Entry.Promoted.targets {f : Pkt n → Bool} {b : Bool} (hp : e.Promoted e' f b) :
    e'.targets.list = (e.targets.list ++ e.deferredTargets.list.takeWhile fun t => f t.pkt).map
      Target.unmark := by
  rw [hp.eq, List.map_append, ← take_prefixLength, List.map_take]
  rfl

theorem Entry.Promoted.deferred {f : Pkt n → Bool} {b : Bool} (hp : e.Promoted e' f b) :
    e'.deferredTargets.list = (e.deferredTargets.list.dropWhile fun t => f t.pkt).map Target.unmark := by
  rw [hp.eq, ← drop_prefixLength, List.map_drop]
  exact populateFlags_list _

/-- A promotion stops at the first cache invalidate. -/
theorem moved_invalidate {b : Bool} {t : Target n} (ht : t ∈ e.moved b) : t.pkt.isCacheInvalidate = false := by
  unfold Entry.moved at ht
  split at ht
  · have hmoves : t.pkt.moves b = true :=
      List.mem_takeWhile_imp (p := fun t : Target n => t.pkt.moves b) ht
    unfold Pkt.moves at hmoves
    split at hmoves
    · simpa [Pkt.promotable] using hmoves
    · simp only [Pkt.readable, Bool.and_eq_true, Bool.not_eq_true'] at hmoves
      exact hmoves.1
  · cases ht

/-! ## Rules -/

variable {P : Entry n → Prop}

theorem promotions_rule (hP : Blind P) (hm : P (h m))
    (hstep : ∀ b g e, Promotes r m h b g → P (g m) → (g m).promoting b = true →
      (g m).Promoted e (fun pkt => pkt.moves b) b → P e) (hok : promotions r m h = .ok h') : P (h' m) := by
  rw [promotions_eq] at hok
  obtain ⟨h1, hfirst, hok⟩ := bind_ok_iff.1 hok
  have h1P : P (h1 m) := by
    have hfirst' := hfirst
    unfold promoteFirst at hfirst'
    split at hfirst'
    · rename_i hr
      exact promoteReadable_rule hP hm (fun e hyes hp => hstep false h e (.readable hr) hm hyes hp) hfirst'
    · cases hfirst'
      exact hm
  split at hok
  · rename_i hw
    exact promoteWritable_rule hP h1P
      (fun e hyes hp => hstep true h1 e (.writable hfirst hw) h1P hyes hp) hok
  · cases hok
    exact h1P

/-- The promotions in the service loop. -/
theorem service_calls (hP : Blind P) : ∀ {ts : List (Target n)} {h h' : Heap n},
    (∀ pre t post g e, ts = pre ++ t :: post → pre.foldlM (serviceTarget r m) h = .ok g →
      t.source = .FromCPU → t.pkt.cmd = .WriteLineReq → r.isError = false → P (g m) →
      (g m).promotes = true → (g m).Promoted e Pkt.promotable true → P e) →
    ts.foldlM (serviceTarget r m) h = .ok h' → P (h m) → P (h' m)
  | [], h, h', _, hok, hm => by
    cases hok
    exact hm
  | t :: ts, h, h', hstep, hok, hm => by
    rw [List.foldlM_cons] at hok
    obtain ⟨h1, hfirst, hrest⟩ := bind_ok_iff.1 hok
    refine service_calls hP (fun pre u post g e hts hbefore => ?_) hrest ?_
    · refine hstep (t :: pre) u post g e (by rw [hts]; rfl) ?_
      rw [List.foldlM_cons]
      exact bind_ok_iff.2 ⟨h1, hfirst, hbefore⟩
    · rcases serviceTarget_cases hfirst with rfl | ⟨hcpu, hline, herror, hpromote⟩
      · exact hm
      · exact promoteWritable_rule hP hm
          (fun e hyes hp => hstep [] t ts h e rfl rfl hcpu hline herror hm hyes hp) hpromote

theorem allocateTarget_cases {pkt : Pkt n} {a : Bool} (hok : allocateTarget m pkt a h = .ok h') :
    ∃ front rest, (h m).targets.list = front :: rest ∧
      ((defers (h m) front.pkt pkt = true ∧ ∃ pkt', (pkt' = pkt ∨ pkt' = replaceUpgrade pkt) ∧
          h'.bare = h.bare.set m ((h m).bare.push .deferredTargets ⟨pkt', .FromCPU, false, a⟩)) ∨
        (defers (h m) front.pkt pkt = false ∧
          h'.bare = h.bare.set m ((h m).bare.push .targets ⟨pkt, .FromCPU, false, a⟩))) := by
  unfold allocateTarget at hok
  obtain ⟨_, -, hok⟩ := bind_ok_iff.1 hok
  cases hl : (h m).targets.list with
  | nil =>
    rw [hl] at hok
    cases hok
  | cons front rest =>
    rw [hl] at hok
    refine ⟨front, rest, rfl, ?_⟩
    dsimp only at hok
    split at hok
    · rename_i hdefers
      refine .inl ⟨hdefers, _, ?_, add_bare hok⟩
      split
      · exact .inr rfl
      · exact .inl rfl
    · rename_i hdefers
      exact .inr ⟨Bool.eq_false_iff.2 hdefers, add_bare hok⟩

/-! ## Deferred targets after a response -/

/-- The first element that meets `p` is where `findIdx` says. -/
theorem head?_drop_findIdx {α : Type} (p : α → Bool) (l : List α) :
    ∀ a ∈ (l.drop (l.findIdx p)).head?, p a = true := by
  induction l with
  | nil => exact fun a ha => (nomatch ha)
  | cons b l ih =>
    intro a ha
    rw [List.findIdx_cons] at ha
    cases hp : p b with
    | true =>
      rw [hp] at ha
      obtain rfl := Option.some.inj ha
      exact hp
    | false =>
      rw [hp] at ha
      exact ih a ha

/-- `promoteDeferredTargets` stops at the first maintenance operation, or moves one to an empty list. -/
theorem promoteDeferredTargets_moves (e : Entry n) : ∃ k,
    (promoteDeferredTargets e).2.targets.list = e.targets.list ++ e.deferredTargets.list.take k ∧
    (promoteDeferredTargets e).2.deferredTargets.list = e.deferredTargets.list.drop k ∧
    (((∀ t ∈ e.deferredTargets.list.take k, t.pkt.isCacheMaintenance = false) ∧
        ∀ t ∈ (e.deferredTargets.list.drop k).head?, t.pkt.isCacheMaintenance = true) ∨
      (e.targets.list = [] ∧ ∃ t, e.deferredTargets.list.take k = [t] ∧ t.pkt.isCacheMaintenance = true)) := by
  unfold promoteDeferredTargets
  split
  · rename_i hempty
    rw [Bool.and_eq_true, List.isEmpty_iff, List.isEmpty_iff] at hempty
    refine ⟨0, (List.append_nil _).symm, rfl, .inl ⟨fun t ht => absurd ht List.not_mem_nil, ?_⟩⟩
    rw [hempty.2]
    exact fun t ht => (nomatch ht)
  · rename_i hempty
    refine ⟨_, populateFlags_list _, populateFlags_list _, ?_⟩
    have hhead := head?_drop_findIdx (fun t : Target n => t.pkt.isCacheMaintenance) e.deferredTargets.list
    split
    · rename_i hfirst
      rw [hfirst, List.drop_zero] at hhead
      split
      · rename_i hnil
        cases hd : e.deferredTargets.list with
        | nil => exact absurd (by rw [hnil, hd]; rfl) hempty
        | cons t ts =>
          rw [hd] at hhead
          exact .inr ⟨List.isEmpty_iff.1 hnil, t, rfl, hhead t rfl⟩
      · exact .inl ⟨fun t ht => absurd ht List.not_mem_nil, hhead⟩
    · exact .inl ⟨fun t ht => List.false_of_mem_take_findIdx
        (p := fun t : Target n => t.pkt.isCacheMaintenance) ht, hhead⟩

end Alpine.Mem.MSHR
