import Alpine.Mem.SnoopFilterRun

/-!
# The entries of the snoop filter

* `refused_restores` — a request that will be sent again leaves `cachedLocations` as it was: the entry that
  `lookupRequest` made is erased, and the one that it found gets its value back.
* `Filled` — the invariant: every entry has a requested or a holder bit, and its bits are those of ports.
* `Filled.request`, `Filled.snoop`, `Filled.snoopResponse`, `Filled.snoopForward`, `Filled.response` — each
  operation keeps it, whether or not its packet answers a request.
* `filter_entries` — after any sequence of operations the entries are those of the lines that some port
  requested or may hold.
-/

namespace Alpine.Mem

open Alpine.Run SnoopFilter

variable {p : SnoopFilterParams}

/-! ## Masks of ports -/

/-- The bits of the mask are those of ports. -/
def OfPorts (ports : SlavePorts) (m : SnoopMask) : Prop :=
  ∀ id, m.getLsbD id = true → ∃ q, ports.localId q = some id

theorem ofPorts_zero (ports : SlavePorts) : OfPorts ports 0 := fun id h => by simp at h

theorem ofPorts_portToMask (ports : SlavePorts) (q : ports.Port) : OfPorts ports (ports.portToMask q) := by
  intro id hid
  unfold SlavePorts.portToMask at hid
  cases hq : ports.localId q with
  | none => simp [hq] at hid
  | some id' =>
    have htwo : (1#64 <<< id') = BitVec.twoPow 64 id' := rfl
    simp only [hq, htwo, BitVec.getLsbD_twoPow, Bool.and_eq_true, decide_eq_true_eq] at hid
    exact ⟨q, by rw [hq, hid.2]⟩

variable {ports : SlavePorts}

theorem OfPorts.or {m m' : SnoopMask} (h : OfPorts ports m) (h' : OfPorts ports m') : OfPorts ports (m ||| m') := by
  intro id hid
  rw [BitVec.getLsbD_or, Bool.or_eq_true] at hid
  exact hid.elim (h id) (h' id)

theorem OfPorts.and {m : SnoopMask} (h : OfPorts ports m) (m' : SnoopMask) : OfPorts ports (m &&& m') := by
  intro id hid
  rw [BitVec.getLsbD_and, Bool.and_eq_true] at hid
  exact h id hid.1

theorem OfPorts.ne_zero_iff {m : SnoopMask} (h : OfPorts ports m) : m ≠ 0 ↔ ∃ q, HasBit ports m q := by
  constructor
  · intro hne
    by_contra hno
    refine hne (BitVec.eq_of_getLsbD_eq fun id hlt => ?_)
    rw [BitVec.ofNat_eq_ofNat, BitVec.getLsbD_zero, Bool.eq_false_iff]
    intro hbit
    obtain ⟨q, hq⟩ := h id hbit
    exact hno ⟨q, (hasBit_iff _ _ _).2 ⟨id, hq, hbit⟩⟩
  · rintro ⟨q, hq⟩ rfl
    exact not_hasBit_zero _ q hq

/-! ## Items -/

/-- The bits of the item are those of ports. -/
structure SnoopItem.OfPorts (ports : SlavePorts) (it : SnoopItem) : Prop where
  requested : Mem.OfPorts ports it.requested
  holder : Mem.OfPorts ports it.holder

theorem SnoopItem.ofPorts_empty (ports : SlavePorts) : ({} : SnoopItem).OfPorts ports :=
  ⟨ofPorts_zero _, ofPorts_zero _⟩

variable {cpkt : CohPacket} {port : p.ports.Port}

theorem SnoopItem.OfPorts.track {it it' : SnoopItem} (h : it.OfPorts p.ports)
    (htrack : track cpkt (p.ports.portToMask port) it = .ok it') : it'.OfPorts p.ports := by
  unfold SnoopFilter.track at htrack
  split at htrack
  · split at htrack
    · split at htrack
      · cases htrack
      · cases htrack
        exact ⟨h.requested.or (ofPorts_portToMask _ _), h.holder⟩
    · split at htrack
      · cases htrack
      · cases htrack
        exact h
  · split at htrack
    · cases htrack
    · split at htrack
      · cases htrack
      · split at htrack
        · cases htrack
          exact ⟨h.requested, h.holder.and _⟩
        · cases htrack
          exact h

theorem SnoopItem.OfPorts.tracks {it it' : SnoopItem} (h : it.OfPorts p.ports)
    (htracks : tracks cpkt port it it') : it'.OfPorts p.ports := by
  unfold Mem.tracks at htracks
  split at htracks
  · exact h.track htracks
  · rw [htracks]
    exact h

/-! ## A request that is sent again -/

variable {s : SnoopFilter}

theorem eraseIfNullEntry_congr {t : SnoopFilter} (h : s.cachedLocations = t.cachedLocations) (k : Nat) :
    (s.eraseIfNullEntry k).cachedLocations = (t.eraseIfNullEntry k).cachedLocations := by
  unfold SnoopFilter.eraseIfNullEntry
  rw [h]
  split
  · exact h
  · split
    · rfl
    · exact h

variable {s' : SnoopFilter} {snoops : Snoops p}

/-- Both operations of a request: an entry is put, and erased if it is empty. -/
theorem request_locations (h : s.lookupRequest cpkt port = .ok (s', snoops)) (will_retry : Bool) :
    ∃ s'', s'.finishRequest p will_retry cpkt.addr cpkt.isSecure = .ok s'' ∧
      (s''.cachedLocations = s.cachedLocations ∨
        ∃ it, s''.cachedLocations = ((s.put (lineAddr p cpkt.addr cpkt.isSecure) it).eraseIfNullEntry
            (lineAddr p cpkt.addr cpkt.isSecure)).cachedLocations ∧
          if will_retry then it = s.item (lineAddr p cpkt.addr cpkt.isSecure)
          else tracks cpkt port (s.item (lineAddr p cpkt.addr cpkt.isSecure)) it) := by
  unfold SnoopFilter.finishRequest
  rcases lookupRequest_locations h with ⟨hres, hsame, -⟩ | ⟨it, hres, hretry, hput, htracks, -⟩
  · rw [hres]
    exact ⟨s', rfl, .inl hsame⟩
  · rw [hres]
    dsimp only
    rw [if_neg (fun hne => hne rfl)]
    refine ⟨_, rfl, .inr ?_⟩
    cases will_retry with
    | true =>
      refine ⟨_, eraseIfNullEntry_congr ?_ _, rfl⟩
      rw [hretry]
      unfold SnoopFilter.put
      rw [hput]
      exact Finmap.insert_insert _
    | false => exact ⟨it, eraseIfNullEntry_congr hput _, htracks⟩

/-- Putting back what a key has, and erasing it if it is empty, changes nothing. -/
theorem put_item_erase {k : Nat} (h : s.cachedLocations.lookup k ≠ some {}) :
    ((s.put k (s.item k)).eraseIfNullEntry k).cachedLocations = s.cachedLocations := by
  unfold SnoopFilter.eraseIfNullEntry SnoopFilter.put SnoopFilter.item
  rw [Finmap.lookup_insert]
  dsimp only
  cases hfind : s.cachedLocations.lookup k with
  | none =>
    rw [Option.getD_none, if_pos (by decide)]
    refine Finmap.ext_lookup fun k' => ?_
    by_cases hk : k' = k
    · rw [hk, Finmap.lookup_erase, hfind]
    · rw [Finmap.lookup_erase_ne hk, Finmap.lookup_insert_of_ne _ hk]
  | some it =>
    have hne : ¬ it.requested ||| it.holder = 0 := by
      intro hnull
      obtain ⟨hreq, hhold⟩ := BitVec.or_eq_zero_iff.1 hnull
      obtain ⟨requested, holder⟩ := it
      subst hreq
      subst hhold
      exact h hfind
    rw [Option.getD_some, if_neg hne]
    refine Finmap.ext_lookup fun k' => ?_
    by_cases hk : k' = k
    · rw [hk, Finmap.lookup_insert, hfind]
    · rw [Finmap.lookup_insert_of_ne _ hk]

/-- A refused request changes the bits of no line, and no entry unless the line's was empty before. -/
theorem refused_restores (h : s.lookupRequest cpkt port = .ok (s', snoops)) :
    ∃ s'', s'.finishRequest p true cpkt.addr cpkt.isSecure = .ok s'' ∧ (∀ k, s''.item k = s.item k) ∧
      (s.cachedLocations.lookup (lineAddr p cpkt.addr cpkt.isSecure) ≠ some {} →
        s''.cachedLocations = s.cachedLocations) := by
  obtain ⟨s'', hfinish, hlocations⟩ := request_locations h true
  refine ⟨s'', hfinish, fun k => ?_, fun hne => ?_⟩
  · obtain ⟨it, hitem, hit⟩ := request_spec h hfinish
    rw [hitem]
    split
    · rename_i hk
      rw [hk]
      exact hit
    · rfl
  · rcases hlocations with hsame | ⟨it, hput, hit⟩
    · exact hsame
    · have hit : it = s.item (lineAddr p cpkt.addr cpkt.isSecure) := hit
      rw [hput, hit]
      exact put_item_erase hne

/-! ## The invariant -/

/-- Every entry has a bit, and its bits are those of ports. -/
def Filled (ports : SlavePorts) (s : SnoopFilter) : Prop :=
  ∀ k it, s.cachedLocations.lookup k = some it → it.requested ||| it.holder ≠ 0 ∧ it.OfPorts ports

theorem filled_init (ports : SlavePorts) : Filled ports {} := by
  intro k it h
  rw [show (({} : SnoopFilter).cachedLocations) = ∅ from rfl, Finmap.lookup_empty] at h
  cases h

theorem Filled.congr {t : SnoopFilter} (h : Filled ports s) (heq : t.cachedLocations = s.cachedLocations) :
    Filled ports t := by
  unfold Filled
  rw [heq]
  exact h

theorem Filled.item (h : Filled ports s) (k : Nat) : (s.item k).OfPorts ports := by
  unfold SnoopFilter.item
  cases hfind : s.cachedLocations.lookup k with
  | none => exact SnoopItem.ofPorts_empty ports
  | some it => exact (h k it hfind).2

theorem Filled.put (h : Filled ports s) {k : Nat} {it : SnoopItem} (hne : it.requested ||| it.holder ≠ 0)
    (hports : it.OfPorts ports) : Filled ports (s.put k it) := by
  intro k' it' hfind
  unfold SnoopFilter.put at hfind
  by_cases hk : k' = k
  · rw [hk, Finmap.lookup_insert] at hfind
    cases hfind
    exact ⟨hne, hports⟩
  · rw [Finmap.lookup_insert_of_ne _ hk] at hfind
    exact h k' it' hfind

/-- What `eraseIfNullEntry` is for: any entry may be written before it. -/
theorem Filled.put_erase (h : Filled ports s) {k : Nat} {it : SnoopItem} (hports : it.OfPorts ports) :
    Filled ports ((s.put k it).eraseIfNullEntry k) := by
  unfold SnoopFilter.eraseIfNullEntry
  have hfind : (s.put k it).cachedLocations.lookup k = some it := Finmap.lookup_insert _
  rw [hfind]
  dsimp only
  split
  · intro k' it' hfind'
    unfold SnoopFilter.put at hfind'
    dsimp only at hfind'
    by_cases hk : k' = k
    · rw [hk, Finmap.lookup_erase] at hfind'
      cases hfind'
    · rw [Finmap.lookup_erase_ne hk, Finmap.lookup_insert_of_ne _ hk] at hfind'
      exact h k' it' hfind'
  · rename_i hne
    exact h.put hne hports

/-- The entries are those of the lines that a port requested or may hold. -/
theorem Filled.mem_iff (h : Filled ports s) (k : Nat) : k ∈ s.cachedLocations ↔
      ∃ q, HasBit ports (s.item k).requested q ∨ HasBit ports (s.item k).holder q := by
  unfold SnoopFilter.item
  cases hfind : s.cachedLocations.lookup k with
  | none =>
    refine ⟨fun hmem => absurd hmem (Finmap.lookup_eq_none.1 hfind), ?_⟩
    rintro ⟨q, hq | hq⟩
    · exact absurd hq (not_hasBit_zero _ q)
    · exact absurd hq (not_hasBit_zero _ q)
  | some it =>
    obtain ⟨hne, hports⟩ := h k it hfind
    obtain ⟨q, hq⟩ := (hports.requested.or hports.holder).ne_zero_iff.1 hne
    refine ⟨fun _ => ⟨q, hasBit_or.1 hq⟩, fun _ => ?_⟩
    rw [Finmap.mem_iff]
    exact ⟨it, hfind⟩

/-! ## Every operation keeps it -/

theorem Filled.request {s'' : SnoopFilter} (h : Filled p.ports s) {will_retry : Bool}
    (hlookup : s.lookupRequest cpkt port = .ok (s', snoops))
    (hfinish : s'.finishRequest p will_retry cpkt.addr cpkt.isSecure = .ok s'') : Filled p.ports s'' := by
  obtain ⟨t, ht, hlocations⟩ := request_locations hlookup will_retry
  rw [hfinish] at ht
  cases ht
  rcases hlocations with hsame | ⟨it, hput, hit⟩
  · exact h.congr hsame
  · refine (h.put_erase ?_).congr hput
    split at hit
    · rw [hit]
      exact h.item _
    · exact (h.item _).tracks hit

theorem Filled.snoop (h : Filled p.ports s) (hlookup : s.lookupSnoop cpkt = .ok (s', snoops)) :
    Filled p.ports s' := by
  unfold SnoopFilter.lookupSnoop at hlookup
  split at hlookup
  · cases hlookup
  · dsimp only at hlookup
    split at hlookup
    · split at hlookup
      · cases hlookup
      · cases hlookup
        exact h
    · rename_i it hfind
      split at hlookup
      · cases hlookup
      · cases hlookup
        refine h.put_erase ?_
        split
        · exact ⟨(h _ it hfind).2.requested, ofPorts_zero _⟩
        · exact (h _ it hfind).2

theorem Filled.snoopResponse (h : Filled p.ports s) {rsp_port req_port : p.ports.Port}
    (hupdate : s.updateSnoopResponse cpkt rsp_port req_port = .ok s') : Filled p.ports s' := by
  rcases updateSnoopResponse_spec hupdate with ⟨-, rfl⟩ | ⟨htracked, rfl⟩
  · exact h
  · have hsnooping : p.ports.snooping req_port = true := by
      simp only [tracked, Bool.and_eq_true] at htracked
      exact htracked.2
    have hbit : HasBit p.ports (p.ports.portToMask req_port) req_port := hasBit_portToMask.2 ⟨rfl, hsnooping⟩
    have hitem := h.item (lineAddr p cpkt.addr cpkt.isSecure)
    have hports : SnoopItem.OfPorts p.ports
        ⟨(s.item (lineAddr p cpkt.addr cpkt.isSecure)).requested &&& ~~~p.ports.portToMask req_port,
          (if !cpkt.hasSharers then 0 else (s.item (lineAddr p cpkt.addr cpkt.isSecure)).holder) |||
            p.ports.portToMask req_port⟩ := by
      refine ⟨hitem.requested.and _, OfPorts.or ?_ (ofPorts_portToMask _ _)⟩
      split
      · exact ofPorts_zero _
      · exact hitem.holder
    refine h.put ?_ hports
    exact (hports.requested.or hports.holder).ne_zero_iff.2
      ⟨req_port, hasBit_or.2 (.inr (hasBit_or.2 (.inr hbit)))⟩

theorem Filled.snoopForward (h : Filled p.ports s) (hupdate : s.updateSnoopForward p cpkt = .ok s') :
    Filled p.ports s' := by
  unfold SnoopFilter.updateSnoopForward at hupdate
  split at hupdate
  · cases hupdate
  · dsimp only at hupdate
    split at hupdate
    · cases hupdate
      exact h
    · rename_i it hfind
      cases hupdate
      refine h.put_erase ?_
      split
      · exact ⟨(h _ it hfind).2.requested, ofPorts_zero _⟩
      · exact (h _ it hfind).2

theorem Filled.response (h : Filled p.ports s) (hupdate : s.updateResponse cpkt port = .ok s') :
    Filled p.ports s' := by
  unfold SnoopFilter.updateResponse at hupdate
  split at hupdate
  · cases hupdate
  · split at hupdate
    · cases hupdate
      exact h
    · dsimp only at hupdate
      split at hupdate
      · cases hupdate
        exact h
      · rename_i it hfind
        have hports := (h _ it hfind).2
        split at hupdate
        · cases hupdate
        · split at hupdate
          · cases hupdate
            refine h.put_erase ⟨hports.requested.and _, ?_⟩
            dsimp only
            split
            · exact hports.holder.and _
            · exact hports.holder
          · split at hupdate
            · cases hupdate
            · rename_i hne
              cases hupdate
              refine h.put ?_ ⟨hports.requested.and _, hports.holder.or (ofPorts_portToMask _ _)⟩
              rw [BitVec.or_comm]
              exact hne

theorem Filled.step {r r' : FilterRun p} (h : Filled p.ports r.filter) {i : FilterInput p}
    (hstep : filterStep p r i = .ok r') : Filled p.ports r'.filter := by
  cases i with
  | request cpkt slave_port will_retry =>
    obtain ⟨⟨s', snoops⟩, hlookup, hstep⟩ := bind_ok_iff.1 hstep
    obtain ⟨s'', hfinish, hstep⟩ := bind_ok_iff.1 hstep
    cases hstep
    exact h.request hlookup hfinish
  | snoop cpkt =>
    obtain ⟨⟨s', snoops⟩, hlookup, hstep⟩ := bind_ok_iff.1 hstep
    cases hstep
    exact h.snoop hlookup
  | snoopResponse cpkt rsp_port req_port =>
    obtain ⟨s', hupdate, hstep⟩ := bind_ok_iff.1 hstep
    cases hstep
    exact h.snoopResponse hupdate
  | snoopForward cpkt =>
    obtain ⟨s', hupdate, hstep⟩ := bind_ok_iff.1 hstep
    cases hstep
    exact h.snoopForward hupdate
  | response cpkt slave_port =>
    obtain ⟨s', hupdate, hstep⟩ := bind_ok_iff.1 hstep
    cases hstep
    exact h.response hupdate

/-! ## Runs -/

theorem reachable_filled {r : FilterRun p} (h : Reaches (filterNext p) (fun _ _ => True) {} r) :
    Filled p.ports r.filter := by
  refine h.inv (P := fun r => Filled p.ports r.filter) (filled_init _) ?_
  intro r i r' hr _ hnext
  exact hr.step (toOption_eq_some.1 hnext)

/-- **A refused request leaves the filter as it was, and the filter keeps no empty entries.**  In every
state, a request that is looked up and refused changes the bits of no line, and no entry if the line's was
not empty.  After any sequence of operations no entry is empty: the table holds the lines that some port
requested or may hold, and a refused request gives it back. -/
theorem filter_entries : (∀ (s s' : SnoopFilter) (cpkt : CohPacket) (port : p.ports.Port) (snoops : Snoops p),
      s.lookupRequest cpkt port = .ok (s', snoops) →
      ∃ s'', s'.finishRequest p true cpkt.addr cpkt.isSecure = .ok s'' ∧ (∀ k, s''.item k = s.item k) ∧
        (s.cachedLocations.lookup (lineAddr p cpkt.addr cpkt.isSecure) ≠ some {} →
          s''.cachedLocations = s.cachedLocations)) ∧
    ∀ r : FilterRun p, Reaches (filterNext p) (fun _ _ => True) {} r →
      (∀ k it, r.filter.cachedLocations.lookup k = some it → it.requested ||| it.holder ≠ 0) ∧
      (∀ k, k ∈ r.filter.cachedLocations ↔ ∃ q, (r.filter.item k).requested &&& p.ports.portToMask q ≠ 0 ∨
        (r.filter.item k).holder &&& p.ports.portToMask q ≠ 0) ∧
      ∀ (s' : SnoopFilter) (cpkt : CohPacket) (port : p.ports.Port) (snoops : Snoops p),
        r.filter.lookupRequest cpkt port = .ok (s', snoops) →
        ∃ s'', s'.finishRequest p true cpkt.addr cpkt.isSecure = .ok s'' ∧
          s''.cachedLocations = r.filter.cachedLocations := by
  refine ⟨fun s s' cpkt port snoops h => refused_restores h, fun r hr => ?_⟩
  have hfilled := reachable_filled hr
  refine ⟨fun k it hfind => (hfilled k it hfind).1, hfilled.mem_iff, fun s' cpkt port snoops h => ?_⟩
  obtain ⟨s'', hfinish, -, hsame⟩ := refused_restores h
  refine ⟨s'', hfinish, hsame fun hempty => ?_⟩
  exact (hfilled _ _ hempty).1 (by decide)

/-- Cache 0 has the line; the request of cache 2 for it is refused. -/
theorem filter_entries_refused : ∃ (r : FilterRun filterParams) (s' s'' : SnoopFilter) (snoops : Snoops filterParams),
      r.filter.lookupRequest (p := filterParams) fillReq (2 : Fin 3) = .ok (s', snoops) ∧
      s'.finishRequest filterParams true fillReq.addr fillReq.isSecure = .ok s'' ∧
      s''.cachedLocations = r.filter.cachedLocations ∧ 64 ∈ s''.cachedLocations := by
  have h0 : Reaches (filterNext filterParams) (fun _ _ => True) {} {} := .refl
  have h1 := h0.step (i := (.request fillReq (0 : Fin 3) false : FilterInput filterParams)) trivial rfl
  have h2 := h1.step (i := (.response fillResp (0 : Fin 3) : FilterInput filterParams)) trivial rfl
  obtain ⟨-, hmem, hrefused⟩ := (filter_entries (p := filterParams)).2 _ h2
  obtain ⟨s'', hfinish, hsame⟩ := hrefused _ fillReq (2 : Fin 3) _ rfl
  refine ⟨_, _, s'', _, rfl, hfinish, hsame, ?_⟩
  rw [hsame]
  exact (hmem 64).2 ⟨(0 : Fin 3), .inr (by decide)⟩

end Alpine.Mem
