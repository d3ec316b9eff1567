import Mathlib.Data.List.Perm.Basic
import Rings.InboundCapacity

/-!
What the inbound budgets hold, over every sequence of reservations, moves and drops.

The amounts of each budget are those of the live charges. A refusal names resources of the
arrival's footprint, a footprint changes by an admission or by a release that names one of its
resources, and what a release sheds of it has its relief among what the release names.
-/

namespace Rings.Inbound

open Chunks

namespace HeldCharge

def ofPeer (s : Multiset HeldCharge) (p : Peer) : Multiset HeldCharge :=
  s.filter fun c => c.peer = p

def openedBy (s : Multiset HeldCharge) (i : Principal) : Multiset HeldCharge :=
  s.filter fun c => c.open_ = some i

variable {charge : HeldCharge} {s : Multiset HeldCharge}

lemma ofPeer_cons_self : ofPeer (charge ::ₘ s) charge.peer = charge ::ₘ ofPeer s charge.peer :=
  Multiset.filter_cons_of_pos (p := fun c : HeldCharge => c.peer = charge.peer) _ rfl

lemma ofPeer_cons_of_ne {p : Peer} (h : p ≠ charge.peer) : ofPeer (charge ::ₘ s) p = ofPeer s p :=
  Multiset.filter_cons_of_neg (p := fun c : HeldCharge => c.peer = p) _ h.symm

lemma openedBy_cons_of_open {i : Principal} (h : charge.open_ = some i) :
    openedBy (charge ::ₘ s) i = charge ::ₘ openedBy s i :=
  Multiset.filter_cons_of_pos (p := fun c : HeldCharge => c.open_ = some i) _ h

lemma openedBy_cons_of_ne {i : Principal} (h : charge.open_ ≠ some i) :
    openedBy (charge ::ₘ s) i = openedBy s i :=
  Multiset.filter_cons_of_neg (p := fun c : HeldCharge => c.open_ = some i) _ h

/-- A peer's budget does not depend on the slot its charges are held for. -/
lemma ofCharges_ofPeer_congr {d : HeldCharge} (hpeer : d.peer = charge.peer)
    (hbytes : d.bytes = charge.bytes) (p : Peer) :
    CountedReservedCapacity.ofCharges (fun _ => ()) bytes (ofPeer (d ::ₘ s) p) =
      .ofCharges (fun _ => ()) bytes (ofPeer (charge ::ₘ s) p) := by
  by_cases hp : p = charge.peer
  · have hd : ofPeer (d ::ₘ s) p = d ::ₘ ofPeer s p := by
      rw [hp, ← hpeer, ofPeer_cons_self]
    have hcharge : ofPeer (charge ::ₘ s) p = charge ::ₘ ofPeer s p := by
      rw [hp, ofPeer_cons_self]
    rw [hd, hcharge, CountedReservedCapacity.ofCharges_cons,
      CountedReservedCapacity.ofCharges_cons, hbytes]
  · rw [ofPeer_cons_of_ne hp, ofPeer_cons_of_ne (hpeer ▸ hp)]

lemma ofPeer_eq_zero {p : Peer} : ofPeer s p = 0 ↔ ¬∃ c ∈ s, c.peer = p := by
  unfold ofPeer
  rw [Multiset.filter_eq_nil]
  simp

end HeldCharge

/-- A request that opens a message reserves the bytes it opens it with. -/
lemma InboundRequest.reservation_of_opening {request : InboundRequest} {i : Principal} {n : ℕ}
    (h : request.charge.opening = some (i, n)) : ∃ lane, request.reservation = some (lane, n) := by
  unfold reservation
  cases hcharge : request.charge with
  | bytes bytes => simp [hcharge, InboundCharge.opening] at h
  | covered => simp [hcharge, InboundCharge.opening] at h
  | message bytes lane introducer =>
    rw [hcharge] at h
    cases h
    exact ⟨lane, rfl⟩

namespace InboundLedger

/-! ### Exact budgets -/

/-- The budgets are those of the live charges `s`, and each leaves its classes their shares. -/
structure Exact (l : InboundLedger) (s : Multiset HeldCharge) : Prop where
  state : l.state = .ofCharges HeldCharge.lane HeldCharge.bytes s
  peers : ∀ p, l.peerState p =
    .ofCharges (fun _ => ()) HeldCharge.bytes (HeldCharge.ofPeer s p)
  record : ∀ p, (l.peerStates.get? p).isSome ↔ ∃ c ∈ s, c.peer = p
  openHeld : ∀ i, l.open_.heldBy i =
    ((HeldCharge.openedBy s i).map HeldCharge.bytes).sum
  weighed : l.open_.Weighed
  shares : l.open_.shares = openShares
  fair : l.state.Fair mailboxLimits
  peerFair : ∀ p, (l.peerState p).Fair peerLimits

lemma exact_new : new.Exact 0 where
  state := (CountedReservedCapacity.ofCharges_zero _ _).symm
  peers p := by
    rw [HeldCharge.ofPeer, Multiset.filter_zero, CountedReservedCapacity.ofCharges_zero]
    rfl
  record p := by simp [new, BTreeMap.empty, BTreeMap.get?]
  openHeld i := by
    simp [new, HeldCharge.openedBy, SlotAccounting.heldBy, SlotAccounting.new, BTreeMap.empty,
      BTreeMap.get?]
  weighed := (SlotAccounting.within_new openShares 0).toWeighed
  shares := rfl
  fair := ⟨ReservedCapacity.fair_new (by decide) (by decide),
    ReservedCapacity.fair_new (by decide) (by decide)⟩
  peerFair p := ⟨ReservedCapacity.fair_new (by decide) (by decide),
    ReservedCapacity.fair_new (by decide) (by decide)⟩

section Steps

variable {l l' : InboundLedger} {s : Multiset HeldCharge}

lemma Exact.reserve_eq (h : l.Exact s) {peer : Peer} {lane : InboundLane} {bytes : ℕ}
    {opened : Option Principal} (hr : l.reserve peer lane bytes opened = (l', .ok ())) :
    l' = ⟨l.state.add lane bytes, l.peerStates.insert peer ((l.peerState peer).add () bytes),
        opened.elim l.open_ fun i => l.open_.hold i bytes⟩ ∧
      (l.state.add lane bytes).Fair mailboxLimits ∧
      ((l.peerState peer).add () bytes).Fair peerLimits := by
  unfold reserve at hr
  split at hr
  · cases hr
  · rename_i nextPeer hpeer
    obtain ⟨hnextPeer, hpeerFair⟩ := (h.peerFair peer).tryReserve_ok hpeer
    split at hr
    · cases hr
    · rename_i next hnext
      obtain ⟨hstate, hfair⟩ := h.fair.tryReserve_ok hnext
      subst hstate hnextPeer
      cases opened with
      | none =>
        cases hr
        exact ⟨rfl, hfair, hpeerFair⟩
      | some introducer =>
        simp only [] at hr
        split at hr
        · cases hr
        · cases hr
          exact ⟨rfl, hfair, hpeerFair⟩

lemma Exact.reserve (h : l.Exact s) {charge : HeldCharge}
    (hr : l.reserve charge.peer charge.lane charge.bytes charge.open_ = (l', .ok ())) :
    l'.Exact (charge ::ₘ s) := by
  obtain ⟨hl', hfair, hpeerFair⟩ := h.reserve_eq hr
  subst hl'
  have hpeerState : ∀ p, (InboundLedger.mk (l.state.add charge.lane charge.bytes)
      (l.peerStates.insert charge.peer ((l.peerState charge.peer).add () charge.bytes))
      (charge.open_.elim l.open_ fun i => l.open_.hold i charge.bytes)).peerState p =
        if p = charge.peer then (l.peerState charge.peer).add () charge.bytes
        else l.peerState p := by
    intro p
    unfold peerState
    rw [BTreeMap.get?_insert]
    split <;> rfl
  refine ⟨?_, ?_, ?_, ?_, ?_, ?_, hfair, ?_⟩
  · rw [CountedReservedCapacity.ofCharges_cons, ← h.state]
  · intro p
    rw [hpeerState]
    by_cases hp : p = charge.peer
    · rw [if_pos hp, hp, HeldCharge.ofPeer_cons_self,
        CountedReservedCapacity.ofCharges_cons, ← h.peers]
    · rw [if_neg hp, HeldCharge.ofPeer_cons_of_ne hp,
        ← h.peers]
  · intro p
    have hrecord := h.record p
    simp only [BTreeMap.get?_insert, Multiset.mem_cons, exists_eq_or_imp]
    by_cases hp : p = charge.peer
    · simp [hp]
    · rw [if_neg hp, hrecord]
      simp [Ne.symm hp]
  · intro i
    have hopen := h.openHeld i
    cases hc : charge.open_ with
    | none =>
      rw [HeldCharge.openedBy_cons_of_ne (by simp [hc])]
      exact hopen
    | some introducer =>
      simp only [Option.elim_some]
      rw [SlotAccounting.heldBy_hold, hopen]
      by_cases hi : i = introducer
      · subst hi
        rw [if_pos rfl, HeldCharge.openedBy_cons_of_open hc,
          Multiset.map_cons, Multiset.sum_cons, Nat.add_comm]
      · rw [if_neg hi, HeldCharge.openedBy_cons_of_ne
          (by simp [hc, Ne.symm hi])]
  · cases charge.open_ with
    | none => exact h.weighed
    | some introducer => exact h.weighed.hold _ _
  · cases charge.open_ with
    | none => exact h.shares
    | some introducer => exact h.shares
  · intro p
    rw [hpeerState]
    split
    · exact hpeerFair
    · exact h.peerFair p

/-- The bytes a charge leaves in the table of open messages when it goes. -/
lemma Exact.release_open {charge : HeldCharge} (h : l.Exact (charge ::ₘ s)) {introducer : Principal}
    (hc : charge.open_ = some introducer) (i : Principal) :
    (l.open_.release introducer charge.bytes).heldBy i =
      ((HeldCharge.openedBy s i).map HeldCharge.bytes).sum := by
  rw [SlotAccounting.heldBy_release, h.openHeld]
  by_cases hi : i = introducer
  · subst hi
    rw [if_pos rfl, HeldCharge.openedBy_cons_of_open hc,
      Multiset.map_cons, Multiset.sum_cons, Nat.add_sub_cancel_left]
  · rw [if_neg hi, HeldCharge.openedBy_cons_of_ne (by simp [hc, Ne.symm hi])]

/-- A closed charge leaves the table of open messages alone. -/
lemma Exact.close {charge : HeldCharge} (h : l.Exact (charge ::ₘ s)) :
    (l.close charge).1.Exact ((l.close charge).2 ::ₘ s) := by
  unfold InboundLedger.close
  cases hc : charge.open_ with
  | none => exact h
  | some introducer =>
    have hstate := h.state
    rw [CountedReservedCapacity.ofCharges_cons] at hstate
    refine ⟨?_, ?_, ?_, ?_, h.weighed.release _ _, ?_, h.fair, h.peerFair⟩
    · rw [CountedReservedCapacity.ofCharges_cons]
      exact hstate
    · intro p
      have hpeer := h.peers p
      have heq := @HeldCharge.ofCharges_ofPeer_congr charge s { charge with open_ := none } rfl rfl p
      exact hpeer.trans heq.symm
    · intro p
      have hrecord := h.record p
      simp only [Multiset.mem_cons, exists_eq_or_imp] at hrecord ⊢
      exact hrecord
    · intro i
      rw [HeldCharge.openedBy_cons_of_ne (by simp)]
      exact h.release_open hc i
    · rw [SlotAccounting.release_shares, h.shares]

/-- A dropped charge gives back what it took. -/
lemma Exact.drop {charge : HeldCharge} (h : l.Exact (charge ::ₘ s)) : (l.drop charge).Exact s := by
  have hstate : (l.drop charge).state = .ofCharges HeldCharge.lane HeldCharge.bytes s := by
    have heq := h.state
    rw [CountedReservedCapacity.ofCharges_cons] at heq
    unfold InboundLedger.drop
    simp only [heq, CountedReservedCapacity.release_add]
  have hfair : l.state.Fair mailboxLimits := h.fair
  rw [h.state, CountedReservedCapacity.ofCharges_cons] at hfair
  -- the record of the charge's peer, less the charge
  obtain ⟨state, hget⟩ := Option.isSome_iff_exists.1
    ((h.record charge.peer).2 ⟨charge, Multiset.mem_cons_self _ _, rfl⟩)
  have hpeer : state = (CountedReservedCapacity.ofCharges (fun _ => ()) HeldCharge.bytes
      (HeldCharge.ofPeer s charge.peer)).add () charge.bytes := by
    have heq := h.peers charge.peer
    rw [HeldCharge.ofPeer_cons_self,
      CountedReservedCapacity.ofCharges_cons] at heq
    rw [← heq, peerState, hget, Option.getD_some]
  have hpeerFair := h.peerFair charge.peer
  rw [peerState, hget, Option.getD_some, hpeer] at hpeerFair
  have hreleased : state.release () charge.bytes = CountedReservedCapacity.ofCharges (fun _ => ())
      HeldCharge.bytes (HeldCharge.ofPeer s charge.peer) := by
    rw [hpeer, CountedReservedCapacity.release_add]
  have hcount : (state.release () charge.bytes).counts.admitted = 0 ↔
      ¬∃ c ∈ s, c.peer = charge.peer := by
    rw [hreleased, CountedReservedCapacity.ofCharges_count, Multiset.card_eq_zero,
      HeldCharge.ofPeer_eq_zero]
  have hgets : ∀ p, (l.drop charge).peerStates.get? p =
      if p = charge.peer then
        if (state.release () charge.bytes).counts.admitted = 0 then none
        else some (state.release () charge.bytes)
      else l.peerStates.get? p := by
    intro p
    unfold InboundLedger.drop
    simp only [hget]
    by_cases hidle : (state.release () charge.bytes).counts.admitted = 0
    · rw [if_pos hidle, BTreeMap.get?_remove, if_pos hidle]
      congr
    · rw [if_neg hidle, BTreeMap.get?_insert, if_neg hidle]
      congr
  have hpeers : ∀ p, (l.drop charge).peerState p =
      .ofCharges (fun _ => ()) HeldCharge.bytes (HeldCharge.ofPeer s p) := by
    intro p
    unfold peerState
    rw [hgets]
    by_cases hp : p = charge.peer
    · rw [if_pos hp, hp]
      split
      · rename_i hidle
        rw [HeldCharge.ofPeer_eq_zero.2 (hcount.1 hidle), CountedReservedCapacity.ofCharges_zero]
        rfl
      · exact hreleased
    · rw [if_neg hp]
      have heq := h.peers p
      rw [HeldCharge.ofPeer_cons_of_ne hp] at heq
      exact heq
  refine ⟨hstate, hpeers, ?_, ?_, ?_, ?_, hstate ▸ hfair.of_add, ?_⟩
  · intro p
    rw [hgets]
    by_cases hp : p = charge.peer
    · subst hp
      rw [if_pos rfl]
      split
      · rename_i hidle
        simpa using hcount.1 hidle
      · rename_i hidle
        simpa using hcount.not.1 hidle
    · rw [if_neg hp, h.record p]
      simp [Ne.symm hp]
  · intro i
    cases hc : charge.open_ with
    | none =>
      have heq := h.openHeld i
      rw [HeldCharge.openedBy_cons_of_ne (by simp [hc])] at heq
      unfold InboundLedger.drop
      simp only [hc]
      exact heq
    | some introducer =>
      have heq := h.release_open hc i
      unfold InboundLedger.drop
      simp only [hc]
      exact heq
  · unfold InboundLedger.drop
    cases charge.open_ with
    | none => exact h.weighed
    | some introducer => exact h.weighed.release _ _
  · unfold InboundLedger.drop
    cases charge.open_ with
    | none => exact h.shares
    | some introducer => exact (l.open_.release_shares _ _).trans h.shares
  · intro p
    by_cases hp : p = charge.peer
    · rw [hpeers, hp]
      exact hpeerFair.of_add
    · have heq : (l.drop charge).peerState p = l.peerState p := by
        unfold peerState
        rw [hgets, if_neg hp]
      rw [heq]
      exact h.peerFair p

end Steps

/-! ### Footprints -/

section Footprints

variable {l l' : InboundLedger} {request : InboundRequest} {lane : InboundLane} {bytes : ℕ}
  {resource : InboundResource}

lemma pooled_iff : l.pooled request = true ↔
    ∃ i n, request.charge.opening = some (i, n) ∧ l.open_.withinFloor i n = false := by
  unfold pooled
  cases request.charge.opening with
  | none => simp
  | some opening => simp [Prod.ext_iff]

lemma mem_footprint (h : request.reservation = some (lane, bytes)) :
    resource ∈ l.footprint request ↔ resource = .peer request.peer ∨ resource = .lane lane ∨
      (resource = .shared ∧ l.state.reservationCovers lane bytes mailboxLimits = false) ∨
      (resource = .openPool ∧ l.pooled request = true) ∨
      ∃ opening, request.charge.opening = some opening ∧ resource = .floor opening.1 := by
  unfold footprint
  simp only [h, List.mem_append, List.mem_cons, List.not_mem_nil, or_false, Option.mem_toList,
    Option.map_eq_some_iff]
  have hshared : (resource ∈ if l.state.reservationCovers lane bytes mailboxLimits = true then []
      else [InboundResource.shared]) ↔
        resource = .shared ∧ l.state.reservationCovers lane bytes mailboxLimits = false := by
    cases l.state.reservationCovers lane bytes mailboxLimits <;> simp
  have hpool : (resource ∈ if l.pooled request = true then [InboundResource.openPool] else []) ↔
      resource = .openPool ∧ l.pooled request = true := by
    cases l.pooled request <;> simp
  rw [hshared, hpool]
  constructor
  · rintro (((h | h) | h) | ⟨⟨i, n⟩, ho, h⟩)
    · tauto
    · tauto
    · tauto
    · exact .inr (.inr (.inr (.inr ⟨(i, n), ho, h.symm⟩)))
  · rintro (h | h | h | h | ⟨⟨i, n⟩, ho, h⟩)
    · tauto
    · tauto
    · tauto
    · tauto
    · exact .inr ⟨(i, n), ho, h.symm⟩

lemma footprint_covered (h : request.reservation = none) : l.footprint request = [] := by
  unfold footprint
  rw [h]

lemma mem_reliefs (h : request.reservation = some (lane, bytes))
    {relief : InboundResource × List InboundResource} :
    relief ∈ l.reliefs request ↔
      (relief = (.lane lane, [.shared]) ∧
        l.state.reservationCovers lane bytes mailboxLimits = false) ∨
      ∃ i n, request.charge.opening = some (i, n) ∧ l.open_.withinFloor i n = false ∧
        l.open_.fitsFloor i n = true ∧ relief = (.floor i, [.openPool]) := by
  unfold reliefs
  simp only [h, List.mem_append, Option.mem_toList, Option.map_eq_some_iff, Option.filter_eq_some_iff]
  have hshared : (relief ∈ if l.state.reservationCovers lane bytes mailboxLimits = true then []
      else [(InboundResource.lane lane, [InboundResource.shared])]) ↔
        relief = (.lane lane, [.shared]) ∧
          l.state.reservationCovers lane bytes mailboxLimits = false := by
    cases l.state.reservationCovers lane bytes mailboxLimits <;> simp
  rw [hshared]
  constructor
  · rintro (h | ⟨⟨i, n⟩, ⟨ho, hf⟩, h⟩)
    · exact .inl h
    · rw [Bool.and_eq_true, Bool.not_eq_true'] at hf
      exact .inr ⟨i, n, ho, hf.1, hf.2, h.symm⟩
  · rintro (h | ⟨i, n, ho, hw, hf, h⟩)
    · exact .inl h
    · exact .inr ⟨(i, n), ⟨ho, by rw [hw, hf]; rfl⟩, h.symm⟩

lemma footprint_congr
    (hcovers : ∀ lane bytes, request.reservation = some (lane, bytes) →
      l'.state.reservationCovers lane bytes mailboxLimits =
        l.state.reservationCovers lane bytes mailboxLimits)
    (hfloor : ∀ i n, request.charge.opening = some (i, n) →
      l'.open_.withinFloor i n = l.open_.withinFloor i n) :
    l'.footprint request = l.footprint request := by
  have hpooled : l'.pooled request = l.pooled request := by
    unfold pooled
    cases hopening : request.charge.opening with
    | none => rfl
    | some opening =>
      obtain ⟨i, n⟩ := opening
      simp only [Option.any_some, hfloor i n hopening]
  unfold footprint
  cases hreservation : request.reservation with
  | none => rfl
  | some reservation =>
    obtain ⟨lane, bytes⟩ := reservation
    simp only [hcovers lane bytes hreservation, hpooled]

/-- A refusal names resources of the footprint, and leaves every budget as it was. -/
lemma tryAdmit_error {s : Multiset HeldCharge} (h : l.Exact s)
    {refusal : List InboundResource} (hr : l.tryAdmit request = (l', .error refusal)) :
    l' = l ∧ refusal ⊆ l.footprint request := by
  unfold tryAdmit tryReserve at hr
  cases hreservation : request.reservation with
  | none =>
    rw [hreservation] at hr
    cases hr
  | some reservation =>
    obtain ⟨lane, bytes⟩ := reservation
    rw [hreservation] at hr
    unfold reserve at hr
    simp only [] at hr
    cases hpeer : (l.peerState request.peer).tryReserve () bytes peerLimits with
    | mk nextPeer verdict =>
    rw [hpeer] at hr
    cases verdict with
    | error rejection =>
      cases hr
      refine ⟨rfl, fun resource hmem => ?_⟩
      rw [mem_footprint hreservation]
      exact .inl (List.mem_singleton.1 hmem)
    | ok u =>
      cases hnext : l.state.tryReserve lane bytes mailboxLimits with
      | mk next verdict =>
      rw [hnext] at hr
      cases verdict with
      | error rejection =>
        cases hr
        have hcovers : l.state.reservationCovers lane bytes mailboxLimits = false := by
          by_contra hc
          have hok := h.fair.tryReserve_of_covers (Bool.eq_true_of_not_eq_false hc)
          rw [hnext] at hok
          cases hok
        refine ⟨rfl, fun resource hmem => ?_⟩
        rw [mem_footprint hreservation]
        simp only [refused, hreservation, Option.map_some, Option.toList_some,
          List.singleton_append, List.mem_cons, List.not_mem_nil, or_false] at hmem
        rcases hmem with hmem | hmem
        · exact .inr (.inl hmem)
        · exact .inr (.inr (.inl ⟨hmem, hcovers⟩))
      | ok u' =>
        cases hopening : request.charge.opening with
        | none =>
          rw [hopening] at hr
          cases hr
        | some opening =>
          obtain ⟨i, n⟩ := opening
          have hn : n = bytes := by
            obtain ⟨lane', h'⟩ := InboundRequest.reservation_of_opening hopening
            rw [hreservation] at h'
            cases h'
            rfl
          subst hn
          rw [hopening] at hr
          simp only [Option.map_some] at hr
          cases hadmitted : l.open_.admitItems i n with
          | ok u'' =>
            rw [hadmitted] at hr
            cases hr
          | error refusal =>
            rw [hadmitted] at hr
            cases hr
            have hpooled : l.pooled request = true := by
              refine pooled_iff.2 ⟨i, n, hopening, ?_⟩
              by_contra hc
              rw [SlotAccounting.admitItems_of_withinFloor (Bool.eq_true_of_not_eq_false hc)]
                at hadmitted
              cases hadmitted
            refine ⟨rfl, fun resource hmem => ?_⟩
            rw [mem_footprint hreservation]
            exact .inr (.inr (.inr (.inl ⟨List.mem_singleton.1 hmem, hpooled⟩)))

/-- An admission makes the charge it grants live. -/
lemma Exact.tryAdmit {s : Multiset HeldCharge} (h : l.Exact s) {held : Option HeldCharge}
    (hr : l.tryAdmit request = (l', .ok held)) :
    l'.Exact ((held.toList : Multiset HeldCharge) + s) := by
  unfold InboundLedger.tryAdmit tryReserve at hr
  cases hreservation : request.reservation with
  | none =>
    rw [hreservation] at hr
    cases hr
    simpa using h
  | some reservation =>
    rw [hreservation] at hr
    simp only [] at hr
    split at hr
    · cases hr
    · rename_i l'' held' hr'
      split at hr'
      · cases hr'
      · rename_i hreserve
        cases hr'
        cases hr
        exact @Exact.reserve _ _ _ h ⟨_, _, _, _⟩ hreserve

end Footprints

end InboundLedger

/-! ### Events of the ledger -/

/-- The laws of one change: it reaches only footprints it names a resource of, what a release
sheds of a footprint has its relief among what it names, and a closed charge leaves only the
table of open messages. -/
structure LedgerEvent.Lawful (e : LedgerEvent) : Prop where
  changes : ∀ request, e.after.footprint request ≠ e.before.footprint request →
    (∃ admitted, e.cause = .admission admitted) ∨
      ∃ resource ∈ e.cause.names, resource ∈ e.before.footprint request
  sheds : (∀ admitted, e.cause ≠ .admission admitted) → ∀ request,
    ∀ resource ∈ e.before.footprint request, resource ∉ e.after.footprint request →
      ∃ relief ∈ e.before.reliefs request, resource ∈ relief.2 ∧ relief.1 ∈ e.cause.names
  closed : ∀ charge, e.cause = .closed charge →
    e.after.state = e.before.state ∧ e.after.peerStates = e.before.peerStates

structure LedgerEvent.Named (e : LedgerEvent) : Prop where
  state : ∀ lane, .lane lane ∉ e.cause.names → ∀ bytes,
    e.after.state.reservationCovers lane bytes mailboxLimits =
      e.before.state.reservationCovers lane bytes mailboxLimits
  floor : ∀ i, .floor i ∉ e.cause.names → e.after.open_.heldBy i = e.before.open_.heldBy i
  shares : e.after.open_.shares = e.before.open_.shares

namespace LedgerEvent.Named

variable {e : LedgerEvent} (h : e.Named)

include h in
lemma changes {request : InboundRequest}
    (hne : e.after.footprint request ≠ e.before.footprint request) :
    ∃ resource ∈ e.cause.names, resource ∈ e.before.footprint request := by
  by_contra hnone
  push Not at hnone
  refine hne (InboundLedger.footprint_congr ?_ ?_)
  · intro lane bytes hreservation
    refine h.state lane (fun hmem => hnone _ hmem ?_) bytes
    rw [InboundLedger.mem_footprint hreservation]
    exact .inr (.inl rfl)
  · intro i n hopening
    refine SlotAccounting.withinFloor_congr h.shares (h.floor i fun hmem => hnone _ hmem ?_) n
    obtain ⟨lane, hreservation⟩ := InboundRequest.reservation_of_opening hopening
    rw [InboundLedger.mem_footprint hreservation]
    exact .inr (.inr (.inr (.inr ⟨(i, n), hopening, rfl⟩)))

include h in
lemma sheds {request : InboundRequest} {resource : InboundResource}
    (hbefore : resource ∈ e.before.footprint request)
    (hafter : resource ∉ e.after.footprint request) :
    ∃ relief ∈ e.before.reliefs request, resource ∈ relief.2 ∧ relief.1 ∈ e.cause.names := by
  cases hreservation : request.reservation with
  | none =>
    rw [InboundLedger.footprint_covered hreservation] at hbefore
    cases hbefore
  | some reservation =>
    obtain ⟨lane, bytes⟩ := reservation
    rw [InboundLedger.mem_footprint hreservation] at hbefore hafter
    push Not at hafter
    obtain ⟨hpeer, hlane, hshared, hpool, hfloor⟩ := hafter
    rcases hbefore with rfl | rfl | ⟨rfl, hcovers⟩ | ⟨rfl, hpooled⟩ | ⟨opening, hopening, rfl⟩
    · exact absurd rfl hpeer
    · exact absurd rfl hlane
    · refine ⟨(.lane lane, [.shared]), ?_, List.mem_singleton_self _, ?_⟩
      · rw [InboundLedger.mem_reliefs hreservation]
        exact .inl ⟨rfl, hcovers⟩
      · by_contra hmem
        exact hshared rfl (by rw [h.state lane hmem, hcovers])
    · obtain ⟨i, n, hopening, hwithin⟩ := InboundLedger.pooled_iff.1 hpooled
      have hafter : e.after.open_.withinFloor i n = true := by
        by_contra hc
        exact hpool rfl (InboundLedger.pooled_iff.2 ⟨i, n, hopening, by simpa using hc⟩)
      refine ⟨(.floor i, [.openPool]), ?_, List.mem_singleton_self _, ?_⟩
      · rw [InboundLedger.mem_reliefs hreservation]
        exact .inr ⟨i, n, hopening, hwithin,
          SlotAccounting.fitsFloor_of_withinFloor h.shares hafter, rfl⟩
      · by_contra hmem
        rw [SlotAccounting.withinFloor_congr h.shares (h.floor i hmem), hwithin] at hafter
        cases hafter
    · exact absurd rfl (hfloor opening hopening)

end LedgerEvent.Named

section Releases

variable {l : InboundLedger} {s : Multiset HeldCharge} {charge : HeldCharge}

lemma named_dropped (h : l.Exact (charge ::ₘ s)) :
    (⟨l, .dropped charge, l.drop charge⟩ : LedgerEvent).Named where
  state lane hmem bytes := by
    have hne : lane ≠ charge.lane := by
      rintro rfl
      exact hmem (by simp [LedgerCause.names, HeldCharge.freed])
    have hbefore := h.state
    rw [CountedReservedCapacity.ofCharges_cons] at hbefore
    simp only [hbefore, h.drop.state, CountedReservedCapacity.reservationCovers_add_of_ne hne]
  floor i hmem := by
    cases hc : charge.open_ with
    | none => simp [InboundLedger.drop, hc]
    | some introducer =>
      have hne : i ≠ introducer := by
        rintro rfl
        exact hmem (by simp [LedgerCause.names, HeldCharge.freed, hc])
      simp only [InboundLedger.drop, hc, SlotAccounting.heldBy_release, if_neg hne]
  shares := by rw [h.shares, h.drop.shares]

lemma named_closed (h : l.Exact (charge ::ₘ s)) {introducer : Principal}
    (hc : charge.open_ = some introducer) :
    (⟨l, .closed charge, (l.close charge).1⟩ : LedgerEvent).Named where
  state lane _ bytes := by simp only [InboundLedger.close, hc]
  floor i hmem := by
    have hne : i ≠ introducer := by
      rintro rfl
      exact hmem (by simp [LedgerCause.names, hc])
    simp only [InboundLedger.close, hc, SlotAccounting.heldBy_release, if_neg hne]
  shares := by rw [h.shares, h.close.shares]

lemma lawful_dropped (h : l.Exact (charge ::ₘ s)) :
    (⟨l, .dropped charge, l.drop charge⟩ : LedgerEvent).Lawful where
  changes _ hne := .inr ((named_dropped h).changes hne)
  sheds _ _ _ hbefore hafter := (named_dropped h).sheds hbefore hafter
  closed _ hcause := by cases hcause

lemma lawful_closed (h : l.Exact (charge ::ₘ s)) {introducer : Principal}
    (hc : charge.open_ = some introducer) :
    (⟨l, .closed charge, (l.close charge).1⟩ : LedgerEvent).Lawful where
  changes _ hne := .inr ((named_closed h hc).changes hne)
  sheds _ _ _ hbefore hafter := (named_closed h hc).sheds hbefore hafter
  closed _ _ := by
    unfold InboundLedger.close
    rw [hc]
    exact ⟨rfl, rfl⟩

end Releases

lemma lawful_admission (l l' : InboundLedger) (request : InboundRequest) :
    (⟨l, .admission request, l'⟩ : LedgerEvent).Lawful where
  changes _ _ := .inl ⟨request, rfl⟩
  sheds hcause := absurd rfl (hcause request)
  closed _ hcause := by cases hcause

/-! ### Runs -/

/-- The events lead from `l` to `l'`, each from where the one before it ended. -/
def Chained : InboundLedger → List LedgerEvent → InboundLedger → Prop
  | l, [], l' => l' = l
  | l, e :: events, l' => e.before = l ∧ Chained e.after events l'

/-- Lawful events lead from `l` to `l'`, whose budgets are those of `s`. -/
structure Follows (l : InboundLedger) (events : List LedgerEvent) (l' : InboundLedger)
    (s : Multiset HeldCharge) : Prop where
  exact : l'.Exact s
  chained : Chained l events l'
  lawful : ∀ e ∈ events, e.Lawful

lemma Chained.append {l l' l'' : InboundLedger} {events events' : List LedgerEvent}
    (h : Chained l events l') (h' : Chained l' events' l'') : Chained l (events ++ events') l'' := by
  induction events generalizing l with
  | nil =>
    unfold Chained at h
    exact h ▸ h'
  | cons e events ih =>
    unfold Chained at h
    exact ⟨h.1, ih h.2⟩

namespace InboundMailbox

variable {l : InboundLedger} {s : Multiset HeldCharge}

lemma follows_nil (h : l.Exact s) : Follows l [] l s :=
  ⟨h, rfl, fun _ he => by cases he⟩

lemma dropHeld_follows {held : Option HeldCharge}
    (h : l.Exact ((held.toList : Multiset HeldCharge) + s)) :
    Follows l (dropHeld l held).2 (dropHeld l held).1 s := by
  cases held with
  | none => exact follows_nil (by simpa using h)
  | some charge =>
    have hcons : l.Exact (charge ::ₘ s) := by simpa using h
    refine ⟨hcons.drop, ⟨rfl, rfl⟩, fun e he => ?_⟩
    rw [List.mem_singleton.1 he]
    exact lawful_dropped hcons

lemma closeHeld_follows {charge : HeldCharge} (h : l.Exact (charge ::ₘ s)) :
    Follows l (closeHeld l charge).2.2 (closeHeld l charge).1
      ((closeHeld l charge).2.1 ::ₘ s) := by
  unfold closeHeld
  split
  · exact follows_nil h
  · rename_i introducer hc
    refine ⟨h.close, ⟨rfl, rfl⟩, fun e he => ?_⟩
    rw [List.mem_singleton.1 he]
    exact lawful_closed h hc

def permitted (permits : List InboundCapacityPermit) : Multiset HeldCharge :=
  (permits.filterMap InboundCapacityPermit.held : Multiset HeldCharge)

lemma permitted_cons (permit : InboundCapacityPermit) (permits : List InboundCapacityPermit) :
    permitted (permit :: permits) = (permit.held.toList : Multiset HeldCharge) + permitted permits := by
  unfold permitted
  cases h : permit.held <;> simp [h]

lemma permitted_of_perm {permits permits' : List InboundCapacityPermit}
    (h : permits.Perm permits') : permitted permits = permitted permits' :=
  Multiset.coe_eq_coe.2 (h.filterMap _)

lemma permitted_eraseIdx {permits : List InboundCapacityPermit} {i : ℕ}
    {permit : InboundCapacityPermit} (h : permits[i]? = some permit) :
    permitted permits =
      (permit.held.toList : Multiset HeldCharge) + permitted (permits.eraseIdx i) := by
  obtain ⟨hi, rfl⟩ := List.getElem?_eq_some_iff.1 h
  rw [← permitted_cons]
  exact (permitted_of_perm (List.getElem_cons_eraseIdx_perm hi)).symm

lemma permitted_set {permits : List InboundCapacityPermit} {i : ℕ}
    {permit : InboundCapacityPermit} (h : permits[i]? = some permit)
    (permit' : InboundCapacityPermit) : permitted (permits.set i permit') =
      (permit'.held.toList : Multiset HeldCharge) + permitted (permits.eraseIdx i) := by
  obtain ⟨hi, -⟩ := List.getElem?_eq_some_iff.1 h
  rw [← permitted_cons]
  exact permitted_of_perm (List.set_perm_cons_eraseIdx hi _)

lemma coe_eraseIdx {messages : List HeldCharge} {j : ℕ} {charge : HeldCharge}
    (h : messages[j]? = some charge) :
    (messages : Multiset HeldCharge) = charge ::ₘ (messages.eraseIdx j : Multiset HeldCharge) := by
  obtain ⟨hj, rfl⟩ := List.getElem?_eq_some_iff.1 h
  exact (Multiset.coe_eq_coe.2 (List.getElem_cons_eraseIdx_perm hj)).symm

lemma live_eq (m : InboundMailbox) : m.live = permitted m.permits + (m.messages : Multiset _) := rfl

variable {m : InboundMailbox}

lemma reserve_follows (h : m.ledger.Exact m.live) (request : InboundRequest) :
    Follows m.ledger (m.reserve request).2 (m.reserve request).1.ledger
      (m.reserve request).1.live := by
  unfold reserve
  split
  · exact follows_nil h
  · split
    · rename_i l' refusal hr
      rw [(InboundLedger.tryAdmit_error h hr).1]
      exact follows_nil h
    · rename_i l' held hr
      refine ⟨?_, ⟨rfl, rfl⟩, fun e he => ?_⟩
      · have hlive : (InboundMailbox.mk l' (m.permits ++ [⟨held⟩]) m.messages).live =
            (held.toList : Multiset HeldCharge) + m.live := by
          rw [live_eq, live_eq, permitted_of_perm (List.perm_append_comm), ← Multiset.add_assoc]
          congr 1
          exact permitted_cons ⟨held⟩ m.permits
        rw [hlive]
        exact h.tryAdmit hr
      · rw [List.mem_singleton.1 he]
        exact lawful_admission _ _ _

lemma restore_follows (h : m.ledger.Exact m.live) (i : ℕ) (message : Option ℕ) :
    Follows m.ledger (m.restore i message).2 (m.restore i message).1.ledger
      (m.restore i message).1.live := by
  unfold restore
  split
  · exact follows_nil h
  · rename_i permit hpermit
    rw [live_eq, permitted_eraseIdx hpermit, Multiset.add_assoc] at h
    split
    · have hlive : (InboundMailbox.mk (dropHeld m.ledger permit.held).1 (m.permits.set i ⟨none⟩)
          m.messages).live = permitted (m.permits.eraseIdx i) + (m.messages : Multiset _) := by
        rw [live_eq, permitted_set hpermit]
        simp
      simp only [hlive]
      exact dropHeld_follows h
    · rename_i j
      split
      · exact follows_nil (by rw [live_eq, permitted_eraseIdx hpermit, Multiset.add_assoc]; exact h)
      · rename_i charge hcharge
        rw [coe_eraseIdx hcharge] at h
        generalize hrest : permitted (m.permits.eraseIdx i) +
          (m.messages.eraseIdx j : Multiset HeldCharge) = rest
        have hclose : m.ledger.Exact
            (charge ::ₘ ((permit.held.toList : Multiset HeldCharge) + rest)) := by
          rw [← hrest]
          rwa [Multiset.add_cons, Multiset.add_cons] at h
        have hclosed := closeHeld_follows hclose
        have hdrop := dropHeld_follows (s := (closeHeld m.ledger charge).2.1 ::ₘ rest)
          (by simpa [Multiset.add_cons] using hclosed.exact)
        have hlive : (InboundMailbox.mk
            (dropHeld (closeHeld m.ledger charge).1 permit.held).1
            (m.permits.set i ⟨some (closeHeld m.ledger charge).2.1⟩)
            (m.messages.eraseIdx j)).live = (closeHeld m.ledger charge).2.1 ::ₘ rest := by
          rw [live_eq, permitted_set hpermit, ← hrest]
          simp
        simp only [hlive]
        refine ⟨hdrop.exact, hclosed.chained.append hdrop.chained, fun e he => ?_⟩
        rcases List.mem_append.1 he with he | he
        · exact hclosed.lawful e he
        · exact hdrop.lawful e he

/-- One operation: what it does to the budgets and to the live charges agree. -/
lemma act_follows (h : m.ledger.Exact m.live) (op : InboundOp) :
    Follows m.ledger (m.act op).2 (m.act op).1.ledger (m.act op).1.live := by
  cases op with
  | reserve request => exact reserve_follows h request
  | dropPermit i =>
    simp only [act]
    split
    · exact follows_nil h
    · rename_i permit hpermit
      rw [live_eq, permitted_eraseIdx hpermit, Multiset.add_assoc] at h
      exact dropHeld_follows h
  | take i =>
    simp only [act]
    split
    · exact follows_nil h
    · rename_i permit hpermit
      refine follows_nil ?_
      rw [live_eq, permitted_eraseIdx hpermit] at h
      rw [live_eq, permitted_set hpermit]
      simp only [Option.toList_none, Multiset.coe_nil, zero_add, ← Multiset.coe_add]
      rwa [Multiset.add_assoc, Multiset.add_comm, Multiset.add_assoc] at h
  | restore i message => exact restore_follows h i message
  | dropMessage j =>
    simp only [act]
    split
    · exact follows_nil h
    · rename_i charge hcharge
      rw [live_eq, coe_eraseIdx hcharge, Multiset.add_cons] at h
      refine @dropHeld_follows _ _ (some charge) ?_
      rw [Option.toList_some, ← Multiset.cons_coe, Multiset.coe_nil, Multiset.cons_add, zero_add]
      exact h

/-- The budgets of every mailbox reached are those of its live charges. -/
lemma run_exact (ops : List InboundOp) : (new.run ops).ledger.Exact (new.run ops).live := by
  have hrun : ∀ m : InboundMailbox, m.ledger.Exact m.live →
      (m.run ops).ledger.Exact (m.run ops).live := by
    induction ops with
    | nil => exact fun m h => h
    | cons op ops ih => exact fun m h => ih _ (act_follows h op).exact
  exact hrun new (by simpa [live, new] using InboundLedger.exact_new)

end InboundMailbox

/-! ### Waiting arrivals -/

/-- What the waiting request `v` holds: the resources of the budget that refused it, the reliefs
of its footprint when they may lift all that blocks it, or nothing but its stream. -/
inductive WaiterHolds (v : InboundRequest) : List InboundResource → Prop
  | refused {l l' : InboundLedger} {refusal : List InboundResource}
      (h : l.tryAdmit v = (l', .error refusal)) : WaiterHolds v refusal
  | reliefs (l : InboundLedger) : WaiterHolds v ((l.reliefs v).map Prod.fst)
  | stream : WaiterHolds v []

/-- Whether the waiting request `v`, holding `held`, blocks the later request `w`. -/
def Blocks (l : InboundLedger) (v : InboundRequest) (held : List InboundResource)
    (w : InboundRequest) : Prop :=
  InboundLedger.stream v = InboundLedger.stream w ∨ ∃ resource ∈ held, resource ∈ l.footprint w

/-- The two requests are of different peers, reserve on different lanes and open no messages of
one introducer. -/
structure Apart (v w : InboundRequest) : Prop where
  peer : v.peer ≠ w.peer
  lane : ∀ reserved reserved', v.reservation = some reserved → w.reservation = some reserved' →
    reserved.1 ≠ reserved'.1
  introducer : ∀ opening opening', v.charge.opening = some opening →
    w.charge.opening = some opening' → opening.1 ≠ opening'.1

section Waiting

variable {l : InboundLedger} {v w : InboundRequest} {held : List InboundResource}
  {lane : InboundLane} {bytes : ℕ}

/-- What a waiter apart from `w` holds is none of the resources `w` draws on, the pool of open
messages and what lies beyond the reservations excepted. -/
lemma WaiterHolds.cases_of_mem (h : WaiterHolds v held) (hapart : Apart v w)
    (hw : w.reservation = some (lane, bytes)) {resource : InboundResource} (hmem : resource ∈ held)
    (hfoot : resource ∈ l.footprint w) :
    resource = .shared ∨ (resource = .openPool ∧ held = [.openPool]) := by
  have hpeer : resource ≠ .peer v.peer := by
    rintro rfl
    rw [InboundLedger.mem_footprint hw] at hfoot
    simp [hapart.peer] at hfoot
  have hlane : ∀ lane' bytes', v.reservation = some (lane', bytes') → resource ≠ .lane lane' := by
    rintro lane' bytes' hv rfl
    rw [InboundLedger.mem_footprint hw] at hfoot
    have hne := hapart.lane _ _ hv hw
    simp_all
  have hfloor : ∀ i n, v.charge.opening = some (i, n) → resource ≠ .floor i := by
    rintro i n hv rfl
    rw [InboundLedger.mem_footprint hw] at hfoot
    simp only [reduceCtorEq, false_and, false_or] at hfoot
    obtain ⟨opening, hopening, heq⟩ := hfoot
    exact hapart.introducer _ _ hv hopening (InboundResource.floor.inj heq)
  cases h with
  | stream => cases hmem
  | reliefs l' =>
    obtain ⟨relief, hrelief, rfl⟩ := List.mem_map.1 hmem
    cases hv : v.reservation with
    | none =>
      unfold InboundLedger.reliefs at hrelief
      rw [hv] at hrelief
      cases hrelief
    | some reserved =>
      rcases (InboundLedger.mem_reliefs hv).1 hrelief with ⟨rfl, -⟩ | ⟨i, n, hi, -, -, rfl⟩
      · exact absurd rfl (hlane _ _ hv)
      · exact absurd rfl (hfloor i n hi)
  | @refused l' l'' _ hrefused =>
    unfold InboundLedger.tryAdmit at hrefused
    split at hrefused
    · rename_i refusal hr
      cases hrefused
      cases refusal with
      | peer => exact absurd (List.mem_singleton.1 hmem) hpeer
      | open_ => exact .inr ⟨List.mem_singleton.1 hmem, rfl⟩
      | mailbox =>
        simp only [InboundLedger.refused, List.mem_append, Option.mem_toList,
          Option.map_eq_some_iff, List.mem_singleton] at hmem
        rcases hmem with ⟨reserved, hv, rfl⟩ | rfl
        · exact absurd rfl (hlane _ _ hv)
        · exact .inl rfl
    · cases hrefused

/-- A request its lane's reservation covers is blocked by a waiter apart from it only on the pool
of open messages, which refused the waiter. -/
lemma blocks_of_covers (h : WaiterHolds v held) (hapart : Apart v w)
    (hw : w.reservation = some (lane, bytes))
    (hcovers : l.state.reservationCovers lane bytes mailboxLimits = true)
    (hblocks : Blocks l v held w) : held = [.openPool] ∧ l.pooled w = true := by
  rcases hblocks with hstream | ⟨resource, hmem, hfoot⟩
  · unfold InboundLedger.stream at hstream
    exact absurd (InboundResource.stream.inj hstream).1 hapart.peer
  · rcases h.cases_of_mem hapart hw hmem hfoot with rfl | ⟨rfl, hheld⟩
    · rw [InboundLedger.mem_footprint hw] at hfoot
      simp [hcovers] at hfoot
    · rw [InboundLedger.mem_footprint hw] at hfoot
      simp only [reduceCtorEq, false_and, false_or, and_false, exists_false, or_false,
        true_and] at hfoot
      exact ⟨hheld, hfoot⟩

end Waiting

/-- Over every sequence of operations the budgets are those of the live charges, with a record
for each peer that holds one; a refusal changes no budget and names resources of the footprint;
every operation moves the ledger by lawful events; and a request its lane's reservation covers
is blocked by a waiter of another peer, lane and introducer only when it opens a message beyond
its introducer's floor and the pool of open messages refused the waiter. -/
theorem InboundMailbox.budgets_lawful (ops : List InboundOp) :
    (InboundMailbox.new.run ops).ledger.Exact (InboundMailbox.new.run ops).live ∧
      (∀ request l' refusal,
        (InboundMailbox.new.run ops).ledger.tryAdmit request = (l', .error refusal) →
          l' = (InboundMailbox.new.run ops).ledger ∧
            refusal ⊆ (InboundMailbox.new.run ops).ledger.footprint request) ∧
      (∀ op, Follows (InboundMailbox.new.run ops).ledger ((InboundMailbox.new.run ops).act op).2
        ((InboundMailbox.new.run ops).act op).1.ledger
        ((InboundMailbox.new.run ops).act op).1.live) ∧
      (∀ v held w lane bytes, WaiterHolds v held → Apart v w →
        w.reservation = some (lane, bytes) →
        (InboundMailbox.new.run ops).ledger.state.reservationCovers lane bytes mailboxLimits = true →
        Blocks (InboundMailbox.new.run ops).ledger v held w →
          held = [.openPool] ∧ (InboundMailbox.new.run ops).ledger.pooled w = true) := by
  have hexact := InboundMailbox.run_exact ops
  refine ⟨hexact, ?_, ?_, ?_⟩
  · exact fun request l' refusal hr => InboundLedger.tryAdmit_error hexact hr
  · exact fun op => InboundMailbox.act_follows hexact op
  · exact fun v held w lane bytes hheld hapart hw hcovers hblocks =>
      blocks_of_covers hheld hapart hw hcovers hblocks

/-- A first chunk of a message of `category`, on its class's channel lane: it opens the message on
the lane of that class. -/
def firstChunk (peer : Did) (category : MessageCategory) (bytes : ℕ) (introducer : Principal) :
    InboundRequest :=
  ⟨(peer : Peer), .reassembly, some (channelLane category),
    .message bytes (.ofCarrier (some (channelLane category))) introducer⟩

def poolHolder : InboundRequest := firstChunk 1 .storage (100 * 1024 * 1024) (.slot 1)

def poolWaiter : InboundRequest := firstChunk 2 .e2e (100 * 1024 * 1024) (.slot 2)

def poolArrival : InboundRequest := firstChunk 3 .application (600 * 1024) (.slot 3)

theorem InboundMailbox.covered_blocked_on_pool :
    poolHolder.validate.isOk ∧ poolWaiter.validate.isOk ∧ poolArrival.validate.isOk ∧
      ∃ held, WaiterHolds poolWaiter held ∧ Apart poolWaiter poolArrival ∧
        (InboundMailbox.new.run [.reserve poolHolder]).ledger.state.reservationCovers
          .application (600 * 1024) mailboxLimits = true ∧
        Blocks (InboundMailbox.new.run [.reserve poolHolder]).ledger poolWaiter held
          poolArrival := by
  refine ⟨by decide +kernel, by decide +kernel, by decide +kernel, [.openPool], ?_, ?_, ?_, ?_⟩
  · have hrefused : ((InboundMailbox.new.run [.reserve poolHolder]).ledger.tryReserve
        poolWaiter).2 = .error .open_ := by rfl
    refine @WaiterHolds.refused _ (InboundMailbox.new.run [.reserve poolHolder]).ledger
      ((InboundMailbox.new.run [.reserve poolHolder]).ledger.tryReserve poolWaiter).1 _ ?_
    unfold InboundLedger.tryAdmit
    rw [← Prod.mk.eta (p := (InboundMailbox.new.run [.reserve poolHolder]).ledger.tryReserve
      poolWaiter), hrefused]
    rfl
  · refine ⟨by decide, ?_, ?_⟩
    · intro reserved reserved' h h'
      cases h
      cases h'
      decide
    · intro opening opening' h h'
      cases h
      cases h'
      decide
  · decide +kernel
  · exact .inr ⟨.openPool, by simp, by decide +kernel⟩

end Rings.Inbound
