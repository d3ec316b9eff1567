import Mathlib.Algebra.BigOperators.Ring.Finset
import Mathlib.Algebra.BigOperators.Group.Multiset.Basic
import Rings.Did

/-!
A capacity shared by classes, each with a fixed reservation.

What one class does not hold of its own reservation is kept from the others, so a class never
takes more than is left once every other class has its own. A request its reservation covers
therefore always fits. What a capacity has admitted is read off the charges that are live.
-/

namespace Rings

open Finset

section Fits

variable {ι : Type*} (admittedByClass reservations : ι → ℕ) (class_ : ι) (amount : ℕ)

/-- The class's own reservation covers `amount` more. -/
def fixedReservationCovers : Bool :=
  match checkedAdd usizeMax (admittedByClass class_) amount with
  | none => false
  | some next => next ≤ reservations class_

/-- `amount` more fits beside what the other classes may still take of their reservations. -/
def fairReservationFits [Fintype ι] [DecidableEq ι] (admitted capacity : ℕ) : Bool :=
  let reservedForOthers := ∑ i ∈ univ.erase class_, (reservations i - admittedByClass i)
  match checkedAdd usizeMax admitted amount with
  | none => false
  | some next => next ≤ capacity - reservedForOthers

/-- The most a class can be admitted at once. -/
def admissibleCapacity [Fintype ι] [DecidableEq ι] (capacity : ℕ) : ℕ :=
  capacity - ∑ i ∈ univ.erase class_, reservations i

end Fits

structure ReservedCapacity (ι : Type*) where
  admitted : ℕ
  admittedByClass : ι → ℕ

namespace ReservedCapacity

variable {ι : Type*} [Fintype ι] [DecidableEq ι]

def new : ReservedCapacity ι := ⟨0, fun _ => 0⟩

def reservationCovers (r : ReservedCapacity ι) (class_ : ι) (amount : ℕ)
    (reservations : ι → ℕ) : Bool :=
  fixedReservationCovers r.admittedByClass reservations class_ amount

def canReserve (r : ReservedCapacity ι) (class_ : ι) (amount capacity : ℕ)
    (reservations : ι → ℕ) : Bool :=
  fairReservationFits r.admittedByClass reservations class_ amount r.admitted capacity

def tryReserve (r : ReservedCapacity ι) (class_ : ι) (amount capacity : ℕ)
    (reservations : ι → ℕ) : Option (ReservedCapacity ι) :=
  if r.canReserve class_ amount capacity reservations then
    some ⟨saturatingAdd usizeMax r.admitted amount,
      Function.update r.admittedByClass class_
        (saturatingAdd usizeMax (r.admittedByClass class_) amount)⟩
  else none

def release (r : ReservedCapacity ι) (class_ : ι) (amount : ℕ) : ReservedCapacity ι :=
  if amount ≤ r.admittedByClass class_ ∧ amount ≤ r.admitted then
    ⟨r.admitted - amount,
      Function.update r.admittedByClass class_ (r.admittedByClass class_ - amount)⟩
  else r

/-! ### Fair shares -/

/-- Every class can still have its reservation. -/
structure Fair (r : ReservedCapacity ι) (capacity : ℕ) (reservations : ι → ℕ) : Prop where
  total : r.admitted = ∑ i, r.admittedByClass i
  bound : ∑ i, max (r.admittedByClass i) (reservations i) ≤ capacity
  capacity : capacity ≤ usizeMax

variable {r r' : ReservedCapacity ι} {c : ι} {amount capacity : ℕ} {reservations : ι → ℕ}

omit [DecidableEq ι] in
lemma fair_new (hbound : ∑ i, reservations i ≤ capacity) (hcap : capacity ≤ usizeMax) :
    (new : ReservedCapacity ι).Fair capacity reservations where
  total := by simp [new]
  bound := by simpa [new] using hbound
  capacity := hcap

/-- What the other classes hold or may still take. -/
def others (r : ReservedCapacity ι) (c : ι) (reservations : ι → ℕ) : ℕ :=
  ∑ i ∈ univ.erase c, max (r.admittedByClass i) (reservations i)

lemma others_add (r : ReservedCapacity ι) (c : ι) (reservations : ι → ℕ) :
    r.others c reservations + max (r.admittedByClass c) (reservations c) =
      ∑ i, max (r.admittedByClass i) (reservations i) :=
  sum_erase_add _ _ (mem_univ c)

/-- The classes but one hold their admitted amounts and the rest of their reservations. -/
lemma others_eq (r : ReservedCapacity ι) (c : ι) (reservations : ι → ℕ) :
    r.others c reservations = ∑ i ∈ univ.erase c, r.admittedByClass i +
      ∑ i ∈ univ.erase c, (reservations i - r.admittedByClass i) := by
  rw [others, ← sum_add_distrib]
  refine sum_congr rfl fun i _ => ?_
  omega

lemma Fair.canReserve_iff (h : r.Fair capacity reservations) :
    r.canReserve c amount capacity reservations = true ↔
      r.admittedByClass c + amount + r.others c reservations ≤ capacity := by
  have htotal := sum_erase_add univ r.admittedByClass (mem_univ c)
  have hothers := r.others_eq c reservations
  have hadd := r.others_add c reservations
  have hbound := h.bound
  have hcap := h.capacity
  have heq := h.total
  unfold canReserve fairReservationFits checkedAdd
  split
  · rename_i hnone
    split at hnone
    · cases hnone
    · simp only [Bool.false_eq_true, false_iff]
      omega
  · rename_i next hsome
    split at hsome
    · cases hsome
      simp only [decide_eq_true_eq]
      omega
    · cases hsome

/-- A request its own reservation covers fits. -/
lemma Fair.canReserve_of_covers (h : r.Fair capacity reservations)
    (hcovers : r.reservationCovers c amount reservations = true) :
    r.canReserve c amount capacity reservations = true := by
  rw [h.canReserve_iff]
  have hadd := r.others_add c reservations
  have hbound := h.bound
  have hle : r.admittedByClass c + amount ≤ reservations c := by
    unfold reservationCovers fixedReservationCovers checkedAdd at hcovers
    split at hcovers
    · cases hcovers
    · rename_i next hsome
      split at hsome
      · cases hsome
        simpa using hcovers
      · cases hsome
  omega

/-- The capacity with `amount` more of `c`. -/
def add (r : ReservedCapacity ι) (c : ι) (amount : ℕ) : ReservedCapacity ι :=
  ⟨r.admitted + amount, Function.update r.admittedByClass c (r.admittedByClass c + amount)⟩

omit [Fintype ι] in
lemma add_admittedByClass (r : ReservedCapacity ι) (c i : ι) (amount : ℕ) :
    (r.add c amount).admittedByClass i =
      r.admittedByClass i + if i = c then amount else 0 := by
  unfold add
  by_cases h : i = c
  · subst h
    simp
  · simp [h]

lemma others_add_class (r : ReservedCapacity ι) (c : ι) (amount : ℕ) (reservations : ι → ℕ) :
    (r.add c amount).others c reservations = r.others c reservations := by
  unfold others
  refine sum_congr rfl fun i hi => ?_
  rw [add_admittedByClass, if_neg (ne_of_mem_erase hi), Nat.add_zero]

lemma Fair.tryReserve (h : r.Fair capacity reservations)
    (hr : r.tryReserve c amount capacity reservations = some r') :
    r' = r.add c amount ∧ r'.Fair capacity reservations := by
  unfold ReservedCapacity.tryReserve at hr
  split at hr
  · rename_i hfits
    rw [h.canReserve_iff] at hfits
    have hadd := r.others_add c reservations
    have hbound := h.bound
    have hcap := h.capacity
    have htotal := sum_erase_add univ r.admittedByClass (mem_univ c)
    have hle : ∑ i ∈ univ.erase c, r.admittedByClass i ≤ r.others c reservations :=
      sum_le_sum fun i _ => le_max_left _ _
    have heq := h.total
    have hr' : r' = r.add c amount := by
      simp only [Option.some.injEq] at hr
      rw [← hr]
      unfold add saturatingAdd
      rw [min_eq_left (by omega), min_eq_left (by omega)]
    refine ⟨hr', ?_, ?_, hcap⟩
    · rw [hr', ← sum_erase_add univ _ (mem_univ c), add_admittedByClass, if_pos rfl]
      have hsame : ∑ i ∈ univ.erase c, (r.add c amount).admittedByClass i =
          ∑ i ∈ univ.erase c, r.admittedByClass i := by
        refine sum_congr rfl fun i hi => ?_
        rw [add_admittedByClass, if_neg (ne_of_mem_erase hi), Nat.add_zero]
      rw [hsame]
      unfold add
      simp only []
      omega
    · rw [hr', ← others_add _ c, others_add_class, add_admittedByClass, if_pos rfl]
      omega
  · cases hr

omit [Fintype ι] in
lemma release_add (r : ReservedCapacity ι) (c : ι) (amount : ℕ) :
    (r.add c amount).release c amount = r := by
  have hclass := r.add_admittedByClass c c amount
  rw [if_pos rfl] at hclass
  unfold release
  rw [if_pos ⟨by omega, Nat.le_add_left _ _⟩]
  unfold add
  simp

/-- A capacity with less of one class is fair. -/
lemma Fair.of_add (h : (r.add c amount).Fair capacity reservations) :
    r.Fair capacity reservations where
  total := by
    have htotal := h.total
    simp only [add_admittedByClass, sum_add_distrib, sum_ite_eq', mem_univ, if_true] at htotal
    unfold add at htotal
    simp only [] at htotal
    omega
  bound := by
    refine le_trans (sum_le_sum fun i _ => ?_) h.bound
    have := r.add_admittedByClass c i amount
    omega
  capacity := h.capacity

/-! ### Live charges -/

section Charges

variable {α : Type*} (class_ : α → ι) (size : α → ℕ)

/-- The capacity the charges of `s` take. -/
def ofCharges (s : Multiset α) : ReservedCapacity ι :=
  ⟨(s.map size).sum, fun i => ((s.filter fun a => class_ a = i).map size).sum⟩

omit [Fintype ι] in
lemma ofCharges_cons (a : α) (s : Multiset α) :
    ofCharges class_ size (a ::ₘ s) = (ofCharges class_ size s).add (class_ a) (size a) := by
  unfold ofCharges add
  simp only [Multiset.map_cons, Multiset.sum_cons, mk.injEq]
  refine ⟨Nat.add_comm _ _, ?_⟩
  funext i
  by_cases h : class_ a = i
  · subst h
    simp [Nat.add_comm]
  · rw [Multiset.filter_cons_of_neg (p := fun b => class_ b = i) _ h,
      Function.update_of_ne (Ne.symm h)]

omit [Fintype ι] in
lemma ofCharges_zero : ofCharges class_ size 0 = (new : ReservedCapacity ι) := by
  unfold ofCharges new
  simp

end Charges

end ReservedCapacity

inductive CountedReservationRejection where
  | count
  | bytes

/-- A capacity of transfers and one of their bytes, reserved together. -/
structure CountedReservedCapacity (ι : Type*) where
  counts : ReservedCapacity ι
  bytes : ReservedCapacity ι

/-- A counted capacity and the reservations of its classes, in transfers and in bytes. -/
structure CountedLimits (ι : Type*) where
  countCapacity : ℕ
  countReservations : ι → ℕ
  byteCapacity : ℕ
  byteReservations : ι → ℕ

namespace CountedReservedCapacity

variable {ι : Type*} [Fintype ι] [DecidableEq ι]

def new : CountedReservedCapacity ι := ⟨.new, .new⟩

def reservationCovers (r : CountedReservedCapacity ι) (class_ : ι) (bytes : ℕ)
    (limits : CountedLimits ι) : Bool :=
  r.counts.reservationCovers class_ 1 limits.countReservations &&
    r.bytes.reservationCovers class_ bytes limits.byteReservations

/-- Reserve one transfer and then its bytes; the transfer is given back when they do not fit. -/
def tryReserve (r : CountedReservedCapacity ι) (class_ : ι) (bytes : ℕ)
    (limits : CountedLimits ι) :
    CountedReservedCapacity ι × Except CountedReservationRejection Unit :=
  match r.counts.tryReserve class_ 1 limits.countCapacity limits.countReservations with
  | none => (r, .error .count)
  | some counts =>
    match r.bytes.tryReserve class_ bytes limits.byteCapacity limits.byteReservations with
    | none => (⟨counts.release class_ 1, r.bytes⟩, .error .bytes)
    | some bytes => (⟨counts, bytes⟩, .ok ())

def release (r : CountedReservedCapacity ι) (class_ : ι) (bytes : ℕ) :
    CountedReservedCapacity ι :=
  ⟨r.counts.release class_ 1, r.bytes.release class_ bytes⟩

structure Fair (r : CountedReservedCapacity ι) (limits : CountedLimits ι) : Prop where
  counts : r.counts.Fair limits.countCapacity limits.countReservations
  bytes : r.bytes.Fair limits.byteCapacity limits.byteReservations

/-- The capacity with one more transfer of `c`. -/
def add (r : CountedReservedCapacity ι) (c : ι) (bytes : ℕ) : CountedReservedCapacity ι :=
  ⟨r.counts.add c 1, r.bytes.add c bytes⟩

variable {r r' : CountedReservedCapacity ι} {c : ι} {bytes : ℕ} {limits : CountedLimits ι}

lemma Fair.tryReserve_ok (h : r.Fair limits)
    (hr : r.tryReserve c bytes limits = (r', .ok ())) :
    r' = r.add c bytes ∧ r'.Fair limits := by
  unfold CountedReservedCapacity.tryReserve at hr
  split at hr
  · cases hr
  · rename_i counts hcounts
    obtain ⟨hc, hfair⟩ := h.counts.tryReserve hcounts
    split at hr
    · cases hr
    · rename_i total htotal
      obtain ⟨hb, hfair'⟩ := h.bytes.tryReserve htotal
      cases hr
      refine ⟨?_, hfair, hfair'⟩
      rw [hc, hb]
      rfl

/-- A transfer its class's reservation covers is reserved. -/
lemma Fair.tryReserve_of_covers (h : r.Fair limits)
    (hcovers : r.reservationCovers c bytes limits = true) :
    (r.tryReserve c bytes limits).2 = .ok () := by
  unfold reservationCovers at hcovers
  rw [Bool.and_eq_true] at hcovers
  have hcounts := h.counts.canReserve_of_covers hcovers.1
  have hbytes := h.bytes.canReserve_of_covers hcovers.2
  unfold CountedReservedCapacity.tryReserve ReservedCapacity.tryReserve
  rw [if_pos hcounts, if_pos hbytes]

omit [Fintype ι] in
lemma release_add (r : CountedReservedCapacity ι) (c : ι) (bytes : ℕ) :
    (r.add c bytes).release c bytes = r := by
  unfold release add
  rw [ReservedCapacity.release_add, ReservedCapacity.release_add]

lemma Fair.of_add (h : (r.add c bytes).Fair limits) : r.Fair limits :=
  ⟨h.counts.of_add, h.bytes.of_add⟩

omit [Fintype ι] in
/-- What a reservation covers depends on its own class alone. -/
lemma reservationCovers_add_of_ne {d : ι} (h : d ≠ c) (amount : ℕ) :
    (r.add c bytes).reservationCovers d amount limits = r.reservationCovers d amount limits := by
  unfold reservationCovers ReservedCapacity.reservationCovers fixedReservationCovers add
  simp only [ReservedCapacity.add_admittedByClass, if_neg h, Nat.add_zero]

/-- The capacity the charges of `s` take, one transfer each. -/
def ofCharges {α : Type*} (class_ : α → ι) (size : α → ℕ) (s : Multiset α) :
    CountedReservedCapacity ι :=
  ⟨.ofCharges class_ (fun _ => 1) s, .ofCharges class_ size s⟩

omit [Fintype ι] in
lemma ofCharges_cons {α : Type*} (class_ : α → ι) (size : α → ℕ) (a : α) (s : Multiset α) :
    ofCharges class_ size (a ::ₘ s) = (ofCharges class_ size s).add (class_ a) (size a) := by
  unfold ofCharges add
  rw [ReservedCapacity.ofCharges_cons, ReservedCapacity.ofCharges_cons]

omit [Fintype ι] in
lemma ofCharges_zero {α : Type*} (class_ : α → ι) (size : α → ℕ) :
    ofCharges class_ size 0 = (new : CountedReservedCapacity ι) := by
  unfold ofCharges new
  rw [ReservedCapacity.ofCharges_zero, ReservedCapacity.ofCharges_zero]

omit [Fintype ι] in
lemma ofCharges_count {α : Type*} (class_ : α → ι) (size : α → ℕ) (s : Multiset α) :
    (ofCharges class_ size s).counts.admitted = s.card := by
  unfold ofCharges ReservedCapacity.ofCharges
  simp

end CountedReservedCapacity

end Rings
