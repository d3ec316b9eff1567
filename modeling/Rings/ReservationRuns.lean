import Rings.ReservedCapacity

/-!
Runs of reservations and releases.

A class is named by its index; an index past the classes reserves and releases nothing, and
neither does a release of more than its class holds. From an empty capacity whose reservations
fit, every run leaves each class its reservation.
-/

namespace Rings

open Finset

variable {N : ℕ}

/-- The class at an index, if there is one. -/
def classAt (N i : ℕ) : Option (Fin N) := if h : i < N then some ⟨i, h⟩ else none

inductive ReservationOp where
  | tryReserve (classIndex amount : ℕ)
  | release (classIndex amount : ℕ)

namespace ReservedCapacity

def tryReserveAt (r : ReservedCapacity (Fin N)) (classIndex amount capacity : ℕ)
    (reservations : Fin N → ℕ) : Option (ReservedCapacity (Fin N)) :=
  (classAt N classIndex).bind fun c => r.tryReserve c amount capacity reservations

def releaseAt (r : ReservedCapacity (Fin N)) (classIndex amount : ℕ) : ReservedCapacity (Fin N) :=
  match classAt N classIndex with
  | none => r
  | some c => r.release c amount

variable {r r' : ReservedCapacity (Fin N)} {capacity : ℕ} {reservations : Fin N → ℕ}

lemma val_of_classAt {i : ℕ} {c : Fin N} (h : classAt N i = some c) : (c : ℕ) = i := by
  unfold classAt at h
  split at h
  · cases h
    rfl
  · cases h

/-- A release gives back what its class holds, or nothing. -/
lemma release_eq_or (r : ReservedCapacity (Fin N)) (c : Fin N) (amount : ℕ) :
    r.release c amount = r ∨ (r.release c amount).add c amount = r := by
  unfold release
  split
  · rename_i h
    right
    unfold add
    simp only [Function.update_self, Function.update_idem]
    rw [Nat.sub_add_cancel h.1, Nat.sub_add_cancel h.2, Function.update_eq_self]
  · exact Or.inl rfl

lemma Fair.release (h : r.Fair capacity reservations) (c : Fin N) (amount : ℕ) :
    (r.release c amount).Fair capacity reservations := by
  rcases r.release_eq_or c amount with heq | heq
  · rwa [heq]
  · have hadd : ((r.release c amount).add c amount).Fair capacity reservations := by rwa [heq]
    exact hadd.of_add

lemma Fair.releaseAt (h : r.Fair capacity reservations) (classIndex amount : ℕ) :
    (r.releaseAt classIndex amount).Fair capacity reservations := by
  unfold ReservedCapacity.releaseAt
  split
  · exact h
  · exact h.release _ _

lemma Fair.tryReserveAt (h : r.Fair capacity reservations) {classIndex amount : ℕ}
    (hr : r.tryReserveAt classIndex amount capacity reservations = some r') :
    ∃ c, classAt N classIndex = some c ∧ r' = r.add c amount ∧
      r'.Fair capacity reservations := by
  obtain ⟨c, hc, hr⟩ := Option.bind_eq_some_iff.1 hr
  obtain ⟨heq, hfair⟩ := h.tryReserve hr
  exact ⟨c, hc, heq, hfair⟩

lemma Fair.tryReserveAt_isSome (h : r.Fair capacity reservations) {c : Fin N} {amount : ℕ}
    (hle : r.admittedByClass c + amount ≤ reservations c) :
    (r.tryReserveAt c amount capacity reservations).isSome := by
  have hadd := r.others_add c reservations
  have hbound := h.bound
  have hfits : r.canReserve c amount capacity reservations = true := by
    rw [h.canReserve_iff]
    omega
  unfold ReservedCapacity.tryReserveAt classAt
  rw [dif_pos c.isLt, Option.bind_some]
  unfold ReservedCapacity.tryReserve
  rw [if_pos hfits, Option.isSome_some]

/-- One operation; a refused reservation changes nothing. -/
def act (capacity : ℕ) (reservations : Fin N → ℕ) (r : ReservedCapacity (Fin N)) :
    ReservationOp → ReservedCapacity (Fin N)
  | .tryReserve classIndex amount =>
    (r.tryReserveAt classIndex amount capacity reservations).getD r
  | .release classIndex amount => r.releaseAt classIndex amount

def run (capacity : ℕ) (reservations : Fin N → ℕ) (ops : List ReservationOp) :
    ReservedCapacity (Fin N) :=
  ops.foldl (act capacity reservations) new

lemma Fair.act (h : r.Fair capacity reservations) (op : ReservationOp) :
    (act capacity reservations r op).Fair capacity reservations := by
  cases op with
  | release classIndex amount => exact h.releaseAt classIndex amount
  | tryReserve classIndex amount =>
    simp only [ReservedCapacity.act]
    cases hr : r.tryReserveAt classIndex amount capacity reservations with
    | none => exact h
    | some r' =>
      obtain ⟨c, -, -, hfair⟩ := h.tryReserveAt hr
      exact hfair

lemma fair_run (hsum : ∑ i, reservations i ≤ capacity) (hcap : capacity ≤ usizeMax)
    (ops : List ReservationOp) : (run capacity reservations ops).Fair capacity reservations := by
  have hfold : ∀ r : ReservedCapacity (Fin N), r.Fair capacity reservations →
      (ops.foldl (ReservedCapacity.act capacity reservations) r).Fair capacity reservations := by
    induction ops with
    | nil => exact fun r h => h
    | cons op ops ih => exact fun r h => ih _ (h.act op)
  exact hfold new (fair_new hsum hcap)

end ReservedCapacity

namespace CountedReservedCapacity

/-- Reserve one transfer and then its bytes; the transfer is given back when they do not fit. -/
def tryReserveAt (r : CountedReservedCapacity (Fin N)) (classIndex bytes : ℕ)
    (limits : CountedLimits (Fin N)) :
    CountedReservedCapacity (Fin N) × Except CountedReservationRejection Unit :=
  match r.counts.tryReserveAt classIndex 1 limits.countCapacity limits.countReservations with
  | none => (r, .error .count)
  | some counts =>
    match r.bytes.tryReserveAt classIndex bytes limits.byteCapacity limits.byteReservations with
    | none => (⟨counts.releaseAt classIndex 1, r.bytes⟩, .error .bytes)
    | some bytes => (⟨counts, bytes⟩, .ok ())

def releaseAt (r : CountedReservedCapacity (Fin N)) (classIndex bytes : ℕ) :
    CountedReservedCapacity (Fin N) :=
  ⟨r.counts.releaseAt classIndex 1, r.bytes.releaseAt classIndex bytes⟩

variable {r r' : CountedReservedCapacity (Fin N)} {limits : CountedLimits (Fin N)}

/-- A refusal in either dimension gives back what it took in the other. -/
lemma Fair.tryReserveAt_error (h : r.Fair limits) {classIndex bytes : ℕ}
    {rejection : CountedReservationRejection}
    (hr : r.tryReserveAt classIndex bytes limits = (r', .error rejection)) : r' = r := by
  unfold CountedReservedCapacity.tryReserveAt at hr
  split at hr
  · cases hr
    rfl
  · rename_i counts hcounts
    obtain ⟨c, hc, heq, -⟩ := h.counts.tryReserveAt hcounts
    split at hr
    · cases hr
      unfold ReservedCapacity.releaseAt
      rw [hc, heq]
      simp only [ReservedCapacity.release_add]
    · cases hr

/-- A reservation granted in both dimensions adds its transfer and its bytes. -/
lemma Fair.tryReserveAt_ok (h : r.Fair limits) {classIndex bytes : ℕ}
    (hr : r.tryReserveAt classIndex bytes limits = (r', .ok ())) :
    ∃ c : Fin N, (c : ℕ) = classIndex ∧ r' = r.add c bytes ∧ r'.Fair limits := by
  unfold CountedReservedCapacity.tryReserveAt at hr
  split at hr
  · cases hr
  · rename_i counts hcounts
    obtain ⟨c, hc, hcount, hfair⟩ := h.counts.tryReserveAt hcounts
    split at hr
    · cases hr
    · rename_i total htotal
      obtain ⟨c', hc', hbyte, hfair'⟩ := h.bytes.tryReserveAt htotal
      cases hr
      cases hc.symm.trans hc'
      exact ⟨c, ReservedCapacity.val_of_classAt hc, by rw [hcount, hbyte]; rfl, hfair, hfair'⟩

lemma Fair.tryReserveAt (h : r.Fair limits) (classIndex bytes : ℕ) :
    (r.tryReserveAt classIndex bytes limits).1.Fair limits := by
  rcases hr : r.tryReserveAt classIndex bytes limits with ⟨r', verdict⟩
  cases verdict with
  | error rejection =>
    rw [h.tryReserveAt_error hr]
    exact h
  | ok u =>
    obtain ⟨-, -, -, hfair⟩ := h.tryReserveAt_ok hr
    exact hfair

def act (limits : CountedLimits (Fin N)) (r : CountedReservedCapacity (Fin N)) :
    ReservationOp → CountedReservedCapacity (Fin N)
  | .tryReserve classIndex bytes => (r.tryReserveAt classIndex bytes limits).1
  | .release classIndex bytes => r.releaseAt classIndex bytes

def run (limits : CountedLimits (Fin N)) (ops : List ReservationOp) :
    CountedReservedCapacity (Fin N) :=
  ops.foldl (act limits) new

lemma fair_run (hcounts : ∑ i, limits.countReservations i ≤ limits.countCapacity)
    (hbytes : ∑ i, limits.byteReservations i ≤ limits.byteCapacity)
    (hcountCap : limits.countCapacity ≤ usizeMax) (hbyteCap : limits.byteCapacity ≤ usizeMax)
    (ops : List ReservationOp) : (run limits ops).Fair limits := by
  have hact : ∀ r : CountedReservedCapacity (Fin N), r.Fair limits → ∀ op,
      (act limits r op).Fair limits := by
    intro r h op
    cases op with
    | tryReserve classIndex bytes => exact h.tryReserveAt classIndex bytes
    | release classIndex bytes => exact ⟨h.counts.releaseAt _ _, h.bytes.releaseAt _ _⟩
  have hfold : ∀ r : CountedReservedCapacity (Fin N), r.Fair limits →
      (ops.foldl (act limits) r).Fair limits := by
    induction ops with
    | nil => exact fun r h => h
    | cons op ops ih => exact fun r h => ih _ (hact r h op)
  exact hfold new
    ⟨ReservedCapacity.fair_new hcounts hcountCap, ReservedCapacity.fair_new hbytes hbyteCap⟩

end CountedReservedCapacity

/-- Reservations that fit a capacity are kept by every run: the amounts of the classes sum to
what is admitted, each class still has room for its reservation, a request within its class's
reservation is reserved, and a granted one adds its amount to its class and the total, a counted
one in both dimensions; a counted reservation refused in either changes neither. -/
theorem reservations_kept (capacity : ℕ) (reservations : Fin N → ℕ)
    (hsum : ∑ i, reservations i ≤ capacity) (hcap : capacity ≤ usizeMax)
    (limits : CountedLimits (Fin N))
    (hcounts : ∑ i, limits.countReservations i ≤ limits.countCapacity)
    (hbytes : ∑ i, limits.byteReservations i ≤ limits.byteCapacity)
    (hcountCap : limits.countCapacity ≤ usizeMax) (hbyteCap : limits.byteCapacity ≤ usizeMax)
    (ops : List ReservationOp) :
    (ReservedCapacity.run capacity reservations ops).admitted =
        ∑ i, (ReservedCapacity.run capacity reservations ops).admittedByClass i ∧
      ∑ i, max ((ReservedCapacity.run capacity reservations ops).admittedByClass i)
        (reservations i) ≤ capacity ∧
      (∀ c amount, (ReservedCapacity.run capacity reservations ops).admittedByClass c + amount ≤
          reservations c →
        ((ReservedCapacity.run capacity reservations ops).tryReserveAt c amount capacity
          reservations).isSome) ∧
      (∀ classIndex amount r',
        (ReservedCapacity.run capacity reservations ops).tryReserveAt classIndex amount capacity
            reservations = some r' →
          ∃ c : Fin N, (c : ℕ) = classIndex ∧
            r' = (ReservedCapacity.run capacity reservations ops).add c amount) ∧
      (∀ classIndex bytes r',
        (CountedReservedCapacity.run limits ops).tryReserveAt classIndex bytes limits =
            (r', .ok ()) →
          ∃ c : Fin N, (c : ℕ) = classIndex ∧
            r' = (CountedReservedCapacity.run limits ops).add c bytes) ∧
      ∀ classIndex bytes rejection r',
        (CountedReservedCapacity.run limits ops).tryReserveAt classIndex bytes limits =
            (r', .error rejection) →
          r' = CountedReservedCapacity.run limits ops := by
  have hfair := ReservedCapacity.fair_run hsum hcap ops
  have hcounted := CountedReservedCapacity.fair_run hcounts hbytes hcountCap hbyteCap ops
  refine ⟨hfair.total, hfair.bound, ?_, fun classIndex amount r' hr => ?_,
    fun classIndex bytes r' hr => ?_, ?_⟩
  · exact fun c amount hle => hfair.tryReserveAt_isSome hle
  · obtain ⟨c, hc, heq, -⟩ := hfair.tryReserveAt hr
    exact ⟨c, ReservedCapacity.val_of_classAt hc, heq⟩
  · obtain ⟨c, hc, heq, -⟩ := hcounted.tryReserveAt_ok hr
    exact ⟨c, hc, heq⟩
  · exact fun classIndex bytes rejection r' hr => hcounted.tryReserveAt_error hr

/-- Two classes of ten with three and four reserved, and a run that releases too much: the second
class still has its four, and six bytes more of the first are refused in both dimensions. -/
theorem reservations_kept_two :
    let ops : List ReservationOp := [.tryReserve 0 5, .release 0 9, .tryReserve 7 1]
    let r := ReservedCapacity.run 10 ![3, 4] ops
    let limits : CountedLimits (Fin 2) := ⟨2, ![1, 1], 10, ![3, 4]⟩
    let s := CountedReservedCapacity.run limits ops
    r.admitted = ∑ i, r.admittedByClass i ∧ ∑ i, max (r.admittedByClass i) (![3, 4] i) ≤ 10 ∧
      (∃ r', r.tryReserveAt 1 4 10 ![3, 4] = some r' ∧ r' = r.add 1 4) ∧
      (∃ s', s.tryReserveAt 1 4 limits = (s', .ok ()) ∧ s' = s.add 1 4) ∧
      ∃ s', s.tryReserveAt 0 6 limits = (s', .error .bytes) ∧ s' = s := by
  intro ops r limits s
  obtain ⟨htotal, hbound, hcovers, hgranted, hcounted, hrefused⟩ :=
    reservations_kept 10 ![3, 4] (by decide) (by decide) limits (by decide) (by decide)
      (by decide) (by decide) ops
  refine ⟨htotal, hbound, ?_, ⟨_, rfl, ?_⟩, ⟨_, rfl, hrefused 0 6 .bytes _ rfl⟩⟩
  · obtain ⟨r', hr⟩ := Option.isSome_iff_exists.1 (hcovers 1 4 (by decide))
    obtain ⟨c, hc, heq⟩ := hgranted 1 4 r' hr
    obtain rfl : c = 1 := Fin.ext hc
    exact ⟨r', hr, heq⟩
  · obtain ⟨c, hc, heq⟩ := hcounted 1 4 _ rfl
    obtain rfl : c = 1 := Fin.ext hc
    exact heq

end Rings
