import Mathlib.Algebra.BigOperators.Fin
import Mathlib.Data.Fintype.BigOperators
import Mathlib.Data.Prod.Lex
import Mathlib.Logic.Relation
import Rings.BTreeMap
import Rings.Did

/-!
The slot accounting of a node-wide table.

Every item of a table is charged to the principal that introduced it: a connection slot, the
node itself, one of its dedicated duties, or a delivery on no slot. A slot holds a floor of its
own and shares a pool with the others in fair claims; the other principals hold a share of
their own. The aggregates of the pool are kept by re-weighing the one principal a transition
touches, and no run of admitted transitions takes the table past its bound.
-/

namespace Rings

inductive Principal where
  | slot (index : Fin (2 ^ 16))
  | localNode
  | inbox
  | custody
  | unbound
deriving Fintype

namespace Principal

/-- The place of a principal in the derived order: the slots first, in order. -/
def rank : Principal → ℕ
  | slot index => index
  | localNode => 2 ^ 16
  | inbox => 2 ^ 16 + 1
  | custody => 2 ^ 16 + 2
  | unbound => 2 ^ 16 + 3

lemma rank_injective : Function.Injective rank := by
  intro p q h
  cases p <;> cases q <;> simp only [rank] at h <;> first | rfl | skip
  all_goals first | omega | skip
  rw [Fin.ext h]

instance linearOrder : LinearOrder Principal := LinearOrder.lift' rank rank_injective

end Principal

/-- The shares of one table. No sum of a share and what it already holds saturates: the shares
of every table of the node are constants far below the width of a `usize`. -/
structure Shares where
  floor : ℕ
  pool : ℕ
  localShare : ℕ
  inbox : ℕ
  custody : ℕ
  fits : floor + pool < usizeMax ∧ localShare < usizeMax ∧ inbox < usizeMax ∧ custody < usizeMax

namespace Shares

def bound (s : Shares) (slots : ℕ) : ℕ :=
  slots * s.floor + s.pool + s.localShare + s.inbox + s.custody

def reserved (s : Shares) : Principal → Option ℕ
  | .localNode => some s.localShare
  | .inbox => some s.inbox
  | .custody => some s.custody
  | .slot _ | .unbound => none

lemma reserved_lt {s : Shares} {p : Principal} {share : ℕ} (h : s.reserved p = some share) :
    share < usizeMax := by
  obtain ⟨-, h1, h2, h3⟩ := s.fits
  cases p <;> simp only [reserved, Option.some.injEq, reduceCtorEq] at h <;> omega

end Shares

/-- `RECEIVER_STREAM_SHARES`: the shares of the receiver streams of the replay table. -/
def receiverStreamShares : Shares := ⟨32, 3328, 1024, 768, 0, by decide⟩

/-- `REMOVAL_SHARES`: the shares of the removal store. -/
def removalShares : Shares := ⟨128, 16384, 7168, 0, 16384, by decide⟩

inductive ShareRefusal where
  | poolFull (held pool : ℕ)
  | fairClaim (held claim : ℕ)
  | reservedShare (held share : ℕ)
  | tableFull (held bound : ℕ)
deriving DecidableEq

/-- `a.div_ceil(b)`. -/
def divCeil (a b : ℕ) : ℕ := (a + b - 1) / b

abbrev ExpiryKey := ℕ ×ₗ Principal

/-- The accounting of one table: the items of every principal, the items by the instant they
leave and their principal, and the two aggregates of the pool. -/
structure SlotAccounting where
  shares : Shares
  held : BTreeMap Principal ℕ
  expiry : BTreeMap ExpiryKey ℕ
  poolHeld : ℕ
  claimants : ℕ

namespace SlotAccounting

def new (shares : Shares) : SlotAccounting := ⟨shares, .empty, .empty, 0, 0⟩

def len (s : SlotAccounting) : ℕ := s.held.sumBy fun _ held => held

/-- `u(π)`. -/
def heldBy (s : SlotAccounting) (p : Principal) : ℕ := (s.held.get? p).getD 0

def poolItemsAt (s : SlotAccounting) (p : Principal) (held : ℕ) : ℕ :=
  match p with
  | .slot _ => held - s.shares.floor
  | .unbound => held
  | .localNode | .inbox | .custody => 0

def poolItems (s : SlotAccounting) (p : Principal) : ℕ := s.poolItemsAt p (s.heldBy p)

/-- Apply `change` to the state of `p` alone, re-weighing its pool items. -/
def reweigh (s : SlotAccounting) (p : Principal) (change : SlotAccounting → SlotAccounting) :
    SlotAccounting :=
  let before := s.poolItems p
  let s' := change s
  let after := s'.poolItems p
  { s' with
    poolHeld := s'.poolHeld - before + after
    claimants := s'.claimants - (decide (before > 0)).toNat + (decide (after > 0)).toNat }

/-- Whether `items` more items introduced by `p` are admitted together. -/
def admitItems (s : SlotAccounting) (p : Principal) (items : ℕ) : Except ShareRefusal Unit :=
  let held := s.heldBy p
  match s.shares.reserved p with
  | some share =>
    if saturatingAdd usizeMax held items ≤ share then .ok ()
    else .error (.reservedShare held share)
  | none =>
    let claimed := s.poolItems p
    let overflow := s.poolItemsAt p (saturatingAdd usizeMax held items) - claimed
    if overflow = 0 then .ok ()
    else if saturatingAdd usizeMax s.poolHeld overflow > s.shares.pool then
      .error (.poolFull s.poolHeld s.shares.pool)
    else
      let claimants := s.claimants + (decide (claimed = 0)).toNat
      let claim := divCeil s.shares.pool (max claimants 1)
      if saturatingAdd usizeMax claimed overflow ≤ claim then .ok ()
      else .error (.fairClaim claimed claim)

def withinFloor (s : SlotAccounting) (p : Principal) (items : ℕ) : Bool :=
  match p with
  | .slot _ => saturatingAdd usizeMax (s.heldBy p) items ≤ s.shares.floor
  | _ => false

/-- Whether `items` items of slot `p` fit its floor once it holds nothing. -/
def fitsFloor (s : SlotAccounting) (p : Principal) (items : ℕ) : Bool :=
  match p with
  | .slot _ => items ≤ s.shares.floor
  | _ => false

def tryAdmit (s : SlotAccounting) (p : Principal) : Except ShareRefusal Unit := s.admitItems p 1

def hold (s : SlotAccounting) (p : Principal) (items : ℕ) : SlotAccounting :=
  s.reweigh p fun s => { s with held := s.held.insert p ((s.held.get? p).getD 0 + items) }

def charge (s : SlotAccounting) (p : Principal) (untilMs : ℕ) : SlotAccounting :=
  let s := s.hold p 1
  let key : ExpiryKey := toLex (untilMs, p)
  { s with expiry := s.expiry.insert key ((s.expiry.get? key).getD 0 + 1) }

def release (s : SlotAccounting) (p : Principal) (items : ℕ) : SlotAccounting :=
  s.reweigh p fun s =>
    match s.held.get? p with
    | none => s
    | some held =>
      if held - items = 0 then { s with held := s.held.remove p }
      else { s with held := s.held.insert p (held - items) }

/-- Forget one item of `p` that leaves at `untilMs`; nothing when it holds none. -/
def discharge (s : SlotAccounting) (p : Principal) (untilMs : ℕ) : SlotAccounting :=
  let key : ExpiryKey := toLex (untilMs, p)
  match s.expiry.get? key with
  | none => s
  | some count =>
    let expiry := if count - 1 = 0 then s.expiry.remove key else s.expiry.insert key (count - 1)
    { s with expiry }.release p 1

/-- The loop of `advance`: the first key at or before `nowMs` gives up one item at a time. -/
def advanceLoop (nowMs : ℕ) : ℕ → SlotAccounting → SlotAccounting
  | 0, s => s
  | fuel + 1, s =>
    match s.expiry.first? with
    | none => s
    | some (key, _) =>
      if (ofLex key).1 > nowMs then s
      else advanceLoop nowMs fuel (s.discharge (ofLex key).2 (ofLex key).1)

/-- What the loop of `advance` takes down at every turn. -/
def expiryWeight (s : SlotAccounting) : ℕ := s.expiry.sumBy fun _ count => count + 1

def advance (s : SlotAccounting) (nowMs : ℕ) : SlotAccounting :=
  advanceLoop nowMs s.expiryWeight s

/-! ### What the transitions do to the items of each principal -/

section Frame

variable (s : SlotAccounting) (p q : Principal) (items untilMs : ℕ)

@[simp] lemma reweigh_shares (change : SlotAccounting → SlotAccounting) :
    (s.reweigh p change).shares = (change s).shares := rfl

@[simp] lemma reweigh_held (change : SlotAccounting → SlotAccounting) :
    (s.reweigh p change).held = (change s).held := rfl

@[simp] lemma reweigh_expiry (change : SlotAccounting → SlotAccounting) :
    (s.reweigh p change).expiry = (change s).expiry := rfl

@[simp] lemma hold_shares : (s.hold p items).shares = s.shares := rfl

@[simp] lemma hold_expiry : (s.hold p items).expiry = s.expiry := rfl

lemma heldBy_hold :
    (s.hold p items).heldBy q = if q = p then s.heldBy q + items else s.heldBy q := by
  rw [heldBy, hold, reweigh_held, BTreeMap.get?_insert]
  split
  · rename_i h
    rw [h, heldBy, Option.getD_some]
  · rfl

lemma release_shares : (s.release p items).shares = s.shares := by
  rw [release, reweigh_shares]
  split
  · rfl
  · split <;> rfl

lemma release_expiry : (s.release p items).expiry = s.expiry := by
  rw [release, reweigh_expiry]
  split
  · rfl
  · split <;> rfl

lemma heldBy_release :
    (s.release p items).heldBy q = if q = p then s.heldBy q - items else s.heldBy q := by
  rw [heldBy, release, reweigh_held, heldBy]
  rcases hg : s.held.get? p with _ | held
  · simp only [right_eq_ite_iff]
    rintro rfl
    simp [hg]
  · by_cases hq : q = p
    · subst hq
      by_cases h0 : held - items = 0
      · simp [h0, hg, BTreeMap.get?_remove]
      · simp [h0, hg, BTreeMap.get?_insert]
    · by_cases h0 : held - items = 0
      · simp [h0, hq, BTreeMap.get?_remove]
      · simp [h0, hq, BTreeMap.get?_insert]

@[simp] lemma charge_shares : (s.charge p untilMs).shares = s.shares := rfl

lemma heldBy_charge :
    (s.charge p untilMs).heldBy q = if q = p then s.heldBy q + 1 else s.heldBy q :=
  s.heldBy_hold p q 1

lemma discharge_shares : (s.discharge p untilMs).shares = s.shares := by
  rw [discharge]
  split
  · rfl
  · rw [release_shares]

end Frame

/-! ### Floors -/

lemma admitItems_of_withinFloor {s : SlotAccounting} {p : Principal} {items : ℕ}
    (h : s.withinFloor p items = true) : s.admitItems p items = .ok () := by
  cases p with
  | slot index =>
    have hle : saturatingAdd usizeMax (s.heldBy (.slot index)) items ≤ s.shares.floor := by
      simpa [withinFloor] using h
    have hoverflow : s.poolItemsAt (.slot index)
        (saturatingAdd usizeMax (s.heldBy (.slot index)) items) - s.poolItems (.slot index) = 0 := by
      unfold poolItemsAt
      simp only []
      omega
    unfold admitItems
    simp only [Shares.reserved, hoverflow, if_true]
  | _ => simp [withinFloor] at h

/-- What stays within a floor depends on the items of its own slot alone. -/
lemma withinFloor_congr {s t : SlotAccounting} {p : Principal} (hshares : t.shares = s.shares)
    (hheld : t.heldBy p = s.heldBy p) (items : ℕ) :
    t.withinFloor p items = s.withinFloor p items := by
  cases p <;> simp [withinFloor, hshares, hheld]

lemma fitsFloor_of_withinFloor {s t : SlotAccounting} {p : Principal} {items : ℕ}
    (hshares : t.shares = s.shares) (h : t.withinFloor p items = true) :
    s.fitsFloor p items = true := by
  have hfits := s.shares.fits.1
  cases p with
  | slot index =>
    have hle : saturatingAdd usizeMax (t.heldBy (.slot index)) items ≤ t.shares.floor := by
      simpa [withinFloor] using h
    rw [hshares] at hle
    unfold saturatingAdd at hle
    simp only [fitsFloor, decide_eq_true_eq]
    omega
  | _ => simp [withinFloor] at h

/-! ### The weights of the pool -/

/-- The aggregates of the pool are those of its principals. -/
structure Weighed (s : SlotAccounting) : Prop where
  pool : s.poolHeld = ∑ p, s.poolItems p
  claim : s.claimants = (Finset.univ.filter fun p => 0 < s.poolItems p).card

/-- The sum of a weight that changes at one principal alone. -/
lemma sum_change {w w' : Principal → ℕ} {p : Principal} (h : ∀ q, q ≠ p → w' q = w q) :
    ∑ q, w' q = ∑ q, w q - w p + w' p := by
  have hw := Finset.add_sum_erase Finset.univ w (Finset.mem_univ p)
  have hw' := Finset.add_sum_erase Finset.univ w' (Finset.mem_univ p)
  have heq : ∑ q ∈ Finset.univ.erase p, w' q = ∑ q ∈ Finset.univ.erase p, w q :=
    Finset.sum_congr rfl fun q hq => h q (Finset.ne_of_mem_erase hq)
  omega

lemma toNat_decide (P : Prop) [Decidable P] : (decide P).toNat = if P then 1 else 0 := by
  split <;> simp_all

/-- A change of one principal's items, re-weighed, keeps the aggregates exact. -/
lemma Weighed.reweigh {s : SlotAccounting} (h : s.Weighed) {p : Principal}
    {change : SlotAccounting → SlotAccounting} (hshares : (change s).shares = s.shares)
    (hpool : (change s).poolHeld = s.poolHeld) (hclaim : (change s).claimants = s.claimants)
    (hheld : ∀ q, q ≠ p → (change s).heldBy q = s.heldBy q) : (s.reweigh p change).Weighed := by
  have hitems : ∀ q, (s.reweigh p change).poolItems q = (change s).poolItems q := fun _ => rfl
  have hother : ∀ q, q ≠ p → (change s).poolItems q = s.poolItems q := by
    intro q hq
    rw [poolItems, hheld q hq, poolItems]
    cases q <;> simp [poolItemsAt, hshares]
  refine ⟨?_, ?_⟩
  · simp only [hitems]
    rw [sum_change hother, ← h.pool, ← hpool]
    rfl
  · simp only [hitems]
    rw [Finset.card_filter, sum_change (w := fun q => if 0 < s.poolItems q then 1 else 0)
      fun q hq => by rw [hother q hq], ← Finset.card_filter, ← h.claim, ← hclaim]
    simp only [SlotAccounting.reweigh, toNat_decide, gt_iff_lt]

lemma Weighed.hold {s : SlotAccounting} (h : s.Weighed) (p : Principal) (items : ℕ) :
    (s.hold p items).Weighed := by
  refine h.reweigh rfl rfl rfl fun q hq => ?_
  rw [heldBy, BTreeMap.get?_insert, if_neg hq, heldBy]

lemma Weighed.release {s : SlotAccounting} (h : s.Weighed) (p : Principal) (items : ℕ) :
    (s.release p items).Weighed := by
  refine h.reweigh ?_ ?_ ?_ ?_
  · split
    · rfl
    · split <;> rfl
  · split
    · rfl
    · split <;> rfl
  · split
    · rfl
    · split <;> rfl
  · intro q hq
    have := s.heldBy_release p q items
    rwa [if_neg hq] at this

/-- What every discharge keeps, a passage of time keeps. -/
lemma advance_induction {P : SlotAccounting → Prop}
    (hstep : ∀ s p untilMs, P s → P (s.discharge p untilMs)) {s : SlotAccounting} (h : P s)
    (nowMs : ℕ) : P (s.advance nowMs) := by
  have hloop : ∀ fuel s, P s → P (advanceLoop nowMs fuel s) := by
    intro fuel
    induction fuel with
    | zero => exact fun s hs => hs
    | succ fuel ih =>
      intro s hs
      rw [advanceLoop]
      split
      · exact hs
      · split
        · exact hs
        · exact ih _ (hstep _ _ _ hs)
  exact hloop _ s h

/-! ### The bound of the table -/

/-- A principal the roster of `slots` connection slots can name. -/
def Drawn (slots : ℕ) : Principal → Prop
  | .slot index => index < slots
  | _ => True

/-- One transition of the table; a charge or a hold follows an admission of the same items. -/
inductive Step (slots : ℕ) : SlotAccounting → SlotAccounting → Prop
  | tryAdmit (s : SlotAccounting) (p : Principal) (items : ℕ) (r : Except ShareRefusal Unit)
      (verdict : s.admitItems p items = r) : Step slots s s
  | charge (s : SlotAccounting) (p : Principal) (untilMs : ℕ) (drawn : Drawn slots p)
      (admitted : s.tryAdmit p = .ok ()) : Step slots s (s.charge p untilMs)
  | hold (s : SlotAccounting) (p : Principal) (items : ℕ) (drawn : Drawn slots p)
      (admitted : s.admitItems p items = .ok ()) : Step slots s (s.hold p items)
  | release (s : SlotAccounting) (p : Principal) (items : ℕ) : Step slots s (s.release p items)
  | discharge (s : SlotAccounting) (p : Principal) (untilMs : ℕ) :
      Step slots s (s.discharge p untilMs)
  | advance (s : SlotAccounting) (nowMs : ℕ) : Step slots s (s.advance nowMs)

/-- The tables a run of transitions reaches from the empty one. -/
def Reachable (shares : Shares) (slots : ℕ) (s : SlotAccounting) : Prop :=
  Relation.ReflTransGen (Step slots) (new shares) s

/-- The accounting of a table within its shares. -/
structure Within (slots : ℕ) (s : SlotAccounting) : Prop extends Weighed s where
  pool_le : s.poolHeld ≤ s.shares.pool
  reserved_le : ∀ p share, s.shares.reserved p = some share → s.heldBy p ≤ share
  drawn : ∀ p, 0 < s.heldBy p → Drawn slots p

variable {slots : ℕ} {s : SlotAccounting}

lemma poolItems_new (shares : Shares) (p : Principal) : (new shares).poolItems p = 0 := by
  cases p with
  | slot index => exact Nat.zero_sub _
  | _ => rfl

lemma within_new (shares : Shares) (slots : ℕ) : (new shares).Within slots where
  pool := by simp only [poolItems_new, Finset.sum_const_zero]; rfl
  claim := by simp only [poolItems_new, lt_irrefl, Finset.filter_false, Finset.card_empty]; rfl
  pool_le := Nat.zero_le _
  reserved_le := fun _ _ _ => Nat.zero_le _
  drawn := fun _ h => absurd h (lt_irrefl 0)

/-- Items taken off one principal keep the table within its shares. -/
lemma Within.release (h : s.Within slots) (p : Principal) (items : ℕ) :
    (s.release p items).Within slots := by
  have hle : ∀ q, (s.release p items).heldBy q ≤ s.heldBy q := by
    intro q
    rw [heldBy_release]
    split
    · exact Nat.sub_le _ _
    · exact le_rfl
  have hweighed := h.toWeighed.release p items
  refine ⟨hweighed, ?_, ?_, ?_⟩
  · rw [hweighed.pool, release_shares]
    refine le_trans ?_ (h.pool ▸ h.pool_le)
    refine Finset.sum_le_sum fun q _ => ?_
    have := hle q
    rw [poolItems, poolItems]
    cases q <;> simp only [poolItemsAt, release_shares] <;> omega
  · intro q share hq
    rw [release_shares] at hq
    exact (hle q).trans (h.reserved_le q share hq)
  · exact fun q hq => h.drawn q (hq.trans_le (hle q))

lemma Within.discharge (h : s.Within slots) (p : Principal) (untilMs : ℕ) :
    (s.discharge p untilMs).Within slots := by
  have hexpiry : ∀ m, Within slots { s with expiry := m } := fun m =>
    ⟨⟨h.pool, h.claim⟩, h.pool_le, h.reserved_le, h.drawn⟩
  rw [SlotAccounting.discharge]
  split
  · exact h
  · exact (hexpiry _).release p 1

lemma Within.advance (h : s.Within slots) (nowMs : ℕ) : (s.advance nowMs).Within slots :=
  advance_induction (fun _ p untilMs hs => hs.discharge p untilMs) h nowMs

lemma Within.poolItems_le (h : s.Within slots) (p : Principal) : s.poolItems p ≤ s.poolHeld := by
  rw [h.pool]
  exact Finset.single_le_sum (fun _ _ => Nat.zero_le _) (Finset.mem_univ p)

/-- An admission of a principal with a share of its own keeps it within that share. -/
lemma admitItems_reserved {p : Principal} {items share : ℕ}
    (h : s.admitItems p items = .ok ()) (hp : s.shares.reserved p = some share) :
    s.heldBy p + items ≤ share := by
  have hlt := Shares.reserved_lt hp
  simp only [admitItems, hp] at h
  split at h
  · rename_i hle
    rw [saturatingAdd] at hle
    omega
  · cases h

/-- The items of an admission that fall to the pool fit it. -/
lemma Within.admitItems_pool (h : s.Within slots) {p : Principal} {items : ℕ}
    (hadmitted : s.admitItems p items = .ok ()) :
    s.poolHeld - s.poolItems p + s.poolItemsAt p (s.heldBy p + items) ≤ s.shares.pool := by
  have hle := h.poolItems_le p
  have hpool := h.pool_le
  have hfits := s.shares.fits.1
  rcases hp : s.shares.reserved p with _ | share
  · -- neither the sum nor the overflow saturates: both would pass the pool at once
    have hclaimed : s.poolItems p = s.poolItemsAt p (s.heldBy p) := rfl
    simp only [admitItems, hp] at hadmitted
    generalize hover : s.poolItemsAt p (saturatingAdd usizeMax (s.heldBy p) items) -
      s.poolItems p = overflow at hadmitted
    have hcheck : s.poolHeld + overflow ≤ s.shares.pool := by
      split at hadmitted
      · omega
      · split at hadmitted
        · cases hadmitted
        · rename_i hfull
          rw [saturatingAdd] at hfull
          omega
    rw [saturatingAdd] at hover
    cases p with
    | slot index =>
      simp only [poolItemsAt] at hover hclaimed ⊢
      omega
    | unbound =>
      simp only [poolItemsAt] at hover hclaimed ⊢
      omega
    | _ => simp [Shares.reserved] at hp
  · cases p with
    | slot index => simp [Shares.reserved] at hp
    | unbound => simp [Shares.reserved] at hp
    | _ =>
      simp only [poolItemsAt]
      omega

/-- Admitted items keep the table within its shares. -/
lemma Within.hold (h : s.Within slots) {p : Principal} {items : ℕ} (hp : Drawn slots p)
    (hadmitted : s.admitItems p items = .ok ()) : (s.hold p items).Within slots := by
  refine ⟨h.toWeighed.hold p items, ?_, ?_, ?_⟩
  · have hitems : (s.hold p items).poolItems p = s.poolItemsAt p (s.heldBy p + items) := by
      rw [poolItems, heldBy_hold, if_pos rfl]
      rfl
    have hpool : (s.hold p items).poolHeld =
        s.poolHeld - s.poolItems p + (s.hold p items).poolItems p := rfl
    rw [hpool, hitems]
    exact h.admitItems_pool hadmitted
  · intro q share hq
    rw [heldBy_hold]
    split
    · rename_i hqp
      subst hqp
      exact admitItems_reserved hadmitted hq
    · exact h.reserved_le q share hq
  · intro q hq
    rw [heldBy_hold] at hq
    split at hq
    · rename_i hqp
      exact hqp ▸ hp
    · exact h.drawn q hq

lemma Within.charge (h : s.Within slots) {p : Principal} (untilMs : ℕ) (hp : Drawn slots p)
    (hadmitted : s.tryAdmit p = .ok ()) : (s.charge p untilMs).Within slots := by
  have hhold := h.hold hp hadmitted
  exact ⟨⟨hhold.pool, hhold.claim⟩, hhold.pool_le, hhold.reserved_le, hhold.drawn⟩

lemma Step.within {s' : SlotAccounting} (hstep : Step slots s s') (h : s.Within slots) :
    s'.Within slots := by
  cases hstep with
  | tryAdmit p items r verdict => exact h
  | charge p untilMs drawn admitted => exact h.charge untilMs drawn admitted
  | hold p items drawn admitted => exact h.hold drawn admitted
  | release p items => exact h.release p items
  | discharge p untilMs => exact h.discharge p untilMs
  | advance nowMs => exact h.advance nowMs

lemma Step.shares_eq {s' : SlotAccounting} (hstep : Step slots s s') : s'.shares = s.shares := by
  cases hstep with
  | tryAdmit p items r verdict => rfl
  | charge p untilMs drawn admitted => rfl
  | hold p items drawn admitted => rfl
  | release p items => exact s.release_shares p items
  | discharge p untilMs => exact s.discharge_shares p untilMs
  | advance nowMs =>
    exact advance_induction (P := fun t => t.shares = s.shares)
      (fun t p untilMs ht => (t.discharge_shares p untilMs).trans ht) rfl nowMs

lemma Reachable.within {shares : Shares} (h : Reachable shares slots s) :
    s.Within slots ∧ s.shares = shares := by
  induction h with
  | refl => exact ⟨within_new shares slots, rfl⟩
  | tail _ hstep ih => exact ⟨hstep.within ih.1, hstep.shares_eq.trans ih.2⟩

lemma len_eq_sum (s : SlotAccounting) : s.len = ∑ p, s.heldBy p := by
  rw [len, BTreeMap.sumBy_eq_sum]
  refine Finset.sum_congr rfl fun p _ => ?_
  rw [heldBy]
  cases s.held.get? p <;> rfl

def ownShare (shares : Shares) (slots : ℕ) : Principal → ℕ
  | .slot index => if index < slots then shares.floor else 0
  | .localNode => shares.localShare
  | .inbox => shares.inbox
  | .custody => shares.custody
  | .unbound => 0

lemma Within.heldBy_le (h : s.Within slots) (p : Principal) :
    s.heldBy p ≤ ownShare s.shares slots p + s.poolItems p := by
  cases p with
  | slot index =>
    simp only [ownShare, poolItems, poolItemsAt]
    split
    · omega
    · rename_i hout
      have : ¬0 < s.heldBy (.slot index) := fun hpos => hout (h.drawn _ hpos)
      omega
  | unbound => exact Nat.le_add_left _ _
  | _ => exact (h.reserved_le _ _ rfl).trans (Nat.le_add_right _ _)

def Principal.equivSum : Principal ≃ Fin (2 ^ 16) ⊕ Fin 4 where
  toFun
    | .slot index => .inl index
    | .localNode => .inr 0
    | .inbox => .inr 1
    | .custody => .inr 2
    | .unbound => .inr 3
  invFun
    | .inl index => .slot index
    | .inr 0 => .localNode
    | .inr 1 => .inbox
    | .inr 2 => .custody
    | .inr 3 => .unbound
  left_inv p := by cases p <;> rfl
  right_inv x := by
    rcases x with index | i
    · rfl
    · fin_cases i <;> rfl

lemma sum_principal (w : Principal → ℕ) :
    ∑ p, w p = ∑ index, w (.slot index) + (w .localNode + w .inbox + w .custody + w .unbound) := by
  rw [← Equiv.sum_comp Principal.equivSum.symm w, Fintype.sum_sum_type, Fin.sum_univ_four]
  rfl

/-- The shares outside the pool of a roster of `slots` slots. -/
lemma sum_ownShare_le (shares : Shares) (slots : ℕ) :
    ∑ p, ownShare shares slots p ≤
      slots * shares.floor + shares.localShare + shares.inbox + shares.custody := by
  have hslots : ∑ index, ownShare shares slots (.slot index) ≤ slots * shares.floor := by
    calc ∑ index : Fin (2 ^ 16), ownShare shares slots (.slot index)
        = ∑ i ∈ Finset.range (2 ^ 16), if i < slots then shares.floor else 0 :=
          Fin.sum_univ_eq_sum_range (fun i => if i < slots then shares.floor else 0) (2 ^ 16)
      _ = ((Finset.range (2 ^ 16)).filter (· < slots)).card * shares.floor := by
          rw [← Finset.sum_filter, Finset.sum_const, smul_eq_mul]
      _ ≤ slots * shares.floor := by
          refine Nat.mul_le_mul_right _ ?_
          have hsub : (Finset.range (2 ^ 16)).filter (· < slots) ⊆ Finset.range slots :=
            fun i hi => Finset.mem_range.2 (Finset.mem_filter.1 hi).2
          simpa using Finset.card_le_card hsub
  rw [sum_principal]
  simp only [ownShare] at hslots ⊢
  omega

/-- Every run of admitted transitions keeps the aggregates of the pool exact, the pool and the
reserved shares within their bounds, and the table within `R·f + P + L + S_μ + S_χ`. -/
theorem reachable_within_shares (shares : Shares) (slots : ℕ) (s : SlotAccounting)
    (h : Reachable shares slots s) :
    s.poolHeld = ∑ p, s.poolItems p ∧
      s.claimants = (Finset.univ.filter fun p => 0 < s.poolItems p).card ∧
      s.poolHeld ≤ shares.pool ∧
      (∀ p share, shares.reserved p = some share → s.heldBy p ≤ share) ∧
      s.len ≤ shares.bound slots := by
  obtain ⟨hw, rfl⟩ := h.within
  refine ⟨hw.pool, hw.claim, hw.pool_le, hw.reserved_le, ?_⟩
  have hsum := Finset.sum_le_sum fun p (_ : p ∈ Finset.univ) => hw.heldBy_le p
  rw [Finset.sum_add_distrib, ← hw.pool, ← len_eq_sum] at hsum
  have hown := sum_ownShare_le s.shares slots
  have hpool := hw.pool_le
  rw [Shares.bound]
  omega

/-- One slot past its floor: the table holds a pool item and stays within its bound. -/
theorem reachable_within_shares_over_floor :
    ((new receiverStreamShares).hold (.slot 0) 33).poolHeld = 1 ∧
      ((new receiverStreamShares).hold (.slot 0) 33).len ≤ receiverStreamShares.bound 1 := by
  have hrun : Reachable receiverStreamShares 1 ((new receiverStreamShares).hold (.slot 0) 33) :=
    Relation.ReflTransGen.single (Step.hold _ _ 33 Nat.zero_lt_one rfl)
  exact ⟨rfl, (reachable_within_shares receiverStreamShares 1 _ hrun).2.2.2.2⟩

end SlotAccounting

end Rings
