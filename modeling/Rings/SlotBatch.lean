import Rings.SlotAccounting

/-!
Several items of one principal admitted together.

The batch decides by what all its items add to the pool, against a fair claim whose claimants
are counted before the first of them; item by item the pool, the claim and the claimants are
read again after each. A principal becomes a claimant with its first pool item and is counted
one ahead until then, so the claim is one and the same for every item, and both forms end in
the same accounting.
-/

namespace Rings

namespace SlotAccounting

/-- `items` items of `p` one at a time, each admitted on its own and then held. -/
def holdEach (s : SlotAccounting) (p : Principal) : ℕ → Except ShareRefusal SlotAccounting
  | 0 => .ok s
  | items + 1 =>
    match s.tryAdmit p with
    | .error refusal => .error refusal
    | .ok () => (s.hold p 1).holdEach p items

/-- `⌈P / n⌉`, with the principal counted from its first pool item on. -/
def fairClaim (s : SlotAccounting) (p : Principal) : ℕ :=
  divCeil s.shares.pool (max (s.claimants + (decide (s.poolItems p = 0)).toNat) 1)

variable {slots : ℕ} {s : SlotAccounting} {p : Principal}

lemma poolItemsAt_mono (s : SlotAccounting) (p : Principal) : Monotone (s.poolItemsAt p) := by
  intro a b h
  cases p <;> simp only [poolItemsAt] <;> omega

lemma poolItems_hold (s : SlotAccounting) (p : Principal) (items : ℕ) :
    (s.hold p items).poolItems p = s.poolItemsAt p (s.heldBy p + items) := by
  rw [poolItems, heldBy_hold, if_pos rfl]
  rfl

lemma poolItemsAt_hold (s : SlotAccounting) (p : Principal) (items held : ℕ) :
    (s.hold p items).poolItemsAt p held = s.poolItemsAt p held := by
  cases p <;> rfl

/-! ### The verdict -/

/-- A principal with a share of its own is admitted while its items fit the share. -/
lemma admitItems_iff_reserved {share : ℕ} (hp : s.shares.reserved p = some share) (items : ℕ) :
    s.admitItems p items = .ok () ↔ s.heldBy p + items ≤ share := by
  have hlt := Shares.reserved_lt hp
  have hle : saturatingAdd usizeMax (s.heldBy p) items ≤ share ↔ s.heldBy p + items ≤ share := by
    rw [saturatingAdd]
    omega
  simp only [admitItems, hp, hle]
  by_cases hfits : s.heldBy p + items ≤ share
  · simp [hfits]
  · simp [hfits]

/-- The other principals are admitted while nothing new falls to the pool, or what does fits
the pool and the fair claim: no sum of the check saturates short of the pool. -/
lemma Within.admitItems_iff (h : s.Within slots) (hp : s.shares.reserved p = none) (items : ℕ) :
    s.admitItems p items = .ok () ↔
      s.poolItemsAt p (s.heldBy p + items) = s.poolItems p ∨
        s.poolHeld + (s.poolItemsAt p (s.heldBy p + items) - s.poolItems p) ≤ s.shares.pool ∧
          s.poolItemsAt p (s.heldBy p + items) ≤ s.fairClaim p := by
  have hle := h.poolItems_le p
  have hpool := h.pool_le
  have hfits := s.shares.fits.1
  have hmono := s.poolItemsAt_mono p (Nat.le_add_right (s.heldBy p) items)
  have hclaimed : s.poolItems p = s.poolItemsAt p (s.heldBy p) := rfl
  rcases Nat.le_total (s.heldBy p + items) usizeMax with hsmall | hlarge
  · have hadd : saturatingAdd usizeMax (s.heldBy p) items = s.heldBy p + items :=
      min_eq_left hsmall
    have hbelow : s.poolItemsAt p (s.heldBy p + items) ≤ usizeMax := by
      cases p <;> simp only [poolItemsAt] <;> omega
    have hclaim : divCeil s.shares.pool
        (max (s.claimants + (decide (s.poolItems p = 0)).toNat) 1) = s.fairClaim p := rfl
    simp only [admitItems, hp, hadd, hclaim]
    generalize s.poolItemsAt p (s.heldBy p + items) = after at *
    have hover : saturatingAdd usizeMax s.poolHeld (after - s.poolItems p) > s.shares.pool ↔
        ¬ s.poolHeld + (after - s.poolItems p) ≤ s.shares.pool := by
      rw [saturatingAdd]
      omega
    have hsum : saturatingAdd usizeMax (s.poolItems p) (after - s.poolItems p) = after := by
      rw [saturatingAdd]
      omega
    have hnone : after - s.poolItems p = 0 ↔ after = s.poolItems p := by omega
    simp only [hover, hsum, hnone]
    by_cases h1 : after = s.poolItems p
    · simp [h1]
    · by_cases h2 : s.poolHeld + (after - s.poolItems p) ≤ s.shares.pool
      · by_cases h3 : after ≤ s.fairClaim p
        · simp [h1, h2, h3]
        · simp [h1, h2, h3]
      · simp [h1, h2]
  · -- past the width of a `usize` the items are past the pool, saturated or not
    have hadd : saturatingAdd usizeMax (s.heldBy p) items = usizeMax := min_eq_right hlarge
    have hpast : ∀ n, usizeMax ≤ n → s.shares.pool < s.poolItemsAt p n := by
      intro n hn
      cases p with
      | slot index =>
        simp only [poolItemsAt]
        omega
      | unbound =>
        simp only [poolItemsAt]
        omega
      | _ => simp [Shares.reserved] at hp
    have h1 := hpast _ hlarge
    have h2 := hpast _ le_rfl
    have hover : saturatingAdd usizeMax s.poolHeld (s.poolItemsAt p usizeMax - s.poolItems p) >
        s.shares.pool := by
      rw [saturatingAdd]
      omega
    have hnone : s.poolItemsAt p usizeMax - s.poolItems p ≠ 0 := by omega
    simp only [admitItems, hp, hadd, if_neg hnone, if_pos hover, reduceCtorEq, false_iff]
    omega

/-! ### The state -/

lemma hold_eq (s : SlotAccounting) (p : Principal) (items : ℕ) :
    s.hold p items =
      { s with
        held := s.held.insert p (s.heldBy p + items)
        poolHeld := s.poolHeld - s.poolItems p + (s.hold p items).poolItems p
        claimants := s.claimants - (decide (s.poolItems p > 0)).toNat +
          (decide ((s.hold p items).poolItems p > 0)).toNat } := rfl

lemma hold_hold (s : SlotAccounting) (p : Principal) (a b : ℕ) :
    (s.hold p a).hold p b = s.hold p (a + b) := by
  have hheld : (s.hold p a).held.insert p ((s.hold p a).heldBy p + b) =
      s.held.insert p (s.heldBy p + (a + b)) := by
    rw [heldBy_hold, if_pos rfl, Nat.add_assoc]
    exact BTreeMap.insert_insert _ _ _ _
  have hitems : ((s.hold p a).hold p b).poolItems p = (s.hold p (a + b)).poolItems p := by
    rw [poolItems_hold, poolItems_hold, poolItemsAt_hold, heldBy_hold, if_pos rfl, Nat.add_assoc]
  rw [hold_eq (s.hold p a), hheld, hitems, hold_eq s p (a + b)]
  have hpool : (s.hold p a).poolHeld - (s.hold p a).poolItems p = s.poolHeld - s.poolItems p :=
    Nat.add_sub_cancel _ _
  have hclaim : (s.hold p a).claimants - (decide ((s.hold p a).poolItems p > 0)).toNat =
      s.claimants - (decide (s.poolItems p > 0)).toNat := Nat.add_sub_cancel _ _
  rw [hpool, hclaim]
  rfl

lemma Weighed.fairClaim_hold (h : s.Weighed) (p : Principal) (items : ℕ) :
    (s.hold p items).fairClaim p = s.fairClaim p := by
  have hmono := s.poolItemsAt_mono p (Nat.le_add_right (s.heldBy p) items)
  rw [← poolItems_hold] at hmono
  have hcounted : 0 < s.poolItems p → 1 ≤ s.claimants := by
    intro hpos
    rw [h.claim]
    exact Finset.card_pos.2 ⟨p, Finset.mem_filter.2 ⟨Finset.mem_univ p, hpos⟩⟩
  have hclaimants : (s.hold p items).claimants +
      (decide ((s.hold p items).poolItems p = 0)).toNat =
        s.claimants + (decide (s.poolItems p = 0)).toNat := by
    have hafter : (s.hold p items).claimants = s.claimants - (decide (s.poolItems p > 0)).toNat +
        (decide ((s.hold p items).poolItems p > 0)).toNat := rfl
    change s.poolItems p ≤ _ at hmono
    rw [hafter]
    generalize (s.hold p items).poolItems p = after at hmono
    rcases Nat.eq_zero_or_pos (s.poolItems p) with hnone | hsome
    · rcases Nat.eq_zero_or_pos after with rfl | hpos
      · simp [hnone]
      · simp [hnone, hpos, hpos.ne']
    · have := hcounted hsome
      simp only [hsome, hsome.trans_le hmono, hsome.ne', (hsome.trans_le hmono).ne',
        decide_true, decide_false, Bool.toNat_true, Bool.toNat_false]
      omega
  rw [fairClaim, fairClaim, hclaimants, hold_shares]

/-! ### Item by item -/

lemma Within.admitItems_succ (h : s.Within slots) (hp : Drawn slots p) (items : ℕ) :
    s.admitItems p (items + 1) = .ok () ↔
      s.tryAdmit p = .ok () ∧ (s.hold p 1).admitItems p items = .ok () := by
  have hheld : (s.hold p 1).heldBy p = s.heldBy p + 1 := by
    rw [heldBy_hold, if_pos rfl]
  rw [tryAdmit]
  rcases hshare : s.shares.reserved p with _ | share
  · have hle := h.poolItems_le p
    have hfirst := s.poolItemsAt_mono p (Nat.le_add_right (s.heldBy p) 1)
    have hrest := s.poolItemsAt_mono p (Nat.le_add_right (s.heldBy p + 1) items)
    have hclaimed : s.poolItems p = s.poolItemsAt p (s.heldBy p) := rfl
    by_cases hone : s.admitItems p 1 = .ok ()
    · -- the one item moves the pool by what it adds, and leaves the claim
      have hpool : (s.hold p 1).poolHeld =
          s.poolHeld - s.poolItems p + (s.hold p 1).poolItems p := rfl
      have hafter := (h.hold hp hone).admitItems_iff (p := p) hshare items
      rw [hpool, poolItemsAt_hold, poolItems_hold, hheld, h.fairClaim_hold, hold_shares] at hafter
      have hbefore := (h.admitItems_iff hshare 1).1 hone
      rw [h.admitItems_iff hshare, hafter, ← Nat.add_assoc, Nat.add_right_comm]
      simp only [hone, true_and]
      omega
    · have hbefore := mt (h.admitItems_iff hshare 1).2 hone
      rw [h.admitItems_iff hshare, Nat.add_comm items 1, ← Nat.add_assoc]
      simp only [hone, false_and, iff_false]
      omega
  · rw [admitItems_iff_reserved hshare, admitItems_iff_reserved hshare,
      admitItems_iff_reserved (s := s.hold p 1) hshare, hheld]
    omega

lemma Within.all (h : s.Within slots) : s.Within (2 ^ 16) where
  toWeighed := h.toWeighed
  pool_le := h.pool_le
  reserved_le := h.reserved_le
  drawn := fun p _ => by cases p <;> simp [Drawn]

lemma Within.holdEach_succ (h : s.Within (2 ^ 16)) (p : Principal) (items : ℕ)
    (s' : SlotAccounting) : s.holdEach p (items + 1) = .ok s' ↔
      s.admitItems p (items + 1) = .ok () ∧ s' = s.hold p (items + 1) := by
  have hp : Drawn (2 ^ 16) p := by cases p <;> simp [Drawn]
  induction items generalizing s with
  | zero =>
    rw [holdEach, ← tryAdmit]
    rcases s.tryAdmit p with refusal | _
    · simp
    · simp [holdEach, eq_comm]
  | succ items ih =>
    rw [holdEach, h.admitItems_succ hp]
    rcases hone : s.tryAdmit p with refusal | _
    · simp
    · simp only [ih (h.hold hp hone), hold_hold, true_and, Nat.add_comm 1]

/-- A batch is admitted exactly when its items are one at a time, each admitted on its own and
held before the next, and either way the accounting ends the same: from every table a run of
admitted transitions reaches, for every principal. -/
theorem admitItems_eq_each (shares : Shares) (slots : ℕ) (s : SlotAccounting)
    (h : Reachable shares slots s) (p : Principal) (items : ℕ) (hitems : 1 ≤ items) :
    (s.admitItems p items = .ok () ↔ ∃ s', s.holdEach p items = .ok s') ∧
      ∀ s', s.holdEach p items = .ok s' → s' = s.hold p items := by
  obtain ⟨items, rfl⟩ : ∃ n, items = n + 1 := ⟨items - 1, by omega⟩
  have heach := h.within.1.all.holdEach_succ p items
  refine ⟨?_, fun s' hs' => ((heach s').1 hs').2⟩
  simp only [heach, exists_and_left, exists_eq, and_true]

def firstSlot : Fin (2 ^ 16) := ⟨0, Nat.two_pow_pos 16⟩

/-- Thirty-four items of one slot cross its floor in the middle. -/
theorem admitItems_eq_each_crossing :
    ((new receiverStreamShares).admitItems (.slot firstSlot) 34 = .ok () ↔
      ∃ s', (new receiverStreamShares).holdEach (.slot firstSlot) 34 = .ok s') ∧
      ∀ s', (new receiverStreamShares).holdEach (.slot firstSlot) 34 = .ok s' →
        s' = (new receiverStreamShares).hold (.slot firstSlot) 34 :=
  admitItems_eq_each receiverStreamShares 1 _ .refl (.slot firstSlot) 34 (by decide)

end SlotAccounting

end Rings
