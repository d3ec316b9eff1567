import Mathlib.Data.Multiset.Filter
import Rings.SlotAccounting

/-!
The items of a slot accounting.

An accounting whose items all leave at an instant is determined by the multiset of them: it
counts each item under its instant and principal, and each principal by its items. Charging
adds one item, discharging takes one off, and the passage of time leaves those still ahead.
-/

namespace Rings

/-- One item of a table: its principal and the instant it leaves. -/
abbrev Item := Principal × ℕ

def posCount (n : ℕ) : Option ℕ := if n = 0 then none else some n

@[simp] lemma posCount_zero : posCount 0 = none := rfl

@[simp] lemma getD_posCount (n : ℕ) : (posCount n).getD 0 = n := by
  rw [posCount]
  split
  · rename_i h
    exact h.symm
  · rfl

lemma posCount_succ (n : ℕ) : posCount (n + 1) = some (n + 1) := if_neg (Nat.succ_ne_zero n)

lemma posCount_eq_some {n m : ℕ} : posCount n = some m ↔ n = m ∧ 0 < m := by
  rw [posCount]
  split <;> simp <;> omega

namespace SlotAccounting

/-- The accounting holds exactly these items. -/
structure Exact (s : SlotAccounting) (items : Multiset Item) : Prop extends Weighed s where
  expiry : ∀ untilMs p, s.expiry.get? (toLex (untilMs, p)) = posCount (items.count (p, untilMs))
  held : ∀ p, s.held.get? p = posCount (items.countP fun item => item.1 = p)

variable {s t : SlotAccounting} {items : Multiset Item}

lemma exact_new (shares : Shares) : (new shares).Exact 0 where
  toWeighed := (within_new shares 0).toWeighed
  expiry := fun _ _ => rfl
  held := fun _ => rfl

/-- The items determine the accounting. -/
lemma Exact.unique (hs : s.Exact items) (ht : t.Exact items) (h : s.shares = t.shares) :
    s = t := by
  have hheld : s.held = t.held := BTreeMap.ext_get? fun p => (hs.held p).trans (ht.held p).symm
  have hexpiry : s.expiry = t.expiry := by
    refine BTreeMap.ext_get? fun key => ?_
    exact (hs.expiry (ofLex key).1 (ofLex key).2).trans (ht.expiry _ _).symm
  have hitems : ∀ p, s.poolItems p = t.poolItems p := by
    intro p
    rw [poolItems, poolItems, heldBy, heldBy, hheld]
    cases p <;> simp [poolItemsAt, h]
  have hpool : s.poolHeld = t.poolHeld := by simp only [hs.pool, ht.pool, hitems]
  have hclaim : s.claimants = t.claimants := by simp only [hs.claim, ht.claim, hitems]
  cases s
  cases t
  simp only at h hheld hexpiry hpool hclaim
  subst h hheld hexpiry hpool hclaim
  rfl

lemma Exact.charge (h : s.Exact items) (p : Principal) (untilMs : ℕ) :
    (s.charge p untilMs).Exact ((p, untilMs) ::ₘ items) := by
  have hweighed := h.toWeighed.hold p 1
  refine ⟨⟨hweighed.pool, hweighed.claim⟩, fun u q => ?_, fun q => ?_⟩
  · rw [SlotAccounting.charge]
    simp only [BTreeMap.get?_insert, hold_expiry, h.expiry, getD_posCount]
    by_cases hkey : (toLex (u, q) : ExpiryKey) = toLex (untilMs, p)
    · obtain ⟨rfl, rfl⟩ := Prod.mk.inj (toLex.injective hkey)
      rw [if_pos rfl, Multiset.count_cons_self, posCount_succ]
    · rw [if_neg hkey, Multiset.count_cons_of_ne]
      rintro heq
      obtain ⟨rfl, rfl⟩ := Prod.mk.inj heq
      exact hkey rfl
  · change ((s.held.insert p _).get? q) = _
    rw [BTreeMap.get?_insert, h.held, getD_posCount, Multiset.countP_cons]
    by_cases hq : q = p
    · subst hq
      rw [if_pos rfl, if_pos rfl, posCount_succ]
    · rw [if_neg hq, h.held, if_neg (Ne.symm hq), Nat.add_zero]

lemma Weighed.discharge (h : s.Weighed) (p : Principal) (untilMs : ℕ) :
    (s.discharge p untilMs).Weighed := by
  have hexpiry : ∀ m, Weighed { s with expiry := m } := fun m => ⟨h.pool, h.claim⟩
  rw [SlotAccounting.discharge]
  split
  · exact h
  · exact (hexpiry _).release p 1

lemma get?_release_held (p q : Principal) (n : ℕ) : (s.release p n).held.get? q =
    if q = p then (s.held.get? p).bind fun held => posCount (held - n) else s.held.get? q := by
  rw [release, reweigh_held]
  rcases hp : s.held.get? p with _ | held
  · simp only [Option.bind_none, right_eq_ite_iff]
    rintro rfl
    exact hp
  · by_cases h0 : held - n = 0
    · simp [h0, BTreeMap.get?_remove]
    · simp [h0, BTreeMap.get?_insert, posCount]

/-- The items by instant after one of them leaves. -/
lemma get?_discharge_expiry {p : Principal} {untilMs count : ℕ}
    (h : s.expiry.get? (toLex (untilMs, p)) = some (count + 1)) (key : ExpiryKey) :
    (s.discharge p untilMs).expiry.get? key =
      if key = toLex (untilMs, p) then posCount count else s.expiry.get? key := by
  rw [SlotAccounting.discharge, h]
  simp only [release_expiry, Nat.add_sub_cancel, posCount]
  by_cases h0 : count = 0
  · simp [h0, BTreeMap.get?_remove]
  · simp [h0, BTreeMap.get?_insert]

lemma Exact.discharge (h : s.Exact items) (p : Principal) (untilMs : ℕ) :
    (s.discharge p untilMs).Exact (items.erase (p, untilMs)) := by
  by_cases hmem : (p, untilMs) ∈ items
  · obtain ⟨rest, rfl⟩ := Multiset.exists_cons_of_mem hmem
    have hcount : s.expiry.get? (toLex (untilMs, p)) = some (rest.count (p, untilMs) + 1) := by
      rw [h.expiry, Multiset.count_cons_self, posCount_succ]
    rw [Multiset.erase_cons_head]
    refine ⟨h.toWeighed.discharge p untilMs, fun u q => ?_, fun q => ?_⟩
    · rw [get?_discharge_expiry hcount]
      split
      · rename_i hkey
        obtain ⟨rfl, rfl⟩ := Prod.mk.inj (toLex.injective hkey)
        rfl
      · rename_i hkey
        rw [h.expiry, Multiset.count_cons_of_ne]
        rintro heq
        obtain ⟨rfl, rfl⟩ := Prod.mk.inj heq
        exact hkey rfl
    · rw [SlotAccounting.discharge, hcount]
      simp only [get?_release_held, h.held, Multiset.countP_cons]
      split
      · rename_i hq
        subst hq
        simp [posCount_succ]
      · rename_i hq
        simp [Ne.symm hq]
  · have hnone : s.expiry.get? (toLex (untilMs, p)) = none := by
      rw [h.expiry, Multiset.count_eq_zero_of_notMem hmem, posCount_zero]
    rw [Multiset.erase_of_notMem hmem, SlotAccounting.discharge, hnone]
    exact h

/-- A discharge that finds its item takes the loop of `advance` one turn down. -/
lemma expiryWeight_discharge {p : Principal} {untilMs count : ℕ}
    (h : s.expiry.get? (toLex (untilMs, p)) = some (count + 1)) :
    (s.discharge p untilMs).expiryWeight < s.expiryWeight := by
  rw [SlotAccounting.discharge, h, expiryWeight, expiryWeight]
  simp only [release_expiry, Nat.add_sub_cancel]
  have hremove := BTreeMap.sumBy_remove (fun _ c => c + 1) s.expiry (toLex (untilMs, p))
  have hinsert := BTreeMap.sumBy_insert (fun _ c => c + 1) s.expiry (toLex (untilMs, p)) count
  rw [h, Option.elim_some] at hremove hinsert
  split <;> omega

/-- An item of the table is found under its key. -/
lemma Exact.get?_of_mem (h : s.Exact items) {p : Principal} {untilMs : ℕ}
    (hmem : (p, untilMs) ∈ items) :
    ∃ count, s.expiry.get? (toLex (untilMs, p)) = some (count + 1) := by
  obtain ⟨rest, rfl⟩ := Multiset.exists_cons_of_mem hmem
  exact ⟨rest.count (p, untilMs), by rw [h.expiry, Multiset.count_cons_self, posCount_succ]⟩

lemma Exact.advanceLoop (nowMs fuel : ℕ) (h : s.Exact items) (hfuel : s.expiryWeight ≤ fuel) :
    (advanceLoop nowMs fuel s).Exact (items.filter fun item => nowMs < item.2) := by
  -- the loop stops when nothing is due: then every item is ahead
  have hdone : ∀ {s : SlotAccounting} {items : Multiset Item}, s.Exact items →
      (∀ kv, s.expiry.first? = some kv → nowMs < (ofLex kv.1).1) →
      s.Exact (items.filter fun item => nowMs < item.2) := by
    intro s items h hfirst
    rwa [Multiset.filter_eq_self.2]
    rintro ⟨p, untilMs⟩ hmem
    obtain ⟨count, hget⟩ := h.get?_of_mem hmem
    rcases hkv : s.expiry.first? with _ | kv
    · rw [BTreeMap.get?_eq_none_of_first? hkv] at hget
      cases hget
    · have hle := BTreeMap.le_of_first? hkv hget
      exact (hfirst kv hkv).trans_le (Prod.Lex.monotone_fst _ _ hle)
  induction fuel generalizing s items with
  | zero =>
    rw [SlotAccounting.advanceLoop]
    refine hdone h fun kv hkv => ?_
    have hremove := BTreeMap.sumBy_remove (fun _ c => c + 1) s.expiry kv.1
    rw [BTreeMap.get?_of_first? hkv, Option.elim_some] at hremove
    rw [expiryWeight] at hfuel
    omega
  | succ fuel ih =>
    rw [SlotAccounting.advanceLoop]
    rcases hkv : s.expiry.first? with _ | ⟨key, count⟩
    · exact hdone h fun kv hkv' => by simp [hkv] at hkv'
    · simp only
      split
      · rename_i hlater
        refine hdone h fun kv hkv' => ?_
        rw [hkv, Option.some.injEq] at hkv'
        subst hkv'
        exact hlater
      · rename_i hdue
        have hget := BTreeMap.get?_of_first? hkv
        have hcount := h.expiry (ofLex key).1 (ofLex key).2
        have hkey : (toLex ((ofLex key).1, (ofLex key).2) : ExpiryKey) = key := rfl
        rw [hkey, hget, eq_comm, posCount_eq_some] at hcount
        obtain ⟨n, rfl⟩ : ∃ n, count = n + 1 := ⟨count - 1, by omega⟩
        have hweight : (s.discharge (ofLex key).2 (ofLex key).1).expiryWeight < s.expiryWeight :=
          expiryWeight_discharge hget
        have hmem : ((ofLex key).2, (ofLex key).1) ∈ items :=
          Multiset.count_pos.1 (hcount.1 ▸ hcount.2)
        obtain ⟨rest, rfl⟩ := Multiset.exists_cons_of_mem hmem
        have hrest := ih (h.discharge (ofLex key).2 (ofLex key).1) (by omega)
        rw [Multiset.erase_cons_head] at hrest
        rwa [Multiset.filter_cons_of_neg (p := fun item : Item => nowMs < item.2) _ hdue]

lemma Exact.advance (h : s.Exact items) (nowMs : ℕ) :
    (s.advance nowMs).Exact (items.filter fun item => nowMs < item.2) :=
  h.advanceLoop nowMs _ le_rfl

end SlotAccounting

end Rings
