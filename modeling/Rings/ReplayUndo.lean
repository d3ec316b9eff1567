import Rings.ReplayCommit

/-!
Undo logs of replay transitions.

Each change of the tables is logged with its inverse, and a charge moves the spent index and the
accounting in step with it. Undoing a log, last entry first, leaves the tables and the accounting
as they were before it, and the quota records as they were up to refill.
-/

namespace Rings

open Effect

/-! ### Charges, their index and their accounting -/

def chargeItems (charges : BTreeMap StreamKey StreamCharge) : Multiset Item :=
  charges.sumBy fun _ c => {(c.introducer, c.spentAtMs)}

/-- The spent index holds each charged stream at its instant. -/
def ReplayTables.Indexed (t : ReplayTables) : Prop :=
  ∀ x key, (t.spent.get? (toLex (x, key))).isSome = true ↔
    (t.charges.get? key).map StreamCharge.spentAtMs = some x

structure Speculative.Balanced (s : Speculative) : Prop where
  indexed : s.tables.Indexed
  exact : s.accounting.Exact (chargeItems s.tables.charges)

namespace ReplayTables

variable {t u : ReplayTables} {key : StreamKey} {next : Option StreamCharge}

lemma Indexed.spent_eq (ht : t.Indexed) (hu : u.Indexed) (h : t.charges = u.charges) :
    t.spent = u.spent := by
  refine BTreeMap.ext_get? fun k => ?_
  have hiff := (ht (ofLex k).1 (ofLex k).2).trans (h ▸ (hu (ofLex k).1 (ofLex k).2).symm)
  have hunit : ∀ o o' : Option Unit, (o.isSome = true ↔ o'.isSome = true) → o = o' := by
    intro o o'
    cases o <;> cases o' <;> simp
  exact hunit _ _ hiff

lemma Indexed.setCharge (h : t.Indexed) : (t.setCharge key next).Indexed := by
  intro x k
  have hremoved : (((t.charges.get? key).elim t.spent fun previous =>
      t.spent.remove (toLex (previous.spentAtMs, key))).get? (toLex (x, k))).isSome = true ↔
        k ≠ key ∧ (t.charges.get? k).map StreamCharge.spentAtMs = some x := by
    rcases hprev : t.charges.get? key with _ | previous
    · rw [Option.elim_none, h x k]
      refine ⟨fun hx => ⟨?_, hx⟩, And.right⟩
      rintro rfl
      simp [hprev] at hx
    · rw [Option.elim_some, BTreeMap.get?_remove]
      split
      · rename_i heq
        obtain ⟨rfl, rfl⟩ := Prod.mk.inj (toLex.injective heq)
        simp
      · rename_i hne
        rw [h x k]
        refine ⟨fun hx => ⟨?_, hx⟩, And.right⟩
        rintro rfl
        rw [hprev, Option.map_some, Option.some.injEq] at hx
        exact hne (by rw [hx])
  cases next with
  | none =>
    simp only [ReplayTables.setCharge, BTreeMap.get?_replace, Option.elim_none]
    rw [hremoved]
    split
    · rename_i hk
      simp [hk]
    · rename_i hk
      simp [hk]
  | some charge =>
    simp only [ReplayTables.setCharge, BTreeMap.get?_replace, Option.elim_some,
      BTreeMap.get?_insert]
    split
    · rename_i heq
      obtain ⟨rfl, rfl⟩ := Prod.mk.inj (toLex.injective heq)
      simp
    · rename_i hne
      rw [hremoved]
      split
      · rename_i hk
        subst hk
        simp only [ne_eq, not_true_eq_false, false_and, Option.map_some, Option.some.injEq,
          false_iff]
        exact fun hx => hne (by rw [hx])
      · rename_i hk
        simp [hk]

/-- Putting a charge back undoes its change. -/
lemma Indexed.setCharge_setCharge (h : t.Indexed) :
    (t.setCharge key next).setCharge key (t.charges.get? key) = t := by
  have hcharges : ((t.setCharge key next).setCharge key (t.charges.get? key)).charges =
      t.charges := by
    simp only [ReplayTables.setCharge]
    exact BTreeMap.replace_replace_get? _ _ _
  exact ReplayTables.ext rfl rfl rfl hcharges (h.setCharge.setCharge.spent_eq h hcharges)

end ReplayTables

namespace SlotAccounting

variable {s : SlotAccounting} {charges : BTreeMap StreamKey StreamCharge}

lemma recharge_shares (previous next : Option StreamCharge) :
    (s.recharge previous next).shares = s.shares := by
  cases previous <;> cases next <;> simp [recharge, discharge_shares, charge]

/-- The accounting follows one change of the charges. -/
lemma Exact.recharge (h : s.Exact (chargeItems charges)) (key : StreamKey)
    (next : Option StreamCharge) :
    (s.recharge (charges.get? key) next).Exact (chargeItems (charges.replace key next)) := by
  have hsum := BTreeMap.sumBy_replace
    (fun _ (c : StreamCharge) => ({(c.introducer, c.spentAtMs)} : Multiset Item)) charges key next
  have hdrop : ((charges.get? key).elim s fun c => s.discharge c.introducer c.spentAtMs).Exact
      (chargeItems (charges.remove key)) := by
    have hremove := BTreeMap.sumBy_remove
      (fun _ (c : StreamCharge) => ({(c.introducer, c.spentAtMs)} : Multiset Item)) charges key
    rcases hprev : charges.get? key with _ | c
    · rw [hprev, Option.elim_none, add_zero] at hremove
      rw [Option.elim_none, chargeItems, hremove]
      exact h
    · rw [hprev, Option.elim_some] at hremove
      have hitems : chargeItems (charges.remove key) =
          (chargeItems charges).erase (c.introducer, c.spentAtMs) := by
        rw [chargeItems, chargeItems, ← hremove, add_comm, Multiset.singleton_add,
          Multiset.erase_cons_head]
      rw [Option.elim_some, hitems]
      exact h.discharge _ _
  cases next with
  | none => exact hdrop
  | some c =>
    have hitems : chargeItems (charges.replace key (some c)) =
        (c.introducer, c.spentAtMs) ::ₘ chargeItems (charges.remove key) := by
      have hremove := BTreeMap.sumBy_remove
        (fun _ (c : StreamCharge) => ({(c.introducer, c.spentAtMs)} : Multiset Item)) charges key
      rw [← hremove, add_right_comm, Option.elim_some] at hsum
      have := add_right_cancel hsum
      rw [chargeItems, this, add_comm]
      rfl
    rw [hitems]
    exact hdrop.charge _ _

end SlotAccounting

namespace Speculative

variable {s t u : Speculative} {key : StreamKey} {next : Option StreamCharge}

lemma Balanced.setCharge (h : s.Balanced) : (s.setCharge key next).Balanced where
  indexed := h.indexed.setCharge
  exact := h.exact.recharge key next

lemma Balanced.setCharge_setCharge (h : s.Balanced) :
    (s.setCharge key next).setCharge key (s.tables.charges.get? key) = s := by
  have htables : (s.setCharge key next).tables.setCharge key (s.tables.charges.get? key) =
      s.tables := h.indexed.setCharge_setCharge
  have hback : (s.setCharge key next).Balanced := h.setCharge
  refine Speculative.ext ?_ rfl ?_
  · exact ReplayStore.ext htables rfl
  · have hagain : ((s.setCharge key next).setCharge key (s.tables.charges.get? key)).Balanced :=
      hback.setCharge
    have hexact := hagain.exact
    rw [show ((s.setCharge key next).setCharge key (s.tables.charges.get? key)).tables =
      s.tables from htables] at hexact
    refine hexact.unique h.exact ?_
    exact (SlotAccounting.recharge_shares _ _).trans (SlotAccounting.recharge_shares _ _)

/-- The same store and accounting, and the quota records as they were or refilled. -/
structure Similar (s t : Speculative) : Prop where
  store : t.store = s.store
  accounting : t.accounting = s.accounting
  quota : s.quota.Refilled t.quota

lemma Similar.refl (s : Speculative) : s.Similar s := ⟨rfl, rfl, .refl _⟩

lemma Similar.trans (h : s.Similar t) (h' : t.Similar u) : s.Similar u :=
  ⟨h'.store.trans h.store, h'.accounting.trans h.accounting, h.quota.trans h'.quota⟩

lemma Similar.tables (h : s.Similar t) : t.tables = s.tables := congrArg ReplayStore.tables h.store

lemma Similar.balanced (h : s.Similar t) (hs : s.Balanced) : t.Balanced := by
  refine ⟨?_, ?_⟩
  · rw [h.tables]
    exact hs.indexed
  · rw [h.tables, h.accounting]
    exact hs.exact

lemma similar_quota {quota : OriginQuotaTable} (h : s.quota.Refilled quota) :
    s.Similar { s with quota } := ⟨rfl, rfl, h⟩

end Speculative

/-! ### Inverses -/

namespace Undo

variable {s t : Speculative}

def OfTables : Undo → Prop
  | quota _ => False
  | _ => True

lemma Balanced.apply {u : Undo} (hu : u.OfTables) (h : s.Balanced) : (u.apply s).Balanced := by
  cases u with
  | sender key previous => exact ⟨h.indexed, h.exact⟩
  | receiver key previous => exact ⟨h.indexed, h.exact⟩
  | custody key previous => exact ⟨h.indexed, h.exact⟩
  | charge key previous => exact h.setCharge
  | quota r => exact hu.elim

/-- Applying the inverse of a change undoes it. -/
lemma inverse_apply {u : Undo} (hu : u.OfTables) (h : s.Balanced) :
    (u.inverse s).apply (u.apply s) = s := by
  cases u with
  | sender key previous =>
    simp only [inverse, apply, Speculative.withTables, Speculative.tables,
      BTreeMap.replace_replace_get?]
  | receiver key previous =>
    simp only [inverse, apply, Speculative.withTables, Speculative.tables,
      BTreeMap.replace_replace_get?]
  | custody key previous =>
    simp only [inverse, apply, Speculative.withTables, Speculative.tables,
      BTreeMap.replace_replace_get?]
  | charge key previous => exact h.setCharge_setCharge
  | quota r => exact hu.elim

/-- Undoing acts alike on states that differ by refill. -/
lemma apply_similar (u : Undo) (h : s.Similar t) : (u.apply s).Similar (u.apply t) := by
  obtain ⟨store, quota, accounting⟩ := s
  obtain ⟨store', quota', accounting'⟩ := t
  obtain ⟨rfl, rfl, hquota⟩ := h
  cases u with
  | sender key previous => exact ⟨rfl, rfl, hquota⟩
  | receiver key previous => exact ⟨rfl, rfl, hquota⟩
  | custody key previous => exact ⟨rfl, rfl, hquota⟩
  | charge key previous => exact ⟨rfl, rfl, hquota⟩
  | quota r => exact ⟨rfl, rfl, hquota.rollback r⟩

end Undo

/-! ### Logs -/

/-- Undoing the log takes the later state, or one it refilled to, back to the earlier one up to
refill. -/
def Undoes (log : List Undo) (later earlier : Speculative) : Prop :=
  ∀ t, later.Similar t → earlier.Similar (rewind log t)

variable {s s' s'' : Speculative} {log log' : List Undo}

lemma undoes_nil (h : s.Similar s') : Undoes [] s' s := fun _ ht => h.trans ht

lemma Undoes.append (h : Undoes log s' s) (h' : Undoes log' s'' s') :
    Undoes (log ++ log') s'' s := by
  intro t ht
  rw [rewind, List.foldr_append]
  exact h _ (h' t ht)

lemma undoes_inverse {u : Undo} (hu : u.OfTables) (h : s.Balanced) :
    Undoes [u.inverse s] (u.apply s) s := by
  intro t ht
  have := (u.inverse s).apply_similar ht
  rwa [Undo.inverse_apply hu h] at this

lemma undoes_quota {key : OriginQuotaKey} {limit : MessageLimit} {byteCost now : ℕ}
    {r : OriginQuotaReservation} {quota : OriginQuotaTable}
    (h : s.quota.reserve key limit byteCost now = (.ok r, quota)) :
    Undoes [.quota r] { s with quota } s := by
  intro t ht
  have := (Undo.quota r).apply_similar ht
  simp only [Undo.apply, OriginQuotaTable.rollback_reserve h] at this
  exact this

/-- The log of a ledger takes its state back to where it began. -/
structure Logged (s : Speculative) (l : Ledger) : Prop where
  balanced : l.state.Balanced
  undoes : Undoes l.undo l.state s

namespace Logged

variable {l : Ledger}

lemma new (h : s.Balanced) : Logged s (.new s) := ⟨h, undoes_nil (.refl s)⟩

lemma change (h : Logged s l) {u : Undo} (hu : u.OfTables) : Logged s (l.change u) :=
  ⟨Undo.Balanced.apply hu h.balanced, h.undoes.append (undoes_inverse hu h.balanced)⟩

lemma write (h : Logged s l) (record : StoredStream) : Logged s (l.write record) :=
  ⟨h.balanced, h.undoes⟩

lemma retire (h : Logged s l) (key : StreamKey) : Logged s (l.retire key) := by
  have := (h.change (u := .receiver key none) trivial).change (u := .charge key none) trivial
  exact ⟨this.balanced, this.undoes⟩

lemma refilled (h : Logged s l) {quota : OriginQuotaTable}
    (hq : l.state.quota.Refilled quota) :
    Logged s { l with state := { l.state with quota } } := by
  have hsimilar := Speculative.similar_quota hq
  exact ⟨hsimilar.balanced h.balanced, fun t ht => h.undoes t (hsimilar.trans ht)⟩

lemma foldl_retire (keys : List StreamKey) (h : Logged s l) :
    Logged s (keys.foldl Ledger.retire l) := by
  induction keys generalizing l with
  | nil => exact h
  | cons key keys ih => exact ih (h.retire key)

end Logged

/-! ### Transitions -/

namespace Replay

lemma preserves_refuseUnavailable {P : Ledger → Prop} (table : ReplayTable) (key : StreamKey) :
    Preserves P (refuseUnavailable table key) := by
  refine preserves_get_bind fun l hl => ?_
  split <;> exact hl

lemma preserves_openStream {P : Ledger → Prop} (fresh : Bool) (p : Principal)
    (r : Except ShareRefusal Unit) : Preserves P (openStream fresh p r) := by
  cases fresh <;> cases r <;> exact fun _ h => h

lemma preserves_refuseRejected {P : Ledger → Prop} (key : StreamKey) (sequence : ℕ)
    (verdict : SequenceVerdict) : Preserves P (refuseRejected key sequence verdict) := by
  cases verdict <;> exact fun _ h => h

lemma preserves_writeReceiver {P : Ledger → Prop} (hwrite : ∀ l record, P l → P (l.write record))
    (key : StreamKey) : Preserves P (writeReceiver key) := by
  refine preserves_get_bind fun l hl => ?_
  split
  · exact hwrite l _ hl
  · exact hl

lemma logged_rewriteCustody (key : StreamKey) (custody : RelayCustody) :
    Preserves (Logged s) (rewriteCustody key custody) :=
  (preserves_modify fun _ h => h.change trivial).bind fun _ =>
    preserves_writeReceiver (fun _ record h => h.write record) key

lemma logged_expireCustody (nowMs : ℕ) : Preserves (Logged s) (expireCustody nowMs) :=
  preserves_get.bind fun _ => preserves_forM fun _ _ => logged_rewriteCustody _ _

lemma logged_retireSpent (nowMs : ℕ) : Preserves (Logged s) (retireSpent nowMs) :=
  (logged_expireCustody nowMs).bind fun _ =>
    preserves_get.bind fun _ => preserves_modify fun _ h => h.foldl_retire _

lemma logged_reserveQuota (admission : Admission) (now : ReplayInstant) :
    Preserves (Logged s) (reserveQuota admission now) := by
  refine preserves_get_bind fun l hl => ?_
  simp only
  split
  · rename_i reservation quota hreserve
    have hbalanced : Speculative.Balanced { l.state with quota } :=
      ⟨hl.balanced.indexed, hl.balanced.exact⟩
    exact ⟨hbalanced, hl.undoes.append (undoes_quota hreserve)⟩
  · rename_i e quota hreserve
    exact hl.refilled (OriginQuotaTable.refilled_of_reserve_error hreserve)

lemma preserves_classify {P : Ledger → Prop} (admission : Admission) :
    Preserves P (classify admission) := by
  refine (preserves_refuseUnavailable _ _).bind fun _ => preserves_get.bind fun l => ?_
  refine (preserves_openStream _ _ _).bind fun _ => ?_
  exact (preserves_refuseRejected _ _ _).bind fun _ => preserves_pure _

lemma logged_admitIn (admission : Admission) (now : ReplayInstant)
    (relayed : Option RelayDelivery) : Preserves (Logged s) (admitIn admission now relayed) := by
  refine (preserves_classify admission).bind fun observed => ?_
  refine (logged_reserveQuota admission now).bind fun _ => ?_
  refine (preserves_modify fun _ h => h.change trivial).bind fun _ => ?_
  refine (preserves_modify fun l h => ?_).bind fun _ => ?_
  · cases relayed with
    | none => exact h
    | some delivery => exact h.change trivial
  refine (preserves_modify fun l h => ?_).bind fun _ => ?_
  · rw [enterCharge]
    split
    · exact h.change trivial
    · exact h
  exact (preserves_writeReceiver (fun _ record h => h.write record) _).bind fun _ =>
    preserves_pure _

lemma logged_allocateIn (key : StreamKey) (count : ℕ+) :
    Preserves (Logged s) (allocateIn key count) := by
  refine (preserves_refuseUnavailable _ _).bind fun _ => preserves_get.bind fun l => ?_
  refine (preserves_openStream _ _ _).bind fun _ => ?_
  split
  · exact preserves_throw _
  · rename_i allocation _
    refine (preserves_modify fun l h => ?_).bind fun _ => ?_
    · cases allocation.extend with
      | none => exact h
      | some leased => exact h.write _
    · exact (preserves_modify fun _ h => h.change trivial).bind fun _ => preserves_pure _

end Replay

/-- Every body logs what it changes. -/
lemma ReplayCall.logged (call : ReplayCall) : Preserves (Logged s) call.body := by
  cases call with
  | reserve key count => exact (Replay.logged_allocateIn key count).bind fun _ => preserves_pure _
  | tryAdmit admission now =>
    refine Preserves.bind ?_ fun _ => preserves_pure _
    exact (Replay.logged_retireSpent _).bind fun _ => Replay.logged_admitIn _ _ _
  | admitRelayed admission now =>
    refine Preserves.bind ?_ fun _ => preserves_pure _
    refine (Replay.logged_retireSpent _).bind fun _ => ?_
    refine (Replay.preserves_refuseUnavailable _ _).bind fun _ => preserves_get.bind fun l => ?_
    simp only
    split
    · exact preserves_pure _
    · split
      · exact preserves_throw _
      · exact (Replay.logged_admitIn _ _ _).bind fun _ => preserves_pure _
  | releaseRelayed key delivery =>
    refine Preserves.bind (preserves_get.bind fun l => ?_) fun _ => preserves_pure _
    split
    · exact preserves_pure _
    · split
      · exact preserves_pure _
      · exact Replay.logged_rewriteCustody _ _

/-- A transition joins its batch with a log that undoes it; one that refuses leaves the tables and
the accounting as they were, and the quotas up to refill. -/
lemma ReplayCall.commit_logged (call : ReplayCall) (h : s.Balanced) :
    Undoes (call.commit s).2.undo (call.commit s).2.state s ∧ (call.commit s).2.state.Balanced ∧
      ∀ e, (call.commit s).1 = .error e → s.Similar (call.commit s).2.state ∧
        (call.commit s).2.undo = [] ∧ (call.commit s).2.records = .empty := by
  have hlogged := call.logged (.new s) (.new h)
  rw [ReplayCall.commit]
  rcases hout : outcome call.body (.new s) with ⟨e | a, l⟩
  · rw [hout] at hlogged
    have hback := hlogged.undoes l.state (.refl _)
    exact ⟨undoes_nil hback, hback.balanced h, fun _ _ => ⟨hback, rfl, rfl⟩⟩
  · rw [hout] at hlogged
    exact ⟨hlogged.undoes, hlogged.balanced, fun _ he => (by cases he)⟩

end Rings
