import Rings.CarrierStore

/-!
The accounting of the removal store.

The items of the stored remove sides that are not yet stable are charged exactly once, each to
the principal that raised it, through every put and removal and every failed access. The one
exception is a recovery pass that fails after it has begun to count: the next call counts the
same records again.
-/

namespace Rings

open Effect

/-! ### The items a put changes, as multisets -/

namespace ItemChanges

variable {items : List Item} {counts : BTreeMap (Principal ×ₗ ℕ) ℤ}

lemma getD_tally (delta : ℤ) (items : List Item) (counts : BTreeMap (Principal ×ₗ ℕ) ℤ)
    (item : Item) : ((tally delta items counts).get? (toLex item)).getD 0 =
      (counts.get? (toLex item)).getD 0 + delta * (items : Multiset Item).count item := by
  induction items generalizing counts with
  | nil => simp [tally]
  | cons first rest ih =>
    have hstep : tally delta (first :: rest) counts = tally delta rest
        (counts.insert (toLex first) ((counts.get? (toLex first)).getD 0 + delta)) := rfl
    rw [hstep, ih, BTreeMap.get?_insert, ← Multiset.cons_coe, Multiset.count_cons]
    by_cases h : item = first
    · subst h
      simp
      ring
    · simp [h]

lemma count_repeated (counts : BTreeMap (Principal ×ₗ ℕ) ℤ) (keep : ℤ → Bool) (item : Item) :
    (((counts.entries.filter fun kv => keep kv.2).flatMap
      fun kv => List.replicate kv.2.natAbs (ofLex kv.1) : List Item) : Multiset Item).count item =
      (counts.get? (toLex item)).elim 0 fun n => if keep n then n.natAbs else 0 := by
  have hsum : ∀ l : List ((Principal ×ₗ ℕ) × ℤ), (((l.filter fun kv => keep kv.2).flatMap
      fun kv => List.replicate kv.2.natAbs (ofLex kv.1) : List Item) : Multiset Item).count item =
      (l.map fun kv => if kv.1 = toLex item then if keep kv.2 then kv.2.natAbs else 0 else 0).sum := by
    intro l
    induction l with
    | nil => rfl
    | cons kv l ih =>
      have hkey : ofLex kv.1 = item ↔ kv.1 = toLex item := Iff.rfl
      by_cases hk : keep kv.2 = true
      · have hfilter := List.filter_cons_of_pos (p := fun kv : (Principal ×ₗ ℕ) × ℤ => keep kv.2)
          (l := l) hk
        rw [hfilter, List.flatMap_cons, ← Multiset.coe_add, Multiset.count_add,
          ih, Multiset.coe_replicate, Multiset.count_replicate, List.map_cons, List.sum_cons]
        simp only [hkey, hk, if_true]
      · have hfilter := List.filter_cons_of_neg (p := fun kv : (Principal ×ₗ ℕ) × ℤ => keep kv.2)
          (l := l) hk
        rw [hfilter, ih, List.map_cons, List.sum_cons]
        simp [hk]
  rw [hsum]
  exact (BTreeMap.sumBy_single (f := fun k n => if k = toLex item then
    if keep n then n.natAbs else 0 else 0) (fun k n hk => if_neg hk) counts).trans (by simp)

/-- The counts of a transition: how many more of an item `next` holds than `previous`. -/
lemma getD_counts (previous next : List Item) (item : Item) :
    ((tally 1 next (tally (-1) previous .empty)).get? (toLex item)).getD 0 =
      ((next : Multiset Item).count item : ℤ) - (previous : Multiset Item).count item := by
  rw [getD_tally, getD_tally, BTreeMap.get?_empty, Option.getD_none]
  ring

lemma coe_left (previous next : Option RemovalRecord) (nowMs : ℕ) :
    ((of previous next nowMs).left : Multiset Item) =
      (unstable nowMs previous : Multiset Item) - (unstable nowMs next : Multiset Item) := by
  ext item
  have hcount := getD_counts (unstable nowMs previous) (unstable nowMs next) item
  simp only [of, Multiset.count_sub]
  rw [count_repeated _ (fun n => decide (n < 0))]
  generalize (tally 1 (unstable nowMs next)
    (tally (-1) (unstable nowMs previous) .empty)).get? (toLex item) = n at hcount ⊢
  cases n with
  | none =>
    simp only [Option.getD_none, Option.elim_none] at hcount ⊢
    omega
  | some n =>
    simp only [Option.getD_some, Option.elim_some, decide_eq_true_eq] at hcount ⊢
    split <;> omega

lemma coe_raised (previous next : Option RemovalRecord) (nowMs : ℕ) :
    ((of previous next nowMs).raised : Multiset Item) =
      (unstable nowMs next : Multiset Item) - (unstable nowMs previous : Multiset Item) := by
  ext item
  have hcount := getD_counts (unstable nowMs previous) (unstable nowMs next) item
  simp only [of, Multiset.count_sub]
  rw [count_repeated _ (fun n => !decide (n < 0))]
  generalize (tally 1 (unstable nowMs next)
    (tally (-1) (unstable nowMs previous) .empty)).get? (toLex item) = n at hcount ⊢
  cases n with
  | none =>
    simp only [Option.getD_none, Option.elim_none] at hcount ⊢
    omega
  | some n =>
    simp only [Option.getD_some, Option.elim_some, Bool.not_eq_true', decide_eq_false_iff_not]
      at hcount ⊢
    split <;> omega

/-! ### Applying the changes -/

variable {s : SlotAccounting} {held : Multiset Item} {left : List Item}

lemma exact_chargeAll (h : s.Exact held) (l : List Item) :
    (chargeAll s l).Exact ((l : Multiset Item) + held) := by
  induction l generalizing s held with
  | nil => simpa [chargeAll] using h
  | cons item l ih =>
    have hrest := ih (h.charge item.1 item.2)
    rwa [Multiset.add_cons, ← Multiset.cons_add, Multiset.cons_coe] at hrest

lemma exact_dischargeAll (h : s.Exact held) (l : List Item) :
    (dischargeAll s l).Exact (held - (l : Multiset Item)) := by
  induction l generalizing s held with
  | nil => simpa [dischargeAll] using h
  | cons item l ih =>
    have hrest := ih (h.discharge item.1 item.2)
    rwa [← Multiset.cons_coe, Multiset.sub_cons]

lemma exact_undo {raised : List Item} (h : s.Exact (↑raised + (held - ↑left)))
    (hleft : (left : Multiset Item) ≤ held) : (undo left raised s).Exact held := by
  have hundo := exact_chargeAll (exact_dischargeAll h raised) left
  rwa [add_tsub_cancel_left, add_tsub_cancel_of_le hleft] at hundo

lemma exact_raiseAll (hleft : (left : Multiset Item) ≤ held) (rest : List Item) :
    ∀ (done : List Item) (s : SlotAccounting), s.Exact (↑done + (held - ↑left)) →
      ((raiseAll left done rest s).1 = .ok () →
        (raiseAll left done rest s).2.Exact (↑(done ++ rest) + (held - ↑left))) ∧
      (∀ e, (raiseAll left done rest s).1 = .error e →
        (raiseAll left done rest s).2.Exact held ∧
          ∃ item ∈ rest, ∃ refusal, e = .removalCapacityExhausted item.1 refusal) := by
  induction rest with
  | nil =>
    intro done s h
    exact ⟨fun _ => by simpa [raiseAll] using h, fun e he => by cases he⟩
  | cons item rest ih =>
    intro done s h
    rw [raiseAll]
    rcases hadmitted : s.tryAdmit item.1 with refusal | _
    · refine ⟨fun hok => (by cases hok), fun e he => ?_⟩
      cases he
      exact ⟨exact_undo h hleft, item, List.mem_cons_self, refusal, rfl⟩
    · have hdone : (s.charge item.1 item.2).Exact (↑(done ++ [item]) + (held - ↑left)) := by
        have hcharge := h.charge item.1 item.2
        rwa [← Multiset.cons_add, ← Multiset.singleton_add, Multiset.add_comm {_},
          ← Multiset.coe_singleton, Multiset.coe_add] at hcharge
      obtain ⟨hok, herr⟩ := ih (done ++ [item]) _ hdone
      rw [List.append_assoc] at hok
      refine ⟨hok, fun e he => ?_⟩
      obtain ⟨hexact, other, hmem, hrefusal⟩ := herr e he
      exact ⟨hexact, other, List.mem_cons_of_mem _ hmem, hrefusal⟩

/-- The outcome of applying the changes: on a refusal the items after the advance stay, and
otherwise those that left are gone and those raised are there. -/
lemma exact_apply {changes : ItemChanges} {nowMs : ℕ} (h : s.Exact held)
    (hleft : (changes.left : Multiset Item) ≤ held.filter fun item => nowMs < item.2) :
    ((changes.apply s nowMs).1 = .ok () → (changes.apply s nowMs).2.Exact
      (↑changes.raised + (held.filter (fun item => nowMs < item.2) - ↑changes.left))) ∧
    (∀ e, (changes.apply s nowMs).1 = .error e →
      (changes.apply s nowMs).2.Exact (held.filter fun item => nowMs < item.2) ∧
        ∃ item ∈ changes.raised, ∃ refusal, e = .removalCapacityExhausted item.1 refusal) := by
  have hstart := exact_dischargeAll (h.advance nowMs) changes.left
  exact exact_raiseAll hleft changes.raised [] _ (by simpa using hstart)

end ItemChanges

/-! ### The items of the store -/

variable {Key : Type} [LinearOrder Key]

def itemsOf (record : Option RemovalRecord) : Multiset Item :=
  (record.toList.flatMap RemovalRecord.items : List Item)

def storedItems (removals : BTreeMap Key RemovalRecord) : Multiset Item :=
  removals.sumBy fun _ record => (record.items : Multiset Item)

lemma coe_unstable (nowMs : ℕ) (record : Option RemovalRecord) :
    (ItemChanges.unstable nowMs record : Multiset Item) =
      (itemsOf record).filter fun item => nowMs < item.2 := by
  rw [ItemChanges.unstable, itemsOf, Multiset.filter_coe]

lemma elim_items (record : Option RemovalRecord) :
    (record.elim 0 fun record => (record.items : Multiset Item)) = itemsOf record := by
  cases record <;> simp [itemsOf]

lemma storedItems_setRemovals (key : Key) (next : Option RemovalRecord) (d : Disk Key) :
    storedItems (CarrierStore.setRemovals key next d).removals + itemsOf (d.removals.get? key) =
      storedItems d.removals + itemsOf next := by
  rw [← elim_items, ← elim_items next]
  cases next with
  | none =>
    rw [Option.elim_none, add_zero]
    exact BTreeMap.sumBy_remove _ d.removals key
  | some record => exact BTreeMap.sumBy_insert _ d.removals key record

lemma itemsOf_le_storedItems (key : Key) (removals : BTreeMap Key RemovalRecord) :
    itemsOf (removals.get? key) ≤ storedItems removals := by
  rw [← elim_items, storedItems, ← BTreeMap.sumBy_remove _ removals key]
  exact Multiset.le_add_left _ _

lemma stableAt_pos (version : EntryVersion) : 0 < stableAt version := by
  simp only [stableAt, saturatingAdd, tsOffsetToleranceMs, u128Max]
  omega

lemma items_pos {record : RemovalRecord} {item : Item} (h : item ∈ record.items) : 0 < item.2 := by
  simp only [RemovalRecord.items, List.mem_append, List.mem_map] at h
  rcases h with ⟨remove, -, rfl⟩ | ⟨register, -, rfl⟩ <;> exact stableAt_pos _

lemma coe_entries_items (removals : BTreeMap Key RemovalRecord) :
    ((removals.entries.flatMap fun kv => kv.2.items : List Item) : Multiset Item) =
      storedItems removals := by
  rw [storedItems, BTreeMap.sumBy]
  induction removals.entries with
  | nil => rfl
  | cons kv l ih =>
    rw [List.flatMap_cons, ← Multiset.coe_add, ih, List.map_cons, List.sum_cons]

lemma storedItems_pos (removals : BTreeMap Key RemovalRecord) :
    (storedItems removals).filter (fun item => 0 < item.2) = storedItems removals := by
  rw [Multiset.filter_eq_self]
  intro item hitem
  rw [← coe_entries_items, Multiset.mem_coe, List.mem_flatMap] at hitem
  obtain ⟨kv, -, h⟩ := hitem
  exact items_pos h

lemma changed_items {previous next : Multiset Item} {stored stored' : Multiset Item}
    (hle : previous ≤ stored) (h : stored' + previous = stored + next) :
    (next - previous) + (stored - (previous - next)) = stored' := by
  ext item
  have hle' := Multiset.count_le_of_le item hle
  have h' := congrArg (Multiset.count item) h
  simp only [Multiset.count_add, Multiset.count_sub] at h' ⊢
  omega

/-! ### The accounting along a run -/

namespace CarrierStore

variable {codec : Codec} {w v : Stores Key} {t nowMs : ℕ} {key : Key}

/-- The accounting holds exactly the items of the stored remove sides that are not yet stable at
the last advance. -/
def Accounted (w : Stores Key) : Prop :=
  w.index.accounting.Exact
    ((storedItems w.disk.removals).filter fun item => w.index.advancedMs < item.2)

/-- A call that runs the recovery pass meets no failure in it: no access fails, and every element
side joins the remove side it is glued to. -/
def RecoveryClean (codec : Codec) (w : Stores Key) (faults : Faults) : Prop :=
  w.index.recovered = true ∨ w.disk.removals.entries = [] ∨
    Clean faults.recovery ∧ ∀ key record held, w.disk.removals.get? key = some record →
      w.disk.elements.get? key = some held → ∃ z, held.join codec record.asEntry = .ok z

/-- The stores a run reaches from any stored data, with the time of the last put: every call
meets `allowed`, times do not go back, an element side may be evicted and the store reopened at
any moment. -/
inductive Reach (codec : Codec) (allowed : Stores Key → Faults → Prop) : ℕ → Stores Key → Prop
  | opened (d : Disk Key) (faults : Faults) : Reach codec allowed 0 ⟨d, .new, faults⟩
  | put {t : ℕ} {w : Stores Key} (run : Reach codec allowed t w) (faults : Faults)
      (met : allowed w faults) (key : Key) (value : Entry) (introducer : Principal) {nowMs : ℕ}
      (later : t ≤ nowMs) :
      Reach codec allowed nowMs (outcome (put codec key value introducer nowMs) (under w faults)).2
  | remove {t : ℕ} {w : Stores Key} (run : Reach codec allowed t w) (faults : Faults)
      (met : allowed w faults) (key : Key) :
      Reach codec allowed t (outcome (remove codec key) (under w faults)).2
  | get {t : ℕ} {w : Stores Key} (run : Reach codec allowed t w) (faults : Faults)
      (met : allowed w faults) (key : Key) :
      Reach codec allowed t (outcome (get codec key) (under w faults)).2
  | evict {t : ℕ} {w : Stores Key} (run : Reach codec allowed t w) (key : Key) :
      Reach codec allowed t { w with disk := { w.disk with elements := w.disk.elements.remove key } }
  | reopen {t : ℕ} {w : Stores Key} (run : Reach codec allowed t w) :
      Reach codec allowed t { w with index := .new }

/-- What a run keeps: a recovered index accounts for the store, an index not yet recovered is
empty. -/
structure Kept (t : ℕ) (w : Stores Key) : Prop where
  accounted : w.index.recovered = true → Accounted w
  fresh : w.index.recovered = false → w.index = .new
  time : w.index.advancedMs ≤ t
  shares : w.index.accounting.shares = removalShares

lemma chargeAll_shares (s : SlotAccounting) (l : List Item) :
    (ItemChanges.chargeAll s l).shares = s.shares := by
  induction l generalizing s with
  | nil => rfl
  | cons item l ih => exact ih _

lemma dischargeAll_shares (s : SlotAccounting) (l : List Item) :
    (ItemChanges.dischargeAll s l).shares = s.shares := by
  induction l generalizing s with
  | nil => rfl
  | cons item l ih => exact (ih _).trans (s.discharge_shares item.1 item.2)

lemma advance_shares (s : SlotAccounting) (nowMs : ℕ) : (s.advance nowMs).shares = s.shares :=
  SlotAccounting.advance_induction (P := fun t => t.shares = s.shares)
    (fun t p untilMs ht => (t.discharge_shares p untilMs).trans ht) rfl nowMs

lemma raiseAll_shares (left rest : List Item) : ∀ (done : List Item) (s : SlotAccounting),
    (ItemChanges.raiseAll left done rest s).2.shares = s.shares := by
  induction rest with
  | nil => exact fun _ _ => rfl
  | cons item rest ih =>
    intro done s
    rw [ItemChanges.raiseAll]
    split
    · rw [ItemChanges.undo, chargeAll_shares, dischargeAll_shares]
    · exact (ih _ _).trans rfl

lemma apply_shares (changes : ItemChanges) (s : SlotAccounting) (nowMs : ℕ) :
    (changes.apply s nowMs).2.shares = s.shares := by
  rw [ItemChanges.apply, raiseAll_shares, dischargeAll_shares, advance_shares]

/-- The recovery pass of a call that meets no failure in it leaves a store accounted for; it
touches no remove side, and nothing at all when it has run before. -/
lemma ensureRecovered_accounted (h : Kept t w) {faults : Faults}
    (hclean : RecoveryClean codec w faults) :
    ∃ r v, outcome (ensureRecovered codec) (under w faults) = (r, v) ∧ Kept t v ∧ Accounted v ∧
      v.disk.removals = w.disk.removals ∧ (w.index.recovered = true → v.disk = w.disk) ∧
      (r = .ok () → v.index.recovered = true) ∧
      ∀ p refusal, r ≠ .error (.removalCapacityExhausted p refusal) := by
  rcases hrec : w.index.recovered with _ | _
  · obtain ⟨r, v, hout, hstep, hflag⟩ :=
      @ensureRecovered_outcome codec Key _ (under w faults) hrec
    have hnew := h.fresh hrec
    have hadv : v.index.advancedMs = 0 := hstep.advanced.trans (congrArg RemovalIndex.advancedMs hnew)
    have hacc : (under w faults).index.accounting = .new removalShares :=
      congrArg RemovalIndex.accounting hnew
    -- the pass counts everything, or there is nothing to count
    have hitems : v.index.accounting =
        ItemChanges.chargeAll (.new removalShares)
          (w.disk.removals.entries.flatMap fun kv => kv.2.items) ∧
        (r = .ok () ∨ v.index = .new) := by
      rcases hclean with hdone | hempty | ⟨hfaults, hjoins⟩
      · simp [hrec] at hdone
      · have hnone : v.index.accounting = .new removalShares := (hstep.nothing hempty).trans hacc
        refine ⟨by rw [hnone, hempty]; rfl, ?_⟩
        rcases r with e | _
        · right
          have hrec' : v.index.recovered = false := hflag
          rw [RemovalIndex.new, ← hrec', ← hnone, ← hadv]
        · exact Or.inl rfl
      · have hok := hstep.clean hfaults hjoins
        exact ⟨(hstep.counted hok).trans (by rw [hacc]; rfl), Or.inl hok⟩
    have haccounted : Accounted v := by
      have hcharged := ItemChanges.exact_chargeAll (SlotAccounting.exact_new removalShares)
        (w.disk.removals.entries.flatMap fun kv => kv.2.items)
      rw [add_zero, coe_entries_items, ← hitems.1] at hcharged
      have hremovals : v.disk.removals = w.disk.removals := hstep.removals
      rwa [Accounted, hadv, storedItems_pos, hremovals]
    refine ⟨r, v, hout, ⟨fun _ => haccounted, fun hf => ?_, by omega, ?_⟩, haccounted,
      hstep.removals, fun hf => (by cases hf), fun hok => (by rw [hflag, hok]; rfl),
      hstep.admits⟩
    · rcases hitems.2 with hok | hv
      · rw [hflag, hok] at hf
        cases hf
      · exact hv
    · rw [hitems.1, chargeAll_shares]
      rfl
  · have hout := @ensureRecovered_of_recovered codec Key _ (under w faults) hrec
    exact ⟨_, _, hout, ⟨h.accounted, h.fresh, h.time, h.shares⟩, h.accounted hrec, rfl,
      fun _ => rfl, fun _ => hrec, fun p refusal hf => (by cases hf)⟩

/-- The accounting of a changed remove side: refused, it holds the items after the advance;
admitted, those of the new remove side; reverted, those of the old one again. -/
lemma apply_accounted {d : Disk Key} {i : RemovalIndex} {next : Option RemovalRecord}
    (h : i.accounting.Exact ((storedItems d.removals).filter fun item => i.advancedMs < item.2))
    (htime : i.advancedMs ≤ nowMs) {applied : Except CarrierError Unit × SlotAccounting}
    (happly : applied =
      (ItemChanges.of (d.removals.get? key) next nowMs).apply i.accounting nowMs) :
    (applied.1 = .ok () →
      applied.2.Exact ((storedItems (setRemovals key next d).removals).filter
        fun item => nowMs < item.2) ∧
      ((ItemChanges.of (d.removals.get? key) next nowMs).revert applied.2).Exact
        ((storedItems d.removals).filter fun item => nowMs < item.2)) ∧
    (∀ e, applied.1 = .error e →
      applied.2.Exact ((storedItems d.removals).filter fun item => nowMs < item.2) ∧
        (∃ item ∈ (ItemChanges.of (d.removals.get? key) next nowMs).raised,
          ∃ refusal, e = .removalCapacityExhausted item.1 refusal)) := by
  have hfilter : ((storedItems d.removals).filter fun item => i.advancedMs < item.2).filter
      (fun item => nowMs < item.2) = (storedItems d.removals).filter fun item => nowMs < item.2 := by
    rw [Multiset.filter_filter]
    refine Multiset.filter_congr fun item _ => ?_
    constructor
    · exact And.left
    · exact fun hitem => ⟨hitem, by omega⟩
  have hprevious : (ItemChanges.unstable nowMs (d.removals.get? key) : Multiset Item) ≤
      (storedItems d.removals).filter fun item => nowMs < item.2 := by
    rw [coe_unstable]
    exact Multiset.filter_le_filter _ (itemsOf_le_storedItems key d.removals)
  have hleft := (tsub_le_self (a := (ItemChanges.unstable nowMs (d.removals.get? key) :
    Multiset Item)) (b := (ItemChanges.unstable nowMs next : Multiset Item))).trans hprevious
  rw [← ItemChanges.coe_left, ← hfilter] at hleft
  obtain ⟨hok, herr⟩ := ItemChanges.exact_apply h hleft
  rw [hfilter] at hok herr hleft
  rw [← happly] at hok herr
  refine ⟨fun h => ⟨?_, ?_⟩, herr⟩
  · have hexact := hok h
    rw [ItemChanges.coe_left, ItemChanges.coe_raised, coe_unstable, coe_unstable] at hexact
    rwa [changed_items] at hexact
    · rw [← coe_unstable]
      exact hprevious
    · rw [← Multiset.filter_add, storedItems_setRemovals, Multiset.filter_add]
  · exact ItemChanges.exact_undo (hok h) hleft

/-- A put from a recovered index keeps the accounting exact; refused, it leaves both stores and
the accounting after its advance, and it raised an item. -/
lemma PutFrom.accounted {value : Entry} {introducer : Principal} {d d' : Disk Key}
    {i i' : RemovalIndex} {faults : List Bool} {r : Except CarrierError Unit}
    (h : PutFrom key value introducer nowMs d i faults r d' i')
    (hacc : i.accounting.Exact
      ((storedItems d.removals).filter fun item => i.advancedMs < item.2))
    (htime : i.advancedMs ≤ nowMs) (hshares : i.accounting.shares = removalShares) :
    i'.accounting.Exact ((storedItems d'.removals).filter fun item => i'.advancedMs < item.2) ∧
      i'.advancedMs ≤ nowMs ∧ i'.accounting.shares = removalShares ∧
      i'.recovered = i.recovered ∧
      ∀ p refusal, r = .error (.removalCapacityExhausted p refusal) →
        d' = d ∧ i'.accounting = i.accounting.advance nowMs ∧
          (ItemChanges.of (d.removals.get? key)
            (RemovalRecord.of value (d.removals.get? key) introducer) nowMs).raised ≠ [] := by
  cases h with
  | failed fault => exact ⟨hacc, htime, hshares, rfl, fun p refusal hr => by cases hr⟩
  | refused e next of changed applied apply error =>
    obtain ⟨hexact, item, hmem, -⟩ := (apply_accounted hacc htime apply).2 e error
    have hsame : applied.2.shares = i.accounting.shares := by rw [apply, apply_shares]
    have hadvanced := hacc.advance nowMs
    rw [Multiset.filter_filter] at hadvanced
    have hfilter : (storedItems d.removals).filter
        (fun item => nowMs < item.2 ∧ i.advancedMs < item.2) =
        (storedItems d.removals).filter fun item => nowMs < item.2 :=
      Multiset.filter_congr fun item _ => ⟨And.left, fun hitem => ⟨hitem, by omega⟩⟩
    rw [hfilter] at hadvanced
    refine ⟨hexact, le_rfl, hsame.trans hshares, rfl, fun p refusal _ => ⟨rfl, ?_, ?_⟩⟩
    · exact hexact.unique hadvanced (hsame.trans (advance_shares _ _).symm)
    · rw [← of]
      exact List.ne_nil_of_mem hmem
  | reverted fault next of changed applied apply ok =>
    obtain ⟨-, hexact⟩ := (apply_accounted hacc htime apply).1 ok
    refine ⟨hexact, le_rfl, ?_, rfl, fun p refusal hr => by cases hr⟩
    change (ItemChanges.undo _ _ _).shares = _
    rw [ItemChanges.undo, chargeAll_shares, dischargeAll_shares, apply, apply_shares, hshares]
  | torn cut next of changed applied apply ok =>
    obtain ⟨hexact, -⟩ := (apply_accounted hacc htime apply).1 ok
    refine ⟨hexact, le_rfl, ?_, rfl, fun p refusal hr => by cases hr⟩
    rw [apply, apply_shares, hshares]
  | unchanged of => exact ⟨hacc, htime, hshares, rfl, fun p refusal hr => by cases hr⟩
  | written next of changed applied apply ok =>
    obtain ⟨hexact, -⟩ := (apply_accounted hacc htime apply).1 ok
    refine ⟨hexact, le_rfl, ?_, rfl, fun p refusal hr => by cases hr⟩
    rw [apply, apply_shares, hshares]

/-- A removal takes off the items of its record: those already stable are no longer held. -/
lemma RemoveFrom.accounted {d d' : Disk Key} {i i' : RemovalIndex} {faults : List Bool}
    {r : Except CarrierError Unit} (h : RemoveFrom key d i faults r d' i')
    (hacc : i.accounting.Exact
      ((storedItems d.removals).filter fun item => i.advancedMs < item.2)) :
    i'.accounting.Exact ((storedItems d'.removals).filter fun item => i'.advancedMs < item.2) ∧
      i'.advancedMs = i.advancedMs ∧ i'.accounting.shares = i.accounting.shares ∧
      i'.recovered = i.recovered := by
  cases h with
  | failed fault => exact ⟨hacc, rfl, rfl, rfl⟩
  | torn fault => exact ⟨hacc, rfl, rfl, rfl⟩
  | bare none => exact ⟨hacc, rfl, rfl, rfl⟩
  | removed record some =>
    refine ⟨?_, rfl, dischargeAll_shares _ _, rfl⟩
    have hexact := ItemChanges.exact_dischargeAll hacc record.items
    have hstored := storedItems_setRemovals key none
      ({ d with elements := d.elements.remove key } : Disk Key)
    simp only [some] at hstored
    have hitems : itemsOf (Option.some record) = (record.items : Multiset Item) := by simp [itemsOf]
    have hnone : itemsOf none = 0 := rfl
    rw [hitems, hnone, add_zero] at hstored
    rw [← hstored, Multiset.filter_add] at hexact
    convert hexact using 1
    ext item
    simp only [Multiset.count_add, Multiset.count_sub, Multiset.count_filter]
    split <;> omega

/-- A put of a run: the accounting stays exact, and the stores as they were when it is
refused. -/
lemma put_accounted (h : Kept t w) {faults : Faults} (hclean : RecoveryClean codec w faults)
    (key : Key) (value : Entry) (introducer : Principal) (hlater : t ≤ nowMs) :
    Kept nowMs (outcome (put codec key value introducer nowMs) (under w faults)).2 ∧
      Accounted (outcome (put codec key value introducer nowMs) (under w faults)).2 ∧
      ∀ p refusal, (outcome (put codec key value introducer nowMs) (under w faults)).1 =
          .error (.removalCapacityExhausted p refusal) →
        ∃ v, outcome (ensureRecovered codec) (under w faults) = (.ok (), v) ∧
          v.disk.removals = w.disk.removals ∧ (w.index.recovered = true → v.disk = w.disk) ∧
          (outcome (put codec key value introducer nowMs) (under w faults)).2.disk = v.disk ∧
          (outcome (put codec key value introducer nowMs) (under w faults)).2.index.accounting =
            v.index.accounting.advance nowMs ∧
          (ItemChanges.of (w.disk.removals.get? key)
            (RemovalRecord.of value (w.disk.removals.get? key) introducer) nowMs).raised ≠ [] := by
  obtain ⟨r, v, hout, hkept, hacc, hremovals, hdisk, hrec, hadmits⟩ :=
    ensureRecovered_accounted h hclean
  rcases r with e | _
  · have hput : outcome (put codec key value introducer nowMs) (under w faults) = (.error e, v) := by
      rw [put, outcome_bind_of_error hout]
    rw [hput]
    refine ⟨⟨hkept.accounted, hkept.fresh, hkept.time.trans hlater, hkept.shares⟩, hacc, ?_⟩
    exact fun p refusal he => absurd he (hadmits p refusal)
  · have hput : PutFrom key value introducer nowMs v.disk v.index v.faults.call _ _ _ :=
      put_outcome hout
    obtain ⟨hexact, htime, hshares, hflag, hrefused⟩ :=
      hput.accounted hacc (hkept.time.trans hlater) hkept.shares
    have hrecovered := hflag.trans (hrec rfl)
    refine ⟨⟨fun _ => hexact, fun hf => ?_, htime, hshares⟩, hexact, fun p refusal he => ?_⟩
    · rw [hrecovered] at hf
      cases hf
    · obtain ⟨hd, ha, hraised⟩ := hrefused p refusal he
      rw [hremovals] at hraised
      exact ⟨v, hout, hremovals, hdisk, hd, ha, hraised⟩

lemma remove_accounted (h : Kept t w) {faults : Faults} (hclean : RecoveryClean codec w faults)
    (key : Key) : Kept t (outcome (remove codec key) (under w faults)).2 ∧
      Accounted (outcome (remove codec key) (under w faults)).2 := by
  obtain ⟨r, v, hout, hkept, hacc, -, -, hrec, -⟩ := ensureRecovered_accounted h hclean
  rcases r with e | _
  · have hremove : outcome (remove codec key) (under w faults) = (.error e, v) := by
      rw [remove, outcome_bind_of_error hout]
    rw [hremove]
    exact ⟨hkept, hacc⟩
  · have hremove : RemoveFrom key v.disk v.index v.faults.call _ _ _ := remove_outcome hout
    obtain ⟨hexact, htime, hshares, hflag⟩ := hremove.accounted hacc
    refine ⟨⟨fun _ => hexact, fun hf => ?_, htime.trans_le hkept.time, hshares.trans hkept.shares⟩,
      hexact⟩
    rw [hflag.trans (hrec rfl)] at hf
    cases hf

lemma get_kept (h : Kept t w) {faults : Faults} (hclean : RecoveryClean codec w faults)
    (key : Key) : Kept t (outcome (get codec key) (under w faults)).2 := by
  obtain ⟨r, v, hout, hkept, hacc, -, -, hrec, -⟩ := ensureRecovered_accounted h hclean
  rcases r with e | _
  · have hget : outcome (get codec key) (under w faults) = (.error e, v) := by
      rw [get, outcome_bind_of_error hout]
    rw [hget]
    exact hkept
  · obtain ⟨hd, hi, -⟩ := @get_outcome codec Key _ _ key _ hout
    refine ⟨fun _ => ?_, fun hf => ?_, ?_, ?_⟩
    · rw [Accounted, hd, hi]
      exact hacc
    · rw [hi] at hf ⊢
      exact hkept.fresh hf
    · rw [hi]
      exact hkept.time
    · rw [hi]
      exact hkept.shares

lemma Reach.kept (h : Reach codec (RecoveryClean codec) t w) : Kept t w := by
  induction h with
  | opened d faults => exact ⟨fun hf => (by cases hf), fun _ => rfl, le_rfl, rfl⟩
  | put run faults met key value introducer later ih => 
    exact (put_accounted ih met key value introducer later).1
  | remove run faults met key ih => exact (remove_accounted ih met key).1
  | get run faults met key ih => exact get_kept ih met key
  | evict run key ih => exact ⟨ih.accounted, ih.fresh, ih.time, ih.shares⟩
  | reopen run ih => exact ⟨fun hf => (by cases hf), fun _ => rfl, Nat.zero_le _, rfl⟩

/-- Along every run whose recovery passes meet no failure, each put and each removal leaves the
accounting with exactly the stored items not yet stable at the last advance. A refused put
leaves both stores and the accounting as they were after that advance (the first call after the
store is opened: after its recovery pass), and a put that raises no item is never refused. -/
theorem removal_accounting_exact (codec : Codec) (t : ℕ) (w : Stores Key)
    (run : Reach codec (RecoveryClean codec) t w) (faults : Faults)
    (met : RecoveryClean codec w faults) (key : Key) (value : Entry) (introducer : Principal)
    (nowMs : ℕ) (later : t ≤ nowMs) :
    Accounted (outcome (put codec key value introducer nowMs) (under w faults)).2 ∧
      Accounted (outcome (remove codec key) (under w faults)).2 ∧
      ∀ p refusal, (outcome (put codec key value introducer nowMs) (under w faults)).1 =
          .error (.removalCapacityExhausted p refusal) →
        ∃ v, outcome (ensureRecovered codec) (under w faults) = (.ok (), v) ∧
          v.disk.removals = w.disk.removals ∧ (w.index.recovered = true → v.disk = w.disk) ∧
          (outcome (put codec key value introducer nowMs) (under w faults)).2.disk = v.disk ∧
          (outcome (put codec key value introducer nowMs) (under w faults)).2.index.accounting =
            v.index.accounting.advance nowMs ∧
          ¬ (itemsOf (RemovalRecord.of value (w.disk.removals.get? key) introducer)).filter
              (fun item => nowMs < item.2) ≤
            (itemsOf (w.disk.removals.get? key)).filter fun item => nowMs < item.2 := by
  obtain ⟨-, hacc, hrefused⟩ := put_accounted run.kept met key value introducer later
  refine ⟨hacc, (remove_accounted run.kept met key).2, fun p refusal he => ?_⟩
  obtain ⟨v, hout, hremovals, hdisk, hd, ha, hraised⟩ := hrefused p refusal he
  refine ⟨v, hout, hremovals, hdisk, hd, ha, fun hle => hraised ?_⟩
  rw [← coe_unstable, ← coe_unstable, ← tsub_eq_zero_iff_le, ← ItemChanges.coe_raised] at hle
  exact (Multiset.coe_eq_zero _).1 hle

/-- A carrier of one reset register, and its remove side charged to the node itself. -/
def resetEntry : Entry := ⟨7, [], .data, ⟨some ⟨5, 0, 1, 2⟩, [], []⟩, some 9⟩

def resetRecord : RemovalRecord := ⟨7, some ⟨⟨5, 0, 1, 2⟩, .localNode⟩, []⟩

def resetDisk : Disk ℕ := ⟨.empty, BTreeMap.empty.insert 0 resetRecord⟩

/-- A later reset over the stored record, whose remove side fails to be written. -/
def failedReset : Except CarrierError Unit × Stores ℕ :=
  outcome (put plainCodec 0 { resetEntry with crdt := ⟨some ⟨6, 0, 1, 2⟩, [], []⟩ } .localNode 5)
    (under ⟨resetDisk, .new, .none⟩ ⟨[], [false, true]⟩)

/-- The next put, of another key. -/
def nextReset : Except CarrierError Unit × Stores ℕ :=
  outcome (put plainCodec 1 resetEntry .localNode 6) (under failedReset.2 .none)

/-- The failed put leaves the item of the stored record accounted for; the next adds its own. -/
theorem removal_accounting_exact_reset :
    failedReset.1 = .error .storage ∧
      storedItems failedReset.2.disk.removals = {(.localNode, stableAt ⟨5, 0, 1, 2⟩)} ∧
      failedReset.2.index.accounting.len = 1 ∧ Accounted failedReset.2 ∧
      nextReset.2.index.accounting.len = 2 ∧ Accounted nextReset.2 := by
  have hclean : RecoveryClean plainCodec ⟨resetDisk, .new, .none⟩ ⟨[], [false, true]⟩ :=
    Or.inr (Or.inr ⟨fun _ h => (by cases h), fun _ _ _ _ h => (by cases h)⟩)
  have hopen : Reach plainCodec (RecoveryClean plainCodec) 0 ⟨resetDisk, .new, .none⟩ :=
    .opened _ _
  have hrun : Reach plainCodec (RecoveryClean plainCodec) 5 failedReset.2 :=
    hopen.put _ hclean 0 _ .localNode (Nat.zero_le 5)
  exact ⟨by rfl, by rfl, by rfl,
    (removal_accounting_exact plainCodec 0 _ hopen _ hclean 0 _ .localNode 5 (Nat.zero_le 5)).1,
    by rfl,
    (removal_accounting_exact plainCodec 5 _ hrun .none (Or.inl (by rfl)) 1 resetEntry .localNode 6
      (by decide)).1⟩

/-- A recovery pass that fails after it has counted a record counts it again on the next call:
the store holds one item, and the accounting two. -/
theorem recovery_counts_twice : ∃ w : Stores ℕ, Reach plainCodec (fun _ _ => True) 0 w ∧
    w.index.recovered = true ∧ storedItems w.disk.removals = {(.localNode, stableAt ⟨5, 0, 1, 2⟩)} ∧
    w.index.accounting.len = 2 ∧ ¬ Accounted w := by
  have hopen : Reach plainCodec (fun _ _ => True) 0 ⟨resetDisk, .new, .none⟩ := .opened _ _
  have hfailed := hopen.remove ⟨[false, true], []⟩ trivial 1
  refine ⟨_, hfailed.remove .none trivial 1, rfl, rfl, rfl, fun h => ?_⟩
  have hheld := h.held .localNode
  exact absurd hheld (by decide)

end CarrierStore

end Rings
