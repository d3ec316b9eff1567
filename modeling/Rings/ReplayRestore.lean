import Rings.ReplayStreams

/-!
Restarts of the replay store.

A start reads the streams back from the records of the disk, one table entry for each record, and
charges the accounting for each receiver stream. Records that were staged by transitions restore:
each stands under its own key, with a valid window and a charge that outlasts its custody.
-/

namespace Rings

namespace StoredStream

def stream : StoredStream → Option Stream
  | sender _ _ => none
  | receiver _ state custody charge => some ⟨state, custody, charge⟩

def lease : StoredStream → Option ℕ
  | sender _ leased => some leased
  | receiver _ _ _ _ => none

/-- The record stands under its own key and restores. -/
structure Filed (k : RecordKey) (r : StoredStream) : Prop where
  key : r.recordKey = k
  lasting : ∀ v, r.stream = some v → v.Lasting

end StoredStream

lemma Stream.record_filed {v : Stream} (h : v.Lasting) (key : StreamKey) :
    (v.record key).Filed ⟨.receiver, key⟩ :=
  ⟨rfl, fun _ hv => Option.some.inj hv ▸ h⟩

/-- What restoring a list of records gives. -/
structure Restored (l : List (RecordKey × StoredStream)) (s : ReplayStore) : Prop where
  unrestorable : s.unrestorable = .empty
  good : s.tables.Good
  indexed : s.tables.Indexed
  stream : ∀ key, s.tables.stream key = (l.lookup ⟨.receiver, key⟩).bind StoredStream.stream
  sender : ∀ key, s.tables.sender.get? key =
    ((l.lookup ⟨.sender, key⟩).bind StoredStream.lease).map SenderLease.restored

lemma restored_empty : Restored [] .empty where
  unrestorable := rfl
  good := ⟨fun _ => rfl, fun _ _ h => (by cases h), fun _ _ h => (by cases h),
    fun _ _ h => (by cases h)⟩
  indexed := fun x key => by simp [ReplayStore.empty, ReplayTables.empty]
  stream := fun _ => rfl
  sender := fun _ => rfl

section Record

variable {l : List (RecordKey × StoredStream)} {s : ReplayStore} {k : RecordKey} {r : StoredStream}

lemma lookup_append_new (h : k ∉ l.map Prod.fst) (j : RecordKey) :
    (l ++ [(k, r)]).lookup j = if j = k then some r else l.lookup j := by
  rw [List.lookup_append, lookup_cons_ite]
  by_cases hj : j = k
  · subst hj
    rw [lookup_eq_none_of_notMem h, if_pos rfl, if_pos rfl]
    rfl
  · rw [if_neg hj, if_neg hj]
    exact Option.or_none

/-- One more record restores one more stream. -/
lemma Restored.record (h : Restored l s) (hnew : k ∉ l.map Prod.fst) (hr : r.Filed k) :
    Restored (l ++ [(k, r)]) (s.restoreRecord (.filed k (some r))) := by
  obtain ⟨rfl, hlasting⟩ := hr
  cases r with
  | sender key leased =>
    refine ⟨h.unrestorable, ?_, h.indexed, fun j => ?_, fun j => ?_⟩
    · refine ⟨h.good.charged, h.good.custody, h.good.streams, fun j lease hj => ?_⟩
      simp only [ReplayStore.restoreRecord, BTreeMap.get?_insert] at hj
      split at hj
      · obtain rfl := Option.some.inj hj
        exact le_rfl
      · exact h.good.leases j lease hj
    · rw [lookup_append_new hnew, if_neg (fun heq => by cases heq)]
      exact h.stream j
    · rw [lookup_append_new hnew]
      simp only [ReplayStore.restoreRecord, BTreeMap.get?_insert, StoredStream.recordKey,
        RecordKey.mk.injEq, true_and]
      split
      · rfl
      · exact h.sender j
  | receiver key state custody charge =>
    have hv : Stream.Lasting ⟨state, custody, charge⟩ := hlasting _ rfl
    have hnone : s.tables.stream key = none := by
      rw [h.stream key, show l.lookup ⟨.receiver, key⟩ = none from lookup_eq_none_of_notMem hnew]
      rfl
    have hreceiver : s.tables.receiver.get? key = none := by
      rw [h.good.receiver_eq, hnone]
      rfl
    have hcharges : s.tables.charges.get? key = none := by
      rw [h.good.charges_eq, hnone]
      rfl
    have hcustody : s.tables.custody.get? key = none :=
      h.good.custody_eq_none fun v hv => (by rw [hnone] at hv; cases hv)
    rw [ReplayStore.restoreRecord, if_pos hv.valid]
    set t : ReplayTables := { s.tables with
      receiver := s.tables.receiver.insert key state
      custody := if custody = ∅ then s.tables.custody else s.tables.custody.insert key custody
      charges := s.tables.charges.insert key charge
      spent := s.tables.spent.insert (toLex (charge.spentAtMs, key)) () } with ht
    have htreceiver : ∀ j, t.receiver.get? j =
        if j = key then some state else s.tables.receiver.get? j := fun j =>
      BTreeMap.get?_insert _ _ _ _
    have htcharges : ∀ j, t.charges.get? j =
        if j = key then some charge else s.tables.charges.get? j := fun j =>
      BTreeMap.get?_insert _ _ _ _
    have htcustody : ∀ j, t.custody.get? j = if j = key then
        (if custody = ∅ then none else some custody) else s.tables.custody.get? j := by
      intro j
      simp only [ht]
      by_cases hj : j = key
      · subst hj
        split
        · rw [if_pos rfl, hcustody]
        · rw [BTreeMap.get?_insert]
      · rw [if_neg hj]
        split
        · rfl
        · rw [BTreeMap.get?_insert, if_neg hj]
    have hstream : t.stream key = some ⟨state, custody, charge⟩ := by
      refine ReplayTables.stream_eq_some.2 ⟨?_, ?_, ?_⟩
      · rw [htreceiver, if_pos rfl]
      · rw [htcharges, if_pos rfl]
      · rw [htcustody, if_pos rfl]
        split
        · rename_i hempty
          exact hempty
        · rfl
    refine ⟨h.unrestorable, ?_, ?_, fun j => ?_, fun j => ?_⟩
    · refine h.good.of_change (fun j (hj : j ≠ key) => ?_) rfl ?_ ?_ ?_
      · rw [htreceiver, htcharges, htcustody, if_neg hj, if_neg hj, if_neg hj]
        exact ⟨rfl, rfl, rfl⟩
      · rw [htreceiver, htcharges, if_pos rfl, if_pos rfl]
        rfl
      · intro K hK
        rw [htcustody, if_pos rfl] at hK
        split at hK
        · cases hK
        · rename_i hne
          obtain rfl := Option.some.inj hK
          rw [htreceiver, if_pos rfl]
          exact ⟨hne, rfl⟩
      · intro v hv'
        obtain rfl := Option.some.inj (hstream.symm.trans hv')
        exact hv
    · have hset : (s.tables.setCharge key (some charge)).Indexed := h.indexed.setCharge
      have hspent : (s.tables.setCharge key (some charge)).spent = t.spent := by
        simp only [ReplayTables.setCharge, hcharges]
        rfl
      intro x j
      have := hset x j
      rw [hspent] at this
      exact this
    · rw [lookup_append_new hnew]
      simp only [StoredStream.recordKey, RecordKey.mk.injEq, true_and]
      by_cases hj : j = key
      · subst hj
        rw [if_pos rfl]
        exact hstream
      · rw [if_neg hj, ← h.stream j]
        refine ReplayTables.stream_congr ?_ ?_ ?_
        · rw [htreceiver, if_neg hj]
        · rw [htcharges, if_neg hj]
        · rw [htcustody, if_neg hj]
    · rw [lookup_append_new hnew, if_neg (fun heq => by cases heq)]
      exact h.sender j

end Record

/-- Restoring the records of a disk. -/
lemma restored_scan {disk : BTreeMap RecordKey StoredStream}
    (h : ∀ k r, disk.get? k = some r → r.Filed k) :
    Restored disk.entries (.restore (scan disk)) := by
  have hrun : ∀ l : List (RecordKey × StoredStream), (l.map Prod.fst).Nodup →
      (∀ kv ∈ l, kv.2.Filed kv.1) →
      Restored l (.restore (l.map fun kv => .filed kv.1 (some kv.2))) := by
    intro l
    induction l using List.reverseRecOn with
    | nil => exact fun _ _ => restored_empty
    | append_singleton l kv ih =>
      intro hnodup hfiled
      rw [List.map_append, List.nodup_append] at hnodup
      have hl := ih hnodup.1 fun kv hkv => hfiled kv (List.mem_append_left _ hkv)
      rw [ReplayStore.restore, List.map_append, List.foldl_append]
      refine hl.record (fun hmem => ?_) (hfiled kv (List.mem_append_right _ List.mem_cons_self))
      exact hnodup.2.2 kv.1 hmem kv.1 List.mem_cons_self rfl
  exact hrun disk.entries disk.nodup fun kv hkv => h kv.1 kv.2 (disk.mem_entries.1 hkv)

lemma exact_chargeAll (t : ReplayTables) (shares : Shares) :
    (t.chargeAll (.new shares)).Exact (chargeItems t.charges) := by
  have hfold : ∀ (l : List (StreamKey × StreamCharge)) (s : SlotAccounting) (items : Multiset Item),
      s.Exact items → (l.foldl (fun s kv => s.charge kv.2.introducer kv.2.spentAtMs) s).Exact
        ((l.map fun kv => ({(kv.2.introducer, kv.2.spentAtMs)} : Multiset Item)).sum + items) := by
    intro l
    induction l with
    | nil => exact fun s items hs => by simpa using hs
    | cons kv l ih =>
      intro s items hs
      have := ih _ _ (hs.charge kv.2.introducer kv.2.spentAtMs)
      rw [List.foldl_cons, List.map_cons, List.sum_cons]
      rwa [Multiset.add_cons, ← Multiset.cons_add, ← Multiset.singleton_add] at this
  have := hfold t.charges.entries _ _ (SlotAccounting.exact_new shares)
  rwa [add_zero] at this

/-- A start from records that restore: the streams are those of the records. -/
lemma Speculative.load_spec {disk : BTreeMap RecordKey StoredStream}
    (h : ∀ k r, disk.get? k = some r → r.Filed k) (config : OriginQuotaConfig) (shares : Shares) :
    (load config shares disk).Good ∧
      (∀ key, (load config shares disk).tables.stream key =
        (disk.get? ⟨.receiver, key⟩).bind StoredStream.stream) ∧
      ∀ key, (load config shares disk).tables.sender.get? key =
        ((disk.get? ⟨.sender, key⟩).bind StoredStream.lease).map SenderLease.restored := by
  have hrestored := restored_scan h
  exact ⟨⟨⟨hrestored.indexed, exact_chargeAll _ shares⟩, hrestored.good, hrestored.unrestorable⟩,
    hrestored.stream, hrestored.sender⟩

end Rings
