import Rings.ReplayHistory

/-!
Relay custody over every run.

Each stream with custody has a window and a charge that outlasts its deliveries, so retiring what
is spent never fails and forgets no delivery. A delivery that was admitted stays in custody through
failures and restarts until it is released or spent, and is answered as in custody meanwhile. The
bound on custody is judged on the speculative tables, and holds over every run in which a batch
that is cut short lands no record with a delivery the disk does not hold.
-/

namespace Rings

open GroupCommit Effect

/-! ### Counting deliveries -/

def ReplayTables.held (t : ReplayTables) (key : StreamKey) : RelayCustody :=
  (t.custody.get? key).getD ∅

section Held

variable {t u : ReplayTables} {key : StreamKey}

lemma elim_card (o : Option RelayCustody) : o.elim 0 Finset.card = (o.getD ∅).card := by
  cases o <;> rfl

lemma custodyHeld_le (h : ∀ key, t.held key ⊆ u.held key) :
    Replay.custodyHeld t ≤ Replay.custodyHeld u := by
  refine BTreeMap.sumBy_le_sumBy fun key => ?_
  rw [elim_card, elim_card]
  exact Finset.card_le_card (h key)

lemma custodyHeld_le_succ (key : StreamKey) (d : RelayDelivery)
    (hother : ∀ j, j ≠ key → t.held j ⊆ u.held j) (hkey : t.held key ⊆ insert d (u.held key)) :
    Replay.custodyHeld t ≤ Replay.custodyHeld u + 1 := by
  have hinsert := BTreeMap.sumBy_insert (fun _ (c : RelayCustody) => c.card) u.custody key
    (insert d (u.held key))
  rw [elim_card] at hinsert
  have hcard := Finset.card_insert_le d (u.held key)
  have hle : Replay.custodyHeld t ≤
      (u.custody.insert key (insert d (u.held key))).sumBy fun _ c => c.card := by
    refine BTreeMap.sumBy_le_sumBy fun j => ?_
    rw [elim_card, elim_card, BTreeMap.get?_insert]
    refine Finset.card_le_card ?_
    by_cases hj : j = key
    · subst hj
      rw [if_pos rfl]
      exact hkey
    · rw [if_neg hj]
      exact hother j hj
  have hheld : (u.custody.get? key).getD ∅ = u.held key := rfl
  rw [hheld] at hinsert
  have hsum : Replay.custodyHeld u = u.custody.sumBy fun _ c => c.card := rfl
  omega

lemma ReplayTables.Good.held_eq (h : t.Good) : t.held key = (t.stream key).elim ∅ Stream.custody :=
  h.custody_eq

end Held

lemma retired_custody_subset (nowMs : ℕ) (o : Option Stream) :
    (o.bind (Stream.retired nowMs)).elim ∅ Stream.custody ⊆ o.elim ∅ Stream.custody := by
  rcases o with _ | v
  · exact Finset.Subset.refl _
  · simp only [Option.bind_some, Stream.retired]
    split
    · exact Finset.empty_subset _
    · exact Finset.filter_subset _ _

lemma ReceiverStep.custody_subset {t t' : StreamKey → Option Stream} {call : ReplayCall}
    {answer : ReplayAnswer} (h : ReceiverStep t call answer t') (hnot : answer ≠ .relay .admitted)
    (key : StreamKey) : (t' key).elim ∅ Stream.custody ⊆ (t key).elim ∅ Stream.custody := by
  cases h with
  | reserve k count first last => exact Finset.Subset.refl _
  | tryAdmit admission now permitted =>
    by_cases hk : key = admission.key
    · subst hk
      rw [enteredStreams_self]
      exact retired_custody_subset now.wallMs _
    · rw [enteredStreams, Function.update_of_ne hk]
      exact retired_custody_subset now.wallMs _
  | relayed admission now permitted room => exact absurd rfl hnot
  | inCustody admission now => exact retired_custody_subset now.wallMs _
  | release k delivery =>
    by_cases hk : key = k
    · subst hk
      rw [Function.update_self]
      cases t key with
      | none => exact Finset.Subset.refl _
      | some v => exact Finset.erase_subset _ _
    · rw [Function.update_of_ne hk]

variable {s : Speculative}

lemma ReplayCall.commit_custodyHeld (call : ReplayCall) (hs : s.Good)
    (h : Replay.custodyHeld s.tables ≤ relayCustodyCapacity) :
    Replay.custodyHeld (call.commit s).2.tables ≤ relayCustodyCapacity := by
  rcases hout : (call.commit s).1 with e | answer
  · rw [(call.commit_error hs hout).2]
    exact h
  · obtain ⟨hcommitted, hstep, -⟩ := call.commit_ok hs hout
    have hgood : (call.commit s).2.tables.Good := hcommitted.good.tables
    by_cases hadmitted : answer = .relay .admitted
    · subst hadmitted
      generalize hstreams : (call.commit s).2.tables.stream = t' at hstep
      generalize hanswer : ReplayAnswer.relay Replay.RelayAdmission.admitted = answer at hstep
      cases hstep with
      | reserve key count first last => cases hanswer
      | tryAdmit admission now permitted => cases hanswer
      | inCustody admission now => cases hanswer
      | release key delivery => cases hanswer
      | relayed admission now permitted room =>
        obtain ⟨u, hu, hustream, hroom⟩ := room
        have hle : Replay.custodyHeld ((ReplayCall.admitRelayed admission now).commit s).2.tables ≤
            Replay.custodyHeld u + 1 := by
          refine custodyHeld_le_succ admission.key admission.delivery (fun j hj => ?_) ?_
          · rw [hgood.held_eq, hu.held_eq, hstreams, hustream, enteredStreams,
              Function.update_of_ne hj]
          · rw [hgood.held_eq, hu.held_eq, hstreams, hustream, enteredStreams_self]
            exact Finset.Subset.refl _
        exact hle.trans hroom
    · refine (custodyHeld_le fun key => ?_).trans h
      rw [hgood.held_eq, hs.tables.held_eq]
      exact hstep.custody_subset hadmitted key

/-! ### The bound over a run -/

def StoredStream.custody : StoredStream → RelayCustody
  | sender _ _ => ∅
  | receiver _ _ custody _ => custody

/-- The records of the batch being written that stand under `keys` hold no delivery the disk does
not hold under their key. -/
def Runtime.AddsNoDelivery (r : Runtime) (keys : RecordKey → Bool) : Prop :=
  ∀ batch, r.writing = some batch → ∀ k record, keys k = true →
    batch.records.get? k = some (some record) →
    record.custody ⊆ (r.disk.get? k).elim ∅ StoredStream.custody

instance (r : Runtime) (keys : RecordKey → Bool) : Decidable (r.AddsNoDelivery keys) :=
  decidable_of_iff (∀ batch ∈ r.writing, ∀ kv ∈ batch.records.entries, keys kv.1 = true →
    ∀ record ∈ kv.2, record.custody ⊆ (r.disk.get? kv.1).elim ∅ StoredStream.custody)
    ⟨fun h batch hb k record hk hrecord =>
      h batch hb (k, some record) ((BTreeMap.mem_entries _).2 hrecord) hk record rfl,
    fun h batch hb kv hmem hk record hrecord =>
      h batch hb kv.1 record hk (hrecord ▸ (BTreeMap.mem_entries _).1 hmem)⟩

def landsNoDelivery (a : Committing) (keys : Set RecordKey) : Prop :=
  ∀ k ∈ keys, ∀ record, stagedBy a.writing k = some (some record) →
    record.custody ⊆ (a.disk k).elim ∅ StoredStream.custody

/-- The disk holds no delivery the durable state does not. -/
def DiskHeld (s : Stamped) (k : RecordKey) (r : Option StoredStream) : Prop :=
  ∀ key, k = ⟨.receiver, key⟩ → r.elim ∅ StoredStream.custody ⊆ s.state.tables.held key

lemma Follows.landsNoDelivery {start r : Runtime} {events : List ReplayEvent} {a : Committing}
    (h : Follows events start r a) {keys : RecordKey → Bool} (hkeys : r.AddsNoDelivery keys) :
    landsNoDelivery a { k | keys k = true } := by
  intro k hk record hstaged
  rcases hb : r.writing with _ | b
  · rw [h.notWriting hb] at hstaged
    cases hstaged
  · rw [← (h.writing b hb).1 k] at hstaged
    rw [← h.disk k]
    exact hkeys b hb k record hk hstaged

lemma StoredStream.elim_custody (o : Option StoredStream) : o.elim ∅ StoredStream.custody =
    (o.bind StoredStream.stream).elim ∅ Stream.custody := by
  rcases o with _ | _ | _ <;> rfl

lemma DiskHeld.forward {s : Stamped} {e : PendingCall} (hs : s.state.Good) (he : Staging s e)
    {k : RecordKey} {r : Option StoredStream} (h : DiskHeld s k r) :
    DiskHeld e.after k ((e.staged k).getD r) := by
  rintro key rfl
  rw [he.good.tables.held_eq]
  rcases hstaged : e.staged ⟨.receiver, key⟩ with _ | r'
  · rw [he.unstaged key hstaged, ← hs.tables.held_eq]
    exact h key rfl
  · rw [he.staged key r' hstaged, Option.getD_some, StoredStream.elim_custody]
    cases e.after.state.tables.stream key <;> exact Finset.Subset.refl _

lemma boundLaws (events : List ReplayEvent) :
    ReplayLaws events landsNoDelivery
      (fun s => Replay.custodyHeld s.state.tables ≤ relayCustodyCapacity) (fun _ _ => True)
      (fun _ _ => True) fun _ => DiskHeld where
  mono := fun _ _ _ _ h => h
  inv := by
    intro n s e hs he
    rcases he with ⟨w, he⟩ | he
    · rw [he.state]
      exact w.call.commit_custodyHeld hs.good hs.more
    · rw [he.tables]
      exact hs.more
  new := fun _ _ _ _ _ _ => trivial
  keep := fun _ _ _ _ _ _ _ => trivial
  order := fun _ _ _ _ _ _ _ _ => trivial
  forward := fun n s e k r hs he hr => DiskHeld.forward hs.good (he.staging hs.good) hr
  landed := by
    intro n a keys hcut _ hdisk k key hk
    rw [GroupCommit.landed]
    split
    · rename_i hin
      rcases hstaged : stagedBy a.writing k with _ | _ | record
      · exact hdisk k key hk
      · exact Finset.empty_subset _
      · exact (hcut k hin record hstaged).trans (hdisk k key hk)
    · exact hdisk k key hk
  similar := by
    intro n s t hs hst
    have htables := hst.1.tables
    refine ⟨?_, fun _ _ => trivial, fun k r hr => ?_⟩
    · rw [htables]
      exact hs.more
    · rw [DiskHeld, htables]
      exact hr
  restore := by
    intro n s disk t hs ht hdisk
    have hheld : ∀ key, t.state.tables.held key =
        (disk ⟨.receiver, key⟩).elim ∅ StoredStream.custody := by
      intro key
      rw [ht.good.tables.held_eq, ht.stream, StoredStream.elim_custody]
    refine ⟨(custodyHeld_le fun key => ?_).trans hs.more, fun _ _ => trivial, ?_⟩
    · rw [hheld key]
      exact hdisk _ key rfl
    · rintro k key rfl
      rw [hheld key]

/-! ### Answers -/

/-- A delivery in custody and not spent is answered as in custody. -/
lemma admitRelayed_inCustody (hs : s.Good) {a : Admission} {now : ReplayInstant}
    (hd : a.delivery ∈ s.tables.held a.key) (hnow : now.wallMs < a.spentAtMs) :
    ((ReplayCall.admitRelayed a now).commit s).1 = .ok (.relay .inCustody) := by
  have hnew := tracked_new hs.tables
  obtain ⟨l, hretire, htracked, -, hstreams⟩ :=
    Replay.retireSpent_outcome now.wallMs hnew (.new hs.toBalanced)
  have hrecord : l.state.store.unavailableRecord .receiver a.key = none := by
    rw [ReplayStore.unavailableRecord, htracked.unrestorable.trans hs.restorable]
    rfl
  have havailable : outcome (Replay.refuseUnavailable .receiver a.key) l = (.ok (), l) := by
    rw [Replay.refuseUnavailable, outcome_bind_of_ok (outcome_get _)]
    simp only [hrecord]
    rfl
  have hheld : a.delivery ∈ (l.tables.custody.get? a.key).getD ∅ := by
    rw [hs.tables.held_eq] at hd
    rw [htracked.good.custody_eq, hstreams a.key]
    rcases hv : s.tables.stream a.key with _ | v
    · rw [hv] at hd
      cases hd
    · rw [hv, Option.elim_some] at hd
      have hcharge := (hs.tables.streams _ v hv).dominated _ hd
      rw [show (Ledger.new s).tables.stream a.key = some v from hv, Option.bind_some,
        Stream.retired, if_neg (Nat.not_le.2 (hnow.trans_le hcharge)), Option.elim_some]
      refine Finset.mem_filter.2 ⟨hd, ?_⟩
      rw [RelayDelivery.isSpentAt, decide_eq_false_iff_not]
      exact Nat.not_le.2 hnow
  have hbody : outcome (Replay.admitRelayedAt a now) (.new s) = (.ok .inCustody, l) := by
    rw [Replay.admitRelayedAt, outcome_bind_of_ok hretire, outcome_bind_of_ok havailable,
      outcome_bind_of_ok (outcome_get _)]
    simp only [if_pos hheld]
    rfl
  have hcall : outcome (ReplayCall.admitRelayed a now).body (.new s) =
      (.ok (.relay .inCustody), l) := by
    rw [ReplayCall.body, outcome_bind_of_ok hbody]
    rfl
  rw [ReplayCall.commit, hcall]

lemma releaseRelayed_released (hs : s.Good) (key : StreamKey) (d : RelayDelivery) :
    ((ReplayCall.releaseRelayed key d).commit s).1 = .ok .released := by
  have hnew := tracked_new hs.tables
  have hbody : ∃ l, outcome (Replay.releaseRelayed key d) (.new s) = (.ok (), l) := by
    rw [Replay.releaseRelayed, outcome_bind_of_ok (outcome_get _)]
    split
    · exact ⟨_, rfl⟩
    · rename_i custody hcustody
      split
      · exact ⟨_, rfl⟩
      · have hsome := (hs.tables.custody key custody hcustody).2
        rw [← hs.tables.stream_isSome, Option.isSome_iff_exists] at hsome
        obtain ⟨v, hv⟩ := hsome
        have hK : v.custody = custody := by
          rw [(ReplayTables.stream_eq_some.1 hv).2.2, show s.tables.custody.get? key = some custody
            from hcustody, Option.getD_some]
        obtain ⟨l, hout, -⟩ := Replay.rewriteCustody_stage hnew.good hv (K := custody.erase d)
          fun d' hd' => (hs.tables.streams key v hv).dominated d' (hK ▸ Finset.mem_of_mem_erase hd')
        exact ⟨l, hout⟩
  obtain ⟨l, hout⟩ := hbody
  have hcall : outcome (ReplayCall.releaseRelayed key d).body (.new s) = (.ok .released, l) := by
    rw [ReplayCall.body, outcome_bind_of_ok hout]
    rfl
  rw [ReplayCall.commit, hcall]

/-- A delivery leaves custody only by its release or once it is spent. -/
lemma ReplayCall.commit_held (call : ReplayCall) (hs : s.Good) {key : StreamKey} {d : RelayDelivery}
    (hd : d ∈ s.tables.held key) : d ∈ (call.commit s).2.tables.held key ∨
      (∃ reading, call.readingMs = some reading ∧ d.spentAtMs ≤ reading) ∨
      call = .releaseRelayed key d := by
  rcases hout : (call.commit s).1 with e | answer
  · rw [(call.commit_error hs hout).2]
    exact Or.inl hd
  · obtain ⟨hcommitted, hstep, -⟩ := call.commit_ok hs hout
    have hgood : (call.commit s).2.tables.Good := hcommitted.good.tables
    rw [hs.tables.held_eq] at hd
    rw [hgood.held_eq]
    rcases hv : s.tables.stream key with _ | v
    · rw [hv] at hd
      cases hd
    · rw [hv, Option.elim_some] at hd
      rcases hstep.next hv with ⟨reading, hread, hspent⟩ | ⟨v', hv', hext⟩
      · exact Or.inr (Or.inl ⟨reading, hread,
          ((hs.tables.streams key v hv).dominated d hd).trans hspent⟩)
      · rw [hv', Option.elim_some]
        exact hext.custody d hd

/-- Retiring what is spent never fails, and no stream that holds an unspent delivery is
forgotten. -/
lemma retireSpent_keeps (hs : s.Good) (nowMs : ℕ) :
    ∃ l, outcome (Replay.retireSpent nowMs) (.new s) = (.ok (), l) ∧
      ∀ key, ∀ d ∈ s.tables.held key, nowMs < d.spentAtMs →
        d ∈ l.tables.held key ∧ (l.tables.receiver.get? key).isSome = true := by
  obtain ⟨l, hretire, htracked, -, hstreams⟩ :=
    Replay.retireSpent_outcome nowMs (tracked_new hs.tables) (.new hs.toBalanced)
  refine ⟨l, hretire, fun key d hd hnow => ?_⟩
  rw [hs.tables.held_eq] at hd
  rcases hv : s.tables.stream key with _ | v
  · rw [hv] at hd
    cases hd
  · rw [hv, Option.elim_some] at hd
    have hcharge := (hs.tables.streams key v hv).dominated d hd
    have hkept : l.tables.stream key = some (v.expire nowMs) := by
      rw [hstreams key, show (Ledger.new s).tables.stream key = some v from hv, Option.bind_some,
        Stream.retired, if_neg (Nat.not_le.2 (hnow.trans_le hcharge))]
    refine ⟨?_, ?_⟩
    · rw [htracked.good.held_eq, hkept, Option.elim_some]
      refine Finset.mem_filter.2 ⟨hd, ?_⟩
      rw [RelayDelivery.isSpentAt, decide_eq_false_iff_not]
      exact Nat.not_le.2 hnow
    · rw [← htracked.good.stream_isSome, hkept]
      rfl

/-- Relay custody in every state a run reaches. A stream with custody has a window, and a charge
that outlasts each of its deliveries, so that retiring and releasing never fail and forget nothing
unspent; a transition takes a delivery out of custody only as its release or once its reading has
reached the instant it is spent; what was answered as admitted stays in custody, and is answered as
in custody, until such a reading or release; and where no batch that fails or is cut by a crash
lands a delivery the disk did not hold, custody stays within its bound. -/
theorem relay_custody (config : OriginQuotaConfig) (shares : Shares) (events : List ReplayEvent) :
    let start := Runtime.start config shares
    let r := start.run events
    (∀ key K, r.state.tables.custody.get? key = some K →
      ∃ window charge, r.state.tables.receiver.get? key = some window ∧
        r.state.tables.charges.get? key = some charge ∧ ∀ d ∈ K, d.spentAtMs ≤ charge.spentAtMs) ∧
    (∀ nowMs, ∃ l, outcome (Replay.retireSpent nowMs) (.new r.state) = (.ok (), l) ∧
      ∀ key, ∀ d ∈ r.state.tables.held key, nowMs < d.spentAtMs →
        d ∈ l.tables.held key ∧ (l.tables.receiver.get? key).isSome = true) ∧
    (∀ key d, ((ReplayCall.releaseRelayed key d).commit r.state).1 = .ok .released) ∧
    (∀ (call : ReplayCall) key, ∀ d ∈ r.state.tables.held key,
      d ∈ (call.commit r.state).2.tables.held key ∨
        (∃ reading, call.readingMs = some reading ∧ d.spentAtMs ≤ reading) ∨
        call = .releaseRelayed key d) ∧
    (∀ x ∈ r.returned, ∀ a now, x.waiter.call = .admitRelayed a now →
      x.result = .ok (.relay .admitted) →
      ReadBy events events.length a.spentAtMs ∨
        ReleasedBy events events.length a.key a.delivery ∨
        a.delivery ∈ r.state.tables.held a.key ∧
          ∀ b now', b.key = a.key → b.delivery = a.delivery → now'.wallMs < b.spentAtMs →
            ((ReplayCall.admitRelayed b now').commit r.state).1 = .ok (.relay .inCustody)) ∧
    ((∀ m keys, (hm : m < events.length) → events[m].landing = some keys →
        (start.after events m).AddsNoDelivery keys) →
      Replay.custodyHeld r.state.tables ≤ relayCustodyCapacity) := by
  intro start r
  obtain ⟨a, hfollows, hsound⟩ := (historyLaws events).run config shares trivial
    (fun k key v _ hv => (by cases hv)) (fun _ _ _ _ _ _ => trivial) le_rfl
  have hrun : start.after events events.length = r := by
    rw [Runtime.after, List.take_length]
  rw [hrun] at hfollows
  have hgood : r.state.Good := by
    rw [← hfollows.tip, ← tip_append]
    exact (Sound.tip_inv (historyLaws events) hsound).good
  refine ⟨fun key K hK => ?_, fun nowMs => retireSpent_keeps hgood nowMs,
    releaseRelayed_released hgood, fun call key d hd => call.commit_held hgood hd,
    fun x hx b now hcall hresult => ?_, fun hcut => ?_⟩
  · have hsome := (hgood.tables.custody key K hK).2
    rw [← hgood.tables.stream_isSome, Option.isSome_iff_exists] at hsome
    obtain ⟨v, hv⟩ := hsome
    obtain ⟨hwindow, hcharge, hcustody⟩ := ReplayTables.stream_eq_some.1 hv
    refine ⟨v.window, v.charge, hwindow, hcharge, fun d hd => ?_⟩
    refine (hgood.tables.streams key v hv).dominated d ?_
    rw [hcustody, hK, Option.getD_some]
    exact hd
  · have hdurable : x.durable = true ∧ x.waiter.outcome = .ok (.relay .admitted) := by
      rw [Returned.result] at hresult
      split at hresult
      · exact ⟨by assumption, hresult⟩
      · cases hresult
    have hmem : x.waiter ∈ a.released := by
      rw [hfollows.released]
      exact List.mem_map_of_mem (List.mem_filter.2 ⟨hx, hdurable.1⟩)
    have hlinked := hsound.linked.strengthen ((historyLaws events).laws events.length).inv hsound.inv
    have hkept : Kept events b.key b.delivery (tip a.base (a.writing ++ a.opened)) :=
      hlinked.keep (fun s e he hk => hk.keep he.2 he.1.good he.2.le_steps)
        ((hsound.facts _ hmem).admitted b now hcall hdurable.2)
    have hsteps := (Sound.tip_inv (historyLaws events) hsound).steps
    rcases hkept with hread | hreleased | ⟨v, hv, hd⟩
    · exact Or.inl (hread.mono hsteps)
    · exact Or.inr (Or.inl (hreleased.mono hsteps))
    · have hheld : b.delivery ∈ r.state.tables.held b.key := by
        rw [tip_append, hfollows.tip] at hv
        rw [hgood.tables.held_eq, hv]
        exact hd
      refine Or.inr (Or.inr ⟨hheld, fun c now' hkey hdelivery hnow => ?_⟩)
      refine admitRelayed_inCustody hgood ?_ hnow
      rw [hkey, hdelivery]
      exact hheld
  · obtain ⟨m, hm, hbound⟩ := (boundLaws events).run config shares (Nat.zero_le _)
      (fun k key _ => Finset.empty_subset _)
      (fun m keys hm hkeys a ha => ha.landsNoDelivery (hcut m keys hm hkeys)) le_rfl
    rw [hrun] at hm
    have htip := (Sound.tip_inv (boundLaws events) hbound).more
    rw [tip_append, hm.tip] at htip
    exact htip

/-- A relay delivery of an application stream, offered out of an inbox. -/
def offeredDelivery (origin : Did) (sequence : ℕ) : ReplayEvent :=
  .call (.admitRelayed ⟨⟨0, origin, 0, .application⟩, sequence, 1, ⟨.application, .enforced⟩, 0,
    .inbox, 900000⟩ ⟨sequence * 10000000000, 1000⟩)

/-- A batch releases a delivery of one stream and admits one of another; it fails, the release
reached the disk, and the node restarts. -/
def failedRun : List ReplayEvent :=
  [offeredDelivery 0 0, offeredDelivery 0 1, .take, .settle true fun _ => true,
    .call (.releaseRelayed ⟨0, 0, 0, .application⟩ ⟨0, 1, 900000⟩), offeredDelivery 1 0, .take,
    .settle false fun k => k.key.originAccount = 0, .crash fun _ => false]

theorem relay_custody_failed :
    let r := (Runtime.start .default receiverStreamShares).run failedRun
    r.returned.map Returned.durable = [true, true, false, false] ∧
      Replay.custodyHeld r.state.tables = 1 ∧
      Replay.custodyHeld r.state.tables ≤ relayCustodyCapacity := by
  have hlands : ∀ m : Fin failedRun.length, ∀ keys ∈ failedRun[m].landing,
      ((Runtime.start .default receiverStreamShares).after failedRun m).AddsNoDelivery keys := by
    decide +kernel
  refine ⟨by decide +kernel, by decide +kernel, ?_⟩
  exact (relay_custody .default receiverStreamShares failedRun).2.2.2.2.2
    fun m keys hm hkeys => hlands ⟨m, hm⟩ keys hkeys

/-! ### A batch that failed and landed -/

/-- One delivery short of the bound, a batch fails and its record lands; another delivery fills
custody, and the node restarts. -/
def landedRun : List ReplayEvent :=
  (List.range 63).map (offeredDelivery 0) ++ [.take, .settle true fun _ => true,
    offeredDelivery 1 0, .take, .settle false fun _ => true,
    offeredDelivery 0 63, .take, .settle true fun _ => true, .crash fun _ => false]

/-- Custody holds one delivery more than its bound. -/
theorem custody_past_bound : relayCustodyCapacity < Replay.custodyHeld
    ((Runtime.start .default receiverStreamShares).run landedRun).state.tables := by
  decide +kernel

end Rings
