import Rings.ReplayUndo

/-!
Receiver streams through transitions.

A receiver stream is its window, its custody and its charge together, as its record holds them.
A transition expires what is spent, forgets the streams that are spent, and enters at most one
transaction; whatever stream it changes it stages the record of, and its charge stays beyond every
delivery in its custody.
-/

namespace Rings

open Effect

/-! ### Streams -/

@[ext]
structure Stream where
  window : SequenceState
  custody : RelayCustody
  charge : StreamCharge

/-- The window restores, and the charge outlasts every delivery in custody. -/
structure Stream.Lasting (v : Stream) : Prop where
  valid : v.window.isValid = true
  dominated : ∀ d ∈ v.custody, d.spentAtMs ≤ v.charge.spentAtMs

def Stream.record (key : StreamKey) (v : Stream) : StoredStream :=
  .receiver key v.window v.custody v.charge

namespace ReplayTables

def stream (t : ReplayTables) (key : StreamKey) : Option Stream :=
  (t.receiver.get? key).bind fun window =>
    (t.charges.get? key).map fun charge => ⟨window, (t.custody.get? key).getD ∅, charge⟩

/-- What the tables keep to between transitions. -/
structure Good (t : ReplayTables) : Prop where
  charged : ∀ key, (t.receiver.get? key).isSome = (t.charges.get? key).isSome
  custody : ∀ key K, t.custody.get? key = some K → K ≠ ∅ ∧ (t.receiver.get? key).isSome = true
  streams : ∀ key v, t.stream key = some v → v.Lasting
  leases : ∀ key lease, t.sender.get? key = some lease → lease.issued ≤ lease.leased

variable {t u : ReplayTables} {key j : StreamKey} {v : Stream}

lemma stream_eq_some : t.stream key = some v ↔ t.receiver.get? key = some v.window ∧
    t.charges.get? key = some v.charge ∧ v.custody = (t.custody.get? key).getD ∅ := by
  rw [stream, Option.bind_eq_some_iff]
  constructor
  · rintro ⟨w, hw, hc⟩
    obtain ⟨c, hc', rfl⟩ := Option.map_eq_some_iff.1 hc
    exact ⟨hw, hc', rfl⟩
  · rintro ⟨hw, hc, hk⟩
    exact ⟨_, hw, Option.map_eq_some_iff.2 ⟨_, hc, Stream.ext rfl hk.symm rfl⟩⟩

lemma stream_congr (hr : t.receiver.get? j = u.receiver.get? j)
    (hc : t.charges.get? j = u.charges.get? j) (hk : t.custody.get? j = u.custody.get? j) :
    t.stream j = u.stream j := by
  rw [stream, stream, hr, hc, hk]

lemma receiverRecord_eq (h : t.stream key = some v) : t.receiverRecord key = .ok (v.record key) := by
  obtain ⟨hw, hc, hk⟩ := stream_eq_some.1 h
  rw [receiverRecord, hw, hc, ← hk]
  rfl

namespace Good

variable (h : t.Good)
include h

lemma stream_isSome : (t.stream key).isSome = (t.receiver.get? key).isSome := by
  have := h.charged key
  rw [stream]
  cases hw : t.receiver.get? key <;> cases hc : t.charges.get? key <;> simp_all

lemma receiver_eq : t.receiver.get? key = (t.stream key).map Stream.window := by
  rcases hs : t.stream key with _ | v
  · have : (t.stream key).isSome = (t.receiver.get? key).isSome := h.stream_isSome
    rw [hs] at this
    simpa using this.symm
  · exact (stream_eq_some.1 hs).1

lemma charges_eq : t.charges.get? key = (t.stream key).map Stream.charge := by
  rcases hs : t.stream key with _ | v
  · have hsome : (t.stream key).isSome = (t.receiver.get? key).isSome := h.stream_isSome
    rw [hs, h.charged key] at hsome
    simpa using hsome.symm
  · exact (stream_eq_some.1 hs).2.1

/-- The deliveries a stream holds in custody. -/
lemma custody_eq : (t.custody.get? key).getD ∅ = (t.stream key).elim ∅ Stream.custody := by
  rcases hs : t.stream key with _ | v
  · rcases hk : t.custody.get? key with _ | K
    · rfl
    · have := (h.custody key K hk).2
      rw [← h.stream_isSome, hs] at this
      cases this
  · exact (stream_eq_some.1 hs).2.2.symm

lemma custody_eq_none (hs : ∀ v, t.stream key = some v → v.custody = ∅) :
    t.custody.get? key = none := by
  rcases hk : t.custody.get? key with _ | K
  · rfl
  · obtain ⟨hne, -⟩ := h.custody key K hk
    have hK : (t.custody.get? key).getD ∅ = (t.stream key).elim ∅ Stream.custody := h.custody_eq
    rw [hk, Option.getD_some] at hK
    rcases hv : t.stream key with _ | v
    · rw [hv] at hK
      exact absurd hK hne
    · rw [hv, Option.elim_some, hs v hv] at hK
      exact absurd hK hne

end Good

/-! ### Spent streams -/

lemma mem_takeWhile_of_ascending {α : Type*} [LinearOrder α] {V : Type*} {l : List (α × V)}
    (hl : l.Pairwise fun p q => p.1 < q.1) {p : α → Bool}
    (hp : ∀ a b, a < b → p b = true → p a = true) {e : α × V} :
    e ∈ l.takeWhile (fun e => p e.1) ↔ e ∈ l ∧ p e.1 = true := by
  induction l with
  | nil => simp
  | cons x l ih =>
    have hl' := List.pairwise_cons.1 hl
    rw [List.takeWhile_cons]
    rcases hx : p x.1 with _ | _
    · simp only [Bool.false_eq_true, if_false, List.not_mem_nil, false_iff, not_and,
        Bool.not_eq_true]
      intro he
      rcases List.mem_cons.1 he with rfl | he
      · exact hx
      · -- past the first that fails, all fail
        rcases hpe : p e.1 with _ | _
        · rfl
        · rw [hp _ _ (hl'.1 e he) hpe] at hx
          cases hx
    · simp only [if_true, List.mem_cons, ih hl'.2]
      constructor
      · rintro (rfl | ⟨he, hpe⟩)
        · exact ⟨Or.inl rfl, hx⟩
        · exact ⟨Or.inr he, hpe⟩
      · rintro ⟨rfl | he, hpe⟩
        · exact Or.inl rfl
        · exact Or.inr ⟨he, hpe⟩

lemma Indexed.mem_spentStreams (h : t.Indexed) {nowMs : ℕ} : key ∈ t.spentStreams nowMs ↔
    ∃ c, t.charges.get? key = some c ∧ c.spentAtMs ≤ nowMs := by
  have hdown : ∀ a b : ℕ ×ₗ StreamKey, a < b → decide ((ofLex b).1 ≤ nowMs) = true →
      decide ((ofLex a).1 ≤ nowMs) = true := by
    intro a b hab hb
    rw [decide_eq_true_eq] at hb ⊢
    exact (Prod.Lex.monotone_fst _ _ hab.le).trans hb
  rw [spentStreams, List.mem_map]
  constructor
  · rintro ⟨e, he, rfl⟩
    obtain ⟨hmem, hle⟩ := (mem_takeWhile_of_ascending t.spent.ascending hdown).1 he
    have hsome := (h (ofLex e.1).1 (ofLex e.1).2).1 (by
      rw [show toLex ((ofLex e.1).1, (ofLex e.1).2) = e.1 from rfl,
        t.spent.mem_entries.1 (show (e.1, e.2) ∈ _ from hmem)]
      rfl)
    obtain ⟨c, hc, hx⟩ := Option.map_eq_some_iff.1 hsome
    exact ⟨c, hc, hx ▸ of_decide_eq_true hle⟩
  · rintro ⟨c, hc, hle⟩
    have hsome := (h c.spentAtMs key).2 (by rw [hc]; rfl)
    obtain ⟨u, hu⟩ := Option.isSome_iff_exists.1 hsome
    refine ⟨(toLex (c.spentAtMs, key), u), ?_, rfl⟩
    exact (mem_takeWhile_of_ascending t.spent.ascending hdown).2
      ⟨t.spent.mem_entries.2 hu, decide_eq_true hle⟩

/-- A change under one key keeps the tables good when the stream it leaves is. -/
lemma Good.of_change (h : t.Good) (hother : ∀ j, j ≠ key → u.receiver.get? j = t.receiver.get? j ∧
      u.charges.get? j = t.charges.get? j ∧ u.custody.get? j = t.custody.get? j)
    (hsender : u.sender = t.sender)
    (hkey : (u.receiver.get? key).isSome = (u.charges.get? key).isSome)
    (hcustody : ∀ K, u.custody.get? key = some K → K ≠ ∅ ∧ (u.receiver.get? key).isSome = true)
    (hlasting : ∀ v, u.stream key = some v → v.Lasting) : u.Good where
  charged := by
    intro j
    by_cases hj : j = key
    · exact hj ▸ hkey
    · rw [(hother j hj).1, (hother j hj).2.1]
      exact h.charged j
  custody := by
    intro j K hK
    by_cases hj : j = key
    · subst hj
      exact hcustody K hK
    · rw [(hother j hj).1]
      exact h.custody j K ((hother j hj).2.2 ▸ hK)
  streams := by
    intro j v hv
    by_cases hj : j = key
    · subst hj
      exact hlasting v hv
    · rw [stream_congr (hother j hj).1 (hother j hj).2.1 (hother j hj).2.2] at hv
      exact h.streams j v hv
  leases := by
    rw [hsender]
    exact h.leases

end ReplayTables

/-! ### Stages of a transition -/

@[simp] lemma Ledger.write_tables (l : Ledger) (record : StoredStream) :
    (l.write record).tables = l.tables := rfl

/-- One stage sets one stream, and stages its record or its removal. -/
structure Stage (key : StreamKey) (v : Option Stream) (l l' : Ledger) : Prop where
  self : l'.tables.stream key = v
  other : ∀ j, j ≠ key → l'.tables.stream j = l.tables.stream j
  sender : l'.tables.sender = l.tables.sender
  records : l'.records = l.records.insert ⟨.receiver, key⟩ (v.map (Stream.record key))
  unrestorable : l'.state.store.unrestorable = l.state.store.unrestorable
  good : l'.tables.Good

namespace Replay

variable {l : Ledger} {key : StreamKey} {v : Stream}

lemma rewriteCustody_stage (h : l.tables.Good) (hv : l.tables.stream key = some v)
    {K : RelayCustody} (hK : ∀ d ∈ K, d.spentAtMs ≤ v.charge.spentAtMs) :
    ∃ l', outcome (rewriteCustody key K) l = (.ok (), l') ∧
      Stage key (some { v with custody := K }) l l' := by
  obtain ⟨hw, hc, -⟩ := ReplayTables.stream_eq_some.1 hv
  have hcustody : ∀ j, (l.setCustody key K).tables.custody.get? j =
      if j = key then (if K = ∅ then none else some K) else l.tables.custody.get? j := fun j =>
    BTreeMap.get?_replace l.tables.custody key j _
  have hself : (l.setCustody key K).tables.stream key = some { v with custody := K } := by
    refine ReplayTables.stream_eq_some.2 ⟨hw, hc, ?_⟩
    rw [hcustody, if_pos rfl]
    split
    · rename_i hempty
      exact hempty
    · rfl
  have hother : ∀ j, j ≠ key → (l.setCustody key K).tables.custody.get? j =
      l.tables.custody.get? j := fun j hj => (hcustody j).trans (if_neg hj)
  refine ⟨(l.setCustody key K).write (Stream.record key { v with custody := K }), ?_,
    ⟨hself, fun j hj => ?_, rfl, rfl, rfl, ?_⟩⟩
  · have hrecord := ReplayTables.receiverRecord_eq hself
    rw [rewriteCustody, outcome_bind_of_ok (outcome_modify _ _), writeReceiver,
      outcome_bind_of_ok (outcome_get _)]
    simp only [hrecord]
    rfl
  · exact ReplayTables.stream_congr rfl rfl (hother j hj)
  · refine h.of_change (fun j hj => ⟨rfl, rfl, hother j hj⟩) rfl (h.charged key) (fun K' hK' => ?_)
      fun v' hv' => ?_
    · have hK'' := (hcustody key).symm.trans hK'
      rw [if_pos rfl] at hK''
      split at hK''
      · cases hK''
      · rename_i hne
        obtain rfl := Option.some.inj hK''
        exact ⟨hne, Option.isSome_iff_exists.2 ⟨_, hw⟩⟩
    · obtain rfl := Option.some.inj (hself.symm.trans hv')
      exact ⟨(h.streams key v hv).valid, hK⟩

lemma retire_stage (h : l.tables.Good) (hcustody : l.tables.custody.get? key = none) :
    Stage key none l (l.retire key) := by
  have hreceiver : ∀ j, (l.retire key).tables.receiver.get? j =
      if j = key then none else l.tables.receiver.get? j := fun j =>
    BTreeMap.get?_replace l.tables.receiver key j none
  have hcharges : ∀ j, (l.retire key).tables.charges.get? j =
      if j = key then none else l.tables.charges.get? j := fun j =>
    BTreeMap.get?_replace l.tables.charges key j none
  have hself : (l.retire key).tables.stream key = none := by
    rw [ReplayTables.stream, hreceiver, if_pos rfl]
    rfl
  refine ⟨hself, fun j hj => ?_, rfl, rfl, rfl, ?_⟩
  · exact ReplayTables.stream_congr ((hreceiver j).trans (if_neg hj))
      ((hcharges j).trans (if_neg hj)) rfl
  · refine h.of_change (fun j hj => ⟨(hreceiver j).trans (if_neg hj),
      (hcharges j).trans (if_neg hj), rfl⟩) rfl ?_ (fun K hK => ?_) fun v hv => ?_
    · rw [hreceiver, hcharges, if_pos rfl, if_pos rfl]
      rfl
    · exact absurd (hcustody.symm.trans hK) (by simp)
    · rw [hself] at hv
      cases hv

def entered (held : Option Stream) (admission : Admission) (next : SequenceState)
    (relayed : Option RelayDelivery) : Stream where
  window := next
  custody := relayed.elim (held.elim ∅ Stream.custody) fun d =>
    insert d (held.elim ∅ Stream.custody)
  charge := chargeAfter (held.map Stream.charge) admission

lemma le_chargeAfter (held : Option StreamCharge) (admission : Admission) :
    admission.spentAtMs ≤ (chargeAfter held admission).spentAtMs ∧
      ∀ c, held = some c → c.spentAtMs ≤ (chargeAfter held admission).spentAtMs := by
  cases held with
  | none => exact ⟨le_rfl, fun _ hc => (by cases hc)⟩
  | some c =>
    refine ⟨le_max_right _ _, fun c' hc => ?_⟩
    cases hc
    exact le_max_left _ _

def enter (admission : Admission) (next : SequenceState) (relayed : Option RelayDelivery)
    (l : Ledger) : Ledger :=
  enterCharge admission (enterCustody admission.key relayed (l.setReceiver admission.key next))

lemma enterCharge_frame (admission : Admission) (l : Ledger) :
    (enterCharge admission l).tables.receiver = l.tables.receiver ∧
      (enterCharge admission l).tables.custody = l.tables.custody ∧
      (enterCharge admission l).tables.sender = l.tables.sender ∧
      (enterCharge admission l).records = l.records ∧
      (enterCharge admission l).state.store.unrestorable = l.state.store.unrestorable := by
  rw [enterCharge]
  split <;> exact ⟨rfl, rfl, rfl, rfl, rfl⟩

lemma get?_enterCharge (admission : Admission) (l : Ledger) (j : StreamKey) :
    (enterCharge admission l).tables.charges.get? j =
      if j = admission.key then some (chargeAfter (l.tables.charges.get? admission.key) admission)
      else l.tables.charges.get? j := by
  rw [enterCharge]
  split
  · exact BTreeMap.get?_replace l.tables.charges admission.key j _
  · rename_i hsame
    split
    · rename_i hj
      rw [hj]
      exact not_not.1 hsame
    · rfl

lemma enterCustody_frame (key : StreamKey) (relayed : Option RelayDelivery) (l : Ledger) :
    (enterCustody key relayed l).tables.receiver = l.tables.receiver ∧
      (enterCustody key relayed l).tables.charges = l.tables.charges ∧
      (enterCustody key relayed l).tables.sender = l.tables.sender ∧
      (enterCustody key relayed l).records = l.records ∧
      (enterCustody key relayed l).state.store.unrestorable = l.state.store.unrestorable := by
  cases relayed <;> exact ⟨rfl, rfl, rfl, rfl, rfl⟩

lemma get?_enterCustody (key : StreamKey) (relayed : Option RelayDelivery) (l : Ledger)
    (j : StreamKey) : (enterCustody key relayed l).tables.custody.get? j =
      if j = key then relayed.elim (l.tables.custody.get? key) fun d =>
        some (insert d ((l.tables.custody.get? key).getD ∅))
      else l.tables.custody.get? j := by
  cases relayed with
  | none =>
    rw [Option.elim_none]
    split
    · rename_i hj
      rw [hj]
      rfl
    · rfl
  | some d =>
    refine (BTreeMap.get?_replace l.tables.custody key j _).trans ?_
    rw [if_neg (Finset.insert_ne_empty _ _)]
    rfl

lemma enter_stage (h : l.tables.Good) (admission : Admission) {next : SequenceState}
    (hnext : next.isValid = true) {relayed : Option RelayDelivery}
    (hrelayed : ∀ d, relayed = some d → d.spentAtMs ≤ admission.spentAtMs) :
    ∃ l', outcome (writeReceiver admission.key) (enter admission next relayed l) = (.ok (), l') ∧
      Stage admission.key
        (some (entered (l.tables.stream admission.key) admission next relayed)) l l' := by
  obtain ⟨hr3, hk3, hs3, hrec3, hu3⟩ := enterCharge_frame admission
    (enterCustody admission.key relayed (l.setReceiver admission.key next))
  obtain ⟨hr2, hc2, hs2, hrec2, hu2⟩ := enterCustody_frame admission.key relayed
    (l.setReceiver admission.key next)
  have hreceiver : ∀ j, (enter admission next relayed l).tables.receiver.get? j =
      if j = admission.key then some next else l.tables.receiver.get? j := by
    intro j
    rw [enter, hr3, hr2]
    exact BTreeMap.get?_replace l.tables.receiver admission.key j (some next)
  have hcharges : ∀ j, (enter admission next relayed l).tables.charges.get? j =
      if j = admission.key then
        some (chargeAfter ((l.tables.stream admission.key).map Stream.charge) admission)
      else l.tables.charges.get? j := by
    intro j
    rw [enter, get?_enterCharge, hc2, ← h.charges_eq]
    rfl
  have hcustody : ∀ j, (enter admission next relayed l).tables.custody.get? j =
      if j = admission.key then relayed.elim (l.tables.custody.get? admission.key) fun d =>
        some (insert d ((l.tables.custody.get? admission.key).getD ∅))
      else l.tables.custody.get? j := by
    intro j
    rw [enter, hk3, get?_enterCustody]
    rfl
  have hself : (enter admission next relayed l).tables.stream admission.key =
      some (entered (l.tables.stream admission.key) admission next relayed) := by
    refine ReplayTables.stream_eq_some.2
      ⟨(hreceiver _).trans (if_pos rfl), (hcharges _).trans (if_pos rfl), ?_⟩
    rw [hcustody, if_pos rfl, entered, ← h.custody_eq]
    cases relayed <;> rfl
  have hother : ∀ j, j ≠ admission.key →
      (enter admission next relayed l).tables.receiver.get? j = l.tables.receiver.get? j ∧
      (enter admission next relayed l).tables.charges.get? j = l.tables.charges.get? j ∧
      (enter admission next relayed l).tables.custody.get? j = l.tables.custody.get? j :=
    fun j hj => ⟨(hreceiver j).trans (if_neg hj), (hcharges j).trans (if_neg hj),
      (hcustody j).trans (if_neg hj)⟩
  refine ⟨(enter admission next relayed l).write (Stream.record admission.key
    (entered (l.tables.stream admission.key) admission next relayed)), ?_,
    hself, fun j hj => ?_, hs3.trans hs2, ?_, hu3.trans hu2, ?_⟩
  · rw [writeReceiver, outcome_bind_of_ok (outcome_get _)]
    simp only [ReplayTables.receiverRecord_eq hself]
    rfl
  · obtain ⟨hr, hc, hk⟩ := hother j hj
    exact ReplayTables.stream_congr hr hc hk
  · exact congrArg (BTreeMap.insert · _ _) (hrec3.trans hrec2)
  · refine h.of_change hother (hs3.trans hs2) ?_ (fun K hK => ?_) fun v hv => ?_
    · rw [Ledger.write_tables, hreceiver, hcharges, if_pos rfl, if_pos rfl]
      rfl
    · refine ⟨?_, Option.isSome_iff_exists.2 ⟨_, (hreceiver _).trans (if_pos rfl)⟩⟩
      have hK' := (hcustody _).symm.trans hK
      rw [if_pos rfl] at hK'
      cases relayed with
      | none => exact (h.custody _ K hK').1
      | some d =>
        obtain rfl := Option.some.inj hK'
        exact Finset.insert_ne_empty _ _
    · obtain rfl := Option.some.inj (hself.symm.trans hv)
      refine ⟨hnext, fun d hd => ?_⟩
      obtain ⟨hnew, hold⟩ := le_chargeAfter ((l.tables.stream admission.key).map Stream.charge)
        admission
      have hheld : ∀ d ∈ (l.tables.stream admission.key).elim ∅ Stream.custody,
          d.spentAtMs ≤ (chargeAfter ((l.tables.stream admission.key).map Stream.charge)
            admission).spentAtMs := by
        intro d hd
        rcases hv : l.tables.stream admission.key with _ | v
        · rw [hv] at hd
          cases hd
        · rw [hv] at hd hold
          exact ((h.streams _ v hv).dominated d hd).trans (hold _ rfl)
      cases relayed with
      | none => exact hheld d hd
      | some d' =>
        rcases Finset.mem_insert.1 hd with rfl | hd
        · exact (hrelayed d rfl).trans hnew
        · exact hheld d hd

end Replay

/-! ### What a transition leaves and stages -/

/-- What a receiver-side transition that began at `s` has changed so far it has staged. -/
structure Tracked (s : Speculative) (l : Ledger) : Prop where
  good : l.tables.Good
  unrestorable : l.state.store.unrestorable = s.store.unrestorable
  sender : l.tables.sender = s.tables.sender
  senderRecords : ∀ key, l.records.get? ⟨.sender, key⟩ = none
  unstaged : ∀ key, l.records.get? ⟨.receiver, key⟩ = none →
    l.tables.stream key = s.tables.stream key
  staged : ∀ key r, l.records.get? ⟨.receiver, key⟩ = some r →
    r = (l.tables.stream key).map (Stream.record key)

section Tracked

variable {s : Speculative} {l l' : Ledger} {key : StreamKey}

lemma tracked_new (h : s.tables.Good) : Tracked s (.new s) :=
  ⟨h, rfl, rfl, fun _ => rfl, fun _ _ => rfl, fun _ _ hr => (by cases hr)⟩

lemma Tracked.stage (h : Tracked s l) {v : Option Stream} (hstage : Stage key v l l') :
    Tracked s l' where
  good := hstage.good
  unrestorable := hstage.unrestorable.trans h.unrestorable
  sender := hstage.sender.trans h.sender
  senderRecords := by
    intro j
    rw [hstage.records, BTreeMap.get?_insert, if_neg (fun heq => by cases heq)]
    exact h.senderRecords j
  unstaged := by
    intro j hj
    rw [hstage.records, BTreeMap.get?_insert] at hj
    split at hj
    · cases hj
    · rename_i hne
      rw [hstage.other j fun heq => hne (by rw [heq])]
      exact h.unstaged j hj
  staged := by
    intro j r hj
    rw [hstage.records, BTreeMap.get?_insert] at hj
    split at hj
    · rename_i heq
      obtain rfl : j = key := congrArg RecordKey.key heq
      rw [hstage.self]
      exact (Option.some.inj hj).symm
    · rename_i hne
      rw [hstage.other j fun heq => hne (by rw [heq])]
      exact h.staged j r hj

/-- Only the quotas and the log of a ledger changed. -/
lemma Tracked.of_store (h : Tracked s l) (hs : l'.state.store = l.state.store)
    (hr : l'.records = l.records) : Tracked s l' := by
  have ht : l'.tables = l.tables := congrArg ReplayStore.tables hs
  refine ⟨?_, ?_, ?_, ?_, ?_, ?_⟩
  · rw [ht]
    exact h.good
  · rw [hs]
    exact h.unrestorable
  · rw [ht]
    exact h.sender
  · rw [hr]
    exact h.senderRecords
  · rw [hr, ht]
    exact h.unstaged
  · rw [hr, ht]
    exact h.staged

end Tracked

def Stream.expire (nowMs : ℕ) (v : Stream) : Stream :=
  { v with custody := v.custody.filter fun d => d.isSpentAt nowMs = false }

/-- A stream once what is spent at `nowMs` is retired. -/
def Stream.retired (nowMs : ℕ) (v : Stream) : Option Stream :=
  if v.charge.spentAtMs ≤ nowMs then none else some (v.expire nowMs)

namespace Replay

variable {s : Speculative} {l l' : Ledger}

/-- Expiring the custody of some streams touches no other. -/
lemma rewriteAll_outcome (nowMs : ℕ) (rest : List (StreamKey × RelayCustody))
    (hnodup : (rest.map Prod.fst).Nodup) :
    ∀ {l : Ledger}, Tracked s l →
      (∀ kv ∈ rest, ∃ v, l.tables.stream kv.1 = some v ∧ v.custody = kv.2) →
      ∃ l', outcome (rest.forM fun kv =>
          rewriteCustody kv.1 (kv.2.filter fun d => d.isSpentAt nowMs = false)) l = (.ok (), l') ∧
        Tracked s l' ∧ ∀ key, l'.tables.stream key =
          if key ∈ rest.map Prod.fst then (l.tables.stream key).map (Stream.expire nowMs)
          else l.tables.stream key := by
  induction rest with
  | nil => exact fun h _ => ⟨_, rfl, h, fun key => by simp⟩
  | cons kv rest ih =>
    intro l h hheld
    rw [List.map_cons, List.nodup_cons] at hnodup
    obtain ⟨v, hv, hK⟩ := hheld kv List.mem_cons_self
    have hsub : ∀ d ∈ kv.2.filter fun d => d.isSpentAt nowMs = false,
        d.spentAtMs ≤ v.charge.spentAtMs := fun d hd =>
      (h.good.streams _ v hv).dominated d (hK ▸ (Finset.mem_filter.1 hd).1)
    obtain ⟨l₁, hout, hstage⟩ := rewriteCustody_stage h.good hv hsub
    have hkeep : ∀ kv' ∈ rest, kv'.1 ≠ kv.1 := fun kv' hkv' heq =>
      hnodup.1 (heq ▸ List.mem_map_of_mem hkv')
    obtain ⟨l₂, hout₂, htracked, hstreams⟩ := ih hnodup.2 (h.stage hstage) fun kv' hkv' => by
      rw [hstage.other _ (hkeep kv' hkv')]
      exact hheld kv' (List.mem_cons_of_mem _ hkv')
    refine ⟨l₂, ?_, htracked, fun key => ?_⟩
    · exact (outcome_bind_of_ok hout).trans hout₂
    · rw [hstreams key, List.map_cons]
      by_cases hk : key = kv.1
      · subst hk
        rw [if_neg hnodup.1, if_pos List.mem_cons_self, hstage.self, hv, Option.map_some,
          Stream.expire, hK]
      · simp only [List.mem_cons, hk, false_or, hstage.other key hk]

lemma expireCustody_outcome (nowMs : ℕ) (h : Tracked s l) :
    ∃ l', outcome (expireCustody nowMs) l = (.ok (), l') ∧ Tracked s l' ∧
      ∀ key, l'.tables.stream key = (l.tables.stream key).map (Stream.expire nowMs) := by
  have hentries : ∀ kv ∈ l.tables.custody.entries,
      ∃ v, l.tables.stream kv.1 = some v ∧ v.custody = kv.2 := by
    intro kv hkv
    have hget := l.tables.custody.mem_entries.1 (show (kv.1, kv.2) ∈ _ from hkv)
    have hsome := (h.good.custody _ _ hget).2
    rw [← h.good.stream_isSome, Option.isSome_iff_exists] at hsome
    obtain ⟨v, hv⟩ := hsome
    refine ⟨v, hv, ?_⟩
    rw [(ReplayTables.stream_eq_some.1 hv).2.2, hget, Option.getD_some]
  have hnodup : ((l.tables.custody.entries.filter fun kv =>
      decide (∃ d ∈ kv.2, d.isSpentAt nowMs = true)).map Prod.fst).Nodup :=
    l.tables.custody.nodup.sublist (List.filter_sublist.map _)
  obtain ⟨l', hout, htracked, hstreams⟩ := rewriteAll_outcome nowMs _ hnodup h
    fun kv hkv => hentries kv (List.mem_filter.1 hkv).1
  refine ⟨l', ?_, htracked, fun key => ?_⟩
  · rw [expireCustody, outcome_bind_of_ok (outcome_get _)]
    exact hout
  · rw [hstreams key]
    split
    · rfl
    · rename_i hout
      -- nothing of this stream is spent
      rcases hv : l.tables.stream key with _ | v
      · rfl
      · refine congrArg some (Stream.ext rfl ?_ rfl)
        refine (Finset.filter_true_of_mem fun d hd => ?_).symm
        by_contra hspent
        refine hout (List.mem_map.2 ⟨(key, v.custody), List.mem_filter.2 ⟨?_, ?_⟩, rfl⟩)
        · obtain ⟨-, -, hK⟩ := ReplayTables.stream_eq_some.1 hv
          refine l.tables.custody.mem_entries.2 ?_
          rcases hget : l.tables.custody.get? key with _ | K
          · rw [hK, hget] at hd
            cases hd
          · rw [hK, hget, Option.getD_some]
        · simp only [decide_eq_true_eq]
          exact ⟨d, hd, by simpa using hspent⟩

lemma retireAll_tracked (keys : List StreamKey) : ∀ {l : Ledger}, Tracked s l →
    (∀ key ∈ keys, l.tables.custody.get? key = none) →
    Tracked s (keys.foldl Ledger.retire l) ∧ ∀ key, (keys.foldl Ledger.retire l).tables.stream key =
      if key ∈ keys then none else l.tables.stream key := by
  induction keys with
  | nil => exact fun h _ => ⟨h, fun key => by simp⟩
  | cons k keys ih =>
    intro l h hcustody
    have hstage := retire_stage h.good (hcustody k List.mem_cons_self)
    obtain ⟨htracked, hstreams⟩ := ih (h.stage hstage) fun key hkey =>
      hcustody key (List.mem_cons_of_mem _ hkey)
    refine ⟨htracked, fun key => ?_⟩
    rw [List.foldl_cons, hstreams key]
    by_cases hk : key = k
    · subst hk
      simp [hstage.self]
    · simp only [List.mem_cons, hk, false_or, hstage.other key hk]

/-- Retiring what is spent never fails, and leaves each stream without it. -/
lemma retireSpent_outcome (nowMs : ℕ) (h : Tracked s l) (hlog : Logged s l) :
    ∃ l', outcome (retireSpent nowMs) l = (.ok (), l') ∧ Tracked s l' ∧ Logged s l' ∧
      ∀ key, l'.tables.stream key = (l.tables.stream key).bind (Stream.retired nowMs) := by
  obtain ⟨l₁, hout, htracked, hstreams⟩ := expireCustody_outcome nowMs h
  have hlogged : Logged s l₁ := by
    have := logged_expireCustody nowMs l hlog
    rwa [hout] at this
  have hspent : ∀ key, key ∈ l₁.tables.spentStreams nowMs ↔
      ∃ v, l.tables.stream key = some v ∧ v.charge.spentAtMs ≤ nowMs := by
    intro key
    have hindexed : l₁.tables.Indexed := hlogged.balanced.indexed
    rw [hindexed.mem_spentStreams, htracked.good.charges_eq, hstreams key]
    rcases l.tables.stream key with _ | v <;> simp [Stream.expire]
  obtain ⟨htracked', hretired⟩ := retireAll_tracked (l₁.tables.spentStreams nowMs) htracked
    fun key hkey => by
      obtain ⟨v, hv, hle⟩ := (hspent key).1 hkey
      refine htracked.good.custody_eq_none fun v' hv' => ?_
      rw [hstreams key, hv, Option.map_some] at hv'
      cases hv'
      -- the charge outlasts every delivery, so all of them are spent
      refine Finset.filter_false_of_mem fun d hd => ?_
      have := ((h.good.streams key v hv).dominated d hd).trans hle
      simpa [RelayDelivery.isSpentAt] using this
  refine ⟨_, ?_, htracked', hlogged.foldl_retire _, fun key => ?_⟩
  · rw [retireSpent, outcome_bind_of_ok hout, outcome_bind_of_ok (outcome_get _)]
    rfl
  · rw [hretired key, hstreams key]
    simp only [hspent]
    rcases hv : l.tables.stream key with _ | v
    · simp
    · simp only [Option.some.injEq, exists_eq_left', Option.bind_some, Stream.retired,
        Option.map_some]

lemma refuseUnavailable_ok {table : ReplayTable} {key : StreamKey} {u : Unit}
    (h : outcome (refuseUnavailable table key) l = (.ok u, l')) :
    l' = l ∧ l.state.store.unavailableRecord table key = none := by
  rw [refuseUnavailable, outcome_bind_of_ok (outcome_get _)] at h
  rcases hr : l.state.store.unavailableRecord table key with _ | r
  · rw [hr] at h
    cases h
    exact ⟨rfl, rfl⟩
  · rw [hr] at h
    cases h

lemma openStream_ok {fresh : Bool} {p : Principal} {r : Except ShareRefusal Unit} {u : Unit}
    (h : outcome (openStream fresh p r) l = (.ok u, l')) : l' = l := by
  cases fresh <;> cases r <;> cases h <;> rfl

lemma refuseRejected_ok {key : StreamKey} {sequence : ℕ} {verdict : SequenceVerdict} {u : Unit}
    (h : outcome (refuseRejected key sequence verdict) l = (.ok u, l')) :
    l' = l ∧ verdict.permitsDispatch = true := by
  cases verdict <;> cases h <;> exact ⟨rfl, rfl⟩

lemma classify_ok {admission : Admission} {observed : SequenceState × SequenceVerdict}
    (h : outcome (classify admission) l = (.ok observed, l')) :
    l' = l ∧ l.state.store.unavailableRecord .receiver admission.key = none ∧
      observed = observe (l.tables.receiver.get? admission.key) admission.sequence
        admission.digest ∧ observed.2.permitsDispatch = true := by
  obtain ⟨_, l₁, hu, hread⟩ := outcome_bind_eq_ok h
  obtain ⟨rfl, havailable⟩ := refuseUnavailable_ok hu
  rw [outcome_bind_of_ok (outcome_get _)] at hread
  obtain ⟨_, l₂, ho, hobserve⟩ := outcome_bind_eq_ok hread
  obtain rfl := openStream_ok ho
  obtain ⟨_, l₃, hj, hreturn⟩ := outcome_bind_eq_ok hobserve
  obtain ⟨rfl, hpermits⟩ := refuseRejected_ok hj
  cases hreturn
  exact ⟨rfl, havailable, rfl, hpermits⟩

lemma reserveQuota_ok {admission : Admission} {now : ReplayInstant}
    (h : outcome (reserveQuota admission now) l = (.ok (), l')) :
    l'.state.store = l.state.store ∧ l'.records = l.records := by
  rw [reserveQuota, outcome_bind_of_ok (outcome_get _)] at h
  simp only at h
  split at h
  · rw [outcome_set] at h
    cases h
    exact ⟨rfl, rfl⟩
  · rw [outcome_bind_of_ok (outcome_set _ _)] at h
    cases h

/-- An admission that goes through enters its transaction in the window, the custody and the
charge of its stream, and changes no other stream. -/
lemma admitIn_ok {admission : Admission} {now : ReplayInstant} {relayed : Option RelayDelivery}
    (hrelayed : ∀ d, relayed = some d → d.spentAtMs ≤ admission.spentAtMs)
    {verdict : SequenceVerdict} (ht : Tracked s l)
    (h : outcome (admitIn admission now relayed) l = (.ok verdict, l')) :
    Tracked s l' ∧ verdict = (observe ((l.tables.stream admission.key).map Stream.window)
        admission.sequence admission.digest).2 ∧ verdict.permitsDispatch = true ∧
      l'.tables.stream = Function.update l.tables.stream admission.key
        (some (entered (l.tables.stream admission.key) admission
          (observe ((l.tables.stream admission.key).map Stream.window) admission.sequence
            admission.digest).1 relayed)) := by
  obtain ⟨observed, l₁, hc, hrest⟩ := outcome_bind_eq_ok h
  obtain ⟨rfl, -, rfl, hpermits⟩ := classify_ok hc
  obtain ⟨_, l₂, hq, henter⟩ := outcome_bind_eq_ok hrest
  obtain ⟨hstore, hrecords⟩ := reserveQuota_ok hq
  have htables : l₂.tables = l₁.tables := congrArg ReplayStore.tables hstore
  have ht₂ := ht.of_store hstore hrecords
  have hvalid : ∀ w ∈ l₁.tables.receiver.get? admission.key, w.isValid = true := by
    intro w hw
    rw [Option.mem_def, ht.good.receiver_eq] at hw
    obtain ⟨v, hv, rfl⟩ := Option.map_eq_some_iff.1 hw
    exact (ht.good.streams _ v hv).valid
  obtain ⟨l₃, hw, hstage⟩ := enter_stage ht₂.good admission
    (SequenceState.observe_valid hvalid admission.sequence admission.digest) hrelayed
  rw [outcome_bind_of_ok (outcome_modify _ _), outcome_bind_of_ok (outcome_modify _ _),
    outcome_bind_of_ok (outcome_modify _ _)] at henter
  rw [enter] at hw
  rw [outcome_bind_of_ok hw] at henter
  cases henter
  have hwindow : l₁.tables.receiver.get? admission.key =
      (l₁.tables.stream admission.key).map Stream.window := ht.good.receiver_eq
  refine ⟨ht₂.stage hstage, by rw [hwindow], hpermits, ?_⟩
  funext j
  by_cases hj : j = admission.key
  · subst hj
    rw [hstage.self, Function.update_self, htables, hwindow]
  · rw [hstage.other j hj, Function.update_of_ne hj, htables]

end Replay

/-! ### Receiver transitions -/

/-- The streams once what is spent at `nowMs` is retired. -/
def retiredStreams (nowMs : ℕ) (t : StreamKey → Option Stream) : StreamKey → Option Stream :=
  fun key => (t key).bind (Stream.retired nowMs)

/-- The streams once a transaction is entered, a relayed one in custody. -/
def enteredStreams (admission : Admission) (relayed : Option RelayDelivery)
    (t : StreamKey → Option Stream) : StreamKey → Option Stream :=
  Function.update t admission.key (some (Replay.entered (t admission.key) admission
    (observe ((t admission.key).map Stream.window) admission.sequence admission.digest).1 relayed))

def verdictOn (admission : Admission) (t : StreamKey → Option Stream) : SequenceVerdict :=
  (observe ((t admission.key).map Stream.window) admission.sequence admission.digest).2

inductive ReceiverStep (t : StreamKey → Option Stream) :
    ReplayCall → ReplayAnswer → (StreamKey → Option Stream) → Prop
  | reserve (key : StreamKey) (count : ℕ+) (first last : ℕ) :
    ReceiverStep t (.reserve key count) (.range first last) t
  | tryAdmit (admission : Admission) (now : ReplayInstant)
    (permitted : (verdictOn admission (retiredStreams now.wallMs t)).permitsDispatch = true) :
    ReceiverStep t (.tryAdmit admission now)
      (.verdict (verdictOn admission (retiredStreams now.wallMs t)))
      (enteredStreams admission none (retiredStreams now.wallMs t))
  | relayed (admission : Admission) (now : ReplayInstant)
    (permitted : (verdictOn admission (retiredStreams now.wallMs t)).permitsDispatch = true)
    (room : ∃ u : ReplayTables, u.Good ∧ u.stream = retiredStreams now.wallMs t ∧
      Replay.custodyHeld u < relayCustodyCapacity) :
    ReceiverStep t (.admitRelayed admission now) (.relay .admitted)
      (enteredStreams admission (some admission.delivery) (retiredStreams now.wallMs t))
  | inCustody (admission : Admission) (now : ReplayInstant) :
    ReceiverStep t (.admitRelayed admission now) (.relay .inCustody)
      (retiredStreams now.wallMs t)
  | release (key : StreamKey) (delivery : RelayDelivery) :
    ReceiverStep t (.releaseRelayed key delivery) .released
      (Function.update t key ((t key).map fun v =>
        { v with custody := v.custody.erase delivery }))

/-- What the speculative state keeps to between transitions. -/
structure Speculative.Good (s : Speculative) : Prop extends Balanced s where
  tables : s.tables.Good
  restorable : s.store.unrestorable = .empty

/-- Whatever a transition changes for good it has staged. -/
structure Committed (s : Speculative) (l : Ledger) : Prop where
  good : l.state.Good
  unstaged : ∀ key, l.records.get? ⟨.receiver, key⟩ = none →
    l.tables.stream key = s.tables.stream key
  staged : ∀ key r, l.records.get? ⟨.receiver, key⟩ = some r →
    r = (l.tables.stream key).map (Stream.record key)
  unleased : ∀ key, l.records.get? ⟨.sender, key⟩ = none →
    (l.tables.sender.get? key).map SenderLease.leased =
      (s.tables.sender.get? key).map SenderLease.leased
  leased : ∀ key r, l.records.get? ⟨.sender, key⟩ = some r →
    ∃ lease, l.tables.sender.get? key = some lease ∧ r = some (.sender key lease.leased)

inductive SenderStep (t : StreamKey → Option SenderLease) :
    ReplayCall → ReplayAnswer → (StreamKey → Option SenderLease) → Prop
  | reserve (key : StreamKey) (count : ℕ+) (a : Allocation)
    (allocated : allocate (t key) count = some a) :
    SenderStep t (.reserve key count) (.range a.range.1 a.range.2)
      (Function.update t key (some a.next))
  | other (call : ReplayCall) (answer : ReplayAnswer)
    (receiver : ∀ key count, call ≠ .reserve key count) :
    SenderStep t call answer t

section Commit

variable {s : Speculative} {l : Ledger} {call : ReplayCall} {answer : ReplayAnswer}

lemma Tracked.committed (h : Tracked s l) (hlog : Logged s l) (hs : s.Good) : Committed s l where
  good := ⟨hlog.balanced, h.good, h.unrestorable.trans hs.restorable⟩
  unstaged := h.unstaged
  staged := h.staged
  unleased := fun key _ => by rw [h.sender]
  leased := fun key r hr => absurd ((h.senderRecords key).symm.trans hr) (by simp)

/-- What an allocation hands out and leaves. -/
lemma allocate_spec {previous : Option SenderLease} {count : ℕ+} {a : Allocation}
    (h : allocate previous count = some a) :
    a.range.1 = previous.elim 0 (fun lease => lease.issued + 1) ∧ a.range.1 ≤ a.range.2 ∧
      a.range.2 = a.range.1 + (count - 1) ∧ a.range.2 ≤ u64Max ∧
      a.next.issued = a.range.2 ∧ a.next.issued ≤ a.next.leased ∧
      (a.extend = none → ∃ lease, previous = some lease ∧ a.next.leased = lease.leased) ∧
      ∀ leased, a.extend = some leased → a.next.leased = leased ∧
        ∀ lease, previous = some lease → lease.leased < leased := by
  obtain ⟨first, hfirst, hrange⟩ := Option.bind_eq_some_iff.1 h
  obtain ⟨last, hlast, rfl⟩ := Option.map_eq_some_iff.1 hrange
  have hfirst' : first = previous.elim 0 fun lease => lease.issued + 1 := by
    cases previous with
    | none => exact (Option.some.inj hfirst).symm
    | some lease =>
      simp only [firstAfter, checkedAdd] at hfirst
      split at hfirst
      · exact (Option.some.inj hfirst).symm
      · cases hfirst
  have hsum : last = first + (count - 1) ∧ last ≤ u64Max := by
    rw [checkedAdd] at hlast
    split at hlast
    · rename_i hle
      obtain rfl := Option.some.inj hlast
      exact ⟨rfl, hle⟩
    · cases hlast
  have hle : first ≤ last := hsum.1 ▸ Nat.le_add_right _ _
  cases previous with
  | none =>
    exact ⟨hfirst', hle, hsum.1, hsum.2, rfl, le_max_left _ _, fun hn => (by cases hn),
      fun leased hl => ⟨Option.some.inj hl, fun _ hp => (by cases hp)⟩⟩
  | some lease =>
    simp only [allocateRange]
    split
    · rename_i hin
      exact ⟨hfirst', hle, hsum.1, hsum.2, rfl, hin, fun _ => ⟨lease, rfl, rfl⟩,
        fun leased hl => (by cases hl)⟩
    · rename_i hout
      refine ⟨hfirst', hle, hsum.1, hsum.2, rfl, le_max_left _ _, fun hn => (by cases hn),
        fun leased hl => ⟨Option.some.inj hl, fun lease' hp => ?_⟩⟩
      cases hp
      obtain rfl := Option.some.inj hl
      exact (Nat.lt_of_not_le hout).trans_le (le_max_left _ _)

lemma Replay.allocateIn_ok {l' : Ledger} {key : StreamKey} {count : ℕ+} {range : ℕ × ℕ}
    (h : outcome (allocateIn key count) l = (.ok range, l')) :
    ∃ a, allocate (l.tables.sender.get? key) count = some a ∧ range = a.range ∧
      l' = (a.extend.elim l fun leased => l.write (.sender key leased)).setSender key a.next := by
  obtain ⟨_, l₁, hu, hread⟩ := outcome_bind_eq_ok h
  obtain ⟨rfl, -⟩ := refuseUnavailable_ok hu
  rw [outcome_bind_of_ok (outcome_get _)] at hread
  obtain ⟨_, l₂, ho, hmatch⟩ := outcome_bind_eq_ok hread
  obtain rfl := openStream_ok ho
  split at hmatch
  · cases hmatch
  · rename_i a hallocate
    rw [outcome_bind_of_ok (outcome_modify _ _), outcome_bind_of_ok (outcome_modify _ _)] at hmatch
    cases hmatch
    exact ⟨a, hallocate, rfl, rfl⟩

/-- A reservation that goes through. -/
lemma committed_reserve (hs : s.Good) {key : StreamKey} {count : ℕ+} {range : ℕ × ℕ}
    (h : outcome (Replay.allocateIn key count) (.new s) = (.ok range, l)) :
    Committed s l ∧ l.tables.stream = s.tables.stream ∧
      ∃ a, allocate (s.tables.sender.get? key) count = some a ∧ range = a.range ∧
        l.tables.sender.get? = Function.update s.tables.sender.get? key (some a.next) := by
  have hlog : Logged s l := by
    have := Replay.logged_allocateIn key count (.new s) (.new hs.toBalanced)
    rwa [h] at this
  obtain ⟨a, ha, rfl, rfl⟩ := Replay.allocateIn_ok h
  obtain ⟨-, -, -, -, -, hle, hkeep, hextend⟩ := allocate_spec ha
  have htables : ((a.extend.elim (Ledger.new s) fun leased =>
      (Ledger.new s).write (.sender key leased)).setSender key a.next).tables =
      { s.tables with sender := s.tables.sender.replace key (some a.next) } := by
    cases a.extend <;> rfl
  have hstore : ((a.extend.elim (Ledger.new s) fun leased =>
      (Ledger.new s).write (.sender key leased)).setSender key a.next).state.store.unrestorable =
      s.store.unrestorable := by
    cases a.extend <;> rfl
  have hrecords : ∀ k, ((a.extend.elim (Ledger.new s) fun leased =>
      (Ledger.new s).write (.sender key leased)).setSender key a.next).records.get? k =
      a.extend.bind fun leased => if k = ⟨.sender, key⟩ then some (some (.sender key leased))
        else none := by
    intro k
    cases a.extend with
    | none => rfl
    | some leased => exact BTreeMap.get?_insert .empty _ k _
  have hsender : ∀ j, (s.tables.sender.replace key (some a.next)).get? j =
      if j = key then some a.next else s.tables.sender.get? j := fun j =>
    BTreeMap.get?_replace _ _ _ _
  refine ⟨⟨⟨hlog.balanced, ?_, hstore.trans hs.restorable⟩, fun j _ => ?_, fun j r hr => ?_,
    fun j hj => ?_, fun j r hr => ?_⟩, ?_, a, ha, rfl, ?_⟩
  · have hgood := hs.tables
    rw [show Speculative.tables _ = _ from htables]
    refine ⟨hgood.charged, hgood.custody, hgood.streams, fun j lease hj => ?_⟩
    rw [hsender] at hj
    split at hj
    · obtain rfl := Option.some.inj hj
      exact hle
    · exact hgood.leases j lease hj
  · rw [htables]
    rfl
  · rw [hrecords] at hr
    obtain ⟨leased, -, hr⟩ := Option.bind_eq_some_iff.1 hr
    rw [if_neg (fun heq => by cases heq)] at hr
    cases hr
  · rw [htables, hsender]
    split
    · rename_i hj'
      subst hj'
      rw [hrecords] at hj
      rcases hx : a.extend with _ | leased
      · obtain ⟨lease, hlease, heq⟩ := hkeep hx
        rw [show s.tables.sender.get? j = some lease from hlease, Option.map_some, Option.map_some,
          heq]
      · rw [hx, Option.bind_some, if_pos rfl] at hj
        cases hj
    · rfl
  · rw [hrecords] at hr
    obtain ⟨leased, hx, hr⟩ := Option.bind_eq_some_iff.1 hr
    split at hr
    · rename_i heq
      obtain rfl : j = key := congrArg RecordKey.key heq
      refine ⟨a.next, ?_, ?_⟩
      · rw [htables, hsender, if_pos rfl]
      · rw [(hextend leased hx).1]
        exact (Option.some.inj hr).symm
    · cases hr
  · rw [htables]
    rfl
  · funext j
    rw [htables, hsender]
    by_cases hj : j = key
    · subst hj
      rw [if_pos rfl, Function.update_self]
    · rw [if_neg hj, Function.update_of_ne hj]

/-- A release that goes through. -/
lemma tracked_release (h : Tracked s l) {l' : Ledger} {key : StreamKey} {delivery : RelayDelivery}
    (hout : outcome (Replay.releaseRelayed key delivery) l = (.ok (), l')) :
    Tracked s l' ∧ l'.tables.stream = Function.update l.tables.stream key
      ((l.tables.stream key).map fun v => { v with custody := v.custody.erase delivery }) := by
  have hsame : (∀ v, l.tables.stream key = some v → delivery ∉ v.custody) →
      l.tables.stream = Function.update l.tables.stream key
        ((l.tables.stream key).map fun v => { v with custody := v.custody.erase delivery }) := by
    intro hnone
    funext j
    by_cases hj : j = key
    · subst hj
      rw [Function.update_self]
      rcases hv : l.tables.stream j with _ | v
      · rfl
      · rw [Option.map_some, Finset.erase_eq_of_notMem (hnone v hv)]
    · rw [Function.update_of_ne hj]
  rw [Replay.releaseRelayed, outcome_bind_of_ok (outcome_get _)] at hout
  split at hout
  · rename_i hcustody
    cases hout
    refine ⟨h, hsame fun v hv => ?_⟩
    rw [(ReplayTables.stream_eq_some.1 hv).2.2, hcustody]
    exact Finset.notMem_empty _
  · rename_i custody hcustody
    have hsome := (h.good.custody key custody hcustody).2
    rw [← h.good.stream_isSome, Option.isSome_iff_exists] at hsome
    obtain ⟨v, hv⟩ := hsome
    have hK : v.custody = custody := by
      rw [(ReplayTables.stream_eq_some.1 hv).2.2, hcustody, Option.getD_some]
    split at hout
    · rename_i hnot
      cases hout
      refine ⟨h, hsame fun v' hv' => ?_⟩
      obtain rfl := Option.some.inj (hv.symm.trans hv')
      rw [hK]
      exact hnot
    · obtain ⟨l₁, hstage', hstage⟩ := Replay.rewriteCustody_stage h.good hv
        (K := custody.erase delivery) fun d hd =>
          (h.good.streams key v hv).dominated d (hK ▸ Finset.mem_of_mem_erase hd)
      rw [hstage'] at hout
      cases hout
      refine ⟨h.stage hstage, ?_⟩
      funext j
      by_cases hj : j = key
      · subst hj
        rw [hstage.self, Function.update_self, hv, Option.map_some, hK]
      · rw [hstage.other j hj, Function.update_of_ne hj]

/-- A relay admission that goes through. -/
lemma tracked_admitRelayed (h : Tracked s l) (hlog : Logged s l) {l' : Ledger}
    {admission : Admission} {now : ReplayInstant} {a : Replay.RelayAdmission}
    (hout : outcome (Replay.admitRelayedAt admission now) l = (.ok a, l')) :
    Tracked s l' ∧ ReceiverStep l.tables.stream (.admitRelayed admission now) (.relay a)
      l'.tables.stream := by
  obtain ⟨l₁, hretire, htracked, -, hstreams⟩ := Replay.retireSpent_outcome
    now.wallMs h hlog
  have hstreams' : l₁.tables.stream = retiredStreams now.wallMs l.tables.stream :=
    funext hstreams
  rw [Replay.admitRelayedAt, outcome_bind_of_ok hretire] at hout
  obtain ⟨_, l₂, hu, hread⟩ := outcome_bind_eq_ok hout
  obtain ⟨rfl, -⟩ := Replay.refuseUnavailable_ok hu
  rw [outcome_bind_of_ok (outcome_get _)] at hread
  simp only at hread
  split at hread
  · cases hread
    rw [hstreams']
    exact ⟨htracked, .inCustody admission now⟩
  · split at hread
    · cases hread
    · rename_i hroom
      obtain ⟨verdict, l₃, hadmitted, hreturn⟩ := outcome_bind_eq_ok hread
      cases hreturn
      obtain ⟨htracked', hverdict, hpermits, hentered⟩ :=
        Replay.admitIn_ok (fun d hd => by cases hd; exact le_rfl) htracked hadmitted
      refine ⟨htracked', ?_⟩
      rw [hentered, hstreams']
      refine .relayed admission now ?_ ⟨_, htracked.good, hstreams', Nat.lt_of_not_le hroom⟩
      rw [verdictOn, ← hstreams', ← hverdict]
      exact hpermits

lemma tracked_tryAdmit (h : Tracked s l) (hlog : Logged s l) {l' : Ledger} {admission : Admission}
    {now : ReplayInstant} {verdict : SequenceVerdict}
    (hout : outcome (Replay.admitAt admission now) l = (.ok verdict, l')) :
    Tracked s l' ∧ ReceiverStep l.tables.stream (.tryAdmit admission now) (.verdict verdict)
      l'.tables.stream := by
  obtain ⟨l₁, hretire, htracked, -, hstreams⟩ := Replay.retireSpent_outcome
    now.wallMs h hlog
  have hstreams' : l₁.tables.stream = retiredStreams now.wallMs l.tables.stream :=
    funext hstreams
  rw [Replay.admitAt, outcome_bind_of_ok hretire] at hout
  obtain ⟨htracked', hverdict, hpermits, hentered⟩ :=
    Replay.admitIn_ok (fun d hd => by cases hd) htracked hout
  rw [hstreams'] at hverdict
  refine ⟨htracked', ?_⟩
  rw [hentered, hstreams', show verdict = verdictOn admission (retiredStreams now.wallMs
    l.tables.stream) from hverdict]
  refine .tryAdmit admission now ?_
  rw [verdictOn, ← hverdict]
  exact hpermits

/-- A transition that goes through: what it changed it staged, and what it did to the streams of
either side. -/
lemma ReplayCall.commit_ok (hs : s.Good) (h : (call.commit s).1 = .ok answer) :
    Committed s (call.commit s).2 ∧
      ReceiverStep s.tables.stream call answer (call.commit s).2.tables.stream ∧
      SenderStep s.tables.sender.get? call answer (call.commit s).2.tables.sender.get? := by
  have hlogged := call.logged (.new s) (.new hs.toBalanced)
  have hnew := tracked_new hs.tables
  have hlognew := Logged.new hs.toBalanced
  have hcommit : call.commit s = outcome call.body (.new s) := by
    rw [ReplayCall.commit] at h ⊢
    rcases hout : outcome call.body (.new s) with ⟨e | a, l⟩
    · rw [hout] at h
      cases h
    · rfl
  rw [hcommit] at h ⊢
  rcases hout : outcome call.body (.new s) with ⟨e | a, l⟩
  · rw [hout] at h
    cases h
  rw [hout] at h hlogged
  cases h
  cases call with
  | reserve key count =>
    obtain ⟨range, l₁, hallocate, hreturn⟩ := outcome_bind_eq_ok hout
    cases hreturn
    obtain ⟨hcommitted, hstream, a, ha, rfl, hsender⟩ := committed_reserve hs hallocate
    refine ⟨hcommitted, ?_, ?_⟩
    · rw [hstream]
      exact .reserve key count _ _
    · simp only [hsender]
      exact .reserve key count a ha
  | tryAdmit admission now =>
    obtain ⟨verdict, l₁, hadmitted, hreturn⟩ := outcome_bind_eq_ok hout
    cases hreturn
    obtain ⟨htracked, hstep⟩ := tracked_tryAdmit hnew hlognew hadmitted
    refine ⟨htracked.committed hlogged hs, hstep, ?_⟩
    simp only [htracked.sender]
    exact .other _ _ fun _ _ heq => by cases heq
  | admitRelayed admission now =>
    obtain ⟨a, l₁, hadmitted, hreturn⟩ := outcome_bind_eq_ok hout
    cases hreturn
    obtain ⟨htracked, hstep⟩ := tracked_admitRelayed hnew hlognew hadmitted
    refine ⟨htracked.committed hlogged hs, hstep, ?_⟩
    simp only [htracked.sender]
    exact .other _ _ fun _ _ heq => by cases heq
  | releaseRelayed key delivery =>
    obtain ⟨_, l₁, hrelease, hreturn⟩ := outcome_bind_eq_ok hout
    cases hreturn
    obtain ⟨htracked, hstream⟩ := tracked_release hnew hrelease
    refine ⟨htracked.committed hlogged hs, ?_, ?_⟩
    · rw [hstream]
      exact .release key delivery
    · simp only [htracked.sender]
      exact .other _ _ fun _ _ heq => by cases heq

/-- A transition that refuses changes no stream of either side and stages nothing. -/
lemma ReplayCall.commit_error (hs : s.Good) {e : ReplayError} (h : (call.commit s).1 = .error e) :
    Committed s (call.commit s).2 ∧ (call.commit s).2.tables = s.tables := by
  obtain ⟨-, hbalanced, herror⟩ := call.commit_logged hs.toBalanced
  obtain ⟨hsimilar, -, hrecords⟩ := herror e h
  have htables : (call.commit s).2.tables = s.tables := hsimilar.tables
  refine ⟨⟨⟨hbalanced, ?_, ?_⟩, fun key _ => by rw [htables], fun key r hr => ?_,
    fun key _ => by rw [htables], fun key r hr => ?_⟩, htables⟩
  · rw [hsimilar.tables]
    exact hs.tables
  · rw [hsimilar.store]
    exact hs.restorable
  · rw [hrecords] at hr
    cases hr
  · rw [hrecords] at hr
    cases hr

lemma ReplayCall.committed (call : ReplayCall) (hs : s.Good) : Committed s (call.commit s).2 := by
  rcases h : (call.commit s).1 with e | answer
  · exact (call.commit_error hs h).1
  · exact (call.commit_ok hs h).1

end Commit

end Rings
