import Rings.ReplayLaws

/-!
Sender sequences over every run.

The ranges of a stream that callers receive grow strictly over the whole history of the node.
What was released lies within what the durable state has issued, its lease within the lease on
disk, and a restart issues past the whole of the lease it finds.
-/

namespace Rings

open GroupCommit Effect

def Waiter.reserved (w : Waiter) : Option (StreamKey × ℕ × ℕ) :=
  match w.call, w.outcome with
  | .reserve key _, .ok (.range first last) => some (key, first, last)
  | _, _ => none

def Returned.reserved (key : StreamKey) (r : Returned) : Option (ℕ × ℕ) :=
  match r.waiter.call, r.result with
  | .reserve k _, .ok (.range first last) => if k = key then some (first, last) else none
  | _, _ => none

lemma Returned.reserved_eq_some {key : StreamKey} {r : Returned} {range : ℕ × ℕ}
    (h : r.reserved key = some range) :
    r.durable = true ∧ r.waiter.reserved = some (key, range) := by
  rw [Returned.reserved] at h
  split at h
  · rename_i k count first last hcall hresult
    split at h
    · rename_i hk
      obtain rfl := Option.some.inj h
      rw [Returned.result] at hresult
      split at hresult
      · rename_i hdurable
        refine ⟨hdurable, ?_⟩
        rw [Waiter.reserved, hcall, hresult, hk]
      · cases hresult
    · cases h
  · cases h

section Leases

variable {events : List ReplayEvent} {n : ℕ} {s : Stamped} {e : PendingCall} {w : Waiter}
  {P : Stamped → Prop} {key : StreamKey}

lemma Waiter.reserved_eq_some {range : ℕ × ℕ} (h : w.reserved = some (key, range)) :
    ∃ count, w.call = .reserve key count ∧ w.outcome = .ok (.range range.1 range.2) := by
  rw [Waiter.reserved] at h
  split at h
  · rename_i k count first last hcall houtcome
    cases h
    exact ⟨count, hcall, houtcome⟩
  · cases h

/-- A reservation that answers a range, on the state before it. -/
lemma Called.allocated (h : Called events n s e w) (hs : s.state.Good) {range : ℕ × ℕ}
    (hw : w.reserved = some (key, range)) :
    ∃ count a, allocate (s.state.tables.sender.get? key) count = some a ∧ range = a.range ∧
      e.after.state.tables.sender.get? key = some a.next := by
  obtain ⟨count, hcall, houtcome⟩ := Waiter.reserved_eq_some hw
  have hok := h.outcome.trans houtcome
  obtain ⟨-, -, hsender⟩ := w.call.commit_ok hs hok
  have hafter : e.after.state.tables.sender.get? = (w.call.commit s.state).2.tables.sender.get? :=
    congrArg (fun x => x.tables.sender.get?) h.state
  rw [← hafter, hcall] at hsender
  generalize he : e.after.state.tables.sender.get? = after at hsender
  generalize ha : ReplayAnswer.range range.1 range.2 = answer at hsender
  cases hsender with
  | reserve key count a hallocate =>
    injection ha with h1 h2
    exact ⟨count, a, hallocate, Prod.ext h1 h2, by rw [Function.update_self]⟩
  | other call answer hnot => exact absurd rfl (hnot key count)

lemma replayTrans.lease_le (h : replayTrans events n s e) (hs : s.state.Good) {lease : SenderLease}
    (hlease : s.state.tables.sender.get? key = some lease) :
    ∃ lease', e.after.state.tables.sender.get? key = some lease' ∧
      lease.issued ≤ lease'.issued ∧ lease.leased ≤ lease'.leased := by
  have hsame : e.after.state.tables.sender.get? key = s.state.tables.sender.get? key →
      ∃ lease', e.after.state.tables.sender.get? key = some lease' ∧
        lease.issued ≤ lease'.issued ∧ lease.leased ≤ lease'.leased := fun heq =>
    ⟨lease, heq.trans hlease, le_rfl, le_rfl⟩
  rcases h with ⟨w, h⟩ | h
  · have hafter : e.after.state.tables = (w.call.commit s.state).2.tables :=
      congrArg Speculative.tables h.state
    rcases hout : (w.call.commit s.state).1 with err | answer
    · exact hsame (by rw [hafter, (w.call.commit_error hs hout).2])
    · obtain ⟨-, -, hsender⟩ := w.call.commit_ok hs hout
      rw [← hafter] at hsender
      generalize e.after.state.tables.sender.get? = after at hsender hsame ⊢
      generalize w.call = call at hsender
      cases hsender with
      | reserve k count a hallocate =>
        by_cases hk : key = k
        · subst hk
          obtain ⟨hfirst, hle, -, -, hissued, -, hkept, hextended⟩ := allocate_spec hallocate
          refine ⟨a.next, Function.update_self _ _ _, ?_, ?_⟩
          · rw [hissued]
            rw [hlease, Option.elim_some] at hfirst
            omega
          · rcases hx : a.extend with _ | leased
            · obtain ⟨lease', hlease', heq⟩ := hkept hx
              rw [hlease] at hlease'
              rw [heq, Option.some.inj hlease']
            · obtain ⟨heq, hlt⟩ := hextended leased hx
              rw [heq]
              exact (hlt lease hlease).le
        · exact hsame (Function.update_of_ne hk _ _)
      | other call answer hnot => exact hsame rfl
  · exact hsame (by rw [h.tables])

end Leases

/-- What is released lies within what is issued. -/
def Issued (w : Waiter) (s : Stamped) : Prop :=
  ∀ key range, w.reserved = some (key, range) → range.1 ≤ range.2 ∧ range.2 ≤ u64Max ∧
    ∃ lease, s.state.tables.sender.get? key = some lease ∧ range.2 ≤ lease.issued

/-- A later range of a stream lies past an earlier one. -/
def Past (x y : Waiter) : Prop :=
  ∀ key range range', x.reserved = some (key, range) → y.reserved = some (key, range') →
    range.2 < range'.1

/-- The lease on disk covers the lease of the durable state. -/
def Leased (s : Stamped) (k : RecordKey) (r : Option StoredStream) : Prop :=
  ∀ key lease, k = ⟨.sender, key⟩ → s.state.tables.sender.get? key = some lease →
    ∃ leased, r = some (.sender key leased) ∧ lease.leased ≤ leased

lemma Leased.backward {events : List ReplayEvent} {n : ℕ} {s : Stamped} {e : PendingCall}
    {k : RecordKey} {r : Option StoredStream} (he : replayTrans events n s e) (hs : s.state.Good)
    (h : Leased e.after k r) : Leased s k r := by
  intro key lease hk hlease
  obtain ⟨lease', hlease', -, hle⟩ := he.lease_le hs hlease
  obtain ⟨leased, hr, hle'⟩ := h key lease' hk hlease'
  exact ⟨leased, hr, hle.trans hle'⟩

lemma Leased.forward {s : Stamped} {e : PendingCall} {k : RecordKey} {r : Option StoredStream}
    (he : Staging s e) (h : Leased s k r) : Leased e.after k ((e.staged k).getD r) := by
  rintro key lease rfl hlease
  rcases hstaged : e.staged ⟨.sender, key⟩ with _ | r'
  · have hleased := he.unleased key hstaged
    rw [hlease, Option.map_some] at hleased
    obtain ⟨lease', hlease', heq⟩ := Option.map_eq_some_iff.1 hleased.symm
    rw [← heq]
    exact h key lease' rfl hlease'
  · obtain ⟨lease', hlease', rfl⟩ := he.leased key r' hstaged
    obtain rfl := Option.some.inj (hlease.symm.trans hlease')
    exact ⟨_, rfl, le_rfl⟩

lemma leaseLaws (events : List ReplayEvent) :
    ReplayLaws events (fun _ _ => True) (fun _ => True) Issued Past fun _ => Leased where
  mono := fun _ _ _ _ h => h
  inv := fun _ _ _ _ _ => trivial
  new := by
    intro n s e w hs he key range hw
    obtain ⟨count, a, hallocate, rfl, hafter⟩ := he.allocated hs.good hw
    obtain ⟨-, hle, -, hmax, hissued, -⟩ := allocate_spec hallocate
    exact ⟨hle, hmax, a.next, hafter, hissued.ge⟩
  keep := by
    intro n s e x hs he hx key range hw
    obtain ⟨hle, hmax, lease, hlease, hissued⟩ := hx key range hw
    obtain ⟨lease', hlease', hgrow, -⟩ := he.lease_le hs.good hlease
    exact ⟨hle, hmax, lease', hlease', hissued.trans hgrow⟩
  order := by
    intro n s e w x hs he hx key range range' hxrange hwrange
    obtain ⟨-, -, lease, hlease, hissued⟩ := hx key range hxrange
    obtain ⟨count, a, hallocate, rfl, -⟩ := he.allocated hs.good hwrange
    obtain ⟨hfirst, -⟩ := allocate_spec hallocate
    rw [hlease, Option.elim_some] at hfirst
    omega
  forward := fun n s e k r hs he hr => Leased.forward (he.staging hs.good) hr
  landed := by
    intro n a keys _ hlinked hdisk k
    exact hlinked.landed (fun s e r he hr => Leased.forward (he.2.staging he.1.good) hr)
      (fun s e r he hr => hr.backward he.2 he.1.good) (hdisk k)
  similar := by
    intro n s t hs hst
    refine ⟨trivial, fun x hx => ?_, fun k r hr => ?_⟩
    · rw [Issued, hst.1.tables]
      exact hx
    · rw [Leased, hst.1.tables]
      exact hr
  restore := by
    intro n s disk t hs ht hdisk
    refine ⟨trivial, fun x hx key range hw => ?_, fun k => ?_⟩
    · obtain ⟨hle, hmax, lease, hlease, hissued⟩ := hx key range hw
      obtain ⟨leased, hr, hcovers⟩ := hdisk _ key lease rfl hlease
      have hkept := hs.good.tables.leases key lease hlease
      refine ⟨hle, hmax, .restored leased, ?_, (hissued.trans hkept).trans hcovers⟩
      rw [ht.sender key, hr]
      rfl
    · rintro key lease rfl hlease
      rw [ht.sender key] at hlease
      obtain ⟨leased, hleased, rfl⟩ := Option.map_eq_some_iff.1 hlease
      obtain ⟨r, hr, hr'⟩ := Option.bind_eq_some_iff.1 hleased
      have hfiled := (ht.filed _ r hr).key
      cases r with
      | sender k d =>
        cases hfiled
        cases hr'
        exact ⟨_, hr, le_rfl⟩
      | receiver k w c d => cases hr'

/-- A stream without a sequence left refuses. -/
lemma reserve_exhausted {s : Speculative} (hs : s.Good) {key : StreamKey} {count : ℕ+}
    {lease : SenderLease} (hlease : s.tables.sender.get? key = some lease)
    (h : allocate (some lease) count = none) :
    ((ReplayCall.reserve key count).commit s).1 = .error (.sequenceExhausted key) := by
  have hout : outcome (Replay.allocateIn key count) (.new s) =
      (.error (.sequenceExhausted key), .new s) := by
    have hrecord : s.store.unavailableRecord .sender key = none := by
      rw [ReplayStore.unavailableRecord, hs.restorable]
      rfl
    have havailable : outcome (Replay.refuseUnavailable .sender key) (.new s) =
        (.ok (), .new s) := by
      rw [Replay.refuseUnavailable, outcome_bind_of_ok (outcome_get _)]
      simp only [Ledger.new, hrecord]
      rfl
    have htables : (Ledger.new s).tables.sender.get? key = some lease := hlease
    rw [Replay.allocateIn, outcome_bind_of_ok havailable, outcome_bind_of_ok (outcome_get _)]
    simp only [htables, h]
    rfl
  have hbody : outcome (ReplayCall.reserve key count).body (.new s) =
      (.error (.sequenceExhausted key), .new s) := by
    rw [ReplayCall.body, outcome_bind_of_error hout]
  rw [ReplayCall.commit, hbody]

/-- Sender sequences are never reused. Over any run, from the first start of the node: the ranges
of a stream that callers received lie each past the ones before; each lies within `u64` and within
the lease now on disk; and a reservation past the last sequence of `u64` is refused as exhausted. -/
theorem reserved_never_reused (config : OriginQuotaConfig) (shares : Shares)
    (events : List ReplayEvent) (key : StreamKey) :
    let r := (Runtime.start config shares).run events
    (r.returned.filterMap (Returned.reserved key)).Pairwise (fun x y => x.2 < y.1) ∧
    (∀ range ∈ r.returned.filterMap (Returned.reserved key), range.1 ≤ range.2 ∧
      range.2 ≤ u64Max ∧
      ∃ leased, r.disk.get? ⟨.sender, key⟩ = some (.sender key leased) ∧ range.2 ≤ leased) ∧
    ∀ count : ℕ+, (count : ℕ) ≤ u64Max →
      u64Max < (r.state.tables.sender.get? key).elim 0 (fun lease => lease.issued + 1) +
        (count - 1) →
      ((ReplayCall.reserve key count).commit r.state).1 = .error (.sequenceExhausted key) := by
  intro r
  obtain ⟨a, hfollows, hsound⟩ := (leaseLaws events).run config shares trivial
    (fun k key lease _ hlease => (by cases hlease)) (fun _ _ _ _ _ _ => trivial) le_rfl
  have hrun : (Runtime.start config shares).after events events.length = r := by
    rw [Runtime.after, List.take_length]
  rw [hrun] at hfollows
  have hgood : r.state.Good := by
    rw [← hfollows.tip, ← tip_append]
    exact (Sound.tip_inv (leaseLaws events) hsound).good
  refine ⟨?_, fun range hrange => ?_, fun count hcount hover => ?_⟩
  · have hordered := hsound.ordered
    rw [hfollows.released, List.pairwise_map, List.pairwise_filter] at hordered
    refine List.pairwise_filterMap.2 (hordered.imp fun {x y} hxy => ?_)
    intro range hx range' hy
    obtain ⟨hxdurable, hxrange⟩ := Returned.reserved_eq_some hx
    obtain ⟨hydurable, hyrange⟩ := Returned.reserved_eq_some hy
    exact hxy hxdurable hydurable key range range' hxrange hyrange
  · obtain ⟨x, hx, hxrange⟩ := List.mem_filterMap.1 hrange
    obtain ⟨hdurable, hreserved⟩ := Returned.reserved_eq_some hxrange
    have hmem : x.waiter ∈ a.released := by
      rw [hfollows.released]
      exact List.mem_map_of_mem (List.mem_filter.2 ⟨hx, hdurable⟩)
    obtain ⟨hle, hmax, lease, hlease, hissued⟩ := hsound.facts _ hmem key range hreserved
    obtain ⟨leased, hdisk, hcovers⟩ := (hsound.disk ⟨.sender, key⟩).2 key lease rfl hlease
    have hkept := hsound.inv.good.tables.leases key lease hlease
    refine ⟨hle, hmax, leased, ?_, (hissued.trans hkept).trans hcovers⟩
    rw [hfollows.disk, hdisk]
  · rcases hlease : r.state.tables.sender.get? key with _ | lease
    · rw [hlease, Option.elim_none] at hover
      omega
    · rw [hlease, Option.elim_some] at hover
      refine reserve_exhausted hgood hlease ?_
      by_contra hsome
      obtain ⟨b, hb⟩ := Option.ne_none_iff_exists'.1 hsome
      obtain ⟨hfirst, -, hlast, hmax, -⟩ := allocate_spec hb
      rw [Option.elim_some] at hfirst
      omega

end Rings
