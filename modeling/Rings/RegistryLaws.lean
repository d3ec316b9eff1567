import Rings.ConnectionRegistry

/-!
The laws of the connection registry over any sequence of its transitions.

Every transition replaces the record of one peer together with its signaling state, or removes
overdue records, so the invariants are proved once for such a replacement. The reservation is
the only transition that asks whether the registry is closed; the yield, which also allocates a
generation, does not.
-/

namespace Rings

open PeerConnectionLifecycle

namespace ConnectionLifecycleRegistry

variable {r r' : ConnectionLifecycleRegistry} {a : PendingConnectionAttempt} {p q : Did}

/-! ### Transitions -/

/-- A call of a transition. The action of a retirement sees the active set, and fails,
declines or commits. -/
inductive RegistryEvent
  | reserveFor (peer : Did) (nowMs : ℤ) (handshake : Handshake)
  | beginAdmission (a : PendingConnectionAttempt)
  | activate (a : PendingConnectionAttempt)
  | markSendTerminal (a : PendingConnectionAttempt)
  | replacePendingIn (a : PendingConnectionAttempt) (observed : Handshake) (nowMs : ℤ)
  | markOfferSent (a : PendingConnectionAttempt) (sdp : String) (txId : Uuid)
  | markOfferAnswered (a : PendingConnectionAttempt) (txId : Option Uuid)
  | removePending (a : PendingConnectionAttempt)
  | removeUnadmitted (a : PendingConnectionAttempt)
  | retireActiveIf (a : PendingConnectionAttempt)
      (action : List (Did × PendingConnectionAttempt) → Except Unit (Option Unit))
  | expire (nowMs : ℤ)
  | close

def RegistryEvent.peer? : RegistryEvent → Option Did
  | reserveFor peer _ _ => some peer
  | expire _ | close => none
  | beginAdmission a | activate a | markSendTerminal a | replacePendingIn a _ _
  | markOfferSent a _ _ | markOfferAnswered a _ | removePending a | removeUnadmitted a
  | retireActiveIf a _ => some a.peer

def RegistryEvent.attempt? : RegistryEvent → Option PendingConnectionAttempt
  | reserveFor .. | expire _ | close => none
  | beginAdmission a | activate a | markSendTerminal a | replacePendingIn a _ _
  | markOfferSent a _ _ | markOfferAnswered a _ | removePending a | removeUnadmitted a
  | retireActiveIf a _ => some a

def step (r : ConnectionLifecycleRegistry) : RegistryEvent → ConnectionLifecycleRegistry
  | .reserveFor peer nowMs handshake =>
    match r.reserveFor peer nowMs handshake with
    | .ok (_, r') => r'
    | .error _ => r
  | .beginAdmission a => (r.beginAdmission a).2
  | .activate a =>
    match r.admittingConnection a with
    | some c => c.activate
    | none => r
  | .markSendTerminal a => (r.markSendTerminal a).2
  | .replacePendingIn a observed nowMs =>
    match r.replacePendingIn a observed nowMs with
    | .ok (_, r') => r'
    | .error _ => r
  | .markOfferSent a sdp txId => (r.markOfferSent a sdp txId).2
  | .markOfferAnswered a txId => (r.markOfferAnswered a txId).2
  | .removePending a => (r.removePending a).2
  | .removeUnadmitted a => (r.removeUnadmitted a).2
  | .retireActiveIf a action =>
    match r.retireActiveIf a action with
    | .ok (_, r') => r'
    | .error _ => r
  | .expire nowMs => (r.expire nowMs).2
  | .close => r.close.2

def allocated (r : ConnectionLifecycleRegistry) : RegistryEvent → Option PendingConnectionAttempt
  | .reserveFor peer nowMs handshake =>
    match r.reserveFor peer nowMs handshake with
    | .ok (a, _) => some a
    | .error _ => none
  | .replacePendingIn a observed nowMs =>
    match r.replacePendingIn a observed nowMs with
    | .ok (answering, _) => answering
    | .error _ => none
  | _ => none

def run (r : ConnectionLifecycleRegistry) (es : List RegistryEvent) : ConnectionLifecycleRegistry :=
  es.foldl step r

def generations (r : ConnectionLifecycleRegistry) : List RegistryEvent → List ℕ
  | [] => []
  | e :: es => ((r.allocated e).map (·.generation)).toList ++ (r.step e).generations es

/-- `a` owns the slot of its peer, in any phase. -/
def OwnsSlot (r : ConnectionLifecycleRegistry) (a : PendingConnectionAttempt) : Prop :=
  (r.state a.peer).map attempt = some a

/-! ### One record replaced -/

/-- The record of `p` and its signaling state put at `o` and `h`. -/
def setRecord (r : ConnectionLifecycleRegistry) (p : Did) (o : Option PeerConnectionLifecycle)
    (h : Option Handshake) : ConnectionLifecycleRegistry :=
  { r with peers := r.peers.replace p o, handshakes := r.handshakes.replace p h }

section SetRecord

variable (r) (o : Option PeerConnectionLifecycle) (h : Option Handshake)

@[simp] lemma setRecord_peers : (r.setRecord p o h).peers = r.peers.replace p o := rfl
@[simp] lemma setRecord_handshakes : (r.setRecord p o h).handshakes = r.handshakes.replace p h := rfl
@[simp] lemma setRecord_bounds : (r.setRecord p o h).bounds = r.bounds := rfl

lemma removeRecord_eq : r.removeRecord p = r.setRecord p none none := rfl

end SetRecord

/-- What one call can do, about which peer and under which guard. -/
inductive Moves (r : ConnectionLifecycleRegistry) :
    Option Did → ConnectionLifecycleRegistry → Prop
  | stay (o : Option Did) : Moves r o r
  | close : Moves r none { r with closed := true }
  | reserve (a : PendingConnectionAttempt) (t : ℤ) (h : Handshake) (hopen : r.closed = false)
      (hfree : r.peers.get? a.peer = none) (hpending : r.pendingLen < r.bounds.pending)
      (htotal : r.peers.size < r.bounds.total) (hgen : a.generation = r.nextGeneration + 1) :
      Moves r (some a.peer) ({ r with nextGeneration := a.generation }.setRecord a.peer
        (some (.pending a t)) (some h))
  | yield (a b : PendingConnectionAttempt) (t u : ℤ) (hpeer : b.peer = a.peer)
      (hrecord : r.peers.get? a.peer = some (.pending a t))
      (hgen : b.generation = r.nextGeneration + 1) :
      Moves r (some a.peer) ({ r with nextGeneration := b.generation }.setRecord b.peer
        (some (.pending b u)) (some .answering))
  | signal (a : PendingConnectionAttempt) (t : ℤ) (h : Handshake)
      (hrecord : r.peers.get? a.peer = some (.pending a t)) :
      Moves r (some a.peer) { r with handshakes := r.handshakes.insert a.peer h }
  | begin (a : PendingConnectionAttempt) (t : ℤ)
      (hrecord : r.peers.get? a.peer = some (.pending a t)) :
      Moves r (some a.peer) (r.setRecord a.peer (some (.admitting a t)) none)
  | activate (a : PendingConnectionAttempt) (t : ℤ)
      (hrecord : r.peers.get? a.peer = some (.admitting a t)) :
      Moves r (some a.peer) (r.setRecord a.peer (some (.active a)) (r.handshakes.get? a.peer))
  | terminal (a : PendingConnectionAttempt) (hrecord : r.peers.get? a.peer = some (.active a)) :
      Moves r (some a.peer) { r with sendTerminal := insert a r.sendTerminal }
  | remove (a : PendingConnectionAttempt) (s : PeerConnectionLifecycle)
      (hrecord : r.peers.get? a.peer = some s) (hs : s.isUnadmitted = true) :
      Moves r (some a.peer) (r.removeRecord a.peer)
  | retire (a : PendingConnectionAttempt) (hrecord : r.peers.get? a.peer = some (.active a)) :
      Moves r (some a.peer) { r.removeRecord a.peer with sendTerminal := r.sendTerminal.erase a }
  | expire (nowMs : ℤ) : Moves r none (r.expire nowMs).2

/-! ### What one call can do -/

lemma pendingAttempt_eq_some : r.pendingAttempt p = some a ↔
    ∃ t, r.peers.get? p = some (.pending a t) := by
  unfold pendingAttempt state
  cases r.peers.get? p with
  | none => simp
  | some s => cases s <;> simp

lemma unadmittedAttempt_eq_some : r.unadmittedAttempt p = some a ↔
    ∃ s, r.peers.get? p = some s ∧ s.isUnadmitted = true ∧ s.attempt = a := by
  unfold unadmittedAttempt state
  cases r.peers.get? p with
  | none => simp
  | some s => cases s <;> simp

lemma ownsActiveSlot_iff : r.ownsActiveSlot a = true ↔
    r.peers.get? a.peer = some (.active a) := by
  unfold ownsActiveSlot activeAttempt state
  cases r.peers.get? a.peer with
  | none => simp
  | some s => cases s <;> simp

lemma handshake_eq_some {h : Handshake} : r.handshake a = some h ↔
    (∃ t, r.peers.get? a.peer = some (.pending a t)) ∧ r.handshakes.get? a.peer = some h := by
  unfold handshake
  rw [← pendingAttempt_eq_some]
  split <;> simp [*]

lemma reservationVerdict_admissible : r.reservationVerdict p = .admissible ↔
    r.closed = false ∧ r.peers.get? p = none ∧ r.pendingLen < r.bounds.pending ∧
      r.peers.size < r.bounds.total := by
  unfold reservationVerdict contains
  simp only [Option.isSome_iff_ne_none]
  split_ifs <;> simp_all

lemma nextAttempt_eq (r : ConnectionLifecycleRegistry) (p : Did) : r.nextAttempt p =
    if r.nextGeneration < u64Max then
      .ok (⟨p, r.nextGeneration + 1⟩, { r with nextGeneration := r.nextGeneration + 1 })
    else .error .pendingConnectionGenerationExhausted := by
  unfold nextAttempt checkedAdd
  by_cases h : r.nextGeneration < u64Max
  · rw [if_pos (by omega), if_pos h]
  · rw [if_neg (by omega), if_neg h]

lemma reserveFor_eq (r : ConnectionLifecycleRegistry) (p : Did) (t : ℤ) (h : Handshake)
    {r' : ConnectionLifecycleRegistry} (he : r.reserveFor p t h = .ok (a, r')) :
    r.reservationVerdict p = .admissible ∧ a = ⟨p, r.nextGeneration + 1⟩ ∧
      r' = { r with nextGeneration := r.nextGeneration + 1 }.setRecord p
        (some (.pending a t)) (some h) := by
  unfold reserveFor at he
  split at he
  · cases he
  · cases he
  · cases he
  · cases he
  · rename_i hverdict
    rw [nextAttempt_eq] at he
    split at he
    · cases he
      exact ⟨hverdict, rfl, rfl⟩
    · cases he

lemma replacePendingIn_eq (r : ConnectionLifecycleRegistry) (a : PendingConnectionAttempt)
    (observed : Handshake) (t : ℤ) : r.replacePendingIn a observed t =
    if r.handshake a ≠ some observed then .ok (none, r)
    else if r.nextGeneration < u64Max then
      .ok (some ⟨a.peer, r.nextGeneration + 1⟩,
        { r with nextGeneration := r.nextGeneration + 1 }.setRecord a.peer
          (some (.pending ⟨a.peer, r.nextGeneration + 1⟩ t)) (some .answering))
    else .error .pendingConnectionGenerationExhausted := by
  unfold replacePendingIn
  rw [nextAttempt_eq]
  split_ifs <;> rfl

lemma advanceHandshake_cases (r : ConnectionLifecycleRegistry) (a : PendingConnectionAttempt)
    (f : Handshake → Option Handshake) : r.advanceHandshake a f = (false, r) ∨
    ∃ h h', r.handshake a = some h ∧ f h = some h' ∧
      r.advanceHandshake a f = (true, { r with handshakes := r.handshakes.insert a.peer h' }) := by
  unfold advanceHandshake
  by_cases hp : r.pendingAttempt a.peer = some a
  · rw [if_neg (not_not.2 hp)]
    cases hh : r.handshakes.get? a.peer with
    | none => exact Or.inl rfl
    | some h =>
      cases hf : f h with
      | none => exact Or.inl (by simp [hf])
      | some h' => exact Or.inr ⟨h, h', by rw [handshake, if_pos hp, hh], hf, by simp [hf]⟩
  · exact Or.inl (if_pos hp)

/-- Every call is one of the moves. -/
theorem step_moves (r : ConnectionLifecycleRegistry) (e : RegistryEvent) :
    Moves r e.peer? (r.step e) := by
  cases e with
  | reserveFor peer t h =>
    rw [step]
    cases he : r.reserveFor peer t h with
    | error _ => exact .stay _
    | ok res =>
      obtain ⟨a, r'⟩ := res
      obtain ⟨hverdict, rfl, rfl⟩ := reserveFor_eq r peer t h he
      obtain ⟨hopen, hfree, hpending, htotal⟩ := reservationVerdict_admissible.1 hverdict
      exact .reserve ⟨peer, r.nextGeneration + 1⟩ t h hopen hfree hpending htotal rfl
  | beginAdmission a =>
    rw [step]
    unfold beginAdmission
    split
    · rename_i current t hrecord
      split
      · exact .stay _
      · rename_i hcurrent
        obtain rfl := not_not.1 hcurrent
        exact .begin _ t hrecord
    all_goals exact .stay _
  | activate a =>
    rw [step]
    unfold admittingConnection
    cases hrecord : r.peers.get? a.peer with
    | none => exact .stay _
    | some s =>
      cases s with
      | pending => exact .stay _
      | active => exact .stay _
      | admitting current t =>
        by_cases hcurrent : current = a
        · subst hcurrent
          have hmove := Moves.activate _ t hrecord
          rw [setRecord, BTreeMap.replace_get?] at hmove
          simp only [reduceIte]
          exact hmove
        · simpa only [hcurrent, reduceIte] using Moves.stay _
  | markSendTerminal a =>
    rw [step]
    unfold markSendTerminal
    split
    · exact .stay _
    · rename_i howns
      exact .terminal a (ownsActiveSlot_iff.1 (by simpa using howns))
  | replacePendingIn a observed t =>
    rw [step]
    rw [replacePendingIn_eq]
    by_cases hobs : r.handshake a = some observed
    · obtain ⟨⟨t', hrecord⟩, -⟩ := handshake_eq_some.1 hobs
      rw [if_neg (not_not.2 hobs)]
      split_ifs
      · exact .yield a ⟨a.peer, r.nextGeneration + 1⟩ t' t rfl hrecord rfl
      · exact .stay _
    · rw [if_pos hobs]
      exact .stay _
  | markOfferSent a sdp txId =>
    rw [step]
    unfold markOfferSent
    rcases advanceHandshake_cases r a _ with he | ⟨h, h', hh, -, he⟩
    · rw [he]
      exact .stay _
    · rw [he]
      obtain ⟨⟨t, hrecord⟩, -⟩ := handshake_eq_some.1 hh
      exact .signal a t h' hrecord
  | markOfferAnswered a txId =>
    rw [step]
    unfold markOfferAnswered
    rcases advanceHandshake_cases r a _ with he | ⟨h, h', hh, -, he⟩
    · rw [he]
      exact .stay _
    · rw [he]
      obtain ⟨⟨t, hrecord⟩, -⟩ := handshake_eq_some.1 hh
      exact .signal a t h' hrecord
  | removePending a =>
    rw [step]
    unfold removePending state
    split
    · rename_i current t hrecord
      split
      · exact .remove a _ hrecord rfl
      · exact .stay _
    all_goals exact .stay _
  | removeUnadmitted a =>
    rw [step]
    unfold removeUnadmitted
    split
    · exact .stay _
    · rename_i hattempt
      obtain ⟨s, hrecord, hs, -⟩ := unadmittedAttempt_eq_some.1 (not_not.1 hattempt)
      exact .remove a s hrecord hs
  | retireActiveIf a action =>
    rw [step]
    unfold retireActiveIf
    by_cases howns : r.ownsActiveSlot a = true
    · rw [howns, if_neg (by simp)]
      cases action r.activeConnections with
      | error _ => exact .stay _
      | ok value =>
        cases value with
        | none => exact .stay _
        | some _ => exact .retire a (ownsActiveSlot_iff.1 howns)
    · rw [if_pos (by simpa using howns)]
      exact .stay _
  | expire nowMs => exact .expire nowMs
  | close => exact .close

/-! ### Invariants -/

/-- The collections of a registry are in step: a record lies under its own peer, a signaling
state belongs to a pending record, a send-terminal generation is active, and both bounds hold. -/
structure Lawful (r : ConnectionLifecycleRegistry) : Prop where
  keyed : ∀ p s, r.peers.get? p = some s → s.attempt.peer = p
  signaling : ∀ p, (r.handshakes.get? p).isSome ↔ ∃ a t, r.peers.get? p = some (.pending a t)
  terminal : ∀ a ∈ r.sendTerminal, r.peers.get? a.peer = some (.active a)
  pendingBound : r.pendingLen ≤ r.bounds.pending
  totalBound : r.peers.size ≤ r.bounds.total

lemma new_lawful (b : LifecycleBounds) : (new b).Lawful where
  keyed := by simp [new]
  signaling := by simp [new]
  terminal := by simp [new]
  pendingBound := Nat.zero_le _
  totalBound := Nat.zero_le _

def unadmittedWeight (o : Option PeerConnectionLifecycle) : ℕ :=
  o.elim 0 fun s => s.isUnadmitted.toNat

lemma setRecord_pendingLen (r : ConnectionLifecycleRegistry) (o : Option PeerConnectionLifecycle)
    (h : Option Handshake) : (r.setRecord p o h).pendingLen + unadmittedWeight (r.peers.get? p) =
      r.pendingLen + unadmittedWeight o :=
  BTreeMap.countBy_replace r.peers _ p o

lemma setRecord_size (r : ConnectionLifecycleRegistry) (o : Option PeerConnectionLifecycle)
    (h : Option Handshake) : (r.setRecord p o h).peers.size + (r.peers.get? p).isSome.toNat =
      r.peers.size + o.isSome.toNat := by
  have hcount := BTreeMap.countBy_replace r.peers (fun _ => true) p o
  rw [← BTreeMap.size_eq_countBy, ← BTreeMap.size_eq_countBy] at hcount
  cases o <;> cases hp : r.peers.get? p <;> simpa [hp] using hcount

/-- A record replaced under the same peer keeps the registry lawful while it weighs no more
than the old one, or finds room. -/
lemma Lawful.setRecord (hr : r.Lawful) {o : Option PeerConnectionLifecycle} {h : Option Handshake}
    (hkey : ∀ s, o = some s → s.attempt.peer = p)
    (hsig : h.isSome ↔ ∃ a t, o = some (.pending a t))
    (hterm : ∀ a ∈ r.sendTerminal, a.peer = p → o = some (.active a))
    (hpending : r.pendingLen + unadmittedWeight o ≤
      r.bounds.pending + unadmittedWeight (r.peers.get? p))
    (htotal : r.peers.size + o.isSome.toNat ≤
      r.bounds.total + (r.peers.get? p).isSome.toNat) : (r.setRecord p o h).Lawful where
  keyed q s hs := by
    rw [setRecord_peers, BTreeMap.get?_replace] at hs
    split at hs
    · rename_i hq
      rw [hq, hkey s hs]
    · exact hr.keyed q s hs
  signaling q := by
    rw [setRecord_peers, setRecord_handshakes, BTreeMap.get?_replace, BTreeMap.get?_replace]
    split
    · exact hsig
    · exact hr.signaling q
  terminal a ha := by
    rw [setRecord_peers, BTreeMap.get?_replace]
    split
    · exact hterm a ha ‹_›
    · exact hr.terminal a ha
  pendingBound := by
    have hcount := setRecord_pendingLen (p := p) r o h
    rw [setRecord_bounds]
    omega
  totalBound := by
    have hcount := setRecord_size (p := p) r o h
    rw [setRecord_bounds]
    omega

/-- The counter of generations alone says nothing about the records. -/
lemma Lawful.nextGeneration (hr : r.Lawful) (n : ℕ) : { r with nextGeneration := n }.Lawful where
  keyed := hr.keyed
  signaling := hr.signaling
  terminal := hr.terminal
  pendingBound := hr.pendingBound
  totalBound := hr.totalBound

/-- No send-terminal generation stands where a record is not active. -/
lemma Lawful.notTerminal (hr : r.Lawful) (hp : ∀ a, r.peers.get? p ≠ some (.active a)) :
    ∀ a ∈ r.sendTerminal, a.peer ≠ p := by
  rintro a ha rfl
  exact hp a (hr.terminal a ha)

lemma Lawful.removeRecord (hr : r.Lawful) (hp : ∀ a, r.peers.get? p ≠ some (.active a)) :
    (r.removeRecord p).Lawful := by
  rw [removeRecord_eq]
  refine hr.setRecord (by simp) (by simp) (fun a ha hap => ?_) ?_ ?_
  · exact absurd hap (hr.notTerminal hp a ha)
  · have := hr.pendingBound
    simp only [unadmittedWeight, Option.elim_none]
    omega
  · have := hr.totalBound
    simp only [Option.isSome_none, Bool.toNat_false]
    omega

lemma get?_removeRecord : (r.removeRecord p).peers.get? q =
    if q = p then none else r.peers.get? q := by
  by_cases hq : q = p <;> simp [removeRecord, BTreeMap.get?_remove, hq]

/-- Overdue records are not active, and stay so while others are removed. -/
lemma Lawful.removeRecords {ps : List ExpiredUnadmittedPeer} : ∀ {r : ConnectionLifecycleRegistry},
    r.Lawful → (∀ e ∈ ps, ∀ a, r.peers.get? e.attempt.peer ≠ some (.active a)) →
    (ps.foldl (fun r e => r.removeRecord e.attempt.peer) r).Lawful := by
  induction ps with
  | nil => exact fun hr _ => hr
  | cons e ps ih =>
    intro r hr hps
    refine ih (hr.removeRecord (hps e (by simp))) fun e' he' a => ?_
    rw [get?_removeRecord]
    split
    · simp
    · exact hps e' (List.mem_cons_of_mem _ he') a

lemma expired?_eq_some {nowMs : ℤ} {s : PeerConnectionLifecycle} {e : ExpiredUnadmittedPeer}
    (h : expired? nowMs s = some e) : s.isUnadmitted = true ∧ e.attempt = s.attempt := by
  unfold expired? expired?.overdue at h
  cases s with
  | pending a t =>
    simp only [Option.ite_none_right_eq_some, Option.some.injEq] at h
    exact ⟨rfl, by rw [← h.2, attempt_pending]⟩
  | admitting a t =>
    simp only [Option.ite_none_right_eq_some, Option.some.injEq] at h
    exact ⟨rfl, by rw [← h.2, attempt_admitting]⟩
  | active a => cases h

/-- What `expire` removes is a record of its own peer that was never admitted. -/
lemma Lawful.expired (hr : r.Lawful) {nowMs : ℤ} {e : ExpiredUnadmittedPeer}
    (he : e ∈ (r.expire nowMs).1) :
    ∃ s, r.peers.get? e.attempt.peer = some s ∧ s.isUnadmitted = true ∧ e.attempt = s.attempt := by
  obtain ⟨kv, hkv, hs⟩ := List.mem_filterMap.1 he
  obtain ⟨hun, hattempt⟩ := expired?_eq_some hs
  have hget : r.peers.get? kv.1 = some kv.2 := (BTreeMap.mem_entries r.peers).1 hkv
  refine ⟨kv.2, ?_, hun, hattempt⟩
  rw [hattempt, hr.keyed _ _ hget, hget]

/-- One move keeps the registry lawful. -/
theorem Lawful.moves (hr : r.Lawful) {o : Option Did} (hm : Moves r o r') : r'.Lawful := by
  have hpending := hr.pendingBound
  have htotal := hr.totalBound
  cases hm with
  | stay => exact hr
  | close => exact ⟨hr.keyed, hr.signaling, hr.terminal, hr.pendingBound, hr.totalBound⟩
  | reserve a t h hopen hfree hp ht hgen =>
    refine (hr.nextGeneration a.generation).setRecord (by simp) (by simp) ?_ ?_ ?_
    · intro b hb hbp
      exact absurd hbp (hr.notTerminal (by simp [hfree]) b hb)
    · change r.pendingLen + 1 ≤ r.bounds.pending + unadmittedWeight (r.peers.get? a.peer)
      omega
    · change r.peers.size + 1 ≤ r.bounds.total + (r.peers.get? a.peer).isSome.toNat
      omega
  | yield a b t u hpeer hrecord hgen =>
    refine (hr.nextGeneration b.generation).setRecord (by simp) (by simp) ?_ ?_ ?_
    · intro c hc hcp
      exact absurd (hcp.trans hpeer) (hr.notTerminal (by simp [hrecord]) c hc)
    · change r.pendingLen + 1 ≤ r.bounds.pending + unadmittedWeight (r.peers.get? b.peer)
      simpa [unadmittedWeight, hpeer, hrecord] using hpending
    · simpa [hpeer, hrecord] using htotal
  | signal a t h hrecord =>
    have hset : { r with handshakes := r.handshakes.insert a.peer h } =
        r.setRecord a.peer (r.peers.get? a.peer) (some h) := by
      rw [ConnectionLifecycleRegistry.setRecord, BTreeMap.replace_get?]
      rfl
    rw [hset]
    refine hr.setRecord (hr.keyed a.peer) (by simp [hrecord]) ?_ (by omega) (by omega)
    intro b hb hbp
    rw [← hbp, hr.terminal b hb]
  | begin a t hrecord =>
    refine hr.setRecord (by simp) (by simp) ?_ ?_ ?_
    · intro b hb hbp
      exact absurd hbp (hr.notTerminal (by simp [hrecord]) b hb)
    · simpa [unadmittedWeight, hrecord] using hpending
    · simpa [hrecord] using htotal
  | activate a t hrecord =>
    refine hr.setRecord (by simp) ?_ ?_ ?_ ?_
    · rw [hr.signaling]
      simp [hrecord]
    · intro b hb hbp
      exact absurd hbp (hr.notTerminal (by simp [hrecord]) b hb)
    · simp only [unadmittedWeight, hrecord, Option.elim_some, isUnadmitted_active,
        isUnadmitted_admitting, Bool.toNat_false, Bool.toNat_true]
      omega
    · simpa [hrecord] using htotal
  | terminal a hrecord =>
    refine ⟨hr.keyed, hr.signaling, fun b hb => ?_, hr.pendingBound, hr.totalBound⟩
    rcases Finset.mem_insert.1 hb with rfl | hb
    · exact hrecord
    · exact hr.terminal b hb
  | remove a s hrecord hs =>
    refine hr.removeRecord fun b hb => ?_
    rw [hrecord] at hb
    cases hb
    cases hs
  | retire a hrecord =>
    have herase : { r with sendTerminal := r.sendTerminal.erase a }.Lawful :=
      ⟨hr.keyed, hr.signaling, fun b hb => hr.terminal b (Finset.mem_of_mem_erase hb),
        hr.pendingBound, hr.totalBound⟩
    refine herase.setRecord (p := a.peer) (o := none) (h := none) (by simp) (by simp) ?_ ?_ ?_
    · intro b hb hbp
      have hactive := hr.terminal b (Finset.mem_of_mem_erase hb)
      rw [hbp, hrecord] at hactive
      cases hactive
      exact absurd rfl (Finset.ne_of_mem_erase hb)
    · exact Nat.le_trans hpending (Nat.le_add_right _ _)
    · exact Nat.le_trans htotal (Nat.le_add_right _ _)
  | expire nowMs =>
    refine hr.removeRecords fun e he a hactive => ?_
    obtain ⟨s, hget, hun, -⟩ := hr.expired he
    rw [hactive] at hget
    cases hget
    cases hun

theorem Lawful.step (hr : r.Lawful) (e : RegistryEvent) : (r.step e).Lawful :=
  hr.moves (step_moves r e)

theorem Lawful.run (hr : r.Lawful) (es : List RegistryEvent) : (r.run es).Lawful := by
  induction es generalizing r with
  | nil => exact hr
  | cons e es ih => exact ih (hr.step e)

/-! ### Frame, stale attempts and the counter -/

lemma removeRecords_fields (ps : List ExpiredUnadmittedPeer) (r : ConnectionLifecycleRegistry) :
    let r' := ps.foldl (fun r e => r.removeRecord e.attempt.peer) r
    r'.bounds = r.bounds ∧ r'.nextGeneration = r.nextGeneration ∧ r'.closed = r.closed ∧
      ∀ q, r'.peers.get? q ≠ none → r.peers.get? q ≠ none := by
  induction ps generalizing r with
  | nil => exact ⟨rfl, rfl, rfl, fun _ h => h⟩
  | cons e ps ih =>
    obtain ⟨hb, hn, hc, hp⟩ := ih (r.removeRecord e.attempt.peer)
    refine ⟨hb, hn, hc, fun q hq => ?_⟩
    have hkept := hp q hq
    rw [get?_removeRecord] at hkept
    split at hkept
    · exact absurd rfl hkept
    · exact hkept

/-- A call about one peer leaves the records of the others. -/
theorem Moves.frame (hm : Moves r (some p) r') (hq : q ≠ p) :
    r'.peers.get? q = r.peers.get? q ∧ r'.handshakes.get? q = r.handshakes.get? q := by
  cases hm with
  | stay => exact ⟨rfl, rfl⟩
  | reserve => simp [hq]
  | yield a b t u hpeer => simp [hpeer, hq]
  | signal => exact ⟨rfl, by simp [BTreeMap.get?_insert, hq]⟩
  | begin => simp [hq]
  | activate => simp [hq]
  | terminal => exact ⟨rfl, rfl⟩
  | remove => simp [removeRecord_eq, hq]
  | retire => simp [removeRecord_eq, hq]

variable {o : Option Did}

lemma Moves.bounds_eq (hm : Moves r o r') : r'.bounds = r.bounds := by
  cases hm with
  | expire nowMs => exact (removeRecords_fields _ r).1
  | _ => rfl

lemma Moves.nextGeneration_le (hm : Moves r o r') : r.nextGeneration ≤ r'.nextGeneration := by
  cases hm with
  | expire nowMs => exact (removeRecords_fields _ r).2.1.ge
  | reserve a t h _ _ _ _ hgen => exact hgen ▸ Nat.le_succ r.nextGeneration
  | yield a b t u _ _ hgen => exact hgen ▸ Nat.le_succ r.nextGeneration
  | _ => exact le_rfl

/-- A closed registry stays closed, and holds no peer it did not hold. -/
lemma Moves.shrinks (hm : Moves r o r') (hclosed : r.closed = true) : r'.closed = true ∧
    ∀ q, r'.peers.get? q ≠ none → r.peers.get? q ≠ none := by
  cases hm with
  | stay => exact ⟨hclosed, fun _ h => h⟩
  | close => exact ⟨rfl, fun _ h => h⟩
  | reserve a t h hopen => simp [hclosed] at hopen
  | expire nowMs =>
    obtain ⟨-, -, hc, hp⟩ := removeRecords_fields (r.expire nowMs).1 r
    exact ⟨hc.trans hclosed, hp⟩
  | signal => exact ⟨hclosed, fun _ h => h⟩
  | terminal => exact ⟨hclosed, fun _ h => h⟩
  | yield a b t u hpeer hrecord =>
    refine ⟨hclosed, fun q hq => ?_⟩
    by_cases h : q = b.peer <;> simp_all
  | begin a t hrecord =>
    refine ⟨hclosed, fun q hq => ?_⟩
    by_cases h : q = a.peer <;> simp_all
  | activate a t hrecord =>
    refine ⟨hclosed, fun q hq => ?_⟩
    by_cases h : q = a.peer <;> simp_all
  | remove a s hrecord =>
    refine ⟨hclosed, fun q hq => ?_⟩
    by_cases h : q = a.peer <;> simp_all [removeRecord_eq]
  | retire a hrecord =>
    refine ⟨hclosed, fun q hq => ?_⟩
    by_cases h : q = a.peer <;> simp_all [removeRecord_eq]

lemma attempt_ne_of_not_owns (ha : ¬r.OwnsSlot a) {s : PeerConnectionLifecycle}
    (hs : r.peers.get? a.peer = some s) : s.attempt ≠ a := by
  rintro rfl
  exact ha (by rw [OwnsSlot, state, hs]; rfl)

lemma handshake_eq_none_of_not_owns (ha : ¬r.OwnsSlot a) : r.handshake a = none := by
  cases hh : r.handshake a with
  | none => rfl
  | some h =>
    obtain ⟨⟨t, hrecord⟩, -⟩ := handshake_eq_some.1 hh
    exact absurd rfl (attempt_ne_of_not_owns ha hrecord)

/-- A call with an attempt that does not own the slot of its peer changes nothing. -/
theorem step_eq_of_not_owns {e : RegistryEvent} (he : e.attempt? = some a)
    (ha : ¬r.OwnsSlot a) : r.step e = r := by
  have hactive : r.ownsActiveSlot a = false := by
    rw [Bool.eq_false_iff, Ne, ownsActiveSlot_iff]
    exact fun h => attempt_ne_of_not_owns ha h rfl
  have hadvance : ∀ f, r.advanceHandshake a f = (false, r) := by
    intro f
    rcases advanceHandshake_cases r a f with h | ⟨h, h', hh, -⟩
    · exact h
    · rw [handshake_eq_none_of_not_owns ha] at hh
      cases hh
  cases e with
  | reserveFor | expire | close => cases he
  | beginAdmission b =>
    cases he
    rw [step]
    unfold beginAdmission
    split
    · rename_i current t hrecord
      have hne : current ≠ a := attempt_ne_of_not_owns ha hrecord
      rw [if_pos hne]
    all_goals rfl
  | activate b =>
    cases he
    rw [step]
    unfold admittingConnection
    cases hrecord : r.peers.get? a.peer with
    | none => rfl
    | some s =>
      cases s with
      | pending => rfl
      | active => rfl
      | admitting current t =>
        have hne : current ≠ a := attempt_ne_of_not_owns ha hrecord
        simp only [hne, reduceIte]
  | markSendTerminal b =>
    cases he
    rw [step, markSendTerminal, hactive]
    rfl
  | replacePendingIn b observed t =>
    cases he
    rw [step, replacePendingIn_eq, handshake_eq_none_of_not_owns ha]
    rfl
  | markOfferSent b sdp txId =>
    cases he
    rw [step, markOfferSent, hadvance]
  | markOfferAnswered b txId =>
    cases he
    rw [step, markOfferAnswered, hadvance]
  | removePending b =>
    cases he
    rw [step]
    unfold removePending state
    split
    · rename_i current t hrecord
      have hne : current ≠ a := attempt_ne_of_not_owns ha hrecord
      rw [if_neg hne]
    all_goals rfl
  | removeUnadmitted b =>
    cases he
    rw [step, removeUnadmitted, if_pos]
    intro hattempt
    obtain ⟨s, hrecord, -, hs⟩ := unadmittedAttempt_eq_some.1 hattempt
    exact attempt_ne_of_not_owns ha hrecord hs
  | retireActiveIf b action =>
    cases he
    rw [step, retireActiveIf, hactive]
    rfl

lemma generation_of_allocated {e : RegistryEvent} (h : r.allocated e = some a) :
    a.generation = r.nextGeneration + 1 ∧ (r.step e).nextGeneration = a.generation := by
  cases e with
  | reserveFor peer t hs =>
    rw [step]
    rw [allocated] at h
    cases hres : r.reserveFor peer t hs with
    | error _ => simp [hres] at h
    | ok res =>
      obtain ⟨b, r'⟩ := res
      obtain ⟨-, rfl, rfl⟩ := reserveFor_eq r peer t hs hres
      simp only [hres, Option.some.injEq] at h
      rw [← h]
      exact ⟨rfl, rfl⟩
  | replacePendingIn b observed t =>
    rw [step]
    rw [allocated] at h
    rw [replacePendingIn_eq] at h ⊢
    split_ifs at h ⊢ with hobs hlt
    cases h
    exact ⟨rfl, rfl⟩
  | _ => cases h

/-- The generations of a run are new, and each is greater than those before it. -/
theorem generations_increasing (r : ConnectionLifecycleRegistry) (es : List RegistryEvent) :
    (∀ g ∈ r.generations es, r.nextGeneration < g) ∧ (r.generations es).Pairwise (· < ·) := by
  induction es generalizing r with
  | nil => simp [generations]
  | cons e es ih =>
    obtain ⟨hnew, hsorted⟩ := ih (r.step e)
    have hmono := (step_moves r e).nextGeneration_le
    rw [generations]
    cases he : r.allocated e with
    | none =>
      simp only [Option.map_none, Option.toList_none, List.nil_append]
      exact ⟨fun g hg => by have := hnew g hg; omega, hsorted⟩
    | some a =>
      obtain ⟨hgen, hnext⟩ := generation_of_allocated he
      simp only [Option.map_some, Option.toList_some, List.singleton_append, List.mem_cons,
        List.pairwise_cons]
      refine ⟨?_, fun g hg => by have := hnew g hg; omega, hsorted⟩
      rintro g (rfl | hg)
      · omega
      · have := hnew g hg
        omega

/-- A yield that finds the state it observed, with a generation left to answer under. -/
def Yields (r : ConnectionLifecycleRegistry) (e : RegistryEvent) : Prop :=
  ∃ a observed t, e = .replacePendingIn a observed t ∧ r.handshake a = some observed ∧
    r.nextGeneration < u64Max

lemma allocated_eq_none_iff_of_closed (hclosed : r.closed = true) (e : RegistryEvent) :
    r.allocated e = none ↔ ¬r.Yields e := by
  cases e with
  | reserveFor peer t h =>
    have hverdict : r.reservationVerdict peer = .closed := by rw [reservationVerdict, if_pos hclosed]
    refine iff_of_true ?_ (by simp [Yields])
    rw [allocated, reserveFor, hverdict]
  | replacePendingIn a observed t =>
    rw [allocated, replacePendingIn_eq]
    by_cases hobs : r.handshake a = some observed
    · by_cases hlt : r.nextGeneration < u64Max
      · rw [if_neg (not_not.2 hobs), if_pos hlt]
        exact iff_of_false (by simp) (not_not.2 ⟨a, observed, t, rfl, hobs, hlt⟩)
      · rw [if_neg (not_not.2 hobs), if_neg hlt]
        exact iff_of_true rfl fun ⟨_, _, _, _, _, h⟩ => hlt h
    · rw [if_pos hobs]
      refine iff_of_true rfl ?_
      rintro ⟨_, _, _, he, h, -⟩
      cases he
      exact hobs h
  | _ => exact iff_of_true rfl (by simp [Yields])

/-! ### Whole runs -/

lemma run_bounds (r : ConnectionLifecycleRegistry) (es : List RegistryEvent) :
    (r.run es).bounds = r.bounds := by
  induction es generalizing r with
  | nil => rfl
  | cons e es ih => exact (ih (r.step e)).trans (step_moves r e).bounds_eq

lemma run_closed (es : List RegistryEvent) (hclosed : r.closed = true) :
    (r.run es).closed = true := by
  induction es generalizing r with
  | nil => exact hclosed
  | cons e es ih => exact ih ((step_moves r e).shrinks hclosed).1

lemma closed_of_mem {es : List RegistryEvent} (h : .close ∈ es) : (r.run es).closed = true := by
  induction es generalizing r with
  | nil => cases h
  | cons e es ih =>
    rcases List.mem_cons.1 h with rfl | h
    · exact run_closed es rfl
    · exact ih h

lemma run_concat (r : ConnectionLifecycleRegistry) (es : List RegistryEvent) (e : RegistryEvent) :
    r.run (es ++ [e]) = (r.run es).step e := by
  rw [run, List.foldl_append]
  rfl

/-- What the registry promises of a run: at every prefix, and for the call after it. -/
structure RegistryLaw (b : LifecycleBounds) (es : List RegistryEvent) : Prop where
  bounds : ∀ es', es' <+: es → ((new b).run es').bounds = b
  lawful : ∀ es', es' <+: es → ((new b).run es').Lawful
  increasing : ((new b).generations es).Pairwise (· < ·)
  stale : ∀ es' e, es' ++ [e] <+: es → ∀ a, e.attempt? = some a → ¬((new b).run es').OwnsSlot a →
    (new b).run (es' ++ [e]) = (new b).run es'
  closedAllocates : ∀ es' e, es' ++ [e] <+: es → .close ∈ es' →
    ((new b).run es').allocated e = none
  closedShrinks : ∀ es' e, es' ++ [e] <+: es → .close ∈ es' → ∀ p,
    ((new b).run (es' ++ [e])).peers.get? p ≠ none → ((new b).run es').peers.get? p ≠ none

/-- A run keeps the law of the registry exactly when no yield applies after the close: a
reservation is refused by a closed registry, and the yield does not ask. -/
theorem registryLaw_iff (b : LifecycleBounds) (es : List RegistryEvent) : RegistryLaw b es ↔
    ∀ es' e, es' ++ [e] <+: es → .close ∈ es' → ¬((new b).run es').Yields e := by
  have hiff : ∀ es' e, .close ∈ es' →
      (((new b).run es').allocated e = none ↔ ¬((new b).run es').Yields e) :=
    fun es' e hclose => allocated_eq_none_iff_of_closed (closed_of_mem hclose) e
  constructor
  · intro h es' e hprefix hclose
    exact (hiff es' e hclose).1 (h.closedAllocates es' e hprefix hclose)
  · intro h
    refine ⟨fun es' _ => run_bounds _ es', fun es' _ => (new_lawful b).run es',
      (generations_increasing _ es).2, fun es' e _ a he ha => ?_, fun es' e hprefix hclose => ?_,
      fun es' e _ hclose p => ?_⟩
    · rw [run_concat]
      exact step_eq_of_not_owns he ha
    · exact (hiff es' e hclose).2 (h es' e hprefix hclose)
    · rw [run_concat]
      exact ((step_moves _ e).shrinks (closed_of_mem hclose)).2 p

/-- An offer still being created yields to a crossing one after the close. -/
theorem yield_after_close : ¬∀ b es, RegistryLaw b es := by
  intro h
  have hlaw := (h (.new 1 1) [.reserveFor 1 0 (.offering .overlay .creating), .close,
    .replacePendingIn ⟨1, 1⟩ (.offering .overlay .creating) 0]).closedAllocates
    [.reserveFor 1 0 (.offering .overlay .creating), .close] _ List.prefix_rfl (by simp)
  revert hlaw
  decide

end ConnectionLifecycleRegistry

end Rings
