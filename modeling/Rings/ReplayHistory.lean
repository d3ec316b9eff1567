import Rings.ReplayLaws

/-!
The history of a receiver stream.

A transition either forgets a stream, which its clock reading has passed, or leaves it with every
sequence it has seen, a charge no earlier, and the deliveries in its custody less those that are
spent by that reading or released. So the record of a stream that a batch cut short left on disk,
and the durable stream, say the same of what was released, unless the clock has passed it.
-/

namespace Rings

open GroupCommit

/-- A clock reading within the first `n` steps has reached `x`. -/
def ReadBy (events : List ReplayEvent) (n x : ℕ) : Prop :=
  ∃ i call reading, i < n ∧ events[i]? = some (.call call) ∧ call.readingMs = some reading ∧
    x ≤ reading

/-- A delivery was released within the first `n` steps. -/
def ReleasedBy (events : List ReplayEvent) (n : ℕ) (key : StreamKey) (d : RelayDelivery) : Prop :=
  ∃ i, i < n ∧ events[i]? = some (.call (.releaseRelayed key d))

section Mono

variable {events : List ReplayEvent} {n m x y : ℕ} {key : StreamKey} {d : RelayDelivery}

lemma ReadBy.mono (h : ReadBy events n x) (hnm : n ≤ m) : ReadBy events m x := by
  obtain ⟨i, call, reading, hi, hrest⟩ := h
  exact ⟨i, call, reading, hi.trans_le hnm, hrest⟩

lemma ReadBy.earlier (h : ReadBy events n x) (hyx : y ≤ x) : ReadBy events n y := by
  obtain ⟨i, call, reading, hi, hcall, hread, hx⟩ := h
  exact ⟨i, call, reading, hi, hcall, hread, hyx.trans hx⟩

lemma ReleasedBy.mono (h : ReleasedBy events n key d) (hnm : n ≤ m) :
    ReleasedBy events m key d := by
  obtain ⟨i, hi, hcall⟩ := h
  exact ⟨i, hi.trans_le hnm, hcall⟩

end Mono

/-- What a stream still holds once a transition has left it as `v'`. -/
structure Stream.Extended (call : ReplayCall) (key : StreamKey) (v v' : Stream) : Prop where
  charge : v.charge.spentAtMs ≤ v'.charge.spentAtMs
  seen : ∀ sequence digest, v.window.Seen sequence digest → v'.window.Seen sequence digest
  custody : ∀ d ∈ v.custody, d ∈ v'.custody ∨
    (∃ reading, call.readingMs = some reading ∧ d.spentAtMs ≤ reading) ∨
    call = .releaseRelayed key d

lemma Stream.Extended.refl (call : ReplayCall) (key : StreamKey) (v : Stream) :
    v.Extended call key v :=
  ⟨le_rfl, fun _ _ h => h, fun _ hd => Or.inl hd⟩

/-- A stream whose charge a reading has not passed is only expired by it. -/
lemma retired_cases (call : ReplayCall) (key : StreamKey) {nowMs : ℕ}
    (hread : call.readingMs = some nowMs) (v : Stream) :
    v.charge.spentAtMs ≤ nowMs ∨ v.retired nowMs = some (v.expire nowMs) ∧
      v.Extended call key (v.expire nowMs) := by
  by_cases hspent : v.charge.spentAtMs ≤ nowMs
  · exact Or.inl hspent
  · refine Or.inr ⟨if_neg hspent, le_rfl, fun _ _ h => h, fun d hd => ?_⟩
    by_cases hd' : d.spentAtMs ≤ nowMs
    · exact Or.inr (Or.inl ⟨nowMs, hread, hd'⟩)
    · refine Or.inl (Finset.mem_filter.2 ⟨hd, ?_⟩)
      simpa [RelayDelivery.isSpentAt] using hd'

/-- Entering a transaction keeps what the stream held. -/
lemma Stream.Extended.entered {call : ReplayCall} {key : StreamKey} {v v' : Stream}
    (h : v.Extended call key v') (admission : Admission) (relayed : Option RelayDelivery) :
    v.Extended call key (Replay.entered (some v') admission
      (observe (some v'.window) admission.sequence admission.digest).1 relayed) where
  charge := h.charge.trans ((Replay.le_chargeAfter _ _).2 _ rfl)
  seen := fun sequence digest hs => (h.seen sequence digest hs).observe _ _
  custody := by
    intro d hd
    rcases h.custody d hd with hd | hd
    · left
      cases relayed with
      | none => exact hd
      | some d' => exact Finset.mem_insert_of_mem hd
    · exact Or.inr hd

lemma enteredStreams_self (admission : Admission) (relayed : Option RelayDelivery)
    (t : StreamKey → Option Stream) : enteredStreams admission relayed t admission.key =
      some (Replay.entered (t admission.key) admission (observe
        ((t admission.key).map Stream.window) admission.sequence admission.digest).1 relayed) :=
  Function.update_self _ _ _

/-- An admission forgets a stream its reading has passed, and keeps what any other held. -/
lemma entered_next (call : ReplayCall) {t : StreamKey → Option Stream} {key : StreamKey}
    {v : Stream} {nowMs : ℕ} (hread : call.readingMs = some nowMs) (hv : t key = some v)
    (admission : Admission) (relayed : Option RelayDelivery) :
    v.charge.spentAtMs ≤ nowMs ∨ ∃ v', enteredStreams admission relayed (retiredStreams nowMs t) key =
      some v' ∧ v.Extended call key v' := by
  rcases retired_cases call key hread v with hspent | ⟨hretired, hext⟩
  · exact Or.inl hspent
  · right
    have hkept : retiredStreams nowMs t key = some (v.expire nowMs) := by
      rw [retiredStreams, hv, Option.bind_some, hretired]
    by_cases hk : key = admission.key
    · subst hk
      refine ⟨_, enteredStreams_self _ _ _, ?_⟩
      rw [hkept, Option.map_some]
      exact hext.entered admission relayed
    · refine ⟨v.expire nowMs, ?_, hext⟩
      rw [enteredStreams, Function.update_of_ne hk, hkept]

/-- A transition that goes through forgets a stream its reading has passed, and keeps what any
other held. -/
lemma ReceiverStep.next {t t' : StreamKey → Option Stream} {call : ReplayCall}
    {answer : ReplayAnswer} (h : ReceiverStep t call answer t') {key : StreamKey} {v : Stream}
    (hv : t key = some v) :
    (∃ reading, call.readingMs = some reading ∧ v.charge.spentAtMs ≤ reading) ∨
      ∃ v', t' key = some v' ∧ v.Extended call key v' := by
  cases h with
  | reserve k count first last => exact Or.inr ⟨v, hv, .refl _ _ _⟩
  | tryAdmit admission now permitted =>
    rcases entered_next (.tryAdmit admission now) rfl hv admission none with hspent | hnext
    · exact Or.inl ⟨now.wallMs, rfl, hspent⟩
    · exact Or.inr hnext
  | relayed admission now permitted room =>
    rcases entered_next (.admitRelayed admission now) rfl hv admission
      (some admission.delivery) with hspent | hnext
    · exact Or.inl ⟨now.wallMs, rfl, hspent⟩
    · exact Or.inr hnext
  | inCustody admission now =>
    rcases retired_cases (.admitRelayed admission now) key rfl v with
      hspent | ⟨hretired, hext⟩
    · exact Or.inl ⟨now.wallMs, rfl, hspent⟩
    · refine Or.inr ⟨v.expire now.wallMs, ?_, hext⟩
      rw [retiredStreams, hv, Option.bind_some, hretired]
  | release k delivery =>
    right
    by_cases hk : key = k
    · subst hk
      refine ⟨{ v with custody := v.custody.erase delivery }, ?_, le_rfl, fun _ _ hs => hs, ?_⟩
      · rw [Function.update_self, hv, Option.map_some]
      intro d hd
      by_cases hdd : d = delivery
      · subst hdd
        exact Or.inr (Or.inr rfl)
      · exact Or.inl (Finset.mem_erase.2 ⟨hdd, hd⟩)
    · exact ⟨v, by rw [Function.update_of_ne hk, hv], .refl _ _ _⟩

variable {events : List ReplayEvent} {n : ℕ} {s : Stamped} {e : PendingCall} {w : Waiter}

/-- One transition of a run and a stream it found. -/
lemma replayTrans.next (h : replayTrans events n s e) (hs : s.state.Good) {key : StreamKey}
    {v : Stream} (hv : s.state.tables.stream key = some v) :
    ReadBy events e.after.steps v.charge.spentAtMs ∨
      ∃ v', e.after.state.tables.stream key = some v' ∧
        v.charge.spentAtMs ≤ v'.charge.spentAtMs ∧
        (∀ sequence digest, v.window.Seen sequence digest → v'.window.Seen sequence digest) ∧
        ∀ d ∈ v.custody, d ∈ v'.custody ∨ ReadBy events e.after.steps d.spentAtMs ∨
          ReleasedBy events e.after.steps key d := by
  rcases h with ⟨w, h⟩ | h
  · have hafter : e.after.state.tables = (w.call.commit s.state).2.tables :=
      congrArg Speculative.tables h.state
    have hread : ∀ x, (∃ reading, w.call.readingMs = some reading ∧ x ≤ reading) →
        ReadBy events e.after.steps x := by
      rintro x ⟨reading, hreading, hx⟩
      exact ⟨w.index, w.call, reading, h.steps ▸ Nat.lt_succ_self _, h.event, hreading, hx⟩
    rcases hout : (w.call.commit s.state).1 with err | answer
    · refine Or.inr ⟨v, ?_, le_rfl, fun _ _ hs => hs, fun d hd => Or.inl hd⟩
      rw [hafter, (w.call.commit_error hs hout).2, hv]
    · obtain ⟨-, hstep, -⟩ := w.call.commit_ok hs hout
      rw [← hafter] at hstep
      rcases hstep.next hv with hspent | ⟨v', hv', hext⟩
      · exact Or.inl (hread _ hspent)
      · refine Or.inr ⟨v', hv', hext.charge, hext.seen, fun d hd => ?_⟩
        rcases hext.custody d hd with hd | hd | hd
        · exact Or.inl hd
        · exact Or.inr (Or.inl (hread _ hd))
        · refine Or.inr (Or.inr ⟨w.index, h.steps ▸ Nat.lt_succ_self _, ?_⟩)
          rw [h.event, hd]
  · refine Or.inr ⟨v, ?_, le_rfl, fun _ _ hs => hs, fun d hd => Or.inl hd⟩
    rw [h.tables, hv]

/-! ### What was released -/

def Waiter.dispatched (w : Waiter) : Option Admission :=
  match w.call, w.outcome with
  | .tryAdmit admission _, .ok (.verdict verdict) =>
    if verdict.permitsDispatch then some admission else none
  | .admitRelayed admission _, .ok (.relay .admitted) => some admission
  | _, _ => none

def Remembered (events : List ReplayEvent) (a : Admission) (s : Stamped) : Prop :=
  ReadBy events s.steps a.spentAtMs ∨ ∃ v, s.state.tables.stream a.key = some v ∧
    a.spentAtMs ≤ v.charge.spentAtMs ∧ v.window.Seen a.sequence a.digest

def Kept (events : List ReplayEvent) (key : StreamKey) (d : RelayDelivery) (s : Stamped) : Prop :=
  ReadBy events s.steps d.spentAtMs ∨ ReleasedBy events s.steps key d ∨
    ∃ v, s.state.tables.stream key = some v ∧ d ∈ v.custody

structure Recorded (events : List ReplayEvent) (w : Waiter) (s : Stamped) : Prop where
  event : events[w.index]? = some (.call w.call)
  dispatched : ∀ a, w.dispatched = some a → Remembered events a s
  admitted : ∀ a now, w.call = .admitRelayed a now → w.outcome = .ok (.relay .admitted) →
    Kept events a.key a.delivery s

/-- Two transactions with one sequence are dispatched only when a reading between them reaches the
instant the first is spent. -/
def Apart (events : List ReplayEvent) (x y : Waiter) : Prop :=
  ∀ a b, x.dispatched = some a → y.dispatched = some b → a.key = b.key →
    a.sequence = b.sequence → ReadBy events (y.index + 1) a.spentAtMs

/-- The record on disk holds what the durable stream holds, as far as the readings and releases
so far have not passed it. -/
def Covers (events : List ReplayEvent) (n : ℕ) (s : Stamped) (k : RecordKey)
    (r : Option StoredStream) : Prop :=
  ∀ key v, k = ⟨.receiver, key⟩ → s.state.tables.stream key = some v →
    ReadBy events n v.charge.spentAtMs ∨ ∃ v', r.bind StoredStream.stream = some v' ∧
      v.charge.spentAtMs ≤ v'.charge.spentAtMs ∧
      (∀ sequence digest, v.window.Seen sequence digest → v'.window.Seen sequence digest) ∧
      ∀ d ∈ v.custody, d ∈ v'.custody ∨ ReadBy events n d.spentAtMs ∨ ReleasedBy events n key d

lemma Covers.forward (he : Staging s e) {k : RecordKey} {r : Option StoredStream}
    (h : Covers events n s k r) : Covers events n e.after k ((e.staged k).getD r) := by
  rintro key v rfl hv
  rcases hstaged : e.staged ⟨.receiver, key⟩ with _ | r'
  · rw [he.unstaged key hstaged] at hv
    exact h key v rfl hv
  · rw [he.staged key r' hstaged, hv]
    exact Or.inr ⟨v, rfl, le_rfl, fun _ _ hs => hs, fun d hd => Or.inl hd⟩

lemma Covers.backward (he : replayTrans events n s e) (hs : s.state.Good) {k : RecordKey}
    {r : Option StoredStream} (h : Covers events n e.after k r) : Covers events n s k r := by
  rintro key v rfl hv
  rcases he.next hs hv with hread | ⟨v₁, hv₁, hcharge, hseen, hcustody⟩
  · exact Or.inl (hread.mono he.steps_le)
  · rcases h key v₁ rfl hv₁ with hread | ⟨v₂, hr, hcharge', hseen', hcustody'⟩
    · exact Or.inl (hread.earlier hcharge)
    · refine Or.inr ⟨v₂, hr, hcharge.trans hcharge', fun q d hq => hseen' q d (hseen q d hq), ?_⟩
      intro d hd
      rcases hcustody d hd with hd | hread | hreleased
      · exact hcustody' d hd
      · exact Or.inr (Or.inl (hread.mono he.steps_le))
      · exact Or.inr (Or.inr (hreleased.mono he.steps_le))

lemma Remembered.keep {a : Admission} (he : replayTrans events n s e) (hs : s.state.Good)
    (hsteps : s.steps ≤ e.after.steps) (h : Remembered events a s) :
    Remembered events a e.after := by
  rcases h with hread | ⟨v, hv, hcharge, hseen⟩
  · exact Or.inl (hread.mono hsteps)
  · rcases he.next hs hv with hread | ⟨v', hv', hcharge', hseen', -⟩
    · exact Or.inl (hread.earlier hcharge)
    · exact Or.inr ⟨v', hv', hcharge.trans hcharge', hseen' _ _ hseen⟩

lemma Kept.keep {key : StreamKey} {d : RelayDelivery} (he : replayTrans events n s e)
    (hs : s.state.Good) (hsteps : s.steps ≤ e.after.steps) (h : Kept events key d s) :
    Kept events key d e.after := by
  rcases h with hread | hreleased | ⟨v, hv, hd⟩
  · exact Or.inl (hread.mono hsteps)
  · exact Or.inr (Or.inl (hreleased.mono hsteps))
  · rcases he.next hs hv with hread | ⟨v', hv', -, -, hcustody⟩
    · exact Or.inl (hread.earlier ((hs.tables.streams key v hv).dominated d hd))
    · rcases hcustody d hd with hd | hread | hreleased
      · exact Or.inr (Or.inr ⟨v', hv', hd⟩)
      · exact Or.inl hread
      · exact Or.inr (Or.inl hreleased)

lemma replayTrans.le_steps (h : replayTrans events n s e) : s.steps ≤ e.after.steps := by
  rcases h with ⟨w, h⟩ | h
  · rw [h.steps]
    exact h.later.trans (Nat.le_succ _)
  · exact h.later

/-- A transition that lets a transaction be dispatched, on the streams before it. -/
lemma Called.dispatched (h : Called events n s e w) (hs : s.state.Good) {a : Admission}
    (ha : w.dispatched = some a) : ∃ nowMs relayed, w.call.readingMs = some nowMs ∧
      (verdictOn a (retiredStreams nowMs s.state.tables.stream)).permitsDispatch = true ∧
      e.after.state.tables.stream =
        enteredStreams a relayed (retiredStreams nowMs s.state.tables.stream) ∧
      ((∃ b now, w.call = .admitRelayed b now) → relayed = some a.delivery) := by
  have hafter : e.after.state.tables = (w.call.commit s.state).2.tables :=
    congrArg Speculative.tables h.state
  rw [Waiter.dispatched] at ha
  split at ha
  · rename_i admission now verdict hcall houtcome
    split at ha
    · rename_i hpermits
      obtain rfl := Option.some.inj ha
      obtain ⟨-, hstep, -⟩ := w.call.commit_ok hs (h.outcome.trans houtcome)
      rw [← hafter, hcall] at hstep
      generalize e.after.state.tables.stream = t' at hstep
      generalize hanswer : ReplayAnswer.verdict verdict = answer at hstep
      cases hstep with
      | tryAdmit admission now permitted =>
        refine ⟨now.wallMs, none, by rw [hcall]; rfl, permitted, rfl, ?_⟩
        rintro ⟨b, now', hb⟩
        rw [hcall] at hb
        cases hb
    · cases ha
  · rename_i admission now hcall houtcome
    obtain rfl := Option.some.inj ha
    obtain ⟨-, hstep, -⟩ := w.call.commit_ok hs (h.outcome.trans houtcome)
    rw [← hafter, hcall] at hstep
    generalize e.after.state.tables.stream = t' at hstep
    generalize hanswer : ReplayAnswer.relay Replay.RelayAdmission.admitted = answer at hstep
    cases hstep with
    | relayed admission now permitted room =>
      exact ⟨now.wallMs, some admission.delivery, by rw [hcall]; rfl, permitted, rfl, fun _ => rfl⟩
    | inCustody admission now => cases hanswer
  · cases ha

lemma Called.remembered (h : Called events n s e w) (hs : s.state.Good) {a : Admission}
    (ha : w.dispatched = some a) : Remembered events a e.after := by
  obtain ⟨nowMs, relayed, -, hpermits, hstreams, -⟩ := h.dispatched hs ha
  refine Or.inr ⟨_, by rw [hstreams, enteredStreams_self], ?_, ?_⟩
  · exact (Replay.le_chargeAfter _ _).1
  · exact SequenceState.observe_seen hpermits

lemma Called.kept (h : Called events n s e w) (hs : s.state.Good) {a : Admission}
    {now : ReplayInstant} (hcall : w.call = .admitRelayed a now)
    (houtcome : w.outcome = .ok (.relay .admitted)) : Kept events a.key a.delivery e.after := by
  have ha : w.dispatched = some a := by
    rw [Waiter.dispatched, hcall, houtcome]
  obtain ⟨nowMs, relayed, -, -, hstreams, hrelayed⟩ := h.dispatched hs ha
  refine Or.inr (Or.inr ⟨_, by rw [hstreams, enteredStreams_self], ?_⟩)
  rw [hrelayed ⟨a, now, hcall⟩]
  exact Finset.mem_insert_self _ _

lemma Called.apart (h : Called events n s e w) (hs : s.state.Good) {a b : Admission}
    (hb : w.dispatched = some b) (hkey : a.key = b.key) (hsequence : a.sequence = b.sequence)
    (ha : Remembered events a s) : ReadBy events (w.index + 1) a.spentAtMs := by
  rcases ha with hread | ⟨v, hv, hcharge, hseen⟩
  · exact hread.mono (h.later.trans (Nat.le_succ _))
  · obtain ⟨nowMs, relayed, hreading, hpermits, -⟩ := h.dispatched hs hb
    rcases retired_cases w.call a.key hreading v with hspent | ⟨hretired, -⟩
    · exact ⟨w.index, w.call, nowMs, Nat.lt_succ_self _, h.event, hreading, hcharge.trans hspent⟩
    · -- the stream still remembers the sequence, so nothing with it is permitted
      rw [verdictOn, ← hkey, ← hsequence, retiredStreams, hv, Option.bind_some, hretired,
        Option.map_some] at hpermits
      have hnot := SequenceState.Seen.not_permits hseen b.digest
      rw [show (v.expire nowMs).window = v.window from rfl, hnot] at hpermits
      cases hpermits

lemma historyLaws (events : List ReplayEvent) :
    ReplayLaws events (fun _ _ => True) (fun _ => True) (Recorded events) (Apart events)
      (Covers events) where
  mono := by
    intro n s k r h key v hk hv
    rcases h key v hk hv with hread | ⟨v', hr, hcharge, hseen, hcustody⟩
    · exact Or.inl (hread.mono (Nat.le_succ n))
    · refine Or.inr ⟨v', hr, hcharge, hseen, fun d hd => ?_⟩
      rcases hcustody d hd with hd | hread | hreleased
      · exact Or.inl hd
      · exact Or.inr (Or.inl (hread.mono (Nat.le_succ n)))
      · exact Or.inr (Or.inr (hreleased.mono (Nat.le_succ n)))
  inv := fun _ _ _ _ _ => trivial
  new := fun n s e w hs he => ⟨he.event, fun a ha => he.remembered hs.good ha,
    fun a now hcall houtcome => he.kept hs.good hcall houtcome⟩
  keep := fun n s e x hs he hx => ⟨hx.event,
    fun a ha => (hx.dispatched a ha).keep he hs.good he.le_steps,
    fun a now hcall houtcome => (hx.admitted a now hcall houtcome).keep he hs.good he.le_steps⟩
  order := fun n s e w x hs he hx a b ha hb hkey hsequence =>
    he.apart hs.good hb hkey hsequence (hx.dispatched a ha)
  forward := fun n s e k r hs he hr => Covers.forward (he.staging hs.good) hr
  landed := by
    intro n a keys _ hlinked hdisk k
    exact hlinked.landed (fun s e r he hr => Covers.forward (he.2.staging he.1.good) hr)
      (fun s e r he hr => hr.backward he.2 he.1.good) (hdisk k)
  similar := by
    intro n s t hs hst
    have htables := hst.1.tables
    have hsteps : s.steps ≤ t.steps := hst.2.1.trans hst.2.2.ge
    refine ⟨trivial, fun x hx => ⟨hx.event, fun a ha => ?_, fun a now hcall houtcome => ?_⟩,
      fun k r hr => ?_⟩
    · rcases hx.dispatched a ha with hread | hrest
      · exact Or.inl (hread.mono hsteps)
      · exact Or.inr (by rw [htables]; exact hrest)
    · rcases hx.admitted a now hcall houtcome with hread | hreleased | hrest
      · exact Or.inl (hread.mono hsteps)
      · exact Or.inr (Or.inl (hreleased.mono hsteps))
      · exact Or.inr (Or.inr (by rw [htables]; exact hrest))
    · rw [Covers, htables]
      exact hr
  restore := by
    intro n s disk t hs ht hdisk
    have hsteps : s.steps ≤ t.steps := hs.steps.trans ht.steps.ge
    refine ⟨trivial, fun x hx => ⟨hx.event, fun a ha => ?_, fun a now hcall houtcome => ?_⟩,
      fun k => ?_⟩
    · rcases hx.dispatched a ha with hread | ⟨v, hv, hcharge, hseen⟩
      · exact Or.inl (hread.mono hsteps)
      · rcases hdisk _ a.key v rfl hv with hread | ⟨v', hr, hcharge', hseen', -⟩
        · refine Or.inl ?_
          rw [ht.steps]
          exact hread.earlier hcharge
        · exact Or.inr ⟨v', (ht.stream a.key).trans hr, hcharge.trans hcharge', hseen' _ _ hseen⟩
    · rcases hx.admitted a now hcall houtcome with hread | hreleased | ⟨v, hv, hd⟩
      · exact Or.inl (hread.mono hsteps)
      · exact Or.inr (Or.inl (hreleased.mono hsteps))
      · rw [Kept, ht.steps]
        rcases hdisk _ a.key v rfl hv with hread | ⟨v', hr, -, -, hcustody⟩
        · exact Or.inl (hread.earlier ((hs.good.tables.streams _ v hv).dominated _ hd))
        · rcases hcustody _ hd with hd | hread | hreleased
          · exact Or.inr (Or.inr ⟨v', (ht.stream a.key).trans hr, hd⟩)
          · exact Or.inl hread
          · exact Or.inr (Or.inl hreleased)
    · rintro key v rfl hv
      rw [ht.stream key] at hv
      exact Or.inr ⟨v, hv, le_rfl, fun _ _ hs => hs, fun d hd => Or.inl hd⟩

end Rings
