import Rings.GroupCommit
import Rings.ReplayRestore

/-!
The replay runtime refines the group-commit machine.

The journal keeps the chain of pending transitions only as two undo logs, two maps of records and
two lists of waiters. Each event of the runtime is a step of the machine: the speculative state is
the end of the chain, the undo logs lead back along it, and what a batch writes is what its
members staged.
-/

namespace Rings

open GroupCommit Effect

/-! ### Records that land -/

lemma get?_landRecords (keys : RecordKey → Bool)
    (records : BTreeMap RecordKey (Option StoredStream)) (disk : BTreeMap RecordKey StoredStream)
    (k : RecordKey) : (landRecords keys records disk).get? k =
      if keys k then (records.get? k).getD (disk.get? k) else disk.get? k := by
  have hfold : ∀ (l : List (RecordKey × Option StoredStream))
      (d : BTreeMap RecordKey StoredStream), (l.map Prod.fst).Nodup →
      (l.foldl (fun d kv => if keys kv.1 then d.replace kv.1 kv.2 else d) d).get? k =
        if keys k then (l.lookup k).getD (d.get? k) else d.get? k := by
    intro l
    induction l with
    | nil => exact fun d _ => by simp
    | cons kv l ih =>
      intro d hl
      rw [List.map_cons, List.nodup_cons] at hl
      rw [List.foldl_cons, ih _ hl.2, lookup_cons_ite]
      by_cases hk : k = kv.1
      · subst hk
        rw [lookup_eq_none_of_notMem hl.1, if_pos rfl]
        cases keys kv.1 <;> simp
      · rw [if_neg hk]
        have hsame : (if keys kv.1 then d.replace kv.1 kv.2 else d).get? k = d.get? k := by
          split
          · rw [BTreeMap.get?_replace, if_neg hk]
          · rfl
        rw [hsame]
  exact hfold records.entries disk records.nodup

/-! ### The machine -/

/-- A speculative state with the number of steps of the run it was reached in. -/
@[ext]
structure Stamped where
  state : Speculative
  steps : ℕ

abbrev PendingCall := Pending Stamped RecordKey StoredStream Waiter

abbrev Committing := GroupCommit.State Stamped RecordKey StoredStream Waiter

variable (events : List ReplayEvent)

/-- A call of the run within its first `n` steps, on the state before it. -/
structure Called (n : ℕ) (s : Stamped) (e : PendingCall) (w : Waiter) : Prop where
  answer : e.answer = some w
  event : events[w.index]? = some (.call w.call)
  later : s.steps ≤ w.index
  within : w.index < n
  steps : e.after.steps = w.index + 1
  outcome : (w.call.commit s.state).1 = w.outcome
  state : e.after.state = (w.call.commit s.state).2.state
  records : w.records = (w.call.commit s.state).2.records
  staged : e.staged = w.records.get?

/-- A change of the quotas alone, by a transition released at once. -/
structure Silent (n : ℕ) (s : Stamped) (e : PendingCall) : Prop where
  answer : e.answer = none
  staged : ∀ k, e.staged k = none
  later : s.steps ≤ e.after.steps
  within : e.after.steps ≤ n
  store : e.after.state.store = s.state.store
  accounting : e.after.state.accounting = s.state.accounting

/-- The transitions of a run within its first `n` steps. -/
def replayTrans (n : ℕ) (s : Stamped) (e : PendingCall) : Prop :=
  (∃ w, Called events n s e w) ∨ Silent n s e

def replaySimilar (n : ℕ) (s t : Stamped) : Prop :=
  s.state.Similar t.state ∧ s.steps ≤ n ∧ t.steps = n

def replayRestore (n : ℕ) (disk : RecordKey → Option StoredStream) (s : Stamped) : Prop :=
  s.steps = n ∧ ∃ (config : OriginQuotaConfig) (shares : Shares)
    (d : BTreeMap RecordKey StoredStream), (∀ k, d.get? k = disk k) ∧
      s.state = .load config shares d

abbrev ReplayStep (lands : Committing → Set RecordKey → Prop) (n : ℕ) :
    Committing → Committing → Prop :=
  GroupCommit.Step (replayTrans events n) (replaySimilar n) (replayRestore n) lands

/-- The state of a run after its first `n` events. -/
def Runtime.after (start : Runtime) (events : List ReplayEvent) (n : ℕ) : Runtime :=
  start.run (events.take n)

/-- The runtime keeps the pending transitions of the machine in its journal. -/
structure Follows (start r : Runtime) (a : Committing) : Prop where
  tip : (tip (tip a.base a.writing) a.opened).state = r.state
  steps : (GroupCommit.tip (GroupCommit.tip a.base a.writing) a.opened).steps ≤ r.steps
  opened : Undoes r.journal.opened.undo r.state (GroupCommit.tip a.base a.writing).state
  inFlight : Undoes (r.journal.inFlight.getD []) (GroupCommit.tip a.base a.writing).state
    a.base.state
  idle : r.journal.inFlight = none →
    r.writing = none ∧ a.opened = [] ∧ r.openedAt = none
  records : ∀ k, r.journal.opened.records.get? k = stagedBy a.opened k
  waiters : r.journal.opened.waiters = answers a.opened
  notWriting : r.writing = none → a.writing = []
  writing : ∀ b, r.writing = some b →
    (∀ k, b.records.get? k = stagedBy a.writing k) ∧ b.waiters = answers a.writing
  disk : ∀ k, r.disk.get? k = a.disk k
  released : a.released = (r.returned.filter Returned.durable).map Returned.waiter
  unopened : r.openedAt = none → r.journal.opened.undo = [] ∧ r.journal.opened.waiters = []
  openedAt : ∀ m, r.openedAt = some m → m ≤ r.steps ∧
    Undoes r.journal.opened.undo r.state (start.after events m).state
  writingAt : r.writing.isSome = true → ∃ n, r.writingAt = some n ∧ n ≤ r.steps ∧
    Undoes (r.journal.inFlight.getD []) (GroupCommit.tip a.base a.writing).state
      (start.after events n).state

variable {events} {start r : Runtime} {a : Committing} {lands : Committing → Set RecordKey → Prop}

lemma GroupCommit.State.tip_eq (a : Committing) :
    a.tip = GroupCommit.tip (GroupCommit.tip a.base a.writing) a.opened := tip_append

lemma Linked.steps_le {n : ℕ} {s : Stamped} {chain : List PendingCall}
    (h : Linked (replayTrans events n) s chain) : s.steps ≤ (GroupCommit.tip s chain).steps := by
  refine h.keep (P := fun t => s.steps ≤ t.steps) (fun t e he ht => ?_) le_rfl
  rcases he with ⟨w, he⟩ | he
  · rw [he.steps]
    exact (ht.trans he.later).trans (Nat.le_succ _)
  · exact ht.trans he.later

/-- What the machine does in one event of the runtime. -/
def Simulated (lands : Committing → Set RecordKey → Prop) (events : List ReplayEvent)
    (start r next : Runtime) (a : Committing) : Prop :=
  ∃ b, Follows events start { next with steps := r.steps + 1 } b ∧
    Relation.ReflTransGen (ReplayStep events lands (r.steps + 1)) a b

lemma Runtime.commit_eq (r : Runtime) (call : ReplayCall) : r.commit call =
    { r with
      state := (call.commit r.state).2.state
      journal := r.journal.join (call.commit r.state).2
        ⟨r.steps, call, (call.commit r.state).2.records, (call.commit r.state).1⟩
      openedAt := some (r.openedAt.getD r.steps) } := by
  rw [Runtime.commit]

/-- The log of a batch leads back to the state before its first transition, and so it does with
the log of one more. -/
lemma Follows.openedAt_extend (h : Follows events start r a)
    (hr : start.after events r.steps = r) {log : List Undo} {s : Speculative}
    (hlog : Undoes log s r.state) {m : ℕ} (hm : r.openedAt.getD r.steps = m) :
    m ≤ r.steps + 1 ∧ Undoes (r.journal.opened.undo ++ log) s (start.after events m).state := by
  rcases hopen : r.openedAt with _ | m'
  · rw [hopen, Option.getD_none] at hm
    rw [(h.unopened hopen).1, List.nil_append, ← hm, hr]
    exact ⟨Nat.le_succ _, hlog⟩
  · rw [hopen, Option.getD_some] at hm
    obtain ⟨hle, hundo⟩ := h.openedAt m' hopen
    rw [← hm]
    exact ⟨hle.trans (Nat.le_succ _), hundo.append hlog⟩

lemma Follows.commit (h : Follows events start r a) (hr : start.after events r.steps = r)
    (hgood : r.state.Good) {call : ReplayCall} (hevent : events[r.steps]? = some (.call call)) :
    Simulated lands events start r (r.commit call) a := by
  obtain ⟨hundo, -, -⟩ := call.commit_logged hgood.toBalanced
  rw [Runtime.commit_eq]
  rcases hcommit : call.commit r.state with ⟨o, l⟩
  rw [hcommit] at hundo
  simp only at hundo ⊢
  let w : Waiter := ⟨r.steps, call, l.records, o⟩
  let e : PendingCall := ⟨some w, l.records.get?, ⟨l.state, r.steps + 1⟩⟩
  refine ⟨{ a with opened := a.opened ++ [e] }, ?_, .single (.join a (Or.inl ⟨w, ?_⟩))⟩
  · constructor
    case tip => simp [e]
    case steps => simp [e]
    case opened => exact h.opened.append hundo
    case inFlight => exact h.inFlight
    case idle => exact fun hnone => (by cases hnone)
    case records =>
      intro k
      refine (BTreeMap.get?_extend _ _ k).trans ?_
      rw [stagedBy_append, stagedBy_singleton, h.records k]
    case waiters =>
      simp only [answers_append, ← h.waiters]
      rfl
    case notWriting => exact h.notWriting
    case writing => exact h.writing
    case disk => exact h.disk
    case released => exact h.released
    case unopened => exact fun hnone => (by cases hnone)
    case openedAt => exact fun m hm => h.openedAt_extend hr hundo (Option.some.inj hm)
    case writingAt =>
      intro hsome
      obtain ⟨n, hn, hle, hundoes⟩ := h.writingAt hsome
      exact ⟨n, hn, hle.trans (Nat.le_succ _), hundoes⟩
  · rw [GroupCommit.State.tip_eq]
    constructor
    case answer => rfl
    case event => exact hevent
    case later => exact h.steps
    case within => exact Nat.lt_succ_self _
    case steps => rfl
    case outcome => rw [h.tip, hcommit]
    case state => rw [h.tip, hcommit]
    case records => rw [h.tip, hcommit]
    case staged => rfl

lemma Follows.stay (h : Follows events start r a) : Simulated lands events start r r a := by
  refine ⟨a, ?_, .refl⟩
  exact { h with
    steps := h.steps.trans (Nat.le_succ _)
    openedAt := fun m hm => ⟨(h.openedAt m hm).1.trans (Nat.le_succ _), (h.openedAt m hm).2⟩
    writingAt := fun hsome => by
      obtain ⟨n, hn, hle, hundo⟩ := h.writingAt hsome
      exact ⟨n, hn, hle.trans (Nat.le_succ _), hundo⟩ }

def silentCall (s : Speculative) (n : ℕ) : PendingCall := ⟨none, fun _ => none, ⟨s, n⟩⟩

lemma Follows.silent (h : Follows events start r a) (quota : OriginQuotaTable) :
    replayTrans events (r.steps + 1) a.tip (silentCall { r.state with quota } (r.steps + 1)) := by
  rw [GroupCommit.State.tip_eq]
  refine Or.inr ⟨rfl, fun _ => rfl, h.steps.trans (Nat.le_succ _), le_rfl, ?_, ?_⟩
  · rw [h.tip]
    rfl
  · rw [h.tip]
    rfl

/-- While no batch is pending a change of the quotas needs no log. -/
lemma Follows.admitOnLink_idle (h : Follows events start r a) (hidle : r.journal.inFlight = none)
    (quota : OriginQuotaTable) :
    Simulated lands events start r { r with state := { r.state with quota } } a := by
  obtain ⟨hwriting, hopened, hat⟩ := h.idle hidle
  have hnone := h.notWriting hwriting
  have hundo := (h.unopened hat).1
  let e := silentCall { r.state with quota } (r.steps + 1)
  refine ⟨{ a with base := e.after, opened := [] }, ?_, ?_⟩
  · constructor
    case tip => simp [hnone, e, silentCall]
    case steps => simp [hnone, e, silentCall]
    case opened =>
      simp only [hnone, hundo]
      exact undoes_nil (.refl _)
    case inFlight =>
      simp only [hnone, hidle]
      exact undoes_nil (.refl _)
    case idle => exact fun _ => ⟨hwriting, rfl, hat⟩
    case records =>
      intro k
      rw [← hopened]
      exact h.records k
    case waiters =>
      rw [← hopened]
      exact h.waiters
    case notWriting => exact h.notWriting
    case writing => exact fun b hb => absurd (hwriting.symm.trans hb) (by simp)
    case disk => exact h.disk
    case released => exact h.released
    case unopened => exact h.unopened
    case openedAt => exact fun m hm => absurd (hat.symm.trans hm) (by simp)
    case writingAt =>
      intro hsome
      rw [hwriting] at hsome
      cases hsome
  · have hjoin : ReplayStep events lands (r.steps + 1) a { a with opened := a.opened ++ [e] } :=
      .join a (h.silent quota)
    have habsorb : ReplayStep events lands (r.steps + 1) { a with opened := a.opened ++ [e] }
        { a with base := e.after, opened := [] } := by
      have hbase : e.after = GroupCommit.tip a.base (a.opened ++ [e]) := by simp
      rw [hbase]
      refine .absorb { a with opened := a.opened ++ [e] } hnone fun e' he' => ?_
      rw [hopened, List.nil_append, List.mem_singleton] at he'
      subst he'
      exact ⟨rfl, fun _ => rfl⟩
    exact .tail (.single hjoin) habsorb

/-- While a batch is pending a change of the quotas joins it with its log. -/
lemma Follows.admitOnLink_pending (h : Follows events start r a)
    (hr : start.after events r.steps = r) (hpending : r.journal.inFlight ≠ none)
    {quota : OriginQuotaTable} {log : List Undo} (hlog : Undoes log { r.state with quota } r.state)
    {at' : Option ℕ}
    (hat : log = [] ∧ at' = r.openedAt ∨ at' = some (r.openedAt.getD r.steps)) :
    Simulated lands events start r { r with
      state := { r.state with quota }
      journal := { r.journal with
        opened := { r.journal.opened with undo := r.journal.opened.undo ++ log } }
      openedAt := at' } a := by
  let e := silentCall { r.state with quota } (r.steps + 1)
  refine ⟨{ a with opened := a.opened ++ [e] }, ?_, .single (.join a (h.silent quota))⟩
  constructor
  case tip => simp [e, silentCall]
  case steps => simp [e, silentCall]
  case opened => exact h.opened.append hlog
  case inFlight => exact h.inFlight
  case idle => exact fun hnone => absurd hnone hpending
  case records =>
    intro k
    simp only [stagedBy_append, stagedBy_singleton]
    rw [show e.staged k = none from rfl, Option.none_or]
    exact h.records k
  case waiters =>
    rw [answers_append, ← h.waiters]
    exact (List.append_nil _).symm
  case notWriting => exact h.notWriting
  case writing => exact h.writing
  case disk => exact h.disk
  case released => exact h.released
  case unopened =>
    intro hnone
    rcases hat with ⟨rfl, rfl⟩ | rfl
    · simpa using h.unopened hnone
    · cases hnone
  case openedAt =>
    intro m hm
    rcases hat with ⟨rfl, rfl⟩ | rfl
    · obtain ⟨hle, hundo⟩ := h.openedAt m hm
      exact ⟨hle.trans (Nat.le_succ _), hundo.append hlog⟩
    · exact h.openedAt_extend hr hlog (Option.some.inj hm)
  case writingAt =>
    intro hsome
    obtain ⟨n, hn, hle, hundo⟩ := h.writingAt hsome
    exact ⟨n, hn, hle.trans (Nat.le_succ _), hundo⟩

lemma Follows.admitOnLink (h : Follows events start r a) (hr : start.after events r.steps = r)
    (window : Option SequenceState) (key : StreamKey) (sequence : ℕ) (digest : TransactionDigest)
    (charge : OriginQuotaCharge) (byteCost quotaNow : ℕ) :
    Simulated lands events start r
      (r.admitOnLink window key sequence digest charge byteCost quotaNow).2.2 a := by
  rw [Runtime.admitOnLink]
  simp only
  split
  · exact h.stay
  split
  · rename_i hreserve
    have hsimilar := Speculative.similar_quota (OriginQuotaTable.refilled_of_reserve_error hreserve)
    by_cases hidle : r.journal.inFlight = none
    · exact h.admitOnLink_idle hidle _
    · have hjoined := @Follows.admitOnLink_pending events start r a lands h hr hidle _ []
        (undoes_nil hsimilar) r.openedAt (Or.inl ⟨rfl, rfl⟩)
      rwa [List.append_nil] at hjoined
  · rename_i reservation quota hreserve
    have hundo := undoes_quota hreserve
    by_cases hidle : r.journal.inFlight = none
    · obtain ⟨-, hopened, hat⟩ := h.idle hidle
      have hwaiters : r.journal.opened.waiters = [] := by
        rw [h.waiters, hopened]
        rfl
      have hlog : r.journal.logReleasedCharge reservation = r.journal := by
        rw [Journal.logReleasedCharge, hidle, hwaiters]
        rfl
      rw [hlog, (h.unopened hat).1]
      exact h.admitOnLink_idle hidle quota
    · have hlog : r.journal.logReleasedCharge reservation = { r.journal with
          opened := { r.journal.opened with
            undo := r.journal.opened.undo ++ [.quota reservation] } } := by
        rw [Journal.logReleasedCharge, Option.isSome_iff_ne_none.2 hidle]
        rfl
      rw [hlog]
      refine h.admitOnLink_pending hr hidle hundo (Or.inr ?_)
      simp

lemma Linked.unstaged {n : ℕ} {s : Stamped} {chain : List PendingCall}
    (h : Linked (replayTrans events n) s chain) (hanswers : answers chain = []) :
    ∀ e ∈ chain, e.answer = none ∧ ∀ k, e.staged k = none := by
  induction chain generalizing s with
  | nil => exact fun e he => (by cases he)
  | cons e chain ih =>
    rw [answers, List.filterMap_cons] at hanswers
    rcases h.1 with ⟨w, hcalled⟩ | hsilent
    · rw [hcalled.answer] at hanswers
      cases hanswers
    · rw [hsilent.answer] at hanswers
      intro e' he'
      rcases List.mem_cons.1 he' with rfl | he'
      · exact ⟨hsilent.answer, hsilent.staged⟩
      · exact ih h.2 hanswers e' he'

lemma Linked.later {n m : ℕ} (hnm : n ≤ m) {s : Stamped} {chain : List PendingCall}
    (h : Linked (replayTrans events n) s chain) : Linked (replayTrans events m) s chain := by
  refine h.mono fun s e he => ?_
  rcases he with ⟨w, hcalled⟩ | hsilent
  · exact Or.inl ⟨w, { hcalled with within := hcalled.within.trans_le hnm }⟩
  · exact Or.inr { hsilent with within := hsilent.within.trans hnm }

/-- The flusher takes the open batch, or ends when nobody joined it. -/
lemma Follows.take (h : Follows events start r a)
    (hlinked : Linked (replayTrans events r.steps) a.base (a.writing ++ a.opened)) :
    Simulated lands events start r r.take a := by
  rw [Runtime.take]
  split
  · rename_i log hwriting hflight
    have hnone := h.notWriting hwriting
    rw [hnone, List.nil_append] at hlinked
    have htip : GroupCommit.tip (GroupCommit.tip a.base a.writing) a.opened =
        GroupCommit.tip a.base a.opened := by
      rw [hnone]
      rfl
    by_cases hempty : r.journal.opened.waiters.isEmpty = true
    · rw [Journal.take, if_pos hempty]
      have hanswers : answers a.opened = [] := by
        rw [← h.waiters]
        exact List.isEmpty_iff.1 hempty
      have hsilent := Linked.unstaged hlinked hanswers
      refine ⟨_, ?_, .single (.absorb a hnone hsilent)⟩
      constructor
      case tip =>
        simp only [hnone]
        rw [← h.tip, htip]
        rfl
      case steps =>
        simp only [hnone]
        refine le_trans ?_ (h.steps.trans (Nat.le_succ _))
        rw [htip]
        rfl
      case opened =>
        refine undoes_nil ?_
        simp only [hnone]
        rw [← h.tip, htip]
        exact .refl _
      case inFlight =>
        refine undoes_nil ?_
        simp only [hnone]
        exact .refl _
      case idle => exact fun _ => ⟨rfl, rfl, rfl⟩
      case records =>
        intro k
        rw [show stagedBy [] k = none from rfl, ← stagedBy_eq_none fun e he => (hsilent e he).2 k]
        exact h.records k
      case waiters => exact List.isEmpty_iff.1 hempty
      case notWriting => exact fun _ => hnone
      case writing => exact fun b hb => (by cases hb)
      case disk => exact h.disk
      case released => exact h.released
      case unopened => exact fun _ => ⟨rfl, List.isEmpty_iff.1 hempty⟩
      case openedAt => exact fun m hm => (by cases hm)
      case writingAt => exact fun hsome => (by cases hsome)
    · rw [Journal.take, if_neg hempty]
      refine ⟨_, ?_, .single (.take a hnone)⟩
      constructor
      case tip =>
        rw [← h.tip, htip]
        rfl
      case steps =>
        refine le_trans ?_ (h.steps.trans (Nat.le_succ _))
        rw [htip]
        rfl
      case opened =>
        refine undoes_nil ?_
        simp only
        rw [← htip, h.tip]
        exact .refl _
      case inFlight =>
        simp only [Option.getD_some]
        rw [← htip, h.tip]
        have := h.opened
        rwa [hnone] at this
      case idle => exact fun hnone => (by cases hnone)
      case records => exact fun k => rfl
      case waiters => rfl
      case notWriting => exact fun hnone => (by cases hnone)
      case writing =>
        intro b hb
        cases hb
        exact ⟨h.records, h.waiters⟩
      case disk => exact h.disk
      case released => exact h.released
      case unopened => exact fun _ => ⟨rfl, rfl⟩
      case openedAt => exact fun m hm => (by cases hm)
      case writingAt =>
        intro _
        rcases hat : r.openedAt with _ | m
        · exact absurd (List.isEmpty_iff.2 (h.unopened hat).2) hempty
        · obtain ⟨hle, hundo⟩ := h.openedAt m hat
          refine ⟨m, rfl, hle.trans (Nat.le_succ _), ?_⟩
          simp only [Option.getD_some]
          rw [← htip, h.tip]
          exact hundo
  · exact h.stay

/-- The records under `keys` land on the disk of the machine too. -/
lemma Follows.landed (h : Follows events start r a) (keys : RecordKey → Bool)
    {records : BTreeMap RecordKey (Option StoredStream)}
    (hrecords : ∀ k, records.get? k = stagedBy a.writing k) (k : RecordKey) :
    (landRecords keys records r.disk).get? k =
      landed { k | keys k = true } (stagedBy a.writing) a.disk k := by
  rw [get?_landRecords, GroupCommit.landed, hrecords k, h.disk k]
  by_cases hk : keys k = true
  · rw [if_pos hk, if_pos (show k ∈ { k | keys k = true } from hk)]
  · rw [if_neg hk, if_neg (show k ∉ { k | keys k = true } from hk)]

lemma Follows.settle_durable (h : Follows events start r a) {b : Batch}
    (hb : r.writing = some b) : Simulated lands events start r { r with
      journal := { r.journal with inFlight := some [] }
      writing := none
      disk := landRecords (fun _ => true) b.records r.disk
      writingAt := none
      written := r.written ++ b.records.entries.filter fun _ => true
      returned := r.returned ++ b.waiters.map fun waiter => ⟨waiter, true, r.steps⟩ } a := by
  obtain ⟨hrecords, hwaiters⟩ := h.writing b hb
  refine ⟨_, ?_, .single (.durable a)⟩
  constructor
  case tip => exact h.tip
  case steps => exact h.steps.trans (Nat.le_succ _)
  case opened => exact h.opened
  case inFlight => exact undoes_nil (.refl _)
  case idle => exact fun hnone => (by cases hnone)
  case records => exact h.records
  case waiters => exact h.waiters
  case notWriting => exact fun _ => rfl
  case writing => exact fun b hb => (by cases hb)
  case disk =>
    intro k
    rw [h.landed _ hrecords, show { k | (fun _ => true) k = true } = Set.univ from
      Set.eq_univ_of_forall fun _ => rfl]
  case released =>
    simp only [List.filter_append, List.map_append, h.released, ← hwaiters]
    congr 1
    rw [List.filter_map]
    simp [Function.comp_def]
  case unopened => exact h.unopened
  case openedAt =>
    exact fun m hm => ⟨(h.openedAt m hm).1.trans (Nat.le_succ _), (h.openedAt m hm).2⟩
  case writingAt => exact fun hsome => (by cases hsome)

/-- Undoing both batches leads back to the durable state. -/
lemma Follows.rewound (h : Follows events start r a) : a.base.state.Similar
    (rewind (r.journal.inFlight.getD []) (rewind r.journal.opened.undo r.state)) :=
  h.inFlight _ (h.opened _ (.refl _))

lemma Follows.settle_failed (h : Follows events start r a) {b : Batch}
    (hb : r.writing = some b) (keys : RecordKey → Bool) (hcut : lands a { k | keys k = true })
    (hbase : a.base.steps ≤ r.steps + 1) :
    Simulated lands events start r { r with
      state := rewind (r.journal.inFlight.getD []) (rewind r.journal.opened.undo r.state)
      journal := ⟨.empty, some []⟩
      writing := none
      disk := landRecords keys b.records r.disk
      openedAt := none
      writingAt := none
      written := r.written ++ b.records.entries.filter fun kv => keys kv.1
      returned := r.returned ++ (b.waiters ++ r.journal.opened.waiters).map
        fun waiter => ⟨waiter, false, r.steps⟩ } a := by
  obtain ⟨hrecords, -⟩ := h.writing b hb
  have hrewound : replaySimilar (r.steps + 1) a.base
      ⟨rewind (r.journal.inFlight.getD []) (rewind r.journal.opened.undo r.state), r.steps + 1⟩ :=
    ⟨h.rewound, hbase, rfl⟩
  refine ⟨_, ?_, .single (.fail a { k | keys k = true } hcut hrewound)⟩
  constructor
  case tip => rfl
  case steps => exact le_rfl
  case opened => exact undoes_nil (.refl _)
  case inFlight => exact undoes_nil (.refl _)
  case idle => exact fun hnone => (by cases hnone)
  case records => exact fun k => rfl
  case waiters => rfl
  case notWriting => exact fun _ => rfl
  case writing => exact fun b hb => (by cases hb)
  case disk => exact h.landed keys hrecords
  case released =>
    simp only [List.filter_append, List.map_append, h.released]
    simp
  case unopened => exact fun _ => ⟨rfl, rfl⟩
  case openedAt => exact fun m hm => (by cases hm)
  case writingAt => exact fun hsome => (by cases hsome)

lemma Follows.settle (h : Follows events start r a)
    (hbase : a.base.steps ≤ r.steps + 1) (durable : Bool) (keys : RecordKey → Bool)
    (hcut : durable = false → lands a { k | keys k = true }) :
    Simulated lands events start r (r.settle durable keys) a := by
  rw [Runtime.settle]
  split
  · exact h.stay
  · rename_i b hb
    simp only
    rcases hd : durable || b.records.entries.isEmpty with _ | _
    · have := h.settle_failed hb keys (hcut (Bool.or_eq_false_iff.1 hd).1) hbase
      simp only [Bool.false_or]
      exact this
    · have hsettled := @Follows.settle_durable events start r a lands h b hb
      simp only [Bool.true_or]
      rw [← List.append_nil b.waiters] at hsettled
      exact hsettled

lemma Follows.crash (h : Follows events start r a) (keys : RecordKey → Bool)
    (hcut : lands a { k | keys k = true }) :
    Simulated lands events start r (r.crash keys) a := by
  have hrecords : ∀ k, (r.writing.elim BTreeMap.empty Batch.records).get? k =
      stagedBy a.writing k := by
    intro k
    rcases hb : r.writing with _ | b
    · rw [h.notWriting hb]
      rfl
    · exact (h.writing b hb).1 k
  have hrestored : replayRestore (r.steps + 1)
      (GroupCommit.landed { k | keys k = true } (stagedBy a.writing) a.disk)
      ⟨(r.crash keys).state, r.steps + 1⟩ :=
    ⟨rfl, _, _, _, h.landed keys hrecords, rfl⟩
  refine ⟨_, ?_, .single (.crash a { k | keys k = true } hcut hrestored)⟩
  constructor
  case tip => rfl
  case steps => exact le_rfl
  case opened => exact undoes_nil (.refl _)
  case inFlight => exact undoes_nil (.refl _)
  case idle => exact fun _ => ⟨rfl, rfl, rfl⟩
  case records => exact fun k => rfl
  case waiters => rfl
  case notWriting => exact fun _ => rfl
  case writing => exact fun b hb => (by cases hb)
  case disk => exact h.landed keys hrecords
  case released => exact h.released
  case unopened => exact fun _ => ⟨rfl, rfl⟩
  case openedAt => exact fun m hm => (by cases hm)
  case writingAt => exact fun hsome => (by cases hsome)

def ReplayEvent.landing : ReplayEvent → Option (RecordKey → Bool)
  | call _ | admitOnLink _ _ _ _ _ _ _ | take | settle true _ => none
  | settle false keys | crash keys => some keys

lemma Follows.step (h : Follows events start r a) (hr : start.after events r.steps = r)
    (hgood : r.state.Good)
    (hlinked : Linked (replayTrans events r.steps) a.base (a.writing ++ a.opened))
    {event : ReplayEvent} (hevent : events[r.steps]? = some event)
    (hcut : ∀ keys, event.landing = some keys → lands a { k | keys k = true }) :
    ∃ b, Follows events start (r.step event) b ∧
      Relation.ReflTransGen (ReplayStep events lands (r.steps + 1)) a b := by
  cases event with
  | call call => exact h.commit hr hgood hevent
  | admitOnLink window key sequence digest charge byteCost quotaNow =>
    exact h.admitOnLink hr window key sequence digest charge byteCost quotaNow
  | take => exact h.take hlinked
  | settle durable keys =>
    refine h.settle ?_ durable keys fun hd => hcut keys (by rw [hd]; rfl)
    have hbase := Linked.steps_le hlinked
    rw [tip_append] at hbase
    exact hbase.trans (h.steps.trans (Nat.le_succ _))
  | crash keys => exact h.crash keys (hcut keys rfl)

end Rings
