import Rings.Entry
import Rings.PeerQuota
import Rings.Tally

/-!
The store reports a node awaits for the operations it sent.

Per operation the table keeps the placements not reported yet, the quorum and the sending end of
a receipt. A report takes its placement out; the report that decides the quorum, or the last
one, resolves the receipt and takes the operation out. At most `maxPendingStoreReports`
operations are pending: an `expect` that finds the table full drops those whose receipts are
gone, and tracks nothing if it is still full.

Receipts are numbered in the order of the `expect` calls that made them, and each is the
receiving end of one oneshot channel.
-/

namespace Rings

abbrev OperationDigest := ElementDigest

/-- What the owner of a placement did with an operation. -/
inductive StoreOutcome
  | stored | refused
deriving DecidableEq

inductive StoreQuorum
  | every | any
deriving DecidableEq

def StoreQuorum.decidedBy : StoreQuorum → StoreOutcome → Bool
  | .every, .refused | .any, .stored => true
  | _, _ => false

inductive StoreUnconfirmed
  | refused (placement : Did)
  | untracked
  | abandoned
deriving DecidableEq

/-- What a report resolves its receipt to, when it does. -/
def StoreOutcome.resolution (placement : Did) : StoreOutcome → Except StoreUnconfirmed Unit
  | .stored => .ok ()
  | .refused => .error (.refused placement)

/-- A channel for one value: what was sent, and which ends are there. -/
@[ext]
structure Oneshot where
  slot : Option (Except StoreUnconfirmed Unit)
  sender : Bool
  receiver : Bool

namespace Oneshot

def channel : Oneshot := ⟨none, true, true⟩

/-- `send` uses the sending end up; without a receiver the value is lost. -/
def send (c : Oneshot) (v : Except StoreUnconfirmed Unit) : Oneshot :=
  { c with slot := if c.receiver then some v else c.slot, sender := false }

def dropSender (c : Oneshot) : Oneshot := { c with sender := false }

def dropReceiver (c : Oneshot) : Oneshot := { c with receiver := false }

def isCanceled (c : Oneshot) : Bool := !c.receiver

/-- What a receipt resolves to, if it does: the value sent, or `Abandoned` when the sending end
went without one. -/
def poll (c : Oneshot) : Option (Except StoreUnconfirmed Unit) :=
  match c.slot, c.sender with
  | some v, _ => some v
  | none, true => none
  | none, false => some (.error .abandoned)

end Oneshot

structure Pending where
  awaiting : Finset Did
  quorum : StoreQuorum
  /-- The receipt whose sending end this is. -/
  done : ℕ

structure StoreReports where
  pending : BTreeMap OperationDigest Pending
  channels : ℕ → Oneshot
  next : ℕ

namespace StoreReports

def maxPendingStoreReports : ℕ := 1024

def new : StoreReports := ⟨BTreeMap.empty, fun _ => Oneshot.channel, 0⟩

def setChannel (s : StoreReports) (receipt : ℕ) (c : Oneshot) : StoreReports :=
  { s with channels := Function.update s.channels receipt c }

def poll (s : StoreReports) (receipt : ℕ) : Option (Except StoreUnconfirmed Unit) :=
  (s.channels receipt).poll

/-- `pending.retain(|_, awaited| !awaited.done.is_canceled())`: the sending ends go with the
operations. -/
def dropCanceled (s : StoreReports) : StoreReports :=
  let canceled := fun awaited : Pending => (s.channels awaited.done).isCanceled
  { s with
    pending := s.pending.retain fun _ awaited => !canceled awaited
    channels := fun receipt =>
      if s.pending.entries.any fun kv => canceled kv.2 && kv.2.done = receipt then
        (s.channels receipt).dropSender
      else s.channels receipt }

/-- `pending.insert(operation, awaited)`: the sending end of an operation replaced goes. -/
def insert (s : StoreReports) (operation : OperationDigest) (awaited : Pending) : StoreReports :=
  let s' := match s.pending.get? operation with
    | some old => s.setChannel old.done (s.channels old.done).dropSender
    | none => s
  { s' with pending := s'.pending.insert operation awaited }

def openChannel (s : StoreReports) : StoreReports :=
  { s.setChannel s.next Oneshot.channel with next := s.next + 1 }

/-- A full table drops the operations whose receipts are gone. -/
def prune (s : StoreReports) : StoreReports :=
  if maxPendingStoreReports ≤ s.pending.entries.length then s.dropCanceled else s

/-- Await the reports of `operation` from the owners of `awaiting`; the receipt is `s.next`. -/
def expect (s : StoreReports) (operation : OperationDigest) (awaiting : Finset Did)
    (quorum : StoreQuorum) : StoreReports :=
  if awaiting = ∅ then s.openChannel.setChannel s.next (Oneshot.channel.send (.ok ()))
  else
    let pruned := s.openChannel.prune
    if maxPendingStoreReports ≤ pruned.pending.entries.length ∧
        pruned.pending.get? operation = none then
      pruned.setChannel s.next ((pruned.channels s.next).send (.error .untracked))
    else pruned.insert operation ⟨awaiting, quorum, s.next⟩

/-- Take the report of the owner of `placement` that it did `outcome` with `operation`. -/
def report (s : StoreReports) (operation : OperationDigest) (placement : Did)
    (outcome : StoreOutcome) : StoreReports :=
  match s.pending.get? operation with
  | none => s
  | some awaited =>
    if placement ∈ awaited.awaiting then
      let awaiting := awaited.awaiting.erase placement
      if awaited.quorum.decidedBy outcome = true ∨ awaiting = ∅ then
        { s.setChannel awaited.done
            ((s.channels awaited.done).send (outcome.resolution placement)) with
          pending := s.pending.remove operation }
      else { s with pending := s.pending.insert operation { awaited with awaiting } }
    else s

/-- The holder of a receipt drops it. -/
def dropReceipt (s : StoreReports) (receipt : ℕ) : StoreReports :=
  s.setChannel receipt (s.channels receipt).dropReceiver

inductive Event
  | expect (operation : OperationDigest) (awaiting : Finset Did) (quorum : StoreQuorum)
  | report (operation : OperationDigest) (placement : Did) (outcome : StoreOutcome)
  | dropReceipt (receipt : ℕ)

def step (s : StoreReports) : Event → StoreReports
  | .expect operation awaiting quorum => s.expect operation awaiting quorum
  | .report operation placement outcome => s.report operation placement outcome
  | .dropReceipt receipt => if receipt < s.next then s.dropReceipt receipt else s

def run (s : StoreReports) (events : List Event) : StoreReports := events.foldl step s

/-! ### The table is well formed -/

/-- Every pending operation awaits a report, and its receipt is unresolved, its own and made
before; the table keeps within its bound. -/
structure Good (s : StoreReports) : Prop where
  awaits : ∀ op e, s.pending.get? op = some e → e.awaiting ≠ ∅
  made : ∀ op e, s.pending.get? op = some e → e.done < s.next
  slot : ∀ op e, s.pending.get? op = some e → (s.channels e.done).slot = none
  sender : ∀ op e, s.pending.get? op = some e → (s.channels e.done).sender = true
  own : ∀ op op' e e', s.pending.get? op = some e → s.pending.get? op' = some e' →
    e.done = e'.done → op = op'
  bounded : s.pending.entries.length ≤ maxPendingStoreReports

variable {s : StoreReports} {op : OperationDigest} {e : Pending} {id : ℕ}

@[simp] lemma setChannel_pending (c : Oneshot) : (s.setChannel id c).pending = s.pending := rfl

@[simp] lemma setChannel_next (c : Oneshot) : (s.setChannel id c).next = s.next := rfl

@[simp] lemma setChannel_channels_self (c : Oneshot) : (s.setChannel id c).channels id = c := by
  simp [setChannel]

lemma setChannel_channels {j : ℕ} (c : Oneshot) (h : id ≠ j) :
    (s.setChannel j c).channels id = s.channels id := by
  simp [setChannel, h]

/-- No pending operation has the sending end of a receipt. -/
def Unowned (s : StoreReports) (id : ℕ) : Prop :=
  ∀ op e, s.pending.get? op = some e → e.done ≠ id

/-- A channel no operation has the sending end of may change. -/
lemma Good.setChannel (h : s.Good) (hid : s.Unowned id) (c : Oneshot) :
    (s.setChannel id c).Good where
  awaits := h.awaits
  made := h.made
  slot op e he := by
    rw [setChannel_channels c (hid op e he)]
    exact h.slot op e he
  sender op e he := by
    rw [setChannel_channels c (hid op e he)]
    exact h.sender op e he
  own := h.own
  bounded := h.bounded

lemma Good.unowned_next (h : s.Good) : s.Unowned s.next := fun op e he => (h.made op e he).ne

lemma Good.openChannel (h : s.Good) : s.openChannel.Good where
  awaits := h.awaits
  made op e he := Nat.lt_succ_of_lt (h.made op e he)
  slot := (h.setChannel h.unowned_next Oneshot.channel).slot
  sender := (h.setChannel h.unowned_next Oneshot.channel).sender
  own := h.own
  bounded := h.bounded

lemma openChannel_channels (h : id < s.next) : s.openChannel.channels id = s.channels id :=
  setChannel_channels _ h.ne

@[simp] lemma openChannel_channels_next : s.openChannel.channels s.next = Oneshot.channel :=
  setChannel_channels_self _

@[simp] lemma openChannel_pending : s.openChannel.pending = s.pending := rfl

@[simp] lemma openChannel_next : s.openChannel.next = s.next + 1 := rfl

/-! ### Pruning -/

lemma get?_dropCanceled (s : StoreReports) (op : OperationDigest) :
    s.dropCanceled.pending.get? op =
      (s.pending.get? op).filter fun e => (s.channels e.done).receiver := by
  simp [dropCanceled, BTreeMap.get?_retain, Oneshot.isCanceled]

/-- The operations whose receipts are still held. -/
def live (s : StoreReports) : BTreeMap OperationDigest Pending :=
  s.pending.retain fun _ awaited => (s.channels awaited.done).receiver

lemma dropCanceled_pending : s.dropCanceled.pending = s.live := by
  simp [dropCanceled, live, Oneshot.isCanceled]

lemma dropCanceled_channels
    (h : ∀ op e, s.pending.get? op = some e → e.done = id → (s.channels id).receiver = true) :
    s.dropCanceled.channels id = s.channels id := by
  simp only [dropCanceled]
  rw [if_neg]
  simp only [List.any_eq_true, Bool.and_eq_true, decide_eq_true_eq, not_exists, not_and]
  rintro ⟨op, e⟩ hmem hcanceled rfl
  simp [Oneshot.isCanceled, h op e ((BTreeMap.mem_entries _).1 hmem) rfl] at hcanceled

@[simp] lemma prune_next : s.prune.next = s.next := by
  rw [prune]
  split <;> rfl

lemma of_get?_prune (h : s.prune.pending.get? op = some e) : s.pending.get? op = some e := by
  rw [prune] at h
  split at h
  · rw [get?_dropCanceled, Option.filter_eq_some_iff] at h
    exact h.1
  · exact h

lemma get?_prune (h : s.pending.get? op = some e) (hlive : (s.channels e.done).receiver = true) :
    s.prune.pending.get? op = some e := by
  rw [prune]
  split
  · rw [get?_dropCanceled, Option.filter_eq_some_iff]
    exact ⟨h, hlive⟩
  · exact h

lemma prune_channels
    (h : ∀ op e, s.pending.get? op = some e → e.done = id → (s.channels id).receiver = true) :
    s.prune.channels id = s.channels id := by
  rw [prune]
  split
  · exact dropCanceled_channels h
  · rfl

lemma Good.prune (h : s.Good) : s.prune.Good := by
  -- what stays pending in a pruned table has its receipt
  have hsame : ∀ op e, s.prune.pending.get? op = some e →
      s.prune.channels e.done = s.channels e.done := by
    intro op e he
    have hpending := of_get?_prune he
    rw [StoreReports.prune] at he ⊢
    split at he
    · rename_i hfull
      rw [if_pos hfull]
      rw [get?_dropCanceled, Option.filter_eq_some_iff] at he
      exact dropCanceled_channels fun op' e' he' hdone => he.2
    · rename_i hfull
      rw [if_neg hfull]
  refine ⟨fun op e he => h.awaits op e (of_get?_prune he), fun op e he => ?_, fun op e he => ?_,
    fun op e he => ?_, fun op op' e e' he he' => ?_, ?_⟩
  · rw [prune_next]
    exact h.made op e (of_get?_prune he)
  · rw [hsame op e he]
    exact h.slot op e (of_get?_prune he)
  · rw [hsame op e he]
    exact h.sender op e (of_get?_prune he)
  · exact h.own op op' e e' (of_get?_prune he) (of_get?_prune he')
  · rw [StoreReports.prune]
    split
    · rw [dropCanceled_pending]
      exact (List.length_filter_le _ _).trans h.bounded
    · exact h.bounded

/-! ### Inserting -/

lemma get?_insert_self (s : StoreReports) (op : OperationDigest) (e : Pending) :
    (s.insert op e).pending.get? op = some e := by
  rw [StoreReports.insert, BTreeMap.get?_insert, if_pos rfl]

lemma get?_insert_of_ne {op' : OperationDigest} (h : op' ≠ op) :
    (s.insert op e).pending.get? op' = s.pending.get? op' := by
  rw [StoreReports.insert, BTreeMap.get?_insert, if_neg h]
  cases s.pending.get? op <;> rfl

@[simp] lemma insert_next : (s.insert op e).next = s.next := by
  rw [StoreReports.insert]
  cases s.pending.get? op <;> rfl

lemma insert_channels (h : ∀ old, s.pending.get? op = some old → old.done ≠ id) :
    (s.insert op e).channels id = s.channels id := by
  rw [StoreReports.insert]
  cases hop : s.pending.get? op with
  | none => rfl
  | some old => exact setChannel_channels _ (h old hop).symm

lemma Good.insert (h : s.Good) (hawaits : e.awaiting ≠ ∅) (hmade : e.done < s.next)
    (hfresh : s.Unowned e.done) (hchannel : s.channels e.done = Oneshot.channel)
    (hroom : s.pending.entries.length < maxPendingStoreReports ∨ s.pending.get? op ≠ none) :
    (s.insert op e).Good := by
  have hcases : ∀ op' e', (s.insert op e).pending.get? op' = some e' →
      op' = op ∧ e' = e ∨ op' ≠ op ∧ s.pending.get? op' = some e' := by
    intro op' e' he'
    by_cases hop : op' = op
    · subst hop
      rw [get?_insert_self] at he'
      exact Or.inl ⟨rfl, (Option.some.inj he').symm⟩
    · rw [get?_insert_of_ne hop] at he'
      exact Or.inr ⟨hop, he'⟩
  have hsame : ∀ op' e', (s.insert op e).pending.get? op' = some e' →
      (s.insert op e).channels e'.done = s.channels e'.done := by
    intro op' e' he'
    refine insert_channels fun old hold hdone => ?_
    rcases hcases op' e' he' with ⟨-, rfl⟩ | ⟨hne, hpending⟩
    · exact hfresh op old hold hdone
    · exact hne (h.own op' op e' old hpending hold hdone.symm)
  refine ⟨fun op' e' he' => ?_, fun op' e' he' => ?_, fun op' e' he' => ?_, fun op' e' he' => ?_,
    fun op' op'' e' e'' he' he'' hdone => ?_, ?_⟩
  · rcases hcases op' e' he' with ⟨-, rfl⟩ | ⟨-, hpending⟩
    · exact hawaits
    · exact h.awaits op' e' hpending
  · rw [insert_next]
    rcases hcases op' e' he' with ⟨-, rfl⟩ | ⟨-, hpending⟩
    · exact hmade
    · exact h.made op' e' hpending
  · rw [hsame op' e' he']
    rcases hcases op' e' he' with ⟨-, rfl⟩ | ⟨-, hpending⟩
    · rw [hchannel]
      rfl
    · exact h.slot op' e' hpending
  · rw [hsame op' e' he']
    rcases hcases op' e' he' with ⟨-, rfl⟩ | ⟨-, hpending⟩
    · rw [hchannel]
      rfl
    · exact h.sender op' e' hpending
  · rcases hcases op' e' he' with ⟨rfl, rfl⟩ | ⟨-, hpending⟩ <;>
      rcases hcases op'' e'' he'' with ⟨rfl, rfl⟩ | ⟨-, hpending'⟩
    · rfl
    · exact absurd hdone.symm (hfresh op'' e'' hpending')
    · exact absurd hdone (hfresh op' e' hpending)
    · exact h.own op' op'' e' e'' hpending hpending' hdone
  · have hlen : (s.insert op e).pending.size = (s.pending.insert op e).size := by
      rw [StoreReports.insert]
      cases s.pending.get? op <;> rfl
    have hsize := s.pending.size_insert op e
    change (s.insert op e).pending.size ≤ _
    rw [hlen, hsize]
    cases hop : s.pending.get? op with
    | none =>
      have hlt : s.pending.size < maxPendingStoreReports := hroom.resolve_right (by simp [hop])
      simp only [Option.isSome_none, Bool.false_eq_true, if_false]
      omega
    | some old =>
      simp only [Option.isSome_some, if_true]
      exact h.bounded

/-! ### One step -/

variable {P : Finset Did} {q : StoreQuorum} {p : Did} {o : StoreOutcome}

lemma Unowned.openChannel (h : s.Unowned id) : s.openChannel.Unowned id := h

lemma Unowned.prune (h : s.Unowned id) : s.prune.Unowned id := fun op e he =>
  h op e (of_get?_prune he)

lemma Unowned.insert (h : s.Unowned id) (hne : e.done ≠ id) : (s.insert op e).Unowned id := by
  intro op' e' he'
  by_cases hop : op' = op
  · subst hop
    rw [get?_insert_self] at he'
    cases he'
    exact hne
  · rw [get?_insert_of_ne hop] at he'
    exact h op' e' he'

lemma Good.unowned_pruned (h : s.Good) : s.openChannel.prune.Unowned s.next :=
  Unowned.prune h.unowned_next

lemma pruned_channels_next (h : s.Good) :
    s.openChannel.prune.channels s.next = Oneshot.channel := by
  refine (prune_channels ?_).trans openChannel_channels_next
  exact fun op e he hdone => absurd hdone (h.unowned_next op e he)

lemma Good.expect (h : s.Good) : (s.expect op P q).Good := by
  have hopen := h.openChannel
  rw [StoreReports.expect]
  split
  · exact hopen.setChannel h.unowned_next _
  · rename_i hP
    dsimp only
    split
    · exact hopen.prune.setChannel h.unowned_pruned _
    · rename_i hroom
      refine hopen.prune.insert hP (by simp) h.unowned_pruned (pruned_channels_next h) ?_
      rw [not_and_or, not_le] at hroom
      exact hroom

/-- What a report of an awaited placement does. -/
lemma report_awaited (he : s.pending.get? op = some e) (hp : p ∈ e.awaiting) :
    s.report op p o =
      if e.quorum.decidedBy o = true ∨ e.awaiting.erase p = ∅ then
        { s.setChannel e.done ((s.channels e.done).send (o.resolution p)) with
          pending := s.pending.remove op }
      else { s with pending := s.pending.insert op { e with awaiting := e.awaiting.erase p } } := by
  simp only [StoreReports.report, he, if_pos hp]

/-- A report of an operation or a placement not pending changes nothing. -/
lemma report_unknown (h : ∀ e, s.pending.get? op = some e → p ∉ e.awaiting) :
    s.report op p o = s := by
  rw [StoreReports.report]
  cases he : s.pending.get? op with
  | none => rfl
  | some e => exact if_neg (h e he)

lemma report_cases (s : StoreReports) (op : OperationDigest) (p : Did) (o : StoreOutcome) :
    s.report op p o = s ∨ ∃ e, s.pending.get? op = some e ∧ p ∈ e.awaiting := by
  by_cases h : ∀ e, s.pending.get? op = some e → p ∉ e.awaiting
  · exact Or.inl (report_unknown h)
  · obtain ⟨e, he⟩ := not_forall.1 h
    obtain ⟨he, hp⟩ := Classical.not_imp.1 he
    exact Or.inr ⟨e, he, not_not.1 hp⟩

lemma Unowned.remove (h : s.Good) (he : s.pending.get? op = some e) :
    ({ s with pending := s.pending.remove op } : StoreReports).Unowned e.done := by
  intro op' e' he' hdone
  have hget : (s.pending.remove op).get? op' = some e' := he'
  rw [BTreeMap.get?_remove] at hget
  split at hget
  · cases hget
  · rename_i hne
    exact hne (h.own op' op e' e hget he hdone)

lemma Good.remove (h : s.Good) :
    ({ s with pending := s.pending.remove op } : StoreReports).Good := by
  have hof : ∀ {op' e'}, (s.pending.remove op).get? op' = some e' →
      s.pending.get? op' = some e' := by
    intro op' e' he'
    rw [BTreeMap.get?_remove] at he'
    split at he'
    · cases he'
    · exact he'
  exact ⟨fun op' e' he' => h.awaits op' e' (hof he'), fun op' e' he' => h.made op' e' (hof he'),
    fun op' e' he' => h.slot op' e' (hof he'), fun op' e' he' => h.sender op' e' (hof he'),
    fun op' op'' e' e'' he' he'' => h.own op' op'' e' e'' (hof he') (hof he''),
    (List.length_filter_le _ _).trans h.bounded⟩

/-- An operation waits for fewer placements. -/
lemma Good.narrow (h : s.Good) (he : s.pending.get? op = some e) (hP : P ≠ ∅) :
    ({ s with pending := s.pending.insert op { e with awaiting := P } } : StoreReports).Good := by
  have hof : ∀ {op' e'}, (s.pending.insert op { e with awaiting := P }).get? op' = some e' →
      e'.awaiting ≠ ∅ ∧ ∃ e'', s.pending.get? op' = some e'' ∧ e''.done = e'.done := by
    intro op' e' he'
    rw [BTreeMap.get?_insert] at he'
    split at he'
    · rename_i hop
      cases he'
      exact ⟨hP, e, hop ▸ he, rfl⟩
    · exact ⟨h.awaits op' e' he', e', he', rfl⟩
  refine ⟨fun op' e' he' => (hof he').1, fun op' e' he' => ?_, fun op' e' he' => ?_,
    fun op' e' he' => ?_, fun op' op'' e' e'' he' he'' hdone => ?_, ?_⟩
  · obtain ⟨-, e'', hold, hdone⟩ := hof he'
    exact hdone ▸ h.made op' e'' hold
  · obtain ⟨-, e'', hold, hdone⟩ := hof he'
    exact hdone ▸ h.slot op' e'' hold
  · obtain ⟨-, e'', hold, hdone⟩ := hof he'
    exact hdone ▸ h.sender op' e'' hold
  · obtain ⟨-, d', hold', hdone'⟩ := hof he'
    obtain ⟨-, d'', hold'', hdone''⟩ := hof he''
    exact h.own op' op'' d' d'' hold' hold'' (hdone'.trans (hdone.trans hdone''.symm))
  · change (s.pending.insert op _).size ≤ _
    rw [BTreeMap.size_insert, he]
    exact h.bounded

lemma Good.report (h : s.Good) : (s.report op p o).Good := by
  rcases report_cases s op p o with heq | ⟨e, he, hp⟩
  · rw [heq]
    exact h
  · rw [report_awaited he hp]
    split
    · exact h.remove.setChannel (Unowned.remove h he) _
    · rename_i hopen
      exact h.narrow he fun hempty => hopen (Or.inr hempty)

lemma Good.dropReceipt (h : s.Good) : (s.dropReceipt id).Good := by
  have hsame : ∀ j, ((s.dropReceipt id).channels j).slot = (s.channels j).slot ∧
      ((s.dropReceipt id).channels j).sender = (s.channels j).sender := by
    intro j
    rw [StoreReports.dropReceipt]
    by_cases hj : j = id
    · subst hj
      rw [setChannel_channels_self]
      exact ⟨rfl, rfl⟩
    · rw [setChannel_channels _ hj]
      exact ⟨rfl, rfl⟩
  exact ⟨h.awaits, h.made, fun op e he => (hsame e.done).1.trans (h.slot op e he),
    fun op e he => (hsame e.done).2.trans (h.sender op e he), h.own, h.bounded⟩

lemma Good.step (h : s.Good) (event : Event) : (s.step event).Good := by
  cases event with
  | expect op P q => exact h.expect
  | report op p o => exact h.report
  | dropReceipt id =>
    rw [StoreReports.step]
    split
    · exact h.dropReceipt
    · exact h

lemma good_new : new.Good := by
  refine ⟨?_, ?_, ?_, ?_, ?_, ?_⟩ <;> simp [new, BTreeMap.get?_empty]
  simp [BTreeMap.empty]

lemma Good.run (h : s.Good) (events : List Event) : (s.run events).Good := by
  induction events generalizing s with
  | nil => exact h
  | cons event events ih => exact ih (h.step event)

/-! ### What a step leaves alone -/

@[simp] lemma expect_next : (s.expect op P q).next = s.next + 1 := by
  rw [StoreReports.expect]
  split
  · rfl
  · dsimp only
    split
    · simp
    · simp

@[simp] lemma report_next : (s.report op p o).next = s.next := by
  rcases report_cases s op p o with heq | ⟨e, he, hp⟩
  · rw [heq]
  · rw [report_awaited he hp]
    split <;> rfl

lemma next_le_step (event : Event) : s.next ≤ (s.step event).next := by
  cases event with
  | expect op P q =>
    rw [StoreReports.step, expect_next]
    exact Nat.le_succ _
  | report op p o => rw [StoreReports.step, report_next]
  | dropReceipt id =>
    rw [StoreReports.step]
    split <;> exact le_rfl

lemma expect_channels (hid : id < s.next)
    (hlive : ∀ op e, s.pending.get? op = some e → e.done = id → (s.channels id).receiver = true)
    (hother : ∀ e, s.pending.get? op = some e → e.done = id → P = ∅) :
    (s.expect op P q).channels id = s.channels id := by
  have hpruned : s.openChannel.prune.channels id = s.channels id := by
    rw [← openChannel_channels hid]
    refine prune_channels fun op' e' he' hdone => ?_
    rw [openChannel_channels hid]
    exact hlive op' e' he' hdone
  rw [StoreReports.expect]
  split
  · rw [setChannel_channels _ hid.ne, openChannel_channels hid]
  · rename_i hP
    dsimp only
    split
    · rw [setChannel_channels _ hid.ne, hpruned]
    · rw [insert_channels, hpruned]
      intro old hold hdone
      exact hP (hother old (of_get?_prune (s := s.openChannel) hold) hdone)

/-- An operation whose receipt is held stays pending when another is expected. -/
lemma expect_other {op' : OperationDigest} (h : s.Good) (he : s.pending.get? op = some e)
    (hlive : (s.channels e.done).receiver = true) (hother : op' = op → P = ∅) :
    (s.expect op' P q).pending.get? op = some e ∧
      (s.expect op' P q).channels e.done = s.channels e.done := by
  have hid := h.made op e he
  have hpruned : s.openChannel.prune.pending.get? op = some e := by
    refine get?_prune he ?_
    rw [openChannel_channels hid]
    exact hlive
  constructor
  · rw [StoreReports.expect]
    split
    · exact he
    · rename_i hP
      dsimp only
      split
      · exact hpruned
      · rw [get?_insert_of_ne fun heq => hP (hother heq.symm)]
        exact hpruned
  · refine expect_channels hid (fun _ _ _ _ => hlive) fun e' he' hdone => ?_
    exact hother (h.own op' op e' e he' he hdone)

lemma report_channels (h : ∀ e, s.pending.get? op = some e → e.done ≠ id) :
    (s.report op p o).channels id = s.channels id := by
  rcases report_cases s op p o with heq | ⟨e, he, hp⟩
  · rw [heq]
  · rw [report_awaited he hp]
    split
    · exact setChannel_channels _ (h e he).symm
    · rfl

lemma report_get?_of_ne {op' : OperationDigest} (h : op' ≠ op) :
    (s.report op p o).pending.get? op' = s.pending.get? op' := by
  rcases report_cases s op p o with heq | ⟨e, he, hp⟩
  · rw [heq]
  · rw [report_awaited he hp]
    split
    · exact (BTreeMap.get?_remove _ _ _).trans (if_neg h)
    · exact (BTreeMap.get?_insert _ _ _ _).trans (if_neg h)

lemma Unowned.step (hu : s.Unowned id) (hid : id < s.next) (event : Event) :
    (s.step event).Unowned id ∧ (s.step event).poll id = s.poll id := by
  cases event with
  | expect op P q =>
    refine ⟨?_, congrArg Oneshot.poll (expect_channels hid ?_ ?_)⟩
    · change (s.expect op P q).Unowned id
      rw [StoreReports.expect]
      split
      · exact hu
      · dsimp only
        split
        · exact hu.openChannel.prune
        · exact hu.openChannel.prune.insert hid.ne'
    · exact fun op' e' he' hdone => absurd hdone (hu op' e' he')
    · exact fun e' he' hdone => absurd hdone (hu op e' he')
  | report op p o =>
    refine ⟨fun op' e' he' => ?_, congrArg Oneshot.poll (report_channels (hu op))⟩
    change (s.report op p o).pending.get? op' = some e' at he'
    by_cases hop : op' = op
    · subst hop
      rcases report_cases s op' p o with heq | ⟨e, he, hp⟩
      · rw [heq] at he'
        exact hu op' e' he'
      · rw [report_awaited he hp] at he'
        split at he'
        · rw [BTreeMap.get?_remove, if_pos rfl] at he'
          cases he'
        · rw [BTreeMap.get?_insert, if_pos rfl] at he'
          cases he'
          exact hu op' e he
    · rw [report_get?_of_ne hop] at he'
      exact hu op' e' he'
  | dropReceipt j =>
    rw [StoreReports.step]
    split
    · refine ⟨hu, ?_⟩
      by_cases hj : id = j
      · subst hj
        rw [poll, StoreReports.dropReceipt, setChannel_channels_self]
        rfl
      · exact congrArg Oneshot.poll (setChannel_channels _ hj)
    · exact ⟨hu, rfl⟩

/-- A receipt that resolved has no operation pending. -/
lemma Good.unowned_of_poll {v : Except StoreUnconfirmed Unit} (h : s.Good)
    (hv : s.poll id = some v) : s.Unowned id := by
  rintro op e he rfl
  rw [poll, Oneshot.poll, h.slot op e he, h.sender op e he] at hv
  cases hv

/-- **A resolved receipt stays resolved.** -/
lemma Good.poll_run {v : Except StoreUnconfirmed Unit} (h : s.Good) (hid : id < s.next)
    (hv : s.poll id = some v) (events : List Event) : (s.run events).poll id = some v := by
  induction events generalizing s with
  | nil => exact hv
  | cons event events ih =>
    refine ih (h.step event) (hid.trans_le (next_le_step event)) ?_
    rw [((h.unowned_of_poll hv).step hid event).2]
    exact hv

/-! ### A tracked receipt follows the tally of its reports -/

/-- The report of `op` an event is. -/
def Event.reportOf (op : OperationDigest) : Event → Option (Did × StoreOutcome)
  | .report operation placement outcome =>
    if operation = op then some (placement, outcome) else none
  | _ => none

/-- The reports of `op`, in order. -/
def reportsOf (op : OperationDigest) (events : List Event) : List (Did × StoreOutcome) :=
  events.filterMap (Event.reportOf op)

/-- The event neither replaces the pending `op` nor drops the receipt `id`. -/
def Event.Keeps (op : OperationDigest) (id : ℕ) : Event → Prop
  | .expect operation awaiting _ => operation = op → awaiting = ∅
  | .report _ _ _ => True
  | .dropReceipt receipt => receipt ≠ id

/-- A receipt that waits for the placements its reports `l` left, or resolved to the one that
settled them. -/
inductive Tracks (s : StoreReports) (op : OperationDigest) (id : ℕ) (q : StoreQuorum)
    (P : Finset Did) (l : List (Did × StoreOutcome)) : Prop
  | waiting (open_ : Tally.settles q.decidedBy P l = none)
      (pending : s.pending.get? op = some ⟨Tally.awaits P l, q, id⟩)
      (held : s.channels id = Oneshot.channel)
  | resolved (r : Did × StoreOutcome) (settled : Tally.settles q.decidedBy P l = some r)
      (made : id < s.next) (sent : s.poll id = some (r.2.resolution r.1))

/-- A report the tracked receipt waits for, or not. -/
lemma Tracks.report {l : List (Did × StoreOutcome)} (h : s.Good)
    (hopen : Tally.settles q.decidedBy P l = none)
    (hpending : s.pending.get? op = some ⟨Tally.awaits P l, q, id⟩)
    (hheld : s.channels id = Oneshot.channel) :
    (s.report op p o).Tracks op id q P (l ++ [(p, o)]) := by
  have hconcat := Tally.settles_concat hopen (p, o)
  have hawaits := @Tally.awaits_concat _ _ _ P l (p, o)
  by_cases hp : p ∈ Tally.awaits P l
  · rw [report_awaited hpending hp]
    dsimp only
    by_cases hd : q.decidedBy o = true ∨ (Tally.awaits P l).erase p = ∅
    · rw [if_pos hd]
      rw [if_pos ⟨hp, hd⟩] at hconcat
      refine Tracks.resolved (p, o) hconcat (h.made op _ hpending) ?_
      change Oneshot.poll ((s.setChannel id _).channels id) = _
      rw [setChannel_channels_self, hheld]
      rfl
    · rw [if_neg hd]
      rw [if_neg fun hor => hd hor.2] at hconcat
      refine Tracks.waiting hconcat ?_ hheld
      rw [hawaits]
      exact (BTreeMap.get?_insert _ _ _ _).trans (if_pos rfl)
  · rw [report_unknown]
    · rw [if_neg fun hor => hp hor.1] at hconcat
      refine Tracks.waiting hconcat ?_ hheld
      rw [hawaits, Finset.erase_eq_of_notMem hp]
      exact hpending
    · intro e he
      rw [hpending] at he
      cases he
      exact hp

lemma Tracks.step {l : List (Did × StoreOutcome)} (h : s.Good) (ht : s.Tracks op id q P l)
    {event : Event} (hkeeps : event.Keeps op id) :
    (s.step event).Tracks op id q P (l ++ reportsOf op [event]) := by
  cases ht with
  | resolved r settled made sent =>
    refine Tracks.resolved r (Tally.settles_append_of_some settled _)
      (made.trans_le (next_le_step event)) ?_
    rw [((h.unowned_of_poll sent).step made event).2]
    exact sent
  | waiting hopen hpending hheld =>
    have hlive : (s.channels id).receiver = true := by
      rw [hheld]
      rfl
    cases event with
    | expect op' P' q' =>
      obtain ⟨hget, hchannel⟩ := expect_other (q := q') h hpending hlive hkeeps
      rw [show reportsOf op [.expect op' P' q'] = [] from rfl, List.append_nil]
      exact Tracks.waiting hopen hget (hchannel.trans hheld)
    | report op' p o =>
      by_cases hop : op' = op
      · subst hop
        have hreport : reportsOf op' [.report op' p o] = [(p, o)] := by
          simp [reportsOf, Event.reportOf]
        rw [hreport]
        exact Tracks.report h hopen hpending hheld
      · have hreport : reportsOf op [.report op' p o] = [] := by
          simp [reportsOf, Event.reportOf, hop]
        rw [hreport, List.append_nil]
        refine Tracks.waiting hopen ?_ ?_
        · exact (report_get?_of_ne fun heq => hop heq.symm).trans hpending
        · refine (report_channels fun e he hdone => ?_).trans hheld
          exact hop (h.own op' op e _ he hpending hdone)
    | dropReceipt j =>
      rw [show reportsOf op [.dropReceipt j] = [] from rfl, List.append_nil, StoreReports.step]
      split
      · refine Tracks.waiting hopen hpending ?_
        exact (setChannel_channels _ fun heq => hkeeps heq.symm).trans hheld
      · exact Tracks.waiting hopen hpending hheld

lemma Tracks.run {l : List (Did × StoreOutcome)} (h : s.Good) (ht : s.Tracks op id q P l)
    {events : List Event} (hkeeps : ∀ event ∈ events, event.Keeps op id) :
    (s.run events).Tracks op id q P (l ++ reportsOf op events) := by
  induction events generalizing s l with
  | nil => simpa [reportsOf, StoreReports.run] using ht
  | cons event events ih =>
    have hstep := ht.step h (hkeeps event List.mem_cons_self)
    have hrun := ih (h.step event) hstep fun e he => hkeeps e (List.mem_cons_of_mem _ he)
    have hsplit : reportsOf op (event :: events) =
        reportsOf op [event] ++ reportsOf op events := by
      rw [reportsOf, reportsOf, reportsOf, ← List.filterMap_append, List.singleton_append]
    rw [hsplit, ← List.append_assoc]
    exact hrun

/-- What is resolved is what the tally settled. -/
lemma Tracks.poll_iff {l : List (Did × StoreOutcome)} (ht : s.Tracks op id q P l)
    (v : Except StoreUnconfirmed Unit) : s.poll id = some v ↔
      ∃ r, Tally.settles q.decidedBy P l = some r ∧ v = r.2.resolution r.1 := by
  cases ht with
  | waiting hopen _ hheld =>
    rw [poll, hheld, hopen]
    simp [Oneshot.poll, Oneshot.channel]
  | resolved r settled _ sent =>
    rw [sent, settled]
    simp [eq_comm]

/-- An `expect` tracks its receipt, unless it is untracked at once. -/
lemma Good.tracks_expect (h : s.Good) (hP : P ≠ ∅)
    (hpoll : (s.expect op P q).poll s.next ≠ some (.error .untracked)) :
    (s.expect op P q).Tracks op s.next q P [] := by
  have hchannel := pruned_channels_next h
  rw [StoreReports.expect, if_neg hP] at hpoll ⊢
  dsimp only at hpoll ⊢
  split at hpoll
  · refine absurd ?_ hpoll
    rw [poll, setChannel_channels_self, hchannel]
    rfl
  · rename_i hroom
    rw [if_neg hroom]
    refine Tracks.waiting rfl ?_ ?_
    · rw [get?_insert_self, Tally.awaits_nil]
    · rw [insert_channels, hchannel]
      exact fun old hold => h.unowned_pruned op old hold

/-! ### The bound -/

lemma live_openChannel (h : s.Good) : s.openChannel.live = s.live := by
  refine BTreeMap.ext_get? fun op => ?_
  rw [live, live, BTreeMap.get?_retain, BTreeMap.get?_retain, openChannel_pending]
  cases hop : s.pending.get? op with
  | none => rfl
  | some e => rw [Option.filter_some, Option.filter_some, openChannel_channels (h.made op e hop)]

/-- A pruned table is full when live receipts fill it, and then holds no others. -/
lemma prune_full_iff (op : OperationDigest) (h : s.Good) :
    (maxPendingStoreReports ≤ s.prune.pending.entries.length ∧ s.prune.pending.get? op = none) ↔
      s.live.entries.length = maxPendingStoreReports ∧ s.live.get? op = none := by
  have hle : s.live.entries.length ≤ s.pending.entries.length := List.length_filter_le _ _
  have hbounded := h.bounded
  rw [prune]
  split
  · rw [dropCanceled_pending]
    exact and_congr_left fun _ =>
      ⟨fun hfull => le_antisymm (hle.trans hbounded) hfull, fun hlen => hlen.ge⟩
  · rename_i hroom
    exact ⟨fun hfull => absurd hfull.1 hroom, fun hfull => absurd (hfull.1 ▸ hle) hroom⟩

/-- **An `expect` tracks its receipt, except when live receipts fill the table.** -/
lemma expect_poll (h : s.Good) (hP : P ≠ ∅) : (s.expect op P q).poll s.next =
    if s.live.entries.length = maxPendingStoreReports ∧ s.live.get? op = none then
      some (.error .untracked) else none := by
  have hchannel := pruned_channels_next h
  have hfull := prune_full_iff op h.openChannel
  rw [live_openChannel h] at hfull
  rw [StoreReports.expect, if_neg hP]
  dsimp only
  split
  · rename_i hpruned
    rw [if_pos (hfull.1 hpruned), poll, setChannel_channels_self, hchannel]
    rfl
  · rename_i hpruned
    rw [if_neg (fun hlive => hpruned (hfull.2 hlive)), poll, insert_channels, hchannel]
    · rfl
    · exact fun old hold => h.unowned_pruned op old hold

/-- With nothing to await, the receipt is stored at once. -/
lemma expect_nothing : (s.expect op ∅ q).poll s.next = some (.ok ()) := by
  rw [StoreReports.expect, if_pos rfl, poll, setChannel_channels_self]
  rfl

/-! ### What a receipt tells -/

/-- What the first reports of the placements `P` come to under a quorum. -/
inductive Verdict (P : Finset Did) (l : List (Did × StoreOutcome)) :
    StoreQuorum → Except StoreUnconfirmed Unit → Prop
  | everyStored (all : ∀ p ∈ P, l.lookup p = some .stored) : Verdict P l .every (.ok ())
  | everyRefused (p : Did) (awaited : p ∈ P) (refused : l.lookup p = some .refused)
      (first : ∀ p' ∈ P, l.lookup p' = some .refused →
        Tally.reportedAt l p ≤ Tally.reportedAt l p') :
      Verdict P l .every (.error (.refused p))
  | anyStored (p : Did) (awaited : p ∈ P) (stored : l.lookup p = some .stored) :
      Verdict P l .any (.ok ())
  | anyRefused (p : Did) (awaited : p ∈ P) (all : ∀ p' ∈ P, l.lookup p' = some .refused)
      (last : ∀ p' ∈ P, Tally.reportedAt l p' ≤ Tally.reportedAt l p) :
      Verdict P l .any (.error (.refused p))

variable {l : List (Did × StoreOutcome)} {v : Except StoreUnconfirmed Unit}

lemma Verdict.settles (hP : P.Nonempty) (h : Verdict P l q v) :
    ∃ r, Tally.settles q.decidedBy P l = some r ∧ v = r.2.resolution r.1 := by
  simp only [Tally.settles_eq_some hP]
  cases h with
  | everyStored all =>
    obtain ⟨p, hp, hlast⟩ := Finset.exists_max_image P (Tally.reportedAt l) hP
    refine ⟨(p, .stored), ⟨hp, all p hp, Or.inr fun p' hp' => ?_⟩, rfl⟩
    exact ⟨⟨.stored, all p' hp', rfl⟩, hlast p' hp'⟩
  | everyRefused p hp hrefused hfirst =>
    refine ⟨(p, .refused), ⟨hp, hrefused, Or.inl ⟨rfl, fun p' hp' o ho hd => ?_⟩⟩, rfl⟩
    cases o with
    | stored => cases hd
    | refused => exact hfirst p' hp' ho
  | anyStored p hp hstored =>
    obtain ⟨r, hr, hfirst⟩ := Finset.exists_min_image
      (P.filter fun p => l.lookup p = some .stored) (Tally.reportedAt l)
      ⟨p, Finset.mem_filter.2 ⟨hp, hstored⟩⟩
    obtain ⟨hrP, hrstored⟩ := Finset.mem_filter.1 hr
    refine ⟨(r, .stored), ⟨hrP, hrstored, Or.inl ⟨rfl, fun p' hp' o ho hd => ?_⟩⟩, rfl⟩
    cases o with
    | stored => exact hfirst p' (Finset.mem_filter.2 ⟨hp', ho⟩)
    | refused => cases hd
  | anyRefused p hp hall hlast =>
    refine ⟨(p, .refused), ⟨hp, hall p hp, Or.inr fun p' hp' => ?_⟩, rfl⟩
    exact ⟨⟨.refused, hall p' hp', rfl⟩, hlast p' hp'⟩

lemma verdict_of_settles (hP : P.Nonempty) {r : Did × StoreOutcome}
    (h : Tally.settles q.decidedBy P l = some r) : Verdict P l q (r.2.resolution r.1) := by
  obtain ⟨p, o⟩ := r
  obtain ⟨hp, hfirst, hsettled⟩ := Tally.settled_of_settles hP h
  rcases hsettled with ⟨hd, hmin⟩ | hall
  · cases q with
    | every =>
      cases o with
      | stored => cases hd
      | refused => exact Verdict.everyRefused p hp hfirst fun p' hp' ho => hmin p' hp' _ ho rfl
    | any =>
      cases o with
      | stored => exact Verdict.anyStored p hp hfirst
      | refused => cases hd
  · have hother : ∀ p' ∈ P, ∃ o', l.lookup p' = some o' ∧ q.decidedBy o' = false :=
      fun p' hp' => (hall p' hp').1
    cases q with
    | every =>
      have hstored : ∀ p' ∈ P, l.lookup p' = some .stored := by
        intro p' hp'
        obtain ⟨o', ho', hd⟩ := hother p' hp'
        cases o' with
        | stored => exact ho'
        | refused => cases hd
      cases hfirst.symm.trans (hstored p hp)
      exact Verdict.everyStored hstored
    | any =>
      have hrefused : ∀ p' ∈ P, l.lookup p' = some .refused := by
        intro p' hp'
        obtain ⟨o', ho', hd⟩ := hother p' hp'
        cases o' with
        | stored => cases hd
        | refused => exact ho'
      cases hfirst.symm.trans (hrefused p hp)
      exact Verdict.anyRefused p hp hrefused fun p' hp' => (hall p' hp').2

lemma verdict_iff (hP : P.Nonempty) : Verdict P l q v ↔
    ∃ r, Tally.settles q.decidedBy P l = some r ∧ v = r.2.resolution r.1 := by
  refine ⟨Verdict.settles hP, ?_⟩
  rintro ⟨r, hr, rfl⟩
  exact verdict_of_settles hP hr

lemma exists_decidedBy (q : StoreQuorum) (b : Bool) : ∃ o, q.decidedBy o = b := by
  cases q <;> cases b
  · exact ⟨.stored, rfl⟩
  · exact ⟨.refused, rfl⟩
  · exact ⟨.refused, rfl⟩
  · exact ⟨.stored, rfl⟩

lemma resolution_inj {p p' : Did} {o o' : StoreOutcome}
    (h : o.resolution p = o'.resolution p') : o = o' := by
  cases o <;> cases o' <;> first | rfl | cases h

/-- A verdict is reached when whatever is still reported leaves it. -/
lemma verdict_iff_certain (hP : P.Nonempty) : Verdict P l q v ↔
    ∀ m, Tally.Complete P (l ++ m) → Verdict P (l ++ m) q v := by
  constructor
  · intro h m _
    obtain ⟨r, hr, hv⟩ := h.settles hP
    exact (verdict_iff hP).2 ⟨r, Tally.settles_append_of_some hr m, hv⟩
  · intro h
    rw [verdict_iff hP]
    cases hs : Tally.settles q.decidedBy P l with
    | some r =>
      obtain ⟨o, -⟩ := exists_decidedBy q true
      obtain ⟨r', hr', hv⟩ := (h _ (Tally.missing_complete P l o)).settles hP
      rw [Tally.settles_append_of_some hs, Option.some.injEq] at hr'
      exact ⟨r, rfl, hr' ▸ hv⟩
    | none =>
      -- the placements still missing could report either way
      obtain ⟨o, ho⟩ := exists_decidedBy q true
      obtain ⟨o', ho'⟩ := exists_decidedBy q false
      obtain ⟨r, hr, hd⟩ := Tally.settles_missing_true hP hs ho
      obtain ⟨r', hr', hd'⟩ := Tally.settles_missing_false hP hs ho'
      obtain ⟨t, ht, hv⟩ := (h _ (Tally.missing_complete P l o)).settles hP
      obtain ⟨t', ht', hv'⟩ := (h _ (Tally.missing_complete P l o')).settles hP
      cases hr.symm.trans ht
      cases hr'.symm.trans ht'
      rw [resolution_inj (hv.symm.trans hv'), hd'] at hd
      cases hd

/-- **A receipt tells the truth about its quorum**, whatever happened to the table before. -/
theorem receipt_tells_quorum (before : List Event) :
    let s := new.run before
    -- at most so many operations are pending
    s.pending.entries.length ≤ maxPendingStoreReports ∧
    -- a receipt is untracked only when so many operations with live receipts are pending
    (∀ op P q, (s.expect op P q).poll s.next = some (.error .untracked) →
      s.live.entries.length = maxPendingStoreReports ∧ s.live.get? op = none) ∧
    -- and then it is; any other that awaits a placement is open, left for the reports to come
    (∀ op (P : Finset Did) q, P.Nonempty → (s.expect op P q).poll s.next =
      if s.live.entries.length = maxPendingStoreReports ∧ s.live.get? op = none then
        some (.error .untracked) else none) ∧
    -- a report of an operation or a placement not pending changes nothing
    (∀ op p o, (∀ e, s.pending.get? op = some e → p ∉ e.awaiting) → s.report op p o = s) ∧
    -- no tracked receipt is resolved by an `expect` of another operation
    (∀ op e, s.pending.get? op = some e → (s.channels e.done).receiver = true →
      ∀ op' P q, op' ≠ op → (s.expect op' P q).pending.get? op = some e ∧
        (s.expect op' P q).channels e.done = s.channels e.done) ∧
    -- a resolved receipt stays resolved
    (∀ id < s.next, ∀ v, s.poll id = some v → ∀ later, (s.run later).poll id = some v) ∧
    -- a tracked receipt resolves with its verdict, once it is certain
    ∀ op (P : Finset Did) q, P.Nonempty →
      (s.expect op P q).poll s.next ≠ some (.error .untracked) →
      ∀ after : List Event, (∀ event ∈ after, event.Keeps op s.next) → ∀ v,
        (((s.expect op P q).run after).poll s.next = some v ↔
          Verdict P (reportsOf op after) q v) ∧
        (Verdict P (reportsOf op after) q v ↔ ∀ m,
          Tally.Complete P (reportsOf op after ++ m) →
            Verdict P (reportsOf op after ++ m) q v) := by
  intro s
  have h : s.Good := good_new.run before
  refine ⟨h.bounded, fun op P q hpoll => ?_, fun op P q hP => expect_poll h hP.ne_empty,
    fun op p o => report_unknown,
    fun op e he hlive op' P q hne => expect_other h he hlive fun heq => absurd heq hne,
    fun id hid v hv later => h.poll_run hid hv later, fun op P q hP hpoll after hkeeps v => ?_⟩
  · by_cases hP : P = ∅
    · subst hP
      rw [expect_nothing] at hpoll
      cases hpoll
    · rw [expect_poll h hP] at hpoll
      split at hpoll
      · assumption
      · cases hpoll
  · have htracks := (h.tracks_expect hP.ne_empty hpoll).run h.expect hkeeps
    rw [List.nil_append] at htracks
    exact ⟨(htracks.poll_iff v).trans (verdict_iff hP).symm, verdict_iff_certain hP⟩

def oneDigest : OperationDigest := ⟨7⟩

/-- Two owners under each quorum: a report of a third, and the second report of one, tell
nothing. -/
theorem receipt_tells_quorum_owners :
    ((new.expect oneDigest {1, 2} .every).run [.report oneDigest 3 .refused,
      .report oneDigest 1 .stored, .report oneDigest 1 .refused,
      .report oneDigest 2 .stored]).poll 0 = some (.ok ()) ∧
    ((new.expect oneDigest {1, 2} .any).run [.report oneDigest 2 .refused,
      .report oneDigest 3 .stored, .report oneDigest 2 .stored,
      .report oneDigest 1 .refused]).poll 0 = some (.error (.refused 1)) := by
  obtain ⟨-, -, hopen, -, -, -, hquorum⟩ := receipt_tells_quorum []
  have htracked : ∀ q, (new.expect oneDigest {1, 2} q).poll 0 ≠ some (.error .untracked) := by
    intro q
    have hpoll := hopen oneDigest {1, 2} q ⟨1, by simp⟩
    rw [if_neg] at hpoll
    · exact fun hnot => by cases hpoll.symm.trans hnot
    · simp [new, run, live, BTreeMap.empty, BTreeMap.retain, maxPendingStoreReports]
  constructor
  · refine (hquorum oneDigest {1, 2} .every ⟨1, by simp⟩ (htracked _) _ ?_ _).1.2 (.everyStored ?_)
    · simp [Event.Keeps]
    · simp [reportsOf, Event.reportOf, List.lookup_cons]
  · refine (hquorum oneDigest {1, 2} .any ⟨1, by simp⟩ (htracked _) _ ?_ _).1.2
      (.anyRefused 1 ?_ ?_ ?_)
    · simp [Event.Keeps]
    · simp
    · simp [reportsOf, Event.reportOf, List.lookup_cons]
    · simp [reportsOf, Event.reportOf, Tally.reportedAt, List.findIdx, List.findIdx.go]

end StoreReports

end Rings
