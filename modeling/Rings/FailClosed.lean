import Rings.ReplayLaws

/-!
Group commit fails closed.

A failed batch leaves the speculative state as it was before the first transition of the batch,
and fails every transition that joined it or the batch open after it. What a caller is told went
through is on disk, with every earlier transition it could have read.
-/

namespace Rings

open GroupCommit

def Runtime.pending (r : Runtime) : List Waiter :=
  r.writing.elim [] Batch.waiters ++ r.journal.opened.waiters

def Batch.Gathered (b : Batch) : Prop :=
  ∀ w ∈ b.waiters, ∀ k, (w.records.get? k).isSome = true →
    ∃ y ∈ b.waiters, w.index ≤ y.index ∧ (y.records.get? k).isSome = true ∧
      y.records.get? k = b.records.get? k

def Began (events : List ReplayEvent) (n : ℕ) (waiters : List Waiter) : Prop :=
  (∀ w ∈ waiters, n ≤ w.index) ∧
    ((∃ w ∈ waiters, w.index = n) ∨
      ∃ window key sequence digest charge byteCost quotaNow,
        events[n]? = some (.admitOnLink window key sequence digest charge byteCost quotaNow))

/-- The records of a released transition were on disk when it was released, each as it staged
it or as a later member of its batch did. -/
def OnDisk (start : Runtime) (events : List ReplayEvent) (returned : List Returned)
    (x : Returned) : Prop :=
  ∀ k, (x.waiter.records.get? k).isSome = true →
    ∃ y ∈ returned, y.durable = true ∧ y.atStep = x.atStep ∧ x.waiter.index ≤ y.waiter.index ∧
      y.waiter.records.get? k = some ((start.after events (x.atStep + 1)).disk.get? k)

/-- The transition of step `i` was never returned: a crash took it, before any transition that
was not lost with it ran. -/
def Lost (events : List ReplayEvent) (r : Runtime) (i : ℕ) : Prop :=
  ∃ m keys, i < m ∧ m < r.steps ∧ events[m]? = some (.crash keys) ∧
    (∀ x ∈ r.returned, i < x.waiter.index → m < x.waiter.index) ∧
    ∀ w ∈ r.pending, m < w.index

structure InOrder (start : Runtime) (events : List ReplayEvent) (r : Runtime) : Prop where
  returned : r.returned.Pairwise fun v x => v.waiter.index < x.waiter.index ∧
    v.atStep ≤ x.atStep ∧ (x.durable = true → v.durable = true ∨ v.atStep < x.waiter.index)
  pending : r.pending.Pairwise fun v w => v.index < w.index
  between : ∀ v ∈ r.returned, ∀ w ∈ r.pending, v.waiter.index < w.index ∧
    (v.durable = true ∨ v.atStep < w.index)
  past : ∀ w ∈ r.pending, w.index < r.steps
  settled : ∀ v ∈ r.returned, v.waiter.index < v.atStep ∧ v.atStep < r.steps
  accounted : ∀ i call, i < r.steps → events[i]? = some (.call call) →
    (∃ v ∈ r.returned, v.waiter.index = i) ∨ (∃ w ∈ r.pending, w.index = i) ∨ Lost events r i
  openGathered : r.journal.opened.Gathered
  writeGathered : ∀ b, r.writing = some b → b.Gathered
  durable : ∀ x ∈ r.returned, x.durable = true → OnDisk start events r.returned x
  openBegan : ∀ m, r.openedAt = some m → Began events m r.journal.opened.waiters
  writeBegan : ∀ b m, r.writing = some b → r.writingAt = some m → Began events m b.waiters

variable {start r : Runtime} {events : List ReplayEvent}

lemma OnDisk.mono {returned returned' : List Returned} (hsub : returned ⊆ returned')
    {x : Returned} (h : OnDisk start events returned x) : OnDisk start events returned' x := by
  intro k hk
  obtain ⟨y, hy, hrest⟩ := h k hk
  exact ⟨y, hsub hy, hrest⟩

/-- One more step with nothing said keeps the order. -/
lemma InOrder.stay (h : InOrder start events r) {r' : Runtime} (hreturned : r'.returned = r.returned)
    (hpending : r'.pending = r.pending) (hsteps : r'.steps = r.steps + 1)
    (hevent : ∀ call, events[r.steps]? ≠ some (.call call))
    (hopened : r'.journal.opened.Gathered) (hwriting : ∀ b, r'.writing = some b → b.Gathered)
    (hopen : ∀ m, r'.openedAt = some m → Began events m r'.journal.opened.waiters)
    (hwrite : ∀ b m, r'.writing = some b → r'.writingAt = some m → Began events m b.waiters) :
    InOrder start events r' := by
  refine ⟨?_, ?_, ?_, ?_, ?_, ?_, hopened, hwriting, ?_, hopen, hwrite⟩
  · rw [hreturned]
    exact h.returned
  · rw [hpending]
    exact h.pending
  · rw [hreturned, hpending]
    exact h.between
  · rw [hpending, hsteps]
    exact fun w hw => (h.past w hw).trans (Nat.lt_succ_self _)
  · rw [hreturned, hsteps]
    exact fun v hv => ⟨(h.settled v hv).1, (h.settled v hv).2.trans (Nat.lt_succ_self _)⟩
  · intro i call hi hcall
    rw [hsteps] at hi
    rcases Nat.lt_succ_iff_lt_or_eq.1 hi with hi | rfl
    · rw [Lost, hreturned, hpending, hsteps]
      rcases h.accounted i call hi hcall with hv | hw | ⟨m, keys, him, hm, hlost⟩
      · exact Or.inl hv
      · exact Or.inr (Or.inl hw)
      · exact Or.inr (Or.inr ⟨m, keys, him, hm.trans (Nat.lt_succ_self _), hlost⟩)
    · exact absurd hcall (hevent call)
  · rw [hreturned]
    exact h.durable

/-- A member that joins a batch writes over what earlier members staged. -/
lemma Batch.Gathered.join {j : Journal} (h : j.opened.Gathered) {l : Ledger} {w : Waiter}
    (hw : w.records = l.records) (hlast : ∀ v ∈ j.opened.waiters, v.index < w.index) :
    (j.join l w).opened.Gathered := by
  have hrecords : ∀ k, (j.join l w).opened.records.get? k =
      (w.records.get? k).or (j.opened.records.get? k) := by
    intro k
    rw [hw]
    exact BTreeMap.get?_extend _ _ k
  intro v hv k hk
  rw [hrecords k]
  rcases hnew : w.records.get? k with _ | x
  · rcases List.mem_append.1 hv with hv | hv
    · obtain ⟨y, hy, hle, hsome, heq⟩ := h v hv k hk
      exact ⟨y, List.mem_append_left _ hy, hle, hsome, heq⟩
    · obtain rfl := List.mem_singleton.1 hv
      rw [hnew] at hk
      cases hk
  · refine ⟨w, List.mem_append_right _ List.mem_cons_self, ?_, ?_, ?_⟩
    · rcases List.mem_append.1 hv with hv | hv
      · exact (hlast v hv).le
      · obtain rfl := List.mem_singleton.1 hv
        exact le_rfl
    · rw [hnew]
      rfl
    · rw [hnew]
      rfl

lemma Began.join {waiters : List Waiter} {w : Waiter} {m : ℕ} (h : Began events m waiters)
    (hw : m ≤ w.index) : Began events m (waiters ++ [w]) := by
  refine ⟨fun v hv => ?_, ?_⟩
  · rcases List.mem_append.1 hv with hv | hv
    · exact h.1 v hv
    · obtain rfl := List.mem_singleton.1 hv
      exact hw
  · rcases h.2 with ⟨v, hv, hm⟩ | hlink
    · exact Or.inl ⟨v, List.mem_append_left _ hv, hm⟩
    · exact Or.inr hlink

lemma InOrder.join (h : InOrder start events r) {a : Committing} (ha : Follows events start r a)
    {r' : Runtime} {l : Ledger} {w : Waiter} (hreturned : r'.returned = r.returned)
    (hwriting : r'.writing = r.writing) (hjournal : r'.journal = r.journal.join l w)
    (hsteps : r'.steps = r.steps + 1) (hopen : r'.openedAt = some (r.openedAt.getD r.steps))
    (hwriteAt : r'.writingAt = r.writingAt) (hw : w.index = r.steps)
    (hrecords : w.records = l.records) : InOrder start events r' := by
  have hpending : r'.pending = r.pending ++ [w] := by
    rw [Runtime.pending, hwriting, hjournal, Runtime.pending, List.append_assoc]
    rfl
  have hlast : ∀ v ∈ r.journal.opened.waiters, v.index < w.index := fun v hv =>
    hw ▸ h.past v (List.mem_append_right _ hv)
  constructor
  case returned =>
    rw [hreturned]
    exact h.returned
  case pending =>
    rw [hpending]
    refine List.pairwise_append.2 ⟨h.pending, List.pairwise_singleton _ _, fun v hv y hy => ?_⟩
    obtain rfl := List.mem_singleton.1 hy
    exact hw ▸ h.past v hv
  case between =>
    rw [hpending, hreturned]
    intro v hv y hy
    rcases List.mem_append.1 hy with hy | hy
    · exact h.between v hv y hy
    · obtain rfl := List.mem_singleton.1 hy
      obtain ⟨hran, hsettled⟩ := h.settled v hv
      rw [hw]
      exact ⟨hran.trans hsettled, Or.inr hsettled⟩
  case past =>
    rw [hpending, hsteps]
    intro v hv
    rcases List.mem_append.1 hv with hv | hv
    · exact (h.past v hv).trans (Nat.lt_succ_self _)
    · obtain rfl := List.mem_singleton.1 hv
      exact hw ▸ Nat.lt_succ_self _
  case settled =>
    rw [hreturned, hsteps]
    exact fun v hv => ⟨(h.settled v hv).1, (h.settled v hv).2.trans (Nat.lt_succ_self _)⟩
  case accounted =>
    intro i call hi hcall
    rw [hsteps] at hi
    rw [Lost, hpending, hreturned, hsteps]
    rcases Nat.lt_succ_iff_lt_or_eq.1 hi with hi | rfl
    · rcases h.accounted i call hi hcall with hv | ⟨v, hv, hvi⟩ | ⟨m, keys, him, hm, hcrash, hx, hp⟩
      · exact Or.inl hv
      · exact Or.inr (Or.inl ⟨v, List.mem_append_left _ hv, hvi⟩)
      · refine Or.inr (Or.inr ⟨m, keys, him, hm.trans (Nat.lt_succ_self _), hcrash, hx, ?_⟩)
        intro v hv
        rcases List.mem_append.1 hv with hv | hv
        · exact hp v hv
        · obtain rfl := List.mem_singleton.1 hv
          exact hw ▸ hm
    · exact Or.inr (Or.inl ⟨w, List.mem_append_right _ List.mem_cons_self, hw⟩)
  case openGathered =>
    rw [hjournal]
    exact h.openGathered.join hrecords hlast
  case writeGathered =>
    rw [hwriting]
    exact h.writeGathered
  case durable =>
    rw [hreturned]
    exact h.durable
  case openBegan =>
    intro m hm
    rw [hopen, Option.some.injEq] at hm
    rw [hjournal]
    rcases hat : r.openedAt with _ | m'
    · rw [hat, Option.getD_none] at hm
      have hnone := (ha.unopened hat).2
      refine ⟨fun v hv => ?_, Or.inl ⟨w, List.mem_append_right _ List.mem_cons_self, hw.trans hm⟩⟩
      have hv' : v ∈ r.journal.opened.waiters ++ [w] := hv
      rw [hnone, List.nil_append, List.mem_singleton] at hv'
      rw [hv', ← hm, hw]
    · rw [hat, Option.getD_some] at hm
      subst hm
      exact (h.openBegan m' hat).join (hw ▸ (ha.openedAt m' hat).1)
  case writeBegan =>
    rw [hwriting, hwriteAt]
    exact h.writeBegan

lemma InOrder.commit (h : InOrder start events r) {a : Committing} (ha : Follows events start r a)
    (call : ReplayCall) : InOrder start events { r.commit call with steps := r.steps + 1 } := by
  rw [Runtime.commit_eq]
  exact h.join ha rfl rfl rfl rfl rfl rfl rfl rfl

lemma Batch.Gathered.of_eq {b b' : Batch} (h : b.Gathered) (hw : b'.waiters = b.waiters)
    (hr : b'.records = b.records) : b'.Gathered := by
  rw [Batch.Gathered, hw, hr]
  exact h

lemma Runtime.admitOnLink_frame (r : Runtime) (window : Option SequenceState) (key : StreamKey)
    (sequence : ℕ) (digest : TransactionDigest) (charge : OriginQuotaCharge)
    (byteCost quotaNow : ℕ) {r' : Runtime}
    (hr' : r' = (r.admitOnLink window key sequence digest charge byteCost quotaNow).2.2) :
    r'.returned = r.returned ∧ r'.writing = r.writing ∧ r'.writingAt = r.writingAt ∧
      r'.journal.opened.waiters = r.journal.opened.waiters ∧
      r'.journal.opened.records = r.journal.opened.records ∧
      (r'.openedAt = r.openedAt ∨ r'.openedAt = some (r.openedAt.getD r.steps)) := by
  subst hr'
  rw [Runtime.admitOnLink]
  simp only
  split
  · exact ⟨rfl, rfl, rfl, rfl, rfl, Or.inl rfl⟩
  split
  · exact ⟨rfl, rfl, rfl, rfl, rfl, Or.inl rfl⟩
  · rename_i reservation quota _
    have hlog : (r.journal.logReleasedCharge reservation).opened.waiters =
        r.journal.opened.waiters ∧ (r.journal.logReleasedCharge reservation).opened.records =
        r.journal.opened.records := by
      rw [Journal.logReleasedCharge]
      split <;> exact ⟨rfl, rfl⟩
    refine ⟨rfl, rfl, rfl, hlog.1, hlog.2, ?_⟩
    simp only
    split
    · exact Or.inl rfl
    · exact Or.inr rfl

lemma InOrder.admitOnLink (h : InOrder start events r) {a : Committing}
    (ha : Follows events start r a) {window : Option SequenceState} {key : StreamKey}
    {sequence : ℕ} {digest : TransactionDigest} {charge : OriginQuotaCharge}
    {byteCost quotaNow : ℕ} (hevent : events[r.steps]? =
      some (.admitOnLink window key sequence digest charge byteCost quotaNow)) :
    InOrder start events { (r.admitOnLink window key sequence digest charge byteCost
      quotaNow).2.2 with steps := r.steps + 1 } := by
  obtain ⟨hreturned, hwriting, hwriteAt, hwaiters, hrecords, hopen⟩ :=
    r.admitOnLink_frame window key sequence digest charge byteCost quotaNow rfl
  refine h.stay hreturned ?_ rfl (fun call hcall => ?_) ?_ ?_ (fun m hm => ?_) ?_
  · rw [Runtime.pending, Runtime.pending, hwriting, hwaiters]
  · rw [hevent] at hcall
    cases hcall
  · exact h.openGathered.of_eq hwaiters hrecords
  · simp only [hwriting]
    exact h.writeGathered
  · simp only [hwaiters]
    have hm' : (r.admitOnLink window key sequence digest charge byteCost
      quotaNow).2.2.openedAt = some m := hm
    rcases hopen with hopen | hopen
    · exact h.openBegan m (hopen.symm.trans hm')
    · rw [hopen, Option.some.injEq] at hm'
      rcases hat : r.openedAt with _ | m'
      · rw [hat, Option.getD_none] at hm'
        subst hm'
        rw [(ha.unopened hat).2]
        exact ⟨fun v hv => (by cases hv), Or.inr ⟨_, _, _, _, _, _, _, hevent⟩⟩
      · rw [hat, Option.getD_some] at hm'
        subst hm'
        exact h.openBegan m' hat
  · simp only [hwriting, hwriteAt]
    exact h.writeBegan

lemma InOrder.take (h : InOrder start events r) (hevent : events[r.steps]? = some .take) :
    InOrder start events { r.take with steps := r.steps + 1 } := by
  have hnot : ∀ call, events[r.steps]? ≠ some (.call call) := by
    rw [hevent]
    exact fun call hcall => (by cases hcall)
  rw [Runtime.take]
  split
  · rename_i log hwriting hflight
    by_cases hempty : r.journal.opened.waiters.isEmpty = true
    · rw [Journal.take, if_pos hempty]
      refine h.stay rfl ?_ rfl hnot ?_ (fun b hb => (by cases hb)) (fun m hm => (by cases hm))
        (fun b m hb => (by cases hb))
      · rw [Runtime.pending, Runtime.pending, hwriting]
      · exact h.openGathered.of_eq rfl rfl
    · rw [Journal.take, if_neg hempty]
      refine h.stay rfl ?_ rfl hnot (fun w hw => (by cases hw)) (fun b hb => ?_)
        (fun m hm => (by cases hm)) (fun b m hb hm => ?_)
      · rw [Runtime.pending, Runtime.pending, hwriting]
        exact List.append_nil _
      · cases hb
        exact h.openGathered.of_eq rfl rfl
      · cases hb
        exact h.openBegan m hm
  · exact h.stay rfl rfl rfl hnot h.openGathered h.writeGathered h.openBegan h.writeBegan

/-- The first of the waiting transitions are released, durable or with all the others failed. -/
lemma InOrder.release (h : InOrder start events r) {r' : Runtime} {members : List Waiter}
    {durable : Bool} (hpending : r.pending = members ++ r'.pending)
    (hreturned : r'.returned = r.returned ++ members.map fun w => ⟨w, durable, r.steps⟩)
    (hfailed : durable = false → r'.pending = []) (hsteps : r'.steps = r.steps + 1)
    (hevent : ∀ call, events[r.steps]? ≠ some (.call call))
    (hdisk : durable = true → ∀ w ∈ members, ∀ k, (w.records.get? k).isSome = true →
      ∃ y ∈ members, w.index ≤ y.index ∧
        y.records.get? k = some ((start.after events (r.steps + 1)).disk.get? k))
    (hopened : r'.journal.opened.Gathered) (hwriting : ∀ b, r'.writing = some b → b.Gathered)
    (hopen : ∀ m, r'.openedAt = some m → Began events m r'.journal.opened.waiters)
    (hwrite : ∀ b m, r'.writing = some b → r'.writingAt = some m → Began events m b.waiters) :
    InOrder start events r' := by
  have hordered := h.pending
  rw [hpending, List.pairwise_append] at hordered
  obtain ⟨hmembers, hrest, hacross⟩ := hordered
  have hmember : ∀ w ∈ members, w ∈ r.pending := fun w hw =>
    hpending ▸ List.mem_append_left _ hw
  have hlater : ∀ w ∈ r'.pending, w ∈ r.pending := fun w hw =>
    hpending ▸ List.mem_append_right _ hw
  refine ⟨?_, hrest, ?_, ?_, ?_, ?_, hopened, hwriting, ?_, hopen, hwrite⟩
  · rw [hreturned, List.pairwise_append]
    refine ⟨h.returned, ?_, fun v hv x hx => ?_⟩
    · rw [List.pairwise_map]
      exact hmembers.imp fun hlt => ⟨hlt, le_rfl, fun hd => Or.inl hd⟩
    · obtain ⟨w, hw, rfl⟩ := List.mem_map.1 hx
      obtain ⟨hlt, hfail⟩ := h.between v hv w (hmember w hw)
      exact ⟨hlt, (h.settled v hv).2.le, fun _ => hfail⟩
  · rw [hreturned]
    intro v hv w hw
    rcases List.mem_append.1 hv with hv | hv
    · exact h.between v hv w (hlater w hw)
    · obtain ⟨y, hy, rfl⟩ := List.mem_map.1 hv
      refine ⟨hacross y hy w hw, Or.inl ?_⟩
      rcases hd : durable with _ | _
      · rw [hfailed hd] at hw
        cases hw
      · rfl
  · rw [hsteps]
    exact fun w hw => (h.past w (hlater w hw)).trans (Nat.lt_succ_self _)
  · rw [hreturned, hsteps]
    intro v hv
    rcases List.mem_append.1 hv with hv | hv
    · exact ⟨(h.settled v hv).1, (h.settled v hv).2.trans (Nat.lt_succ_self _)⟩
    · obtain ⟨w, hw, rfl⟩ := List.mem_map.1 hv
      exact ⟨h.past w (hmember w hw), Nat.lt_succ_self _⟩
  · intro i call hi hcall
    rw [hsteps] at hi
    rw [Lost, hreturned, hsteps]
    rcases Nat.lt_succ_iff_lt_or_eq.1 hi with hi | rfl
    · rcases h.accounted i call hi hcall with ⟨v, hv, hvi⟩ | ⟨w, hw, hwi⟩ |
        ⟨m, keys, him, hm, hcrash, hx, hp⟩
      · exact Or.inl ⟨v, List.mem_append_left _ hv, hvi⟩
      · rw [hpending] at hw
        rcases List.mem_append.1 hw with hw | hw
        · exact Or.inl ⟨_, List.mem_append_right _ (List.mem_map_of_mem hw), hwi⟩
        · exact Or.inr (Or.inl ⟨w, hw, hwi⟩)
      · refine Or.inr (Or.inr ⟨m, keys, him, hm.trans (Nat.lt_succ_self _), hcrash, ?_,
          fun w hw => hp w (hlater w hw)⟩)
        intro x hx' hix
        rcases List.mem_append.1 hx' with hx' | hx'
        · exact hx x hx' hix
        · obtain ⟨w, hw, rfl⟩ := List.mem_map.1 hx'
          exact hp w (hmember w hw)
    · exact absurd hcall (hevent call)
  · rw [hreturned]
    intro x hx hxd
    rcases List.mem_append.1 hx with hx | hx
    · exact (h.durable x hx hxd).mono (List.subset_append_left _ _)
    · obtain ⟨w, hw, rfl⟩ := List.mem_map.1 hx
      intro k hk
      obtain ⟨y, hy, hle, hrecord⟩ := hdisk hxd w hw k hk
      exact ⟨_, List.mem_append_right _ (List.mem_map_of_mem hy), hxd, rfl, hle, hrecord⟩

lemma InOrder.settle (h : InOrder start events r) {durable : Bool} {keys : RecordKey → Bool}
    (hevent : events[r.steps]? = some (.settle durable keys))
    (hafter : start.after events (r.steps + 1) = r.step (.settle durable keys)) :
    InOrder start events { r.settle durable keys with steps := r.steps + 1 } := by
  have hnot : ∀ call, events[r.steps]? ≠ some (.call call) := by
    rw [hevent]
    exact fun call hcall => (by cases hcall)
  have hstep : (start.after events (r.steps + 1)).disk = (r.settle durable keys).disk := by
    rw [hafter]
    rfl
  rcases hb : r.writing with _ | b
  · have hsame : r.settle durable keys = r := by
      rw [Runtime.settle, hb]
    rw [hsame]
    exact h.stay rfl rfl rfl hnot h.openGathered h.writeGathered h.openBegan h.writeBegan
  have hpending : r.pending = b.waiters ++ r.journal.opened.waiters := by
    rw [Runtime.pending, hb]
    rfl
  rw [Runtime.settle, hb] at hstep ⊢
  simp only at hstep ⊢
  rcases hd : durable || b.records.entries.isEmpty with _ | _
  · refine h.release (hpending.trans (List.append_nil _).symm) rfl (fun _ => rfl) rfl hnot
      (fun hd => (by cases hd)) (fun w hw => (by cases hw)) (fun b hb => (by cases hb))
      (fun m hm => (by cases hm)) (fun b m hb => (by cases hb))
  · refine h.release (hpending.trans ?_) rfl (fun hd => (by cases hd)) rfl hnot
      (fun _ w hw k hk => ?_) h.openGathered (fun b hb => (by cases hb)) h.openBegan
      (fun b m hb => (by cases hb))
    · exact congrArg (· ++ r.journal.opened.waiters) (List.append_nil b.waiters).symm
    · have hw' : w ∈ b.waiters := by
        rcases List.mem_append.1 hw with hw | hw
        · exact hw
        · cases hw
      obtain ⟨y, hy, hle, hsome, heq⟩ := h.writeGathered b hb w hw' k hk
      refine ⟨y, List.mem_append_left _ hy, hle, ?_⟩
      rw [hd] at hstep
      rw [hstep, get?_landRecords]
      obtain ⟨x, hx⟩ := Option.isSome_iff_exists.1 hsome
      simp only [Bool.true_or, if_true]
      rw [← heq, hx, Option.getD_some]

lemma InOrder.crash (h : InOrder start events r) {keys : RecordKey → Bool}
    (hevent : events[r.steps]? = some (.crash keys)) :
    InOrder start events { r.crash keys with steps := r.steps + 1 } := by
  refine ⟨h.returned, List.Pairwise.nil, fun v _ w hw => (by cases hw), fun w hw => (by cases hw),
    fun v hv => ⟨(h.settled v hv).1, (h.settled v hv).2.trans (Nat.lt_succ_self _)⟩,
    fun i call hi hcall => ?_, fun w hw => (by cases hw), fun b hb => (by cases hb), h.durable,
    fun m hm => (by cases hm), fun b m hb => (by cases hb)⟩
  have hi' : i < r.steps + 1 := hi
  rcases Nat.lt_succ_iff_lt_or_eq.1 hi' with hi' | rfl
  · rcases h.accounted i call hi' hcall with hv | ⟨w, hw, rfl⟩ | ⟨m, keys', him, hm, hcrash, hx, -⟩
    · exact Or.inl hv
    · refine Or.inr (Or.inr ⟨r.steps, keys, hi', Nat.lt_succ_self _, hevent, fun x hx hlt => ?_,
        fun w hw => (by cases hw)⟩)
      exact absurd (h.between x hx w hw).1 hlt.not_gt
    · exact Or.inr (Or.inr ⟨m, keys', him, hm.trans (Nat.lt_succ_self _), hcrash, hx,
        fun w hw => (by cases hw)⟩)
  · rw [hevent] at hcall
    cases hcall

lemma inOrder_start (config : OriginQuotaConfig) (shares : Shares) :
    InOrder start events (.start config shares) :=
  ⟨List.Pairwise.nil, List.Pairwise.nil, fun v hv => (by cases hv), fun w hw => (by cases hw),
    fun v hv => (by cases hv), fun i call hi => (by cases hi), fun w hw => (by cases hw),
    fun b hb => (by cases hb), fun x hx => (by cases hx), fun m hm => (by cases hm),
    fun b m hb => (by cases hb)⟩

lemma InOrder.step (h : InOrder start events r) {a : Committing} (ha : Follows events start r a)
    {event : ReplayEvent} (hevent : events[r.steps]? = some event)
    (hafter : start.after events (r.steps + 1) = r.step event) :
    InOrder start events (r.step event) := by
  cases event with
  | call call => exact h.commit ha call
  | admitOnLink window key sequence digest charge byteCost quotaNow =>
    exact h.admitOnLink ha hevent
  | take => exact h.take hevent
  | settle durable keys => exact h.settle hevent hafter
  | crash keys => exact h.crash hevent

lemma plainLaws (events : List ReplayEvent) :
    ReplayLaws events (fun _ _ => True) (fun _ => True) (fun _ _ => True) (fun _ _ => True)
      fun _ _ _ _ => True where
  mono := fun _ _ _ _ _ => trivial
  inv := fun _ _ _ _ _ => trivial
  new := fun _ _ _ _ _ _ => trivial
  keep := fun _ _ _ _ _ _ _ => trivial
  order := fun _ _ _ _ _ _ _ _ => trivial
  forward := fun _ _ _ _ _ _ _ _ => trivial
  landed := fun _ _ _ _ _ _ _ => trivial
  similar := fun _ _ _ _ _ => ⟨trivial, fun _ _ => trivial, fun _ _ _ => trivial⟩
  restore := fun _ _ _ _ _ _ _ => ⟨trivial, fun _ _ => trivial, fun _ => trivial⟩

/-- After any number of events the runtime follows a machine, and its speculative state is good. -/
lemma follows_run (events : List ReplayEvent) (config : OriginQuotaConfig) (shares : Shares) {n : ℕ}
    (hn : n ≤ events.length) :
    (∃ a, Follows events (.start config shares) ((Runtime.start config shares).after events n) a) ∧
      ((Runtime.start config shares).after events n).state.Good := by
  obtain ⟨a, hfollows, hsound⟩ := (plainLaws events).run config shares trivial
    (fun _ => trivial) (fun _ _ _ _ _ _ => trivial) hn
  refine ⟨⟨a, hfollows⟩, ?_⟩
  rw [← hfollows.tip, ← tip_append]
  exact (Sound.tip_inv (plainLaws events) hsound).good

lemma inOrder_run (events : List ReplayEvent) (config : OriginQuotaConfig) (shares : Shares) {n : ℕ}
    (hn : n ≤ events.length) :
    InOrder (.start config shares) events ((Runtime.start config shares).after events n) := by
  induction n with
  | zero => exact inOrder_start config shares
  | succ n ih =>
    obtain ⟨⟨a, ha⟩, -⟩ := follows_run events config shares (Nat.le_of_succ_le hn)
    have hsteps : ((Runtime.start config shares).after events n).steps = n :=
      Runtime.after_steps config shares (Nat.le_of_succ_le hn)
    rw [Runtime.after_succ hn]
    refine (ih (Nat.le_of_succ_le hn)).step ha ?_ ?_
    · rw [hsteps, List.getElem?_eq_getElem hn]
    · rw [hsteps, Runtime.after_succ hn]

/-- The state a failed batch leaves: the tables and the accounting as they were at `before`, and
the quota records as they were up to refill. -/
structure RestoredTo (before after : Speculative) : Prop where
  tables : after.tables = before.tables
  charged : after.accounting.Exact (chargeItems after.tables.charges)
  quota : before.quota.Refilled after.quota

/-- A transition is told it went through only once its records, and those of every earlier
transition it could have read, are on disk: an earlier one went through before it, or failed or
was lost before it ran. -/
def ReleasedDurable (start : Runtime) (events : List ReplayEvent) (r : Runtime)
    (x : Returned) : Prop :=
  OnDisk start events r.returned x ∧
    ∀ i call, i < x.waiter.index → events[i]? = some (.call call) →
      (∃ v ∈ r.returned, v.waiter.index = i ∧ v.durable = true ∧ v.atStep ≤ x.atStep ∧
        OnDisk start events r.returned v) ∨
      (∃ v ∈ r.returned, v.waiter.index = i ∧ v.result = .error .persistence ∧
        v.atStep < x.waiter.index) ∨
      ∃ m keys, i < m ∧ m < x.waiter.index ∧ events[m]? = some (.crash keys)

/-- Whatever ran before a transition released durable. -/
lemma InOrder.releasedDurable (h : InOrder start events r) {x : Returned} (hx : x ∈ r.returned)
    (hdurable : x.durable = true) : ReleasedDurable start events r x := by
  refine ⟨h.durable x hx hdurable, fun i call hi hcall => ?_⟩
  have hsettled := h.settled x hx
  rcases h.accounted i call (hi.trans (hsettled.1.trans hsettled.2)) hcall with
    ⟨v, hv, rfl⟩ | ⟨w, hw, rfl⟩ | ⟨m, keys, him, -, hcrash, hlater, -⟩
  · -- the one that ran earlier was returned earlier
    have hordered : v.atStep ≤ x.atStep ∧ (v.durable = true ∨ v.atStep < x.waiter.index) := by
      obtain ⟨j, hj, hvj⟩ := List.getElem_of_mem hv
      obtain ⟨k, hk, hxk⟩ := List.getElem_of_mem hx
      have hpair := List.pairwise_iff_getElem.1 h.returned
      rcases lt_trichotomy j k with hjk | rfl | hkj
      · have hjx := hpair j k hj hk hjk
        rw [hvj, hxk] at hjx
        exact ⟨hjx.2.1, hjx.2.2 hdurable⟩
      · rw [hvj.symm.trans hxk] at hi
        exact absurd hi (lt_irrefl _)
      · have hxj := hpair k j hk hj hkj
        rw [hvj, hxk] at hxj
        exact absurd hxj.1 hi.not_gt
    rcases hd : v.durable with _ | _
    · refine Or.inr (Or.inl ⟨v, hv, rfl, ?_, ?_⟩)
      · rw [Returned.result, hd]
        rfl
      · rcases hordered.2 with hcontra | hlt
        · rw [hd] at hcontra
          cases hcontra
        · exact hlt
    · exact Or.inl ⟨v, hv, rfl, hd, hordered.1, h.durable v hv hd⟩
  · exact absurd (h.between x hx w hw).1 hi.not_gt
  · exact Or.inr (Or.inr ⟨m, keys, him, hlater x hx hi, hcrash⟩)

lemma Speculative.Similar.restoredTo {s t : Speculative} (h : s.Similar t) (hs : s.Balanced) :
    RestoredTo s t :=
  ⟨h.tables, (h.balanced hs).exact, h.quota⟩

/-- Group commit fails closed and exactly. In every state a run reaches: a batch that fails leaves
the tables, the accounting and, up to refill, the quotas of the state before its first transition,
and each transition that joined it or the open batch returns an error; a body that refuses leaves
what it found; and what returns its answer is on disk with all it read. -/
theorem group_commit_fails_closed (config : OriginQuotaConfig) (shares : Shares)
    (events : List ReplayEvent) :
    let start := Runtime.start config shares
    let r := start.run events
    (∀ batch landed, r.writing = some batch → batch.records.entries ≠ [] →
      ∃ n, r.writingAt = some n ∧ n ≤ events.length ∧ Began events n batch.waiters ∧
        RestoredTo (start.run (events.take n)).state (r.step (.settle false landed)).state ∧
        ∀ w ∈ batch.waiters ++ r.journal.opened.waiters,
          ∃ x ∈ (r.step (.settle false landed)).returned,
            x.waiter = w ∧ x.result = .error .persistence) ∧
    (∀ (call : ReplayCall) e, (call.commit r.state).1 = .error e →
      RestoredTo r.state (call.commit r.state).2.state ∧
        (call.commit r.state).2.undo = [] ∧ (call.commit r.state).2.records = .empty) ∧
    ∀ x ∈ r.returned, ∀ answer, x.result = .ok answer → ReleasedDurable start events r x := by
  intro start r
  have hrun : start.after events events.length = r := by
    rw [Runtime.after, List.take_length]
  obtain ⟨⟨a, ha⟩, hgood⟩ := follows_run events config shares le_rfl
  have horder := inOrder_run events config shares le_rfl
  rw [hrun] at ha hgood horder
  refine ⟨fun batch landed hb hrecords => ?_, fun call e he => ?_, fun x hx answer hok => ?_⟩
  · obtain ⟨n, hn, hle, hundo⟩ := ha.writingAt (by rw [hb]; rfl)
    have hsteps : r.steps = events.length := by
      rw [← hrun]
      exact Runtime.after_steps config shares le_rfl
    rw [hsteps] at hle
    have hfail : (false || batch.records.entries.isEmpty) = false := by
      rw [Bool.false_or]
      exact List.isEmpty_eq_false_iff.2 hrecords
    have hstate : (r.step (.settle false landed)).state =
        rewind (r.journal.inFlight.getD []) (rewind r.journal.opened.undo r.state) := by
      rw [Runtime.step, Runtime.settle, hb]
      simp only [hfail]
      rfl
    have hreturned : (r.step (.settle false landed)).returned = r.returned ++
        (batch.waiters ++ r.journal.opened.waiters).map fun w => ⟨w, false, r.steps⟩ := by
      rw [Runtime.step, Runtime.settle, hb]
      simp only [hfail]
      rfl
    refine ⟨n, hn, hle, horder.writeBegan batch n hb hn, ?_, fun w hw => ?_⟩
    · rw [hstate]
      obtain ⟨-, hbefore⟩ := follows_run events config shares hle
      exact (hundo _ (ha.opened _ (.refl _))).restoredTo hbefore.toBalanced
    · rw [hreturned]
      exact ⟨_, List.mem_append_right _ (List.mem_map_of_mem hw), rfl, rfl⟩
  · obtain ⟨-, -, herror⟩ := call.commit_logged hgood.toBalanced
    obtain ⟨hsimilar, hundo, hrecords⟩ := herror e he
    exact ⟨hsimilar.restoredTo hgood.toBalanced, hundo, hrecords⟩
  · refine horder.releasedDurable hx ?_
    rw [Returned.result] at hok
    split at hok
    · assumption
    · cases hok

end Rings
