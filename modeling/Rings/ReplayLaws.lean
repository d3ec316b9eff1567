import Rings.ReplayRefinement

/-!
Facts about released transitions over every run.

What a transition leaves it has staged, so that every record of the disk restores. A fact about
released transitions that every transition establishes and keeps, and a link between the durable
state and the disk, hold after any number of events of the runtime.
-/

namespace Rings

open GroupCommit

variable {events : List ReplayEvent} {start r : Runtime} {a : Committing}
  {lands : Committing → Set RecordKey → Prop}

/-! ### What is staged -/

def FiledUnder (k : RecordKey) (r : Option StoredStream) : Prop :=
  ∀ x, r = some x → x.Filed k

/-- What every durable state within the first `n` steps keeps to. -/
structure ReplayInv (P : Stamped → Prop) (n : ℕ) (s : Stamped) : Prop where
  good : s.state.Good
  steps : s.steps ≤ n
  more : P s

structure Staging (s : Stamped) (e : PendingCall) : Prop where
  good : e.after.state.Good
  unstaged : ∀ key, e.staged ⟨.receiver, key⟩ = none →
    e.after.state.tables.stream key = s.state.tables.stream key
  staged : ∀ key r, e.staged ⟨.receiver, key⟩ = some r →
    r = (e.after.state.tables.stream key).map (Stream.record key)
  unleased : ∀ key, e.staged ⟨.sender, key⟩ = none →
    (e.after.state.tables.sender.get? key).map SenderLease.leased =
      (s.state.tables.sender.get? key).map SenderLease.leased
  leased : ∀ key r, e.staged ⟨.sender, key⟩ = some r →
    ∃ lease, e.after.state.tables.sender.get? key = some lease ∧ r = some (.sender key lease.leased)

variable {n : ℕ} {s t : Stamped} {e : PendingCall} {w : Waiter}

lemma Silent.tables (h : Silent n s e) : e.after.state.tables = s.state.tables :=
  congrArg ReplayStore.tables h.store

lemma Silent.good (h : Silent n s e) (hs : s.state.Good) : e.after.state.Good := by
  refine ⟨⟨?_, ?_⟩, ?_, ?_⟩
  · rw [h.tables]
    exact hs.indexed
  · rw [h.accounting, h.tables]
    exact hs.exact
  · rw [h.tables]
    exact hs.tables
  · rw [h.store]
    exact hs.restorable

lemma Called.staging (h : Called events n s e w) (hs : s.state.Good) : Staging s e := by
  obtain ⟨hgood, hunstaged, hstaged, hunleased, hleased⟩ := w.call.committed hs
  have htables : e.after.state.tables = (w.call.commit s.state).2.tables :=
    congrArg Speculative.tables h.state
  have hrecords : e.staged = (w.call.commit s.state).2.records.get? := by
    rw [h.staged, h.records]
  refine ⟨?_, ?_, ?_, ?_, ?_⟩
  · rw [h.state]
    exact hgood
  · rw [htables, hrecords]
    exact hunstaged
  · rw [htables, hrecords]
    exact hstaged
  · rw [htables, hrecords]
    exact hunleased
  · rw [htables, hrecords]
    exact hleased

lemma Silent.staging (h : Silent n s e) (hs : s.state.Good) : Staging s e where
  good := h.good hs
  unstaged := fun key _ => by rw [h.tables]
  staged := fun key r hr => absurd ((h.staged _).symm.trans hr) (by simp)
  unleased := fun key _ => by rw [h.tables]
  leased := fun key r hr => absurd ((h.staged _).symm.trans hr) (by simp)

lemma replayTrans.staging (h : replayTrans events n s e) (hs : s.state.Good) : Staging s e := by
  rcases h with ⟨w, h⟩ | h
  · exact h.staging hs
  · exact h.staging hs

/-- A staged record restores. -/
lemma Staging.filed (h : Staging s e) {k : RecordKey} {r : Option StoredStream}
    (hr : FiledUnder k r) : FiledUnder k ((e.staged k).getD r) := by
  rcases hstaged : e.staged k with _ | r'
  · exact hr
  · intro x hx
    rw [Option.getD_some] at hx
    subst hx
    obtain ⟨table, key⟩ := k
    cases table with
    | sender =>
      obtain ⟨lease, -, hrecord⟩ := h.leased key _ hstaged
      obtain rfl := Option.some.inj hrecord
      exact ⟨rfl, fun _ hv => (by cases hv)⟩
    | receiver =>
      obtain ⟨v, hv, rfl⟩ := Option.map_eq_some_iff.1 (h.staged key _ hstaged).symm
      exact Stream.record_filed (h.good.tables.streams key v hv) key

/-- A state a start read from a disk within the first `n` steps. -/
structure ReadFrom (n : ℕ) (disk : RecordKey → Option StoredStream) (t : Stamped) : Prop where
  steps : t.steps = n
  good : t.state.Good
  filed : ∀ k, FiledUnder k (disk k)
  stream : ∀ key, t.state.tables.stream key =
    (disk ⟨.receiver, key⟩).bind StoredStream.stream
  sender : ∀ key, t.state.tables.sender.get? key =
    ((disk ⟨.sender, key⟩).bind StoredStream.lease).map SenderLease.restored

lemma readFrom {disk : RecordKey → Option StoredStream} (h : replayRestore n disk t)
    (hdisk : ∀ k, FiledUnder k (disk k)) : ReadFrom n disk t := by
  obtain ⟨hsteps, config, shares, d, hd, hload⟩ := h
  have hspec := Speculative.load_spec (fun k r hr => hdisk k r ((hd k).symm.trans hr)) config shares
  rw [← hload] at hspec
  refine ⟨hsteps, hspec.1, hdisk, fun key => ?_, fun key => ?_⟩
  · rw [hspec.2.1 key, hd]
  · rw [hspec.2.2 key, hd]

/-! ### Laws of a run -/

/-- The laws of a fact about released transitions over every run: `P` holds of the durable states,
`B` of what was released, `W` between what is released, and `J` between the durable state and the
disk, within the steps so far. -/
structure ReplayLaws (events : List ReplayEvent) (lands : Committing → Set RecordKey → Prop)
    (P : Stamped → Prop) (B : Waiter → Stamped → Prop) (W : Waiter → Waiter → Prop)
    (J : ℕ → Stamped → RecordKey → Option StoredStream → Prop) : Prop where
  mono : ∀ n s k r, J n s k r → J (n + 1) s k r
  inv : ∀ n s e, ReplayInv P n s → replayTrans events n s e → P e.after
  new : ∀ n s e w, ReplayInv P n s → Called events n s e w → B w e.after
  keep : ∀ n s e x, ReplayInv P n s → replayTrans events n s e → B x s → B x e.after
  order : ∀ n s e w x, ReplayInv P n s → Called events n s e w → B x s → W x w
  forward : ∀ n s e k r, ReplayInv P n s → replayTrans events n s e → J n s k r →
    J n e.after k ((e.staged k).getD r)
  landed : ∀ n (a : Committing) keys, lands a keys →
    Linked (fun s e => ReplayInv P n s ∧ replayTrans events n s e) a.base a.writing →
    (∀ k, J n a.base k (a.disk k)) →
    ∀ k, J n a.base k (GroupCommit.landed keys (stagedBy a.writing) a.disk k)
  similar : ∀ n s t, ReplayInv P n s → replaySimilar n s t →
    P t ∧ (∀ x, B x s → B x t) ∧ ∀ k r, J n s k r → J n t k r
  restore : ∀ n s disk t, ReplayInv P n s → ReadFrom n disk t → (∀ k, J n s k (disk k)) →
    P t ∧ (∀ x, B x s → B x t) ∧ ∀ k, J n t k (disk k)

variable {P : Stamped → Prop} {B : Waiter → Stamped → Prop} {W : Waiter → Waiter → Prop}
  {J : ℕ → Stamped → RecordKey → Option StoredStream → Prop}

lemma replayTrans.steps_le (h : replayTrans events n s e) : e.after.steps ≤ n := by
  rcases h with ⟨w, h⟩ | h
  · rw [h.steps]
    exact h.within
  · exact h.within

/-- The link between a durable state and the disk, with the records that restore. -/
def FiledLink (J : ℕ → Stamped → RecordKey → Option StoredStream → Prop) (n : ℕ) (s : Stamped)
    (k : RecordKey) (r : Option StoredStream) : Prop := FiledUnder k r ∧ J n s k r

lemma ReplayLaws.laws (h : ReplayLaws events lands P B W J) (n : ℕ) :
    Laws (replayTrans events n) (replaySimilar n) (replayRestore n) lands (ReplayInv P n) B W
      (FiledLink J n) where
  inv := fun s e hs he => ⟨(he.staging hs.good).good, he.steps_le, h.inv n s e hs he⟩
  new := by
    rintro s e x ⟨hs, he⟩ hx
    rcases he with ⟨w, he⟩ | he
    · obtain rfl := Option.some.inj (he.answer.symm.trans hx)
      exact h.new n s e _ hs he
    · exact absurd (he.answer.symm.trans hx) (by simp)
  keep := fun s e x he hx => h.keep n s e x he.1 he.2 hx
  order := by
    rintro s e x y ⟨hs, he⟩ hx hy
    rcases he with ⟨w, he⟩ | he
    · obtain rfl := Option.some.inj (he.answer.symm.trans hy)
      exact h.order n s e _ x hs he hx
    · exact absurd (he.answer.symm.trans hy) (by simp)
  forward := fun s e k r he hr =>
    ⟨(he.2.staging he.1.good).filed hr.1, h.forward n s e k r he.1 he.2 hr.2⟩
  landed := by
    intro a keys hcut hlinked hdisk k
    refine ⟨?_, h.landed n a keys hcut hlinked (fun k => (hdisk k).2) k⟩
    exact hlinked.landed (J := fun _ k r => FiledUnder k r)
      (fun s e r he hr => (he.2.staging he.1.good).filed hr) (fun _ _ _ _ hr => hr) (hdisk k).1
  similar_inv := by
    intro s t hs hst
    refine ⟨?_, hst.2.2.le, (h.similar n s t hs hst).1⟩
    refine ⟨hst.1.balanced hs.good.toBalanced, ?_, ?_⟩
    · rw [hst.1.tables]
      exact hs.good.tables
    · rw [hst.1.store]
      exact hs.good.restorable
  similar_fact := fun s t x hs hst hx => (h.similar n s t hs hst).2.1 x hx
  similar_link := fun s t k r hs hst hr => ⟨hr.1, (h.similar n s t hs hst).2.2 k r hr.2⟩
  restore_inv := fun s disk t hs ht hdisk => by
    have hread := readFrom ht fun k => (hdisk k).1
    exact ⟨hread.good, hread.steps.le, (h.restore n s disk t hs hread fun k => (hdisk k).2).1⟩
  restore_fact := fun s disk t x hs ht hdisk hx =>
    (h.restore n s disk t hs (readFrom ht fun k => (hdisk k).1) fun k => (hdisk k).2).2.1 x hx
  restore_link := fun s disk t k hs ht hdisk => ⟨(hdisk k).1,
    (h.restore n s disk t hs (readFrom ht fun k => (hdisk k).1) fun k => (hdisk k).2).2.2 k⟩

lemma Sound.later (h : ReplayLaws events lands P B W J) {a : Committing}
    (ha : Sound (replayTrans events n) (ReplayInv P n) B W (FiledLink J n) a) :
    Sound (replayTrans events (n + 1)) (ReplayInv P (n + 1)) B W (FiledLink J (n + 1)) a where
  linked := Linked.later (Nat.le_succ n) ha.linked
  inv := ⟨ha.inv.good, ha.inv.steps.trans (Nat.le_succ n), ha.inv.more⟩
  facts := ha.facts
  ordered := ha.ordered
  disk := fun k => ⟨(ha.disk k).1, h.mono n _ k _ (ha.disk k).2⟩

lemma Runtime.after_succ {start : Runtime} (hn : n < events.length) :
    start.after events (n + 1) = (start.after events n).step events[n] := by
  rw [Runtime.after, Runtime.run, List.take_succ_eq_append_getElem hn, List.foldl_append]
  rfl

lemma Runtime.after_steps (config : OriginQuotaConfig) (shares : Shares) (hn : n ≤ events.length) :
    ((Runtime.start config shares).after events n).steps = n := by
  induction n with
  | zero => rfl
  | succ n ih =>
    rw [Runtime.after_succ hn]
    exact congrArg (· + 1) (ih (Nat.le_of_succ_le hn))

def startCommitting (config : OriginQuotaConfig) (shares : Shares) : Committing :=
  ⟨⟨.load config shares .empty, 0⟩, [], [], fun _ => none, []⟩

lemma follows_start (config : OriginQuotaConfig) (shares : Shares) :
    Follows events (.start config shares) (.start config shares)
      (startCommitting config shares) where
  tip := rfl
  steps := le_rfl
  opened := undoes_nil (.refl _)
  inFlight := undoes_nil (.refl _)
  idle := fun _ => ⟨rfl, rfl, rfl⟩
  records := fun _ => rfl
  waiters := rfl
  notWriting := fun _ => rfl
  writing := fun _ hb => (by cases hb)
  disk := fun _ => rfl
  released := rfl
  unopened := fun _ => ⟨rfl, rfl⟩
  openedAt := fun _ hm => (by cases hm)
  writingAt := fun hsome => (by cases hsome)

lemma Sound.tip_inv (h : ReplayLaws events lands P B W J) {a : Committing}
    (ha : Sound (replayTrans events n) (ReplayInv P n) B W (FiledLink J n) a) :
    ReplayInv P n (GroupCommit.tip a.base (a.writing ++ a.opened)) :=
  (ha.linked.strengthen (h.laws n).inv ha.inv).keep
    (fun s e he _ => (h.laws n).inv s e he.1 he.2) ha.inv

/-- What the laws say holds after any number of events. -/
theorem ReplayLaws.run (h : ReplayLaws events lands P B W J) (config : OriginQuotaConfig)
    (shares : Shares) (hstart : P ⟨.load config shares .empty, 0⟩)
    (hdisk : ∀ k, J 0 ⟨.load config shares .empty, 0⟩ k none)
    (hcut : ∀ m keys, (hm : m < events.length) → events[m].landing = some keys →
      ∀ a, Follows events (.start config shares) ((Runtime.start config shares).after events m) a →
        lands a { k | keys k = true })
    (hn : n ≤ events.length) :
    ∃ a, Follows events (.start config shares) ((Runtime.start config shares).after events n) a ∧
      Sound (replayTrans events n) (ReplayInv P n) B W (FiledLink J n) a := by
  induction n with
  | zero =>
    refine ⟨_, follows_start config shares, trivial, ⟨?_, le_rfl, hstart⟩,
      fun x hx => (by cases hx), List.Pairwise.nil, fun k => ⟨fun x hx => (by cases hx), hdisk k⟩⟩
    exact (Speculative.load_spec (fun k r hr => (by cases hr)) config shares).1
  | succ n ih =>
    obtain ⟨a, hfollows, hsound⟩ := ih (Nat.le_of_succ_le hn)
    have hsteps : ((Runtime.start config shares).after events n).steps = n :=
      Runtime.after_steps config shares (Nat.le_of_succ_le hn)
    have htip := Sound.tip_inv h hsound
    have hgood : ((Runtime.start config shares).after events n).state.Good := by
      rw [← hfollows.tip, ← tip_append]
      exact htip.good
    have hevent : events[((Runtime.start config shares).after events n).steps]? =
        some events[n] := by
      rw [hsteps, List.getElem?_eq_getElem hn]
    obtain ⟨b, hb, hsim⟩ := hfollows.step (by rw [hsteps]) hgood (by rw [hsteps]; exact hsound.linked)
      hevent (fun keys hkeys => hcut n keys hn hkeys a hfollows)
    rw [hsteps] at hsim
    refine ⟨b, ?_, ?_⟩
    · rw [Runtime.after_succ hn]
      exact hb
    · have hlater := Sound.later h hsound
      clear hb
      induction hsim with
      | refl => exact hlater
      | tail _ hstep ih => exact hstep.sound (h.laws (n + 1)) ih

end Rings
