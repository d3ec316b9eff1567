import Rings.Replicas

/-!
Removed data stays removed, over whole runs of the replicas.

Once a replica has held a remove, its slot shadows the removed adds at every later state, or
some clock has read past the remove's horizon. Either way no later read serves them.
-/

namespace Rings

section Slot

variable {codec : Codec} {payloads : Set Bytes} {slot : Option Entry} {x y : Entry} {nowMs : ℕ}
  {k : ElementDigest} {r : EntryDot}

lemma liveEntry_fst (projection : Projection) :
    (liveEntry codec slot nowMs projection).1 = slot.bind (·.liveAt codec nowMs) := by
  cases slot with
  | none => rfl
  | some x =>
    rw [Option.bind_some, liveEntry]
    cases hl : x.liveAt codec nowMs <;> cases projection <;> simp [retireUnlessLive, hl]

lemma liveEntry_snd (codec : Codec) (slot : Option Entry) (nowMs : ℕ) (projection : Projection) :
    (liveEntry codec slot nowMs projection).2 = slot ∨
      (liveEntry codec slot nowMs projection).2 = slot.bind (·.liveAt codec nowMs) := by
  cases slot with
  | none => exact Or.inl rfl
  | some x =>
    rw [Option.bind_some, liveEntry]
    cases hl : x.liveAt codec nowMs <;> cases projection <;> simp [retireUnlessLive, hl]
    exact (em (projectionShape _ = projectionShape x)).imp absurd fun h h' => absurd h' h

/-- An applied operation leaves the live part of its result. -/
lemma operateLiveEntry_ok {op : EntryOperation} {actor : Did} {room : Bool}
    {slot' : Option Entry} (h : operateLiveEntry codec slot op actor nowMs room = .ok slot') :
    ∃ z, ((slot.bind (·.liveAt codec nowMs)).getD op.genDefaultEntry).operate codec nowMs op actor =
      .ok z ∧ slot' = z.liveAt codec nowMs := by
  obtain ⟨z, hz, h⟩ := bind_eq_ok.1 h
  rw [liveEntry_fst] at hz
  refine ⟨z, hz, ?_⟩
  split at h
  · rename_i value hv
    obtain ⟨_, -, h⟩ := bind_eq_ok.1 h
    obtain ⟨put, hput, h⟩ := bind_eq_ok.1 h
    cases h
    rw [putEntry] at hput
    split at hput
    · cases hput
      exact hv.symm
    · cases hput
  · rename_i hv
    cases h
    exact hv.symm

/-- A received copy is admitted, normalized, joined into the live value and projected. -/
lemma receiveCopy_ok {copy joined : Entry} {room : Bool}
    (h : receiveCopy codec slot copy nowMs room = .ok joined) :
    ∃ admitted z, copy.tryIntoStorageEntry codec = .ok admitted ∧
      joinInto codec (slot.bind (·.liveAt codec nowMs)) admitted = .ok z ∧
      joined = z.retiredAt codec nowMs := by
  obtain ⟨_, -, h⟩ := bind_eq_ok.1 h
  obtain ⟨admitted, hadm, h⟩ := bind_eq_ok.1 h
  obtain ⟨z, hz, h⟩ := bind_eq_ok.1 h
  obtain ⟨_, -, h⟩ := bind_eq_ok.1 h
  rw [liveEntry_fst] at hz
  refine ⟨admitted, z, hadm, hz, ?_⟩
  rw [putEntry] at h
  split at h
  · cases h
    rfl
  · cases h

/-- Every slot that is filled holds a stored entry. -/
def SlotStored (codec : Codec) (payloads : Set Bytes) (slot : Option Entry) : Prop :=
  ∀ x, slot = some x → Stored codec payloads x

lemma SlotStored.live (h : SlotStored codec payloads slot) :
    SlotStored codec payloads (slot.bind (·.liveAt codec nowMs)) := by
  intro y hy
  obtain ⟨x, hx, hy⟩ := Option.bind_eq_some_iff.1 hy
  exact (h x hx).toFit.stored_of_liveAt hy

lemma fit_default (op : EntryOperation) (hk : op.entry.kind = .data) :
    Fit codec payloads op.genDefaultEntry :=
  ⟨⟨rfl, fun p hp => (by cases hp), fun p hp => (by cases hp)⟩, hk, fun v hv => (by cases hv)⟩

lemma SlotStored.operate (h : SlotStored codec payloads slot)
    (hinj : Set.InjOn codec.digest payloads) {op : EntryOperation} (hk : op.entry.kind = .data)
    (hop : ∀ v ∈ op.entry.data, v ∈ payloads) {actor : Did} {room : Bool} {slot' : Option Entry}
    (hok : operateLiveEntry codec slot op actor nowMs room = .ok slot') :
    SlotStored codec payloads slot' := by
  obtain ⟨z, hz, rfl⟩ := operateLiveEntry_ok hok
  intro y hy
  have hheld : Fit codec payloads ((slot.bind (·.liveAt codec nowMs)).getD op.genDefaultEntry) := by
    cases hl : slot.bind (·.liveAt codec nowMs) with
    | none => exact fit_default op hk
    | some live => exact (h.live live hl).toFit
  exact (hheld.operate hinj hop hz).stored_of_liveAt hy

lemma SlotStored.receive (h : SlotStored codec payloads slot) {copy joined : Entry} {room : Bool}
    (hcopy : Stored codec payloads copy)
    (hok : receiveCopy codec slot copy nowMs room = .ok joined) :
    Stored codec payloads joined := by
  obtain ⟨admitted, z, hadm, hz, rfl⟩ := receiveCopy_ok hok
  obtain ⟨a, ha, rfl⟩ := Entry.tryIntoStorageEntry_ok hadm
  have hfit : Fit codec payloads (copy.materializeTopicBuffer
      (.new codec a.register a.values a.removes) copy.expiresAtMs) :=
    fit_materialize hcopy.kind DataTopicBuffer.normalBuffer_new fun v d hv =>
      rawBuffer_payloads hcopy.payloads ha ((DataTopicBuffer.get?_new_values v).1 hv).1
  have hstored : Stored codec payloads z := by
    cases hl : slot.bind (·.liveAt codec nowMs) with
    | some live =>
      rw [hl] at hz
      have hlive := h.live live hl
      refine ⟨fit_join hlive.payloads hfit.payloads hlive.kind hz, ?_⟩
      obtain ⟨b, c, -, -, rfl⟩ := Entry.join_ok hz
      exact omax_isSome.trans (by simp [hlive.expires])
    | none =>
      rw [hl] at hz
      cases hz
      exact ⟨hfit, hcopy.expires⟩
  refine ⟨hstored.toFit.retiredAt, ?_⟩
  rw [hstored.toFit.expires_retiredAt]
  exact hstored.expires

/-- What a stored slot shadows before an operation it shadows after it, before the horizon. -/
lemma shadows_operate (hx : Stored codec payloads x) (hinj : Set.InjOn codec.digest payloads)
    {op : EntryOperation} (hop : ∀ v ∈ op.entry.data, v ∈ payloads) {actor : Did} {room : Bool}
    {slot' : Option Entry} (h : x.Shadows k r) (hnow : nowMs < u128Max)
    (hok : operateLiveEntry codec (some x) op actor nowMs room = .ok slot') :
    (∃ y, slot' = some y ∧ y.Shadows k r) ∨ PastHorizon r nowMs := by
  obtain ⟨z, hz, rfl⟩ := operateLiveEntry_ok hok
  rcases hx.shadows_liveAt h hnow with ⟨y, hy, hys⟩ | hpast
  · rw [Option.bind_some, hy, Option.getD_some] at hz
    have hstored := hx.toFit.stored_of_liveAt hy
    have hz' : Stored codec payloads z :=
      ⟨hstored.toFit.operate hinj hop hz, expires_operate hstored.expires hz⟩
    exact hz'.shadows_liveAt (hys.operate hstored.kind hz) hnow
  · exact Or.inr hpast

lemma shadows_receive (hx : Stored codec payloads x) {copy joined : Entry} {room : Bool}
    (hcopy : Stored codec payloads copy) (h : x.Shadows k r) (hnow : nowMs < u128Max)
    (hok : receiveCopy codec (some x) copy nowMs room = .ok joined) :
    joined.Shadows k r ∨ PastHorizon r nowMs := by
  obtain ⟨admitted, z, hadm, hz, rfl⟩ := receiveCopy_ok hok
  rcases hx.shadows_liveAt h hnow with ⟨y, hy, hys⟩ | hpast
  · rw [Option.bind_some, hy] at hz
    have hstored := hx.toFit.stored_of_liveAt hy
    have hpay : ∀ v ∈ admitted.data, v ∈ payloads := by
      obtain ⟨a, ha, rfl⟩ := Entry.tryIntoStorageEntry_ok hadm
      intro v hv
      obtain ⟨d, hd⟩ := Entry.mem_data_materialize hv
      exact rawBuffer_payloads hcopy.payloads ha ((DataTopicBuffer.get?_new_values v).1 hd).1
    have hfit : Fit codec payloads z := fit_join hstored.payloads hpay hstored.kind hz
    rcases hfit.shadows_retiredAt (hys.join hstored.kind hz) hnow with ⟨v, -, -, hs⟩ | hpast
    · exact Or.inl hs
    · exact Or.inr hpast
  · exact Or.inr hpast

end Slot

namespace Replicas

variable {ι : Type} {codec : Codec} {actor : ι → Did} {did : Did}
  {payloads : Set Bytes} {w : Replicas ι} {e : ReplicaEvent ι} {i : ι}
  {k : ElementDigest} {r : EntryDot}

/-- Every slot and every copy sent is a stored entry. -/
structure Sound (codec : Codec) (payloads : Set Bytes) (w : Replicas ι) : Prop where
  slots : ∀ i, SlotStored codec payloads (w.slots i)
  sent : ∀ x ∈ w.sent, Stored codec payloads x

/-- A served entry is the projection of the stored one at the clock of the event. -/
lemma served_eq {x : Entry} (h : (slotStep codec actor (w.slots e.replica) e).1 = some x) :
    (w.slots e.replica).bind (·.liveAt codec e.nowMs) = some x := by
  cases e with
  | operate i t op room =>
    simp only [slotStep] at h
    split at h <;> cases h
  | receive i t copy room =>
    simp only [slotStep] at h
    split at h <;> cases h
  | read i t projection => rwa [slotStep, liveEntry_fst] at h
  | send i t => rwa [slotStep, liveEntry_fst] at h

lemma slotStored_step (hinj : Set.InjOn codec.digest payloads) (hw : Sound codec payloads w)
    (he : Permitted did payloads w e) :
    SlotStored codec payloads (slotStep codec actor (w.slots e.replica) e).2 := by
  have hslot := hw.slots e.replica
  have hread : ∀ t projection,
      SlotStored codec payloads (liveEntry codec (w.slots e.replica) t projection).2 := by
    intro t projection
    rcases liveEntry_snd codec (w.slots e.replica) t projection with h | h
    · rwa [h]
    · rw [h]
      exact hslot.live
  cases e with
  | operate i t op room =>
    obtain ⟨-, hk, hop⟩ := he.source
    simp only [slotStep]
    split
    · rename_i slot' hok
      exact hslot.operate hinj hk hop hok
    · exact hslot
  | receive i t copy room =>
    simp only [slotStep]
    split
    · rename_i joined hok
      intro x hx
      cases hx
      exact hslot.receive (hw.sent copy he.source) hok
    · exact hslot
  | read i t projection => exact hread t projection
  | send i t => exact hread t .writtenBack

/-- The removed adds are shadowed at replica `i`, or their horizon has passed on some clock. -/
def Guarded (w : Replicas ι) (i : ι) (k : ElementDigest) (r : EntryDot) : Prop :=
  (∃ x, w.slots i = some x ∧ x.Shadows k r) ∨ PastHorizon r w.latestMs

lemma slot_guarded (hinj : Set.InjOn codec.digest payloads) (hw : Sound codec payloads w)
    (he : Permitted did payloads w e) {x : Entry} (hx : w.slots e.replica = some x)
    (h : x.Shadows k r) :
    (∃ y, (slotStep codec actor (w.slots e.replica) e).2 = some y ∧ y.Shadows k r) ∨
      PastHorizon r e.nowMs := by
  have hstored := hw.slots e.replica x hx
  have hnow := he.epoch
  have hread : ∀ projection,
      (∃ y, (liveEntry codec (some x) e.nowMs projection).2 = some y ∧ y.Shadows k r) ∨
        PastHorizon r e.nowMs := by
    intro projection
    rcases liveEntry_snd codec (some x) e.nowMs projection with hs | hs
    · exact Or.inl ⟨x, hs, h⟩
    · rw [hs]
      exact hstored.shadows_liveAt h hnow
  rw [hx]
  cases e with
  | operate i t op room =>
    simp only [slotStep]
    split
    · rename_i slot' hok
      exact shadows_operate hstored hinj he.source.2.2 h hnow hok
    · exact Or.inl ⟨x, rfl, h⟩
  | receive i t copy room =>
    simp only [slotStep]
    split
    · rename_i joined hok
      rcases shadows_receive hstored (hw.sent copy he.source) h hnow hok with hs | hs
      · exact Or.inl ⟨joined, rfl, hs⟩
      · exact Or.inr hs
    · exact Or.inl ⟨x, rfl, h⟩
  | read i t projection => exact hread projection
  | send i t => exact hread .writtenBack

variable [DecidableEq ι]

@[simp] lemma step_slots_self :
    (step codec actor w e).1.slots e.replica = (slotStep codec actor (w.slots e.replica) e).2 := by
  simp [step]

lemma step_slots_of_ne (h : i ≠ e.replica) : (step codec actor w e).1.slots i = w.slots i := by
  simp [step, h]

lemma sound_step (hinj : Set.InjOn codec.digest payloads) (hw : Sound codec payloads w)
    (he : Permitted did payloads w e) : Sound codec payloads (step codec actor w e).1 := by
  refine ⟨fun i => ?_, fun x hx => ?_⟩
  · by_cases hi : i = e.replica
    · subst hi
      rw [step_slots_self]
      exact slotStored_step hinj hw he
    · rw [step_slots_of_ne hi]
      exact hw.slots i
  · cases e with
    | send i t =>
      rcases List.mem_append.1 hx with hx | hx
      · have hserved := @served_eq _ codec actor w (.send i t) x (Option.mem_toList.1 hx)
        exact (hw.slots i).live x hserved
      · exact hw.sent x hx
    | operate i t op room => exact hw.sent x hx
    | receive i t copy room => exact hw.sent x hx
    | read i t projection => exact hw.sent x hx

lemma guarded_step (hinj : Set.InjOn codec.digest payloads) (hw : Sound codec payloads w)
    (he : Permitted did payloads w e) (h : Guarded w i k r) :
    Guarded (step codec actor w e).1 i k r := by
  have hmono : ∀ t, t ≤ max w.latestMs e.nowMs → PastHorizon r t →
      PastHorizon r (step codec actor w e).1.latestMs := fun t ht hp => hp.trans ht
  rcases h with ⟨x, hx, hs⟩ | hpast
  · by_cases hi : i = e.replica
    · subst hi
      rw [Guarded, step_slots_self]
      rcases slot_guarded hinj hw he hx hs with hs | hpast
      · exact Or.inl hs
      · exact Or.inr (hmono _ (le_max_right _ _) hpast)
    · exact Or.inl ⟨x, by rw [step_slots_of_ne hi, hx], hs⟩
  · exact Or.inr (hmono _ (le_max_left _ _) hpast)

/-- No event serves an add that is guarded against. -/
lemma served_of_guarded (hw : Sound codec payloads w) (he : Permitted did payloads w e)
    (h : Guarded w e.replica k r) {served : Entry} (hs : (step codec actor w e).2 = some served)
    {p : Bytes × EntryDot} (hp : p ∈ served.elements) (hd : codec.digest p.1 = k) : ¬ p.2 ≤ r := by
  obtain ⟨x, hx, hlive⟩ := Option.bind_eq_some_iff.1 (served_eq hs)
  obtain ⟨rfl, -⟩ := Entry.liveAt_eq_some.1 hlive
  have hstored := hw.slots e.replica x hx
  obtain ⟨hmem, hret⟩ :=
    (Entry.projected_retiredAt _ _ hstored.kind hstored.normal.aligned).elements p hp
  rcases h with ⟨x', hx', hsh⟩ | hpast
  · rw [hx, Option.some.injEq] at hx'
    subst hx'
    exact hstored.normal.not_le_of_shadows hsh hmem hd
  · -- every clock has passed the horizon of an add at or below the remove
    intro hle
    have hτ := EntryDot.logicalTimeMs_le hle
    have hclock := he.clock
    have hepoch := he.epoch
    have hret' := of_decide_eq_false hret
    simp only [Entry.dataRetention, saturatingAdd] at hret'
    simp only [PastHorizon] at hpast
    omega

/-! ### Runs -/

variable {events : List (ReplicaEvent ι)}

lemma run_append (a b : List (ReplicaEvent ι)) :
    run codec actor w (a ++ b) = run codec actor (run codec actor w a) b := by
  rw [run, List.foldl_append]
  rfl

lemma permittedRun_append {a b : List (ReplicaEvent ι)} :
    PermittedRun codec actor did payloads w (a ++ b) ↔
      PermittedRun codec actor did payloads w a ∧
        PermittedRun codec actor did payloads (run codec actor w a) b := by
  induction a generalizing w with
  | nil => exact ⟨fun h => ⟨trivial, h⟩, And.right⟩
  | cons e a ih =>
    simp only [List.cons_append, PermittedRun, ih, and_assoc]
    rfl

lemma sound_run (hinj : Set.InjOn codec.digest payloads) (hw : Sound codec payloads w)
    (hrun : PermittedRun codec actor did payloads w events) :
    Sound codec payloads (run codec actor w events) := by
  induction events generalizing w with
  | nil => exact hw
  | cons e events ih => exact ih (sound_step hinj hw hrun.1) hrun.2

lemma guarded_run (hinj : Set.InjOn codec.digest payloads) (hw : Sound codec payloads w)
    (hrun : PermittedRun codec actor did payloads w events) (h : Guarded w i k r) :
    Guarded (run codec actor w events) i k r := by
  induction events generalizing w with
  | nil => exact h
  | cons e events ih =>
    exact ih (sound_step hinj hw hrun.1) hrun.2 (guarded_step hinj hw hrun.1 h)

omit [DecidableEq ι] in
lemma sound_empty : Sound codec payloads (empty : Replicas ι) :=
  ⟨fun _ _ h => (by cases h), fun _ h => (by cases h)⟩

end Replicas

open Replicas in
/-- **No resurrection.** Once a replica has held the remove `(k, r)`, no later event at that
replica serves an element with digest `k` at a dot at or below `r`, whatever operations, copies
and reads come between, on clocks that step back by at most the tolerance. Payloads written to
the carrier have distinct digests. -/
theorem no_resurrection {ι : Type} [DecidableEq ι] (codec : Codec) (actor : ι → Did) (did : Did)
    (payloads : Set Bytes) (hdigest : Set.InjOn codec.digest payloads)
    (before later : List (ReplicaEvent ι)) (e : ReplicaEvent ι)
    (hrun : PermittedRun codec actor did payloads .empty (before ++ later ++ [e]))
    {k : ElementDigest} {r : EntryDot}
    (hheld : (Replicas.run codec actor .empty before).Holds e.replica k r) {served : Entry}
    (hserved : (Replicas.step codec actor (Replicas.run codec actor .empty (before ++ later)) e).2 =
      some served) :
    ∀ p ∈ served.elements, codec.digest p.1 = k → ¬ p.2 ≤ r := by
  obtain ⟨hrun, he, -⟩ := permittedRun_append.1 hrun
  obtain ⟨hbefore, hlater⟩ := permittedRun_append.1 hrun
  have hsound := sound_run hdigest sound_empty hbefore
  have hguard : Guarded (Replicas.run codec actor .empty before) e.replica k r := by
    obtain ⟨x, hx, ht⟩ := hheld
    exact Or.inl ⟨x, hx, Or.inl ⟨_, ht, rfl, le_rfl⟩⟩
  rw [Replicas.run_append] at he hserved
  intro p hp hd
  exact served_of_guarded (sound_run hdigest hsound hlater) he
    (guarded_run hdigest hsound hlater hguard) hserved hp hd

def staleCopy : Entry := ⟨1, [[5]], .data, ⟨none, [⟨⟨1000, 0, 3, 7⟩, 0⟩], []⟩, some 601000⟩

def removalRun : List (ReplicaEvent Bool) :=
  [.operate false 1000 (.extend ⟨1, [[5]], .data, .empty, some 601000⟩) true, .send false 1001,
    .receive true 1002 staleCopy true, .operate false 1002 (.tombstone (.new 1 [[5]] .data)) true]

def staleRun : List (ReplicaEvent Bool) := [.send true 500, .receive false 1003 staleCopy true]

/-- The stale copy does not bring the element back. -/
theorem no_resurrection_stale_copy :
    ∃ served, (Replicas.step plainCodec (fun _ => 3)
        (Replicas.run plainCodec (fun _ => 3) .empty (removalRun ++ staleRun))
        (.read false 1004 .writtenBack)).2 = some served ∧
      ∀ p ∈ served.elements, plainCodec.digest p.1 = plainCodec.digest [5] →
        ¬ p.2 ≤ ⟨⟨1000, 0, 3, 7⟩, 0⟩ := by
  have hserved : (Replicas.step plainCodec (fun _ => 3)
      (Replicas.run plainCodec (fun _ => 3) .empty (removalRun ++ staleRun))
      (.read false 1004 .writtenBack)).2 = some ⟨1, [], .data, ⟨none, [],
        [⟨plainCodec.digest [5], ⟨⟨1000, 0, 3, 7⟩, 0⟩⟩]⟩, some 601000⟩ := by decide +kernel
  refine ⟨_, hserved, no_resurrection plainCodec (fun _ => 3) 1 {[5]} (Set.injOn_singleton _ _)
    removalRun staleRun (.read false 1004 .writtenBack) ?_ ?_ hserved⟩
  · refine ⟨⟨by decide, by decide, rfl, rfl, by simp [EntryOperation.entry]⟩,
      ⟨by decide, by decide, trivial⟩, ⟨by decide, by decide, ?_⟩,
      ⟨by decide, by decide, rfl, rfl, by simp [EntryOperation.entry, Entry.new]⟩,
      ⟨by decide, by decide, trivial⟩, ⟨by decide, by decide, ?_⟩,
      ⟨by decide, by decide, trivial⟩, trivial⟩
    · have hsent : (Replicas.run plainCodec (fun _ => 3) .empty (removalRun.take 2)).sent =
          [staleCopy] := by decide +kernel
      exact hsent ▸ List.mem_singleton_self _
    · have hsent : (Replicas.run plainCodec (fun _ => 3) .empty
          (removalRun ++ staleRun.take 1)).sent = [staleCopy, staleCopy] := by decide +kernel
      exact hsent ▸ List.mem_cons_self
  · have hslot : (Replicas.run plainCodec (fun _ => 3) .empty removalRun).slots false =
        some ⟨1, [], .data, ⟨none, [],
          [⟨plainCodec.digest [5], ⟨⟨1000, 0, 3, 7⟩, 0⟩⟩]⟩, some 601000⟩ := by decide +kernel
    exact ⟨_, hslot, List.mem_singleton_self _⟩

end Rings
