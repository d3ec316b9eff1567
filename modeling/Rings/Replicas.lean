import Rings.Carrier

/-!
Replicas of one data carrier.

Each replica keeps the carrier in one slot and reads it through the projection at its own
clock. It applies operations, joins copies that any replica sent earlier, and reads; copies
may be delayed, duplicated and reordered, and clocks may step back by the tolerance. A remove
leaves a slot under a greater remove or a register past it, and otherwise only at a clock past
its horizon; by then every clock has passed the horizon of every add it covers.
-/

namespace Rings

inductive Projection where
  | writtenBack
  | returnedOnly

def projectionShape (e : Entry) : ℕ × ℕ × ℕ × Bool :=
  (e.data.length, e.crdt.dots.length, e.crdt.tombstones.length, e.crdt.register.isSome)

section Slot

variable (codec : Codec)

/-- A read of a stored entry: what it returns, and the slot it leaves. -/
def retireUnlessLive (entry : Entry) (nowMs : ℕ) (projection : Projection) :
    Option Entry × Option Entry :=
  match entry.liveAt codec nowMs, projection with
  | none, .writtenBack => (none, none)
  | none, .returnedOnly => (none, some entry)
  | some live, .writtenBack =>
    (some live, if projectionShape live ≠ projectionShape entry then some live else some entry)
  | some live, .returnedOnly => (some live, some entry)

def liveEntry (slot : Option Entry) (nowMs : ℕ) (projection : Projection) :
    Option Entry × Option Entry :=
  match slot with
  | none => (none, none)
  | some entry => retireUnlessLive codec entry nowMs projection

/-- Writing a value: the accounting of the removal store may refuse the removes it raises. -/
def putEntry (room : Bool) (value : Entry) : Except EntryError Entry :=
  if room then .ok value else .error .removalCapacityExhausted

/-- The join with the live value, when there is one. -/
def joinInto (live : Option Entry) (admitted : Entry) : Except EntryError Entry :=
  match live with
  | some live => live.join codec admitted
  | none => .ok admitted

def joinLiveEntry (slot : Option Entry) (admitted : Entry) (nowMs : ℕ) (room : Bool) :
    Except EntryError Entry := do
  let joined ← joinInto codec (liveEntry codec slot nowMs .returnedOnly).1 admitted
  let joined := joined.retiredAt codec nowMs
  joined.checkTombstoneBound
  putEntry room joined

/-- Apply an operation to the live value of a slot, or to an empty carrier. -/
def operateLiveEntry (slot : Option Entry) (op : EntryOperation) (actor : Did) (nowMs : ℕ)
    (room : Bool) : Except EntryError (Option Entry) := do
  let held := ((liveEntry codec slot nowMs .returnedOnly).1).getD op.genDefaultEntry
  let result ← held.operate codec nowMs op actor
  match result.liveAt codec nowMs with
  | some value => do
    value.checkTombstoneBound
    return some (← putEntry room value)
  | none => return none

/-- Receive a copy: admission, normalization, and the join. -/
def receiveCopy (slot : Option Entry) (copy : Entry) (nowMs : ℕ) (room : Bool) :
    Except EntryError Entry := do
  copy.validateBoundsAt nowMs
  let admitted ← copy.tryIntoStorageEntry codec
  joinLiveEntry codec slot admitted nowMs room

end Slot

/-! ### The replicas and their events -/

/-- The slots, the copies sent so far, and the latest clock reading of any replica. -/
structure Replicas (ι : Type) where
  slots : ι → Option Entry
  sent : List Entry
  latestMs : ℕ

inductive ReplicaEvent (ι : Type) where
  | operate (replica : ι) (nowMs : ℕ) (op : EntryOperation) (room : Bool)
  | receive (replica : ι) (nowMs : ℕ) (copy : Entry) (room : Bool)
  | read (replica : ι) (nowMs : ℕ) (projection : Projection)
  | send (replica : ι) (nowMs : ℕ)

namespace ReplicaEvent

variable {ι : Type}

def replica : ReplicaEvent ι → ι
  | .operate i _ _ _ => i
  | .receive i _ _ _ => i
  | .read i _ _ => i
  | .send i _ => i

def nowMs : ReplicaEvent ι → ℕ
  | .operate _ t _ _ => t
  | .receive _ t _ _ => t
  | .read _ t _ => t
  | .send _ t => t

end ReplicaEvent

namespace Replicas

variable {ι : Type}

def empty : Replicas ι := ⟨fun _ => none, [], 0⟩

/-- What an event leaves in the slot of its replica, and what it serves; a refused operation or
copy changes nothing. -/
def slotStep (codec : Codec) (actor : ι → Did) (slot : Option Entry) :
    ReplicaEvent ι → Option Entry × Option Entry
  | .operate i t op room =>
    match operateLiveEntry codec slot op (actor i) t room with
    | .ok slot' => (none, slot')
    | .error _ => (none, slot)
  | .receive _ t copy room =>
    match receiveCopy codec slot copy t room with
    | .ok joined => (none, some joined)
    | .error _ => (none, slot)
  | .read _ t projection => liveEntry codec slot t projection
  | .send _ t => liveEntry codec slot t .writtenBack

variable [DecidableEq ι]

def step (codec : Codec) (actor : ι → Did) (w : Replicas ι) (e : ReplicaEvent ι) :
    Replicas ι × Option Entry :=
  let (served, slot) := slotStep codec actor (w.slots e.replica) e
  ({ slots := Function.update w.slots e.replica slot
     sent := match e with
       | .send _ _ => served.toList ++ w.sent
       | _ => w.sent
     latestMs := max w.latestMs e.nowMs }, served)

def run (codec : Codec) (actor : ι → Did) (w : Replicas ι) (events : List (ReplicaEvent ι)) :
    Replicas ι :=
  events.foldl (fun w e => (step codec actor w e).1) w

/-- What an event may be: a clock reading at most the tolerance behind every earlier one and
below the greatest representable instant, an operation on the carrier with payloads from
`payloads`, or a copy sent earlier. -/
structure Permitted (did : Did) (payloads : Set Bytes) (w : Replicas ι) (e : ReplicaEvent ι) :
    Prop where
  clock : w.latestMs ≤ e.nowMs + tsOffsetToleranceMs
  epoch : e.nowMs < u128Max
  source : match e with
    | .operate _ _ op _ => op.entry.did = did ∧ op.entry.kind = .data ∧
        ∀ v ∈ op.entry.data, v ∈ payloads
    | .receive _ _ copy _ => copy ∈ w.sent
    | .read _ _ _ => True
    | .send _ _ => True

def PermittedRun (codec : Codec) (actor : ι → Did) (did : Did) (payloads : Set Bytes)
    (w : Replicas ι) : List (ReplicaEvent ι) → Prop
  | [] => True
  | e :: events => Permitted did payloads w e ∧
      PermittedRun codec actor did payloads (step codec actor w e).1 events

/-- The replica holds the remove `(k, r)`. -/
def Holds (w : Replicas ι) (i : ι) (k : ElementDigest) (r : EntryDot) : Prop :=
  ∃ x, w.slots i = some x ∧ ⟨k, r⟩ ∈ x.crdt.tombstones

end Replicas

/-! ### What a slot holds -/

/-- A data entry that is normalized, with payloads from `payloads`. -/
structure Fit (codec : Codec) (payloads : Set Bytes) (x : Entry) : Prop where
  normal : x.Normal codec
  kind : x.kind = .data
  payloads : ∀ v ∈ x.data, v ∈ payloads

/-- A stored entry: fit, with a retention bound. -/
structure Stored (codec : Codec) (payloads : Set Bytes) (x : Entry) : Prop
    extends Fit codec payloads x where
  expires : x.expiresAtMs.isSome

section Entries

variable {codec : Codec} {payloads : Set Bytes} {x y z : Entry} {nowMs : ℕ}
  {k : ElementDigest} {r : EntryDot}

lemma mem_data_of_mem_elements {p : Bytes × EntryDot} (h : p ∈ x.elements) : p.1 ∈ x.data :=
  (List.of_mem_zip h).1

lemma exists_mem_elements {v : Bytes} (ha : x.Aligned) (h : v ∈ x.data) :
    ∃ d, (v, d) ∈ x.elements := by
  have hmap : x.elements.map Prod.fst = x.data := by
    rw [Entry.elements, List.map_fst_zip]
    exact ha.le
  rw [← hmap, List.mem_map] at h
  obtain ⟨⟨v, d⟩, hp, rfl⟩ := h
  exact ⟨d, hp⟩

lemma Fit.retiredAt (h : Fit codec payloads x) : Fit codec payloads (x.retiredAt codec nowMs) := by
  have hp := Entry.projected_retiredAt codec nowMs h.kind h.normal.aligned
  refine ⟨⟨hp.aligned, fun p hmem f hf => ?_, fun p hmem t ht hte => ?_⟩, hp.kind.trans h.kind,
    fun v hv => ?_⟩
  · exact h.normal.pastRegister p (hp.elements p hmem).1 f ((hp.register f).1 hf).1
  · exact h.normal.uncovered p (hp.elements p hmem).1 t ((hp.tombstones t).1 ht).1 hte
  · obtain ⟨d, hd⟩ := exists_mem_elements hp.aligned hv
    exact h.payloads v (mem_data_of_mem_elements (hp.elements _ hd).1)

lemma Fit.expires_retiredAt (h : Fit codec payloads x) :
    (x.retiredAt codec nowMs).expiresAtMs = x.expiresAtMs :=
  (Entry.projected_retiredAt codec nowMs h.kind h.normal.aligned).expires

lemma fit_materialize {b : DataTopicBuffer} {o : Option ℕ} (hk : x.kind = .data)
    (hb : NormalBuffer codec b) (hp : ∀ v d, b.values.get? v = some d → v ∈ payloads) :
    Fit codec payloads (x.materializeTopicBuffer b o) := by
  refine ⟨Entry.normal_materialize hb, hk, fun v hv => ?_⟩
  obtain ⟨d, hd⟩ := Entry.mem_data_materialize hv
  exact hp v d hd

lemma rawBuffer_payloads {a : DataTopicBuffer} (hx : ∀ v ∈ x.data, v ∈ payloads)
    (ha : x.rawBuffer = .ok a) {v : Bytes} {d : EntryDot} (h : a.values.get? v = some d) :
    v ∈ payloads :=
  hx v ((Entry.rawBuffer_ok ha).2.2 _ (a.values.mem_entries.2 h))

/-- A join of entries with payloads from `payloads` is fit. -/
lemma fit_join (hx : ∀ v ∈ x.data, v ∈ payloads) (hy : ∀ v ∈ y.data, v ∈ payloads)
    (hk : x.kind = .data) (h : x.join codec y = .ok z) : Fit codec payloads z := by
  obtain ⟨a, c, ha, hc, rfl⟩ := Entry.join_ok h
  refine fit_materialize hk DataTopicBuffer.normalBuffer_new fun v d hv => ?_
  have hget := ((DataTopicBuffer.get?_new_values v).1 hv).1
  rw [BTreeMap.get?_join] at hget
  rcases (omax_eq_some.1 hget).1 with hv | hv
  · exact rawBuffer_payloads hx ha hv
  · exact rawBuffer_payloads hy hc hv

/-- An operation on a fit entry gives a fit entry; a removal needs distinct digests. -/
lemma Fit.operate (hx : Fit codec payloads x) (hinj : Set.InjOn codec.digest payloads)
    {op : EntryOperation} (hop : ∀ v ∈ op.entry.data, v ∈ payloads) {actor : Did}
    (h : x.operate codec nowMs op actor = .ok z) : Fit codec payloads z := by
  rcases Entry.operate_cases h with ⟨y, hy, h⟩ | h
  · exact fit_join hx.payloads (hy ▸ hop) hx.kind h
  · obtain ⟨a, l, ha, rfl⟩ := Entry.tombstone_ok h
    have hpay : ∀ v d, (DataTopicBuffer.new codec a.register a.values a.removes).values.get? v =
        some d → v ∈ payloads := fun v d hv =>
      rawBuffer_payloads hx.payloads ha ((DataTopicBuffer.get?_new_values v).1 hv).1
    have hnew : NormalBuffer codec (.new codec a.register a.values a.removes) :=
      DataTopicBuffer.normalBuffer_new
    obtain ⟨hnormal, hkeys⟩ := DataTopicBuffer.foldl_remove_spec hnew
      (fun u w d d' hu hw hd => hinj (hpay u d hu) (hpay w d' hw) hd) l
    exact fit_materialize hx.kind hnormal fun v d hv => hpay v d (hkeys v d hv)

lemma expires_operate {op : EntryOperation} {actor : Did} (hx : x.expiresAtMs.isSome)
    (h : x.operate codec nowMs op actor = .ok z) : z.expiresAtMs.isSome := by
  rcases Entry.operate_cases h with ⟨y, -, h⟩ | h
  · obtain ⟨a, c, -, -, rfl⟩ := Entry.join_ok h
    exact omax_isSome.trans (by simp [hx])
  · obtain ⟨a, l, -, rfl⟩ := Entry.tombstone_ok h
    exact hx

/-! ### The horizon -/

/-- Past `τ + H + σ`, when a remove at `r` is stable. -/
def PastHorizon (r : EntryDot) (nowMs : ℕ) : Prop :=
  r.version.logicalTimeMs + maxTtlMs + tsOffsetToleranceMs ≤ nowMs

lemma pastHorizon_of_retires {v : EntryVersion} (hnow : nowMs < u128Max)
    (h : Entry.dataRetention.retiresRemove nowMs v = true)
    (hv : r.version.logicalTimeMs ≤ v.logicalTimeMs) : PastHorizon r nowMs := by
  replace h := of_decide_eq_true h
  simp only [ElementRetention.stableAt, Entry.dataRetention, saturatingAdd] at h
  have hsmall : maxTtlMs + tsOffsetToleranceMs ≤ u128Max := by decide
  rw [PastHorizon]
  omega

/-- What a fit entry shadows it still shadows after the projection, before the horizon. -/
lemma Fit.shadows_retiredAt (hx : Fit codec payloads x) (h : x.Shadows k r)
    (hnow : nowMs < u128Max) :
    (∃ v, Entry.dataRetention.retiresRemove nowMs v = false ∧
      ((∃ t ∈ (x.retiredAt codec nowMs).crdt.tombstones, t.dot.version = v) ∨
        (x.retiredAt codec nowMs).crdt.register = some v) ∧
      (x.retiredAt codec nowMs).Shadows k r) ∨ PastHorizon r nowMs := by
  have hp := Entry.projected_retiredAt codec nowMs hx.kind hx.normal.aligned
  rcases h with ⟨t, ht, hk, hr⟩ | ⟨f, hf, hr⟩
  · cases hret : Entry.dataRetention.retiresRemove nowMs t.dot.version with
    | true => exact Or.inr (pastHorizon_of_retires hnow hret (EntryDot.logicalTimeMs_le hr))
    | false =>
      have ht' := (hp.tombstones t).2 ⟨ht, hret⟩
      exact Or.inl ⟨_, hret, Or.inl ⟨t, ht', rfl⟩, Or.inl ⟨t, ht', hk, hr⟩⟩
  · cases hret : Entry.dataRetention.retiresRemove nowMs f with
    | true => exact Or.inr (pastHorizon_of_retires hnow hret (EntryVersion.logicalTimeMs_le hr.le))
    | false =>
      have hf' := (hp.register f).2 ⟨hf, hret⟩
      exact Or.inl ⟨f, hret, Or.inr hf', Or.inr ⟨f, hf', hr⟩⟩

/-- A stored entry that shadows something is live and shadows it in every read, before the
horizon. -/
lemma Stored.shadows_liveAt (hx : Stored codec payloads x) (h : x.Shadows k r)
    (hnow : nowMs < u128Max) :
    (∃ y, x.liveAt codec nowMs = some y ∧ y.Shadows k r) ∨ PastHorizon r nowMs := by
  rcases hx.toFit.shadows_retiredAt h hnow with ⟨v, hv, hheld, hs⟩ | h
  · refine Or.inl ⟨_, Entry.liveAt_eq_some.2 ⟨rfl, ?_⟩, hs⟩
    refine Entry.isLiveAt_of_unstable hx.toFit.retiredAt.kind ?_ hheld hv
    rw [hx.toFit.expires_retiredAt]
    exact hx.expires
  · exact Or.inr h

lemma Fit.stored_of_liveAt (hx : Fit codec payloads x) (h : x.liveAt codec nowMs = some y) :
    Stored codec payloads y := by
  obtain ⟨rfl, hlive⟩ := Entry.liveAt_eq_some.1 h
  refine ⟨hx.retiredAt, ?_⟩
  simp only [Entry.isLiveAt, Entry.isLiveUnder, Bool.and_eq_true] at hlive
  exact hlive.1

end Entries

end Rings
