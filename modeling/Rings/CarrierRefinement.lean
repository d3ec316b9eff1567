import Rings.CarrierStore
import Rings.Convergence

/-!
The factored data store refines a store of whole carriers.

Normalizing an element side against a remove side drops exactly the elements the remove side
covers or floors. So what the two stores hold under one key reads back as one carrier, the same
before and after the recovery pass, and every operation acts on it as on a store of whole
carriers. A crash between the two writes of a put leaves the elements of the value before under
the remove side of the value written. The one failure is a put over the elements of another
resource, cut between its two writes: no recovery pass can join the two.
-/

namespace Rings

open Effect CarrierStore

/-! ### Sides of a carrier -/

namespace Entry

variable {codec : Codec} {e r : Entry}

lemma canonical_elementSide (h : e.Canonical codec) : (elementSide e).Canonical codec where
  aligned := h.aligned
  adds := h.adds
  removes := List.Pairwise.nil
  normal := by
    refine LwwSet.normal_of_unique ?_ (fun t ht => ?_) (fun q _ => ⟨fun f hf => ?_, ?_⟩) ?_
    · exact fun p hp q hq hk => eq_of_mem_latest (h.normal.mem_latest hp) (h.normal.mem_latest hq) hk
    · simp [toSet, elementSide, removals, pairSet] at ht
    · cases hf
    · rintro ⟨t, ht, -⟩
      simp [toSet, elementSide, removals, pairSet] at ht
    · intro t ht
      simp [toSet, elementSide, removals, pairSet] at ht
  addsLen := h.addsLen
  removesLen := by simp [removals, elementSide]

structure RemoveSide (codec : Codec) (r : Entry) : Prop extends Canonical codec r where
  data : r.data = []
  kind : r.kind = .data

lemma RemoveSide.adds_eq (h : RemoveSide codec r) : r.toSet.adds = ∅ := by
  simp [toSet, elements, h.data, pairSet]

lemma shadows_iff {q : EntryDot ×ₗ Bytes} : r.Shadows (codec.digest (keyOf q)) (dotOf q) ↔
    dotOf q ∉ r.toSet.floor ∨ LwwSet.Covers codec.digest r.toSet.removes q := by
  have hcovers : LwwSet.Covers codec.digest r.toSet.removes q ↔
      ∃ t ∈ r.crdt.tombstones, t.element = codec.digest (keyOf q) ∧ dotOf q ≤ t.dot := by
    constructor
    · rintro ⟨t, ht, hk, hle⟩
      exact ⟨⟨keyOf t, dotOf t⟩, mem_removals.2 (mem_pairSet.1 ht), hk, hle⟩
    · rintro ⟨t, ht, hk, hle⟩
      exact ⟨byDot (t.element, t.dot), mem_pairSet.2 (mem_removals.1 ht), hk, hle⟩
  have hfloor : dotOf q ∉ r.toSet.floor ↔
      ∃ f, r.crdt.register = some f ∧ (dotOf q).version < f := by
    simp only [toSet, Set.mem_ofPred_eq, not_forall, not_le, exists_prop]
  rw [hcovers, hfloor, Shadows, or_comm]

/-- Joining a remove side into a stored carrier keeps exactly the elements it does not shadow. -/
lemma join_removeSide (he : e.Canonical codec) (hr : RemoveSide codec r) (h : SameCarrier e r) :
    ∃ z, e.join codec r = .ok z ∧ z.Canonical codec ∧ SameCarrier e z ∧
      z.expiresAtMs = max e.expiresAtMs r.expiresAtMs ∧
      ∀ q, q ∈ z.toSet.adds ↔ q ∈ e.toSet.adds ∧ ¬ r.Shadows (codec.digest (keyOf q)) (dotOf q) := by
  obtain ⟨z, hz, hcan, hsame, -, hexp, hset⟩ := exists_join he hr.toCanonical h
  refine ⟨z, hz, hcan, hsame, hexp, fun q => ?_⟩
  have hunion : (e.toSet.union r.toSet).adds = e.toSet.adds :=
    LwwSet.union_adds_of_empty hr.adds_eq
  have hcard : ((LwwSet.visible codec.digest (e.toSet.union r.toSet)).card : ℕ∞) ≤
      e.kind.maxDataLen := by
    have hsub : LwwSet.visible codec.digest (e.toSet.union r.toSet) ⊆ e.toSet.adds :=
      hunion ▸ LwwSet.visible_subset
    have hle := Finset.card_le_card hsub
    exact_mod_cast hle.trans ((card_pairSet_le _).trans he.addsLen)
  rw [hset, LwwSet.merge_adds, newest_eq_self hcard, LwwSet.mem_visible, hunion, shadows_iff]
  have hcovers : LwwSet.Covers codec.digest (e.toSet.union r.toSet).removes q ↔
      LwwSet.Covers codec.digest e.toSet.removes q ∨
        LwwSet.Covers codec.digest r.toSet.removes q := LwwSet.covers_union
  rw [hcovers, not_or, not_or, not_not]
  constructor
  · rintro ⟨hlatest, ⟨-, hfloor⟩, -, hcov⟩
    exact ⟨(mem_latest.1 hlatest).1, hfloor, hcov⟩
  · rintro ⟨hmem, hfloor, hcov⟩
    -- what a stored carrier holds is visible in it
    obtain ⟨hlatest, hown, hcov'⟩ := LwwSet.mem_visible.1 (he.normal.adds.symm ▸ hmem)
    exact ⟨hlatest, ⟨hown, hfloor⟩, hcov', hcov⟩

lemma Canonical.card_adds (h : e.Canonical codec) : e.toSet.adds.card = e.data.length := by
  have hnodup : (e.elements.map byDot).Nodup := h.adds.imp fun h => h.ne
  have hlen : e.elements.length = e.data.length := by
    rw [elements, List.length_zip, ← h.aligned, Nat.min_self]
  exact (card_pairSet hnodup).trans hlen

/-- The carrier without elements that holds the remove side of a stored data carrier. -/
def removeSideOf (e : Entry) : Entry where
  did := e.did
  data := []
  kind := .data
  crdt := ⟨e.crdt.register, [], e.crdt.tombstones⟩
  expiresAtMs := some 0

lemma removeSide_removeSideOf (h : e.Canonical codec) : RemoveSide codec (removeSideOf e) where
  aligned := rfl
  adds := List.Pairwise.nil
  removes := h.removes
  normal := by
    have hnone : ∀ q, q ∉ (removeSideOf e).toSet.adds := fun q hq => by
      simp [toSet, elements, removeSideOf, pairSet] at hq
    refine LwwSet.normal_of_unique (fun p hp => absurd hp (hnone p)) ?_
      (fun q hq => absurd hq (hnone q)) ?_
    · exact fun t ht u hu => eq_of_mem_latest (h.normal.mem_latest_removes ht)
        (h.normal.mem_latest_removes hu)
    · exact fun t ht => (LwwSet.mem_standing.1 (h.normal.removes.symm ▸ ht)).2
  addsLen := Nat.zero_le _
  removesLen := le_top
  data := rfl
  kind := rfl

end Entry

open Entry

section Settle

variable {codec : Codec} {held value : Entry} {record : RemovalRecord}

/-- The two outcomes of normalizing an element side: it stays, whole in no part and shadowed in
none, or it is the element side of the join. -/
lemma settle_spec (hh : held.Canonical codec) (hr : RemoveSide codec record.asEntry)
    (h : SameCarrier held record.asEntry) :
    (settle codec record held).Canonical codec ∧ SameCarrier held (settle codec record held) ∧
      isWhole (settle codec record held) = false ∧
      ∀ p, p ∈ (settle codec record held).elements ↔
        p ∈ held.elements ∧ ¬ record.asEntry.Shadows (codec.digest p.1) p.2 := by
  obtain ⟨z, hz, hcan, hsame, -, hadds⟩ := join_removeSide hh hr h
  have hadds' : ∀ p, p ∈ z.elements ↔
      p ∈ held.elements ∧ ¬ record.asEntry.Shadows (codec.digest p.1) p.2 := by
    intro p
    have := hadds (byDot p)
    rwa [toSet, toSet, mem_pairSet, mem_pairSet] at this
  rw [settle, hz]
  simp only
  split
  · exact ⟨canonical_elementSide hcan, ⟨hsame.kind, hsame.did⟩, rfl, hadds'⟩
  · rename_i hkeep
    simp only [Bool.or_eq_true, not_or, Bool.not_eq_true, decide_eq_true_eq, not_not] at hkeep
    refine ⟨hh, ⟨rfl, rfl⟩, hkeep.1, fun p => ⟨fun hp => ⟨hp, ?_⟩, And.left⟩⟩
    -- as many elements as before, and none but those: all of them
    have hsub : z.toSet.adds ⊆ held.toSet.adds := fun q hq => ((hadds q).1 hq).1
    have hall := Finset.eq_of_subset_of_card_le hsub (by rw [hcan.card_adds, hh.card_adds, hkeep.2])
    have hmem : byDot p ∈ z.toSet.adds := hall ▸ mem_pairSet.2 hp
    exact ((hadds _).1 hmem).2

lemma settle_eq_self (hh : held.Canonical codec) (hr : RemoveSide codec record.asEntry)
    (h : SameCarrier held record.asEntry) (hwhole : isWhole held = false)
    (hfree : ∀ p ∈ held.elements, ¬ record.asEntry.Shadows (codec.digest p.1) p.2) :
    settle codec record held = held := by
  obtain ⟨z, hz, hcan, -, -, hadds⟩ := join_removeSide hh hr h
  have hall : z.toSet.adds = held.toSet.adds := by
    ext q
    rw [hadds]
    exact ⟨And.left, fun hq => ⟨hq, hfree _ (mem_pairSet.1 hq)⟩⟩
  have hlen : z.data.length = held.data.length := by rw [← hcan.card_adds, hall, hh.card_adds]
  rw [settle, hz]
  simp [hwhole, hlen]

lemma settle_settle (hh : held.Canonical codec) (hr : RemoveSide codec record.asEntry)
    (h : SameCarrier held record.asEntry) :
    settle codec record (settle codec record held) = settle codec record held := by
  obtain ⟨hcan, hsame, hwhole, helements⟩ := settle_spec hh hr h
  refine settle_eq_self hcan hr ⟨hsame.kind.symm.trans h.kind, hsame.did.symm.trans h.did⟩ hwhole ?_
  exact fun p hp => ((helements p).1 hp).2

/-! ### The carrier under one key -/

structure Valid (codec : Codec) (elements : Option Entry) (removals : Option RemovalRecord) :
    Prop where
  held : ∀ held, elements = some held → held.Canonical codec ∧ held.kind = .data
  record : ∀ record, removals = some record → RemoveSide codec record.asEntry ∧
    (record.asEntry.crdt.tombstones ≠ [] ∨ record.asEntry.crdt.register.isSome)
  resource : ∀ held record, elements = some held → removals = some record →
    held.did = record.did

def glued (record : RemovalRecord) (held : Entry) : Entry :=
  { held with
    crdt := ⟨record.asEntry.crdt.register, held.crdt.dots, record.asEntry.crdt.tombstones⟩
    expiresAtMs := max held.expiresAtMs (some 0) }

def carrierOf (codec : Codec) (elements : Option Entry) (removals : Option RemovalRecord) :
    Option Entry :=
  match removals with
  | none => elements
  | some record =>
    match elements with
    | none => some record.asEntry
    | some held => some (glued record (settle codec record held))

variable {elements : Option Entry} {removals : Option RemovalRecord}

lemma Valid.sameCarrier (h : Valid codec (some held) (some record)) :
    SameCarrier held record.asEntry :=
  ⟨(h.held held rfl).2, h.resource held record rfl rfl⟩

lemma glue_of_settled (h : Valid codec elements removals)
    (hsettled : ∀ held record, elements = some held → removals = some record →
      settle codec record held = held) :
    glue codec elements removals = .ok (carrierOf codec elements removals) := by
  cases removals with
  | none => rfl
  | some record =>
    cases elements with
    | none => rfl
    | some held =>
      have hs := hsettled held record rfl rfl
      obtain ⟨-, -, hwhole, -⟩ := settle_spec (h.held held rfl).1 (h.record record rfl).1 h.sameCarrier
      rw [hs] at hwhole
      rw [glue, carrierOf, hs]
      simp only [hwhole]
      rfl

lemma carrierOf_settle (h : Valid codec elements removals) :
    ∀ record, removals = some record →
      carrierOf codec (elements.map (settle codec record)) removals =
        carrierOf codec elements removals ∧
      Valid codec (elements.map (settle codec record)) removals := by
  rintro record rfl
  cases elements with
  | none => exact ⟨rfl, h⟩
  | some held =>
    have hh := (h.held held rfl).1
    have hr := (h.record record rfl).1
    obtain ⟨hcan, hsame, -, -⟩ := settle_spec hh hr h.sameCarrier
    refine ⟨?_, ⟨?_, h.record, ?_⟩⟩
    · simp only [carrierOf, Option.map_some, settle_settle hh hr h.sameCarrier]
    · rintro s hs
      cases hs
      exact ⟨hcan, hsame.kind.symm.trans (h.held held rfl).2⟩
    · rintro s r hs hr'
      cases hs
      exact hsame.did.symm.trans (h.resource held r rfl hr')

/-! ### The carrier a put writes -/

lemma of_eq_none_iff {previous : Option RemovalRecord} {charge : Principal} :
    RemovalRecord.of value previous charge = none ↔
      value.crdt.tombstones = [] ∧ value.crdt.register = none := by
  rw [RemovalRecord.of]
  simp

lemma asEntry_of {previous : Option RemovalRecord} {charge : Principal}
    (h : RemovalRecord.of value previous charge = some record) :
    record.asEntry = removeSideOf value := by
  rw [RemovalRecord.of] at h
  split at h
  · cases h
  · cases h
    simp only [RemovalRecord.asEntry, removeSideOf, List.map_map, Option.map_map]
    congr 2
    · cases value.crdt.register <;> rfl
    · exact List.map_id _

lemma Entry.Canonical.not_shadows (h : value.Canonical codec) {p : Bytes × EntryDot}
    (hp : p ∈ value.elements) : ¬ value.Shadows (codec.digest p.1) p.2 := by
  have hmem : byDot p ∈ value.toSet.adds := mem_pairSet.2 hp
  obtain ⟨-, hfloor, hcov⟩ := LwwSet.mem_visible.1 (h.normal.adds.symm ▸ hmem)
  have hiff : value.Shadows (codec.digest p.1) p.2 ↔ dotOf (byDot p) ∉ value.toSet.floor ∨
      LwwSet.Covers codec.digest value.toSet.removes (byDot p) := shadows_iff (q := byDot p)
  rw [hiff, not_or, not_not]
  exact ⟨hfloor, hcov⟩

lemma valid_written (hv : value.Canonical codec) {previous : Option RemovalRecord}
    {charge : Principal} {elements : Option Entry}
    (hheld : ∀ held, elements = some held → held.Canonical codec ∧ held.kind = .data)
    (hdid : ∀ held, elements = some held →
      RemovalRecord.of value previous charge = none ∨ held.did = value.did) :
    Valid codec elements (RemovalRecord.of value previous charge) where
  held := hheld
  record := by
    intro record hr
    have hside := removeSide_removeSideOf hv
    rw [← asEntry_of hr] at hside
    refine ⟨hside, ?_⟩
    rw [asEntry_of hr]
    by_contra hnone
    simp only [removeSideOf, not_or, not_not, Bool.not_eq_true, Option.isSome_eq_false_iff,
      Option.isNone_iff_eq_none] at hnone
    rw [of_eq_none_iff.2 hnone] at hr
    cases hr
  resource := by
    intro held record he hr
    rcases hdid held he with h | h
    · rw [h] at hr
      cases hr
    · have hd : record.did = value.did := congrArg Entry.did (asEntry_of hr)
      exact h.trans hd.symm

lemma carrierOf_put (hv : value.Canonical codec) (hk : value.kind = .data)
    (hx : value.expiresAtMs.isSome) (previous : Option RemovalRecord) (charge : Principal) :
    carrierOf codec (some (elementSide value)) (RemovalRecord.of value previous charge) =
        some value ∧
      Valid codec (some (elementSide value)) (RemovalRecord.of value previous charge) ∧
      ∀ record, RemovalRecord.of value previous charge = some record →
        settle codec record (elementSide value) = elementSide value := by
  have hvalid : Valid codec (some (elementSide value)) (RemovalRecord.of value previous charge) := by
    refine valid_written hv ?_ ?_
    · rintro held hheld
      cases hheld
      exact ⟨canonical_elementSide hv, hk⟩
    · rintro held hheld
      cases hheld
      exact Or.inr rfl
  have hsettle : ∀ record, RemovalRecord.of value previous charge = some record →
      settle codec record (elementSide value) = elementSide value := by
    intro record hr
    rw [hr] at hvalid
    refine settle_eq_self (canonical_elementSide hv) (hvalid.record record rfl).1
      hvalid.sameCarrier rfl fun p hp => ?_
    rw [asEntry_of hr]
    exact hv.not_shadows hp
  refine ⟨?_, hvalid, hsettle⟩
  rcases hr : RemovalRecord.of value previous charge with _ | record
  · obtain ⟨ht, hreg⟩ := of_eq_none_iff.1 hr
    simp only [carrierOf, elementSide, Option.some.injEq]
    rw [← ht, ← hreg]
  · obtain ⟨x, hx⟩ := Option.isSome_iff_exists.1 hx
    have hmax : max value.expiresAtMs (some 0) = value.expiresAtMs := by
      rw [hx, Option.max_some_some, max_eq_left (Nat.zero_le x)]
    simp only [carrierOf, hsettle record hr]
    simp only [glued, asEntry_of hr, removeSideOf, elementSide, hmax]

end Settle

/-! ### The store of whole carriers -/

def sideOf (carrier : Option Entry) : Option EntryVersion × List EntryTombstone :=
  carrier.elim (none, []) fun e => (e.crdt.register, e.crdt.tombstones)

def elementsOf (carrier : Option Entry) : List (Bytes × EntryDot) := carrier.elim [] Entry.elements

/-- The remove side of a carrier alone; nothing when it holds no remove and no register. -/
def sideAlone (carrier : Option Entry) : Option Entry :=
  carrier.bind fun e =>
    if e.crdt.tombstones.isEmpty && e.crdt.register.isNone then none else some (removeSideOf e)

/-- What may be read back after a crash: the remove side of the value before or of the value
being written, no element it covers or floors, and elements of these two values only. -/
structure CrashRead (codec : Codec) (before writing after : Option Entry) : Prop where
  side : sideOf after = sideOf before ∨ sideOf after = sideOf writing
  free : ∀ x, after = some x → ∀ p ∈ x.elements, ¬ x.Shadows (codec.digest p.1) p.2
  elements : ∀ p ∈ elementsOf after, p ∈ elementsOf before ∨ p ∈ elementsOf writing

/-- A store of whole carriers; some may date from before the factoring, and hold their remove
side where it can be evicted. -/
structure WholeStore (Key : Type) where
  carrier : Key → Option Entry
  legacy : Key → Bool

variable {Key : Type} [LinearOrder Key]

inductive Call (Key : Type) where
  | put (key : Key) (value : Entry) (introducer : Principal) (nowMs : ℕ)
  | remove (key : Key)
  | get (key : Key)
  | getAll

/-- A call, a call a crash cuts at its first failing access, or an eviction by the element
store. -/
inductive StoreEvent (Key : Type) where
  | call (c : Call Key)
  | crash (c : Call Key) (faults : Faults)
  | evict (key : Key)

namespace CarrierStore

def perform (codec : Codec) : Call Key → StoreM Key Unit
  | .put key value introducer nowMs => put codec key value introducer nowMs
  | .remove key => remove codec key
  | .get key => discard (get codec key)
  | .getAll => discard (getAll codec)

def step (codec : Codec) (w : Stores Key) : StoreEvent Key → Stores Key
  | .call c => (outcome (perform codec c) (under w .none)).2
  | .crash c faults => { (outcome (perform codec c) (under w faults)).2 with index := .new }
  | .evict key => { w with disk := { w.disk with elements := w.disk.elements.remove key } }

def run (codec : Codec) (w : Stores Key) (events : List (StoreEvent Key)) : Stores Key :=
  events.foldl (step codec) w

/-- A put of a store of whole carriers: it stores the value, or is refused by the budget of the
remove sides and changes nothing. -/
def Answered (key : Key) (value : Entry) (A B : WholeStore Key) : Except CarrierError Unit → Prop
  | .ok () => B.carrier = Function.update A.carrier key (some value) ∧
      B.legacy = Function.update A.legacy key false
  | .error e => B = A ∧ ∃ p refusal, e = .removalCapacityExhausted p refusal

def AbsStep (codec : Codec) (w : Stores Key) (A B : WholeStore Key) : StoreEvent Key → Prop
  | .call (.put key value introducer nowMs) =>
    Answered key value A B (outcome (put codec key value introducer nowMs) (under w .none)).1
  | .call (.remove key) => B.carrier = Function.update A.carrier key none ∧
      B.legacy = Function.update A.legacy key false
  | .crash (.put key value _ _) _ =>
    (∀ k, k ≠ key → B.carrier k = A.carrier k) ∧ (∀ k, B.legacy k = true → A.legacy k = true) ∧
      CrashRead codec (A.carrier key) (some value) (B.carrier key)
  | .crash (.remove key) _ =>
    (∀ k, k ≠ key → B.carrier k = A.carrier k) ∧ (∀ k, B.legacy k = true → A.legacy k = true) ∧
      CrashRead codec (A.carrier key) none (B.carrier key)
  | .evict key => (∀ k, k ≠ key → B.carrier k = A.carrier k) ∧ B.legacy = A.legacy ∧
      (B.carrier key = sideAlone (A.carrier key) ∨ A.legacy key = true ∧ B.carrier key = none)
  | _ => B = A

def AbsRun (codec : Codec) : Stores Key → WholeStore Key → List (StoreEvent Key) →
    WholeStore Key → Prop
  | _, A, [], B => B = A
  | w, A, event :: events, B =>
    ∃ C, AbsStep codec w A C event ∧ AbsRun codec (step codec w event) C events B

/-- A value a put stores: normalized, of the data kind, and live. -/
structure Storable (codec : Codec) (value : Entry) (nowMs : ℕ) : Prop where
  normalized : value.Normalized codec
  kind : value.kind = .data
  live : value.isLiveAt nowMs = true

def WellFormed (codec : Codec) : StoreEvent Key → Prop
  | .call (.put _ value _ nowMs) => Storable codec value nowMs
  | .crash (.put _ value _ nowMs) _ => Storable codec value nowMs
  | _ => True

/-- A put that a crash cuts between its two writes writes a remove side only over the elements of
its own resource. -/
def SameResource (w : Stores Key) : StoreEvent Key → Prop
  | .crash (.put key value _ _) faults => faults.call.take 3 = [false, false, true] →
    ∀ held, w.disk.elements.get? key = some held →
      value.crdt.tombstones = [] ∧ value.crdt.register = none ∨ held.did = value.did
  | _ => True

/-- Every event of a run stores only what may be stored, and meets `cond`. -/
def Meets (codec : Codec) (cond : Stores Key → StoreEvent Key → Prop) :
    Stores Key → List (StoreEvent Key) → Prop
  | _, [] => True
  | w, event :: events =>
    WellFormed codec event ∧ cond w event ∧ Meets codec cond (step codec w event) events

/-- The stores as an earlier build left them: whole carriers, and no remove side apart. -/
structure LegacyDisk (codec : Codec) (d : Disk Key) : Prop where
  removals : d.removals = .empty
  elements : ∀ key held, d.elements.get? key = some held →
    held.Normalized codec ∧ held.kind = .data

/-! ### The simulation -/

variable {codec : Codec} {d : Disk Key} {A : WholeStore Key} {w v : Stores Key} {key : Key}
  {value : Entry} {introducer : Principal} {nowMs : ℕ}

/-- The two stores hold, key by key, the carriers of a store of whole carriers. -/
structure Sim (codec : Codec) (d : Disk Key) (A : WholeStore Key) : Prop where
  valid : ∀ k, Valid codec (d.elements.get? k) (d.removals.get? k)
  carrier : ∀ k, A.carrier k = carrierOf codec (d.elements.get? k) (d.removals.get? k)
  legacy : ∀ k held, d.elements.get? k = some held → isWhole held = true →
    d.removals.get? k = none → A.legacy k = true

/-- Every element side is normalized against its remove side. -/
def SettledDisk (codec : Codec) (d : Disk Key) : Prop :=
  ∀ k held record, d.elements.get? k = some held → d.removals.get? k = some record →
    settle codec record held = held

@[simp] lemma get?_setRemovals (k : Key) (next : Option RemovalRecord) :
    (setRemovals key next d).removals.get? k = if k = key then next else d.removals.get? k := by
  cases next with
  | none => exact BTreeMap.get?_remove d.removals key k
  | some record => exact BTreeMap.get?_insert d.removals key k record

lemma setRemovals_self {next : Option RemovalRecord} (h : next = d.removals.get? key) :
    setRemovals key next d = d := by
  have hremovals : (setRemovals key next d).removals = d.removals := by
    refine BTreeMap.ext_get? fun k => ?_
    rw [get?_setRemovals]
    split
    · rename_i hk
      rw [h, hk]
    · rfl
  cases d
  exact congrArg (Disk.mk _) hremovals

lemma carrierOf_free {elements : Option Entry} {removals : Option RemovalRecord}
    (h : Valid codec elements removals) {x : Entry}
    (hx : carrierOf codec elements removals = some x) {p : Bytes × EntryDot}
    (hp : p ∈ x.elements) : ¬ x.Shadows (codec.digest p.1) p.2 := by
  cases removals with
  | none => exact (h.held x hx).1.not_shadows hp
  | some record =>
    cases elements with
    | none =>
      cases hx
      cases hp
    | some held =>
      cases hx
      obtain ⟨-, -, -, hmem⟩ :=
        settle_spec (h.held held rfl).1 (h.record record rfl).1 h.sameCarrier
      exact ((hmem p).1 hp).2

lemma Sim.replace (h : Sim codec d A) {d' : Disk Key}
    (helements : ∀ k, k ≠ key → d'.elements.get? k = d.elements.get? k)
    (hremovals : ∀ k, k ≠ key → d'.removals.get? k = d.removals.get? k)
    (hvalid : Valid codec (d'.elements.get? key) (d'.removals.get? key)) {x : Option Entry}
    (hx : carrierOf codec (d'.elements.get? key) (d'.removals.get? key) = x) {l : Bool}
    (hl : ∀ held, d'.elements.get? key = some held → isWhole held = true →
      d'.removals.get? key = none → l = true) :
    Sim codec d' ⟨Function.update A.carrier key x, Function.update A.legacy key l⟩ where
  valid := by
    intro k
    by_cases hk : k = key
    · exact hk ▸ hvalid
    · rw [helements k hk, hremovals k hk]
      exact h.valid k
  carrier := by
    intro k
    simp only
    by_cases hk : k = key
    · subst hk
      rw [Function.update_self, hx]
    · rw [Function.update_of_ne hk, helements k hk, hremovals k hk]
      exact h.carrier k
  legacy := by
    intro k held he hw hr
    simp only
    by_cases hk : k = key
    · subst hk
      rw [Function.update_self]
      exact hl held he hw hr
    · rw [Function.update_of_ne hk]
      exact h.legacy k held (helements k hk ▸ he) hw (hremovals k hk ▸ hr)

lemma SettledDisk.replace (h : SettledDisk codec d) {d' : Disk Key}
    (helements : ∀ k, k ≠ key → d'.elements.get? k = d.elements.get? k)
    (hremovals : ∀ k, k ≠ key → d'.removals.get? k = d.removals.get? k)
    (hkey : ∀ held record, d'.elements.get? key = some held →
      d'.removals.get? key = some record → settle codec record held = held) :
    SettledDisk codec d' := by
  intro k held record he hr
  by_cases hk : k = key
  · subst hk
    exact hkey held record he hr
  · exact h k held record (helements k hk ▸ he) (hremovals k hk ▸ hr)

lemma Sim.put (h : Sim codec d A) (hset : SettledDisk codec d) (hv : Storable codec value nowMs)
    {charge : Principal} {next : Option RemovalRecord}
    (hnext : next = RemovalRecord.of value (d.removals.get? key) charge) :
    Sim codec (putElements key (elementSide value) (setRemovals key next d))
      ⟨Function.update A.carrier key (some value), Function.update A.legacy key false⟩ ∧
    SettledDisk codec (putElements key (elementSide value) (setRemovals key next d)) := by
  have hlive : value.expiresAtMs.isSome = true := by
    have := hv.live
    rw [Entry.isLiveAt, Entry.isLiveUnder, Bool.and_eq_true] at this
    exact this.1
  obtain ⟨hcarrier, hvalid, hsettle⟩ := carrierOf_put hv.normalized.canonical hv.kind hlive
    (d.removals.get? key) charge
  rw [← hnext] at hcarrier hvalid hsettle
  have helements : ∀ k, (putElements key (elementSide value)
      (setRemovals key next d)).elements.get? k =
      if k = key then some (elementSide value) else d.elements.get? k := fun k =>
    BTreeMap.get?_insert d.elements key k _
  have hremovals : ∀ k, (putElements key (elementSide value)
      (setRemovals key next d)).removals.get? k = if k = key then next else d.removals.get? k :=
    fun k => get?_setRemovals k _
  have hkey := (helements key).trans (if_pos rfl)
  have hkey' := (hremovals key).trans (if_pos rfl)
  have hother := fun k (hk : k ≠ key) => (helements k).trans (if_neg hk)
  have hother' := fun k (hk : k ≠ key) => (hremovals k).trans (if_neg hk)
  constructor
  · refine h.replace hother hother' ?_ ?_ fun held he hw => ?_
    · rwa [hkey, hkey']
    · rw [hkey, hkey', hcarrier]
    · rw [hkey] at he
      cases he
      cases hw
  · refine hset.replace hother hother' fun held record he hr => ?_
    rw [hkey] at he
    cases he
    exact hsettle record (hkey'.symm.trans hr)

/-- What a crash may leave of the key a call was writing. -/
def Torn (codec : Codec) (key : Key) (writing : Option Entry) (A B : WholeStore Key) : Prop :=
  (∀ k, k ≠ key → B.carrier k = A.carrier k) ∧ (∀ k, B.legacy k = true → A.legacy k = true) ∧
    CrashRead codec (A.carrier key) writing (B.carrier key)

lemma Sim.torn_refl (h : Sim codec d A) (key : Key) (writing : Option Entry) :
    Torn codec key writing A A :=
  ⟨fun _ _ => rfl, fun _ h => h, Or.inl rfl,
    fun _ hx _ hp => carrierOf_free (h.valid key) ((h.carrier key).symm.trans hx) hp,
    fun _ hp => Or.inl hp⟩

/-- A carrier replaced under one key is torn when the new one reads back as a crash may. -/
lemma torn_update {writing x : Option Entry}
    (h : CrashRead codec (A.carrier key) writing x) :
    Torn codec key writing A
      ⟨Function.update A.carrier key x, Function.update A.legacy key false⟩ := by
  refine ⟨fun k hk => Function.update_of_ne hk _ _, fun k hk => ?_, ?_⟩
  · simp only at hk
    by_cases hkey : k = key
    · subst hkey
      simp [Function.update_self] at hk
    · rwa [Function.update_of_ne hkey] at hk
  · simp only
    rwa [Function.update_self]

lemma elementsOf_carrierOf {elements : Option Entry} {removals : Option RemovalRecord}
    (hset : ∀ held record, elements = some held → removals = some record →
      settle codec record held = held) :
    elementsOf (carrierOf codec elements removals) = elementsOf elements := by
  cases removals with
  | none => rfl
  | some record =>
    cases elements with
    | none => rfl
    | some held =>
      rw [carrierOf]
      simp only [hset held record rfl rfl]
      rfl

/-- A crash between the two writes of a put: the elements of the value before, less what the
remove side written shadows, under that remove side. -/
lemma Sim.torn_put (h : Sim codec d A) (hset : SettledDisk codec d)
    (hv : Storable codec value nowMs) {charge : Principal} {next : Option RemovalRecord}
    (hnext : next = RemovalRecord.of value (d.removals.get? key) charge)
    (hchanged : next ≠ d.removals.get? key)
    (hdid : ∀ held, d.elements.get? key = some held → next = none ∨ held.did = value.did) :
    ∃ B, Sim codec (setRemovals key next d) B ∧ Torn codec key (some value) A B := by
  have hkey : (setRemovals key next d).removals.get? key = next :=
    (get?_setRemovals key next).trans (if_pos rfl)
  have hvalid : Valid codec (d.elements.get? key) next := by
    rw [hnext] at hdid ⊢
    exact valid_written hv.normalized.canonical (h.valid key).held hdid
  have hwhole : ∀ held, d.elements.get? key = some held → next = none → isWhole held = false := by
    intro held he hnone
    obtain ⟨record, hr⟩ : ∃ record, d.removals.get? key = some record := by
      rw [← Option.isSome_iff_exists, Option.isSome_iff_ne_none]
      exact fun hprev => hchanged (hnone.trans hprev.symm)
    have hvalid' := h.valid key
    rw [he, hr] at hvalid'
    have hspec := settle_spec (hvalid'.held held rfl).1 (hvalid'.record record rfl).1
      hvalid'.sameCarrier
    rw [hset key held record he hr] at hspec
    exact hspec.2.2.1
  have hsim : Sim codec (setRemovals key next d)
      ⟨Function.update A.carrier key (carrierOf codec (d.elements.get? key) next),
        Function.update A.legacy key false⟩ := by
    refine h.replace ?_ (fun k hk => (get?_setRemovals k next).trans (if_neg hk)) ?_ ?_ ?_
    · exact fun _ _ => rfl
    · rw [hkey]
      exact hvalid
    · rw [hkey]
      rfl
    · intro held he hw hr
      rw [hwhole held he (hkey.symm.trans hr)] at hw
      cases hw
  refine ⟨_, hsim, torn_update ⟨Or.inr ?_, fun x hx p hp => carrierOf_free hvalid hx hp,
    fun p hp => Or.inl ?_⟩⟩
  · -- the remove side is the one written
    rcases hr : next with _ | record
    · obtain ⟨ht, hreg⟩ := of_eq_none_iff.1 (hnext.symm.trans hr)
      rcases he : d.elements.get? key with _ | held
      · simp [carrierOf, sideOf, ht, hreg]
      · have hnot := hwhole held he hr
        simp only [isWhole, Bool.or_eq_false_iff, Bool.not_eq_false', List.isEmpty_iff,
          Option.isSome_eq_false_iff, Option.isNone_iff_eq_none] at hnot
        simp [carrierOf, sideOf, ht, hreg, hnot.1, hnot.2]
    · have hside := asEntry_of (hnext.symm.trans hr)
      rcases he : d.elements.get? key with _ | held
      · simp [carrierOf, sideOf, hside, removeSideOf]
      · simp [carrierOf, sideOf, glued, hside, removeSideOf]
  · -- and the elements are among those held before
    rw [h.carrier key, elementsOf_carrierOf (hset key)]
    rcases hr : next with _ | record
    · rw [hr] at hp
      exact hp
    · rw [hr] at hp hvalid
      rcases he : d.elements.get? key with _ | held
      · rw [he] at hp
        cases hp
      · rw [he] at hp hvalid
        obtain ⟨-, -, -, hmem⟩ := settle_spec (hvalid.held held rfl).1
          (hvalid.record record rfl).1 hvalid.sameCarrier
        exact ((hmem p).1 hp).1

/-- A put, once the recovery pass has run: cut anywhere, it leaves what a crash may; with no
failure, it stores the carrier or is refused and changes nothing. -/
lemma PutFrom.refines {d' : Disk Key} {i i' : RemovalIndex} {faults : List Bool}
    {r : Except CarrierError Unit}
    (hput : PutFrom key value introducer nowMs d i faults r d' i') (h : Sim codec d A)
    (hset : SettledDisk codec d) (hv : Storable codec value nowMs)
    (hdid : faults.take 3 = [false, false, true] → ∀ held, d.elements.get? key = some held →
      value.crdt.tombstones = [] ∧ value.crdt.register = none ∨ held.did = value.did) :
    (∃ B, Sim codec d' B ∧ Torn codec key (some value) A B) ∧
    (faults = [] → ∃ B, Sim codec d' B ∧ SettledDisk codec d' ∧
      Answered key value A B r) := by
  have hwritten : ∀ next, next = RemovalRecord.of value (d.removals.get? key) introducer →
      (∃ B, Sim codec (putElements key (elementSide value) (setRemovals key next d)) B ∧
        Torn codec key (some value) A B) ∧
      ∃ B, Sim codec (putElements key (elementSide value) (setRemovals key next d)) B ∧
        SettledDisk codec (putElements key (elementSide value) (setRemovals key next d)) ∧
        B.carrier = Function.update A.carrier key (some value) ∧
          B.legacy = Function.update A.legacy key false := by
    intro next hnext
    obtain ⟨hsim, hsettled⟩ := h.put hset hv hnext
    refine ⟨⟨_, hsim, torn_update ⟨Or.inr rfl, fun x hx p hp => ?_, fun p hp => Or.inr hp⟩⟩,
      _, hsim, hsettled, rfl, rfl⟩
    cases hx
    exact hv.normalized.canonical.not_shadows hp
  cases hput with
  | failed fault =>
    exact ⟨⟨A, h, h.torn_refl key _⟩, fun hnone => by simp [hnone] at fault⟩
  | refused e next of changed applied apply error =>
    rw [apply] at error
    exact ⟨⟨A, h, h.torn_refl key _⟩,
      fun _ => ⟨A, h, hset, rfl, ItemChanges.raiseAll_error error⟩⟩
  | reverted fault next of changed applied apply ok =>
    exact ⟨⟨A, h, h.torn_refl key _⟩, fun hnone => by simp [hnone] at fault⟩
  | torn cut next of changed applied apply ok =>
    refine ⟨h.torn_put hset hv of changed fun held he => ?_, fun hnone => by simp [hnone] at cut⟩
    refine (hdid cut held he).imp_left fun hbare => ?_
    rw [of, of_eq_none_iff]
    exact hbare
  | unchanged of =>
    have hdone := hwritten (d.removals.get? key) of
    rw [setRemovals_self rfl] at hdone
    exact ⟨hdone.1, fun _ => hdone.2⟩
  | written next of changed applied apply ok =>
    exact ⟨(hwritten next of).1, fun _ => (hwritten next of).2⟩

lemma Sim.drop (h : Sim codec d A) (key : Key) (l : Bool) :
    Sim codec { d with elements := d.elements.remove key }
      ⟨Function.update A.carrier key (carrierOf codec none (d.removals.get? key)),
        Function.update A.legacy key l⟩ := by
  have hkey : (d.elements.remove key).get? key = none :=
    (BTreeMap.get?_remove d.elements key key).trans (if_pos rfl)
  refine h.replace (fun k hk => ?_) ?_ ?_ ?_ ?_
  · exact (BTreeMap.get?_remove d.elements key k).trans (if_neg hk)
  · exact fun _ _ => rfl
  · rw [hkey]
    exact ⟨fun _ he => (by cases he), (h.valid key).record, fun _ _ he => (by cases he)⟩
  · rw [hkey]
  · intro held he
    rw [hkey] at he
    cases he

lemma SettledDisk.drop (h : SettledDisk codec d) (key : Key) :
    SettledDisk codec { d with elements := d.elements.remove key } := by
  intro k held record he hr
  rw [BTreeMap.get?_remove] at he
  split at he
  · cases he
  · exact h k held record he hr

lemma sideOf_carrierOf {elements : Option Entry} {removals : Option RemovalRecord}
    {record : RemovalRecord} (h : removals = some record) :
    sideOf (carrierOf codec elements removals) = sideOf (some record.asEntry) := by
  subst h
  cases elements <;> rfl

/-- What is left of a carrier without its elements is the remove side its key holds apart. -/
lemma sideAlone_carrierOf {elements : Option Entry} {record : RemovalRecord}
    (h : Valid codec elements (some record)) :
    sideAlone (carrierOf codec elements (some record)) = some record.asEntry := by
  have hsome : ¬(record.asEntry.crdt.tombstones = [] ∧ record.asEntry.crdt.register = none) := by
    rintro ⟨ht, hreg⟩
    rcases (h.record record rfl).2 with hne | hne
    · exact hne ht
    · simp [hreg] at hne
  cases elements with
  | none =>
    simp only [carrierOf, sideAlone, Option.bind_some, Bool.and_eq_true, List.isEmpty_iff,
      Option.isNone_iff_eq_none, if_neg hsome]
    rfl
  | some held =>
    obtain ⟨-, hsame, -, -⟩ :=
      settle_spec (h.held held rfl).1 (h.record record rfl).1 h.sameCarrier
    have hdid : (settle codec record held).did = record.did :=
      hsame.did.symm.trans (h.resource held record rfl rfl)
    simp only [carrierOf, sideAlone, Option.bind_some, glued, Bool.and_eq_true, List.isEmpty_iff,
      Option.isNone_iff_eq_none, if_neg hsome, removeSideOf, hdid]
    rfl

lemma Sim.torn_drop (h : Sim codec d A) (key : Key) :
    CrashRead codec (A.carrier key) none (carrierOf codec none (d.removals.get? key)) := by
  rcases hr : d.removals.get? key with _ | record
  · exact ⟨Or.inr rfl, fun x hx => (by cases hx), fun p hp => (by cases hp)⟩
  · refine ⟨Or.inl ?_, fun x hx p hp => ?_, fun p hp => (by cases hp)⟩
    · rw [h.carrier key, sideOf_carrierOf hr]
      rfl
    · cases hx
      cases hp

/-- A removal: cut anywhere it leaves the carrier, or its remove side; with no failure, nothing. -/
lemma RemoveFrom.refines {d' : Disk Key} {i i' : RemovalIndex} {faults : List Bool}
    {r : Except CarrierError Unit} (hremove : RemoveFrom key d i faults r d' i')
    (h : Sim codec d A) (hset : SettledDisk codec d) :
    (∃ B, Sim codec d' B ∧ Torn codec key none A B) ∧
    (faults = [] → ∃ B, Sim codec d' B ∧ SettledDisk codec d' ∧
      B.carrier = Function.update A.carrier key none ∧
        B.legacy = Function.update A.legacy key false) := by
  have hdrop := h.drop key false
  cases hremove with
  | failed fault =>
    exact ⟨⟨A, h, h.torn_refl key _⟩, fun hnone => by simp [hnone] at fault⟩
  | torn fault =>
    exact ⟨⟨_, hdrop, torn_update (h.torn_drop key)⟩, fun hnone => by simp [hnone] at fault⟩
  | bare none =>
    refine ⟨⟨_, hdrop, torn_update (h.torn_drop key)⟩, fun _ => ⟨_, hdrop, hset.drop key, ?_, rfl⟩⟩
    rw [none]
    rfl
  | removed record some =>
    have hkey : (d.elements.remove key).get? key = Option.none :=
      (BTreeMap.get?_remove d.elements key key).trans (if_pos rfl)
    have hkey' : (setRemovals key Option.none
        { d with elements := d.elements.remove key }).removals.get? key = Option.none :=
      (get?_setRemovals key _).trans (if_pos rfl)
    have hsim : Sim codec (setRemovals key Option.none { d with elements := d.elements.remove key })
        ⟨Function.update A.carrier key Option.none, Function.update A.legacy key false⟩ := by
      refine h.replace (fun k hk => ?_) (fun k hk => ?_) ?_ ?_ ?_
      · exact (BTreeMap.get?_remove d.elements key k).trans (if_neg hk)
      · exact (get?_setRemovals k _).trans (if_neg hk)
      · rw [hkey']
        refine ⟨fun held he => ?_, fun _ hr => (by cases hr), fun _ _ _ hr => (by cases hr)⟩
        exact absurd (hkey.symm.trans he) (by simp)
      · rw [hkey']
        exact hkey
      · exact fun held he => absurd (hkey.symm.trans he) (by simp)
    have hsettled : SettledDisk codec
        (setRemovals key Option.none { d with elements := d.elements.remove key }) := by
      intro k held record he hr
      rw [get?_setRemovals] at hr
      split at hr
      · cases hr
      · exact hset.drop key k held record he hr
    refine ⟨⟨_, hsim, torn_update ⟨Or.inr rfl, fun x hx => ?_, fun p hp => ?_⟩⟩,
      fun _ => ⟨_, hsim, hsettled, rfl, rfl⟩⟩
    · cases hx
    · cases hp

/-- The recovery pass changes no carrier; with no failure it goes through and leaves every
element side normalized. -/
lemma Sim.ensureRecovered (h : Sim codec w.disk A)
    (hset : w.index.recovered = true → SettledDisk codec w.disk) (faults : Faults) :
    ∃ r v, outcome (ensureRecovered codec) (under w faults) = (r, v) ∧ Sim codec v.disk A ∧
      v.faults.call = faults.call ∧ (r = .ok () → SettledDisk codec v.disk) ∧
      (Clean faults.recovery → r = .ok ()) ∧
      ∀ k held, v.disk.elements.get? k = some held →
        ∃ held', w.disk.elements.get? k = some held' ∧ held'.did = held.did := by
  rcases hrec : w.index.recovered with _ | _
  · obtain ⟨r, v, hout, hstep, -⟩ := @ensureRecovered_outcome codec Key _ (under w faults) hrec
    have hremovals : v.disk.removals = w.disk.removals := hstep.removals
    have hlookup : ∀ k, w.disk.removals.entries.lookup k = w.disk.removals.get? k := fun _ => rfl
    -- key by key, the element side stayed or was normalized
    have heither : ∀ k, v.disk.elements.get? k = w.disk.elements.get? k ∨
        ∃ record, w.disk.removals.get? k = some record ∧
          v.disk.elements.get? k = (w.disk.elements.get? k).map (settle codec record) :=
      hstep.either
    refine ⟨r, v, hout, ⟨fun k => ?_, fun k => ?_, fun k held he hw hr => ?_⟩, hstep.call,
      fun hok k held record he hr => ?_, fun hclean => hstep.clean hclean ?_, fun k held he => ?_⟩
    · rw [hremovals]
      rcases heither k with he | ⟨record, hr, he⟩
      · rw [he]
        exact h.valid k
      · rw [he]
        exact (carrierOf_settle (h.valid k) record hr).2
    · rw [h.carrier k, hremovals]
      rcases heither k with he | ⟨record, hr, he⟩
      · rw [he]
      · rw [he]
        exact (carrierOf_settle (h.valid k) record hr).1.symm
    · rw [hremovals] at hr
      rcases heither k with he' | ⟨record, hr', -⟩
      · exact h.legacy k held (he' ▸ he) hw hr
      · simp [hr] at hr'
    · rw [hremovals] at hr
      have hsettle := hstep.settled hok k record hr
      rw [show ({ v with index := { v.index with recovered := false } } : Stores Key).disk = v.disk
        from rfl, he] at hsettle
      obtain ⟨held', he', rfl⟩ := Option.map_eq_some_iff.1 hsettle.symm
      have hvalid := h.valid k
      have he'' : w.disk.elements.get? k = some held' := he'
      rw [he'', hr] at hvalid
      exact settle_settle (hvalid.held held' rfl).1 (hvalid.record record rfl).1 hvalid.sameCarrier
    · intro k record held hr he
      have hvalid := h.valid k
      have he' : w.disk.elements.get? k = some held := he
      rw [he', ← hlookup, show w.disk.removals.entries.lookup k = some record from hr] at hvalid
      obtain ⟨z, hz, -⟩ := join_removeSide (hvalid.held held rfl).1 (hvalid.record record rfl).1
        hvalid.sameCarrier
      exact ⟨z, hz⟩
    · rcases heither k with he' | ⟨record, hr, he'⟩
      · exact ⟨held, he' ▸ he, rfl⟩
      · rw [he] at he'
        obtain ⟨held', hheld, rfl⟩ := Option.map_eq_some_iff.1 he'.symm
        have hvalid := h.valid k
        rw [hheld, hr] at hvalid
        obtain ⟨-, hsame, -, -⟩ := settle_spec (hvalid.held held' rfl).1
          (hvalid.record record rfl).1 hvalid.sameCarrier
        exact ⟨held', hheld, hsame.did⟩
  · have hout := @ensureRecovered_of_recovered codec Key _ (under w faults) hrec
    exact ⟨_, _, hout, h, rfl, fun _ => hset hrec, fun _ => rfl, fun k held he => ⟨held, he, rfl⟩⟩

structure Holds (codec : Codec) (w : Stores Key) (A : WholeStore Key) : Prop where
  sim : Sim codec w.disk A
  settled : w.index.recovered = true → SettledDisk codec w.disk

lemma outcome_discard {α : Type} (m : StoreM Key α) (w : Stores Key) :
    (outcome (discard m) w).2 = (outcome m w).2 := by
  have : (discard m : StoreM Key PUnit) = (do let _ ← m; pure ()) := by
    rw [discard]
    rfl
  rw [this, outcome_bind]
  rcases outcome m w with ⟨_ | _, _⟩ <;> rfl

/-- The listing of everything past the recovery pass: it glues what the stores hold, and changes
neither them nor the index. -/
lemma getAll_outcome (h : outcome (ensureRecovered codec) w = (.ok (), v)) :
    (outcome (getAll codec) w).2.disk = v.disk ∧ (outcome (getAll codec) w).2.index = v.index ∧
      (v.faults.call = [] → ∀ glued, glueAll codec v.disk.removals v.disk.elements.entries =
          .ok glued → (outcome (getAll codec) w).1 =
        .ok (glued.filterMap (fun kv => kv.2.map (kv.1, ·)) ++
          (v.disk.removals.retain fun k _ => (v.disk.elements.get? k).isNone).entries.map
            fun kv => (kv.1, kv.2.asEntry))) := by
  rw [getAll, outcome_bind_of_ok h]
  rcases h0 : v.faults.call.headD false with _ | _
  · rw [outcome_bind_of_ok (outcome_access_of_ok h0), outcome_bind_of_ok (outcome_get _)]
    rcases h1 : (ticked v).faults.call.headD false with _ | _
    · simp only
      rw [outcome_bind_of_ok (outcome_access_of_ok h1), outcome_bind_of_ok (outcome_get _)]
      have hdisk : (ticked (ticked v)).disk = v.disk := rfl
      have hdisk' : (ticked v).disk = v.disk := rfl
      rw [hdisk, hdisk']
      rcases hglue : glueAll codec v.disk.removals v.disk.elements.entries with e | glued
      · exact ⟨rfl, rfl, fun _ glued hglued => by cases hglued⟩
      · refine ⟨rfl, rfl, fun _ glued' hglued => ?_⟩
        cases hglued
        rfl
    · simp only
      rw [outcome_bind_of_error (outcome_access_of_fault h1)]
      refine ⟨rfl, rfl, fun hnone => ?_⟩
      simp [ticked, hnone] at h1
  · rw [outcome_bind_of_error (outcome_access_of_fault h0)]
    refine ⟨rfl, rfl, fun hnone => ?_⟩
    simp [hnone] at h0

lemma Holds.get (h : Holds codec w A) (key : Key) :
    (outcome (get codec key) (under w .none)).1 = .ok (A.carrier key) := by
  obtain ⟨r, v, hout, hsim, hcall, hset, hclean, -⟩ := h.sim.ensureRecovered h.settled .none
  obtain rfl := hclean fun _ hf => by cases hf
  obtain ⟨-, -, hget⟩ := @get_outcome codec Key _ _ key _ hout
  rw [hget hcall, glue_of_settled (hsim.valid key) (hset rfl key), hsim.carrier key]
  rfl

lemma Holds.getAll (h : Holds codec w A) :
    ∃ l, (outcome (getAll codec) (under w .none)).1 = .ok l ∧
      ∀ k x, (k, x) ∈ l ↔ A.carrier k = some x := by
  obtain ⟨r, v, hout, hsim, hcall, hset, hclean, -⟩ := h.sim.ensureRecovered h.settled .none
  obtain rfl := hclean fun _ hf => by cases hf
  obtain ⟨-, -, hall⟩ := getAll_outcome hout
  have hglue : glueAll codec v.disk.removals v.disk.elements.entries =
      .ok (v.disk.elements.entries.map fun kv =>
        (kv.1, carrierOf codec (some kv.2) (v.disk.removals.get? kv.1))) := by
    refine mapM_eq_ok_map fun ⟨k, held⟩ hkv => ?_
    have hget := v.disk.elements.mem_entries.1 hkv
    have hvalid := hsim.valid k
    have hsettled := hset rfl k
    rw [hget] at hvalid hsettled
    simp only
    rw [glue_of_settled hvalid hsettled]
    rfl
  refine ⟨_, hall hcall _ hglue, fun k x => ?_⟩
  rw [hsim.carrier k, List.mem_append, List.mem_filterMap, List.mem_map]
  constructor
  · rintro (⟨⟨k', y⟩, hmem, hy⟩ | ⟨⟨k', record⟩, hmem, hr⟩)
    · obtain ⟨⟨k'', held⟩, hkv, heq⟩ := List.mem_map.1 hmem
      obtain ⟨x', hy', hx⟩ := Option.map_eq_some_iff.1 hy
      obtain ⟨rfl, hc⟩ := Prod.mk.inj heq
      obtain ⟨rfl, rfl⟩ := Prod.mk.inj hx
      rw [v.disk.elements.mem_entries.1 hkv]
      exact hc.trans hy'
    · cases hr
      obtain ⟨hkv, hnone⟩ := List.mem_filter.1 hmem
      rw [Option.isNone_iff_eq_none.1 hnone, v.disk.removals.mem_entries.1 hkv]
      rfl
  · intro hx
    rcases he : v.disk.elements.get? k with _ | held
    · rw [he] at hx
      rcases hr : v.disk.removals.get? k with _ | record
      · rw [hr] at hx
        cases hx
      · rw [hr] at hx
        cases hx
        refine Or.inr ⟨(k, record), List.mem_filter.2 ⟨v.disk.removals.mem_entries.2 hr, ?_⟩, rfl⟩
        simp [he]
    · rw [he] at hx
      refine Or.inl ⟨(k, carrierOf codec (some held) (v.disk.removals.get? k)), ?_, ?_⟩
      · exact List.mem_map.2 ⟨(k, held), v.disk.elements.mem_entries.2 he, rfl⟩
      · rw [hx]
        rfl

lemma Holds.reads (h : Holds codec w A) (faults : Faults) {α : Type} {m : StoreM Key α}
    (hm : ∀ v, outcome (ensureRecovered codec) (under w faults) = (.ok (), v) →
      (outcome m (under w faults)).2.disk = v.disk)
    (hm' : ∀ e v, outcome (ensureRecovered codec) (under w faults) = (.error e, v) →
      outcome m (under w faults) = (.error e, v)) :
    Sim codec (outcome m (under w faults)).2.disk A ∧
      (Clean faults.recovery → SettledDisk codec (outcome m (under w faults)).2.disk) := by
  obtain ⟨r, v, hout, hsim, -, hset, hclean, -⟩ := h.sim.ensureRecovered h.settled faults
  rcases r with e | _
  · rw [hm' e v hout]
    exact ⟨hsim, fun hf => absurd (hclean hf) (by simp)⟩
  · rw [hm v hout]
    exact ⟨hsim, fun _ => hset rfl⟩

lemma Holds.put (h : Holds codec w A) (faults : Faults) (introducer : Principal)
    (hv : Storable codec value nowMs)
    (hdid : faults.call.take 3 = [false, false, true] → ∀ held,
      w.disk.elements.get? key = some held →
        value.crdt.tombstones = [] ∧ value.crdt.register = none ∨ held.did = value.did) :
    (∃ B, Sim codec (outcome (put codec key value introducer nowMs) (under w faults)).2.disk B ∧
      Torn codec key (some value) A B) ∧
    (faults = .none → ∃ B,
      Sim codec (outcome (put codec key value introducer nowMs) (under w faults)).2.disk B ∧
      SettledDisk codec (outcome (put codec key value introducer nowMs) (under w faults)).2.disk ∧
      Answered key value A B
        (outcome (put codec key value introducer nowMs) (under w faults)).1) := by
  obtain ⟨r, v, hout, hsim, hcall, hset, hclean, hsame⟩ := h.sim.ensureRecovered h.settled faults
  rcases r with e | _
  · have hput : outcome (CarrierStore.put codec key value introducer nowMs) (under w faults) =
        (.error e, v) := by
      rw [CarrierStore.put, outcome_bind_of_error hout]
    rw [hput]
    refine ⟨⟨A, hsim, hsim.torn_refl key _⟩, ?_⟩
    rintro rfl
    exact absurd (hclean fun _ hf => by cases hf) (by simp)
  · have hput : PutFrom key value introducer nowMs v.disk v.index v.faults.call _ _ _ :=
      put_outcome hout
    rw [hcall] at hput
    have hdid' : faults.call.take 3 = [false, false, true] → ∀ held,
        v.disk.elements.get? key = some held →
          value.crdt.tombstones = [] ∧ value.crdt.register = none ∨ held.did = value.did := by
      intro hcut held he
      obtain ⟨held', he', hd⟩ := hsame key held he
      exact (hdid hcut held' he').imp_right fun h => hd.symm.trans h
    obtain ⟨htorn, hdone⟩ := hput.refines hsim (hset rfl) hv hdid'
    exact ⟨htorn, fun hf => hdone (by rw [hf]; rfl)⟩

lemma Holds.remove (h : Holds codec w A) (faults : Faults) (key : Key) :
    (∃ B, Sim codec (outcome (remove codec key) (under w faults)).2.disk B ∧
      Torn codec key none A B) ∧
    (faults = .none → ∃ B, Sim codec (outcome (remove codec key) (under w faults)).2.disk B ∧
      SettledDisk codec (outcome (remove codec key) (under w faults)).2.disk ∧
      B.carrier = Function.update A.carrier key none ∧
        B.legacy = Function.update A.legacy key false) := by
  obtain ⟨r, v, hout, hsim, hcall, hset, hclean, -⟩ := h.sim.ensureRecovered h.settled faults
  rcases r with e | _
  · have hremove : outcome (CarrierStore.remove codec key) (under w faults) = (.error e, v) := by
      rw [CarrierStore.remove, outcome_bind_of_error hout]
    rw [hremove]
    refine ⟨⟨A, hsim, hsim.torn_refl key _⟩, ?_⟩
    rintro rfl
    exact absurd (hclean fun _ hf => by cases hf) (by simp)
  · have hremove : RemoveFrom key v.disk v.index v.faults.call _ _ _ := remove_outcome hout
    rw [hcall] at hremove
    obtain ⟨htorn, hdone⟩ := hremove.refines hsim (hset rfl)
    exact ⟨htorn, fun hf => hdone (by rw [hf]; rfl)⟩

/-- An eviction leaves the remove side, or nothing of a carrier from before the factoring. -/
lemma Holds.evict (h : Holds codec w A) (key : Key) :
    ∃ B, AbsStep codec w A B (.evict key) ∧ Holds codec (step codec w (.evict key)) B := by
  refine ⟨_, ?_, ⟨h.sim.drop key (A.legacy key), fun hrec => (h.settled hrec).drop key⟩⟩
  refine ⟨fun k hk => Function.update_of_ne hk _ _, Function.update_eq_self _ _, ?_⟩
  simp only [Function.update_self]
  rcases hr : w.disk.removals.get? key with _ | record
  · rcases he : w.disk.elements.get? key with _ | held
    · left
      rw [h.sim.carrier key, he, hr]
      rfl
    · rcases hw : isWhole held with _ | _
      · left
        rw [h.sim.carrier key, he, hr]
        simp only [isWhole, Bool.or_eq_false_iff, Bool.not_eq_false', List.isEmpty_iff,
          Option.isSome_eq_false_iff, Option.isNone_iff_eq_none] at hw
        simp [carrierOf, sideAlone, hw.1, hw.2]
      · exact Or.inr ⟨h.sim.legacy key held he hw hr, rfl⟩
  · left
    rw [h.sim.carrier key, hr, sideAlone_carrierOf (hr ▸ h.sim.valid key)]
    rfl

lemma Holds.step (h : Holds codec w A) (event : StoreEvent Key) (hwell : WellFormed codec event)
    (hcond : SameResource w event) :
    ∃ B, AbsStep codec w A B event ∧ Holds codec (step codec w event) B := by
  have hnone : Clean Faults.none.recovery := fun _ hf => by cases hf
  have hread : ∀ c, (∀ faults, Sim codec (outcome (perform codec c) (under w faults)).2.disk A ∧
      (Clean faults.recovery →
        SettledDisk codec (outcome (perform codec c) (under w faults)).2.disk)) →
      (∀ faults, Holds codec (CarrierStore.step codec w (.crash c faults)) A) ∧
        Holds codec (CarrierStore.step codec w (.call c)) A := fun c hc =>
    ⟨fun faults => ⟨(hc faults).1, fun hf => by cases hf⟩, (hc .none).1, fun _ => (hc .none).2 hnone⟩
  have hget : ∀ key faults, Sim codec (outcome (perform codec (.get key)) (under w faults)).2.disk A ∧
      (Clean faults.recovery →
        SettledDisk codec (outcome (perform codec (.get key)) (under w faults)).2.disk) := by
    intro key faults
    rw [perform, outcome_discard]
    exact h.reads faults (fun v hv => (@get_outcome codec Key _ _ key _ hv).1) fun e v hv => by
      rw [CarrierStore.get, outcome_bind_of_error hv]
  have hall : ∀ faults, Sim codec (outcome (perform codec .getAll) (under w faults)).2.disk A ∧
      (Clean faults.recovery →
        SettledDisk codec (outcome (perform codec .getAll) (under w faults)).2.disk) := by
    intro faults
    rw [perform, outcome_discard]
    exact h.reads faults (fun v hv => (getAll_outcome hv).1) fun e v hv => by
      rw [CarrierStore.getAll, outcome_bind_of_error hv]
  cases event with
  | call c =>
    cases c with
    | put key value introducer nowMs =>
      obtain ⟨B, hsim, hset, hans⟩ := (h.put .none introducer hwell fun hcut => by cases hcut).2 rfl
      exact ⟨B, hans, hsim, fun _ => hset⟩
    | remove key =>
      obtain ⟨B, hsim, hset, hans⟩ := (h.remove .none key).2 rfl
      exact ⟨B, hans, hsim, fun _ => hset⟩
    | get key => exact ⟨A, rfl, (hread _ (hget key)).2⟩
    | getAll => exact ⟨A, rfl, (hread _ hall).2⟩
  | crash c faults =>
    cases c with
    | put key value introducer nowMs =>
      obtain ⟨B, hsim, htorn⟩ := (h.put faults introducer hwell hcond).1
      exact ⟨B, htorn, hsim, fun hrec => by cases hrec⟩
    | remove key =>
      obtain ⟨B, hsim, htorn⟩ := (h.remove faults key).1
      exact ⟨B, htorn, hsim, fun hrec => by cases hrec⟩
    | get key => exact ⟨A, rfl, (hread _ (hget key)).1 faults⟩
    | getAll => exact ⟨A, rfl, (hread _ hall).1 faults⟩
  | evict key => exact h.evict key

def wholeOf (d : Disk Key) : WholeStore Key :=
  ⟨fun k => d.elements.get? k, fun k => (d.elements.get? k).isSome⟩

lemma LegacyDisk.holds (h : LegacyDisk codec d) : Holds codec ⟨d, .new, .none⟩ (wholeOf d) := by
  have hnone : ∀ k, d.removals.get? k = none := fun k => by
    rw [h.removals]
    rfl
  refine ⟨⟨fun k => ⟨fun held he => ?_, fun record hr => ?_, fun held record he hr => ?_⟩,
    fun k => ?_, fun k held he _ _ => ?_⟩, fun hrec => by cases hrec⟩
  · exact ⟨(h.elements k held he).1.canonical, (h.elements k held he).2⟩
  · exact absurd ((hnone k).symm.trans hr) (by simp)
  · exact absurd ((hnone k).symm.trans hr) (by simp)
  · simp only [hnone k]
    rfl
  · simp [wholeOf, he]

lemma Holds.run (events : List (StoreEvent Key)) :
    ∀ {w : Stores Key} {A : WholeStore Key}, Holds codec w A →
      Meets codec SameResource w events →
      ∃ B, AbsRun codec w A events B ∧ Holds codec (run codec w events) B := by
  induction events with
  | nil => exact fun h _ => ⟨_, rfl, h⟩
  | cons event events ih =>
    intro w A h hmeets
    obtain ⟨hwell, hcond, hrest⟩ := hmeets
    obtain ⟨B, hstep, hB⟩ := h.step event hwell hcond
    obtain ⟨C, hrun, hC⟩ := ih hB hrest
    exact ⟨C, ⟨B, hstep, hrun⟩, hC⟩

/-- Along every run in which no put is cut between writing a remove side over the elements of
another resource and writing its own, each read and each listing answers the carriers of a store
of whole carriers that makes the same puts and removals: the last value put; after an eviction
its remove side alone; after a crash what a torn write may leave. -/
theorem factored_refines_whole (codec : Codec) (d : Disk Key) (legacy : LegacyDisk codec d)
    (events : List (StoreEvent Key)) (met : Meets codec SameResource ⟨d, .new, .none⟩ events) :
    ∃ A, AbsRun codec ⟨d, .new, .none⟩ (wholeOf d) events A ∧
      (∀ key, (outcome (get codec key) (under (run codec ⟨d, .new, .none⟩ events) .none)).1 =
        .ok (A.carrier key)) ∧
      ∃ l, (outcome (getAll codec) (under (run codec ⟨d, .new, .none⟩ events) .none)).1 = .ok l ∧
        ∀ key x, (key, x) ∈ l ↔ A.carrier key = some x := by
  obtain ⟨A, hrun, hA⟩ := legacy.holds.run events met
  exact ⟨A, hrun, hA.get, hA.getAll⟩

/-- A reset of one resource, and one of another that is live once the first has expired. -/
def placedReset (did : Did) (stampMs expiresAtMs : ℕ) : Entry :=
  ⟨did, [], .data, ⟨some ⟨stampMs, 0, 1, 2⟩, [], []⟩, some expiresAtMs⟩

def noStores : Stores ℕ := ⟨⟨.empty, .empty⟩, .new, .none⟩

/-- A reset put twice under one key, the second time cut between its two writes. -/
def sameResets : List (StoreEvent ℕ) :=
  [.call (.put 0 (placedReset 7 5 9) .localNode 5),
    .crash (.put 0 (placedReset 7 6 9) .localNode 6) ⟨[], [false, false, true]⟩]

/-- The second reset is cut over an element side of its own resource: it reads back. -/
theorem factored_refines_whole_torn : Meets plainCodec SameResource noStores sameResets ∧
    ∃ A, AbsRun plainCodec noStores (wholeOf noStores.disk) sameResets A ∧
      (∀ key, (outcome (get plainCodec key) (under (run plainCodec noStores sameResets) .none)).1 =
        .ok (A.carrier key)) ∧
      ∃ l, (outcome (getAll plainCodec)
          (under (run plainCodec noStores sameResets) .none)).1 = .ok l ∧
        ∀ key x, (key, x) ∈ l ↔ A.carrier key = some x := by
  have hfirst : Storable plainCodec (placedReset 7 5 9) 5 := ⟨by decide +kernel, rfl, rfl⟩
  have hsecond : Storable plainCodec (placedReset 7 6 9) 6 := ⟨by decide +kernel, rfl, rfl⟩
  have hmeets : Meets plainCodec SameResource noStores sameResets := by
    refine ⟨hfirst, trivial, hsecond, fun _ held he => Or.inr ?_, trivial⟩
    obtain rfl : elementSide (placedReset 7 5 9) = held := Option.some.inj he
    rfl
  exact ⟨hmeets, factored_refines_whole plainCodec noStores.disk ⟨rfl, fun _ _ he => by cases he⟩
    sameResets hmeets⟩

/-- Resets of two resources put under one key, the second cut between its two writes. -/
def crossedResets : List (StoreEvent ℕ) :=
  [.call (.put 0 (placedReset 7 5 9) .localNode 5),
    .crash (.put 0 (placedReset 8 20 29) .localNode 20) ⟨[], [false, false, true]⟩]

/-- The crash leaves the element side of one resource under the remove side of another, and every
later read fails. -/
theorem crossed_resets_unreadable :
    Meets plainCodec (fun _ _ => True) noStores crossedResets ∧
      ∀ key, (outcome (get plainCodec key)
          (under (run plainCodec noStores crossedResets) .none)).1 =
        .error (.entry .entryDidNotEqual) := by
  have hfirst : Storable plainCodec (placedReset 7 5 9) 5 := ⟨by decide +kernel, rfl, rfl⟩
  have hsecond : Storable plainCodec (placedReset 8 20 29) 20 := ⟨by decide +kernel, rfl, rfl⟩
  refine ⟨⟨hfirst, trivial, hsecond, trivial, trivial⟩, fun key => ?_⟩
  have hrecover : (outcome (ensureRecovered plainCodec)
      (under (run plainCodec noStores crossedResets) .none)).1 =
        .error (.entry .entryDidNotEqual) := rfl
  rw [CarrierStore.get, outcome_bind_of_error (Prod.ext hrecover rfl)]

end CarrierStore

end Rings
