import Rings.Entry

/-!
Retention and admission of entries.

A data carrier retires an add at `τ + H` and a remove or the register at `τ + H + σ`; past its
retention bound it serves no element, and it stays live while a remove or the register it holds
is not yet stable. A relay inbox retires its elements by their hold instants instead.
-/

namespace Rings

structure ElementRetention where
  addHorizonMs : ℕ
  removeHorizonMs : ℕ

namespace ElementRetention

/-- The law of `kind`, when it has an element horizon. -/
def of (kind : EntryKind) : Option ElementRetention := do
  let horizonMs ← kind.elementHorizonMs
  return ⟨horizonMs, saturatingAdd u128Max horizonMs tsOffsetToleranceMs⟩

def retiresAdd (r : ElementRetention) (nowMs : ℕ) (dot : EntryDot) : Bool :=
  saturatingAdd u128Max dot.version.logicalTimeMs r.addHorizonMs ≤ nowMs

/-- When a remove or a register at `version` becomes stable. -/
def stableAt (r : ElementRetention) (version : EntryVersion) : ℕ :=
  saturatingAdd u128Max version.logicalTimeMs r.removeHorizonMs

def retiresRemove (r : ElementRetention) (nowMs : ℕ) (version : EntryVersion) : Bool :=
  r.stableAt version ≤ nowMs

end ElementRetention

namespace Entry

def boundLiveAt (e : Entry) (nowMs : ℕ) : Bool := e.expiresAtMs.any (nowMs < ·)

/-- When every remove and the register are stable, if there is one. -/
def removesStableUnder (e : Entry) (r : ElementRetention) : Option ℕ :=
  ((e.crdt.tombstones.map (fun t => t.dot.version) ++ e.crdt.register.toList).map r.stableAt).max?

def isLiveUnder (e : Entry) (retention : Option ElementRetention) (nowMs : ℕ) : Bool :=
  e.expiresAtMs.isSome &&
    (e.boundLiveAt nowMs || (retention.bind e.removesStableUnder).any (nowMs < ·))

def isLiveAt (e : Entry) (nowMs : ℕ) : Bool := e.isLiveUnder (ElementRetention.of e.kind) nowMs

def withoutElements (e : Entry) : Entry := { e with data := [], crdt := { e.crdt with dots := [] } }

/-- The elements `keep` keeps, each with its dot. -/
def filterElements (e : Entry) (keep : Bytes × EntryDot → Bool) : Entry :=
  let kept := e.elements.filter keep
  { e with data := (kept.unzip).1, crdt := { e.crdt with dots := (kept.unzip).2 } }

/-- `retire_t`: adds past `τ + H`, removes and the register past `τ + H + σ` dropped. -/
def horizonRetiredUnder (e : Entry) (r : ElementRetention) (nowMs : ℕ) : Entry :=
  let crossed := e.crdt.dots.any (r.retiresAdd nowMs) ||
    e.crdt.tombstones.any (fun t => r.retiresRemove nowMs t.dot.version) ||
    e.crdt.register.any (r.retiresRemove nowMs)
  if !crossed then e
  else
    let kept := e.filterElements fun p => !r.retiresAdd nowMs p.2
    { kept with
      crdt :=
        { kept.crdt with
          register := e.crdt.register.filter fun v => !r.retiresRemove nowMs v
          tombstones := e.crdt.tombstones.filter fun t => !r.retiresRemove nowMs t.dot.version } }

/-- `retire_t`, and no elements once the retention bound has elapsed. -/
def retiredUnder (e : Entry) (retention : Option ElementRetention) (nowMs : ℕ) : Entry :=
  match retention with
  | none => e
  | some r =>
    let entry := e.horizonRetiredUnder r nowMs
    if !e.boundLiveAt nowMs && !entry.data.isEmpty then entry.withoutElements else entry

variable (codec : Codec)

/-- Whether an element is a held message past the hold horizon. -/
def holdRetired (nowMs : ℕ) (element : Bytes) : Bool :=
  (codec.heldAtMs element).any fun heldAt => saturatingAdd u128Max heldAt maxRelayInboxTtlMs ≤ nowMs

/-- The held messages past the hold horizon dropped. -/
def holdsRetiredAt (e : Entry) (nowMs : ℕ) : Entry :=
  if !e.data.any (holdRetired codec nowMs) then e
  else e.filterElements fun p => !holdRetired codec nowMs p.1

def retiredAt (e : Entry) (nowMs : ℕ) : Entry :=
  let entry := e.retiredUnder (ElementRetention.of e.kind) nowMs
  match entry.kind with
  | .data => entry
  | .relayMessage => entry.holdsRetiredAt codec nowMs

def liveAt (e : Entry) (nowMs : ℕ) : Option Entry :=
  let projected := e.retiredAt codec nowMs
  if projected.isLiveAt nowMs then some projected else none

def checkTombstoneBound (e : Entry) : Except EntryError Unit :=
  let count := e.crdt.tombstones.length
  match e.kind.tombstoneBound with
  | .refuse bound =>
    if count > bound then .error (.entryTombstonesExceedMax count bound) else .ok ()
  | .truncate _ => .ok ()

def validateBoundsAt (e : Entry) (nowMs : ℕ) : Except EntryError Unit := do
  if !e.isLiveAt nowMs then throw .entryNotLive
  let lifetimeBound :=
    saturatingAdd u128Max (saturatingAdd u128Max nowMs e.kind.maxLifetimeMs) tsOffsetToleranceMs
  if e.expiresAtMs.any (lifetimeBound < ·) then throw .entryLifetimeExceedsMax
  let clockBound := saturatingAdd u128Max nowMs tsOffsetToleranceMs
  if e.versions.any (clockBound < ·.logicalTimeMs) then throw .entryVersionAheadOfClock
  if !e.data.all (·.length ≤ entryPayloadMaxBytes) then throw .entryPayloadExceedsMax
  e.checkTombstoneBound

/-! ### What the projection keeps -/

variable {codec} {e : Entry} {nowMs : ℕ}

/-- Every element has its dot. -/
def Aligned (e : Entry) : Prop := e.data.length = e.crdt.dots.length

lemma elements_filterElements (keep : Bytes × EntryDot → Bool) :
    (e.filterElements keep).elements = e.elements.filter keep := by
  simp only [filterElements, elements, List.zip_unzip]

lemma aligned_filterElements (keep : Bytes × EntryDot → Bool) :
    (e.filterElements keep).Aligned := by
  simp [Aligned, filterElements]

lemma mem_dots_of_mem_elements {p : Bytes × EntryDot} (h : p ∈ e.elements) : p.2 ∈ e.crdt.dots :=
  (List.of_mem_zip h).2

section Horizon

variable {r : ElementRetention}

/-- `retire_t` is a filter of the elements, the removes and the register. -/
lemma horizonRetired_spec (r : ElementRetention) (nowMs : ℕ) (h : e.Aligned) :
    (e.horizonRetiredUnder r nowMs).Aligned ∧
    (e.horizonRetiredUnder r nowMs).elements =
      e.elements.filter (fun p => !r.retiresAdd nowMs p.2) ∧
    (e.horizonRetiredUnder r nowMs).crdt.tombstones =
      e.crdt.tombstones.filter (fun t => !r.retiresRemove nowMs t.dot.version) ∧
    (e.horizonRetiredUnder r nowMs).crdt.register =
      e.crdt.register.filter (fun v => !r.retiresRemove nowMs v) := by
  rw [horizonRetiredUnder]
  split
  · rename_i hc
    simp only [Bool.not_eq_true', Bool.or_eq_false_iff, List.any_eq_false] at hc
    obtain ⟨⟨hdots, htombs⟩, hreg⟩ := hc
    refine ⟨h, ?_, ?_, ?_⟩
    · rw [eq_comm, List.filter_eq_self]
      intro p hp
      simpa using hdots p.2 (mem_dots_of_mem_elements hp)
    · rw [eq_comm, List.filter_eq_self]
      intro t ht
      simpa using htombs t ht
    · cases hr : e.crdt.register with
      | none => rfl
      | some v =>
        rw [hr] at hreg
        simp only [Option.any_some] at hreg
        simp [Option.filter_some, hreg]
  · exact ⟨aligned_filterElements _, elements_filterElements _, rfl, rfl⟩

@[simp] lemma horizonRetired_kind : (e.horizonRetiredUnder r nowMs).kind = e.kind := by
  rw [horizonRetiredUnder]
  split <;> rfl

@[simp] lemma horizonRetired_expiresAtMs :
    (e.horizonRetiredUnder r nowMs).expiresAtMs = e.expiresAtMs := by
  rw [horizonRetiredUnder]
  split <;> rfl

end Horizon

/-- The law of a data topic. -/
def dataRetention : ElementRetention :=
  ⟨maxTtlMs, saturatingAdd u128Max maxTtlMs tsOffsetToleranceMs⟩

lemma retention_data : ElementRetention.of .data = some dataRetention := rfl

lemma retiredUnder_kind (o : Option ElementRetention) : (e.retiredUnder o nowMs).kind = e.kind := by
  cases o with
  | none => rfl
  | some r =>
    rw [retiredUnder]
    split
    · exact horizonRetired_kind
    · exact horizonRetired_kind

lemma retiredAt_data (h : e.kind = .data) :
    e.retiredAt codec nowMs = e.retiredUnder (some dataRetention) nowMs := by
  rw [retiredAt]
  rw [retiredUnder_kind, h, retention_data]

/-- The projection of a data entry drops elements, removes and the register, and adds nothing. -/
structure Projected (e e' : Entry) (nowMs : ℕ) : Prop where
  kind : e'.kind = e.kind
  expires : e'.expiresAtMs = e.expiresAtMs
  aligned : e'.Aligned
  elements : ∀ p ∈ e'.elements, p ∈ e.elements ∧ dataRetention.retiresAdd nowMs p.2 = false
  tombstones : ∀ t, t ∈ e'.crdt.tombstones ↔
    t ∈ e.crdt.tombstones ∧ dataRetention.retiresRemove nowMs t.dot.version = false
  register : ∀ v, e'.crdt.register = some v ↔
    e.crdt.register = some v ∧ dataRetention.retiresRemove nowMs v = false

lemma projected_retiredAt (codec : Codec) (nowMs : ℕ) (hk : e.kind = .data) (ha : e.Aligned) :
    Projected e (e.retiredAt codec nowMs) nowMs := by
  obtain ⟨ha', he, ht, hr⟩ := horizonRetired_spec dataRetention nowMs ha
  have htombs : ∀ t, t ∈ (e.horizonRetiredUnder dataRetention nowMs).crdt.tombstones ↔
      t ∈ e.crdt.tombstones ∧ dataRetention.retiresRemove nowMs t.dot.version = false := by
    simp [ht]
  have hreg : ∀ v, (e.horizonRetiredUnder dataRetention nowMs).crdt.register = some v ↔
      e.crdt.register = some v ∧ dataRetention.retiresRemove nowMs v = false := by
    simp [hr, Option.filter_eq_some_iff]
  rw [retiredAt_data hk, retiredUnder]
  split
  · exact ⟨horizonRetired_kind, horizonRetired_expiresAtMs, rfl, (fun p hp => by cases hp),
      htombs, hreg⟩
  · refine ⟨horizonRetired_kind, horizonRetired_expiresAtMs, ha', fun p hp => ?_, htombs, hreg⟩
    rw [he, List.mem_filter] at hp
    exact ⟨hp.1, by simpa using hp.2⟩

lemma liveAt_eq_some {e' : Entry} : e.liveAt codec nowMs = some e' ↔
    e' = e.retiredAt codec nowMs ∧ (e.retiredAt codec nowMs).isLiveAt nowMs = true := by
  rw [liveAt]
  split
  · rename_i h
    simp [h, eq_comm]
  · rename_i h
    simp [h]

/-- A data entry with a bound is live while a remove or the register it holds is not stable. -/
lemma isLiveAt_of_unstable (hk : e.kind = .data) (hx : e.expiresAtMs.isSome)
    {v : EntryVersion}
    (hv : (∃ t ∈ e.crdt.tombstones, t.dot.version = v) ∨ e.crdt.register = some v)
    (h : dataRetention.retiresRemove nowMs v = false) : e.isLiveAt nowMs = true := by
  rw [isLiveAt, isLiveUnder, hx, hk, retention_data, Bool.true_and, Bool.or_eq_true]
  right
  have hmem : dataRetention.stableAt v ∈ (e.crdt.tombstones.map (fun t => t.dot.version) ++
      e.crdt.register.toList).map dataRetention.stableAt := by
    refine List.mem_map_of_mem (List.mem_append.2 ?_)
    rcases hv with ⟨t, ht, rfl⟩ | hv
    · exact Or.inl (List.mem_map_of_mem ht)
    · exact Or.inr (by simp [hv])
  obtain ⟨m, hm⟩ : ∃ m, e.removesStableUnder dataRetention = some m := by
    rw [← Option.isSome_iff_exists, removesStableUnder, List.isSome_max?_iff]
    exact List.ne_nil_of_mem hmem
  have hle : dataRetention.stableAt v ≤ m := (List.max?_eq_some_iff.1 hm).2 _ hmem
  simp only [ElementRetention.retiresRemove, decide_eq_false_iff_not, not_le] at h
  simp only [Option.bind_some, hm, Option.any_some, decide_eq_true_eq]
  omega

end Entry

end Rings
