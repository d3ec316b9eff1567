import Rings.Entry

/-!
The issue law of one node's hybrid logical clock.

A node stamps its operations in order. Each call reads the greatest version at the key, caps
the greater of that and its last stamp at the call's ceiling, and issues strictly after the
result. Capping lowers the millisecond alone, so a version read above the ceiling can land
below the last stamp; the order of the issued versions holds along every run in which that
does not happen.
-/

namespace Rings

/-- One call of `stamp_operation`, with what it reads of the fetch cache and the replica. -/
structure StampCall where
  op : EntryOperation
  nowMs : ℕ
  cached : Except EntryError (Option Entry)
  replica : Except EntryError (Option Entry)

def observedVersion (call : StampCall) : Except EntryError (Option EntryVersion) := do
  let cached ← match call.op.entry.kind with
    | .data => return (← call.cached).bind Entry.maxObservedVersion
    | .relayMessage => pure none
  let replica := (← call.replica).bind Entry.maxObservedVersion
  return max cached replica

def stampCeiling (nowMs : ℕ) : ℕ := saturatingAdd u128Max nowMs tsOffsetToleranceMs - 1

/-- `cap`: the millisecond lowered to the ceiling. -/
def capAt (ceiling : ℕ) (v : EntryVersion) : EntryVersion :=
  { v with logicalTimeMs := min v.logicalTimeMs ceiling }

def stampOperation (codec : Codec) (node : Did) (last : Option EntryVersion) (call : StampCall) :
    Except EntryError (EntryOperation × Option EntryVersion) := do
  let observed ← observedVersion call
  let ceiling := stampCeiling call.nowMs
  let floor := (max last observed).map (capAt ceiling)
  let stamped ← call.op.stampedAfter codec call.nowMs node floor
  return (stamped, max floor (stamped.entry.maxObservedVersion.map (capAt ceiling)))

def issuedVersions (op stamped : EntryOperation) : List EntryVersion :=
  if op.stampKind.isNone || op.entry.crdt.hasWriteWitness then []
  else stamped.entry.crdt.dots.map EntryDot.version ++ stamped.entry.crdt.register.toList

/-- What one call of a run did: the versions it issued, and `last_stamped` around it. -/
structure StampRecord where
  nowMs : ℕ
  issued : List EntryVersion
  before : Option EntryVersion
  after : Option EntryVersion

variable (codec : Codec) (node : Did)

/-- One call of a run; a refused call issues nothing and leaves `last_stamped` alone. -/
def stampStep (last : Option EntryVersion) (call : StampCall) : StampRecord :=
  match stampOperation codec node last call with
  | .error _ => ⟨call.nowMs, [], last, last⟩
  | .ok (stamped, next) => ⟨call.nowMs, issuedVersions call.op stamped, last, next⟩

def stampRun (last : Option EntryVersion) : List StampCall → List StampRecord
  | [] => []
  | call :: calls =>
    stampStep codec node last call :: stampRun (stampStep codec node last call).after calls

/-- The issue law over a run: issued versions ascend past every earlier one at or below the
ceiling of the call, stay at or below it themselves, and `last_stamped` at or below it never
decreases. -/
structure IssueOrder (records : List StampRecord) : Prop where
  ascends : records.Pairwise fun earlier later => ∀ u ∈ earlier.issued, ∀ v ∈ later.issued,
    u.logicalTimeMs ≤ later.nowMs + tsOffsetToleranceMs - 1 → u < v
  bounded : ∀ r ∈ records, ∀ v ∈ r.issued, v.logicalTimeMs ≤ r.nowMs + tsOffsetToleranceMs - 1
  kept : ∀ r ∈ records, ∀ l, r.before = some l →
    l.logicalTimeMs ≤ r.nowMs + tsOffsetToleranceMs - 1 → ∃ l', r.after = some l' ∧ l ≤ l'

/-! ### What a stamp does -/

lemma stampCeiling_le (nowMs : ℕ) : stampCeiling nowMs ≤ nowMs + tsOffsetToleranceMs - 1 := by
  simp only [stampCeiling, saturatingAdd]
  omega

lemma le_stampCeiling {nowMs : ℕ} (h : nowMs < u128Max) : nowMs ≤ stampCeiling nowMs := by
  simp only [stampCeiling, saturatingAdd, tsOffsetToleranceMs]
  omega

@[simp] lemma capAt_logicalTimeMs (c : ℕ) (v : EntryVersion) :
    (capAt c v).logicalTimeMs = min v.logicalTimeMs c := rfl

@[simp] lemma capAt_rank (c : ℕ) (v : EntryVersion) : (capAt c v).rank = v.rank := rfl

lemma capAt_eq_self {c : ℕ} {v : EntryVersion} (h : v.logicalTimeMs ≤ c) : capAt c v = v := by
  rw [capAt, min_eq_left h]

lemma withElementDots_ok {e e' : Entry} {v : EntryVersion} (h : e.withElementDots v = .ok e') :
    (∀ d ∈ e'.crdt.dots, d.version = v) ∧ e'.crdt.register = e.crdt.register ∧
      e'.crdt.tombstones = e.crdt.tombstones := by
  obtain ⟨dots, hdots, h⟩ := bind_eq_ok.1 h
  cases h
  refine ⟨fun d hd => ?_, rfl, rfl⟩
  obtain ⟨p, -, hp⟩ := exists_of_mem_mapM hdots hd
  simp only [EntryDot.forIndex] at hp
  split at hp
  · cases hp
    rfl
  · cases hp

lemma withElementDots_of_nil {e e' : Entry} {v : EntryVersion}
    (h : e.withElementDots v = .ok e') (hd : e.data = []) : e'.crdt.dots = [] := by
  rw [Entry.withElementDots, hd] at h
  cases h
  rfl

lemma stamp_ok {e e' : Entry} {v : EntryVersion} {kind : EntryStampKind}
    (h : e.stamp v kind = .ok e') :
    (∀ d ∈ e'.crdt.dots, d.version = v) ∧ e'.crdt.tombstones = e.crdt.tombstones ∧
      (e'.crdt.register = e.crdt.register ∨ e'.crdt.register = some v) := by
  cases kind with
  | overwrite =>
    obtain ⟨hd, hr, ht⟩ := withElementDots_ok h
    exact ⟨hd, ht, Or.inr hr⟩
  | delta =>
    obtain ⟨hd, hr, ht⟩ := withElementDots_ok h
    exact ⟨hd, ht, Or.inl hr⟩

@[simp] lemma ensureLifetimeFrom_crdt (e : Entry) (nowMs : ℕ) :
    (e.ensureLifetimeFrom nowMs).crdt = e.crdt := by
  rw [Entry.ensureLifetimeFrom]
  split <;> rfl

@[simp] lemma ensureLifetimeFrom_operationDigest (e : Entry) (nowMs : ℕ) :
    (e.ensureLifetimeFrom nowMs).operationDigest codec = e.operationDigest codec := by
  rw [Entry.ensureLifetimeFrom]
  split <;> rfl

lemma stampedAfter_entry {op stamped : EntryOperation} {nowMs : ℕ} {floor : Option EntryVersion}
    {kind : EntryStampKind} (h : op.stampedAfter codec nowMs node floor = .ok stamped)
    (hk : op.stampKind = some kind) :
    (op.entry.ensureLifetimeFrom nowMs).ensureStampAfter codec nowMs node floor kind =
      .ok stamped.entry := by
  cases op with
  | overwrite e =>
    obtain ⟨e', he', h⟩ := bind_eq_ok.1 h
    cases h
    cases hk
    exact he'
  | extend e =>
    obtain ⟨e', he', h⟩ := bind_eq_ok.1 h
    cases h
    cases hk
    exact he'
  | tombstone e => cases hk

lemma versions_of_no_witness {e : Entry} (h : e.crdt.hasWriteWitness = false) :
    e.crdt.dots = [] ∧ e.crdt.register = none := by
  simp only [EntryCrdt.hasWriteWitness, Bool.or_eq_false_iff, Bool.not_eq_false'] at h
  exact ⟨List.isEmpty_iff.1 h.2, by simpa using h.1⟩

/-- A call issues at most one version, and the stamped entry carries nothing else new. -/
lemma issued_cases {op stamped : EntryOperation} {nowMs : ℕ} {floor : Option EntryVersion}
    (h : op.stampedAfter codec nowMs node floor = .ok stamped)
    (hne : issuedVersions op stamped ≠ []) :
    ∃ d v, op.entry.operationDigest codec = .ok d ∧
      (EntryVersion.new nowMs node d).after floor = .ok v ∧
      (∀ u ∈ issuedVersions op stamped, u = v) ∧
      (∀ u ∈ stamped.entry.versions, u = v ∨ u ∈ op.entry.versions) ∧
      ∀ u ∈ op.entry.versions, u ∈ stamped.entry.versions := by
  rw [issuedVersions] at hne ⊢
  split at hne
  · exact absurd rfl hne
  rename_i hcond
  rw [if_neg hcond]
  simp only [Bool.or_eq_true, not_or, Bool.not_eq_true, Option.isNone_eq_false_iff] at hcond
  obtain ⟨kind, hk⟩ := Option.isSome_iff_exists.1 hcond.1
  obtain ⟨hdots, hreg⟩ := versions_of_no_witness hcond.2
  have he := stampedAfter_entry codec node h hk
  rw [Entry.ensureStampAfter, ensureLifetimeFrom_crdt, hcond.2] at he
  obtain ⟨v, hv, he⟩ := bind_eq_ok.1 he
  obtain ⟨d, hd, hv⟩ := bind_eq_ok.1 hv
  rw [ensureLifetimeFrom_operationDigest] at hd
  obtain ⟨hd', ht, hr⟩ := stamp_ok he
  rw [ensureLifetimeFrom_crdt] at ht hr
  rw [hreg] at hr
  have hreg' : ∀ u ∈ stamped.entry.crdt.register.toList, u = v := by
    rcases hr with hr | hr <;> simp [hr]
  have hdots' : ∀ u ∈ stamped.entry.crdt.dots.map EntryDot.version, u = v := by
    intro u hu
    obtain ⟨w, hw, rfl⟩ := List.mem_map.1 hu
    exact hd' w hw
  refine ⟨d, v, hd, hv, fun u hu => ?_, fun u hu => ?_, fun u hu => ?_⟩
  · rcases List.mem_append.1 hu with hu | hu
    · exact hdots' u hu
    · exact hreg' u hu
  · simp only [Entry.versions, List.mem_append, ht] at hu ⊢
    rcases hu with (hu | hu) | hu
    · exact Or.inl (hdots' u hu)
    · exact Or.inr (Or.inl (Or.inr hu))
    · exact Or.inl (hreg' u hu)
  · simp only [Entry.versions, List.mem_append, ht, hdots, hreg, List.map_nil,
      Option.toList_none, List.not_mem_nil, false_or, or_false] at hu ⊢
    exact Or.inl (Or.inr hu)

/-! ### When a call keeps the order -/

def EntryOperation.issues : EntryOperation → Bool
  | .overwrite e => !e.crdt.hasWriteWitness
  | .extend e => !e.crdt.hasWriteWitness && !e.data.isEmpty
  | .tombstone _ => false

/-- The condition on one call, in the state before it: the clock reads below its greatest value
and less than the tolerance behind the last stamp; what is read above the ceiling would still
rank at or above a last stamp standing at the ceiling; and so does a removal carried above the
ceiling by an operation yet to be stamped, against the version it is stamped with. -/
structure KeepsIssueOrder (last observed : Option EntryVersion) (call : StampCall) : Prop where
  clock : call.nowMs < u128Max
  behind : ∀ l, last = some l → l.logicalTimeMs ≤ stampCeiling call.nowMs
  read : ∀ l o, last = some l → observed = some o → stampCeiling call.nowMs < o.logicalTimeMs →
    l.logicalTimeMs < stampCeiling call.nowMs ∨ l.rank ≤ o.rank
  carried : call.op.issues → ∀ t d, call.op.entry.maxObservedVersion = some t →
    stampCeiling call.nowMs < t.logicalTimeMs → call.op.entry.operationDigest codec = .ok d →
    (call.nowMs < stampCeiling call.nowMs ∧
      ∀ m, max last observed = some m → m.logicalTimeMs < stampCeiling call.nowMs) ∨
    ∃ m, max last observed = some m ∧
      EntryVersion.rank ⟨0, m.counter + 1, node, d⟩ ≤ t.rank

def KeepsIssueOrderRun (last : Option EntryVersion) : List StampCall → Prop
  | [] => True
  | call :: calls =>
    (∀ observed, observedVersion call = .ok observed →
      KeepsIssueOrder codec node last observed call) ∧
      KeepsIssueOrderRun (stampStep codec node last call).after calls

variable {codec node} {last observed : Option EntryVersion} {call : StampCall}

lemma KeepsIssueOrder.le_floor (h : KeepsIssueOrder codec node last observed call)
    {l : EntryVersion} (hl : last = some l) :
    ∃ f, (max last observed).map (capAt (stampCeiling call.nowMs)) = some f ∧ l ≤ f := by
  obtain ⟨m, hlm, hm⟩ := exists_omax_left (p := observed) hl
  refine ⟨_, by rw [hm]; rfl, ?_⟩
  have hle := h.behind l hl
  rcases Nat.lt_or_ge (stampCeiling call.nowMs) m.logicalTimeMs with hc | hc
  · -- the greater version stands above the ceiling, so it was read and not stamped
    have ho : observed = some m := by
      rcases (omax_eq_some.1 hm).1 with h' | h'
      · rw [hl, Option.some.injEq] at h'
        rw [h'] at hle
        omega
      · exact h'
    rw [EntryVersion.le_iff, capAt_logicalTimeMs, capAt_rank, min_eq_right hc.le]
    rcases h.read l m hl ho hc with hlt | hrank
    · exact Or.inl hlt
    · rcases hle.lt_or_eq with hlt | heq
      · exact Or.inl hlt
      · exact Or.inr ⟨heq, hrank⟩
  · rwa [capAt_eq_self hc]

lemma issues_of_issued {op stamped : EntryOperation} {nowMs : ℕ} {floor : Option EntryVersion}
    (h : op.stampedAfter codec nowMs node floor = .ok stamped)
    (hne : issuedVersions op stamped ≠ []) : op.issues = true := by
  cases op with
  | overwrite e =>
    by_contra hw
    simp only [EntryOperation.issues, Bool.not_eq_true, Bool.not_eq_false'] at hw
    simp [issuedVersions, EntryOperation.entry, hw] at hne
  | extend e =>
    by_contra hw
    simp only [EntryOperation.issues, Bool.and_eq_true, Bool.not_eq_true', not_and,
      Bool.not_eq_false, List.isEmpty_iff] at hw
    cases hwit : e.crdt.hasWriteWitness with
    | true => simp [issuedVersions, EntryOperation.entry, hwit] at hne
    | false =>
      -- an append of nothing is stamped with no dot, and has no register
      have he := @stampedAfter_entry codec node _ _ _ _ .delta h rfl
      rw [Entry.ensureStampAfter, ensureLifetimeFrom_crdt, EntryOperation.entry, hwit] at he
      obtain ⟨v, -, he⟩ := bind_eq_ok.1 he
      have hdata : (e.ensureLifetimeFrom nowMs).data = [] := by
        rw [Entry.ensureLifetimeFrom]
        split <;> exact hw hwit
      have hreg := (withElementDots_ok he).2.1
      rw [ensureLifetimeFrom_crdt, (versions_of_no_witness hwit).2] at hreg
      simp [issuedVersions, withElementDots_of_nil he hdata, hreg] at hne
  | tombstone e => simp [issuedVersions, EntryOperation.stampKind] at hne

lemma KeepsIssueOrder.le_next (h : KeepsIssueOrder codec node last observed call)
    {stamped : EntryOperation} {d : Did} {v : EntryVersion}
    (hs : ∀ u ∈ stamped.entry.versions, u = v ∨ u ∈ call.op.entry.versions)
    (hs' : ∀ u ∈ call.op.entry.versions, u ∈ stamped.entry.versions)
    (hv : v ∈ stamped.entry.versions) (hi : call.op.issues)
    (hd : call.op.entry.operationDigest codec = .ok d)
    (ha : (EntryVersion.new call.nowMs node d).after
      ((max last observed).map (capAt (stampCeiling call.nowMs))) = .ok v)
    (hc : v.logicalTimeMs ≤ stampCeiling call.nowMs) :
    ∃ w, stamped.entry.maxObservedVersion.map (capAt (stampCeiling call.nowMs)) = some w ∧
      v ≤ w := by
  obtain ⟨x, hx⟩ : ∃ x, stamped.entry.maxObservedVersion = some x := by
    rw [← Option.isSome_iff_exists, Entry.maxObservedVersion, List.isSome_max?_iff]
    exact List.ne_nil_of_mem hv
  have hmax := List.max?_eq_some_iff.1 hx
  refine ⟨_, by rw [hx]; rfl, ?_⟩
  rcases Nat.lt_or_ge (stampCeiling call.nowMs) x.logicalTimeMs with hxc | hxc
  · -- the greatest version is a removal carried above the ceiling
    have hcarried : call.op.entry.maxObservedVersion = some x := by
      rw [Entry.maxObservedVersion, List.max?_eq_some_iff]
      refine ⟨?_, fun u hu => hmax.2 u (hs' u hu)⟩
      rcases hs x hmax.1 with rfl | h'
      · omega
      · exact h'
    rw [EntryVersion.le_iff, capAt_logicalTimeMs, capAt_rank, min_eq_right hxc.le]
    rcases h.carried hi x d hcarried hxc hd with ⟨hnow, hm⟩ | ⟨m, hm, hrank⟩
    · refine Or.inl ?_
      rcases EntryVersion.after_cases ha with ⟨rfl, -⟩ | ⟨f, hf, -, rfl⟩
      · exact hnow
      · obtain ⟨m, hm', rfl⟩ := Option.map_eq_some_iff.1 hf
        exact (min_le_left _ _).trans_lt (hm m hm')
    · have hle : v.rank ≤ x.rank := by
        refine le_trans ?_ hrank
        rcases EntryVersion.after_cases ha with ⟨rfl, -⟩ | ⟨f, hf, -, rfl⟩
        · exact (EntryVersion.rank_lt_of_counter_lt (Nat.succ_pos _)).le
        · obtain ⟨m', hm', rfl⟩ := Option.map_eq_some_iff.1 hf
          rw [hm, Option.some.injEq] at hm'
          subst hm'
          exact le_rfl
      rcases hc.lt_or_eq with hlt | heq
      · exact Or.inl hlt
      · exact Or.inr ⟨heq, hle⟩
  · rw [capAt_eq_self hxc]
    exact hmax.2 v hv

/-- One call under the condition: what it issues lies past the last stamp and under the ceiling,
and the next last stamp follows both. -/
lemma stampStep_keeps (h : ∀ observed, observedVersion call = .ok observed →
    KeepsIssueOrder codec node last observed call) :
    (∀ v ∈ (stampStep codec node last call).issued,
      v.logicalTimeMs ≤ stampCeiling call.nowMs ∧ (∀ l, last = some l → l < v) ∧
        ∃ l', (stampStep codec node last call).after = some l' ∧ v ≤ l') ∧
      ∀ l, last = some l → ∃ l', (stampStep codec node last call).after = some l' ∧ l ≤ l' := by
  rw [stampStep]
  rcases hop : stampOperation codec node last call with _ | ⟨stamped, next⟩
  · exact ⟨(fun v hv => by cases hv), fun l hl => ⟨l, hl, le_rfl⟩⟩
  obtain ⟨observed, hobs, hop⟩ := bind_eq_ok.1 hop
  obtain ⟨stamped', hstamped, hop⟩ := bind_eq_ok.1 hop
  cases hop
  replace h := h observed hobs
  dsimp only
  constructor
  · intro v hv
    have hne := List.ne_nil_of_mem hv
    obtain ⟨d, w, hd, ha, hissued, hs, hs'⟩ := issued_cases codec node hstamped hne
    obtain rfl := hissued v hv
    have hc : v.logicalTimeMs ≤ stampCeiling call.nowMs := by
      refine EntryVersion.after_logicalTimeMs_le ha (le_stampCeiling h.clock) fun f hf => ?_
      obtain ⟨m, -, rfl⟩ := Option.map_eq_some_iff.1 hf
      exact min_le_right _ _
    refine ⟨hc, fun l hl => ?_, ?_⟩
    · obtain ⟨f, hf, hlf⟩ := h.le_floor hl
      exact hlf.trans_lt (EntryVersion.lt_after ha hf)
    · have hv' : v ∈ stamped.entry.versions := by
        rw [issuedVersions] at hv
        split at hv
        · cases hv
        · simp only [Entry.versions, List.mem_append] at hv ⊢
          exact hv.imp Or.inl id
      obtain ⟨w, hw, hvw⟩ := h.le_next hs hs' hv' (issues_of_issued hstamped hne) hd ha hc
      obtain ⟨l', hl', hn⟩ := exists_omax_right
        (o := (max last observed).map (capAt (stampCeiling call.nowMs))) hw
      exact ⟨l', hn, hvw.trans hl'⟩
  · intro l hl
    obtain ⟨f, hf, hlf⟩ := h.le_floor hl
    obtain ⟨l', hl', hn⟩ := exists_omax_left
      (p := stamped.entry.maxObservedVersion.map (capAt (stampCeiling call.nowMs))) hf
    exact ⟨l', hn, hlf.trans hl'⟩

/-- Every version issued along a run lies past the last stamp the run starts from. -/
lemma stampRun_above {calls : List StampCall} (h : KeepsIssueOrderRun codec node last calls) :
    ∀ r ∈ stampRun codec node last calls, ∀ v ∈ r.issued, ∀ l, last = some l → l < v := by
  induction calls generalizing last with
  | nil => exact fun r hr => by cases hr
  | cons call calls ih =>
    obtain ⟨hcall, hrest⟩ := h
    obtain ⟨hissued, hkept⟩ := stampStep_keeps hcall
    intro r hr v hv l hl
    rcases List.mem_cons.1 hr with rfl | hr
    · exact (hissued v hv).2.1 l hl
    · obtain ⟨l', hl', hle⟩ := hkept l hl
      exact hle.trans_lt (ih hrest r hr v hv l' hl')

lemma issueOrder_of_keeps {calls : List StampCall} (h : KeepsIssueOrderRun codec node last calls) :
    IssueOrder (stampRun codec node last calls) := by
  induction calls generalizing last with
  | nil => exact ⟨List.Pairwise.nil, (fun r hr => by cases hr), (fun r hr => by cases hr)⟩
  | cons call calls ih =>
    obtain ⟨hcall, hrest⟩ := h
    obtain ⟨hissued, hkept⟩ := stampStep_keeps hcall
    have hnow : (stampStep codec node last call).nowMs = call.nowMs := by
      rw [stampStep]
      split <;> rfl
    have hbefore : (stampStep codec node last call).before = last := by
      rw [stampStep]
      split <;> rfl
    refine ⟨List.pairwise_cons.2 ⟨fun r hr u hu v hv _ => ?_, (ih hrest).ascends⟩, ?_, ?_⟩
    · obtain ⟨l', hl', hul⟩ := (hissued u hu).2.2
      exact hul.trans_lt (stampRun_above hrest r hr v hv l' hl')
    · intro r hr v hv
      rcases List.mem_cons.1 hr with rfl | hr
      · rw [hnow]
        exact (hissued v hv).1.trans (stampCeiling_le _)
      · exact (ih hrest).bounded r hr v hv
    · intro r hr l hl hle
      rcases List.mem_cons.1 hr with rfl | hr
      · exact hkept l (hbefore ▸ hl)
      · exact (ih hrest).kept r hr l hl hle

/-- An append of one element at `nowMs`, with a carrier holding `read` in the fetch cache. -/
def appendCall (nowMs : ℕ) (read : Option EntryVersion) : StampCall where
  op := .extend (.new 1 [[5]] .data)
  nowMs
  cached := .ok (read.map fun v => ⟨1, [[6]], .data, ⟨none, [⟨v, 0⟩], []⟩, some 600000⟩)
  replica := .ok none

end Rings
