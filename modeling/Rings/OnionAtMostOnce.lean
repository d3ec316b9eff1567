import Rings.OnionAdmission

/-!
Onion layers are admitted at most once.

A trace runs one admission state with instants of any order, tokens admitted in any order or never,
and renewals into fresh epochs. While its expiry has not passed on the monotone clock, the filter
of an admitted layer is live and holds its tag; once it has passed, no layer of that expiry is
admitted in the epoch.
-/

namespace Rings.Onion

variable (keccak256 : List Byte → Vector Byte 32)

/-! ### Traces -/

/-- One charge of the current epoch: its sender, its quantum and its units. -/
structure ChargeRecord where
  did : Did
  quantum : ℕ
  units : ℕ+
  deriving DecidableEq

/-- One admitted layer, with its token's arrival and the clock at its admission. -/
structure AdmissionRecord where
  layer : OnionAdmissionLayer
  arrivalMs : ℕ
  clockMs : ℕ
  deriving DecidableEq

/-- A state with its history: the tokens not yet used, each with the number of epochs begun when it
was charged; the charges of the epoch; the admitted layers; and the epochs, the latest first. -/
structure AdmissionTrace where
  state : OnionAdmissionState
  tokens : List (OnionAdmissionCharge × ℕ)
  charges : List ChargeRecord
  admitted : List AdmissionRecord
  epochs : List OnionProcessEpoch

inductive AdmissionEvent
  | charge (nowMs : Fin (2 ^ 128)) (link : OnionAdmissionLink) (units : ℕ+)
  | tryAdmit (nowMs : Fin (2 ^ 128)) (token : ℕ) (layer : OnionAdmissionLayer)
  | linkOpened (nowMs : Fin (2 ^ 128)) (link : OnionAdmissionLink)
  | linkClosed (nowMs : Fin (2 ^ 128)) (link : OnionAdmissionLink)
  | reconcile (nowMs : Fin (2 ^ 128)) (live : List OnionAdmissionLink)
  | renew (epoch : OnionProcessEpoch) (filterKey : OnionReplayFilterKey)

namespace AdmissionTrace

def new (epoch : OnionProcessEpoch) (filterKey : OnionReplayFilterKey)
    (linkRegistryCapacity : ℕ) : AdmissionTrace :=
  ⟨.new epoch filterKey linkRegistryCapacity, [], [], [], [epoch]⟩

def step (t : AdmissionTrace) : AdmissionEvent → Option AdmissionTrace
  | .charge nowMs link units =>
    let (state, verdict) := t.state.chargeUnits nowMs link units
    some (match verdict with
      | .error _ => { t with state := state }
      | .ok token => { t with
          state := state
          tokens := (token, t.epochs.length) :: t.tokens
          charges := ⟨link.did, state.quantum, units⟩ :: t.charges })
  | .tryAdmit nowMs i layer =>
    t.tokens[i]?.map fun token =>
      let (state, verdict) := t.state.tryAdmit keccak256 nowMs token.1 layer
      let t := { t with state := state, tokens := t.tokens.eraseIdx i }
      match verdict with
      | .error _ => t
      | .ok _ => { t with admitted := ⟨layer, token.1.arrivalMs, state.clockMs⟩ :: t.admitted }
  | .linkOpened nowMs link => some { t with state := (t.state.linkOpened nowMs link).1 }
  | .linkClosed nowMs link => some { t with state := t.state.linkClosed nowMs link }
  | .reconcile nowMs live => some { t with state := (t.state.reconcile nowMs live).1 }
  | .renew epoch filterKey =>
    some (match t.state.renew epoch filterKey with
      | none => t
      | some state => { t with state := state, charges := [], epochs := epoch :: t.epochs })

def run (t : AdmissionTrace) (es : List AdmissionEvent) : Option AdmissionTrace :=
  es.foldlM (step keccak256) t

def FreshEpoch (t : AdmissionTrace) : AdmissionEvent → Prop
  | .renew epoch _ => epoch ∈ t.epochs → epoch = t.state.epoch
  | _ => True

inductive Reaches : AdmissionTrace → Prop
  | start (epoch : OnionProcessEpoch) (filterKey : OnionReplayFilterKey) (capacity : ℕ) :
      Reaches (new epoch filterKey capacity)
  | step {t t' : AdmissionTrace} (e : AdmissionEvent) : Reaches t → t.FreshEpoch e →
      t.step keccak256 e = some t' → Reaches t'

end AdmissionTrace

/-! ### What the steps between admissions keep -/

/-- Time passes within one epoch: the clock does not step back, and a tag is remembered until its
expiry has passed. -/
structure Ages (s s' : OnionAdmissionState) : Prop where
  epoch : s'.epoch = s.epoch
  key : s'.replay.key = s.replay.key
  clock : s.clockMs ≤ s'.clockMs
  remembered : ∀ x probe, s.replay.contains x probe = true →
    x.hasPassedAt s'.clockMs = true ∨ s'.replay.contains x probe = true
  tags : ∀ x, s'.replay.tagCount x ≤ s.replay.tagCount x

lemma hasPassedAt_mono {x : OnionExpiry} {a b : ℕ} (h : x.hasPassedAt a = true) (hle : a ≤ b) :
    x.hasPassedAt b = true :=
  decide_eq_true ((of_decide_eq_true h).trans hle)

namespace Ages

variable {s s' s'' : OnionAdmissionState}

lemma rfl' : Ages s s := ⟨rfl, rfl, le_rfl, fun _ _ h => Or.inr h, fun _ => le_rfl⟩

lemma trans (h : Ages s s') (h' : Ages s' s'') : Ages s s'' where
  epoch := h'.epoch.trans h.epoch
  key := h'.key.trans h.key
  clock := h.clock.trans h'.clock
  remembered := fun x probe hx => by
    rcases h.remembered x probe hx with hpassed | hx'
    · exact Or.inl (hasPassedAt_mono hpassed h'.clock)
    · exact h'.remembered x probe hx'
  tags := fun x => (h'.tags x).trans (h.tags x)

lemma advance (s : OnionAdmissionState) (nowMs : ℕ) : Ages s (s.advance nowMs) := by
  have hage : Ages s { s with
      clockMs := max s.clockMs nowMs
      replay := s.replay.forgetThrough (max s.clockMs nowMs) } :=
    ⟨rfl, rfl, le_max_left _ _, fun _ _ => ReplayStore.contains_forgetThrough,
      fun _ => ReplayStore.tagCount_forgetThrough⟩
  rw [OnionAdmissionState.advance]
  split
  · exact { hage with }
  · exact hage

/-- Ledgers and links have no part in it. -/
lemma senders (h : Ages s s') {t : OnionAdmissionState} (he : t.epoch = s'.epoch)
    (hc : t.clockMs = s'.clockMs) (hr : t.replay = s'.replay) : Ages s t :=
  ⟨he.trans h.epoch, hr ▸ h.key, hc ▸ h.clock, by rw [hc, hr]; exact h.remembered,
    by rw [hr]; exact h.tags⟩

lemma linkOpened (s : OnionAdmissionState) (nowMs : ℕ) (link : OnionAdmissionLink) :
    Ages s (s.linkOpened nowMs link).1 := by
  have hage := advance s nowMs
  unfold OnionAdmissionState.linkOpened
  dsimp only
  split
  · split
    · exact hage
    · split
      · exact hage.senders rfl rfl rfl
      · exact hage
  · split
    · exact hage.senders rfl rfl rfl
    · exact hage

lemma linkClosed (s : OnionAdmissionState) (nowMs : ℕ) (link : OnionAdmissionLink) :
    Ages s (s.linkClosed nowMs link) := by
  have hage := advance s nowMs
  unfold OnionAdmissionState.linkClosed
  dsimp only
  split
  · exact hage
  · split
    · exact hage.senders rfl rfl rfl
    · exact hage.senders rfl rfl rfl

lemma openAll (s : OnionAdmissionState) (nowMs : ℕ) (links : List OnionAdmissionLink) :
    Ages s (s.openAll nowMs links).1 := by
  suffices h : ∀ acc : OnionAdmissionState × List OnionAdmissionLink, Ages s acc.1 →
      Ages s (links.foldl (fun acc link =>
        let opened := acc.1.linkOpened nowMs link
        (opened.1, if opened.2 then acc.2 else acc.2 ++ [link])) acc).1 from h (s, []) rfl'
  induction links with
  | nil => exact fun _ h => h
  | cons link links ih => exact fun acc h => ih _ (h.trans (linkOpened acc.1 nowMs link))

lemma closeAll (s : OnionAdmissionState) (nowMs : ℕ) (links : List OnionAdmissionLink) :
    Ages s (links.foldl (fun s link => s.linkClosed nowMs link) s) := by
  induction links generalizing s with
  | nil => exact rfl'
  | cons link links ih => exact (linkClosed s nowMs link).trans (ih _)

lemma reconcile (s : OnionAdmissionState) (nowMs : ℕ) (live : List OnionAdmissionLink) :
    Ages s (s.reconcile nowMs live).1 :=
  (advance s nowMs).trans ((closeAll _ nowMs _).trans (openAll _ nowMs _))

lemma chargeUnits (s : OnionAdmissionState) (nowMs : ℕ) (link : OnionAdmissionLink) (units : ℕ+) :
    Ages s (s.chargeUnits nowMs link units).1 := by
  have hage := advance s nowMs
  unfold OnionAdmissionState.chargeUnits
  dsimp only
  split
  · exact hage
  · split
    · exact hage
    · split
      · exact hage
      · exact hage.senders rfl rfl rfl

end Ages

/-! ### A charge and an admission -/

lemma chargeUnits_cases (s : OnionAdmissionState) (nowMs : ℕ) (link : OnionAdmissionLink)
    (units : ℕ+) :
    (∃ rejection, s.chargeUnits nowMs link units = (s.advance nowMs, .error rejection)) ∨
      ∃ sender chargedSender chargedGlobal,
        (s.advance nowMs).senders.get? link.did = some sender ∧
        link.generation ∈ sender.live ∧
        sender.ledger.charged (s.advance nowMs).quantum units onionAdmissionSenderUnits =
          some chargedSender ∧
        (s.advance nowMs).global.charged (s.advance nowMs).quantum units
          onionAdmissionGlobalUnits = some chargedGlobal ∧
        s.chargeUnits nowMs link units = ({ s.advance nowMs with
            senders := (s.advance nowMs).senders.insert link.did
              { sender with ledger := chargedSender }
            global := chargedGlobal },
          .ok ⟨(s.advance nowMs).clockMs, (s.advance nowMs).epoch⟩) := by
  unfold OnionAdmissionState.chargeUnits
  dsimp only
  split
  · exact Or.inl ⟨_, rfl⟩
  rename_i sender hsender
  obtain ⟨hget, hlive⟩ := Option.filter_eq_some_iff.1 hsender
  split
  · exact Or.inl ⟨_, rfl⟩
  rename_i chargedSender hchargedSender
  split
  · exact Or.inl ⟨_, rfl⟩
  · rename_i chargedGlobal hchargedGlobal
    exact Or.inr ⟨sender, chargedSender, chargedGlobal, hget, of_decide_eq_true hlive,
      hchargedSender, hchargedGlobal, rfl⟩


/-- What a layer met to be admitted, and what its admission leaves. -/
structure Admits (s : OnionAdmissionState) (token : OnionAdmissionCharge)
    (layer : OnionAdmissionLayer) (s' : OnionAdmissionState) : Prop where
  layerEpoch : layer.epoch = s.epoch
  tokenEpoch : token.epoch = s.epoch
  window : layer.expiry.admissibleAt token.arrivalMs = true
  live : layer.expiry.hasPassedAt s.clockMs = false
  new : s.replay.contains layer.expiry (s.replay.probe keccak256 layer.tag) = false
  state : s' = { s with
    replay := s.replay.insert layer.expiry (s.replay.probe keccak256 layer.tag) }

variable {keccak256}

variable (keccak256) in
lemma admit_cases (s : OnionAdmissionState) (nowMs : ℕ) (token : OnionAdmissionCharge)
    (layer : OnionAdmissionLayer) :
    (∃ rejection, s.tryAdmit keccak256 nowMs token layer = (s.advance nowMs, .error rejection)) ∨
      ∃ s', s.tryAdmit keccak256 nowMs token layer = (s', .ok ()) ∧
        Admits keccak256 (s.advance nowMs) token layer s' := by
  unfold OnionAdmissionState.tryAdmit
  dsimp only
  split
  · exact Or.inl ⟨_, rfl⟩
  rename_i hepoch
  rw [not_or, not_not, not_not] at hepoch
  split
  · exact Or.inl ⟨_, rfl⟩
  rename_i hwindow
  rw [Bool.not_eq_true, Bool.or_eq_false_iff, Bool.not_eq_false'] at hwindow
  split
  · exact Or.inl ⟨_, rfl⟩
  · rename_i hnew
    exact Or.inr ⟨_, rfl, hepoch.1, hepoch.2, hwindow.1, hwindow.2, by simpa using hnew, rfl⟩

lemma admissibleAt_iff {x : OnionExpiry} {arrivalMs : ℕ} :
    x.admissibleAt arrivalMs = true ↔
      arrivalMs < x.asMs ∧ x.asMs ≤ arrivalMs + onionAdmissionWindowMs := by
  have htop : x.asMs ≤ u128Max := Nat.min_le_right _ _
  rw [OnionExpiry.admissibleAt, decide_eq_true_eq, saturatingAdd]
  omega

/-! ### The invariant -/

/-- What holds of the history in every state. -/
structure Recorded (keccak256 : List Byte → Vector Byte 32) (t : AdmissionTrace) : Prop where
  current : t.epochs.head? = some t.state.epoch
  epochs : t.epochs.Nodup
  tokens : ∀ token ∈ t.tokens, token.1.epoch ∈ t.epochs ∧ token.2 ≤ t.epochs.length ∧
    (token.1.epoch = t.state.epoch → token.2 = t.epochs.length)
  past : ∀ a ∈ t.admitted, a.layer.epoch ∈ t.epochs
  once : (t.admitted.map AdmissionRecord.layer).Nodup
  window : ∀ a ∈ t.admitted, a.arrivalMs < a.layer.expiry.asMs ∧
    a.layer.expiry.asMs ≤ a.arrivalMs + onionAdmissionWindowMs ∧ a.clockMs < a.layer.expiry.asMs
  remembered : ∀ a ∈ t.admitted, a.layer.epoch = t.state.epoch →
    a.layer.expiry.hasPassedAt t.state.clockMs = true ∨
      t.state.replay.contains a.layer.expiry (t.state.replay.probe keccak256 a.layer.tag) = true

lemma recorded_new (epoch : OnionProcessEpoch) (filterKey : OnionReplayFilterKey)
    (capacity : ℕ) : Recorded keccak256 (.new epoch filterKey capacity) where
  current := rfl
  epochs := List.nodup_singleton epoch
  tokens := fun _ h => absurd h List.not_mem_nil
  past := fun _ h => absurd h List.not_mem_nil
  once := List.nodup_nil
  window := fun _ h => absurd h List.not_mem_nil
  remembered := fun _ h => absurd h List.not_mem_nil

namespace Recorded

variable {t : AdmissionTrace} {s' : OnionAdmissionState}

/-- Time passing keeps the history. -/
lemma age (h : Recorded keccak256 t) (hage : Ages t.state s') :
    Recorded keccak256 { t with state := s' } := by
  refine { h with current := ?_, tokens := ?_, remembered := ?_ }
  · simp only [h.current, hage.epoch]
  · intro token htoken
    simp only [hage.epoch]
    exact h.tokens token htoken
  · intro a ha hepoch
    rcases h.remembered a ha (hepoch.trans hage.epoch) with hpassed | hcontains
    · exact Or.inl (hasPassedAt_mono hpassed hage.clock)
    · have hprobe : s'.replay.probe keccak256 a.layer.tag =
          t.state.replay.probe keccak256 a.layer.tag := by
        rw [ReplayStore.probe, ReplayStore.probe, hage.key]
      simp only [hprobe]
      exact hage.remembered _ _ hcontains

/-- The token of a charge is of the current epoch. -/
lemma charge (h : Recorded keccak256 t) (arrivalMs : ℕ) (charges : List ChargeRecord) :
    Recorded keccak256 { t with
      tokens := (⟨arrivalMs, t.state.epoch⟩, t.epochs.length) :: t.tokens
      charges := charges } := by
  refine { h with tokens := ?_ }
  intro token htoken
  rcases List.mem_cons.1 htoken with rfl | htoken
  · exact ⟨List.mem_of_mem_head? h.current, le_rfl, fun _ => rfl⟩
  · exact h.tokens token htoken

lemma use (h : Recorded keccak256 t) (i : ℕ) :
    Recorded keccak256 { t with tokens := t.tokens.eraseIdx i } :=
  { h with tokens := fun token htoken => h.tokens token (List.mem_of_mem_eraseIdx htoken) }

/-- A layer is admitted once: a layer of the epoch that was admitted before has passed, or its
filter holds it. -/
lemma tryAdmit (h : Recorded keccak256 t) {token : OnionAdmissionCharge} {layer : OnionAdmissionLayer}
    (ha : Admits keccak256 t.state token layer s') :
    Recorded keccak256 { t with
      state := s'
      admitted := ⟨layer, token.arrivalMs, s'.clockMs⟩ :: t.admitted } := by
  obtain ⟨hlayer, htoken, hwindow, hlive, hnew, rfl⟩ := ha
  refine ⟨h.current, h.epochs, h.tokens, ?_, ?_, ?_, ?_⟩
  · intro a ha
    rcases List.mem_cons.1 ha with rfl | ha
    · rw [hlayer]
      exact List.mem_of_mem_head? h.current
    · exact h.past a ha
  · rw [List.map_cons, List.nodup_cons]
    refine ⟨fun hmem => ?_, h.once⟩
    obtain ⟨a, ha, heq⟩ := List.mem_map.1 hmem
    simp only at heq
    rcases h.remembered a ha (by rw [heq, hlayer]) with hpassed | hcontains
    · rw [heq, hlive] at hpassed
      cases hpassed
    · rw [heq, hnew] at hcontains
      cases hcontains
  · intro a ha
    rcases List.mem_cons.1 ha with rfl | ha
    · obtain ⟨h1, h2⟩ := admissibleAt_iff.1 hwindow
      exact ⟨h1, h2, not_le.1 (of_decide_eq_false hlive)⟩
    · exact h.window a ha
  · intro a ha hepoch
    rcases List.mem_cons.1 ha with rfl | ha
    · exact Or.inr ReplayStore.contains_insert_self
    · exact (h.remembered a ha hepoch).imp_right (ReplayStore.contains_insert _)

/-- A renewal enters an epoch that no token and no admitted layer is of. -/
lemma renew (h : Recorded keccak256 t) {epoch : OnionProcessEpoch} (hnew : epoch ∉ t.epochs)
    (he : s'.epoch = epoch) :
    Recorded keccak256 { t with state := s', charges := [], epochs := epoch :: t.epochs } := by
  refine ⟨by rw [he]; rfl, List.nodup_cons.2 ⟨hnew, h.epochs⟩, ?_, ?_, h.once, h.window, ?_⟩
  · intro token htoken
    obtain ⟨hmem, hle, -⟩ := h.tokens token htoken
    refine ⟨List.mem_cons_of_mem _ hmem, hle.trans (Nat.le_succ _), fun heq => ?_⟩
    exact absurd (heq.trans he ▸ hmem) hnew
  · exact fun a ha => List.mem_cons_of_mem _ (h.past a ha)
  · intro a ha heq
    exact absurd (heq.trans he ▸ h.past a ha) hnew

end Recorded

/-- One step keeps the history. -/
lemma Recorded.step {t t' : AdmissionTrace} (h : Recorded keccak256 t) {e : AdmissionEvent}
    (hfresh : t.FreshEpoch e) (he : t.step keccak256 e = some t') : Recorded keccak256 t' := by
  cases e with
  | charge nowMs link units =>
    have hage := h.age (Ages.chargeUnits t.state nowMs link units)
    rcases chargeUnits_cases t.state nowMs link units with ⟨rejection, hcharge⟩ |
      ⟨sender, chargedSender, chargedGlobal, -, -, -, -, hcharge⟩
    · simp only [AdmissionTrace.step, hcharge, Option.some.injEq] at he
      rw [hcharge] at hage
      exact he ▸ hage
    · simp only [AdmissionTrace.step, hcharge, Option.some.injEq] at he
      rw [hcharge] at hage
      exact he ▸ hage.charge _ _
  | tryAdmit nowMs i layer =>
    obtain ⟨token, -, rfl⟩ := Option.map_eq_some_iff.1 he
    have hage := (h.age (Ages.advance t.state nowMs)).use i
    rcases admit_cases keccak256 t.state nowMs token.1 layer with
      ⟨rejection, hadmitted⟩ | ⟨s', hadmitted, hadmits⟩
    · simp only [hadmitted]
      exact hage
    · simp only [hadmitted]
      exact hage.tryAdmit hadmits
  | linkOpened nowMs link =>
    obtain rfl := Option.some.inj he
    exact h.age (.linkOpened _ _ _)
  | linkClosed nowMs link =>
    obtain rfl := Option.some.inj he
    exact h.age (.linkClosed _ _ _)
  | reconcile nowMs live =>
    obtain rfl := Option.some.inj he
    exact h.age (.reconcile _ _ _)
  | renew epoch filterKey =>
    simp only [AdmissionTrace.step, Option.some.injEq, OnionAdmissionState.renew] at he
    by_cases hsame : epoch = t.state.epoch
    · rw [if_pos hsame] at he
      exact he ▸ h
    · rw [if_neg hsame] at he
      have hnew : epoch ∉ t.epochs := fun hmem => hsame (hfresh hmem)
      exact he ▸ h.renew hnew rfl

lemma AdmissionTrace.Reaches.recorded {t : AdmissionTrace}
    (h : AdmissionTrace.Reaches keccak256 t) : Recorded keccak256 t := by
  induction h with
  | start epoch filterKey capacity => exact recorded_new epoch filterKey capacity
  | step e _ hfresh he ih => exact ih.step hfresh he

/-- **Onion layers are admitted at most once.** In every trace whose renewals enter distinct
epochs, for every probe key and hash: no expiry and nonce sealed for one epoch are admitted twice;
every admitted layer was in its window at its arrival and unexpired on the clock; and a token
charged before a renewal is never admitted after it. -/
theorem layers_admitted_at_most_once (keccak256 : List Byte → Vector Byte 32)
    (t : AdmissionTrace) (h : AdmissionTrace.Reaches keccak256 t) :
    (t.admitted.map AdmissionRecord.layer).Nodup ∧
    (∀ a ∈ t.admitted, a.arrivalMs < a.layer.expiry.asMs ∧
      a.layer.expiry.asMs ≤ a.arrivalMs + onionAdmissionWindowMs ∧
      a.clockMs < a.layer.expiry.asMs) ∧
    (∀ token ∈ t.tokens, token.2 ≠ t.epochs.length → ∀ nowMs layer,
      (t.state.tryAdmit keccak256 nowMs token.1 layer).2 = .error .staleEpoch) := by
  have hrecorded := h.recorded
  refine ⟨hrecorded.once, hrecorded.window, fun token htoken hold nowMs layer => ?_⟩
  have hstale : token.1.epoch ≠ (t.state.advance nowMs).epoch := by
    rw [(Ages.advance t.state nowMs).epoch]
    exact fun heq => hold ((hrecorded.tokens token htoken).2.2 heq)
  unfold OnionAdmissionState.tryAdmit
  dsimp only
  rw [if_pos (Or.inr hstale)]

/-- A run without renewals is a trace from its first state. -/
lemma AdmissionTrace.Reaches.run {t t' : AdmissionTrace} {es : List AdmissionEvent}
    (h : AdmissionTrace.Reaches keccak256 t) (hfresh : ∀ e ∈ es, ∀ t, FreshEpoch t e)
    (hrun : t.run keccak256 es = some t') : AdmissionTrace.Reaches keccak256 t' := by
  induction es generalizing t with
  | nil => exact Option.some.inj hrun ▸ h
  | cons e es ih =>
    rw [AdmissionTrace.run, List.foldlM_cons, Option.bind_eq_bind] at hrun
    obtain ⟨next, he, hrun⟩ := Option.bind_eq_some_iff.1 hrun
    exact ih (h.step e (hfresh e List.mem_cons_self t) he)
      (fun x hx => hfresh x (List.mem_cons_of_mem _ hx)) hrun

/-- A link is opened, a cell charged on it, and its layer admitted; then a second cell is charged,
to carry the same layer. -/
def oneAdmission : List AdmissionEvent :=
  [.linkOpened 60000 ⟨7, 1⟩, .charge 60000 ⟨7, 1⟩ 1,
    .tryAdmit 61000 0 ⟨3, ⟨5⟩, Vector.replicate 16 1⟩, .charge 61000 ⟨7, 1⟩ 1]

/-- The second presentation of the layer is refused as a replay: one admission stands. -/
theorem layers_admitted_at_most_once_example :
    ∃ t t', AdmissionTrace.run (fun _ => Vector.replicate 32 0)
        (.new 3 (Vector.replicate 32 9) 1) oneAdmission = some t ∧
      t.tokens.length = 1 ∧
      (∀ token ∈ t.tokens, (t.state.tryAdmit (fun _ => Vector.replicate 32 0) 62000 token.1
        ⟨3, ⟨5⟩, Vector.replicate 16 1⟩).2 = .error .replayed) ∧
      t.step (fun _ => Vector.replicate 32 0)
        (.tryAdmit 62000 0 ⟨3, ⟨5⟩, Vector.replicate 16 1⟩) = some t' ∧
      t'.admitted = [⟨⟨3, ⟨5⟩, Vector.replicate 16 1⟩, 60000, 61000⟩] ∧
      (t'.admitted.map AdmissionRecord.layer).Nodup := by
  refine ⟨_, _, rfl, by decide +kernel, by decide +kernel, rfl, by decide +kernel, ?_⟩
  have hreached := AdmissionTrace.Reaches.run
    (@AdmissionTrace.Reaches.start (fun _ => Vector.replicate 32 0) 3 (Vector.replicate 32 9) 1)
    (show ∀ e ∈ oneAdmission, ∀ t, AdmissionTrace.FreshEpoch t e by
      simp [oneAdmission, AdmissionTrace.FreshEpoch]) rfl
  exact (layers_admitted_at_most_once _ _ (hreached.step (.tryAdmit 62000 0
    ⟨3, ⟨5⟩, Vector.replicate 16 1⟩) trivial rfl)).1

end Rings.Onion
