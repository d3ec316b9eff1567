import Rings.RegistryLaws

/-!
Two nodes that offer each other a connection at once.

Each node keeps its pending record for the other in its registry. An offer is marked sent before
it leaves, an answer echoes the transaction of the offer it answers, and an offer that meets a
pending record is decided by `crossingOfferVerdict` alone. Channels lose, delay, repeat and
reorder: a message, once sent, may be delivered any number of times or never.
-/

namespace Rings

open ConnectionLifecycleRegistry

/-! ### The verdict -/

inductive CrossingOfferVerdict
  | yield
  | counterOffer (sdp : String) (txId : Uuid)
  | refuse
  deriving DecidableEq

/-- Decide an offer from `peer`, carried by `carrier`, meeting this node's (`loc`) pending
attempt in `handshake`. -/
def crossingOfferVerdict (handshake : Handshake) (carrier : OfferOwner) (loc peer : Did) :
    CrossingOfferVerdict :=
  match handshake with
  | .offering _ .creating => .yield
  | .offering .overlay (.sent sdp txId) =>
    if carrier = .external then .yield
    else if peer.toNat < loc.toNat then .yield
    else .counterOffer sdp txId
  | .offering .external (.sent ..) =>
    if carrier = .overlay then .refuse
    else if peer.toNat < loc.toNat then .yield
    else .refuse
  | .offering _ .answered | .answering => .refuse

lemma crossingOfferVerdict_counterOffer {h : Handshake} {carrier : OfferOwner} {loc peer : Did}
    {sdp : String} {txId : Uuid}
    (hv : crossingOfferVerdict h carrier loc peer = .counterOffer sdp txId) :
    h = .offering .overlay (.sent sdp txId) ∧ carrier = .overlay := by
  unfold crossingOfferVerdict at hv
  split at hv
  · cases hv
  · split_ifs at hv with hc hd
    cases hv
    cases carrier with
    | overlay => exact ⟨rfl, rfl⟩
    | external => exact absurd rfl hc
  · split_ifs at hv
  · cases hv
  · cases hv

/-! ### Two nodes -/

inductive Side
  | left | right
  deriving DecidableEq

def Side.other : Side → Side
  | left => right
  | right => left

@[simp] lemma Side.other_other (x : Side) : x.other.other = x := by cases x <;> rfl
@[simp] lemma Side.other_ne (x : Side) : x.other ≠ x := by cases x <;> simp [other]
@[simp] lemma Side.ne_other (x : Side) : x ≠ x.other := x.other_ne.symm

lemma Side.eq_or_eq_other (x y : Side) : y = x ∨ y = x.other := by
  cases x <;> cases y <;> simp [other]

/-- The offer of the attempt has left, and is unanswered. -/
def Handshake.isSent : Handshake → Bool
  | .offering _ (.sent ..) => true
  | .offering _ .creating | .offering _ .answered | .answering => false

lemma Handshake.isSent_iff {h : Handshake} :
    h.isSent = true ↔ ∃ owner sdp txId, h = .offering owner (.sent sdp txId) := by
  cases h with
  | answering => simp [isSent]
  | offering owner phase => cases phase <;> simp [isSent]

/-- A transition that is about another peer than `p`, or the closing; an expiry is neither. -/
def ConnectionLifecycleRegistry.RegistryEvent.isElsewhere (p : Did) : RegistryEvent → Bool
  | .close => true
  | .expire _ => false
  | e => e.peer? ≠ some p

/-- The pending generation of `peer`, with its signaling state. -/
def ConnectionLifecycleRegistry.pendingRecord (r : ConnectionLifecycleRegistry) (peer : Did) :
    Option (PendingConnectionAttempt × Handshake) :=
  (r.pendingAttempt peer).bind fun a => (r.handshake a).map fun h => (a, h)

/-- An offer on its way, with the carrier its receiver is told. -/
structure Offer where
  sender : Side
  carrier : OfferOwner
  sdp : String
  txId : Uuid
  deriving DecidableEq

/-- An answer on its way: over the overlay it echoes the transaction of the offer it answers,
out of band it is handed over without one. -/
structure Answer where
  sender : Side
  carrier : OfferOwner
  offerTx : Uuid
  deriving DecidableEq

/-- A yield decided on the state `observed`, and not yet applied. -/
structure DecidedYield where
  side : Side
  attempt : PendingConnectionAttempt
  observed : Handshake
  offer : Offer
  deriving DecidableEq

/-- An answer bound to the generation whose offer it echoes, and not yet applied. -/
structure BoundAnswer where
  side : Side
  attempt : PendingConnectionAttempt
  answer : Answer
  deriving DecidableEq

/-- History: an offer that left, and the generation that sent it. -/
structure SentOffer where
  side : Side
  attempt : PendingConnectionAttempt
  owner : OfferOwner
  txId : Uuid
  deriving DecidableEq

/-- The messages between the nodes, the steps they are in the middle of, and the history the
laws speak about: the offers sent, the transaction of the offer a node's answering generation
answers, the nodes that abandoned a sent offer, and the answers applied. -/
structure Exchange where
  offers : List Offer
  answers : List Answer
  decided : List DecidedYield
  bound : List BoundAnswer
  sent : List SentOffer
  answered : Side → Option Uuid
  abandoned : Side → Bool
  applied : List BoundAnswer

def Exchange.empty : Exchange :=
  ⟨[], [], [], [], [], fun _ => none, fun _ => false, []⟩

structure Crossing where
  registry : Side → ConnectionLifecycleRegistry
  exchange : Exchange

inductive CrossingEvent
  /-- Reserve a generation for the other node, which starts creating its offer. -/
  | openOffer (x : Side) (nowMs : ℤ) (owner : OfferOwner)
  /-- Mark the created offer sent under a fresh transaction, and send it. -/
  | sendOffer (x : Side) (a : PendingConnectionAttempt) (sdp : String) (txId : Uuid)
  /-- Read the pending record an offer meets, and decide it. -/
  | decideOffer (x : Side) (o : Offer)
  /-- Replace the attempt of a decided yield, if its state is still the one decided on. -/
  | applyYield (d : DecidedYield) (nowMs : ℤ)
  /-- Reserve an answering generation for an offer that met no record. -/
  | answerVacant (x : Side) (o : Offer) (nowMs : ℤ)
  /-- Bind an answer over the overlay to the generation whose sent offer it echoes. -/
  | bindAnswer (x : Side) (m : Answer)
  /-- Apply a bound answer to its generation. -/
  | applyAnswer (b : BoundAnswer)
  /-- Apply an answer handed over out of band, to `expected` if its owner names one. -/
  | acceptAnswer (x : Side) (m : Answer) (expected : Option PendingConnectionAttempt)
  /-- A transition of the registry about any other peer, or its closing. -/
  | elsewhere (x : Side) (e : RegistryEvent)

namespace Crossing

def new (bounds : Side → LifecycleBounds) : Crossing :=
  ⟨fun x => .new (bounds x), .empty⟩

def setRegistry (s : Crossing) (x : Side) (r : ConnectionLifecycleRegistry) : Crossing :=
  { s with registry := Function.update s.registry x r }

/-- `x` holds an answering generation for the offer that left under `txId`, and its answer is
on its way. -/
def opensAnswer (s : Crossing) (x : Side) (o : Offer) (abandons : Bool) : Crossing :=
  { s with exchange := { s.exchange with
      answers := ⟨x, o.carrier, o.txId⟩ :: s.exchange.answers
      answered := Function.update s.exchange.answered x (some o.txId)
      abandoned := Function.update s.exchange.abandoned x abandons } }

/-- Apply the answer `m` to the pending generation, or to `expected` only; over the overlay it
must echo the transaction the offer left under. -/
def acceptRemoteConnection (did : Side → Did) (s : Crossing) (x : Side) (m : Answer)
    (expected : Option PendingConnectionAttempt) (txId : Option Uuid) : Crossing :=
  match (s.registry x).pendingAttempt (did x.other) with
  | none => s
  | some a =>
    if expected.all (· = a) then
      match (s.registry x).markOfferAnswered a txId with
      | (true, r) =>
        { s.setRegistry x r with
          exchange := { s.exchange with applied := ⟨x, a, m⟩ :: s.exchange.applied } }
      | (false, _) => s
    else s

def step (did : Side → Did) (s : Crossing) : CrossingEvent → Crossing
  | .openOffer x nowMs owner =>
    match (s.registry x).reserveFor (did x.other) nowMs (.offering owner .creating) with
    | .ok (_, r) => s.setRegistry x r
    | .error _ => s
  | .sendOffer x a sdp txId =>
    if a.peer = did x.other ∧ txId ∉ s.exchange.sent.map (·.txId) then
      match (s.registry x).handshake a, (s.registry x).markOfferSent a sdp txId with
      | some (.offering owner _), (true, r) =>
        { s.setRegistry x r with
          exchange := { s.exchange with
            offers := ⟨x, owner, sdp, txId⟩ :: s.exchange.offers
            sent := ⟨x, a, owner, txId⟩ :: s.exchange.sent } }
      | _, _ => s
    else s
  | .decideOffer x o =>
    if o ∈ s.exchange.offers ∧ o.sender = x.other then
      match (s.registry x).pendingRecord (did x.other) with
      | none => s
      | some (a, h) =>
        match crossingOfferVerdict h o.carrier (did x) (did x.other) with
        | .refuse => s
        | .counterOffer sdp txId =>
          -- the reply retraces the offer, so it is carried the same way
          { s with exchange := { s.exchange with
            offers := ⟨x, o.carrier, sdp, txId⟩ :: s.exchange.offers } }
        | .yield =>
          { s with exchange := { s.exchange with decided := ⟨x, a, h, o⟩ :: s.exchange.decided } }
    else s
  | .applyYield d nowMs =>
    if d ∈ s.exchange.decided then
      match (s.registry d.side).replacePendingIn d.attempt d.observed nowMs with
      | .ok (some _, r) => (s.setRegistry d.side r).opensAnswer d.side d.offer d.observed.isSent
      | .ok (none, _) | .error _ => s
    else s
  | .answerVacant x o nowMs =>
    if o ∈ s.exchange.offers ∧ o.sender = x.other then
      match (s.registry x).reserveFor (did x.other) nowMs .answering with
      | .ok (_, r) => (s.setRegistry x r).opensAnswer x o false
      | .error _ => s
    else s
  | .bindAnswer x m =>
    if m ∈ s.exchange.answers ∧ m.sender = x.other ∧ m.carrier = .overlay then
      match (s.registry x).offerSentUnder (did x.other) m.offerTx with
      | some a =>
        { s with exchange := { s.exchange with bound := ⟨x, a, m⟩ :: s.exchange.bound } }
      | none => s
    else s
  | .applyAnswer b =>
    if b ∈ s.exchange.bound then
      s.acceptRemoteConnection did b.side b.answer (some b.attempt) (some b.answer.offerTx)
    else s
  | .acceptAnswer x m expected =>
    if m ∈ s.exchange.answers ∧ m.sender = x.other ∧ m.carrier = .external then
      s.acceptRemoteConnection did x m expected none
    else s
  | .elsewhere x e =>
    if e.isElsewhere (did x.other) then s.setRegistry x ((s.registry x).step e) else s

def run (did : Side → Did) (s : Crossing) (es : List CrossingEvent) : Crossing :=
  es.foldl (step did) s

/-! ### What a step does to the pending records -/

/-- The pending record of each node for the other, and the exchange between them. -/
structure View where
  slot : Side → Option (PendingConnectionAttempt × Handshake)
  exchange : Exchange

def view (did : Side → Did) (s : Crossing) : View :=
  ⟨fun x => (s.registry x).pendingRecord (did x.other), s.exchange⟩

def View.opensAnswer (v : View) (x : Side) (o : Offer) (b : PendingConnectionAttempt)
    (abandons : Bool) : View where
  slot := Function.update v.slot x (some (b, .answering))
  exchange := { v.exchange with
    answers := ⟨x, o.carrier, o.txId⟩ :: v.exchange.answers
    answered := Function.update v.exchange.answered x (some o.txId)
    abandoned := Function.update v.exchange.abandoned x abandons }

def View.applies (v : View) (b : BoundAnswer) (owner : OfferOwner) : View where
  slot := Function.update v.slot b.side (some (b.attempt, .offering owner .answered))
  exchange := { v.exchange with applied := b :: v.exchange.applied }

inductive View.Moves (did : Side → Did) (v : View) : View → Prop
  | stay : Moves did v v
  | opened (x : Side) (a : PendingConnectionAttempt) (owner : OfferOwner)
      (hfree : v.slot x = none) :
      Moves did v { v with slot := Function.update v.slot x (some (a, .offering owner .creating)) }
  | sent (x : Side) (a : PendingConnectionAttempt) (owner : OfferOwner) (sdp : String) (txId : Uuid)
      (hslot : v.slot x = some (a, .offering owner .creating))
      (hfresh : txId ∉ v.exchange.sent.map (·.txId)) :
      Moves did v ⟨Function.update v.slot x (some (a, .offering owner (.sent sdp txId))),
        { v.exchange with
          offers := ⟨x, owner, sdp, txId⟩ :: v.exchange.offers
          sent := ⟨x, a, owner, txId⟩ :: v.exchange.sent }⟩
  | countered (x : Side) (o : Offer) (a : PendingConnectionAttempt) (sdp : String) (txId : Uuid)
      (hslot : v.slot x = some (a, .offering .overlay (.sent sdp txId)))
      (hcarrier : o.carrier = .overlay) :
      Moves did v { v with exchange := { v.exchange with
        offers := ⟨x, o.carrier, sdp, txId⟩ :: v.exchange.offers } }
  | decided (d : DecidedYield) (ho : d.offer ∈ v.exchange.offers)
      (hsender : d.offer.sender = d.side.other)
      (hverdict : crossingOfferVerdict d.observed d.offer.carrier (did d.side) (did d.side.other) =
        .yield) :
      Moves did v { v with exchange := { v.exchange with decided := d :: v.exchange.decided } }
  | yielded (d : DecidedYield) (b : PendingConnectionAttempt) (hd : d ∈ v.exchange.decided)
      (hslot : v.slot d.side = some (d.attempt, d.observed)) :
      Moves did v (v.opensAnswer d.side d.offer b d.observed.isSent)
  | vacant (x : Side) (o : Offer) (b : PendingConnectionAttempt) (ho : o ∈ v.exchange.offers)
      (hsender : o.sender = x.other) (hfree : v.slot x = none) :
      Moves did v (v.opensAnswer x o b false)
  | bound (b : BoundAnswer) (hm : b.answer ∈ v.exchange.answers)
      (hsender : b.answer.sender = b.side.other) :
      Moves did v { v with exchange := { v.exchange with bound := b :: v.exchange.bound } }
  | appliedBound (b : BoundAnswer) (owner : OfferOwner) (sdp : String) (hb : b ∈ v.exchange.bound)
      (hslot : v.slot b.side = some (b.attempt, .offering owner (.sent sdp b.answer.offerTx))) :
      Moves did v (v.applies b owner)
  | appliedExternal (b : BoundAnswer) (owner : OfferOwner) (phase : OfferPhase)
      (hm : b.answer ∈ v.exchange.answers) (hsender : b.answer.sender = b.side.other)
      (hphase : phase ≠ .answered)
      (hslot : v.slot b.side = some (b.attempt, .offering owner phase)) :
      Moves did v (v.applies b owner)

end Crossing

namespace ConnectionLifecycleRegistry

variable {r r' : ConnectionLifecycleRegistry} {a b : PendingConnectionAttempt} {p : Did}
  {h : Handshake}

lemma Lawful.pendingRecord_eq_some (hr : r.Lawful) : r.pendingRecord p = some (a, h) ↔
    (∃ t, r.peers.get? p = some (.pending a t)) ∧ r.handshakes.get? p = some h := by
  unfold pendingRecord
  simp only [Option.bind_eq_some_iff, Option.map_eq_some_iff, Prod.mk.injEq]
  constructor
  · rintro ⟨b, hb, h', hh, rfl, rfl⟩
    obtain ⟨t, ht⟩ := pendingAttempt_eq_some.1 hb
    have hpeer : b.peer = p := hr.keyed p _ ht
    have hsignal := (handshake_eq_some.1 hh).2
    exact ⟨⟨t, ht⟩, hpeer ▸ hsignal⟩
  · rintro ⟨⟨t, ht⟩, hsignal⟩
    have hpeer : a.peer = p := hr.keyed p _ ht
    subst hpeer
    exact ⟨a, pendingAttempt_eq_some.2 ⟨t, ht⟩, h, handshake_eq_some.2 ⟨⟨t, ht⟩, hsignal⟩, rfl, rfl⟩

lemma pendingRecord_eq_none (hp : r.peers.get? p = none) : r.pendingRecord p = none := by
  unfold pendingRecord pendingAttempt state
  rw [hp]
  rfl

/-- The record of a peer is read off its own entries. -/
lemma Lawful.pendingRecord_congr (hr : r.Lawful) (hr' : r'.Lawful)
    (hpeers : r'.peers.get? p = r.peers.get? p)
    (hhandshakes : r'.handshakes.get? p = r.handshakes.get? p) :
    r'.pendingRecord p = r.pendingRecord p := by
  refine Option.ext fun ⟨a, h⟩ => ?_
  rw [hr.pendingRecord_eq_some, hr'.pendingRecord_eq_some, hpeers, hhandshakes]

lemma Lawful.pendingRecord_reserveFor (hr : r.Lawful) {t : ℤ}
    (he : r.reserveFor p t h = .ok (a, r')) :
    r.pendingRecord p = none ∧ r'.Lawful ∧ r'.pendingRecord p = some (a, h) := by
  have hstep : r.step (.reserveFor p t h) = r' := by
    rw [ConnectionLifecycleRegistry.step, he]
  have hr' : r'.Lawful := hstep ▸ hr.step _
  obtain ⟨hverdict, rfl, rfl⟩ := reserveFor_eq r p t h he
  refine ⟨pendingRecord_eq_none (reservationVerdict_admissible.1 hverdict).2.1, hr', ?_⟩
  rw [hr'.pendingRecord_eq_some]
  simp

lemma Lawful.pendingRecord_replacePendingIn (hr : r.Lawful) {observed : Handshake} {t : ℤ}
    (he : r.replacePendingIn a observed t = .ok (some b, r')) :
    r.pendingRecord a.peer = some (a, observed) ∧ r'.Lawful ∧
      r'.pendingRecord a.peer = some (b, .answering) := by
  have hstep : r.step (.replacePendingIn a observed t) = r' := by
    rw [ConnectionLifecycleRegistry.step, he]
  have hr' : r'.Lawful := hstep ▸ hr.step _
  rw [replacePendingIn_eq] at he
  split_ifs at he with hobs hlt
  · cases he
  · cases he
    refine ⟨?_, hr', ?_⟩
    · rw [hr.pendingRecord_eq_some]
      exact handshake_eq_some.1 (not_not.1 hobs)
    · rw [hr'.pendingRecord_eq_some]
      simp

/-- An advanced handshake keeps its generation. -/
lemma Lawful.pendingRecord_advance (hr : r.Lawful) {f : Handshake → Option Handshake}
    (he : r.advanceHandshake a f = (true, r')) : ∃ h h', f h = some h' ∧
      r.handshake a = some h ∧ r.pendingRecord a.peer = some (a, h) ∧
      (r'.Lawful → r'.pendingRecord a.peer = some (a, h')) := by
  rcases advanceHandshake_cases r a f with hcase | ⟨h, h', hh, hf, hcase⟩
  · rw [hcase] at he
    cases he
  · rw [hcase] at he
    cases he
    obtain ⟨⟨t, ht⟩, hsignal⟩ := handshake_eq_some.1 hh
    refine ⟨h, h', hf, hh, hr.pendingRecord_eq_some.2 ⟨⟨t, ht⟩, hsignal⟩, fun hr' => ?_⟩
    refine hr'.pendingRecord_eq_some.2 ⟨⟨t, ht⟩, ?_⟩
    simp [BTreeMap.get?_insert]

lemma Lawful.pendingRecord_markOfferSent (hr : r.Lawful) {sdp : String} {txId : Uuid}
    (he : r.markOfferSent a sdp txId = (true, r')) : ∃ owner,
      r.pendingRecord a.peer = some (a, .offering owner .creating) ∧ r'.Lawful ∧
        r'.pendingRecord a.peer = some (a, .offering owner (.sent sdp txId)) := by
  have hstep : r.step (.markOfferSent a sdp txId) = r' := by
    rw [ConnectionLifecycleRegistry.step, he]
  have hr' : r'.Lawful := hstep ▸ hr.step _
  obtain ⟨h, h', hf, -, hslot, hslot'⟩ := hr.pendingRecord_advance he
  cases h with
  | answering => cases hf
  | offering owner phase =>
    cases phase with
    | creating =>
      cases hf
      exact ⟨owner, hslot, hr', hslot' hr'⟩
    | sent => cases hf
    | answered => cases hf

lemma Lawful.pendingRecord_markOfferAnswered (hr : r.Lawful) {txId : Option Uuid}
    (he : r.markOfferAnswered a txId = (true, r')) : ∃ owner phase,
      r.pendingRecord a.peer = some (a, .offering owner phase) ∧ phase ≠ .answered ∧
        (∀ t ∈ txId, ∃ sdp, phase = .sent sdp t) ∧ r'.Lawful ∧
        r'.pendingRecord a.peer = some (a, .offering owner .answered) := by
  have hstep : r.step (.markOfferAnswered a txId) = r' := by
    rw [ConnectionLifecycleRegistry.step, he]
  have hr' : r'.Lawful := hstep ▸ hr.step _
  obtain ⟨h, h', hf, -, hslot, hslot'⟩ := hr.pendingRecord_advance he
  cases h with
  | answering => cases hf
  | offering owner phase =>
    cases phase with
    | creating =>
      simp only [Option.ite_none_right_eq_some, Option.some.injEq] at hf
      obtain ⟨hnone, rfl⟩ := hf
      refine ⟨owner, _, hslot, by simp, fun t ht => ?_, hr', hslot' hr'⟩
      rw [Option.mem_def] at ht
      simp [ht] at hnone
    | sent sdp tx =>
      simp only [Option.ite_none_right_eq_some, Option.some.injEq] at hf
      obtain ⟨hecho, rfl⟩ := hf
      refine ⟨owner, _, hslot, by simp, fun t ht => ⟨sdp, ?_⟩, hr', hslot' hr'⟩
      rw [Option.mem_def] at ht
      simp only [ht, Option.all_some, decide_eq_true_eq] at hecho
      rw [hecho]
    | answered => cases hf

lemma Lawful.pendingRecord_elsewhere (hr : r.Lawful) {e : RegistryEvent}
    (he : e.isElsewhere p = true) : (r.step e).pendingRecord p = r.pendingRecord p := by
  have hmoves := step_moves r e
  have hframe : ∀ q, e.peer? = some q → p ≠ q →
      (r.step e).pendingRecord p = r.pendingRecord p := by
    intro q hq hne
    rw [hq] at hmoves
    have hf := hmoves.frame hne
    exact hr.pendingRecord_congr (hr.step e) hf.1 hf.2
  cases e with
  | close => exact hr.pendingRecord_congr (hr.step .close) rfl rfl
  | expire => cases he
  | _ =>
    refine hframe _ rfl ?_
    rintro rfl
    simp [RegistryEvent.isElsewhere, RegistryEvent.peer?] at he

end ConnectionLifecycleRegistry

namespace Crossing

variable {did : Side → Did} {s : Crossing} {x : Side} {r : ConnectionLifecycleRegistry}

/-- Both registries keep their invariants, and a decided yield is about the other node. -/
structure Lawful (did : Side → Did) (s : Crossing) : Prop where
  registry : ∀ x, (s.registry x).Lawful
  decided : ∀ d ∈ s.exchange.decided, d.attempt.peer = did d.side.other

lemma Lawful.setRegistry (hs : s.Lawful did) (hr : r.Lawful) {ex : Exchange}
    (hex : ex.decided = s.exchange.decided) :
    Lawful did { s.setRegistry x r with exchange := ex } where
  registry y := by
    by_cases hy : y = x
    · subst hy
      simpa [Crossing.setRegistry] using hr
    · simpa [Crossing.setRegistry, hy] using hs.registry y
  decided := by
    rw [hex]
    exact hs.decided

lemma view_setRegistry (did : Side → Did) (s : Crossing) (x : Side)
    (r : ConnectionLifecycleRegistry) : (s.setRegistry x r).view did =
      ⟨Function.update (s.view did).slot x (r.pendingRecord (did x.other)), s.exchange⟩ := by
  unfold view setRegistry
  congr 1
  funext y
  by_cases hy : y = x
  · subst hy
    simp
  · simp [hy]

lemma view_opensAnswer (hr : r.pendingRecord (did x.other) = some (b, .answering)) (o : Offer)
    (abandons : Bool) : ((s.setRegistry x r).opensAnswer x o abandons).view did =
      (s.view did).opensAnswer x o b abandons := by
  have hview := view_setRegistry did s x r
  rw [hr] at hview
  unfold view at hview ⊢
  unfold opensAnswer View.opensAnswer
  simp only [View.mk.injEq] at hview ⊢
  exact ⟨hview.1, rfl⟩

/-- An answer is applied to the pending generation of an unanswered offer, or not at all. -/
lemma acceptRemoteConnection_cases (hs : s.Lawful did) (m : Answer)
    (expected : Option PendingConnectionAttempt) (txId : Option Uuid) {s' : Crossing}
    (h : s.acceptRemoteConnection did x m expected txId = s') :
    s' = s ∨ s'.Lawful did ∧ ∃ a owner phase, (s.view did).slot x = some (a, .offering owner phase) ∧
      (∀ b ∈ expected, b = a) ∧ phase ≠ .answered ∧ (∀ t ∈ txId, ∃ sdp, phase = .sent sdp t) ∧
      s'.view did = (s.view did).applies ⟨x, a, m⟩ owner := by
  unfold acceptRemoteConnection at h
  cases hp : (s.registry x).pendingAttempt (did x.other) with
  | none =>
    simp only [hp] at h
    exact Or.inl h.symm
  | some a =>
    obtain ⟨t, ht⟩ := pendingAttempt_eq_some.1 hp
    have hpeer : a.peer = did x.other := (hs.registry x).keyed _ _ ht
    simp only [hp] at h
    split at h
    · rename_i hexp
      split at h
      · rename_i r' hmark
        obtain ⟨owner, phase, hslot, hphase, htx, hr', hslot'⟩ :=
          (hs.registry x).pendingRecord_markOfferAnswered hmark
        rw [hpeer] at hslot hslot'
        subst h
        refine Or.inr ⟨hs.setRegistry hr' rfl, a, owner, phase, hslot, ?_, hphase, htx, ?_⟩
        · rintro b hb
          rw [Option.mem_def] at hb
          simpa [hb] using hexp
        · have hview := view_setRegistry did s x r'
          rw [hslot'] at hview
          unfold view at hview ⊢
          unfold View.applies
          simp only [View.mk.injEq, and_true] at hview ⊢
          exact hview.1
      · exact Or.inl h.symm
    · exact Or.inl h.symm

/-- Every step is one of the moves. -/
theorem step_moves (hs : s.Lawful did) (e : CrossingEvent) : (s.step did e).Lawful did ∧
    View.Moves did (s.view did) ((s.step did e).view did) := by
  have hstay : s.Lawful did ∧ View.Moves did (s.view did) (s.view did) := ⟨hs, .stay⟩
  cases e with
  | openOffer x t owner =>
    rw [step]
    cases he : (s.registry x).reserveFor (did x.other) t (.offering owner .creating) with
    | error _ => exact hstay
    | ok res =>
      obtain ⟨a, r⟩ := res
      obtain ⟨hfree, hr, hslot⟩ := (hs.registry x).pendingRecord_reserveFor he
      refine ⟨hs.setRegistry hr rfl, ?_⟩
      rw [view_setRegistry, hslot]
      exact .opened x a owner hfree
  | sendOffer x a sdp txId =>
    rw [step]
    split_ifs with hguard
    · obtain ⟨hpeer, hfresh⟩ := hguard
      split
      · rename_i owner phase r hh hmark
        obtain ⟨owner', hslot, hr, hslot'⟩ := (hs.registry x).pendingRecord_markOfferSent hmark
        rw [hpeer] at hslot hslot'
        have howner : owner' = owner := by
          have hrecord := ((hs.registry x).pendingRecord_eq_some.1 hslot).2
          have hsignal := (handshake_eq_some.1 hh).2
          rw [hpeer, hrecord] at hsignal
          cases hsignal
          rfl
        subst howner
        refine ⟨hs.setRegistry hr rfl, ?_⟩
        have hview := view_setRegistry did s x r
        rw [hslot'] at hview
        have hmove : View.Moves did (s.view did) _ := .sent x a owner' sdp txId hslot hfresh
        unfold view at hview hmove ⊢
        simp only [View.mk.injEq] at hview
        rw [← hview.1] at hmove
        exact hmove
      · exact hstay
    · exact hstay
  | decideOffer x o =>
    rw [step]
    split_ifs with hguard
    · split
      · exact hstay
      · rename_i a h hslot
        split
        · exact hstay
        · rename_i sdp txId hverdict
          obtain ⟨rfl, hcarrier⟩ := crossingOfferVerdict_counterOffer hverdict
          exact ⟨⟨hs.registry, hs.decided⟩, .countered x o a sdp txId hslot hcarrier⟩
        · rename_i hverdict
          refine ⟨⟨hs.registry, fun d hd => ?_⟩,
            .decided ⟨x, a, h, o⟩ hguard.1 hguard.2 hverdict⟩
          rcases List.mem_cons.1 hd with rfl | hd
          · obtain ⟨⟨t, ht⟩, -⟩ := (hs.registry x).pendingRecord_eq_some.1 hslot
            exact (hs.registry x).keyed _ _ ht
          · exact hs.decided d hd
    · exact hstay
  | applyYield d t =>
    rw [step]
    split_ifs with hd
    · split
      · rename_i b r he
        obtain ⟨hslot, hr, hslot'⟩ := (hs.registry d.side).pendingRecord_replacePendingIn he
        have hpeer := hs.decided d hd
        rw [hpeer] at hslot hslot'
        refine ⟨hs.setRegistry hr rfl, ?_⟩
        rw [view_opensAnswer hslot']
        exact .yielded d b hd hslot
      · exact hstay
      · exact hstay
    · exact hstay
  | answerVacant x o t =>
    rw [step]
    split_ifs with hguard
    · cases he : (s.registry x).reserveFor (did x.other) t .answering with
      | error _ => exact hstay
      | ok res =>
        obtain ⟨b, r⟩ := res
        obtain ⟨hfree, hr, hslot⟩ := (hs.registry x).pendingRecord_reserveFor he
        refine ⟨hs.setRegistry hr rfl, ?_⟩
        rw [view_opensAnswer hslot]
        exact .vacant x o b hguard.1 hguard.2 hfree
    · exact hstay
  | bindAnswer x m =>
    rw [step]
    split_ifs with hguard
    · split
      · rename_i a hsent
        exact ⟨⟨hs.registry, hs.decided⟩, .bound ⟨x, a, m⟩ hguard.1 hguard.2.1⟩
      · exact hstay
    · exact hstay
  | applyAnswer b =>
    rw [step]
    split_ifs with hb
    · rcases acceptRemoteConnection_cases (x := b.side) hs b.answer (some b.attempt)
        (some b.answer.offerTx) rfl with h | ⟨hr, a, owner, phase, hslot, hexp, -, htx, hview⟩
      · rw [h]
        exact hstay
      · obtain rfl := hexp b.attempt rfl
        obtain ⟨sdp, rfl⟩ := htx b.answer.offerTx rfl
        refine ⟨hr, ?_⟩
        rw [hview]
        exact .appliedBound b owner sdp hb hslot
    · exact hstay
  | acceptAnswer x m expected =>
    rw [step]
    split_ifs with hguard
    · rcases acceptRemoteConnection_cases (x := x) hs m expected none rfl with
        h | ⟨hr, a, owner, phase, hslot, -, hphase, -, hview⟩
      · rw [h]
        exact hstay
      · refine ⟨hr, ?_⟩
        rw [hview]
        exact .appliedExternal ⟨x, a, m⟩ owner phase hguard.1 hguard.2.1 hphase hslot
    · exact hstay
  | elsewhere x e =>
    rw [step]
    split_ifs with he
    · refine ⟨hs.setRegistry ((hs.registry x).step e) rfl, ?_⟩
      rw [view_setRegistry, (hs.registry x).pendingRecord_elsewhere he]
      have hsame : Function.update (s.view did).slot x
          ((s.registry x).pendingRecord (did x.other)) = (s.view did).slot :=
        Function.update_eq_self x _
      rw [hsame]
      exact .stay
    · exact hstay

end Crossing

end Rings
