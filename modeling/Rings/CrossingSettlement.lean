import Rings.CrossingOffers

/-!
Crossing offers settle on one handshake.

A node sends at most one offer, and of two sent offers the tie-break lets one prevail, whichever
node asks. So a node that yields finds the other end still holding the offer it yields to: the
other end could have left it only for an offer that prevails over it.
-/

namespace Rings

namespace Crossing

/-! ### The tie-break -/

/-- Of two sent offers, `e` prevails over `e'`: it was carried out of band and the other was
not, or they were carried alike and it is the offer of the smaller identifier. -/
def Prevails (did : Side → Did) (e e' : SentOffer) : Prop :=
  e'.owner = .overlay ∧ e.owner = .external ∨
    e.owner = e'.owner ∧ (did e.side).toNat < (did e'.side).toNat

lemma Prevails.asymm {did : Side → Did} {e e' : SentOffer} (h : Prevails did e e') :
    ¬Prevails did e' e := by
  rintro (⟨h1, h2⟩ | ⟨h1, h2⟩) <;> rcases h with ⟨h3, h4⟩ | ⟨h3, h4⟩
  · rw [h1] at h4
    cases h4
  · rw [h1, h2] at h3
    cases h3
  · rw [h3, h4] at h1
    cases h1
  · omega

lemma Prevails.total {did : Side → Did} {e e' : SentOffer} (hne : did e.side ≠ did e'.side) :
    Prevails did e e' ∨ Prevails did e' e := by
  have hlt : (did e.side).toNat < (did e'.side).toNat ∨
      (did e'.side).toNat < (did e.side).toNat :=
    Nat.lt_or_gt_of_ne fun h => hne (BitVec.eq_of_toNat_eq h)
  unfold Prevails
  cases e.owner <;> cases e'.owner <;> simp [hlt]

/-- A node yields its own sent offer exactly to an offer that prevails over it. -/
lemma yield_iff_prevails {did : Side → Did} {e e' : SentOffer} {sdp : String} {txId : Uuid} :
    crossingOfferVerdict (.offering e'.owner (.sent sdp txId)) e.owner (did e'.side)
      (did e.side) = .yield ↔ Prevails did e e' := by
  unfold crossingOfferVerdict Prevails
  cases e'.owner <;> cases e.owner <;> simp

/-! ### What holds between the two records -/

/-- The generation that sent `e` still owns its slot, in `Sent` under its transaction or in
`Answered`. -/
def View.Stands (v : View) (e : SentOffer) : Prop :=
  (∃ sdp, v.slot e.side = some (e.attempt, .offering e.owner (.sent sdp e.txId))) ∨
    v.slot e.side = some (e.attempt, .offering e.owner .answered)

def View.Answers (v : View) (x : Side) : Prop := ∃ b, v.slot x = some (b, .answering)

structure View.Settled (did : Side → Did) (v : View) : Prop where
  sentState : ∀ e ∈ v.exchange.sent, v.Stands e ∨ v.Answers e.side
  stateSent : ∀ x a o sdp t, v.slot x = some (a, .offering o (.sent sdp t)) →
    ⟨x, a, o, t⟩ ∈ v.exchange.sent
  sentOnce : ∀ e ∈ v.exchange.sent, ∀ e' ∈ v.exchange.sent, e.side = e'.side → e = e'
  txOnce : ∀ e ∈ v.exchange.sent, ∀ e' ∈ v.exchange.sent, e.txId = e'.txId → e = e'
  offers : ∀ m ∈ v.exchange.offers, ∃ a, ⟨m.sender, a, m.carrier, m.txId⟩ ∈ v.exchange.sent
  answering : ∀ x, v.Answers x → ∃ e ∈ v.exchange.sent, e.side = x.other ∧
    v.exchange.answered x = some e.txId ∧ v.Stands e ∧
      ∀ e' ∈ v.exchange.sent, e'.side = x → Prevails did e e'
  abandoned : ∀ x, v.exchange.abandoned x = true → v.Answers x
  answers : ∀ m ∈ v.exchange.answers, v.Answers m.sender ∧
    v.exchange.answered m.sender = some m.offerTx
  decided : ∀ d ∈ v.exchange.decided, d.offer ∈ v.exchange.offers ∧
    d.offer.sender = d.side.other ∧
    crossingOfferVerdict d.observed d.offer.carrier (did d.side) (did d.side.other) = .yield
  bound : ∀ b ∈ v.exchange.bound, b.answer ∈ v.exchange.answers ∧
    b.answer.sender = b.side.other
  applied : ∀ b ∈ v.exchange.applied, b.answer ∈ v.exchange.answers ∧
    b.answer.sender = b.side.other ∧ ∃ o, v.slot b.side = some (b.attempt, .offering o .answered) ∧
      ⟨b.side, b.attempt, o, b.answer.offerTx⟩ ∈ v.exchange.sent
  appliedOnce : (v.exchange.applied.map (·.side)).Nodup

variable {did : Side → Did} {v v' : View} {x y : Side}

lemma View.Stands.not_answers {e : SentOffer} (h : v.Stands e) : ¬v.Answers e.side := by
  rintro ⟨b, hb⟩
  rcases h with ⟨sdp, h⟩ | h <;> rw [hb] at h <;> cases h

/-- Every copy of an offer of `x` that is on its way carries what `x` sent it under. -/
lemma View.Settled.carrier_eq (h : v.Settled did) {m : Offer} (hm : m ∈ v.exchange.offers)
    {a : PendingConnectionAttempt} {o : OfferOwner} {sdp : String} {txId : Uuid}
    (hslot : v.slot m.sender = some (a, .offering o (.sent sdp txId))) : m.carrier = o := by
  obtain ⟨a', hsent⟩ := h.offers m hm
  exact congrArg SentOffer.owner (h.sentOnce _ hsent _ (h.stateSent _ _ _ _ _ hslot) rfl)

/-- Of two sent offers that cross, exactly one node yields its own. -/
lemma View.Settled.yields_once (h : v.Settled did) {m m' : Offer} (hm : m ∈ v.exchange.offers)
    (hm' : m' ∈ v.exchange.offers) (hne : did m.sender ≠ did m'.sender)
    {a a' : PendingConnectionAttempt} {s s' : Handshake}
    (hslot : v.slot m.sender = some (a, s)) (hslot' : v.slot m'.sender = some (a', s'))
    (hs : s.isSent = true) (hs' : s'.isSent = true) :
    crossingOfferVerdict s m'.carrier (did m.sender) (did m'.sender) = .yield ↔
      crossingOfferVerdict s' m.carrier (did m'.sender) (did m.sender) ≠ .yield := by
  obtain ⟨o, sdp, t, rfl⟩ := Handshake.isSent_iff.1 hs
  obtain ⟨o', sdp', t', rfl⟩ := Handshake.isSent_iff.1 hs'
  rw [h.carrier_eq hm hslot, h.carrier_eq hm' hslot']
  have hyield := @yield_iff_prevails did ⟨m'.sender, a', o', t'⟩ ⟨m.sender, a, o, t⟩ sdp t
  have hyield' := @yield_iff_prevails did ⟨m.sender, a, o, t⟩ ⟨m'.sender, a', o', t'⟩ sdp' t'
  rw [hyield, ne_eq, hyield']
  exact ⟨fun h h' => h.asymm h', fun h' => (Prevails.total hne).resolve_left h'⟩

lemma View.Settled.slot_ne_none (h : v.Settled did) {e : SentOffer}
    (he : e ∈ v.exchange.sent) : v.slot e.side ≠ none := by
  rcases h.sentState e he with (⟨sdp, hs⟩ | hs) | ⟨b, hs⟩ <;> simp [hs]

lemma View.Settled.slot_ne_creating (h : v.Settled did) {e : SentOffer}
    (he : e ∈ v.exchange.sent) (a : PendingConnectionAttempt) (o : OfferOwner) :
    v.slot e.side ≠ some (a, .offering o .creating) := by
  rcases h.sentState e he with (⟨sdp, hs⟩ | hs) | ⟨b, hs⟩ <;> simp [hs]

/-- The key: a node about to answer the offer `e` finds it standing, and prevailing over its
own. The other end would have left `e` only for an offer of this node that prevails over it,
which this node would then still hold, and not yield. -/
lemma View.Settled.stands_of_yield (h : v.Settled did) {e : SentOffer} (he : e ∈ v.exchange.sent)
    (hside : e.side = x.other)
    (hslot : v.slot x = none ∨ ∃ a s, v.slot x = some (a, s) ∧
      crossingOfferVerdict s e.owner (did x) (did x.other) = .yield) :
    v.Stands e ∧ ∀ e' ∈ v.exchange.sent, e'.side = x → Prevails did e e' := by
  have hprevails : ∀ e' ∈ v.exchange.sent, e'.side = x → Prevails did e e' := by
    rintro e' he' rfl
    rcases hslot with hnone | ⟨a, s, hs, hv⟩
    · exact absurd hnone (h.slot_ne_none he')
    · rw [← hside] at hv
      rcases h.sentState e' he' with (⟨sdp, hs'⟩ | hs') | ⟨b, hs'⟩
      · rw [hs] at hs'
        cases hs'
        exact yield_iff_prevails.1 hv
      · rw [hs] at hs'
        cases hs'
        simp [crossingOfferVerdict] at hv
      · rw [hs] at hs'
        cases hs'
        simp [crossingOfferVerdict] at hv
  refine ⟨?_, hprevails⟩
  rcases h.sentState e he with hstands | hanswers
  · exact hstands
  · obtain ⟨e', he', hside', -, -, hprev⟩ := h.answering e.side hanswers
    have hx : e'.side = x := by rw [hside', hside, Side.other_other]
    exact absurd (hprev e he rfl) (hprevails e' he' hx).asymm

lemma View.Settled.not_both_answer (h : v.Settled did) (hx : v.Answers x) :
    ¬v.Answers x.other := by
  obtain ⟨e, -, hside, -, hstands, -⟩ := h.answering x hx
  exact hside ▸ hstands.not_answers

lemma View.Settled.sent_of_answer (h : v.Settled did) {m : Answer} (hm : m ∈ v.exchange.answers)
    (hsender : m.sender = x.other) : ∃ e ∈ v.exchange.sent, e.side = x ∧ e.txId = m.offerTx ∧
      v.Stands e := by
  obtain ⟨hanswers, htx⟩ := h.answers m hm
  obtain ⟨e, he, hside, htx', hstands, -⟩ := h.answering m.sender hanswers
  rw [htx, Option.some.injEq] at htx'
  exact ⟨e, he, by rw [hside, hsender, Side.other_other], htx'.symm, hstands⟩

/-! ### Every step keeps the records settled -/

section Update

variable {σ : Option (PendingConnectionAttempt × Handshake)} {ex : Exchange} {e : SentOffer}

@[simp] lemma View.slot_update_self : View.slot ⟨Function.update v.slot x σ, ex⟩ x = σ :=
  Function.update_self ..

lemma View.slot_update (hne : y ≠ x) :
    View.slot ⟨Function.update v.slot x σ, ex⟩ y = v.slot y :=
  Function.update_of_ne hne ..

lemma View.stands_update (hne : e.side ≠ x) :
    View.Stands ⟨Function.update v.slot x σ, ex⟩ e ↔ v.Stands e := by
  unfold View.Stands
  simp only [Function.update_of_ne hne]

lemma View.answers_update (hne : y ≠ x) :
    View.Answers ⟨Function.update v.slot x σ, ex⟩ y ↔ v.Answers y := by
  unfold View.Answers
  simp only [Function.update_of_ne hne]

lemma View.answers_update_self : View.Answers ⟨Function.update v.slot x σ, ex⟩ x ↔
    ∃ b, σ = some (b, .answering) := by
  unfold View.Answers
  simp only [Function.update_self]

end Update

/-- A record of a node that answers nothing moves on, and the offers it sent still stand. -/
lemma View.Settled.reslot (h : v.Settled did) {σ : Option (PendingConnectionAttempt × Handshake)}
    (hold : ¬v.Answers x) (hnew : ∀ b, σ ≠ some (b, .answering))
    (hstands : ∀ e ∈ v.exchange.sent, e.side = x →
      View.Stands ⟨Function.update v.slot x σ, v.exchange⟩ e)
    (hsent : ∀ a o sdp t, σ = some (a, .offering o (.sent sdp t)) →
      ⟨x, a, o, t⟩ ∈ v.exchange.sent)
    (happlied : ∀ b ∈ v.exchange.applied, b.side ≠ x) :
    View.Settled did ⟨Function.update v.slot x σ, v.exchange⟩ := by
  have hanswers : ∀ y, View.Answers ⟨Function.update v.slot x σ, v.exchange⟩ y ↔ v.Answers y := by
    intro y
    by_cases hy : y = x
    · subst hy
      rw [View.answers_update_self]
      exact iff_of_false (fun ⟨b, hb⟩ => hnew b hb) hold
    · exact View.answers_update hy
  have hkeeps : ∀ e ∈ v.exchange.sent, v.Stands e →
      View.Stands ⟨Function.update v.slot x σ, v.exchange⟩ e := by
    intro e he hs
    by_cases hx : e.side = x
    · exact hstands e he hx
    · exact (View.stands_update hx).2 hs
  refine ⟨fun e he => ?_, fun y a o sdp t hy => ?_, h.sentOnce, h.txOnce, h.offers, fun y hy => ?_,
    fun y hy => ?_, fun m hm => ?_, h.decided, h.bound, fun b hb => ?_, h.appliedOnce⟩
  · exact (h.sentState e he).imp (hkeeps e he) (hanswers e.side).2
  · by_cases hyx : y = x
    · subst hyx
      rw [View.slot_update_self] at hy
      exact hsent a o sdp t hy
    · rw [View.slot_update hyx] at hy
      exact h.stateSent y a o sdp t hy
  · obtain ⟨e, he, hside, htx, hs, hprev⟩ := h.answering y ((hanswers y).1 hy)
    exact ⟨e, he, hside, htx, hkeeps e he hs, hprev⟩
  · exact (hanswers y).2 (h.abandoned y hy)
  · exact ⟨(hanswers _).2 (h.answers m hm).1, (h.answers m hm).2⟩
  · obtain ⟨hm, hsender, o, hslot, hmem⟩ := h.applied b hb
    exact ⟨hm, hsender, o, by rwa [View.slot_update (happlied b hb)], hmem⟩

/-- A node opens an answer for a standing offer that prevails over its own. -/
lemma View.Settled.opensAnswer (h : v.Settled did) {o : Offer} (b : PendingConnectionAttempt)
    (abandons : Bool) (ho : o ∈ v.exchange.offers) (hsender : o.sender = x.other)
    (hslot : v.slot x = none ∨ ∃ a s, v.slot x = some (a, s) ∧
      crossingOfferVerdict s o.carrier (did x) (did x.other) = .yield) :
    (v.opensAnswer x o b abandons).Settled did := by
  obtain ⟨a, he⟩ := h.offers o ho
  obtain ⟨hstands, hprevails⟩ := h.stands_of_yield he hsender hslot
  have hother : ¬v.Answers x.other := hsender ▸ hstands.not_answers
  have hopen : ∀ a s, v.slot x = some (a, s) →
      crossingOfferVerdict s o.carrier (did x) (did x.other) = .yield := by
    rintro a s hs
    rcases hslot with hnone | ⟨a', s', hs', hv⟩
    · rw [hs] at hnone
      cases hnone
    · rw [hs] at hs'
      cases hs'
      exact hv
  have hself : ¬v.Answers x := by
    rintro ⟨b', hb'⟩
    simpa [crossingOfferVerdict] using hopen _ _ hb'
  have hunapplied : ∀ b' ∈ v.exchange.applied, b'.side ≠ x := by
    rintro b' hb' rfl
    obtain ⟨-, -, o', hs, -⟩ := h.applied b' hb'
    simpa [crossingOfferVerdict] using hopen _ _ hs
  have hanswers : (v.opensAnswer x o b abandons).Answers x := ⟨b, Function.update_self ..⟩
  unfold View.opensAnswer at hanswers ⊢
  refine ⟨fun e' he' => ?_, fun y a' o' sdp t hy => ?_, h.sentOnce, h.txOnce, h.offers,
    fun y hy => ?_, fun y hy => ?_, fun m hm => ?_, h.decided, fun b' hb' => ?_, fun b' hb' => ?_,
    h.appliedOnce⟩
  · by_cases hx : e'.side = x
    · exact Or.inr (hx ▸ hanswers)
    · exact (h.sentState e' he').imp (View.stands_update hx).2 (View.answers_update hx).2
  · by_cases hyx : y = x
    · subst hyx
      rw [View.slot_update_self] at hy
      cases hy
    · rw [View.slot_update hyx] at hy
      exact h.stateSent y a' o' sdp t hy
  · rcases Side.eq_or_eq_other x y with rfl | rfl
    · refine ⟨_, he, hsender, Function.update_self .., ?_, hprevails⟩
      exact (View.stands_update (by simp [hsender])).2 hstands
    · exact absurd ((View.answers_update (Side.other_ne x)).1 hy) hother
  · by_cases hyx : y = x
    · exact hyx ▸ hanswers
    · change Function.update v.exchange.abandoned x abandons y = true at hy
      rw [Function.update_of_ne hyx] at hy
      exact (View.answers_update hyx).2 (h.abandoned y hy)
  · rcases List.mem_cons.1 hm with rfl | hm
    · exact ⟨hanswers, Function.update_self ..⟩
    · obtain ⟨hanswer, htx⟩ := h.answers m hm
      have hne : m.sender ≠ x := by
        rintro rfl
        exact hself hanswer
      exact ⟨(View.answers_update hne).2 hanswer, (Function.update_of_ne hne ..).trans htx⟩
  · exact ⟨List.mem_cons_of_mem _ (h.bound b' hb').1, (h.bound b' hb').2⟩
  · obtain ⟨hm, hs, o', hslot', hmem⟩ := h.applied b' hb'
    refine ⟨List.mem_cons_of_mem _ hm, hs, o', ?_, hmem⟩
    rwa [View.slot_update (hunapplied b' hb')]

lemma View.Settled.applies (h : v.Settled did) {b : BoundAnswer} {owner : OfferOwner}
    {phase : OfferPhase} (hm : b.answer ∈ v.exchange.answers)
    (hsender : b.answer.sender = b.side.other) (hphase : phase ≠ .answered)
    (hslot : v.slot b.side = some (b.attempt, .offering owner phase)) :
    (v.applies b owner).Settled did := by
  -- the offer it answers stands, so it is the one in the slot
  obtain ⟨e, he, hside, htx, hstands⟩ := h.sent_of_answer hm hsender
  have hattempt : e.attempt = b.attempt ∧ e.owner = owner := by
    rcases hstands with ⟨sdp, hs⟩ | hs <;> rw [hside, hslot] at hs <;>
      simp only [Option.some.injEq, Prod.mk.injEq, Handshake.offering.injEq] at hs
    · exact ⟨hs.1.symm, hs.2.1.symm⟩
    · exact absurd hs.2.2 hphase
  have hunapplied : ∀ b' ∈ v.exchange.applied, b'.side ≠ b.side := by
    intro b' hb' hx
    obtain ⟨-, -, o', hs, -⟩ := h.applied b' hb'
    rw [hx, hslot] at hs
    simp only [Option.some.injEq, Prod.mk.injEq, Handshake.offering.injEq] at hs
    exact hphase hs.2.2
  have hslot' : (v.applies b owner).slot b.side = some (b.attempt, .offering owner .answered) :=
    Function.update_self ..
  have hre : View.Settled did ⟨Function.update v.slot b.side
      (some (b.attempt, .offering owner .answered)), v.exchange⟩ := by
    refine h.reslot ?_ (by simp) (fun e' he' hx => Or.inr ?_) (by simp) hunapplied
    · rintro ⟨b', hb'⟩
      rw [hslot] at hb'
      cases hb'
    · obtain rfl := h.sentOnce e he e' he' (hside.trans hx.symm)
      rw [hx, hattempt.1, hattempt.2]
      exact Function.update_self ..
  refine ⟨hre.sentState, hre.stateSent, hre.sentOnce, hre.txOnce, hre.offers, hre.answering,
    hre.abandoned, hre.answers, hre.decided, hre.bound, fun b' hb' => ?_, ?_⟩
  · rcases List.mem_cons.1 hb' with rfl | hb'
    · refine ⟨hm, hsender, owner, hslot', ?_⟩
      rw [← htx, ← hattempt.1, ← hattempt.2, ← hside]
      exact he
    · exact hre.applied b' hb'
  · change ((b :: v.exchange.applied).map (·.side)).Nodup
    rw [List.map_cons, List.nodup_cons]
    refine ⟨fun hmem => ?_, h.appliedOnce⟩
    obtain ⟨b', hb', hx⟩ := List.mem_map.1 hmem
    exact hunapplied b' hb' hx

lemma View.Settled.sends (h : v.Settled did) {a : PendingConnectionAttempt} {owner : OfferOwner}
    {sdp : String} {txId : Uuid} (hslot : v.slot x = some (a, .offering owner .creating))
    (hfresh : txId ∉ v.exchange.sent.map (·.txId)) :
    View.Settled did ⟨Function.update v.slot x (some (a, .offering owner (.sent sdp txId))),
      { v.exchange with
        offers := ⟨x, owner, sdp, txId⟩ :: v.exchange.offers
        sent := ⟨x, a, owner, txId⟩ :: v.exchange.sent }⟩ := by
  have hnone : ∀ e ∈ v.exchange.sent, e.side ≠ x := by
    rintro e he rfl
    exact h.slot_ne_creating he a owner hslot
  have hquiet : ∀ y, v.Answers y → y ≠ x := by
    rintro y ⟨b, hb⟩ rfl
    rw [hslot] at hb
    cases hb
  refine ⟨fun e he => ?_, fun y a' o t t' hy => ?_, fun e he e' he' hs => ?_,
    fun e he e' he' hs => ?_, fun m hm => ?_, fun y hy => ?_, fun y hy => ?_, fun m hm => ?_,
    fun d hd => ?_, h.bound, fun b hb => ?_, h.appliedOnce⟩
  · rcases List.mem_cons.1 he with rfl | he
    · exact Or.inl (Or.inl ⟨sdp, Function.update_self ..⟩)
    · exact (h.sentState e he).imp (View.stands_update (hnone e he)).2
        (View.answers_update (hnone e he)).2
  · by_cases hyx : y = x
    · subst hyx
      rw [View.slot_update_self] at hy
      cases hy
      exact List.mem_cons_self
    · rw [View.slot_update hyx] at hy
      exact List.mem_cons_of_mem _ (h.stateSent y a' o t t' hy)
  · rcases List.mem_cons.1 he with rfl | he <;> rcases List.mem_cons.1 he' with rfl | he'
    · rfl
    · exact absurd hs.symm (hnone e' he')
    · exact absurd hs (hnone e he)
    · exact h.sentOnce e he e' he' hs
  · rcases List.mem_cons.1 he with rfl | he <;> rcases List.mem_cons.1 he' with rfl | he'
    · rfl
    · exact absurd (List.mem_map.2 ⟨e', he', hs.symm⟩) hfresh
    · exact absurd (List.mem_map.2 ⟨e, he, hs⟩) hfresh
    · exact h.txOnce e he e' he' hs
  · rcases List.mem_cons.1 hm with rfl | hm
    · exact ⟨a, List.mem_cons_self⟩
    · obtain ⟨a', ha'⟩ := h.offers m hm
      exact ⟨a', List.mem_cons_of_mem _ ha'⟩
  · have hyx : y ≠ x := by
      rintro rfl
      obtain ⟨b, hb⟩ := View.answers_update_self.1 hy
      cases hb
    obtain ⟨e, he, hside, htx, hs, hprev⟩ := h.answering y ((View.answers_update hyx).1 hy)
    refine ⟨e, List.mem_cons_of_mem _ he, hside, htx, (View.stands_update (hnone e he)).2 hs, ?_⟩
    intro e' he' hside'
    rcases List.mem_cons.1 he' with rfl | he'
    · exact absurd hside'.symm hyx
    · exact hprev e' he' hside'
  · have hy' := h.abandoned y hy
    exact (View.answers_update (hquiet y hy')).2 hy'
  · obtain ⟨hm, htx⟩ := h.answers m hm
    exact ⟨(View.answers_update (hquiet _ hm)).2 hm, htx⟩
  · obtain ⟨ho, hrest⟩ := h.decided d hd
    exact ⟨List.mem_cons_of_mem _ ho, hrest⟩
  · obtain ⟨hm, hs, o, hslot', hmem⟩ := h.applied b hb
    refine ⟨hm, hs, o, ?_, List.mem_cons_of_mem _ hmem⟩
    rwa [View.slot_update (hnone _ hmem)]

/-- One move keeps the records settled. -/
theorem View.Settled.moves (h : v.Settled did) (hm : View.Moves did v v') : v'.Settled did := by
  cases hm with
  | stay => exact h
  | opened x a owner hfree =>
    refine h.reslot ?_ (by simp) (fun e he hx => ?_) (by simp) ?_
    · rintro ⟨b, hb⟩
      rw [hfree] at hb
      cases hb
    · exact absurd (hx ▸ hfree) (h.slot_ne_none he)
    · rintro b hb rfl
      obtain ⟨-, -, o, hs, -⟩ := h.applied b hb
      rw [hfree] at hs
      cases hs
  | sent x a owner sdp txId hslot hfresh => exact h.sends hslot hfresh
  | countered x o a sdp txId hslot hcarrier =>
    refine ⟨h.sentState, h.stateSent, h.sentOnce, h.txOnce, fun m hm => ?_, h.answering,
      h.abandoned, h.answers, fun d hd => ?_, h.bound, h.applied, h.appliedOnce⟩
    · rcases List.mem_cons.1 hm with rfl | hm
      · exact ⟨a, hcarrier ▸ h.stateSent x a .overlay sdp txId hslot⟩
      · exact h.offers m hm
    · obtain ⟨ho, hrest⟩ := h.decided d hd
      exact ⟨List.mem_cons_of_mem _ ho, hrest⟩
  | decided d ho hsender hverdict =>
    refine ⟨h.sentState, h.stateSent, h.sentOnce, h.txOnce, h.offers, h.answering, h.abandoned,
      h.answers, fun d' hd' => ?_, h.bound, h.applied, h.appliedOnce⟩
    rcases List.mem_cons.1 hd' with rfl | hd'
    · exact ⟨ho, hsender, hverdict⟩
    · exact h.decided d' hd'
  | yielded d b hd hslot =>
    obtain ⟨ho, hsender, hverdict⟩ := h.decided d hd
    exact h.opensAnswer b _ ho hsender (Or.inr ⟨_, _, hslot, hverdict⟩)
  | vacant x o b ho hsender hfree => exact h.opensAnswer b false ho hsender (Or.inl hfree)
  | bound b hm hsender =>
    refine ⟨h.sentState, h.stateSent, h.sentOnce, h.txOnce, h.offers, h.answering, h.abandoned,
      h.answers, h.decided, fun b' hb' => ?_, h.applied, h.appliedOnce⟩
    rcases List.mem_cons.1 hb' with rfl | hb'
    · exact ⟨hm, hsender⟩
    · exact h.bound b' hb'
  | appliedBound b owner sdp hb hslot =>
    obtain ⟨hm, hsender⟩ := h.bound b hb
    exact h.applies hm hsender (by simp) hslot
  | appliedExternal b owner phase hm hsender hphase hslot => exact h.applies hm hsender hphase hslot

lemma new_lawful (did : Side → Did) (bounds : Side → LifecycleBounds) :
    (new bounds).Lawful did where
  registry x := ConnectionLifecycleRegistry.new_lawful (bounds x)
  decided := by simp [new, Exchange.empty]

lemma new_settled (did : Side → Did) (bounds : Side → LifecycleBounds) :
    ((new bounds).view did).Settled did := by
  have hslot : ∀ x, ((new bounds).view did).slot x = none := fun _ => rfl
  have hexchange : ((new bounds).view did).exchange = .empty := rfl
  constructor <;> simp [View.Answers, hslot, hexchange, Exchange.empty]

/-- Every state two nodes reach is settled. -/
theorem run_settled (did : Side → Did) (bounds : Side → LifecycleBounds)
    (es : List CrossingEvent) : (((new bounds).run did es).view did).Settled did := by
  have hrun : ∀ (es : List CrossingEvent) (s : Crossing), s.Lawful did →
      (s.view did).Settled did → ((s.run did es).view did).Settled did := by
    intro es
    induction es with
    | nil => exact fun _ _ h => h
    | cons e es ih =>
      intro s hs h
      obtain ⟨hlawful, hmove⟩ := step_moves hs e
      exact ih _ hlawful (h.moves hmove)
  exact hrun es _ (new_lawful did bounds) (new_settled did bounds)

/-- **Crossing offers settle on one handshake.** In every state two nodes reach, they do not both
answer, nor have both abandoned a sent offer; of two sent offers that cross exactly one node
yields; each node applied at most one answer, to the generation that sent the offer it answers;
and while a node answers an offer, the generation that sent it is pending in `Sent` under its
transaction or in `Answered`. -/
theorem crossing_offers_settle (did : Side → Did) (bounds : Side → LifecycleBounds)
    (es : List CrossingEvent) :
    let v := ((new bounds).run did es).view did
    ¬(v.Answers .left ∧ v.Answers .right) ∧
      ¬(v.exchange.abandoned .left = true ∧ v.exchange.abandoned .right = true) ∧
      (∀ m ∈ v.exchange.offers, ∀ m' ∈ v.exchange.offers, did m.sender ≠ did m'.sender →
        ∀ a s a' s', v.slot m.sender = some (a, s) → v.slot m'.sender = some (a', s') →
        s.isSent = true → s'.isSent = true →
        (crossingOfferVerdict s m'.carrier (did m.sender) (did m'.sender) = .yield ↔
          crossingOfferVerdict s' m.carrier (did m'.sender) (did m.sender) ≠ .yield)) ∧
      (∀ b ∈ v.exchange.applied, b.answer.sender = b.side.other ∧
        ∃ o, ⟨b.side, b.attempt, o, b.answer.offerTx⟩ ∈ v.exchange.sent) ∧
      (v.exchange.applied.map (·.side)).Nodup ∧
      ∀ x, v.Answers x → ∃ e ∈ v.exchange.sent, e.side = x.other ∧
        v.exchange.answered x = some e.txId ∧ v.Stands e := by
  intro v
  have h : v.Settled did := run_settled did bounds es
  have hboth : ¬(v.Answers .left ∧ v.Answers .right) :=
    fun ⟨hleft, hright⟩ => h.not_both_answer hleft hright
  refine ⟨hboth, ?_, fun m hm m' hm' hne a s a' s' hslot hslot' hs hs' =>
    h.yields_once hm hm' hne hslot hslot' hs hs', fun b hb => ?_, h.appliedOnce,
    fun x hx => ?_⟩
  · rintro ⟨hleft, hright⟩
    exact hboth ⟨h.abandoned _ hleft, h.abandoned _ hright⟩
  · obtain ⟨-, hsender, o, -, hmem⟩ := h.applied b hb
    exact ⟨hsender, o, hmem⟩
  · obtain ⟨e, he, hside, htx, hstands, -⟩ := h.answering x hx
    exact ⟨e, he, hside, htx, hstands⟩

/-- Both nodes send an overlay offer; the larger identifier yields to the counter-offer, and its
answer is applied, while copies of the offers are still on their way. -/
example :
    let did : Side → Did := fun x => if x = .left then 1 else 2
    let s := (new fun _ => .new 1 1).run did [
      .openOffer .left 0 .overlay, .openOffer .right 0 .overlay,
      .sendOffer .left ⟨2, 1⟩ "l" 10, .sendOffer .right ⟨1, 1⟩ "r" 20,
      .decideOffer .left ⟨.right, .overlay, "r", 20⟩,
      .decideOffer .right ⟨.left, .overlay, "l", 10⟩,
      .applyYield ⟨.right, ⟨1, 1⟩, .offering .overlay (.sent "r" 20), ⟨.left, .overlay, "l", 10⟩⟩ 0,
      .decideOffer .left ⟨.right, .overlay, "r", 20⟩,
      .bindAnswer .left ⟨.right, .overlay, 10⟩,
      .applyAnswer ⟨.left, ⟨2, 1⟩, ⟨.right, .overlay, 10⟩⟩]
    (s.view did).slot .left = some (⟨2, 1⟩, .offering .overlay .answered) ∧
      (s.view did).slot .right = some (⟨1, 2⟩, .answering) := by decide +kernel

end Crossing

end Rings
