import Rings.AppInbox

/-!
What the application inbox keeps: the index lists the queued facts, the weight is what messages and
rooms hold, messages are taken in their order, and each peer's facts tell its story.
-/

namespace Rings.AppInbox

open PeerStory (Fact View Consistent)

variable {H F : Type}

/-! ### The facts of one peer -/

/-- The queued facts of `peer`, by position. -/
def peerFacts (peer : Did) (items : List (ℕ × Queued H F)) : List (ℕ × Fact) :=
  items.filterMap fun item => match item.2.delivery with
    | .event e => if e.peer = peer then some (item.1, e.fact) else none
    | .message _ => none

def indexOf (facts : List (ℕ × Fact)) : PeerFacts where
  lifecycle := facts.filterMap fun (position, fact) => match fact with
    | .admitted => some (position, true)
    | .retired => some (position, false)
    | .dropped => none
  drops := facts.filterMap fun (position, fact) =>
    if fact = .dropped then some position else none

theorem peerFacts_append (peer : Did) (items more : List (ℕ × Queued H F)) :
    peerFacts peer (items ++ more) = peerFacts peer items ++ peerFacts peer more :=
  List.filterMap_append

theorem indexOf_append (facts more : List (ℕ × Fact)) :
    indexOf (facts ++ more) = ⟨(indexOf facts).lifecycle ++ (indexOf more).lifecycle,
      (indexOf facts).drops ++ (indexOf more).drops⟩ := by
  simp [indexOf]

theorem mem_indexOf_lifecycle {facts : List (ℕ × Fact)} {position : ℕ} {b : Bool}
    (h : (position, b) ∈ (indexOf facts).lifecycle) : ∃ f, (position, f) ∈ facts := by
  obtain ⟨⟨position', f⟩, hmem, hf⟩ := List.mem_filterMap.1 h
  cases f <;> simp only [Option.some.injEq, Prod.mk.injEq, reduceCtorEq] at hf <;>
    exact ⟨_, hf.1 ▸ hmem⟩

theorem mem_indexOf_drops {facts : List (ℕ × Fact)} {position : ℕ} :
    position ∈ (indexOf facts).drops ↔ (position, .dropped) ∈ facts := by
  simp [indexOf]

theorem indexOf_isEmpty {facts : List (ℕ × Fact)} : (indexOf facts).isEmpty = true ↔ facts = [] := by
  constructor
  · intro h
    simp only [PeerFacts.isEmpty, Bool.and_eq_true, List.isEmpty_iff] at h
    rcases List.eq_nil_or_concat' facts with rfl | ⟨facts, ⟨position, f⟩, rfl⟩
    · rfl
    · rw [indexOf_append] at h
      cases f <;> simp [indexOf] at h
  · rintro rfl
    rfl

def Ascending (facts : List (ℕ × Fact)) : Prop := facts.Pairwise fun a b => a.1 < b.1

theorem ascending_concat {facts : List (ℕ × Fact)} {last : ℕ × Fact}
    (h : Ascending (facts ++ [last])) : ∀ a ∈ facts, a.1 < last.1 := fun a ha =>
  (List.pairwise_append.1 h).2.2 a ha last (List.mem_singleton.2 rfl)

theorem indexOf_lifecycle {f : Fact} (hf : f ≠ .dropped) (position : ℕ) :
    indexOf [(position, f)] = ⟨[(position, f = .admitted)], []⟩ := by
  cases f with
  | admitted => rfl
  | retired => rfl
  | dropped => exact absurd rfl hf

theorem indexOf_drop (position : ℕ) : indexOf [(position, .dropped)] = ⟨[], [position]⟩ := rfl

/-- A drop waits since the last admission or retirement just where a drop waits last. -/
theorem waits_iff {facts : List (ℕ × Fact)} (h : Ascending facts) :
    ((indexOf facts).drops.getLast?.any fun last =>
      (indexOf facts).lastLifecycle.all (last > ·)) = true ↔
      (facts.map (·.2)).getLast? = some .dropped := by
  rcases List.eq_nil_or_concat' facts with rfl | ⟨facts, ⟨position, f⟩, rfl⟩
  · simp [indexOf]
  · have hlt := ascending_concat h
    rw [indexOf_append]
    by_cases hf : f = .dropped
    · subst hf
      have hall : (indexOf facts).lastLifecycle.all (position > ·) = true := by
        cases hlast : (indexOf facts).lastLifecycle with
        | none => rfl
        | some b =>
          obtain ⟨⟨b', admitted⟩, hb, rfl⟩ := Option.map_eq_some_iff.1 hlast
          obtain ⟨f, hf⟩ := mem_indexOf_lifecycle (List.mem_of_getLast? hb)
          simpa using hlt _ hf
      simpa [indexOf_drop, PeerFacts.lastLifecycle] using hall
    · refine iff_of_false ?_ (by simpa using hf)
      cases hlast : (indexOf facts).drops.getLast? with
      | none => simp [indexOf_lifecycle hf, hlast]
      | some b =>
        have := hlt _ (mem_indexOf_drops.1 (List.mem_of_getLast? hlast))
        simp only [indexOf_lifecycle hf, List.append_nil, hlast, PeerFacts.lastLifecycle]
        simp only [List.getLast?_append, List.getLast?_singleton, Option.some_or, Option.map_some,
          Option.any_some, Option.all_some, decide_eq_true_eq]
        omega

/-- Behind the last admission only drops wait. -/
theorem exists_admission {facts : List (ℕ × Fact)} {position : ℕ}
    (h : (indexOf facts).lifecycle.getLast? = some (position, true)) :
    ∃ before drops, facts = before ++ (position, .admitted) :: drops ∧
      ∀ d ∈ drops, d.2 = .dropped := by
  induction facts using List.reverseRecOn with
  | nil => simp [indexOf] at h
  | append_singleton facts last ih =>
    obtain ⟨position', f⟩ := last
    rw [indexOf_append] at h
    by_cases hf : f = .dropped
    · subst hf
      obtain ⟨before, drops, rfl, hdrops⟩ := ih (by simpa [indexOf_drop] using h)
      refine ⟨before, drops ++ [(position', .dropped)], by simp, fun d hd => ?_⟩
      rcases List.mem_append.1 hd with hd | hd
      · exact hdrops d hd
      · rw [List.mem_singleton.1 hd]
    · simp only [indexOf_lifecycle hf, List.getLast?_append, List.getLast?_singleton,
        Option.some_or, Option.some.injEq, Prod.mk.injEq, decide_eq_true_eq] at h
      obtain ⟨rfl, rfl⟩ := h
      exact ⟨facts, [], rfl, by simp⟩

theorem lastLifecycle_iff (facts : List (ℕ × Fact)) :
    (∃ position, (indexOf facts).lifecycle.getLast? = some (position, true)) ↔
      ((facts.map (·.2)).filter (· ≠ .dropped)).getLast? = some .admitted := by
  induction facts using List.reverseRecOn with
  | nil => simp [indexOf]
  | append_singleton facts last ih =>
    obtain ⟨position, f⟩ := last
    rw [indexOf_append]
    by_cases hf : f = .dropped
    · subst hf
      simpa [indexOf_drop] using ih
    · simp [indexOf_lifecycle hf, List.filter_append, hf]

/-- What is withdrawn is the admission and the drops behind it. -/
theorem beforeAdmission_eq (before drops : List (ℕ × Fact)) (position : ℕ)
    (h : ∀ d ∈ drops, d.2 = .dropped) :
    PeerStory.beforeAdmission ((before ++ (position, .admitted) :: drops).map (·.2)) =
      before.map (·.2) := by
  have hdrops : ∀ f ∈ (drops.map (·.2)).reverse, (decide (f ≠ Fact.admitted)) = true := by
    intro f hf
    obtain ⟨d, hd, rfl⟩ := List.mem_map.1 (List.mem_reverse.1 hf)
    simp [h d hd]
  unfold PeerStory.beforeAdmission
  rw [List.map_append, List.map_cons, List.reverse_append, List.reverse_cons, List.append_assoc,
    List.dropWhile_append_of_pos hdrops]
  simp

/-- The index of drops alone. -/
theorem indexOf_drops {drops : List (ℕ × Fact)} (h : ∀ d ∈ drops, d.2 = .dropped) :
    indexOf drops = ⟨[], drops.map (·.1)⟩ := by
  induction drops with
  | nil => rfl
  | cons d drops ih =>
    obtain ⟨position, f⟩ := d
    obtain rfl : f = .dropped := h _ List.mem_cons_self
    have := indexOf_append [(position, .dropped)] drops
    rw [ih fun d hd => h d (List.mem_cons_of_mem _ hd)] at this
    simpa [indexOf_drop] using this

section Withdrawal

variable {before drops : List (ℕ × Fact)} {admittedAt : ℕ}

/-- The index of the facts with an admission that only drops follow. -/
theorem indexOf_admission (hdrops : ∀ d ∈ drops, d.2 = .dropped) :
    indexOf (before ++ (admittedAt, .admitted) :: drops) =
      ⟨(indexOf before).lifecycle ++ [(admittedAt, true)],
        (indexOf before).drops ++ drops.map (·.1)⟩ := by
  have hcons := indexOf_append [(admittedAt, .admitted)] drops
  rw [List.singleton_append] at hcons
  rw [indexOf_append, hcons, indexOf_drops hdrops]
  rfl

/-- The drops behind the admission are those after it, and the others come before. -/
theorem drops_admission (hasc : Ascending (before ++ (admittedAt, .admitted) :: drops))
    (hdrops : ∀ d ∈ drops, d.2 = .dropped) :
    (indexOf (before ++ (admittedAt, .admitted) :: drops)).drops.filter (· > admittedAt) =
        drops.map (·.1) ∧
      (indexOf (before ++ (admittedAt, .admitted) :: drops)).drops.filter (· < admittedAt) =
        (indexOf before).drops := by
  rw [Ascending, List.pairwise_append, List.pairwise_cons] at hasc
  obtain ⟨-, ⟨hbehind, -⟩, hahead⟩ := hasc
  have hbelow : ∀ position ∈ (indexOf before).drops, position < admittedAt := fun position hp =>
    hahead _ (mem_indexOf_drops.1 hp) _ List.mem_cons_self
  have habove : ∀ position ∈ drops.map (·.1), admittedAt < position := by
    intro position hp
    obtain ⟨d, hd, rfl⟩ := List.mem_map.1 hp
    exact hbehind d hd
  rw [indexOf_admission hdrops, List.filter_append, List.filter_append]
  constructor
  · rw [List.filter_eq_nil_iff.2, List.nil_append, List.filter_eq_self.2]
    · intro position hp
      simpa using habove position hp
    · intro position hp
      simpa using (hbelow position hp).le
  · rw [List.filter_eq_self.2, List.filter_eq_nil_iff.2, List.append_nil]
    · intro position hp
      simpa using (habove position hp).le
    · intro position hp
      simpa using hbelow position hp

/-- What remains without the admission and the drops behind it. -/
theorem filter_admission (hasc : Ascending (before ++ (admittedAt, .admitted) :: drops)) :
    (before ++ (admittedAt, Fact.admitted) :: drops).filter
      (fun a => a.1 ∉ admittedAt :: drops.map (·.1)) = before := by
  rw [Ascending, List.pairwise_append, List.pairwise_cons] at hasc
  obtain ⟨-, ⟨hbehind, -⟩, hahead⟩ := hasc
  rw [List.filter_append, List.filter_eq_self.2, List.filter_eq_nil_iff.2, List.append_nil]
  · intro a ha
    rcases List.mem_cons.1 ha with rfl | ha
    · simp
    · simp only [decide_not, Bool.not_eq_true', decide_eq_false_iff_not, not_not]
      exact List.mem_cons_of_mem _ (List.mem_map_of_mem ha)
  · intro a ha
    have hlt : a.1 < admittedAt := hahead a ha _ List.mem_cons_self
    have hne : a.1 ∉ admittedAt :: drops.map (·.1) := by
      intro hmem
      rcases List.mem_cons.1 hmem with heq | hmem
      · omega
      · obtain ⟨d, hd, heq⟩ := List.mem_map.1 hmem
        have := hbehind d hd
        simp only at this
        omega
    simpa using hne

end Withdrawal

/-! ### The queue -/

def messagesOf (items : List (ℕ × Queued H F)) : List (Queued H F) :=
  items.filterMap fun item => match item.2.delivery with
    | .message _ => some item.2
    | .event _ => none

theorem messagesOf_append (items more : List (ℕ × Queued H F)) :
    messagesOf (items ++ more) = messagesOf items ++ messagesOf more :=
  List.filterMap_append

theorem ascending_peerFacts (peer : Did) {items : List (ℕ × Queued H F)}
    (h : items.Pairwise fun a b => a.1 < b.1) : Ascending (peerFacts peer items) := by
  have hkey : ∀ item : ℕ × Queued H F, ∀ a ∈ (match item.2.delivery with
      | .event e => if e.peer = peer then some (item.1, e.fact) else none
      | .message _ => none), a.1 = item.1 := by
    intro item a ha
    split at ha
    · split at ha
      · rw [← Option.some.inj ha]
      · cases ha
    · cases ha
  refine List.pairwise_filterMap.2 (h.imp fun {a b} hlt x hx y hy => ?_)
  rw [hkey a x hx, hkey b y hy]
  exact hlt

/-- The index lists the queued facts, and the next position is free. -/
structure Indexed (q : Queue H F) : Prop where
  next : q.next = min q.appended u64Max
  below : ∀ item ∈ q.items.entries, item.1 < q.appended
  index : ∀ peer, q.factsOf peer = indexOf (peerFacts peer q.items.entries)
  present : ∀ peer facts, q.facts.get? peer = some facts → facts.isEmpty = false
  facts : ∀ item ∈ q.items.entries, ∀ e, item.2.delivery = .event e →
    item.2.weight = 0 ∧ item.2.consumed = none

variable {q q' : Queue H F}

theorem insertInto_of_lt {K V : Type*} [LinearOrder K] {l : List (K × V)} {k : K} (v : V)
    (h : ∀ kv ∈ l, kv.1 < k) : BTreeMap.insertInto k v l = l ++ [(k, v)] := by
  induction l with
  | nil => rfl
  | cons kv l ih =>
    have hlt := h kv List.mem_cons_self
    rw [BTreeMap.insertInto, if_neg hlt.not_gt, if_neg hlt.ne',
      ih fun kv' h' => h kv' (List.mem_cons_of_mem kv h'), List.cons_append]

/-- The next position is the number of items appended, as long as it can be counted. -/
theorem Indexed.next_eq (h : Indexed q) (hlt : q.appended < 2 ^ 64) : q.next = q.appended := by
  rw [h.next, u64Max]
  omega

theorem Indexed.entries_append (h : Indexed q) (hlt : q.appended < 2 ^ 64) (x : Queued H F) :
    (q.append x).items.entries = q.items.entries ++ [(q.appended, x)] := by
  simp only [Queue.append, BTreeMap.insert, h.next_eq hlt]
  exact insertInto_of_lt x h.below

theorem Indexed.next_append (h : Indexed q) (x : Queued H F) :
    (q.append x).next = min (q.append x).appended u64Max := by
  simp only [Queue.append, saturatingAdd, h.next]
  omega

theorem Indexed.below_append (h : Indexed q) (hlt : q.appended < 2 ^ 64) (x : Queued H F) :
    ∀ item ∈ (q.append x).items.entries, item.1 < (q.append x).appended := by
  intro item hitem
  rw [h.entries_append hlt, List.mem_append, List.mem_singleton] at hitem
  simp only [Queue.append]
  rcases hitem with hitem | rfl
  · exact (h.below item hitem).trans (Nat.lt_succ_self _)
  · exact Nat.lt_succ_self _

theorem factsOf_setFacts (peer other : Did) (facts : PeerFacts) :
    (q.setFacts peer facts).factsOf other = if other = peer then facts else q.factsOf other := by
  have hempty : facts.isEmpty = true → facts = .empty := by
    obtain ⟨lifecycle, drops⟩ := facts
    simp [PeerFacts.isEmpty, PeerFacts.empty]
  simp only [Queue.setFacts, Queue.factsOf]
  by_cases he : facts.isEmpty = true
  · rw [if_pos he, BTreeMap.get?_remove]
    split
    · rw [hempty he]
      rfl
    · rfl
  · rw [if_neg he, BTreeMap.get?_insert]
    split <;> rfl

theorem present_setFacts (h : Indexed q) (peer : Did) (facts : PeerFacts) (other : Did)
    (held : PeerFacts) (hheld : (q.setFacts peer facts).facts.get? other = some held) :
    held.isEmpty = false := by
  simp only [Queue.setFacts] at hheld
  by_cases he : facts.isEmpty = true
  · rw [if_pos he, BTreeMap.get?_remove] at hheld
    split at hheld
    · cases hheld
    · exact h.present other held hheld
  · rw [if_neg he, BTreeMap.get?_insert] at hheld
    split at hheld
    · cases hheld
      simpa using he
    · exact h.present other held hheld

theorem Indexed.push (h : Indexed q) (hlt : q.appended < 2 ^ 64) (m : ApplicationMessage H F)
    (weight : ℕ) (consumed : Option ℕ) : Indexed (q.append ⟨.message m, weight, consumed⟩) := by
  have hentries := h.entries_append hlt ⟨.message m, weight, consumed⟩
  refine ⟨h.next_append _, h.below_append hlt _, fun peer => ?_, h.present, fun item hitem e he => ?_⟩
  · have hindex := h.index peer
    rw [hentries, peerFacts_append]
    simpa [peerFacts, Queue.factsOf, Queue.append] using hindex
  · rw [hentries, List.mem_append, List.mem_singleton] at hitem
    rcases hitem with hitem | rfl
    · exact h.facts item hitem e he
    · cases he

def waitingFacts (q : Queue H F) (peer : Did) : List Fact :=
  (peerFacts peer q.items.entries).map (·.2)

/-- `event` is recorded: the facts of its peer that wait change as the story says, and nothing else
does. -/
structure Recorded (q q' : Queue H F) (event : SwarmEvent) : Prop where
  indexed : Indexed q'
  told : waitingFacts q' event.peer = PeerStory.announce (waitingFacts q event.peer) event.fact
  others : ∀ peer ≠ event.peer, waitingFacts q' peer = waitingFacts q peer
  messages : messagesOf q'.items.entries = messagesOf q.items.entries
  weight : q'.weight = q.weight
  claim : q'.claim = q.claim
  dropped : q'.dropped = q.dropped

theorem recorded_absorbed (h : Indexed q) {event : SwarmEvent}
    (hann : PeerStory.announce (waitingFacts q event.peer) event.fact =
      waitingFacts q event.peer) : Recorded q q event :=
  ⟨h, hann.symm, fun _ _ => rfl, rfl, rfl, rfl, rfl⟩

theorem recorded_append (h : Indexed q) (hlt : q.appended < 2 ^ 64) {event : SwarmEvent}
    (hann : PeerStory.announce (waitingFacts q event.peer) event.fact =
      waitingFacts q event.peer ++ [event.fact]) : Recorded q (q.appendFact event) event := by
  have hentries : (q.appendFact event).items.entries =
      q.items.entries ++ [(q.appended, ⟨.event event, 0, none⟩)] := h.entries_append hlt _
  have hown : peerFacts event.peer (q.appendFact event).items.entries =
      peerFacts event.peer q.items.entries ++ [(q.appended, event.fact)] := by
    rw [hentries, peerFacts_append]
    simp [peerFacts]
  have hother : ∀ peer ≠ event.peer, peerFacts peer (q.appendFact event).items.entries =
      peerFacts peer q.items.entries := by
    intro peer hpeer
    rw [hentries, peerFacts_append]
    simp [peerFacts, hpeer.symm]
  have hindex := h.index event.peer
  refine ⟨⟨h.next_append ⟨.event event, 0, none⟩, h.below_append hlt ⟨.event event, 0, none⟩,
    fun peer => ?_, fun peer facts hfacts => ?_, fun item hitem e he => ?_⟩, ?_,
    fun peer hpeer => ?_, ?_, rfl, rfl, rfl⟩
  · by_cases hpeer : peer = event.peer
    · subst hpeer
      rw [hown, indexOf_append]
      simp only [Queue.appendFact, Queue.append, Queue.factsOf, BTreeMap.get?_insert, if_true,
        Option.getD_some, h.next_eq hlt]
      rw [Queue.factsOf] at hindex
      rw [hindex]
      cases event <;> simp [indexOf_lifecycle, indexOf_drop, SwarmEvent.fact]
    · rw [hother peer hpeer]
      simpa [Queue.appendFact, Queue.append, Queue.factsOf, BTreeMap.get?_insert, hpeer]
        using h.index peer
  · simp only [Queue.appendFact, Queue.append, BTreeMap.get?_insert] at hfacts
    split at hfacts
    · cases event <;> cases hfacts <;> simp [PeerFacts.isEmpty]
    · exact h.present peer facts hfacts
  · rw [hentries, List.mem_append, List.mem_singleton] at hitem
    rcases hitem with hitem | rfl
    · exact h.facts item hitem e he
    · exact ⟨rfl, rfl⟩
  · rw [hann, waitingFacts, hown, List.map_append]
    rfl
  · rw [waitingFacts, hother peer hpeer, waitingFacts]
  · rw [hentries, messagesOf_append]
    simp [messagesOf]

theorem filterMap_filter_of_forall {α β : Type*} {g : α → Option β} {p : α → Bool} {l : List α}
    (h : ∀ a ∈ l, (g a).isSome → p a) : (l.filter p).filterMap g = l.filterMap g := by
  rw [List.filterMap_filter]
  refine List.filterMap_congr fun a ha => ?_
  cases hg : g a with
  | none => simp
  | some b => rw [if_pos (h a ha (by simp [hg]))]

/-- Items at one position are one item. -/
theorem eq_of_position {item item' : ℕ × Queued H F} (hitem : item ∈ q.items.entries)
    (hitem' : item' ∈ q.items.entries) (h : item.1 = item'.1) : item = item' :=
  List.inj_on_of_nodup_map q.items.nodup hitem hitem' h

theorem exists_item {peer : Did} {a : ℕ × Fact} (h : a ∈ peerFacts peer q.items.entries) :
    ∃ item ∈ q.items.entries, item.1 = a.1 ∧
      ∃ e, item.2.delivery = .event e ∧ e.peer = peer ∧ e.fact = a.2 := by
  obtain ⟨item, hitem, ha⟩ := List.mem_filterMap.1 h
  refine ⟨item, hitem, ?_⟩
  split at ha
  · next e he =>
    split at ha
    · next hpeer =>
      cases ha
      exact ⟨rfl, e, he, hpeer, rfl⟩
    · cases ha
  · cases ha

theorem peerFacts_filter (peer : Did) (keep : ℕ → Bool) (items : List (ℕ × Queued H F)) :
    peerFacts peer (items.filter (keep ·.1)) =
      (peerFacts peer items).filter (keep ·.1) := by
  induction items with
  | nil => rfl
  | cons item items ih =>
    have hcons : ∀ l : List (ℕ × Queued H F),
        peerFacts peer (item :: l) = peerFacts peer [item] ++ peerFacts peer l :=
      fun l => peerFacts_append peer [item] l
    have hone : (peerFacts peer [item]).filter (keep ·.1) =
        if keep item.1 then peerFacts peer [item] else [] := by
      obtain ⟨position, m | e, weight, consumed⟩ := item
      · simp [peerFacts]
      · by_cases he : e.peer = peer <;> by_cases hk : keep position <;> simp [peerFacts, he, hk]
    rw [List.filter_cons, hcons items, List.filter_append, ← ih, hone]
    split
    · exact hcons _
    · rfl

/-- The positions of facts of `peer` hold nothing else. -/
theorem delivery_of_position {peer : Did} {item : ℕ × Queued H F} (hitem : item ∈ q.items.entries)
    {a : ℕ × Fact} (ha : a ∈ peerFacts peer q.items.entries) (h : item.1 = a.1) :
    ∃ e, item.2.delivery = .event e ∧ e.peer = peer := by
  obtain ⟨item', hitem', hposition, e, he, hpeer, -⟩ := exists_item ha
  obtain rfl := eq_of_position hitem hitem' (h.trans hposition.symm)
  exact ⟨e, he, hpeer⟩

theorem recorded_withdraw (h : Indexed q) {peer : Did} {admittedAt : ℕ}
    (hlast : (q.factsOf peer).lifecycle.getLast? = some (admittedAt, true)) :
    Recorded q (q.withdraw peer admittedAt) (.peerRetired peer) := by
  rw [h.index peer] at hlast
  obtain ⟨before, drops, hfacts, hdrops⟩ := exists_admission hlast
  have hasc := ascending_peerFacts peer q.items.ascending
  rw [hfacts] at hasc
  obtain ⟨habove, hbelow⟩ := drops_admission hasc hdrops
  have hindex := h.index peer
  rw [hfacts] at hindex
  have hqueue : q.withdraw peer admittedAt =
      { q.setFacts peer (indexOf before) with
        items := (drops.map (·.1)).foldl BTreeMap.remove (q.items.remove admittedAt) } := by
    simp only [Queue.withdraw, hindex, indexOf_admission hdrops, List.dropLast_concat]
    rw [indexOf_admission hdrops] at habove hbelow
    rw [habove, hbelow]
    rfl
  have hentries : (q.withdraw peer admittedAt).items.entries =
      q.items.entries.filter fun item => item.1 ∉ admittedAt :: drops.map (·.1) := by
    rw [hqueue]
    exact BTreeMap.entries_removeAll q.items (admittedAt :: drops.map (·.1))
  have hown : peerFacts peer (q.withdraw peer admittedAt).items.entries = before := by
    rw [hentries, peerFacts_filter peer (fun position => position ∉ admittedAt :: drops.map (·.1)),
      hfacts]
    exact filter_admission hasc
  -- what goes are facts of `peer`
  have hgone : ∀ item ∈ q.items.entries, item.1 ∈ admittedAt :: drops.map (·.1) →
      ∃ e, item.2.delivery = .event e ∧ e.peer = peer := by
    intro item hitem hmem
    rcases List.mem_cons.1 hmem with heq | hmem
    · exact delivery_of_position hitem (a := (admittedAt, .admitted)) (by simp [hfacts]) heq
    · obtain ⟨d, hd, heq⟩ := List.mem_map.1 hmem
      exact delivery_of_position hitem (a := d) (by simp [hfacts, hd]) heq.symm
  have hother : ∀ other ≠ peer, peerFacts other (q.withdraw peer admittedAt).items.entries =
      peerFacts other q.items.entries := by
    intro other hne
    rw [hentries]
    refine filterMap_filter_of_forall fun item hitem hsome => ?_
    by_contra hmem
    obtain ⟨e, he, hpeer⟩ := hgone item hitem (not_not.1 fun hnot => hmem (decide_eq_true hnot))
    simp [he, hpeer, hne.symm] at hsome
  have hmessages : messagesOf (q.withdraw peer admittedAt).items.entries =
      messagesOf q.items.entries := by
    rw [hentries]
    refine filterMap_filter_of_forall fun item hitem hsome => ?_
    by_contra hmem
    obtain ⟨e, he, -⟩ := hgone item hitem (not_not.1 fun hnot => hmem (decide_eq_true hnot))
    simp [he] at hsome
  have hsub : ∀ item ∈ (q.withdraw peer admittedAt).items.entries, item ∈ q.items.entries := by
    intro item hitem
    rw [hentries] at hitem
    exact (List.mem_filter.1 hitem).1
  refine ⟨⟨?_, fun item hitem => ?_, fun other => ?_, fun other facts hheld => ?_,
    fun item hitem => h.facts item (hsub item hitem)⟩, ?_, fun other hne => ?_, hmessages, ?_, ?_, ?_⟩
  · rw [hqueue]
    exact h.next
  · have := h.below item (hsub item hitem)
    rw [hqueue]
    exact this
  · have hset : (q.withdraw peer admittedAt).factsOf other =
        (q.setFacts peer (indexOf before)).factsOf other := by rw [hqueue]; rfl
    rw [hset, factsOf_setFacts]
    split
    · next heq => rw [heq, hown]
    · next hne => rw [hother other hne, h.index other]
  · rw [hqueue] at hheld
    exact present_setFacts h peer (indexOf before) other facts hheld
  · have hretire : ((waitingFacts q peer).filter (· ≠ .dropped)).getLast? = some .admitted :=
      (lastLifecycle_iff _).1 ⟨admittedAt, hlast⟩
    simp only [SwarmEvent.peer, SwarmEvent.fact, PeerStory.announce, hretire, if_true]
    rw [waitingFacts, hown, waitingFacts, hfacts, beforeAdmission_eq before drops admittedAt hdrops]
  · rw [waitingFacts, hother other hne, waitingFacts]
  · rw [hqueue]
    rfl
  · rw [hqueue]
    rfl
  · rw [hqueue]
    rfl

/-- A fact is recorded as the story of its peer goes on. -/
theorem recorded_record (h : Indexed q) (hclaim : q.claim ≠ .released) (event : SwarmEvent)
    (hle : (q.record event).appended ≤ 2 ^ 64) : Recorded q (q.record event) event := by
  rw [Queue.record, if_neg hclaim] at hle ⊢
  cases event with
  | peerAdmitted peer => exact recorded_append h hle rfl
  | peerRetired peer =>
    have hretired := lastLifecycle_iff (peerFacts peer q.items.entries)
    rw [← h.index peer] at hretired
    have happend : (¬ ∃ position, (q.factsOf peer).lifecycle.getLast? = some (position, true)) →
        (q.appendFact (.peerRetired peer)).appended ≤ 2 ^ 64 →
        Recorded q (q.appendFact (.peerRetired peer)) (.peerRetired peer) := fun hnot hle =>
      recorded_append h hle (if_neg fun hlast => hnot (hretired.2 hlast))
    simp only [SwarmEvent.peer] at hle ⊢
    rcases hlast : (q.factsOf peer).lifecycle.getLast? with _ | ⟨position, _ | _⟩
    · rw [hlast] at hle
      exact happend (by simp [hlast]) hle
    · rw [hlast] at hle
      exact happend (by simp [hlast]) hle
    · exact recorded_withdraw h hlast
  | messageDropped peer =>
    have hwaits := waits_iff (ascending_peerFacts peer q.items.ascending)
    rw [← h.index peer] at hwaits
    change (if ((q.factsOf peer).drops.getLast?.any fun last =>
      (q.factsOf peer).lastLifecycle.all (last > ·)) = true then q
      else q.appendFact (.messageDropped peer)).appended ≤ _ at hle
    change Recorded q (if ((q.factsOf peer).drops.getLast?.any fun last =>
      (q.factsOf peer).lastLifecycle.all (last > ·)) = true then q
      else q.appendFact (.messageDropped peer)) (.messageDropped peer)
    by_cases hdrop : ((q.factsOf peer).drops.getLast?.any fun last =>
        (q.factsOf peer).lastLifecycle.all (last > ·)) = true
    · rw [if_pos hdrop]
      exact recorded_absorbed h (if_pos (hwaits.1 hdrop))
    · rw [if_neg hdrop] at hle ⊢
      exact recorded_append h hle (if_neg fun hlast => hdrop (hwaits.2 hlast))

/-- The first item is taken: it leaves the facts of its peer, or the messages. -/
structure Took (q q' : Queue H F) (queued : Queued H F) : Prop where
  indexed : Indexed q'
  event : ∀ e, queued.delivery = .event e →
    waitingFacts q e.peer = e.fact :: waitingFacts q' e.peer ∧
    (∀ peer ≠ e.peer, waitingFacts q' peer = waitingFacts q peer) ∧
    messagesOf q'.items.entries = messagesOf q.items.entries ∧
    queued.weight = 0 ∧ queued.consumed = none
  message : ∀ m, queued.delivery = .message m →
    (∀ peer, waitingFacts q' peer = waitingFacts q peer) ∧
    messagesOf q.items.entries = queued :: messagesOf q'.items.entries
  weight : q'.weight = q.weight - queued.weight
  claim : q'.claim = q.claim
  appended : q'.appended = q.appended

theorem entries_remove_first {K V : Type*} [LinearOrder K] {m : BTreeMap K V} {k : K} {v : V}
    {rest : List (K × V)} (h : m.entries = (k, v) :: rest) : (m.remove k).entries = rest := by
  have hasc := m.ascending
  rw [h, List.pairwise_cons] at hasc
  change m.entries.filter (fun kv => kv.1 ≠ k) = rest
  rw [h, List.filter_cons, if_neg (by simp), List.filter_eq_self.2]
  intro kv hkv
  have := hasc.1 kv hkv
  simpa using this.ne'

/-- The index without the first fact. -/
theorem indexOf_tail {position : ℕ} {f : Fact} {facts : List (ℕ × Fact)}
    (h : Ascending ((position, f) :: facts)) :
    (⟨(indexOf ((position, f) :: facts)).lifecycle.filter (·.1 ≠ position),
      (indexOf ((position, f) :: facts)).drops.filter (· ≠ position)⟩ : PeerFacts) =
      indexOf facts := by
  have hlt : ∀ a ∈ facts, position < a.1 := (List.pairwise_cons.1 h).1
  have hlifecycle : (indexOf facts).lifecycle.filter (·.1 ≠ position) =
      (indexOf facts).lifecycle := by
    refine List.filter_eq_self.2 fun a ha => ?_
    obtain ⟨f, hf⟩ := mem_indexOf_lifecycle ha
    have := hlt _ hf
    simpa using this.ne'
  have hdrops : (indexOf facts).drops.filter (· ≠ position) = (indexOf facts).drops := by
    refine List.filter_eq_self.2 fun a ha => ?_
    have := hlt _ (mem_indexOf_drops.1 ha)
    simpa using this.ne'
  have hcons := indexOf_append [(position, f)] facts
  rw [List.singleton_append] at hcons
  by_cases hf : f = .dropped
  · subst hf
    rw [hcons, indexOf_drop]
    simp only [List.filter_append, List.nil_append, hlifecycle, hdrops]
    simp
  · rw [hcons, indexOf_lifecycle hf]
    simp only [List.filter_append, List.nil_append, hlifecycle, hdrops]
    simp

theorem took_take (h : Indexed q) :
    q.take = (none, q) ∧ q.items.entries = [] ∨
    ∃ queued, q.take.1 = some queued ∧ Took q q.take.2 queued := by
  unfold Queue.take
  rcases hentries : q.items.entries with _ | ⟨⟨position, queued⟩, rest⟩
  · left
    simp [BTreeMap.first?, hentries]
  · right
    have hremove := entries_remove_first hentries
    have hfirst : q.items.first? = some (position, queued) := by
      simp [BTreeMap.first?, hentries]
    have hsub : ∀ item ∈ rest, item ∈ q.items.entries := fun item hitem => by
      rw [hentries]
      exact List.mem_cons_of_mem _ hitem
    have hbelow : ∀ item ∈ rest, item.1 < q.appended := fun item hitem =>
      h.below item (hsub item hitem)
    have hfacts := fun item hitem => h.facts item (hsub item hitem)
    have hindex := h.index
    rw [hfirst]
    obtain ⟨delivery, weight, consumed⟩ := queued
    cases delivery with
    | message m =>
      refine ⟨_, rfl, ⟨h.next, ?_, ?_, h.present, ?_⟩, ?_, ?_, rfl, rfl, rfl⟩
      · rwa [hremove]
      · intro peer
        have := hindex peer
        rw [hentries] at this
        rw [hremove]
        exact this
      · rwa [hremove]
      · rintro e he
        cases he
      · rintro m' he
        simp only [waitingFacts, hremove, hentries]
        exact ⟨fun peer => rfl, rfl⟩
    | event e =>
      obtain ⟨rfl, rfl⟩ := h.facts (position, ⟨.event e, weight, consumed⟩) (by simp [hentries]) e rfl
      have hown : peerFacts e.peer q.items.entries =
          (position, e.fact) :: peerFacts e.peer rest := by
        rw [hentries]
        simp [peerFacts]
      have hother : ∀ peer ≠ e.peer, peerFacts peer q.items.entries = peerFacts peer rest := by
        intro peer hne
        rw [hentries]
        simp [peerFacts, hne.symm]
      have hfacts' := hindex e.peer
      rw [hown, Queue.factsOf] at hfacts'
      have hasc := ascending_peerFacts e.peer q.items.ascending
      rw [hown] at hasc
      cases hget : q.facts.get? e.peer with
      | none =>
        -- the index holds the first fact
        rw [hget, Option.getD_none] at hfacts'
        have := indexOf_isEmpty.1 (congrArg PeerFacts.isEmpty hfacts').symm
        cases this
      | some held =>
        rw [hget, Option.getD_some] at hfacts'
        have htail := indexOf_tail hasc
        rw [← hfacts'] at htail
        simp only [hget, htail]
        refine ⟨_, rfl, ⟨h.next, ?_, fun peer => ?_, fun peer held' => ?_, ?_⟩, ?_, ?_, rfl, rfl,
          rfl⟩
        · simpa only [Queue.setFacts, hremove] using hbelow
        · rw [factsOf_setFacts]
          simp only [Queue.setFacts, hremove]
          split
          · next heq => rw [heq]
          · next hne =>
            rw [← hother peer hne, ← hindex peer]
            rfl
        · exact present_setFacts h e.peer (indexOf (peerFacts e.peer rest)) peer held'
        · simpa only [Queue.setFacts, hremove] using hfacts
        · rintro e' he
          cases he
          simp only [waitingFacts, Queue.setFacts, hremove, hown, List.map_cons, true_and,
            and_true]
          refine ⟨fun peer hne => by rw [hother peer hne], ?_⟩
          rw [hentries]
          rfl
        · rintro m he
          cases he

end Rings.AppInbox
