import Rings.AppInboxLaws

/-!
The application inbox over whole runs: whatever the order of the calls, its weight is bounded, the
messages are taken in order and the facts taken tell each peer's story.
-/

namespace Rings.AppInbox

open PeerStory (Fact View Consistent)

variable {H F : Type}

def messagesTaken (taken : List (Queued H F)) : List (Queued H F) :=
  taken.filter fun queued => match queued.delivery with
    | .message _ => true
    | .event _ => false

def eventsTaken (taken : List (Queued H F)) : List SwarmEvent :=
  taken.filterMap fun queued => match queued.delivery with
    | .event e => some e
    | .message _ => none

def factsIn (peer : Did) (log : List SwarmEvent) : List Fact :=
  (log.filter (·.peer = peer)).map (·.fact)

def heldWeight (size : ℕ+) (s : Inbox H F) : ℕ :=
  ((messagesOf s.queue.items.entries).map (·.weight)).sum + (s.rooms.map (·.weight size)).sum

def holders (s : Inbox H F) : ℕ :=
  (messagesOf s.queue.items.entries).length + s.rooms.length

/-- What every run keeps. -/
structure Kept (size : ℕ+) (s : Inbox H F) : Prop where
  indexed : Indexed s.queue
  weight : s.queue.claim ≠ .released → s.queue.weight = heldWeight size s
  heavy : ∀ queued ∈ messagesOf s.queue.items.entries, 0 < queued.weight
  bounded : s.queue.claim ≠ .released →
    s.queue.weight ≤ applicationInboxWeight ∨ holders s ≤ 1
  order : s.queue.claim ≠ .released →
    messagesTaken s.taken ++ messagesOf s.queue.items.entries = s.pushed
  taken : messagesTaken s.taken <+: s.pushed
  released : s.queue.claim = .released → s.queue.items.entries = []
  rooms : s.queue.claim = .unclaimed → s.rooms = []
  fired : s.fired = (messagesTaken s.taken).filterMap (·.consumed)
  signals : (s.pushed.filterMap (·.consumed)).Pairwise (· < ·)
  issued : ∀ n ∈ s.pushed.filterMap (·.consumed), n < s.filled.length
  filled : ∀ queued ∈ s.pushed, ∀ n ∈ queued.consumed,
    ∃ m, s.filled[n]? = some m ∧ queued.delivery = .message m
  story : s.queue.claim ≠ .released → ∀ peer,
    Consistent (viewOf peer (eventsTaken s.taken)) (waitingFacts s.queue peer)
      (viewOf peer s.announced)
  told : ∀ peer, View.start.tells (factsIn peer (eventsTaken s.taken))

variable {size : ℕ+} {s s' : Inbox H F}

theorem weight_pos (m : ApplicationMessage H F) : 0 < m.weight size := by
  have := size.pos
  simp only [ApplicationMessage.weight, saturatingAdd, usizeMax]
  omega

theorem weight_le (m : ApplicationMessage H F) : m.weight size ≤ usizeMax :=
  Nat.min_le_right _ _

theorem kept_new : Kept size (Inbox.new : Inbox H F) where
  indexed := by
    refine ⟨rfl, ?_, fun peer => rfl, (fun peer facts h => by cases h), ?_⟩ <;>
      simp [Inbox.new, Queue.new, BTreeMap.empty]
  weight _ := rfl
  heavy := by simp [Inbox.new, Queue.new, BTreeMap.empty, messagesOf]
  bounded _ := .inl (Nat.zero_le _)
  order _ := rfl
  taken := List.prefix_rfl
  released h := by cases h
  rooms _ := rfl
  fired := rfl
  signals := List.Pairwise.nil
  issued := by simp [Inbox.new]
  filled := by simp [Inbox.new]
  story _ peer := PeerStory.consistent_start
  told peer := rfl

theorem admit_cases (weight : ℕ) (hweight : weight ≤ usizeMax) (q : Queue H F) :
    (∃ refusal, q.admitWeight weight = .error refusal) ∨
    q.claim = .claimed ∧ q.admitWeight weight = .ok { q with weight := q.weight + weight } ∧
      (q.weight = 0 ∨ q.weight + weight ≤ applicationInboxWeight) := by
  unfold Queue.admitWeight
  by_cases hclaim : q.claim = .claimed
  · by_cases hfits : q.fits weight
    · right
      have hor : q.weight = 0 ∨ saturatingAdd usizeMax q.weight weight ≤ applicationInboxWeight :=
        of_decide_eq_true hfits
      have hsum : saturatingAdd usizeMax q.weight weight = q.weight + weight := by
        simp only [saturatingAdd, applicationInboxWeight, usizeMax] at hor hweight ⊢
        omega
      rw [hsum] at hor
      exact ⟨hclaim, by simp [hclaim, hfits, hsum], hor⟩
    · left
      exact ⟨.full, by simp [hclaim, hfits]⟩
  · left
    exact ⟨.unread, by simp [hclaim]⟩

theorem Kept.claim (h : Kept size s) : Kept size s.claim := by
  unfold Inbox.claim
  split
  · exact h
  · next hclaim =>
    have hclaim : s.queue.claim = .unclaimed := not_not.1 hclaim
    have hheld : s.queue.claim ≠ .released := by simp [hclaim]
    exact ⟨⟨h.indexed.next, h.indexed.below, h.indexed.index, h.indexed.present, h.indexed.facts⟩,
      fun _ => h.weight hheld, h.heavy, fun _ => h.bounded hheld, fun _ => h.order hheld, h.taken,
      (fun hr => by cases hr), (fun hr => by cases hr), h.fired, h.signals, h.issued, h.filled,
      fun _ => h.story hheld, h.told⟩

theorem viewOf_concat (peer : Did) (log : List SwarmEvent) (e : SwarmEvent) :
    viewOf peer (log ++ [e]) =
      if e.peer = peer then (viewOf peer log).read e.fact else viewOf peer log := by
  unfold viewOf
  rw [List.filter_append, List.filter_singleton]
  by_cases he : e.peer = peer <;> simp [he]

theorem Kept.announce (h : Kept size s) (event : SwarmEvent)
    (hle : (s.announce event).queue.appended ≤ 2 ^ 64) : Kept size (s.announce event) := by
  unfold Inbox.announce at hle ⊢
  split
  · next hallowed =>
    rw [if_pos hallowed] at hle
    by_cases hclaim : s.queue.claim = .released
    · have hqueue : s.queue.record event = s.queue := if_pos hclaim
      rw [hqueue]
      exact ⟨h.indexed, fun hr => absurd hclaim hr, h.heavy, fun hr => absurd hclaim hr,
        fun hr => absurd hclaim hr, h.taken, h.released, h.rooms, h.fired, h.signals, h.issued,
        h.filled, fun hr => absurd hclaim hr, h.told⟩
    · obtain ⟨hindexed, htold, hothers, hmessages, hweight, hclaim', -⟩ :=
        recorded_record h.indexed hclaim event hle
      refine ⟨hindexed, fun hr => ?_, ?_, fun hr => ?_, fun hr => ?_, h.taken, fun hr => ?_,
        fun hr => h.rooms (hclaim'.symm.trans hr), h.fired, h.signals, h.issued, h.filled, fun hr peer => ?_, h.told⟩
      · rw [hweight, h.weight hclaim]
        simp only [heldWeight, hmessages]
      · simpa only [hmessages] using h.heavy
      · simpa only [hweight, holders, hmessages] using h.bounded hclaim
      · simpa only [hmessages] using h.order hclaim
      · exact absurd (hclaim'.symm.trans hr) hclaim
      · have hstory := h.story hclaim peer
        rw [viewOf_concat]
        split
        · next hpeer =>
          subst hpeer
          simp only [htold]
          exact hstory.announce hallowed
        · next hpeer =>
          simp only [hothers peer (Ne.symm hpeer)]
          exact hstory
  · exact h

theorem push_items {q : Queue H F} (h : Indexed q) (hlt : q.appended < 2 ^ 64)
    (m : ApplicationMessage H F) (weight : ℕ) (consumed : Option ℕ) :
    messagesOf (q.append ⟨.message m, weight, consumed⟩).items.entries =
        messagesOf q.items.entries ++ [⟨.message m, weight, consumed⟩] ∧
      ∀ peer, waitingFacts (q.append ⟨.message m, weight, consumed⟩) peer = waitingFacts q peer := by
  have hentries := h.entries_append hlt ⟨.message m, weight, consumed⟩
  refine ⟨?_, fun peer => ?_⟩
  · rw [hentries, messagesOf_append]
    simp [messagesOf]
  · rw [waitingFacts, hentries, peerFacts_append]
    simp [peerFacts, waitingFacts]

/-- With nothing held the weight is zero, and only then. -/
theorem Kept.holders_pos (h : Kept size s) (hclaim : s.queue.claim ≠ .released)
    (hpos : 0 < s.queue.weight) : 0 < holders s := by
  by_contra hzero
  obtain ⟨hmessages, hrooms⟩ := Nat.add_eq_zero_iff.1 (Nat.eq_zero_of_not_pos hzero)
  have := h.weight hclaim
  rw [heldWeight, List.eq_nil_of_length_eq_zero hmessages,
    List.eq_nil_of_length_eq_zero hrooms] at this
  simp only [List.map_nil, List.sum_nil] at this
  omega

theorem Kept.holders_eq_zero (h : Kept size s) (hclaim : s.queue.claim ≠ .released)
    (hzero : s.queue.weight = 0) : holders s = 0 := by
  rw [h.weight hclaim, heldWeight, Nat.add_eq_zero_iff] at hzero
  obtain ⟨hmessages, hrooms⟩ := hzero
  have hqueue : messagesOf s.queue.items.entries = [] := by
    refine List.eq_nil_iff_forall_not_mem.2 fun queued hmem => ?_
    have := List.single_le_sum (fun _ _ => Nat.zero_le _) _
      (List.mem_map_of_mem (f := fun queued => queued.weight) hmem)
    have := h.heavy queued hmem
    omega
  have hrooms : s.rooms = [] := by
    refine List.eq_nil_iff_forall_not_mem.2 fun m hmem => ?_
    have := List.single_le_sum (fun _ _ => Nat.zero_le _) _
      (List.mem_map_of_mem (f := fun m => m.weight size) hmem)
    have : 0 < m.weight size := weight_pos m
    omega
  simp [holders, hqueue, hrooms]

/-- A message is queued, with the weight it holds from then on. -/
theorem Kept.queue (h : Kept size s) (hclaim : s.queue.claim = .claimed)
    (hlt : s.queue.appended < 2 ^ 64) (m : ApplicationMessage H F) (consumed : Option ℕ) (weight : ℕ)
    (rooms filled : List (ApplicationMessage H F))
    (hweight : weight = ((messagesOf s.queue.items.entries).map (·.weight)).sum +
      m.weight size + (rooms.map (·.weight size)).sum)
    (hbounded : weight ≤ applicationInboxWeight ∨
      (messagesOf s.queue.items.entries).length + 1 + rooms.length ≤ 1)
    (hfilled : s.filled <+: filled)
    (hconsumed : ∀ n ∈ consumed, s.filled.length = n ∧ filled[n]? = some m) :
    Kept size { s with
      queue := { s.queue with weight := weight }.append ⟨.message m, m.weight size, consumed⟩
      rooms := rooms
      filled := filled
      pushed := s.pushed ++ [⟨.message m, m.weight size, consumed⟩] } := by
  have hheld : s.queue.claim ≠ .released := by simp [hclaim]
  have hindexed : Indexed { s.queue with weight := weight } :=
    ⟨h.indexed.next, h.indexed.below, h.indexed.index, h.indexed.present, h.indexed.facts⟩
  obtain ⟨hmessages, hfacts⟩ := push_items hindexed hlt m (m.weight size) consumed
  have horder := h.order hheld
  constructor
  case indexed => exact hindexed.push hlt m _ consumed
  case weight =>
    intro _
    simp only [heldWeight, hmessages, List.map_append, List.map_cons, List.map_nil,
      List.sum_append, List.sum_cons, List.sum_nil, Nat.add_zero]
    exact hweight
  case heavy =>
    intro queued hmem
    simp only [hmessages, List.mem_append, List.mem_singleton] at hmem
    rcases hmem with hmem | rfl
    · exact h.heavy queued hmem
    · exact weight_pos m
  case bounded =>
    intro _
    simp only [holders, hmessages, List.length_append, List.length_singleton]
    exact hbounded
  case order =>
    intro _
    rw [hmessages, ← List.append_assoc]
    exact congrArg (· ++ _) horder
  case taken => exact h.taken.trans (List.prefix_append _ _)
  case released => exact fun hr => absurd hr hheld
  case rooms =>
    intro hr
    rw [Queue.append] at hr
    exact absurd (hr.symm.trans hclaim) (by simp)
  case fired => exact h.fired
  case signals =>
    rw [List.filterMap_append, List.pairwise_append]
    refine ⟨h.signals, ?_, fun a ha b hb => ?_⟩
    · cases consumed <;> simp
    · cases consumed with
      | none => simp at hb
      | some n =>
        simp only [List.filterMap_cons, List.filterMap_nil, List.mem_singleton] at hb
        have := h.issued a ha
        have := (hconsumed n rfl).1
        omega
  case issued =>
    intro n hn
    rw [List.filterMap_append, List.mem_append] at hn
    rcases hn with hn | hn
    · exact (h.issued n hn).trans_le hfilled.length_le
    · cases consumed with
      | none => simp at hn
      | some n' =>
        simp only [List.filterMap_cons, List.filterMap_nil, List.mem_singleton] at hn
        subst hn
        exact (List.getElem?_eq_some_iff.1 (hconsumed n rfl).2).1
  case filled =>
    intro queued hmem n hn
    rw [List.mem_append, List.mem_singleton] at hmem
    rcases hmem with hmem | rfl
    · obtain ⟨m', hm', hdelivery⟩ := h.filled queued hmem n hn
      obtain ⟨more, rfl⟩ := hfilled
      exact ⟨m', by rw [List.getElem?_append_left (List.getElem?_eq_some_iff.1 hm').1, hm'],
        hdelivery⟩
    · exact ⟨m, (hconsumed n hn).2, rfl⟩
  case story =>
    intro _ peer
    rw [hfacts]
    exact h.story hheld peer
  case told => exact h.told

theorem Kept.deliver (h : Kept size s) (m : ApplicationMessage H F)
    (hle : (s.deliver size m).2.queue.appended ≤ 2 ^ 64) : Kept size (s.deliver size m).2 := by
  unfold Inbox.deliver at hle ⊢
  rcases admit_cases (m.weight size) (weight_le m) s.queue with
    ⟨_ | _, hadmitted⟩ | ⟨hclaim, hadmitted, hfits⟩
  · simpa only [hadmitted] using h
  · simp only [hadmitted]
    exact ⟨⟨h.indexed.next, h.indexed.below, h.indexed.index, h.indexed.present, h.indexed.facts⟩,
      h.weight, h.heavy, h.bounded, h.order, h.taken, h.released, h.rooms, h.fired, h.signals,
      h.issued, h.filled, h.story, h.told⟩
  · have hheld : s.queue.claim ≠ .released := by simp [hclaim]
    have hpush : ({ s.queue with weight := s.queue.weight + m.weight size }.push m (m.weight size)
        none) = { s.queue with weight := s.queue.weight + m.weight size }.append
          ⟨.message m, m.weight size, none⟩ := if_pos hclaim
    simp only [hadmitted, hpush] at hle ⊢
    refine h.queue hclaim hle m none _ s.rooms s.filled ?_ ?_ List.prefix_rfl (by simp)
    · rw [h.weight hheld, heldWeight]
      omega
    · rcases hfits with hzero | hfits
      · have := h.holders_eq_zero hheld hzero
        rw [holders] at this
        omega
      · exact .inl hfits

theorem Kept.tryReserve (h : Kept size s) (m : ApplicationMessage H F) :
    Kept size (s.tryReserve size m) := by
  unfold Inbox.tryReserve
  rcases admit_cases (m.weight size) (weight_le m) s.queue with
    ⟨refusal, hadmitted⟩ | ⟨hclaim, hadmitted, hfits⟩
  · simpa only [hadmitted] using h
  · have hheld : s.queue.claim ≠ .released := by simp [hclaim]
    simp only [hadmitted]
    refine ⟨⟨h.indexed.next, h.indexed.below, h.indexed.index, h.indexed.present,
      h.indexed.facts⟩, fun _ => ?_, h.heavy, fun _ => ?_, h.order, h.taken, h.released,
      fun hr => ?_, h.fired, h.signals, h.issued, h.filled, h.story, h.told⟩
    · have hweight := h.weight hheld
      simp only [heldWeight, List.map_append, List.sum_append, List.map_cons, List.map_nil,
        List.sum_cons, List.sum_nil] at hweight ⊢
      omega
    · rcases hfits with hzero | hfits
      · have := h.holders_eq_zero hheld hzero
        simp only [holders, List.length_append, List.length_singleton] at this ⊢
        omega
      · exact .inl hfits
    · exact absurd (hr.symm.trans hclaim) (by simp)

theorem rooms_eraseIdx {rooms : List (ApplicationMessage H F)} {room : ℕ} {m : ApplicationMessage H F}
    (h : rooms[room]? = some m) :
    (rooms.map (·.weight size)).sum =
        m.weight size + ((rooms.eraseIdx room).map (·.weight size)).sum ∧
      rooms.length = (rooms.eraseIdx room).length + 1 := by
  obtain ⟨hlt, rfl⟩ := List.getElem?_eq_some_iff.1 h
  have hperm := List.getElem_cons_eraseIdx_perm hlt
  constructor
  · rw [← (hperm.map (·.weight size)).sum_eq, List.map_cons, List.sum_cons]
  · rw [← hperm.length_eq, List.length_cons]

theorem Kept.fill (h : Kept size s) (room : ℕ) (hle : (s.fill size room).queue.appended ≤ 2 ^ 64) :
    Kept size (s.fill size room) := by
  unfold Inbox.fill at hle ⊢
  split
  · exact h
  · next m hroom =>
    obtain ⟨hsum, hlength⟩ := @rooms_eraseIdx _ _ size _ _ _ hroom
    rw [hroom] at hle
    rcases hclaim : s.queue.claim with _ | _ | _
    · rw [h.rooms hclaim] at hroom
      simp at hroom
    · have hheld : s.queue.claim ≠ .released := by simp [hclaim]
      have hpush : s.queue.push m (m.weight size) (some s.filled.length) =
          s.queue.append ⟨.message m, m.weight size, some s.filled.length⟩ := if_pos hclaim
      have hweight := h.weight hheld
      have hbounded := h.bounded hheld
      simp only [hpush, if_true] at hle ⊢
      refine h.queue hclaim hle m (some s.filled.length) s.queue.weight _ _ ?_ ?_
        (List.prefix_append _ _) ?_
      · rw [hweight, heldWeight, hsum]
        omega
      · rw [holders, hlength] at hbounded
        omega
      · rintro n hn
        cases hn
        exact ⟨rfl, List.getElem?_concat_length⟩
    · have hpush : s.queue.push m (m.weight size) (some s.filled.length) = s.queue :=
        if_neg (by simp [hclaim])
      rw [hpush]
      refine ⟨h.indexed, fun hr => absurd hclaim hr, h.heavy, fun hr => absurd hclaim hr,
        fun hr => absurd hclaim hr, h.taken, h.released, fun hr => ?_, h.fired, h.signals,
        fun n hn => ?_, fun queued hmem n hn => ?_, fun hr => absurd hclaim hr, h.told⟩
      · exact absurd (hr.symm.trans hclaim) (by simp)
      · rw [List.length_append]
        exact Nat.lt_add_right _ (h.issued n hn)
      · obtain ⟨m', hm', hdelivery⟩ := h.filled queued hmem n hn
        refine ⟨m', ?_, hdelivery⟩
        rw [List.getElem?_append_left (List.getElem?_eq_some_iff.1 hm').1, hm']

theorem Kept.dropRoom (h : Kept size s) (room : ℕ) : Kept size (s.dropRoom size room) := by
  unfold Inbox.dropRoom
  split
  · exact h
  · next m hroom =>
    obtain ⟨hsum, hlength⟩ := @rooms_eraseIdx _ _ size _ _ _ hroom
    refine ⟨⟨h.indexed.next, h.indexed.below, h.indexed.index, h.indexed.present,
      h.indexed.facts⟩, fun hheld => ?_, h.heavy, fun hheld => ?_, h.order, h.taken, h.released,
      fun hr => ?_, h.fired, h.signals, h.issued, h.filled, h.story, h.told⟩
    · have hweight := h.weight hheld
      simp only [heldWeight] at hweight ⊢
      omega
    · have hbounded := h.bounded hheld
      simp only [holders] at hbounded ⊢
      omega
    · have := h.rooms hr
      simp [this] at hroom

theorem taken_concat (taken : List (Queued H F)) (queued : Queued H F) :
    (∀ e, queued.delivery = .event e →
      messagesTaken (taken ++ [queued]) = messagesTaken taken ∧
        eventsTaken (taken ++ [queued]) = eventsTaken taken ++ [e]) ∧
    (∀ m, queued.delivery = .message m →
      messagesTaken (taken ++ [queued]) = messagesTaken taken ++ [queued] ∧
        eventsTaken (taken ++ [queued]) = eventsTaken taken) := by
  constructor
  · intro e he
    simp [messagesTaken, eventsTaken, he]
  · intro m hm
    simp [messagesTaken, eventsTaken, hm]

theorem factsIn_concat (peer : Did) (log : List SwarmEvent) (e : SwarmEvent) :
    factsIn peer (log ++ [e]) =
      if e.peer = peer then factsIn peer log ++ [e.fact] else factsIn peer log := by
  unfold factsIn
  rw [List.filter_append, List.filter_singleton]
  by_cases he : e.peer = peer <;> simp [he]

theorem Kept.take (h : Kept size s) : Kept size s.take := by
  unfold Inbox.take
  rcases took_take h.indexed with ⟨hnone, -⟩ | ⟨queued, htaken, htook⟩
  · simpa only [hnone] using h
  · have hclaim : s.queue.claim ≠ .released := by
      intro hr
      have hfirst : s.queue.items.first? = none := by
        simp [BTreeMap.first?, h.released hr]
      simp [Queue.take, hfirst] at htaken
    have htake : s.queue.take = (some queued, s.queue.take.2) := Prod.ext htaken rfl
    obtain ⟨hevents, hmessages⟩ := taken_concat s.taken queued
    have hweight := h.weight hclaim
    have hbounded := h.bounded hclaim
    have horder := h.order hclaim
    have hreleased : s.queue.take.2.claim = .released → False := fun hr =>
      hclaim (htook.claim.symm.trans hr)
    have hunclaimed : s.queue.take.2.claim = .unclaimed → s.rooms = [] := fun hr =>
      h.rooms (htook.claim.symm.trans hr)
    rw [htake]
    simp only [heldWeight, holders] at hweight hbounded
    cases hdelivery : queued.delivery with
    | message m =>
      obtain ⟨hstory, hqueue⟩ := htook.message m hdelivery
      obtain ⟨htakenMessages, htakenEvents⟩ := hmessages m hdelivery
      rw [hqueue] at hweight hbounded horder
      simp only [List.map_cons, List.sum_cons, List.length_cons] at hweight hbounded
      have hordered : messagesTaken (s.taken ++ [queued]) ++
          messagesOf s.queue.take.2.items.entries = s.pushed := by
        rw [htakenMessages, List.append_assoc]
        exact horder
      refine ⟨htook.indexed, fun _ => ?_, fun queued' hmem => ?_, fun _ => ?_, fun _ => hordered,
        ⟨_, hordered⟩, fun hr => (hreleased hr).elim, hunclaimed, ?_, h.signals, h.issued,
        h.filled, fun _ peer => ?_, fun peer => ?_⟩
      · simp only [heldWeight, htook.weight]
        omega
      · exact h.heavy queued' (by rw [hqueue]; exact List.mem_cons_of_mem _ hmem)
      · simp only [holders, htook.weight]
        omega
      · rw [htakenMessages, List.filterMap_append, ← h.fired]
        cases queued.consumed <;> rfl
      · rw [htakenEvents, hstory peer]
        exact h.story hclaim peer
      · rw [htakenEvents]
        exact h.told peer
    | event e =>
      obtain ⟨hown, hothers, hqueue, hzero, hsilent⟩ := htook.event e hdelivery
      obtain ⟨htakenMessages, htakenEvents⟩ := hevents e hdelivery
      have hconsistent := h.story hclaim e.peer
      rw [hown] at hconsistent
      obtain ⟨hallowed, hnext⟩ := hconsistent.take
      rw [← hqueue] at horder
      refine ⟨htook.indexed, fun _ => ?_, ?_, fun _ => ?_, fun _ => ?_, ?_,
        fun hr => (hreleased hr).elim, hunclaimed, ?_, h.signals, h.issued, h.filled,
        fun _ peer => ?_, fun peer => ?_⟩
      · simp only [heldWeight, htook.weight, hqueue, hzero]
        omega
      · rw [hqueue]
        exact h.heavy
      · simp only [holders, htook.weight, hqueue, hzero]
        omega
      · rw [htakenMessages]
        exact horder
      · rw [htakenMessages]
        exact h.taken
      · simp only [hsilent, Option.toList_none, List.append_nil]
        rw [htakenMessages]
        exact h.fired
      · rw [htakenEvents, viewOf_concat]
        split
        · next hpeer =>
          subst hpeer
          exact hnext
        · next hpeer =>
          rw [hothers peer (Ne.symm hpeer)]
          exact h.story hclaim peer
      · rw [htakenEvents, factsIn_concat]
        split
        · next hpeer =>
          subst hpeer
          rw [View.tells_append, h.told e.peer, Bool.true_and, View.tells, View.tells,
            Bool.and_true]
          exact hallowed
        · exact h.told peer

theorem Kept.release (h : Kept size s) : Kept size { s with queue := s.queue.release } where
  indexed := by
    refine ⟨h.indexed.next, ?_, fun peer => rfl, (fun peer facts hf => by cases hf), ?_⟩ <;>
      simp [Queue.release, BTreeMap.empty]
  weight hr := absurd rfl hr
  heavy := by simp [Queue.release, BTreeMap.empty, messagesOf]
  bounded hr := absurd rfl hr
  order hr := absurd rfl hr
  taken := h.taken
  released _ := rfl
  rooms hr := by cases hr
  fired := h.fired
  signals := h.signals
  issued := h.issued
  filled := h.filled
  story hr := absurd rfl hr
  told := h.told

theorem appended_le_record (q : Queue H F) (event : SwarmEvent) :
    q.appended ≤ (q.record event).appended := by
  have happend : ∀ e : SwarmEvent, q.appended ≤ (q.appendFact e).appended := fun e =>
    Nat.le_succ q.appended
  unfold Queue.record
  split
  · exact le_rfl
  · simp only
    split
    · split
      · exact le_rfl
      · exact happend _
    · split
      · exact le_rfl
      · exact happend _
    · exact happend _

theorem appended_take (q : Queue H F) : q.take.2.appended = q.appended := by
  unfold Queue.take
  split
  · rfl
  · simp only
    split
    · rfl
    · split <;> rfl

/-- Appended items are never uncounted. -/
theorem appended_le_step (s : Inbox H F) (call : InboxCall H F) :
    s.queue.appended ≤ (s.step size call).queue.appended := by
  cases call with
  | claim =>
    simp only [Inbox.step, Inbox.claim]
    split <;> exact le_rfl
  | announce event =>
    simp only [Inbox.step, Inbox.announce]
    split
    · exact appended_le_record s.queue event
    · exact le_rfl
  | deliver m =>
    simp only [Inbox.step, Inbox.deliver]
    rcases admit_cases (m.weight size) (weight_le m) s.queue with
      ⟨_ | _, hadmitted⟩ | ⟨hclaim, hadmitted, -⟩
    · simp only [hadmitted, le_refl]
    · simp only [hadmitted, le_refl]
    · simp only [hadmitted, Queue.push, hclaim, if_true]
      exact Nat.le_succ _
  | tryReserve m =>
    simp only [Inbox.step, Inbox.tryReserve]
    rcases admit_cases (m.weight size) (weight_le m) s.queue with
      ⟨refusal, hadmitted⟩ | ⟨-, hadmitted, -⟩ <;> simp only [hadmitted, le_refl]
  | fill room =>
    simp only [Inbox.step, Inbox.fill]
    split
    · exact le_rfl
    · simp only [Queue.push]
      split
      · exact Nat.le_succ _
      · exact le_rfl
  | dropRoom room =>
    simp only [Inbox.step, Inbox.dropRoom]
    split <;> exact le_rfl
  | take =>
    have htake := appended_take s.queue
    simp only [Inbox.step, Inbox.take]
    split <;> next heq => rw [heq] at htake; exact htake.ge
  | release => exact le_rfl

theorem Kept.step (h : Kept size s) (call : InboxCall H F)
    (hle : (s.step size call).queue.appended ≤ 2 ^ 64) : Kept size (s.step size call) := by
  cases call with
  | claim => exact h.claim
  | announce event => exact h.announce event hle
  | deliver m => exact h.deliver m hle
  | tryReserve m => exact h.tryReserve m
  | fill room => exact h.fill room hle
  | dropRoom room => exact h.dropRoom room
  | take => exact h.take
  | release => exact h.release

theorem Inbox.run_append (s : Inbox H F) (calls more : List (InboxCall H F)) :
    s.run size (calls ++ more) = (s.run size calls).run size more := List.foldl_append

/-- Whatever the calls, as long as the positions can be counted. -/
theorem kept_run (calls : List (InboxCall H F))
    (hle : ((Inbox.new : Inbox H F).run size calls).queue.appended ≤ 2 ^ 64) :
    Kept size ((Inbox.new : Inbox H F).run size calls) := by
  induction calls using List.reverseRecOn with
  | nil => exact kept_new
  | append_singleton calls call ih =>
    rw [Inbox.run_append] at hle ⊢
    exact (ih ((appended_le_step _ call).trans hle)).step call hle

/-- What the application and core may rely on. -/
structure Lawful (size : ℕ+) (s : Inbox H F) : Prop where
  /-- The weight is what the queued messages and the rooms hold, and only one of them alone may
  exceed the bound. -/
  weight : s.queue.claim ≠ .released → s.queue.weight = heldWeight size s ∧
    (applicationInboxWeight < s.queue.weight → holders s = 1)
  /-- Messages are taken in the order they were queued, each once, and those not taken wait. -/
  order : messagesTaken s.taken <+: s.pushed ∧ (s.queue.claim ≠ .released →
    messagesTaken s.taken ++ messagesOf s.queue.items.entries = s.pushed)
  /-- A signal belongs to one filled room and fires just when its message is taken. -/
  signals : (s.pushed.filterMap (·.consumed)).Nodup ∧
    (∀ queued ∈ s.pushed, ∀ n ∈ queued.consumed,
      ∃ m, s.filled[n]? = some m ∧ queued.delivery = .message m) ∧
    ∀ n, n ∈ s.fired ↔ ∃ queued ∈ messagesTaken s.taken, queued.consumed = some n
  /-- The index lists the queued facts and nothing else. -/
  index : (∀ peer, s.queue.factsOf peer = indexOf (peerFacts peer s.queue.items.entries)) ∧
    ∀ peer facts, s.queue.facts.get? peer = some facts → facts.isEmpty = false
  /-- Of one peer at most a drop, a retirement, an admission and a drop wait. -/
  waiting : ∀ peer, (waitingFacts s.queue peer).Sublist PeerStory.mostWaiting
  /-- The reader sees each peer admitted and retired in turn, from its first admission on. -/
  inTurn : ∀ peer, ((factsIn peer (eventsTaken s.taken)).filter (· ≠ .dropped)).IsChain (· ≠ ·) ∧
    ((factsIn peer (eventsTaken s.taken)).filter (· ≠ .dropped)).head? ≠ some .retired
  /-- With nothing left to take, the reader knows the last word about each peer. -/
  drained : s.queue.claim ≠ .released → s.queue.items.entries = [] → ∀ peer,
    (viewOf peer (eventsTaken s.taken)).admitted = (viewOf peer s.announced).admitted ∧
      ((viewOf peer s.announced).admitted ∧ (viewOf peer s.announced).dropped →
        (viewOf peer (eventsTaken s.taken)).dropped)

/-- The application inbox keeps its laws on every run whose positions can be counted. -/
theorem inbox_laws (size : ℕ+) (calls : List (InboxCall H F))
    (hle : ((Inbox.new : Inbox H F).run size calls).queue.appended ≤ 2 ^ 64) :
    Lawful size ((Inbox.new : Inbox H F).run size calls) := by
  have h := kept_run calls hle
  generalize (Inbox.new : Inbox H F).run size calls = s at h
  constructor
  case weight =>
    intro hclaim
    refine ⟨h.weight hclaim, fun hexceeds => ?_⟩
    have hsome := h.holders_pos hclaim (by omega)
    have hone := (h.bounded hclaim).resolve_left (by omega)
    omega
  case order => exact ⟨h.taken, h.order⟩
  case signals =>
    refine ⟨h.signals.imp ne_of_lt, h.filled, fun n => ?_⟩
    rw [h.fired, List.mem_filterMap]
  case index => exact ⟨h.indexed.index, h.indexed.present⟩
  case waiting =>
    intro peer
    by_cases hclaim : s.queue.claim = .released
    · rw [waitingFacts, h.released hclaim]
      exact List.nil_sublist _
    · exact (h.story hclaim peer).sublist
  case inTurn =>
    intro peer
    exact View.tells_alternates (h.told peer)
  case drained =>
    intro hclaim hempty peer
    have hstory := h.story hclaim peer
    rw [waitingFacts, hempty] at hstory
    exact ⟨hstory.admitted, hstory.dropped⟩

/-- Peer 1 is admitted, retired and admitted again, and a message is taken between. -/
theorem inbox_laws_readmitted : Lawful 1 ((Inbox.new : Inbox Unit Unit).run 1
    [.announce (.peerAdmitted 1), .claim, .take, .announce (.peerRetired 1),
      .tryReserve ⟨7, 1, .custom [1, 2]⟩, .fill 0, .announce (.peerAdmitted 1), .take, .take,
      .announce (.messageDropped 1)]) :=
  inbox_laws 1 _ (by decide +kernel)

/-! ### Positions that cannot be counted -/

def blank : ApplicationMessage Unit Unit := ⟨0, 0, .custom []⟩

/-- The claimed inbox holds nothing and has appended `k` items. -/
structure Idle (k : ℕ) (s : Inbox Unit Unit) : Prop where
  claim : s.queue.claim = .claimed
  items : s.queue.items.entries = []
  next : s.queue.next = min k u64Max
  weight : s.queue.weight = 0
  rooms : s.rooms = []

theorem deliver_blank {s : Inbox Unit Unit} (hclaim : s.queue.claim = .claimed)
    (hweight : s.queue.weight ≤ 1) :
    (s.deliver 1 blank).2.queue = { s.queue with weight := s.queue.weight + 1 }.append
      ⟨.message blank, 1, none⟩ ∧ (s.deliver 1 blank).2.rooms = s.rooms := by
  have hone : blank.weight 1 = 1 := by decide +kernel
  have hsum : saturatingAdd usizeMax s.queue.weight 1 = s.queue.weight + 1 := by
    simp only [saturatingAdd, usizeMax]
    omega
  have hfits : s.queue.fits 1 = true := by
    simp only [Queue.fits, hsum, applicationInboxWeight, decide_eq_true_eq]
    omega
  have hadmitted : s.queue.admitWeight 1 = .ok { s.queue with weight := s.queue.weight + 1 } := by
    simp [Queue.admitWeight, hclaim, hfits, hsum]
  have hpush : { s.queue with weight := s.queue.weight + 1 }.push blank 1 none =
      { s.queue with weight := s.queue.weight + 1 }.append ⟨.message blank, 1, none⟩ :=
    if_pos hclaim
  simp only [Inbox.deliver, hone, hadmitted, hpush, and_self]

/-- A message is delivered and taken. -/
theorem Idle.turn {k : ℕ} {s : Inbox Unit Unit} (h : Idle k s) :
    Idle (k + 1) (s.run 1 [.deliver blank, .take]) := by
  obtain ⟨hqueue, hrooms⟩ := deliver_blank h.claim (h.weight.trans_le (Nat.zero_le 1))
  have hentries : (s.deliver 1 blank).2.queue.items.entries =
      [(s.queue.next, ⟨.message blank, 1, none⟩)] := by
    rw [hqueue]
    simp [Queue.append, BTreeMap.insert, h.items, BTreeMap.insertInto]
  have hfirst : (s.deliver 1 blank).2.queue.items.first? =
      some (s.queue.next, ⟨.message blank, 1, none⟩) := by
    simp [BTreeMap.first?, hentries]
  change Idle (k + 1) (s.deliver 1 blank).2.take
  rw [Inbox.take, Queue.take, hfirst]
  refine ⟨?_, entries_remove_first hentries, ?_, ?_, ?_⟩
  · simp only [hqueue]
    exact h.claim
  · simp only [hqueue, Queue.append, saturatingAdd, h.next]
    omega
  · simp only [hqueue, Queue.append, h.weight]
  · simp only [hrooms]
    exact h.rooms

/-- Two messages at the last position: one is lost, and its weight stays. -/
theorem Idle.lost {s : Inbox Unit Unit} (h : Idle u64Max s) :
    (s.run 1 [.deliver blank, .deliver blank]).queue.claim ≠ .released ∧
      (s.run 1 [.deliver blank, .deliver blank]).queue.weight ≠
        heldWeight 1 (s.run 1 [.deliver blank, .deliver blank]) := by
  have hnext : s.queue.next = u64Max := by rw [h.next, min_self]
  obtain ⟨hfirst, hrooms⟩ := deliver_blank h.claim (h.weight.trans_le (Nat.zero_le 1))
  have hone : (s.deliver 1 blank).2.queue.weight = 1 := by
    simp only [hfirst, Queue.append, h.weight]
  have hclaim : (s.deliver 1 blank).2.queue.claim = .claimed := by
    simp only [hfirst, Queue.append, h.claim]
  have hfull : (s.deliver 1 blank).2.queue.next = u64Max := by
    simp only [hfirst, Queue.append, saturatingAdd, hnext]
    omega
  have hentries : (s.deliver 1 blank).2.queue.items.entries =
      [(u64Max, ⟨.message blank, 1, none⟩)] := by
    rw [hfirst]
    simp [Queue.append, BTreeMap.insert, h.items, BTreeMap.insertInto, hnext]
  obtain ⟨hsecond, hrooms'⟩ := deliver_blank hclaim hone.le
  have hkept : ((s.deliver 1 blank).2.deliver 1 blank).2.queue.items.entries =
      [(u64Max, ⟨.message blank, 1, none⟩)] := by
    rw [hsecond]
    simp [Queue.append, BTreeMap.insert, hentries, BTreeMap.insertInto, hfull]
  change ((s.deliver 1 blank).2.deliver 1 blank).2.queue.claim ≠ .released ∧
    ((s.deliver 1 blank).2.deliver 1 blank).2.queue.weight ≠
      heldWeight 1 ((s.deliver 1 blank).2.deliver 1 blank).2
  rw [heldWeight, hkept, hrooms', hrooms, h.rooms, hsecond]
  simp [Queue.append, hclaim, hone, messagesOf]

/-- `k` messages, each taken before the next. -/
def turns (k : ℕ) : List (InboxCall Unit Unit) :=
  (List.replicate k [.deliver blank, .take]).flatten

theorem idle_turns {s : Inbox Unit Unit} (h : Idle 0 s) (k : ℕ) : Idle k (s.run 1 (turns k)) := by
  induction k with
  | zero => exact h
  | succ k ih =>
    rw [turns, List.replicate_succ', List.flatten_append, List.flatten_singleton,
      Inbox.run_append]
    exact ih.turn

theorem idle_claimed : Idle 0 ((Inbox.new : Inbox Unit Unit).run 1 [.claim]) :=
  ⟨rfl, rfl, rfl, rfl, rfl⟩

/-- With the last position reached, the weight counts a message that no longer waits. -/
theorem inbox_weight_uncounted :
    ¬ ∀ calls : List (InboxCall Unit Unit), Lawful 1 ((Inbox.new : Inbox Unit Unit).run 1 calls) := by
  intro hall
  have hlost := (idle_turns idle_claimed u64Max).lost
  rw [← Inbox.run_append, ← Inbox.run_append] at hlost
  exact hlost.2 ((hall _).weight hlost.1).1

end Rings.AppInbox
