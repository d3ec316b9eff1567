import Rings.SendTrace

/-!
What the onion send queues hold, and what they count.
-/

namespace Rings.Onion

variable {T : Type}

/-! ### What a lane holds -/

namespace PeerLane

def held (lane : PeerLane T) : List (OnionLoopClass × Bool) :=
  (lane.inFlight.map fun flight => (flight.class_, flight.relayed)).toList ++
    lane.queued.map fun cell => (cell.class_, cell.relayed)

def bytesOf (cells : List (OnionLoopClass × Bool)) : ℕ :=
  (cells.map fun cell => cell.1.cellBytes).sum

def relayedOf (cells : List (OnionLoopClass × Bool)) : RelayShare :=
  ⟨(cells.filter Prod.snd).length, bytesOf (cells.filter Prod.snd)⟩

/-- The lane counts what it holds, within its bounds. -/
structure Accounts (lane : PeerLane T) : Prop where
  bytes : lane.pendingBytes = bytesOf lane.held
  relayed : lane.relayed = relayedOf lane.held
  cells_le : lane.held.length ≤ maxPendingOnionSendsPerPeer
  bytes_le : bytesOf lane.held ≤ maxPendingOnionSendBytesPerPeer

lemma bytesOf_cons (cell : OnionLoopClass × Bool) (cells : List (OnionLoopClass × Bool)) :
    bytesOf (cell :: cells) = cell.1.cellBytes + bytesOf cells := by
  rw [bytesOf, List.map_cons, List.sum_cons]
  rfl

lemma bytesOf_append (cells more : List (OnionLoopClass × Bool)) :
    bytesOf (cells ++ more) = bytesOf cells + bytesOf more := by
  rw [bytesOf, List.map_append, List.sum_append]
  rfl

lemma bytesOf_filter_le (cells : List (OnionLoopClass × Bool)) :
    bytesOf (cells.filter Prod.snd) ≤ bytesOf cells := by
  induction cells with
  | nil => exact le_rfl
  | cons cell cells ih =>
    rw [List.filter_cons, bytesOf_cons]
    split
    · rw [bytesOf_cons]
      omega
    · omega

lemma accounts_new (epoch : BitVec 64) (clock : LinkClock) :
    { (new epoch : PeerLane T) with clock := clock }.Accounts :=
  ⟨rfl, rfl, Nat.zero_le _, Nat.zero_le _⟩

lemma Accounts.congr {lane lane' : PeerLane T} (h : lane.Accounts) (hheld : lane'.held = lane.held)
    (hbytes : lane'.pendingBytes = lane.pendingBytes) (hrelayed : lane'.relayed = lane.relayed) :
    lane'.Accounts :=
  ⟨by rw [hbytes, hheld, h.bytes], by rw [hrelayed, hheld, h.relayed], by rw [hheld]; exact h.cells_le,
    by rw [hheld]; exact h.bytes_le⟩

/-- A lane that takes one more cell. -/
lemma Accounts.push {lane lane' : PeerLane T} (h : lane.Accounts) {class_ : OnionLoopClass}
    {relayed : Bool} (hheld : lane'.held = lane.held ++ [(class_, relayed)])
    (hpending : lane'.pendingBytes = lane.pendingBytes + class_.cellBytes)
    (hrelayed : lane'.relayed =
      if relayed then lane.relayed.with class_.cellBytes else lane.relayed)
    (hcells : lane.held.length + 1 ≤ maxPendingOnionSendsPerPeer)
    (hbytes : lane.pendingBytes + class_.cellBytes ≤ maxPendingOnionSendBytesPerPeer) :
    lane'.Accounts := by
  have hsum : bytesOf lane'.held = bytesOf lane.held + class_.cellBytes := by
    rw [hheld, bytesOf_append, bytesOf_cons]
    rfl
  refine ⟨?_, ?_, ?_, ?_⟩
  · rw [hpending, hsum, h.bytes]
  · have hcount := List.length_filter_le Prod.snd lane.held
    have hfew := bytesOf_filter_le lane.held
    rw [hrelayed, hheld, relayedOf, List.filter_append, h.relayed]
    cases relayed with
    | false => simp [relayedOf]
    | true =>
      have hcap : maxPendingOnionSendBytesPerPeer ≤ usizeMax := by decide
      have hplaces : maxPendingOnionSendsPerPeer ≤ usizeMax := by decide
      rw [h.bytes] at hbytes
      simp only [if_true, RelayShare.with, relayedOf, saturatingAdd, RelayShare.mk.injEq]
      constructor
      · rw [List.length_append, Nat.min_eq_left (by omega)]
        rfl
      · rw [bytesOf_append, Nat.min_eq_left (by omega)]
        rfl
  · rw [hheld, List.length_append]
    exact hcells
  · rw [hsum, ← h.bytes]
    exact hbytes

lemma Accounts.pop {lane lane' : PeerLane T} (h : lane.Accounts) {class_ : OnionLoopClass}
    {relayed : Bool} (hheld : lane.held = (class_, relayed) :: lane'.held)
    (hpending : lane'.pendingBytes = lane.pendingBytes - class_.cellBytes)
    (hrelayed : lane'.relayed =
      if relayed then lane.relayed.without class_.cellBytes else lane.relayed) :
    lane'.Accounts := by
  have hsum : bytesOf lane.held = class_.cellBytes + bytesOf lane'.held := by
    rw [hheld, bytesOf_cons]
  refine ⟨?_, ?_, ?_, ?_⟩
  · rw [hpending, h.bytes, hsum]
    omega
  · rw [hrelayed, h.relayed, hheld, relayedOf, List.filter_cons]
    cases relayed with
    | false => rfl
    | true =>
      simp only [if_true, RelayShare.without, relayedOf, List.length_cons, bytesOf_cons,
        RelayShare.mk.injEq]
      omega
  · have hcells := h.cells_le
    rw [hheld, List.length_cons] at hcells
    omega
  · have hbytes := h.bytes_le
    omega

end PeerLane

/-! ### What the state counts -/

namespace OrderedSendState

/-- The number of cells the lane of `peer` holds. -/
def cells (s : OrderedSendState T) (peer : Did) : ℕ := (s.lanes.get? peer).elim 0 (·.held.length)

/-- The quota and the bytes are those of the cells the lanes hold. -/
structure Accounts (s : OrderedSendState T) : Prop where
  peers : s.quota.Counts s.cells
  total_max : s.quota.maxTotal = maxPendingOnionSends
  peer_max : s.quota.maxPerPeer = maxPendingOnionSendsPerPeer
  total : s.quota.total = s.lanes.sumBy fun _ lane => lane.held.length
  bytes : s.pendingBytes = s.lanes.sumBy fun _ lane => PeerLane.bytesOf lane.held
  lanes : ∀ p lane, s.lanes.get? p = some lane → lane.Accounts

lemma accounts_default : (default : OrderedSendState T).Accounts :=
  ⟨PeerQuota.counts_new _ _, rfl, rfl, rfl, rfl, fun _ _ => nofun⟩

/-- The counts read the quota, the bytes and the lanes alone. -/
lemma Accounts.congr {s s' : OrderedSendState T} (h : s.Accounts) (hquota : s'.quota = s.quota)
    (hbytes : s'.pendingBytes = s.pendingBytes) (hlanes : s'.lanes = s.lanes) : s'.Accounts := by
  refine ⟨?_, ?_, ?_, ?_, ?_, ?_⟩
  · rw [hquota]
    exact h.peers.congr fun p => by rw [cells, cells, hlanes]
  · rw [hquota, h.total_max]
  · rw [hquota, h.peer_max]
  · rw [hquota, hlanes, h.total]
  · rw [hbytes, hlanes, h.bytes]
  · rw [hlanes]
    exact h.lanes

lemma cells_insert (s s' : OrderedSendState T) {peer : Did} {lane : PeerLane T}
    (h : s'.lanes = s.lanes.insert peer lane) (p : Did) :
    s'.cells p = if p = peer then lane.held.length else s.cells p := by
  rw [cells, h, BTreeMap.get?_insert, cells]
  split <;> rfl

/-- A lane that changes with its quota and bytes. -/
lemma Accounts.update {s s' : OrderedSendState T} (h : s.Accounts) {peer : Did}
    {lane : PeerLane T} (hlanes : s'.lanes = s.lanes.insert peer lane) (hlane : lane.Accounts)
    (hpeers : s'.quota.Counts s'.cells)
    (hmax : s'.quota.maxTotal = s.quota.maxTotal ∧ s'.quota.maxPerPeer = s.quota.maxPerPeer)
    (htotal : s'.quota.total + s.cells peer = s.quota.total + lane.held.length)
    (hbytes : s'.pendingBytes + (s.lanes.get? peer).elim 0 (fun lane => PeerLane.bytesOf lane.held) =
      s.pendingBytes + PeerLane.bytesOf lane.held) : s'.Accounts := by
  refine ⟨hpeers, hmax.1.trans h.total_max, hmax.2.trans h.peer_max, ?_, ?_, ?_⟩
  · have hsum := BTreeMap.sumBy_insert (fun _ (lane : PeerLane T) => lane.held.length) s.lanes peer
      lane
    rw [h.total, cells] at htotal
    rw [hlanes]
    omega
  · have hsum := BTreeMap.sumBy_insert (fun _ (lane : PeerLane T) => PeerLane.bytesOf lane.held)
      s.lanes peer lane
    rw [h.bytes] at hbytes
    rw [hlanes]
    omega
  · intro p other hget
    rw [hlanes, BTreeMap.get?_insert] at hget
    split at hget
    · exact Option.some.inj hget ▸ hlane
    · exact h.lanes p other hget

/-- A lane that changes and holds the same cells. -/
lemma Accounts.setLane {s : OrderedSendState T} (h : s.Accounts) {peer : Did}
    {lane lane' : PeerLane T} (hget : s.lanes.get? peer = some lane)
    (hheld : lane'.held = lane.held) (hbytes : lane'.pendingBytes = lane.pendingBytes)
    (hrelayed : lane'.relayed = lane.relayed) : (s.setLane peer lane').Accounts := by
  have hcells : s.cells peer = lane.held.length := by rw [cells, hget]; rfl
  refine h.update rfl ((h.lanes _ _ hget).congr hheld hbytes hrelayed) ?_ ⟨rfl, rfl⟩ ?_ ?_
  · refine h.peers.congr fun p => ?_
    rw [cells_insert s _ rfl p, hheld]
    split
    · rename_i hp
      rw [hp, hcells]
    · rfl
  · rw [hcells, hheld]
    rfl
  · rw [hget, hheld]
    rfl

/-! ### What a step does -/

/-- Only the waiters and their counts differ. -/
structure Waits (s s' : OrderedSendState T) : Prop where
  quota : s'.quota = s.quota
  pendingBytes : s'.pendingBytes = s.pendingBytes
  lanes : s'.lanes = s.lanes
  nextEpoch : s'.nextEpoch = s.nextEpoch
  retired : s'.retired = s.retired
  shut : s'.shut = s.shut

lemma Waits.refl (s : OrderedSendState T) : Waits s s := ⟨rfl, rfl, rfl, rfl, rfl, rfl⟩

lemma Waits.trans {s s' s'' : OrderedSendState T} (h : Waits s s') (h' : Waits s' s'') :
    Waits s s'' :=
  ⟨h'.quota.trans h.quota, h'.pendingBytes.trans h.pendingBytes, h'.lanes.trans h.lanes,
    h'.nextEpoch.trans h.nextEpoch, h'.retired.trans h.retired, h'.shut.trans h.shut⟩

lemma Accounts.waits {s s' : OrderedSendState T} (h : s.Accounts) (hw : Waits s s') :
    s'.Accounts :=
  h.congr hw.quota hw.pendingBytes hw.lanes

lemma waits_leave (s : OrderedSendState T) (peer : Did) : Waits s (s.leave peer) := by
  rw [leave]
  split
  · exact .refl s
  · split <;> exact ⟨rfl, rfl, rfl, rfl, rfl, rfl⟩

lemma waits_forgetWaiter (s : OrderedSendState T) (peer : Did) : Waits s (s.forgetWaiter peer) := by
  rw [forgetWaiter]
  split
  · exact .refl s
  · exact ⟨rfl, rfl, rfl, rfl, rfl, rfl⟩

lemma waits_popWaiter (alive : ℕ → Bool) (s : OrderedSendState T) (peer : Did) (queue : List ℕ) :
    Waits s (s.popWaiter alive peer queue).1 := by
  induction queue generalizing s with
  | nil => exact ⟨rfl, rfl, rfl, rfl, rfl, rfl⟩
  | cons waiter queue ih =>
    rw [popWaiter]
    split
    · exact ⟨rfl, rfl, rfl, rfl, rfl, rfl⟩
    · exact (waits_forgetWaiter s peer).trans (ih _)

lemma waits_wakeFirst (alive : ℕ → Bool) (s : OrderedSendState T) (candidates : List Did) :
    Waits s (s.wakeFirst alive candidates).1 := by
  induction candidates generalizing s with
  | nil => exact .refl s
  | cons candidate candidates ih =>
    rw [wakeFirst]
    split
    · exact ih s
    · rename_i queue hqueue
      have hpop := waits_popWaiter alive s candidate queue
      split
      · rename_i s' waiter heq
        rw [heq] at hpop
        exact hpop
      · rename_i s' heq
        rw [heq] at hpop
        exact hpop.trans (ih s')

lemma waits_wakeOne (alive : ℕ → Bool) (order : List Did) (s : OrderedSendState T) (peer : Did) :
    Waits s (s.wakeOne alive order peer).1 :=
  waits_wakeFirst alive s _

/-- An admitted cell reserves its quota and bytes. -/
lemma admit_cases {s s' : OrderedSendState T} {peer : Did} {itemBytes : ℕ}
    (h : s.tryAdmit peer itemBytes = .ok s') :
    ∃ lane quota, s.lanes.get? peer = some lane ∧ s.quota.reserve peer = .ok quota ∧
      s.pendingBytes + itemBytes ≤ maxPendingOnionSendBytes ∧
      lane.pendingBytes + itemBytes ≤ maxPendingOnionSendBytesPerPeer ∧
      s' = { s with
        quota := quota
        pendingBytes := s.pendingBytes + itemBytes
        lanes := s.lanes.insert peer { lane with pendingBytes := lane.pendingBytes + itemBytes } } := by
  rw [tryAdmit] at h
  split at h
  · cases h
  rename_i lane hget
  split at h
  · cases h
  split at h
  · rename_i nextPeerBytes nextPendingBytes hpeer hpending
    rw [checkedAdd] at hpeer hpending
    split at hpeer <;> cases hpeer
    split at hpending <;> cases hpending
    split at h
    · cases h
    split at h
    · cases h
    · cases hreserve : s.quota.reserve peer with
      | error reason =>
        rw [hreserve] at h
        cases h
      | ok quota =>
        rw [hreserve] at h
        cases h
        exact ⟨lane, quota, hget, rfl, by omega, by omega, rfl⟩
  · cases h

/-- A cell is refused, with an endpoint registered or not, or it joins the queue of a lane. -/
lemma enqueue_cases (s : OrderedSendState T) (peer : Did) (item : T) (class_ : OnionLoopClass)
    (nowUs : ℕ) (role : QueueRole) (waiter : ℕ) :
    (∃ reason, s.enqueue peer item class_ nowUs role waiter =
      (if role = .endpoint true then s.leave peer else s, .error ⟨reason, item, none⟩)) ∨
    (∃ reason, (role = .endpoint true ∨ role = .endpoint false) ∧
      s.enqueue peer item class_ nowUs role waiter =
        ((if role = .endpoint true then s.leave peer else s).register peer waiter,
          .error ⟨reason, item, some waiter⟩)) ∨
    ∃ lane quota, s.lanes.get? peer = some lane ∧ s.quota.reserve peer = .ok quota ∧
      lane.pendingBytes + class_.cellBytes ≤ maxPendingOnionSendBytesPerPeer ∧
      s.enqueue peer item class_ nowUs role waiter =
        ({ (if role = .endpoint true then s.leave peer else s) with
            quota := quota
            pendingBytes := s.pendingBytes + class_.cellBytes
            lanes := s.lanes.insert peer
              { lane with
                pendingBytes := lane.pendingBytes + class_.cellBytes
                relayed :=
                  if decide (role = .relay) then lane.relayed.with class_.cellBytes
                  else lane.relayed
                queued := lane.queued ++ [⟨item, class_, decide (role = .relay)⟩]
                class_ := class_
                clock := { lane.clock with lastRealUs := some nowUs }
                wake := false } }, .ok ()) := by
  have hwaits : Waits s (if role = .endpoint true then s.leave peer else s) := by
    split
    · exact waits_leave s peer
    · exact .refl s
  unfold enqueue
  dsimp only
  split
  · rename_i hyields
    exact Or.inl ⟨.peerFull, by rw [if_neg (by rw [hyields.1]; nofun)]⟩
  generalize (if role = .endpoint true then s.leave peer else s) = s₀ at hwaits ⊢
  split
  · rename_i reason hadmitted
    split
    · rename_i hrole
      exact Or.inr (Or.inl ⟨reason, hrole.1, rfl⟩)
    · exact Or.inl ⟨reason, rfl⟩
  · rename_i s₁ hadmitted
    obtain ⟨lane, quota, hget, hreserve, -, hbytes, rfl⟩ := admit_cases hadmitted
    dsimp only
    rw [BTreeMap.get?_insert, if_pos rfl]
    refine Or.inr (Or.inr ⟨lane, quota, hwaits.lanes ▸ hget, hwaits.quota ▸ hreserve, hbytes, ?_⟩)
    rw [← hwaits.pendingBytes, ← hwaits.lanes]
    simp only [setLane, BTreeMap.insert_insert]

/-- The emitter's step leaves the state, arms the wake-up, or emits the head of the queue or
cover. -/
lemma next_cases (s : OrderedSendState T) (peer : Did) (epoch : BitVec 64) (floor : OnionIdleFloor)
    (credited : Bool) (nowUs : ℕ) :
    s.next peer epoch floor credited nowUs = (s, .stop) ∨
    ∃ lane, s.laneAt peer epoch = some lane ∧
      ((∃ step, (∀ emission, step ≠ .emit emission) ∧
        s.next peer epoch floor credited nowUs = (s.setLane peer { lane with wake := true }, step)) ∨
      ∃ queued, plan lane.clock queued credited floor nowUs = .emit ∧
        ((∃ head queue, lane.inFlight = none ∧ lane.queued = head :: queue ∧
          s.next peer epoch floor credited nowUs =
            (s.setLane peer
              { lane with
                queued := queue
                inFlight := some ⟨head.class_, head.relayed⟩
                clock := { lane.clock with lastStart := some (nowUs, head.class_.units) } },
              .emit (.real head.item))) ∨
        s.next peer epoch floor credited nowUs =
          (s.setLane peer
            { lane with
              clock := { lane.clock with lastStart := some (nowUs, lane.class_.units) } },
            .emit (.cover lane.class_)))) := by
  unfold next
  split
  · exact Or.inl rfl
  · rename_i lane hlane
    refine Or.inr ⟨lane, hlane, ?_⟩
    dsimp only
    split
    · exact Or.inl ⟨.wait _, fun _ => nofun, rfl⟩
    · exact Or.inl ⟨.waitCredit, fun _ => nofun, rfl⟩
    · rename_i hplan
      refine Or.inr ⟨_, hplan, ?_⟩
      split
      · rename_i head queue hflight hqueue
        exact Or.inl ⟨head, queue, hflight, hqueue, rfl⟩
      · exact Or.inr rfl

lemma laneAt_get? {s : OrderedSendState T} {peer : Did} {epoch : BitVec 64} {lane : PeerLane T}
    (h : s.laneAt peer epoch = some lane) :
    s.lanes.get? peer = some lane ∧ lane.epoch = epoch := by
  obtain ⟨hget, hepoch⟩ := Option.filter_eq_some_iff.1 h
  exact ⟨hget, of_decide_eq_true hepoch⟩

lemma requeue_cases (s : OrderedSendState T) (peer : Did) (epoch : BitVec 64) (item : T) :
    s.requeue peer epoch item = (s, false) ∨
    ∃ lane flight, s.laneAt peer epoch = some lane ∧ lane.inFlight = some flight ∧
      s.requeue peer epoch item =
        (s.setLane peer
          { lane with
            inFlight := none
            queued := ⟨item, flight.class_, flight.relayed⟩ :: lane.queued }, true) := by
  unfold requeue
  split
  · exact Or.inl rfl
  · rename_i lane hlane
    split
    · exact Or.inl rfl
    · rename_i flight hflight
      exact Or.inr ⟨lane, flight, hlane, hflight, rfl⟩

/-- A cell in flight that completes releases its quota and bytes. -/
lemma complete_cases {s : OrderedSendState T} (h : s.Accounts) (alive : ℕ → Bool)
    (order : List Did) (peer : Did) (epoch : BitVec 64) :
    ((s.laneAt peer epoch).any (·.inFlight.isSome) = false ∧
      s.complete alive order peer epoch = (s, none)) ∨
    ∃ lane flight, ∃ s' : OrderedSendState T,
      s.laneAt peer epoch = some lane ∧ lane.inFlight = some flight ∧
      s'.lanes = s.lanes.insert peer
        { lane with
          inFlight := none
          relayed :=
            if flight.relayed then lane.relayed.without flight.class_.cellBytes else lane.relayed
          pendingBytes := lane.pendingBytes - flight.class_.cellBytes } ∧
      s'.space = s.space ∧ s'.waiting = s.waiting ∧ s'.retired = s.retired ∧ s'.Accounts ∧
      s.complete alive order peer epoch = s'.wakeOne alive order peer := by
  rw [complete]
  split
  · rename_i hnone
    exact Or.inl ⟨by rw [hnone]; rfl, rfl⟩
  rename_i lane hlane
  split
  · rename_i hflight
    exact Or.inl ⟨by rw [hlane, Option.any_some, hflight]; rfl, rfl⟩
  rename_i flight hflight
  obtain ⟨hget, -⟩ := laneAt_get? hlane
  have hcells : s.cells peer = lane.held.length := by rw [cells, hget]; rfl
  have hheld : lane.held = (flight.class_, flight.relayed) ::
      lane.queued.map fun cell => (cell.class_, cell.relayed) := by
    rw [PeerLane.held, hflight]
    rfl
  have hpos : 0 < s.cells peer := by
    rw [hcells, hheld]
    exact Nat.succ_pos _
  have hsum := BTreeMap.sumBy_remove (fun _ (lane : PeerLane T) => lane.held.length) s.lanes peer
  have hbytes := BTreeMap.sumBy_remove (fun _ (lane : PeerLane T) => PeerLane.bytesOf lane.held)
    s.lanes peer
  rw [hget, Option.elim_some, ← h.total] at hsum
  rw [hget, Option.elim_some, ← h.bytes] at hbytes
  obtain ⟨quota, hrelease, htotal, hmaxTotal, hmaxPeer, hcounts⟩ :=
    h.peers.release hpos (by omega)
  rw [hrelease]
  dsimp only
  refine Or.inr ⟨lane, flight, _, hlane, hflight, ?_, ?_, ?_, ?_, ?_, rfl⟩
  iterate 4 rfl
  refine h.update rfl ((h.lanes _ _ hget).pop hheld rfl rfl) ?_ ⟨hmaxTotal, hmaxPeer⟩ ?_ ?_
  · refine hcounts _ fun p => ?_
    rw [cells_insert s _ rfl p]
    split
    · rename_i hp
      rw [hp, hcells, hheld]
      rfl
    · rfl
  · dsimp only
    rw [htotal, hcells, hheld]
    simp only [PeerLane.held, List.length_cons, List.length_append, Option.map_none,
      Option.toList_none, List.length_nil]
    omega
  · dsimp only
    rw [hget, Option.elim_some, hheld, PeerLane.bytesOf_cons]
    rw [hheld, PeerLane.bytesOf_cons] at hbytes
    dsimp only at hbytes ⊢
    simp only [PeerLane.held, Option.map_none, Option.toList_none, List.nil_append]
    omega

lemma cells_none {s : OrderedSendState T} {peer : Did} (h : s.lanes.get? peer = none) :
    s.cells peer = 0 := by
  rw [cells, h]
  rfl

/-- A lane opens with nothing in it, unless the link has one or the sender is shut. -/
lemma openLane_cases (s : OrderedSendState T) (peer : Did) (nowUs : ℕ) :
    s.openLane peer nowUs = (s, none) ∧ s.shut = true ∨
    ∃ retired, retired = (s.pruneRetired nowUs).retired ∧
      ((∃ lane, s.lanes.get? peer = some lane ∧
        s.openLane peer nowUs = ({ s with retired := retired.remove peer }, none)) ∨
      s.lanes.get? peer = none ∧
        s.openLane peer nowUs =
          ({ s with
              retired := retired.remove peer
              nextEpoch := s.nextEpoch + 1
              lanes := s.lanes.insert peer
                { PeerLane.new s.nextEpoch with
                  clock := (retired.get? peer).getD LinkClock.default } }, some s.nextEpoch)) := by
  unfold openLane
  split
  · rename_i hshut
    exact Or.inl ⟨rfl, hshut⟩
  · refine Or.inr ⟨_, rfl, ?_⟩
    dsimp only
    split
    · rename_i lane hget
      exact Or.inl ⟨lane, hget, rfl⟩
    · rename_i hget
      exact Or.inr ⟨hget, rfl⟩

lemma Accounts.openLane {s : OrderedSendState T} (h : s.Accounts) (peer : Did) (nowUs : ℕ) :
    (s.openLane peer nowUs).1.Accounts := by
  rcases openLane_cases s peer nowUs with ⟨heq, -⟩ | ⟨retired, -, ⟨lane, -, heq⟩ | ⟨hget, heq⟩⟩ <;>
    rw [heq]
  · exact h
  · exact h.congr rfl rfl rfl
  · refine h.update rfl (PeerLane.accounts_new _ _) ?_ ⟨rfl, rfl⟩ ?_ ?_
    · refine h.peers.congr fun p => ?_
      rw [cells_insert s _ rfl p]
      split
      · rename_i hp
        rw [hp, cells_none hget]
        rfl
      · rfl
    · rw [cells_none hget]
      rfl
    · rw [hget]
      rfl

lemma Accounts.enqueue {s : OrderedSendState T} (h : s.Accounts) (peer : Did) (item : T)
    (class_ : OnionLoopClass) (nowUs : ℕ) (role : QueueRole) (waiter : ℕ) :
    (s.enqueue peer item class_ nowUs role waiter).1.Accounts := by
  have hwaits : (if role = .endpoint true then s.leave peer else s).Accounts := by
    split
    · exact h.waits (waits_leave s peer)
    · exact h
  rcases enqueue_cases s peer item class_ nowUs role waiter with ⟨reason, heq⟩ |
    ⟨reason, -, heq⟩ | ⟨lane, quota, hget, hreserve, hbytes, heq⟩ <;> rw [heq]
  · exact hwaits
  · exact hwaits.congr rfl rfl rfl
  · have hcells : s.cells peer = lane.held.length := by rw [cells, hget]; rfl
    obtain ⟨-, hplaces, hquota⟩ := PeerQuota.reserve_cases hreserve
    rw [h.peers.peerTotal, hcells, h.peer_max] at hplaces
    refine h.update rfl
      ((h.lanes _ _ hget).push (by simp [PeerLane.held]) rfl rfl hplaces hbytes) ?_
      (by rw [hquota]; exact ⟨rfl, rfl⟩) ?_ ?_
    · refine h.peers.reserve hreserve fun p => ?_
      rw [cells_insert s _ rfl p]
      split
      · rename_i hp
        rw [hp, hcells]
        simp only [PeerLane.held, List.map_append, List.length_append, List.map_cons,
          List.map_nil, List.length_cons, List.length_nil]
        omega
      · rfl
    · rw [hcells, hquota]
      simp only [PeerLane.held, List.map_append, List.length_append, List.map_cons,
        List.map_nil, List.length_cons, List.length_nil]
      omega
    · rw [hget, Option.elim_some]
      simp only [PeerLane.held, List.map_append, List.map_cons, List.map_nil,
        PeerLane.bytesOf_append, PeerLane.bytesOf_cons]
      simp only [PeerLane.bytesOf, List.map_nil, List.sum_nil]
      omega

lemma Accounts.next {s : OrderedSendState T} (h : s.Accounts) (peer : Did) (epoch : BitVec 64)
    (floor : OnionIdleFloor) (credited : Bool) (nowUs : ℕ) :
    (s.next peer epoch floor credited nowUs).1.Accounts := by
  rcases next_cases s peer epoch floor credited nowUs with heq | ⟨lane, hlane, h'⟩
  · rw [heq]
    exact h
  obtain ⟨hget, -⟩ := laneAt_get? hlane
  rcases h' with ⟨step, -, heq⟩ | ⟨queued, -, ⟨head, queue, hflight, hqueue, heq⟩ | heq⟩ <;>
    rw [heq]
  · exact h.setLane hget rfl rfl rfl
  · exact h.setLane hget (by rw [PeerLane.held, PeerLane.held, hflight, hqueue]; rfl) rfl rfl
  · exact h.setLane hget rfl rfl rfl

lemma Accounts.requeue {s : OrderedSendState T} (h : s.Accounts) (peer : Did) (epoch : BitVec 64)
    (item : T) : (s.requeue peer epoch item).1.Accounts := by
  rcases requeue_cases s peer epoch item with heq | ⟨lane, flight, hlane, hflight, heq⟩ <;> rw [heq]
  · exact h
  · exact h.setLane (laneAt_get? hlane).1 (by rw [PeerLane.held, PeerLane.held, hflight]; rfl) rfl rfl

lemma Accounts.complete {s : OrderedSendState T} (h : s.Accounts) (alive : ℕ → Bool)
    (order : List Did) (peer : Did) (epoch : BitVec 64) :
    (s.complete alive order peer epoch).1.Accounts := by
  rcases complete_cases h alive order peer epoch with ⟨-, heq⟩ |
    ⟨lane, flight, s', -, -, -, -, -, -, hs', heq⟩ <;> rw [heq]
  · exact h
  · exact hs'.waits (waits_wakeOne alive order s' peer)

/-- A lane that closes takes its cells with it. -/
lemma close_cases (s : OrderedSendState T) (alive : ℕ → Bool) (order : List Did) (peer : Did)
    (nowUs : ℕ) :
    s.lanes.get? peer = none ∧ s.close alive order peer nowUs = (s, [], []) ∨
    ∃ lane s', s.lanes.get? peer = some lane ∧
      s' = { s with
        lanes := s.lanes.remove peer
        retired := (s.pruneRetired nowUs).retired.insert peer lane.clock
        quota := (s.quota.releasePeer peer).1
        pendingBytes := s.pendingBytes - lane.pendingBytes
        space := s.space.remove peer } ∧
      s.close alive order peer nowUs =
        ((s'.wakeOne alive order peer).1,
          ((s.space.get? peer).getD []).filter alive ++ (s'.wakeOne alive order peer).2.toList,
          lane.queued.map Queued.item) := by
  rw [close]
  split
  · rename_i hget
    exact Or.inl ⟨hget, rfl⟩
  · rename_i lane hget
    exact Or.inr ⟨lane, _, hget, rfl, rfl⟩

lemma Accounts.close {s : OrderedSendState T} (h : s.Accounts) (alive : ℕ → Bool)
    (order : List Did) (peer : Did) (nowUs : ℕ) :
    (s.close alive order peer nowUs).1.Accounts := by
  rcases close_cases s alive order peer nowUs with ⟨-, heq⟩ | ⟨lane, s', hget, hs', heq⟩ <;> rw [heq]
  · exact h
  refine Accounts.waits (s := s') ?_ (waits_wakeOne alive order s' peer)
  have hcells : s.cells peer = lane.held.length := by rw [cells, hget]; rfl
  have hsum := BTreeMap.sumBy_remove (fun _ (lane : PeerLane T) => lane.held.length) s.lanes peer
  have hbytes := BTreeMap.sumBy_remove (fun _ (lane : PeerLane T) => PeerLane.bytesOf lane.held)
    s.lanes peer
  rw [hget, Option.elim_some, ← h.total] at hsum
  rw [hget, Option.elim_some, ← h.bytes] at hbytes
  have hle : s.cells peer ≤ s.quota.total := by omega
  obtain ⟨htotal, hmaxTotal, hmaxPeer, hcounts⟩ := h.peers.releasePeer hle
  rw [hs']
  refine ⟨hcounts _ fun p => ?_, hmaxTotal.trans h.total_max, hmaxPeer.trans h.peer_max, ?_, ?_, ?_⟩
  · rw [cells, cells]
    dsimp only
    rw [BTreeMap.get?_remove]
    split <;> rfl
  · dsimp only
    omega
  · dsimp only
    rw [(h.lanes _ _ hget).bytes]
    omega
  · intro p other hother
    dsimp only at hother
    rw [BTreeMap.get?_remove] at hother
    split at hother
    · cases hother
    · exact h.lanes p other hother

end OrderedSendState

end Rings.Onion
