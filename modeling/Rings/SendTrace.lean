import Rings.SendLanes

/-!
Runs of the onion send queues: the endpoints that wait for space, the emitters, and what every
lane took and sent.

An endpoint that waits holds a registration and the receiving end of its wake-up. Woken, it hands
the registration back and retries; abandoned, it drops the receiver and then the registration.
-/

namespace Rings.Onion

/-- Where an endpoint is in its wait. -/
inductive WaitPhase
  | registered
  | woken
  /-- The receiver is dropped, the registration not yet. -/
  | abandoned
  /-- The registration is handed back to the retry. -/
  | retrying
  deriving DecidableEq

structure OnionLaneWait where
  peer : Did
  phase : WaitPhase
  deriving DecidableEq

/-- What the lane of one emitter took, what left it, and the cell its emitter is sending. -/
structure LaneLog (T : Type) where
  epoch : BitVec 64
  accepted : List T
  left : List T
  sending : Option T
  deriving DecidableEq

/-- One emission: its link, when it started, and its units. -/
structure EmissionStart where
  peer : Did
  startUs : ℕ
  units : ℕ
  deriving DecidableEq

/-- The queues in a run, with their endpoints, the history of every lane and every emission, and
whether every waiter that a wake-up passed over belonged to a lane nobody waits for. -/
structure SendTrace (T : Type) where
  state : OrderedSendState T
  waits : BTreeMap ℕ OnionLaneWait
  nextWaiter : ℕ
  logs : BTreeMap Did (LaneLog T)
  past : List (Did × LaneLog T)
  starts : List EmissionStart
  clean : Bool

/-- One step. A `requeue` hands back the cell in flight, or a stale emitter's `stray`; `order` and
`peers` are the orders in which the tables list their keys. -/
inductive SendEvent (T : Type)
  | openLane (nowUs : ℕ) (peer : Did)
  | relay (nowUs : ℕ) (peer : Did) (item : T) (class_ : OnionLoopClass)
  | local (nowUs : ℕ) (peer : Did) (item : T) (class_ : OnionLoopClass)
  | endpoint (nowUs : ℕ) (peer : Did) (item : T) (class_ : OnionLoopClass)
  | handBack (waiter : ℕ)
  | retry (nowUs : ℕ) (waiter : ℕ) (item : T) (class_ : OnionLoopClass)
  | dropReceiver (waiter : ℕ)
  | dropRegistration (waiter : ℕ)
  | next (nowUs : ℕ) (peer : Did) (epoch : BitVec 64) (floor : OnionIdleFloor) (credited : Bool)
  | requeue (peer : Did) (epoch : BitVec 64) (stray : T)
  | complete (peer : Did) (epoch : BitVec 64) (order : List Did)
  | close (nowUs : ℕ) (peer : Did) (order : List Did)
  | shutdown (nowUs : ℕ) (peers order : List Did)

namespace OrderedSendState

variable {T : Type}

/-- No waiter that a wake-up passes over is of a lane with endpoints: of each lane it reaches, the
first waiter is alive or the count is zero. -/
def passesClean (alive : ℕ → Bool) (s : OrderedSendState T) : List Did → Bool
  | [] => true
  | candidate :: candidates =>
    match s.space.get? candidate with
    | none => s.passesClean alive candidates
    | some queue =>
      (decide (s.waitingFor candidate = 0) || queue.head?.all alive) &&
        (queue.any alive || s.passesClean alive candidates)

/-- The wake-up for a place freed on `peer`'s lane passes over none. -/
def wakesClean (alive : ℕ → Bool) (order : List Did) (s : OrderedSendState T) (peer : Did) : Bool :=
  s.passesClean alive (s.candidates order peer)

/-- The wake-up for the close of `peer`'s lane passes over none. -/
def closesClean (alive : ℕ → Bool) (order : List Did) (s : OrderedSendState T) (peer : Did) :
    Bool :=
  (s.lanes.get? peer).isNone ||
    { s with space := s.space.remove peer }.wakesClean alive order peer

end OrderedSendState

/-- The class of an emission: the cover's own, or that of the cell in flight. -/
def Emission.class_ {T : Type} (lane : Option (PeerLane T)) : Emission T → OnionLoopClass
  | .cover class_ => class_
  | .real _ => (lane.bind PeerLane.inFlight).elim .default InFlight.class_

namespace SendTrace

variable {T : Type}

def new : SendTrace T := ⟨.default, .empty, 0, .empty, [], [], true⟩

/-- The receiving end of the wake-up is not dropped. -/
def alive (t : SendTrace T) (waiter : ℕ) : Bool :=
  (t.waits.get? waiter).any fun wait => wait.phase = .registered || wait.phase = .woken

/-- The waits of endpoints registered for, or retrying into, the lane of `peer`. -/
def endpointsOf (waits : BTreeMap ℕ OnionLaneWait) (peer : Did) : ℕ :=
  waits.sumBy fun _ wait => if wait.peer = peer then 1 else 0

def endpoints (t : SendTrace T) (peer : Did) : ℕ := endpointsOf t.waits peer

/-- The waits with one endpoint in another phase. -/
def moveTo (waits : BTreeMap ℕ OnionLaneWait) (waiter : ℕ) (phase : WaitPhase) :
    BTreeMap ℕ OnionLaneWait :=
  waits.replace waiter ((waits.get? waiter).map fun wait => { wait with phase := phase })

/-- The wake-ups of the registered endpoints among `woken` fire. -/
def fire (waits : BTreeMap ℕ OnionLaneWait) (woken : List ℕ) : BTreeMap ℕ OnionLaneWait :=
  woken.foldl (fun waits waiter =>
    if (waits.get? waiter).any fun wait => wait.phase = .registered then
      moveTo waits waiter .woken
    else waits) waits

/-- The history of `peer`'s lane, changed by `f`. -/
def onLog (logs : BTreeMap Did (LaneLog T)) (peer : Did) (f : LaneLog T → LaneLog T) :
    BTreeMap Did (LaneLog T) :=
  logs.replace peer ((logs.get? peer).map f)

def openLane (t : SendTrace T) (nowUs : ℕ) (peer : Did) : SendTrace T :=
  match t.state.openLane peer nowUs with
  | (state, none) => { t with state := state }
  | (state, some epoch) =>
    { t with state := state, logs := t.logs.insert peer ⟨epoch, [], [], none⟩ }

def enqueue (t : SendTrace T) (nowUs : ℕ) (peer : Did) (item : T) (class_ : OnionLoopClass)
    (role : QueueRole) : SendTrace T :=
  match t.state.enqueue peer item class_ nowUs role t.nextWaiter with
  | (state, .ok ()) =>
    { t with
      state := state
      logs := onLog t.logs peer fun log => { log with accepted := log.accepted ++ [item] } }
  | (state, .error ⟨_, _, none⟩) => { t with state := state }
  | (state, .error ⟨_, _, some waiter⟩) =>
    { t with
      state := state
      waits := t.waits.insert waiter ⟨peer, .registered⟩
      nextWaiter := t.nextWaiter + 1 }

def next (t : SendTrace T) (nowUs : ℕ) (peer : Did) (epoch : BitVec 64) (floor : OnionIdleFloor)
    (credited : Bool) : SendTrace T :=
  match t.state.next peer epoch floor credited nowUs with
  | (state, .emit emission) =>
    let start := ⟨peer, nowUs, (emission.class_ (state.lanes.get? peer)).units⟩
    let logs :=
      match emission with
      | .real item => onLog t.logs peer fun log => { log with sending := some item }
      | .cover _ => t.logs
    { t with state := state, logs := logs, starts := t.starts ++ [start] }
  | (state, _) => { t with state := state }

def requeue (t : SendTrace T) (peer : Did) (epoch : BitVec 64) (stray : T) : SendTrace T :=
  let item := ((t.logs.get? peer).bind LaneLog.sending).getD stray
  match t.state.requeue peer epoch item with
  | (state, true) =>
    { t with state := state, logs := onLog t.logs peer fun log => { log with sending := none } }
  | (state, false) => { t with state := state }

def complete (t : SendTrace T) (peer : Did) (epoch : BitVec 64) (order : List Did) :
    SendTrace T :=
  if (t.state.laneAt peer epoch).any (·.inFlight.isSome) then
    let (state, woken) := t.state.complete t.alive order peer epoch
    { t with
      state := state
      waits := fire t.waits woken.toList
      logs := onLog t.logs peer fun log =>
        { log with left := log.left ++ log.sending.toList, sending := none }
      clean := t.clean && t.state.wakesClean t.alive order peer }
  else t

def close (t : SendTrace T) (nowUs : ℕ) (peer : Did) (order : List Did) : SendTrace T :=
  let (state, woken, _) := t.state.close t.alive order peer nowUs
  { t with
    state := state
    waits := fire t.waits woken
    logs := t.logs.remove peer
    past := (t.logs.get? peer).toList.map (peer, ·) ++ t.past
    clean := t.clean && t.state.closesClean t.alive order peer }

def shutdown (t : SendTrace T) (nowUs : ℕ) (peers order : List Did) : SendTrace T :=
  peers.foldl (fun t peer => t.close nowUs peer order)
    { t with state := { t.state with shut := true } }

def step (t : SendTrace T) : SendEvent T → Option (SendTrace T)
  | .openLane nowUs peer => some (t.openLane nowUs peer)
  | .relay nowUs peer item class_ => some (t.enqueue nowUs peer item class_ .relay)
  | .local nowUs peer item class_ => some (t.enqueue nowUs peer item class_ .local)
  | .endpoint nowUs peer item class_ =>
    some (t.enqueue nowUs peer item class_ (.endpoint false))
  | .handBack waiter =>
    if (t.waits.get? waiter).any fun wait => wait.phase = .woken then
      some { t with waits := moveTo t.waits waiter .retrying }
    else none
  | .retry nowUs waiter item class_ =>
    match t.waits.get? waiter with
    | some ⟨peer, .retrying⟩ =>
      some ({ t with waits := t.waits.remove waiter }.enqueue nowUs peer item class_
        (.endpoint true))
    | _ => none
  | .dropReceiver waiter =>
    if t.alive waiter then some { t with waits := moveTo t.waits waiter .abandoned } else none
  | .dropRegistration waiter =>
    match t.waits.get? waiter with
    | some ⟨peer, .abandoned⟩ =>
      some { t with state := t.state.leave peer, waits := t.waits.remove waiter }
    | _ => none
  | .next nowUs peer epoch floor credited => some (t.next nowUs peer epoch floor credited)
  | .requeue peer epoch stray => some (t.requeue peer epoch stray)
  | .complete peer epoch order => some (t.complete peer epoch order)
  | .close nowUs peer order => some (t.close nowUs peer order)
  | .shutdown nowUs peers order =>
    if peers.Perm (t.state.lanesOutside []) then some (t.shutdown nowUs peers order) else none

def run (t : SendTrace T) : List (SendEvent T) → Option (SendTrace T)
  | [] => some t
  | e :: es => (t.step e).bind fun t => t.run es

inductive Reaches : SendTrace T → Prop
  | start : Reaches new
  | step {t t' : SendTrace T} (e : SendEvent T) : Reaches t → t.step e = some t' → Reaches t'

end SendTrace

end Rings.Onion
