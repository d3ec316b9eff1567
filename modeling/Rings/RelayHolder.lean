import Rings.Topology
import Rings.Cyclic

/-!
The holder of a relay key: the clockwise segment a view covers, the holder and the members it
names, and the previous-holder records nodes pass to their successor heads.

A node owns the positions after it up to its successor. A node that holds no relay mail is
passed over, and a run of such nodes behind a previous holder stands in the segment as its
first node.
-/

namespace Rings

/-! ### Segments -/

structure RelayNode where
  did : Did
  holds : Bool
  deriving DecidableEq

structure RelaySegment where
  nodes : List RelayNode
  closes : Bool
  knowsEveryHolder : Bool
  deriving DecidableEq

/-- `key ∈ (start, stop]`, clockwise. -/
def inArc (start key stop : Did) : Bool := key ≠ start && dist start key ≤ dist start stop

namespace RelaySegment

def new (nodes : List RelayNode) : RelaySegment := ⟨nodes, false, false⟩

def closing (nodes : List RelayNode) : RelaySegment := ⟨nodes, true, false⟩

def knowingEveryHolder (s : RelaySegment) : RelaySegment := { s with knowsEveryHolder := true }

/-- The index of the node owning `key`, if the segment places it. -/
def ownerIndex (s : RelaySegment) (key : Did) : Option ℕ :=
  match (s.nodes.zip s.nodes.tail).findIdx? fun arc => inArc arc.1.did key arc.2.did with
  | some owner => some owner
  | none =>
    match s.nodes.head?, s.nodes.getLast? with
    | some first, some last =>
      if s.closes && (s.nodes.length = 1 || inArc last.did key first.did) then
        some (s.nodes.length - 1)
      else none
    | _, _ => none

/-- The nodes from index `owner` on, and round to the start when the segment closes the ring
or knows every holder. -/
def clockwiseFrom (s : RelaySegment) (owner : ℕ) : List RelayNode :=
  s.nodes.drop owner ++ s.nodes.take (if s.closes || s.knowsEveryHolder then owner else 0)

end RelaySegment

inductive RelayHolder
  | holder (did : Did)
  | unheld
  | unknown
  deriving DecidableEq

/-- The first node at or after the key's owner that holds relay mail. -/
def relayHolder (s : RelaySegment) (key : Did) : RelayHolder :=
  match s.ownerIndex key with
  | none => .unknown
  | some owner =>
    match (s.clockwiseFrom owner).find? (·.holds) with
    | none => .unheld
    | some node => .holder node.did

/-! ### Members -/

inductive RelayMembers
  | members (dids : List Did)
  | unheld
  | unknown
  deriving DecidableEq

/-- The first `replicas` nodes of the segment at or after the owner that hold relay mail. -/
def relayMembers (s : RelaySegment) (key : Did) (replicas : ℕ) : RelayMembers :=
  match s.ownerIndex key with
  | none => .unknown
  | some owner =>
    -- a small ring's successor list may wrap past the start: a node is one member
    let members := collectDistinct replicas []
      (((s.clockwiseFrom owner).filter (·.holds)).map (·.did))
    if members.isEmpty then .unheld else .members members

inductive ChainNext
  | last
  | member (did : Did)
  | beyondView
  deriving DecidableEq

structure ChainPosition where
  rank : ℕ
  previous : Option Did
  next : ChainNext
  deriving DecidableEq

/-- The place of `loc` in the chain of `key`, or none when it is no member. -/
def chainPosition (s : RelaySegment) (key loc : Did) (replicas : ℕ) : Option ChainPosition :=
  match relayMembers s key replicas with
  | .members members =>
    (members.findIdx? (· = loc)).map fun rank =>
      { rank := rank
        previous := if rank = 0 then none else members[rank - 1]?
        next :=
          if rank + 1 = replicas then .last
          else match members[rank + 1]? with
            | some next => .member next
            | none => if s.knowsEveryHolder then .last else .beyondView }
  | _ => none

/-! ### Neighbourhoods -/

structure PreviousHolder where
  holder : Did
  runStart : Did
  deriving DecidableEq

/-- The previous holders as the predecessor `origin` passed them. -/
structure Passed where
  origin : Did
  previous : List PreviousHolder
  closed : Bool
  deriving DecidableEq

structure RelayNeighborhood where
  storageLess : List Did
  passed : Option Passed
  replicas : ℕ
  suspected : List (Did × ℕ)
  deriving DecidableEq

namespace RelayNeighborhood

def withReplicas (replicas : ℕ) : RelayNeighborhood := ⟨[], none, max replicas 1, []⟩

def holds (nb : RelayNeighborhood) (peer : Did) : Bool := peer ∉ nb.storageLess

def chains (nb : RelayNeighborhood) (peer : Did) : Bool :=
  nb.holds peer && nb.suspected.all (·.1 ≠ peer)

/-- The link names a new holder whose run ends at the last one kept. -/
def follows (nb : RelayNeighborhood) (kept : List PreviousHolder) (link : PreviousHolder) : Bool :=
  match kept.getLast? with
  | none => true
  | some nearer =>
    nb.holds link.holder && inArc link.holder link.runStart nearer.holder &&
      kept.all (·.holder ≠ link.holder)

/-- The loop of `chain`: extend `kept` while each link stands behind the one before it. A link
naming the local node closes the ring. -/
def chainFrom (nb : RelayNeighborhood) (loc : Did) :
    List PreviousHolder → List PreviousHolder → List PreviousHolder × Bool
  | kept, [] => (kept, false)
  | kept, link :: rest =>
    if link.holder = loc then (if kept.isEmpty then [link] else kept, true)
    else if nb.follows kept link then nb.chainFrom loc (kept ++ [link]) rest
    else (kept, false)

/-- The longest prefix that is a chain of previous holders, and whether it came round. -/
def chain (nb : RelayNeighborhood) (loc : Did) (previous : List PreviousHolder) :
    List PreviousHolder × Bool :=
  nb.chainFrom loc [] (previous.take nb.replicas)

/-- `origin` is the predecessor, and the nearest link holds mail and has its run end here. A
link naming the local node has come round the ring. -/
def takes (nb : RelayNeighborhood) (s : TopologyState) (origin : Did) (nearest : PreviousHolder) :
    Bool :=
  let runEndsHere :=
    if nearest.holder = s.localDid then decide (nearest.runStart ≠ s.localDid)
    else inArc nearest.holder nearest.runStart s.localDid
  decide (s.predecessor = some origin) && nb.holds nearest.holder && runEndsHere

/-- Take the previous holders that `origin` passed; says whether they were taken. -/
def pass (nb : RelayNeighborhood) (s : TopologyState) (origin : Did)
    (previous : List PreviousHolder) : RelayNeighborhood × Bool :=
  match previous.head? with
  | none => (nb, false)
  | some nearest =>
    if nb.takes s origin nearest then
      let (kept, closed) := nb.chain s.localDid previous
      ({ nb with passed := some ⟨origin, kept, closed⟩ }, true)
    else (nb, false)

/-- The record, if the current predecessor passed it and the nearest link agrees with it. -/
def previousHoldersIn (nb : RelayNeighborhood) (s : TopologyState) : Option Passed :=
  nb.passed.bind fun passed =>
    (s.predecessor.filter (· = passed.origin)).bind fun predecessor =>
      passed.previous.head?.bind fun nearest =>
        let agrees :=
          if nb.holds predecessor then
            decide (predecessor = nearest.holder ∧ nearest.runStart = s.localDid)
          else decide (predecessor = nearest.runStart) ||
            inArc nearest.runStart predecessor s.localDid
        if agrees then some passed else none

def node (nb : RelayNeighborhood) (peer : Did) : RelayNode := ⟨peer, nb.chains peer⟩

/-- The nodes a list of previous holders places, farthest first: each holder, and the first
node of the run after it unless that is the next node already. -/
def behind (nb : RelayNeighborhood) (loc : Did) (after : Did) :
    List PreviousHolder → List RelayNode
  | [] => []
  | link :: farther =>
    nb.behind loc link.holder farther ++
      (if link.holder ≠ loc then [⟨link.holder, nb.chains link.holder⟩] else []) ++
      (if link.runStart ≠ after then [⟨link.runStart, false⟩] else [])

/-- What the view places behind the node: its previous holders, or else its predecessor. -/
def back (nb : RelayNeighborhood) (s : TopologyState) : List RelayNode :=
  match nb.previousHoldersIn s, s.predecessor with
  | some passed, _ => nb.behind s.localDid s.localDid passed.previous
  | none, some predecessor => [nb.node predecessor]
  | none, none => []

/-- A record that came round names every holder; a successor list that reaches the predecessor
covers every node. -/
def wholeRing (nb : RelayNeighborhood) (s : TopologyState) : Bool :=
  (nb.previousHoldersIn s).any (·.closed) || s.predecessor.any (· ∈ s.successors)

def segment (nb : RelayNeighborhood) (s : TopologyState) (localHolds : Bool) : RelaySegment :=
  let nodes := nb.back s ++ [⟨s.localDid, localHolds⟩]
  if s.successors.isEmpty then .closing nodes
  else
    let segment := RelaySegment.new (nodes ++ s.successors.map nb.node)
    if nb.wholeRing s then segment.knowingEveryHolder else segment

def recordToPass (nb : RelayNeighborhood) (s : TopologyState) (localHolds : Bool) :
    Option (Did × List PreviousHolder) :=
  s.successors.head?.bind fun head =>
    let known := (nb.previousHoldersIn s).elim [] (·.previous)
    if localHolds then
      some (head, ((⟨s.localDid, head⟩ :: known.takeWhile (·.holder ≠ s.localDid)).take
        nb.replicas))
    else if known.isEmpty then none
    else some (head, known)

end RelayNeighborhood

/-! ### Exchanges -/

/-- A record on its way from a node to its successor head. -/
structure RelayRecord where
  origin : Did
  target : Did
  previous : List PreviousHolder
  deriving DecidableEq

/-- The neighbourhoods of the ring, and every record ever passed. -/
structure RelayNetwork where
  neighborhood : Did → RelayNeighborhood
  inFlight : List RelayRecord

inductive RelayEvent
  | send (n : Did)
  | deliver (record : ℕ)
  deriving DecidableEq

/-- One half of an exchange: a member passes its record, or a passed record arrives. Records
may arrive late, repeatedly and in any order. -/
def relayStep (members : List Did) (view : Did → TopologyState) (declared : Did → Bool)
    (net : RelayNetwork) : RelayEvent → RelayNetwork
  | .send n =>
    if n ∈ members then
      match (net.neighborhood n).recordToPass (view n) (declared n) with
      | none => net
      | some (head, previous) => { net with inFlight := net.inFlight ++ [⟨n, head, previous⟩] }
    else net
  | .deliver i =>
    match net.inFlight[i]? with
    | none => net
    | some r =>
      { net with
        neighborhood := Function.update net.neighborhood r.target
          ((net.neighborhood r.target).pass (view r.target) r.origin r.previous).1 }

/-- No record yet, every declaration known, nobody suspected. -/
def relayStart (members : List Did) (declared : Did → Bool) (replicas : ℕ) : RelayNetwork :=
  ⟨fun _ => { RelayNeighborhood.withReplicas replicas with
    storageLess := members.filter (!declared ·) }, []⟩

def relayRun (members : List Did) (view : Did → TopologyState) (declared : Did → Bool)
    (replicas : ℕ) (es : List RelayEvent) : RelayNetwork :=
  es.foldl (relayStep members view declared) (relayStart members declared replicas)

end Rings
