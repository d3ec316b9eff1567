import Rings.Did
import Mathlib.Data.List.Basic

/-!
Per-lane credit flow control: the two ends of one lane, and the lane they make with the frames
and the signals between them.

Credits are cumulative frame indices within a generation. A shrink opens a generation, and ends
when the sender returns the bound it keeps to. Frames arrive in order and once; signals may be
delivered in any order, any number of times.
-/

namespace Rings

/-- The credit window of one lane: its cap, the frames it always grants, and the releases it
accumulates before it advertises more. -/
structure CreditWindow where
  frames : ℕ
  floor : ℕ
  batch : ℕ
  floor_pos : 0 < floor
  floor_le : floor ≤ frames
  batch_pos : 0 < batch
  frames_le : frames ≤ u64Max

/-- The batch of a lane granted `grant` frames: half of it, at least one, at most `batch`. -/
def CreditWindow.batchOf (w : CreditWindow) (grant : ℕ) : ℕ :=
  let half := grant / 2
  let batch := if half < w.batch then half else w.batch
  if batch = 0 then 1 else batch

inductive LaneSignal
  | credit (limit generation : ℕ)
  | shrink (limit generation : ℕ)
  | returned (bound generation : ℕ)
  deriving DecidableEq

/-! ### The sending end -/

structure SendCredit where
  committed : ℕ
  reserved : ℕ
  limit : ℕ
  generation : ℕ
  returned : Option ℕ
  deriving DecidableEq

namespace SendCredit

def new (w : CreditWindow) : SendCredit := ⟨0, 0, w.floor, 0, none⟩

/-- The credits free for a new reservation. -/
def free (c : SendCredit) : ℕ := c.limit - saturatingAdd u64Max c.committed c.reserved

def tryReserve (c : SendCredit) : SendCredit × Bool :=
  if c.free > 0 then ({ c with reserved := saturatingAdd u64Max c.reserved 1 }, true)
  else (c, false)

def commit (c : SendCredit) : SendCredit :=
  { c with reserved := c.reserved - 1, committed := saturatingAdd u64Max c.committed 1 }

def cancel (c : SendCredit) : SendCredit := { c with reserved := c.reserved - 1 }

/-- Join a received credit of the sender's own generation. -/
def grant (c : SendCredit) (limit generation : ℕ) : SendCredit :=
  if generation = c.generation then { c with limit := max c.limit limit } else c

/-- Apply a shrink, and answer with the bound the sender keeps to. A duplicate of the current
shrink is answered again; an older one is not. -/
def shrink (c : SendCredit) (limit generation : ℕ) : SendCredit × Option ℕ :=
  let next :=
    if generation > c.generation then
      let bound := max (saturatingAdd u64Max c.committed c.reserved) limit
      { c with limit := bound, generation := generation, returned := some bound }
    else c
  (next, next.returned.filter fun _ => generation = next.generation)

end SendCredit

/-! ### The receiving end -/

/-- A frame beyond the credit its receiver advertised. -/
structure CreditViolation where
  received : ℕ
  advertised : ℕ
  deriving DecidableEq

structure ReceiveWindow where
  received : ℕ
  released : ℕ
  advertised : ℕ
  lent : ℕ
  generation : ℕ
  shrinking : Option ℕ
  active : Bool
  grown : Bool
  deriving DecidableEq

namespace ReceiveWindow

def new (w : CreditWindow) : ReceiveWindow := ⟨0, 0, w.floor, 0, 0, none, false, false⟩

def tryAdmit (r : ReceiveWindow) : Except CreditViolation ReceiveWindow :=
  if r.received < r.advertised then
    .ok { r with received := saturatingAdd u64Max r.received 1, active := true }
  else .error ⟨r.received, r.advertised⟩

def release (r : ReceiveWindow) : ReceiveWindow :=
  { r with released := min (saturatingAdd u64Max r.released 1) r.received }

/-- What the lane is granted now: its floor and its share. -/
def granted (r : ReceiveWindow) (w : CreditWindow) : ℕ := saturatingAdd u64Max w.floor r.lent

/-- The credit to advertise with its generation, if a batch of releases is complete or the pool
lent the lane more since; nothing while a shrink is pending. -/
def advertise (r : ReceiveWindow) (w : CreditWindow) : ReceiveWindow × Option (ℕ × ℕ) :=
  if r.shrinking.isSome then (r, none)
  else
    let target := saturatingAdd u64Max r.released (r.granted w)
    let batchComplete :=
      decide (target ≥ saturatingAdd u64Max r.advertised (w.batchOf (r.granted w)))
    let due := batchComplete || (r.grown && decide (target > r.advertised))
    if due then ({ r with advertised := target, grown := false }, some (target, r.generation))
    else (r, none)

/-- The share of the pool the lane may still borrow, none while a shrink is pending. -/
def want (r : ReceiveWindow) (w : CreditWindow) : ℕ :=
  match r.shrinking with
  | some _ => 0
  | none => w.frames - w.floor - r.lent

/-- Take at most `share` more of the pool; the second value is what the lane took. -/
def lend (r : ReceiveWindow) (w : CreditWindow) (share : ℕ) : ReceiveWindow × ℕ :=
  let taken := min share (r.want w)
  ({ r with lent := saturatingAdd u64Max r.lent taken, grown := r.grown || decide (taken > 0) },
    taken)

/-- Shrink the lane's share to `lent`, in a new generation. -/
def shrinkTo (r : ReceiveWindow) (w : CreditWindow) (lent : ℕ) :
    ReceiveWindow × Option LaneSignal :=
  if r.lent ≤ lent ∨ r.shrinking.isSome then (r, none)
  else
    let generation := saturatingAdd u64Max r.generation 1
    -- never above the advertised credit, so the bound the sender returns is not either
    let limit := min (saturatingAdd u64Max (saturatingAdd u64Max r.released w.floor) lent)
      r.advertised
    ({ r with generation := generation, lent := lent, shrinking := some limit },
      some (.shrink limit generation))

/-- The idle check: a lane that admitted no frame since the last one is shrunk to its floor. -/
def idleShrink (r : ReceiveWindow) (w : CreditWindow) : ReceiveWindow × Option LaneSignal :=
  let next := { r with active := false }
  if r.active then (next, none) else next.shrinkTo w 0

/-- Apply the sender's return of `bound`; says whether it ended a pending shrink. -/
def returned (r : ReceiveWindow) (bound generation : ℕ) : ReceiveWindow × Bool :=
  if r.shrinking.isNone ∨ generation ≠ r.generation then (r, false)
  else
    ({ r with advertised := min (max bound r.received) r.advertised, shrinking := none }, true)

end ReceiveWindow

/-! ### The lane -/

/-- One lane: its ends, the frames in flight, every signal sent, the signals delivered at least
once, and the frames refused. -/
structure CreditLane where
  send : SendCredit
  recv : ReceiveWindow
  inFlight : ℕ
  sent : List LaneSignal
  delivered : List LaneSignal
  refused : List CreditViolation
  deriving DecidableEq

inductive CreditEvent
  | reserve
  | commit
  | cancel
  | deliver
  | release
  | advertise
  | lend (share : ℕ)
  | shrinkTo (lent : ℕ)
  | idleShrink
  | signal (x : LaneSignal)
  deriving DecidableEq

namespace CreditLane

def new (w : CreditWindow) : CreditLane := ⟨.new w, .new w, 0, [], [], []⟩

def emit (s : CreditLane) (x : Option LaneSignal) : CreditLane :=
  { s with sent := x.toList ++ s.sent }

/-- What a signal does at the end it is addressed to. -/
def receive (s : CreditLane) : LaneSignal → CreditLane
  | .credit limit generation => { s with send := s.send.grant limit generation }
  | .shrink limit generation =>
    let (send, bound) := s.send.shrink limit generation
    { s with send := send }.emit (bound.map (.returned · generation))
  | .returned bound generation => { s with recv := (s.recv.returned bound generation).1 }

def step (w : CreditWindow) (s : CreditLane) : CreditEvent → Option CreditLane
  | .reserve => some { s with send := s.send.tryReserve.1 }
  | .commit =>
    if 0 < s.send.reserved then
      some { s with send := s.send.commit, inFlight := s.inFlight + 1 }
    else none
  | .cancel => if 0 < s.send.reserved then some { s with send := s.send.cancel } else none
  | .deliver =>
    if 0 < s.inFlight then
      match s.recv.tryAdmit with
      | .ok recv => some { s with recv := recv, inFlight := s.inFlight - 1 }
      | .error v => some { s with inFlight := s.inFlight - 1, refused := v :: s.refused }
    else none
  | .release =>
    if s.recv.released < s.recv.received then some { s with recv := s.recv.release } else none
  | .advertise =>
    let (recv, credit) := s.recv.advertise w
    some ({ s with recv := recv }.emit (credit.map fun (c : ℕ × ℕ) => .credit c.1 c.2))
  | .lend share => some { s with recv := (s.recv.lend w share).1 }
  | .shrinkTo lent =>
    let (recv, signal) := s.recv.shrinkTo w lent
    some ({ s with recv := recv }.emit signal)
  | .idleShrink =>
    let (recv, signal) := s.recv.idleShrink w
    some ({ s with recv := recv }.emit signal)
  | .signal x =>
    if x ∈ s.sent then some (receive { s with delivered := x :: s.delivered } x) else none

def run (w : CreditWindow) (s : CreditLane) (es : List CreditEvent) : Option CreditLane :=
  es.foldlM (step w) s

end CreditLane

end Rings
