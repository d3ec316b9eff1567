import Rings.SessionTurns
import Mathlib.Tactic

/-!
Two nodes that relay to each other, and what reaches the backends they connect.

A session is named on the wire by its opener's counter alone, and the counter starts again when
its node does. While every id a restarted node mints is one the other node has no entry for and no
frame in flight carries, all frames of an id belong to one accepted connection, and a backend is
reached only by the frames of the connection it was connected for.
-/

namespace Rings.Transport

variable {T : Type*}

/-! ### The two nodes -/

inductive Party
  | first | second
deriving DecidableEq

def Party.other : Party → Party
  | .first => .second
  | .second => .first

@[simp] lemma Party.other_other (p : Party) : p.other.other = p := by cases p <;> rfl

@[simp] lemma Party.other_ne (p : Party) : p.other ≠ p := by cases p <;> decide

lemma Party.eq_or_other (p x : Party) : x = p ∨ x = p.other := by
  cases p <;> cases x <;> decide

structure Connection where
  party : Party
  incarnation : ℕ
  generation : ℕ
deriving DecidableEq

structure Flight where
  to_ : Party
  frame : Frame
  sender : Option Connection

/-- What reached a local socket: the connection its backend was connected for, if the peer opened
it, the frame that reached it, and the connection that frame was sent for. -/
structure Applied where
  backend : Option Connection
  frame : Frame
  sender : Option Connection
  output : Output

/-- The two relays. `origin` is, for a generation a peer opened, the connection whose `Open`
connected it. -/
structure RelayWorld (T : Type*) where
  nodes : Party → RelayNode T
  incarnation : Party → ℕ
  network : List Flight
  origin : Party → ℕ → Option Connection
  log : List Applied

/-- A step of one node, a frame of a third party, the arrival or the loss of the frame at a
position of the network, or a node's restart. -/
inductive RelayWorldOp (T : Type*)
  | accepted (p : Party) (token : ℕ) (peer : Did) (service : String) (a : Answers)
  | registerService (p : Party) (name : String) (target : T)
  | work (p : Party) (g : ℕ) (role : TaskRole) (act : TaskAct)
  | otherNamespace (p : Party)
  | thirdParty (p : Party) (sender : Did) (frame : Frame) (a : Answers)
  | deliver (index : ℕ) (a : Answers)
  | lose (index : ℕ)
  | restart (p : Party)

namespace RelayWorld

variable (did : Party → Did)

def start (kind : TransportKind) (ns : String) : RelayWorld T where
  nodes := fun _ => .new kind ns
  incarnation := fun _ => 0
  network := []
  origin := fun _ _ => none
  log := []

variable (w : RelayWorld T)

/-- The connection of a generation of `p`, as it is now. -/
def connection (p : Party) (g : ℕ) : Connection := ⟨p, w.incarnation p, g⟩

/-- The frame an output sends from `p` to the other node. -/
def flight? (p : Party) : Output → Option Flight
  | .frame source to_ f =>
    if to_ = did p.other then some ⟨p.other, f, source.map (w.connection p)⟩ else none
  | _ => none

/-- What an output of `p` applies of a frame, given with the connection it was sent for. -/
def applied? (p : Party) (cause : Option (Frame × Option Connection)) (o : Output) :
    Option Applied :=
  match cause, o with
  | some (f, sender), .queued g _ => some ⟨w.origin p g, f, sender, o⟩
  | some (f, sender), .cancelled g => some ⟨w.origin p g, f, sender, o⟩
  | _, _ => none

def connect (sender : Option Connection) (origin : ℕ → Option Connection) :
    Output → ℕ → Option Connection
  | .connected g => Function.update origin g sender
  | _ => origin

def advance (p : Party) (cause : Option (Frame × Option Connection))
    (next : RelayNode T × List Output) : RelayWorld T where
  nodes := Function.update w.nodes p next.1
  incarnation := w.incarnation
  network := w.network ++ next.2.filterMap (w.flight? did p)
  origin := Function.update w.origin p
    (next.2.foldl (connect (cause.bind Prod.snd)) (w.origin p))
  log := w.log ++ next.2.filterMap (w.applied? p cause)

/-- Node `p` starts again, without its sessions and their tasks. -/
def restart (p : Party) : RelayWorld T :=
  { w with
    nodes := Function.update w.nodes p (.new (w.nodes p).kind (w.nodes p).namespace_)
    incarnation := Function.update w.incarnation p (w.incarnation p + 1)
    origin := Function.update w.origin p fun _ => none }

def step : RelayWorldOp T → RelayWorld T
  | .accepted p token peer service a =>
    w.advance did p none ((w.nodes p).step (.accepted token peer service a))
  | .registerService p name target =>
    w.advance did p none ((w.nodes p).step (.registerService name target))
  | .work p g role act => w.advance did p none ((w.nodes p).step (.work g role act))
  | .otherNamespace p => w.advance did p none ((w.nodes p).step .otherNamespace)
  | .thirdParty p sender f a =>
    if sender = did p.other then w
    else w.advance did p (some (f, none)) ((w.nodes p).step (.frame sender f a))
  | .deliver index a =>
    match w.network[index]? with
    | none => w
    | some x =>
      advance did { w with network := w.network.eraseIdx index } x.to_ (some (x.frame, x.sender))
        ((w.nodes x.to_).step (.frame (did x.to_.other) x.frame a))
  | .lose index => { w with network := w.network.eraseIdx index }
  | .restart p => w.restart p

def run (w : RelayWorld T) (ops : List (RelayWorldOp T)) : RelayWorld T := ops.foldl (step did) w

end RelayWorld

/-! ### What a step of a node changes -/

def Frame.address : Frame → ℕ × Bool
  | .open_ session _ => (session, true)
  | .data session fromOpener _ _ => (session, fromOpener)
  | .datagram session fromOpener _ => (session, fromOpener)
  | .shutdown session fromOpener _ => (session, fromOpener)
  | .close session fromOpener => (session, fromOpener)

def Frame.opener? (f : Frame) : Option ℕ := if f.address.2 then some f.address.1 else none

def Frame.key (sender : Did) (ns : String) (f : Frame) : SessionKey :=
  ⟨sender, ns, f.address.1, openerToInitiator f.address.2⟩

lemma Frame.key_eq (sender : Did) (ns : String) (f : Frame) (s : RelayState T) :
    (RelayEvent.frame sender f : RelayEvent T).key? ns s = some (f.key sender ns) := by
  cases f <;> rfl

/-- A frame whose key at its receiver is a session the sender opened names it as its opener's. -/
lemma Frame.opener_of_key {sender peer : Did} {ns ns' : String} {f : Frame} {session : ℕ}
    (h : f.key sender ns = ⟨peer, ns', session, .remote⟩) :
    f.opener? = some session ∧ sender = peer := by
  simp only [Frame.key, SessionKey.mk.injEq] at h
  obtain ⟨hsender, -, hsession, hopener⟩ := h
  refine ⟨?_, hsender⟩
  unfold Frame.opener?
  cases hside : f.address.2 with
  | true => rw [hsession]; rfl
  | false =>
    rw [hside] at hopener
    cases hopener

lemma Frame.opener_eq_some {f : Frame} {session : ℕ} (h : f.opener? = some session) :
    f.address = (session, true) := by
  unfold Frame.opener? at h
  split at h
  · rename_i hside
    rw [← Option.some.inj h, ← hside]
  · cases h

/-- A frame sent about a session, as its opener's, is about one the sender opened. -/
lemma Frame.Of.opener {key : SessionKey} {f : Frame} {session : ℕ} (h : f.Of key)
    (hopener : f.opener? = some session) (hopens : f.opens ≠ 0 → key.initiator = .local_) :
    key.session = session ∧ key.initiator = .local_ := by
  have haddress := Frame.opener_eq_some hopener
  have hours : openedByUs key = true → key.initiator = .local_ := by simp [openedByUs]
  cases f with
  | open_ s service =>
    exact ⟨h.symm.trans (congrArg Prod.fst haddress), hopens Nat.one_ne_zero⟩
  | data s fromOpener seq bytes =>
    exact ⟨h.1.symm.trans (congrArg Prod.fst haddress),
      hours (h.2.symm.trans (congrArg Prod.snd haddress))⟩
  | datagram s fromOpener bytes =>
    exact ⟨h.1.symm.trans (congrArg Prod.fst haddress),
      hours (h.2.symm.trans (congrArg Prod.snd haddress))⟩
  | shutdown s fromOpener sent =>
    exact ⟨h.1.symm.trans (congrArg Prod.fst haddress),
      hours (h.2.symm.trans (congrArg Prod.snd haddress))⟩
  | close s fromOpener =>
    exact ⟨h.1.symm.trans (congrArg Prod.fst haddress),
      hours (h.2.symm.trans (congrArg Prod.snd haddress))⟩

namespace RelayNode

/-- A task of generation `g` was started. -/
def Used (n : RelayNode T) (g : ℕ) : Prop := ∃ role, n.tasks g role ≠ .idle

structure Wired (n : RelayNode T) : Prop where
  counted : n.state.Counted
  named : ∀ g, (n.registered g).namespace_ = n.namespace_
  unused : ∀ g, n.generations ≤ g → ∀ role, n.tasks g role = .idle
  owner : ∀ k g, n.map k = some g → n.registered g = k ∧ n.Used g
  opening : ∀ g role, (n.tasks g role).opens ≠ 0 → (n.registered g).initiator = .local_
  minted : ∀ g, n.Used g → (n.registered g).initiator = .local_ →
    (n.registered g).session < n.state.nextSession

/-- What a step changes, at the key of its event if it has one. -/
structure Change (n n' : RelayNode T) (outs : List Output) (k : Option SessionKey)
    (item? : Option Outbound) (mints : Prop) : Prop where
  wired : n'.Wired
  named : n'.namespace_ = n.namespace_
  nextSession : n.state.nextSession ≤ n'.state.nextSession
  keeps : ∀ g, n.Used g → n'.Used g ∧ n'.registered g = n.registered g
  used : ∀ g, n'.Used g → n.Used g ∨ g = n.generations ∧ k = some (n'.registered g) ∧
    ((n'.registered g).initiator = .local_ →
      mints ∧ (n'.registered g).session = n.state.nextSession)
  entries : ∀ key g, n'.map key = some g → n.map key = some g ∨ g = n.generations ∧
    k = some key ∧ (key.initiator = .remote → outs = [.connected g])
  frames : ∀ source to_ f, .frame source to_ f ∈ outs → ∀ session, f.opener? = some session →
    ∃ g, source = some g ∧ n.Used g ∧
      n.registered g = ⟨to_, n.namespace_, session, .local_⟩
  queued : ∀ g item, .queued g item ∈ outs → item? = some item ∧ ∃ key, k = some key ∧
    n.map key = some g
  cancelled : ∀ g, .cancelled g ∈ outs → ∃ key, k = some key ∧ n.map key = some g
  connected : (∀ g, .connected g ∉ outs) ∨ outs = [.connected n.generations] ∧
    ∃ key, k = some key ∧ key.initiator = .remote ∧ n'.map key = some n.generations

variable {n n' : RelayNode T} {outs : List Output} {k : SessionKey} {item? : Option Outbound}
  {mints : Prop}

lemma wired_new (kind : TransportKind) (ns : String) : (new kind ns : RelayNode T).Wired where
  counted := RelayState.counted_new
  named _ := rfl
  unused _ _ _ := rfl
  owner _ _ hmap := by cases hmap
  opening _ _ h := absurd rfl h
  minted _ h := by
    obtain ⟨role, hrole⟩ := h
    exact absurd rfl hrole

/-- A node whose tasks, table and registrations are what they were. -/
lemma Wired.congr (hw : n.Wired) (hcounted : n'.state.Counted)
    (hnamed : n'.namespace_ = n.namespace_) (hregistered : n'.registered = n.registered)
    (htasks : n'.tasks = n.tasks) (hmap : ∀ key g, n'.map key = some g → n.map key = some g)
    (hgenerations : n.generations ≤ n'.generations)
    (hnext : n.state.nextSession ≤ n'.state.nextSession) : n'.Wired where
  counted := hcounted
  named g := by rw [hregistered, hnamed, hw.named]
  unused g hg role := by rw [htasks, hw.unused g (hgenerations.trans hg)]
  owner key g h := by
    rw [hregistered]
    unfold Used
    rw [htasks]
    exact hw.owner key g (hmap key g h)
  opening g role := by
    rw [htasks, hregistered]
    exact hw.opening g role
  minted g := by
    unfold Used
    rw [htasks, hregistered]
    exact fun hused hlocal => (hw.minted g hused hlocal).trans_le hnext

/-- A change of the reducer's state, or a removal, with outputs that only end sessions. -/
lemma Change.of_congr (hw : n.Wired) {key? : Option SessionKey} (hcounted : n'.state.Counted)
    (hnamed : n'.namespace_ = n.namespace_) (hregistered : n'.registered = n.registered)
    (htasks : n'.tasks = n.tasks) (hmap : ∀ key g, n'.map key = some g → n.map key = some g)
    (hgenerations : n.generations ≤ n'.generations)
    (hnext : n.state.nextSession ≤ n'.state.nextSession)
    (hframes : ∀ source to_ f, .frame source to_ f ∈ outs → ∀ session,
      f.opener? = some session → ∃ g, source = some g ∧ n.Used g ∧
        n.registered g = ⟨to_, n.namespace_, session, .local_⟩)
    (hqueued : ∀ g item, .queued g item ∈ outs → item? = some item ∧ ∃ key, key? = some key ∧
      n.map key = some g)
    (hcancelled : ∀ g, .cancelled g ∈ outs → ∃ key, key? = some key ∧ n.map key = some g)
    (hconnected : ∀ g, .connected g ∉ outs) : Change n n' outs key? item? mints := by
  have hused : ∀ g, n'.Used g ↔ n.Used g := by
    intro g
    unfold Used
    rw [htasks]
  exact {
    wired := hw.congr hcounted hnamed hregistered htasks hmap hgenerations hnext
    named := hnamed
    nextSession := hnext
    keeps := fun g hg => ⟨(hused g).mpr hg, by rw [hregistered]⟩
    used := fun g hg => Or.inl ((hused g).mp hg)
    entries := fun key g h => Or.inl (hmap key g h)
    frames := hframes
    queued := hqueued
    cancelled := hcancelled
    connected := Or.inl hconnected }

lemma map_remove {key : SessionKey} {g : ℕ} (h : (n.remove k).map key = some g) :
    n.map key = some g := by
  simp only [remove, Function.update_apply] at h
  split at h
  · cases h
  · exact h

lemma started_opens {before stages : TaskRole → TaskStage} {initiator : Initiator}
    (hs : Started before initiator stages) (hidle : ∀ role, before role = .idle) {role : TaskRole}
    (h : (stages role).opens ≠ 0) : initiator = .local_ := by
  cases hs with
  | dials => cases role <;> simp [hidle, TaskStage.opens] at h
  | opens service => rfl
  | relays service => rfl

lemma started_socket {before stages : TaskRole → TaskStage} {initiator : Initiator}
    (hs : Started before initiator stages) : stages .socket ≠ .idle := by
  cases hs <;> simp

lemma Wired.opened (hw : n.Wired) {s : RelayState T} {stages : TaskRole → TaskStage}
    (hns : k.namespace_ = n.namespace_) (hr : n.state.Reduced s)
    (hstages : Started (n.tasks n.generations) k.initiator stages)
    (hside : (mints ∧ k.initiator = .local_ ∧ k.session = n.state.nextSession ∧
        s.nextSession = n.state.nextSession + 1 ∧ outs = []) ∨
      (k.initiator = .remote ∧ outs = [.connected n.generations])) :
    Change n { n with
      state := s
      map := Function.update n.map k (some n.generations)
      generations := n.generations + 1
      registered := Function.update n.registered n.generations k
      channels := Function.update n.channels n.generations ⟨[], false⟩
      tasks := Function.update n.tasks n.generations stages } outs (some k) item? mints := by
  have hidle := hw.unused n.generations (le_refl _)
  have hused : ∀ g, n.Used g → g ≠ n.generations := by
    rintro g ⟨role, hrole⟩ rfl
    exact hrole (hidle role)
  have hother : ∀ g, g ≠ n.generations → (Used { n with
      tasks := Function.update n.tasks n.generations stages } g ↔ n.Used g) := by
    intro g hg
    unfold Used
    simp only [Function.update_of_ne hg]
  have hentries : ∀ key g, Function.update n.map k (some n.generations) key = some g →
      n.map key = some g ∧ g ≠ n.generations ∨ g = n.generations ∧ key = k := by
    intro key g h
    rw [Function.update_apply] at h
    split at h
    · rename_i hkey
      exact Or.inr ⟨(Option.some.inj h).symm, hkey⟩
    · exact Or.inl ⟨h, hused g (hw.owner key g h).2⟩
  constructor
  · constructor
    · exact hr.counted
    · intro g
      simp only [Function.update_apply]
      split
      · exact hns
      · exact hw.named g
    · intro g hg role
      simp only at hg
      simp only [Function.update_of_ne (show g ≠ n.generations by omega)]
      exact hw.unused g (by omega) role
    · intro key g h
      rcases hentries key g h with ⟨hmap, hne⟩ | ⟨rfl, rfl⟩
      · obtain ⟨hregistered, hg⟩ := hw.owner key g hmap
        exact ⟨by simp only [Function.update_of_ne hne]; exact hregistered, (hother g hne).mpr hg⟩
      · refine ⟨by simp only [Function.update_self], .socket, ?_⟩
        simp only [Function.update_self]
        exact started_socket hstages
    · intro g role h
      by_cases hg : g = n.generations
      · subst hg
        simp only [Function.update_self] at h ⊢
        exact started_opens hstages hidle h
      · simp only [Function.update_of_ne hg] at h ⊢
        exact hw.opening g role h
    · intro g hg hlocal
      by_cases hne : g = n.generations
      · subst hne
        simp only [Function.update_self] at hlocal ⊢
        rcases hside with ⟨-, -, hsession, hnext, -⟩ | ⟨hremote, -⟩
        · omega
        · rw [hremote] at hlocal
          cases hlocal
      · simp only [Function.update_of_ne hne] at hlocal ⊢
        exact (hw.minted g ((hother g hne).mp hg) hlocal).trans_le hr.nextSession
  · rfl
  · exact hr.nextSession
  · intro g hg
    exact ⟨(hother g (hused g hg)).mpr hg, by simp only [Function.update_of_ne (hused g hg)]⟩
  · intro g hg
    by_cases hne : g = n.generations
    · subst hne
      refine Or.inr ⟨rfl, by simp only [Function.update_self], fun hlocal => ?_⟩
      simp only [Function.update_self] at hlocal ⊢
      rcases hside with ⟨hmints, -, hsession, -, -⟩ | ⟨hremote, -⟩
      · exact ⟨hmints, hsession⟩
      · rw [hremote] at hlocal
        cases hlocal
    · exact Or.inl ((hother g hne).mp hg)
  · intro key g h
    rcases hentries key g h with ⟨hmap, -⟩ | ⟨rfl, rfl⟩
    · exact Or.inl hmap
    · refine Or.inr ⟨rfl, rfl, fun hremote => ?_⟩
      rcases hside with ⟨-, hlocal, -⟩ | ⟨-, houts⟩
      · rw [hlocal] at hremote
        cases hremote
      · exact houts
  · rcases hside with ⟨-, -, -, -, rfl⟩ | ⟨-, rfl⟩ <;> simp
  · rcases hside with ⟨-, -, -, -, rfl⟩ | ⟨-, rfl⟩ <;> simp
  · rcases hside with ⟨-, -, -, -, rfl⟩ | ⟨-, rfl⟩ <;> simp
  · rcases hside with ⟨-, -, -, -, rfl⟩ | ⟨hremote, rfl⟩
    · exact Or.inl fun _ => List.not_mem_nil
    · exact Or.inr ⟨rfl, k, rfl, hremote, by simp only [Function.update_self]⟩

/-- **What a turn changes.** -/
lemma Wired.turned (hw : n.Wired) (hns : k.namespace_ = n.namespace_)
    (ht : Turned n k item? mints n' outs) : Change n n' outs (some k) item? mints := by
  cases ht with
  | idle hr hs houts =>
    refine .of_congr hw hr.counted rfl rfl rfl (fun _ _ h => h) (le_refl _) hr.nextSession
      ?_ ?_ ?_ ?_
    · intro source to_ f hmem session hopener
      rcases houts with rfl | rfl
      · cases hmem
      obtain ⟨rfl, rfl, rfl⟩ := Output.frame.inj (List.mem_singleton.mp hmem)
      have haddress := Frame.opener_eq_some hopener
      simp [Frame.address] at haddress
    all_goals rcases houts with rfl | rfl
    all_goals simp
  | opened hr hk hs hvacant hstages hside => exact hw.opened hns hr hstages hside
  | present hr hk hs hmap =>
    exact .of_congr hw hr.counted rfl rfl rfl (fun _ _ h => h) (Nat.le_succ _) hr.nextSession
      (by simp) (by simp) (by simp) (by simp)
  | forgotten hr hs hmap =>
    exact .of_congr hw hr.counted rfl rfl rfl (fun _ _ h => h) (le_refl _) hr.nextSession
      (by simp) (by simp) (by simp) (by simp)
  | queued hc hk hmap hitem =>
    refine .of_congr hw hc rfl rfl rfl (fun _ _ h => h) (le_refl _) (le_refl _)
      (by simp) ?_ (by simp) (by simp)
    intro g item hmem
    obtain ⟨rfl, rfl⟩ := Output.queued.inj (List.mem_singleton.mp hmem)
    exact ⟨hitem, k, rfl, hmap⟩
  | aborted hr hk hs hmap houts =>
    rename_i s g
    refine .of_congr hw hr.counted rfl rfl rfl (fun _ _ h => map_remove h) (le_refl _)
      hr.nextSession ?_ ?_ ?_ ?_
    · intro source to_ f hmem session hopener
      rcases houts with rfl | rfl
      · cases hmem
      obtain ⟨rfl, rfl, rfl⟩ := Output.frame.inj (List.mem_singleton.mp hmem)
      obtain ⟨hregistered, hused⟩ := hw.owner k g hmap
      have haddress := Frame.opener_eq_some hopener
      simp only [Frame.address, Prod.mk.injEq] at haddress
      refine ⟨g, rfl, hused, ?_⟩
      have hlocal : k.initiator = .local_ := by simpa [openedByUs] using haddress.2
      rw [hregistered, ← hns, ← haddress.1, ← hlocal]
    all_goals rcases houts with rfl | rfl
    all_goals simp
  | closed hr hk hs hmap =>
    refine .of_congr hw hr.counted rfl rfl rfl (fun _ _ h => map_remove h) (le_refl _)
      hr.nextSession (by simp) (by simp) ?_ (by simp)
    intro g hmem
    obtain rfl := Output.cancelled.inj (List.mem_singleton.mp hmem)
    exact ⟨k, rfl, hmap⟩

lemma Change.of_stage (hw : n.Wired) {g : ℕ} {role : TaskRole} {stage : TaskStage}
    (hused : n.tasks g role ≠ .idle ∧ stage ≠ .idle)
    (hopens : stage.opens ≤ (n.tasks g role).opens) (hcounted : n'.state.Counted)
    (hnamed : n'.namespace_ = n.namespace_) (hregistered : n'.registered = n.registered)
    (htasks : n'.tasks = (n.setStage g role stage).tasks)
    (hmap : ∀ key g, n'.map key = some g → n.map key = some g)
    (hgenerations : n'.generations = n.generations)
    (hnext : n'.state.nextSession = n.state.nextSession)
    (houts : outs = [] ∨ ∃ f : Frame, outs = [n.sendFrame g f] ∧ f.Of (n.registered g) ∧
      f.opens ≤ (n.tasks g role).opens) : Change n n' outs none item? mints := by
  have hg : n.Used g := ⟨role, hused.1⟩
  have hstage : ∀ g' role', (n'.tasks g' role' ≠ .idle ↔ n.tasks g' role' ≠ .idle) ∧
      (n'.tasks g' role').opens ≤ (n.tasks g' role').opens := by
    intro g' role'
    rw [htasks]
    unfold setStage
    by_cases hne : g' = g
    · subst hne
      by_cases hrole : role' = role
      · subst hrole
        simp only [Function.update_self]
        exact ⟨iff_of_true hused.2 hused.1, hopens⟩
      · simp only [Function.update_self, Function.update_of_ne hrole]
        exact ⟨trivial, le_refl _⟩
    · simp only [Function.update_of_ne hne]
      exact ⟨trivial, le_refl _⟩
  have huses : ∀ g', n'.Used g' ↔ n.Used g' := by
    intro g'
    unfold Used
    exact exists_congr fun role' => (hstage g' role').1
  constructor
  · constructor
    · exact hcounted
    · intro g'
      rw [hregistered, hnamed, hw.named]
    · intro g' hg' role'
      by_contra hne
      exact (hstage g' role').1.mp hne (hw.unused g' (hgenerations ▸ hg') role')
    · intro key g' h
      rw [hregistered, huses]
      exact hw.owner key g' (hmap key g' h)
    · intro g' role' h
      rw [hregistered]
      have := (hstage g' role').2
      exact hw.opening g' role' (by omega)
    · intro g' hg' hlocal
      rw [hregistered] at hlocal ⊢
      rw [hnext]
      exact hw.minted g' ((huses g').mp hg') hlocal
  · exact hnamed
  · exact hnext.ge
  · exact fun g' hg' => ⟨(huses g').mpr hg', by rw [hregistered]⟩
  · exact fun g' hg' => Or.inl ((huses g').mp hg')
  · exact fun key g' h => Or.inl (hmap key g' h)
  · intro source to_ f hmem session hopener
    rcases houts with rfl | ⟨f', rfl, hf, hopening⟩
    · cases hmem
    obtain ⟨rfl, rfl, rfl⟩ := Output.frame.inj (List.mem_singleton.mp hmem)
    obtain ⟨hsession, hlocal⟩ := hf.opener hopener fun h => hw.opening g role (by omega)
    refine ⟨g, rfl, hg, ?_⟩
    rw [← hw.named g, ← hsession, ← hlocal]
  · rcases houts with rfl | ⟨f, rfl, -⟩ <;> simp [sendFrame]
  · rcases houts with rfl | ⟨f, rfl, -⟩ <;> simp [sendFrame]
  · left
    rcases houts with rfl | ⟨f, rfl, -⟩ <;> simp [sendFrame]

/-- **What a step of a task changes.** -/
lemma Wired.worked (hw : n.Wired) {g : ℕ} {role : TaskRole} {act : TaskAct}
    (ht : Worked n g role act n' outs) : Change n n' outs none item? mints := by
  cases ht with
  | quiet =>
    exact .of_congr hw hw.counted rfl rfl rfl (fun _ _ h => h) (le_refl _) (le_refl _)
      (by simp) (by simp) (by simp) (by simp)
  | moved hused howes hopens hreports houts =>
    refine .of_stage hw hused hopens hw.counted rfl rfl rfl (fun _ _ h => h) rfl rfl ?_
    rcases houts with rfl | ⟨f, rfl, -, hf⟩
    · exact Or.inl rfl
    · exact Or.inr ⟨f, rfl, hf⟩
  | released hused howes hreports hmap =>
    exact .of_stage hw ⟨hused, by simp⟩ (Nat.zero_le _) hw.counted rfl rfl rfl
      (fun _ _ h => map_remove h) rfl rfl (Or.inl rfl)
  | gone hact hstage hmap =>
    exact .of_stage hw (by simp [hstage]) (Nat.zero_le _) hw.counted rfl rfl rfl
      (fun _ _ h => h) rfl rfl (Or.inl rfl)
  | reported hact hstage hs =>
    rename_i notify s
    obtain ⟨s', hremove, -, hcounted, hnext⟩ := RelayState.removeSession_spec hw.counted
      (n.registered g)
    rw [hremove] at hs
    subst hs
    exact .of_stage hw ⟨by simp [hstage], by cases notify <;> simp⟩
      (by cases notify <;> exact Nat.zero_le _) hcounted rfl rfl rfl (fun _ _ h => h) rfl hnext
      (Or.inl rfl)
  | notified hstage =>
    exact .of_stage hw (by simp [hstage]) (Nat.zero_le _) hw.counted rfl rfl rfl
      (fun _ _ h => h) rfl rfl (Or.inr ⟨_, rfl, ⟨rfl, rfl⟩, Nat.zero_le _⟩)

end RelayNode

/-! ### The sessions of two nodes -/

namespace RelayWorld

open Transport.RelayNode

variable (did : Party → Did)

/-- No frame of a session `p` opens under the id `session` is in flight, and the other node has no
entry for one. -/
def Fresh (w : RelayWorld T) (p : Party) (session : ℕ) : Prop :=
  (∀ x ∈ w.network, x.to_ = p.other → x.frame.opener? ≠ some session) ∧
    (w.nodes p.other).map ⟨did p, (w.nodes p.other).namespace_, session, .remote⟩ = none

def Clear (w : RelayWorld T) : RelayWorldOp T → Prop
  | .accepted p _ peer _ _ => peer = did p.other → w.incarnation p ≠ 0 →
    w.Fresh did p (w.nodes p).state.nextSession
  | _ => True

/-- Every step of the run is clear in the state it finds. -/
def ClearRun (w : RelayWorld T) (ops : List (RelayWorldOp T)) : Prop :=
  ∀ before op after, ops = before ++ op :: after → (w.run did before).Clear did op

/-- All frames and entries of one id belong to one connection, its `owner`. -/
structure Isolated (w : RelayWorld T) (owner : Party → ℕ → Option Connection) : Prop where
  wired : ∀ p, (w.nodes p).Wired
  flights : ∀ p, ∀ x ∈ w.network, x.to_ = p.other → ∀ session, x.frame.opener? = some session →
    x.sender = owner p session
  backends : ∀ p session g, (w.nodes p.other).map
      ⟨did p, (w.nodes p.other).namespace_, session, .remote⟩ = some g →
    w.origin p.other g = owner p session
  sessions : ∀ p session g, (w.nodes p).Used g →
    (w.nodes p).registered g = ⟨did p.other, (w.nodes p).namespace_, session, .local_⟩ →
    owner p session = some (w.connection p g)
  opened : ∀ p g, w.origin p g ≠ none → (w.nodes p).Used g ∧
    ((w.nodes p).registered g).initiator = .remote ∧
    ((w.nodes p).registered g).peer = did p.other
  early : ∀ p, w.incarnation p = 0 → ∀ session, ¬ w.Fresh did p session →
    session < (w.nodes p).state.nextSession
  log : ∀ x ∈ w.log, (∀ c, x.backend = some c → x.sender = some c) ∧
    ∀ g item, x.output = .queued g item → x.frame.item? = some item

variable {did} {w : RelayWorld T} {owner owner' : Party → ℕ → Option Connection} {p : Party}
  {n' : RelayNode T} {outs : List Output} {k : Option SessionKey} {item? : Option Outbound}
  {mints : Prop} {cause : Option (Frame × Option Connection)}

lemma isolated_start (kind : TransportKind) (ns : String) :
    (start kind ns : RelayWorld T).Isolated did fun _ _ => none where
  wired _ := wired_new kind ns
  flights _ _ hx := by cases hx
  backends _ _ _ hmap := by cases hmap
  sessions _ _ _ hused := by
    obtain ⟨role, hrole⟩ := hused
    exact absurd rfl hrole
  opened _ _ h := absurd rfl h
  early _ _ _ h := absurd ⟨(fun _ hx => by cases hx), rfl⟩ h
  log _ hx := by cases hx

lemma mem_flights {x : Flight} (hx : x ∈ outs.filterMap (w.flight? did p)) :
    ∃ source, .frame source (did p.other) x.frame ∈ outs ∧ x.to_ = p.other ∧
      x.sender = source.map (w.connection p) := by
  obtain ⟨o, ho, hflight⟩ := List.mem_filterMap.mp hx
  cases o with
  | frame source to_ f =>
    simp only [flight?] at hflight
    split at hflight
    · rename_i hto
      obtain rfl := Option.some.inj hflight
      exact ⟨source, hto ▸ ho, rfl, rfl⟩
    · cases hflight
  | connected g => cases hflight
  | queued g item => cases hflight
  | cancelled g => cases hflight

lemma mem_applied {x : Applied} (hx : x ∈ outs.filterMap (w.applied? p cause)) :
    ∃ f sender g, cause = some (f, sender) ∧ x.frame = f ∧ x.sender = sender ∧
      x.backend = w.origin p g ∧ x.output ∈ outs ∧
      ((∃ item, x.output = .queued g item) ∨ x.output = .cancelled g) := by
  obtain ⟨o, ho, happlied⟩ := List.mem_filterMap.mp hx
  cases cause with
  | none => cases happlied
  | some c =>
    cases o with
    | queued g item =>
      obtain rfl := Option.some.inj happlied
      exact ⟨_, _, g, rfl, rfl, rfl, rfl, ho, Or.inl ⟨item, rfl⟩⟩
    | cancelled g =>
      obtain rfl := Option.some.inj happlied
      exact ⟨_, _, g, rfl, rfl, rfl, rfl, ho, Or.inr rfl⟩
    | frame source to_ f => cases happlied
    | connected g => cases happlied

lemma foldl_connect {sender : Option Connection} {origin : ℕ → Option Connection}
    (h : ∀ g, .connected g ∉ outs) : outs.foldl (connect sender) origin = origin := by
  induction outs generalizing origin with
  | nil => rfl
  | cons o outs ih =>
    rw [List.foldl_cons, ih fun g hg => h g (List.mem_cons_of_mem _ hg)]
    cases o with
    | connected g => exact absurd List.mem_cons_self (h g)
    | frame source to_ f => rfl
    | queued g item => rfl
    | cancelled g => rfl

/-- What a node's step relies on: the frame it acts on was sent for the session's owner, and only
a fresh id changes its owner. -/
structure Caused (did : Party → Did) (w : RelayWorld T) (p : Party)
    (owner owner' : Party → ℕ → Option Connection) (k : Option SessionKey)
    (item? : Option Outbound) (mints : Prop) (cause : Option (Frame × Option Connection)) :
    Prop where
  peer : ∀ session, k = some ⟨did p.other, (w.nodes p).namespace_, session, .remote⟩ →
    cause.bind Prod.snd = owner p.other session ∧
      (w.incarnation p.other = 0 → session < (w.nodes p.other).state.nextSession)
  stranger : ∀ key, k = some key → key.initiator = .remote → key.peer ≠ did p.other →
    cause.bind Prod.snd = none
  content : ∀ f sender, cause = some (f, sender) → item? = f.item?
  fresh : ∀ p' session, owner' p' session ≠ owner p' session →
    p' = p ∧ w.Fresh did p session
  keeps : ∀ session g, (w.nodes p).Used g →
    (w.nodes p).registered g = ⟨did p.other, (w.nodes p).namespace_, session, .local_⟩ →
    owner' p session = owner p session
  mints : mints → k = some ⟨did p.other, (w.nodes p).namespace_,
      (w.nodes p).state.nextSession, .local_⟩ →
    owner' p (w.nodes p).state.nextSession = some (w.connection p (w.nodes p).generations)

lemma Caused.same (hk : Caused did w p owner owner' k item? mints cause) {p' : Party}
    {session : ℕ} (h : ¬ w.Fresh did p' session) : owner' p' session = owner p' session := by
  by_contra hne
  obtain ⟨rfl, hfresh⟩ := hk.fresh p' session hne
  exact h hfresh

lemma Caused.other (hk : Caused did w p owner owner' k item? mints cause) {p' : Party}
    (hp : p' ≠ p) (session : ℕ) : owner' p' session = owner p' session := by
  by_contra hne
  exact hp (hk.fresh p' session hne).1

lemma not_fresh_of_flight {p' : Party} {x : Flight} (hx : x ∈ w.network) (hto : x.to_ = p'.other)
    {session : ℕ} (hopener : x.frame.opener? = some session) : ¬ w.Fresh did p' session :=
  fun hfresh => hfresh.1 x hx hto hopener

lemma not_fresh_of_entry {p' : Party} {session g : ℕ} (hmap : (w.nodes p'.other).map
    ⟨did p', (w.nodes p'.other).namespace_, session, .remote⟩ = some g) :
    ¬ w.Fresh did p' session := by
  intro hfresh
  rw [hfresh.2] at hmap
  cases hmap

lemma nodes_self : (w.advance did p cause (n', outs)).nodes p = n' := Function.update_self ..

lemma nodes_other {p' : Party} (hp : p' ≠ p) :
    (w.advance did p cause (n', outs)).nodes p' = w.nodes p' := Function.update_of_ne hp ..

lemma origin_other {p' : Party} (hp : p' ≠ p) :
    (w.advance did p cause (n', outs)).origin p' = w.origin p' := Function.update_of_ne hp ..

variable (cause) in
lemma origin_self (hc : Change (w.nodes p) n' outs k item? mints) (g : ℕ) :
    (w.advance did p cause (n', outs)).origin p g = w.origin p g ∨
      (w.advance did p cause (n', outs)).origin p g = cause.bind Prod.snd ∧
        g = (w.nodes p).generations ∧ ∃ key, k = some key ∧ key.initiator = .remote ∧
          n'.map key = some g := by
  simp only [advance, Function.update_self]
  rcases hc.connected with hnone | ⟨rfl, key, hkey, hremote, hmap⟩
  · rw [foldl_connect hnone]
    exact Or.inl rfl
  · simp only [List.foldl_cons, List.foldl_nil, connect, Function.update_apply]
    split
    · rename_i hg
      exact Or.inr ⟨rfl, hg, key, hkey, hremote, hg ▸ hmap⟩
    · exact Or.inl rfl

lemma Isolated.lt_generations (h : w.Isolated did owner) {g : ℕ} (hg : (w.nodes p).Used g) :
    g < (w.nodes p).generations := by
  obtain ⟨role, hrole⟩ := hg
  by_contra hge
  exact hrole ((h.wired p).unused g (not_lt.mp hge) role)

/-- The frames a step sends as an opener are about sessions of this incarnation. -/
lemma sent_advance (hc : Change (w.nodes p) n' outs k item? mints) {x : Flight}
    (hx : x ∈ outs.filterMap (w.flight? did p)) {session : ℕ}
    (hopener : x.frame.opener? = some session) : ∃ g, (w.nodes p).Used g ∧
      (w.nodes p).registered g = ⟨did p.other, (w.nodes p).namespace_, session, .local_⟩ ∧
      x.sender = some (w.connection p g) := by
  obtain ⟨source, hmem, -, hsender⟩ := mem_flights hx
  obtain ⟨g, rfl, hused, hregistered⟩ := hc.frames source _ _ hmem session hopener
  exact ⟨g, hused, hregistered, hsender⟩

lemma Isolated.flights_advance (h : w.Isolated did owner)
    (hc : Change (w.nodes p) n' outs k item? mints)
    (hk : Caused did w p owner owner' k item? mints cause) {p' : Party} {x : Flight}
    (hx : x ∈ w.network ++ outs.filterMap (w.flight? did p)) (hto : x.to_ = p'.other)
    {session : ℕ} (hopener : x.frame.opener? = some session) :
    x.sender = owner' p' session := by
  rcases List.mem_append.mp hx with hx | hx
  · rw [hk.same (not_fresh_of_flight hx hto hopener)]
    exact h.flights p' x hx hto session hopener
  · obtain ⟨g, hused, hregistered, hsender⟩ := sent_advance hc hx hopener
    obtain ⟨-, -, hto', -⟩ := mem_flights hx
    have hp : p' = p := by
      rw [hto'] at hto
      rw [← Party.other_other p', ← hto, Party.other_other]
    subst hp
    rw [hk.keeps session g hused hregistered, h.sessions p' session g hused hregistered]
    exact hsender

lemma Isolated.backends_advance (h : w.Isolated did owner)
    (hc : Change (w.nodes p) n' outs k item? mints)
    (hk : Caused did w p owner owner' k item? mints cause) {p' : Party} {session g : ℕ}
    (hmap : ((w.advance did p cause (n', outs)).nodes p'.other).map
      ⟨did p', ((w.advance did p cause (n', outs)).nodes p'.other).namespace_, session,
        .remote⟩ = some g) :
    (w.advance did p cause (n', outs)).origin p'.other g = owner' p' session := by
  rcases Party.eq_or_other p p'.other with hp | hp
  · -- the node that moves holds the entries
    have hp' : p' = p.other := by rw [← hp, Party.other_other]
    subst hp'
    rw [Party.other_other] at hmap ⊢
    rw [nodes_self, hc.named] at hmap
    rw [hk.other (Party.other_ne p)]
    rcases hc.entries _ g hmap with hold | ⟨rfl, hkey, houts⟩
    · have hused := ((h.wired p).owner _ g hold).2
      have hbackend := h.backends p.other session g
      rw [Party.other_other] at hbackend
      rw [← hbackend hold]
      rcases origin_self cause hc g with heq | ⟨-, hg, -⟩
      · exact heq
      · exact absurd (h.lt_generations hused) (by omega)
    · have hsender := (hk.peer session hkey).1
      simp only [advance, Function.update_self, houts rfl, List.foldl_cons, List.foldl_nil,
        connect]
      exact hsender
  · have hp' : p' = p := by rw [← Party.other_other p', hp, Party.other_other]
    subst hp'
    rw [nodes_other (Party.other_ne p')] at hmap
    rw [origin_other (Party.other_ne p'), hk.same (not_fresh_of_entry hmap)]
    exact h.backends p' session g hmap

lemma Isolated.sessions_advance (h : w.Isolated did owner)
    (hc : Change (w.nodes p) n' outs k item? mints)
    (hk : Caused did w p owner owner' k item? mints cause) {p' : Party} {session g : ℕ}
    (hused : ((w.advance did p cause (n', outs)).nodes p').Used g)
    (hregistered : ((w.advance did p cause (n', outs)).nodes p').registered g =
      ⟨did p'.other, ((w.advance did p cause (n', outs)).nodes p').namespace_, session,
        .local_⟩) :
    owner' p' session = some ((w.advance did p cause (n', outs)).connection p' g) := by
  by_cases hp : p' = p
  · subst hp
    rw [nodes_self] at hused hregistered
    rw [hc.named] at hregistered
    rcases hc.used g hused with hold | ⟨rfl, hkey, hlocal⟩
    · rw [(hc.keeps g hold).2] at hregistered
      rw [hk.keeps session g hold hregistered]
      exact h.sessions p' session g hold hregistered
    · rw [hregistered] at hkey hlocal
      obtain ⟨hmints, rfl⟩ := hlocal rfl
      exact hk.mints hmints hkey
  · rw [nodes_other hp] at hused hregistered
    rw [hk.other hp]
    exact h.sessions p' session g hused hregistered

lemma Isolated.opened_advance (h : w.Isolated did owner)
    (hc : Change (w.nodes p) n' outs k item? mints)
    (hk : Caused did w p owner owner' k item? mints cause) {p' : Party} {g : ℕ}
    (horigin : (w.advance did p cause (n', outs)).origin p' g ≠ none) :
    ((w.advance did p cause (n', outs)).nodes p').Used g ∧
      (((w.advance did p cause (n', outs)).nodes p').registered g).initiator = .remote ∧
      (((w.advance did p cause (n', outs)).nodes p').registered g).peer = did p'.other := by
  by_cases hp : p' = p
  · subst hp
    rw [nodes_self]
    rcases origin_self cause hc g with heq | ⟨heq, -, key, hkey, hremote, hmap⟩
    · rw [heq] at horigin
      obtain ⟨hused, hremote, hpeer⟩ := h.opened p' g horigin
      obtain ⟨hused', hregistered⟩ := hc.keeps g hused
      rw [hregistered]
      exact ⟨hused', hremote, hpeer⟩
    · obtain ⟨hregistered, hused⟩ := hc.wired.owner key g hmap
      rw [hregistered]
      refine ⟨hused, hremote, ?_⟩
      by_contra hpeer
      exact horigin (heq.trans (hk.stranger key hkey hremote hpeer))
  · rw [origin_other hp] at horigin
    rw [nodes_other hp]
    exact h.opened p' g horigin

lemma Isolated.early_advance (h : w.Isolated did owner)
    (hc : Change (w.nodes p) n' outs k item? mints)
    (hk : Caused did w p owner owner' k item? mints cause) {p' : Party}
    (hzero : w.incarnation p' = 0) {session : ℕ}
    (hfresh : ¬ (w.advance did p cause (n', outs)).Fresh did p' session) :
    session < ((w.advance did p cause (n', outs)).nodes p').state.nextSession := by
  -- an id that was in use before is one this incarnation minted
  have hbefore : ¬ w.Fresh did p' session →
      session < ((w.advance did p cause (n', outs)).nodes p').state.nextSession := by
    intro hold
    have hlt := h.early p' hzero session hold
    by_cases hp : p' = p
    · subst hp
      rw [nodes_self]
      exact hlt.trans_le hc.nextSession
    · rw [nodes_other hp]
      exact hlt
  by_contra hge
  apply hfresh
  refine ⟨fun x hx hto hopener => hge ?_, ?_⟩
  · rcases List.mem_append.mp hx with hx | hx
    · exact hbefore (not_fresh_of_flight hx hto hopener)
    · obtain ⟨g, hused, hregistered, -⟩ := sent_advance hc hx hopener
      obtain ⟨-, -, hto', -⟩ := mem_flights hx
      have hp : p' = p := by
        rw [hto'] at hto
        rw [← Party.other_other p', ← hto, Party.other_other]
      subst hp
      have hminted := (h.wired p').minted g hused (by rw [hregistered])
      rw [hregistered] at hminted
      rw [nodes_self]
      exact hminted.trans_le hc.nextSession
  · by_contra hmap
    obtain ⟨g, hmap⟩ := Option.ne_none_iff_exists'.mp hmap
    apply hge
    rcases Party.eq_or_other p p'.other with hp | hp
    · have hp' : p' = p.other := by rw [← hp, Party.other_other]
      subst hp'
      rw [Party.other_other, nodes_self, hc.named] at hmap
      rcases hc.entries _ g hmap with hold | ⟨-, hkey, -⟩
      · refine hbefore (not_fresh_of_entry (g := g) ?_)
        rw [Party.other_other]
        exact hold
      · rw [nodes_other (Party.other_ne p)]
        exact (hk.peer session hkey).2 hzero
    · have hp' : p' = p := by rw [← Party.other_other p', hp, Party.other_other]
      subst hp'
      rw [nodes_other (Party.other_ne p')] at hmap
      exact hbefore (not_fresh_of_entry hmap)

lemma Isolated.log_advance (h : w.Isolated did owner)
    (hc : Change (w.nodes p) n' outs k item? mints)
    (hk : Caused did w p owner owner' k item? mints cause) {x : Applied}
    (hx : x ∈ w.log ++ outs.filterMap (w.applied? p cause)) :
    (∀ c, x.backend = some c → x.sender = some c) ∧
      ∀ g item, x.output = .queued g item → x.frame.item? = some item := by
  rcases List.mem_append.mp hx with hx | hx
  · exact h.log x hx
  obtain ⟨f, sender, g, hcause, hframe, hsender, hbackend, hmem, hreach⟩ := mem_applied hx
  have hentry : ∃ key, k = some key ∧ (w.nodes p).map key = some g := by
    rcases hreach with ⟨item, hitem⟩ | hcancel
    · exact (hc.queued g item (hitem ▸ hmem)).2
    · exact hc.cancelled g (hcancel ▸ hmem)
  constructor
  · intro c hb
    obtain ⟨key, hkey, hmap⟩ := hentry
    rw [hbackend] at hb
    obtain ⟨-, hremote, hpeer⟩ := h.opened p g (by rw [hb]; simp)
    have hregistered := ((h.wired p).owner key g hmap).1
    have hname := (h.wired p).named g
    have hshape : key = ⟨did p.other, (w.nodes p).namespace_, key.session, .remote⟩ := by
      rw [← hregistered, ← hpeer, ← hname, ← hremote]
    have howner := (hk.peer key.session (hshape ▸ hkey)).1
    have hbackends := h.backends p.other key.session g
    rw [Party.other_other, ← hshape] at hbackends
    rw [hsender, ← hb, hbackends hmap, ← howner, hcause]
    rfl
  · intro g' item hitem
    rw [hframe, ← hk.content f sender hcause]
    exact (hc.queued g' item (hitem ▸ hmem)).1

/-- **A step of one node keeps the sessions apart.** -/
lemma Isolated.advance (h : w.Isolated did owner)
    (hc : Change (w.nodes p) n' outs k item? mints)
    (hk : Caused did w p owner owner' k item? mints cause) :
    (w.advance did p cause (n', outs)).Isolated did owner' where
  wired p' := by
    by_cases hp : p' = p
    · subst hp
      rw [nodes_self]
      exact hc.wired
    · rw [nodes_other hp]
      exact h.wired p'
  flights _ _ hx hto _ hopener := h.flights_advance hc hk hx hto hopener
  backends _ _ _ hmap := h.backends_advance hc hk hmap
  sessions _ _ _ hused hregistered := h.sessions_advance hc hk hused hregistered
  opened _ _ horigin := h.opened_advance hc hk horigin
  early _ hzero _ hfresh := h.early_advance hc hk hzero hfresh
  log _ hx := h.log_advance hc hk hx

/-! ### Runs -/

lemma Isolated.shrink (h : w.Isolated did owner) (network : List Flight)
    (hsub : ∀ x ∈ network, x ∈ w.network) :
    Isolated did { w with network := network } owner where
  wired := h.wired
  flights p' x hx := h.flights p' x (hsub x hx)
  backends := h.backends
  sessions := h.sessions
  opened := h.opened
  early p' hzero session hfresh := h.early p' hzero session fun hold =>
    hfresh ⟨fun x hx => hold.1 x (hsub x hx), hold.2⟩
  log := h.log

lemma Isolated.restart (h : w.Isolated did owner) (p : Party) :
    (w.restart p).Isolated did owner := by
  have hself : (w.restart p).nodes p = .new (w.nodes p).kind (w.nodes p).namespace_ :=
    Function.update_self ..
  have hother : ∀ p', p' ≠ p → (w.restart p).nodes p' = w.nodes p' :=
    fun p' hp' => Function.update_of_ne hp' ..
  have horigin : ∀ p', p' ≠ p → (w.restart p).origin p' = w.origin p' :=
    fun p' hp' => Function.update_of_ne hp' ..
  have hincarnation : ∀ p', p' ≠ p → (w.restart p).incarnation p' = w.incarnation p' :=
    fun p' hp' => Function.update_of_ne hp' ..
  constructor
  · intro p'
    by_cases hp : p' = p
    · subst hp
      rw [hself]
      exact wired_new _ _
    · rw [hother p' hp]
      exact h.wired p'
  · exact h.flights
  · intro p' session g hmap
    by_cases hp : p'.other = p
    · subst hp
      rw [hself] at hmap
      cases hmap
    · rw [hother _ hp] at hmap
      rw [horigin _ hp]
      exact h.backends p' session g hmap
  · intro p' session g hused hregistered
    by_cases hp : p' = p
    · subst hp
      rw [hself] at hused
      obtain ⟨role, hrole⟩ := hused
      exact absurd rfl hrole
    · rw [hother p' hp] at hused hregistered
      unfold connection
      rw [hincarnation p' hp]
      exact h.sessions p' session g hused hregistered
  · intro p' g hne
    by_cases hp : p' = p
    · subst hp
      exact absurd (by simp [RelayWorld.restart]) hne
    · rw [horigin p' hp] at hne
      rw [hother p' hp]
      exact h.opened p' g hne
  · intro p' hzero session hfresh
    by_cases hp : p' = p
    · subst hp
      simp [RelayWorld.restart] at hzero
    · rw [hincarnation p' hp] at hzero
      rw [hother p' hp]
      refine h.early p' hzero session fun hold => hfresh ⟨hold.1, ?_⟩
      have hp' : p'.other = p := by
        rcases Party.eq_or_other p p'.other with heq | heq
        · exact heq
        · exact absurd (by rw [← Party.other_other p', heq, Party.other_other]) hp
      rw [hp', hself]
      rfl
  · exact h.log

/-- A step a node takes by itself, at no key or at one of its own sessions. -/
lemma Caused.own (hkey : ∀ key, k = some key → key.initiator = .local_) (hmints : ¬ mints) :
    Caused did w p owner owner k item? mints none where
  peer _ hk := by cases hkey _ hk
  stranger key hk hremote := by
    rw [hkey key hk] at hremote
    cases hremote
  content _ _ hcause := by cases hcause
  fresh _ _ hne := absurd rfl hne
  keeps _ _ _ _ := rfl
  mints h := absurd h hmints

lemma Caused.mint (h : w.Isolated did owner) {peer : Did}
    (hfresh : peer = did p.other → w.Fresh did p (w.nodes p).state.nextSession) :
    ∃ owner', Caused did w p owner owner'
      (some ⟨peer, (w.nodes p).namespace_, (w.nodes p).state.nextSession, .local_⟩) item? True
      none := by
  by_cases hpeer : peer = did p.other
  · refine ⟨fun p' session =>
      if p' = p ∧ session = (w.nodes p).state.nextSession then
        some (w.connection p (w.nodes p).generations)
      else owner p' session, ?_⟩
    constructor
    · simp
    · intro key hk hremote
      obtain rfl := Option.some.inj hk
      cases hremote
    · simp
    · intro p' session hne
      split at hne
      · rename_i hnew
        obtain ⟨rfl, rfl⟩ := hnew
        exact ⟨rfl, hfresh hpeer⟩
      · exact absurd rfl hne
    · intro session g hused hregistered
      have hlt := (h.wired p).minted g hused (by rw [hregistered])
      rw [hregistered] at hlt
      exact if_neg (by simp only at hlt; omega)
    · intro _ _
      exact if_pos ⟨rfl, rfl⟩
  · refine ⟨owner, ?_⟩
    constructor
    · simp
    · intro key hk hremote
      obtain rfl := Option.some.inj hk
      cases hremote
    · simp
    · exact fun _ _ hne => absurd rfl hne
    · exact fun _ _ _ _ => rfl
    · intro _ hk
      simp only [Option.some.injEq, SessionKey.mk.injEq] at hk
      exact absurd hk.1 hpeer

/-- **One step.** A clear step keeps the sessions apart. -/
lemma Isolated.step (h : w.Isolated did owner) (op : RelayWorldOp T) (hclear : w.Clear did op) :
    ∃ owner', (w.step did op).Isolated did owner' := by
  cases op with
  | accepted p token peer service a =>
    have hfresh : peer = did p.other → w.Fresh did p (w.nodes p).state.nextSession := by
      intro hpeer
      by_cases hzero : w.incarnation p = 0
      · by_contra hold
        have := h.early p hzero _ hold
        omega
      · exact hclear hpeer hzero
    have hmint : ∃ owner', Caused did w p owner owner' _ none True none := Caused.mint h hfresh
    obtain ⟨owner', hk⟩ := hmint
    exact ⟨owner', h.advance
      ((h.wired p).turned rfl (turned_accepted (h.wired p).counted a token peer service)) hk⟩
  | registerService p name target =>
    refine ⟨owner, h.advance ((h.wired p).turned (k := ⟨0, (w.nodes p).namespace_, 0, .local_⟩) rfl
      (turned_register (h.wired p).counted _ name target _)) (Caused.own ?_ id)⟩
    intro key hkey
    rw [← Option.some.inj hkey]
  | work p g role act =>
    have hown : Caused did w p owner owner none none False none :=
      Caused.own (fun _ hkey => by cases hkey) id
    exact ⟨owner, h.advance ((h.wired p).worked (worked_work ((h.wired p).named g) act)) hown⟩
  | otherNamespace p =>
    have hle : (w.nodes p).generations ≤
        (checkedAdd u64Max (w.nodes p).generations 1).getD (w.nodes p).generations := by
      unfold checkedAdd
      split
      · exact Nat.le_succ _
      · exact le_refl _
    have hown : Caused did w p owner owner none none False none :=
      Caused.own (fun _ hkey => by cases hkey) id
    exact ⟨owner, h.advance
      (.of_congr (h.wired p) (h.wired p).counted rfl rfl rfl (fun _ _ hmap => hmap) hle
        (le_refl _) (by simp) (by simp) (by simp) (by simp)) hown⟩
  | thirdParty p sender f a =>
    simp only [RelayWorld.step]
    split
    · exact ⟨owner, h⟩
    rename_i hsender
    refine ⟨owner, h.advance ((h.wired p).turned (k := f.key sender (w.nodes p).namespace_) rfl
      (turned_frame (h.wired p).counted a sender f (f.key_eq _ _ _))) ?_⟩
    constructor
    · intro session hkey
      exact absurd (Frame.opener_of_key (Option.some.inj hkey)).2 hsender
    · exact fun _ _ _ _ => rfl
    · intro f' sender' hcause
      obtain ⟨rfl, -⟩ := Prod.mk.inj (Option.some.inj hcause)
      rfl
    · exact fun _ _ hne => absurd rfl hne
    · exact fun _ _ _ _ => rfl
    · exact fun hfalse => hfalse.elim
  | deliver index a =>
    simp only [RelayWorld.step]
    cases hx : w.network[index]? with
    | none => exact ⟨owner, h⟩
    | some x =>
      have hmem : x ∈ w.network := List.mem_of_getElem? hx
      have h₁ := h.shrink (w.network.eraseIdx index)
        fun y hy => List.mem_of_mem_eraseIdx hy
      refine ⟨owner, h₁.advance ((h.wired x.to_).turned
        (k := x.frame.key (did x.to_.other) (w.nodes x.to_).namespace_) rfl
        (turned_frame (h.wired x.to_).counted a _ x.frame (x.frame.key_eq _ _ _))) ?_⟩
      have hto : x.to_ = x.to_.other.other := (Party.other_other _).symm
      constructor
      · intro session hkey
        have hopener := (Frame.opener_of_key (Option.some.inj hkey)).1
        exact ⟨h.flights x.to_.other x hmem hto session hopener,
          fun hzero => h.early x.to_.other hzero session (not_fresh_of_flight hmem hto hopener)⟩
      · intro key hkey _ hpeer
        obtain rfl := Option.some.inj hkey
        exact absurd rfl hpeer
      · intro f' sender' hcause
        obtain ⟨rfl, -⟩ := Prod.mk.inj (Option.some.inj hcause)
        rfl
      · exact fun _ _ hne => absurd rfl hne
      · exact fun _ _ _ _ => rfl
      · exact fun hfalse => hfalse.elim
  | lose index => exact ⟨owner, h.shrink _ fun y hy => List.mem_of_mem_eraseIdx hy⟩
  | restart p => exact ⟨owner, h.restart p⟩

lemma run_concat (w : RelayWorld T) (ops : List (RelayWorldOp T)) (op : RelayWorldOp T) :
    w.run did (ops ++ [op]) = (w.run did ops).step did op := by
  unfold run
  rw [List.foldl_append, List.foldl_cons, List.foldl_nil]

/-- **Every run.** -/
lemma Isolated.run (h : w.Isolated did owner) (ops : List (RelayWorldOp T))
    (hclear : w.ClearRun did ops) : ∃ owner', (w.run did ops).Isolated did owner' := by
  induction ops using List.reverseRecOn with
  | nil => exact ⟨owner, h⟩
  | append_singleton ops op ih =>
    obtain ⟨owner', h'⟩ := ih fun before op' after heq =>
      hclear before op' (after ++ [op]) (by rw [heq]; simp)
    rw [run_concat]
    exact h'.step op (hclear ops op [] rfl)

/-- A node that never starts again stays in its first incarnation. -/
lemma incarnation_run (ops : List (RelayWorldOp T)) (h : ∀ p, .restart p ∉ ops) (p : Party) :
    (w.run did ops).incarnation p = w.incarnation p := by
  induction ops generalizing w with
  | nil => rfl
  | cons op ops ih =>
    have hstep : (w.step did op).incarnation = w.incarnation := by
      cases op with
      | restart p' => exact absurd List.mem_cons_self (h p')
      | thirdParty p' sender f a =>
        simp only [RelayWorld.step]
        split <;> rfl
      | deliver index a =>
        simp only [RelayWorld.step]
        split <;> rfl
      | _ => rfl
    exact (ih (fun p' hp' => h p' (List.mem_cons_of_mem _ hp'))).trans (congrFun hstep p)

lemma clearRun_of_no_restart (kind : TransportKind) (ns : String) {ops : List (RelayWorldOp T)}
    (h : ∀ p, .restart p ∉ ops) : (start kind ns : RelayWorld T).ClearRun did ops := by
  intro before op after heq
  cases op with
  | accepted p token peer service a =>
    intro _ hne
    refine absurd (incarnation_run before (fun p' hp' => h p' ?_) p) hne
    rw [heq]
    exact List.mem_append_left _ hp'
  | _ => trivial

lemma clearRun_append {ops ops' : List (RelayWorldOp T)} (h : w.ClearRun did ops)
    (h' : (w.run did ops).ClearRun did ops') : w.ClearRun did (ops ++ ops') := by
  intro before op after heq
  rcases List.append_eq_append_iff.1 heq with ⟨mid, rfl, hmid⟩ | ⟨mid, rfl, hmid⟩
  · rw [run, List.foldl_append]
    exact h' mid op after hmid
  · cases mid with
    | nil =>
      rw [List.append_nil] at h'
      exact h' [] op after hmid.symm
    | cons x mid =>
      obtain ⟨rfl, -⟩ := List.cons_eq_cons.1 hmid
      exact h before op mid rfl

lemma clearRun_singleton {op : RelayWorldOp T} (h : w.Clear did op) : w.ClearRun did [op] := by
  intro before op' after heq
  cases before with
  | nil =>
    obtain ⟨rfl, -⟩ := List.cons_eq_cons.1 heq
    exact h
  | cons first before => simp at heq

/-- A run that accepts no connection mints no id. -/
lemma clearRun_of_no_accepted {ops : List (RelayWorldOp T)}
    (h : ∀ p token peer service a, .accepted p token peer service a ∉ ops) :
    w.ClearRun did ops := by
  rintro before op after rfl
  cases op with
  | accepted p token peer service a => exact absurd (by simp) (h p token peer service a)
  | _ => trivial

end RelayWorld

open RelayWorld

/-- **Relay sessions are isolated.** In every run in which a node that has started again mints
only ids of which the other node has no entry and no frame is in flight, whatever reaches a
backend that was connected for an accepted connection comes from a frame sent for that same
connection, and an item its socket takes is that frame's. -/
theorem sessions_isolated (did : Party → Did) (kind : TransportKind) (ns : String)
    (ops : List (RelayWorldOp T)) (hclear : (start kind ns).ClearRun did ops) :
    ∀ x ∈ ((start kind ns).run did ops).log, (∀ c, x.backend = some c → x.sender = some c) ∧
      ∀ g item, x.output = .queued g item → x.frame.item? = some item := by
  obtain ⟨owner, h⟩ := (isolated_start kind ns).run ops hclear
  exact h.log

def twoNodes : Party → Did
  | .first => 1
  | .second => 2

/-- The first node opens a session to service `a` of the second, sends it a byte and ends it; once
its `Close` has arrived, the node starts again. -/
def closedThenRestarted : List (RelayWorldOp Unit) :=
  [.registerService .second "a" (), .registerService .second "b" (),
    .accepted .first 0 2 "a" ⟨true, true, true⟩, .work .first 0 .socket .sendOpen,
    .deliver 0 ⟨true, true, true⟩, .work .first 0 .socket (.opened true),
    .work .first 0 .socket (.read (.segment 0 [7])), .deliver 0 ⟨true, true, true⟩,
    .work .first 0 .socket .relayEnds, .work .first 0 .socket .untracked,
    .work .first 0 .socket .notified, .deliver 0 ⟨true, true, true⟩]

/-- It mints the id of that session again, for service `b`, and sends a byte. -/
def mintedAgain : List (RelayWorldOp Unit) :=
  [.work .first 0 .socket .sendOpen, .deliver 0 ⟨true, true, true⟩,
    .work .first 0 .socket (.opened true), .work .first 0 .socket (.read (.segment 0 [8])),
    .deliver 0 ⟨true, true, true⟩]

theorem sessions_isolated_byte :
    let ops := closedThenRestarted ++ [.restart .first] ++
      ([.accepted .first 0 2 "b" ⟨true, true, true⟩] ++ mintedAgain)
    ((start .tcp "tcp").run twoNodes ops).log.map (fun x => (x.backend, x.sender)) =
        [(some ⟨.first, 0, 0⟩, some ⟨.first, 0, 0⟩), (some ⟨.first, 0, 0⟩, some ⟨.first, 0, 0⟩),
          (some ⟨.first, 1, 0⟩, some ⟨.first, 1, 0⟩)] ∧
      ∀ x ∈ ((start .tcp "tcp").run twoNodes ops).log,
        (∀ c, x.backend = some c → x.sender = some c) ∧
          ∀ g item, x.output = .queued g item → x.frame.item? = some item := by
  intro ops
  have hbefore : (start .tcp "tcp").ClearRun twoNodes closedThenRestarted :=
    clearRun_of_no_restart .tcp "tcp" fun p hp => by simp [closedThenRestarted] at hp
  have hrestarted : (start .tcp "tcp").ClearRun twoNodes
      (closedThenRestarted ++ [.restart .first]) :=
    clearRun_append hbefore (clearRun_of_no_accepted (by simp))
  have hminted : ((start .tcp "tcp").run twoNodes
      (closedThenRestarted ++ [.restart .first])).Fresh twoNodes .first 0 :=
    ⟨by decide +kernel, by decide +kernel⟩
  exact ⟨by decide +kernel, sessions_isolated twoNodes .tcp "tcp" ops
    (clearRun_append hrestarted (clearRun_append (clearRun_singleton fun _ _ => hminted)
      (clearRun_of_no_accepted (by simp [mintedAgain]))))⟩

/-- The first node starts again while the second keeps its session for service `a`, and opens one
to service `b` under the same id. -/
def reusedId : List (RelayWorldOp Unit) :=
  [.registerService .second "a" (), .registerService .second "b" (),
    .accepted .first 0 2 "a" ⟨true, true, true⟩, .work .first 0 .socket .sendOpen,
    .deliver 0 ⟨true, true, true⟩, .restart .first,
    .accepted .first 0 2 "b" ⟨true, true, true⟩, .work .first 0 .socket .sendOpen,
    .deliver 0 ⟨true, true, true⟩, .work .first 0 .socket (.opened true),
    .work .first 0 .socket (.read (.segment 0 [7])), .deliver 0 ⟨true, true, true⟩]

theorem sessions_cross :
    ((start .tcp "tcp").run twoNodes reusedId).log.map (fun x => (x.backend, x.sender)) =
      [(some ⟨.first, 0, 0⟩, some ⟨.first, 1, 0⟩)] := by
  decide +kernel

end Rings.Transport
