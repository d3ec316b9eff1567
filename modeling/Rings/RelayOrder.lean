import Rings.RelayRuns

/-!
One end of a relayed TCP session while nothing goes wrong around it.

No read, write or send fails, no deadline passes, and the frames of the peer arrive in the order
they were sent. Then the segments are taken in order as well, so the reorder state accepts every
one of them, and the task moves on through its stages; only a `Close` of its peer stops it.
-/

namespace Rings.Transport

variable {T : Type*}

/-- The step of a task whose surroundings work: every send is admitted, the local socket is read
and written without an error, and no deadline passes. -/
def Action.Calm : Action T → Prop
  | .opened ok | .dialed ok | .sendPreamble ok => ok = true
  | .localRead read ok => read.isSome ∧ ok = true
  | .recv failsAfter => failsAfter = none
  | .gapDeadline | .idle | .cancel => False
  | _ => True

instance (a : Action T) : Decidable a.Calm := by
  unfold Action.Calm
  split <;> infer_instance

/-- The items of a source in the order they are sent: its first `n` segments, then the half-close
that counts them. -/
def Numbered (items : List Outbound) (n : ℕ) (closed : Bool) : Prop :=
  ∃ segments : List Bytes, segments.length = n ∧
    items = segments.mapIdx .segment ++ if closed then [.shutdown n] else []

lemma numbered_nil : Numbered [] 0 false := ⟨[], rfl, rfl⟩

lemma Numbered.segment {items : List Outbound} {n : ℕ} (h : Numbered items n false)
    (bytes : Bytes) : Numbered (items ++ [.segment n bytes]) (n + 1) false := by
  obtain ⟨segments, rfl, rfl⟩ := h
  refine ⟨segments ++ [bytes], by simp, ?_⟩
  simp [List.mapIdx_append]

lemma Numbered.shutdown {items : List Outbound} {n : ℕ} (h : Numbered items n false) :
    Numbered (items ++ [.shutdown n]) n true := by
  obtain ⟨segments, rfl, rfl⟩ := h
  exact ⟨segments, rfl, by simp⟩

lemma Numbered.no_datagram {items : List Outbound} {n : ℕ} {closed : Bool}
    (h : Numbered items n closed) (bytes : Bytes) : .datagram bytes ∉ items := by
  obtain ⟨segments, -, rfl⟩ := h
  cases closed <;> simp [List.mem_mapIdx]

/-- Whatever lies before an item of a source is the segments before it, and nothing else. -/
lemma Numbered.split {taken rest : List Outbound} {item : Outbound} {n : ℕ} {closed : Bool}
    (h : Numbered (taken ++ item :: rest) n closed) :
    (∀ k < taken.length, ∃ bytes, taken[k]? = some (.segment k bytes)) ∧
      ((∃ bytes, item = .segment taken.length bytes) ∨ item = .shutdown taken.length) := by
  obtain ⟨segments, rfl, hitems⟩ := h
  have hseg : ∀ k < segments.length, ∃ bytes,
      (taken ++ item :: rest)[k]? = some (.segment k bytes) := by
    intro k hk
    refine ⟨segments[k], ?_⟩
    rw [hitems, List.getElem?_append_left (by simpa using hk)]
    simp [hk]
  have hitem : (taken ++ item :: rest)[taken.length]? = some item := by simp
  have hle : taken.length ≤ segments.length := by
    have hlength := congrArg List.length hitems
    cases closed <;> simp at hlength <;> omega
  refine ⟨fun k hk => ?_, ?_⟩
  · obtain ⟨bytes, hb⟩ := hseg k (by omega)
    rw [List.getElem?_append_left hk] at hb
    exact ⟨bytes, hb⟩
  rcases Nat.lt_or_eq_of_le hle with hlt | heq
  · obtain ⟨bytes, hb⟩ := hseg _ hlt
    rw [hitem, Option.some.injEq] at hb
    exact Or.inl ⟨bytes, hb⟩
  · rw [hitems, List.getElem?_append_right (by simp [heq])] at hitem
    cases closed with
    | true =>
      simp only [List.length_mapIdx, heq, Nat.sub_self, if_true, List.getElem?_cons_zero,
        Option.some.injEq] at hitem
      exact Or.inr (by rw [heq, hitem])
    | false => simp at hitem

/-! ### In order, nothing is refused -/

namespace StreamReorder

variable {α : Type*} {r : StreamReorder α} {n : ℕ}

/-- Behind the first `n` segments the state waits for the next one, and holds none back. -/
lemma Tracks.next_eq (h : r.Tracks {k | k < n}) : r.next = n := by
  have hnext := h.next_notMem
  simp only [Set.mem_ofPred_eq, not_lt] at hnext
  by_contra hne
  have := h.below n (by omega)
  simp at this

lemma Tracks.ahead_none (h : r.Tracks {k | k < n}) (k : ℕ) : r.ahead.get? k = none := by
  cases hget : r.ahead.get? k with
  | none => rfl
  | some b =>
    have hle := (h.window k b hget).1
    have hmem := (h.waits k hle).2 (by simp [hget])
    have hnext := h.next_eq
    simp only [Set.mem_ofPred_eq] at hmem
    omega

lemma data_ok (h : r.Tracks {k | k < n}) (hfin : r.fin = none) (bytes : α) :
    ∃ next, r.data n bytes = .ok next := by
  have hnext := h.next_eq
  refine ⟨release { r with ahead := r.ahead.insert n bytes }, ?_⟩
  unfold data
  rw [hfin, Option.filter_none]
  simp only [h.ahead_none, Option.isSome_none, hnext, Nat.lt_irrefl, Nat.sub_self, reorderWindow,
    Bool.false_eq_true, or_self, if_false]
  rfl

lemma acceptFin_ok (h : r.Tracks {k | k < n}) (hfin : r.fin = none) :
    ∃ next, r.acceptFin n = .ok next := by
  have hnext := h.next_eq
  have hlast : r.ahead.lastKeyValue = none := by
    cases hlast : r.ahead.lastKeyValue with
    | none => rfl
    | some kv =>
      have hget := BTreeMap.get?_of_lastKeyValue hlast
      rw [h.ahead_none] at hget
      cases hget
  refine ⟨release { r with fin := some n }, ?_⟩
  unfold acceptFin
  simp only [hlast, hfin, Option.elim_none, Option.isSome_none, hnext, Nat.lt_irrefl,
    Bool.false_eq_true, or_self, if_false]

end StreamReorder

namespace Endpoint

variable {e : Endpoint T} {l : RelayLoop} {f : Frame} {src : Source}

lemma Relays.accepts (h : e.Relays src l) {item : Outbound} {rest : List Outbound} {n : ℕ}
    {closed : Bool} (hitems : Numbered (e.taken ++ item :: rest) n closed) :
    (∃ seq bytes next, item = .segment seq bytes ∧ l.inbound.data seq bytes = .ok next) ∨
      ∃ sent next, item = .shutdown sent ∧ l.inbound.acceptFin sent = .ok next := by
  obtain ⟨htaken, hitem⟩ := hitems.split
  have hpositions : positions e.taken = {k | k < e.taken.length} := by
    ext k
    constructor
    · rintro ⟨bytes, hb⟩
      obtain ⟨j, hj, hget⟩ := List.getElem_of_mem hb
      obtain ⟨bytes', hb'⟩ := htaken j hj
      rw [List.getElem?_eq_getElem hj, hget, Option.some.injEq, Outbound.segment.injEq] at hb'
      exact hb'.1 ▸ hj
    · intro hk
      obtain ⟨bytes, hb⟩ := htaken k hk
      exact ⟨bytes, List.mem_of_getElem? hb⟩
  have hfin : l.inbound.fin = none := by
    cases hfin : l.inbound.fin with
    | none => rfl
    | some m =>
      obtain ⟨j, hj, hget⟩ := List.getElem_of_mem ((h.fin m).1 hfin)
      obtain ⟨bytes, hb⟩ := htaken j hj
      rw [List.getElem?_eq_getElem hj, hget] at hb
      cases hb
  have htracks := h.tracks
  rw [hpositions] at htracks
  rcases hitem with ⟨bytes, rfl⟩ | rfl
  · obtain ⟨next, hnext⟩ := StreamReorder.data_ok htracks hfin bytes
    exact Or.inl ⟨_, _, next, rfl, hnext⟩
  · obtain ⟨next, hnext⟩ := StreamReorder.acceptFin_ok htracks hfin
    exact Or.inr ⟨_, next, rfl, hnext⟩

/-! ### What an end has sent -/

/-- The items an end has sent, by its stage. -/
def Emits (e : Endpoint T) (items : List Outbound) : Prop :=
  match e.stage with
  | .idle | .opening _ | .dialing => items = []
  | .preamble sent _ => Numbered items sent false
  | .relaying _ l => Numbered items l.sent (!l.localReadOpen)
  | _ => ∃ n closed, Numbered items n closed

lemma Emits.numbered {items : List Outbound} (h : e.Emits items) :
    ∃ n closed, Numbered items n closed := by
  unfold Emits at h
  split at h
  all_goals first
    | exact h
    | exact ⟨_, _, h⟩
    | exact h ▸ ⟨0, false, numbered_nil⟩

/-! ### A session that is forgotten only by name -/

end Endpoint

namespace RelayState

variable {s : RelayState T} {key other : SessionKey}

lemma mem_insertSession (h : key ∈ s.sessions) (other : SessionKey) :
    key ∈ (s.insertSession other).1.sessions := by
  unfold insertSession
  split
  · exact h
  · split
    · exact h
    · exact Finset.mem_insert_of_mem h

lemma mem_of_insertSession {s' : RelayState T} (h : s.insertSession key = (s', true)) :
    key ∈ s'.sessions := by
  unfold insertSession at h
  split at h
  · cases h
  · split at h
    · cases h
    · cases h
      exact Finset.mem_insert_self _ _

lemma mem_removeSession (h : key ∈ s.sessions) (hne : key ≠ other) :
    key ∈ (s.removeSession other).1.sessions := by
  unfold removeSession
  split
  · exact h
  · split
    · exact h
    · exact Finset.mem_erase.2 ⟨hne, h⟩

end RelayState

variable {s : RelayState T} {key : SessionKey}

lemma mem_sessions_stepFrame (kind : TransportKind) (ns : String) (h : key ∈ s.sessions)
    (sender : Did) (f : Frame)
    (hclose : ∀ session fromOpener, f = .close session fromOpener →
      key ≠ ⟨sender, ns, session, openerToInitiator fromOpener⟩) :
    key ∈ (stepFrame kind ns s sender f).1.sessions := by
  have hlive : ∀ carrier key' effect,
      key ∈ (toLiveSession s kind carrier key' effect).1.sessions := by
    intro carrier key' effect
    unfold toLiveSession
    split <;> exact h
  cases f with
  | data session fromOpener seq bytes => exact hlive _ _ _
  | shutdown session fromOpener sent => exact hlive _ _ _
  | datagram session fromOpener bytes => exact hlive _ _ _
  | close session fromOpener =>
    simp only [stepFrame]
    split
    · exact RelayState.mem_removeSession h (hclose session fromOpener rfl)
    · exact h
  | open_ session service =>
    have hinsert := RelayState.mem_insertSession h ⟨sender, ns, session, .remote⟩
    simp only [stepFrame]
    split
    · exact h
    split
    · exact h
    split
    · exact h
    split
    · rename_i s' hins
      rw [hins] at hinsert
      exact hinsert
    · rename_i s' hins
      rw [hins] at hinsert
      exact hinsert

lemma mem_sessions_step {ns : String} (h : key ∈ s.sessions) {event : RelayEvent T}
    (hother : event.key? ns s ≠ some key) : key ∈ (step ns s event).1.sessions := by
  cases event with
  | frame sender f =>
    refine mem_sessions_stepFrame .tcp ns h sender f fun session fromOpener hf heq => hother ?_
    rw [hf, heq]
    rfl
  | command c =>
    cases c with
    | registerService name target => exact h
    | accepted token peer service =>
      simp only [step, stepCommand]
      split
      · exact h
      split
      · exact h
      rename_i nextSession hnext
      have hinsert := RelayState.mem_insertSession
        (s := { s with nextSession := nextSession }) (by exact h) ⟨peer, ns, s.nextSession, .local_⟩
      split
      · rename_i s' hins
        rw [hins] at hinsert
        exact hinsert
      · rename_i s' hins
        rw [hins] at hinsert
        exact hinsert
    | untrack peer session initiator =>
      exact RelayState.mem_removeSession h fun heq => hother (by rw [heq]; rfl)
    | abort peer session initiator =>
      have hremove := RelayState.mem_removeSession h
        (show key ≠ ⟨peer, ns, session, initiator⟩ from fun heq => hother (by rw [heq]; rfl))
      simp only [step, stepCommand]
      split
      · rename_i s' hrem
        rw [hrem] at hremove
        exact hremove
      · rename_i s' hrem
        rw [hrem] at hremove
        exact hremove

def Frame.Addressed (session : ℕ) (fromOpener : Bool) : Frame → Prop
  | .data s o _ _ | .shutdown s o _ | .datagram s o _ => s = session ∧ o = fromOpener
  | _ => True

/-- A `Close` of the session `key`, as its receiver reads it. -/
def Frame.Closes (key : SessionKey) : Frame → Prop
  | .close session fromOpener =>
    session = key.session ∧ openerToInitiator fromOpener = key.initiator
  | _ => False

instance (key : SessionKey) (f : Frame) : Decidable (f.Closes key) := by
  unfold Frame.Closes
  split <;> infer_instance

namespace Endpoint

variable {e : Endpoint T} {l : RelayLoop} {f : Frame} {src : Source}

/-! ### The steps of a session that nothing disturbs -/

def finished (e : Endpoint T) : Bool :=
  match e.stage with
  | .relaying _ l => !l.localReadOpen && !l.localWriteOpen
  | .closing | .untracking | .sendingClose | .done => true
  | _ => false

/-- An end whose task was not stopped before both directions were over. -/
structure Intact (e : Endpoint T) : Prop where
  entry : ∀ g, e.handle = some g → g = e.generation ∧ e.key ∈ e.state.sessions
  unreset : e.socket.released ≠ some .reset
  running : e.stage ≠ .idle → e.finished = false → e.cancelled = false ∧ e.handle.isSome
  stage : match e.stage with
    | .idle => e.handle = none
    | .closing => e.socket.shutdown = true
    | .untracking | .sendingClose | .done => e.handle = none ∧ e.socket.shutdown = true
    | .cancellingOpen => False
    | _ => True

inductive Progress (e : Endpoint T) : Endpoint T × List Frame → Prop
  | stay (s : RelayState T) (hs : e.key ∈ e.state.sessions → e.key ∈ s.sessions) :
    Progress e ({ e with state := s }, [])
  | sendOpen (hstage : e.stage = .opening false) :
    Progress e ({ e with stage := .opening true }, [.open_ e.key.session e.service])
  | admitted (hstage : e.stage = .opening true) : Progress e (e.relayTcp, [])
  | dialed (hstage : e.stage = .dialing) :
    Progress e (Endpoint.relayTcp { e with socket := { e.socket with held := true } }, [])
  | preamble (sent : ℕ) (chunk : Bytes) (rest : List Bytes)
    (hstage : e.stage = .preamble sent (chunk :: rest)) :
    Progress e ({ e with stage := .preamble (sent + 1) rest },
      [.data e.key.session e.openedByUs sent chunk])
  | start (sent : ℕ) (hstage : e.stage = .preamble sent []) :
    Progress e ({ e with stage := .relaying false (startLoop sent) }, [])
  | select (l : RelayLoop) (hstage : e.stage = .relaying false l) :
    Progress e ({ e with stage := .relaying true l }, [])
  | left (selecting : Bool) (l : RelayLoop) (hstage : e.stage = .relaying selecting l)
    (hover : l.localReadOpen = false ∧ l.localWriteOpen = false) :
    Progress e ({ e with stage := .closing }, [])
  | read (l : RelayLoop) (bytes : Bytes) (hstage : e.stage = .relaying true l)
    (hopen : l.localReadOpen = true) : Progress e (e.localRead l true (some bytes))
  | took (l : RelayLoop) (item : Outbound) (queue : List Outbound)
    (inbound : StreamReorder Bytes) (ready : Ready Bytes) (hstage : e.stage = .relaying true l)
    (hopen : l.localWriteOpen = true) (hqueue : e.queue = item :: queue) :
    Progress e (Endpoint.writeReady { e with queue := queue, taken := e.taken ++ [item] } l
      inbound ready none, [])
  | release (hstage : e.stage = .closing) :
    Progress e ({ e with handle := none, cancelled := true, stage := .untracking }, [])
  | stale (hstage : e.stage = .closing) (hhandle : e.handle = none) : Progress e (e.endTask, [])
  | untracked (s : RelayState T) (fs : List Frame) (hstage : e.stage = .untracking)
    (hfs : ∀ f ∈ fs, IsClose f) : Progress e ({ e with state := s, stage := .sendingClose }, fs)
  | closed (hstage : e.stage = .sendingClose) :
    Progress e (e.endTask, [.close e.key.session e.openedByUs])

lemma Progress.refl (e : Endpoint T) : Progress e (e, []) := .stay e.state id

/-- The items an end has yet to take stand in the order of their source. -/
def InOrder (e : Endpoint T) : Prop :=
  ∀ item queue, e.queue = item :: queue →
    ∃ rest n closed, Numbered (e.taken ++ item :: rest) n closed

lemma progress_recv (hi : e.Intact) (hr : e.Receives src) (hstage : e.stage = .relaying true l)
    (hopen : l.localWriteOpen = true) (horder : e.InOrder) :
    Progress e (e.recv l none, []) := by
  have hlaw := hr.2
  simp only [hstage] at hlaw
  have hrunning := hi.running (by simp [hstage]) (by simp [finished, hstage, hopen])
  unfold recv
  cases hqueue : e.queue with
  | nil =>
    simp only [Option.isNone_iff_eq_none]
    rw [if_neg (by simpa [Option.isSome_iff_ne_none] using hrunning.2)]
    exact .refl e
  | cons item queue =>
    obtain ⟨rest, n, closed, hnumbered⟩ := horder item queue hqueue
    rcases hlaw.accepts hnumbered with
      ⟨seq, bytes, ⟨inbound, ready⟩, rfl, hdata⟩ | ⟨sent, ⟨inbound, ready⟩, rfl, hfin⟩
    · simp only [hdata]
      exact .took l _ queue inbound ready hstage hopen hqueue
    · simp only [hfin]
      exact .took l _ queue inbound ready hstage hopen hqueue

/-- A loop that is left is over in both directions. -/
lemma progress_leave (hi : e.Intact) {selecting : Bool} (hstage : e.stage = .relaying selecting l)
    (hleft : e.cancelled = true ∨ (l.localReadOpen || l.localWriteOpen) = false) :
    Progress e (e.leave l, []) := by
  have hover : (l.localReadOpen || l.localWriteOpen) = false := by
    rcases hleft with hcancelled | hover
    · by_contra hopen
      have hrunning := hi.running (by simp [hstage]) (by
        simp only [finished, hstage]
        revert hopen
        cases l.localReadOpen <;> cases l.localWriteOpen <;> simp)
      rw [hcancelled] at hrunning
      cases hrunning.1
    · exact hover
  have hsocket : e.leave l = { e with stage := .closing } := by
    unfold leave
    rw [if_neg (by simp [hover])]
  rw [hsocket]
  exact .left selecting l hstage (by simpa using hover)

/-- Undisturbed, a step of the task is one of these. -/
lemma progress_act (hi : e.Intact) (hr : e.Receives src) {a : Action T} (ha : a.Calm)
    (horder : ∀ l, e.stage = .relaying true l → l.localWriteOpen = true → e.InOrder) :
    Progress e (e.act a) := by
  have hlaw := hi.stage
  unfold act
  split
  · rename_i hstage
    exact .sendOpen hstage
  · rename_i ok admitted hstage
    obtain rfl : ok = true := ha
    have hrunning := hi.running (by simp [hstage]) (by simp [finished, hstage])
    obtain ⟨g, hg⟩ := Option.isSome_iff_exists.1 hrunning.2
    cases admitted with
    | false => exact .refl e
    | true =>
      simp only [opened, hg, (hi.entry g hg).1, Bool.not_true, Bool.and_false, if_true,
        Bool.false_eq_true, if_false]
      exact .admitted hstage
  · rename_i ok hstage
    obtain rfl : ok = true := ha
    exact .dialed hstage
  · rename_i ok
    obtain rfl : ok = true := ha
    unfold sendPreamble
    split
    · rename_i sent hstage
      exact .start sent hstage
    · rename_i sent chunk rest hstage
      exact .preamble sent chunk rest hstage
    · exact .refl e
  · rename_i l hstage
    split
    · exact .select l hstage
    · rename_i hdue
      refine progress_leave hi hstage ?_
      revert hdue
      cases e.cancelled <;> simp
  · rename_i l hstage
    split
    · rename_i hcancelled
      exact progress_leave hi hstage (Or.inl hcancelled)
    · exact .refl e
  · rename_i read ok l hstage
    split
    · rename_i hdue
      obtain ⟨hread, rfl⟩ : read.isSome = true ∧ ok = true := ha
      obtain ⟨bytes, rfl⟩ := Option.isSome_iff_exists.1 hread
      exact .read l bytes hstage hdue.1
    · exact .refl e
  · rename_i failsAfter l hstage
    obtain rfl : failsAfter = none := ha
    split
    · rename_i hopen
      exact progress_recv hi hr hstage hopen (horder l hstage hopen)
    · exact .refl e
  · exact absurd ha id
  · exact absurd ha id
  · rename_i hstage
    unfold closeIfCurrent
    split
    · exact .release hstage
    · rename_i hother
      refine .stale hstage ?_
      cases hhandle : e.handle with
      | none => rfl
      | some g => exact absurd (by rw [hhandle, (hi.entry g hhandle).1]) hother
  · rename_i ok hstage
    cases ok with
    | false => exact .untracked e.state [] hstage (by simp)
    | true =>
      obtain ⟨⟨s, hturn⟩, hclose⟩ := turn_feedback maxFixpointSteps [e.untrackFeedback]
        (by simp [untrackFeedback, IsFeedback]) e
      simp only [List.map_cons, List.map_nil] at hturn hclose
      simp only [if_true, hturn]
      exact .untracked s _ hstage hclose
  · rename_i hstage
    exact .closed hstage
  · rename_i hstage
    simp only [hstage] at hlaw
  · exact absurd ha id
  · split
    · exact .refl e
    · rename_i hother
      exact .stay _ fun hkey => mem_sessions_step hkey hother
  · exact .refl e

/-! ### What arrives -/

inductive Arrival (e : Endpoint T) (f : Frame) : Endpoint T × List Frame → Prop
  | ignored (s : RelayState T) (fs : List Frame) (hfs : ∀ g ∈ fs, IsClose g)
    (hlive : e.handle.isSome → f.item? = none ∧ fs = [] ∧ e.key ∈ s.sessions) :
    Arrival e f ({ e with state := s }, fs)
  | queued (o : Outbound) (ho : f.item? = some o) :
    Arrival e f ({ e with queue := e.queue ++ [o] }, [])
  | stopped (s : RelayState T) (hf : f.Closes e.key) (hlive : e.handle.isSome) :
    Arrival e f ({ e with state := s, handle := none, cancelled := true }, [])
  | connected (s : RelayState T) (g generations : ℕ) (hf : f.opens ≠ 0) (hnone : e.handle = none)
    (hkey : e.key ∈ s.sessions) :
    Arrival e f ({ e with
      state := s, handle := some g, generation := g, generations := generations, queue := [],
      cancelled := false, stage := .dialing }, [])

/-- A turn whose frame has one effect, which feeds nothing back. -/
lemma receive_of_effect {s' : RelayState T} {effect : RelayEffect T} {e' : Endpoint T}
    {fs : List Frame}
    (hstep : stepFrame .tcp e.key.namespace_ e.state e.key.peer f = (s', [effect]))
    (hran : runEffect { e with state := s' } effect = ((e', []), fs)) :
    e.receive f = (e', fs) := by
  unfold receive maxFixpointSteps
  rw [turn_cons]
  simp only [step, hstep, runEffects, hran, List.append_nil, List.map_nil, turn]

lemma receive_of_nothing {s' : RelayState T}
    (hstep : stepFrame .tcp e.key.namespace_ e.state e.key.peer f = (s', [])) :
    e.receive f = ({ e with state := s' }, []) := by
  unfold receive maxFixpointSteps
  rw [turn_cons]
  simp only [step, hstep, runEffects, List.append_nil, List.map_nil, turn]

lemma arrival_item {g : ℕ} (hhandle : e.handle = some g)
    (hroom : e.queue.length < outboundCapacity) {o : Outbound} (ho : f.item? = some o)
    (effect : SessionKey → RelayEffect T)
    (hstep : stepFrame .tcp e.key.namespace_ e.state e.key.peer f = (e.state, [effect e.key]))
    (hran : e.runEffect (effect e.key) = (if e.key = e.key then e.deliver o else (e, []), [])) :
    Arrival e f (e.receive f) := by
  have hdeliver : e.deliver o = ({ e with queue := e.queue ++ [o] }, []) := by
    unfold deliver
    simp only [hhandle, hroom, if_true]
  rw [if_pos rfl, hdeliver] at hran
  rw [receive_of_effect hstep hran]
  exact .queued o ho

/-- A `Close` of a live session drops it and stops its task. -/
lemma receive_close {g : ℕ} (hhandle : e.handle = some g) (hkey : e.key ∈ e.state.sessions)
    (hf : f.Closes e.key) : e.receive f = ({ e with
      state := (e.state.removeSession e.key).1, handle := none, cancelled := true }, []) := by
  unfold Frame.Closes at hf
  split at hf
  case h_2 => exact absurd hf id
  rename_i session fromOpener
  obtain ⟨rfl, hfrom⟩ := hf
  have hstep : stepFrame .tcp e.key.namespace_ e.state e.key.peer
      (.close e.key.session fromOpener) = ((e.state.removeSession e.key).1, [.close e.key]) := by
    simp only [stepFrame, hfrom]
    rw [if_pos hkey]
  rw [receive_of_effect hstep rfl, if_pos rfl]
  unfold closeForEffect
  simp only [hhandle]

/-- A frame for a live session, of which there is no second `Open`. -/
lemma arrival_live {g : ℕ} (hhandle : e.handle = some g) (hkey : e.key ∈ e.state.sessions)
    (haddressed : f.Addressed e.key.session (e.key.initiator = .remote)) (hopens : f.opens = 0)
    (hdatagram : ∀ bytes, f.item? ≠ some (.datagram bytes))
    (hroom : f.item?.isSome → e.queue.length < outboundCapacity) :
    Arrival e f (e.receive f) := by
  have hinitiator : ∀ fromOpener : Bool, fromOpener = decide (e.key.initiator = .remote) →
      openerToInitiator fromOpener = e.key.initiator := by
    rintro fromOpener rfl
    cases hinit : e.key.initiator <;> rfl
  cases f with
  | open_ session service => cases hopens
  | data session fromOpener seq bytes =>
    obtain ⟨rfl, hfrom⟩ := haddressed
    refine arrival_item hhandle (hroom rfl) rfl (fun key => .write key seq bytes) ?_ rfl
    simp only [stepFrame, toLiveSession, hinitiator _ hfrom]
    rw [if_pos ⟨trivial, hkey⟩]
  | shutdown session fromOpener sent =>
    obtain ⟨rfl, hfrom⟩ := haddressed
    refine arrival_item hhandle (hroom rfl) rfl (fun key => .shutdown key sent) ?_ rfl
    simp only [stepFrame, toLiveSession, hinitiator _ hfrom]
    rw [if_pos ⟨trivial, hkey⟩]
  | datagram session fromOpener bytes => exact absurd rfl (hdatagram bytes)
  | close session fromOpener =>
    by_cases hours : session = e.key.session ∧ openerToInitiator fromOpener = e.key.initiator
    · obtain ⟨rfl, hfrom⟩ := hours
      rw [receive_close hhandle hkey (by exact ⟨rfl, hfrom⟩)]
      exact .stopped _ ⟨rfl, hfrom⟩ (by simp [hhandle])
    have hne : e.key ≠ ⟨e.key.peer, e.key.namespace_, session, openerToInitiator fromOpener⟩ :=
      fun h => hours ⟨(congrArg SessionKey.session h).symm, (congrArg SessionKey.initiator h).symm⟩
    by_cases hmem : (⟨e.key.peer, e.key.namespace_, session, openerToInitiator fromOpener⟩ :
        SessionKey) ∈ e.state.sessions
    · have hstep : stepFrame .tcp e.key.namespace_ e.state e.key.peer (.close session fromOpener) =
          ((e.state.removeSession
              ⟨e.key.peer, e.key.namespace_, session, openerToInitiator fromOpener⟩).1,
            [.close ⟨e.key.peer, e.key.namespace_, session, openerToInitiator fromOpener⟩]) := by
        simp only [stepFrame, if_pos hmem]
      rw [receive_of_effect hstep rfl, if_neg hne.symm]
      exact .ignored _ [] (by simp) fun _ => ⟨rfl, rfl, RelayState.mem_removeSession hkey hne⟩
    · have hstep : stepFrame .tcp e.key.namespace_ e.state e.key.peer (.close session fromOpener) =
          (e.state, []) := by simp only [stepFrame, if_neg hmem]
      rw [receive_of_nothing hstep]
      exact .ignored _ [] (by simp) fun _ => ⟨rfl, rfl, hkey⟩

/-- A frame that opens no session, for an end that has none. -/
lemma arrival_gone (hhandle : e.handle = none) (hopens : f.opens = 0 ∨
    checkedAdd u64Max e.generations 1 = none) : Arrival e f (e.receive f) := by
  obtain ⟨e', s, s', hengine, he', hclose⟩ := receive_spec e f
  have hsame : e' = { e with state := s } := by
    cases hengine with
    | same => rfl
    | delivered o ho =>
      unfold deliver
      simp only [hhandle]
    | connected session service hf hkey =>
      rcases hopens with hopens | hfull
      · rw [hf] at hopens
        cases hopens
      · unfold connect register
        simp only [hhandle, hfull]
    | closed =>
      unfold closeForEffect
      simp only [hhandle]
  have hnext : e.receive f = ({ e with state := s' }, (e.receive f).2) := by
    rw [hsame] at he'
    rw [← he']
  rw [hnext]
  exact .ignored s' _ hclose (by simp [hhandle])

lemma arrival_open (hhandle : e.handle = none) (session : ℕ) (service : String) :
    Arrival e (.open_ session service) (e.receive (.open_ session service)) := by
  by_cases hfull : checkedAdd u64Max e.generations 1 = none
  · exact arrival_gone hhandle (Or.inr hfull)
  obtain ⟨generations, hgenerations⟩ := Option.ne_none_iff_exists'.1 hfull
  obtain ⟨-, s', -, -, hspec, hclose⟩ := receive_spec e (.open_ session service)
  have hreject : ∀ s fs, e.receive (.open_ session service) = ({ e with state := s }, fs) →
      Arrival e (.open_ session service) (e.receive (.open_ session service)) := fun s fs h => by
    rw [h] at hclose ⊢
    exact .ignored s fs hclose (by simp [hhandle])
  have hclosing : ∀ s, stepFrame .tcp e.key.namespace_ e.state e.key.peer (.open_ session service) =
      rejectedOpen s ⟨e.key.peer, e.key.namespace_, session, .remote⟩ →
      Arrival e (.open_ session service) (e.receive (.open_ session service)) := fun s h =>
    hreject s _ (receive_of_effect h rfl)
  by_cases hmem : (⟨e.key.peer, e.key.namespace_, session, .remote⟩ : SessionKey) ∈
      e.state.sessions
  · exact hreject e.state [] (receive_of_nothing (by simp only [stepFrame, if_pos hmem]))
  cases hservice : e.state.services service with
  | none => exact hclosing e.state (by simp only [stepFrame, if_neg hmem, hservice])
  | some target =>
    by_cases hadmit : (!e.state.canAdmitSession
        ⟨e.key.peer, e.key.namespace_, session, .remote⟩) = true
    · exact hclosing e.state (by simp only [stepFrame, if_neg hmem, hservice, if_pos hadmit])
    cases hinsert : e.state.insertSession ⟨e.key.peer, e.key.namespace_, session, .remote⟩ with
    | mk s inserted =>
      cases inserted with
      | false =>
        exact hclosing s (by simp only [stepFrame, if_neg hmem, hservice, if_neg hadmit, hinsert])
      | true =>
        have hstep : stepFrame .tcp e.key.namespace_ e.state e.key.peer
            (.open_ session service) = (s, [.connect
              ⟨e.key.peer, e.key.namespace_, session, .remote⟩ target .tcp]) := by
          simp only [stepFrame, if_neg hmem, hservice, if_neg hadmit, hinsert]
        by_cases hkey : ⟨e.key.peer, e.key.namespace_, session, .remote⟩ = e.key
        · have hconnect : connect { e with state := s } = ({ e with
              state := s, handle := some e.generations, generation := e.generations,
              generations := generations, queue := [], cancelled := false, stage := .dialing },
              []) := by
            unfold connect register
            simp only [hhandle, hgenerations]
          have hran : runEffect { e with state := s }
              (.connect ⟨e.key.peer, e.key.namespace_, session, .remote⟩ target .tcp) =
              (connect { e with state := s }, []) := by
            simp only [runEffect, if_pos hkey]
          rw [hconnect] at hran
          rw [receive_of_effect hstep hran]
          refine .connected s _ _ (by simp [Frame.opens]) hhandle ?_
          rw [← hkey]
          exact RelayState.mem_of_insertSession hinsert
        · have hran : runEffect { e with state := s }
              (.connect ⟨e.key.peer, e.key.namespace_, session, .remote⟩ target .tcp) =
              (({ e with state := s }, []), []) := by
            simp only [runEffect, if_neg hkey]
          exact hreject s [] (receive_of_effect hstep hran)

end Endpoint

end Rings.Transport
