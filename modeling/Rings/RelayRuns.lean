import Rings.RelayStream

/-!
Whole runs of a relayed TCP session.

Whatever the overlay does with the frames, and however the two tasks end, each local socket holds
a part of the other end's stream, and its write half is shut only behind all of it. What breaks
this is an accepted stream that is dropped before its loop took it, which the local peer reads as
a clean end.
-/

namespace Rings.Transport

open scoped List

variable {T : Type*}

/-! ### What the session promises -/

/-- The first segment missing from what was taken, short of the half-close. -/
def FirstMissing (taken : List Outbound) (n : ℕ) : Prop :=
  (∀ k < n, k ∈ Endpoint.positions taken) ∧ n ∉ Endpoint.positions taken ∧
    ∀ m, .shutdown m ∈ taken → n < m

/-- A later segment, or the half-close, was seen. -/
def ShownSent (taken : List Outbound) (n : ℕ) : Prop :=
  (∃ k ∈ Endpoint.positions taken, n < k) ∨ ∃ m, .shutdown m ∈ taken

namespace World

/-- One relay session as it begins: the opener holds the accepted stream under a fresh entry, and
its peer knows nothing of it. -/
structure Begins (w : World T) : Prop where
  network : w.network = []
  session : (w.ends .acceptor).key.session = (w.ends .opener).key.session
  initiators : (w.ends .opener).key.initiator = .local_ ∧
    (w.ends .acceptor).key.initiator = .remote
  stages : (w.ends .opener).stage = .opening false ∧ (w.ends .acceptor).stage = .idle
  handles : (w.ends .opener).handle = some (w.ends .opener).generation ∧
    (w.ends .acceptor).handle = none
  preamble : (w.ends .acceptor).preamble = []
  fresh : ∀ side, (w.ends side).Fresh
  unread : ∀ side, (w.ends side).socket.reads = [] ∧ (w.ends side).socket.eof = false
  queues : ∀ side, (w.ends side).queue = []

structure Lawful (w : World T) : Prop where
  stream : ∀ side, (w.ends side).socket.written <+: (w.ends side.other).stream
  complete : ∀ side, (w.ends side).socket.shutdown = true ∨
    (w.ends side).socket.released = some .close →
      (w.ends side.other).socket.eof = true ∧
        (w.ends side).socket.written = (w.ends side.other).stream
  waiting : ∀ side selecting l, (w.ends side).stage = .relaying selecting l →
    l.inbound.ahead.size ≤ reorderWindow - 1
  gap : ∀ side selecting l n, (w.ends side).stage = .relaying selecting l →
    (l.gap = some n ↔
      FirstMissing (w.ends side).taken n ∧ ShownSent (w.ends side).taken n)

/-- The session keeps its streams in a run: every state is lawful, and no segment is written
after a fault. -/
def KeepsStreams (w : World T) (steps : List (WorldStep T)) : Prop :=
  (∀ pre, pre <+: steps → (w.run pre).Lawful) ∧
    ∀ pre post, pre ++ post <+: steps → ∀ side, ((w.run pre).ends side).fault.isSome →
      ((w.run (pre ++ post)).ends side).socket.written =
        ((w.run pre).ends side).socket.written

end World

/-! ### Where a stream is released -/

namespace Endpoint

variable {e : Endpoint T} {src : Source}

def endsTask (e : Endpoint T) (a : Action T) : Bool :=
  match a, e.stage with
  | .opened ok, .opening admitted => ok && admitted &&
      (e.handle.isSome && e.handle ≠ some e.generation)
  | .closeIfCurrent, .closing => e.handle ≠ some e.generation
  | .sendClose, .sendingClose => true
  | .sendClose, .cancellingOpen => true
  | _, _ => false

def dropsStream (e : Endpoint T) (a : Action T) : Bool :=
  e.endsTask a && e.socket.held && !e.socket.shutdown

lemma act_of_endsTask {a : Action T} (h : e.endsTask a = true) : (e.act a).1 = e.endTask := by
  unfold endsTask at h
  unfold act
  split at h
  · rename_i ok admitted hstage
    simp only [Bool.and_eq_true, decide_eq_true_eq] at h
    obtain ⟨⟨rfl, rfl⟩, hsome, hne⟩ := h
    obtain ⟨g, hg⟩ := Option.isSome_iff_exists.1 hsome
    rw [hg, ne_eq, Option.some.injEq] at hne
    simp [hstage, opened, hg, hne]
  · rename_i hstage
    simp only [decide_eq_true_eq] at h
    simp [hstage, closeIfCurrent, h]
  · rename_i hstage
    simp [hstage]
  · rename_i hstage
    simp [hstage]
  · cases h

/-- Nothing was written to a stream that is dropped before its write half was shut. -/
lemma written_of_endsTask (hr : e.Receives src) {a : Action T} (hend : e.endsTask a = true)
    (hheld : e.socket.held = true) (hshut : e.socket.shutdown = false) :
    e.socket.written = [] := by
  have hlaw := hr.2
  have hover : e.Over src → e.socket.written = [] := fun h =>
    (h.unrelayed (Or.inl hheld)).resolve_left (by simp [hshut])
  unfold endsTask at hend
  split at hend
  · rename_i hstage
    simp only [hstage] at hlaw
    exact hlaw.written
  · rename_i hstage
    simp only [hstage] at hlaw
    exact hover hlaw
  · rename_i hstage
    simp only [hstage] at hlaw
    exact hover hlaw
  · rename_i hstage
    simp only [hstage] at hlaw
    exact hover hlaw
  · cases hend

/-- What a step that is not the task's last leaves of the socket. -/
structure SocketLaw (s s' : LocalSocket) : Prop where
  shutdown : s.shutdown = true → s'.shutdown = true
  released : s'.released = some .close → s.released = some .close

lemma SocketLaw.refl (s : LocalSocket) : SocketLaw s s := ⟨id, id⟩

lemma socketLaw_leave (e : Endpoint T) (l : RelayLoop) :
    SocketLaw e.socket (e.leave l).socket := by
  unfold leave
  split
  · exact ⟨id, nofun⟩
  · exact .refl _

lemma socketLaw_arrival (e : Endpoint T) (l : RelayLoop) (failsAfter : Option ℕ)
    (arrived : Except StreamFault (StreamReorder Bytes × Ready Bytes)) :
    SocketLaw e.socket (e.arrival l failsAfter arrived).socket := by
  rcases arrived with fault | ⟨inbound, ready⟩
  · exact socketLaw_leave _ l
  · cases failsAfter with
    | none => exact ⟨fun h => by simp [arrival, writeReady, h], id⟩
    | some n =>
      have h := socketLaw_leave { e with
        cancelled := true
        socket := { e.socket with
          written := e.socket.written ++ ready.segments.flatten.take n } } l
      exact ⟨h.shutdown, h.released⟩

lemma socketLaw_recv (e : Endpoint T) (l : RelayLoop) (failsAfter : Option ℕ) :
    SocketLaw e.socket (e.recv l failsAfter).socket := by
  unfold recv
  cases e.queue with
  | nil =>
    simp only
    split
    · exact socketLaw_leave e l
    · exact .refl _
  | cons item queue =>
    cases item with
    | datagram bytes => exact socketLaw_leave { e with
        queue := queue, taken := e.taken ++ [.datagram bytes] } l
    | segment seq bytes => exact socketLaw_arrival { e with
        queue := queue, taken := e.taken ++ [.segment seq bytes] } l failsAfter _
    | shutdown sent => exact socketLaw_arrival { e with
        queue := queue, taken := e.taken ++ [.shutdown sent] } l failsAfter _

lemma socketLaw_localRead (e : Endpoint T) (l : RelayLoop) (ok : Bool) (read : Option Bytes) :
    SocketLaw e.socket (e.localRead l ok read).1.socket := by
  match read with
  | none => exact socketLaw_leave { e with cancelled := true } l
  | some [] => exact ⟨id, id⟩
  | some (b :: bytes) =>
    cases ok with
    | true => exact ⟨id, id⟩
    | false =>
      have h := socketLaw_leave { e with
        cancelled := true
        socket := { e.socket with reads := e.socket.reads ++ [b :: bytes] } } l
      exact ⟨h.shutdown, h.released⟩

/-- Only the last step of a task closes its stream without a reset. -/
lemma socketLaw_act {a : Action T} (h : e.endsTask a = false) :
    SocketLaw e.socket (e.act a).1.socket := by
  unfold act
  split
  · exact .refl _
  · rename_i ok admitted hstage
    split
    · exact .refl _
    · rename_i hdue
      unfold opened
      split
      · exact .refl _
      · rename_i hok
        split
        · exact .refl _
        · rename_i g hg
          simp only [Bool.not_eq_true', Bool.not_eq_false] at hok
          simp only [hok, Bool.true_and, Bool.not_eq_true', Bool.not_eq_false] at hdue
          simp only [endsTask, hstage, hok, hdue, hg, Bool.true_and, Option.isSome_some, ne_eq,
            Option.some.injEq, decide_not, Bool.not_eq_false', decide_eq_true_eq] at h
          rw [if_pos h]
          exact .refl _
  · split <;> exact ⟨id, id⟩
  · unfold sendPreamble
    split
    · exact .refl _
    · split <;> exact .refl _
    · exact .refl _
  · split
    · exact .refl _
    · exact socketLaw_leave e _
  · split
    · exact socketLaw_leave e _
    · exact .refl _
  · split
    · exact socketLaw_localRead e _ _ _
    · exact .refl _
  · split
    · exact socketLaw_recv e _ _
    · exact .refl _
  · split
    · exact socketLaw_leave { e with cancelled := true, fault := _ } _
    · exact .refl _
  · exact socketLaw_leave e _
  · rename_i hstage
    simp only [endsTask, hstage, ne_eq, decide_not, Bool.not_eq_false', decide_eq_true_eq] at h
    unfold closeIfCurrent
    rw [if_pos h]
    exact .refl _
  · rename_i ok hstage
    cases ok with
    | false => exact .refl _
    | true =>
      obtain ⟨⟨s, hturn⟩, -⟩ := turn_feedback maxFixpointSteps [e.untrackFeedback]
        (by simp [untrackFeedback, IsFeedback]) e
      simp only [List.map_cons, List.map_nil] at hturn
      simp only [if_true, hturn]
      exact .refl _
  · rename_i hstage
    simp [endsTask, hstage] at h
  · rename_i hstage
    simp [endsTask, hstage] at h
  · exact .refl _
  · split <;> exact .refl _
  · exact .refl _

/-- A task that was reset for a fault is past its loop, and writes no more. -/
lemma act_of_fault (hr : e.Receives src) (hfault : e.fault.isSome) (a : Action T) :
    (e.act a).1.fault = e.fault ∧ (e.act a).1.socket.written = e.socket.written := by
  have hend : ∀ e : Endpoint T, e.endTask.fault = e.fault ∧
      e.endTask.socket.written = e.socket.written := fun e => by
    refine ⟨rfl, ?_⟩
    unfold endTask
    split <;> rfl
  have hfresh : ¬ e.Fresh := fun h => by simp [h.fault] at hfault
  have hrelays : ∀ l, ¬ e.Relays src l := fun l h => by simp [h.fault] at hfault
  have hlaw := hr.2
  unfold act
  split
  · exact ⟨rfl, rfl⟩
  · rename_i hstage
    simp only [hstage] at hlaw
    exact absurd hlaw hfresh
  · split <;> exact ⟨rfl, rfl⟩
  · unfold sendPreamble
    split
    · exact ⟨rfl, rfl⟩
    · split <;> exact ⟨rfl, rfl⟩
    · exact ⟨rfl, rfl⟩
  · rename_i hstage
    simp only [hstage] at hlaw
    exact absurd hlaw (hrelays _)
  · rename_i hstage
    simp only [hstage] at hlaw
    exact absurd hlaw (hrelays _)
  · rename_i hstage
    simp only [hstage] at hlaw
    exact absurd hlaw (hrelays _)
  · rename_i hstage
    simp only [hstage] at hlaw
    exact absurd hlaw (hrelays _)
  · rename_i hstage
    simp only [hstage] at hlaw
    exact absurd hlaw (hrelays _)
  · rename_i hstage
    simp only [hstage] at hlaw
    exact absurd hlaw (hrelays _)
  · unfold closeIfCurrent
    split
    · exact ⟨rfl, rfl⟩
    · exact hend e
  · rename_i ok hstage
    cases ok with
    | false => exact ⟨rfl, rfl⟩
    | true =>
      obtain ⟨⟨s, hturn⟩, -⟩ := turn_feedback maxFixpointSteps [e.untrackFeedback]
        (by simp [untrackFeedback, IsFeedback]) e
      simp only [List.map_cons, List.map_nil] at hturn
      simp only [if_true, hturn, and_self]
  · exact hend e
  · exact hend e
  · exact ⟨rfl, rfl⟩
  · split <;> exact ⟨rfl, rfl⟩
  · exact ⟨rfl, rfl⟩

lemma receive_socket (e : Endpoint T) (f : Frame) :
    (e.receive f).1.socket = e.socket ∧ (e.receive f).1.fault = e.fault := by
  obtain ⟨e', s, s', hengine, he', -⟩ := receive_spec e f
  rw [he']
  have hclosed : ∀ e : Endpoint T, e.closeForEffect.socket = e.socket ∧
      e.closeForEffect.fault = e.fault := fun e => by
    unfold closeForEffect
    split <;> exact ⟨rfl, rfl⟩
  cases hengine with
  | same => exact ⟨rfl, rfl⟩
  | closed => exact hclosed _
  | delivered o ho =>
    unfold deliver
    split
    · exact ⟨rfl, rfl⟩
    · split
      · exact ⟨rfl, rfl⟩
      · exact hclosed _
  | connected session service hf hkey =>
    unfold connect register
    split
    · exact ⟨rfl, rfl⟩
    · split
      · exact ⟨rfl, rfl⟩
      · rename_i e' hregister
        split at hregister
        · cases hregister
          exact ⟨rfl, rfl⟩
        · cases hregister

end Endpoint

/-! ### Runs -/

namespace World

variable {w : World T}

lemma sound_of_begins (h : w.Begins) : w.Sound where
  sends side := by
    have hunread := h.unread side
    cases side
    · simpa only [Endpoint.Sends, h.stages.1] using hunread
    · simpa only [Endpoint.Sends, h.stages.2] using hunread
  receives side := by
    refine ⟨by simp [h.queues side], ?_⟩
    have hfresh := h.fresh side
    cases side
    · simpa only [h.stages.1] using hfresh
    · simpa only [h.stages.2] using hfresh
  frames side f hf := by simp [h.network] at hf
  opens := by
    simp [World.opens, h.network, Endpoint.claims, h.initiators.1, h.initiators.2, h.stages.1,
      h.stages.2]

@[simp] lemma run_nil (w : World T) : w.run [] = w := rfl

lemma run_append (w : World T) (pre post : List (WorldStep T)) :
    w.run (pre ++ post) = (w.run pre).run post := List.foldl_append

lemma run_concat (w : World T) (steps : List (WorldStep T)) (op : WorldStep T) :
    w.run (steps ++ [op]) = (w.run steps).step op := by
  rw [run_append]
  rfl

lemma Sound.run (h : w.Sound) (steps : List (WorldStep T)) : (w.run steps).Sound := by
  induction steps using List.reverseRecOn with
  | nil => exact h
  | append_singleton steps op ih =>
    rw [run_concat]
    exact ih.step op

/-- A stream closed without a reset had its write half shut, unless there was nothing to write. -/
def Completes (w : World T) : Prop :=
  ∀ side, (w.ends side).socket.released = some .close →
    (w.ends side).socket.shutdown = true ∨
      (w.ends side.other).socket.eof = true ∧ (w.ends side.other).stream = []

lemma Sound.stream (h : w.Sound) (side : Side) :
    (w.ends side).socket.written <+: (w.ends side.other).stream := by
  have hlaw := (h.receives side).2
  rw [← Endpoint.bytes_source]
  cases hstage : (w.ends side).stage <;> simp only [hstage] at hlaw
  case relaying selecting l =>
    rw [hlaw.written]
    exact (List.take_prefix _ _).flatten
  all_goals first
    | exact hlaw.written
    | exact hlaw.written ▸ List.nil_prefix

lemma Sound.complete (h : w.Sound) {side : Side}
    (hshut : (w.ends side).socket.shutdown = true) :
    (w.ends side.other).socket.eof = true ∧
      (w.ends side).socket.written = (w.ends side.other).stream := by
  have hlaw := (h.receives side).2
  rw [← Endpoint.bytes_source]
  cases hstage : (w.ends side).stage <;> simp only [hstage] at hlaw
  case relaying selecting l =>
    refine hlaw.complete ?_
    have := hlaw.shutdown
    rw [hshut] at this
    simpa using this.symm
  all_goals first
    | exact hlaw.shutdown hshut
    | simp [hlaw.shutdown] at hshut

lemma Sound.lawful (h : w.Sound) (hc : w.Completes) : w.Lawful where
  stream := h.stream
  complete side hend := by
    rcases hend with hshut | hclosed
    · exact h.complete hshut
    · rcases hc side hclosed with hshut | ⟨heof, hnil⟩
      · exact h.complete hshut
      · have := h.stream side
        rw [hnil, List.prefix_nil] at this
        exact ⟨heof, this.trans hnil.symm⟩
  waiting side selecting l hstage := by
    have hlaw := (h.receives side).2
    simp only [hstage] at hlaw
    exact hlaw.tracks.size_le
  gap side selecting l n hstage := by
    have hlaw := (h.receives side).2
    simp only [hstage] at hlaw
    rw [hlaw.gap, hlaw.tracks.gap_eq_some_iff, FirstMissing, ShownSent, and_assoc, and_assoc]
    simp only [hlaw.fin, Option.isSome_iff_exists]

/-- A step of one end completes when that end's stream does. -/
lemma Completes.update (hc : w.Completes) {side : Side} {next : Endpoint T × List Frame}
    (hlaw : Endpoint.StepLaw (w.ends side.other).source (w.ends side) next)
    (hself : next.1.socket.released = some .close → next.1.socket.shutdown = true ∨
      (w.ends side.other).socket.eof = true ∧ (w.ends side.other).stream = []) :
    (w.update side next).Completes := by
  have hends : (w.update side next).ends side = next.1 := Function.update_self _ _ _
  have hother : (w.update side next).ends side.other = w.ends side.other :=
    Function.update_of_ne (other_ne side) _ _
  intro x hx
  rcases eq_or_eq_other side x with rfl | rfl
  · rw [hends] at hx ⊢
    rw [hother]
    exact hself hx
  · rw [hother] at hx ⊢
    rw [other_other, hends]
    refine (hc side.other hx).imp_right fun ⟨heof, hnil⟩ => ?_
    rw [other_other] at heof hnil
    have hsource := hlaw.source.eof heof
    refine ⟨(congrArg Source.eof hsource).trans heof, ?_⟩
    rw [← Endpoint.bytes_source, hsource, Endpoint.bytes_source]
    exact hnil

/-- The step drops no stream that its loop never took, unless the other end read its end of
stream and nothing before it. -/
def DropsOnlyEmpty (w : World T) : WorldStep T → Prop
  | .act side a => (w.ends side).dropsStream a = true →
      (w.ends side.other).socket.eof = true ∧ (w.ends side.other).stream = []
  | .deliver _ => True

instance (w : World T) (op : WorldStep T) : Decidable (w.DropsOnlyEmpty op) :=
  match op with
  | .act _ _ => inferInstanceAs (Decidable (_ → _ ∧ _))
  | .deliver _ => inferInstanceAs (Decidable True)

lemma Completes.step (hc : w.Completes) (h : w.Sound) {op : WorldStep T}
    (hop : w.DropsOnlyEmpty op) : (w.step op).Completes := by
  cases op with
  | act side a =>
    refine hc.update (Endpoint.act_law (h.sends side) (h.receives side) a) fun hclosed => ?_
    cases hend : (w.ends side).endsTask a with
    | false =>
      have hlaw := Endpoint.socketLaw_act hend
      exact (hc side (hlaw.released hclosed)).imp_left hlaw.shutdown
    | true =>
      rw [Endpoint.act_of_endsTask hend] at hclosed ⊢
      cases hheld : (w.ends side).socket.held with
      | false =>
        have hsocket : (w.ends side).endTask.socket = (w.ends side).socket :=
          if_neg (by simp [hheld])
        rw [hsocket] at hclosed ⊢
        exact hc side hclosed
      | true =>
        have hsocket : (w.ends side).endTask.socket.shutdown = (w.ends side).socket.shutdown := by
          simp [Endpoint.endTask, hheld]
        rw [hsocket]
        cases hshut : (w.ends side).socket.shutdown with
        | true => exact Or.inl rfl
        | false => exact Or.inr (hop (by simp [Endpoint.dropsStream, hend, hheld, hshut]))
  | deliver index =>
    simp only [World.step]
    split
    · exact hc
    · rename_i side f hget
      have htaken : Completes { w with network := w.network.eraseIdx index } := hc
      refine htaken.update (h.receive_law hget) fun hclosed => ?_
      rw [(Endpoint.receive_socket _ f).1] at hclosed ⊢
      exact hc side hclosed

lemma fault_run (h : w.Sound) {side : Side} (hfault : (w.ends side).fault.isSome)
    (steps : List (WorldStep T)) : ((w.run steps).ends side).fault = (w.ends side).fault ∧
      ((w.run steps).ends side).socket.written = (w.ends side).socket.written := by
  induction steps using List.reverseRecOn with
  | nil => exact ⟨rfl, rfl⟩
  | append_singleton steps op ih =>
    have hsound := h.run steps
    rw [run_concat]
    obtain ⟨hf, hw⟩ := ih
    rw [← hf] at hfault
    cases op with
    | act x a =>
      by_cases hx : side = x
      · subst hx
        obtain ⟨hf', hw'⟩ := Endpoint.act_of_fault (hsound.receives side) hfault a
        simp only [World.step, World.update, Function.update_self]
        exact ⟨hf'.trans hf, hw'.trans hw⟩
      · simp only [World.step, World.update, Function.update_of_ne hx]
        exact ⟨hf, hw⟩
    | deliver index =>
      simp only [World.step]
      split
      · exact ⟨hf, hw⟩
      · rename_i x f hget
        by_cases hx : side = x
        · subst hx
          simp only [World.update, Function.update_self, Endpoint.receive_socket]
          exact ⟨hf, hw⟩
        · simp only [World.update, Function.update_of_ne hx]
          exact ⟨hf, hw⟩

/-- A stream dropped before its loop took it is read as a clean end, which is right only for a
peer that ended its own with nothing before. -/
lemma Sound.dropsOnlyEmpty (h : w.Sound) {op : WorldStep T} (hlawful : (w.step op).Lawful) :
    w.DropsOnlyEmpty op := by
  cases op with
  | deliver index => trivial
  | act side a =>
    intro hdrop
    simp only [Endpoint.dropsStream, Bool.and_eq_true, Bool.not_eq_true'] at hdrop
    obtain ⟨⟨hend, hheld⟩, hshut⟩ := hdrop
    have hself : (w.step (.act side a)).ends side = (w.ends side).endTask := by
      simp only [World.step, World.update, Function.update_self, Endpoint.act_of_endsTask hend]
    have hother : (w.step (.act side a)).ends side.other = w.ends side.other :=
      Function.update_of_ne (other_ne side) _ _
    have hcomplete := hlawful.complete side
    rw [hself, hother] at hcomplete
    simp only [Endpoint.endTask, hheld, if_true, or_true, true_implies] at hcomplete
    refine ⟨hcomplete.1, ?_⟩
    rw [← hcomplete.2]
    exact Endpoint.written_of_endsTask (h.receives side) hend hheld hshut

/-- A session keeps its streams in just those runs in which a stream that its loop never took is
dropped only when the other end had nothing for it. -/
theorem keepsStreams_iff (h : w.Begins) (steps : List (WorldStep T)) :
    w.KeepsStreams steps ↔
      ∀ pre op, pre ++ [op] <+: steps → (w.run pre).DropsOnlyEmpty op := by
  have hsound := sound_of_begins h
  constructor
  · intro hkeeps pre op hpre
    refine (hsound.run pre).dropsOnlyEmpty ?_
    rw [← run_concat]
    exact hkeeps.1 _ hpre
  · intro hdrops
    have hcompletes : ∀ pre, pre <+: steps → (w.run pre).Completes := by
      intro pre
      induction pre using List.reverseRecOn with
      | nil =>
        intro _ side hclosed
        rw [run_nil, (h.fresh side).released] at hclosed
        cases hclosed
      | append_singleton pre op ih =>
        intro hpre
        rw [run_concat]
        exact (ih ((List.prefix_append _ _).trans hpre)).step (hsound.run pre) (hdrops pre op hpre)
    refine ⟨fun pre hpre => (hsound.run pre).lawful (hcompletes pre hpre), ?_⟩
    intro pre post _ side hfault
    rw [run_append]
    exact (fault_run (hsound.run pre) hfault post).2

def beginning (key : SessionKey) (state : RelayState Unit) (stage : Stage) (handle : Option ℕ)
    (held : Bool) : Endpoint Unit where
  key := key
  service := "ssh"
  preamble := []
  state := state
  handle := handle
  generations := 1
  generation := 0
  queue := []
  cancelled := false
  stage := stage
  socket := ⟨held, [], false, [], false, none⟩
  taken := []
  fault := none

def accepted : World Unit where
  ends
    | .opener => beginning ⟨2, "tcp", 0, .local_⟩
        (stepCommand "tcp" .new (.accepted 0 2 "ssh")).1 (.opening false) (some 0) true
    | .acceptor => beginning ⟨1, "tcp", 0, .remote⟩
        (stepCommand "tcp" .new (.registerService "ssh" ())).1 .idle none false
  network := []

lemma accepted_begins : accepted.Begins where
  network := rfl
  session := rfl
  initiators := ⟨rfl, rfl⟩
  stages := ⟨rfl, rfl⟩
  handles := ⟨rfl, rfl⟩
  preamble := rfl
  fresh side := by cases side <;> exact ⟨rfl, rfl, rfl, rfl, rfl⟩
  unread side := by cases side <;> exact ⟨rfl, rfl⟩
  queues side := by cases side <;> rfl

def greeted : List (WorldStep Unit) :=
  [.act .opener .sendOpen, .act .opener (.opened true), .act .opener (.sendPreamble true),
    .act .opener .loopHead, .deliver 0, .act .acceptor (.dialed true),
    .act .acceptor (.sendPreamble true), .act .acceptor .loopHead,
    .act .acceptor (.localRead (some [83, 83, 72]) true), .deliver 0,
    .act .opener (.recv none)]

theorem keepsStreams_greeted : accepted.KeepsStreams greeted := by
  refine (keepsStreams_iff accepted_begins greeted).2 fun pre op hpre => ?_
  have hdrops : ∀ p ∈ greeted.inits, ∀ op ∈ p.getLast?,
      (accepted.run p.dropLast).DropsOnlyEmpty op := by decide +kernel
  have hop := hdrops (pre ++ [op]) ((List.mem_inits _ _).2 hpre) op (by simp)
  rwa [List.dropLast_concat] at hop

/-- The acceptor's service greets the opener and ends its stream, and the acceptor's task is
stopped; all of it arrives while the opener still waits for its `Open` to be admitted. -/
def overtaken : List (WorldStep Unit) :=
  [.act .opener .sendOpen, .deliver 0, .act .acceptor (.dialed true),
    .act .acceptor (.sendPreamble true), .act .acceptor .loopHead,
    .act .acceptor (.localRead (some [83, 83, 72]) true), .act .acceptor .loopHead,
    .act .acceptor (.localRead (some []) true), .act .acceptor .loopHead,
    .act .acceptor .cancel, .act .acceptor .cancelledBranch, .act .acceptor .closeIfCurrent,
    .act .acceptor (.untracked true), .act .acceptor .sendClose, .deliver 0, .deliver 0,
    .deliver 0, .act .opener (.opened true), .act .opener .sendClose]

/-- The opener's local peer sees a clean end of stream without the greeting. -/
theorem overtaken_loses_greeting : accepted.Begins ∧ ¬ accepted.KeepsStreams overtaken := by
  refine ⟨accepted_begins, fun hkeeps => ?_⟩
  have hclosed : ((accepted.run overtaken).ends .opener).socket.released = some .close := by
    decide +kernel
  have hcomplete := (hkeeps.1 overtaken List.prefix_rfl).complete .opener (Or.inr hclosed)
  exact absurd hcomplete.2 (by decide +kernel)

end World

end Rings.Transport
