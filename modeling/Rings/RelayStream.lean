import Rings.RelaySession

/-!
The streams of a relayed TCP session: no silent gap, and a clean end only when complete.

Each end is a source for the other: the segments of its preamble and of its reads, growing until
its local end of stream. Whatever an end sends, queues, holds back or writes is read off the
source of its peer, and stays so as that source grows. What is left is the task that never
reached its loop.
-/

namespace Rings.Transport

open scoped List

/-! ### One end as the source of the other's stream -/

structure Source where
  segments : List Bytes
  eof : Bool

namespace Source

variable {s s' s'' : Source}

def bytes (s : Source) : Bytes := s.segments.flatten

structure Extends (s s' : Source) : Prop where
  segments : s.segments <+: s'.segments
  eof : s.eof = true → s' = s

lemma Extends.refl (s : Source) : s.Extends s := ⟨List.prefix_rfl, fun _ => rfl⟩

lemma Extends.get (h : s.Extends s') {k : ℕ} {b : Bytes} (hk : s.segments[k]? = some b) :
    s'.segments[k]? = some b := by
  obtain ⟨rest, hrest⟩ := h.segments
  rw [← hrest, List.getElem?_append_left (List.getElem?_eq_some_iff.1 hk).1]
  exact hk

lemma Extends.take (h : s.Extends s') {n : ℕ} (hn : n ≤ s.segments.length) :
    s'.segments.take n = s.segments.take n := by
  obtain ⟨rest, hrest⟩ := h.segments
  rw [← hrest, List.take_append_of_le_length hn]

lemma Extends.bytes (h : s.Extends s') : s.bytes <+: s'.bytes := by
  obtain ⟨rest, hrest⟩ := h.segments
  exact ⟨rest.flatten, by rw [Source.bytes, Source.bytes, ← hrest, List.flatten_append]⟩

end Source

/-- A frame that tells of the source: one of its segments, or the number of all of them. -/
def Frame.From (src : Source) : Frame → Prop
  | .data _ _ seq bytes => src.segments[seq]? = some bytes
  | .shutdown _ _ sent => src.eof = true ∧ sent = src.segments.length
  | _ => True

def Outbound.From (src : Source) : Outbound → Prop
  | .segment seq bytes => src.segments[seq]? = some bytes
  | .shutdown sent => src.eof = true ∧ sent = src.segments.length
  | .datagram _ => True

def Frame.item? : Frame → Option Outbound
  | .data _ _ seq bytes => some (.segment seq bytes)
  | .shutdown _ _ sent => some (.shutdown sent)
  | .datagram _ _ bytes => some (.datagram bytes)
  | _ => none

def Frame.opens : Frame → ℕ
  | .open_ _ _ => 1
  | _ => 0

variable {src src' : Source} {f : Frame} {o : Outbound}

lemma Frame.From.mono (h : f.From src) (hs : src.Extends src') : f.From src' := by
  cases f with
  | data session fromOpener seq bytes => exact hs.get h
  | shutdown session fromOpener sent => rwa [hs.eof h.1]
  | _ => trivial

lemma Outbound.From.mono (h : o.From src) (hs : src.Extends src') : o.From src' := by
  cases o with
  | segment seq bytes => exact hs.get h
  | shutdown sent => rwa [hs.eof h.1]
  | datagram bytes => trivial

lemma Frame.From.item (h : f.From src) (ho : f.item? = some o) : o.From src := by
  cases f <;> cases ho <;> exact h

lemma flatten_chunksLoop {size : ℕ} (hsize : 0 < size) (turns : ℕ) (bytes : Bytes)
    (h : bytes.length ≤ turns) : (chunksLoop size turns bytes).flatten = bytes := by
  induction turns generalizing bytes with
  | zero => rw [List.length_eq_zero_iff.1 (Nat.le_zero.1 h)]; rfl
  | succ turns ih =>
    cases bytes with
    | nil => rfl
    | cons b bytes =>
      have hlength : ((b :: bytes).drop size).length ≤ turns := by
        rw [List.length_drop]
        omega
      rw [chunksLoop, List.flatten_cons, ih _ hlength, List.take_append_drop]
      intro hnil
      cases hnil

lemma flatten_chunks {size : ℕ} (hsize : 0 < size) (bytes : Bytes) :
    (chunks size bytes).flatten = bytes := flatten_chunksLoop hsize _ bytes le_rfl

namespace Endpoint

variable {T : Type*} {e e' : Endpoint T} {l : RelayLoop}

def stream (e : Endpoint T) : Bytes := e.preamble ++ e.socket.reads.flatten

def source (e : Endpoint T) : Source := ⟨chunks tcpBuf e.preamble ++ e.socket.reads, e.socket.eof⟩

lemma bytes_source (e : Endpoint T) : e.source.bytes = e.stream := by
  rw [Source.bytes, source, List.flatten_append, flatten_chunks (by decide)]
  rfl

/-! ### The laws of one end -/

/-- What an end has sent of its source. A loop that starts after a failed preamble has none of it
to go on from, and is cancelled. -/
def Sends (e : Endpoint T) : Prop :=
  match e.stage with
  | .idle | .opening _ | .dialing => e.socket.reads = [] ∧ e.socket.eof = false
  | .preamble sent rest => (e.socket.reads = [] ∧ e.socket.eof = false) ∧
      ∃ done, chunks tcpBuf e.preamble = done ++ rest ∧ sent = done.length
  | .relaying selecting l => l.localReadOpen = !e.socket.eof ∧
      (selecting = false ∧ e.cancelled = true ∨ l.sent = e.source.segments.length)
  | _ => True

def positions (items : List Outbound) : Set ℕ := {k | ∃ bytes, .segment k bytes ∈ items}

structure Fresh (e : Endpoint T) : Prop where
  taken : e.taken = []
  fault : e.fault = none
  written : e.socket.written = []
  shutdown : e.socket.shutdown = false
  released : e.socket.released = none

/-- The loop has written the segments before the first one missing, and its write half is shut
once that is all of them. -/
structure Relays (src : Source) (e : Endpoint T) (l : RelayLoop) : Prop where
  tracks : l.inbound.Tracks (positions e.taken)
  carries : l.inbound.Carries src.segments
  fin : ∀ n, l.inbound.fin = some n ↔ .shutdown n ∈ e.taken
  counted : ∀ n, l.inbound.fin = some n → src.eof = true ∧ n = src.segments.length
  next_le : l.inbound.next ≤ src.segments.length
  written : e.socket.written = (src.segments.take l.inbound.next).flatten
  gap : l.gap = l.inbound.gap
  shutdown : e.socket.shutdown = !l.localWriteOpen
  finished : l.localWriteOpen = false → l.inbound.finished = true
  released : e.socket.released = none
  fault : e.fault = none

/-- The loop is over: what was written stays a part of the peer's stream. -/
structure Over (src : Source) (e : Endpoint T) : Prop where
  written : e.socket.written <+: src.bytes
  shutdown : e.socket.shutdown = true → src.eof = true ∧ e.socket.written = src.bytes
  unrelayed : e.socket.held = true ∨ e.socket.released = some .close →
    e.socket.shutdown = true ∨ e.socket.written = []

/-- What an end has taken of its peer's source. -/
def Receives (src : Source) (e : Endpoint T) : Prop :=
  (∀ o ∈ e.queue, o.From src) ∧
    match e.stage with
    | .idle | .opening _ | .dialing | .preamble _ _ => e.Fresh
    | .relaying _ l => e.Relays src l
    | _ => e.Over src

lemma Relays.mono (h : e.Relays src l) (hs : src.Extends src') : e.Relays src' l where
  tracks := h.tracks
  carries := h.carries.mono hs.segments
  fin := h.fin
  counted n hn := by
    have := h.counted n hn
    rwa [hs.eof this.1]
  next_le := h.next_le.trans hs.segments.length_le
  written := by rw [h.written, hs.take h.next_le]
  gap := h.gap
  shutdown := h.shutdown
  finished := h.finished
  released := h.released
  fault := h.fault

lemma Over.mono (h : e.Over src) (hs : src.Extends src') : e.Over src' where
  written := h.written.trans hs.bytes
  shutdown hshut := by
    have := h.shutdown hshut
    rwa [hs.eof this.1]
  unrelayed := h.unrelayed

lemma Receives.mono (h : e.Receives src) (hs : src.Extends src') : e.Receives src' := by
  refine ⟨fun o ho => (h.1 o ho).mono hs, ?_⟩
  have hstage := h.2
  cases hst : e.stage <;> simp only [hst] at hstage ⊢ <;>
    first | exact hstage | exact hstage.mono hs

/-- A half-close was seen and everything it counted was written: the peer's stream is whole. -/
lemma Relays.complete (h : e.Relays src l) (hshut : l.localWriteOpen = false) :
    src.eof = true ∧ e.socket.written = src.bytes := by
  have hfinished := h.finished hshut
  cases hfin : l.inbound.fin with
  | none => simp [StreamReorder.finished, hfin] at hfinished
  | some n =>
    obtain ⟨heof, hn⟩ := h.counted n hfin
    simp only [StreamReorder.finished, hfin, beq_iff_eq, Option.some.injEq] at hfinished
    rw [h.written, ← hfinished, hn, List.take_length]
    exact ⟨heof, rfl⟩

/-- However the loop is left, what it wrote is a part of the peer's stream. -/
lemma Relays.leave (h : e.Relays src l) : (e.leave l).Over src := by
  have hwritten : e.socket.written <+: src.bytes := by
    rw [h.written]
    exact (List.take_prefix _ _).flatten
  by_cases hopen : (l.localReadOpen || l.localWriteOpen) = true
  · have hsocket : (e.leave l).socket =
        { e.socket with held := false, released := some .reset } := if_pos hopen
    constructor
    · rw [hsocket]
      exact hwritten
    · intro hshut
      rw [hsocket] at hshut ⊢
      simp only [h.shutdown, Bool.not_eq_true'] at hshut
      exact h.complete hshut
    · rw [hsocket]
      simp
  · have hsocket : (e.leave l).socket = e.socket := if_neg hopen
    simp only [Bool.or_eq_true, not_or, Bool.not_eq_true] at hopen
    constructor
    · rw [hsocket]
      exact hwritten
    · rw [hsocket]
      exact fun _ => h.complete hopen.2
    · rw [hsocket, h.shutdown, hopen.2]
      exact fun _ => Or.inl rfl

/-- The laws of an end after a step, whose frames tell of what it has by then. -/
structure StepLaw (src : Source) (e : Endpoint T) (next : Endpoint T × List Frame) : Prop where
  sends : next.1.Sends
  receives : next.1.Receives src
  source : e.source.Extends next.1.source
  frames : ∀ f ∈ next.2, f.From next.1.source

/-- A step of an end that touches neither its socket nor its source. -/
lemma StepLaw.quiet {fs : List Frame} (hs : e'.Sends) (hr : e'.Receives src)
    (hsource : e'.source = e.source) (hf : ∀ f ∈ fs, f.From e.source) :
    StepLaw src e (e', fs) :=
  ⟨hs, hr, by simp only [hsource]; exact .refl _, fun f hm => hsource ▸ hf f hm⟩

lemma StepLaw.refl (hs : e.Sends) (hr : e.Receives src) : StepLaw src e (e, []) :=
  .quiet hs hr rfl (by simp)

lemma source_leave (e : Endpoint T) (l : RelayLoop) : (e.leave l).source = e.source := by
  unfold leave source
  split <;> rfl

lemma StepLaw.of_source {next : Endpoint T × List Frame} (h : StepLaw src e' next)
    (hsource : e'.source = e.source) : StepLaw src e next :=
  ⟨h.sends, h.receives, hsource ▸ h.source, h.frames⟩

lemma StepLaw.leave (hq : ∀ o ∈ e.queue, o.From src) (h : e.Relays src l) :
    StepLaw src e (e.leave l, []) :=
  .quiet trivial ⟨hq, h.leave⟩ (source_leave e l) (by simp)

lemma StepLaw.abandon (hq : ∀ o ∈ e.queue, o.From src) (h : e.Relays src l) :
    StepLaw src e (e.abandon l, []) := by
  have hcancelled : Relays src { e with cancelled := true } l := { h with }
  exact (StepLaw.leave (by exact hq) hcancelled).of_source rfl

lemma Fresh.congr (h : e.Fresh) (hsocket : e'.socket = e.socket) (htaken : e'.taken = e.taken)
    (hfault : e'.fault = e.fault) : e'.Fresh := by
  obtain ⟨h1, h2, h3, h4, h5⟩ := h
  constructor <;> simp only [*]

lemma Relays.congr (h : e.Relays src l) (hsocket : e'.socket = e.socket)
    (htaken : e'.taken = e.taken) (hfault : e'.fault = e.fault) : e'.Relays src l where
  tracks := htaken ▸ h.tracks
  carries := h.carries
  fin n := htaken ▸ h.fin n
  counted := h.counted
  next_le := h.next_le
  written := hsocket ▸ h.written
  gap := h.gap
  shutdown := hsocket ▸ h.shutdown
  finished := h.finished
  released := hsocket ▸ h.released
  fault := hfault ▸ h.fault

lemma Over.congr (h : e.Over src) (hsocket : e'.socket = e.socket) : e'.Over src where
  written := hsocket ▸ h.written
  shutdown := hsocket ▸ h.shutdown
  unrelayed := hsocket ▸ h.unrelayed

lemma Receives.congr (h : e.Receives src) (hq : ∀ o ∈ e'.queue, o.From src)
    (hstage : e'.stage = e.stage) (hsocket : e'.socket = e.socket) (htaken : e'.taken = e.taken)
    (hfault : e'.fault = e.fault) : e'.Receives src := by
  refine ⟨hq, ?_⟩
  have hlaw := h.2
  rw [hstage]
  cases hst : e.stage <;> simp only [hst] at hlaw ⊢ <;>
    first | exact hlaw.congr hsocket htaken hfault | exact hlaw.congr hsocket

/-- A loop that starts has nothing written and nothing taken. -/
lemma Fresh.relays (h : e.Fresh) (sent : ℕ) : e.Relays src (startLoop sent) where
  tracks := by
    have hnone : positions e.taken = ∅ := by simp [positions, h.taken]
    rw [hnone]
    exact StreamReorder.tracks_new
  carries := StreamReorder.carries_new
  fin n := by simp [startLoop, StreamReorder.new, h.taken]
  counted n hn := by simp [startLoop, StreamReorder.new] at hn
  next_le := Nat.zero_le _
  written := by simp [startLoop, StreamReorder.new, h.written]
  gap := rfl
  shutdown := h.shutdown
  finished hopen := by simp [startLoop] at hopen
  released := h.released
  fault := h.fault

/-- A task that never relayed holds a stream nothing was written to. -/
lemma Fresh.over (h : e.Fresh) : e.Over src where
  written := by simp [h.written]
  shutdown hshut := by simp [h.shutdown] at hshut
  unrelayed _ := Or.inr h.written

/-! ### Preamble and reads -/

lemma sendPreamble_law (hs : e.Sends) (hr : e.Receives src) (ok : Bool) :
    StepLaw src e (e.sendPreamble ok) := by
  have hq := hr.1
  have hfresh := hr.2
  unfold sendPreamble
  split
  · rename_i sent hstage
    simp only [Sends, hstage] at hs hfresh
    obtain ⟨⟨hreads, heof⟩, done, hdone, rfl⟩ := hs
    refine .quiet ⟨by simp [startLoop, heof], Or.inr ?_⟩ ⟨hq, ?_⟩ rfl (by simp)
    · simp only [source, hdone, hreads, startLoop, List.append_nil]
    · exact (hfresh.relays _).congr rfl rfl rfl
  · rename_i sent chunk rest hstage
    simp only [Sends, hstage] at hs hfresh
    obtain ⟨⟨hreads, heof⟩, done, hdone, rfl⟩ := hs
    have hframe : ∀ f ∈ [Frame.data e.key.session e.openedByUs done.length chunk],
        f.From e.source := by
      simp [Frame.From, source, hdone]
    cases ok with
    | true =>
      refine .quiet ⟨⟨hreads, heof⟩, done ++ [chunk], ?_, by simp⟩ ⟨hq, ?_⟩ rfl hframe
      · rw [List.append_assoc]
        exact hdone
      · exact hfresh.congr rfl rfl rfl
    | false =>
      refine .quiet ⟨by simp [startLoop, heof], Or.inl ⟨rfl, rfl⟩⟩ ⟨hq, ?_⟩ rfl hframe
      exact (hfresh.relays _).congr rfl rfl rfl
  · exact .refl hs hr

lemma localRead_law (hstage : e.stage = .relaying true l) (hs : e.Sends) (hr : e.Receives src)
    (hopen : l.localReadOpen = true) (ok : Bool) (read : Option Bytes) :
    StepLaw src e (e.localRead l ok read) := by
  obtain ⟨hq, h⟩ := hr
  simp only [Sends, hstage, reduceCtorEq, false_and, false_or] at hs h
  obtain ⟨heof, hsent⟩ := hs
  rw [hopen, eq_comm, Bool.not_eq_true'] at heof
  match read with
  | none => exact .abandon hq h
  | some [] =>
    have hsource : e.source.Extends ⟨e.source.segments, true⟩ :=
      ⟨List.prefix_rfl, fun h => by simp [source, heof] at h⟩
    refine ⟨⟨rfl, Or.inr hsent⟩, ⟨hq, ?_⟩, hsource, ?_⟩
    · exact { h with }
    · intro f hf
      rw [List.mem_singleton.1 hf]
      exact ⟨rfl, hsent⟩
  | some (b :: bytes) =>
    have hsource : e.source.Extends
        ⟨chunks tcpBuf e.preamble ++ (e.socket.reads ++ [b :: bytes]), e.socket.eof⟩ := by
      refine ⟨?_, fun h => by simp [source, heof] at h⟩
      simp only [source, ← List.append_assoc]
      exact List.prefix_append _ _
    have hframe : ∀ f ∈ [Frame.data e.key.session e.openedByUs l.sent (b :: bytes)], f.From
        ⟨chunks tcpBuf e.preamble ++ (e.socket.reads ++ [b :: bytes]), e.socket.eof⟩ := by
      simp [Frame.From, hsent, source, ← List.append_assoc]
    cases ok with
    | true =>
      refine ⟨⟨?_, Or.inr ?_⟩, ⟨hq, ?_⟩, hsource, hframe⟩
      · change l.localReadOpen = !e.socket.eof
        rw [hopen, heof, Bool.not_false]
      · change l.sent + 1 = (chunks tcpBuf e.preamble ++ (e.socket.reads ++ [b :: bytes])).length
        rw [hsent, source, ← List.append_assoc, List.length_append, List.length_append,
          List.length_append, List.length_singleton]
      · exact { h with }
    | false =>
      have hread : Relays src { e with socket := { e.socket with
          reads := e.socket.reads ++ [b :: bytes] } } l := { h with }
      have hlaw := StepLaw.abandon (by exact hq) hread
      refine ⟨hlaw.sends, hlaw.receives, ?_, ?_⟩
      · exact (source_leave _ l).symm ▸ hsource
      · exact (source_leave _ l).symm ▸ hframe

/-! ### The peer's segments -/

lemma positions_append (items : List Outbound) (o : Outbound) :
    positions (items ++ [o]) = positions items ∪ positions [o] := by
  ext k
  simp only [positions, Set.mem_ofPred_eq, Set.mem_union, List.mem_append, exists_or]

lemma positions_segment (seq : ℕ) (bytes : Bytes) :
    positions [.segment seq bytes] = {seq} := by
  ext k
  simp [positions]

lemma positions_shutdown (sent : ℕ) : positions [.shutdown sent] = ∅ := by
  ext k
  simp [positions]

/-- A loop left before its write half was shut resets the socket. -/
lemma over_reset (hopen : l.localWriteOpen = true) (hwritten : e.socket.written <+: src.bytes)
    (hshut : e.socket.shutdown = false) : (e.leave l).Over src := by
  have hsocket : (e.leave l).socket =
      { e.socket with held := false, released := some .reset } := if_pos (by simp [hopen])
  constructor
  · rw [hsocket]
    exact hwritten
  · rw [hsocket]
    simp [hshut]
  · rw [hsocket]
    simp

lemma StepLaw.leaveOpen (hq : ∀ o ∈ e.queue, o.From src) (hopen : l.localWriteOpen = true)
    (hwritten : e.socket.written <+: src.bytes) (hshut : e.socket.shutdown = false) :
    StepLaw src e (e.leave l, []) :=
  .quiet trivial ⟨hq, over_reset hopen hwritten hshut⟩ (source_leave e l) (by simp)

/-- An arrival that is accepted: the items taken with it, and what it makes writable. -/
structure Arrived (src : Source) (taken : List Outbound) (l : RelayLoop)
    (inbound : StreamReorder Bytes) (ready : Ready Bytes) : Prop where
  tracks : inbound.Tracks (positions taken)
  carries : inbound.Carries src.segments
  fin : ∀ n, inbound.fin = some n ↔ .shutdown n ∈ taken
  counted : ∀ n, inbound.fin = some n → src.eof = true ∧ n = src.segments.length
  next_le : inbound.next ≤ src.segments.length
  take : src.segments.take inbound.next = src.segments.take l.inbound.next ++ ready.segments
  finished : ready.finished = inbound.finished

/-- Writing what became writable keeps the laws, however much of it is written. -/
lemma writeReady_law {inbound : StreamReorder Bytes} {ready : Ready Bytes}
    (hq : ∀ o ∈ e.queue, o.From src)
    (hsends : l.localReadOpen = (!e.socket.eof) ∧ l.sent = e.source.segments.length)
    (hopen : l.localWriteOpen = true)
    (hwritten : e.socket.written = (src.segments.take l.inbound.next).flatten)
    (hshut : e.socket.shutdown = false) (hreleased : e.socket.released = none)
    (hfault : e.fault = none) (h : Arrived src e.taken l inbound ready) (failsAfter : Option ℕ) :
    StepLaw src e (e.writeReady l inbound ready failsAfter, []) := by
  have hall : e.socket.written ++ ready.segments.flatten =
      (src.segments.take inbound.next).flatten := by
    rw [h.take, List.flatten_append, hwritten]
  cases failsAfter with
  | none =>
    refine .quiet ⟨hsends.1, Or.inr hsends.2⟩ ⟨hq, ?_⟩ rfl (by simp)
    simp only [writeReady, hall, hshut, h.finished, hopen, Bool.false_or, Bool.true_and]
    exact {
      tracks := h.tracks
      carries := h.carries
      fin := h.fin
      counted := h.counted
      next_le := h.next_le
      written := rfl
      gap := rfl
      shutdown := (Bool.not_not _).symm
      finished := fun hshut => by simpa using hshut
      released := hreleased
      fault := hfault }
  | some failsAfter =>
    have hprefix : e.socket.written ++ ready.segments.flatten.take failsAfter <+: src.bytes :=
      calc e.socket.written ++ ready.segments.flatten.take failsAfter
          <+: e.socket.written ++ ready.segments.flatten :=
            (List.prefix_append_right_inj _).2 (List.take_prefix _ _)
        _ = (src.segments.take inbound.next).flatten := hall
        _ <+: src.bytes := (List.take_prefix _ _).flatten
    refine .quiet trivial ⟨hq, ?_⟩ (source_leave _ l) (by simp)
    exact over_reset hopen hprefix hshut

/-- An arrival is taken, or resets the session. -/
lemma arrival_law {items : List Outbound} (hq : ∀ o ∈ e.queue, o.From src)
    (hsends : l.localReadOpen = (!e.socket.eof) ∧ l.sent = e.source.segments.length)
    (hopen : l.localWriteOpen = true) (h : Relays src { e with taken := items } l)
    {arrived : Except StreamFault (StreamReorder Bytes × Ready Bytes)}
    (harrived : ∀ inbound ready, arrived = .ok (inbound, ready) →
      Arrived src e.taken l inbound ready) (failsAfter : Option ℕ) :
    StepLaw src e (e.arrival l failsAfter arrived, []) := by
  have hshut : e.socket.shutdown = false := by
    have := h.shutdown
    rwa [hopen] at this
  cases arrived with
  | error fault =>
    have hprefix : e.socket.written <+: src.bytes := by
      rw [show e.socket.written = _ from h.written]
      exact (List.take_prefix _ _).flatten
    refine .quiet trivial ⟨hq, ?_⟩ (source_leave _ l) (by simp)
    exact over_reset hopen hprefix hshut
  | ok next =>
    exact writeReady_law hq hsends hopen h.written hshut h.released h.fault
      (harrived next.1 next.2 rfl) failsAfter

lemma recv_law (hstage : e.stage = .relaying true l) (hs : e.Sends) (hr : e.Receives src)
    (hopen : l.localWriteOpen = true) (failsAfter : Option ℕ) :
    StepLaw src e (e.recv l failsAfter, []) := by
  have hsends := hs
  have h := hr.2
  simp only [Sends, hstage, reduceCtorEq, false_and, false_or] at hsends h
  unfold recv
  cases hqueue : e.queue with
  | nil =>
    simp only
    split
    · exact .leave hr.1 h
    · exact .refl hs hr
  | cons item queue =>
    have hitem : item.From src := hr.1 item (by simp [hqueue])
    have hq : ∀ o ∈ queue, o.From src := fun o ho => hr.1 o (by simp [hqueue, ho])
    have hsource : source { e with queue := queue, taken := e.taken ++ [item] } = e.source := rfl
    refine .of_source ?_ hsource
    cases item with
    | datagram bytes =>
      have hprefix : e.socket.written <+: src.bytes := by
        rw [h.written]
        exact (List.take_prefix _ _).flatten
      exact .leaveOpen hq hopen hprefix (by rw [h.shutdown, hopen]; rfl)
    | segment seq bytes =>
      change StepLaw src _ (arrival _ l failsAfter (l.inbound.data seq bytes), [])
      refine arrival_law (by exact hq) (by exact hsends) hopen (by exact { h with }) ?_ failsAfter
      intro inbound ready hdata
      obtain ⟨-, htracks, hfin, hfinished, hwrite⟩ := StreamReorder.data_spec h.tracks hdata
      obtain ⟨hcarries, hle, htake⟩ := hwrite _ h.carries hitem
      constructor
      case tracks => rwa [positions_append, positions_segment, Set.union_singleton]
      case carries => exact hcarries
      case fin => simpa [hfin] using h.fin
      case counted => simpa only [hfin] using h.counted
      case next_le => exact hle h.next_le
      case take => exact htake
      case finished => exact hfinished
    | shutdown sent =>
      change StepLaw src _ (arrival _ l failsAfter (l.inbound.acceptFin sent), [])
      refine arrival_law (by exact hq) (by exact hsends) hopen (by exact { h with }) ?_ failsAfter
      intro inbound ready hfin
      obtain ⟨hnone, htracks, hsome, hfinished, hwrite⟩ :=
        StreamReorder.acceptFin_spec h.tracks hfin
      obtain ⟨hcarries, hle, htake⟩ := hwrite _ h.carries
      have hfirst : ∀ n, .shutdown n ∉ e.taken := fun n hn => by
        rw [← h.fin, hnone] at hn
        cases hn
      constructor
      case tracks => rwa [positions_append, positions_shutdown, Set.union_empty]
      case carries => exact hcarries
      case fin => simp [hsome, hfirst, eq_comm]
      case counted =>
        rintro n hn
        rw [hsome, Option.some.injEq] at hn
        exact hn ▸ hitem
      case next_le => exact hle h.next_le
      case take => exact htake
      case finished => exact hfinished

/-! ### A turn of the relay -/

inductive Engine (e : Endpoint T) (f : Frame) : Endpoint T → Prop
  | same : Engine e f e
  | delivered (o : Outbound) (ho : f.item? = some o) : Engine e f (e.deliver o).1
  | connected (session : ℕ) (service : String) (hf : f = .open_ session service)
      (hkey : e.key.initiator = .remote) : Engine e f e.connect.1
  | closed : Engine e f e.closeForEffect

/-- The feedback of an effect: the session is forgotten. -/
def IsFeedback (c : RelayCommand T) : Prop :=
  (∃ peer session initiator, c = .untrack peer session initiator) ∨
    ∃ peer session initiator, c = .abort peer session initiator

def IsClose (f : Frame) : Prop := ∃ session fromOpener, f = .close session fromOpener

lemma opens_of_closes {fs : List Frame} (h : ∀ f ∈ fs, IsClose f) :
    (fs.map Frame.opens).sum = 0 := by
  refine List.sum_eq_zero fun n hn => ?_
  obtain ⟨f, hf, rfl⟩ := List.mem_map.1 hn
  obtain ⟨session, fromOpener, rfl⟩ := h f hf
  rfl

lemma IsClose.from (h : IsClose f) : f.From src := by
  obtain ⟨session, fromOpener, rfl⟩ := h
  trivial

lemma turn_cons (budget : ℕ) (event : RelayEvent T) (events : List (RelayEvent T))
    (e : Endpoint T) :
    turn (budget + 1) (event :: events) e =
      let next := step e.key.namespace_ e.state event
      let ran := runEffects { e with state := next.1 } next.2
      let rest := turn budget (events ++ ran.1.2.map .command) ran.1.1
      (rest.1, ran.2 ++ rest.2) := rfl

/-- Feedback at most tells the peer that the session is over. -/
lemma effects_of_feedback {c : RelayCommand T} (hc : IsFeedback c) (ns : String)
    (s : RelayState T) : (stepCommand ns s c).2 = [] ∨
      ∃ peer session fromOpener, (stepCommand ns s c).2 = [.sendClose peer session fromOpener] := by
  rcases hc with ⟨peer, session, initiator, rfl⟩ | ⟨peer, session, initiator, rfl⟩
  · exact Or.inl rfl
  · simp only [stepCommand]
    split
    · exact Or.inr ⟨_, _, _, rfl⟩
    · exact Or.inl rfl

/-- A turn of feedback alone changes only the relay's state. -/
lemma turn_feedback (budget : ℕ) (commands : List (RelayCommand T))
    (hc : ∀ c ∈ commands, IsFeedback c) (e : Endpoint T) :
    (∃ s, (turn budget (commands.map .command) e).1 = { e with state := s }) ∧
      ∀ f ∈ (turn budget (commands.map .command) e).2, IsClose f := by
  induction budget generalizing commands e with
  | zero => exact ⟨⟨e.state, rfl⟩, by simp [turn]⟩
  | succ budget ih =>
    cases commands with
    | nil => exact ⟨⟨e.state, rfl⟩, by simp [turn]⟩
    | cons c commands =>
      have hrest := ih commands (fun d hd => hc d (List.mem_cons_of_mem _ hd))
      rw [List.map_cons, turn_cons]
      simp only [step]
      rcases effects_of_feedback (hc c List.mem_cons_self) e.key.namespace_ e.state with
        heffects | ⟨peer, session, fromOpener, heffects⟩
      · obtain ⟨⟨s, hs⟩, hf⟩ := hrest { e with state :=
          (stepCommand e.key.namespace_ e.state c).1 }
        simp only [heffects, runEffects, List.map_nil, List.append_nil, List.nil_append]
        exact ⟨⟨s, hs⟩, hf⟩
      · obtain ⟨⟨s, hs⟩, hf⟩ := hrest { e with state :=
          (stepCommand e.key.namespace_ e.state c).1 }
        simp only [heffects, runEffects, runEffect, List.map_nil, List.append_nil]
        refine ⟨⟨s, hs⟩, fun f hm => ?_⟩
        rcases List.mem_append.1 hm with hm | hm
        · exact ⟨_, _, List.mem_singleton.1 hm⟩
        · exact hf f hm

lemma deliver_feedback (e : Endpoint T) (o : Outbound) :
    ∀ c ∈ (e.deliver o).2, IsFeedback c := by
  unfold deliver
  split
  · simp [untrackFeedback, IsFeedback]
  · split
    · simp
    · simp [abortFeedback, IsFeedback]

lemma connect_feedback (e : Endpoint T) : ∀ c ∈ e.connect.2, IsFeedback c := by
  unfold connect
  split
  · simp
  · split
    · simp [abortFeedback, IsFeedback]
    · simp

/-- An effect a frame may have: what it does here, what it feeds back and what it sends. -/
structure Effects (e : Endpoint T) (f : Frame) (effect : RelayEffect T) : Prop where
  engine : Engine e f (e.runEffect effect).1.1
  feedback : ∀ c ∈ (e.runEffect effect).1.2, IsFeedback c
  frames : ∀ g ∈ (e.runEffect effect).2, IsClose g

lemma effects_sendClose (e : Endpoint T) (f : Frame) (peer : Did) (session : ℕ)
    (fromOpener : Bool) : Effects e f (.sendClose peer session fromOpener) :=
  ⟨.same, by simp [runEffect], fun _ hg => ⟨_, _, List.mem_singleton.1 hg⟩⟩

lemma effects_deliver (e : Endpoint T) {f : Frame} {o : Outbound} (ho : f.item? = some o)
    {effect : RelayEffect T} {key : SessionKey}
    (heffect : e.runEffect effect = (if key = e.key then e.deliver o else (e, []), [])) :
    Effects e f effect := by
  by_cases hkey : key = e.key
  · rw [if_pos hkey] at heffect
    refine ⟨?_, ?_, ?_⟩ <;> rw [heffect]
    · exact .delivered o ho
    · exact e.deliver_feedback o
    · simp
  · rw [if_neg hkey] at heffect
    refine ⟨?_, ?_, ?_⟩ <;> rw [heffect]
    · exact .same
    · simp
    · simp

lemma effects_toLiveSession (e : Endpoint T) {f : Frame} {o : Outbound} (ho : f.item? = some o)
    (s : RelayState T) (carrier : TransportKind) (key : SessionKey)
    (effect : SessionKey → RelayEffect T)
    (heffect : e.runEffect (effect key) = (if key = e.key then e.deliver o else (e, []), [])) :
    ∀ x ∈ (toLiveSession s .tcp carrier key effect).2, Effects e f x := by
  unfold toLiveSession
  split
  · intro x hx
    rw [List.mem_singleton.1 hx]
    exact effects_deliver e ho heffect
  · simp

/-- The effects of a frame on this session, of which there is at most one. -/
lemma effects_stepFrame (ns : String) (s : RelayState T) (sender : Did) (f : Frame)
    (e : Endpoint T) : (stepFrame .tcp ns s sender f).2.length ≤ 1 ∧
      ∀ effect ∈ (stepFrame .tcp ns s sender f).2, Effects e f effect := by
  constructor
  · cases f <;> simp only [stepFrame, toLiveSession, rejectedOpen] <;> (repeat' split) <;> simp
  cases f with
  | data session fromOpener seq bytes => exact effects_toLiveSession e rfl s _ _ _ rfl
  | shutdown session fromOpener sent => exact effects_toLiveSession e rfl s _ _ _ rfl
  | datagram session fromOpener bytes => exact effects_toLiveSession e rfl s _ _ _ rfl
  | close session fromOpener =>
    simp only [stepFrame]
    split
    · intro effect heffect
      rw [List.mem_singleton.1 heffect]
      refine ⟨?_, by simp [runEffect], by simp [runEffect]⟩
      simp only [runEffect]
      split
      · exact .closed
      · exact .same
    · simp
  | open_ session service =>
    have hreject : ∀ (s : RelayState T) (key : SessionKey), ∀ effect ∈ (rejectedOpen s key).2,
        Effects e (.open_ session service) effect := by
      intro s key effect heffect
      rw [List.mem_singleton.1 heffect]
      exact effects_sendClose e _ _ _ _
    simp only [stepFrame]
    split
    · simp
    split
    · exact hreject _ _
    split
    · exact hreject _ _
    split
    · exact hreject _ _
    · intro effect heffect
      rw [List.mem_singleton.1 heffect]
      refine ⟨?_, ?_, by simp [runEffect]⟩ <;> simp only [runEffect] <;> split
      · rename_i hkey
        exact .connected session service rfl (by rw [← hkey])
      · exact .same
      · exact e.connect_feedback
      · simp

/-- A frame acts on the session's entry or not, and the rest of its turn only forgets it. -/
lemma receive_spec (e : Endpoint T) (f : Frame) :
    ∃ (e' : Endpoint T) (s s' : RelayState T), Engine { e with state := s } f e' ∧
      (e.receive f).1 = { e' with state := s' } ∧ ∀ g ∈ (e.receive f).2, IsClose g := by
  unfold receive maxFixpointSteps
  rw [turn_cons]
  simp only [step, List.nil_append]
  obtain ⟨hlength, heffects⟩ := effects_stepFrame e.key.namespace_ e.state e.key.peer f
    { e with state := (stepFrame .tcp e.key.namespace_ e.state e.key.peer f).1 }
  match hlist : (stepFrame .tcp e.key.namespace_ e.state e.key.peer f).2, hlength with
  | [], _ =>
    obtain ⟨⟨s, hs⟩, hf⟩ := turn_feedback 1023 [] (by simp)
      { e with state := (stepFrame .tcp e.key.namespace_ e.state e.key.peer f).1 }
    simp only [runEffects, List.nil_append]
    exact ⟨_, _, s, .same, hs, hf⟩
  | [effect], _ =>
    rw [hlist] at heffects
    obtain ⟨hengine, hfeedback, hframes⟩ := heffects effect List.mem_cons_self
    obtain ⟨⟨s, hs⟩, hf⟩ := turn_feedback 1023 _ hfeedback
      (runEffect { e with state := (stepFrame .tcp e.key.namespace_ e.state e.key.peer f).1 }
        effect).1.1
    simp only [runEffects, List.append_nil]
    refine ⟨_, _, s, hengine, hs, fun g hg => ?_⟩
    rcases List.mem_append.1 hg with hg | hg
    · exact hframes g hg
    · exact hf g hg

lemma Sends.cancel (h : e.Sends) (handle : Option ℕ) :
    Sends { e with handle := handle, cancelled := true } := by
  unfold Sends at h ⊢
  cases hstage : e.stage with
  | relaying selecting l =>
    simp only [hstage] at h ⊢
    exact ⟨h.1, h.2.imp_left fun hc => ⟨hc.1, trivial⟩⟩
  | _ => first | simp only; done | simpa only [hstage] using h

/-- A session claims its one `Open` until the peer's end has it. -/
def claims (e : Endpoint T) : ℕ :=
  match e.key.initiator, e.stage with
  | .local_, .opening false => 1
  | .local_, _ => 0
  | .remote, .idle => 0
  | .remote, .opening false => 2
  | .remote, _ => 1

lemma closeForEffect_law (hs : e.Sends) (hr : e.Receives src) : e.closeForEffect.Sends ∧
    e.closeForEffect.Receives src ∧ e.closeForEffect.source = e.source := by
  unfold closeForEffect
  split
  · exact ⟨hs, hr, rfl⟩
  · exact ⟨hs.cancel none, hr.congr hr.1 rfl rfl rfl rfl, rfl⟩

lemma engine_law {f : Frame} (h : Engine e f e') (hs : e.Sends) (hr : e.Receives src)
    (hf : f.From src) (hopen : ∀ session service, f = .open_ session service →
      e.key.initiator = .remote → e.stage = .idle) :
    e'.Sends ∧ e'.Receives src ∧ e'.source = e.source := by
  cases h with
  | same => exact ⟨hs, hr, rfl⟩
  | closed =>
    exact closeForEffect_law hs hr
  | delivered o ho =>
    unfold deliver
    split
    · exact ⟨hs, hr, rfl⟩
    split
    · refine ⟨hs, hr.congr (fun x hx => ?_) rfl rfl rfl rfl, rfl⟩
      rcases List.mem_append.1 hx with hx | hx
      · exact hr.1 x hx
      · rw [List.mem_singleton.1 hx]
        exact hf.item ho
    · exact closeForEffect_law hs hr
  | connected session service hopened hkey =>
    have hidle := hopen session service hopened hkey
    unfold connect register
    split
    · exact ⟨hs, hr, rfl⟩
    · split
      · exact ⟨hs, hr, rfl⟩
      · rename_i e' hregister
        split at hregister
        · cases hregister
          have hfresh := hr.2
          simp only [Sends, hidle] at hs hfresh
          exact ⟨hs, ⟨by simp, hfresh.congr rfl rfl rfl⟩, rfl⟩
        · cases hregister

lemma endTask_law (hq : ∀ o ∈ e.queue, o.From src) (h : e.Over src) {fs : List Frame}
    (hf : ∀ f ∈ fs, f.From e.source) : StepLaw src e (e.endTask, fs) := by
  have hsource : e.endTask.source = e.source := by
    unfold endTask source
    split <;> rfl
  refine .quiet trivial ⟨hq, ?_⟩ hsource hf
  by_cases hheld : e.socket.held = true
  · have hsocket : e.endTask.socket =
        { e.socket with held := false, released := some .close } := if_pos hheld
    constructor <;> rw [hsocket]
    · exact h.written
    · exact h.shutdown
    · exact fun _ => h.unrelayed (Or.inl hheld)
  · exact h.congr (if_neg hheld)

/-! ### Every step of an end -/

lemma opened_law {admitted : Bool} (hstage : e.stage = .opening admitted) (hs : e.Sends)
    (hr : e.Receives src) (ok : Bool) : StepLaw src e (e.opened ok, []) := by
  have hq := hr.1
  have hlaw := hr.2
  simp only [Sends, hstage] at hs hlaw
  have hover : e.Over src := hlaw.over
  unfold opened
  split
  · exact .quiet trivial ⟨hq, hover.congr rfl⟩ rfl (by simp)
  split
  · exact .quiet trivial ⟨hq, hover.congr rfl⟩ rfl (by simp)
  split
  · exact .quiet ⟨hs, [], rfl, rfl⟩ ⟨hq, hlaw.congr rfl rfl rfl⟩ rfl (by simp)
  · exact endTask_law hq hover (by simp)

lemma act_law (hs : e.Sends) (hr : e.Receives src) (a : Action T) :
    StepLaw src e (e.act a) := by
  have hq := hr.1
  have hlaw := hr.2
  have hsends := hs
  unfold act
  split
  · rename_i hstage
    simp only [Sends, hstage] at hsends hlaw
    exact .quiet hsends ⟨hq, hlaw.congr rfl rfl rfl⟩ rfl (by simp [Frame.From])
  · rename_i ok admitted hstage
    split
    · exact .refl hs hr
    · exact opened_law hstage hs hr ok
  · rename_i ok hstage
    simp only [Sends, hstage] at hsends hlaw
    split
    · refine .quiet ⟨hsends, [], rfl, rfl⟩ ⟨hq, ?_⟩ rfl (by simp)
      exact { hlaw with }
    · exact .quiet trivial ⟨hq, hlaw.over.congr rfl⟩ rfl (by simp)
  · exact sendPreamble_law hs hr _
  · rename_i l hstage
    simp only [Sends, hstage] at hsends hlaw
    split
    · rename_i hrun
      simp only [Bool.and_eq_true, Bool.not_eq_true'] at hrun
      simp only [hrun.1, reduceCtorEq, and_false, false_or] at hsends
      exact .quiet ⟨hsends.1, Or.inr hsends.2⟩ ⟨hq, hlaw.congr rfl rfl rfl⟩ rfl (by simp)
    · exact .leave hq hlaw
  · rename_i l hstage
    simp only [hstage] at hlaw
    split
    · exact .leave hq hlaw
    · exact .refl hs hr
  · rename_i read ok l hstage
    split
    · rename_i hdue
      exact localRead_law hstage hs hr hdue.1 ok read
    · exact .refl hs hr
  · rename_i failsAfter l hstage
    split
    · rename_i hopen
      exact recv_law hstage hs hr hopen failsAfter
    · exact .refl hs hr
  · rename_i l hstage
    simp only [hstage] at hlaw
    split
    · exact .quiet trivial ⟨hq, hlaw.leave.congr rfl⟩ (source_leave _ l) (by simp)
    · exact .refl hs hr
  · rename_i l hstage
    simp only [hstage] at hlaw
    exact .leave hq hlaw
  · rename_i hstage
    simp only [hstage] at hlaw
    unfold closeIfCurrent
    split
    · exact .quiet trivial ⟨hq, hlaw.congr rfl⟩ rfl (by simp)
    · exact endTask_law hq hlaw (by simp)
  · rename_i ok hstage
    simp only [hstage] at hlaw
    cases ok with
    | false => exact .quiet trivial ⟨hq, hlaw.congr rfl⟩ rfl (by simp)
    | true =>
      obtain ⟨⟨s, hturn⟩, hclose⟩ := turn_feedback maxFixpointSteps [e.untrackFeedback]
        (by simp [untrackFeedback, IsFeedback]) e
      simp only [List.map_cons, List.map_nil] at hturn hclose
      simp only [if_true, hturn]
      exact .quiet trivial ⟨hq, hlaw.congr rfl⟩ rfl fun f hf => (hclose f hf).from
  · rename_i hstage
    simp only [hstage] at hlaw
    exact endTask_law hq hlaw (by simp [Frame.From])
  · rename_i hstage
    simp only [hstage] at hlaw
    exact endTask_law hq hlaw (by simp [Frame.From])
  · exact .quiet (hs.cancel e.handle) (hr.congr hq rfl rfl rfl rfl) rfl (by simp)
  · split
    · exact .refl hs hr
    · exact .quiet hs (hr.congr hq rfl rfl rfl rfl) rfl (by simp)
  · exact .refl hs hr

lemma claims_le (hkey : e'.key = e.key) (he : e.stage ≠ .idle) (he' : e'.stage ≠ .opening false) :
    e'.claims ≤ e.claims := by
  unfold claims
  rw [hkey]
  cases e.key.initiator with
  | local_ =>
    split
    all_goals first | exact Nat.zero_le _ | simp_all
  | remote =>
    split <;> simp_all
    split <;> simp_all

/-- A step of a task that has its stream or is past asking for one: it opens no session. -/
structure Working (e : Endpoint T) (next : Endpoint T × List Frame) : Prop where
  key : next.1.key = e.key
  stage : next.1.stage ≠ .opening false
  frames : (next.2.map Frame.opens).sum = 0

lemma working_arrival (l : RelayLoop) (failsAfter : Option ℕ)
    (arrived : Except StreamFault (StreamReorder Bytes × Ready Bytes)) :
    Working e (e.arrival l failsAfter arrived, []) := by
  rcases arrived with fault | ⟨inbound, ready⟩
  · exact ⟨rfl, nofun, rfl⟩
  · cases failsAfter <;> exact ⟨rfl, nofun, rfl⟩

lemma working_recv (hstage : e.stage = .relaying true l) (failsAfter : Option ℕ) :
    Working e (e.recv l failsAfter, []) := by
  unfold recv
  cases e.queue with
  | nil =>
    simp only
    split
    · exact ⟨rfl, nofun, rfl⟩
    · exact ⟨rfl, by simp [hstage], rfl⟩
  | cons item queue =>
    cases item with
    | datagram bytes => exact ⟨rfl, nofun, rfl⟩
    | segment seq bytes =>
      have h := @working_arrival T { e with
        queue := queue, taken := e.taken ++ [.segment seq bytes] } l failsAfter
        (l.inbound.data seq bytes)
      exact ⟨h.key, h.stage, rfl⟩
    | shutdown sent =>
      have h := @working_arrival T { e with
        queue := queue, taken := e.taken ++ [.shutdown sent] } l failsAfter
        (l.inbound.acceptFin sent)
      exact ⟨h.key, h.stage, rfl⟩

lemma working_localRead (l : RelayLoop) (ok : Bool) (read : Option Bytes) :
    Working e (e.localRead l ok read) := by
  match read with
  | none => exact ⟨rfl, nofun, rfl⟩
  | some [] => exact ⟨rfl, nofun, rfl⟩
  | some (b :: bytes) => cases ok <;> exact ⟨rfl, nofun, rfl⟩

/-- Whoever sends `Open` spends its claim on it. -/
lemma claims_act (e : Endpoint T) (a : Action T) :
    ((e.act a).2.map Frame.opens).sum + (e.act a).1.claims ≤ e.claims := by
  have hworking : ∀ {next}, e.stage ≠ .idle → Working e next →
      (next.2.map Frame.opens).sum + next.1.claims ≤ e.claims := fun hidle h => by
    rw [h.frames, Nat.zero_add]
    exact claims_le h.key hidle h.stage
  unfold act
  split
  · rename_i hstage
    simp only [claims, hstage, List.map_cons, List.map_nil, List.sum_singleton, Frame.opens]
    cases e.key.initiator <;> simp
  · rename_i ok admitted hstage
    split
    · simp
    · refine hworking (by simp [hstage]) ?_
      unfold opened
      split
      · exact ⟨rfl, nofun, rfl⟩
      split
      · exact ⟨rfl, nofun, rfl⟩
      split <;> exact ⟨rfl, nofun, rfl⟩
  · rename_i ok hstage
    refine hworking (by simp [hstage]) ?_
    split <;> exact ⟨rfl, nofun, rfl⟩
  · unfold sendPreamble
    split
    · rename_i hstage
      exact hworking (by simp [hstage]) ⟨rfl, nofun, rfl⟩
    · rename_i hstage
      refine hworking (by simp [hstage]) ?_
      split <;> exact ⟨rfl, nofun, rfl⟩
    · simp
  · rename_i l hstage
    refine hworking (by simp [hstage]) ?_
    split <;> exact ⟨rfl, nofun, rfl⟩
  · rename_i l hstage
    refine hworking (by simp [hstage]) ?_
    split
    · exact ⟨rfl, nofun, rfl⟩
    · exact ⟨rfl, by simp [hstage], rfl⟩
  · rename_i read ok l hstage
    split
    · exact hworking (by simp [hstage]) (working_localRead l ok read)
    · simp
  · rename_i failsAfter l hstage
    split
    · exact hworking (by simp [hstage]) (working_recv hstage failsAfter)
    · simp
  · rename_i l hstage
    refine hworking (by simp [hstage]) ?_
    split
    · exact ⟨rfl, nofun, rfl⟩
    · exact ⟨rfl, by simp [hstage], rfl⟩
  · rename_i l hstage
    exact hworking (by simp [hstage]) ⟨rfl, nofun, rfl⟩
  · rename_i hstage
    refine hworking (by simp [hstage]) ?_
    unfold closeIfCurrent
    split <;> exact ⟨rfl, nofun, rfl⟩
  · rename_i ok hstage
    refine hworking (by simp [hstage]) ?_
    cases ok with
    | false => exact ⟨rfl, nofun, rfl⟩
    | true =>
      obtain ⟨⟨s, hturn⟩, hclose⟩ := turn_feedback maxFixpointSteps [e.untrackFeedback]
        (by simp [untrackFeedback, IsFeedback]) e
      simp only [List.map_cons, List.map_nil] at hturn hclose
      simp only [if_true, hturn]
      exact ⟨rfl, nofun, opens_of_closes hclose⟩
  · rename_i hstage
    exact hworking (by simp [hstage]) ⟨rfl, nofun, rfl⟩
  · rename_i hstage
    exact hworking (by simp [hstage]) ⟨rfl, nofun, rfl⟩
  · simp [claims]
  · split <;> simp [claims]
  · simp

/-- A frame that opens a session becomes the claim of the end it reaches. -/
lemma claims_receive (e : Endpoint T) (f : Frame) :
    ((e.receive f).2.map Frame.opens).sum + (e.receive f).1.claims ≤ e.claims + f.opens := by
  obtain ⟨e', s, s', hengine, he', hclose⟩ := receive_spec e f
  have hclaims : (e.receive f).1.claims = e'.claims := by
    rw [he']
    rfl
  rw [opens_of_closes hclose, Nat.zero_add, hclaims]
  have hclosed : (closeForEffect { e with state := s }).claims = e.claims := by
    unfold closeForEffect
    split <;> rfl
  cases hengine with
  | same => exact Nat.le_add_right _ _
  | closed => exact hclosed.le.trans (Nat.le_add_right _ _)
  | delivered o ho =>
    refine le_trans (le_of_eq ?_) (Nat.le_add_right _ _)
    unfold deliver
    split
    · rfl
    · split
      · rfl
      · exact hclosed
  | connected session service hf hkey =>
    subst hf
    simp only [Frame.opens]
    unfold connect register
    split
    · exact Nat.le_add_right _ _
    · split
      · exact Nat.le_add_right _ _
      · rename_i e' hregister
        split at hregister
        · cases hregister
          simp only [claims, show e.key.initiator = .remote from hkey]
          omega
        · cases hregister

lemma idle_of_claims (hkey : e.key.initiator = .remote) (h : e.claims = 0) : e.stage = .idle := by
  unfold claims at h
  rw [hkey] at h
  split at h <;> simp_all

/-- A frame of the peer keeps the laws of the end it reaches. -/
lemma receive_law {f : Frame} (hs : e.Sends) (hr : e.Receives src) (hf : f.From src)
    (hopen : ∀ session service, f = .open_ session service → e.key.initiator = .remote →
      e.stage = .idle) : StepLaw src e (e.receive f) := by
  obtain ⟨e', s, s', hengine, he', hclose⟩ := receive_spec e f
  have hr' : Receives src { e with state := s } := hr.congr hr.1 rfl rfl rfl rfl
  obtain ⟨hsends, hreceives, hsource⟩ := engine_law hengine hs hr' hf hopen
  have hnext : e.receive f = ({ e' with state := s' }, (e.receive f).2) := by
    rw [← he']
  rw [hnext]
  exact .quiet hsends (hreceives.congr hreceives.1 rfl rfl rfl rfl) hsource
    fun g hg => (hclose g hg).from

end Endpoint

namespace World

variable {T : Type*} {w : World T}

/-- The claims of the two ends, and the `Open` on its way. -/
def opens (w : World T) : ℕ :=
  (w.network.map fun x => x.2.opens).sum + ((w.ends .opener).claims + (w.ends .acceptor).claims)

/-- The laws of the session: each end's, and those of the frames on their way. -/
structure Sound (w : World T) : Prop where
  sends : ∀ side, (w.ends side).Sends
  receives : ∀ side, (w.ends side).Receives (w.ends side.other).source
  frames : ∀ side f, (side, f) ∈ w.network → f.From (w.ends side.other).source
  opens : w.opens ≤ 1

lemma sum_opens_update (w : World T) (side : Side) (next : Endpoint T × List Frame) :
    (w.update side next).opens + (w.ends side).claims =
      w.opens + (next.2.map Frame.opens).sum + next.1.claims := by
  have hnetwork : ((w.update side next).network.map fun x => x.2.opens).sum =
      (w.network.map fun x => x.2.opens).sum + (next.2.map Frame.opens).sum := by
    simp only [update, List.map_append, List.sum_append, List.map_map]
    rfl
  rw [opens, hnetwork, opens]
  cases side
  · simp only [update, Function.update_self, ne_eq, reduceCtorEq, not_false_eq_true,
      Function.update_of_ne]
    omega
  · simp only [update, Function.update_self, ne_eq, reduceCtorEq, not_false_eq_true,
      Function.update_of_ne]
    omega

lemma other_ne (side : Side) : side.other ≠ side := by cases side <;> simp [Side.other]

lemma other_other (side : Side) : side.other.other = side := by cases side <;> rfl

lemma eq_or_eq_other (side x : Side) : x = side ∨ x = side.other := by
  cases side <;> cases x <;> simp [Side.other]

/-- A step of one end keeps the laws of both. -/
lemma Sound.update (h : w.Sound) {side : Side} {next : Endpoint T × List Frame}
    (hlaw : Endpoint.StepLaw (w.ends side.other).source (w.ends side) next)
    (hopens : (w.update side next).opens ≤ 1) : (w.update side next).Sound := by
  have hself : (w.update side next).ends side = next.1 := Function.update_self _ _ _
  have hother : (w.update side next).ends side.other = w.ends side.other :=
    Function.update_of_ne (other_ne side) _ _
  constructor
  case sends =>
    intro x
    rcases eq_or_eq_other side x with rfl | rfl
    · rw [hself]
      exact hlaw.sends
    · rw [hother]
      exact h.sends _
  case receives =>
    intro x
    rcases eq_or_eq_other side x with rfl | rfl
    · rw [hself, hother]
      exact hlaw.receives
    · rw [hother, other_other, hself]
      have hold := h.receives side.other
      rw [other_other] at hold
      exact hold.mono hlaw.source
  case frames =>
    intro x f hf
    rcases List.mem_append.1 hf with hm | hm
    · rcases eq_or_eq_other side x with rfl | rfl
      · rw [hother]
        exact h.frames _ f hm
      · rw [other_other, hself]
        have hold := h.frames side.other f hm
        rw [other_other] at hold
        exact hold.mono hlaw.source
    · obtain ⟨g, hg, heq⟩ := List.mem_map.1 hm
      obtain ⟨rfl, rfl⟩ := Prod.mk.inj heq
      rw [other_other, hself]
      exact hlaw.frames g hg
  case opens => exact hopens

/-- What is left of the opens once a frame is taken off the network. -/
lemma opens_deliver {index : ℕ} {side : Side} {f : Frame}
    (hget : w.network[index]? = some (side, f)) :
    w.opens = f.opens + opens { w with network := w.network.eraseIdx index } := by
  obtain ⟨hlt, hget⟩ := List.getElem?_eq_some_iff.1 hget
  have hperm := List.getElem_cons_eraseIdx_perm hlt
  rw [hget] at hperm
  rw [opens, ← (hperm.map _).sum_eq, List.map_cons, List.sum_cons, opens]
  exact add_assoc _ _ _

lemma Sound.receive_law (h : w.Sound) {index : ℕ} {side : Side} {f : Frame}
    (hget : w.network[index]? = some (side, f)) :
    Endpoint.StepLaw (w.ends side.other).source (w.ends side) ((w.ends side).receive f) := by
  refine Endpoint.receive_law (h.sends side) (h.receives side)
    (h.frames side f (List.mem_of_getElem? hget)) fun session service hf hkey => ?_
  refine Endpoint.idle_of_claims hkey ?_
  have hopens := h.opens
  rw [opens_deliver hget, hf, Frame.opens, World.opens] at hopens
  cases side <;> simp only at hopens ⊢ <;> omega

lemma Sound.step (h : w.Sound) (op : WorldStep T) : (w.step op).Sound := by
  cases op with
  | act side a =>
    refine h.update (Endpoint.act_law (h.sends side) (h.receives side) a) ?_
    have hsum := sum_opens_update w side ((w.ends side).act a)
    have hact := Endpoint.claims_act (w.ends side) a
    have := h.opens
    omega
  | deliver index =>
    simp only [World.step]
    split
    · exact h
    · rename_i side f hget
      have hopens := h.opens
      rw [opens_deliver hget] at hopens
      have htaken : Sound { w with network := w.network.eraseIdx index } :=
        { h with
          frames := fun x g hg => h.frames x g (List.mem_of_mem_eraseIdx hg)
          opens := by omega }
      refine htaken.update (h.receive_law hget) ?_
      have hsum := sum_opens_update { w with network := w.network.eraseIdx index } side
        ((w.ends side).receive f)
      have hreceive := Endpoint.claims_receive (w.ends side) f
      simp only at hsum
      omega

end World

end Rings.Transport
