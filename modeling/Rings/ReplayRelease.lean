import Rings.FailClosed

/-!
The wait for a batch.

A transition that joined the open batch waits, while others run, until the batch is written or has
failed. What it answers, a refusal included, is returned only with a batch that was written. A
failed batch undoes it with everything above the state the batch was opened on.
-/

namespace Rings

def ReplayEvent.stops : ReplayEvent → Bool
  | crash _ => true
  | call _ | admitOnLink _ _ _ _ _ _ _ | take | settle _ _ => false

namespace Runtime

def release (r : Runtime) (index : ℕ) : Option Returned :=
  r.returned.find? fun x => x.waiter.index = index

/-- `release.await`: the runtime goes on until the transition of a step is answered; no answer if
it never is. -/
def awaitRelease (index : ℕ) (r : Runtime) : List ReplayEvent → Option Returned × Runtime
  | [] => (r.release index, r)
  | event :: events =>
    match r.release index with
    | some x => (some x, r)
    | none => (r.step event).awaitRelease index events

def beneath (r : Runtime) : Speculative := rewind r.journal.opened.undo r.state

def bottom (r : Runtime) : Speculative := rewind (r.journal.inFlight.getD []) r.beneath

/-- The transitions ran before, a batch is written by a flusher, and the accounting agrees with
the charges. -/
structure Orderly (r : Runtime) : Prop where
  balanced : r.state.Balanced
  pending : ∀ w ∈ r.pending, w.index < r.steps
  returned : ∀ x ∈ r.returned, x.waiter.index < r.steps
  flushing : r.writing.isSome = true → r.journal.inFlight.isSome = true

end Runtime

/-! ### Rewinding -/

section Rewind

variable {s t : Speculative} {log : List Undo}

lemma rewind_similar (log : List Undo) (h : s.Similar t) : (rewind log s).Similar (rewind log t) := by
  induction log with
  | nil => exact h
  | cons u log ih => exact u.apply_similar ih

lemma rewind_append (log log' : List Undo) (s : Speculative) :
    rewind (log ++ log') s = rewind log (rewind log' s) := List.foldr_append

lemma Speculative.Balanced.rewind (h : s.Balanced) (log : List Undo) :
    (Rings.rewind log s).Balanced := by
  induction log with
  | nil => exact h
  | cons u log ih =>
    cases u with
    | quota reservation => exact ⟨ih.indexed, ih.exact⟩
    | sender key previous => exact Undo.Balanced.apply (u := .sender key previous) trivial ih
    | receiver key previous => exact Undo.Balanced.apply (u := .receiver key previous) trivial ih
    | custody key previous => exact Undo.Balanced.apply (u := .custody key previous) trivial ih
    | charge key previous => exact Undo.Balanced.apply (u := .charge key previous) trivial ih

end Rewind

namespace Runtime

variable {r r₀ : Runtime} {w : Waiter}

lemma beneath_commit (h : r.state.Balanced) (call : ReplayCall) :
    r.beneath.Similar (r.commit call).beneath ∧ r.bottom.Similar (r.commit call).bottom := by
  have hundo := (call.commit_logged h).1 _ (.refl _)
  have hbeneath : r.beneath.Similar (r.commit call).beneath := by
    rw [beneath, beneath, commit_eq]
    simp only [Journal.join]
    rw [rewind_append]
    exact rewind_similar _ hundo
  refine ⟨hbeneath, ?_⟩
  rw [bottom, bottom]
  have hflight : (r.commit call).journal.inFlight.getD [] = r.journal.inFlight.getD [] := by
    rw [commit_eq]
    rfl
  rw [hflight]
  exact rewind_similar _ hbeneath

/-- A link-local admission is no change of the batches beneath it. -/
lemma admitOnLink_journal (r : Runtime) (window : Option SequenceState) (key : StreamKey)
    (sequence : ℕ) (digest : TransactionDigest) (charge : OriginQuotaCharge)
    (byteCost quotaNow : ℕ) {r' : Runtime}
    (hr' : r' = (r.admitOnLink window key sequence digest charge byteCost quotaNow).2.2) :
    r'.journal.inFlight = r.journal.inFlight ∧ (r.state.Balanced → r'.state.Balanced) ∧
      (r.journal.inFlight.isSome = true → r.beneath.Similar r'.beneath) := by
  subst hr'
  rw [admitOnLink]
  simp only
  split
  · exact ⟨rfl, id, fun _ => .refl _⟩
  split
  · rename_i hreserve
    have hsimilar := Speculative.similar_quota (OriginQuotaTable.refilled_of_reserve_error hreserve)
    exact ⟨rfl, hsimilar.balanced, fun _ => rewind_similar _ hsimilar⟩
  · rename_i reservation quota hreserve
    refine ⟨?_, fun h => ⟨h.indexed, h.exact⟩, fun hflight => ?_⟩
    · rw [Journal.logReleasedCharge]
      split <;> rfl
    · rw [beneath, beneath, Journal.logReleasedCharge, hflight]
      simp only [Bool.true_or, if_true]
      rw [rewind_append]
      exact rewind_similar _ (undoes_quota hreserve _ (.refl _))

/-! ### The wait -/

/-- The state is one a failing batch leaves: that its open batch was opened on, or that the batch
being written was. -/
def Beneath (r : Runtime) (s : Speculative) : Prop := r.beneath.Similar s ∨ r.bottom.Similar s

/-- A transition that joined the batch open at `r₀` waits: its batch is open, above the batch that
was being written then, if it still is; or its batch is written. -/
structure Waits (r₀ : Runtime) (w : Waiter) (r : Runtime) : Prop where
  orderly : r.Orderly
  flushing : r.journal.inFlight.isSome = true
  named : ∀ v ∈ r.pending, v.index = w.index → v = w
  unanswered : ∀ x ∈ r.returned, x.waiter.index ≠ w.index
  place : (w ∈ r.journal.opened.waiters ∧ r₀.beneath.Similar r.beneath ∧
      (r.writing.isSome = true → r₀.bottom.Similar r.bottom)) ∨
    ∃ b, r.writing = some b ∧ w ∈ b.waiters ∧ r₀.beneath.Similar r.bottom

/-- The transition is answered, durable or with the state as it was beneath it. -/
def Answered (r₀ : Runtime) (w : Waiter) (r : Runtime) : Prop :=
  ∃ x, r.release w.index = some x ∧ x.waiter = w ∧ (x.durable = false → r₀.Beneath r.state)

lemma release_of_mem (hnamed : ∀ v ∈ r.pending, v.index = w.index → v = w)
    (hunanswered : ∀ x ∈ r.returned, x.waiter.index ≠ w.index) {members : List Waiter}
    (hmembers : ∀ v ∈ members, v ∈ r.pending) (hw : w ∈ members) {durable : Bool} {n : ℕ} :
    (r.returned ++ members.map fun v => (⟨v, durable, n⟩ : Returned)).find?
      (fun x => x.waiter.index = w.index) = some ⟨w, durable, n⟩ := by
  have hbefore : r.returned.find? (fun x => x.waiter.index = w.index) = none :=
    List.find?_eq_none.2 fun x hx => by simpa using hunanswered x hx
  rw [List.find?_append, hbefore, Option.none_or]
  obtain ⟨x, hx⟩ := Option.isSome_iff_exists.1 (List.find?_isSome.2
    ⟨_, List.mem_map_of_mem (f := fun v => (⟨v, durable, n⟩ : Returned)) hw, by simp⟩ :
    ((members.map fun v => (⟨v, durable, n⟩ : Returned)).find?
      fun x => x.waiter.index = w.index).isSome = true)
  obtain ⟨v, hv, rfl⟩ := List.mem_map.1 (List.mem_of_find?_eq_some hx)
  have hindex : v.index = w.index := by simpa using List.find?_some hx
  rw [hx, hnamed v (hmembers v hv) hindex]

/-- The flusher takes the open batch when it writes none; it ends when none was joined. -/
lemma take_cases (r : Runtime) :
    ((r.writing.isSome = true ∨ r.journal.inFlight = none) ∧ r.take = r) ∨
    (r.writing = none ∧ r.journal.opened.waiters = [] ∧ r.take = { r with
      journal := ⟨{ r.journal.opened with undo := [] }, none⟩
      writing := none, writingAt := none, openedAt := none }) ∨
    (r.writing = none ∧ r.take = { r with
      journal := ⟨.empty, some r.journal.opened.undo⟩
      writing := some { r.journal.opened with undo := [] }
      writingAt := r.openedAt, openedAt := none }) := by
  rw [take]
  split
  · rename_i log hwriting hflight
    by_cases hempty : r.journal.opened.waiters.isEmpty = true
    · rw [Journal.take, if_pos hempty]
      exact Or.inr (Or.inl ⟨hwriting, List.isEmpty_iff.1 hempty, rfl⟩)
    · rw [Journal.take, if_neg hempty]
      exact Or.inr (Or.inr ⟨hwriting, rfl⟩)
  · rename_i hbusy
    refine Or.inl ⟨?_, rfl⟩
    rcases hwriting : r.writing with _ | b
    · rcases hflight : r.journal.inFlight with _ | log
      · exact Or.inr rfl
      · exact (hbusy log hwriting hflight).elim
    · exact Or.inl rfl

/-- A written batch releases its members; a failed one fails those of the open batch too, and
leaves the state it was opened on. -/
lemma settle_cases (r : Runtime) (durable : Bool) (landed : RecordKey → Bool) :
    (r.writing = none ∧ r.settle durable landed = r) ∨ ∃ b disk openedAt written, r.writing = some b ∧
      (r.settle durable landed = { r with
          journal := { r.journal with inFlight := some [] }, writing := none, writingAt := none
          disk, openedAt, written
          returned := r.returned ++ b.waiters.map fun w => ⟨w, true, r.steps⟩ } ∨
        durable = false ∧ r.settle durable landed = { r with
          state := r.bottom, journal := ⟨.empty, some []⟩, writing := none, writingAt := none
          disk, openedAt, written
          returned := r.returned ++
            (b.waiters ++ r.journal.opened.waiters).map fun w => ⟨w, false, r.steps⟩ }) := by
  rw [settle]
  split
  · rename_i hwriting
    exact Or.inl ⟨hwriting, rfl⟩
  · rename_i b hwriting
    right
    cases hdurable : durable || b.records.entries.isEmpty
    · exact ⟨b, _, _, _, hwriting, Or.inr ⟨(Bool.or_eq_false_iff.1 hdurable).1, rfl⟩⟩
    · simp only [Journal.settle, if_true, Option.elim_none, List.append_nil]
      exact ⟨b, _, _, _, hwriting, Or.inl rfl⟩

lemma Orderly.later (h : r.Orderly) : { r with steps := r.steps + 1 }.Orderly :=
  ⟨h.balanced, fun w hw => (h.pending w hw).trans (Nat.lt_succ_self _),
    fun x hx => (h.returned x hx).trans (Nat.lt_succ_self _), h.flushing⟩

lemma Orderly.step (h : r.Orderly) {event : ReplayEvent} (hevent : event.stops = false) :
    (r.step event).Orderly := by
  have hlater : ∀ {r' : Runtime}, r'.pending = r.pending → ∀ w ∈ r'.pending, w.index < r.steps + 1 :=
    fun hpending w hw => (h.pending w (hpending ▸ hw)).trans (Nat.lt_succ_self _)
  have hreturned : ∀ x ∈ r.returned, x.waiter.index < r.steps + 1 :=
    fun x hx => (h.returned x hx).trans (Nat.lt_succ_self _)
  cases event with
  | crash landed => cases hevent
  | call call =>
    obtain ⟨-, hbalanced, -⟩ := call.commit_logged h.balanced
    rw [Runtime.step]
    simp only [commit_eq]
    refine ⟨hbalanced, fun w hw => ?_, hreturned, fun _ => rfl⟩
    simp only [Runtime.pending, Journal.join] at hw
    rw [← List.append_assoc] at hw
    rcases List.mem_append.1 hw with hw | hw
    · exact (h.pending w hw).trans (Nat.lt_succ_self _)
    · rw [List.mem_singleton.1 hw]
      exact Nat.lt_succ_self _
  | admitOnLink window key sequence digest charge byteCost quotaNow =>
    obtain ⟨hret, hwriting, -, hwaiters, -⟩ :=
      r.admitOnLink_frame window key sequence digest charge byteCost quotaNow rfl
    obtain ⟨hflight, hbalanced, -⟩ :=
      r.admitOnLink_journal window key sequence digest charge byteCost quotaNow rfl
    refine ⟨hbalanced h.balanced, hlater ?_, ?_, ?_⟩
    · rw [Runtime.step, Runtime.pending, Runtime.pending]
      simp only [hwriting, hwaiters]
    · simpa only [Runtime.step, hret] using hreturned
    · simpa only [Runtime.step, hwriting, hflight] using h.flushing
  | take =>
    rw [Runtime.step]
    rcases r.take_cases with ⟨-, heq⟩ | ⟨hwriting, -, heq⟩ | ⟨hwriting, heq⟩
    · rw [heq]
      exact h.later
    · rw [heq]
      refine ⟨h.balanced, hlater ?_, hreturned, fun hsome => (by cases hsome)⟩
      rw [Runtime.pending, Runtime.pending, hwriting]
    · rw [heq]
      refine ⟨h.balanced, hlater ?_, hreturned, fun _ => rfl⟩
      rw [Runtime.pending, Runtime.pending, hwriting]
      exact List.append_nil _
  | settle durable landed =>
    rw [Runtime.step]
    rcases r.settle_cases durable landed with
      ⟨-, heq⟩ | ⟨b, disk, openedAt, written, hwriting, heq | ⟨-, heq⟩⟩
    · rw [heq]
      exact h.later
    · have hmember := h.pending
      rw [Runtime.pending, hwriting] at hmember
      rw [heq]
      refine ⟨h.balanced, fun w hw => ?_, fun x hx => ?_, fun _ => rfl⟩
      · exact (hmember w (List.mem_append_right _ hw)).trans (Nat.lt_succ_self _)
      · rcases List.mem_append.1 hx with hx | hx
        · exact hreturned x hx
        · obtain ⟨w, hw, rfl⟩ := List.mem_map.1 hx
          exact (hmember w (List.mem_append_left _ hw)).trans (Nat.lt_succ_self _)
    · have hmember := h.pending
      rw [Runtime.pending, hwriting] at hmember
      rw [heq]
      refine ⟨(h.balanced.rewind _).rewind _, fun w hw => (by cases hw), fun x hx => ?_,
        fun _ => rfl⟩
      rcases List.mem_append.1 hx with hx | hx
      · exact hreturned x hx
      · obtain ⟨w, hw, rfl⟩ := List.mem_map.1 hx
        exact (hmember w hw).trans (Nat.lt_succ_self _)

lemma Waits.join (h : r.Orderly) (call : ReplayCall) :
    Waits r ⟨r.steps, call, (call.commit r.state).2.records, (call.commit r.state).1⟩
      (r.step (.call call)) := by
  obtain ⟨hbeneath, hbottom⟩ := r.beneath_commit h.balanced call
  refine ⟨h.step rfl, ?_, fun v hv hindex => ?_, fun x hx => ?_, Or.inl ⟨?_, hbeneath, ?_⟩⟩
  · rw [Runtime.step, commit_eq]
    rfl
  · rw [Runtime.step, commit_eq, Runtime.pending] at hv
    simp only [Journal.join] at hv
    rw [← List.append_assoc] at hv
    rcases List.mem_append.1 hv with hv | hv
    · exact absurd hindex (h.pending v hv).ne
    · exact List.mem_singleton.1 hv
  · rw [Runtime.step, commit_eq] at hx
    exact (h.returned x hx).ne
  · rw [Runtime.step, commit_eq]
    exact List.mem_append_right _ List.mem_cons_self
  · exact fun _ => hbottom

lemma Waits.release (h : Waits r₀ w r) : r.release w.index = none :=
  List.find?_eq_none.2 fun x hx => by simpa using h.unanswered x hx

lemma Waits.step (h : Waits r₀ w r) {event : ReplayEvent} (hevent : event.stops = false) :
    Waits r₀ w (r.step event) ∨ Answered r₀ w (r.step event) := by
  have horderly := h.orderly.step hevent
  have hlate : w ∈ r.pending := by
    rcases h.place with ⟨hw, -⟩ | ⟨b, hb, hw, -⟩
    · exact List.mem_append_right _ hw
    · rw [Runtime.pending, hb]
      exact List.mem_append_left _ hw
  cases event with
  | crash landed => cases hevent
  | call call =>
    obtain ⟨hbeneath, hbottom⟩ := r.beneath_commit h.orderly.balanced call
    refine Or.inl ⟨horderly, ?_, fun v hv hindex => ?_, ?_, ?_⟩
    · rw [Runtime.step, commit_eq]
      rfl
    · rw [Runtime.step, commit_eq, Runtime.pending] at hv
      simp only [Journal.join] at hv
      rw [← List.append_assoc] at hv
      rcases List.mem_append.1 hv with hv | hv
      · exact h.named v hv hindex
      · rw [List.mem_singleton.1 hv] at hindex
        exact absurd hindex (h.orderly.pending w hlate).ne'
    · rw [Runtime.step, commit_eq]
      exact h.unanswered
    · rcases h.place with ⟨hw, hopen, hwriting⟩ | ⟨b, hb, hw, hopen⟩
      · refine Or.inl ⟨?_, hopen.trans hbeneath, fun hsome => (hwriting ?_).trans hbottom⟩
        · rw [Runtime.step, commit_eq]
          exact List.mem_append_left _ hw
        · rw [Runtime.step, commit_eq] at hsome
          exact hsome
      · refine Or.inr ⟨b, ?_, hw, hopen.trans hbottom⟩
        rw [Runtime.step, commit_eq]
        exact hb
  | admitOnLink window key sequence digest charge byteCost quotaNow =>
    obtain ⟨hret, hwriting, -, hwaiters, -⟩ :=
      r.admitOnLink_frame window key sequence digest charge byteCost quotaNow rfl
    obtain ⟨hflight, -, hbeneath⟩ :=
      r.admitOnLink_journal window key sequence digest charge byteCost quotaNow rfl
    refine Or.inl ⟨horderly, ?_, ?_, ?_, ?_⟩
    · simpa only [Runtime.step, hflight] using h.flushing
    · simpa only [Runtime.step, Runtime.pending, hwriting, hwaiters] using h.named
    · simpa only [Runtime.step, hret] using h.unanswered
    · have hbottom : r.bottom.Similar
          (r.step (.admitOnLink window key sequence digest charge byteCost quotaNow)).bottom := by
        rw [Runtime.step, bottom, bottom]
        simp only [hflight]
        exact rewind_similar _ (hbeneath h.flushing)
      rcases h.place with ⟨hw, hopen, hunder⟩ | ⟨b, hb, hw, hopen⟩
      · refine Or.inl ⟨by simpa only [Runtime.step, hwaiters] using hw,
          hopen.trans (hbeneath h.flushing), fun hsome => (hunder ?_).trans hbottom⟩
        simpa only [Runtime.step, hwriting] using hsome
      · refine Or.inr ⟨b, by simpa only [Runtime.step, hwriting] using hb, hw, hopen.trans hbottom⟩
  | take =>
    left
    rcases r.take_cases with ⟨-, heq⟩ | ⟨hwriting, hnone, -⟩ | ⟨hwriting, heq⟩
    · rw [Runtime.step, heq]
      exact ⟨h.orderly.later, h.flushing, h.named, h.unanswered, h.place⟩
    · rw [Runtime.pending, hwriting, hnone] at hlate
      cases hlate
    · have hpending : (r.step .take).pending = r.pending := by
        rw [Runtime.step, heq, Runtime.pending, Runtime.pending, hwriting]
        exact List.append_nil _
      refine ⟨horderly, ?_, ?_, ?_, ?_⟩
      · rw [Runtime.step, heq]
        rfl
      · rw [hpending]
        exact h.named
      · rw [Runtime.step, heq]
        exact h.unanswered
      · rcases h.place with ⟨hw, hopen, -⟩ | ⟨b, hb, -⟩
        · rw [Runtime.step, heq]
          exact Or.inr ⟨_, rfl, hw, hopen⟩
        · rw [hwriting] at hb
          cases hb
  | settle durable landed =>
    rcases r.settle_cases durable landed with
      ⟨-, heq⟩ | ⟨b, disk, openedAt, written, hwriting, heq | ⟨-, heq⟩⟩
    · rw [Runtime.step, heq]
      exact Or.inl ⟨h.orderly.later, h.flushing, h.named, h.unanswered, h.place⟩
    · by_cases hmember : w ∈ b.waiters
      · right
        refine ⟨⟨w, true, r.steps⟩, ?_, rfl, fun hfalse => by cases hfalse⟩
        rw [Runtime.step, heq]
        refine release_of_mem h.named h.unanswered (fun v hv => ?_) hmember
        rw [Runtime.pending, hwriting]
        exact List.mem_append_left _ hv
      · left
        rcases h.place with ⟨hw, hopen, -⟩ | ⟨b', hb, hw, -⟩
        · refine ⟨horderly, ?_, fun v hv => ?_, fun x hx => ?_, ?_⟩
          · rw [Runtime.step, heq]
            rfl
          · rw [Runtime.step, heq] at hv
            exact h.named v (List.mem_append_right _ hv)
          · rw [Runtime.step, heq] at hx
            rcases List.mem_append.1 hx with hx | hx
            · exact h.unanswered x hx
            · obtain ⟨v, hv, rfl⟩ := List.mem_map.1 hx
              intro hindex
              refine hmember (h.named v ?_ hindex ▸ hv)
              rw [Runtime.pending, hwriting]
              exact List.mem_append_left _ hv
          · rw [Runtime.step, heq]
            exact Or.inl ⟨hw, hopen, fun hsome => by cases hsome⟩
        · rw [hwriting] at hb
          obtain rfl := Option.some.inj hb
          exact absurd hw hmember
    · right
      have hpending : b.waiters ++ r.journal.opened.waiters = r.pending := by
        rw [Runtime.pending, hwriting]
        rfl
      refine ⟨⟨w, false, r.steps⟩, ?_, rfl, fun _ => ?_⟩
      · rw [Runtime.step, heq, hpending]
        exact release_of_mem h.named h.unanswered (fun v hv => hv) hlate
      · rw [Runtime.step, heq]
        rcases h.place with ⟨-, -, hunder⟩ | ⟨-, -, -, hopen⟩
        · exact Or.inr (hunder (by rw [hwriting]; rfl))
        · exact Or.inl hopen

/-- Whoever waits is the transition answered, and one that failed left the state beneath it. -/
lemma Waits.await (h : Waits r₀ w r) {events : List ReplayEvent}
    (halive : ∀ event ∈ events, event.stops = false) {x : Returned} {r' : Runtime}
    (hawait : r.awaitRelease w.index events = (some x, r')) :
    x.waiter = w ∧ (x.durable = false → r₀.Beneath r'.state) := by
  induction events generalizing r with
  | nil =>
    rw [awaitRelease, h.release] at hawait
    cases hawait
  | cons event events ih =>
    rw [awaitRelease, h.release] at hawait
    rcases h.step (halive event List.mem_cons_self) with hwaits | ⟨y, hy, hyw, hundone⟩
    · exact ih hwaits (fun e he => halive e (List.mem_cons_of_mem _ he)) hawait
    · have hanswer : (r.step event).awaitRelease w.index events = (some y, r.step event) := by
        cases events with
        | nil => rw [awaitRelease, hy]
        | cons => rw [awaitRelease, hy]
      rw [hanswer] at hawait
      cases hawait
      exact ⟨hyw, hundone⟩

lemma Orderly.awaitRelease (h : r.Orderly) (index : ℕ) {events : List ReplayEvent}
    (halive : ∀ event ∈ events, event.stops = false) :
    (r.awaitRelease index events).2.Orderly := by
  induction events generalizing r with
  | nil => exact h
  | cons event events ih =>
    rw [Runtime.awaitRelease]
    split
    · exact h
    · exact ih (h.step (halive event List.mem_cons_self))
        fun e he => halive e (List.mem_cons_of_mem _ he)

/-- With no batch being written, a transition is answered once the flusher wrote its own. -/
lemma awaitRelease_write (h : r.Orderly) (hidle : r.writing = none) (call : ReplayCall)
    (landed : RecordKey → Bool) :
    ∃ x, ((r.step (.call call)).awaitRelease r.steps [.take, .settle true landed]).1 = some x ∧
      x.durable = true := by
  have hjoined := Waits.join h call
  set w : Waiter := ⟨r.steps, call, (call.commit r.state).2.records, (call.commit r.state).1⟩
  set joined := r.step (.call call) with hstep
  rw [Runtime.step, commit_eq] at hstep
  -- the flusher takes the batch
  obtain ⟨b, hb, hw, hreturned⟩ : ∃ b, (joined.step .take).writing = some b ∧ w ∈ b.waiters ∧
      (joined.step .take).returned = joined.returned := by
    rcases joined.take_cases with ⟨hbusy, -⟩ | ⟨-, hnone, -⟩ | ⟨-, heq⟩
    · rw [hstep] at hbusy
      rcases hbusy with hbusy | hbusy
      · rw [hidle] at hbusy
        cases hbusy
      · cases hbusy
    · rw [hstep] at hnone
      exact absurd hnone (List.append_ne_nil_of_right_ne_nil _ (List.cons_ne_nil _ _))
    · rw [Runtime.step, heq, hstep]
      exact ⟨_, rfl, List.mem_append_right _ List.mem_cons_self, rfl⟩
  have htaken : Waits r w (joined.step .take) := by
    rcases hjoined.step (rfl : ReplayEvent.stops .take = false) with hwaits | ⟨x, hx, -⟩
    · exact hwaits
    · rw [release, hreturned, ← release, hjoined.release] at hx
      cases hx
  refine ⟨⟨w, true, (joined.step .take).steps⟩, ?_, rfl⟩
  rw [awaitRelease, hjoined.release]
  simp only
  rw [awaitRelease, htaken.release]
  simp only
  -- and writes it
  generalize joined.step .take = taken at hb htaken
  have hwritten : (taken.step (.settle true landed)).release r.steps =
      some ⟨w, true, taken.steps⟩ := by
    rcases taken.settle_cases true landed with
      ⟨hnone, -⟩ | ⟨b', disk, openedAt, written, hb', heq | ⟨hfalse, -⟩⟩
    · rw [hb] at hnone
      cases hnone
    · rw [hb] at hb'
      obtain rfl := Option.some.inj hb'
      rw [Runtime.step, heq]
      refine release_of_mem htaken.named htaken.unanswered (fun v hv => ?_) hw
      rw [Runtime.pending, hb]
      exact List.mem_append_left _ hv
    · cases hfalse
  rw [awaitRelease, hwritten]

end Runtime

end Rings
