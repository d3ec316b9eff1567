import Mathlib.Data.List.Basic
import Mathlib.Order.Basic
import Mathlib.Tactic

/-!
A waiting line: whoever arrives takes the next ticket, only the first in line is admitted, anyone
may leave, and somebody is admitted without queueing only when nobody waits. The log of what
happened then keeps the arrival order.
-/

namespace Rings.WaitingLine

inductive LineEvent
  | queued (ticket : ℕ)
  | admitted (ticket : ℕ)
  | cancelled (ticket : ℕ)
  | unqueued
deriving DecidableEq

/-- The ticket has left the line. -/
def Gone (log : List LineEvent) (t : ℕ) : Prop := .admitted t ∈ log ∨ .cancelled t ∈ log

/-- What may happen after `log`, in arrival order. -/
def Allowed (log : List LineEvent) : LineEvent → Prop
  | .queued t => ∀ s, .queued s ∈ log → s < t
  | .admitted t => .queued t ∈ log ∧ ¬ Gone log t ∧ ∀ s < t, .queued s ∈ log → Gone log s
  | .cancelled t => .queued t ∈ log ∧ ¬ Gone log t
  | .unqueued => ∀ s, .queued s ∈ log → Gone log s

/-- Every event of the log is allowed by those before it. -/
def Fair (log : List LineEvent) : Prop :=
  ∀ before e after, log = before ++ e :: after → Allowed before e

@[simp] theorem fair_nil : Fair [] := by
  intro before e after h
  simp at h

theorem fair_concat (log : List LineEvent) (e : LineEvent) :
    Fair (log ++ [e]) ↔ Fair log ∧ Allowed log e := by
  constructor
  · intro h
    refine ⟨fun before e' after hl => h before e' (after ++ [e]) (by simp [hl]), ?_⟩
    exact h log e [] rfl
  · rintro ⟨h, he⟩ before e' after hl
    rcases List.eq_nil_or_concat' after with rfl | ⟨after, last, rfl⟩
    · obtain ⟨rfl, h'⟩ := List.append_inj' hl rfl
      simp only [List.cons.injEq, and_true] at h'
      exact h' ▸ he
    · have hl' : log ++ [e] = (before ++ e' :: after) ++ [last] := by simpa using hl
      exact h before e' after (List.append_inj' hl' rfl).1

def LineEvent.admission : LineEvent → Option ℕ
  | .admitted t => some t
  | _ => none

theorem mem_admissions (log : List LineEvent) (t : ℕ) :
    t ∈ log.filterMap LineEvent.admission ↔ .admitted t ∈ log := by
  simp only [List.mem_filterMap]
  constructor
  · rintro ⟨e, he, ht⟩
    cases e <;> simp only [LineEvent.admission, Option.some.injEq, reduceCtorEq] at ht
    exact ht ▸ he
  · intro h
    exact ⟨_, h, rfl⟩

/-- Every ticket that left had queued. -/
theorem Fair.queued_of_gone {log : List LineEvent} (h : Fair log) {t : ℕ} (ht : Gone log t) :
    .queued t ∈ log := by
  induction log using List.reverseRecOn with
  | nil => simp [Gone] at ht
  | append_singleton log e ih =>
    obtain ⟨hf, ha⟩ := (fair_concat log e).1 h
    by_cases hg : Gone log t
    · exact List.mem_append_left _ (ih hf hg)
    · have he : e = .admitted t ∨ e = .cancelled t := by
        simp only [Gone, List.mem_append, List.mem_singleton, not_or] at ht hg
        tauto
      rcases he with rfl | rfl
      · exact List.mem_append_left _ ha.1
      · exact List.mem_append_left _ ha.1

theorem Gone.concat {log : List LineEvent} {t : ℕ} (h : Gone log t) (e : LineEvent) :
    Gone (log ++ [e]) t :=
  h.imp (List.mem_append_left _) (List.mem_append_left _)

/-- Whoever arrived before an admitted ticket has left the line. -/
theorem Fair.gone_of_lt {log : List LineEvent} (h : Fair log) {s t : ℕ}
    (hs : .admitted s ∈ log) (ht : .queued t ∈ log) (hts : t < s) : Gone log t := by
  induction log using List.reverseRecOn with
  | nil => simp at hs
  | append_singleton log e ih =>
    obtain ⟨hf, ha⟩ := (fair_concat log e).1 h
    simp only [List.mem_append, List.mem_singleton] at hs ht
    rcases hs with hs | rfl
    · rcases ht with ht | rfl
      · exact (ih hf hs ht).concat e
      · -- a ticket that arrives now is later than every admitted one
        have := ha s (hf.queued_of_gone (.inl hs))
        omega
    · have ht : .queued t ∈ log := by simpa using ht
      exact (ha.2.2 t hts ht).concat _

/-- The tickets are admitted in the order of their arrival. -/
theorem Fair.admissions_pairwise {log : List LineEvent} (h : Fair log) :
    (log.filterMap LineEvent.admission).Pairwise (· < ·) := by
  induction log using List.reverseRecOn with
  | nil => simp
  | append_singleton log e ih =>
    obtain ⟨hf, ha⟩ := (fair_concat log e).1 h
    have hlog := ih hf
    rw [List.filterMap_append]
    cases e with
    | admitted t =>
      refine List.pairwise_append.2 ⟨hlog, List.pairwise_singleton _ _, ?_⟩
      intro s hs t' ht'
      obtain rfl : t' = t := by simpa [LineEvent.admission] using ht'
      have hs : .admitted s ∈ log := (mem_admissions log s).1 hs
      rcases lt_trichotomy s t' with hlt | rfl | hgt
      · exact hlt
      · exact absurd (.inl hs) ha.2.1
      · exact absurd (hf.gone_of_lt hs ha.1 hgt) ha.2.1
    | queued t => simpa [List.filterMap_cons, LineEvent.admission] using hlog
    | cancelled t => simpa [List.filterMap_cons, LineEvent.admission] using hlog
    | unqueued => simpa [List.filterMap_cons, LineEvent.admission] using hlog

/-! ### The line -/

structure Line where
  arrived : ℕ
  tickets : List ℕ
  log : List LineEvent

namespace Line

def empty : Line := ⟨0, [], []⟩

/-- What can happen to the line at once. -/
inductive Step (l : Line) : Line → Prop
  | stay : Step l l
  | queue : Step l ⟨l.arrived + 1, l.tickets ++ [l.arrived], l.log ++ [.queued l.arrived]⟩
  | pass (h : l.tickets = []) : Step l { l with log := l.log ++ [.unqueued] }
  | serve (t : ℕ) (rest : List ℕ) (h : l.tickets = t :: rest) :
      Step l { l with tickets := rest, log := l.log ++ [.admitted t] }
  | leave (i : ℕ) (h : i < l.tickets.length) :
      Step l { l with tickets := l.tickets.eraseIdx i, log := l.log ++ [.cancelled l.tickets[i]] }

/-- The tickets in line are those that arrived and have not gone, in order of arrival. -/
structure Orderly (l : Line) : Prop where
  sorted : l.tickets.Pairwise (· < ·)
  arrivals : ∀ t, .queued t ∈ l.log ↔ t < l.arrived
  inLine : ∀ t, t ∈ l.tickets ↔ t < l.arrived ∧ ¬ Gone l.log t
  fair : Fair l.log

theorem orderly_empty : empty.Orderly where
  sorted := by simp [empty]
  arrivals := by simp [empty]
  inLine := by simp [empty]
  fair := fair_nil

variable {l l' : Line}

theorem Orderly.step (h : l.Orderly) (hs : Step l l') : l'.Orderly := by
  have hgone : ∀ t, Gone l.log t → t < l.arrived := fun t ht =>
    (h.arrivals t).1 (h.fair.queued_of_gone ht)
  cases hs with
  | stay => exact h
  | queue =>
    have hin : ∀ t ∈ l.tickets, t < l.arrived := fun t ht => ((h.inLine t).1 ht).1
    refine ⟨?_, ?_, ?_, ?_⟩
    · exact List.pairwise_append.2 ⟨h.sorted, List.pairwise_singleton _ _, by simpa using hin⟩
    · intro t
      simp only [List.mem_append, h.arrivals t, List.mem_singleton, LineEvent.queued.injEq]
      omega
    · intro t
      have : Gone (l.log ++ [.queued l.arrived]) t ↔ Gone l.log t := by simp [Gone]
      simp only [List.mem_append, List.mem_singleton, h.inLine t, this]
      by_cases ht : Gone l.log t
      · have := hgone t ht
        simp only [ht, not_true_eq_false, and_false, false_or, iff_false]
        omega
      · simp only [ht, not_false_eq_true, and_true]
        omega
    · exact (fair_concat _ _).2 ⟨h.fair, fun s hs => (h.arrivals s).1 hs⟩
  | pass hnil =>
    refine ⟨h.sorted, fun t => by simp [h.arrivals t], fun t => ?_, ?_⟩
    · have : Gone (l.log ++ [.unqueued]) t ↔ Gone l.log t := by simp [Gone]
      simp only [h.inLine t, this]
    · refine (fair_concat _ _).2 ⟨h.fair, fun s hs => ?_⟩
      by_contra hg
      have := (h.inLine s).2 ⟨(h.arrivals s).1 hs, hg⟩
      simp [hnil] at this
  | serve t rest ht =>
    have hsorted := h.sorted
    rw [ht, List.pairwise_cons] at hsorted
    obtain ⟨hfirst, hrest⟩ := hsorted
    have hline : t < l.arrived ∧ ¬ Gone l.log t := (h.inLine t).1 (by simp [ht])
    refine ⟨hrest, fun s => by simp [h.arrivals s], fun s => ?_, ?_⟩
    · have hs := h.inLine s
      have : Gone (l.log ++ [.admitted t]) s ↔ Gone l.log s ∨ s = t := by
        simp only [Gone, List.mem_append, List.mem_singleton, LineEvent.admitted.injEq,
          reduceCtorEq, or_false]
        tauto
      simp only [ht, List.mem_cons] at hs
      have hne : s ∈ rest → s ≠ t := fun hm => (hfirst s hm).ne'
      simp only [this]
      tauto
    · refine (fair_concat _ _).2 ⟨h.fair, (h.arrivals t).2 hline.1, hline.2, fun s hst hs => ?_⟩
      by_contra hg
      have hs : s ∈ l.tickets := (h.inLine s).2 ⟨(h.arrivals s).1 hs, hg⟩
      rw [ht, List.mem_cons] at hs
      rcases hs with rfl | hs
      · omega
      · have := hfirst s hs
        omega
  | leave i hi =>
    have hline := (h.inLine _).1 (List.getElem_mem hi)
    have hnodup : l.tickets.Nodup := h.sorted.imp (fun hlt => hlt.ne)
    refine ⟨h.sorted.sublist (List.eraseIdx_sublist _ _), fun s => by simp [h.arrivals s],
      fun s => ?_, ?_⟩
    · have hs := h.inLine s
      have : Gone (l.log ++ [.cancelled l.tickets[i]]) s ↔ Gone l.log s ∨ s = l.tickets[i] := by
        simp only [Gone, List.mem_append, List.mem_singleton, LineEvent.cancelled.injEq,
          reduceCtorEq, or_false]
        tauto
      have herase : s ∈ l.tickets.eraseIdx i ↔ s ≠ l.tickets[i] ∧ s ∈ l.tickets := by
        rw [← hnodup.erase_getElem i hi, hnodup.mem_erase_iff]
      simp only [this, herase]
      tauto
    · exact (fair_concat _ _).2 ⟨h.fair, (h.arrivals _).2 hline.1, hline.2⟩

end Line

end Rings.WaitingLine
