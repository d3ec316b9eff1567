import Rings.OnionAtMostOnce
import Rings.StreamReorder

/-!
The reorder window of one direction of an onion session.

Frames are numbered by their sender and released in that order. A frame ahead of a missing one
waits, within a window; a frame that waits, and a mark above the missing one, tell since when it is
known to be missing. Loops expire, so after the loop validity it cannot arrive any more, and the
direction fails.
-/

namespace Rings.Onion

def onionSurbPoolCapacity : ℕ := 256

abbrev OnionSequence := Fin (2 ^ 32)

namespace OnionSequence

def first : OnionSequence := ⟨0, by decide⟩

def next (n : OnionSequence) : Option OnionSequence :=
  if h : n.val + 1 < 2 ^ 32 then some ⟨n.val + 1, h⟩ else none

end OnionSequence

structure OnionSequenceGap where
  missing : ℕ
deriving DecidableEq

structure OnionReorder (F : Type*) where
  next : OnionSequence
  pending : BTreeMap OnionSequence (F × ℕ)
  marks : List (OnionSequence × ℕ)
  failed : Option OnionSequenceGap
  exhausted : Bool

namespace OnionReorder

variable {F : Type*}

def reorderWindow : ℕ := onionSurbPoolCapacity

/-- `default`: a direction at its first sequence, with nothing pending. -/
def new : OnionReorder F := ⟨.first, .empty, [], none, false⟩

variable (r : OnionReorder F)

/-- Record the gap at `next` and drop every pending frame and mark. -/
def fail : OnionReorder F × OnionSequenceGap :=
  ({ r with pending := .empty, marks := [], failed := some ⟨r.next⟩ }, ⟨r.next⟩)

/-- The instants since when `next` is known to be missing. -/
def arrivals : List ℕ :=
  (r.pending.entries.map fun kv => kv.2.2) ++ r.marks.map Prod.snd

/-- `next` has been awaited for the loop validity. -/
def stalledFor (nowMs : ℕ) : Bool :=
  match r.arrivals.min? with
  | none => false
  | some arrival => onionAdmissionWindowMs ≤ nowMs - arrival

/-- Fail closed if the missing `next` has been awaited for too long. -/
def expire (nowMs : ℕ) : OnionReorder F × Except OnionSequenceGap Unit :=
  match r.failed with
  | some gap => (r, .error gap)
  | none => if r.stalledFor nowMs then (r.fail.1, .error r.fail.2) else (r, .ok ())

/-- The loop of `accept`, which takes at most as many turns as frames wait. -/
def releaseLoop : ℕ → OnionReorder F → OnionReorder F × List F
  | 0, r => (r, [])
  | turns + 1, r =>
    match r.pending.get? r.next with
    | none => (r, [])
    | some (frame, _) =>
      match r.next.next with
      | some next =>
        let rest := releaseLoop turns
          { r with pending := r.pending.remove r.next, next := next }
        (rest.1, frame :: rest.2)
      | none => ({ r with pending := .empty, exhausted := true }, [frame])

def dischargeMarks : OnionReorder F :=
  { r with marks := r.marks.dropWhile fun m => m.1 ≤ r.next }

def accept (nowMs : ℕ) (sequence : OnionSequence) (frame : F) :
    OnionReorder F × Except OnionSequenceGap (List F) :=
  match r.expire nowMs with
  | (r, .error gap) => (r, .error gap)
  | (r, .ok ()) =>
    if r.exhausted then (r.fail.1, .error r.fail.2)
    else if sequence < r.next then (r, .ok [])
    else if sequence.val - r.next.val ≥ reorderWindow then (r.fail.1, .error r.fail.2)
    else
      let pending := if (r.pending.get? sequence).isSome then r.pending
        else r.pending.insert sequence (frame, nowMs)
      let released := releaseLoop pending.size { r with pending := pending }
      (released.1.dischargeMarks, .ok released.2)

def mark (nowMs : ℕ) (mark : OnionSequence) : OnionReorder F × Except OnionSequenceGap Unit :=
  match r.expire nowMs with
  | (r, .error gap) => (r, .error gap)
  | (r, .ok ()) =>
    let floor := (r.marks.getLast?).elim r.next Prod.fst
    (if floor < mark then { r with marks := r.marks ++ [(mark, nowMs)] } else r, .ok ())

end OnionReorder

/-! ### Runs -/

inductive OrderCall (F : Type*)
  | accept (nowMs : ℕ) (sequence : OnionSequence) (frame : F)
  | mark (nowMs : ℕ) (mark : OnionSequence)
  | expire (nowMs : ℕ)

namespace OnionReorder

variable {F : Type*}

def call (r : OnionReorder F) : OrderCall F → OnionReorder F × List F
  | .accept nowMs sequence frame =>
    ((r.accept nowMs sequence frame).1,
      match (r.accept nowMs sequence frame).2 with
      | .ok released => released
      | .error _ => [])
  | .mark nowMs m => ((r.mark nowMs m).1, [])
  | .expire nowMs => ((r.expire nowMs).1, [])

def run (calls : List (OrderCall F)) : OnionReorder F × List F :=
  calls.foldl (fun s c => ((s.1.call c).1, s.2 ++ (s.1.call c).2)) (new, [])

lemma run_concat (calls : List (OrderCall F)) (c : OrderCall F) :
    run (calls ++ [c]) =
      (((run calls).1.call c).1, (run calls).2 ++ ((run calls).1.call c).2) := by
  rw [run, List.foldl_append]
  rfl

end OnionReorder

/-- The frame of the first call that brings the number `n`. -/
def firstFrame {F : Type*} (calls : List (OrderCall F)) (n : ℕ) : Option F :=
  calls.findSome? fun
    | .accept _ sequence frame => if sequence.val = n then some frame else none
    | _ => none

/-! ### What a call does -/

namespace OnionReorder

variable {F : Type*} {r : OnionReorder F} {nowMs : ℕ}

lemma mem_arrivals {a : ℕ} : a ∈ r.arrivals ↔
    (∃ s f, r.pending.get? s = some (f, a)) ∨ ∃ m, (m, a) ∈ r.marks := by
  simp only [arrivals, List.mem_append, List.mem_map, Prod.exists, exists_eq_right]
  refine or_congr_left ?_
  constructor
  · rintro ⟨s, f, hmem⟩
    exact ⟨s, f, (BTreeMap.mem_entries _).1 hmem⟩
  · rintro ⟨s, f, hget⟩
    exact ⟨s, f, (BTreeMap.mem_entries _).2 hget⟩

lemma stalledFor_iff : r.stalledFor nowMs = true ↔
    ∃ a ∈ r.arrivals, a + onionAdmissionWindowMs ≤ nowMs := by
  have hpos : 0 < onionAdmissionWindowMs := by decide
  unfold stalledFor
  cases hmin : r.arrivals.min? with
  | none =>
    rw [List.min?_eq_none_iff] at hmin
    simp [hmin]
  | some a =>
    obtain ⟨hmem, hle⟩ := List.min?_eq_some_iff.1 hmin
    simp only [decide_eq_true_eq]
    constructor
    · exact fun h => ⟨a, hmem, by omega⟩
    · rintro ⟨b, hb, h⟩
      have := hle b hb
      omega

/-- What a release leaves waiting, and the frames it releases: the sequence goes on behind them,
or is spent. -/
structure Released (r r' : OnionReorder F) (out : List F) : Prop where
  frames : ∀ i f, out[i]? = some f → ∃ s : OnionSequence, ∃ a,
    s.val = r.next.val + i ∧ r.pending.get? s = some (f, a)
  next : (r'.exhausted = r.exhausted ∧ r'.next.val = r.next.val + out.length ∧
      (∀ s ≤ r'.next, r'.pending.get? s = none) ∧
      ∀ s, r'.next ≤ s → r'.pending.get? s = r.pending.get? s) ∨
    (r'.exhausted = true ∧ r.next.val + out.length = 2 ^ 32 ∧ r'.pending = .empty ∧
      r'.next.val + 1 = 2 ^ 32)

lemma released_releaseLoop (turns : ℕ) (r : OnionReorder F) (h : r.pending.size ≤ turns)
    (hfrom : ∀ s v, r.pending.get? s = some v → r.next ≤ s) :
    Released r (releaseLoop turns r).1 (releaseLoop turns r).2 := by
  induction turns generalizing r with
  | zero =>
    have hempty : ∀ k, r.pending.get? k = none := by
      intro k
      rw [BTreeMap.get?, List.length_eq_zero_iff.1 (Nat.le_zero.1 h), List.lookup_nil]
    exact ⟨by simp [releaseLoop], Or.inl ⟨rfl, rfl, fun s _ => hempty s, fun _ _ => rfl⟩⟩
  | succ turns ih =>
    unfold releaseLoop
    cases hget : r.pending.get? r.next with
    | none =>
      refine ⟨by simp, Or.inl ⟨rfl, rfl, fun s hs => ?_, fun _ _ => rfl⟩⟩
      cases hs' : r.pending.get? s with
      | none => rfl
      | some v =>
        have heq := le_antisymm hs (hfrom s v hs')
        rw [heq, hget] at hs'
        cases hs'
    | some v =>
      obtain ⟨frame, a⟩ := v
      have hsize := BTreeMap.size_remove hget
      by_cases hlt : r.next.val + 1 < 2 ^ 32
      · simp only [OnionSequence.next, dif_pos hlt]
        have hrest := ih { r with
          pending := r.pending.remove r.next, next := ⟨r.next.val + 1, hlt⟩ } (by simp only; omega)
          (fun s v hs => ?_)
        · obtain ⟨hframes, hnext⟩ := hrest
          simp only at hframes hnext
          refine ⟨fun i f hi => ?_, ?_⟩
          · cases i with
            | zero =>
              simp only [List.getElem?_cons_zero, Option.some.injEq] at hi
              exact ⟨r.next, a, rfl, hi ▸ hget⟩
            | succ i =>
              obtain ⟨s, b, hs, hb⟩ := hframes i f (by simpa using hi)
              rw [BTreeMap.get?_remove] at hb
              split at hb
              · cases hb
              · exact ⟨s, b, by omega, hb⟩
          · rcases hnext with ⟨hexhausted, hval, hnone, hsame⟩ | ⟨hexhausted, hval, hempty, hlast⟩
            · refine Or.inl ⟨hexhausted, by simp only [List.length_cons]; omega, hnone, ?_⟩
              intro s hs
              rw [hsame s hs, BTreeMap.get?_remove, if_neg]
              intro heq
              subst heq
              rw [Fin.le_def] at hs
              omega
            · exact Or.inr ⟨hexhausted, by simp only [List.length_cons]; omega, hempty, hlast⟩
        · rw [BTreeMap.get?_remove] at hs
          split at hs
          · cases hs
          · rename_i hne
            have hle := hfrom s v hs
            rw [Fin.le_def] at hle ⊢
            have hval : s.val ≠ r.next.val := fun heq => hne (Fin.ext heq)
            simp only
            omega
      · simp only [OnionSequence.next, dif_neg hlt]
        have hlast := r.next.isLt
        refine ⟨fun i f hi => ?_, Or.inr ⟨rfl, by simp; omega, rfl, by simp only; omega⟩⟩
        cases i with
        | zero =>
          simp only [List.getElem?_cons_zero, Option.some.injEq] at hi
          exact ⟨r.next, a, rfl, hi ▸ hget⟩
        | succ i => simp at hi

/-- A release touches neither the marks nor the failure. -/
lemma releaseLoop_frame (turns : ℕ) (r : OnionReorder F) :
    (releaseLoop turns r).1.marks = r.marks ∧ (releaseLoop turns r).1.failed = r.failed := by
  induction turns generalizing r with
  | zero => exact ⟨rfl, rfl⟩
  | succ turns ih =>
    unfold releaseLoop
    cases r.pending.get? r.next with
    | none => exact ⟨rfl, rfl⟩
    | some v =>
      cases hnext : r.next.next with
      | none => exact ⟨rfl, rfl⟩
      | some next => exact ih _

inductive Called (r : OnionReorder F) : OrderCall F → OnionReorder F × List F → Prop
  | same (c : OrderCall F) (hlate : r.failed = none → ∀ nowMs s f, c = .accept nowMs s f →
      r.exhausted = false ∧ s < r.next) : Called r c (r, [])
  | fails (c : OrderCall F) : Called r c (r.fail.1, [])
  | marks (nowMs : ℕ) (m : OnionSequence)
    (hfloor : (r.marks.getLast?).elim r.next Prod.fst < m) :
    Called r (.mark nowMs m) ({ r with marks := r.marks ++ [(m, nowMs)] }, [])
  | takes (nowMs : ℕ) (s : OnionSequence) (f : F) (pending : BTreeMap OnionSequence (F × ℕ))
    (r' : OnionReorder F) (out : List F) (hfailed : r.failed = none)
    (hspent : r.exhausted = false) (hs : r.next ≤ s)
    (hpending : ∀ k, pending.get? k =
      if k = s ∧ r.pending.get? s = none then some (f, nowMs) else r.pending.get? k)
    (hframe : r'.marks = r.marks ∧ r'.failed = r.failed)
    (hrest : (∀ s v, pending.get? s = some v → r.next ≤ s) →
      Released { r with pending := pending } r' out) :
    Called r (.accept nowMs s f) (r'.dischargeMarks, out)

lemma expire_cases (r : OnionReorder F) (nowMs : ℕ) :
    (∃ gap, r.failed = some gap ∧ r.expire nowMs = (r, .error gap)) ∨
      (r.failed = none ∧ r.stalledFor nowMs = true ∧
        r.expire nowMs = (r.fail.1, .error r.fail.2)) ∨
      (r.failed = none ∧ r.stalledFor nowMs = false ∧ r.expire nowMs = (r, .ok ())) := by
  unfold expire
  cases hfailed : r.failed with
  | some gap => exact Or.inl ⟨gap, rfl, rfl⟩
  | none =>
    cases hstalled : r.stalledFor nowMs with
    | true => exact Or.inr (Or.inl ⟨rfl, rfl, by simp⟩)
    | false => exact Or.inr (Or.inr ⟨rfl, rfl, by simp⟩)

lemma called_accept (r : OnionReorder F) (nowMs : ℕ) (s : OnionSequence) (f : F) :
    Called r (.accept nowMs s f) (r.call (.accept nowMs s f)) := by
  unfold call accept
  rcases r.expire_cases nowMs with ⟨gap, hfailed, hexp⟩ | ⟨hfailed, -, hexp⟩ | ⟨hfailed, -, hexp⟩
  · simp only [hexp]
    exact .same _ fun h => by simp [hfailed] at h
  · simp only [hexp]
    exact .fails _
  simp only [hexp]
  by_cases hspent : r.exhausted = true
  · simp only [if_pos hspent]
    exact .fails _
  simp only [if_neg hspent]
  rw [Bool.not_eq_true] at hspent
  by_cases hlate : s < r.next
  · simp only [if_pos hlate]
    refine .same _ fun _ nowMs' s' f' heq => ⟨hspent, ?_⟩
    cases heq
    exact hlate
  simp only [if_neg hlate]
  by_cases hbeyond : s.val - r.next.val ≥ reorderWindow
  · simp only [if_pos hbeyond]
    exact .fails _
  simp only [if_neg hbeyond]
  refine .takes nowMs s f _ _ _ hfailed hspent (not_lt.1 hlate) (fun k => ?_)
    (releaseLoop_frame _ _) fun hfrom => released_releaseLoop _ _ le_rfl hfrom
  cases hget : r.pending.get? s with
  | some v => simp
  | none =>
    simp only [Option.isSome_none, Bool.false_eq_true, if_false, BTreeMap.get?_insert, and_true]

lemma called (r : OnionReorder F) (c : OrderCall F) : Called r c (r.call c) := by
  cases c with
  | accept nowMs s f => exact r.called_accept nowMs s f
  | expire nowMs =>
    unfold call
    rcases r.expire_cases nowMs with ⟨gap, -, hexp⟩ | ⟨-, -, hexp⟩ | ⟨-, -, hexp⟩
    · simp only [hexp]
      exact .same _ fun _ _ _ _ h => nomatch h
    · simp only [hexp]
      exact .fails _
    · simp only [hexp]
      exact .same _ fun _ _ _ _ h => nomatch h
  | mark nowMs m =>
    unfold call mark
    rcases r.expire_cases nowMs with ⟨gap, -, hexp⟩ | ⟨-, -, hexp⟩ | ⟨-, -, hexp⟩
    · simp only [hexp]
      exact .same _ fun _ _ _ _ h => nomatch h
    · simp only [hexp]
      exact .fails _
    · simp only [hexp]
      split
      · rename_i hfloor
        exact .marks nowMs m hfloor
      · exact .same _ fun _ _ _ _ h => nomatch h

/-! ### Released in order -/

/-- What a direction released and holds, read off its calls. -/
structure Exact (calls : List (OrderCall F)) (r : OnionReorder F) (out : List F) : Prop where
  length : out.length = if r.exhausted then 2 ^ 32 else r.next.val
  first : ∀ i f, out[i]? = some f → firstFrame calls i = some f
  pending : ∀ s f a, r.pending.get? s = some (f, a) →
    r.next < s ∧ firstFrame calls s = some f ∧ .accept a s f ∈ calls
  seen : r.failed = none → ∀ s : OnionSequence, (firstFrame calls s).isSome →
    s.val < out.length ∨ (r.pending.get? s).isSome

lemma firstFrame_concat (calls : List (OrderCall F)) (c : OrderCall F) (n : ℕ) :
    firstFrame (calls ++ [c]) n = (firstFrame calls n).or (firstFrame [c] n) := by
  rw [firstFrame, List.findSome?_append]
  rfl

lemma firstFrame_mono {calls : List (OrderCall F)} {n : ℕ} {f : F} (h : firstFrame calls n = some f)
    (c : OrderCall F) : firstFrame (calls ++ [c]) n = some f := by
  rw [firstFrame_concat, h, Option.some_or]

lemma firstFrame_accept (nowMs : ℕ) (s : OnionSequence) (f : F) (n : ℕ) :
    firstFrame [.accept nowMs s f] n = if s.val = n then some f else none := by
  simp [firstFrame]

lemma exact_new : Exact [] (new : OnionReorder F) [] where
  length := rfl
  first i f h := by simp at h
  pending s f a h := by simp [new] at h
  seen _ s h := by simp [firstFrame] at h

lemma Exact.keeps {calls : List (OrderCall F)} {r r' : OnionReorder F} {out : List F}
    (h : Exact calls r out) (c : OrderCall F) (hnext : r'.next = r.next)
    (hspent : r'.exhausted = r.exhausted)
    (hpending : ∀ s v, r'.pending.get? s = some v → r.pending.get? s = some v)
    (hseen : r'.failed = none → r.failed = none ∧ r'.pending = r.pending ∧
      ∀ s : OnionSequence, (firstFrame [c] s).isSome → s.val < out.length) :
    Exact (calls ++ [c]) r' out where
  length := by rw [hnext, hspent, h.length]
  first i f hi := firstFrame_mono (h.first i f hi) c
  pending s f a hs := by
    obtain ⟨hlt, hfirst, hmem⟩ := h.pending s f a (hpending s _ hs)
    exact ⟨hnext ▸ hlt, firstFrame_mono hfirst c, List.mem_append_left _ hmem⟩
  seen hfailed s hs := by
    obtain ⟨hbefore, heq, hnew⟩ := hseen hfailed
    rw [firstFrame_concat, Option.isSome_or, Bool.or_eq_true] at hs
    rw [heq]
    rcases hs with hs | hs
    · exact h.seen hbefore s hs
    · exact Or.inl (hnew s hs)

lemma Exact.call {calls : List (OrderCall F)} {out : List F} (h : Exact calls r out)
    (c : OrderCall F) : Exact (calls ++ [c]) (r.call c).1 (out ++ (r.call c).2) := by
  have hcalled := r.called c
  generalize r.call c = next at hcalled
  cases hcalled with
  | same c hlate =>
    rw [List.append_nil]
    refine h.keeps c rfl rfl (fun _ _ => id) fun hfailed => ⟨hfailed, rfl, fun s hs => ?_⟩
    cases c with
    | accept nowMs s' f =>
      obtain ⟨hspent, hlt⟩ := hlate hfailed nowMs s' f rfl
      rw [firstFrame_accept] at hs
      split at hs
      · rename_i heq
        rw [h.length, hspent, ← heq]
        exact hlt
      · cases hs
    | mark nowMs m => cases hs
    | expire nowMs => cases hs
  | fails c =>
    rw [List.append_nil]
    exact h.keeps c rfl rfl (fun _ _ hs => by simp [fail] at hs) (fun hfailed => by cases hfailed)
  | marks nowMs m hfloor =>
    rw [List.append_nil]
    exact h.keeps _ rfl rfl (fun _ _ => id) fun hfailed => ⟨hfailed, rfl, fun s hs => by cases hs⟩
  | takes nowMs s f pending r' released hfailed hspent hs hpending hframe hrest =>
    have hlength : out.length = r.next.val := by
      rw [h.length, hspent]
      rfl
    have hfrom : ∀ k v, pending.get? k = some v → r.next ≤ k := by
      intro k v hk
      rw [hpending] at hk
      split at hk
      · rename_i hnew
        exact hnew.1 ▸ hs
      · exact (h.pending k v.1 v.2 hk).1.le
    -- a number that neither was released nor waits comes for the first time
    have hfirst : r.pending.get? s = none → firstFrame calls s = none := by
      intro hnone
      by_contra hsome
      rcases h.seen hfailed s (Option.isSome_iff_ne_none.2 hsome) with hlt | hwaits
      · rw [Fin.le_def] at hs
        omega
      · rw [hnone] at hwaits
        cases hwaits
    have hheld : ∀ k g a, pending.get? k = some (g, a) →
        firstFrame (calls ++ [.accept nowMs s f]) k = some g ∧
          .accept a k g ∈ calls ++ [.accept nowMs s f] := by
      intro k g a hk
      rw [hpending] at hk
      split at hk
      · rename_i hnew
        obtain ⟨rfl, hnone⟩ := hnew
        cases hk
        rw [firstFrame_concat, hfirst hnone, firstFrame_accept, if_pos rfl]
        exact ⟨rfl, by simp⟩
      · obtain ⟨-, hold, hmem⟩ := h.pending k g a hk
        exact ⟨firstFrame_mono hold _, List.mem_append_left _ hmem⟩
    have hsome : ∀ k : OnionSequence, (firstFrame (calls ++ [.accept nowMs s f]) k).isSome →
        k.val < r.next.val ∨ (pending.get? k).isSome := by
      intro k hk
      rw [firstFrame_concat, Option.isSome_or, Bool.or_eq_true] at hk
      by_cases hnew : k = s ∧ r.pending.get? s = none
      · exact Or.inr (by rw [hpending, if_pos hnew]; rfl)
      rw [hpending, if_neg hnew]
      rcases hk with hk | hk
      · rw [← hlength]
        exact h.seen hfailed k hk
      · rw [firstFrame_accept] at hk
        split at hk
        · rename_i heq
          have heq : k = s := (Fin.ext heq).symm
          exact Or.inr (Option.isSome_iff_ne_none.2 fun hnone => hnew ⟨heq, heq ▸ hnone⟩)
        · cases hk
    obtain ⟨hframes, hnext⟩ := hrest hfrom
    simp only at hframes hnext
    constructor
    case length =>
      rw [List.length_append, hlength]
      rcases hnext with ⟨hspent', hval, -, -⟩ | ⟨hspent', hval, -, -⟩
      · simp only [dischargeMarks, hspent', hspent, hval, Bool.false_eq_true, if_false]
      · simp only [dischargeMarks, hspent', hval, if_true]
    case first =>
      intro i g hi
      by_cases hlt : i < out.length
      · rw [List.getElem?_append_left hlt] at hi
        exact firstFrame_mono (h.first i g hi) _
      · rw [List.getElem?_append_right (not_lt.1 hlt)] at hi
        obtain ⟨k, a, hk, hget⟩ := hframes _ g hi
        have hki : k.val = i := by omega
        exact hki ▸ (hheld k g a hget).1
    case pending =>
      intro k g a hk
      simp only [dischargeMarks] at hk ⊢
      rcases hnext with ⟨-, -, hbelow, hsame⟩ | ⟨-, -, hempty, -⟩
      · have hlt : r'.next < k := by
          by_contra hle
          rw [hbelow k (not_lt.1 hle)] at hk
          cases hk
        rw [hsame k hlt.le] at hk
        exact ⟨hlt, hheld k g a hk⟩
      · simp [hempty] at hk
    case seen =>
      intro _ k hk
      rw [List.length_append, hlength]
      simp only [dischargeMarks]
      rcases hnext with ⟨-, hval, -, hsame⟩ | ⟨-, hval, -, -⟩
      · rcases hsome k hk with hlt | hwaits
        · exact Or.inl (by omega)
        · by_cases hlt : k.val < r'.next.val
          · exact Or.inl (by omega)
          · rw [hsame k (by rw [Fin.le_def]; omega)]
            exact Or.inr hwaits
      · exact Or.inl (by have := k.isLt; omega)

lemma exact_run (calls : List (OrderCall F)) : Exact calls (run calls).1 (run calls).2 := by
  induction calls using List.reverseRecOn with
  | nil => exact exact_new
  | append_singleton calls c ih =>
    rw [run_concat]
    exact ih.call c

end OnionReorder

/-! ### Built in order, and admitted -/

namespace OnionExpiry

lemma asMs_mono {b c : ℕ} (h : b ≤ c) : (ofBuild b).asMs ≤ (ofBuild c).asMs := by
  have hdiv : (b + onionExpiryQuantumMs - 1) / onionExpiryQuantumMs ≤
      (c + onionExpiryQuantumMs - 1) / onionExpiryQuantumMs := Nat.div_le_div_right (by omega)
  have hquantum : (ofBuild b).quantum ≤ (ofBuild c).quantum := by
    simp only [ofBuild, saturatingAdd]
    omega
  exact min_le_min_right _ (Nat.mul_le_mul_right _ hquantum)

end OnionExpiry

/-- The loop of a call is built at the instants of `built`, or behind the frames its mark counts,
and is admitted when it arrives. -/
def OrderCall.Admitted {F : Type*} (built : ℕ → ℕ) : OrderCall F → Prop
  | .accept nowMs sequence _ => (OnionExpiry.ofBuild (built sequence)).admissibleAt nowMs = true
  | .mark nowMs m => ∃ b, (∀ n < m.val, built n ≤ b) ∧
      (OnionExpiry.ofBuild b).admissibleAt nowMs = true
  | .expire _ => True

namespace OnionReorder

variable {F : Type*} {r : OnionReorder F}

/-- The marks lie above `next` and each was admitted. -/
structure Marked (built : ℕ → ℕ) (r : OnionReorder F) : Prop where
  above : ∀ m ∈ r.marks, r.next < m.1
  sorted : r.marks.Pairwise fun m m' => m.1 < m'.1
  admitted : ∀ m ∈ r.marks, (OrderCall.mark m.2 m.1 : OrderCall F).Admitted built

lemma marked_new (built : ℕ → ℕ) : Marked built (new : OnionReorder F) :=
  ⟨by simp [new], by simp [new], by simp [new]⟩

/-- What is left of increasing marks once those at most `n` are dropped lies above it. -/
lemma lt_of_mem_dropWhile {n : OnionSequence} {ms : List (OnionSequence × ℕ)}
    (hs : ms.Pairwise fun m m' => m.1 < m'.1) {m : OnionSequence × ℕ}
    (hm : m ∈ ms.dropWhile fun m => m.1 ≤ n) : n < m.1 := by
  induction ms with
  | nil => simp at hm
  | cons x ms ih =>
    rw [List.pairwise_cons] at hs
    rw [List.dropWhile_cons] at hm
    split at hm
    · exact ih hs.2 hm
    · rename_i hx
      rw [decide_eq_true_eq, not_le] at hx
      rcases List.mem_cons.1 hm with rfl | hm
      · exact hx
      · exact hx.trans (hs.1 m hm)

lemma Marked.call {built : ℕ → ℕ} (h : Marked built r) (c : OrderCall F)
    (hc : c.Admitted built) : Marked built (r.call c).1 := by
  have hcalled := r.called c
  generalize r.call c = next at hcalled
  cases hcalled with
  | same c hlate => exact h
  | fails c => exact ⟨by simp [fail], by simp [fail], by simp [fail]⟩
  | marks nowMs m hfloor =>
    have hlast : ∀ x ∈ r.marks, x.1 < m := by
      intro x hx
      rcases List.eq_nil_or_concat' r.marks with hnil | ⟨ms, y, hms⟩
      · simp [hnil] at hx
      · rw [hms, List.getLast?_concat] at hfloor
        have hsorted := h.sorted
        rw [hms] at hx hsorted
        rcases List.mem_append.1 hx with hx | hx
        · exact ((List.pairwise_append.1 hsorted).2.2 x hx y (by simp)).trans hfloor
        · rw [List.mem_singleton.1 hx]
          exact hfloor
    have hnext : r.next < m := by
      cases hms : r.marks.getLast? with
      | none => simpa [hms] using hfloor
      | some y =>
        have hmem := List.mem_of_getLast? hms
        exact (h.above y hmem).trans (hlast y hmem)
    refine ⟨fun x hx => ?_, ?_, fun x hx => ?_⟩
    · rcases List.mem_append.1 hx with hx | hx
      · exact h.above x hx
      · rw [List.mem_singleton.1 hx]
        exact hnext
    · rw [List.pairwise_append]
      refine ⟨h.sorted, List.pairwise_singleton _ _, fun x hx y hy => ?_⟩
      rw [List.mem_singleton.1 hy]
      exact hlast x hx
    · rcases List.mem_append.1 hx with hx | hx
      · exact h.admitted x hx
      · rw [List.mem_singleton.1 hx]
        exact hc
  | takes nowMs s f pending r' out hfailed hspent hs hpending hframe hrest =>
    have hsub : ∀ x ∈ r'.dischargeMarks.marks, x ∈ r.marks := fun x hx =>
      hframe.1 ▸ (List.dropWhile_sublist _).subset hx
    refine ⟨fun x hx => ?_, ?_, fun x hx => h.admitted x (hsub x hx)⟩
    · exact lt_of_mem_dropWhile (hframe.1.symm ▸ h.sorted) hx
    · simp only [dischargeMarks, hframe.1]
      exact h.sorted.sublist (List.dropWhile_sublist _)

lemma marked_run {built : ℕ → ℕ} {calls : List (OrderCall F)}
    (hcalls : ∀ c ∈ calls, c.Admitted built) : Marked built (run calls).1 := by
  induction calls using List.reverseRecOn with
  | nil => exact marked_new built
  | append_singleton calls c ih =>
    rw [run_concat]
    exact (ih fun d hd => hcalls d (List.mem_append_left _ hd)).call c (hcalls c (by simp))

/-- Whatever shows that `next` is missing was built no earlier than it. -/
lemma arrival_built {built : ℕ → ℕ} (hmono : Monotone built) {calls : List (OrderCall F)}
    {out : List F} (hexact : Exact calls r out) (hmarked : Marked built r)
    (hcalls : ∀ c ∈ calls, c.Admitted built) {a : ℕ} (ha : a ∈ r.arrivals) :
    ∃ b, built r.next ≤ b ∧ (OnionExpiry.ofBuild b).admissibleAt a = true := by
  rcases mem_arrivals.1 ha with ⟨s, f, hget⟩ | ⟨m, hmem⟩
  · obtain ⟨hlt, -, hcall⟩ := hexact.pending s f a hget
    exact ⟨built s, hmono hlt.le, hcalls _ hcall⟩
  · obtain ⟨b, hb, hadmitted⟩ := hmarked.admitted _ hmem
    exact ⟨b, hb _ (hmarked.above _ hmem), hadmitted⟩

/-- A direction that fails on its clock misses a frame that cannot arrive any more. -/
lemma not_admissible_of_expire {built : ℕ → ℕ} (hmono : Monotone built)
    {calls : List (OrderCall F)} (hcalls : ∀ c ∈ calls, c.Admitted built)
    (hlive : (run calls).1.failed = none) {nowMs : ℕ} {gap : OnionSequenceGap}
    (hgap : ((run calls).1.expire nowMs).2 = .error gap) {t : ℕ} (ht : nowMs ≤ t) :
    (OnionExpiry.ofBuild (built gap.missing)).admissibleAt t = false := by
  rcases (run calls).1.expire_cases nowMs with ⟨gap', hfailed, -⟩ | ⟨-, hstalled, hexp⟩ | ⟨-, -, hexp⟩
  · rw [hlive] at hfailed
    cases hfailed
  · rw [hexp] at hgap
    obtain rfl := Except.error.inj hgap
    obtain ⟨a, ha, hle⟩ := stalledFor_iff.1 hstalled
    obtain ⟨b, hb, hadmitted⟩ := arrival_built hmono (exact_run calls) (marked_run hcalls) hcalls ha
    have hbound : (OnionExpiry.ofBuild (built (run calls).1.next)).asMs ≤ t := calc
      (OnionExpiry.ofBuild (built (run calls).1.next)).asMs
        ≤ (OnionExpiry.ofBuild b).asMs := OnionExpiry.asMs_mono hb
      _ ≤ a + onionAdmissionWindowMs := (admissibleAt_iff.1 hadmitted).2
      _ ≤ nowMs := hle
      _ ≤ t := ht
    rw [← Bool.not_eq_true, admissibleAt_iff, not_and_or, not_lt]
    exact Or.inl hbound
  · rw [hexp] at hgap
    cases hgap

/-! ### Any order of the first frames -/

/-- The arrival of a frame: its number, the frame and the instant. -/
abbrev FrameArrival (F : Type*) := OnionSequence × F × ℕ

/-- The calls of frames that arrive one after the other. -/
def acceptCalls (arrivals : List (FrameArrival F)) : List (OrderCall F) :=
  arrivals.map fun x => .accept x.2.2 x.1 x.2.1

lemma firstFrame_isSome_iff {arrivals : List (FrameArrival F)} {n : ℕ} :
    (firstFrame (acceptCalls arrivals) n).isSome ↔ ∃ x ∈ arrivals, x.1.val = n := by
  rw [firstFrame, List.findSome?_isSome_iff]
  simp [acceptCalls]

/-- The frames `0 … m` in an order of arrival in which none comes a loop validity or more behind a
later one. -/
structure InTime (m : ℕ) (arrivals : List (FrameArrival F)) : Prop where
  window : m < reorderWindow
  all : (arrivals.map fun x => x.1.val).Perm (List.range (m + 1))
  clock : arrivals.Pairwise fun x y => x.2.2 ≤ y.2.2
  inTime : arrivals.Pairwise fun x y => y.1 < x.1 → y.2.2 < x.2.2 + onionAdmissionWindowMs

/-- The direction while such frames arrive. -/
structure Open (calls : List (OrderCall F)) : Prop where
  failed : (run calls).1.failed = none
  marks : (run calls).1.marks = []

lemma InTime.le {m : ℕ} {arrivals : List (FrameArrival F)} (h : InTime m arrivals)
    {x : FrameArrival F} (hx : x ∈ arrivals) : x.1.val ≤ m := by
  have hmem := h.all.subset (List.mem_map_of_mem hx)
  rw [List.mem_range] at hmem
  omega

/-- Of the frames released so far none is above `m`, so the sequence space is not spent. -/
lemma InTime.unspent {m : ℕ} {before after : List (FrameArrival F)}
    (h : InTime m (before ++ after)) : (run (acceptCalls before)).1.exhausted = false := by
  by_contra hspent
  have hexact := exact_run (acceptCalls before)
  have hlength := hexact.length
  have hwindow := h.window
  unfold reorderWindow onionSurbPoolCapacity at hwindow
  rw [Bool.not_eq_false] at hspent
  rw [hspent, if_pos rfl] at hlength
  have hfirst := hexact.first (m + 1) _ (List.getElem?_eq_getElem (by omega))
  obtain ⟨y, hy, hval⟩ := firstFrame_isSome_iff.1 (Option.isSome_iff_exists.2 ⟨_, hfirst⟩)
  have := h.le (List.mem_append_left _ hy)
  omega

lemma next_absent {before : List (FrameArrival F)} (ho : Open (acceptCalls before))
    (hspent : (run (acceptCalls before)).1.exhausted = false) :
    ∀ y ∈ before, y.1 ≠ (run (acceptCalls before)).1.next := by
  intro y hy heq
  have hexact := exact_run (acceptCalls before)
  have hlength := hexact.length
  rw [hspent] at hlength
  rcases hexact.seen ho.failed _ (firstFrame_isSome_iff.2 ⟨y, hy, congrArg Fin.val heq⟩) with
    hlt | hwaits
  · simp only [Bool.false_eq_true, if_false] at hlength
    omega
  · obtain ⟨v, hv⟩ := Option.isSome_iff_exists.1 hwaits
    exact lt_irrefl _ (hexact.pending _ v.1 v.2 hv).1

/-- The next arrival finds the direction waiting for a frame that comes in time. -/
lemma InTime.not_stalled {m : ℕ} {before after : List (FrameArrival F)} {x : FrameArrival F}
    (h : InTime m (before ++ x :: after)) (ho : Open (acceptCalls before)) :
    (run (acceptCalls before)).1.stalledFor x.2.2 = false := by
  rw [← Bool.not_eq_true, stalledFor_iff]
  rintro ⟨a, ha, hlate⟩
  have hexact := exact_run (acceptCalls before)
  rcases mem_arrivals.1 ha with ⟨k, f, hget⟩ | ⟨n, hn⟩
  · obtain ⟨hlt, -, hcall⟩ := hexact.pending k f a hget
    obtain ⟨z, hz, heq⟩ := List.mem_map.1 hcall
    simp only [OrderCall.accept.injEq] at heq
    obtain ⟨rfl, rfl, rfl⟩ := heq
    -- the missing frame is among those still to come
    have hle := h.le (List.mem_append_left _ hz)
    rw [Fin.lt_def] at hlt
    have hmem := h.all.symm.subset (List.mem_range.2
      (show (run (acceptCalls before)).1.next.val < m + 1 by omega))
    obtain ⟨y, hy, hval⟩ := List.mem_map.1 hmem
    have hy' : y ∈ x :: after := by
      rcases List.mem_append.1 hy with hy | hy
      · exact absurd (Fin.ext hval) (next_absent ho h.unspent y hy)
      · exact hy
    have hclock : x.2.2 ≤ y.2.2 := by
      rcases List.mem_cons.1 hy' with rfl | hy'
      · exact le_rfl
      · exact (List.pairwise_cons.1 (List.pairwise_append.1 h.clock).2.1).1 y hy'
    have hintime := (List.pairwise_append.1 h.inTime).2.2 z hz y hy'
      (by rw [Fin.lt_def, hval]; exact hlt)
    omega
  · rw [ho.marks] at hn
    cases hn

lemma InTime.step {m : ℕ} {before after : List (FrameArrival F)} {x : FrameArrival F}
    (h : InTime m (before ++ x :: after)) (ho : Open (acceptCalls before)) :
    Open (acceptCalls (before ++ [x])) := by
  have hexact := exact_run (acceptCalls before)
  have hspent := h.unspent
  have hle := h.le (x := x) (by simp)
  have hwindow := h.window
  have hlength := hexact.length
  rw [hspent] at hlength
  simp only [Bool.false_eq_true, if_false] at hlength
  have hlate : ¬ x.1 < (run (acceptCalls before)).1.next := by
    intro hlt
    rw [Fin.lt_def, ← hlength] at hlt
    have hfirst := hexact.first _ _ (List.getElem?_eq_getElem hlt)
    obtain ⟨y, hy, hval⟩ := firstFrame_isSome_iff.1 (Option.isSome_iff_exists.2 ⟨_, hfirst⟩)
    have hnodup : ((before ++ x :: after).map fun x => x.1.val).Nodup :=
      h.all.nodup_iff.2 List.nodup_range
    rw [List.map_append, List.nodup_append] at hnodup
    exact hnodup.2.2 _ (List.mem_map_of_mem hy) _ (by simp) hval
  have hexp : (run (acceptCalls before)).1.expire x.2.2 = ((run (acceptCalls before)).1, .ok ()) := by
    unfold expire
    rw [ho.failed]
    simp only [h.not_stalled ho, Bool.false_eq_true, if_false]
  have hrun : run (acceptCalls (before ++ [x])) =
      (((run (acceptCalls before)).1.call (.accept x.2.2 x.1 x.2.1)).1,
        (run (acceptCalls before)).2 ++
          ((run (acceptCalls before)).1.call (.accept x.2.2 x.1 x.2.1)).2) := by
    rw [acceptCalls, List.map_append]
    exact run_concat _ _
  have hbeyond : ¬ x.1.val - (run (acceptCalls before)).1.next.val ≥ reorderWindow := by omega
  constructor <;> rw [hrun] <;>
    simp only [call, accept, hexp, hspent, hlate, hbeyond, Bool.false_eq_true, if_false,
      dischargeMarks]
  · rw [(releaseLoop_frame _ _).2]
    exact ho.failed
  · rw [(releaseLoop_frame _ _).1]
    simp [ho.marks]

lemma InTime.released {m : ℕ} {arrivals : List (FrameArrival F)} (h : InTime m arrivals) :
    (run (acceptCalls arrivals)).1.failed = none ∧
      (run (acceptCalls arrivals)).2.length = m + 1 := by
  have hopen : ∀ before after, arrivals = before ++ after → Open (acceptCalls before) := by
    intro before
    induction before using List.reverseRecOn with
    | nil => exact fun _ _ => ⟨rfl, rfl⟩
    | append_singleton before x ih =>
      intro after heq
      rw [List.append_assoc, List.singleton_append] at heq
      exact (heq ▸ h).step (ih _ heq)
  have ho := hopen arrivals [] (by simp)
  have hexact := exact_run (acceptCalls arrivals)
  have hspent : (run (acceptCalls arrivals)).1.exhausted = false :=
    @InTime.unspent F m arrivals [] (by rwa [List.append_nil])
  refine ⟨ho.failed, ?_⟩
  have hlength := hexact.length
  rw [hspent] at hlength
  simp only [Bool.false_eq_true, if_false] at hlength
  refine le_antisymm ?_ ?_
  · by_contra hlt
    have hfirst := hexact.first (m + 1) _ (List.getElem?_eq_getElem (by omega))
    obtain ⟨y, hy, hval⟩ := firstFrame_isSome_iff.1 (Option.isSome_iff_exists.2 ⟨_, hfirst⟩)
    have := h.le hy
    omega
  · by_contra hlt
    have hmem := h.all.symm.subset (List.mem_range.2
      (show (run (acceptCalls arrivals)).1.next.val < m + 1 by omega))
    obtain ⟨y, hy, hval⟩ := List.mem_map.1 hmem
    exact next_absent ho hspent y hy (Fin.ext hval)

/-! ### The window -/

lemma mark_next (r : OnionReorder F) (nowMs : ℕ) (m : OnionSequence) :
    (r.mark nowMs m).1.next = r.next := by
  unfold mark
  rcases r.expire_cases nowMs with ⟨gap, -, hexp⟩ | ⟨-, -, hexp⟩ | ⟨-, -, hexp⟩
  · simp only [hexp]
  · simp only [hexp]
    rfl
  · simp only [hexp]
    split <;> rfl

/-- What is released is the frames `0, 1, 2, …` as they first came. Frames that arrive in time are
all released, a mark releases none, and a direction that fails on its clock misses a frame that
cannot arrive any more. -/
theorem reorder_exact (calls : List (OrderCall F)) :
    ((∀ i f, (run calls).2[i]? = some f → firstFrame calls i = some f) ∧
      (run calls).2.length = if (run calls).1.exhausted then 2 ^ 32 else (run calls).1.next.val) ∧
    (∀ m (arrivals : List (FrameArrival F)), InTime m arrivals → (run (acceptCalls arrivals)).1.failed = none ∧
      (run (acceptCalls arrivals)).2.length = m + 1 ∧
      ∀ i f, (run (acceptCalls arrivals)).2[i]? = some f →
        firstFrame (acceptCalls arrivals) i = some f) ∧
    (∀ nowMs m, (run (calls ++ [.mark nowMs m])).2 = (run calls).2 ∧
      (run (calls ++ [.mark nowMs m])).1.next = (run calls).1.next) ∧
    ∀ built : ℕ → ℕ, Monotone built → (∀ c ∈ calls, c.Admitted built) →
      (run calls).1.failed = none → ∀ nowMs gap,
        ((run calls).1.expire nowMs).2 = .error gap → ∀ t, nowMs ≤ t →
          (OnionExpiry.ofBuild (built gap.missing)).admissibleAt t = false := by
  have hexact := exact_run calls
  refine ⟨⟨hexact.first, hexact.length⟩, fun m arrivals h => ?_, fun nowMs m => ?_,
    fun built hmono hcalls hlive nowMs gap hgap t ht => ?_⟩
  · exact ⟨h.released.1, h.released.2, (exact_run (acceptCalls arrivals)).first⟩
  · rw [run_concat]
    exact ⟨List.append_nil _, mark_next _ nowMs m⟩
  · exact not_admissible_of_expire hmono hcalls hlive hgap ht

/-- A frame overtaken by the next one, just in time; and a gap once it is late. -/
theorem reorder_exact_overtaken :
    (run (acceptCalls [((1 : OnionSequence), true, 0), (0, false, 149999)])).2.length = 2 ∧
      ∀ t, 150000 ≤ t → (OnionExpiry.ofBuild 0).admissibleAt t = false := by
  obtain ⟨-, hreleases, -, hexpires⟩ := reorder_exact [OrderCall.accept 0 (1 : OnionSequence) true]
  refine ⟨(hreleases 1 [(1, true, 0), (0, false, 149999)] ⟨by decide, by decide, by decide,
    by decide⟩).2.1, fun t ht => ?_⟩
  exact hexpires (fun _ => 0) monotone_const (by simp [OrderCall.Admitted]; decide +kernel)
    (by decide +kernel) 150000 ⟨0⟩ (by decide +kernel) t ht

/-- A frame that comes a loop validity behind the next one finds the direction failed; and a frame
beyond the window fails it while the first one can still arrive. -/
theorem reorder_fails_early :
    (run (acceptCalls [((1 : OnionSequence), true, 0), (0, false, 150000)])).2 = [] ∧
      (∀ c ∈ [OrderCall.accept 0 (256 : OnionSequence) true], c.Admitted fun _ => 0) ∧
      ((run [OrderCall.accept 0 (256 : OnionSequence) true]).1.expire 0).2 = .error ⟨0⟩ ∧
      (OnionExpiry.ofBuild 0).admissibleAt 0 = true := by
  refine ⟨by decide +kernel, ?_, by decide +kernel, by decide +kernel⟩
  simp [OrderCall.Admitted]
  decide +kernel

end OnionReorder

end Rings.Onion
