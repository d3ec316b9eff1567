import Rings.BTreeMap
import Rings.ReplayWindow

/-!
The receive side of one TCP relay direction.

Segments are numbered by their sender and written in that order. Those that arrive ahead of a
missing one wait, within a window; the half-close carries the number of segments sent, so the
direction is finished only once that many were written. Everything the state says about the
segments taken so far is read off the list of these arrivals.
-/

namespace Rings

namespace BTreeMap

variable {K V : Type*} [LinearOrder K] {m : BTreeMap K V} {k : K} {v : V}

/-- `last_key_value`: the pair of the greatest key. -/
def lastKeyValue (m : BTreeMap K V) : Option (K × V) := m.entries.getLast?

lemma get?_of_lastKeyValue {kv : K × V} (h : m.lastKeyValue = some kv) :
    m.get? kv.1 = some kv.2 :=
  (mem_entries m).1 (List.mem_of_getLast? h)

lemma le_of_lastKeyValue {kv : K × V} (h : m.lastKeyValue = some kv) (hk : m.get? k = some v) :
    k ≤ kv.1 := by
  obtain ⟨l, hl⟩ := List.getLast?_eq_some_iff.1 h
  have hmem := (mem_entries m).2 hk
  have hasc := m.ascending
  rw [hl] at hmem hasc
  rcases List.mem_append.1 hmem with hmem | hmem
  · exact ((List.pairwise_append.1 hasc).2.2 _ hmem kv (List.mem_singleton_self kv)).le
  · rw [List.mem_singleton] at hmem
    rw [← hmem]

lemma get?_eq_none_of_lastKeyValue (h : m.lastKeyValue = none) (k : K) : m.get? k = none := by
  rw [get?, List.getLast?_eq_none_iff.1 h, List.lookup_nil]

/-- A map has no more pairs than the interval its keys lie in has members. -/
lemma size_le_of_mem_Ico {m : BTreeMap ℕ V} {a b : ℕ}
    (h : ∀ k v, m.get? k = some v → a ≤ k ∧ k < b) : m.size ≤ b - a := by
  have hsub : (m.entries.map Prod.fst).toFinset ⊆ Finset.Ico a b := by
    intro k hk
    obtain ⟨kv, hkv, rfl⟩ := List.mem_map.1 (List.mem_toFinset.1 hk)
    exact Finset.mem_Ico.2 (h kv.1 kv.2 ((mem_entries m).1 hkv))
  have hcard := Finset.card_le_card hsub
  rwa [List.toFinset_card_of_nodup m.nodup, List.length_map, Nat.card_Ico] at hcard

end BTreeMap

namespace Transport

inductive StreamFault
  | overrun (next seq : ℕ)
  | repeated (seq : ℕ)
  | pastFin (seq sent : ℕ)
  | badFin (sent : ℕ)
  | unfilled (next : ℕ)
deriving DecidableEq

structure Ready (α : Type*) where
  segments : List α
  finished : Bool

structure StreamReorder (α : Type*) where
  next : ℕ
  ahead : BTreeMap ℕ α
  fin : Option ℕ

namespace StreamReorder

variable {α : Type*}

def new : StreamReorder α := ⟨0, .empty, none⟩

def finished (r : StreamReorder α) : Bool := r.fin == some r.next

def gap (r : StreamReorder α) : Option ℕ :=
  let shownSent := !r.ahead.entries.isEmpty || r.fin.isSome
  if !r.finished && shownSent then some r.next else none

/-- The loop of `release`, which takes at most as many turns as segments wait. -/
def releaseLoop : ℕ → StreamReorder α → StreamReorder α × List α
  | 0, r => (r, [])
  | turns + 1, r =>
    match r.ahead.get? r.next with
    | none => (r, [])
    | some bytes =>
      let rest := releaseLoop turns { r with ahead := r.ahead.remove r.next, next := r.next + 1 }
      (rest.1, bytes :: rest.2)

/-- Move the contiguous segments from `next` on out of `ahead`. -/
def release (r : StreamReorder α) : StreamReorder α × Ready α :=
  let released := releaseLoop r.ahead.size r
  (released.1, ⟨released.2, released.1.finished⟩)

def data (r : StreamReorder α) (seq : ℕ) (bytes : α) :
    Except StreamFault (StreamReorder α × Ready α) :=
  match r.fin.filter fun sent => sent ≤ seq with
  | some sent => .error (.pastFin seq sent)
  | none =>
    if seq < r.next ∨ (r.ahead.get? seq).isSome then .error (.repeated seq)
    else if seq - r.next ≥ reorderWindow then .error (.overrun r.next seq)
    else .ok { r with ahead := r.ahead.insert seq bytes }.release

/-- Accept the half-close counting `sent` segments. -/
def acceptFin (r : StreamReorder α) (sent : ℕ) :
    Except StreamFault (StreamReorder α × Ready α) :=
  let beyondSeen := (r.ahead.lastKeyValue).elim r.next fun kv => kv.1 + 1
  if r.fin.isSome ∨ sent < beyondSeen then .error (.badFin sent)
  else .ok { r with fin := some sent }.release

/-! ### The loop of `release` -/

/-- What a release leaves waiting, and what it writes: the segments from `next` on up to the
first that does not wait. -/
structure Released (r r' : StreamReorder α) (segments : List α) : Prop where
  fin : r'.fin = r.fin
  le : r.next ≤ r'.next
  blocked : r'.ahead.get? r'.next = none
  waited : ∀ k, r.next ≤ k → k < r'.next → (r.ahead.get? k).isSome
  ahead : ∀ k, r'.ahead.get? k = if r.next ≤ k ∧ k < r'.next then none else r.ahead.get? k
  written : ∀ sent : List α, (∀ k b, r.ahead.get? k = some b → sent[k]? = some b) →
    sent.take r'.next = sent.take r.next ++ segments

lemma released_releaseLoop (turns : ℕ) (r : StreamReorder α) (h : r.ahead.size ≤ turns) :
    Released r (releaseLoop turns r).1 (releaseLoop turns r).2 := by
  induction turns generalizing r with
  | zero =>
    have hempty : ∀ k, r.ahead.get? k = none := by
      intro k
      rw [BTreeMap.get?, List.length_eq_zero_iff.1 (Nat.le_zero.1 h), List.lookup_nil]
    exact ⟨rfl, le_rfl, hempty _, fun k h1 h2 => absurd h1 (by simpa [releaseLoop] using h2),
      fun k => by simp [releaseLoop, hempty], fun sent _ => by simp [releaseLoop]⟩
  | succ turns ih =>
    cases hb : r.ahead.get? r.next with
    | none =>
      simp only [releaseLoop, hb]
      exact ⟨rfl, le_rfl, hb, fun k h1 h2 => absurd h1 (by omega),
        fun k => by rw [if_neg (by omega)], fun sent _ => by simp⟩
    | some bytes =>
      simp only [releaseLoop, hb]
      have hsize := BTreeMap.size_remove hb
      have hrest := ih { r with ahead := r.ahead.remove r.next, next := r.next + 1 }
        (by simp only; omega)
      obtain ⟨hfin, hle, hblocked, hwaited, hahead, hwritten⟩ := hrest
      simp only [BTreeMap.get?_remove] at hle hwaited hahead hwritten
      refine ⟨hfin, by omega, hblocked, ?_, ?_, ?_⟩
      · intro k h1 h2
        rcases Nat.eq_or_lt_of_le h1 with rfl | h1
        · simp [hb]
        · have := hwaited k h1 h2
          rwa [if_neg (by omega)] at this
      · intro k
        rw [hahead k]
        by_cases hk : k = r.next
        · subst hk
          simp [show r.next < (releaseLoop turns _).1.next from hle]
        · rw [if_neg hk]
          exact if_congr (by omega) rfl rfl
      · intro sent hsent
        rw [hwritten sent fun k b hk => ?_]
        · rw [List.take_add_one, hsent _ _ hb]
          simp
        · split at hk
          · cases hk
          · exact hsent k b hk

lemma Released.next_le {r r' : StreamReorder α} {segments sent : List α}
    (h : Released r r' segments) (hsent : ∀ k b, r.ahead.get? k = some b → sent[k]? = some b)
    (hle : r.next ≤ sent.length) : r'.next ≤ sent.length := by
  rcases Nat.eq_or_lt_of_le h.le with heq | hlt
  · omega
  · obtain ⟨b, hb⟩ := Option.isSome_iff_exists.1 (h.waited (r'.next - 1) (by omega) (by omega))
    have := (List.getElem?_eq_some_iff.1 (hsent _ _ hb)).1
    omega

lemma release_spec (r : StreamReorder α) : Released r r.release.1 r.release.2.segments :=
  released_releaseLoop _ r le_rfl

/-! ### What the state says about the segments taken so far -/

/-- The state after taking the segments at the positions in `seen`. -/
structure Tracks (r : StreamReorder α) (seen : Set ℕ) : Prop where
  below : ∀ k < r.next, k ∈ seen
  waits : ∀ k, r.next ≤ k → (k ∈ seen ↔ (r.ahead.get? k).isSome)
  blocked : r.ahead.get? r.next = none
  window : ∀ k b, r.ahead.get? k = some b → r.next ≤ k ∧ k < r.next + reorderWindow
  counted : ∀ sent, r.fin = some sent → ∀ k ∈ seen, k < sent

/-- The waiting segments are those of the peer's stream `sent`. -/
def Carries (r : StreamReorder α) (sent : List α) : Prop :=
  ∀ k b, r.ahead.get? k = some b → sent[k]? = some b

variable {r r' : StreamReorder α} {seen : Set ℕ} {seq n : ℕ} {bytes : α} {ready : Ready α}
  {sent sent' : List α}

lemma tracks_new : (new : StreamReorder α).Tracks ∅ where
  below k hk := absurd hk (Nat.not_lt_zero k)
  waits k _ := by simp [new]
  blocked := rfl
  window k b h := by simp [new] at h
  counted n h := by simp [new] at h

lemma carries_new : (new : StreamReorder α).Carries sent := fun k b h => by simp [new] at h

lemma Carries.mono (h : r.Carries sent) (hs : sent <+: sent') : r.Carries sent' := by
  intro k b hb
  obtain ⟨rest, rfl⟩ := hs
  have hk := h k b hb
  rw [List.getElem?_append_left (List.getElem?_eq_some_iff.1 hk).1]
  exact hk

namespace Tracks

lemma next_notMem (h : r.Tracks seen) : r.next ∉ seen := by
  rw [h.waits r.next le_rfl, h.blocked]
  simp

lemma next_le (h : r.Tracks seen) (hfin : r.fin = some n) : r.next ≤ n := by
  by_contra hlt
  have := h.counted n hfin n (h.below n (by omega))
  omega

lemma size_le (h : r.Tracks seen) : r.ahead.size ≤ reorderWindow - 1 := by
  have hsize : r.ahead.size ≤ (r.next + reorderWindow) - (r.next + 1) := by
    refine BTreeMap.size_le_of_mem_Ico fun k b hk => ?_
    obtain ⟨hle, hlt⟩ := h.window k b hk
    have hne : k ≠ r.next := by
      rintro rfl
      rw [h.blocked] at hk
      cases hk
    omega
  omega

lemma finished_iff (h : r.Tracks seen) (hfin : r.fin = some n) :
    r.finished = true ↔ ¬ r.next < n := by
  have := h.next_le hfin
  simp only [finished, hfin, beq_iff_eq, Option.some.injEq]
  omega

/-- The open gap is the first segment missing, once a later one or the half-close was seen. -/
lemma gap_eq_some_iff (h : r.Tracks seen) :
    r.gap = some n ↔ (∀ k < n, k ∈ seen) ∧ n ∉ seen ∧ (∀ m, r.fin = some m → n < m) ∧
      ((∃ k ∈ seen, n < k) ∨ r.fin.isSome) := by
  have hempty : r.ahead.entries.isEmpty = true ↔ ∀ k ∈ seen, ¬ r.next < k := by
    rw [List.isEmpty_iff]
    constructor
    · intro hnil k hk hlt
      have := (h.waits k hlt.le).1 hk
      simp [BTreeMap.get?, hnil] at this
    · intro hnone
      refine List.eq_nil_iff_forall_not_mem.2 fun kv hkv => ?_
      have hget := (BTreeMap.mem_entries r.ahead).1 hkv
      have hle := (h.window _ _ hget).1
      have hmem : kv.1 ∈ seen := (h.waits kv.1 hle).2 (by simp [hget])
      rcases Nat.eq_or_lt_of_le hle with heq | hlt
      · rw [← heq, h.blocked] at hget
        cases hget
      · exact hnone _ hmem hlt
  have hfirst : (∀ k < n, k ∈ seen) ∧ n ∉ seen ↔ n = r.next := by
    constructor
    · rintro ⟨hbelow, hn⟩
      rcases Nat.lt_trichotomy n r.next with hlt | heq | hlt
      · exact absurd (h.below n hlt) hn
      · exact heq
      · exact absurd (hbelow _ hlt) h.next_notMem
    · rintro rfl
      exact ⟨h.below, h.next_notMem⟩
  rw [← and_assoc, hfirst]
  simp only [gap]
  constructor
  · intro hgap
    split at hgap
    · rename_i hopen
      obtain rfl := Option.some.inj hgap
      simp only [Bool.and_eq_true, Bool.not_eq_true', Bool.or_eq_true] at hopen
      refine ⟨rfl, fun m hm => ?_, hopen.2.imp_left fun hne => ?_⟩
      · by_contra hlt
        exact absurd ((h.finished_iff hm).2 hlt) (by simp [hopen.1])
      · by_contra hnone
        push Not at hnone
        rw [hempty.2 fun k hk => not_lt.2 (hnone k hk)] at hne
        cases hne
    · cases hgap
  · rintro ⟨rfl, hcounted, hshown⟩
    refine if_pos ?_
    simp only [Bool.and_eq_true, Bool.not_eq_true', Bool.or_eq_true]
    refine ⟨?_, hshown.imp_left fun hahead => ?_⟩
    · cases hfin : r.fin with
      | none => simp [finished, hfin]
      | some m =>
        have := (h.finished_iff hfin).not.2 (not_not.2 (hcounted m hfin))
        simpa using this
    · obtain ⟨k, hk, hlt⟩ := hahead
      by_contra hne
      exact hempty.1 (by simpa using hne) k hk hlt

end Tracks

/-- Writing out what no longer waits leaves the same segments taken. -/
lemma tracks_release (hbelow : ∀ k < r.next, k ∈ seen)
    (hwaits : ∀ k, r.next ≤ k → (k ∈ seen ↔ (r.ahead.get? k).isSome))
    (hwindow : ∀ k b, r.ahead.get? k = some b → r.next ≤ k ∧ k < r.next + reorderWindow)
    (hcounted : ∀ sent, r.fin = some sent → ∀ k ∈ seen, k < sent) : r.release.1.Tracks seen := by
  have hr := release_spec r
  constructor
  case below =>
    intro k hk
    rcases Nat.lt_or_ge k r.next with hlt | hge
    · exact hbelow k hlt
    · exact (hwaits k hge).2 (hr.waited k hge hk)
  case waits =>
    intro k hk
    rw [hr.ahead, if_neg (by omega), hwaits k (hr.le.trans hk)]
  case blocked => exact hr.blocked
  case window =>
    intro k b hk
    rw [hr.ahead] at hk
    split at hk
    · cases hk
    · have hle := hr.le
      have := hwindow k b hk
      omega
  case counted =>
    intro n hn
    rw [hr.fin] at hn
    exact hcounted n hn

lemma carries_release (h : r.Carries sent) : r.release.1.Carries sent := by
  intro k b hk
  rw [(release_spec r).ahead] at hk
  split at hk
  · cases hk
  · exact h k b hk

/-- A segment that is accepted is new, and everything up to the next one missing is written. -/
lemma data_spec (h : r.Tracks seen) (hr : r.data seq bytes = .ok (r', ready)) :
    seq ∉ seen ∧ r'.Tracks (insert seq seen) ∧ r'.fin = r.fin ∧ ready.finished = r'.finished ∧
      ∀ sent : List α, r.Carries sent → sent[seq]? = some bytes →
        r'.Carries sent ∧ (r.next ≤ sent.length → r'.next ≤ sent.length) ∧
          sent.take r'.next = sent.take r.next ++ ready.segments := by
  unfold data at hr
  split at hr
  · cases hr
  rename_i hpast
  split at hr
  · cases hr
  rename_i hrepeated
  split at hr
  · cases hr
  rename_i hover
  push Not at hrepeated hover
  have hmem : seq ∉ seen := by
    rw [h.waits seq hrepeated.1]
    simpa using hrepeated.2
  cases hr
  have hspec := release_spec { r with ahead := r.ahead.insert seq bytes }
  refine ⟨hmem, tracks_release ?_ ?_ ?_ ?_, hspec.fin, rfl, fun sent hcarries hsent => ?_⟩
  · exact fun k hk => Set.mem_insert_of_mem _ (h.below k hk)
  · intro k hk
    rw [Set.mem_insert_iff, BTreeMap.get?_insert]
    by_cases hkseq : k = seq
    · simp [hkseq]
    · rw [if_neg hkseq, or_iff_right hkseq, h.waits k hk]
  · intro k b hk
    rw [BTreeMap.get?_insert] at hk
    split at hk
    · rename_i hkseq
      subst hkseq
      exact ⟨hrepeated.1, by simp only; omega⟩
    · exact h.window k b hk
  · rintro n hn k (rfl | hk)
    · simpa [show r.fin = some n from hn] using hpast
    · exact h.counted n hn k hk
  · have hinsert : StreamReorder.Carries { r with ahead := r.ahead.insert seq bytes } sent := by
      intro k b hk
      rw [BTreeMap.get?_insert] at hk
      split at hk
      · rename_i hkseq
        rw [hkseq, hsent, hk]
      · exact hcarries k b hk
    exact ⟨carries_release hinsert, hspec.next_le hinsert, hspec.written sent hinsert⟩

/-- A half-close that is accepted is the first, and counts every segment taken. -/
lemma acceptFin_spec (h : r.Tracks seen) (hr : r.acceptFin n = .ok (r', ready)) :
    r.fin = none ∧ r'.Tracks seen ∧ r'.fin = some n ∧ ready.finished = r'.finished ∧
      ∀ sent : List α, r.Carries sent →
        r'.Carries sent ∧ (r.next ≤ sent.length → r'.next ≤ sent.length) ∧
          sent.take r'.next = sent.take r.next ++ ready.segments := by
  unfold acceptFin at hr
  simp only at hr
  split at hr
  · cases hr
  rename_i hbad
  push Not at hbad
  obtain ⟨hnone, hbeyond⟩ := hbad
  cases hr
  have hspec := release_spec { r with fin := some n }
  refine ⟨by simpa using hnone, tracks_release h.below h.waits h.window ?_, hspec.fin, rfl,
    fun sent hcarries => ⟨carries_release hcarries, hspec.next_le hcarries,
      hspec.written sent hcarries⟩⟩
  rintro _ ⟨rfl⟩ k hk
  cases hlast : r.ahead.lastKeyValue with
  | none =>
    rw [hlast] at hbeyond
    by_contra hlt
    have := (h.waits k (le_trans hbeyond (not_lt.1 hlt))).1 hk
    rw [BTreeMap.get?_eq_none_of_lastKeyValue hlast] at this
    cases this
  | some kv =>
    rw [hlast] at hbeyond
    have hmax := BTreeMap.get?_of_lastKeyValue hlast
    have hnext := (h.window _ _ hmax).1
    rcases Nat.lt_or_ge k r.next with hlt | hge
    · simp only [Option.elim_some] at hbeyond
      omega
    · obtain ⟨b, hb⟩ := Option.isSome_iff_exists.1 ((h.waits k hge).1 hk)
      have := BTreeMap.le_of_lastKeyValue hlast hb
      simp only [Option.elim_some] at hbeyond
      omega

end StreamReorder

end Transport

end Rings
