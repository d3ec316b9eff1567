import Mathlib.Data.Finset.Card
import Mathlib.Data.List.Nodup
import Mathlib.Tactic

/-!
Distinct representatives by augmenting paths. Positions are matched one after the other; a position
takes a free candidate, or one whose owner can be matched again. A search that fails has visited a
set of candidates too small for the positions that want them.
-/

namespace Rings.Matching

variable {α : Type*}

def HasRepresentatives (families : List (List α)) (excluded : α → Prop) : Prop :=
  ∃ reps : List α, List.Forall₂ (fun c family => c ∈ family ∧ ¬ excluded c) reps families ∧
    reps.Nodup

/-- The first candidate of `l` on which `f` succeeds; `f` also changes the state where it fails. -/
def anyWith {σ : Type*} (f : α → σ → Bool × σ) : List α → σ → Bool × σ
  | [], s => (false, s)
  | c :: l, s =>
    match f c s with
    | (true, s) => (true, s)
    | (false, s) => anyWith f l s

structure Search (α : Type*) where
  owner : α → Option ℕ
  visited : Finset α

variable [DecidableEq α] (candidates : ℕ → List α) (excluded : α → Bool)

/-- Extend the matching to cover `position`, matching others again along an augmenting path of at
most `fuel` candidates. -/
def augment : ℕ → ℕ → Search α → Bool × Search α
  | 0, _, s => (false, s)
  | fuel + 1, position, s =>
    anyWith (fun c s =>
      if excluded c ∨ c ∈ s.visited then (false, s)
      else
        let s := { s with visited := insert c s.visited }
        let found := match s.owner c with
          | none => (true, s)
          | some other => augment fuel other s
        if found.1 then
          (true, { found.2 with owner := Function.update found.2.owner c (some position) })
        else found) (candidates position) s

def matchAll (search : ℕ → Search α → Bool × Search α) : List ℕ → (α → Option ℕ) → Bool
  | [], _ => true
  | position :: positions, owner =>
    match search position ⟨owner, ∅⟩ with
    | (true, s) => matchAll search positions s.owner
    | (false, _) => false

/-! ### What a search does -/

/-- `c` can be matched to `position`. -/
def Admits (position : ℕ) (c : α) : Prop := c ∈ candidates position ∧ ¬ excluded c

structure Matched (owner : α → Option ℕ) : Prop where
  admits : ∀ c i, owner c = some i → Admits candidates excluded i c
  unique : ∀ c c' i, owner c = some i → owner c' = some i → c = c'

/-- A failed search from `s` for the candidates `dids` ends in `s'`: the matching is the same, it
has visited the candidates it could, and every candidate it visited is matched to a position all of
whose candidates it has visited. -/
structure Failed (dids : List α) (s s' : Search α) : Prop where
  owner : s'.owner = s.owner
  visited : s.visited ⊆ s'.visited
  tried : ∀ c ∈ dids, ¬ excluded c → c ∈ s'.visited
  closed : ∀ c ∈ s'.visited, c ∉ s.visited →
    ∃ i, s.owner c = some i ∧ ∀ e, Admits candidates excluded i e → e ∈ s'.visited

/-- A search from `s` for `position` has found a candidate: it leaves what was visited alone, and
covers `position` and whatever was covered before. -/
structure Augmented (position : ℕ) (s s' : Search α) : Prop where
  frame : ∀ c ∈ s.visited, s'.owner c = s.owner c
  admits : ∀ c i, s'.owner c = some i → Admits candidates excluded i c
  covers : ∃ c ∉ s.visited, s'.owner c = some position
  keeps : ∀ i, (∃ c, s.owner c = some i) → ∃ c, s'.owner c = some i
  range : ∀ c i, s'.owner c = some i → i = position ∨ ∃ c', s.owner c' = some i
  unique : ∀ c c' i, s'.owner c = some i → s'.owner c' = some i →
    (i = position → c ∉ s.visited ∧ c' ∉ s.visited) → c = c'

variable {candidates} {excluded} {s s' s'' : Search α} {position : ℕ}

omit [DecidableEq α] in
theorem failed_nil : Failed candidates excluded [] s s where
  owner := rfl
  visited := subset_rfl
  tried := by simp
  closed c hc hnot := absurd hc hnot

theorem Failed.trans {c : α} {dids : List α} (h : Failed candidates excluded [c] s s')
    (h' : Failed candidates excluded dids s' s'') :
    Failed candidates excluded (c :: dids) s s'' where
  owner := h'.owner.trans h.owner
  visited := h.visited.trans h'.visited
  tried e he hex := by
    rcases List.mem_cons.1 he with rfl | he
    · exact h'.visited (h.tried e (by simp) hex)
    · exact h'.tried e he hex
  closed e he hnot := by
    by_cases hmid : e ∈ s'.visited
    · obtain ⟨i, hi, hall⟩ := h.closed e hmid hnot
      exact ⟨i, hi, fun e' he' => h'.visited (hall e' he')⟩
    · rw [← h.owner]
      exact h'.closed e he hmid

def Held (position : ℕ) (s : Search α) : Prop := ∀ c, s.owner c = some position → c ∈ s.visited

omit [DecidableEq α] in
theorem Failed.augmented {dids : List α} (h : Failed candidates excluded dids s s')
    (hheld : Held position s) (h' : Augmented candidates excluded position s' s'') :
    Augmented candidates excluded position s s'' := by
  obtain ⟨howner, hvisited, -, -⟩ := h
  refine ⟨fun c hc => ?_, h'.admits, ?_, ?_, ?_, fun c c' i hc hc' hi => ?_⟩
  · rw [h'.frame c (hvisited hc), howner]
  · obtain ⟨c, hc, hcov⟩ := h'.covers
    exact ⟨c, fun hmem => hc (hvisited hmem), hcov⟩
  · simpa [howner] using h'.keeps
  · simpa [howner] using h'.range
  · -- a candidate that `position` holds and that was visited since was visited before
    have hfresh : ∀ e, s''.owner e = some i → i = position → e ∉ s.visited → e ∉ s'.visited := by
      intro e he hip hnot hmem
      rw [h'.frame e hmem, howner, hip] at he
      exact hnot (hheld e he)
    exact h'.unique c c' i hc hc' fun hip =>
      ⟨hfresh c hc hip (hi hip).1, hfresh c' hc' hip (hi hip).2⟩

theorem augmented_free {c : α} (hm : Matched candidates excluded s.owner) (hheld : Held position s)
    (hc : Admits candidates excluded position c) (hfree : s.owner c = none)
    (hnot : c ∉ s.visited) :
    Augmented candidates excluded position s
      ⟨Function.update s.owner c (some position), insert c s.visited⟩ := by
  refine ⟨fun e he => ?_, fun e i he => ?_, ⟨c, hnot, by simp⟩, fun i hi => ?_, fun e i he => ?_,
    fun e e' i he he' hi => ?_⟩
  · have : e ≠ c := fun h => hnot (h ▸ he)
    simp [this]
  · by_cases hec : e = c
    · subst hec
      obtain rfl : position = i := by simpa using he
      exact hc
    · exact hm.admits e i (by simpa [hec] using he)
  · obtain ⟨e, he⟩ := hi
    have : e ≠ c := fun h => by simp [h, hfree] at he
    exact ⟨e, by simpa [this] using he⟩
  · by_cases hec : e = c
    · left
      simpa [hec, eq_comm] using he
    · exact .inr ⟨e, by simpa [hec] using he⟩
  · -- what `position` holds already was visited
    have hold : ∀ e, e ≠ c → Function.update s.owner c (some position) e = some i →
        i = position → e ∈ s.visited := by
      intro e hec he hip
      subst hip
      exact hheld e (by simpa [hec] using he)
    by_cases hec : e = c <;> by_cases hec' : e' = c
    · rw [hec, hec']
    · have hip : i = position := by simpa [hec, eq_comm] using he
      exact absurd (hold e' hec' he' hip) (hi hip).2
    · have hip : i = position := by simpa [hec', eq_comm] using he'
      exact absurd (hold e hec he hip) (hi hip).1
    · exact hm.unique e e' i (by simpa [hec] using he) (by simpa [hec'] using he')

/-- Another position gave `c` up, and `position` takes it. -/
theorem augmented_moved {c : α} {other : ℕ} (hm : Matched candidates excluded s.owner)
    (hheld : Held position s) (hc : Admits candidates excluded position c)
    (hother : s.owner c = some other) (hnot : c ∉ s.visited)
    (h : Augmented candidates excluded other { s with visited := insert c s.visited } s') :
    Augmented candidates excluded position s
      { s' with owner := Function.update s'.owner c (some position) } := by
  obtain ⟨hframe, hadmits, ⟨e₁, he₁, hcov⟩, hkeeps, hrange, hunique⟩ := h
  have hne : position ≠ other := fun h => hnot (hheld c (h ▸ hother))
  have hframe : ∀ e, e = c ∨ e ∈ s.visited → s'.owner e = s.owner e := by
    simpa using hframe
  simp only [Finset.mem_insert, not_or] at he₁ hunique
  refine ⟨fun e he => ?_, fun e i he => ?_, ⟨c, hnot, by simp⟩, fun i hi => ?_, fun e i he => ?_,
    fun e e' i he he' hi => ?_⟩
  · have : e ≠ c := fun h => hnot (h ▸ he)
    simp only [Function.update_of_ne this]
    exact hframe e (.inr he)
  · by_cases hec : e = c
    · subst hec
      obtain rfl : position = i := by simpa using he
      exact hc
    · exact hadmits e i (by simpa [hec] using he)
  · by_cases hio : i = other
    · subst hio
      exact ⟨e₁, by simpa [he₁.1] using hcov⟩
    · obtain ⟨e, he⟩ := hkeeps i hi
      have : e ≠ c := by
        rintro rfl
        rw [hframe e (.inl rfl), hother, Option.some.injEq] at he
        exact hio he.symm
      exact ⟨e, by simpa [this] using he⟩
  · by_cases hec : e = c
    · left
      simpa [hec, eq_comm] using he
    · right
      rcases hrange e i (by simpa [hec] using he) with rfl | h
      · exact ⟨c, hother⟩
      · exact h
  · -- `position` holds nothing else that was not visited before
    have hold : ∀ e, e ≠ c → s'.owner e = some position → e ∈ s.visited := by
      intro e hec he
      rcases hrange e position he with h | ⟨e₀, h₀⟩
      · exact absurd h hne
      · have hvis := hheld e₀ h₀
        have h₀' : s'.owner e₀ = some position := by rw [hframe e₀ (.inr hvis), h₀]
        have := hunique e e₀ position he h₀' fun h => absurd h hne
        exact this ▸ hvis
    -- nor does `other` hold anything that was visited, `c` apart
    have hother' : ∀ e, e ≠ c → s'.owner e = some other → e ∉ s.visited := by
      intro e hec he hvis
      rw [hframe e (.inr hvis)] at he
      exact hec (hm.unique e c other he hother)
    by_cases hec : e = c <;> by_cases hec' : e' = c
    · rw [hec, hec']
    · obtain rfl : position = i := by simpa [hec] using he
      exact absurd (hold e' hec' (by simpa [hec'] using he')) (hi rfl).2
    · obtain rfl : position = i := by simpa [hec'] using he'
      exact absurd (hold e hec (by simpa [hec] using he)) (hi rfl).1
    · have he : s'.owner e = some i := by simpa [hec] using he
      have he' : s'.owner e' = some i := by simpa [hec'] using he'
      refine hunique e e' i he he' fun hio => ?_
      subst hio
      exact ⟨⟨hec, hother' e hec he⟩, hec', hother' e' hec' he'⟩

theorem failed_moved {c : α} {other : ℕ} (hother : s.owner c = some other)
    (h : Failed candidates excluded (candidates other)
      { s with visited := insert c s.visited } s') :
    Failed candidates excluded [c] s s' := by
  have hmem : c ∈ s'.visited := h.visited (Finset.mem_insert_self c s.visited)
  refine ⟨h.owner, (Finset.subset_insert c s.visited).trans h.visited, ?_, fun e he hnot => ?_⟩
  · intro e he hex
    obtain rfl : e = c := by simpa using he
    exact hmem
  · by_cases hec : e = c
    · subst hec
      exact ⟨other, hother, fun e' he' => h.tried e' he'.1 he'.2⟩
    · exact h.closed e he (by simp [hec, hnot])

omit [DecidableEq α] in
theorem failed_skip {c : α} (h : excluded c ∨ c ∈ s.visited) :
    Failed candidates excluded [c] s s := by
  refine ⟨rfl, subset_rfl, fun e he hex => ?_, fun e he hnot => absurd he hnot⟩
  obtain rfl : e = c := by simpa using he
  exact h.resolve_left hex

/-- What a search for `position` from `s` gives, whether it succeeds or not. -/
def Searched (candidates : ℕ → List α) (excluded : α → Bool) (position : ℕ) (dids : List α)
    (s : Search α) (found : Bool × Search α) : Prop :=
  (found.1 = true → Augmented candidates excluded position s found.2) ∧
  (found.1 = false → Failed candidates excluded dids s found.2)

theorem anyWith_searched {f : α → Search α → Bool × Search α} {P : Search α → Prop}
    (hheld : ∀ s, P s → Held position s)
    (hP : ∀ s s' c, P s → Failed candidates excluded [c] s s' → P s') (dids : List α)
    (hf : ∀ c ∈ dids, ∀ s, P s → Searched candidates excluded position [c] s (f c s)) (hs : P s) :
    Searched candidates excluded position dids s (anyWith f dids s) := by
  induction dids generalizing s with
  | nil => exact ⟨by simp [anyWith], fun _ => failed_nil⟩
  | cons c dids ih =>
    obtain ⟨hyes, hno⟩ := hf c List.mem_cons_self s hs
    cases hfound : f c s with
    | mk found s₁ =>
      simp only [hfound] at hyes hno
      cases found with
      | true =>
        simp only [anyWith, hfound]
        exact ⟨fun _ => hyes rfl, by simp⟩
      | false =>
        have hfail := hno rfl
        obtain ⟨hyes', hno'⟩ := ih (fun e he => hf e (List.mem_cons_of_mem c he))
          (hP s s₁ c hs hfail)
        simp only [anyWith, hfound]
        exact ⟨fun h => hfail.augmented (hheld s hs) (hyes' h), fun h => hfail.trans (hno' h)⟩

theorem augment_searched {univ : Finset α}
    (huniv : ∀ i c, Admits candidates excluded i c → c ∈ univ) (fuel position : ℕ) (s : Search α)
    (hfuel : (univ \ s.visited).card < fuel) (hm : Matched candidates excluded s.owner)
    (hheld : Held position s) :
    Searched candidates excluded position (candidates position) s
      (augment candidates excluded fuel position s) := by
  induction fuel generalizing position s with
  | zero => omega
  | succ fuel ih =>
    refine anyWith_searched
      (P := fun s => (univ \ s.visited).card < fuel + 1 ∧ Matched candidates excluded s.owner ∧
        Held position s) (fun s hs => hs.2.2) ?_ (candidates position) ?_ ⟨hfuel, hm, hheld⟩
    · rintro s s' c ⟨hfuel, hm, hheld⟩ hfail
      refine ⟨lt_of_le_of_lt (Finset.card_le_card ?_) hfuel, hfail.owner ▸ hm, fun e he => ?_⟩
      · exact Finset.sdiff_subset_sdiff subset_rfl hfail.visited
      · exact hfail.visited (hheld e (hfail.owner ▸ he))
    · rintro c hcand s ⟨hfuel, hm, hheld⟩
      by_cases hskip : excluded c ∨ c ∈ s.visited
      · simp only [hskip, if_true]
        exact ⟨by simp, fun _ => failed_skip hskip⟩
      · simp only [hskip, if_false]
        obtain ⟨hex, hnot⟩ := not_or.1 hskip
        have hc : Admits candidates excluded position c := ⟨hcand, hex⟩
        cases hown : s.owner c with
        | none =>
          simp only [if_true]
          exact ⟨fun _ => augmented_free hm hheld hc hown hnot, by simp⟩
        | some other =>
          -- one candidate more is visited, so that the fuel suffices for the next search
          have hlt : (univ \ insert c s.visited).card < fuel := by
            have hsub : univ \ insert c s.visited ⊂ univ \ s.visited := by
              refine Finset.ssubset_iff_subset_ne.2 ⟨?_, fun h => ?_⟩
              · exact Finset.sdiff_subset_sdiff subset_rfl (Finset.subset_insert c s.visited)
              · have hmem : c ∈ univ \ s.visited := by simp [huniv position c hc, hnot]
                rw [← h] at hmem
                simp at hmem
            have := Finset.card_lt_card hsub
            omega
          obtain ⟨hyes, hno⟩ := ih other { s with visited := insert c s.visited } hlt hm
            (fun e he => by simp [hm.unique e c other he hown])
          cases hfound : (augment candidates excluded fuel other
              { s with visited := insert c s.visited }).1 with
          | true =>
            simp only [if_true]
            exact ⟨fun _ => augmented_moved hm hheld hc hown hnot (hyes hfound), by simp⟩
          | false =>
            simp only [Bool.false_eq_true, if_false]
            exact ⟨by simp [hfound], fun _ => failed_moved hown (hno hfound)⟩

/-! ### Representatives -/

/-- Distinct representatives of the first `n` positions. -/
def Represents (candidates : ℕ → List α) (excluded : α → Bool) {n : ℕ} (f : Fin n → α) : Prop :=
  Function.Injective f ∧ ∀ i : Fin n, Admits candidates excluded i (f i)

structure Covers (candidates : ℕ → List α) (excluded : α → Bool) (n : ℕ) (owner : α → Option ℕ) :
    Prop where
  matched : Matched candidates excluded owner
  covered : ∀ i, (∃ c, owner c = some i) ↔ i < n

omit [DecidableEq α] in
theorem Covers.representatives {n : ℕ} {owner : α → Option ℕ}
    (h : Covers candidates excluded n owner) :
    ∃ f : Fin n → α, Represents candidates excluded f := by
  choose f hf using fun i : Fin n => (h.covered i).2 i.isLt
  refine ⟨f, fun i j hij => Fin.ext ?_, fun i => h.matched.admits _ _ (hf i)⟩
  have hj := hf j
  rw [← hij, hf i, Option.some.injEq] at hj
  exact hj

omit [DecidableEq α] in
theorem Covers.augmented {n : ℕ} {owner : α → Option ℕ} (h : Covers candidates excluded n owner)
    (ha : Augmented candidates excluded n ⟨owner, ∅⟩ s') :
    Covers candidates excluded (n + 1) s'.owner := by
  refine ⟨⟨ha.admits, fun c c' i hc hc' => ?_⟩, fun i => ?_⟩
  · exact ha.unique c c' i hc hc' fun _ => by simp
  · constructor
    · rintro ⟨c, hc⟩
      rcases ha.range c i hc with rfl | hi
      · omega
      · have := (h.covered i).1 hi
        omega
    · intro hi
      rcases Nat.lt_succ_iff_lt_or_eq.1 hi with hi | rfl
      · exact ha.keeps i ((h.covered i).2 hi)
      · obtain ⟨c, -, hc⟩ := ha.covers
        exact ⟨c, hc⟩

omit [DecidableEq α] in
/-- After a failed search the candidates visited are one fewer than the positions that can take no
other. -/
theorem Covers.failed {n m : ℕ} {owner : α → Option ℕ} (h : Covers candidates excluded n owner)
    (hf : Failed candidates excluded (candidates n) ⟨owner, ∅⟩ s') (hnm : n < m) :
    ¬ ∃ f : Fin m → α, Represents candidates excluded f := by
  rintro ⟨f, hinj, hadm⟩
  have hown : ∀ c ∈ s'.visited, ∃ i, owner c = some i ∧
      ∀ e, Admits candidates excluded i e → e ∈ s'.visited := fun c hc => hf.closed c hc (by simp)
  choose! i hi hall using hown
  let wanting : Finset ℕ := insert n (s'.visited.image i)
  have hcard : wanting.card = s'.visited.card + 1 := by
    have hnot : n ∉ s'.visited.image i := by
      intro hn
      obtain ⟨c, hc, hcn⟩ := Finset.mem_image.1 hn
      have := (h.covered n).1 ⟨c, hcn ▸ hi c hc⟩
      omega
    rw [Finset.card_insert_of_notMem hnot, Finset.card_image_of_injOn]
    intro c hc c' hc' heq
    exact h.matched.unique c c' (i c) (hi c hc) (heq ▸ hi c' hc')
  have hlt : ∀ p ∈ wanting, p < m := by
    intro p hp
    rcases Finset.mem_insert.1 hp with rfl | hp
    · exact hnm
    · obtain ⟨c, hc, rfl⟩ := Finset.mem_image.1 hp
      have := (h.covered (i c)).1 ⟨c, hi c hc⟩
      omega
  have hvisited : ∀ p (hp : p ∈ wanting), f ⟨p, hlt p hp⟩ ∈ s'.visited := by
    intro p hp
    have hadm := hadm ⟨p, hlt p hp⟩
    rcases Finset.mem_insert.1 hp with rfl | hp
    · exact hf.tried _ hadm.1 hadm.2
    · obtain ⟨c, hc, rfl⟩ := Finset.mem_image.1 hp
      exact hall c hc _ hadm
  have hle : wanting.card ≤ s'.visited.card := by
    refine Finset.card_le_card_of_injOn
      (fun p => if hp : p < m then f ⟨p, hp⟩ else f ⟨n, hnm⟩) ?_ ?_
    · intro p hp
      simpa [hlt p hp] using hvisited p hp
    · intro p hp q hq heq
      simp only [hlt p hp, hlt q hq, dif_pos] at heq
      simpa using hinj heq
  omega

theorem matchAll_range' {univ : Finset α}
    (huniv : ∀ i c, Admits candidates excluded i c → c ∈ univ) {fuel : ℕ}
    (hfuel : univ.card < fuel) (n m : ℕ) {owner : α → Option ℕ}
    (h : Covers candidates excluded n owner) :
    matchAll (augment candidates excluded fuel) (List.range' n m) owner = true ↔
      ∃ f : Fin (n + m) → α, Represents candidates excluded f := by
  induction m generalizing n owner with
  | zero => exact iff_of_true rfl h.representatives
  | succ m ih =>
    have hheld : Held n (⟨owner, ∅⟩ : Search α) := by
      intro c hc
      have := (h.covered n).1 ⟨c, hc⟩
      omega
    obtain ⟨hyes, hno⟩ :=
      augment_searched huniv fuel n ⟨owner, ∅⟩ (by simpa using hfuel) h.matched hheld
    rw [List.range'_succ]
    cases hfound : augment candidates excluded fuel n ⟨owner, ∅⟩ with
    | mk found s₁ =>
      simp only [hfound] at hyes hno
      cases found with
      | true =>
        simp only [matchAll, hfound]
        rw [ih (n + 1) (h.augmented (hyes rfl)), show n + 1 + m = n + (m + 1) by omega]
      | false =>
        simp only [matchAll, hfound, Bool.false_eq_true, false_iff]
        exact h.failed (hno rfl) (by omega)

omit [DecidableEq α] in
theorem hasRepresentatives_iff (families : List (List α)) (excluded : α → Prop) :
    HasRepresentatives families excluded ↔
      ∃ f : Fin families.length → α, Function.Injective f ∧
        ∀ i, f i ∈ families[i] ∧ ¬ excluded (f i) := by
  constructor
  · rintro ⟨reps, hreps, hnodup⟩
    have hlt : ∀ i : Fin families.length, (i : ℕ) < reps.length := fun i =>
      i.isLt.trans_eq hreps.length_eq.symm
    refine ⟨fun i => reps.get ⟨i, hlt i⟩, fun i j hij => ?_, fun i => hreps.get (hlt i) i.isLt⟩
    exact Fin.ext (hnodup.getElem_inj_iff.1 hij)
  · rintro ⟨f, hinj, hf⟩
    refine ⟨List.ofFn f, List.forall₂_iff_get.2 ⟨by simp, fun i hi hi' => ?_⟩,
      List.nodup_ofFn.2 hinj⟩
    simpa using hf ⟨i, hi'⟩

/-- All positions can be matched exactly when the families have distinct representatives. -/
theorem matchAll_iff (families : List (List α)) {fuel : ℕ}
    (hfuel : families.flatten.length < fuel) :
    matchAll (augment (families.getD · []) excluded fuel) (List.range families.length)
      (fun _ => none) ↔
      HasRepresentatives families (fun c => excluded c) := by
  have huniv : ∀ i c, Admits (families.getD · []) excluded i c → c ∈ families.flatten.toFinset := by
    rintro i c ⟨hc, -⟩
    simp only [List.getD_eq_getElem?_getD] at hc
    by_cases hi : i < families.length
    · rw [List.getElem?_eq_getElem hi] at hc
      simpa using ⟨families[i], List.getElem_mem hi, hc⟩
    · rw [List.getElem?_eq_none (not_lt.1 hi)] at hc
      simp at hc
  have hstart : Covers (families.getD · []) excluded 0 (fun _ : α => none) :=
    ⟨⟨by simp, by simp⟩, by simp⟩
  rw [List.range_eq_range', matchAll_range' huniv
    ((List.toFinset_card_le _).trans_lt hfuel) 0 families.length hstart, hasRepresentatives_iff]
  rw [Nat.zero_add]
  refine exists_congr fun f => and_congr_right fun _ => forall_congr' fun i => ?_
  simp [Admits]

omit [DecidableEq α] in
/-- The first family takes a representative that leaves some for the others. -/
theorem hasRepresentatives_cons (family : List α) (families : List (List α))
    (excluded : α → Prop) :
    HasRepresentatives (family :: families) excluded ↔
      ∃ c ∈ family, ¬ excluded c ∧ HasRepresentatives families (fun d => d = c ∨ excluded d) := by
  constructor
  · rintro ⟨reps, hreps, hnodup⟩
    obtain ⟨c, reps', hc, hreps', rfl⟩ := List.forall₂_cons_right_iff.1 hreps
    obtain ⟨hnot, hnodup⟩ := List.nodup_cons.1 hnodup
    refine ⟨c, hc.1, hc.2, reps', ?_, hnodup⟩
    have hne : ∀ d ∈ reps', d ≠ c := fun d hd h => hnot (h ▸ hd)
    refine ((List.forall₂_and_left _ _).2 ⟨hne, hreps'⟩).imp ?_
    rintro d f ⟨hne, hd, hex⟩
    exact ⟨hd, not_or.2 ⟨hne, hex⟩⟩
  · rintro ⟨c, hc, hex, reps, hreps, hnodup⟩
    refine ⟨c :: reps, List.Forall₂.cons ⟨hc, hex⟩ ?_, List.nodup_cons.2 ⟨fun hmem => ?_, hnodup⟩⟩
    · exact hreps.imp fun d f hd => ⟨hd.1, fun h => hd.2 (.inr h)⟩
    · obtain ⟨i, hi, rfl⟩ := List.getElem_of_mem hmem
      exact (hreps.get hi (hreps.length_eq ▸ hi)).2 (.inl rfl)

end Rings.Matching
