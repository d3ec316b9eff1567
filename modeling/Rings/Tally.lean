import Mathlib.Data.Finset.Basic
import Mathlib.Data.List.Basic
import Mathlib.Tactic

/-!
Deciding from the first report of each awaited place.

A list of reports names places in any order, the same ones more than once and others never
awaited; of each awaited place the first report counts. Some outcomes decide by themselves: the
tally settles at the first counted report that does, or, when none does, at the report of the
last place to be counted. The report that settles it is the one that leaves nothing to wait
for: before it, more reports could still settle the tally either way.
-/

namespace Rings.Tally

variable {K O : Type*} [DecidableEq K]

def awaits (P : Finset K) (l : List (K × O)) : Finset K := P.filter fun p => (l.lookup p).isNone

/-- The report of `l` that settles the tally of the places `P`. -/
def settles (decides : O → Bool) (P : Finset K) (l : List (K × O)) : Option (K × O) :=
  match l with
  | [] => none
  | r :: l =>
    if r.1 ∈ P then
      if decides r.2 = true ∨ P.erase r.1 = ∅ then some r else settles decides (P.erase r.1) l
    else settles decides P l

def reportedAt (l : List (K × O)) (p : K) : ℕ := l.findIdx fun r => r.1 = p

variable {decides : O → Bool} {P : Finset K} {l m : List (K × O)} {r s : K × O} {p q : K} {o : O}

lemma mem_awaits : p ∈ awaits P l ↔ p ∈ P ∧ l.lookup p = none := by
  rw [awaits, Finset.mem_filter, Option.isNone_iff_eq_none]

@[simp] lemma awaits_nil : awaits P ([] : List (K × O)) = P := by
  ext p
  simp [mem_awaits]

lemma lookup_singleton (r : K × O) (p : K) :
    [r].lookup p = if p = r.1 then some r.2 else none := by
  by_cases hp : p = r.1
  · subst hp
    rw [List.lookup_cons_self, if_pos rfl]
  · have hne : (p == r.1) = false := by simpa using hp
    rw [List.lookup_cons, hne, List.lookup_nil, if_neg hp]

lemma awaits_append (l m : List (K × O)) : awaits P (l ++ m) = awaits (awaits P l) m := by
  ext p
  simp only [mem_awaits, List.lookup_append, Option.or_eq_none_iff, and_assoc]

lemma awaits_singleton (P : Finset K) (r : K × O) : awaits P [r] = P.erase r.1 := by
  ext p
  rw [mem_awaits, lookup_singleton, Finset.mem_erase]
  by_cases hp : p = r.1 <;> simp [hp]

/-! ### Reading on -/

lemma settles_append (hl : settles decides P l = none) :
    settles decides P (l ++ m) = settles decides (awaits P l) m := by
  induction l generalizing P with
  | nil => simp
  | cons r l ih =>
    have hsplit : awaits P (r :: l) = awaits (P.erase r.1) l := by
      rw [← awaits_singleton P r, ← awaits_append, List.singleton_append]
    rw [List.cons_append, settles, hsplit]
    rw [settles] at hl
    by_cases hr : r.1 ∈ P
    · rw [if_pos hr] at hl ⊢
      by_cases hd : decides r.2 = true ∨ P.erase r.1 = ∅
      · rw [if_pos hd] at hl
        cases hl
      · rw [if_neg hd] at hl ⊢
        exact ih hl
    · rw [if_neg hr] at hl ⊢
      rw [Finset.erase_eq_of_notMem hr]
      exact ih hl

/-- A settled tally stays settled. -/
lemma settles_append_of_some (hl : settles decides P l = some r) (m : List (K × O)) :
    settles decides P (l ++ m) = some r := by
  induction l generalizing P with
  | nil => cases hl
  | cons s l ih =>
    rw [List.cons_append, settles]
    rw [settles] at hl
    split
    · rename_i hs
      rw [if_pos hs] at hl
      split
      · rename_i hd
        rwa [if_pos hd] at hl
      · rename_i hd
        rw [if_neg hd] at hl
        exact ih hl
    · rename_i hs
      rw [if_neg hs] at hl
      exact ih hl

/-- One more report, of a tally not settled. -/
lemma settles_concat (hl : settles decides P l = none) (r : K × O) :
    settles decides P (l ++ [r]) =
      if r.1 ∈ awaits P l ∧ (decides r.2 = true ∨ (awaits P l).erase r.1 = ∅) then some r
      else none := by
  rw [settles_append hl, settles, settles, settles]
  split_ifs with h1 h2 h3 h3 h3 <;> simp_all

lemma awaits_concat (l : List (K × O)) (r : K × O) :
    awaits P (l ++ [r]) = (awaits P l).erase r.1 := by
  rw [awaits_append, awaits_singleton]

lemma lookup_concat (l : List (K × O)) (r : K × O) (p : K) :
    (l ++ [r]).lookup p = (l.lookup p).or (if p = r.1 then some r.2 else none) := by
  rw [List.lookup_append, lookup_singleton]

/-! ### What settles a tally -/

/-- A tally waits as long as a place is not reported and no counted report decides. -/
lemma settles_eq_none (hP : P.Nonempty) : settles decides P l = none ↔
    (awaits P l).Nonempty ∧ ∀ p ∈ P, ∀ o, l.lookup p = some o → decides o = false := by
  induction l using List.reverseRecOn with
  | nil => simp [settles, hP]
  | append_singleton l r ih =>
    cases hl : settles decides P l with
    | some s =>
      have hno := mt ih.2 (by rw [hl]; simp)
      rw [settles_append_of_some hl]
      refine iff_of_false (by simp) fun hall => hno ⟨?_, fun p hp o ho => ?_⟩
      · rw [awaits_concat] at hall
        exact hall.1.mono (Finset.erase_subset _ _)
      · exact hall.2 p hp o (by rw [lookup_concat, ho, Option.some_or])
    | none =>
      obtain ⟨hwait, hcounted⟩ := ih.1 hl
      rw [settles_concat hl, awaits_concat, ite_eq_right_iff]
      constructor
      · intro hnot
        have hopen : r.1 ∈ awaits P l → decides r.2 = false ∧ (awaits P l).erase r.1 ≠ ∅ := by
          intro hr
          have hor : ¬ (decides r.2 = true ∨ (awaits P l).erase r.1 = ∅) := fun h => by
            cases hnot ⟨hr, h⟩
          exact ⟨Bool.eq_false_iff.2 fun h => hor (Or.inl h), fun h => hor (Or.inr h)⟩
        refine ⟨?_, fun p hp o ho => ?_⟩
        · by_cases hr : r.1 ∈ awaits P l
          · exact Finset.nonempty_iff_ne_empty.2 (hopen hr).2
          · rwa [Finset.erase_eq_of_notMem hr]
        · rw [lookup_concat] at ho
          cases hlp : l.lookup p with
          | some o' =>
            rw [hlp, Option.some_or] at ho
            exact hcounted p hp o (hlp.trans ho)
          | none =>
            rw [hlp, Option.none_or, Option.ite_none_right_eq_some] at ho
            obtain ⟨rfl, ho⟩ := ho
            rw [← Option.some.inj ho]
            exact (hopen (mem_awaits.2 ⟨hp, hlp⟩)).1
      · rintro ⟨hnonempty, hall⟩ ⟨hr, hor⟩
        obtain ⟨hp, hlp⟩ := mem_awaits.1 hr
        rcases hor with hd | hempty
        · have hfalse := hall r.1 hp r.2 (by rw [lookup_concat, hlp, if_pos rfl, Option.none_or])
          rw [hfalse] at hd
          cases hd
        · rw [hempty] at hnonempty
          exact absurd hnonempty Finset.not_nonempty_empty

lemma exists_of_settles (hl : settles decides P l = some r) :
    ∃ pre post, l = pre ++ r :: post ∧ settles decides P pre = none ∧ r.1 ∈ awaits P pre ∧
      (decides r.2 = true ∨ (awaits P pre).erase r.1 = ∅) := by
  induction l using List.reverseRecOn with
  | nil => cases hl
  | append_singleton l s ih =>
    cases hs : settles decides P l with
    | some t =>
      rw [settles_append_of_some hs] at hl
      obtain ⟨pre, post, rfl, h⟩ := ih (hs.trans hl)
      exact ⟨pre, post ++ [s], by simp, h⟩
    | none =>
      rw [settles_concat hs, Option.ite_none_right_eq_some] at hl
      obtain ⟨h, hsr⟩ := hl
      cases hsr
      exact ⟨l, [], rfl, hs, h⟩

lemma mem_of_lookup (h : l.lookup p = some o) : (p, o) ∈ l := by
  induction l with
  | nil => cases h
  | cons r l ih =>
    rw [← List.singleton_append, List.lookup_append, lookup_singleton] at h
    by_cases hp : p = r.1
    · rw [if_pos hp, Option.some_or] at h
      cases h
      subst hp
      exact List.mem_cons_self
    · rw [if_neg hp, Option.none_or] at h
      exact List.mem_cons_of_mem _ (ih h)

lemma reportedAt_append_of_none (h : l.lookup p = none) (m : List (K × O)) :
    reportedAt (l ++ m) p = l.length + reportedAt m p := by
  have hall : ∀ r ∈ l, r.1 ≠ p := by
    intro r hr hp
    have hne := List.lookup_eq_none_iff.1 h r hr
    simp [hp] at hne
  rw [reportedAt, List.findIdx_append, if_neg]
  · rw [reportedAt]
    omega
  · rw [not_lt, List.findIdx_eq_length.2 fun r hr => by simpa using hall r hr]

lemma reportedAt_append_of_some (h : l.lookup p = some o) (m : List (K × O)) :
    reportedAt (l ++ m) p < l.length := by
  have hlt : l.findIdx (fun r => decide (r.1 = p)) < l.length :=
    List.findIdx_lt_length.2 ⟨(p, o), mem_of_lookup h, by simp⟩
  rw [reportedAt, List.findIdx_append, if_pos hlt]
  exact hlt

lemma reportedAt_cons (r : K × O) (l : List (K × O)) : reportedAt (r :: l) r.1 = 0 := by
  simp [reportedAt, List.findIdx_cons]

/-- Two places first reported at one time are one. -/
lemma eq_of_reportedAt_eq (hp : l.lookup p = some o) (h : reportedAt l p = reportedAt l q) :
    p = q := by
  have hlt : l.findIdx (fun r => decide (r.1 = p)) < l.length :=
    List.findIdx_lt_length.2 ⟨(p, o), mem_of_lookup hp, by simp⟩
  have hlt' : l.findIdx (fun r => decide (r.1 = q)) < l.length := by
    rw [reportedAt, reportedAt] at h
    omega
  have h1 := of_decide_eq_true (List.findIdx_getElem (w := hlt))
  have h2 := of_decide_eq_true (List.findIdx_getElem (w := hlt'))
  simp only [reportedAt] at h
  rw [← h1, ← h2]
  congr 2

/-- The report that counts last, and the reports that count. -/
structure Settled (decides : O → Bool) (P : Finset K) (l : List (K × O)) (r : K × O) : Prop where
  awaited : r.1 ∈ P
  first : l.lookup r.1 = some r.2
  /-- The report decides, and is the first that does; or none decides and it is the last. -/
  settled :
    (decides r.2 = true ∧ ∀ p ∈ P, ∀ o, l.lookup p = some o → decides o = true →
      reportedAt l r.1 ≤ reportedAt l p) ∨
    ∀ p ∈ P, (∃ o, l.lookup p = some o ∧ decides o = false) ∧ reportedAt l p ≤ reportedAt l r.1

lemma settled_of_settles (hP : P.Nonempty) (h : settles decides P l = some r) :
    Settled decides P l r := by
  obtain ⟨pre, post, rfl, hpre, hr, hor⟩ := exists_of_settles h
  obtain ⟨hp, hlookup⟩ := mem_awaits.1 hr
  obtain ⟨-, hcounted⟩ := (settles_eq_none hP).1 hpre
  have hfirst : (pre ++ r :: post).lookup r.1 = some r.2 := by
    rw [List.lookup_append, hlookup, Option.none_or, ← List.singleton_append, List.lookup_append,
      lookup_singleton, if_pos rfl, Option.some_or]
  have hat : reportedAt (pre ++ r :: post) r.1 = pre.length := by
    rw [reportedAt_append_of_none hlookup, reportedAt_cons, Nat.add_zero]
  refine ⟨hp, hfirst, ?_⟩
  by_cases hd : decides r.2 = true
  · refine Or.inl ⟨hd, fun p hpP o ho hdo => ?_⟩
    cases hpre' : pre.lookup p with
    | some o' =>
      rw [List.lookup_append, hpre', Option.some_or] at ho
      rw [hcounted p hpP o (hpre'.trans ho)] at hdo
      cases hdo
    | none =>
      rw [hat, reportedAt_append_of_none hpre']
      exact Nat.le_add_right _ _
  · refine Or.inr fun p hpP => ?_
    by_cases hpr : p = r.1
    · subst hpr
      exact ⟨⟨r.2, hfirst, Bool.eq_false_iff.2 hd⟩, le_rfl⟩
    · have hnone : p ∉ awaits P pre := fun hmem => by
        have hempty := hor.resolve_left hd
        exact (Finset.notMem_empty p) (hempty ▸ Finset.mem_erase.2 ⟨hpr, hmem⟩)
      rw [mem_awaits, not_and] at hnone
      obtain ⟨o, ho⟩ := Option.ne_none_iff_exists'.1 (hnone hpP)
      refine ⟨⟨o, by rw [List.lookup_append, ho, Option.some_or], hcounted p hpP o ho⟩, ?_⟩
      rw [hat]
      exact (reportedAt_append_of_some ho _).le

lemma Settled.unique (h : Settled decides P l r) (h' : Settled decides P l s) : r = s := by
  have hplace : r.1 = s.1 := by
    rcases h.settled with ⟨hd, hle⟩ | hall <;> rcases h'.settled with ⟨hd', hle'⟩ | hall'
    · refine eq_of_reportedAt_eq h.first (le_antisymm ?_ ?_)
      · exact hle s.1 h'.awaited s.2 h'.first hd'
      · exact hle' r.1 h.awaited r.2 h.first hd
    · obtain ⟨⟨o, ho, hfalse⟩, -⟩ := hall' r.1 h.awaited
      cases ho.symm.trans h.first
      rw [hfalse] at hd
      cases hd
    · obtain ⟨⟨o, ho, hfalse⟩, -⟩ := hall s.1 h'.awaited
      cases ho.symm.trans h'.first
      rw [hfalse] at hd'
      cases hd'
    · refine eq_of_reportedAt_eq h.first (le_antisymm ?_ ?_)
      · exact (hall' r.1 h.awaited).2
      · exact (hall s.1 h'.awaited).2
  refine Prod.ext hplace (Option.some.inj ?_)
  rw [← h.first, ← h'.first, hplace]

/-- **The report that settles a tally**, read off the first reports. -/
lemma settles_eq_some (hP : P.Nonempty) :
    settles decides P l = some r ↔ Settled decides P l r := by
  refine ⟨settled_of_settles hP, fun h => ?_⟩
  cases hs : settles decides P l with
  | some s => rw [h.unique (settled_of_settles hP hs)]
  | none =>
    obtain ⟨⟨q, hq⟩, hcounted⟩ := (settles_eq_none hP).1 hs
    rcases h.settled with ⟨hd, -⟩ | hall
    · rw [hcounted r.1 h.awaited r.2 h.first] at hd
      cases hd
    · obtain ⟨hqP, hnone⟩ := mem_awaits.1 hq
      obtain ⟨⟨o, ho, -⟩, -⟩ := hall q hqP
      rw [hnone] at ho
      cases ho

/-! ### What leaves it open -/

/-- Every awaited place is reported. -/
def Complete (P : Finset K) (l : List (K × O)) : Prop := ∀ p ∈ P, l.lookup p ≠ none

lemma Complete.settles (hP : P.Nonempty) (h : Complete P l) : settles decides P l ≠ none := by
  intro hnone
  obtain ⟨⟨p, hp⟩, -⟩ := (settles_eq_none hP).1 hnone
  exact h p (mem_awaits.1 hp).1 (mem_awaits.1 hp).2

noncomputable def missing (P : Finset K) (l : List (K × O)) (o : O) : List (K × O) :=
  (awaits P l).toList.map fun p => (p, o)

lemma missing_complete (P : Finset K) (l : List (K × O)) (o : O) :
    Complete P (l ++ missing P l o) := by
  intro p hp hnone
  rw [List.lookup_append, Option.or_eq_none_iff] at hnone
  have hmem : (p, o) ∈ missing P l o :=
    List.mem_map.2 ⟨p, Finset.mem_toList.2 (mem_awaits.2 ⟨hp, hnone.1⟩), rfl⟩
  have hne := List.lookup_eq_none_iff.1 hnone.2 (p, o) hmem
  simp at hne

lemma missing_lookup {o' : O} (h : (missing P l o).lookup p = some o') : o' = o := by
  obtain ⟨q, -, hq⟩ := List.mem_map.1 (mem_of_lookup h)
  exact (congrArg Prod.snd hq).symm

/-- A tally not settled may still be settled by a report that decides. -/
lemma settles_missing_true (hP : P.Nonempty) (hl : settles decides P l = none)
    (ho : decides o = true) :
    ∃ r, settles decides P (l ++ missing P l o) = some r ∧ decides r.2 = true := by
  have hcomplete := missing_complete P l o
  obtain ⟨r, hr⟩ : ∃ r, settles decides P (l ++ missing P l o) = some r :=
    Option.ne_none_iff_exists'.1 (hcomplete.settles hP)
  refine ⟨r, hr, ?_⟩
  rcases (settled_of_settles hP hr).settled with ⟨hd, -⟩ | hall
  · exact hd
  · -- the places still missing would have to be reported by something that does not decide
    obtain ⟨⟨p, hp⟩, -⟩ := (settles_eq_none hP).1 hl
    obtain ⟨hpP, hnone⟩ := mem_awaits.1 hp
    obtain ⟨⟨o', ho', hfalse⟩, -⟩ := hall p hpP
    rw [List.lookup_append, hnone, Option.none_or] at ho'
    rw [missing_lookup ho', ho] at hfalse
    cases hfalse

/-- A tally not settled may still be settled by the last of the places. -/
lemma settles_missing_false (hP : P.Nonempty) (hl : settles decides P l = none)
    (ho : decides o = false) :
    ∃ r, settles decides P (l ++ missing P l o) = some r ∧ decides r.2 = false := by
  have hcomplete := missing_complete P l o
  obtain ⟨r, hr⟩ : ∃ r, settles decides P (l ++ missing P l o) = some r :=
    Option.ne_none_iff_exists'.1 (hcomplete.settles hP)
  refine ⟨r, hr, ?_⟩
  have hsettled := settled_of_settles hP hr
  have hfirst := hsettled.first
  rw [List.lookup_append] at hfirst
  cases hlr : l.lookup r.1 with
  | some o' =>
    rw [hlr, Option.some_or] at hfirst
    exact ((settles_eq_none hP).1 hl).2 r.1 hsettled.awaited r.2 (hlr.trans hfirst)
  | none =>
    rw [hlr, Option.none_or] at hfirst
    rw [missing_lookup hfirst, ho]

end Rings.Tally
