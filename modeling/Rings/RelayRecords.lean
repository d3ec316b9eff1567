import Rings.RelayWalk

/-!
What the previous-holder records say, at every stage of their spreading.

On a fixed ring with fixed declarations a record is always a prefix of one list: the holders
met going backwards from its receiver, nearest first, round to the receiver itself. So a node
keeps a prefix of the other holders behind it, and a record that closed names them all.
-/

namespace Rings

/-! ### The trail of holders behind a node -/

def relayLink (members : List Did) (h : Did) : PreviousHolder :=
  ⟨h, (clockwise members h).head?.getD h⟩

/-- The other holders behind `n`, nearest first. -/
def heldBehind (members : List Did) (declared : Did → Bool) (n : Did) : List Did :=
  (clockwise members n).reverse.filter declared

/-- The links of the holders behind `n`, round to `n` itself. -/
def relayTrail (members : List Did) (declared : Did → Bool) (n : Did) : List PreviousHolder :=
  (heldBehind members declared n ++ [n].filter declared).map (relayLink members)

variable {members : List Did} {declared : Did → Bool} {n : Did}

/-- The trail of the next member: `n` itself when it holds, then the holders behind `n`. -/
lemma relayTrail_succ (hn : n ∈ members) {x : Did} {rest : List Did}
    (h : clockwise members n = x :: rest) : relayTrail members declared x =
      ([n].filter declared ++ heldBehind members declared n).map (relayLink members) := by
  unfold relayTrail heldBehind
  rw [clockwise_rotate hn h, h, List.reverse_append, List.reverse_cons]
  cases hd : declared n <;> simp [hd]

lemma heldBehind_ne {x : Did} (h : x ∈ heldBehind members declared n) : x ≠ n := by
  have := (List.mem_filter.mp h).1
  exact (mem_clockwise.mp (List.mem_reverse.mp this)).2

/-! ### What a node keeps -/

structure Declared (members : List Did) (declared : Did → Bool) (nb : RelayNeighborhood) :
    Prop where
  storageLess : nb.storageLess = members.filter (!declared ·)
  suspected : nb.suspected = []

lemma Declared.holds_eq {nb : RelayNeighborhood} (h : Declared members declared nb) {x : Did}
    (hx : x ∈ members) : nb.holds x = declared x := by
  rw [RelayNeighborhood.holds, h.storageLess]
  cases hd : declared x <;> simp [hx, hd]

lemma Declared.chains_eq {nb : RelayNeighborhood} (h : Declared members declared nb) {x : Did}
    (hx : x ∈ members) : nb.chains x = declared x := by
  rw [RelayNeighborhood.chains, h.holds_eq hx, h.suspected]
  simp

/-- A kept record: a prefix of the other holders behind `n`, all of them once it closed; or `n`
alone, when there is no other. -/
def PassedOk (members : List Did) (declared : Did → Bool) (n : Did) (P : Passed) : Prop :=
  (P.previous <+: (heldBehind members declared n).map (relayLink members) ∧
    (P.closed = true → P.previous = (heldBehind members declared n).map (relayLink members))) ∨
  (P.previous = [relayLink members n] ∧ heldBehind members declared n = [] ∧ declared n = true)

/-- The loop keeps a prefix without the local node, and closes where it meets it. -/
lemma chainFrom_spec (nb : RelayNeighborhood) (loc : Did) (l kept : List PreviousHolder) :
    (∃ pre, pre <+: l ∧ (∀ x ∈ pre, x.holder ≠ loc) ∧
      nb.chainFrom loc kept l = (kept ++ pre, false)) ∨
    (∃ pre link post, l = pre ++ link :: post ∧ link.holder = loc ∧
      (∀ x ∈ pre, x.holder ≠ loc) ∧
      nb.chainFrom loc kept l = (if (kept ++ pre).isEmpty then [link] else kept ++ pre, true)) := by
  induction l generalizing kept with
  | nil => exact Or.inl ⟨[], List.nil_prefix, by simp, by simp [RelayNeighborhood.chainFrom]⟩
  | cons link rest ih =>
    rw [RelayNeighborhood.chainFrom]
    by_cases hloc : link.holder = loc
    · rw [if_pos hloc]
      exact Or.inr ⟨[], link, rest, rfl, hloc, by simp, by simp⟩
    · rw [if_neg hloc]
      split
      · rcases ih (kept ++ [link]) with ⟨pre, hpre, hne, heq⟩ | ⟨pre, lk, post, hl, hlk, hne, heq⟩
        · refine Or.inl ⟨link :: pre, ?_, ?_, by simp [heq]⟩
          · exact List.cons_prefix_cons.mpr ⟨rfl, hpre⟩
          · exact List.forall_mem_cons.mpr ⟨hloc, hne⟩
        · refine Or.inr ⟨link :: pre, lk, post, by rw [hl]; rfl, hlk, ?_, by simp [heq]⟩
          exact List.forall_mem_cons.mpr ⟨hloc, hne⟩
      · exact Or.inl ⟨[], List.nil_prefix, by simp, by simp⟩

lemma prefix_of_prefix_append {α : Type*} {l A B : List α} {q : α → Prop} (h : l <+: A ++ B)
    (hl : ∀ x ∈ l, ¬ q x) (hB : ∀ x ∈ B, q x) : l <+: A := by
  rcases List.prefix_or_prefix_of_prefix h (List.prefix_append A B) with hA | ⟨t, rfl⟩
  · exact hA
  · rw [List.prefix_append_right_inj] at h
    cases t with
    | nil => simp
    | cons x t =>
      have hx : x ∈ B := h.subset List.mem_cons_self
      exact absurd (hB x hx) (hl x (by simp))

/-- Whatever part of the trail a record is, the chain kept of it is as it should be. -/
lemma chain_passedOk {nb : RelayNeighborhood} {previous : List PreviousHolder} {origin : Did}
    (h : previous <+: relayTrail members declared n) :
    PassedOk members declared n
      ⟨origin, (nb.chain n previous).1, (nb.chain n previous).2⟩ := by
  have htake : previous.take nb.replicas <+: relayTrail members declared n :=
    (List.take_prefix _ _).trans h
  rw [relayTrail, List.map_append] at htake
  have hA : ∀ x ∈ (heldBehind members declared n).map (relayLink members), x.holder ≠ n := by
    intro x hx
    obtain ⟨y, hy, rfl⟩ := List.mem_map.mp hx
    exact heldBehind_ne hy
  have hB : ∀ x ∈ ([n].filter declared).map (relayLink members), x.holder = n := by
    intro x hx
    obtain ⟨y, hy, rfl⟩ := List.mem_map.mp hx
    exact List.mem_singleton.mp (List.mem_of_mem_filter hy)
  unfold RelayNeighborhood.chain
  rcases chainFrom_spec nb n (previous.take nb.replicas) [] with
    ⟨pre, hpre, hne, heq⟩ | ⟨pre, link, post, hl, hlink, hne, heq⟩
  · rw [heq]
    refine Or.inl ⟨?_, by simp⟩
    exact prefix_of_prefix_append (hpre.trans htake) hne hB
  · -- the local link is met only after every other holder
    rw [hl] at htake
    have hfirst : pre <+: (heldBehind members declared n).map (relayLink members) :=
      prefix_of_prefix_append ((List.prefix_append pre _).trans htake) hne hB
    obtain ⟨A', hA'⟩ := hfirst
    rw [← hA', List.append_assoc, List.prefix_append_right_inj] at htake
    have hnil : A' = [] := by
      cases A' with
      | nil => rfl
      | cons y A' =>
        have hy : link = y := (List.cons_prefix_cons.mp htake).1
        exact absurd (hy ▸ hlink) (hA y (by rw [← hA']; simp))
    subst hnil
    rw [List.append_nil] at hA'
    rw [List.nil_append] at htake heq
    have hmem : link ∈ ([n].filter declared).map (relayLink members) :=
      htake.subset List.mem_cons_self
    obtain ⟨y, hy, rfl⟩ := List.mem_map.mp hmem
    obtain ⟨hyn, hdecl⟩ := List.mem_filter.mp hy
    obtain rfl := List.mem_singleton.mp hyn
    rw [heq]
    by_cases hempty : pre.isEmpty = true
    · have hpre : pre = [] := List.isEmpty_iff.mp hempty
      refine Or.inr ⟨by simp [hempty], ?_, hdecl⟩
      rw [hpre] at hA'
      exact List.map_eq_nil_iff.mp hA'.symm
    · refine Or.inl ?_
      simp only [hempty, Bool.false_eq_true, if_false]
      rw [← hA']
      exact ⟨List.prefix_refl _, fun _ => rfl⟩

/-! ### The network -/

structure RelayInv (members : List Did) (declared : Did → Bool) (net : RelayNetwork) : Prop where
  known : ∀ n, Declared members declared (net.neighborhood n)
  passed : ∀ n ∈ members, ∀ P, (net.neighborhood n).passed = some P →
    PassedOk members declared n P
  records : ∀ r ∈ net.inFlight, r.target ∈ members ∧
    r.previous <+: relayTrail members declared r.target

variable {view : Did → TopologyState} {k : ℕ}

lemma relayInv_start (r : ℕ) : RelayInv members declared (relayStart members declared r) where
  known := fun _ => ⟨rfl, rfl⟩
  passed := fun _ _ P hP => by cases hP
  records := fun _ hr => by cases hr

lemma previousHoldersIn_eq_some {nb : RelayNeighborhood} {s : TopologyState} {P : Passed}
    (h : nb.previousHoldersIn s = some P) : nb.passed = some P := by
  unfold RelayNeighborhood.previousHoldersIn at h
  obtain ⟨Q, hQ, h⟩ := Option.bind_eq_some_iff.mp h
  obtain ⟨p, -, h⟩ := Option.bind_eq_some_iff.mp h
  obtain ⟨l, -, h⟩ := Option.bind_eq_some_iff.mp h
  rw [Option.ite_none_right_eq_some] at h
  rw [hQ, h.2]

lemma ChordFixpoint.successors_head? {s : TopologyState} (hk : 1 ≤ k)
    (h : ChordFixpoint members k s) :
    s.successors.head? = (clockwise members s.localDid).head? := by
  rw [h.successors, successors_eq_take, List.head?_take, if_neg (by omega)]

lemma recordToPass_trail {s : TopologyState} {nb : RelayNeighborhood} (hk : 1 ≤ k)
    (hfix : ChordFixpoint members k s) (hn : s.localDid ∈ members)
    (hP : ∀ P, nb.passed = some P → PassedOk members declared s.localDid P)
    {head : Did} {previous : List PreviousHolder}
    (h : nb.recordToPass s (declared s.localDid) = some (head, previous)) :
    head ∈ members ∧ previous <+: relayTrail members declared head := by
  unfold RelayNeighborhood.recordToPass at h
  obtain ⟨x, hx, h⟩ := Option.bind_eq_some_iff.mp h
  rw [hfix.successors_head? hk] at hx
  obtain ⟨rest, hrest⟩ : ∃ rest, clockwise members s.localDid = x :: rest := by
    rcases hc : clockwise members s.localDid with _ | ⟨y, l⟩
    · rw [hc] at hx
      cases hx
    · rw [hc] at hx
      obtain rfl := Option.some.inj hx
      exact ⟨l, rfl⟩
  have hxmem : x ∈ members := (mem_clockwise.mp (by rw [hrest]; exact List.mem_cons_self)).1
  have htrail := @relayTrail_succ _ declared _ hn _ _ hrest
  dsimp only at h
  rcases hd : declared s.localDid
  · -- a storage-less node passes on what it was passed
    rw [hd] at h
    simp only [Bool.false_eq_true, if_false] at h
    rcases hprev : nb.previousHoldersIn s with _ | P
    · rw [hprev] at h
      simp at h
    · rw [hprev] at h
      split_ifs at h
      obtain ⟨rfl, rfl⟩ := Prod.mk.inj (Option.some.inj h)
      refine ⟨hxmem, ?_⟩
      rw [htrail]
      rcases hP P (previousHoldersIn_eq_some hprev) with ⟨hpre, -⟩ | ⟨-, -, hdecl⟩
      · simpa [hd] using hpre
      · rw [hd] at hdecl
        cases hdecl
  · rw [hd] at h
    simp only [if_true] at h
    obtain ⟨rfl, rfl⟩ := Prod.mk.inj (Option.some.inj h)
    refine ⟨hxmem, (List.take_prefix _ _).trans ?_⟩
    have hlink : relayLink members s.localDid = ⟨s.localDid, x⟩ := by
      rw [relayLink, hrest]
      rfl
    rw [htrail, List.filter_cons_of_pos hd, List.filter_nil, List.singleton_append, List.map_cons,
      hlink, List.cons_prefix_cons]
    refine ⟨rfl, ?_⟩
    rcases hprev : nb.previousHoldersIn s with _ | P
    · exact List.nil_prefix
    · rcases hP P (previousHoldersIn_eq_some hprev) with ⟨hpre, -⟩ | ⟨hsingle, -, -⟩
      · exact (List.takeWhile_prefix _).trans hpre
      · rw [Option.elim_some, hsingle]
        simp [relayLink]

lemma Declared.pass {nb : RelayNeighborhood} (h : Declared members declared nb)
    (s : TopologyState) (origin : Did) (previous : List PreviousHolder) :
    Declared members declared (nb.pass s origin previous).1 := by
  unfold RelayNeighborhood.pass
  split
  · exact h
  · dsimp only
    split
    · exact ⟨h.storageLess, h.suspected⟩
    · exact h

lemma pass_passed {nb : RelayNeighborhood} {s : TopologyState} {origin : Did}
    {previous : List PreviousHolder} {P : Passed}
    (h : (nb.pass s origin previous).1.passed = some P) :
    nb.passed = some P ∨ P = ⟨origin, (nb.chain s.localDid previous).1,
      (nb.chain s.localDid previous).2⟩ := by
  unfold RelayNeighborhood.pass at h
  split at h
  · exact Or.inl h
  · dsimp only at h
    split at h
    · exact Or.inr (Option.some.inj h).symm
    · exact Or.inl h

lemma RelayInv.step {net : RelayNetwork} (hk : 1 ≤ k) (hview : ∀ n, (view n).localDid = n)
    (hfix : ∀ m ∈ members, ChordFixpoint members k (view m)) (h : RelayInv members declared net)
    (e : RelayEvent) : RelayInv members declared (relayStep members view declared net e) := by
  cases e with
  | send n =>
    simp only [relayStep]
    split
    · rename_i hn
      split
      · exact h
      · rename_i head previous hrec
        refine ⟨h.known, h.passed, fun r hr => ?_⟩
        rcases List.mem_append.mp hr with hr | hr
        · exact h.records r hr
        · rw [List.mem_singleton.mp hr]
          have hloc := hview n
          refine @recordToPass_trail _ declared _ _ _ hk (hfix n hn) (by rwa [hloc])
            (fun P hP => ?_) _ _ (by rw [hloc]; exact hrec)
          rw [hloc]
          exact h.passed n hn P hP
    · exact h
  | deliver i =>
    simp only [relayStep]
    split
    · exact h
    · rename_i r hr
      obtain ⟨htarget, hprefix⟩ := h.records r (List.mem_of_getElem? hr)
      refine ⟨fun n => ?_, fun n hn P hP => ?_, h.records⟩
      · dsimp only
        rcases eq_or_ne n r.target with rfl | hne
        · rw [Function.update_self]
          exact (h.known _).pass _ _ _
        · rw [Function.update_of_ne hne]
          exact h.known n
      · dsimp only at hP
        rcases eq_or_ne n r.target with rfl | hne
        · rw [Function.update_self] at hP
          rcases pass_passed hP with hP | rfl
          · exact h.passed _ hn P hP
          · rw [hview]
            exact chain_passedOk hprefix
        · rw [Function.update_of_ne hne] at hP
          exact h.passed n hn P hP

/-- **Every stage of the spreading keeps the invariant.** -/
theorem relayInv_run (hk : 1 ≤ k) (hview : ∀ n, (view n).localDid = n)
    (hfix : ∀ m ∈ members, ChordFixpoint members k (view m)) (r : ℕ) (es : List RelayEvent) :
    RelayInv members declared (relayRun members view declared r es) := by
  induction es using List.reverseRecOn with
  | nil => exact relayInv_start r
  | append_singleton es e ih =>
    rw [relayRun, List.foldl_append]
    exact ih.step hk hview hfix e

end Rings
