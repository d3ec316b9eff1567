import Mathlib.Data.List.Pairwise
import Mathlib.Tactic

/-!
Group commit.

Transitions run at once on a state ahead of the disk. Each is pending until the batch it joined
is written: one batch is written at a time, and the transitions that run meanwhile join the next.
A batch that is written makes its transitions durable and releases their answers. A batch that
fails drops every pending transition, though some of its records may have landed, and so does a
crash, after which the state is read back from the disk.

The pending transitions form a chain from the durable state. A fact every transition establishes
or keeps holds at the end of the chain, and a relation between states and records that every
transition carries forward, and that no record that lands breaks for the durable state, holds
between the durable state and the disk after every failure.
-/

namespace Rings

namespace GroupCommit

variable {S K R A : Type*}

structure Pending (S K R A : Type*) where
  answer : Option A
  staged : K → Option (Option R)
  after : S

def tip (s : S) (chain : List (Pending S K R A)) : S := chain.foldl (fun _ e => e.after) s

/-- What a chain of transitions writes: under each key the last record staged. -/
def stagedBy (chain : List (Pending S K R A)) (k : K) : Option (Option R) :=
  chain.foldl (fun r e => (e.staged k).or r) none

def answers (chain : List (Pending S K R A)) : List A := chain.filterMap Pending.answer

open Classical in
/-- The disk once the records under the keys of `keys` have landed. -/
noncomputable def landed (keys : Set K) (staged : K → Option (Option R)) (disk : K → Option R) :
    K → Option R :=
  fun k => if k ∈ keys then (staged k).getD (disk k) else disk k

def Linked (trans : S → Pending S K R A → Prop) : S → List (Pending S K R A) → Prop
  | _, [] => True
  | s, e :: chain => trans s e ∧ Linked trans e.after chain

section Chain

variable {trans trans' : S → Pending S K R A → Prop} {s : S} {e : Pending S K R A}
  {chain rest : List (Pending S K R A)}

@[simp] lemma tip_nil : tip s ([] : List (Pending S K R A)) = s := rfl

@[simp] lemma tip_cons : tip s (e :: chain) = tip e.after chain := rfl

@[simp] lemma tip_append : tip s (chain ++ rest) = tip (tip s chain) rest :=
  List.foldl_append

@[simp] lemma stagedBy_singleton (k : K) : stagedBy [e] k = e.staged k := Option.or_none

lemma stagedBy_append (k : K) :
    stagedBy (chain ++ rest) k = (stagedBy rest k).or (stagedBy chain k) := by
  have hfold : ∀ (l : List (Pending S K R A)) (r : Option (Option R)),
      l.foldl (fun r e => (e.staged k).or r) r = (stagedBy l k).or r := by
    intro l
    induction l with
    | nil => exact fun _ => rfl
    | cons e l ih =>
      intro r
      rw [stagedBy, List.foldl_cons, List.foldl_cons, ih, ih ((e.staged k).or none), Option.or_none,
        Option.or_assoc]
  rw [stagedBy, List.foldl_append]
  exact hfold rest _

lemma stagedBy_cons (k : K) :
    stagedBy (e :: chain) k = (stagedBy chain k).or (e.staged k) := by
  rw [← List.singleton_append, stagedBy_append, stagedBy_singleton]

@[simp] lemma answers_append : answers (chain ++ rest) = answers chain ++ answers rest :=
  List.filterMap_append

@[simp] lemma linked_append : Linked trans s (chain ++ rest) ↔
    Linked trans s chain ∧ Linked trans (tip s chain) rest := by
  induction chain generalizing s with
  | nil => exact ⟨fun h => ⟨trivial, h⟩, And.right⟩
  | cons e chain ih =>
    simp only [List.cons_append, Linked, tip_cons, ih, and_assoc]

lemma Linked.mono (h : ∀ s e, trans s e → trans' s e) (hl : Linked trans s chain) :
    Linked trans' s chain := by
  induction chain generalizing s with
  | nil => trivial
  | cons e chain ih => exact ⟨h _ _ hl.1, ih hl.2⟩

/-- An invariant of the transitions holds at each state of the chain. -/
lemma Linked.strengthen {I : S → Prop} (hkeep : ∀ s e, I s → trans s e → I e.after)
    (hl : Linked trans s chain) (h : I s) : Linked (fun s e => I s ∧ trans s e) s chain := by
  induction chain generalizing s with
  | nil => trivial
  | cons e chain ih => exact ⟨⟨h, hl.1⟩, ih hl.2 (hkeep _ _ h hl.1)⟩

lemma Linked.keep {P : S → Prop} (hkeep : ∀ s e, trans s e → P s → P e.after)
    (hl : Linked trans s chain) (h : P s) : P (tip s chain) := by
  induction chain generalizing s with
  | nil => exact h
  | cons e chain ih => exact ih hl.2 (hkeep _ _ hl.1 h)

/-- What a transition establishes for its answer, and every later one keeps, holds at the end of
the chain. -/
lemma Linked.establish {B : A → S → Prop} (hkeep : ∀ s e x, trans s e → B x s → B x e.after)
    (hnew : ∀ s e x, trans s e → e.answer = some x → B x e.after) (hl : Linked trans s chain)
    {x : A} (hx : x ∈ answers chain) : B x (tip s chain) := by
  induction chain generalizing s with
  | nil => cases hx
  | cons e chain ih =>
    rw [answers, List.filterMap_cons] at hx
    cases ha : e.answer with
    | none =>
      rw [ha] at hx
      exact ih hl.2 hx
    | some y =>
      rw [ha] at hx
      rcases List.mem_cons.1 hx with rfl | hx
      · have hkept : B x (tip e.after chain) :=
          hl.2.keep (fun s e => hkeep s e x) (hnew _ _ _ hl.1 ha)
        exact hkept
      · exact ih hl.2 hx

/-- A relation each transition puts between what was established before it and its own answer
holds between any two answers of the chain, and from the answers before the chain to them. -/
lemma Linked.pairwise {B : A → S → Prop} {W : A → A → Prop}
    (hkeep : ∀ s e x, trans s e → B x s → B x e.after)
    (hnew : ∀ s e x, trans s e → e.answer = some x → B x e.after)
    (horder : ∀ s e x y, trans s e → B x s → e.answer = some y → W x y)
    (hl : Linked trans s chain) {before : List A} (hbefore : ∀ x ∈ before, B x s)
    (hpair : before.Pairwise W) : (before ++ answers chain).Pairwise W := by
  induction chain generalizing s before with
  | nil => simpa [answers] using hpair
  | cons e chain ih =>
    rw [answers, List.filterMap_cons]
    cases ha : e.answer with
    | none => exact ih hl.2 (fun x hx => hkeep _ _ x hl.1 (hbefore x hx)) hpair
    | some y =>
      have hnext : (before ++ [y]).Pairwise W := by
        refine List.pairwise_append.2 ⟨hpair, List.pairwise_singleton _ _, ?_⟩
        intro x hx y' hy
        obtain rfl := List.mem_singleton.1 hy
        exact horder _ _ x y' hl.1 (hbefore x hx) ha
      have hsofar : ∀ x ∈ before ++ [y], B x e.after := by
        intro x hx
        rcases List.mem_append.1 hx with hx | hx
        · exact hkeep _ _ x hl.1 (hbefore x hx)
        · obtain rfl := List.mem_singleton.1 hx
          exact hnew _ _ x hl.1 ha
      have hall := ih hl.2 hsofar hnext
      rwa [List.append_assoc] at hall

variable {J : S → K → Option R → Prop} {disk : K → Option R} {keys : Set K}

/-- A relation each transition carries forward with its records holds once all have landed. -/
lemma Linked.forward {k : K} {r : Option R}
    (hforward : ∀ s e r, trans s e → J s k r → J e.after k ((e.staged k).getD r))
    (hl : Linked trans s chain) (h : J s k r) : J (tip s chain) k ((stagedBy chain k).getD r) := by
  induction chain generalizing s r with
  | nil => exact h
  | cons e chain ih =>
    have := ih hl.2 (hforward _ _ _ hl.1 h)
    rw [stagedBy_cons]
    cases hrest : stagedBy chain k <;> simpa [hrest] using this

/-- A record staged by the chain keeps the relation to the state before it, when a record good
for a later state is good for an earlier one. -/
lemma Linked.backward {k : K} {r : Option R}
    (hback : ∀ s e r, trans s e → J e.after k r → J s k r)
    (hl : Linked trans s chain) (h : J (tip s chain) k r) : J s k r := by
  induction chain generalizing s with
  | nil => exact h
  | cons e chain ih => exact hback _ _ _ hl.1 (ih hl.2 h)

/-- A relation carried forward with the records, and back to the states before them, holds
whichever records land. -/
lemma Linked.landed {k : K}
    (hforward : ∀ s e r, trans s e → J s k r → J e.after k ((e.staged k).getD r))
    (hback : ∀ s e r, trans s e → J e.after k r → J s k r)
    (hl : Linked trans s chain) (h : J s k (disk k)) :
    J s k (landed keys (stagedBy chain) disk k) := by
  rw [GroupCommit.landed]
  split
  · exact hl.backward hback (hl.forward hforward h)
  · exact h

end Chain

/-! ### The machine -/

/-- A durable state with the transitions being written and those waiting for the next batch, the
disk, and the answers released so far. -/
structure State (S K R A : Type*) where
  base : S
  writing : List (Pending S K R A)
  opened : List (Pending S K R A)
  disk : K → Option R
  released : List A

namespace State

def tip (a : State S K R A) : S := GroupCommit.tip a.base (a.writing ++ a.opened)

end State

variable (trans : S → Pending S K R A → Prop) (similar : S → S → Prop)
  (restore : (K → Option R) → S → Prop) (lands : State S K R A → Set K → Prop)

/-- One step of the machine. A failed batch may leave a state that differs from the durable one
where the log of its transitions is not exact; `lands` says which records of a batch that is cut
may be found on the disk. -/
inductive Step : State S K R A → State S K R A → Prop
  /-- A transition joins the open batch. -/
  | join (a : State S K R A) {e : Pending S K R A} (run : trans a.tip e) :
    Step a { a with opened := a.opened ++ [e] }
  /-- Transitions nobody waits for, with nothing to write, are durable once no batch is beneath
  them. -/
  | absorb (a : State S K R A) (idle : a.writing = [])
    (silent : ∀ e ∈ a.opened, e.answer = none ∧ ∀ k, e.staged k = none) :
    Step a { a with base := GroupCommit.tip a.base a.opened, opened := [] }
  /-- The open batch is taken for writing. -/
  | take (a : State S K R A) (idle : a.writing = []) :
    Step a { a with writing := a.opened, opened := [] }
  /-- The batch is written, and its answers are released. -/
  | durable (a : State S K R A) :
    Step a { a with
      base := GroupCommit.tip a.base a.writing, writing := []
      disk := landed Set.univ (stagedBy a.writing) a.disk
      released := a.released ++ answers a.writing }
  /-- The batch fails, with any of its records landed. -/
  | fail (a : State S K R A) (keys : Set K) (cut : lands a keys) {s : S}
    (rewound : similar a.base s) :
    Step a { a with
      base := s, writing := [], opened := [], disk := landed keys (stagedBy a.writing) a.disk }
  /-- The process stops, with any of the records being written landed, and starts again. -/
  | crash (a : State S K R A) (keys : Set K) (cut : lands a keys) {s : S}
    (restored : restore (landed keys (stagedBy a.writing) a.disk) s) :
    Step a { a with
      base := s, writing := [], opened := [], disk := landed keys (stagedBy a.writing) a.disk }

/-- The laws of an invariant `I` of the states, a fact `B` about released answers, an order `W`
between them, and a link `J` between a state and the records of the disk. -/
structure Laws (I : S → Prop) (B : A → S → Prop) (W : A → A → Prop) (J : S → K → Option R → Prop) :
    Prop where
  inv : ∀ s e, I s → trans s e → I e.after
  new : ∀ s e x, I s ∧ trans s e → e.answer = some x → B x e.after
  keep : ∀ s e x, I s ∧ trans s e → B x s → B x e.after
  order : ∀ s e x y, I s ∧ trans s e → B x s → e.answer = some y → W x y
  forward : ∀ s e k r, I s ∧ trans s e → J s k r → J e.after k ((e.staged k).getD r)
  landed : ∀ (a : State S K R A) (keys : Set K), lands a keys →
    Linked (fun s e => I s ∧ trans s e) a.base a.writing → (∀ k, J a.base k (a.disk k)) →
    ∀ k, J a.base k (landed keys (stagedBy a.writing) a.disk k)
  similar_inv : ∀ s t, I s → similar s t → I t
  similar_fact : ∀ s t x, I s → similar s t → B x s → B x t
  similar_link : ∀ s t k r, I s → similar s t → J s k r → J t k r
  restore_inv : ∀ s disk t, I s → restore disk t → (∀ k, J s k (disk k)) → I t
  restore_fact : ∀ s disk t x, I s → restore disk t → (∀ k, J s k (disk k)) → B x s → B x t
  restore_link : ∀ s disk t k, I s → restore disk t → (∀ k, J s k (disk k)) → J t k (disk k)

/-- What holds in every state of the machine. -/
structure Sound (I : S → Prop) (B : A → S → Prop) (W : A → A → Prop) (J : S → K → Option R → Prop)
    (a : State S K R A) : Prop where
  linked : Linked trans a.base (a.writing ++ a.opened)
  inv : I a.base
  facts : ∀ x ∈ a.released, B x a.base
  ordered : a.released.Pairwise W
  disk : ∀ k, J a.base k (a.disk k)

variable {trans similar restore lands}
variable {I : S → Prop} {B : A → S → Prop} {W : A → A → Prop} {J : S → K → Option R → Prop}
  {a b : State S K R A}

lemma landed_univ (staged : K → Option (Option R)) (disk : K → Option R) (k : K) :
    landed Set.univ staged disk k = (staged k).getD (disk k) := if_pos trivial

lemma stagedBy_eq_none {chain : List (Pending S K R A)} {k : K}
    (h : ∀ e ∈ chain, e.staged k = none) : stagedBy chain k = none := by
  induction chain with
  | nil => rfl
  | cons e chain ih =>
    rw [stagedBy_cons, h e List.mem_cons_self, Option.or_none]
    exact ih fun e he => h e (List.mem_cons_of_mem _ he)

lemma Step.sound (hlaws : Laws trans similar restore lands I B W J)
    (h : Step trans similar restore lands a b) (ha : Sound trans I B W J a) : Sound trans I B W J b := by
  have hlinked := linked_append.1 (ha.linked.strengthen hlaws.inv ha.inv)
  have hwriting := hlinked.1
  have hopened := hlinked.2
  have hinv : I (tip a.base a.writing) :=
    hwriting.keep (fun s e h _ => hlaws.inv s e h.1 h.2) ha.inv
  have hlanded : ∀ keys, lands a keys →
      ∀ k, J a.base k (landed keys (stagedBy a.writing) a.disk k) := fun keys hcut =>
    hlaws.landed a keys hcut hwriting ha.disk
  cases h with
  | join run =>
    refine ⟨?_, ha.inv, ha.facts, ha.ordered, ha.disk⟩
    simp only
    rw [← List.append_assoc]
    exact linked_append.2 ⟨ha.linked, run, trivial⟩
  | absorb idle silent =>
    rw [idle, tip_nil] at hopened
    refine ⟨?_, hopened.keep (fun s e h _ => hlaws.inv s e h.1 h.2) ha.inv, fun x hx => ?_,
      ha.ordered, fun k => ?_⟩
    · simp only [idle]
      trivial
    · exact hopened.keep (fun s e he => hlaws.keep s e x he) (ha.facts x hx)
    · have := hopened.forward (fun s e => hlaws.forward s e k) (ha.disk k)
      rwa [stagedBy_eq_none fun e he => (silent e he).2 k] at this
  | take idle =>
    have := ha.linked
    rw [idle] at this
    exact ⟨by simpa using this, ha.inv, ha.facts, ha.ordered, ha.disk⟩
  | durable =>
    refine ⟨(linked_append.1 ha.linked).2, hinv, fun x hx => ?_, ?_, fun k => ?_⟩
    · rcases List.mem_append.1 hx with hx | hx
      · exact hwriting.keep (fun s e he => hlaws.keep s e x he) (ha.facts x hx)
      · exact hwriting.establish hlaws.keep hlaws.new hx
    · exact hwriting.pairwise hlaws.keep hlaws.new hlaws.order ha.facts ha.ordered
    · simp only [landed_univ]
      exact hwriting.forward (fun s e => hlaws.forward s e k) (ha.disk k)
  | fail keys cut rewound =>
    exact ⟨trivial, hlaws.similar_inv _ _ ha.inv rewound,
      fun x hx => hlaws.similar_fact _ _ x ha.inv rewound (ha.facts x hx), ha.ordered,
      fun k => hlaws.similar_link _ _ k _ ha.inv rewound (hlanded keys cut k)⟩
  | crash keys cut restored =>
    have hdisk := hlanded keys cut
    exact ⟨trivial, hlaws.restore_inv _ _ _ ha.inv restored hdisk,
      fun x hx => hlaws.restore_fact _ _ _ x ha.inv restored hdisk (ha.facts x hx),
      ha.ordered, fun k => hlaws.restore_link _ _ _ k ha.inv restored hdisk⟩

end GroupCommit

end Rings
