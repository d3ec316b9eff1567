import Rings.Did
import Mathlib.Algebra.BigOperators.Intervals
import Mathlib.Algebra.BigOperators.Group.List.Lemmas
import Mathlib.Order.Interval.Finset.Nat
import Mathlib.Data.List.ProdSigma
import Mathlib.Data.Finset.Card
import Mathlib.Tactic.Linarith

/-!
The unit ledger over the sliding window of aligned arrival quanta.

A ledger keeps one cell for each quantum of the window and reuses the cell with the least quantum
in place. What it stands for is a charge function from quanta to units: on the window that ends
at the clock, the cells of a quantum sum to its charge.
-/

namespace Rings

def admissionWindowQuanta : ℕ := 5

structure QuantumCharge where
  quantum : ℕ
  units : ℕ
  deriving DecidableEq

@[ext]
structure QuantumLedger where
  charges : List QuantumCharge
  size : charges.length = admissionWindowQuanta
  deriving DecidableEq

namespace QuantumLedger

def default : QuantumLedger := ⟨List.replicate admissionWindowQuanta ⟨0, 0⟩, List.length_replicate⟩

def inWindow (charged quantum : ℕ) : Bool :=
  saturatingAdd u128Max charged admissionWindowQuanta > quantum

def load (l : QuantumLedger) (quantum : ℕ) : ℕ :=
  (l.charges.filter fun c => inWindow c.quantum quantum).foldl
    (fun load c => saturatingAdd u32Max load c.units) 0

/-- The cell of `quantum` comes first, then the cell with the least quantum. -/
def rank (quantum : ℕ) (c : QuantumCharge) : Bool ×ₗ ℕ :=
  toLex (decide (c.quantum ≠ quantum), c.quantum)

def better (quantum : ℕ) (best next : QuantumCharge × ℕ) : QuantumCharge × ℕ :=
  if rank quantum next.1 < rank quantum best.1 then next else best

/-- The index of the cell a charge at `quantum` writes. -/
def cellIndex (quantum : ℕ) : List QuantumCharge → ℕ
  | [] => 0
  | head :: tail => ((tail.zipIdx 1).foldl (better quantum) (head, 0)).2

def recharge (quantum units : ℕ) (cell : QuantumCharge) : QuantumCharge :=
  ⟨quantum, if cell.quantum = quantum then saturatingAdd u32Max cell.units units else units⟩

/-- The ledger with `units` more at `quantum`. -/
def place (l : QuantumLedger) (quantum units : ℕ) : QuantumLedger :=
  ⟨l.charges.modify (cellIndex quantum l.charges) (recharge quantum units), by
    rw [List.length_modify, l.size]⟩

def charged (l : QuantumLedger) (quantum units cap : ℕ) : Option QuantumLedger :=
  ((checkedAdd u32Max (l.load quantum) units).filter (· ≤ cap)).map fun _ => l.place quantum units

/-! ### The chosen cell -/

lemma rank_le_iff {quantum : ℕ} {a b : QuantumCharge} :
    rank quantum a ≤ rank quantum b ↔ a.quantum = quantum ∨
      b.quantum ≠ quantum ∧ a.quantum ≤ b.quantum := by
  rw [rank, rank, Prod.Lex.toLex_le_toLex]
  by_cases ha : a.quantum = quantum <;> by_cases hb : b.quantum = quantum <;> simp [ha, hb]

lemma foldl_better (quantum : ℕ) (l : List (QuantumCharge × ℕ)) (start : QuantumCharge × ℕ) :
    (l.foldl (better quantum) start ∈ start :: l) ∧
      ∀ c ∈ start :: l, rank quantum (l.foldl (better quantum) start).1 ≤ rank quantum c.1 := by
  induction l generalizing start with
  | nil =>
    refine ⟨List.mem_cons_self, fun c hc => ?_⟩
    rw [List.mem_singleton.1 hc]
    exact le_rfl
  | cons next l ih =>
    obtain ⟨hmem, hleast⟩ := ih (better quantum start next)
    have hbest := hleast _ List.mem_cons_self
    have hfrom : better quantum start next = start ∨ better quantum start next = next := by
      rw [better]
      split
      · exact Or.inr rfl
      · exact Or.inl rfl
    have hle : rank quantum (better quantum start next).1 ≤ rank quantum start.1 ∧
        rank quantum (better quantum start next).1 ≤ rank quantum next.1 := by
      rw [better]
      split
      · rename_i hlt
        exact ⟨hlt.le, le_rfl⟩
      · rename_i hlt
        exact ⟨le_rfl, not_lt.1 hlt⟩
    rw [List.foldl_cons]
    refine ⟨?_, fun c hc => ?_⟩
    · rcases List.mem_cons.1 hmem with heq | hmem
      · rcases hfrom with hfrom | hfrom <;> rw [heq, hfrom] <;> simp
      · simp [hmem]
    · rcases List.mem_cons.1 hc with rfl | hc
      · exact hbest.trans hle.1
      · rcases List.mem_cons.1 hc with rfl | hc
        · exact hbest.trans hle.2
        · exact hleast c (List.mem_cons_of_mem _ hc)

/-- The chosen cell is one of the ledger's, and none comes before it. -/
lemma cellIndex_spec (quantum : ℕ) {cells : List QuantumCharge} (h : cells ≠ []) :
    ∃ cell, cells[cellIndex quantum cells]? = some cell ∧
      ∀ c ∈ cells, rank quantum cell ≤ rank quantum c := by
  cases cells with
  | nil => exact absurd rfl h
  | cons head tail =>
    obtain ⟨hmem, hleast⟩ := foldl_better quantum (tail.zipIdx 1) (head, 0)
    have hzip : (head, 0) :: tail.zipIdx 1 = (head :: tail).zipIdx := rfl
    rw [hzip] at hmem hleast
    refine ⟨_, List.mem_zipIdx_iff_getElem?.1 hmem, fun c hc => ?_⟩
    obtain ⟨j, hj⟩ := List.getElem?_of_mem hc
    exact hleast (c, j) (List.mem_zipIdx_iff_getElem?.2 hj)

/-- A charge rewrites one cell: the cell of its quantum, or one no later than any other. -/
lemma place_spec (l : QuantumLedger) (quantum units : ℕ) :
    ∃ pre cell post, l.charges = pre ++ cell :: post ∧
      (l.place quantum units).charges = pre ++ recharge quantum units cell :: post ∧
      ∀ c ∈ l.charges, cell.quantum = quantum ∨
        c.quantum ≠ quantum ∧ cell.quantum ≤ c.quantum := by
  have hne : l.charges ≠ [] := by
    intro hnil
    have hsize := l.size
    rw [hnil] at hsize
    cases hsize
  obtain ⟨cell, hcell, hleast⟩ := cellIndex_spec quantum hne
  obtain ⟨hlt, hget⟩ := List.getElem?_eq_some_iff.1 hcell
  refine ⟨l.charges.take (cellIndex quantum l.charges), cell,
    l.charges.drop (cellIndex quantum l.charges + 1), ?_, ?_,
    fun c hc => rank_le_iff.1 (hleast c hc)⟩
  · rw [← hget, List.cons_getElem_drop_succ, List.take_append_drop]
  · exact (List.modify_eq_take_cons_drop hlt).trans (by rw [hget])

/-! ### What a ledger records -/

/-- The units the cells of quantum `r` hold. -/
def unitsAt (cells : List QuantumCharge) (r : ℕ) : ℕ :=
  (cells.map fun c => if c.quantum = r then c.units else 0).sum

/-- The quanta of the window that ends at `s`. -/
def window (s : ℕ) : Finset ℕ := Finset.Icc (s - 4) s

lemma mem_window {r s : ℕ} : r ∈ window s ↔ r ≤ s ∧ s < r + 5 := by
  rw [window, Finset.mem_Icc]
  omega

/-- On the window that ends at the clock quantum `s`, the ledger records the charges `c`. A cell
of quantum zero holds nothing, so it may be reused before it leaves the window. -/
structure Records (l : QuantumLedger) (s : ℕ) (c : ℕ → ℕ) : Prop where
  past : ∀ cell ∈ l.charges, cell.quantum ≤ s
  blank : ∀ cell ∈ l.charges, cell.quantum = 0 → cell.units = 0
  distinct : l.charges.Pairwise fun a b => a.quantum = b.quantum → a.quantum = 0
  cells : ∀ r, s < r + 5 → unitsAt l.charges r = c r

lemma unitsAt_append (l m : List QuantumCharge) (r : ℕ) :
    unitsAt (l ++ m) r = unitsAt l r + unitsAt m r := by
  rw [unitsAt, List.map_append, List.sum_append]
  rfl

lemma unitsAt_cons (c : QuantumCharge) (l : List QuantumCharge) (r : ℕ) :
    unitsAt (c :: l) r = (if c.quantum = r then c.units else 0) + unitsAt l r := by
  rw [unitsAt, List.map_cons, List.sum_cons]
  rfl

lemma unitsAt_eq_zero {l : List QuantumCharge} {r : ℕ} (h : ∀ c ∈ l, c.quantum = r → c.units = 0) :
    unitsAt l r = 0 := by
  refine List.sum_eq_zero fun x hx => ?_
  obtain ⟨c, hc, rfl⟩ := List.mem_map.1 hx
  split
  · exact h c hc ‹_›
  · rfl

lemma Records.future {l : QuantumLedger} {s : ℕ} {c : ℕ → ℕ} (h : Records l s c) {r : ℕ}
    (hr : s < r) : c r = 0 := by
  rw [← h.cells r (by omega)]
  refine unitsAt_eq_zero fun cell hcell heq => ?_
  have := h.past cell hcell
  omega

lemma Records.later {l : QuantumLedger} {s s' : ℕ} {c : ℕ → ℕ} (h : Records l s c) (hle : s ≤ s') :
    Records l s' c :=
  ⟨fun cell hc => (h.past cell hc).trans hle, h.blank, h.distinct,
    fun r hr => h.cells r (by omega)⟩

/-- A new ledger records the charges of a sender that has drained. -/
lemma records_default {s : ℕ} {c : ℕ → ℕ} (h : ∀ r, s < r + 5 → c r = 0) :
    Records default s c := by
  have hcell : ∀ cell ∈ default.charges, cell = ⟨0, 0⟩ := fun cell hc =>
    List.eq_of_mem_replicate hc
  refine ⟨fun cell hc => ?_, fun cell hc _ => ?_, ?_, fun r hr => ?_⟩
  · rw [hcell cell hc]
    exact Nat.zero_le s
  · rw [hcell cell hc]
  · exact List.pairwise_of_forall_mem_list fun a ha b _ _ => by rw [hcell a ha]
  · rw [h r hr]
    exact unitsAt_eq_zero fun cell hc _ => by rw [hcell cell hc]

lemma foldl_saturating (cells : List QuantumCharge) (start : ℕ) (h : start ≤ u32Max) :
    cells.foldl (fun load c => saturatingAdd u32Max load c.units) start =
      min (start + (cells.map QuantumCharge.units).sum) u32Max := by
  induction cells generalizing start with
  | nil => simp [Nat.min_eq_left h]
  | cons c cells ih =>
    have hstart : saturatingAdd u32Max start c.units ≤ u32Max := Nat.min_le_right _ _
    rw [List.foldl_cons, ih _ hstart, List.map_cons, List.sum_cons, saturatingAdd]
    omega

lemma sum_units_eq (cells : List QuantumCharge) (w : Finset ℕ) :
    ((cells.filter fun c => c.quantum ∈ w).map QuantumCharge.units).sum =
      ∑ r ∈ w, unitsAt cells r := by
  induction cells with
  | nil => simp [unitsAt]
  | cons c cells ih =>
    simp only [unitsAt_cons, Finset.sum_add_distrib, Finset.sum_ite_eq, List.filter_cons]
    split
    · rename_i hc
      rw [if_pos (of_decide_eq_true hc), List.map_cons, List.sum_cons, ih]
    · rename_i hc
      rw [if_neg (by simpa using hc), Nat.zero_add, ih]

lemma Records.load {l : QuantumLedger} {s : ℕ} {c : ℕ → ℕ} (h : Records l s c)
    (hs : s < u128Max) : l.load s = min (∑ r ∈ window s, c r) u32Max := by
  have hfilter : l.charges.filter (fun cell => inWindow cell.quantum s) =
      l.charges.filter fun cell => cell.quantum ∈ window s := by
    refine List.filter_congr fun cell hcell => ?_
    have hpast := h.past cell hcell
    rw [inWindow, saturatingAdd, admissionWindowQuanta]
    simp only [mem_window, decide_eq_decide]
    omega
  rw [QuantumLedger.load, hfilter, foldl_saturating _ _ (Nat.zero_le _), Nat.zero_add,
    sum_units_eq]
  congr 1
  exact Finset.sum_congr rfl fun r hr => h.cells r (mem_window.1 hr).2

/-! ### A charge -/

/-- The charges `c` with `units` more at `s`. -/
def addAt (c : ℕ → ℕ) (s units : ℕ) (r : ℕ) : ℕ := if r = s then c r + units else c r

section Charge

variable {l : QuantumLedger} {s units : ℕ} {c : ℕ → ℕ}

/-- Five cells of distinct quanta before `s` reach back out of the window. -/
lemma Records.least_out (h : Records l s c) {cell : QuantumCharge}
    (hpos : 0 < cell.quantum)
    (hleast : ∀ d ∈ l.charges, d.quantum ≠ s ∧ cell.quantum ≤ d.quantum) :
    cell.quantum + 5 ≤ s := by
  have hnodup : (l.charges.map QuantumCharge.quantum).Nodup := by
    refine List.pairwise_map.2 (h.distinct.imp_of_mem fun {a b} ha hb himp heq => ?_)
    have := (hleast a ha).2
    have := himp heq
    omega
  have hsub : (l.charges.map QuantumCharge.quantum).toFinset ⊆ Finset.Ico cell.quantum s := by
    intro r hr
    obtain ⟨d, hd, rfl⟩ := List.mem_map.1 (List.mem_toFinset.1 hr)
    have hpast := h.past d hd
    have hd' := hleast d hd
    rw [Finset.mem_Ico]
    omega
  have hcard := Finset.card_le_card hsub
  rw [List.toFinset_card_of_nodup hnodup, List.length_map, l.size, Nat.card_Ico,
    admissionWindowQuanta] at hcard
  omega

/-- A charge after quantum zero records its units and loses none of the window. -/
lemma Records.place (h : Records l s c) (hs : 0 < s)
    (hunits : ∑ r ∈ window s, c r + units ≤ u32Max) :
    Records (l.place s units) s (addAt c s units) := by
  obtain ⟨pre, cell, post, hold, hnew, hleast⟩ := place_spec l s units
  have hmem : ∀ d, d ∈ pre ∨ d ∈ post → d ∈ l.charges := by
    intro d hd
    rw [hold]
    rcases hd with hd | hd <;> simp [hd]
  have hcell : cell ∈ l.charges := by
    rw [hold]
    simp
  have hquantum : (recharge s units cell).quantum = s := rfl
  have hdistinct := h.distinct
  rw [hold, List.pairwise_append, List.pairwise_cons] at hdistinct
  obtain ⟨hpre, ⟨hcellpost, hpost⟩, hcross⟩ := hdistinct
  -- the cell of `s` is the only one; without one, the chosen cell is out of the window
  have hother : ∀ d, d ∈ pre ∨ d ∈ post → d.quantum ≠ s := by
    intro d hd hds
    rcases hleast d (hmem d hd) with hq | ⟨hne, -⟩
    · rcases hd with hd | hd
      · have := hcross d hd cell List.mem_cons_self (hds.trans hq.symm)
        omega
      · have := hcellpost d hd (hq.trans hds.symm)
        omega
    · exact hne hds
  have hlost : ∀ r, s < r + 5 → cell.quantum ≠ s → cell.quantum = r → cell.units = 0 := by
    intro r hr hne hq
    rcases Nat.eq_zero_or_pos cell.quantum with hzero | hpos
    · exact h.blank cell hcell hzero
    · have := h.least_out hpos fun d hd => (hleast d hd).resolve_left hne
      omega
  refine ⟨fun d hd => ?_, fun d hd hzero => ?_, ?_, fun r hr => ?_⟩
  · rw [hnew, List.mem_append, List.mem_cons] at hd
    rcases hd with hd | rfl | hd
    · exact h.past d (hmem d (Or.inl hd))
    · exact le_rfl
    · exact h.past d (hmem d (Or.inr hd))
  · rw [hnew, List.mem_append, List.mem_cons] at hd
    rcases hd with hd | rfl | hd
    · exact h.blank d (hmem d (Or.inl hd)) hzero
    · exact absurd hzero hs.ne'
    · exact h.blank d (hmem d (Or.inr hd)) hzero
  · rw [hnew, List.pairwise_append, List.pairwise_cons]
    refine ⟨hpre, ⟨fun d hd heq => ?_, hpost⟩, fun a ha b hb heq => ?_⟩
    · exact absurd heq.symm (hother d (Or.inr hd))
    · rcases List.mem_cons.1 hb with rfl | hb
      · exact absurd heq (hother a (Or.inl ha))
      · exact hcross a ha b (List.mem_cons_of_mem _ hb) heq
  · have hcells := h.cells r hr
    rw [hold, unitsAt_append, unitsAt_cons] at hcells
    rw [hnew, unitsAt_append, unitsAt_cons, hquantum, addAt, ← hcells]
    by_cases hq : cell.quantum = s
    · have hfits : cell.units + units ≤ u32Max := by
        have hin : c s ≤ ∑ r ∈ window s, c r :=
          Finset.single_le_sum (fun _ _ => Nat.zero_le _) (mem_window.2 ⟨le_rfl, by omega⟩)
        have hs' := h.cells s (by omega)
        rw [hold, unitsAt_append, unitsAt_cons, if_pos hq] at hs'
        omega
      have hsum : (recharge s units cell).units = cell.units + units := by
        rw [recharge, if_pos hq]
        exact Nat.min_eq_left hfits
      rw [hsum, hq]
      split_ifs <;> omega
    · have hsum : (recharge s units cell).units = units := by
        rw [recharge, if_neg hq]
      rw [hsum]
      have hzero := hlost r hr hq
      split_ifs <;> omega

/-- Every aligned window of the charges is within the cap. -/
def Within (cap : ℕ) (c : ℕ → ℕ) : Prop := ∀ s, ∑ r ∈ window s, c r ≤ cap

lemma sum_addAt (c : ℕ → ℕ) (s units : ℕ) (w : Finset ℕ) :
    ∑ r ∈ w, QuantumLedger.addAt c s units r = ∑ r ∈ w, c r + if s ∈ w then units else 0 := by
  rw [← Finset.sum_ite_eq w s fun _ => units, ← Finset.sum_add_distrib]
  refine Finset.sum_congr rfl fun r _ => ?_
  rw [QuantumLedger.addAt]
  by_cases hr : r = s
  · rw [if_pos hr, if_pos hr.symm]
  · rw [if_neg hr, if_neg (Ne.symm hr), Nat.add_zero]

/-- A charge that fits the window ending at the last charged quantum fits every window. -/
lemma Within.addAt {cap : ℕ} (h : Within cap c) (hfuture : ∀ r, s < r → c r = 0)
    (hload : ∑ r ∈ window s, c r + units ≤ cap) : Within cap (addAt c s units) := by
  intro t
  rw [sum_addAt]
  split
  · rename_i hin
    have hin := mem_window.1 hin
    -- after `s` nothing is charged, so this window holds no more than the one that ends at `s`
    have hle : ∑ r ∈ window t, c r ≤ ∑ r ∈ window s, c r := by
      rw [← Finset.sum_filter_add_sum_filter_not (window t) (· ≤ s)]
      have hzero : ∑ r ∈ window t with ¬ r ≤ s, c r = 0 := by
        refine Finset.sum_eq_zero fun r hr => hfuture r ?_
        exact not_le.1 (Finset.mem_filter.1 hr).2
      rw [hzero, Nat.add_zero]
      refine Finset.sum_le_sum_of_subset fun r hr => ?_
      have hr := Finset.mem_filter.1 hr
      have := mem_window.1 hr.1
      exact mem_window.2 ⟨hr.2, by omega⟩
    omega
  · exact h t

variable {l' : QuantumLedger} {cap : ℕ}

/-- **A charge of the ledger.** It is taken exactly when the window has room for it, and then it
is recorded and every window stays within the cap. -/
lemma Records.charged (h : Records l s c) (hw : Within cap c) (hcap : cap ≤ u32Max) (hs : 0 < s)
    (htop : s < u128Max) :
    (∑ r ∈ window s, c r + units ≤ cap → l.charged s units cap = some (l.place s units)) ∧
      ∀ l', l.charged s units cap = some l' →
        Records l' s (QuantumLedger.addAt c s units) ∧ Within cap (QuantumLedger.addAt c s units) := by
  have hsum := hw s
  have hload : l.load s = ∑ r ∈ window s, c r := by
    rw [h.load htop]
    exact Nat.min_eq_left (hsum.trans hcap)
  rw [QuantumLedger.charged, hload]
  refine ⟨fun hfits => ?_, fun l' hl' => ?_⟩
  · rw [checkedAdd, if_pos (hfits.trans hcap), Option.filter_some,
      if_pos (decide_eq_true hfits), Option.map_some]
  · obtain ⟨sum, hsum', rfl⟩ := Option.map_eq_some_iff.1 hl'
    obtain ⟨hadd, hle⟩ := Option.filter_eq_some_iff.1 hsum'
    rw [checkedAdd] at hadd
    split at hadd
    · obtain rfl := Option.some.inj hadd
      have hfits := of_decide_eq_true hle
      exact ⟨h.place hs (hfits.trans hcap), hw.addAt (fun r => h.future) hfits⟩
    · cases hadd

lemma Records.drained (h : Records l s c) (htop : s < u128Max) (hload : l.load s = 0) {r : ℕ}
    (hr : s < r + 5) : c r = 0 := by
  rw [h.load htop] at hload
  have hsum : ∑ r ∈ window s, c r = 0 := by
    have : 0 < u32Max := by decide
    omega
  rcases Nat.lt_or_ge s r with hlt | hge
  · exact h.future hlt
  · exact Finset.sum_eq_zero_iff.1 hsum r (mem_window.2 ⟨hge, hr⟩)

end Charge

/-! ### A ledger that forgets at most -/

/-- The ledger holds no more than the charges `c`, whatever it has forgotten. -/
def Below (l : QuantumLedger) (c : ℕ → ℕ) : Prop := ∀ r, unitsAt l.charges r ≤ c r

lemma below_default (c : ℕ → ℕ) : Below default c := by
  intro r
  rw [unitsAt_eq_zero fun cell hc _ => by rw [List.eq_of_mem_replicate hc]]
  exact Nat.zero_le _

lemma sum_units_filter_le {cells : List QuantumCharge} {p q : QuantumCharge → Bool}
    (h : ∀ cell ∈ cells, p cell = true → q cell = true ∨ cell.units = 0) :
    ((cells.filter p).map QuantumCharge.units).sum ≤
      ((cells.filter q).map QuantumCharge.units).sum := by
  induction cells with
  | nil => exact le_rfl
  | cons cell cells ih =>
    have hrest := ih fun d hd => h d (List.mem_cons_of_mem _ hd)
    have hcell := h cell List.mem_cons_self
    rw [List.filter_cons, List.filter_cons]
    by_cases hp : p cell = true
    · rcases hcell hp with hq | hzero
      · rw [if_pos hp, if_pos hq, List.map_cons, List.map_cons, List.sum_cons, List.sum_cons]
        omega
      · rw [if_pos hp, List.map_cons, List.sum_cons, hzero, Nat.zero_add]
        refine hrest.trans ?_
        split
        · rw [List.map_cons, List.sum_cons]
          omega
        · exact le_rfl
    · rw [if_neg hp]
      refine hrest.trans ?_
      split
      · rw [List.map_cons, List.sum_cons]
        omega
      · exact le_rfl

lemma Below.load_le {l : QuantumLedger} {c : ℕ → ℕ} (h : Below l c) {s : ℕ}
    (hfuture : ∀ r, s < r → c r = 0) : l.load s ≤ ∑ r ∈ window s, c r := by
  have hwindow : ∀ cell ∈ l.charges, inWindow cell.quantum s = true →
      decide (cell.quantum ∈ window s) = true ∨ cell.units = 0 := by
    intro cell hcell hin
    rw [inWindow, saturatingAdd, admissionWindowQuanta, decide_eq_true_eq] at hin
    rw [decide_eq_true_eq, mem_window]
    by_cases hpast : cell.quantum ≤ s
    · exact Or.inl ⟨hpast, by omega⟩
    · have hzero := (h cell.quantum).trans (hfuture _ (not_le.1 hpast)).le
      obtain ⟨pre, post, hsplit⟩ := List.append_of_mem hcell
      rw [hsplit, unitsAt_append, unitsAt_cons, if_pos rfl] at hzero
      exact Or.inr (by omega)
  calc l.load s
      ≤ ((l.charges.filter fun cell => inWindow cell.quantum s).map QuantumCharge.units).sum := by
        rw [QuantumLedger.load, foldl_saturating _ _ (Nat.zero_le _), Nat.zero_add]
        exact Nat.min_le_left _ _
    _ ≤ ((l.charges.filter fun cell => cell.quantum ∈ window s).map QuantumCharge.units).sum :=
        sum_units_filter_le hwindow
    _ ≤ ∑ r ∈ window s, c r := by
        rw [sum_units_eq]
        exact Finset.sum_le_sum fun r _ => h r

lemma Below.place {l : QuantumLedger} {c : ℕ → ℕ} (h : Below l c) (s units : ℕ) :
    Below (l.place s units) (addAt c s units) := by
  obtain ⟨pre, cell, post, hold, hnew, -⟩ := place_spec l s units
  intro r
  have hr := h r
  have hquantum : (recharge s units cell).quantum = s := rfl
  have hunits : (recharge s units cell).units ≤
      (if cell.quantum = s then cell.units else 0) + units := by
    rw [recharge]
    split
    · exact Nat.min_le_left _ _
    · exact Nat.le_add_left _ _
  rw [hold, unitsAt_append, unitsAt_cons] at hr
  rw [hnew, unitsAt_append, unitsAt_cons, hquantum, addAt]
  by_cases hrs : r = s
  · subst hrs
    rw [if_pos rfl, if_pos rfl]
    omega
  · rw [if_neg (Ne.symm hrs), if_neg hrs]
    omega

lemma Below.charged {l : QuantumLedger} {c : ℕ → ℕ} (h : Below l c) {s units cap : ℕ}
    (hfuture : ∀ r, s < r → c r = 0) (hcap : cap ≤ u32Max)
    (hfits : ∑ r ∈ window s, c r + units ≤ cap) :
    l.charged s units cap = some (l.place s units) := by
  have hload := h.load_le hfuture
  rw [QuantumLedger.charged, checkedAdd, if_pos (by omega), Option.filter_some,
    if_pos (decide_eq_true (by omega)), Option.map_some]

end QuantumLedger

end Rings
