import Rings.OnionAtMostOnce

/-!
The budgets of onion admission, per sender and per hop.

Every ledger records the charges of its sender on the window that ends at the clock, and a sender
without a ledger has none there: a ledger is released only when it has drained. The cells of a new
ledger are all of quantum zero, so a charge made in quantum zero may be overwritten while it is
still in the window; the budgets stand for epochs without one.
-/

namespace Rings.Onion

open QuantumLedger
open OnionAdmissionState (snapshotOf linksOf)

variable {keccak256 : List Byte → Vector Byte 32}

/-! ### Units charged -/

def senderUnits (charges : List ChargeRecord) (did : Did) (r : ℕ) : ℕ :=
  ((charges.filter fun c => c.did = did ∧ c.quantum = r).map fun c => (c.units : ℕ)).sum

def hopUnits (charges : List ChargeRecord) (r : ℕ) : ℕ :=
  ((charges.filter fun c => c.quantum = r).map fun c => (c.units : ℕ)).sum

lemma senderUnits_cons (c : ChargeRecord) (charges : List ChargeRecord) (did : Did) :
    senderUnits (c :: charges) did =
      if c.did = did then addAt (senderUnits charges did) c.quantum c.units
      else senderUnits charges did := by
  funext r
  by_cases hdid : c.did = did <;> by_cases hr : c.quantum = r
  · rw [senderUnits, List.filter_cons_of_pos (by simp [hdid, hr]), List.map_cons, List.sum_cons,
      if_pos hdid, addAt, if_pos hr.symm, Nat.add_comm]
    rfl
  · rw [senderUnits, List.filter_cons_of_neg (by simp [hr]), if_pos hdid, addAt,
      if_neg (Ne.symm hr)]
    rfl
  · rw [senderUnits, List.filter_cons_of_neg (by simp [hdid]), if_neg hdid]
    rfl
  · rw [senderUnits, List.filter_cons_of_neg (by simp [hdid]), if_neg hdid]
    rfl

lemma hopUnits_cons (c : ChargeRecord) (charges : List ChargeRecord) :
    hopUnits (c :: charges) = addAt (hopUnits charges) c.quantum c.units := by
  funext r
  by_cases hr : c.quantum = r
  · rw [hopUnits, List.filter_cons_of_pos (by simp [hr]), List.map_cons, List.sum_cons, addAt,
      if_pos hr.symm, Nat.add_comm]
    rfl
  · rw [hopUnits, List.filter_cons_of_neg (by simp [hr]), addAt, if_neg (Ne.symm hr)]
    rfl

/-! ### The table of ledgers -/

/-- The ledger of `did`, a new one where the table has none. -/
def ledgerOf (s : OnionAdmissionState) (did : Did) : QuantumLedger :=
  (s.senders.get? did).elim .default SenderLedger.ledger

/-- The clock is swept, no ledger is releasable, and the table and the live links fit. -/
structure Tidy (s : OnionAdmissionState) : Prop where
  swept : s.sweptQuantum = s.quantum
  held : ∀ did sender, s.senders.get? did = some sender →
    sender.isReleasableAt s.quantum = false
  room : (s.senders.sumBy fun _ _ => 1) ≤ s.capacity
  links : s.liveLinkCount ≤ s.capacity

structure Ledgers (charges : List ChargeRecord) (s : OnionAdmissionState) : Prop where
  clock : s.clockMs ≤ u128Max
  global : Records s.global s.quantum (hopUnits charges)
  senders : ∀ did, Records (ledgerOf s did) s.quantum (senderUnits charges did)

lemma quantum_lt {s : OnionAdmissionState} (h : s.clockMs ≤ u128Max) : s.quantum < u128Max :=
  (Nat.div_le_div_right h).trans_lt (by decide)

lemma isReleasableAt_of_live {sender : SenderLedger} {g quantum : ℕ} (h : g ∈ sender.live) :
    sender.isReleasableAt quantum = false := by
  rw [SenderLedger.isReleasableAt, decide_eq_false (Finset.ne_empty_of_mem h), Bool.false_and]

lemma load_of_releasable {sender : SenderLedger} {quantum : ℕ}
    (h : sender.isReleasableAt quantum = true) : sender.ledger.load quantum = 0 := by
  rw [SenderLedger.isReleasableAt, Bool.and_eq_true, beq_iff_eq] at h
  exact h.2

section Advance

variable {s : OnionAdmissionState} {nowMs : ℕ}

/-- What the clock, the capacity and the table are after an advance. -/
lemma advance_spec (s : OnionAdmissionState) (nowMs : ℕ) (hswept : s.sweptQuantum = s.quantum) :
    (s.advance nowMs).clockMs = max s.clockMs nowMs ∧
      (s.advance nowMs).capacity = s.capacity ∧ (s.advance nowMs).global = s.global ∧
      (s.advance nowMs).sweptQuantum = (s.advance nowMs).quantum ∧
      ((s.advance nowMs).quantum = s.quantum ∧ (s.advance nowMs).senders = s.senders ∨
        s.quantum < (s.advance nowMs).quantum ∧
          (s.advance nowMs).senders = s.senders.retain fun _ sender =>
            !sender.isReleasableAt (s.advance nowMs).quantum) := by
  have hmono : s.quantum ≤ max s.clockMs nowMs / onionExpiryQuantumMs :=
    Nat.div_le_div_right (le_max_left _ _)
  rw [OnionAdmissionState.advance]
  split
  · rename_i hnew
    exact ⟨rfl, rfl, rfl, rfl, Or.inr ⟨hswept ▸ hnew, rfl⟩⟩
  · rename_i hold
    have hsame : max s.clockMs nowMs / onionExpiryQuantumMs = s.quantum := by omega
    exact ⟨rfl, rfl, rfl, hswept.trans hsame.symm, Or.inl ⟨hsame, rfl⟩⟩

lemma get?_retain_cases {K V : Type*} [LinearOrder K] (m : BTreeMap K V) (p : K → V → Bool)
    (k : K) : (m.retain p).get? k = m.get? k ∨
      ∃ v, m.get? k = some v ∧ p k v = false ∧ (m.retain p).get? k = none := by
  rw [BTreeMap.get?_retain]
  cases hv : m.get? k with
  | none => exact Or.inl rfl
  | some v =>
    cases hp : p k v with
    | true => exact Or.inl (by rw [Option.filter_some, if_pos hp])
    | false => exact Or.inr ⟨v, rfl, hp, by rw [Option.filter_some, if_neg (by simp [hp])]⟩

lemma sumBy_retain_le {K V : Type*} [LinearOrder K] (m : BTreeMap K V) (p : K → V → Bool)
    (f : K → V → ℕ) : (m.retain p).sumBy f ≤ m.sumBy f := by
  refine BTreeMap.sumBy_le_sumBy fun k => ?_
  rcases get?_retain_cases m p k with heq | ⟨v, -, -, heq⟩
  · rw [heq]
  · rw [heq]
    exact Nat.zero_le _

lemma Tidy.advance (h : Tidy s) : Tidy (s.advance nowMs) := by
  obtain ⟨-, hcap, -, hswept, ⟨hq, hsenders⟩ | ⟨-, hsenders⟩⟩ := advance_spec s nowMs h.swept
  · refine ⟨hswept, ?_, ?_, ?_⟩
    · rw [hq, hsenders]
      exact h.held
    · rw [hsenders, hcap]
      exact h.room
    · rw [OnionAdmissionState.liveLinkCount, hsenders, hcap]
      exact h.links
  · refine ⟨hswept, ?_, ?_, ?_⟩
    · intro did sender hget
      rw [hsenders, BTreeMap.get?_retain] at hget
      simpa using (Option.filter_eq_some_iff.1 hget).2
    · rw [hsenders, hcap]
      exact (sumBy_retain_le _ _ _).trans h.room
    · rw [OnionAdmissionState.liveLinkCount, hsenders, hcap]
      exact (sumBy_retain_le _ _ _).trans h.links

lemma Ledgers.advance {charges : List ChargeRecord} (h : Ledgers charges s)
    (hswept : s.sweptQuantum = s.quantum) (hnow : nowMs ≤ u128Max) :
    Ledgers charges (s.advance nowMs) := by
  obtain ⟨hclock, -, hglobal, -, hcases⟩ := advance_spec s nowMs hswept
  have hle : (s.advance nowMs).clockMs ≤ u128Max := hclock ▸ max_le h.clock hnow
  refine ⟨hle, ?_, fun did => ?_⟩
  · rw [hglobal]
    rcases hcases with ⟨hq, -⟩ | ⟨hq, -⟩
    · rw [hq]
      exact h.global
    · exact h.global.later hq.le
  · rcases hcases with ⟨hq, hsenders⟩ | ⟨hq, hsenders⟩
    · rw [ledgerOf, hsenders, hq]
      exact h.senders did
    · have hrecords := (h.senders did).later hq.le
      rw [ledgerOf, hsenders]
      rcases get?_retain_cases s.senders
        (fun _ sender => !sender.isReleasableAt (s.advance nowMs).quantum) did with
        heq | ⟨sender, hget, hreleased, heq⟩
      · rw [heq]
        exact hrecords
      · -- a ledger that is released has drained
        rw [heq]
        rw [ledgerOf, hget] at hrecords
        have hload := load_of_releasable (by simpa using hreleased)
        exact records_default fun r hr => hrecords.drained (quantum_lt hle) hload hr

end Advance

/-! ### Opening and closing a link -/

def liveOf (s : OnionAdmissionState) (did : Did) : Finset ℕ :=
  (s.senders.get? did).elim ∅ SenderLedger.live

lemma isLive_iff {s : OnionAdmissionState} {link : OnionAdmissionLink} :
    s.isLive link = true ↔ link.generation ∈ liveOf s link.did := by
  rw [OnionAdmissionState.isLive, liveOf]
  cases s.senders.get? link.did <;> simp

lemma length_eq_sumBy {K V : Type*} [LinearOrder K] (m : BTreeMap K V) :
    m.entries.length = m.sumBy fun _ _ => 1 := by
  simp [BTreeMap.sumBy]

/-- A link is opened where the table has room, and its sender keeps its ledger. -/
lemma linkOpened_cases (s : OnionAdmissionState) (nowMs : ℕ) (link : OnionAdmissionLink) :
    ((s.advance nowMs).isLive link = true ∧ s.linkOpened nowMs link = (s.advance nowMs, true)) ∨
      (s.advance nowMs).isLive link = false ∧
        (s.linkOpened nowMs link = (s.advance nowMs, false) ∨
          (s.advance nowMs).liveLinkCount < (s.advance nowMs).capacity ∧
          ((s.advance nowMs).senders.get? link.did = none →
            ((s.advance nowMs).senders.sumBy fun _ _ => 1) < (s.advance nowMs).capacity) ∧
          s.linkOpened nowMs link = ({ s.advance nowMs with
            senders := (s.advance nowMs).senders.insert link.did
              ⟨ledgerOf (s.advance nowMs) link.did,
                insert link.generation (liveOf (s.advance nowMs) link.did)⟩ }, true)) := by
  unfold OnionAdmissionState.linkOpened OnionAdmissionState.isLive ledgerOf liveOf
  dsimp only
  rcases (s.advance nowMs).senders.get? link.did with _ | sender
  · right
    simp only
    split
    · rename_i hroom
      rw [length_eq_sumBy] at hroom
      exact ⟨rfl, Or.inr ⟨hroom.1, fun _ => hroom.2, rfl⟩⟩
    · exact ⟨rfl, Or.inl rfl⟩
  · simp only
    split
    · rename_i hlive
      exact Or.inl ⟨decide_eq_true hlive, rfl⟩
    · rename_i hlive
      right
      split
      · rename_i hroom
        exact ⟨decide_eq_false hlive, Or.inr ⟨hroom, nofun, rfl⟩⟩
      · exact ⟨decide_eq_false hlive, Or.inl rfl⟩

/-- A link is closed in the ledger of its sender, which is released when that leaves it drained
and without link. -/
lemma linkClosed_cases (s : OnionAdmissionState) (nowMs : ℕ) (link : OnionAdmissionLink) :
    ((s.advance nowMs).senders.get? link.did = none ∧
        s.linkClosed nowMs link = s.advance nowMs) ∨
      ∃ sender, (s.advance nowMs).senders.get? link.did = some sender ∧
        ((SenderLedger.isReleasableAt { sender with live := sender.live.erase link.generation }
            (s.advance nowMs).quantum = true ∧
          s.linkClosed nowMs link = { s.advance nowMs with
            senders := (s.advance nowMs).senders.remove link.did }) ∨
        (SenderLedger.isReleasableAt { sender with live := sender.live.erase link.generation }
            (s.advance nowMs).quantum = false ∧
          s.linkClosed nowMs link = { s.advance nowMs with
            senders := (s.advance nowMs).senders.insert link.did
              { sender with live := sender.live.erase link.generation } })) := by
  unfold OnionAdmissionState.linkClosed
  dsimp only
  rcases (s.advance nowMs).senders.get? link.did with _ | sender
  · exact Or.inl ⟨rfl, rfl⟩
  · refine Or.inr ⟨sender, rfl, ?_⟩
    simp only
    split
    · exact Or.inl ⟨‹_›, rfl⟩
    · rename_i hkept
      exact Or.inr ⟨Bool.not_eq_true _ ▸ hkept, rfl⟩

section Links

variable {s : OnionAdmissionState} {nowMs : ℕ} {link : OnionAdmissionLink}
  {charges : List ChargeRecord}

/-- A sender is put in the table: it has a link, and the counts stay within the capacity. -/
lemma Tidy.insert (h : Tidy s) {did : Did} {sender : SenderLedger} {global : QuantumLedger}
    (hheld : sender.isReleasableAt s.quantum = false)
    (hroom : s.senders.get? did = none → (s.senders.sumBy fun _ _ => 1) < s.capacity)
    (hlinks : s.liveLinkCount + sender.live.card ≤ s.capacity + (liveOf s did).card) :
    Tidy { s with senders := s.senders.insert did sender, global := global } := by
  refine ⟨h.swept, ?_, ?_, ?_⟩
  · intro did' sender' hget
    rw [BTreeMap.get?_insert] at hget
    split at hget
    · obtain rfl := Option.some.inj hget
      exact hheld
    · exact h.held did' sender' hget
  · have hsum := BTreeMap.sumBy_insert (fun _ _ => 1) s.senders did sender
    have hle := h.room
    rcases hget : s.senders.get? did with _ | old
    · have := hroom hget
      simp only [hget, Option.elim_none] at hsum
      simp only
      omega
    · simp only [hget, Option.elim_some] at hsum
      simp only
      omega
  · have hsum := BTreeMap.sumBy_insert (fun _ (sender : SenderLedger) => sender.live.card)
      s.senders did sender
    have hcard : ((s.senders.get? did).elim 0 fun sender => sender.live.card) =
        (liveOf s did).card := by
      rw [liveOf]
      cases s.senders.get? did <;> rfl
    rw [hcard] at hsum
    rw [OnionAdmissionState.liveLinkCount] at hlinks ⊢
    simp only
    omega

lemma Tidy.linkOpened (h : Tidy s) : Tidy (s.linkOpened nowMs link).1 := by
  have hadvance : Tidy (s.advance nowMs) := h.advance
  rcases linkOpened_cases s nowMs link with ⟨-, heq⟩ | ⟨hlive, heq | ⟨hcount, hroom, heq⟩⟩
  · rw [heq]
    exact hadvance
  · rw [heq]
    exact hadvance
  · rw [heq]
    refine hadvance.insert (isReleasableAt_of_live (Finset.mem_insert_self _ _)) hroom ?_
    have hcard := Finset.card_insert_le link.generation (liveOf (s.advance nowMs) link.did)
    simp only
    omega

lemma Ledgers.linkOpened (h : Ledgers charges s) (hswept : s.sweptQuantum = s.quantum)
    (hnow : nowMs ≤ u128Max) : Ledgers charges (s.linkOpened nowMs link).1 := by
  have hadvance := h.advance hswept hnow
  rcases linkOpened_cases s nowMs link with ⟨-, heq⟩ | ⟨-, heq | ⟨-, -, heq⟩⟩
  · rw [heq]
    exact hadvance
  · rw [heq]
    exact hadvance
  · rw [heq]
    refine { hadvance with senders := fun did => ?_ }
    have hrecords := hadvance.senders did
    rw [ledgerOf, BTreeMap.get?_insert]
    split
    · rename_i hdid
      rw [hdid] at hrecords ⊢
      exact hrecords
    · exact hrecords

lemma Tidy.linkClosed (h : Tidy s) : Tidy (s.linkClosed nowMs link) := by
  have hadvance : Tidy (s.advance nowMs) := h.advance
  rcases linkClosed_cases s nowMs link with
    ⟨-, heq⟩ | ⟨sender, hget, ⟨-, heq⟩ | ⟨hheld, heq⟩⟩
  · rw [heq]
    exact hadvance
  · rw [heq]
    refine ⟨hadvance.swept, ?_, ?_, ?_⟩
    · intro did sender' hget'
      rw [BTreeMap.get?_remove] at hget'
      split at hget'
      · cases hget'
      · exact hadvance.held did sender' hget'
    · exact (sumBy_retain_le _ _ _).trans hadvance.room
    · exact (sumBy_retain_le _ _ _).trans hadvance.links
  · rw [heq]
    refine hadvance.insert hheld (fun hnone => absurd (hget.symm.trans hnone) nofun) ?_
    have hlive : liveOf (s.advance nowMs) link.did = sender.live := by
      rw [liveOf, hget]
      rfl
    rw [hlive]
    have hcard := Finset.card_erase_le (s := sender.live) (a := link.generation)
    have hlinks := hadvance.links
    simp only
    omega

lemma Ledgers.linkClosed (h : Ledgers charges s) (hswept : s.sweptQuantum = s.quantum)
    (hnow : nowMs ≤ u128Max) : Ledgers charges (s.linkClosed nowMs link) := by
  have hadvance := h.advance hswept hnow
  rcases linkClosed_cases s nowMs link with
    ⟨-, heq⟩ | ⟨sender, hget, ⟨hreleased, heq⟩ | ⟨-, heq⟩⟩
  · rw [heq]
    exact hadvance
  · rw [heq]
    refine { hadvance with senders := fun did => ?_ }
    have hrecords := hadvance.senders did
    rw [ledgerOf, BTreeMap.get?_remove]
    split
    · rename_i hdid
      rw [hdid, ledgerOf, hget] at hrecords
      have hload := load_of_releasable hreleased
      rw [hdid]
      exact records_default fun r hr => hrecords.drained (quantum_lt hadvance.clock) hload hr
    · exact hrecords
  · rw [heq]
    refine { hadvance with senders := fun did => ?_ }
    have hrecords := hadvance.senders did
    rw [ledgerOf, BTreeMap.get?_insert]
    split
    · rename_i hdid
      rw [hdid, ledgerOf, hget] at hrecords
      rw [hdid]
      exact hrecords
    · exact hrecords

end Links

/-! ### The live links -/

section Live

variable (s : OnionAdmissionState) (nowMs : ℕ) (link x : OnionAdmissionLink)

lemma liveOf_advance (did : Did) : liveOf (s.advance nowMs) did = liveOf s did := by
  rw [OnionAdmissionState.advance]
  split
  · rw [liveOf]
    simp only
    rcases get?_retain_cases s.senders (fun _ sender => !sender.isReleasableAt
      (max s.clockMs nowMs / onionExpiryQuantumMs)) did with heq | ⟨sender, hget, hreleased, heq⟩
    · rw [heq]
      rfl
    · rw [heq, liveOf, hget]
      rw [Bool.not_eq_false', SenderLedger.isReleasableAt, Bool.and_eq_true,
        decide_eq_true_eq] at hreleased
      exact hreleased.1.symm
  · rfl

lemma isLive_linkClosed : (s.linkClosed nowMs link).isLive x = true ↔
    s.isLive x = true ∧ x ≠ link := by
  have hne : x ≠ link ↔ x.did = link.did → x.generation ≠ link.generation := by
    cases x
    cases link
    simp
  simp only [isLive_iff, hne]
  rw [← liveOf_advance s nowMs x.did]
  rcases linkClosed_cases s nowMs link with
    ⟨hnone, heq⟩ | ⟨sender, hget, ⟨hreleased, heq⟩ | ⟨-, heq⟩⟩
  · rw [heq, liveOf]
    refine ⟨fun h => ⟨h, fun hdid => ?_⟩, fun h => h.1⟩
    rw [hdid, hnone] at h
    exact absurd h (Finset.notMem_empty _)
  · rw [SenderLedger.isReleasableAt, Bool.and_eq_true, decide_eq_true_eq] at hreleased
    rw [heq, liveOf, BTreeMap.get?_remove]
    split
    · rename_i hdid
      rw [liveOf, hdid, hget]
      refine ⟨fun h => absurd h (Finset.notMem_empty _), fun ⟨h, hgen⟩ => ?_⟩
      have hmem : x.generation ∈ sender.live.erase link.generation :=
        Finset.mem_erase.2 ⟨hgen rfl, h⟩
      have hempty : sender.live.erase link.generation = ∅ := hreleased.1
      rw [hempty] at hmem
      exact absurd hmem (Finset.notMem_empty _)
    · rename_i hdid
      exact ⟨fun h => ⟨h, fun heq => absurd heq hdid⟩, fun h => h.1⟩
  · rw [heq, liveOf, BTreeMap.get?_insert]
    split
    · rename_i hdid
      rw [liveOf, hdid, hget, Option.elim_some, Option.elim_some, Finset.mem_erase, and_comm]
      exact and_congr_right fun _ => ⟨fun h _ => h, fun h => h rfl⟩
    · rename_i hdid
      exact ⟨fun h => ⟨h, fun heq => absurd heq hdid⟩, fun h => h.1⟩

/-- Opening a link makes it live, or finds no room for it and changes no link. -/
lemma isLive_linkOpened :
    ((s.linkOpened nowMs link).1.isLive x = true ↔
      s.isLive x = true ∨ (s.linkOpened nowMs link).2 = true ∧ x = link) ∧
    ((s.linkOpened nowMs link).2 = false → s.isLive link = false) := by
  have hadvance : ∀ y, (s.advance nowMs).isLive y = s.isLive y := fun y => by
    rw [Bool.eq_iff_iff, isLive_iff, isLive_iff, liveOf_advance]
  rcases linkOpened_cases s nowMs link with ⟨hlive, heq⟩ | ⟨hlive, heq | ⟨-, -, heq⟩⟩
  · rw [heq, hadvance]
    rw [hadvance] at hlive
    refine ⟨⟨Or.inl, fun h => ?_⟩, nofun⟩
    rcases h with h | ⟨-, rfl⟩
    · exact h
    · exact hlive
  · rw [heq, hadvance]
    rw [hadvance] at hlive
    exact ⟨⟨Or.inl, fun h => h.resolve_right nofun⟩, fun _ => hlive⟩
  · rw [heq]
    refine ⟨?_, nofun⟩
    simp only [isLive_iff, true_and]
    rw [liveOf, BTreeMap.get?_insert]
    split
    · rename_i hdid
      rw [Option.elim_some, Finset.mem_insert, liveOf_advance, hdid, or_comm]
      refine or_congr_right ⟨fun hgen => ?_, fun h => by rw [h]⟩
      cases x
      cases link
      simp_all
    · rename_i hdid
      rw [← liveOf, liveOf_advance]
      exact ⟨Or.inl, fun h => h.resolve_right fun heq => hdid (by rw [heq])⟩

lemma isLive_closeAll (links : List OnionAdmissionLink) :
    (links.foldl (fun s link => s.linkClosed nowMs link) s).isLive x = true ↔
      s.isLive x = true ∧ x ∉ links := by
  induction links generalizing s with
  | nil => simp
  | cons link links ih =>
    rw [List.foldl_cons, ih, isLive_linkClosed, List.mem_cons, not_or, and_assoc]

lemma openAll_cons (links : List OnionAdmissionLink) :
    s.openAll nowMs (link :: links) =
      (((s.linkOpened nowMs link).1.openAll nowMs links).1,
        (if (s.linkOpened nowMs link).2 then [] else [link]) ++
          ((s.linkOpened nowMs link).1.openAll nowMs links).2) := by
  have hfold : ∀ (links refused : List OnionAdmissionLink) (s : OnionAdmissionState),
      links.foldl (fun acc link =>
        let opened := acc.1.linkOpened nowMs link
        (opened.1, if opened.2 then acc.2 else acc.2 ++ [link])) (s, refused) =
      ((s.openAll nowMs links).1, refused ++ (s.openAll nowMs links).2) := by
    intro links
    induction links with
    | nil => exact fun refused s => by simp [OnionAdmissionState.openAll]
    | cons link links ih =>
      intro refused s
      rw [OnionAdmissionState.openAll, List.foldl_cons, List.foldl_cons]
      dsimp only
      rw [ih, ih]
      split <;> simp
  rw [OnionAdmissionState.openAll, List.foldl_cons]
  dsimp only
  rw [hfold]
  split <;> rfl

/-- Opening links in turn: the refused are those left not live. -/
lemma isLive_openAll {links : List OnionAdmissionLink} (hnodup : links.Nodup) :
    ((s.openAll nowMs links).1.isLive x = true ↔
      s.isLive x = true ∨ x ∈ links ∧ x ∉ (s.openAll nowMs links).2) ∧
    (x ∈ (s.openAll nowMs links).2 → x ∈ links ∧ s.isLive x = false) := by
  induction links generalizing s with
  | nil => simp [OnionAdmissionState.openAll]
  | cons link links ih =>
    obtain ⟨hout, hnodup⟩ := List.nodup_cons.1 hnodup
    obtain ⟨hlive, hrefused⟩ := isLive_linkOpened s nowMs link x
    obtain ⟨hrest, hin⟩ := ih (s.linkOpened nowMs link).1 hnodup
    rw [openAll_cons]
    simp only
    rw [hrest, hlive]
    have hlinkIn : x = link → x ∉ ((s.linkOpened nowMs link).1.openAll nowMs links).2 := by
      rintro rfl hmem
      exact hout (hin hmem).1
    have hrestIn : x ∈ ((s.linkOpened nowMs link).1.openAll nowMs links).2 →
        x ∈ links ∧ s.isLive x = false := by
      intro hmem
      obtain ⟨hmem, hnot⟩ := hin hmem
      refine ⟨hmem, ?_⟩
      rw [← Bool.not_eq_true] at hnot ⊢
      exact fun h => hnot (hlive.2 (Or.inl h))
    cases hok : (s.linkOpened nowMs link).2 with
    | true =>
      simp only [if_true, List.nil_append, true_and, List.mem_cons]
      refine ⟨⟨?_, ?_⟩, fun hmem => ⟨Or.inr (hrestIn hmem).1, (hrestIn hmem).2⟩⟩
      · rintro ((hl | rfl) | ⟨hmem, hr⟩)
        · exact Or.inl hl
        · exact Or.inr ⟨Or.inl rfl, hlinkIn rfl⟩
        · exact Or.inr ⟨Or.inr hmem, hr⟩
      · rintro (hl | ⟨rfl | hmem, hr⟩)
        · exact Or.inl (Or.inl hl)
        · exact Or.inl (Or.inr rfl)
        · exact Or.inr ⟨hmem, hr⟩
    | false =>
      have hnot := hrefused hok
      have hne : x = link → x ∉ links := by
        rintro rfl
        exact hout
      simp only [Bool.false_eq_true, if_false, false_and, or_false, List.singleton_append,
        List.mem_cons]
      refine ⟨⟨?_, ?_⟩, ?_⟩
      · rintro (hl | ⟨hmem, hr⟩)
        · exact Or.inl hl
        · exact Or.inr ⟨Or.inr hmem, not_or.2 ⟨fun h => hne h hmem, hr⟩⟩
      · rintro (hl | ⟨rfl | hmem, hr⟩)
        · exact Or.inl hl
        · exact absurd (Or.inl rfl) hr
        · exact Or.inr ⟨hmem, fun h => hr (Or.inr h)⟩
      · rintro (rfl | hmem)
        · exact ⟨Or.inl rfl, hnot⟩
        · exact ⟨Or.inr (hrestIn hmem).1, (hrestIn hmem).2⟩

end Live

/-! ### Reconciliation -/

lemma mem_snapshotOf (live : List OnionAdmissionLink) (did : Did) (generation : ℕ) :
    generation ∈ ((snapshotOf live).get? did).getD ∅ ↔
      (⟨did, generation⟩ : OnionAdmissionLink) ∈ live := by
  have hfold : ∀ (live : List OnionAdmissionLink) (m : BTreeMap Did (Finset ℕ)),
      generation ∈ ((live.foldl (fun m link =>
        m.insert link.did (insert link.generation ((m.get? link.did).getD ∅))) m).get? did).getD ∅ ↔
        generation ∈ (m.get? did).getD ∅ ∨ (⟨did, generation⟩ : OnionAdmissionLink) ∈ live := by
    intro live
    induction live with
    | nil => simp
    | cons link live ih =>
      intro m
      rw [List.foldl_cons, ih, BTreeMap.get?_insert, List.mem_cons]
      split
      · rename_i hdid
        subst hdid
        rw [Option.getD_some, Finset.mem_insert]
        have heq : (⟨link.did, generation⟩ : OnionAdmissionLink) = link ↔
            generation = link.generation := by
          cases link
          simp
        rw [heq, or_comm (a := generation = link.generation), or_assoc]
      · rename_i hdid
        have hne : (⟨did, generation⟩ : OnionAdmissionLink) ≠ link := fun heq => hdid (by rw [← heq])
        simp only [hne, false_or]
  rw [snapshotOf, hfold]
  simp

lemma mem_linksOf {did : Did} {generations : Finset ℕ} {x : OnionAdmissionLink} :
    x ∈ linksOf did generations ↔ x.did = did ∧ x.generation ∈ generations := by
  rw [linksOf, List.mem_map]
  simp only [Finset.mem_sort]
  constructor
  · rintro ⟨generation, hmem, rfl⟩
    exact ⟨rfl, hmem⟩
  · rintro ⟨rfl, hmem⟩
    exact ⟨x.generation, hmem, rfl⟩

lemma mem_entries_linksOf {V : Type} (m : BTreeMap Did V) (f : Did → V → Finset ℕ)
    (x : OnionAdmissionLink) :
    x ∈ m.entries.flatMap (fun kv => linksOf kv.1 (f kv.1 kv.2)) ↔
      ∃ v, m.get? x.did = some v ∧ x.generation ∈ f x.did v := by
  rw [List.mem_flatMap]
  constructor
  · rintro ⟨⟨did, v⟩, hentry, hx⟩
    obtain ⟨rfl, hgen⟩ := mem_linksOf.1 hx
    exact ⟨v, m.mem_entries.1 hentry, hgen⟩
  · rintro ⟨v, hget, hgen⟩
    exact ⟨(x.did, v), m.mem_entries.2 hget, mem_linksOf.2 ⟨rfl, hgen⟩⟩

lemma nodup_linksOf (did : Did) (generations : Finset ℕ) : (linksOf did generations).Nodup :=
  (generations.sort_nodup (· ≤ ·)).map fun _ _ heq => by simpa using heq

lemma nodup_entries_linksOf (m : BTreeMap Did (Finset ℕ)) :
    (m.entries.flatMap fun kv => linksOf kv.1 kv.2).Nodup := by
  rw [List.nodup_flatMap]
  refine ⟨fun kv _ => nodup_linksOf _ _, m.ascending.imp fun hlt x hx hx' => ?_⟩
  have hdid := (mem_linksOf.1 hx).1
  rw [(mem_linksOf.1 hx').1] at hdid
  exact absurd hdid hlt.ne'

/-- **Reconciliation.** The live links are the snapshot's without the refused, and no live link of
the snapshot is refused. -/
lemma reconcile_live (s : OnionAdmissionState) (nowMs : ℕ) (live : List OnionAdmissionLink)
    (x : OnionAdmissionLink) :
    ((s.reconcile nowMs live).1.isLive x = true ↔
      x ∈ live ∧ x ∉ (s.reconcile nowMs live).2) ∧
    (x ∈ live → s.isLive x = true → x ∉ (s.reconcile nowMs live).2) := by
  have hadvance : (s.advance nowMs).isLive x = s.isLive x := by
    rw [Bool.eq_iff_iff, isLive_iff, isLive_iff, liveOf_advance]
  rw [OnionAdmissionState.reconcile]
  dsimp only
  generalize hclosing : (s.advance nowMs).senders.entries.flatMap (fun kv =>
    linksOf kv.1 (kv.2.live.filter fun generation =>
      generation ∉ ((snapshotOf live).get? kv.1).getD ∅)) = absent
  generalize hopening : (snapshotOf live).entries.flatMap (fun kv => linksOf kv.1 kv.2) = opening
  have habsent : x ∈ absent ↔ s.isLive x = true ∧ x ∉ live := by
    rw [← hclosing, mem_entries_linksOf (s.advance nowMs).senders (fun did sender =>
      sender.live.filter fun generation => generation ∉ ((snapshotOf live).get? did).getD ∅),
      ← hadvance, isLive_iff, liveOf]
    simp only [Finset.mem_filter, mem_snapshotOf]
    cases (s.advance nowMs).senders.get? x.did <;> simp
  have hopen : x ∈ opening ↔ x ∈ live := by
    rw [← hopening, mem_entries_linksOf (snapshotOf live) fun _ generations => generations,
      ← mem_snapshotOf live x.did x.generation]
    cases (snapshotOf live).get? x.did <;> simp
  obtain ⟨hlive, hrefused⟩ := isLive_openAll
    (absent.foldl (fun s link => s.linkClosed nowMs link) (s.advance nowMs)) nowMs x
    (hopening ▸ nodup_entries_linksOf (snapshotOf live))
  have hclosed := isLive_closeAll (s.advance nowMs) nowMs x absent
  rw [habsent, hadvance] at hclosed
  have hkept : ∀ h : x ∈ live, s.isLive x = true →
      (absent.foldl (fun s link => s.linkClosed nowMs link) (s.advance nowMs)).isLive x = true :=
    fun h hx => hclosed.2 ⟨hx, fun hab => hab.2 h⟩
  have hnot : x ∈ live → s.isLive x = true → x ∉ (OnionAdmissionState.openAll
      (absent.foldl (fun s link => s.linkClosed nowMs link) (s.advance nowMs)) nowMs opening).2 := by
    intro h hx hmem
    rw [hkept h hx] at hrefused
    exact absurd (hrefused hmem).2 nofun
  refine ⟨?_, hnot⟩
  rw [hlive, hclosed, hopen]
  constructor
  · rintro (⟨hx, hab⟩ | h)
    · have hin : x ∈ live := by
        by_contra hout
        exact hab ⟨hx, hout⟩
      exact ⟨hin, hnot hin hx⟩
    · exact h
  · exact Or.inr

section Reconcile

variable {s : OnionAdmissionState} {nowMs : ℕ} {charges : List ChargeRecord}

/-- What opening, closing and advancing keep, a reconciliation keeps. -/
lemma reconcile_keeps (P : OnionAdmissionState → Prop)
    (hadvance : ∀ s, P s → P (s.advance nowMs))
    (hopened : ∀ s link, P s → P (s.linkOpened nowMs link).1)
    (hclosed : ∀ s link, P s → P (s.linkClosed nowMs link)) (h : P s)
    (live : List OnionAdmissionLink) : P (s.reconcile nowMs live).1 := by
  have hclose : ∀ (links : List OnionAdmissionLink) (s : OnionAdmissionState), P s →
      P (links.foldl (fun s link => s.linkClosed nowMs link) s) := by
    intro links
    induction links with
    | nil => exact fun _ h => h
    | cons link links ih => exact fun s h => ih _ (hclosed s link h)
  have hopen : ∀ (links : List OnionAdmissionLink) (s : OnionAdmissionState), P s →
      P (s.openAll nowMs links).1 := by
    intro links
    induction links with
    | nil => exact fun _ h => h
    | cons link links ih =>
      intro s h
      rw [openAll_cons]
      exact ih _ (hopened s link h)
  exact hopen _ _ (hclose _ _ (hadvance s h))

lemma Tidy.reconcile (h : Tidy s) (live : List OnionAdmissionLink) :
    Tidy (s.reconcile nowMs live).1 :=
  reconcile_keeps Tidy (fun _ h => h.advance) (fun _ _ h => h.linkOpened)
    (fun _ _ h => h.linkClosed) h live

lemma Ledgers.reconcile (h : Ledgers charges s) (ht : Tidy s) (hnow : nowMs ≤ u128Max)
    (live : List OnionAdmissionLink) : Ledgers charges (s.reconcile nowMs live).1 :=
  (reconcile_keeps (fun s => Ledgers charges s ∧ Tidy s)
    (fun _ h => ⟨h.1.advance h.2.swept hnow, h.2.advance⟩)
    (fun _ _ h => ⟨h.1.linkOpened h.2.swept hnow, h.2.linkOpened⟩)
    (fun _ _ h => ⟨h.1.linkClosed h.2.swept hnow, h.2.linkClosed⟩) ⟨h, ht⟩ live).1

end Reconcile

/-! ### Whole traces -/

/-- A token that may still admit a layer of `x`. -/
def mayAdmit (epoch : OnionProcessEpoch) (x : OnionExpiry) (token : OnionAdmissionCharge × ℕ) :
    Bool := decide (token.1.epoch = epoch) && x.admissibleAt token.1.arrivalMs

lemma countP_eraseIdx {α : Type} (p : α → Bool) {l : List α} {i : ℕ} {a : α}
    (h : l[i]? = some a) : l.countP p = (l.eraseIdx i).countP p + if p a then 1 else 0 := by
  obtain ⟨hlt, hget⟩ := List.getElem?_eq_some_iff.1 h
  have hsplit : l = l.take i ++ a :: l.drop (i + 1) := by
    rw [← hget, List.cons_getElem_drop_succ, List.take_append_drop]
  rw [List.eraseIdx_eq_take_drop_succ, List.countP_append]
  conv_lhs => rw [hsplit]
  rw [List.countP_append, List.countP_cons, Nat.add_assoc]

/-- The invariant of a trace. Tags and usable tokens of an expiry are paid for in its window. -/
structure Budgeted (t : AdmissionTrace) : Prop where
  tidy : Tidy t.state
  ledgers : (∀ c ∈ t.charges, 0 < c.quantum) → Ledgers t.charges t.state ∧
    (∀ did, Within onionAdmissionSenderUnits (senderUnits t.charges did)) ∧
    Within onionAdmissionGlobalUnits (hopUnits t.charges)
  tags : ∀ x : OnionExpiry, x.quantum * onionExpiryQuantumMs ≤ u128Max →
    t.state.replay.tagCount x + t.tokens.countP (mayAdmit t.state.epoch x) ≤
      ∑ r ∈ window (x.quantum - 1), hopUnits t.charges r

lemma records_nil (s : ℕ) : Records QuantumLedger.default s (hopUnits []) ∧
    ∀ did, Records QuantumLedger.default s (senderUnits [] did) :=
  ⟨records_default fun _ _ => rfl, fun _ => records_default fun _ _ => rfl⟩

lemma within_nil (cap : ℕ) : Within cap (hopUnits []) ∧ ∀ did, Within cap (senderUnits [] did) := by
  refine ⟨fun s => ?_, fun did s => ?_⟩
  · have hzero : ∑ r ∈ window s, hopUnits [] r = 0 := Finset.sum_eq_zero fun _ _ => rfl
    exact hzero.trans_le (Nat.zero_le _)
  · have hzero : ∑ r ∈ window s, senderUnits [] did r = 0 := Finset.sum_eq_zero fun _ _ => rfl
    exact hzero.trans_le (Nat.zero_le _)

lemma budgeted_new (epoch : OnionProcessEpoch) (filterKey : OnionReplayFilterKey)
    (capacity : ℕ) : Budgeted (.new epoch filterKey capacity) where
  tidy := ⟨(Nat.zero_div _).symm, nofun, Nat.zero_le _, Nat.zero_le _⟩
  ledgers := fun _ => ⟨⟨Nat.zero_le _, (records_nil _).1, (records_nil _).2⟩, (within_nil _).2,
    (within_nil _).1⟩
  tags := fun _ _ => Nat.zero_le _

/-- The window of the last quantum before an expiry holds every arrival it admits. -/
lemma arrival_mem_window {x : OnionExpiry} {arrivalMs : ℕ}
    (hx : x.quantum * onionExpiryQuantumMs ≤ u128Max) (h : x.admissibleAt arrivalMs = true) :
    arrivalMs / onionExpiryQuantumMs ∈ window (x.quantum - 1) := by
  obtain ⟨hlow, hhigh⟩ := admissibleAt_iff.1 h
  rw [OnionExpiry.asMs, Nat.min_eq_left hx] at hlow hhigh
  rw [mem_window]
  simp only [onionExpiryQuantumMs, onionAdmissionWindowMs, onionExpiryOffsetMs] at hlow hhigh ⊢
  omega

namespace Budgeted

variable {t : AdmissionTrace} {s' : OnionAdmissionState}

lemma move (h : Budgeted t) (hage : Ages t.state s') (htidy : Tidy s')
    (hledgers : Ledgers t.charges t.state → Ledgers t.charges s') :
    Budgeted { t with state := s' } := by
  refine ⟨htidy, fun hpos => ?_, fun x hx => ?_⟩
  · obtain ⟨h1, h2⟩ := h.ledgers hpos
    exact ⟨hledgers h1, h2⟩
  · have htags := h.tags x hx
    have hage' := hage.tags x
    simp only [hage.epoch]
    omega

lemma advance (h : Budgeted t) {nowMs : ℕ} (hnow : nowMs ≤ u128Max) :
    Budgeted { t with state := t.state.advance nowMs } :=
  h.move (.advance _ _) h.tidy.advance fun hl => hl.advance h.tidy.swept hnow

/-- A charge is taken from the ledgers of its sender and of the hop. -/
lemma charge (h : Budgeted t) {link : OnionAdmissionLink} {units : ℕ+} {sender : SenderLedger}
    {chargedSender chargedGlobal : QuantumLedger}
    (hget : t.state.senders.get? link.did = some sender) (hlive : link.generation ∈ sender.live)
    (hsender : sender.ledger.charged t.state.quantum units onionAdmissionSenderUnits =
      some chargedSender)
    (hglobal : t.state.global.charged t.state.quantum units onionAdmissionGlobalUnits =
      some chargedGlobal) :
    Budgeted { t with
      state := { t.state with
        senders := t.state.senders.insert link.did { sender with ledger := chargedSender }
        global := chargedGlobal }
      tokens := (⟨t.state.clockMs, t.state.epoch⟩, t.epochs.length) :: t.tokens
      charges := ⟨link.did, t.state.quantum, units⟩ :: t.charges } := by
  refine ⟨?_, fun hpos => ?_, fun x hx => ?_⟩
  · refine h.tidy.insert (isReleasableAt_of_live hlive)
      (fun hnone => absurd (hget.symm.trans hnone) nofun) ?_
    have hcard : liveOf t.state link.did = sender.live := by
      rw [liveOf, hget]
      rfl
    rw [hcard]
    exact Nat.add_le_add_right h.tidy.links _
  · have hquantum : 0 < t.state.quantum := hpos _ List.mem_cons_self
    obtain ⟨hledgers, hsenders, hhop⟩ := h.ledgers fun c hc => hpos c (List.mem_cons_of_mem _ hc)
    have hlt := quantum_lt hledgers.clock
    have hrecord : Records sender.ledger t.state.quantum (senderUnits t.charges link.did) := by
      have hrecord := hledgers.senders link.did
      rw [ledgerOf, hget] at hrecord
      exact hrecord
    obtain ⟨hrecorded, hwithin⟩ := (hrecord.charged (hsenders link.did) (by decide) hquantum
      hlt).2 chargedSender hsender
    obtain ⟨hrecorded', hwithin'⟩ := (hledgers.global.charged hhop (by decide) hquantum
      hlt).2 chargedGlobal hglobal
    simp only [hopUnits_cons, senderUnits_cons]
    refine ⟨⟨hledgers.clock, ?_, fun did => ?_⟩, fun did => ?_, hwithin'⟩
    · rw [hopUnits_cons]
      exact hrecorded'
    · rw [senderUnits_cons, ledgerOf, BTreeMap.get?_insert]
      by_cases hdid : link.did = did
      · rw [if_pos hdid, if_pos hdid.symm]
        exact hdid ▸ hrecorded
      · rw [if_neg hdid, if_neg (Ne.symm hdid)]
        exact hledgers.senders did
    · by_cases hdid : link.did = did
      · rw [if_pos hdid]
        exact hdid ▸ hwithin
      · rw [if_neg hdid]
        exact hsenders did
  · have htags := h.tags x hx
    rw [hopUnits_cons]
    have hsum : ∑ r ∈ window (x.quantum - 1), addAt (hopUnits t.charges) t.state.quantum units r =
        ∑ r ∈ window (x.quantum - 1), hopUnits t.charges r +
          if t.state.quantum ∈ window (x.quantum - 1) then (units : ℕ) else 0 :=
      sum_addAt _ _ _ _
    rw [hsum, List.countP_cons]
    have hunits := units.pos
    by_cases hmay : mayAdmit t.state.epoch x
        (⟨t.state.clockMs, t.state.epoch⟩, t.epochs.length) = true
    · rw [mayAdmit, Bool.and_eq_true] at hmay
      have hin : t.state.quantum ∈ window (x.quantum - 1) := arrival_mem_window hx hmay.2
      rw [if_pos hin]
      split <;> simp only <;> omega
    · rw [if_neg hmay]
      simp only
      omega

lemma use (h : Budgeted t) (i : ℕ) : Budgeted { t with tokens := t.tokens.eraseIdx i } := by
  refine ⟨h.tidy, h.ledgers, fun x hx => ?_⟩
  have hle := (List.eraseIdx_sublist t.tokens i).countP_le (p := mayAdmit t.state.epoch x)
  have htags := h.tags x hx
  simp only
  omega

lemma tryAdmit (h : Budgeted t) {i : ℕ} {token : OnionAdmissionCharge × ℕ}
    {layer : OnionAdmissionLayer} (htoken : t.tokens[i]? = some token)
    (ha : Admits keccak256 t.state token.1 layer s') (admitted : List AdmissionRecord) :
    Budgeted { t with state := s', tokens := t.tokens.eraseIdx i, admitted := admitted } := by
  obtain ⟨-, hepoch, hwindow, -, -, rfl⟩ := ha
  refine ⟨⟨h.tidy.swept, h.tidy.held, h.tidy.room, h.tidy.links⟩, fun hpos => ?_, fun x hx => ?_⟩
  · obtain ⟨⟨h1, h2, h3⟩, h4⟩ := h.ledgers hpos
    exact ⟨⟨h1, h2, h3⟩, h4⟩
  · have htags := h.tags x hx
    have hcount := countP_eraseIdx (mayAdmit t.state.epoch x) htoken
    have hmay : x = layer.expiry → mayAdmit t.state.epoch x token = true := by
      rintro rfl
      rw [mayAdmit, hwindow, decide_eq_true hepoch]
      rfl
    simp only [ReplayStore.tagCount_insert]
    rw [hcount] at htags
    split
    · rename_i heq
      rw [if_pos (hmay heq)] at htags
      omega
    · omega

lemma renew (h : Budgeted t) {epoch : OnionProcessEpoch} {filterKey : OnionReplayFilterKey}
    (hnew : t.state.renew epoch filterKey = some s')
    (hold : ∀ token ∈ t.tokens, token.1.epoch ≠ epoch) :
    Budgeted { t with state := s', charges := [], epochs := epoch :: t.epochs } := by
  rw [OnionAdmissionState.renew] at hnew
  split at hnew
  · cases hnew
  obtain rfl := Option.some.inj hnew
  -- the renewed table holds a new ledger for each sender with a link
  have hget : ∀ did, (((t.state.senders.retain fun _ sender => decide (sender.live ≠ ∅)).mapValues
      fun sender => { sender with ledger := QuantumLedger.default }).get? did) =
      ((t.state.senders.get? did).filter fun sender => decide (sender.live ≠ ∅)).map
        fun sender => { sender with ledger := QuantumLedger.default } := fun did => by
    rw [BTreeMap.get?_mapValues, BTreeMap.get?_retain]
  refine ⟨⟨(Nat.zero_div _).symm, fun did sender hsender => ?_, ?_, ?_⟩, fun _ => ⟨⟨Nat.zero_le _,
    (records_nil _).1, fun did => ?_⟩, (within_nil _).2, (within_nil _).1⟩, fun x _ => ?_⟩
  · rw [hget] at hsender
    obtain ⟨old, hold', rfl⟩ := Option.map_eq_some_iff.1 hsender
    obtain ⟨-, hlive⟩ := Option.filter_eq_some_iff.1 hold'
    rw [SenderLedger.isReleasableAt, decide_eq_false (by simpa using hlive), Bool.false_and]
  · refine (BTreeMap.sumBy_le_sumBy fun did => ?_).trans h.tidy.room
    rw [hget]
    rcases t.state.senders.get? did with _ | sender
    · exact le_rfl
    · rw [Option.filter_some]
      split <;> simp
  · refine (BTreeMap.sumBy_le_sumBy fun did => ?_).trans h.tidy.links
    rw [hget]
    rcases t.state.senders.get? did with _ | sender
    · exact le_rfl
    · rw [Option.filter_some]
      split <;> simp
  · rw [ledgerOf, hget]
    rcases t.state.senders.get? did with _ | sender
    · exact (records_nil _).2 did
    · rw [Option.filter_some]
      split <;> exact (records_nil _).2 did
  · have hcount : t.tokens.countP (mayAdmit epoch x) = 0 := by
      rw [List.countP_eq_zero]
      intro token htoken hmay
      rw [mayAdmit, Bool.and_eq_true, decide_eq_true_eq] at hmay
      exact hold token htoken hmay.1
    simp only [ReplayStore.tagCount_new, hcount]
    exact Nat.zero_le _

end Budgeted

lemma instant_le (n : Fin (2 ^ 128)) : (n : ℕ) ≤ u128Max := Nat.le_sub_one_of_lt n.isLt

lemma Budgeted.step {t t' : AdmissionTrace} (h : Budgeted t) (hr : Recorded keccak256 t)
    {e : AdmissionEvent} (hfresh : t.FreshEpoch e) (he : t.step keccak256 e = some t') :
    Budgeted t' := by
  cases e with
  | charge nowMs link units =>
    have hadvance := h.advance (instant_le nowMs)
    rcases chargeUnits_cases t.state nowMs link units with ⟨rejection, hcharge⟩ |
      ⟨sender, chargedSender, chargedGlobal, hget, hlive, hsender, hglobal, hcharge⟩
    · simp only [AdmissionTrace.step, hcharge, Option.some.injEq] at he
      exact he ▸ hadvance
    · simp only [AdmissionTrace.step, hcharge, Option.some.injEq] at he
      exact he ▸ hadvance.charge hget hlive hsender hglobal
  | tryAdmit nowMs i layer =>
    obtain ⟨token, htoken, rfl⟩ := Option.map_eq_some_iff.1 he
    have hadvance := h.advance (instant_le nowMs)
    rcases admit_cases keccak256 t.state nowMs token.1 layer with
      ⟨rejection, hadmitted⟩ | ⟨s', hadmitted, hadmits⟩
    · simp only [hadmitted]
      exact hadvance.use i
    · simp only [hadmitted]
      exact hadvance.tryAdmit htoken hadmits _
  | linkOpened nowMs link =>
    obtain rfl := Option.some.inj he
    exact h.move (.linkOpened _ _ _) h.tidy.linkOpened
      fun hl => hl.linkOpened h.tidy.swept (instant_le nowMs)
  | linkClosed nowMs link =>
    obtain rfl := Option.some.inj he
    exact h.move (.linkClosed _ _ _) h.tidy.linkClosed
      fun hl => hl.linkClosed h.tidy.swept (instant_le nowMs)
  | reconcile nowMs live =>
    obtain rfl := Option.some.inj he
    exact h.move (.reconcile _ _ _) (h.tidy.reconcile live)
      fun hl => hl.reconcile h.tidy (instant_le nowMs) live
  | renew epoch filterKey =>
    simp only [AdmissionTrace.step, Option.some.injEq] at he
    rcases hrenew : t.state.renew epoch filterKey with _ | s'
    · rw [hrenew] at he
      exact he ▸ h
    · rw [hrenew] at he
      have hnew : epoch ∉ t.epochs := by
        intro hmem
        rw [OnionAdmissionState.renew, if_pos (hfresh hmem)] at hrenew
        cases hrenew
      exact he ▸ h.renew hrenew fun token htoken heq =>
        hnew (heq ▸ (hr.tokens token htoken).1)

lemma AdmissionTrace.Reaches.budgeted {t : AdmissionTrace}
    (h : AdmissionTrace.Reaches keccak256 t) : Budgeted t := by
  induction h with
  | start epoch filterKey capacity => exact budgeted_new epoch filterKey capacity
  | step e hr hfresh he ih => exact ih.step hr.recorded hfresh he

/-- A refused charge changes no ledger: it releases those that have drained, as every step does,
and no other. -/
lemma refused_charge {s : OnionAdmissionState} (h : Tidy s) {nowMs : ℕ} {link : OnionAdmissionLink}
    {units : ℕ+} {rejection : OnionChargeRejection}
    (hrefused : (s.chargeUnits nowMs link units).2 = .error rejection) :
    (s.chargeUnits nowMs link units).1.global = s.global ∧
      ∀ did, (s.chargeUnits nowMs link units).1.senders.get? did =
        (s.senders.get? did).filter fun sender =>
          !sender.isReleasableAt (s.chargeUnits nowMs link units).1.quantum := by
  rcases chargeUnits_cases s nowMs link units with ⟨rejection', hcharge⟩ |
    ⟨sender, chargedSender, chargedGlobal, -, -, -, -, hcharge⟩
  · obtain ⟨-, -, hglobal, -, hcases⟩ := advance_spec s nowMs h.swept
    rw [hcharge]
    refine ⟨hglobal, fun did => ?_⟩
    rcases hcases with ⟨hquantum, hsenders⟩ | ⟨-, hsenders⟩
    · rw [hsenders, hquantum]
      cases hget : s.senders.get? did with
      | none => rfl
      | some sender => rw [Option.filter_some, h.held did sender hget]; rfl
    · rw [hsenders, BTreeMap.get?_retain]
  · rw [hcharge] at hrefused
    cases hrefused

/-- **Onion admission budgets.** In every trace whose renewals enter distinct epochs: no ledger is
releasable, the table and the live links fit the capacity, after a refused charge the ledgers are
those not drained, unchanged, and a reconciliation makes the live links its snapshot without the
refused; and while no charge of the epoch was made in quantum zero, every aligned window of five
quanta charges one sender and the hop within their budgets, and so bounds the tags of every
filter. -/
theorem admission_budgets (keccak256 : List Byte → Vector Byte 32) (t : AdmissionTrace)
    (h : AdmissionTrace.Reaches keccak256 t) :
    ((∀ c ∈ t.charges, 0 < c.quantum) →
      (∀ did s, ∑ r ∈ window s, senderUnits t.charges did r ≤ onionAdmissionSenderUnits) ∧
      (∀ s, ∑ r ∈ window s, hopUnits t.charges r ≤ 64 * onionAdmissionSenderUnits) ∧
      ∀ ms x, OnionExpiry.fromWireMs ms = some x →
        t.state.replay.tagCount x ≤ 64 * onionAdmissionSenderUnits) ∧
    ((∀ did sender, t.state.senders.get? did = some sender →
        ¬ (sender.live = ∅ ∧ sender.ledger.load t.state.quantum = 0)) ∧
      t.state.senders.entries.length ≤ t.state.capacity ∧
      t.state.liveLinkCount ≤ t.state.capacity) ∧
    (∀ (nowMs : ℕ) link units rejection,
      (t.state.chargeUnits nowMs link units).2 = .error rejection →
      (t.state.chargeUnits nowMs link units).1.global = t.state.global ∧
      ∀ did, (t.state.chargeUnits nowMs link units).1.senders.get? did =
        (t.state.senders.get? did).filter fun sender =>
          !sender.isReleasableAt (t.state.chargeUnits nowMs link units).1.quantum) ∧
    ∀ (nowMs : ℕ) live x,
      ((t.state.reconcile nowMs live).1.isLive x = true ↔
        x ∈ live ∧ x ∉ (t.state.reconcile nowMs live).2) ∧
      (x ∈ live → t.state.isLive x = true → x ∉ (t.state.reconcile nowMs live).2) := by
  have hb := h.budgeted
  refine ⟨fun hpos => ?_, ⟨fun did sender hget => ?_, ?_, hb.tidy.links⟩,
    fun _ _ _ _ hrefused => refused_charge hb.tidy hrefused,
    fun nowMs live x => reconcile_live t.state nowMs live x⟩
  · obtain ⟨-, hsenders, hhop⟩ := hb.ledgers hpos
    refine ⟨fun did s => hsenders did s, hhop, fun ms x hx => ?_⟩
    have hrange : x.quantum * onionExpiryQuantumMs ≤ u128Max := by
      rw [OnionExpiry.fromWireMs, OnionExpiry.fromMs] at hx
      split at hx
      · obtain rfl := Option.some.inj hx
        refine (Nat.div_mul_le_self _ _).trans (ms.isLt.le.trans ?_)
        decide
      · cases hx
    exact (Nat.le_add_right _ _).trans ((hb.tags x hrange).trans (hhop _))
  · rintro ⟨hlive, hload⟩
    have hheld := hb.tidy.held did sender hget
    rw [SenderLedger.isReleasableAt, decide_eq_true hlive, hload] at hheld
    cases hheld
  · rw [length_eq_sumBy]
    exact hb.tidy.room

/-- The whole budget charged in quantum one and again five quanta later. -/
theorem admission_budgets_example :
    ∃ t, (AdmissionTrace.new 3 (Vector.replicate 32 9) 1).run (fun _ => Vector.replicate 32 0)
        [.linkOpened 30000 ⟨7, 1⟩, .charge 30000 ⟨7, 1⟩ 16384, .charge 180000 ⟨7, 1⟩ 16384] =
          some t ∧
      t.charges.length = 2 ∧
      ∀ s, ∑ r ∈ window s, senderUnits t.charges 7 r ≤ onionAdmissionSenderUnits := by
  refine ⟨_, rfl, by decide +kernel, ?_⟩
  exact ((admission_budgets (fun _ => Vector.replicate 32 0) _ (.step (.charge 180000 ⟨7, 1⟩ 16384)
    (.step (.charge 30000 ⟨7, 1⟩ 16384)
      (.step (.linkOpened 30000 ⟨7, 1⟩) (.start 3 (Vector.replicate 32 9) 1) trivial rfl)
      trivial rfl) trivial rfl)).1 (by decide +kernel)).1 7

/-- A charge in quantum zero is forgotten by the next charge in quantum one. -/
theorem quantum_zero_is_forgotten :
    ∃ t, (AdmissionTrace.new 3 (Vector.replicate 32 9) 1).run (fun _ => Vector.replicate 32 0)
        [.linkOpened 0 ⟨7, 1⟩, .charge 0 ⟨7, 1⟩ 16383, .charge 30000 ⟨7, 1⟩ 1,
          .charge 30000 ⟨7, 1⟩ 16383] = some t ∧
      onionAdmissionSenderUnits < ∑ r ∈ window 1, senderUnits t.charges 7 r :=
  ⟨_, rfl, by decide +kernel⟩

end Rings.Onion
