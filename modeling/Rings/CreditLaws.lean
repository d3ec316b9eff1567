import Rings.LaneCredit

/-!
The laws of a credit lane, over every interleaving.

One invariant links both ends and all signals ever sent: every credit of the sender's generation
is covered by what the receiver advertises, no credit of a pending generation exists, and the
bound of the pending shrink is the sender's limit. The generation is a saturating counter, and
the invariant stands as long as no shrink starts at its top.
-/

namespace Rings.CreditLane

open LaneSignal

structure Inv (w : CreditWindow) (s : CreditLane) : Prop where
  flight : s.recv.received + s.inFlight = s.send.committed
  held : s.recv.released ≤ s.recv.received
  reserved : s.send.committed + s.send.reserved ≤ s.send.limit
  limit : s.send.limit ≤ s.recv.advertised
  cap : s.recv.advertised ≤ s.recv.released + w.frames
  top : s.recv.advertised ≤ u64Max
  share : w.floor + s.recv.lent ≤ w.frames
  admitted : s.refused = []
  behind : s.send.generation ≤ s.recv.generation ∧ s.recv.generation ≤ s.send.generation + 1
  settled : s.recv.shrinking = none → s.send.generation = s.recv.generation
  credits : ∀ l g, credit l g ∈ s.sent → g ≤ s.send.generation ∧
    (g = s.send.generation → l ≤ s.recv.advertised) ∧
    (s.recv.shrinking ≠ none → g < s.recv.generation)
  shrinks : ∀ l g, shrink l g ∈ s.sent → g ≤ s.recv.generation ∧
    (s.send.generation < g → l ≤ s.recv.advertised)
  bounds : ∀ b g, returned b g ∈ s.sent → g ≤ s.send.generation ∧
    (g = s.send.generation → s.send.returned = some b)
  pending : s.recv.shrinking ≠ none → s.send.generation = s.recv.generation →
    s.send.returned = some s.send.limit
  told : s.recv.shrinking = none → s.recv.advertised ≤ s.send.limit ∨
    credit s.recv.advertised s.recv.generation ∈ s.sent
  joined : ∀ l g, credit l g ∈ s.delivered → credit l g ∈ s.sent ∧
    (g = s.send.generation → l ≤ s.send.limit)

lemma inv_new (w : CreditWindow) : Inv w (new w) where
  flight := rfl
  held := le_rfl
  reserved := Nat.zero_le _
  limit := le_rfl
  cap := w.floor_le.trans (Nat.le_add_left _ _)
  top := w.floor_le.trans w.frames_le
  share := w.floor_le
  admitted := rfl
  behind := ⟨le_rfl, Nat.zero_le _⟩
  settled := fun _ => rfl
  credits := fun _ _ h => absurd h List.not_mem_nil
  shrinks := fun _ _ h => absurd h List.not_mem_nil
  bounds := fun _ _ h => absurd h List.not_mem_nil
  pending := fun h => absurd rfl h
  told := fun _ => Or.inl le_rfl
  joined := fun _ _ h => absurd h List.not_mem_nil

section Steps

variable {w : CreditWindow} {s : CreditLane}

lemma Inv.reserve (h : Inv w s) : Inv w { s with send := s.send.tryReserve.1 } := by
  rw [SendCredit.tryReserve]
  split
  · rename_i hfree
    have hlt : s.send.committed + saturatingAdd u64Max s.send.reserved 1 ≤ s.send.limit := by
      have hres := h.reserved
      have hlim := h.limit
      have htop := h.top
      rw [SendCredit.free, saturatingAdd] at hfree
      rw [saturatingAdd]
      omega
    exact { h with reserved := hlt }
  · exact h

lemma Inv.commit (h : Inv w s) (hr : 0 < s.send.reserved) :
    Inv w { s with send := s.send.commit, inFlight := s.inFlight + 1 } := by
  have hcommitted : s.send.commit.committed = s.send.committed + 1 := by
    have hres := h.reserved
    have hlim := h.limit
    have htop := h.top
    rw [SendCredit.commit, saturatingAdd]
    exact Nat.min_eq_left (by omega)
  refine { h with flight := ?_, reserved := ?_ }
  · have hflight := h.flight
    simp only [hcommitted]
    omega
  · have hres := h.reserved
    simp only [hcommitted]
    simp only [SendCredit.commit]
    omega

lemma Inv.cancel (h : Inv w s) : Inv w { s with send := s.send.cancel } := by
  refine { h with reserved := ?_ }
  have hres := h.reserved
  simp only [SendCredit.cancel]
  omega

/-- A frame in flight is within the advertised credit. -/
lemma Inv.received_lt (h : Inv w s) (hf : 0 < s.inFlight) :
    s.recv.received < s.recv.advertised := by
  have hflight := h.flight
  have hres := h.reserved
  have hlim := h.limit
  omega

lemma Inv.deliver (h : Inv w s) (hf : 0 < s.inFlight) :
    ∃ recv, s.recv.tryAdmit = .ok recv ∧
      Inv w { s with recv := recv, inFlight := s.inFlight - 1 } := by
  have hlt := h.received_lt hf
  refine ⟨_, if_pos hlt, ?_⟩
  have htop := h.top
  have hreceived : saturatingAdd u64Max s.recv.received 1 = s.recv.received + 1 :=
    Nat.min_eq_left (by omega)
  rw [hreceived]
  refine { h with flight := ?_, held := ?_ }
  · have hflight := h.flight
    simp only
    omega
  · exact h.held.trans (Nat.le_succ _)

lemma Inv.release (h : Inv w s) : Inv w { s with recv := s.recv.release } := by
  have hle : s.recv.released ≤ s.recv.release.released := by
    have hheld := h.held
    have htop := h.top
    have hflight := h.flight
    have hres := h.reserved
    have hlim := h.limit
    simp only [ReceiveWindow.release, saturatingAdd]
    omega
  refine { h with held := Nat.min_le_right _ _, cap := ?_ }
  exact h.cap.trans (Nat.add_le_add_right hle _)

/-- What is granted never passes the cap. -/
lemma Inv.granted (h : Inv w s) : s.recv.granted w = w.floor + s.recv.lent :=
  Nat.min_eq_left (h.share.trans w.frames_le)

lemma Inv.advertise (h : Inv w s) : Inv w ({ s with recv := (s.recv.advertise w).1 }.emit
    ((s.recv.advertise w).2.map fun (c : ℕ × ℕ) => credit c.1 c.2)) := by
  rw [ReceiveWindow.advertise]
  split
  · exact h
  rename_i hidle
  have hshrinking : s.recv.shrinking = none := by
    cases hs : s.recv.shrinking with
    | none => rfl
    | some l => simp [hs] at hidle
  have hgen := h.settled hshrinking
  simp only
  split
  · rename_i hdue
    have hle : s.recv.advertised ≤
        saturatingAdd u64Max s.recv.released (s.recv.granted w) := by
      have htop := h.top
      rw [Bool.or_eq_true, Bool.and_eq_true, decide_eq_true_eq, decide_eq_true_eq] at hdue
      simp only [saturatingAdd] at hdue ⊢
      omega
    refine { h with limit := ?_, cap := ?_, top := ?_, credits := ?_, shrinks := ?_, bounds := ?_,
                    told := ?_, joined := ?_ }
    · exact h.limit.trans hle
    · have hshare := h.share
      simp only [emit, h.granted, saturatingAdd]
      omega
    · exact Nat.min_le_right _ _
    · intro l g hm
      rcases List.mem_cons.1 hm with heq | hm
      · obtain ⟨rfl, rfl⟩ := LaneSignal.credit.inj heq
        exact ⟨hgen.ge, fun _ => le_rfl, fun hne => absurd hshrinking hne⟩
      · obtain ⟨h1, h2, h3⟩ := h.credits l g hm
        exact ⟨h1, fun hg => (h2 hg).trans hle, h3⟩
    · intro l g hm
      rcases List.mem_cons.1 hm with heq | hm
      · cases heq
      · obtain ⟨h1, h2⟩ := h.shrinks l g hm
        exact ⟨h1, fun hg => (h2 hg).trans hle⟩
    · intro b g hm
      rcases List.mem_cons.1 hm with heq | hm
      · cases heq
      · exact h.bounds b g hm
    · exact fun _ => Or.inr (List.mem_cons_self ..)
    · intro l g hm
      obtain ⟨h1, h2⟩ := h.joined l g hm
      exact ⟨List.mem_cons_of_mem _ h1, h2⟩
  · exact h

lemma Inv.lend (h : Inv w s) (share : ℕ) : Inv w { s with recv := (s.recv.lend w share).1 } := by
  refine { h with share := ?_ }
  have hshare := h.share
  simp only [ReceiveWindow.lend, ReceiveWindow.want, saturatingAdd]
  split <;> omega

lemma Inv.shrinkTo (h : Inv w s) (lent : ℕ)
    (hg : (s.recv.shrinkTo w lent).2.isSome = true → s.recv.generation < u64Max) :
    Inv w ({ s with recv := (s.recv.shrinkTo w lent).1 }.emit (s.recv.shrinkTo w lent).2) := by
  rw [ReceiveWindow.shrinkTo] at hg ⊢
  split
  · exact h
  rename_i hstarts
  rw [if_neg hstarts] at hg
  rw [not_or, not_le, Option.isSome_iff_ne_none, not_not] at hstarts
  obtain ⟨hlent, hshrinking⟩ := hstarts
  have hgen := h.settled hshrinking
  have hnext : saturatingAdd u64Max s.recv.generation 1 = s.recv.generation + 1 :=
    Nat.min_eq_left (hg rfl)
  rw [hnext]
  refine { h with share := ?_, behind := ?_, settled := ?_, credits := ?_, shrinks := ?_,
                  bounds := ?_, pending := ?_, told := ?_, joined := ?_ }
  · have hshare := h.share
    simp only [emit]
    omega
  · simp only [emit]
    omega
  · intro hnone
    cases hnone
  · intro l g hm
    rcases List.mem_cons.1 hm with heq | hm
    · cases heq
    · obtain ⟨h1, h2, -⟩ := h.credits l g hm
      exact ⟨h1, h2, fun _ => Nat.lt_succ_of_le (hgen ▸ h1)⟩
  · intro l g hm
    rcases List.mem_cons.1 hm with heq | hm
    · obtain ⟨rfl, rfl⟩ := LaneSignal.shrink.inj heq
      exact ⟨le_rfl, fun _ => Nat.min_le_right _ _⟩
    · obtain ⟨h1, h2⟩ := h.shrinks l g hm
      exact ⟨h1.trans (Nat.le_succ _), h2⟩
  · intro b g hm
    rcases List.mem_cons.1 hm with heq | hm
    · cases heq
    · exact h.bounds b g hm
  · intro _ heq
    simp only [emit] at heq
    omega
  · intro hnone
    cases hnone
  · intro l g hm
    obtain ⟨h1, h2⟩ := h.joined l g hm
    exact ⟨List.mem_cons_of_mem _ h1, h2⟩

lemma Inv.inactive (h : Inv w s) : Inv w { s with recv := { s.recv with active := false } } :=
  { h with }

lemma Inv.idleShrink (h : Inv w s)
    (hg : (s.recv.idleShrink w).2.isSome = true → s.recv.generation < u64Max) :
    Inv w ({ s with recv := (s.recv.idleShrink w).1 }.emit (s.recv.idleShrink w).2) := by
  rw [ReceiveWindow.idleShrink] at hg ⊢
  by_cases hactive : s.recv.active = true
  · rw [if_pos hactive]
    exact h.inactive
  · rw [if_neg hactive] at hg ⊢
    exact h.inactive.shrinkTo 0 hg

/-! ### Signals -/

lemma Inv.deliverCredit (h : Inv w s) {l g : ℕ} (hm : credit l g ∈ s.sent) :
    Inv w { s with delivered := credit l g :: s.delivered, send := s.send.grant l g } := by
  obtain ⟨h1, h2, h3⟩ := h.credits l g hm
  rw [SendCredit.grant]
  split
  · rename_i hgen
    -- while a shrink is applied and pending, no credit of its generation exists
    have hnot : s.recv.shrinking ≠ none → s.send.generation ≠ s.recv.generation := by
      intro hs heq
      have := h3 hs
      omega
    refine { h with reserved := h.reserved.trans (le_max_left _ _),
                    limit := max_le h.limit (h2 hgen), pending := ?_, told := ?_, joined := ?_ }
    · intro hs heq
      exact absurd heq (hnot hs)
    · intro hs
      exact (h.told hs).imp_left fun hle => hle.trans (le_max_left _ _)
    · intro l' g' hm'
      rcases List.mem_cons.1 hm' with heq | hm'
      · obtain ⟨rfl, rfl⟩ := LaneSignal.credit.inj heq
        exact ⟨hm, fun _ => le_max_right _ _⟩
      · obtain ⟨h1', h2'⟩ := h.joined l' g' hm'
        exact ⟨h1', fun heq => (h2' heq).trans (le_max_left _ _)⟩
  · rename_i hgen
    refine { h with joined := ?_ }
    intro l' g' hm'
    rcases List.mem_cons.1 hm' with heq | hm'
    · obtain ⟨rfl, rfl⟩ := LaneSignal.credit.inj heq
      exact ⟨hm, fun heq => absurd heq hgen⟩
    · exact h.joined l' g' hm'

lemma Inv.record (h : Inv w s) (x : LaneSignal) (hx : ∀ l g, x ≠ credit l g) :
    Inv w { s with delivered := x :: s.delivered } := by
  refine { h with joined := ?_ }
  intro l g hm
  rcases List.mem_cons.1 hm with heq | hm
  · exact absurd heq.symm (hx l g)
  · exact h.joined l g hm

/-- The bound of a pending shrink is the sender's limit, so it lies between the frames received
and the credit advertised. -/
lemma Inv.bound_limit (h : Inv w s) {b g : ℕ} (hm : returned b g ∈ s.sent)
    (hs : s.recv.shrinking ≠ none) (hg : g = s.recv.generation) :
    s.send.generation = s.recv.generation ∧ b = s.send.limit := by
  obtain ⟨h1, h2⟩ := h.bounds b g hm
  have hgen : s.send.generation = s.recv.generation := le_antisymm h.behind.1 (hg ▸ h1)
  refine ⟨hgen, ?_⟩
  have hb := h2 (hg.trans hgen.symm)
  rw [h.pending hs hgen] at hb
  exact (Option.some.inj hb).symm

lemma Inv.bound_between (h : Inv w s) {b g : ℕ} (hm : returned b g ∈ s.sent)
    (hs : s.recv.shrinking ≠ none) (hg : g = s.recv.generation) :
    s.recv.received ≤ b ∧ b ≤ s.recv.advertised := by
  obtain ⟨-, rfl⟩ := h.bound_limit hm hs hg
  have hflight := h.flight
  have hres := h.reserved
  exact ⟨by omega, h.limit⟩

lemma Inv.deliverReturned (h : Inv w s) {b g : ℕ} (hm : returned b g ∈ s.sent) :
    Inv w { s with recv := (s.recv.returned b g).1 } := by
  rw [ReceiveWindow.returned]
  split
  · exact h
  rename_i hends
  rw [not_or, not_not, Option.isNone_iff_eq_none] at hends
  obtain ⟨hs, hg⟩ := hends
  obtain ⟨hgen, rfl⟩ := h.bound_limit hm hs hg
  obtain ⟨hlow, hhigh⟩ := h.bound_between hm hs hg
  have hclamp : min (max s.send.limit s.recv.received) s.recv.advertised = s.send.limit := by
    omega
  rw [hclamp]
  refine { h with limit := le_rfl, cap := h.limit.trans h.cap, top := h.limit.trans h.top,
                  settled := fun _ => hgen, credits := ?_, shrinks := ?_, pending := ?_,
                  told := fun _ => Or.inl le_rfl }
  · intro l g' hm'
    obtain ⟨h1, -, h3⟩ := h.credits l g' hm'
    refine ⟨h1, fun heq => ?_, fun hne => absurd rfl hne⟩
    exact absurd (heq.trans hgen) (h3 hs).ne
  · intro l g' hm'
    obtain ⟨h1, -⟩ := h.shrinks l g' hm'
    refine ⟨h1, fun hlt => ?_⟩
    exact absurd (h1.trans hgen.ge) (Nat.not_le.2 hlt)
  · exact fun hne => absurd rfl hne

lemma Inv.emitReturned (h : Inv w s) {b g : ℕ} (hg : g = s.send.generation)
    (hb : s.send.returned = some b) : Inv w (s.emit (some (returned b g))) := by
  refine { h with credits := ?_, shrinks := ?_, bounds := ?_, told := ?_, joined := ?_ }
  · intro l g' hm
    rcases List.mem_cons.1 hm with heq | hm
    · cases heq
    · exact h.credits l g' hm
  · intro l g' hm
    rcases List.mem_cons.1 hm with heq | hm
    · cases heq
    · exact h.shrinks l g' hm
  · intro b' g' hm
    rcases List.mem_cons.1 hm with heq | hm
    · obtain ⟨rfl, rfl⟩ := LaneSignal.returned.inj heq
      exact ⟨hg.le, fun _ => hb⟩
    · exact h.bounds b' g' hm
  · intro hs
    exact (h.told hs).imp_right (List.mem_cons_of_mem _)
  · intro l g' hm
    obtain ⟨h1, h2⟩ := h.joined l g' hm
    exact ⟨List.mem_cons_of_mem _ h1, h2⟩

/-- A new shrink at the sender: its limit becomes the bound it returns. -/
lemma Inv.applyShrink (h : Inv w s) {l g : ℕ} (hm : shrink l g ∈ s.sent)
    (hg : s.send.generation < g) :
    Inv w { s with send := { s.send with
      limit := max (saturatingAdd u64Max s.send.committed s.send.reserved) l
      generation := g
      returned := some (max (saturatingAdd u64Max s.send.committed s.send.reserved) l) } } := by
  obtain ⟨hle, hlimit⟩ := h.shrinks l g hm
  have hbehind := h.behind
  -- a generation ahead of the sender's is the receiver's own, still pending
  have hgen : g = s.recv.generation := by omega
  have hs : s.recv.shrinking ≠ none := by
    intro hnone
    have := h.settled hnone
    omega
  have hused : saturatingAdd u64Max s.send.committed s.send.reserved =
      s.send.committed + s.send.reserved :=
    Nat.min_eq_left (h.reserved.trans (h.limit.trans h.top))
  rw [hused]
  refine { h with reserved := le_max_left _ _,
                  limit := max_le (h.reserved.trans h.limit) (hlimit hg),
                  behind := ⟨hle, hgen ▸ Nat.le_succ _⟩, settled := fun hnone => absurd hnone hs,
                  credits := ?_, shrinks := ?_, bounds := ?_, pending := fun _ _ => rfl,
                  told := fun hnone => absurd hnone hs, joined := ?_ }
  · intro l' g' hm'
    obtain ⟨h1, -, h3⟩ := h.credits l' g' hm'
    exact ⟨h1.trans hg.le, fun heq => absurd (heq.trans hgen) (h3 hs).ne, h3⟩
  · intro l' g' hm'
    obtain ⟨h1, -⟩ := h.shrinks l' g' hm'
    exact ⟨h1, fun hlt => absurd (h1.trans hgen.ge) (Nat.not_le.2 hlt)⟩
  · intro b' g' hm'
    obtain ⟨h1, -⟩ := h.bounds b' g' hm'
    exact ⟨h1.trans hg.le, fun heq => absurd heq (h1.trans_lt hg).ne⟩
  · intro l' g' hm'
    obtain ⟨h1, -⟩ := h.joined l' g' hm'
    obtain ⟨-, -, h3⟩ := h.credits l' g' h1
    exact ⟨h1, fun heq => absurd (heq.trans hgen) (h3 hs).ne⟩

lemma Inv.deliverShrink (h : Inv w s) {l g : ℕ} (hm : shrink l g ∈ s.sent) :
    Inv w (s.receive (shrink l g)) := by
  have hnext : Inv w { s with send := (s.send.shrink l g).1 } := by
    rw [SendCredit.shrink]
    split
    · exact h.applyShrink hm ‹_›
    · exact h
  cases hb : (s.send.shrink l g).2 with
  | none =>
    simp only [receive, hb]
    exact hnext
  | some b =>
    simp only [receive, hb]
    obtain ⟨hret, hgen⟩ := Option.filter_eq_some_iff.1 hb
    exact hnext.emitReturned (of_decide_eq_true hgen) hret

/-! ### Whole runs -/

def startsShrink (w : CreditWindow) (s : CreditLane) : CreditEvent → Bool
  | .shrinkTo lent => (s.recv.shrinkTo w lent).2.isSome
  | .idleShrink => (s.recv.idleShrink w).2.isSome
  | _ => false

lemma Inv.step {s' : CreditLane} (h : Inv w s) {e : CreditEvent}
    (hg : startsShrink w s e = true → s.recv.generation < u64Max) (he : step w s e = some s') :
    Inv w s' := by
  cases e with
  | reserve =>
    obtain rfl := Option.some.inj he
    exact h.reserve
  | commit =>
    rw [CreditLane.step] at he
    split at he
    · obtain rfl := Option.some.inj he
      exact h.commit ‹_›
    · cases he
  | cancel =>
    rw [CreditLane.step] at he
    split at he
    · obtain rfl := Option.some.inj he
      exact h.cancel
    · cases he
  | deliver =>
    rw [CreditLane.step] at he
    split at he
    · obtain ⟨recv, hok, hinv⟩ := h.deliver ‹_›
      rw [hok] at he
      obtain rfl := Option.some.inj he
      exact hinv
    · cases he
  | release =>
    rw [CreditLane.step] at he
    split at he
    · obtain rfl := Option.some.inj he
      exact h.release
    · cases he
  | advertise =>
    obtain rfl := Option.some.inj he
    exact h.advertise
  | lend share =>
    obtain rfl := Option.some.inj he
    exact h.lend share
  | shrinkTo lent =>
    obtain rfl := Option.some.inj he
    exact h.shrinkTo lent hg
  | idleShrink =>
    obtain rfl := Option.some.inj he
    exact h.idleShrink hg
  | signal x =>
    rw [CreditLane.step] at he
    split at he
    · rename_i hm
      obtain rfl := Option.some.inj he
      cases x with
      | credit l g => exact h.deliverCredit hm
      | shrink l g => exact (h.record (shrink l g) (fun _ _ => by simp)).deliverShrink hm
      | returned b g => exact (h.record (returned b g) (fun _ _ => by simp)).deliverReturned hm
    · cases he

inductive Reaches (w : CreditWindow) : CreditLane → Prop
  | start : Reaches w (new w)
  | step {s s' : CreditLane} (e : CreditEvent) : Reaches w s →
      (startsShrink w s e = true → s.recv.generation < u64Max) → CreditLane.step w s e = some s' →
      Reaches w s'

lemma Reaches.inv (h : Reaches w s) : Inv w s := by
  induction h with
  | start => exact inv_new w
  | step e _ hg he ih => exact ih.step hg he

/-- Nothing is left to happen on its own: no frame is held or in flight, no reservation is open,
no shrink is pending, every signal was delivered, and no advertisement is due. -/
structure Quiet (w : CreditWindow) (s : CreditLane) : Prop where
  flight : s.inFlight = 0
  held : s.recv.released = s.recv.received
  reserved : s.send.reserved = 0
  shrinking : s.recv.shrinking = none
  signals : ∀ x ∈ s.sent, x ∈ s.delivered
  due : (s.recv.advertise w).2 = none

lemma batchOf_le {grant : ℕ} (hg : 0 < grant) : w.batchOf grant ≤ grant := by
  rw [CreditWindow.batchOf]
  have hb := w.batch_pos
  split <;> split <;> omega

/-- A quiet lane has advertised past what the sender has committed. -/
lemma Inv.advertised_pos (h : Inv w s) (hq : Quiet w s) : s.recv.released < s.recv.advertised := by
  by_contra hnot
  have hdue := hq.due
  rw [ReceiveWindow.advertise, hq.shrinking] at hdue
  have hfloor := w.floor_pos
  have hbatch : w.batchOf (s.recv.granted w) ≤ s.recv.granted w := batchOf_le (by
    rw [h.granted]
    omega)
  -- with nothing advertised beyond the releases, the grant completes the batch
  have hcomplete : saturatingAdd u64Max s.recv.released (s.recv.granted w) ≥
      saturatingAdd u64Max s.recv.advertised (w.batchOf (s.recv.granted w)) := by
    simp only [saturatingAdd]
    omega
  simp [hcomplete] at hdue

lemma Inv.free_pos (h : Inv w s) (hq : Quiet w s) : 0 < s.send.free := by
  have hadvertised := h.advertised_pos hq
  have hlimit : s.recv.advertised ≤ s.send.limit := by
    rcases h.told hq.shrinking with hle | hm
    · exact hle
    · exact (h.joined _ _ (hq.signals _ hm)).2 (h.settled hq.shrinking).symm
  have hflight := h.flight
  have h1 := hq.flight
  have h2 := hq.held
  have h3 := hq.reserved
  rw [SendCredit.free, saturatingAdd]
  omega

/-- **Credit flow control.** In every state of a lane, under every interleaving: every frame in
flight will be admitted and none was refused; the credit used is within the limit, the limit
within the advertised credit, and the liability within the window; the bound returned for the
pending shrink lies between the frames received and the credit advertised; and a quiet lane has
a free credit. -/
theorem credit_lane_laws (w : CreditWindow) (s : CreditLane) (h : Reaches w s) :
    (s.refused = [] ∧ (0 < s.inFlight → ∃ recv, s.recv.tryAdmit = .ok recv)) ∧
    (s.send.committed + s.send.reserved ≤ s.send.limit ∧ s.send.limit ≤ s.recv.advertised ∧
      s.recv.advertised - s.recv.released ≤ w.frames) ∧
    (∀ b g, returned b g ∈ s.sent → s.recv.shrinking ≠ none → g = s.recv.generation →
      s.recv.received ≤ b ∧ b ≤ s.recv.advertised ∧
        (s.recv.returned b g).1.advertised = b) ∧
    (Quiet w s → 0 < s.send.free) := by
  have hinv := h.inv
  refine ⟨⟨hinv.admitted, fun hf => ?_⟩, ⟨hinv.reserved, hinv.limit, ?_⟩, fun b g hm hs hg => ?_,
    hinv.free_pos⟩
  · obtain ⟨recv, hok, -⟩ := hinv.deliver hf
    exact ⟨recv, hok⟩
  · have hcap := hinv.cap
    omega
  · obtain ⟨hlow, hhigh⟩ := hinv.bound_between hm hs hg
    refine ⟨hlow, hhigh, ?_⟩
    rw [ReceiveWindow.returned, if_neg (by simp [hs, hg])]
    simp only
    omega

def tight : CreditWindow := ⟨2, 1, 1, by decide, by decide, by decide, by decide⟩

/-- A frame is sent, admitted and released, and its credit is advertised and delivered. -/
theorem credit_lane_laws_round :
    let s : CreditLane := ⟨⟨1, 0, 2, 0, none⟩, ⟨1, 1, 2, 0, 0, none, true, false⟩, 0,
      [credit 2 0], [credit 2 0], []⟩
    s.refused = [] ∧ 0 < s.send.free := by
  intro s
  have hreaches : Reaches tight s := by
    refine .step (.signal (credit 2 0)) ?_ (by decide) (s := ⟨⟨1, 0, 1, 0, none⟩,
      ⟨1, 1, 2, 0, 0, none, true, false⟩, 0, [credit 2 0], [], []⟩) rfl
    refine .step .advertise ?_ (by decide) (s := ⟨⟨1, 0, 1, 0, none⟩,
      ⟨1, 1, 1, 0, 0, none, true, false⟩, 0, [], [], []⟩) (by decide)
    refine .step .release ?_ (by decide) (s := ⟨⟨1, 0, 1, 0, none⟩,
      ⟨1, 0, 1, 0, 0, none, true, false⟩, 0, [], [], []⟩) (by decide)
    refine .step .deliver ?_ (by decide) (s := ⟨⟨1, 0, 1, 0, none⟩,
      ⟨0, 0, 1, 0, 0, none, false, false⟩, 1, [], [], []⟩) (by decide)
    refine .step .commit ?_ (by decide) (s := ⟨⟨0, 1, 1, 0, none⟩,
      ⟨0, 0, 1, 0, 0, none, false, false⟩, 0, [], [], []⟩) (by decide)
    exact .step .reserve .start (by decide) (by decide)
  obtain ⟨⟨hadmitted, -⟩, -, -, hfree⟩ := credit_lane_laws tight s hreaches
  exact ⟨hadmitted, hfree ⟨rfl, rfl, rfl, rfl, by decide, by decide⟩⟩

end Steps

/-! ### The top of the generation counter -/

/-- The signals of the first `n` shrinks of an idle lane. -/
def shrinkSignals : ℕ → List LaneSignal
  | 0 => []
  | n + 1 => returned 1 (n + 1) :: shrink 1 (n + 1) :: shrinkSignals n

/-- An idle lane after `n` shrinks. -/
def shrunk (n : ℕ) : CreditLane :=
  ⟨⟨0, 0, 1, n, if n = 0 then none else some 1⟩,
    ⟨0, 0, 1, 0, n, none, false, decide (0 < n)⟩, 0, shrinkSignals n, shrinkSignals n, []⟩

def shrinkCycle (n : ℕ) : List CreditEvent :=
  [.lend 1, .shrinkTo 0, .signal (shrink 1 (n + 1)), .signal (returned 1 (n + 1))]

lemma run_append (w : CreditWindow) (s : CreditLane) (es fs : List CreditEvent) :
    run w s (es ++ fs) = (run w s es).bind (run w · fs) := by
  rw [run, List.foldlM_append]
  rfl

lemma run_shrinkCycle {n : ℕ} (hn : n < u64Max) :
    run tight (shrunk n) (shrinkCycle n) = some (shrunk (n + 1)) := by
  have hgen : saturatingAdd u64Max n 1 = n + 1 := Nat.min_eq_left hn
  have hzero : saturatingAdd u64Max 0 0 = 0 := rfl
  have hone : saturatingAdd u64Max 0 1 = 1 := rfl
  have hlimit : saturatingAdd u64Max 1 0 = 1 := rfl
  simp [run, shrinkCycle, step, shrunk, ReceiveWindow.lend, ReceiveWindow.want,
    ReceiveWindow.shrinkTo, tight, emit, receive, SendCredit.shrink, ReceiveWindow.returned,
    shrinkSignals, hgen, hzero, hone, hlimit]
  rfl

lemma run_shrinkCycles (n : ℕ) (hn : n ≤ u64Max) :
    run tight (new tight) ((List.range n).flatMap shrinkCycle) = some (shrunk n) := by
  induction n with
  | zero => rfl
  | succ n ih =>
    rw [List.range_succ, List.flatMap_append, run_append, ih (Nat.le_of_succ_le hn)]
    simpa using run_shrinkCycle hn

/-- A frame lent at the top of the counter, two frames committed on it, and the same generation
shrunk again. -/
def secondShrink : List CreditEvent :=
  [.lend 1, .advertise, .signal (credit 2 u64Max), .reserve, .commit, .reserve, .commit,
    .shrinkTo 0, .signal (shrink 1 u64Max), .signal (returned 1 u64Max), .deliver, .deliver]

/-- The generation saturates: the sender answers the second shrink of the top generation with the
bound of the first, and a frame committed before it is refused. -/
lemma run_secondShrink (l : List LaneSignal) :
    (run tight ⟨⟨0, 0, 1, u64Max, some 1⟩, ⟨0, 0, 1, 0, u64Max, none, false, true⟩, 0, l, l, []⟩
      secondShrink).map refused = some [⟨1, 1⟩] := by
  have hgen : saturatingAdd u64Max u64Max 1 = u64Max := Nat.min_eq_right (Nat.le_succ _)
  have hsum (a b : ℕ) (h : a + b ≤ 4) : saturatingAdd u64Max a b = a + b :=
    Nat.min_eq_left (h.trans (by decide))
  simp [run, secondShrink, step, ReceiveWindow.lend, ReceiveWindow.want, ReceiveWindow.advertise,
    ReceiveWindow.granted, CreditWindow.batchOf, ReceiveWindow.shrinkTo, tight, emit, receive,
    SendCredit.shrink, SendCredit.grant, SendCredit.tryReserve, SendCredit.free,
    SendCredit.commit, ReceiveWindow.returned, ReceiveWindow.tryAdmit, hgen, hsum]

/-- A shrink is returned, and two frames follow: its return may still be delivered again. -/
def afterShrink : List CreditEvent :=
  [.lend 1, .shrinkTo 0, .signal (shrink 1 1), .signal (returned 1 1), .reserve, .commit, .deliver,
    .release, .advertise, .signal (credit 2 1), .reserve, .commit, .deliver]

/-- A lane whose generation counter is at its top refuses an honest frame, and a return that has
been applied is overtaken by the frames received. -/
theorem saturated_generation_refuses :
    (run tight (new tight) ((List.range u64Max).flatMap shrinkCycle ++ secondShrink)).map refused =
        some [⟨1, 1⟩] ∧
      ∃ s, run tight (new tight) afterShrink = some s ∧ returned 1 1 ∈ s.sent ∧
        s.recv.received = 2 := by
  refine ⟨?_, _, rfl, by decide, rfl⟩
  rw [run_append, run_shrinkCycles u64Max le_rfl, Option.bind_some]
  have hstate : shrunk u64Max = ⟨⟨0, 0, 1, u64Max, some 1⟩,
      ⟨0, 0, 1, 0, u64Max, none, false, true⟩, 0, shrinkSignals u64Max, shrinkSignals u64Max,
      []⟩ := by
    rw [shrunk, if_neg (by decide), decide_eq_true (by decide)]
  rw [hstate]
  exact run_secondShrink _

end Rings.CreditLane
