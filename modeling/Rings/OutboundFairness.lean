import Rings.OutboundOrder

/-!
Fairness of the outbound lanes.

Control gets at most a burst of turns in a row while a lower class could run, and a lower class
that could run is served before any other lower class gets a second turn.
-/

namespace Rings.Outbound

open scoped List

/-! ### The lower classes take turns -/

def askedBefore (cursor : ℕ) (c : TransferClass) : ℕ := (lowerClasses.rotate cursor).idxOf c

lemma askedBefore_mod (cursor : ℕ) (c : TransferClass) :
    askedBefore (cursor % 3) c = askedBefore cursor c := by
  unfold askedBefore
  rw [← List.rotate_mod lowerClasses cursor]
  rfl

lemma idxOf_le_of_find? {α : Type*} [DecidableEq α] {l : List α} {p : α → Bool} {x z : α}
    (hz : l.find? p = some z) (hx : p x = true) : l.idxOf z ≤ l.idxOf x := by
  induction l with
  | nil => simp
  | cons a l ih =>
    rw [List.find?_cons] at hz
    split at hz
    · rw [Option.some.inj hz]
      simp
    · rename_i ha
      have hax : a ≠ x := by
        rintro rfl
        rw [hx] at ha
        cases ha
      have haz : a ≠ z := by
        rintro rfl
        rw [List.find?_some hz] at ha
        cases ha
      rw [List.idxOf_cons_ne _ haz, List.idxOf_cons_ne _ hax]
      exact Nat.succ_le_succ (ih hz)

def cursorAfter (c : TransferClass) : ℕ := (lowerClasses.idxOf c + 1) % 3

lemma askedBefore_served {x z : TransferClass} (hx : x ∈ lowerClasses) (hz : z ∈ lowerClasses)
    (hne : x ≠ z) : askedBefore (cursorAfter z) x < askedBefore (cursorAfter z) z := by
  have h : ∀ x ∈ lowerClasses, ∀ z ∈ lowerClasses, x ≠ z →
      askedBefore (cursorAfter z) x < askedBefore (cursorAfter z) z := by decide
  exact h x hx z hz hne

/-- A turn of a class asked before both of two others leaves these two in their order. -/
lemma askedBefore_kept {cursor : ℕ} {x y z : TransferClass} (hx : x ∈ lowerClasses)
    (hy : y ∈ lowerClasses) (hz : z ∈ lowerClasses) (hne : z ≠ x)
    (hle : askedBefore cursor z ≤ askedBefore cursor x)
    (hlt : askedBefore cursor x < askedBefore cursor y) :
    askedBefore (cursorAfter z) x < askedBefore (cursorAfter z) y := by
  simp only [← askedBefore_mod cursor] at hle hlt
  have hcursor : cursor % 3 < 3 := Nat.mod_lt _ (by omega)
  have h : ∀ k < 3, ∀ x ∈ lowerClasses, ∀ y ∈ lowerClasses, ∀ z ∈ lowerClasses, z ≠ x →
      askedBefore k z ≤ askedBefore k x → askedBefore k x < askedBefore k y →
      askedBefore (cursorAfter z) x < askedBefore (cursorAfter z) y := by decide
  exact h _ hcursor x hx y hy z hz hne hle hlt

/-! ### What a step does to the turns -/

namespace TransferQueues

variable {T : Type*} {q : TransferQueues T}

/-- Control is selected within its burst, or when no lower class could run. -/
lemma selected_control {credited : TransferClass → Bool}
    (h : q.selected credited = some .dhtControl)
    (hlower : ∃ c ∈ lowerClasses, credited c = true ∧ (q.lanes c).isRunnable = true) :
    q.consecutiveControl < outboundControlBurst := by
  obtain ⟨c, hc, hcredited, hrunnable⟩ := hlower
  have hany : lowerClasses.any (fun c => credited c && (q.lanes c).isRunnable) = true :=
    List.any_eq_true.2 ⟨c, hc, by rw [hcredited, hrunnable]; rfl⟩
  simp only [selected, hany, Bool.not_true, Bool.or_false, Bool.and_eq_true,
    decide_eq_true_eq] at h
  split at h
  · rename_i hburst
    exact hburst.2
  · -- the round robin holds no control class
    have hmem := List.mem_of_find?_eq_some h
    rw [List.mem_rotate] at hmem
    exact absurd hmem (by decide)

lemma selected_lower {credited : TransferClass → Bool} {x z : TransferClass}
    (h : q.selected credited = some z) (hz : z ∈ lowerClasses)
    (hx : credited x = true ∧ (q.lanes x).isRunnable = true) :
    askedBefore q.lowerCursor z ≤ askedBefore q.lowerCursor x := by
  unfold selected at h
  simp only [] at h
  split at h
  · rw [← Option.some.inj h] at hz
    exact absurd hz (by decide)
  · exact idxOf_le_of_find? h (by rw [hx.1, hx.2]; rfl)

lemma lowerCursor_advanceFairness {c : TransferClass} (hc : c ∈ lowerClasses) :
    (q.advanceFairness c).lowerCursor = cursorAfter c := by
  cases c
  · exact absurd hc (by decide)
  all_goals rfl

end TransferQueues

namespace OutboundWorker

inductive TurnStep (s : OutboundWorker) (op : WorkerStep) : OutboundWorker → Prop where
  | kept {s' : OutboundWorker} (turns : s'.turns = s.turns)
      (cursor : s'.ready.lowerCursor = s.ready.lowerCursor)
      (control : s'.ready.consecutiveControl = s.ready.consecutiveControl)
      (active : s'.active = s.active ∨ s'.active = none) : TurnStep s op s'
  | popped {s' : OutboundWorker} (credited : TransferClass → Bool)
      (t : RunnableTransfer QueuedTransfer) (isPop : op = .pop credited) (idle : s.active = none)
      (selected : s.ready.selected credited = some t.class_) (turns : s'.turns = s.turns)
      (cursor : s'.ready.lowerCursor = s.ready.lowerCursor)
      (control : s'.ready.consecutiveControl = s.ready.consecutiveControl)
      (active : s'.active = some t) : TurnStep s op s'
  | charged {s' : OutboundWorker} (t : RunnableTransfer QueuedTransfer) (held : s.active = some t)
      (turns : s'.turns = s.turns ++ [t.class_])
      (cursor : s'.ready.lowerCursor = (s.ready.advanceFairness t.class_).lowerCursor)
      (control : s'.ready.consecutiveControl =
        (s.ready.advanceFairness t.class_).consecutiveControl)
      (active : s'.active = none) : TurnStep s op s'

lemma turnStep (s : OutboundWorker) (op : WorkerStep) : TurnStep s op (s.step op) := by
  cases op with
  | push c frames => exact .kept rfl rfl rfl (Or.inl rfl)
  | pop credited =>
    simp only [step, pop]
    split
    · exact .kept rfl rfl rfl (Or.inl rfl)
    · rename_i hidle
      split
      · exact .kept rfl rfl rfl (Or.inl rfl)
      · rename_i t ready hp
        obtain ⟨hselected, lane', -, rfl⟩ := TransferQueues.pop_some hp
        exact .popped credited t rfl hidle hselected rfl rfl rfl rfl
  | admitFrame delivery =>
    simp only [step, admitFrame]
    split
    · exact .kept rfl rfl rfl (Or.inl rfl)
    · rename_i t ht
      split
      · exact .kept rfl rfl rfl (Or.inl rfl)
      · exact .charged t ht rfl rfl rfl rfl
  | finish =>
    simp only [step, finish]
    split
    · exact .kept rfl rfl rfl (Or.inl rfl)
    · exact .kept rfl rfl rfl (Or.inr rfl)
  | fail =>
    simp only [step, fail]
    split
    · exact .kept rfl rfl rfl (Or.inl rfl)
    · rename_i t ht
      exact .charged t ht rfl rfl rfl rfl
  | delivered index =>
    simp only [step, delivered]
    split
    · exact .kept rfl rfl rfl (Or.inl rfl)
    · split
      · exact .kept rfl rfl rfl (Or.inl rfl)
      · rename_i hw
        obtain ⟨-, lane', -, rfl⟩ := TransferQueues.takeWaiting_some hw
        exact .kept rfl rfl rfl (Or.inl rfl)
  | terminated index =>
    simp only [step, terminated]
    split
    · exact .kept rfl rfl rfl (Or.inl rfl)
    · split
      · exact .kept rfl rfl rfl (Or.inl rfl)
      · rename_i hw
        obtain ⟨-, lane', -, rfl⟩ := TransferQueues.takeWaiting_some hw
        exact .kept rfl rfl rfl (Or.inl rfl)
  | cancel p => exact .kept rfl rfl rfl (Or.inl rfl)
  | shutdown => exact .kept rfl rfl rfl (Or.inr rfl)

/-! ### Fairness of a run -/

/-- A lower class that `p` allows holds a credit and could run, at every pop of `steps` from `s`. -/
def LowerRuns (p : TransferClass → Prop) : OutboundWorker → List WorkerStep → Prop
  | _, [] => True
  | s, op :: steps =>
    (∀ credited, op = .pop credited → s.active = none →
      ∃ c ∈ lowerClasses, p c ∧ credited c = true ∧ (s.ready.lanes c).isRunnable = true) ∧
    LowerRuns p (s.step op) steps

/-- What control has had of its burst, where `new` are the turns charged so far. -/
structure WithinBurst (new : List TransferClass) (s : OutboundWorker) : Prop where
  burst : ∀ k, List.replicate k .dhtControl <:+: new → k ≤ outboundControlBurst
  row : ∀ k, List.replicate k .dhtControl <:+ new →
    k ≤ s.ready.consecutiveControl ∧
      (∀ t, s.active = some t → t.class_ = .dhtControl → k < outboundControlBurst)

lemma WithinBurst.step {new : List TransferClass} {s : OutboundWorker} (h : WithinBurst new s)
    {op : WorkerStep} (hpop : ∀ credited, op = .pop credited → s.active = none →
      ∃ c ∈ lowerClasses, credited c = true ∧ (s.ready.lanes c).isRunnable = true) :
    ∃ new', (s.step op).turns = s.turns ++ new' ∧ WithinBurst (new ++ new') (s.step op) := by
  cases turnStep s op with
  | kept turns cursor control active =>
    refine ⟨[], by rw [turns, List.append_nil], ?_⟩
    rw [List.append_nil]
    refine ⟨h.burst, fun k hk => ⟨control ▸ (h.row k hk).1, fun t ht => ?_⟩⟩
    rcases active with hactive | hactive
    · exact (h.row k hk).2 t (hactive ▸ ht)
    · rw [hactive] at ht
      cases ht
  | popped credited t isPop idle selected turns cursor control active =>
    refine ⟨[], by rw [turns, List.append_nil], ?_⟩
    rw [List.append_nil]
    refine ⟨h.burst, fun k hk => ⟨control ▸ (h.row k hk).1, fun t' ht' hclass => ?_⟩⟩
    rw [active] at ht'
    obtain rfl := Option.some.inj ht'
    rw [hclass] at selected
    exact (h.row k hk).1.trans_lt
      (TransferQueues.selected_control selected (hpop credited isPop idle))
  | charged t held turns cursor control active =>
    refine ⟨[t.class_], turns, ?_⟩
    have hrow : ∀ k, List.replicate k .dhtControl <:+ new ++ [t.class_] →
        k ≤ (s.step op).ready.consecutiveControl ∧ k ≤ outboundControlBurst := by
      intro k hk
      cases k with
      | zero => exact ⟨Nat.zero_le _, Nat.zero_le _⟩
      | succ k =>
        rw [List.replicate_succ', List.suffix_concat_iff] at hk
        obtain hk | ⟨l, hl, hk⟩ := hk
        · simp at hk
        obtain ⟨rfl, hclass⟩ := List.append_inj' hl rfl
        have hcontrol : t.class_ = .dhtControl := (List.singleton_inj.1 hclass).symm
        obtain ⟨hle, hactive⟩ := h.row k hk
        have hlt := hactive t held hcontrol
        rw [control, hcontrol, TransferQueues.advanceFairness, if_pos rfl]
        simp only [saturatingAdd, usizeMax, outboundControlBurst] at hlt ⊢
        omega
    constructor
    · intro k hk
      rcases List.infix_concat_iff.1 hk with hk | hk
      · exact (hrow k hk).2
      · exact h.burst k hk
    · intro k hk
      refine ⟨(hrow k hk).1, fun t' ht' => ?_⟩
      rw [active] at ht'
      cases ht'

/-- No lower class but `x` had two turns since `x` was served, where `new` are the turns charged
so far: one that had its turn is asked after `x`. -/
structure ServedInTurn (x : TransferClass) (new : List TransferClass) (s : OutboundWorker) :
    Prop where
  once : ∀ y ∈ lowerClasses, ∀ l, l <:+: new → x ∉ l → l.count y ≤ 1
  asked : ∀ y ∈ lowerClasses, ∀ l, l <:+ new → x ∉ l → y ∈ l →
    askedBefore s.ready.lowerCursor x < askedBefore s.ready.lowerCursor y ∧
      ∀ t, s.active = some t → t.class_ ∈ lowerClasses →
        askedBefore s.ready.lowerCursor t.class_ ≤ askedBefore s.ready.lowerCursor x

lemma ServedInTurn.step {x : TransferClass} (hx : x ∈ lowerClasses) {new : List TransferClass}
    {s : OutboundWorker} (h : ServedInTurn x new s) {op : WorkerStep}
    (hpop : ∀ credited, op = .pop credited → s.active = none →
      credited x = true ∧ (s.ready.lanes x).isRunnable = true) :
    ∃ new', (s.step op).turns = s.turns ++ new' ∧ ServedInTurn x (new ++ new') (s.step op) := by
  cases turnStep s op with
  | kept turns cursor control active =>
    refine ⟨[], by rw [turns, List.append_nil], ?_⟩
    rw [List.append_nil]
    refine ⟨h.once, fun y hy l hl hxl hyl => ?_⟩
    rw [cursor]
    refine ⟨(h.asked y hy l hl hxl hyl).1, fun t ht => ?_⟩
    rcases active with hactive | hactive
    · exact (h.asked y hy l hl hxl hyl).2 t (hactive ▸ ht)
    · rw [hactive] at ht
      cases ht
  | popped credited t isPop idle selected turns cursor control active =>
    refine ⟨[], by rw [turns, List.append_nil], ?_⟩
    rw [List.append_nil]
    refine ⟨h.once, fun y hy l hl hxl hyl => ?_⟩
    rw [cursor]
    refine ⟨(h.asked y hy l hl hxl hyl).1, fun t' ht' hlower => ?_⟩
    rw [active] at ht'
    obtain rfl := Option.some.inj ht'
    exact TransferQueues.selected_lower selected hlower (hpop credited isPop idle)
  | charged t held turns cursor control active =>
    refine ⟨[t.class_], turns, ?_⟩
    have hidle : ∀ t', (s.step op).active = some t' → t'.class_ ∈ lowerClasses →
        askedBefore (s.step op).ready.lowerCursor t'.class_ ≤
          askedBefore (s.step op).ready.lowerCursor x := by
      intro t' ht'
      rw [active] at ht'
      cases ht'
    -- what a row at the end was before this turn
    have hend : ∀ l, l <:+ new ++ [t.class_] → x ∉ l → l ≠ [] →
        ∃ l', l = l' ++ [t.class_] ∧ l' <:+ new ∧ x ∉ l' ∧ t.class_ ≠ x := by
      intro l hl hxl hne
      obtain hnil | ⟨l', rfl, hl'⟩ := List.suffix_concat_iff.1 hl
      · exact absurd hnil hne
      · rw [List.mem_append, not_or, List.mem_singleton] at hxl
        exact ⟨l', rfl, hl', hxl.1, Ne.symm hxl.2⟩
    constructor
    · intro y hy l hl hxl
      rcases List.infix_concat_iff.1 hl with hl | hl
      · by_cases hnil : l = []
        · simp [hnil]
        obtain ⟨l', rfl, hl', hxl', hne⟩ := hend l hl hxl hnil
        rw [List.count_append, List.count_singleton]
        by_cases hyc : t.class_ = y
        · -- a second turn of `y` needs `y` asked no later than `x`
          subst hyc
          have hcount : l'.count t.class_ = 0 := by
            refine List.count_eq_zero.2 fun hmem => ?_
            obtain ⟨hlt, hle⟩ := h.asked _ hy l' hl' hxl' hmem
            have hle := hle t held hy
            omega
          simp [hcount]
        · simpa [hyc] using h.once y hy l' hl'.isInfix hxl'
      · exact h.once y hy l hl hxl
    · intro y hy l hl hxl hyl
      refine ⟨?_, hidle⟩
      obtain ⟨l', rfl, hl', hxl', hne⟩ := hend l hl hxl (List.ne_nil_of_mem hyl)
      rw [cursor]
      by_cases hlower : t.class_ ∈ lowerClasses
      · rw [TransferQueues.lowerCursor_advanceFairness hlower]
        by_cases hyc : t.class_ = y
        · subst hyc
          exact askedBefore_served hx hlower (Ne.symm hne)
        · have hmem : y ∈ l' := by
            rcases List.mem_append.1 hyl with hmem | hmem
            · exact hmem
            · exact absurd (List.mem_singleton.1 hmem).symm hyc
          obtain ⟨hlt, hle⟩ := h.asked y hy l' hl' hxl' hmem
          exact askedBefore_kept hx hy hlower hne (hle t held hlower) hlt
      · -- a control turn leaves the cursor alone
        have hcontrol : t.class_ = .dhtControl := by
          rcases List.mem_cons.1 (mem_classes t.class_) with hc | hc
          · exact hc
          · exact absurd hc hlower
        have hmem : y ∈ l' := by
          rcases List.mem_append.1 hyl with hmem | hmem
          · exact hmem
          · rw [List.mem_singleton.1 hmem] at hy
            exact absurd hy hlower
        rw [hcontrol, TransferQueues.advanceFairness, if_pos rfl]
        exact (h.asked y hy l' hl' hxl' hmem).1

/-- While a lower class could run at every pop, control has no more turns in a row than its
burst. -/
lemma withinBurst_foldl {steps : List WorkerStep} {new : List TransferClass} {s : OutboundWorker}
    (h : WithinBurst new s) (hruns : LowerRuns (fun _ => True) s steps) :
    ∃ new', (steps.foldl step s).turns = s.turns ++ new' ∧
      WithinBurst (new ++ new') (steps.foldl step s) := by
  induction steps generalizing new s with
  | nil => exact ⟨[], by simpa using h⟩
  | cons op steps ih =>
    obtain ⟨hop, hruns⟩ := hruns
    obtain ⟨new₁, hturns₁, h₁⟩ := h.step fun credited hc hidle => by
      obtain ⟨c, hc, -, hrunnable⟩ := hop credited hc hidle
      exact ⟨c, hc, hrunnable⟩
    obtain ⟨new₂, hturns₂, h₂⟩ := ih h₁ hruns
    refine ⟨new₁ ++ new₂, ?_, ?_⟩
    · rw [List.foldl_cons, hturns₂, hturns₁, List.append_assoc]
    · rw [← List.append_assoc]
      exact h₂

/-- While the lower class `x` could run at every pop, no other lower class has a second turn before
`x` is served. -/
lemma servedInTurn_foldl {x : TransferClass} (hx : x ∈ lowerClasses) {steps : List WorkerStep}
    {new : List TransferClass} {s : OutboundWorker} (h : ServedInTurn x new s)
    (hruns : LowerRuns (· = x) s steps) :
    ∃ new', (steps.foldl step s).turns = s.turns ++ new' ∧
      ServedInTurn x (new ++ new') (steps.foldl step s) := by
  induction steps generalizing new s with
  | nil => exact ⟨[], by simpa using h⟩
  | cons op steps ih =>
    obtain ⟨hop, hruns⟩ := hruns
    obtain ⟨new₁, hturns₁, h₁⟩ := h.step hx fun credited hc hidle => by
      obtain ⟨c, -, rfl, hrunnable⟩ := hop credited hc hidle
      exact hrunnable
    obtain ⟨new₂, hturns₂, h₂⟩ := ih h₁ hruns
    refine ⟨new₁ ++ new₂, ?_, ?_⟩
    · rw [List.foldl_cons, hturns₂, hturns₁, List.append_assoc]
    · rw [← List.append_assoc]
      exact h₂

/-- The fairness of the turns charged by `steps` from `s`. -/
structure ServesFairly (s : OutboundWorker) (steps : List WorkerStep)
    (new : List TransferClass) : Prop where
  burst : LowerRuns (fun _ => True) s steps →
    ∀ k, List.replicate k .dhtControl <:+: new → k ≤ outboundControlBurst
  inTurn : ∀ x ∈ lowerClasses, LowerRuns (· = x) s steps → ∀ y ∈ lowerClasses, y ≠ x →
    ∀ l, l <:+: new → x ∉ l → l.count y ≤ 1

lemma exists_servesFairly (s : OutboundWorker) (steps : List WorkerStep) :
    ∃ new, (steps.foldl step s).turns = s.turns ++ new ∧ ServesFairly s steps new := by
  have hgrow : ∃ new, (steps.foldl step s).turns = s.turns ++ new := by
    induction steps generalizing s with
    | nil => exact ⟨[], by simp⟩
    | cons op steps ih =>
      obtain ⟨new, hnew⟩ := ih (s.step op)
      rw [List.foldl_cons, hnew]
      cases turnStep s op with
      | kept turns => exact ⟨new, by rw [turns]⟩
      | popped _ _ _ _ _ turns => exact ⟨new, by rw [turns]⟩
      | charged t _ turns => exact ⟨[t.class_] ++ new, by rw [turns, List.append_assoc]⟩
  obtain ⟨new, hnew⟩ := hgrow
  refine ⟨new, hnew, fun hruns => ?_, fun x hx hruns y hy hyx => ?_⟩
  · have h₀ : WithinBurst [] s := by
      constructor
      · intro k hk
        have hk := hk.length_le
        simp at hk
        simp [hk]
      · intro k hk
        have hk := hk.length_le
        simp at hk
        simp [hk, outboundControlBurst]
    obtain ⟨new', hnew', h⟩ := withinBurst_foldl h₀ hruns
    rw [hnew, List.append_cancel_left_eq] at hnew'
    rw [hnew']
    exact h.burst
  · have h₀ : ServedInTurn x [] s := by
      constructor
      · intro y hy l hl
        rw [List.infix_nil.1 hl]
        simp
      · intro y hy l hl hxl hyl
        rw [List.suffix_nil.1 hl] at hyl
        cases hyl
    obtain ⟨new', hnew', h⟩ := servedInTurn_foldl hx h₀ hruns
    rw [hnew, List.append_cancel_left_eq] at hnew'
    rw [hnew']
    exact h.once y hy

end OutboundWorker

end Rings.Outbound
