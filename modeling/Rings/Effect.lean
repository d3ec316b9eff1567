import Mathlib.Control.Monad.Basic
import Mathlib.Tactic

/-!
Fallible steps over a state.

A step reads and changes the state and returns a value or an error; a failed step keeps the
changes it made before it failed, as a mutable borrow does. A sequence fails with its first
failing step.
-/

namespace Rings

abbrev Effect (σ ε : Type) := ExceptT ε (StateM σ)

namespace Effect

variable {σ ε α β : Type}

def outcome (m : Effect σ ε α) (s : σ) : Except ε α × σ := (ExceptT.run m).run s

@[simp] lemma outcome_pure (a : α) (s : σ) : outcome (pure a : Effect σ ε α) s = (.ok a, s) := rfl

@[simp] lemma outcome_throw (e : ε) (s : σ) :
    outcome (throw e : Effect σ ε α) s = (.error e, s) := rfl

@[simp] lemma outcome_get (s : σ) : outcome (get : Effect σ ε σ) s = (.ok s, s) := rfl

@[simp] lemma outcome_modify (f : σ → σ) (s : σ) :
    outcome (modify f : Effect σ ε PUnit) s = (.ok ⟨⟩, f s) := rfl

lemma outcome_bind (m : Effect σ ε α) (f : α → Effect σ ε β) (s : σ) :
    outcome (m >>= f) s = match outcome m s with
      | (.ok a, s') => outcome (f a) s'
      | (.error e, s') => (.error e, s') := by
  simp only [outcome, ExceptT.run_bind, StateT.run_bind]
  rcases StateT.run (ExceptT.run m) s with ⟨_ | _, _⟩ <;> rfl

/-- A sequence that goes through went through its first step. -/
lemma outcome_bind_of_ok {m : Effect σ ε α} {f : α → Effect σ ε β} {s s' : σ} {a : α}
    (h : outcome m s = (.ok a, s')) : outcome (m >>= f) s = outcome (f a) s' := by
  rw [outcome_bind, h]

lemma outcome_bind_of_error {m : Effect σ ε α} {f : α → Effect σ ε β} {s s' : σ} {e : ε}
    (h : outcome m s = (.error e, s')) : outcome (m >>= f) s = (.error e, s') := by
  rw [outcome_bind, h]

/-- What went through went through step by step. -/
lemma outcome_bind_eq_ok {m : Effect σ ε α} {f : α → Effect σ ε β} {s t : σ} {b : β}
    (h : outcome (m >>= f) s = (.ok b, t)) :
    ∃ a s', outcome m s = (.ok a, s') ∧ outcome (f a) s' = (.ok b, t) := by
  rcases hm : outcome m s with ⟨e | a, s'⟩
  · rw [outcome_bind_of_error hm] at h
    cases h
  · rw [outcome_bind_of_ok hm] at h
    exact ⟨a, s', rfl, h⟩

lemma outcome_tryCatch (m : Effect σ ε α) (f : ε → Effect σ ε α) (s : σ) :
    outcome (tryCatch m f) s = match outcome m s with
      | (.ok a, s') => (.ok a, s')
      | (.error e, s') => outcome (f e) s' := by
  simp only [outcome, tryCatch, tryCatchThe, MonadExceptOf.tryCatch, ExceptT.tryCatch,
    ExceptT.run, ExceptT.mk, StateT.run_bind]
  rcases StateT.run m s with ⟨_ | _, _⟩ <;> rfl

/-! ### Invariants of steps -/

/-- The step leaves the invariant as it finds it, whether it fails or not. -/
def Preserves (P : σ → Prop) (m : Effect σ ε α) : Prop := ∀ s, P s → P (outcome m s).2

variable {P : σ → Prop}

lemma preserves_pure (a : α) : Preserves P (pure a : Effect σ ε α) := fun _ h => h

lemma preserves_throw (e : ε) : Preserves P (throw e : Effect σ ε α) := fun _ h => h

lemma preserves_get : Preserves P (get : Effect σ ε σ) := fun _ h => h

lemma preserves_modify {f : σ → σ} (h : ∀ s, P s → P (f s)) :
    Preserves P (modify f : Effect σ ε PUnit) := h

lemma Preserves.bind {m : Effect σ ε α} {f : α → Effect σ ε β} (hm : Preserves P m)
    (hf : ∀ a, Preserves P (f a)) : Preserves P (m >>= f) := by
  intro s hs
  have hs' := hm s hs
  rcases hout : outcome m s with ⟨_ | a, s'⟩
  · rw [outcome_bind_of_error hout]
    rwa [hout] at hs'
  · rw [outcome_bind_of_ok hout]
    rw [hout] at hs'
    exact hf a s' hs'

lemma preserves_forM {γ : Type} {f : γ → Effect σ ε PUnit} {l : List γ}
    (hf : ∀ a ∈ l, Preserves P (f a)) : Preserves P (l.forM f) := by
  induction l with
  | nil => exact preserves_pure _
  | cons a l ih =>
    exact (hf a List.mem_cons_self).bind fun _ => ih fun b hb => hf b (List.mem_cons_of_mem _ hb)

/-- A step that reads the state first. -/
lemma preserves_get_bind {f : σ → Effect σ ε α}
    (hf : ∀ s, P s → P (outcome (f s) s).2) : Preserves P (get >>= f) := by
  intro s hs
  rw [outcome_bind_of_ok (outcome_get s)]
  exact hf s hs

@[simp] lemma outcome_set (s t : σ) : outcome (set t : Effect σ ε PUnit) s = (.ok ⟨⟩, t) := rfl

/-! ### Steps that go through -/

/-- From `s` the step goes through, and `Q` holds of its value and of the state it leaves. -/
def Succeeds (m : Effect σ ε α) (s : σ) (Q : α → σ → Prop) : Prop :=
  ∃ a s', outcome m s = (.ok a, s') ∧ Q a s'

lemma succeeds_pure {a : α} {s : σ} {Q : α → σ → Prop} (h : Q a s) :
    Succeeds (pure a : Effect σ ε α) s Q := ⟨a, s, rfl, h⟩

lemma Succeeds.mono {m : Effect σ ε α} {s : σ} {Q R : α → σ → Prop} (h : Succeeds m s Q)
    (hQR : ∀ a s', Q a s' → R a s') : Succeeds m s R := by
  obtain ⟨a, s', hm, ha⟩ := h
  exact ⟨a, s', hm, hQR a s' ha⟩

/-- A sequence goes through if the second step does from wherever the first leads. -/
lemma Succeeds.bind {m : Effect σ ε α} {f : α → Effect σ ε β} {s : σ} {Q : α → σ → Prop}
    {R : β → σ → Prop} (h : Succeeds m s Q) (hf : ∀ a s', Q a s' → Succeeds (f a) s' R) :
    Succeeds (m >>= f) s R := by
  obtain ⟨a, s', hm, ha⟩ := h
  obtain ⟨b, s'', hb, hR⟩ := hf a s' ha
  exact ⟨b, s'', by rw [outcome_bind_of_ok hm, hb], hR⟩

end Effect

/-! ### Fallible steps taken apart -/

section Except

variable {ε α β : Type}

lemma bind_eq_ok {x : Except ε α} {f : α → Except ε β} {b : β} :
    x >>= f = .ok b ↔ ∃ a, x = .ok a ∧ f a = .ok b := by
  constructor
  · intro h
    cases x with
    | error e => cases h
    | ok a => exact ⟨a, rfl, h⟩
  · rintro ⟨a, rfl, h⟩
    exact h

/-- Every result of a map that succeeds comes from one element. -/
lemma exists_of_mem_mapM {f : α → Except ε β} {l : List α} {r : List β} {b : β}
    (h : l.mapM f = .ok r) (hb : b ∈ r) : ∃ a ∈ l, f a = .ok b := by
  induction l generalizing r with
  | nil =>
    rw [List.mapM_nil] at h
    cases h
    cases hb
  | cons a l ih =>
    rw [List.mapM_cons, bind_eq_ok] at h
    obtain ⟨c, hc, h⟩ := h
    rw [bind_eq_ok] at h
    obtain ⟨r', hr', h⟩ := h
    cases h
    rcases List.mem_cons.1 hb with rfl | hb
    · exact ⟨a, by simp, hc⟩
    · obtain ⟨a', ha', hf⟩ := ih hr' hb
      exact ⟨a', by simp [ha'], hf⟩

lemma mapM_eq_ok_map {f : α → Except ε β} {g : α → β} {l : List α}
    (h : ∀ a ∈ l, f a = .ok (g a)) : l.mapM f = .ok (l.map g) := by
  induction l with
  | nil => rfl
  | cons a l ih =>
    rw [List.mapM_cons, h a (by simp), ih fun b hb => h b (by simp [hb])]
    rfl

/-- A list of results, all of them there. -/
lemma forall₂_of_mapM {f : α → Except ε β} {l : List α} {l' : List β} (h : l.mapM f = .ok l') :
    List.Forall₂ (fun a b => f a = .ok b) l l' := by
  induction l generalizing l' with
  | nil =>
    rw [List.mapM_nil] at h
    cases h
    exact .nil
  | cons a l ih =>
    rw [List.mapM_cons, bind_eq_ok] at h
    obtain ⟨b, hb, h⟩ := h
    rw [bind_eq_ok] at h
    obtain ⟨bs, hbs, h⟩ := h
    cases h
    exact .cons hb (ih hbs)

lemma mapM_of_forall₂ {f : α → Except ε β} {l : List α} {l' : List β}
    (h : List.Forall₂ (fun a b => f a = .ok b) l l') : l.mapM f = .ok l' := by
  induction h with
  | nil => rfl
  | cons ha hl ih =>
    rw [List.mapM_cons, ha, ih]
    rfl

end Except

/-! ### Computations that fail without a state -/

section Yields

variable {ε α β : Type} {x : Except ε α} {f : α → Except ε β} {P R : α → Prop} {Q : β → Prop}

/-- The computation goes through, with a result of which `P` holds. -/
def Yields (x : Except ε α) (P : α → Prop) : Prop := ∃ a, x = .ok a ∧ P a

@[simp] lemma yields_ok {a : α} : Yields (.ok a : Except ε α) P ↔ P a := by
  simp [Yields]

@[simp] lemma yields_pure {a : α} : Yields (pure a : Except ε α) P ↔ P a := yields_ok

lemma Yields.mono (h : Yields x P) (hPR : ∀ a, P a → R a) : Yields x R := by
  obtain ⟨a, hx, ha⟩ := h
  exact ⟨a, hx, hPR a ha⟩

/-- A sequence goes through if each step does on what the one before yields. -/
lemma Yields.bind (h : Yields x P) (hf : ∀ a, P a → Yields (f a) Q) : Yields (x >>= f) Q := by
  obtain ⟨a, rfl, ha⟩ := h
  exact hf a ha

end Yields

end Rings
