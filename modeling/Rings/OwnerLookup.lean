import Rings.ChordFixpoint

/-!
Finding the owner of a ring position by asking node after node.

In any view a remote answer names a node strictly nearer the position, so the lookup ends.
In converged views the answer is the first member at or after the position.
-/

namespace Rings

def lookup (view : Did → TopologyState) : ℕ → Did → Did → Option Did
  | 0, _, _ => none
  | fuel + 1, n, id =>
    match findSuccessor (view n) id with
    | .localAnswer owner => some owner
    | .remote next did => lookup view fuel next did

/-! ### One answer -/

section Answer

variable {s : TopologyState} {id next did owner : Did}

/-- A remote answer keeps the position asked for and names a node on the open arc to it: a
finger, or else the head. -/
lemma findSuccessor_remote (h : findSuccessor s id = .remote next did) :
    did = id ∧ next ≠ s.localDid ∧ dist s.localDid next < dist s.localDid id ∧
      (some next ∈ s.fingers ∨ successorHead s = some next) := by
  unfold findSuccessor at h
  split at h
  · cases h
  rename_i head hhead
  dsimp only at h
  split at h
  · cases h
  rename_i htarget
  obtain ⟨hnext, hdid⟩ := FindSuccessorStep.remote.inj h
  refine ⟨hdid.symm, ?_⟩
  rcases hf : closestPrecedingFinger s (dist s.localDid id) with _ | f
  · rw [hf, Option.getD_none] at hnext
    subst hnext
    have hne := List.find?_some hhead
    exact ⟨by simpa using hne, by omega, Or.inr hhead⟩
  · rw [hf, Option.getD_some] at hnext
    subst hnext
    have hp := List.find?_some hf
    have hm := List.mem_of_find?_eq_some hf
    simp only [precedes, Bool.and_eq_true, decide_eq_true_eq] at hp
    exact ⟨hp.1, hp.2, Or.inl (by simpa using hm)⟩

lemma findSuccessor_advance (h : findSuccessor s id = .remote next did) :
    dist next id < dist s.localDid id := by
  obtain ⟨-, hne, hlt, -⟩ := findSuccessor_remote h
  exact dist_lt_of_step hne hlt.le

lemma findSuccessor_local (h : findSuccessor s id = .localAnswer owner) :
    (successorHead s = none ∧ owner = s.localDid) ∨
      (successorHead s = some owner ∧ dist s.localDid id ≤ dist s.localDid owner) := by
  unfold findSuccessor at h
  split at h
  · exact Or.inl ⟨by assumption, (FindSuccessorStep.localAnswer.inj h).symm⟩
  · rename_i head hhead
    dsimp only at h
    split at h
    · rename_i hle
      obtain rfl := FindSuccessorStep.localAnswer.inj h
      exact Or.inr ⟨hhead, hle⟩
    · cases h

end Answer

/-! ### Termination -/

section Termination

variable {view : Did → TopologyState}

lemma lookup_ends (hview : ∀ n, (view n).localDid = n) (id : Did) (fuel : ℕ) (n : Did)
    (hfuel : dist n id < fuel) : ∃ owner, lookup view fuel n id = some owner := by
  induction fuel generalizing n with
  | zero => omega
  | succ fuel ih =>
    rw [lookup]
    rcases hf : findSuccessor (view n) id with owner | ⟨next, did⟩
    · exact ⟨owner, rfl⟩
    · have hadv := findSuccessor_advance hf
      obtain ⟨rfl, -⟩ := findSuccessor_remote hf
      rw [hview] at hadv
      exact ih next (by omega)

end Termination

/-! ### Correctness -/

/-- `owner` is the member with the least clockwise distance from `id`. -/
def IsOwner (members : List Did) (id owner : Did) : Prop :=
  owner ∈ members ∧ ∀ m ∈ members, dist id owner ≤ dist id m

section Correctness

variable {members : List Did} {k : ℕ} {s : TopologyState} {id next did owner : Did}

lemma ChordFixpoint.local_isOwner (hk : 1 ≤ k) (h : ChordFixpoint members k s)
    (hs : s.localDid ∈ members) (hid : id ≠ s.localDid)
    (ha : findSuccessor s id = .localAnswer owner) : IsOwner members id owner := by
  rcases findSuccessor_local ha with ⟨hnone, rfl⟩ | ⟨hhead, hle⟩
  · refine ⟨hs, fun m hm => ?_⟩
    rw [h.alone hk hnone m hm]
  · obtain ⟨hmem, hne, hnear⟩ := h.head_spec hhead
    refine ⟨hmem, fun m hm => ?_⟩
    have h1 := dist_add_of_le hle
    by_cases hmn : m = s.localDid
    · -- the node itself is a whole turn, less the way already gone, past the position
      subst hmn
      have h2 := dist_add_comm hid.symm
      have h3 := dist_lt s.localDid owner
      omega
    · have h2 := dist_add_of_le (le_trans hle (hnear m hm hmn))
      have h3 := hnear m hm hmn
      omega

lemma ChordFixpoint.remote_mem (h : ChordFixpoint members k s)
    (ha : findSuccessor s id = .remote next did) : next ∈ members ∧ id ≠ next := by
  obtain ⟨-, -, hlt, hfrom⟩ := findSuccessor_remote ha
  refine ⟨?_, fun he => by rw [he] at hlt; omega⟩
  rcases hfrom with hf | hhead
  · obtain ⟨i, hi⟩ := List.mem_iff_getElem?.mp hf
    exact (finger_eq_some (h.fingers i _ hi).symm).1
  · exact (h.head_spec hhead).1

lemma lookup_isOwner {view : Did → TopologyState} (hview : ∀ n, (view n).localDid = n)
    (hk : 1 ≤ k) (hfix : ∀ m ∈ members, ChordFixpoint members k (view m)) (fuel : ℕ) (n : Did)
    (hn : n ∈ members) (hid : id ≠ n) (h : lookup view fuel n id = some owner) :
    IsOwner members id owner := by
  induction fuel generalizing n with
  | zero => cases h
  | succ fuel ih =>
    have hfixn := hfix n hn
    rw [lookup] at h
    rcases hf : findSuccessor (view n) id with o | ⟨next, did⟩ <;> rw [hf] at h
    · obtain rfl := Option.some.inj h
      exact hfixn.local_isOwner hk (by rwa [hview]) (by rwa [hview]) hf
    · obtain ⟨hmem, hne⟩ := hfixn.remote_mem hf
      obtain ⟨rfl, -⟩ := findSuccessor_remote hf
      exact ih next hmem hne h

end Correctness

/-- **Owner lookup.** In arbitrary views every remote answer strictly shortens the clockwise
way to the position and the lookup ends in a local answer; in converged views, from any member
other than the position itself, that answer is the member with the least clockwise distance
from the position. -/
theorem owner_lookup (view : Did → TopologyState) (hview : ∀ n, (view n).localDid = n) :
    (∀ n id next did, findSuccessor (view n) id = .remote next did →
      did = id ∧ dist next id < dist n id) ∧
    (∀ n id, ∃ fuel owner, lookup view fuel n id = some owner) ∧
    (∀ members k, 1 ≤ k → (∀ m ∈ members, ChordFixpoint members k (view m)) →
      ∀ n ∈ members, ∀ id, id ≠ n → ∀ fuel owner, lookup view fuel n id = some owner →
        IsOwner members id owner) := by
  refine ⟨?_, ?_, ?_⟩
  · intro n id next did h
    have hadv := findSuccessor_advance h
    rw [hview] at hadv
    exact ⟨(findSuccessor_remote h).1, hadv⟩
  · intro n id
    obtain ⟨owner, h⟩ := lookup_ends hview id (dist n id + 1) n (Nat.lt_succ_self _)
    exact ⟨_, owner, h⟩
  · intro members k hk hfix n hn id hid fuel owner h
    exact lookup_isOwner hview hk hfix fuel n hn hid h

/-- On the ring of `1`, `8`, `20` and `40`, node `1` finds `20` as the owner of `15`. -/
theorem owner_lookup_four :
    IsOwner [1, 8, 20, 40] 15 20 :=
  (owner_lookup (converged [1, 8, 20, 40] 2 6) fun _ => rfl).2.2 _ 2 (by decide)
    (fun _ _ => converged_fixpoint _ _ _ _) 1 (by decide) 15 (by decide) 2 20 (by decide)

end Rings
