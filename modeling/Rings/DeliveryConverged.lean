import Rings.Delivery

/-!
Delivery on the converged ring.

At distance `d` from the destination, the finger of slot `log2 d` lies on the way and covers at
least `2 ^ log2 d`, more than half of it. The greedy step goes at least as far, so every hop
leaves less than half the distance and lowers its logarithm.
-/

namespace Rings

lemma two_mul_sub_lt {d x : ℕ} (hx : 2 ^ d.log2 ≤ x) (hxd : x ≤ d) : 2 * (d - x) < d := by
  have h : d < 2 ^ (d.log2 + 1) := Nat.lt_log2_self
  rw [Nat.pow_succ] at h
  omega

lemma log2_lt_of_two_mul_lt {d e : ℕ} (he : e ≠ 0) (h : 2 * e < d) : e.log2 < d.log2 := by
  have h1 : 2 ^ (e.log2 + 1) ≤ d := by
    have := Nat.log2_self_le he
    rw [Nat.pow_succ]
    omega
  exact (Nat.le_log2 (by omega)).mpr h1

section Converged

variable {members : List Did} {k : ℕ} {s : TopologyState} {T : Did}

lemma ChordFixpoint.names_mem (h : ChordFixpoint members k s) {p : Did} (hp : Names s p) :
    p ∈ members := by
  rcases hp with hp | hp
  · exact (h.successors_remote hp).1
  · obtain ⟨i, hi⟩ := List.mem_iff_getElem?.mp hp
    exact (finger_eq_some (h.fingers i _ hi).symm).1

lemma ChordFixpoint.exists_finger (h : ChordFixpoint members k s) (hw : s.fingers.length = 160)
    (hT : T ∈ members) (hne : T ≠ s.localDid) :
    ∃ f, Names s f ∧ f ≠ s.localDid ∧ 2 ^ (dist s.localDid T).log2 ≤ dist s.localDid f ∧
      dist s.localDid f ≤ dist s.localDid T := by
  have hd : dist s.localDid T ≠ 0 := (dist_pos.mpr hne.symm).ne'
  have hlow := Nat.log2_self_le hd
  have hslot : (dist s.localDid T).log2 < s.fingers.length := by
    rw [hw]
    exact (Nat.log2_lt hd).mpr (dist_lt _ _)
  obtain ⟨f, hf⟩ := finger_isSome hT hlow
  obtain ⟨-, hfn, hfl, hfmin⟩ := finger_eq_some hf
  refine ⟨f, Or.inr ?_, hfn, hfl, hfmin T hT hlow⟩
  have hget := List.getElem?_eq_getElem hslot
  rw [← hf, ← h.fingers _ _ hget]
  exact List.getElem_mem hslot

/-- The converged step goes to a member, unmarked, and leaves less than half the distance. -/
lemma ChordFixpoint.deliveryStep_halves (h : ChordFixpoint members k s)
    (hw : s.fingers.length = 160) {linked : Did → Bool} (hl : ∀ p, Names s p → linked p = true)
    (hT : T ∈ members) (hne : T ≠ s.localDid) :
    ∃ p, deliveryStep s T .toward linked = some ⟨p, .toward⟩ ∧ p ∈ members ∧
      2 * dist p T < dist s.localDid T := by
  by_cases hlink : linked T = true
  · refine ⟨T, by simp [deliveryStep, hlink], hT, ?_⟩
    rw [dist_self]
    exact dist_pos.mpr hne.symm
  · obtain ⟨f, hf, hfn, hlow, hle⟩ := h.exists_finger hw hT hne
    obtain ⟨p, hp⟩ := routeToward_of_mem hf hfn (hl f hf) hle
    obtain ⟨hname, hpn, hpT, hmax⟩ := routeToward_forward hp
    refine ⟨p, ?_, h.names_mem hname, ?_⟩
    · have haim : RouteStage.toward.aim T = T := rfl
      simp only [deliveryStep, hlink, haim, hp, ne_eq, not_true_eq_false, false_and, if_false]
      rfl
    · have hadd := dist_add_of_le hpT
      have hfar := hmax f hf hfn (hl f hf) hle
      have := two_mul_sub_lt (le_trans hlow hfar) hpT
      omega

end Converged

section Route

variable {members : List Did} {k : ℕ} {T : Did} {view : ℕ → Did → TopologyState}
  {linked : ℕ → Did → Did → Bool}

/-- What every hop of a converged route does. -/
def Hop.Greedy (T : Did) (h : Hop) : Prop :=
  h.next.stage = .toward ∧ h.next.stage.handedOff = false ∧
    2 * dist h.next.peer T < dist h.origin T

lemma route_converged (hview : ∀ i n, (view i n).localDid = n)
    (hfix : ∀ i, ∀ m ∈ members, ChordFixpoint members k (view i m) ∧
      (view i m).fingers.length = 160 ∧ ∀ p, Names (view i m) p → linked i m p = true)
    (hT : T ∈ members) (fuel i : ℕ) {n : Did} (hn : n ∈ members) (hne : n ≠ T) :
    let hops := route view linked T fuel i n .toward
    (∀ h ∈ hops, h.Greedy T) ∧ hops.length ≤ (dist n T).log2 + 1 ∧
      ((dist n T).log2 < fuel → hops.getLast?.map (·.next.peer) = some T) := by
  induction fuel generalizing i n with
  | zero => exact ⟨fun h hh => (List.not_mem_nil hh).elim, Nat.zero_le _, fun h => by omega⟩
  | succ fuel ih =>
    intro hops
    obtain ⟨hf, hw, hl⟩ := hfix i n hn
    have hloc := hview i n
    obtain ⟨p, hstep, hp, hhalf⟩ := hf.deliveryStep_halves hw hl hT (by rw [hloc]; exact hne.symm)
    rw [hloc] at hhalf
    have heq : hops = ⟨n, .toward, p, .toward⟩ ::
        if p = T then [] else route view linked T fuel (i + 1) p .toward := by
      simp only [hops, route, hstep]
    have hgreedy : (Hop.mk n .toward ⟨p, .toward⟩).Greedy T := ⟨rfl, rfl, hhalf⟩
    by_cases hpT : p = T
    · rw [heq, if_pos hpT]
      refine ⟨fun h hh => ?_, by simp, fun _ => by simp [hpT]⟩
      rw [List.mem_singleton.mp hh]
      exact hgreedy
    · obtain ⟨h1, h2, h3⟩ := ih (i + 1) hp hpT
      have hlog := log2_lt_of_two_mul_lt (dist_pos.mpr hpT).ne' hhalf
      rw [heq, if_neg hpT]
      refine ⟨fun h hh => ?_, by rw [List.length_cons]; omega, fun hfuel => ?_⟩
      · rcases List.mem_cons.mp hh with rfl | hh
        · exact hgreedy
        · exact h1 h hh
      · have hlast := h3 (by omega)
        rcases hr : route view linked T fuel (i + 1) p .toward with _ | ⟨x, l⟩
        · rw [hr] at hlast
          cases hlast
        · rw [List.getLast?_cons_cons, ← hr]
          exact hlast

end Route

/-- **Logarithmic delivery.** When every member holds the converged view with a full table and
is linked to every peer its view names, a route between two members never hands off, leaves
less than half of the remaining distance at every hop, and sends to the destination within
`log2 d + 1` hops. -/
theorem delivery_logarithmic (members : List Did) (k : ℕ) (view : Did → TopologyState)
    (linked : Did → Did → Bool) (hview : ∀ n, (view n).localDid = n)
    (hfix : ∀ m ∈ members, ChordFixpoint members k (view m))
    (hfull : ∀ m ∈ members, (view m).fingers.length = 160)
    (hlinked : ∀ m ∈ members, ∀ p, Names (view m) p → linked m p = true)
    (n T : Did) (hn : n ∈ members) (hT : T ∈ members) (hne : n ≠ T) (fuel : ℕ) :
    let hops := route (fun _ => view) (fun _ => linked) T fuel 0 n .toward
    (∀ h ∈ hops, h.next.stage.handedOff = false ∧ 2 * dist h.next.peer T < dist h.origin T) ∧
      hops.length ≤ Nat.log2 (dist n T) + 1 ∧
      (Nat.log2 (dist n T) + 1 ≤ fuel → hops.getLast?.map (·.next.peer) = some T) := by
  intro hops
  obtain ⟨h1, h2, h3⟩ := @route_converged _ _ _ (fun _ => view) (fun _ => linked)
    (fun _ => hview) (fun _ m hm => ⟨hfix m hm, hfull m hm, hlinked m hm⟩) hT fuel 0 n hn hne
  exact ⟨fun h hh => (h1 h hh).2, h2, fun hfuel => h3 (by omega)⟩

/-- From `1` to `40` on a ring of four: at most six hops. -/
theorem delivery_logarithmic_four :
    let members : List Did := [1, 8, 20, 40]
    (route (fun _ => converged members 2 160) (fun _ _ _ => true) 40 6 0 1 .toward).length ≤ 6 := by
  intro members
  have h := (delivery_logarithmic members 2 (converged members 2 160) (fun _ _ => true)
    (fun _ => rfl) (fun _ _ => converged_fixpoint ..)
    (fun _ _ => by rw [converged, TopologyState.new, List.length_map, List.length_range])
    (fun _ _ _ _ => rfl) 1 40 (by decide) (by decide) (by decide) 6).2.1
  have hlog : Nat.log2 (dist (1 : Did) 40) + 1 = 6 := by decide
  rwa [hlog] at h

end Rings
