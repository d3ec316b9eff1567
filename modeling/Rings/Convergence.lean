import Rings.JoinLaws

/-!
Convergence of stored carriers.

Replicas that joined the same deltas hold equal entries when the join is idempotent,
commutative and associative. The first two always hold of stored entries. The third is decided
by the caps: it holds of three entries exactly when, whichever comes last, the join of the
other two loses none of the newest adds and forgets no remove that the last one needs.
-/

namespace Rings

namespace Entry

variable {codec : Codec} {a b c x y z : Entry}

/-- An entry as it is stored: the normalization leaves it as it is. -/
def Normalized (codec : Codec) (e : Entry) : Prop := e.tryIntoStorageEntry codec = .ok e

instance (codec : Codec) (e : Entry) : Decidable (e.Normalized codec) :=
  inferInstanceAs (Decidable (_ = _))

lemma Normalized.canonical (h : x.Normalized codec) : x.Canonical codec := by
  obtain ⟨b, -, hb⟩ := tryIntoStorageEntry_ok h
  rw [hb]
  exact canonical_materialize DataTopicBuffer.normalBuffer_new fun k r hr =>
    ((DataTopicBuffer.get?_new_removes k).1 hr).2

def join3 (codec : Codec) (a b c : Entry) : Except EntryError Entry := do
  (← a.join codec b).join codec c

def joinAll (codec : Codec) : List Entry → Except EntryError (Option Entry)
  | [] => .ok none
  | e :: deltas => some <$> deltas.foldlM (fun e delta => e.join codec delta) e

/-- Joining the three entries converges: the semilattice laws hold of them, and every order of
joining them gives the same entry. -/
structure Converges (codec : Codec) (x y z : Entry) : Prop where
  idempotent : x.join codec x = .ok x
  commutative : x.join codec y = y.join codec x
  associative : join3 codec x y z = (do x.join codec (← y.join codec z))
  anyOrder : ∀ deltas, deltas.Perm [x, y, z] → joinAll codec deltas = joinAll codec [x, y, z]

lemma joinAll_three : joinAll codec [a, b, c] = some <$> join3 codec a b c := by
  simp only [joinAll, join3, List.foldlM_cons, List.foldlM_nil, bind_pure]

lemma join_self (h : x.Canonical codec) : x.join codec x = .ok x := by
  obtain ⟨w, hw, hcan, hsame, hreg, hexp, hset⟩ := exists_join h h ⟨rfl, rfl⟩
  rw [hw]
  congr 1
  refine hcan.ext_toSet h ⟨hsame.kind.symm, hsame.did.symm⟩ (hreg.trans (omax_self _))
    (hexp.trans (omax_self _)) ?_ ?_
  · rw [hset, LwwSet.merge_adds, LwwSet.union_self, h.normal.adds]
    exact newest_eq_self (by exact_mod_cast (card_pairSet_le _).trans h.addsLen)
  · rw [hset, LwwSet.merge_removes, LwwSet.union_self, h.normal.removes]
    exact newest_eq_self
      ((by exact_mod_cast card_pairSet_le _ : _ ≤ (x.removals.length : ℕ∞)).trans h.removesLen)

lemma join_comm (hx : x.Canonical codec) (hy : y.Canonical codec) (h : SameCarrier x y) :
    x.join codec y = y.join codec x := by
  obtain ⟨w, hw, hcan, hsame, hreg, hexp, hset⟩ := exists_join hx hy h
  obtain ⟨w', hw', hcan', hsame', hreg', hexp', hset'⟩ :=
    exists_join hy hx ⟨h.kind.symm, h.did.symm⟩
  have hunion : w.toSet = w'.toSet := by
    rw [hset, hset', LwwSet.merge_comm, h.kind]
  rw [hw, hw']
  congr 1
  exact hcan.ext_toSet hcan'
    ⟨hsame.kind.symm.trans (h.kind.trans hsame'.kind),
      hsame.did.symm.trans (h.did.trans hsame'.did)⟩
    (by rw [hreg, hreg', omax_comm]) (by rw [hexp, hexp', omax_comm])
    (by rw [hunion]) (by rw [hunion])

lemma SameCarrier.symm (h : SameCarrier x y) : SameCarrier y x := ⟨h.kind.symm, h.did.symm⟩

lemma SameCarrier.trans (h : SameCarrier x y) (h' : SameCarrier y z) : SameCarrier x z :=
  ⟨h.kind.trans h'.kind, h.did.trans h'.did⟩

lemma exists_join3 (ha : a.Canonical codec) (hb : b.Canonical codec) (hc : c.Canonical codec)
    (hab : SameCarrier a b) (hac : SameCarrier a c) :
    ∃ w, join3 codec a b c = .ok w ∧ w.Canonical codec ∧ SameCarrier a w ∧
      w.crdt.register = max (max a.crdt.register b.crdt.register) c.crdt.register ∧
      w.expiresAtMs = max (max a.expiresAtMs b.expiresAtMs) c.expiresAtMs ∧
      w.toSet.removes = newest a.kind.tombstoneBound.kept
        (LwwSet.standing ((a.toSet.union b.toSet).union c.toSet)) ∧
      w.toSet.adds = (LwwSet.merge codec.digest a.kind.maxDataLen a.kind.tombstoneBound.kept
        (LwwSet.merge codec.digest a.kind.maxDataLen a.kind.tombstoneBound.kept
          a.toSet b.toSet) c.toSet).adds := by
  obtain ⟨v, hv, hvcan, hvsame, hvreg, hvexp, hvset⟩ := exists_join ha hb hab
  obtain ⟨w, hw, hwcan, hwsame, hwreg, hwexp, hwset⟩ :=
    exists_join hvcan hc (hvsame.symm.trans hac)
  rw [← hvsame.kind, hvset] at hwset
  refine ⟨w, ?_, hwcan, hvsame.trans hwsame, by rw [hwreg, hvreg], by rw [hwexp, hvexp], ?_,
    by rw [hwset]⟩
  · rw [join3, hv]
    exact hw
  · rw [hwset, LwwSet.merge_merge_removes]

/-- Two orders of joining three entries give one entry exactly when they show the same adds. -/
lemma join3_rotate_iff (hx : x.Canonical codec) (hy : y.Canonical codec) (hz : z.Canonical codec)
    (hxy : SameCarrier x y) (hxz : SameCarrier x z) :
    join3 codec x y z = join3 codec y z x ↔
      (LwwSet.merge codec.digest x.kind.maxDataLen x.kind.tombstoneBound.kept
        (LwwSet.merge codec.digest x.kind.maxDataLen x.kind.tombstoneBound.kept
          x.toSet y.toSet) z.toSet).adds =
      (LwwSet.merge codec.digest x.kind.maxDataLen x.kind.tombstoneBound.kept
        (LwwSet.merge codec.digest x.kind.maxDataLen x.kind.tombstoneBound.kept
          y.toSet z.toSet) x.toSet).adds := by
  obtain ⟨v, hv, hvcan, hvsame, hvreg, hvexp, hvrem, hvadd⟩ := exists_join3 hx hy hz hxy hxz
  obtain ⟨w, hw, hwcan, hwsame, hwreg, hwexp, hwrem, hwadd⟩ :=
    exists_join3 hy hz hx (hxy.symm.trans hxz) hxy.symm
  rw [← hxy.kind] at hwrem hwadd
  rw [hv, hw, ← hvadd, ← hwadd]
  constructor
  · intro h
    rw [Except.ok.inj h]
  · intro h
    refine congrArg _ (hvcan.ext_toSet hwcan (hvsame.symm.trans (hxy.trans hwsame)) ?_ ?_ h ?_)
    · rw [hvreg, hwreg, omax_assoc, omax_comm]
    · rw [hvexp, hwexp, omax_assoc, omax_comm]
    · rw [hvrem, hwrem, LwwSet.union_rotate]

lemma joinAll_perm (hx : x.Canonical codec) (hy : y.Canonical codec) (hz : z.Canonical codec)
    (hxy : SameCarrier x y) (hxz : SameCarrier x z) (h1 : join3 codec x y z = join3 codec y z x)
    (h2 : join3 codec y z x = join3 codec z x y) {deltas : List Entry}
    (h : deltas.Perm [x, y, z]) : joinAll codec deltas = joinAll codec [x, y, z] := by
  have hcomm : ∀ {a b c : Entry}, a.Canonical codec → b.Canonical codec → SameCarrier a b →
      joinAll codec [a, b, c] = joinAll codec [b, a, c] := fun ha hb hab => by
    rw [joinAll_three, joinAll_three, join3, join3, join_comm ha hb hab]
  have hyzx : joinAll codec [y, z, x] = joinAll codec [x, y, z] := by
    rw [joinAll_three, joinAll_three, h1]
  have hzxy : joinAll codec [z, x, y] = joinAll codec [x, y, z] := by
    rw [joinAll_three, joinAll_three, h1, h2]
  have hmem := List.mem_permutations'.2 h
  simp only [List.permutations', List.permutations'Aux, List.flatMap_cons, List.flatMap_nil,
    List.map_cons, List.map_nil, List.append_nil, List.cons_append, List.nil_append,
    List.mem_cons, List.not_mem_nil, or_false] at hmem
  rcases hmem with rfl | rfl | rfl | rfl | rfl | rfl
  · rfl
  · exact hcomm hy hx hxy.symm
  · exact hyzx
  · exact (hcomm hx hz hxz).trans hzxy
  · exact hzxy
  · exact (hcomm hz hy (hxz.symm.trans hxy)).trans hyzx

lemma settled_of_length_le (hx : x.Canonical codec) (hy : y.Canonical codec)
    (hz : z.Canonical codec) {n : ℕ} {m : ℕ∞}
    (hn : x.elements.length + y.elements.length + z.elements.length ≤ n)
    (hm : ((x.removals.length + y.removals.length + z.removals.length : ℕ) : ℕ∞) ≤ m) :
    LwwSet.Settled codec.digest n m x.toSet y.toSet z.toSet := by
  have hadds : ∀ a b : Entry, a.elements.length + b.elements.length ≤ n →
      ((a.toSet.union b.toSet).adds.card : ℕ∞) ≤ n := fun a b h => by
    refine Nat.cast_le.2 (((LwwSet.card_union_adds_le _ _).trans ?_).trans h)
    exact Nat.add_le_add (card_pairSet_le _) (card_pairSet_le _)
  have hremoves : ∀ a b : Entry, ((a.removals.length + b.removals.length : ℕ) : ℕ∞) ≤ m →
      ((a.toSet.union b.toSet).removes.card : ℕ∞) ≤ m := fun a b h => by
    refine le_trans (Nat.cast_le.2 ((LwwSet.card_union_removes_le _ _).trans ?_)) h
    exact Nat.add_le_add (card_pairSet_le _) (card_pairSet_le _)
  have hle : ∀ k : ℕ, k ≤ x.removals.length + y.removals.length + z.removals.length →
      (k : ℕ∞) ≤ m := fun k hk => (Nat.cast_le.2 hk).trans hm
  refine ⟨⟨LwwSet.noLoss_of_card_le (hadds x y (by omega)),
      LwwSet.noReturn_of_card_le hz.normal (hremoves x y (hle _ (by omega)))⟩,
    ⟨LwwSet.noLoss_of_card_le (hadds y z (by omega)),
      LwwSet.noReturn_of_card_le hx.normal (hremoves y z (hle _ (by omega)))⟩,
    ⟨LwwSet.noLoss_of_card_le (hadds z x (by omega)),
      LwwSet.noReturn_of_card_le hy.normal (hremoves z x (hle _ (by omega)))⟩⟩

lemma converges_iff_settled (hx : x.Canonical codec) (hy : y.Canonical codec)
    (hz : z.Canonical codec) (hxy : SameCarrier x y) (hxz : SameCarrier x z) :
    Converges codec x y z ↔ LwwSet.Settled codec.digest x.kind.maxDataLen
      x.kind.tombstoneBound.kept x.toSet y.toSet z.toSet := by
  have hyz := hxy.symm.trans hxz
  have h1 := join3_rotate_iff hx hy hz hxy hxz
  have h2 := join3_rotate_iff hy hz hx hyz hxy.symm
  rw [← hxy.kind] at h2
  rw [← LwwSet.orders_agree_iff hx.normal hy.normal hz.normal, ← h1, ← h2]
  constructor
  · intro h
    have hyzx := h.anyOrder [y, z, x] (@List.perm_append_comm _ [y, z] [x])
    have hzxy := h.anyOrder [z, x, y] (@List.perm_append_comm _ [z] [x, y])
    obtain ⟨v, hv, -⟩ := exists_join3 hx hy hz hxy hxz
    obtain ⟨w, hw, -⟩ := exists_join3 hy hz hx hyz hxy.symm
    obtain ⟨u, hu, -⟩ := exists_join3 hz hx hy hxz.symm hyz.symm
    rw [joinAll_three, joinAll_three, hv, hw] at hyzx
    rw [joinAll_three, joinAll_three, hv, hu] at hzxy
    obtain rfl : w = v := Option.some.inj (Except.ok.inj hyzx)
    obtain rfl : u = w := Option.some.inj (Except.ok.inj hzxy)
    rw [hv, hw, hu]
    exact ⟨rfl, rfl⟩
  · rintro ⟨h1, h2⟩
    refine ⟨join_self hx, join_comm hx hy hxy, ?_, fun _ h => joinAll_perm hx hy hz hxy hxz h1 h2 h⟩
    obtain ⟨v, hv, hvcan, hvsame, -⟩ := exists_join hy hz hyz
    rw [h1, join3, hv]
    exact join_comm hvcan hx (hvsame.symm.trans hxy.symm)

end Entry

open Entry in
/-- **Convergence.** Three stored entries of one carrier obey the semilattice laws, in every
order of joining, exactly when, whichever of them comes last, each of the newest adds of the
three is held by it or is among the newest of the other two, and each add of it that the three
remove is covered by one of the newest removes of the other two or lies past the cap anyway. -/
theorem join_converges_iff (codec : Codec) (x y z : Entry) (hx : x.Normalized codec)
    (hy : y.Normalized codec) (hz : z.Normalized codec) (hxy : SameCarrier x y)
    (hxz : SameCarrier x z) :
    Converges codec x y z ↔ LwwSet.Settled codec.digest x.kind.maxDataLen
      x.kind.tombstoneBound.kept x.toSet y.toSet z.toSet :=
  converges_iff_settled hx.canonical hy.canonical hz.canonical hxy hxz

def inboxEntry (elements : List (Bytes × EntryDot)) (removes : List EntryTombstone) : Entry :=
  ⟨1, elements.map Prod.fst, .relayMessage, ⟨none, elements.map Prod.snd, removes⟩, some 1⟩

/-- The element `[i]`, held at millisecond `1000 + i`. -/
def heldElement (i : ℕ) : Bytes × EntryDot := ([Fin.ofNat 256 i], ⟨⟨1000 + i, 0, 1, 1⟩, 0⟩)

/-- The remove of the element `[i]`. -/
def heldRemove (i : ℕ) : EntryTombstone := ⟨plainCodec.digest (heldElement i).1, (heldElement i).2⟩

open Entry in
/-- Two single elements and the remove of one of them converge. -/
theorem join_converges_small :
    Converges plainCodec (inboxEntry [heldElement 0] []) (inboxEntry [heldElement 1] [])
      (inboxEntry [] [heldRemove 0]) := by
  have hx : (inboxEntry [heldElement 0] []).Normalized plainCodec := by decide +kernel
  have hy : (inboxEntry [heldElement 1] []).Normalized plainCodec := by decide +kernel
  have hz : (inboxEntry [] [heldRemove 0]).Normalized plainCodec := by decide +kernel
  refine (join_converges_iff _ _ _ _ hx hy hz ⟨rfl, rfl⟩ ⟨rfl, rfl⟩).2 ?_
  refine settled_of_length_le hx.canonical hy.canonical hz.canonical (by decide) ?_
  change ((1 : ℕ) : ℕ∞) ≤ ((64 : ℕ) : ℕ∞)
  exact_mod_cast (by decide : 1 ≤ 64)

/-- A full inbox: the elements `[1]` to `[64]`. -/
def fullInbox : Entry := inboxEntry ((List.range 64).map fun i => heldElement (i + 1)) []

open Entry in
/-- A full inbox, one older element and the remove of the newest do not converge: joined in
order the older element is gone, and joined after the remove it is there. -/
theorem join_not_associative :
    ((inboxEntry [heldElement 0] []).Normalized plainCodec ∧ fullInbox.Normalized plainCodec ∧
      (inboxEntry [] [heldRemove 64]).Normalized plainCodec) ∧
    ¬ Converges plainCodec (inboxEntry [heldElement 0] []) fullInbox
      (inboxEntry [] [heldRemove 64]) :=
  ⟨by decide +kernel, fun h => absurd h.associative (by decide +kernel)⟩

end Rings
