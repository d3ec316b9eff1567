import Rings.Aez

/-!
Enciphering a long string is undone by deciphering it: the two passes are the same network run
from either end, and the middle step swaps what it mixes.
-/

namespace Rings.Aez

/-! ### Addition -/

lemma xor_xor_cancel {w : ℕ} (x k : BitVec w) : x ^^^ k ^^^ k = x := by
  rw [BitVec.xor_assoc, BitVec.xor_self, BitVec.xor_zero]

lemma xor_cancel_three {w : ℕ} (x a b c : BitVec w) :
    x ^^^ a ^^^ b ^^^ c ^^^ a ^^^ b ^^^ c = x := by
  have h : x ^^^ a ^^^ b ^^^ c ^^^ a ^^^ b ^^^ c = x ^^^ (a ^^^ a) ^^^ (b ^^^ b) ^^^ (c ^^^ c) := by
    ac_rfl
  rw [h, BitVec.xor_self, BitVec.xor_self, BitVec.xor_self, BitVec.xor_zero, BitVec.xor_zero,
    BitVec.xor_zero]

/-- A mask put on twice is gone. -/
lemma zipWith_cancel {α : Type*} {f : α → α → α} (hf : ∀ x k, f (f x k) k = x) {l k : List α}
    (h : l.length ≤ k.length) : List.zipWith f (List.zipWith f l k) k = l := by
  induction l generalizing k with
  | nil => simp
  | cons x l ih =>
    cases k with
    | nil => simp at h
    | cons y k =>
      rw [List.zipWith_cons_cons, List.zipWith_cons_cons, hf, ih (Nat.le_of_succ_le_succ h)]

@[simp] lemma length_toBytes (x : Block) : (toBytes x).length = 16 := blockCodec.length_write x

@[simp] lemma length_xorInto (x : Block) (target : Bytes) :
    (xorInto x target).length = target.length := by
  rw [xorInto, List.length_append, List.length_zipWith, length_toBytes, List.length_take,
    List.length_drop, blockBytes]
  omega

@[simp] lemma xorInto_xorInto (x : Block) (target : Bytes) :
    xorInto x (xorInto x target) = target := by
  have hlen : (List.zipWith (· ^^^ ·) (target.take 16) (toBytes x)).length = min 16 target.length := by
    rw [List.length_zipWith, length_toBytes, List.length_take]
    omega
  have hcancel := zipWith_cancel xor_xor_cancel (l := target.take 16) (k := toBytes x)
    (by rw [length_toBytes, List.length_take]; omega)
  rcases Nat.lt_or_ge target.length 16 with hshort | hlong
  · have hdrop : target.drop 16 = [] := List.drop_eq_nil_of_le (by omega)
    have htake : target.take 16 = target := List.take_of_length_le (by omega)
    rw [htake] at hcancel hlen
    simp only [xorInto, blockBytes, hdrop, htake, List.append_nil]
    rw [List.take_of_length_le (by omega), List.drop_eq_nil_of_le (by omega), hcancel,
      List.append_nil]
  · have hlen' : (List.zipWith (· ^^^ ·) (target.take 16) (toBytes x)).length = 16 := by omega
    simp only [xorInto, blockBytes]
    rw [List.take_left' hlen', List.drop_left' hlen', hcancel, List.take_append_drop]

/-! ### The offsets -/

lemma offsetState_eq (sk : Subkeys) {k : ℕ} (hk : k + 1 < 2 ^ 64) :
    offsetState sk k = (k + 1, timesPowerOfTwo sk.i ((k + 1 + 7) / 8)) := by
  induction k with
  | zero => rfl
  | succ k ih =>
    rw [offsetState, ih (by omega), Nat.mod_eq_of_lt hk]
    congr 1
    split
    · have h : (k + 1 + 1 + 7) / 8 = (k + 1 + 7) / 8 + 1 := by omega
      rw [h, timesPowerOfTwo, timesPowerOfTwo, Function.iterate_succ_apply']
    · have h : (k + 1 + 1 + 7) / 8 = (k + 1 + 7) / 8 := by omega
      rw [h]

/-- The stream that doubles once in eight steps gives the offset of every column. -/
theorem offsets_eq_offset (sk : Subkeys) (row : ℕ) {k : ℕ} (hk : k + 1 < 2 ^ 64) :
    offsets sk row k = offset sk row (k + 1) := by
  rw [offsets, offsetState_eq sk hk, offset]

def smallSubkeys : Subkeys := ⟨1, 2, 4, by decide, by decide, by decide⟩

theorem offsets_eq_offset_nine :
    offsets smallSubkeys 3 8 = offset smallSubkeys 3 9 ∧
      offset smallSubkeys 3 9 ≠ offset smallSubkeys 3 8 :=
  ⟨offsets_eq_offset smallSubkeys 3 (by omega), by decide +kernel⟩

/-! ### Layouts -/

lemma length_pairs (pairs : List (Block × Block)) :
    (pairs.flatMap pairCodec.write).length = pairs.length * 32 :=
  FixedCodec.length_flatMap_write pairs

lemma Layout.length_bytes (l : Layout) :
    l.bytes.length = l.pairs.length * 32 + l.residue.length + 32 := by
  rw [bytes, List.length_append, List.length_append, length_pairs, pairCodec.length_write]

lemma Layout.split_bytes {l : Layout} (h : l.residue.length < 32) : split l.bytes = some l := by
  have hlen := l.length_bytes
  have hfront : (l.pairs.flatMap pairCodec.write ++ l.residue).length = l.bytes.length - 32 := by
    rw [List.length_append, length_pairs]
    omega
  have hcount : (l.bytes.length - 32) / 32 = l.pairs.length := by omega
  have htake : l.bytes.take (l.bytes.length - 32) = l.pairs.flatMap pairCodec.write ++ l.residue :=
    List.take_left' hfront
  have hdrop : l.bytes.drop (l.bytes.length - 32) = pairCodec.write (l.x, l.y) :=
    List.drop_left' hfront
  rw [split, if_neg (by omega)]
  simp only [htake, hdrop, hfront, hcount]
  rw [pairCodec.readMany_write, Option.bind_some, FixedCodec.readAll_write, Option.map_some]

lemma Layout.exists_split {message : Bytes} (h : 32 ≤ message.length) :
    ∃ l : Layout, l.residue.length < 32 ∧ l.bytes = message := by
  obtain ⟨⟨x, y⟩, hlast⟩ := pairCodec.exists_of_length
    (w := message.drop (message.length - 32)) (by rw [List.length_drop]; omega)
  have hrest : (message.take (message.length - 32)).length = message.length - 32 := by
    rw [List.length_take]
    omega
  obtain ⟨⟨pairs, residue⟩, hread⟩ := Option.isSome_iff_exists.1 (FixedCodec.readMany_isSome
    (c := pairCodec) (k := (message.length - 32) / 32) (w := message.take (message.length - 32))
    (by rw [hrest]; exact Nat.div_mul_le_self _ _))
  obtain ⟨happend, hcount⟩ := FixedCodec.write_of_readMany hread
  have hlen := congrArg List.length happend
  rw [hrest, List.length_append, length_pairs, hcount] at hlen
  refine ⟨⟨pairs, residue, x, y⟩, ?_, ?_⟩
  · change residue.length < 32
    omega
  · rw [bytes, hlast, ← happend, List.take_append_drop]

/-! ### The passes -/

section

variable (aesRound : Block → Block → Block) (sk : Subkeys) (s delta : Block)

@[simp] lemma length_residueMask (residue : Bytes) :
    (residueMask aesRound sk s residue).length = residue.length := by
  rw [residueMask]
  split
  · next h => rw [h]
  · split
    · rw [length_xorInto]
    · rw [List.length_append, length_xorInto, length_xorInto, ← List.length_append,
        List.take_append_drop]

lemma residueMask_residueMask (residue : Bytes) :
    residueMask aesRound sk s (residueMask aesRound sk s residue) = residue := by
  have hlen := length_residueMask aesRound sk s residue
  rw [residueMask]
  split
  · next h =>
    rw [h] at hlen
    exact (List.eq_nil_of_length_eq_zero hlen.symm).symm
  · next hne =>
    rw [hlen]
    have hres : residue ≠ [] := by
      rintro rfl
      exact hne rfl
    split
    · next hshort => rw [residueMask, if_neg hres, if_pos hshort, xorInto_xorInto]
    · next hlong =>
      have htake : (xorInto (eAes10 aesRound sk residueUColumn s)
          (residue.take blockBytes)).length = blockBytes := by
        rw [length_xorInto, List.length_take]
        omega
      rw [residueMask, if_neg hres, if_neg hlong, List.take_left' htake, List.drop_left' htake,
        xorInto_xorInto, xorInto_xorInto, List.take_append_drop]

lemma zipIdx_map_zipIdx {α β : Type*} (f : α × ℕ → β) (l : List α) (n : ℕ) :
    ((l.zipIdx n).map f).zipIdx n = (l.zipIdx n).map fun p => (f p, p.2) := by
  induction l generalizing n with
  | nil => rfl
  | cons a l ih => rw [List.zipIdx_cons, List.map_cons, List.zipIdx_cons, ih, List.map_cons]

lemma map_fst_zipIdx {α : Type*} (l : List α) (n : ℕ) : (l.zipIdx n).map Prod.fst = l := by
  induction l generalizing n with
  | nil => rfl
  | cons a l ih => rw [List.zipIdx_cons, List.map_cons, ih]

/-- The pairs between the passes, swapped and masked by the spread of `s`. -/
def swapped (pairs : List (Block × Block)) : List (Block × Block) :=
  pairs.zipIdx.map fun p => (p.1.2 ^^^ aes4At aesRound sk (offsets sk spreadRow p.2) s,
    p.1.1 ^^^ aes4At aesRound sk (offsets sk spreadRow p.2) s)

/-- The first pass undoes the end of the second. -/
lemma firstPass_secondPass (pairs : List (Block × Block)) :
    firstPass aesRound sk (secondPass aesRound sk s pairs).1 =
      (swapped aesRound sk s pairs, (secondPass aesRound sk s pairs).2) := by
  have hpairs : (firstPass aesRound sk (secondPass aesRound sk s pairs).1).1 =
      swapped aesRound sk s pairs := by
    simp only [firstPass, secondPass, zipIdx_map_zipIdx, List.map_map, Function.comp_def,
      xor_xor_cancel, swapped]
  have hsum : (firstPass aesRound sk (secondPass aesRound sk s pairs).1).2 =
      xorSum ((firstPass aesRound sk (secondPass aesRound sk s pairs).1).1.map Prod.snd) := rfl
  rw [← Prod.mk.eta (p := firstPass aesRound sk (secondPass aesRound sk s pairs).1), hsum, hpairs,
    swapped, List.map_map]
  rfl

/-- The second pass over the swapped pairs undoes the first. -/
lemma secondPass_swapped (pairs : List (Block × Block)) :
    secondPass aesRound sk s (swapped aesRound sk s (firstPass aesRound sk pairs).1) =
      (pairs, (firstPass aesRound sk pairs).2) := by
  simp only [secondPass, swapped, firstPass, zipIdx_map_zipIdx, List.map_map, Function.comp_def,
    xor_xor_cancel, Prod.mk.eta, map_fst_zipIdx]

def Direction.flip : Direction → Direction
  | .encipher => .decipher
  | .decipher => .encipher

@[simp] lemma Direction.innerColumn_flip (d : Direction) : d.flip.innerColumn = d.outerColumn := by
  cases d <;> rfl

@[simp] lemma Direction.outerColumn_flip (d : Direction) : d.flip.outerColumn = d.innerColumn := by
  cases d <;> rfl

lemma Layout.length_residue_pass (d : Direction) (l : Layout) :
    (l.pass aesRound sk delta d).residue.length = l.residue.length :=
  length_residueMask aesRound sk _ _

lemma Layout.length_pairs_pass (d : Direction) (l : Layout) :
    (l.pass aesRound sk delta d).pairs.length = l.pairs.length := by
  simp [Layout.pass, secondPass, firstPass]

/-- The network run the other way gives the layout back. -/
lemma Layout.pass_flip (d : Direction) (l : Layout) :
    (l.pass aesRound sk delta d).pass aesRound sk delta d.flip = l := by
  obtain ⟨pairs, residue, x, y⟩ := l
  simp only [Layout.pass, Direction.innerColumn_flip, Direction.outerColumn_flip]
  generalize hsx : x ^^^ delta ^^^ ((firstPass aesRound sk pairs).2 ^^^
    residueDigest aesRound sk residue) ^^^ e aesRound sk 0 d.innerColumn y = sx
  generalize hsy : y ^^^ eAes10 aesRound sk d.innerColumn sx = sy
  rw [firstPass_secondPass]
  simp only [xor_cancel_three, xor_xor_cancel, BitVec.xor_comm sy sx, residueMask_residueMask,
    secondPass_swapped]
  have hy : sy ^^^ eAes10 aesRound sk d.innerColumn sx = y := by rw [← hsy, xor_xor_cancel]
  have hx : sx ^^^ delta ^^^ ((firstPass aesRound sk pairs).2 ^^^ residueDigest aesRound sk residue) ^^^
      e aesRound sk 0 d.innerColumn y = x := by rw [← hsx, xor_cancel_three]
  rw [hy, hx]

@[simp] lemma length_coreApply (d : Direction) (w : Bytes) :
    (coreApply aesRound sk delta d w).length = w.length := by
  rcases Nat.lt_or_ge w.length 32 with h | h
  · rw [coreApply, Layout.split, if_pos h]
  · obtain ⟨l, hl, rfl⟩ := Layout.exists_split h
    simp only [coreApply, Layout.split_bytes hl, Layout.length_bytes, Layout.length_residue_pass,
      Layout.length_pairs_pass]

/-- Deciphering undoes enciphering, and enciphering undoes deciphering. -/
lemma coreApply_flip (d : Direction) {w : Bytes} (h : 32 ≤ w.length) :
    coreApply aesRound sk delta d.flip (coreApply aesRound sk delta d w) = w := by
  obtain ⟨l, hl, rfl⟩ := Layout.exists_split h
  have hpass : (l.pass aesRound sk delta d).residue.length < 32 := by
    rwa [Layout.length_residue_pass]
  simp only [coreApply, Layout.split_bytes hl, Layout.split_bytes hpass, Layout.pass_flip]

end

end Rings.Aez
