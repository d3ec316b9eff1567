import Rings.AezCore

/-!
The keyed cipher: a permutation of the strings of every length, and authenticated encryption that
accepts exactly what it produces.
-/

namespace Rings.Aez

/-! ### Digits -/

lemma toDigits_add (w n k x : ℕ) :
    toDigits w (n + k) x = toDigits w n (x / 2 ^ (w * k)) ++ toDigits w k x := by
  induction k generalizing x with
  | zero => simp [toDigits]
  | succ k ih =>
    rw [← Nat.add_assoc, toDigits, ih, toDigits, List.append_assoc, Nat.div_div_eq_div_mul,
      ← Nat.pow_add, Nat.mul_succ, Nat.add_comm w]

lemma toDigits_mul_pow (w k x : ℕ) : toDigits w k (x * 2 ^ (w * k)) = List.replicate k 0 := by
  induction k with
  | zero => rfl
  | succ k ih =>
    have hpow : x * 2 ^ (w * (k + 1)) = x * 2 ^ (w * k) * 2 ^ w := by
      rw [Nat.mul_succ, Nat.pow_add, Nat.mul_assoc]
    rw [toDigits, hpow, Nat.mul_div_cancel _ (Nat.two_pow_pos w), ih, List.replicate_succ']
    congr 2
    apply BitVec.eq_of_toNat_eq
    simp

lemma zipWith_xor_zero {w : ℕ} {l : List (BitVec w)} {n : ℕ} (h : l.length ≤ n) :
    List.zipWith (· ^^^ ·) l (List.replicate n 0) = l := by
  induction l generalizing n with
  | nil => simp
  | cons x l ih =>
    obtain ⟨n, rfl⟩ : ∃ m, n = m + 1 := ⟨n - 1, by rw [List.length_cons] at h; omega⟩
    rw [List.replicate_succ, List.zipWith_cons_cons, ih (Nat.le_of_succ_le_succ h)]
    congr 1
    exact BitVec.xor_zero

lemma toBytes_ofDigits {l : Bytes} (h : l.length = 16) :
    toBytes (BitVec.ofNat 128 (ofDigits l)) = l := by
  change toDigits 8 16 (BitVec.ofNat 128 (ofDigits l)).toNat = l
  have hl := toDigits_ofDigits l
  rw [h] at hl
  rw [BitVec.toNat_ofNat, ← ofDigits_toDigits (w := 8) (n := 16), hl, hl]

lemma toBytes_xor (x y : Block) :
    toBytes (x ^^^ y) = List.zipWith (· ^^^ ·) (toBytes x) (toBytes y) := by
  change toDigits 8 16 (x ^^^ y).toNat = _
  rw [BitVec.toNat_xor, toDigits_xor]
  rfl

/-! ### Nibbles -/

@[simp] lemma length_nibbles (text : Bytes) : (nibbles text).length = text.length * 2 :=
  FixedCodec.length_flatMap_write text

@[simp] lemma ofNibbles_nibbles (text : Bytes) : ofNibbles (nibbles text) = text := by
  have h := nibbleCodec.readMany_write text []
  rw [List.append_nil] at h
  rw [ofNibbles, length_nibbles, Nat.mul_div_cancel _ Nat.two_pos, nibbles, h]
  rfl

lemma nibbles_ofNibbles {l : List (BitVec 4)} (h : l.length % 2 = 0) : nibbles (ofNibbles l) = l := by
  obtain ⟨⟨bytes, rest⟩, hread⟩ := Option.isSome_iff_exists.1 (FixedCodec.readMany_isSome
    (c := nibbleCodec) (k := l.length / 2) (w := l) (Nat.div_mul_le_self _ _))
  obtain ⟨happend, hcount⟩ := FixedCodec.write_of_readMany hread
  have hlen := congrArg List.length happend
  rw [List.length_append, FixedCodec.length_flatMap_write, hcount] at hlen
  have hrest : rest = [] := List.eq_nil_of_length_eq_zero (by omega)
  rw [ofNibbles, hread]
  conv_rhs => rw [happend, hrest, List.append_nil]
  rfl

@[simp] lemma length_blockNibbles (x : Block) : (blockNibbles x).length = 32 := length_toDigits _

lemma ofDigits_blockNibbles (x : Block) : BitVec.ofNat 128 (ofDigits (blockNibbles x)) = x := by
  apply BitVec.eq_of_toNat_eq
  rw [blockNibbles, ofDigits_toDigits, BitVec.toNat_ofNat, Nat.mod_mod, Nat.mod_eq_of_lt x.isLt]

/-- The block holds `h` nibbles, and zeros after them. -/
def Half (h : ℕ) (x : Block) : Prop := (blockNibbles x).drop h = List.replicate (32 - h) 0

variable {h : ℕ}

lemma half_xor {x y : Block} (hx : Half h x) (hy : Half h y) : Half h (x ^^^ y) := by
  rw [Half, blockNibbles, BitVec.toNat_xor, toDigits_xor, List.drop_zipWith]
  change List.zipWith _ ((blockNibbles x).drop h) ((blockNibbles y).drop h) = _
  rw [hx, hy, zipWith_xor_zero (by simp)]

lemma half_truncate (x : Block) (hpos : 0 < h) (hle : h ≤ 32) : Half h (truncate x (h * 4)) := by
  have hz : blockBits - h * 4 = 4 * (32 - h) := by
    rw [blockBits]
    omega
  have hshift : truncate x (h * 4) = x >>> (4 * (32 - h)) <<< (4 * (32 - h)) := by
    rw [truncate, leadingOnes, hz, if_pos (by rw [blockBits]; omega)]
    apply BitVec.eq_of_getLsbD_eq
    intro i hi
    rw [BitVec.getLsbD_and, BitVec.getLsbD_shiftLeft, BitVec.getLsbD_shiftLeft,
      BitVec.getLsbD_ushiftRight, BitVec.getLsbD_allOnes]
    rcases Nat.lt_or_ge i (4 * (32 - h)) with hlt | hge
    · simp [hlt]
    · have hin : i - 4 * (32 - h) < 128 := by omega
      simp [hi, hin, Nat.not_lt.2 hge, Nat.add_sub_cancel' hge]
  have hnat : (truncate x (h * 4)).toNat =
      x.toNat / 2 ^ (4 * (32 - h)) * 2 ^ (4 * (32 - h)) := by
    rw [hshift, BitVec.toNat_shiftLeft, BitVec.toNat_ushiftRight, Nat.shiftLeft_eq,
      Nat.shiftRight_eq_div_pow, Nat.mod_eq_of_lt]
    exact (Nat.div_mul_le_self _ _).trans_lt x.isLt
  have hadd : ∀ y, toDigits 4 32 y =
      toDigits 4 h (y / 2 ^ (4 * (32 - h))) ++ toDigits 4 (32 - h) y := by
    intro y
    rw [← toDigits_add, Nat.add_sub_cancel' hle]
  rw [Half, blockNibbles, hnat, hadd, List.drop_left' (length_toDigits _), toDigits_mul_pow]

lemma blockNibbles_takeNibbles {source : Bytes} {start : ℕ} (hle : h ≤ 32)
    (hin : start + h ≤ source.length * 2) :
    blockNibbles (takeNibbles source start h) =
      ((nibbles source).drop start).take h ++ List.replicate (32 - h) 0 := by
  have hlen : (((nibbles source).drop start).take h).length = h := by
    rw [List.length_take, List.length_drop, length_nibbles]
    omega
  have hall : (((nibbles source).drop start).take h ++
      List.replicate (32 - h) (0 : BitVec 4)).length = 32 := by
    rw [List.length_append, hlen, List.length_replicate]
    omega
  have hdigits := toDigits_ofDigits (((nibbles source).drop start).take h ++
    List.replicate (32 - h) (0 : BitVec 4))
  rw [hall] at hdigits
  rw [takeNibbles, blockNibbles, hlen, BitVec.toNat_ofNat,
    ← ofDigits_toDigits (w := 4) (n := 32), hdigits, hdigits]

lemma half_takeNibbles {source : Bytes} {start : ℕ} (hle : h ≤ 32)
    (hin : start + h ≤ source.length * 2) : Half h (takeNibbles source start h) := by
  rw [Half, blockNibbles_takeNibbles hle hin, List.drop_left']
  rw [List.length_take, List.length_drop, length_nibbles]
  omega

lemma takeNibbles_eq {source : Bytes} {start : ℕ} {x : Block} (hle : h ≤ 32) (hx : Half h x)
    (heq : ((nibbles source).drop start).take h = (blockNibbles x).take h) :
    takeNibbles source start h = x := by
  have hlen : ((blockNibbles x).take h).length = h := by simp [hle]
  rw [takeNibbles, heq, hlen, ← hx, List.take_append_drop, ofDigits_blockNibbles]

/-! ### The short scheme -/

section

variable (aesRound : Block → Block → Block) (sk : Subkeys) (delta : Block)

/-- The rounds of a network over its halves. -/
def rounds {w : ℕ} (f : BitVec w → ℕ → BitVec w) (indices : List ℕ) (p : BitVec w × BitVec w) :
    BitVec w × BitVec w := indices.foldl (fun h i => (h.2, h.1 ^^^ f h.2 i)) p

/-- A network run with its rounds reversed undoes itself, up to the swap of the halves. -/
lemma rounds_reverse {w : ℕ} (f : BitVec w → ℕ → BitVec w) (indices : List ℕ)
    (p : BitVec w × BitVec w) : rounds f indices.reverse (rounds f indices p).swap = p.swap := by
  induction indices generalizing p with
  | nil => rfl
  | cons i indices ih =>
    rw [rounds, rounds, List.foldl_cons, List.reverse_cons, List.foldl_append]
    change List.foldl _ (rounds f indices.reverse (rounds f indices _).swap) [i] = _
    rw [ih, List.foldl_cons, List.foldl_nil]
    exact Prod.ext rfl (xor_xor_cancel _ _)

lemma half_rounds {f : Block → ℕ → Block} (hf : ∀ x i, Half h (f x i)) (indices : List ℕ)
    {p : Block × Block} (hp : Half h p.1 ∧ Half h p.2) :
    Half h (rounds f indices p).1 ∧ Half h (rounds f indices p).2 := by
  induction indices generalizing p with
  | nil => exact hp
  | cons i indices ih => exact ih ⟨hp.2, half_xor hp.1 (hf _ _)⟩

/-- The string written back is the right half, then the left. -/
lemma nibbles_put (text : Bytes) (p : Block × Block) (hle : text.length ≤ 32) :
    nibbles (putNibbles (putNibbles text 0 text.length p.2) text.length text.length p.1) =
      (blockNibbles p.2).take text.length ++ (blockNibbles p.1).take text.length := by
  have htake : ∀ x : Block, ((blockNibbles x).take text.length).length = text.length := by
    simp [hle]
  have hinner : nibbles (putNibbles text 0 text.length p.2) =
      (blockNibbles p.2).take text.length ++ (nibbles text).drop text.length := by
    rw [putNibbles, List.take_zero, List.nil_append, Nat.zero_add, nibbles_ofNibbles]
    rw [List.length_append, htake, List.length_drop, length_nibbles]
    omega
  have hdrop :
      (nibbles (putNibbles text 0 text.length p.2)).drop (text.length + text.length) = [] := by
    rw [hinner, List.drop_eq_nil_iff, List.length_append, htake, List.length_drop, length_nibbles]
    omega
  rw [putNibbles, hdrop, hinner, List.take_left' (htake _), List.append_nil, nibbles_ofNibbles]
  rw [List.length_append, htake, htake]
  omega

lemma length_of_nibbles {a b : Bytes} (hn : (nibbles a).length = b.length * 2) :
    a.length = b.length := by
  rw [length_nibbles] at hn
  omega

lemma length_feistelRun {text : Bytes} (hle : text.length ≤ 32) (column : ℕ) (indices : List ℕ) :
    (feistelRun aesRound sk delta column text indices).length = text.length := by
  apply length_of_nibbles
  rw [feistelRun, nibbles_put _ _ hle, List.length_append, List.length_take, List.length_take,
    length_blockNibbles, length_blockNibbles]
  omega

def halves (text : Bytes) : Block × Block :=
  (takeNibbles text 0 text.length, takeNibbles text text.length text.length)

lemma half_halves {text : Bytes} (hle : text.length ≤ 32) :
    Half text.length (halves text).1 ∧ Half text.length (halves text).2 :=
  ⟨half_takeNibbles hle (by omega), half_takeNibbles hle (by omega)⟩

lemma nibbles_halves {text : Bytes} (hle : text.length ≤ 32) :
    (blockNibbles (halves text).1).take text.length ++
      (blockNibbles (halves text).2).take text.length = nibbles text := by
  have hl : ((nibbles text).take text.length).length = text.length := by
    rw [List.length_take, length_nibbles]
    omega
  have hrest : ((nibbles text).drop text.length).take text.length = (nibbles text).drop text.length :=
    List.take_of_length_le (by rw [List.length_drop, length_nibbles]; omega)
  have hr : ((nibbles text).drop text.length).length = text.length := by
    rw [List.length_drop, length_nibbles]
    omega
  rw [halves, blockNibbles_takeNibbles hle (by omega), blockNibbles_takeNibbles hle (by omega),
    List.drop_zero, List.take_left' hl, hrest, List.take_left' hr, List.take_append_drop]

/-- A string whose nibbles are two halves has these halves. -/
lemma halves_eq {out : Bytes} {p : Block × Block} (hle : out.length ≤ 32)
    (hp : Half out.length p.1 ∧ Half out.length p.2)
    (hnib : nibbles out = (blockNibbles p.1).take out.length ++ (blockNibbles p.2).take out.length) :
    halves out = p := by
  have htake : ∀ x : Block, ((blockNibbles x).take out.length).length = out.length := by simp [hle]
  have hfst : takeNibbles out 0 out.length = p.1 :=
    takeNibbles_eq hle hp.1 (by rw [hnib, List.drop_zero, List.take_left' (htake _)])
  have hsnd : takeNibbles out out.length out.length = p.2 :=
    takeNibbles_eq hle hp.2 (by
      rw [hnib, List.drop_left' (htake _), List.take_take, Nat.min_self])
  rw [halves, hfst, hsnd]

lemma nibbles_feistelRun {text : Bytes} (hle : text.length ≤ 32) (column : ℕ) (indices : List ℕ) :
    nibbles (feistelRun aesRound sk delta column text indices) =
      (blockNibbles (rounds (roundFunction aesRound sk delta text.length column) indices
        (halves text)).swap.1).take text.length ++
      (blockNibbles (rounds (roundFunction aesRound sk delta text.length column) indices
        (halves text)).swap.2).take text.length :=
  nibbles_put text _ hle

lemma feistelRun_reverse {text : Bytes} (hpos : 0 < text.length) (hle : text.length ≤ 32)
    (column : ℕ) (indices : List ℕ) :
    feistelRun aesRound sk delta column (feistelRun aesRound sk delta column text indices)
      indices.reverse = text := by
  have hlen := length_feistelRun aesRound sk delta hle column indices
  have hnib := nibbles_feistelRun aesRound sk delta hle column indices
  have hhalf := half_rounds (f := roundFunction aesRound sk delta text.length column)
    (fun x i => half_truncate _ hpos hle) indices (half_halves hle)
  have hback := rounds_reverse (roundFunction aesRound sk delta text.length column) indices
    (halves text)
  generalize feistelRun aesRound sk delta column text indices = out at hlen hnib ⊢
  have hout : halves out = (rounds (roundFunction aesRound sk delta text.length column) indices
      (halves text)).swap :=
    halves_eq (by omega) (by rw [hlen]; exact hhalf.symm) (by rw [hlen, hnib])
  have hresult :
      nibbles (feistelRun aesRound sk delta column out indices.reverse) = nibbles text := by
    rw [nibbles_feistelRun aesRound sk delta (by omega), hlen, hout, hback, Prod.swap_swap,
      nibbles_halves hle]
  rw [← ofNibbles_nibbles (feistelRun _ _ _ _ _ _), hresult, ofNibbles_nibbles]

@[simp] lemma length_correctFirstBit (text : Bytes) :
    (correctFirstBit aesRound sk delta text).length = text.length := length_xorInto _ _

lemma fromPrefix_xorInto_topBit {text : Bytes} (hpos : text ≠ []) (hle : text.length ≤ 16) :
    fromPrefix (xorInto topBit text) = fromPrefix text ^^^ topBit := by
  obtain ⟨c, rest, rfl⟩ := List.exists_cons_of_ne_nil hpos
  have htop : toBytes topBit = 0x80 :: List.replicate 15 0 := by decide
  have hrest : rest.length ≤ 15 := by
    rw [List.length_cons] at hle
    omega
  have hxor : xorInto topBit (c :: rest) = (c ^^^ 0x80) :: rest := by
    rw [xorInto, htop, blockBytes, List.take_of_length_le hle, List.drop_eq_nil_of_le hle,
      List.zipWith_cons_cons, zipWith_xor_zero hrest, List.append_nil]
  have hbytes : ∀ d : BitVec 8, toBytes (fromPrefix (d :: rest)) =
      d :: (rest ++ List.replicate (15 - rest.length) 0) := by
    intro d
    rw [fromPrefix, List.take_of_length_le (Nat.succ_le_succ hrest), toBytes_ofDigits]
    · simp [blockBytes]
    · simp only [List.length_append, List.length_cons, List.length_replicate, blockBytes]
      omega
  apply blockCodec.write_injective
  change toBytes _ = toBytes _
  rw [hxor, hbytes, toBytes_xor, hbytes, htop, List.zipWith_cons_cons, zipWith_xor_zero]
  rw [List.length_append, List.length_replicate]
  omega

/-- The mark of the first bit hides whatever the correction changed. -/
lemma correctFirstBit_correctFirstBit {text : Bytes} (hpos : text ≠ []) (hle : text.length ≤ 16) :
    correctFirstBit aesRound sk delta (correctFirstBit aesRound sk delta text) = text := by
  have hmask : ∀ v : Block, v &&& topBit = 0 ∨ v &&& topBit = topBit := by
    intro v
    have htwo : topBit = BitVec.twoPow 128 127 := by decide
    rw [htwo, BitVec.and_twoPow]
    split
    · exact Or.inr rfl
    · exact Or.inl rfl
  have hmarked : ∀ v : Block, fromPrefix (xorInto (v &&& topBit) text) ||| topBit =
      fromPrefix text ||| topBit := by
    intro v
    rcases hmask v with hv | hv
    · have hzero : toBytes 0 = List.replicate 16 0 := by decide
      rw [hv, xorInto, hzero, blockBytes, List.take_of_length_le hle, List.drop_eq_nil_of_le hle,
        zipWith_xor_zero hle, List.append_nil]
    · rw [hv, fromPrefix_xorInto_topBit hpos hle]
      ext i hi
      simp only [BitVec.getElem_or, BitVec.getElem_xor]
      cases (fromPrefix text)[i] <;> cases topBit[i] <;> rfl
  conv_lhs => rw [correctFirstBit]
  rw [correctFirstBit, hmarked, xorInto_xorInto]

lemma tinyApply_encipher {text : Bytes} {n : ℕ} (hn : text.length = n) :
    tinyApply aesRound sk delta .encipher text =
      if n < blockBytes then correctFirstBit aesRound sk delta
        (feistelRun aesRound sk delta subBlockColumn text (List.range (roundCount n)))
      else feistelRun aesRound sk delta blockColumn text (List.range (roundCount n)) := by
  subst hn
  simp only [tinyApply]
  split <;> rfl

lemma tinyApply_decipher {text : Bytes} {n : ℕ} (hn : text.length = n) :
    tinyApply aesRound sk delta .decipher text =
      if n < blockBytes then feistelRun aesRound sk delta subBlockColumn
        (correctFirstBit aesRound sk delta text) (List.range (roundCount n)).reverse
      else feistelRun aesRound sk delta blockColumn text (List.range (roundCount n)).reverse := by
  subst hn
  simp only [tinyApply]
  split <;> rfl

lemma length_tinyApply (d : Direction) {text : Bytes} (hle : text.length ≤ 32) :
    (tinyApply aesRound sk delta d text).length = text.length := by
  have hcorrect := length_correctFirstBit aesRound sk delta text
  cases d with
  | encipher =>
    rw [tinyApply_encipher _ _ _ rfl]
    split
    · rw [length_correctFirstBit, length_feistelRun _ _ _ hle]
    · rw [length_feistelRun _ _ _ hle]
  | decipher =>
    rw [tinyApply_decipher _ _ _ rfl]
    split
    · rw [length_feistelRun _ _ _ (by omega), hcorrect]
    · rw [length_feistelRun _ _ _ hle]

lemma tinyApply_flip (d : Direction) {text : Bytes} (hpos : 0 < text.length)
    (hle : text.length ≤ 32) :
    tinyApply aesRound sk delta d.flip (tinyApply aesRound sk delta d text) = text := by
  have hlen := length_tinyApply aesRound sk delta d hle
  have hne : ∀ {t : Bytes}, t.length = text.length → t ≠ [] := by
    rintro t ht rfl
    rw [List.length_nil] at ht
    omega
  have hback := fun column indices =>
    feistelRun_reverse aesRound sk delta hpos hle column (List.reverse indices)
  simp only [List.reverse_reverse] at hback
  cases d with
  | encipher =>
    rw [Direction.flip, tinyApply_decipher _ _ _ hlen, tinyApply_encipher _ _ _ rfl]
    split
    · next hshort =>
      have hout := length_feistelRun aesRound sk delta hle subBlockColumn
        (List.range (roundCount text.length))
      rw [correctFirstBit_correctFirstBit _ _ _ (hne hout) (by rw [hout]; exact hshort.le),
        feistelRun_reverse _ _ _ hpos hle]
    · rw [feistelRun_reverse _ _ _ hpos hle]
  | decipher =>
    rw [Direction.flip, tinyApply_encipher _ _ _ hlen, tinyApply_decipher _ _ _ rfl]
    split
    · next hshort =>
      have hcorrect := length_correctFirstBit aesRound sk delta text
      have hundo := feistelRun_reverse aesRound sk delta (hpos.trans_eq hcorrect.symm)
        (hcorrect.le.trans hle) subBlockColumn (List.range (roundCount text.length)).reverse
      rw [List.reverse_reverse] at hundo
      rw [hundo, correctFirstBit_correctFirstBit _ _ _ (hne rfl) hshort.le]
    · rw [hback]

/-! ### The keyed cipher -/

lemma xorPrf_length_and_twice (buffer : Bytes) :
    (xorPrf aesRound sk delta buffer).length = buffer.length ∧
      xorPrf aesRound sk delta (xorPrf aesRound sk delta buffer) = buffer := by
  have hstream : ∀ k, ((List.range k).flatMap fun counter => toBytes (eAes10 aesRound sk prfColumn
      (delta ^^^ BitVec.ofNat 128 counter))).length = k * 16 := by
    intro k
    induction k with
    | zero => rfl
    | succ k ih => simp [List.range_succ, ih, Nat.succ_mul]
  have hlen : (xorPrf aesRound sk delta buffer).length = buffer.length := by
    rw [xorPrf, List.length_zipWith, hstream, blockBytes]
    omega
  refine ⟨hlen, ?_⟩
  conv_lhs => rw [xorPrf, hlen]
  rw [xorPrf, zipWith_cancel xor_xor_cancel]
  rw [hstream, blockBytes]
  omega

variable (tweak : List Bytes) (expansion : ℕ) (d : Direction) (buffer : Bytes)

@[simp] lemma length_transform :
    (transform aesRound sk tweak expansion d buffer).length = buffer.length := by
  rw [transform]
  split
  · exact (xorPrf_length_and_twice _ _ _ _).1
  · rw [cipherApply]
    split
    · rfl
    · split
      · next hshort => exact length_tinyApply _ _ _ _ hshort.le
      · exact length_coreApply _ _ _ _ _

/-- Under one key and tweak, deciphering and enciphering undo each other at every length. -/
lemma transform_flip : transform aesRound sk tweak expansion d.flip
    (transform aesRound sk tweak expansion d buffer) = buffer := by
  have hlen := length_transform aesRound sk tweak expansion d buffer
  rw [transform, hlen]
  split
  · next h => rw [transform, if_pos h, (xorPrf_length_and_twice _ _ _ _).2]
  · next h =>
    rw [transform, if_neg h] at hlen ⊢
    rw [cipherApply, hlen]
    split
    · next hzero => rw [cipherApply, if_pos hzero]
    · next hzero =>
      split
      · next hshort =>
        rw [cipherApply, if_neg hzero, if_pos hshort,
          tinyApply_flip _ _ _ _ (Nat.pos_of_ne_zero hzero) hshort.le]
      · next hlong =>
        rw [cipherApply, if_neg hzero, if_neg hlong, coreApply_flip _ _ _ _ (Nat.le_of_not_lt hlong)]

/-- Under every key and tweak the cipher permutes the strings of each length, and deciphering is
the inverse of enciphering. -/
theorem encipher_permutes :
    decipher aesRound sk tweak (encipher aesRound sk tweak buffer) = buffer ∧
      encipher aesRound sk tweak (decipher aesRound sk tweak buffer) = buffer ∧
      (encipher aesRound sk tweak buffer).length = buffer.length ∧
      (decipher aesRound sk tweak buffer).length = buffer.length :=
  ⟨transform_flip aesRound sk tweak 0 .encipher buffer,
    transform_flip aesRound sk tweak 0 .decipher buffer, length_transform _ _ _ _ _ _,
    length_transform _ _ _ _ _ _⟩

lemma encrypt_append (message : Bytes) (slot : Vector (BitVec 8) expansion) :
    encrypt aesRound sk tweak expansion (message ++ slot.toList) =
      some (transform aesRound sk tweak expansion .encipher
        (message ++ List.replicate expansion 0)) := by
  have hslot : slot.toList.length = expansion := by simp
  have htake : (message ++ slot.toList).take ((message ++ slot.toList).length - expansion) =
      message := List.take_left' (by rw [List.length_append, hslot]; omega)
  rw [encrypt, if_neg (by rw [List.length_append, hslot]; omega), htake]

lemma all_zero_iff (l : Bytes) (n : ℕ) (hn : n ≤ l.length) :
    ((l.reverse.take n).all (· == 0)) = true ↔
      l = l.take (l.length - n) ++ List.replicate n 0 := by
  have hrev : (l.reverse.take n).all (· == 0) = (l.drop (l.length - n)).all (· == 0) := by
    rw [List.take_reverse, List.all_reverse]
  rw [hrev, List.all_eq_true]
  have hlen : (l.drop (l.length - n)).length = n := by
    rw [List.length_drop]
    omega
  constructor
  · intro h
    have hzero : l.drop (l.length - n) = List.replicate n 0 :=
      List.eq_replicate_iff.2 ⟨hlen, fun b hb => by simpa using h b hb⟩
    conv_lhs => rw [← List.take_append_drop (l.length - n) l, hzero]
  · intro h b hb
    have hzero : l.drop (l.length - n) = List.replicate n 0 :=
      List.append_cancel_left ((List.take_append_drop (l.length - n) l).trans h)
    rw [hzero] at hb
    rw [List.eq_of_mem_replicate hb, beq_self_eq_true]

lemma decrypt_eq_ok (cipher message : Bytes) :
    decrypt aesRound sk tweak expansion cipher = .ok message ↔
      transform aesRound sk tweak expansion .encipher
        (message ++ List.replicate expansion 0) = cipher := by
  have hdec := transform_flip aesRound sk tweak expansion .decipher cipher
  have hlen := length_transform aesRound sk tweak expansion .decipher cipher
  constructor
  · intro h
    rw [decrypt] at h
    split at h
    · cases h
    · next hlong =>
      simp only at h
      split at h
      · next hall =>
        rw [all_zero_iff _ _ (by omega)] at hall
        cases h
        rw [← hall]
        exact hdec
      · cases h
  · rintro rfl
    have henc := transform_flip aesRound sk tweak expansion .encipher
      (message ++ List.replicate expansion 0)
    rw [Direction.flip] at henc
    have hcount : (message ++ List.replicate expansion (0 : BitVec 8)).length - expansion =
        message.length := by
      rw [List.length_append, List.length_replicate]
      omega
    rw [decrypt, if_neg (by rw [length_transform, List.length_append, List.length_replicate]; omega),
      henc]
    simp only [hcount, List.take_left]
    rw [if_pos]
    rw [all_zero_iff _ _ (by rw [List.length_append, List.length_replicate]; omega), hcount,
      List.take_left]

/-- Decryption returns a message exactly for the ciphertext that encrypting the message gives,
whatever the room of the authenticator held before. -/
theorem decrypt_iff_encrypt (cipher message : Bytes) (slot : Vector (BitVec 8) expansion) :
    decrypt aesRound sk tweak expansion cipher = .ok message ↔
      encrypt aesRound sk tweak expansion (message ++ slot.toList) = some cipher := by
  rw [decrypt_eq_ok, encrypt_append, Option.some.injEq]

end

end Rings.Aez
