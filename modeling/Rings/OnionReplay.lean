import Rings.BTreeMap
import Rings.Did
import Mathlib.Data.List.GetD

/-!
The replay store of an onion hop: sliced Bloom filters keyed by the quantised expiry.

A filter is a chain of blocks, and a tag enters the open one. Bits are never cleared inside a live
filter, so a filter has no false negatives; a filter is dropped whole once its expiry has passed.
-/

namespace Rings.Onion

/-! ### Expiries -/

def onionExpiryOffsetMs : ℕ := 120000
def onionExpiryQuantumMs : ℕ := 30000
/-- The admission window: a layer is admissible at `arr` when `arr < x ≤ arr + V`. -/
def onionAdmissionWindowMs : ℕ := onionExpiryOffsetMs + onionExpiryQuantumMs

/-- A quantised expiry, held as its quantum index. -/
@[ext]
structure OnionExpiry where
  quantum : ℕ
  deriving DecidableEq

namespace OnionExpiry

instance : LinearOrder OnionExpiry :=
  LinearOrder.lift' OnionExpiry.quantum fun _ _ => OnionExpiry.ext

/-- The expiry instant in milliseconds; it saturates past the greatest `u128`. -/
def asMs (x : OnionExpiry) : ℕ := min (x.quantum * onionExpiryQuantumMs) u128Max

/-- The expiry of a loop built at `builtAtMs`. -/
def ofBuild (builtAtMs : ℕ) : OnionExpiry :=
  ⟨saturatingAdd u128Max ((builtAtMs + onionExpiryQuantumMs - 1) / onionExpiryQuantumMs)
    (onionExpiryOffsetMs / onionExpiryQuantumMs)⟩

/-- An expiry of `ms` milliseconds, when they lie on the grid. -/
def fromMs (ms : ℕ) : Option OnionExpiry :=
  if ms % onionExpiryQuantumMs = 0 then some ⟨ms / onionExpiryQuantumMs⟩ else none

/-- The 64-bit field of a layer, when it lies on the grid. -/
def fromWireMs (ms : Fin (2 ^ 64)) : Option OnionExpiry := fromMs ms

/-- The admission window of a layer expiring at `x`. -/
def admissibleAt (x : OnionExpiry) (arrivalMs : ℕ) : Bool :=
  decide (arrivalMs < x.asMs ∧ x.asMs ≤ saturatingAdd u128Max arrivalMs onionAdmissionWindowMs)

/-- The replay filter of `x` is gone, and no layer expiring at `x` is admitted any more. -/
def hasPassedAt (x : OnionExpiry) (nowMs : ℕ) : Bool := decide (x.asMs ≤ nowMs)

end OnionExpiry

/-! ### Probes -/

abbrev Byte := BitVec 8

abbrev OnionReplayNonce := Vector Byte 16

/-- The secret key of the probe family. -/
abbrev OnionReplayFilterKey := Vector Byte 32

def onionAdmissionSenderUnits : ℕ := 16384
def replayBlockTags : ℕ := onionAdmissionSenderUnits
def replayBlockHashes : ℕ := 26
def replaySliceWords : ℕ := 370
def replaySliceBits : ℕ := 23680
def replayProbeDigests : ℕ := 4

/-- The little-endian number of a word. -/
def fromLeBytes : List Byte → ℕ
  | [] => 0
  | b :: bs => b.toNat + 256 * fromLeBytes bs

/-- The bit addresses of one tag, one for each slice. -/
structure ReplayProbe where
  addresses : List ℕ
  deriving DecidableEq

/-- The probe of `tag` under `key`, from the keyed counter stream of the hash. -/
def ReplayProbe.of (keccak256 : List Byte → Vector Byte 32) (key : OnionReplayFilterKey)
    (tag : OnionReplayNonce) : ReplayProbe :=
  let stream := (List.range replayProbeDigests).flatMap fun counter =>
    (keccak256 (key.toList ++ tag.toList ++ [BitVec.ofNat 8 counter])).toList
  ⟨((stream.toChunks 4).take replayBlockHashes).map fun word => fromLeBytes word % replaySliceBits⟩

/-! ### Blocks -/

abbrev ReplaySlice := List (BitVec 64)

/-- The word of a slice that a bit address names. -/
def wordOf (address : ℕ) : ℕ := address / 64

/-- The mask of a bit address in its word. -/
def maskOf (address : ℕ) : BitVec 64 := 1#64 <<< (address % 64)

structure ReplayBlock where
  bits : List ReplaySlice
  tags : ℕ
  deriving DecidableEq

namespace ReplayBlock

def empty : ReplayBlock :=
  ⟨List.replicate replayBlockHashes (List.replicate replaySliceWords 0#64), 0⟩

def isFull (b : ReplayBlock) : Bool := b.tags ≥ replayBlockTags

/-- Every addressed bit of every slice is set. -/
def holds : List ReplaySlice → List ℕ → Bool
  | slice :: bits, address :: addresses =>
    (slice[wordOf address]?).all (fun word => word &&& maskOf address == maskOf address) &&
      holds bits addresses
  | _, _ => true

/-- Set every addressed bit of every slice. -/
def join : List ReplaySlice → List ℕ → List ReplaySlice
  | slice :: bits, address :: addresses =>
    slice.modify (wordOf address) (· ||| maskOf address) :: join bits addresses
  | bits, _ => bits

def contains (b : ReplayBlock) (probe : ReplayProbe) : Bool := holds b.bits probe.addresses

def insert (b : ReplayBlock) (probe : ReplayProbe) : ReplayBlock :=
  ⟨join b.bits probe.addresses, saturatingAdd u32Max b.tags 1⟩

/-- Setting bits sets them, and clears none. -/
lemma or_and_of_and {word mask other : BitVec 64} (h : word &&& mask = mask ∨ other = mask) :
    (word ||| other) &&& mask = mask := by
  ext i hi
  rw [BitVec.getElem_and, BitVec.getElem_or]
  rcases h with h | rfl
  · have hbit := congrArg (fun w : BitVec 64 => w[i]) h
    simp only [BitVec.getElem_and] at hbit
    cases hw : word[i] <;> cases hm : mask[i] <;> simp_all
  · cases word[i] <;> cases other[i] <;> rfl

lemma holds_join_self (bits : List ReplaySlice) (addresses : List ℕ) :
    holds (join bits addresses) addresses = true := by
  fun_induction join bits addresses with
  | case1 slice bits address addresses ih =>
    rw [holds, Bool.and_eq_true]
    refine ⟨?_, ih⟩
    rw [List.getElem?_modify_eq]
    cases slice[wordOf address]? with
    | none => rfl
    | some word =>
      exact beq_iff_eq.2 (or_and_of_and (Or.inr rfl))
  | case2 bits addresses hne =>
    cases bits with
    | nil => rfl
    | cons slice bits =>
      cases addresses with
      | nil => rfl
      | cons address addresses => exact absurd rfl (hne slice bits address addresses rfl)

lemma holds_join (bits : List ReplaySlice) (addresses other : List ℕ)
    (h : holds bits other = true) : holds (join bits addresses) other = true := by
  fun_induction join bits addresses generalizing other with
  | case1 slice bits address addresses ih =>
    cases other with
    | nil => rfl
    | cons a other =>
      rw [holds, Bool.and_eq_true] at h ⊢
      refine ⟨?_, ih other h.2⟩
      rw [List.getElem?_modify]
      rcases hword : slice[wordOf a]? with _ | word
      · rfl
      · have hset := h.1
        rw [hword, Option.all_some, beq_iff_eq] at hset
        simp only [Option.map_eq_map, Option.map_some, Option.all_some, beq_iff_eq]
        split
        · exact or_and_of_and (Or.inl hset)
        · exact hset
  | case2 => exact h

end ReplayBlock

/-! ### Filters and the store -/

/-- A chain of full sealed blocks and one open block. -/
structure ReplayFilter where
  sealedBlocks : List ReplayBlock
  openBlock : ReplayBlock
  deriving DecidableEq

namespace ReplayFilter

/-- The filter created by its first tag. -/
def singleton (probe : ReplayProbe) : ReplayFilter := ⟨[], ReplayBlock.empty.insert probe⟩

def contains (f : ReplayFilter) (probe : ReplayProbe) : Bool :=
  f.openBlock.contains probe || f.sealedBlocks.any (·.contains probe)

/-- Insert into the open block, sealing it first when it is full. -/
def insert (f : ReplayFilter) (probe : ReplayProbe) : ReplayFilter :=
  if f.openBlock.isFull then
    ⟨f.sealedBlocks ++ [f.openBlock], ReplayBlock.empty.insert probe⟩
  else ⟨f.sealedBlocks, f.openBlock.insert probe⟩

/-- The tags inserted. -/
def tagCount (f : ReplayFilter) : ℕ := (f.sealedBlocks.map ReplayBlock.tags).sum + f.openBlock.tags

lemma contains_singleton (probe : ReplayProbe) : (singleton probe).contains probe = true := by
  rw [contains, Bool.or_eq_true]
  exact Or.inl (ReplayBlock.holds_join_self _ _)

lemma contains_insert_self (f : ReplayFilter) (probe : ReplayProbe) :
    (f.insert probe).contains probe = true := by
  rw [insert]
  split <;> rw [contains, Bool.or_eq_true] <;> exact Or.inl (ReplayBlock.holds_join_self _ _)

lemma contains_insert {f : ReplayFilter} {probe : ReplayProbe} (other : ReplayProbe)
    (h : f.contains probe = true) : (f.insert other).contains probe = true := by
  rw [contains, Bool.or_eq_true] at h
  rw [insert]
  split
  · rw [contains, Bool.or_eq_true, List.any_append, Bool.or_eq_true]
    rcases h with h | h
    · exact Or.inr (Or.inr (by rw [List.any_cons, h, Bool.true_or]))
    · exact Or.inr (Or.inl h)
  · rw [contains, Bool.or_eq_true]
    exact h.imp_left (ReplayBlock.holds_join _ _ _)

lemma tagCount_insert (f : ReplayFilter) (probe : ReplayProbe) :
    (f.insert probe).tagCount = f.tagCount + 1 := by
  rw [insert]
  split
  · rw [tagCount, tagCount, List.map_append, List.sum_append]
    have hnew : (ReplayBlock.empty.insert probe).tags = 1 := rfl
    simp [hnew]
  · rename_i hopen
    have htags : (f.openBlock.insert probe).tags = f.openBlock.tags + 1 := by
      rw [ReplayBlock.isFull, decide_eq_true_eq, ge_iff_le, not_le] at hopen
      refine Nat.min_eq_left (le_trans hopen ?_)
      decide
    rw [tagCount, tagCount, htags, Nat.add_assoc]

end ReplayFilter

structure ReplayStore where
  key : OnionReplayFilterKey
  filters : BTreeMap OnionExpiry ReplayFilter

namespace ReplayStore

def new (key : OnionReplayFilterKey) : ReplayStore := ⟨key, .empty⟩

def probe (keccak256 : List Byte → Vector Byte 32) (s : ReplayStore) (tag : OnionReplayNonce) :
    ReplayProbe := .of keccak256 s.key tag

/-- Drop every filter whose expiry has passed. -/
def forgetThrough (s : ReplayStore) (nowMs : ℕ) : ReplayStore :=
  { s with filters := s.filters.retain fun x _ => !x.hasPassedAt nowMs }

def contains (s : ReplayStore) (x : OnionExpiry) (probe : ReplayProbe) : Bool :=
  (s.filters.get? x).any (·.contains probe)

/-- Insert a tag, creating the filter with its first one. -/
def insert (s : ReplayStore) (x : OnionExpiry) (probe : ReplayProbe) : ReplayStore :=
  let filter := (s.filters.get? x).elim (.singleton probe) (·.insert probe)
  { s with filters := s.filters.insert x filter }

/-- The tags of the filter of `x`. -/
def tagCount (s : ReplayStore) (x : OnionExpiry) : ℕ :=
  (s.filters.get? x).elim 0 ReplayFilter.tagCount

variable {s : ReplayStore} {x y : OnionExpiry} {probe : ReplayProbe} {nowMs : ℕ}

@[simp] lemma contains_new (key : OnionReplayFilterKey) : (new key).contains x probe = false := rfl

@[simp] lemma tagCount_new (key : OnionReplayFilterKey) : (new key).tagCount x = 0 := rfl

lemma get?_forgetThrough : (s.forgetThrough nowMs).filters.get? x =
    if x.hasPassedAt nowMs then none else s.filters.get? x := by
  rw [forgetThrough, BTreeMap.get?_retain]
  cases x.hasPassedAt nowMs <;> cases s.filters.get? x <;> rfl

lemma contains_forgetThrough (h : s.contains x probe = true) :
    x.hasPassedAt nowMs = true ∨ (s.forgetThrough nowMs).contains x probe = true := by
  rw [contains, get?_forgetThrough]
  by_cases hpassed : x.hasPassedAt nowMs = true
  · exact Or.inl hpassed
  · rw [if_neg hpassed]
    exact Or.inr h

lemma tagCount_forgetThrough : (s.forgetThrough nowMs).tagCount x ≤ s.tagCount x := by
  rw [tagCount, get?_forgetThrough]
  split
  · exact Nat.zero_le _
  · exact le_rfl

/-- No false negatives. -/
lemma contains_insert_self : (s.insert x probe).contains x probe = true := by
  rw [contains, insert, BTreeMap.get?_insert, if_pos rfl]
  cases s.filters.get? x with
  | none => exact ReplayFilter.contains_singleton probe
  | some f => exact f.contains_insert_self probe

lemma contains_insert (other : ReplayProbe) (h : s.contains x probe = true) :
    (s.insert y other).contains x probe = true := by
  rw [contains] at h
  rw [contains, insert, BTreeMap.get?_insert]
  split
  · rename_i heq
    subst heq
    rcases hf : s.filters.get? x with _ | f
    · rw [hf] at h
      cases h
    · rw [hf] at h
      exact ReplayFilter.contains_insert other h
  · exact h

lemma tagCount_insert : (s.insert y probe).tagCount x = s.tagCount x + if x = y then 1 else 0 := by
  rw [tagCount, tagCount, insert, BTreeMap.get?_insert]
  split
  · rename_i heq
    subst heq
    cases s.filters.get? x with
    | none => rfl
    | some f => exact f.tagCount_insert probe
  · rfl

end ReplayStore

end Rings.Onion
