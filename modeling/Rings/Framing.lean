import Rings.Reassembly
import Mathlib.Algebra.Order.Floor.Div

/-!
Framing a payload for a connection that limits its messages.

A payload within the limit is sent whole. A longer one is cut into chunks of one size, all but
the last of them full, under one meta. A limit too small for a useful chunk frames nothing.
-/

namespace Rings.Chunks

/-- The meta of a message sent at `tsMs`. -/
def ChunkMeta.sentAt (id : Uuid) (tsMs : ℕ) : ChunkMeta := ⟨id, tsMs, defaultTtlMs⟩

/-- `bytes.slice(start..stop)`. -/
def slice (bytes : Bytes) (start stop : ℕ) : Bytes := (bytes.take stop).drop start

/-- The chunks of one message: `bytes` cut into pieces of at most `chunkSize` bytes. -/
def Chunk.stream (bytes : Bytes) (chunkSize : ℕ) (info : ChunkMeta) : List Chunk :=
  let chunkSize := max chunkSize 1
  let total := bytes.length ⌈/⌉ chunkSize
  (List.range total).map fun i =>
    let start := i * chunkSize
    let stop := min (saturatingAdd usizeMax start chunkSize) bytes.length
    ⟨i, total, slice bytes start stop, info⟩

inductive Framing
  | whole
  | chunked (chunkSize : ℕ)
deriving DecidableEq

/-- The bytes the transport adds around a whole payload and around the data of a chunk, and the
least data worth a chunk. -/
structure WireReserves where
  whole : ℕ
  chunk : ℕ
  minChunkData : ℕ

namespace WireReserves

def production : WireReserves where
  whole := transportCustomOverhead
  chunk := maxChunkEnvelopeOverhead + transportCustomOverhead
  minChunkData := Chunks.minChunkData

/-- Frame a payload of `payloadLen` bytes for a limit of `maxMessageSize` bytes a message. -/
def plan (r : WireReserves) (payloadLen maxMessageSize : ℕ) : Option Framing :=
  let wholeFits := (checkedAdd usizeMax payloadLen r.whole).any (· ≤ maxMessageSize)
  if wholeFits then some .whole
  else (checkedAdd usizeMax r.chunk r.minChunkData).bind fun minViable =>
    if minViable ≤ maxMessageSize then some (.chunked (maxMessageSize - r.chunk)) else none

/-- A payload is cut when it does not fit whole, into chunks that fit and are worth it. -/
lemma plan_chunked {r : WireReserves} {payloadLen maxMessageSize chunkSize : ℕ}
    (h : r.plan payloadLen maxMessageSize = some (.chunked chunkSize)) :
    chunkSize + r.chunk = maxMessageSize ∧ r.minChunkData ≤ chunkSize := by
  rw [plan] at h
  split at h
  · cases h
  · obtain ⟨minViable, hviable, hsize⟩ := Option.bind_eq_some_iff.1 h
    rw [checkedAdd] at hviable
    split at hviable
    · cases hviable
      split at hsize
      · cases hsize
        omega
      · cases hsize
    · cases hviable

end WireReserves

/-! ### The chunks of a payload -/

section Stream

variable {bytes : Bytes} {chunkSize : ℕ} {info : ChunkMeta} {chunk : Chunk}

def chunkTotal (bytes : Bytes) (chunkSize : ℕ) : ℕ := bytes.length ⌈/⌉ chunkSize

def piece (bytes : Bytes) (chunkSize i : ℕ) : Bytes := (bytes.drop (i * chunkSize)).take chunkSize

lemma chunkTotal_eq (bytes : Bytes) (chunkSize : ℕ) :
    chunkTotal bytes chunkSize = (bytes.length + chunkSize - 1) / chunkSize := rfl

lemma chunkTotal_spec (hsize : 0 < chunkSize) (hbytes : 0 < bytes.length) :
    0 < chunkTotal bytes chunkSize ∧
      (chunkTotal bytes chunkSize - 1) * chunkSize < bytes.length ∧
      bytes.length ≤ chunkTotal bytes chunkSize * chunkSize := by
  obtain ⟨n, hn⟩ : ∃ n, n = (bytes.length - 1) / chunkSize := ⟨_, rfl⟩
  have htotal : chunkTotal bytes chunkSize = n + 1 := by
    rw [chunkTotal_eq, show bytes.length + chunkSize - 1 = bytes.length - 1 + chunkSize by omega,
      Nat.add_div_right _ hsize, hn]
  have hlow : n * chunkSize ≤ bytes.length - 1 := hn ▸ Nat.div_mul_le_self _ _
  have hhigh : bytes.length - 1 < (n + 1) * chunkSize := by
    rw [← Nat.div_lt_iff_lt_mul hsize, ← hn]
    exact Nat.lt_succ_self n
  rw [htotal, Nat.add_sub_cancel]
  exact ⟨Nat.succ_pos n, by omega, by omega⟩

lemma length_piece (bytes : Bytes) (chunkSize i : ℕ) :
    (piece bytes chunkSize i).length = min chunkSize (bytes.length - i * chunkSize) := by
  rw [piece, List.length_take, List.length_drop]

lemma slice_eq_piece (i : ℕ) (hlen : bytes.length ≤ usizeMax) :
    slice bytes (i * chunkSize) (min (saturatingAdd usizeMax (i * chunkSize) chunkSize) bytes.length) =
      piece bytes chunkSize i := by
  have hstop : min (saturatingAdd usizeMax (i * chunkSize) chunkSize) bytes.length =
      min (i * chunkSize + chunkSize) bytes.length := by
    rw [saturatingAdd]
    omega
  rw [slice, piece, hstop, List.take_drop, ← List.take_eq_take_min]

/-- A chunk of a payload: its position, the number of chunks, its piece of the payload. -/
lemma mem_stream (hsize : 0 < chunkSize) (hlen : bytes.length ≤ usizeMax) :
    chunk ∈ Chunk.stream bytes chunkSize info ↔ chunk.position < chunkTotal bytes chunkSize ∧
      chunk.total = chunkTotal bytes chunkSize ∧
      chunk.data = piece bytes chunkSize chunk.position ∧ chunk.info = info := by
  have hmax : max chunkSize 1 = chunkSize := max_eq_left hsize
  rw [Chunk.stream]
  simp only [hmax, slice_eq_piece _ hlen, List.mem_map, List.mem_range]
  constructor
  · rintro ⟨i, hi, rfl⟩
    exact ⟨hi, rfl, rfl, rfl⟩
  · rintro ⟨hposition, htotal, hdata, hinfo⟩
    refine ⟨chunk.position, hposition, ?_⟩
    cases chunk
    simp only at htotal hdata hinfo
    rw [htotal, hdata, hinfo]
    rfl

/-- The pieces in their order are the payload as far as they reach. -/
lemma flatten_pieces (bytes : Bytes) (chunkSize n : ℕ) :
    ((List.range n).map (piece bytes chunkSize)).flatten = bytes.take (n * chunkSize) := by
  induction n with
  | zero => simp
  | succ n ih =>
    rw [List.range_succ, List.map_append, List.flatten_append, ih, Nat.succ_mul, List.take_add]
    simp [piece]

lemma flatten_chunks (hsize : 0 < chunkSize) (hbytes : 0 < bytes.length) :
    ((List.range (chunkTotal bytes chunkSize)).map (piece bytes chunkSize)).flatten = bytes := by
  rw [flatten_pieces]
  exact List.take_of_length_le (chunkTotal_spec hsize hbytes).2.2

end Stream

end Rings.Chunks
