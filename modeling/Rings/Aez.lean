import Rings.FixedCodec
import Mathlib.Data.List.GetD

/-!
AEZ: the wide-block cipher of the onion carry. The AES round is a parameter; the field arithmetic
of the offsets, the two enciphering schemes and the authenticated mode are the code's own.
-/

namespace Rings.Aez

abbrev Bytes := List (BitVec 8)

/-- A block read as a number, its first byte the most significant. -/
abbrev Block := BitVec 128

/-! ### Blocks -/

def blockBytes : ℕ := 16
def blockBits : ℕ := 128

def blockCodec : FixedCodec (BitVec 8) 16 Block := .bigEndian 16 rfl

def toBytes (x : Block) : Bytes := blockCodec.write x

/-- The block of a string's first sixteen bytes, filled with zeros. -/
def fromPrefix (bytes : Bytes) : Block :=
  BitVec.ofNat 128 (ofDigits (bytes.take blockBytes ++ .replicate (blockBytes - bytes.length) 0))

def topBit : Block := 1#128 <<< (blockBits - 1)

/-- The block whose only set bit is at this position, counted from the leading bit. -/
def bitAt (position : ℕ) : Block := if position < blockBits then topBit >>> position else 0

/-- A partial block, a one bit and zeros. -/
def padded (bytes : Bytes) : Block := fromPrefix bytes ||| bitAt (bytes.length * 8)

def leadingOnes (bits : ℕ) : Block :=
  if blockBits - bits < blockBits then BitVec.allOnes 128 <<< (blockBits - bits) else 0

def truncate (x : Block) (bits : ℕ) : Block := x &&& leadingOnes bits

def padBits (x : Block) (bits : ℕ) : Block := x ||| bitAt bits

/-- Add a block to the first bytes of a string. -/
def xorInto (x : Block) (target : Bytes) : Bytes :=
  List.zipWith (· ^^^ ·) (target.take blockBytes) (toBytes x) ++ target.drop blockBytes

def reduction : Block := 0x87

/-- Doubling in the field: a shift, reduced when the leading bit falls off. -/
def double (x : Block) : Block := (x <<< 1) ^^^ (-(x >>> (blockBits - 1)) &&& reduction)

/-- The action of a number on the field, by double-and-add from its leading bit. -/
def times (x : Block) (scalar : ℕ) : Block :=
  (List.range scalar.size).reverse.foldl
    (fun sum bit => double sum ^^^ (x &&& -(BitVec.ofNat 128 (scalar >>> bit) &&& 1))) 0

def timesPowerOfTwo (x : Block) (exponent : ℕ) : Block := double^[exponent] x

/-! ### The tweakable block cipher -/

def keyBytes : ℕ := 3 * blockBytes

inductive Subkey | i | j | l
  deriving DecidableEq

inductive KeyError | zeroSubkey (name : Subkey)
  deriving DecidableEq

/-- The three subkeys of a key, none of them zero. -/
structure Subkeys where
  i : Block
  j : Block
  l : Block
  i_ne : i ≠ 0
  j_ne : j ≠ 0
  l_ne : l ≠ 0

/-- The subkeys of a key; a key with a zero subkey is weak and refused. -/
def Subkeys.new (key : Vector (BitVec 8) keyBytes) : Except KeyError Subkeys :=
  let block index := fromPrefix ((key.toList.drop (index * blockBytes)).take blockBytes)
  if hi : block 0 = 0 then .error (.zeroSubkey .i)
  else if hj : block 1 = 0 then .error (.zeroSubkey .j)
  else if hl : block 2 = 0 then .error (.zeroSubkey .l)
  else .ok ⟨block 0, block 1, block 2, hi, hj, hl⟩

section

variable (aesRound : Block → Block → Block) (sk : Subkeys)

def aes4 (block : Block) : Block := [sk.j, sk.i, sk.l, 0].foldl aesRound block

def aes10 (block : Block) : Block :=
  [sk.i, sk.j, sk.l, sk.i, sk.j, sk.l, sk.i, sk.j, sk.l, sk.i].foldl aesRound block

/-- The offset of one row and column. -/
def offset (row column : ℕ) : Block :=
  times sk.j row ^^^ timesPowerOfTwo sk.i ((column + 7) / 8) ^^^ times sk.l (column % 8)

/-- The counter and the running power after `k` steps of the stream of offsets. -/
def offsetState : ℕ → ℕ × Block
  | 0 => (1, double sk.i)
  | k + 1 =>
    (((offsetState k).1 + 1) % 2 ^ 64,
      if (offsetState k).1 % 8 = 0 then double (offsetState k).2 else (offsetState k).2)

/-- The stream of the offsets of one row, from column one on. -/
def offsets (row k : ℕ) : Block :=
  times sk.j row ^^^ (offsetState sk k).2 ^^^ times sk.l ((offsetState sk k).1 % 8)

def aes4At (offset block : Block) : Block := aes4 aesRound sk (block ^^^ offset)

def e (row column : ℕ) (block : Block) : Block := aes4At aesRound sk (offset sk row column) block

def eAes10 (column : ℕ) (block : Block) : Block := aes10 aesRound sk (block ^^^ times sk.l column)

/-! ### The digest of the tweak, and the stream of the empty message -/

def firstComponentRow : ℕ := 3
def prfColumn : ℕ := 3

/-- The full blocks of a string, and what is left of it. -/
def asChunks (bytes : Bytes) : List Block × Bytes :=
  (blockCodec.readMany (bytes.length / blockBytes) bytes).getD ([], bytes)

def componentDigest (row : ℕ) (component : Bytes) : Block :=
  let body := (asChunks component).1.zipIdx.foldl
    (fun digest block => digest ^^^ aes4At aesRound sk (offsets sk row block.2) block.1) 0
  if (asChunks component).2 ≠ [] ∨ (asChunks component).1 = [] then
    body ^^^ e aesRound sk row 0 (padded (asChunks component).2)
  else body

/-- The digest of a vector of components, each under its own row. -/
def hash (components : List Bytes) : Block :=
  (components.zipIdx firstComponentRow).foldl
    (fun delta component => delta ^^^ componentDigest aesRound sk component.2 component.1) 0

/-- Add the stream of the empty message to a string. -/
def xorPrf (delta : Block) (buffer : Bytes) : Bytes :=
  List.zipWith (· ^^^ ·) buffer ((List.range ((buffer.length + 15) / blockBytes)).flatMap
    fun counter => toBytes (eAes10 aesRound sk prfColumn (delta ^^^ BitVec.ofNat 128 counter)))

end

/-! ### Enciphering short strings -/

inductive Direction | encipher | decipher
  deriving DecidableEq

/-- The column used before the middle step. -/
def Direction.innerColumn : Direction → ℕ
  | .encipher => 1
  | .decipher => 2

/-- The column used after the middle step. -/
def Direction.outerColumn : Direction → ℕ
  | .encipher => 2
  | .decipher => 1

def firstBitColumn : ℕ := 3
def blockColumn : ℕ := 6
def subBlockColumn : ℕ := 7

def roundCount (length : ℕ) : ℕ :=
  if length = 1 then 24 else if length = 2 then 16
  else if 3 ≤ length ∧ length < blockBytes then 10 else 8

/-- A byte is two nibbles, the high one first. -/
def nibbleCodec : FixedCodec (BitVec 4) 2 (BitVec 8) := (FixedCodec.take _ 2).map (digitsEquiv 4 2 rfl)

def nibbles (bytes : Bytes) : List (BitVec 4) := bytes.flatMap nibbleCodec.write

def ofNibbles (l : List (BitVec 4)) : Bytes := ((nibbleCodec.readMany (l.length / 2) l).getD ([], l)).1

def blockNibbles (x : Block) : List (BitVec 4) := toDigits 4 32 x.toNat

/-- Some nibbles of a string as a block, filled with zeros. -/
def takeNibbles (source : Bytes) (start count : ℕ) : Block :=
  let taken := ((nibbles source).drop start).take count
  BitVec.ofNat 128 (ofDigits (taken ++ .replicate (32 - taken.length) 0))

/-- Write the first nibbles of a block over those of a string. -/
def putNibbles (target : Bytes) (start count : ℕ) (block : Block) : Bytes :=
  ofNibbles ((nibbles target).take start ++ (blockNibbles block).take count ++
    (nibbles target).drop (start + count))

section

variable (aesRound : Block → Block → Block) (sk : Subkeys) (delta : Block)

def roundFunction (halfNibbles column : ℕ) (right : Block) (index : ℕ) : Block :=
  truncate (e aesRound sk 0 column (delta ^^^ padBits right (halfNibbles * 4) ^^^
    BitVec.ofNat 128 index)) (halfNibbles * 4)

/-- Run the rounds over the halves of a string, and write them swapped. -/
def feistelRun (column : ℕ) (text : Bytes) (indices : List ℕ) : Bytes :=
  let halves := indices.foldl
    (fun h index => (h.2, h.1 ^^^ roundFunction aesRound sk delta text.length column h.2 index))
    (takeNibbles text 0 text.length, takeNibbles text text.length text.length)
  putNibbles (putNibbles text 0 text.length halves.2) text.length text.length halves.1

/-- Correct the first bit of a short string. -/
def correctFirstBit (text : Bytes) : Bytes :=
  xorInto (e aesRound sk 0 firstBitColumn (delta ^^^ (fromPrefix text ||| topBit)) &&& topBit) text

/-- The scheme of strings of one to thirty-one bytes. -/
def tinyApply (direction : Direction) (text : Bytes) : Bytes :=
  let column := if text.length < blockBytes then subBlockColumn else blockColumn
  let rounds := List.range (roundCount text.length)
  match direction with
  | .encipher =>
    let out := feistelRun aesRound sk delta column text rounds
    if text.length < blockBytes then correctFirstBit aesRound sk delta out else out
  | .decipher =>
    let corrected := if text.length < blockBytes then correctFirstBit aesRound sk delta text else text
    feistelRun aesRound sk delta column corrected rounds.reverse

end

/-! ### Enciphering long strings -/

def pairRow : ℕ := 1
def spreadRow : ℕ := 2
def residueUColumn : ℕ := 4
def residueVColumn : ℕ := 5

/-- A string of at least two blocks: the pairs, what is left of them, and the last two blocks. -/
structure Layout where
  pairs : List (Block × Block)
  residue : Bytes
  x : Block
  y : Block

def pairCodec : FixedCodec (BitVec 8) 32 (Block × Block) := blockCodec.pair blockCodec

def Layout.bytes (l : Layout) : Bytes :=
  l.pairs.flatMap pairCodec.write ++ l.residue ++ pairCodec.write (l.x, l.y)

/-- Lay a string out; a string of less than two blocks has no layout. -/
def Layout.split (message : Bytes) : Option Layout :=
  if message.length < 32 then none
  else
    let rest := message.take (message.length - 32)
    (pairCodec.readMany (rest.length / 32) rest).bind fun read =>
      (pairCodec.readAll (message.drop (message.length - 32))).map fun last =>
        ⟨read.1, read.2, last.1, last.2⟩

section

variable (aesRound : Block → Block → Block) (sk : Subkeys)

/-- The digest of the residue, by its three cases. -/
def residueDigest (residue : Bytes) : Block :=
  if residue = [] then 0
  else if residue.length < blockBytes then e aesRound sk 0 residueUColumn (padded residue)
  else
    e aesRound sk 0 residueUColumn (fromPrefix (residue.take blockBytes)) ^^^
      e aesRound sk 0 residueVColumn (padded (residue.drop blockBytes))

def residueMask (s : Block) (residue : Bytes) : Bytes :=
  if residue = [] then []
  else if residue.length < blockBytes then xorInto (eAes10 aesRound sk residueUColumn s) residue
  else
    xorInto (eAes10 aesRound sk residueUColumn s) (residue.take blockBytes) ++
      xorInto (eAes10 aesRound sk residueVColumn s) (residue.drop blockBytes)

def xorSum (l : List Block) : Block := l.foldl (· ^^^ ·) 0

def firstPass (pairs : List (Block × Block)) : List (Block × Block) × Block :=
  let out := pairs.zipIdx.map fun p =>
    let w := p.1.1 ^^^ aes4At aesRound sk (offsets sk pairRow p.2) p.1.2
    (w, p.1.2 ^^^ aes4At aesRound sk (offset sk 0 0) w)
  (out, xorSum (out.map Prod.snd))

def secondPass (s : Block) (pairs : List (Block × Block)) : List (Block × Block) × Block :=
  let spread k := aes4At aesRound sk (offsets sk spreadRow k) s
  (pairs.zipIdx.map fun p =>
      let z := p.1.2 ^^^ spread p.2
      let c' := p.1.1 ^^^ spread p.2 ^^^ aes4At aesRound sk (offset sk 0 0) z
      (z ^^^ aes4At aesRound sk (offsets sk pairRow p.2) c', c'),
    xorSum (pairs.zipIdx.map fun p => p.1.1 ^^^ spread p.2))

/-- The two passes around the middle step. -/
def Layout.pass (delta : Block) (direction : Direction) (l : Layout) : Layout :=
  let sumX := (firstPass aesRound sk l.pairs).2 ^^^ residueDigest aesRound sk l.residue
  let sx := l.x ^^^ delta ^^^ sumX ^^^ e aesRound sk 0 direction.innerColumn l.y
  let sy := l.y ^^^ eAes10 aesRound sk direction.innerColumn sx
  let residue := residueMask aesRound sk (sx ^^^ sy) l.residue
  let second := secondPass aesRound sk (sx ^^^ sy) (firstPass aesRound sk l.pairs).1
  let sumY := second.2 ^^^ residueDigest aesRound sk residue
  let cy := sx ^^^ eAes10 aesRound sk direction.outerColumn sy
  ⟨second.1, residue, sy ^^^ delta ^^^ sumY ^^^ e aesRound sk 0 direction.outerColumn cy, cy⟩

/-- The scheme of strings of at least two blocks; shorter strings stay as they are. -/
def coreApply (delta : Block) (direction : Direction) (message : Bytes) : Bytes :=
  match Layout.split message with
  | none => message
  | some l => (l.pass aesRound sk delta direction).bytes

def coreMinBytes : ℕ := 32

def cipherApply (delta : Block) (direction : Direction) (text : Bytes) : Bytes :=
  if text.length = 0 then text
  else if text.length < coreMinBytes then tinyApply aesRound sk delta direction text
  else coreApply aesRound sk delta direction text

/-! ### The keyed cipher -/

inductive DecryptError | truncated | inauthentic
  deriving DecidableEq

/-- The common body of encryption and decryption, at one expansion in bytes. -/
def transform (tweak : List Bytes) (expansion : ℕ) (direction : Direction) (buffer : Bytes) : Bytes :=
  let delta := hash aesRound sk (toBytes (BitVec.ofNat 128 (expansion <<< 3)) :: tweak)
  if buffer.length = expansion then xorPrf aesRound sk delta buffer
  else cipherApply aesRound sk delta direction buffer

/-- Encrypt the buffer but for its last `expansion` bytes, which are room for the authenticator;
`none` when there is not that much room. -/
def encrypt (tweak : List Bytes) (expansion : ℕ) (buffer : Bytes) : Option Bytes :=
  if buffer.length < expansion then none
  else some (transform aesRound sk tweak expansion .encipher
    (buffer.take (buffer.length - expansion) ++ .replicate expansion 0))

def decrypt (tweak : List Bytes) (expansion : ℕ) (buffer : Bytes) : Except DecryptError Bytes :=
  if buffer.length < expansion then .error .truncated
  else
    let out := transform aesRound sk tweak expansion .decipher buffer
    if (out.reverse.take expansion).all (· == 0) then .ok (out.take (out.length - expansion))
    else .error .inauthentic

def encipher (tweak : List Bytes) (buffer : Bytes) : Bytes :=
  transform aesRound sk tweak 0 .encipher buffer

def decipher (tweak : List Bytes) (buffer : Bytes) : Bytes :=
  transform aesRound sk tweak 0 .decipher buffer

end

end Rings.Aez
