import Filefacts.Lib.Window
import Filefacts.Bytes

set_option autoImplicit false

namespace Filefacts.Vba

-- The compressed container as MS-OVBA writes it.
inductive Token where
  | literal (byte : UInt8)
  | copy (offset length : Nat)
  deriving DecidableEq, Repr

-- How many bits of a copy token hold its offset, by the position in the chunk, and how long its copy can be.
def bitCount (position : Nat) : Nat := max 4 (Nat.clog 2 position)

def maximumLength (position : Nat) : Nat := (0xFFFF >>> bitCount position) + 3

def Token.size : Token → Nat
  | .literal _ => 1
  | .copy _ length => length

def Token.isCopy : Token → Bool
  | .literal _ => false
  | .copy _ _ => true

def Token.decode (produced : List UInt8) : Token → List UInt8
  | .literal byte => produced ++ [byte]
  | .copy offset length => Window.extend offset length produced

def decodeTokens (produced : List UInt8) (tokens : List Token) : List UInt8 := tokens.foldl Token.decode produced

def Token.Fits (position : Nat) : Token → Prop
  | .literal _ => True
  | .copy offset length => 1 ≤ offset ∧ offset ≤ position ∧ 3 ≤ length ∧ length ≤ maximumLength position

def sizes (tokens : List Token) : Nat := (tokens.map Token.size).sum

def TokensFit (position : Nat) : List Token → Prop
  | [] => True
  | token :: rest => token.Fits position ∧ TokensFit (position + token.size) rest

def littleEndian (number : Nat) : List UInt8 := (BigEndian.octetsOf 2 number).reverse

def Token.encode (position : Nat) : Token → List UInt8
  | .literal byte => [byte]
  | .copy offset length => littleEndian ((offset - 1) <<< (16 - bitCount position) ||| (length - 3))

def encodeTokens (position : Nat) : List Token → List UInt8
  | [] => []
  | token :: rest => token.encode position ++ encodeTokens (position + token.size) rest

-- One bit a token, the first token's the lowest.
def flags : List Token → Nat
  | [] => 0
  | token :: rest => token.isCopy.toNat + 2 * flags rest

def encodeSequences (position : Nat) (tokens : List Token) : List UInt8 :=
  if tokens = [] then []
  else
    UInt8.ofNat (flags (tokens.take 8)) :: encodeTokens position (tokens.take 8) ++
      encodeSequences (position + sizes (tokens.take 8)) (tokens.drop 8)
termination_by tokens.length
decreasing_by
  rename_i some_
  have positive := List.length_pos_iff.mpr some_
  rw [List.length_drop]
  omega

-- A header holds the size of the whole chunk less three, the signature 0b011 and the compressed flag.
def chunkHeader (compressed : Bool) (size : Nat) : List UInt8 :=
  littleEndian ((if compressed then 0x8000 else 0) ||| 0x3000 ||| (size - 3))

inductive Chunk where
  | raw (bytes : List UInt8) (full : bytes.length = 4096)
  | compressed (tokens : List Token) (nonempty : tokens ≠ []) (fit : TokensFit 0 tokens) (bounded : sizes tokens ≤ 4096)
      (sized : (encodeSequences 0 tokens).length ≤ 4096)

def Chunk.decode : Chunk → List UInt8
  | .raw bytes _ => bytes
  | .compressed tokens _ _ _ _ => decodeTokens [] tokens

def Chunk.encode : Chunk → List UInt8
  | .raw bytes _ => chunkHeader false (bytes.length + 2) ++ bytes
  | .compressed tokens _ _ _ _ =>
      let data := encodeSequences 0 tokens
      chunkHeader true (data.length + 2) ++ data

def encodeContainer (chunks : List Chunk) : List UInt8 := 1 :: chunks.flatMap Chunk.encode

variable (produced : List UInt8)

theorem decode_tokens_cons (token : Token) (rest : List Token) :
    decodeTokens produced (token :: rest) = decodeTokens (token.decode produced) rest := rfl

theorem decode_length (token : Token) (fits : token.Fits produced.length) :
    (token.decode produced).length = produced.length + token.size := by
  cases token with
  | literal byte => rw [Token.decode, List.length_append, List.length_singleton, Token.size]
  | copy offset length => exact Window.extend_length offset length produced fits.1 fits.2.1

theorem decode_tokens_length (tokens : List Token) (fit : TokensFit produced.length tokens) :
    (decodeTokens produced tokens).length = produced.length + sizes tokens := by
  induction tokens generalizing produced with
  | nil => rfl
  | cons token rest ih =>
      have first := decode_length produced token fit.1
      rw [decode_tokens_cons, ih _ (first ▸ fit.2), first, sizes, sizes, List.map_cons, List.sum_cons, Nat.add_assoc]

theorem tokens_fit_append (position : Nat) (front back : List Token) :
    TokensFit position (front ++ back) ↔ TokensFit position front ∧ TokensFit (position + sizes front) back := by
  induction front generalizing position with
  | nil => exact ⟨fun fit => ⟨trivial, fit⟩, fun both => both.2⟩
  | cons token rest ih =>
      have regroup : position + token.size + sizes rest = position + sizes (token :: rest) := by
        rw [sizes, sizes, List.map_cons, List.sum_cons, Nat.add_assoc]
      rw [List.cons_append, TokensFit, ih, TokensFit, regroup, and_assoc]

theorem decode_tokens_append (front back : List Token) :
    decodeTokens produced (front ++ back) = decodeTokens (decodeTokens produced front) back := List.foldl_append

theorem flags_lt (tokens : List Token) : flags tokens < 2 ^ tokens.length := by
  induction tokens with
  | nil => decide
  | cons token rest ih =>
      rw [flags, List.length_cons, Nat.pow_succ]
      have bit := Bool.toNat_lt token.isCopy
      omega

inductive DecompressError where
  | badSignature
  | tooLarge
  deriving DecidableEq, Repr

-- The loop of at most eight rounds from four bits up to twelve.
def maxBitCountFrom (position : Nat) : Nat → Nat → Nat
  | 0, bits => bits
  | left + 1, bits => if 1 <<< bits < position then maxBitCountFrom position left (bits + 1) else bits

def maxBitCount (position : Nat) : Nat := maxBitCountFrom position 8 4

structure Cursor where
  output : List UInt8
  pos : Nat
  deriving DecidableEq, Repr

-- An offset past the front of the output wraps to an index past its end, where a zero is read.
def byteBack (output : List UInt8) (offset : Nat) : UInt8 :=
  if offset ≤ output.length then output[output.length - offset]?.getD 0 else 0

def copyBytes (offset : Nat) : Nat → List UInt8 → List UInt8
  | 0, output => output
  | count + 1, output => copyBytes offset count (output ++ [byteBack output offset])

def copyToken (cap start token : Nat) (output : List UInt8) : Except DecompressError (List UInt8) :=
  let bits := maxBitCount (output.length - start)
  let lenMask := 0xFFFF >>> bits
  let offMask := 0xFFFF ^^^ lenMask
  let length := (token &&& lenMask) + 3
  let offset := (token &&& offMask) >>> (16 - bits) + 1
  if cap < output.length + length then .error .tooLarge else .ok (copyBytes offset length output)

-- The tokens of one flag byte, the bits left to look at counted down from eight.
def tokens (data : List UInt8) (cap chunkEnd start : Nat) (flag : UInt8) : Nat → Cursor → Except DecompressError Cursor
  | 0, cursor => .ok cursor
  | left + 1, cursor =>
      if chunkEnd ≤ cursor.pos then .ok cursor
      else if flag.toNat >>> (7 - left) &&& 1 = 0 then
        match data[cursor.pos]? with
        | none => tokens data cap chunkEnd start flag left cursor
        | some literal =>
            if cap ≤ cursor.output.length then .error .tooLarge
            else tokens data cap chunkEnd start flag left ⟨cursor.output ++ [literal], cursor.pos + 1⟩
      else
        match Bytes.u16le data cursor.pos with
        | none => .ok { cursor with pos := data.length }
        | some token =>
            (copyToken cap start token cursor.output).bind fun output =>
              tokens data cap chunkEnd start flag left ⟨output, cursor.pos + 2⟩

def tokenSequences (data : List UInt8) (cap chunkEnd start : Nat) : Nat → Cursor → Except DecompressError Cursor
  | 0, cursor => .ok cursor
  | fuel + 1, cursor =>
      if cursor.pos < chunkEnd then
        match data[cursor.pos]? with
        | none => .ok cursor
        | some flag =>
            (tokens data cap chunkEnd start flag 8 { cursor with pos := cursor.pos + 1 }).bind
              (tokenSequences data cap chunkEnd start fuel)
      else .ok cursor

-- The chunks; each round reads at least a header.
def chunks (data : List UInt8) (cap : Nat) : Nat → Cursor → Except DecompressError (List UInt8)
  | 0, cursor => .ok cursor.output
  | fuel + 1, cursor =>
      if cursor.pos < data.length then
        match Bytes.u16le data cursor.pos with
        | none => .ok cursor.output
        | some header =>
            let pos := cursor.pos + 2
            let chunkSize := (header &&& 0x0FFF) + 3
            if header &&& 0x8000 = 0 then
              let stop := min (pos + 4096) data.length
              let chunk := (Bytes.get data pos stop).getD []
              if cap < cursor.output.length + chunk.length then .error .tooLarge
              else chunks data cap fuel ⟨cursor.output ++ chunk, stop⟩
            else
              let chunkEnd := min (pos + chunkSize - 2) data.length
              (tokenSequences data cap chunkEnd cursor.output.length data.length ⟨cursor.output, pos⟩).bind (chunks data cap fuel)
      else .ok cursor.output

def decompressVba (data : List UInt8) (cap : Nat) : Except DecompressError (List UInt8) :=
  match data with
  | [] => .ok []
  | signature :: _ => if signature ≠ 1 then .error .badSignature else chunks data cap data.length ⟨[], 1⟩

end Filefacts.Vba
