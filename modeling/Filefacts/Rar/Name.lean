import Filefacts.Bytes

set_option autoImplicit false

namespace Filefacts.Rar

-- Text is kept as code points.
abbrev Text := List Nat

def replacement : Nat := 0xFFFD

def continuation (b : UInt8) : Bool := 0x80 ≤ b && b ≤ 0xBF

-- UTF-8 with a replacement character for each longest run of octets that begins a character and does not finish it.
def fromUtf8Lossy : List UInt8 → Text
  | [] => []
  | a :: rest =>
      if a < 0x80 then a.toNat :: fromUtf8Lossy rest
      else if a < 0xC2 || 0xF4 < a then replacement :: fromUtf8Lossy rest
      else
        match rest with
        | [] => [replacement]
        | b :: rest =>
            if a < 0xE0 then
              if continuation b then (a.toNat % 32 * 64 + b.toNat % 64) :: fromUtf8Lossy rest
              else replacement :: fromUtf8Lossy (b :: rest)
            else if a < 0xF0 then
              if continuation b && (a ≠ 0xE0 || 0xA0 ≤ b) && (a ≠ 0xED || b ≤ 0x9F) then
                match rest with
                | [] => [replacement]
                | c :: rest =>
                    if continuation c then
                      (a.toNat % 16 * 4096 + b.toNat % 64 * 64 + c.toNat % 64) :: fromUtf8Lossy rest
                    else replacement :: fromUtf8Lossy (c :: rest)
              else replacement :: fromUtf8Lossy (b :: rest)
            else if continuation b && (a ≠ 0xF0 || 0x90 ≤ b) && (a ≠ 0xF4 || b ≤ 0x8F) then
              match rest with
              | [] => [replacement]
              | c :: rest =>
                  if continuation c then
                    match rest with
                    | [] => [replacement]
                    | d :: rest =>
                        if continuation d then
                          (a.toNat % 8 * 262144 + b.toNat % 64 * 4096 + c.toNat % 64 * 64 + d.toNat % 64) :: fromUtf8Lossy rest
                        else replacement :: fromUtf8Lossy (d :: rest)
                  else replacement :: fromUtf8Lossy (c :: rest)
            else replacement :: fromUtf8Lossy (b :: rest)

def highSurrogate (unit : Nat) : Bool := 0xD800 ≤ unit && unit < 0xDC00

def lowSurrogate (unit : Nat) : Bool := 0xDC00 ≤ unit && unit < 0xE000

def fromUtf16Lossy : List Nat → Text
  | [] => []
  | unit :: rest =>
      if lowSurrogate unit then replacement :: fromUtf16Lossy rest
      else if highSurrogate unit then
        match rest with
        | [] => [replacement]
        | low :: rest =>
            if lowSurrogate low then (0x10000 + (unit - 0xD800) * 1024 + (low - 0xDC00)) :: fromUtf16Lossy rest
            else replacement :: fromUtf16Lossy (low :: rest)
      else unit :: fromUtf16Lossy rest

def slashed (text : Text) : Text := text.map fun point => if point = 92 then 47 else point

def utf8Name (bytes : List UInt8) : Text := slashed (fromUtf8Lossy (bytes.takeWhile fun b => b ≠ 0))

-- The rounds of the encoded form: what is left to read, the flags with how many of their bits are left, and the units so far.
-- A round that reads nothing spends two flag bits, so five rounds a byte are enough.
def unicodeUnits (raw : List UInt8) (high : Nat) : Nat → List UInt8 → Nat → Nat → List Nat → List Nat
  | 0, _, _, _, out => out
  | fuel + 1, enc, flags, flagBits, out =>
      match enc with
      | [] => out
      | first :: afterFirst =>
          let (flags, flagBits, enc) := if flagBits = 0 then (first.toNat, 8, afterFirst) else (flags, flagBits, enc)
          let again := fun enc out => unicodeUnits raw high fuel enc (flags * 4 % 256) (flagBits - 2) out
          match flags / 64 with
          | 0 =>
              match enc with
              | [] => again [] out
              | b :: rest => again rest (out ++ [b.toNat])
          | 1 =>
              match enc with
              | [] => again [] out
              | b :: rest => again rest (out ++ [b.toNat + high])
          | 2 =>
              match enc with
              | low :: upper :: rest => again rest (out ++ [low.toNat + upper.toNat * 256])
              | few => again few out
          | _ =>
              match enc with
              | [] => again [] out
              | run :: rest =>
                  let source := (raw.drop out.length).take (run.toNat % 128 + 2)
                  if run < 128 then again rest (out ++ source.map UInt8.toNat)
                  else
                    match rest with
                    | [] => again [] out
                    | correction :: rest => again rest (out ++ source.map fun b => (b + correction).toNat + high)

def decodeRar4Unicode (raw enc : List UInt8) : Option Text :=
  let high := (enc.head?.getD 0).toNat * 256
  let out := unicodeUnits raw high (5 * enc.length + 1) (enc.drop 1) 0 0 []
  if out = [] then none else some (slashed (fromUtf16Lossy out))

-- With the Unicode flag: an ASCII name, a NUL, then the encoded form.
def rar4Name (raw : List UInt8) (unicode : Bool) : Text :=
  let ascii := raw.takeWhile fun b => b ≠ 0
  if unicode && ascii.length < raw.length then
    match (decodeRar4Unicode raw (raw.drop (ascii.length + 1))).filter fun decoded => decoded ≠ [] with
    | some decoded => decoded
    | none => utf8Name ascii
  else utf8Name raw

def utf8Len (text : Text) : Nat :=
  (text.map fun point => if point < 0x80 then 1 else if point < 0x800 then 2 else if point < 0x10000 then 3 else 4).sum

def textOf (word : String) : Text := word.toList.map Char.toNat

end Filefacts.Rar
