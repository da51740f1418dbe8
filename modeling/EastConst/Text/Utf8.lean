/-!
# UTF-8

Files hold bytes, and everything else in the library works on characters. `encode` writes a text as
bytes; `decode` reads bytes back and, when they are not UTF-8, gives the length of their longest
valid beginning.

The reader is an automaton: `Lead.ofByte` says what a first byte promises, and the range of the byte
after it (`low`, `high`) rules out overlong forms, surrogates and values above `U+10FFFF` as soon as
they show.
-/

namespace EastConst.Utf8

/-- The number of bytes a text takes. -/
def byteLength : List Char → Nat
  | [] => 0
  | c :: text => c.utf8Size + byteLength text

@[simp]
theorem byteLength_nil : byteLength [] = 0 := rfl

@[simp]
theorem byteLength_cons (c : Char) (text : List Char) :
    byteLength (c :: text) = c.utf8Size + byteLength text := rfl

@[simp]
theorem byteLength_append (left right : List Char) :
    byteLength (left ++ right) = byteLength left + byteLength right := by
  induction left with
  | nil => simp
  | cons c left ih => simp [ih, Nat.add_assoc]

/-- The bytes of a text. -/
def encode (text : List Char) : List UInt8 :=
  text.flatMap String.utf8EncodeChar

/-- A sequence whose first byte has been read and whose other bytes are still to come. -/
structure Partial where
  /-- How many bytes are still to come. -/
  missing : Nat
  /-- The bits read so far. -/
  value : Nat
  /-- The least byte that may come next. -/
  low : UInt8
  /-- The greatest byte that may come next. -/
  high : UInt8

/-- What the first byte of a sequence promises. -/
inductive Lead where
  /-- The byte is a character by itself. -/
  | single (c : Char)
  /-- More bytes have to follow. -/
  | start (p : Partial)
  /-- No sequence starts with this byte. -/
  | invalid

/-- Reads the first byte of a sequence. -/
def Lead.ofByte (b : UInt8) : Lead :=
  if b < 0x80 then .single (Char.ofNat b.toNat)
  else if b < 0xC2 then .invalid
  else if b < 0xE0 then .start ⟨1, b.toNat - 0xC0, 0x80, 0xBF⟩
  else if b == 0xE0 then .start ⟨2, 0, 0xA0, 0xBF⟩
  else if b == 0xED then .start ⟨2, 0xD, 0x80, 0x9F⟩
  else if b < 0xF0 then .start ⟨2, b.toNat - 0xE0, 0x80, 0xBF⟩
  else if b == 0xF0 then .start ⟨3, 0, 0x90, 0xBF⟩
  else if b < 0xF4 then .start ⟨3, b.toNat - 0xF0, 0x80, 0xBF⟩
  else if b == 0xF4 then .start ⟨3, 4, 0x80, 0x8F⟩
  else .invalid

/-- Whether a byte may come next in a sequence. -/
def Partial.accepts (p : Partial) (b : UInt8) : Bool :=
  p.low ≤ b && b ≤ p.high

/-- The bits of a sequence after one more byte. -/
def Partial.extend (p : Partial) (b : UInt8) : Nat :=
  p.value * 64 + (b.toNat - 0x80)

/-- Reads bytes as UTF-8, `start` being the offset of the sequence that is being read and `offset`
that of the next byte. A failure gives the offset of the first sequence that is not UTF-8. -/
def decodeFrom (start offset : Nat) : Option Partial → List UInt8 → Except Nat (List Char)
  | none, [] => .ok []
  | some _, [] => .error start
  | none, b :: bytes =>
    match Lead.ofByte b with
    | .single c => (decodeFrom (offset + 1) (offset + 1) none bytes).map (c :: ·)
    | .start p => decodeFrom offset (offset + 1) (some p) bytes
    | .invalid => .error offset
  | some p, b :: bytes =>
    if p.accepts b then
      if p.missing ≤ 1 then
        (decodeFrom (offset + 1) (offset + 1) none bytes).map (Char.ofNat (p.extend b) :: ·)
      else
        decodeFrom start (offset + 1) (some ⟨p.missing - 1, p.extend b, 0x80, 0xBF⟩) bytes
    else .error start

/-- Reads bytes as UTF-8. A failure gives the length of the longest valid beginning. -/
def decode (bytes : List UInt8) : Except Nat (List Char) :=
  decodeFrom 0 0 none bytes

end EastConst.Utf8
