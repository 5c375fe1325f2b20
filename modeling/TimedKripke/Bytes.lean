import TimedKripke.Json.Basic
import TimedKripke.Json.Token

/-! # Bytes

Sequences of bytes as they are stored: numbers of a fixed width, text in UTF-8, and
two ways to show bytes, in hexadecimal and as text in which everything that is no text
is replaced.
-/

namespace TimedKripke

/-- A sequence of bytes. -/
abbrev Bytes := List UInt8

namespace Bytes

/-- A number in `width` bytes, the highest first. -/
def bigEndian : (width : Nat) → Nat → Bytes
  | 0, _ => []
  | width + 1, n => bigEndian width (n / 256) ++ [UInt8.ofNat n]

/-- A number in `width` bytes, the lowest first. -/
def littleEndian : (width : Nat) → Nat → Bytes
  | 0, _ => []
  | width + 1, n => UInt8.ofNat n :: littleEndian width (n / 256)

/-- The number of bytes that have the highest first. -/
def ofBigEndian (bytes : Bytes) : Nat :=
  bytes.foldl (fun n byte => n * 256 + byte.toNat) 0

/-- The number of bytes that have the lowest first. -/
def ofLittleEndian (bytes : Bytes) : Nat :=
  bytes.foldr (fun byte n => n * 256 + byte.toNat) 0

/-- The bytes of a text. -/
def ofText (text : String) : Bytes :=
  text.toUTF8.data.toList

/-- The text of bytes that are one. -/
def text? (bytes : Bytes) : Option String :=
  String.fromUTF8? ⟨bytes.toArray⟩

/-- The bytes in hexadecimal, two digits each. -/
def hex (bytes : Bytes) : String :=
  String.ofList (bytes.flatMap fun byte =>
    [Json.hexDigit (byte.toNat / 16), Json.hexDigit (byte.toNat % 16)])

/-- Reads bytes in hexadecimal. -/
def ofHex? : List Char → Option Bytes
  | [] => some []
  | high :: low :: rest => do
      let first := (← Json.hexValue? high) * 16 + (← Json.hexValue? low)
      return UInt8.ofNat first :: (← ofHex? rest)
  | [_] => none

/-- Reads bytes that are written as text, or in hexadecimal after the mark `hex:`. -/
def ofWritten? (text : String) : Option Bytes :=
  match text.toList with
  | 'h' :: 'e' :: 'x' :: ':' :: digits => ofHex? digits
  | _ => some (ofText text)

/-- The byte continues a character. -/
def isContinuation (byte : UInt8) : Bool :=
  decide (128 ≤ byte.toNat) && decide (byte.toNat ≤ 191)

/-- The bytes that may follow the first byte of a character: their number and the range
of the next one. None if no character starts with the byte. -/
def continuations? (first : UInt8) : Option (Nat × Nat × Nat) :=
  let n := first.toNat
  if n < 128 then some (0, 0, 0)
  else if n < 194 then none
  else if n < 224 then some (1, 128, 191)
  else if n = 224 then some (2, 160, 191)
  else if n = 237 then some (2, 128, 159)
  else if n < 240 then some (2, 128, 191)
  else if n = 240 then some (3, 144, 191)
  else if n < 244 then some (3, 128, 191)
  else if n = 244 then some (3, 128, 143)
  else none

/-- The number of bytes, of those after the first, that begin a character together with
it, and whether the character is complete. -/
def characterTail (first : UInt8) (rest : Bytes) : Nat × Bool :=
  match continuations? first with
  | none => (0, false)
  | some (0, _, _) => (0, true)
  | some (count, low, high) =>
      match rest with
      | [] => (0, false)
      | next :: more =>
          if decide (low ≤ next.toNat) && decide (next.toNat ≤ high) then
            let found := ((more.take (count - 1)).takeWhile isContinuation).length
            (1 + found, found + 1 == count)
          else (0, false)

/-- The characters of bytes, one piece at a time. Each longest piece that begins a
character and does not complete it, and each byte that begins none, is `none`. -/
def pieces (bytes : Bytes) : List (Option Char) :=
  match bytes with
  | [] => []
  | first :: rest =>
      let tail := characterTail first rest
      let piece := first :: rest.take tail.1
      let read := if tail.2 then (text? piece).bind fun text => text.toList.head? else none
      read :: pieces (rest.drop tail.1)
termination_by bytes.length
decreasing_by
  simp only [List.length_drop, List.length_cons]
  omega

/-- The characters of bytes, `none` in each place where they form no character. Bytes
that are a text have its characters. -/
def characters (bytes : Bytes) : List (Option Char) :=
  match text? bytes with
  | some text => text.toList.map some
  | none => pieces bytes

/-- The text of bytes, with `U+FFFD` in each place where they form no character. -/
def lossyText (bytes : Bytes) : String :=
  String.ofList ((characters bytes).map fun c => c.getD '\ufffd')

end Bytes

end TimedKripke
