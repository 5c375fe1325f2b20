import TimedKripke.Json.Numeral

/-! # Tokens of JSON text

Text is cut into tokens one character at a time. A quoted text becomes its letters, which
keep apart characters that stand for themselves and escapes, so that a text can be
checked without being decoded: half a surrogate pair is a letter like any other, and only
`Letter.text?` refuses it.
-/

namespace TimedKripke

namespace Json

/-- A text to be read: its characters, and `none` in each place where stored bytes form
no character. -/
abbrev Source := List (Option Char)

/-- The source of a text. -/
def Source.ofText (text : String) : Source :=
  text.toList.map some

/-- A letter of a quoted text. -/
inductive Letter where
  /-- A character that stands for itself. -/
  | plain (c : Char)
  /-- A character written as a one-letter escape. -/
  | named (c : Char)
  /-- A 16-bit unit written in hexadecimal. -/
  | unit (n : Nat)
  /-- Bytes that form no character. -/
  | stray

namespace Letter

/-- The first unit of a surrogate pair. -/
def isHigh (unit : Nat) : Bool :=
  decide (0xD800 ≤ unit) && decide (unit ≤ 0xDBFF)

/-- The second unit of a surrogate pair. -/
def isLow (unit : Nat) : Bool :=
  decide (0xDC00 ≤ unit) && decide (unit ≤ 0xDFFF)

/-- The character of a surrogate pair. -/
def pair (high low : Nat) : Char :=
  Char.ofNat (0x10000 + (high - 0xD800) * 0x400 + (low - 0xDC00))

/-- Decodes letters after the characters `read`, which stand last first, and after the
first unit `high` of a pair. -/
def decode? (high : Option Nat) (read : List Char) : List Letter → Option (List Char)
  | [] =>
      match high with
      | none => some read.reverse
      | some _ => none
  | letter :: rest =>
      match high, letter with
      | none, .plain c => decode? none (c :: read) rest
      | none, .named c => decode? none (c :: read) rest
      | none, .unit n =>
          if isHigh n then decode? (some n) read rest
          else if isLow n then none
          else decode? none (Char.ofNat n :: read) rest
      | some high, .unit low =>
          if isLow low then decode? none (pair high low :: read) rest else none
      | _, _ => none

/-- The text of letters; none if it has half a surrogate pair, or bytes that form no
character. -/
def text? (letters : List Letter) : Option String :=
  (decode? none [] letters).map String.ofList

/-- The character of a letter that stands for itself. -/
def plain? : Letter → Option Char
  | .plain c => some c
  | _ => none

/-- The text of letters that are written without escapes. -/
def plainText? (letters : List Letter) : Option String :=
  (letters.mapM plain?).map String.ofList

end Letter

/-- A token of JSON text. -/
inductive Token where
  | openArray
  | closeArray
  | openObject
  | closeObject
  | comma
  | colon
  | null
  | bool (b : Bool)
  | number (numeral : Numeral)
  | string (letters : List Letter)

namespace Token

/-- The token that is a single character. -/
def ofMark? (c : Char) : Option Token :=
  if c = '[' then some .openArray
  else if c = ']' then some .closeArray
  else if c = '\x7b' then some .openObject
  else if c = '\x7d' then some .closeObject
  else if c = ',' then some .comma
  else if c = ':' then some .colon
  else none

/-- The token that is written as a word: a literal or a number. -/
def ofWord? : List Char → Option Token
  | ['n', 'u', 'l', 'l'] => some .null
  | ['t', 'r', 'u', 'e'] => some (.bool true)
  | ['f', 'a', 'l', 's', 'e'] => some (.bool false)
  | word => (Numeral.ofChars? word).map .number

end Token

/-- The blanks of the format. -/
def isBlank (c : Char) : Bool :=
  c == ' ' || c == '\n' || c == '\t' || c == '\r'

/-- The value of a hexadecimal digit of either case. -/
def hexValue? (c : Char) : Option Nat :=
  if '0' ≤ c ∧ c ≤ '9' then some (c.toNat - 48)
  else if 'a' ≤ c ∧ c ≤ 'f' then some (c.toNat - 87)
  else if 'A' ≤ c ∧ c ≤ 'F' then some (c.toNat - 55)
  else none

/-- The character named by a one-letter escape. -/
def escapeChar? (c : Char) : Option Char :=
  if c = '"' then some '"'
  else if c = '\\' then some '\\'
  else if c = '/' then some '/'
  else if c = 'b' then some '\x08'
  else if c = 'f' then some '\x0c'
  else if c = 'n' then some '\n'
  else if c = 'r' then some '\r'
  else if c = 't' then some '\t'
  else none

/-- What the characters read so far leave open. Words and letters stand last first. -/
inductive Pending where
  | nothing
  | word (written : List Char)
  | quoted (letters : List Letter)
  | escape (letters : List Letter)
  /-- A unit in a quoted text, with digits missing. -/
  | code (letters : List Letter) (unit missing : Nat)

/-- A scan of a text: what is open, and the tokens before it, last first. -/
structure Scan where
  pending : Pending := .nothing
  tokens : List Token := []

namespace Scan

/-- Reads a character that continues nothing. -/
def start (tokens : List Token) (c : Char) : Scan :=
  if isBlank c then { tokens }
  else if c = '"' then { pending := .quoted [], tokens }
  else
    match Token.ofMark? c with
    | some token => { tokens := token :: tokens }
    | none => { pending := .word [c], tokens }

/-- The character ends a word. -/
def endsWord (c : Char) : Bool :=
  isBlank c || c == '"' || (Token.ofMark? c).isSome

/-- Reads a character of a quoted text. Control characters are refused. -/
def letter? (letters : List Letter) (tokens : List Token) (c : Char) : Option Scan :=
  if c = '"' then some { tokens := .string letters.reverse :: tokens }
  else if c = '\\' then some { pending := .escape letters, tokens }
  else if c.toNat < 32 then none
  else some { pending := .quoted (.plain c :: letters), tokens }

/-- Reads a digit of a unit, after which `missing` digits are to come. -/
def digit? (letters : List Letter) (unit missing : Nat) (tokens : List Token) (c : Char) :
    Option Scan :=
  (hexValue? c).map fun value =>
    let unit := unit * 16 + value
    match missing with
    | 0 => { pending := .quoted (.unit unit :: letters), tokens }
    | missing => { pending := .code letters unit missing, tokens }

/-- Reads the next character. -/
def next? (scan : Scan) (c : Option Char) : Option Scan :=
  let tokens := scan.tokens
  match scan.pending, c with
  | .nothing, some c => some (start tokens c)
  | .word written, some c =>
      if endsWord c then
        (Token.ofWord? written.reverse).map fun token => start (token :: tokens) c
      else some { pending := .word (c :: written), tokens }
  | .quoted letters, some c => letter? letters tokens c
  | .quoted letters, none => some { pending := .quoted (.stray :: letters), tokens }
  | .escape letters, some c =>
      if c = 'u' then some { pending := .code letters 0 4, tokens }
      else (escapeChar? c).map fun c => { pending := .quoted (.named c :: letters), tokens }
  | .code letters unit missing, some c => digit? letters unit (missing - 1) tokens c
  | _, none => none

/-- The tokens of a text that ends here. -/
def finish? (scan : Scan) : Option (List Token) :=
  match scan.pending with
  | .nothing => some scan.tokens.reverse
  | .word written =>
      (Token.ofWord? written.reverse).map fun token => (token :: scan.tokens).reverse
  | _ => none

end Scan

/-- The tokens of a text. -/
def tokens? (source : Source) : Option (List Token) :=
  (source.foldlM Scan.next? {}).bind Scan.finish?

end Json

end TimedKripke
