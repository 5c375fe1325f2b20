import Mathlib.Data.List.Basic
import Mathlib.Data.List.TakeWhile
import Mathlib.Tactic.Common
import Mathlib.Tactic.IntervalCases
import TimedKripke.Json.Basic
import TimedKripke.Json.Token

/-! # The tokens of written documents

The text of a document is cut into the tokens of the document (`Json.tokens?_chars`), if the
document is one that is written in full: it has no fractions and nothing unread, and 64 bits hold
its integers (`Json.Written`). A number or a literal is complete only when the character after it is
read, or the end; so a scan is described by the tokens that it settles for (`Json.Scan.Settles`).
-/

namespace TimedKripke

namespace Numeral

/-- The numeral of an integer. -/
def ofInt (n : Int) : Numeral :=
  { negative := decide (n < 0), whole := Nat.toDigits 10 n.natAbs, places := [], exponent := none }

/-- The decimal digits of a number have its value. -/
theorem digitsValue_toDigits (n : Nat) : digitsValue (Nat.toDigits 10 n) = n := by
  have value : Nat.ofDigitChars 10 (Nat.toDigits 10 n) 0 = n :=
    Nat.ofDigitChars_toDigits (by decide) (by decide)
  have same : (fun value digit => value * 10 + digitValue digit) =
      fun value (digit : Char) => 10 * value + (digit.toNat - '0'.toNat) := by
    funext value digit
    rw [Nat.mul_comm]
    rfl
  rw [digitsValue, same]
  exact value

/-- Decimal numbers consist of digits. -/
theorem isDigit_toDigits {n : Nat} {c : Char} (member : c ∈ Nat.toDigits 10 n) : c.isDigit = true :=
  Nat.isDigit_of_mem_toDigits (by decide) (by decide) member

/-- Decimal digits do not start with zero, unless they are zero. -/
theorem head?_toDigits (n : Nat) : 0 < n → (Nat.toDigits 10 n).head? ≠ some '0' := by
  induction n using Nat.strongRecOn with
  | ind n smaller =>
      intro positive
      by_cases single : n < 10
      · rw [Nat.toDigits_of_lt_base single]
        interval_cases n <;> decide
      · rw [Nat.toDigits_of_base_le (by decide) (Nat.le_of_not_lt single),
          List.head?_append_of_ne_nil _ (List.ne_nil_of_length_pos Nat.length_toDigits_pos)]
        exact smaller (n / 10) (Nat.div_lt_self positive (by decide))
          (Nat.div_pos (Nat.le_of_not_lt single) (by decide))

/-- The decimal digits of a number are a whole part: they have no zero in front. -/
theorem isWhole_toDigits (n : Nat) : isWhole (Nat.toDigits 10 n) = true := by
  have nonempty : (Nat.toDigits 10 n).isEmpty = false := by
    rw [List.isEmpty_eq_false_iff]
    exact List.ne_nil_of_length_pos Nat.length_toDigits_pos
  rw [isWhole, nonempty, Bool.not_false, Bool.true_and, Bool.or_eq_true]
  by_cases zero : n = 0
  · rw [zero]
    decide
  · exact .inl (bne_iff_ne.mpr (head?_toDigits n (Nat.pos_of_ne_zero zero)))

/-- Decimal digits are read as a numeral without a point and without an exponent. -/
theorem magnitude?_toDigits (negative : Bool) (n : Nat) :
    magnitude? negative (Nat.toDigits 10 n) =
      some { negative, whole := Nat.toDigits 10 n, places := [], exponent := none } := by
  have all : ∀ c ∈ Nat.toDigits 10 n, c.isDigit = true := fun _ => isDigit_toDigits
  rw [magnitude?, List.takeWhile_eq_self_iff.mpr all, List.dropWhile_eq_nil_iff.mpr all,
    if_pos (isWhole_toDigits n)]
  rfl

/-- The decimal text of an integer is read as its numeral. -/
theorem ofChars?_decimal (n : Int) : ofChars? (decimal n) = some (ofInt n) := by
  unfold decimal
  by_cases negative : n < 0
  · rw [if_pos negative, ofChars?, magnitude?_toDigits, ofInt, decide_eq_true negative]
  · rw [if_neg negative, ofInt, decide_eq_false negative, ← magnitude?_toDigits]
    cases digits : Nat.toDigits 10 n.natAbs with
    | nil => rfl
    | cons first rest =>
        have isDigit : first.isDigit = true :=
          isDigit_toDigits (by rw [digits]; exact List.mem_cons_self)
        have noSign : first ≠ '-' := by
          intro sign
          rw [sign] at isDigit
          cases isDigit
        unfold ofChars?
        split
        · next same => exact absurd (List.cons.inj same).1 noSign
        · rfl

/-- The numeral of an integer that 64 bits hold stands for it. -/
theorem integer?_ofInt {n : Int} (least : -9223372036854775808 ≤ n)
    (greatest : n < 18446744073709551616) : (ofInt n).integer? = some n := by
  unfold integer? ofInt
  simp only [digitsValue_toDigits, List.isEmpty_nil, Option.isNone_none, Bool.and_self, if_true]
  by_cases negative : n < 0
  · rw [if_pos (decide_eq_true negative), if_pos (by omega)]
    congr 1
    omega
  · rw [if_neg (by simpa using negative), if_pos (by omega)]
    congr 1
    omega

end Numeral

namespace Json

namespace Letter

/-- The letter with which a character is written. -/
def ofChar (c : Char) : Letter :=
  if c = '"' ∨ c = '\\' ∨ c = '\x08' ∨ c = '\x0c' ∨ c = '\n' ∨ c = '\r' ∨ c = '\t' then .named c
  else if c.toNat < 32 then .unit c.toNat
  else .plain c

/-- The letters of a text. -/
def ofText (text : String) : List Letter :=
  text.toList.map ofChar

/-- Characters that stand for themselves are decoded as they are, behind those read before. -/
theorem decode?_ofChar (text : List Char) : ∀ read : List Char,
    decode? none read (text.map ofChar) = some (read.reverse ++ text) := by
  induction text with
  | nil => exact fun read => congrArg some (List.append_nil _).symm
  | cons c text others =>
      intro read
      have next : decode? none read (ofChar c :: text.map ofChar) =
          decode? none (c :: read) (text.map ofChar) := by
        unfold ofChar
        split
        · rfl
        · split
          · next small =>
              have notHigh : isHigh c.toNat = false := by
                rw [isHigh, decide_eq_false (by omega), Bool.false_and]
              have notLow : isLow c.toNat = false := by
                rw [isLow, decide_eq_false (by omega), Bool.false_and]
              rw [decode?, notHigh, notLow, Char.ofNat_toNat]
              rfl
          · rfl
      rw [List.map_cons, next, others, List.reverse_cons, List.append_assoc]
      rfl

/-- Letters are read as they are written. -/
theorem text?_ofText (text : String) : text? (ofText text) = some text := by
  rw [text?, ofText, decode?_ofChar, List.reverse_nil, List.nil_append, Option.map_some,
    String.ofList_toList]

end Letter

namespace Scan

/-- Reads the characters of a text. -/
def reads? (scan : Scan) (text : List Char) : Option Scan :=
  (text.map some).foldlM next? scan

/-- A text is read part by part. -/
theorem reads?_append (scan : Scan) (first second : List Char) :
    scan.reads? (first ++ second) = (scan.reads? first).bind fun middle =>
        middle.reads? second := by
  rw [reads?, List.map_append, List.foldlM_append]
  rfl

/-- A text is read character by character. -/
theorem reads?_cons (scan : Scan) (c : Char) (rest : List Char) :
    scan.reads? (c :: rest) = (scan.next? (some c)).bind fun middle => middle.reads? rest :=
  rfl

/-- A word goes on until a character ends it, and is then read as a token. -/
theorem next?_word (written : List Char) (tokens : List Token) (c : Char) :
    next? { pending := .word written, tokens } (some c) =
      if endsWord c then
        (Token.ofWord? written.reverse).map fun token => start (token :: tokens) c
      else some { pending := .word (c :: written), tokens } :=
  rfl

/-- Once a word that is still open is taken as complete, these are the tokens, last first. -/
inductive Settles : Scan → List Token → Prop
  | nothing (tokens : List Token) : Settles { tokens } tokens
  | word {written : List Char} {token : Token} (tokens : List Token)
      (read : Token.ofWord? written.reverse = some token) :
      Settles { pending := .word written, tokens } (token :: tokens)

/-- A mark ends what comes before it, and becomes the next token. -/
theorem Settles.next {scan : Scan} {tokens : List Token} (settles : scan.Settles tokens) {c : Char}
    {token : Token} (noBlank : isBlank c = false) (noQuote : c ≠ '"')
    (mark : Token.ofMark? c = some token) :
    scan.next? (some c) = some { tokens := token :: tokens } := by
  have started : ∀ tokens, start tokens c = { tokens := token :: tokens } := by
    intro tokens
    rw [start, noBlank, if_neg Bool.false_ne_true, if_neg noQuote, mark]
  have ends : endsWord c = true := by
    rw [endsWord, mark, Option.isSome_some, Bool.or_true]
  cases settles with
  | nothing => exact congrArg some (started _)
  | word _ read =>
      rw [next?_word, if_pos ends, read]
      exact congrArg some (started _)

/-- A scan that settles has its tokens when the text ends. -/
theorem Settles.finish {scan : Scan} {tokens : List Token} (settles : scan.Settles tokens) :
    scan.finish? = some tokens.reverse := by
  cases settles with
  | nothing => rfl
  | word _ read =>
      unfold finish?
      simp only [read, Option.map_some]

/-- Characters that do not end a word become part of it. -/
theorem reads?_word {text : List Char} : ∀ {written : List Char} {tokens : List Token},
    (∀ c ∈ text, endsWord c = false) → reads? { pending := .word written, tokens } text =
      some { pending := .word (text.reverse ++ written), tokens } := by
  induction text with
  | nil => exact fun _ => rfl
  | cons c text others =>
      intro written tokens plain
      rw [reads?_cons, next?_word, plain c List.mem_cons_self, if_neg Bool.false_ne_true]
      refine (others fun next member => plain next (List.mem_cons_of_mem _ member)).trans ?_
      rw [List.reverse_cons, List.append_assoc]
      rfl

/-- A text without an interruption that is read as a token settles as that token. -/
theorem exists_settles_of_word {text : List Char} {token : Token} (nonempty : text ≠ [])
    (uninterrupted : text.any endsWord = false) (read : Token.ofWord? text = some token)
    (tokens : List Token) : ∃ scan, reads? { tokens } text = some scan ∧
      scan.Settles (token :: tokens) := by
  have plain : ∀ c ∈ text, endsWord c = false := fun c member =>
    Bool.eq_false_iff.mpr (List.any_eq_false.mp uninterrupted c member)
  obtain ⟨c, rest, rfl⟩ := List.exists_cons_of_ne_nil nonempty
  have opens : start tokens c = { pending := .word [c], tokens } := by
    have noEnd := plain c List.mem_cons_self
    rw [endsWord, Bool.or_eq_false_iff, Bool.or_eq_false_iff, beq_eq_false_iff_ne] at noEnd
    obtain ⟨⟨noBlank, noQuote⟩, noMark⟩ := noEnd
    rw [start, noBlank, if_neg Bool.false_ne_true, if_neg noQuote,
      Option.not_isSome_iff_eq_none.mp (Bool.eq_false_iff.mp noMark)]
  refine ⟨{ pending := .word (rest.reverse ++ [c]), tokens }, ?_, .word tokens ?_⟩
  · rw [reads?_cons]
    change reads? (start tokens c) rest = _
    rw [opens]
    exact reads?_word fun next member => plain next (List.mem_cons_of_mem _ member)
  · rw [List.reverse_append, List.reverse_reverse]
    exact read

/-- A hexadecimal digit has its value. -/
theorem hexValue?_hexDigit {n : Nat} (small : n < 16) : hexValue? (hexDigit n) = some n := by
  interval_cases n <;> decide

/-- An escaped character is read back inside a quoted text. -/
theorem reads?_escaped (c : Char) (letters : List Letter) (tokens : List Token) :
    reads? { pending := .quoted letters, tokens } (escaped c) =
      some { pending := .quoted (Letter.ofChar c :: letters), tokens } := by
  by_cases short : c = '"' ∨ c = '\\' ∨ c = '\x08' ∨ c = '\x0c' ∨ c = '\n' ∨ c = '\r' ∨ c = '\t'
  · rcases short with rfl | rfl | rfl | rfl | rfl | rfl | rfl <;> rfl
  · have isLetter : Letter.ofChar c = if c.toNat < 32 then .unit c.toNat else .plain c :=
      if_neg short
    simp only [not_or] at short
    obtain ⟨noQuote, noSlash, noBackspace, noFeed, noLine, noReturn, noTab⟩ := short
    by_cases control : c.toNat < 32
    · have high : c.toNat / 16 < 16 := by omega
      have low : c.toNat % 16 < 16 := by omega
      have whole : (0 * 16 + c.toNat / 16) * 16 + c.toNat % 16 = c.toNat := by omega
      rw [isLetter, if_pos control]
      simp only [escaped, noQuote, noSlash, noBackspace, noFeed, noLine, noReturn, noTab, control,
        if_true, if_false]
      change (digit? letters 0 1 tokens (hexDigit (c.toNat / 16))).bind _ = _
      rw [digit?, hexValue?_hexDigit high]
      change (digit? letters _ 0 tokens (hexDigit (c.toNat % 16))).bind _ = _
      rw [digit?, hexValue?_hexDigit low]
      exact congrArg (fun unit =>
        some ({ pending := .quoted (.unit unit :: letters), tokens } : Scan)) whole
    · rw [isLetter, if_neg control]
      simp only [escaped, noQuote, noSlash, noBackspace, noFeed, noLine, noReturn, noTab, control,
        if_false]
      change (letter? letters tokens c).bind _ = _
      rw [letter?, if_neg noQuote, if_neg noSlash, if_neg control]
      rfl

/-- Escaped characters are read back inside a quoted text, behind those read before. -/
theorem reads?_letters (text : List Char) : ∀ (letters : List Letter) (tokens : List Token),
    reads? { pending := .quoted letters, tokens } (text.flatMap escaped) =
      some { pending := .quoted ((text.map Letter.ofChar).reverse ++ letters), tokens } := by
  induction text with
  | nil => exact fun _ _ => rfl
  | cons c text others =>
      intro letters tokens
      rw [List.flatMap_cons, reads?_append, reads?_escaped, Option.bind_some, others, List.map_cons,
        List.reverse_cons, List.append_assoc]
      rfl

/-- A quoted text is read as one token. -/
theorem reads?_quoted (text : String) (tokens : List Token) :
    reads? { tokens } (quoted text) =
        some { tokens := .string (Letter.ofText text) :: tokens } := by
  have closes : reads? { pending := .quoted (Letter.ofText text).reverse, tokens } ['"'] =
      some { tokens := .string (Letter.ofText text) :: tokens } := by
    change some ({ tokens := Token.string (Letter.ofText text).reverse.reverse :: tokens } :
      Scan) = _
    rw [List.reverse_reverse]
  change reads? { pending := .quoted [], tokens } (text.toList.flatMap escaped ++ ['"']) = _
  rw [reads?_append, reads?_letters, Option.bind_some, List.append_nil]
  exact closes

end Scan

mutual

/-- The document is written in full. -/
def Written : Json → Prop
  | .int n => -9223372036854775808 ≤ n ∧ n < 18446744073709551616
  | .fraction _ => False
  | .array elements => ElementsWritten elements
  | .object members => MembersWritten members
  | .unread => False
  | _ => True

/-- All elements are written in full. -/
def ElementsWritten : List Json → Prop
  | [] => True
  | first :: rest => Written first ∧ ElementsWritten rest

/-- All members are written in full. -/
def MembersWritten : List (String × Json) → Prop
  | [] => True
  | (_, first) :: rest => Written first ∧ MembersWritten rest

end

mutual

/-- The tokens of a document. -/
def tokens : Json → List Token
  | .null => [.null]
  | .bool b => [.bool b]
  | .int n => [.number (.ofInt n)]
  | .fraction numeral => [.number numeral]
  | .string s => [.string (Letter.ofText s)]
  | .array [] => [.openArray, .closeArray]
  | .array (first :: rest) => .openArray :: (tokens first ++ elementTokens rest)
  | .object [] => [.openObject, .closeObject]
  | .object ((key, first) :: rest) =>
      .openObject :: .string (Letter.ofText key) :: .colon :: (tokens first ++ memberTokens rest)
  | .unread => []

/-- The tokens of the elements after the first, and of the closing bracket. -/
def elementTokens : List Json → List Token
  | [] => [.closeArray]
  | next :: rest => .comma :: (tokens next ++ elementTokens rest)

/-- The tokens of the members after the first, and of the closing brace. -/
def memberTokens : List (String × Json) → List Token
  | [] => [.closeObject]
  | (key, next) :: rest =>
      .comma :: .string (Letter.ofText key) :: .colon :: (tokens next ++ memberTokens rest)

end

/-- No digit ends a word. -/
theorem endsWord_of_isDigit {c : Char} (isDigit : c.isDigit = true) : Scan.endsWord c = false := by
  have differs : ∀ other : Char, other.isDigit = false → c ≠ other := by
    intro other noDigit same
    rw [same, noDigit] at isDigit
    cases isDigit
  simp [Scan.endsWord, isBlank, Token.ofMark?, differs ' ' rfl, differs '\n' rfl, differs '\t' rfl,
    differs '\r' rfl, differs '"' rfl, differs '[' rfl, differs ']' rfl, differs '\x7b' rfl,
    differs '\x7d' rfl, differs ',' rfl, differs ':' rfl]

/-- A number is scanned as one, as it is none of the literals. -/
theorem ofWord?_decimal (n : Int) :
    Token.ofWord? (Numeral.decimal n) = some (.number (.ofInt n)) := by
  have starts : ∀ c ∈ (Numeral.decimal n).head?, c = '-' ∨ c.isDigit = true := by
    intro c isFirst
    unfold Numeral.decimal at isFirst
    split at isFirst
    · cases isFirst
      exact .inl rfl
    · exact .inr (Numeral.isDigit_toDigits (List.mem_of_head? isFirst))
  rw [← Option.map_some, ← Numeral.ofChars?_decimal]
  unfold Token.ofWord?
  split
  · next same =>
      rw [same] at starts
      rcases starts 'n' rfl with impossible | impossible <;> cases impossible
  · next same =>
      rw [same] at starts
      rcases starts 't' rfl with impossible | impossible <;> cases impossible
  · next same =>
      rw [same] at starts
      rcases starts 'f' rfl with impossible | impossible <;> cases impossible
  · rfl

/-- A decimal text settles as the number it stands for. -/
theorem exists_settles_decimal (n : Int) (tokens : List Token) : ∃ scan,
    Scan.reads? { tokens } (Numeral.decimal n) = some scan ∧
      scan.Settles (.number (.ofInt n) :: tokens) := by
  have plain : (Nat.toDigits 10 n.natAbs).any Scan.endsWord = false :=
    List.any_eq_false.mpr fun c member =>
      Bool.eq_false_iff.mp (endsWord_of_isDigit (Numeral.isDigit_toDigits member))
  refine Scan.exists_settles_of_word ?_ ?_ (ofWord?_decimal n) tokens
  · unfold Numeral.decimal
    split
    · exact List.cons_ne_nil _ _
    · exact List.ne_nil_of_length_pos Nat.length_toDigits_pos
  · unfold Numeral.decimal
    split
    · rw [List.any_cons, plain]
      rfl
    · exact plain

mutual

/-- **Scanning the text of a document** gives its tokens, whatever was scanned before. The last one
may still be a word that has not ended. -/
theorem exists_settles (document : Json) (written : document.Written) (tokens : List Token) :
    ∃ scan, Scan.reads? { tokens } document.chars = some scan ∧
      scan.Settles (document.tokens.reverse ++ tokens) := by
  match document, written with
  | .null, _ => exact Scan.exists_settles_of_word (List.cons_ne_nil _ _) rfl rfl tokens
  | .bool true, _ => exact Scan.exists_settles_of_word (List.cons_ne_nil _ _) rfl rfl tokens
  | .bool false, _ => exact Scan.exists_settles_of_word (List.cons_ne_nil _ _) rfl rfl tokens
  | .int n, _ => exact exists_settles_decimal n tokens
  | .string s, _ => exact ⟨_, Scan.reads?_quoted s tokens, .nothing _⟩
  | .array [], _ => exact ⟨_, rfl, .nothing _⟩
  | .array (first :: rest), written =>
      -- The first element may end in a word that is still open; the mark after it settles it.
      obtain ⟨writtenFirst, writtenRest⟩ := written
      obtain ⟨middle, here, settles⟩ := exists_settles first writtenFirst (.openArray :: tokens)
      refine ⟨_, ?_, .nothing _⟩
      change Scan.reads? { tokens := .openArray :: tokens } (chars first ++ moreElements rest) = _
      rw [Scan.reads?_append, here, Option.bind_some, reads?_moreElements rest writtenRest settles]
      simp [Json.tokens]
  | .object [], _ => exact ⟨_, rfl, .nothing _⟩
  | .object ((key, first) :: rest), written =>
      obtain ⟨writtenFirst, writtenRest⟩ := written
      obtain ⟨middle, here, settles⟩ := exists_settles first writtenFirst
        (.colon :: .string (Letter.ofText key) :: .openObject :: tokens)
      refine ⟨_, ?_, .nothing _⟩
      change Scan.reads? { tokens := .openObject :: tokens }
        (quoted key ++ ':' :: (chars first ++ moreMembers rest)) = _
      rw [Scan.reads?_append, Scan.reads?_quoted, Option.bind_some]
      change Scan.reads? { tokens := .colon :: .string (Letter.ofText key) :: .openObject ::
        tokens }
        (chars first ++ moreMembers rest) = _
      rw [Scan.reads?_append, here, Option.bind_some, reads?_moreMembers rest writtenRest settles]
      simp [Json.tokens]

/-- The text of further elements is read as their tokens, if the scan settles before it. -/
theorem reads?_moreElements (rest : List Json) (written : ElementsWritten rest) {scan : Scan}
    {tokens : List Token} (settles : scan.Settles tokens) : scan.reads? (moreElements rest) =
      some { tokens := (elementTokens rest).reverse ++ tokens } := by
  match rest, written with
  | [], _ =>
      rw [moreElements, Scan.reads?_cons, settles.next rfl (by decide) rfl]
      rfl
  | next :: rest, written =>
      obtain ⟨writtenNext, writtenRest⟩ := written
      obtain ⟨middle, here, settlesNext⟩ := exists_settles next writtenNext (.comma :: tokens)
      rw [moreElements, Scan.reads?_cons, settles.next rfl (by decide) rfl, Option.bind_some,
        Scan.reads?_append, here, Option.bind_some, reads?_moreElements rest writtenRest
          settlesNext]
      simp [elementTokens]

/-- The text of further members is read as their tokens, if the scan settles before it. -/
theorem reads?_moreMembers (rest : List (String × Json)) (written : MembersWritten rest)
    {scan : Scan} {tokens : List Token} (settles : scan.Settles tokens) :
    scan.reads? (moreMembers rest) =
      some { tokens := (memberTokens rest).reverse ++ tokens } := by
  match rest, written with
  | [], _ =>
      rw [moreMembers, Scan.reads?_cons, settles.next rfl (by decide) rfl]
      rfl
  | (key, next) :: rest, written =>
      obtain ⟨writtenNext, writtenRest⟩ := written
      obtain ⟨middle, here, settlesNext⟩ := exists_settles next writtenNext
        (.colon :: .string (Letter.ofText key) :: .comma :: tokens)
      rw [moreMembers, Scan.reads?_cons, settles.next rfl (by decide) rfl, Option.bind_some,
        Scan.reads?_append, Scan.reads?_quoted, Option.bind_some]
      change Scan.reads? { tokens := .colon :: .string (Letter.ofText key) :: .comma :: tokens }
        (chars next ++ moreMembers rest) = _
      rw [Scan.reads?_append, here, Option.bind_some, reads?_moreMembers rest writtenRest
        settlesNext]
      simp [memberTokens]

end

/-- A document that can be written is scanned as its tokens. -/
theorem tokens?_chars {document : Json} (written : document.Written) :
    tokens? (document.chars.map some) = some document.tokens := by
  obtain ⟨scan, reads, settles⟩ := exists_settles document written []
  rw [tokens?, show List.foldlM Scan.next? {} _ = some scan from reads, Option.bind_some,
    settles.finish, List.append_nil, List.reverse_reverse]

end Json

end TimedKripke
