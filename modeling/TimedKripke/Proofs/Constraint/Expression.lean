import Mathlib.Tactic.Common
import TimedKripke.Constraint

/-! # Expressions are unambiguous

An expression marks the operands of its connectives by parentheses alone. An operand that closes the
parentheses it opens and no others (`Parentheses.Closed`) ends where the parenthesis in front of it
is closed, whatever follows (`Parentheses.Closed.eq_of_enclose`). Over a clock whose label has no
parentheses every expression is closed (`Constraint.closed_expression`), so the same text has the
same operands, and a constraint can be told from its expression (`Constraint.expression_eq_iff`).
-/

namespace TimedKripke

namespace Parentheses

/-- The text up to the parenthesis that closes one more than `depth` open ones. -/
def beforeClose (depth : Nat) : List Char → List Char
  | [] => []
  | first :: rest =>
      if first = '(' then first :: beforeClose (depth + 1) rest
      else if first = ')' then
        match depth with
        | 0 => []
        | depth + 1 => first :: beforeClose depth rest
      else first :: beforeClose depth rest

/-- The text in parentheses. -/
def enclose (text : List Char) : List Char :=
  '(' :: (text ++ [')'])

/-- The text has no parentheses. -/
def Plain (text : List Char) : Prop :=
  '(' ∉ text ∧ ')' ∉ text

/-- The text closes the parentheses it opens and no others. -/
def Closed (text : List Char) : Prop :=
  ∀ depth rest, beforeClose depth (text ++ rest) = text ++ beforeClose depth rest

variable {first second rest rest' text : List Char}

/-- A character other than a parenthesis is passed over, whatever the depth. -/
theorem beforeClose_cons {depth : Nat} {head : Char} (notOpen : head ≠ '(')
    (notClose : head ≠ ')') :
    beforeClose depth (head :: rest) = head :: beforeClose depth rest := by
  cases depth <;> rw [beforeClose, if_neg notOpen, if_neg notClose]

/-- A text without parentheses is balanced. -/
theorem Plain.closed (plain : Plain text) : Closed text := by
  intro depth rest
  induction text with
  | nil => rfl
  | cons head tail others =>
      obtain ⟨notOpen, notClose⟩ := plain
      rw [List.mem_cons, not_or] at notOpen notClose
      rw [List.cons_append, beforeClose_cons (Ne.symm notOpen.1) (Ne.symm notClose.1),
        others ⟨notOpen.2, notClose.2⟩, List.cons_append]

/-- Balanced texts stay balanced when they are put behind each other. -/
theorem Closed.append (closed : Closed first) (closed' : Closed second) :
    Closed (first ++ second) := by
  intro depth rest
  rw [List.append_assoc, closed, closed', List.append_assoc]

/-- Different texts stay different inside parentheses. -/
theorem enclose_inj : enclose first = enclose second ↔ first = second := by
  simp [enclose]

/-- A text in parentheses, and what follows it, character by character. -/
theorem enclose_append (text rest : List Char) :
    enclose text ++ rest = '(' :: (text ++ ')' :: rest) := by
  simp [enclose]

/-- A balanced text stays balanced inside parentheses. -/
theorem Closed.enclose (closed : Closed text) : Closed (enclose text) := by
  intro depth rest
  have inside := closed (depth + 1) (')' :: rest)
  rw [beforeClose, if_neg (by decide), if_pos rfl] at inside
  rw [enclose_append, enclose_append, ← inside]
  cases depth <;> rw [beforeClose, if_pos rfl]

/-- **A closed text ends where it is closed**, whatever follows. -/
theorem Closed.eq_of_enclose (closed : Closed first) (closed' : Closed second)
    (same : Parentheses.enclose first ++ rest = Parentheses.enclose second ++ rest') :
    first = second ∧ rest = rest' := by
  -- The text is read back from in front of the parenthesis that closes it.
  have upTo : ∀ {text rest : List Char}, Closed text →
      beforeClose 0 (text ++ ')' :: rest) = text := by
    intro text rest closed
    rw [closed, beforeClose, if_neg (by decide), if_pos rfl, List.append_nil]
  rw [enclose_append, enclose_append] at same
  have inside := (List.cons.inj same).2
  have equal : first = second := by rw [← upTo closed, inside, upTo closed']
  rw [equal, List.append_cancel_left_eq] at inside
  exact ⟨equal, (List.cons.inj inside).2⟩

end Parentheses

/-- Texts without a separator are told apart from what follows it. -/
theorem eq_of_append_separator {α : Type} {separator : α} {first second rest rest' : List α}
    (apart : separator ∉ first) (apart' : separator ∉ second)
    (same : first ++ separator :: rest = second ++ separator :: rest') :
    first = second ∧ rest = rest' := by
  induction first generalizing second with
  | nil =>
      cases second with
      | nil => exact ⟨rfl, (List.cons.inj same).2⟩
      | cons head tail => exact absurd (List.cons.inj same).1 (List.ne_of_not_mem_cons apart')
  | cons head tail others =>
      cases second with
      | nil => exact absurd (List.cons.inj same).1.symm (List.ne_of_not_mem_cons apart)
      | cons head' tail' =>
          obtain ⟨rfl, sameRest⟩ := List.cons.inj same
          obtain ⟨rfl, later⟩ := others (List.not_mem_of_not_mem_cons apart)
            (List.not_mem_of_not_mem_cons apart') sameRest
          exact ⟨rfl, later⟩

namespace Constraint

open Parentheses (Plain Closed enclose)

/-- How a constraint is written. -/
inductive Form where
  | comparison (operator : String) (time : Time)
  | connective (operator : String) (left right : Constraint)
  | negation (inner : Constraint)

namespace Form

/-- The operator of a form. -/
def operator : Form → String
  | .comparison operator _ | .connective operator _ _ => operator
  | .negation _ => "!"

/-- The text of a form. -/
def chars (label : String) : Form → List Char
  | .comparison operator time =>
      label.toList ++ ' ' :: (operator.toList ++ ' ' :: Nat.toDigits 10 time.toNat)
  | .connective operator left right =>
      enclose (left.expression label).toList ++ ' ' ::
        (operator.toList ++ ' ' :: enclose (right.expression label).toList)
  | .negation inner => '!' :: enclose (inner.expression label).toList

end Form

/-- The form of a constraint. -/
def form : Constraint → Form
  | .lessThan time => .comparison "<" time
  | .lessThanEqual time => .comparison "<=" time
  | .equal time => .comparison "==" time
  | .notEqual time => .comparison "!=" time
  | .greaterThan time => .comparison ">" time
  | .greaterThanEqual time => .comparison ">=" time
  | .and left right => .connective "&&" left right
  | .or left right => .connective "||" left right
  | .implies left right => .connective "->" left right
  | .not inner => .negation inner

/-- A constraint is determined by its form: its operator and its operands. -/
theorem form_injective : Function.Injective form := by
  intro first second same
  cases first <;> cases second <;> simp [form] at same <;> simp [same]

/-- The expression of a constraint is that of its form, character by character. -/
theorem toList_expression (label : String) (constraint : Constraint) :
    (constraint.expression label).toList = constraint.form.chars label := by
  cases constraint <;> simp [expression, comparison, form, Form.chars, enclose]

/-- Constraints with one expression have forms that are written alike. -/
theorem chars_eq_of_expression {label : String} {first second : Constraint}
    (same : first.expression label = second.expression label) :
    first.form.chars label = second.form.chars label := by
  rw [← toList_expression, same, toList_expression]

/-- Operators are made of signs other than blanks and parentheses. -/
theorem operator_form (constraint : Constraint) :
    ∀ sign ∈ constraint.form.operator.toList, sign ∈ ['<', '>', '=', '!', '&', '|', '-'] := by
  cases constraint <;> simp [form, Form.operator]

/-- The text has neither blanks nor parentheses. -/
def Bare (text : String) : Prop :=
  ' ' ∉ text.toList ∧ Plain text.toList

/-- No operator contains a parenthesis or a space. -/
theorem bare_of_operator {constraint : Constraint} {operator : String}
    (isOperator : constraint.form.operator = operator) : Bare operator := by
  have signs := operator_form constraint
  rw [isOperator] at signs
  exact ⟨fun member => absurd (signs _ member) (by decide),
    fun member => absurd (signs _ member) (by decide),
    fun member => absurd (signs _ member) (by decide)⟩

section Plain

variable {label : String} (plain : Plain label.toList) {first second : Constraint}
include plain

/-- A comparison has no parentheses. -/
theorem plain_of_comparison {operator : String} {time : Time}
    (isForm : first.form = .comparison operator time) :
    Plain (first.expression label).toList := by
  have digits : ∀ sign, sign.isDigit = false → sign ∉ Nat.toDigits 10 time.toNat := by
    intro sign notDigit member
    rw [Nat.isDigit_of_mem_toDigits (by decide) (by decide) member] at notDigit
    cases notDigit
  have plainOperator : Plain operator.toList := (bare_of_operator (congrArg Form.operator isForm)).2
  rw [toList_expression, isForm, Form.chars]
  constructor
  · simp [plain.1, plainOperator.1, digits '(' (by decide)]
  · simp [plain.2, plainOperator.2, digits ')' (by decide)]

omit plain in
/-- The expression of a connective is balanced if those of its operands are. -/
theorem closed_of_connective {operator : String} {left right : Constraint}
    (isForm : first.form = .connective operator left right)
    (closedLeft : Closed (left.expression label).toList)
    (closedRight : Closed (right.expression label).toList) :
    Closed (first.expression label).toList := by
  have plainOperator : Plain operator.toList := (bare_of_operator (congrArg Form.operator isForm)).2
  have between : Plain (' ' :: (operator.toList ++ [' '])) := by
    constructor
    · simp [plainOperator.1]
    · simp [plainOperator.2]
  have parts := (closedLeft.enclose.append between.closed).append closedRight.enclose
  rw [toList_expression, isForm, Form.chars]
  simpa using parts

/-- Expressions are balanced, if the label is plain. The induction follows the constraint. -/
theorem closed_expression (constraint : Constraint) :
    Closed (constraint.expression label).toList := by
  induction constraint with
  | lessThan time | lessThanEqual time | equal time | notEqual time | greaterThan time
  | greaterThanEqual time =>
      exact (plain_of_comparison plain rfl).closed
  | and left right inLeft inRight | or left right inLeft inRight
  | implies left right inLeft inRight =>
      exact closed_of_connective rfl inLeft inRight
  | not inner inInner =>
      rw [toList_expression, form, Form.chars]
      have mark : Plain ['!'] := ⟨by decide, by decide⟩
      exact mark.closed.append inInner.enclose

/-- What is written like a comparison is the same comparison: neither a connective nor a negation
can be mistaken for it. -/
theorem form_of_comparison {operator : String} {time : Time}
    (isForm : first.form = .comparison operator time)
    (same : first.expression label = second.expression label) : second.form = first.form := by
  have plainText := plain_of_comparison plain isForm
  rw [same, toList_expression] at plainText
  have chars := chars_eq_of_expression same
  have bare : Bare operator := bare_of_operator (congrArg Form.operator isForm)
  rw [isForm] at chars ⊢
  cases isForm' : second.form with
  | comparison operator' time' =>
      have bare' : Bare operator' := bare_of_operator (congrArg Form.operator isForm')
      rw [isForm'] at chars
      have after := (List.cons.inj (List.append_cancel_left chars)).2
      obtain ⟨sameOperator, sameDigits⟩ := eq_of_append_separator bare.1 bare'.1 after
      have sameTime : time.toNat = time'.toNat := by
        calc
          time.toNat = Nat.ofDigitChars 10 (Nat.toDigits 10 time.toNat) 0 :=
            Nat.ofDigitChars_ten_toDigits.symm
          _ = Nat.ofDigitChars 10 (Nat.toDigits 10 time'.toNat) 0 := by rw [sameDigits]
          _ = time'.toNat := Nat.ofDigitChars_ten_toDigits
      rw [String.toList_inj.mp sameOperator, UInt64.toNat_inj.mp sameTime]
  | connective operator' left right | negation inner =>
      -- Every other form has a parenthesis.
      rw [isForm'] at plainText
      exact absurd plainText.1 (by simp [Form.chars, enclose])

/-- What is written like a connective is a connective with the same operator, and the operands are
written alike. They end where their parentheses close. -/
theorem form_of_connective {operator : String} {left right : Constraint}
    (isForm : first.form = .connective operator left right)
    (same : first.expression label = second.expression label) :
    ∃ left' right', second.form = .connective operator left' right' ∧
      left.expression label = left'.expression label ∧
      right.expression label = right'.expression label := by
  have chars := chars_eq_of_expression same
  have bare : Bare operator := bare_of_operator (congrArg Form.operator isForm)
  rw [isForm] at chars
  cases isForm' : second.form with
  | comparison operator' time =>
      have sameForm := form_of_comparison plain isForm' same.symm
      rw [isForm, isForm'] at sameForm
      cases sameForm
  | connective operator' left' right' =>
      have bare' : Bare operator' := bare_of_operator (congrArg Form.operator isForm')
      rw [isForm'] at chars
      -- The left operand ends at its parenthesis, the connective at the blank after it.
      obtain ⟨sameLeft, after⟩ := (closed_expression plain left).eq_of_enclose
        (closed_expression plain left') chars
      obtain ⟨sameOperator, onRight⟩ :=
        eq_of_append_separator bare.1 bare'.1 (List.cons.inj after).2
      have sameRight := Parentheses.enclose_inj.mp onRight
      rw [String.toList_inj.mp sameOperator]
      exact ⟨left', right', rfl, String.toList_inj.mp sameLeft, String.toList_inj.mp sameRight⟩
  | negation inner =>
      rw [isForm'] at chars
      cases (List.cons.inj chars).1

/-- What is written like a negation is a negation, and the operands are written alike. -/
theorem form_of_negation {inner : Constraint} (isForm : first.form = .negation inner)
    (same : first.expression label = second.expression label) :
    ∃ inner', second.form = .negation inner' ∧
      inner.expression label = inner'.expression label := by
  have chars := chars_eq_of_expression same
  rw [isForm] at chars
  cases isForm' : second.form with
  | comparison operator time =>
      have sameForm := form_of_comparison plain isForm' same.symm
      rw [isForm, isForm'] at sameForm
      cases sameForm
  | connective operator left right =>
      rw [isForm'] at chars
      cases (List.cons.inj chars).1
  | negation inner' =>
      rw [isForm'] at chars
      have sameInner := Parentheses.enclose_inj.mp (List.cons.inj chars).2
      exact ⟨inner', rfl, String.toList_inj.mp sameInner⟩

/-- Constraints with one expression are equal, by induction on the first. -/
theorem eq_of_expression (same : first.expression label = second.expression label) :
    first = second := by
  induction first generalizing second with
  | lessThan time | lessThanEqual time | equal time | notEqual time | greaterThan time
  | greaterThanEqual time =>
      exact form_injective (form_of_comparison plain rfl same).symm
  | and left right inLeft inRight | or left right inLeft inRight
  | implies left right inLeft inRight =>
      obtain ⟨left', right', isForm, sameLeft, sameRight⟩ := form_of_connective plain rfl same
      cases inLeft sameLeft
      cases inRight sameRight
      exact form_injective isForm.symm
  | not inner inInner =>
      obtain ⟨inner', isForm, sameInner⟩ := form_of_negation plain rfl same
      cases inInner sameInner
      exact form_injective isForm.symm

end Plain

/-- **Expressions are unambiguous.** Over a clock whose label has no parenthesis, constraints are
written alike exactly if they are the same. -/
theorem expression_eq_iff {label : String} (notOpen : '(' ∉ label.toList)
    (notClose : ')' ∉ label.toList) (first second : Constraint) :
    first.expression label = second.expression label ↔ first = second :=
  ⟨eq_of_expression ⟨notOpen, notClose⟩, fun same => same ▸ rfl⟩

/-- A label with an operator in it does not make two nestings of three comparisons look the same. -/
theorem nested_expression_ne : '(' ∉ "fsm && x".toList ∧ ')' ∉ "fsm && x".toList ∧
    (Constraint.and (.or (.lessThan 1) (.equal 2)) (.equal 3)).expression "fsm && x" ≠
      (Constraint.or (.lessThan 1) (.and (.equal 2) (.equal 3))).expression "fsm && x" := by
  have notOpen : '(' ∉ "fsm && x".toList := by decide
  have notClose : ')' ∉ "fsm && x".toList := by decide
  refine ⟨notOpen, notClose, fun same => ?_⟩
  cases (expression_eq_iff notOpen notClose _ _).mp same

end Constraint

end TimedKripke
