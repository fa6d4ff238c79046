import FlatScript.Proofs.Rule
import FlatScript.Proofs.Writing.Numbers

/-!
# The words of an expression in print

An expression is written as a text, and the text is scanned as words. `Printer.exprWords` gives
these words directly, from the expression, and `Printer.written_expr` says that they are the right
ones: in front of any text at which a name ends, the scanner finds exactly them.

The only thing asked of the expression is that its names and strings are tokens
(`FlatScript.legible`).
-/

namespace FlatScript

/-! ### Operators as words -/

/-- The token of a binary operator. -/
def BinaryOp.token : BinaryOp → TokenKind
  | concat => .sign .amp
  | or => .keyword .orKw
  | xor => .keyword .xorKw
  | and => .keyword .andKw
  | equal => .sign .equal
  | notEqual => .sign .notEqual
  | less => .sign .less
  | greater => .sign .greater
  | lessEqual => .sign .lessEqual
  | greaterEqual => .sign .greaterEqual
  | bitOr => .sign .bitOr
  | bitXor => .sign .bitXor
  | bitAnd => .sign .bitAnd
  | add => .sign .plus
  | sub => .sign .minus
  | mul => .sign .star
  | div => .sign .slash
  | mod => .keyword .modKw

/-- A binary operator as a word. -/
def BinaryOp.word (op : BinaryOp) : Word := ⟨op.token, op.spelling⟩

@[simp] theorem BinaryOp.ofToken?_token (op : BinaryOp) : ofToken? op.token = some op := by
  cases op <;> rfl

/-- The token of a prefix operator. -/
def UnaryOp.token : UnaryOp → TokenKind
  | neg => .sign .minus
  | not => .keyword .notKw
  | bitNot => .sign .bitNot

/-- A prefix operator as a word. -/
def UnaryOp.word (op : UnaryOp) : Word := ⟨op.token, op.spelling⟩

@[simp] theorem UnaryOp.ofToken?_token (op : UnaryOp) : ofToken? op.token = some op := by
  cases op <;> rfl

/-! ### Expressions as words -/

/-- **The names and strings are tokens**, and no text is passed on as it is. -/
def legible : Rule where
  expr
    | .str raw _ => IsToken .string raw
    | .var i _ _ => IsToken .identifier i.full
    | .call name _ _ _ _ => IsToken .identifier name.full
    | .raw _ _ => False
    | _ => True
  stmt _ := True
  list _ := True
  skips _ := false
  atom _ _ _ := False

namespace Printer

/-- A number as words: the minus is a word of its own. -/
def signedWords (kind : TokenKind) : List Char → List Word
  | '-' :: digits => [Sign.minus.word, ⟨kind, String.ofList digits⟩]
  | digits => [⟨kind, String.ofList digits⟩]

/-- An integer as words. -/
def intWords (value : Int32) : List Word :=
  if value = Int32.minValue then [⟨.hex, leastInt⟩] else signedWords .int (int value).toList

/-- A real number as words. -/
def realWords (value : Decimal) : List Word := signedWords .real (real value).toList

/-- Words in parentheses, when `needed` holds of the precedence of their expression. -/
def enclosed (needed : Nat → Bool) (e : Expr) (ws : List Word) : List Word :=
  match precedence? e with
  | some p => if needed p then Sign.leftParen.word :: (ws ++ [Sign.rightParen.word]) else ws
  | none => ws

/-- Words with commas between them. -/
def commaWords (wss : List (List Word)) : List Word := [Sign.comma.word].intercalate wss

/-- A truth value as words. -/
def boolWords (value : Bool) : List Word :=
  [⟨.int, "9"⟩, Sign.equal.word, ⟨.int, if value then "9" else "0"⟩]

mutual

/-- **The words of an expression.** -/
def exprWords (b : Builtins) : Expr → List Word
  | .binary op left right _ =>
    enclosed (· < op.precedence) left (exprWords b left) ++
      op.word :: enclosed (· ≤ op.precedence) right (exprWords b right)
  | .unary op operand _ =>
    if op = .neg ∧ operand.isInt Int32.minValue then [⟨.hex, leastInt⟩]
    else if isUnary operand then op.word :: exprWords b operand
    else op.word :: enclosed (fun _ => true) operand (exprWords b operand)
  | .int value _ => intWords value
  | .real value _ => realWords value
  | .str raw _ => [⟨.string, raw⟩]
  | .bool value _ => boolWords value
  | .var ident subscripts _ =>
    ⟨.identifier, ident.full⟩ ::
      if subscripts.isEmpty then []
      else Sign.leftBracket.word :: (commaWords (exprsWords b subscripts) ++
        [Sign.rightBracket.word])
  | .call name args isProcedure usingCall _ =>
    (if usingCall then [Keyword.callKw.word] else []) ++ ⟨.identifier, name.full⟩ ::
      if hasParentheses b name (!args.isEmpty) isProcedure then
        Sign.leftParen.word :: (commaWords (exprsWords b args) ++ [Sign.rightParen.word])
      else []
  | .raw _ _ => []

/-- The words of expressions. -/
def exprsWords (b : Builtins) : List Expr → List (List Word)
  | [] => []
  | e :: es => exprWords b e :: exprsWords b es

end

/-! ### Texts in front of other texts -/

open Scan

/-- Whether an operand may start with a character. -/
def startsOperand (c : Char) : Bool :=
  continuesName c || (Sigil.ofChar? c).isSome || ['"', '\'', '(', '-', '.'].contains c

/-- **A text is written as words**: it starts as an operand does, and the scanner finds the words
in front of every other text at which a name ends. -/
structure Written (text : List Char) (ws : List Word) : Prop where
  opens : ∃ c rest, text = c :: rest ∧ startsOperand c = true
  lexed : ∀ ⦃cs ws'⦄, Boundary cs → Lexed true cs ws' →
    ∀ lineOpen, Lexed lineOpen (text ++ cs) (ws ++ ws')

section Written

variable {text : List Char} {ws ws' : List Word} {cs : List Char}

theorem Written.head (h : Written text ws) (cs : List Char) :
    ∃ c, (text ++ cs).head? = some c ∧ startsOperand c = true := by
  obtain ⟨c, rest, rfl, hc⟩ := h.opens
  exact ⟨c, rfl, hc⟩

theorem Written.head_ne_mark (h : Written text ws) : (text ++ cs).head? ≠ some '\ufeff' := by
  obtain ⟨c, hc, hstart⟩ := h.head cs
  rw [hc]
  rintro ⟨⟩
  cases hstart

/-- No operand makes something else of the sign in front of it. -/
theorem Written.not_joins (h : Written text ws) (s : Sign) :
    ∀ c ∈ (text ++ cs).head?, c ∉ joins s := by
  obtain ⟨c, hc, hstart⟩ := h.head cs
  rw [hc]
  rintro _ ⟨⟩
  exact notMem_of_class hstart (by cases s <;> decide)

/-- A text in parentheses. -/
theorem Written.paren (h : Written text ws) :
    Written ('(' :: (text ++ [')'])) (Sign.leftParen.word :: (ws ++ [Sign.rightParen.word])) := by
  refine ⟨⟨_, _, rfl, rfl⟩, fun cs ws' hcs hlex lineOpen => ?_⟩
  have hclose : Lexed true (')' :: cs) (Sign.rightParen.word :: ws') :=
    .sign .rightParen (by simp [joins]) hlex true
  have hinner := h.lexed (boundary_cons.mpr (by decide)) hclose true
  have hopen := Lexed.sign .leftParen (by simp [joins]) hinner lineOpen
  simpa [Sign.spelling] using hopen

/-- The operand of an operator, in parentheses or not. -/
theorem Written.enclosed {e : Expr} {text : String} (h : Written text.toList ws)
    (needed : Nat → Bool) :
    Written (parenthesized needed e text).toList (Printer.enclosed needed e ws) := by
  unfold parenthesized Printer.enclosed
  cases precedence? e with
  | none => exact h
  | some p =>
    by_cases hp : needed p = true
    · simp only [if_pos hp]
      simpa using h.paren
    · simpa only [if_neg hp] using h

theorem lexed_binaryOp (op : BinaryOp) (hcs : ∀ s, ∀ c ∈ cs.head?, c ∉ joins s)
    (hboundary : op.isTight = false → Boundary cs) (h : Lexed true cs ws) (lineOpen : Bool) :
    Lexed lineOpen (op.spelling.toList ++ cs) (op.word :: ws) := by
  cases op
  case or => exact .keyword .orKw (hboundary rfl) h lineOpen
  case xor => exact .keyword .xorKw (hboundary rfl) h lineOpen
  case and => exact .keyword .andKw (hboundary rfl) h lineOpen
  case mod => exact .keyword .modKw (hboundary rfl) h lineOpen
  case concat => exact .sign .amp (hcs _) h lineOpen
  case equal => exact .sign .equal (hcs _) h lineOpen
  case notEqual => exact .sign .notEqual (hcs _) h lineOpen
  case less => exact .sign .less (hcs _) h lineOpen
  case greater => exact .sign .greater (hcs _) h lineOpen
  case lessEqual => exact .sign .lessEqual (hcs _) h lineOpen
  case greaterEqual => exact .sign .greaterEqual (hcs _) h lineOpen
  case bitOr => exact .sign .bitOr (hcs _) h lineOpen
  case bitXor => exact .sign .bitXor (hcs _) h lineOpen
  case bitAnd => exact .sign .bitAnd (hcs _) h lineOpen
  case add => exact .sign .plus (hcs _) h lineOpen
  case sub => exact .sign .minus (hcs _) h lineOpen
  case mul => exact .sign .star (hcs _) h lineOpen
  case div => exact .sign .slash (hcs _) h lineOpen

theorem boundary_blank : Boundary (' ' :: cs) := boundary_cons.mpr (by decide)

/-- Two operands with an operator between them. -/
theorem Written.infixed {left right : String} (op : BinaryOp) (hleft : Written left.toList ws)
    (hright : Written right.toList ws') :
    Written (Printer.infixed op left right).toList (ws ++ op.word :: ws') := by
  obtain ⟨c, rest, hopens, hc⟩ := hleft.opens
  unfold Printer.infixed
  by_cases htight : op.isTight = true
  · simp only [if_pos htight, String.toList_append]
    refine ⟨⟨c, _, by rw [hopens]; rfl, hc⟩, fun cs vs hcs hlex lineOpen => ?_⟩
    have hop := lexed_binaryOp op (fun s => hright.not_joins s) (by simp [htight])
      (hright.lexed hcs hlex true) true
    have hbound : Boundary (op.spelling.toList ++ (right.toList ++ cs)) := by
      cases op <;> first | exact boundary_cons.mpr (by decide) | cases htight
    have hall := hleft.lexed hbound hop lineOpen
    simpa [List.append_assoc] using hall
  · simp only [if_neg htight, String.toList_append]
    refine ⟨⟨c, _, by rw [hopens]; rfl, hc⟩, fun cs vs hcs hlex lineOpen => ?_⟩
    have hblank : Lexed true (' ' :: (right.toList ++ cs)) (ws' ++ vs) :=
      .blank hright.head_ne_mark (hright.lexed hcs hlex true)
    have hop := lexed_binaryOp op (by rintro s _ ⟨⟩; cases s <;> decide)
      (fun _ => boundary_blank) hblank true
    have hhead : (op.spelling.toList ++ ' ' :: (right.toList ++ cs)).head? ≠ some '\ufeff' := by
      cases op <;> simp [BinaryOp.spelling]
    have hall := hleft.lexed boundary_blank (.blank hhead hop) lineOpen
    simpa [List.append_assoc] using hall

/-- An operand with an operator in front of it. -/
theorem Written.prefixed {operand : String} (op : UnaryOp) (h : Written operand.toList ws) :
    Written (Printer.prefixed op operand).toList (op.word :: ws) := by
  have hblank : ∀ {cs vs}, Boundary cs → Lexed true cs vs →
      Lexed true (' ' :: (operand.toList ++ cs)) (ws ++ vs) :=
    fun hcs hlex => .blank h.head_ne_mark (h.lexed hcs hlex true)
  cases op with
  | neg =>
    have htext : (Printer.prefixed .neg operand).toList =
        Sign.minus.spelling.toList ++ operand.toList :=
      String.toList_append
    rw [htext]
    refine ⟨⟨_, _, rfl, rfl⟩, fun cs vs hcs hlex lineOpen => ?_⟩
    rw [List.append_assoc]
    exact .sign .minus (h.not_joins _) (h.lexed hcs hlex true) lineOpen
  | not =>
    have htext : (Printer.prefixed .not operand).toList =
        Keyword.notKw.spelling.toList ++ ' ' :: operand.toList := by
      simp [Printer.prefixed]
      rfl
    rw [htext]
    refine ⟨⟨_, _, rfl, rfl⟩, fun cs vs hcs hlex lineOpen => ?_⟩
    rw [List.append_assoc]
    exact .keyword .notKw boundary_blank (hblank hcs hlex) lineOpen
  | bitNot =>
    have htext : (Printer.prefixed .bitNot operand).toList =
        Sign.bitNot.spelling.toList ++ ' ' :: operand.toList := by
      simp [Printer.prefixed]
      rfl
    rw [htext]
    refine ⟨⟨_, _, rfl, rfl⟩, fun cs vs hcs hlex lineOpen => ?_⟩
    rw [List.append_assoc]
    exact .sign .bitNot (by simp [joins]) (hblank hcs hlex) lineOpen

/-! ### Names, strings and numbers -/

theorem Written.name {name : String} (h : IsToken .identifier name) :
    Written name.toList [⟨.identifier, name⟩] := by
  have hlexeme := h.isLexeme (.inl rfl)
  refine ⟨?_, fun cs vs hcs hlex lineOpen => ?_⟩
  · obtain ⟨first, rest, hname, hlex⟩ := hlexeme
    have hstart : startsWord first rest = true := startsWord_of_kind (by rw [hlex])
    refine ⟨first, rest, hname, ?_⟩
    simp only [startsWord, Bool.or_eq_true, Bool.and_eq_true] at hstart
    simp only [startsOperand, continuesName, Bool.or_eq_true]
    rcases hstart with h | ⟨h, -⟩
    · exact .inl (.inl (.inl h))
    · exact .inl (.inr h)
  · have hword := Lexed.word (spells_identifier hlexeme hcs) hlex lineOpen
    rwa [String.ofList_toList] at hword

theorem Written.string {raw : String} (h : IsToken .string raw) :
    Written raw.toList [⟨.string, raw⟩] := by
  have hlexeme := h.isLexeme (.inr rfl)
  refine ⟨?_, fun cs vs hcs hlex lineOpen => ?_⟩
  · obtain ⟨first, rest, hraw, hlex⟩ := hlexeme
    refine ⟨first, rest, hraw, ?_⟩
    obtain ⟨rfl | rfl, -⟩ := lexeme_eq_string (by rw [hlex]) <;> rfl
  · have hword := Lexed.word hlexeme.spells_string hlex lineOpen
    rwa [String.ofList_toList] at hword

/-- A number that starts with a digit. -/
theorem Written.number {digits : List Char} {kind : TokenKind}
    (hhead : ∃ d rest, digits = d :: rest ∧ isDigit d = true)
    (h : ∀ ⦃cs⦄, Boundary cs → Spells digits kind cs) :
    Written digits [⟨kind, String.ofList digits⟩] := by
  obtain ⟨d, rest, rfl, hd⟩ := hhead
  refine ⟨⟨d, rest, rfl, ?_⟩, fun cs vs hcs hlex => .word (h hcs) hlex⟩
  simp [startsOperand, continuesName, hd]

theorem Written.minus (h : Written text ws) : Written ('-' :: text) (Sign.minus.word :: ws) :=
  ⟨⟨'-', text, rfl, rfl⟩, fun _ _ hcs hlex => .sign .minus (h.not_joins _) (h.lexed hcs hlex true)⟩

/-- Digits with a minus in front or without one. -/
theorem Written.signed {digits : List Char} {kind : TokenKind} {negative : Bool}
    (hhead : ∃ d rest, digits = d :: rest ∧ isDigit d = true)
    (h : ∀ ⦃cs⦄, Boundary cs → Spells digits kind cs)
    (htext : text = if negative then '-' :: digits else digits) :
    Written text (signedWords kind text) := by
  have hdigits := Written.number hhead h
  cases negative with
  | true =>
    rw [htext]
    exact hdigits.minus
  | false =>
    obtain ⟨d, rest, rfl, hd⟩ := hhead
    have hd' : d ≠ '-' := by rintro rfl; cases hd
    rw [htext]
    simpa [signedWords, hd'] using hdigits

theorem int_toList {value : Int32} (h : value ≠ Int32.minValue) :
    (int value).toList = if decide (value.toInt < 0) then '-' :: value.toInt.natAbs.repr.toList
      else value.toInt.natAbs.repr.toList := by
  rw [int, if_neg h, Int.toString_eq_repr, Int.repr_eq_if]
  by_cases hneg : value.toInt < 0
  · have habs : (-value.toInt).toNat = value.toInt.natAbs := by omega
    rw [if_neg (by omega), if_pos (by simpa using hneg), habs, String.toList_append]
    rfl
  · have habs : value.toInt.toNat = value.toInt.natAbs := by omega
    rw [if_pos (by omega), if_neg (by simpa using hneg), habs]

theorem repr_head (n : Nat) : ∃ d rest, n.repr.toList = d :: rest ∧ isDigit d = true := by
  rw [Nat.toList_repr]
  obtain ⟨d, rest, hd⟩ := List.exists_cons_of_ne_nil (Nat.toDigits_ne_nil (b := 10) (n := n))
  exact ⟨d, rest, hd, toDigits_isDigit n d (by simp [hd])⟩

theorem spells_repr (n : Nat) : ∀ ⦃cs⦄, Boundary cs → Spells n.repr.toList .int cs := by
  intro cs hcs
  rw [Nat.toList_repr]
  exact spells_int (toDigits_isDigit n) Nat.toDigits_ne_nil hcs

theorem Written.int (value : Int32) : Written (Printer.int value).toList (intWords value) := by
  unfold intWords
  by_cases h : value = Int32.minValue
  · subst h
    exact .number ⟨'0', _, rfl, rfl⟩ fun cs hcs => spells_leastInt hcs
  · rw [if_neg h]
    exact .signed (repr_head _) (spells_repr _) (int_toList h)

theorem Written.real (value : Decimal) : Written (Printer.real value).toList (realWords value) := by
  obtain ⟨text, v, ⟨⟨ds, es, rfl, hds, hes, hds', hes'⟩, -⟩, htext, -⟩ := value.exists_literal
  refine .signed ?_ (fun cs hcs => spells_real hds' hds hes' hes hcs) htext
  obtain ⟨d, rest, rfl⟩ := List.exists_cons_of_ne_nil hds
  exact ⟨d, _, rfl, hds' d (by simp)⟩

/-! ### Lists -/

/-- Texts with commas between them. -/
theorem Written.commas {texts : List String} {wss : List (List Word)}
    (h : List.Forall₂ (fun text ws => Written text.toList ws) texts wss) (hne : texts ≠ []) :
    Written (Printer.commas texts).toList (commaWords wss) := by
  induction h with
  | nil => exact absurd rfl hne
  | @cons t ws ts wss ht hts ih =>
    cases hts with
    | nil => simpa [Printer.commas, commaWords] using ht
    | @cons t' ws' ts wss ht' hts =>
      have hrest := ih (List.cons_ne_nil _ _)
      have htext : (Printer.commas (t :: t' :: ts)).toList =
          t.toList ++ (Sign.comma.spelling.toList ++ ' ' :: (Printer.commas (t' :: ts)).toList) := by
        simp [Printer.commas, String.intercalate_cons_cons]
        rfl
      obtain ⟨c, rest, hc, hstart⟩ := ht.opens
      rw [htext]
      refine ⟨⟨c, _, by rw [hc]; rfl, hstart⟩, fun cs vs hcs hlex lineOpen => ?_⟩
      have hblank : Lexed true (' ' :: ((Printer.commas (t' :: ts)).toList ++ cs))
          (commaWords (ws' :: wss) ++ vs) :=
        .blank hrest.head_ne_mark (hrest.lexed hcs hlex true)
      have hcomma := Lexed.sign .comma (by simp [joins]) hblank true
      have hbound : Boundary (Sign.comma.spelling.toList ++
          ' ' :: ((Printer.commas (t' :: ts)).toList ++ cs)) := boundary_cons.mpr (by decide)
      have hall := ht.lexed hbound hcomma lineOpen
      simpa [commaWords, List.intercalate_cons_cons] using hall

/-- Texts with commas between them, in parentheses or brackets. -/
theorem lexed_list {texts : List String} {wss : List (List Word)} {o c : Sign}
    (h : List.Forall₂ (fun text ws => Written text.toList ws) texts wss) (ho : joins o = [])
    (hc : joins c = []) (hboundary : Boundary (c.spelling.toList ++ cs)) (hlex : Lexed true cs ws)
    (lineOpen : Bool) :
    Lexed lineOpen (o.spelling.toList ++ ((Printer.commas texts).toList ++ (c.spelling.toList ++ cs)))
      (o.word :: (commaWords wss ++ c.word :: ws)) := by
  have hclose : Lexed true (c.spelling.toList ++ cs) (c.word :: ws) := .sign c (by simp [hc]) hlex true
  refine .sign o (by simp [ho]) ?_ lineOpen
  by_cases hne : texts = []
  · subst hne
    cases h
    simpa [Printer.commas, commaWords] using hclose
  · exact (Written.commas h hne).lexed hboundary hclose true

theorem Written.digit {d : Char} (h : isDigit d = true) : Written [d] [⟨.int, String.ofList [d]⟩] :=
  .number ⟨d, [], rfl, h⟩ fun _ hcs => spells_int (by simpa using h) (by simp) hcs

/-- A truth value is written as a comparison. -/
theorem Written.bool (value : Bool) :
    Written (if value then "9=9" else "9=0").toList (boolWords value) := by
  have hnine : Written "9".toList [⟨.int, "9"⟩] := .digit rfl
  have hzero : Written "0".toList [⟨.int, "0"⟩] := .digit rfl
  cases value
  · exact hnine.infixed .equal hzero
  · exact hnine.infixed .equal hnine

/-- A list in parentheses or brackets behind something else. -/
theorem Written.withList {texts : List String} {wss : List (List Word)} {name : String}
    (hname : Written name.toList ws) {o c : Sign}
    (h : List.Forall₂ (fun text ws => Written text.toList ws) texts wss) (ho : joins o = [])
    (hc : joins c = []) (hbounds : ∀ cs, Boundary (o.spelling.toList ++ cs))
    (hbounds' : ∀ cs, Boundary (c.spelling.toList ++ cs)) :
    Written (name ++ (o.spelling ++ (Printer.commas texts ++ c.spelling))).toList
      (ws ++ o.word :: (commaWords wss ++ [c.word])) := by
  obtain ⟨d, rest, hd, hstart⟩ := hname.opens
  simp only [String.toList_append]
  refine ⟨⟨d, _, by rw [hd]; rfl, hstart⟩, fun cs vs hcs hlex lineOpen => ?_⟩
  have hall := hname.lexed (hbounds _) (lexed_list h ho hc (hbounds' cs) hlex true) lineOpen
  simpa only [List.append_assoc, List.cons_append, List.nil_append] using hall

/-- A reference with its subscripts. -/
theorem Written.var {b : Builtins} {ident : Ident} {subscripts : List Expr} {span : Span}
    (h : IsToken .identifier ident.full)
    (hsubs : List.Forall₂ (fun text ws => Written text.toList ws) (exprs b subscripts)
      (exprsWords b subscripts)) :
    Written (expr b (.var ident subscripts span)).toList
      (exprWords b (.var ident subscripts span)) := by
  have hname := Written.name h
  simp only [expr, exprWords]
  by_cases hempty : subscripts.isEmpty = true
  · simpa only [if_pos hempty] using hname
  · simp only [if_neg hempty, String.append_assoc]
    exact hname.withList (o := .leftBracket) (c := .rightBracket) hsubs rfl rfl
      (fun _ => boundary_cons.mpr (by decide)) fun _ => boundary_cons.mpr (by decide)

/-- Something behind the keyword `call`. -/
theorem Written.withCall {t : String} (h : Written t.toList ws) :
    Written ("call " ++ t).toList (Keyword.callKw.word :: ws) := by
  have htext : ("call " ++ t).toList = Keyword.callKw.spelling.toList ++ ' ' :: t.toList :=
    String.toList_append
  rw [htext]
  refine ⟨⟨_, _, rfl, rfl⟩, fun cs vs hcs hlex lineOpen => ?_⟩
  rw [List.append_assoc]
  exact .keyword .callKw boundary_blank (.blank h.head_ne_mark (h.lexed hcs hlex true)) lineOpen

/-- A call with its arguments. -/
theorem Written.call {b : Builtins} {name : Ident} {args : List Expr} {isProcedure usingCall : Bool}
    {span : Span} (h : IsToken .identifier name.full)
    (hargs : List.Forall₂ (fun text ws => Written text.toList ws) (exprs b args)
      (exprsWords b args)) :
    Written (expr b (.call name args isProcedure usingCall span)).toList
      (exprWords b (.call name args isProcedure usingCall span)) := by
  have hname := Written.name h
  have hcall : Written (name.full ++ if hasParentheses b name (!args.isEmpty) isProcedure then
      "(" ++ (Printer.commas (exprs b args) ++ ")") else "").toList
      (⟨.identifier, name.full⟩ :: if hasParentheses b name (!args.isEmpty) isProcedure then
        Sign.leftParen.word :: (commaWords (exprsWords b args) ++ [Sign.rightParen.word]) else []) := by
    by_cases hparens : hasParentheses b name (!args.isEmpty) isProcedure = true
    · simp only [if_pos hparens]
      exact hname.withList (o := .leftParen) (c := .rightParen) hargs rfl rfl
        (fun _ => boundary_cons.mpr (by decide)) fun _ => boundary_cons.mpr (by decide)
    · simpa only [if_neg hparens, String.append_empty] using hname
  simp only [expr, exprWords, String.append_assoc]
  cases usingCall with
  | true => exact hcall.withCall
  | false => simpa only [Bool.false_eq_true, if_false, String.empty_append, List.nil_append] using hcall

end Written

/-! ### Expressions -/

mutual

/-- **An expression is written as its words.** -/
theorem written_expr (b : Builtins) :
    ∀ {e : Expr}, e.Meets legible → Written (expr b e).toList (exprWords b e)
  | .binary op left right _, .inr ⟨_, hleft, hright⟩ =>
    ((written_expr b hleft).enclosed _).infixed op ((written_expr b hright).enclosed _)
  | .unary op operand _, ⟨_, h⟩ => by
    have ih := written_expr b h
    simp only [expr, exprWords]
    split
    · exact .number ⟨'0', _, rfl, rfl⟩ fun cs hcs => spells_leastInt hcs
    · split
      · exact ih.prefixed op
      · exact (ih.enclosed _).prefixed op
  | .int value _, _ => .int value
  | .real value _, _ => .real value
  | .str raw _, h => .string h
  | .bool value _, _ => .bool value
  | .var ident subscripts _, ⟨h, hsubs⟩ => .var h (written_exprs b hsubs)
  | .call name args isProcedure usingCall _, ⟨h, hargs⟩ =>
    .call h (written_exprs b (argsMeet_false.mp hargs))

theorem written_exprs (b : Builtins) : ∀ {es : List Expr}, exprsMeet legible es →
    List.Forall₂ (fun text ws => Written text.toList ws) (exprs b es) (exprsWords b es)
  | [], _ => .nil
  | _ :: _, ⟨h, hs⟩ => .cons (written_expr b h) (written_exprs b hs)

end

end Printer

end FlatScript
