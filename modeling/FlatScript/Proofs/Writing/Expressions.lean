import FlatScript.Proofs.Reading.Expression
import FlatScript.Proofs.Writing.Words

/-!
# Expressions read back from print

An expression is written with as few parentheses as precedence allows, and read with binding
powers. The two fit together: what is read back from the text of an expression is that expression,
in the form that a text can have.

A text has no negative numbers, only numbers behind a minus, and no truth values, only comparisons
that stand for them; `FlatScript.Expr.asWritten` says so. It also needs a prefix operator not to
stand right over a looser one, because the looser one would take what follows into its operand.

* `FlatScript.Printer.fits_expr`: the words of an expression are read as that expression, in
  front of anything that may follow it.
* `FlatScript.Printer.expr_read_back`: parsing the text of an expression gives it back.
-/

namespace FlatScript

/-! ### The form of an expression in print -/

mutual

/-- **The tree that an expression in print stands for**: a negative number is one behind a minus,
the least integer has no minus, and a truth value is a comparison. -/
def Expr.asWritten : Expr → Expr
  | .binary op left right _ => .binary op left.asWritten right.asWritten .zero
  | .unary op operand _ =>
    if op = .neg ∧ operand.isInt Int32.minValue then .int Int32.minValue .zero
    else .unary op operand.asWritten .zero
  | .int value _ =>
    if value < 0 ∧ value ≠ Int32.minValue then .unary .neg (.int (-value) .zero) .zero
    else .int value .zero
  | .real value _ =>
    if value.units < 0 then .unary .neg (.real value.neg .zero) .zero else .real value .zero
  | .str raw _ => .str raw .zero
  | .bool value _ =>
    .binary .equal (.int 9 .zero) (.int (if value then 9 else 0) .zero) .zero
  | .var ident subscripts _ => .var ident (exprsAsWritten subscripts) .zero
  | .call name args isProcedure usingCall _ =>
    .call name (exprsAsWritten args) isProcedure usingCall .zero
  | .raw text _ => .raw text .zero

/-- The trees that expressions in print stand for. -/
def exprsAsWritten : List Expr → List Expr
  | [] => []
  | e :: es => e.asWritten :: exprsAsWritten es

end

mutual

/-- **The same tree**, whatever the places are. Names are compared as they are spelled, and real
numbers by value. -/
def Expr.Same : Expr → Expr → Prop
  | .binary op left right _, .binary op' left' right' _ =>
    op = op' ∧ left.Same left' ∧ right.Same right'
  | .unary op operand _, .unary op' operand' _ => op = op' ∧ operand.Same operand'
  | .int value _, .int value' _ => value = value'
  | .real value _, .real value' _ => value.units = value'.units
  | .str raw _, .str raw' _ => raw = raw'
  | .bool value _, .bool value' _ => value = value'
  | .var ident subscripts _, .var ident' subscripts' _ =>
    ident.full = ident'.full ∧ exprsSame subscripts subscripts'
  | .call name args isProcedure usingCall _, .call name' args' isProcedure' usingCall' _ =>
    name.full = name'.full ∧ exprsSame args args' ∧ isProcedure = isProcedure' ∧
      usingCall = usingCall'
  | .raw text _, .raw text' _ => text = text'
  | _, _ => False

/-- The same trees. -/
def exprsSame : List Expr → List Expr → Prop
  | [], [] => True
  | e :: es, e' :: es' => e.Same e' ∧ exprsSame es es'
  | _, _ => False

end

mutual

theorem Expr.same_refl : ∀ e : Expr, e.Same e
  | .binary _ left right _ => ⟨rfl, left.same_refl, right.same_refl⟩
  | .unary _ operand _ => ⟨rfl, operand.same_refl⟩
  | .int _ _ | .real _ _ | .str _ _ | .bool _ _ | .raw _ _ => rfl
  | .var _ subscripts _ => ⟨rfl, exprsSame_refl subscripts⟩
  | .call _ args _ _ _ => ⟨rfl, exprsSame_refl args, rfl, rfl⟩

theorem exprsSame_refl : ∀ es : List Expr, exprsSame es es
  | [] => trivial
  | e :: es => ⟨e.same_refl, exprsSame_refl es⟩

end

mutual

/-- Places play no part. -/
theorem Expr.Same.of_bare : ∀ {x : Expr} (e : Expr), x.Same e.bare → x.Same e
  | x, .binary _ left right _, h => by
    cases x with
    | binary => exact ⟨h.1, .of_bare left h.2.1, .of_bare right h.2.2⟩
    | _ => exact h
  | x, .unary _ operand _, h => by
    cases x with
    | unary => exact ⟨h.1, .of_bare operand h.2⟩
    | _ => exact h
  | x, .var _ subscripts _, h => by
    cases x with
    | var => exact ⟨h.1, exprsSame_of_bare subscripts h.2⟩
    | _ => exact h
  | x, .call _ args _ _ _, h => by
    cases x with
    | call => exact ⟨h.1, exprsSame_of_bare args h.2.1, h.2.2⟩
    | _ => exact h
  | x, .int _ _, h | x, .real _ _, h | x, .str _ _, h | x, .bool _ _, h | x, .raw _ _, h => by
    cases x <;> exact h

theorem exprsSame_of_bare : ∀ {xs : List Expr} (es : List Expr), exprsSame xs (exprsBare es) →
    exprsSame xs es
  | [], [], _ => trivial
  | _ :: _, e :: es, h => ⟨.of_bare e h.1, exprsSame_of_bare es h.2⟩
  | _ :: _, [], h => h
  | [], _ :: _, h => h

end

/-- **An expression that can be read back**: its names and strings are tokens, its calls are no
statements, and no prefix operator stands right over a looser one. -/
def readable : Rule where
  expr
    | .unary op (.unary op' _ _) _ => op.precedence ≤ op'.precedence
    | .str raw _ => IsToken .string raw
    | .var i _ _ => IsToken .identifier i.full
    | .call name _ isProcedure _ _ => IsToken .identifier name.full ∧ isProcedure = false
    | .raw _ _ => False
    | _ => True
  stmt _ := True
  list _ := True
  skips _ := false
  atom _ _ _ := False

theorem readable_legible : readable.ImpliesExpr legible where
  expr e h := by
    cases e with
    | call => exact h.1
    | binary | unary | int | real | bool => trivial
    | str | var | raw => exact h
  skips _ h := h
  atom _ _ _ h := h

namespace Printer

/-! ### What may follow -/

/-- **A token may follow an expression in print**: an operator only if it does not bind tighter
than the expression. -/
structure Follows (e : Expr) (k : TokenKind) : Prop where
  paren : k ≠ .sign .leftParen
  bracket : k ≠ .sign .leftBracket
  operator : ∀ op, BinaryOp.ofToken? k = some op → ∀ q ∈ precedence? e, op.precedence ≤ q

/-- **Words are read as a tree** in front of everything that may follow the expression they are
the words of, where operators of its precedence are accepted. -/
def Fits (e : Expr) (ws : List Word) (tree : Expr) : Prop :=
  ∀ power ws' next out, (isUnary e = false → ∀ q ∈ precedence? e, power ≤ 2 * (q + 1)) →
    Follows e (nextKind ws' next) → Reads (.tail power tree) ws' next out →
      Reads (.whole power) (ws ++ ws') next out

theorem closes_follows {k : TokenKind} (h : k.Closes) (e : Expr) :
    Follows e k :=
  ⟨h.paren, h.bracket, fun op hop => by simp [h.operator] at hop⟩

section Fits

variable {e : Expr} {ws ws' : List Word} {tree : Expr} {k next : TokenKind} {out : List Expr}

theorem Fits.of_operand (h : ∀ ⦃k⦄, Follows e k → Reads .operand ws k [tree]) : Fits e ws tree :=
  fun _ _ _ _ _ hfollows htail => .whole (h hfollows) htail

/-- Nothing goes on with an expression in front of a closing token. -/
theorem Fits.closed (h : Fits e ws tree) (hk : k.Closes) : Reads (.whole 0) ws k [tree] := by
  have hread := h 0 [] k [tree] (by simp) (closes_follows hk e)
    (.stop fun op hop => by simp [hk.operator] at hop)
  rwa [List.append_nil] at hread

/-- In parentheses, an expression is an operand. -/
theorem Fits.paren (h : Fits e ws tree) :
    Reads .operand (Sign.leftParen.word :: (ws ++ [Sign.rightParen.word])) k [tree] :=
  .paren rfl rfl (h.closed (by decide))

/-! ### Operators and their operands -/

/-- An operand that stands in parentheses when its precedence asks for them. -/
theorem enclosed_cases (needed : Nat → Bool) (e : Expr) (ws : List Word) :
    (∃ q ∈ precedence? e, needed q = true ∧
        enclosed needed e ws = Sign.leftParen.word :: (ws ++ [Sign.rightParen.word])) ∨
      ((∀ q ∈ precedence? e, needed q = false) ∧ enclosed needed e ws = ws) := by
  unfold enclosed
  cases precedence? e with
  | none => exact .inr ⟨by simp, rfl⟩
  | some q =>
    by_cases hq : needed q = true
    · exact .inl ⟨q, rfl, hq, if_pos hq⟩
    · exact .inr ⟨by simpa using hq, if_neg hq⟩

/-- **A left operand is read up to its operator.** -/
theorem Fits.left (h : Fits e ws tree) {op : BinaryOp} {power : Nat}
    (hpower : power ≤ op.bindingPower) (htail : Reads (.tail power tree) (op.word :: ws') next out) :
    Reads (.whole power) (enclosed (· < op.precedence) e ws ++ op.word :: ws') next out := by
  rcases enclosed_cases (· < op.precedence) e ws with ⟨q, -, -, henclosed⟩ | ⟨hq, henclosed⟩
  · rw [henclosed]
    exact .whole h.paren htail
  · simp only [decide_eq_false_iff_not, Nat.not_lt] at hq
    rw [henclosed]
    refine h _ _ _ _ (fun _ q hmem => ?_) ⟨?_, ?_, fun op' hop' q hmem => ?_⟩ htail
    · have := hq q hmem
      simp only [BinaryOp.bindingPower] at hpower
      omega
    · cases op <;> simp [BinaryOp.word, BinaryOp.token]
    · cases op <;> simp [BinaryOp.word, BinaryOp.token]
    · rw [nextKind_cons, BinaryOp.word, BinaryOp.ofToken?_token] at hop'
      cases hop'
      exact hq q hmem

/-- **A right operand is read up to an operator that binds no tighter** than the one in front. -/
theorem Fits.right (h : Fits e ws tree) {op : BinaryOp} (e' : Expr)
    (hprecedence : precedence? e' = some op.precedence) (hfollows : Follows e' k) :
    Reads (.whole (op.bindingPower + 1)) (enclosed (· ≤ op.precedence) e ws) k [tree] := by
  have hstop : Reads (.tail (op.bindingPower + 1) tree) [] k [tree] := by
    refine .stop fun op' hop' => ?_
    have := hfollows.operator op' hop' _ hprecedence
    simp only [BinaryOp.bindingPower]
    omega
  rcases enclosed_cases (· ≤ op.precedence) e ws with ⟨q, -, -, henclosed⟩ | ⟨hq, henclosed⟩
  · rw [henclosed]
    have hread := Reads.whole (h.paren (k := nextKind [] k)) hstop
    rwa [List.append_nil] at hread
  · simp only [decide_eq_false_iff_not, Nat.not_le] at hq
    rw [henclosed]
    have hread := h (op.bindingPower + 1) [] k [tree]
      (fun _ q hmem => ?_) ⟨hfollows.paren, hfollows.bracket, fun op' hop' q hmem => ?_⟩ hstop
    · rwa [List.append_nil] at hread
    · have := hq q hmem
      simp only [BinaryOp.bindingPower]
      omega
    · exact (hfollows.operator op' hop' _ hprecedence).trans (hq q hmem).le

/-- No binary operator has the precedence of a prefix operator. -/
theorem precedence_ne (op : BinaryOp) (op' : UnaryOp) : op.precedence ≠ op'.precedence := by
  cases op <;> cases op' <;> decide

/-- What may follow a prefix operator and its operand does not go on with the operand. -/
theorem Follows.stops {op : UnaryOp} {e' : Expr} (hprecedence : precedence? e' = some op.precedence)
    (hfollows : Follows e' k) : Reads (.tail op.bindingPower tree) [] k [tree] := by
  refine .stop fun op' hop' => ?_
  have hle := hfollows.operator op' hop' _ hprecedence
  have hne := precedence_ne op' op
  simp only [BinaryOp.bindingPower, UnaryOp.bindingPower]
  omega

/-- The operand of a prefix operator, when it is no operation or stands in parentheses. -/
theorem Fits.prefixed (h : Fits e ws tree) {op : UnaryOp} (e' : Expr)
    (hprecedence : precedence? e' = some op.precedence) (hfollows : Follows e' k) :
    Reads .operand (op.word :: enclosed (fun _ => true) e ws) k [.unary op tree .zero] := by
  have hstop : Reads (.tail op.bindingPower tree) [] k [tree] := hfollows.stops hprecedence
  refine .prefixed (UnaryOp.ofToken?_token op) ?_
  rcases enclosed_cases (fun _ => true) e ws with ⟨q, -, -, henclosed⟩ | ⟨hq, henclosed⟩
  · rw [henclosed]
    have hread := Reads.whole (h.paren (k := nextKind [] k)) hstop
    rwa [List.append_nil] at hread
  · rw [henclosed]
    have hread := h op.bindingPower [] k [tree]
      (fun _ q hmem => by cases hq q hmem)
      ⟨hfollows.paren, hfollows.bracket, fun _ _ q hmem => by cases hq q hmem⟩ hstop
    rwa [List.append_nil] at hread

/-- The operand of a prefix operator, when it is a prefix operation that binds no looser. -/
theorem Fits.prefixed_unary (h : Fits e ws tree) {op op' : UnaryOp} (e' : Expr)
    (hunary : precedence? e = some op'.precedence) (hisUnary : isUnary e = true)
    (hle : op.precedence ≤ op'.precedence)
    (hprecedence : precedence? e' = some op.precedence) (hfollows : Follows e' k) :
    Reads .operand (op.word :: ws) k [.unary op tree .zero] := by
  refine .prefixed (UnaryOp.ofToken?_token op) ?_
  have hread := h op.bindingPower [] k [tree]
    (fun hnot => by rw [hisUnary] at hnot; cases hnot)
    ⟨hfollows.paren, hfollows.bracket, fun op₁ hop₁ q hq => ?_⟩ (hfollows.stops hprecedence)
  · rwa [List.append_nil] at hread
  · rw [hunary] at hq
    cases hq
    exact (hfollows.operator op₁ hop₁ _ hprecedence).trans hle

/-! ### Numbers -/

/-- Behind a minus stands a number. -/
theorem reads_minus {w : Word} {v : Expr} (h : ∀ k, Reads .operand [w] k [v]) :
    Reads .operand [Sign.minus.word, w] k [.unary .neg v .zero] := by
  have hstop : Reads (.tail UnaryOp.neg.bindingPower v) [] k [v] :=
    .stop fun op _ => by cases op <;> decide
  exact .prefixed rfl (Reads.whole (h k) hstop)

theorem reads_int {n : Nat} (h : n < Parser.literalBound) :
    Reads .operand [⟨.int, n.repr⟩] k [.int (Int32.ofInt n) .zero] := by
  have hvalue : Parser.literalValue TokenKind.int n.repr.toList = n := literalValue_repr n
  have hread : Reads .operand [⟨.int, n.repr⟩] k
      [.int (Int32.ofInt (Parser.literalValue TokenKind.int n.repr.toList)) .zero] :=
    .int (.inl rfl) (by rwa [hvalue])
  rwa [hvalue] at hread

theorem signedWords_repr (kind : TokenKind) (n : Nat) :
    signedWords kind n.repr.toList = [⟨kind, n.repr⟩] := by
  obtain ⟨d, rest, hd, hdigit⟩ := repr_head n
  have hne : d ≠ '-' := by rintro rfl; cases hdigit
  have hwords : signedWords kind n.repr.toList = [⟨kind, String.ofList n.repr.toList⟩] := by
    rw [hd]
    simp [signedWords, hne]
  rwa [String.ofList_toList] at hwords

/-- **An integer is read back**, a negative one behind a minus. -/
theorem reads_intWords (value : Int32) (span : Span) :
    Reads .operand (intWords value) k [Expr.asWritten (.int value span)] := by
  have hlower : -2147483648 ≤ value.toInt := value.minValue_le_toInt
  have hupper := value.toInt_lt
  have hlt : value < 0 ↔ value.toInt < 0 := by
    rw [Int32.lt_iff_toInt_lt]
    rfl
  simp only [intWords, Expr.asWritten, hlt]
  by_cases hmin : value = Int32.minValue
  · simp only [hmin, if_true, ne_eq, not_true, and_false, if_false]
    have hread : Reads .operand [⟨.hex, leastInt⟩] k
        [.int (Int32.ofInt (Parser.literalValue TokenKind.hex leastInt.toList)) .zero] :=
      .int (.inr rfl) (by rw [literalValue_leastInt]; decide)
    rwa [literalValue_leastInt] at hread
  · rw [if_neg hmin, int_toList hmin]
    have hbound : value.toInt.natAbs < Parser.literalBound := by
      simp only [Parser.literalBound]
      omega
    by_cases hneg : value.toInt < 0
    · have hvalue : Int32.ofInt value.toInt.natAbs = -value := by
        rw [show (value.toInt.natAbs : Int) = -value.toInt by omega, Int32.ofInt_neg,
          Int32.ofInt_toInt]
      rw [if_pos (by simpa using hneg), if_pos ⟨hneg, hmin⟩, ← hvalue]
      have hread := reads_minus (k := k) fun k => reads_int (k := k) hbound
      rwa [signedWords, String.ofList_toList]
    · have hvalue : Int32.ofInt value.toInt.natAbs = value := by
        rw [show (value.toInt.natAbs : Int) = value.toInt by omega, Int32.ofInt_toInt]
      rw [if_neg (by simpa using hneg), if_neg fun h => hneg h.1, signedWords_repr]
      nth_rewrite 2 [← hvalue]
      exact reads_int hbound

/-- **A real number is read back** with its value, a negative one behind a minus. -/
theorem reads_realWords (value : Decimal) (span : Span) :
    ∃ tree, (Expr.asWritten (.real value span)).Same tree ∧
      ∀ k, Reads .operand (realWords value) k [tree] := by
  obtain ⟨text, v, ⟨⟨ds, es, hdigits, hne, -, hds, -⟩, hliteral⟩, htext, hunits⟩ :=
    value.exists_literal
  have hreal : ∀ k, Reads .operand [⟨.real, String.ofList text⟩] k [.real v .zero] := fun k =>
    .real rfl (by rwa [String.toList_ofList])
  rw [Expr.asWritten, realWords, htext]
  by_cases hneg : value.units < 0
  · simp only [value.normalize_negative.mpr hneg, if_true] at hunits ⊢
    rw [if_pos hneg]
    have hvalue : value.neg.units = v.units := by rw [value.neg_units, hunits, Int.neg_neg]
    exact ⟨.unary .neg (.real v .zero) .zero, ⟨rfl, hvalue⟩, fun k => reads_minus hreal⟩
  · simp only [if_neg (mt value.normalize_negative.mp hneg)] at hunits ⊢
    rw [if_neg hneg]
    refine ⟨.real v .zero, hunits, fun k => ?_⟩
    obtain ⟨d, rest, rfl⟩ := List.exists_cons_of_ne_nil hne
    have hd : d ≠ '-' := by
      have hdigit := hds d (by simp)
      rintro rfl
      cases hdigit
    rw [hdigits] at hreal ⊢
    simpa [signedWords, hd] using hreal k

end Fits

/-! ### Expressions -/

section Expressions

variable {b : Builtins} {k : TokenKind}

theorem reads_list {wss : List (List Word)} {trees : List Expr} (hk : k.Closes)
    (hcomma : k ≠ .sign .comma) (hne : wss ≠ [])
    (h : List.Forall₂ (fun ws tree => ∀ k : TokenKind, k.Closes → Reads (.whole 0) ws k [tree])
      wss trees) :
    Reads .list (commaWords wss) k trees := by
  induction h with
  | nil => exact absurd rfl hne
  | @cons ws tree wss trees h hs ih =>
    cases hs with
    | nil =>
      simpa [commaWords] using Reads.one hcomma (h k hk)
    | @cons ws' tree' wss trees h' hs =>
      have hread := Reads.more (w := Sign.comma.word) rfl (h (.sign .comma) (by decide))
        (ih (List.cons_ne_nil _ _))
      simpa [commaWords, List.intercalate_cons_cons] using hread

/-- A truth value is read as the comparison that stands for it. -/
theorem fits_bool (value : Bool) (span : Span) :
    Fits (.bool value span) (boolWords value) (Expr.asWritten (.bool value span)) := by
  intro power ws' next out hpower hfollows htail
  have hdigit : ∀ (n : Nat) k, n < 10 →
      Reads .operand [⟨.int, n.repr⟩] k [.int (Int32.ofInt n) .zero] := fun n k hn =>
    reads_int (lt_trans hn (by decide))
  have hright : Reads (.whole (BinaryOp.equal.bindingPower + 1)) [⟨.int, if value then "9" else "0"⟩]
      (nextKind ws' next) [.int (if value then 9 else 0) .zero] := by
    have hstop : Reads (.tail (BinaryOp.equal.bindingPower + 1) (.int (if value then 9 else 0) .zero))
        [] (nextKind ws' next) [.int (if value then 9 else 0) .zero] := by
      refine .stop fun op hop => ?_
      have : op.precedence ≤ boolPrecedence := hfollows.operator op hop _ rfl
      simp only [BinaryOp.bindingPower, boolPrecedence, BinaryOp.precedence] at this ⊢
      omega
    cases value
    · exact .whole (hdigit 0 _ (by decide)) hstop
    · exact .whole (hdigit 9 _ (by decide)) hstop
  have hleft : Reads .operand [⟨.int, "9"⟩] (.sign .equal) [.int 9 .zero] :=
    hdigit 9 _ (by decide)
  have htail' : Reads (.tail power (.int 9 .zero))
      (Sign.equal.word :: ([⟨.int, if value then "9" else "0"⟩] ++ ws')) next out :=
    .infixed rfl (hpower rfl _ rfl) hright htail
  change Reads (.whole power) ([⟨.int, "9"⟩] ++ (Sign.equal.word :: _)) next out
  exact .whole hleft htail'

mutual

/-- **The words of an expression are read as the expression**, in the form that it has in
print. -/
theorem fits_expr : ∀ {e : Expr}, e.Meets readable →
    ∃ tree, e.asWritten.Same tree ∧ Fits e (exprWords b e) tree
  | .binary op left right span, .inr ⟨_, hleft, hright⟩ => by
    obtain ⟨l, hl, hfitsl⟩ := fits_expr hleft
    obtain ⟨r, hr, hfitsr⟩ := fits_expr hright
    refine ⟨.binary op l r .zero, ⟨rfl, hl, hr⟩, fun power ws' next out hpower hfollows htail => ?_⟩
    have hpower' : power ≤ op.bindingPower := by
      have := hpower rfl _ rfl
      simp only [BinaryOp.bindingPower]
      omega
    have hoperand := hfitsr.right (.binary op left right span) rfl hfollows
    rw [exprWords, List.append_assoc]
    exact hfitsl.left hpower' (.infixed (BinaryOp.ofToken?_token op) hpower' hoperand htail)
  | .unary op operand span, ⟨hop, hoperand⟩ => by
    obtain ⟨tree, htree, hfits⟩ := fits_expr hoperand
    simp only [Expr.asWritten, exprWords]
    by_cases hleast : op = .neg ∧ operand.isInt Int32.minValue
    · simp only [if_pos hleast]
      exact ⟨_, Expr.same_refl _, .of_operand fun k _ => reads_intWords Int32.minValue span⟩
    · simp only [if_neg hleast]
      refine ⟨.unary op tree .zero, ⟨rfl, htree⟩, .of_operand fun k hfollows => ?_⟩
      by_cases hunary : isUnary operand = true
      · rw [if_pos hunary]
        cases operand with
        | unary op' operand' span' =>
          exact hfits.prefixed_unary (.unary op (.unary op' operand' span') span) rfl rfl hop rfl
            hfollows
        | _ => cases hunary
      · rw [if_neg hunary]
        exact hfits.prefixed (.unary op operand span) rfl hfollows
  | .int value span, _ =>
    ⟨_, Expr.same_refl _, .of_operand fun k _ => reads_intWords value span⟩
  | .real value span, _ => by
    obtain ⟨tree, htree, hreads⟩ := reads_realWords value span
    exact ⟨tree, htree, .of_operand fun k _ => hreads k⟩
  | .str raw span, h => ⟨.str raw .zero, rfl, .of_operand fun k _ => .str rfl⟩
  | .bool value span, _ => ⟨_, Expr.same_refl _, fits_bool value span⟩
  | .var ident subscripts span, ⟨h, hsubs⟩ => by
    obtain ⟨trees, htrees, hreads⟩ := fits_exprs hsubs
    refine ⟨.var (.ofText ident.full .zero) trees .zero, ⟨by simp, htrees⟩,
      .of_operand fun k hfollows => ?_⟩
    rw [exprWords]
    cases subscripts with
    | nil =>
      cases hreads
      exact .var rfl hfollows.paren (.noSubscripts hfollows.bracket)
    | cons e es =>
      have hlist := reads_list (k := .sign .rightBracket) (by decide) (by decide)
        (by simp [exprsWords]) hreads
      have hsubs : Reads .subscripts (Sign.leftBracket.word ::
          (commaWords (exprsWords b (e :: es)) ++ [Sign.rightBracket.word])) k (trees ++ []) :=
        .subscripts rfl rfl hlist (.noSubscripts hfollows.bracket)
      rw [List.append_nil] at hsubs
      exact .var rfl (by simp) hsubs
  | .call name args isProcedure usingCall span, ⟨⟨h, hprocedure⟩, hargs⟩ => by
    obtain ⟨trees, htrees, hreads⟩ := fits_exprs (argsMeet_false.mp hargs)
    subst hprocedure
    refine ⟨.call (.ofText name.full .zero) trees false usingCall .zero, ⟨by simp, htrees, rfl, rfl⟩,
      .of_operand fun k hfollows => ?_⟩
    have hargs : Reads .arguments
        (Sign.leftParen.word :: (commaWords (exprsWords b args) ++ [Sign.rightParen.word])) k
        trees := by
      cases args with
      | nil =>
        cases hreads
        exact .noArguments rfl rfl
      | cons e es =>
        exact .arguments rfl rfl (reads_list (by decide) (by decide) (by simp [exprsWords]) hreads)
    have hparens : hasParentheses b name (!args.isEmpty) false = true := by simp [hasParentheses]
    rw [exprWords, if_pos hparens]
    cases usingCall with
    | true => exact .callWith rfl rfl hargs
    | false => exact .call rfl hargs

theorem fits_exprs : ∀ {es : List Expr}, exprsMeet readable es →
    ∃ trees, exprsSame (exprsAsWritten es) trees ∧
      List.Forall₂ (fun ws tree => ∀ k : TokenKind, k.Closes → Reads (.whole 0) ws k [tree])
        (exprsWords b es) trees
  | [], _ => ⟨[], trivial, .nil⟩
  | _ :: _, ⟨h, hs⟩ => by
    obtain ⟨tree, htree, hfits⟩ := fits_expr h
    obtain ⟨trees, htrees, hreads⟩ := fits_exprs hs
    exact ⟨tree :: trees, ⟨htree, htrees⟩, .cons (fun k hk => hfits.closed hk) hreads⟩

end

end Expressions

/-! ### From text to tree -/

/-- The tokens of a text that makes up one line. -/
theorem passes_tokenize {text : String} {ws : List Word}
    (h : Scan.Lexed false text.toList (ws ++ Scan.endWords true)) :
    ∃ line eof : Token, line.kind = .newline ∧ eof.kind = .eof ∧
      (Parser.State.ofTokens (tokenize text).1).Passes ws ⟨[line], eof, true⟩ := by
  obtain ⟨-, hwords⟩ := tokenize_of_lexed h
  obtain ⟨ts, ends, hts, rfl, hends⟩ := List.map_eq_append_iff.mp hwords
  obtain ⟨line, eof, rfl⟩ := List.length_eq_two.mp (by
    simpa [Scan.endWords] using congrArg List.length hends)
  obtain ⟨hline, heof⟩ : line.word = ⟨.newline, ""⟩ ∧ eof.word = ⟨.eof, ""⟩ := by
    simpa [Scan.endWords] using hends
  refine ⟨line, eof, congrArg Word.kind hline, congrArg Word.kind heof, ⟨ts, rfl, ?_⟩, ?_⟩
  · simp [Parser.State.ofTokens, hts]
  · simp [Parser.State.ofTokens, hts]

/-- **Expressions are read back from print.** The text of an expression is scanned without a fault
and parsed up to the end of its line, as the expression in the form that it has in print. -/
theorem expr_read_back (b : Builtins) {e : Expr} (he : e.Meets readable) :
    (tokenize (expr b e)).2 = [] ∧
      ∃ e' s, Parser.expression.run (.ofTokens (tokenize (expr b e)).1) = .ok e' s ∧
        s.rest.map Token.kind = [.newline] ∧ e.asWritten.Same e' := by
  have hlexed : Scan.Lexed false ((expr b e).toList ++ []) (exprWords b e ++ Scan.endWords true) :=
    (written_expr b (he.imp readable_legible)).lexed .nil (.nil true) false
  rw [List.append_nil] at hlexed
  obtain ⟨tree, hsame, hfits⟩ := fits_expr he
  obtain ⟨line, eof, hline, heof, hpasses⟩ := passes_tokenize hlexed
  have hread : Reads (.whole 0) (exprWords b e) .newline [tree] := hfits.closed (by decide)
  obtain ⟨e', s, hrun, hs, htree⟩ :=
    Parser.expression_takes hread (by rwa [← hpasses.eof]) hpasses hline
  refine ⟨(tokenize_of_lexed hlexed).1, e', s, hrun, ?_, ?_⟩
  · rw [hs.rest_eq]
    simp [hline]
  · rw [← htree] at hsame
    exact .of_bare e' hsame

/-- An expression with operators of all kinds, a negative number, a truth value and a call. -/
def sampleExpr : Expr :=
  .binary .or
    (.unary .not (.binary .equal
      (.binary .mul (.int (-7) .zero)
        (.binary .sub (.real ⟨false, 250, 2, by decide, by decide⟩ .zero) (.int 1 .zero) .zero) .zero)
      (.unary .neg (.unary .neg (.var (.ofText "%list.of" .zero)
        [.unary .bitNot (.int 3 .zero) .zero, .str "\"a b\"" .zero] .zero) .zero) .zero) .zero) .zero)
    (.binary .or (.bool true .zero)
      (.call (.ofText "search" .zero) [.int Int32.minValue .zero] false false .zero) .zero) .zero

theorem sampleExpr_read_back : sampleExpr.Meets readable ∧
    (tokenize (expr default sampleExpr)).2 = [] ∧
      ∃ e' s, Parser.expression.run (.ofTokens (tokenize (expr default sampleExpr)).1) = .ok e' s ∧
        s.rest.map Token.kind = [.newline] ∧ sampleExpr.asWritten.Same e' := by
  have hmeets : sampleExpr.Meets readable := by
    have hlist : IsToken .identifier "%list.of" := by decide +kernel
    have hstring : IsToken .string "\"a b\"" := by decide +kernel
    have hsearch : IsToken .identifier "search" := by decide +kernel
    have hnested : UnaryOp.neg.precedence ≤ UnaryOp.neg.precedence := le_rfl
    exact .inr ⟨trivial, ⟨trivial, .inr ⟨trivial, .inr ⟨trivial, trivial, .inr ⟨trivial, trivial,
      trivial⟩⟩, hnested, trivial, hlist, ⟨trivial, trivial⟩, hstring, trivial⟩⟩,
      .inr ⟨trivial, trivial, ⟨hsearch, rfl⟩, .inr trivial, trivial⟩⟩
  exact ⟨hmeets, expr_read_back default hmeets⟩

end Printer

/-! ### From the leaves up

The least integer loses one minus in print. Were the form of print taken from the leaves up, it
would lose every minus in front of it, and that is not what is read back. -/

/-- One node in the form of print. -/
def Expr.nodeAsWritten : Expr → Expr
  | .unary .neg (.int value place) span =>
    if value = Int32.minValue then .int value .zero else .unary .neg (.int value place) span
  | .int value span =>
    if value < 0 ∧ value ≠ Int32.minValue then .unary .neg (.int (-value) .zero) .zero
    else .int value span
  | .bool value _ => .binary .equal (.int 9 .zero) (.int (if value then 9 else 0) .zero) .zero
  | e => e

mutual

/-- An expression with every node in the form of print, from the leaves up. -/
def Expr.asWrittenUp : Expr → Expr
  | .binary op left right span => .nodeAsWritten (.binary op left.asWrittenUp right.asWrittenUp span)
  | .unary op operand span => .nodeAsWritten (.unary op operand.asWrittenUp span)
  | .var ident subscripts span => .nodeAsWritten (.var ident (exprsAsWrittenUp subscripts) span)
  | .call name args isProcedure usingCall span =>
    .nodeAsWritten (.call name (exprsAsWrittenUp args) isProcedure usingCall span)
  | e => e.nodeAsWritten

/-- Expressions with every node in the form of print, from the leaves up. -/
def exprsAsWrittenUp : List Expr → List Expr
  | [] => []
  | e :: es => e.asWrittenUp :: exprsAsWrittenUp es

end

namespace Printer

/-- The least integer behind two minuses. -/
def twiceNegated : Expr :=
  .unary .neg (.unary .neg (.int Int32.minValue .zero) .zero) .zero

/-- **A second minus in front of the least integer stays**: it is not read back from the leaves
up. -/
theorem twiceNegated_not_up : twiceNegated.Meets readable ∧
    ¬ ∃ e' s, Parser.expression.run (.ofTokens (tokenize (expr default twiceNegated)).1) = .ok e' s ∧
      twiceNegated.asWrittenUp.Same e' := by
  refine ⟨⟨le_refl UnaryOp.neg.precedence, trivial, trivial⟩, ?_⟩
  rintro ⟨e', s, hrun, hsame⟩
  obtain ⟨place, span, s', hread⟩ : ∃ place span s',
      Parser.expression.run (.ofTokens (tokenize (expr default twiceNegated)).1) =
        .ok (.unary .neg (.int Int32.minValue place) span) s' := ⟨_, _, _, rfl⟩
  rw [hread] at hrun
  cases hrun
  exact hsame

end Printer

end FlatScript
