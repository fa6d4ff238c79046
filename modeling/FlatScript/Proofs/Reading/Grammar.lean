import FlatScript.Decimal.Literal
import FlatScript.Parser.Expr

/-!
# The grammar of expressions

What the parser makes of an expression depends on the kinds and the spellings of its tokens and
on the kind of the token behind it, and on nothing else. `FlatScript.Reads` is that dependence as
a relation between words and trees without places; it has one rule for every way in which a
phrase of the grammar is put together, and no bounds.

* `FlatScript.Reads.behind` says that the token behind a phrase may be exchanged for one that
  does not go on with the phrase either.
* `FlatScript.Reads.balanced` says that the words of a phrase have balanced parentheses.
-/

namespace FlatScript

/-! ### Words -/

/-- **A word**: a token without its place. -/
structure Word where
  /-- What the word is. -/
  kind : TokenKind
  /-- How it is written. -/
  lexeme : String
deriving DecidableEq, Repr

/-- A token without its place. -/
def Token.word (t : Token) : Word := ⟨t.kind, t.lexeme⟩

@[simp] theorem Token.word_kind (t : Token) : t.word.kind = t.kind := rfl

@[simp] theorem Token.word_lexeme (t : Token) : t.word.lexeme = t.lexeme := rfl

/-- The word of a sign. -/
def Sign.word (s : Sign) : Word := ⟨.sign s, s.spelling⟩

@[simp] theorem Sign.word_kind (s : Sign) : s.word.kind = .sign s := rfl

/-- The word of a keyword. -/
def Keyword.word (k : Keyword) : Word := ⟨.keyword k, k.spelling⟩

@[simp] theorem Keyword.word_kind (k : Keyword) : k.word.kind = .keyword k := rfl

/-- The kind of the first of some words, or of what follows them. -/
def nextKind (ws : List Word) (next : TokenKind) : TokenKind :=
  (ws.head?.map Word.kind).getD next

@[simp] theorem nextKind_nil (next : TokenKind) : nextKind [] next = next := rfl

@[simp] theorem nextKind_cons (w : Word) (ws : List Word) (next : TokenKind) :
    nextKind (w :: ws) next = w.kind := rfl

theorem nextKind_append (ws ws' : List Word) (next : TokenKind) :
    nextKind (ws ++ ws') next = nextKind ws (nextKind ws' next) := by
  cases ws <;> rfl

/-! ### Trees without places -/

/-- An identifier without its place and its history. -/
def Ident.bare (i : Ident) : Ident := ⟨i.sigil, i.name, .zero, false⟩

@[simp] theorem Ident.bare_ofText (text : String) (span : Span) :
    (Ident.ofText text span).bare = .ofText text .zero := rfl

mutual

/-- **An expression without places.** -/
def Expr.bare : Expr → Expr
  | .binary op left right _ => .binary op left.bare right.bare .zero
  | .unary op operand _ => .unary op operand.bare .zero
  | .int v _ => .int v .zero
  | .real v _ => .real v .zero
  | .str raw _ => .str raw .zero
  | .bool v _ => .bool v .zero
  | .var i subscripts _ => .var i.bare (exprsBare subscripts) .zero
  | .call name args isProcedure usingCall _ =>
    .call name.bare (exprsBare args) isProcedure usingCall .zero
  | .raw text _ => .raw text .zero

/-- Expressions without places. -/
def exprsBare : List Expr → List Expr
  | [] => []
  | e :: es => e.bare :: exprsBare es

end

theorem exprsBare_eq_map (es : List Expr) : exprsBare es = es.map Expr.bare := by
  induction es with
  | nil => rfl
  | cons e es ih => rw [exprsBare, ih, List.map_cons]

theorem exprsBare_append (es es' : List Expr) :
    exprsBare (es ++ es') = exprsBare es ++ exprsBare es' := by
  simp only [exprsBare_eq_map, List.map_append]

/-! ### The relation -/

/-- A phrase of the grammar. -/
inductive Phrase where
  /-- An expression whose operators bind at least as tightly as `power`. -/
  | whole (power : Nat)
  /-- The operators and operands behind the operand `left`. -/
  | tail (power : Nat) (left : Expr)
  /-- An operand. -/
  | operand
  /-- One or more expressions with commas between them. -/
  | list
  /-- Arguments in parentheses. -/
  | arguments
  /-- Subscripts in brackets, if there are any. -/
  | subscripts

/-- Whether a phrase cannot be empty. -/
def Phrase.isNonempty : Phrase → Bool
  | .whole _ | .operand | .list | .arguments => true
  | .tail _ _ | .subscripts => false

/-- **Words that make up a phrase**, when a token of the kind `next` stands behind them, and
the trees that they stand for. -/
inductive Reads : Phrase → List Word → TokenKind → List Expr → Prop
  | whole {power ws ws' next left out}
    (hleft : Reads .operand ws (nextKind ws' next) [left])
    (htail : Reads (.tail power left) ws' next out) :
    Reads (.whole power) (ws ++ ws') next out
  | stop {power left next}
    (h : ∀ op, BinaryOp.ofToken? next = some op → op.bindingPower < power) :
    Reads (.tail power left) [] next [left]
  | infixed {power left w op ws right ws' next out} (hop : BinaryOp.ofToken? w.kind = some op)
    (hpower : power ≤ op.bindingPower)
    (hright : Reads (.whole (op.bindingPower + 1)) ws (nextKind ws' next) [right])
    (htail : Reads (.tail power (.binary op left right .zero)) ws' next out) :
    Reads (.tail power left) (w :: (ws ++ ws')) next out
  | prefixed {w op ws next e} (hop : UnaryOp.ofToken? w.kind = some op)
    (h : Reads (.whole op.bindingPower) ws next [e]) :
    Reads .operand (w :: ws) next [.unary op e .zero]
  | int {w next} (hkind : w.kind = .int ∨ w.kind = .hex)
    (h : Parser.literalValue w.kind w.lexeme.toList < Parser.literalBound) :
    Reads .operand [w] next
      [.int (Int32.ofInt (Parser.literalValue w.kind w.lexeme.toList)) .zero]
  | real {w next v} (hkind : w.kind = .real) (h : Decimal.ofLiteral w.lexeme.toList = .ok v) :
    Reads .operand [w] next [.real v .zero]
  | str {w next} (hkind : w.kind = .string) : Reads .operand [w] next [.str w.lexeme .zero]
  | call {w ws next args} (hkind : w.kind = .identifier) (h : Reads .arguments ws next args) :
    Reads .operand (w :: ws) next [.call (.ofText w.lexeme .zero) args false false .zero]
  | var {w ws next subs} (hkind : w.kind = .identifier)
    (hparen : nextKind ws next ≠ .sign .leftParen) (h : Reads .subscripts ws next subs) :
    Reads .operand (w :: ws) next [.var (.ofText w.lexeme .zero) subs .zero]
  | callWith {w w' ws next args} (hword : w.kind = .keyword .callKw) (hkind : w'.kind = .identifier)
    (h : Reads .arguments ws next args) :
    Reads .operand (w :: w' :: ws) next [.call (.ofText w'.lexeme .zero) args false true .zero]
  | callPlain {w w' next} (hword : w.kind = .keyword .callKw) (hkind : w'.kind = .identifier)
    (hparen : next ≠ .sign .leftParen) :
    Reads .operand [w, w'] next [.call (.ofText w'.lexeme .zero) [] false true .zero]
  | paren {w ws w' next e} (hopen : w.kind = .sign .leftParen) (hclose : w'.kind = .sign .rightParen)
    (h : Reads (.whole 0) ws (.sign .rightParen) [e]) :
    Reads .operand (w :: (ws ++ [w'])) next [e]
  | one {ws next e} (hcomma : next ≠ .sign .comma) (h : Reads (.whole 0) ws next [e]) :
    Reads .list ws next [e]
  | more {ws w ws' next e es} (hcomma : w.kind = .sign .comma)
    (h : Reads (.whole 0) ws (.sign .comma) [e]) (hmore : Reads .list ws' next es) :
    Reads .list (ws ++ w :: ws') next (e :: es)
  | noArguments {w w' next} (hopen : w.kind = .sign .leftParen)
    (hclose : w'.kind = .sign .rightParen) : Reads .arguments [w, w'] next []
  | arguments {w ws w' next es} (hopen : w.kind = .sign .leftParen)
    (hclose : w'.kind = .sign .rightParen) (h : Reads .list ws (.sign .rightParen) es) :
    Reads .arguments (w :: (ws ++ [w'])) next es
  | noSubscripts {next} (h : next ≠ .sign .leftBracket) : Reads .subscripts [] next []
  | subscripts {w ws w' ws' next es more} (hopen : w.kind = .sign .leftBracket)
    (hclose : w'.kind = .sign .rightBracket) (h : Reads .list ws (.sign .rightBracket) es)
    (hmore : Reads .subscripts ws' next more) :
    Reads .subscripts (w :: (ws ++ w' :: ws')) next (es ++ more)

/-! ### What stands behind -/

/-- **A token of the kind goes on with no expression** that stands in front of it. -/
structure TokenKind.Closes (k : TokenKind) : Prop where
  operator : BinaryOp.ofToken? k = none
  paren : k ≠ .sign .leftParen
  bracket : k ≠ .sign .leftBracket

instance (k : TokenKind) : Decidable k.Closes :=
  decidable_of_iff (BinaryOp.ofToken? k = none ∧ k ≠ .sign .leftParen ∧ k ≠ .sign .leftBracket)
    ⟨fun h => ⟨h.1, h.2.1, h.2.2⟩, fun h => ⟨h.operator, h.paren, h.bracket⟩⟩

namespace Reads

/-- **The token behind a phrase may be exchanged** for one that does not go on with it. A list
also goes on with a comma. -/
theorem behind {ph : Phrase} {ws : List Word} {next next' : TokenKind} {out : List Expr}
    (h : Reads ph ws next out) (hnext : next'.Closes)
    (hlist : ph = .list → next' ≠ .sign .comma) : Reads ph ws next' out := by
  induction h with
  | @whole power ws ws' next left out hleft htail ihleft ihtail =>
    refine .whole ?_ (ihtail nofun)
    cases ws' with
    | nil => exact ihleft nofun
    | cons w ws' => exact hleft
  | stop => exact .stop fun op hop => by simp [hnext.operator] at hop
  | @infixed power left w op ws right ws' next out hop hpower hright htail ihright ihtail =>
    refine .infixed hop hpower ?_ (ihtail nofun)
    cases ws' with
    | nil => exact ihright nofun
    | cons w ws' => exact hright
  | prefixed hop _ ih => exact .prefixed hop (ih nofun)
  | int hkind h => exact .int hkind h
  | real hkind h => exact .real hkind h
  | str hkind => exact .str hkind
  | call hkind _ ih => exact .call hkind (ih nofun)
  | @var w ws next subs hkind hparen _ ih =>
    refine .var hkind ?_ (ih nofun)
    cases ws with
    | nil => exact hnext.paren
    | cons w ws => exact hparen
  | callWith hword hkind _ ih => exact .callWith hword hkind (ih nofun)
  | callPlain hword hkind _ => exact .callPlain hword hkind hnext.paren
  | paren hopen hclose h _ => exact .paren hopen hclose h
  | one _ _ ih => exact .one (hlist rfl) (ih nofun)
  | more hcomma h _ _ ihmore => exact .more hcomma h (ihmore hlist)
  | noArguments hopen hclose => exact .noArguments hopen hclose
  | arguments hopen hclose h _ => exact .arguments hopen hclose h
  | noSubscripts _ => exact .noSubscripts hnext.bracket
  | subscripts hopen hclose h _ _ ihmore => exact .subscripts hopen hclose h (ihmore nofun)

/-! ### Parentheses -/

end Reads

/-- How many parentheses some words open, less those that they close. -/
def parenDepth : List Word → Int
  | [] => 0
  | w :: ws =>
    (if w.kind = .sign .leftParen then 1 else if w.kind = .sign .rightParen then -1 else 0) +
      parenDepth ws

@[simp] theorem parenDepth_append (ws ws' : List Word) :
    parenDepth (ws ++ ws') = parenDepth ws + parenDepth ws' := by
  induction ws with
  | nil => simp [parenDepth]
  | cons w ws ih => simp [parenDepth, ih, Int.add_assoc]

/-- **Words with balanced parentheses.** -/
inductive Balanced : List Word → Prop
  | nil : Balanced []
  | word {w} (hopen : w.kind ≠ .sign .leftParen) (hclose : w.kind ≠ .sign .rightParen) :
    Balanced [w]
  | append {ws ws'} (h : Balanced ws) (h' : Balanced ws') : Balanced (ws ++ ws')
  | paren {w ws w'} (hopen : w.kind = .sign .leftParen) (hclose : w'.kind = .sign .rightParen)
    (h : Balanced ws) : Balanced (w :: (ws ++ [w']))

namespace Balanced

variable {w : Word} {ws ws' : List Word}

theorem cons (hopen : w.kind ≠ .sign .leftParen) (hclose : w.kind ≠ .sign .rightParen)
    (h : Balanced ws) : Balanced (w :: ws) :=
  (word hopen hclose).append h

theorem depth (h : Balanced ws) : parenDepth ws = 0 := by
  induction h with
  | nil => rfl
  | word hopen hclose => simp [parenDepth, hopen, hclose]
  | append _ _ ih ih' => simp [ih, ih']
  | paren hopen hclose _ ih => simp [parenDepth, hopen, hclose, ih]

/-- No parenthesis is closed before it is opened. -/
theorem depth_prefix (h : Balanced ws) : ∀ n, 0 ≤ parenDepth (ws.take n) := by
  induction h with
  | nil => simp [parenDepth]
  | @word w hopen hclose => intro n; cases n <;> simp [parenDepth, hopen, hclose]
  | @append ws ws' h _ ih ih' =>
    intro n
    rw [List.take_append, parenDepth_append]
    exact Int.add_nonneg (ih n) (ih' _)
  | @paren w ws w' hopen hclose h ih =>
    intro n
    cases n with
    | zero => simp [parenDepth]
    | succ n =>
      rw [List.take_succ_cons, List.take_append]
      have hws := ih n
      have hlast : -1 ≤ parenDepth ([w'].take (n - ws.length)) := by
        cases n - ws.length <;> simp [parenDepth, hclose]
      simp only [parenDepth, parenDepth_append, if_pos hopen]
      omega

/-- **No balanced words go on behind a parenthesis that is not theirs.** -/
theorem not_close (h : Balanced ws) (hclose : w.kind = .sign .rightParen) :
    ¬ Balanced (ws ++ w :: ws') := by
  intro hall
  have hprefix := hall.depth_prefix (ws.length + 1)
  have htake : (ws ++ w :: ws').take (ws.length + 1) = ws ++ [w] := by
    simp [List.take_append, List.take_of_length_le]
  rw [htake, parenDepth_append, h.depth] at hprefix
  simp [parenDepth, hclose] at hprefix

end Balanced

/-- **The words of a phrase have balanced parentheses.** -/
theorem Reads.balanced {ph : Phrase} {ws : List Word} {next : TokenKind} {out : List Expr}
    (h : Reads ph ws next out) : Balanced ws := by
  induction h with
  | whole _ _ ihleft ihtail => exact ihleft.append ihtail
  | stop | noSubscripts => exact .nil
  | infixed hop _ _ _ ihright ihtail =>
    exact (ihright.append ihtail).cons (by rintro h; simp [h, BinaryOp.ofToken?] at hop)
      (by rintro h; simp [h, BinaryOp.ofToken?] at hop)
  | prefixed hop _ ih =>
    exact ih.cons (by rintro h; simp [h, UnaryOp.ofToken?] at hop)
      (by rintro h; simp [h, UnaryOp.ofToken?] at hop)
  | int hkind _ => exact .word (by grind) (by grind)
  | real hkind _ | str hkind => exact .word (by simp [hkind]) (by simp [hkind])
  | call hkind _ ih | var hkind _ _ ih => exact ih.cons (by simp [hkind]) (by simp [hkind])
  | callWith hword hkind _ ih =>
    exact (ih.cons (by simp [hkind]) (by simp [hkind])).cons (by simp [hword]) (by simp [hword])
  | callPlain hword hkind _ =>
    exact (Balanced.nil.cons (by simp [hkind]) (by simp [hkind])).cons (by simp [hword])
      (by simp [hword])
  | paren hopen hclose _ ih | arguments hopen hclose _ ih => exact .paren hopen hclose ih
  | one _ _ ih => exact ih
  | more hcomma _ _ ih ihmore =>
    exact ih.append (ihmore.cons (by simp [hcomma]) (by simp [hcomma]))
  | noArguments hopen hclose => exact .paren hopen hclose .nil
  | subscripts hopen hclose _ _ ih ihmore =>
    exact (ih.append (ihmore.cons (by simp [hclose]) (by simp [hclose]))).cons (by simp [hopen])
      (by simp [hopen])

namespace Reads

/-! ### Fronts -/

/-- A phrase that cannot be empty starts with a word that closes no parenthesis. -/
theorem front {ph : Phrase} {ws : List Word} {next : TokenKind} {out : List Expr}
    (h : Reads ph ws next out) (hph : ph.isNonempty = true) :
    ∃ w rest, ws = w :: rest ∧ w.kind ≠ .sign .rightParen := by
  induction h with
  | whole _ _ ihleft _ =>
    obtain ⟨w, rest, rfl, hw⟩ := ihleft rfl
    exact ⟨w, _, rfl, hw⟩
  | stop | infixed | noSubscripts | subscripts => cases hph
  | prefixed hop _ _ => exact ⟨_, _, rfl, by rintro h; simp [h, UnaryOp.ofToken?] at hop⟩
  | int hkind _ => exact ⟨_, _, rfl, by grind⟩
  | real hkind _ | str hkind | call hkind _ _ | var hkind _ _ _ =>
    exact ⟨_, _, rfl, by simp [hkind]⟩
  | callWith hword _ _ _ | callPlain hword _ _ => exact ⟨_, _, rfl, by simp [hword]⟩
  | paren hopen _ _ _ | noArguments hopen _ | arguments hopen _ _ _ =>
    exact ⟨_, _, rfl, by simp [hopen]⟩
  | one _ _ ih => exact ih rfl
  | more _ _ _ ih _ =>
    obtain ⟨w, rest, rfl, hw⟩ := ih rfl
    exact ⟨w, _, rfl, hw⟩

/-- Arguments start with a parenthesis, and end with another one. -/
theorem open_paren {ws : List Word} {next : TokenKind} {args : List Expr}
    (h : Reads .arguments ws next args) :
    (∀ k, nextKind ws k = .sign .leftParen) ∧ 2 ≤ ws.length := by
  cases h with
  | noArguments hopen _ => simp [hopen]
  | arguments hopen _ _ => simp [hopen]

end Reads

end FlatScript
