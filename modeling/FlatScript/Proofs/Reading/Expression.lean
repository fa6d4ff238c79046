import FlatScript.Proofs.Reading.Steps

/-!
# Reading expressions

The parser of expressions and the grammar of expressions are two accounts of one language.

* `FlatScript.Parser.expression_sound`: whatever the parser answers with, the words it took make
  up that tree.
* `FlatScript.Reads.expression_takes`: words that make up a tree are taken by the parser, which
  answers with that tree.

So a tree can be carried from one place to another one: read off the grammar where it was
parsed, and handed back to the parser where its words stand in front of something else.
-/

namespace FlatScript.Parser

/-! ### What the parser answers is what the words say -/

/-- The words between two states make up a phrase. -/
def Read (ph : Phrase) (s : State) (out : List Expr) (s' : State) : Prop :=
  ∃ ws, s.Passes ws s' ∧ Reads ph ws s'.peek.kind (exprsBare out)

/-- What every step with a given bound reads. -/
structure Sound (fuel : Nat) : Prop where
  exprFrom : ∀ {power s e s'}, s.eof.kind = .eof →
    (Parser.exprFrom fuel power).run s = .ok e s' → Read (.whole power) s [e] s'
  operators : ∀ {power left s e s'}, s.eof.kind = .eof →
    (Parser.operators fuel power left).run s = .ok e s' → Read (.tail power left.bare) s [e] s'
  operand : ∀ {s e s'}, s.eof.kind = .eof →
    (Parser.operand fuel).run s = .ok e s' → Read .operand s [e] s'
  exprList : ∀ {s es s'}, s.eof.kind = .eof →
    (Parser.exprList fuel).run s = .ok es s' → Read .list s es s'
  arguments : ∀ {s r s'}, s.eof.kind = .eof →
    (Parser.arguments fuel).run s = .ok r s' → Read .arguments s r.1 s'
  subscripts : ∀ {span s r s'}, s.eof.kind = .eof →
    (Parser.subscripts fuel span).run s = .ok r s' → Read .subscripts s r.1 s'
  callKeyword : ∀ {s c s'}, s.eof.kind = .eof →
    (Parser.callKeyword fuel false).run s = .ok c s' → Read .operand s [c.toExpr] s'

section Sound

variable {fuel : Nat} {s s' m : State} {k : TokenKind} {ws : List Word} {t : Token}

theorem State.Passes.eof_kind (h : s.Passes ws s') (heof : s.eof.kind = .eof) :
    s'.eof.kind = .eof := by
  rw [h.eof, heof]

/-- The token that was expected is a word. -/
theorem passes_of_peek (heof : s.eof.kind = .eof) (hk : s.peek.kind = k) (hne : k ≠ .eof) :
    s.Passes [s.peek.word] s.advance :=
  State.passes_advance heof (by rwa [hk])

theorem exprFrom_sound (ih : Sound fuel) {power : Nat} {e : Expr} (heof : s.eof.kind = .eof)
    (h : (exprFrom (fuel + 1) power).run s = .ok e s') : Read (.whole power) s [e] s' := by
  rw [exprFrom, run_bind_eq_ok] at h
  obtain ⟨left, m, hleft, hrest⟩ := h
  obtain ⟨ws, hws, hreads⟩ := ih.operand heof hleft
  obtain ⟨ws', hws', hreads'⟩ := ih.operators (hws.eof_kind heof) hrest
  rw [hws'.peek_kind] at hreads
  exact ⟨ws ++ ws', hws.trans hws', .whole hreads hreads'⟩

theorem operators_sound (ih : Sound fuel) {power : Nat} {left e : Expr} (heof : s.eof.kind = .eof)
    (h : (operators (fuel + 1) power left).run s = .ok e s') :
    Read (.tail power left.bare) s [e] s' := by
  rw [operators, run_bind_eq_ok] at h
  obtain ⟨t, m, hpeek, h⟩ := h
  obtain ⟨rfl, rfl⟩ := run_peek_eq_ok.mp hpeek
  split at h
  next hop =>
    obtain ⟨rfl, rfl⟩ := run_pure_eq_ok.mp h
    exact ⟨[], .refl _, .stop fun op hop' => by simp [hop] at hop'⟩
  next op hop =>
    split at h
    next hlow =>
      obtain ⟨rfl, rfl⟩ := run_pure_eq_ok.mp h
      exact ⟨[], .refl _, .stop fun op' hop' => by simp_all⟩
    next hhigh =>
      simp only [run_bind_eq_ok, run_advance_eq_ok] at h
      obtain ⟨_, _, ⟨rfl, rfl⟩, right, m, hright, hrest⟩ := h
      have hw : s.Passes [s.peek.word] s.advance :=
        State.passes_advance heof (by rintro hk; simp [hk, BinaryOp.ofToken?] at hop)
      obtain ⟨ws, hws, hreads⟩ := ih.exprFrom (hw.eof_kind heof) hright
      obtain ⟨ws', hws', hreads'⟩ := ih.operators (hws.eof_kind (hw.eof_kind heof)) hrest
      rw [hws'.peek_kind] at hreads
      exact ⟨s.peek.word :: (ws ++ ws'), hw.trans (hws.trans hws'),
        .infixed hop (by omega) hreads hreads'⟩

theorem exprList_sound (ih : Sound fuel) {es : List Expr} (heof : s.eof.kind = .eof)
    (h : (exprList (fuel + 1)).run s = .ok es s') : Read .list s es s' := by
  simp only [exprList, run_bind_eq_ok, run_eat_eq_ok] at h
  obtain ⟨e, m, he, b, m', hcomma, h⟩ := h
  obtain ⟨ws, hws, hreads⟩ := ih.exprFrom heof he
  obtain ⟨hkind, rfl, rfl⟩ | ⟨hkind, rfl, rfl⟩ := hcomma
  · simp only [if_true, run_bind_eq_ok, run_pure_eq_ok] at h
    obtain ⟨es, _, hes, rfl, rfl⟩ := h
    have hw := passes_of_peek (hws.eof_kind heof) hkind nofun
    obtain ⟨ws', hws', hreads'⟩ := ih.exprList (hw.eof_kind (hws.eof_kind heof)) hes
    rw [hkind] at hreads
    exact ⟨_, hws.trans (hw.trans hws'), .more hkind hreads hreads'⟩
  · simp only [Bool.false_eq_true, if_false, run_pure_eq_ok] at h
    obtain ⟨rfl, rfl⟩ := h
    exact ⟨ws, hws, .one hkind hreads⟩

theorem arguments_sound (ih : Sound fuel) {r : List Expr × Span} (heof : s.eof.kind = .eof)
    (h : (arguments (fuel + 1)).run s = .ok r s') : Read .arguments s r.1 s' := by
  simp only [arguments, pure_bind, run_bind_eq_ok, run_expect_eq_ok, run_check_eq_ok] at h
  obtain ⟨_, _, ⟨hopen, rfl, rfl⟩, b, m, ⟨hb, rfl⟩, h⟩ := h
  have hw := passes_of_peek heof hopen nofun
  cases b with
  | true =>
    simp only [if_true, run_bind_eq_ok, run_expect_eq_ok, run_pure_eq_ok] at h
    obtain ⟨_, _, ⟨hclose, rfl, rfl⟩, rfl, rfl⟩ := h
    have hw' := passes_of_peek (hw.eof_kind heof) hclose nofun
    exact ⟨_, hw.trans hw', .noArguments hopen hclose⟩
  | false =>
    simp only [Bool.false_eq_true, if_false, run_bind_eq_ok, run_expect_eq_ok,
      run_pure_eq_ok] at h
    obtain ⟨es, m, hes, _, _, ⟨hclose, rfl, rfl⟩, rfl, rfl⟩ := h
    obtain ⟨ws, hws, hreads⟩ := ih.exprList (hw.eof_kind heof) hes
    have hw' := passes_of_peek (hws.eof_kind (hw.eof_kind heof)) hclose nofun
    rw [hclose] at hreads
    exact ⟨_, hw.trans (hws.trans hw'), .arguments hopen hclose hreads⟩

theorem subscripts_sound (ih : Sound fuel) {span : Span} {r : List Expr × Span}
    (heof : s.eof.kind = .eof) (h : (subscripts (fuel + 1) span).run s = .ok r s') :
    Read .subscripts s r.1 s' := by
  simp only [subscripts, run_bind_eq_ok, run_eat_eq_ok] at h
  obtain ⟨b, m, ⟨hopen, rfl, rfl⟩ | ⟨hopen, rfl, rfl⟩, h⟩ := h
  · simp only [if_true, run_bind_eq_ok, run_expect_eq_ok, run_pure_eq_ok] at h
    obtain ⟨es, m, hes, _, _, ⟨hclose, rfl, rfl⟩, more, m', hmore, rfl, rfl⟩ := h
    have hw := passes_of_peek heof hopen nofun
    obtain ⟨ws, hws, hreads⟩ := ih.exprList (hw.eof_kind heof) hes
    have heof' := hws.eof_kind (hw.eof_kind heof)
    have hw' := passes_of_peek heof' hclose nofun
    obtain ⟨ws', hws', hreads'⟩ := ih.subscripts (hw'.eof_kind heof') hmore
    rw [hclose] at hreads
    refine ⟨_, hw.trans (hws.trans (hw'.trans hws')), ?_⟩
    rw [exprsBare_append]
    exact .subscripts hopen hclose hreads hreads'
  · simp only [Bool.false_eq_true, if_false, run_pure_eq_ok] at h
    obtain ⟨rfl, rfl⟩ := h
    exact ⟨[], .refl _, .noSubscripts hopen⟩

theorem callKeyword_sound (ih : Sound fuel) {c : Call} (heof : s.eof.kind = .eof)
    (h : (callKeyword (fuel + 1) false).run s = .ok c s') : Read .operand s [c.toExpr] s' := by
  simp only [callKeyword, pure_bind, run_bind_eq_ok, run_expect_eq_ok, run_check_eq_ok] at h
  obtain ⟨_, _, ⟨hword, rfl, rfl⟩, _, _, ⟨hname, rfl, rfl⟩, b, m, ⟨hb, rfl⟩, h⟩ := h
  have hw := passes_of_peek heof hword nofun
  have hw' := passes_of_peek (hw.eof_kind heof) hname nofun
  cases b with
  | true =>
    simp only [if_true, run_bind_eq_ok, run_pure_eq_ok] at h
    obtain ⟨r, m, hr, rfl, rfl⟩ := h
    obtain ⟨ws, hws, hreads⟩ := ih.arguments (hw'.eof_kind (hw.eof_kind heof)) hr
    exact ⟨_, hw.trans (hw'.trans hws), .callWith hword hname hreads⟩
  | false =>
    simp only [Bool.false_eq_true, if_false, run_pure_eq_ok] at h
    obtain ⟨rfl, rfl⟩ := h
    exact ⟨_, hw.trans hw', .callPlain hword hname (by simpa using hb)⟩

theorem operand_sound (ih : Sound fuel) {e : Expr} (heof : s.eof.kind = .eof)
    (h : (operand (fuel + 1)).run s = .ok e s') : Read .operand s [e] s' := by
  rw [operand, run_bind_eq_ok] at h
  obtain ⟨t, m, hpeek, h⟩ := h
  obtain ⟨rfl, rfl⟩ := run_peek_eq_ok.mp hpeek
  split at h
  next op hop =>
    simp only [run_bind_eq_ok, run_advance_eq_ok, run_pure_eq_ok] at h
    obtain ⟨_, _, ⟨rfl, rfl⟩, e, m, he, rfl, rfl⟩ := h
    have hw : s.Passes [s.peek.word] s.advance :=
      State.passes_advance heof (by rintro hk; simp [hk, UnaryOp.ofToken?] at hop)
    obtain ⟨ws, hws, hreads⟩ := ih.exprFrom (hw.eof_kind heof) he
    exact ⟨_, hw.trans hws, .prefixed hop hreads⟩
  next =>
    split at h
    case h_1 hkind | h_2 hkind =>
      simp only [run_bind_eq_ok, run_advance_eq_ok, run_integer_eq_ok, run_pure_eq_ok] at h
      obtain ⟨_, _, ⟨rfl, rfl⟩, v, m, ⟨hlt, rfl, rfl⟩, rfl, rfl⟩ := h
      exact ⟨_, passes_of_peek heof hkind (by rintro ⟨⟩), .int (by simp [hkind]) hlt⟩
    case h_3 hkind =>
      simp only [run_bind_eq_ok, run_advance_eq_ok, run_realNumber_eq_ok, run_pure_eq_ok] at h
      obtain ⟨_, _, ⟨rfl, rfl⟩, v, m, ⟨hv, rfl⟩, rfl, rfl⟩ := h
      exact ⟨_, passes_of_peek heof hkind (by rintro ⟨⟩), .real hkind hv⟩
    case h_4 hkind =>
      simp only [run_bind_eq_ok, run_advance_eq_ok, run_pure_eq_ok] at h
      obtain ⟨_, _, ⟨rfl, rfl⟩, rfl, rfl⟩ := h
      exact ⟨_, passes_of_peek heof hkind (by rintro ⟨⟩), .str hkind⟩
    case h_5 hkind =>
      simp only [run_bind_eq_ok, run_advance_eq_ok, run_check_eq_ok] at h
      obtain ⟨_, _, ⟨rfl, rfl⟩, b, m, ⟨hb, rfl⟩, h⟩ := h
      have hw := passes_of_peek heof hkind (by rintro ⟨⟩)
      cases b with
      | true =>
        simp only [if_true, run_bind_eq_ok, run_pure_eq_ok] at h
        obtain ⟨r, m, hr, rfl, rfl⟩ := h
        obtain ⟨ws, hws, hreads⟩ := ih.arguments (hw.eof_kind heof) hr
        exact ⟨_, hw.trans hws, .call hkind hreads⟩
      | false =>
        simp only [Bool.false_eq_true, if_false, run_bind_eq_ok, run_pure_eq_ok] at h
        obtain ⟨r, m, hr, rfl, rfl⟩ := h
        obtain ⟨ws, hws, hreads⟩ := ih.subscripts (hw.eof_kind heof) hr
        rw [hws.peek_kind] at hb
        exact ⟨_, hw.trans hws, .var hkind (by simpa using hb) hreads⟩
    case h_6 hkind =>
      simp only [run_bind_eq_ok, run_pure_eq_ok] at h
      obtain ⟨c, m, hc, rfl, rfl⟩ := h
      exact ih.callKeyword heof hc
    case h_7 hkind =>
      simp only [run_bind_eq_ok, run_advance_eq_ok, run_expect_eq_ok, run_pure_eq_ok] at h
      obtain ⟨_, _, ⟨rfl, rfl⟩, e, m, he, _, _, ⟨hclose, rfl, rfl⟩, rfl, rfl⟩ := h
      have hw := passes_of_peek heof hkind (by rintro ⟨⟩)
      obtain ⟨ws, hws, hreads⟩ := ih.exprFrom (hw.eof_kind heof) he
      have hw' := passes_of_peek (hws.eof_kind (hw.eof_kind heof)) hclose (by rintro ⟨⟩)
      rw [hclose] at hreads
      exact ⟨_, hw.trans (hws.trans hw'), .paren hkind hclose hreads⟩
    case h_8 => exact absurd h run_failAt_eq_ok

/-- **The steps read what the grammar says**, whatever their bound is. -/
theorem sound (fuel : Nat) : Sound fuel := by
  induction fuel with
  | zero =>
    constructor
    all_goals
      intros
      rename_i h
      simp only [exprFrom, operators, operand, exprList, arguments, subscripts, callKeyword] at h
      exact absurd h run_exhausted_eq_ok
  | succ fuel ih =>
    exact ⟨exprFrom_sound ih, operators_sound ih, operand_sound ih, exprList_sound ih,
      arguments_sound ih, subscripts_sound ih, callKeyword_sound ih⟩

/-- **An expression that was parsed** is made up of the words it was parsed from. -/
theorem expression_sound {e : Expr} (heof : s.eof.kind = .eof)
    (h : expression.run s = .ok e s') : Read (.whole 0) s [e] s' := by
  simp only [expression, expressionFrom, run_bind_eq_ok, run_get_eq_ok] at h
  obtain ⟨_, _, ⟨rfl, rfl⟩, h⟩ := h
  exact (sound _).exprFrom heof h

end Sound

/-! ### What the words say is what the parser answers -/

/-- That the steps for a phrase take its words, once their bound is large enough. -/
def IsTaken : Phrase → List Word → TokenKind → List Expr → Prop
  | .whole power, ws, next, out => ∀ fuel, 4 * ws.length ≤ fuel →
    Takes (exprFrom fuel power) ws next fun e => out = [e.bare]
  | .tail power left, ws, next, out => ∀ fuel left', left'.bare = left → 4 * ws.length + 1 ≤ fuel →
    Takes (operators fuel power left') ws next fun e => out = [e.bare]
  | .operand, ws, next, out => ∀ fuel, 4 * ws.length ≤ fuel + 1 →
    Takes (operand fuel) ws next fun e => out = [e.bare]
  | .list, ws, next, out => ∀ fuel, 4 * ws.length + 1 ≤ fuel →
    Takes (exprList fuel) ws next fun es => out = exprsBare es
  | .arguments, ws, next, out => ∀ fuel, 4 * ws.length ≤ fuel + 6 →
    Takes (arguments fuel) ws next fun r => out = exprsBare r.1
  | .subscripts, ws, next, out => ∀ fuel span, 4 * ws.length + 1 ≤ fuel →
    Takes (subscripts fuel span) ws next fun r => out = exprsBare r.1

/-- A call with the keyword, as it was written. -/
def IsCall (name : Word) (args : List Expr) (isProcedure : Bool) (c : Call) : Prop :=
  c.toExpr.bare = .call (.ofText name.lexeme .zero) args isProcedure true .zero

theorem takes_callKeyword_arguments {ws : List Word} {w w' : Word} {next : TokenKind}
    {args : List Expr} (hword : w.kind = .keyword .callKw) (hkind : w'.kind = .identifier)
    (hreads : Reads .arguments ws next args) (h : IsTaken .arguments ws next args) {fuel : Nat}
    (hfuel : 4 * ws.length ≤ fuel) (isProcedure : Bool) :
    Takes (callKeyword fuel isProcedure) (w :: w' :: ws) next (IsCall w' args isProcedure) := by
  obtain ⟨hopen, hlength⟩ := hreads.open_paren
  obtain ⟨fuel, rfl⟩ : ∃ n, fuel = n + 1 := ⟨fuel - 1, by omega⟩
  simp only [callKeyword, pure_bind]
  refine .expect hword fun t _ => .expect hkind fun t' ht' => .check ?_
  simp only [hopen next, beq_self_eq_true, if_true]
  refine (h fuel (by omega)).andThen fun r hr => ?_
  simp [IsCall, Call.toExpr, Expr.bare, hr, ← ht']

theorem takes_callKeyword_plain {w w' : Word} {next : TokenKind}
    (hword : w.kind = .keyword .callKw) (hkind : w'.kind = .identifier)
    (hparen : next ≠ .sign .leftParen) {fuel : Nat} (isProcedure : Bool) :
    Takes (callKeyword (fuel + 1) isProcedure) [w, w'] next (IsCall w' [] isProcedure) := by
  simp only [callKeyword, pure_bind]
  refine .expect hword fun t _ => .expect hkind fun t' ht' => .check ?_
  simp only [nextKind_nil, beq_eq_false_iff_ne.mpr hparen, Bool.false_eq_true, if_false]
  exact .pure (by simp [IsCall, Call.toExpr, Expr.bare, exprsBare, ← ht'])

namespace IsTaken

variable {w w' : Word} {ws ws' : List Word} {next : TokenKind} {e left right : Expr}
  {es out : List Expr} {power : Nat}

/-! ### Operators -/

theorem whole (hreads : Reads .operand ws (nextKind ws' next) [left])
    (hleft : IsTaken .operand ws (nextKind ws' next) [left])
    (htail : IsTaken (.tail power left) ws' next out) :
    IsTaken (.whole power) (ws ++ ws') next out := by
  obtain ⟨w, ws, rfl, -⟩ := hreads.front rfl
  rintro (_ | fuel) hfuel
  · simp at hfuel
  · simp only [List.length_append, List.length_cons] at hfuel hleft
    rw [exprFrom]
    refine (hleft fuel (by simp only [List.length_cons]; omega)).bind fun e he => ?_
    exact htail fuel e (by simpa using he.symm) (by omega)

theorem stop (hstop : ∀ op, BinaryOp.ofToken? next = some op → op.bindingPower < power) :
    IsTaken (.tail power left) [] next [left] := by
  rintro (_ | fuel) e rfl hfuel
  · simp at hfuel
  · rw [operators]
    refine .peekKind fun t ht => ?_
    rw [nextKind_nil] at ht
    rw [ht]
    cases hop : BinaryOp.ofToken? next with
    | none => exact .pure rfl
    | some op =>
      simp only [if_pos (hstop op hop)]
      exact .pure rfl

theorem infixed {op : BinaryOp} (hop : BinaryOp.ofToken? w.kind = some op)
    (hpower : power ≤ op.bindingPower)
    (hright : IsTaken (.whole (op.bindingPower + 1)) ws (nextKind ws' next) [right])
    (htail : IsTaken (.tail power (.binary op left right .zero)) ws' next out) :
    IsTaken (.tail power left) (w :: (ws ++ ws')) next out := by
  rintro (_ | fuel) e rfl hfuel
  · simp at hfuel
  · simp only [List.length_append, List.length_cons] at hfuel
    rw [operators]
    refine .peekWord fun t ht => ?_
    rw [← ht, Token.word_kind] at hop
    simp only [hop, if_neg (Nat.not_lt.mpr hpower)]
    refine .advance fun _ _ => ?_
    refine (hright fuel (by omega)).bind fun e' he' => ?_
    refine htail fuel _ ?_ (by omega)
    simpa [Expr.op, Expr.bare] using he'.symm

theorem prefixed {op : UnaryOp} (hop : UnaryOp.ofToken? w.kind = some op)
    (h : IsTaken (.whole op.bindingPower) ws next [e]) :
    IsTaken .operand (w :: ws) next [.unary op e .zero] := by
  rintro (_ | fuel) hfuel
  · simp only [List.length_cons] at hfuel
    omega
  · simp only [List.length_cons] at hfuel
    rw [operand]
    refine .peekWord fun t ht => ?_
    rw [← ht, Token.word_kind] at hop
    simp only [hop]
    refine .advance fun _ _ => (h fuel (by omega)).andThen fun e' he' => ?_
    simpa [Expr.bare] using he'

/-! ### Operands -/

theorem int (hkind : w.kind = .int ∨ w.kind = .hex)
    (hlt : literalValue w.kind w.lexeme.toList < literalBound) : IsTaken .operand [w] next
      [.int (Int32.ofInt (literalValue w.kind w.lexeme.toList)) .zero] := by
  rintro (_ | fuel) hfuel
  · simp at hfuel
  · rw [operand]
    refine .peekWord fun t ht => ?_
    subst ht
    have hint : Takes (integer t) [] next fun v =>
        Int32.ofInt (literalValue t.kind t.lexeme.toList) = v :=
      .keeps fun s => run_integer_eq_ok.mpr ⟨hlt, rfl, rfl⟩
    rcases hkind with hkind | hkind <;>
    · rw [Token.word_kind] at hkind
      simp only [hkind, UnaryOp.ofToken?]
      refine .advance fun _ _ => hint.andThen ?_
      rintro v rfl
      rfl

theorem real {v : Decimal} (hkind : w.kind = .real) (hv : Decimal.ofLiteral w.lexeme.toList = .ok v) :
    IsTaken .operand [w] next [.real v .zero] := by
  rintro (_ | fuel) hfuel
  · simp at hfuel
  · rw [operand]
    refine .peekWord fun t ht => ?_
    subst ht
    have hreal : Takes (realNumber t) [] next (v = ·) :=
      .keeps fun s => run_realNumber_eq_ok.mpr ⟨hv, rfl⟩
    rw [Token.word_kind] at hkind
    simp only [hkind, UnaryOp.ofToken?]
    refine .advance fun _ _ => hreal.andThen ?_
    rintro v rfl
    rfl

theorem str (hkind : w.kind = .string) : IsTaken .operand [w] next [.str w.lexeme .zero] := by
  rintro (_ | fuel) hfuel
  · simp at hfuel
  · rw [operand]
    refine .peekWord fun t ht => ?_
    subst ht
    rw [Token.word_kind] at hkind
    simp only [hkind, UnaryOp.ofToken?]
    exact .advance fun _ _ => .pure rfl

theorem call (hkind : w.kind = .identifier) (hreads : Reads .arguments ws next es)
    (h : IsTaken .arguments ws next es) :
    IsTaken .operand (w :: ws) next [.call (.ofText w.lexeme .zero) es false false .zero] := by
  rintro (_ | fuel) hfuel
  · simp only [List.length_cons] at hfuel
    omega
  · simp only [List.length_cons] at hfuel
    rw [operand]
    refine .peekWord fun t ht => ?_
    subst ht
    rw [Token.word_kind] at hkind
    simp only [hkind, UnaryOp.ofToken?]
    refine .advance fun _ _ => .check ?_
    simp only [hreads.open_paren.1, beq_self_eq_true, if_true]
    refine (h fuel (by omega)).andThen fun r hr => ?_
    simp [Expr.bare, hr]

theorem var (hkind : w.kind = .identifier) (hparen : nextKind ws next ≠ .sign .leftParen)
    (h : IsTaken .subscripts ws next es) :
    IsTaken .operand (w :: ws) next [.var (.ofText w.lexeme .zero) es .zero] := by
  rintro (_ | fuel) hfuel
  · simp only [List.length_cons] at hfuel
    omega
  · simp only [List.length_cons] at hfuel
    rw [operand]
    refine .peekWord fun t ht => ?_
    subst ht
    rw [Token.word_kind] at hkind
    simp only [hkind, UnaryOp.ofToken?]
    refine .advance fun _ _ => .check ?_
    simp only [beq_eq_false_iff_ne.mpr hparen, Bool.false_eq_true, if_false]
    refine (h fuel _ (by omega)).andThen fun r hr => ?_
    simp [Expr.bare, hr]

theorem callWith (hword : w.kind = .keyword .callKw) (hkind : w'.kind = .identifier)
    (hreads : Reads .arguments ws next es) (h : IsTaken .arguments ws next es) :
    IsTaken .operand (w :: w' :: ws) next [.call (.ofText w'.lexeme .zero) es false true .zero] := by
  rintro (_ | fuel) hfuel
  · simp only [List.length_cons] at hfuel
    omega
  · simp only [List.length_cons] at hfuel
    rw [operand]
    refine .peekWord fun t ht => ?_
    subst ht
    simp only [← Token.word_kind, hword, UnaryOp.ofToken?]
    exact (takes_callKeyword_arguments hword hkind hreads h (by omega) false).andThen
      fun c hc => congrArg (fun e => [e]) hc.symm

theorem callPlain (hword : w.kind = .keyword .callKw) (hkind : w'.kind = .identifier)
    (hparen : next ≠ .sign .leftParen) :
    IsTaken .operand [w, w'] next [.call (.ofText w'.lexeme .zero) [] false true .zero] := by
  rintro (_ | _ | fuel) hfuel
  · simp at hfuel
  · simp at hfuel
  · rw [operand]
    refine .peekWord fun t ht => ?_
    subst ht
    simp only [← Token.word_kind, hword, UnaryOp.ofToken?]
    exact (takes_callKeyword_plain hword hkind hparen false).andThen
      fun c hc => congrArg (fun e => [e]) hc.symm

theorem paren (hopen : w.kind = .sign .leftParen) (hclose : w'.kind = .sign .rightParen)
    (h : IsTaken (.whole 0) ws (.sign .rightParen) [e]) :
    IsTaken .operand (w :: (ws ++ [w'])) next [e] := by
  rintro (_ | fuel) hfuel
  · simp only [List.length_cons] at hfuel
    omega
  · simp only [List.length_cons, List.length_append] at hfuel
    rw [operand]
    refine .peekWord fun t ht => ?_
    subst ht
    simp only [← Token.word_kind, hopen, UnaryOp.ofToken?]
    refine .advance fun _ _ => ?_
    have hnext : nextKind [w'] next = .sign .rightParen := hclose
    rw [← hnext] at h
    exact (h fuel (by omega)).bind fun e' he' => .expect hclose fun _ _ => .pure he'

/-! ### Lists -/

theorem one (hcomma : next ≠ .sign .comma) (h : IsTaken (.whole 0) ws next [e]) :
    IsTaken .list ws next [e] := by
  rintro (_ | fuel) hfuel
  · simp at hfuel
  · rw [exprList]
    refine (h fuel (by omega)).bindNil fun e' he' => .eatNot hcomma ?_
    simp only [Bool.false_eq_true, if_false]
    exact .pure he'

theorem more (hcomma : w.kind = .sign .comma) (h : IsTaken (.whole 0) ws (.sign .comma) [e])
    (hmore : IsTaken .list ws' next es) : IsTaken .list (ws ++ w :: ws') next (e :: es) := by
  rintro (_ | fuel) hfuel
  · simp at hfuel
  · simp only [List.length_cons, List.length_append] at hfuel
    rw [exprList]
    have hnext : nextKind (w :: ws') next = .sign .comma := hcomma
    rw [← hnext] at h
    refine (h fuel (by omega)).bind fun e' he' => .eat hcomma ?_
    simp only [if_true]
    refine (hmore fuel (by omega)).andThen fun es' hes' => ?_
    rw [exprsBare, ← hes', ← List.head_eq_of_cons_eq he']

theorem noArguments (hopen : w.kind = .sign .leftParen) (hclose : w'.kind = .sign .rightParen) :
    IsTaken .arguments [w, w'] next [] := by
  rintro (_ | fuel) hfuel
  · simp at hfuel
  · simp only [Parser.arguments, pure_bind]
    refine .expect hopen fun _ _ => .check ?_
    simp only [nextKind_cons, hclose, beq_self_eq_true, if_true]
    exact .expect hclose fun _ _ => .pure rfl

theorem arguments (hopen : w.kind = .sign .leftParen) (hclose : w'.kind = .sign .rightParen)
    (hreads : Reads .list ws (.sign .rightParen) es) (h : IsTaken .list ws (.sign .rightParen) es) :
    IsTaken .arguments (w :: (ws ++ [w'])) next es := by
  rintro (_ | fuel) hfuel
  · simp only [List.length_cons, List.length_append] at hfuel
    omega
  · simp only [List.length_cons, List.length_append] at hfuel
    obtain ⟨v, vs, rfl, hv⟩ := hreads.front rfl
    simp only [Parser.arguments, pure_bind]
    refine .expect hopen fun _ _ => .check ?_
    simp only [List.cons_append, nextKind_cons, beq_eq_false_iff_ne.mpr hv, Bool.false_eq_true,
      if_false]
    have hnext : nextKind [w'] next = .sign .rightParen := hclose
    rw [← hnext] at h
    exact (h fuel (by omega)).bind fun es' hes' => .expect hclose fun _ _ => .pure hes'

theorem noSubscripts (hbracket : next ≠ .sign .leftBracket) : IsTaken .subscripts [] next [] := by
  rintro (_ | fuel) span hfuel
  · simp at hfuel
  · rw [Parser.subscripts]
    refine .eatNot hbracket ?_
    simp only [Bool.false_eq_true, if_false]
    exact .pure rfl

theorem subscripts {more : List Expr} (hopen : w.kind = .sign .leftBracket)
    (hclose : w'.kind = .sign .rightBracket) (h : IsTaken .list ws (.sign .rightBracket) es)
    (hmore : IsTaken .subscripts ws' next more) :
    IsTaken .subscripts (w :: (ws ++ w' :: ws')) next (es ++ more) := by
  rintro (_ | fuel) span hfuel
  · simp at hfuel
  · simp only [List.length_cons, List.length_append] at hfuel
    rw [Parser.subscripts]
    refine .eat hopen ?_
    simp only [if_true]
    have hnext : nextKind (w' :: ws') next = .sign .rightBracket := hclose
    rw [← hnext] at h
    refine (h fuel (by omega)).bind fun es' hes' => .expect hclose fun _ _ => ?_
    refine (hmore fuel _ (by omega)).andThen fun r hr => ?_
    rw [exprsBare_append, ← hes', ← hr]

end IsTaken

/-- **The steps for a phrase take its words.** -/
theorem isTaken_of_reads {ph : Phrase} {ws : List Word} {next : TokenKind} {out : List Expr}
    (h : Reads ph ws next out) : IsTaken ph ws next out := by
  induction h with
  | whole hleft _ ihleft ihtail => exact .whole hleft ihleft ihtail
  | stop hstop => exact .stop hstop
  | infixed hop hpower _ _ ihright ihtail => exact .infixed hop hpower ihright ihtail
  | prefixed hop _ ih => exact .prefixed hop ih
  | int hkind hlt => exact .int hkind hlt
  | real hkind hv => exact .real hkind hv
  | str hkind => exact .str hkind
  | call hkind hargs ih => exact .call hkind hargs ih
  | var hkind hparen _ ih => exact .var hkind hparen ih
  | callWith hword hkind hargs ih => exact .callWith hword hkind hargs ih
  | callPlain hword hkind hparen => exact .callPlain hword hkind hparen
  | paren hopen hclose _ ih => exact .paren hopen hclose ih
  | one hcomma _ ih => exact .one hcomma ih
  | more hcomma _ _ ih ihmore => exact .more hcomma ih ihmore
  | noArguments hopen hclose => exact .noArguments hopen hclose
  | arguments hopen hclose hlist ih => exact .arguments hopen hclose hlist ih
  | noSubscripts hbracket => exact .noSubscripts hbracket
  | subscripts hopen hclose _ _ ih ihmore => exact .subscripts hopen hclose ih ihmore

/-- **Words that make up an expression are parsed to that expression.** -/
theorem expression_takes {ws : List Word} {next : TokenKind} {e : Expr}
    (h : Reads (.whole 0) ws next [e]) : Takes expression ws next (·.bare = e) := by
  refine .bounded fun n hn => ((isTaken_of_reads h) n (by omega)).mono fun e' he' => ?_
  simpa using he'.symm

end FlatScript.Parser
