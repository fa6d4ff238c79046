import FlatScript.Proofs.Orthography.Rule
import FlatScript.Proofs.Reading.Branches
import FlatScript.Proofs.Reading.Progress

/-!
# Parsed scripts and their tokens

A script that is parsed has no names, strings and words but those of its tokens, so it obeys every
orthography that the tokens obey.

What a step of the parser makes of the tokens depends on these tokens, so the state is followed
through the step, which the theorems on how far the parser gets allow.

* `FlatScript.Token.Obeys` is what is known of the tokens.
* `FlatScript.Parser.Yields` says what a step makes of such tokens.
* `FlatScript.Script.obeys_of_parse`: the blocks of a parsed script obey the orthography.
-/

namespace FlatScript

/-- **A token that is a name or a string as it should be.** -/
structure Token.Obeys (o : Orthography) (t : Token) : Prop where
  name : t.kind = .identifier → o.Names t.lexeme
  string : t.kind = .string → o.string t.lexeme

namespace Parser

variable {o : Orthography} {α β : Type} {k n : Nat} {s s' : State}

/-! ### States -/

/-- **The tokens ahead obey the orthography.** -/
structure State.Obeys (o : Orthography) (s : State) : Prop where
  rest : ∀ t ∈ s.rest, t.Obeys o
  eof : s.eof.kind = .eof

namespace State.Obeys

theorem peek (h : s.Obeys o) : s.peek.Obeys o := by
  obtain ⟨rest, eof, start⟩ := s
  cases rest with
  | nil =>
    have hkind : eof.kind = .eof := h.eof
    refine ⟨?_, ?_⟩ <;> simp [State.peek, hkind]
  | cons t ts => exact h.rest t (by simp)

theorem ahead (h : s.Obeys o) (hs : s.Ahead k s') : s'.Obeys o :=
  ⟨fun t ht => h.rest t (hs.rest.subset ht), by rw [hs.eof, h.eof]⟩

end State.Obeys

/-! ### What a step yields -/

/-- **All that a step makes of tokens that obey the orthography has a property.** -/
def Yields (o : Orthography) (x : Parse α) (P : α → Prop) (s : State) : Prop :=
  s.Obeys o → ∀ a s', x.run s = .ok a s' → P a ∧ s'.Obeys o

namespace Yields

variable {x y : Parse α} {f : α → Parse β} {P : α → Prop} {Q : β → Prop} {kind : TokenKind}

theorem ret {a : α} (h : P a) : Yields o (pure a) P s := by
  rintro hs _ _ ⟨⟩
  exact ⟨h, hs⟩

theorem fail {e : ParseFault} : Yields o (throw e) P s := by
  rintro _ _ _ ⟨⟩

theorem failAt {kind : ParseErrorKind} {span : Span} {message : String} :
    Yields o (Parser.failAt kind span message) P s := fail

theorem exhausted : Yields o Parser.exhausted P s := by
  rintro _ _ _ ⟨⟩

theorem bind (hx : Yields o x P s) (hf : ∀ a s', P a → Yields o (f a) Q s') :
    Yields o (x >>= f) Q s := by
  intro hs b s'' hrun
  obtain ⟨a, m, hm, hrun⟩ := run_bind_eq_ok.mp hrun
  obtain ⟨ha, hobeys⟩ := hx hs a m hm
  exact hf a m ha hobeys b s'' hrun

/-- A step whose result does not matter, in front of another one. -/
theorem behind (hx : Strides k x y s) (hf : ∀ a s', Yields o (f a) Q s') :
    Yields o (x >>= f) Q s := by
  refine bind (P := fun _ => True) (fun hs a s' hrun => ⟨trivial, ?_⟩) fun a s' _ => hf a s'
  have hlands := (hx hs.eof).2
  rw [hrun] at hlands
  exact hs.ahead hlands

theorem ite {c : Prop} [Decidable c] {z : Parse α} (hx : c → Yields o x P s)
    (hz : ¬c → Yields o z P s) : Yields o (if c then x else z) P s := by
  split
  next hc => exact hx hc
  next hc => exact hz hc

/-- A look at the next token. -/
theorem peek {f : Token → Parse β} (h : s.peek.Obeys o → Yields o (f s.peek) Q s) :
    Yields o (Parser.peek >>= f) Q s := fun hs => h hs.peek hs

/-- A look at the whole state. -/
theorem get {f : State → Parse β} (h : Yields o (f s) Q s) :
    Yields o (MonadState.get >>= f) Q s := h

/-- A look at the kind of the next token. -/
theorem check {f : Bool → Parse β} (h : Yields o (f (s.peek.kind == kind)) Q s) :
    Yields o (Parser.check kind >>= f) Q s := h

/-- A token that is taken. -/
theorem advance {f : Token → Parse β} (h : s.peek.Obeys o → ∀ s', Yields o (f s.peek) Q s') :
    Yields o (Parser.advance >>= f) Q s :=
  fun hs => h hs.peek s.advance (hs.ahead (.advance s))

/-- A token that has to be of a kind. -/
theorem expect {f : Token → Parse β} (h : ∀ t s', t.kind = kind → t.Obeys o → Yields o (f t) Q s') :
    Yields o (Parser.expect kind >>= f) Q s := by
  intro hs b s'' hrun
  obtain ⟨t, m, ht, hrun⟩ := run_bind_eq_ok.mp hrun
  obtain ⟨hkind, rfl, rfl⟩ := run_expect_eq_ok.mp ht
  exact h s.peek s.advance hkind hs.peek (hs.ahead (.advance s)) b s'' hrun

/-- A token that is taken if it is of a kind. -/
theorem eat {f : Bool → Parse β} (h : ∀ s', Yields o (f true) Q s') (h' : Yields o (f false) Q s) :
    Yields o (Parser.eat kind >>= f) Q s := by
  intro hs b s'' hrun
  obtain ⟨taken, m, ht, hrun⟩ := run_bind_eq_ok.mp hrun
  rcases run_eat_eq_ok.mp ht with ⟨-, rfl, rfl⟩ | ⟨-, rfl, rfl⟩
  · exact h s.advance (hs.ahead (.advance s)) b s'' hrun
  · exact h' hs b s'' hrun

end Yields

/-! ### Expressions -/

/-- What is known of a call that has been read. -/
structure CallRead (o : Orthography) (isProcedure : Bool) (c : Call) : Prop where
  name : o.callee c.name.sigil c.name.name
  args : exprsMeet o.rule c.args
  place : c.isProcedure = isProcedure

/-- What the functions of expressions make of tokens with a given bound. -/
structure YieldsExpressions (o : Orthography) (n : Nat) : Prop where
  exprFrom : ∀ power {s}, Yields o (Parser.exprFrom n power) (·.Meets o.rule) s
  operators : ∀ power left, left.Meets o.rule → ∀ {s},
    Yields o (Parser.operators n power left) (·.Meets o.rule) s
  operand : ∀ {s}, Yields o (Parser.operand n) (·.Meets o.rule) s
  exprList : ∀ {s}, Yields o (Parser.exprList n) (exprsMeet o.rule) s
  arguments : ∀ {s}, Yields o (Parser.arguments n) (fun r => exprsMeet o.rule r.1) s
  subscripts : ∀ span {s}, Yields o (Parser.subscripts n span) (fun r => exprsMeet o.rule r.1) s
  callKeyword : ∀ isProcedure {s},
    Yields o (Parser.callKeyword n isProcedure) (CallRead o isProcedure) s

/-- A call in an expression. -/
theorem CallRead.meets {c : Call} (h : CallRead o false c) : c.toExpr.Meets o.rule :=
  ⟨⟨h.name, fun _ => h.place⟩, argsMeet_of_exprsMeet h.args⟩

/-- A call that is a statement. -/
theorem CallRead.readKind {c : Call} (h : CallRead o true c) : ReadKind o.rule (.call c) :=
  fun _ => ⟨⟨h.name, fun _ => h.place⟩, argsMeet_of_exprsMeet h.args⟩

/-- A call of a name. -/
theorem callRead {t : Token} {args : List Expr} (ht : t.Obeys o) (hkind : t.kind = .identifier)
    (hargs : exprsMeet o.rule args) (isProcedure usingCall : Bool) (span : Span) :
    CallRead o isProcedure
      ⟨Ident.ofText t.lexeme t.span, args, isProcedure, usingCall, span⟩ :=
  ⟨(ht.name hkind).callee, hargs, rfl⟩

theorem exprFrom_yields (ih : YieldsExpressions o n) (power : Nat) :
    Yields o (exprFrom (n + 1) power) (·.Meets o.rule) s := by
  simp only [exprFrom]
  exact ih.operand.bind fun left s' hleft => ih.operators power left hleft

theorem operators_yields (ih : YieldsExpressions o n) (power : Nat) {left : Expr}
    (hleft : left.Meets o.rule) : Yields o (operators (n + 1) power left) (·.Meets o.rule) s := by
  simp only [operators]
  refine .peek fun _ => ?_
  cases BinaryOp.ofToken? s.peek.kind with
  | none => exact .ret hleft
  | some op =>
    refine .ite (fun _ => .ret hleft) fun _ => .advance fun _ s' => ?_
    exact (ih.exprFrom _).bind fun right s'' hright =>
      ih.operators _ (left.op op right) (.inr ⟨trivial, hleft, hright⟩)

theorem operand_yields (ih : YieldsExpressions o n) :
    Yields o (operand (n + 1)) (·.Meets o.rule) s := by
  simp only [operand]
  refine .peek fun hpeek => ?_
  cases UnaryOp.ofToken? s.peek.kind with
  | some op => exact .advance fun _ s' => (ih.exprFrom _).bind fun e s'' he => .ret ⟨trivial, he⟩
  | none =>
    dsimp only
    split
    next => exact .advance fun _ s' => .behind (integer_strides _) fun v s'' => .ret trivial
    next => exact .advance fun _ s' => .behind (integer_strides _) fun v s'' => .ret trivial
    next => exact .advance fun _ s' => .behind (realNumber_strides _) fun v s'' => .ret trivial
    next hkind => exact .advance fun _ s' => .ret (hpeek.string hkind)
    next hkind =>
      refine .advance fun _ s' => .check (.ite (fun _ => ?_) fun _ => ?_)
      · exact ih.arguments.bind fun r s'' hr => .ret (callRead hpeek hkind hr _ _ _).meets
      · exact (ih.subscripts _).bind fun r s'' hr => .ret ⟨(hpeek.name hkind).reference, hr⟩
    next => exact (ih.callKeyword false).bind fun c s' hc => .ret hc.meets
    next =>
      refine .advance fun _ s' => (ih.exprFrom 0).bind fun e s'' he => ?_
      exact .expect fun _ _ _ _ => .ret he
    next => exact .failAt

theorem exprList_yields (ih : YieldsExpressions o n) :
    Yields o (exprList (n + 1)) (exprsMeet o.rule) s := by
  simp only [exprList]
  refine (ih.exprFrom 0).bind fun e s' he => .eat (fun s'' => ?_) (.ret ⟨he, trivial⟩)
  exact ih.exprList.bind fun es s₃ hes => .ret ⟨he, hes⟩

theorem arguments_yields (ih : YieldsExpressions o n) :
    Yields o (arguments (n + 1)) (fun r => exprsMeet o.rule r.1) s := by
  simp only [arguments, pure_bind]
  refine .expect fun _ s' _ _ => .check (.ite (fun _ => ?_) fun _ => ?_)
  · exact .expect fun _ _ _ _ => .ret trivial
  · exact ih.exprList.bind fun args s'' hargs => .expect fun _ _ _ _ => .ret hargs

theorem subscripts_yields (ih : YieldsExpressions o n) (span : Span) :
    Yields o (subscripts (n + 1) span) (fun r => exprsMeet o.rule r.1) s := by
  simp only [subscripts]
  refine .eat (fun s' => ?_) (.ret trivial)
  refine ih.exprList.bind fun first s'' hfirst => .expect fun _ s₃ _ _ => ?_
  exact (ih.subscripts _).bind fun r s₄ hr => .ret (exprsMeet_append.mpr ⟨hfirst, hr⟩)

theorem callKeyword_yields (ih : YieldsExpressions o n) (isProcedure : Bool) :
    Yields o (callKeyword (n + 1) isProcedure) (CallRead o isProcedure) s := by
  simp only [callKeyword, pure_bind]
  refine .expect fun start s' _ _ => .expect fun name s'' hkind hname => ?_
  have hnone : exprsMeet o.rule [] := trivial
  refine .check (.ite (fun _ => ?_) fun _ => .ret (callRead hname hkind hnone _ _ _))
  exact ih.arguments.bind fun r s₃ hr => .ret (callRead hname hkind hr _ _ _)

/-- **An expression obeys the orthography of its tokens.** -/
theorem expressions_yield : ∀ n, YieldsExpressions o n
  | 0 => ⟨fun _ => .exhausted, fun _ _ _ => .exhausted, .exhausted, .exhausted, .exhausted,
    fun _ => .exhausted, fun _ => .exhausted⟩
  | n + 1 =>
    have ih := expressions_yield n
    ⟨fun power => exprFrom_yields ih power, fun power _ hleft => operators_yields ih power hleft,
      operand_yields ih, exprList_yields ih, arguments_yields ih,
      fun span => subscripts_yields ih span, fun isProcedure => callKeyword_yields ih isProcedure⟩

theorem expression_yields : Yields o expression (·.Meets o.rule) s :=
  .get ((expressions_yield _).exprFrom 0)

theorem argumentList_yields : Yields o argumentList (fun r => exprsMeet o.rule r.1) s :=
  .get (expressions_yield _).arguments

theorem callWithKeyword_yields (isProcedure : Bool) :
    Yields o (callWithKeyword isProcedure) (CallRead o isProcedure) s :=
  .get ((expressions_yield _).callKeyword isProcedure)

theorem varRefRest_yields {ident : Ident} (hident : o.reference ident.sigil ident.name) :
    Yields o (varRefRest ident) (·.Meets o.rule) s :=
  .get (((expressions_yield _).subscripts _).bind fun _ _ hr => .ret ⟨hident, hr⟩)

theorem varRef_yields : Yields o varRef (·.Meets o.rule) s :=
  .expect fun _ _ hkind ht => varRefRest_yields (ht.name hkind).reference

/-! ### Pieces of statements -/

theorem modifiersOf_words {eof : Token} {ts : List Token} (hts : ∀ t ∈ ts, t.Obeys o) :
    ∀ m ∈ (modifiersOf eof ts).1, o.word m := by
  fun_induction modifiersOf eof ts with
  | case1 t ts hkind words rest heq ih =>
    rw [List.forall_mem_cons] at hts
    rw [heq] at ih
    exact List.forall_mem_cons.mpr ⟨(hts.1.name hkind.1).word, ih hts.2⟩
  | case2 => simp
  | case3 => simp

theorem modifiers_yields : Yields o modifiers (fun ms => ∀ m ∈ ms, o.word m) s := by
  rintro hs _ _ ⟨⟩
  refine ⟨modifiersOf_words hs.rest, fun t ht => hs.rest t ?_, hs.eof⟩
  exact (modifiersOf_suffix s.eof s.rest).subset ht

theorem valueList_yields (isArray : Bool) :
    Yields o (valueList? isArray)
      (fun r => ∀ es ∈ r, exprsMeet o.rule es ∧ (isArray = true ∨ 2 ≤ es.length)) s := by
  refine .get fun hs => ?_
  cases hrun : argumentList.run s with
  | error e s' =>
    rintro _ _ ⟨⟩
    exact ⟨by simp, hs⟩
  | ok r s' =>
    obtain ⟨hr, hs'⟩ := argumentList_yields hs _ _ hrun
    obtain ⟨values, span⟩ := r
    dsimp only
    split
    · next hlist =>
      simp only [Bool.and_eq_true, Bool.or_eq_true, decide_eq_true_eq] at hlist
      rintro _ _ ⟨⟩
      exact ⟨by simpa using ⟨hr, hlist.2⟩, hs'⟩
    · rintro _ _ ⟨⟩
      exact ⟨by simp, hs⟩

theorem initializer_yields (isArray : Bool) :
    Yields o (initializer isArray) (fun i => i.Meets o.rule ∧ i.Listed isArray) s := by
  have hsingle : ∀ {s}, Yields o (do return .single (← expression) : Parse Initializer)
      (fun i => i.Meets o.rule ∧ i.Listed isArray) s :=
    expression_yields.bind fun e s' he => .ret ⟨he, trivial⟩
  refine .check (.ite (fun _ => ?_) fun _ => hsingle)
  refine (valueList_yields isArray).bind fun values s' hvalues => ?_
  cases values with
  | some values => exact .ret (hvalues values rfl)
  | none => exact hsingle

theorem declaredSize_yields : Yields o declaredSize (fun r => ∀ e ∈ r, e.Meets o.rule) s := by
  refine .eat (fun s' => ?_) (.ret (by simp))
  refine expression_yields.bind fun size s'' hsize => .expect fun _ _ _ _ => .ret ?_
  simpa using hsize

theorem declaredParams_yields : Yields o declaredParams (exprsMeet o.rule) s :=
  .check (.ite (fun _ => argumentList_yields.bind fun _ _ hr => .ret hr) fun _ => .ret trivial)

theorem declaredInit_yields (isArray : Bool) :
    Yields o (declaredInit isArray) (fun r => ∀ i ∈ r, i.Meets o.rule ∧ i.Listed isArray) s :=
  .eat (fun s' => (initializer_yields isArray).bind fun i s'' hi => .ret (by simpa using hi))
    (.ret (by simp))

theorem declaration_yields : Yields o declaration (ReadKind o.rule) s := by
  refine .expect fun _ _ _ _ => modifiers_yields.bind fun modifiers _ hmodifiers => ?_
  refine .expect fun name _ hkind hname => declaredSize_yields.bind fun size _ hsize => ?_
  refine declaredParams_yields.bind fun params _ hparams => ?_
  refine (declaredInit_yields _).bind fun init _ hinit => .behind .expectLineEnd fun _ _ => ?_
  exact .ret fun span => ⟨⟨(hname.name hkind).declared, hmodifiers, fun _ i hi => (hinit i hi).2⟩,
    hsize, hparams, fun i hi => (hinit i hi).1⟩

theorem assignOrCall_yields (hkind : s.peek.kind = .identifier) :
    Yields o assignOrCall (ReadKind o.rule) s := by
  refine .advance fun ht s' => .peek fun _ => ?_
  refine .ite (fun _ => ?_) fun _ => .ite (fun _ => ?_) fun _ => ?_
  · refine argumentList_yields.bind fun r s'' hr => .behind .expectLineEnd fun _ _ => ?_
    exact .ret (callRead ht hkind hr true false _).readKind
  · refine (varRefRest_yields (ht.name hkind).reference).bind fun target s'' htarget => ?_
    refine .expect fun _ _ _ _ => expression_yields.bind fun value _ hvalue => ?_
    exact .behind .expectLineEnd fun _ _ => .ret fun span => .inr ⟨trivial, htarget, hvalue⟩
  · have hnone : exprsMeet o.rule [] := trivial
    exact .behind .expectLineEnd fun _ _ =>
      .ret (callRead ht hkind hnone true false _).readKind

theorem callStatement_yields : Yields o callStatement (ReadKind o.rule) s :=
  (callWithKeyword_yields true).bind fun _ _ hc => .behind .expectLineEnd fun _ _ =>
    .ret hc.readKind

/-- What is known of the head of a counting loop. -/
structure LoopHead.Obeys (o : Orthography) (h : LoopHead) : Prop where
  var : h.var.Meets o.rule
  start : h.start.Meets o.rule
  stop : h.stop.Meets o.rule
  step : ∀ e ∈ h.step, e.Meets o.rule

theorem loopHead_yields : Yields o loopHead (LoopHead.Obeys o) s := by
  refine .expect fun _ _ _ _ => varRef_yields.bind fun var _ hvar => ?_
  refine .expect fun _ _ _ _ => expression_yields.bind fun start _ hstart => ?_
  refine .peek fun _ => .ite (fun _ => ?_) fun _ => ?_
  · rintro _ _ _ ⟨⟩
  · refine .advance fun _ _ => expression_yields.bind fun stop _ hstop => ?_
    simp only [pure_bind]
    refine .eat (fun _ => ?_) (.behind .expectLineEnd fun _ _ => ?_)
    · refine expression_yields.bind fun step _ hstep => .behind .expectLineEnd fun _ _ => ?_
      exact .ret ⟨hvar, hstart, hstop, by simpa using hstep⟩
    · exact .ret ⟨hvar, hstart, hstop, by simp⟩

theorem caseHead_yields :
    Yields o caseHead (fun r => r.1.Meets o.rule ∧ ∀ e ∈ r.2, e.Meets o.rule) s := by
  refine expression_yields.bind fun start _ hstart => ?_
  simp only [pure_bind]
  refine .eat (fun _ => ?_) (.behind .expectLineEnd fun _ _ => .ret ⟨hstart, by simp⟩)
  refine expression_yields.bind fun stop _ hstop => .behind .expectLineEnd fun _ _ => ?_
  exact .ret ⟨hstart, by simpa using hstop⟩

theorem condition_yields (keyword : Keyword) : Yields o (condition keyword) (·.Meets o.rule) s := by
  refine .expect fun _ _ _ _ => expression_yields.bind fun cond _ hcond => ?_
  exact .behind .expectLineEnd fun _ _ => .ret hcond

theorem nameList_yields : ∀ n {s}, Yields o (nameList n) (fun is => ∀ i ∈ is, o.title i.name) s
  | 0, _ => .exhausted
  | n + 1, _ => by
    simp only [nameList]
    refine .expect fun t s' hkind ht => ?_
    have hname : o.title (Ident.ofText t.lexeme t.span).name := (ht.name hkind).title
    refine .eat (fun s'' => ?_) (.ret (by simpa using hname))
    exact (nameList_yields n).bind fun names _ hnames =>
      .ret (List.forall_mem_cons.mpr ⟨hname, hnames⟩)

theorem synonymRest_yields {name : Ident} (hname : o.title name.name) :
    Yields o (synonymRest name) (ReadKind o.rule) s := by
  simp only [synonymRest, pure_bind]
  have hrest : ∀ {indices s}, (∀ i ∈ indices, o.title i.name) → Yields o
      (do
        let _ ← expect (.sign .arrow)
        let target ← varRef
        expectLineEnd
        return .synonym name indices target : Parse StmtKind) (ReadKind o.rule) s := by
    intro indices s hindices
    refine .expect fun _ _ _ _ => varRef_yields.bind fun target _ htarget => ?_
    exact .behind .expectLineEnd fun _ _ => .ret fun span => ⟨⟨hname, hindices⟩, htarget⟩
  refine .eat (fun s' => .get ((nameList_yields _).bind fun indices _ hindices => ?_)) ?_
  · exact .expect fun _ _ _ _ => hrest hindices
  · exact hrest (by simp)

/-! ### Heads of functions -/

theorem param_yields : Yields o param (fun p => o.title p.name.name) s := by
  refine .expect fun first s' hkind hfirst => ?_
  have hname := (hfirst.name hkind).title
  cases ParamKind.ofWord? first.lexeme with
  | none => exact .ret hname
  | some kind =>
    refine .check (.ite (fun hnext => ?_) fun _ => .ret hname)
    exact .advance fun ht _ => .ret (ht.name (beq_iff_eq.mp hnext)).title

theorem paramList_yields : ∀ n {s}, Yields o (paramList n) (fun ps => ∀ p ∈ ps, o.title p.name.name) s
  | 0, _ => .exhausted
  | n + 1, _ => by
    simp only [paramList]
    refine param_yields.bind fun p _ hp => .eat (fun s' => ?_) (.ret (by simpa using hp))
    exact (paramList_yields n).bind fun ps _ hps => .ret (List.forall_mem_cons.mpr ⟨hp, hps⟩)

theorem params_yields : Yields o params (fun ps => ∀ p ∈ ps, o.title p.name.name) s := by
  simp only [params, pure_bind]
  refine .eat (fun s' => .check (.ite (fun _ => ?_) fun _ => ?_)) (.ret (by simp))
  · exact .expect fun _ _ _ _ => .ret (by simp)
  · exact .get ((paramList_yields _).bind fun ps _ hps => .expect fun _ _ _ _ => .ret hps)

theorem functionHead_yields (isOverride : Bool) :
    Yields o (functionHead isOverride) (fun r => o.Head r.2) s := by
  refine .advance fun _ s' => ?_
  extract_lets jp
  have hjp : ∀ closing {s}, Yields o (jp closing) (fun r => o.Head r.2) s := by
    intro closing s
    simp only [jp, pure_bind]
    refine .expect fun name _ hkind hname => params_yields.bind fun params _ hparams => ?_
    have hhead := (hname.name hkind).title
    refine .eat (fun s' => .expect fun _ _ _ _ => ?_) ?_
    · exact .behind .expectLineEnd fun _ _ => .ret ⟨hhead, hparams⟩
    · exact .behind .expectLineEnd fun _ _ => .ret ⟨hhead, hparams⟩
  split
  · exact hjp _
  · exact hjp _
  · rintro _ _ _ ⟨⟩

/-! ### Statements -/

/-- What the functions of statements make of tokens with a given bound. -/
structure YieldsStatements (o : Orthography) (n : Nat) : Prop where
  statements : ∀ {s}, Yields o (Parser.statements n) (stmtsMeet o.rule) s
  statementFrom : ∀ {s}, Yields o (Parser.statementFrom n) (·.Meets o.rule) s
  branchesFrom : ∀ {s}, Yields o (Parser.branchesFrom n)
    (fun r => branchesMeet o.rule r.1 ∧ stmtsMeet o.rule r.2) s
  casesFrom : ∀ {s}, Yields o (Parser.casesFrom n) (casesMeet o.rule) s
  propertyFrom : ∀ {s}, Yields o (Parser.propertyFrom n) (ReadKind o.rule) s
  accessorsFrom : ∀ {s}, Yields o (Parser.accessorsFrom n)
    (fun fs => functionsMeet o.rule fs ∧ ∀ f ∈ fs, o.Head f) s
  functionFrom : ∀ isOverride {s}, Yields o (Parser.functionFrom n isOverride)
    (fun f => o.Head f ∧ stmtsMeet o.rule f.body) s

theorem statements_yields (ih : YieldsStatements o n) :
    Yields o (statements (n + 1)) (stmtsMeet o.rule) s := by
  simp only [statements]
  refine .behind .skipNewlines fun _ s' => .peek fun _ => .ite (fun _ => .ret trivial) fun _ => ?_
  exact ih.statementFrom.bind fun stmt _ hstmt => ih.statements.bind fun stmts _ hstmts =>
    .ret ⟨hstmt, hstmts⟩

theorem statementFrom_yields (ih : YieldsStatements o n) :
    Yields o (statementFrom (n + 1)) (·.Meets o.rule) s := by
  simp only [statementFrom, pure_bind]
  refine .peek fun _ => ?_
  have hwritten : ∀ k s', ReadKind o.rule k →
      Yields o (pure (Stmt.written k s.peek.span)) (·.Meets o.rule) s' := fun _ _ hk => .ret (hk _)
  split
  · exact declaration_yields.bind hwritten
  · exact ih.propertyFrom.bind hwritten
  · refine (condition_yields _).bind fun cond _ hcond => ih.statements.bind fun body _ hbody => ?_
    exact .behind (expectEnd_strides _) fun _ _ => .ret ⟨trivial, hcond, trivial, hbody⟩
  · refine loopHead_yields.bind fun head _ hhead => ih.statements.bind fun body _ hbody => ?_
    exact .behind (expectEnd_strides _) fun _ _ =>
      .ret ⟨trivial, hhead.var, hhead.start, hhead.stop, hhead.step, trivial, hbody⟩
  · refine ih.branchesFrom.bind fun r _ hr => ?_
    exact .behind (expectEnd_strides _) fun _ _ => .ret ⟨trivial, hr.1, trivial, hr.2⟩
  · refine (condition_yields _).bind fun subject _ hsubject => ?_
    refine ih.casesFrom.bind fun cases _ hcases => ?_
    exact .behind (expectEnd_strides _) fun _ _ => .ret ⟨trivial, hsubject, hcases⟩
  · refine .expect fun _ _ _ _ => .expect fun name _ hkind hname => ?_
    refine .behind .expectLineEnd fun _ _ => ?_
    refine ih.statements.bind fun body _ hbody => .behind (expectEnd_strides _) fun _ _ => ?_
    exact .ret ⟨(hname.name hkind).family, trivial, hbody⟩
  · exact callStatement_yields.bind hwritten
  next hkind => exact (assignOrCall_yields hkind).bind hwritten
  · rintro _ _ _ ⟨⟩

theorem branchesFrom_yields (ih : YieldsStatements o n) : Yields o (branchesFrom (n + 1))
    (fun r => branchesMeet o.rule r.1 ∧ stmtsMeet o.rule r.2) s := by
  simp only [branchesFrom]
  refine (condition_yields _).bind fun cond _ hcond => ih.statements.bind fun body _ hbody => ?_
  have hone : branchesMeet o.rule [⟨cond, body⟩] := ⟨hcond, trivial, hbody, trivial⟩
  refine .eat (fun s' => .check (.ite (fun _ => ?_) fun _ => ?_)) (.ret ⟨hone, trivial⟩)
  · exact ih.branchesFrom.bind fun r _ hr => .ret ⟨⟨hcond, trivial, hbody, hr.1⟩, hr.2⟩
  · exact .behind .expectLineEnd fun _ _ => ih.statements.bind fun otherwise _ ho => .ret ⟨hone, ho⟩

theorem casesFrom_yields (ih : YieldsStatements o n) :
    Yields o (casesFrom (n + 1)) (casesMeet o.rule) s := by
  simp only [casesFrom]
  refine .behind .skipNewlines fun _ s' => .eat (fun s'' => ?_) (.ret trivial)
  refine caseHead_yields.bind fun head _ hhead => ih.statements.bind fun body _ hbody => ?_
  exact ih.casesFrom.bind fun cases _ hcases => .ret ⟨hhead.1, hhead.2, trivial, hbody, hcases⟩

theorem propertyFrom_yields (ih : YieldsStatements o n) :
    Yields o (propertyFrom (n + 1)) (ReadKind o.rule) s := by
  simp only [propertyFrom]
  refine .expect fun _ _ _ _ => .expect fun name _ hkind hname => ?_
  have hhead := (hname.name hkind).title
  refine .peek fun _ => .ite (fun _ => synonymRest_yields hhead) fun _ => ?_
  refine .behind .expectLineEnd fun _ _ => ih.accessorsFrom.bind fun fs _ hfs => ?_
  exact .behind (expectEnd_strides _) fun _ _ => .ret fun span => ⟨⟨hhead, hfs.2⟩, hfs.1⟩

theorem accessorsFrom_yields (ih : YieldsStatements o n) : Yields o (accessorsFrom (n + 1))
    (fun fs => functionsMeet o.rule fs ∧ ∀ f ∈ fs, o.Head f) s := by
  simp only [accessorsFrom]
  refine .behind .skipNewlines fun _ s' => .check (.ite (fun _ => ?_) fun _ => ?_)
  · refine (ih.functionFrom _).bind fun f _ hf => ih.accessorsFrom.bind fun fs _ hfs => ?_
    obtain ⟨name, params, result, body, isTaskfunc, isOverride, span⟩ := f
    exact .ret ⟨⟨trivial, hf.2, hfs.1⟩, List.forall_mem_cons.mpr ⟨hf.1, hfs.2⟩⟩
  · exact .ret ⟨trivial, by simp⟩

theorem functionFrom_yields (ih : YieldsStatements o n) (isOverride : Bool) :
    Yields o (functionFrom (n + 1) isOverride)
      (fun f => o.Head f ∧ stmtsMeet o.rule f.body) s := by
  simp only [functionFrom]
  refine (functionHead_yields _).bind fun head _ hhead => ih.statements.bind fun body _ hbody => ?_
  exact .behind (expectEnd_strides _) fun _ _ => .ret ⟨⟨hhead.name, hhead.params⟩, hbody⟩

/-- **Statements obey the orthography of their tokens.** -/
theorem grammar_yields : ∀ n, YieldsStatements o n
  | 0 => ⟨.exhausted, .exhausted, .exhausted, .exhausted, .exhausted, .exhausted,
    fun _ => .exhausted⟩
  | n + 1 =>
    have ih := grammar_yields n
    ⟨statements_yields ih, statementFrom_yields ih, branchesFrom_yields ih, casesFrom_yields ih,
      propertyFrom_yields ih, accessorsFrom_yields ih,
      fun isOverride => functionFrom_yields ih isOverride⟩

theorem function_yields (isOverride : Bool) :
    Yields o (function isOverride) (fun f => o.Head f ∧ stmtsMeet o.rule f.body) s :=
  .get ((grammar_yields _).functionFrom isOverride)

/-! ### Blocks -/

theorem control_yields : Yields o control (fun c => ∀ i ∈ c, o.reference i.sigil i.name) s := by
  refine .eat (fun s' => ?_) (.ret (by simp))
  refine .expect fun name _ hkind hname => .expect fun _ _ _ _ => .ret ?_
  rintro _ ⟨⟩
  exact (hname.name hkind).reference

theorem callback_yields : Yields o callback (fun c => (Block.callback c).Obeys o) s := by
  refine .expect fun _ _ _ _ => .expect fun name _ hkind hname => ?_
  refine control_yields.bind fun control _ hcontrol => .behind .expectLineEnd fun _ _ => ?_
  refine Yields.bind (.get (grammar_yields _).statements) fun body _ hbody => ?_
  exact .behind (expectEnd_strides _) fun _ _ => .ret ⟨(hname.name hkind).word, hcontrol, hbody⟩

/-- **A block obeys the orthography of its tokens.** -/
theorem block_yields : Yields o block (Block.Obeys o) s := by
  refine .peek fun _ => ?_
  split
  · exact callback_yields.bind fun c _ hc => .ret hc
  · exact .advance fun _ _ => (function_yields true).bind fun f _ hf => .ret hf
  · exact (function_yields false).bind fun f _ hf => .ret hf
  · exact (function_yields false).bind fun f _ hf => .ret hf
  · exact .failAt

/-- So do the blocks of a script, also behind a fault. -/
theorem obeys_blocks : ∀ n {s : State}, s.Obeys o → ∀ b ∈ (blocks n s).1, b.Obeys o
  | 0, _, _ => by simp [blocks]
  | n + 1, s, hs => by
    have hskip := hs.ahead (.skipNewlines s)
    have hlands := (block_strides hskip.eof).2
    simp only [blocks]
    split
    · simp
    · cases hrun : block.run s.skipNewlines with
      | ok b s' =>
        obtain ⟨hb, hs'⟩ := block_yields hskip _ _ hrun
        exact List.forall_mem_cons.mpr ⟨hb, obeys_blocks n hs'⟩
      | error fault s' =>
        rw [hrun] at hlands
        have hs' := hskip.ahead hlands.1
        exact obeys_blocks n (hs'.ahead (synchronize_strides hs'.eof).2)

end Parser

/-- **The blocks of a parsed script obey the orthography of its tokens.** -/
theorem Script.obeys_of_parse {o : Orthography} {source : String} {lines : Lines} {s : Script}
    (ht : ∀ t ∈ (tokenize source).1, t.Obeys o) (h : Script.parse source lines = .ok s) :
    ∀ b ∈ s.blocks, b.Obeys o := by
  have hstart := Parser.State.At.start source
  have hobeys : (Parser.State.ofTokens (tokenize source).1).Obeys o := by
    have hdrop := hstart.drop_eq
    rw [List.drop_zero] at hdrop
    refine ⟨fun t hmem => ht t ?_, hstart.eof⟩
    rw [hdrop]
    exact List.mem_append_left _ hmem
  unfold Script.parse at h
  dsimp only at h
  split at h
  · cases h
    exact Parser.obeys_blocks _ hobeys
  · cases h

end FlatScript
