import FlatScript.Proofs.Reading.Strides
import FlatScript.Proofs.Reading.Tiling

/-!
# The parser gets on

A step that succeeds without taking a token could be taken for ever. The parser has loops and
functions that call each other, and one place where it goes back, so this has to be seen of every
function: an expression, a statement, a function and a block take a token at least, and what may
take none is asked for only where a token has been taken before.

* `FlatScript.Parser.grammar_steady`: with a bound that is large enough, the functions of statements
  take the tokens they have to take, and no larger bound makes a difference.
* `FlatScript.Parser.State.At`: the parser is at a position of the tokens, and
  `FlatScript.Parser.State.Proceeds` says how it gets on from there.
* `FlatScript.Parser.State.Boundless`: from a state, no function uses up the bound it is given.
* `FlatScript.Parser.Rounds`: the rounds of parsing a script, without a bound on their number.
* `FlatScript.Parser.parse_progress`: **the parser gets on with every script**.
-/

namespace FlatScript.Parser

variable {n : Nat} {s : State}

/-! ### Pieces of statements -/

theorem expectEnd_strides (keyword : Keyword) :
    Strides 1 (expectEnd keyword) (expectEnd keyword) s := by
  refine .bind (.expect (by decide)) fun start s' h => .peek (.ite (fun _ => ?_) fun _ => ?_)
  · exact fun _ => ⟨rfl, .refl _, not_tooDeep_of_kind (by decide) _ _⟩
  · exact .bind .advance fun _ _ _ => .expectLineEnd

theorem expression_strides : Strides 1 expression expression s := expressionFrom_strides 0

theorem modifiersOf_suffix (eof : Token) (ts : List Token) : (modifiersOf eof ts).2 <:+ ts := by
  fun_induction modifiersOf eof ts with
  | case1 t ts _ words rest heq ih =>
    rw [heq] at ih
    exact ih.trans (List.suffix_cons t ts)
  | case2 t ts _ => exact List.suffix_rfl
  | case3 => exact List.suffix_rfl

theorem modifiers_strides : Strides 0 modifiers modifiers s := by
  refine fun _ => ⟨rfl, ?_⟩
  have hsuffix := modifiersOf_suffix s.eof s.rest
  exact ⟨hsuffix, rfl, hsuffix.length_le⟩

/-- **The list of values is tried**, and the parser goes back when it is none. -/
theorem valueList_strides (isArray : Bool) :
    Strides 0 (valueList? isArray) (valueList? isArray) s := by
  refine .get ?_
  intro heof
  refine ⟨rfl, ?_⟩
  obtain ⟨-, hlands⟩ := argumentList_strides heof
  cases hrun : argumentList.run s with
  | error e s' =>
    dsimp only
    exact State.Ahead.refl s
  | ok r s' =>
    rw [hrun] at hlands
    obtain ⟨values, span⟩ := r
    dsimp only
    split
    · exact State.Ahead.mono hlands (Nat.zero_le _)
    · exact State.Ahead.refl s

theorem initializer_strides (isArray : Bool) :
    Strides 0 (initializer isArray) (initializer isArray) s := by
  have hsingle : ∀ {s}, Strides 0 (do return .single (← expression) : Parse Initializer)
      (do return .single (← expression)) s :=
    .bind expression_strides fun e s' h => .pure _
  refine .check (.ite (fun _ => ?_) fun _ => hsingle)
  refine .bind (valueList_strides isArray) fun values s' h => ?_
  cases values with
  | some values => exact .pure _
  | none => exact hsingle

theorem declaredSize_strides : Strides 0 declaredSize declaredSize s := by
  refine .eat (by decide) (fun s' h => ?_) (.pure _)
  exact .bind expression_strides fun size _ _ => .bind (.expect (by decide)) fun _ _ _ => .pure _

theorem declaredParams_strides : Strides 0 declaredParams declaredParams s :=
  .check (.ite (fun _ => .bind argumentList_strides fun _ _ _ => .pure _) fun _ => .pure _)

theorem declaredInit_strides (isArray : Bool) :
    Strides 0 (declaredInit isArray) (declaredInit isArray) s :=
  .eat (by decide) (fun s' h => .bind (initializer_strides isArray) fun i _ _ => .pure _) (.pure _)

theorem declaration_strides : Strides 1 declaration declaration s := by
  refine .bind (.expect (by decide)) fun _ _ _ => .bind modifiers_strides fun modifiers _ _ => ?_
  refine .bind (.expect (by decide)) fun name _ _ => .bind declaredSize_strides fun size _ _ => ?_
  refine .bind declaredParams_strides fun params _ _ => ?_
  refine .bind (declaredInit_strides _) fun init _ _ => ?_
  exact .bind .expectLineEnd fun _ _ _ => .pure _

theorem assignOrCall_strides (h : s.peek.kind ≠ .eof) : Strides 1 assignOrCall assignOrCall s := by
  refine .bind (.advance_of_ne h) fun token _ _ => .peek (.ite (fun _ => ?_) fun _ => ?_)
  · exact .bind argumentList_strides fun r _ _ => .bind .expectLineEnd fun _ _ _ => .pure _
  · refine .ite (fun _ => ?_) fun _ => .bind .expectLineEnd fun _ _ _ => .pure _
    refine .bind (varRefRest_strides _) fun target _ _ => .bind (.expect (by decide)) fun _ _ _ => ?_
    exact .bind expression_strides fun value _ _ => .bind .expectLineEnd fun _ _ _ => .pure _

theorem callStatement_strides : Strides 1 callStatement callStatement s :=
  .bind (callWithKeyword_strides true) fun _ _ _ => .bind .expectLineEnd fun _ _ _ => .pure _

theorem loopHead_strides : Strides 1 loopHead loopHead s := by
  refine .bind (.expect (by decide)) fun _ _ _ => .bind varRef_strides fun var _ _ => ?_
  refine .bind (.expect (by decide)) fun _ _ _ => .bind expression_strides fun start _ _ => ?_
  refine .peek (.ite (fun _ => ?_) fun _ => ?_)
  · exact fun _ => ⟨rfl, .refl _, not_tooDeep_expected _ _ _⟩
  · refine .bind .advance fun _ _ _ => .bind expression_strides fun stop _ _ => ?_
    simp only [pure_bind]
    refine .eat (by decide) (fun _ _ => ?_) ?_
    · exact .bind expression_strides fun step _ _ => .bind .expectLineEnd fun _ _ _ => .pure _
    · exact .bind .expectLineEnd fun _ _ _ => .pure _

theorem caseHead_strides : Strides 1 caseHead caseHead s := by
  refine .bind expression_strides fun start _ _ => ?_
  simp only [pure_bind]
  refine .eat (by decide) (fun _ _ => ?_) (.bind .expectLineEnd fun _ _ _ => .pure _)
  exact .bind expression_strides fun stop _ _ => .bind .expectLineEnd fun _ _ _ => .pure _

theorem condition_strides (keyword : Keyword) :
    Strides 1 (condition keyword) (condition keyword) s := by
  refine .bind (.expect (by simp)) fun _ _ _ => .bind expression_strides fun cond _ _ => ?_
  exact .bind .expectLineEnd fun _ _ _ => .pure _

theorem nameList_steady : ∀ n, Steady 1 1 nameList n
  | 0 => .zero (by decide)
  | n + 1 => .succ (by decide) fun m s hn hm => by
    simp only [nameList]
    refine .bind (.expect (by decide)) fun token _ _ => .eat (by decide) (fun s' h => ?_) (.pure _)
    exact .bind (nameList_steady n m s' (by omega) (by omega)) fun names _ _ => .pure _

theorem synonymRest_strides (name : Ident) : Strides 0 (synonymRest name) (synonymRest name) s := by
  have hrest : ∀ {indices s}, Strides 0
      (do
        let _ ← expect (.sign .arrow)
        let target ← varRef
        expectLineEnd
        return .synonym name indices target : Parse StmtKind)
      (do
        let _ ← expect (.sign .arrow)
        let target ← varRef
        expectLineEnd
        return .synonym name indices target) s :=
    .bind (.expect (by decide)) fun _ _ _ => .bind varRef_strides fun target _ _ =>
      .bind .expectLineEnd fun _ _ _ => .pure _
  simp only [synonymRest, pure_bind]
  refine .eat (by decide) (fun s' h => ?_) hrest
  refine .get (.bind (nameList_steady _ _ _ (by unfold bound; omega) (by unfold bound; omega)) ?_)
  exact fun indices _ _ => .bind (.expect (by decide)) fun _ _ _ => hrest

/-! ### Heads of functions -/

theorem param_strides : Strides 1 param param s := by
  refine .bind (.expect (by decide)) fun first s' _ => ?_
  cases ParamKind.ofWord? first.lexeme with
  | none => exact .pure _
  | some kind => exact .check (.ite (fun _ => .bind .advance fun name _ _ => .pure _) fun _ => .pure _)

theorem paramList_steady : ∀ n, Steady 1 1 paramList n
  | 0 => .zero (by decide)
  | n + 1 => .succ (by decide) fun m s hn hm => by
    simp only [paramList]
    refine .bind param_strides fun p _ _ => .eat (by decide) (fun s' h => ?_) (.pure _)
    exact .bind (paramList_steady n m s' (by omega) (by omega)) fun ps _ _ => .pure _

theorem params_strides : Strides 0 params params s := by
  simp only [params, pure_bind]
  refine .eat (by decide) (fun s' h => .check (.ite (fun _ => ?_) fun _ => ?_)) (.pure _)
  · exact .bind (.expect (by decide)) fun _ _ _ => .pure _
  · refine .get (.bind (paramList_steady _ _ s' (by unfold bound; omega) (by unfold bound; omega)) ?_)
    exact fun ps _ _ => .bind (.expect (by decide)) fun _ _ _ => .pure _

theorem functionHead_strides (isOverride : Bool) :
    Strides 1 (functionHead isOverride) (functionHead isOverride) s := by
  refine .take (fun hk s' h => ?_) (fun hk s' => ?_)
  · extract_lets jp
    have hjp : ∀ closing {s}, Strides 0 (jp closing) (jp closing) s := by
      intro closing s
      simp only [jp, pure_bind]
      refine .bind (.expect (by decide)) fun name _ _ => .bind params_strides fun params _ _ => ?_
      refine .eat (by decide) (fun s' h => ?_) (.bind .expectLineEnd fun _ _ _ => .pure _)
      exact .bind (.expect (by decide)) fun result _ _ => .bind .expectLineEnd fun _ _ _ => .pure _
    split
    · exact hjp _
    · exact hjp _
    · exact fun _ => ⟨rfl, .refl _, not_tooDeep_expected _ _ _⟩
  · rw [hk]
    exact fun _ => ⟨rfl, .refl _, not_tooDeep_expected _ _ _⟩

/-! ### Statements -/

/-- What the functions of statements do with a given bound. -/
structure SteadyStatements (n : Nat) : Prop where
  statements : Steady 0 3 Parser.statements n
  statementFrom : Steady 1 2 Parser.statementFrom n
  branchesFrom : Steady 1 1 Parser.branchesFrom n
  casesFrom : Steady 0 1 Parser.casesFrom n
  propertyFrom : Steady 1 1 Parser.propertyFrom n
  accessorsFrom : Steady 0 2 Parser.accessorsFrom n
  functionFrom : ∀ isOverride, Steady 1 1 (Parser.functionFrom · isOverride) n

theorem statements_steady (ih : SteadyStatements n) : Steady 0 3 statements (n + 1) := by
  refine .succ (by decide) fun m s hn hm => ?_
  simp only [statements]
  refine .bind .skipNewlines fun _ s' h => .peek (.ite (fun _ => .pure _) fun _ => ?_)
  refine .bind (ih.statementFrom m s' (by omega) (by omega)) fun stmt s'' h' => ?_
  exact .bind (ih.statements m s'' (by omega) (by omega)) fun stmts _ _ => .pure _

theorem statementFrom_steady (ih : SteadyStatements n) : Steady 1 2 statementFrom (n + 1) := by
  refine .succ (by decide) fun m s hn hm => ?_
  simp only [statementFrom, pure_bind]
  refine .peek ?_
  split
  · exact .bind declaration_strides fun _ _ _ => .pure _
  · exact .bind (ih.propertyFrom m s (by omega) (by omega)) fun _ _ _ => .pure _
  · refine .bind (condition_strides _) fun cond s' h => ?_
    refine .bind (ih.statements m s' (by omega) (by omega)) fun body _ _ => ?_
    exact .bind (expectEnd_strides _) fun _ _ _ => .pure _
  · refine .bind loopHead_strides fun head s' h => ?_
    refine .bind (ih.statements m s' (by omega) (by omega)) fun body _ _ => ?_
    exact .bind (expectEnd_strides _) fun _ _ _ => .pure _
  · refine .bind (ih.branchesFrom m s (by omega) (by omega)) fun r _ _ => ?_
    exact .bind (expectEnd_strides _) fun _ _ _ => .pure _
  · refine .bind (condition_strides _) fun subject s' h => ?_
    refine .bind (ih.casesFrom m s' (by omega) (by omega)) fun cases _ _ => ?_
    exact .bind (expectEnd_strides _) fun _ _ _ => .pure _
  · refine .bind (.expect (by decide)) fun _ s' h => .bind (.expect (by decide)) fun name s'' h' => ?_
    refine .bind .expectLineEnd fun _ s₃ h₃ => ?_
    refine .bind (ih.statements m s₃ (by omega) (by omega)) fun body _ _ => ?_
    exact .bind (expectEnd_strides _) fun _ _ _ => .pure _
  · exact .bind callStatement_strides fun _ _ _ => .pure _
  next hk => exact .bind (assignOrCall_strides (by simp [hk])) fun _ _ _ => .pure _
  · exact fun _ => ⟨rfl, .refl _, not_tooDeep_of_kind (by decide) _ _⟩

theorem branchesFrom_steady (ih : SteadyStatements n) : Steady 1 1 branchesFrom (n + 1) := by
  refine .succ (by decide) fun m s hn hm => ?_
  simp only [branchesFrom]
  refine .bind (condition_strides _) fun cond s' h => ?_
  refine .bind (ih.statements m s' (by omega) (by omega)) fun body s'' h' => ?_
  refine .eat (by decide) (fun s₃ h₃ => .check (.ite (fun _ => ?_) fun _ => ?_)) (.pure _)
  · exact .bind (ih.branchesFrom m s₃ (by omega) (by omega)) fun r _ _ => .pure _
  · refine .bind .expectLineEnd fun _ s₄ h₄ => ?_
    exact .bind (ih.statements m s₄ (by omega) (by omega)) fun otherwise _ _ => .pure _

theorem casesFrom_steady (ih : SteadyStatements n) : Steady 0 1 casesFrom (n + 1) := by
  refine .succ (by decide) fun m s hn hm => ?_
  simp only [casesFrom]
  refine .bind .skipNewlines fun _ s' h => .eat (by decide) (fun s'' h' => ?_) (.pure _)
  refine .bind caseHead_strides fun head s₃ h₃ => ?_
  refine .bind (ih.statements m s₃ (by omega) (by omega)) fun body s₄ h₄ => ?_
  exact .bind (ih.casesFrom m s₄ (by omega) (by omega)) fun cases _ _ => .pure _

theorem propertyFrom_steady (ih : SteadyStatements n) : Steady 1 1 propertyFrom (n + 1) := by
  refine .succ (by decide) fun m s hn hm => ?_
  simp only [propertyFrom]
  refine .bind (.expect (by decide)) fun _ s' h => .bind (.expect (by decide)) fun name s'' h' => ?_
  refine .peek (.ite (fun _ => synonymRest_strides _) fun _ => ?_)
  refine .bind .expectLineEnd fun _ s₃ h₃ => ?_
  refine .bind (ih.accessorsFrom m s₃ (by omega) (by omega)) fun accessors _ _ => ?_
  exact .bind (expectEnd_strides _) fun _ _ _ => .pure _

theorem accessorsFrom_steady (ih : SteadyStatements n) : Steady 0 2 accessorsFrom (n + 1) := by
  refine .succ (by decide) fun m s hn hm => ?_
  simp only [accessorsFrom]
  refine .bind .skipNewlines fun _ s' h => .check (.ite (fun _ => ?_) fun _ => .pure _)
  refine .bind (ih.functionFrom _ m s' (by omega) (by omega)) fun f s'' h' => ?_
  exact .bind (ih.accessorsFrom m s'' (by omega) (by omega)) fun fs _ _ => .pure _

theorem functionFrom_steady (ih : SteadyStatements n) (isOverride : Bool) :
    Steady 1 1 (functionFrom · isOverride) (n + 1) := by
  refine .succ (by decide) fun m s hn hm => ?_
  simp only [functionFrom]
  refine .bind (functionHead_strides _) fun head s' h => ?_
  refine .bind (ih.statements m s' (by omega) (by omega)) fun body _ _ => ?_
  exact .bind (expectEnd_strides _) fun _ _ _ => .pure _

/-- **With a bound that is large enough, a function of statements takes the tokens it has to take,
and no larger bound makes a difference.** -/
theorem grammar_steady : ∀ n, SteadyStatements n
  | 0 => ⟨.zero (by decide), .zero (by decide), .zero (by decide), .zero (by decide),
    .zero (by decide), .zero (by decide), fun _ => .zero (by decide)⟩
  | n + 1 =>
    have ih := grammar_steady n
    ⟨statements_steady ih, statementFrom_steady ih, branchesFrom_steady ih, casesFrom_steady ih,
      propertyFrom_steady ih, accessorsFrom_steady ih, functionFrom_steady ih⟩

theorem body_strides : Strides 0 body body s :=
  Steady.bounded (fun n => (grammar_steady n).statements) (by decide) s

theorem statement_strides : Strides 1 statement statement s :=
  Steady.bounded (fun n => (grammar_steady n).statementFrom) (by decide) s

theorem function_strides (isOverride : Bool) :
    Strides 1 (function isOverride) (function isOverride) s :=
  Steady.bounded (fun n => (grammar_steady n).functionFrom isOverride) (by decide) s

/-! ### Blocks -/

theorem control_strides : Strides 0 control control s := by
  refine .eat (by decide) (fun s' h => ?_) (.pure _)
  exact .bind (.expect (by decide)) fun name _ _ => .bind (.expect (by decide)) fun _ _ _ => .pure _

theorem callback_strides : Strides 1 callback callback s := by
  refine .bind (.expect (by decide)) fun start _ _ => .bind (.expect (by decide)) fun name _ _ => ?_
  refine .bind control_strides fun control _ _ => .bind .expectLineEnd fun _ _ _ => ?_
  refine .bind body_strides fun body _ _ => .bind (expectEnd_strides _) fun _ _ _ => .pure _

theorem block_strides : Strides 1 block block s := by
  refine .peek ?_
  split
  · exact .bind callback_strides fun c _ _ => .pure _
  next hk =>
    refine .bind (.advance_of_ne (by simp [hk])) fun _ _ _ => ?_
    exact .bind (function_strides true) fun f _ _ => .pure _
  · exact .bind (function_strides false) fun f _ _ => .pure _
  · exact .bind (function_strides false) fun f _ _ => .pure _
  · exact .failAt (by decide) _ _

/-! ### Positions -/

/-- **The parser is at a position of the tokens**: those from there on are the ones ahead, and the end
mark. -/
structure State.At (tokens : List Token) (k : Nat) (s : State) : Prop where
  drop_eq : tokens.drop k = s.rest ++ [s.eof]
  eof : s.eof.kind = .eof

namespace State.At

variable {tokens : List Token} {j k : Nat} {s' : State}

/-- At a position stands the next token. -/
theorem getElem? (h : s.At tokens k) : tokens[k]? = some s.peek := by
  rw [← List.head?_drop, h.drop_eq]
  obtain ⟨rest, eof, start⟩ := s
  cases rest <;> rfl

/-- What is some tokens further is at a further position. -/
theorem ahead (h : s.At tokens k) (hs : s.Ahead j s') : ∃ k', k + j ≤ k' ∧ s'.At tokens k' := by
  obtain ⟨passed, hpassed⟩ := hs.rest
  refine ⟨k + passed.length, ?_, ?_, ?_⟩
  · have hlength := hs.length
    rw [← hpassed, List.length_append] at hlength
    omega
  · rw [← List.drop_drop, h.drop_eq, ← hpassed, hs.eof, List.append_assoc, List.drop_left]
  · rw [hs.eof]
    exact h.eof

/-- The parser starts in front of the first token. -/
theorem start (source : String) : (State.ofTokens (tokenize source).1).At (tokenize source).1 0 := by
  have htiles : Scan.Tiles [] false (tokenize source).1 source.toList :=
    Scan.tokens_tiles _ [] false _ (Nat.lt_succ_self _)
  obtain ⟨ts, hts, -, -, -⟩ := htiles.ends
  rw [hts]
  refine ⟨?_, ?_⟩
  · simp [State.ofTokens]
  · simp [State.ofTokens]

end State.At

/-- **A step gets on from a position** by `j` tokens at least when it succeeds, and falls back by none
when it fails, which is never for want of a bound. -/
def GetsOn {α : Type} (tokens : List Token) (j k : Nat) (x : Parse α) (s : State) : Prop :=
  match x.run s with
  | .ok _ s' => ∃ k', k + j ≤ k' ∧ s'.At tokens k'
  | .error e s' => (∃ k', k ≤ k' ∧ s'.At tokens k') ∧ ¬TooDeep e

theorem Strides.getsOn {α : Type} {tokens : List Token} {j k : Nat} {x : Parse α}
    (h : Strides j x x s) (hs : s.At tokens k) : GetsOn tokens j k x s := by
  obtain ⟨-, hlands⟩ := h hs.eof
  unfold GetsOn
  cases hrun : x.run s with
  | ok a s' =>
    rw [hrun] at hlands
    exact hs.ahead hlands
  | error e s' =>
    rw [hrun] at hlands
    exact ⟨hs.ahead hlands.1, hlands.2⟩

/-! ### Operations -/

/-- **What the parser can be asked to do.** -/
inductive Operation where
  | advance
  | eat (kind : TokenKind)
  | expect (kind : TokenKind)
  | lineEnd
  | skipNewlines
  | synchronize
  | expression (power : Nat)
  | body
  | statement
  | function (isOverride : Bool)
  | block

/-- An operation as a step, without its result. -/
def Operation.step : Operation → Parse Unit
  | advance => do let _ ← Parser.advance
  | eat kind => do let _ ← Parser.eat kind
  | expect kind => do let _ ← Parser.expect kind
  | lineEnd => expectLineEnd
  | skipNewlines => Parser.skipNewlines
  | synchronize => Parser.synchronize
  | expression power => do let _ ← expressionFrom power
  | body => do let _ ← Parser.body
  | statement => do let _ ← Parser.statement
  | function isOverride => do let _ ← Parser.function isOverride
  | block => do let _ ← Parser.block

/-- The state behind a step, whether it succeeds or fails. -/
def after {α : Type} (x : Parse α) (s : State) : State :=
  match x.run s with
  | .ok _ s' => s'
  | .error _ s' => s'

/-- **The states that operations lead to**, one after the other. -/
inductive Reached (tokens : List Token) : State → Prop
  | start : Reached tokens (.ofTokens tokens)
  | step {s : State} (op : Operation) (h : Reached tokens s) : Reached tokens (after op.step s)

theorem seekBlock_suffix (lineStart : Bool) (ts : List Token) :
    (State.seekBlock lineStart ts).2 <:+ ts := by
  fun_induction State.seekBlock lineStart ts with
  | case1 => exact List.suffix_rfl
  | case2 => exact List.suffix_rfl
  | case3 lineStart t ts _ ih => exact ih.trans (List.suffix_cons t ts)

theorem State.synchronize_of_nil (h : s.rest = []) : s.synchronize = s := by
  unfold State.synchronize
  rw [h]

/-- **Skipping to the next block takes a token**, unless none is ahead. -/
theorem State.Ahead.synchronize (h : s.rest ≠ []) : s.Ahead 1 s.synchronize := by
  obtain ⟨rest, eof, start⟩ := s
  cases rest with
  | nil => exact absurd rfl h
  | cons t ts =>
    have hsuffix := seekBlock_suffix (t.kind == .newline) ts
    refine ⟨hsuffix.trans (List.suffix_cons t ts), rfl, ?_⟩
    exact Nat.succ_le_succ hsuffix.length_le

theorem synchronize_strides : Strides 0 synchronize synchronize s := by
  refine fun _ => ⟨rfl, ?_⟩
  by_cases h : s.rest = []
  · change s.Ahead 0 s.synchronize
    rw [State.synchronize_of_nil h]
    exact .refl s
  · exact (State.Ahead.synchronize h).mono (Nat.zero_le _)

theorem Operation.step_strides (op : Operation) : Strides 0 op.step op.step s := by
  have hforget : ∀ {α : Type} {k : Nat} {x : Parse α}, Strides k x x s →
      Strides 0 (do let _ ← x) (do let _ ← x) s := fun h =>
    .bind (h.mono (Nat.zero_le _)) fun _ _ _ => .pure ()
  cases op with
  | advance => exact hforget .advance
  | eat kind =>
    exact hforget (k := 0)
      (.check (.ite (fun _ => .bind .advance fun _ _ _ => .pure _) fun _ => .pure _))
  | expect kind =>
    exact hforget (k := 0) (.check (.ite (fun _ => .advance) fun _ => .failExpected _))
  | lineEnd => exact .expectLineEnd
  | skipNewlines => exact .skipNewlines
  | synchronize => exact synchronize_strides
  | expression power => exact hforget (expressionFrom_strides power)
  | body => exact hforget body_strides
  | statement => exact hforget statement_strides
  | function isOverride => exact hforget (function_strides isOverride)
  | block => exact hforget block_strides

/-- Whether it succeeds or fails, a step that gets on leaves the parser at a position no further
back. -/
theorem GetsOn.after {α : Type} {tokens : List Token} {j k : Nat} {x : Parse α}
    (h : GetsOn tokens j k x s) : ∃ k', k ≤ k' ∧ (after x s).At tokens k' := by
  unfold GetsOn at h
  unfold Parser.after
  cases hrun : x.run s with
  | ok a s' =>
    rw [hrun] at h
    obtain ⟨k', hle, hk'⟩ := h
    exact ⟨k', Nat.le_of_add_right_le hle, hk'⟩
  | error e s' =>
    rw [hrun] at h
    exact h.1

/-- The parser stays at the tokens of the script. -/
theorem Reached.at {source : String} (h : Reached (tokenize source).1 s) :
    ∃ k, s.At (tokenize source).1 k := by
  induction h with
  | start => exact ⟨0, .start source⟩
  | step op _ ih =>
    obtain ⟨k, hk⟩ := ih
    obtain ⟨k', -, hk'⟩ := (op.step_strides.getsOn hk).after
    exact ⟨k', hk'⟩

/-! ### Rounds -/

/-- **One round of parsing a script**: a block, or a fault with what is skipped behind it. -/
inductive Round : State → Except ParseFault Block → State → Prop
  | block {s s' : State} {b : Block} (hrest : s.skipNewlines.rest ≠ [])
    (h : Parser.block.run s.skipNewlines = .ok b s') : Round s (.ok b) s'
  | fault {s s' : State} {f : ParseFault} (hrest : s.skipNewlines.rest ≠ [])
    (h : Parser.block.run s.skipNewlines = .error f s') : Round s (.error f) s'.synchronize

/-- **All rounds of parsing a script**, until no token is ahead. -/
inductive Rounds : State → List (Except ParseFault Block) → Prop
  | done {s : State} (h : s.skipNewlines.rest = []) : Rounds s []
  | more {s s' : State} {o : Except ParseFault Block} {os : List (Except ParseFault Block)}
    (h : Round s o s') (hs : Rounds s' os) : Rounds s (o :: os)

/-- The fault of a round that failed. -/
def faultOf : Except ParseFault Block → Option ParseFault
  | .ok _ => none
  | .error f => some f

variable {s' : State} {o : Except ParseFault Block} {os : List (Except ParseFault Block)}

/-- **Every round takes a token.** -/
theorem Round.ahead (heof : s.eof.kind = .eof) (h : Round s o s') : s.Ahead 1 s' := by
  have hskip := State.Ahead.skipNewlines s
  have hblock := (block_strides (s := s.skipNewlines) (by rw [hskip.eof, heof])).2
  cases h with
  | block hrest hrun =>
    rw [hrun] at hblock
    exact (hskip.trans hblock).mono (by decide)
  | @fault m f hrest hrun =>
    rw [hrun] at hblock
    have hm : s.skipNewlines.Ahead 0 m := hblock.1
    by_cases hempty : m.rest = []
    · -- Nothing is left to skip, and so the block has taken what was ahead.
      have hpos := List.length_pos_iff.mpr hrest
      have htaken : s.skipNewlines.Ahead 1 m := ⟨hm.rest, hm.eof, by rw [hempty]; exact hpos⟩
      rw [State.synchronize_of_nil hempty]
      exact (hskip.trans htaken).mono (by decide)
    · exact ((hskip.trans hm).trans (.synchronize hempty)).mono (by decide)

theorem exists_round (h : s.skipNewlines.rest ≠ []) : ∃ o s', Round s o s' := by
  cases hrun : block.run s.skipNewlines with
  | ok b s' => exact ⟨_, _, .block h hrun⟩
  | error f s' => exact ⟨_, _, .fault h hrun⟩

/-- **The rounds come to an end**, and there are no more of them than tokens ahead. -/
theorem exists_rounds (heof : s.eof.kind = .eof) : ∃ os, Rounds s os ∧ os.length ≤ s.rest.length := by
  induction hn : s.rest.length using Nat.strong_induction_on generalizing s with
  | _ n ih =>
    by_cases h : s.skipNewlines.rest = []
    · exact ⟨[], .done h, Nat.zero_le _⟩
    · obtain ⟨o, s', hround⟩ := exists_round h
      have hahead := hround.ahead heof
      have hlength := hahead.length
      obtain ⟨os, hos, hle⟩ := ih s'.rest.length (by omega) (by rw [hahead.eof, heof]) rfl
      exact ⟨o :: os, .more hround hos, by rw [List.length_cons]; omega⟩

/-- **What the parser answers with are the blocks and the faults of its rounds**, with every bound
that is larger than their number. -/
theorem Rounds.blocks_eq (h : Rounds s os) : ∀ {n}, os.length < n →
    blocks n s = (os.filterMap Except.toOption, os.filterMap faultOf) := by
  induction h with
  | done h =>
    rintro (_ | n) hn
    · cases hn
    · simp [blocks, h]
  | more h _ ih =>
    rintro (_ | n) hn
    · cases hn
    · have hblocks := ih (Nat.lt_of_succ_lt_succ hn)
      cases h with
      | block hrest hrun | fault hrest hrun =>
        simp [blocks, hrest, hrun, hblocks, List.filterMap_cons, faultOf, Except.toOption]

/-- A script is refused for the faults of its text and for those of its blocks. -/
theorem parse_error_iff {source : String} {lines : Lines} :
    (∃ errors, Script.parse source lines = .error errors) ↔ (tokenize source).2 ≠ [] ∨
      (blocks ((tokenize source).1.length + 1) (.ofTokens (tokenize source).1)).2 ≠ [] := by
  unfold Script.parse
  dsimp only
  split
  next h =>
    simp only [List.isEmpty_iff, List.map_eq_nil_iff, List.append_eq_nil_iff] at h
    simp [h.1, h.2]
  next h =>
    simp only [List.isEmpty_iff, List.map_eq_nil_iff, List.append_eq_nil_iff] at h
    simp only [Except.error.injEq, exists_eq', true_iff]
    exact not_and_or.mp h

/-- A fault is reported where a round has failed. -/
theorem faults_ne_nil_iff : os.filterMap faultOf ≠ [] ↔ ∃ f, Except.error f ∈ os := by
  constructor
  · intro h
    obtain ⟨f, hf⟩ := List.exists_mem_of_ne_nil _ h
    obtain ⟨o, ho, hof⟩ := List.mem_filterMap.mp hf
    cases o with
    | ok b => cases hof
    | error f' => exact ⟨f', ho⟩
  · rintro ⟨f, hf⟩
    exact List.ne_nil_of_mem (List.mem_filterMap.mpr ⟨_, hf, rfl⟩)

/-- **No round fails for want of a bound.** -/
theorem Rounds.not_tooDeep (heof : s.eof.kind = .eof) (h : Rounds s os) {f : ParseFault}
    (hf : .error f ∈ os) : ¬TooDeep f := by
  induction h with
  | done h => cases hf
  | @more s m o os hround _ ih =>
    have hm := hround.ahead heof
    rcases List.mem_cons.mp hf with hhead | htail
    · subst hhead
      have hskip := State.Ahead.skipNewlines s
      have hblock := (block_strides (s := s.skipNewlines) (by rw [hskip.eof, heof])).2
      cases hround with
      | fault hrest hrun =>
        rw [hrun] at hblock
        exact hblock.2
    · exact ih (by rw [hm.eof, heof]) htail

/-! ### Progress -/

/-- **A function does not use up its bound**: with every bound that is not smaller than that of the
tokens ahead it does the same, and it does not fail for want of the bound. -/
def Unexhausted {α : Type} (f : Nat → Parse α) (s : State) : Prop :=
  ∀ n, bound s ≤ n →
    (f n).run s = (f (bound s)).run s ∧ ∀ e s', (f n).run s = .error e s' → ¬TooDeep e

/-- **No function uses up its bound** from a state. -/
structure State.Boundless (s : State) : Prop where
  exprFrom : ∀ power, Unexhausted (Parser.exprFrom · power) s
  operators : ∀ power left, Unexhausted (Parser.operators · power left) s
  operand : Unexhausted Parser.operand s
  exprList : Unexhausted Parser.exprList s
  arguments : Unexhausted Parser.arguments s
  subscripts : ∀ span, Unexhausted (Parser.subscripts · span) s
  callKeyword : ∀ isProcedure, Unexhausted (Parser.callKeyword · isProcedure) s
  nameList : Unexhausted Parser.nameList s
  paramList : Unexhausted Parser.paramList s
  statements : Unexhausted Parser.statements s
  statementFrom : Unexhausted Parser.statementFrom s
  branchesFrom : Unexhausted Parser.branchesFrom s
  casesFrom : Unexhausted Parser.casesFrom s
  propertyFrom : Unexhausted Parser.propertyFrom s
  accessorsFrom : Unexhausted Parser.accessorsFrom s
  functionFrom : ∀ isOverride, Unexhausted (Parser.functionFrom · isOverride) s

/-- **How the parser gets on from a position.** -/
structure State.Proceeds (tokens : List Token) (k : Nat) (s : State) : Prop where
  /-- The position is that of a token, the last one of which is the end mark. -/
  next : tokens[k]? = some s.peek
  expression : ∀ power, GetsOn tokens 1 k (expressionFrom power) s
  statement : GetsOn tokens 1 k Parser.statement s
  function : ∀ isOverride, GetsOn tokens 1 k (Parser.function isOverride) s
  block : GetsOn tokens 1 k Parser.block s
  /-- No operation goes back, and none goes past the end mark. -/
  operation : ∀ op : Operation, GetsOn tokens 0 k op.step s
  round : ∀ o s', Round s o s' → ∃ k', k < k' ∧ s'.At tokens k'
  /-- The functions that call each other come to an end by themselves. -/
  bounds : s.Boundless

theorem Steady.unexhausted {α : Type} {k c : Nat} {f : Nat → Parse α} (h : ∀ n, Steady k c f n)
    (hc : c ≤ 8) (heof : s.eof.kind = .eof) : Unexhausted f s := by
  intro n hn
  have hbound : 8 * s.rest.length + c ≤ bound s := by
    unfold bound
    omega
  obtain ⟨heq, hlands⟩ := h n (bound s) s (hbound.trans hn) hbound heof
  refine ⟨heq, fun e s' hrun => ?_⟩
  rw [hrun] at hlands
  exact hlands.2

theorem State.boundless (heof : s.eof.kind = .eof) : s.Boundless where
  exprFrom power := Steady.unexhausted (fun n => (expressions_steady n).exprFrom power)
    (by decide) heof
  operators power left := Steady.unexhausted (fun n => (expressions_steady n).operators power left)
    (by decide) heof
  operand := Steady.unexhausted (fun n => (expressions_steady n).operand) (by decide) heof
  exprList := Steady.unexhausted (fun n => (expressions_steady n).exprList) (by decide) heof
  arguments := Steady.unexhausted (fun n => (expressions_steady n).arguments) (by decide) heof
  subscripts span := Steady.unexhausted (fun n => (expressions_steady n).subscripts span)
    (by decide) heof
  callKeyword isProcedure :=
    Steady.unexhausted (fun n => (expressions_steady n).callKeyword isProcedure) (by decide) heof
  nameList := Steady.unexhausted nameList_steady (by decide) heof
  paramList := Steady.unexhausted paramList_steady (by decide) heof
  statements := Steady.unexhausted (fun n => (grammar_steady n).statements) (by decide) heof
  statementFrom := Steady.unexhausted (fun n => (grammar_steady n).statementFrom) (by decide) heof
  branchesFrom := Steady.unexhausted (fun n => (grammar_steady n).branchesFrom) (by decide) heof
  casesFrom := Steady.unexhausted (fun n => (grammar_steady n).casesFrom) (by decide) heof
  propertyFrom := Steady.unexhausted (fun n => (grammar_steady n).propertyFrom) (by decide) heof
  accessorsFrom := Steady.unexhausted (fun n => (grammar_steady n).accessorsFrom) (by decide) heof
  functionFrom isOverride :=
    Steady.unexhausted (fun n => (grammar_steady n).functionFrom isOverride) (by decide) heof

theorem State.At.proceeds {tokens : List Token} {k : Nat} (h : s.At tokens k) :
    s.Proceeds tokens k where
  next := h.getElem?
  expression power := (expressionFrom_strides power).getsOn h
  statement := statement_strides.getsOn h
  function isOverride := (function_strides isOverride).getsOn h
  block := block_strides.getsOn h
  operation op := op.step_strides.getsOn h
  round _ _ hround := h.ahead (hround.ahead h.eof)
  bounds := State.boundless h.eof

/-- **The parser gets on with every script.** Whatever it is asked to do, it stays at the tokens of
the script; it goes on from each of them, takes a token in every round, and comes to an end by
itself: no bound is used up anywhere, and no fault is that of a bound. It finds no more faulty
blocks than there are tokens, and refuses a script for a fault in its text or in a block, and for
nothing else. -/
theorem parse_progress (source : String) (lines : Lines) :
    (∀ s : State, Reached (tokenize source).1 s → ∃ k, s.At (tokenize source).1 k) ∧
      (∀ (k : Nat) (s : State), s.At (tokenize source).1 k → s.Proceeds (tokenize source).1 k) ∧
        ∃ os, Rounds (.ofTokens (tokenize source).1) os ∧
          (∀ n, (tokenize source).1.length ≤ n → blocks n (.ofTokens (tokenize source).1) =
            (os.filterMap Except.toOption, os.filterMap faultOf)) ∧
          (∀ f, .error f ∈ os → ¬TooDeep f) ∧
          (os.filterMap faultOf).length ≤ (tokenize source).1.length ∧
          ((∃ errors, Script.parse source lines = .error errors) ↔
            (tokenize source).2 ≠ [] ∨ ∃ f, .error f ∈ os) := by
  have hstart := State.At.start source
  have hlength := congrArg List.length hstart.drop_eq
  rw [List.drop_zero, List.length_append, List.length_singleton] at hlength
  obtain ⟨os, hos, hle⟩ := exists_rounds hstart.eof
  refine ⟨fun s hs => hs.at, fun k s hs => hs.proceeds, os, hos, fun n hn => ?_,
    fun f hf => hos.not_tooDeep hstart.eof hf, ?_, ?_⟩
  · exact hos.blocks_eq (by omega)
  · have hfaults : (os.filterMap faultOf).length ≤ os.length := List.length_filterMap_le _ _
    omega
  · rw [parse_error_iff, hos.blocks_eq (by omega), faults_ne_nil_iff]

end FlatScript.Parser
