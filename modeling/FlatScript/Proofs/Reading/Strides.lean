import FlatScript.Parser.Script
import FlatScript.Proofs.Reading.Steps
import Mathlib.Data.List.Infix

/-!
# How far the parser gets

A step of the parser leaves fewer tokens ahead, or as many, also when it fails. The functions that
call each other count a bound down meanwhile, and the bound they start with is larger than what
the tokens ahead can be worth: the functions that are called before the next token is taken are a
few, and every token pays for them.

* `FlatScript.Parser.TooDeep` is the fault of a function that has used up its bound.
* `FlatScript.Parser.Strides` says of a step how many tokens it takes at least when it succeeds,
  that it never fails for want of a bound, and that another step does the same. The other step is
  the same one with another bound.
* `FlatScript.Parser.Steady` says it of a function for all bounds that are large enough.
* `FlatScript.Parser.expressions_steady`: this for the functions of expressions.
-/

namespace FlatScript.Parser

variable {α β : Type}

/-! ### States -/

/-- **A state is some tokens further than another one**, at least `k`. -/
structure State.Ahead (k : Nat) (s s' : State) : Prop where
  rest : s'.rest <:+ s.rest
  eof : s'.eof = s.eof
  length : s'.rest.length + k ≤ s.rest.length

namespace State.Ahead

variable {k l : Nat} {s s' s'' : State}

theorem refl (s : State) : s.Ahead 0 s := ⟨List.suffix_rfl, rfl, Nat.le_refl _⟩

theorem trans (h : s.Ahead k s') (h' : s'.Ahead l s'') : s.Ahead (k + l) s'' :=
  ⟨h'.rest.trans h.rest, h'.eof.trans h.eof, by have := h.length; have := h'.length; omega⟩

theorem mono (h : s.Ahead k s') (hl : l ≤ k) : s.Ahead l s' :=
  ⟨h.rest, h.eof, by have := h.length; omega⟩

/-- The state behind the next token is no token back. -/
theorem advance (s : State) : s.Ahead 0 s.advance := by
  obtain ⟨rest, eof, start⟩ := s
  cases rest with
  | nil => exact .refl _
  | cons t ts => exact ⟨List.suffix_cons t ts, rfl, by simp [State.advance]⟩

/-- The state behind the next token, which is not the end mark. -/
theorem advance_of_ne (heof : s.eof.kind = .eof) (h : s.peek.kind ≠ .eof) :
    s.Ahead 1 s.advance := by
  obtain ⟨rest, eof, start⟩ := s
  cases rest with
  | nil => exact absurd heof h
  | cons t ts => exact ⟨List.suffix_cons t ts, rfl, by simp [State.advance]⟩

theorem skipNewlines (s : State) : s.Ahead 0 s.skipNewlines := by
  unfold State.skipNewlines
  split
  next ts hrest =>
    have hsuffix := List.dropWhile_suffix (l := ts) fun t => t.kind == .newline
    refine ⟨?_, rfl, ?_⟩
    · rw [hrest]
      exact hsuffix.trans (List.suffix_cons _ _)
    · have := hsuffix.length_le
      simp only [hrest, List.length_cons]
      omega
  next => exact .refl _

end State.Ahead

/-! ### Steps -/

/-- **The fault of a function that has used up its bound**, which no other function reports. -/
def TooDeep (e : ParseFault) : Prop :=
  e.kind = .expectedExpression ∧ e.message = "nested too deeply"

/-- What has used up its bound reports it. -/
theorem run_exhausted (s : State) : ∃ e, (exhausted : Parse α).run s = .error e s ∧ TooDeep e :=
  ⟨_, rfl, rfl, rfl⟩

/-- A fault of another kind is not that of a bound. -/
theorem not_tooDeep_of_kind {kind : ParseErrorKind} (h : kind ≠ .expectedExpression) (span : Span)
    (message : String) : ¬TooDeep ⟨kind, span, message⟩ :=
  fun hdeep => h hdeep.1

/-- Nor is one that something else was expected. -/
theorem not_tooDeep_expected (span : Span) (expected found : String) :
    ¬TooDeep (.expected span expected found) :=
  not_tooDeep_of_kind (by decide) _ _

/-- **Where a step ends**: at least `k` tokens further when it succeeds, and no token back when it
fails, which is never for want of a bound. -/
def Lands (k : Nat) (s : State) : EStateM.Result ParseFault State α → Prop
  | .ok _ s' => s.Ahead k s'
  | .error e s' => s.Ahead 0 s' ∧ ¬TooDeep e

/-- **A step takes `k` tokens at least**, and another step does the same. -/
def Strides (k : Nat) (x y : Parse α) (s : State) : Prop :=
  s.eof.kind = .eof → x.run s = y.run s ∧ Lands k s (x.run s)

namespace Strides

variable {k l : Nat} {s : State} {x y : Parse α} {f g : α → Parse β} {kind : TokenKind}

theorem mono (h : Strides k x y s) (hl : l ≤ k) : Strides l x y s := by
  intro heof
  obtain ⟨heq, hlands⟩ := h heof
  refine ⟨heq, ?_⟩
  cases hrun : x.run s with
  | ok a s' =>
    rw [hrun] at hlands
    exact State.Ahead.mono hlands hl
  | error e s' =>
    rw [hrun] at hlands
    exact hlands

/-- What follows a step that takes tokens has fewer of them to take. -/
theorem behind {m : State} (hm : s.Ahead k m) (h : Strides (l - k) x y m) (heof : s.eof.kind = .eof) :
    x.run m = y.run m ∧ Lands l s (x.run m) := by
  obtain ⟨heq, hlands⟩ := h (by rw [hm.eof, heof])
  refine ⟨heq, ?_⟩
  cases hrun : x.run m with
  | error e s' =>
    rw [hrun] at hlands
    exact ⟨(hm.trans hlands.1).mono (Nat.zero_le _), hlands.2⟩
  | ok b s' =>
    rw [hrun] at hlands
    exact (hm.trans hlands).mono (by omega)

/-- **A step and one behind it**, which meets fewer tokens when the first one has taken some. -/
theorem bind (hx : Strides k x y s)
    (hf : ∀ a s', s'.rest.length + k ≤ s.rest.length → Strides (l - k) (f a) (g a) s') :
    Strides l (x >>= f) (y >>= g) s := by
  intro heof
  obtain ⟨heq, hlands⟩ := hx heof
  rw [EStateM.run_bind, EStateM.run_bind, ← heq]
  cases hrun : x.run s with
  | error e s' =>
    rw [hrun] at hlands
    exact ⟨rfl, hlands⟩
  | ok a m =>
    rw [hrun] at hlands
    have hm : s.Ahead k m := hlands
    exact behind hm (hf a m hm.length) heof

theorem pure (a : α) : Strides 0 (Pure.pure a) (Pure.pure a) s := fun _ => ⟨rfl, .refl s⟩

theorem fail {e : ParseFault} (h : ¬TooDeep e) : Strides k (throw e : Parse α) (throw e) s :=
  fun _ => ⟨rfl, .refl s, h⟩

/-- A fault of another kind than that of a bound. -/
theorem failAt {kind : ParseErrorKind} (h : kind ≠ .expectedExpression) (span : Span)
    (message : String) :
    Strides k (Parser.failAt kind span message : Parse α) (Parser.failAt kind span message) s :=
  fail (not_tooDeep_of_kind h _ _)

theorem failExpected (expected : String) :
    Strides k (Parser.failExpected expected : Parse α) (Parser.failExpected expected) s :=
  fun _ => ⟨rfl, .refl s, not_tooDeep_expected _ _ _⟩

/-- A look at the next token. -/
theorem peek {f g : Token → Parse β} (h : Strides k (f s.peek) (g s.peek) s) :
    Strides k (Parser.peek >>= f) (Parser.peek >>= g) s := h

/-- A look at the whole state. -/
theorem get {f g : State → Parse β} (h : Strides k (f s) (g s) s) :
    Strides k (MonadState.get >>= f) (MonadState.get >>= g) s := h

/-- A look at the kind of the next token. -/
theorem check {f g : Bool → Parse β}
    (h : Strides k (f (s.peek.kind == kind)) (g (s.peek.kind == kind)) s) :
    Strides k (Parser.check kind >>= f) (Parser.check kind >>= g) s := h

theorem ite {c : Prop} [Decidable c] {x' y' : Parse α} (h : c → Strides k x y s)
    (h' : ¬c → Strides k x' y' s) : Strides k (if c then x else x') (if c then y else y') s := by
  split
  next hc => exact h hc
  next hc => exact h' hc

theorem advance : Strides 0 Parser.advance Parser.advance s := fun _ => ⟨rfl, .advance s⟩

/-- A token that is taken, and is not the end mark. -/
theorem advance_of_ne (h : s.peek.kind ≠ .eof) : Strides 1 Parser.advance Parser.advance s :=
  fun heof => ⟨rfl, .advance_of_ne heof h⟩

/-- A token that is taken, if it is not the end mark. -/
theorem take {f g : Token → Parse β}
    (h : s.peek.kind ≠ .eof → ∀ s', s'.rest.length + 1 ≤ s.rest.length →
      Strides (k - 1) (f s.peek) (g s.peek) s')
    (h' : s.peek.kind = .eof → ∀ s', Strides k (f s.peek) (g s.peek) s') :
    Strides k (Parser.advance >>= f) (Parser.advance >>= g) s := by
  intro heof
  rw [EStateM.run_bind, EStateM.run_bind]
  have hrun : Parser.advance.run s = .ok s.peek s.advance := rfl
  rw [hrun]
  by_cases hk : s.peek.kind = .eof
  · exact behind (.advance s) (h' hk _) heof
  · have hm : s.Ahead 1 s.advance := .advance_of_ne heof hk
    exact behind hm (h hk _ hm.length) heof

/-- A token that is taken if it is of a kind. -/
theorem eat {f g : Bool → Parse β} (hkind : kind ≠ .eof)
    (h : ∀ s', s'.rest.length + 1 ≤ s.rest.length → Strides (k - 1) (f true) (g true) s')
    (h' : Strides k (f false) (g false) s) :
    Strides k (Parser.eat kind >>= f) (Parser.eat kind >>= g) s := by
  intro heof
  rw [EStateM.run_bind, EStateM.run_bind]
  by_cases hk : s.peek.kind = kind
  · have hrun : (Parser.eat kind).run s = .ok true s.advance :=
      run_eat_eq_ok.mpr (.inl ⟨hk, rfl, rfl⟩)
    rw [hrun]
    have hm : s.Ahead 1 s.advance := .advance_of_ne heof (by rwa [hk])
    exact behind hm (h _ hm.length) heof
  · have hrun : (Parser.eat kind).run s = .ok false s := run_eat_eq_ok.mpr (.inr ⟨hk, rfl, rfl⟩)
    rw [hrun]
    exact h' heof

/-- A token that has to be of a kind. -/
theorem expect (hkind : kind ≠ .eof) : Strides 1 (Parser.expect kind) (Parser.expect kind) s := by
  refine check (ite (fun hk => advance_of_ne ?_) fun _ => failExpected _)
  rwa [beq_iff_eq.mp hk]

theorem expectLineEnd : Strides 0 Parser.expectLineEnd Parser.expectLineEnd s := by
  exact get (ite (fun _ _ => ⟨rfl, .advance s⟩) fun _ => ite (fun _ => pure ()) fun _ =>
    failExpected _)

theorem skipNewlines : Strides 0 Parser.skipNewlines Parser.skipNewlines s :=
  fun _ => ⟨rfl, .skipNewlines s⟩

end Strides

/-! ### Bounds -/

/-- **A function takes `k` tokens at least with the bound `n`, and does the same with every other
bound**, when the bounds are large enough for the tokens ahead: for the calls in front of each of
them, and for `c` calls more. -/
def Steady (k c : Nat) (f : Nat → Parse α) (n : Nat) : Prop :=
  ∀ m s, 8 * s.rest.length + c ≤ n → 8 * s.rest.length + c ≤ m → Strides k (f n) (f m) s

namespace Steady

variable {k c n : Nat} {f : Nat → Parse α}

theorem zero (hc : 0 < c) : Steady k c f 0 := by
  intro m s hn
  omega

theorem succ (hc : 0 < c) (h : ∀ m s, 8 * s.rest.length + c ≤ n + 1 →
    8 * s.rest.length + c ≤ m + 1 → Strides k (f (n + 1)) (f (m + 1)) s) :
    Steady k c f (n + 1) := by
  rintro (_ | m) s hn hm
  · omega
  · exact h m s hn hm

/-- The bound that the tokens ahead give is large enough. -/
theorem bounded (h : ∀ n, Steady k c f n) (hc : c ≤ 8) (s : State) :
    Strides k (do f (bound (← get))) (do f (bound (← get))) s :=
  .get (h _ _ s (by unfold bound; omega) (by unfold bound; omega))

end Steady

/-! ### Expressions -/

/-- What the functions of expressions do with a given bound. -/
structure SteadyExpressions (n : Nat) : Prop where
  exprFrom : ∀ power, Steady 1 3 (Parser.exprFrom · power) n
  operators : ∀ power left, Steady 0 1 (Parser.operators · power left) n
  operand : Steady 1 2 Parser.operand n
  exprList : Steady 1 4 Parser.exprList n
  arguments : Steady 1 1 Parser.arguments n
  subscripts : ∀ span, Steady 0 1 (Parser.subscripts · span) n
  callKeyword : ∀ isProcedure, Steady 1 1 (Parser.callKeyword · isProcedure) n

section Expressions

variable {n : Nat} {s : State}

theorem exprFrom_steady (ih : SteadyExpressions n) (power : Nat) :
    Steady 1 3 (exprFrom · power) (n + 1) := by
  refine .succ (by decide) fun m s hn hm => ?_
  simp only [exprFrom]
  refine .bind (ih.operand m s (by omega) (by omega)) fun left s' h => ?_
  exact ih.operators power left m s' (by omega) (by omega)

theorem operators_steady (ih : SteadyExpressions n) (power : Nat) (left : Expr) :
    Steady 0 1 (operators · power left) (n + 1) := by
  refine .succ (by decide) fun m s hn hm => ?_
  simp only [operators]
  refine .peek ?_
  cases hop : BinaryOp.ofToken? s.peek.kind with
  | none => exact .pure left
  | some op =>
    refine .ite (fun _ => .pure left) fun _ => ?_
    refine .bind (.advance_of_ne fun hk => ?_) fun t s' h => ?_
    · simp [hk, BinaryOp.ofToken?] at hop
    · refine .bind (ih.exprFrom _ m s' (by omega) (by omega)) fun right s'' h' => ?_
      exact ih.operators _ _ m s'' (by omega) (by omega)

theorem integer_strides (t : Token) : Strides 0 (integer t) (integer t) s :=
  .ite (fun _ => .pure _) fun _ => .failAt (by decide) _ _

theorem realNumber_strides (t : Token) : Strides 0 (realNumber t) (realNumber t) s := by
  unfold realNumber
  split
  · exact .pure _
  · exact .failAt (by decide) _ _

/-- What is no expression is told by what was found there, not by a bound. -/
theorem not_tooDeep_found (span : Span) (found : String) :
    ¬TooDeep ⟨.expectedExpression, span, "expected expression, found " ++ found⟩ := by
  rintro ⟨-, h⟩
  have hlists := congrArg String.toList h
  simp at hlists

theorem operand_steady (ih : SteadyExpressions n) : Steady 1 2 operand (n + 1) := by
  refine .succ (by decide) fun m s hn hm => ?_
  simp only [operand]
  refine .peek ?_
  -- What an operand starts with is taken, except for the word of a call.
  have hadvance : s.peek.kind ≠ .eof → Strides 1 advance advance s := .advance_of_ne
  cases hop : UnaryOp.ofToken? s.peek.kind with
  | some op =>
    refine .bind (hadvance fun hk => ?_) fun t s' h => ?_
    · simp [hk, UnaryOp.ofToken?] at hop
    · exact .bind (ih.exprFrom _ m s' (by omega) (by omega)) fun e s'' h' => .pure _
  | none =>
    dsimp only
    split
    next hk =>
      exact .bind (hadvance (by simp [hk])) fun t s' h =>
        .bind (integer_strides _) fun v s'' h' => .pure _
    next hk =>
      exact .bind (hadvance (by simp [hk])) fun t s' h =>
        .bind (integer_strides _) fun v s'' h' => .pure _
    next hk =>
      exact .bind (hadvance (by simp [hk])) fun t s' h =>
        .bind (realNumber_strides _) fun v s'' h' => .pure _
    next hk => exact .bind (hadvance (by simp [hk])) fun t s' h => .pure _
    next hk =>
      refine .bind (hadvance (by simp [hk])) fun t s' h => ?_
      refine .check (.ite (fun _ => ?_) fun _ => ?_)
      · exact .bind (ih.arguments m s' (by omega) (by omega)) fun r s'' h' =>
          .pure _
      · exact .bind (ih.subscripts _ m s' (by omega) (by omega)) fun r s'' h' => .pure _
    next hk => exact .bind (ih.callKeyword _ m s (by omega) (by omega)) fun c s' h => .pure _
    next hk =>
      refine .bind (hadvance (by simp [hk])) fun t s' h => ?_
      refine .bind (ih.exprFrom _ m s' (by omega) (by omega)) fun e s'' h' => ?_
      exact .bind (.expect (by decide)) fun t s' h => .pure _
    next => exact .fail (not_tooDeep_found _ _)

theorem exprList_steady (ih : SteadyExpressions n) : Steady 1 4 exprList (n + 1) := by
  refine .succ (by decide) fun m s hn hm => ?_
  simp only [exprList]
  refine .bind (ih.exprFrom _ m s (by omega) (by omega)) fun e s' h => ?_
  refine .eat (by decide) (fun s'' h' => ?_) (.pure _)
  exact .bind (ih.exprList m s'' (by omega) (by omega)) fun es s' h => .pure _

theorem arguments_steady (ih : SteadyExpressions n) : Steady 1 1 arguments (n + 1) := by
  refine .succ (by decide) fun m s hn hm => ?_
  simp only [arguments, pure_bind]
  refine .bind (.expect (by decide)) fun t s' h => ?_
  have hclose : ∀ {args s}, Strides 0
      (do let close ← expect (.sign .rightParen); return (args, close.span) : Parse (List Expr × Span))
      (do let close ← expect (.sign .rightParen); return (args, close.span)) s :=
    .bind (.expect (by decide)) fun t s' h => .pure _
  refine .check (.ite (fun _ => hclose) fun _ => ?_)
  exact .bind (ih.exprList m s' (by omega) (by omega)) fun args s'' h' => hclose

theorem subscripts_steady (ih : SteadyExpressions n) (span : Span) :
    Steady 0 1 (subscripts · span) (n + 1) := by
  refine .succ (by decide) fun m s hn hm => ?_
  simp only [subscripts]
  refine .eat (by decide) (fun s' h => ?_) (.pure _)
  refine .bind (ih.exprList m s' (by omega) (by omega)) fun first s'' h' => ?_
  refine .bind (.expect (by decide)) fun close s₃ h₃ => ?_
  exact .bind (ih.subscripts _ m s₃ (by omega) (by omega)) fun r s₄ h₄ => .pure _

theorem callKeyword_steady (ih : SteadyExpressions n) (isProcedure : Bool) :
    Steady 1 1 (callKeyword · isProcedure) (n + 1) := by
  refine .succ (by decide) fun m s hn hm => ?_
  simp only [callKeyword, pure_bind]
  refine .bind (.expect (by decide)) fun start s' h => ?_
  refine .bind (.expect (by decide)) fun name s'' h' => ?_
  refine .check (.ite (fun _ => ?_) fun _ => .pure _)
  exact .bind (ih.arguments m s'' (by omega) (by omega)) fun r s₃ h₃ => .pure _

/-- **With a bound that is large enough, a function of expressions takes the tokens it has to take,
and no larger bound makes a difference.** -/
theorem expressions_steady : ∀ n, SteadyExpressions n
  | 0 => ⟨fun _ => .zero (by decide), fun _ _ => .zero (by decide), .zero (by decide),
    .zero (by decide), .zero (by decide), fun _ => .zero (by decide), fun _ => .zero (by decide)⟩
  | n + 1 =>
    have ih := expressions_steady n
    ⟨exprFrom_steady ih, operators_steady ih, operand_steady ih, exprList_steady ih,
      arguments_steady ih, subscripts_steady ih, callKeyword_steady ih⟩

theorem expressionFrom_strides (power : Nat) :
    Strides 1 (expressionFrom power) (expressionFrom power) s :=
  Steady.bounded (fun n => (expressions_steady n).exprFrom power) (by decide) s

theorem argumentList_strides : Strides 1 argumentList argumentList s :=
  Steady.bounded (fun n => (expressions_steady n).arguments) (by decide) s

theorem callWithKeyword_strides (isProcedure : Bool) :
    Strides 1 (callWithKeyword isProcedure) (callWithKeyword isProcedure) s :=
  Steady.bounded (fun n => (expressions_steady n).callKeyword isProcedure) (by decide) s

theorem varRefRest_strides (ident : Ident) : Strides 0 (varRefRest ident) (varRefRest ident) s := by
  have hbound : 8 * s.rest.length + 1 ≤ bound s := by
    unfold bound
    omega
  exact .get (.bind ((expressions_steady _).subscripts _ _ s hbound hbound) fun r s' h => .pure _)

theorem varRef_strides : Strides 1 varRef varRef s :=
  .bind (.expect (by decide)) fun t s' h => varRefRest_strides _

end Expressions

end FlatScript.Parser
