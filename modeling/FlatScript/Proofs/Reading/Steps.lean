import FlatScript.Parser.Stmt
import FlatScript.Proofs.Reading.Grammar

/-!
# The parser, word by word

A step of the parser goes from one state to another one and takes the words between them. Two
things are said about such a step, and both are put together along the sequences that a step
is made of.

* `FlatScript.Parser.Takes` says that a step succeeds on given words, with a result of a kind,
  and stops behind them, whatever stands in front of and behind these words.
* From a step that succeeded, the lemmas on `run` read off which words it took:
  `FlatScript.Parser.State.Passes` relates the state before them to the state behind them.
-/

namespace FlatScript.Parser

/-! ### The words between two states -/

/-- **The words between two states** of the parser. -/
structure State.Passes (s : State) (ws : List Word) (s' : State) : Prop where
  words : ∃ ts : List Token, ts.map Token.word = ws ∧ s.rest = ts ++ s'.rest
  eof : s'.eof = s.eof

namespace State.Passes

variable {s s' s'' : State} {w : Word} {ws ws' : List Word}

theorem refl (s : State) : s.Passes [] s := ⟨⟨[], rfl, rfl⟩, rfl⟩

theorem trans (h : s.Passes ws s') (h' : s'.Passes ws' s'') : s.Passes (ws ++ ws') s'' := by
  obtain ⟨⟨ts, rfl, hs⟩, heof⟩ := h
  obtain ⟨⟨ts', rfl, hs'⟩, heof'⟩ := h'
  exact ⟨⟨ts ++ ts', by simp, by rw [hs, hs', List.append_assoc]⟩, heof'.trans heof⟩

/-- Between the words there is a state. -/
theorem split (h : s.Passes (ws ++ ws') s'') : ∃ s', s.Passes ws s' ∧ s'.Passes ws' s'' := by
  obtain ⟨⟨ts, hts, hs⟩, heof⟩ := h
  obtain ⟨ts₁, ts₂, rfl, rfl, rfl⟩ := List.map_eq_append_iff.mp hts
  exact ⟨⟨ts₂ ++ s''.rest, s.eof, true⟩, ⟨⟨ts₁, rfl, by rw [hs, List.append_assoc]⟩, rfl⟩,
    ⟨ts₂, rfl, rfl⟩, heof⟩

theorem rest_eq (h : s.Passes [] s') : s.rest = s'.rest := by
  obtain ⟨⟨ts, hts, hs⟩, -⟩ := h
  rw [List.map_eq_nil_iff.mp hts] at hs
  exact hs

/-- What the words are followed by decides the first kind ahead. -/
theorem peek_kind (h : s.Passes ws s') : s.peek.kind = nextKind ws s'.peek.kind := by
  obtain ⟨⟨ts, rfl, hs⟩, heof⟩ := h
  cases ts with
  | nil => simp only [State.peek, hs, heof, List.nil_append, List.map_nil, nextKind_nil]
  | cons t ts => simp [State.peek, hs]

theorem peek_word (h : s.Passes (w :: ws) s') : s.peek.word = w := by
  obtain ⟨⟨ts, hts, hs⟩, -⟩ := h
  obtain ⟨t, ts, rfl, rfl, -⟩ := List.map_eq_cons_iff.mp hts
  simp [State.peek, hs]

/-- The next token is the first of the words. -/
theorem advance (h : s.Passes (w :: ws) s') : s.advance.Passes ws s' := by
  obtain ⟨⟨ts, hts, hs⟩, heof⟩ := h
  obtain ⟨t, ts, rfl, rfl, hrest⟩ := List.map_eq_cons_iff.mp hts
  simp only [State.advance, hs, List.cons_append]
  exact ⟨⟨ts, hrest, rfl⟩, heof⟩

end State.Passes

/-- Away from the end, the next token is a word. -/
theorem State.passes_advance {s : State} (heof : s.eof.kind = .eof) (h : s.peek.kind ≠ .eof) :
    s.Passes [s.peek.word] s.advance := by
  obtain ⟨rest, eof, start⟩ := s
  cases rest with
  | nil => exact absurd heof h
  | cons t ts => exact ⟨⟨[t], rfl, rfl⟩, rfl⟩

/-! ### Steps that succeed -/

section Succeed

variable {α β : Type} {s s' : State}

/-- A sequence succeeds when its parts do. -/
theorem run_bind_eq_ok {x : Parse α} {f : α → Parse β} {b : β} :
    (x >>= f).run s = .ok b s' ↔ ∃ a m, x.run s = .ok a m ∧ (f a).run m = .ok b s' := by
  rw [EStateM.run_bind]
  cases x.run s with
  | ok a m =>
    constructor
    · intro h
      exact ⟨a, m, rfl, h⟩
    · rintro ⟨_, _, ⟨⟩, h⟩
      exact h
  | error e m => simp

theorem run_pure_eq_ok {a b : α} :
    (pure a : Parse α).run s = .ok b s' ↔ a = b ∧ s = s' := by
  simp [EStateM.run_pure]

theorem run_failAt_eq_ok {kind : ParseErrorKind} {span : Span} {message : String} {a : α} :
    ¬ (failAt kind span message : Parse α).run s = .ok a s' := by
  rintro ⟨⟩

theorem run_failExpected_eq_ok {expected : String} {a : α} :
    ¬ (failExpected expected : Parse α).run s = .ok a s' := by
  rintro ⟨⟩

theorem run_exhausted_eq_ok {a : α} : ¬ (exhausted : Parse α).run s = .ok a s' := by
  rintro ⟨⟩

theorem run_get_eq_ok {a : State} :
    (get : Parse State).run s = .ok a s' ↔ s = a ∧ s = s' := by
  simp [EStateM.run_get]

theorem run_peek_eq_ok {t : Token} : peek.run s = .ok t s' ↔ s.peek = t ∧ s = s' := by
  constructor
  · rintro ⟨⟩; exact ⟨rfl, rfl⟩
  · rintro ⟨rfl, rfl⟩; rfl

theorem run_advance_eq_ok {t : Token} : advance.run s = .ok t s' ↔ s.peek = t ∧ s.advance = s' := by
  constructor
  · rintro ⟨⟩; exact ⟨rfl, rfl⟩
  · rintro ⟨rfl, rfl⟩; rfl

theorem run_check_eq_ok {kind : TokenKind} {b : Bool} :
    (check kind).run s = .ok b s' ↔ (s.peek.kind == kind) = b ∧ s = s' := by
  constructor
  · rintro ⟨⟩; exact ⟨rfl, rfl⟩
  · rintro ⟨rfl, rfl⟩; rfl

theorem run_eat_eq_ok {kind : TokenKind} {b : Bool} :
    (eat kind).run s = .ok b s' ↔
      (s.peek.kind = kind ∧ true = b ∧ s.advance = s') ∨
        (s.peek.kind ≠ kind ∧ false = b ∧ s = s') := by
  have hrun : (eat kind).run s =
      if s.peek.kind == kind then .ok true s.advance else .ok false s := by
    change (if s.peek.kind == kind then _ else _ : Parse Bool).run s = _
    split <;> rfl
  rw [hrun]
  by_cases hk : s.peek.kind = kind
  · simp [hk]
  · simp [hk]

theorem run_expect_eq_ok {kind : TokenKind} {t : Token} :
    (expect kind).run s = .ok t s' ↔ s.peek.kind = kind ∧ s.peek = t ∧ s.advance = s' := by
  rw [expect, run_bind_eq_ok]
  simp only [run_check_eq_ok]
  by_cases hk : s.peek.kind = kind
  · simp [hk, run_advance_eq_ok]
  · simp [hk, run_failExpected_eq_ok]

theorem run_integer_eq_ok {t : Token} {v : Int32} :
    (integer t).run s = .ok v s' ↔
      literalValue t.kind t.lexeme.toList < literalBound ∧
        Int32.ofInt (literalValue t.kind t.lexeme.toList) = v ∧ s = s' := by
  rw [integer]
  by_cases h : literalValue t.kind t.lexeme.toList < literalBound
  · simp [h]
  · simp [h, run_failAt_eq_ok]

theorem run_realNumber_eq_ok {t : Token} {v : Decimal} :
    (realNumber t).run s = .ok v s' ↔ Decimal.ofLiteral t.lexeme.toList = .ok v ∧ s = s' := by
  rw [realNumber]
  cases Decimal.ofLiteral t.lexeme.toList with
  | ok w => simp
  | error e => simp [run_failAt_eq_ok]

end Succeed

/-! ### Steps on given words -/

/-- **A step takes words**: in front of a token of the kind `next` it succeeds, stops behind the
words, and its result is as told. -/
def Takes {α : Type} (x : Parse α) (ws : List Word) (next : TokenKind) (P : α → Prop) : Prop :=
  ∀ ⦃s s' : State⦄, s.eof.kind = .eof → s.Passes ws s' → s'.peek.kind = next →
    ∃ a s'', x.run s = .ok a s'' ∧ s''.Passes [] s' ∧ P a

namespace Takes

variable {α β : Type} {x : Parse α} {f : α → Parse β} {w : Word} {ws ws' : List Word}
  {next kind : TokenKind} {P : α → Prop} {Q : β → Prop}

theorem pure {a : α} (h : P a) : Takes (Pure.pure a) [] next P :=
  fun _ _ _ hs _ => ⟨a, _, rfl, hs, h⟩

theorem bind (hx : Takes x ws (nextKind ws' next) P) (hf : ∀ a, P a → Takes (f a) ws' next Q) :
    Takes (x >>= f) (ws ++ ws') next Q := by
  intro s s' heof hs hnext
  obtain ⟨m, hm, hm'⟩ := hs.split
  obtain ⟨a, s₁, hrun, hs₁, ha⟩ := hx heof hm (by rw [hm'.peek_kind, hnext])
  have heof₁ : s₁.eof.kind = .eof := by rw [← hs₁.eof, hm.eof, heof]
  obtain ⟨b, s₂, hrun', hs₂, hb⟩ := hf a ha heof₁ (hs₁.trans hm') hnext
  exact ⟨b, s₂, run_bind_eq_ok.mpr ⟨a, s₁, hrun, hrun'⟩, hs₂, hb⟩

/-- A step, and one behind it that takes nothing. -/
theorem bindNil (hx : Takes x ws next P) (hf : ∀ a, P a → Takes (f a) [] next Q) :
    Takes (x >>= f) ws next Q := by
  rw [← List.append_nil ws]
  exact bind hx hf

/-- A step and what is made of its result. -/
theorem andThen {g : α → β} (hx : Takes x ws next P) (hg : ∀ a, P a → Q (g a)) :
    Takes (x >>= fun a => Pure.pure (g a)) ws next Q :=
  hx.bindNil fun a ha => pure (hg a ha)

theorem mono {P' : α → Prop} (hx : Takes x ws next P) (h : ∀ a, P a → P' a) :
    Takes x ws next P' := by
  intro s s' heof hs hnext
  obtain ⟨a, s₁, hrun, hs₁, ha⟩ := hx heof hs hnext
  exact ⟨a, s₁, hrun, hs₁, h a ha⟩

/-- A step that leaves the state alone. -/
theorem keeps {a : α} (h : ∀ s, x.run s = .ok a s) : Takes x [] next (a = ·) :=
  fun s _ _ hs _ => ⟨a, s, h s, hs, rfl⟩

/-- A step that goes on with another one from a state ahead. -/
theorem steps {f : α → Parse β} (h : ∀ ⦃s s'⦄, s.eof.kind = .eof → s.Passes ws s' →
      s'.peek.kind = next → ∃ a m, x.run s = .ok a m ∧ m.Passes ws' s' ∧ Takes (f a) ws' next Q) :
    Takes (x >>= f) ws next Q := by
  intro s s' heof hs hnext
  obtain ⟨a, m, hrun, hm, hf⟩ := h heof hs hnext
  obtain ⟨b, s₁, hrun', hs₁, hb⟩ := hf (by rw [← hm.eof, hs.eof, heof]) hm hnext
  exact ⟨b, s₁, run_bind_eq_ok.mpr ⟨a, m, hrun, hrun'⟩, hs₁, hb⟩

/-- A look at the next token, by its kind. -/
theorem peekKind {f : Token → Parse β}
    (h : ∀ t : Token, t.kind = nextKind ws next → Takes (f t) ws next Q) :
    Takes (peek >>= f) ws next Q :=
  steps fun s _ _ hs hnext => ⟨s.peek, s, rfl, hs, h s.peek (by rw [hs.peek_kind, hnext])⟩

/-- A look at the next token, which is a word. -/
theorem peekWord {f : Token → Parse β}
    (h : ∀ t : Token, t.word = w → Takes (f t) (w :: ws) next Q) :
    Takes (peek >>= f) (w :: ws) next Q :=
  steps fun s _ _ hs _ => ⟨s.peek, s, rfl, hs, h s.peek hs.peek_word⟩

theorem advance {f : Token → Parse β} (h : ∀ t : Token, t.word = w → Takes (f t) ws next Q) :
    Takes (Parser.advance >>= f) (w :: ws) next Q :=
  steps fun s _ _ hs _ => ⟨s.peek, s.advance, rfl, hs.advance, h s.peek hs.peek_word⟩

theorem check {f : Bool → Parse β} (h : Takes (f (nextKind ws next == kind)) ws next Q) :
    Takes (Parser.check kind >>= f) ws next Q := by
  refine steps fun s s' _ hs hnext => ⟨s.peek.kind == kind, s, rfl, hs, ?_⟩
  rwa [hs.peek_kind, hnext]

theorem checkNot {f : Bool → Parse β} (hkind : nextKind ws next ≠ kind)
    (h : Takes (f false) ws next Q) : Takes (Parser.check kind >>= f) ws next Q := by
  refine check ?_
  rwa [beq_eq_false_iff_ne.mpr hkind]

theorem eat {f : Bool → Parse β} (hkind : w.kind = kind) (h : Takes (f true) ws next Q) :
    Takes (Parser.eat kind >>= f) (w :: ws) next Q := by
  refine steps fun s s' _ hs hnext =>
    ⟨true, s.advance, run_eat_eq_ok.mpr (.inl ⟨?_, rfl, rfl⟩), hs.advance, h⟩
  rw [hs.peek_kind, nextKind_cons, hkind]

theorem eatNot {f : Bool → Parse β} (hkind : nextKind ws next ≠ kind)
    (h : Takes (f false) ws next Q) : Takes (Parser.eat kind >>= f) ws next Q := by
  refine steps fun s s' _ hs hnext => ⟨false, s, run_eat_eq_ok.mpr (.inr ⟨?_, rfl, rfl⟩), hs, h⟩
  rwa [hs.peek_kind, hnext]

theorem expect {f : Token → Parse β} (hkind : w.kind = kind)
    (h : ∀ t : Token, t.word = w → Takes (f t) ws next Q) :
    Takes (Parser.expect kind >>= f) (w :: ws) next Q := by
  refine steps fun s s' _ hs hnext => ⟨s.peek, s.advance, run_expect_eq_ok.mpr ⟨?_, rfl, rfl⟩,
    hs.advance, h s.peek hs.peek_word⟩
  rw [hs.peek_kind, nextKind_cons, hkind]

/-- A step with the bound that the tokens ahead give it. -/
theorem bounded {f : Nat → Parse β}
    (h : ∀ n, 8 * ws.length + 8 ≤ n → Takes (f n) ws next Q) :
    Takes (do f (bound (← get))) ws next Q := by
  refine steps fun s s' _ hs hnext => ⟨s, s, rfl, hs, h (bound s) ?_⟩
  obtain ⟨ts, rfl, hrest⟩ := hs.words
  simp only [bound, hrest, List.length_map, List.length_append]
  omega

end Takes

end FlatScript.Parser
