import FlatScript.Proofs.Writing.Expressions

/-!
# Expressions with a stable text

An expression is stable when its text is read back as an expression with the same text. The tree
may have changed, but whatever is written from it has not. Statements are put together from such
texts, so all that a statement needs to know of an expression is which words stand for it
(`FlatScript.Printer.Restores`): the text is scanned as these words, the words are read as a tree
with that text, and they are no expression in parentheses.

* `FlatScript.Printer.Stable.restores`: a stable expression has such words.
* `FlatScript.Printer.Restores.takes`: the parser takes them in front of anything that goes on
  with no expression, and answers with an expression of the same text.
-/

namespace FlatScript

/-! ### Words of a line -/

/-- A phrase stands on one line. -/
theorem Reads.inLine {ph : Phrase} {ws : List Word} {next : TokenKind} {out : List Expr}
    (h : Reads ph ws next out) : ∀ w ∈ ws, w.kind ≠ .newline ∧ w.kind ≠ .eof := by
  induction h with
  | stop | noSubscripts => simp
  | whole _ _ ihleft ihtail => exact List.forall_mem_append.mpr ⟨ihleft, ihtail⟩
  | infixed hop _ _ _ ihright ihtail =>
    refine List.forall_mem_cons.mpr ⟨?_, List.forall_mem_append.mpr ⟨ihright, ihtail⟩⟩
    constructor <;> rintro h <;> simp [h, BinaryOp.ofToken?] at hop
  | prefixed hop _ ih =>
    refine List.forall_mem_cons.mpr ⟨?_, ih⟩
    constructor <;> rintro h <;> simp [h, UnaryOp.ofToken?] at hop
  | int hkind _ => rcases hkind with hkind | hkind <;> simp [hkind]
  | real hkind _ | str hkind => simp [hkind]
  | call hkind _ ih | var hkind _ _ ih => exact List.forall_mem_cons.mpr ⟨by simp [hkind], ih⟩
  | callWith hword hkind _ ih =>
    exact List.forall_mem_cons.mpr ⟨by simp [hword], List.forall_mem_cons.mpr ⟨by simp [hkind], ih⟩⟩
  | callPlain hword hkind _ => simp [hword, hkind]
  | paren hopen hclose _ ih | arguments hopen hclose _ ih =>
    exact List.forall_mem_cons.mpr
      ⟨by simp [hopen], List.forall_mem_append.mpr ⟨ih, by simp [hclose]⟩⟩
  | one _ _ ih => exact ih
  | more hcomma _ _ ih ihmore =>
    exact List.forall_mem_append.mpr ⟨ih, List.forall_mem_cons.mpr ⟨by simp [hcomma], ihmore⟩⟩
  | noArguments hopen hclose => simp [hopen, hclose]
  | subscripts hopen hclose _ _ ih ihmore =>
    exact List.forall_mem_cons.mpr ⟨by simp [hopen], List.forall_mem_append.mpr
      ⟨ih, List.forall_mem_cons.mpr ⟨by simp [hclose], ihmore⟩⟩⟩

/-! ### Trees that were read -/

/-- A word that is a name or a string is a token on its own. -/
def Word.Sound (w : Word) : Prop :=
  w.kind = .identifier ∨ w.kind = .string → IsToken w.kind w.lexeme

theorem Word.Sound.name {w : Word} (h : w.Sound) (hkind : w.kind = .identifier) :
    IsToken .identifier (Ident.ofText w.lexeme .zero).full := by
  have hw := h (.inl hkind)
  rw [hkind] at hw
  rwa [Ident.full_ofText]

/-- **A tree that was read is legible**: its names and strings are those of the words. -/
theorem Reads.legible {ph : Phrase} {ws : List Word} {next : TokenKind} {out : List Expr}
    (h : Reads ph ws next out) (hws : ∀ w ∈ ws, w.Sound)
    (hleft : ∀ power left, ph = .tail power left → left.Meets legible) :
    exprsMeet FlatScript.legible out := by
  induction h with
  | whole _ _ ihleft ihtail =>
    rw [List.forall_mem_append] at hws
    refine ihtail hws.2 ?_
    rintro _ _ ⟨⟩
    exact (ihleft hws.1 nofun).1
  | stop => exact ⟨hleft _ _ rfl, trivial⟩
  | infixed _ _ _ _ ihright ihtail =>
    rw [List.forall_mem_cons, List.forall_mem_append] at hws
    refine ihtail hws.2.2 ?_
    rintro _ _ ⟨⟩
    exact .inr ⟨trivial, hleft _ _ rfl, (ihright hws.2.1 nofun).1⟩
  | prefixed _ _ ih => exact ⟨⟨trivial, (ih (List.forall_mem_cons.mp hws).2 nofun).1⟩, trivial⟩
  | int | real => exact ⟨trivial, trivial⟩
  | @str w _ hkind =>
    have hw := hws w (by simp) (.inr hkind)
    rw [hkind] at hw
    exact ⟨hw, trivial⟩
  | call hkind _ ih =>
    rw [List.forall_mem_cons] at hws
    exact ⟨⟨hws.1.name hkind, argsMeet_false.mpr (ih hws.2 nofun)⟩, trivial⟩
  | var hkind _ _ ih =>
    rw [List.forall_mem_cons] at hws
    exact ⟨⟨hws.1.name hkind, ih hws.2 nofun⟩, trivial⟩
  | callWith _ hkind _ ih =>
    rw [List.forall_mem_cons, List.forall_mem_cons] at hws
    exact ⟨⟨hws.2.1.name hkind, argsMeet_false.mpr (ih hws.2.2 nofun)⟩, trivial⟩
  | @callPlain _ w _ _ hkind _ =>
    exact ⟨⟨(hws w (by simp)).name hkind, trivial⟩, trivial⟩
  | paren _ _ _ ih | arguments _ _ _ ih =>
    exact ih (List.forall_mem_append.mp (List.forall_mem_cons.mp hws).2).1 nofun
  | one _ _ ih => exact ih hws nofun
  | more _ _ _ ih ihmore =>
    rw [List.forall_mem_append, List.forall_mem_cons] at hws
    exact ⟨(ih hws.1 nofun).1, ihmore hws.2.2 nofun⟩
  | noArguments | noSubscripts => trivial
  | subscripts _ _ _ _ ih ihmore =>
    rw [List.forall_mem_cons, List.forall_mem_append, List.forall_mem_cons] at hws
    exact exprsMeet_append.mpr ⟨ih hws.2.1 nofun, ihmore hws.2.2.2 nofun⟩

namespace Printer

/-! ### Places are not written -/

theorem precedence?_bare (e : Expr) : precedence? e.bare = precedence? e := by cases e <;> rfl

theorem isUnary_bare (e : Expr) : isUnary e.bare = isUnary e := by cases e <;> rfl

theorem isInt_bare (e : Expr) (n : Int32) : e.bare.isInt n = e.isInt n := by cases e <;> rfl

theorem isEmpty_bare (es : List Expr) : (exprsBare es).isEmpty = es.isEmpty := by cases es <;> rfl

mutual

/-- The text of an expression does not tell where it stands. -/
theorem expr_bare (b : Builtins) : ∀ e : Expr, expr b e.bare = expr b e
  | .binary op left right _ => by
    simp only [Expr.bare, expr, expr_bare b left, expr_bare b right, parenthesized, precedence?_bare]
  | .unary op operand _ => by
    simp only [Expr.bare, expr, expr_bare b operand, parenthesized, precedence?_bare, isUnary_bare,
      isInt_bare]
  | .int _ _ | .real _ _ | .str _ _ | .bool _ _ | .raw _ _ => rfl
  | .var i subscripts _ => by
    simp only [Expr.bare, expr, exprs_bare b subscripts, isEmpty_bare]
    rfl
  | .call name args _ _ _ => by
    simp only [Expr.bare, expr, exprs_bare b args, isEmpty_bare]
    rfl

theorem exprs_bare (b : Builtins) : ∀ es : List Expr, exprs b (exprsBare es) = exprs b es
  | [] => rfl
  | e :: es => by rw [exprsBare, exprs, exprs, expr_bare b e, exprs_bare b es]

end

/-! ### Parentheses -/

theorem balanced_enclosed {needed : Nat → Bool} {e : Expr} {ws : List Word} (h : Balanced ws) :
    Balanced (enclosed needed e ws) := by
  rcases enclosed_cases needed e ws with ⟨-, -, -, hws⟩ | ⟨-, hws⟩ <;> rw [hws]
  · exact .paren rfl rfl h
  · exact h

theorem balanced_signed {kind : TokenKind} (hopen : kind ≠ .sign .leftParen)
    (hclose : kind ≠ .sign .rightParen) (text : List Char) : Balanced (signedWords kind text) := by
  unfold signedWords
  split
  · exact (Balanced.word hopen hclose).cons nofun nofun
  · exact .word hopen hclose

theorem balanced_commaWords {wss : List (List Word)} (h : ∀ ws ∈ wss, Balanced ws) :
    Balanced (commaWords wss) := by
  induction wss with
  | nil => exact .nil
  | cons ws wss ih =>
    rw [List.forall_mem_cons] at h
    cases wss with
    | nil => simpa [commaWords] using h.1
    | cons ws' wss =>
      rw [commaWords, List.intercalate_cons_cons]
      exact (h.1.append (Balanced.nil.cons (by decide) (by decide))).append (ih h.2)

mutual

/-- The words of an expression have balanced parentheses. -/
theorem balanced_exprWords (b : Builtins) : ∀ e : Expr, Balanced (exprWords b e)
  | .binary op left right _ => by
    refine (balanced_enclosed (balanced_exprWords b left)).append (Balanced.cons ?_ ?_
      (balanced_enclosed (balanced_exprWords b right))) <;> cases op <;> nofun
  | .unary op operand _ => by
    have ih := balanced_exprWords b operand
    have hop : ∀ {ws}, Balanced ws → Balanced (op.word :: ws) := fun h =>
      h.cons (by cases op <;> nofun) (by cases op <;> nofun)
    simp only [exprWords]
    split
    · exact .word nofun nofun
    · split
      · exact hop ih
      · exact hop (balanced_enclosed ih)
  | .int value _ => by
    rw [exprWords, intWords]
    split
    · exact .word nofun nofun
    · exact balanced_signed (by decide) (by decide) _
  | .real value _ => by
    rw [exprWords, realWords]
    exact balanced_signed (by decide) (by decide) _
  | .str _ _ => .word nofun nofun
  | .bool value _ => Balanced.cons nofun nofun (Balanced.cons nofun nofun (.word nofun nofun))
  | .var _ subscripts _ => by
    refine Balanced.cons nofun nofun ?_
    split
    · exact .nil
    · exact Balanced.cons nofun nofun
        ((balanced_commaWords (balanced_exprsWords b subscripts)).append (.word nofun nofun))
  | .call name args isProcedure usingCall _ => by
    refine Balanced.append ?_ (Balanced.cons nofun nofun ?_)
    · split
      · exact .word nofun nofun
      · exact .nil
    · split
      · exact .paren rfl rfl (balanced_commaWords (balanced_exprsWords b args))
      · exact .nil
  | .raw _ _ => .nil

theorem balanced_exprsWords (b : Builtins) : ∀ es : List Expr, ∀ ws ∈ exprsWords b es, Balanced ws
  | [] => by simp [exprsWords]
  | e :: es => List.forall_mem_cons.mpr ⟨balanced_exprWords b e, balanced_exprsWords b es⟩

end

/-- A parenthesis at the front is closed before the end. -/
def ClosesEarly (ws : List Word) : Prop :=
  ∀ w rest, ws = w :: rest → w.kind = .sign .leftParen →
    ∃ inner w' behind, rest = inner ++ w' :: behind ∧ Balanced inner ∧
      w'.kind = .sign .rightParen ∧ behind ≠ []

theorem closesEarly_cons {w : Word} {ws : List Word} (h : w.kind ≠ .sign .leftParen) :
    ClosesEarly (w :: ws) := by
  rintro _ _ ⟨⟩ hw
  exact absurd hw h

/-- Words with a parenthesis that is closed early are not in parentheses as a whole. -/
theorem ClosesEarly.not_paren {w w' : Word} {ws : List Word} (h : ClosesEarly (w :: (ws ++ [w'])))
    (hopen : w.kind = .sign .leftParen) : ¬ Balanced ws := by
  intro hws
  obtain ⟨inner, c, behind, hrest, hinner, hclose, hbehind⟩ := h w _ rfl hopen
  obtain ⟨behind, last, rfl⟩ : ∃ front last, behind = front ++ [last] :=
    ⟨_, _, (List.dropLast_append_getLast hbehind).symm⟩
  rw [← List.cons_append, ← List.append_assoc] at hrest
  obtain ⟨rfl, -⟩ := List.append_inj' hrest rfl
  exact hinner.not_close hclose hws

/-- **No expression is in parentheses as a whole.** -/
theorem closesEarly_exprWords (b : Builtins) : ∀ e : Expr, ClosesEarly (exprWords b e)
  | .binary op left right _ => by
    rw [exprWords]
    rcases enclosed_cases (· < op.precedence) left (exprWords b left) with
      ⟨-, -, -, hleft⟩ | ⟨-, hleft⟩ <;> rw [hleft]
    · rintro w rest hrest hopen
      rw [List.cons_append, List.cons.injEq, List.append_assoc] at hrest
      exact ⟨_, _, _, hrest.2.symm, balanced_exprWords b left, rfl, by simp⟩
    · have ih := closesEarly_exprWords b left
      cases hwords : exprWords b left with
      | nil => exact closesEarly_cons (by cases op <;> nofun)
      | cons v vs =>
        rw [hwords] at ih
        rintro _ _ ⟨⟩ hopen
        obtain ⟨inner, w', behind, rfl, hinner, hclose, -⟩ := ih v vs rfl hopen
        exact ⟨inner, w', behind ++ op.word :: _, List.append_assoc inner (w' :: behind) _, hinner,
          hclose, by simp⟩
  | .unary op operand _ => by
    have hop : op.word.kind ≠ .sign .leftParen := by cases op <;> nofun
    simp only [exprWords]
    split
    · exact closesEarly_cons nofun
    · split <;> exact closesEarly_cons hop
  | .int value _ => by
    rw [exprWords, intWords]
    split
    · exact closesEarly_cons nofun
    · unfold signedWords
      split <;> exact closesEarly_cons nofun
  | .real value _ => by
    rw [exprWords, realWords]
    unfold signedWords
    split <;> exact closesEarly_cons nofun
  | .str _ _ | .bool _ _ | .var _ _ _ => closesEarly_cons nofun
  | .call _ _ _ usingCall _ => by
    cases usingCall <;> exact closesEarly_cons nofun
  | .raw _ _ => nofun

/-! ### Stable texts -/

/-- **An expression with a stable text**: the text is parsed up to the end of its line, as an
expression with the same text. -/
def Stable (b : Builtins) (e : Expr) : Prop :=
  ∃ e' s, Parser.expression.run (.ofTokens (tokenize (expr b e)).1) = .ok e' s ∧
    s.rest.map Token.kind = [.newline] ∧ expr b e' = expr b e

instance (b : Builtins) (e : Expr) : Decidable (Stable b e) :=
  match h : Parser.expression.run (.ofTokens (tokenize (expr b e)).1) with
  | .ok e' s =>
    decidable_of_iff (s.rest.map Token.kind = [.newline] ∧ expr b e' = expr b e)
      ⟨fun h' => ⟨e', s, h, h'⟩, fun ⟨_, _, hrun, h'⟩ => by
        rw [h] at hrun
        cases hrun
        exact h'⟩
  | .error _ _ => isFalse fun ⟨_, _, hrun, _⟩ => by
    rw [h] at hrun
    cases hrun

/-- **Words that restore a text**: the text is scanned as these words, and they are read as an
expression with that text. -/
structure Restores (b : Builtins) (text : String) (ws : List Word) : Prop where
  written : Written text.toList ws
  reads : ∃ tree, Reads (.whole 0) ws .newline [tree] ∧ expr b tree = text
  closesEarly : ClosesEarly ws

end Printer

namespace Scan

/-- The last token is the end mark. -/
theorem tokens_eof (fuel : Nat) (p : Position) (lineOpen : Bool) (cs : List Char) :
    ∃ ts eof, (tokens fuel p lineOpen cs).1 = ts ++ [eof] ∧ eof.kind = .eof := by
  have hfinish : ∀ p lineOpen, ∃ ts eof, finish p lineOpen = ts ++ [eof] ∧ eof.kind = .eof := by
    rintro p (_ | _)
    · exact ⟨[], _, rfl, rfl⟩
    · exact ⟨[_], _, rfl, rfl⟩
  induction fuel generalizing p lineOpen cs with
  | zero => exact hfinish p lineOpen
  | succ fuel ih =>
    simp only [tokens]
    split
    · exact hfinish _ _
    · split
      · split
        · obtain ⟨ts, eof, hts, heof⟩ := ih _ _ _
          exact ⟨_ :: ts, eof, by rw [hts]; rfl, heof⟩
        · exact ih _ _ _
      · obtain ⟨ts, eof, hts, heof⟩ := ih _ _ _
        exact ⟨_ :: ts, eof, by rw [hts]; rfl, heof⟩

end Scan

namespace Printer

/-- **A stable expression has words that restore its text.** -/
theorem Stable.restores {b : Builtins} {e : Expr} (h : Stable b e) :
    ∃ ws, Restores b (expr b e) ws := by
  obtain ⟨e', s, hrun, hrest, htext⟩ := h
  obtain ⟨ts, eof, hts, heof⟩ :
      ∃ ts eof, (tokenize (expr b e)).1 = ts ++ [eof] ∧ eof.kind = .eof := Scan.tokens_eof _ _ _ _
  have hstate : Parser.State.ofTokens (tokenize (expr b e)).1 = ⟨ts, eof, true⟩ := by
    simp [Parser.State.ofTokens, hts]
  obtain ⟨line, hline, hkind⟩ : ∃ line, s.rest = [line] ∧ line.kind = .newline := by
    obtain ⟨line, rest, hrest', hkind, hnil⟩ := List.map_eq_cons_iff.mp hrest
    exact ⟨line, by rw [hrest', List.map_eq_nil_iff.mp hnil], hkind⟩
  rw [hstate] at hrun
  obtain ⟨_, ⟨⟨us, rfl, hus⟩, -⟩, hreads⟩ := Parser.expression_sound heof hrun
  rw [hline] at hus
  have hpeek : s.peek.kind = .newline := by rw [Parser.State.peek, hline]; exact hkind
  rw [hpeek] at hreads
  -- the words that were read are those that the new tree is written as
  have hsound : ∀ w ∈ us.map Token.word, w.Sound := by
    rintro _ hw hkind
    obtain ⟨t, ht, rfl⟩ := List.mem_map.mp hw
    have hmem : t ∈ (tokenize (expr b e)).1 := by
      simp [hts, show ts = us ++ [line] from hus, ht]
    exact isToken_of_mem hmem hkind
  have hlegible := (hreads.legible hsound (by rintro _ _ ⟨⟩)).1
  have hwritten := written_expr b hlegible
  have htree : expr b e'.bare = expr b e := (expr_bare b e').trans htext
  rw [htree] at hwritten
  have hlexed := hwritten.lexed .nil (.nil true) false
  rw [List.append_nil] at hlexed
  have hwords := (tokenize_of_lexed hlexed).2
  rw [hts, show ts = us ++ [line] from hus, List.append_assoc, List.map_append] at hwords
  obtain ⟨hus', -⟩ := List.append_inj' hwords rfl
  rw [hus'] at hreads
  exact ⟨_, hwritten, ⟨_, hreads, htree⟩, closesEarly_exprWords b _⟩

/-! ### What the parser takes -/

namespace Restores

variable {b : Builtins} {text : String} {ws : List Word} {k : TokenKind}

/-- The words are read in front of everything that goes on with no expression. -/
theorem reads_before (h : Restores b text ws) :
    ∃ tree, (∀ k : TokenKind, k.Closes → Reads (.whole 0) ws k [tree]) ∧ expr b tree = text := by
  obtain ⟨tree, hreads, htext⟩ := h.reads
  exact ⟨tree, fun k hk => hreads.behind hk nofun, htext⟩

/-- **The parser takes the words** and answers with an expression of the same text. -/
theorem takes (h : Restores b text ws) (hk : k.Closes) :
    Parser.Takes Parser.expression ws k (expr b · = text) := by
  obtain ⟨tree, hreads, rfl⟩ := h.reads_before
  refine (Parser.expression_takes (hreads k hk)).mono ?_
  rintro e rfl
  exact (expr_bare b e).symm

/-- The same in parentheses. -/
theorem takes_paren (h : Restores b text ws) (hk : k.Closes) :
    Parser.Takes Parser.expression (Sign.leftParen.word :: (ws ++ [Sign.rightParen.word])) k
      (expr b · = text) := by
  obtain ⟨tree, hreads, rfl⟩ := h.reads_before
  have hparen : Reads (.whole 0) ((Sign.leftParen.word :: (ws ++ [Sign.rightParen.word])) ++ []) k
      [tree] :=
    .whole (.paren rfl rfl (hreads _ (by decide))) (.stop fun op hop => by simp [hk.operator] at hop)
  rw [List.append_nil] at hparen
  refine (Parser.expression_takes hparen).mono ?_
  rintro e rfl
  exact (expr_bare b e).symm

end Restores

/-- **Words that restore texts**, one by one. -/
def RestoresAll (b : Builtins) (texts : List String) (wss : List (List Word)) : Prop :=
  List.Forall₂ (Restores b) texts wss

theorem restoresAll_of_stable {b : Builtins} {es : List Expr} (h : ∀ e ∈ es, Stable b e) :
    ∃ wss, RestoresAll b (exprs b es) wss := by
  induction es with
  | nil => exact ⟨[], .nil⟩
  | cons e es ih =>
    rw [List.forall_mem_cons] at h
    obtain ⟨ws, hws⟩ := h.1.restores
    obtain ⟨wss, hwss⟩ := ih h.2
    exact ⟨ws :: wss, .cons hws hwss⟩

namespace RestoresAll

variable {b : Builtins} {texts : List String} {wss : List (List Word)} {next : TokenKind}

theorem written (h : RestoresAll b texts wss) :
    List.Forall₂ (fun text ws => Written text.toList ws) texts wss :=
  h.imp fun _ _ h => h.written

theorem reads (h : RestoresAll b texts wss) :
    ∃ trees, List.Forall₂ (fun ws tree => ∀ k : TokenKind, k.Closes → Reads (.whole 0) ws k [tree])
      wss trees ∧ exprs b trees = texts := by
  induction h with
  | nil => exact ⟨[], .nil, rfl⟩
  | cons h _ ih =>
    obtain ⟨tree, hreads, htext⟩ := h.reads_before
    obtain ⟨trees, hall, htexts⟩ := ih
    exact ⟨tree :: trees, .cons hreads hall, by rw [exprs, htext, htexts]⟩

/-- Texts with commas between them, in parentheses. -/
theorem reads_arguments (h : RestoresAll b texts wss) (next : TokenKind) :
    ∃ trees, Reads .arguments (Sign.leftParen.word :: (commaWords wss ++ [Sign.rightParen.word])) next
      trees ∧ exprs b trees = texts := by
  obtain ⟨trees, hreads, htexts⟩ := h.reads
  refine ⟨trees, ?_, htexts⟩
  cases hreads with
  | nil => exact .noArguments rfl rfl
  | cons hread hall =>
    exact .arguments rfl rfl (reads_list (by decide) (by decide) (by simp) (.cons hread hall))

theorem takes_arguments (h : RestoresAll b texts wss) :
    Parser.Takes Parser.argumentList
      (Sign.leftParen.word :: (commaWords wss ++ [Sign.rightParen.word])) next
      fun r => exprs b r.1 = texts := by
  obtain ⟨trees, hreads, rfl⟩ := h.reads_arguments next
  refine .bounded fun n hn => ((Parser.isTaken_of_reads hreads) n (by omega)).mono ?_
  rintro r rfl
  exact (exprs_bare b r.1).symm

/-- A name and texts behind it in brackets, if there are any. -/
theorem takes_varRefRest (h : RestoresAll b texts wss) (ident : Ident)
    (hnext : next ≠ .sign .leftBracket) :
    Parser.Takes (Parser.varRefRest ident)
      (if texts.isEmpty then [] else Sign.leftBracket.word ::
        (commaWords wss ++ [Sign.rightBracket.word])) next
      fun v => v.ident = ident ∧ exprs b v.subscripts = texts := by
  obtain ⟨trees, hreads, rfl⟩ := h.reads
  have hsubs : Reads .subscripts (if (exprs b trees).isEmpty then [] else Sign.leftBracket.word ::
      (commaWords wss ++ [Sign.rightBracket.word])) next trees := by
    cases hreads with
    | nil => exact .noSubscripts hnext
    | cons hread hall =>
      have hlist := reads_list (k := .sign .rightBracket) (by decide) (by decide) (by simp)
        (.cons hread hall)
      rw [← List.append_nil (_ :: _)]
      exact .subscripts rfl rfl hlist (.noSubscripts hnext)
  refine .bounded (f := fun n => Parser.subscripts n ident.span >>= fun r =>
    pure (VarRef.mk ident r.1 r.2)) fun n hn => ?_
  refine ((Parser.isTaken_of_reads hsubs) n ident.span (by omega)).andThen ?_
  rintro r rfl
  exact ⟨rfl, (exprs_bare b r.1).symm⟩

end RestoresAll

/-- What is told by a call with the keyword. -/
theorem isCall_iff {name : Word} {args : List Expr} {isProcedure : Bool} {c : Call} :
    Parser.IsCall name args isProcedure c ↔
      c.name.bare = .ofText name.lexeme .zero ∧ exprsBare c.args = args ∧
        c.isProcedure = isProcedure ∧ c.usingCall = true := by
  simp [Parser.IsCall, Call.toExpr, Expr.bare]

/-- A call with the keyword, with texts in parentheses or without parentheses. -/
theorem RestoresAll.takes_call {b : Builtins} {texts : List String} {wss : List (List Word)}
    {next : TokenKind} (h : RestoresAll b texts wss) {name : Word} (hname : name.kind = .identifier)
    (isProcedure : Bool) {parens : Bool} (hparens : parens = false → texts = [])
    (hnext : next ≠ .sign .leftParen) :
    Parser.Takes (Parser.callWithKeyword isProcedure) (Keyword.callKw.word :: name ::
      if parens then Sign.leftParen.word :: (commaWords wss ++ [Sign.rightParen.word]) else []) next
      fun c => c.name.full = name.lexeme ∧ exprs b c.args = texts ∧ c.isProcedure = isProcedure ∧
        c.usingCall = true := by
  have hcall : ∀ {args c}, Parser.IsCall name args isProcedure c →
      c.name.full = name.lexeme ∧ exprs b c.args = exprs b args ∧ c.isProcedure = isProcedure ∧
        c.usingCall = true := by
    rintro args c hc
    obtain ⟨hname, rfl, hrest⟩ := isCall_iff.mp hc
    refine ⟨?_, (exprs_bare b c.args).symm, hrest⟩
    rw [← Ident.full_ofText name.lexeme .zero, ← hname]
    rfl
  refine .bounded (f := fun n => Parser.callKeyword n isProcedure) fun n hn => ?_
  cases parens with
  | true =>
    obtain ⟨trees, hreads, rfl⟩ := h.reads_arguments next
    exact (Parser.takes_callKeyword_arguments (w := Keyword.callKw.word) rfl hname hreads
      (Parser.isTaken_of_reads hreads) (by simp at hn ⊢; omega) isProcedure).mono fun c hc => hcall hc
  | false =>
    obtain rfl := hparens rfl
    obtain ⟨n, rfl⟩ : ∃ m, n = m + 1 := ⟨n - 1, by omega⟩
    exact (Parser.takes_callKeyword_plain (w := Keyword.callKw.word) rfl hname hnext
      isProcedure).mono fun c hc => hcall hc

end Printer

end FlatScript
