import FlatScript.Proofs.Writing.Lines

/-!
# Statements read back from print

What is left of a script in the end are declarations, assignments, calls, loops with a condition in
front, conditions with one branch, and choices by value. Written line by line, such statements are
read back as the same statements, if their names are tokens and their expressions have stable
texts (`FlatScript.Printer.printable`).

* `FlatScript.Stmt.Alike` compares statements construct by construct: names and modifiers by their
  spelling, and expressions by their text.
* `FlatScript.Printer.reads_stmts`: the lines of printable statements are read as statements that
  are alike, in front of every word that closes or divides a body.

A list of values in a declaration is told from an expression in parentheses by trying the list
first, so an expression must not be taken for a list of one value; it is not, because no
expression is written in parentheses as a whole.
-/

namespace FlatScript

open Printer

/-! ### Statements that are alike -/

/-- Values of declarations that are alike. -/
def Initializer.Alike (b : Builtins) : Initializer → Initializer → Prop
  | .single value, .single value' => expr b value = expr b value'
  | .list values, .list values' => exprs b values = exprs b values'
  | _, _ => False

/-- Declarations that are alike. -/
structure Declaration.Alike (b : Builtins) (d d' : Declaration) : Prop where
  name : d.name.full = d'.name.full
  modifiers : d.modifiers = d'.modifiers
  size : d.size.map (expr b) = d'.size.map (expr b)
  params : exprs b d.params = exprs b d'.params
  init : Option.Rel (Initializer.Alike b) d.init d'.init

/-- References that are alike. -/
structure VarRef.Alike (b : Builtins) (v v' : VarRef) : Prop where
  name : v.ident.full = v'.ident.full
  subscripts : exprs b v.subscripts = exprs b v'.subscripts

/-- Calls that are alike. -/
structure Call.Alike (b : Builtins) (c c' : Call) : Prop where
  name : c.name.full = c'.name.full
  args : exprs b c.args = exprs b c'.args
  isProcedure : c.isProcedure = c'.isProcedure
  usingCall : c.usingCall = c'.usingCall

mutual

/-- **Statements that are alike**: the same constructs, with the same names and modifiers, and with
expressions of the same texts. -/
def Stmt.Alike (b : Builtins) : Stmt → Stmt → Prop
  | ⟨.declare d, _, _⟩, ⟨.declare d', _, _⟩ => d.Alike b d'
  | ⟨.assign target value, _, _⟩, ⟨.assign target' value', _, _⟩ =>
    target.Alike b target' ∧ expr b value = expr b value'
  | ⟨.call c, _, _⟩, ⟨.call c', _, _⟩ => c.Alike b c'
  | ⟨.whileLoop cond body, _, _⟩, ⟨.whileLoop cond' body', _, _⟩ =>
    expr b cond = expr b cond' ∧ stmtsAlike b body body'
  | ⟨.ifChain branches otherwise, _, _⟩, ⟨.ifChain branches' otherwise', _, _⟩ =>
    branchesAlike b branches branches' ∧ stmtsAlike b otherwise otherwise'
  | ⟨.select subject cases, _, _⟩, ⟨.select subject' cases', _, _⟩ =>
    expr b subject = expr b subject' ∧ casesAlike b cases cases'
  | _, _ => False
termination_by structural s => s

/-- Bodies that are alike. -/
def stmtsAlike (b : Builtins) : List Stmt → List Stmt → Prop
  | [], [] => True
  | s :: ss, s' :: ss' => s.Alike b s' ∧ stmtsAlike b ss ss'
  | _, _ => False
termination_by structural s => s

/-- Branches that are alike. -/
def branchesAlike (b : Builtins) : List Branch → List Branch → Prop
  | [], [] => True
  | ⟨cond, body⟩ :: rest, ⟨cond', body'⟩ :: rest' =>
    expr b cond = expr b cond' ∧ stmtsAlike b body body' ∧ branchesAlike b rest rest'
  | _, _ => False
termination_by structural s => s

/-- Cases that are alike. -/
def casesAlike (b : Builtins) : List Case → List Case → Prop
  | [], [] => True
  | ⟨start, stop, body⟩ :: rest, ⟨start', stop', body'⟩ :: rest' =>
    expr b start = expr b start' ∧ stop.map (expr b) = stop'.map (expr b) ∧
      stmtsAlike b body body' ∧ casesAlike b rest rest'
  | _, _ => False
termination_by structural s => s

end

namespace Printer

open FlatScript.Parser (Takes)

/-! ### Statements that can be read back -/

/-- The values of a declaration can be read back. A list of one value is an expression in
parentheses, unless an array is declared. -/
def initPrintable (b : Builtins) (isArray : Bool) : Initializer → Prop
  | .single (.raw _ _) => False
  | .single value => Stable b value
  | .list values => (∀ e ∈ values, Stable b e) ∧ (isArray = true ∨ 2 ≤ values.length)

/-- A declaration can be read back. -/
structure DeclPrintable (b : Builtins) (d : Declaration) : Prop where
  name : IsToken .identifier d.name.full
  modifiers : ∀ m ∈ d.modifiers, IsToken .identifier m
  size : ∀ e ∈ d.size, Stable b e
  params : ∀ e ∈ d.params, Stable b e
  init : ∀ i ∈ d.init, initPrintable b d.size.isSome i

/-- **Statements that can be read back**: the constructs that are left in the end, with names that
are tokens and expressions with stable texts. -/
def printable (b : Builtins) : Rule where
  expr _ := True
  stmt
    | .declare d => DeclPrintable b d
    | .assign target value =>
      IsToken .identifier target.ident.full ∧ (∀ e ∈ target.subscripts, Stable b e) ∧ Stable b value
    | .call c =>
      IsToken .identifier c.name.full ∧ (∀ e ∈ c.args, Stable b e) ∧ c.isProcedure = true
    | .whileLoop cond _ => Stable b cond
    | .ifChain branches _ => branches.length = 1 ∧ ∀ br ∈ branches, Stable b br.cond
    | .select subject cases =>
      Stable b subject ∧ ∀ c ∈ cases, Stable b c.start ∧ ∀ e ∈ c.stop, Stable b e
    | _ => False
  list _ := True
  skips _ := false
  atom _ _ _ := False

variable {b : Builtins} {next : TokenKind} {text : String} {texts : List String}
  {ws : List Word} {wss : List (List Word)}

/-! ### Declarations -/

/-- A part of a line that is left out or starts with a sign. -/
def Opens (s : Sign) (ws : List Word) : Prop := ∀ k, nextKind ws k = k ∨ nextKind ws k = .sign s

theorem opens_nil {s : Sign} : Opens s [] := fun _ => .inl rfl

theorem opens_cons {s : Sign} : Opens s (s.word :: ws) := fun _ => .inr rfl

/-- The first kind of what follows such a part is still one that another part has not. -/
theorem Opens.append_ne {s : Sign} {rest : List Word} {k : TokenKind} (h : Opens s ws)
    (hs : .sign s ≠ k) (hrest : nextKind rest next ≠ k) : nextKind (ws ++ rest) next ≠ k := by
  rw [nextKind_append]
  rcases h (nextKind rest next) with hk | hk <;> rw [hk]
  · exact hrest
  · exact hs

/-- The number of elements of an array, as it is written. -/
def sizeText (b : Builtins) : Option Expr → String
  | some size => "[" ++ expr b size ++ "]"
  | none => ""

/-- The parameters of a control, as they are written. -/
def paramsText (b : Builtins) (params : List Expr) : String :=
  if params.isEmpty then "" else "(" ++ commas (exprs b params) ++ ")"

/-- The values of a declaration, as they are written, if there are any. -/
def initText (b : Builtins) : Option Initializer → String
  | some init => initializer b init
  | none => ""

theorem declaration_eq (b : Builtins) (d : Declaration) :
    declaration b d = Keyword.declareKw.spelling ++ (" " ++
      (String.join (d.modifiers.map (· ++ " ")) ++ (d.name.full ++
        (sizeText b d.size ++ (paramsText b d.params ++ initText b d.init))))) := by
  simp only [declaration, ← String.append_assoc]
  rfl

/-- The number of elements of an array. -/
theorem reads_size (size : Option Expr) (h : ∀ e ∈ size, Stable b e) :
    ∃ ws, Trails (sizeText b size).toList ws ∧ Opens .leftBracket ws ∧
      ∀ ⦃next⦄, next ≠ .sign .leftBracket →
        Takes Parser.declaredSize ws next fun size' => size.map (expr b) = size'.map (expr b) := by
  cases size with
  | none =>
    refine ⟨[], .nil, opens_nil, fun next hnext => ?_⟩
    rw [Parser.declaredSize]
    refine .eatNot hnext ?_
    simp only [Bool.false_eq_true, if_false]
    exact .pure rfl
  | some size =>
    obtain ⟨ws, hws⟩ := (h size rfl).restores
    have htrails := Trails.brackets (.cons hws.written .nil)
    rw [commas, String.intercalate_singleton, commaWords, List.intercalate_singleton] at htrails
    refine ⟨_, htrails, opens_cons, fun next _ => ?_⟩
    rw [Parser.declaredSize]
    refine .eat rfl ?_
    simp only [if_true]
    refine (hws.takes (k := .sign .rightBracket) (by decide)).bind ?_
    rintro e he
    exact .expect rfl fun _ _ => .pure (by simp [he])

/-- The parameters of a control. -/
theorem reads_params (params : List Expr) (h : ∀ e ∈ params, Stable b e) :
    ∃ ws, Trails (paramsText b params).toList ws ∧ Opens .leftParen ws ∧
      ∀ ⦃next⦄, next ≠ .sign .leftParen →
        Takes Parser.declaredParams ws next fun params' => exprs b params = exprs b params' := by
  obtain ⟨wss, hwss⟩ := restoresAll_of_stable h
  cases params with
  | nil =>
    refine ⟨[], .nil, opens_nil, fun next hnext => ?_⟩
    rw [Parser.declaredParams]
    refine .check ?_
    simp only [nextKind_nil, beq_eq_false_iff_ne.mpr hnext, Bool.false_eq_true, if_false]
    exact .pure rfl
  | cons e es =>
    refine ⟨_, Trails.parens hwss.written, opens_cons, fun next _ => ?_⟩
    rw [Parser.declaredParams]
    refine .check ?_
    simp only [nextKind_cons, Sign.word_kind, beq_self_eq_true, if_true]
    exact hwss.takes_arguments.andThen fun r hr => hr.symm

/-- Words in parentheses as a whole are no expression in print. -/
theorem Restores.not_arguments (h : Restores b text ws) {k : TokenKind} {args : List Expr} :
    ¬ Reads .arguments ws k args := by
  rintro hreads
  have hearly := h.closesEarly
  cases hreads with
  | noArguments hopen _ => exact ClosesEarly.not_paren (w := _) hearly hopen .nil
  | arguments hopen hclose hlist => exact hearly.not_paren hopen hlist.balanced

theorem endsLine_of_inLine (h : ∀ w ∈ ws, w.kind ≠ .newline ∧ w.kind ≠ .eof) :
    ∀ w ∈ ws, Parser.endsLine w.kind = false := by
  intro w hw
  simp [Parser.endsLine, h w hw]

/-- **An expression is not taken for a list of values.** -/
theorem Restores.takes_noList {β : Type} {Q : β → Prop} (h : Restores b text ws) (isArray : Bool)
    {f : Option (List Expr) → Parse β} (hf : Takes (f none) ws .newline Q) :
    Takes (Parser.valueList? isArray >>= f) ws .newline Q := by
  refine .steps fun s s' heof hs hnext => ⟨none, s, ?_, hs, hf⟩
  rw [Parser.valueList?, Parser.run_bind_eq_ok]
  refine ⟨s, s, rfl, ?_⟩
  split
  next values close m hrun =>
    by_cases hend : Parser.endsLine m.peek.kind = true
    · -- a list up to the end of the line would be the whole expression
      exfalso
      obtain ⟨_, _, ⟨rfl, rfl⟩, hargs⟩ := Parser.run_bind_eq_ok.mp hrun
      obtain ⟨ws', hws', hreads⟩ := (Parser.sound _).arguments heof hargs
      obtain ⟨tree, hwhole, -⟩ := h.reads
      have hmeet : ws' = ws := hws'.eq_of_endsLine hs (endsLine_of_inLine hreads.inLine)
        (endsLine_of_inLine hwhole.inLine) hend (by rw [hnext]; rfl)
      rw [hmeet] at hreads
      exact h.not_arguments hreads
    · rw [Parser.endsLine] at hend
      simp only [hend, Bool.false_and, Bool.false_eq_true, if_false]
      rfl
  next => rfl

theorem exprs_length (es : List Expr) : (exprs b es).length = es.length := by
  induction es with
  | nil => rfl
  | cons e es ih => rw [exprs, List.length_cons, ih, List.length_cons]

/-- A list of values that is one. -/
theorem RestoresAll.takes_list {β : Type} {Q : β → Prop} (h : RestoresAll b texts wss)
    {isArray : Bool} (hlist : isArray = true ∨ 2 ≤ texts.length) {f : Option (List Expr) → Parse β}
    (hf : ∀ values, exprs b values = texts → Takes (f (some values)) [] .newline Q) :
    Takes (Parser.valueList? isArray >>= f)
      (Sign.leftParen.word :: (commaWords wss ++ [Sign.rightParen.word])) .newline Q := by
  refine @Takes.steps _ _ _ _ [] _ _ _ fun s s' heof hs hnext => ?_
  obtain ⟨r, m, hrun, hm, hr⟩ := h.takes_arguments heof hs hnext
  have hkind : m.peek.kind = .newline := by rw [hm.peek_kind, hnext]; rfl
  have hlength : texts.length = r.1.length := by rw [← hr, exprs_length]
  refine ⟨some r.1, m, ?_, hm, hf r.1 hr⟩
  rw [Parser.valueList?, Parser.run_bind_eq_ok]
  refine ⟨s, s, rfl, ?_⟩
  rw [hrun]
  have hcond : (isArray || decide (1 < r.1.length)) = true := by
    rw [Bool.or_eq_true, decide_eq_true_eq, ← hlength]
    exact hlist
  simp only [hkind, beq_self_eq_true, Bool.true_or, Bool.true_and, hcond, if_true]
  rfl

/-- The values of a declaration. -/
theorem reads_init {isArray : Bool} (init : Option Initializer)
    (h : ∀ i ∈ init, initPrintable b isArray i) :
    ∃ ws, Trails (initText b init).toList ws ∧ Opens .assign ws ∧
      Takes (Parser.declaredInit isArray) ws .newline
        fun init' => Option.Rel (Initializer.Alike b) init init' := by
  cases init with
  | none =>
    refine ⟨[], .nil, opens_nil, ?_⟩
    rw [Parser.declaredInit]
    refine .eatNot (by simp) ?_
    simp only [Bool.false_eq_true, if_false]
    exact .pure .none
  | some init =>
    have hinit := h init rfl
    cases init with
    | single value =>
      have hvalue : Stable b value ∧ initializer b (.single value) = " := " ++ expr b value := by
        cases value <;> first | exact ⟨hinit, rfl⟩ | cases hinit
      obtain ⟨ws, hws⟩ := hvalue.1.restores
      have hsingle : Takes (Parser.expression >>= fun e => pure (Initializer.single e)) ws .newline
          ((Initializer.single value).Alike b) :=
        (hws.takes (by decide)).andThen fun e he => he.symm
      have htakes : Takes (Parser.initializer isArray) ws .newline
          ((Initializer.single value).Alike b) := by
        rw [Parser.initializer]
        refine .check ?_
        split
        · exact hws.takes_noList isArray hsingle
        · exact hsingle
      refine ⟨_, by rw [initText, hvalue.2]; exact .assign hws.written, opens_cons, ?_⟩
      rw [Parser.declaredInit]
      refine .eat rfl ?_
      simp only [if_true]
      exact htakes.andThen fun _ hi => .some hi
    | list values =>
      obtain ⟨wss, hwss⟩ := restoresAll_of_stable hinit.1
      have htext : initializer b (.list values) =
          " := " ++ ("(" ++ commas (exprs b values) ++ ")") := by
        simp [initializer, ← String.append_assoc]
      have htakes : Takes (Parser.initializer isArray)
          (Sign.leftParen.word :: (commaWords wss ++ [Sign.rightParen.word])) .newline
          ((Initializer.list values).Alike b) := by
        rw [Parser.initializer]
        refine .check ?_
        simp only [nextKind_cons, Sign.word_kind, beq_self_eq_true, if_true]
        refine hwss.takes_list ?_ fun values' hvalues => .pure hvalues.symm
        rw [exprs_length]
        exact hinit.2
      refine ⟨_, by rw [initText, htext]; exact .assign (.parens hwss.written), opens_cons, ?_⟩
      rw [Parser.declaredInit]
      refine .eat rfl ?_
      simp only [if_true]
      exact htakes.andThen fun _ hi => .some hi

/-- Modifiers in front of a name. -/
theorem written_modifiers {modifiers : List String} (h : ∀ m ∈ modifiers, IsToken .identifier m)
    (hws : Written text.toList ws) :
    Written (String.join (modifiers.map (· ++ " ")) ++ text).toList (modifiers.map nameWord ++ ws) := by
  induction modifiers with
  | nil => simpa using hws
  | cons m modifiers ih =>
    rw [List.forall_mem_cons] at h
    have hall := (Written.name h.1).append (.blank (ih h.2))
    simpa [String.join_cons, nameWord] using hall

/-- What a declaration is written as, read back. -/
theorem reads_declaration {d : Declaration} (h : DeclPrintable b d) :
    ∃ ws, Written (declaration b d).toList (Keyword.declareKw.word :: ws) ∧ ∀ next,
      Takes Parser.declaration (Keyword.declareKw.word :: ws ++ [lineEnd]) next
        fun k => ∃ d', k = .declare d' ∧ d.Alike b d' := by
  obtain ⟨sizeWords, hsize, hsizeOpens, hsizeTakes⟩ := reads_size d.size h.size
  obtain ⟨paramWords, hparams, hparamsOpens, hparamsTakes⟩ := reads_params d.params h.params
  obtain ⟨initWords, hinit, hinitOpens, hinitTakes⟩ := reads_init d.init h.init
  refine ⟨d.modifiers.map nameWord ++ nameWord d.name.full :: (sizeWords ++ (paramWords ++ initWords)),
    ?_, fun next => ?_⟩
  · have hname := (Written.name h.name).append (hsize.append (hparams.append hinit))
    rw [← String.toList_append, ← String.toList_append, ← String.toList_append] at hname
    rw [declaration_eq]
    exact .behind .declareKw (written_modifiers h.modifiers hname)
  · simp only [List.cons_append, List.append_assoc]
    have hinitNext : ∀ k, k ≠ .newline → k ≠ .sign .assign →
        nextKind (initWords ++ [lineEnd]) next ≠ k := fun k hk hk' =>
      hinitOpens.append_ne hk'.symm hk.symm
    have hparamsNext : ∀ k, k ≠ .newline → k ≠ .sign .assign → k ≠ .sign .leftParen →
        nextKind (paramWords ++ (initWords ++ [lineEnd])) next ≠ k := fun k hk hk' hk'' =>
      hparamsOpens.append_ne hk''.symm (hinitNext k hk hk')
    have hsizeNext : nextKind (sizeWords ++ (paramWords ++ (initWords ++ [lineEnd]))) next ≠
        .identifier := hsizeOpens.append_ne nofun (hparamsNext _ nofun nofun nofun)
    rw [Parser.declaration]
    refine .expect rfl fun _ _ => .modifiers hsizeNext (.expect rfl fun t ht => ?_)
    refine (hsizeTakes (hparamsNext _ nofun nofun nofun)).bind fun size hsize => ?_
    refine (hparamsTakes (hinitNext _ nofun nofun)).bind fun params hparams => ?_
    have hsome : size.isSome = d.size.isSome := by
      simpa using (congrArg Option.isSome hsize).symm
    rw [hsome]
    refine hinitTakes.bind fun init hinit => .lineEnd (.pure ⟨_, rfl, ?_, rfl, hsize, hparams, hinit⟩)
    rw [Ident.full_ofText]
    exact (congrArg Word.lexeme ht).symm

/-! ### Assignments and calls -/

/-- The words of texts behind a name, in brackets, if there are any. -/
def subscriptWords (texts : List String) (wss : List (List Word)) : List Word :=
  if texts.isEmpty then []
  else Sign.leftBracket.word :: (commaWords wss ++ [Sign.rightBracket.word])

theorem written_varRef {v : VarRef} (h : IsToken .identifier v.ident.full)
    (hwss : RestoresAll b (exprs b v.subscripts) wss) :
    Written (varRef b v).toList
      (nameWord v.ident.full :: subscriptWords (exprs b v.subscripts) wss) := by
  have hname : Written v.ident.full.toList [nameWord v.ident.full] := .name h
  unfold subscriptWords
  cases hsubs : v.subscripts with
  | nil => simpa [varRef, VarRef.toExpr, expr, hsubs, exprs] using hname
  | cons e es =>
    have hall := hname.append (.brackets hwss.written)
    simpa [varRef, VarRef.toExpr, expr, hsubs, exprs] using hall

theorem opens_subscriptWords : Opens .leftBracket (subscriptWords texts wss) := by
  unfold subscriptWords
  split
  · exact opens_nil
  · exact opens_cons

/-- What an assignment is written as, read back. -/
theorem reads_assign {target : VarRef} {value : Expr} (h : IsToken .identifier target.ident.full)
    (hsubs : ∀ e ∈ target.subscripts, Stable b e) (hvalue : Stable b value) :
    ∃ ws, Written (varRef b target ++ " := " ++ expr b value).toList
        (nameWord target.ident.full :: ws) ∧ ∀ next,
      Takes Parser.assignOrCall (nameWord target.ident.full :: ws ++ [lineEnd]) next
        fun k => ∃ target' value', k = .assign target' value' ∧ target.Alike b target' ∧
          expr b value = expr b value' := by
  obtain ⟨wss, hwss⟩ := restoresAll_of_stable hsubs
  obtain ⟨ws, hws⟩ := hvalue.restores
  refine ⟨subscriptWords (exprs b target.subscripts) wss ++ Sign.assign.word :: ws, ?_, fun next => ?_⟩
  · rw [String.append_assoc, String.toList_append]
    exact (written_varRef h hwss).append (.assign hws.written)
  · simp only [List.cons_append, List.append_assoc]
    have hnext : nextKind (subscriptWords (exprs b target.subscripts) wss ++
        Sign.assign.word :: (ws ++ [lineEnd])) next = .sign .assign ∨
        nextKind (subscriptWords (exprs b target.subscripts) wss ++
          Sign.assign.word :: (ws ++ [lineEnd])) next = .sign .leftBracket := by
      rw [nextKind_append]
      exact opens_subscriptWords _
    rw [Parser.assignOrCall]
    refine .advance fun t ht => .peekKind fun p hp => ?_
    have hparen : ¬ p.kind = .sign .leftParen := by
      rw [hp]
      rcases hnext with hk | hk <;> rw [hk] <;> decide
    rw [← hp] at hnext
    simp only [if_neg hparen, if_pos hnext]
    refine (hwss.takes_varRefRest _ (by simp)).bind fun target' htarget => .expect rfl fun _ _ => ?_
    refine (hws.takes (k := .newline) (by decide)).bind fun value' hvalue' => .lineEnd (.pure ?_)
    refine ⟨target', value', rfl, ⟨?_, htarget.2.symm⟩, hvalue'.symm⟩
    rw [htarget.1, Ident.full_ofText]
    exact (congrArg Word.lexeme ht).symm

/-- The words of texts behind the name of a call, in parentheses or left out. -/
def argumentWords (parens : Bool) (wss : List (List Word)) : List Word :=
  if parens then Sign.leftParen.word :: (commaWords wss ++ [Sign.rightParen.word]) else []

/-- Whether a call that is a statement is written with parentheses. -/
def callParens (b : Builtins) (c : Call) : Bool :=
  hasParentheses b c.name (!c.args.isEmpty) c.isProcedure

theorem exprs_eq_nil_of_callParens {c : Call} (h : callParens b c = false) :
    exprs b c.args = [] := by
  simp only [callParens, hasParentheses, Bool.or_eq_false_iff, Bool.not_eq_false',
    List.isEmpty_iff] at h
  rw [h.1.1]
  rfl

/-- The name of a call with its arguments. -/
theorem written_callRest {c : Call} (h : IsToken .identifier c.name.full)
    (hwss : RestoresAll b (exprs b c.args) wss) :
    Written (c.name.full ++ if callParens b c then "(" ++ commas (exprs b c.args) ++ ")" else "").toList
      (nameWord c.name.full :: argumentWords (callParens b c) wss) := by
  have hname : Written c.name.full.toList [nameWord c.name.full] := .name h
  unfold argumentWords
  split
  · rw [String.toList_append]
    exact hname.append (.parens hwss.written)
  · simpa using hname

/-- What a call with the keyword is written as, read back. -/
theorem reads_callWith {c : Call} (h : IsToken .identifier c.name.full)
    (hargs : ∀ e ∈ c.args, Stable b e) (hprocedure : c.isProcedure = true)
    (husing : c.usingCall = true) :
    ∃ ws, Written (call b c).toList (Keyword.callKw.word :: ws) ∧ ∀ next,
      Takes Parser.callStatement (Keyword.callKw.word :: ws ++ [lineEnd]) next
        fun k => ∃ c', k = .call c' ∧ c.Alike b c' := by
  obtain ⟨wss, hwss⟩ := restoresAll_of_stable hargs
  refine ⟨nameWord c.name.full :: argumentWords (callParens b c) wss, ?_, fun next => ?_⟩
  · have hall := (written_callRest h hwss).behind .callKw
    have htext : call b c = Keyword.callKw.spelling ++ (" " ++ (c.name.full ++
        if callParens b c then "(" ++ commas (exprs b c.args) ++ ")" else "")) := by
      simp only [call, Call.toExpr, expr, husing, if_true, ← String.append_assoc]
      rfl
    rwa [htext]
  · rw [Parser.callStatement]
    refine Takes.bind (hwss.takes_call rfl true exprs_eq_nil_of_callParens ?_) ?_
    · simp
    · rintro c' ⟨hname', hargs', hprocedure', husing'⟩
      exact .lineEnd (.pure ⟨c', rfl, hname'.symm, hargs'.symm, hprocedure.trans hprocedure'.symm,
        husing.trans husing'.symm⟩)

/-- What a call without the keyword is written as, read back. -/
theorem reads_callPlain {c : Call} (h : IsToken .identifier c.name.full)
    (hargs : ∀ e ∈ c.args, Stable b e) (hprocedure : c.isProcedure = true)
    (husing : c.usingCall = false) :
    ∃ ws, Written (call b c).toList (nameWord c.name.full :: ws) ∧ ∀ next,
      Takes Parser.assignOrCall (nameWord c.name.full :: ws ++ [lineEnd]) next
        fun k => ∃ c', k = .call c' ∧ c.Alike b c' := by
  obtain ⟨wss, hwss⟩ := restoresAll_of_stable hargs
  refine ⟨argumentWords (callParens b c) wss, ?_, fun next => ?_⟩
  · have htext : call b c = c.name.full ++
        if callParens b c then "(" ++ commas (exprs b c.args) ++ ")" else "" := by
      simp only [call, Call.toExpr, expr, husing, Bool.false_eq_true, if_false, String.empty_append]
      rfl
    rw [htext]
    exact written_callRest h hwss
  · rw [Parser.assignOrCall]
    refine .advance fun t ht => ?_
    have hname : (Ident.ofText t.lexeme t.span).full = c.name.full := by
      rw [Ident.full_ofText]
      exact congrArg Word.lexeme ht
    unfold argumentWords
    cases hparens : callParens b c with
    | true =>
      refine .peekKind fun p hp => ?_
      have hp : p.kind = .sign .leftParen := hp
      simp only [hp, if_true]
      refine Takes.bind hwss.takes_arguments ?_
      rintro ⟨args, close⟩ hr
      exact .lineEnd (.pure ⟨_, rfl, hname.symm, hr.symm, hprocedure, husing⟩)
    | false =>
      refine .peekKind fun p hp => ?_
      have hp : p.kind = .newline := hp
      simp only [hp, reduceCtorEq, if_false, or_self]
      exact .lineEnd (.pure ⟨_, rfl, hname.symm, exprs_eq_nil_of_callParens hparens, hprocedure,
        husing⟩)

/-! ### Heads of loops, conditions and cases -/

/-- A keyword and a condition in parentheses. -/
theorem Restores.written_condition (h : Restores b text ws) (k : Keyword) :
    Written (k.spelling ++ (" (" ++ text ++ ")")).toList
      (k.word :: Sign.leftParen.word :: (ws ++ [Sign.rightParen.word])) := by
  have hall : Written (k.spelling ++ (" " ++ ("(" ++ text ++ ")"))).toList _ :=
    .behind k (by simpa using h.written.paren)
  have htext : " (" ++ text ++ ")" = " " ++ ("(" ++ text ++ ")") := by
    simp only [← String.append_assoc]
    rfl
  rwa [htext]

theorem Restores.takes_condition (h : Restores b text ws) (k : Keyword) :
    Takes (Parser.condition k)
      (k.word :: Sign.leftParen.word :: (ws ++ [Sign.rightParen.word]) ++ [lineEnd]) next
      (expr b · = text) := by
  rw [Parser.condition]
  refine .expect rfl fun _ _ => ?_
  exact (h.takes_paren (k := .newline) (by decide)).bind fun e he => .lineEnd (.pure he)

/-- What the head of a case is written as, read back. -/
theorem reads_caseHead {start : Expr} {stop : Option Expr} (hstart : Stable b start)
    (hstop : ∀ e ∈ stop, Stable b e) :
    ∃ ws, Written (caseHead b start stop).toList (Keyword.caseKw.word :: ws) ∧ ∀ next,
      Takes Parser.caseHead (ws ++ [lineEnd]) next fun r =>
        expr b start = expr b r.1 ∧ stop.map (expr b) = r.2.map (expr b) := by
  obtain ⟨ws, hws⟩ := hstart.restores
  cases stop with
  | none =>
    refine ⟨ws, ?_, fun next => ?_⟩
    · have htext : caseHead b start none = Keyword.caseKw.spelling ++ (" " ++ expr b start) := by
        simp only [caseHead, String.append_empty, ← String.append_assoc]
        rfl
      rw [htext]
      exact hws.written.behind .caseKw
    · simp only [Parser.caseHead, pure_bind]
      refine Takes.bind (hws.takes (k := .newline) (by decide)) fun e he => .eatNot (by simp) ?_
      simp only [Bool.false_eq_true, if_false]
      exact .lineEnd (.pure ⟨he.symm, rfl⟩)
  | some stop =>
    obtain ⟨ws', hws'⟩ := (hstop stop rfl).restores
    refine ⟨ws ++ Keyword.toKw.word :: ws', ?_, fun next => ?_⟩
    · have htext : caseHead b start (some stop) = Keyword.caseKw.spelling ++ (" " ++
          (expr b start ++ (" " ++ (Keyword.toKw.spelling ++ (" " ++ expr b stop))))) := by
        have hcase : "case " = Keyword.caseKw.spelling ++ " " := rfl
        have hto : " to " = " " ++ (Keyword.toKw.spelling ++ " ") := rfl
        simp only [caseHead, hcase, hto, String.append_assoc]
      have hto := hws.written.append (.blank (hws'.written.behind .toKw))
      rw [htext]
      refine .behind .caseKw ?_
      rwa [String.toList_append, String.toList_append]
    · simp only [Parser.caseHead, pure_bind, List.append_assoc]
      refine Takes.bind (hws.takes (k := .keyword .toKw) (by decide)) fun e he => .eat rfl ?_
      simp only [if_true]
      refine (hws'.takes (k := .newline) (by decide)).bind fun e' he' => .lineEnd (.pure ⟨he.symm, ?_⟩)
      simp [he']

/-! ### Statements -/

/-- **Lines are read as a body** in front of every word that closes or divides one. -/
def ReadsBody (b : Builtins) (ls : List Line) (ss : List Stmt) : Prop :=
  ∃ ws, Lined ls ws ∧ ∀ ⦃fuel next⦄, 2 * ws.length + 1 ≤ fuel → Parser.endsBody next = true →
    Takes (Parser.statements fuel) ws next (stmtsAlike b ss)

/-- Words that close and divide no body. -/
def StartsStmt (ws : List Word) : Prop :=
  ∃ w rest, ws = w :: rest ∧ w.kind ≠ .newline ∧ Parser.endsBody w.kind = false

/-- Lines are read as a statement. -/
def ReadsStmt (b : Builtins) (ls : List Line) (s : Stmt) : Prop :=
  ∃ ws, Lined ls ws ∧ StartsStmt ws ∧ ∀ ⦃fuel next⦄, 2 * ws.length ≤ fuel →
    Takes (Parser.statementFrom fuel) ws next (s.Alike b)

/-- Lines are read as cases, in front of the word that closes them. -/
def ReadsCases (b : Builtins) (ls : List Line) (cs : List Case) : Prop :=
  ∃ ws, Lined ls ws ∧ (∀ k, nextKind ws k = k ∨ nextKind ws k = .keyword .caseKw) ∧
    ∀ ⦃fuel⦄, 2 * ws.length + 1 ≤ fuel →
      Takes (Parser.casesFrom fuel) ws (.keyword .endKw) (casesAlike b cs)

theorem written_end (k : Keyword) :
    Written ("end " ++ k.spelling).toList [Keyword.endKw.word, k.word] := by
  have hend : "end " = Keyword.endKw.spelling ++ " " := rfl
  rw [hend, String.append_assoc]
  exact .behind .endKw (.keyword k)

/-- No statements. -/
theorem readsBody_nil : ReadsBody b [] [] := by
  refine ⟨[], .nil, fun fuel next hfuel hnext => ?_⟩
  obtain ⟨fuel, rfl⟩ : ∃ n, fuel = n + 1 := ⟨fuel - 1, by omega⟩
  have hline : next ≠ .newline := by
    rintro rfl
    cases hnext
  rw [Parser.statements]
  refine .skipNewlines hline (.peekKind fun t ht => ?_)
  simp only [ht, nextKind_nil, hnext, if_true]
  exact .pure trivial

/-- **A statement and the body behind it.** -/
theorem ReadsStmt.cons {ls ls' : List Line} {s : Stmt} {ss : List Stmt} (h : ReadsStmt b ls s)
    (hs : ReadsBody b ls' ss) : ReadsBody b (ls ++ ls') (s :: ss) := by
  obtain ⟨_, hlines, ⟨w, ws, rfl, hline, hbody⟩, htakes⟩ := h
  obtain ⟨ws', hlines', htakes'⟩ := hs
  refine ⟨_, hlines.append hlines', fun fuel next hfuel hnext => ?_⟩
  simp only [List.length_append, List.length_cons] at hfuel
  obtain ⟨fuel, rfl⟩ : ∃ n, fuel = n + 1 := ⟨fuel - 1, by omega⟩
  rw [Parser.statements]
  refine .skipNewlines hline (.peekKind fun t ht => ?_)
  have ht : t.kind = w.kind := ht
  simp only [ht, hbody, Bool.false_eq_true, if_false]
  refine (htakes (by simp only [List.length_cons]; omega)).bind fun s' hs' => ?_
  exact (htakes' (by omega) hnext).andThen fun ss' hss' => ⟨hs', hss'⟩

/-- The step for a statement of one line, by its first token. -/
def lineStep? : TokenKind → Option (Parse StmtKind)
  | .keyword .declareKw => some Parser.declaration
  | .keyword .callKw => some Parser.callStatement
  | .identifier => some Parser.assignOrCall
  | _ => none

/-- **A statement of one line.** -/
theorem readsStmt_line {depth : Nat} {w : Word} {s : Stmt} {x : Parse StmtKind}
    (hwritten : Written text.toList (w :: ws)) (hstep : lineStep? w.kind = some x)
    (hx : ∀ next, Takes x (w :: ws ++ [lineEnd]) next fun k => ∀ span, s.Alike b (.written k span)) :
    ReadsStmt b [⟨depth, text⟩] s := by
  refine ⟨_, .one hwritten, ⟨w, _, rfl, ?_, ?_⟩, fun fuel next hfuel => ?_⟩
  · rintro hk
    simp [hk, lineStep?] at hstep
  · unfold lineStep? at hstep
    split at hstep
    case h_1 hk | h_2 hk | h_3 hk => rw [hk]; rfl
    case h_4 => cases hstep
  · obtain ⟨fuel, rfl⟩ : ∃ n, fuel = n + 1 := ⟨fuel - 1, by simp at hfuel; omega⟩
    rw [Parser.statementFrom]
    refine .peekKind fun t ht => ?_
    have ht : t.kind = w.kind := ht
    have hall : Takes (x >>= fun kind => pure (Stmt.written kind t.span)) (w :: ws ++ [lineEnd]) next
        (s.Alike b) := (hx next).andThen fun k hk => hk t.span
    unfold lineStep? at hstep
    split at hstep
    case h_1 hk | h_2 hk | h_3 hk =>
      cases hstep
      simp only [ht, hk]
      exact hall
    case h_4 => cases hstep

theorem readsStmt_declare {depth : Nat} {d : Declaration} {span : Span} {trace : List Span}
    (h : DeclPrintable b d) : ReadsStmt b [⟨depth, declaration b d⟩] ⟨.declare d, span, trace⟩ := by
  obtain ⟨ws, hwritten, htakes⟩ := reads_declaration h
  refine readsStmt_line hwritten rfl fun next => (htakes next).mono ?_
  rintro _ ⟨d', rfl, hd⟩ _
  exact hd

theorem readsStmt_assign {depth : Nat} {target : VarRef} {value : Expr} {span : Span}
    {trace : List Span} (h : IsToken .identifier target.ident.full)
    (hsubs : ∀ e ∈ target.subscripts, Stable b e) (hvalue : Stable b value) :
    ReadsStmt b [⟨depth, varRef b target ++ " := " ++ expr b value⟩]
      ⟨.assign target value, span, trace⟩ := by
  obtain ⟨ws, hwritten, htakes⟩ := reads_assign h hsubs hvalue
  refine readsStmt_line hwritten rfl fun next => (htakes next).mono ?_
  rintro _ ⟨target', value', rfl, halike⟩ _
  exact halike

theorem readsStmt_call {depth : Nat} {c : Call} {span : Span} {trace : List Span}
    (h : IsToken .identifier c.name.full) (hargs : ∀ e ∈ c.args, Stable b e)
    (hprocedure : c.isProcedure = true) :
    ReadsStmt b [⟨depth, call b c⟩] ⟨.call c, span, trace⟩ := by
  cases husing : c.usingCall with
  | true =>
    obtain ⟨ws, hwritten, htakes⟩ := reads_callWith h hargs hprocedure husing
    refine readsStmt_line hwritten rfl fun next => (htakes next).mono ?_
    rintro _ ⟨c', rfl, hc⟩ _
    exact hc
  | false =>
    obtain ⟨ws, hwritten, htakes⟩ := reads_callPlain h hargs hprocedure husing
    refine readsStmt_line hwritten rfl fun next => (htakes next).mono ?_
    rintro _ ⟨c', rfl, hc⟩ _
    exact hc

/-- The lines of a body and the line that closes it. -/
theorem Lined.closed {ls : List Line} (h : Lined ls ws) (depth : Nat) (k : Keyword) :
    Lined (ls ++ [⟨depth, "end " ++ k.spelling⟩]) (ws ++ [Keyword.endKw.word, k.word, lineEnd]) :=
  h.append (.one (l := ⟨depth, "end " ++ k.spelling⟩) (written_end k))

/-- **A loop with a condition in front.** -/
theorem readsStmt_while {depth : Nat} {cond : Expr} {body : List Stmt} {ls : List Line} {span : Span}
    {trace : List Span} (hcond : Stable b cond) (hbody : ReadsBody b ls body) :
    ReadsStmt b (⟨depth, "while (" ++ expr b cond ++ ")"⟩ :: ls ++ [⟨depth, "end while"⟩])
      ⟨.whileLoop cond body, span, trace⟩ := by
  obtain ⟨ws, hws⟩ := hcond.restores
  obtain ⟨ws', hlines, htakes⟩ := hbody
  have hhead : "while (" ++ expr b cond ++ ")" =
      Keyword.whileKw.spelling ++ (" (" ++ expr b cond ++ ")") := by
    simp only [← String.append_assoc]
    rfl
  have hall := Lined.cons (l := ⟨depth, "while (" ++ expr b cond ++ ")"⟩)
    (by rw [hhead]; exact hws.written_condition .whileKw) (hlines.closed depth .whileKw)
  refine ⟨_, hall, ⟨_, _, rfl, nofun, rfl⟩, fun fuel next hfuel => ?_⟩
  simp only [List.length_cons, List.length_append, List.length_nil] at hfuel
  obtain ⟨fuel, rfl⟩ : ∃ n, fuel = n + 1 := ⟨fuel - 1, by omega⟩
  rw [Parser.statementFrom]
  refine .peekKind fun t ht => ?_
  have ht : t.kind = .keyword .whileKw := ht
  simp only [ht, pure_bind]
  refine Takes.bind (hws.takes_condition .whileKw) fun cond' hcond' => ?_
  refine (htakes (by omega) (rfl : Parser.endsBody (.keyword .endKw) = true)).bind
    fun body' hbody' => ?_
  exact (Parser.takes_expectEnd .whileKw).bindNil fun _ _ => .pure ⟨hcond'.symm, hbody'⟩

/-- The body behind `else`, when there is one. -/
def elseLines (depth : Nat) (ls : List Line) (otherwise : List Stmt) : List Line :=
  if otherwise.isEmpty then [] else ⟨depth, "else"⟩ :: ls

/-- A condition with its body, and the body behind `else`. -/
theorem reads_branches (depth : Nat) {cond : Expr} {body otherwise : List Stmt} {ls ls' : List Line}
    (hcond : Stable b cond) (hbody : ReadsBody b ls body) (hotherwise : ReadsBody b ls' otherwise) :
    ∃ ws, Lined (⟨depth, "if (" ++ expr b cond ++ ")"⟩ :: (ls ++ elseLines depth ls' otherwise)) ws ∧
      (∃ rest, ws = Keyword.ifKw.word :: rest) ∧ ∀ ⦃fuel⦄, 2 * ws.length ≤ fuel →
        Takes (Parser.branchesFrom fuel) ws (.keyword .endKw) fun r =>
          branchesAlike b [⟨cond, body⟩] r.1 ∧ stmtsAlike b otherwise r.2 := by
  obtain ⟨ws, hws⟩ := hcond.restores
  obtain ⟨ws', hlines, htakes⟩ := hbody
  obtain ⟨ws'', hlines', htakes'⟩ := hotherwise
  have hhead : "if (" ++ expr b cond ++ ")" =
      Keyword.ifKw.spelling ++ (" (" ++ expr b cond ++ ")") := by
    simp only [← String.append_assoc]
    rfl
  have hwritten := hws.written_condition .ifKw
  rw [← hhead] at hwritten
  unfold elseLines
  cases otherwise with
  | nil =>
    have hall := Lined.cons (l := ⟨depth, _⟩) hwritten (hlines.append .nil)
    refine ⟨_, hall, ⟨_, rfl⟩, fun fuel hfuel => ?_⟩
    simp only [List.length_cons, List.length_append, List.length_nil] at hfuel
    obtain ⟨fuel, rfl⟩ : ∃ n, fuel = n + 1 := ⟨fuel - 1, by omega⟩
    rw [Parser.branchesFrom]
    refine Takes.bind (hws.takes_condition .ifKw) fun cond' hcond' => ?_
    refine (htakes (by omega) (rfl : Parser.endsBody (.keyword .endKw) = true)).bind
      fun body' hbody' => .eatNot nofun ?_
    simp only [Bool.false_eq_true, if_false]
    exact .pure ⟨⟨hcond'.symm, hbody', trivial⟩, trivial⟩
  | cons s ss =>
    have helse : Written "else".toList [Keyword.elseKw.word] := .keyword .elseKw
    have hall := Lined.cons (l := ⟨depth, _⟩) hwritten
      (hlines.append (.cons (l := ⟨depth, "else"⟩) helse hlines'))
    refine ⟨_, hall, ⟨_, rfl⟩, fun fuel hfuel => ?_⟩
    simp only [List.length_cons, List.length_append, List.length_nil] at hfuel
    obtain ⟨fuel, rfl⟩ : ∃ n, fuel = n + 1 := ⟨fuel - 1, by omega⟩
    rw [Parser.branchesFrom]
    refine Takes.bind (hws.takes_condition .ifKw) fun cond' hcond' => ?_
    refine (htakes (by omega) (rfl : Parser.endsBody (.keyword .elseKw) = true)).bind
      fun body' hbody' => .eat rfl ?_
    simp only [if_true]
    refine .checkNot nofun ?_
    simp only [Bool.false_eq_true, if_false]
    refine .lineEnd ((htakes' (by omega) rfl).andThen fun otherwise' hotherwise' => ?_)
    exact ⟨⟨hcond'.symm, hbody', trivial⟩, hotherwise'⟩

theorem stmt_if (depth : Nat) (cond : Expr) (body otherwise : List Stmt) (span : Span)
    (trace : List Span) :
    stmt b depth ⟨.ifChain [⟨cond, body⟩] otherwise, span, trace⟩ =
      ⟨depth, "if (" ++ expr b cond ++ ")"⟩ :: (stmts b (depth + 1) body ++
        elseLines depth (stmts b (depth + 1) otherwise) otherwise) ++ [⟨depth, "end if"⟩] := by
  simp [stmt, branches, elseLines]

/-- **A condition with one branch.** -/
theorem readsStmt_if (depth : Nat) {cond : Expr} {body otherwise : List Stmt} {ls ls' : List Line}
    {span : Span} {trace : List Span} (hcond : Stable b cond) (hbody : ReadsBody b ls body)
    (hotherwise : ReadsBody b ls' otherwise) :
    ReadsStmt b (⟨depth, "if (" ++ expr b cond ++ ")"⟩ :: (ls ++ elseLines depth ls' otherwise) ++
      [⟨depth, "end if"⟩]) ⟨.ifChain [⟨cond, body⟩] otherwise, span, trace⟩ := by
  obtain ⟨ws, hlines, ⟨rest, hrest⟩, htakes⟩ := reads_branches depth hcond hbody hotherwise
  refine ⟨_, hlines.closed depth .ifKw, ⟨Keyword.ifKw.word, _, by rw [hrest]; rfl, nofun, rfl⟩,
    fun fuel next hfuel => ?_⟩
  simp only [List.length_cons, List.length_append, List.length_nil] at hfuel
  obtain ⟨fuel, rfl⟩ : ∃ n, fuel = n + 1 := ⟨fuel - 1, by omega⟩
  rw [Parser.statementFrom]
  refine .peekKind fun t ht => ?_
  have ht : t.kind = .keyword .ifKw := by rw [ht, hrest]; rfl
  simp only [ht, pure_bind]
  refine (htakes (by omega)).bind fun r hr => ?_
  exact (Parser.takes_expectEnd .ifKw).bindNil fun _ _ => .pure hr

/-- No cases. -/
theorem readsCases_nil : ReadsCases b [] [] := by
  refine ⟨[], .nil, fun _ => .inl rfl, fun fuel hfuel => ?_⟩
  obtain ⟨fuel, rfl⟩ : ∃ n, fuel = n + 1 := ⟨fuel - 1, by omega⟩
  rw [Parser.casesFrom]
  refine .skipNewlines nofun (.eatNot nofun ?_)
  simp only [Bool.false_eq_true, if_false]
  exact .pure trivial

/-- **A case and the ones behind it.** -/
theorem readsCases_cons {depth : Nat} {start : Expr} {stop : Option Expr} {body : List Stmt}
    {ls ls' : List Line} {cs : List Case} (hstart : Stable b start) (hstop : ∀ e ∈ stop, Stable b e)
    (hbody : ReadsBody b ls body) (hcs : ReadsCases b ls' cs) :
    ReadsCases b (⟨depth, caseHead b start stop⟩ :: ls ++ ls') (⟨start, stop, body⟩ :: cs) := by
  obtain ⟨ws, hwritten, hhead⟩ := reads_caseHead hstart hstop
  obtain ⟨ws', hlines, htakes⟩ := hbody
  obtain ⟨ws'', hlines', hnext, htakes'⟩ := hcs
  have hall := Lined.cons (l := ⟨depth, caseHead b start stop⟩) hwritten (hlines.append hlines')
  refine ⟨_, hall, fun _ => .inr rfl, fun fuel hfuel => ?_⟩
  simp only [List.length_cons, List.length_append, List.length_nil] at hfuel
  obtain ⟨fuel, rfl⟩ : ∃ n, fuel = n + 1 := ⟨fuel - 1, by omega⟩
  rw [Parser.casesFrom]
  refine .skipNewlines nofun (.eat rfl ?_)
  simp only [if_true]
  refine Takes.bind (hhead _) fun r hr => ?_
  have hends : Parser.endsBody (nextKind ws'' (.keyword .endKw)) = true := by
    rcases hnext (.keyword .endKw) with hk | hk <;> rw [hk] <;> rfl
  refine (htakes (by omega) hends).bind fun body' hbody' => ?_
  exact (htakes' (by omega)).andThen fun cs' hcs' => ⟨hr.1, hr.2, hbody', hcs'⟩

/-- **A choice by value.** -/
theorem readsStmt_select {depth : Nat} {subject : Expr} {cs : List Case} {ls : List Line}
    {span : Span} {trace : List Span} (hsubject : Stable b subject) (hcs : ReadsCases b ls cs) :
    ReadsStmt b (⟨depth, "select (" ++ expr b subject ++ ")"⟩ :: ls ++ [⟨depth, "end select"⟩])
      ⟨.select subject cs, span, trace⟩ := by
  obtain ⟨ws, hws⟩ := hsubject.restores
  obtain ⟨ws', hlines, -, htakes⟩ := hcs
  have hhead : "select (" ++ expr b subject ++ ")" =
      Keyword.selectKw.spelling ++ (" (" ++ expr b subject ++ ")") := by
    simp only [← String.append_assoc]
    rfl
  have hwritten := hws.written_condition .selectKw
  rw [← hhead] at hwritten
  have hall := Lined.cons (l := ⟨depth, _⟩) hwritten (hlines.closed depth .selectKw)
  refine ⟨_, hall, ⟨_, _, rfl, nofun, rfl⟩, fun fuel next hfuel => ?_⟩
  simp only [List.length_cons, List.length_append, List.length_nil] at hfuel
  obtain ⟨fuel, rfl⟩ : ∃ n, fuel = n + 1 := ⟨fuel - 1, by omega⟩
  rw [Parser.statementFrom]
  refine .peekKind fun t ht => ?_
  have ht : t.kind = .keyword .selectKw := ht
  simp only [ht, pure_bind]
  refine Takes.bind (hws.takes_condition .selectKw) fun subject' hsubject' => ?_
  refine (htakes (by omega)).bind fun cs' hcs' => ?_
  exact (Parser.takes_expectEnd .selectKw).bindNil fun _ _ => .pure ⟨hsubject'.symm, hcs'⟩

mutual

/-- **The lines of a printable statement are read back** as a statement that is alike. -/
theorem reads_stmt (depth : Nat) : ∀ {s : Stmt}, s.Meets (printable b) → ReadsStmt b (stmt b depth s) s
  | ⟨.declare _, _, _⟩, ⟨h, _⟩ => readsStmt_declare h
  | ⟨.assign _ _, _, _⟩, .inr ⟨⟨hname, hsubs, hvalue⟩, _⟩ => readsStmt_assign hname hsubs hvalue
  | ⟨.call _, _, _⟩, ⟨⟨hname, hargs, hprocedure⟩, _⟩ => readsStmt_call hname hargs hprocedure
  | ⟨.whileLoop _ _, _, _⟩, ⟨hcond, _, _, hbody⟩ =>
    readsStmt_while hcond (reads_stmts (depth + 1) hbody)
  | ⟨.ifChain [⟨cond, body⟩] otherwise, _, _⟩, ⟨⟨_, hcond⟩, ⟨_, _, hbody, _⟩, _, hotherwise⟩ => by
    rw [stmt_if]
    exact readsStmt_if depth (hcond ⟨cond, body⟩ List.mem_cons_self) (reads_stmts (depth + 1) hbody)
      (reads_stmts (depth + 1) hotherwise)
  | ⟨.select _ _, _, _⟩, ⟨⟨hsubject, hcases⟩, _, hcs⟩ =>
    readsStmt_select hsubject (reads_cases (depth + 1) hcases hcs)
  | ⟨.ifChain [] _, _, _⟩, ⟨⟨h, _⟩, _⟩ | ⟨.ifChain (_ :: _ :: _) _, _, _⟩, ⟨⟨h, _⟩, _⟩ => by
    simp at h

/-- **The lines of printable statements are read back** as statements that are alike. -/
theorem reads_stmts (depth : Nat) : ∀ {ss : List Stmt}, stmtsMeet (printable b) ss →
    ReadsBody b (stmts b depth ss) ss
  | [], _ => readsBody_nil
  | _ :: _, ⟨h, hs⟩ => (reads_stmt depth h).cons (reads_stmts depth hs)

theorem reads_cases (depth : Nat) : ∀ {cs : List Case},
    (∀ c ∈ cs, Stable b c.start ∧ ∀ e ∈ c.stop, Stable b e) → casesMeet (printable b) cs →
      ReadsCases b (cases b depth cs) cs
  | [], _, _ => readsCases_nil
  | ⟨start, stop, body⟩ :: cs, h, ⟨_, _, _, hbody, hcs⟩ => by
    rw [List.forall_mem_cons] at h
    exact readsCases_cons h.1.1 h.1.2 (reads_stmts (depth + 1) hbody) (reads_cases depth h.2 hcs)

end

end Printer

end FlatScript
