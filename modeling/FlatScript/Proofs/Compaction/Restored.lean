import FlatScript.Proofs.Compaction.Expansion
import FlatScript.Proofs.Dialect
import FlatScript.Proofs.Writing.Statements

/-!
# Scripts got back from short names

Expanding the text of a script with short names gives the text of the script itself, in which the
variables with short names are written in lower case. The names must be words without dots, and what
keeps its spelling (strings, modifiers, the names of callbacks, functions and parameters, and variables
without a short name) must not be taken for a short name.

* `FlatScript.Compaction.Restorable` collects these conditions.
* `FlatScript.Compaction.expand_script` is the result, for every layout.
* `FlatScript.Compaction.signedScript_not_lowered`: functions keep their names, so these are not got
  back in lower case.
-/

namespace FlatScript

/-- A name in lower case. -/
def Ident.inLowerCase (i : Ident) : Ident :=
  { i with
    sigil := (Sigil.split (Text.lower i.full)).1
    name := (Sigil.split (Text.lower i.full)).2 }

theorem Ident.full_inLowerCase (i : Ident) : i.inLowerCase.full = Text.lower i.full := by
  have hparts : i.inLowerCase.full = (Ident.ofText (Text.lower i.full) i.span).full := by
    simp only [Ident.inLowerCase, Ident.full, Ident.ofText]
  rw [hparts, Ident.full_ofText]

/-- A name that is a word. -/
def Ident.IsWord (i : Ident) : Prop := ∀ c ∈ i.name.toList, ShortNames.isNameChar c = true

instance (i : Ident) : Decidable i.IsWord := List.decidableBAll _ _

namespace Compaction

variable {b : Builtins} {t : ShortNames}

/-- The name with which a variable is got back. -/
def restoredIdent (t : ShortNames) (i : Ident) : Ident :=
  if i.sigil.isSome && (t.short? i.full).isSome then i.inLowerCase else i

/-- Variables with short names are got back in lower case, and functions keep their names. -/
def restored (t : ShortNames) : Renaming := ⟨restoredIdent t, id⟩

/-! ### What can be got back -/

/-- A name that keeps its spelling: a word that is no short name. -/
def Spared (t : ShortNames) (i : Ident) : Prop := i.IsWord ∧ ∀ pair ∈ t.pairs, pair.2 ≠ i.full

instance (t : ShortNames) (i : Ident) : Decidable (Spared t i) := inferInstanceAs (Decidable (_ ∧ _))

/-- A name that gets its short name, or keeps its spelling. -/
def Recoverable (t : ShortNames) (i : Ident) : Prop :=
  i.IsWord ∧ (t.short? i.full = none → ∀ pair ∈ t.pairs, pair.2 ≠ i.full)

instance (t : ShortNames) (i : Ident) : Decidable (Recoverable t i) :=
  inferInstanceAs (Decidable (_ ∧ _))

/-- Whether a called name is written with parentheses is the same for the short and the long name. -/
def SameParentheses (b : Builtins) (t : ShortNames) (i : Ident) : Prop :=
  b.forcesParentheses (ident t i).name = b.forcesParentheses (restoredIdent t i).name

instance (b : Builtins) (t : ShortNames) (i : Ident) : Decidable (SameParentheses b t i) :=
  inferInstanceAs (Decidable (_ = _))

/-- **What is asked of the nodes of a script** that is to be got back. -/
def recoverable (b : Builtins) (t : ShortNames) : Rule where
  expr
    | .str raw _ => t.Spares raw
    | .raw text _ => t.Spares text
    | .var i _ _ => Recoverable t i
    | .call name _ _ _ _ => Recoverable t name ∧ SameParentheses b t name
    | _ => True
  stmt
    | .declare d => Recoverable t d.name ∧ ∀ m ∈ d.modifiers, t.Spares m
    | .call c => Recoverable t c.name ∧ SameParentheses b t c.name
    | .family name _ => Spared t name
    | _ => True
  list _ := True
  skips _ := false
  atom _ _ _ := False

/-- What is asked of a block besides its statements. -/
def headRecoverable (t : ShortNames) : Block → Prop
  | .callback c => t.Spares c.name ∧ ∀ i ∈ c.control, Recoverable t i
  | .function f => Spared t f.name ∧ ∀ q ∈ f.params, Spared t q.name

/-- **A script that can be got back** from short names. -/
structure Restorable (b : Builtins) (t : ShortNames) (s : Script) : Prop where
  heads : ∀ bl ∈ s.blocks, headRecoverable t bl
  bodies : ∀ bl ∈ s.blocks, stmtsMeet (recoverable b t) bl.body

end Compaction

namespace ShortNames

variable {t : ShortNames}

/-! ### Names -/

theorem isSigil_toChar (sigil : Sigil) : isSigil sigil.toChar = true := by
  cases sigil <;> rfl

/-- Characters of a class that holds no sigil. -/
theorem isSigil_eq_false {p : Char → Bool} {c : Char} (hp : ∀ sigil : Sigil, p sigil.toChar = false)
    (h : p c = true) : isSigil c = false := by
  by_contra hc
  rw [Bool.not_eq_false, isSigil, Option.isSome_iff_exists] at hc
  obtain ⟨sigil, hsigil⟩ := hc
  have hchar : sigil.toChar = c := by
    unfold Sigil.ofChar? at hsigil
    split at hsigil <;> cases hsigil <;> rfl
  rw [← hchar, hp sigil] at h
  cases h

theorem isSigil_of_isNameChar {c : Char} (h : isNameChar c = true) : isSigil c = false :=
  isSigil_eq_false (p := isNameChar) (by intro sigil; cases sigil <;> decide) h

theorem isSigil_of_isDigit {c : Char} (h : Scan.isDigit c = true) : isSigil c = false :=
  isSigil_eq_false (p := Scan.isDigit) (by intro sigil; cases sigil <;> decide) h

/-- A word without sigil is left. -/
theorem expands_of_none {i : Ident} (hi : i.IsWord) (hsigil : i.sigil = none) :
    Expands t i.full i.full := by
  have hfull : i.full = i.name := by simp [Ident.full, hsigil]
  rw [hfull]
  exact .plain fun c hc => isSigil_of_isNameChar (hi c hc)

/-- **A word with a sigil is looked up.** -/
theorem expands_name {i : Ident} (hi : i.IsWord) (hsigil : i.sigil.isSome = true)
    (hne : i.name.toList ≠ []) : Expands t i.full ((t.long? i.full).getD i.full) := by
  obtain ⟨sigil, hsome⟩ := Option.isSome_iff_exists.mp hsigil
  have hfull : i.full.toList = sigil.toChar :: i.name.toList := by
    simp [Ident.full, hsome, Sigil.text, String.toList_append]
  intro rest hrest
  have hstep := expandFrom_name (t := t) (isSigil_toChar sigil) hne hi hrest
  rwa [← hfull, String.ofList_toList, ← List.cons_append, ← hfull] at hstep

end ShortNames

namespace Compaction

open ShortNames (Expands Separates Plain Ends)

/-- **A word that is no short name is left.** -/
theorem Spared.expands {i : Ident} (h : Spared t i) : Expands t i.full i.full := by
  cases hsigil : i.sigil with
  | none => exact ShortNames.expands_of_none h.1 hsigil
  | some sigil =>
    by_cases hne : i.name.toList = []
    · have hfull : i.full.toList = [sigil.toChar] := by
        simp [Ident.full, hsigil, Sigil.text, String.toList_append, hne]
      intro rest hrest
      rw [hfull]
      exact ShortNames.expandFrom_cons fun _ => hrest
    · have hlong : t.long? i.full = none := by
        cases hlong : t.long? i.full with
        | none => rfl
        | some v => exact absurd rfl (h.2 _ (ShortNames.mem_of_long? hlong))
      have hname := ShortNames.expands_name (t := t) h.1 (by simp [hsigil]) hne
      rwa [hlong] at hname

/-- **A variable is got back.** Its name is expanded to its name in lower case when it has a short
name, and left otherwise. -/
theorem Recoverable.expands {digest : String → Nat} {patterns : List (List Char)}
    {vars : List String} (ht : Tabulates b (shortNameBy digest) patterns vars t) {i : Ident}
    (h : Recoverable t i) : Expands t (ident t i).full (restoredIdent t i).full := by
  cases hsigil : i.sigil with
  | none =>
    have hident : ident t i = i := by simp [ident, hsigil]
    have hrestored : restoredIdent t i = i := by simp [restoredIdent, hsigil]
    rw [hident, hrestored]
    exact ShortNames.expands_of_none h.1 hsigil
  | some sigil =>
    cases hshort : t.short? i.full with
    | none =>
      have hrestored : restoredIdent t i = i := by simp [restoredIdent, hshort]
      rw [ident_eq_self hshort, hrestored]
      exact Spared.expands ⟨h.1, h.2 hshort⟩
    | some s =>
      -- The short name is a word of its own, behind the sigil of the variable.
      have hsome : i.sigil.isSome = true := by simp [hsigil]
      have hrestored : (restoredIdent t i).full = Text.lower i.full := by
        simp [restoredIdent, hsigil, hshort, Ident.full_inLowerCase]
      have hfull := full_ident hsome hshort
      have hlong := ht.long?_eq hshort
      have hs : s = sigil.text ++
          String.ofList (letters 5 (digest (Text.lower (Text.lower i.full)))) := by
        have hsplit : (Sigil.split (Text.lower i.full)).1 = some sigil := by
          rw [Ident.full, hsigil]
          exact Text.sigil_lower sigil i.name
        have hpair := (ht.pairs _ (ShortNames.mem_of_short? hshort)).2.2
        rwa [shortNameBy, sigilText, hsplit] at hpair
      have hident : ident t i = ⟨(Sigil.split s).1, (Sigil.split s).2, i.span, i.qualified⟩ := by
        simp [ident, hsigil, hshort]
      rw [hs, Lowering.sigil_split_text] at hident
      have hword : (ident t i).IsWord := by
        rw [hident, Ident.IsWord, String.toList_ofList]
        exact forall_letters (by decide) 5 _
      have hname := ShortNames.expands_name (t := t) hword (by rw [hident]; rfl)
        (by rw [hident]; simp [letters])
      rwa [hfull, hlong, Option.getD_some, ← hrestored, ← hfull] at hname

/-! ### Numbers -/

theorem plain_digits {ds : List Char} (h : ∀ d ∈ ds, Scan.isDigit d = true) :
    ∀ c ∈ ds, ShortNames.isSigil c = false := fun c hc => ShortNames.isSigil_of_isDigit (h c hc)

theorem plain_int (value : Int32) : Plain (Printer.int value) := by
  by_cases hmin : value = Int32.minValue
  · subst hmin
    decide
  · have hdigits : ∀ c ∈ value.toInt.natAbs.repr.toList, ShortNames.isSigil c = false := by
      rw [Nat.toList_repr]
      exact plain_digits (toDigits_isDigit _)
    intro c hc
    rw [Printer.int_toList hmin] at hc
    split at hc
    · rcases List.mem_cons.mp hc with rfl | hc
      · rfl
      · exact hdigits c hc
    · exact hdigits c hc

theorem plain_real (value : Decimal) : Plain (Printer.real value) := by
  obtain ⟨text, v, ⟨⟨ds, es, rfl, -, -, hds, hes⟩, -⟩, htext, -⟩ := value.exists_literal
  have hdigits : ∀ c ∈ ds ++ '.' :: es, ShortNames.isSigil c = false :=
    List.forall_mem_append.mpr ⟨plain_digits hds, List.forall_mem_cons.mpr ⟨rfl, plain_digits hes⟩⟩
  intro c hc
  rw [htext] at hc
  split at hc
  · rcases List.mem_cons.mp hc with rfl | hc
    · rfl
    · exact hdigits c hc
  · exact hdigits c hc

/-! ### Expressions -/

section Expressions

variable {x y x' y' : String} {e e' : Expr}

/-- The operands of an operator. -/
theorem expands_infixed (op : BinaryOp) (h : Expands t x y) (h' : Expands t x' y') :
    Expands t (Printer.infixed op x x') (Printer.infixed op y y') := by
  have htight : op.isTight = true → Separates op.spelling := by cases op <;> decide
  have hloose : Separates (" " ++ op.spelling ++ " ") := by cases op <;> decide
  unfold Printer.infixed
  split
  · next hop =>
    rw [String.append_assoc, String.append_assoc]
    exact (htight hop).between h h'
  · have hbetween := hloose.between h h'
    simpa only [String.append_assoc] using hbetween

/-- The operand of a prefix operator. -/
theorem expands_prefixed (op : UnaryOp) (h : Expands t x y) :
    Expands t (Printer.prefixed op x) (Printer.prefixed op y) := by
  unfold Printer.prefixed
  split
  · exact .front (by decide) h
  · have hplain : Plain (op.spelling ++ " ") := by cases op <;> decide
    exact .front hplain h

/-- A text in parentheses or brackets. -/
theorem expands_enclosed (h : Expands t x y) : Expands t ("(" ++ x ++ ")") ("(" ++ y ++ ")") := by
  have hclose : Separates ")" := by decide
  exact hclose.close (.front (by decide) h)

/-- An operand, in parentheses or not. -/
theorem expands_parenthesized (needed : Nat → Bool)
    (hprecedence : Printer.precedence? e = Printer.precedence? e') (h : Expands t x y) :
    Expands t (Printer.parenthesized needed e x) (Printer.parenthesized needed e' y) := by
  unfold Printer.parenthesized
  rw [hprecedence]
  split
  · split
    · exact expands_enclosed h
    · exact h
  · exact h

/-- Texts with commas between them. -/
theorem expands_commas {xs ys : List String} (h : List.Forall₂ (Expands t) xs ys) :
    Expands t (Printer.commas xs) (Printer.commas ys) := by
  have hcomma : Separates ", " := by decide
  induction h with
  | nil => exact .plain (by decide)
  | @cons x y xs ys hx hxs ih =>
    cases hxs with
    | nil => simpa [Printer.commas] using hx
    | @cons x' y' xs ys hx' hxs =>
      have hbetween := hcomma.between hx ih
      simpa only [Printer.commas, String.intercalate_cons_cons, String.append_assoc] using hbetween

/-- A name with texts in brackets behind it, if there are any. -/
theorem expands_brackets {xs ys : List String} (h : Expands t x y)
    (hxs : List.Forall₂ (Expands t) xs ys) :
    Expands t (x ++ "[" ++ Printer.commas xs ++ "]") (y ++ "[" ++ Printer.commas ys ++ "]") := by
  have hopen : Separates "[" := by decide
  have hclose : Separates "]" := by decide
  have hlist := hopen.between h (hclose.close (expands_commas hxs))
  simpa only [String.append_assoc] using hlist

end Expressions

/-- A renaming changes no precedence. -/
theorem precedence?_renamed (f : Renaming) (e : Expr) :
    Printer.precedence? (f.expr e) = Printer.precedence? e := by
  cases e <;> simp [Renaming.expr, Printer.precedence?]

theorem isUnary_renamed (f : Renaming) (e : Expr) :
    Printer.isUnary (f.expr e) = Printer.isUnary e := by
  cases e <;> simp [Renaming.expr, Printer.isUnary]

theorem isInt_renamed (f : Renaming) (e : Expr) (n : Int32) : (f.expr e).isInt n = e.isInt n := by
  cases e <;> simp [Renaming.expr, Expr.isInt]

theorem isEmpty_renamed (f : Renaming) (es : List Expr) : (f.exprs es).isEmpty = es.isEmpty := by
  rw [Renaming.exprs_eq_map, List.isEmpty_map]

section Printed

variable {digest : String → Nat} {patterns : List (List Char)} {vars : List String}

/-- A call with its arguments. -/
theorem expands_call (ht : Tabulates b (shortNameBy digest) patterns vars t) {name : Ident}
    {args : List Expr} {isProcedure usingCall : Bool} {span : Span}
    (hname : Recoverable t name) (hparens : SameParentheses b t name)
    (hargs : List.Forall₂ (Expands t) (Printer.exprs b ((shorten t).exprs args))
      (Printer.exprs b ((restored t).exprs args))) :
    Expands t (Printer.expr b ((shorten t).expr (.call name args isProcedure usingCall span)))
      (Printer.expr b ((restored t).expr (.call name args isProcedure usingCall span))) := by
  have hlist : Separates "(" := by decide
  have hclose : Separates ")" := by decide
  have hhas : Printer.hasParentheses b ((shorten t).name name) (!args.isEmpty) isProcedure =
      Printer.hasParentheses b ((restored t).name name) (!args.isEmpty) isProcedure := by
    unfold Printer.hasParentheses
    exact congrArg (!args.isEmpty || !isProcedure || ·) hparens
  have hcalled := hname.expands ht
  simp only [Renaming.expr, Printer.expr, isEmpty_renamed, hhas, String.append_assoc]
  have hrest : Expands t
      ((ident t name).full ++ if Printer.hasParentheses b ((restored t).name name) (!args.isEmpty)
        isProcedure then "(" ++ (Printer.commas (Printer.exprs b ((shorten t).exprs args)) ++ ")")
        else "")
      ((restoredIdent t name).full ++ if Printer.hasParentheses b ((restored t).name name)
        (!args.isEmpty) isProcedure then
          "(" ++ (Printer.commas (Printer.exprs b ((restored t).exprs args)) ++ ")") else "") := by
    split
    · exact hlist.between hcalled (hclose.close (expands_commas hargs))
    · simpa only [String.append_empty] using hcalled
  cases usingCall with
  | true => exact .front (by decide) hrest
  | false => exact .front (by decide) hrest

mutual

/-- **The text of an expression is got back.** -/
theorem expands_expr (ht : Tabulates b (shortNameBy digest) patterns vars t) :
    ∀ {e : Expr}, e.Meets (recoverable b t) →
      Expands t (Printer.expr b ((shorten t).expr e)) (Printer.expr b ((restored t).expr e))
  | .binary op left right _, .inr ⟨_, hleft, hright⟩ => by
    simp only [Renaming.expr, Printer.expr]
    refine expands_infixed op (expands_parenthesized _ ?_ (expands_expr ht hleft))
      (expands_parenthesized _ ?_ (expands_expr ht hright))
    · rw [precedence?_renamed, precedence?_renamed]
    · rw [precedence?_renamed, precedence?_renamed]
  | .unary op operand _, ⟨_, h⟩ => by
    have ih := expands_expr ht h
    simp only [Renaming.expr, Printer.expr, isInt_renamed, isUnary_renamed]
    split
    · exact .plain (by decide)
    · split
      · exact expands_prefixed op ih
      · refine expands_prefixed op (expands_parenthesized _ ?_ ih)
        rw [precedence?_renamed, precedence?_renamed]
  | .int value _, _ => by
    simp only [Renaming.expr, Printer.expr]
    exact .plain (plain_int value)
  | .real value _, _ => by
    simp only [Renaming.expr, Printer.expr]
    exact .plain (plain_real value)
  | .str raw _, h => by
    simp only [Renaming.expr, Printer.expr]
    exact h.expands
  | .bool value _, _ => by
    simp only [Renaming.expr, Printer.expr]
    cases value <;> exact .plain (by decide)
  | .raw text _, h => by
    simp only [Renaming.expr, Printer.expr]
    exact expands_enclosed h.expands
  | .var i subscripts _, ⟨h, hsubs⟩ => by
    have hname : Recoverable t i := h
    simp only [Renaming.expr, Printer.expr, isEmpty_renamed]
    split
    · exact hname.expands ht
    · exact expands_brackets (hname.expands ht) (expands_exprs ht hsubs)
  | .call _ _ _ _ _, ⟨⟨hname, hparens⟩, hargs⟩ =>
    expands_call ht hname hparens (expands_exprs ht (argsMeet_false.mp hargs))

theorem expands_exprs (ht : Tabulates b (shortNameBy digest) patterns vars t) :
    ∀ {es : List Expr}, exprsMeet (recoverable b t) es →
      List.Forall₂ (Expands t) (Printer.exprs b ((shorten t).exprs es))
        (Printer.exprs b ((restored t).exprs es))
  | [], _ => by
    simp only [Renaming.exprs, Printer.exprs]
    exact .nil
  | _ :: _, ⟨h, hs⟩ => by
    simp only [Renaming.exprs, Printer.exprs]
    exact .cons (expands_expr ht h) (expands_exprs ht hs)

end

/-! ### Parts of lines -/

/-- A text behind another one, at which no name goes on. -/
structure Trails (t : ShortNames) (x y : String) : Prop where
  expands : Expands t x y
  ends : Ends x.toList

theorem Trails.none : Trails t "" "" := ⟨.plain (by decide), by decide⟩

theorem Trails.append {x y x' y' : String} (h : Trails t x y) (h' : Trails t x' y') :
    Trails t (x ++ x') (y ++ y') := by
  refine ⟨h.expands.append h'.expands h'.ends, ?_⟩
  rw [String.toList_append]
  exact h.ends.append h'.ends

/-- A text behind one that keeps names apart. -/
theorem Trails.behind {s x y : String} (hs : Separates s) (h : Expands t x y) :
    Trails t (s ++ x) (s ++ y) := by
  refine ⟨.front hs.2.1 h, ?_⟩
  rw [String.toList_append]
  exact hs.ends _

/-- A text between two that keep names apart. -/
theorem Trails.enclosed {s s' x y : String} (hs : Separates s) (hs' : Separates s')
    (h : Expands t x y) : Trails t (s ++ x ++ s') (s ++ y ++ s') := by
  rw [String.append_assoc, String.append_assoc]
  exact .behind hs (hs'.close h)

/-- A part of a line for something that may be left out. -/
theorem trails_option {α : Type} {text : Option α → String} (hnone : text none = "") {f g : α → α}
    {o : Option α} (h : ∀ a ∈ o, Trails t (text (some (f a))) (text (some (g a)))) :
    Trails t (text (o.map f)) (text (o.map g)) := by
  cases o with
  | none =>
    rw [Option.map_none, Option.map_none, hnone]
    exact .none
  | some a => exact h a rfl

theorem initializer_single (b : Builtins) (e : Expr) :
    Printer.initializer b (.single e) = " := " ++ Printer.expr b e := by
  cases e with
  | raw text span =>
    have hopen : " := (" = " := " ++ "(" := rfl
    simp only [Printer.initializer, Printer.expr, hopen, String.append_assoc]
  | _ => rfl

/-- The values of a declaration. -/
theorem trails_initializer (ht : Tabulates b (shortNameBy digest) patterns vars t)
    {i : Initializer} (h : i.Meets (recoverable b t)) :
    Trails t (Printer.initializer b ((shorten t).initializer i))
      (Printer.initializer b ((restored t).initializer i)) := by
  have hassign : Separates " := " := by decide
  have hlist : Separates " := (" := by decide
  have hclose : Separates ")" := by decide
  cases i with
  | single e =>
    simp only [Renaming.initializer, initializer_single]
    exact .behind hassign (expands_expr ht h)
  | list es =>
    simp only [Renaming.initializer, Printer.initializer]
    exact .enclosed hlist hclose (expands_commas (expands_exprs ht h))

/-- The modifiers of a declaration, with a blank behind each. -/
theorem expands_modifiers {modifiers : List String} (h : ∀ m ∈ modifiers, t.Spares m) {x y : String}
    (hx : Expands t x y) : Expands t (String.join (modifiers.map (· ++ " ")) ++ x)
      (String.join (modifiers.map (· ++ " ")) ++ y) := by
  have hblank : Separates " " := by decide
  induction modifiers with
  | nil => simpa using hx
  | cons m ms ih =>
    obtain ⟨hm, hms⟩ := List.forall_mem_cons.mp h
    have hbetween := hblank.between hm.expands (ih hms)
    simpa only [List.map_cons, String.join_cons, String.append_assoc] using hbetween

/-- **The text of a declaration is got back.** -/
theorem expands_declaration (ht : Tabulates b (shortNameBy digest) patterns vars t)
    {d : Declaration} (hname : Recoverable t d.name) (hmodifiers : ∀ m ∈ d.modifiers, t.Spares m)
    (h : d.Meets (recoverable b t)) :
    Expands t (Printer.declaration b ((shorten t).declaration d))
      (Printer.declaration b ((restored t).declaration d)) := by
  obtain ⟨hsize, hparams, hinit⟩ := h
  have hbracket : Separates "[" := by decide
  have hbracket' : Separates "]" := by decide
  have hparen : Separates "(" := by decide
  have hparen' : Separates ")" := by decide
  have hsize' : Trails t (Printer.sizeText b (d.size.map (shorten t).expr))
      (Printer.sizeText b (d.size.map (restored t).expr)) :=
    trails_option rfl fun e he => .enclosed hbracket hbracket' (expands_expr ht (hsize e he))
  have hinit' : Trails t (Printer.initText b (d.init.map (shorten t).initializer))
      (Printer.initText b (d.init.map (restored t).initializer)) :=
    trails_option rfl fun i hi => trails_initializer ht (hinit i hi)
  have hparams' : Trails t (Printer.paramsText b ((shorten t).exprs d.params))
      (Printer.paramsText b ((restored t).exprs d.params)) := by
    rw [Printer.paramsText, Printer.paramsText, isEmpty_renamed, isEmpty_renamed]
    split
    · exact .none
    · exact .enclosed hparen hparen' (expands_commas (expands_exprs ht hparams))
  have htail := hsize'.append (hparams'.append hinit')
  have hrest := expands_modifiers hmodifiers ((hname.expands ht).append htail.expands htail.ends)
  rw [Printer.declaration_eq, Printer.declaration_eq]
  exact .front (by decide) (.front (by decide) hrest)

theorem expands_varRef (ht : Tabulates b (shortNameBy digest) patterns vars t) {v : VarRef}
    (h : v.Meets (recoverable b t)) :
    Expands t (Printer.varRef b ((shorten t).varRef v)) (Printer.varRef b ((restored t).varRef v)) := by
  have hexpr := expands_expr ht h
  simp only [VarRef.toExpr, Renaming.expr] at hexpr
  exact hexpr

/-- The first line of a counting loop. -/
theorem expands_forHead (ht : Tabulates b (shortNameBy digest) patterns vars t) {var : VarRef}
    {start stop : Expr} {step : Option Expr} (downto : Bool) (hvar : var.Meets (recoverable b t))
    (hstart : start.Meets (recoverable b t)) (hstop : stop.Meets (recoverable b t))
    (hstep : ∀ e ∈ step, e.Meets (recoverable b t)) :
    Expands t
      (Printer.forHead b ((shorten t).varRef var) ((shorten t).expr start) ((shorten t).expr stop)
        (step.map (shorten t).expr) downto)
      (Printer.forHead b ((restored t).varRef var) ((restored t).expr start)
        ((restored t).expr stop) (step.map (restored t).expr) downto) := by
  have hassign : Separates " := " := by decide
  have hword : Separates (if downto then " downto " else " to ") := by cases downto <;> decide
  have hstepWord : Separates " step " := by decide
  have hvar' := expands_varRef ht hvar
  have hstart' := expands_expr ht hstart
  have hstop' := expands_expr ht hstop
  unfold Printer.forHead
  simp only [String.append_assoc]
  refine .front (by decide) (hassign.between hvar' (hword.between hstart' ?_))
  cases step with
  | none => simpa using hstop'
  | some e => exact hstepWord.between hstop' (expands_expr ht (hstep e rfl))

/-- The first line of a case. -/
theorem expands_caseHead (ht : Tabulates b (shortNameBy digest) patterns vars t) {start : Expr}
    {stop : Option Expr} (hstart : start.Meets (recoverable b t))
    (hstop : ∀ e ∈ stop, e.Meets (recoverable b t)) :
    Expands t (Printer.caseHead b ((shorten t).expr start) (stop.map (shorten t).expr))
      (Printer.caseHead b ((restored t).expr start) (stop.map (restored t).expr)) := by
  have hto : Separates " to " := by decide
  have hstart' := expands_expr ht hstart
  unfold Printer.caseHead
  rw [String.append_assoc, String.append_assoc]
  refine .front (by decide) ?_
  cases stop with
  | none => simpa using hstart'
  | some e => exact hto.between hstart' (expands_expr ht (hstop e rfl))

/-- A word with a condition in parentheses behind it. -/
theorem expands_headed (ht : Tabulates b (shortNameBy digest) patterns vars t) (word : String)
    (hword : Plain (word ++ " (")) {e : Expr} (h : e.Meets (recoverable b t)) :
    Expands t (word ++ " (" ++ Printer.expr b ((shorten t).expr e) ++ ")")
      (word ++ " (" ++ Printer.expr b ((restored t).expr e) ++ ")") := by
  have hclose : Separates ")" := by decide
  exact hclose.close (.front hword (expands_expr ht h))

/-! ### Lines -/

/-- **Lines are got back** one by one, and they keep their depths. -/
def LinesExpand (t : ShortNames) (ls ls' : List Printer.Line) : Prop :=
  List.Forall₂ (fun l l' => l.depth = l'.depth ∧ Expands t l.text l'.text) ls ls'

namespace LinesExpand

variable {ls ls' ms ms' : List Printer.Line} {x y : String}

theorem append (h : LinesExpand t ls ls') (h' : LinesExpand t ms ms') :
    LinesExpand t (ls ++ ms) (ls' ++ ms') := List.rel_append h h'

theorem cons (depth : Nat) (hx : Expands t x y) (h : LinesExpand t ls ls') :
    LinesExpand t (⟨depth, x⟩ :: ls) (⟨depth, y⟩ :: ls') := List.Forall₂.cons ⟨rfl, hx⟩ h

theorem one (depth : Nat) (hx : Expands t x y) : LinesExpand t [⟨depth, x⟩] [⟨depth, y⟩] :=
  cons depth hx .nil

/-- A line that opens a construct, the lines in it, and the line that closes it. -/
theorem construct (depth : Nat) {last : String} (hlast : Plain last) (hx : Expands t x y)
    (h : LinesExpand t ls ls') :
    LinesExpand t (⟨depth, x⟩ :: ls ++ [⟨depth, last⟩]) (⟨depth, y⟩ :: ls' ++ [⟨depth, last⟩]) :=
  (cons depth hx h).append (one depth (.plain hlast))

end LinesExpand

mutual

/-- **The lines of a statement are got back.** -/
theorem expands_stmt (ht : Tabulates b (shortNameBy digest) patterns vars t) (depth : Nat) :
    ∀ s : Stmt, s.Meets (recoverable b t) →
      LinesExpand t (Printer.stmt b depth ((shorten t).stmt s))
        (Printer.stmt b depth ((restored t).stmt s))
  | ⟨.property _ _, _, _⟩, _ | ⟨.synonym _ _ _, _, _⟩, _ => by
    simp only [Renaming.stmt, Printer.stmt]
    exact .nil
  | ⟨.declare d, _, _⟩, ⟨⟨hname, hmodifiers⟩, hd⟩ => by
    simp only [Renaming.stmt, Printer.stmt]
    exact .one depth (expands_declaration ht hname hmodifiers hd)
  | ⟨.assign target value, _, _⟩, .inr ⟨_, htarget, hvalue⟩ => by
    have hassign : Separates " := " := by decide
    have hline := hassign.between (expands_varRef ht htarget) (expands_expr ht hvalue)
    simp only [Renaming.stmt, Printer.stmt, String.append_assoc]
    exact .one depth hline
  | ⟨.call c, _, _⟩, ⟨⟨hname, hparens⟩, hargs⟩ => by
    have hcall : Expands t (Printer.expr b ((shorten t).expr c.toExpr))
        (Printer.expr b ((restored t).expr c.toExpr)) :=
      expands_call ht hname hparens (expands_exprs ht (argsMeet_false.mp hargs))
    simp only [Call.toExpr, Renaming.expr] at hcall
    simp only [Renaming.stmt, Printer.stmt]
    exact .one depth hcall
  | ⟨.whileLoop cond body, _, _⟩, ⟨_, hcond, _, hbody⟩ => by
    simp only [Renaming.stmt, Printer.stmt]
    exact .construct depth (by decide) (expands_headed ht "while" (by decide) hcond)
      (expands_stmts ht (depth + 1) body hbody)
  | ⟨.forLoop var start stop step downto body, _, _⟩, ⟨_, hvar, hstart, hstop, hstep, _, hbody⟩ => by
    simp only [Renaming.stmt, Printer.stmt]
    exact .construct depth (by decide) (expands_forHead ht downto hvar hstart hstop hstep)
      (expands_stmts ht (depth + 1) body hbody)
  | ⟨.family name body, _, _⟩, ⟨hname, _, hbody⟩ => by
    have hspared : Spared t name := hname
    simp only [Renaming.stmt, Printer.stmt]
    exact .construct depth (by decide) (.front (by decide) hspared.expands)
      (expands_stmts ht (depth + 1) body hbody)
  | ⟨.ifChain bs otherwise, _, _⟩, ⟨_, hbs, _, hotherwise⟩ => by
    have helse := expands_stmts ht (depth + 1) otherwise hotherwise
    simp only [Renaming.stmt, Printer.stmt]
    refine .append (.append (expands_branches ht depth "if" (by decide) bs hbs) ?_)
      (.one depth (.plain (by decide)))
    rw [Renaming.stmts_eq_map, Renaming.stmts_eq_map, List.isEmpty_map, List.isEmpty_map]
    rw [Renaming.stmts_eq_map, Renaming.stmts_eq_map] at helse
    split
    · exact .nil
    · exact .cons depth (.plain (by decide)) helse
  | ⟨.select subject cs, _, _⟩, ⟨_, hsubject, hcs⟩ => by
    simp only [Renaming.stmt, Printer.stmt]
    exact .construct depth (by decide) (expands_headed ht "select" (by decide) hsubject)
      (expands_cases ht (depth + 1) cs hcs)

theorem expands_stmts (ht : Tabulates b (shortNameBy digest) patterns vars t) (depth : Nat) :
    ∀ ss : List Stmt, stmtsMeet (recoverable b t) ss →
      LinesExpand t (Printer.stmts b depth ((shorten t).stmts ss))
        (Printer.stmts b depth ((restored t).stmts ss))
  | [], _ => by
    simp only [Renaming.stmts, Printer.stmts]
    exact .nil
  | s :: ss, ⟨h, hs⟩ => by
    simp only [Renaming.stmts, Printer.stmts]
    exact (expands_stmt ht depth s h).append (expands_stmts ht depth ss hs)

theorem expands_branches (ht : Tabulates b (shortNameBy digest) patterns vars t) (depth : Nat)
    (word : String) (hword : Plain (word ++ " (")) :
    ∀ bs : List Branch, branchesMeet (recoverable b t) bs →
      LinesExpand t (Printer.branches b depth word ((shorten t).branches bs))
        (Printer.branches b depth word ((restored t).branches bs))
  | [], _ => by
    simp only [Renaming.branches, Printer.branches]
    exact .nil
  | ⟨cond, body⟩ :: rest, ⟨hcond, _, hbody, hrest⟩ => by
    simp only [Renaming.branches, Printer.branches]
    exact .append (.cons depth (expands_headed ht word hword hcond)
      (expands_stmts ht (depth + 1) body hbody))
      (expands_branches ht depth "else if" (by decide) rest hrest)

theorem expands_cases (ht : Tabulates b (shortNameBy digest) patterns vars t) (depth : Nat) :
    ∀ cs : List Case, casesMeet (recoverable b t) cs →
      LinesExpand t (Printer.cases b depth ((shorten t).cases cs))
        (Printer.cases b depth ((restored t).cases cs))
  | [], _ => by
    simp only [Renaming.cases, Printer.cases]
    exact .nil
  | ⟨start, stop, body⟩ :: rest, ⟨hstart, hstop, _, hbody, hrest⟩ => by
    simp only [Renaming.cases, Printer.cases]
    exact .append (.cons depth (expands_caseHead ht hstart hstop)
      (expands_stmts ht (depth + 1) body hbody)) (expands_cases ht depth rest hrest)

end

/-! ### Blocks -/

/-- The first line of a callback. -/
theorem expands_callbackHead (ht : Tabulates b (shortNameBy digest) patterns vars t) {c : Callback}
    (hname : t.Spares c.name) (hcontrol : ∀ i ∈ c.control, Recoverable t i) (body body' : List Stmt) :
    Expands t
      (Printer.callbackHead { c with control := c.control.map (ident t), body := body })
      (Printer.callbackHead { c with control := c.control.map (restoredIdent t), body := body' }) := by
  have hopen : Separates "(" := by decide
  have hclose : Separates ")" := by decide
  unfold Printer.callbackHead
  rw [String.append_assoc, String.append_assoc]
  refine .front (by decide) ?_
  cases hbound : c.control with
  | none => simpa using hname.expands
  | some i =>
    have hi := (hcontrol i hbound).expands ht
    simp only [Option.map_some, String.append_assoc]
    exact hopen.between hname.expands (hclose.close hi)

/-- The first line of a function, which keeps its names. -/
theorem expands_functionHead {f : FunctionDef} (hname : Spared t f.name)
    (hparams : ∀ q ∈ f.params, Spared t q.name) :
    Expands t (Printer.functionHead f) (Printer.functionHead f) := by
  have hopen : Separates "(" := by decide
  have hclose : Separates ")" := by decide
  have hlist : List.Forall₂ (Expands t) (f.params.map (·.name.full)) (f.params.map (·.name.full)) :=
    List.forall₂_same.mpr (List.forall_mem_map.mpr fun q hq => (hparams q hq).expands)
  unfold Printer.functionHead
  rw [String.append_assoc]
  refine .front (by decide) ?_
  split
  · simpa using hname.expands
  · rw [String.append_assoc]
    exact hopen.between hname.expands (hclose.close (expands_commas hlist))

/-- **The lines of a block are got back.** -/
theorem expands_block (ht : Tabulates b (shortNameBy digest) patterns vars t) {bl : Block}
    (hhead : headRecoverable t bl) (hbody : stmtsMeet (recoverable b t) bl.body) :
    LinesExpand t (Printer.block b ((shorten t).block bl))
      (Printer.block b ((restored t).block bl)) := by
  cases bl with
  | callback c =>
    obtain ⟨hname, hcontrol⟩ := hhead
    exact .construct 0 (by decide) (expands_callbackHead ht hname hcontrol _ _)
      (expands_stmts ht 1 c.body hbody)
  | function f =>
    obtain ⟨hname, hparams⟩ := hhead
    exact .construct 0 (by decide) (expands_functionHead hname hparams)
      (expands_stmts ht 1 f.body hbody)

/-! ### Texts of lines -/

/-- A text is expanded to another one, whatever follows it. -/
def ExpandsWhole (t : ShortNames) (x y : String) : Prop :=
  ∀ rest, t.expandFrom 0 (x.toList ++ rest) = y.toList ++ t.expandFrom 0 rest

theorem ExpandsWhole.append {x y x' y' : String} (h : ExpandsWhole t x y)
    (h' : ExpandsWhole t x' y') : ExpandsWhole t (x ++ x') (y ++ y') := by
  intro rest
  rw [String.toList_append, String.toList_append, List.append_assoc, List.append_assoc, h, h']

theorem ExpandsWhole.plain {x : String} (h : Plain x) : ExpandsWhole t x x := fun rest =>
  ShortNames.expandFrom_plain h rest

theorem ExpandsWhole.join {α : Type} {text text' : α → String} {xs ys : List α}
    (h : List.Forall₂ (fun x y => ExpandsWhole t (text x) (text' y)) xs ys) :
    ExpandsWhole t (String.join (xs.map text)) (String.join (ys.map text')) := by
  induction h with
  | nil => exact fun _ => rfl
  | cons hx hxs ih =>
    rw [List.map_cons, List.map_cons, String.join_cons, String.join_cons]
    exact hx.append ih

/-- A line ends names, so it is got back whatever the next line is. -/
theorem expandsWhole_line (o : Options) {l l' : Printer.Line} (hdepth : l.depth = l'.depth)
    (h : Expands t l.text l'.text) : ExpandsWhole t (Printer.line o l) (Printer.line o l') := by
  have hindent : Plain (if o.removeWhitespace then ""
      else String.ofList (List.replicate (l'.depth * o.indentWidth) ' ')) := by
    split
    · decide
    · intro c hc
      rw [String.toList_ofList] at hc
      rw [List.eq_of_mem_replicate hc]
      rfl
  have hbreak : ExpandsWhole t (l.text ++ "\n") (l'.text ++ "\n") := by
    intro rest
    have hends : Ends ("\n".toList ++ rest) := by simp [Ends, ShortNames.isNameChar]
    have hplain : Plain "\n" := by decide
    rw [String.toList_append, String.toList_append, List.append_assoc, List.append_assoc, h hends,
      ShortNames.expandFrom_plain hplain]
  unfold Printer.line
  rw [hdepth, String.append_assoc, String.append_assoc]
  exact (ExpandsWhole.plain hindent).append hbreak

theorem expandsWhole_text (o : Options) {ls ls' : List Printer.Line} (h : LinesExpand t ls ls') :
    ExpandsWhole t (Printer.text o ls) (Printer.text o ls') :=
  .join (List.Forall₂.imp (fun _ _ hl => expandsWhole_line o hl.1 hl.2) h)

end Printed

/-! ### Scripts -/

/-- **Expanding the text of a script with short names gives the script back**, in every layout: its
variables with short names are written in lower case, and everything else is as it was. -/
theorem expand_script {digest : String → Nat} {env : Env} {preserve : List String} {s s' : Script}
    {p p' : Program}
    (hrun : (scriptWith (shortNameBy digest) env preserve s).run p = .ok ((s', t), p'))
    (hs : Restorable env.builtins t s) (o : Options) :
    t.expand (Printer.script env.builtins o s') =
      Printer.script env.builtins o ((restored t).script s) := by
  obtain ⟨ht, rfl, -⟩ := scriptWith_run hrun
  have hblocks : List.Forall₂ (fun bl bl' => ExpandsWhole t
      (Printer.text o (Printer.block env.builtins bl) ++ if o.removeWhitespace then "" else "\n")
      (Printer.text o (Printer.block env.builtins bl') ++ if o.removeWhitespace then "" else "\n"))
      (s.blocks.map (shorten t).block) (s.blocks.map (restored t).block) := by
    rw [List.forall₂_map_left_iff, List.forall₂_map_right_iff]
    refine List.forall₂_same.mpr fun bl hbl => ?_
    refine (expandsWhole_text o (expands_block ht (hs.heads bl hbl) (hs.bodies bl hbl))).append ?_
    split <;> exact .plain (by decide)
  have hall := ExpandsWhole.join hblocks []
  simp only [List.append_nil, ShortNames.expandFrom] at hall
  simp only [ShortNames.expand, Printer.script, Renaming.script, hall, String.ofList_toList]

/-! ### A function named like a variable -/

/-- A script with a variable `$F` and a function of that name. -/
def signedScript : Script := ⟨[
  .callback ⟨"init", none,
    [.written (.declare ⟨.ofText "$F" .zero, [], none, [], none⟩) .zero], .zero⟩,
  .callback ⟨"note", none,
    [.written (.call ⟨.ofText "$F" .zero, [], true, true, .zero⟩) .zero], .zero⟩,
  .function ⟨.ofText "$F" .zero, [], none,
    [.written (.call ⟨.ofText "message" .zero, [.str "\"$F\"" .zero], true, false, .zero⟩) .zero],
    false, false, .zero⟩]⟩

/-- The table of that script. -/
def signedProgram : Program := { symbols := { vars := ["$f"] } }

/-- The short name of its variable. -/
def signedNames : ShortNames := ⟨[("$f", "$qtajc")]⟩

theorem signedScript_run : ∃ s' p',
    (scriptWith (shortNameBy fun name => (Text.digest name).toNat) ⟨{}, .empty⟩ [] signedScript).run
      signedProgram = .ok ((s', signedNames), p') := by
  have hrun : ((script ⟨{}, .empty⟩ [] signedScript).run signedProgram).toOption.map (·.1.2) =
      some signedNames := by decide +kernel
  obtain ⟨⟨⟨s', t⟩, p'⟩, hrun, rfl⟩ := Option.map_eq_some_iff.mp hrun
  rw [script, shortName_eq] at hrun
  exact ⟨s', p', Except.toOption_eq_some.mp hrun⟩

/-- That script can be got back. -/
theorem signedScript_restorable : Restorable {} signedNames signedScript := by
  have hvariable : Recoverable signedNames (.ofText "$F" .zero) := by decide +kernel
  have hfunction : Spared signedNames (.ofText "$F" .zero) := by decide +kernel
  have hmessage : Recoverable signedNames (.ofText "message" .zero) := by decide +kernel
  have hstring : signedNames.Spares "\"$F\"" := by decide +kernel
  constructor
  · rintro bl (_ | ⟨_, _ | ⟨_, _ | ⟨_, ⟨⟩⟩⟩⟩)
    · exact ⟨by decide +kernel, nofun⟩
    · exact ⟨by decide +kernel, nofun⟩
    · exact ⟨hfunction, nofun⟩
  · rintro bl (_ | ⟨_, _ | ⟨_, _ | ⟨_, ⟨⟩⟩⟩⟩)
    · exact ⟨⟨⟨hvariable, nofun⟩, nofun, trivial, nofun⟩, trivial⟩
    · exact ⟨⟨⟨hvariable, rfl⟩, trivial⟩, trivial⟩
    · exact ⟨⟨⟨hmessage, rfl⟩, .inr hstring, trivial⟩, trivial⟩

/-- That script is got back. -/
theorem signedScript_expand : ∃ s' p',
    (scriptWith (shortNameBy fun name => (Text.digest name).toNat) ⟨{}, .empty⟩ [] signedScript).run
      signedProgram = .ok ((s', signedNames), p') ∧
    Restorable {} signedNames signedScript ∧
    signedNames.expand (Printer.script {} {} s') =
      Printer.script {} {} ((restored signedNames).script signedScript) := by
  obtain ⟨s', p', hrun⟩ := signedScript_run
  exact ⟨s', p', hrun, signedScript_restorable, expand_script hrun signedScript_restorable {}⟩

/-- Every name with a short name in lower case, also where functions are defined. -/
def lowered (t : ShortNames) : Renaming where
  name i := if (t.short? i.full).isSome then i.inLowerCase else i
  function i := if (t.short? i.full).isSome then i.inLowerCase else i

/-- **Functions keep their names**: the one of that script is not got back in lower case, although a
variable of its name is. -/
theorem signedScript_not_lowered : ∃ s' p',
    (scriptWith (shortNameBy fun name => (Text.digest name).toNat) ⟨{}, .empty⟩ [] signedScript).run
      signedProgram = .ok ((s', signedNames), p') ∧
    Restorable {} signedNames signedScript ∧
    signedNames.expand (Printer.script {} {} s') ≠
      Printer.script {} {} ((lowered signedNames).script signedScript) := by
  obtain ⟨s', p', hrun⟩ := signedScript_run
  obtain ⟨-, hs', -⟩ := scriptWith_run hrun
  refine ⟨s', p', hrun, signedScript_restorable, ?_⟩
  rw [hs']
  decide +kernel

end Compaction

end FlatScript
