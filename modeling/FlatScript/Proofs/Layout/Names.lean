import FlatScript.Proofs.Layout.Lines
import FlatScript.Proofs.Rule
import FlatScript.Proofs.Writing.Words

/-!
# Scripts that are written in solid lines

A line of a script starts with a keyword or with the name of what is assigned to or called, and all
else on it is names, numbers, strings and signs. So the lines of a script are solid when these names
are and when all other names, strings and words are flush.

* `FlatScript.solid` asks this of statements, and `FlatScript.Block.IsSolid` of blocks.
* `FlatScript.Printer.solidBlock`: such a block is written in solid lines.
-/

namespace FlatScript

/-! ### Rules -/

/-- A function with a flush name and flush parameters. -/
structure FunctionDef.FlushHead (f : FunctionDef) : Prop where
  name : Flush f.name.name
  params : ∀ p ∈ f.params, Flush p.name.name

/-- **Statements in solid lines.** Their names, strings and words are flush. A variable or a family
may give its name to something at the front of a line, with or without its sigil, and a call may
stand there. -/
def solid : Rule where
  expr
    | .var i _ _ => Solid i.name
    | .call name _ _ _ _ => Solid name.full
    | .str raw _ => Flush raw
    | .raw text _ => Flush text
    | _ => True
  stmt
    | .property name fs => Flush name.name ∧ ∀ f ∈ fs, f.FlushHead
    | .synonym name indices _ => Flush name.name ∧ ∀ i ∈ indices, Flush i.name
    | .family name _ => Solid name.name
    | .declare d => Flush d.name.name ∧ ∀ m ∈ d.modifiers, Flush m
    | .call c => Solid c.name.full
    | _ => True
  list _ := True
  skips _ := false
  atom _ _ _ := False

/-- **A block in solid lines.** -/
def Block.IsSolid : Block → Prop
  | .callback c => Flush c.name ∧ (∀ i ∈ c.control, Flush i.name) ∧ stmtsMeet solid c.body
  | .function f => f.FlushHead ∧ stmtsMeet solid f.body

/-! ### Names in print -/

theorem Flush.behindSigil {name : String} (h : Flush name) (sigil : Sigil) :
    Solid (sigil.text ++ name) := by
  refine Solid.append ?_ h
  cases sigil <;> decide +kernel

theorem Solid.full {i : Ident} (h : Solid i.name) : Solid i.full := by
  unfold Ident.full
  split
  · exact h.flush.behindSigil _
  · exact h

theorem Flush.full {i : Ident} (h : Flush i.name) : Flush i.full := by
  unfold Ident.full
  split
  · exact (h.behindSigil _).flush
  · exact h

namespace Printer

variable {b : Builtins}

/-! ### Expressions in print -/

theorem feed_notMem_digits {ds : List Char} (h : ∀ d ∈ ds, Scan.isDigit d = true) : '\n' ∉ ds :=
  fun hmem => absurd (h _ hmem) (by decide)

theorem flush_int (value : Int32) : Flush (int value) := by
  by_cases h : value = Int32.minValue
  · subst h
    decide
  · have hdigits : '\n' ∉ value.toInt.natAbs.repr.toList := by
      rw [Nat.toList_repr]
      exact feed_notMem_digits (toDigits_isDigit _)
    refine flushChars_of_notMem ?_
    rw [int_toList h]
    split
    · simpa using hdigits
    · exact hdigits

theorem flush_real (value : Decimal) : Flush (real value) := by
  obtain ⟨text, v, ⟨⟨ds, es, rfl, hds, hes, hds', hes'⟩, -⟩, htext, -⟩ := value.exists_literal
  have hdigits := feed_notMem_digits hds'
  have hfraction := feed_notMem_digits hes'
  refine flushChars_of_notMem ?_
  rw [htext]
  split <;> simp [hdigits, hfraction]

theorem flush_commas {texts : List String} (h : ∀ t ∈ texts, Flush t) :
    Flush (commas texts) := by
  induction texts with
  | nil => rfl
  | cons t texts ih =>
    rw [List.forall_mem_cons] at h
    cases texts with
    | nil => simpa [commas] using h.1
    | cons t' texts =>
      have hcomma : Flush ", " := by decide
      have hrest := ih h.2
      rw [commas, String.intercalate_cons_cons]
      exact (h.1.append hcomma).append hrest

theorem flush_parenthesized {needed : Nat → Bool} {e : Expr} {text : String} (h : Flush text) :
    Flush (parenthesized needed e text) := by
  have hparens : Flush ("(" ++ text ++ ")") := (Flush.append (by decide) h).append (by decide)
  unfold parenthesized
  split
  · split
    · exact hparens
    · exact h
  · exact h

theorem flush_infixed {left right : String} (op : BinaryOp) (hl : Flush left)
    (hr : Flush right) : Flush (infixed op left right) := by
  have hspelling : Flush op.spelling := by cases op <;> decide
  have hblank : Flush " " := by decide
  unfold infixed
  split
  · exact (hl.append hspelling).append hr
  · exact (((hl.append hblank).append hspelling).append hblank).append hr

theorem flush_prefixed {operand : String} (op : UnaryOp) (h : Flush operand) :
    Flush (prefixed op operand) := by
  have hspelling : Flush (op.spelling ++ " ") := by cases op <;> decide
  unfold prefixed
  split
  · exact Flush.append (by decide) h
  · exact hspelling.append h

/-- A list in brackets or in parentheses. -/
theorem flush_list {opening closing : String} {texts : List String} (ho : Flush opening)
    (hc : Flush closing) (h : ∀ t ∈ texts, Flush t) :
    Flush (opening ++ commas texts ++ closing) :=
  (ho.append (flush_commas h)).append hc

/-- A variable or a call starts with a name, or with the word in front of it. -/
theorem solid_call {e : Expr} {name : Ident} {args : List Expr} {isProcedure usingCall : Bool}
    {span : Span} (he : e = .call name args isProcedure usingCall span) (hname : Solid name.full)
    (hargs : ∀ t ∈ exprs b args, Flush t) : Solid (expr b e) := by
  subst he
  have hlist : Flush ("(" ++ commas (exprs b args) ++ ")") :=
    flush_list (by decide) (by decide) hargs
  have hcall : Solid ((if usingCall then "call " else "") ++ name.full) := by
    cases usingCall with
    | false => simpa using hname
    | true => exact Solid.append (by decide +kernel) hname.flush
  simp only [expr]
  refine hcall.append ?_
  split
  · exact hlist
  · exact (by decide : Flush "")

mutual

/-- **An expression is flush** when the words in it are. -/
theorem flush_expr (b : Builtins) : ∀ {e : Expr}, e.Meets solid → Flush (expr b e)
  | .binary op _ _ _, .inr ⟨_, hl, hr⟩ => by
    simp only [expr]
    exact flush_infixed op (flush_parenthesized (flush_expr b hl))
      (flush_parenthesized (flush_expr b hr))
  | .unary op _ _, ⟨_, h⟩ => by
    have hoperand := flush_expr b h
    simp only [expr]
    split
    · decide
    · split
      · exact flush_prefixed op hoperand
      · exact flush_prefixed op (flush_parenthesized hoperand)
  | .int value _, _ => by
    simp only [expr]
    exact flush_int value
  | .real value _, _ => by
    simp only [expr]
    exact flush_real value
  | .str _ _, h => by
    simp only [expr]
    exact h
  | .bool value _, _ => by
    simp only [expr]
    cases value <;> decide
  | .raw _ _, h => by
    simp only [expr]
    exact (Flush.append (by decide) h).append (by decide)
  | .var _ _ _, h => (solid_var b h).flush
  | .call _ args _ _ _, ⟨h, ha⟩ =>
    (solid_call rfl h (flush_exprs b (argsMeet_false.mp ha))).flush

theorem flush_exprs (b : Builtins) :
    ∀ {es : List Expr}, exprsMeet solid es → ∀ t ∈ exprs b es, Flush t
  | [], _ => by simp [exprs]
  | _ :: _, ⟨h, hs⟩ => by
    simp only [exprs, List.forall_mem_cons]
    exact ⟨flush_expr b h, flush_exprs b hs⟩

theorem solid_var (b : Builtins) : ∀ {i : Ident} {subscripts : List Expr} {span : Span},
    (Expr.var i subscripts span).Meets solid → Solid (expr b (.var i subscripts span))
  | _, _, _, ⟨h, hs⟩ => by
    have hfull := Solid.full h
    simp only [expr]
    split
    · exact hfull
    · have hlist : Flush ("[" ++ commas (exprs b _) ++ "]") :=
        flush_list (by decide) (by decide) (flush_exprs b hs)
      rw [String.append_assoc, String.append_assoc]
      rw [String.append_assoc] at hlist
      exact hfull.append hlist

end

/-! ### Lines in print -/

theorem solid_varRef {v : VarRef} (h : v.Meets solid) : Solid (varRef b v) := solid_var b h

theorem flush_initializer {i : Initializer} (h : i.Meets solid) : Flush (initializer b i) := by
  have hopening : Flush " := (" := by decide
  have hclosing : Flush ")" := by decide
  unfold initializer
  split
  · exact (hopening.append h).append hclosing
  · exact Flush.append (by decide) (flush_expr b h)
  · exact flush_list hopening hclosing (flush_exprs b h)

theorem flush_join {texts : List String} (h : ∀ t ∈ texts, Flush t) :
    Flush (String.join texts) := by
  induction texts with
  | nil => decide
  | cons t texts ih =>
    rw [List.forall_mem_cons] at h
    rw [String.join_cons]
    exact h.1.append (ih h.2)

theorem solid_declaration {d : Declaration} (hk : solid.stmt (.declare d)) (hd : d.Meets solid) :
    Solid (declaration b d) := by
  have hword : Solid "declare " := by decide +kernel
  have hmodifiers : Flush (String.join (d.modifiers.map (· ++ " "))) := by
    refine flush_join ?_
    simp only [List.forall_mem_map]
    exact fun m hm => (hk.2 m hm).append (by decide)
  refine Solid.append (Solid.append (Solid.append
    ((hword.append hmodifiers).append hk.1.full) ?size) ?params) ?init
  case size =>
    split
    · next size hsize =>
      exact (Flush.append (by decide) (flush_expr b (hd.1 size hsize))).append (by decide)
    · decide
  case params =>
    split
    · decide
    · exact flush_list (by decide) (by decide) (flush_exprs b hd.2.1)
  case init =>
    split
    · next init hinit => exact flush_initializer (hd.2.2 init hinit)
    · decide

theorem solid_forHead {var : VarRef} {start stop : Expr} {step : Option Expr} (downto : Bool)
    (hvar : var.Meets solid) (hstart : start.Meets solid) (hstop : stop.Meets solid)
    (hstep : ∀ e ∈ step, e.Meets solid) : Solid (forHead b var start stop step downto) := by
  have hword : Solid "for " := by decide +kernel
  have hto : Flush (if downto then " downto " else " to ") := by cases downto <;> decide
  have hassign : Flush " := " := by decide
  refine Solid.append ((((((hword.append (solid_varRef hvar).flush).append hassign).append
    (flush_expr b hstart)).append hto).append (flush_expr b hstop))) ?_
  split
  · next step => exact Flush.append (by decide) (flush_expr b (hstep step rfl))
  · decide

theorem solid_caseHead {start : Expr} {stop : Option Expr} (hstart : start.Meets solid)
    (hstop : ∀ e ∈ stop, e.Meets solid) : Solid (caseHead b start stop) := by
  have hword : Solid "case " := by decide +kernel
  refine (hword.append (flush_expr b hstart)).append ?_
  split
  · next stop => exact Flush.append (by decide) (flush_expr b (hstop stop rfl))
  · decide

/-- A condition or a subject in parentheses behind a word. -/
theorem solid_guard {word : String} {e : Expr} (hword : Solid word) (he : e.Meets solid) :
    Solid (word ++ " (" ++ expr b e ++ ")") :=
  ((hword.append (by decide)).append (flush_expr b he)).append (by decide)

theorem solid_callStmt {c : Call} (hk : solid.stmt (.call c))
    (ha : argsMeet solid (solid.skips c.name.name) c.args) : Solid (call b c) :=
  solid_call rfl hk (flush_exprs b (argsMeet_false.mp ha))

/-- Lines with a line in front and a line behind. -/
theorem solid_enclosed {depth : Nat} {head closing : String} {ls : List Line} (hh : Solid head)
    (hc : Solid closing) (hls : ∀ l ∈ ls, Solid l.text) :
    ∀ l ∈ (⟨depth, head⟩ : Line) :: ls ++ [⟨depth, closing⟩], Solid l.text := by
  intro l hl
  rw [List.mem_append, List.mem_cons, List.mem_singleton] at hl
  rcases hl with (rfl | hl) | rfl
  · exact hh
  · exact hls l hl
  · exact hc

mutual

/-- The lines of a statement are solid. -/
theorem solid_stmt (b : Builtins) (depth : Nat) :
    ∀ {s : Stmt}, s.Meets solid → ∀ l ∈ stmt b depth s, Solid l.text
  | ⟨.property _ _, _, _⟩, _ => by simp [stmt]
  | ⟨.synonym _ _ _, _, _⟩, _ => by simp [stmt]
  | ⟨.declare _, _, _⟩, ⟨hk, hd⟩ => by
    simp only [stmt, List.forall_mem_singleton]
    exact solid_declaration hk hd
  | ⟨.assign _ _, _, _⟩, .inr ⟨_, ht, hv⟩ => by
    simp only [stmt, List.forall_mem_singleton]
    exact ((solid_varRef ht).append (by decide)).append (flush_expr b hv)
  | ⟨.call _, _, _⟩, ⟨hk, ha⟩ => by
    simp only [stmt, List.forall_mem_singleton]
    exact solid_callStmt hk ha
  | ⟨.whileLoop _ _, _, _⟩, ⟨_, hc, _, hb⟩ => by
    have hword : Solid "while" := by decide +kernel
    simp only [stmt]
    exact solid_enclosed (solid_guard hword hc) (by decide +kernel)
      (solid_stmts b (depth + 1) hb)
  | ⟨.forLoop _ _ _ _ downto _, _, _⟩, ⟨_, hv, h₁, h₂, h₃, _, hb⟩ => by
    simp only [stmt]
    exact solid_enclosed (solid_forHead downto hv h₁ h₂ h₃) (by decide +kernel)
      (solid_stmts b (depth + 1) hb)
  | ⟨.family _ _, _, _⟩, ⟨hk, _, hb⟩ => by
    have hword : Solid "family " := by decide +kernel
    simp only [stmt]
    exact solid_enclosed (hword.append (Solid.full hk).flush) (by decide +kernel)
      (solid_stmts b (depth + 1) hb)
  | ⟨.ifChain _ otherwise, _, _⟩, ⟨_, hbs, _, ho⟩ => by
    have helse : Solid "else" := by decide +kernel
    simp only [stmt, List.forall_mem_append, List.forall_mem_singleton]
    refine ⟨⟨solid_branches b depth (by decide +kernel) hbs, ?_⟩,
      by decide +kernel⟩
    split
    · exact List.forall_mem_nil _
    · rw [List.forall_mem_cons]
      exact ⟨helse, solid_stmts b (depth + 1) ho⟩
  | ⟨.select _ _, _, _⟩, ⟨_, hs, hcs⟩ => by
    have hword : Solid "select" := by decide +kernel
    simp only [stmt]
    exact solid_enclosed (solid_guard hword hs) (by decide +kernel)
      (solid_cases b (depth + 1) hcs)

/-- **The lines of solid statements are solid.** -/
theorem solid_stmts (b : Builtins) (depth : Nat) :
    ∀ {ss : List Stmt}, stmtsMeet solid ss → ∀ l ∈ stmts b depth ss, Solid l.text
  | [], _ => by simp [stmts]
  | _ :: _, ⟨h, hs⟩ => by
    simp only [stmts, List.forall_mem_append]
    exact ⟨solid_stmt b depth h, solid_stmts b depth hs⟩

theorem solid_branches (b : Builtins) (depth : Nat) {word : String} (hword : Solid word) :
    ∀ {bs : List Branch}, branchesMeet solid bs → ∀ l ∈ branches b depth word bs, Solid l.text
  | [], _ => by simp [branches]
  | ⟨_, _⟩ :: _, ⟨hc, _, hb, hrest⟩ => by
    simp only [branches, List.forall_mem_append, List.forall_mem_cons]
    exact ⟨⟨solid_guard hword hc, solid_stmts b (depth + 1) hb⟩,
      solid_branches b depth (by decide +kernel) hrest⟩

theorem solid_cases (b : Builtins) (depth : Nat) :
    ∀ {cs : List Case}, casesMeet solid cs → ∀ l ∈ cases b depth cs, Solid l.text
  | [], _ => by simp [cases]
  | ⟨_, _, _⟩ :: _, ⟨h₁, h₂, _, hb, hrest⟩ => by
    simp only [cases, List.forall_mem_append, List.forall_mem_cons]
    exact ⟨⟨solid_caseHead h₁ h₂, solid_stmts b (depth + 1) hb⟩, solid_cases b depth hrest⟩

end

/-! ### Blocks in print -/

theorem solid_callbackHead {c : Callback} (hname : Flush c.name)
    (hcontrol : ∀ i ∈ c.control, Flush i.name) : Solid (callbackHead c) := by
  have hword : Solid "on " := by decide +kernel
  refine (hword.append hname).append ?_
  split
  · next i hi => exact (Flush.append (by decide) (hcontrol i hi).full).append (by decide)
  · decide

theorem solid_functionHead {f : FunctionDef} (h : f.FlushHead) : Solid (functionHead f) := by
  have hword : Solid "function " := by decide +kernel
  refine (hword.append h.name.full).append ?_
  split
  · decide
  · refine flush_list (by decide) (by decide) ?_
    simp only [List.forall_mem_map]
    exact fun p hp => (h.params p hp).full

/-- **A solid block is written in solid lines.** -/
theorem solidBlock {bl : Block} (h : bl.IsSolid) : SolidBlock b bl := by
  cases bl with
  | callback c =>
    exact solid_enclosed (solid_callbackHead h.1 h.2.1) (by decide +kernel)
      (solid_stmts b 1 h.2.2)
  | function f =>
    exact solid_enclosed (solid_functionHead h.1) (by decide +kernel)
      (solid_stmts b 1 h.2)

end Printer

end FlatScript
