import FlatScript.Proofs.Characters
import FlatScript.Proofs.Compilation
import FlatScript.Proofs.Controls
import FlatScript.Proofs.Mentions
import FlatScript.Proofs.Passes

/-!
# Which calls get the identifiers of controls

A function on the parameters of controls gets the identifier of a control as its first argument, and
a function that puts a control on a panel gets the identifier of the panel as its third one. Where a
script passes the variables instead, a call of `get_ui_id` is put around them, wherever the call
stands. After that no variable of a control is the first argument of such a function.

The panel is looked at only if the first argument is a variable too. So a panel stays as it is in a
call whose control has been given by its identifier in the source, and in no other call.

* `FlatScript.Controls.passesControl` and `FlatScript.Controls.passesPanel` say that a call passes a
  variable in the place of an identifier.
* `FlatScript.Controls.Identified` compares the calls before and after the step.
* `FlatScript.controls_identified` is the statement on scripts.
-/

namespace FlatScript

namespace Controls

/-! ### What a call passes -/

/-- Whether a call is of a built-in function whose name starts with a word. -/
def ofBuiltin (b : Builtins) (word : String) (c : Call) : Bool :=
  !c.usingCall && b.isFunction c.name.name && startsWith word c.name.name

/-- **Whether a call passes the variable of a control** to a function on its parameters. -/
def passesControl (b : Builtins) (symbols : Symbols) (c : Call) : Bool :=
  (ofBuiltin b "set_control_par" c || ofBuiltin b "get_control_par" c) &&
    c.args[0]?.any (isControl symbols)

/-- **Whether a call passes the variable of a panel** to a function that puts a control on it. -/
def passesPanel (b : Builtins) (symbols : Symbols) (c : Call) : Bool :=
  ofBuiltin b "set_control_par" c &&
    (c.args[1]?.any isPanelParameter && c.args[2]?.any (isControl symbols))

/-- **What becomes of calls**: none passes the variable of a control any more, and one that passes
the variable of a panel is left exactly if there was one that did not pass that of a control. -/
structure Identified (b : Builtins) (symbols : Symbols) (cs cs' : List Call) : Prop where
  control : ∀ c ∈ cs', passesControl b symbols c = false
  panel : (∀ c ∈ cs', passesPanel b symbols c = false) ↔
    ∀ c ∈ cs, passesPanel b symbols c = true → passesControl b symbols c = true

section Arguments

variable {b : Builtins} {symbols : Symbols} {env : Env} {trace : List Span} {c : Call}
  {args args' : List Expr}

theorem Identified.nil : Identified b symbols [] [] := ⟨by simp, by simp⟩

theorem Identified.append {cs₁ cs₁' cs₂ cs₂' : List Call} (h₁ : Identified b symbols cs₁ cs₁')
    (h₂ : Identified b symbols cs₂ cs₂') : Identified b symbols (cs₁ ++ cs₂) (cs₁' ++ cs₂') where
  control := List.forall_mem_append.mpr ⟨h₁.control, h₂.control⟩
  panel := by rw [List.forall_mem_append, List.forall_mem_append, h₁.panel, h₂.panel]

/-- No name starts with two words of which neither goes on with the other. -/
theorem not_startsWith {word other name : String} (hword : ¬ word.toList <+: other.toList)
    (hother : ¬ other.toList <+: word.toList) (h : startsWith other name = true) :
    startsWith word name = false := by
  refine Bool.eq_false_iff.mpr fun hstart => ?_
  rcases List.prefix_or_prefix_of_prefix (List.isPrefixOf_iff_prefix.mp hstart)
    (List.isPrefixOf_iff_prefix.mp h) with hpre | hpre
  · exact hword hpre
  · exact hother hpre

@[simp] theorem ofBuiltin_args (word : String) :
    ofBuiltin b word { c with args } = ofBuiltin b word c := rfl

/-! ### Arguments -/

@[simp] theorem isControl_idOf (e : Expr) : isControl symbols (idOf e) = false := rfl

/-- No control is left in front. -/
theorem control_withIds (isSetter : Bool) (args : List Expr) :
    (withIds symbols isSetter args)[0]?.any (isControl symbols) = false := by
  cases args with
  | nil => rfl
  | cons control args => cases hcontrol : isControl symbols control <;> simp [withIds, hcontrol]

/-- **A panel is left** if there was no control in front. -/
theorem panel_withIds (args : List Expr) :
    ((withIds symbols true args)[1]?.any isPanelParameter &&
        (withIds symbols true args)[2]?.any (isControl symbols)) =
      (args[1]?.any isPanelParameter && args[2]?.any (isControl symbols) &&
        !args[0]?.any (isControl symbols)) := by
  match args with
  | [] => rfl
  | [control] => cases hcontrol : isControl symbols control <;> simp [withIds, hcontrol]
  | [control, parameter] =>
    cases hcontrol : isControl symbols control <;> simp [withIds, hcontrol]
  | control :: parameter :: panel :: rest =>
    cases hcontrol : isControl symbols control <;>
      cases hparameter : isPanelParameter parameter <;>
      cases hpanel : isControl symbols panel <;>
      simp [withIds, withId, hcontrol, hparameter, hpanel]

/-- **The arguments of a call** pass no control any more, and a panel only if they passed no
control before. -/
theorem passes_arguments
    (h : arguments env symbols trace c.name.name c.usingCall c.args = .ok args') :
    passesControl env.builtins symbols { c with args := args' } = false ∧
      passesPanel env.builtins symbols { c with args := args' } =
        (passesPanel env.builtins symbols c && !passesControl env.builtins symbols c) := by
  unfold arguments at h
  split at h
  · next hcall =>
    -- The call is of no built-in function.
    have hno (word : String) : ofBuiltin env.builtins word c = false := by
      unfold ofBuiltin
      rcases Bool.or_eq_true_iff.mp hcall with hcall | hcall
      · simp [hcall]
      · rw [Bool.not_eq_true' _ |>.mp hcall, Bool.and_false, Bool.false_and]
    simp [passesControl, passesPanel, hno]
  split at h
  · next hevent =>
    -- The function is about events, so it is not about controls.
    have hno (word : String) (hset : ¬ word.toList <+: "set_event_par".toList)
        (hset' : ¬ "set_event_par".toList <+: word.toList)
        (hget : ¬ word.toList <+: "get_event_par".toList)
        (hget' : ¬ "get_event_par".toList <+: word.toList) :
        ofBuiltin env.builtins word c = false := by
      unfold ofBuiltin
      rcases Bool.or_eq_true_iff.mp hevent with hevent | hevent
      · rw [not_startsWith hset hset' hevent, Bool.and_false]
      · rw [not_startsWith hget hget' hevent, Bool.and_false]
    have hset := hno "set_control_par" (by decide) (by decide) (by decide) (by decide)
    have hget := hno "get_control_par" (by decide) (by decide) (by decide) (by decide)
    simp [passesControl, passesPanel, hset, hget]
  split at h
  · next hset =>
    cases h
    refine ⟨by simp [passesControl, control_withIds], ?_⟩
    simp only [passesPanel, passesControl, ofBuiltin_args, panel_withIds]
    cases ofBuiltin env.builtins "set_control_par" c <;> simp
  split at h
  · next hset hget =>
    cases h
    have hset : ofBuiltin env.builtins "set_control_par" c = false := by simp [ofBuiltin, hset]
    simp [passesControl, passesPanel, control_withIds, hset]
  · next hset hget =>
    simp [passesControl, passesPanel, ofBuiltin, hset, hget]

/-- What holds of every call that is put around a control holds of all calls in an argument with
its identifier if it holds of those in the argument. -/
theorem forall_calls_withId {P : Call → Prop}
    (hid : ∀ control span, P ⟨.fixed "get_ui_id" span, [control], false, false, span⟩) (e : Expr) :
    (∀ c ∈ (withId symbols e).calls, P c) ↔ ∀ c ∈ e.calls, P c := by
  unfold withId
  split
  · simp [idOf, hid]
  · rfl

/-- **The calls in the arguments** stay, and calls are put around controls. -/
theorem forall_calls_withIds {P : Call → Prop}
    (hid : ∀ control span, P ⟨.fixed "get_ui_id" span, [control], false, false, span⟩)
    (isSetter : Bool) (args : List Expr) :
    (∀ c ∈ exprsCalls (withIds symbols isSetter args), P c) ↔ ∀ c ∈ exprsCalls args, P c := by
  unfold withIds
  split
  · next control args =>
    split
    · have hcontrol : (∀ c ∈ (idOf control).calls, P c) ↔ ∀ c ∈ control.calls, P c := by
        simp [idOf, hid]
      rw [exprsCalls_cons, exprsCalls_cons, List.forall_mem_append, List.forall_mem_append, hcontrol]
      refine and_congr_right fun _ => ?_
      split
      · next parameter panel rest =>
        split
        · simp only [exprsCalls_cons, List.forall_mem_append, forall_calls_withId hid]
        · rfl
      · rfl
    · rfl
  · rfl

theorem forall_calls_arguments {P : Call → Prop} {name : String} {usingCall : Bool}
    (hid : ∀ control span, P ⟨.fixed "get_ui_id" span, [control], false, false, span⟩)
    (h : arguments env symbols trace name usingCall args = .ok args') :
    (∀ c ∈ exprsCalls args', P c) ↔ ∀ c ∈ exprsCalls args, P c := by
  unfold arguments at h
  split at h
  · cases h
    rfl
  split at h
  · split at h <;> cases h
    rfl
  split at h
  · cases h
    exact forall_calls_withIds hid true args
  split at h
  · cases h
    exact forall_calls_withIds hid false args
  · cases h
    rfl

/-! ### Expressions -/

/-- An expression is the variable of a control exactly if it was one. -/
theorem isControl_expr {e e' : Expr} (h : expr env symbols trace e = .ok e') :
    isControl symbols e' = isControl symbols e ∧ isPanelParameter e' = isPanelParameter e := by
  cases e with
  | binary op left right span =>
    simp only [expr] at h
    obtain ⟨_, -, h⟩ := Except.bind_eq_ok.mp h
    obtain ⟨_, -, h⟩ := Except.bind_eq_ok.mp h
    cases h
    exact ⟨rfl, rfl⟩
  | unary op operand span =>
    simp only [expr] at h
    obtain ⟨_, -, h⟩ := Except.bind_eq_ok.mp h
    cases h
    exact ⟨rfl, rfl⟩
  | var i es span =>
    simp only [expr] at h
    obtain ⟨⟨⟩, -, h⟩ := Except.bind_eq_ok.mp h
    obtain ⟨_, -, h⟩ := Except.bind_eq_ok.mp h
    cases h
    exact ⟨rfl, rfl⟩
  | call name args isProcedure usingCall span =>
    simp only [expr] at h
    obtain ⟨_, -, h⟩ := Except.bind_eq_ok.mp h
    obtain ⟨_, -, h⟩ := Except.bind_eq_ok.mp h
    cases h
    exact ⟨rfl, rfl⟩
  | int _ _ | real _ _ | str _ _ | bool _ _ | raw _ _ =>
    cases h
    exact ⟨rfl, rfl⟩

theorem forall₂_exprs : ∀ (es : List Expr) {es' : List Expr},
    exprs env symbols trace es = .ok es' →
      List.Forall₂ (fun e e' => expr env symbols trace e = .ok e') es es'
  | [], _, h => by
    cases h
    exact .nil
  | e :: es, _, h => by
    simp only [exprs] at h
    obtain ⟨e', he, h⟩ := Except.bind_eq_ok.mp h
    obtain ⟨es', hes, h⟩ := Except.bind_eq_ok.mp h
    cases h
    exact .cons he (forall₂_exprs es hes)

/-- What a call passes is the same before and after its arguments are treated. -/
theorem passes_exprs (h : exprs env symbols trace c.args = .ok args') :
    passesControl b symbols { c with args := args' } = passesControl b symbols c ∧
      passesPanel b symbols { c with args := args' } = passesPanel b symbols c := by
  have hany {f : Expr → Bool} (hf : ∀ e e', expr env symbols trace e = .ok e' → f e' = f e)
      (k : Nat) : args'[k]?.any f = c.args[k]?.any f := by
    have hmap := congrArg (fun l : List Bool => l[k]?) (map_eq_of_forall₂ (forall₂_exprs c.args h) hf)
    simp only [List.getElem?_map] at hmap
    have hmap := congrArg (Option.any id) hmap
    rwa [Option.any_map, Option.any_map] at hmap
  have hcontrol := hany fun _ _ he => (isControl_expr he).1
  have hparameter := hany fun _ _ he => (isControl_expr he).2
  simp only [passesControl, passesPanel, ofBuiltin_args, hcontrol, hparameter, and_self]

/-- A call that is put around a control passes nothing to be replaced. -/
theorem passes_id (control : Expr) (span : Span) :
    passesControl b symbols ⟨.fixed "get_ui_id" span, [control], false, false, span⟩ = false ∧
      passesPanel b symbols ⟨.fixed "get_ui_id" span, [control], false, false, span⟩ = false := by
  have hno (word : String) (hword : startsWith word "get_ui_id" = false) :
      ofBuiltin b word ⟨.fixed "get_ui_id" span, [control], false, false, span⟩ = false := by
    change (_ && startsWith word "get_ui_id") = false
    rw [hword, Bool.and_false]
  simp only [passesControl, passesPanel, hno "set_control_par" (by decide),
    hno "get_control_par" (by decide), Bool.or_self, Bool.false_and, and_self]

/-- **A call is treated**, if the calls in its arguments are. -/
theorem call_identified {c c' : Call}
    (hargs : ∀ {args'}, exprs env symbols trace c.args = .ok args' →
      Identified env.builtins symbols (exprsCalls c.args) (exprsCalls args'))
    (h : call env symbols trace c = .ok c') :
    Identified env.builtins symbols (c :: exprsCalls c.args) (c' :: exprsCalls c'.args) := by
  obtain ⟨args, hexprs, h⟩ := Except.bind_eq_ok.mp h
  obtain ⟨args', harguments, h⟩ := Except.bind_eq_ok.mp h
  cases h
  obtain ⟨hcontrol, hpanel⟩ := hargs hexprs
  obtain ⟨hcontrol', hpanel'⟩ := passes_arguments (c := { c with args }) harguments
  obtain ⟨hsame, hsame'⟩ := passes_exprs hexprs (b := env.builtins)
  rw [hsame, hsame'] at hpanel'
  refine ⟨List.forall_mem_cons.mpr ⟨hcontrol', ?_⟩, ?_⟩
  · exact (forall_calls_arguments (fun e span => (passes_id e span).1) harguments).mpr hcontrol
  · rw [List.forall_mem_cons, List.forall_mem_cons,
      forall_calls_arguments (fun e span => (passes_id e span).2) harguments, hpanel]
    refine and_congr_left fun _ => ?_
    rw [hpanel']
    cases passesPanel env.builtins symbols c <;> simp

mutual

/-- **The calls in an expression.** -/
theorem expr_identified : ∀ (e : Expr) {e' : Expr}, expr env symbols trace e = .ok e' →
    Identified env.builtins symbols e.calls e'.calls
  | .binary op left right span, _, h => by
    simp only [expr] at h
    obtain ⟨left', hleft, h⟩ := Except.bind_eq_ok.mp h
    obtain ⟨right', hright, h⟩ := Except.bind_eq_ok.mp h
    cases h
    rw [Expr.calls_binary, Expr.calls_binary]
    exact (expr_identified left hleft).append (expr_identified right hright)
  | .unary op operand span, _, h => by
    simp only [expr] at h
    obtain ⟨operand', hoperand, h⟩ := Except.bind_eq_ok.mp h
    cases h
    rw [Expr.calls_unary, Expr.calls_unary]
    exact expr_identified operand hoperand
  | .var i es span, _, h => by
    simp only [expr] at h
    obtain ⟨⟨⟩, -, h⟩ := Except.bind_eq_ok.mp h
    obtain ⟨es', hes, h⟩ := Except.bind_eq_ok.mp h
    cases h
    rw [Expr.calls_var, Expr.calls_var]
    exact exprs_identified es hes
  | .call name args isProcedure usingCall span, _, h => by
    simp only [expr] at h
    obtain ⟨args₁, hargs, h⟩ := Except.bind_eq_ok.mp h
    obtain ⟨args', harguments, h⟩ := Except.bind_eq_ok.mp h
    cases h
    rw [Expr.calls_call, Expr.calls_call]
    exact call_identified (c := ⟨name, args, isProcedure, usingCall, span⟩)
      (exprs_identified args)
      (Except.bind_eq_ok.mpr ⟨_, hargs, Except.bind_eq_ok.mpr ⟨_, harguments, rfl⟩⟩)
  | .int _ _, _, h | .real _ _, _, h | .str _ _, _, h | .bool _ _, _, h | .raw _ _, _, h => by
    cases h
    exact .nil
termination_by structural e => e

theorem exprs_identified : ∀ (es : List Expr) {es' : List Expr},
    exprs env symbols trace es = .ok es' →
      Identified env.builtins symbols (exprsCalls es) (exprsCalls es')
  | [], _, h => by
    cases h
    exact .nil
  | e :: es, _, h => by
    simp only [exprs] at h
    obtain ⟨e', he, h⟩ := Except.bind_eq_ok.mp h
    obtain ⟨es', hes, h⟩ := Except.bind_eq_ok.mp h
    cases h
    rw [exprsCalls_cons, exprsCalls_cons]
    exact (expr_identified e he).append (exprs_identified es hes)
termination_by structural es => es

end

/-! ### Scripts -/

/-- **The calls in a leaf of a statement.** -/
theorem step_identified {e e' : Expr} (h : (leafMap env symbols).Step e e') :
    Identified env.builtins symbols e.calls e'.calls := by
  cases h with
  | expr h => exact expr_identified e h
  | target h =>
    obtain ⟨⟨⟩, -, h⟩ := Except.bind_eq_ok.mp h
    obtain ⟨es', hes, h⟩ := Except.bind_eq_ok.mp h
    cases h
    rw [VarRef.toExpr, VarRef.toExpr, Expr.calls_var, Expr.calls_var]
    exact exprs_identified _ hes
  | call h =>
    rw [Call.toExpr, Call.toExpr, Expr.calls_call, Expr.calls_call]
    exact call_identified (exprs_identified _) h

/-- Lists of calls are treated one by one. -/
theorem identified_flatMap {α : Type} {f f' : α → List Call} {l l' : List α}
    (h : List.Forall₂ (fun x x' => Identified b symbols (f x) (f' x')) l l') :
    Identified b symbols (l.flatMap f) (l'.flatMap f') := by
  induction h with
  | nil => exact .nil
  | cons hx _ ih => exact hx.append ih

/-- **The calls in a block.** -/
theorem block_identified {control : Ident → Except CompileError Ident} {block block' : Block}
    (h : block.MapLeaves (leafMap env symbols) control block') :
    Identified env.builtins symbols (exprsCalls (stmtsLeaves block.body))
      (exprsCalls (stmtsLeaves block'.body)) := by
  have hsteps : List.Forall₂ (leafMap env symbols).Step (stmtsLeaves block.body)
      (stmtsLeaves block'.body) := by
    cases h with
    | callback _ hbody => exact LeafMap.leaves_step _ hbody
    | function hf =>
      obtain ⟨body, hbody, hf⟩ := Except.bind_eq_ok.mp hf
      cases hf
      exact LeafMap.leaves_step _ hbody
  rw [exprsCalls_eq_flatMap, exprsCalls_eq_flatMap]
  exact identified_flatMap (hsteps.imp fun _ _ => step_identified)

end Arguments

end Controls

open Controls in
/-- **Controls are passed by their identifiers.** When the step on controls succeeds, no call of
the script, wherever it stands, passes the variable of a control to a function on its parameters.
One that passes the variable of a panel is left exactly if there was one whose first argument was not
the variable of a control. -/
theorem controls_identified {env : Env} {s s' : Script} {p p' : Program}
    (h : (Controls.script env s).run p = .ok (s', p')) :
    (∀ c ∈ s'.calls, passesControl env.builtins p.symbols c = false) ∧
      ((∀ c ∈ s'.calls, passesPanel env.builtins p.symbols c = false) ↔
        ∀ c ∈ s.calls, passesPanel env.builtins p.symbols c = true →
          passesControl env.builtins p.symbols c = true) := by
  have hblocks := Script.mapLeaves_eq_ok (Controls.script_run h).2
  have hcalls := identified_flatMap (hblocks.imp fun _ _ => block_identified)
  exact ⟨hcalls.control, hcalls.panel⟩

/-- A script that puts a control on a panel twice, and reads a parameter of it in a subscript. In
the second call the identifier of the control is written already. -/
def panelText : String :=
  "on init\ndeclare ui_knob knob(0,9,1)\ndeclare ui_panel panel\ndeclare %a[4]\n" ++
    "set_control_par(knob,$CONTROL_PAR_PARENT_PANEL,panel)\n" ++
    "%a[get_control_par(knob,$CONTROL_PAR_VALUE)] := 1\n" ++
    "set_control_par(get_ui_id(knob),$CONTROL_PAR_PARENT_PANEL,panel)\nend on\n"

/-- The names of the engine that are needed for it. -/
def panelEnv : Env where
  builtins :=
    { vars := ["$CONTROL_PAR_PARENT_PANEL", "$CONTROL_PAR_VALUE"]
      functions := [("get_ui_id", ⟨["variable"], some "id"⟩),
        ("set_control_par", ⟨["id", "parameter", "value"], none⟩),
        ("get_control_par", ⟨["id", "parameter"], some "value"⟩)] }
  lines := .empty

open Controls in
/-- Two controls and two panels are passed, and of these one panel is left. -/
theorem panelText_identified : ∃ s₀ s₁ p₁ s₂ p₂ s₃,
    Script.parse panelText .empty = .ok s₀ ∧
      (Lowering.script panelEnv s₀).run {} = .ok (s₁, p₁) ∧
      (Sigils.script panelEnv s₁).run p₁ = .ok (s₂, p₂) ∧
      (Controls.script panelEnv s₂).run p₂ = .ok (s₃, p₂) ∧
      s₂.calls.countP (passesControl panelEnv.builtins p₂.symbols) = 2 ∧
      s₂.calls.countP (passesPanel panelEnv.builtins p₂.symbols) = 2 ∧
      s₃.calls.countP (passesPanel panelEnv.builtins p₂.symbols) = 1 ∧
      (∀ c ∈ s₃.calls, passesControl panelEnv.builtins p₂.symbols c = false) ∧
      ((∀ c ∈ s₃.calls, passesPanel panelEnv.builtins p₂.symbols c = false) ↔
        ∀ c ∈ s₂.calls, passesPanel panelEnv.builtins p₂.symbols c = true →
          passesControl panelEnv.builtins p₂.symbols c = true) := by
  set_option maxRecDepth 4000 in
  have htext : panelText.toList = _ :=
    Text.toList_pieces (Text.toList_pieces (Text.toList_pieces String.toList_ofList
      String.toList_ofList) String.toList_ofList) String.toList_ofList
  have hrun : ((Script.parse panelText .empty).toOption.bind fun s₀ =>
      ((Lowering.script panelEnv s₀).run {}).toOption.bind fun r₁ =>
        ((Sigils.script panelEnv r₁.1).run r₁.2).toOption.bind fun r₂ =>
          ((Controls.script panelEnv r₂.1).run r₂.2).toOption.map fun r₃ =>
            (r₂.1.calls.countP (passesControl panelEnv.builtins r₂.2.symbols),
              r₂.1.calls.countP (passesPanel panelEnv.builtins r₂.2.symbols),
              r₃.1.calls.countP (passesPanel panelEnv.builtins r₂.2.symbols))) =
      some (2, 2, 1) := by
    rw [Script.parse_eq_ofChars htext]
    decide +kernel
  obtain ⟨s₀, hparse, hrun⟩ := Option.bind_eq_some_iff.mp hrun
  obtain ⟨⟨s₁, p₁⟩, hlower, hrun⟩ := Option.bind_eq_some_iff.mp hrun
  obtain ⟨⟨s₂, p₂⟩, hsigils, hrun⟩ := Option.bind_eq_some_iff.mp hrun
  obtain ⟨⟨s₃, p₃⟩, hcontrols, hrun⟩ := Option.map_eq_some_iff.mp hrun
  have hcontrols := Except.toOption_eq_some.mp hcontrols
  obtain rfl := (Controls.script_run hcontrols).1
  obtain ⟨hcontrol, hrun⟩ := Prod.mk.inj hrun
  obtain ⟨hpanel, hleft⟩ := Prod.mk.inj hrun
  exact ⟨s₀, s₁, p₁, s₂, p₃, s₃, Except.toOption_eq_some.mp hparse,
    Except.toOption_eq_some.mp hlower, Except.toOption_eq_some.mp hsigils, hcontrols, hcontrol,
    hpanel, hleft, controls_identified hcontrols⟩

end FlatScript
