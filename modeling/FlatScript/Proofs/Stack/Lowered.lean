import FlatScript.Proofs.Leaves
import FlatScript.Proofs.Lowering.Walk
import FlatScript.Proofs.Passes
import FlatScript.Proofs.Sigils
import FlatScript.Proofs.Stack.Slots

/-!
# The stack in lowered code

When a script leaves the stack alone, its lowered code refers to the stack only by the cells of
the variables that live in the frame of the task function around. Finding the sigils of
references does not change that, since the indices of cells have theirs already.
-/

namespace FlatScript.Stack

/-! ### Names -/

/-- A name under namespaces is none of the stack. -/
theorem isStackName_qualified {namespaces : List String} {name : String}
    (h : namespaces.isEmpty = false) : isStackName (Name.qualified namespaces name) = false := by
  refine isStackName_of_dot ?_
  rw [Name.qualified, h]
  simp only [Bool.false_eq_true, if_false]
  split <;> simp

theorem isStackName_qualify {env : Env} {written params : List String} {i : Ident}
    (h : isStackName i.name = false) :
    isStackName (i.qualify env written params).name = false := by
  unfold Ident.qualify
  dsimp only
  split
  · exact h
  · split
    · exact h
    · next hkeep =>
      simp only [Bool.or_eq_true, not_or, Bool.not_eq_true] at hkeep
      exact isStackName_qualified hkeep.1

/-- The name of a renamed local variable is none of the stack. -/
theorem isStackName_unique {d : Declaration} {unique : String} (span : Span)
    (h : Lowering.isUnique d unique) : isStackName (Ident.fixed unique span).name = false := by
  obtain ⟨sigil, rest, hsplit⟩ := h.split
  change isStackName (Sigil.split unique).2 = false
  rw [hsplit]
  exact isStackName_underscore _

/-! ### References -/

/-- The number of variables in the frame of the function around. -/
def room : Option FunctionEntry → Nat
  | none => 0
  | some f => if f.fn.isTaskfunc then f.frame.length else 0

/-- What stands in the place of local variables is cells, or none of the stack. -/
def Substituted (k : Nat) (r : Lowering.Refs) : Prop :=
  ∀ b ∈ r.substitutions, b.2.Meets (cells k)

section References

variable {k : Nat} {r : Lowering.Refs}

theorem meets_refs_varRef (hr : Substituted k r) {i : Ident} {es : List Expr} {span : Span}
    (hi : isStackName i.name = false) (hes : exprsMeet (cells k) es) :
    (r.varRef i es span).Meets (cells k) := by
  have hname : isStackName (r.qualify i).name = false := isStackName_qualify hi
  unfold Lowering.Refs.varRef
  dsimp only
  split
  · next v hv =>
    have hmeets : v.Meets (cells k) := hr (_, v) (mem_of_lookup hv)
    exact ⟨cells_var (fun h => h) hmeets.1, exprsMeet_append.mpr ⟨hes, hmeets.2⟩⟩
  · refine ⟨fun hstack => ?_, hes⟩
    rw [show isStackName (r.qualify i).name = true from hstack] at hname
    cases hname

mutual

/-- **An expression that leaves the stack alone, resolved.** -/
theorem meets_lowering_expr (hr : Substituted k r) :
    ∀ e : Expr, e.Meets reserved → (Lowering.expr r e).Meets (cells k)
  | .binary _ left right _, .inr ⟨_, hl, hright⟩ =>
    .inr ⟨trivial, meets_lowering_expr hr left hl, meets_lowering_expr hr right hright⟩
  | .unary _ operand _, ⟨_, ho⟩ => ⟨trivial, meets_lowering_expr hr operand ho⟩
  | .var _ subscripts _, ⟨hi, hs⟩ =>
    meets_refs_varRef hr hi (meets_lowering_exprs hr subscripts hs)
  | .call _ args _ _ _, ⟨_, ha⟩ =>
    ⟨trivial, argsMeet_false.mpr (meets_lowering_arguments hr args (argsMeet_false.mp ha))⟩
  | .int _ _, _ | .real _ _, _ | .str _ _, _ | .bool _ _, _ | .raw _ _, _ => trivial

theorem meets_lowering_exprs (hr : Substituted k r) :
    ∀ es : List Expr, exprsMeet reserved es → exprsMeet (cells k) (Lowering.exprs r es)
  | [], _ => trivial
  | e :: es, ⟨he, hes⟩ => ⟨meets_lowering_expr hr e he, meets_lowering_exprs hr es hes⟩

theorem meets_lowering_arguments (hr : Substituted k r) {keepFirst : Bool} :
    ∀ es : List Expr, exprsMeet reserved es →
      exprsMeet (cells k) (Lowering.arguments r keepFirst es)
  | [], _ => trivial
  | e :: es, ⟨he, hes⟩ => by
    refine ⟨?_, meets_lowering_exprs hr es hes⟩
    split
    · exact he.imp (reserved_impliesExpr k)
    · exact meets_lowering_expr hr e he

end

end References

/-! ### The scheme -/

/-- What is known of a function while its body is lowered. -/
structure Prepared (f : FunctionEntry) : Prop where
  reserved : Reserved f.fn
  substitutions : ∀ b ∈ f.substitutions, b.2.Meets (cells (room (some f)))
  hoisted : f.fn.isTaskfunc = false → stmtsMeet (cells 0) (f.globals ++ f.locals)

/-- **What is known of a function in the table**: its body refers to the cells of its frame only.
The declarations that move out of it refer to no cells, unless it is a task function. -/
structure Kept (e : FunctionEntry) : Prop where
  reserved : Reserved e.fn
  body : stmtsMeet (cells (room (some e))) e.fn.body
  hoisted : e.fn.isTaskfunc = false → stmtsMeet (cells 0) (e.globals ++ e.locals)

/-- The condition on the function around a statement. -/
def PreparedIn : Option FunctionEntry → Prop
  | none => True
  | some f => Prepared f

theorem PreparedIn.substituted {env : Env} {w : List String} {c : Option FunctionEntry}
    (h : PreparedIn c) : Substituted (room c) (Lowering.refsOf env w c) := by
  cases c with
  | none => exact fun b hb => by cases hb
  | some f => exact h.substitutions

theorem Prepared.meets_lowered {f : FunctionEntry} (hf : Prepared f) (env : Env)
    (w families : List String) {d : Declaration} (hd : d.Meets Stack.reserved) :
    (Lowering.lowered (Lowering.refsOf env w (some f)) families d).Meets
      (cells (room (some f))) :=
  Lowering.meets_lowered_of (meets_lowering_expr (PreparedIn.substituted (c := some f) hf)) hd

/-- A local variable that lives in the frame. -/
theorem prepared_addFrameLocal {f : FunctionEntry} (hf : Prepared f)
    (htask : f.fn.isTaskfunc = true) {d : Declaration} (hd : d.Meets (cells (room (some f))))
    (localNames : List String) (span : Span) (trace : List Span) :
    let r := Lowering.addFrameLocal { f with localNames } d span trace
    Prepared r.2 ∧ stmtsMeet (cells (room (some r.2))) r.1 := by
  intro r
  have hroom : room (some f) = f.frame.length := by simp [room, htask]
  have hroom' : room (some r.2) = f.frame.length + 1 := by
    simp [r, room, Lowering.addFrameLocal, htask]
  have hgrow := cells_mono (Nat.le_succ f.frame.length)
  have htarget : (Frame.slot Frame.framePointer .add (f.frame.length + 1) d.name.span).Meets
      (cells (f.frame.length + 1)) := meets_slot (by omega) (Nat.le_refl _) _
  have hd' : d.Meets (cells (f.frame.length + 1)) := (hroom ▸ hd).mono hgrow
  refine ⟨⟨hf.reserved, ?_, fun hfalse => ?_⟩, ?_⟩
  · intro b hb
    rw [hroom']
    rcases List.mem_cons.mp hb with rfl | hb
    · exact htarget
    · exact Expr.Meets.mono hgrow (hroom ▸ hf.substitutions b hb)
  · rw [show r.2.fn.isTaskfunc = true from htask] at hfalse
    cases hfalse
  · rw [hroom']
    exact (Lowering.meets_splitInit (fun _ _ => trivial) htarget hd' span trace).1

/-- A local variable with a name of its own. -/
theorem prepared_addRenamedLocal {f : FunctionEntry} (hf : Prepared f) {d : Declaration}
    (hd : d.Meets (cells (room (some f)))) {unique : String} (hunique : Lowering.isUnique d unique)
    (localNames : List String) (span : Span) (trace : List Span) :
    let r := Lowering.addRenamedLocal { f with localNames } unique d span trace
    Prepared r.2 ∧ stmtsMeet (cells (room (some r.2))) r.1 := by
  intro r
  have hname := isStackName_unique d.name.span hunique
  have htarget : ∀ k, (VarRef.plain (.fixed unique d.name.span)).Meets (cells k) := by
    intro k
    refine ⟨fun hstack => ?_, trivial⟩
    rw [show isStackName (Ident.fixed unique d.name.span).name = true from hstack] at hname
    cases hname
  have hd' : ({ d.withoutModifier "local" with name := .fixed unique d.name.span } :
      Declaration).Meets (cells (room (some f))) := hd
  have hsplit := Lowering.meets_splitInit (fun _ _ => trivial) (htarget _) hd' span trace
  refine ⟨⟨hf.reserved, ?_, fun hfalse => ?_⟩, hsplit.1⟩
  · intro b hb
    rcases List.mem_cons.mp hb with rfl | hb
    · exact htarget _
    · exact hf.substitutions b hb
  · have hroom : room (some f) = 0 := by
      have hfalse' : f.fn.isTaskfunc = false := hfalse
      simp [room, hfalse']
    have hold := stmtsMeet_append.mp (hf.hoisted hfalse)
    change stmtsMeet (cells 0) (f.globals ++ (f.locals ++ [_]))
    simp only [stmtsMeet_append]
    exact ⟨hold.1, hold.2, ⟨trivial, hroom ▸ hsplit.2⟩, trivial⟩

theorem isStackName_result : isStackName "result" = false := by decide

theorem isStackName_value_to_set : isStackName "value_to_set" = false := by decide

theorem reserved_synonymGetter {property : String} {indices : List Ident} {span : Span}
    (h : ∀ i ∈ indices, isStackName (Name.firstPart i.name) = false) :
    Reserved (Lowering.synonymGetter property indices span) := by
  intro key hkey
  simp only [Taskfunc.slotNames, Lowering.synonymGetter, List.map_map, Option.toList_some,
    List.map_append, List.mem_append, List.mem_map, List.map_cons, List.map_nil,
    List.mem_singleton] at hkey
  rcases hkey with ⟨i, hi, rfl⟩ | rfl
  · exact h i hi
  · change isStackName (Name.firstPart "result") = false
    decide

theorem reserved_synonymSetter {property : String} {indices : List Ident} {span : Span}
    (h : ∀ i ∈ indices, isStackName (Name.firstPart i.name) = false) :
    Reserved (Lowering.synonymSetter property indices span) := by
  intro key hkey
  simp only [Taskfunc.slotNames, Lowering.synonymSetter, List.map_map, Option.toList_none,
    List.append_nil, List.map_append, List.mem_append, List.mem_map, List.map_cons, List.map_nil,
    List.mem_singleton] at hkey
  rcases hkey with ⟨i, hi, rfl⟩ | rfl
  · exact h i hi
  · change isStackName (Name.firstPart "value_to_set") = false
    decide

/-- **Lowering keeps to the cells of frames.** -/
def lowering (env : Env) : Lowering.Scheme env where
  src := reserved
  dst c := cells (room c)
  good := PreparedIn
  entry := Kept
  header := Reserved
  families _ := True
  mono {c c'} h := by
    match c, c', h with
    | none, none, _ => exact cells_mono (Nat.le_refl _)
    | some f, some f', ⟨hfn, hframe⟩ =>
      refine cells_mono ?_
      simp only [room, hfn]
      split
      · exact hframe
      · exact Nat.le_refl 0
  list := trivial
  outside := trivial
  noFamilies := trivial
  expr hc he := meets_lowering_expr hc.substituted _ he
  call hc _ ha :=
    ⟨trivial, argsMeet_false.mpr
      (meets_lowering_arguments hc.substituted _ (argsMeet_false.mp ha))⟩
  binary := trivial
  atom h := h
  whole h := h
  step _ := trivial
  assign := trivial
  whileLoop := trivial
  ifOne := trivial
  ifNone _ := trivial
  select _ _ := trivial
  family _ _ := trivial
  declared _ _ _ := trivial
  promoted {f w fs d span trace} hf _ _ hd := by
    refine ⟨hf.reserved, hf.substitutions, fun hfalse => ?_⟩
    have hroom : room (some f) = 0 := by
      have hfalse' : f.fn.isTaskfunc = false := hfalse
      simp [room, hfalse']
    have hold := stmtsMeet_append.mp (hf.hoisted hfalse)
    have hmeets : (Lowering.lowered (Lowering.refsOf env w (some f)) fs d).Meets (cells 0) :=
      hroom ▸ hf.meets_lowered env w fs hd
    change stmtsMeet (cells 0) ((f.globals ++ [_]) ++ f.locals)
    simp only [stmtsMeet_append]
    exact ⟨⟨hold.1, ⟨trivial, hmeets⟩, trivial⟩, hold.2⟩
  framed {_ w fs _ span trace localNames} hf _ _ hd htask :=
    prepared_addFrameLocal hf htask (hf.meets_lowered env w fs hd) localNames span trace
  renamed {_ w fs _ span trace localNames _} hf _ _ hd hunique :=
    prepared_addRenamedLocal hf (hf.meets_lowered env w fs hd) hunique localNames span trace
  openFunction hf := ⟨hf, by simp [Lowering.opened], fun _ => trivial⟩
  closeFunction he hbody := ⟨he.reserved, hbody, he.hoisted⟩
  accessors _ h f hf := h f hf
  synonym _ h := ⟨reserved_synonymGetter h, reserved_synonymSetter h⟩
  result := ⟨isStackName_result, trivial⟩
  valueToSet := ⟨isStackName_value_to_set, trivial⟩

/-! ### Sigils -/

section Sigils

variable {env : Env} {p : Program} {scope : Scope} {k : Nat}

/-- A name that has a sigil keeps it. -/
theorem sigils_ident_fixed {i i' : Ident} {subscripted : Bool} (hi : i.sigil.isSome = true)
    (h : Sigils.ident env p scope i subscripted = .ok i') : i' = i := by
  unfold Sigils.ident Sigils.resolve at h
  split at h
  · next hnone => simp [hnone] at hi
  · split at h
    · cases h
      rfl
    · split at h <;> cases h

/-- The index of a cell stays as it is. -/
theorem IsOffset.sigils {op : BinaryOp} {left right e' : Expr} {span : Span}
    (h : IsOffset k op left right)
    (he : Sigils.expr env p scope (.binary op left right span) = .ok e') :
    e' = .binary op left right span := by
  cases h with
  | mk =>
    simp only [Sigils.expr, Frame.fixedVar, VarRef.plain, VarRef.toExpr, Sigils.exprs] at he
    obtain ⟨left', hleft, he⟩ := Except.bind_eq_ok.mp he
    obtain ⟨_, hnil, hleft⟩ := Except.bind_eq_ok.mp hleft
    cases hnil
    obtain ⟨i', hi', hleft⟩ := Except.bind_eq_ok.mp hleft
    cases hleft
    obtain ⟨right', hright, he⟩ := Except.bind_eq_ok.mp he
    cases hright
    cases he
    rw [sigils_ident_fixed rfl hi']
    rfl

theorem EndsInCell.sigils {es es' : List Expr} (h : EndsInCell k es)
    (hes : Sigils.exprs env p scope es = .ok es') : EndsInCell k es' := by
  obtain ⟨init, op, left, right, span, rfl, hoff⟩ := h
  induction init generalizing es' with
  | nil =>
    obtain ⟨e', rest, he', hrest, rfl⟩ := Sigils.exprs_eq_cons hes
    cases hrest
    rw [hoff.sigils he']
    exact ⟨[], op, left, right, span, rfl, hoff⟩
  | cons e init ih =>
    obtain ⟨e', rest, -, hrest, rfl⟩ := Sigils.exprs_eq_cons hes
    exact (ih hrest).append [e']

/-- Expressions keep to the cells of a frame when they get their sigils. -/
theorem cells_carries (env : Env) (p : Program) (scope : Scope) (k : Nat) :
    Sigils.Carries env p scope (cells k) (cells k) where
  atom hoff h := by
    rw [IsOffset.sigils hoff h]
    exact .inl hoff
  binary _ := trivial
  unary _ := trivial
  literal _ h := h
  var hi hes hj hstack := by
    rw [Sigils.ident_name hj] at hstack
    exact (hi hstack).sigils hes
  call _ := trivial
  skips h := h
  kept _ := .inr fun _ h => h

/-- Finding sigils keeps to the cells of frames. -/
theorem sigils_carries (env : Env) (p : Program) (k : Nat) :
    (Sigils.leafMap env p).Carries (cells k) (cells k) where
  expr _ he h := (cells_carries env p _ k).ofExpr _ he h
  target _ hv h := (cells_carries env p _ k).ofVarRef hv h
  call _ _ ha h := by
    obtain ⟨args, hargs, rfl⟩ := Sigils.call_eq_ok h
    exact ⟨trivial, (cells_carries env p _ k).ofArguments _ ha hargs⟩
  assign _ _ _ := trivial
  whole _ h _ _ := h.elim
  accessors _ _ _ := trivial
  reshape _ _ := trivial
  list _ _ := trivial

theorem Kept.sigils {e e' : FunctionEntry} (he : Kept e) (h : Sigils.entry env p e = .ok e') :
    Kept e' ∧ e'.name = e.name := by
  obtain ⟨body, globals, locals, hbody, hglobals, hlocals, rfl⟩ := Sigils.entry_eq_ok h
  refine ⟨⟨he.reserved, (sigils_carries env p _).stmts trivial _ he.body hbody, fun htask => ?_⟩, rfl⟩
  have hold := stmtsMeet_append.mp (he.hoisted htask)
  exact stmtsMeet_append.mpr ⟨(sigils_carries env p 0).stmts trivial _ hold.1 hglobals,
    (sigils_carries env p 0).stmts trivial _ hold.2 hlocals⟩

end Sigils

end FlatScript.Stack
