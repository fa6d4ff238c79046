import FlatScript.Proofs.Outcome
import FlatScript.Sigils

/-!
# The table of functions, while sigils are found

The functions of the table get their sigils one after the other, and the statements of the one at
hand are out of the table meanwhile. That makes no difference to what is found, since references
are looked up by names and not in statements, and the table keeps its length, so the loop over it
finds a function at every place.

* `FlatScript.Sigils.SameNames` holds of programs that know the same names, and by
  `FlatScript.Sigils.entry_sameNames` the same sigils are found in both.
* `FlatScript.Sigils.script_run_eq`: finding sigils is finding them function by function, in the
  program as it was.
-/

namespace FlatScript

variable {p p' : Program}

namespace Program

theorem isUserFunction_iff : p.isUserFunction name = true ↔
    name ∈ p.functions.map FunctionEntry.name := by
  simp only [Program.isUserFunction, List.any_eq_true, beq_iff_eq, List.mem_map]

/-- Whether a function is in the table depends only on names. -/
theorem isUserFunction_congr
    (h : p'.functions.map FunctionEntry.name = p.functions.map FunctionEntry.name) (name : String) :
    p'.isUserFunction name = p.isUserFunction name := by
  rw [Bool.eq_iff_iff, isUserFunction_iff, isUserFunction_iff, h]

end Program

namespace Sigils

variable {env : Env} {scope : Scope}

/-- Programs that know the same names: the declared ones, and those of functions. -/
structure SameNames (p p' : Program) : Prop where
  symbols : p'.symbols = p.symbols
  functions : p'.functions.map FunctionEntry.name = p.functions.map FunctionEntry.name

namespace SameNames

theorem refl (p : Program) : SameNames p p := ⟨rfl, rfl⟩

theorem trans {p'' : Program} (h : SameNames p p') (h' : SameNames p' p'') : SameNames p p'' :=
  ⟨h'.symbols.trans h.symbols, h'.functions.trans h.functions⟩

/-- The statements of a function of the table are no names. -/
theorem set_withStmts {i : Nat} {e : FunctionEntry} (he : p.functions[i]? = some e)
    (body globals locals : List Stmt) :
    SameNames p { p with functions := p.functions.set i (withStmts e body globals locals) } := by
  refine ⟨rfl, ?_⟩
  have hname : (withStmts e body globals locals).name = e.name := rfl
  have hmap : (p.functions.map FunctionEntry.name)[i]? = some e.name := by
    rw [List.getElem?_map, he]
    rfl
  obtain ⟨hlt, hget⟩ := List.getElem?_eq_some_iff.mp hmap
  rw [List.map_set, hname, ← hget, List.set_getElem_self]

end SameNames

/-- What is found depends only on names. -/
theorem resolve_sameNames (hp : SameNames p p') (b : Builtins) (params : List String) (i : Ident)
    (subscripted : Bool) :
    resolve b p' params i subscripted = resolve b p params i subscripted := by
  have huser := Program.isUserFunction_congr hp.functions i.name
  unfold resolve isSigilFree candidates isDeclared
  rw [hp.symbols, huser]

theorem ident_sameNames (hp : SameNames p p') (i : Ident) (subscripted : Bool) :
    ident env p' scope i subscripted = ident env p scope i subscripted := by
  rw [ident, ident, resolve_sameNames hp]

mutual

theorem expr_sameNames (hp : SameNames p p') :
    ∀ e : Expr, expr env p' scope e = expr env p scope e
  | .binary _ left right _ => by rw [expr, expr, expr_sameNames hp left, expr_sameNames hp right]
  | .unary _ operand _ => by rw [expr, expr, expr_sameNames hp operand]
  | .var _ subscripts _ => by
    rw [expr, expr, exprs_sameNames hp subscripts]
    simp only [ident_sameNames hp]
  | .call _ args _ _ _ => by rw [expr, expr, arguments_sameNames hp args]
  | .int _ _ | .real _ _ | .str _ _ | .bool _ _ | .raw _ _ => rfl
termination_by structural e => e

theorem exprs_sameNames (hp : SameNames p p') :
    ∀ es : List Expr, exprs env p' scope es = exprs env p scope es
  | [] => rfl
  | e :: es => by rw [exprs, exprs, expr_sameNames hp e, exprs_sameNames hp es]
termination_by structural es => es

theorem arguments_sameNames (hp : SameNames p p') {keepFirst : Bool} :
    ∀ es : List Expr, arguments env p' scope keepFirst es = arguments env p scope keepFirst es
  | [] => rfl
  | e :: es => by rw [arguments, arguments, expr_sameNames hp e, exprs_sameNames hp es]
termination_by structural es => es

end

theorem leafMap_sameNames (hp : SameNames p p') : leafMap env p' = leafMap env p := by
  have htarget : ∀ scope v, varRef env p' scope v = varRef env p scope v := fun scope v => by
    simp only [varRef, exprs_sameNames hp, ident_sameNames hp]
  have hcall : ∀ scope c, call env p' scope c = call env p scope c := fun scope c => by
    rw [call, call, arguments_sameNames hp]
  unfold leafMap
  congr 1
  · funext scope e
    exact expr_sameNames hp e
  · funext scope v
    exact htarget scope v
  · funext scope c
    exact hcall scope c

/-- **The same sigils are found in a function** where the same names are known. -/
theorem entry_sameNames (hp : SameNames p p') (e : FunctionEntry) :
    entry env p' e = entry env p e := by
  rw [entry, entry, leafMap_sameNames hp]

/-! ### Function by function -/

/-- What a function with its sigils is made of. -/
theorem entry_eq_ok {e e' : FunctionEntry} (h : entry env p e = .ok e') :
    ∃ body globals locals, mapLeavesStmts (leafMap env p) e.fn.paramNames e.fn.body = .ok body ∧
      mapLeavesStmts (leafMap env p) e.fn.paramNames e.globals = .ok globals ∧
      mapLeavesStmts (leafMap env p) e.fn.paramNames e.locals = .ok locals ∧
      e' = { e with fn := { e.fn with body }, globals, locals } := by
  obtain ⟨body, hbody, h⟩ := Except.bind_eq_ok.mp h
  obtain ⟨globals, hglobals, h⟩ := Except.bind_eq_ok.mp h
  obtain ⟨locals, hlocals, h⟩ := Except.bind_eq_ok.mp h
  cases h
  exact ⟨body, globals, locals, hbody, hglobals, hlocals, rfl⟩

/-- **The functions behind those that are done**, one after the other. No place of the table is
without a function. -/
theorem entries_run (env : Env) (es : List FunctionEntry) : ∀ (done : List FunctionEntry)
    (p : Program), p.functions = done ++ es →
      (entries env done.length es.length).run p =
        (es.mapM (entry env p) >>= fun es' => pure ((), { p with functions := done ++ es' })) := by
  induction es with
  | nil =>
    intro done p hp
    rw [List.append_nil] at hp
    simp [entries, ← hp]
  | cons e es ih =>
    intro done p hp
    have hat : ∀ e, (done ++ e :: es)[done.length]? = some e := fun e => by simp
    have hset : ∀ e e', (done ++ e :: es).set done.length e' = done ++ e' :: es :=
      fun e e' => by simp
    have hfound : p.functions[done.length]? = some e := by rw [hp, hat]
    have hempty := SameNames.set_withStmts hfound [] [] []
    simp only [List.length_cons, entries, StateT.run_bind, StateT.run_get, pure_bind, hfound,
      StateT.run_modify, entry_sameNames hempty, List.mapM_cons]
    cases hentry : entry env p e with
    | error fault => rfl
    | ok e' =>
      obtain ⟨body, globals, locals, -, -, -, he'⟩ := entry_eq_ok hentry
      have hsame : SameNames p { p with functions := done ++ e' :: es } := by
        have hset' := SameNames.set_withStmts hfound body globals locals
        rw [hp, hset] at hset'
        rwa [he']
      have hagain : entry env { p with functions := done ++ e' :: es } = entry env p :=
        funext (entry_sameNames hsame)
      have hrest := ih (done ++ [e']) { p with functions := done ++ e' :: es } (by simp)
      simp only [List.length_append, List.length_singleton, List.append_assoc,
        List.singleton_append, hagain] at hrest
      -- The statements that are found are put back to where they were taken from.
      have hback : withStmts (withStmts e [] [] []) e'.fn.body e'.globals e'.locals = e' := by
        rw [he']
        rfl
      have hlift : ∀ q : Program, (liftM (Except.ok e' : Except CompileError FunctionEntry) :
          Compile FunctionEntry).run q = pure (e', q) := fun _ => rfl
      simp only [hlift, pure_bind, hp, hset, hat, StateT.run_bind, StateT.run_modify, hback, hrest]
      cases es.mapM (entry env p) <;> rfl

/-- **Finding sigils**, function by function, in the program as it was. -/
theorem script_run_eq (env : Env) (s : Script) (p : Program) :
    (script env s).run p =
      (s.mapLeaves (leafMap env p) fun i => ident env p ⟨[], []⟩ i false) >>= fun s' =>
        p.functions.mapM (entry env p) >>= fun functions => pure (s', { p with functions }) := by
  have hentries := entries_run env p.functions [] p rfl
  unfold script
  simp only [StateT.run_bind, StateT.run_get, pure_bind]
  cases s.mapLeaves (leafMap env p) fun i => ident env p ⟨[], []⟩ i false with
  | error e => rfl
  | ok s' =>
    change ((entries env 0 p.functions.length).run p >>= fun r => pure (s', r.2)) = _
    rw [show (0 : Nat) = ([] : List FunctionEntry).length from rfl, hentries]
    cases p.functions.mapM (entry env p) <;> rfl

end Sigils

end FlatScript
