import FlatScript.Proofs.Inlining.Whole
import Mathlib.Data.List.Perm.Subperm

/-!
# How deep copies nest

Expansion counts the nesting of copies down from a bound and gives up at the end. It never
gets there: a function that is being copied is not copied again, so the functions on the
stack are all different, and the declarations of a function are taken away once. The measure
is `FlatScript.Inlining.spare`, the number of functions that are not on the stack and of
those that still have declarations.

What happens below the bound, or at a stack that holds a function twice, does therefore not
matter: `FlatScript.Inlining.watched` does anything one likes there, and
`FlatScript.Inlining.scriptBy_watched` says that it comes to the same on every script.
-/

namespace FlatScript.Inlining

/-! ### The measure -/

/-- **How much deeper copies can nest**, at a stack of functions that are being copied. -/
def spare (p : Program) (stack : List String) : Nat :=
  (p.functions.length - stack.length) + p.functions.countP FunctionEntry.hasDecls

/-- A stack of different functions of the table. -/
structure StackOf (p : Program) (stack : List String) : Prop where
  nodup : stack.Nodup
  known : ∀ name ∈ stack, name ∈ p.functions.map FunctionEntry.name

theorem StackOf.length_le {p : Program} {stack : List String} (h : StackOf p stack) :
    stack.length ≤ p.functions.length := by
  have hle := (List.Nodup.subperm h.nodup h.known).length_le
  simpa using hle

theorem countP_hasDecls_le {es es' : List FunctionEntry}
    (h : List.Forall₂ FunctionEntry.Grows es es') :
    es'.countP FunctionEntry.hasDecls ≤ es.countP FunctionEntry.hasDecls := by
  induction h with
  | nil => exact Nat.le_refl _
  | cons he _ ih =>
    simp only [List.countP_cons]
    have himp := he.hasDecls
    split
    · next h' => rw [if_pos (himp h')]; omega
    · omega

variable {p p' : Program} {stack : List String} {name : String}

/-- Copies do not get to nest deeper while the program grows. -/
theorem spare_grows (h : p.Grows p') (stack : List String) : spare p' stack ≤ spare p stack := by
  have hlen : p'.functions.length = p.functions.length := h.functions.length_eq.symm
  have hcount := countP_hasDecls_le h.functions
  simp only [spare, hlen]
  omega

theorem StackOf.grows (h : StackOf p stack) (hp : p.Grows p') : StackOf p' stack :=
  ⟨h.nodup, fun name hname => hp.names ▸ h.known name hname⟩

theorem mem_names_of_function? {e : FunctionEntry} (h : p.function? name = some e) :
    name ∈ p.functions.map FunctionEntry.name := by
  obtain ⟨hmem, hname⟩ := Program.mem_functions_of_function? h
  exact List.mem_map.mpr ⟨e, hmem, hname⟩

/-- One more function on the stack. -/
theorem StackOf.push {e : FunctionEntry} (h : StackOf p stack) (he : p.function? name = some e)
    (hname : name ∉ stack) : StackOf p (stack ++ [name]) := by
  refine ⟨?_, ?_⟩
  · rw [List.nodup_append]
    refine ⟨h.nodup, by simp, ?_⟩
    rintro a ha b hb rfl
    exact hname (List.mem_singleton.mp hb ▸ ha)
  · intro n hn
    rcases List.mem_append.mp hn with hn | hn
    · exact h.known n hn
    · rw [List.mem_singleton.mp hn]
      exact mem_names_of_function? he

/-- A function that is put on the stack uses up some of the measure. -/
theorem spare_push {e : FunctionEntry} (h : StackOf p stack) (he : p.function? name = some e)
    (hname : name ∉ stack) : spare p (stack ++ [name]) < spare p stack := by
  have hle := (h.push he hname).length_le
  simp only [List.length_append, List.length_singleton] at hle
  simp only [spare, List.length_append, List.length_singleton]
  omega

theorem countP_drained_lt {es : List FunctionEntry} {e : FunctionEntry} (hmem : e ∈ es)
    (hname : e.name = name) (hdecls : e.hasDecls = true) :
    (es.map fun x => if x.name == name then { x with globals := [], locals := [] } else x).countP
      FunctionEntry.hasDecls < es.countP FunctionEntry.hasDecls := by
  induction es with
  | nil => cases hmem
  | cons x es ih =>
    have hle : (es.map fun x => if x.name == name then
        { x with globals := [], locals := [] } else x).countP FunctionEntry.hasDecls ≤
        es.countP FunctionEntry.hasDecls := by
      refine countP_hasDecls_le ?_
      rw [List.forall₂_map_right_iff, List.forall₂_same]
      intro y _
      split
      · exact ⟨rfl, .inr ⟨rfl, rfl⟩, rfl⟩
      · exact .refl y
    simp only [List.map_cons, List.countP_cons]
    rcases List.mem_cons.mp hmem with rfl | hmem
    · have hnone : FunctionEntry.hasDecls { e with globals := [], locals := [] } = false := rfl
      simp only [hname, beq_self_eq_true, if_true, hnone, hdecls, Bool.false_eq_true, if_false]
      omega
    · have hlt := ih hmem
      split
      · have hnone : FunctionEntry.hasDecls { x with globals := [], locals := [] } = false := rfl
        simp only [hnone, Bool.false_eq_true, if_false]
        omega
      · omega

/-- Declarations that are taken away use up some of the measure. -/
theorem spare_drained {e : FunctionEntry} (he : p.function? name = some e)
    (hdecls : e.globals ++ e.locals ≠ []) (stack : List String) :
    spare (p.drained name) stack < spare p stack := by
  obtain ⟨hmem, hname⟩ := Program.mem_functions_of_function? he
  have hlt := countP_drained_lt hmem hname (by simpa [FunctionEntry.hasDecls] using hdecls)
  simp only [spare, Program.drained, Program.updateFunction, List.length_map]
  omega

/-! ### Watching the stack -/

/-- Statements, expanded by `ex`, unless the stack holds a function twice; then `other`. -/
def guarded (other ex : Expander) : Expander := fun at' body =>
  if at'.stack.Nodup then ex at' body else other at' body

/-- Statements, expanded with copies nested at most `n` deep; where the copies nest deeper, or
the stack holds a function twice, `other` takes over. -/
def levels (env : Env) (other : Expander) : Nat → Expander
  | 0 => guarded other (stmts env other)
  | n + 1 => guarded other (stmts env (levels env other n))

/-- **Expansion with a watch on the stack**: where it holds a function twice, or the copies
nest deeper than the bound, `other` takes over. -/
def watched (env : Env) (other : Expander) : Expander := fun at' body => do
  levels env other (depthBound (← get)) at' body

/-- The scheme that follows the stack only: the copies below a place nest less deep. -/
def stackScheme (env : Env) (p₀ : Program) (t : Top) (stack : List String) (n : Nat)
    (hstack : StackOf p₀ stack) (hn : spare p₀ stack ≤ n) : Scheme env p₀ where
  src _ := .trivial
  dst _ _ := .trivial
  site _ _ _ _ := True
  here t' stack' := t' = t ∧ stack' = stack
  ready at' body p := 0 < n ∧ at'.stack.Nodup ∧
    (body = [] ∨ (StackOf p at'.stack ∧ spare p at'.stack < n))
  mono _ := .refl _
  skips := Rule.trivial_skips _
  back h := h
  raw _ h := .inr h
  atom h := h.elim
  binary _ := trivial
  unary _ := trivial
  var _ _ _ := trivial
  literal _ _ := trivial
  builtin _ _ _ _ _ := trivial
  builtinStmt _ _ _ _ _ := ⟨trivial, fun _ _ => trivial⟩
  siteOfCall _ := trivial
  siteOfStmt _ := trivial
  siteOfName _ _ := trivial
  siteOfGetter _ _ _ := trivial
  siteOfSetter _ _ _ := trivial
  nil := trivial
  append _ _ := trivial
  assign _ _ := ⟨trivial, fun _ _ => trivial⟩
  noWhole h := h
  reshape _ _ := ⟨trivial, fun _ _ => trivial⟩
  kept _ _ _ _ _ _ _ := ⟨trivial, fun _ _ => trivial⟩
  stored _ _ _ _ := Stmt.meets_trivial _
  loaded _ _ _ _ := Stmt.meets_trivial _
  single _ := Expr.meets_trivial _
  taskfunc _ _ _ _ _ _ _ _ _ _ := ⟨trivial, trivial⟩
  readyNil := by
    rintro p t' stack' trace name e hp ⟨rfl, rfl⟩ he hname
    have hlt := spare_push (hstack.grows hp) he hname
    have hle := spare_grows hp stack'
    exact ⟨by omega, hstack.nodup, .inl rfl⟩
  readyDecls := by
    rintro p t' stack' trace name e hp ⟨rfl, rfl⟩ he - hname -
    have hlt := spare_push (hstack.grows hp) he hname
    have hle := spare_grows hp stack'
    refine ⟨by omega, hstack.nodup, ?_⟩
    by_cases hdecls : e.globals ++ e.locals = []
    · exact .inl hdecls
    · have hdrained := spare_drained he hdecls stack'
      exact .inr ⟨hstack.grows (hp.trans (p.grows_drained name)),
        Nat.lt_of_lt_of_le hdrained (Nat.le_trans hle hn)⟩
  readyBody := by
    rintro p t' stack' trace name e s span body hp ⟨rfl, rfl⟩ he - hname - - -
    have hlt := spare_push (hstack.grows hp) he hname
    have hle := spare_grows hp stack'
    have hpush := (hstack.grows hp).push he hname
    exact ⟨by omega, hpush.nodup, .inr ⟨hpush, Nat.lt_of_lt_of_le hlt (Nat.le_trans hle hn)⟩⟩

/-- **Watching the stack changes nothing** where the measure is within the bound. -/
theorem expandAt_runs_levels (env : Env) (other : Expander) (n : Nat) :
    ∀ (p : Program) (at' : Place) (body : List Stmt), StackOf p at'.stack →
      spare p at'.stack ≤ n →
      Runs (expandAt env n at' body) (levels env other n at' body) p fun _ _ => True := by
  induction n with
  | zero =>
    intro p at' body hstack hn
    simp only [expandAt, levels, guarded, if_pos hstack.nodup]
    have htreats : (stackScheme env p at'.top at'.stack 0 hstack hn).Treats
        (fun _ _ => throw (.internal "functions nested too deeply")) other := by
      rintro _ _ _ _ ⟨hlt, -⟩
      exact absurd hlt (Nat.lt_irrefl 0)
    exact (Scheme.stmts_runs htreats ⟨rfl, rfl⟩ body (stmtsMeet_trivial body) p (.refl p)).imp
      fun _ _ _ _ => trivial
  | succ n ih =>
    intro p at' body hstack hn
    simp only [expandAt, levels, guarded, if_pos hstack.nodup]
    have htreats : (stackScheme env p at'.top at'.stack (n + 1) hstack hn).Treats
        (expandAt env n) (levels env other n) := by
      rintro at'' body' q - ⟨-, hnodup, rfl | ⟨hstack', hlt⟩⟩
      · -- Nothing is copied, so the level does not matter.
        have hnil : ∀ m, expandAt env m at'' [] = pure [] := fun m => by cases m <;> rfl
        have hnil' : ∀ m, levels env other m at'' [] = pure [] := fun m => by
          cases m <;> simp only [levels, guarded, if_pos hnodup] <;> rfl
        rw [hnil, hnil']
        exact .ret ⟨trivial, trivial⟩
      · exact (ih q at'' body' hstack' (by omega)).imp fun ss _ _ _ =>
          ⟨trivial, stmtsMeet_trivial ss⟩
    exact (Scheme.stmts_runs htreats ⟨rfl, rfl⟩ body (stmtsMeet_trivial body) p (.refl p)).imp
      fun _ _ _ _ => trivial

/-- The bound is never reached. -/
theorem spare_le_depthBound (p : Program) (stack : List String) :
    spare p stack ≤ depthBound p := by
  have hcount : p.functions.countP FunctionEntry.hasDecls ≤ p.functions.length :=
    List.countP_le_length
  simp only [spare, depthBound]
  omega

theorem expand_runs_watched (env : Env) (other : Expander) {p : Program} {at' : Place}
    (hstack : StackOf p at'.stack) (body : List Stmt) :
    Runs (expand env at' body) (watched env other at' body) p fun _ _ => True :=
  .get_bind (expandAt_runs_levels env other _ p at' body hstack (spare_le_depthBound p _))

/-- **Expansion never copies a function into itself, and ends**: what is done where the stack
holds a function twice, or where the copies nest deeper than the bound, does not matter. -/
theorem scriptBy_watched (env : Env) (other : Expander) (s : Script) :
    scriptBy (watched env other) s = script env s := by
  funext p
  have hnil : StackOf p [] := ⟨List.nodup_nil, by simp⟩
  let S := stackScheme env p (.callback false) [] _ hnil (spare_le_depthBound p [])
  have hstarts : S.Starts (expand env) (watched env other) s.blocks := by
    refine ⟨fun c _ q hq => ?_, fun e he _ q hq => ?_⟩
    · exact (expand_runs_watched env other (hnil.grows hq) c.body).imp
        fun ss _ _ _ => ⟨trivial, stmtsMeet_trivial ss⟩
    · have hone : StackOf p [e.name] := by
        refine ⟨by simp, fun name hname => ?_⟩
        rw [List.mem_singleton.mp hname]
        exact List.mem_map_of_mem he
      exact (expand_runs_watched env other (hone.grows hq) e.fn.body).imp
        fun ss _ _ _ => ⟨trivial, stmtsMeet_trivial ss⟩
  exact (Scheme.scriptBy_congr hstarts).symm

end FlatScript.Inlining
