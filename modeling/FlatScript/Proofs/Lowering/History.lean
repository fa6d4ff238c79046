import FlatScript.Proofs.Lowering.Ledger

/-!
# Histories of lowering

What lowering does to the variables and the functions, step by step: a variable is declared, a
local variable is stored under a name of its own, and a function gives way to another one. A
`FlatScript.Lowering.History` is the sequence of these steps, each of them from the state that the
one before has left, in the order of the source. Every script that is lowered has one, by
`FlatScript.Lowering.script_history`, and what depends on the order of declarations is told by it.
-/

namespace FlatScript.Lowering

/-- **What happens to the variables** while a script is lowered. -/
inductive Event where
  /-- A variable is declared under its own name, in a callback or as a global one of a function. -/
  | declared (i : Ident)
  /-- A local variable of the given name is stored under a name of its own. -/
  | stored (name : String) (i : Ident)
  /-- A function gives way to another one of its name. -/
  | replaced (e : FunctionEntry)

/-- The functions that have given way. -/
def replacedIn (log : List Event) : List FunctionEntry :=
  log.filterMap fun
    | .replaced e => some e
    | _ => none

@[simp] theorem mem_replacedIn {log : List Event} {e : FunctionEntry} :
    e ∈ replacedIn log ↔ .replaced e ∈ log := by
  simp only [replacedIn, List.mem_filterMap]
  constructor
  · rintro ⟨event, hevent, h⟩
    cases event <;> cases h
    exact hevent
  · exact fun h => ⟨_, h, rfl⟩

@[simp] theorem replacedIn_append (log log' : List Event) :
    replacedIn (log ++ log') = replacedIn log ++ replacedIn log' :=
  List.filterMap_append ..

@[simp] theorem replacedIn_map (es : List FunctionEntry) : replacedIn (es.map .replaced) = es := by
  induction es with
  | nil => rfl
  | cons e es ih => exact congrArg (e :: ·) ih

/-- **A piece of the source is lowered**, from one state to another. It has the given footprint and
leaves statements that declare `out`; what happens meanwhile is in the log, in that order. -/
inductive History (env : Env) :
    State → State → Footprint → List Ident → List Event → Prop
  | refl (s : State) (x : Footprint) : History env s s x [] []
  | trans {s s₁ s₂ x x' out out' log log'} (h : History env s s₁ x out log)
    (h' : History env s₁ s₂ x' out' log') :
    History env s s₂ (x ++ x') (out ++ out') (log ++ log')
  /-- A family or a property becomes known. -/
  | symbols {p : Program} {symbols : Symbols} {c : Option FunctionEntry}
    (hvars : symbols.vars = p.symbols.vars)
    (hproperties : p.symbols.properties ⊆ symbols.properties) :
    History env ⟨p, c⟩ ⟨{ p with symbols }, c⟩ {} [] []
  /-- A declaration in a callback. -/
  | declared {p : Program} {isUi : Bool} {d : Declaration} (hd : d.name.sigil.isSome = true) :
    History env ⟨p, none⟩ ⟨withVariable p d.name.full isUi, none⟩ ⟨[], [d.name.name]⟩ [d.name]
      [.declared d.name]
  /-- A declaration of a global variable in a function. -/
  | promoted {p : Program} {f : FunctionEntry} {isUi : Bool} {span : Span} {trace : List Span}
    {d : Declaration} (hd : d.name.sigil.isSome = true) :
    History env ⟨p, some f⟩ ⟨withVariable p d.name.full isUi,
      some { f with globals := f.globals ++ [⟨.declare d, span, trace⟩] }⟩ ⟨[], [d.name.name]⟩ []
      [.declared d.name]
  /-- A declaration of a cell of the frame. -/
  | framed {p : Program} {f : FunctionEntry} {localNames : List String} {d : Declaration}
    {span : Span} {trace : List Span} :
    History env ⟨p, some f⟩ ⟨p, some (addFrameLocal { f with localNames } d span trace).2⟩
      ⟨[], [d.name.name]⟩ [] []
  /-- A declaration of a local variable that gets a name of its own. -/
  | renamed {p : Program} {f : FunctionEntry} {localNames : List String} {d : Declaration}
    {isUi : Bool} {span : Span} {trace : List Span} :
    History env ⟨p, some f⟩ ⟨withVariable p (storageName p d) isUi,
      some (addRenamedLocal { f with localNames } (storageName p d) d span trace).2⟩
      ⟨[], [d.name.name]⟩ [] [.stored d.name.name (.fixed (storageName p d) d.name.span)]
  /-- A function is entered once its body has been lowered, and the one of its name gives way. -/
  | function {s : State} {f : FunctionDef} {p : Program} {e : FunctionEntry} {body : List Stmt}
    {x : Footprint} {log : List Event} (hfn : e.fn = (opened env f).fn)
    (h : History env ⟨s.program, some (opened env f)⟩ ⟨p, some e⟩ x [] log) :
    History env s ⟨enter p { e with fn := { e.fn with body } }, s.current⟩
      (x.close (tableName env f)) [] (log ++ (p.function? e.name).toList.map .replaced)

/-- The ledger of histories. -/
def histories (env : Env) : Ledger env where
  rel s s' x out := ∃ log, History env s s' x out log
  refl s x := ⟨_, .refl s x⟩
  trans := by
    rintro _ _ _ _ _ _ _ ⟨log, h⟩ ⟨log', h'⟩
    exact ⟨_, h.trans h'⟩
  symbols hvars hproperties := ⟨_, .symbols hvars hproperties⟩
  declared hd := ⟨_, .declared hd⟩
  promoted hd := ⟨_, .promoted hd⟩
  framed := ⟨_, .framed⟩
  renamed := ⟨_, .renamed⟩
  function := by
    rintro _ _ _ _ _ _ hfn ⟨log, h⟩
    exact ⟨_, .function hfn h⟩

theorem History.writtenNames {env : Env} {s s' : State} {x : Footprint} {out : List Ident}
    {log : List Event} (h : History env s s' x out log) :
    s'.program.writtenNames = s.program.writtenNames := by
  induction h with
  | trans _ _ ih ih' => exact ih'.trans ih
  | function _ _ ih => exact (enter_writtenNames _ _).trans ih
  | _ => rfl

/-- **What happens while a script is lowered** to another one and a program. -/
def ScriptHistory (env : Env) (y y' : Script) (p : Program) (log : List Event) : Prop :=
  History env ⟨{ writtenNames := p.writtenNames }, none⟩ ⟨p, none⟩
    (blocksFootprint env (initFirst y.blocks)) y'.declared log

/-- **Every script that is lowered has a history.** -/
theorem script_history {env : Env} {y y' : Script} {p : Program}
    (h : (script env y).run {} = .ok (y', p)) : ∃ log, ScriptHistory env y y' p log := by
  obtain ⟨writtenNames, log, hlog⟩ := (histories env).script_run h
  obtain rfl : p.writtenNames = writtenNames := hlog.writtenNames
  exact ⟨log, hlog⟩

end FlatScript.Lowering
