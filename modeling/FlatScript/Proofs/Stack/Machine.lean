import FlatScript.Taskfunc
import FlatScript.Proofs.Rule

/-!
# Running expanded code

What the code of task functions does can be told without knowing much of the engine: the two
pointers and the cells of the stack are its memory, the sum and the difference of integers are
what they are, and everything else, the other variables, the built-in functions and the
remaining operators, is given by a `FlatScript.Stack.Machine`, about which nothing is assumed.
All a machine cannot do is to change the memory behind the back of the script.

* `FlatScript.Stack.Eval` evaluates an expression. The memory is only read.
* `FlatScript.Stack.Step` runs a statement that is no call of a function of the script; what
  is left to run of it is a list of statements.
* `FlatScript.Stack.Exec` runs a list of statements to its end, and `FlatScript.Stack.Reaches`
  tells which statements it comes to on the way, inside the functions that are called too.
-/

namespace FlatScript.Stack

/-! ### Machines -/

/-- The stack of task functions. -/
structure Memory where
  /-- The pointer behind the free part. -/
  sp : Int
  /-- The pointer to the running frame. -/
  fp : Int
  /-- The cells. -/
  cell : Int → Int

/-- The stack, and all else that the code works on. -/
structure State (World : Type) extends Memory where
  /-- All else. -/
  world : World

/-- A value: an integer, or anything else. -/
inductive Datum (Other : Type) where
  | int (n : Int)
  | other (o : Other)

/-- **What is left to the engine.** All of it may be chosen freely. -/
structure Machine (World Other : Type) where
  /-- The value of a literal that is no integer. -/
  constant : Expr → Datum Other → Prop
  /-- The value of an operator in front of an operand. -/
  unary : UnaryOp → Datum Other → Datum Other → Prop
  /-- The value of an operator between operands, apart from sums and differences of integers. -/
  binary : BinaryOp → Datum Other → Datum Other → Datum Other → Prop
  /-- The value of a variable under given subscripts. -/
  read : World → Ident → List (Datum Other) → Datum Other → Prop
  /-- The world after a variable gets a value. -/
  write : World → Ident → List (Datum Other) → Datum Other → World → Prop
  /-- The value of a call of a built-in function, and the world after it. -/
  value : Ident → List Expr → List (Datum Other) → World → Datum Other → World → Prop
  /-- The world after a call of a built-in function that is a statement, and the values that
  the arguments get. -/
  command : Ident → List Expr → List (Datum Other) → World → List (Option (Datum Other)) →
    World → Prop
  /-- The world after a declaration. -/
  declare : Declaration → World → World → Prop
  /-- Whether a condition with a value holds. -/
  truth : Datum Other → Bool → Prop
  /-- Whether a value is the one of a case, or in its range. -/
  covers : Datum Other → List (Datum Other) → Bool → Prop

/-- Whether a reference is to a variable, which is given with its sigil in lower case. -/
def IsVar (text : String) (i : Ident) : Prop := (i.sigil, Text.lower i.name) = Sigil.split text

/-- Whether a reference is to a variable of the stack. -/
def IsStackVar (i : Ident) : Prop :=
  IsVar Frame.stack i ∨ IsVar Frame.stackPointer i ∨ IsVar Frame.framePointer i

/-- The arguments of a built-in function that are evaluated. -/
def evaluated (name : String) (args : List Expr) : List Expr :=
  if Builtins.keepsFirstArgument name then args.tail else args

section Semantics

variable {World Other : Type} (M : Machine World Other)

/-! ### Expressions -/

mutual

/-- **The value of an expression**, and the world after its evaluation. -/
inductive Eval (m : Memory) : World → Expr → Datum Other → World → Prop
  | int {w v span} : Eval m w (.int v span) (.int v.toInt) w
  | real {w v span d} (h : M.constant (.real v span) d) : Eval m w (.real v span) d w
  | str {w raw span d} (h : M.constant (.str raw span) d) : Eval m w (.str raw span) d w
  | bool {w v span d} (h : M.constant (.bool v span) d) : Eval m w (.bool v span) d w
  | raw {w text span d} (h : M.constant (.raw text span) d) : Eval m w (.raw text span) d w
  | unary {w w' op e span d d'} (he : Eval m w e d w') (h : M.unary op d d') :
    Eval m w (.unary op e span) d' w'
  | add {w w₁ w₂ left right span a b} (hl : Eval m w left (.int a) w₁)
    (hr : Eval m w₁ right (.int b) w₂) : Eval m w (.binary .add left right span) (.int (a + b)) w₂
  | sub {w w₁ w₂ left right span a b} (hl : Eval m w left (.int a) w₁)
    (hr : Eval m w₁ right (.int b) w₂) : Eval m w (.binary .sub left right span) (.int (a - b)) w₂
  | binary {w w₁ w₂ op left right span d₁ d₂ d} (hl : Eval m w left d₁ w₁)
    (hr : Eval m w₁ right d₂ w₂)
    (hop : ∀ a b, d₁ = .int a → d₂ = .int b → op ≠ .add ∧ op ≠ .sub) (h : M.binary op d₁ d₂ d) :
    Eval m w (.binary op left right span) d w₂
  | sp {w i span} (hi : IsVar Frame.stackPointer i) : Eval m w (.var i [] span) (.int m.sp) w
  | fp {w i span} (hi : IsVar Frame.framePointer i) : Eval m w (.var i [] span) (.int m.fp) w
  | cell {w w' i e span a} (hi : IsVar Frame.stack i) (he : Eval m w e (.int a) w') :
    Eval m w (.var i [e] span) (.int (m.cell a)) w'
  | var {w w' i es span ds d} (hi : ¬ IsStackVar i) (hes : Evals m w es ds w')
    (h : M.read w' i ds d) : Eval m w (.var i es span) d w'
  | call {w w₁ w₂ name args isProcedure span ds d}
    (hargs : Evals m w (evaluated name.name args) ds w₁) (h : M.value name args ds w₁ d w₂) :
    Eval m w (.call name args isProcedure false span) d w₂

/-- The values of expressions, from left to right. -/
inductive Evals (m : Memory) : World → List Expr → List (Datum Other) → World → Prop
  | nil {w} : Evals m w [] [] w
  | cons {w w₁ w₂ e es d ds} (he : Eval m w e d w₁) (hes : Evals m w₁ es ds w₂) :
    Evals m w (e :: es) (d :: ds) w₂

end

/-! ### Statements -/

/-- **A variable gets a value.** -/
inductive Writes : State World → VarRef → Datum Other → State World → Prop
  | sp {st i span n} (hi : IsVar Frame.stackPointer i) :
    Writes st ⟨i, [], span⟩ (.int n) { st with sp := n }
  | fp {st i span n} (hi : IsVar Frame.framePointer i) :
    Writes st ⟨i, [], span⟩ (.int n) { st with fp := n }
  | cell {st i e span a n w} (hi : IsVar Frame.stack i)
    (he : Eval M st.toMemory st.world e (.int a) w) :
    Writes st ⟨i, [e], span⟩ (.int n)
      { st with cell := fun b => if b = a then n else st.cell b, world := w }
  | var {st i es span ds d w w'} (hi : ¬ IsStackVar i)
    (hes : Evals M st.toMemory st.world es ds w) (h : M.write w i ds d w') :
    Writes st ⟨i, es, span⟩ d { st with world := w' }

/-- Some arguments get values. -/
inductive WritesBack : State World → List Expr → List (Option (Datum Other)) → State World → Prop
  | nil {st} : WritesBack st [] [] st
  | keep {st st' e es ds} (h : WritesBack st es ds st') : WritesBack st (e :: es) (none :: ds) st'
  | write {st st₁ st' i subscripts span es d ds} (hd : Writes M st ⟨i, subscripts, span⟩ d st₁)
    (h : WritesBack st₁ es ds st') :
    WritesBack st (.var i subscripts span :: es) (some d :: ds) st'

/-- The body of the first case that a value belongs to; none at all is the empty one. -/
inductive Chooses (m : Memory) (d : Datum Other) : List Case → World → List Stmt → World → Prop
  | none {w} : Chooses m d [] w [] w
  | hit {w w' start stop body cs ds} (hds : Evals M m w (start :: stop.toList) ds w')
    (h : M.covers d ds true) : Chooses m d (⟨start, stop, body⟩ :: cs) w body w'
  | miss {w w₁ w₂ start stop body cs ds body'} (hds : Evals M m w (start :: stop.toList) ds w₁)
    (h : M.covers d ds false) (hcs : Chooses m d cs w₁ body' w₂) :
    Chooses m d (⟨start, stop, body⟩ :: cs) w body' w₂

/-- **A statement runs**, and leaves statements to run in its place. -/
inductive Step : Stmt → State World → List Stmt → State World → Prop
  | assign {target value span trace st st' d w} (hv : Eval M st.toMemory st.world value d w)
    (ht : Writes M { st with world := w } target d st') :
    Step ⟨.assign target value, span, trace⟩ st [] st'
  | command {name args isProcedure callSpan span trace st st' ds ds' w w'}
    (hexit : name.name ≠ "exit")
    (hds : Evals M st.toMemory st.world (evaluated name.name args) ds w)
    (h : M.command name args ds w ds' w')
    (hback : WritesBack M { st with world := w' } (evaluated name.name args) ds' st') :
    Step ⟨.call ⟨name, args, isProcedure, false, callSpan⟩, span, trace⟩ st [] st'
  | declare {d span trace st w} (h : M.declare d st.world w) :
    Step ⟨.declare d, span, trace⟩ st [] { st with world := w }
  | ifTrue {cond body bs otherwise span trace st d w}
    (hd : Eval M st.toMemory st.world cond d w) (h : M.truth d true) :
    Step ⟨.ifChain (⟨cond, body⟩ :: bs) otherwise, span, trace⟩ st body { st with world := w }
  | ifFalse {cond body bs otherwise span trace st d w}
    (hd : Eval M st.toMemory st.world cond d w) (h : M.truth d false) :
    Step ⟨.ifChain (⟨cond, body⟩ :: bs) otherwise, span, trace⟩ st
      [⟨.ifChain bs otherwise, span, trace⟩] { st with world := w }
  | otherwise {body span trace st} : Step ⟨.ifChain [] body, span, trace⟩ st body st
  | whileTrue {cond body span trace st d w} (hd : Eval M st.toMemory st.world cond d w)
    (h : M.truth d true) :
    Step ⟨.whileLoop cond body, span, trace⟩ st (body ++ [⟨.whileLoop cond body, span, trace⟩])
      { st with world := w }
  | whileFalse {cond body span trace st d w} (hd : Eval M st.toMemory st.world cond d w)
    (h : M.truth d false) : Step ⟨.whileLoop cond body, span, trace⟩ st [] { st with world := w }
  | select {subject cs span trace st d body w w'} (hd : Eval M st.toMemory st.world subject d w)
    (h : Chooses M st.toMemory d cs w body w') :
    Step ⟨.select subject cs, span, trace⟩ st body { st with world := w' }

/-! ### Functions -/

/-- The function that a statement `call f` calls. -/
def Calls (fns : List FunctionEntry) (s : Stmt) (e : FunctionEntry) : Prop :=
  ∃ name isProcedure span, s.kind = .call ⟨name, [], isProcedure, true, span⟩ ∧
    fns.find? (·.name == name.name) = some e

/-- Whether a statement leaves the function it stands in. -/
def IsExit (s : Stmt) : Prop :=
  ∃ name args isProcedure span, s.kind = .call ⟨name, args, isProcedure, false, span⟩ ∧
    name.name = "exit"

/-- **A list of statements runs to its end**, or to an `exit`, with calls nested at most `n`
deep. -/
inductive Exec (fns : List FunctionEntry) : Nat → List Stmt → State World → State World → Prop
  | nil {n st} : Exec fns n [] st st
  | step {n s ss new st st₁ st₂} (hs : Step M s st new st₁) (h : Exec fns n (new ++ ss) st₁ st₂) :
    Exec fns n (s :: ss) st st₂
  | call {n s ss e st st₁ st₂} (hs : Calls fns s e) (hbody : Exec fns n e.fn.body st st₁)
    (h : Exec fns (n + 1) ss st₁ st₂) : Exec fns (n + 1) (s :: ss) st st₂
  | exit {n s ss st} (hs : IsExit s) : Exec fns n (s :: ss) st st

/-- **The statements that a run comes to**: what is left to run of the block it started in, or
of a function that is called. -/
inductive Reaches (fns : List FunctionEntry) :
    List Stmt → State World → List Stmt → State World → Prop
  | here {ss st} : Reaches fns ss st ss st
  | step {s ss new st st₁ ss' st'} (hs : Step M s st new st₁)
    (h : Reaches fns (new ++ ss) st₁ ss' st') : Reaches fns (s :: ss) st ss' st'
  | inside {s ss e st ss' st'} (hs : Calls fns s e) (h : Reaches fns e.fn.body st ss' st') :
    Reaches fns (s :: ss) st ss' st'
  | behind {n s ss e st st₁ ss' st'} (hs : Calls fns s e) (hbody : Exec M fns n e.fn.body st st₁)
    (h : Reaches fns ss st₁ ss' st') : Reaches fns (s :: ss) st ss' st'

end Semantics

end FlatScript.Stack
