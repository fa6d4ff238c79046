import FlatScript.Value
import FlatScript.Proofs.Outcome
import Mathlib.Logic.Function.Basic

/-!
# Expressions at run time

What an expression is worth while a script runs. Literals and operators mean what they mean in
constant expressions. A variable is worth what a store holds for it, and a call is worth what an
interpretation of the functions makes of the values of its arguments, whatever that is.

Types keep apart the integers, the truth values and the strings. Nothing has the type of a real,
and the operators of truth values are for truth values only. Where the store and the functions
keep to their types, so does every expression: `FlatScript.Running.typeOf_sound`.
-/

namespace FlatScript.Running

/-! ### Stores -/

/-- The name that a variable or a function goes by; letter case does not matter. -/
def key (i : Ident) : String := Text.lower i.full

/-- **A place that holds a value**: a variable, or an element of an array. -/
inductive Place where
  | var (name : String)
  | cell (name : String) (subscripts : List Value)
deriving DecidableEq

/-- The place under a name and given subscripts. -/
def Place.of (name : String) : List Value → Place
  | [] => .var name
  | v :: vs => .cell name (v :: vs)

/-- **A store.** A place without a value cannot be read. -/
abbrev Store := Place → Option Value

/-- The value at a place. -/
def read (σ : Store) (p : Place) : Except EvalError Value :=
  match σ p with
  | some v => .ok v
  | none => .error .notConstant

theorem read_eq_ok {σ : Store} {p : Place} {v : Value} : read σ p = .ok v ↔ σ p = some v := by
  unfold read
  split <;> simp_all

/-- What the functions give for the values of their arguments. -/
abbrev Interpretation := String → List Value → Value

/-! ### Values -/

mutual

/-- **The value of an expression at run time.** -/
def value (I : Interpretation) (σ : Store) : Expr → Except EvalError Value
  | .int v _ => .ok (.int v)
  | .real v _ => .ok (.real v)
  | .str quoted _ => .ok (.str (Expr.contents quoted))
  | .bool b _ => .ok (.bool b)
  | .var i subscripts _ => do read σ (.of (key i) (← values I σ subscripts))
  | .call name args _ _ _ => do return I (key name) (← values I σ args)
  | .raw _ _ => .error .notConstant
  | .unary op operand _ => do Value.unary op (← value I σ operand)
  | .binary op left right _ => do
    let a ← value I σ left
    let b ← value I σ right
    Value.binary op a b

/-- The values of expressions. -/
def values (I : Interpretation) (σ : Store) : List Expr → Except EvalError (List Value)
  | [] => .ok []
  | e :: es => do return (← value I σ e) :: (← values I σ es)

end

/-- The place that a reference is to. -/
def place (I : Interpretation) (σ : Store) (v : VarRef) : Except EvalError Place := do
  return .of (key v.ident) (← values I σ v.subscripts)

variable {I : Interpretation} {σ : Store}

theorem value_var {i : Ident} {subscripts : List Expr} {span : Span} {v : Value} :
    value I σ (.var i subscripts span) = .ok v ↔
      ∃ vs, values I σ subscripts = .ok vs ∧ σ (.of (key i) vs) = some v := by
  simp only [value, Except.bind_eq_ok, read_eq_ok]

theorem value_call {name : Ident} {args : List Expr} {isProcedure usingCall : Bool} {span : Span}
    {v : Value} :
    value I σ (.call name args isProcedure usingCall span) = .ok v ↔
      ∃ vs, values I σ args = .ok vs ∧ I (key name) vs = v := by
  simp only [value, Except.bind_eq_ok, pure, Except.pure, Except.ok.injEq]

theorem value_unary {op : UnaryOp} {e : Expr} {span : Span} {v : Value} :
    value I σ (.unary op e span) = .ok v ↔
      ∃ a, value I σ e = .ok a ∧ Value.unary op a = .ok v := by
  simp only [value, Except.bind_eq_ok]

theorem value_binary {op : BinaryOp} {left right : Expr} {span : Span} {v : Value} :
    value I σ (.binary op left right span) = .ok v ↔
      ∃ a, value I σ left = .ok a ∧ ∃ b, value I σ right = .ok b ∧ Value.binary op a b = .ok v := by
  simp only [value, Except.bind_eq_ok]

theorem values_cons {e : Expr} {es : List Expr} {vs : List Value} :
    values I σ (e :: es) = .ok vs ↔
      ∃ v, value I σ e = .ok v ∧ ∃ vs', values I σ es = .ok vs' ∧ v :: vs' = vs := by
  simp only [values, Except.bind_eq_ok, pure, Except.pure, Except.ok.injEq]

theorem place_eq_ok {v : VarRef} {p : Place} :
    place I σ v = .ok p ↔ ∃ vs, values I σ v.subscripts = .ok vs ∧ .of (key v.ident) vs = p := by
  simp only [place, Except.bind_eq_ok, pure, Except.pure, Except.ok.injEq]

/-! ### Types -/

/-- **The types.** -/
inductive Ty where
  | int
  | bool
  | str
deriving DecidableEq, Repr

/-- The type of a value; a real has none. -/
def Ty.of? : Value → Option Ty
  | .int _ => some .int
  | .bool _ => some .bool
  | .str _ => some .str
  | .real _ => none

theorem Ty.of?_int {v : Value} (h : of? v = some .int) : ∃ n, v = .int n := by
  cases v with
  | int n => exact ⟨n, rfl⟩
  | real | str | bool => simp [of?] at h

theorem Ty.of?_bool {v : Value} (h : of? v = some .bool) : ∃ b, v = .bool b := by
  cases v with
  | bool b => exact ⟨b, rfl⟩
  | real | str | int => simp [of?] at h

/-- **The types of what has a name.** -/
structure Typing where
  /-- The types of variables. -/
  scalar : String → Option Ty
  /-- The types of the elements of arrays. -/
  array : String → Option Ty
  /-- The types of what functions give. -/
  call : String → Option Ty

/-- The type of what a place holds. -/
def Typing.place (Γ : Typing) : Place → Option Ty
  | .var name => Γ.scalar name
  | .cell name _ => Γ.array name

/-- The type of what a reference is to. -/
def Typing.reference (Γ : Typing) (name : String) (subscripts : List Expr) : Option Ty :=
  if subscripts.isEmpty then Γ.scalar name else Γ.array name

/-- The type of an operator in front of a type. -/
def unaryType : UnaryOp → Ty → Option Ty
  | .neg, .int => some .int
  | .bitNot, .int => some .int
  | .not, .bool => some .bool
  | _, _ => none

/-- The type of both operands of an operator, and the type of what it gives. Strings are joined
from anything. -/
def signature : BinaryOp → Option (Ty × Ty)
  | .add | .sub | .mul | .div | .mod | .bitAnd | .bitOr | .bitXor => some (.int, .int)
  | .equal | .notEqual | .less | .greater | .lessEqual | .greaterEqual => some (.int, .bool)
  | .and | .or | .xor => some (.bool, .bool)
  | .concat => none

/-- The type of an operator between types. -/
def binaryType (op : BinaryOp) (a b : Ty) : Option Ty :=
  match signature op with
  | some (operand, result) => if a = operand ∧ b = operand then some result else none
  | none => some .str

mutual

/-- **The type of an expression**, if it is well typed. -/
def typeOf (Γ : Typing) : Expr → Option Ty
  | .int _ _ => some .int
  | .bool _ _ => some .bool
  | .str _ _ => some .str
  | .real _ _ | .raw _ _ => none
  | .var i subscripts _ =>
    if areTyped Γ subscripts then Γ.reference (key i) subscripts else none
  | .call name args _ _ _ => if areTyped Γ args then Γ.call (key name) else none
  | .unary op operand _ => (typeOf Γ operand).bind (unaryType op)
  | .binary op left right _ =>
    (typeOf Γ left).bind fun a => (typeOf Γ right).bind fun b => binaryType op a b

/-- Whether expressions are well typed. -/
def areTyped (Γ : Typing) : List Expr → Bool
  | [] => true
  | e :: es => (typeOf Γ e).isSome && areTyped Γ es

end

/-- Whether a store holds values of the given types. -/
def Store.Respects (σ : Store) (Γ : Typing) : Prop :=
  ∀ p τ v, Γ.place p = some τ → σ p = some v → Ty.of? v = some τ

/-- Whether the functions give values of the given types. -/
def Interpretation.Respects (I : Interpretation) (Γ : Typing) : Prop :=
  ∀ name τ vs, Γ.call name = some τ → Ty.of? (I name vs) = some τ

/-- A place of the right type stays so. -/
theorem Store.Respects.update {Γ : Typing} (h : σ.Respects Γ) {p : Place} {τ : Ty} {v : Value}
    (hp : Γ.place p = some τ) (hv : Ty.of? v = some τ) :
    Store.Respects (Function.update σ p (some v)) Γ := by
  intro q τ' v' hq hv'
  rcases eq_or_ne q p with rfl | hne
  · rw [Function.update_self, Option.some.injEq] at hv'
    rw [← hv', hv, ← hp, hq]
  · rw [Function.update_of_ne hne] at hv'
    exact h q τ' v' hq hv'

/-! ### Soundness of the types -/

variable {Γ : Typing}

theorem length_values : ∀ {es : List Expr} {vs : List Value}, values I σ es = .ok vs →
    vs.length = es.length
  | [], _, h => by
    cases h
    rfl
  | _ :: es, _, h => by
    obtain ⟨v, -, vs, hvs, rfl⟩ := values_cons.mp h
    simp only [List.length_cons, length_values hvs]

/-- The type of a reference is that of the place it is to. -/
theorem reference_eq_place {i : Ident} {subscripts : List Expr} {vs : List Value}
    (h : values I σ subscripts = .ok vs) :
    Γ.reference (key i) subscripts = Γ.place (.of (key i) vs) := by
  have hlength := length_values h
  cases subscripts with
  | nil =>
    cases List.length_eq_zero_iff.mp hlength
    rfl
  | cons e es =>
    cases vs with
    | nil => simp at hlength
    | cons v vs => rfl

theorem of?_unary {op : UnaryOp} {τ τ' : Ty} {a v : Value} (hop : unaryType op τ = some τ')
    (ha : Ty.of? a = some τ) (hv : Value.unary op a = .ok v) : Ty.of? v = some τ' := by
  cases op <;> cases τ <;> simp only [unaryType, Option.some.injEq, reduceCtorEq] at hop <;> subst hop
  · obtain ⟨n, rfl⟩ := Ty.of?_int ha
    cases hv
    rfl
  · obtain ⟨b, rfl⟩ := Ty.of?_bool ha
    cases hv
    rfl
  · obtain ⟨n, rfl⟩ := Ty.of?_int ha
    cases hv
    rfl

/-- Operators keep to their signatures. -/
theorem of?_binary {op : BinaryOp} {τ₁ τ₂ τ : Ty} {a b v : Value}
    (hop : binaryType op τ₁ τ₂ = some τ) (ha : Ty.of? a = some τ₁) (hb : Ty.of? b = some τ₂)
    (hv : Value.binary op a b = .ok v) : Ty.of? v = some τ := by
  unfold binaryType at hop
  cases op
  case concat =>
    cases hop
    cases hv
    rfl
  case and | or | xor =>
    simp only [signature, Option.ite_none_right_eq_some, Option.some.injEq] at hop
    obtain ⟨-, rfl⟩ := hop
    cases hv
    rfl
  all_goals
    simp only [signature, Option.ite_none_right_eq_some, Option.some.injEq] at hop
    obtain ⟨⟨rfl, rfl⟩, rfl⟩ := hop
    obtain ⟨m, rfl⟩ := Ty.of?_int ha
    obtain ⟨n, rfl⟩ := Ty.of?_int hb
  case mod =>
    simp only [Value.binary, Value.number, Value.rem, bind, Except.bind] at hv
    split at hv <;> cases hv
    rfl
  all_goals
    cases hv
    rfl

/-- **A well-typed expression has values of its type only.** -/
theorem typeOf_sound (hI : I.Respects Γ) (hσ : σ.Respects Γ) :
    ∀ {e : Expr} {τ : Ty} {v : Value}, typeOf Γ e = some τ → value I σ e = .ok v →
      Ty.of? v = some τ
  | .int _ _, _, _, ht, hv | .bool _ _, _, _, ht, hv | .str _ _, _, _, ht, hv => by
    cases ht
    cases hv
    rfl
  | .real _ _, _, _, ht, _ | .raw _ _, _, _, ht, _ => by cases ht
  | .var i subscripts _, _, _, ht, hv => by
    obtain ⟨vs, hvs, hread⟩ := value_var.mp hv
    simp only [typeOf, Option.ite_none_right_eq_some] at ht
    exact hσ _ _ _ ((reference_eq_place hvs).symm.trans ht.2) hread
  | .call name args _ _ _, _, _, ht, hv => by
    obtain ⟨vs, -, rfl⟩ := value_call.mp hv
    simp only [typeOf, Option.ite_none_right_eq_some] at ht
    exact hI _ _ vs ht.2
  | .unary op operand _, _, _, ht, hv => by
    obtain ⟨a, ha, hv⟩ := value_unary.mp hv
    obtain ⟨τ, hτ, hop⟩ := Option.bind_eq_some_iff.mp ht
    exact of?_unary hop (typeOf_sound hI hσ hτ ha) hv
  | .binary op left right _, _, _, ht, hv => by
    obtain ⟨a, ha, b, hb, hv⟩ := value_binary.mp hv
    obtain ⟨τ₁, h₁, ht⟩ := Option.bind_eq_some_iff.mp ht
    obtain ⟨τ₂, h₂, hop⟩ := Option.bind_eq_some_iff.mp ht
    exact of?_binary hop (typeOf_sound hI hσ h₁ ha) (typeOf_sound hI hσ h₂ hb) hv

end FlatScript.Running
