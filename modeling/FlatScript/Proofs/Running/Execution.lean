import FlatScript.Proofs.Rule
import FlatScript.Proofs.Running.Values

/-!
# Running statements

Statements run over a store, and what the engine sees of a run is a list of events: the
declarations, and the calls with the values of their arguments. A chain of conditions runs the
first body whose condition is true, a choice runs the first case that has its subject, and a
loop runs while its condition is true. A run ends when the statements do; one that comes to an
expression without a value, or that does not stop, is none.

A constant has its value from the start, so its declaration leaves the store alone. The
constructs that lowering removes have no runs.

* `FlatScript.Running.Exec` is the relation of a store and statements to the store and the events
  that they end with.
* `FlatScript.Running.Exec.unique`: a run is determined by the store and the statements.
* `FlatScript.Running.Exec.respects` and `FlatScript.Running.Exec.holds`: well-typed statements
  keep a store in its types, and statements that assign no constant keep the constants.
-/

namespace FlatScript.Running

/-! ### Single statements -/

/-- What the engine sees of a run. -/
inductive Event where
  | declare (name : String) (modifiers : List String) (args : List Value)
  | call (name : String) (usingCall : Bool) (args : List Value)
deriving DecidableEq

/-- What the call adds to its variable, if it is one that counts up or down. -/
def counts? (c : Call) : Option Int32 :=
  if c.usingCall then none
  else if key c.name = "inc" then some 1
  else if key c.name = "dec" then some (-1)
  else none

/-- The values that a declaration gives to its variable, as they are written. -/
def initial : Option Initializer → List Expr
  | none => []
  | some (.single e) => [e]
  | some (.list es) => es

/-- The places that get the values of a declaration. -/
def starts (d : Declaration) : List Place :=
  if d.isConst then []
  else match d.init with
    | none => []
    | some (.single _) => if d.size.isSome then [] else [.var (key d.name)]
    | some (.list es) => (List.range es.length).map fun i => .cell (key d.name) [.int (.ofNat i)]

/-- Places, filled with values in order. -/
def fill (σ : Store) : List (Place × Value) → Store
  | [] => σ
  | (p, v) :: rest => fill (Function.update σ p (some v)) rest

/-- **A statement without parts runs.** -/
inductive Effect (I : Interpretation) (σ : Store) : StmtKind → Store → List Event → Prop
  | assign {target e p v} (hp : place I σ target = .ok p) (hv : value I σ e = .ok v) :
    Effect I σ (.assign target e) (Function.update σ p (some v)) []
  | count {c n i subscripts span p m} (hn : counts? c = some n)
    (hargs : c.args = [.var i subscripts span]) (hp : place I σ ⟨i, subscripts, span⟩ = .ok p)
    (hm : σ p = some (.int m)) :
    Effect I σ (.call c) (Function.update σ p (some (.int (m + n)))) []
  | event {c vs} (hn : counts? c = none) (hvs : values I σ c.args = .ok vs) :
    Effect I σ (.call c) σ [.call (key c.name) c.usingCall vs]
  | declare {d vs ws} (hvs : values I σ (d.size.toList ++ d.params) = .ok vs)
    (hws : values I σ (initial d.init) = .ok ws) :
    Effect I σ (.declare d) (fill σ ((starts d).zip ws))
      [.declare (key d.name) d.modifiers (vs ++ ws)]

/-! ### Choices -/

/-- The truth value that a value is. -/
def truth : Value → Except EvalError Bool
  | .bool b => .ok b
  | _ => .error .notConstant

/-- Whether a case from one number, perhaps up to another, has a number. -/
def covers (n start : Int32) : Option Int32 → Bool
  | none => start == n
  | some stop => start ≤ n && n ≤ stop

/-- The integer that an expression is worth. -/
def integer (I : Interpretation) (σ : Store) (e : Expr) : Except EvalError Int32 := do
  (← value I σ e).integer

/-- **The first branch whose condition is true**, and the last part of the chain if there is
none. -/
def branchFor (I : Interpretation) (σ : Store) (otherwise : List Stmt) :
    List Branch → Except EvalError (List Stmt)
  | [] => .ok otherwise
  | b :: bs => do
    if (← truth (← value I σ b.cond)) then return b.body else branchFor I σ otherwise bs

/-- **The first case that has a number**; no case at all is an empty one. -/
def caseFor (I : Interpretation) (σ : Store) (n : Int32) :
    List Case → Except EvalError (List Stmt)
  | [] => .ok []
  | c :: cs => do
    let start ← integer I σ c.start
    let stop ← c.stop.mapM (integer I σ)
    if covers n start stop then return c.body else caseFor I σ n cs

/-- The body that a chain of conditions or a choice runs. -/
def chosen (I : Interpretation) (σ : Store) : StmtKind → Except EvalError (List Stmt)
  | .ifChain branches otherwise => branchFor I σ otherwise branches
  | .select subject cases => do caseFor I σ (← integer I σ subject) cases
  | _ => .error .notConstant

/-! ### Runs -/

/-- **Statements run to their end.** -/
inductive Exec (I : Interpretation) : Store → List Stmt → Store → List Event → Prop
  | nil {σ} : Exec I σ [] σ []
  | effect {σ σ₁ σ₂ s ss es es'} (hs : Effect I σ s.kind σ₁ es) (hss : Exec I σ₁ ss σ₂ es') :
    Exec I σ (s :: ss) σ₂ (es ++ es')
  | choice {σ σ₁ σ₂ s ss body es es'} (hs : chosen I σ s.kind = .ok body)
    (hbody : Exec I σ body σ₁ es) (hss : Exec I σ₁ ss σ₂ es') : Exec I σ (s :: ss) σ₂ (es ++ es')
  | whileTrue {σ σ₁ σ₂ cond body span trace ss es es'} (hc : value I σ cond = .ok (.bool true))
    (hbody : Exec I σ body σ₁ es)
    (hss : Exec I σ₁ (⟨.whileLoop cond body, span, trace⟩ :: ss) σ₂ es') :
    Exec I σ (⟨.whileLoop cond body, span, trace⟩ :: ss) σ₂ (es ++ es')
  | whileFalse {σ σ' cond body span trace ss es} (hc : value I σ cond = .ok (.bool false))
    (hss : Exec I σ ss σ' es) : Exec I σ (⟨.whileLoop cond body, span, trace⟩ :: ss) σ' es

variable {I : Interpretation} {σ σ₁ σ₂ : Store} {es es' : List Event}

/-- One list of statements runs after the other. -/
theorem Exec.append {ss ss' : List Stmt} (h : Exec I σ ss σ₁ es) (h' : Exec I σ₁ ss' σ₂ es') :
    Exec I σ (ss ++ ss') σ₂ (es ++ es') := by
  induction h with
  | nil => exact h'
  | effect hs _ ih =>
    rw [List.append_assoc]
    exact .effect hs (ih h')
  | choice hs hbody _ _ ih =>
    rw [List.append_assoc]
    exact .choice hs hbody (ih h')
  | whileTrue hc hbody _ _ ih =>
    rw [List.append_assoc]
    exact .whileTrue hc hbody (ih h')
  | whileFalse hc _ ih => exact .whileFalse hc (ih h')

/-- A run of one statement. -/
theorem Exec.single {s : Stmt} (h : Effect I σ s.kind σ₁ es) : Exec I σ [s] σ₁ es := by
  have hrun : Exec I σ [s] σ₁ (es ++ []) := .effect h .nil
  rwa [List.append_nil] at hrun

theorem Effect.unique {k : StmtKind} (h : Effect I σ k σ₁ es) (h' : Effect I σ k σ₂ es') :
    σ₁ = σ₂ ∧ es = es' := by
  cases h with
  | assign hp hv =>
    cases h' with
    | assign hp' hv' =>
      cases hp.symm.trans hp'
      cases hv.symm.trans hv'
      exact ⟨rfl, rfl⟩
  | count hn hargs hp hm =>
    cases h' with
    | count hn' hargs' hp' hm' =>
      cases hn.symm.trans hn'
      cases hargs.symm.trans hargs'
      cases hp.symm.trans hp'
      cases hm.symm.trans hm'
      exact ⟨rfl, rfl⟩
    | event hn' => cases hn.symm.trans hn'
  | event hn hvs =>
    cases h' with
    | count hn' => cases hn.symm.trans hn'
    | event _ hvs' =>
      cases hvs.symm.trans hvs'
      exact ⟨rfl, rfl⟩
  | declare hvs hws =>
    cases h' with
    | declare hvs' hws' =>
      cases hvs.symm.trans hvs'
      cases hws.symm.trans hws'
      exact ⟨rfl, rfl⟩

theorem Effect.chosen_ne_ok {k : StmtKind} (h : Effect I σ k σ₁ es) (body : List Stmt) :
    chosen I σ k ≠ .ok body := by
  cases h <;> exact fun hchosen => by cases hchosen

/-- **A run is determined by the store and the statements.** -/
theorem Exec.unique {ss : List Stmt} (h : Exec I σ ss σ₁ es) :
    ∀ {σ₂ es'}, Exec I σ ss σ₂ es' → σ₁ = σ₂ ∧ es = es' := by
  induction h with
  | nil =>
    rintro _ _ ⟨⟩
    exact ⟨rfl, rfl⟩
  | effect hs _ ih =>
    rintro _ _ (_ | ⟨hs', hss'⟩ | ⟨hs', _, _⟩ | _ | _)
    · obtain ⟨rfl, rfl⟩ := hs.unique hs'
      obtain ⟨rfl, rfl⟩ := ih hss'
      exact ⟨rfl, rfl⟩
    · exact (hs.chosen_ne_ok _ hs').elim
    · cases hs
    · cases hs
  | choice hs _ _ ihbody ih =>
    rintro _ _ (_ | ⟨hs', _⟩ | ⟨hs', hbody', hss'⟩ | _ | _)
    · exact (hs'.chosen_ne_ok _ hs).elim
    · cases hs.symm.trans hs'
      obtain ⟨rfl, rfl⟩ := ihbody hbody'
      obtain ⟨rfl, rfl⟩ := ih hss'
      exact ⟨rfl, rfl⟩
    · cases hs
    · cases hs
  | whileTrue hc _ _ ihbody ih =>
    rintro _ _ (_ | ⟨hs', _⟩ | ⟨hs', _, _⟩ | ⟨_, hbody', hss'⟩ | ⟨hc', _⟩)
    · cases hs'
    · cases hs'
    · obtain ⟨rfl, rfl⟩ := ihbody hbody'
      obtain ⟨rfl, rfl⟩ := ih hss'
      exact ⟨rfl, rfl⟩
    · cases hc.symm.trans hc'
  | whileFalse hc _ ih =>
    rintro _ _ (_ | ⟨hs', _⟩ | ⟨hs', _, _⟩ | ⟨hc', _, _⟩ | ⟨_, hss'⟩)
    · cases hs'
    · cases hs'
    · cases hc.symm.trans hc'
    · exact ih hss'

/-! ### Rules and runs -/

theorem branchFor_cons {otherwise : List Stmt} {b : Branch} {bs : List Branch} {body : List Stmt} :
    branchFor I σ otherwise (b :: bs) = .ok body ↔
      (value I σ b.cond = .ok (.bool true) ∧ body = b.body) ∨
        (value I σ b.cond = .ok (.bool false) ∧ branchFor I σ otherwise bs = .ok body) := by
  simp only [branchFor, Except.bind_eq_ok]
  constructor
  · rintro ⟨v, hv, t, ht, hbody⟩
    cases v <;> cases ht
    cases t with
    | true =>
      cases hbody
      exact .inl ⟨hv, rfl⟩
    | false => exact .inr ⟨hv, hbody⟩
  · rintro (⟨hv, rfl⟩ | ⟨hv, hbody⟩)
    · exact ⟨_, hv, true, rfl, rfl⟩
    · exact ⟨_, hv, false, rfl, hbody⟩

theorem integer_eq_ok {e : Expr} {n : Int32} :
    integer I σ e = .ok n ↔ value I σ e = .ok (.int n) := by
  simp only [integer, Except.bind_eq_ok]
  constructor
  · rintro ⟨v, hv, hn⟩
    cases v <;> cases hn
    exact hv
  · exact fun h => ⟨_, h, rfl⟩

theorem caseFor_cons {n : Int32} {c : Case} {cs : List Case} {body : List Stmt} :
    caseFor I σ n (c :: cs) = .ok body ↔
      ∃ start, value I σ c.start = .ok (.int start) ∧
        ∃ stop, Option.Rel (fun e m => value I σ e = .ok (.int m)) c.stop stop ∧
          ((covers n start stop = true ∧ body = c.body) ∨
            (covers n start stop = false ∧ caseFor I σ n cs = .ok body)) := by
  simp only [caseFor, Except.bind_eq_ok, Except.mapM_option_eq_ok, integer_eq_ok]
  constructor
  · rintro ⟨start, hstart, stop, hstop, hbody⟩
    refine ⟨start, hstart, stop, hstop, ?_⟩
    cases hcovers : covers n start stop with
    | true =>
      rw [hcovers] at hbody
      cases hbody
      exact .inl ⟨rfl, rfl⟩
    | false =>
      rw [hcovers] at hbody
      exact .inr ⟨rfl, hbody⟩
  · rintro ⟨start, hstart, stop, hstop, ⟨hcovers, rfl⟩ | ⟨hcovers, hbody⟩⟩
    · exact ⟨start, hstart, stop, hstop, by rw [hcovers]; rfl⟩
    · exact ⟨start, hstart, stop, hstop, by rw [hcovers]; exact hbody⟩

variable {r : Rule}

theorem branchFor_meets {otherwise body : List Stmt} (ho : stmtsMeet r otherwise) :
    ∀ {bs : List Branch}, branchesMeet r bs → branchFor I σ otherwise bs = .ok body →
      stmtsMeet r body
  | [], _, h => by
    cases h
    exact ho
  | ⟨_, _⟩ :: _, ⟨_, _, hb, hbs⟩, h => by
    rcases branchFor_cons.mp h with ⟨-, rfl⟩ | ⟨-, h⟩
    · exact hb
    · exact branchFor_meets ho hbs h

theorem caseFor_meets {n : Int32} {body : List Stmt} :
    ∀ {cs : List Case}, casesMeet r cs → caseFor I σ n cs = .ok body → stmtsMeet r body
  | [], _, h => by
    cases h
    trivial
  | ⟨_, _, _⟩ :: _, ⟨_, _, _, hb, hcs⟩, h => by
    obtain ⟨-, -, -, -, ⟨-, rfl⟩ | ⟨-, h⟩⟩ := caseFor_cons.mp h
    · exact hb
    · exact caseFor_meets hcs h

/-- What is chosen meets the rules that the whole statement meets. -/
theorem chosen_meets {s : Stmt} {body : List Stmt} (h : s.Meets r)
    (hchosen : chosen I σ s.kind = .ok body) : stmtsMeet r body := by
  obtain ⟨kind, span, trace⟩ := s
  cases kind <;> try cases hchosen
  case ifChain bs otherwise => exact branchFor_meets h.2.2.2 h.2.1 hchosen
  case select subject cs =>
    obtain ⟨n, -, hcase⟩ := Except.bind_eq_ok.mp hchosen
    exact caseFor_meets h.2.2 hcase

/-- **What single statements keep, runs keep**, if the statements meet a rule that says so. -/
theorem Exec.keeps {P : Store → Prop}
    (hP : ∀ {σ σ' k es}, r.stmt k → Effect I σ k σ' es → P σ → P σ')
    (hwhole : ∀ {target e}, ¬ r.whole target e) {ss : List Stmt} (h : Exec I σ ss σ₁ es) :
    stmtsMeet r ss → P σ → P σ₁ := by
  induction h with
  | nil => exact fun _ hσ => hσ
  | @effect σ σ₁ σ₂ s ss es es' hs _ ih =>
    rintro ⟨hmeets, hrest⟩ hσ
    refine ih hrest (hP ?_ hs hσ)
    obtain ⟨kind, span, trace⟩ := s
    cases hs with
    | assign => exact (hmeets.resolve_left hwhole).1
    | count | event | declare => exact hmeets.1
  | choice hs _ _ ihbody ih =>
    rintro ⟨hmeets, hrest⟩ hσ
    exact ih hrest (ihbody (chosen_meets hmeets hs) hσ)
  | whileTrue _ _ _ ihbody ih =>
    intro hmeets hσ
    exact ih hmeets (ihbody hmeets.1.2.2.2 hσ)
  | whileFalse _ _ ih => exact fun hmeets hσ => ih hmeets.2 hσ

/-! ### Well-typed statements -/

/-- The type of the places that get the values of a declaration. -/
def declaredType (Γ : Typing) (d : Declaration) : Option Ty :=
  match d.init with
  | some (.list _) => Γ.array (key d.name)
  | _ => Γ.scalar (key d.name)

/-- **Whether the expressions of a statement have the types that they need.** Only what lowering
leaves is well typed. -/
def wellTyped (Γ : Typing) : StmtKind → Bool
  | .declare d =>
    areTyped Γ (d.size.toList ++ d.params) && areTyped Γ (initial d.init) &&
      ((starts d).isEmpty || (initial d.init).all fun e => typeOf Γ e == declaredType Γ d)
  | .assign target e => (typeOf Γ e).isSome && typeOf Γ target.toExpr == typeOf Γ e
  | .call c =>
    areTyped Γ c.args && ((counts? c).isNone || c.args.all fun e => typeOf Γ e == some .int)
  | .whileLoop cond _ => typeOf Γ cond == some .bool
  | .ifChain branches _ => branches.all fun b => typeOf Γ b.cond == some .bool
  | .select subject cases =>
    typeOf Γ subject == some .int && cases.all fun c =>
      typeOf Γ c.start == some .int && c.stop.all fun e => typeOf Γ e == some .int
  | .property _ _ | .synonym _ _ _ | .forLoop _ _ _ _ _ _ | .family _ _ => false

/-- The rule that statements are well typed. -/
def typed (Γ : Typing) : Rule := { Rule.trivial with stmt := fun k => wellTyped Γ k = true }

instance (Γ : Typing) (k : StmtKind) : Decidable ((typed Γ).stmt k) :=
  inferInstanceAs (Decidable (wellTyped Γ k = true))

variable {Γ : Typing}

/-- The type of a reference is that of the place that it is to. -/
theorem typeOf_toExpr {v : VarRef} {τ : Ty} {p : Place} (ht : typeOf Γ v.toExpr = some τ)
    (hp : place I σ v = .ok p) : Γ.place p = some τ := by
  obtain ⟨vs, hvs, rfl⟩ := place_eq_ok.mp hp
  simp only [VarRef.toExpr, typeOf, Option.ite_none_right_eq_some] at ht
  exact (reference_eq_place hvs).symm.trans ht.2

theorem place_starts {d : Declaration} {p : Place} (hp : p ∈ starts d) :
    Γ.place p = declaredType Γ d := by
  unfold starts at hp
  unfold declaredType
  split at hp
  · cases hp
  · split at hp
    · cases hp
    · next hinit =>
      split at hp
      · cases hp
      · rw [List.mem_singleton.mp hp, hinit]
        rfl
    · next hinit =>
      obtain ⟨i, -, rfl⟩ := List.mem_map.mp hp
      rw [hinit]
      rfl

theorem respects_fill {τ : Ty} : ∀ {pvs : List (Place × Value)} {σ : Store}, σ.Respects Γ →
    (∀ pv ∈ pvs, Γ.place pv.1 = some τ ∧ Ty.of? pv.2 = some τ) → (fill σ pvs).Respects Γ
  | [], _, hσ, _ => hσ
  | (p, v) :: rest, σ, hσ, h => by
    obtain ⟨⟨hp, hv⟩, hrest⟩ := List.forall_mem_cons.mp h
    rw [fill]
    exact respects_fill (hσ.update hp hv) hrest

/-- Values of expressions of one type have that type. -/
theorem values_typed (hI : I.Respects Γ) (hσ : σ.Respects Γ) {τ : Ty} :
    ∀ {es : List Expr} {vs : List Value}, (∀ e ∈ es, typeOf Γ e = some τ) →
      values I σ es = .ok vs → ∀ v ∈ vs, Ty.of? v = some τ
  | [], _, _, h => by
    cases h
    simp
  | e :: es, _, ht, h => by
    obtain ⟨v, hv, vs, hvs, rfl⟩ := values_cons.mp h
    obtain ⟨he, hes⟩ := List.forall_mem_cons.mp ht
    exact List.forall_mem_cons.mpr ⟨typeOf_sound hI hσ he hv, values_typed hI hσ hes hvs⟩

theorem Effect.respects (hI : I.Respects Γ) {k : StmtKind} (ht : wellTyped Γ k = true)
    (h : Effect I σ k σ₁ es) (hσ : σ.Respects Γ) : σ₁.Respects Γ := by
  cases h with
  | assign hp hv =>
    simp only [wellTyped, Bool.and_eq_true, beq_iff_eq] at ht
    obtain ⟨τ, hτ⟩ := Option.isSome_iff_exists.mp ht.1
    exact hσ.update (typeOf_toExpr (ht.2.trans hτ) hp) (typeOf_sound hI hσ hτ hv)
  | count hn hargs hp hm =>
    simp only [wellTyped, hn, hargs, Option.isNone_some, Bool.false_or, List.all_cons, List.all_nil,
      Bool.and_true, Bool.and_eq_true, beq_iff_eq] at ht
    have htype : typeOf Γ (VarRef.toExpr ⟨_, _, _⟩) = some .int := ht.2
    exact hσ.update (typeOf_toExpr htype hp) rfl
  | event => exact hσ
  | @declare d vs ws hvs hws =>
    simp only [wellTyped, Bool.and_eq_true, Bool.or_eq_true, List.isEmpty_iff, List.all_eq_true,
      beq_iff_eq] at ht
    obtain ⟨⟨-, hinit⟩, hempty | htypes⟩ := ht
    · rw [hempty]
      exact hσ
    · cases hτ : declaredType Γ d with
      | some τ =>
        rw [hτ] at htypes
        refine respects_fill hσ (τ := τ) fun pv hpv => ?_
        obtain ⟨hp, hv⟩ := List.of_mem_zip hpv
        exact ⟨(place_starts hp).trans hτ, values_typed hI hσ htypes hws _ hv⟩
      | none =>
        -- A declaration whose values all lack a type has no values.
        have hnil : initial d.init = [] := by
          cases hes : initial d.init with
          | nil => rfl
          | cons e es =>
            rw [hes] at htypes hinit
            have hnone := (htypes e (List.mem_cons_self ..)).trans hτ
            simp [areTyped, hnone] at hinit
        rw [hnil] at hws
        cases hws
        rw [List.zip_nil_right]
        exact hσ

/-- **Well-typed statements keep a store in its types.** -/
theorem Exec.respects (hI : I.Respects Γ) {ss : List Stmt} (ht : stmtsMeet (typed Γ) ss)
    (h : Exec I σ ss σ₁ es) (hσ : σ.Respects Γ) : σ₁.Respects Γ :=
  h.keeps (fun ht h hσ => h.respects hI ht hσ) id ht hσ

/-! ### Constants -/

/-- Whether a store has the values of constants. -/
def Store.Holds (σ : Store) (constants : Constants) : Prop :=
  ∀ name v, constants.lookup name = some v → σ (.var name) = some v

/-- The variable that a reference without subscripts is to. -/
def scalar? (v : VarRef) : Option String :=
  if v.subscripts.isEmpty then some (key v.ident) else none

/-- The variables that a statement itself gives a value to. -/
def assigned : StmtKind → List String
  | .assign target _ => (scalar? target).toList
  | .call c => if (counts? c).isSome then c.args.filterMap fun e => e.asVar?.bind scalar? else []
  | .declare d => if (starts d).isEmpty then [] else [key d.name]
  | _ => []

/-- The rule that constants are not assigned. -/
def spares (constants : Constants) : Rule :=
  { Rule.trivial with stmt := fun k => ∀ name ∈ assigned k, constants.lookup name = none }

instance (constants : Constants) (k : StmtKind) : Decidable ((spares constants).stmt k) :=
  inferInstanceAs (Decidable (∀ name ∈ assigned k, constants.lookup name = none))

variable {constants : Constants}

theorem Store.Holds.update (h : σ.Holds constants) {p : Place} {o : Option Value}
    (hp : ∀ name, p = .var name → constants.lookup name = none) :
    Store.Holds (Function.update σ p o) constants := by
  intro name v hv
  rw [Function.update_of_ne, h name v hv]
  intro heq
  rw [hp name heq.symm] at hv
  cases hv

/-- A place that is a variable comes from a reference without subscripts. -/
theorem scalar?_of_place {v : VarRef} {name : String} (h : place I σ v = .ok (.var name)) :
    scalar? v = some name := by
  obtain ⟨vs, hvs, hname⟩ := place_eq_ok.mp h
  have hlength := length_values hvs
  cases vs with
  | nil =>
    cases hname
    rw [scalar?, List.length_eq_zero_iff.mp hlength.symm]
    rfl
  | cons v vs => cases hname

theorem holds_fill : ∀ {pvs : List (Place × Value)} {σ : Store}, σ.Holds constants →
    (∀ pv ∈ pvs, ∀ name, pv.1 = .var name → constants.lookup name = none) →
    (fill σ pvs).Holds constants
  | [], _, hσ, _ => hσ
  | (p, v) :: rest, σ, hσ, h => by
    obtain ⟨hp, hrest⟩ := List.forall_mem_cons.mp h
    rw [fill]
    exact holds_fill (hσ.update hp) hrest

/-- The only variable that a declaration gives a value to is its own. -/
theorem eq_key_of_mem_starts {d : Declaration} {name : String} (h : .var name ∈ starts d) :
    name = key d.name := by
  unfold starts at h
  split at h
  · cases h
  · split at h
    · cases h
    · split at h
      · cases h
      · cases List.mem_singleton.mp h
        rfl
    · obtain ⟨i, -, hcell⟩ := List.mem_map.mp h
      cases hcell

theorem Effect.holds {k : StmtKind} (hk : ∀ name ∈ assigned k, constants.lookup name = none)
    (h : Effect I σ k σ₁ es) (hσ : σ.Holds constants) : σ₁.Holds constants := by
  cases h with
  | assign hp =>
    refine hσ.update fun name hname => hk name ?_
    subst hname
    simp only [assigned, scalar?_of_place hp, Option.toList_some, List.mem_singleton]
  | count hn hargs hp =>
    refine hσ.update fun name hname => hk name ?_
    subst hname
    simp [assigned, hn, hargs, Expr.asVar?, scalar?_of_place hp]
  | event => exact hσ
  | @declare d vs ws =>
    refine holds_fill hσ fun pv hpv name hname => hk name ?_
    have hmem : .var name ∈ starts d := hname ▸ (List.of_mem_zip hpv).1
    have hne : (starts d).isEmpty = false := by
      rw [List.isEmpty_eq_false_iff]
      exact List.ne_nil_of_mem hmem
    simp [assigned, hne, eq_key_of_mem_starts hmem]

/-- **Statements that assign no constant keep the constants.** -/
theorem Exec.holds {ss : List Stmt} (hss : stmtsMeet (spares constants) ss)
    (h : Exec I σ ss σ₁ es) (hσ : σ.Holds constants) : σ₁.Holds constants :=
  h.keeps (fun hk h hσ => h.holds hk hσ) id hss hσ

end FlatScript.Running
