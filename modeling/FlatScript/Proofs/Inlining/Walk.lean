import FlatScript.Proofs.Inlining.Entering
import FlatScript.Proofs.Inlining.Scheme

/-!
# The walk over expansion

For every scheme, what each part of expansion does: the arguments of a call, the call of a
built-in function, the call of a task function, the copy of a body, and then expressions and
statements. Everything is stated for two ways of expanding copied bodies, `inner` and
`inner'`, that do the same on the bodies that are ready to be copied.
-/

namespace FlatScript.Inlining.Scheme

variable {env : Env} {p₀ : Program} {S : Scheme env p₀} {at' : Place} {standing : Bool}
  {p q : Program}

/-! ### Built-in functions -/

theorem mapM_value_runs {t : Top} {as as' : List Argument}
    (h : List.Forall₂ (S.Arg t q) as as') (hp : q.Grows p) :
    Runs (as.mapM (·.value)) (as'.mapM (·.value)) p fun p' es => exprsMeet (S.dst p' t) es := by
  induction h generalizing p with
  | nil => exact .ret trivial
  | cons ha _ ih =>
    simp only [List.mapM_cons]
    refine (ha.value p hp).bind fun e p' hp' he => ?_
    refine (ih (hp.trans hp')).bind fun es p'' hp'' hes => .ret ?_
    exact ⟨he.mono (S.mono hp''), hes⟩

/-- The arguments of a built-in function meet the rule, apart from a first one that stays. -/
theorem builtinArgs_runs {t : Top} {as as' : List Argument} {name : String}
    (h : List.Forall₂ (S.Arg t q) as as') (hp : q.Grows p) :
    Runs (builtinArgs name as) (builtinArgs name as') p fun p' es =>
      argsMeet (S.dst p' t) ((S.dst p' t).skips name) es := by
  cases h with
  | nil => exact .ret trivial
  | @cons a a' as as' ha has =>
    simp only [builtinArgs]
    have hrest : ∀ e p', p.Grows p' → (S.dst p' t).skips name = true ∨ e.Meets (S.dst p' t) →
        Runs (as.mapM (·.value) >>= fun es => (pure (e :: es) : Compile (List Expr)))
          (as'.mapM (·.value) >>= fun es => pure (e :: es)) p'
          fun p'' es => argsMeet (S.dst p'' t) ((S.dst p'' t).skips name) es := by
      intro e p' hp' he
      refine (mapM_value_runs has (hp.trans hp')).bind fun es p'' hp'' hes => .ret ?_
      exact ⟨he.imp ((S.mono hp'').skips name) fun he => he.mono (S.mono hp''), hes⟩
    split
    · next hkeep =>
      rw [ha.written, pure_bind, pure_bind]
      exact hrest _ p (.refl p) (S.raw hkeep ha.source)
    · exact (ha.value p hp).bind fun e p' hp' he => hrest e p' hp' (.inr he)

/-- The call of a built-in function keeps its name and its form. -/
theorem builtinCall_runs {c c' : CallSite} (hc : S.Site at'.top standing q c c') (hp : q.Grows p) :
    Runs (builtinCall at' c) (builtinCall at' c') p fun p' call =>
      call = ⟨c.name, call.args, c.isProcedure, c.usingCall, c.span⟩ ∧
        argsMeet (S.dst p' at'.top) ((S.dst p' at'.top).skips c.name.name) call.args := by
  have hargs : ∀ p', q.Grows p' → Runs
      (builtinArgs c.name.name c.args >>= fun args =>
        (pure ⟨c.name, args, c.isProcedure, c.usingCall, c.span⟩ : Compile Call))
      (builtinArgs c'.name.name c'.args >>= fun args =>
        pure ⟨c'.name, args, c'.isProcedure, c'.usingCall, c'.span⟩) p'
      fun p' call => call = ⟨c.name, call.args, c.isProcedure, c.usingCall, c.span⟩ ∧
        argsMeet (S.dst p' at'.top) ((S.dst p' at'.top).skips c.name.name) call.args := by
    intro p' hp'
    rw [hc.name, hc.isProcedure, hc.usingCall, hc.span]
    exact (builtinArgs_runs hc.args hp').bind fun args p'' _ hargs => .ret ⟨rfl, hargs⟩
  unfold builtinCall
  rw [hc.name] at hargs ⊢
  dsimp only
  split
  · split
    · next name _ =>
      exact .modify_bind (Program.grows_waiting ..)
        (hargs _ (hp.trans (Program.grows_waiting ..)))
    · exact hargs p hp
  · exact hargs p hp

/-! ### Functions of the script -/

/-- What is known once a call has been entered. -/
structure Entered (at' : Place) (c : CallSite) (use : Use) (p : Program) (e : FunctionEntry) :
    Prop extends Faultless at' e.fn c use where
  found : ∃ u, p.function? c.name.name = some { e with used := u }
  edge : (at'.top.caller, c.name.name) ∈ p.calls.calls
  explicit : c.usingCall = true → p.calls.isExplicit c.name.name = true

theorem callFault?_congr {S : Scheme env p₀} {t : Top} {f : FunctionDef} {c c' : CallSite}
    {use : Use} (hc : S.Site t standing q c c') : callFault? at' f c' use = callFault? at' f c use := by
  have hlen : c'.args.length = c.args.length := hc.args.length_eq.symm
  have hnil : c'.args.isEmpty = c.args.isEmpty := by
    rw [Bool.eq_iff_iff, List.isEmpty_iff_length_eq_zero, List.isEmpty_iff_length_eq_zero, hlen]
  simp only [callFault?, hc.name, hc.usingCall, hlen, hnil]

theorem enterCall_runs {c c' : CallSite} {use : Use} (hc : S.Site at'.top standing q c c') :
    Runs (enterCall env at' c use) (enterCall env at' c' use) p
      fun p' e => Entered at' c use p' e := by
  refine ⟨?_, ?_⟩
  · simp only [enterCall_run, hc.name, hc.usingCall, hc.span, callFault?_congr hc]
  · intro e p' hrun
    rw [enterCall_run] at hrun
    split at hrun
    · cases hrun
    next e' hfind =>
    split at hrun
    · cases hrun
    next hfault =>
    cases hrun
    have hfaultless := faultless_of_callFault? hfault
    refine ⟨grows_entered _ fun hcall => ⟨e, hfind, hfaultless.isTarget hcall⟩, hfaultless,
      function?_entered hfind, mem_calls_entered .., ?_⟩
    intro hcall
    rw [hcall]
    exact isExplicit_entered ..

/-! ### Task functions -/

theorem storeArgs_runs {count : Nat} {span : Span}
    {as as' : List Argument} {kinds : List ParamKind} (i : Nat)
    (h : List.Forall₂ (S.Arg at'.top q) as as') (hlen : as.length = kinds.length) (hp : q.Grows p) :
    Runs (storeArgs at' count span i (as.zip kinds))
      (storeArgs at' count span i (as'.zip kinds)) p
      fun p' ss => ∃ values, ss = storesOf at'.trace count span i values ∧
        List.Forall₂ (fun k v => Option.isSome v = ParamKind.copiesIn k) kinds values ∧
        ∀ v, some v ∈ values → v.Meets (S.dst p' at'.top) := by
  induction h generalizing p kinds i with
  | nil =>
    cases kinds with
    | nil => exact .ret ⟨[], rfl, .nil, by simp⟩
    | cons k ks => simp at hlen
  | @cons a a' as as' ha _ ih =>
    cases kinds with
    | nil => simp at hlen
    | cons k ks =>
      have hlen' : as.length = ks.length := by simpa using hlen
      simp only [List.zip_cons_cons, storeArgs, Place.stmt]
      split
      · next hk =>
        refine (ha.value p hp).bind fun e p' hp' he => ?_
        simp only [pure_bind]
        refine (ih (i + 1) hlen' (hp.trans hp')).bind fun ss p'' hp'' hss => .ret ?_
        obtain ⟨values, rfl, hkinds, hvalues⟩ := hss
        refine ⟨some e :: values, rfl, .cons (by simp [hk]) hkinds, ?_⟩
        intro v hv
        rcases List.mem_cons.mp hv with hv | hv
        · cases hv
          exact he.mono (S.mono hp'')
        · exact hvalues v hv
      · next hk =>
        simp only [pure_bind]
        refine (ih (i + 1) hlen' hp).bind fun ss p'' hp'' hss => .ret ?_
        obtain ⟨values, rfl, hkinds, hvalues⟩ := hss
        exact ⟨none :: values, rfl, .cons (by simpa using hk) hkinds, by simpa using hvalues⟩

theorem loadArgs_runs {count : Nat} {span : Span}
    {as as' : List Argument} {kinds : List ParamKind} (i : Nat)
    (h : List.Forall₂ (S.Arg at'.top q) as as') (hlen : as.length = kinds.length) (hp : q.Grows p) :
    Runs (loadArgs at' count span i (as.zip kinds))
      (loadArgs at' count span i (as'.zip kinds)) p
      fun p' ss => ∃ targets, ss = loadsOf at'.trace count span i targets ∧
        List.Forall₂ (fun k v => Option.isSome v = true → ParamKind.copiesOut k = true)
          kinds targets ∧
        ∀ v, some v ∈ targets → v.Meets (S.dst p' at'.top) := by
  induction h generalizing p kinds i with
  | nil =>
    cases kinds with
    | nil => exact .ret ⟨[], rfl, .nil, by simp⟩
    | cons k ks => simp at hlen
  | @cons a a' as as' ha _ ih =>
    cases kinds with
    | nil => simp at hlen
    | cons k ks =>
      have hlen' : as.length = ks.length := by simpa using hlen
      have hskip : Runs (loadArgs at' count span (i + 1) (as.zip ks))
          (loadArgs at' count span (i + 1) (as'.zip ks)) p
          fun p' ss => ∃ targets, ss = loadsOf at'.trace count span i targets ∧
            List.Forall₂ (fun k v => Option.isSome v = true → ParamKind.copiesOut k = true)
              (k :: ks) targets ∧
            ∀ v, some v ∈ targets → v.Meets (S.dst p' at'.top) := by
        refine (ih (i + 1) hlen' hp).imp fun ss p' _ hss => ?_
        obtain ⟨targets, rfl, hkinds, htargets⟩ := hss
        exact ⟨none :: targets, rfl, .cons (by simp) hkinds, by simpa using htargets⟩
      rcases a with ⟨written, value, _ | x⟩ <;> rcases a' with ⟨written', value', _ | x'⟩
      · simpa [List.zip_cons_cons, loadArgs] using hskip
      · nomatch ha.target
      · nomatch ha.target
      · cases hk : k.copiesOut with
        | false => simpa [List.zip_cons_cons, loadArgs, hk] using hskip
        | true =>
          obtain ⟨hx⟩ := ha.target
          simp only [List.zip_cons_cons, loadArgs, Place.stmt, hk]
          refine (hx p hp).bind fun v p' hp' hv => ?_
          simp only [pure_bind]
          refine (ih (i + 1) hlen' (hp.trans hp')).bind fun ss p'' hp'' hss => .ret ?_
          obtain ⟨targets, rfl, hkinds, htargets⟩ := hss
          refine ⟨some v :: targets, rfl, .cons (by simp [hk]) hkinds, ?_⟩
          intro w hw
          rcases List.mem_cons.mp hw with hw | hw
          · cases hw
            exact Expr.Meets.mono (S.mono hp'') hv
          · exact htargets w hw

/-! ### What the code of a call of a task function meets -/

theorem stmtsMeet_storesOf {t : Top} {count : Nat} {span : Span} {trace : List Span}
    (hcount : count < 2 ^ 31) {values : List (Option Expr)} {i : Nat}
    (hi : i + values.length ≤ count) (h : ∀ v, some v ∈ values → v.Meets (S.dst p t)) :
    stmtsMeet (S.dst p t) (storesOf trace count span i values) := by
  induction values generalizing i with
  | nil => trivial
  | cons v vs ih =>
    have hrest := ih (i := i + 1) (by simp at hi; omega) fun v hv => h v (by simp [hv])
    cases v with
    | none => exact hrest
    | some v =>
      exact ⟨S.stored (by simp at hi; omega) hcount (h v (by simp)) trace, hrest⟩

theorem stmtsMeet_loadsOf {t : Top} {count : Nat} {span : Span} {trace : List Span}
    (hcount : count < 2 ^ 31) {targets : List (Option VarRef)} {i : Nat}
    (hi : i + targets.length ≤ count) (h : ∀ v, some v ∈ targets → v.Meets (S.dst p t)) :
    stmtsMeet (S.dst p t) (loadsOf trace count span i targets) := by
  induction targets generalizing i with
  | nil => trivial
  | cons v vs ih =>
    have hrest := ih (i := i + 1) (by simp at hi; omega) fun v hv => h v (by simp [hv])
    cases v with
    | none => exact hrest
    | some v =>
      exact ⟨S.loaded (by simp at hi; omega) hcount (h v (by simp)) trace, hrest⟩

/-- **What is passed to a task function**: the arguments, and the variable that takes the result
as one more. -/
def passedArgs (as : List Argument) (captured : Option VarRef) : List Argument :=
  as ++ (captured.map fun v => ⟨v.toExpr, pure v.toExpr, some (pure v)⟩).toList

theorem forall₂_passedArgs {t : Top} {as as' : List Argument} {captured : Option VarRef}
    (h : List.Forall₂ (S.Arg t p) as as') (hcaptured : ∀ v ∈ captured, v.Meets (S.dst p t)) :
    List.Forall₂ (S.Arg t p) (passedArgs as captured) (passedArgs as' captured) := by
  refine List.rel_append h ?_
  cases captured with
  | none => exact .nil
  | some v => exact .cons (arg_captured (hcaptured v rfl)) .nil

theorem length_passedArgs {f : FunctionDef} {as : List Argument} (captured : Option VarRef)
    (h : as.length = f.params.length) :
    (passedArgs as captured).length = (passedKinds f captured.isSome).length := by
  cases captured <;> simp [passedArgs, passedKinds, h]

/-- **The code of a call** passes everything in the way that its parameter wants, and has a cell
for each parameter and for the result. -/
theorem taskfuncCall_eq {f : FunctionDef} {c : CallSite} {captured : Option VarRef}
    (harity : c.args.length = f.params.length)
    (hresult : captured.isSome = true → f.result.isSome = true) :
    taskfuncCall at' f c captured = (do
      let args := (passedArgs c.args captured).zip (passedKinds f captured.isSome)
      if 2147483648 ≤ slotCount f then throw (.internal "taskfunc frame offset out of range")
      modify fun p => { p with calls := p.calls.markExplicit c.name.name }
      let stores ← storeArgs at' (slotCount f) c.span 0 args
      let loads ← loadArgs at' (slotCount f) c.span 0 args
      return stores ++ [at'.stmt (.call ⟨c.name, [], true, true, c.span⟩) c.span] ++ loads) := by
  have hpair : c.args.zip (f.params.map (·.kind)) ++ (captured.map fun v =>
        ((⟨v.toExpr, pure v.toExpr, some (pure v)⟩ : Argument), ParamKind.out)).toList =
      (passedArgs c.args captured).zip (passedKinds f captured.isSome) := by
    rw [passedArgs, passedKinds, List.zip_append (by simpa using harity)]
    cases captured <;> rfl
  have hcount : ((passedArgs c.args captured).zip (passedKinds f captured.isSome)).length +
      (if f.result.isSome && captured.isNone then 1 else 0) = slotCount f := by
    rw [List.length_zip, length_passedArgs captured harity, Nat.min_self]
    cases captured with
    | none => simp [passedKinds, slotCount]
    | some v => simp [passedKinds, slotCount, hresult rfl]
  simp only [taskfuncCall, hpair, hcount]

/-- **The call of a task function** is the code that passes its arguments. -/
theorem taskfuncCall_runs {c c' : CallSite} {use : Use} {captured : Option VarRef}
    {e : FunctionEntry} (hp₀ : p₀.Grows q) (hc : S.Site at'.top standing q c c')
    (hentered : Entered at' c use p e) (hp : q.Grows p) (htask : e.fn.isTaskfunc = true)
    (huse : captured.isSome = true → use.isStatement = false)
    (hcaptured : ∀ v ∈ captured, v.Meets (S.dst p at'.top)) :
    Runs (taskfuncCall at' e.fn c captured) (taskfuncCall at' e.fn c' captured) p
      fun p' ss => bodyMeets (S.dst p' at'.top) ss := by
  have harity : c.args.length = e.fn.params.length := hentered.arity
  have harity' : c'.args.length = e.fn.params.length := by rw [← hc.args.length_eq, harity]
  have hresult : captured.isSome = true → e.fn.result.isSome = true :=
    fun h => hentered.result (huse h)
  have hargs := forall₂_passedArgs (forall₂_arg_grows hc.args hp) hcaptured
  have hkinds := length_passedArgs captured harity
  rw [taskfuncCall_eq harity hresult, taskfuncCall_eq harity' hresult, hc.name, hc.span]
  dsimp only
  split
  · exact Runs.fail.bind fun _ _ _ h => h
  next hbound =>
  obtain ⟨u, hu⟩ := hentered.found
  have htarget : p.IsTarget c.name.name := ⟨_, hu, .inl htask⟩
  refine .modify_bind (Program.grows_markExplicit htarget) ?_
  set p₁ : Program := { p with calls := p.calls.markExplicit c.name.name }
  have hp₁ : p.Grows p₁ := Program.grows_markExplicit htarget
  refine (storeArgs_runs 0 hargs hkinds hp₁).bind fun stores p₂ hp₂ hstores => ?_
  refine (loadArgs_runs 0 hargs hkinds (hp₁.trans hp₂)).bind fun loads p₃ hp₃ hloads => .ret ?_
  obtain ⟨values, rfl, hvalueKinds, hvalues⟩ := hstores
  obtain ⟨targets, rfl, htargetKinds, htargets⟩ := hloads
  have hpassed : Passed e.fn captured.isSome values targets :=
    ⟨hresult, hvalueKinds, htargetKinds, by omega⟩
  have hvalues' : ∀ v, some v ∈ values → v.Meets (S.dst p₃ at'.top) :=
    fun v hv => (hvalues v hv).mono (S.mono hp₃)
  have hgrow : p.Grows p₃ := hp₁.trans (hp₂.trans hp₃)
  obtain ⟨e₃, he₃, hfn⟩ := hgrow.exists_after hu
  have hrecorded : Recorded p₃ at'.top c.name.name := by
    refine ⟨hentered.notInit (.inr htask), ?_, ?_, hgrow.calls hentered.edge⟩
    · exact Program.isUserFunction_of_function? he₃
    · exact (hp₂.trans hp₃).isExplicit (Program.isExplicit_markExplicit ..)
  have htaskfunc := S.taskfunc (hp₀.trans (hp.trans hgrow)) hc.site hrecorded he₃
    (hfn.fn ▸ htask) (hfn.fn ▸ hpassed) hvalues' htargets c.span at'.trace
  rw [hfn.fn] at htaskfunc
  obtain ⟨hlen, hlen'⟩ := hpassed.length_le
  refine ⟨htaskfunc.2, ?_⟩
  simp only [stmtsMeet_append]
  refine ⟨⟨stmtsMeet_storesOf hpassed.bound (by omega) hvalues', ⟨htaskfunc.1, trivial⟩, trivial⟩,
    stmtsMeet_loadsOf hpassed.bound (by omega) htargets⟩

/-! ### Copies -/

/-- A parameter is one of the names that a function refers to its values by. -/
theorem mem_slotNames_of_param {f : FunctionDef} {param : Param} (h : param ∈ f.params) :
    Name.firstPart param.name.name ∈ Taskfunc.slotNames f :=
  List.mem_map_of_mem (f := fun i : Ident => Name.firstPart i.name)
    (List.mem_append_left _ (List.mem_map_of_mem h))

/-- So is the result. -/
theorem mem_slotNames_of_resultKey? {f : FunctionDef} {key : String} (h : resultKey? f = some key) :
    key ∈ Taskfunc.slotNames f := by
  obtain ⟨r, hr, rfl⟩ := Option.map_eq_some_iff.mp h
  simp [Taskfunc.slotNames, hr]

/-- The arguments in the place of the parameters meet the rule of what is expanded, and stand in
the place of the parameters, one of each. -/
theorem argumentSubstitution_runs {t : Top} {as as' : List Argument} (params : List Param)
    (h : List.Forall₂ (S.Arg t q) as as') (hp : q.Grows p) :
    Runs (argumentSubstitution (params.zip as)) (argumentSubstitution (params.zip as')) p
      fun _ s => (∀ b ∈ s, b.1 ∈ params.map (fun param => Name.firstPart param.name.name) ∧
          b.2.Meets (S.src t)) ∧
        ∀ a ∈ params.zip as, ∃ b ∈ s, b.1 = Name.firstPart a.1.name.name := by
  induction h generalizing p params with
  | nil => simpa [argumentSubstitution] using Runs.ret (p := p) (by simp)
  | @cons a a' as as' ha _ ih =>
    cases params with
    | nil => simpa [argumentSubstitution] using Runs.ret (p := p) (by simp)
    | cons param params =>
      simp only [List.zip_cons_cons, argumentSubstitution]
      have hrest : ∀ value p', p.Grows p' → value.Meets (S.src t) → Runs
          (argumentSubstitution (params.zip as) >>= fun s =>
            (pure (s ++ [(Name.firstPart param.name.name, value)]) : Compile Substitution))
          (argumentSubstitution (params.zip as') >>= fun s =>
            pure (s ++ [(Name.firstPart param.name.name, value)])) p'
          fun _ s => (∀ b ∈ s,
              b.1 ∈ (param :: params).map (fun param => Name.firstPart param.name.name) ∧
                b.2.Meets (S.src t)) ∧
            ∀ a' ∈ (param, a) :: params.zip as,
              ∃ b ∈ s, b.1 = Name.firstPart a'.1.name.name := by
        intro value p' hp' hvalue
        refine (ih params (hp.trans hp')).bind fun s _ _ hs => .ret ⟨?_, ?_⟩
        · intro b hb
          rcases List.mem_append.mp hb with hb | hb
          · exact ⟨List.mem_cons_of_mem _ (hs.1 b hb).1, (hs.1 b hb).2⟩
          · rw [List.mem_singleton.mp hb]
            exact ⟨List.mem_cons_self, hvalue⟩
        · intro a' ha'
          rcases List.mem_cons.mp ha' with rfl | ha'
          · exact ⟨_, List.mem_append_right _ (List.mem_singleton_self _), rfl⟩
          · obtain ⟨b, hb, hkey⟩ := hs.2 a' ha'
            exact ⟨b, List.mem_append_left _ hb, hkey⟩
      rw [ha.written]
      split
      · simp only [pure_bind]
        exact hrest _ p (.refl p) ha.source
      · exact (ha.value p hp).bind fun e p' hp' he => hrest e p' hp' (S.back he)

/-- There is something in the place of every parameter, whatever stands in front. -/
theorem isSome_find?_of_zip {params : List Param} {as : List Argument} {s : Substitution}
    (results : Substitution) (hlen : as.length = params.length)
    (h : ∀ a ∈ params.zip as, ∃ b ∈ s, b.1 = Name.firstPart a.1.name.name) :
    ∀ param ∈ params, (Substitution.find? (results ++ s) param.name.name).isSome = true := by
  intro param hparam
  obtain ⟨a, ha, rfl⟩ : ∃ a ∈ params.zip as, a.1 = param := by
    refine List.mem_map.mp ?_
    rw [List.map_fst_zip (Nat.le_of_eq hlen.symm)]
    exact hparam
  obtain ⟨b, hb, hkey⟩ := h a ha
  rw [← Option.ne_none_iff_isSome]
  intro hnone
  have hne := List.lookup_eq_none_iff.mp hnone b (List.mem_append_right _ hb)
  simp [hkey] at hne

/-- Two ways of expanding copied bodies do the same on the bodies that are ready for it. -/
def Treats (S : Scheme env p₀) (inner inner' : Expander) : Prop :=
  ∀ at' body p, p₀.Grows p → S.ready at' body p →
    Runs (inner at' body) (inner' at' body) p fun p' ss => bodyMeets (S.dst p' at'.top) ss

/-- The place is one of those that are considered. -/
def Here (S : Scheme env p₀) (at' : Place) : Prop := S.here at'.top at'.stack

theorem Entered.name {c : CallSite} {use : Use} {e : FunctionEntry}
    (h : Entered at' c use p e) : e.name = c.name.name := by
  obtain ⟨u, hu⟩ := h.found
  exact (Program.mem_functions_of_function? hu).2

variable {inner inner' : Expander}

/-- The declarations that are taken along with a copy are ready to be expanded. -/
theorem takeDeclarations_runs (hhere : S.Here at') {c : CallSite} {use : Use}
    {e : FunctionEntry} (hp₀ : p₀.Grows p) (hentered : Entered at' c use p e)
    (htask : e.fn.isTaskfunc = false) :
    Runs (takeDeclarations at' e) (takeDeclarations at' e) p fun p' ss => S.ready at' ss p' := by
  unfold takeDeclarations
  obtain ⟨u, hu⟩ := hentered.found
  split
  · next hinit =>
    rw [hentered.name]
    exact .modify_bind (p.grows_drained c.name.name)
      (.ret (S.readyDecls (e := { e with used := u }) hp₀ hhere hu htask hentered.fresh hinit))
  · exact .ret (S.readyNil hp₀ hhere hu hentered.fresh)

/-- **A copy of a body** meets the rule of expanded statements. -/
theorem inlineBody_runs (hinner : S.Treats inner inner') (hhere : S.Here at')
    {c c' : CallSite} {use : Use} {e : FunctionEntry} {result : Option VarRef}
    (hp₀ : p₀.Grows q) (hc : S.Site at'.top standing q c c') (hp : q.Grows p)
    (hentered : Entered at' c use p e) (htask : e.fn.isTaskfunc = false)
    (hresult : ∀ v ∈ result, v.Meets (S.dst p at'.top)) :
    Runs (inlineBody env inner at' e c result) (inlineBody env inner' at' e c' result) p
      fun p' ss => bodyMeets (S.dst p' at'.top) ss := by
  unfold inlineBody
  rw [hc.span]
  refine (takeDeclarations_runs hhere (hp₀.trans hp) hentered htask).bind
    fun decls p₁ hp₁ hdecls => ?_
  refine (hinner at' decls p₁ (hp₀.trans (hp.trans hp₁)) hdecls).bind fun decls p₂ hp₂ hdecls => ?_
  refine (argumentSubstitution_runs e.fn.params hc.args (hp.trans (hp₁.trans hp₂))).bind
    fun params p₃ hp₃ hparams => ?_
  have hgrow : p.Grows p₃ := hp₁.trans (hp₂.trans hp₃)
  obtain ⟨u, hu⟩ := hentered.found
  obtain ⟨e₃, he₃, hfn⟩ := hgrow.exists_after hu
  dsimp only
  refine .lift_bind fun body hbody => ?_
  have hready : S.ready ⟨at'.top, at'.stack ++ [e.name], at'.trace⟩ body p₃ := by
    rw [hentered.name]
    refine S.readyBody (hp₀.trans (hp.trans hgrow)) hhere he₃ (hfn.fn ▸ htask) hentered.fresh ?_
      (hfn.fn ▸ isSome_find?_of_zip _ hentered.arity hparams.2) (hfn.fn ▸ hbody)
    intro b hb
    rcases List.mem_append.mp hb with hb | hb
    · split at hb
      · next key target hkey _ =>
        rw [List.mem_singleton.mp hb]
        exact ⟨mem_slotNames_of_resultKey? hkey, S.back (hresult _ rfl)⟩
      · cases hb
    · obtain ⟨hkey, hmeets⟩ := hparams.1 b hb
      obtain ⟨param, hparam, hkey⟩ := List.mem_map.mp hkey
      rw [← hkey, hfn.fn]
      exact ⟨mem_slotNames_of_param hparam, hmeets⟩
  refine (hinner _ body p₃ (hp₀.trans (hp.trans hgrow)) hready).bind fun copy p₄ hp₄ hcopy => ?_
  refine .ret ⟨S.append ((S.mono (hp₃.trans hp₄)).list _ hdecls.1) hcopy.1, ?_⟩
  exact stmtsMeet_append.mpr ⟨stmtsMeet_mono (S.mono (hp₃.trans hp₄)) hdecls.2, hcopy.2⟩

/-! ### Calls -/

theorem reachesBuiltin_congr {t : Top} {c c' : CallSite} (hc : S.Site t standing q c c') :
    reachesBuiltin env p c' = reachesBuiltin env p c := by
  simp only [reachesBuiltin, hc.name, hc.usingCall]

theorem bodyMeets_single {r : Rule} {k : StmtKind} {span : Span} {trace : List Span}
    (h : r.Accepts k) (hk : Stmt.Meets r ⟨k, span, trace⟩) : bodyMeets r [⟨k, span, trace⟩] :=
  ⟨h.2 span trace, hk, trivial⟩

theorem bodyMeets_assign {t : Top} {target : VarRef} {value : Expr} {span : Span}
    {trace : List Span} (ht : target.Meets (S.dst p t)) (hv : value.Meets (S.dst p t)) :
    bodyMeets (S.dst p t) [⟨.assign target value, span, trace⟩] :=
  bodyMeets_single (S.assign ht hv) (.inr ⟨(S.assign ht hv).1, ht, hv⟩)

/-- What reaches a built-in function stays the call of one. -/
theorem reachingCall_runs {c c' : CallSite} (hc : S.Site at'.top standing p c c')
    (hb : reachesBuiltin env p c = true) :
    Runs (builtinCall at' c) (builtinCall at' c') p fun p' call => ∃ args,
      call = ⟨c.name, args, c.isProcedure, false, c.span⟩ ∧
        p'.isBuiltinCall env.builtins c.name.name = true ∧
        argsMeet (S.dst p' at'.top) ((S.dst p' at'.top).skips c.name.name) args := by
  simp only [reachesBuiltin, Bool.and_eq_true, Bool.not_eq_true'] at hb
  refine (builtinCall_runs hc (.refl p)).imp fun call p' hp' hcall => ?_
  obtain ⟨hshape, hargs⟩ := hcall
  rw [hb.1] at hshape
  exact ⟨call.args, hshape, (hp'.isBuiltinCall ..).trans hb.2, hargs⟩

/-- **A call that is kept** passes nothing. -/
theorem Entered.kept {c c' : CallSite} {e : FunctionEntry} (hp₀ : p₀.Grows p)
    (hc : S.Site at'.top true q c c') (h : Entered at' c .statement p e)
    (htask : e.fn.isTaskfunc = false) (hcall : c.usingCall = true) :
    c.args = [] ∧ c'.args = [] ∧
      (S.dst p at'.top).Accepts (.call ⟨c.name, [], c.isProcedure, true, c.span⟩) := by
  obtain ⟨hargs, -⟩ := h.keyword hcall htask
  have hargs' : c'.args = [] := by
    have hlen := hc.args.length_eq
    rw [hargs] at hlen
    exact List.length_eq_zero_iff.mp hlen.symm
  have hparams : e.fn.params = [] := by
    have harity := h.arity
    rw [hargs] at harity
    exact List.length_eq_zero_iff.mp harity.symm
  obtain ⟨u, hu⟩ := h.found
  have hrecorded : Recorded p at'.top c.name.name :=
    ⟨h.notInit (.inl hcall), Program.isUserFunction_of_function? hu, h.explicit hcall, h.edge⟩
  exact ⟨hargs, hargs', S.kept hp₀ hc.site hrecorded hu htask hparams c.span⟩

/-- **What becomes of a call that is a statement**, or a whole right side. -/
theorem callStmts_runs (hinner : S.Treats inner inner') (hhere : S.Here at')
    {c c' : CallSite} {target : Option VarRef} (hp₀ : p₀.Grows p)
    (hc : S.Site at'.top target.isNone p c c') (htarget : ∀ v ∈ target, v.Meets (S.dst p at'.top)) :
    Runs (callStmts env inner at' c target) (callStmts env inner' at' c' target) p
      fun p' ss => bodyMeets (S.dst p' at'.top) ss := by
  rw [callStmts_eq, callStmts_eq]
  refine .get_bind ?_
  rw [reachesBuiltin_congr hc]
  split
  · next hb =>
    rw [hc.span]
    refine (reachingCall_runs hc hb).bind fun call p₁ hp₁ hcall => .ret ?_
    obtain ⟨args, rfl, hbuiltin, hargs⟩ := hcall
    cases target with
    | some v =>
      have hexpr := S.builtin (hp₀.trans hp₁) hc.site hbuiltin args c.span
      exact bodyMeets_assign ((htarget v rfl).mono (S.mono hp₁)) ⟨hexpr, hargs⟩
    | none =>
      have hstmt := S.builtinStmt (hp₀.trans hp₁) hc.site hbuiltin args c.span
      exact bodyMeets_single hstmt ⟨hstmt.1, hargs⟩
  · dsimp only
    refine (enterCall_runs hc).bind fun e p₁ hp₁ hentered => ?_
    have htarget₁ : ∀ v ∈ target, v.Meets (S.dst p₁ at'.top) :=
      fun v hv => Expr.Meets.mono (S.mono hp₁) (htarget v hv)
    split
    · next htask =>
      refine taskfuncCall_runs hp₀ hc hentered hp₁ htask ?_ htarget₁
      intro hsome
      cases target with
      | some v => rfl
      | none => cases hsome
    · next htask =>
      rw [Bool.not_eq_true] at htask
      rw [hc.usingCall, hc.span, hc.isProcedure, hc.name]
      split
      · next hcall =>
        obtain rfl : target = none := by
          obtain ⟨-, huse⟩ := hentered.keyword hcall htask
          cases target with
          | some v => cases huse
          | none => rfl
        obtain ⟨hargs, hargs', hkept⟩ := hentered.kept (hp₀.trans hp₁) hc htask hcall
        rw [hargs, hargs', hcall]
        exact .ret (bodyMeets_single hkept ⟨hkept.1, trivial⟩)
      · exact inlineBody_runs hinner hhere hp₀ hc hp₁ hentered htask htarget₁

/-- **What becomes of a call inside an expression.** -/
theorem callExpr_runs (hinner : S.Treats inner inner') (hhere : S.Here at')
    {c c' : CallSite} (hp₀ : p₀.Grows p) (hc : S.Site at'.top false p c c') :
    Runs (callExpr env inner at' c) (callExpr env inner' at' c') p
      fun p' e => e.Meets (S.dst p' at'.top) := by
  rw [callExpr_eq, callExpr_eq]
  refine .get_bind ?_
  rw [reachesBuiltin_congr hc]
  split
  · next hb =>
    refine (reachingCall_runs hc hb).bind fun call p₁ hp₁ hcall => .ret ?_
    obtain ⟨args, rfl, hbuiltin, hargs⟩ := hcall
    exact ⟨S.builtin (hp₀.trans hp₁) hc.site hbuiltin args c.span, hargs⟩
  · refine (enterCall_runs hc).bind fun e p₁ hp₁ hentered => ?_
    have htask : e.fn.isTaskfunc = false := hentered.noTaskfunc rfl
    refine (inlineBody_runs hinner hhere hp₀ hc hp₁ hentered htask (by simp)).bind
      fun body p₂ hp₂ hbody => ?_
    rw [hc.name, hc.span]
    split
    · next value hvalue =>
      refine .ret ?_
      unfold resultOf? at hvalue
      split at hvalue
      · split at hvalue
        · cases hvalue
          exact S.single hbody
        · cases hvalue
      · cases hvalue
    · exact .fail

/-! ### Expressions -/

theorem isPropertyRef_grows (hp : p₀.Grows p) (i : Ident) :
    isPropertyRef p i = isPropertyRef p₀ i := by
  rw [isPropertyRef, isPropertyRef, hp.symbols]

theorem namesFunction_grows (hp : p₀.Grows p) (i : Ident) :
    namesFunction p i = namesFunction p₀ i := by
  rw [namesFunction, namesFunction, hp.isUserFunction]

/-- The call that reads a property. -/
theorem getterSite_alike {i : Ident} {as as' : List Argument} {es : List Expr} {span : Span}
    (hp₀ : p₀.Grows p) (hvar : (S.src at'.top).expr (.var i es span))
    (hprop : isPropertyRef p i = true) (has : List.Forall₂ (S.Arg at'.top p) as as') :
    Alike (S.Site at'.top false p) (getterSite env at' p i as span)
      (getterSite env at' p i as' span) := by
  unfold getterSite
  dsimp only
  split
  · next huser =>
    refine .ok ⟨rfl, rfl, rfl, rfl, has, ?_⟩
    exact S.siteOfGetter hvar ((isPropertyRef_grows hp₀ i).symm.trans hprop)
      ((hp₀.isUserFunction _).symm.trans huser)
  · exact .error _

/-- The call that writes a property. -/
theorem setterSite_alike {target : VarRef} {as as' : List Argument} {span : Span}
    (hp₀ : p₀.Grows p) (hvar : target.Meets (S.src at'.top))
    (hprop : isPropertyRef p target.ident = true) (has : List.Forall₂ (S.Arg at'.top p) as as') :
    Alike (S.Site at'.top true p) (setterSite env at' p target as span)
      (setterSite env at' p target as' span) := by
  unfold setterSite
  dsimp only
  split
  · next huser =>
    refine .ok ⟨rfl, rfl, rfl, rfl, has, ?_⟩
    exact S.siteOfSetter hvar.1 ((isPropertyRef_grows hp₀ _).symm.trans hprop)
      ((hp₀.isUserFunction _).symm.trans huser)
  · exact .error _

theorem isPropertyRef_of_sigil {i : Ident} (h : i.sigil.isSome = true) :
    isPropertyRef p i = false ∧ namesFunction p i = false := by
  cases hs : i.sigil with
  | none => simp [hs] at h
  | some s => simp [isPropertyRef, namesFunction, hs]

theorem eq_of_forall₂_fixed {es es' : List Expr}
    (h : List.Forall₂ (fun e e' => e.Meets .fixed → e' = e) es es') (hes : exprsMeet .fixed es) :
    es' = es := by
  induction h with
  | nil => rfl
  | cons he _ ih => rw [he hes.1, ih hes.2]

mutual

/-- An expression without calls and with all sigils stays as it is. -/
theorem expr_fixed (env : Env) (inner : Expander) (at' : Place) :
    ∀ (e : Expr), e.Meets .fixed → expr env inner at' e = pure e
  | .binary op left right span, .inr ⟨_, hl, hr⟩ => by
    simp only [expr, expr_fixed env inner at' left hl, expr_fixed env inner at' right hr, pure_bind]
  | .unary op operand span, ⟨_, ho⟩ => by
    simp only [expr, expr_fixed env inner at' operand ho, pure_bind]
  | .var i subscripts span, ⟨h, hs⟩ => by
    funext p
    have hsigil := isPropertyRef_of_sigil (p := p) h
    simp only [expr, exprs_fixed env inner at' subscripts hs]
    show StateT.run _ p = _
    simp [hsigil.1, hsigil.2]
    rfl
  | .int _ _, _ | .real _ _, _ | .str _ _, _ | .bool _ _, _ | .raw _ _, _ => by simp only [expr]

theorem exprs_fixed (env : Env) (inner : Expander) (at' : Place) :
    ∀ (es : List Expr), exprsMeet .fixed es → exprs env inner at' es = pure es
  | [], _ => by simp only [exprs]
  | e :: es, ⟨he, hes⟩ => by
    simp only [exprs, expr_fixed env inner at' e he, exprs_fixed env inner at' es hes, pure_bind]

end

mutual

/-- **An expression, expanded**, meets the rule of expanded ones; one without calls and with
all sigils stays as it is. -/
theorem expr_runs (hinner : S.Treats inner inner') (hhere : S.Here at') :
    ∀ (e : Expr), e.Meets (S.src at'.top) → ∀ p, p₀.Grows p →
      Runs (expr env inner at' e) (expr env inner' at' e) p fun p' e' =>
        e'.Meets (S.dst p' at'.top) ∧ (e.Meets .fixed → e' = e)
  | .binary op left right span, .inl h, p, hp => by
    obtain ⟨hatom, hl, hr⟩ := S.atom (p := p) h
    have hfixed : (Expr.binary op left right span).Meets .fixed := .inr ⟨trivial, hl, hr⟩
    rw [expr_fixed _ _ _ _ hfixed, expr_fixed _ _ _ _ hfixed]
    exact .ret ⟨.inl hatom, fun _ => rfl⟩
  | .binary op left right span, .inr ⟨h, hl, hr⟩, p, hp => by
    simp only [expr]
    refine (expr_runs hinner hhere left hl p hp).bind fun left' p₁ hp₁ hleft => ?_
    refine (expr_runs hinner hhere right hr p₁ (hp.trans hp₁)).bind fun right' p₂ hp₂ hright => ?_
    refine .ret ⟨.inr ⟨S.binary h, hleft.1.mono (S.mono hp₂), hright.1⟩, ?_⟩
    rintro (hfix | ⟨-, hfixl, hfixr⟩)
    · cases hfix
    · rw [hleft.2 hfixl, hright.2 hfixr]
  | .unary op operand span, ⟨h, ho⟩, p, hp => by
    simp only [expr]
    refine (expr_runs hinner hhere operand ho p hp).bind fun e' p₁ _ he => ?_
    refine .ret ⟨⟨S.unary h, he.1⟩, ?_⟩
    intro hfix
    rw [he.2 hfix.2]
  | .var i subscripts span, ⟨h, hs⟩, p, hp => by
    simp only [expr]
    refine .get_bind ?_
    split
    · next hprop =>
      have hargs := arguments_pairs hinner hhere subscripts hs p hp
      refine .alike_bind ((getterSite_alike hp h hprop hargs).imp fun c c' hsite => ?_)
      refine (callExpr_runs hinner hhere hp hsite).imp fun e' _ _ he => ⟨he, ?_⟩
      intro hfix
      rw [(isPropertyRef_of_sigil hfix.1).1] at hprop
      cases hprop
    · split
      · next hname =>
        rw [Bool.and_eq_true, namesFunction_grows hp] at hname
        obtain rfl : subscripts = [] := List.isEmpty_iff.mp hname.1
        have hsite : S.Site at'.top false p ⟨i, [], false, false, i.span⟩
            ⟨i, [], false, false, i.span⟩ :=
          ⟨rfl, rfl, rfl, rfl, .nil, S.siteOfName h hname.2⟩
        refine (callExpr_runs hinner hhere hp hsite).imp fun e' _ _ he => ⟨he, ?_⟩
        intro hfix
        rw [(isPropertyRef_of_sigil hfix.1).2] at hname
        cases hname.2
      · refine (exprs_runs hinner hhere subscripts hs p hp).bind fun es p₁ hp₁ hes => ?_
        refine .ret ⟨⟨S.var (hp.trans hp₁) h hes.2, hes.1⟩, ?_⟩
        intro hfix
        rw [eq_of_forall₂_fixed hes.2 hfix.2]
  | .call name args isProcedure usingCall span, ⟨h, hargs⟩, p, hp => by
    simp only [expr]
    rw [S.skips, argsMeet_false] at hargs
    have hsite : S.Site at'.top false p
        ⟨name, arguments env inner at' args, isProcedure, usingCall, span⟩
        ⟨name, arguments env inner' at' args, isProcedure, usingCall, span⟩ :=
      ⟨rfl, rfl, rfl, rfl, arguments_pairs hinner hhere args hargs p hp, S.siteOfCall h⟩
    exact (callExpr_runs hinner hhere hp hsite).imp fun e' _ _ he => ⟨he, fun hfix => hfix.1.elim⟩
  | .int v span, h, p, hp => .ret ⟨S.literal rfl h, fun _ => rfl⟩
  | .real v span, h, p, hp => .ret ⟨S.literal rfl h, fun _ => rfl⟩
  | .str raw span, h, p, hp => .ret ⟨S.literal rfl h, fun _ => rfl⟩
  | .bool v span, h, p, hp => .ret ⟨S.literal rfl h, fun _ => rfl⟩
  | .raw text span, h, p, hp => .ret ⟨S.literal rfl h, fun _ => rfl⟩

/-- Expressions, expanded. -/
theorem exprs_runs (hinner : S.Treats inner inner') (hhere : S.Here at') :
    ∀ (es : List Expr), exprsMeet (S.src at'.top) es → ∀ p, p₀.Grows p →
      Runs (exprs env inner at' es) (exprs env inner' at' es) p fun p' es' =>
        exprsMeet (S.dst p' at'.top) es' ∧
          List.Forall₂ (fun e e' => e.Meets .fixed → e' = e) es es'
  | [], _, p, _ => .ret ⟨trivial, .nil⟩
  | e :: es, ⟨he, hes⟩, p, hp => by
    simp only [exprs]
    refine (expr_runs hinner hhere e he p hp).bind fun e' p₁ hp₁ he' => ?_
    refine (exprs_runs hinner hhere es hes p₁ (hp.trans hp₁)).bind fun es' p₂ hp₂ hes' => ?_
    exact .ret ⟨⟨he'.1.mono (S.mono hp₂), hes'.1⟩, .cons he'.2 hes'.2⟩

/-- Expressions as the arguments of a call. -/
theorem arguments_pairs (hinner : S.Treats inner inner') (hhere : S.Here at') :
    ∀ (es : List Expr), exprsMeet (S.src at'.top) es → ∀ q, p₀.Grows q →
      List.Forall₂ (S.Arg at'.top q) (arguments env inner at' es) (arguments env inner' at' es)
  | [], _, q, _ => by
    simp only [arguments]
    exact .nil
  | e :: es, ⟨he, hes⟩, q, hq => by
    simp only [arguments]
    refine .cons ⟨rfl, he, ?_, ?_⟩ (arguments_pairs hinner hhere es hes q hq)
    · intro p hp
      exact (expr_runs hinner hhere e he p (hq.trans hp)).imp fun _ _ _ h => h.1
    · exact targetOf?_rel hinner hhere e he q hq

/-- The reference that an expression is. -/
theorem targetOf?_rel (hinner : S.Treats inner inner') (hhere : S.Here at') :
    ∀ (e : Expr), e.Meets (S.src at'.top) → ∀ q, p₀.Grows q →
      Option.Rel (fun x x' => ∀ p, q.Grows p → Runs x x' p fun p' v => v.Meets (S.dst p' at'.top))
        (targetOf? env inner at' e) (targetOf? env inner' at' e)
  | .var i subscripts span, ⟨h, hs⟩, q, hq => by
    simp only [targetOf?]
    refine .some fun p hp => ?_
    refine (exprs_runs hinner hhere subscripts hs p (hq.trans hp)).bind fun es p₁ hp₁ hes => ?_
    exact .ret ⟨S.var (hq.trans (hp.trans hp₁)) h hes.2, hes.1⟩
  | .binary _ _ _ _, _, _, _ | .unary _ _ _, _, _, _ | .call _ _ _ _ _, _, _, _
  | .int _ _, _, _, _ | .real _ _, _, _, _ | .str _ _, _, _, _ | .bool _ _, _, _, _
  | .raw _ _, _, _, _ => by
    simp only [targetOf?]
    exact .none

end

/-! ### Assignments and declarations -/

theorem varRef_runs (hinner : S.Treats inner inner') (hhere : S.Here at')
    {v : VarRef} (hv : v.Meets (S.src at'.top)) (hp : p₀.Grows p) :
    Runs (varRef env inner at' v) (varRef env inner' at' v) p
      fun p' v' => v'.Meets (S.dst p' at'.top) := by
  unfold varRef
  refine (exprs_runs hinner hhere v.subscripts hv.2 p hp).bind fun es p₁ hp₁ hes => ?_
  exact .ret ⟨S.var (hp.trans hp₁) hv.1 hes.2, hes.1⟩

/-- The call that a right side is. -/
theorem siteOfValue?_alike (hinner : S.Treats inner inner') (hhere : S.Here at')
    {value : Expr} (hvalue : value.Meets (S.src at'.top)) (hp : p₀.Grows p) :
    Alike (Option.Rel (S.Site at'.top false p)) (siteOfValue? env inner at' p value)
      (siteOfValue? env inner' at' p value) := by
  cases value with
  | call name args isProcedure usingCall span =>
    have hargs := hvalue.2
    rw [S.skips, argsMeet_false] at hargs
    exact .ok (.some ⟨rfl, rfl, rfl, rfl, arguments_pairs hinner hhere args hargs p hp,
      S.siteOfCall hvalue.1⟩)
  | var i subscripts span =>
    simp only [siteOfValue?]
    split
    · next hprop =>
      have hargs := arguments_pairs hinner hhere subscripts hvalue.2 p hp
      exact (getterSite_alike hp hvalue.1 hprop hargs).map fun _ _ hsite => .some hsite
    · split
      · next hname =>
        rw [Bool.and_eq_true, namesFunction_grows hp] at hname
        obtain rfl : subscripts = [] := List.isEmpty_iff.mp hname.1
        exact .ok (.some ⟨rfl, rfl, rfl, rfl, .nil, S.siteOfName hvalue.1 hname.2⟩)
      · exact .ok .none
  | binary _ _ _ _ | unary _ _ _ | int _ _ | real _ _ | str _ _ | bool _ _ | raw _ _ =>
    exact .ok .none

/-- **An assignment, expanded.** -/
theorem assignment_runs (hinner : S.Treats inner inner') (hhere : S.Here at')
    {target : VarRef} {value : Expr} {span : Span} (htarget : target.Meets (S.src at'.top))
    (hvalue : value.Meets (S.src at'.top)) (hp : p₀.Grows p) :
    Runs (assignment env inner at' target value span)
      (assignment env inner' at' target value span) p
      fun p' ss => bodyMeets (S.dst p' at'.top) ss := by
  unfold assignment
  refine .get_bind ?_
  split
  · next hprop =>
    have hes : exprsMeet (S.src at'.top) (target.subscripts ++ [value]) :=
      exprsMeet_append.mpr ⟨htarget.2, hvalue, trivial⟩
    have hargs := arguments_pairs hinner hhere _ hes p hp
    refine .alike_bind ((setterSite_alike hp htarget hprop hargs).imp fun c c' hsite => ?_)
    exact callStmts_runs hinner hhere hp hsite (by simp)
  · refine .alike_bind ((siteOfValue?_alike hinner hhere hvalue hp).imp fun c? c?' hrel => ?_)
    cases hrel with
    | none =>
      refine (varRef_runs hinner hhere htarget hp).bind fun v p₁ hp₁ hv => ?_
      refine (expr_runs hinner hhere value hvalue p₁ (hp.trans hp₁)).bind fun e p₂ hp₂ he => ?_
      exact .ret (bodyMeets_assign (Expr.Meets.mono (S.mono hp₂) hv) he.1)
    | @some c c' hsite =>
      dsimp only
      rw [reachesBuiltin_congr hsite]
      split
      · refine (varRef_runs hinner hhere htarget hp).bind fun v p₁ hp₁ hv => ?_
        refine (callExpr_runs hinner hhere (hp.trans hp₁) (hsite.grows hp₁)).bind
          fun e p₂ hp₂ he => ?_
        exact .ret (bodyMeets_assign (Expr.Meets.mono (S.mono hp₂) hv) he)
      · refine (varRef_runs hinner hhere htarget hp).bind fun v p₁ hp₁ hv => ?_
        refine callStmts_runs hinner hhere (hp.trans hp₁) (hsite.grows hp₁) ?_
        rintro w hw
        cases hw
        exact hv

theorem option_expr_runs (hinner : S.Treats inner inner') (hhere : S.Here at')
    {o : Option Expr} (ho : ∀ e ∈ o, e.Meets (S.src at'.top)) (hp : p₀.Grows p) :
    Runs (o.mapM (expr env inner at')) (o.mapM (expr env inner' at')) p
      fun p' o' => o'.isSome = o.isSome ∧ ∀ e ∈ o', e.Meets (S.dst p' at'.top) := by
  refine (Runs.option_mapM fun e he => (expr_runs hinner hhere e (ho e he) p hp)).imp
    fun o' p' _ h => ⟨optionRel_isSome h, forall_mem_of_optionRel h fun _ _ h => h.1⟩

theorem initializer_runs (hinner : S.Treats inner inner') (hhere : S.Here at')
    {i : Initializer} (hi : i.Meets (S.src at'.top)) (hp : p₀.Grows p) :
    Runs (initializer env inner at' i) (initializer env inner' at' i) p
      fun p' i' => i.Reshaped i' ∧ i'.Meets (S.dst p' at'.top) := by
  cases i with
  | single e =>
    exact (expr_runs hinner hhere e hi p hp).bind fun e' _ _ he => .ret ⟨trivial, he.1⟩
  | list es =>
    exact (exprs_runs hinner hhere es hi p hp).bind fun es' _ _ hes =>
      .ret ⟨hes.2.length_eq.symm, hes.1⟩

/-- **A declaration, expanded**, keeps its name and its form. -/
theorem declaration_runs (hinner : S.Treats inner inner') (hhere : S.Here at')
    {d : Declaration} (hd : d.Meets (S.src at'.top)) (hp : p₀.Grows p) :
    Runs (declaration env inner at' d) (declaration env inner' at' d) p
      fun p' d' => d.Reshaped d' ∧ d'.Meets (S.dst p' at'.top) := by
  unfold declaration
  obtain ⟨hsize, hparams, hinit⟩ := hd
  refine (option_expr_runs hinner hhere hsize hp).bind fun size p₁ hp₁ hsize' => ?_
  refine (exprs_runs hinner hhere d.params hparams p₁ (hp.trans hp₁)).bind
    fun params p₂ hp₂ hparams' => ?_
  have hp' := hp.trans (hp₁.trans hp₂)
  refine (Runs.option_mapM fun i hi => initializer_runs hinner hhere (hinit i hi) hp').bind
    fun init p₃ hp₃ hinit' => .ret ⟨⟨rfl, rfl, hsize'.1, hparams'.2.length_eq.symm, ?_⟩, ?_, ?_, ?_⟩
  · exact optionRel_imp hinit' fun _ _ h => h.1
  · exact fun e he => (hsize'.2 e he).mono (S.mono (hp₂.trans hp₃))
  · exact exprsMeet_mono (S.mono hp₃) hparams'.1
  · exact forall_mem_of_optionRel hinit' fun _ _ h => h.2

/-! ### Statements -/

mutual

/-- A statement, expanded, meets the rule of expanded statements. -/
theorem stmt_runs (hinner : S.Treats inner inner') {outer : Place}
    (hhere : S.Here outer) :
    ∀ (s : Stmt), s.Meets (S.src outer.top) → ∀ p, p₀.Grows p →
      Runs (stmt env inner outer s) (stmt env inner' outer s) p
        fun p' ss => bodyMeets (S.dst p' outer.top) ss
  | ⟨.call c, span, trace⟩, ⟨h, hargs⟩, p, hp => by
    simp only [stmt]
    have hhere' : S.Here { outer with trace } := hhere
    rw [S.skips, argsMeet_false] at hargs
    refine callStmts_runs hinner hhere' hp ?_ (by simp)
    exact ⟨rfl, rfl, rfl, rfl, arguments_pairs hinner hhere' c.args hargs p hp, S.siteOfStmt h⟩
  | ⟨.assign target value, span, trace⟩, .inl h, p, hp => absurd h S.noWhole
  | ⟨.assign target value, span, trace⟩, .inr ⟨_, ht, hv⟩, p, hp => by
    simp only [stmt]
    have hhere' : S.Here { outer with trace } := hhere
    exact assignment_runs hinner hhere' ht hv hp
  | ⟨.declare d, span, trace⟩, ⟨h, hd⟩, p, hp => by
    simp only [stmt]
    have hhere' : S.Here { outer with trace } := hhere
    refine (declaration_runs hinner hhere' hd hp).bind fun d' p₁ hp₁ hd' => .ret ?_
    have haccept : (S.dst p₁ outer.top).Accepts (.declare d') := S.reshape (.declare hd'.1) h
    exact bodyMeets_single haccept ⟨haccept.1, hd'.2⟩
  | ⟨.whileLoop cond body, span, trace⟩, ⟨h, hc, _, hb⟩, p, hp => by
    simp only [stmt]
    have hhere' : S.Here { outer with trace } := hhere
    refine (expr_runs hinner hhere' cond hc p hp).bind fun cond' p₁ hp₁ hcond => ?_
    refine (stmts_runs hinner hhere' body hb p₁ (hp.trans hp₁)).bind
      fun body' p₂ hp₂ hbody => .ret ?_
    have haccept : (S.dst p₂ outer.top).Accepts (.whileLoop cond' body') := S.reshape .whileLoop h
    exact bodyMeets_single haccept ⟨haccept.1, hcond.1.mono (S.mono hp₂), hbody.1, hbody.2⟩
  | ⟨.forLoop var start stop step downto body, span, trace⟩, ⟨h, hv, h₁, h₂, h₃, _, hb⟩, p, hp => by
    simp only [stmt]
    have hhere' : S.Here { outer with trace } := hhere
    refine (varRef_runs hinner hhere' hv hp).bind fun var' p₁ hp₁ hvar => ?_
    have hp' := hp.trans hp₁
    refine (expr_runs hinner hhere' start h₁ p₁ hp').bind fun start' p₂ hp₂ hstart => ?_
    have hp' := hp'.trans hp₂
    refine (expr_runs hinner hhere' stop h₂ p₂ hp').bind fun stop' p₃ hp₃ hstop => ?_
    have hp' := hp'.trans hp₃
    refine (option_expr_runs hinner hhere' h₃ hp').bind fun step' p₄ hp₄ hstep => ?_
    refine (stmts_runs hinner hhere' body hb p₄ (hp'.trans hp₄)).bind
      fun body' p₅ hp₅ hbody => .ret ?_
    have haccept : (S.dst p₅ outer.top).Accepts (.forLoop var' start' stop' step' downto body') :=
      S.reshape (.forLoop hstep.1) h
    have hp₃' := hp₄.trans hp₅
    have hp₂' := hp₃.trans hp₃'
    exact bodyMeets_single haccept ⟨haccept.1,
      Expr.Meets.mono (S.mono (hp₂.trans hp₂')) hvar, hstart.1.mono (S.mono hp₂'),
      hstop.1.mono (S.mono hp₃'), fun e he => (hstep.2 e he).mono (S.mono hp₅), hbody.1, hbody.2⟩
  | ⟨.family name body, span, trace⟩, ⟨h, _, hb⟩, p, hp => by
    simp only [stmt]
    have hhere' : S.Here { outer with trace } := hhere
    refine (stmts_runs hinner hhere' body hb p hp).bind fun body' p₁ hp₁ hbody => .ret ?_
    have haccept : (S.dst p₁ outer.top).Accepts (.family name body') := S.reshape .family h
    exact bodyMeets_single haccept ⟨haccept.1, hbody.1, hbody.2⟩
  | ⟨.ifChain bs otherwise, span, trace⟩, ⟨h, hbs, _, ho⟩, p, hp => by
    simp only [stmt]
    have hhere' : S.Here { outer with trace } := hhere
    refine (branches_runs hinner hhere' bs hbs p hp).bind fun bs' p₁ hp₁ hbranches => ?_
    refine (stmts_runs hinner hhere' otherwise ho p₁ (hp.trans hp₁)).bind
      fun otherwise' p₂ hp₂ hother => .ret ?_
    have haccept : (S.dst p₂ outer.top).Accepts (.ifChain bs' otherwise') :=
      S.reshape (.ifChain hbranches.1) h
    exact bodyMeets_single haccept
      ⟨haccept.1, branchesMeet_mono (S.mono hp₂) hbranches.2, hother.1, hother.2⟩
  | ⟨.select subject cs, span, trace⟩, ⟨h, hs, hcs⟩, p, hp => by
    simp only [stmt]
    have hhere' : S.Here { outer with trace } := hhere
    refine (expr_runs hinner hhere' subject hs p hp).bind fun subject' p₁ hp₁ hsubject => ?_
    refine (cases_runs hinner hhere' cs hcs p₁ (hp.trans hp₁)).bind
      fun cs' p₂ hp₂ hcases => .ret ?_
    have haccept : (S.dst p₂ outer.top).Accepts (.select subject' cs') :=
      S.reshape (.select hcases.1) h
    exact bodyMeets_single haccept ⟨haccept.1, hsubject.1.mono (S.mono hp₂), hcases.2⟩
  | ⟨.property name fs, span, trace⟩, ⟨h, hfs⟩, p, hp => by
    simp only [stmt]
    have hhere' : S.Here { outer with trace } := hhere
    refine (functions_runs hinner hhere' fs hfs p hp).bind fun fs' p₁ hp₁ hfunctions => .ret ?_
    have haccept : (S.dst p₁ outer.top).Accepts (.property name fs') :=
      S.reshape (.property hfunctions.1) h
    exact bodyMeets_single haccept ⟨haccept.1, hfunctions.2⟩
  | ⟨.synonym name indices target, span, trace⟩, ⟨h, ht⟩, p, hp => by
    simp only [stmt]
    have hhere' : S.Here { outer with trace } := hhere
    refine (varRef_runs hinner hhere' ht hp).bind fun target' p₁ hp₁ htarget => .ret ?_
    have haccept : (S.dst p₁ outer.top).Accepts (.synonym name indices target') :=
      S.reshape .synonym h
    exact bodyMeets_single haccept ⟨haccept.1, htarget⟩

/-- **Statements, expanded, meet the rule of expanded statements.** -/
theorem stmts_runs (hinner : S.Treats inner inner') {outer : Place}
    (hhere : S.Here outer) :
    ∀ (ss : List Stmt), stmtsMeet (S.src outer.top) ss → ∀ p, p₀.Grows p →
      Runs (stmts env inner outer ss) (stmts env inner' outer ss) p
        fun p' ss' => bodyMeets (S.dst p' outer.top) ss'
  | [], _, p, _ => .ret ⟨S.nil, trivial⟩
  | s :: ss, ⟨hs, hss⟩, p, hp => by
    simp only [stmts]
    refine (stmt_runs hinner hhere s hs p hp).bind fun first p₁ hp₁ hfirst => ?_
    refine (stmts_runs hinner hhere ss hss p₁ (hp.trans hp₁)).bind fun rest p₂ hp₂ hrest => ?_
    have hfirst' := hfirst.mono (S.mono hp₂)
    exact .ret ⟨S.append hfirst'.1 hrest.1, stmtsMeet_append.mpr ⟨hfirst'.2, hrest.2⟩⟩

theorem branches_runs (hinner : S.Treats inner inner') {outer : Place}
    (hhere : S.Here outer) :
    ∀ (bs : List Branch), branchesMeet (S.src outer.top) bs → ∀ p, p₀.Grows p →
      Runs (branches env inner outer bs) (branches env inner' outer bs) p
        fun p' bs' => bs'.length = bs.length ∧ branchesMeet (S.dst p' outer.top) bs'
  | [], _, p, _ => .ret ⟨rfl, trivial⟩
  | ⟨cond, body⟩ :: rest, ⟨hc, _, hb, hr⟩, p, hp => by
    simp only [branches]
    refine (expr_runs hinner hhere cond hc p hp).bind fun cond' p₁ hp₁ hcond => ?_
    refine (stmts_runs hinner hhere body hb p₁ (hp.trans hp₁)).bind fun body' p₂ hp₂ hbody => ?_
    refine (branches_runs hinner hhere rest hr p₂ (hp.trans (hp₁.trans hp₂))).bind
      fun rest' p₃ hp₃ hrest => .ret ?_
    have hbody' := hbody.mono (S.mono hp₃)
    exact ⟨by simp [hrest.1], hcond.1.mono (S.mono (hp₂.trans hp₃)), hbody'.1, hbody'.2, hrest.2⟩

theorem cases_runs (hinner : S.Treats inner inner') {outer : Place}
    (hhere : S.Here outer) :
    ∀ (cs : List Case), casesMeet (S.src outer.top) cs → ∀ p, p₀.Grows p →
      Runs (cases env inner outer cs) (cases env inner' outer cs) p
        fun p' cs' => List.Forall₂ (fun c c' => c'.stop.isSome = c.stop.isSome) cs cs' ∧
          casesMeet (S.dst p' outer.top) cs'
  | [], _, p, _ => .ret ⟨.nil, trivial⟩
  | ⟨start, stop, body⟩ :: rest, ⟨h₁, h₂, _, hb, hr⟩, p, hp => by
    simp only [cases]
    refine (expr_runs hinner hhere start h₁ p hp).bind fun start' p₁ hp₁ hstart => ?_
    refine (option_expr_runs hinner hhere h₂ (hp.trans hp₁)).bind fun stop' p₂ hp₂ hstop => ?_
    have hp' := hp.trans (hp₁.trans hp₂)
    refine (stmts_runs hinner hhere body hb p₂ hp').bind fun body' p₃ hp₃ hbody => ?_
    refine (cases_runs hinner hhere rest hr p₃ (hp'.trans hp₃)).bind fun rest' p₄ hp₄ hrest => ?_
    have hbody' := hbody.mono (S.mono hp₄)
    refine .ret ⟨.cons hstop.1 hrest.1, hstart.1.mono (S.mono (hp₂.trans (hp₃.trans hp₄))), ?_,
      hbody'.1, hbody'.2, hrest.2⟩
    exact fun e he => (hstop.2 e he).mono (S.mono (hp₃.trans hp₄))

theorem functions_runs (hinner : S.Treats inner inner') {outer : Place}
    (hhere : S.Here outer) :
    ∀ (fs : List FunctionDef), functionsMeet (S.src outer.top) fs → ∀ p, p₀.Grows p →
      Runs (functions env inner outer fs) (functions env inner' outer fs) p
        fun p' fs' => List.Forall₂ (fun f f' => f' = { f with body := f'.body }) fs fs' ∧
          functionsMeet (S.dst p' outer.top) fs'
  | [], _, p, _ => .ret ⟨.nil, trivial⟩
  | ⟨name, params, result, body, isTaskfunc, isOverride, span⟩ :: rest, ⟨_, hb, hr⟩, p, hp => by
    simp only [functions]
    refine (stmts_runs hinner hhere body hb p hp).bind fun body' p₁ hp₁ hbody => ?_
    refine (functions_runs hinner hhere rest hr p₁ (hp.trans hp₁)).bind
      fun rest' p₂ hp₂ hrest => ?_
    have hbody' := hbody.mono (S.mono hp₂)
    exact .ret ⟨.cons rfl hrest.1, hbody'.1, hbody'.2, hrest.2⟩

end

end FlatScript.Inlining.Scheme
