import FlatScript.Proofs.Inlining.Walk

/-!
# Whole scripts, expanded

What holds of expanded statements, for a scheme, holds of the callbacks of an expanded script
and of the functions of the table that can be called with `call`. In between the program only
grows; in the end these functions get their expanded bodies.
-/

namespace FlatScript.Inlining

namespace Scheme

variable {env : Env} {p₀ : Program} {S : Scheme env p₀}

/-- The statements that are copied in a scheme can be followed by it again. -/
def Closed (S : Scheme env p₀) : Prop :=
  ∀ at' body p, S.ready at' body p → S.Here at' ∧ stmtsMeet (S.src at'.top) body

/-- **Expansion to any depth follows a closed scheme.** -/
theorem Closed.treats (hS : S.Closed) (n : Nat) : S.Treats (expandAt env n) (expandAt env n) := by
  induction n with
  | zero =>
    intro at' body p hp hready
    obtain ⟨hhere, hbody⟩ := hS at' body p hready
    exact stmts_runs (fun _ _ _ _ _ => .fail) hhere body hbody p hp
  | succ n ih =>
    intro at' body p hp hready
    obtain ⟨hhere, hbody⟩ := hS at' body p hready
    exact stmts_runs ih hhere body hbody p hp

theorem Closed.expand_runs (hS : S.Closed) {at' : Place} (hhere : S.Here at') {body : List Stmt}
    (hbody : stmtsMeet (S.src at'.top) body) {p : Program} (hp : p₀.Grows p) :
    Runs (expand env at' body) (expand env at' body) p
      fun p' ss => bodyMeets (S.dst p' at'.top) ss := by
  refine .get_bind ?_
  cases depthBound p with
  | zero => exact stmts_runs (fun _ _ _ _ _ => .fail) hhere body hbody p hp
  | succ n => exact stmts_runs (hS.treats n) hhere body hbody p hp

/-! ### Callbacks -/

/-- The block is the callback with an expanded body. -/
def BlockOf (S : Scheme env p₀) (p : Program) (b b' : Block) : Prop :=
  ∃ c body, b = .callback c ∧ b' = .callback { c with body } ∧
    bodyMeets (S.dst p (.callback c.isInit)) body

theorem BlockOf.grows {p p' : Program} {b b' : Block} (h : S.BlockOf p b b') (hp : p.Grows p') :
    S.BlockOf p' b b' := by
  obtain ⟨c, body, hb, hb', hbody⟩ := h
  exact ⟨c, body, hb, hb', hbody.mono (S.mono hp)⟩

/-- Two ways of expanding the bodies of a script do the same on all of them. -/
structure Starts (S : Scheme env p₀) (ex ex' : Expander) (blocks : List Block) : Prop where
  callback : ∀ c, .callback c ∈ blocks → ∀ p, p₀.Grows p →
    Runs (ex ⟨.callback c.isInit, [], []⟩ c.body) (ex' ⟨.callback c.isInit, [], []⟩ c.body) p
      fun p' ss => bodyMeets (S.dst p' (.callback c.isInit)) ss
  function : ∀ e ∈ p₀.functions, isStandalone e.fn = true → ∀ p, p₀.Grows p →
    Runs (ex ⟨.function e.name, [e.name], []⟩ e.fn.body)
      (ex' ⟨.function e.name, [e.name], []⟩ e.fn.body) p
      fun p' ss => bodyMeets (S.dst p' (.function e.name)) ss

variable {ex ex' : Expander} {blocks : List Block}

theorem blocks_runs (hex : S.Starts ex ex' blocks) :
    ∀ (bs : List Block), (∀ b ∈ bs, b ∈ blocks) → ∀ p, p₀.Grows p →
      Runs (bs.mapM (block ex)) (bs.mapM (block ex')) p
        fun p' bs' => List.Forall₂ (S.BlockOf p') bs bs'
  | [], _, p, _ => .ret .nil
  | .function f :: bs, _, p, hp => by
    simp only [List.mapM_cons, block]
    exact Runs.fail.bind fun _ _ _ h => h
  | .callback c :: bs, hmem, p, hp => by
    simp only [List.mapM_cons, block, bind_assoc, pure_bind]
    refine (hex.callback c (hmem _ (by simp)) p hp).bind fun body p₁ hp₁ hbody => ?_
    refine (blocks_runs hex bs (fun b hb => hmem b (by simp [hb])) p₁ (hp.trans hp₁)).bind
      fun bs' p₂ hp₂ hbs => .ret (.cons ?_ hbs)
    exact BlockOf.grows ⟨c, body, rfl, rfl, hbody⟩ hp₂

/-! ### Functions that can be called -/

/-- The bodies are expanded, and no function that can be called with `call` is without. -/
structure BodiesOf (S : Scheme env p₀) (p : Program) (es : List FunctionEntry)
    (bodies : List (String × List Stmt)) : Prop where
  meets : ∀ b ∈ bodies, bodyMeets (S.dst p (.function b.1)) b.2
  total : ∀ e ∈ es, isStandalone e.fn = true → ∃ body, (e.name, body) ∈ bodies

theorem BodiesOf.grows {p p' : Program} {es : List FunctionEntry}
    {bodies : List (String × List Stmt)} (h : S.BodiesOf p es bodies) (hp : p.Grows p') :
    S.BodiesOf p' es bodies :=
  ⟨fun b hb => (h.meets b hb).mono (S.mono hp), h.total⟩

/-- **The bodies are expanded one after the other**, and the table has as many functions as it
had at the start, so the loop over it finds them all. -/
theorem standaloneBodies_runs (hex : S.Starts ex ex' blocks) :
    ∀ (n i : Nat), i + n = p₀.functions.length → ∀ p, p₀.Grows p →
      Runs (standaloneBodies ex i n) (standaloneBodies ex' i n) p fun p' bodies =>
        S.BodiesOf p' (p₀.functions.drop i) bodies
  | 0, i, hi, p, _ => by
    refine .ret ⟨by simp, ?_⟩
    rw [List.drop_eq_nil_of_le (by omega)]
    simp
  | n + 1, i, hi, p, hp => by
    have hlt : i < p₀.functions.length := by omega
    obtain ⟨e, he, hgrows⟩ := hp.getElem?_after (List.getElem?_eq_getElem hlt)
    set e₀ := p₀.functions[i]
    have hrest := standaloneBodies_runs hex n (i + 1) (by omega)
    simp only [standaloneBodies]
    refine .get_bind ?_
    rw [he, List.drop_eq_getElem_cons hlt]
    dsimp only
    split
    · next hstand =>
      have hbody := hex.function e₀ (List.getElem_mem hlt) (hgrows.fn ▸ hstand) p hp
      rw [hgrows.name, hgrows.fn]
      refine hbody.bind fun body p₁ hp₁ hbody => ?_
      refine (hrest p₁ (hp.trans hp₁)).bind fun bodies p₂ hp₂ hbodies => .ret ⟨?_, ?_⟩
      · intro b hb
        rcases List.mem_cons.mp hb with rfl | hb
        · exact hbody.mono (S.mono hp₂)
        · exact hbodies.meets b hb
      · intro e' he' hstand'
        rcases List.mem_cons.mp he' with rfl | he'
        · exact ⟨body, by simp [e₀]⟩
        · obtain ⟨body', hbody'⟩ := hbodies.total e' he' hstand'
          exact ⟨body', by simp [hbody']⟩
    · next hstand =>
      refine (hrest p hp).imp fun bodies p₁ _ hbodies => ⟨hbodies.meets, ?_⟩
      intro e' he' hstand'
      rcases List.mem_cons.mp he' with rfl | he'
      · exact absurd (hgrows.fn ▸ hstand') hstand
      · exact hbodies.total e' he' hstand'

end Scheme

/-! ### Scripts -/

theorem mem_blocks_of_mem_callbacks {s : Script} {c : Callback} (h : c ∈ s.callbacks) :
    .callback c ∈ s.blocks := by
  obtain ⟨b, hb, hc⟩ := List.mem_filterMap.mp h
  cases b with
  | callback c' => cases hc; exact hb
  | function f => cases hc

/-- What a script is put together from: its first block, the bodies of the functions that can
be called, and its other blocks. -/
def parts (ex : Expander) (s : Script) :
    Compile (List Block × List (String × List Stmt) × List Block) := do
  let first ← (s.blocks.take 1).mapM (block ex)
  let bodies ← standaloneBodies ex 0 (← get).functions.length
  let rest ← (s.blocks.drop 1).mapM (block ex)
  return (first, bodies, rest)

theorem scriptBy_eq_parts (ex : Expander) (s : Script) :
    scriptBy ex s = parts ex s >>= fun r => do
      modify fun p => { p with functions := p.functions.map (withBody r.2.1) }
      return ⟨r.1 ++ r.2.2⟩ := by
  simp only [scriptBy, parts, bind_assoc, pure_bind]

namespace Scheme

variable {env : Env} {p₀ : Program} {S : Scheme env p₀} {ex ex' : Expander} {s : Script}

theorem parts_runs (hex : S.Starts ex ex' s.blocks) :
    Runs (parts ex s) (parts ex' s) p₀ fun p' r =>
      List.Forall₂ (S.BlockOf p') s.blocks (r.1 ++ r.2.2) ∧
        S.BodiesOf p' p'.functions r.2.1 := by
  unfold parts
  refine (blocks_runs hex _ (fun b hb => List.mem_of_mem_take hb) p₀ (.refl p₀)).bind
    fun first p₁ hp₁ hfirst => ?_
  refine .get_bind ?_
  rw [← hp₁.functions.length_eq]
  refine (standaloneBodies_runs hex _ 0 (Nat.zero_add _) p₁ hp₁).bind
    fun bodies p₂ hp₂ hbodies => ?_
  refine (blocks_runs hex _ (fun b hb => List.mem_of_mem_drop hb) p₂ (hp₁.trans hp₂)).bind
    fun rest p₃ hp₃ hrest => .ret ⟨?_, ?_⟩
  · have hfirst' : List.Forall₂ (S.BlockOf p₃) (s.blocks.take 1) first :=
      hfirst.imp fun _ _ h => h.grows (hp₂.trans hp₃)
    exact s.blocks.take_append_drop 1 ▸ List.rel_append hfirst' hrest
  · refine ⟨(hbodies.grows hp₃).meets, ?_⟩
    intro e he hstand
    obtain ⟨e₀, he₀, hgrows⟩ := (hp₁.trans (hp₂.trans hp₃)).mem_before he
    rw [hgrows.name]
    exact hbodies.total e₀ he₀ (hgrows.fn ▸ hstand)

/-- **What an expanded script and the program after it are made of.** -/
theorem script_run (hex : S.Starts ex ex s.blocks) {s' : Script} {p' : Program}
    (h : (scriptBy ex s).run p₀ = .ok (s', p')) :
    ∃ p₁ bodies, p₀.Grows p₁ ∧
      p' = { p₁ with functions := p₁.functions.map (withBody bodies) } ∧
      List.Forall₂ (S.BlockOf p₁) s.blocks s'.blocks ∧ S.BodiesOf p₁ p₁.functions bodies := by
  rw [scriptBy_eq_parts] at h
  obtain ⟨⟨first, bodies, rest⟩, p₁, hparts, h⟩ := StateT.bind_eq_ok.mp h
  obtain ⟨hgrows, hblocks, hbodies⟩ := (parts_runs hex).2 _ _ hparts
  simp only [StateT.run_bind, StateT.run_modify, pure_bind, StateT.run_pure] at h
  cases h
  exact ⟨p₁, bodies, hgrows, rfl, hblocks, hbodies⟩

/-- The callbacks of an expanded script. -/
theorem callbacks_of_blocks {p : Program} {bs bs' : List Block}
    (h : List.Forall₂ (S.BlockOf p) bs bs') {c : Callback} (hc : .callback c ∈ bs') :
    bodyMeets (S.dst p (.callback c.isInit)) c.body := by
  induction h with
  | nil => cases hc
  | cons hb _ ih =>
    rcases List.mem_cons.mp hc with rfl | hc
    · obtain ⟨c₀, body, -, hc₀, hbody⟩ := hb
      cases hc₀
      exact hbody
    · exact ih hc

/-- Two ways of expanding that do the same on the bodies of a script do the same on it. -/
theorem scriptBy_congr (hex : S.Starts ex ex' s.blocks) :
    (scriptBy ex s).run p₀ = (scriptBy ex' s).run p₀ := by
  rw [scriptBy_eq_parts, scriptBy_eq_parts, StateT.run_bind, StateT.run_bind, (parts_runs hex).1]

end Scheme

/-! ### Functions with their expanded bodies -/

@[simp] theorem withBody_name (bodies : List (String × List Stmt)) (e : FunctionEntry) :
    (withBody bodies e).name = e.name := by
  unfold withBody
  split <;> rfl

@[simp] theorem withBody_frame (bodies : List (String × List Stmt)) (e : FunctionEntry) :
    (withBody bodies e).frame = e.frame := by
  unfold withBody
  split <;> rfl

/-- The body of a function is an expanded one, or still the one before. -/
theorem withBody_cases (bodies : List (String × List Stmt)) (e : FunctionEntry) :
    withBody bodies e = e ∨ ∃ body, (e.name, body) ∈ bodies ∧
      withBody bodies e = { e with fn := { e.fn with body } } := by
  unfold withBody
  split
  · next body hlookup => exact .inr ⟨body, mem_of_lookup hlookup, rfl⟩
  · exact .inl rfl

/-- A function is found with its expanded body. -/
theorem function?_withBody (p : Program) (bodies : List (String × List Stmt)) (name : String) :
    Program.function? { p with functions := p.functions.map (withBody bodies) } name =
      (p.function? name).map (withBody bodies) := by
  simp only [Program.function?, List.find?_map, Function.comp_def, withBody_name]

/-- Apart from its body, a function stays as it is. -/
theorem withBody_fn (bodies : List (String × List Stmt)) (e : FunctionEntry) :
    (withBody bodies e).fn = { e.fn with body := (withBody bodies e).fn.body } := by
  unfold withBody
  split
  · rfl
  · generalize e.fn = f
    cases f
    rfl

/-- A function that has an expanded body gets it. -/
theorem mem_of_withBody {bodies : List (String × List Stmt)} {e : FunctionEntry}
    (h : ∃ body, (e.name, body) ∈ bodies) : (e.name, (withBody bodies e).fn.body) ∈ bodies := by
  obtain ⟨body, hbody⟩ := h
  unfold withBody
  split
  · next body' hlookup => exact mem_of_lookup hlookup
  · next hlookup =>
    have hne := List.lookup_eq_none_iff.mp hlookup _ hbody
    simp at hne

end FlatScript.Inlining
