import FlatScript.Proofs.Inlining.Watches
import FlatScript.Proofs.Renaming

/-!
# Statement by statement

Sigils, copies, expansion and frames treat statements one after the other: what becomes of a list is
what becomes of its statements, and a loop or a condition stays one, with what has become of its
bodies in it. A relation between statements and what becomes of them is `FlatScript.Statementwise`
when it is of this kind, and then so is one such relation after the other. So what is known of the
place of a statement in a body can be followed through all of these steps.
-/

namespace FlatScript

/-- **What becomes of statements is told statement by statement.** -/
structure Statementwise (T : List Stmt → List Stmt → Prop) : Prop where
  nil : ∀ {ys}, T [] ys → ys = []
  append : ∀ {ss ss' ys}, T (ss ++ ss') ys → ∃ ys₁ ys₂, ys = ys₁ ++ ys₂ ∧ T ss ys₁ ∧ T ss' ys₂
  whileLoop : ∀ {cond body span trace ys}, T [⟨.whileLoop cond body, span, trace⟩] ys →
    ∃ cond' body' span' trace', ys = [⟨.whileLoop cond' body', span', trace'⟩] ∧ T body body'
  ifChain : ∀ {branches otherwise span trace ys}, T [⟨.ifChain branches otherwise, span, trace⟩] ys →
    ∃ branches' otherwise' span' trace', ys = [⟨.ifChain branches' otherwise', span', trace'⟩] ∧
      List.Forall₂ (fun b b' => T b.body b'.body) branches branches' ∧ T otherwise otherwise'
  select : ∀ {subject cases span trace ys}, T [⟨.select subject cases, span, trace⟩] ys →
    ∃ subject' cases' span' trace', ys = [⟨.select subject' cases', span', trace'⟩] ∧
      List.Forall₂ (fun c c' => T c.body c'.body) cases cases'

/-- One relation after the other. -/
def After (T T' : List Stmt → List Stmt → Prop) (ss ys : List Stmt) : Prop :=
  ∃ zs, T ss zs ∧ T' zs ys

theorem forall₂_comp {α β γ : Type} {R : α → β → Prop} {S : β → γ → Prop} {Q : α → γ → Prop}
    (hQ : ∀ a b c, R a b → S b c → Q a c) {l : List α} {l' : List β} {l'' : List γ}
    (h : List.Forall₂ R l l') (h' : List.Forall₂ S l' l'') : List.Forall₂ Q l l'' := by
  induction h generalizing l'' with
  | nil =>
    cases h'
    exact .nil
  | cons h _ ih =>
    cases h' with
    | cons h' hs' => exact .cons (hQ _ _ _ h h') (ih hs')

theorem Statementwise.after {T T' : List Stmt → List Stmt → Prop} (hT : Statementwise T)
    (hT' : Statementwise T') : Statementwise (After T T') where
  nil := by
    rintro ys ⟨zs, h, h'⟩
    obtain rfl := hT.nil h
    exact hT'.nil h'
  append := by
    rintro ss ss' ys ⟨zs, h, h'⟩
    obtain ⟨zs₁, zs₂, rfl, h₁, h₂⟩ := hT.append h
    obtain ⟨ys₁, ys₂, rfl, h₁', h₂'⟩ := hT'.append h'
    exact ⟨ys₁, ys₂, rfl, ⟨zs₁, h₁, h₁'⟩, ⟨zs₂, h₂, h₂'⟩⟩
  whileLoop := by
    rintro cond body span trace ys ⟨zs, h, h'⟩
    obtain ⟨cond₁, body₁, span₁, trace₁, rfl, hbody⟩ := hT.whileLoop h
    obtain ⟨cond₂, body₂, span₂, trace₂, rfl, hbody'⟩ := hT'.whileLoop h'
    exact ⟨cond₂, body₂, span₂, trace₂, rfl, body₁, hbody, hbody'⟩
  ifChain := by
    rintro branches otherwise span trace ys ⟨zs, h, h'⟩
    obtain ⟨branches₁, otherwise₁, span₁, trace₁, rfl, hbranches, ho⟩ := hT.ifChain h
    obtain ⟨branches₂, otherwise₂, span₂, trace₂, rfl, hbranches', ho'⟩ := hT'.ifChain h'
    exact ⟨branches₂, otherwise₂, span₂, trace₂, rfl,
      forall₂_comp (fun _ b _ h h' => ⟨b.body, h, h'⟩) hbranches hbranches', otherwise₁, ho, ho'⟩
  select := by
    rintro subject cases span trace ys ⟨zs, h, h'⟩
    obtain ⟨subject₁, cases₁, span₁, trace₁, rfl, hcases⟩ := hT.select h
    obtain ⟨subject₂, cases₂, span₂, trace₂, rfl, hcases'⟩ := hT'.select h'
    exact ⟨subject₂, cases₂, span₂, trace₂, rfl,
      forall₂_comp (fun _ c _ h h' => ⟨c.body, h, h'⟩) hcases hcases'⟩

/-- One of some relations. -/
theorem statementwise_exists {α : Type} {T : α → List Stmt → List Stmt → Prop}
    (hT : ∀ a, Statementwise (T a)) : Statementwise fun ss ys => ∃ a, T a ss ys where
  nil := by
    rintro ys ⟨a, h⟩
    exact (hT a).nil h
  append := by
    rintro ss ss' ys ⟨a, h⟩
    obtain ⟨ys₁, ys₂, rfl, h₁, h₂⟩ := (hT a).append h
    exact ⟨ys₁, ys₂, rfl, ⟨a, h₁⟩, ⟨a, h₂⟩⟩
  whileLoop := by
    rintro cond body span trace ys ⟨a, h⟩
    obtain ⟨cond', body', span', trace', rfl, hbody⟩ := (hT a).whileLoop h
    exact ⟨cond', body', span', trace', rfl, a, hbody⟩
  ifChain := by
    rintro branches otherwise span trace ys ⟨a, h⟩
    obtain ⟨branches', otherwise', span', trace', rfl, hbranches, ho⟩ := (hT a).ifChain h
    exact ⟨branches', otherwise', span', trace', rfl, hbranches.imp fun _ _ hb => ⟨a, hb⟩, a, ho⟩
  select := by
    rintro subject cases span trace ys ⟨a, h⟩
    obtain ⟨subject', cases', span', trace', rfl, hcases⟩ := (hT a).select h
    exact ⟨subject', cases', span', trace', rfl, hcases.imp fun _ _ hc => ⟨a, hc⟩⟩

/-! ### Leaves -/

section Leaves

variable {ε : Type} {r : LeafMap ε} {params : List String}

theorem mapLeavesStmts_append : ∀ {ss ss' ys : List Stmt},
    mapLeavesStmts r params (ss ++ ss') = .ok ys → ∃ ys₁ ys₂, ys = ys₁ ++ ys₂ ∧
      mapLeavesStmts r params ss = .ok ys₁ ∧ mapLeavesStmts r params ss' = .ok ys₂
  | [], _, ys, h => ⟨[], ys, rfl, rfl, h⟩
  | s :: ss, _, _, h => by
    simp only [List.cons_append, mapLeavesStmts] at h ⊢
    obtain ⟨s', hs, h⟩ := Except.bind_eq_ok.mp h
    obtain ⟨ss', hss, h⟩ := Except.bind_eq_ok.mp h
    cases h
    obtain ⟨ys₁, ys₂, rfl, h₁, h₂⟩ := mapLeavesStmts_append hss
    exact ⟨s' :: ys₁, ys₂, rfl, by rw [hs, h₁]; rfl, h₂⟩

theorem mapLeavesStmts_single {s : Stmt} {ys : List Stmt}
    (h : mapLeavesStmts r params [s] = .ok ys) : ∃ s', ys = [s'] ∧ s.mapLeaves r params = .ok s' := by
  rw [mapLeavesStmts] at h
  obtain ⟨s', hs, h⟩ := Except.bind_eq_ok.mp h
  cases h
  exact ⟨s', rfl, hs⟩

theorem forall₂_mapLeavesBranches {scope : Scope} {bs bs' : List Branch}
    (h : mapLeavesBranches r scope bs = .ok bs') :
    List.Forall₂ (fun b b' => mapLeavesStmts r scope.params b.body = .ok b'.body) bs bs' := by
  induction bs generalizing bs' with
  | nil =>
    cases h
    exact .nil
  | cons b rest ih =>
    obtain ⟨cond, body⟩ := b
    rw [mapLeavesBranches] at h
    obtain ⟨cond', hcond, h⟩ := Except.bind_eq_ok.mp h
    obtain ⟨body', hbody, h⟩ := Except.bind_eq_ok.mp h
    obtain ⟨rest', hrest, h⟩ := Except.bind_eq_ok.mp h
    cases h
    exact .cons hbody (ih hrest)

theorem forall₂_mapLeavesCases {scope : Scope} {cs cs' : List Case}
    (h : mapLeavesCases r scope cs = .ok cs') :
    List.Forall₂ (fun c c' => mapLeavesStmts r scope.params c.body = .ok c'.body) cs cs' := by
  induction cs generalizing cs' with
  | nil =>
    cases h
    exact .nil
  | cons c rest ih =>
    obtain ⟨start, stop, body⟩ := c
    rw [mapLeavesCases] at h
    obtain ⟨start', hstart, h⟩ := Except.bind_eq_ok.mp h
    obtain ⟨stop', hstop, h⟩ := Except.bind_eq_ok.mp h
    obtain ⟨body', hbody, h⟩ := Except.bind_eq_ok.mp h
    obtain ⟨rest', hrest, h⟩ := Except.bind_eq_ok.mp h
    cases h
    exact .cons hbody (ih hrest)

theorem forall₂_mapLeavesFunctions {fs fs' : List FunctionDef}
    (h : mapLeavesFunctions r fs = .ok fs') :
    List.Forall₂ (fun f f' => ∃ params, mapLeavesStmts r params f.body = .ok f'.body) fs fs' := by
  induction fs generalizing fs' with
  | nil =>
    cases h
    exact .nil
  | cons f rest ih =>
    obtain ⟨name, params, result, body, isTaskfunc, isOverride, span⟩ := f
    rw [mapLeavesFunctions] at h
    obtain ⟨body', hbody, h⟩ := Except.bind_eq_ok.mp h
    obtain ⟨rest', hrest, h⟩ := Except.bind_eq_ok.mp h
    cases h
    exact .cons ⟨_, hbody⟩ (ih hrest)

/-- **Statements with their leaves changed.** -/
theorem statementwise_mapLeaves (r : LeafMap ε) (params : List String) :
    Statementwise fun ss ys => mapLeavesStmts r params ss = .ok ys where
  nil h := by
    cases h
    rfl
  append := mapLeavesStmts_append
  whileLoop h := by
    obtain ⟨s', rfl, hmap⟩ := mapLeavesStmts_single h
    simp only [Stmt.mapLeaves] at hmap
    obtain ⟨cond', hcond, hmap⟩ := Except.bind_eq_ok.mp hmap
    obtain ⟨body', hbody, hmap⟩ := Except.bind_eq_ok.mp hmap
    cases hmap
    exact ⟨_, _, _, _, rfl, hbody⟩
  ifChain h := by
    obtain ⟨s', rfl, hmap⟩ := mapLeavesStmts_single h
    simp only [Stmt.mapLeaves] at hmap
    obtain ⟨branches', hbranches, hmap⟩ := Except.bind_eq_ok.mp hmap
    obtain ⟨otherwise', ho, hmap⟩ := Except.bind_eq_ok.mp hmap
    cases hmap
    exact ⟨_, _, _, _, rfl, forall₂_mapLeavesBranches hbranches, ho⟩
  select h := by
    obtain ⟨s', rfl, hmap⟩ := mapLeavesStmts_single h
    simp only [Stmt.mapLeaves] at hmap
    obtain ⟨subject', hsubject, hmap⟩ := Except.bind_eq_ok.mp hmap
    obtain ⟨cases', hcases, hmap⟩ := Except.bind_eq_ok.mp hmap
    cases hmap
    exact ⟨_, _, _, _, rfl, forall₂_mapLeavesCases hcases⟩

/-- The bodies of a statement are those it had, with their leaves changed. -/
theorem Stmt.bodies_mapLeaves {s s' : Stmt} (h : s.mapLeaves r params = .ok s') {body : List Stmt}
    (hbody : body ∈ s.bodies) :
    ∃ params' body', mapLeavesStmts r params' body = .ok body' ∧ body' ∈ s'.bodies := by
  obtain ⟨kind, span, trace⟩ := s
  cases kind with
  | property name fs =>
    simp only [Stmt.mapLeaves] at h
    obtain ⟨fs', hfs, h⟩ := Except.bind_eq_ok.mp h
    cases h
    obtain ⟨f, hf, rfl⟩ := List.mem_map.mp hbody
    obtain ⟨f', hf', params', hmap⟩ := exists_mem_of_forall₂ (forall₂_mapLeavesFunctions hfs).flip hf
    exact ⟨params', f'.body, hmap, List.mem_map_of_mem hf'⟩
  | whileLoop cond body' =>
    simp only [Stmt.mapLeaves] at h
    obtain ⟨cond', -, h⟩ := Except.bind_eq_ok.mp h
    obtain ⟨body'', hmap, h⟩ := Except.bind_eq_ok.mp h
    cases h
    rw [List.mem_singleton.mp hbody]
    exact ⟨params, body'', hmap, List.mem_singleton_self _⟩
  | forLoop var start stop step downto body' =>
    simp only [Stmt.mapLeaves] at h
    obtain ⟨var', -, h⟩ := Except.bind_eq_ok.mp h
    obtain ⟨start', -, h⟩ := Except.bind_eq_ok.mp h
    obtain ⟨stop', -, h⟩ := Except.bind_eq_ok.mp h
    obtain ⟨step', -, h⟩ := Except.bind_eq_ok.mp h
    obtain ⟨body'', hmap, h⟩ := Except.bind_eq_ok.mp h
    cases h
    rw [List.mem_singleton.mp hbody]
    exact ⟨params, body'', hmap, List.mem_singleton_self _⟩
  | family name body' =>
    simp only [Stmt.mapLeaves] at h
    obtain ⟨body'', hmap, h⟩ := Except.bind_eq_ok.mp h
    cases h
    rw [List.mem_singleton.mp hbody]
    exact ⟨params, body'', hmap, List.mem_singleton_self _⟩
  | ifChain bs otherwise =>
    simp only [Stmt.mapLeaves] at h
    obtain ⟨bs', hbs, h⟩ := Except.bind_eq_ok.mp h
    obtain ⟨otherwise', ho, h⟩ := Except.bind_eq_ok.mp h
    cases h
    rcases List.mem_append.mp hbody with hbody | hbody
    · obtain ⟨b, hb, rfl⟩ := List.mem_map.mp hbody
      obtain ⟨b', hb', hmap⟩ := exists_mem_of_forall₂ (forall₂_mapLeavesBranches hbs).flip hb
      exact ⟨params, b'.body, hmap, List.mem_append_left _ (List.mem_map_of_mem hb')⟩
    · rw [List.mem_singleton.mp hbody]
      exact ⟨params, otherwise', ho, List.mem_append_right _ (List.mem_singleton_self _)⟩
  | select subject cs =>
    simp only [Stmt.mapLeaves] at h
    obtain ⟨subject', -, h⟩ := Except.bind_eq_ok.mp h
    obtain ⟨cs', hcs, h⟩ := Except.bind_eq_ok.mp h
    cases h
    obtain ⟨c, hc, rfl⟩ := List.mem_map.mp hbody
    obtain ⟨c', hc', hmap⟩ := exists_mem_of_forall₂ (forall₂_mapLeavesCases hcs).flip hc
    exact ⟨params, c'.body, hmap, List.mem_map_of_mem hc'⟩
  | synonym | declare | assign | call => cases hbody

/-- **What stands in statements stands in them with its leaves changed.** -/
theorem Within.mapLeaves {ys ss : List Stmt} (h : Within ys ss) : ∀ {params : List String}
    {ss' : List Stmt}, mapLeavesStmts r params ss = .ok ss' →
    ∃ params' ys', mapLeavesStmts r params' ys = .ok ys' ∧ Within ys' ss' := by
  induction h with
  | here before after =>
    intro params ss' hmap
    obtain ⟨front, after', rfl, hfront, -⟩ := mapLeavesStmts_append hmap
    obtain ⟨before', ys', rfl, -, hys⟩ := mapLeavesStmts_append hfront
    exact ⟨params, ys', hys, .here before' after'⟩
  | @inside s body ss hs hbody _ ih =>
    intro params ss' hmap
    obtain ⟨before, after, rfl⟩ := List.append_of_mem hs
    obtain ⟨front, rest, rfl, -, hrest⟩ := mapLeavesStmts_append hmap
    rw [mapLeavesStmts] at hrest
    obtain ⟨s', hs', hrest⟩ := Except.bind_eq_ok.mp hrest
    obtain ⟨rest', -, hrest⟩ := Except.bind_eq_ok.mp hrest
    cases hrest
    obtain ⟨params', body', hmap', hbody'⟩ := s.bodies_mapLeaves hs' hbody
    obtain ⟨params'', ys', hys, hwithin⟩ := ih hmap'
    exact ⟨params'', ys', hys, .inside (by simp) hbody' hwithin⟩

end Leaves

/-! ### Copies -/

theorem stmtsCopiedTo_append (site : Span) (ss ss' : List Stmt) :
    stmtsCopiedTo site (ss ++ ss') = stmtsCopiedTo site ss ++ stmtsCopiedTo site ss' := by
  induction ss with
  | nil => rfl
  | cons s ss ih => rw [List.cons_append, stmtsCopiedTo, stmtsCopiedTo, ih, List.cons_append]

theorem forall₂_bodies_branchesCopiedTo (site : Span) (bs : List Branch) :
    List.Forall₂ (fun b b' => b'.body = stmtsCopiedTo site b.body) bs (branchesCopiedTo site bs) := by
  induction bs with
  | nil => exact .nil
  | cons b bs ih =>
    obtain ⟨cond, body⟩ := b
    exact .cons rfl ih

theorem forall₂_bodies_casesCopiedTo (site : Span) (cs : List Case) :
    List.Forall₂ (fun c c' => c'.body = stmtsCopiedTo site c.body) cs (casesCopiedTo site cs) := by
  induction cs with
  | nil => exact .nil
  | cons c cs ih =>
    obtain ⟨start, stop, body⟩ := c
    exact .cons rfl ih

/-- **Statements that are copied to a call.** -/
theorem statementwise_copiedTo (site : Span) :
    Statementwise fun ss ys => ys = stmtsCopiedTo site ss where
  nil h := h
  append h := ⟨_, _, h.trans (stmtsCopiedTo_append site _ _), rfl, rfl⟩
  whileLoop h := ⟨_, _, _, _, h, rfl⟩
  ifChain h := ⟨_, _, _, _, h, forall₂_bodies_branchesCopiedTo site _, rfl⟩
  select h := ⟨_, _, _, _, h, forall₂_bodies_casesCopiedTo site _⟩

/-! ### New names -/

namespace Renaming

variable (r : Renaming)

theorem forall₂_bodies_branches (bs : List Branch) :
    List.Forall₂ (fun b b' => b'.body = r.stmts b.body) bs (r.branches bs) := by
  induction bs with
  | nil => exact .nil
  | cons b bs ih =>
    obtain ⟨cond, body⟩ := b
    exact .cons rfl ih

theorem forall₂_bodies_cases (cs : List Case) :
    List.Forall₂ (fun c c' => c'.body = r.stmts c.body) cs (r.cases cs) := by
  induction cs with
  | nil => exact .nil
  | cons c cs ih =>
    obtain ⟨start, stop, body⟩ := c
    exact .cons rfl ih

theorem forall₂_bodies_functions (fs : List FunctionDef) :
    List.Forall₂ (fun f f' => f'.body = r.stmts f.body) fs (r.functions fs) := by
  induction fs with
  | nil => exact .nil
  | cons f fs ih =>
    obtain ⟨name, params, result, body, isTaskfunc, isOverride, span⟩ := f
    exact .cons rfl ih

/-- **Statements that are renamed.** -/
theorem statementwise : Statementwise fun ss ys => ys = r.stmts ss where
  nil h := h
  append h := ⟨_, _, h.trans (r.stmts_append _ _), rfl, rfl⟩
  whileLoop h := ⟨_, _, _, _, h, rfl⟩
  ifChain h := ⟨_, _, _, _, h, r.forall₂_bodies_branches _, rfl⟩
  select h := ⟨_, _, _, _, h, r.forall₂_bodies_cases _⟩

/-- The bodies of a statement are those it had, renamed. -/
theorem mem_bodies {s : Stmt} {body : List Stmt} (h : body ∈ s.bodies) :
    r.stmts body ∈ (r.stmt s).bodies := by
  obtain ⟨kind, span, trace⟩ := s
  cases kind with
  | property name fs =>
    obtain ⟨f, hf, rfl⟩ := List.mem_map.mp h
    obtain ⟨f', hf', hbody⟩ := exists_mem_of_forall₂ (r.forall₂_bodies_functions fs).flip hf
    exact List.mem_map.mpr ⟨f', hf', hbody⟩
  | whileLoop | forLoop | family =>
    rw [List.mem_singleton.mp h]
    exact List.mem_singleton_self _
  | ifChain bs otherwise =>
    rcases List.mem_append.mp h with h | h
    · obtain ⟨b, hb, rfl⟩ := List.mem_map.mp h
      obtain ⟨b', hb', hbody⟩ := exists_mem_of_forall₂ (r.forall₂_bodies_branches bs).flip hb
      exact List.mem_append_left _ (List.mem_map.mpr ⟨b', hb', hbody⟩)
    · rw [List.mem_singleton.mp h]
      exact List.mem_append_right _ (List.mem_singleton_self _)
  | select subject cs =>
    obtain ⟨c, hc, rfl⟩ := List.mem_map.mp h
    obtain ⟨c', hc', hbody⟩ := exists_mem_of_forall₂ (r.forall₂_bodies_cases cs).flip hc
    exact List.mem_map.mpr ⟨c', hc', hbody⟩
  | synonym | declare | assign | call => cases h

/-- What stands in statements stands in them, renamed. -/
theorem within {ys ss : List Stmt} (h : Within ys ss) : Within (r.stmts ys) (r.stmts ss) := by
  induction h with
  | here before after =>
    rw [stmts_append, stmts_append]
    exact .here _ _
  | inside hs hbody _ ih =>
    refine .inside ?_ (r.mem_bodies hbody) ih
    rw [stmts_eq_map]
    exact List.mem_map_of_mem hs

end Renaming

/-! ### Folding -/

namespace Folding

variable (constants : Constants)

theorem stmts_append (ss ss' : List Stmt) :
    stmts constants (ss ++ ss') = stmts constants ss ++ stmts constants ss' := by
  induction ss with
  | nil => rfl
  | cons s ss ih => simp only [List.cons_append, stmts, ih, List.append_assoc]

/-- What a statement is folded to stands where the statement stood. -/
theorem within_of_mem {s : Stmt} {ss : List Stmt} (h : s ∈ ss) :
    Within (stmt constants s) (stmts constants ss) := by
  obtain ⟨before, after, rfl⟩ := List.append_of_mem h
  rw [stmts_append, stmts, ← List.append_assoc]
  exact .here _ _

/-- The bodies in a chain of branches that may be run: those of the branches whose conditions are
not known to fail, up to the first one that is known to hold. -/
def keptBranches (otherwise : List Stmt) : List Branch → List (List Stmt)
  | [] => [otherwise]
  | ⟨cond, body⟩ :: rest =>
    match truth? (expr constants cond) with
    | some true => [body]
    | some false => keptBranches otherwise rest
    | none => body :: keptBranches otherwise rest

/-- The bodies in a choice that may be run. -/
def keptCases (subject : Expr) (cs : List Case) : List (List Stmt) :=
  match int? (expr constants subject) with
  | none => cs.map Case.body
  | some value =>
    if (cases constants cs).all isKnownCase then
      ((cs.zip (cases constants cs)).find? fun c => inCase value c.2).toList.map (·.1.body)
    else cs.map Case.body

/-- **The bodies of a statement that may be run**, as far as conditions are known. -/
def keptBodies : Stmt → List (List Stmt)
  | ⟨.whileLoop cond body, _, _⟩ =>
    if truth? (expr constants cond) = some false then [] else [body]
  | ⟨.ifChain (⟨cond, body⟩ :: rest) otherwise, _, _⟩ =>
    if isKeptCondition cond then [body]
    else keptBranches constants otherwise (⟨cond, body⟩ :: rest)
  | ⟨.select subject cs, _, _⟩ => keptCases constants subject cs
  | s => s.bodies

theorem exists_keptBranch {otherwise body : List Stmt} : ∀ {bs : List Branch},
    body ∈ keptBranches constants otherwise bs →
      (∃ b ∈ (branches constants bs).1, b.body = stmts constants body) ∨
        (branches constants bs).2.getD (stmts constants otherwise) = stmts constants body := by
  intro bs h
  induction bs with
  | nil =>
    rw [List.mem_singleton.mp h]
    exact .inr rfl
  | cons b rest ih =>
    obtain ⟨cond, own⟩ := b
    unfold keptBranches at h
    unfold branches
    cases htruth : truth? (expr constants cond) with
    | none =>
      rw [htruth] at h
      rcases List.mem_cons.mp h with rfl | h
      · exact .inl ⟨_, List.mem_cons_self, rfl⟩
      · refine (ih h).imp_left ?_
        rintro ⟨b, hb, hbody⟩
        exact ⟨b, List.mem_cons_of_mem _ hb, hbody⟩
    | some holds =>
      rw [htruth] at h
      cases holds with
      | true =>
        rw [List.mem_singleton.mp h]
        exact .inr rfl
      | false => exact ih h

theorem forall₂_bodies_cases (cs : List Case) :
    List.Forall₂ (fun c c' => c'.body = stmts constants c.body) cs (cases constants cs) := by
  induction cs with
  | nil => exact .nil
  | cons c cs ih =>
    obtain ⟨start, stop, body⟩ := c
    exact .cons rfl ih

theorem forall₂_bodies_functions (fs : List FunctionDef) :
    List.Forall₂ (fun f f' => f'.body = stmts constants f.body) fs (functions constants fs) := by
  induction fs with
  | nil => exact .nil
  | cons f fs ih =>
    obtain ⟨name, params, result, body, isTaskfunc, isOverride, span⟩ := f
    exact .cons rfl ih

/-- A body that may be run is in what its chain of branches is folded to. -/
theorem within_of_keptBranch {otherwise body : List Stmt} {bs : List Branch} (span : Span)
    (trace : List Span) (h : body ∈ keptBranches constants otherwise bs) :
    Within (stmts constants body) (chain (branches constants bs).1
      ((branches constants bs).2.getD (stmts constants otherwise)) span trace) := by
  unfold chain
  rcases exists_keptBranch constants h with ⟨b, hb, hbody⟩ | hlast
  · rw [if_neg (by simpa using List.ne_nil_of_mem hb), ← hbody]
    exact .of_body (List.mem_append_left _ (List.mem_map_of_mem hb))
  · rw [hlast]
    split
    · exact .refl _
    · exact .of_body (List.mem_append_right _ (List.mem_singleton_self _))

/-- A body that may be run is in what its choice is folded to. -/
theorem within_of_keptCase {subject : Expr} {cs : List Case} {body : List Stmt} (span : Span)
    (trace : List Span) (h : body ∈ keptCases constants subject cs) :
    Within (stmts constants body)
      (choose (expr constants subject) (cases constants cs) span trace) := by
  have hall : body ∈ cs.map Case.body → Within (stmts constants body)
      [⟨.select (expr constants subject) (cases constants cs), span, trace⟩] := by
    intro hmem
    obtain ⟨c, hc, rfl⟩ := List.mem_map.mp hmem
    obtain ⟨c', hc', hbody⟩ := exists_mem_of_forall₂ (forall₂_bodies_cases constants cs).flip hc
    exact .of_body (List.mem_map.mpr ⟨c', hc', hbody⟩)
  unfold keptCases at h
  unfold choose
  cases hvalue : int? (expr constants subject) with
  | none =>
    rw [hvalue] at h
    exact hall h
  | some value =>
    rw [hvalue] at h
    dsimp only at h ⊢
    by_cases hknown : (cases constants cs).all isKnownCase = true
    · rw [if_pos hknown] at h ⊢
      obtain ⟨c, hc, rfl⟩ := List.mem_map.mp h
      rw [Option.mem_toList] at hc
      obtain ⟨hlength, hbodies⟩ := List.forall₂_iff_zip.mp (forall₂_bodies_cases constants cs)
      -- The case that is chosen is the folded one of the pair.
      have hchosen : (cases constants cs).find? (inCase value) = some c.2 := by
        rw [← List.map_snd_zip hlength.ge, List.find?_map]
        exact congrArg (Option.map Prod.snd) hc
      rw [hchosen, ← hbodies (List.mem_of_find?_eq_some hc)]
      exact .refl _
    · rw [if_neg hknown] at h ⊢
      exact hall h

/-- **A body that may be run** is in what its statement is folded to. -/
theorem within_of_kept {s : Stmt} {body : List Stmt} (h : body ∈ keptBodies constants s) :
    Within (stmts constants body) (stmt constants s) := by
  obtain ⟨kind, span, trace⟩ := s
  cases kind with
  | whileLoop cond own =>
    simp only [keptBodies, stmt] at h ⊢
    by_cases hcond : truth? (expr constants cond) = some false
    · rw [if_pos hcond] at h
      cases h
    · rw [if_neg hcond] at h
      rw [if_neg hcond, List.mem_singleton.mp h]
      exact .of_body (List.mem_singleton_self _)
  | forLoop | family =>
    rw [List.mem_singleton.mp h]
    exact .of_body (List.mem_singleton_self _)
  | property name fs =>
    obtain ⟨f, hf, rfl⟩ := List.mem_map.mp h
    obtain ⟨f', hf', hbody⟩ := exists_mem_of_forall₂ (forall₂_bodies_functions constants fs).flip hf
    exact .of_body (List.mem_map.mpr ⟨f', hf', hbody⟩)
  | ifChain bs otherwise =>
    cases bs with
    | nil =>
      rw [List.mem_singleton.mp h]
      exact .refl _
    | cons b rest =>
      obtain ⟨cond, own⟩ := b
      simp only [keptBodies, stmt] at h ⊢
      by_cases hkept : isKeptCondition cond = true
      · rw [if_pos hkept] at h
        rw [if_pos hkept, List.mem_singleton.mp h]
        exact .of_body List.mem_cons_self
      · rw [if_neg hkept] at h ⊢
        exact within_of_keptBranch constants span trace h
  | select subject cs => exact within_of_keptCase constants span trace h
  | synonym | declare | assign | call => cases h

/-- **Folding drops some statements**: they stand in a body that is known to be never run. -/
inductive Drops (ys : List Stmt) : List Stmt → Prop
  /-- The body is dropped. -/
  | body {s : Stmt} {body ss : List Stmt} (hs : s ∈ ss) (hbody : body ∈ s.bodies)
    (h : Within ys body) (hdrops : body ∉ keptBodies constants s) : Drops ys ss
  /-- They are dropped from the body. -/
  | inside {s : Stmt} {body ss : List Stmt} (hs : s ∈ ss) (hbody : body ∈ s.bodies)
    (h : Drops ys body) : Drops ys ss

/-- **What stands in statements** stands in them when both are folded, or it is dropped. -/
theorem within {ys ss : List Stmt} (h : Within ys ss) :
    Within (stmts constants ys) (stmts constants ss) ∨ Drops constants ys ss := by
  induction h with
  | here before after =>
    rw [stmts_append, stmts_append]
    exact .inl (.here _ _)
  | @inside s body ss hs hbody h ih =>
    rcases ih with hwithin | hdrops
    · by_cases hkept : body ∈ keptBodies constants s
      · have hplace := (within_of_kept constants hkept).trans (within_of_mem constants hs)
        exact .inl (hwithin.trans hplace)
      · exact .inr (.body hs hbody h hkept)
    · exact .inr (.inside hs hbody hdrops)

end Folding

/-! ### Expansion -/

namespace Inlining

variable {env : Env} {p₀ p p' : Program} {at' : Place} {n : Nat}

theorem stmts_grows {ss ys : List Stmt} (h : (stmts env (below env n) at' ss).run p = .ok (ys, p')) :
    p.Grows p' := by
  rw [← expandAt_eq] at h
  exact below_grows (n := n + 1) h

theorem stmts_append_run {inner : Expander} : ∀ {ss ss' ys : List Stmt} {p p' : Program},
    (stmts env inner at' (ss ++ ss')).run p = .ok (ys, p') → ∃ ys₁ ys₂ q, ys = ys₁ ++ ys₂ ∧
      (stmts env inner at' ss).run p = .ok (ys₁, q) ∧ (stmts env inner at' ss').run q = .ok (ys₂, p')
  | [], _, ys, p, _, h => ⟨[], ys, p, rfl, by rw [stmts]; rfl, h⟩
  | s :: ss, _, _, p, _, h => by
    simp only [List.cons_append, stmts] at h ⊢
    obtain ⟨first, p₁, hs, h⟩ := StateT.bind_eq_ok.mp h
    obtain ⟨rest, p₂, hss, h⟩ := StateT.bind_eq_ok.mp h
    cases h
    obtain ⟨ys₁, ys₂, q, rfl, h₁, h₂⟩ := stmts_append_run hss
    refine ⟨first ++ ys₁, ys₂, q, (List.append_assoc ..).symm, ?_, h₂⟩
    exact StateT.bind_eq_ok.mpr ⟨first, p₁, hs, StateT.bind_eq_ok.mpr ⟨ys₁, q, h₁, rfl⟩⟩

theorem stmts_single_run {inner : Expander} {s : Stmt} {ys : List Stmt}
    (h : (stmts env inner at' [s]).run p = .ok (ys, p')) :
    (stmt env inner at' s).run p = .ok (ys, p') := by
  simp only [stmts] at h
  obtain ⟨first, p₁, hs, h⟩ := StateT.bind_eq_ok.mp h
  cases h
  rw [List.append_nil]
  exact hs

theorem option_grows {o o' : Option Expr}
    (h : (o.mapM (expr env (below env n) at')).run p = .ok (o', p')) : p.Grows p' := by
  cases o with
  | none =>
    cases h
    exact .refl p
  | some e =>
    simp only [Option.mapM_some, map_eq_pure_bind] at h
    obtain ⟨e', p₁, he, h⟩ := StateT.bind_eq_ok.mp h
    cases h
    exact (expr_settled he).1

theorem branches_run : ∀ {bs bs' : List Branch} {p p' : Program}, p₀.Grows p →
    (branches env (below env n) at' bs).run p = .ok (bs', p') → p.Grows p' ∧
      List.Forall₂ (fun b b' => Expands env p₀ at'.top at'.stack b.body b'.body) bs bs'
  | [], _, p, _, _, h => by
    simp only [branches] at h
    cases h
    exact ⟨.refl p, .nil⟩
  | ⟨cond, body⟩ :: rest, _, p, _, hp, h => by
    simp only [branches] at h
    obtain ⟨cond', p₁, hcond, h⟩ := StateT.bind_eq_ok.mp h
    obtain ⟨body', p₂, hbody, h⟩ := StateT.bind_eq_ok.mp h
    obtain ⟨rest', p₃, hrest, h⟩ := StateT.bind_eq_ok.mp h
    cases h
    have hp₁ : p.Grows p₁ := (expr_settled hcond).1
    have hp₂ := hp₁.trans (stmts_grows hbody)
    obtain ⟨hp₃, hforall⟩ := branches_run (hp.trans hp₂) hrest
    exact ⟨hp₂.trans hp₃, .cons ⟨n, _, p₁, p₂, hp.trans hp₁, hbody⟩ hforall⟩

theorem cases_run : ∀ {cs cs' : List Case} {p p' : Program}, p₀.Grows p →
    (cases env (below env n) at' cs).run p = .ok (cs', p') → p.Grows p' ∧
      List.Forall₂ (fun c c' => Expands env p₀ at'.top at'.stack c.body c'.body) cs cs'
  | [], _, p, _, _, h => by
    simp only [cases] at h
    cases h
    exact ⟨.refl p, .nil⟩
  | ⟨start, stop, body⟩ :: rest, _, p, _, hp, h => by
    simp only [cases] at h
    obtain ⟨start', p₁, hstart, h⟩ := StateT.bind_eq_ok.mp h
    obtain ⟨stop', p₂, hstop, h⟩ := StateT.bind_eq_ok.mp h
    obtain ⟨body', p₃, hbody, h⟩ := StateT.bind_eq_ok.mp h
    obtain ⟨rest', p₄, hrest, h⟩ := StateT.bind_eq_ok.mp h
    cases h
    have hp₂ : p.Grows p₂ := (expr_settled hstart).1.trans (option_grows hstop)
    have hp₃ := hp₂.trans (stmts_grows hbody)
    obtain ⟨hp₄, hforall⟩ := cases_run (hp.trans hp₃) hrest
    exact ⟨hp₃.trans hp₄, .cons ⟨n, _, p₂, p₃, hp.trans hp₂, hbody⟩ hforall⟩

/-- **Statements that are expanded.** -/
theorem statementwise_expands (env : Env) (p₀ : Program) (t : Top) (stack : List String) :
    Statementwise (Expands env p₀ t stack) where
  nil := by
    rintro ys ⟨n, trace, p, p', -, h⟩
    rw [stmts] at h
    cases h
    rfl
  append := by
    rintro ss ss' ys ⟨n, trace, p, p', hp, h⟩
    obtain ⟨ys₁, ys₂, q, rfl, h₁, h₂⟩ := stmts_append_run h
    exact ⟨ys₁, ys₂, rfl, ⟨n, trace, p, q, hp, h₁⟩,
      ⟨n, trace, q, p', hp.trans (stmts_grows h₁), h₂⟩⟩
  whileLoop := by
    rintro cond body span trace' ys ⟨n, trace, p, p', hp, h⟩
    have h := stmts_single_run h
    simp only [stmt] at h
    obtain ⟨cond', p₁, hcond, h⟩ := StateT.bind_eq_ok.mp h
    obtain ⟨body', p₂, hbody, h⟩ := StateT.bind_eq_ok.mp h
    cases h
    exact ⟨_, _, _, _, rfl, n, _, p₁, _, hp.trans (expr_settled hcond).1, hbody⟩
  ifChain := by
    rintro bs otherwise span trace' ys ⟨n, trace, p, p', hp, h⟩
    have h := stmts_single_run h
    simp only [stmt] at h
    obtain ⟨bs', p₁, hbs, h⟩ := StateT.bind_eq_ok.mp h
    obtain ⟨otherwise', p₂, ho, h⟩ := StateT.bind_eq_ok.mp h
    cases h
    obtain ⟨hp₁, hforall⟩ := branches_run hp hbs
    exact ⟨_, _, _, _, rfl, hforall, n, _, p₁, _, hp.trans hp₁, ho⟩
  select := by
    rintro subject cs span trace' ys ⟨n, trace, p, p', hp, h⟩
    have h := stmts_single_run h
    simp only [stmt] at h
    obtain ⟨subject', p₁, hsubject, h⟩ := StateT.bind_eq_ok.mp h
    obtain ⟨cs', p₂, hcs, h⟩ := StateT.bind_eq_ok.mp h
    cases h
    exact ⟨_, _, _, _, rfl, (cases_run (hp.trans (expr_settled hsubject).1) hcs).2⟩

end Inlining

end FlatScript
