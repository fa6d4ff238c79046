import FlatScript.Inlining.Substitution
import FlatScript.Proofs.Passes
import FlatScript.Proofs.References

/-!
# Steps that leave declarations where they are

Most steps of a compilation do not touch what statements declare. Changing the leaves of
statements does not, whatever the leaves become, and neither does copying statements to a call.

* `FlatScript.stmtsDeclared_mapLeaves` and `FlatScript.stmtsDeclared_copiedTo` say so.
* `FlatScript.undeclared` is the rule that nothing is declared.
* `FlatScript.Script.declaredIn` are the names that some of the blocks of a script declare.
-/

namespace FlatScript

variable {ε : Type} {s s' : Script}

/-! ### Leaves -/

theorem LeafMap.declaration_name {r : LeafMap ε} {scope : Scope} {d d' : Declaration}
    (h : r.declaration scope d = .ok d') : d'.name = d.name := by
  obtain ⟨size, -, h⟩ := Except.bind_eq_ok.mp h
  obtain ⟨params, -, h⟩ := Except.bind_eq_ok.mp h
  obtain ⟨init, -, h⟩ := Except.bind_eq_ok.mp h
  cases h
  rfl

section MapLeaves

variable {r : LeafMap ε}

mutual

theorem Stmt.declared_mapLeaves {params : List String} :
    ∀ (s : Stmt) {s' : Stmt}, s.mapLeaves r params = .ok s' → s'.declared = s.declared
  | ⟨.property _ fs, _, _⟩, _, h => by
    simp only [Stmt.mapLeaves] at h
    obtain ⟨fs', hfs, h⟩ := Except.bind_eq_ok.mp h
    cases h
    simp only [Stmt.declared, functionsDeclared_mapLeaves fs hfs]
  -- Only a declaration declares, and the map keeps its name.
  | ⟨.synonym _ _ _, _, _⟩, _, h => by
    simp only [Stmt.mapLeaves] at h
    obtain ⟨_, -, h⟩ := Except.bind_eq_ok.mp h
    cases h
    rfl
  | ⟨.declare _, _, _⟩, _, h => by
    simp only [Stmt.mapLeaves] at h
    obtain ⟨d', hd, h⟩ := Except.bind_eq_ok.mp h
    cases h
    simp only [Stmt.declared, LeafMap.declaration_name hd]
  | ⟨.assign _ _, _, _⟩, _, h => by
    simp only [Stmt.mapLeaves] at h
    obtain ⟨_, -, h⟩ := Except.bind_eq_ok.mp h
    obtain ⟨_, -, h⟩ := Except.bind_eq_ok.mp h
    cases h
    rfl
  | ⟨.call _, _, _⟩, _, h => by
    simp only [Stmt.mapLeaves] at h
    obtain ⟨_, -, h⟩ := Except.bind_eq_ok.mp h
    cases h
    rfl
  | ⟨.whileLoop _ body, _, _⟩, _, h => by
    simp only [Stmt.mapLeaves] at h
    obtain ⟨_, -, h⟩ := Except.bind_eq_ok.mp h
    obtain ⟨body', hbody, h⟩ := Except.bind_eq_ok.mp h
    cases h
    simp only [Stmt.declared, stmtsDeclared_mapLeaves body hbody]
  | ⟨.forLoop _ _ _ _ _ body, _, _⟩, _, h => by
    simp only [Stmt.mapLeaves] at h
    obtain ⟨_, -, h⟩ := Except.bind_eq_ok.mp h
    obtain ⟨_, -, h⟩ := Except.bind_eq_ok.mp h
    obtain ⟨_, -, h⟩ := Except.bind_eq_ok.mp h
    obtain ⟨_, -, h⟩ := Except.bind_eq_ok.mp h
    obtain ⟨body', hbody, h⟩ := Except.bind_eq_ok.mp h
    cases h
    simp only [Stmt.declared, stmtsDeclared_mapLeaves body hbody]
  | ⟨.family _ body, _, _⟩, _, h => by
    simp only [Stmt.mapLeaves] at h
    obtain ⟨body', hbody, h⟩ := Except.bind_eq_ok.mp h
    cases h
    simp only [Stmt.declared, stmtsDeclared_mapLeaves body hbody]
  | ⟨.ifChain bs otherwise, _, _⟩, _, h => by
    simp only [Stmt.mapLeaves] at h
    obtain ⟨bs', hbs, h⟩ := Except.bind_eq_ok.mp h
    obtain ⟨otherwise', ho, h⟩ := Except.bind_eq_ok.mp h
    cases h
    simp only [Stmt.declared, branchesDeclared_mapLeaves bs hbs,
      stmtsDeclared_mapLeaves otherwise ho]
  | ⟨.select _ cs, _, _⟩, _, h => by
    simp only [Stmt.mapLeaves] at h
    obtain ⟨_, -, h⟩ := Except.bind_eq_ok.mp h
    obtain ⟨cs', hcs, h⟩ := Except.bind_eq_ok.mp h
    cases h
    simp only [Stmt.declared, casesDeclared_mapLeaves cs hcs]
termination_by structural s => s

/-- **Statements with their leaves changed declare the same.** -/
theorem stmtsDeclared_mapLeaves {params : List String} : ∀ (ss : List Stmt) {ss' : List Stmt},
    mapLeavesStmts r params ss = .ok ss' → stmtsDeclared ss' = stmtsDeclared ss
  | [], _, h => by
    cases h
    rfl
  | s :: ss, _, h => by
    simp only [mapLeavesStmts] at h
    obtain ⟨s', hs, h⟩ := Except.bind_eq_ok.mp h
    obtain ⟨ss', hss, h⟩ := Except.bind_eq_ok.mp h
    cases h
    simp only [stmtsDeclared, s.declared_mapLeaves hs, stmtsDeclared_mapLeaves ss hss]
termination_by structural ss => ss

theorem branchesDeclared_mapLeaves {scope : Scope} : ∀ (bs : List Branch) {bs' : List Branch},
    mapLeavesBranches r scope bs = .ok bs' → branchesDeclared bs' = branchesDeclared bs
  | [], _, h => by
    cases h
    rfl
  | ⟨_, body⟩ :: rest, _, h => by
    simp only [mapLeavesBranches] at h
    obtain ⟨_, -, h⟩ := Except.bind_eq_ok.mp h
    obtain ⟨body', hbody, h⟩ := Except.bind_eq_ok.mp h
    obtain ⟨rest', hrest, h⟩ := Except.bind_eq_ok.mp h
    cases h
    simp only [branchesDeclared, stmtsDeclared_mapLeaves body hbody,
      branchesDeclared_mapLeaves rest hrest]
termination_by structural bs => bs

theorem casesDeclared_mapLeaves {scope : Scope} : ∀ (cs : List Case) {cs' : List Case},
    mapLeavesCases r scope cs = .ok cs' → casesDeclared cs' = casesDeclared cs
  | [], _, h => by
    cases h
    rfl
  | ⟨_, _, body⟩ :: rest, _, h => by
    simp only [mapLeavesCases] at h
    obtain ⟨_, -, h⟩ := Except.bind_eq_ok.mp h
    obtain ⟨_, -, h⟩ := Except.bind_eq_ok.mp h
    obtain ⟨body', hbody, h⟩ := Except.bind_eq_ok.mp h
    obtain ⟨rest', hrest, h⟩ := Except.bind_eq_ok.mp h
    cases h
    simp only [casesDeclared, stmtsDeclared_mapLeaves body hbody,
      casesDeclared_mapLeaves rest hrest]
termination_by structural cs => cs

theorem functionsDeclared_mapLeaves : ∀ (fs : List FunctionDef) {fs' : List FunctionDef},
    mapLeavesFunctions r fs = .ok fs' → functionsDeclared fs' = functionsDeclared fs
  | [], _, h => by
    cases h
    rfl
  | ⟨_, _, _, body, _, _, _⟩ :: rest, _, h => by
    simp only [mapLeavesFunctions] at h
    obtain ⟨body', hbody, h⟩ := Except.bind_eq_ok.mp h
    obtain ⟨rest', hrest, h⟩ := Except.bind_eq_ok.mp h
    cases h
    simp only [functionsDeclared, stmtsDeclared_mapLeaves body hbody,
      functionsDeclared_mapLeaves rest hrest]
termination_by structural fs => fs

end

theorem Block.declared_mapLeaves {control : Ident → Except ε Ident} {b b' : Block}
    (h : b.MapLeaves r control b') : stmtsDeclared b'.body = stmtsDeclared b.body := by
  cases h with
  | callback _ hbody => exact stmtsDeclared_mapLeaves _ hbody
  | function hf =>
    obtain ⟨body, hbody, hf⟩ := Except.bind_eq_ok.mp hf
    cases hf
    exact stmtsDeclared_mapLeaves _ hbody

theorem Script.declared_mapLeaves {control : Ident → Except ε Ident}
    (h : List.Forall₂ (Block.MapLeaves r control) s.blocks s'.blocks) :
    s'.declared = s.declared := by
  simp only [Script.declared, List.flatMap_def]
  rw [map_eq_of_forall₂ h fun _ _ => Block.declared_mapLeaves]

end MapLeaves

/-! ### Copies -/

mutual

theorem Stmt.declared_copiedTo (site : Span) : ∀ s : Stmt, (s.copiedTo site).declared = s.declared
  | ⟨.property _ fs, _, _⟩ => by
    simp only [Stmt.copiedTo, Stmt.declared, functionsDeclared_copiedTo site fs]
  | ⟨.whileLoop _ body, _, _⟩ | ⟨.forLoop _ _ _ _ _ body, _, _⟩ | ⟨.family _ body, _, _⟩ => by
    simp only [Stmt.copiedTo, Stmt.declared, stmtsDeclared_copiedTo site body]
  | ⟨.ifChain bs otherwise, _, _⟩ => by
    simp only [Stmt.copiedTo, Stmt.declared, branchesDeclared_copiedTo site bs,
      stmtsDeclared_copiedTo site otherwise]
  | ⟨.select _ cs, _, _⟩ => by
    simp only [Stmt.copiedTo, Stmt.declared, casesDeclared_copiedTo site cs]
  | ⟨.synonym _ _ _, _, _⟩ | ⟨.declare _, _, _⟩ | ⟨.assign _ _, _, _⟩ | ⟨.call _, _, _⟩ => by
    simp only [Stmt.copiedTo, Stmt.declared]

/-- **Copied statements declare the same.** -/
theorem stmtsDeclared_copiedTo (site : Span) : ∀ ss : List Stmt,
    stmtsDeclared (stmtsCopiedTo site ss) = stmtsDeclared ss
  | [] => rfl
  | s :: ss => by
    simp only [stmtsCopiedTo, stmtsDeclared, s.declared_copiedTo site,
      stmtsDeclared_copiedTo site ss]

theorem branchesDeclared_copiedTo (site : Span) : ∀ bs : List Branch,
    branchesDeclared (branchesCopiedTo site bs) = branchesDeclared bs
  | [] => rfl
  | ⟨_, body⟩ :: rest => by
    simp only [branchesCopiedTo, branchesDeclared, stmtsDeclared_copiedTo site body,
      branchesDeclared_copiedTo site rest]

theorem casesDeclared_copiedTo (site : Span) : ∀ cs : List Case,
    casesDeclared (casesCopiedTo site cs) = casesDeclared cs
  | [] => rfl
  | ⟨_, _, body⟩ :: rest => by
    simp only [casesCopiedTo, casesDeclared, stmtsDeclared_copiedTo site body,
      casesDeclared_copiedTo site rest]

theorem functionsDeclared_copiedTo (site : Span) : ∀ fs : List FunctionDef,
    functionsDeclared (functionsCopiedTo site fs) = functionsDeclared fs
  | [] => rfl
  | ⟨_, _, _, body, _, _, _⟩ :: rest => by
    simp only [functionsCopiedTo, functionsDeclared, stmtsDeclared_copiedTo site body,
      functionsDeclared_copiedTo site rest]

end

/-! ### Statements without declarations -/

/-- **The rule that nothing is declared.** -/
def undeclared : Rule :=
  { Rule.trivial with
    stmt
      | .declare _ => False
      | _ => True }

theorem undeclared_mute : undeclared.Mute := fun _ => trivial

mutual

theorem Stmt.declared_eq_nil : ∀ s : Stmt, s.Meets undeclared → s.declared = []
  | ⟨.property _ fs, _, _⟩, ⟨_, h⟩ => by simp only [Stmt.declared, functionsDeclared_eq_nil fs h]
  | ⟨.declare _, _, _⟩, ⟨h, _⟩ => h.elim
  | ⟨.whileLoop _ body, _, _⟩, ⟨_, _, _, h⟩ => by
    simp only [Stmt.declared, stmtsDeclared_eq_nil body h]
  | ⟨.forLoop _ _ _ _ _ body, _, _⟩, ⟨_, _, _, _, _, _, h⟩ => by
    simp only [Stmt.declared, stmtsDeclared_eq_nil body h]
  | ⟨.family _ body, _, _⟩, ⟨_, _, h⟩ => by simp only [Stmt.declared, stmtsDeclared_eq_nil body h]
  | ⟨.ifChain bs otherwise, _, _⟩, ⟨_, hbs, _, ho⟩ => by
    simp only [Stmt.declared, branchesDeclared_eq_nil bs hbs, stmtsDeclared_eq_nil otherwise ho,
      List.append_nil]
  | ⟨.select _ cs, _, _⟩, ⟨_, _, h⟩ => by simp only [Stmt.declared, casesDeclared_eq_nil cs h]
  | ⟨.synonym _ _ _, _, _⟩, _ | ⟨.assign _ _, _, _⟩, _ | ⟨.call _, _, _⟩, _ => rfl

/-- Statements that meet the rule declare nothing. -/
theorem stmtsDeclared_eq_nil : ∀ ss : List Stmt, stmtsMeet undeclared ss → stmtsDeclared ss = []
  | [], _ => rfl
  | s :: ss, ⟨h, hs⟩ => by
    simp only [stmtsDeclared, s.declared_eq_nil h, stmtsDeclared_eq_nil ss hs, List.append_nil]

theorem branchesDeclared_eq_nil : ∀ bs : List Branch, branchesMeet undeclared bs →
    branchesDeclared bs = []
  | [], _ => rfl
  | ⟨_, body⟩ :: rest, ⟨_, _, h, hs⟩ => by
    simp only [branchesDeclared, stmtsDeclared_eq_nil body h, branchesDeclared_eq_nil rest hs,
      List.append_nil]

theorem casesDeclared_eq_nil : ∀ cs : List Case, casesMeet undeclared cs → casesDeclared cs = []
  | [], _ => rfl
  | ⟨_, _, body⟩ :: rest, ⟨_, _, _, h, hs⟩ => by
    simp only [casesDeclared, stmtsDeclared_eq_nil body h, casesDeclared_eq_nil rest hs,
      List.append_nil]

theorem functionsDeclared_eq_nil : ∀ fs : List FunctionDef, functionsMeet undeclared fs →
    functionsDeclared fs = []
  | [], _ => rfl
  | ⟨_, _, _, body, _, _, _⟩ :: rest, ⟨_, h, hs⟩ => by
    simp only [functionsDeclared, stmtsDeclared_eq_nil body h, functionsDeclared_eq_nil rest hs,
      List.append_nil]

end

/-! ### Blocks -/

/-- Whether a block is an init callback. -/
def Block.isInit : Block → Bool
  | .callback c => c.isInit
  | .function _ => false

/-- **The names that are declared in the init callbacks** of a script, or in its other blocks. -/
def Script.declaredIn (s : Script) (init : Bool) : List Ident :=
  (s.blocks.filter (·.isInit == init)).flatMap fun b => stmtsDeclared b.body

theorem Script.declaredIn_cons (b : Block) (bs : List Block) (init : Bool) :
    Script.declaredIn ⟨b :: bs⟩ init =
      (if b.isInit == init then stmtsDeclared b.body else []) ++ Script.declaredIn ⟨bs⟩ init := by
  simp only [Script.declaredIn, List.filter_cons]
  split <;> simp

theorem Script.declaredIn_append (bs bs' : List Block) (init : Bool) :
    Script.declaredIn ⟨bs ++ bs'⟩ init =
      Script.declaredIn ⟨bs⟩ init ++ Script.declaredIn ⟨bs'⟩ init := by
  simp only [Script.declaredIn, List.filter_append, List.flatMap_append]

/-- Everything that a script declares is declared in an init callback or elsewhere. -/
theorem Script.declared_perm (s : Script) :
    s.declared.Perm (s.declaredIn true ++ s.declaredIn false) := by
  obtain ⟨bs⟩ := s
  induction bs with
  | nil => exact .nil
  | cons b bs ih =>
    have hcons : Script.declared ⟨b :: bs⟩ = stmtsDeclared b.body ++ Script.declared ⟨bs⟩ :=
      List.flatMap_cons
    rw [hcons, declaredIn_cons, declaredIn_cons]
    cases b.isInit with
    | true =>
      rw [if_pos (by decide), if_neg (by decide), List.nil_append, List.append_assoc]
      exact ih.append_left _
    | false =>
      rw [if_neg (by decide), if_pos (by decide), List.nil_append]
      refine (ih.append_left _).trans ?_
      rw [← List.append_assoc, ← List.append_assoc]
      exact List.perm_append_comm.append_right _

end FlatScript
