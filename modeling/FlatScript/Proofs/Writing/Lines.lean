import FlatScript.Proofs.Reading.Lines
import FlatScript.Proofs.Writing.Stable

/-!
# The words of lines

A line of a script is a text with further texts behind it: a list in brackets, a value behind
`:=`, a word behind a blank. `FlatScript.Printer.Trails` says which words such a text behind
another one adds, and `FlatScript.Printer.Lined` which words whole lines are, each with the word
that ends it. The indentation of the lines adds none (`FlatScript.Printer.Lined.lexed`).
-/

namespace FlatScript.Printer

open Scan

variable {text text' cs : List Char} {ws ws' : List Word}

/-! ### Texts behind other texts -/

/-- **A text behind another one is written as words**: no name goes on with it, and the scanner
finds the words in front of every text at which a name ends. -/
structure Trails (text : List Char) (ws : List Word) : Prop where
  boundary : ∀ ⦃cs⦄, Boundary cs → Boundary (text ++ cs)
  lexed : ∀ ⦃cs ws'⦄, Boundary cs → Lexed true cs ws' → Lexed true (text ++ cs) (ws ++ ws')

namespace Trails

theorem nil : Trails [] [] := ⟨fun _ h => h, fun _ _ _ h => h⟩

theorem append (h : Trails text ws) (h' : Trails text' ws') : Trails (text ++ text') (ws ++ ws') := by
  refine ⟨fun cs hcs => ?_, fun cs vs hcs hlex => ?_⟩
  · rw [List.append_assoc]
    exact h.boundary (h'.boundary hcs)
  · rw [List.append_assoc, List.append_assoc]
    exact h.lexed (h'.boundary hcs) (h'.lexed hcs hlex)

/-- A text behind a blank. -/
theorem blank (h : Written text ws) : Trails (' ' :: text) ws :=
  ⟨fun _ _ => boundary_blank, fun _ _ hcs hlex => .blank h.head_ne_mark (h.lexed hcs hlex true)⟩

/-- Texts with commas between them, in parentheses or brackets. -/
theorem list {texts : List String} {wss : List (List Word)} {o c : Sign}
    (h : List.Forall₂ (fun text ws => Written text.toList ws) texts wss) (ho : joins o = [])
    (hc : joins c = []) (hbounds : ∀ cs, Boundary (o.spelling.toList ++ cs))
    (hbounds' : ∀ cs, Boundary (c.spelling.toList ++ cs)) :
    Trails (o.spelling ++ commas texts ++ c.spelling).toList
      (o.word :: (commaWords wss ++ [c.word])) := by
  simp only [String.toList_append, List.append_assoc]
  refine ⟨fun cs _ => ?_, fun cs vs hcs hlex => ?_⟩
  · rw [List.append_assoc]
    exact hbounds _
  · have hall := lexed_list h ho hc (hbounds' cs) hlex true
    simpa only [List.append_assoc, List.cons_append, List.nil_append] using hall

theorem parens {texts : List String} {wss : List (List Word)}
    (h : List.Forall₂ (fun text ws => Written text.toList ws) texts wss) :
    Trails ("(" ++ commas texts ++ ")").toList
      (Sign.leftParen.word :: (commaWords wss ++ [Sign.rightParen.word])) :=
  list (o := .leftParen) (c := .rightParen) h rfl rfl (fun _ => boundary_cons.mpr (by decide))
    fun _ => boundary_cons.mpr (by decide)

theorem brackets {texts : List String} {wss : List (List Word)}
    (h : List.Forall₂ (fun text ws => Written text.toList ws) texts wss) :
    Trails ("[" ++ commas texts ++ "]").toList
      (Sign.leftBracket.word :: (commaWords wss ++ [Sign.rightBracket.word])) :=
  list (o := .leftBracket) (c := .rightBracket) h rfl rfl (fun _ => boundary_cons.mpr (by decide))
    fun _ => boundary_cons.mpr (by decide)

/-- A value behind `:=`. -/
theorem assign {value : String} (h : Written value.toList ws) :
    Trails (" := " ++ value).toList (Sign.assign.word :: ws) := by
  have htext : (" := " ++ value).toList = ' ' :: (Sign.assign.spelling.toList ++ ' ' :: value.toList) :=
    String.toList_append
  rw [htext]
  refine ⟨fun _ _ => boundary_blank, fun cs vs hcs hlex => .blank (by simp [Sign.spelling]) ?_⟩
  have hassign := Lexed.sign .assign (by simp [joins])
    (.blank h.head_ne_mark (h.lexed hcs hlex true)) true
  rwa [← List.cons_append, ← List.append_assoc] at hassign

end Trails

/-- A text with another one behind it. -/
theorem Written.append (h : Written text ws) (h' : Trails text' ws') :
    Written (text ++ text') (ws ++ ws') := by
  obtain ⟨c, rest, rfl, hc⟩ := h.opens
  refine ⟨⟨c, _, rfl, hc⟩, fun cs vs hcs hlex lineOpen => ?_⟩
  rw [List.append_assoc, List.append_assoc]
  exact h.lexed (h'.boundary hcs) (h'.lexed hcs hlex) lineOpen

theorem Written.keyword (k : Keyword) : Written k.spelling.toList [k.word] :=
  ⟨by cases k <;> exact ⟨_, _, rfl, rfl⟩, fun _ _ hcs hlex => .keyword k hcs hlex⟩

/-- A keyword and a text behind it. -/
theorem Written.behind {text : String} (k : Keyword) (h : Written text.toList ws) :
    Written (k.spelling ++ (" " ++ text)).toList (k.word :: ws) := by
  rw [String.toList_append, String.toList_append]
  exact (Written.keyword k).append (.blank h)

/-- Texts with commas between them, in parentheses. -/
theorem Written.parens {texts : List String} {wss : List (List Word)}
    (h : List.Forall₂ (fun text ws => Written text.toList ws) texts wss) :
    Written ("(" ++ Printer.commas texts ++ ")").toList
      (Sign.leftParen.word :: (commaWords wss ++ [Sign.rightParen.word])) := by
  rw [String.append_assoc, String.toList_append, String.toList_append]
  refine ⟨⟨_, _, rfl, rfl⟩, fun cs vs hcs hlex lineOpen => ?_⟩
  have hall := lexed_list (o := .leftParen) (c := .rightParen) h rfl rfl
    (boundary_cons.mpr (by decide)) hlex lineOpen
  simp only [List.append_assoc, List.cons_append, List.nil_append]
  exact hall

/-! ### Lines -/

/-- **Lines are written as words**, each with the word that ends it. -/
inductive Lined : List Line → List Word → Prop
  | nil : Lined [] []
  | cons {l : Line} {ls ws ws'} (h : Written l.text.toList ws) (hs : Lined ls ws') :
    Lined (l :: ls) (ws ++ [lineEnd] ++ ws')

namespace Lined

variable {ls ls' : List Line}

theorem append (h : Lined ls ws) (h' : Lined ls' ws') : Lined (ls ++ ls') (ws ++ ws') := by
  induction h with
  | nil => exact h'
  | cons hl _ ih =>
    rw [List.append_assoc]
    exact .cons hl ih

theorem one {l : Line} (h : Written l.text.toList ws) : Lined [l] (ws ++ [lineEnd]) := by
  rw [← List.append_nil (ws ++ [lineEnd])]
  exact .cons h .nil

end Lined

/-- Blanks at the front of a line. -/
theorem lexed_blanks (n : Nat) {lineOpen : Bool} (h : cs.head? ≠ some '\ufeff')
    (hcs : Lexed lineOpen cs ws) : Lexed lineOpen (List.replicate n ' ' ++ cs) ws := by
  induction n with
  | zero => exact hcs
  | succ n ih =>
    refine .blank ?_ ih
    cases n with
    | zero => exact h
    | succ n => simp [List.replicate_succ]

/-- **Lines are scanned as their words**, however they are indented. -/
theorem Lined.lexed {ls : List Line} (h : Lined ls ws) (o : Options) (hcs : Lexed false cs ws') :
    Lexed false ((Printer.text o ls).toList ++ cs) (ws ++ ws') := by
  induction h with
  | nil => exact hcs
  | @cons l ls ws vs hl _ ih =>
    have hline : Lexed true ('\n' :: ((Printer.text o ls).toList ++ cs)) (lineEnd :: (vs ++ ws')) :=
      .newline ih
    have htext := hl.lexed (boundary_cons.mpr (by decide)) hline false
    have hindent : ∀ n, Lexed false (List.replicate n ' ' ++ (l.text.toList ++
        '\n' :: ((Printer.text o ls).toList ++ cs))) (ws ++ [lineEnd] ++ vs ++ ws') := by
      intro n
      rw [List.append_assoc, List.append_assoc]
      exact lexed_blanks n hl.head_ne_mark htext
    have hsplit : (Printer.text o (l :: ls)).toList ++ cs =
        (if o.removeWhitespace then [] else List.replicate (l.depth * o.indentWidth) ' ') ++
          (l.text.toList ++ '\n' :: ((Printer.text o ls).toList ++ cs)) := by
      simp only [Printer.text, line, List.map_cons, String.join_cons, String.toList_append]
      split <;> simp
    rw [hsplit]
    split
    · exact hindent 0
    · exact hindent _

end FlatScript.Printer
