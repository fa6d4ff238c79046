import FlatScript.Proofs.Reading.Expression

/-!
# Reading lines

Statements end with their line, so most steps of the parser end with `expectLineEnd`, and a body
starts by skipping empty lines. Here is what these steps do on given words, in the manner of
`FlatScript.Parser.Takes`, and what the one step does that looks two words ahead, the one for the
modifiers of a declaration (`FlatScript.Parser.Takes.modifiers`).
-/

namespace FlatScript

/-- The word that ends a line. -/
def lineEnd : Word := ⟨.newline, "\n"⟩

@[simp] theorem lineEnd_kind : lineEnd.kind = .newline := rfl

/-- The word of a name. -/
def nameWord (name : String) : Word := ⟨.identifier, name⟩

@[simp] theorem nameWord_kind (name : String) : (nameWord name).kind = .identifier := rfl

@[simp] theorem nameWord_lexeme (name : String) : (nameWord name).lexeme = name := rfl

namespace Parser

/-! ### The words up to the end of a line -/

/-- Whether a token ends a line. -/
def endsLine (k : TokenKind) : Bool := k == .newline || k == .eof

/-- **The words up to the end of the line** are the only ones. -/
theorem State.Passes.eq_of_endsLine {s m m' : State} {ws ws' : List Word} (h : s.Passes ws m)
    (h' : s.Passes ws' m') (hws : ∀ w ∈ ws, endsLine w.kind = false)
    (hws' : ∀ w ∈ ws', endsLine w.kind = false) (hm : endsLine m.peek.kind = true)
    (hm' : endsLine m'.peek.kind = true) : ws = ws' := by
  induction ws generalizing s ws' with
  | nil =>
    cases ws' with
    | nil => rfl
    | cons w' ws' =>
      rw [← nextKind_nil m.peek.kind, ← h.peek_kind, h'.peek_kind, nextKind_cons,
        hws' w' (by simp)] at hm
      cases hm
  | cons w ws ih =>
    cases ws' with
    | nil =>
      rw [← nextKind_nil m'.peek.kind, ← h'.peek_kind, h.peek_kind, nextKind_cons,
        hws w (by simp)] at hm'
      cases hm'
    | cons w' ws' =>
      rw [List.forall_mem_cons] at hws hws'
      have hw : w = w' := h.peek_word.symm.trans h'.peek_word
      rw [hw, ih h.advance h'.advance hws.2 hws'.2]

theorem State.skipNewlines_eq (s : State) (h : s.peek.kind ≠ .newline) : s.skipNewlines = s := by
  unfold State.skipNewlines
  split
  next hrest => exact absurd (by simp [State.peek, hrest]) h
  next => rfl

/-- Names up to one that no name follows. -/
theorem modifiersOf_eq {eof t : Token} {ts mods : List Token} {words : List String}
    (hmods : mods.map Token.word = words.map nameWord) (ht : t.kind = .identifier)
    (hts : (ts.headD eof).kind ≠ .identifier) :
    modifiersOf eof (mods ++ t :: ts) = (words, t :: ts) := by
  induction mods generalizing words with
  | nil =>
    obtain rfl : words = [] := by simpa using hmods.symm
    rw [List.nil_append, modifiersOf, if_neg fun h => hts h.2]
  | cons m mods ih =>
    obtain ⟨word, words, rfl, hword, hwords⟩ := List.map_eq_cons_iff.mp hmods.symm
    have hm : m.kind = .identifier := congrArg Word.kind hword.symm
    have hhead : ((mods ++ t :: ts).headD eof).kind = .identifier := by
      cases mods with
      | nil => exact ht
      | cons m' mods =>
        obtain ⟨word', -, -, hword', -⟩ := List.map_eq_cons_iff.mp hwords
        exact congrArg Word.kind hword'.symm
    rw [List.cons_append, modifiersOf, if_pos ⟨hm, hhead⟩, ih hwords.symm]
    exact congrArg (fun w : Word => (w.lexeme :: words, t :: ts)) hword.symm

/-! ### Steps on given words -/

namespace Takes

variable {α β : Type} {w : Word} {ws : List Word} {next : TokenKind} {Q : β → Prop}

/-- The end of a line. -/
theorem lineEnd {f : Unit → Parse β} (h : Takes (f ()) ws next Q) :
    Takes (expectLineEnd >>= f) (lineEnd :: ws) next Q := by
  refine steps fun s s' _ hs _ => ⟨(), s.advance, ?_, hs.advance, h⟩
  have hkind : s.peek.kind = .newline := by rw [hs.peek_kind]; rfl
  rw [expectLineEnd, run_bind_eq_ok]
  refine ⟨s, s, rfl, ?_⟩
  simp only [hkind, beq_self_eq_true, if_true]
  rfl

/-- No empty lines to be skipped. -/
theorem skipNewlines {f : Unit → Parse β} (hnext : nextKind ws next ≠ .newline)
    (h : Takes (f ()) ws next Q) : Takes (Parser.skipNewlines >>= f) ws next Q := by
  refine steps fun s s' _ hs hkind => ⟨(), s, ?_, hs, h⟩
  change EStateM.Result.ok () s.skipNewlines = _
  rw [s.skipNewlines_eq (by rwa [hs.peek_kind, hkind])]

/-- **The modifiers of a declaration** are the names in front of the last one. -/
theorem modifiers {f : List String → Parse β} {words : List String} {name : String}
    (hnext : nextKind ws next ≠ .identifier)
    (h : Takes (f words) (nameWord name :: ws) next Q) :
    Takes (Parser.modifiers >>= f) (words.map nameWord ++ nameWord name :: ws) next Q := by
  refine @steps _ _ _ _ (nameWord name :: ws) _ _ _ fun s s' _ hs hkind => ?_
  obtain ⟨m, ⟨⟨mods, hmods, hrest⟩, heof⟩, hm⟩ := hs.split
  have hname : m.peek.kind = .identifier := hm.peek_kind
  have hbehind : m.advance.peek.kind ≠ .identifier := by rwa [hm.advance.peek_kind, hkind]
  refine ⟨words, ⟨m.rest, s.eof, s.lineStart && words.isEmpty⟩, ?_, ⟨hm.words, by rw [hm.eof, heof]⟩, h⟩
  rw [Parser.modifiers, run_bind_eq_ok]
  refine ⟨s, s, rfl, ?_⟩
  obtain ⟨t, ts, hts⟩ : ∃ t ts, m.rest = t :: ts := by
    obtain ⟨us, hus, hrest⟩ := hm.words
    obtain ⟨u, us, rfl, -, -⟩ := List.map_eq_cons_iff.mp hus
    exact ⟨u, _, hrest⟩
  simp only [State.peek, State.advance, hts, heof, List.headD_cons] at hname hbehind
  rw [hrest, hts, modifiersOf_eq hmods hname hbehind]
  rfl

end Takes

/-- **The closing words of a body**, with the end of their line. -/
theorem takes_expectEnd {next : TokenKind} (k : Keyword) :
    Takes (expectEnd k) [Keyword.endKw.word, k.word, lineEnd] next fun _ => True := by
  rw [expectEnd]
  refine .expect rfl fun start _ => .peekWord fun t ht => ?_
  have hkind : t.kind = .keyword k := congrArg Word.kind ht
  simp only [ne_eq, hkind, not_true, if_false]
  refine .advance fun _ _ => ?_
  have hend : Takes (expectLineEnd >>= pure) [lineEnd] next fun _ => True := .lineEnd (.pure trivial)
  rwa [bind_pure] at hend

end Parser

end FlatScript
