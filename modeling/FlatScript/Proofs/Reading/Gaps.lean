import FlatScript.Token.Scan
import Mathlib.Data.List.Infix
import Mathlib.Data.List.TakeWhile

/-!
# Gaps between tokens

Some text of a script belongs to no token: blanks, comments, marks of the byte order, the dots that
join a line to the next one, and line feeds where there is no line to end. Here this text is
described by itself, and the scanner is shown to skip nothing else.

A comment ends where its closing mark stands for the first time, and one without a closing mark takes
all that there is. So whether a text is a comment can depend on what follows it: each relation is
between a text and the text that remains behind it.

* `FlatScript.Scan.Remark` is a blank or a comment, and `FlatScript.Scan.Remarks` a run of them.
* `FlatScript.Scan.Trivia` is the text that may stand in front of a token.
* `FlatScript.Scan.trivia_gap`: what `FlatScript.Scan.gap` measures is such text.
-/

namespace FlatScript.Scan

variable {close cs text within rest t : List Char} {n : Nat}

/-! ### Blanks and comments -/

/-- The marks around a comment that can go over several lines. -/
def commentMarks : List (List Char × List Char) :=
  [(['\x7b'], ['\x7d']), (['/', '*'], ['*', '/'])]

/-- **A blank or a comment** in front of a text. -/
inductive Remark : List Char → List Char → Prop
  /-- A blank within a line. -/
  | blank {c : Char} {rest : List Char} (h : isLineBlank c = true) : Remark [c] rest
  /-- A comment up to the first closing mark. -/
  | closed {opening closing inside rest : List Char} (h : (opening, closing) ∈ commentMarks)
      (hfirst : ¬closing <:+: inside ++ closing.dropLast) :
      Remark (opening ++ (inside ++ closing)) rest
  /-- A comment without closing mark. Nothing is left behind it. -/
  | unclosed {opening closing inside : List Char} (h : (opening, closing) ∈ commentMarks)
      (hnone : ¬closing <:+: inside) : Remark (opening ++ inside) []
  /-- A comment up to the end of its line. -/
  | line {inside rest : List Char} (h : '\n' ∉ inside) (hrest : ∀ c ∈ rest.head?, c = '\n') :
      Remark ('/' :: '/' :: inside) rest

/-- **A run of blanks and comments** in front of a text. -/
inductive Remarks : List Char → List Char → Prop
  /-- Nothing. -/
  | nil {rest : List Char} : Remarks [] rest
  /-- A blank or a comment, and then more of them. -/
  | cons {t text rest : List Char} (h : Remark t (text ++ rest)) (hs : Remarks text rest) :
      Remarks (t ++ text) rest

/-- **A text that starts with the end of its line**, apart from blanks and comments. -/
def EndsLine (cs : List Char) : Prop :=
  ∃ within tail, cs = within ++ '\n' :: tail ∧ Remarks within ('\n' :: tail)

/-- **Text that no token is made of**, in front of a text. Line feeds count as such text only when
`feeds` holds. -/
inductive Trivia (feeds : Bool) : List Char → List Char → Prop
  /-- Nothing. -/
  | nil {rest : List Char} : Trivia feeds [] rest
  /-- A blank or a comment. -/
  | remark {t text rest : List Char} (h : Remark t (text ++ rest)) (hs : Trivia feeds text rest) :
      Trivia feeds (t ++ text) rest
  /-- A mark of the byte order. -/
  | mark {text rest : List Char} (hs : Trivia feeds text rest) :
      Trivia feeds ('\ufeff' :: text) rest
  /-- The dots of a continuation, and the line feed that they join. -/
  | joined {within text rest : List Char} (h : Remarks within ('\n' :: (text ++ rest)))
      (hs : Trivia feeds text rest) :
      Trivia feeds ('.' :: '.' :: '.' :: (within ++ '\n' :: text)) rest
  /-- The dots of a continuation that is not at the end of its line. -/
  | dots {text rest : List Char} (h : ¬EndsLine (text ++ rest)) (hs : Trivia feeds text rest) :
      Trivia feeds ('.' :: '.' :: '.' :: text) rest
  /-- A line feed where no line is to be ended. -/
  | feed {text rest : List Char} (h : feeds = true) (hs : Trivia feeds text rest) :
      Trivia feeds ('\n' :: text) rest

variable {feeds : Bool}

theorem Trivia.append (h : Trivia feeds within (text ++ rest)) (hs : Trivia feeds text rest) :
    Trivia feeds (within ++ text) rest := by
  generalize hcs : text ++ rest = cs at h
  induction h with
  | nil => exact hs
  | remark h _ ih =>
    subst hcs
    rw [List.append_assoc]
    exact .remark (by rwa [List.append_assoc]) (ih rfl)
  | mark _ ih => exact .mark (ih hcs)
  | joined h _ ih =>
    subst hcs
    rw [List.cons_append, List.cons_append, List.cons_append, List.append_assoc, List.cons_append]
    exact .joined (by rwa [List.append_assoc]) (ih rfl)
  | @dots text' _ h _ ih =>
    subst hcs
    have hends : ¬EndsLine (text' ++ text ++ rest) := by rwa [List.append_assoc]
    exact .dots hends (ih rfl)
  | feed h _ ih => exact .feed h (ih hcs)

theorem Remarks.trivia (h : Remarks text rest) : Trivia feeds text rest := by
  induction h with
  | nil => exact .nil
  | cons h _ ih => exact .remark h ih

/-! ### Closing marks -/

/-- Without its last character a closing mark is not there yet. -/
theorem through_append_dropLast (hclose : close ≠ []) (text rest : List Char) :
    text ++ close.dropLast <+: text ++ (close ++ rest) := by
  refine (List.prefix_append_right_inj text).mpr ⟨close.getLast hclose :: rest, ?_⟩
  rw [List.append_cons, List.dropLast_append_getLast hclose]

/-- **The first closing mark is found.** -/
theorem through_append (hclose : close ≠ []) (hfirst : ¬close <:+: within ++ close.dropLast) :
    through close (within ++ (close ++ rest)) = some (within.length + close.length) := by
  induction within with
  | nil =>
    obtain ⟨c, close, rfl⟩ := List.exists_cons_of_ne_nil hclose
    rw [List.nil_append, List.cons_append, through, if_pos (by simp)]
    simp
  | cons c within ih =>
    rw [List.cons_append, List.infix_cons_iff, not_or] at hfirst
    have hprefix : ¬close.isPrefixOf (c :: (within ++ (close ++ rest))) = true := by
      rw [List.isPrefixOf_iff_prefix]
      refine fun h => hfirst.1 (List.prefix_of_prefix_length_le h
        (through_append_dropLast hclose (c :: within) rest) ?_)
      simp only [List.length_cons, List.length_append, List.length_dropLast]
      omega
    rw [List.cons_append, through, if_neg hprefix, ih hfirst.2, Option.map_some, List.length_cons]
    congr 1
    omega

/-- **What is found is the first closing mark.** -/
theorem exists_of_through (hclose : close ≠ []) (h : through close cs = some n) :
    ∃ inside rest, cs = inside ++ (close ++ rest) ∧ n = inside.length + close.length ∧
      ¬close <:+: inside ++ close.dropLast := by
  induction cs generalizing n with
  | nil => cases h
  | cons c cs ih =>
    rw [through] at h
    split at h
    next hprefix =>
      cases h
      obtain ⟨rest, hrest⟩ := List.isPrefixOf_iff_prefix.mp hprefix
      refine ⟨[], rest, hrest.symm, by simp, fun h => ?_⟩
      have hlength := h.length_le
      rw [List.nil_append, List.length_dropLast] at hlength
      have := List.length_pos_iff.mpr hclose
      omega
    next hprefix =>
      obtain ⟨m, hm, rfl⟩ := Option.map_eq_some_iff.mp h
      obtain ⟨inside, rest, rfl, rfl, hfirst⟩ := ih hm
      refine ⟨c :: inside, rest, rfl, by rw [List.length_cons]; omega, ?_⟩
      rw [List.cons_append, List.infix_cons_iff, not_or]
      refine ⟨fun h => hprefix ?_, hfirst⟩
      rw [List.isPrefixOf_iff_prefix]
      exact h.trans (through_append_dropLast hclose (c :: inside) rest)

theorem through_eq_none_iff (hclose : close ≠ []) : through close cs = none ↔ ¬close <:+: cs := by
  induction cs with
  | nil => simpa [through] using hclose
  | cons c cs ih =>
    rw [List.infix_cons_iff, through]
    split
    next h => simp [List.isPrefixOf_iff_prefix.mp h]
    next h =>
      have h' : ¬close <+: c :: cs := fun hp => h (List.isPrefixOf_iff_prefix.mpr hp)
      rw [Option.map_eq_none_iff, ih]
      simp [h']

/-! ### The scanner on blanks and comments -/

theorem closing_ne_nil {opening closing : List Char} (h : (opening, closing) ∈ commentMarks) :
    closing ≠ [] := by
  simp only [commentMarks, List.mem_cons, List.not_mem_nil, or_false, Prod.mk.injEq] at h
  rcases h with ⟨-, rfl⟩ | ⟨-, rfl⟩ <;> simp

/-- Which marks a comment is looked for with. -/
theorem blankOrComment_opening {opening closing : List Char} (h : (opening, closing) ∈ commentMarks)
    (cs : List Char) : blankOrComment (opening ++ cs) = some (comment opening.length closing cs) := by
  simp only [commentMarks, List.mem_cons, List.not_mem_nil, or_false, Prod.mk.injEq] at h
  rcases h with ⟨rfl, rfl⟩ | ⟨rfl, rfl⟩ <;> rfl

/-- The run of other characters in front of a line feed. -/
theorem run_line (h : '\n' ∉ text) (hrest : ∀ c ∈ rest.head?, c = '\n') :
    run (· ≠ '\n') (text ++ rest) = text.length := by
  have hall : ∀ c ∈ text, (decide (c ≠ '\n')) = true := fun c hc => by
    simpa using ne_of_mem_of_not_mem hc h
  rw [run, List.takeWhile_append_of_pos hall, List.length_append, Nat.add_eq_left,
    List.length_eq_zero_iff]
  cases rest with
  | nil => rfl
  | cons c rest => simp [hrest c rfl]

/-- **A blank or a comment is taken as one.** -/
theorem blankOrComment_of_remark (h : Remark t rest) :
    ∃ u, blankOrComment (t ++ rest) = some ⟨t.length, u⟩ := by
  cases h with
  | @blank c _ h =>
    refine ⟨none, ?_⟩
    have hbrace : c ≠ '\x7b' := by rintro rfl; cases h
    have hslash : c ≠ '/' := by rintro rfl; cases h
    unfold blankOrComment
    split <;> simp_all
  | closed hmarks hfirst =>
    refine ⟨none, ?_⟩
    rw [List.append_assoc, List.append_assoc, blankOrComment_opening hmarks, comment,
      through_append (closing_ne_nil hmarks) hfirst]
    simp
  | unclosed hmarks hnone =>
    rw [List.append_nil, blankOrComment_opening hmarks, comment,
      (through_eq_none_iff (closing_ne_nil hmarks)).mpr hnone]
    exact ⟨some _, by simp; rfl⟩
  | line h hrest =>
    refine ⟨none, ?_⟩
    have hrun := run_line h hrest
    simp only [List.cons_append, blankOrComment, hrun, List.length_cons]
    congr 2
    omega

/-- The comment that a scanned one is. -/
theorem remark_of_comment (opening : List Char) {closing : List Char}
    (h : (opening, closing) ∈ commentMarks) (cs : List Char) :
    ∃ t rest, opening ++ cs = t ++ rest ∧ Remark t rest ∧
      (comment opening.length closing cs).length = t.length := by
  unfold comment
  cases hthrough : through closing cs with
  | some n =>
    obtain ⟨inside, rest, rfl, rfl, hfirst⟩ := exists_of_through (closing_ne_nil h) hthrough
    exact ⟨opening ++ (inside ++ closing), rest, by simp, .closed h hfirst, by simp⟩
  | none =>
    exact ⟨opening ++ cs, [], by simp,
      .unclosed h ((through_eq_none_iff (closing_ne_nil h)).mp hthrough), by simp⟩

/-- **What is taken as a blank or a comment is one.** -/
theorem remark_of_blankOrComment {p : Piece} (h : blankOrComment cs = some p) :
    ∃ t rest, cs = t ++ rest ∧ Remark t rest ∧ p.length = t.length := by
  unfold blankOrComment at h
  split at h
  next cs => cases h; exact remark_of_comment ['\x7b'] (by simp [commentMarks]) cs
  next cs => cases h; exact remark_of_comment ['/', '*'] (by simp [commentMarks]) cs
  next cs =>
    cases h
    refine ⟨'/' :: '/' :: cs.takeWhile (· ≠ '\n'), cs.dropWhile (· ≠ '\n'), ?_, .line ?_ ?_, ?_⟩
    · simp
    · intro hmem
      simpa using List.mem_takeWhile_imp hmem
    · intro c hc
      have := List.head?_dropWhile_not (fun c => decide (c ≠ '\n')) cs
      rw [Option.mem_def.mp hc] at this
      simpa using this
    · simp only [run, List.length_cons]
      omega
  next c cs _ _ _ =>
    split at h
    next hblank => cases h; exact ⟨[c], cs, rfl, .blank hblank, rfl⟩
    next => cases h
  next => cases h

/-- No blank or comment starts with a line feed or a dot. -/
theorem blankOrComment_feed (cs : List Char) : blankOrComment ('\n' :: cs) = none := rfl

theorem Remark.ne_nil (h : Remark t rest) : t ≠ [] := by
  cases h with
  | blank | line => exact List.cons_ne_nil _ _
  | closed hmarks => simp [closing_ne_nil hmarks]
  | unclosed hmarks =>
    simp only [commentMarks, List.mem_cons, List.not_mem_nil, or_false, Prod.mk.injEq] at hmarks
    rcases hmarks with ⟨rfl, -⟩ | ⟨rfl, -⟩ <;> simp

/-! ### Continuations -/

theorem restOfContinuation_drop (skip : Nat) (cs : List Char) :
    restOfContinuation skip cs = restOfContinuation 0 (cs.drop skip) := by
  induction skip generalizing cs with
  | zero => rfl
  | succ skip ih =>
    cases cs with
    | nil => rfl
    | cons c cs => exact ih cs

/-- A continuation goes on behind a blank or a comment. -/
theorem restOfContinuation_remark (h : Remark t rest) :
    (restOfContinuation 0 (t ++ rest)).length = t.length + (restOfContinuation 0 rest).length := by
  obtain ⟨u, hpiece⟩ := blankOrComment_of_remark h
  obtain ⟨c, t, rfl⟩ := List.exists_cons_of_ne_nil h.ne_nil
  rw [List.cons_append] at hpiece ⊢
  rw [restOfContinuation, hpiece]
  simp only [Piece.andThen, List.length_cons, Nat.add_sub_cancel]
  rw [restOfContinuation_drop, List.drop_left]

/-- A blank or comment in front of a text does not change whether its line ends. -/
theorem EndsLine.behind (h : Remark t rest) (hends : EndsLine (t ++ rest)) : EndsLine rest := by
  obtain ⟨u, hpiece⟩ := blankOrComment_of_remark h
  obtain ⟨within, tail, hcs, hwithin⟩ := hends
  cases hwithin with
  | nil =>
    rw [hcs, List.nil_append, blankOrComment_feed] at hpiece
    cases hpiece
  | @cons t' text _ h' hs =>
    -- The two pieces are of one length, since the scanner takes both.
    obtain ⟨u', hpiece'⟩ := blankOrComment_of_remark h'
    rw [List.append_assoc] at hcs
    rw [hcs, hpiece', Option.some_inj, Piece.mk.injEq] at hpiece
    obtain ⟨-, rfl⟩ := List.append_inj hcs hpiece.1.symm
    exact ⟨text, tail, rfl, hs⟩

theorem endsLine_of_none (hpiece : blankOrComment cs = none) (hends : EndsLine cs) :
    cs.head? = some '\n' := by
  obtain ⟨within, tail, rfl, hwithin⟩ := hends
  cases hwithin with
  | nil => rfl
  | cons h hs =>
    obtain ⟨u, hsome⟩ := blankOrComment_of_remark h
    rw [List.append_assoc, hsome] at hpiece
    cases hpiece

/-- **What a continuation takes**: a run of blanks and comments, and the line feed behind them if one
follows. -/
theorem restOfContinuation_spec (n : Nat) : ∀ cs : List Char, cs.length = n →
    ∃ within rest, cs = within ++ rest ∧ Remarks within rest ∧
      ((∃ tail, rest = '\n' :: tail ∧ (restOfContinuation 0 cs).length = within.length + 1) ∨
        (¬EndsLine cs ∧ (restOfContinuation 0 cs).length = within.length)) := by
  induction n using Nat.strong_induction_on with
  | h n ih =>
    rintro (_ | ⟨c, cs⟩) hn
    · exact ⟨[], [], rfl, .nil, .inr ⟨fun h => (nomatch endsLine_of_none rfl h), rfl⟩⟩
    · cases hpiece : blankOrComment (c :: cs) with
      | none =>
        refine ⟨[], c :: cs, rfl, .nil, ?_⟩
        simp only [restOfContinuation, hpiece]
        by_cases hc : c = '\n'
        · exact .inl ⟨cs, by rw [hc], by simp [hc]⟩
        · refine .inr ⟨fun h => hc ?_, by simp [hc]⟩
          simpa using endsLine_of_none hpiece h
      | some p =>
        obtain ⟨t, rest, hcs, ht, -⟩ := remark_of_blankOrComment hpiece
        have hlt : rest.length < n := by
          have := List.length_pos_iff.mpr ht.ne_nil
          rw [← hn, hcs, List.length_append]
          omega
        obtain ⟨within, rest, rfl, hwithin, hlength⟩ := ih _ hlt rest rfl
        refine ⟨t ++ within, rest, by rw [hcs, List.append_assoc], .cons ht hwithin, ?_⟩
        rw [hcs, restOfContinuation_remark ht, List.length_append]
        refine hlength.imp ?_ ?_
        · rintro ⟨tail, htail, hlength⟩
          exact ⟨tail, htail, by omega⟩
        · rintro ⟨hends, hlength⟩
          exact ⟨fun h => hends (h.behind ht), by omega⟩

/-! ### The scanner on gaps -/

theorem trivia_drop (skip : Nat) (cs : List Char) : trivia skip cs = trivia 0 (cs.drop skip) := by
  induction skip generalizing cs with
  | zero => rfl
  | succ skip ih =>
    cases cs with
    | nil => rfl
    | cons c cs => exact ih cs

theorem trivia_dots (cs : List Char) :
    (trivia 0 ('.' :: '.' :: '.' :: cs)).length = 3 + ((restOfContinuation 0 cs).length +
      (trivia 0 (cs.drop (restOfContinuation 0 cs).length)).length) := by
  have hpiece : blankOrComment ('.' :: '.' :: '.' :: cs) = none := rfl
  have hdots : ['.', '.', '.'].isPrefixOf ('.' :: '.' :: '.' :: cs) = true := rfl
  rw [trivia, hpiece]
  simp only [hdots, if_true, Piece.andThen, Gap.append, List.drop_succ_cons, List.drop_zero]
  rw [trivia_drop, Nat.add_comm 2, List.drop_succ_cons, List.drop_succ_cons]

/-- **What is skipped without a mark of the byte order** is text that no token is made of. -/
theorem exists_trivia (feeds : Bool) (n : Nat) : ∀ cs : List Char, cs.length = n →
    ∃ text rest, cs = text ++ rest ∧ Trivia feeds text rest ∧
      (trivia 0 cs).length = text.length := by
  induction n using Nat.strong_induction_on with
  | h n ih =>
    rintro (_ | ⟨c, cs⟩) hn
    · exact ⟨[], [], rfl, .nil, rfl⟩
    · cases hpiece : blankOrComment (c :: cs) with
      | some p =>
        obtain ⟨t, rest, hcs, ht, hlength⟩ := remark_of_blankOrComment hpiece
        obtain ⟨d, t, rfl⟩ := List.exists_cons_of_ne_nil ht.ne_nil
        obtain ⟨rfl, rfl⟩ : c = d ∧ cs = t ++ rest := by simpa using hcs
        have hlt : rest.length < n := by
          simp only [← hn, List.length_cons, List.length_append]
          omega
        obtain ⟨text, rest, rfl, htext, hskip⟩ := ih rest.length hlt rest rfl
        refine ⟨c :: t ++ text, rest, by simp, .remark ht htext, ?_⟩
        simp only [trivia, hpiece, Piece.andThen, hlength, List.length_cons, Nat.add_sub_cancel]
        rw [trivia_drop, List.drop_left, hskip, List.length_append, List.length_cons]
      | none =>
        by_cases hdots : ['.', '.', '.'].isPrefixOf (c :: cs) = true
        · obtain ⟨cs', hcs⟩ := List.isPrefixOf_iff_prefix.mp hdots
          rw [← hcs, List.cons_append, List.cons_append, List.cons_append, List.nil_append] at hn ⊢
          simp only [List.length_cons] at hn
          obtain ⟨within, rest, rfl, hwithin, hline⟩ := restOfContinuation_spec _ cs' rfl
          rw [trivia_dots]
          rcases hline with ⟨tail, rfl, hlength⟩ | ⟨hends, hlength⟩
          · obtain ⟨text, rest, rfl, htext, hskip⟩ := ih tail.length (by simp at hn; omega) tail rfl
            refine ⟨'.' :: '.' :: '.' :: (within ++ '\n' :: text), rest, by simp,
              .joined hwithin htext, ?_⟩
            rw [hlength, List.append_cons, List.drop_left' (by simp), hskip]
            simp only [List.length_cons, List.length_append]
            omega
          · obtain ⟨text, rest, rfl, htext, hskip⟩ := ih rest.length (by simp at hn; omega) rest rfl
            rw [← List.append_assoc] at hends
            refine ⟨'.' :: '.' :: '.' :: (within ++ text), rest, by simp,
              .dots hends (hwithin.trivia.append htext), ?_⟩
            rw [hlength, List.drop_left, hskip]
            simp only [List.length_cons, List.length_append]
            omega
        · exact ⟨[], c :: cs, rfl, .nil, by simp [trivia, hpiece, hdots]⟩

/-- **What is skipped in front of a token** is text that no token is made of. -/
theorem trivia_gap (feeds : Bool) (cs : List Char) :
    Trivia feeds (cs.take (gap cs).length) (cs.drop (gap cs).length) := by
  have hsplit : ∃ text rest, cs = text ++ rest ∧ Trivia feeds text rest ∧
      (gap cs).length = text.length := by
    unfold gap
    split
    next cs =>
      obtain ⟨text, rest, rfl, htext, hlength⟩ := exists_trivia feeds _ cs rfl
      exact ⟨'\ufeff' :: text, rest, rfl, .mark htext, by
        rw [Piece.andThen, hlength, List.length_cons, Nat.add_comm]⟩
    next => exact exists_trivia feeds _ cs rfl
  obtain ⟨text, rest, rfl, htext, hlength⟩ := hsplit
  rwa [hlength, List.take_left, List.drop_left]

end FlatScript.Scan
