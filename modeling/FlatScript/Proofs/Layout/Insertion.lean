import FlatScript.Proofs.Layout.Lexemes
import FlatScript.Proofs.Reading.Tiling

/-!
# White space at the start of a line

A blank or an empty line that is put behind a line feed changes no word of a text. Wherever the
scanner is in front of it, the two texts give the same piece: a lexeme does not reach the line feed,
and what does reach it is a gap. A gap ends in front of the line feed in both texts, or it goes past
it in a comment or in a continuation.

Past a comment the texts are the same. Past a continuation a blank is skipped as well, but an empty
line is not: its line feed would end the line that has been continued. So an empty line may only
stand where no continuation ends.

* `FlatScript.Scan.words` is the words of a text, and `FlatScript.Scan.words_eq` the first of them.
* `FlatScript.Scan.Continued` says that a text ends in a continuation.
* `FlatScript.Scan.words_insert` is the insertion, and `FlatScript.Scan.Bare.admits` gives lines
  behind which there may be an empty one.
-/

namespace FlatScript.Scan

variable {cs before after t rest : List Char} {c : Char}

/-! ### Remarks -/

theorem prefix_of_prefix_append_cons {word : List Char} (xs : List Char) {ys : List Char}
    (hc : c ∉ word) (h : word <+: xs ++ c :: ys) : word <+: xs := by
  rwa [← List.isPrefixOf_iff_prefix, isPrefixOf_append_cons hc, List.isPrefixOf_iff_prefix] at h

/-- A word without a character stands in front of that character or behind it. -/
theorem infix_or_infix {word : List Char} (xs : List Char) {ys : List Char} (hc : c ∉ word)
    (h : word <:+: xs ++ c :: ys) : word <:+: xs ∨ word <:+: ys := by
  induction xs with
  | nil =>
    rcases List.infix_cons_iff.mp h with h | h
    · exact .inl (prefix_of_prefix_append_cons [] hc h).isInfix
    · exact .inr h
  | cons x xs ih =>
    rcases List.infix_cons_iff.mp h with h | h
    · exact .inl (prefix_of_prefix_append_cons (x :: xs) hc h).isInfix
    · exact (ih h).imp_left fun h => h.trans (List.suffix_cons x xs).isInfix

/-- A comment that goes past a line feed goes past more white space behind it. -/
theorem not_infix_insert {word xs ys : List Char} (hfeed : '\n' ∉ word) (hc : c ∉ word)
    (h : ¬word <:+: xs ++ '\n' :: ys) : ¬word <:+: xs ++ '\n' :: c :: ys := by
  intro hinfix
  rcases infix_or_infix xs hfeed hinfix with hxs | hys
  · exact h (hxs.trans (List.prefix_append _ _).isInfix)
  · rcases infix_or_infix [] hc hys with hnil | hys
    · rw [List.infix_nil.mp hnil] at h
      exact h List.nil_infix
    · exact h (hys.trans ((List.suffix_cons _ _).trans (List.suffix_append _ _)).isInfix)

/-- What stands at the front of a text and has no line feed is in front of the first one. -/
theorem split_front {front xs ys zs : List Char} (hfront : '\n' ∉ front)
    (h : front ++ xs = ys ++ '\n' :: zs) : ∃ ys', ys = front ++ ys' ∧ xs = ys' ++ '\n' :: zs := by
  rcases List.append_eq_append_iff.mp h with ⟨ys', rfl, rfl⟩ | ⟨more, rfl, hmore⟩
  · exact ⟨ys', rfl, rfl⟩
  · rcases List.cons_eq_append_iff.mp hmore with ⟨rfl, rfl⟩ | ⟨more, rfl, -⟩
    · exact ⟨[], by simp, rfl⟩
    · simp at hfront

/-- What stands at the end of a text and has no line feed is behind the last one. -/
theorem split_back {back xs ys zs : List Char} (hback : '\n' ∉ back)
    (h : xs ++ back = ys ++ '\n' :: zs) : ∃ zs', xs = ys ++ '\n' :: zs' ∧ zs = zs' ++ back := by
  rcases List.append_eq_append_iff.mp h with ⟨more, rfl, rfl⟩ | ⟨more, rfl, hmore⟩
  · simp at hback
  · rcases List.cons_eq_append_iff.mp hmore with ⟨rfl, rfl⟩ | ⟨zs', rfl, rfl⟩
    · simp at hback
    · exact ⟨zs', rfl, rfl⟩

/-- The marks around comments are no white space. -/
theorem notMem_commentMarks {opening closing : List Char} (h : (opening, closing) ∈ commentMarks)
    (hc : c = ' ' ∨ c = '\n') : c ∉ opening ∧ c ∉ closing := by
  simp only [commentMarks, List.mem_cons, List.not_mem_nil, or_false, Prod.mk.injEq] at h
  rcases h with ⟨rfl, rfl⟩ | ⟨rfl, rfl⟩ <;> rcases hc with rfl | rfl <;> decide

/-- A comment over a line feed takes more white space behind it along. -/
theorem Remark.widen {more : List Char} (hc : c = ' ' ∨ c = '\n')
    (h : Remark (before ++ '\n' :: more) rest) : Remark (before ++ '\n' :: c :: more) rest := by
  generalize ht : before ++ '\n' :: more = t at h
  cases h with
  | @blank d _ h =>
    rcases List.append_eq_singleton_iff.mp ht with ⟨-, hd⟩ | ⟨-, hd⟩ <;> cases hd
    cases h
  | @closed opening closing _ _ hmarks hfirst =>
    obtain ⟨front, rfl, hinside⟩ := split_front (notMem_commentMarks hmarks (.inr rfl)).1 ht.symm
    obtain ⟨back, rfl, rfl⟩ := split_back (notMem_commentMarks hmarks (.inr rfl)).2 hinside
    rw [List.append_assoc, List.cons_append] at hfirst
    have hmore := not_infix_insert (notMem_commentMarks hmarks (.inr rfl)).2
      (notMem_commentMarks hmarks hc).2 hfirst
    have hclosed : Remark (opening ++ ((front ++ '\n' :: c :: back) ++ closing)) rest :=
      .closed hmarks (by simpa using hmore)
    simpa using hclosed
  | unclosed hmarks hnone =>
    obtain ⟨front, rfl, rfl⟩ := split_front (notMem_commentMarks hmarks (.inr rfl)).1 ht.symm
    have hmore := not_infix_insert (notMem_commentMarks hmarks (.inr rfl)).2
      (notMem_commentMarks hmarks hc).2 hnone
    rw [List.append_assoc]
    exact .unclosed hmarks hmore
  | line h _ =>
    have hmem : '\n' ∈ before ++ '\n' :: more := by simp
    rw [ht] at hmem
    simp [h] at hmem

/-- **A remark in front of more white space.** Where one blank or line feed more stands behind a
line feed, a blank or a comment ends in front of the line feed, as before, or it takes the white
space along. -/
theorem Remark.insert (hc : c = ' ' ∨ c = '\n') (h : Remark t rest)
    (heq : t ++ rest = before ++ '\n' :: after) :
    (∃ before', before = t ++ before' ∧ rest = before' ++ '\n' :: after ∧
        Remark t (before' ++ '\n' :: c :: after)) ∨
      ∃ t', t' ++ rest = before ++ '\n' :: c :: after ∧ Remark t' rest := by
  have hwithin : ∀ before', rest = before' ++ '\n' :: after →
      Remark t (before' ++ '\n' :: c :: after) := by
    rintro before' rfl
    generalize hrest : before' ++ '\n' :: after = rest at h
    cases h with
    | blank h => exact .blank h
    | closed h hfirst => exact .closed h hfirst
    | unclosed => simp at hrest
    | line h hline =>
      refine .line h fun d hd => hline d ?_
      subst hrest
      cases before' <;> exact hd
  rcases List.append_eq_append_iff.mp heq with ⟨before', hbefore, hrest⟩ | ⟨more, rfl, hmore⟩
  · exact .inl ⟨before', hbefore, hrest, hwithin before' hrest⟩
  · rcases List.cons_eq_append_iff.mp hmore with ⟨rfl, hrest⟩ | ⟨more, rfl, rfl⟩
    · exact .inl ⟨[], by simp, hrest, hwithin [] hrest⟩
    · refine .inr ⟨before ++ '\n' :: c :: more, by simp, ?_⟩
      exact h.widen hc

/-! ### Behind continuations -/

/-- What stands behind the rest of a continuation. -/
def afterContinuation (cs : List Char) : List Char := cs.drop (restOfContinuation 0 cs).length

theorem afterContinuation_remark (h : Remark t rest) :
    afterContinuation (t ++ rest) = afterContinuation rest := by
  rw [afterContinuation, restOfContinuation_remark h, ← List.drop_drop, List.drop_left]
  rfl

theorem afterContinuation_feed (cs : List Char) : afterContinuation ('\n' :: cs) = cs := rfl

theorem afterContinuation_of_none (hpiece : blankOrComment (c :: cs) = none) (hc : c ≠ '\n') :
    afterContinuation (c :: cs) = c :: cs := by
  simp [afterContinuation, restOfContinuation, hpiece, hc]

/-- A remark is found by the two characters at its front. -/
theorem blankOrComment_eq_none_iff : blankOrComment (c :: cs) = none ↔
    c ≠ '\x7b' ∧ isLineBlank c = false ∧ (c = '/' → ∀ d ∈ cs.head?, d ≠ '*' ∧ d ≠ '/') := by
  unfold blankOrComment
  split
  next heq => simp_all
  next heq => simp_all
  next heq => simp_all
  next d ds hbrace hstar hslash heq =>
    cases heq
    have hmarks : c = '/' → ∀ d ∈ cs.head?, d ≠ '*' ∧ d ≠ '/' := by
      rintro rfl d hd
      obtain ⟨ds, rfl⟩ : ∃ ds, cs = d :: ds := by
        cases cs <;> simp_all
      exact ⟨fun h => hstar ds rfl (by rw [h]), fun h => hslash ds rfl (by rw [h])⟩
    have hopen : c ≠ '\x7b' := hbrace
    cases hblank : isLineBlank c
    · simpa [hopen] using hmarks
    · simp
  next heq => cases heq

/-- White space behind a line feed makes no remark in front of it. -/
theorem blankOrComment_insert (hpiece : blankOrComment (before ++ '\n' :: after) = none) :
    blankOrComment (before ++ '\n' :: c :: after) = none := by
  cases before with
  | nil => rfl
  | cons d before =>
    rw [List.cons_append, blankOrComment_eq_none_iff] at hpiece ⊢
    refine ⟨hpiece.1, hpiece.2.1, fun hd e he => hpiece.2.2 hd e ?_⟩
    cases before <;> exact he

/-- **A continuation in front of more white space** ends in front of the line feed, as before, or it
takes the white space along, or it ends with this line feed. -/
theorem afterContinuation_insert (hc : c = ' ' ∨ c = '\n') (before after : List Char) :
    (∃ before', before' <:+ before ∧
        afterContinuation (before ++ '\n' :: after) = before' ++ '\n' :: after ∧
        afterContinuation (before ++ '\n' :: c :: after) = before' ++ '\n' :: c :: after) ∨
      afterContinuation (before ++ '\n' :: after) =
        afterContinuation (before ++ '\n' :: c :: after) ∨
      Remarks before ('\n' :: after) ∧ afterContinuation (before ++ '\n' :: after) = after ∧
        afterContinuation (before ++ '\n' :: c :: after) = c :: after := by
  induction hn : before.length using Nat.strong_induction_on generalizing before with
  | h n ih =>
    cases hpiece : blankOrComment (before ++ '\n' :: after) with
    | some p =>
      obtain ⟨t, rest, heq, ht, -⟩ := remark_of_blankOrComment hpiece
      rcases ht.insert hc heq.symm with ⟨before', rfl, rfl, ht'⟩ | ⟨t', heq', ht'⟩
      · have hlt : before'.length < n := by
          have := List.length_pos_iff.mpr ht.ne_nil
          rw [← hn, List.length_append]
          omega
        rw [List.append_assoc, List.append_assoc, afterContinuation_remark ht,
          afterContinuation_remark ht']
        rcases ih _ hlt before' rfl with ⟨front, hfront, hx, hy⟩ | heq | ⟨hremarks, hx, hy⟩
        · exact .inl ⟨front, hfront.trans (List.suffix_append _ _), hx, hy⟩
        · exact .inr (.inl heq)
        · exact .inr (.inr ⟨.cons ht hremarks, hx, hy⟩)
      · refine .inr (.inl ?_)
        rw [heq, ← heq', afterContinuation_remark ht, afterContinuation_remark ht']
    | none =>
      have hpiece' := blankOrComment_insert (c := c) hpiece
      -- No remark stands in front, so what comes next ends the continuation.
      cases before with
      | nil => exact .inr (.inr ⟨.nil, afterContinuation_feed _, afterContinuation_feed _⟩)
      | cons d before =>
        refine .inl ?_
        by_cases hd : d = '\n'
        · subst hd
          exact ⟨before, List.suffix_cons _ _, afterContinuation_feed _, afterContinuation_feed _⟩
        · exact ⟨d :: before, List.suffix_rfl, afterContinuation_of_none hpiece hd,
            afterContinuation_of_none hpiece' hd⟩

/-! ### Behind gaps -/

/-- What stands behind the blanks, comments and continuations at the front of a text. -/
def afterTrivia (cs : List Char) : List Char := cs.drop (trivia 0 cs).length

theorem afterTrivia_remark (h : Remark t rest) : afterTrivia (t ++ rest) = afterTrivia rest := by
  obtain ⟨u, hpiece⟩ := blankOrComment_of_remark h
  obtain ⟨c, t, rfl⟩ := List.exists_cons_of_ne_nil h.ne_nil
  have hlength : (trivia 0 (c :: t ++ rest)).length =
      (c :: t).length + (trivia 0 rest).length := by
    rw [List.cons_append] at hpiece ⊢
    rw [trivia, hpiece]
    simp only [Piece.andThen, List.length_cons, Nat.add_sub_cancel]
    rw [trivia_drop, List.drop_left]
  rw [afterTrivia, hlength, ← List.drop_drop, List.drop_left]
  rfl

theorem afterTrivia_dots (cs : List Char) :
    afterTrivia ('.' :: '.' :: '.' :: cs) = afterTrivia (afterContinuation cs) := by
  rw [afterTrivia, trivia_dots, ← List.drop_drop, ← List.drop_drop]
  rfl

theorem afterTrivia_of_none (hpiece : blankOrComment cs = none)
    (hdots : ¬['.', '.', '.'].isPrefixOf cs = true) : afterTrivia cs = cs := by
  cases cs with
  | nil => rfl
  | cons c cs => simp [afterTrivia, trivia, hpiece, hdots]

theorem afterTrivia_blank (cs : List Char) : afterTrivia (' ' :: cs) = afterTrivia cs :=
  afterTrivia_remark (.blank rfl)

/-- **A line that is continued**: behind the dots of a continuation nothing but blanks and comments
stands in front of its end. -/
def Continued (before after : List Char) : Prop :=
  ∃ within, '.' :: '.' :: '.' :: within <:+ before ∧ Remarks within ('\n' :: after)

/-- **A text admits white space behind its line feed**: a blank always, and a line feed unless the
text ends in a continuation. -/
def Admits (before after : List Char) (c : Char) : Prop :=
  c = ' ' ∨ c = '\n' ∧ ¬Continued before after

theorem Admits.white (h : Admits before after c) : c = ' ' ∨ c = '\n' := h.imp_right And.left

theorem Admits.suffix {before' : List Char} (h : Admits before after c)
    (hsuffix : before' <:+ before) : Admits before' after c := by
  refine h.imp_right fun ⟨hc, hcontinued⟩ => ⟨hc, ?_⟩
  rintro ⟨within, hwithin, hremarks⟩
  exact hcontinued ⟨within, hwithin.trans hsuffix, hremarks⟩

/-- **Blanks, comments and continuations in front of more white space** end in front of the line
feed, as before, or they take the white space along. -/
theorem afterTrivia_insert (before after : List Char) (h : Admits before after c) :
    (∃ before', before' <:+ before ∧
        afterTrivia (before ++ '\n' :: after) = before' ++ '\n' :: after ∧
        afterTrivia (before ++ '\n' :: c :: after) = before' ++ '\n' :: c :: after) ∨
      afterTrivia (before ++ '\n' :: after) = afterTrivia (before ++ '\n' :: c :: after) := by
  induction hn : before.length using Nat.strong_induction_on generalizing before with
  | h n ih =>
    cases hpiece : blankOrComment (before ++ '\n' :: after) with
    | some p =>
      obtain ⟨t, rest, heq, ht, -⟩ := remark_of_blankOrComment hpiece
      rcases ht.insert h.white heq.symm with ⟨before', rfl, rfl, ht'⟩ | ⟨t', heq', ht'⟩
      · have hlt : before'.length < n := by
          have := List.length_pos_iff.mpr ht.ne_nil
          rw [← hn, List.length_append]
          omega
        have hsuffix : before' <:+ t ++ before' := List.suffix_append _ _
        rw [List.append_assoc, List.append_assoc, afterTrivia_remark ht, afterTrivia_remark ht']
        refine (ih _ hlt before' (h.suffix hsuffix) rfl).imp_left ?_
        rintro ⟨front, hfront, hx, hy⟩
        exact ⟨front, hfront.trans hsuffix, hx, hy⟩
      · refine .inr ?_
        rw [heq, ← heq', afterTrivia_remark ht, afterTrivia_remark ht']
    | none =>
      have hpiece' := blankOrComment_insert (c := c) hpiece
      by_cases hdots : ['.', '.', '.'].isPrefixOf before = true
      · obtain ⟨within, rfl⟩ := List.isPrefixOf_iff_prefix.mp hdots
        have hsuffix : within <:+ ['.', '.', '.'] ++ within := List.suffix_append _ _
        simp only [List.cons_append, List.nil_append, afterTrivia_dots]
        rcases afterContinuation_insert h.white within after with
          ⟨front, hfront, hx, hy⟩ | heq | ⟨hremarks, hx, hy⟩
        · have hlt : front.length < n := by
            have := hfront.length_le
            simp only [← hn, List.cons_append, List.nil_append, List.length_cons]
            omega
          have hfront' := hfront.trans hsuffix
          rw [hx, hy]
          refine (ih _ hlt front (h.suffix hfront') rfl).imp_left ?_
          rintro ⟨front', hsuffix', hx, hy⟩
          exact ⟨front', hsuffix'.trans hfront', hx, hy⟩
        · exact .inr (by rw [heq])
        · -- The continuation ends with the line feed that the white space stands behind.
          rcases h with rfl | ⟨rfl, hno⟩
          · exact .inr (by rw [hx, hy, afterTrivia_blank])
          · exact absurd ⟨within, List.suffix_rfl, hremarks⟩ hno
      · refine .inl ⟨before, List.suffix_rfl, afterTrivia_of_none hpiece ?_,
          afterTrivia_of_none hpiece' ?_⟩
        · rwa [isPrefixOf_append_cons (by decide)]
        · rwa [isPrefixOf_append_cons (by decide)]

/-- **What stands behind the gap at the front of a text.** -/
def afterGap (cs : List Char) : List Char := cs.drop (gap cs).length

theorem afterGap_mark (cs : List Char) : afterGap ('\ufeff' :: cs) = afterTrivia cs := by
  rw [afterGap, gap, Piece.andThen, Nat.add_comm]
  rfl

theorem afterGap_eq (h : cs.head? ≠ some '\ufeff') : afterGap cs = afterTrivia cs := by
  rw [afterGap, gap_eq_trivia h, afterTrivia]

/-- **A gap in front of more white space** ends in front of the line feed, as before, or it takes
the white space along. -/
theorem afterGap_insert (h : Admits before after c) :
    (∃ before', before' <:+ before ∧ afterGap (before ++ '\n' :: after) = before' ++ '\n' :: after ∧
        afterGap (before ++ '\n' :: c :: after) = before' ++ '\n' :: c :: after) ∨
      afterGap (before ++ '\n' :: after) = afterGap (before ++ '\n' :: c :: after) := by
  by_cases hmark : before.head? = some '\ufeff'
  · obtain ⟨before, rfl⟩ : ∃ rest, before = '\ufeff' :: rest := by
      cases before <;> simp_all
    have hsuffix := List.suffix_cons '\ufeff' before
    rw [List.cons_append, List.cons_append, afterGap_mark, afterGap_mark]
    refine (afterTrivia_insert before after (h.suffix hsuffix)).imp_left ?_
    rintro ⟨front, hfront, hx, hy⟩
    exact ⟨front, hfront.trans hsuffix, hx, hy⟩
  · have hhead : ∀ rest, (before ++ '\n' :: rest).head? ≠ some '\ufeff' := by
      intro rest
      cases before with
      | nil => simp
      | cons => simpa using hmark
    rw [afterGap_eq (hhead _), afterGap_eq (hhead _)]
    exact afterTrivia_insert before after h

/-! ### The words of a text -/

/-- The first word of a text whose gap has been skipped, and the words that `further` gives for what
stands behind it. -/
def wordsWith (further : Bool → List Char → List Word) (lineOpen : Bool) : List Char → List Word
  | [] => endWords lineOpen
  | first :: rest =>
    if first = '\n' then
      (if lineOpen then [⟨.newline, "\n"⟩] else []) ++ further false rest
    else
      let l := lexeme first rest
      ⟨l.kind, String.ofList ((first :: rest).take l.length)⟩ ::
        further true ((first :: rest).drop l.length)

theorem wordsWith_congr {further further' : Bool → List Char → List Word} {lineOpen : Bool}
    (h : ∀ lineOpen rest, rest.length < cs.length →
      further lineOpen rest = further' lineOpen rest) :
    wordsWith further lineOpen cs = wordsWith further' lineOpen cs := by
  cases cs with
  | nil => rfl
  | cons first rest =>
    have hpos := (lexeme_isText first rest).1
    have hdrop :
        ((first :: rest).drop (lexeme first rest).length).length < (first :: rest).length := by
      rw [List.length_drop, List.length_cons]
      omega
    simp only [wordsWith, h false rest (Nat.lt_succ_self _), h true _ hdrop]

/-- One step of the scanner. -/
theorem exists_tokens_succ (fuel : Nat) (p : Position) (lineOpen : Bool) (cs : List Char) :
    ∃ q, (tokens (fuel + 1) p lineOpen cs).1.map Token.word =
      wordsWith (fun lineOpen rest => (tokens fuel q lineOpen rest).1.map Token.word) lineOpen
        (afterGap cs) := by
  have hfinish : ∀ p, (finish p lineOpen).map Token.word = endWords lineOpen := by
    intro p
    cases lineOpen <;> rfl
  rw [tokens]
  dsimp only
  rw [← afterGap]
  generalize p.after (cs.take (gap cs).length) = p'
  cases afterGap cs with
  | nil => exact ⟨p, hfinish p'⟩
  | cons first rest =>
    by_cases hfirst : first = '\n'
    · refine ⟨p'.step first, ?_⟩
      simp only [hfirst, if_true, wordsWith]
      cases lineOpen <;> rfl
    · refine ⟨p'.after ((first :: rest).take (lexeme first rest).length), ?_⟩
      simp only [hfirst, if_false, wordsWith]
      rfl

/-- **The words of a text**, on a line that holds words already or not. -/
def words (lineOpen : Bool) (cs : List Char) : List Word :=
  (tokens (cs.length + 1) .start lineOpen cs).1.map Token.word

theorem afterGap_length_le (cs : List Char) : (afterGap cs).length ≤ cs.length := by
  rw [afterGap, List.length_drop]
  omega

/-- The words depend neither on where the text stands nor on the number of steps. -/
theorem words_of_tokens (fuel : Nat) (p : Position) (lineOpen : Bool) (cs : List Char)
    (hfuel : cs.length < fuel) :
    (tokens fuel p lineOpen cs).1.map Token.word = words lineOpen cs := by
  rw [words]
  generalize hfuel' : cs.length + 1 = fuel'
  replace hfuel' : cs.length < fuel' := by omega
  generalize Position.start = p'
  induction fuel generalizing fuel' p p' lineOpen cs with
  | zero => omega
  | succ fuel ih =>
    cases fuel' with
    | zero => omega
    | succ fuel' =>
      obtain ⟨q, hq⟩ := exists_tokens_succ fuel p lineOpen cs
      obtain ⟨q', hq'⟩ := exists_tokens_succ fuel' p' lineOpen cs
      have hle := afterGap_length_le cs
      rw [hq, hq']
      exact wordsWith_congr fun lineOpen rest hrest =>
        ih q lineOpen rest (by omega) fuel' (by omega) q'

/-- **The words of a text** are those of the text behind its gap. -/
theorem words_eq (lineOpen : Bool) (cs : List Char) :
    words lineOpen cs = wordsWith words lineOpen (afterGap cs) := by
  obtain ⟨q, hq⟩ := exists_tokens_succ cs.length .start lineOpen cs
  have hle := afterGap_length_le cs
  rw [words, hq]
  exact wordsWith_congr fun lineOpen rest hrest => words_of_tokens _ q lineOpen rest (by omega)

/-- A blank in front of a text is skipped, unless a mark of the byte order follows. -/
theorem words_leading {lineOpen : Bool} (h : cs.head? ≠ some '\ufeff') :
    words lineOpen (' ' :: cs) = words lineOpen cs := by
  rw [words_eq, words_eq lineOpen cs, afterGap_eq h, afterGap_eq (by simp), afterTrivia_blank]

/-- A line feed on a line without words is skipped. -/
theorem words_feed (cs : List Char) : words false ('\n' :: cs) = words false cs := by
  rw [words_eq, afterGap_eq (by simp), afterTrivia_of_none rfl (by simp [List.isPrefixOf])]
  rfl

/-- **White space behind a line feed** changes no word. -/
theorem words_insert (lineOpen : Bool) (before after : List Char) (h : Admits before after c)
    (hstart : words false (c :: after) = words false after) :
    words lineOpen (before ++ '\n' :: c :: after) = words lineOpen (before ++ '\n' :: after) := by
  induction hn : before.length using Nat.strong_induction_on generalizing before lineOpen with
  | h n ih =>
    rw [words_eq, words_eq lineOpen (before ++ '\n' :: after)]
    rcases afterGap_insert h with ⟨before', hsuffix, hx, hy⟩ | heq
    · rw [hx, hy]
      cases before' with
      | nil => simp only [List.nil_append, wordsWith, if_true, hstart]
      | cons first rest =>
        have hlength := hsuffix.length_le
        rw [List.length_cons] at hlength
        rw [List.cons_append, List.cons_append, wordsWith, wordsWith]
        split
        · have hrest := h.suffix ((List.suffix_cons _ _).trans hsuffix)
          rw [ih rest.length (by omega) false rest hrest rfl]
        · -- The lexeme is the same, and what it leaves is shorter.
          have hle := lexeme_length_le first rest
          have hpos := (lexeme_isText first rest).1
          have hdrop := (List.drop_suffix (lexeme first rest).length (first :: rest)).trans hsuffix
          simp only [lexeme_append_feed]
          simp only [← List.cons_append]
          rw [List.take_append_of_le_length hle, List.take_append_of_le_length hle,
            List.drop_append_of_le_length hle, List.drop_append_of_le_length hle,
            ih _ (by rw [List.length_drop, List.length_cons]; omega) true _ (h.suffix hdrop) rfl]
    · rw [heq]

/-! ### Lines without marks -/

/-- A word of letters and blanks that starts with a letter: no comment, no continuation and no gap
starts in it or ends in it. -/
structure Bare (line : List Char) : Prop where
  letters : (line.all fun c => continuesName c || c == ' ') = true
  starts : starts continuesName line = true

theorem Bare.notMem {line : List Char} (h : Bare line) :
    '.' ∉ line ∧ '/' ∉ line ∧ '\x7d' ∉ line ∧ '\n' ∉ line := by
  have hletters := List.all_eq_true.mp h.letters
  refine ⟨fun hc => ?_, fun hc => ?_, fun hc => ?_, fun hc => ?_⟩ <;>
    exact absurd (hletters _ hc) (by decide)

/-- The last characters of two texts that are one. -/
theorem getLast?_of_append {front : List Char} (h : ∀ c ∈ (t ++ front).getLast?, c = '\n') :
    ∀ c ∈ front.getLast?, c = '\n' := by
  cases front with
  | nil => simp
  | cons d front => simpa using h

/-- No blank and no comment that starts in front of a bare line or with it ends in it. -/
theorem Remark.not_bare {front more text : List Char} {d : Char} (h : Bare (d :: more ++ text))
    (hfront : ∀ c ∈ front.getLast?, c = '\n') (hrest : rest ≠ [])
    (hremark : Remark (front ++ d :: more) rest) : False := by
  obtain ⟨-, hslash, hbrace, -⟩ := h.notMem
  have hmem : ∀ c ∈ d :: more, c ∈ d :: more ++ text := fun c hc => List.mem_append_left _ hc
  generalize ht : front ++ d :: more = t at hremark
  cases hremark with
  | @blank c _ hblank =>
    have hd : d = c := by
      rcases List.append_eq_singleton_iff.mp ht with ⟨-, hd⟩ | ⟨-, hd⟩ <;> cases hd
      rfl
    have hletter : continuesName d = true := h.starts
    have hblanks : d ∉ [' ', '\t', '\r'] := notMem_of_class hletter rfl
    exact hblanks (by simpa [isLineBlank, hd, or_assoc] using hblank)
  | @closed opening closing inside _ hmarks _ =>
    -- The closing mark ends in the line, and the line has no such character.
    have hlast : (d :: more).getLast? = closing.getLast? := by
      rw [← List.getLast?_append_of_ne_nil front (List.cons_ne_nil d more), ht, ← List.append_assoc,
        List.getLast?_append_of_ne_nil _ (closing_ne_nil hmarks)]
    simp only [commentMarks, List.mem_cons, List.not_mem_nil, or_false, Prod.mk.injEq] at hmarks
    rcases hmarks with ⟨-, rfl⟩ | ⟨-, rfl⟩
    · exact hbrace (hmem _ (List.mem_of_getLast? hlast))
    · exact hslash (hmem _ (List.mem_of_getLast? hlast))
  | unclosed => exact hrest rfl
  | @line inside _ hline _ =>
    cases front with
    | nil =>
      cases ht
      exact hslash (by simp)
    | cons e front =>
      obtain ⟨c, hc⟩ : ∃ c, (e :: front).getLast? = some c := ⟨_, List.getLast?_cons⟩
      obtain rfl := hfront c hc
      have hfeed : '\n' ∈ '/' :: '/' :: inside := by
        rw [← ht]
        exact List.mem_append_left _ (List.mem_of_getLast? hc)
      simp [hline] at hfeed

/-- Blanks and comments in front of a line do not go over a bare line. -/
theorem Remarks.not_bare {line front : List Char} (h : Bare line)
    (hfront : ∀ c ∈ front.getLast?, c = '\n') (hremarks : Remarks (front ++ line) ('\n' :: after)) :
    False := by
  generalize hwithin : front ++ line = within at hremarks
  generalize hrest : '\n' :: after = rest at hremarks
  induction hremarks generalizing front with
  | nil =>
    obtain ⟨rfl, rfl⟩ := List.append_eq_nil_iff.mp hwithin
    cases h.starts
  | @cons t text rest ht hs ih =>
    subst hrest
    rcases List.append_eq_append_iff.mp hwithin.symm with ⟨front', rfl, rfl⟩ | ⟨more, rfl, rfl⟩
    · exact ih (getLast?_of_append hfront) rfl rfl
    · cases more with
      | nil => exact ih (by simp) (List.nil_append _) rfl
      | cons d more => exact ht.not_bare h hfront (by simp)

/-- **A bare line is not continued**, and so an empty line may stand behind it. -/
theorem Bare.admits {line front : List Char} (h : Bare line) (after : List Char)
    (hfront : ∀ c ∈ front.getLast?, c = '\n') : Admits (front ++ line) after '\n' := by
  refine .inr ⟨rfl, ?_⟩
  rintro ⟨within, ⟨before, hwithin⟩, hremarks⟩
  have hsplit : (before ++ ['.', '.', '.']) ++ within = front ++ line := by simpa using hwithin
  rcases List.append_eq_append_iff.mp hsplit with ⟨front', rfl, rfl⟩ | ⟨more, hmore, rfl⟩
  · exact hremarks.not_bare h (getLast?_of_append hfront)
  · -- The dots would be the end of the text in front of the line, or stand in the line.
    have hlast : (front ++ more).getLast? = some '.' := by
      rw [← hmore]
      simp
    cases more with
    | nil => exact absurd (hfront '.' (by simpa using hlast)) (by decide)
    | cons d more =>
      rw [List.getLast?_append_of_ne_nil _ (List.cons_ne_nil d more)] at hlast
      exact h.notMem.1 (List.mem_append_left _ (List.mem_of_getLast? hlast))

end FlatScript.Scan
