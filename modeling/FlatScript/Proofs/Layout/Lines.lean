import FlatScript.Printer
import FlatScript.Proofs.Layout.Insertion

/-!
# The two layouts of a script

A script is written without indentation, or indented by depth with an empty line behind every block.
Both layouts have the same lines, so the indented text becomes the other one when the blanks at the
front of its lines and its empty lines are taken away, and both are scanned as the same words.

This hangs on what a line of a script is: it starts with something else than a blank, and so does
what stands behind a line feed in it, if there is one. The scanner skips a blank in front of
anything but a mark of the byte order.

* `FlatScript.Solid` is such a text, and `FlatScript.Printer.SolidBlock` a block with such lines.
* `FlatScript.unindented` takes blanks and empty lines away.
* `FlatScript.Printer.layouts_agree` compares the two layouts.
-/

namespace FlatScript

/-! ### Flush texts -/

/-- Whether a character can be the first one on a line that is neither indented nor empty. -/
def startsLine (c : Char) : Bool := c != ' ' && c != '\n'

/-- Whether a text with the character at its front stands on a line as it is, indented or not. -/
def standsOnLine (c : Char) : Bool := startsLine c && c != '\ufeff'

/-- Whether text starts behind every line feed. -/
def flushChars : List Char → Bool
  | [] => true
  | c :: cs => (c != '\n' || Scan.starts startsLine cs) && flushChars cs

/-- **A text that nothing can be taken out of**, except at its front: behind every line feed in it
there is text, which starts with no blank. -/
def Flush (text : String) : Prop := flushChars text.toList = true

instance (text : String) : Decidable (Flush text) := inferInstanceAs (Decidable (_ = true))

/-- **A text that stands on its line as it is**: it is flush, and the first character is no blank,
no line feed and no mark of the byte order. -/
structure Solid (text : String) : Prop where
  flush : Flush text
  front : Scan.starts standsOnLine text.toList = true

theorem solid_iff {text : String} :
    Solid text ↔ Flush text ∧ Scan.starts standsOnLine text.toList = true :=
  ⟨fun h => ⟨h.flush, h.front⟩, fun h => ⟨h.1, h.2⟩⟩

instance (text : String) : Decidable (Solid text) := decidable_of_iff _ solid_iff.symm

section Texts

variable {s t : String} {cs ds : List Char}

theorem flushChars_cons {c : Char} : flushChars (c :: cs) = true ↔
    (c = '\n' → Scan.starts startsLine cs = true) ∧ flushChars cs = true := by
  rw [flushChars, Bool.and_eq_true, Bool.or_eq_true, bne_iff_ne, ← imp_iff_not_or]

theorem flushChars_append (hcs : flushChars cs = true) (hds : flushChars ds = true) :
    flushChars (cs ++ ds) = true := by
  induction cs with
  | nil => exact hds
  | cons c cs ih =>
    rw [flushChars_cons] at hcs
    rw [List.cons_append, flushChars_cons]
    refine ⟨fun hc => ?_, ih hcs.2⟩
    have hstarts := hcs.1 hc
    cases cs with
    | nil => cases hstarts
    | cons d cs => exact hstarts

theorem flushChars_suffix (h : flushChars cs = true) (hds : ds <:+ cs) : flushChars ds = true := by
  obtain ⟨front, rfl⟩ := hds
  induction front with
  | nil => exact h
  | cons c front ih => exact ih (flushChars_cons.mp h).2

/-- A text on one line. -/
theorem flushChars_of_notMem (h : '\n' ∉ cs) : flushChars cs = true := by
  induction cs with
  | nil => rfl
  | cons c cs ih =>
    rw [List.mem_cons, not_or] at h
    exact flushChars_cons.mpr ⟨fun hc => absurd hc.symm h.1, ih h.2⟩

theorem Flush.append (hs : Flush s) (ht : Flush t) : Flush (s ++ t) := by
  rw [Flush, String.toList_append]
  exact flushChars_append hs ht

theorem Solid.exists_front (h : Solid s) :
    ∃ c rest, s.toList = c :: rest ∧ standsOnLine c = true := by
  have hfront := h.front
  cases hlist : s.toList with
  | nil =>
    rw [hlist] at hfront
    cases hfront
  | cons c rest =>
    rw [hlist] at hfront
    exact ⟨c, rest, rfl, hfront⟩

theorem Solid.append (hs : Solid s) (ht : Flush t) : Solid (s ++ t) := by
  refine ⟨hs.flush.append ht, ?_⟩
  obtain ⟨c, rest, hlist, hc⟩ := hs.exists_front
  rw [String.toList_append, hlist]
  exact hc

theorem Solid.startsLine (h : Solid s) : Scan.starts startsLine s.toList = true := by
  obtain ⟨c, rest, hlist, hc⟩ := h.exists_front
  rw [standsOnLine, Bool.and_eq_true] at hc
  rw [hlist]
  exact hc.1

theorem Solid.head_ne {rest : List Char} (h : Solid s) :
    (s.toList ++ rest).head? ≠ some '\ufeff' := by
  obtain ⟨c, front, hlist, hc⟩ := h.exists_front
  rw [standsOnLine, Bool.and_eq_true, bne_iff_ne] at hc
  rw [hlist, List.cons_append, List.head?_cons]
  exact fun heq => hc.2 (Option.some.inj heq)

end Texts

/-! ### Blanks and empty lines -/

/-- The characters of a text without the blanks at the front of its lines and without its empty
lines. -/
def unindentedChars (cs : List Char) : List Char :=
  let lines := (Text.pieces (· == '\n') cs).map fun line => line.dropWhile (· == ' ')
  (lines.filter fun line => !line.isEmpty).flatMap fun line => line ++ ['\n']

/-- **A text without the blanks at the front of its lines and without its empty lines.** -/
def unindented (text : String) : String := String.ofList (unindentedChars text.toList)

theorem pieces_line {line : List Char} (h : '\n' ∉ line) (rest : List Char) :
    Text.pieces (· == '\n') (line ++ '\n' :: rest) = line :: Text.pieces (· == '\n') rest := by
  induction line with
  | nil => simp [Text.pieces]
  | cons c line ih =>
    rw [List.mem_cons, not_or] at h
    simp [Text.pieces, ih h.2, Ne.symm h.1]

/-- A blank at the front. -/
theorem unindentedChars_blank (cs : List Char) :
    unindentedChars (' ' :: cs) = unindentedChars cs := by
  have hblank : (' ' == '\n') = false := rfl
  simp only [unindentedChars, Text.pieces, hblank, Bool.false_eq_true, if_false]
  cases Text.pieces (· == '\n') cs with
  | nil => simp
  | cons first rest => simp

/-- An empty line. -/
theorem unindentedChars_feed (rest : List Char) :
    unindentedChars ('\n' :: rest) = unindentedChars rest := by
  simp [unindentedChars, Text.pieces]

/-- A line with text at its front. -/
theorem unindentedChars_line {line : List Char} (hfeed : '\n' ∉ line)
    (hstarts : Scan.starts startsLine line = true) (rest : List Char) :
    unindentedChars (line ++ '\n' :: rest) = line ++ '\n' :: unindentedChars rest := by
  rw [unindentedChars, pieces_line hfeed]
  cases line with
  | nil => cases hstarts
  | cons c line =>
    have hblank : c ≠ ' ' := by
      rintro rfl
      cases hstarts
    simp [hblank, unindentedChars]

/-- **A flush text with text at its front** is left as it is. -/
theorem unindentedChars_flush (hcs : flushChars cs = true)
    (hstarts : Scan.starts startsLine cs = true) (rest : List Char) :
    unindentedChars (cs ++ '\n' :: rest) = cs ++ '\n' :: unindentedChars rest := by
  induction hn : cs.length using Nat.strong_induction_on generalizing cs with
  | _ n ih =>
    by_cases hfeed : '\n' ∈ cs
    · -- The first line, with the others behind it.
      obtain ⟨line, behind, rfl, hline⟩ := List.eq_append_cons_of_mem hfeed
      have hbehind := flushChars_cons.mp (flushChars_suffix hcs (List.suffix_append line _))
      have hfront : Scan.starts startsLine line = true := by
        cases line with
        | nil => cases hstarts
        | cons c line => exact hstarts
      have hrest := ih behind.length (by simp [← hn]; omega) hbehind.2 (hbehind.1 rfl) rfl
      rw [List.append_assoc, List.cons_append, unindentedChars_line hline hfront, hrest,
        List.append_assoc, List.cons_append]
    · exact unindentedChars_line hfeed hstarts rest

/-- A line with text on it, indented or not. -/
theorem unindentedChars_indented {text : String} (h : Solid text) (n : Nat) (rest : List Char) :
    unindentedChars (List.replicate n ' ' ++ (text.toList ++ '\n' :: rest)) =
      text.toList ++ '\n' :: unindentedChars rest := by
  induction n with
  | zero => exact unindentedChars_flush h.flush h.startsLine rest
  | succ n ih => rw [List.replicate_succ, List.cons_append, unindentedChars_blank, ih]

namespace Printer

open Scan

variable {b : Builtins} {o : Options} {ls : List Line} {bls : List Block}

/-! ### Lines and blocks as they are written -/

/-- The number of blanks in front of a line. -/
def margin (o : Options) (l : Line) : Nat :=
  if o.removeWhitespace then 0 else l.depth * o.indentWidth

/-- What stands behind a block. -/
def blockEnd (o : Options) : List Char := if o.removeWhitespace then [] else ['\n']

theorem text_cons (o : Options) (l : Line) (ls : List Line) : (text o (l :: ls)).toList =
    List.replicate (margin o l) ' ' ++ (l.text.toList ++ '\n' :: (text o ls).toList) := by
  simp only [text, line, margin, List.map_cons, String.join_cons, String.toList_append]
  split <;> simp

theorem script_cons (b : Builtins) (o : Options) (bl : Block) (bls : List Block) :
    (script b o ⟨bl :: bls⟩).toList =
      (text o (block b bl)).toList ++ (blockEnd o ++ (script b o ⟨bls⟩).toList) := by
  simp only [script, blockEnd, List.map_cons, String.join_cons, String.toList_append,
    List.append_assoc]
  split <;> simp

theorem text_append (o : Options) (ls ls' : List Line) :
    (text o (ls ++ ls')).toList = (text o ls).toList ++ (text o ls').toList := by
  induction ls with
  | nil => simp [text]
  | cons l ls ih => simp [text_cons, ih]

/-- The last line of a block is at the margin, and has nothing but letters and blanks. -/
theorem block_split (b : Builtins) (bl : Block) :
    ∃ ls closing, block b bl = ls ++ [⟨0, closing⟩] ∧ Bare closing.toList := by
  cases bl with
  | callback c => exact ⟨_, "end on", rfl, by decide +kernel, rfl⟩
  | function f => exact ⟨_, "end function", rfl, by decide +kernel, rfl⟩

/-- **The lines of a block are solid.** -/
def SolidBlock (b : Builtins) (bl : Block) : Prop := ∀ l ∈ block b bl, Solid l.text

/-- The options with white space in the text, or without it. -/
def withLayout (o : Options) (compact : Bool) : Options := { o with removeWhitespace := compact }

/-! ### Without blanks and empty lines -/

theorem unindented_text (hls : ∀ l ∈ ls, Solid l.text) (rest : List Char) :
    unindentedChars ((text o ls).toList ++ rest) =
      (text (withLayout o true) ls).toList ++ unindentedChars rest := by
  induction ls with
  | nil => simp [text]
  | cons l ls ih =>
    rw [List.forall_mem_cons] at hls
    rw [text_cons, text_cons, List.append_assoc, List.append_assoc, List.cons_append,
      unindentedChars_indented hls.1, ih hls.2]
    simp [margin, withLayout]

/-- **Without its blanks and its empty lines** a text is the one that is written without white
space. -/
theorem unindented_script (b : Builtins) (o : Options) (hbls : ∀ bl ∈ bls, SolidBlock b bl) :
    unindented (script b o ⟨bls⟩) = script b (withLayout o true) ⟨bls⟩ := by
  rw [← String.toList_inj, unindented, String.toList_ofList]
  induction bls with
  | nil => rfl
  | cons bl bls ih =>
    rw [List.forall_mem_cons] at hbls
    have hend : ∀ rest, unindentedChars (blockEnd o ++ rest) = unindentedChars rest := by
      intro rest
      unfold blockEnd
      split
      · rfl
      · exact unindentedChars_feed rest
    rw [script_cons, script_cons, unindented_text hbls.1, hend, ih hbls.2]
    rfl

/-! ### The words of both layouts -/

/-- A blank at the start of a line is skipped. -/
theorem words_blank {front cs : List Char} (hfront : ∀ c ∈ front.getLast?, c = '\n')
    (hcs : cs.head? ≠ some '\ufeff') :
    words false (front ++ ' ' :: cs) = words false (front ++ cs) := by
  rcases List.eq_nil_or_concat front with rfl | ⟨before, c, rfl⟩
  · exact words_leading hcs
  · obtain rfl : c = '\n' := hfront c (by simp)
    rw [List.concat_eq_append, List.append_assoc, List.append_assoc]
    exact words_insert false before cs (.inl rfl) (words_leading hcs)

theorem words_blanks {front cs : List Char} (n : Nat) (hfront : ∀ c ∈ front.getLast?, c = '\n')
    (hcs : cs.head? ≠ some '\ufeff') :
    words false (front ++ (List.replicate n ' ' ++ cs)) = words false (front ++ cs) := by
  induction n with
  | zero => rfl
  | succ n ih =>
    have hhead : (List.replicate n ' ' ++ cs).head? ≠ some '\ufeff' := by
      cases n with
      | zero => exact hcs
      | succ n => simp [List.replicate_succ]
    rw [List.replicate_succ, List.cons_append, words_blank hfront hhead, ih]

/-- **The indentation of lines changes no word.** -/
theorem words_text (hls : ∀ l ∈ ls, Solid l.text) {front : List Char}
    (hfront : ∀ c ∈ front.getLast?, c = '\n') (rest : List Char) :
    words false (front ++ ((text o ls).toList ++ rest)) =
      words false (front ++ ((text (withLayout o true) ls).toList ++ rest)) := by
  induction ls generalizing front with
  | nil => simp [text]
  | cons l ls ih =>
    rw [List.forall_mem_cons] at hls
    have hmargin : margin (withLayout o true) l = 0 := rfl
    have hline : ∀ c ∈ (front ++ (l.text.toList ++ ['\n'])).getLast?, c = '\n' := by simp
    have hnext := ih hls.2 hline
    simp only [List.append_assoc, List.cons_append, List.nil_append] at hnext
    rw [text_cons, text_cons, hmargin]
    simp only [List.append_assoc, List.cons_append, List.nil_append, List.replicate_zero]
    rw [words_blanks _ hfront hls.1.head_ne, hnext]

/-- Lines end with a line feed. -/
theorem getLast?_text (o : Options) (ls : List Line) {front : List Char}
    (hfront : ∀ c ∈ front.getLast?, c = '\n') :
    ∀ c ∈ (front ++ (text o ls).toList).getLast?, c = '\n' := by
  rcases List.eq_nil_or_concat ls with rfl | ⟨ls, l, rfl⟩
  · simpa [text] using hfront
  · rw [List.concat_eq_append, text_append, text_cons]
    simp [text]

/-- An empty line behind a block is skipped. -/
theorem words_blockEnd (o : Options) (bl : Block) {front : List Char}
    (hfront : ∀ c ∈ front.getLast?, c = '\n') (rest : List Char) :
    words false
        (front ++ ((text (withLayout o true) (block b bl)).toList ++ (blockEnd o ++ rest))) =
      words false (front ++ ((text (withLayout o true) (block b bl)).toList ++ rest)) := by
  unfold blockEnd
  split
  · rfl
  · obtain ⟨ls, closing, hblock, hbare⟩ := block_split b bl
    have hmargin : ∀ l, margin (withLayout o true) l = 0 := fun _ => rfl
    have hadmits := hbare.admits rest (getLast?_text (withLayout o true) ls hfront)
    have hwords := words_insert false _ rest hadmits (words_feed rest)
    rw [hblock, text_append, text_cons, hmargin]
    simpa [text] using hwords

/-- **The layout of a script changes no word.** -/
theorem words_script (b : Builtins) (o : Options) (hbls : ∀ bl ∈ bls, SolidBlock b bl)
    {front : List Char} (hfront : ∀ c ∈ front.getLast?, c = '\n') :
    words false (front ++ (script b o ⟨bls⟩).toList) =
      words false (front ++ (script b (withLayout o true) ⟨bls⟩).toList) := by
  induction bls generalizing front with
  | nil => rfl
  | cons bl bls ih =>
    rw [List.forall_mem_cons] at hbls
    have hnext := ih hbls.2 (getLast?_text (withLayout o true) (block b bl) hfront)
    rw [script_cons, script_cons, words_text hbls.1 hfront, words_blockEnd o bl hfront]
    rw [List.append_assoc, List.append_assoc] at hnext
    exact hnext

/-- **Solid lines in two layouts.** When the lines of a script are solid, the text with white space
becomes the one without it when blanks and empty lines are taken away, and both texts are scanned as
the same words. -/
theorem layouts_agree (b : Builtins) (o : Options) {s : Script}
    (hs : ∀ bl ∈ s.blocks, SolidBlock b bl) :
    unindented (script b (withLayout o false) s) = script b (withLayout o true) s ∧
      (tokenize (script b (withLayout o false) s)).1.map Token.word =
        (tokenize (script b (withLayout o true) s)).1.map Token.word := by
  have hfront : ∀ c ∈ ([] : List Char).getLast?, c = '\n' := by simp
  exact ⟨unindented_script b (withLayout o false) hs, words_script b (withLayout o false) hs hfront⟩

end Printer

end FlatScript
