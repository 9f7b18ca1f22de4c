/-
Places of remarks. A script is written in the source with a backslash before each of its backticks, and is handed on
with other text in front of it. `remap` counts back over both: over the lines in front, and over the backslashes on the
line of the remark.
-/
import AliasLang.Proofs.Text.Lines
import AliasLang.Proofs.Token.Lexeme
import AliasLang.Script.Embed

namespace AliasLang

namespace Source.Position

/-! ## Positions after a text -/

theorem after_offset (p : Position) (cs : List Char) : (p.after cs).offset = p.offset + Script.byteLength cs := by
  induction cs generalizing p with
  | nil => rfl
  | cons c cs ih =>
    rw [after_cons, ih, next, Script.byteLength]
    split <;> exact Nat.add_assoc _ _ _

theorem after_line (p : Position) (cs : List Char) : (p.after cs).line = p.line + cs.count '\n' := by
  induction cs generalizing p with
  | nil => rfl
  | cons c cs ih =>
    rw [after_cons, ih, next]
    split
    · rename_i hc
      subst hc
      rw [List.count_cons_self]
      dsimp only
      omega
    · rename_i hc
      rw [List.count_cons_of_ne hc]

theorem after_column (p : Position) {w : List Char} (hw : '\n' ∉ w) : (p.after w).column = p.column + w.length := by
  induction w generalizing p with
  | nil => rfl
  | cons c w ih =>
    have hc : c ≠ '\n' := fun h => hw (h ▸ List.mem_cons_self)
    rw [after_cons, ih _ fun h => hw (List.mem_cons_of_mem c h), next, if_neg hc, List.length_cons]
    dsimp only
    omega

/-- A line feed starts a new line. -/
theorem after_column_newline (p : Position) {cs : List Char} (h : cs.getLast? = some '\n') :
    (p.after cs).column = 0 := by
  obtain ⟨front, rfl⟩ := List.getLast?_eq_some_iff.mp h
  rw [after_append]
  rfl

end Source.Position

namespace Script

open Source (Span Position)
open Program (Fenced unescapeBackticks)
open Text (ended splitLines)

/-! ## What a script is written as -/

/-- A character of a script as it is written between fences. -/
def written (c : Char) : List Char := if c = '`' then ['\\', '`'] else [c]

theorem unescapeBackticks_escaped (cs : List Char) :
    unescapeBackticks ('\\' :: '`' :: cs) = '`' :: unescapeBackticks cs := rfl

theorem unescapeBackticks_plain {c : Char} {cs : List Char} (h : c = '\\' → cs.head? ≠ some '`') :
    unescapeBackticks (c :: cs) = c :: unescapeBackticks cs := by
  have hif : ¬(c = '\\' && cs.head? = some '`') = true := by
    simp only [Bool.and_eq_true, decide_eq_true_eq, not_and]
    exact h
  cases cs with
  | nil => simp [unescapeBackticks]
  | cons d cs => rw [unescapeBackticks, if_neg hif]

/-- In a script that is read, a backslash stands before each backtick. -/
theorem written_unescapeBackticks : ∀ {cs : List Char} {read n : Nat}, Token.scriptLength read cs = .ok n →
    (unescapeBackticks (cs.take n)).flatMap written = cs.take n
  | [], _, _, h => by cases h
  | c :: cs, read, n, h => by
    by_cases hslash : c = '\\'
    · subst hslash
      cases cs with
      | nil => cases h
      | cons d cs =>
        rw [Token.scriptLength_escape] at h
        obtain ⟨m, hm, rfl⟩ := Token.map_eq_ok h
        have ih := written_unescapeBackticks hm
        rw [List.take_succ_cons, List.take_succ_cons]
        by_cases hd : d = '`'
        · subst hd
          rw [unescapeBackticks_escaped, List.flatMap_cons, ih]
          rfl
        · -- after the pair comes no backtick, for that would be the closing fence
          have hnext : (cs.take m).head? ≠ some '`' := by
            intro hhead
            cases cs with
            | nil => simp at hhead
            | cons e cs =>
              cases m with
              | zero => simp at hhead
              | succ m =>
                obtain rfl : e = '`' := by simpa using hhead
                exact absurd (Token.scriptLength_tick hm).1 (by omega)
          rw [unescapeBackticks_plain fun _ => by simpa using hd, unescapeBackticks_plain fun _ => hnext,
            List.flatMap_cons, List.flatMap_cons, ih, written, written, if_neg (by decide), if_neg hd]
          rfl
    by_cases htick : c = '`'
    · subst htick
      obtain ⟨rfl, -⟩ := Token.scriptLength_tick h
      rfl
    · rw [Token.scriptLength_plain read hslash htick] at h
      obtain ⟨m, hm, rfl⟩ := Token.map_eq_ok h
      rw [List.take_succ_cons, unescapeBackticks_plain fun hc => absurd hc hslash, List.flatMap_cons,
        written_unescapeBackticks hm, written, if_neg htick]
      rfl

/-- A script lexeme is a script as it is written, between fences. -/
theorem lexeme_script {c : Char} {cs : List Char} {raw : String} {n : Nat}
    (h : Token.lexeme c cs = .ok (.script raw, n)) :
    c :: cs.take n = Token.fence ++ (raw.toList ++ Token.fence) ∧
      (unescapeBackticks raw.toList).flatMap written = raw.toList := by
  have hspelling : c :: cs.take n = Token.fence ++ (raw.toList ++ Token.fence) :=
    (Token.lexeme_stands h).spelling _ rfl
  refine ⟨hspelling, ?_⟩
  obtain rfl : c = '`' := (List.cons.inj hspelling).1
  have hscript : Token.scriptLexeme cs = .ok (.script raw, n) := h
  unfold Token.scriptLexeme at hscript
  split at hscript
  · split at hscript
    · rename_i m hm
      cases hscript
      rw [String.toList_ofList]
      exact written_unescapeBackticks hm
    · cases hscript
  · cases hscript

theorem length_flatMap_written (cs : List Char) : (cs.flatMap written).length = cs.length + cs.count '`' := by
  induction cs with
  | nil => rfl
  | cons c cs ih =>
    rw [List.flatMap_cons, List.length_append, ih, List.length_cons, written]
    split
    · rename_i hc
      subst hc
      rw [List.count_cons_self]
      simp only [List.length_cons, List.length_nil]
      omega
    · rename_i hc
      rw [List.count_cons_of_ne hc]
      simp only [List.length_cons, List.length_nil]
      omega

theorem newline_not_mem_written {w : List Char} (hw : '\n' ∉ w) : '\n' ∉ w.flatMap written := by
  intro h
  obtain ⟨c, hc, hmem⟩ := List.mem_flatMap.mp h
  unfold written at hmem
  split at hmem
  · simp at hmem
  · obtain rfl := List.mem_singleton.mp hmem
    exact hw hc

theorem byteLength_append (a b : List Char) : byteLength (a ++ b) = byteLength a + byteLength b := by
  induction a with
  | nil => simp [byteLength]
  | cons c a ih =>
    rw [List.cons_append, byteLength, byteLength, ih]
    omega

theorem byteLength_of_ascii {cs : List Char} (h : ∀ c ∈ cs, c.utf8Size = 1) : byteLength cs = cs.length := by
  induction cs with
  | nil => rfl
  | cons c cs ih =>
    rw [byteLength, ih fun d hd => h d (List.mem_cons_of_mem c hd), h c List.mem_cons_self, List.length_cons]
    omega

theorem byteLength_ended (full : List (List Char)) : byteLength (ended full) = linesLength full := by
  induction full with
  | nil => rfl
  | cons l full ih =>
    have hfeed : ('\n' : Char).utf8Size = 1 := rfl
    rw [Text.ended_cons, byteLength_append, byteLength, linesLength, ih, hfeed]
    omega

/-! ## Places in a script -/

section
variable {full : List (List Char)} {w : List Char}

theorem newline_not_mem_map_written (hfull : ∀ l ∈ full, '\n' ∉ l) :
    ∀ l ∈ full.map (List.flatMap written), '\n' ∉ l := by
  intro l hl
  obtain ⟨l', hl', rfl⟩ := List.mem_map.mp hl
  exact newline_not_mem_written (hfull l' hl')

theorem offset_written (p : Position) (hascii : ∀ c ∈ w.flatMap written, c.utf8Size = 1) :
    (p.after (Token.fence ++ (ended full ++ w).flatMap written)).offset =
      p.offset + fenceWidth + linesLength (full.map (List.flatMap written)) + (w.length + w.count '`') := by
  have hfence : byteLength Token.fence = fenceWidth := rfl
  rw [Position.after_offset, List.flatMap_append, Text.flatMap_ended rfl, byteLength_append, byteLength_append,
    byteLength_ended, byteLength_of_ascii hascii, length_flatMap_written, hfence]
  omega

theorem line_written (p : Position) (hfull : ∀ l ∈ full, '\n' ∉ l) (hw : '\n' ∉ w) :
    (p.after (Token.fence ++ (ended full ++ w).flatMap written)).line = p.line + full.length := by
  have hfence : Token.fence.count '\n' = 0 := rfl
  have hrest : (w.flatMap written).count '\n' = 0 := List.count_eq_zero.mpr (newline_not_mem_written hw)
  rw [Position.after_line, List.flatMap_append, Text.flatMap_ended rfl, List.count_append, List.count_append,
    Text.count_ended (newline_not_mem_map_written hfull), hfence, hrest, List.length_map]
  omega

/-- On its first line a script stands after the fence, and on the others after a line feed. -/
theorem column_written (p : Position) (hw : '\n' ∉ w) :
    (p.after (Token.fence ++ (ended full ++ w).flatMap written)).column =
      (if full = [] then p.column + fenceWidth else 0) + (w.length + w.count '`') := by
  rw [List.flatMap_append, Text.flatMap_ended rfl, Position.after_append, Position.after_append,
    Position.after_column _ (newline_not_mem_written hw), length_flatMap_written]
  split
  · rename_i hnil
    subst hnil
    have hfence : '\n' ∉ Token.fence := by decide
    rw [List.map_nil, show ended [] = [] from rfl, Position.after_nil, Position.after_column p hfence]
    rfl
  · rename_i hne
    rw [Position.after_column_newline _ (Text.getLast?_ended (by simpa using hne))]

end

/-- **A place in a script is mapped to where it comes from.** The script is some lines, `w` and `back` in a row, and the
remark stands at the end of `w`. -/
theorem remap_eq_point {script : Fenced} {p q : Position} {full : List (List Char)} {w back : List Char}
    (hspan : script.span = .between p q) (hraw : script.raw.toList = script.unescaped.toList.flatMap written)
    (hascii : ∀ c ∈ script.raw.toList, c.utf8Size = 1)
    (hsplit : script.unescaped.toList = ended full ++ (w ++ back)) (hfull : ∀ l ∈ full, '\n' ∉ l) (hw : '\n' ∉ w)
    (injected : Nat) :
    remap script injected (injected + full.length + 1) w.length =
      .point (p.after (Token.fence ++ (ended full ++ w).flatMap written)) := by
  have hlines : script.raw.toList = ended (full.map (List.flatMap written)) ++ (w ++ back).flatMap written := by
    rw [hraw, hsplit, List.flatMap_append, Text.flatMap_ended rfl]
  have hbefore : (splitLines script.raw.toList).take full.length = full.map (List.flatMap written) := by
    rw [hlines, Text.splitLines_ended (newline_not_mem_map_written hfull), List.take_left' (List.length_map _)]
  have hticks : ((Text.lineAt script.unescaped (full.length + 1)).toList.take w.length).count '`' = w.count '`' :=
    Text.count_take_lineAt (by decide) hsplit hfull hw
  have hwascii : ∀ c ∈ w.flatMap written, c.utf8Size = 1 := by
    intro c hc
    refine hascii c ?_
    rw [hlines, List.flatMap_append]
    exact List.mem_append_right _ (List.mem_append_left _ hc)
  have hn : injected + full.length + 1 - injected = full.length + 1 := by omega
  unfold remap
  rw [if_neg (by omega), hn]
  dsimp only
  rw [hticks, Nat.add_sub_cancel, hbefore, hspan, Span.point, Span.between, Span.between, offset_written p hwascii,
    line_written p hfull hw, column_written p hw]
  by_cases hnil : full = []
  · subst hnil
    simp only [List.length_nil, if_true, Span.mk.injEq, true_and]
    omega
  · have hlength : full.length ≠ 0 := fun h => hnil (List.length_eq_zero_iff.mp h)
    rw [if_neg (by omega), if_neg hnil]
    simp only [Span.mk.injEq, true_and]
    omega

/-! ## Text in front of a script -/

/-- What is put in front of a script for what it imports: the content, ended by a line break. -/
def importText (content : Option String) : String := (content.map terminated).getD ""

theorem getLast?_terminated (text : String) : (terminated text).toList.getLast? = some '\n' := by
  unfold terminated
  split
  · assumption
  · have hlast : ("\n" : String).toList.getLast? = some '\n' := by decide
    rw [String.toList_append, List.getLast?_append, hlast, Option.some_or]

theorem newline_not_mem_literal (s : String) : '\n' ∉ (Command.Quoting.literal s).toList := by
  intro h
  rw [Command.Quoting.literal, Command.Quoting.substitute, String.toList_ofList] at h
  obtain ⟨c, -, hmem⟩ := List.mem_flatMap.mp h
  unfold Command.Quoting.literalChar at hmem
  split at hmem
  · simp at hmem
  · split at hmem
    · simp at hmem
    · split at hmem
      · simp at hmem
      · split at hmem
        · simp at hmem
        · rename_i hfeed _
          exact hfeed (List.mem_singleton.mp hmem).symm

theorem lineBreaks_append (a b : String) : lineBreaks (a ++ b) = lineBreaks a + lineBreaks b := by
  rw [lineBreaks, String.toList_append, List.count_append]
  rfl

/-- The preamble keeps each helper on its line, whatever the prefix. -/
theorem lineBreaks_preamble (keyPrefix : String) : lineBreaks (preamble keyPrefix) = preambleLines := by
  have hparts : ∀ a b c d e f p : String, lineBreaks p = 0 →
      lineBreaks (a ++ p ++ b ++ c ++ p ++ d ++ e ++ p ++ f) =
        lineBreaks a + lineBreaks b + lineBreaks c + lineBreaks d + lineBreaks e + lineBreaks f := by
    intro a b c d e f p hp
    simp only [lineBreaks_append, hp, Nat.add_zero]
  have hquoted : lineBreaks ("\"" ++ Command.Quoting.literal keyPrefix ++ "\"") = 0 := by
    refine List.count_eq_zero.mpr ?_
    rw [String.toList_append, String.toList_append]
    simp [newline_not_mem_literal]
  unfold preamble
  rw [hparts _ _ _ _ _ _ _ hquoted]
  decide

theorem getLast?_preamble (keyPrefix : String) : (preamble keyPrefix).toList.getLast? = some '\n' := by
  have hlast : ("\x7d\n" : String).toList.getLast? = some '\n' := by decide
  unfold preamble
  rw [String.toList_append, List.getLast?_append, hlast, Option.some_or]

/-- The text in front of a script ends a line. -/
theorem getLast?_front (keyPrefix : String) (content : Option String) :
    (preamble keyPrefix ++ importText content).toList.getLast? = some '\n' := by
  cases content with
  | none =>
    rw [show importText none = "" from rfl, String.append_empty]
    exact getLast?_preamble keyPrefix
  | some text =>
    rw [show importText (some text) = terminated text from rfl, String.toList_append, List.getLast?_append,
      getLast?_terminated, Option.some_or]

/-- A place before the end of a text that ends a line is on one of its lines. -/
theorem line_lt_of_take {front : List Char} (h : front.getLast? = some '\n') {k : Nat} (hk : k < front.length) :
    (Position.start.after (front.take k)).line < front.count '\n' := by
  have hlast : '\n' ∈ front.drop k := by
    obtain ⟨before, rfl⟩ := List.getLast?_eq_some_iff.mp h
    rw [List.length_append, List.length_singleton] at hk
    rw [List.drop_append_of_le_length (by omega)]
    exact List.mem_append_right _ List.mem_cons_self
  have hcount : front.count '\n' = (front.take k).count '\n' + (front.drop k).count '\n' := by
    rw [← List.count_append, List.take_append_drop]
  have hpos := List.count_pos_iff.mpr hlast
  rw [Position.after_line, hcount, show Position.start.line = 0 from rfl]
  omega

section
variable (script : Fenced) (keyPrefix : String) (content : Option String)

/-- The script with what is put in front of it. -/
def placed : List Char := (preamble keyPrefix ++ importText content ++ script.unescaped).toList

/-- The number of characters in front. -/
def frontLength : Nat := (preamble keyPrefix ++ importText content).toList.length

/-- The number of lines in front. -/
def frontLines : Nat := preambleLines + lineBreaks (importText content)

theorem placed_eq : placed script keyPrefix content =
    (preamble keyPrefix ++ importText content).toList ++ script.unescaped.toList := by
  rw [placed, String.toList_append]

theorem count_front : (preamble keyPrefix ++ importText content).toList.count '\n' = frontLines content := by
  have h : lineBreaks (preamble keyPrefix ++ importText content) = frontLines content := by
    rw [lineBreaks_append, lineBreaks_preamble, frontLines]
  exact h

/-- Places in front of the script are mapped to the script as a whole. -/
theorem remap_in_front {k : Nat} (hk : k < frontLength keyPrefix content) (column : Nat) :
    remap script (frontLines content) ((Position.start.after ((placed script keyPrefix content).take k)).line + 1) column
      = script.span := by
  have hline := line_lt_of_take (getLast?_front keyPrefix content) hk
  rw [count_front] at hline
  rw [placed_eq, List.take_append_of_le_length (Nat.le_of_lt hk)]
  exact if_pos hline

/-- The line and the column of a place in the script, counted from the start of what is put in front of it. -/
theorem place_in_script {k : Nat} {full : List (List Char)} {w : List Char}
    (htake : script.unescaped.toList.take k = ended full ++ w) (hfull : ∀ l ∈ full, '\n' ∉ l) (hw : '\n' ∉ w) :
    (Position.start.after ((placed script keyPrefix content).take (frontLength keyPrefix content + k))).line =
        frontLines content + full.length ∧
      (Position.start.after ((placed script keyPrefix content).take (frontLength keyPrefix content + k))).column =
        w.length := by
  have hplaced : (placed script keyPrefix content).take (frontLength keyPrefix content + k) =
      (preamble keyPrefix ++ importText content).toList ++ (ended full ++ w) := by
    rw [placed_eq, frontLength, List.take_length_add_append, htake]
  have hcolumn :
      (Position.start.after ((preamble keyPrefix ++ importText content).toList ++ ended full)).column = 0 := by
    refine Position.after_column_newline _ ?_
    by_cases hnil : full = []
    · subst hnil
      rw [show ended [] = [] from rfl, List.append_nil]
      exact getLast?_front keyPrefix content
    · rw [List.getLast?_append, Text.getLast?_ended hnil, Option.some_or]
  have hcount : (ended full ++ w).count '\n' = full.length := by
    rw [List.count_append, Text.count_ended hfull, List.count_eq_zero.mpr hw]
    rfl
  rw [hplaced]
  constructor
  · rw [Position.after_line, List.count_append, count_front, hcount, show Position.start.line = 0 from rfl,
      Nat.zero_add]
  · rw [← List.append_assoc, Position.after_append, Position.after_column _ hw, hcolumn, Nat.zero_add]

/-- Places in the script are mapped to where they come from. -/
theorem remap_in_script {p q : Position} (hspan : script.span = .between p q)
    (hraw : script.raw.toList = script.unescaped.toList.flatMap written)
    (hascii : ∀ c ∈ script.raw.toList, c.utf8Size = 1) (k : Nat) :
    remap script (frontLines content)
        ((Position.start.after ((placed script keyPrefix content).take (frontLength keyPrefix content + k))).line + 1)
        (Position.start.after ((placed script keyPrefix content).take (frontLength keyPrefix content + k))).column
      = .point (p.after (Token.fence ++ (script.unescaped.toList.take k).flatMap written)) := by
  obtain ⟨full, w, htake, hfull, hw⟩ := Text.exists_ended (script.unescaped.toList.take k)
  have hsplit : script.unescaped.toList = ended full ++ (w ++ script.unescaped.toList.drop k) := by
    rw [← List.append_assoc, ← htake, List.take_append_drop]
  obtain ⟨hline, hcolumn⟩ := place_in_script script keyPrefix content htake hfull hw
  rw [hline, hcolumn, htake]
  exact remap_eq_point hspan hraw hascii hsplit hfull hw (frontLines content)

end

end Script
end AliasLang
