/-
Tokens and gaps make up a script. Between two tokens stands nothing but white space and complete comments, each token
has the line and the column where its text starts, and it knows whether its gap breaks the line. The brackets among
the tokens are nested, and a parenthesis is marked exactly when it closes the head of an `if`, `for`, `while` or `with`.

A script that is refused is refused at one of its own characters. Both sides follow the scanner once: `Laid` and
`Pending` say what has been read and which brackets are open, and `tokensFrom_error` says where reading can stop.
-/
import AliasLang.Proofs.Script.Scan
import AliasLang.Proofs.Token.Partition

namespace AliasLang.Script

open AliasLang.Token (map_eq_ok)
open Source (Position)

/-! ## Gaps -/

/-- White space and comments in front of the text `after`. A comment that starts with `//` runs to a line feed or to
the end of the script, and one that starts with `/*` ends with the first `*/` in it. -/
inductive IsGap (after : List Char) : List Char → Prop
  | nil : IsGap after []
  | blank {c : Char} {gap : List Char} (hc : Text.isBlank c = true) (hgap : IsGap after gap) : IsGap after (c :: gap)
  | lineComment {words gap : List Char} (hwords : '\n' ∉ words) (hend : ∀ c ∈ (gap ++ after).head?, c = '\n')
      (hgap : IsGap after gap) : IsGap after ('/' :: '/' :: (words ++ gap))
  | blockComment {words gap : List Char} (hwords : ¬['*', '/'] <:+: words) (hgap : IsGap after gap) :
      IsGap after ('/' :: '*' :: (words ++ '*' :: '/' :: gap))

/-- The text `gap` goes on with a gap from some part of it on, and ends it in front of the text `after`. -/
def GapPart.Closes (after gap : List Char) : GapPart → Prop
  | .blank => IsGap after gap
  | .lineComment => ∃ words rest, gap = words ++ rest ∧ '\n' ∉ words ∧ (∀ c ∈ (rest ++ after).head?, c = '\n') ∧
      IsGap after rest
  | .blockComment _ => ∃ words rest, gap = words ++ '*' :: '/' :: rest ∧ ¬['*', '/'] <:+: words ∧ IsGap after rest

/-- The end of a comment is not moved by a character in front that does not start it. -/
theorem not_infix_cons {c : Char} {words : List Char} (hc : ¬(c = '*' ∧ words.head? = some '/'))
    (h : ¬['*', '/'] <:+: words) : ¬['*', '/'] <:+: c :: words := by
  rintro hall
  rcases List.infix_cons_iff.mp hall with hfront | hlater
  · rw [List.cons_prefix_cons] at hfront
    obtain ⟨rfl, tail, rfl⟩ := hfront
    exact hc ⟨rfl, rfl⟩
  · exact h hlater

theorem gapLength_closes {read : Nat} {part : GapPart} {cs : List Char} {n : Nat}
    (h : gapLength read part cs = .ok n) : part.Closes (cs.drop n) (cs.take n) := by
  fun_induction gapLength read part cs generalizing n with
  | case1 | case10 => cases h
  | case2 read part hpart =>
    cases h
    cases part with
    | blank => exact .nil
    | lineComment => exact ⟨[], [], rfl, by simp, by simp, .nil⟩
    | blockComment opened => exact absurd rfl (hpart opened)
  | case3 read c cs hblank ih =>
    obtain ⟨m, hm, rfl⟩ := map_eq_ok h
    exact .blank hblank (ih hm)
  | case4 | case7 | case8 =>
    cases h
    exact .nil
  | case5 read rest _ ih =>
    obtain ⟨m, hm, rfl⟩ := map_eq_ok h
    obtain ⟨words, gap, htake, hwords, hend, hgap⟩ := ih hm
    simp only [List.take_succ_cons, List.drop_succ_cons, htake]
    exact .lineComment hwords hend hgap
  | case6 read rest _ _ ih =>
    obtain ⟨m, hm, rfl⟩ := map_eq_ok h
    obtain ⟨words, gap, htake, hwords, hgap⟩ := ih hm
    simp only [List.take_succ_cons, List.drop_succ_cons, htake]
    exact .blockComment hwords hgap
  | case9 read c cs part =>
    rename_i ih
    obtain ⟨m, hm, rfl⟩ := map_eq_ok h
    have hrest := ih hm
    simp only [List.take_succ_cons, List.drop_succ_cons]
    by_cases hc : c = '\n'
    · -- the line feed that ends the comment is white space of the gap
      rw [show part = .blank from if_pos hc] at hrest
      subst hc
      exact ⟨[], '\n' :: cs.take m, rfl, by simp, by simp, .blank (by decide) hrest⟩
    · rw [show part = .lineComment from if_neg hc] at hrest
      obtain ⟨words, gap, htake, hwords, hend, hgap⟩ := hrest
      exact ⟨c :: words, gap, by rw [htake]; rfl, by simp [Ne.symm hc, hwords], hend, hgap⟩
  | case11 read c opened d rest hends ih =>
    obtain ⟨m, hm, rfl⟩ := map_eq_ok h
    obtain ⟨rfl, rfl⟩ : c = '*' ∧ d = '/' := by simpa using hends
    exact ⟨[], rest.take m, rfl, by simp, ih hm⟩
  | case12 read c cs opened hgoes ih =>
    obtain ⟨m, hm, rfl⟩ := map_eq_ok h
    obtain ⟨words, gap, htake, hwords, hgap⟩ := ih hm
    refine ⟨c :: words, gap, by rw [List.take_succ_cons, htake]; rfl, not_infix_cons ?_ hwords, hgap⟩
    rintro ⟨rfl, hhead⟩
    -- the next character is that of the words
    have hcs : cs.head? = some '/' := by
      refine head?_of_head?_take (n := m) ?_
      rw [htake, List.head?_append, hhead, Option.some_or]
    simp [hcs] at hgoes

theorem map_eq_error {ε α β : Type} {f : α → β} {r : Except ε α} {e : ε} (h : r.map f = .error e) :
    r = .error e := by
  cases r with
  | error e' =>
    cases h
    rfl
  | ok a => cases h

/-- A comment that does not end is blamed on its start. -/
theorem gapLength_fault {read : Nat} {part : GapPart} {cs : List Char} {f : Fault}
    (h : gapLength read part cs = .error f) :
    part = .blockComment f.skipped ∨ ∃ k, f.skipped = read + k ∧ cs[k]? = some '/' := by
  fun_induction gapLength read part cs with
  | case1 | case10 =>
    cases h
    exact .inl rfl
  | case2 | case4 | case7 | case8 => cases h
  | case3 read c cs hblank ih =>
    obtain hpart | ⟨k, hk, hslash⟩ := ih (map_eq_error h)
    · cases hpart
    · exact .inr ⟨k + 1, by omega, hslash⟩
  | case5 read rest _ ih =>
    obtain hpart | ⟨k, hk, hslash⟩ := ih (map_eq_error h)
    · cases hpart
    · exact .inr ⟨k + 2, by omega, hslash⟩
  | case6 read rest _ _ ih =>
    obtain hpart | ⟨k, hk, hslash⟩ := ih (map_eq_error h)
    · exact .inr ⟨0, (GapPart.blockComment.inj hpart).symm, rfl⟩
    · exact .inr ⟨k + 2, by omega, hslash⟩
  | case9 read c cs part =>
    rename_i ih
    obtain hpart | ⟨k, hk, hslash⟩ := ih (map_eq_error h)
    · simp only [part] at hpart
      split at hpart <;> cases hpart
    · exact .inr ⟨k + 1, by omega, hslash⟩
  | case11 read c opened d rest hends ih =>
    obtain hpart | ⟨k, hk, hslash⟩ := ih (map_eq_error h)
    · cases hpart
    · exact .inr ⟨k + 2, by omega, hslash⟩
  | case12 read c cs opened hgoes ih =>
    obtain hpart | ⟨k, hk, hslash⟩ := ih (map_eq_error h)
    · exact .inl hpart
    · exact .inr ⟨k + 1, by omega, hslash⟩

/-! ## Where lexemes are refused -/

/-- A quote that starts a literal. -/
def isQuote (c : Char) : Bool := c = '"' || c = '\x27' || c = '`'

/-- All literals that are still open were opened at places with the property. -/
def TemplatePart.Opened (P : Nat → Prop) : TemplatePart → Prop
  | .text start => P start
  | .code start _ => P start
  | .string _ opened start _ => P opened ∧ P start

/-- A template that does not end is blamed on a quote: its own, or that of a literal in one of its substitutions. -/
theorem templateLength_fault {P : Nat → Prop} {read : Nat} {part : TemplatePart} {outer : List (Nat × Nat)}
    {cs : List Char} {f : Fault} (h : templateLength read part outer cs = .error f) (hpart : part.Opened P)
    (houter : ∀ o ∈ outer, P o.1) (hcs : ∀ k c, cs[k]? = some c → isQuote c = true → P (read + k)) : P f.skipped := by
  -- what is left of the text starts after one or two more characters
  have hnext : ∀ {c : Char} {cs : List Char} {read : Nat},
      (∀ k d, (c :: cs)[k]? = some d → isQuote d = true → P (read + k)) →
        ∀ k d, cs[k]? = some d → isQuote d = true → P (read + 1 + k) := by
    intro c cs read hcs k d hd hquote
    have := hcs (k + 1) d hd hquote
    rwa [Nat.add_assoc, Nat.add_comm 1 k]
  have hends : ∀ {part : TemplatePart}, part.Opened P → P part.unterminated.skipped := by
    intro part hpart
    cases part with
    | text => exact hpart
    | code => exact hpart
    | string => exact hpart.1
  fun_induction templateLength read part outer cs with
  | case1 | case2 | case6 | case14 | case15 =>
    cases h
    exact hends hpart
  | case4 => cases h
  | case3 | case7 | case16 =>
    rename_i ih
    exact ih (map_eq_error h) hpart houter (hnext (hnext hcs))
  | case5 read rest start start' depth outer _ ih =>
    rw [List.forall_mem_cons] at houter
    exact ih (map_eq_error h) houter.1 houter.2 (hnext hcs)
  | case8 | case9 | case13 | case18 =>
    rename_i ih
    exact ih (map_eq_error h) hpart houter (hnext hcs)
  | case10 read outer rest start depth part =>
    rename_i ih
    refine ih (map_eq_error h) ?_ houter (hnext hcs)
    simp only [part]
    split <;> exact hpart
  | case11 read outer c rest start depth _ _ hquote ih =>
    have hc : P read := hcs 0 c rfl (by simp_all [isQuote])
    exact ih (map_eq_error h) ⟨hc, hpart⟩ houter (hnext hcs)
  | case12 read outer rest start depth _ _ _ ih =>
    have hc : P read := hcs 0 '`' rfl rfl
    exact ih (map_eq_error h) hc (List.forall_mem_cons.mpr ⟨hpart, houter⟩) (hnext hcs)
  | case17 read outer c rest opened start depth _ _ ih => exact ih (map_eq_error h) hpart.2 houter (hnext hcs)

/-- A character that is no white space stands there. -/
def StandsAt (cs : List Char) (k : Nat) : Prop := ∃ c, cs[k]? = some c ∧ Text.isBlank c = false

theorem isBlank_of_isQuote {c : Char} (h : isQuote c = true) : Text.isBlank c = false := by
  obtain (rfl | rfl) | rfl : (c = '"' ∨ c = '\x27') ∨ c = '`' := by simpa [isQuote] using h
  all_goals decide

theorem orUnterminated_fault {cause : Cause} {n : Option Nat} {f : Fault} (h : orUnterminated cause n = .error f) :
    f.skipped = 0 := by
  cases n with
  | none =>
    cases h
    rfl
  | some n => cases h

theorem lexeme_fault {last : Option Token} {c : Char} {cs : List Char} {f : Fault} (hc : Text.isBlank c = false)
    (h : lexeme last c cs = .error f) : StandsAt (c :: cs) f.skipped := by
  have hstart : StandsAt (c :: cs) 0 := ⟨c, rfl, hc⟩
  by_cases htick : c = '`'
  · subst htick
    rw [lexeme_template] at h
    refine templateLength_fault (map_eq_error h) hstart (by simp) fun k d hd hquote => ?_
    rw [Nat.add_comm]
    exact ⟨d, hd, isBlank_of_isQuote hquote⟩
  -- all others are blamed on their first character
  have hzero : f.skipped = 0 := by
    unfold lexeme at h
    rw [if_neg htick] at h
    split at h
    · exact orUnterminated_fault (map_eq_error h)
    split at h
    · cases h
    split at h
    · cases h
    split at h
    · exact orUnterminated_fault (map_eq_error h)
    split at h
    · cases h
    · cases h
      rfl
  rwa [hzero]

/-- The token at the end of a gap starts with a character that is no white space. -/
theorem isBlank_of_gapLength {cs rest : List Char} {gap : Nat} {c : Char} (hgap : gapLength 0 .blank cs = .ok gap)
    (hdrop : cs.drop gap = c :: rest) : Text.isBlank c = false := by
  have hstart := startsGap_drop hgap
  rw [hdrop, startsGap, Bool.or_eq_false_iff] at hstart
  exact hstart.1

theorem StandsAt.drop {cs : List Char} {n k : Nat} (h : StandsAt (cs.drop n) k) : StandsAt cs (n + k) := by
  obtain ⟨c, hc, hblank⟩ := h
  exact ⟨c, by rwa [List.getElem?_drop] at hc, hblank⟩

theorem after_take_drop (p : Position) (cs : List Char) (n k : Nat) :
    (p.after (cs.take n)).after ((cs.drop n).take k) = p.after (cs.take (n + k)) := by
  rw [← Position.after_append, List.take_add]

/-- What follows a lexeme of `n` more characters behind a gap. -/
theorem drop_lexeme {cs rest : List Char} {gap : Nat} {c : Char} (hdrop : cs.drop gap = c :: rest) (n : Nat) :
    rest.drop n = cs.drop (gap + (n + 1)) := by
  rw [← List.drop_drop, hdrop, List.drop_succ_cons]

/-- A bracket that is open after a token was open before it, or is that token. -/
theorem mem_of_track {opened opened' : List Opened} {last : Option Token} {p : Position} {text : String}
    {control : Bool} (h : track opened last p text = .ok (control, opened')) :
    ∀ o ∈ opened', o ∈ opened ∨ o.place = p := by
  unfold track at h
  intro o ho
  split at h
  · split at h
    · cases h
      rcases List.mem_cons.mp ho with rfl | ho
      · exact .inr rfl
      · exact .inl ho
    split at h
    · split at h
      · cases h
      · split at h
        · cases h
          exact .inl (List.mem_cons_of_mem _ ho)
        · cases h
    · cases h
      exact .inl ho
  · cases h
    exact .inl ho

/-- A refusal is placed at a character of the text, or at a bracket that was open before it. -/
theorem tokensFrom_error {last : Option Token} {opened : List Opened} {p : Position} {cs : List Char} {e : Refusal}
    (h : tokensFrom last opened p cs = .error e) :
    (∃ o ∈ opened, e.place = o.place) ∨ ∃ k, StandsAt cs k ∧ e.place = p.after (cs.take k) := by
  fun_induction tokensFrom last opened p cs with
  | case1 last opened p cs f hgap =>
    cases h
    obtain hpart | ⟨k, hk, hslash⟩ := gapLength_fault hgap
    · cases hpart
    · rw [Nat.zero_add] at hk
      exact .inr ⟨k, ⟨'/', hslash, by decide⟩, by rw [← hk]; rfl⟩
  | case2 => cases h
  | case3 last p cs gap hgap hdrop o rest =>
    cases h
    exact .inl ⟨o, List.mem_cons_self, rfl⟩
  | case4 last opened p cs gap hgap q c rest hdrop f hlexeme =>
    cases h
    have hfault := lexeme_fault (isBlank_of_gapLength hgap hdrop) hlexeme
    rw [← hdrop] at hfault
    refine .inr ⟨gap + f.skipped, hfault.drop, ?_⟩
    rw [← after_take_drop, hdrop]
    rfl
  | case5 last opened p cs gap hgap q c rest hdrop kind n hlexeme text cause htrack =>
    cases h
    have hc : StandsAt (cs.drop gap) 0 := ⟨c, by rw [hdrop]; rfl, isBlank_of_gapLength hgap hdrop⟩
    exact .inr ⟨gap, hc.drop, rfl⟩
  | case6 last opened p cs gap hgap q c rest hdrop kind n hlexeme text control opened' htrack token e' hrest =>
    rename_i ih
    cases h
    rcases ih hrest with ⟨o, ho, hplace⟩ | ⟨k, hk, hplace⟩
    · have hopened : o ∈ opened ∨ o.place = q := by
        rw [dite_eq_ite] at htrack
        split at htrack
        · exact mem_of_track htrack o ho
        · cases htrack
          exact .inl ho
      rcases hopened with ho | hq
      · exact .inl ⟨o, ho, hplace⟩
      · have hc : StandsAt (cs.drop gap) 0 := ⟨c, by rw [hdrop]; rfl, isBlank_of_gapLength hgap hdrop⟩
        exact .inr ⟨gap, hc.drop, hplace.trans hq⟩
    · rw [drop_lexeme hdrop] at hk hplace
      refine .inr ⟨gap + (n + 1) + k, hk.drop, ?_⟩
      rw [hplace, ← after_take_drop p, ← after_take_drop p, hdrop, List.take_succ_cons]
  | case7 => cases h

/-- Each token is placed at a character of the text. -/
theorem tokensFrom_place {last : Option Token} {opened : List Opened} {p : Position} {cs : List Char} {ts : List Token}
    (h : tokensFrom last opened p cs = .ok ts) :
    ∀ t ∈ ts, ∃ k, StandsAt cs k ∧ t.place = p.after (cs.take k) := by
  fun_induction tokensFrom last opened p cs generalizing ts with
  | case1 | case3 | case4 | case5 | case6 => cases h
  | case2 =>
    cases h
    simp
  | case7 last opened p cs gap hgap q c rest =>
    rename_i hdrop kind n hlexeme text control opened' htrack token tokens htokens ih
    cases h
    intro t ht
    rcases List.mem_cons.mp ht with rfl | ht
    · have hc : StandsAt (cs.drop gap) 0 := ⟨c, by rw [hdrop]; rfl, isBlank_of_gapLength hgap hdrop⟩
      exact ⟨gap, hc.drop, rfl⟩
    · obtain ⟨k, hk, hplace⟩ := ih htokens t ht
      rw [drop_lexeme hdrop] at hk hplace
      refine ⟨gap + (n + 1) + k, hk.drop, ?_⟩
      rw [hplace, ← after_take_drop p, ← after_take_drop p, hdrop, List.take_succ_cons]

/-! ## The pieces of a script -/

/-- The line of the place behind a text, counted from one. -/
def lineAfter (before : List Char) : Nat := before.count '\n' + 1

/-- The column of the place behind a text: the characters on its last line. -/
def columnAfter (before : List Char) : Nat := (before.reverse.takeWhile (· ≠ '\n')).length

theorem line_start_after (before : List Char) : (Position.start.after before).line + 1 = lineAfter before := by
  rw [Position.after_line, show Position.start.line = 0 from rfl, Nat.zero_add]
  rfl

/-- The text `cs`, which `before` precedes, is gaps and the texts of these tokens in a row. Each token has the line and
the column of the place where its text starts, and is marked when the gap before it breaks the line. -/
inductive Laid : (before cs : List Char) → List Token → Prop
  | done {before gap : List Char} (hgap : IsGap [] gap) : Laid before gap []
  | token {before gap rest : List Char} {t : Token} {ts : List Token} (hgap : IsGap (t.text.toList ++ rest) gap)
      (hline : t.place.line + 1 = lineAfter (before ++ gap)) (hcolumn : t.place.column = columnAfter (before ++ gap))
      (hbreak : t.newlineBefore = true ↔ '\n' ∈ gap) (hrest : Laid (before ++ gap ++ t.text.toList) rest ts) :
      Laid before (gap ++ (t.text.toList ++ rest)) (t :: ts)

theorem tokensFrom_laid {last : Option Token} {opened : List Opened} {p : Position} {cs : List Char} {ts : List Token}
    (h : tokensFrom last opened p cs = .ok ts) {before : List Char} (hp : p = Position.start.after before) :
    Laid before cs ts := by
  fun_induction tokensFrom last opened p cs generalizing ts before with
  | case1 | case3 | case4 | case5 | case6 => cases h
  | case2 last p cs gap hgap hdrop =>
    cases h
    have hall : cs.take gap = cs := List.take_of_length_le (List.drop_eq_nil_iff.mp hdrop)
    have hcloses := gapLength_closes hgap
    rw [hdrop, hall] at hcloses
    exact .done hcloses
  | case7 last opened p cs gap hgap q c rest =>
    rename_i hdrop kind n hlexeme text control opened' htrack token tokens htokens ih
    cases h
    have hcloses := gapLength_closes hgap
    have htext : token.text.toList = c :: rest.take n := String.toList_ofList
    have hdropped : cs.drop gap = token.text.toList ++ rest.drop n := by
      rw [hdrop, htext, List.cons_append, List.take_append_drop]
    have hq : q = Position.start.after (before ++ cs.take gap) := by rw [Position.after_append, ← hp]
    have hlaid : Laid before (cs.take gap ++ (token.text.toList ++ rest.drop n)) (token :: tokens) := by
      refine .token ?_ ?_ ?_ ?_ (ih htokens ?_)
      · rwa [← hdropped]
      · rw [show token.place = q from rfl, hq, line_start_after]
      · rw [show token.place = q from rfl, hq]
        exact Position.column_start_after _
      · show (cs.take gap).contains '\n' = true ↔ _
        rw [List.contains_iff_mem]
      · rw [Position.after_append, ← hq, htext]
    rwa [← hdropped, List.take_append_drop] at hlaid

/-! ## Heads of statements -/

/-- A keyword whose parentheses are the head of a statement. -/
def Token.isControlKeyword (t : Token) : Bool := t.kind = .word && controlKeywords.contains t.text

theorem isControlKeyword_iff {t : Token} :
    t.isControlKeyword = true ↔ t.kind = .word ∧ t.text ∈ ["if", "for", "while", "with"] := by
  rw [Token.isControlKeyword, Bool.and_eq_true, decide_eq_true_eq, List.contains_iff_mem]
  rfl

/-- The brackets `opened` are those that are open after the tokens `ts`, the innermost first. -/
inductive Pending : List Token → List Opened → Prop
  | none {ts : List Token} (h : Nested ts) : Pending ts []
  | bracket {front inner : List Token} {t : Token} {o : Opened} {opened : List Opened} (hfront : Pending front opened)
      (ht : t.isOpening = true) (hbracket : o.bracket = t.bracket)
      (hcontrol : o.control = (t.isPunct "(" && front.getLast?.any Token.isControlKeyword)) (hinner : Nested inner) :
      Pending (front ++ t :: inner) (o :: opened)

theorem Pending.append {ts inner : List Token} {opened : List Opened} (h : Pending ts opened) (hinner : Nested inner) :
    Pending (ts ++ inner) opened := by
  cases h with
  | none h => exact .none (h.append hinner)
  | bracket hfront ht hbracket hcontrol h =>
    rw [List.append_assoc, List.cons_append]
    exact .bracket hfront ht hbracket hcontrol (h.append hinner)

/-- What the scanner makes of a token: it opens a bracket, closes the innermost one, or is no bracket. -/
theorem track_cases {t : Token} {opened opened' : List Opened} {last : Option Token} {p : Position} {control : Bool}
    (h : (if t.kind = .punctuator then track opened last p t.text else .ok (false, opened)) = .ok (control, opened')) :
    (t.isOpening = true ∧ control = false ∧
        opened' = ⟨t.bracket, p, t.isPunct "(" && last.any Token.isControlKeyword⟩ :: opened) ∨
      (t.isOpening = false ∧ t.isClosing = true ∧
        ∃ o, opened = o :: opened' ∧ closerOf o.bracket = t.bracket ∧ control = o.control) ∨
      (t.isPlain = true ∧ control = false ∧ opened' = opened) := by
  by_cases hkind : t.kind = .punctuator
  · rw [if_pos hkind, track] at h
    split at h
    · rename_i c htext
      have hopening : t.isOpening = (c = '(' || c = '[' || c = '\x7b') := by
        simp [Token.isOpening, isPunct_eq hkind, htext]
      have hclosing : t.isClosing = (c = ')' || c = ']' || c = '\x7d') := by
        simp [Token.isClosing, isPunct_eq hkind, htext]
      have hbracket : t.bracket = c := by simp [Token.bracket, htext]
      have hparen : t.isPunct "(" = decide (c = '(') := by simp [isPunct_eq hkind, htext]
      rw [Token.isPlain, hopening, hclosing, hbracket, hparen]
      split at h
      · rename_i hc
        cases h
        exact .inl ⟨hc, rfl, rfl⟩
      · rename_i hno
        rw [Bool.not_eq_true] at hno
        split at h
        · rename_i hc
          split at h
          · cases h
          · rename_i o rest
            split at h
            · rename_i hcloses
              cases h
              exact .inr (.inl ⟨hno, hc, o, rfl, hcloses, rfl⟩)
            · cases h
        · rename_i hc
          rw [Bool.not_eq_true] at hc
          cases h
          exact .inr (.inr ⟨by rw [hno, hc]; rfl, rfl, rfl⟩)
    · rename_i hlength
      cases h
      refine .inr (.inr ⟨isPlain_of_length fun hone => ?_, rfl, rfl⟩)
      obtain ⟨c, hc⟩ := List.length_eq_one_iff.mp hone
      exact hlength c hc
  · rw [if_neg hkind] at h
    cases h
    exact .inr (.inr ⟨isPlain_of_kind hkind, rfl, rfl⟩)

/-- The token `t` behind the tokens `front` is the parenthesis that closes the head of a statement: its partner stands
right behind one of the keywords that have such a head. -/
def ClosesHead (front : List Token) (t : Token) : Prop :=
  t.isPunct ")" = true ∧ ∃ before paren inner, front = before ++ paren :: inner ∧ paren.isPunct "(" = true ∧
    Nested inner ∧ ∃ keyword, before.getLast? = some keyword ∧ keyword.kind = .word ∧
      keyword.text ∈ ["if", "for", "while", "with"]

theorem isOpening_of_isPunct {t : Token} (h : t.isPunct "(" = true) : t.isOpening = true := by
  simp [Token.isOpening, h]

theorem isClosing_of_isOpening {t : Token} (h : t.isOpening = true) : t.isClosing = false := by
  simp only [Token.isOpening, Token.isPunct, Bool.or_eq_true, Bool.and_eq_true, decide_eq_true_eq] at h
  rcases h with (⟨-, h⟩ | ⟨-, h⟩) | ⟨-, h⟩ <;> simp [Token.isClosing, Token.isPunct, h]

theorem not_closesHead {front : List Token} {t : Token} (h : t.isClosing = false) : ¬ClosesHead front t := by
  intro hcloses
  simp [Token.isClosing, hcloses.1] at h

/-- One more token: the brackets that are open after it are those that its stretch leaves open, and it is marked exactly
when it closes the head of a statement. -/
theorem Pending.step {front : List Token} {opened opened' : List Opened} {t : Token} (h : Pending front opened)
    (htrack : (if t.kind = .punctuator then track opened front.getLast? t.place t.text else .ok (false, opened)) =
      .ok (t.controlClose, opened')) :
    Pending (front ++ [t]) opened' ∧ (t.controlClose = true ↔ ClosesHead front t) := by
  rcases track_cases htrack with ⟨hopening, hcontrol, rfl⟩ | ⟨hopening, hclosing, o, rfl, hcloses, hcontrol⟩ |
    ⟨hplain, hcontrol, rfl⟩
  · rw [hcontrol]
    have hnot : ¬ClosesHead front t := not_closesHead (isClosing_of_isOpening hopening)
    exact ⟨.bracket h hopening rfl rfl .nil, iff_of_false (by decide) hnot⟩
  · cases h with
    | @bracket before inner paren _ _ hfront hparen hbracket hcontrol' hinner =>
      have hnot : ¬t.isOpening = true := by simp [hopening]
      rw [hbracket] at hcloses
      refine ⟨?_, ?_⟩
      · rw [List.append_assoc, List.cons_append]
        exact hfront.append (hinner.enclose hparen hnot hclosing hcloses)
      rw [hcontrol, hcontrol', Bool.and_eq_true]
      constructor
      · rintro ⟨hround, hcontrol⟩
        obtain ⟨keyword, hlast, hkeyword⟩ := (Option.any_eq_true _ _).mp hcontrol
        refine ⟨isPunct_of_isClosing hclosing (by decide) ?_, before, paren, inner, rfl, hround, hinner, keyword, hlast,
          isControlKeyword_iff.mp hkeyword⟩
        rw [← hcloses, bracket_of_isPunct hround]
        rfl
      · rintro ⟨-, before', paren', inner', heq, hround, hinner', keyword, hlast, hkeyword⟩
        obtain ⟨rfl, rfl, rfl⟩ := enclosed_unique heq hparen (isOpening_of_isPunct hround) hinner hinner'
        exact ⟨hround, (Option.any_eq_true _ _).mpr ⟨keyword, hlast, isControlKeyword_iff.mpr hkeyword⟩⟩
  · have hclosing : t.isClosing = false := by
      simp only [Token.isPlain, Bool.and_eq_true, Bool.not_eq_true'] at hplain
      exact hplain.2
    rw [hcontrol]
    exact ⟨h.append (.plain hplain), iff_of_false (by decide) (not_closesHead hclosing)⟩

/-- A whole run marks the parentheses that close the heads of statements, and no other token. -/
theorem tokensFrom_closesHead {last : Option Token} {opened : List Opened} {p : Position} {cs : List Char}
    {ts : List Token} (h : tokensFrom last opened p cs = .ok ts) {front : List Token} (hfront : Pending front opened)
    (hlast : front.getLast? = last) {before back : List Token} {t : Token} (hts : ts = before ++ t :: back) :
    t.controlClose = true ↔ ClosesHead (front ++ before) t := by
  fun_induction tokensFrom last opened p cs generalizing ts front before with
  | case1 | case3 | case4 | case5 | case6 => cases h
  | case2 =>
    cases h
    simp at hts
  | case7 last opened p cs gap hgap q c rest =>
    rename_i hdrop kind n hlexeme text control opened' htrack token tokens htokens ih
    cases h
    rw [dite_eq_ite, ← hlast] at htrack
    obtain ⟨hpending, hcontrol⟩ := hfront.step (t := token) htrack
    cases before with
    | nil =>
      obtain ⟨rfl, -⟩ := List.cons.inj hts
      rwa [List.append_nil]
    | cons u before =>
      obtain ⟨rfl, htail⟩ := List.cons.inj hts
      have hlater := ih htokens hpending List.getLast?_concat htail
      rwa [List.append_assoc] at hlater

/-! ## Scripts that are scanned, and scripts that are refused -/

/-- The tokens make up the script together with white space and complete comments. Each is a lexeme, their brackets are
nested, and the parentheses that close the heads of statements are marked. -/
structure Partitions (script : String) (ts : List Token) : Prop where
  laid : Laid [] script.toList ts
  written : ∀ t ∈ ts, t.Written
  nested : Nested ts
  control : ∀ front t back, ts = front ++ t :: back → (t.controlClose = true ↔ ClosesHead front t)

theorem partitions_of_tokenize {script : String} {ts : List Token} (h : tokenize script = .ok ts) :
    Partitions script ts where
  laid := tokensFrom_laid h rfl
  written := (scans_of_tokensFrom h).written
  nested := (scans_of_tokensFrom h).openAfter
  control front t back hts := by
    have hclose := tokensFrom_closesHead h (.none .nil) rfl hts
    rwa [List.nil_append] at hclose

/-- A remark stands at a character of the script: it has the line and the column of that character, and quotes the line
that the character is on. -/
def Diagnostic.Within (script : String) (d : Diagnostic) : Prop :=
  ∃ before c after, script.toList = before ++ c :: after ∧ d.line = lineAfter before ∧ d.column = columnAfter before ∧
    (Text.lines script)[d.line - 1]? = some d.lineText ∧ d.lineText.toList[d.column]? = some c

/-- What stands on the last line of a text that is cut into lines. -/
theorem takeWhile_reverse_ended {full : List (List Char)} {w : List Char} (hw : '\n' ∉ w) :
    (Text.ended full ++ w).reverse.takeWhile (· ≠ '\n') = w.reverse := by
  have hlast : (Text.ended full).reverse.takeWhile (· ≠ '\n') = [] := by
    cases full with
    | nil => rfl
    | cons l full =>
      obtain ⟨front, hfront⟩ := List.getLast?_eq_some_iff.mp (Text.getLast?_ended (List.cons_ne_nil l full))
      rw [hfront, List.reverse_concat]
      rfl
  rw [List.reverse_append, List.takeWhile_append_of_pos (fun c hc => ?_), hlast, List.append_nil]
  rw [List.mem_reverse] at hc
  have hne : c ≠ '\n' := ne_of_mem_of_not_mem hc hw
  exact decide_eq_true hne

/-- A remark that is placed at a character of the script, other than white space, quotes the line of that character. -/
theorem remark_within {script : String} {k : Nat} (hk : StandsAt script.toList k) (severity : Severity)
    (message : String) :
    (remark script severity message (Position.start.after (script.toList.take k))).Within script := by
  obtain ⟨c, hc, hblank⟩ := hk
  obtain ⟨hlt, rfl⟩ := List.getElem?_eq_some_iff.mp hc
  have hdrop : script.toList = script.toList.take k ++ script.toList[k] :: script.toList.drop (k + 1) := by
    rw [← List.drop_eq_getElem_cons hlt, List.take_append_drop]
  obtain ⟨full, w, htake, hfull, hw⟩ := Text.exists_ended (script.toList.take k)
  obtain ⟨tail, hline⟩ :
      ∃ tail, (Text.lines script)[full.length]? = some (String.ofList (w ++ script.toList[k] :: tail)) := by
    refine Text.getElem?_lines (by rw [← List.append_assoc, ← htake]; exact hdrop) hfull hw ?_ ?_
    all_goals
      intro heq
      rw [heq] at hblank
      cases hblank
  have hfeeds : (Position.start.after (script.toList.take k)).line = full.length := by
    apply Nat.succ.inj
    rw [Nat.succ_eq_add_one, line_start_after, lineAfter, htake, List.count_append, Text.count_ended hfull,
      List.count_eq_zero.mpr hw]
  have hcolumn : (Position.start.after (script.toList.take k)).column = w.length := by
    rw [Position.column_start_after, htake, takeWhile_reverse_ended hw, List.length_reverse]
  refine ⟨script.toList.take k, script.toList[k], script.toList.drop (k + 1), hdrop, line_start_after _,
    Position.column_start_after _, ?_, ?_⟩
  · rw [remark, hfeeds, Nat.add_sub_cancel, hline, Text.lineAt, Nat.add_sub_cancel, List.getD, hline]
    rfl
  · rw [remark, hfeeds, hcolumn, Text.lineAt, Nat.add_sub_cancel, List.getD, hline]
    simp

/-- **The tokens of a script.** Scanning ends for every script. When it succeeds, its tokens and the gaps between them
make up the script. When it fails, whatever the options are, there is one remark on the script, an error that stands
at a character of it. -/
theorem script_tokens_partition (script : String) :
    match tokenize script with
    | .ok ts => Partitions script ts
    | .error _ => ∀ options, ∃ d, (minify options script).diagnostics = [d] ∧ d.isError = true ∧ d.Within script := by
  cases h : tokenize script with
  | ok ts => exact partitions_of_tokenize h
  | error e =>
    intro options
    obtain ⟨o, ho, -⟩ | ⟨k, hk, hplace⟩ := tokensFrom_error h
    · cases ho
    refine ⟨remark script .error e.cause.text e.place, by rw [minify, h], rfl, ?_⟩
    rw [hplace]
    exact remark_within hk _ _

end AliasLang.Script
