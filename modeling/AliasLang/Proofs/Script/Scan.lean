/-
What the scanner for scripts guarantees: a gap ends where neither white space nor a comment goes on, each token is
written like a lexeme of its kind, and the brackets of the tokens are properly nested.
-/
import AliasLang.Proofs.Script.Brackets
import AliasLang.Proofs.Script.Lexeme

namespace AliasLang.Script

open AliasLang.Token (map_eq_ok)

/-! ## Gaps -/

/-- White space or a comment stands at the front of a text. -/
def startsGap : List Char → Bool
  | [] => false
  | c :: cs => Text.isBlank c || (c = '/' && (cs.head? = some '/' || cs.head? = some '*'))

theorem gapLength_eq_zero {cs : List Char} (h : startsGap cs = false) (read : Nat) :
    gapLength read .blank cs = .ok 0 := by
  cases cs with
  | nil => rfl
  | cons c cs =>
    simp only [startsGap, Bool.or_eq_false_iff, Bool.and_eq_false_iff, decide_eq_false_iff_not] at h
    obtain ⟨hblank, hcomment⟩ := h
    by_cases hslash : c = '/'
    · subst hslash
      have hcomment := hcomment.resolve_left fun hne => hne rfl
      cases cs with
      | nil => simp [gapLength, hblank]
      | cons d cs =>
        have hd : d ≠ '/' ∧ d ≠ '*' := by simpa using hcomment
        simp [gapLength, hblank, hd]
    · rw [gapLength.eq_def]
      simp [hblank, hslash]

/-- A gap ends where no gap starts. -/
theorem startsGap_drop {read : Nat} {part : GapPart} {cs : List Char} {n : Nat}
    (h : gapLength read part cs = .ok n) : startsGap (cs.drop n) = false := by
  fun_induction gapLength read part cs generalizing n with
  | case1 | case10 => cases h
  | case2 | case4 =>
    cases h
    decide
  | case3 | case9 | case12 =>
    rename_i ih
    obtain ⟨m, hm, rfl⟩ := map_eq_ok h
    exact ih hm
  | case5 read rest hblank ih | case6 read rest hblank hstar ih | case11 read c opened d rest hends ih =>
    obtain ⟨m, hm, rfl⟩ := map_eq_ok h
    exact ih hm
  | case7 read d rest hslash hstar hblank =>
    cases h
    simp [startsGap, hblank, hslash, hstar]
  | case8 read c cs hblank hslash =>
    cases h
    simp [startsGap, hblank, hslash]

/-! ## Brackets -/

/-- What the passes and the writer see of a token: its kind and its text. -/
def Token.lexed (t : Token) : Kind × String := (t.kind, t.text)

theorem openBy_congr {t u : Token} (h : t.lexed = u.lexed) (opened : List Char) :
    openBy opened t = openBy opened u := by
  obtain ⟨kind, text, _, _, _⟩ := t
  obtain ⟨rfl, rfl⟩ : kind = u.kind ∧ text = u.text := by simpa [Token.lexed] using h
  rfl

theorem isPunct_eq {t : Token} (h : t.kind = .punctuator) (text : String) :
    t.isPunct text = decide (t.text.toList = text.toList) := by
  simp [Token.isPunct, h, String.toList_inj]

/-- Brackets are punctuators of one character. -/
theorem isPlain_of_length {t : Token} (h : t.text.toList.length ≠ 1) : t.isPlain = true := by
  by_cases hkind : t.kind = .punctuator
  · have hne : ∀ c, t.text.toList ≠ [c] := fun c hc => h (by simp [hc])
    simp [Token.isPlain, Token.isOpening, Token.isClosing, isPunct_eq hkind, hne]
  · exact isPlain_of_kind hkind

/-- The scanner keeps track of the brackets that are open. -/
theorem track_eq_openBy (t : Token) (opened : List Opened) (last : Option Token) (p : Source.Position) :
    (if t.kind = .punctuator then track opened last p t.text else .ok (false, opened)).toOption.map
      (fun tracked => tracked.2.map Opened.bracket) = openBy (opened.map Opened.bracket) t := by
  by_cases hkind : t.kind = .punctuator
  · rw [if_pos hkind, track]
    split
    · rename_i c htext
      have hopening : t.isOpening = (c = '(' || c = '[' || c = '\x7b') := by
        simp [Token.isOpening, isPunct_eq hkind, htext]
      have hclosing : t.isClosing = (c = ')' || c = ']' || c = '\x7d') := by
        simp [Token.isClosing, isPunct_eq hkind, htext]
      have hbracket : t.bracket = c := by simp [Token.bracket, htext]
      rw [openBy.eq_def, hopening, hclosing, hbracket]
      split
      · rfl
      · split
        · cases opened with
          | nil => rfl
          | cons o opened =>
            rw [List.map_cons]
            by_cases hcloses : closerOf o.bracket = c
            · simp [hcloses, Except.toOption]
            · simp [hcloses, Except.toOption]
        · rfl
    · rename_i hlength
      have hplain : t.isPlain = true := by
        refine isPlain_of_length fun hone => ?_
        obtain ⟨c, hc⟩ := List.length_eq_one_iff.mp hone
        exact hlength c hc
      rw [openBy_plain hplain]
      rfl
  · rw [if_neg hkind, openBy_plain (isPlain_of_kind hkind)]
    rfl

theorem openBy_eq_some_iff {t : Token} {opened : List Opened} (last : Option Token) (p : Source.Position)
    {after : List Char} : openBy (opened.map Opened.bracket) t = some after ↔
      ∃ control opened', (if t.kind = .punctuator then track opened last p t.text else .ok (false, opened)) =
        .ok (control, opened') ∧ opened'.map Opened.bracket = after := by
  rw [← track_eq_openBy t opened last p]
  cases (if t.kind = .punctuator then track opened last p t.text else .ok (false, opened)) with
  | error cause => simp [Except.toOption]
  | ok tracked =>
    obtain ⟨control, opened'⟩ := tracked
    constructor
    · intro h
      exact ⟨control, opened', rfl, Option.some.inj h⟩
    · rintro ⟨_, _, h, rfl⟩
      cases h
      rfl

/-! ## Tokens -/

/-- A token as the scanner makes it: it is written like a lexeme of its kind. -/
def Token.Written (t : Token) : Prop :=
  ∃ c cs, t.text = String.ofList (c :: cs) ∧ IsLexeme t.kind c cs ∧ Text.isBlank c = false

theorem written_semicolon {t : Token} (h : t.isPunct ";" = true) : t.Written := by
  simp only [Token.isPunct, Bool.and_eq_true, decide_eq_true_eq] at h
  refine ⟨';', [], h.2, ?_, by decide⟩
  rw [h.1]
  exact .punctuator (by decide)

theorem written_of_lexeme {last : Option Token} {c : Char} {cs : List Char} {t : Token} {n : Nat}
    (hgap : startsGap (c :: cs) = false) (h : lexeme last c cs = .ok (t.kind, n))
    (htext : t.text = String.ofList (c :: cs.take n)) : n ≤ cs.length ∧ t.Written := by
  simp only [startsGap, Bool.or_eq_false_iff, Bool.and_eq_false_iff, decide_eq_false_iff_not] at hgap
  have hcomment : c = '/' → cs.head? ≠ some '/' ∧ cs.head? ≠ some '*' := fun hc =>
    hgap.2.resolve_left fun hne => hne hc
  obtain ⟨hn, hlexeme⟩ := isLexeme_of_lexeme last h hcomment
  exact ⟨hn, c, cs.take n, htext, hlexeme, hgap.1⟩

/-- The tokens `ts` are read from the text `cs` after the token `last` and inside the brackets `opened`. This is what
the scanner does, places and the marks on the tokens apart. -/
inductive Scans : Option Token → List Char → List Char → List Token → Prop
  | done {last : Option Token} {cs : List Char} {gap : Nat} (hgap : gapLength 0 .blank cs = .ok gap)
      (hdrop : cs.drop gap = []) : Scans last [] cs []
  | token {last : Option Token} {opened opened' cs : List Char} {gap : Nat} {c : Char} {rest : List Char} {t : Token}
      {n : Nat} {ts : List Token} (hgap : gapLength 0 .blank cs = .ok gap) (hdrop : cs.drop gap = c :: rest)
      (hlexeme : lexeme last c rest = .ok (t.kind, n)) (htext : t.text = String.ofList (c :: rest.take n))
      (hopen : openBy opened t = some opened') (hts : Scans (some t) opened' (rest.drop n) ts) :
      Scans last opened cs (t :: ts)

theorem Scans.written {last : Option Token} {opened cs : List Char} {ts : List Token} (h : Scans last opened cs ts) :
    ∀ t ∈ ts, t.Written := by
  induction h with
  | done => simp
  | token hgap hdrop hlexeme htext _ _ ih =>
    have hstart := startsGap_drop hgap
    rw [hdrop] at hstart
    exact List.forall_mem_cons.mpr ⟨(written_of_lexeme hstart hlexeme htext).2, ih⟩

theorem Scans.openAfter {last : Option Token} {opened cs : List Char} {ts : List Token} (h : Scans last opened cs ts) :
    openAfter opened ts = some [] := by
  induction h with
  | done => rfl
  | token _ _ _ _ hopen _ ih => rw [Script.openAfter, hopen, Option.bind_some, ih]

theorem regexAllowed_congr {last last' : Option Token} (h : last.map Token.lexed = last'.map Token.lexed) :
    regexAllowed last = regexAllowed last' := by
  cases last with
  | none =>
    obtain rfl : last' = none := by simpa using h.symm
    rfl
  | some t =>
    obtain ⟨u, rfl, hu⟩ : ∃ u, last' = some u ∧ u.lexed = t.lexed := by simpa using h.symm
    simp only [Token.lexed, Prod.mk.injEq] at hu
    simp only [regexAllowed, hu]

theorem lexeme_congr {last last' : Option Token} (h : last.map Token.lexed = last'.map Token.lexed) (c : Char)
    (cs : List Char) : lexeme last c cs = lexeme last' c cs := by
  simp only [lexeme, regexAllowed_congr h]

theorem Scans.congr {last last' : Option Token} {opened cs : List Char} {ts ts' : List Token}
    (h : Scans last opened cs ts) (hlast : last.map Token.lexed = last'.map Token.lexed)
    (hts : ts.map Token.lexed = ts'.map Token.lexed) : Scans last' opened cs ts' := by
  induction h generalizing last' ts' with
  | done hgap hdrop =>
    obtain rfl : ts' = [] := by simpa using hts.symm
    exact .done hgap hdrop
  | @token _ _ _ _ _ _ _ t _ _ hgap hdrop hlexeme htext hopen _ ih =>
    obtain ⟨u, us, rfl, hu, hus⟩ := List.map_eq_cons_iff.mp hts.symm
    have hkind : u.kind = t.kind ∧ u.text = t.text := by simpa [Token.lexed] using hu
    rw [lexeme_congr hlast, ← hkind.1] at hlexeme
    rw [← hkind.2] at htext
    rw [← openBy_congr hu] at hopen
    exact .token hgap hdrop hlexeme htext hopen (ih (by simp [hu]) hus.symm)

theorem scans_of_tokensFrom {last : Option Token} {opened : List Opened} {p : Source.Position} {cs : List Char}
    {ts : List Token} (h : tokensFrom last opened p cs = .ok ts) :
    Scans last (opened.map Opened.bracket) cs ts := by
  fun_induction tokensFrom last opened p cs generalizing ts with
  | case1 | case3 | case4 | case5 | case6 => cases h
  | case2 last p cs gap hgap hdrop =>
    cases h
    exact .done hgap hdrop
  | case7 last opened p cs gap hgap q c rest hdrop kind n hlexeme text control opened' htrack token tokens htokens =>
    rename_i ih
    cases h
    rw [dite_eq_ite] at htrack
    have hopen := (openBy_eq_some_iff (t := token) last q).mpr ⟨control, opened', htrack, rfl⟩
    exact .token (t := token) hgap hdrop hlexeme rfl hopen (ih htokens)

theorem tokensFrom_done {cs : List Char} {gap : Nat} (hgap : gapLength 0 .blank cs = .ok gap) (hdrop : cs.drop gap = [])
    (last : Option Token) (p : Source.Position) : tokensFrom last [] p cs = .ok [] := by
  rw [tokensFrom, hgap]
  dsimp only
  split
  · rfl
  · rename_i hcons
    rw [hdrop] at hcons
    cases hcons

/-- The scanner reads one token and goes on behind it. -/
theorem tokensFrom_cons {last : Option Token} {opened opened' : List Opened} {p : Source.Position}
    {cs rest : List Char} {gap n : Nat} {c : Char} {t : Token} (hgap : gapLength 0 .blank cs = .ok gap)
    (hdrop : cs.drop gap = c :: rest) (hlexeme : lexeme last c rest = .ok (t.kind, n))
    (htext : t.text = String.ofList (c :: rest.take n)) (hplace : t.place = p.after (cs.take gap))
    (hnewline : t.newlineBefore = (cs.take gap).contains '\n')
    (htrack : (if t.kind = .punctuator then track opened last t.place t.text else .ok (false, opened)) =
      .ok (t.controlClose, opened')) :
    tokensFrom last opened p cs =
      (tokensFrom (some t) opened' (t.place.after t.text.toList) (rest.drop n)).map (t :: ·) := by
  obtain ⟨kind, text, place, newlineBefore, controlClose⟩ := t
  subst htext hplace hnewline
  rw [tokensFrom.eq_def, hgap]
  dsimp only
  split
  · rename_i hnil
    rw [hdrop] at hnil
    cases hnil
  · rename_i hcons
    obtain ⟨rfl, rfl⟩ := List.cons.inj (hcons.symm.trans hdrop)
    rw [String.toList_ofList]
    simp only [hlexeme, htrack]
    split <;> rename_i hrest <;> rw [hrest] <;> rfl

theorem tokensFrom_token {last : Option Token} {opened opened' : List Opened} {p : Source.Position}
    {cs rest : List Char} {gap n : Nat} {c : Char} {t : Token} {ts : List Token}
    (hgap : gapLength 0 .blank cs = .ok gap) (hdrop : cs.drop gap = c :: rest)
    (hlexeme : lexeme last c rest = .ok (t.kind, n))
    (htext : t.text = String.ofList (c :: rest.take n)) (hplace : t.place = p.after (cs.take gap))
    (hnewline : t.newlineBefore = (cs.take gap).contains '\n')
    (htrack : (if t.kind = .punctuator then track opened last t.place t.text else .ok (false, opened)) =
      .ok (t.controlClose, opened'))
    (hts : tokensFrom (some t) opened' (t.place.after t.text.toList) (rest.drop n) = .ok ts) :
    tokensFrom last opened p cs = .ok (t :: ts) := by
  rw [tokensFrom_cons hgap hdrop hlexeme htext hplace hnewline htrack, hts]
  rfl

/-- The scanner finds the tokens that can be read. -/
theorem exists_tokensFrom_of_scans {last : Option Token} {opened cs : List Char} {ts : List Token}
    (h : Scans last opened cs ts) : ∀ (last' : Option Token) (opened' : List Opened) (p : Source.Position),
      last.map Token.lexed = last'.map Token.lexed → opened'.map Opened.bracket = opened →
        ∃ again, tokensFrom last' opened' p cs = .ok again ∧ again.map Token.lexed = ts.map Token.lexed := by
  induction h with
  | done hgap hdrop =>
    intro last' opened' p _ hopened
    obtain rfl : opened' = [] := by simpa using hopened
    exact ⟨[], tokensFrom_done hgap hdrop last' p, rfl⟩
  | @token last opened after cs gap c rest t n ts hgap hdrop hlexeme htext hopen _ ih =>
    rintro last' opened' p hlast rfl
    obtain ⟨control, opened'', htrack, rfl⟩ := (openBy_eq_some_iff last' (p.after (cs.take gap))).mp hopen
    let token : Token := ⟨t.kind, t.text, p.after (cs.take gap), (cs.take gap).contains '\n', control⟩
    obtain ⟨again, hagain, hlexed⟩ := ih (some token) opened'' (token.place.after token.text.toList) rfl rfl
    rw [lexeme_congr hlast] at hlexeme
    refine ⟨token :: again, tokensFrom_token hgap hdrop hlexeme htext rfl rfl htrack hagain, ?_⟩
    rw [List.map_cons, List.map_cons, hlexed]
    rfl

theorem tokenize_iff_scans {script : String} {ts : List Token} :
    (∃ again, tokenize script = .ok again ∧ again.map Token.lexed = ts.map Token.lexed) ↔
      Scans none [] script.toList ts := by
  constructor
  · rintro ⟨again, hagain, hlexed⟩
    exact (scans_of_tokensFrom hagain).congr rfl hlexed
  · intro h
    exact exists_tokensFrom_of_scans h none [] .start rfl rfl

end AliasLang.Script
