/-
Line breaks in minified code. Gaps are left out, so a line can only break inside a token: in a template literal, or in a
string literal that goes on behind a backslash. Carriage returns also stand in string literals and regular expressions
as they are. Quoting the code for a parameter drops them all, which leaves every other token as it is.
-/
import AliasLang.Proofs.Command.Parameters
import AliasLang.Proofs.Script.ReadBack
import Mathlib.Data.List.TakeWhile

namespace AliasLang.Script

open Command (OneLine)
open Command.Quoting (backslashes backslashes_concat isBreak withoutBreaks unquoted? unquoted?_parameter)

/-! ## Characters that break no line -/

theorem isBreak_cases {c : Char} (h : isBreak c = true) : c = '\n' ∨ c = '\r' := by
  simpa [isBreak] using h

/-- A test that line breaks do not pass. -/
theorem isBreak_of_test (test : Char → Bool) (hfeed : test '\n' = false) (hreturn : test '\r' = false) {c : Char}
    (h : test c = true) : isBreak c = false := by
  rw [Bool.eq_false_iff]
  intro hc
  rcases isBreak_cases hc with rfl | rfl
  · rw [hfeed] at h
    cases h
  · rw [hreturn] at h
    cases h

theorem isBreak_of_isWordPart {c : Char} (h : isWordPart c = true) : isBreak c = false :=
  isBreak_of_test isWordPart (by decide) (by decide) h

theorem isBreak_of_isBlank {c : Char} (h : Text.isBlank c = false) : isBreak c = false :=
  isBreak_of_test (fun c => !Text.isBlank c) (by decide) (by decide) (by simp [h])

/-! ## Where a literal breaks -/

/-- Every line feed has an odd number of backslashes right before it. -/
def Continued (cs : List Char) : Prop :=
  ∀ before after, cs = before ++ '\n' :: after → Odd (backslashes before)

/-- A text that ends with an even number of backslashes changes nothing about what is escaped after it. -/
theorem odd_backslashes_append {front : List Char} (hfront : Even (backslashes front)) (cs : List Char) :
    Odd (backslashes (front ++ cs)) ↔ Odd (backslashes cs) := by
  induction cs using List.reverseRecOn with
  | nil => simpa [backslashes] using hfront
  | append_singleton cs c ih =>
    rw [← List.append_assoc, backslashes_concat, backslashes_concat]
    by_cases hc : c = '\\'
    · rw [if_pos hc, if_pos hc, Nat.odd_add_one, Nat.odd_add_one, ih]
    · rw [if_neg hc, if_neg hc]

theorem Continued.append {front cs : List Char} (hfront : Continued front) (heven : Even (backslashes front))
    (h : Continued cs) : Continued (front ++ cs) := by
  intro before after heq
  rcases List.append_eq_append_iff.mp heq with ⟨between, rfl, hcs⟩ | ⟨between, rfl, hafter⟩
  · rw [odd_backslashes_append heven]
    exact h between after hcs
  · cases between with
    | nil => exact absurd (h [] after hafter.symm) (by decide)
    | cons d between =>
      obtain ⟨rfl, -⟩ := List.cons.inj hafter
      exact hfront before between rfl

theorem continued_singleton {c : Char} (h : c ≠ '\n') : Continued [c] := by
  intro before after heq
  cases before with
  | nil => exact absurd (List.cons.inj heq).1 h
  | cons b before => simp at heq

theorem continued_escaped (c : Char) : Continued ['\\', c] := by
  intro before after heq
  match before with
  | [] => simp at heq
  | [b] =>
    obtain ⟨rfl, -⟩ := List.cons.inj heq
    decide
  | b :: b' :: before => simp at heq

theorem even_backslashes_escaped (c : Char) : Even (backslashes ['\\', c]) := by
  have hconcat := backslashes_concat ['\\'] c
  rw [List.singleton_append] at hconcat
  rw [hconcat]
  split <;> decide

/-- A string literal goes on in the next line only behind a backslash. -/
theorem continued_of_stringLength? {quote : Char} {cs : List Char} (h : stringLength? quote cs = some cs.length) :
    Continued cs := by
  fun_induction stringLength? quote cs with
  | case1 | case2 | case3 => cases h
  | case4 d rest _ ih =>
    have hrest : stringLength? quote rest = some rest.length := by simpa using h
    exact (continued_escaped d).append (even_backslashes_escaped d) (ih hrest)
  | case5 cs hfeed _ =>
    obtain rfl : cs = [] := by simpa using h
    exact continued_singleton hfeed
  | case6 c cs hfeed hslash _ ih =>
    have hrest : stringLength? quote cs = some cs.length := by simpa using h
    have heven : Even (backslashes [c]) := by simp [backslashes, hslash]
    exact (continued_singleton hfeed).append heven (ih hrest)

theorem getLast?_of_stringLength? {quote : Char} {cs : List Char} (h : stringLength? quote cs = some cs.length) :
    cs.getLast? = some quote := by
  fun_induction stringLength? quote cs with
  | case1 | case2 | case3 => cases h
  | case4 d rest _ ih =>
    have hlast := ih (by simpa using h)
    simp [List.getLast?_cons, hlast]
  | case5 cs =>
    obtain rfl : cs = [] := by simpa using h
    rfl
  | case6 c cs _ _ _ ih =>
    have hlast := ih (by simpa using h)
    simp [List.getLast?_cons, hlast]

theorem getLast?_of_templateLength {read : Nat} {part : TemplatePart} {outer : List (Nat × Nat)} {cs : List Char}
    (h : templateLength read part outer cs = .ok cs.length) : cs.getLast? = some '`' := by
  fun_induction templateLength read part outer cs with
  | case1 | case2 | case6 | case14 | case15 => cases h
  | case4 read cs =>
    obtain rfl : cs = [] := by simpa using h
    rfl
  | case3 | case5 | case7 | case8 | case9 | case10 | case11 | case12 | case13 | case16 | case17 | case18 =>
    rename_i ih
    obtain ⟨m, hm, hlength⟩ := AliasLang.Token.map_eq_ok h
    simp only [List.length_cons, Nat.add_right_cancel_iff] at hlength
    have hlast := ih (hm.trans (congrArg Except.ok hlength))
    simp [List.getLast?_cons, hlast]

/-- The flags of a regular expression are all that follows its closing slash. -/
theorem forall_isWordPart_of_length {cs : List Char} (h : (cs.takeWhile isWordPart).length + 1 = cs.length + 1) :
    ∀ d ∈ cs, isWordPart d = true := by
  have hall : cs.takeWhile isWordPart = cs := (List.takeWhile_prefix isWordPart).eq_of_length (Nat.succ.inj h)
  exact List.takeWhile_eq_self_iff.mp hall

theorem feed_notMem_of_regexLength? {inClass : Bool} {cs : List Char} (h : regexLength? inClass cs = some cs.length) :
    '\n' ∉ cs := by
  fun_induction regexLength? inClass cs with
  | case1 | case2 | case3 | case4 => cases h
  | case8 inClass c cs hfeed =>
    have hflags := forall_isWordPart_of_length (Option.some.inj h)
    rw [List.mem_cons, not_or]
    exact ⟨Ne.symm hfeed, fun hmem => absurd (hflags _ hmem) (by decide)⟩
  | case5 inClass d rest hfeed _ ih =>
    have hrest := ih (by simpa using h)
    simp [hrest, Ne.symm hfeed]
  | case6 | case7 =>
    rename_i ih
    have hrest := ih (by simpa using h)
    simp [hrest]
  | case9 inClass c cs hfeed _ _ _ _ ih =>
    have hrest := ih (by simpa using h)
    simp [hrest, Ne.symm hfeed]

theorem getLast?_of_regexLength? {inClass : Bool} {cs : List Char} (h : regexLength? inClass cs = some cs.length) :
    ∃ a, cs.getLast? = some a ∧ isBreak a = false := by
  fun_induction regexLength? inClass cs with
  | case1 | case2 | case3 | case4 => cases h
  | case8 inClass c cs _ _ _ _ hslash =>
    have hflags := forall_isWordPart_of_length (Option.some.inj h)
    cases hlast : cs.getLast? with
    | none =>
      obtain rfl : c = '/' := by
        simp only [Bool.and_eq_true, decide_eq_true_eq] at hslash
        exact hslash.1
      exact ⟨'/', by simp [List.getLast?_cons, hlast], by decide⟩
    | some a =>
      exact ⟨a, by simp [List.getLast?_cons, hlast], isBreak_of_isWordPart (hflags a (List.mem_of_getLast? hlast))⟩
  | case5 | case6 | case7 | case9 =>
    rename_i ih
    obtain ⟨a, ha, hbreak⟩ := ih (by simpa using h)
    exact ⟨a, by simp [List.getLast?_cons, ha], hbreak⟩

theorem isBreak_of_numberLength {hexadecimal : Bool} {last : Char} {cs : List Char}
    (h : numberLength hexadecimal last cs = cs.length) : ∀ d ∈ cs, isBreak d = false := by
  fun_induction numberLength hexadecimal last cs with
  | case1 => simp
  | case2 last c cs hc ih =>
    rw [List.forall_mem_cons]
    refine ⟨isBreak_of_test (fun c => c.isAlphanum || c = '_' || c = '.') (by decide) (by decide) hc, ?_⟩
    exact ih (Nat.succ.inj h)
  | case3 last c cs _ hc ih =>
    rw [List.forall_mem_cons]
    simp only [Bool.and_eq_true] at hc
    refine ⟨isBreak_of_test (fun c => c = '+' || c = '-') (by decide) (by decide) hc.1.1, ?_⟩
    exact ih (Nat.succ.inj h)
  | case4 => simp at h

theorem punctuators_break : ∀ p ∈ punctuators.map String.toList, ∀ d ∈ p, isBreak d = false := by
  have htable : ((punctuators.map String.toList).all (·.all (!isBreak ·))) = true := by decide
  intro p hp d hd
  simpa using List.all_eq_true.mp (List.all_eq_true.mp htable p hp) d hd

theorem isBreak_of_startsNumber {c : Char} {cs : List Char} (h : startsNumber c cs = true) : isBreak c = false := by
  refine isBreak_of_test (fun c => c.isDigit || c = '.') (by decide) (by decide) ?_
  simp only [startsNumber, Bool.or_eq_true, Bool.and_eq_true] at h ⊢
  exact h.imp_right And.left

/-! ## Where a token breaks -/

/-- How a token of a kind can break the line: a template literal anywhere, a string literal only by carriage returns and
behind backslashes, and a regular expression only by carriage returns. -/
def MayBreak : Kind → List Char → Prop
  | .template, _ => True
  | .string, cs => Continued cs
  | .regex, cs => '\n' ∉ cs
  | _, cs => ∀ d ∈ cs, isBreak d = false

theorem IsLexeme.mayBreak {k : Kind} {c : Char} {cs : List Char} (h : IsLexeme k c cs) : MayBreak k (c :: cs) := by
  cases h with
  | string hc h =>
    have hquote : c ≠ '\n' ∧ c ≠ '\\' := by rcases hc with rfl | rfl <;> decide
    have heven : Even (backslashes [c]) := by simp [backslashes, hquote.2]
    exact (continued_singleton hquote.1).append heven (continued_of_stringLength? h)
  | template h => trivial
  | number hc h => exact List.forall_mem_cons.mpr ⟨isBreak_of_startsNumber hc, isBreak_of_numberLength h⟩
  | word hc h =>
    refine List.forall_mem_cons.mpr ⟨?_, fun d hd => isBreak_of_isWordPart (h d hd)⟩
    exact isBreak_of_isWordPart (isWordPart_of_isWordStart hc)
  | regex hc h =>
    have hfeed := feed_notMem_of_regexLength? h
    simpa [MayBreak] using hfeed
  | punctuator h => exact punctuators_break _ (mem_table.mpr h)

/-- No lexeme ends with a line break. -/
theorem IsLexeme.getLast? {k : Kind} {c : Char} {cs : List Char} (h : IsLexeme k c cs) :
    ∃ a, (c :: cs).getLast? = some a ∧ isBreak a = false := by
  -- where nothing breaks the line, the last character does not
  have hplain : (∀ d ∈ c :: cs, isBreak d = false) → ∃ a, (c :: cs).getLast? = some a ∧ isBreak a = false := by
    intro hall
    obtain ⟨a, ha⟩ : ∃ a, (c :: cs).getLast? = some a := ⟨_, List.getLast?_cons⟩
    exact ⟨a, ha, hall a (List.mem_of_getLast? ha)⟩
  cases h with
  | string hc h =>
    refine ⟨c, by simp [List.getLast?_cons, getLast?_of_stringLength? h], ?_⟩
    rcases hc with rfl | rfl <;> decide
  | template h => exact ⟨'`', by simp [List.getLast?_cons, getLast?_of_templateLength h], by decide⟩
  | regex hc h =>
    obtain ⟨a, ha, hbreak⟩ := getLast?_of_regexLength? h
    exact ⟨a, by simp [List.getLast?_cons, ha], hbreak⟩
  | number hc h => exact hplain (IsLexeme.number hc h).mayBreak
  | word hc h => exact hplain (IsLexeme.word hc h).mayBreak
  | punctuator h => exact hplain (IsLexeme.punctuator h).mayBreak

/-! ## Taking line breaks out of tokens -/

/-- The token without the line breaks of its text. -/
def Token.withoutBreaks (t : Token) : Token := { t with text := Command.Quoting.withoutBreaks t.text }

theorem Token.toList_withoutBreaks (t : Token) :
    t.withoutBreaks.text.toList = t.text.toList.filter (!isBreak ·) := String.toList_ofList

theorem Token.withoutBreaks_eq_self_iff {t : Token} : t.withoutBreaks = t ↔ OneLine t.text := by
  have htext : t.withoutBreaks = t ↔ t.withoutBreaks.text.toList = t.text.toList := by
    refine ⟨fun h => by rw [h], fun h => ?_⟩
    cases t
    exact congrArg (Token.mk _ · _ _ _) (String.toList_injective h)
  rw [htext, Token.toList_withoutBreaks, List.filter_eq_self]
  simp [OneLine]

theorem Token.Written.head? {t : Token} (h : t.Written) : t.withoutBreaks.text.toList.head? = t.text.toList.head? := by
  obtain ⟨c, cs, htext, -, hblank⟩ := h
  rw [Token.toList_withoutBreaks, htext, String.toList_ofList,
    List.filter_cons_of_pos (by simp [isBreak_of_isBlank hblank])]
  rfl

theorem Token.Written.getLast? {t : Token} (h : t.Written) :
    t.withoutBreaks.text.toList.getLast? = t.text.toList.getLast? := by
  obtain ⟨c, cs, htext, hlexeme, -⟩ := h
  obtain ⟨a, ha, hbreak⟩ := hlexeme.getLast?
  obtain ⟨front, hfront⟩ := List.getLast?_eq_some_iff.mp ha
  rw [Token.toList_withoutBreaks, htext, String.toList_ofList, hfront, List.filter_append,
    List.filter_cons_of_pos (by simp [hbreak])]
  simp

/-- The same tokens are parted by a space. -/
theorem separator_withoutBreaks {t u : Token} (ht : t.Written) (hu : u.Written) :
    separator true t.withoutBreaks u.withoutBreaks = separator true t u := by
  -- only the last character of one token and the first of the next count, and both stay
  have hspace : needsSpace t.withoutBreaks u.withoutBreaks = needsSpace t u := by
    rw [needsSpace, needsSpace, ht.getLast?, hu.head?]
    rfl
  rw [separator, separator, hspace]
  rfl

theorem withoutBreaks_separator (t u : Token) : withoutBreaks (separator true t u) = separator true t u := by
  rw [separator]
  split
  · rename_i h
    simp at h
  · split <;> decide

theorem withoutBreaks_renderFrom {ts : List Token} (hts : ∀ t ∈ ts, t.Written) {last : Option Token}
    (hlast : ∀ t ∈ last, t.Written) :
    withoutBreaks (renderFrom true last ts) =
      renderFrom true (last.map Token.withoutBreaks) (ts.map Token.withoutBreaks) := by
  induction ts generalizing last with
  | nil => rfl
  | cons t ts ih =>
    rw [List.forall_mem_cons] at hts
    have hrest := ih hts.2 (fun u hu => Option.some.inj hu ▸ hts.1)
    cases last with
    | none =>
      simp only [renderFrom, Command.withoutBreaks_append, hrest, List.map_cons, Option.map_none]
      rfl
    | some p =>
      simp only [renderFrom, Command.withoutBreaks_append, hrest, List.map_cons, Option.map_some,
        withoutBreaks_separator, separator_withoutBreaks (hlast p rfl) hts.1]
      rfl

/-- Nothing but spaces is written between tokens. -/
theorem mem_renderFrom {d : Char} (hd : d ≠ ' ') (last : Option Token) (ts : List Token) :
    d ∈ (renderFrom true last ts).toList ↔ ∃ t ∈ ts, d ∈ t.text.toList := by
  induction ts generalizing last with
  | nil => simp [renderFrom]
  | cons t ts ih =>
    obtain ⟨space, hrender, hspace⟩ := renderFrom_cons last t ts
    have hno : d ∉ space := by
      rcases hspace with ⟨rfl, -⟩ | rfl
      · exact List.not_mem_nil
      · simpa using hd
    rw [hrender, List.mem_append, List.mem_append, ih, List.exists_mem_cons_iff]
    simp [hno]

theorem oneLine_iff_notMem {s : String} : OneLine s ↔ ∀ d, isBreak d = true → d ∉ s.toList := by
  refine forall_congr' fun d => ?_
  rw [← Bool.not_eq_true]
  exact imp_not_comm

theorem oneLine_renderFrom {last : Option Token} {ts : List Token} :
    OneLine (renderFrom true last ts) ↔ ∀ t ∈ ts, OneLine t.text := by
  have hmem : ∀ d, isBreak d = true → (d ∈ (renderFrom true last ts).toList ↔ ∃ t ∈ ts, d ∈ t.text.toList) := by
    intro d hd
    refine mem_renderFrom ?_ last ts
    rintro rfl
    exact absurd hd (by decide)
  simp only [oneLine_iff_notMem]
  constructor
  · intro h t ht d hd hdt
    exact h d hd ((hmem d hd).mpr ⟨t, ht, hdt⟩)
  · intro h d hd hdt
    obtain ⟨t, ht, hdt⟩ := (hmem d hd).mp hdt
    exact h t ht d hd hdt

/-! ## Minified code -/

theorem MayBreak.of_feed {k : Kind} {cs : List Char} (h : MayBreak k cs) (hfeed : '\n' ∈ cs) :
    k = .template ∨ k = .string ∧ Continued cs := by
  cases k with
  | template => exact .inl rfl
  | string => exact .inr ⟨rfl, h⟩
  | regex => exact absurd hfeed h
  | word | number | punctuator => exact absurd (h _ hfeed) (by decide)

theorem MayBreak.of_break {k : Kind} {cs : List Char} (h : MayBreak k cs) (hbreak : ¬∀ d ∈ cs, isBreak d = false) :
    k = .template ∨ k = .string ∨ k = .regex ∧ '\n' ∉ cs := by
  cases k with
  | template => exact .inl rfl
  | string => exact .inr (.inl rfl)
  | regex => exact .inr (.inr ⟨rfl, h⟩)
  | word | number | punctuator => exact absurd h hbreak

theorem Token.Written.mayBreak {t : Token} (h : t.Written) : MayBreak t.kind t.text.toList := by
  obtain ⟨c, cs, htext, hlexeme, -⟩ := h
  rw [htext, String.toList_ofList]
  exact hlexeme.mayBreak

/-- The passes write no other tokens than semicolons. -/
theorem Edited.mem_of_kind {ts ts' : List Token} (h : Edited ts ts') {t : Token} (ht : t ∈ ts')
    (hkind : t.kind ≠ .punctuator) : t ∈ ts := by
  rcases h.mem t ht with ht | hsemicolon
  · exact ht
  · simp [Token.isPunct, hkind] at hsemicolon

theorem isError_of_mem_evalWarnings {script : String} {last : Option Token} {ts : List Token} :
    ∀ d ∈ evalWarnings script last ts, d.isError = false := by
  induction ts generalizing last with
  | nil => simp [evalWarnings]
  | cons t ts ih =>
    rw [evalWarnings]
    split
    · exact List.forall_mem_cons.mpr ⟨rfl, ih⟩
    · exact ih

/-- The scripts with tokens are those without an error among the remarks. -/
theorem tokenize_ok_iff (options : Options) (script : String) :
    (∃ ts, tokenize script = .ok ts) ↔ ∀ d ∈ (minify options script).diagnostics, d.isError = false := by
  unfold minify
  cases htokens : tokenize script with
  | error e => simp [remark, Diagnostic.isError]
  | ok ts => exact iff_of_true ⟨ts, rfl⟩ isError_of_mem_evalWarnings

theorem minify_code {options : Options} {script : String} {ts : List Token} (h : tokenize script = .ok ts) :
    (minify options script).code = render options.minifyWhitespace (shorten options ts) := by
  rw [minify, h]

/-- **Minified code breaks lines only inside literals.** In the code of a script that is accepted, with white space
taken out, a line feed stands exactly where it stands in a template literal of the script that was kept, or behind an
odd number of backslashes in such a string literal. In a parameter the code is read as the same tokens without line
breaks, and with the same spaces between them. So a parameter leaves all tokens as they are if and only if the code is
on one line; those that it alters are template literals, string literals, and regular expressions that hold a carriage
return. -/
theorem minified_breaks_only_inside_literals {options : Options} {script : String}
    (hspace : options.minifyWhitespace = true)
    (haccepted : ∀ d ∈ (minify options script).diagnostics, d.isError = false) :
    ∃ ts, tokenize script = .ok ts ∧
      ('\n' ∈ (minify options script).code.toList ↔ ∃ t ∈ shorten options ts, t ∈ ts ∧ '\n' ∈ t.text.toList ∧
        (t.kind = .template ∨ t.kind = .string ∧ Continued t.text.toList)) ∧
      unquoted? (Command.Quoting.parameter (minify options script).code) =
        some (render true ((shorten options ts).map Token.withoutBreaks)) ∧
      (OneLine (minify options script).code ↔ ∀ t ∈ shorten options ts, t.withoutBreaks = t) ∧
      ∀ t ∈ shorten options ts, t.withoutBreaks ≠ t → t ∈ ts ∧
        (t.kind = .template ∨ t.kind = .string ∨ t.kind = .regex ∧ '\n' ∉ t.text.toList) := by
  obtain ⟨ts, htokens⟩ := (tokenize_ok_iff options script).mpr haccepted
  have hcode : (minify options script).code = renderFrom true none (shorten options ts) := by
    rw [minify_code htokens, hspace, render]
  have hedited := shorten_edited options ts
  have hwritten : ∀ t ∈ shorten options ts, t.Written :=
    hedited.forall_mem (fun _ => written_semicolon) (scans_of_tokensFrom htokens).written
  rw [hcode]
  refine ⟨ts, htokens, ?_, ?_, ?_, ?_⟩
  · rw [mem_renderFrom (by decide)]
    refine exists_congr fun t => and_congr_right fun ht => ⟨fun hfeed => ?_, fun h => h.2.1⟩
    have hkind := (hwritten t ht).mayBreak.of_feed hfeed
    refine ⟨hedited.mem_of_kind ht ?_, hfeed, hkind⟩
    rcases hkind with hkind | ⟨hkind, -⟩ <;> simp [hkind]
  · rw [unquoted?_parameter, withoutBreaks_renderFrom hwritten (by simp)]
    rfl
  · rw [oneLine_renderFrom]
    exact forall₂_congr fun t _ => Token.withoutBreaks_eq_self_iff.symm
  · intro t ht hne
    rw [Ne, Token.withoutBreaks_eq_self_iff] at hne
    have hkind := (hwritten t ht).mayBreak.of_break hne
    refine ⟨hedited.mem_of_kind ht ?_, hkind⟩
    rcases hkind with hkind | hkind | ⟨hkind, -⟩ <;> simp [hkind]

/-- A template literal in two lines, a string literal that goes on in the next line, and a carriage return in a regular
expression. -/
def brokenScript : String := "console.log(x)\nreturn `a\nb` + 'c\\\nd' + /e\rf/g"

/-- What is left of it. -/
def brokenTokens : List Token :=
  [⟨.word, "return", ⟨15, 1, 0⟩, true, false⟩, ⟨.template, "`a\nb`", ⟨22, 1, 7⟩, false, false⟩,
   ⟨.punctuator, "+", ⟨28, 2, 3⟩, false, false⟩, ⟨.string, "'c\\\nd'", ⟨30, 2, 5⟩, false, false⟩,
   ⟨.punctuator, "+", ⟨37, 3, 3⟩, false, false⟩, ⟨.regex, "/e\rf/g", ⟨39, 3, 5⟩, false, false⟩]

/-- All three literals are altered. -/
theorem broken_literals_altered :
    (Options.forEmbedding true).minifyWhitespace = true ∧
    (∀ d ∈ (minify (.forEmbedding true) brokenScript).diagnostics, d.isError = false) ∧
    unquoted? (Command.Quoting.parameter (minify (.forEmbedding true) brokenScript).code) =
      some "return`ab`+'c\\d'+/ef/g" := by
  have heval : (tokenize brokenScript).map (shorten (.forEmbedding true)) = .ok brokenTokens := by decide +kernel
  obtain ⟨ts, htokens, hkept⟩ := AliasLang.Token.map_eq_ok heval
  have haccepted := (tokenize_ok_iff (.forEmbedding true) brokenScript).mp ⟨ts, htokens⟩
  obtain ⟨ts', htokens', -, hread, -, -⟩ :=
    minified_breaks_only_inside_literals (show (Options.forEmbedding true).minifyWhitespace = true from rfl) haccepted
  obtain rfl : ts = ts' := Except.ok.inj (htokens.symm.trans htokens')
  have hwritten : render true (brokenTokens.map Token.withoutBreaks) = "return`ab`+'c\\d'+/ef/g" := by decide +kernel
  rw [hkept, hwritten] at hread
  exact ⟨rfl, haccepted, hread⟩

/-- A line feed stays in a string literal that goes on in the next line and in a template literal. In a parameter both
lose it. -/
theorem literals_keep_line_feeds :
    (minify (.forEmbedding true) "return \"a\\\nb\"").code = "return\"a\\\nb\"" ∧
    unquoted? (Command.Quoting.parameter "return\"a\\\nb\"") = some "return\"a\\b\"" ∧
    (minify (.forEmbedding true) "return `a\nb`").code = "return`a\nb`" ∧
    unquoted? (Command.Quoting.parameter "return`a\nb`") = some "return`ab`" := by
  have hstring : (tokenize "return \"a\\\nb\"").map (shorten (.forEmbedding true)) =
      .ok [⟨.word, "return", ⟨0, 0, 0⟩, false, false⟩, ⟨.string, "\"a\\\nb\"", ⟨7, 0, 7⟩, false, false⟩] := by
    decide +kernel
  have htemplate : (tokenize "return `a\nb`").map (shorten (.forEmbedding true)) =
      .ok [⟨.word, "return", ⟨0, 0, 0⟩, false, false⟩, ⟨.template, "`a\nb`", ⟨7, 0, 7⟩, false, false⟩] := by
    decide +kernel
  obtain ⟨ts, hts, hkept⟩ := AliasLang.Token.map_eq_ok hstring
  obtain ⟨ts', hts', hkept'⟩ := AliasLang.Token.map_eq_ok htemplate
  refine ⟨?_, ?_, ?_, ?_⟩
  · rw [minify_code hts, hkept]
    decide +kernel
  · rw [unquoted?_parameter]
    decide +kernel
  · rw [minify_code hts', hkept']
    decide +kernel
  · rw [unquoted?_parameter]
    decide +kernel

end AliasLang.Script
