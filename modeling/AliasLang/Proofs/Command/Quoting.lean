/-
What quoted texts mean. A parameter ends at its first double quote that is not behind an odd number of backslashes, and a
literal between single quotes is read as script engines read it. Code and embedded pipelines are quoted so that both
readings give back what was put in, apart from line breaks. Keys are not: quoting a key adds two backslashes before each
double quote, which changes nothing about how many of them are odd, so a key stands in a parameter as it would stand
there unquoted.
-/
import AliasLang.Command.Quoting
import Mathlib.Algebra.Ring.Parity
import Mathlib.Data.List.Chain

namespace AliasLang.Command.Quoting

/-! ## Parameters -/

/-- How many backslashes a text ends with. -/
def backslashes (cs : List Char) : Nat := (cs.reverse.takeWhile (· = '\\')).length

/-- Every double quote of the text has an odd number of backslashes right before it. -/
def QuotesEscaped (cs : List Char) : Prop :=
  ∀ before after, cs = before ++ '"' :: after → Odd (backslashes before)

/-- The text can stand between double quotes: its own double quotes are escaped, and the one after it is not. -/
def WellQuoted (cs : List Char) : Prop := QuotesEscaped cs ∧ Even (backslashes cs)

/-- Reads a parameter after its opening quote: a backslash takes the next character with it, and the first other double
quote ends the parameter. What follows the parameter is left. -/
def readParameter? : List Char → Option (List Char × List Char)
  | [] => none
  | '"' :: cs => some ([], cs)
  | ['\\'] => none
  | '\\' :: c :: cs => (readParameter? cs).map fun (parameter, rest) => ('\\' :: c :: parameter, rest)
  | c :: cs => (readParameter? cs).map fun (parameter, rest) => (c :: parameter, rest)

/-- Whether a text is well quoted, read from left to right; `escaped` says that the text before ends with an odd number
of backslashes. -/
def quotedFrom (escaped : Bool) : List Char → Bool
  | [] => !escaped
  | c :: cs =>
    if c = '\\' then quotedFrom (!escaped) cs
    else (c ≠ '"' || escaped) && quotedFrom false cs

theorem backslashes_concat (cs : List Char) (c : Char) :
    backslashes (cs ++ [c]) = if c = '\\' then backslashes cs + 1 else 0 := by
  by_cases h : c = '\\' <;> simp [backslashes, h]

/-- Reading from left to right counts the backslashes. -/
theorem quotedFrom_iff (cs : List Char) : ∀ before : List Char,
    quotedFrom (decide (Odd (backslashes before))) cs = true ↔
      (∀ a b, cs = a ++ '"' :: b → Odd (backslashes (before ++ a))) ∧ Even (backslashes (before ++ cs)) := by
  induction cs with
  | nil => simp [quotedFrom]
  | cons c cs ih =>
    intro before
    -- The state after `c` is the one for the text before it with `c` added.
    have hnext := ih (before ++ [c])
    rw [List.append_assoc, List.singleton_append] at hnext
    have hcons : (∀ a b, c :: cs = a ++ '"' :: b → Odd (backslashes (before ++ a))) ↔
        (c = '"' → Odd (backslashes before)) ∧
          ∀ a b, cs = a ++ '"' :: b → Odd (backslashes (before ++ [c] ++ a)) := by
      constructor
      · intro h
        refine ⟨fun hc => ?_, fun a b hab => ?_⟩
        · simpa using h [] cs (by simp [hc])
        · simpa using h (c :: a) b (by simp [hab])
      · rintro ⟨hc, h⟩ a b hab
        cases a with
        | nil =>
          obtain ⟨rfl, rfl⟩ : c = '"' ∧ cs = b := by simpa using hab
          simpa using hc rfl
        | cons d a =>
          obtain ⟨rfl, rfl⟩ : c = d ∧ cs = a ++ '"' :: b := by simpa using hab
          simpa using h a b rfl
    rw [hcons, and_assoc, ← hnext, backslashes_concat, quotedFrom]
    by_cases hc : c = '\\'
    · subst hc
      have hflip : decide (Odd (backslashes before + 1)) = !decide (Odd (backslashes before)) := by
        rw [← decide_not]
        exact decide_eq_decide.mpr Nat.odd_add_one
      simp [hflip]
    · have hodd : (c ≠ '"' || decide (Odd (backslashes before))) = true ↔ (c = '"' → Odd (backslashes before)) := by
        simp [imp_iff_not_or]
      simp only [if_neg hc, Bool.and_eq_true, hodd]
      simp

theorem wellQuoted_iff_quotedFrom {cs : List Char} : WellQuoted cs ↔ quotedFrom false cs = true := by
  have h := quotedFrom_iff cs []
  simpa [WellQuoted, QuotesEscaped, backslashes] using h.symm

instance (cs : List Char) : Decidable (WellQuoted cs) := decidable_of_iff _ wellQuoted_iff_quotedFrom.symm

/-- A text is well quoted if and only if a parameter that starts with it ends right after it. -/
theorem wellQuoted_iff_readParameter? (rest : List Char) : ∀ cs : List Char,
    WellQuoted cs ↔ readParameter? (cs ++ '"' :: rest) = some (cs, rest) := by
  intro cs
  rw [wellQuoted_iff_quotedFrom]
  induction cs using readParameter?.induct with
  | case1 => simp [quotedFrom, readParameter?]
  | case2 cs => simp [quotedFrom, readParameter?]
  | case3 => cases rest <;> simp [quotedFrom, readParameter?]
  | case4 c cs ih => simp [quotedFrom, readParameter?, ih]
  | case5 c cs hquote hone hslash ih =>
    have hc : c ≠ '\\' := by
      rintro rfl
      cases cs with
      | nil => exact hone rfl rfl
      | cons d ds => exact hslash d ds rfl rfl
    have hq : c ≠ '"' := hquote
    simp [quotedFrom, readParameter?, hc, hq, ih]

theorem readParameter?_eq_some {cs text rest : List Char} (h : readParameter? cs = some (text, rest)) :
    cs = text ++ '"' :: rest := by
  fun_induction readParameter? cs generalizing text rest with
  | case1 => cases h
  | case2 cs =>
    cases h
    rfl
  | case3 => cases h
  | case4 c cs ih =>
    obtain ⟨⟨text', rest'⟩, h', heq⟩ := Option.map_eq_some_iff.mp h
    cases heq
    rw [ih h']
    rfl
  | case5 c cs hquote hone hslash ih =>
    obtain ⟨⟨text', rest'⟩, h', heq⟩ := Option.map_eq_some_iff.mp h
    cases heq
    rw [ih h']
    rfl

/-- A parameter has one end at most. -/
theorem wellQuoted_unique {text rest text' rest' : List Char} (h : WellQuoted text) (h' : WellQuoted text')
    (heq : text ++ '"' :: rest = text' ++ '"' :: rest') : text = text' ∧ rest = rest' := by
  rw [wellQuoted_iff_readParameter? rest] at h
  rw [wellQuoted_iff_readParameter? rest', ← heq, h] at h'
  simpa using h'

/-! ## Parts of parameters -/

theorem quotedFrom_append {escaped : Bool} {a : List Char} (b : List Char) (h : quotedFrom escaped a = true) :
    quotedFrom escaped (a ++ b) = quotedFrom false b := by
  induction a generalizing escaped with
  | nil =>
    obtain rfl : escaped = false := by simpa [quotedFrom] using h
    rfl
  | cons c a ih =>
    rw [List.cons_append, quotedFrom]
    rw [quotedFrom] at h
    split
    · rename_i hc
      exact ih (by simpa [hc] using h)
    · rename_i hc
      simp only [hc, if_false, Bool.and_eq_true] at h
      rw [h.1, Bool.true_and]
      exact ih h.2

/-- After a well-quoted text everything is read as if nothing stood before it. -/
theorem WellQuoted.append_iff {a b : List Char} (h : WellQuoted a) : WellQuoted (a ++ b) ↔ WellQuoted b := by
  rw [wellQuoted_iff_quotedFrom] at h
  rw [wellQuoted_iff_quotedFrom, wellQuoted_iff_quotedFrom, quotedFrom_append b h]

theorem quotedFrom_append_escaped (a b : List Char) : ∀ escaped : Bool,
    quotedFrom escaped (a ++ '\\' :: '"' :: b) = (quotedFrom escaped a && quotedFrom false b) := by
  induction a with
  | nil => simp [quotedFrom]
  | cons c a ih =>
    intro escaped
    rw [List.cons_append, quotedFrom, quotedFrom]
    split
    · exact ih _
    · rw [ih, Bool.and_assoc]

/-- An escaped quote shows whether the text before it is well quoted: its backslash must be the first one of a pair. -/
theorem wellQuoted_append_escaped_iff {a b : List Char} :
    WellQuoted (a ++ '\\' :: '"' :: b) ↔ WellQuoted a ∧ WellQuoted b := by
  simp [wellQuoted_iff_quotedFrom, quotedFrom_append_escaped]

theorem quotedFrom_keyChar (cs : List Char) : ∀ escaped : Bool,
    quotedFrom escaped (cs.flatMap keyChar) = quotedFrom escaped cs := by
  induction cs with
  | nil => simp
  | cons c cs ih =>
    intro escaped
    rw [List.flatMap_cons, keyChar]
    split
    · rename_i hc
      simp [quotedFrom, hc, ih]
    · simp [quotedFrom, ih]

/-- Quoting a key does not change whether it is well quoted. -/
theorem wellQuoted_key_iff (s : String) : WellQuoted (key s).toList ↔ WellQuoted s.toList := by
  simp [wellQuoted_iff_quotedFrom, key, substitute, quotedFrom_keyChar]

theorem quotedFrom_parameterChar (cs : List Char) : quotedFrom false (cs.flatMap parameterChar) = true := by
  induction cs with
  | nil => rfl
  | cons c cs ih =>
    rw [List.flatMap_cons, parameterChar]
    split_ifs with hslash hquote hbreak
    · simp [quotedFrom, ih]
    · simp [quotedFrom, ih]
    · simp [ih]
    · simp [quotedFrom, hslash, hquote, ih]

theorem wellQuoted_parameter (code : String) : WellQuoted (parameter code).toList := by
  simp [wellQuoted_iff_quotedFrom, parameter, substitute, quotedFrom_parameterChar]

theorem quotedFrom_neutralizeFrom (cs : List Char) : ∀ (escaped : Bool) (last : Option Char),
    quotedFrom escaped (neutralizeFrom last cs) = quotedFrom escaped cs := by
  induction cs with
  | nil => simp [neutralizeFrom]
  | cons c cs ih =>
    intro escaped last
    rw [neutralizeFrom]
    split_ifs with hcolon
    · simp only [Bool.and_eq_true, decide_eq_true_eq] at hcolon
      simp [quotedFrom, hcolon.1, ih]
    · simp [quotedFrom, ih]

/-! ## Literals -/

/-- A character that ends a line. -/
def isBreak (c : Char) : Bool := c = '\n' || c = '\r'

/-- A text without its line breaks. -/
def withoutBreaks (s : String) : String := String.ofList (s.toList.filter (!isBreak ·))

/-- Reads literals between single quotes that are joined by plus signs, after the first opening quote. A backslash
stands before the backslash or the quote that it denotes. No line break stands in a literal, and nothing but a further
literal follows one. -/
def readJoined? : List Char → Option (List Char)
  | [] => none
  | ['\x27'] => some []
  | '\x27' :: '+' :: '\x27' :: cs => readJoined? cs
  | '\\' :: c :: cs => if c = '\\' || c = '"' || c = '\x27' then (readJoined? cs).map (c :: ·) else none
  | c :: cs => if c = '\\' || c = '\x27' || isBreak c then none else (readJoined? cs).map (c :: ·)

/-- The text that literals between single quotes, joined by plus signs, stand for. -/
def readLiterals? (script : String) : Option String :=
  match script.toList with
  | '\x27' :: cs => (readJoined? cs).map String.ofList
  | _ => none

theorem readJoined?_plain {c : Char} (cs : List Char) (hslash : c ≠ '\\') (hquote : c ≠ '\x27')
    (hbreak : isBreak c = false) : readJoined? (c :: cs) = (readJoined? cs).map (c :: ·) := by
  rw [readJoined?]
  · simp [hslash, hquote, hbreak]
  all_goals simp_all

theorem neutralizeFrom_cons_of_ne {c : Char} (h : c ≠ ':') (last : Option Char) (cs : List Char) :
    neutralizeFrom last (c :: cs) = c :: neutralizeFrom (some c) cs := by
  simp [neutralizeFrom, h]

/-- No break that is put into a literal falls between a backslash and what it escapes, so every character is read as it
was before it was quoted. -/
theorem readJoined?_embedded (cs : List Char) : ∀ last : Option Char,
    readJoined? (neutralizeFrom last (cs.flatMap embeddedChar) ++ ['\x27']) = some (cs.filter (!isBreak ·)) := by
  induction cs with
  | nil => simp [neutralizeFrom, readJoined?]
  | cons c cs ih =>
    intro last
    rw [List.flatMap_cons, embeddedChar, parameterChar]
    split_ifs with hquote hslash hdouble hbreak
    · subst hquote
      simp [neutralizeFrom_cons_of_ne, readJoined?, ih, isBreak]
    · subst hslash
      simp [neutralizeFrom_cons_of_ne, readJoined?, ih, isBreak]
    · subst hdouble
      simp [neutralizeFrom_cons_of_ne, readJoined?, ih, isBreak]
    · rw [List.nil_append, ih, List.filter_cons_of_neg (by simp [isBreak, hbreak])]
    · have hkept : isBreak c = false := by simpa [isBreak] using hbreak
      rw [List.singleton_append, neutralizeFrom, List.filter_cons_of_pos (by simp [hkept])]
      split_ifs with hcolon
      · obtain rfl : c = ':' := by simp only [Bool.and_eq_true, decide_eq_true_eq] at hcolon; exact hcolon.1
        simp only [List.cons_append, List.nil_append, readJoined?]
        rw [readJoined?_plain _ hslash hquote hkept, ih]
        rfl
      · rw [List.append_assoc, List.singleton_append, readJoined?_plain _ hslash hquote hkept, ih]
        rfl

theorem embedded_pipe (text : String) :
    (embedded ("pipe " ++ text)).toList = neutralizeFrom none (text.toList.flatMap embeddedChar) := by
  have hword : withoutPipe ("pipe " ++ text).toList = text.toList := by simp [withoutPipe]
  rw [embedded, String.toList_ofList, hword]

/-- A pipeline between single quotes stands for its text without the name of the command and without line breaks. -/
theorem readLiterals?_embedded (text : String) :
    readLiterals? ("'" ++ embedded ("pipe " ++ text) ++ "'") = some (withoutBreaks text) := by
  have hread := readJoined?_embedded text.toList none
  rw [← embedded_pipe] at hread
  simp [readLiterals?, hread, withoutBreaks]

/-- A text in which no colon comes right after a character that the name of an option can end with. -/
def NoOptions (cs : List Char) : Prop :=
  ∀ before c after, cs = before ++ c :: ':' :: after → isOptionChar c = false

/-- The neighbours that a neutralized text can have. -/
theorem neutralizeFrom_isChain (cs : List Char) : ∀ last : Option Char,
    List.IsChain (fun c d => d = ':' → isOptionChar c = false) (last.toList ++ neutralizeFrom last cs) := by
  induction cs with
  | nil =>
    intro last
    cases last <;> simp [neutralizeFrom]
  | cons c cs ih =>
    intro last
    have hrest := ih (some c)
    rw [neutralizeFrom]
    split_ifs with hcolon
    · obtain rfl : c = ':' := by simp only [Bool.and_eq_true, decide_eq_true_eq] at hcolon; exact hcolon.1
      cases last <;> simpa [isOptionChar] using hrest
    · cases last with
      | none => exact hrest
      | some d =>
        have hd : c = ':' → isOptionChar d = false := by simpa using hcolon
        simpa using ⟨hd, hrest⟩

theorem noOptions_embedded (text : String) : NoOptions (embedded ("pipe " ++ text)).toList := by
  intro before c after h
  have hchain := neutralizeFrom_isChain (text.toList.flatMap embeddedChar) none
  rw [Option.toList_none, List.nil_append, ← embedded_pipe, h, List.isChain_append_cons_cons] at hchain
  exact hchain.2.1 rfl

theorem quotedFrom_embeddedChar (cs : List Char) : quotedFrom false (cs.flatMap embeddedChar) = true := by
  induction cs with
  | nil => rfl
  | cons c cs ih =>
    rw [List.flatMap_cons, embeddedChar]
    split_ifs with hquote
    · simp [quotedFrom, ih]
    · have hc := quotedFrom_parameterChar [c]
      rw [List.flatMap_cons, List.flatMap_nil, List.append_nil] at hc
      rw [quotedFrom_append _ hc, ih]

theorem wellQuoted_embedded (pipeline : String) : WellQuoted (embedded pipeline).toList := by
  rw [wellQuoted_iff_quotedFrom, embedded, String.toList_ofList, quotedFrom_neutralizeFrom, quotedFrom_embeddedChar]

end AliasLang.Command.Quoting
