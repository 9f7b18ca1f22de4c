/-
The preamble in front of a script. Its text is a row of lexemes, and the key prefix stands in it three times as a
literal. Whatever the prefix is, the scanner reads the preamble as those lexemes and has no bracket open behind it; so
what it reports stands behind the preamble.
-/
import AliasLang.Proofs.Script.Partition
import AliasLang.Proofs.Script.Remap

namespace AliasLang.Script

open Source (Position)

/-! ## Texts of lexemes -/

/-- A lexeme and the white space before it. -/
structure Lexeme where
  gap : List Char
  kind : Kind
  text : List Char

namespace Lexeme

/-- What is written. -/
def chars (x : Lexeme) : List Char := x.gap ++ x.text

/-- What is read, but for its place. -/
def token (x : Lexeme) : Token := ⟨x.kind, String.ofList x.text, .start, x.gap.contains '\n', false⟩

/-- In front of the text `rest` the lexeme is read as it is, whatever comes before it. -/
def ReadsBefore (x : Lexeme) (rest : List Char) : Prop :=
  ∃ c cs, x.text = c :: cs ∧ (∀ d ∈ x.gap, Text.isBlank d = true) ∧ Text.isBlank c = false ∧ c ≠ '/' ∧
    IsLexeme x.kind c cs ∧ Parted x.kind c cs rest ∧ runsOn x.kind c cs rest = false

end Lexeme

/-- What is written for some lexemes. -/
def charsOf (xs : List Lexeme) : List Char := xs.flatMap Lexeme.chars

/-- Lexemes that are read as they are in front of the text `rest`. -/
def Reads : List Lexeme → List Char → Prop
  | [], _ => True
  | x :: xs, rest => x.ReadsBefore (charsOf xs ++ rest) ∧ Reads xs rest

theorem Reads.append {xs ys : List Lexeme} {rest : List Char} (hxs : Reads xs (charsOf ys ++ rest))
    (hys : Reads ys rest) : Reads (xs ++ ys) rest := by
  induction xs with
  | nil => exact hys
  | cons x xs ih =>
    refine ⟨?_, ih hxs.2⟩
    have hx := hxs.1
    rwa [← List.append_assoc, charsOf, charsOf, ← List.flatMap_append] at hx

/-- What a token is, but for its place and the mark on the head of a statement. -/
def Token.marks (t : Token) : Kind × String × Bool := (t.kind, t.text, t.newlineBefore)

theorem gapLength_blank {gap cs : List Char} (hgap : ∀ d ∈ gap, Text.isBlank d = true) (hcs : startsGap cs = false)
    (read : Nat) : gapLength read .blank (gap ++ cs) = .ok gap.length := by
  induction gap generalizing read with
  | nil => exact gapLength_eq_zero hcs read
  | cons d gap ih =>
    rw [List.forall_mem_cons] at hgap
    rw [List.cons_append, gapLength.eq_def]
    simp only [hgap.1, if_true, ih hgap.2]
    rfl

/-- One lexeme is read, and the scanner goes on behind it. -/
theorem tokensFrom_lexeme {x : Lexeme} {rest after : List Char} {opened : List Opened} (hx : x.ReadsBefore rest)
    (hopen : openBy (opened.map Opened.bracket) x.token = some after) (last : Option Token) (p : Position) :
    ∃ t opened', t.marks = x.token.marks ∧ opened'.map Opened.bracket = after ∧
      tokensFrom last opened p (x.chars ++ rest) =
        (tokensFrom (some t) opened' (p.after x.chars) rest).map (t :: ·) := by
  obtain ⟨c, cs, htext, hgap, hblank, hslash, hlexeme, hparted, hruns⟩ := hx
  have hstart : startsGap (c :: (cs ++ rest)) = false := by simp [startsGap, hblank, hslash]
  have hread : lexeme last c (cs ++ rest) = .ok (x.kind, cs.length) :=
    (lexeme_eq_iff last hlexeme hparted).mpr ⟨misread_of_ne last hslash, hruns⟩
  obtain ⟨control, opened', htrack, hopened⟩ := (openBy_eq_some_iff last (p.after x.gap)).mp hopen
  let t : Token := { x.token with place := p.after x.gap, controlClose := control }
  have hchars : x.chars ++ rest = x.gap ++ c :: (cs ++ rest) := by rw [Lexeme.chars, htext, List.append_assoc]; rfl
  have htext' : t.text = String.ofList (c :: (cs ++ rest).take cs.length) := by
    rw [List.take_left, ← htext]
    rfl
  refine ⟨t, opened', rfl, hopened, ?_⟩
  rw [hchars, tokensFrom_cons (t := t) (gapLength_blank hgap hstart 0) List.drop_left hread htext'
    (by rw [List.take_left]) (by rw [List.take_left]; rfl) htrack, List.drop_left, Lexeme.chars, Position.after_append,
    show t.text.toList = x.text from String.toList_ofList]

/-- Lexemes are read one after another. -/
theorem tokensFrom_lexemes {xs : List Lexeme} {rest after : List Char} {opened : List Opened} (hxs : Reads xs rest)
    (hopen : openAfter (opened.map Opened.bracket) (xs.map Lexeme.token) = some after) (last : Option Token)
    (p : Position) :
    ∃ ts opened', ts.map Token.marks = xs.map (fun x => x.token.marks) ∧ opened'.map Opened.bracket = after ∧
      tokensFrom last opened p (charsOf xs ++ rest) =
        (tokensFrom (ts.getLast?.or last) opened' (p.after (charsOf xs)) rest).map (ts ++ ·) := by
  induction xs generalizing opened last p with
  | nil =>
    cases hopen
    refine ⟨[], opened, rfl, rfl, ?_⟩
    cases h : tokensFrom last opened p rest <;> simp [charsOf, h, Except.map]
  | cons x xs ih =>
    rw [List.map_cons, openAfter, Option.bind_eq_some_iff] at hopen
    obtain ⟨middle, hmiddle, hopen⟩ := hopen
    obtain ⟨t, opened₁, hmarks, rfl, hread⟩ := tokensFrom_lexeme hxs.1 hmiddle last p
    obtain ⟨ts, opened', hmarks', hopened, hreads⟩ := ih hxs.2 hopen (some t) (p.after x.chars)
    refine ⟨t :: ts, opened', by rw [List.map_cons, List.map_cons, hmarks, hmarks'], hopened, ?_⟩
    have hchars : charsOf (x :: xs) ++ rest = x.chars ++ (charsOf xs ++ rest) := by simp [charsOf]
    have hafter : p.after (charsOf (x :: xs)) = (p.after x.chars).after (charsOf xs) := by
      rw [← Position.after_append]
      simp [charsOf]
    have hlast : (t :: ts).getLast?.or last = ts.getLast?.or (some t) := by
      rw [List.getLast?_cons, Option.some_or]
      cases ts.getLast? <;> rfl
    rw [hchars, hread, hreads, hafter, hlast]
    cases tokensFrom (ts.getLast?.or (some t)) opened' ((p.after x.chars).after (charsOf xs)) rest <;> rfl

/-! ## Lexemes that can be looked through -/

/-- A word or punctuator that is read as it is before the character `next`. -/
def Lexeme.fits (x : Lexeme) (next : Char) : Bool :=
  match x.text with
  | [] => false
  | c :: cs =>
    let written := match x.kind with
      | .word => isWordStart c && cs.all isWordPart
      | .punctuator => (punctuators.map String.toList).contains (c :: cs)
      | _ => false
    x.gap.all Text.isBlank && !Text.isBlank c && !(c = '/') && written
      && !mustPart x.kind (cs.getLast?.getD c) next && !runsOn x.kind c cs [next]
      && !(c :: cs = ['.'] && next = '.')

/-- Words and punctuators that are read as they are before the character `next`. -/
def fitAll (next : Char) : List Lexeme → Bool
  | [] => true
  | x :: xs => x.fits ((charsOf xs).head?.getD next) && fitAll next xs

theorem Lexeme.readsBefore_of_fits {x : Lexeme} {next : Char} (h : x.fits next = true) (rest : List Char) :
    x.ReadsBefore (next :: rest) := by
  obtain ⟨gap, kind, text⟩ := x
  cases text with
  | nil => cases h
  | cons c cs =>
    simp only [fits, Bool.and_eq_true, Bool.not_eq_true', decide_eq_false_iff_not, List.all_eq_true] at h
    obtain ⟨⟨⟨⟨⟨⟨hgap, hblank⟩, hslash⟩, hwritten⟩, hpart⟩, hruns⟩, hpoint⟩ := h
    refine ⟨c, cs, rfl, hgap, hblank, hslash, ?_, ?_, ?_⟩
    · cases kind with
      | word =>
        simp only [Bool.and_eq_true, List.all_eq_true] at hwritten
        exact .word hwritten.1 hwritten.2
      | punctuator => exact .punctuator (mem_table.mp (List.contains_iff_mem.mp hwritten))
      | number | string | template | regex => cases hwritten
    · intro a ha d hd
      cases hd
      rw [List.getLast?_cons] at ha
      cases ha
      exact hpart
    · cases kind with
      | word => rfl
      | punctuator =>
        -- only a point looks at more than the next character, and it does so for a second point
        have hdots : ∀ after, (decide (c :: cs = ['.']) && ['.', '.'].isPrefixOf (next :: after)) = false := by
          intro after
          by_cases hc : c :: cs = ['.']
          · have hne : next ≠ '.' := by simpa [hc] using hpoint
            rw [List.isPrefixOf, beq_false_of_ne hne.symm, Bool.false_and, Bool.and_false]
          · rw [decide_eq_false hc, Bool.false_and]
        rw [runsOn, Bool.and_or_distrib_left, hdots] at hruns ⊢
        exact hruns
      | number | string | template | regex => cases hwritten

theorem reads_of_fitAll {next : Char} {xs : List Lexeme} (h : fitAll next xs = true) (rest : List Char) :
    Reads xs (next :: rest) := by
  induction xs with
  | nil => trivial
  | cons x xs ih =>
    simp only [fitAll, Bool.and_eq_true] at h
    refine ⟨?_, ih h.2⟩
    cases hchars : charsOf xs with
    | nil =>
      rw [hchars] at h
      exact x.readsBefore_of_fits h.1 rest
    | cons d cs =>
      rw [hchars] at h
      exact x.readsBefore_of_fits h.1 (cs ++ next :: rest)

/-! ## Literals -/

/-- The character that a backslash and `c` stand for in a literal of JavaScript. Escapes by number and line ends are
not looked at. -/
def escaped? (c : Char) : Option Char :=
  if c = 'n' then some '\n'
  else if c = 'r' then some '\r'
  else if c = 't' then some '\t'
  else if c = 'b' then some '\x08'
  else if c = 'v' then some '\x0b'
  else if c = 'f' then some '\x0c'
  else if c.isDigit || c = 'x' || c = 'u' || c = '\n' || c = '\r' || c = '\u2028' || c = '\u2029' then none
  else some c

/-- What a literal of JavaScript between double quotes stands for, from behind its first quote on. -/
def valueFrom? : List Char → Option (List Char)
  | [] => none
  | c :: cs =>
    if c = '"' then if cs = [] then some [] else none
    else if c = '\n' || c = '\r' then none
    else if c = '\\' then
      match cs with
      | [] => none
      | d :: cs => (escaped? d).bind fun e => (valueFrom? cs).map (e :: ·)
    else (valueFrom? cs).map (c :: ·)

/-- What a literal of JavaScript between double quotes stands for. -/
def literalValue? (text : String) : Option String :=
  match text.toList with
  | '"' :: cs => (valueFrom? cs).map String.ofList
  | _ => none

open Command.Quoting (literalChar literal)

theorem literalChar_cases (c : Char) :
    (∃ d, literalChar c = ['\\', d] ∧ escaped? d = some c) ∨
      literalChar c = [c] ∧ c ≠ '"' ∧ c ≠ '\\' ∧ c ≠ '\n' ∧ c ≠ '\r' := by
  unfold literalChar
  split
  · rename_i hc
    exact .inl ⟨'\\', rfl, by rw [hc]; rfl⟩
  split
  · rename_i hc
    exact .inl ⟨'"', rfl, by rw [hc]; rfl⟩
  split
  · rename_i hc
    exact .inl ⟨'n', rfl, by rw [hc]; rfl⟩
  split
  · rename_i hc
    exact .inl ⟨'r', rfl, by rw [hc]; rfl⟩
  · rename_i hslash hquote hfeed hreturn
    exact .inr ⟨rfl, hquote, hslash, hfeed, hreturn⟩

theorem valueFrom?_literal (cs : List Char) : valueFrom? (cs.flatMap literalChar ++ ['"']) = some cs := by
  induction cs with
  | nil => rfl
  | cons c cs ih =>
    rw [List.flatMap_cons, List.append_assoc]
    rcases literalChar_cases c with ⟨d, hc, hd⟩ | ⟨hc, hquote, hslash, hfeed, hreturn⟩
    · rw [hc, List.cons_append, List.cons_append, List.nil_append, valueFrom?, if_neg (by decide), if_neg (by decide),
        if_pos rfl, hd, ih]
      rfl
    · rw [hc, List.singleton_append, valueFrom?.eq_def]
      dsimp only
      rw [if_neg hquote, if_neg (by simp [hfeed, hreturn]), if_neg hslash, ih]
      rfl

theorem stringLength?_literal (cs : List Char) :
    stringLength? '"' (cs.flatMap literalChar ++ ['"']) = some (cs.flatMap literalChar ++ ['"']).length := by
  induction cs with
  | nil => rfl
  | cons c cs ih =>
    rw [List.flatMap_cons, List.append_assoc]
    rcases literalChar_cases c with ⟨d, hc, -⟩ | ⟨hc, hquote, hslash, hfeed, -⟩
    · rw [hc, List.cons_append, List.cons_append, List.nil_append, stringLength?, if_neg (by decide), if_pos rfl, ih]
      rfl
    · rw [hc, List.singleton_append, stringLength?.eq_def]
      dsimp only
      rw [if_neg hfeed, if_neg hslash, if_neg hquote, ih]
      rfl

/-- A literal between double quotes that stays on one line. -/
def quoted (value : String) : List Char := '"' :: (value.toList.flatMap literalChar ++ ['"'])

theorem literalValue?_quoted (value : String) : literalValue? (String.ofList (quoted value)) = some value := by
  rw [literalValue?, String.toList_ofList]
  show (valueFrom? (value.toList.flatMap literalChar ++ ['"'])).map String.ofList = some value
  rw [valueFrom?_literal, Option.map_some, String.ofList_toList]

/-- A literal is read as it is before any text. -/
theorem readsBefore_quoted {gap : List Char} (hgap : ∀ d ∈ gap, Text.isBlank d = true) (value : String)
    (rest : List Char) : (⟨gap, .string, quoted value⟩ : Lexeme).ReadsBefore rest := by
  refine ⟨'"', _, rfl, hgap, by decide, by decide, .string (.inl rfl) (stringLength?_literal value.toList), ?_, rfl⟩
  intro a ha d _
  rw [← List.cons_append, List.getLast?_concat] at ha
  cases ha
  have hquote : isWordPart '"' = false := by decide
  simp [mustPart, hquote]

/-! ## The preamble -/

namespace Lexeme

/-- A word right behind what comes before it. -/
def word (text : String) : Lexeme := ⟨[], .word, text.toList⟩

/-- A punctuator right behind what comes before it. -/
def punct (text : String) : Lexeme := ⟨[], .punctuator, text.toList⟩

/-- A word behind one character. -/
def wordAfter (c : Char) (text : String) : Lexeme := ⟨[c], .word, text.toList⟩

end Lexeme

open Lexeme (word punct wordAfter)

/-- The front of a helper function, up to the first word of its body. -/
def helperFront (gap : List Char) (name : String) (params : List Lexeme) : List Lexeme :=
  ⟨gap, .word, "function".toList⟩ :: wordAfter ' ' name :: punct "(" ::
    (params ++ [punct ")", punct "\x7b", word "return"])

/-- A call of a method of the store, up to the key prefix. -/
def storeCall (method : String) : List Lexeme := [wordAfter ' ' "customData", punct ".", word method, punct "("]

/-- The lexemes of the three helper functions: reading a key, storing under a key, and giving the prefix. -/
def helper (keyPrefix : String) : Fin 3 → List Lexeme
  | 0 => helperFront [] "getLocal" [word "key"] ++ storeCall "get" ++
      ⟨[], .string, quoted keyPrefix⟩ :: [punct "+", word "key", punct ")", punct "\x7d"]
  | 1 => helperFront ['\n'] "setLocal" [word "key", punct ",", word "value"] ++ storeCall "set" ++
      ⟨[], .string, quoted keyPrefix⟩ :: [punct "+", word "key", punct ",", word "value", punct ")", punct "\x7d"]
  | 2 => helperFront ['\n'] "getLocalPrefix" [] ++ ⟨[' '], .string, quoted keyPrefix⟩ :: [punct "\x7d"]

/-- The lexemes of the preamble. -/
def helpers (keyPrefix : String) : List Lexeme := helper keyPrefix 0 ++ (helper keyPrefix 1 ++ helper keyPrefix 2)

theorem mem_helpers {keyPrefix : String} {i : Fin 3} {x : Lexeme} (h : x ∈ helper keyPrefix i) :
    x ∈ helpers keyPrefix := by
  rw [helpers, List.mem_append, List.mem_append]
  match i with
  | 0 => exact .inl h
  | 1 => exact .inr (.inl h)
  | 2 => exact .inr (.inr h)

/-- What stands between the three literals of the preamble. -/
def betweenLiterals : Fin 4 → List Lexeme
  | 0 => helperFront [] "getLocal" [word "key"] ++ storeCall "get"
  | 1 => [punct "+", word "key", punct ")", punct "\x7d"] ++
      (helperFront ['\n'] "setLocal" [word "key", punct ",", word "value"] ++ storeCall "set")
  | 2 => [punct "+", word "key", punct ",", word "value", punct ")", punct "\x7d"] ++
      helperFront ['\n'] "getLocalPrefix" []
  | 3 => [punct "\x7d"]

theorem helpers_eq (keyPrefix : String) : helpers keyPrefix =
    betweenLiterals 0 ++ ⟨[], .string, quoted keyPrefix⟩ :: (betweenLiterals 1 ++ ⟨[], .string, quoted keyPrefix⟩ ::
      (betweenLiterals 2 ++ ⟨[' '], .string, quoted keyPrefix⟩ :: betweenLiterals 3)) := by
  simp only [helpers, helper, betweenLiterals, List.append_assoc, List.cons_append, List.nil_append]

theorem charsOf_append (xs ys : List Lexeme) : charsOf (xs ++ ys) = charsOf xs ++ charsOf ys := List.flatMap_append

theorem charsOf_cons (x : Lexeme) (xs : List Lexeme) : charsOf (x :: xs) = x.gap ++ (x.text ++ charsOf xs) := by
  rw [charsOf, List.flatMap_cons, Lexeme.chars, List.append_assoc]
  rfl

theorem toList_preamble (keyPrefix : String) :
    (preamble keyPrefix).toList = charsOf (helpers keyPrefix) ++ ['\n'] := by
  have hquoted : ("\"" ++ literal keyPrefix ++ "\"").toList = quoted keyPrefix := by
    simp [quoted, literal, Command.Quoting.substitute]
  have h0 : "function getLocal(key)\x7breturn customData.get(".toList = charsOf (betweenLiterals 0) := by decide
  have h1 : "+key)\x7d\n".toList ++ "function setLocal(key,value)\x7breturn customData.set(".toList =
      charsOf (betweenLiterals 1) := by decide
  have h2 : "+key,value)\x7d\n".toList ++ "function getLocalPrefix()\x7breturn ".toList =
      charsOf (betweenLiterals 2) ++ [' '] := by decide
  have h3 : "\x7d\n".toList = charsOf (betweenLiterals 3) ++ ['\n'] := by decide
  have hparts : (preamble keyPrefix).toList = "function getLocal(key)\x7breturn customData.get(".toList ++
      (quoted keyPrefix ++ (("+key)\x7d\n".toList ++ "function setLocal(key,value)\x7breturn customData.set(".toList) ++
      (quoted keyPrefix ++ (("+key,value)\x7d\n".toList ++ "function getLocalPrefix()\x7breturn ".toList) ++
      (quoted keyPrefix ++ "\x7d\n".toList))))) := by
    unfold preamble
    generalize "\"" ++ literal keyPrefix ++ "\"" = q at hquoted ⊢
    simp only [String.toList_append, hquoted, List.append_assoc]
  rw [hparts, h0, h1, h2, h3, helpers_eq]
  simp only [charsOf_append, charsOf_cons, List.append_assoc, List.nil_append, List.cons_append]

theorem reads_before_literal {next : Char} {gap rest : List Char} {xs ys : List Lexeme} (keyPrefix : String)
    (hgap : ∀ d ∈ gap, Text.isBlank d = true) (hnext : (gap ++ ['"']).head? = some next)
    (hxs : fitAll next xs = true) (hys : Reads ys rest) :
    Reads (xs ++ ⟨gap, .string, quoted keyPrefix⟩ :: ys) rest := by
  have hchars : ∃ cs, charsOf (⟨gap, .string, quoted keyPrefix⟩ :: ys) ++ rest = next :: cs := by
    rw [charsOf_cons]
    cases gap with
    | nil =>
      cases hnext
      exact ⟨_, rfl⟩
    | cons d gap =>
      cases hnext
      exact ⟨_, rfl⟩
  obtain ⟨cs, hcs⟩ := hchars
  refine Reads.append ?_ ⟨readsBefore_quoted hgap keyPrefix _, hys⟩
  rw [hcs]
  exact reads_of_fitAll hxs cs

theorem reads_helpers (keyPrefix : String) (rest : List Char) : Reads (helpers keyPrefix) ('\n' :: rest) := by
  have hnone : ∀ d ∈ ([] : List Char), Text.isBlank d = true := by simp
  have hspace : ∀ d ∈ [' '], Text.isBlank d = true := by
    intro d hd
    obtain rfl := List.mem_singleton.mp hd
    decide
  have fit0 : fitAll '"' (betweenLiterals 0) = true := by decide
  have fit1 : fitAll '"' (betweenLiterals 1) = true := by decide
  have fit2 : fitAll ' ' (betweenLiterals 2) = true := by decide
  have fit3 : fitAll '\n' (betweenLiterals 3) = true := by decide
  rw [helpers_eq]
  exact reads_before_literal keyPrefix hnone rfl fit0 (reads_before_literal keyPrefix hnone rfl fit1
    (reads_before_literal keyPrefix hspace rfl fit2 (reads_of_fitAll fit3 rest)))

theorem nested_helpers (keyPrefix : String) : Nested ((helpers keyPrefix).map Lexeme.token) := by
  have hliteral : ∀ (gap : List Char) (opened : List Char) (ts : List Token),
      openAfter opened (Lexeme.token ⟨gap, .string, quoted keyPrefix⟩ :: ts) = openAfter opened ts :=
    fun gap opened ts => openAfter_nested (Nested.plain rfl) opened ts
  have open0 : openAfter [] ((betweenLiterals 0).map Lexeme.token) = some ['(', '\x7b'] := by decide
  have open1 : openAfter ['(', '\x7b'] ((betweenLiterals 1).map Lexeme.token) = some ['(', '\x7b'] := by decide
  have open2 : openAfter ['(', '\x7b'] ((betweenLiterals 2).map Lexeme.token) = some ['\x7b'] := by decide
  have open3 : openAfter ['\x7b'] ((betweenLiterals 3).map Lexeme.token) = some [] := by decide
  rw [Nested, helpers_eq, List.map_append, openAfter_append, open0, Option.bind_some, List.map_cons, hliteral,
    List.map_append, openAfter_append, open1, Option.bind_some, List.map_cons, hliteral,
    List.map_append, openAfter_append, open2, Option.bind_some, List.map_cons, hliteral, open3]

/-- The words of the helper functions. -/
def helperWords : List String :=
  ["function", "getLocal", "key", "return", "customData", "get", "setLocal", "value", "set", "getLocalPrefix"]

theorem mem_helperWords {keyPrefix : String} {x : Lexeme} (hx : x ∈ helpers keyPrefix) (hword : x.kind = .word) :
    String.ofList x.text ∈ helperWords := by
  have hbetween : ∀ i, ∀ x ∈ betweenLiterals i, x.kind = .word → String.ofList x.text ∈ helperWords := by decide
  rw [helpers_eq] at hx
  simp only [List.mem_append, List.mem_cons] at hx
  obtain hx | rfl | hx | rfl | hx | rfl | hx := hx
  · exact hbetween 0 x hx hword
  · cases hword
  · exact hbetween 1 x hx hword
  · cases hword
  · exact hbetween 2 x hx hword
  · cases hword
  · exact hbetween 3 x hx hword

/-! ## Scripts behind the preamble -/

/-- Behind the preamble a script is read with no bracket open. -/
theorem tokenize_behind_preamble (keyPrefix script : String) :
    ∃ ts, ts.map Token.marks = (helpers keyPrefix).map (fun x => x.token.marks) ∧
      tokenize (preamble keyPrefix ++ script) =
        (tokensFrom ts.getLast? [] (Position.start.after (charsOf (helpers keyPrefix))) ('\n' :: script.toList)).map
          (ts ++ ·) := by
  have hnested : openAfter (([] : List Opened).map Opened.bracket) ((helpers keyPrefix).map Lexeme.token) = some [] :=
    nested_helpers keyPrefix
  obtain ⟨ts, opened, hmarks, hopened, hread⟩ :=
    tokensFrom_lexemes (reads_helpers keyPrefix script.toList) hnested none .start
  obtain rfl := List.map_eq_nil_iff.mp hopened
  rw [Option.or_none] at hread
  refine ⟨ts, hmarks, ?_⟩
  rw [tokenize, String.toList_append, toList_preamble, List.append_assoc]
  exact hread

theorem mem_evalWarnings {script : String} {last : Option Token} {ts : List Token} {d : Diagnostic}
    (h : d ∈ evalWarnings script last ts) :
    ∃ t ∈ ts, t.isWord "eval" = true ∧ d = remark script .warning d.message t.place := by
  induction ts generalizing last with
  | nil => cases h
  | cons t ts ih =>
    rw [evalWarnings] at h
    split at h
    · rename_i heval
      rw [Bool.and_eq_true] at heval
      rcases List.mem_cons.mp h with rfl | h
      · exact ⟨t, List.mem_cons_self, heval.1, rfl⟩
      · obtain ⟨u, hu, h⟩ := ih h
        exact ⟨u, List.mem_cons_of_mem t hu, h⟩
    · obtain ⟨u, hu, h⟩ := ih h
      exact ⟨u, List.mem_cons_of_mem t hu, h⟩

theorem mem_helperWords_of_marks {keyPrefix : String} {hs : List Token}
    (hmarks : hs.map Token.marks = (helpers keyPrefix).map fun x => x.token.marks) {t : Token} (ht : t ∈ hs)
    (hword : t.kind = .word) : t.text ∈ helperWords := by
  obtain ⟨x, hx, hmark⟩ : ∃ x ∈ helpers keyPrefix, x.token.marks = t.marks := by
    have hmem := List.mem_map_of_mem (f := Token.marks) ht
    rw [hmarks] at hmem
    exact List.mem_map.mp hmem
  obtain ⟨hkind, htext, -⟩ : x.kind = t.kind ∧ String.ofList x.text = t.text ∧ _ := by
    simpa [Token.marks, Lexeme.token] using hmark
  rw [← htext]
  exact mem_helperWords hx (hkind.trans hword)

theorem helper_ne_eval {keyPrefix : String} {ts : List Token}
    (hmarks : ts.map Token.marks = (helpers keyPrefix).map fun x => x.token.marks) {t : Token} (ht : t ∈ ts) :
    t.isWord "eval" = false := by
  by_contra heval
  obtain ⟨hword, hname⟩ : t.kind = .word ∧ t.text = "eval" := by simpa [Token.isWord] using heval
  have hmem := mem_helperWords_of_marks hmarks ht hword
  rw [hname] at hmem
  revert hmem
  decide

/-- A place behind the line feed that ends the preamble is a place of the script. -/
theorem place_behind_preamble (keyPrefix : String) {script : String} {k : Nat}
    (hk : StandsAt ('\n' :: script.toList) k) :
    ∃ j, StandsAt script.toList j ∧
      (Position.start.after (charsOf (helpers keyPrefix))).after (('\n' :: script.toList).take k) =
        Position.start.after ((preamble keyPrefix).toList ++ script.toList.take j) := by
  obtain ⟨c, hc, hblank⟩ := hk
  cases k with
  | zero =>
    cases hc
    cases hblank
  | succ j =>
    refine ⟨j, ⟨c, by simpa using hc, hblank⟩, ?_⟩
    rw [← Position.after_append, List.take_succ_cons, toList_preamble, List.append_assoc]
    rfl

/-- Each remark on a script behind the preamble stands at a character of the script. -/
theorem remark_behind_preamble {options : Options} {keyPrefix script : String} {d : Diagnostic}
    (hd : d ∈ (minify options (preamble keyPrefix ++ script)).diagnostics) :
    ∃ k, StandsAt script.toList k ∧ d = remark (preamble keyPrefix ++ script) d.severity d.message
      (Position.start.after ((preamble keyPrefix).toList ++ script.toList.take k)) := by
  obtain ⟨ts, hmarks, hread⟩ := tokenize_behind_preamble keyPrefix script
  rw [minify, hread] at hd
  cases hrest : tokensFrom ts.getLast? [] (Position.start.after (charsOf (helpers keyPrefix)))
      ('\n' :: script.toList) with
  | error e =>
    rw [hrest] at hd
    obtain rfl := List.mem_singleton.mp hd
    obtain ⟨o, ho, -⟩ | ⟨k, hk, hplace⟩ := tokensFrom_error hrest
    · cases ho
    obtain ⟨j, hj, hafter⟩ := place_behind_preamble keyPrefix hk
    exact ⟨j, hj, by rw [← hafter, ← hplace]; rfl⟩
  | ok us =>
    rw [hrest] at hd
    obtain ⟨t, ht, heval, hd⟩ := mem_evalWarnings hd
    rcases List.mem_append.mp ht with ht | ht
    · rw [helper_ne_eval hmarks ht] at heval
      cases heval
    obtain ⟨k, hk, hplace⟩ := tokensFrom_place hrest t ht
    obtain ⟨j, hj, hafter⟩ := place_behind_preamble keyPrefix hk
    refine ⟨j, hj, ?_⟩
    rw [← hafter, ← hplace]
    generalize d.message = m at hd
    rw [hd]
    rfl

/-- A remark on a script behind the preamble is on a line behind its three. -/
theorem line_behind_preamble {options : Options} {keyPrefix script : String} {d : Diagnostic}
    (hd : d ∈ (minify options (preamble keyPrefix ++ script)).diagnostics) : preambleLines < d.line := by
  obtain ⟨k, -, hd⟩ := remark_behind_preamble hd
  have hbreaks : (preamble keyPrefix).toList.count '\n' = preambleLines := lineBreaks_preamble keyPrefix
  rw [hd, remark, Position.after_line, List.count_append, hbreaks]
  dsimp only
  omega

theorem length_lines_preamble (keyPrefix : String) : (Text.lines (preamble keyPrefix)).length = preambleLines := by
  rw [Text.length_lines (getLast?_preamble keyPrefix)]
  exact lineBreaks_preamble keyPrefix

theorem tokenize_preamble (keyPrefix : String) :
    ∃ ts, tokenize (preamble keyPrefix) = .ok ts ∧
      ts.map Token.marks = (helpers keyPrefix).map fun x => x.token.marks := by
  obtain ⟨ts, hmarks, hread⟩ := tokenize_behind_preamble keyPrefix ""
  have hgap : gapLength 0 .blank ['\n'] = .ok 1 := by decide
  rw [String.append_empty, show ("" : String).toList = [] from rfl, tokensFrom_done hgap rfl] at hread
  refine ⟨ts, ?_, hmarks⟩
  rw [hread]
  exact congrArg Except.ok (List.append_nil ts)

/-- The literals of the preamble stand for the key prefix. -/
theorem literals_preamble {keyPrefix : String} {ts : List Token}
    (hmarks : ts.map Token.marks = (helpers keyPrefix).map fun x => x.token.marks) :
    (ts.filter (·.kind = .string)).map (fun t => literalValue? t.text) =
      [some keyPrefix, some keyPrefix, some keyPrefix] := by
  have hbetween : ∀ i, (betweenLiterals i).filter (·.kind = .string) = [] := by decide
  have hts : (ts.filter (·.kind = .string)).map (fun t => literalValue? t.text) =
      ((ts.map Token.marks).filter (·.1 = .string)).map fun m => literalValue? m.2.1 := by
    rw [List.filter_map, List.map_map]
    rfl
  have hxs : (((helpers keyPrefix).map fun x => x.token.marks).filter (·.1 = .string)).map
      (fun m => literalValue? m.2.1) =
        ((helpers keyPrefix).filter (·.kind = .string)).map fun x => literalValue? (String.ofList x.text) := by
    rw [List.filter_map, List.map_map]
    rfl
  rw [hts, hmarks, hxs, helpers_eq]
  simp only [List.filter_append, List.filter_cons, hbetween, decide_true, if_true, List.nil_append, List.map_cons,
    List.map_nil, literalValue?_quoted]

end AliasLang.Script
