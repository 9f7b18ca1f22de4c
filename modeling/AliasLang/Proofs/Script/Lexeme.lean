/-
Lexemes of scripts, apart from the script they were read from. `IsLexeme` says how the lexemes of each kind are written.
What the scanner reads is so written, and it reads such a text again unless what follows goes on with it, or unless it
starts with a slash that is now taken for the other kind of slash. `lexeme_eq_iff` is exact about that.
-/
import AliasLang.Proofs.Token.Lexeme
import AliasLang.Script.Minify

namespace AliasLang.Script

open AliasLang.Token (map_eq_ok)

/-! ## Quoted lexemes -/

theorem head?_take_append {cs : List Char} {n : Nat} (hpos : 0 < n) (hle : n ≤ cs.length) (rest : List Char) :
    (cs.take n ++ rest).head? = cs.head? := by
  cases cs with
  | nil =>
    rw [List.length_nil] at hle
    omega
  | cons c cs =>
    obtain ⟨m, rfl⟩ : ∃ m, n = m + 1 := ⟨n - 1, by omega⟩
    rfl

/-- A string literal ends where it ends, whatever follows it. -/
theorem stringLength?_take {quote : Char} {cs : List Char} {n : Nat} (h : stringLength? quote cs = some n) :
    n ≤ cs.length ∧ ∀ rest, stringLength? quote (cs.take n ++ rest) = some n := by
  fun_induction stringLength? quote cs generalizing n with
  | case1 | case2 | case3 => cases h
  | case5 =>
    cases h
    refine ⟨by simp, fun rest => ?_⟩
    rw [List.take_succ_cons, List.cons_append, stringLength?.eq_def]
    simp_all
  | case4 | case6 =>
    rename_i ih
    obtain ⟨m, hm, rfl⟩ := Option.map_eq_some_iff.mp h
    obtain ⟨hle, hagain⟩ := ih hm
    refine ⟨by simpa using hle, fun rest => ?_⟩
    simp only [List.take_succ_cons, List.cons_append]
    rw [stringLength?.eq_def]
    simp_all

/-- So does a template literal, from every part of it on. -/
theorem templateLength_take {read : Nat} {part : TemplatePart} {outer : List (Nat × Nat)} {cs : List Char} {n : Nat}
    (h : templateLength read part outer cs = .ok n) :
    0 < n ∧ n ≤ cs.length ∧ ∀ rest, templateLength read part outer (cs.take n ++ rest) = .ok n := by
  fun_induction templateLength read part outer cs generalizing n with
  | case1 | case2 | case6 | case14 | case15 => cases h
  | case4 =>
    cases h
    refine ⟨Nat.one_pos, by simp, fun rest => ?_⟩
    rw [List.take_succ_cons, List.cons_append, templateLength.eq_def]
    rfl
  | case10 read outer rest start depth part =>
    rename_i ih
    obtain ⟨m, hm, rfl⟩ := map_eq_ok h
    obtain ⟨hpos, hle, hagain⟩ := ih hm
    refine ⟨Nat.succ_pos _, by simpa using hle, fun after => ?_⟩
    rw [List.take_succ_cons, List.cons_append, templateLength.eq_def]
    show (templateLength (read + 1) part outer (rest.take m ++ after)).map (· + 1) = .ok (m + 1)
    rw [hagain]
    rfl
  | case3 | case5 | case7 | case8 | case9 | case11 | case12 | case13 | case16 | case17 | case18 =>
    rename_i ih
    obtain ⟨m, hm, rfl⟩ := map_eq_ok h
    obtain ⟨hpos, hle, hagain⟩ := ih hm
    -- a dollar sign is followed by the same character as before
    have hhead := fun rest => head?_take_append hpos hle rest
    refine ⟨Nat.succ_pos _, by simpa using hle, fun rest => ?_⟩
    simp only [List.take_succ_cons, List.cons_append]
    rw [templateLength.eq_def]
    simp_all [Except.map]

/-- A character that does not go on with the flags of a regular expression, or with a word. -/
def EndsWord (rest : List Char) : Prop := ∀ d ∈ rest.head?, isWordPart d = false

theorem length_takeWhile_take (cs : List Char) {rest : List Char} (hrest : EndsWord rest) :
    ((cs.take (cs.takeWhile isWordPart).length ++ rest).takeWhile isWordPart).length
      = (cs.takeWhile isWordPart).length := by
  induction cs with
  | nil =>
    cases rest with
    | nil => rfl
    | cons d rest => simp [hrest d rfl]
  | cons c cs ih =>
    by_cases hc : isWordPart c = true
    · simp [hc, ih]
    · cases rest with
      | nil => simp [hc]
      | cons d rest => simp [hc, hrest d rfl]

/-- A regular expression ends where it ends when no word goes on there. -/
theorem regexLength?_take {inClass : Bool} {cs : List Char} {n : Nat} (h : regexLength? inClass cs = some n) :
    0 < n ∧ n ≤ cs.length ∧ ∀ rest, EndsWord rest → regexLength? inClass (cs.take n ++ rest) = some n := by
  fun_induction regexLength? inClass cs generalizing n with
  | case1 | case2 | case3 | case4 => cases h
  | case8 inClass c cs =>
    cases h
    refine ⟨Nat.succ_pos _, ?_, fun rest hrest => ?_⟩
    · have hle := (List.takeWhile_sublist isWordPart (l := cs)).length_le
      simpa using hle
    · rw [List.take_succ_cons, List.cons_append, regexLength?.eq_def]
      simp_all [length_takeWhile_take]
  | case5 | case6 | case7 | case9 =>
    rename_i ih
    obtain ⟨m, hm, rfl⟩ := Option.map_eq_some_iff.mp h
    obtain ⟨hpos, hle, hagain⟩ := ih hm
    refine ⟨Nat.succ_pos _, by simpa using hle, fun rest hrest => ?_⟩
    have hagain := hagain rest hrest
    simp only [List.take_succ_cons, List.cons_append]
    rw [regexLength?.eq_def]
    simp_all

/-! ## Numbers -/

/-- A number starts with `c` and goes on in `cs`. -/
def startsNumber (c : Char) (cs : List Char) : Bool := c.isDigit || (c = '.' && cs.head?.any Char.isDigit)

/-- The mark of a hexadecimal numeral. -/
def marksHexadecimal (c : Char) (cs : List Char) : Bool := c = '0' && (cs.head? = some 'x' || cs.head? = some 'X')

/-- A sign right after the numeral `c :: cs` belongs to it. -/
def takesSign (c : Char) (cs : List Char) : Bool :=
  !marksHexadecimal c cs && ((c :: cs).getLast? = some 'e' || (c :: cs).getLast? = some 'E')

theorem numberLength_le (hexadecimal : Bool) (last : Char) (cs : List Char) :
    numberLength hexadecimal last cs ≤ cs.length := by
  fun_induction numberLength hexadecimal last cs with
  | case1 | case4 => simp
  | case2 | case3 =>
    rename_i ih
    simpa using ih

theorem numberLength_take (hexadecimal : Bool) (last : Char) (cs : List Char) :
    numberLength hexadecimal last (cs.take (numberLength hexadecimal last cs)) = numberLength hexadecimal last cs := by
  fun_induction numberLength hexadecimal last cs with
  | case1 | case4 => rfl
  | case2 | case3 =>
    rename_i ih
    rw [List.take_succ_cons, numberLength]
    simp_all

/-- After a whole numeral, its last character decides what goes on with it. -/
theorem numberLength_append {hexadecimal : Bool} {last : Char} {cs : List Char}
    (h : numberLength hexadecimal last cs = cs.length) (rest : List Char) :
    numberLength hexadecimal last (cs ++ rest)
      = cs.length + numberLength hexadecimal (cs.getLast?.getD last) rest := by
  fun_induction numberLength hexadecimal last cs with
  | case1 => simp
  | case2 | case3 =>
    rename_i c cs _ ih
    rw [List.length_cons, Nat.add_right_cancel_iff] at h
    rw [List.cons_append, numberLength, ih h, List.getLast?_cons, Option.getD_some, List.length_cons]
    simp_all
    omega
  | case4 => simp at h

theorem numberLength_eq_zero_iff {hexadecimal : Bool} {last : Char} {rest : List Char} :
    numberLength hexadecimal last rest = 0 ↔ rest.head?.any (fun d => d.isAlphanum || d = '_' || d = '.'
      || ((d = '+' || d = '-') && (!hexadecimal && (last = 'e' || last = 'E')))) = false := by
  cases rest with
  | nil => simp [numberLength]
  | cons d rest =>
    rw [numberLength, List.head?_cons, Option.any_some, ← Bool.and_assoc]
    cases (d.isAlphanum || d = '_' || d = '.') with
    | true => simp
    | false => cases ((d = '+' || d = '-') && !hexadecimal && (last = 'e' || last = 'E')) <;> simp

theorem head?_take_numberLength {hexadecimal : Bool} {last d : Char} {cs : List Char} (hd : d.isAlphanum = true)
    (h : cs.head? = some d) : (cs.take (numberLength hexadecimal last cs)).head? = some d := by
  obtain ⟨tail, rfl⟩ := List.head?_eq_some_iff.mp h
  simp [numberLength, hd]

theorem head?_of_head?_take {cs : List Char} {n : Nat} {d : Char} (h : (cs.take n).head? = some d) :
    cs.head? = some d := by
  cases cs with
  | nil => simp at h
  | cons c cs =>
    cases n with
    | zero => simp at h
    | succ n => exact h

/-- A numeral is marked as hexadecimal by characters of its own. -/
theorem marksHexadecimal_take (hexadecimal : Bool) (c : Char) (cs : List Char) :
    marksHexadecimal c (cs.take (numberLength hexadecimal c cs)) = marksHexadecimal c cs := by
  have hiff : ∀ d : Char, d.isAlphanum = true →
      ((cs.take (numberLength hexadecimal c cs)).head? = some d ↔ cs.head? = some d) := fun d hd =>
    ⟨head?_of_head?_take, head?_take_numberLength hd⟩
  simp [marksHexadecimal, hiff 'x' (by decide), hiff 'X' (by decide)]

theorem startsNumber_take {hexadecimal : Bool} {c : Char} {cs : List Char} (h : startsNumber c cs = true) :
    startsNumber c (cs.take (numberLength hexadecimal c cs)) = true := by
  simp only [startsNumber, Bool.or_eq_true, Bool.and_eq_true] at h ⊢
  rcases h with h | ⟨hdot, hdigit⟩
  · exact .inl h
  · cases hhead : cs.head? with
    | none => simp [hhead] at hdigit
    | some d =>
      have hd : d.isDigit = true := by simpa [hhead] using hdigit
      rw [head?_take_numberLength (by simp [Char.isAlphanum, hd]) hhead]
      exact .inr ⟨hdot, hd⟩

/-! ## Punctuators -/

/-- A punctuator starts no later one. -/
theorem punctuators_pairwise : (punctuators.map String.toList).Pairwise fun p q => ¬p <+: q := by decide

/-- Each punctuator but the ellipsis has all its beginnings in the table. -/
theorem punctuators_beginnings : ∀ p ∈ punctuators.map String.toList, ∀ q ∈ punctuators.map String.toList,
    p.isPrefixOf q = true → p ≠ q →
      q.take (p.length + 1) ∈ punctuators.map String.toList ∨ (p = ['.'] ∧ q = ['.', '.', '.']) := by
  decide +kernel

theorem punctuators_ne_nil : ∀ p ∈ punctuators, p.toList ≠ [] := by decide

theorem punctuators_point : ∀ p ∈ punctuators.map String.toList, p.head? = some '.' →
    p = ['.'] ∨ p = ['.', '.', '.'] := by
  decide

theorem punctuators_start : ∀ p ∈ punctuators.map String.toList, ∀ c ∈ p.head?,
    c ≠ '"' ∧ c ≠ '\x27' ∧ c ≠ '`' ∧ c.isDigit = false ∧ isWordStart c = false := by
  -- the test as a Boolean: the table of letters is too long for a proposition at each punctuator
  have htable : ((punctuators.map String.toList).all fun p => p.head?.all fun c =>
      !(c = '"' || c = '\x27' || c = '`' || c.isDigit || isWordStart c)) = true := by decide
  intro p hp c hc
  have hp := List.all_eq_true.mp htable p hp
  rw [hc] at hp
  simpa [and_assoc] using hp

/-- The first punctuator of the table that a text starts with. -/
def punctuatorAt? (cs : List Char) : Option String := punctuators.find? fun p => p.toList.isPrefixOf cs

/-- Of two punctuators that a text starts with, the longer one comes first in the table. -/
theorem punctuatorAt?_ne {p q rest : List Char} (hq : String.ofList q ∈ punctuators) (hpq : p <+: q) (hne : p ≠ q)
    (hrest : q <+: p ++ rest) : punctuatorAt? (p ++ rest) ≠ some (String.ofList p) := by
  intro hfind
  obtain ⟨-, front, back, htable, hfront⟩ := List.find?_eq_some_iff_append.mp hfind
  rw [htable, List.mem_append, List.mem_cons] at hq
  rcases hq with hq | hq | hq
  · have hno := hfront _ hq
    rw [String.toList_ofList, List.isPrefixOf_iff_prefix.mpr hrest] at hno
    cases hno
  · exact hne (String.ofList_injective hq).symm
  · have hpairs := punctuators_pairwise
    rw [htable, List.map_append, List.map_cons, List.pairwise_append, List.pairwise_cons] at hpairs
    have hno := hpairs.2.1.1 q (List.mem_map.mpr ⟨_, hq, String.toList_ofList⟩)
    rw [String.toList_ofList] at hno
    exact hno hpq

theorem toList_mem_table {p : String} : p.toList ∈ punctuators.map String.toList ↔ p ∈ punctuators := by
  refine ⟨fun h => ?_, fun h => List.mem_map_of_mem h⟩
  obtain ⟨q, hq, heq⟩ := List.mem_map.mp h
  rwa [← String.toList_injective heq]

theorem mem_table {p : List Char} : p ∈ punctuators.map String.toList ↔ String.ofList p ∈ punctuators := by
  rw [← toList_mem_table, String.toList_ofList]

/-- A punctuator is read again unless the next character makes it a longer one, or it is the first point of three. -/
theorem punctuatorAt?_iff {p rest : List Char} (hp : String.ofList p ∈ punctuators) :
    punctuatorAt? (p ++ rest) = some (String.ofList p) ↔
      (∀ d ∈ rest.head?, String.ofList (p ++ [d]) ∉ punctuators) ∧ ¬(p = ['.'] ∧ ['.', '.'] <+: rest) := by
  constructor
  · intro hfind
    refine ⟨fun d hd hmem => ?_, fun ⟨hdot, htwo⟩ => ?_⟩
    · obtain ⟨tail, rfl⟩ := List.head?_eq_some_iff.mp hd
      have hlonger : p ++ [d] <+: p ++ d :: tail := ⟨tail, by simp⟩
      exact punctuatorAt?_ne hmem (List.prefix_append _ _) (by simp) hlonger hfind
    · subst hdot
      have hthree : ['.', '.', '.'] <+: ['.'] ++ rest := List.cons_prefix_cons.mpr ⟨rfl, htwo⟩
      exact punctuatorAt?_ne (by decide) (List.prefix_append ['.'] ['.', '.']) (by decide) hthree hfind
  · rintro ⟨hlonger, hthree⟩
    cases hfind : punctuatorAt? (p ++ rest) with
    | none =>
      have hno := List.find?_eq_none.mp hfind _ hp
      simp at hno
    | some q =>
      obtain ⟨hq, front, back, htable, hfront⟩ := List.find?_eq_some_iff_append.mp hfind
      have hqrest : q.toList <+: p ++ rest := List.isPrefixOf_iff_prefix.mp hq
      have hqmem : q ∈ punctuators := List.mem_of_find?_eq_some hfind
      rcases List.prefix_or_prefix_of_prefix hqrest (List.prefix_append p rest) with hqp | hpq
      · -- a punctuator that `p` starts with does not come before `p`
        rw [htable, List.mem_append, List.mem_cons] at hp
        rcases hp with hp | hp | hp
        · have hno := hfront _ hp
          rw [String.toList_ofList, List.isPrefixOf_iff_prefix.mpr (List.prefix_append p rest)] at hno
          cases hno
        · rw [hp]
        · have hpairs := punctuators_pairwise
          rw [htable, List.map_append, List.map_cons, List.pairwise_append, List.pairwise_cons] at hpairs
          have hno := hpairs.2.1.1 p (List.mem_map.mpr ⟨_, hp, String.toList_ofList⟩)
          exact absurd hqp hno
      · by_cases hsame : p = q.toList
        · rw [hsame, String.ofList_toList]
        · obtain ⟨tail, htail⟩ := hpq
          rw [← htail, List.prefix_append_right_inj] at hqrest
          have hbegin := punctuators_beginnings p (mem_table.mpr hp) q.toList (toList_mem_table.mpr hqmem)
            (List.isPrefixOf_iff_prefix.mpr ⟨tail, htail⟩) hsame
          cases tail with
          | nil => exact absurd (by simpa using htail) hsame
          | cons d tail =>
            obtain ⟨after, rfl⟩ := hqrest
            rcases hbegin with hbegin | ⟨rfl, hdots⟩
            · rw [← htail, List.append_cons, List.take_left' (by simp), mem_table] at hbegin
              exact absurd hbegin (hlonger d rfl)
            · rw [hdots, List.cons_append, List.nil_append, List.cons.injEq] at htail
              refine absurd ⟨rfl, ?_⟩ hthree
              rw [htail.2]
              exact List.prefix_append _ _

/-! ## How lexemes are written -/

/-- How the lexemes of each kind are written, by their first character and the others. -/
inductive IsLexeme : Kind → Char → List Char → Prop
  | string {c : Char} {cs : List Char} (hc : c = '"' ∨ c = '\x27') (h : stringLength? c cs = some cs.length) :
      IsLexeme .string c cs
  | template {cs : List Char} (h : templateLength 1 (.text 0) [] cs = .ok cs.length) : IsLexeme .template '`' cs
  | number {c : Char} {cs : List Char} (hc : startsNumber c cs = true)
      (h : numberLength (marksHexadecimal c cs) c cs = cs.length) : IsLexeme .number c cs
  | word {c : Char} {cs : List Char} (hc : isWordStart c = true) (h : ∀ d ∈ cs, isWordPart d = true) :
      IsLexeme .word c cs
  /-- What starts like a comment is no regular expression. -/
  | regex {cs : List Char} (hc : cs.head? ≠ some '/' ∧ cs.head? ≠ some '*')
      (h : regexLength? false cs = some cs.length) : IsLexeme .regex '/' cs
  | punctuator {c : Char} {cs : List Char} (h : String.ofList (c :: cs) ∈ punctuators) : IsLexeme .punctuator c cs

theorem isDigit_cases {c : Char} (h : c.isDigit = true) : c.toNat < 0x80 ∧ c.isAlpha = false := by
  simp only [Char.isDigit, Bool.and_eq_true, decide_eq_true_eq, UInt32.le_iff_toNat_le] at h
  have halpha : c.isAlpha = (decide (c.val ≥ 'A'.val ∧ c.val ≤ 'Z'.val) || (c.val ≥ 'a'.val && c.val ≤ 'z'.val)) := rfl
  rw [halpha]
  simp only [Bool.or_eq_false_iff, Bool.and_eq_false_iff, decide_eq_false_iff_not, ge_iff_le, UInt32.le_iff_toNat_le]
  have hc : c.toNat = c.val.toNat := rfl
  have hle := h.2
  simp at hle ⊢
  omega

theorem isWordPart_of_isDigit {c : Char} (h : c.isDigit = true) : isWordPart c = true := by
  simp [isWordPart, Text.isAlphanumeric, Text.isNumeric, (isDigit_cases h).1, h]

theorem isWordPart_of_isWordStart {c : Char} (h : isWordStart c = true) : isWordPart c = true := by
  simp only [isWordStart, isWordPart, Text.isAlphanumeric, Bool.or_eq_true] at h ⊢
  rcases h with (h | h) | h <;> simp [h]

/-- A word starts with none of the characters that decide other kinds. -/
theorem isWordStart_cases {c : Char} (h : isWordStart c = true) :
    (c ≠ '"' ∧ c ≠ '\x27' ∧ c ≠ '`') ∧ c ≠ '/' ∧ ∀ cs, startsNumber c cs = false := by
  have hdigit : c.isDigit = false := by
    rw [Bool.eq_false_iff]
    intro hc
    obtain ⟨hascii, halpha⟩ := isDigit_cases hc
    simp only [isWordStart, Text.isAlphabetic, hascii, halpha, if_true, Bool.false_or, Bool.or_eq_true,
      decide_eq_true_eq] at h
    obtain rfl | rfl := h <;> revert hc <;> decide
  have hne : ∀ d, isWordStart d = false → c ≠ d := by
    rintro d hd rfl
    rw [h] at hd
    cases hd
  refine ⟨⟨hne _ (by decide), hne _ (by decide), hne _ (by decide)⟩,
    hne _ (by decide), fun cs => ?_⟩
  simp [startsNumber, hdigit, hne '.' (by decide)]

/-! ## What the scanner takes for a lexeme -/

section
variable (last : Option Token)

theorem lexeme_string {c : Char} (hc : c = '"' ∨ c = '\x27') (cs : List Char) :
    lexeme last c cs = (orUnterminated .unterminatedString (stringLength? c cs)).map (Prod.mk .string) := by
  rw [lexeme, if_pos (by simpa using hc)]

theorem lexeme_template (cs : List Char) :
    lexeme last '`' cs = (templateLength 1 (.text 0) [] cs).map (Prod.mk .template) := rfl

/-- A character that starts no quoted lexeme. -/
def Unquoted (c : Char) : Prop := c ≠ '"' ∧ c ≠ '\x27' ∧ c ≠ '`'

theorem lexeme_unquoted {c : Char} (hc : Unquoted c) (cs : List Char) :
    lexeme last c cs =
      if startsNumber c cs then .ok (.number, numberLength (marksHexadecimal c cs) c cs)
      else if isWordStart c then .ok (.word, (cs.takeWhile isWordPart).length)
      else if c = '/' && regexAllowed last then
        (orUnterminated .unterminatedRegex (regexLength? false cs)).map (Prod.mk .regex)
      else match punctuatorAt? (c :: cs) with
        | some p => .ok (.punctuator, p.length - 1)
        | none => .error ⟨.strayCharacter c, 0⟩ := by
  obtain ⟨hdouble, hsingle, htick⟩ := hc
  rw [lexeme, if_neg (by simp [hdouble, hsingle]), if_neg htick]
  rfl

theorem lexeme_number {c : Char} {cs : List Char} (h : startsNumber c cs = true) :
    lexeme last c cs = .ok (.number, numberLength (marksHexadecimal c cs) c cs) := by
  have hc : Unquoted c := by
    refine ⟨?_, ?_, ?_⟩ <;> rintro rfl <;> revert h <;> simp [startsNumber]
  rw [lexeme_unquoted last hc, if_pos h]

theorem lexeme_word {c : Char} (h : isWordStart c = true) (cs : List Char) :
    lexeme last c cs = .ok (.word, (cs.takeWhile isWordPart).length) := by
  obtain ⟨hc, -, hnumber⟩ := isWordStart_cases h
  rw [lexeme_unquoted last hc, hnumber, if_pos h]
  rfl

theorem lexeme_slash (cs : List Char) : lexeme last '/' cs =
    if regexAllowed last then (orUnterminated .unterminatedRegex (regexLength? false cs)).map (Prod.mk .regex)
    else match punctuatorAt? ('/' :: cs) with
      | some p => .ok (.punctuator, p.length - 1)
      | none => .error ⟨.strayCharacter '/', 0⟩ := by
  have hword : isWordStart '/' = false := by decide
  rw [lexeme_unquoted last ⟨by decide, by decide, by decide⟩, hword]
  rfl

/-- Outside quotes, numbers, words and slashes only punctuators are left. -/
theorem lexeme_other {c : Char} {cs : List Char} (hc : Unquoted c) (hnumber : startsNumber c cs = false)
    (hword : isWordStart c = false) (hslash : (c = '/' && regexAllowed last) = false) :
    lexeme last c cs = match punctuatorAt? (c :: cs) with
      | some p => .ok (.punctuator, p.length - 1)
      | none => .error ⟨.strayCharacter c, 0⟩ := by
  rw [lexeme_unquoted last hc, hnumber, hword, hslash]
  rfl

/-- What the scanner reads where no comment starts is written like a lexeme of its kind. -/
theorem isLexeme_of_lexeme {c : Char} {cs : List Char} {k : Kind} {n : Nat} (h : lexeme last c cs = .ok (k, n))
    (hcomment : c = '/' → cs.head? ≠ some '/' ∧ cs.head? ≠ some '*') :
    n ≤ cs.length ∧ IsLexeme k c (cs.take n) := by
  by_cases hquote : c = '"' ∨ c = '\x27'
  · rw [lexeme_string last hquote] at h
    obtain ⟨m, hm, heq⟩ := map_eq_ok h
    cases heq
    have hlength : stringLength? c cs = some n := by
      cases hs : stringLength? c cs <;> rw [hs] at hm <;> cases hm
      rfl
    obtain ⟨hle, hagain⟩ := stringLength?_take hlength
    have hself := hagain []
    rw [List.append_nil] at hself
    exact ⟨hle, .string hquote (by rw [hself, List.length_take_of_le hle])⟩
  by_cases htick : c = '`'
  · subst htick
    rw [lexeme_template] at h
    obtain ⟨m, hm, heq⟩ := map_eq_ok h
    cases heq
    obtain ⟨-, hle, hagain⟩ := templateLength_take hm
    have hself := hagain []
    rw [List.append_nil] at hself
    exact ⟨hle, .template (by rw [hself, List.length_take_of_le hle])⟩
  have hc : Unquoted c := ⟨fun he => hquote (.inl he), fun he => hquote (.inr he), htick⟩
  by_cases hnumber : startsNumber c cs = true
  · rw [lexeme_number last hnumber] at h
    cases h
    have hle := numberLength_le (marksHexadecimal c cs) c cs
    refine ⟨hle, .number (startsNumber_take hnumber) ?_⟩
    rw [marksHexadecimal_take, numberLength_take, List.length_take_of_le hle]
  rw [Bool.not_eq_true] at hnumber
  by_cases hword : isWordStart c = true
  · rw [lexeme_word last hword] at h
    cases h
    have hbegins := List.takeWhile_prefix isWordPart (l := cs)
    refine ⟨hbegins.length_le, .word hword fun d hd => ?_⟩
    rw [← List.prefix_iff_eq_take.mp hbegins] at hd
    exact List.all_eq_true.mp List.all_takeWhile d hd
  rw [Bool.not_eq_true] at hword
  by_cases hslash : (c = '/' && regexAllowed last) = true
  · simp only [Bool.and_eq_true, decide_eq_true_eq] at hslash
    obtain ⟨rfl, hallowed⟩ := hslash
    rw [lexeme_slash, if_pos hallowed] at h
    obtain ⟨m, hm, heq⟩ := map_eq_ok h
    cases heq
    have hlength : regexLength? false cs = some n := by
      cases hr : regexLength? false cs <;> rw [hr] at hm <;> cases hm
      rfl
    obtain ⟨hpos, hle, hagain⟩ := regexLength?_take hlength
    have hself := hagain [] (by simp [EndsWord])
    rw [List.append_nil] at hself
    refine ⟨hle, .regex ?_ (by rw [hself, List.length_take_of_le hle])⟩
    have hhead := head?_take_append hpos hle []
    rw [List.append_nil] at hhead
    rw [hhead]
    exact hcomment rfl
  · rw [Bool.not_eq_true] at hslash
    rw [lexeme_other last hc hnumber hword hslash] at h
    cases hfind : punctuatorAt? (c :: cs) with
    | none =>
      rw [hfind] at h
      cases h
    | some p =>
      rw [hfind] at h
      cases h
      have hmem : p ∈ punctuators := List.mem_of_find?_eq_some hfind
      have hbegins : p.toList <+: c :: cs :=
        List.isPrefixOf_iff_prefix.mp (List.find?_eq_some_iff_append.mp hfind).1
      obtain ⟨d, ds, hp⟩ := List.exists_cons_of_ne_nil (punctuators_ne_nil p hmem)
      have hlength : p.length = ds.length + 1 := by rw [← String.length_toList, hp, List.length_cons]
      rw [hp, List.cons_prefix_cons] at hbegins
      obtain ⟨rfl, hds⟩ := hbegins
      have htake : cs.take (p.length - 1) = ds := by
        rw [hlength, Nat.add_sub_cancel]
        exact (List.prefix_iff_eq_take.mp hds).symm
      have hle : p.length - 1 ≤ cs.length := by
        rw [hlength, Nat.add_sub_cancel]
        exact hds.length_le
      refine ⟨hle, .punctuator ?_⟩
      rw [htake, ← hp, String.ofList_toList]
      exact hmem

/-! ## When a lexeme is read again -/

/-- What follows goes on with a lexeme: with a number, to a longer punctuator, or from a point to a number or to an
ellipsis. -/
def runsOn (k : Kind) (c : Char) (cs rest : List Char) : Bool :=
  match k with
  | .number => rest.head?.any fun d => d.isAlphanum || d = '_' || d = '.' || ((d = '+' || d = '-') && takesSign c cs)
  | .punctuator =>
    rest.head?.any (fun d => punctuators.contains (String.ofList (c :: cs ++ [d])))
      || (c :: cs = ['.'] && (rest.head?.any Char.isDigit || ['.', '.'].isPrefixOf rest))
  | _ => false

/-- A slash that starts a lexeme is taken for the other kind of slash after the token `last`. -/
def misread (k : Kind) (c : Char) : Bool := c = '/' && (decide (k = .regex) != regexAllowed last)

/-- A space is written between a token of kind `k` that ends with `a` and a token that starts with `b`. -/
def mustPart (k : Kind) (a b : Char) : Bool :=
  (isWordPart a && isWordPart b)
    || (k = .regex && isWordPart b)
    || (a = '+' && b = '+')
    || (a = '-' && b = '-')
    || (k = .number && b = '.')
    || (a = '/' && (b = '/' || b = '*'))

/-- What follows a lexeme of kind `k` needs no space before it. -/
def Parted (k : Kind) (c : Char) (cs rest : List Char) : Prop :=
  ∀ a ∈ (c :: cs).getLast?, ∀ d ∈ rest.head?, mustPart k a d = false

theorem Parted.endsWord {k : Kind} {c : Char} {cs rest : List Char} (h : Parted k c cs rest)
    (hk : k = .regex ∨ ∀ a ∈ (c :: cs).getLast?, isWordPart a = true) : EndsWord rest := by
  intro d hd
  obtain ⟨a, ha⟩ : ∃ a, (c :: cs).getLast? = some a := ⟨_, List.getLast?_cons⟩
  have hpart := h a ha d hd
  simp only [mustPart, Bool.or_eq_false_iff, Bool.and_eq_false_iff, decide_eq_false_iff_not] at hpart
  rcases hk with hk | hk
  · exact hpart.1.1.1.1.2.resolve_left fun hne => hne hk
  · rcases hpart.1.1.1.1.1 with hno | hno
    · rw [hk a ha] at hno
      cases hno
    · exact hno

variable {rest : List Char}

theorem lexeme_eq_iff_number {c : Char} {cs : List Char} (hc : startsNumber c cs = true)
    (h : numberLength (marksHexadecimal c cs) c cs = cs.length) (hrest : Parted .number c cs rest) :
    lexeme last c (cs ++ rest) = .ok (.number, cs.length) ↔ runsOn .number c cs rest = false := by
  have hstart : startsNumber c (cs ++ rest) = true := by
    cases cs with
    | nil =>
      have hdigit : c.isDigit = true := by simpa [startsNumber] using hc
      simp [startsNumber, hdigit]
    | cons d cs => exact hc
  have hmark : marksHexadecimal c (cs ++ rest) = marksHexadecimal c cs := by
    cases cs with
    | nil =>
      -- a single digit is parted from what would mark it
      have hdigit : c.isDigit = true := by simpa [startsNumber] using hc
      have hends : EndsWord rest := by
        refine hrest.endsWord (.inr fun a ha => ?_)
        obtain rfl : c = a := by simpa using ha
        exact isWordPart_of_isDigit hdigit
      have hne : ∀ d, isWordPart d = true → rest.head? ≠ some d := by
        intro d hd hhead
        rw [hends d hhead] at hd
        cases hd
      simp [marksHexadecimal, hne 'x' (by decide), hne 'X' (by decide)]
    | cons d cs => rfl
  have hlast : (c :: cs).getLast? = some (cs.getLast?.getD c) := List.getLast?_cons
  rw [lexeme_number last hstart, hmark, numberLength_append h]
  simp only [Except.ok.injEq, Prod.mk.injEq, true_and, Nat.add_eq_left, numberLength_eq_zero_iff, runsOn, takesSign,
    hlast, Option.some.injEq]

/-- The scanner reads a punctuator again when it is the first one of the table that the text starts with. -/
theorem punctuatorAt?_length_iff {c : Char} {cs : List Char} :
    (match punctuatorAt? (c :: (cs ++ rest)) with
      | some p => .ok (.punctuator, p.length - 1)
      | none => .error ⟨.strayCharacter c, 0⟩ : Except Fault (Kind × Nat)) = .ok (.punctuator, cs.length) ↔
      punctuatorAt? (c :: (cs ++ rest)) = some (String.ofList (c :: cs)) := by
  cases hfind : punctuatorAt? (c :: (cs ++ rest)) with
  | none => simp
  | some p =>
    obtain ⟨hbegins, -⟩ := List.find?_eq_some_iff_append.mp hfind
    have hne := punctuators_ne_nil p (List.mem_of_find?_eq_some hfind)
    have hpos : 0 < p.toList.length := List.length_pos_iff.mpr hne
    simp only [Except.ok.injEq, Prod.mk.injEq, true_and, Option.some.injEq]
    constructor
    · intro hlength
      have hlen : p.toList.length = (c :: cs).length := by
        rw [List.length_cons, ← hlength, String.length_toList]
        rw [String.length_toList] at hpos
        omega
      have htake := List.prefix_iff_eq_take.mp (List.isPrefixOf_iff_prefix.mp hbegins)
      rw [hlen, ← List.cons_append, List.take_left] at htake
      rw [← htake, String.ofList_toList]
    · rintro rfl
      rw [← String.length_toList, String.toList_ofList, List.length_cons, Nat.add_sub_cancel]

theorem lexeme_eq_iff_punctuator {c : Char} {cs : List Char} (h : String.ofList (c :: cs) ∈ punctuators) :
    lexeme last c (cs ++ rest) = .ok (.punctuator, cs.length) ↔
      misread last .punctuator c = false ∧ runsOn .punctuator c cs rest = false := by
  obtain ⟨hdouble, hsingle, htick, hdigit, hword⟩ := punctuators_start _ (mem_table.mpr h) c rfl
  by_cases hslash : (c = '/' && regexAllowed last) = true
  · simp only [Bool.and_eq_true, decide_eq_true_eq] at hslash
    obtain ⟨rfl, hallowed⟩ := hslash
    rw [lexeme_slash, if_pos hallowed]
    refine iff_of_false (fun hregex => ?_) fun hno => by simp [misread, hallowed] at hno
    obtain ⟨m, -, heq⟩ := map_eq_ok hregex
    cases heq
  have hread : misread last .punctuator c = false := by simpa [misread] using hslash
  rw [Bool.not_eq_true] at hslash
  by_cases hnumber : startsNumber c (cs ++ rest) = true
  · -- only a single point can go on as a number
    rw [lexeme_number last hnumber]
    refine iff_of_false (fun he => by cases he) fun hno => ?_
    simp only [startsNumber, hdigit, Bool.false_or, Bool.and_eq_true, decide_eq_true_eq] at hnumber
    obtain ⟨rfl, hdigits⟩ := hnumber
    rcases punctuators_point _ (mem_table.mpr h) rfl with heq | heq <;> cases heq
    · simp_all [runsOn]
    · simp at hdigits
  rw [Bool.not_eq_true] at hnumber
  rw [lexeme_other last ⟨hdouble, hsingle, htick⟩ hnumber hword hslash, punctuatorAt?_length_iff, ← List.cons_append,
    punctuatorAt?_iff h]
  have hlonger : (∀ d ∈ rest.head?, String.ofList (c :: cs ++ [d]) ∉ punctuators) ↔
      rest.head?.any (fun d => punctuators.contains (String.ofList (c :: cs ++ [d]))) = false := by
    cases rest.head? <;> simp
  have hpoint : ¬(c :: cs = ['.'] ∧ ['.', '.'] <+: rest) ↔
      (c :: cs = ['.'] && (rest.head?.any Char.isDigit || ['.', '.'].isPrefixOf rest)) = false := by
    by_cases he : c :: cs = ['.']
    · cases he
      have hnone : rest.head?.any Char.isDigit = false := by simpa [startsNumber] using hnumber
      simp [hnone, ← List.isPrefixOf_iff_prefix]
    · simp [he]
  rw [hlonger, hpoint, hread, runsOn, Bool.or_eq_false_iff]
  exact ⟨fun h => ⟨rfl, h⟩, And.right⟩

theorem misread_of_ne {k : Kind} {c : Char} (hc : c ≠ '/') : misread last k c = false := by
  simp [misread, hc]

/-- A lexeme is read again unless a slash is misread or what follows belongs to it. -/
theorem lexeme_eq_iff {k : Kind} {c : Char} {cs : List Char} (h : IsLexeme k c cs) (hrest : Parted k c cs rest) :
    lexeme last c (cs ++ rest) = .ok (k, cs.length) ↔ misread last k c = false ∧ runsOn k c cs rest = false := by
  cases h with
  | string hc h =>
    have hne : c ≠ '/' := by
      rintro rfl
      simp at hc
    have hagain := (stringLength?_take h).2 rest
    rw [List.take_length] at hagain
    rw [lexeme_string last hc, hagain]
    exact iff_of_true rfl ⟨misread_of_ne last hne, rfl⟩
  | template h =>
    have hagain := (templateLength_take h).2.2 rest
    rw [List.take_length] at hagain
    rw [lexeme_template, hagain]
    exact iff_of_true rfl ⟨misread_of_ne last (by decide), rfl⟩
  | number hc h =>
    have hne : c ≠ '/' := by
      rintro rfl
      simp [startsNumber] at hc
    rw [lexeme_eq_iff_number last hc h hrest]
    exact ⟨fun hruns => ⟨misread_of_ne last hne, hruns⟩, And.right⟩
  | word hc h =>
    have hword : ∀ a ∈ (c :: cs).getLast?, isWordPart a = true := by
      intro a ha
      rcases List.mem_cons.mp (List.mem_of_getLast? ha) with rfl | hmem
      · exact isWordPart_of_isWordStart hc
      · exact h a hmem
    have hlength : ((cs ++ rest).takeWhile isWordPart).length = cs.length := by
      have hends := hrest.endsWord (.inr hword)
      rw [List.takeWhile_append_of_pos h]
      cases rest with
      | nil => simp
      | cons d rest => simp [hends d rfl]
    rw [lexeme_word last hc, hlength]
    exact iff_of_true rfl ⟨misread_of_ne last (isWordStart_cases hc).2.1, rfl⟩
  | regex hc h =>
    have hagain := (regexLength?_take h).2.2 rest (hrest.endsWord (.inl rfl))
    rw [List.take_length] at hagain
    rw [lexeme_slash, hagain]
    by_cases hallowed : regexAllowed last = true
    · rw [if_pos hallowed]
      exact iff_of_true rfl ⟨by simp [misread, hallowed], rfl⟩
    · rw [if_neg hallowed]
      refine iff_of_false (fun hpunct => ?_) fun hno => by simp [misread, hallowed] at hno
      split at hpunct <;> cases hpunct
  | punctuator h => exact lexeme_eq_iff_punctuator last h

end

end AliasLang.Script
