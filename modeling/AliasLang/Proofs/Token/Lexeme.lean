/-
Lexemes stand on their own: what the scanner takes as one lexeme of a text it takes again, as the same kind of token,
when that lexeme is written before a gap or at the end of a text. String literals apart, a kind of token is written in
one way only.
-/
import AliasLang.Token.Scan

namespace AliasLang.Token

/-! ## Gaps and names -/

/-- A character that starts a gap. -/
def startsGap (c : Char) : Bool := c = ' ' || c = '\t' || c = '\r' || c = '\n' || c = '#'

/-- What can follow a lexeme and is no part of it: nothing, or a gap. -/
def Separated (rest : List Char) : Prop := ∀ c ∈ rest.head?, startsGap c = true

theorem separated_cons {c : Char} (h : startsGap c = true) (cs : List Char) : Separated (c :: cs) := by
  simpa [Separated] using h

theorem startsGap_cases {c : Char} (h : startsGap c = true) : c = ' ' ∨ c = '\t' ∨ c = '\r' ∨ c = '\n' ∨ c = '#' := by
  simpa [startsGap, or_assoc] using h

theorem Separated.nameLength {rest : List Char} (h : Separated rest) : nameLength rest = 0 := by
  cases rest with
  | nil => rfl
  | cons c cs =>
    obtain rfl | rfl | rfl | rfl | rfl := startsGap_cases (h c rfl) <;> rfl

theorem Separated.head_ne {rest : List Char} (h : Separated rest) : rest.head? ≠ some '>' := by
  intro he
  exact absurd (h '>' he) (by decide)

/-- With a gap after the first characters of a text, an arrow's head comes next only where it did before. -/
theorem Separated.head_take {rest : List Char} (h : Separated rest) {cs : List Char} {n : Nat}
    (he : (cs.take n ++ rest).head? = some '>') : cs.head? = some '>' := by
  cases n with
  | zero => exact absurd he h.head_ne
  | succ n =>
    cases cs with
    | nil => exact absurd he h.head_ne
    | cons d ds => exact he

theorem nameLength_le (cs : List Char) : nameLength cs ≤ cs.length := by
  induction cs with
  | nil => exact Nat.le_refl 0
  | cons c cs ih =>
    rw [nameLength]
    split
    · exact Nat.succ_le_succ ih
    · exact Nat.zero_le _

/-- A name is as long as before when a gap follows it. -/
theorem nameLength_take (cs : List Char) {rest : List Char} (hr : Separated rest) :
    nameLength (cs.take (nameLength cs) ++ rest) = nameLength cs := by
  induction cs with
  | nil => exact hr.nameLength
  | cons c cs ih =>
    by_cases hc : (isNameChar c && !(c = '-' && cs.head? = some '>')) = true
    · rw [nameLength, if_pos hc, List.take_succ_cons, List.cons_append, nameLength, ih, if_pos]
      simp only [Bool.and_eq_true, Bool.not_eq_true', Bool.and_eq_false_iff, decide_eq_false_iff_not] at hc ⊢
      exact ⟨hc.1, hc.2.imp id fun hne he => hne (hr.head_take he)⟩
    · rw [nameLength, if_neg hc]
      exact hr.nameLength

/-! ## String literals and scripts -/

theorem stringLength?_plain {c : Char} (hquote : c ≠ '"') (hslash : c ≠ '\\') (cs : List Char) :
    stringLength? (c :: cs) = (stringLength? cs).map (· + 1) := by
  cases cs <;> simp [stringLength?, hquote, hslash]

theorem stringLength?_quote (cs : List Char) : stringLength? ('"' :: cs) = some 1 := by
  cases cs <;> rfl

theorem stringLength?_escape (c : Char) (cs : List Char) :
    stringLength? ('\\' :: c :: cs) = (stringLength? cs).map (· + 2) := rfl

/-- A literal ends where it ends, whatever follows it. -/
theorem stringLength?_take (rest : List Char) : ∀ {cs : List Char} {n : Nat}, stringLength? cs = some n →
    n ≤ cs.length ∧ stringLength? (cs.take n ++ rest) = some n
  | [], n, h => by cases h
  | c :: cs, n, h => by
    by_cases hquote : c = '"'
    · subst hquote
      rw [stringLength?_quote] at h
      cases h
      exact ⟨Nat.succ_le_succ (Nat.zero_le _), stringLength?_quote _⟩
    by_cases hslash : c = '\\'
    · subst hslash
      cases cs with
      | nil => cases h
      | cons d cs =>
        rw [stringLength?_escape] at h
        obtain ⟨m, hm, rfl⟩ := Option.map_eq_some_iff.mp h
        obtain ⟨hle, htake⟩ := stringLength?_take rest hm
        refine ⟨Nat.succ_le_succ (Nat.succ_le_succ hle), ?_⟩
        rw [List.take_succ_cons, List.take_succ_cons, List.cons_append, List.cons_append, stringLength?_escape, htake]
        rfl
    · rw [stringLength?_plain hquote hslash] at h
      obtain ⟨m, hm, rfl⟩ := Option.map_eq_some_iff.mp h
      obtain ⟨hle, htake⟩ := stringLength?_take rest hm
      refine ⟨Nat.succ_le_succ hle, ?_⟩
      rw [List.take_succ_cons, List.cons_append, stringLength?_plain hquote hslash, htake]
      rfl

/-- What stands before and after a script. -/
def fence : List Char := ['`', '`', '`']

theorem scriptLength_plain (read : Nat) {c : Char} (hslash : c ≠ '\\') (htick : c ≠ '`') (cs : List Char) :
    scriptLength read (c :: cs) = (scriptLength (read + 1) cs).map (· + 1) := by
  cases cs <;> simp [scriptLength, hslash, htick]

theorem scriptLength_escape (read : Nat) (c : Char) (cs : List Char) :
    scriptLength read ('\\' :: c :: cs) = (scriptLength (read + 2) cs).map (· + 2) := rfl

theorem scriptLength_fence (read : Nat) (cs : List Char) : scriptLength read (fence ++ cs) = .ok 0 := rfl

/-- Only a fence ends a script at a backtick. -/
theorem scriptLength_tick {read n : Nat} {cs : List Char} (h : scriptLength read ('`' :: cs) = .ok n) :
    n = 0 ∧ ∃ tail, '`' :: cs = fence ++ tail := by
  have hif : (if ['`', '`'].isPrefixOf cs then .ok 0 else .error ⟨.bareBacktick, read, 0⟩ : Except Fault Nat)
      = .ok n := by
    cases cs <;> exact h
  split at hif
  · rename_i hp
    obtain ⟨tail, rfl⟩ := List.isPrefixOf_iff_prefix.mp hp
    cases hif
    exact ⟨rfl, tail, rfl⟩
  · cases hif

theorem map_eq_ok {ε α β : Type} {f : α → β} {r : Except ε α} {b : β} (h : r.map f = .ok b) :
    ∃ a, r = .ok a ∧ f a = b := by
  cases r with
  | error e => cases h
  | ok a => exact ⟨a, rfl, Except.ok.inj h⟩

/-- A script ends at its closing fence, whatever follows that and wherever the script starts. -/
theorem scriptLength_ok : ∀ {cs : List Char} {read n : Nat}, scriptLength read cs = .ok n →
    ∃ body tail, cs = body ++ (fence ++ tail) ∧ body.length = n ∧
      ∀ read' rest, scriptLength read' (body ++ (fence ++ rest)) = .ok n
  | [], _, _, h => by cases h
  | c :: cs, read, n, h => by
    by_cases hslash : c = '\\'
    · subst hslash
      cases cs with
      | nil => cases h
      | cons d cs =>
        rw [scriptLength_escape] at h
        obtain ⟨m, hm, rfl⟩ := map_eq_ok h
        obtain ⟨body, tail, rfl, rfl, hbody⟩ := scriptLength_ok hm
        refine ⟨'\\' :: d :: body, tail, rfl, rfl, fun read' rest => ?_⟩
        rw [List.cons_append, List.cons_append, scriptLength_escape, hbody]
        rfl
    by_cases htick : c = '`'
    · subst htick
      obtain ⟨rfl, tail, htail⟩ := scriptLength_tick h
      exact ⟨[], tail, htail, rfl, fun read' rest => scriptLength_fence read' rest⟩
    · rw [scriptLength_plain read hslash htick] at h
      obtain ⟨m, hm, rfl⟩ := map_eq_ok h
      obtain ⟨body, tail, rfl, rfl, hbody⟩ := scriptLength_ok hm
      refine ⟨c :: body, tail, rfl, rfl, fun read' rest => ?_⟩
      rw [List.cons_append, scriptLength_plain read' hslash htick, hbody]
      rfl

/-! ## Lexemes -/

/-- How a kind of token is written, where there is one way only. -/
def Kind.spelling? : Kind → Option (List Char)
  | .keyword k => some k.text.toList
  | .arrow => some ['-', '>']
  | .bar => some ['|']
  | .identifier name => some name.toList
  | .user name => some ('@' :: name.toList)
  | .argument literal => some literal.raw.toList
  | .script raw => some (fence ++ (raw.toList ++ fence))
  | .string _ | .endOfInput => none

/-- `n` characters of `cs` are read by `f` as a lexeme of kind `k` that `c` starts: they are there, they are read again
before a gap, and they are how `k` is written. -/
structure Stands (f : List Char → Except Fault (Kind × Nat)) (c : Char) (cs : List Char) (k : Kind) (n : Nat) :
    Prop where
  length_le : n ≤ cs.length
  again : ∀ rest, Separated rest → f (cs.take n ++ rest) = .ok (k, n)
  spelling : ∀ w, k.spelling? = some w → c :: cs.take n = w
  notEnd : k ≠ .endOfInput

theorem stringLexeme_stands {cs : List Char} {k : Kind} {n : Nat} (h : stringLexeme cs = .ok (k, n)) :
    Stands stringLexeme '"' cs k n := by
  unfold stringLexeme at h
  split at h
  · cases h
  · rename_i m hm
    split at h
    · rename_i value tail hvalue
      cases h
      obtain ⟨hle, htake⟩ := stringLength?_take [] hm
      refine ⟨hle, fun rest _ => ?_, fun w hw => (by cases hw), by simp⟩
      have hsame : (cs.take n ++ rest).take n = cs.take n := List.take_left' (List.length_take_of_le hle)
      simp only [stringLexeme, (stringLength?_take rest hm).2, hsame, hvalue]
    · cases h

theorem userLexeme_stands {cs : List Char} {k : Kind} {n : Nat} (h : userLexeme cs = .ok (k, n)) :
    Stands userLexeme '@' cs k n := by
  simp only [userLexeme] at h
  split at h
  · cases h
  · rename_i hn
    cases h
    have hle := nameLength_le cs
    refine ⟨hle, fun rest hr => ?_, fun w hw => ?_, by simp⟩
    · have hsame : (cs.take (nameLength cs) ++ rest).take (nameLength cs) = cs.take (nameLength cs) :=
        List.take_left' (List.length_take_of_le hle)
      simp only [userLexeme, nameLength_take cs hr, hn, hsame, ↓reduceIte]
    · cases hw
      rw [String.toList_ofList]

theorem argumentLexeme_stands {cs : List Char} {k : Kind} {n : Nat} (h : argumentLexeme cs = .ok (k, n)) :
    Stands argumentLexeme '$' cs k n := by
  simp only [argumentLexeme] at h
  split at h
  · cases h
  rename_i hopen
  split at h
  · cases h
  rename_i hclose
  obtain ⟨cs, rfl⟩ := List.head?_eq_some_iff.mp (Decidable.not_not.mp hopen)
  rw [List.drop_one, List.tail_cons] at h hclose
  obtain ⟨tail, htail⟩ := List.head?_eq_some_iff.mp (Decidable.not_not.mp hclose)
  split at h
  · rename_i s hs
    cases h
    -- the text between the braces is the longest run of its characters, and the brace is none of them
    generalize hinner : cs.takeWhile isArgumentChar = inner at hs htail ⊢
    have hall : ∀ c ∈ inner, isArgumentChar c = true := by
      rw [← List.all_eq_true, ← hinner]
      exact List.all_takeWhile
    have hcs : cs = inner ++ '\x7d' :: tail := by
      obtain ⟨after, hafter⟩ := List.takeWhile_prefix isArgumentChar (l := cs)
      rw [hinner] at hafter
      rw [← hafter, List.drop_left] at htail
      rw [← hafter, htail]
    have htake : ('\x7b' :: cs).take (inner.length + 2) = '\x7b' :: (inner ++ ['\x7d']) := by
      rw [hcs, List.take_succ_cons, List.append_cons inner '\x7d' tail, List.take_left' (by simp)]
    refine ⟨?_, fun rest _ => ?_, fun w hw => ?_, by simp⟩
    · rw [hcs]
      simp
    · have hagain : (inner ++ '\x7d' :: rest).takeWhile isArgumentChar = inner := by
        rw [List.takeWhile_append_of_pos hall]
        simp [isArgumentChar]
      rw [htake]
      simp [argumentLexeme, hagain, hs]
    · cases hw
      rw [htake]
      simp
  · cases h

theorem scriptLexeme_stands {cs : List Char} {k : Kind} {n : Nat} (h : scriptLexeme cs = .ok (k, n)) :
    Stands scriptLexeme '`' cs k n := by
  unfold scriptLexeme at h
  split at h
  · rename_i hopen
    obtain ⟨cs, rfl⟩ := List.isPrefixOf_iff_prefix.mp hopen
    split at h
    · rename_i m hm
      cases h
      obtain ⟨body, tail, hcs, rfl, hagain⟩ := scriptLength_ok hm
      obtain rfl : cs = body ++ (fence ++ tail) := hcs
      have htake : (['`', '`'] ++ (body ++ (fence ++ tail))).take (body.length + 5)
          = '`' :: '`' :: (body ++ fence) := by
        rw [← List.append_assoc body, ← List.append_assoc, List.take_left' (by simp [fence])]
        rfl
      refine ⟨?_, fun rest _ => ?_, fun w hw => ?_, by simp⟩
      · simp [fence]
      · rw [htake]
        simp [scriptLexeme, hagain]
      · cases hw
        rw [htake]
        simp [fence]
    · cases h
  · cases h

theorem word_ok {name : String} {k : Kind} (h : word name = .ok k) :
    k.spelling? = some name.toList ∧ k ≠ .endOfInput := by
  unfold word at h
  split at h
  · rename_i kw hkw
    cases h
    have htext : kw.text = name := by simpa using List.find?_some hkw
    exact ⟨by rw [← htext]; rfl, by simp⟩
  · split at h
    · cases h
    · cases h
      exact ⟨rfl, by simp⟩

theorem lexeme_name {c : Char} {cs : List Char} (hmark : c ≠ '|' ∧ c ≠ '"' ∧ c ≠ '@' ∧ c ≠ '$' ∧ c ≠ '`')
    (harrow : ¬(c = '-' && cs.head? = some '>') = true) (hname : isNameChar c = true) :
    lexeme c cs = (word (String.ofList (c :: cs.take (nameLength cs)))).map (·, nameLength cs) := by
  obtain ⟨h₁, h₂, h₃, h₄, h₅⟩ := hmark
  rw [lexeme, if_neg h₁, if_neg harrow, if_neg h₂, if_neg h₃, if_neg h₄, if_neg h₅, if_pos hname]
  dsimp only
  cases word (String.ofList (c :: cs.take (nameLength cs))) <;> rfl

/-- Every lexeme stands on its own. -/
theorem lexeme_stands {c : Char} {cs : List Char} {k : Kind} {n : Nat} (h : lexeme c cs = .ok (k, n)) :
    Stands (lexeme c) c cs k n := by
  by_cases hbar : c = '|'
  · subst hbar
    cases h
    exact ⟨Nat.zero_le _, fun rest _ => rfl, fun w hw => by cases hw; rfl, by simp⟩
  by_cases harrow : (c = '-' && cs.head? = some '>') = true
  · simp only [Bool.and_eq_true, decide_eq_true_eq] at harrow
    obtain ⟨rfl, hhead⟩ := harrow
    obtain ⟨cs, rfl⟩ := List.head?_eq_some_iff.mp hhead
    cases h
    exact ⟨Nat.succ_le_succ (Nat.zero_le _), fun rest _ => rfl, fun w hw => by cases hw; rfl, by simp⟩
  by_cases hquote : c = '"'
  · subst hquote
    exact stringLexeme_stands h
  by_cases hat : c = '@'
  · subst hat
    exact userLexeme_stands h
  by_cases hdollar : c = '$'
  · subst hdollar
    exact argumentLexeme_stands h
  by_cases htick : c = '`'
  · subst htick
    exact scriptLexeme_stands h
  by_cases hname : isNameChar c = true
  · have hmark : c ≠ '|' ∧ c ≠ '"' ∧ c ≠ '@' ∧ c ≠ '$' ∧ c ≠ '`' := ⟨hbar, hquote, hat, hdollar, htick⟩
    rw [lexeme_name hmark harrow hname] at h
    obtain ⟨k', hword, hk⟩ := map_eq_ok h
    cases hk
    have hle := nameLength_le cs
    obtain ⟨hspelling, hend⟩ := word_ok hword
    refine ⟨hle, fun rest hr => ?_, fun w hw => ?_, hend⟩
    · have harrow' : ¬(c = '-' && (cs.take (nameLength cs) ++ rest).head? = some '>') = true := by
        intro he
        simp only [Bool.and_eq_true, decide_eq_true_eq] at he harrow
        exact harrow ⟨he.1, hr.head_take he.2⟩
      have hsame : (cs.take (nameLength cs) ++ rest).take (nameLength cs) = cs.take (nameLength cs) :=
        List.take_left' (List.length_take_of_le hle)
      rw [lexeme_name hmark harrow' hname, nameLength_take cs hr, hsame, hword]
      rfl
    · rw [hspelling, String.toList_ofList] at hw
      exact Option.some.inj hw
  · rw [lexeme, if_neg hbar, if_neg harrow, if_neg hquote, if_neg hat, if_neg hdollar, if_neg htick, if_neg hname] at h
    cases h

/-- A gap starts no lexeme. -/
theorem startsGap_eq_false {c : Char} {cs : List Char} {k : Kind} {n : Nat} (h : lexeme c cs = .ok (k, n)) :
    startsGap c = false := by
  rw [Bool.eq_false_iff]
  intro hgap
  obtain rfl | rfl | rfl | rfl | rfl := startsGap_cases hgap <;> cases h

end AliasLang.Token
