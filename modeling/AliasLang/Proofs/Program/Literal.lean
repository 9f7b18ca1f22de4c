/-
String literals of the canonical layout: each one is in printable ASCII, ends where the scanner says it ends, and reads
back as the string it was written for, whatever characters that string holds. So what was read from any literal can be
written and scanned again.
-/
import AliasLang.Program.Layout
import AliasLang.Proofs.Token.Scan
import AliasLang.Proofs.Token.StringEnd
import Mathlib.Tactic.SplitIfs

namespace AliasLang.Text

/-! ## Hexadecimal digits -/

theorem hexValue?_digitChar {d : Nat} (h : d < 16) : hexValue? d.digitChar = some d := by
  have hall : ∀ d : Fin 16, hexValue? d.val.digitChar = some d.val := by decide
  exact hall ⟨d, h⟩

theorem hex_one {n : Nat} (h : n < 16) : hex 1 n = [n.digitChar] := by
  rw [hex, Nat.toDigits_of_lt_base h]
  rfl

theorem hex_succ {width : Nat} (n : Nat) (h : 0 < width) :
    hex (width + 1) n = hex width (n / 16) ++ [(n % 16).digitChar] := by
  obtain ⟨width, rfl⟩ := Nat.exists_eq_succ_of_ne_zero (Nat.ne_of_gt h)
  by_cases hn : n < 16
  · have hdiv : n / 16 = 0 := Nat.div_eq_of_lt hn
    have hzero : Nat.toDigits 16 0 = ['0'] := rfl
    simp [hex, Nat.toDigits_of_lt_base hn, hdiv, hzero, Nat.mod_eq_of_lt hn, List.replicate_succ']
  · rw [hex, Nat.toDigits_of_base_le (by decide) (Nat.le_of_not_lt hn)]
    simp [hex]

end AliasLang.Text

namespace AliasLang.Json.Quoted

/-- A code unit is written in four digits. -/
theorem hex_four {n : Nat} (h : n < 0x10000) :
    Digits n (Text.hex 4 n) ∧ ∀ e ∈ Text.hex 4 n, Token.isSourceChar e = true := by
  have hdigit : ∀ d : Fin 16, Token.isSourceChar d.val.digitChar = true := by decide
  have hhex : Text.hex 4 n = [(n / 16 / 16 / 16).digitChar, (n / 16 / 16 % 16).digitChar, (n / 16 % 16).digitChar,
      (n % 16).digitChar] := by
    rw [Text.hex_succ n (by decide), Text.hex_succ _ (by decide), Text.hex_succ _ (by decide), Text.hex_one (by omega)]
    rfl
  refine ⟨⟨_, _, _, _, hhex, ?_⟩, ?_⟩
  · rw [unitValue?, Text.hexValue?_digitChar (by omega), Text.hexValue?_digitChar (by omega),
      Text.hexValue?_digitChar (by omega), Text.hexValue?_digitChar (by omega)]
    refine congrArg some ?_
    omega
  · intro e he
    simp only [hhex, List.mem_cons, List.not_mem_nil, or_false] at he
    rcases he with rfl | rfl | rfl | rfl
    · exact hdigit ⟨_, by omega⟩
    · exact hdigit ⟨_, by omega⟩
    · exact hdigit ⟨_, by omega⟩
    · exact hdigit ⟨_, by omega⟩

end AliasLang.Json.Quoted

namespace AliasLang.Program

open Command.Quoting (WellQuoted)
open Json.Quoted (Denotes Form decode decode_eq_ok_iff hex_four isLeading isLeading_lt isTrailing isTrailing_lt
  letterEscape? pairChar)
open Source (Position)
open Token (FailsInside ReadWhole isSourceChar lexeme stringLength? stringLength?_eq_some_iff tokenize tokensFrom)

/-! ## Characters of a literal -/

/-- The ways in which the layout writes a character inside a literal. -/
inductive Spelled (c : Char) : List Char → Prop where
  | plain (hquote : c ≠ '"') (hslash : c ≠ '\\') (hprintable : ' ' ≤ c ∧ c ≤ '~') : Spelled c [c]
  | letter (e : Char) (he : e ≠ 'u') (hsource : isSourceChar e = true) (hvalue : letterEscape? e = some c) :
      Spelled c ['\\', e]
  | unit (hn : c.toNat < 0x10000) : Spelled c ('\\' :: 'u' :: Text.hex 4 c.toNat)
  | pair (n m : Nat) (hn : isLeading n = true) (hm : isTrailing m = true) (hvalue : pairChar n m = c) :
      Spelled c ('\\' :: 'u' :: (Text.hex 4 n ++ '\\' :: 'u' :: Text.hex 4 m))

theorem toNat_lt (c : Char) : c.toNat < 0x110000 := by
  rcases c.valid with h | h
  · exact Nat.lt_trans h (by decide)
  · exact h.2

theorem codeUnits_of_lt {c : Char} (h : c.toNat < 0x10000) : codeUnits c = [c.toNat] := if_pos h

/-- A character beyond the basic plane has a leading and a trailing unit. -/
theorem codeUnits_of_le {c : Char} (h : ¬c.toNat < 0x10000) :
    ∃ n m, codeUnits c = [n, m] ∧ isLeading n = true ∧ isTrailing m = true ∧ pairChar n m = c := by
  have hlt := toNat_lt c
  refine ⟨0xd800 + (c.toNat - 0x10000) / 0x400, 0xdc00 + (c.toNat - 0x10000) % 0x400, if_neg h, ?_, ?_, ?_⟩
  · rw [isLeading, Bool.and_eq_true, decide_eq_true_eq, decide_eq_true_eq]
    omega
  · rw [isTrailing, Bool.and_eq_true, decide_eq_true_eq, decide_eq_true_eq]
    omega
  · rw [pairChar]
    refine (congrArg Char.ofNat ?_).trans (Char.ofNat_toNat c)
    omega

theorem literalChar_spelled (c : Char) : Spelled c (literalChar c) := by
  unfold literalChar
  split_ifs with hquote hslash hnewline hreturn htab hprintable
  · exact .letter '"' (by decide) (by decide) (by rw [hquote]; rfl)
  · exact .letter '\\' (by decide) (by decide) (by rw [hslash]; rfl)
  · exact .letter 'n' (by decide) (by decide) (by rw [hnewline]; rfl)
  · exact .letter 'r' (by decide) (by decide) (by rw [hreturn]; rfl)
  · exact .letter 't' (by decide) (by decide) (by rw [htab]; rfl)
  · exact .plain hquote hslash (by simpa using hprintable)
  · by_cases hn : c.toNat < 0x10000
    · simpa [codeUnits_of_lt hn] using Spelled.unit hn
    · obtain ⟨n, m, hunits, hleading, htrailing, hvalue⟩ := codeUnits_of_le hn
      simpa [hunits] using Spelled.pair n m hleading htrailing hvalue

/-! ## Reading a literal back -/

theorem Spelled.form {c : Char} {w : List Char} (h : Spelled c w) : Form c w := by
  cases h with
  | plain hquote hslash hprintable => exact .plain hquote hslash (Nat.not_lt.mpr hprintable.1)
  | letter e he hsource hvalue => exact .letter hvalue
  | unit hn => exact .unit (hex_four hn).1
  | pair n m hn hm hvalue =>
    exact .pair hn hm (hex_four (isLeading_lt hn)).1 (hex_four (isTrailing_lt hm)).1 hvalue

/-- A literal stands for the string it was written for. -/
theorem denotes_literal (s : List Char) : Denotes (s.flatMap literalChar) s := by
  induction s with
  | nil => exact .nil
  | cons c s ih =>
    rw [List.flatMap_cons]
    exact .cons (literalChar_spelled c).form ih

/-- A character of a literal is written in source characters, whatever it is. -/
theorem Spelled.isSourceChar {c : Char} {w : List Char} (h : Spelled c w) : ∀ e ∈ w, isSourceChar e = true := by
  have hunit : ∀ {n : Nat}, n < 0x10000 → ∀ e ∈ '\\' :: 'u' :: Text.hex 4 n, Token.isSourceChar e = true := by
    intro n hn
    simp only [List.forall_mem_cons]
    exact ⟨rfl, rfl, (hex_four hn).2⟩
  cases h with
  | plain hquote hslash hprintable =>
    simp [Token.isSourceChar, hprintable]
  | letter e he hsource hvalue =>
    simp only [List.forall_mem_cons]
    exact ⟨rfl, hsource, by simp⟩
  | unit hn => exact hunit hn
  | pair n m hn hm hvalue =>
    have hn' := hunit (isLeading_lt hn)
    have hm' := hunit (isTrailing_lt hm)
    intro e he
    rcases List.mem_append.mp (show e ∈ ('\\' :: 'u' :: Text.hex 4 n) ++ ('\\' :: 'u' :: Text.hex 4 m) from he)
      with he | he
    · exact hn' e he
    · exact hm' e he

theorem literal_toList (s : String) : (literal s).toList = '"' :: (s.toList.flatMap literalChar ++ ['"']) := by
  simp [literal]

theorem literal_isSourceChar (s : String) : ∀ e ∈ (literal s).toList, isSourceChar e = true := by
  simp only [literal_toList, List.forall_mem_cons, List.forall_mem_append, List.mem_flatMap]
  refine ⟨rfl, ?_, rfl, by simp⟩
  rintro e ⟨c, -, he⟩
  exact (literalChar_spelled c).isSourceChar e he

/-- **A literal is scanned as the string it was written for**, whatever follows it. -/
theorem lexeme_literal (s : String) (rest : List Char) :
    lexeme '"' (s.toList.flatMap literalChar ++ ['"'] ++ rest) =
      .ok (.string s, (s.toList.flatMap literalChar ++ ['"']).length) := by
  have hread := (@Token.readWhole_of_denotes _ rest _ (denotes_literal s.toList)).token
  rw [List.length_append, List.length_singleton]
  rwa [String.ofList_toList, List.append_cons] at hread

/-- The literal of a string is one token, up to its closing quote. -/
theorem tokensFrom_literal (s : String) (p : Position) (rest : List Char) :
    tokensFrom p ((literal s).toList ++ rest) =
      (tokensFrom (p.after (literal s).toList) rest).map
        (⟨.string s, .between p (p.after (literal s).toList)⟩ :: ·) := by
  rw [literal_toList, List.cons_append, Token.tokensFrom_lexeme (lexeme_literal s rest), List.take_left, List.drop_left]

theorem tokenize_literal (s : String) :
    tokenize (literal s) = .ok [⟨.string s, .between .start (Position.start.after (literal s).toList)⟩,
      ⟨.endOfInput, .point (Position.start.after (literal s).toList)⟩] := by
  refine Token.tokenize_eq_ok.mpr ⟨literal_isSourceChar s, ?_⟩
  rw [← List.append_nil (literal s).toList, tokensFrom_literal, Token.tokensFrom_nil, List.append_nil]
  rfl

/-! ## Both readers -/

/-- **The scanner and the decoder agree on where a string literal ends.** Behind an opening quote, the scanner cuts off
the text up to the first quote that no unpaired backslash precedes. The decoder reads all of this text and gives the
value that it stands for; if it stands for none, the decoder fails in the text before it comes to that quote. A value that
was read is written as a literal that is scanned as that value again, up to its closing quote, at any place and before
any text. -/
theorem string_readers_agree (cs : List Char) (n : Nat) :
    (stringLength? cs = some n ↔ ∃ text rest, cs = text ++ '"' :: rest ∧ WellQuoted text ∧ n = text.length + 1) ∧
    (stringLength? cs = some n →
      (∃ s : String, ReadWhole cs n s.toList ∧
        tokenize (literal s) = .ok [⟨.string s, .between .start (Position.start.after (literal s).toList)⟩,
          ⟨.endOfInput, .point (Position.start.after (literal s).toList)⟩] ∧
        ∀ p rest, tokensFrom p ((literal s).toList ++ rest) =
          (tokensFrom (p.after (literal s).toList) rest).map
            (⟨.string s, .between p (p.after (literal s).toList)⟩ :: ·)) ∨
      ∃ fault, FailsInside cs n fault) := by
  refine ⟨stringLength?_eq_some_iff, fun h => ?_⟩
  obtain ⟨value, hread⟩ | hfails := Token.readWhole_or_failsInside h
  · refine .inl ⟨String.ofList value, ?_, tokenize_literal _, tokensFrom_literal _⟩
    rwa [String.toList_ofList]
  · exact .inr hfails

/-- Two units are read as one character up to the closing quote. The digits of a unit may run over that quote, and the
decoder then fails at the end of what was cut off. -/
theorem string_readers_agree_on_units :
    ReadWhole ['\\', 'u', 'd', '8', '3', 'd', '\\', 'u', 'd', 'e', '0', '0', '"', 'x'] 13 ['😀'] ∧
    ∃ fault, FailsInside ['\\', 'u', '1', '2', '"', 'a', 'b'] 5 fault ∧ fault.read = 6 := by
  have hpair : Denotes ['\\', 'u', 'd', '8', '3', 'd', '\\', 'u', 'd', 'e', '0', '0'] ['😀'] :=
    .cons (.pair rfl rfl ⟨'d', '8', '3', 'd', rfl, rfl⟩ ⟨'d', 'e', '0', '0', rfl, rfl⟩ rfl) .nil
  have hshort : decode 1 ['\\', 'u', '1', '2', '"'] = .error ⟨.ended, 6⟩ := by
    rw [decode]
    rfl
  constructor
  · obtain ⟨s, hread, -⟩ | ⟨fault, hfails⟩ :=
      (string_readers_agree ['\\', 'u', 'd', '8', '3', 'd', '\\', 'u', 'd', 'e', '0', '0', '"', 'x'] 13).2 rfl
    · have hs := hread.slice.symm.trans (decode_eq_ok_iff.mpr ⟨_, hpair, rfl⟩)
      rw [Except.ok.injEq, Prod.mk.injEq] at hs
      rwa [← hs.1]
    · exact absurd hpair (hfails.not_denotes _)
  · obtain ⟨s, hread, -⟩ | ⟨fault, hfails⟩ := (string_readers_agree ['\\', 'u', '1', '2', '"', 'a', 'b'] 5).2 rfl
    · cases hshort.symm.trans hread.slice
    · cases hshort.symm.trans hfails.slice
      exact ⟨_, hfails, rfl⟩

end AliasLang.Program
