/-
Where a string literal ends. The scanner goes over a literal in pairs of a backslash and any character, the decoder in
escapes of two, six or twelve characters. They agree all the same: the scanner stops at the first quote that no unpaired
backslash precedes, and a text that stands for a value has no such quote and ends with no unpaired backslash, since no
digit of an escape is a quote or a backslash. So the quote that ends the decoder's text is the one that the scanner stops
at, and a decoder that fails has not come to it.
-/
import AliasLang.Proofs.Command.Quoting
import AliasLang.Proofs.Json.Quoted
import AliasLang.Proofs.Token.Lexeme

namespace AliasLang.Token

open Command.Quoting (WellQuoted quotedFrom readParameter? readParameter?_eq_some wellQuoted_iff_quotedFrom
  wellQuoted_iff_readParameter? wellQuoted_unique)
open Json.Quoted (Denotes Digits Form decode decode_eq_ok_iff decode_eq_error)

/-! ## The scanner -/

/-- The scanner stops at the quote that ends a parameter. -/
theorem stringLength?_eq_readParameter? (cs : List Char) :
    stringLength? cs = (readParameter? cs).map fun r => r.1.length + 1 := by
  fun_induction stringLength? cs with
  | case1 => rfl
  | case2 cs => rfl
  | case3 => rfl
  | case4 c cs hquote ih =>
    rw [ih, readParameter?, Option.map_map, Option.map_map]
    rfl
  | case5 c cs hquote hslash ih =>
    have hread : readParameter? (c :: cs) = (readParameter? cs).map fun r => (c :: r.1, r.2) := by
      simp [readParameter?, hslash]
    rw [ih, hread, Option.map_map, Option.map_map]
    rfl

/-- The scanner stops at the first quote that no unpaired backslash precedes. -/
theorem stringLength?_eq_some_iff {cs : List Char} {n : Nat} :
    stringLength? cs = some n ↔ ∃ text rest, cs = text ++ '"' :: rest ∧ WellQuoted text ∧ n = text.length + 1 := by
  rw [stringLength?_eq_readParameter?]
  constructor
  · intro h
    obtain ⟨⟨text, rest⟩, hread, rfl⟩ := Option.map_eq_some_iff.mp h
    have hcs := readParameter?_eq_some hread
    rw [hcs] at hread
    exact ⟨text, rest, hcs, (wellQuoted_iff_readParameter? rest text).mpr hread, rfl⟩
  · rintro ⟨text, rest, rfl, hquoted, rfl⟩
    rw [(wellQuoted_iff_readParameter? rest text).mp hquoted]
    rfl

/-! ## The decoder -/

theorem wellQuoted_digits {n : Nat} {w : List Char} (h : Digits n w) : WellQuoted w := by
  have hplain {w : List Char} (hw : ∀ e ∈ w, e ≠ '"' ∧ e ≠ '\\') : quotedFrom false w = true := by
    induction w with
    | nil => rfl
    | cons e w ih =>
      obtain ⟨he, hw⟩ := List.forall_mem_cons.mp hw
      simp [quotedFrom, he, ih hw]
  exact wellQuoted_iff_quotedFrom.mpr (hplain h.ne)

/-- An escape by code unit takes no quote with it. -/
theorem wellQuoted_unit {n : Nat} {w : List Char} (h : Digits n w) : WellQuoted ('\\' :: 'u' :: w) := by
  have hescape : WellQuoted ['\\', 'u'] := wellQuoted_iff_quotedFrom.mpr rfl
  exact hescape.append_iff.mpr (wellQuoted_digits h)

theorem wellQuoted_of_form {c : Char} {w : List Char} (h : Form c w) : WellQuoted w := by
  cases h with
  | plain hquote hslash hcontrol => simp [wellQuoted_iff_quotedFrom, quotedFrom, hquote, hslash]
  | letter h => simp [wellQuoted_iff_quotedFrom, quotedFrom]
  | unit h => exact wellQuoted_unit h
  | pair hn hm hv hw hc => exact (wellQuoted_unit hv).append_iff.mpr (wellQuoted_unit hw)

/-- A text that stands for a value can stand between quotes. -/
theorem wellQuoted_of_denotes {text value : List Char} (h : Denotes text value) : WellQuoted text := by
  induction h with
  | nil => exact wellQuoted_iff_quotedFrom.mpr rfl
  | cons hw h ih => exact (wellQuoted_of_form hw).append_iff.mpr ih

/-- Whatever follows the quote that the scanner stops at, the decoder stops at that quote or not at all. -/
theorem decode_wellQuoted_iff {read : Nat} {text rest value left : List Char} (h : WellQuoted text) :
    decode read (text ++ '"' :: rest) = .ok (value, left) ↔ Denotes text value ∧ left = rest := by
  rw [decode_eq_ok_iff]
  constructor
  · rintro ⟨text', htext, heq⟩
    obtain ⟨rfl, rfl⟩ := wellQuoted_unique h (wellQuoted_of_denotes htext) heq
    exact ⟨htext, rfl⟩
  · rintro ⟨htext, rfl⟩
    exact ⟨text, htext, rfl⟩

/-- A decoder that fails finds its fault in what stands before that quote, though it may have to read the quote for it. -/
theorem decode_wellQuoted_error {read : Nat} {text : List Char} {f : Json.Quoted.Fault} (h : WellQuoted text)
    (herror : decode read (text ++ ['"']) = .error f) :
    ∃ done value left, Denotes done value ∧ text = done ++ left ∧ left ≠ [] ∧
      read + done.length < f.read ∧ f.read ≤ read + (text ++ ['"']).length := by
  obtain ⟨done, value, left, hdone, heq, hhead, hf⟩ := decode_eq_error herror
  obtain rfl | ⟨left, c, rfl⟩ := List.eq_nil_or_concat left
  · -- a text that stands for a value does not go on behind the closing quote
    have hclosed : text ++ '"' :: ['"'] = done ++ '"' :: [] := by
      rw [← List.append_nil done, ← heq, List.append_assoc]
      rfl
    have := (wellQuoted_unique h (wellQuoted_of_denotes hdone) hclosed).2
    cases this
  · rw [List.concat_eq_append] at heq hhead hf
    rw [← List.append_assoc] at heq
    obtain ⟨rfl, hc⟩ := List.append_inj' heq rfl
    obtain rfl : '"' = c := by simpa using hc
    have hne : left ≠ [] := by
      rintro rfl
      exact hhead rfl
    obtain ⟨hfrom, hto⟩ := hf (by simp)
    refine ⟨done, value, left, hdone, rfl, hne, hfrom, ?_⟩
    simp only [List.length_tail, List.length_append, List.length_singleton] at hto ⊢
    omega

/-! ## Both -/

/-- The decoder reads the first `n` characters of `cs` as the rest of a literal with this value. -/
structure ReadWhole (cs : List Char) (n : Nat) (value : List Char) : Prop where
  denotes : Denotes (cs.take (n - 1)) value
  slice : decode 1 (cs.take n) = .ok (value, [])
  /-- The decoder would stop there by itself. -/
  alone : decode 1 cs = .ok (value, cs.drop n)
  token : lexeme '"' cs = .ok (.string (String.ofList value), n)

/-- The first `n` characters of `cs` are not the rest of a literal with a value, and the decoder finds a fault in them
before it comes to the last one. -/
structure FailsInside (cs : List Char) (n : Nat) (fault : Json.Quoted.Fault) : Prop where
  not_denotes : ∀ value, ¬Denotes (cs.take (n - 1)) value
  slice : decode 1 (cs.take n) = .error fault
  /-- It had read a text that stands for some value, and more is left than the closing quote. -/
  inside : ∃ done value left, Denotes done value ∧ cs.take (n - 1) = done ++ left ∧ left ≠ [] ∧
    done.length + 1 < fault.read
  read_le : fault.read ≤ ('"' :: cs.take n).length
  /-- The decoder would find no other end by itself. -/
  alone : ∀ r, decode 1 cs ≠ .ok r
  error : lexeme '"' cs = .error ⟨.badString (String.ofList ('"' :: cs.take n)) fault, 0, 0⟩

section
variable {text rest : List Char}

theorem take_text : (text ++ '"' :: rest).take (text.length + 1 - 1) = text := List.take_left

theorem take_slice : (text ++ '"' :: rest).take (text.length + 1) = text ++ ['"'] := by
  rw [List.append_cons, List.take_left' (by simp)]

theorem drop_slice : (text ++ '"' :: rest).drop (text.length + 1) = rest := by
  rw [List.append_cons, List.drop_left' (by simp)]

/-- What the scanner makes of a literal is what the decoder makes of the slice. -/
theorem lexeme_wellQuoted (h : WellQuoted text) :
    lexeme '"' (text ++ '"' :: rest) =
      ((decode 1 (text ++ ['"'])).map fun r => (.string (String.ofList r.1), text.length + 1)).mapError fun fault =>
        ⟨.badString (String.ofList ('"' :: (text ++ ['"']))) fault, 0, 0⟩ := by
  have hlength : stringLength? (text ++ '"' :: rest) = some (text.length + 1) :=
    stringLength?_eq_some_iff.mpr ⟨text, rest, rfl, h, rfl⟩
  show stringLexeme _ = _
  simp only [stringLexeme, hlength, take_slice]
  cases decode 1 (text ++ ['"']) <;> rfl

theorem readWhole_of_denotes {value : List Char} (htext : Denotes text value) :
    ReadWhole (text ++ '"' :: rest) (text.length + 1) value := by
  have h := wellQuoted_of_denotes htext
  have hslice : decode 1 (text ++ ['"']) = .ok (value, []) := (decode_wellQuoted_iff h).mpr ⟨htext, rfl⟩
  refine ⟨?_, ?_, ?_, ?_⟩
  · rwa [take_text]
  · rw [take_slice, hslice]
  · rw [drop_slice]
    exact (decode_wellQuoted_iff h).mpr ⟨htext, rfl⟩
  · rw [lexeme_wellQuoted h, hslice]
    rfl

theorem failsInside_of_error {fault : Json.Quoted.Fault} (h : WellQuoted text)
    (herror : decode 1 (text ++ ['"']) = .error fault) :
    FailsInside (text ++ '"' :: rest) (text.length + 1) fault := by
  have hno : ∀ value, ¬Denotes text value := by
    intro value hvalue
    rw [(decode_wellQuoted_iff h).mpr ⟨hvalue, rfl⟩] at herror
    cases herror
  obtain ⟨done, value, left, hdone, htext, hleft, hfrom, hto⟩ := decode_wellQuoted_error h herror
  refine ⟨?_, ?_, ⟨done, value, left, hdone, ?_, hleft, ?_⟩, ?_, ?_, ?_⟩
  · rwa [take_text]
  · rw [take_slice, herror]
  · rw [take_text, htext]
  · omega
  · rw [take_slice, List.length_cons]
    omega
  · intro r hdecode
    exact hno r.1 ((decode_wellQuoted_iff h).mp hdecode).1
  · rw [lexeme_wellQuoted h, herror, take_slice]
    rfl

end

/-- **The scanner and the decoder agree on where a literal ends.** -/
theorem readWhole_or_failsInside {cs : List Char} {n : Nat} (h : stringLength? cs = some n) :
    (∃ value, ReadWhole cs n value) ∨ ∃ fault, FailsInside cs n fault := by
  obtain ⟨text, rest, rfl, hquoted, rfl⟩ := stringLength?_eq_some_iff.mp h
  cases hdecode : decode 1 (text ++ ['"']) with
  | ok r => exact .inl ⟨r.1, readWhole_of_denotes ((decode_wellQuoted_iff hquoted).mp hdecode).1⟩
  | error fault => exact .inr ⟨fault, failsInside_of_error hquoted hdecode⟩

end AliasLang.Token
