/-
What the inside of a JSON string literal stands for, said without a reader: a text stands for a value if it is made of
one form of each character of the value, in order. A form is the character itself, a one-letter escape, or an escape by
one or two code units. The decoder accepts exactly the texts that stand for a value and have a quote behind them, and
gives that value. Where it fails, it has read forms of characters up to some place and finds fault with what comes next.
-/
import AliasLang.Json.Quoted
import Mathlib.Tactic.SplitIfs

namespace AliasLang.Text

/-! ## Hexadecimal digits -/

theorem hexValue?_lt {c : Char} {n : Nat} (h : hexValue? c = some n) : n < 16 := by
  have hle {a b : Char} (hc : (a ≤ c && c ≤ b) = true) : c.toNat ≤ b.toNat := by
    simp only [Bool.and_eq_true, decide_eq_true_eq] at hc
    exact hc.2
  unfold hexValue? at h
  split_ifs at h with hdigit hlower hupper
  · have : c.toNat ≤ '9'.toNat := hle hdigit
    cases h
    exact Nat.lt_of_le_of_lt (Nat.sub_le_sub_right this _) (by decide)
  · cases h
    exact Nat.lt_of_le_of_lt (Nat.add_le_add_right (Nat.sub_le_sub_right (hle hlower) _) _) (by decide)
  · cases h
    exact Nat.lt_of_le_of_lt (Nat.add_le_add_right (Nat.sub_le_sub_right (hle hupper) _) _) (by decide)

/-- No digit is a quote or a backslash. -/
theorem hexValue?_ne {c : Char} {n : Nat} (h : hexValue? c = some n) : c ≠ '"' ∧ c ≠ '\\' := by
  refine ⟨?_, ?_⟩ <;> rintro rfl <;> cases h

end AliasLang.Text

namespace AliasLang.Json.Quoted

/-! ## Forms of characters -/

/-- Four hexadecimal digits that give the code unit `n`. -/
def Digits (n : Nat) (w : List Char) : Prop := ∃ a b c d, w = [a, b, c, d] ∧ unitValue? a b c d = some n

/-- The ways to write a character inside a literal. -/
inductive Form (c : Char) : List Char → Prop where
  /-- As it is, unless it is a quote, a backslash or a control character. -/
  | plain (hquote : c ≠ '"') (hslash : c ≠ '\\') (hcontrol : ¬c.toNat < 0x20) : Form c [c]
  | letter {e : Char} (h : letterEscape? e = some c) : Form c ['\\', e]
  /-- By its number, which no surrogate has. -/
  | unit {w : List Char} (h : Digits c.toNat w) : Form c ('\\' :: 'u' :: w)
  /-- By its two units, beyond the basic plane. -/
  | pair {n m : Nat} {v w : List Char} (hn : isLeading n = true) (hm : isTrailing m = true) (hv : Digits n v)
      (hw : Digits m w) (hc : pairChar n m = c) : Form c ('\\' :: 'u' :: (v ++ '\\' :: 'u' :: w))

/-- The text stands for the value. -/
inductive Denotes : List Char → List Char → Prop where
  | nil : Denotes [] []
  | cons {c : Char} {w text value : List Char} (hw : Form c w) (h : Denotes text value) :
      Denotes (w ++ text) (c :: value)

/-! ## Digits and surrogates -/

theorem Digits.length {n : Nat} {w : List Char} (h : Digits n w) : w.length = 4 := by
  obtain ⟨a, b, c, d, rfl, -⟩ := h
  rfl

/-- Four digits have a value if each of them has one. -/
theorem unitValue?_eq_some {a b c d : Char} {n : Nat} (h : unitValue? a b c d = some n) :
    ∃ i j k l, Text.hexValue? a = some i ∧ Text.hexValue? b = some j ∧ Text.hexValue? c = some k ∧
      Text.hexValue? d = some l ∧ n = ((i * 16 + j) * 16 + k) * 16 + l := by
  simp only [unitValue?, Option.bind_eq_bind, Option.bind_eq_some_iff, Option.pure_def, Option.some.injEq] at h
  obtain ⟨i, hi, j, hj, k, hk, l, hl, rfl⟩ := h
  exact ⟨i, j, k, l, hi, hj, hk, hl, rfl⟩

theorem Digits.lt {n : Nat} {w : List Char} (h : Digits n w) : n < 0x10000 := by
  obtain ⟨a, b, c, d, -, h⟩ := h
  obtain ⟨i, j, k, l, hi, hj, hk, hl, rfl⟩ := unitValue?_eq_some h
  have := Text.hexValue?_lt hi
  have := Text.hexValue?_lt hj
  have := Text.hexValue?_lt hk
  have := Text.hexValue?_lt hl
  omega

theorem Digits.ne {n : Nat} {w : List Char} (h : Digits n w) : ∀ e ∈ w, e ≠ '"' ∧ e ≠ '\\' := by
  obtain ⟨a, b, c, d, rfl, h⟩ := h
  obtain ⟨i, j, k, l, hi, hj, hk, hl, -⟩ := unitValue?_eq_some h
  simp only [List.forall_mem_cons]
  exact ⟨Text.hexValue?_ne hi, Text.hexValue?_ne hj, Text.hexValue?_ne hk, Text.hexValue?_ne hl, by simp⟩

theorem toNat_ofNat {n : Nat} (hlt : n < 0x10000) (htrailing : isTrailing n = false) (hleading : isLeading n = false) :
    (Char.ofNat n).toNat = n := by
  have hvalid : n.isValidChar := by
    simp only [isTrailing, isLeading, Bool.and_eq_false_iff, decide_eq_false_iff_not] at htrailing hleading
    simp only [Nat.isValidChar]
    omega
  rw [Char.ofNat, dif_pos hvalid]
  rfl

theorem toNat_not_surrogate (c : Char) : isTrailing c.toNat = false ∧ isLeading c.toNat = false := by
  have h : c.toNat < 0xd800 ∨ 0xdfff < c.toNat := c.valid.imp id And.left
  simp only [isTrailing, isLeading, Bool.and_eq_false_iff, decide_eq_false_iff_not]
  omega

theorem isLeading_lt {n : Nat} (h : isLeading n = true) : n < 0x10000 := by
  simp only [isLeading, Bool.and_eq_true, decide_eq_true_eq] at h
  omega

theorem isTrailing_lt {n : Nat} (h : isTrailing n = true) : n < 0x10000 := by
  simp only [isTrailing, Bool.and_eq_true, decide_eq_true_eq] at h
  omega

/-- No unit both starts and ends a pair. -/
theorem isTrailing_of_isLeading {n : Nat} (h : isLeading n = true) : isTrailing n = false := by
  simp only [isLeading, Bool.and_eq_true, decide_eq_true_eq] at h
  simp only [isTrailing, Bool.and_eq_false_iff, decide_eq_false_iff_not]
  omega

/-! ## Code units -/

/-- The fault was found after `read` characters or more, and not behind the text `cs` that follows these. -/
def Fault.Within (f : Fault) (read : Nat) (cs : List Char) : Prop := read ≤ f.read ∧ f.read ≤ read + cs.length

theorem codeUnit_digits {n : Nat} {w : List Char} (h : Digits n w) (read : Nat) (cs : List Char) :
    codeUnit read (w ++ cs) = .ok n := by
  obtain ⟨a, b, c, d, rfl, hvalue⟩ := h
  simp only [List.cons_append, List.nil_append, codeUnit, hvalue]

theorem codeUnit_cases (read : Nat) (cs : List Char) :
    (∃ n w rest, cs = w ++ rest ∧ Digits n w) ∨ ∃ f, f.Within read cs ∧ codeUnit read cs = .error f := by
  fun_cases codeUnit read cs with
  | case1 a b c d rest n hvalue => exact .inl ⟨n, [a, b, c, d], rest, rfl, a, b, c, d, rfl, hvalue⟩
  | case2 a b c d rest hvalue => exact .inr ⟨_, by simp [Fault.Within], rfl⟩
  | case3 => exact .inr ⟨_, by simp [Fault.Within], rfl⟩

theorem trailingUnit_digits {m : Nat} {w : List Char} (hm : isTrailing m = true) (hw : Digits m w) (read : Nat)
    (cs : List Char) : trailingUnit read ('\\' :: 'u' :: (w ++ cs)) = .ok m := by
  simp only [trailingUnit, codeUnit_digits hw, bind, Except.bind, hm, ↓reduceIte]

theorem trailingUnit_cases (read : Nat) (cs : List Char) :
    (∃ m w rest, cs = '\\' :: 'u' :: (w ++ rest) ∧ Digits m w ∧ isTrailing m = true) ∨
      ∃ f, f.Within read cs ∧ trailingUnit read cs = .error f := by
  fun_cases trailingUnit read cs with
  | case1 => exact .inr ⟨_, by simp [Fault.Within], rfl⟩
  | case2 => exact .inr ⟨_, by simp [Fault.Within], rfl⟩
  | case3 cs =>
    obtain ⟨m, w, rest, rfl, hw⟩ | ⟨f, hf, hunit⟩ := codeUnit_cases (read + 2) cs
    · by_cases hm : isTrailing m = true
      · exact .inl ⟨m, w, rest, rfl, hw, hm⟩
      · refine .inr ⟨⟨.lone, read + 6⟩, ?_, ?_⟩
        · simp [Fault.Within, hw.length]
        · simp only [codeUnit_digits hw, bind, Except.bind, hm]
          rfl
    · refine .inr ⟨f, ?_, ?_⟩
      · simp [Fault.Within] at hf ⊢
        omega
      · rw [hunit]
        rfl
  | case4 => exact .inr ⟨_, by simp [Fault.Within], rfl⟩
  | case5 => exact .inr ⟨_, by simp [Fault.Within], rfl⟩

/-! ## Escapes -/

/-- The form of a character that starts with a backslash is read as an escape. -/
theorem Form.escaped {c : Char} {w : List Char} (h : Form c ('\\' :: w)) (read : Nat) (cs : List Char) :
    escaped read (w ++ cs) = .ok (c, w.length) := by
  cases h with
  | plain hquote hslash hcontrol => exact absurd rfl hslash
  | @letter e hvalue =>
    have hu : e ≠ 'u' := by
      rintro rfl
      cases hvalue
    simp [Quoted.escaped, hu, hvalue]
  | @unit w hw =>
    obtain ⟨htrailing, hleading⟩ := toNat_not_surrogate c
    simp [Quoted.escaped, codeUnit_digits hw, bind, Except.bind, htrailing, hleading, hw.length]
  | @pair n m v w hn hm hv hw hvalue =>
    have hdrop : (v ++ '\\' :: 'u' :: (w ++ cs)).drop 4 = '\\' :: 'u' :: (w ++ cs) := List.drop_left' hv.length
    simp [Quoted.escaped, codeUnit_digits hv, bind, Except.bind, hn, isTrailing_of_isLeading hn, hdrop,
      trailingUnit_digits hm hw, hv.length, hw.length, hvalue]

/-- An escape by code units is a form of a character, or a fault is found in it. -/
theorem escaped_unit_cases (read : Nat) (cs : List Char) :
    (∃ c w rest, 'u' :: cs = w ++ rest ∧ Form c ('\\' :: w)) ∨
      ∃ f, f.Within read ('u' :: cs) ∧ escaped read ('u' :: cs) = .error f := by
  obtain ⟨n, v, rest, rfl, hv⟩ | ⟨f, hf, hunit⟩ := codeUnit_cases (read + 1) cs
  · have hdrop : (v ++ rest).drop 4 = rest := List.drop_left' hv.length
    cases htrailing : isTrailing n with
    | true =>
      refine .inr ⟨⟨.lone, read + 5⟩, ?_, ?_⟩
      · simp [Fault.Within, hv.length]
      · simp [escaped, codeUnit_digits hv, bind, Except.bind, htrailing]
    | false =>
    cases hleading : isLeading n with
    | false =>
      refine .inl ⟨Char.ofNat n, 'u' :: v, rest, rfl, .unit ?_⟩
      rwa [toNat_ofNat hv.lt htrailing hleading]
    | true =>
      obtain ⟨m, w, rest, rfl, hw, hm⟩ | ⟨f, hf, hunit⟩ := trailingUnit_cases (read + 5) rest
      · exact .inl ⟨pairChar n m, 'u' :: (v ++ '\\' :: 'u' :: w), rest, by simp, .pair hleading hm hv hw rfl⟩
      · refine .inr ⟨f, ?_, ?_⟩
        · simp only [Fault.Within, List.length_cons, List.length_append, hv.length] at hf ⊢
          omega
        · simp [escaped, codeUnit_digits hv, bind, Except.bind, htrailing, hleading, hdrop, hunit]
  · refine .inr ⟨f, ?_, ?_⟩
    · simp only [Fault.Within, List.length_cons] at hf ⊢
      omega
    · simp [escaped, hunit, bind, Except.bind]

theorem escaped_cases (read : Nat) (cs : List Char) :
    (∃ c w rest, cs = w ++ rest ∧ Form c ('\\' :: w)) ∨ ∃ f, f.Within read cs ∧ escaped read cs = .error f := by
  cases cs with
  | nil => exact .inr ⟨⟨.ended, read⟩, by simp [Fault.Within], rfl⟩
  | cons e cs =>
    by_cases hu : e = 'u'
    · subst hu
      exact escaped_unit_cases read cs
    cases hvalue : letterEscape? e with
    | some c => exact .inl ⟨c, [e], cs, rfl, .letter hvalue⟩
    | none =>
      refine .inr ⟨⟨.escape, read + 1⟩, by simp [Fault.Within], ?_⟩
      simp only [escaped, if_neg hu, hvalue]

/-! ## Literals -/

theorem decode_quote (read : Nat) (rest : List Char) : decode read ('"' :: rest) = .ok ([], rest) := by
  rw [decode]
  rfl

theorem Form.decode_slash {c : Char} {v : List Char} (h : Form c ('\\' :: v)) (read : Nat) (cs : List Char) :
    decode read ('\\' :: (v ++ cs)) =
      (decode (read + ('\\' :: v).length) cs).map fun r => (c :: r.1, r.2) := by
  have hread : read + ('\\' :: v).length = read + 1 + v.length := by
    rw [List.length_cons]
    omega
  rw [decode, hread]
  simp only [h.escaped, List.drop_left]
  cases decode (read + 1 + v.length) cs <;> rfl

/-- A form of a character is read as that character, whatever follows it. -/
theorem Form.decode_append {c : Char} {w : List Char} (h : Form c w) (read : Nat) (cs : List Char) :
    decode read (w ++ cs) = (decode (read + w.length) cs).map fun r => (c :: r.1, r.2) := by
  cases h with
  | plain hquote hslash hcontrol =>
    rw [List.singleton_append, decode, if_neg hquote, if_neg hslash, if_neg hcontrol]
    cases decode (read + [c].length) cs <;> rfl
  | letter hvalue => exact (Form.letter hvalue).decode_slash read cs
  | unit hw => exact (Form.unit hw).decode_slash read cs
  | pair hn hm hv hw hvalue => exact (Form.pair hn hm hv hw hvalue).decode_slash read cs

/-- A text is read as the value that it stands for, whatever follows it. -/
theorem Denotes.decode_append {text value : List Char} (h : Denotes text value) (cs : List Char) : ∀ read : Nat,
    decode read (text ++ cs) = (decode (read + text.length) cs).map fun r => (value ++ r.1, r.2) := by
  induction h with
  | nil =>
    intro read
    cases hcs : decode read cs <;> simp [hcs, Except.map]
  | @cons c w text value hw h ih =>
    intro read
    rw [List.append_assoc, hw.decode_append, ih, List.length_append, Nat.add_assoc]
    cases decode (read + (w.length + text.length)) cs <;> rfl

theorem Form.ne_nil {c : Char} {w : List Char} (h : Form c w) : w ≠ [] := by
  cases h <;> simp

/-- One step of the decoder: unless a quote comes next, it reads a form of a character or finds a fault. -/
theorem decode_step (read : Nat) {c : Char} (hquote : c ≠ '"') (cs : List Char) :
    (∃ d w rest, c :: cs = w ++ rest ∧ Form d w) ∨ ∃ f, f.Within (read + 1) cs ∧ decode read (c :: cs) = .error f := by
  by_cases hslash : c = '\\'
  · subst hslash
    obtain ⟨d, w, rest, rfl, hw⟩ | ⟨f, hf, hescaped⟩ := escaped_cases (read + 1) cs
    · exact .inl ⟨d, '\\' :: w, rest, rfl, hw⟩
    · refine .inr ⟨f, hf, ?_⟩
      rw [decode]
      simp [hescaped]
  by_cases hcontrol : c.toNat < 0x20
  · refine .inr ⟨⟨.control, read + 1⟩, by simp [Fault.Within], ?_⟩
    rw [decode]
    simp [hquote, hslash, hcontrol]
  · exact .inl ⟨c, [c], cs, rfl, .plain hquote hslash hcontrol⟩

/-- A run of the decoder: it reads a text that stands for some value, and comes to a quote, to the end, or to a fault. -/
theorem decode_cases (read : Nat) (cs : List Char) :
    ∃ text value left, Denotes text value ∧ cs = text ++ left ∧
      ((∃ rest, left = '"' :: rest) ∨ left = [] ∨
        ∃ c rest f, c ≠ '"' ∧ left = c :: rest ∧ f.Within (read + text.length + 1) rest ∧
          decode (read + text.length) left = .error f) := by
  induction hlength : cs.length using Nat.strongRecOn generalizing read cs with
  | ind n ih =>
  subst hlength
  cases cs with
  | nil => exact ⟨[], [], [], .nil, rfl, .inr (.inl rfl)⟩
  | cons c cs =>
    by_cases hquote : c = '"'
    · exact ⟨[], [], _, .nil, rfl, .inl ⟨cs, by rw [hquote]⟩⟩
    obtain ⟨d, w, rest, hcs, hw⟩ | ⟨f, hf, herror⟩ := decode_step read hquote cs
    · have hlt : rest.length < (c :: cs).length := by
        have := List.length_pos_iff.mpr hw.ne_nil
        rw [hcs, List.length_append]
        omega
      obtain ⟨text, value, left, htext, rfl, hleft⟩ := ih _ hlt (read + w.length) rest rfl
      refine ⟨w ++ text, d :: value, left, .cons hw htext, ?_, ?_⟩
      · rw [hcs, List.append_assoc]
      · simpa only [List.length_append, Nat.add_assoc] using hleft
    · exact ⟨[], [], _, .nil, rfl, .inr (.inr ⟨c, cs, f, hquote, rfl, hf, herror⟩)⟩

/-- **The decoder accepts a text if it stands for a value and has a quote behind it, and gives that value.** -/
theorem decode_eq_ok_iff {read : Nat} {cs value rest : List Char} :
    decode read cs = .ok (value, rest) ↔ ∃ text, Denotes text value ∧ cs = text ++ '"' :: rest := by
  have hdecode {text value : List Char} (h : Denotes text value) (rest : List Char) :
      decode read (text ++ '"' :: rest) = .ok (value, rest) := by
    rw [h.decode_append, decode_quote]
    simp [Except.map]
  constructor
  · intro h
    obtain ⟨text, value', left, htext, rfl, ⟨rest', rfl⟩ | rfl | ⟨c, rest', f, -, -, -, herror⟩⟩ := decode_cases read cs
    · obtain ⟨rfl, rfl⟩ : value' = value ∧ rest' = rest := by simpa [hdecode htext] using h
      exact ⟨text, htext, rfl⟩
    · rw [htext.decode_append, decode] at h
      cases h
    · rw [htext.decode_append, herror] at h
      cases h
  · rintro ⟨text, htext, rfl⟩
    exact hdecode htext rest

/-- Where the decoder fails, it has read a text that stands for some value, and a quote does not come next. -/
theorem decode_eq_error {read : Nat} {cs : List Char} {f : Fault} (h : decode read cs = .error f) :
    ∃ text value left, Denotes text value ∧ cs = text ++ left ∧ left.head? ≠ some '"' ∧
      (left ≠ [] → f.Within (read + text.length + 1) left.tail) := by
  obtain ⟨text, value, left, htext, rfl, ⟨rest, rfl⟩ | rfl | ⟨c, rest, f', hquote, rfl, hf, herror⟩⟩ :=
    decode_cases read cs
  · rw [htext.decode_append, decode_quote] at h
    cases h
  · exact ⟨text, value, [], htext, rfl, by simp, fun hne => absurd rfl hne⟩
  · rw [htext.decode_append, herror] at h
    cases h
    exact ⟨text, value, c :: rest, htext, rfl, by simpa using hquote, fun _ => hf⟩

end AliasLang.Json.Quoted
