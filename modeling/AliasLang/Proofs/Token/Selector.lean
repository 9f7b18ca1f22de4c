/-
Selectors in writing. A form is a way to write a selector: one of two names, or numerals with signs and marks between
them, where each numeral is within the limit of its place. The reader tries the marks in a fixed order and looks at the
first occurrence of each. That it still accepts exactly the forms comes down to which characters a bound can hold:
digits, and a dash in front. So the dots, the plus and the dash that the reader finds first are those of the form.
-/
import AliasLang.Proofs.Command.Marker
import AliasLang.Token.Selector

namespace AliasLang.Token.Selector

open Text

/-! ## Numerals and bounds -/

/-- A number that is written in ASCII digits and is at most `limit`. Leading zeros are allowed. -/
@[ext] structure Numeral (limit : Nat) where
  digits : List Char
  nonempty : digits ≠ []
  isDigit : ∀ c ∈ digits, c.isDigit = true
  inRange : withDigits 0 digits ≤ limit

/-- The number that the digits stand for. -/
def Numeral.value {limit : Nat} (n : Numeral limit) : Nat := withDigits 0 n.digits

/-- A bound of an index or a slice: a numeral, perhaps behind a minus sign. -/
@[ext] structure Bound where
  isNegative : Bool
  numeral : Numeral maxSigned

namespace Bound

def text (b : Bound) : List Char := if b.isNegative then '-' :: b.numeral.digits else b.numeral.digits

def value (b : Bound) : Int := if b.isNegative then -(b.numeral.value : Int) else b.numeral.value

end Bound

theorem Numeral.not_mem {limit : Nat} (n : Numeral limit) {c : Char} (hc : c.isDigit = false) : c ∉ n.digits := by
  intro h
  rw [n.isDigit c h] at hc
  cases hc

/-- Bounded decimals are numerals. -/
theorem boundedDecimal?_eq_some_iff {limit n : Nat} {cs : List Char} :
    boundedDecimal? limit cs = some n ↔ ∃ m : Numeral limit, m.digits = cs ∧ m.value = n := by
  rw [boundedDecimal?, Option.filter_eq_some_iff, decide_eq_true_eq, decimal?]
  constructor
  · rintro ⟨h, hle⟩
    split at h
    · cases h
    · rename_i hcs
      cases h
      simp only [Bool.or_eq_true, List.isEmpty_iff, Bool.not_eq_true', not_or, Bool.not_eq_false,
        List.all_eq_true] at hcs
      exact ⟨⟨cs, hcs.1, hcs.2, hle⟩, rfl, rfl⟩
  · rintro ⟨m, rfl, rfl⟩
    have hall : m.digits.all Char.isDigit = true := List.all_eq_true.mpr m.isDigit
    exact ⟨by simp [m.nonempty, hall, Numeral.value], m.inRange⟩

theorem unsigned?_digits (n : Numeral maxUnsigned) : unsigned? n.digits = some n.value :=
  boundedDecimal?_eq_some_iff.mpr ⟨n, rfl, rfl⟩

namespace Bound

theorem not_mem (b : Bound) {c : Char} (hc : c.isDigit = false) (hdash : c ≠ '-') : c ∉ b.text := by
  unfold text
  split
  · rw [List.mem_cons, not_or]
    exact ⟨hdash, b.numeral.not_mem hc⟩
  · exact b.numeral.not_mem hc

theorem exists_digit (b : Bound) : ∃ c ∈ b.text, c.isDigit = true := by
  obtain ⟨c, hc⟩ := List.exists_mem_of_ne_nil _ b.numeral.nonempty
  refine ⟨c, ?_, b.numeral.isDigit c hc⟩
  unfold text
  split
  · exact List.mem_cons_of_mem _ hc
  · exact hc

theorem text_ne_nil (b : Bound) : b.text ≠ [] := by
  obtain ⟨c, hc, -⟩ := b.exists_digit
  exact List.ne_nil_of_mem hc

theorem text_injective : Function.Injective text := by
  rintro ⟨_ | _, m⟩ ⟨_ | _, n⟩ h
  · rw [Numeral.ext (show m.digits = n.digits from h)]
  · have hdash : '-' ∈ m.digits := by
      rw [show m.digits = '-' :: n.digits from h]
      exact List.mem_cons_self
    exact absurd hdash (m.not_mem (by decide))
  · have hdash : '-' ∈ n.digits := by
      rw [show n.digits = '-' :: m.digits from h.symm]
      exact List.mem_cons_self
    exact absurd hdash (n.not_mem (by decide))
  · have hdigits : m.digits = n.digits := (List.cons.inj h).2
    rw [Numeral.ext hdigits]

end Bound

/-- The text of a bound that may be missing. -/
theorem Bound.text_elim_injective {a b : Option Bound} (h : a.elim [] text = b.elim [] text) : a = b := by
  cases a with
  | none =>
    cases b with
    | none => rfl
    | some b => exact absurd h.symm b.text_ne_nil
  | some a =>
    cases b with
    | none => exact absurd h a.text_ne_nil
    | some b => rw [Bound.text_injective h]

theorem signedDecimal?_minus (limit : Nat) (digits : List Char) :
    signedDecimal? limit ('-' :: digits) = (boundedDecimal? limit digits).map fun n : Nat => -(n : Int) := by
  rw [signedDecimal?]
  cases boundedDecimal? limit digits <;> rfl

theorem signedDecimal?_plain {limit : Nat} {cs : List Char} (h : ¬ ∃ digits, cs = '-' :: digits) :
    signedDecimal? limit cs = (boundedDecimal? limit cs).map Int.ofNat := by
  unfold signedDecimal?
  split
  · exact absurd ⟨_, rfl⟩ h
  · rfl

/-- The sign is all that a bound adds to a numeral. -/
theorem signed?_eq_some_iff {cs : List Char} {i : Int} :
    signed? cs = some i ↔ ∃ b : Bound, b.text = cs ∧ b.value = i := by
  constructor
  · intro h
    unfold signed? at h
    by_cases hdash : ∃ digits, cs = '-' :: digits
    · obtain ⟨digits, rfl⟩ := hdash
      rw [signedDecimal?_minus] at h
      obtain ⟨n, hn, rfl⟩ := Option.map_eq_some_iff.mp h
      obtain ⟨m, rfl, rfl⟩ := boundedDecimal?_eq_some_iff.mp hn
      exact ⟨⟨true, m⟩, rfl, rfl⟩
    · rw [signedDecimal?_plain hdash] at h
      obtain ⟨n, hn, rfl⟩ := Option.map_eq_some_iff.mp h
      obtain ⟨m, rfl, rfl⟩ := boundedDecimal?_eq_some_iff.mp hn
      exact ⟨⟨false, m⟩, rfl, rfl⟩
  · rintro ⟨⟨isNegative, m⟩, rfl, rfl⟩
    have hm : boundedDecimal? maxSigned m.digits = some m.value := boundedDecimal?_eq_some_iff.mpr ⟨m, rfl, rfl⟩
    cases isNegative with
    | true =>
      show signedDecimal? maxSigned ('-' :: m.digits) = _
      rw [signedDecimal?_minus, hm]
      rfl
    | false =>
      have hdash : ¬ ∃ digits, m.digits = '-' :: digits := by
        rintro ⟨digits, hdigits⟩
        exact absurd (by rw [hdigits]; exact List.mem_cons_self) (m.not_mem (by decide : '-'.isDigit = false))
      show signedDecimal? maxSigned m.digits = _
      rw [signedDecimal?_plain hdash, hm]
      rfl

theorem signed?_text (b : Bound) : signed? b.text = some b.value := signed?_eq_some_iff.mpr ⟨b, rfl, rfl⟩

/-! ## Forms -/

/-- What can be written between `${` and `}`. -/
inductive Form where
  | executor
  | channel
  | index (bound : Bound)
  | onward (start : Numeral maxUnsigned)
  | range (start stop : Numeral maxUnsigned)
  | slice (start : Bound) (stop : Option Bound)

namespace Form

def text : Form → String
  | executor => "executor"
  | channel => "channel"
  | index bound => String.ofList bound.text
  | onward start => String.ofList (start.digits ++ ['+'])
  | range start stop => String.ofList (start.digits ++ '-' :: stop.digits)
  | slice start stop => String.ofList (start.text ++ '.' :: '.' :: stop.elim [] Bound.text)

/-- What is selected, with the numbers that are written. -/
def selector : Form → Selector
  | executor => .executor
  | channel => .channel
  | index bound => .index bound.value
  | onward start => .onward start.value
  | range start stop => .range start.value stop.value
  | slice start stop => .slice start.value (stop.map Bound.value)

/-- One of the two names. -/
def isName : Form → Bool
  | executor | channel => true
  | _ => false

end Form

/-! ## Reading what is written -/

theorem slice?_text (start : Bound) (stop : Option Bound) :
    slice? start.text (stop.elim [] Bound.text) = some (.slice start.value (stop.map Bound.value)) := by
  unfold slice?
  rw [signed?_text]
  cases stop with
  | none => rfl
  | some stop =>
    have hne : stop.text.isEmpty = false := by simpa using stop.text_ne_nil
    simp [signed?_text, hne]

theorem numeric?_slice (start : Bound) (stop : Option Bound) :
    numeric? (start.text ++ '.' :: '.' :: stop.elim [] Bound.text) =
      some (.slice start.value (stop.map Bound.value)) := by
  have hsplit := splitOnce?_append ['.'] (stop.elim [] Bound.text) (start.not_mem (by decide : '.'.isDigit = false)
    (by decide))
  rw [List.cons_append, List.singleton_append] at hsplit
  rw [numeric?, hsplit]
  exact slice?_text start stop

theorem numeric?_onward (start : Numeral maxUnsigned) :
    numeric? (start.digits ++ ['+']) = some (.onward start.value) := by
  have hdots : '.' ∉ start.digits ++ ['+'] := by simp [start.not_mem (by decide : '.'.isDigit = false)]
  rw [numeric?, splitOnce?_eq_none _ hdots]
  simp [unsigned?_digits]

/-- The last digit is no plus sign. -/
theorem getLast?_digits {limit : Nat} (n : Numeral limit) (front : List Char) :
    (front ++ n.digits).getLast? ≠ some '+' := by
  rw [List.getLast?_append_of_ne_nil _ n.nonempty]
  intro h
  exact n.not_mem (by decide) (List.mem_of_mem_getLast? h)

theorem head?_digits {limit : Nat} (n : Numeral limit) (rest : List Char) : (n.digits ++ rest).head? ≠ some '-' := by
  rw [List.head?_append_of_ne_nil _ n.nonempty]
  intro h
  exact n.not_mem (by decide) (List.mem_of_mem_head? h)

theorem numeric?_range (start stop : Numeral maxUnsigned) :
    numeric? (start.digits ++ '-' :: stop.digits) = some (.range start.value stop.value) := by
  have hdots : '.' ∉ start.digits ++ '-' :: stop.digits := by
    simp [start.not_mem (by decide : '.'.isDigit = false), stop.not_mem (by decide : '.'.isDigit = false)]
  have hplus : (start.digits ++ '-' :: stop.digits).getLast? ≠ some '+' := by
    have hlast := getLast?_digits stop (start.digits ++ ['-'])
    rwa [List.append_assoc] at hlast
  have hsplit : splitOnce? ['-'] (start.digits ++ '-' :: stop.digits) = some (start.digits, stop.digits) :=
    splitOnce?_append [] stop.digits (start.not_mem (by decide))
  rw [numeric?, splitOnce?_eq_none _ hdots]
  dsimp only
  rw [if_neg hplus, if_neg (head?_digits start _), hsplit]
  simp [range?, unsigned?_digits]

/-- A dash in front is a sign, and without a sign there is no dash. -/
theorem numeric?_index (bound : Bound) : numeric? bound.text = some (.index bound.value) := by
  have hdots : '.' ∉ bound.text := bound.not_mem (by decide) (by decide)
  have hsigned : (signed? bound.text).map Selector.index = some (.index bound.value) := by
    rw [signed?_text]
    rfl
  rw [numeric?, splitOnce?_eq_none _ hdots]
  dsimp only
  obtain ⟨isNegative, m⟩ := bound
  cases isNegative with
  | true =>
    have hplus : (Bound.text ⟨true, m⟩).getLast? ≠ some '+' := getLast?_digits m ['-']
    have hdash : (Bound.text ⟨true, m⟩).head? = some '-' := rfl
    rw [if_neg hplus, if_pos hdash, hsigned]
  | false =>
    have hplus : (Bound.text ⟨false, m⟩).getLast? ≠ some '+' := getLast?_digits m []
    have hdash : (Bound.text ⟨false, m⟩).head? ≠ some '-' := by
      have hhead := head?_digits m []
      rwa [List.append_nil] at hhead
    have hnone : splitOnce? ['-'] (Bound.text ⟨false, m⟩) = none := splitOnce?_eq_none [] (m.not_mem (by decide))
    rw [if_neg hplus, if_neg hdash, hnone, hsigned]

theorem Form.numeric?_text (form : Form) (h : form.isName = false) :
    numeric? form.text.toList = some form.selector := by
  cases form with
  | executor | channel => cases h
  | index bound => rw [text, String.toList_ofList, numeric?_index, selector]
  | onward start => rw [text, String.toList_ofList, numeric?_onward, selector]
  | range start stop => rw [text, String.toList_ofList, numeric?_range, selector]
  | slice start stop => rw [text, String.toList_ofList, numeric?_slice, selector]

/-- The forms with numbers hold a digit, which the names do not. -/
theorem Form.exists_digit (form : Form) (h : form.isName = false) : ∃ c ∈ form.text.toList, c.isDigit = true := by
  have hdigits : ∀ n : Numeral maxUnsigned, ∃ c ∈ n.digits, c.isDigit = true := fun n =>
    (List.exists_mem_of_ne_nil _ n.nonempty).imp fun c hc => ⟨hc, n.isDigit c hc⟩
  cases form with
  | executor | channel => cases h
  | index bound =>
    rw [text, String.toList_ofList]
    exact bound.exists_digit
  | onward start | range start stop =>
    obtain ⟨c, hc, hdigit⟩ := hdigits start
    rw [text, String.toList_ofList]
    exact ⟨c, List.mem_append_left _ hc, hdigit⟩
  | slice start stop =>
    obtain ⟨c, hc, hdigit⟩ := start.exists_digit
    rw [text, String.toList_ofList]
    exact ⟨c, List.mem_append_left _ hc, hdigit⟩

theorem Form.read?_text (form : Form) : read? form.text = some form.selector := by
  cases h : form.isName with
  | true =>
    cases form with
    | executor | channel => rfl
    | index | onward | range | slice => cases h
  | false =>
    obtain ⟨c, hc, hdigit⟩ := form.exists_digit h
    have hname : ∀ name : String, (name.toList.all fun c => !c.isDigit) = true → form.text ≠ name := by
      rintro name hall rfl
      simpa [hdigit] using List.all_eq_true.mp hall c hc
    rw [read?, if_neg (hname _ (by decide)), if_neg (hname _ (by decide))]
    exact form.numeric?_text h

/-! ## What is read was written -/

/-- Some form is written so and gives the selector. -/
def Written (cs : List Char) (s : Selector) : Prop := ∃ form : Form, form.text = String.ofList cs ∧ form.selector = s

theorem slice?_written {first last : List Char} {s : Selector} (h : slice? first last = some s) :
    Written (first ++ (['.', '.'] ++ last)) s := by
  simp only [slice?, Option.bind_eq_bind, Option.bind_eq_some_iff] at h
  obtain ⟨i, hi, h⟩ := h
  obtain ⟨start, rfl, rfl⟩ := signed?_eq_some_iff.mp hi
  split at h
  · rename_i hempty
    cases h
    rw [List.isEmpty_iff.mp hempty]
    exact ⟨.slice start none, rfl, rfl⟩
  · obtain ⟨j, hj, h⟩ := Option.bind_eq_some_iff.mp h
    obtain ⟨stop, rfl, rfl⟩ := signed?_eq_some_iff.mp hj
    cases h
    exact ⟨.slice start (some stop), rfl, rfl⟩

theorem range?_written {first last : List Char} {s : Selector} (h : range? first last = some s) :
    Written (first ++ (['-'] ++ last)) s := by
  simp only [range?, Option.bind_eq_bind, Option.bind_eq_some_iff] at h
  obtain ⟨m, hm, n, hn, h⟩ := h
  obtain ⟨start, rfl, rfl⟩ := boundedDecimal?_eq_some_iff.mp hm
  obtain ⟨stop, rfl, rfl⟩ := boundedDecimal?_eq_some_iff.mp hn
  cases h
  exact ⟨.range start stop, rfl, rfl⟩

theorem index_written {cs : List Char} {s : Selector} (h : (signed? cs).map Selector.index = some s) :
    Written cs s := by
  obtain ⟨i, hi, rfl⟩ := Option.map_eq_some_iff.mp h
  obtain ⟨bound, rfl, rfl⟩ := signed?_eq_some_iff.mp hi
  exact ⟨.index bound, rfl, rfl⟩

theorem onward_written {cs : List Char} {s : Selector} (hplus : cs.getLast? = some '+')
    (h : (unsigned? cs.dropLast).map Selector.onward = some s) : Written cs s := by
  obtain ⟨n, hn, rfl⟩ := Option.map_eq_some_iff.mp h
  obtain ⟨start, hdigits, rfl⟩ := boundedDecimal?_eq_some_iff.mp hn
  refine ⟨.onward start, ?_, rfl⟩
  rw [Form.text, hdigits, List.dropLast_append_getLast? '+' hplus]

theorem numeric?_written {cs : List Char} {s : Selector} (h : numeric? cs = some s) : Written cs s := by
  unfold numeric? at h
  split at h
  · rename_i first last hsplit
    rw [splitOnce?_eq_some hsplit]
    exact slice?_written h
  split at h
  · rename_i hplus
    exact onward_written hplus h
  split at h
  · exact index_written h
  split at h
  · rename_i first last hsplit
    rw [splitOnce?_eq_some hsplit]
    exact range?_written h
  · exact index_written h

theorem read?_eq_some_iff {inner : String} {s : Selector} :
    read? inner = some s ↔ ∃ form : Form, form.text = inner ∧ form.selector = s := by
  constructor
  · intro h
    unfold read? at h
    split at h
    · rename_i hname
      cases h
      exact ⟨.executor, hname.symm, rfl⟩
    split at h
    · rename_i hname
      cases h
      exact ⟨.channel, hname.symm, rfl⟩
    · have hwritten := numeric?_written h
      rwa [Written, String.ofList_toList] at hwritten
  · rintro ⟨form, rfl, rfl⟩
    exact form.read?_text

/-- No text is written in two forms, nor in one form with two runs of digits. The selector that is read tells the form,
and the place of the first mark tells the runs. -/
theorem Form.text_injective : Function.Injective Form.text := by
  intro f g h
  have hsame : f.selector = g.selector := by
    have hf := f.read?_text
    rw [h, g.read?_text] at hf
    exact (Option.some.inj hf).symm
  have hchars : f.text.toList = g.text.toList := congrArg String.toList h
  cases f with
  | executor =>
    cases g with
    | executor => rfl
    | channel | index | onward | range | slice => cases hsame
  | channel =>
    cases g with
    | channel => rfl
    | executor | index | onward | range | slice => cases hsame
  | index b =>
    cases g with
    | index c =>
      simp only [text, String.toList_ofList] at hchars
      rw [Bound.text_injective hchars]
    | executor | channel | onward | range | slice => cases hsame
  | onward m =>
    cases g with
    | onward n =>
      simp only [text, String.toList_ofList] at hchars
      rw [Numeral.ext (List.append_cancel_right hchars)]
    | executor | channel | index | range | slice => cases hsame
  | range a b =>
    cases g with
    | range c d =>
      have hdash : ∀ m n : Numeral maxUnsigned,
          splitOnce? ['-'] (m.digits ++ '-' :: n.digits) = some (m.digits, n.digits) :=
        fun m n => splitOnce?_append [] n.digits (m.not_mem (by decide))
      have hparts := congrArg (splitOnce? ['-']) hchars
      simp only [text, String.toList_ofList, hdash, Option.some.injEq, Prod.mk.injEq] at hparts
      rw [Numeral.ext hparts.1, Numeral.ext hparts.2]
    | executor | channel | index | onward | slice => cases hsame
  | slice a b =>
    cases g with
    | slice c d =>
      have hdots : ∀ (m : Bound) (rest : List Char),
          splitOnce? ['.', '.'] (m.text ++ '.' :: '.' :: rest) = some (m.text, rest) :=
        fun m rest => splitOnce?_append ['.'] rest (m.not_mem (by decide) (by decide))
      have hparts := congrArg (splitOnce? ['.', '.']) hchars
      simp only [text, String.toList_ofList, hdots, Option.some.injEq, Prod.mk.injEq] at hparts
      rw [Bound.text_injective hparts.1, Bound.text_elim_injective hparts.2]
    | executor | channel | index | onward | range => cases hsame

/-! ## Canonical texts -/

/-- The numbers of the selector are in range: those that may be negative by absolute value. -/
def Fits : Selector → Prop
  | .index i => i.natAbs ≤ maxSigned
  | .onward start => start ≤ maxUnsigned
  | .range start stop => start ≤ maxUnsigned ∧ stop ≤ maxUnsigned
  | .slice start stop => start.natAbs ≤ maxSigned ∧ ∀ i ∈ stop, i.natAbs ≤ maxSigned
  | .executor | .channel => True

theorem Bound.natAbs_value (b : Bound) : b.value.natAbs ≤ maxSigned := by
  have hrange : b.numeral.value ≤ maxSigned := b.numeral.inRange
  unfold value
  split
  · rwa [Int.natAbs_neg, Int.natAbs_natCast]
  · rwa [Int.natAbs_natCast]

theorem Form.selector_fits (form : Form) : form.selector.Fits := by
  cases form with
  | executor | channel => trivial
  | index bound => exact bound.natAbs_value
  | onward start => exact start.inRange
  | range start stop => exact ⟨start.inRange, stop.inRange⟩
  | slice start stop =>
    refine ⟨start.natAbs_value, fun i hi => ?_⟩
    obtain ⟨b, -, rfl⟩ := Option.map_eq_some_iff.mp hi
    exact b.natAbs_value

/-- The digits of a number as it is printed. -/
def Numeral.ofNat {limit : Nat} (n : Nat) (h : n ≤ limit) : Numeral limit where
  digits := Nat.toDigits 10 n
  nonempty := Nat.toDigits_ne_nil
  isDigit := fun _ hc => Nat.isDigit_of_mem_toDigits (by decide) (by decide) hc
  inRange := by
    have hval : withDigits 0 (Nat.toDigits 10 n) = n := Nat.ofDigitChars_ten_toDigits
    rwa [hval]

theorem Numeral.value_ofNat {limit n : Nat} (h : n ≤ limit) : (Numeral.ofNat n h).value = n :=
  Nat.ofDigitChars_ten_toDigits

/-- A signed number as it is printed. -/
def Bound.ofInt (i : Int) (h : i.natAbs ≤ maxSigned) : Bound := ⟨decide (i < 0), .ofNat i.natAbs h⟩

theorem Bound.value_ofInt {i : Int} (h : i.natAbs ≤ maxSigned) : (Bound.ofInt i h).value = i := by
  simp only [value, ofInt, Numeral.value_ofNat, decide_eq_true_eq]
  split <;> omega

theorem Bound.text_ofInt {i : Int} (h : i.natAbs ≤ maxSigned) : (Bound.ofInt i h).text = (toString i).toList := by
  cases i with
  | ofNat n =>
    show Nat.toDigits 10 n = (Nat.repr n).toList
    rw [Nat.toList_repr]
  | negSucc n =>
    have hsign : (Bound.ofInt (Int.negSucc n) h).isNegative = true :=
      decide_eq_true (Int.negSucc_lt_zero n)
    have hprinted : toString (Int.negSucc n) = "-" ++ Nat.repr (n + 1) := rfl
    rw [text, if_pos hsign, hprinted, String.toList_append, Nat.toList_repr]
    rfl

theorem Numeral.digits_ofNat {limit n : Nat} (h : n ≤ limit) : (Numeral.ofNat n h).digits = (toString n).toList :=
  (Nat.toList_repr).symm

/-- The canonical text of a selector is one of its forms. -/
theorem exists_form_inner {s : Selector} (h : s.Fits) : ∃ form : Form, form.text = s.inner ∧ form.selector = s := by
  cases s with
  | executor => exact ⟨.executor, rfl, rfl⟩
  | channel => exact ⟨.channel, rfl, rfl⟩
  | index i =>
    have hi : i.natAbs ≤ maxSigned := h
    refine ⟨.index (.ofInt i hi), ?_, ?_⟩
    · rw [Form.text, Bound.text_ofInt, String.ofList_toList, inner]
    · rw [Form.selector, Bound.value_ofInt]
  | onward start =>
    have hstart : start ≤ maxUnsigned := h
    refine ⟨.onward (.ofNat start hstart), ?_, ?_⟩
    · rw [Form.text, Numeral.digits_ofNat, String.ofList_append, String.ofList_toList]
      rfl
    · rw [Form.selector, Numeral.value_ofNat]
  | range start stop =>
    obtain ⟨hstart, hstop⟩ : start ≤ maxUnsigned ∧ stop ≤ maxUnsigned := h
    refine ⟨.range (.ofNat start hstart) (.ofNat stop hstop), ?_, ?_⟩
    · have hinner : (Selector.range start stop).inner = toString start ++ "-" ++ toString stop := rfl
      apply String.toList_injective
      rw [hinner]
      simp [Form.text, Numeral.digits_ofNat]
    · rw [Form.selector, Numeral.value_ofNat, Numeral.value_ofNat]
  | slice start stop =>
    obtain ⟨hstart, hstop⟩ : start.natAbs ≤ maxSigned ∧ ∀ i ∈ stop, i.natAbs ≤ maxSigned := h
    cases stop with
    | none =>
      refine ⟨.slice (.ofInt start hstart) none, ?_, ?_⟩
      · have hinner : (Selector.slice start none).inner = toString start ++ ".." := rfl
        apply String.toList_injective
        rw [hinner]
        simp [Form.text, Bound.text_ofInt]
      · rw [Form.selector, Bound.value_ofInt, Option.map_none]
    | some stop =>
      refine ⟨.slice (.ofInt start hstart) (some (.ofInt stop (hstop stop rfl))), ?_, ?_⟩
      · have hinner : (Selector.slice start (some stop)).inner = toString start ++ ".." ++ toString stop := rfl
        apply String.toList_injective
        rw [hinner]
        simp [Form.text, Bound.text_ofInt]
      · rw [Form.selector, Bound.value_ofInt, Option.map_some, Bound.value_ofInt]

/-- What stands between `${` and `}`. -/
def insideOf (literal : String) : String := String.ofList (literal.toList.drop 2).dropLast

theorem insideOf_text (s : Selector) : insideOf s.text = s.inner := by
  have htext : s.text.toList = '$' :: '\x7b' :: (s.inner.toList ++ ['\x7d']) := by
    simp [text]
  rw [insideOf, htext]
  simp

/-- **The reader accepts exactly the forms.** A text is read as a selector if and only if some form is written so, and
the selector has the numbers of that form, each within its limit of 64 bits. No text has two forms. What was read can be
printed and read again. -/
theorem read_exactly_as_written :
    (∀ (inner : String) (s : Selector),
      read? inner = some s ↔ ∃ form : Form, form.text = inner ∧ form.selector = s) ∧
    Function.Injective Form.text ∧
    (∀ form : Form, form.selector.Fits) ∧
    ∀ (inner : String) (s : Selector), read? inner = some s → read? (insideOf s.text) = some s := by
  refine ⟨fun inner s => read?_eq_some_iff, Form.text_injective, Form.selector_fits, fun inner s h => ?_⟩
  obtain ⟨form, -, rfl⟩ := read?_eq_some_iff.mp h
  rw [insideOf_text]
  exact read?_eq_some_iff.mpr (exists_form_inner form.selector_fits)

/-- A range up to the greatest unsigned number, with zeros in front of its start. -/
theorem widest_range_reads_again :
    read? "007-18446744073709551615" = some (.range 7 18446744073709551615) ∧
      read? (insideOf (Selector.range 7 18446744073709551615).text) = some (.range 7 18446744073709551615) := by
  have h : read? "007-18446744073709551615" = some (.range 7 18446744073709551615) := by decide
  exact ⟨h, read_exactly_as_written.2.2.2 _ _ h⟩

end AliasLang.Token.Selector
