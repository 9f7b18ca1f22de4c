/-
JSON texts by their parts. Only the grammar is checked here: strings stay as they are written between their quotes, so
that a string nobody reads may hold an escape that stands for no character, and of a number only the fact remains.
Values may nest to any depth.
-/
import AliasLang.Json.Quoted

namespace AliasLang.Json

/-- A JSON text by its parts. -/
inductive Raw where
  | null
  | bool (value : Bool)
  | number
  /-- A string as written, without its quotes. -/
  | str (written : List Char)
  | arr (items : List Raw)
  | obj (members : List (List Char × Raw))

namespace Raw

/-! ## Blanks, strings and numbers -/

/-- A blank between parts. -/
def isGap (c : Char) : Bool := c = ' ' || c = '\t' || c = '\n' || c = '\r'

/-- The text after its leading blanks. -/
def skipGap (cs : List Char) : List Char := cs.dropWhile isGap

/-- Reads up to the closing quote: what is written before it, and the text after it. -/
def written? : List Char → Option (List Char × List Char)
  | [] => none
  | '"' :: rest => some ([], rest)
  | '\\' :: 'u' :: a :: b :: c :: d :: rest =>
    if (Quoted.unitValue? a b c d).isSome then
      (written? rest).map fun (w, after) => ('\\' :: 'u' :: a :: b :: c :: d :: w, after)
    else none
  | '\\' :: c :: rest =>
    if (Quoted.letterEscape? c).isSome then (written? rest).map fun (w, after) => ('\\' :: c :: w, after) else none
  | c :: rest => if c.toNat < 0x20 then none else (written? rest).map fun (w, after) => (c :: w, after)

/-- The text after one or more digits. -/
def digits? : List Char → Option (List Char)
  | [] => none
  | c :: rest => if c.isDigit then some (rest.dropWhile Char.isDigit) else none

/-- The text after the integer part of a number, which has no leading zeros. -/
def integer? : List Char → Option (List Char)
  | '0' :: rest => if rest.head?.any Char.isDigit then none else some rest
  | cs => digits? cs

/-- The text after a fraction, if there is one. -/
def fraction? : List Char → Option (List Char)
  | '.' :: rest => digits? rest
  | cs => some cs

/-- The text after an exponent, if there is one. -/
def exponent? : List Char → Option (List Char)
  | [] => some []
  | c :: rest =>
    if c = 'e' || c = 'E' then
      match rest with
      | [] => none
      | s :: after => if s = '+' || s = '-' then digits? after else digits? rest
    else some (c :: rest)

/-- The text after a number. -/
def number? (cs : List Char) : Option (List Char) := do
  let unsigned := if cs.head? = some '-' then cs.tail else cs
  exponent? (← fraction? (← integer? unsigned))

/-! ## What is left is shorter -/

theorem length_skipGap_le (cs : List Char) : (skipGap cs).length ≤ cs.length :=
  (List.dropWhile_sublist _).length_le

theorem length_written_lt {cs w after : List Char} (h : written? cs = some (w, after)) :
    after.length < cs.length := by
  fun_induction written? cs generalizing w with
  | case1 | case4 | case6 | case7 => cases h
  | case2 => cases h; simp
  | case3 _ _ _ _ _ _ ih | case5 _ _ _ _ ih | case8 _ _ _ _ _ _ ih =>
    obtain ⟨⟨w', after'⟩, hw, e⟩ := Option.map_eq_some_iff.1 h
    cases e
    have := ih hw
    simp only [List.length_cons]
    omega

theorem length_digits_lt {cs rest : List Char} (h : digits? cs = some rest) : rest.length < cs.length := by
  have sub (l : List Char) : (l.dropWhile Char.isDigit).length ≤ l.length := (List.dropWhile_sublist _).length_le
  unfold digits? at h
  split at h
  · cases h
  · split at h
    · cases h; have := sub ‹_›; simp; omega
    · cases h

theorem length_integer_lt {cs rest : List Char} (h : integer? cs = some rest) : rest.length < cs.length := by
  unfold integer? at h
  split at h
  · split at h
    · cases h
    · cases h; simp
  · exact length_digits_lt h

theorem length_fraction_le {cs rest : List Char} (h : fraction? cs = some rest) : rest.length ≤ cs.length := by
  unfold fraction? at h
  split at h
  · have := length_digits_lt h; simp; omega
  · cases h; omega

theorem length_exponent_le {cs rest : List Char} (h : exponent? cs = some rest) : rest.length ≤ cs.length := by
  unfold exponent? at h
  split at h
  · cases h; simp
  · split at h
    · split at h
      · cases h
      · split at h
        · have := length_digits_lt h; simp; omega
        · have := length_digits_lt h; simp at this ⊢; omega
    · cases h; simp

theorem length_number_lt {cs rest : List Char} (h : number? cs = some rest) : rest.length < cs.length := by
  simp only [number?, Option.bind_eq_bind, Option.bind_eq_some_iff] at h
  obtain ⟨a, ha, b, hb, hc⟩ := h
  have h1 := length_integer_lt ha
  have h2 := length_fraction_le hb
  have h3 := length_exponent_le hc
  have h4 : (if cs.head? = some '-' then cs.tail else cs).length ≤ cs.length := by split <;> simp
  omega

/-! ## Values -/

/-- Something read from the front of a text, and the text after it, which is shorter. -/
structure Taken (α : Type) (cs : List Char) where
  value : α
  rest : List Char
  shorter : rest.length < cs.length

/-- Takes the given word. -/
def word? {α : Type} (word : List Char) (value : α) (cs : List Char) : Option (Taken α cs) :=
  if h : word.isPrefixOf cs ∧ word ≠ [] then
    some ⟨value, cs.drop word.length, by
      have := (List.isPrefixOf_iff_prefix.1 h.1).length_le
      have := List.length_pos_iff.2 h.2
      simp; omega⟩
  else none

mutual

/-- Takes a value, with the blanks before it. -/
def value? (cs : List Char) : Option (Taken Raw cs) :=
  match h : skipGap cs with
  | [] => none
  | c :: rest =>
    have le := length_skipGap_le cs
    if c = '"' then
      match h' : written? rest with
      | none => none
      | some (w, after) => some ⟨.str w, after, by have := length_written_lt h'; simp [h] at le; omega⟩
    else if c = '[' then
      match skipGap rest with
      | ']' :: _ => some ⟨.arr [], (skipGap rest).tail, by
          have := length_skipGap_le rest; simp [h] at le; simp; omega⟩
      | _ =>
        match items? rest with
        | none => none
        | some ⟨items, after, lt⟩ => some ⟨.arr items, after, by simp [h] at le; omega⟩
    else if c = '\x7b' then
      match skipGap rest with
      | '\x7d' :: _ => some ⟨.obj [], (skipGap rest).tail, by
          have := length_skipGap_le rest; simp [h] at le; simp; omega⟩
      | _ =>
        match members? rest with
        | none => none
        | some ⟨members, after, lt⟩ => some ⟨.obj members, after, by simp [h] at le; omega⟩
    else if c = '-' || c.isDigit then
      match h' : number? (c :: rest) with
      | none => none
      | some after => some ⟨.number, after, by have := length_number_lt h'; simp [h] at le this; omega⟩
    else
      let literal := word? "null".toList Raw.null (c :: rest)
        <|> word? "true".toList (Raw.bool true) (c :: rest)
        <|> word? "false".toList (Raw.bool false) (c :: rest)
      match literal with
      | none => none
      | some ⟨v, after, lt⟩ => some ⟨v, after, by simp [h] at le lt; omega⟩
termination_by 2 * cs.length
decreasing_by
  all_goals simp [h] at le; omega

/-- Takes the items of an array that has some, with its closing bracket. -/
def items? (cs : List Char) : Option (Taken (List Raw) cs) :=
  match value? cs with
  | none => none
  | some ⟨v, after, lt⟩ =>
    have le := length_skipGap_le after
    match h : skipGap after with
    | [] => none
    | c :: rest =>
      if c = ']' then some ⟨[v], rest, by simp [h] at le; omega⟩
      else if c = ',' then
        match items? rest with
        | none => none
        | some ⟨vs, after', lt'⟩ => some ⟨v :: vs, after', by simp [h] at le; omega⟩
      else none
termination_by 2 * cs.length + 1
decreasing_by
  · omega
  · simp [h] at le; omega

/-- Takes the members of an object that has some, with its closing brace. -/
def members? (cs : List Char) : Option (Taken (List (List Char × Raw)) cs) :=
  match h : skipGap cs with
  | [] => none
  | quote :: rest =>
    if quote ≠ '"' then none
    else
      have le := length_skipGap_le cs
      match h' : written? rest with
      | none => none
      | some (name, afterName) =>
        have lt := length_written_lt h'
        have le' := length_skipGap_le afterName
        match h'' : skipGap afterName with
        | ':' :: start =>
          match value? start with
          | none => none
          | some ⟨v, after, ltv⟩ =>
            have le'' := length_skipGap_le after
            match h''' : skipGap after with
            | [] => none
            | c :: next =>
              if c = '\x7d' then some ⟨[(name, v)], next, by simp [h, h'', h'''] at le le' le''; omega⟩
              else if c = ',' then
                match members? next with
                | none => none
                | some ⟨ms, after', lt'⟩ =>
                  some ⟨(name, v) :: ms, after', by simp [h, h'', h'''] at le le' le''; omega⟩
              else none
        | _ => none
termination_by 2 * cs.length + 1
decreasing_by
  · simp [h, h''] at le le'; omega
  · simp [h, h'', h'''] at le le' le''; omega

end

/-- The parts of a JSON text: one value, with blanks around it. -/
def ofText? (text : String) : Option Raw :=
  match value? text.toList with
  | some ⟨v, rest, _⟩ => if (skipGap rest).isEmpty then some v else none
  | none => none

/-! ## Reading -/

/-- The text that a written string stands for. -/
def decode? (written : List Char) : Option String :=
  match Quoted.decode 1 (written ++ ['"']) with
  | .ok (value, _) => some (String.ofList value)
  | .error _ => none

/-- A text. -/
def text? : Raw → Option String
  | .str w => decode? w
  | _ => none

/-- A truth value. -/
def flag? : Raw → Option Bool
  | .bool b => some b
  | _ => none

/-- The members of an object by their names. -/
def members : Raw → Option (List (String × Raw))
  | .obj ms => ms.mapM fun (name, v) => do return (← decode? name, v)
  | _ => none

/-- Those fields of a record that are given. An object gives them by name, each at most once, among other members that
do not count; an array gives them in order. -/
def fields? (names : List String) : Raw → Option (List (String × Raw))
  | .arr items => if items.length ≤ names.length then some (names.zip items) else none
  | raw => do
    let known := (← raw.members).filter fun (name, _) => names.contains name
    if (known.map Prod.fst).Nodup then some known else none

/-- Reads a field, or takes the value it has when it is not given. -/
def field? {α : Type} (read : Raw → Option α) (default : α) (name : String) (fields : List (String × Raw)) : Option α :=
  match fields.lookup name with
  | some raw => read raw
  | none => some default

end Raw
end AliasLang.Json
