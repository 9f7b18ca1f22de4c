/-
Places in a text. A `Position` counts from the start of the text: bytes, line breaks, and characters since the
last line break. A `Span` is what messages and programs carry: the bytes from `start` to `stop`, and the line
and column, counted from one, at which they start.
-/

namespace AliasLang.Source

/-- How far a text has been read. -/
structure Position where
  /-- Bytes of UTF-8 read so far. -/
  offset : Nat
  /-- Line breaks read so far. -/
  line : Nat
  /-- Characters read since the last line break. -/
  column : Nat
deriving DecidableEq, Repr, Inhabited

namespace Position

/-- The start of a text. -/
def start : Position := ⟨0, 0, 0⟩

/-- The place after one more character. -/
def next (p : Position) (c : Char) : Position :=
  if c = '\n' then ⟨p.offset + c.utf8Size, p.line + 1, 0⟩ else ⟨p.offset + c.utf8Size, p.line, p.column + 1⟩

/-- The place after the characters of `text`. -/
def after (p : Position) (text : List Char) : Position :=
  text.foldl next p

@[simp] theorem after_nil (p : Position) : p.after [] = p := rfl

@[simp] theorem after_cons (p : Position) (c : Char) (text : List Char) :
    p.after (c :: text) = (p.next c).after text := rfl

theorem after_append (p : Position) (a b : List Char) : p.after (a ++ b) = (p.after a).after b := by
  simp [after, List.foldl_append]

end Position

/-- A stretch of a text, with the line and column of its start. -/
structure Span where
  /-- Byte offset of the start. -/
  start : Nat
  /-- Byte offset just after the end. -/
  stop : Nat
  /-- Line of the start, from one. -/
  line : Nat
  /-- Column of the start, from one, in characters. -/
  column : Nat
deriving DecidableEq, Repr

namespace Span

/-- The empty span at the first character of a text. -/
def origin : Span := ⟨0, 0, 1, 1⟩

instance : Inhabited Span := ⟨origin⟩

/-- The stretch from `p` to `q`. -/
def between (p q : Position) : Span :=
  ⟨p.offset, q.offset, p.line + 1, p.column + 1⟩

/-- The empty span at `p`. -/
def point (p : Position) : Span := between p p

/-- The least stretch that covers both spans, placed where the first one starts. -/
def join (a b : Span) : Span :=
  { a with start := min a.start b.start, stop := max a.stop b.stop }

/-- The place as messages give it: `line:column`. -/
def text (s : Span) : String :=
  s!"{s.line}:{s.column}"

/-- A message with its place in front. -/
def locate (s : Span) (message : String) : String :=
  s.text ++ ": " ++ message

end Span
end AliasLang.Source
