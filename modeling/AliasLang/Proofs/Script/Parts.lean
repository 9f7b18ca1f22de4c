/-
The parts of a script: its pieces, each without the semicolons in it. One round leaves out the declarations that no
other part mentions, whatever the places of tokens and the line break before the first of them.
-/
import AliasLang.Proofs.Script.Front

namespace AliasLang.Script

/-! ## Parts -/

/-- What counts of a piece: the name that it declares, if any, and its lexemes but for semicolons. -/
structure Part where
  name? : Option String
  lexemes : List (Kind × String)
deriving DecidableEq

namespace Part

/-- Whether `name` is a word of the part. -/
def mentions (name : String) (x : Part) : Bool := x.lexemes.contains (.word, name)

/-- A part that stays: it declares nothing, or another part mentions what it declares. -/
def supported (xs : List Part) (x : Part) : Bool :=
  match x.name? with
  | none => true
  | some name => 2 ≤ xs.countP (mentions name)

end Part

/-- The lexemes but for semicolons. -/
def bare (ts : List Token) : List (Kind × String) := (ts.filter (!·.isPunct ";")).map Token.lexed

/-- The part that a piece is. -/
def Piece.part (p : Piece) : Part := ⟨p.name?, bare p.tokens⟩

/-- The parts that some pieces are. A semicolon is none. -/
def parts (ps : List Piece) : List Part := (ps.map Piece.part).filter (·.lexemes ≠ [])

theorem bare_append (a b : List Token) : bare (a ++ b) = bare a ++ bare b := by
  rw [bare, List.filter_append, List.map_append]
  rfl

theorem bare_semicolon {s : Token} (hs : s.isPunct ";" = true) (ts : List Token) : bare (s :: ts) = bare ts := by
  simp [bare, hs]

theorem bare_append_semicolon {tail : List Token} (h : tail = [] ∨ ∃ s, tail = [s] ∧ s.isPunct ";" = true)
    (ts : List Token) : bare (ts ++ tail) = bare ts := by
  rcases h with rfl | ⟨s, rfl, hs⟩
  · rw [List.append_nil]
  · rw [bare_append, bare_semicolon hs]
    exact List.append_nil _

theorem contains_bare (name : String) (ts : List Token) :
    (bare ts).contains (.word, name) = ts.any (·.isWord name) := by
  induction ts with
  | nil => rfl
  | cons t ts ih =>
    by_cases hs : t.isPunct ";" = true
    · rw [bare_semicolon hs, ih, List.any_cons, isWord_semicolon name t hs, Bool.false_or]
    · have hbare : bare (t :: ts) = t.lexed :: bare ts := by simp [bare, hs]
      rw [hbare, List.contains_cons, ih, List.any_cons]
      congr 1
      rw [Token.isWord, Token.lexed, Bool.eq_iff_iff, beq_iff_eq, Prod.mk.injEq, Bool.and_eq_true,
        decide_eq_true_eq, decide_eq_true_eq, eq_comm, eq_comm (a := name)]

theorem parts_append (ps qs : List Piece) : parts (ps ++ qs) = parts ps ++ parts qs := by
  rw [parts, List.map_append, List.filter_append]
  rfl

theorem parts_semicolon {s : Token} (hs : s.isPunct ";" = true) (ps : List Piece) :
    parts (.token s :: ps) = parts ps := by
  have hnone : (Piece.token s).part.lexemes = [] := by simp [Piece.part, Piece.tokens, bare, hs]
  rw [parts, List.map_cons, List.filter_cons_of_neg (by simp [hnone])]
  rfl

theorem parts_declaration {t : Token} (ht : t.isPunct ";" = false) (name : String) (ts : List Token)
    (ps : List Piece) :
    parts (.declaration name (t :: ts) :: ps) = (Piece.declaration name (t :: ts)).part :: parts ps := by
  have hsome : bare (t :: ts) ≠ [] := by simp [bare, ht]
  exact List.filter_cons_of_pos (decide_eq_true hsome)

theorem flatMap_parts (ps : List Piece) : (parts ps).flatMap Part.lexemes = bare (ps.flatMap Piece.tokens) := by
  induction ps with
  | nil => rfl
  | cons p ps ih =>
    rw [List.flatMap_cons, bare_append, ← ih, ← List.singleton_append, parts_append, List.flatMap_append]
    congr 1
    by_cases hnone : bare p.tokens = []
    · have hpart : parts [p] = [] := by simp [parts, Piece.part, hnone]
      rw [hpart, hnone]
      rfl
    · have hpart : parts [p] = [p.part] := by simp [parts, Piece.part, hnone]
      rw [hpart, List.flatMap_singleton]
      rfl

theorem countP_parts (name : String) (ps : List Piece) :
    (parts ps).countP (Part.mentions name) = ps.countP fun p => p.tokens.any (·.isWord name) := by
  rw [parts, List.countP_filter, List.countP_map]
  refine List.countP_congr fun p _ => ?_
  have hmentions : p.part.mentions name = p.tokens.any (·.isWord name) := contains_bare name p.tokens
  rw [Function.comp_apply, hmentions, Bool.and_eq_true, decide_eq_true_eq, ← hmentions]
  refine and_iff_left_of_imp fun hmentioned hnone => ?_
  simp [Part.mentions, hnone] at hmentioned

theorem mentions_eq_countP (name : String) (ps : List Piece) :
    Piece.mentions name ps = decide (0 < (parts ps).countP (Part.mentions name)) := by
  rw [countP_parts, Bool.eq_iff_iff, decide_eq_true_eq, List.countP_pos_iff, Piece.mentions, List.any_eq_true]

theorem bare_eq_flatMap_parts (ts : List Token) : bare ts = (parts (pieces ts)).flatMap Part.lexemes := by
  rw [flatMap_parts, pieces, piecesFrom_tokens]

theorem mentions_of_mem_parts {ts : List Token} {name : String} (h : ∀ t ∈ ts, t.isWord name = false) :
    ∀ x ∈ parts (pieces ts), x.mentions name = false := by
  intro x hx
  have hnone : (bare ts).contains (.word, name) = false := by
    rw [contains_bare, List.any_eq_false]
    simpa using h
  rw [Part.mentions, ← Bool.not_eq_true, List.contains_iff_mem]
  intro hmem
  rw [← Bool.not_eq_true, List.contains_iff_mem, bare_eq_flatMap_parts] at hnone
  exact hnone (List.mem_flatMap.mpr ⟨x, hx, hmem⟩)

theorem parts_filter (q : Part → Bool) (ps : List Piece) :
    parts (ps.filter fun p => q p.part) = (parts ps).filter q := by
  have hmap : (ps.filter fun p => q p.part).map Piece.part = (ps.map Piece.part).filter q := by
    rw [List.filter_map]
    rfl
  rw [parts, parts, hmap, List.filter_filter, List.filter_filter]
  congr 1
  funext x
  exact Bool.and_comm _ _

/-! ## What does not matter to parts -/

theorem bare_unplaced (ts : List Token) : bare (ts.map Token.unplaced) = bare ts := by
  rw [bare, List.filter_map, List.map_map]
  rfl

theorem bare_unbroken (ts : List Token) : bare (unbroken ts) = bare ts := by
  cases ts with
  | nil => rfl
  | cons t ts =>
    by_cases hs : t.isPunct ";" = true
    · rw [unbroken, bare_semicolon hs, bare_semicolon (show t.unbroken.isPunct ";" = true from hs)]
    · have hs' : ¬t.unbroken.isPunct ";" = true := hs
      simp only [bare, unbroken, List.filter_cons, hs, hs']
      rfl

theorem parts_unplaced (ts : List Token) : parts (pieces (ts.map Token.unplaced)) = parts (pieces ts) := by
  have hpieces : pieces (ts.map Token.unplaced) = (pieces ts).map Piece.unplaced := piecesFrom_unplaced 0 none ts
  have hpart : ∀ p : Piece, p.unplaced.part = p.part := by
    intro p
    cases p with
    | token t => exact congrArg (Part.mk none) (bare_unplaced [t])
    | declaration name ts => exact congrArg (Part.mk (some name)) (bare_unplaced ts)
  rw [parts, hpieces, List.map_map]
  exact congrArg (List.filter _) (List.map_congr_left fun p _ => hpart p)

theorem parts_unbroken {a b : List Token} (h : unbroken a = unbroken b) : parts (pieces a) = parts (pieces b) := by
  have hpart : ∀ p : Piece, p.unbroken.part = p.part := by
    intro p
    cases p with
    | token t => exact congrArg (Part.mk none) (bare_unbroken [t])
    | declaration name ts => exact congrArg (Part.mk (some name)) (bare_unbroken ts)
  have hhead : ∀ ts, parts (pieces (unbroken ts)) = parts (pieces ts) := by
    intro ts
    cases ts with
    | nil => rfl
    | cons t rest =>
      obtain ⟨p, ps, hps, hps'⟩ := pieces_unbroken t rest
      rw [hps, hps', parts, List.map_cons, hpart, parts, List.map_cons]
  rw [← hhead, h, hhead]

theorem bare_dropSemicolonsFrom (last : Option Token) (depth : Nat) (ts : List Token) :
    bare (dropSemicolonsFrom last depth ts) = bare ts := by
  fun_induction dropSemicolonsFrom last depth ts with
  | case1 => rfl
  | case2 last depth t ts depth' hdrop ih =>
    simp only [Bool.and_eq_true] at hdrop
    rw [ih, bare_semicolon hdrop.1.1]
  | case3 last depth t ts depth' hkeep ih =>
    rw [← List.singleton_append, bare_append, ih, ← bare_append, List.singleton_append]

/-! ## One round -/

/-- A declaration has its name as a word. -/
def Piece.Named (p : Piece) : Prop := ∀ name, p.name? = some name → p.tokens.any (·.isWord name) = true

theorem named_of_mem_piecesFrom {depth : Nat} {last : Option Token} {ts : List Token} :
    ∀ p ∈ piecesFrom depth last ts, p.Named := by
  fun_induction piecesFrom depth last ts with
  | case1 => simp
  | case2 depth last t rest declared name n hdeclared declaration ih =>
    refine List.forall_mem_cons.mpr ⟨fun name' hname => ?_, ih⟩
    cases hname
    have hlength : declarationLength? rest = some (name, n) := by
      simp only [declared] at hdeclared
      split at hdeclared
      · exact hdeclared
      · cases hdeclared
    obtain ⟨word, paren, rest, brace, body, k, m, rfl, hword, -, -, -, -, -, rfl⟩ := declarationLength?_cases hlength
    rw [Piece.tokens, List.any_cons, show ∀ i, k + m + 3 + i = (k + m + 2 + i) + 1 from fun i => by omega,
      List.take_succ_cons, List.any_cons, hword]
    simp
  | case3 depth last t rest declared hdeclared ih =>
    refine List.forall_mem_cons.mpr ⟨fun name hname => ?_, ih⟩
    cases hname

theorem named_of_mem_pieces {ts : List Token} : ∀ p ∈ pieces ts, p.Named := named_of_mem_piecesFrom

/-- One round leaves the parts that are supported. -/
theorem dropUnmentioned_eq_filter {before ps : List Piece} (hnamed : ∀ p ∈ ps, p.Named) :
    dropUnmentioned before ps = ps.filter fun p => p.part.supported (parts (before ++ ps)) := by
  induction ps generalizing before with
  | nil => rfl
  | cons p ps ih =>
    rw [List.forall_mem_cons] at hnamed
    have hrest := @ih (before ++ [p]) hnamed.2
    rw [List.append_assoc, List.singleton_append] at hrest
    cases p with
    | token t => rw [dropUnmentioned, hrest, List.filter_cons_of_pos rfl]
    | declaration name tokens =>
      have hcount : (parts (before ++ .declaration name tokens :: ps)).countP (Part.mentions name) =
          (parts before).countP (Part.mentions name) + ((parts ps).countP (Part.mentions name) + 1) := by
        have hhere : (Piece.declaration name tokens).tokens.any (·.isWord name) = true := hnamed.1 name rfl
        simp only [countP_parts, List.countP_append, List.countP_cons]
        rw [if_pos hhere]
      have hsupported : (Piece.declaration name tokens).part.supported
          (parts (before ++ .declaration name tokens :: ps)) =
            (Piece.mentions name before || Piece.mentions name ps) := by
        show decide (2 ≤ _) = _
        rw [hcount, mentions_eq_countP, mentions_eq_countP, Bool.eq_iff_iff]
        simp only [Bool.or_eq_true, decide_eq_true_eq]
        omega
      rw [dropUnmentioned, hrest, List.filter_cons, hsupported]

theorem part_mem_parts {ts : List Token} {p : Piece} {name : String} (hp : p ∈ pieces ts)
    (hname : p.name? = some name) : p.part ∈ parts (pieces ts) := by
  have hmentions : p.part.mentions name = true := by
    rw [Part.mentions, Piece.part, contains_bare]
    exact named_of_mem_pieces p hp name hname
  refine List.mem_filter.mpr ⟨List.mem_map_of_mem hp, decide_eq_true fun hnone => ?_⟩
  rw [Part.mentions, hnone] at hmentions
  cases hmentions

/-- The functions that go in one round are the parts that are not supported. -/
theorem mem_droppedNames_iff_parts {ts : List Token} {name : String} :
    name ∈ droppedNames ts ↔
      ∃ x ∈ parts (pieces ts), x.name? = some name ∧ x.supported (parts (pieces ts)) = false := by
  rw [mem_droppedNames, dropUnmentioned_eq_filter named_of_mem_pieces, List.nil_append]
  constructor
  · rintro ⟨tokens, hin, hout⟩
    refine ⟨(Piece.declaration name tokens).part, part_mem_parts hin rfl, rfl, ?_⟩
    rw [← Bool.not_eq_true]
    exact fun hsupported => hout (List.mem_filter.mpr ⟨hin, hsupported⟩)
  · rintro ⟨x, hx, hname, hsupported⟩
    obtain ⟨p, hp, rfl⟩ := List.mem_map.mp (List.mem_filter.mp hx).1
    cases p with
    | token t => cases hname
    | declaration name' tokens =>
      cases hname
      refine ⟨tokens, hp, fun hin => ?_⟩
      rw [(List.mem_filter.mp hin).2] at hsupported
      cases hsupported

end AliasLang.Script
