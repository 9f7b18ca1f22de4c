/-
Unused functions. A script is cut into pieces: the function declarations outside all brackets, and single tokens.
A declaration whose name is a word of no other piece is left out, and this is repeated until nothing more goes.
-/
import AliasLang.Script.Statement

namespace AliasLang.Script

/-- A piece of a script. -/
inductive Piece where
  | token (token : Token)
  /-- A whole function declaration, with a semicolon right after it. -/
  | declaration (name : String) (tokens : List Token)
deriving DecidableEq, Repr

namespace Piece

/-- The tokens of a piece. -/
def tokens : Piece → List Token
  | .token t => [t]
  | .declaration _ ts => ts

/-- Whether `name` is a word of one of the pieces. -/
def mentions (name : String) (pieces : List Piece) : Bool :=
  pieces.any fun p => p.tokens.any (·.isWord name)

end Piece

/-- The name of a function declaration whose keyword is followed by the given tokens, and how many of them belong to
it, a semicolon right after it included. -/
def declarationLength? : List Token → Option (String × Nat)
  | name :: paren :: rest =>
    if name.kind = .word && paren.isPunct "(" then
      match closingLength? 1 rest with
      | none => none
      | some n =>
        match rest.drop n with
        | [] => none
        | brace :: body =>
          if brace.isPunct "\x7b" then
            match closingLength? 1 body with
            | none => none
            | some m =>
              let semicolon := if (body.drop m).head?.any (·.isPunct ";") then 1 else 0
              some (name.text, n + m + 3 + semicolon)
          else none
    else none
  | _ => none

/-- Brackets that are open after `t`, given how many were before. -/
def depthAfter (depth : Nat) (t : Token) : Nat :=
  if t.isOpening then depth + 1 else if t.isClosing then depth - 1 else depth

/-- Cuts tokens into pieces, given the number of open brackets and the token before. -/
def piecesFrom (depth : Nat) (last : Option Token) (ts : List Token) : List Piece :=
  match ts with
  | [] => []
  | t :: rest =>
    let declared :=
      if depth = 0 && t.isWord "function" && isBlockPosition last t then declarationLength? rest else none
    match declared with
    | some (name, n) =>
      let declaration := t :: rest.take n
      .declaration name declaration :: piecesFrom depth declaration.getLast? (rest.drop n)
    | none => .token t :: piecesFrom (depthAfter depth t) (some t) rest
termination_by ts.length
decreasing_by all_goals (simp only [List.length_cons, List.length_drop]; omega)

/-- The pieces of a script. -/
def pieces (ts : List Token) : List Piece :=
  piecesFrom 0 none ts

/-- The pieces but for the declarations that neither the pieces before nor those after them mention. -/
def dropUnmentioned (before : List Piece) : List Piece → List Piece
  | [] => []
  | p :: after =>
    match p with
    | .token _ => p :: dropUnmentioned (before ++ [p]) after
    | .declaration name _ =>
      if Piece.mentions name before || Piece.mentions name after then p :: dropUnmentioned (before ++ [p]) after
      else dropUnmentioned (before ++ [p]) after

/-- Leaves out unused functions. -/
def dropUnused (ts : List Token) : List Token :=
  let kept := (dropUnmentioned [] (pieces ts)).flatMap Piece.tokens
  if kept.length < ts.length then dropUnused kept else ts
termination_by ts.length
decreasing_by assumption

end AliasLang.Script
