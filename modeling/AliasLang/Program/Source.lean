/-
From source text to program.
-/
import AliasLang.Error
import AliasLang.Program.Parse
import AliasLang.Token.Scan

namespace AliasLang.Program

/-- The program that a source text is. -/
def parse (source : String) : Except Error Program :=
  match Token.tokenize source with
  | .error e => .error (.lex e)
  | .ok tokens =>
    match ofTokens tokens with
    | .error e => .error (.parse e)
    | .ok program => .ok program

end AliasLang.Program
