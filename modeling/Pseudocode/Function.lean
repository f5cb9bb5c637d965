import Pseudocode.Grammar.Statements
import Pseudocode.Scope

/-!
# From tokens to functions

Reading a program is reading its tree and then deciding where its variables are declared.
The second step never influences the first, so a syntax error does not depend on the names
in use.
-/
namespace Pseudocode

/-- The function that a program as it is written stands for. -/
def Function.ofSource (source : Grammar.Source) : Function :=
  let (body, free) := declare source.body
  .ofBody source.name body free source.pos

/-- The function that a list of tokens denotes. Tokens behind the first end token do not
count. -/
def parse (ts : List Token) : Except SyntaxError Function :=
  let row := Grammar.TokenRow.ofTokens ts
  (Grammar.program row.finish row.tokens).map .ofSource

end Pseudocode
