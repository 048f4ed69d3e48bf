/-
  Sessions.

  A session evaluates one text after another.  The variables that it assigns are in a root scope,
  and the built-ins in a child of it.
-/
import ExprLang.Eval

namespace ExprLang

namespace Session

/-- The root scope. -/
def globals : Nat := 0

def scope : Nat := 1

def emptyWorld (files : Files) (input : List String) : World :=
  { scopes := .empty, pages := [], page := "", input := input
    debugger := ⟨false, false, []⟩, lexers := #[], files := files, lastMark := 0 }

def start (files : Files) (input : List String) : World :=
  let prepare : Run Unit := do
    let root ← Run.addScope Forest.addRoot
    let inner ← Run.push root []
    defineBuiltins inner
  (prepare.run.run (emptyWorld files input)).2

def evalText (text : String) : Run Value := do evalProgram (← Run.parsed text) scope

def takePages (w : World) : List String × World :=
  ((w.page :: w.pages).reverse, { w with pages := [], page := "" })

end Session

end ExprLang
