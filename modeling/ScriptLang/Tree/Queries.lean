import ScriptLang.Tree.Basic

/-!
# Questions about the tree

What can be read off the shape of a block: whether it returns, its `else` block, its locals.
-/

namespace ScriptLang

mutual
/-- Whether a block has a `return` in it, however deep. -/
def Block.containsReturn : Block → Bool
  | ⟨stmts, ret, _, _, _⟩ => ret.isSome || anyReturn stmts
def Stmt.containsReturn : Stmt → Bool
  | .branch _ blocks _ => anyBlockReturns blocks
  | .forLoop _ _ _ body _ _ => body.containsReturn
  | .whileLoop _ body _ => body.containsReturn
  | .decl .. => false
  | .assign .. => false
  | .call _ => false
def anyReturn : List Stmt → Bool
  | [] => false
  | stmt :: stmts => stmt.containsReturn || anyReturn stmts
def anyBlockReturns : List Block → Bool
  | [] => false
  | block :: blocks => block.containsReturn || anyBlockReturns blocks
end

/-- The last block of a branch, if there are more blocks than conditions. -/
def elseBlock? (conds : List Expr) (blocks : List Block) : Option Block :=
  if conds.length < blocks.length then blocks.getLast? else none

/-- A local declaration as code generation needs it: the slot is that of the initial value. -/
structure Local where
  name : String
  handle : Option DeclId
  slot : TypeSlot
  span : Span
  deriving Repr

mutual
/-- The declarations of a block and of the blocks inside it, in textual order. -/
def Block.locals : Block → List Local
  | ⟨stmts, _, _, _, _⟩ => localsOf stmts
def Stmt.locals : Stmt → List Local
  | .decl name _ value span handle => [⟨name, handle, value.slot, span⟩]
  | .branch _ blocks _ => localsOfBlocks blocks
  | .forLoop _ _ _ body _ _ => body.locals
  | .whileLoop _ body _ => body.locals
  | .assign .. => []
  | .call _ => []
def localsOf : List Stmt → List Local
  | [] => []
  | stmt :: stmts => stmt.locals ++ localsOf stmts
def localsOfBlocks : List Block → List Local
  | [] => []
  | block :: blocks => block.locals ++ localsOfBlocks blocks
end

end ScriptLang
