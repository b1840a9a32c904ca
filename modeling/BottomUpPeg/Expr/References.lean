import BottomUpPeg.Expr.Basic

namespace BottomUpPeg.Expr

mutual

def references : Expr → List String
  | .terminal _ => []
  | .reference rule => [rule]
  | .group _ items => referencesAll items
  | .unary _ item => references item
  | .label _ item => references item

def referencesAll : List Expr → List String
  | [] => []
  | e :: rest => references e ++ referencesAll rest

end

def countReferences (e : Expr) (rule : String) : Nat := e.references.count rule

mutual

def rename (old new : String) : Expr → Expr
  | .terminal t => .terminal t
  | .reference rule => .reference (if rule = old then new else rule)
  | .group kind items => .group kind (renameAll old new items)
  | .unary kind item => .unary kind (rename old new item)
  | .label name item => .label name (rename old new item)

def renameAll (old new : String) : List Expr → List Expr
  | [] => []
  | e :: rest => rename old new e :: renameAll old new rest

end

end BottomUpPeg.Expr
