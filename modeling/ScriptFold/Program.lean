import ScriptFold.Estree.Decode
import ScriptFold.Estree.Encode
import ScriptFold.Source
import ScriptFold.Tree.Unfold

/-!
Whole programs between their forms: the tree that is edited, its ESTree form and its text.
-/

namespace ScriptFold

namespace Tree

/-- The tree of a program in its ESTree form. Every child comes before its parent. -/
def ofJson (json : Json) : Except ImportError Tree :=
  Term.toTree <$> Term.ofJson json

def nodeToJson? (t : Tree) (id : NodeId) : Option Json :=
  (t.termAt? id).map Term.toJson

def renderNode? (t : Tree) (id : NodeId) : Option String :=
  (t.termAt? id).map Term.render

def toJson? (t : Tree) : Option Json :=
  t.nodeToJson? t.root

def render? (t : Tree) : Option String :=
  t.renderNode? t.root

end Tree

end ScriptFold
