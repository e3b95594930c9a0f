import TreePattern.Text.Quoted
import TreePattern.Tree.Basic

/-!
# Trees as text

The line form writes an inner node as its symbol and its children between parentheses, a leaf with
a value as its symbol and the quoted value between parentheses, and any other leaf as its bare
symbol. The drawn form has one line for each node, with the branches of the tree in front of it.
Symbols are written as they are in both.
-/

set_option autoImplicit false

namespace TreePattern

universe u

variable {π : Type u}

namespace Tree

def lineAt (tree : Tree π) : Nat → Nat → String
  | 0, _ => ""
  | depth + 1, id =>
      match tree.get? id with
      | none => ""
      | some node =>
          if node.isLeaf then
            match node.value with
            | some value => "(" ++ node.symbol ++ " " ++ Text.quoted value ++ ")"
            | none => node.symbol
          else
            let parts := node.children.map fun child => " " ++ tree.lineAt depth child
            "(" ++ node.symbol ++ String.join parts ++ ")"

def line (tree : Tree π) : String := tree.lineAt tree.size root

/-- What the drawn form writes for a node: a leaf shows its value, an inner node has none. -/
def label (node : Node π) : String :=
  if node.isLeaf then
    match node.value with
    | some value => node.symbol ++ " " ++ Text.quoted value
    | none => node.symbol
  else node.symbol

/-- The drawn lines of the part of the tree below `id`, down to `depth` levels. The line of the node
itself begins with `lead`, the lines below it with `below`. The last child of a node has a corner,
and nothing hangs past it. -/
def drawAt (tree : Tree π) : Nat → String → String → Nat → String
  | 0, _, _, _ => ""
  | depth + 1, lead, below, id =>
      match tree.get? id with
      | none => ""
      | some node =>
          let inner := node.children.dropLast.map
            (tree.drawAt depth (below ++ " ├─") (below ++ " │ "))
          let last := node.children.getLast?.toList.map
            (tree.drawAt depth (below ++ " └─") (below ++ "   "))
          String.join ((lead ++ " " ++ label node ++ "\n") :: (inner ++ last))

def drawing (tree : Tree π) : String := tree.drawAt tree.size "" "" root

end Tree

end TreePattern
