import TreePattern.Tree.Basic

/-!
# Building trees

A builder holds the nodes so far and the node whose children are being declared. Every new node
becomes the last child of that node and takes the next index, so nodes are numbered in the order
of their declaration, which is depth-first pre-order. A `BuildStep` is one call on a builder, with
the calls nested in it; a list of them is a building program.
-/

set_option autoImplicit false

namespace TreePattern

universe u

variable {π : Type u}

structure TreeBuilder (π : Type u) where
  nodes : Array (Node π)
  current : Nat

inductive BuildStep (π : Type u) where
  /-- A leaf with a value. -/
  | leaf (symbol value : String)
  /-- A leaf without value. -/
  | emptyLeaf (symbol : String)
  /-- A node whose children are declared by the nested steps. -/
  | node (symbol : String) (body : List (BuildStep π))
  /-- Attaches a payload to the node whose children are being declared. -/
  | payload (payload : π)
  /-- Attaches a payload to any node made so far. -/
  | payloadOf (id : Nat) (payload : π)

namespace TreeBuilder

def root (symbol : String) : TreeBuilder π where
  nodes := #[{ symbol := symbol }]
  current := 0

def nextId (builder : TreeBuilder π) : Nat := builder.nodes.size

def push (builder : TreeBuilder π) (symbol : String) (value : Option String) : TreeBuilder π :=
  let place := (builder.nodes[builder.current]?.map (·.children.length)).getD 0
  let linked := builder.nodes.modify builder.current fun node =>
    { node with children := node.children ++ [builder.nextId] }
  { builder with
    nodes := linked.push
      { symbol := symbol
        value := value
        parent := some builder.current
        index := place } }

def setPayload (builder : TreeBuilder π) (id : Nat) (payload : π) :
    Except Failure (TreeBuilder π) :=
  if id < builder.nodes.size then
    .ok { builder with
      nodes := builder.nodes.modify id fun node => { node with payload := some payload } }
  else .error .outOfRange

def build (builder : TreeBuilder π) : Tree π := ⟨builder.nodes⟩

mutual

/-- Runs one step. The indices of the nodes it made come in the order in which their declarations
end, so a node's own index follows those of its children. -/
def runStep (builder : TreeBuilder π) :
    BuildStep π → Except Failure (List Nat × TreeBuilder π)
  | .leaf symbol value => .ok ([builder.nextId], builder.push symbol (some value))
  | .emptyLeaf symbol => .ok ([builder.nextId], builder.push symbol none)
  | .node symbol body => do
      let id := builder.nextId
      let (made, after) ← runSteps { builder.push symbol none with current := id } body
      .ok (made ++ [id], { after with current := builder.current })
  | .payload payload => do
      let after ← builder.setPayload builder.current payload
      .ok ([], after)
  | .payloadOf id payload => do
      let after ← builder.setPayload id payload
      .ok ([], after)

def runSteps (builder : TreeBuilder π) :
    List (BuildStep π) → Except Failure (List Nat × TreeBuilder π)
  | [] => .ok ([], builder)
  | step :: rest => do
      let (first, between) ← runStep builder step
      let (others, after) ← runSteps between rest
      .ok (first ++ others, after)

end

end TreeBuilder

def Tree.ofSteps (symbol : String) (body : List (BuildStep π)) : Except Failure (Tree π) := do
  let (_, builder) ← (TreeBuilder.root symbol).runSteps body
  .ok builder.build

end TreePattern
