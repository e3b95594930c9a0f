import TreePattern.Proofs.Tree.Built
import TreePattern.Proofs.Tree.Standing

/-!
# Trees in pre-order can be built

A building program can be read off a tree that is numbered in depth-first pre-order: each node is
declared at its place, takes its payload at once, and declares its children next. What the builder
holds on the way is the first nodes of the tree, without the children that are not yet declared.
-/

set_option autoImplicit false

namespace TreePattern

universe u

variable {π : Type u} {tree : Tree π}

def Node.upTo (node : Node π) (count : Nat) : Node π :=
  { node with children := node.children.filter (· < count) }

/-- The first `count` nodes, none of which lists a later one. -/
def Tree.upTo (tree : Tree π) (count : Nat) : Array (Node π) :=
  ((tree.nodes.toList.take count).map (·.upTo count)).toArray

namespace TreeBuilder

theorem run_steps_append {builder between after : TreeBuilder π} {first more : List (BuildStep π)}
    {made others : List Nat} (ran : builder.runSteps first = .ok (made, between))
    (ranMore : between.runSteps more = .ok (others, after)) :
    builder.runSteps (first ++ more) = .ok (made ++ others, after) := by
  induction first generalizing builder made with
  | nil =>
      cases ran
      exact ranMore
  | cons step rest induction =>
      obtain ⟨⟨one, opened⟩, ranStep, ranRest⟩ := bind_eq_ok_iff.1 ran
      obtain ⟨⟨several, closed⟩, ranRest, finished⟩ := bind_eq_ok_iff.1 ranRest
      cases finished
      have whole := induction ranRest
      rw [List.cons_append, List.append_assoc]
      exact bind_eq_ok_iff.2 ⟨_, ranStep, bind_eq_ok_iff.2 ⟨_, whole, rfl⟩⟩

def Reaches (builder after : TreeBuilder π) : Prop :=
  ∃ steps made, builder.runSteps steps = .ok (made, after)

namespace Reaches

variable {builder between after : TreeBuilder π}

theorem refl (builder : TreeBuilder π) : builder.Reaches builder := ⟨[], [], rfl⟩

theorem trans (first : builder.Reaches between) (second : between.Reaches after) :
    builder.Reaches after := by
  obtain ⟨steps, made, ran⟩ := first
  obtain ⟨more, others, ranMore⟩ := second
  exact ⟨steps ++ more, made ++ others, run_steps_append ran ranMore⟩

theorem leaf (builder : TreeBuilder π) (symbol value : String) :
    builder.Reaches (builder.push symbol (some value)) :=
  ⟨[.leaf symbol value], _, rfl⟩

theorem node {symbol : String}
    (body : Reaches ⟨(builder.push symbol none).nodes, builder.nextId⟩ after) :
    builder.Reaches ⟨after.nodes, builder.current⟩ := by
  obtain ⟨steps, made, ran⟩ := body
  refine ⟨[.node symbol steps], made ++ [builder.nextId] ++ [], ?_⟩
  apply bind_eq_ok_iff.2
  refine ⟨(made ++ [builder.nextId], ⟨after.nodes, builder.current⟩), ?_, rfl⟩
  exact bind_eq_ok_iff.2 ⟨_, ran, rfl⟩

theorem attach {nodes changed : Array (Node π)} {id : Nat} {new : Node π} {payload : Option π}
    (found : nodes[id]? = some new) (noPayload : new.payload = none)
    (copied : changed[id]? = some { new with payload := payload })
    (others : ∀ other, other ≠ id → nodes[other]? = changed[other]?) (current : Nat) :
    Reaches ⟨nodes, current⟩ ⟨changed, current⟩ := by
  cases payload with
  | none =>
      have same : nodes = changed := by
        apply Array.ext_getElem?
        intro other
        by_cases isNew : other = id
        · subst isNew
          rw [found, copied, ← noPayload]
        · exact others other isNew
      rw [same]
      exact .refl _
  | some attached =>
      have bound := (Array.getElem?_eq_some_iff.1 found).1
      have same : nodes.modify id (fun node => { node with payload := some attached }) =
          changed := by
        apply Array.ext_getElem?
        intro other
        rw [Array.getElem?_modify]
        by_cases isNew : id = other
        · subst isNew
          rw [if_pos rfl, found, copied]
          rfl
        · rw [if_neg isNew]
          exact others other (Ne.symm isNew)
      have set : setPayload ⟨nodes, current⟩ id attached = .ok ⟨changed, current⟩ := by
        unfold setPayload
        rw [if_pos bound, same]
      refine ⟨[.payloadOf id attached], [] ++ [], ?_⟩
      apply bind_eq_ok_iff.2
      refine ⟨([], ⟨changed, current⟩), ?_, rfl⟩
      exact bind_eq_ok_iff.2 ⟨_, set, rfl⟩

end Reaches

end TreeBuilder

namespace Tree

theorem get_up_to {count id : Nat} (bound : id < count) :
    (tree.upTo count)[id]? = (tree.get? id).map (·.upTo count) := by
  unfold upTo get?
  rw [List.getElem?_toArray, List.getElem?_map, List.getElem?_take_of_lt bound,
    Array.getElem?_toList]

theorem get_up_to_of_le {count id : Nat} (bound : count ≤ id) : (tree.upTo count)[id]? = none := by
  unfold upTo
  rw [List.getElem?_toArray, List.getElem?_map, List.getElem?_take_eq_none bound]
  rfl

theorem size_up_to {count : Nat} (bound : count ≤ tree.size) : (tree.upTo count).size = count := by
  unfold upTo
  rw [List.size_toArray, List.length_map, List.length_take_of_le]
  exact bound

/-- The tree has the node `id`, the next of the children of `outer`, those before it being
`earlier`. -/
structure Next (tree : Tree π) (outer : Nat) (earlier : List Nat) (id : Nat) (later : List Nat)
    (node above : Node π) : Prop where
  found : tree.get? id = some node
  up : node.parent = some outer
  placed : node.index = earlier.length
  aboveFound : tree.get? outer = some above
  behind : outer < id
  listed : above.children = earlier ++ id :: later
  before : ∀ child ∈ earlier, child < id
  after : ∀ child ∈ later, id < child

variable {outer id : Nat} {earlier later : List Nat} {node above : Node π}

theorem Next.above_up_to (next : tree.Next outer earlier id later node above) :
    (above.upTo id).children = earlier := by
  unfold Node.upTo
  dsimp only
  rw [next.listed, List.filter_append, List.filter_cons_of_neg (by simp), List.filter_eq_self.2,
    List.filter_eq_nil_iff.2, List.append_nil]
  · intro child member
    have after := next.after child member
    simp only [decide_eq_true_eq]
    omega
  · intro child member
    exact decide_eq_true (next.before child member)

theorem Next.above_up_to_succ (next : tree.Next outer earlier id later node above) :
    (above.upTo (id + 1)).children = earlier ++ [id] := by
  unfold Node.upTo
  dsimp only
  rw [next.listed, List.filter_append, List.filter_cons_of_pos (by simp), List.filter_eq_self.2,
    List.filter_eq_nil_iff.2]
  · intro child member
    have after := next.after child member
    simp only [decide_eq_true_eq]
    omega
  · intro child member
    have before := next.before child member
    exact decide_eq_true (by omega)

theorem IsPreorder.none_up_to_self (preorder : tree.IsPreorder) (found : tree.get? id = some node) :
    node.children.filter (· < id + 1) = [] := by
  obtain ⟨stop, ⟨node', found', spans⟩, -⟩ := preorder.fills (lt_size_of_found found)
  rw [found] at found'
  cases found'
  rw [List.filter_eq_nil_iff]
  intro child member
  have begins := (spans.member_fills member).1
  simp only [decide_eq_true_eq]
  omega

theorem Next.other_up_to (next : tree.Next outer earlier id later node above)
    (preorder : tree.IsPreorder) {other : Nat} {otherNode : Node π}
    (otherFound : tree.get? other = some otherNode) (different : other ≠ outer) :
    otherNode.upTo (id + 1) = otherNode.upTo id := by
  obtain ⟨stop, ⟨node', found', spans⟩, -⟩ := preorder.fills (lt_size_of_found otherFound)
  rw [otherFound] at found'
  cases found'
  have same : otherNode.children.filter (· < id + 1) = otherNode.children.filter (· < id) := by
    apply List.filter_congr
    intro child member
    have unlisted : child ≠ id := by
      intro isNext
      subst isNext
      obtain ⟨offset, listed⟩ := List.mem_iff_getElem?.1 member
      have up := (spans.stands listed next.found).1
      rw [next.up, Option.some.injEq] at up
      exact different up.symm
    rw [decide_eq_decide]
    omega
  unfold Node.upTo
  rw [same]

abbrev pushed (tree : Tree π) (outer id : Nat) (node : Node π) : Array (Node π) :=
  (TreeBuilder.push ⟨tree.upTo id, outer⟩ node.symbol node.value).nodes

theorem Next.size_eq (next : tree.Next outer earlier id later node above) :
    (tree.upTo id).size = id :=
  size_up_to (Nat.le_of_lt (lt_size_of_found next.found))

theorem Next.get_above (next : tree.Next outer earlier id later node above) :
    (tree.upTo id)[outer]? = some (above.upTo id) := by
  rw [get_up_to next.behind, next.aboveFound, Option.map_some]

theorem Next.get_pushed_other (next : tree.Next outer earlier id later node above)
    (preorder : tree.IsPreorder) {other : Nat} (different : other ≠ id) :
    (tree.pushed outer id node)[other]? = (tree.upTo (id + 1))[other]? := by
  have size := next.size_eq
  unfold pushed TreeBuilder.push
  simp only [Array.getElem?_push, Array.size_modify, size, if_neg different, Array.getElem?_modify]
  by_cases isAbove : outer = other
  · subst isAbove
    rw [if_pos rfl, next.get_above, get_up_to (Nat.lt_succ_of_lt next.behind), next.aboveFound,
      Option.map_some, Option.map_some, next.above_up_to]
    unfold TreeBuilder.nextId
    rw [size, ← next.above_up_to_succ]
    rfl
  · rw [if_neg isAbove]
    rcases Nat.lt_or_gt_of_ne different with before | behind
    · rw [get_up_to before, get_up_to (Nat.lt_succ_of_lt before)]
      cases found : tree.get? other with
      | none => rfl
      | some otherNode =>
          rw [Option.map_some, Option.map_some,
            next.other_up_to preorder found (Ne.symm isAbove)]
    · rw [get_up_to_of_le (Nat.le_of_lt behind), get_up_to_of_le behind]

theorem Next.get_pushed_self (next : tree.Next outer earlier id later node above)
    (preorder : tree.IsPreorder) :
    ∃ new, (tree.pushed outer id node)[id]? = some new ∧ new.payload = none ∧
      (tree.upTo (id + 1))[id]? = some { new with payload := node.payload } := by
  have new := TreeBuilder.get_push_new ⟨tree.upTo id, outer⟩ node.symbol node.value
  simp only [next.size_eq, next.get_above, Option.map_some, next.above_up_to, Option.getD_some,
    ← next.placed, ← next.up] at new
  refine ⟨_, new, rfl, ?_⟩
  rw [get_up_to (Nat.lt_add_one id), next.found, Option.map_some, Node.upTo,
    preorder.none_up_to_self next.found]

theorem Next.attach (next : tree.Next outer earlier id later node above)
    (preorder : tree.IsPreorder) (current : Nat) :
    TreeBuilder.Reaches ⟨tree.pushed outer id node, current⟩ ⟨tree.upTo (id + 1), current⟩ := by
  obtain ⟨new, found, noPayload, copied⟩ := next.get_pushed_self preorder
  exact .attach found noPayload copied (fun _ different => next.get_pushed_other preorder different)
    current

/-- Declaring consecutive children, with all below them, adds their subtrees. -/
theorem Spans.reaches (preorder : tree.IsPreorder) {parent : Option Nat} {place start stop : Nat}
    {ids : List Nat} (spans : tree.Spans parent place ids start stop) {outer : Nat}
    {earlier : List Nat} {above : Node π} (up : parent = some outer)
    (aboveFound : tree.get? outer = some above) (listed : above.children = earlier ++ ids)
    (count : place = earlier.length) (behind : outer < start)
    (before : ∀ child ∈ earlier, child < start) :
    TreeBuilder.Reaches ⟨tree.upTo start, outer⟩ ⟨tree.upTo stop, outer⟩ := by
  -- The children of `outer` are the ones declared already, `earlier`, and those of the span.
  induction spans generalizing outer earlier above with
  | nil => exact .refl _
  | @cons parent place id middle stop node rest found parentSame placed plain inner others
      innerReaches othersReach =>
      have fills : tree.Fills id middle := ⟨node, found, inner⟩
      have ends := fills.lt_stop
      have next : tree.Next outer earlier id rest node above := by
        refine ⟨found, parentSame.trans up, placed.trans count, aboveFound, behind, listed, before,
          ?_⟩
        intro child member
        have lower := (others.member_fills member).1
        omega
      have attached (current : Nat) :
          TreeBuilder.Reaches ⟨tree.pushed outer id node, current⟩ ⟨tree.upTo (id + 1), current⟩ :=
        next.attach preorder current
      have declared : TreeBuilder.Reaches ⟨tree.upTo id, outer⟩ ⟨tree.upTo middle, outer⟩ := by
        cases value : node.value with
        | none =>
            have below := innerReaches rfl found rfl rfl (Nat.lt_succ_self id)
              (fun _ impossible => absurd impossible List.not_mem_nil)
            have index : TreeBuilder.nextId ⟨tree.upTo id, outer⟩ = id := next.size_eq
            have opened := attached id
            unfold pushed at opened
            rw [value] at opened
            have body : TreeBuilder.Reaches
                ⟨(TreeBuilder.push ⟨tree.upTo id, outer⟩ node.symbol none).nodes,
                  TreeBuilder.nextId ⟨tree.upTo id, outer⟩⟩ ⟨tree.upTo middle, id⟩ := by
              rw [index]
              exact opened.trans below
            exact body.node
        | some text =>
            have bare : node.children = [] := by
              rcases plain with noValue | bare
              · rw [value] at noValue
                cases noValue
              · exact bare
            rw [bare] at inner
            have ends := inner.start_eq_of_nil
            subst ends
            have opened := attached outer
            unfold pushed at opened
            rw [value] at opened
            exact (TreeBuilder.Reaches.leaf _ node.symbol text).trans opened
      have onward : TreeBuilder.Reaches ⟨tree.upTo middle, outer⟩ ⟨tree.upTo stop, outer⟩ := by
        have listedOn : above.children = earlier ++ [id] ++ rest := by
          rw [listed, List.append_cons]
        apply othersReach up aboveFound listedOn
        · rw [List.length_append, count]
          rfl
        · omega
        · intro child member
          rcases List.mem_append.1 member with early | last
          · have lower := before child early
            omega
          · rw [List.mem_singleton.1 last]
            exact ends
      exact declared.trans onward

theorem IsPreorder.up_to_size (preorder : tree.IsPreorder) : tree.upTo tree.size = tree.nodes := by
  apply Array.ext_getElem?
  intro id
  rcases Nat.lt_or_ge id tree.size with inside | outside
  · obtain ⟨node, found⟩ := exists_of_lt_size inside
    obtain ⟨stop, ⟨node', found', spans⟩, bound⟩ := preorder.fills inside
    rw [found] at found'
    cases found'
    have whole : node.children.filter (· < tree.size) = node.children := by
      apply List.filter_eq_self.2
      intro child member
      obtain ⟨-, last, fills, -⟩ := spans.member_fills member
      exact decide_eq_true fills.lt_size
    rw [get_up_to inside, found, Option.map_some, Node.upTo, whole]
    exact found.symm
  · rw [get_up_to_of_le outside]
    exact (Array.getElem?_eq_none outside).symm

/-- A tree in pre-order can be built, provided that its root has no value. -/
theorem IsPreorder.built (preorder : tree.IsPreorder) {node : Node π}
    (found : tree.get? root = some node) (noValue : node.value = none) : tree.Built := by
  obtain ⟨up, placed⟩ := Spans.stands preorder (show [root][0]? = some root from rfl) found
  obtain ⟨node', found', spans⟩ := preorder.root_fills
  rw [found] at found'
  cases found'
  have opened : TreeBuilder.Reaches (.root node.symbol) ⟨tree.upTo (root + 1), root⟩ := by
    have start : (TreeBuilder.root node.symbol : TreeBuilder π).nodes[root]? =
        some { symbol := node.symbol } := rfl
    have copied : (tree.upTo (root + 1))[root]? =
        some { symbol := node.symbol, payload := node.payload } := by
      rw [get_up_to (Nat.lt_add_one root), found, Option.map_some, Node.upTo,
        preorder.none_up_to_self found, noValue, up, placed]
    apply TreeBuilder.Reaches.attach start rfl copied
    intro other different
    have behind : root + 1 ≤ other := Nat.one_le_iff_ne_zero.2 different
    rw [get_up_to_of_le behind]
    exact Array.getElem?_eq_none behind
  have listed : node.children = [] ++ node.children := rfl
  have grown := spans.reaches preorder rfl found listed rfl (Nat.lt_add_one root)
    (fun _ impossible => absurd impossible List.not_mem_nil)
  obtain ⟨steps, made, ran⟩ := opened.trans grown
  rw [preorder.up_to_size] at ran
  exact .steps (bind_eq_ok_iff.2 ⟨_, ran, rfl⟩)

end Tree

end TreePattern
