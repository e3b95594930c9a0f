import TreePattern.Proofs.Tree.Span
import TreePattern.Tree.Builder

/-!
# Built trees are one span

A building step adds the subtrees of some new children to the node whose children are being
declared. Every other node keeps all that a span depends on, payloads aside, so the spans made by
earlier steps stay, and a building program fills the subtree of the root.
-/

set_option autoImplicit false

namespace TreePattern

universe u

variable {π : Type u}

/-- The trees that the library lets its callers make. -/
inductive Tree.Built : Tree π → Prop where
  | leaf (symbol : String) (value : Option String) : Tree.Built (Tree.leaf symbol value)
  | steps {symbol : String} {body : List (BuildStep π)} {tree : Tree π}
      (ran : Tree.ofSteps symbol body = .ok tree) : Tree.Built tree

structure Node.Gains (before after : Node π) (added : List Nat) : Prop where
  value : after.value = before.value
  parent : after.parent = before.parent
  index : after.index = before.index
  children : after.children = before.children ++ added

namespace Node.Gains

theorem refl (node : Node π) : node.Gains node [] where
  value := rfl
  parent := rfl
  index := rfl
  children := (List.append_nil _).symm

theorem trans {first second third : Node π} {added more : List Nat}
    (before : first.Gains second added) (after : second.Gains third more) :
    first.Gains third (added ++ more) where
  value := after.value.trans before.value
  parent := after.parent.trans before.parent
  index := after.index.trans before.index
  children := by rw [after.children, before.children, List.append_assoc]

end Node.Gains

/-- A span depends on its own nodes only, and on none of their payloads. -/
theorem Tree.Spans.transfer {before after : Tree π} {parent : Option Nat}
    {place start stop : Nat} {ids : List Nat} (spans : before.Spans parent place ids start stop)
    (keeps : ∀ id node, start ≤ id → id < stop → before.get? id = some node →
      ∃ later, after.get? id = some later ∧ node.Gains later []) :
    after.Spans parent place ids start stop := by
  induction spans with
  | nil parent place start => exact .nil parent place start
  | @cons parent place first middle stop node rest found above placed plain inner others
      innerTransfer othersTransfer =>
      have between := inner.start_le_stop
      have behind := others.start_le_stop
      obtain ⟨later, foundLater, gains⟩ := keeps first node (Nat.le_refl _) (by omega) found
      have children : later.children = node.children := by
        rw [gains.children, List.append_nil]
      have inside : after.Spans (some first) 0 later.children (first + 1) middle := by
        rw [children]
        exact innerTransfer fun id node lower upper => keeps id node (by omega) (by omega)
      refine .cons foundLater (gains.parent.trans above) (gains.index.trans placed) ?_ inside ?_
      · rw [gains.value, children]
        exact plain
      · exact othersTransfer fun id node lower upper => keeps id node (by omega) upper

namespace TreeBuilder

/-- What one or more building steps do: the current node gains the children `added`, whose
subtrees are the new nodes. -/
structure Extends (before after : TreeBuilder π) (added : List Nat) : Prop where
  current : after.current = before.current
  gains : ∀ (id : Nat) (node : Node π), before.nodes[id]? = some node →
    ∃ later, after.nodes[id]? = some later ∧
      node.Gains later (if id = before.current then added else [])
  spans : ∀ node : Node π, before.nodes[before.current]? = some node →
    after.build.Spans (some before.current) node.children.length added
      before.nodes.size after.nodes.size

namespace Extends

variable {before between after : TreeBuilder π} {added more : List Nat}

theorem refl (builder : TreeBuilder π) : builder.Extends builder [] where
  current := rfl
  gains id node found := by
    rw [ite_self]
    exact ⟨node, found, .refl node⟩
  spans _ _ := .nil _ _ _

theorem trans (first : before.Extends between added) (second : between.Extends after more) :
    before.Extends after (added ++ more) where
  current := second.current.trans first.current
  gains id node found := by
    obtain ⟨middle, foundMiddle, once⟩ := first.gains id node found
    obtain ⟨later, foundLater, twice⟩ := second.gains id middle foundMiddle
    refine ⟨later, foundLater, ?_⟩
    have both := once.trans twice
    rw [first.current] at both
    by_cases isCurrent : id = before.current
    · simpa only [isCurrent, if_true] using both
    · simpa only [isCurrent, if_false, List.append_nil] using both
  spans node found := by
    have early := first.spans node found
    have bound := (Array.getElem?_eq_some_iff.1 found).1
    obtain ⟨middle, foundMiddle, once⟩ := first.gains _ node found
    rw [if_pos rfl] at once
    have late := second.spans middle (first.current ▸ foundMiddle)
    rw [first.current, once.children, List.length_append] at late
    apply Tree.Spans.append _ late
    apply early.transfer
    intro id old lower upper foundOld
    obtain ⟨later, foundLater, kept⟩ := second.gains id old foundOld
    have notCurrent : id ≠ between.current := by
      rw [first.current]
      omega
    rw [if_neg notCurrent] at kept
    exact ⟨later, foundLater, kept⟩

end Extends

theorem push_size (builder : TreeBuilder π) (symbol : String) (value : Option String) :
    (builder.push symbol value).nodes.size = builder.nodes.size + 1 := by
  simp [push]

theorem get_push_new (builder : TreeBuilder π) (symbol : String) (value : Option String) :
    (builder.push symbol value).nodes[builder.nodes.size]? =
      some { symbol := symbol
             value := value
             parent := some builder.current
             index := (builder.nodes[builder.current]?.map (·.children.length)).getD 0 } := by
  rw [push, Array.getElem?_push, Array.size_modify, if_pos rfl]

theorem get_push_old {builder : TreeBuilder π} (symbol : String) (value : Option String)
    {id : Nat} {node : Node π} (found : builder.nodes[id]? = some node) :
    ∃ later, (builder.push symbol value).nodes[id]? = some later ∧
      node.Gains later (if id = builder.current then [builder.nextId] else []) := by
  have bound := (Array.getElem?_eq_some_iff.1 found).1
  have old : id ≠ builder.nodes.size := by omega
  simp only [push, Array.getElem?_push, Array.size_modify, if_neg old, Array.getElem?_modify]
  by_cases isCurrent : builder.current = id
  · rw [if_pos isCurrent, if_pos isCurrent.symm, found]
    exact ⟨_, rfl, rfl, rfl, rfl, rfl⟩
  · rw [if_neg isCurrent, if_neg (Ne.symm isCurrent), found]
    exact ⟨node, rfl, .refl node⟩

theorem push_extends (builder : TreeBuilder π) (symbol : String) (value : Option String) :
    builder.Extends (builder.push symbol value) [builder.nextId] where
  current := rfl
  gains _ _ := get_push_old symbol value
  spans node found := by
    rw [push_size]
    refine .cons (builder.get_push_new symbol value) rfl ?_ (Or.inr rfl) (.nil _ _ _) (.nil _ _ _)
    simp [found]

theorem set_payload_extends {builder after : TreeBuilder π} {id : Nat} {payload : π}
    (ran : builder.setPayload id payload = .ok after) : builder.Extends after [] := by
  unfold setPayload at ran
  split at ran
  · cases ran
    refine ⟨rfl, ?_, ?_⟩
    · intro other node found
      rw [ite_self, Array.getElem?_modify, found]
      split
      · exact ⟨_, rfl, rfl, rfl, rfl, (List.append_nil _).symm⟩
      · exact ⟨node, rfl, .refl node⟩
    · intro node found
      rw [Array.size_modify]
      exact .nil _ _ _
  · cases ran

theorem node_extends {builder after : TreeBuilder π} {symbol : String} {added : List Nat}
    (body : Extends ⟨(builder.push symbol none).nodes, builder.nextId⟩ after added) :
    builder.Extends ⟨after.nodes, builder.current⟩ [builder.nextId] where
  current := rfl
  gains id node found := by
    have bound := (Array.getElem?_eq_some_iff.1 found).1
    obtain ⟨opened, foundOpened, gained⟩ := get_push_old symbol none found
    obtain ⟨later, foundLater, kept⟩ := body.gains id opened foundOpened
    have old : id ≠ builder.nextId := Nat.ne_of_lt bound
    rw [if_neg old] at kept
    refine ⟨later, foundLater, ?_⟩
    simpa only [List.append_nil] using gained.trans kept
  spans node found := by
    have new := builder.get_push_new symbol none
    obtain ⟨later, foundLater, gained⟩ := body.gains _ _ new
    rw [if_pos (show builder.nodes.size = builder.nextId from rfl)] at gained
    have inner := body.spans _ new
    have children : later.children = added := gained.children
    refine .cons foundLater gained.parent ?_ (Or.inl gained.value) ?_ (.nil _ _ _)
    · rw [gained.index, found]
      rfl
    · rw [push_size] at inner
      rw [children]
      exact inner

mutual

theorem run_step_extends {builder after : TreeBuilder π} {step : BuildStep π} {made : List Nat}
    (ran : builder.runStep step = .ok (made, after)) : ∃ added, builder.Extends after added := by
  cases step with
  | leaf symbol value =>
      cases ran
      exact ⟨_, builder.push_extends symbol (some value)⟩
  | emptyLeaf symbol =>
      cases ran
      exact ⟨_, builder.push_extends symbol none⟩
  | node symbol body =>
      obtain ⟨⟨inside, closed⟩, ranBody, finished⟩ := bind_eq_ok_iff.1 ran
      cases finished
      obtain ⟨added, grown⟩ := run_steps_extends ranBody
      exact ⟨_, node_extends grown⟩
  | payload payload =>
      obtain ⟨changed, ranPayload, finished⟩ := bind_eq_ok_iff.1 ran
      cases finished
      exact ⟨[], set_payload_extends ranPayload⟩
  | payloadOf id payload =>
      obtain ⟨changed, ranPayload, finished⟩ := bind_eq_ok_iff.1 ran
      cases finished
      exact ⟨[], set_payload_extends ranPayload⟩

theorem run_steps_extends {builder after : TreeBuilder π} {steps : List (BuildStep π)}
    {made : List Nat} (ran : builder.runSteps steps = .ok (made, after)) :
    ∃ added, builder.Extends after added := by
  cases steps with
  | nil =>
      cases ran
      exact ⟨[], .refl builder⟩
  | cons step rest =>
      obtain ⟨⟨first, between⟩, ranStep, ranRest⟩ := bind_eq_ok_iff.1 ran
      obtain ⟨⟨others, last⟩, ranRest, finished⟩ := bind_eq_ok_iff.1 ranRest
      cases finished
      obtain ⟨added, early⟩ := run_step_extends ranStep
      obtain ⟨more, late⟩ := run_steps_extends ranRest
      exact ⟨added ++ more, early.trans late⟩

end

end TreeBuilder

theorem Tree.Built.is_preorder {tree : Tree π} (built : tree.Built) : tree.IsPreorder := by
  cases built with
  | leaf symbol value => exact .cons rfl rfl rfl (Or.inr rfl) (.nil _ _ _) (.nil _ _ _)
  | @steps symbol body tree ran =>
      obtain ⟨⟨made, builder⟩, ranBody, finished⟩ := bind_eq_ok_iff.1 ran
      cases finished
      obtain ⟨added, grown⟩ := TreeBuilder.run_steps_extends ranBody
      have opened : (TreeBuilder.root symbol : TreeBuilder π).nodes[0]? =
          some { symbol := symbol } := rfl
      obtain ⟨node, found, gains⟩ := grown.gains 0 _ opened
      have inner := grown.spans _ opened
      have children : node.children = added := gains.children
      rw [← children] at inner
      exact .cons found gains.parent gains.index (Or.inl gains.value) inner (.nil _ _ _)

end TreePattern
