import Mathlib.Data.List.Forall2
import TreePattern.Proofs.Text.Quoting
import TreePattern.Proofs.Tree.Built
import TreePattern.Tree.Drawing

/-!
# The line form tells the tree

Where symbols cannot be taken for punctuation, each place of the line form shows what is written
there: a bare symbol goes up to a blank or a closing parenthesis, and behind the symbol of a form in
parentheses a quote begins a value and anything else a child. So reading a list of children stops
where their list ends, and two trees with the same line form are alike.
-/

set_option autoImplicit false

namespace TreePattern

universe u v

/-- Not empty, and no blank, parenthesis or double quote. Of all white space only the blank stands
in the line form, so other white space does no harm. -/
structure PlainSymbol (symbol : String) : Prop where
  nonempty : symbol ≠ ""
  noBlank : ' ' ∉ symbol.toList
  noOpening : '(' ∉ symbol.toList
  noClosing : ')' ∉ symbol.toList
  noMark : Text.doubleMark ∉ symbol.toList

instance (symbol : String) : Decidable (PlainSymbol symbol) :=
  decidable_of_iff (symbol ≠ "" ∧ ' ' ∉ symbol.toList ∧ '(' ∉ symbol.toList ∧
    ')' ∉ symbol.toList ∧ Text.doubleMark ∉ symbol.toList)
    ⟨fun ⟨nonempty, noBlank, noOpening, noClosing, noMark⟩ =>
      ⟨nonempty, noBlank, noOpening, noClosing, noMark⟩,
    fun plain =>
      ⟨plain.nonempty, plain.noBlank, plain.noOpening, plain.noClosing, plain.noMark⟩⟩

def Tree.PlainSymbols {π : Type u} (tree : Tree π) : Prop :=
  ∀ node ∈ tree.nodes, PlainSymbol node.symbol

instance {π : Type u} (tree : Tree π) : Decidable tree.PlainSymbols :=
  inferInstanceAs (Decidable (∀ node ∈ tree.nodes, PlainSymbol node.symbol))

/-- The parts of two trees below two of their nodes have one shape, with the same symbol and the
same value, or none, at corresponding nodes. Payloads may differ. -/
inductive Tree.Alike {π : Type u} {σ : Type v} (tree : Tree π) (other : Tree σ) :
    Nat → Nat → Prop where
  | node {id otherId : Nat} {node : Node π} {otherNode : Node σ}
      (found : tree.get? id = some node) (otherFound : other.get? otherId = some otherNode)
      (symbol : node.symbol = otherNode.symbol) (value : node.value = otherNode.value)
      (children : List.Forall₂ (Alike tree other) node.children otherNode.children) :
      Alike tree other id otherId

def enclosed (symbol : String) (inside : List Char) : List Char :=
  '(' :: (symbol.toList ++ (inside ++ [')']))

/-- The line form of a node with the given symbol, value and line forms of its children, each behind
a blank. -/
inductive LineForm (symbol : String) : Option String → List Char → List Char → Prop where
  | bare : LineForm symbol none [] symbol.toList
  | valued (value : String) :
      LineForm symbol (some value) [] (enclosed symbol (' ' :: (Text.quoted value).toList))
  | inner {first : Char} {rest : List Char} (noMark : first ≠ Text.doubleMark) :
      LineForm symbol none (' ' :: first :: rest) (enclosed symbol (' ' :: first :: rest))

def EndsSymbol (text : List Char) : Prop :=
  ∃ first rest, text = first :: rest ∧ (first = ' ' ∨ first = ')')

namespace PlainSymbol

variable {symbol first second : String}

theorem head (plain : PlainSymbol symbol) :
    ∃ head tail, symbol.toList = head :: tail ∧ head ≠ '(' ∧ head ≠ Text.doubleMark := by
  cases written : symbol.toList with
  | nil => exact absurd (String.toList_eq_nil_iff.1 written) plain.nonempty
  | cons head tail =>
      have member : head ∈ symbol.toList := written ▸ List.mem_cons_self
      refine ⟨head, tail, rfl, ?_, ?_⟩
      · intro isOpening
        exact plain.noOpening (isOpening ▸ member)
      · intro isMark
        exact plain.noMark (isMark ▸ member)

theorem stops (plain : PlainSymbol symbol) {front more behind : List Char}
    (whole : symbol.toList = front ++ more) (ends : EndsSymbol (more ++ behind)) : more = [] := by
  cases more with
  | nil => rfl
  | cons c rest =>
      obtain ⟨head, tail, begins, punctuation⟩ := ends
      have same : c = head := (List.cons.inj begins).1
      have member : head ∈ symbol.toList := by
        rw [whole, ← same]
        exact List.mem_append_right front List.mem_cons_self
      rcases punctuation with isBlank | isClosing
      · exact absurd (isBlank ▸ member) plain.noBlank
      · exact absurd (isClosing ▸ member) plain.noClosing

theorem append_inj (plain : PlainSymbol first) (otherPlain : PlainSymbol second)
    {behind others : List Char} (ends : EndsSymbol behind) (otherEnds : EndsSymbol others)
    (same : first.toList ++ behind = second.toList ++ others) :
    first = second ∧ behind = others := by
  rcases List.append_eq_append_iff.1 same with shorter | longer
  · obtain ⟨more, whole, rest⟩ := shorter
    have nothing := otherPlain.stops whole (rest ▸ ends)
    rw [nothing, List.append_nil] at whole
    rw [nothing, List.nil_append] at rest
    exact ⟨String.toList_inj.1 whole.symm, rest⟩
  · obtain ⟨more, whole, rest⟩ := longer
    have nothing := plain.stops whole (rest ▸ otherEnds)
    rw [nothing, List.append_nil] at whole
    rw [nothing, List.nil_append] at rest
    exact ⟨String.toList_inj.1 whole, rest.symm⟩

end PlainSymbol

namespace LineForm

variable {symbol other : String} {value otherValue : Option String}
variable {parts otherParts text otherText behind others : List Char}

theorem unique (form : LineForm symbol value parts text)
    (again : LineForm symbol value parts otherText) : text = otherText := by
  cases form <;> cases again <;> rfl

theorem bare_ne_enclosed (plain : PlainSymbol symbol) {inside : List Char} :
    symbol.toList ++ behind ≠ enclosed other inside ++ others := by
  obtain ⟨first, rest, written, noOpening, -⟩ := plain.head
  rw [written]
  intro same
  exact noOpening (List.cons.inj same).1

theorem quoted_ne_parts {value : String} {first : Char} {rest : List Char}
    (noMark : first ≠ Text.doubleMark) :
    ' ' :: (Text.quoted value).toList ++ behind ≠ ' ' :: first :: rest ++ others := by
  rw [Text.to_list_quoted]
  intro same
  exact noMark (List.cons.inj (List.cons.inj same).2).1.symm

theorem enclosed_append_inj (plain : PlainSymbol symbol) (otherPlain : PlainSymbol other)
    {inside otherInside : List Char}
    (same : enclosed symbol (' ' :: inside) ++ behind =
      enclosed other (' ' :: otherInside) ++ others) :
    symbol = other ∧ ' ' :: inside ++ ')' :: behind = ' ' :: otherInside ++ ')' :: others := by
  have unclosed : symbol.toList ++ (' ' :: inside ++ ')' :: behind) =
      other.toList ++ (' ' :: otherInside ++ ')' :: others) := by
    simpa [enclosed] using same
  exact plain.append_inj otherPlain ⟨' ', _, rfl, Or.inl rfl⟩ ⟨' ', _, rfl, Or.inl rfl⟩ unclosed

/-- A line form tells the symbol and the value, and goes on with the children. -/
theorem append_inj (form : LineForm symbol value parts text)
    (otherForm : LineForm other otherValue otherParts otherText) (plain : PlainSymbol symbol)
    (otherPlain : PlainSymbol other) (ends : EndsSymbol behind) (otherEnds : EndsSymbol others)
    (same : text ++ behind = otherText ++ others) :
    symbol = other ∧ value = otherValue ∧
      parts ++ ')' :: behind = otherParts ++ ')' :: others := by
  cases form with
  | bare =>
      cases otherForm with
      | bare =>
          obtain ⟨sameSymbol, sameBehind⟩ := plain.append_inj otherPlain ends otherEnds same
          exact ⟨sameSymbol, rfl, congrArg ([] ++ ')' :: ·) sameBehind⟩
      | valued => exact absurd same (bare_ne_enclosed plain)
      | inner => exact absurd same (bare_ne_enclosed plain)
  | valued value =>
      cases otherForm with
      | bare => exact absurd same.symm (bare_ne_enclosed otherPlain)
      | valued otherValue =>
          obtain ⟨sameSymbol, sameInside⟩ := enclosed_append_inj plain otherPlain same
          obtain ⟨sameValue, sameBehind⟩ :=
            Text.quoted_append_inj (List.cons.inj sameInside).2
          exact ⟨sameSymbol, congrArg some sameValue, sameBehind⟩
      | inner noMark =>
          exact absurd (enclosed_append_inj plain otherPlain same).2 (quoted_ne_parts noMark)
  | inner noMark =>
      cases otherForm with
      | bare => exact absurd same.symm (bare_ne_enclosed otherPlain)
      | valued =>
          exact absurd (enclosed_append_inj plain otherPlain same).2.symm (quoted_ne_parts noMark)
      | inner =>
          obtain ⟨sameSymbol, sameInside⟩ := enclosed_append_inj plain otherPlain same
          exact ⟨sameSymbol, rfl, sameInside⟩

end LineForm

namespace Tree

def joinedAt {π : Type u} (tree : Tree π) (depth : Nat) (ids : List Nat) : List Char :=
  ids.flatMap fun id => ' ' :: (tree.lineAt depth id).toList

section OneTree

variable {π : Type u} {tree : Tree π} {id depth : Nat} {node : Node π}

theorem PlainSymbols.of_found (plain : tree.PlainSymbols) (found : tree.get? id = some node) :
    PlainSymbol node.symbol :=
  plain node (Array.mem_of_getElem? found)

theorem joined_at_cons (tree : Tree π) (depth id : Nat) (rest : List Nat) :
    tree.joinedAt depth (id :: rest) =
      ' ' :: ((tree.lineAt depth id).toList ++ tree.joinedAt depth rest) := rfl

theorem ends_symbol_joined_at (tree : Tree π) (depth : Nat) (ids : List Nat)
    (behind : List Char) : EndsSymbol (tree.joinedAt depth ids ++ ')' :: behind) := by
  cases ids with
  | nil => exact ⟨')', behind, rfl, Or.inr rfl⟩
  | cons id rest => exact ⟨' ', _, rfl, Or.inl rfl⟩

theorem to_list_line_at (found : tree.get? id = some node) (depth : Nat) :
    (tree.lineAt (depth + 1) id).toList =
      if node.children = [] then
        match node.value with
        | some value => enclosed node.symbol (' ' :: (Text.quoted value).toList)
        | none => node.symbol.toList
      else enclosed node.symbol (tree.joinedAt depth node.children) := by
  unfold lineAt
  rw [found]
  simp only [Node.isLeaf, List.isEmpty_iff]
  split
  · cases node.value with
    | none => rfl
    | some value => simp [enclosed]
  · simp [enclosed, joinedAt, List.flatMap_map]

theorem line_at_head (plain : tree.PlainSymbols) (found : tree.get? id = some node) (depth : Nat) :
    ∃ first rest, (tree.lineAt (depth + 1) id).toList = first :: rest ∧
      first ≠ Text.doubleMark := by
  rw [to_list_line_at found]
  split
  · split
    · exact ⟨'(', _, rfl, by decide⟩
    · obtain ⟨first, rest, written, -, noMark⟩ := (plain.of_found found).head
      exact ⟨first, rest, written, noMark⟩
  · exact ⟨'(', _, rfl, by decide⟩

theorem exists_line_form (plain : tree.PlainSymbols) (found : tree.get? id = some node)
    (noValue : node.value = none ∨ node.children = []) {stop : Nat}
    (inner : tree.Spans (some id) 0 node.children (id + 1) stop) (deep : stop ≤ id + depth) :
    ∃ below, depth = below + 1 ∧
      LineForm node.symbol node.value (tree.joinedAt below node.children)
        (tree.lineAt depth id).toList := by
  have wide := inner.start_le_stop
  obtain ⟨below, isSucc⟩ := Nat.exists_eq_succ_of_ne_zero (show depth ≠ 0 by omega)
  subst isSucc
  refine ⟨below, rfl, ?_⟩
  rw [to_list_line_at found]
  cases children : node.children with
  | nil =>
      rw [if_pos rfl]
      cases node.value with
      | none => exact .bare
      | some value => exact .valued value
  | cons child rest =>
      rw [children] at noValue inner
      rw [if_neg (List.cons_ne_nil child rest), noValue.resolve_right (List.cons_ne_nil child rest)]
      obtain ⟨isFirst, middle, fills, following⟩ := inner.cons_fills
      have wideChild := fills.lt_stop
      have wideBehind := following.start_le_stop
      obtain ⟨childNode, childFound, -⟩ := fills
      obtain ⟨less, isSucc⟩ := Nat.exists_eq_succ_of_ne_zero (show below ≠ 0 by omega)
      subst isSucc
      obtain ⟨first, more, written, noMark⟩ := line_at_head plain childFound less
      rw [joined_at_cons, written]
      exact .inner noMark

end OneTree

section TwoTrees

variable {π : Type u} {σ : Type v} {tree : Tree π} {other : Tree σ}

/-- Reading the line forms of some siblings stops where the list of siblings ends, and tells the
parts of the tree below them. -/
theorem Spans.joined_at_append_inj (plain : tree.PlainSymbols) (otherPlain : other.PlainSymbols)
    {parent otherParent : Option Nat} {place otherPlace start otherStart stop otherStop : Nat}
    {ids otherIds : List Nat} (spans : tree.Spans parent place ids start stop)
    (otherSpans : other.Spans otherParent otherPlace otherIds otherStart otherStop)
    {depth otherDepth : Nat} (deep : stop ≤ start + depth)
    (otherDeep : otherStop ≤ otherStart + otherDepth) {behind others : List Char}
    (same : tree.joinedAt depth ids ++ ')' :: behind =
      other.joinedAt otherDepth otherIds ++ ')' :: others) :
    List.Forall₂ (tree.Alike other) ids otherIds ∧ behind = others := by
  -- What follows the list is general, because the siblings follow the list of a node's children.
  induction spans generalizing otherParent otherPlace otherStart otherStop otherIds depth otherDepth
    behind others with
  | nil =>
      cases otherSpans with
      | nil => exact ⟨.nil, (List.cons.inj same).2⟩
      | cons => exact absurd (List.cons.inj same).1 (by decide)
  | @cons parent place id middle stop node rest found above placed noValue inner following
      innerAlike followingAlike =>
      cases otherSpans with
      | nil => exact absurd (List.cons.inj same).1 (by decide)
      | @cons _ _ _ otherMiddle _ otherNode otherRest otherFound _ _ otherNoValue otherInner
          otherFollowing =>
          have wide := inner.start_le_stop
          have wideBehind := following.start_le_stop
          have otherWide := otherInner.start_le_stop
          have otherWideBehind := otherFollowing.start_le_stop
          obtain ⟨below, isSucc, form⟩ :=
            exists_line_form plain found noValue inner (Nat.le_trans wideBehind deep)
          obtain ⟨otherBelow, otherIsSucc, otherForm⟩ :=
            exists_line_form otherPlain otherFound otherNoValue otherInner
              (Nat.le_trans otherWideBehind otherDeep)
          rw [joined_at_cons, joined_at_cons, List.cons_append, List.cons_append,
            List.append_assoc, List.append_assoc] at same
          obtain ⟨symbol, value, sameInside⟩ := form.append_inj otherForm (plain.of_found found)
            (otherPlain.of_found otherFound) (tree.ends_symbol_joined_at _ rest behind)
            (other.ends_symbol_joined_at _ otherRest others) (List.cons.inj same).2
          -- A node without children leaves an empty list of them to read.
          obtain ⟨children, sameFollowing⟩ :=
            innerAlike otherInner (by omega) (by omega) sameInside
          obtain ⟨restAlike, sameBehind⟩ :=
            followingAlike otherFollowing (by omega) (by omega) sameFollowing
          exact ⟨.cons (.node found otherFound symbol value children) restAlike, sameBehind⟩

theorem Spans.joined_at_eq (plain : tree.PlainSymbols) (otherPlain : other.PlainSymbols)
    {parent otherParent : Option Nat} {place otherPlace start otherStart stop otherStop : Nat}
    {ids otherIds : List Nat} (spans : tree.Spans parent place ids start stop)
    (otherSpans : other.Spans otherParent otherPlace otherIds otherStart otherStop)
    {depth otherDepth : Nat} (deep : stop ≤ start + depth)
    (otherDeep : otherStop ≤ otherStart + otherDepth)
    (alike : List.Forall₂ (tree.Alike other) ids otherIds) :
    tree.joinedAt depth ids = other.joinedAt otherDepth otherIds := by
  induction spans generalizing otherParent otherPlace otherStart otherStop otherIds depth
    otherDepth with
  | nil =>
      cases alike
      rfl
  | @cons parent place id middle stop node rest found above placed noValue inner following
      innerSame followingSame =>
      cases alike with
      | cons first restAlike =>
          cases otherSpans with
          | cons otherFound _ _ otherNoValue otherInner otherFollowing =>
              have wide := inner.start_le_stop
              have wideBehind := following.start_le_stop
              have otherWide := otherInner.start_le_stop
              have otherWideBehind := otherFollowing.start_le_stop
              cases first with
              | node foundAgain otherFoundAgain symbol value children =>
                  rw [found, Option.some.injEq] at foundAgain
                  rw [otherFound, Option.some.injEq] at otherFoundAgain
                  subst foundAgain otherFoundAgain
                  obtain ⟨below, isSucc, form⟩ :=
                    exists_line_form plain found noValue inner (Nat.le_trans wideBehind deep)
                  obtain ⟨otherBelow, otherIsSucc, otherForm⟩ :=
                    exists_line_form otherPlain otherFound otherNoValue otherInner
                      (Nat.le_trans otherWideBehind otherDeep)
                  have sameChildren : tree.joinedAt below node.children =
                      other.joinedAt otherBelow _ :=
                    innerSame otherInner (by omega) (by omega) children
                  have sameRest : tree.joinedAt depth rest = other.joinedAt otherDepth _ :=
                    followingSame otherFollowing (by omega) (by omega) restAlike
                  rw [← symbol, ← value, ← sameChildren] at otherForm
                  rw [joined_at_cons, joined_at_cons, form.unique otherForm, sameRest]

theorem joined_root (tree : Tree π) :
    tree.joinedAt tree.size [root] = ' ' :: tree.line.toList := by
  rw [joined_at_cons]
  exact congrArg (' ' :: ·) (List.append_nil _)

/-- Two trees with plain symbols have the same line form exactly when they are alike: values may be
any text, since they are quoted. -/
theorem line_eq_iff_alike {tree : Tree π} {other : Tree σ} (built : tree.Built)
    (otherBuilt : other.Built) (plain : tree.PlainSymbols) (otherPlain : other.PlainSymbols) :
    tree.line = other.line ↔ tree.Alike other root root := by
  have ordered : tree.Spans none 0 [root] 0 tree.size := built.is_preorder
  have otherOrdered : other.Spans none 0 [root] 0 other.size := otherBuilt.is_preorder
  have deep : tree.size ≤ 0 + tree.size := by omega
  have otherDeep : other.size ≤ 0 + other.size := by omega
  constructor
  · intro same
    have joined : tree.joinedAt tree.size [root] ++ [')'] =
        other.joinedAt other.size [root] ++ [')'] := by
      rw [joined_root, joined_root, same]
    obtain ⟨alike, -⟩ :=
      ordered.joined_at_append_inj plain otherPlain otherOrdered deep otherDeep joined
    exact (List.forall₂_cons.1 alike).1
  · intro alike
    have joined := ordered.joined_at_eq plain otherPlain otherOrdered deep otherDeep
      (.cons alike .nil)
    rw [joined_root, joined_root] at joined
    exact String.toList_inj.1 (List.cons.inj joined).2

end TwoTrees

/-- A value with a quote, parentheses, a backslash and a control of its own. -/
def phraseTree : Tree Unit where
  nodes := #[
    { symbol := "say", children := [1, 2] },
    { symbol := "text", value := some "a\") (b \\\x07", parent := some 0 },
    { symbol := "end", parent := some 0, index := 1 }]

def paidPhraseTree : Tree Nat where
  nodes := #[
    { symbol := "say", children := [1, 2], payload := some 7 },
    { symbol := "text", value := some "a\") (b \\\x07", parent := some 0 },
    { symbol := "end", parent := some 0, index := 1 }]

/-- Two leaves with values that together read like the one value. -/
def partedPhraseTree : Tree Unit where
  nodes := #[
    { symbol := "say", children := [1, 2, 3] },
    { symbol := "text", value := some "a", parent := some 0 },
    { symbol := "b", value := some "", parent := some 0, index := 1 },
    { symbol := "end", parent := some 0, index := 2 }]

theorem line_eq_iff_alike_phrases :
    phraseTree.Built ∧ paidPhraseTree.Built ∧ partedPhraseTree.Built ∧
      phraseTree.PlainSymbols ∧ paidPhraseTree.PlainSymbols ∧ partedPhraseTree.PlainSymbols ∧
      phraseTree.line = "(say (text \"a\\\") (b \\\\\\u\x7b7\x7d\") end)" ∧
      partedPhraseTree.line = "(say (text \"a\") (b \"\") end)" ∧
      phraseTree.Alike paidPhraseTree root root ∧
      ¬ phraseTree.Alike partedPhraseTree root root := by
  have built : phraseTree.Built := .steps (show Tree.ofSteps "say"
    [.leaf "text" "a\") (b \\\x07", .emptyLeaf "end"] = .ok phraseTree from rfl)
  have paidBuilt : paidPhraseTree.Built := .steps (show Tree.ofSteps "say"
    [.leaf "text" "a\") (b \\\x07", .emptyLeaf "end", .payload 7] = .ok paidPhraseTree from rfl)
  have partedBuilt : partedPhraseTree.Built := .steps (show Tree.ofSteps "say"
    [.leaf "text" "a", .leaf "b" "", .emptyLeaf "end"] = .ok partedPhraseTree from rfl)
  have plain : phraseTree.PlainSymbols := by decide +kernel
  have paidPlain : paidPhraseTree.PlainSymbols := by decide +kernel
  have partedPlain : partedPhraseTree.PlainSymbols := by decide +kernel
  have written : phraseTree.line = "(say (text \"a\\\") (b \\\\\\u\x7b7\x7d\") end)" := by
    decide +kernel
  have paidWritten : paidPhraseTree.line = "(say (text \"a\\\") (b \\\\\\u\x7b7\x7d\") end)" := by
    decide +kernel
  have partedWritten : partedPhraseTree.line = "(say (text \"a\") (b \"\") end)" := by
    decide +kernel
  refine ⟨built, paidBuilt, partedBuilt, plain, paidPlain, partedPlain, written, partedWritten,
    ?_, ?_⟩
  · exact (line_eq_iff_alike built paidBuilt plain paidPlain).1 (written.trans paidWritten.symm)
  · intro alike
    have same := (line_eq_iff_alike built partedBuilt plain partedPlain).2 alike
    rw [written, partedWritten] at same
    exact absurd same (by decide)

end Tree

end TreePattern
