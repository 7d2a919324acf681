import MonkeyFrontend.Tree.Write

namespace MonkeyFrontend

inductive Node where
  | statement (s : Statement)
  | expression (e : Expression)

namespace Node

/-- The field that a node needs and that was never filled. A return and an expression statement do
without their values. -/
def unfilled? : Node → Option String
  | statement (.letBinding _ _ none) => some "value"
  | expression (.integer _ none) => some "value"
  | expression (.unaryOpen _ _) => some "right"
  | expression (.binaryOpen _ _ _) => some "right"
  | _ => none

def gap : Node → String → Gap
  | statement s, field => .incomplete s.kind field
  | expression e, field => .missing e.kind field

def gap? : Node → Option Gap
  | statement s => s.gap?
  | expression e => e.gap?

theorem gap?_eq (node : Node) : node.gap? = node.unfilled?.map node.gap := by
  cases node with
  | statement s =>
    cases s with
    | letBinding token name value => cases value <;> rfl
    | returnValue token value => rfl
    | expression token value => rfl
  | expression e =>
    cases e with
    | integer token value => cases value <;> rfl
    | _ => rfl

end Node

def Expression.nodes : Expression → List Node
  | unary token operator right => .expression (unary token operator right) :: right.nodes
  | binary token operator left right =>
    .expression (binary token operator left right) :: (left.nodes ++ right.nodes)
  | binaryOpen token operator left => .expression (binaryOpen token operator left) :: left.nodes
  | leaf => [.expression leaf]

def Statement.nodes : Statement → List Node
  | letBinding token name value =>
    .statement (letBinding token name value) :: .expression (.identifier name) ::
      value.toList.flatMap Expression.nodes
  | returnValue token value =>
    .statement (returnValue token value) :: value.toList.flatMap Expression.nodes
  | expression token value =>
    .statement (expression token value) :: value.toList.flatMap Expression.nodes

def Program.nodes (program : Program) : List Node := program.statements.flatMap Statement.nodes

def IsFirstGap (nodes : List Node) (gap : Gap) : Prop :=
  ∃ before node after field, nodes = before ++ node :: after ∧
    (∀ earlier ∈ before, earlier.unfilled? = none) ∧
    node.unfilled? = some field ∧ gap = node.gap field

theorem findSome?_gap?_eq_none_iff (nodes : List Node) :
    nodes.findSome? Node.gap? = none ↔ ∀ node ∈ nodes, node.unfilled? = none := by
  simp [List.findSome?_eq_none_iff, Node.gap?_eq]

theorem findSome?_gap?_eq_some_iff (nodes : List Node) (gap : Gap) :
    nodes.findSome? Node.gap? = some gap ↔ IsFirstGap nodes gap := by
  simp only [List.findSome?_eq_some_iff, Node.gap?_eq, Option.map_eq_some_iff,
    Option.map_eq_none_iff, IsFirstGap]
  constructor
  · rintro ⟨before, node, after, hnodes, ⟨field, hfield, rfl⟩, hbefore⟩
    exact ⟨before, node, after, field, hnodes, hbefore, hfield, rfl⟩
  · rintro ⟨before, node, after, field, hnodes, hbefore, hfield, rfl⟩
    exact ⟨before, node, after, hnodes, ⟨field, hfield, rfl⟩, hbefore⟩

theorem Written.gap_andThen (written : Written) (next : String → Written) :
    (written.andThen next).gap = written.gap.or (next written.buffer).gap := by
  obtain ⟨buffer, gap⟩ := written
  cases gap <;> rfl

theorem Expression.gap_writeTo (e : Expression) (buffer : String) :
    (e.writeTo buffer).gap = e.nodes.findSome? Node.gap? := by
  induction e generalizing buffer with
  | identifier name => rfl
  | integer token value => cases value <;> rfl
  | boolean token value => rfl
  | unary token operator right ih =>
    rw [writeTo, Written.gap_andThen, ih, nodes, List.findSome?_cons]
    exact Option.or_none
  | unaryOpen token operator => rfl
  | binary token operator left right ihl ihr =>
    rw [writeTo, Written.gap_andThen, Written.gap_andThen, ihl, ihr, nodes, List.findSome?_cons,
      List.findSome?_append]
    exact congrArg _ Option.or_none
  | binaryOpen token operator left ih => rfl

theorem Statement.gap_writeTo (s : Statement) (buffer : String) :
    (s.writeTo buffer).gap = s.nodes.findSome? Node.gap? := by
  cases s with
  | letBinding token name value =>
    cases value with
    | none => rfl
    | some e =>
      rw [writeTo, Written.gap_andThen, e.gap_writeTo, nodes, Option.toList_some,
        List.flatMap_singleton]
      exact Option.or_none
  | returnValue token value =>
    cases value with
    | none => rfl
    | some e =>
      rw [writeTo, Written.gap_andThen, e.gap_writeTo, nodes, Option.toList_some,
        List.flatMap_singleton]
      exact Option.or_none
  | expression token value =>
    cases value with
    | none => rfl
    | some e =>
      rw [writeTo, e.gap_writeTo, nodes, Option.toList_some, List.flatMap_singleton]
      rfl

theorem Program.gap_writeTo (program : Program) (buffer : String) :
    (program.writeTo buffer).gap = program.nodes.findSome? Node.gap? := by
  obtain ⟨statements⟩ := program
  -- what has been written already may have met a gap of its own
  have hfold (written : Written) :
      (statements.foldl (fun written s => written.andThen s.writeTo) written).gap =
        written.gap.or ((statements.flatMap Statement.nodes).findSome? Node.gap?) := by
    induction statements generalizing written with
    | nil => simp
    | cons s statements ih =>
      rw [List.foldl_cons, ih, Written.gap_andThen, s.gap_writeTo, List.flatMap_cons,
        List.findSome?_append, Option.or_assoc]
  exact hfold (.full buffer)

/-- Writing comes to a text exactly if every field that is needed was filled, and otherwise tells
the first in the order of the nodes that was not. -/
def Reports (result : Except Gap String) (nodes : List Node) : Prop :=
  ((∃ text, result = .ok text) ↔ ∀ node ∈ nodes, node.unfilled? = none) ∧
    ∀ gap, result = .error gap ↔ IsFirstGap nodes gap

theorem Written.reports {written : Written} {nodes : List Node}
    (h : written.gap = nodes.findSome? Node.gap?) : Reports written.text nodes := by
  constructor
  · rw [← findSome?_gap?_eq_none_iff, ← h]
    obtain ⟨buffer, gap⟩ := written
    cases gap <;> simp [text]
  · intro gap
    rw [← findSome?_gap?_eq_some_iff, ← h]
    obtain ⟨buffer, gap⟩ := written
    cases gap <;> simp [text]

/-- The gap that is told of a tree is its first one, whatever else is not filled. An operator
comes before its operands, so a missing right operand is told before any gap in the left one. -/
theorem render_reports_first_gap :
    (∀ e : Expression, Reports e.render e.nodes) ∧
      (∀ s : Statement, Reports s.render s.nodes) ∧
      ∀ program : Program, Reports program.render program.nodes :=
  ⟨fun e => Written.reports (e.gap_writeTo ""), fun s => Written.reports (s.gap_writeTo ""),
    fun program => Written.reports (program.gap_writeTo "")⟩

example :
    let left : Expression := .integer ⟨.integer, .text "1"⟩ none
    (Expression.binaryOpen ⟨.plus, .text "+"⟩ "+" left).render =
      .error (.missing .binaryExpression "right") := rfl

end MonkeyFrontend
