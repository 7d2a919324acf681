import Mathlib.Logic.Function.Iterate
import MonkeyFrontend.Parsing.Program
import MonkeyFrontend.Proofs.Parsing.Expression

namespace MonkeyFrontend

inductive Frame where
  | restore (depth : Nat)
  | unary (bound : Precedence) (operator : Token)
  | group (bound : Precedence)
  | binary (bound : Precedence) (operator : Token) (left : Expression)
  | letBinding (keyword name : Token)
  | returnValue (keyword : Token)
  | expression (first : Token)
  | program (drawn : Nat)
deriving DecidableEq

inductive Control where
  | program
  | statement
  | call (bound : Precedence)
  | enter (bound : Precedence)
  | operand (bound : Precedence)
  | climb (bound : Precedence) (left : Expression)
  | operator (bound : Precedence) (left : Expression)
  | back (value : Option Expression)
  | verdict (value : Option Statement)
  | halt
deriving DecidableEq

/-- A reader that goes step by step. One counter has the levels that are in use; an expression that
is being read has a frame with the value to which the counter returns. -/
structure Machine where
  cursor : Cursor
  depth : Nat
  log : List Event
  statements : List Statement
  frames : List Frame
  control : Control
deriving DecidableEq

namespace Machine

def ofParser (parser : Parser) : Machine := ⟨parser.cursor, 0, parser.log, [], [], .program⟩

def drawn (m : Machine) : Nat := (Event.diagnostics m.log).length

def note (m : Machine) (event : Event) : Machine := { m with log := m.log ++ [event] }

def follow {α : Type} (m : Machine) (o : Outcome α) (control : Control) : Machine :=
  { m with cursor := o.cursor, log := m.log ++ o.events, control := control }

def descend (m : Machine) (control : Control) : Machine :=
  if Cursor.levelLimit ≤ m.depth then m.follow m.cursor.tooDeep (.back none)
  else { m with depth := m.depth + 1, control := control }

def push (m : Machine) (frame : Frame) (bound : Precedence) : Machine :=
  { m with cursor := m.cursor.advance, frames := frame :: m.frames, control := .call bound }

def openLet (m : Machine) : Machine :=
  let header := (m.cursor.expect .identifier).andThen fun name d =>
    (d.expect .assign).andThen fun _ d => .done name d
  match header.value with
  | some name => (m.follow header m.control).push (.letBinding m.cursor.current.token name) .lowest
  | none => m.follow header (.verdict none)

def openStatement (m : Machine) : Machine :=
  let token := m.cursor.current.token
  match m.cursor.current.kind with
  | .letKeyword => m.openLet
  | .returnKeyword =>
    if Cursor.endsStatement m.cursor.peek then
      { m with cursor := m.cursor.overSemicolon,
               control := .verdict (some (.returnValue token none)) }
    else m.push (.returnValue token) .lowest
  | .semicolon => { m with control := .verdict (some (.expression token none)) }
  | _ => { m with frames := .expression token :: m.frames, control := .call .lowest }

def afterOperand (bound : Precedence) (value : Option Expression) : Control :=
  value.elim (.back none) (.climb bound)

def openOperand (m : Machine) (bound : Precedence) : Machine :=
  let token := m.cursor.current.token
  match token.kind with
  | .bang | .minus => m.push (.unary bound token) .unary
  | .lparen => m.push (.group bound) .lowest
  | _ =>
    -- no expression is inside, so none is read
    let o := Cursor.operand (fun _ d => d.tooDeep) m.cursor
    m.follow o (afterOperand bound o.value)

def close (m : Machine) (make : Expression → Statement) (value : Option Expression) : Machine :=
  match value with
  | some value =>
    { m with cursor := m.cursor.overSemicolon, control := .verdict (some (make value)) }
  | none => { m with control := .verdict none }

def resume (m : Machine) (value : Option Expression) : Machine :=
  match m.frames with
  | .restore depth :: frames => { m with depth := depth, frames := frames }
  | .unary bound operator :: frames =>
    let make := Expression.unary operator operator.literal.render
    { m with frames := frames, control := afterOperand bound (value.map make) }
  | .group bound :: frames =>
    match value with
    | some e =>
      let o := m.cursor.expect .rparen
      { m with frames := frames }.follow o (afterOperand bound (o.value.map fun _ => e))
    | none => { m with frames := frames }
  | .binary bound operator left :: frames =>
    let make := Expression.binary operator operator.literal.render left
    { m with frames := frames, control := afterOperand bound (value.map make) }
  | .letBinding keyword name :: frames =>
    { m with frames := frames }.close
      (fun value => .letBinding keyword ⟨name, name.literal⟩ (some value)) value
  | .returnValue keyword :: frames =>
    { m with frames := frames }.close (fun value => .returnValue keyword (some value)) value
  | .expression first :: frames =>
    { m with frames := frames }.close (fun value => .expression first (some value)) value
  | _ => m

/-- Keeps a statement that drew no diagnostic; drops any other up to the end of a statement. -/
def settle (m : Machine) (value : Option Statement) : Machine :=
  match m.frames, value with
  | .program drawn :: frames, some s =>
    if m.drawn = drawn then
      { m with cursor := m.cursor.advance, statements := m.statements ++ [s], frames := frames,
               control := .program }
    else
      { m with cursor := m.cursor.recover.advance, log := m.log ++ [.discarding (m.drawn - drawn)],
               frames := frames, control := .program }
  | .program drawn :: frames, none =>
    { m with cursor := m.cursor.recover.advance, log := m.log ++ [.discarding (m.drawn - drawn)],
             frames := frames, control := .program }
  | _, _ => m

def step (m : Machine) : Machine :=
  match m.control with
  | .program =>
    if m.cursor.current.isEof then { m with control := .halt }
    else { m with frames := .program m.drawn :: m.frames, control := .statement }
  | .statement =>
    (m.note (.statement m.cursor.current.kind)).openStatement
  | .call bound =>
    { m with frames := .restore m.depth :: m.frames, control := .enter bound }
  | .enter bound =>
    (m.note (.expression m.cursor.current.kind bound m.depth)).descend (.operand bound)
  | .operand bound => m.openOperand bound
  | .climb bound left =>
    if bound < m.cursor.peek.kind.precedence then
      { m with cursor := m.cursor.advance }.descend (.operator bound left)
    else { m with control := .back (some left) }
  | .operator bound left =>
    m.push (.binary bound m.cursor.current.token left) m.cursor.current.kind.precedence
  | .back value => m.resume value
  | .verdict value => m.settle value
  | .halt => m

end Machine

theorem Outcome.andThen_done {α β : Type} (o : Outcome α) (make : α → β) :
    (o.andThen fun a d => .done (make a) d) = ⟨o.value.map make, o.cursor, o.events⟩ := by
  cases hv : o.value with
  | none =>
    rw [andThen_of_none hv]
    rfl
  | some a =>
    rw [andThen_of_some hv]
    simp [done]

namespace Machine

/-- In some steps one state leads to another, by states of which something holds. -/
inductive Runs (P : Machine → Prop) : Machine → Machine → Prop where
  | refl {m : Machine} (h : P m) : Runs P m m
  | step {m m' : Machine} (h : P m) (hr : Runs P m.step m') : Runs P m m'

namespace Runs

variable {P Q : Machine → Prop} {m m' m'' : Machine}

theorem trans (h : Runs P m m') (h' : Runs P m' m'') : Runs P m m'' := by
  induction h with
  | refl _ => exact h'
  | step hm _ ih => exact .step hm (ih h')

theorem head (h : P m) (hs : m.step = m') (hr : Runs P m' m'') : Runs P m m'' := .step h (hs ▸ hr)

theorem mono (h : Runs P m m') (hPQ : ∀ x, P x → Q x) : Runs Q m m' := by
  induction h with
  | refl hm => exact .refl (hPQ _ hm)
  | step hm _ ih => exact .step (hPQ _ hm) ih

theorem last (h : Runs P m m') : P m' := by
  induction h with
  | refl hm => exact hm
  | step _ _ ih => exact ih

theorem exists_iterate (h : Runs P m m') :
    ∃ k, Machine.step^[k] m = m' ∧ ∀ j ≤ k, P (Machine.step^[j] m) := by
  induction h with
  | refl hm =>
    refine ⟨0, rfl, fun j hj => ?_⟩
    rw [Nat.le_zero.mp hj]
    exact hm
  | @step m m' hm _ ih =>
    obtain ⟨k, hk, hall⟩ := ih
    refine ⟨k + 1, hk, fun j hj => ?_⟩
    cases j with
    | zero => exact hm
    | succ j => exact hall j (Nat.le_of_succ_le_succ hj)

end Runs

def activations (frames : List Frame) : Nat :=
  frames.countP fun frame => match frame with
    | .restore _ => true
    | _ => false

/-- An expression is being read above some frames, in which no more than so many others are
nested. -/
structure Amid (frames : List Frame) (limit : Nat) (m : Machine) : Prop where
  depth : m.depth ≤ Cursor.levelLimit
  control : m.control ≠ .statement
  nested : ∃ above, m.frames = above ++ frames ∧ activations above ≤ limit

namespace Amid

theorem self {m : Machine} {frames : List Frame} {limit : Nat} (hf : m.frames = frames)
    (hd : m.depth ≤ Cursor.levelLimit) (hc : m.control ≠ .statement) : Amid frames limit m :=
  ⟨hd, hc, [], hf, Nat.zero_le _⟩

theorem mono {frames : List Frame} {limit limit' : Nat} {m : Machine} (h : Amid frames limit m)
    (hl : limit ≤ limit') : Amid frames limit' m := by
  obtain ⟨above, hf, ha⟩ := h.nested
  exact ⟨h.depth, h.control, above, hf, Nat.le_trans ha hl⟩

theorem pop {frame : Frame} {frames : List Frame} {limit : Nat} {m : Machine}
    (h : Amid (frame :: frames) limit m) : Amid frames (limit + activations [frame]) m := by
  obtain ⟨above, hf, ha⟩ := h.nested
  refine ⟨h.depth, h.control, above ++ [frame], ?_, ?_⟩
  · rw [hf, List.append_assoc]
    rfl
  · rw [activations, List.countP_append]
    exact Nat.add_le_add_right ha _

end Amid

/-- With so many levels left, a call does what the reading of an expression does. All the way the
frame that gives the counter back lies on the stack. -/
def Answers (n : Nat) : Prop :=
  ∀ (bound : Precedence) (m : Machine), m.depth + n = Cursor.levelLimit →
    let frames := .restore m.depth :: m.frames
    let o := Cursor.expression bound n m.cursor
    ∃ depth, Runs (Amid frames n) { m with frames := frames, control := .enter bound }
      { m.follow o (.back o.value) with depth := depth, frames := frames }

theorem Answers.runs {n : Nat} (h : Answers n) (bound : Precedence) (m : Machine)
    (hd : m.depth + n = Cursor.levelLimit) :
    let o := Cursor.expression bound n m.cursor
    Runs (Amid m.frames (n + 1)) { m with control := .call bound }
      (m.follow o (.back o.value)) := by
  intro o
  obtain ⟨depth, hr⟩ := h bound m hd
  have hle : m.depth ≤ Cursor.levelLimit := by omega
  have hcall : Amid m.frames (n + 1) { m with control := .call bound } :=
    .self rfl hle (by simp)
  have hback : Amid m.frames (n + 1) (m.follow o (.back o.value)) :=
    .self rfl hle (by simp [follow])
  exact .step hcall ((hr.mono fun x hx => hx.pop).trans (.step hr.last.pop (.refl hback)))

@[simp]
theorem follow_done {α : Type} (m : Machine) (a : α) (c : Cursor) (control : Control) :
    m.follow (.done a c) control = { m with cursor := c, control := control } := by
  simp [follow, Outcome.done]

theorem note_follow {α : Type} (m : Machine) (event : Event) (o : Outcome α) (control : Control) :
    (m.note event).follow o control = m.follow (.after event o) control := by
  simp [follow, note, Outcome.after]

/-- A reading that goes on is followed in two parts. -/
theorem follow_andThen_of_some {α β : Type} {o : Outcome α} {a : α} (h : o.value = some a)
    (m : Machine) (next : α → Cursor → Outcome β) (control control' : Control) :
    (m.follow o control').follow (next a o.cursor) control =
      m.follow (o.andThen next) control := by
  rw [Outcome.andThen_of_some h]
  simp [follow]

theorem follow_andThen_of_none {α β : Type} {o : Outcome α} (h : o.value = none)
    (m : Machine) (next : α → Cursor → Outcome β) (control : Control) :
    m.follow o control = m.follow (o.andThen next) control := by
  rw [Outcome.andThen_of_none h]
  rfl

def Climbs (n : Nat) : Prop :=
  ∀ (bound : Precedence) (left : Expression) (m : Machine), m.depth + n = Cursor.levelLimit →
    let o := Cursor.climb bound n left m.cursor
    ∃ depth, Runs (Amid m.frames n) { m with control := .climb bound left }
      { m.follow o (.back o.value) with depth := depth }

theorem climbs_zero : Climbs 0 := by
  intro bound left m hd o
  have hle : m.depth ≤ Cursor.levelLimit := hd ▸ Nat.le_refl _
  have hfull : Cursor.levelLimit ≤ m.depth := hd ▸ Nat.le_refl _
  have hstart : Amid m.frames 0 { m with control := .climb bound left } :=
    .self rfl hle (by simp)
  have hend : Amid m.frames 0 (m.follow o (.back o.value)) :=
    .self rfl hle (by simp [follow])
  have hstep : step { m with control := .climb bound left } = m.follow o (.back o.value) := by
    simp only [step, o, Cursor.climb]
    split
    · exact if_pos hfull
    · rw [follow_done]
      rfl
  exact ⟨m.depth, .head hstart hstep (.refl hend)⟩

theorem runs_binary {n : Nat} (hc : Climbs n) (bound : Precedence) (operator : Token)
    (left : Expression) (m : Machine) (hd : m.depth + n = Cursor.levelLimit)
    (r : Outcome Expression) :
    let o := r.andThen fun right d =>
      Cursor.climb bound n (.binary operator operator.literal.render left right) d
    ∃ depth, Runs (Amid m.frames (n + 1))
      { m.follow r (.back r.value) with frames := .binary bound operator left :: m.frames }
      { m.follow o (.back o.value) with depth := depth } := by
  intro o
  have hle : m.depth ≤ Cursor.levelLimit := by omega
  have hstart : Amid m.frames (n + 1)
      { m.follow r (.back r.value) with frames := .binary bound operator left :: m.frames } :=
    ⟨hle, by simp [follow], [.binary bound operator left], rfl, Nat.zero_le _⟩
  cases hv : r.value with
  | none =>
    have ho : o.value = none := by simp only [o, Outcome.andThen_of_none hv]
    have hend : Amid m.frames (n + 1) (m.follow r (.back none)) := .self rfl hle (by simp [follow])
    refine ⟨m.depth, ?_⟩
    rw [ho, ← follow_andThen_of_none hv]
    exact .head (hv ▸ hstart) rfl (.refl hend)
  | some right =>
    let e := Expression.binary operator operator.literal.render left right
    obtain ⟨depth, hr⟩ := hc bound e (m.follow r (.back r.value)) hd
    have ho : o.value = (Cursor.climb bound n e r.cursor).value := by
      simp only [o, Outcome.andThen_of_some hv, e]
    refine ⟨depth, ?_⟩
    rw [ho, ← follow_andThen_of_some hv m _ _ (.back r.value)]
    exact .head (hv ▸ hstart) rfl (hr.mono fun x hx => hx.mono (Nat.le_succ n))

theorem climbs_succ {n : Nat} (ha : Answers n) (hc : Climbs n) : Climbs (n + 1) := by
  intro bound left m hd
  have hle : m.depth ≤ Cursor.levelLimit := by omega
  have hstart : Amid m.frames (n + 1) { m with control := .climb bound left } :=
    .self rfl hle (by simp)
  by_cases hlt : bound < m.cursor.peek.kind.precedence
  · rw [Cursor.climb_succ_of_lt hlt]
    -- one step counts a level for the operator, the next calls for its right operand
    let operator := m.cursor.peek
    let counted : Machine := { m with depth := m.depth + 1, control := .operator bound left }
    let inner : Machine := { m with
      cursor := m.cursor.advance.advance
      depth := m.depth + 1
      frames := .binary bound operator.token left :: m.frames }
    have hdepth : inner.depth + n = Cursor.levelLimit := by
      simp only [inner]
      omega
    have hroom : ¬ Cursor.levelLimit ≤ m.depth := by omega
    have hfirst : step { m with control := .climb bound left } =
        { counted with cursor := m.cursor.advance } := by
      simp only [step, if_pos hlt, descend, if_neg hroom, counted]
    have hsecond : Amid m.frames (n + 1) { counted with cursor := m.cursor.advance } :=
      .self rfl (by simp [counted]; omega) (by simp [counted])
    have hright := (ha.runs operator.kind.precedence inner hdepth).mono fun x hx => hx.pop
    obtain ⟨depth, hr⟩ := runs_binary hc bound operator.token left
      { m with depth := m.depth + 1 } hdepth
      (Cursor.expression operator.kind.precedence n m.cursor.advance.advance)
    exact ⟨depth, .head hstart hfirst (.head hsecond rfl (hright.trans hr))⟩
  · rw [Cursor.climb_of_not_lt hlt]
    have hfirst : step { m with control := .climb bound left } =
        { m with control := .back (some left) } := by
      simp only [step, if_neg hlt]
    refine ⟨m.depth, .head hstart hfirst ?_⟩
    rw [follow_done]
    exact .refl (.self rfl hle (by simp))

theorem operand_of_leaf {c : Cursor} (h : c.current.token.kind ∉ [.bang, .minus, .lparen])
    (inner inner' : Precedence → Cursor → Outcome Expression) :
    Cursor.operand inner c = Cursor.operand inner' c := by
  simp only [List.mem_cons, List.not_mem_nil, or_false, not_or] at h
  unfold Cursor.operand
  dsimp only
  split <;> simp_all

theorem afterOperand_ne (bound : Precedence) (value : Option Expression) :
    afterOperand bound value ≠ .statement := by
  cases value <;> simp [afterOperand]

theorem runs_inside {n : Nat} (ha : Answers n) {bound inner : Precedence} {frame : Frame}
    {m m' : Machine} (hd : m.depth + n = Cursor.levelLimit)
    (hopen : step { m with control := .operand bound } = m.push frame inner)
    (hframe : activations [frame] = 0)
    (hback : let r := Cursor.expression inner n m.cursor.advance
      step { m.follow r (.back r.value) with frames := frame :: m.frames } = m')
    (hend : Amid m.frames (n + 1) m') :
    Runs (Amid m.frames (n + 1)) { m with control := .operand bound } m' := by
  have hle : m.depth ≤ Cursor.levelLimit := by omega
  let called : Machine := { m with cursor := m.cursor.advance, frames := frame :: m.frames }
  have hcall := (ha.runs inner called hd).mono fun x hx => hx.pop
  rw [hframe] at hcall
  have hstart : Amid m.frames (n + 1) { m with control := .operand bound } :=
    .self rfl hle (by simp)
  exact .head hstart hopen (hcall.trans (.head hcall.last hback (.refl hend)))

theorem runs_unary {n : Nat} (ha : Answers n) (bound : Precedence) {m : Machine}
    (hd : m.depth + n = Cursor.levelLimit)
    (hk : m.cursor.current.token.kind = .bang ∨ m.cursor.current.token.kind = .minus) :
    let o := Cursor.operand (fun bound => Cursor.expression bound n) m.cursor
    Runs (Amid m.frames (n + 1)) { m with control := .operand bound }
      (m.follow o (afterOperand bound o.value)) := by
  intro o
  have hle : m.depth ≤ Cursor.levelLimit := by omega
  have hopen : step { m with control := .operand bound } =
      m.push (.unary bound m.cursor.current.token) .unary := by
    obtain hk | hk := hk <;> simp only [step, openOperand, hk] <;> rfl
  have ho : o = (Cursor.expression .unary n m.cursor.advance).andThen fun right d =>
      .done (.unary m.cursor.current.token m.cursor.current.token.literal.render right) d := by
    obtain hk | hk := hk <;> simp only [o, Cursor.operand, hk]
  rw [Outcome.andThen_done] at ho
  refine runs_inside ha hd hopen rfl ?_ (.self rfl hle (afterOperand_ne _ _))
  rw [ho]
  rfl

theorem runs_group {n : Nat} (ha : Answers n) (bound : Precedence) {m : Machine}
    (hd : m.depth + n = Cursor.levelLimit) (hk : m.cursor.current.token.kind = .lparen) :
    let o := Cursor.operand (fun bound => Cursor.expression bound n) m.cursor
    Runs (Amid m.frames (n + 1)) { m with control := .operand bound }
      (m.follow o (afterOperand bound o.value)) := by
  intro o
  have hle : m.depth ≤ Cursor.levelLimit := by omega
  have hopen : step { m with control := .operand bound } = m.push (.group bound) .lowest := by
    simp only [step, openOperand, hk]
    rfl
  let r := Cursor.expression .lowest n m.cursor.advance
  have ho : o = r.andThen fun e d => (d.expect .rparen).andThen fun _ d => .done e d := by
    simp only [o, Cursor.operand, hk, r]
  refine runs_inside ha hd hopen rfl ?_ (.self rfl hle (afterOperand_ne _ _))
  change step { m.follow r (.back r.value) with frames := .group bound :: m.frames } = _
  cases hv : r.value with
  | none =>
    have hnone : o.value = none := by rw [ho, Outcome.andThen_of_none hv]
    rw [hnone, ho, ← follow_andThen_of_none hv]
    rfl
  | some e =>
    let x := r.cursor.expect .rparen
    have hx : (x.andThen fun _ d => .done e d) = ⟨x.value.map fun _ => e, x.cursor, x.events⟩ :=
      Outcome.andThen_done x fun _ => e
    have hvalue : o.value = x.value.map fun _ => e := by
      rw [ho, Outcome.andThen_of_some hv]
      exact congrArg Outcome.value hx
    rw [hvalue, ho, ← follow_andThen_of_some hv m _ _ (.back (some e))]
    change _ = (m.follow r (.back (some e))).follow (x.andThen fun _ d => .done e d) _
    rw [hx]
    rfl

/-- An operand is read as a call reads the expressions inside it. -/
theorem runs_operand {n : Nat} (ha : Answers n) (bound : Precedence) (m : Machine)
    (hd : m.depth + n = Cursor.levelLimit) :
    let o := Cursor.operand (fun bound => Cursor.expression bound n) m.cursor
    Runs (Amid m.frames (n + 1)) { m with control := .operand bound }
      (m.follow o (afterOperand bound o.value)) := by
  by_cases hleaf : m.cursor.current.token.kind ∉ [.bang, .minus, .lparen]
  · intro o
    have hle : m.depth ≤ Cursor.levelLimit := by omega
    have hstart : Amid m.frames (n + 1) { m with control := .operand bound } :=
      .self rfl hle (by simp)
    have hfirst : step { m with control := .operand bound } =
        m.follow o (afterOperand bound o.value) := by
      have hopen : m.openOperand bound = m.follow o (afterOperand bound o.value) := by
        rw [show o = _ from operand_of_leaf hleaf _ fun _ d => d.tooDeep]
        simp only [List.mem_cons, List.not_mem_nil, or_false, not_or] at hleaf
        unfold openOperand
        dsimp only
        split <;> simp_all
      exact hopen
    exact .head hstart hfirst (.refl (.self rfl hle (afterOperand_ne _ _)))
  · simp only [List.mem_cons, List.not_mem_nil, or_false, not_not] at hleaf
    obtain hk | hk | hk := hleaf
    · exact runs_unary ha bound hd (.inl hk)
    · exact runs_unary ha bound hd (.inr hk)
    · exact runs_group ha bound hd hk

theorem answers_zero : Answers 0 := by
  intro bound m hd frames o
  have hfull : m.depth = Cursor.levelLimit := hd
  have hle : m.depth ≤ Cursor.levelLimit := Nat.le_of_eq hfull
  have hstart : Amid frames 0 { m with frames := frames, control := .enter bound } :=
    .self rfl hle (by simp)
  have ho : o = .after (.expression m.cursor.current.kind bound m.depth) m.cursor.tooDeep := by
    simp only [o, Cursor.expression, hfull]
  have hfirst : step { m with frames := frames, control := .enter bound } =
      { m.follow o (.back o.value) with frames := frames } := by
    rw [ho, ← note_follow]
    exact if_pos (Nat.le_of_eq hfull.symm)
  exact ⟨m.depth, .head hstart hfirst (.refl (.self rfl hle (by simp [follow])))⟩

theorem answers_succ {n : Nat} (ha : Answers n) (hc : Climbs n) : Answers (n + 1) := by
  intro bound m hd frames o
  have hle : m.depth ≤ Cursor.levelLimit := by omega
  have hroom : ¬ Cursor.levelLimit ≤ m.depth := by omega
  have hstart : Amid frames (n + 1) { m with frames := frames, control := .enter bound } :=
    .self rfl hle (by simp)
  let event : Event := .expression m.cursor.current.kind bound m.depth
  let entered : Machine := { m.note event with depth := m.depth + 1, frames := frames }
  have hdepth : entered.depth + n = Cursor.levelLimit := by
    simp only [entered]
    omega
  have hfirst : step { m with frames := frames, control := .enter bound } =
      { entered with control := .operand bound } := if_neg hroom
  let first := Cursor.operand (fun bound => Cursor.expression bound n) m.cursor
  have ho : o = .after event (first.andThen (Cursor.climb bound n)) := by
    have hlevel : Cursor.levelLimit - (n + 1) = m.depth := by omega
    simp only [o, Cursor.expression, hlevel, event, first]
  have hoperand : Runs (Amid frames (n + 1)) { entered with control := .operand bound }
      (entered.follow first (afterOperand bound first.value)) :=
    runs_operand ha bound entered hdepth
  cases hv : first.value with
  | none =>
    have hnone : o.value = none := by
      simp only [ho, Outcome.after, Outcome.andThen_of_none hv]
    refine ⟨m.depth + 1, .head hstart hfirst ?_⟩
    rw [hnone, ho, ← note_follow, ← follow_andThen_of_none hv]
    rw [hv] at hoperand
    exact hoperand
  | some left =>
    have hvalue : o.value = (Cursor.climb bound n left first.cursor).value := by
      simp only [ho, Outcome.after, Outcome.andThen_of_some hv]
    obtain ⟨depth, hclimb⟩ := hc bound left (entered.follow first (.back none)) hdepth
    refine ⟨depth, .head hstart hfirst (hoperand.trans ?_)⟩
    rw [hvalue, ho, ← note_follow, ← follow_andThen_of_some hv _ _ _ (.back none), hv]
    exact hclimb.mono fun x hx => hx.mono (Nat.le_succ n)

theorem answers_climbs (n : Nat) : Answers n ∧ Climbs n := by
  induction n with
  | zero => exact ⟨answers_zero, climbs_zero⟩
  | succ n ih => exact ⟨answers_succ ih.1 ih.2, climbs_succ ih.1 ih.2⟩

end Machine

end MonkeyFrontend
