import MonkeyFrontend.Proofs.Tree.FirstGap

namespace MonkeyFrontend

/-- From one tree to another, fields that were never filled have been filled, with anything and at
any depth. Nothing that was filled has changed, and what was not may be left so. -/
inductive Expression.FillsTo : Expression → Expression → Prop where
  | same (e : Expression) : FillsTo e e
  | value {token : Token} (value : Int64) :
      FillsTo (.integer token none) (.integer token (some value))
  | unary {token : Token} {operator : String} {right right' : Expression}
      (hr : FillsTo right right') :
      FillsTo (.unary token operator right) (.unary token operator right')
  | unaryOpen {token : Token} {operator : String} (right : Expression) :
      FillsTo (.unaryOpen token operator) (.unary token operator right)
  | binary {token : Token} {operator : String} {left left' right right' : Expression}
      (hl : FillsTo left left') (hr : FillsTo right right') :
      FillsTo (.binary token operator left right) (.binary token operator left' right')
  | binaryLeft {token : Token} {operator : String} {left left' : Expression}
      (hl : FillsTo left left') :
      FillsTo (.binaryOpen token operator left) (.binaryOpen token operator left')
  | binaryOpen {token : Token} {operator : String} {left left' : Expression}
      (hl : FillsTo left left') (right : Expression) :
      FillsTo (.binaryOpen token operator left) (.binary token operator left' right)

inductive Statement.FieldFillsTo : Option Expression → Option Expression → Prop where
  | unset (value : Option Expression) : FieldFillsTo none value
  | set {e f : Expression} (h : e.FillsTo f) : FieldFillsTo (some e) (some f)

inductive Statement.FillsTo : Statement → Statement → Prop where
  | letBinding {token : Token} {name : Identifier} {value value' : Option Expression}
      (h : FieldFillsTo value value') :
      FillsTo (.letBinding token name value) (.letBinding token name value')
  | returnValue {token : Token} {value value' : Option Expression} (h : FieldFillsTo value value') :
      FillsTo (.returnValue token value) (.returnValue token value')
  | expression {token : Token} {value value' : Option Expression} (h : FieldFillsTo value value') :
      FillsTo (.expression token value) (.expression token value')

namespace Written

/-- One writing is the other, or a gap has stopped it on the way there. -/
inductive Toward : Written → Written → Prop where
  | same (written : Written) : Toward written written
  | stopped {buffer : String} {gap : Gap} {other : Written}
      (h : ∃ more, other.buffer = buffer ++ more) : Toward ⟨buffer, some gap⟩ other

def OnlyAdds (next : String → Written) : Prop :=
  ∀ buffer, ∃ more, (next buffer).buffer = buffer ++ more

namespace OnlyAdds

variable {first next : String → Written}

theorem full (text : String) : OnlyAdds fun buffer => .full (buffer ++ text) :=
  fun _ => ⟨text, rfl⟩

theorem behind (h : OnlyAdds next) (text : String) :
    OnlyAdds fun buffer => next (buffer ++ text) := by
  intro buffer
  obtain ⟨more, hmore⟩ := h (buffer ++ text)
  exact ⟨text ++ more, hmore.trans (String.append_assoc ..)⟩

theorem buffer_andThen (h : OnlyAdds next) (written : Written) :
    ∃ more, (written.andThen next).buffer = written.buffer ++ more := by
  obtain ⟨buffer, gap⟩ := written
  cases gap with
  | none => exact h buffer
  | some gap => exact ⟨"", String.append_empty.symm⟩

theorem andThen (h : OnlyAdds first) (hn : OnlyAdds next) :
    OnlyAdds fun buffer => (first buffer).andThen next := by
  intro buffer
  obtain ⟨more, hmore⟩ := h buffer
  obtain ⟨later, hlater⟩ := hn.buffer_andThen (first buffer)
  refine ⟨more ++ later, ?_⟩
  rw [hlater, hmore, String.append_assoc]

end OnlyAdds

/-- A writing that was stopped stays where it is, and the other one only goes further. -/
theorem Toward.andThen {written other : Written} {next next' : String → Written}
    (h : written.Toward other) (hn : ∀ buffer, (next buffer).Toward (next' buffer))
    (ha : OnlyAdds next') : (written.andThen next).Toward (other.andThen next') := by
  cases h with
  | same =>
    obtain ⟨buffer, gap⟩ := written
    cases gap with
    | none => exact hn buffer
    | some gap => exact .same _
  | @stopped buffer gap other h =>
    obtain ⟨more, hmore⟩ := h
    obtain ⟨later, hlater⟩ := ha.buffer_andThen other
    refine .stopped ⟨more ++ later, ?_⟩
    rw [hlater, hmore, String.append_assoc]

end Written

namespace Expression

theorem writeTo_eq_behind (e : Expression) (buffer : String) :
    e.writeTo buffer = (e.writeTo "").behind buffer := by
  rw [← e.writeTo_append, String.append_empty]

theorem onlyAdds_writeTo (e : Expression) : Written.OnlyAdds e.writeTo := by
  intro buffer
  refine ⟨(e.writeTo "").buffer, ?_⟩
  rw [writeTo_eq_behind]
  rfl

/-- Filling a field lets the writing go on where it has stopped, and changes nothing before. -/
theorem FillsTo.toward {e f : Expression} (h : e.FillsTo f) (buffer : String) :
    (e.writeTo buffer).Toward (f.writeTo buffer) := by
  have hclose := Written.OnlyAdds.full ")"
  induction h generalizing buffer with
  | same e => exact .same _
  | value value => exact .stopped ⟨Numeral.write value, rfl⟩
  | unary hr ih =>
    rw [writeTo, writeTo]
    exact (ih _).andThen (fun _ => .same _) hclose
  | unaryOpen right => exact .stopped (onlyAdds_writeTo _ buffer)
  | @binary token operator left left' right right' hl hr ihl ihr =>
    rw [writeTo, writeTo]
    refine (ihl _).andThen (fun buffer => (ihr _).andThen (fun _ => .same _) hclose) ?_
    exact (((right'.onlyAdds_writeTo.behind " ").behind operator).behind " ").andThen hclose
  | binaryLeft hl ih => exact .same _
  | binaryOpen hl right ih => exact .stopped (onlyAdds_writeTo _ buffer)

theorem exists_fillsTo (e : Expression) :
    ∃ f, e.FillsTo f ∧ ∀ buffer, (f.writeTo buffer).gap = none := by
  induction e with
  | identifier name => exact ⟨_, .same _, fun _ => rfl⟩
  | integer token value =>
    cases value with
    | none => exact ⟨_, .value 0, fun _ => rfl⟩
    | some value => exact ⟨_, .same _, fun _ => rfl⟩
  | boolean token value => exact ⟨_, .same _, fun _ => rfl⟩
  | unary token operator right ih =>
    obtain ⟨right', hr, hgap⟩ := ih
    refine ⟨_, .unary hr, fun buffer => ?_⟩
    rw [writeTo, Written.gap_andThen, hgap]
    rfl
  | unaryOpen token operator =>
    exact ⟨_, .unaryOpen (.boolean token true), fun _ => rfl⟩
  | binary token operator left right ihl ihr =>
    obtain ⟨left', hl, hgapl⟩ := ihl
    obtain ⟨right', hr, hgapr⟩ := ihr
    refine ⟨_, .binary hl hr, fun buffer => ?_⟩
    rw [writeTo, Written.gap_andThen, hgapl, Written.gap_andThen, hgapr]
    rfl
  | binaryOpen token operator left ih =>
    obtain ⟨left', hl, hgap⟩ := ih
    refine ⟨_, .binaryOpen hl (.boolean token true), fun buffer => ?_⟩
    rw [writeTo, Written.gap_andThen, hgap]
    rfl

end Expression

namespace Statement

theorem writeTo_eq_behind (s : Statement) (buffer : String) :
    s.writeTo buffer = (s.writeTo "").behind buffer := by
  rw [← s.writeTo_append, String.append_empty]

theorem onlyAdds_writeTo (s : Statement) : Written.OnlyAdds s.writeTo := by
  intro buffer
  refine ⟨(s.writeTo "").buffer, ?_⟩
  rw [writeTo_eq_behind]
  rfl

/-- Only a gap makes a difference here: a return that is written without its value ends where it
would go on with one. -/
theorem FillsTo.toward {s t : Statement} (h : s.FillsTo t) {buffer : String} {gap : Gap}
    (hg : (s.writeTo buffer).gap = some gap) : (s.writeTo buffer).Toward (t.writeTo buffer) := by
  have hclose := Written.OnlyAdds.full ";"
  cases h with
  | letBinding h =>
    cases h with
    | unset value => exact .stopped (onlyAdds_writeTo _ buffer)
    | set h =>
      rw [writeTo, writeTo]
      exact (h.toward _).andThen (fun _ => .same _) hclose
  | returnValue h =>
    cases h with
    | unset value => cases hg
    | set h =>
      rw [writeTo, writeTo]
      exact (h.toward _).andThen (fun _ => .same _) hclose
  | expression h =>
    cases h with
    | unset value => cases hg
    | set h => exact h.toward buffer

theorem exists_fillsTo (s : Statement) :
    ∃ t, s.FillsTo t ∧ ∀ buffer, (t.writeTo buffer).gap = none := by
  have hfield (value : Option Expression) : ∃ e, FieldFillsTo value (some e) ∧
      ∀ buffer, (e.writeTo buffer).gap = none := by
    cases value with
    | none => exact ⟨.boolean .eof true, .unset _, fun _ => rfl⟩
    | some e =>
      obtain ⟨f, h, hgap⟩ := e.exists_fillsTo
      exact ⟨f, .set h, hgap⟩
  cases s with
  | letBinding token name value =>
    obtain ⟨e, h, hgap⟩ := hfield value
    refine ⟨_, .letBinding h, fun buffer => ?_⟩
    rw [writeTo, Written.gap_andThen, hgap]
    rfl
  | returnValue token value =>
    obtain ⟨e, h, hgap⟩ := hfield value
    refine ⟨_, .returnValue h, fun buffer => ?_⟩
    rw [writeTo, Written.gap_andThen, hgap]
    rfl
  | expression token value =>
    obtain ⟨e, h, hgap⟩ := hfield value
    exact ⟨_, .expression h, hgap⟩

end Statement

/-- Writing adds the same to every buffer, with the same result. Without a gap this is the text
itself. With one it is the start of every completed text, and there are such texts. -/
def Appends (writeTo : String → Written) (render : Except Gap String)
    (completed : String → Prop) : Prop :=
  ∃ out gap, (∀ buffer, writeTo buffer = ⟨buffer ++ out, gap⟩) ∧
    (gap = none → render = .ok out) ∧
    ∀ found, gap = some found → render = .error found ∧ (∃ text, completed text) ∧
      ∀ text, completed text → ∃ more, text = out ++ more

namespace Written

theorem text_eq_ok_iff {written : Written} {text : String} :
    written.text = .ok text ↔ written = .full text := by
  obtain ⟨buffer, gap⟩ := written
  cases gap <;> simp [Written.text, full]

theorem Toward.exists_more {written other : Written} {gap : Gap} (h : written.Toward other)
    (hg : written.gap = some gap) : ∃ more, other.buffer = written.buffer ++ more := by
  cases h with
  | same => exact ⟨"", String.append_empty.symm⟩
  | stopped h => exact h

theorem appends {writeTo : String → Written} {completed : String → Prop}
    (hb : ∀ buffer, writeTo buffer = (writeTo "").behind buffer)
    (he : ∃ text, completed text)
    (hc : ∀ gap text, (writeTo "").gap = some gap → completed text →
      ∃ other, (writeTo "").Toward other ∧ other.text = .ok text) :
    Appends writeTo (writeTo "").text completed := by
  refine ⟨(writeTo "").buffer, (writeTo "").gap, hb, fun hg => ?_, fun found hg => ?_⟩
  · simp only [text, hg]
  · refine ⟨by simp only [text, hg], he, fun text ht => ?_⟩
    obtain ⟨other, htoward, hother⟩ := hc found text hg ht
    have hmore := htoward.exists_more hg
    rwa [text_eq_ok_iff.mp hother] at hmore

end Written

/-- Writing only appends, and what it has appended when a gap stops it is the start of whatever the
tree can be completed to. -/
theorem writeTo_appends :
    (∀ e : Expression, Appends e.writeTo e.render fun text =>
      ∃ f, e.FillsTo f ∧ f.render = .ok text) ∧
    ∀ s : Statement, Appends s.writeTo s.render fun text =>
      ∃ t, s.FillsTo t ∧ t.render = .ok text := by
  constructor
  · intro e
    apply Written.appends e.writeTo_eq_behind
    · obtain ⟨f, h, hgap⟩ := e.exists_fillsTo
      exact ⟨(f.writeTo "").buffer, f, h, by simp only [Expression.render, Written.text, hgap]⟩
    · rintro gap text - ⟨f, h, ht⟩
      exact ⟨f.writeTo "", h.toward "", ht⟩
  · intro s
    apply Written.appends s.writeTo_eq_behind
    · obtain ⟨t, h, hgap⟩ := s.exists_fillsTo
      exact ⟨(t.writeTo "").buffer, t, h, by simp only [Statement.render, Written.text, hgap]⟩
    · rintro gap text hg ⟨t, h, ht⟩
      exact ⟨t.writeTo "", h.toward hg, ht⟩

/-- The right operand of the sum has its own gap, behind which nothing is written. -/
example :
    let one : Expression := .integer ⟨.integer, .text "1"⟩ (some 1)
    (Expression.binary ⟨.plus, .text "+"⟩ "+" one (.unary ⟨.bang, .text "!"⟩ "!"
      (.unaryOpen ⟨.minus, .text "-"⟩ "-"))).writeTo "> " =
      ⟨"> (1 + (!", some (.missing .unaryExpression "right")⟩ := by
  decide +kernel

end MonkeyFrontend
