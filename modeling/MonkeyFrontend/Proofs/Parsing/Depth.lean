import Mathlib.Data.Nat.Choose.Basic
import MonkeyFrontend.Proofs.Parsing.Height
import MonkeyFrontend.Proofs.Parsing.Machine

namespace MonkeyFrontend

namespace Outcome

variable {α β γ : Type}

theorem value_andThen (o : Outcome α) (next : α → Cursor → Outcome β) :
    (o.andThen next).value = o.value.bind fun a => (next a o.cursor).value := by
  cases hv : o.value with
  | none =>
    rw [andThen_of_none hv]
    rfl
  | some a =>
    rw [andThen_of_some hv]
    rfl

theorem andThen_assoc (o : Outcome α) (next : α → Cursor → Outcome β)
    (last : β → Cursor → Outcome γ) :
    (o.andThen next).andThen last = o.andThen fun a d => (next a d).andThen last := by
  cases hv : o.value with
  | none => simp only [andThen, hv]
  | some a =>
    cases hw : (next a o.cursor).value with
    | none => simp only [andThen, hv, hw]
    | some b => simp only [andThen, hv, hw, List.append_assoc]

end Outcome

namespace Machine

def Grounded (m : Machine) : Prop := m.control = .statement → m.depth = 0

theorem Amid.grounded {frames : List Frame} {limit : Nat} {m : Machine} (h : Amid frames limit m) :
    m.Grounded :=
  fun hs => absurd hs h.control

theorem runs_value (frame : Frame) (make : Expression → Statement)
    (hframe : ∀ (x : Machine) (value : Option Expression),
      { x with frames := frame :: x.frames }.resume value = x.close make value)
    (m : Machine) (hd : m.depth = 0) :
    let o := m.cursor.wholeExpression.andThen fun value d => .done (make value) d.overSemicolon
    Runs Grounded { m with frames := frame :: m.frames, control := .call .lowest }
      (m.follow o (.verdict o.value)) := by
  intro o
  let r := m.cursor.wholeExpression
  have hlevels : m.depth + Cursor.levelLimit = Cursor.levelLimit := by rw [hd, Nat.zero_add]
  have hcall := (answers_climbs Cursor.levelLimit).1.runs .lowest
    { m with frames := frame :: m.frames } hlevels
  have hback : step { m.follow r (.back r.value) with frames := frame :: m.frames } =
      m.follow o (.verdict o.value) := by
    refine (hframe (m.follow r (.back r.value)) r.value).trans ?_
    cases hv : r.value with
    | none =>
      have ho : o.value = none := by rw [Outcome.value_andThen, hv]; rfl
      rw [ho, ← follow_andThen_of_none hv]
      rfl
    | some value =>
      have ho : o.value = some (make value) := by rw [Outcome.value_andThen, hv]; rfl
      rw [ho, ← follow_andThen_of_some hv m _ _ (.back r.value), follow_done]
      rfl
  have hruns : Runs Grounded _ _ := hcall.mono fun x hx => hx.grounded
  exact hruns.trans (.head hruns.last hback (.refl (by simp [Grounded, follow])))

theorem runs_openLet (m : Machine) (hd : m.depth = 0) :
    Runs Grounded m.openLet
      (m.follow m.cursor.letBinding (.verdict m.cursor.letBinding.value)) := by
  let header := (m.cursor.expect .identifier).andThen fun name d =>
    (d.expect .assign).andThen fun _ d => .done name d
  let make (name : Token) (value : Expression) : Statement :=
    .letBinding m.cursor.current.token ⟨name, name.literal⟩ (some value)
  let rest (name : Token) (d : Cursor) : Outcome Statement :=
    d.advance.wholeExpression.andThen fun value d => .done (make name value) d.overSemicolon
  have ho : m.cursor.letBinding = header.andThen rest := by
    rw [Outcome.andThen_assoc]
    simp only [Outcome.andThen_assoc]
    rfl
  rw [ho]
  cases hv : header.value with
  | none =>
    have hopen : m.openLet = m.follow header (.verdict none) := by
      unfold openLet
      dsimp only
      rw [hv]
    rw [hopen, Outcome.value_andThen, hv, follow_andThen_of_none hv]
    exact .refl (by simp [Grounded, follow])
  | some name =>
    have hopen : m.openLet = (m.follow header m.control).push
        (.letBinding m.cursor.current.token name) .lowest := by
      unfold openLet
      dsimp only
      rw [hv]
    rw [hopen, Outcome.value_andThen, hv, ← follow_andThen_of_some hv m _ _ m.control]
    exact runs_value (.letBinding m.cursor.current.token name) (make name) (fun x value => rfl)
      { m.follow header m.control with cursor := header.cursor.advance } hd

theorem runs_openReturn (m : Machine) (hd : m.depth = 0)
    (hk : m.cursor.current.kind = .returnKeyword) :
    let o := m.cursor.returnValue
    Runs Grounded m.openStatement (m.follow o (.verdict o.value)) := by
  let token := m.cursor.current.token
  rw [Cursor.returnValue]
  split
  · rename_i hends
    have h : m.openStatement = { m with
        cursor := m.cursor.overSemicolon
        control := .verdict (some (.returnValue token none)) } := by
      simp only [openStatement, hk, if_pos hends, token]
    rw [h]
    simp only [follow_done]
    exact .refl (by simp [Grounded])
  · rename_i hends
    have h : m.openStatement = m.push (.returnValue token) .lowest := by
      simp only [openStatement, hk, if_neg hends, token]
    rw [h]
    exact runs_value (.returnValue token) (fun value => .returnValue token (some value))
      (fun x value => rfl) { m with cursor := m.cursor.advance } hd

theorem runs_statement (m : Machine) (hd : m.depth = 0) :
    let o := m.cursor.statement
    Runs Grounded { m with control := .statement } (m.follow o (.verdict o.value)) := by
  let token := m.cursor.current.token
  let noted := m.note (.statement m.cursor.current.kind)
  have hopen : Runs Grounded noted.openStatement
      (m.follow m.cursor.statement (.verdict m.cursor.statement.value)) := by
    rw [Cursor.statement, ← note_follow]
    simp only [Outcome.after]
    split
    · rename_i hk
      have h : noted.openStatement = noted.openLet := by
        simp only [openStatement, noted, note, hk]
      exact h ▸ runs_openLet noted hd
    · rename_i hk
      exact runs_openReturn noted hd hk
    · rename_i hk
      have h : noted.openStatement = { noted with
          control := .verdict (some (.expression token none)) } := by
        simp only [openStatement, noted, note, hk, token]
      rw [h, follow_done]
      exact .refl (by simp [Grounded])
    · rename_i hlet hreturn hsemicolon
      have h : noted.openStatement = { noted with
          frames := .expression token :: m.frames, control := .call .lowest } := by
        unfold openStatement
        split <;> simp_all [noted, note, token]
      rw [h]
      exact runs_value (.expression token) (fun value => .expression token (some value))
        (fun x value => rfl) noted hd
  exact .step (fun _ => hd) hopen

theorem drawn_follow {α : Type} (m : Machine) (o : Outcome α) (control : Control) :
    (m.follow o control).drawn = m.drawn + o.diagnostics.length := by
  simp [drawn, follow, Outcome.diagnostics]

def past (m : Machine) (segment : Segment) : Machine :=
  { m with
    cursor := segment.next
    log := m.log ++ segment.events
    statements := m.statements ++ segment.statement.toList
    control := .program }

/-- A statement is kept or dropped as its segment says: the machine counts the diagnostics drawn
since it began the statement. -/
theorem step_verdict (m : Machine) :
    let o := m.cursor.statement
    step { m.follow o (.verdict o.value) with frames := .program m.drawn :: m.frames } =
      m.past m.cursor.segment := by
  intro o
  have hdrawn : drawn { m.follow o (.verdict o.value) with
      frames := .program m.drawn :: m.frames } = m.drawn + o.diagnostics.length :=
    drawn_follow m o (.verdict o.value)
  cases hv : o.value with
  | none =>
    rw [hv] at hdrawn
    rw [Cursor.segment_of_dropped (.inl hv)]
    simp only [step, settle, follow, past] at hdrawn ⊢
    simp [hdrawn, o]
  | some s =>
    rw [hv] at hdrawn
    by_cases hd : o.diagnostics = []
    · rw [Cursor.segment_of_kept hv hd]
      simp only [step, settle, follow, past] at hdrawn ⊢
      simp [hdrawn, hd, o]
    · rw [Cursor.segment_of_dropped (.inr hd)]
      simp only [step, settle, follow, past] at hdrawn ⊢
      simp [hdrawn, hd, o]

theorem runs_segment (m : Machine) (hd : m.depth = 0) (h : m.cursor.current.isEof = false) :
    Runs Grounded { m with control := .program } (m.past m.cursor.segment) := by
  let framed : Machine := { m with frames := .program m.drawn :: m.frames }
  have hfirst : step { m with control := .program } = { framed with control := .statement } := by
    simp only [step, h]
    rfl
  have hr : Runs Grounded { framed with control := .statement } _ := runs_statement framed hd
  refine .head (by simp [Grounded]) hfirst (hr.trans (.head hr.last (step_verdict m) ?_))
  exact .refl (by simp [Grounded, past])

theorem runs_program (m : Machine) (hd : m.depth = 0) :
    let segments := m.cursor.segments
    Runs Grounded { m with control := .program }
      { m with
        cursor := (segments.getLast?.map Segment.next).getD m.cursor
        log := m.log ++ segments.flatMap Segment.events
        statements := m.statements ++ segments.filterMap Segment.statement
        control := .halt } := by
  induction hn : m.cursor.rest.length using Nat.strongRecOn generalizing m with
  | ind n ih =>
    cases h : m.cursor.current.isEof with
    | true =>
      rw [Cursor.segments_of_eof h]
      have hlast : step { m with control := .program } = { m with control := .halt } := by
        simp only [step, h]
        rfl
      simp only [List.getLast?_nil, List.flatMap_nil, List.filterMap_nil, List.append_nil]
      exact .head (by simp [Grounded]) hlast (.refl (by simp [Grounded]))
    | false =>
      have hlt : m.cursor.segment.next.rest.length < n := hn ▸ Cursor.segment_length_lt h
      let segment := m.cursor.segment
      let rest := segment.next.segments
      have hcursor : ((segment :: rest).getLast?.map Segment.next).getD m.cursor =
          (rest.getLast?.map Segment.next).getD segment.next := by
        cases hl : rest.getLast? <;> simp [List.getLast?_cons, hl]
      have hlog : m.log ++ (segment :: rest).flatMap Segment.events =
          m.log ++ segment.events ++ rest.flatMap Segment.events := by
        rw [List.flatMap_cons, List.append_assoc]
      have hstatements : m.statements ++ (segment :: rest).filterMap Segment.statement =
          m.statements ++ segment.statement.toList ++ rest.filterMap Segment.statement := by
        cases hs : segment.statement <;> simp [hs]
      rw [Cursor.segments_of_not_eof h]
      dsimp only
      rw [hcursor, hlog, hstatements]
      exact (runs_segment m hd h).trans (ih _ hlt (m.past segment) hd rfl)

theorem iterate_halt {m : Machine} (h : m.control = .halt) (k : Nat) : step^[k] m = m := by
  have hfix : step m = m := by simp only [step, h]
  exact Function.iterate_fixed hfix k

/-- The machine comes to what the reader of programs comes to. -/
theorem runs_ofParser (parser : Parser) :
    Runs Grounded (ofParser parser)
      ⟨parser.read.2.cursor, 0, parser.read.2.log, parser.read.1.statements, [], .halt⟩ :=
  runs_program (ofParser parser) rfl

theorem grounded_iterate (parser : Parser) (j : Nat) : (step^[j] (ofParser parser)).Grounded := by
  obtain ⟨k, hk, hall⟩ := (runs_ofParser parser).exists_iterate
  obtain hj | hj := Nat.le_total j k
  · exact hall j hj
  · have hhalt : step^[j] (ofParser parser) = step^[k] (ofParser parser) := by
      rw [← Nat.sub_add_cancel hj, Function.iterate_add_apply, hk, iterate_halt rfl]
    exact hhalt ▸ hall k (Nat.le_refl k)

end Machine

namespace Cursor

theorem height_operand {inner : Precedence → Cursor → Outcome Expression} {c : Cursor}
    {e : Expression} (h : (operand inner c).value = some e) :
    e.height = 1 ∨ ∃ bound e', (inner bound c.advance).value = some e' ∧
      e.height ≤ 1 + e'.height := by
  unfold operand at h
  dsimp only at h
  split at h
  · exact .inl (Option.some.inj h ▸ rfl)
  · refine .inl ?_
    unfold integer at h
    dsimp only at h
    split at h <;> exact Option.some.inj h ▸ rfl
  · exact .inl (Option.some.inj h ▸ rfl)
  · exact .inl (Option.some.inj h ▸ rfl)
  · rw [Outcome.value_andThen, Option.bind_eq_some_iff] at h
    obtain ⟨right, hright, he⟩ := h
    obtain rfl := Option.some.inj he
    exact .inr ⟨_, right, hright, Nat.le_refl _⟩
  · rw [Outcome.value_andThen, Option.bind_eq_some_iff] at h
    obtain ⟨right, hright, he⟩ := h
    obtain rfl := Option.some.inj he
    exact .inr ⟨_, right, hright, Nat.le_refl _⟩
  · rw [Outcome.value_andThen, Option.bind_eq_some_iff] at h
    obtain ⟨e', hinner, he⟩ := h
    rw [Outcome.value_andThen, Option.bind_eq_some_iff] at he
    obtain ⟨-, -, he⟩ := he
    obtain rfl := Option.some.inj he
    exact .inr ⟨_, e', hinner, Nat.le_add_left _ _⟩
  · cases h

theorem value_expression_zero (bound : Precedence) (c : Cursor) :
    (expression bound 0 c).value = none := rfl

/-- With `n` levels left, the operators after an operand make its tree higher by less than `n`,
provided it is as high already as the operands on the right can be. -/
theorem height_expression_climb (n : Nat) :
    (∀ (bound : Precedence) (c : Cursor) (e : Expression),
      (expression bound n c).value = some e → e.height ≤ 1 + n.choose 2) ∧
    ∀ (bound : Precedence) (left : Expression) (c : Cursor) (e : Expression) (height : Nat),
      left.height ≤ height → 1 + (n - 1).choose 2 ≤ height →
      (climb bound n left c).value = some e → e.height ≤ height + (n - 1) := by
  induction n with
  | zero =>
    refine ⟨fun bound c e he => ?_, fun bound left c e height hleft _ he => ?_⟩
    · rw [value_expression_zero] at he
      cases he
    · rw [climb] at he
      split at he
      · cases he
      · exact Option.some.inj he ▸ hleft
  | succ n ih =>
    obtain ⟨hexpression, hclimb⟩ := ih
    have hchoose : (n - 1).choose 2 ≤ n.choose 2 := Nat.choose_le_choose 2 (Nat.sub_le n 1)
    have hpos {bound : Precedence} {c : Cursor} {e : Expression}
        (he : (expression bound n c).value = some e) : 0 < n := by
      cases n with
      | zero => cases he
      | succ n => exact Nat.succ_pos n
    refine ⟨fun bound c e he => ?_, fun bound left c e height hleft hheight he => ?_⟩
    · have hsucc : (n + 1).choose 2 = n + n.choose 2 := by
        rw [Nat.choose_succ_succ', Nat.choose_one_right]
      rw [expression] at he
      simp only [Outcome.after, Outcome.value_andThen, Option.bind_eq_some_iff] at he
      obtain ⟨left, hleft, he⟩ := he
      obtain hleaf | ⟨_, e', hinner, hle⟩ := height_operand hleft
      · have := hclimb bound left _ e (1 + n.choose 2) (by omega) (by omega) he
        omega
      · -- the expression inside took a level, so one operator less can follow
        have hlevel := hpos hinner
        have hinside := hexpression _ _ e' hinner
        have := hclimb bound left _ e (2 + n.choose 2) (by omega) (by omega) he
        omega
    · rw [Nat.add_sub_cancel] at hheight ⊢
      rw [climb] at he
      split at he
      · rw [Outcome.value_andThen, Option.bind_eq_some_iff] at he
        obtain ⟨right, hright, he⟩ := he
        have hlevel := hpos hright
        have hheight' := hexpression _ _ right hright
        have hbinary : (Expression.binary c.peek.token c.peek.token.literal.render left
            right).height ≤ height + 1 := by
          simp only [Expression.height]
          omega
        have := hclimb bound _ _ e (height + 1) hbinary (by omega) he
        omega
      · obtain rfl := Option.some.inj he
        omega

end Cursor

namespace Machine

/-- All the way from a call to its return, the frame that gives the counter back lies on the
stack. -/
theorem exists_iterate_call (m : Machine) (bound : Precedence) (hd : m.depth ≤ Cursor.levelLimit) :
    let call : Machine := { m with control := .call bound }
    let n := Cursor.levelLimit - m.depth
    let o := Cursor.expression bound n m.cursor
    ∃ k, step^[k] call = m.follow o (.back o.value) ∧
      ∀ j, 0 < j → j < k → Amid (.restore m.depth :: m.frames) n (step^[j] call) := by
  intro call n o
  obtain ⟨depth, hr⟩ := (answers_climbs n).1 bound m (Nat.add_sub_cancel' hd)
  obtain ⟨k, hk, hall⟩ := hr.exists_iterate
  -- the first step lays the frame on the stack, and the last takes it off
  refine ⟨k + 2, ?_, fun j hj hjk => ?_⟩
  · rw [Function.iterate_succ_apply, Function.iterate_succ_apply']
    exact congrArg step hk
  · obtain ⟨j, rfl⟩ : ∃ i, j = i + 1 := ⟨j - 1, by omega⟩
    exact hall j (by omega)

/-- A call gives the counter back as it was, whether it comes to a value or not. On the way the
counter keeps to the limit, so no more calls are nested than it has levels left, and the tree that
comes back is no higher than that allows. So every statement is begun with all levels left. -/
theorem depth_discipline :
    (∀ (m : Machine) (bound : Precedence), m.depth ≤ 256 →
      let call : Machine := { m with control := .call bound }
      let o := Cursor.expression bound (Cursor.levelLimit - m.depth) m.cursor
      (∃ k, step^[k] call = m.follow o (.back o.value) ∧
        (step^[k] call).depth = m.depth ∧
        (∀ j ≤ k, (step^[j] call).depth ≤ 256) ∧
        ∀ j, 0 < j → j < k → ∃ above,
          (step^[j] call).frames = above ++ .restore m.depth :: m.frames ∧
            1 + activations above ≤ 257 - m.depth) ∧
      (m.depth = 256 → o.value = none) ∧
      ∀ e, o.value = some e → e.height ≤ 1 + (256 - m.depth) * (255 - m.depth) / 2) ∧
    ∀ parser : Parser,
      (∃ k, step^[k] (ofParser parser) =
        ⟨parser.read.2.cursor, 0, parser.read.2.log, parser.read.1.statements, [], .halt⟩) ∧
      ∀ k, (step^[k] (ofParser parser)).control = .statement →
        (step^[k] (ofParser parser)).depth = 0 := by
  refine ⟨fun m bound hd => ⟨?_, fun hfull => ?_, fun e he => ?_⟩, fun parser => ⟨?_, ?_⟩⟩
  · obtain ⟨k, hk, hamid⟩ := exists_iterate_call m bound hd
    refine ⟨k, hk, by rw [hk]; rfl, fun j hj => ?_, fun j hpos hlt => ?_⟩
    · obtain rfl | hpos := Nat.eq_zero_or_pos j
      · exact hd
      · obtain rfl | hlt := Nat.eq_or_lt_of_le hj
        · exact hk ▸ hd
        · exact (hamid j hpos hlt).depth
    · obtain ⟨above, hframes, hle⟩ := (hamid j hpos hlt).nested
      refine ⟨above, hframes, ?_⟩
      rw [Cursor.levelLimit] at hle
      omega
  · rw [hfull]
    exact Cursor.value_expression_zero bound m.cursor
  · have hheight := (Cursor.height_expression_climb (Cursor.levelLimit - m.depth)).1 bound _ e he
    rw [Nat.choose_two_right, Nat.sub_right_comm] at hheight
    exact hheight
  · obtain ⟨k, hk, -⟩ := (runs_ofParser parser).exists_iterate
    exact ⟨k, hk⟩
  · exact grounded_iterate parser

theorem depth_discipline_negated :
    let minus : Lexeme := ⟨⟨1, 1⟩, ⟨.minus, .text "-"⟩⟩
    let name : Lexeme := ⟨⟨1, 2⟩, ⟨.identifier, .text "a"⟩⟩
    let m : Machine := ⟨.ofLexemes [minus, name], 254, [], [], [], .halt⟩
    let o := Cursor.expression .lowest 2 m.cursor
    let e : Expression := .unary minus.token "-" (.identifier ⟨name.token, name.token.literal⟩)
    m.depth ≤ 256 ∧ o.value = some e ∧
      (∃ k, (step^[k] { m with control := .call .lowest }).depth = 254) ∧
      e.height ≤ 1 + (256 - 254) * (255 - 254) / 2 := by
  intro minus name m o e
  have hvalue : o.value = some e := by decide +kernel
  obtain ⟨⟨k, -, hdepth, -⟩, -, hheight⟩ := depth_discipline.1 m .lowest (by decide)
  exact ⟨by decide, hvalue, ⟨k, hdepth⟩, hheight e hvalue⟩

end Machine

end MonkeyFrontend
