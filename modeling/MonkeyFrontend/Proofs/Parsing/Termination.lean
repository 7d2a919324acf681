import MonkeyFrontend.Proofs.Parsing.Depth

namespace MonkeyFrontend

namespace Cursor

theorem Reaches.length_le {c d : Cursor} (h : c.Reaches d) : d.rest.length ≤ c.rest.length :=
  h.rest.length_le

theorem length_advance (c : Cursor) : c.advance.rest.length = c.rest.length - 1 :=
  List.length_tail

theorem length_pos_of_not_eof {c : Cursor} (h : c.current.isEof = false) : 0 < c.rest.length :=
  List.length_pos_iff.mpr (rest_ne_nil_of_not_eof h)

/-- Moving to the end of a statement is a loop that goes on as long as the current lexeme is none.
It comes to an end, at the latest when all lexemes are used up. -/
theorem exists_iterate_recover (c : Cursor) :
    ∃ k ≤ c.rest.length, advance^[k] c = c.recover ∧
      endsStatement c.recover.current = true ∧
      ∀ j < k, endsStatement (advance^[j] c).current = false := by
  obtain ⟨rest, finish⟩ := c
  induction rest with
  | nil => exact ⟨0, Nat.le_refl 0, rfl, rfl, fun j hj => absurd hj (Nat.not_lt_zero j)⟩
  | cons lexeme rest ih =>
    cases hends : endsStatement lexeme with
    | true =>
      have hrecover : (Cursor.mk (lexeme :: rest) finish).recover = ⟨lexeme :: rest, finish⟩ := by
        simp [recover, hends]
      rw [hrecover]
      exact ⟨0, Nat.zero_le _, rfl, hends, fun j hj => absurd hj (Nat.not_lt_zero j)⟩
    | false =>
      have hrecover : (Cursor.mk (lexeme :: rest) finish).recover =
          (Cursor.mk rest finish).recover := by
        simp [recover, hends]
      obtain ⟨k, hk, hiterate, hstop, hbefore⟩ := ih
      rw [hrecover]
      refine ⟨k + 1, Nat.succ_le_succ hk, hiterate, hstop, fun j hj => ?_⟩
      cases j with
      | zero => exact hends
      | succ j => exact hbefore j (Nat.lt_of_succ_lt_succ hj)

end Cursor

def Frame.weight : Frame → Nat
  | unary _ _ | group _ | binary _ _ _ => 2
  | _ => 1

def Control.weight : Control → Nat
  | program => 1
  | statement => 8
  | call _ => 6
  | enter _ => 4
  | operand _ => 3
  | climb _ _ => 2
  | operator _ _ => 9
  | back _ => 1
  | verdict _ => 1
  | halt => 0

def Control.isInside : Control → Bool
  | program | halt => false
  | _ => true

/-- The steps that so many lexemes still cause while a statement is read. For the current one
nothing is kept of what a statement would cost that starts there. -/
def reserve (n : Nat) : Nat := 6 * n + 9 * (n - 1)

theorem reserve_mono {n k : Nat} (h : k ≤ n) : reserve k ≤ reserve n := by
  simp only [reserve]
  omega

namespace Machine

def weight (m : Machine) : Nat := m.control.weight + (m.frames.map Frame.weight).sum

def potential (m : Machine) : Nat :=
  (if m.control.isInside then reserve m.cursor.rest.length else 15 * m.cursor.rest.length) +
    m.weight

/-- A statement is still being read, at the same lexeme or further on, and less is to be done by
the control and the frames. -/
structure Spends (m m' : Machine) : Prop where
  inside : m'.control.isInside = true
  reaches : m.cursor.Reaches m'.cursor
  weight : m'.weight < m.weight

variable {m m' : Machine}

theorem Spends.potential_lt (h : m.Spends m') (hm : m.control.isInside = true) :
    m'.potential < m.potential := by
  have hmono := reserve_mono h.reaches.length_le
  have hweight := h.weight
  simp only [potential, hm, h.inside, if_true]
  omega

theorem weight_push (m : Machine) (frame : Frame) (bound : Precedence) :
    (m.push frame bound).weight = 6 + (frame.weight + (m.frames.map Frame.weight).sum) := rfl

theorem weight_follow {α : Type} (m : Machine) (o : Outcome α) (control : Control) :
    (m.follow o control).weight = control.weight + (m.frames.map Frame.weight).sum := rfl

theorem isInside_afterOperand (bound : Precedence) (value : Option Expression) :
    (afterOperand bound value).isInside = true := by
  cases value <;> rfl

theorem weight_afterOperand (bound : Precedence) (value : Option Expression) :
    (afterOperand bound value).weight ≤ 2 := by
  cases value with
  | none => exact Nat.le_succ 1
  | some e => exact Nat.le_refl 2

theorem spends_openLet (hc : m.control = .statement) : m.Spends m.openLet := by
  have hheader : m.cursor.Reaches ((m.cursor.expect .identifier).andThen fun name d =>
      (d.expect .assign).andThen fun _ d => .done name d).cursor := by
    refine Outcome.reaches_andThen (Cursor.reaches_expect _ _) fun name d => ?_
    exact Outcome.reaches_andThen (Cursor.reaches_expect _ _) fun _ d => .refl d
  unfold openLet
  dsimp only
  split
  · refine ⟨rfl, hheader.trans (.advance _), ?_⟩
    rw [weight_push, weight, hc]
    simp only [follow, Control.weight, Frame.weight]
    omega
  · refine ⟨rfl, hheader, ?_⟩
    rw [weight_follow, weight, hc]
    simp only [Control.weight]
    omega

theorem spends_openStatement (hc : m.control = .statement) : m.Spends m.openStatement := by
  unfold openStatement
  dsimp only
  split
  · exact spends_openLet hc
  · split
    · refine ⟨rfl, .overSemicolon _, ?_⟩
      simp only [weight, hc, Control.weight]
      omega
    · refine ⟨rfl, .advance _, ?_⟩
      rw [weight_push, weight, hc]
      simp only [Control.weight, Frame.weight]
      omega
  · refine ⟨rfl, .refl _, ?_⟩
    simp only [weight, hc, Control.weight]
    omega
  · refine ⟨rfl, .refl _, ?_⟩
    simp only [weight, hc, Control.weight, List.map_cons, List.sum_cons, Frame.weight]
    omega

theorem spends_enter {bound : Precedence} (hc : m.control = .enter bound) : m.Spends m.step := by
  simp only [step, hc, descend]
  split
  · refine ⟨rfl, .refl _, ?_⟩
    rw [weight_follow, weight, hc]
    exact Nat.add_lt_add_right (by decide : 1 < 4) _
  · refine ⟨rfl, .refl _, ?_⟩
    rw [weight, weight, hc]
    exact Nat.add_lt_add_right (by decide : 3 < 4) _

theorem spends_call {bound : Precedence} (hc : m.control = .call bound) : m.Spends m.step := by
  simp only [step, hc]
  refine ⟨rfl, .refl _, ?_⟩
  simp only [weight, hc, List.map_cons, List.sum_cons, Frame.weight, Control.weight]
  omega

theorem spends_operator {bound : Precedence} {left : Expression}
    (hc : m.control = .operator bound left) : m.Spends m.step := by
  simp only [step, hc]
  refine ⟨rfl, .advance _, ?_⟩
  rw [weight_push, weight, hc]
  simp only [Frame.weight, Control.weight]
  omega

theorem potential_push_lt {bound inner : Precedence} {frame : Frame}
    (hc : m.control = .operand bound) (hk : m.cursor.current.isEof = false)
    (hw : frame.weight = 2) : (m.push frame inner).potential < m.potential := by
  have hpos := Cursor.length_pos_of_not_eof hk
  have hlength := m.cursor.length_advance
  have hm : m.control.isInside = true := hc ▸ rfl
  have hweight : m.weight = 3 + (m.frames.map Frame.weight).sum := by rw [weight, hc]; rfl
  have hpush : (m.push frame inner).potential =
      reserve m.cursor.advance.rest.length + (m.push frame inner).weight := rfl
  rw [hpush, weight_push, hw, potential, hm, if_pos rfl, hweight]
  simp only [reserve]
  omega

theorem potential_openOperand_lt {bound : Precedence} (hc : m.control = .operand bound) :
    (m.openOperand bound).potential < m.potential := by
  have hopens {kind : TokenKind} (hk : m.cursor.current.token.kind = kind)
      (hne : kind ∉ [.semicolon, .eof]) : m.cursor.current.isEof = false :=
    Cursor.isEof_of_not_ends (Cursor.not_ends_of_kind hk hne)
  unfold openOperand
  dsimp only
  split
  · rename_i hk
    exact potential_push_lt hc (hopens hk (by decide)) rfl
  · rename_i hk
    exact potential_push_lt hc (hopens hk (by decide)) rfl
  · rename_i hk
    exact potential_push_lt hc (hopens hk (by decide)) rfl
  · refine Spends.potential_lt ⟨?_, Cursor.reaches_operand (fun _ d => .refl d) _, ?_⟩ (hc ▸ rfl)
    · exact isInside_afterOperand bound _
    · rw [weight_follow, weight, hc]
      exact Nat.add_lt_add_right (Nat.lt_succ_of_le (weight_afterOperand bound _)) _

/-- An operator pays for all that is done with it. -/
theorem potential_climb_lt {bound : Precedence} {left : Expression}
    (hc : m.control = .climb bound left) : m.step.potential < m.potential := by
  have hm : m.potential = reserve m.cursor.rest.length + (2 + (m.frames.map Frame.weight).sum) := by
    rw [potential, weight, hc]
    rfl
  simp only [step, hc]
  split
  · rename_i hlt
    have hpeek : m.cursor.advance.current.isEof = false :=
      Cursor.isEof_of_not_ends (Cursor.not_ends_of_lt hlt)
    have hpos := Cursor.length_pos_of_not_eof hpeek
    have hlength := m.cursor.length_advance
    have hle : (descend { m with cursor := m.cursor.advance } (.operator bound left)).potential ≤
        reserve m.cursor.advance.rest.length + (9 + (m.frames.map Frame.weight).sum) := by
      unfold descend
      split
      · exact Nat.add_le_add_left (Nat.add_le_add_right (by decide : 1 ≤ 9) _) _
      · exact Nat.le_refl _
    apply Nat.lt_of_le_of_lt hle
    rw [hm]
    simp only [reserve]
    omega
  · rw [hm]
    exact Nat.add_lt_add_left (Nat.add_lt_add_right (by decide : 1 < 2) _) _

section

variable {value : Option Expression} {frame : Frame} {frames : List Frame}

theorem spends_pop (hc : m.control = .back value) (hf : m.frames = frame :: frames)
    (hi : m'.control.isInside = true) (hr : m.cursor.Reaches m'.cursor) (hf' : m'.frames = frames)
    (hw : m'.control.weight ≤ frame.weight) : m.Spends m' := by
  refine ⟨hi, hr, ?_⟩
  have hweight : m.weight = 1 + (frame.weight + (frames.map Frame.weight).sum) := by
    rw [weight, hc, hf]
    rfl
  rw [hweight, weight, hf']
  omega

theorem spends_close {make : Expression → Statement} (hc : m.control = .back value)
    (hf : m.frames = frame :: frames) (hw : 1 ≤ frame.weight) :
    m.Spends ({ m with frames := frames }.close make value) := by
  cases value with
  | none => exact spends_pop hc hf rfl (.refl _) rfl hw
  | some e => exact spends_pop hc hf rfl (.overSemicolon _) rfl hw

/-- A value that comes back is spent on a frame, unless there is none that waits for one. -/
theorem resume_eq_or_spends (hc : m.control = .back value) :
    m.resume value = m ∨ m.Spends (m.resume value) := by
  have hback : m.control.isInside = true ∧ m.control.weight = 1 := by
    rw [hc]
    exact ⟨rfl, rfl⟩
  unfold resume
  split
  · rename_i hf
    exact .inr (spends_pop hc hf hback.1 (.refl _) rfl (Nat.le_of_eq hback.2))
  · rename_i hf
    exact .inr (spends_pop hc hf (isInside_afterOperand _ _) (.refl _) rfl
      (weight_afterOperand _ _))
  · rename_i hf
    cases value with
    | none =>
      exact .inr (spends_pop hc hf hback.1 (.refl _) rfl (hback.2 ▸ Nat.le_succ 1))
    | some e =>
      exact .inr (spends_pop hc hf (isInside_afterOperand _ _) (Cursor.reaches_expect _ _) rfl
        (weight_afterOperand _ _))
  · rename_i hf
    exact .inr (spends_pop hc hf (isInside_afterOperand _ _) (.refl _) rfl
      (weight_afterOperand _ _))
  · rename_i hf
    exact .inr (spends_close hc hf (Nat.le_refl 1))
  · rename_i hf
    exact .inr (spends_close hc hf (Nat.le_refl 1))
  · rename_i hf
    exact .inr (spends_close hc hf (Nat.le_refl 1))
  · exact .inl rfl

end

theorem potential_lt_of_past {value : Option Statement} {drawn : Nat} {frames : List Frame}
    (hc : m.control = .verdict value) (hf : m.frames = .program drawn :: frames)
    (hc' : m'.control = .program) (hf' : m'.frames = frames)
    (hn : m'.cursor.rest.length ≤ m.cursor.rest.length - 1) : m'.potential < m.potential := by
  have hm : m.potential =
      reserve m.cursor.rest.length + (1 + (1 + (frames.map Frame.weight).sum)) := by
    rw [potential, weight, hc, hf]
    rfl
  have hm' : m'.potential =
      15 * m'.cursor.rest.length + (1 + (frames.map Frame.weight).sum) := by
    rw [potential, weight, hc', hf']
    rfl
  rw [hm, hm']
  simp only [reserve]
  omega

theorem settle_eq_or_potential_lt {value : Option Statement} (hc : m.control = .verdict value) :
    m.settle value = m ∨ (m.settle value).potential < m.potential := by
  have hadvance : m.cursor.advance.rest.length ≤ m.cursor.rest.length - 1 :=
    Nat.le_of_eq m.cursor.length_advance
  have hrecover : m.cursor.recover.advance.rest.length ≤ m.cursor.rest.length - 1 := by
    rw [Cursor.length_advance]
    exact Nat.sub_le_sub_right (Cursor.Reaches.recover m.cursor).length_le 1
  unfold settle
  split
  · rename_i hf
    split
    · exact .inr (potential_lt_of_past hc hf rfl rfl hadvance)
    · exact .inr (potential_lt_of_past hc hf rfl rfl hrecover)
  · rename_i hf
    exact .inr (potential_lt_of_past hc hf rfl rfl hrecover)
  · exact .inl rfl

theorem potential_begin_lt (hc : m.control = .program) : m.step.potential < m.potential := by
  have hm : m.potential = 15 * m.cursor.rest.length + (1 + (m.frames.map Frame.weight).sum) := by
    rw [potential, weight, hc]
    rfl
  simp only [step, hc]
  split
  · rw [hm]
    exact Nat.add_lt_add_left (Nat.add_lt_add_right (by decide : 0 < 1) _) _
  · rename_i heof
    have hpos := Cursor.length_pos_of_not_eof (Bool.eq_false_iff.mpr heof)
    have hbegun :
        potential { m with frames := .program m.drawn :: m.frames, control := .statement } =
          reserve m.cursor.rest.length + (8 + (1 + (m.frames.map Frame.weight).sum)) := rfl
    rw [hm, hbegun]
    simp only [reserve]
    omega

theorem spends_statement (hc : m.control = .statement) : m.Spends m.step := by
  have h := spends_openStatement (m := m.note (.statement m.cursor.current.kind)) hc
  simp only [step, hc]
  exact ⟨h.inside, h.reaches, h.weight⟩

/-- Every step brings the machine nearer to its end, or nothing changes any more. -/
theorem step_eq_or_potential_lt (m : Machine) : m.step = m ∨ m.step.potential < m.potential := by
  cases hc : m.control with
  | program => exact .inr (potential_begin_lt hc)
  | statement => exact .inr ((spends_statement hc).potential_lt (hc ▸ rfl))
  | call bound => exact .inr ((spends_call hc).potential_lt (hc ▸ rfl))
  | enter bound => exact .inr ((spends_enter hc).potential_lt (hc ▸ rfl))
  | operand bound =>
    have hstep : m.step = m.openOperand bound := by simp only [step, hc]
    exact .inr (hstep ▸ potential_openOperand_lt hc)
  | climb bound left => exact .inr (potential_climb_lt hc)
  | operator bound left => exact .inr ((spends_operator hc).potential_lt (hc ▸ rfl))
  | back value =>
    have hstep : m.step = m.resume value := by simp only [step, hc]
    rw [hstep]
    exact (resume_eq_or_spends hc).imp_right fun h => h.potential_lt (hc ▸ rfl)
  | verdict value =>
    have hstep : m.step = m.settle value := by simp only [step, hc]
    rw [hstep]
    exact settle_eq_or_potential_lt hc
  | halt => exact .inl (by simp only [step, hc])

theorem step_iterate_of_potential_le {n : Nat} (h : m.potential ≤ n) :
    step (step^[n] m) = step^[n] m := by
  induction n generalizing m with
  | zero =>
    obtain hfixed | hlt := step_eq_or_potential_lt m
    · exact hfixed
    · omega
  | succ n ih =>
    rw [Function.iterate_succ_apply]
    obtain hfixed | hlt := step_eq_or_potential_lt m
    · rw [hfixed, Function.iterate_fixed hfixed n, hfixed]
    · exact ih (by omega)

theorem potential_ofParser (parser : Parser) :
    (ofParser parser).potential = 15 * parser.cursor.rest.length + 1 := rfl

/-- The machine has halted after fifteen steps for each lexeme and one more, with what the reader of
programs comes to. -/
theorem iterate_ofParser (parser : Parser) :
    step^[15 * parser.cursor.rest.length + 1] (ofParser parser) =
      ⟨parser.read.2.cursor, 0, parser.read.2.log, parser.read.1.statements, [], .halt⟩ := by
  let bound := 15 * parser.cursor.rest.length + 1
  have hfixed : step (step^[bound] (ofParser parser)) = step^[bound] (ofParser parser) :=
    step_iterate_of_potential_le (Nat.le_of_eq (potential_ofParser parser))
  obtain ⟨k, hk, -⟩ := (runs_ofParser parser).exists_iterate
  -- both states are fixed, so the order in which they are come to does not matter
  calc step^[bound] (ofParser parser)
    _ = step^[k] (step^[bound] (ofParser parser)) := (Function.iterate_fixed hfixed k).symm
    _ = step^[bound] (step^[k] (ofParser parser)) :=
      Function.Commute.iterate_iterate_self step k bound _
    _ = _ := by rw [hk, iterate_halt rfl]

end Machine

end MonkeyFrontend
