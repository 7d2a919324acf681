import MonkeyFrontend.Proofs.Parsing.Confinement

namespace MonkeyFrontend

def Reason.isMisplaced : Reason → Bool
  | expected _ _ => true
  | unexpectedToken _ => true
  | _ => false

theorem Lexeme.isEof_of_kind {lexeme : Lexeme} {kind : TokenKind} (h : lexeme.kind = kind)
    (hk : kind ≠ .eof) : lexeme.isEof = false :=
  decide_eq_false (h ▸ hk)

namespace Outcome

variable {α : Type} {o p : Outcome α}

theorem Agrees.of_eq (h : o = p) : o.Agrees p := h ▸ ⟨rfl, rfl, rfl⟩

theorem Yields.of_eq {a : α} {c : Cursor} (h : o = .done a c) : o.Yields a c := h ▸ yields_done a c

end Outcome

namespace Cursor

def behind (c : Cursor) (front : List Lexeme) : Cursor := ⟨front ++ c.rest, c.finish⟩

theorem behind_append (c : Cursor) (front front' : List Lexeme) :
    c.behind (front ++ front') = (c.behind front').behind front := by
  simp only [behind, List.append_assoc]

theorem current_behind_of_ne_nil {front : List Lexeme} (h : front ≠ []) (c d : Cursor) :
    (c.behind front).current = (d.behind front).current := by
  cases front with
  | nil => exact absurd rfl h
  | cons lexeme front => rfl

theorem current_behind {c d : Cursor} (h : c.current = d.current) (front : List Lexeme) :
    (c.behind front).current = (d.behind front).current := by
  cases front with
  | nil => exact h
  | cons lexeme front => rfl

theorem exists_behind {c : Cursor} (h : c.current.isEof = false) :
    ∃ d : Cursor, c = d.behind [c.current] := by
  obtain ⟨rest, finish⟩ := c
  cases rest with
  | nil => cases h
  | cons lexeme rest => exact ⟨⟨rest, finish⟩, rfl⟩

end Cursor

def closers : List TokenKind := [.rparen, .eof]

section

variable {α β : Type} {closing closing' : List TokenKind} {read read' : Cursor → Outcome α}
  {next : α → Cursor → Outcome β} {front front' ending : List Lexeme}

/-- Some lexemes are read to a value, ending on a last lexeme. Of what follows them only the next
lexeme matters, and one of the closing kinds would do in its place. -/
def Reads (closing : List TokenKind) (read : Cursor → Outcome α) (front : List Lexeme)
    (follow : Lexeme) (a : α) (last : Lexeme) : Prop :=
  ∀ c : Cursor, c.current = follow ∨ c.current.kind ∈ closing →
    (read (c.behind front)).Yields a (c.behind [last])

/-- A reading that has come so far stalls at the next lexeme, whatever comes after that. -/
def Stalls (read : Cursor → Outcome α) (front : List Lexeme) (follow : Lexeme)
    (diagnostic : Diagnostic) : Prop :=
  ∀ c : Cursor, c.current = follow →
    (read (c.behind front)).diagnostics.head? = some diagnostic

def Completes (closing : List TokenKind) (read : Cursor → Outcome α) (front : List Lexeme) : Prop :=
  ∃ ending : List Lexeme, (∀ lexeme ∈ ending, lexeme.isEof = false) ∧
    ∀ c : Cursor, c.current.kind ∈ closing →
      ∃ a last, (read (c.behind (front ++ ending))).Yields a (c.behind [last])

/-- The next lexeme decides over a reading that has come so far. Where a lexeme is misplaced, the
reading could have been completed without it. -/
inductive Decides (closing : List TokenKind) (read : Cursor → Outcome α) (front : List Lexeme)
    (follow : Lexeme) : Prop where
  | reads (a : α) (last : Lexeme) (h : Reads closing read front follow a last)
  | stalls (diagnostic : Diagnostic) (hl : diagnostic.location = follow.location)
      (h : Stalls read front follow diagnostic)
      (hc : diagnostic.reason.isMisplaced = true → Completes closing read front)

def Resolves (closing : List TokenKind) (read : Cursor → Outcome α) (c : Cursor) : Prop :=
  ∃ (front : List Lexeme) (d : Cursor), c = d.behind front ∧
    (∀ lexeme ∈ front, lexeme.isEof = false) ∧ Decides closing read front d.current

structure Finishes (closing closing' : List TokenKind) (next : α → Cursor → Outcome β)
    (ending : List Lexeme) : Prop where
  inside : ∀ lexeme ∈ ending, lexeme.isEof = false
  closes : ∀ c : Cursor, c.current.kind ∈ closing' → (c.behind ending).current.kind ∈ closing
  yields : ∀ (a : α) (last : Lexeme) (c : Cursor), c.current.kind ∈ closing' →
    ∃ b last', (next a (c.behind (last :: ending))).Yields b (c.behind [last'])

open Outcome Cursor

theorem Completes.andThen (h : Completes closing read front)
    (hn : Finishes closing closing' next ending) :
    Completes closing' (fun c => (read c).andThen next) front := by
  obtain ⟨ending', hinside, hread⟩ := h
  refine ⟨ending' ++ ending, List.forall_mem_append.mpr ⟨hinside, hn.inside⟩, fun c hc => ?_⟩
  obtain ⟨a, last, ha⟩ := hread (c.behind ending) (hn.closes c hc)
  obtain ⟨b, last', hb⟩ := hn.yields a last c hc
  refine ⟨b, last', ?_⟩
  rw [← List.append_assoc, behind_append]
  exact (ha.andThen next).yields hb

theorem Stalls.andThen {follow : Lexeme} {diagnostic : Diagnostic}
    (h : Stalls read front follow diagnostic) (next : α → Cursor → Outcome β) :
    Stalls (fun c => (read c).andThen next) front follow diagnostic := by
  intro c hc
  have hd := h c hc
  dsimp only
  cases hv : (read (c.behind front)).value with
  | none => rw [diagnostics_andThen_of_none hv, hd]
  | some a =>
    rw [diagnostics_andThen_of_some hv, List.head?_append, hd]
    rfl

theorem Reads.agrees {follow last : Lexeme} {a : α} {c : Cursor}
    (h : Reads closing read front follow a last)
    (hc : (c.behind front').current = follow ∨ (c.behind front').current.kind ∈ closing)
    (next : α → Cursor → Outcome β) :
    ((read (c.behind (front ++ front'))).andThen next).Agrees
      (next a (c.behind (last :: front'))) := by
  rw [behind_append]
  exact (h _ hc).andThen next

theorem Reads.completes {a : α} {last : Lexeme} {d : Cursor}
    (h : Reads closing read front (d.behind front').current a last)
    (hf : Finishes closing closing' next ending)
    (hc : Completes closing' (fun e => next a (e.behind [last])) front') :
    Completes closing' (fun c => (read c).andThen next) (front ++ front') := by
  by_cases hnil : front' = []
  · -- of the second part only the lexeme ahead has been seen, and it may be another
    subst hnil
    refine ⟨ending, hf.inside, fun e he => ?_⟩
    obtain ⟨b, last', hb⟩ := hf.yields a last e he
    refine ⟨b, last', ?_⟩
    rw [List.append_nil]
    exact (h.agrees (.inr (hf.closes e he)) next).yields hb
  · obtain ⟨ending', hinside, hcomplete⟩ := hc
    refine ⟨ending', hinside, fun e he => ?_⟩
    obtain ⟨b, last', hb⟩ := hcomplete e he
    have hcurrent : (e.behind (front' ++ ending')).current = (d.behind front').current := by
      rw [behind_append]
      exact current_behind_of_ne_nil hnil _ _
    refine ⟨b, last', ?_⟩
    rw [List.append_assoc]
    exact (h.agrees (.inl hcurrent) next).yields hb

theorem Reads.andThen {a : α} {last : Lexeme} {d : Cursor}
    (h : Reads closing read front (d.behind front').current a last)
    (hsub : closing' ⊆ closing) (hf : Finishes closing closing' next ending)
    (hn : Decides closing' (fun e => next a (e.behind [last])) front' d.current) :
    Decides closing' (fun c => (read c).andThen next) (front ++ front') d.current := by
  cases hn with
  | reads b last' hb =>
    refine .reads b last' fun e he => (h.agrees ?_ next).yields (hb e he)
    cases front' with
    | nil => exact he.imp_right fun hk => hsub hk
    | cons lexeme front' => exact .inl rfl
  | stalls diagnostic hl hs hc =>
    refine .stalls diagnostic hl (fun e he => ?_) fun hm => h.completes hf (hc hm)
    rw [(h.agrees (.inl (current_behind he front')) next).diagnostics]
    exact hs e he

namespace Resolves

variable {c : Cursor}

theorem andThen (h : Resolves closing read c) (hsub : closing' ⊆ closing)
    (hf : Finishes closing closing' next ending)
    (hn : ∀ (a : α) (last : Lexeme) (d : Cursor),
      Resolves closing' (fun e => next a (e.behind [last])) d) :
    Resolves closing' (fun c => (read c).andThen next) c := by
  obtain ⟨front, d, rfl, hfront, hd⟩ := h
  cases hd with
  | reads a last hr =>
    obtain ⟨front', e, rfl, hfront', he⟩ := hn a last d
    refine ⟨front ++ front', e, ?_, List.forall_mem_append.mpr ⟨hfront, hfront'⟩, ?_⟩
    · rw [behind_append]
    · exact hr.andThen hsub hf he
  | stalls diagnostic hl hs hc =>
    exact ⟨front, d, rfl, hfront,
      .stalls diagnostic hl (hs.andThen next) fun hm => (hc hm).andThen hf⟩

theorem shift (hf : ∀ lexeme ∈ front, lexeme.isEof = false)
    (h : ∀ c : Cursor, (read' (c.behind front)).Agrees (read c)) (hr : Resolves closing read c) :
    Resolves closing read' (c.behind front) := by
  obtain ⟨front', d, rfl, hfront', hd⟩ := hr
  refine ⟨front ++ front', d, ?_, List.forall_mem_append.mpr ⟨hf, hfront'⟩, ?_⟩
  · rw [behind_append]
  · cases hd with
    | reads a last hr =>
      refine .reads a last fun e he => ?_
      rw [behind_append]
      exact (h _).yields (hr e he)
    | stalls diagnostic hl hs hc =>
      refine .stalls diagnostic hl (fun e he => ?_) fun hm => ?_
      · rw [behind_append, (h _).diagnostics]
        exact hs e he
      · obtain ⟨ending, hinside, hcomplete⟩ := hc hm
        refine ⟨ending, hinside, fun e he => ?_⟩
        obtain ⟨a, last, ha⟩ := hcomplete e he
        refine ⟨a, last, ?_⟩
        rw [List.append_assoc, behind_append]
        exact (h _).yields ha

theorem of_agrees (h : ∀ c, (read' c).Agrees (read c)) (hr : Resolves closing read c) :
    Resolves closing read' c :=
  hr.shift (List.forall_mem_nil _) h

/-- A reading chosen by its first lexeme resolves as the one that is chosen. -/
theorem of_current (h : ∀ d : Cursor, d.current = c.current → (read' d).Agrees (read d))
    (hn : ∀ (d e : Cursor) (a : α), d.current.kind ∈ closing → (read d).Yields a e →
      (read' d).Yields a e)
    (hc : Completes closing read' []) (hr : Resolves closing read c) :
    Resolves closing read' c := by
  obtain ⟨front, d, rfl, hfront, hd⟩ := hr
  refine ⟨front, d, rfl, hfront, ?_⟩
  have hagrees (e : Cursor) (he : front ≠ [] ∨ e.current = d.current) :
      (read' (e.behind front)).Agrees (read (e.behind front)) := by
    refine h _ ?_
    obtain hne | he := he
    · exact current_behind_of_ne_nil hne _ _
    · exact current_behind he front
  cases hd with
  | reads a last hr =>
    refine .reads a last fun e he => ?_
    by_cases hnil : front = []
    · subst hnil
      obtain he | he := he
      · exact (hagrees e (.inr he)).yields (hr e (.inl he))
      · exact hn _ _ _ he (hr e (.inr he))
    · exact (hagrees e (.inl hnil)).yields (hr e he)
  | stalls diagnostic hl hs hcomplete =>
    refine .stalls diagnostic hl (fun e he => ?_) fun hm => ?_
    · rw [(hagrees e (.inr he)).diagnostics]
      exact hs e he
    · by_cases hnil : front = []
      · exact hnil ▸ hc
      · obtain ⟨ending, hinside, hyields⟩ := hcomplete hm
        refine ⟨ending, hinside, fun e he => ?_⟩
        obtain ⟨a, last, ha⟩ := hyields e he
        refine ⟨a, last, ?_⟩
        rw [behind_append] at ha ⊢
        exact (hagrees _ (.inl hnil)).yields ha

theorem done (a : α) (last : Lexeme) (c : Cursor) :
    Resolves closing (fun e => .done a (e.behind [last])) c :=
  ⟨[], c, rfl, by simp, .reads a last fun _ _ => yields_done _ _⟩

theorem leaf {lexeme : Lexeme} {a : α} (hl : lexeme.isEof = false)
    (h : ∀ c : Cursor, read (c.behind [lexeme]) = .done a (c.behind [lexeme])) (c : Cursor) :
    Resolves closing read (c.behind [lexeme]) :=
  (done a lexeme c).shift (by simpa using hl) fun d => .of_eq (h d)

/-- A reading stalls at its first lexeme. One that is misplaced could have been another. -/
theorem stall (reason : Reason) (hc : reason.isMisplaced = true → Completes closing read [])
    (h : ∀ d : Cursor, d.current = c.current →
      (read d).diagnostics.head? = some ⟨c.current.location, reason⟩) : Resolves closing read c :=
  ⟨[], c, rfl, by simp, .stalls ⟨c.current.location, reason⟩ rfl h hc⟩

end Resolves

section

variable {kind : TokenKind} {next : Token → Cursor → Outcome α} {wanted : Lexeme}

theorem agrees_expect (h : wanted.kind = kind) (next : Token → Cursor → Outcome α) (last : Lexeme)
    (c : Cursor) :
    (((c.behind [last, wanted]).expect kind).andThen next).Agrees
      (next wanted.token (c.behind [wanted])) := by
  have hexpect : ((c.behind [last, wanted]).expect kind).Yields wanted.token (c.behind [wanted]) :=
    .of_eq (expect_of_kind h)
  exact hexpect.andThen next

theorem Completes.expect (hk : kind ≠ .eof) (hw : wanted.kind = kind)
    (hc : Completes closing (fun e => next wanted.token (e.behind [wanted])) []) (last : Lexeme) :
    Completes closing (fun e => ((e.behind [last]).expect kind).andThen next) [] := by
  obtain ⟨ending, hinside, hyields⟩ := hc
  refine ⟨wanted :: ending, ?_, fun c hc => ?_⟩
  · exact List.forall_mem_cons.mpr ⟨Lexeme.isEof_of_kind hw hk, hinside⟩
  · obtain ⟨a, last', ha⟩ := hyields c hc
    exact ⟨a, last', (agrees_expect hw next last (c.behind ending)).yields ha⟩

theorem Resolves.expect (hk : kind ≠ .eof) (hw : wanted.kind = kind)
    (hc : Completes closing (fun e => next wanted.token (e.behind [wanted])) [])
    (hn : ∀ lexeme : Lexeme, lexeme.kind = kind → ∀ d : Cursor,
      Resolves closing (fun e => next lexeme.token (e.behind [lexeme])) d)
    (last : Lexeme) (c : Cursor) :
    Resolves closing (fun e => ((e.behind [last]).expect kind).andThen next) c := by
  by_cases h : c.current.kind = kind
  · have hnot := Lexeme.isEof_of_kind h hk
    obtain ⟨d, hd⟩ := exists_behind hnot
    generalize c.current = lexeme at h hnot hd
    subst hd
    exact (hn lexeme h d).shift (by simpa using hnot) (agrees_expect h next last)
  · refine .stall (.expected kind c.current.token.describe) (fun _ => hc.expect hk hw last) ?_
    intro d hd
    have hpeek : (d.behind [last]).peek = c.current := hd
    have hexpect : (d.behind [last]).expect kind =
        .fail ⟨c.current.location, .expected kind c.current.token.describe⟩ (d.behind [last]) := by
      rw [Cursor.expect, hpeek, if_neg h]
    rw [hexpect]
    rfl

end

end

namespace Cursor

open Outcome

def openers : List TokenKind :=
  [.identifier, .integer, .trueKeyword, .falseKeyword, .bang, .minus, .lparen]

def someName : Lexeme := ⟨.start, ⟨.identifier, .text "x"⟩⟩

def someClosing : Lexeme := ⟨.start, ⟨.rparen, .text ")"⟩⟩

theorem precedence_of_closers {kind : TokenKind} (h : kind ∈ closers) :
    kind.precedence = .lowest := by
  revert h
  cases kind <;> decide

theorem operand_of_stray {inner : Precedence → Cursor → Outcome Expression} {c : Cursor}
    (h : c.current.kind ∉ openers) :
    operand inner c = .fail ⟨c.current.location, .unexpectedToken c.current.token.describe⟩ c := by
  simp only [Lexeme.kind, openers, List.mem_cons, List.not_mem_nil, or_false, not_or] at h
  unfold operand
  dsimp only
  split <;> simp_all

theorem completes_operand (inner : Precedence → Cursor → Outcome Expression) :
    Completes closers (operand inner) [] :=
  ⟨[someName], by decide, fun _ _ => ⟨_, someName, .of_eq (operand_of_identifier rfl)⟩⟩

theorem resolves_stray (inner : Precedence → Cursor → Outcome Expression) {c : Cursor}
    (h : c.current.kind ∉ openers) : Resolves closers (operand inner) c := by
  refine .stall (.unexpectedToken c.current.token.describe) (fun _ => completes_operand inner) ?_
  intro d hd
  rw [operand_of_stray (hd ▸ h), hd]
  rfl

theorem resolves_integer (inner : Precedence → Cursor → Outcome Expression) {lexeme : Lexeme}
    (h : lexeme.kind = .integer) (c : Cursor) :
    Resolves closers (operand inner) (c.behind [lexeme]) := by
  cases hv : lexeme.token.literal.integer? with
  | some value =>
    have hoperand (d : Cursor) : operand inner (d.behind [lexeme]) =
        .done (.integer lexeme.token (some value)) (d.behind [lexeme]) :=
      (operand_of_integer h).trans (integer_of_readable (c := d.behind [lexeme]) hv)
    exact .leaf (Lexeme.isEof_of_kind h (by decide)) hoperand c
  | none =>
    refine .stall (.unreadableInteger lexeme.token.describe) (fun hm => by cases hm) ?_
    intro d hd
    have hcurrent : d.current = lexeme := hd
    have hk : d.current.token.kind = .integer := hcurrent ▸ h
    simp only [operand, hk]
    simp only [integer, hcurrent, hv]
    rfl

theorem finishes_done (make : Expression → Expression) :
    Finishes closers closers (fun e d => .done (make e) d) [] :=
  ⟨by simp, fun _ hc => hc, fun e last _ _ => ⟨make e, last, yields_done _ _⟩⟩

theorem resolves_unary {inner : Precedence → Cursor → Outcome Expression} {operator : Lexeme}
    {c : Cursor} (hk : operator.kind = .bang ∨ operator.kind = .minus)
    (h : Resolves closers (inner .unary) c) :
    Resolves closers (operand inner) (c.behind [operator]) := by
  have hright := h.andThen (List.Subset.refl _)
    (finishes_done fun right => .unary operator.token operator.token.literal.render right)
    fun right last d => .done _ last d
  refine hright.shift ?_ fun d => ?_
  · obtain hk | hk := hk <;> simp [Lexeme.isEof, hk]
  · exact .of_eq (operand_of_unary hk)

theorem finishes_group :
    Finishes closers closers
      (fun (e : Expression) d => (d.expect .rparen).andThen fun _ d => .done e d)
      [someClosing] := by
  refine ⟨by decide, fun c _ => List.mem_cons_self, fun e last c _ => ⟨e, someClosing, ?_⟩⟩
  exact (agrees_expect rfl _ last c).yields (yields_done _ _)

theorem resolves_group {inner : Precedence → Cursor → Outcome Expression} {opening : Lexeme}
    {c : Cursor} (hk : opening.kind = .lparen) (h : Resolves closers (inner .lowest) c) :
    Resolves closers (operand inner) (c.behind [opening]) := by
  have hgroup := h.andThen (List.Subset.refl _) finishes_group fun e last d => by
    refine .expect (by decide) (rfl : someClosing.kind = _) ?_ ?_ last d
    · exact ⟨[], by simp, fun c _ => ⟨e, someClosing, yields_done _ _⟩⟩
    · exact fun lexeme _ d => .done e lexeme d
  refine hgroup.shift ?_ fun d => ?_
  · simp [Lexeme.isEof, hk]
  · exact .of_eq (operand_of_group hk)

theorem resolves_operand {inner : Precedence → Cursor → Outcome Expression}
    (h : ∀ (bound : Precedence) (c : Cursor), Resolves closers (inner bound) c) (c : Cursor) :
    Resolves closers (operand inner) c := by
  by_cases heof : c.current.isEof = true
  · have hk : c.current.kind = .eof := of_decide_eq_true heof
    exact resolves_stray inner (by simp [hk, openers])
  · obtain ⟨d, hd⟩ := exists_behind (Bool.eq_false_iff.mpr heof)
    generalize c.current = lexeme at hd heof
    subst hd
    cases hk : lexeme.kind with
    | identifier =>
      exact .leaf (Lexeme.isEof_of_kind hk (by decide)) (fun d => operand_of_identifier hk) d
    | integer => exact resolves_integer inner hk d
    | trueKeyword =>
      exact .leaf (Lexeme.isEof_of_kind hk (by decide)) (fun d => operand_of_boolean true hk) d
    | falseKeyword =>
      exact .leaf (Lexeme.isEof_of_kind hk (by decide)) (fun d => operand_of_boolean false hk) d
    | bang => exact resolves_unary (.inl hk) (h .unary d)
    | minus => exact resolves_unary (.inr hk) (h .unary d)
    | lparen => exact resolves_group hk (h .lowest d)
    | _ =>
      have hcurrent : (d.behind [lexeme]).current.kind = _ := hk
      exact resolves_stray inner (by rw [hcurrent]; decide)

theorem climb_of_closers {c : Cursor} (h : c.current.kind ∈ closers) (bound : Precedence) (n : Nat)
    (left : Expression) (last : Lexeme) :
    climb bound n left (c.behind [last]) = .done left (c.behind [last]) := by
  refine climb_of_not_lt ?_ n left
  have hpeek : (c.behind [last]).peek = c.current := rfl
  rw [hpeek, precedence_of_closers h]
  exact Nat.not_lt_zero _

theorem finishes_climb (bound : Precedence) (n : Nat) (make : Expression → Expression) :
    Finishes closers closers (fun e d => climb bound n (make e) d) [] := by
  refine ⟨by simp, fun _ hc => hc, fun e last c hc => ⟨make e, last, ?_⟩⟩
  exact .of_eq (climb_of_closers hc bound n (make e) last)

theorem resolves_climb_of_not_lt {bound : Precedence} {c : Cursor}
    (h : ¬ bound < c.current.kind.precedence) (n : Nat) (left : Expression) (last : Lexeme) :
    Resolves closers (fun e => climb bound n left (e.behind [last])) c := by
  refine ⟨[], c, rfl, by simp, .reads left last fun d hd => ?_⟩
  obtain hd | hd := hd
  · have hpeek : (d.behind [last]).peek = c.current := hd
    have hstop : ¬ bound < (d.behind [last]).peek.kind.precedence := hpeek ▸ h
    exact .of_eq (climb_of_not_lt hstop n left)
  · exact .of_eq (climb_of_closers hd bound n left last)

theorem resolves_climb_of_lt {bound : Precedence} {n : Nat} {c : Cursor}
    (hexpression : ∀ (bound : Precedence) (c : Cursor), Resolves closers (expression bound n) c)
    (hclimb : ∀ (left : Expression) (last : Lexeme) (c : Cursor),
      Resolves closers (fun e => climb bound n left (e.behind [last])) c)
    (h : bound < c.current.kind.precedence) (left : Expression) (last : Lexeme) :
    Resolves closers (fun e => climb bound (n + 1) left (e.behind [last])) c := by
  have hnot := isEof_of_not_ends (not_ends_of_lt h)
  obtain ⟨d, hd⟩ := exists_behind hnot
  generalize c.current = operator at hd hnot h
  subst hd
  have hright := (hexpression operator.kind.precedence d).andThen (List.Subset.refl _)
    (finishes_climb bound n fun right =>
      .binary operator.token operator.token.literal.render left right)
    fun right last d => hclimb _ last d
  refine hright.shift (by simpa using hnot) fun e => ?_
  exact .of_eq (climb_succ_of_lt (c := (e.behind [operator]).behind [last]) h n left)

/-- At each point of an expression the lexeme ahead tells whether and how it goes on. -/
theorem resolves_expression_climb (n : Nat) :
    (∀ (bound : Precedence) (c : Cursor), Resolves closers (expression bound n) c) ∧
      ∀ (bound : Precedence) (left : Expression) (last : Lexeme) (c : Cursor),
        Resolves closers (fun e => climb bound n left (e.behind [last])) c := by
  induction n with
  | zero =>
    constructor
    · intro bound c
      refine .stall .tooDeep (fun hm => by cases hm) fun d hd => ?_
      rw [expression, ← hd]
      rfl
    · intro bound left last c
      by_cases hlt : bound < c.current.kind.precedence
      · refine .stall .tooDeep (fun hm => by cases hm) fun d hd => ?_
        have hpeek : (d.behind [last]).peek = c.current := hd
        rw [climb, hpeek, if_pos hlt, ← hd]
        rfl
      · exact resolves_climb_of_not_lt hlt 0 left last
  | succ n ih =>
    obtain ⟨hexpression, hclimb⟩ := ih
    constructor
    · intro bound c
      refine .of_agrees (agrees_expression_succ bound n) ?_
      exact (resolves_operand hexpression c).andThen (List.Subset.refl _)
        (finishes_climb bound n id) fun left last d => hclimb bound left last d
    · intro bound left last c
      by_cases hlt : bound < c.current.kind.precedence
      · exact resolves_climb_of_lt hexpression (hclimb bound) hlt left last
      · exact resolves_climb_of_not_lt hlt (n + 1) left last

end Cursor

end MonkeyFrontend
