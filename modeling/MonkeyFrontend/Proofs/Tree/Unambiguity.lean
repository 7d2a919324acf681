import MonkeyFrontend.Proofs.Lexeme.Vocabulary
import MonkeyFrontend.Proofs.Parsing.Wholeness
import MonkeyFrontend.Proofs.RoundTrip

namespace MonkeyFrontend

inductive Expression.Same : Expression → Expression → Prop where
  | identifier {name : Identifier} : Same (.identifier name) (.identifier name)
  | integer {text text' : String} {value : Int64} :
      Same (.integer ⟨.integer, .text text⟩ (some value))
        (.integer ⟨.integer, .text text'⟩ (some value))
  | boolean {token : Token} {value : Bool} : Same (.boolean token value) (.boolean token value)
  | unary {token : Token} {operator : String} {right right' : Expression}
      (hr : Same right right') : Same (.unary token operator right) (.unary token operator right')
  | binary {token : Token} {operator : String} {left left' right right' : Expression}
      (hl : Same left left') (hr : Same right right') :
      Same (.binary token operator left right) (.binary token operator left' right')

/-- Two statements that differ at most in how their integers are spelled and, if they are
expression statements, in their own tokens. -/
inductive Statement.Same : Statement → Statement → Prop where
  | letBinding {token : Token} {name : Identifier} {value value' : Expression}
      (hv : value.Same value') :
      Same (.letBinding token name (some value)) (.letBinding token name (some value'))
  | returnNothing {token : Token} : Same (.returnValue token none) (.returnValue token none)
  | returnValue {token : Token} {value value' : Expression} (hv : value.Same value') :
      Same (.returnValue token (some value)) (.returnValue token (some value'))
  | expression {token token' : Token} {value value' : Expression} (hv : value.Same value') :
      Same (.expression token (some value)) (.expression token' (some value'))
  | empty {token token' : Token} : Same (.expression token none) (.expression token' none)

namespace Expression.Same

theorem symm {e f : Expression} (h : e.Same f) : f.Same e := by
  induction h with
  | identifier => exact .identifier
  | integer => exact .integer
  | boolean => exact .boolean
  | unary _ ihr => exact .unary ihr
  | binary _ _ ihl ihr => exact .binary ihl ihr

theorem trans {e f g : Expression} (h : e.Same f) (h' : f.Same g) : e.Same g := by
  induction h generalizing g with
  | identifier => exact h'
  | integer =>
    cases h' with
    | integer => exact .integer
  | boolean => exact h'
  | unary _ ihr =>
    cases h' with
    | unary hr => exact .unary (ihr hr)
  | binary _ _ ihl ihr =>
    cases h' with
    | binary hl hr => exact .binary (ihl hl) (ihr hr)

theorem writeTo_eq {e f : Expression} (h : e.Same f) (buffer : String) :
    e.writeTo buffer = f.writeTo buffer := by
  induction h generalizing buffer with
  | identifier => rfl
  | integer => rfl
  | boolean => rfl
  | unary _ ihr => rw [writeTo, writeTo, ihr]
  | binary _ _ ihl ihr => simp only [writeTo, ihl, ihr]

end Expression.Same

namespace Statement.Same

theorem symm {s t : Statement} (h : s.Same t) : t.Same s := by
  cases h with
  | letBinding hv => exact .letBinding hv.symm
  | returnNothing => exact .returnNothing
  | returnValue hv => exact .returnValue hv.symm
  | expression hv => exact .expression hv.symm
  | empty => exact .empty

theorem trans {s t u : Statement} (h : s.Same t) (h' : t.Same u) : s.Same u := by
  cases h with
  | letBinding hv =>
    cases h' with
    | letBinding hv' => exact .letBinding (hv.trans hv')
  | returnNothing => exact h'
  | returnValue hv =>
    cases h' with
    | returnValue hv' => exact .returnValue (hv.trans hv')
  | expression hv =>
    cases h' with
    | expression hv' => exact .expression (hv.trans hv')
  | empty =>
    cases h' with
    | empty => exact .empty

theorem writeTo_eq {s t : Statement} (h : s.Same t) (buffer : String) :
    s.writeTo buffer = t.writeTo buffer := by
  cases h with
  | letBinding hv => rw [writeTo, writeTo, hv.writeTo_eq]
  | returnNothing => rfl
  | returnValue hv => rw [writeTo, writeTo, hv.writeTo_eq]
  | expression hv => rw [writeTo, writeTo, hv.writeTo_eq]
  | empty => rfl

end Statement.Same

/-- The grammar is unambiguous: lexemes derive one tree only. -/
theorem Phrase.tree_unique {s t : Stratum} {p : Phrase s} {q : Phrase t}
    (h : p.lexemes = q.lexemes) : p.tree = q.tree := by
  have hs : Stratum.equality.rank ≤ s.rank := by cases s <;> decide
  have ht : Stratum.equality.rank ≤ t.rank := by cases t <;> decide
  -- with levels enough for both, reading the lexemes comes to either tree
  have hp := Cursor.expression_agrees_climb p .lowest (max p.levels q.levels) [] .nowhere hs
    (Nat.zero_le _) (by omega)
  have hq := Cursor.expression_agrees_climb q .lowest (max p.levels q.levels) [] .nowhere ht
    (Nat.zero_le _) (by omega)
  rw [Cursor.climb_stops (Nat.zero_le _)] at hp hq
  have hv := hp.value
  rw [h, hq.value] at hv
  exact (Option.some.inj hv).symm

namespace Expression.Canonical

variable {e f : Expression}

theorem exists_phrase_of_tokens (h : e.Canonical) :
    ∃ p : Phrase .primary, p.lexemes = e.tokens.map (Lexeme.mk .start) ∧ p.tree = e := by
  have ht : (e.tokens.map (Lexeme.mk .start)).map Lexeme.token = e.tokens := by
    rw [List.map_map]
    exact List.map_id _
  obtain ⟨p, hp, htree, -⟩ := Expression.exists_phrase h ht
  exact ⟨p, hp, htree⟩

/-- A canonical tree is determined by the tokens that it is written with. -/
theorem eq_of_tokens (he : e.Canonical) (hf : f.Canonical) (h : e.tokens = f.tokens) : e = f := by
  obtain ⟨p, hp, rfl⟩ := he.exists_phrase_of_tokens
  obtain ⟨q, hq, rfl⟩ := hf.exists_phrase_of_tokens
  apply Phrase.tree_unique
  rw [hp, hq, h]

theorem tokens_ne_nil (h : e.Canonical) : e.tokens ≠ [] := by
  obtain ⟨p, hp, -⟩ := h.exists_phrase_of_tokens
  intro hn
  rw [hn] at hp
  exact p.lexemes_ne_nil hp

theorem kind_not_mem_outer (h : e.Canonical) :
    ∀ token ∈ e.tokens, token.kind ∉ Stratum.outer := by
  obtain ⟨p, hp, -⟩ := h.exists_phrase_of_tokens
  intro token hm
  exact p.kind_not_mem_outer ⟨.start, token⟩ (hp ▸ List.mem_map_of_mem hm)

end Expression.Canonical

theorem Numeral.nonneg_of_digits {digits : String} {value : Int64}
    (hd : ∀ d ∈ digits.toList, d.isDigit = true) (h : read? digits = some value) :
    0 ≤ value.toInt := by
  have hsigned : ∀ n, signed? digits.toList = some n → 0 ≤ n := by
    intro n hn
    unfold signed? at hn
    split at hn
    · rename_i hm
      cases hd '-' (by simp [hm])
    · rename_i hm
      cases hd '+' (by simp [hm])
    · obtain ⟨m, -, rfl⟩ := Option.map_eq_some_iff.mp hn
      exact Int.natCast_nonneg m
  rw [read?] at h
  split at h
  · rename_i n hn
    split at h
    · rename_i hr
      cases h
      have hn := hsigned n hn
      rw [Int64.toInt_ofInt_of_le (by simp only [lowest] at hr; omega)
        (by simp only [highest] at hr; omega)]
      exact hn
    · cases h
  · cases h

theorem exists_unaryOperator {kind : TokenKind} (h : kind = .bang ∨ kind = .minus) :
    ∃ operator, (kind, operator) ∈ unaryOperators := by
  obtain rfl | rfl := h
  · exact ⟨"!", by decide⟩
  · exact ⟨"-", by decide⟩

theorem exists_binaryOperator {s : Stratum} {kind : TokenKind} (h : kind ∈ s.operators) :
    ∃ operator, (kind, operator) ∈ binaryOperators := by
  have hall : ∀ kind ∈ s.operators, kind ∈ binaryOperators.map Prod.fst := by
    cases s <;> decide
  obtain ⟨⟨kind, operator⟩, hm, rfl⟩ := List.mem_map.mp (hall kind h)
  exact ⟨operator, hm⟩

theorem Phrase.exists_canonical {s : Stratum} (p : Phrase s)
    (h : ∀ lexeme ∈ p.lexemes, lexeme.token.Proper) : ∃ e, p.tree.Same e ∧ e.Canonical := by
  induction p with
  | binary left operator ho right ihl ihr =>
    simp only [lexemes, List.forall_mem_append, List.forall_mem_cons] at h
    obtain ⟨e, hle, he⟩ := ihl h.1
    obtain ⟨f, hrf, hf⟩ := ihr h.2.2
    obtain ⟨text, hm⟩ := exists_binaryOperator ho
    have htoken : operator.token = ⟨operator.token.kind, .text text⟩ :=
      h.2.1.eq_of_fixed (binaryOperators_subset hm)
    refine ⟨_, .binary hle hrf, ?_⟩
    rw [htoken]
    exact .binary hm he hf
  | lone hs inner ih => exact ih h
  | unary operator ho right ih =>
    simp only [lexemes, List.forall_mem_cons] at h
    obtain ⟨e, hre, he⟩ := ih h.2
    obtain ⟨text, hm⟩ := exists_unaryOperator ho
    have htoken : operator.token = ⟨operator.token.kind, .text text⟩ :=
      h.1.eq_of_fixed (unaryOperators_subset hm)
    refine ⟨_, .unary hre, ?_⟩
    rw [htoken]
    exact .unary hm he
  | identifier lexeme hk =>
    obtain ⟨word, ht, hw⟩ := (h lexeme (by simp [lexemes])).exists_name hk
    refine ⟨_, .identifier, ?_⟩
    rw [ht]
    exact .identifier hw
  | integer lexeme value hk hv =>
    obtain ⟨digits, ht, hd⟩ := (h lexeme (by simp [lexemes])).exists_digits hk
    rw [ht] at hv
    rw [tree, ht]
    exact ⟨_, .integer, .integer (Numeral.nonneg_of_digits hd hv)⟩
  | boolean lexeme value hk =>
    have hproper := h lexeme (by simp [lexemes])
    refine ⟨_, .boolean, ?_⟩
    cases value with
    | true =>
      have hkind : lexeme.token.kind = .trueKeyword := hk
      have hm : (lexeme.token.kind, "true") ∈ fixedTokens := hkind ▸ by decide
      rw [hproper.eq_of_fixed hm, hkind]
      exact .trueKeyword
    | false =>
      have hkind : lexeme.token.kind = .falseKeyword := hk
      have hm : (lexeme.token.kind, "false") ∈ fixedTokens := hkind ▸ by decide
      rw [hproper.eq_of_fixed hm, hkind]
      exact .falseKeyword
  | group opening ho inner closing hc ih =>
    simp only [lexemes, List.forall_mem_cons, List.forall_mem_append] at h
    exact ih h.2.1

theorem Statement.Canonical.tokens_ne_nil {s : Statement} (h : s.Canonical) : s.tokens ≠ [] := by
  cases h with
  | letBinding h hv => exact List.cons_ne_nil _ _
  | returnNothing => exact List.cons_ne_nil _ _
  | returnValue hv => exact List.cons_ne_nil _ _
  | expression hv h => exact hv.tokens_ne_nil

theorem Expression.Canonical.tokens_ne_cons {e : Expression} (h : e.Canonical) {token : Token}
    (hk : token.kind ∈ Stratum.outer) (tokens : List Token) : e.tokens ≠ token :: tokens := by
  intro he
  exact h.kind_not_mem_outer token (by simp [he]) hk

theorem Statement.Canonical.eq_of_tokens {s t : Statement} (hs : s.Canonical) (ht : t.Canonical)
    (h : s.tokens = t.tokens) : s = t := by
  cases hs with
  | letBinding hn hv =>
    cases ht with
    | letBinding hn' hv' =>
      simp only [tokens, Option.map_some, Option.getD_some, List.cons.injEq, Token.mk.injEq,
        Literal.text.injEq, List.append_cancel_right_eq, true_and] at h
      rw [h.1, hv.eq_of_tokens hv' h.2]
    | returnNothing => cases h
    | returnValue hv' => cases h
    | expression hv' h' => exact absurd h.symm (hv'.tokens_ne_cons (by decide) _)
  | returnNothing =>
    cases ht with
    | letBinding hn' hv' => cases h
    | returnNothing => rfl
    | returnValue hv' =>
      simp [tokens, hv'.tokens_ne_nil] at h
    | expression hv' h' => exact absurd h.symm (hv'.tokens_ne_cons (by decide) _)
  | returnValue hv =>
    cases ht with
    | letBinding hn' hv' => cases h
    | returnNothing => simp [tokens, hv.tokens_ne_nil] at h
    | returnValue hv' =>
      simp only [tokens, Option.map_some, Option.getD_some, List.cons.injEq,
        List.append_cancel_right_eq, true_and] at h
      rw [hv.eq_of_tokens hv' h]
    | expression hv' h' => exact absurd h.symm (hv'.tokens_ne_cons (by decide) _)
  | expression hv hf =>
    cases ht with
    | letBinding hn' hv' => exact absurd h (hv.tokens_ne_cons (by decide) _)
    | returnNothing => exact absurd h (hv.tokens_ne_cons (by decide) _)
    | returnValue hv' => exact absurd h (hv.tokens_ne_cons (by decide) _)
    | expression hv' hf' =>
      obtain rfl := hv.eq_of_tokens hv' h
      rw [Option.some.inj (hf.symm.trans hf')]

/-- Canonical, or empty: a statement that a semicolon alone stands for is written as nothing. -/
def Statement.Plain (s : Statement) : Prop :=
  s.Canonical ∨ s = .expression .semicolon none

namespace Statement.Plain

theorem exists_prints {s : Statement} (h : s.Plain) :
    ∃ text : String, (∀ buffer, s.writeTo buffer = .full (buffer ++ text)) ∧
      Scans text.toList s.tokens [] := by
  obtain h | rfl := h
  · obtain ⟨text, hwritten, hscans⟩ := Statement.exists_prints h
    exact ⟨text, hwritten, hscans [] fun _ d hd => by cases hd⟩
  · exact ⟨"", fun buffer => by simp [writeTo], .nil []⟩

theorem eq_of_tokens {s t : Statement} (hs : s.Plain) (ht : t.Plain) (h : s.tokens = t.tokens) :
    s = t := by
  obtain hs | rfl := hs
  · obtain ht | rfl := ht
    · exact hs.eq_of_tokens ht h
    · exact absurd h hs.tokens_ne_nil
  · obtain ht | rfl := ht
    · exact absurd h.symm ht.tokens_ne_nil
    · rfl

/-- A text is cut in one way only, and the tokens determine the statement. -/
theorem eq_of_render {s t : Statement} (hs : s.Plain) (ht : t.Plain) (h : s.render = t.render) :
    s = t := by
  obtain ⟨text, hwritten, hscans⟩ := hs.exists_prints
  obtain ⟨text', hwritten', hscans'⟩ := ht.exists_prints
  rw [render, render, hwritten, hwritten', String.empty_append, String.empty_append] at h
  obtain rfl : text = text' := Except.ok.inj h
  obtain ⟨lexemes, location, htokenize, htokens⟩ := tokenize_of_scans hscans
  obtain ⟨lexemes', location', htokenize', htokens'⟩ := tokenize_of_scans hscans'
  rw [htokenize] at htokenize'
  have hlexemes := List.append_inj_left' (Except.ok.inj htokenize') rfl
  apply hs.eq_of_tokens ht
  rw [← htokens, ← htokens', hlexemes]

end Statement.Plain

theorem Sentence.exists_plain (sentence : Sentence)
    (h : ∀ lexeme ∈ sentence.lexemes, lexeme.token.Proper) :
    ∃ s, sentence.tree.Same s ∧ s.Plain := by
  cases sentence with
  | letBinding keyword hk name hn sign hs value terminator =>
    simp only [lexemes, List.forall_mem_cons, List.forall_mem_append] at h
    obtain ⟨hkeyword, hname, -, hvalue, -⟩ := h
    obtain ⟨e, hve, he⟩ := value.exists_canonical hvalue
    obtain ⟨word, hword, hw⟩ := hname.exists_name hn
    have hkind : keyword.token.kind = .letKeyword := hk
    have hm : (keyword.token.kind, "let") ∈ fixedTokens := hkind ▸ by decide
    refine ⟨_, .letBinding hve, .inl ?_⟩
    rw [hkeyword.eq_of_fixed hm, hkind, hword]
    exact .letBinding hw he
  | returnValue keyword hk value terminator =>
    have hkind : keyword.token.kind = .returnKeyword := hk
    have hm : (keyword.token.kind, "return") ∈ fixedTokens := hkind ▸ by decide
    have hkeyword := (h keyword List.mem_cons_self).eq_of_fixed hm
    rw [hkind] at hkeyword
    cases value with
    | none =>
      refine ⟨_, .returnNothing, .inl ?_⟩
      rw [hkeyword]
      exact .returnNothing
    | some value =>
      obtain ⟨e, hve, he⟩ := value.exists_canonical fun lexeme hl =>
        h lexeme (List.mem_cons_of_mem _ (List.mem_append_left _ hl))
      refine ⟨_, .returnValue hve, .inl ?_⟩
      rw [hkeyword]
      exact .returnValue he
  | expression value terminator =>
    obtain ⟨e, hve, he⟩ := value.exists_canonical fun lexeme hl =>
      h lexeme (List.mem_append_left _ hl)
    exact ⟨_, .expression hve, .inl (.expression he (List.head?_eq_some_head he.tokens_ne_nil))⟩
  | empty semicolon hs => exact ⟨_, .empty, .inr rfl⟩

theorem exists_tokenize_of_parse {source : String} {program : Program}
    (h : parse source = .ok program) :
    ∃ lexemes, tokenize source = .ok lexemes ∧ (Parser.ofLexemes lexemes).read.1 = program := by
  cases ht : tokenize source with
  | error d =>
    simp [parse, Reading.ofSource, Parser.ofSource, ht, Except.map] at h
  | ok lexemes =>
    refine ⟨lexemes, rfl, ?_⟩
    rw [parse_of_tokenize ht] at h
    split at h
    · exact Except.ok.inj h
    · cases h

theorem exists_plain_of_parse {source : String} {program : Program} {s : Statement}
    (h : parse source = .ok program) (hs : s ∈ program.statements) :
    ∃ t, s.Same t ∧ t.Plain := by
  obtain ⟨lexemes, htokenize, rfl⟩ := exists_tokenize_of_parse h
  obtain ⟨c, d, hc, hy⟩ := Parser.exists_yields hs
  obtain ⟨sentence, ⟨last, rest, hrest, -⟩, rfl⟩ := Cursor.derives_statement hy
  apply sentence.exists_plain
  intro lexeme hm
  apply proper_of_tokenize htokenize lexeme
  · apply hc.rest.subset
    rw [hrest]
    exact List.mem_append_left _ hm
  · exact decide_eq_false (sentence.kind_ne_eof lexeme hm)

/-- Statements of two texts that are written alike are alike, whatever their height: only integers
may be spelled in other ways, and expression statements keep other tokens. -/
theorem Statement.same_of_render_eq {source source' : String} {program program' : Program}
    {s s' : Statement} (h : parse source = .ok program) (h' : parse source' = .ok program')
    (hs : s ∈ program.statements) (hs' : s' ∈ program'.statements)
    (hr : s.render = s'.render) : s.Same s' := by
  obtain ⟨t, hst, ht⟩ := exists_plain_of_parse h hs
  obtain ⟨t', hst', ht'⟩ := exists_plain_of_parse h' hs'
  rw [render, render, hst.writeTo_eq, hst'.writeTo_eq] at hr
  obtain rfl := ht.eq_of_render ht' hr
  exact hst.trans hst'.symm

theorem Statement.same_of_render_eq_zeros :
    let program (text : String) (first : Token) : Program :=
      ⟨[.expression first (some (.unary ⟨.minus, .text "-"⟩ "-"
        (.integer ⟨.integer, .text text⟩ (some 7))))]⟩
    let minus : Token := ⟨.minus, .text "-"⟩
    parse "-007" = .ok (program "007" minus) ∧ parse "(-7);" = .ok (program "7" .opening) ∧
      ∀ s ∈ (program "007" minus).statements, ∀ t ∈ (program "7" .opening).statements,
        s.render = t.render ∧ s.Same t := by
  intro program minus
  have h : parse "-007" = .ok (program "007" minus) := by decide +kernel
  have h' : parse "(-7);" = .ok (program "7" .opening) := by decide +kernel
  refine ⟨h, h', fun s hs t ht => ?_⟩
  have hr : s.render = t.render := by
    rw [List.mem_singleton.mp hs, List.mem_singleton.mp ht]
    rfl
  exact ⟨hr, Statement.same_of_render_eq h h' hs ht hr⟩

end MonkeyFrontend
