import MonkeyFrontend.Proofs.Parsing.Acceptance
import MonkeyFrontend.Proofs.Tree.Canonical

namespace MonkeyFrontend

namespace Phrase

theorem exists_group {s : Stratum} (p : Phrase s) {opening closing : Lexeme}
    (ho : opening.token = .opening) (hc : closing.token = .closing) :
    ∃ q : Phrase .primary, q.lexemes = opening :: (p.lexemes ++ [closing]) ∧ q.tree = p.tree ∧
      q.levels = 1 + p.levels ∧ q.spine = 0 := by
  have hopening : opening.kind = .lparen := congrArg Token.kind ho
  have hclosing : closing.kind = .rparen := congrArg Token.kind hc
  have hrank : Stratum.equality.rank ≤ s.rank := by cases s <;> decide
  obtain ⟨inner, hl, ht, hlevels, -⟩ := p.exists_looser hrank
  refine ⟨.group opening hopening inner closing hclosing, ?_, ?_, ?_, rfl⟩
  · rw [lexemes, hl]
  · rw [tree, ht]
  · rw [levels, hlevels]

end Phrase

theorem kind_of_unaryOperator :
    ∀ entry ∈ unaryOperators, entry.1 = .bang ∨ entry.1 = .minus := by
  decide

theorem mem_operators_of_binaryOperator :
    ∀ entry ∈ binaryOperators, entry.1 ∈ (Stratum.joining entry.1.precedence).operators := by
  decide

/-- The lexemes that a canonical tree is written with derive it, in as many levels as it needs. -/
theorem Expression.exists_phrase {e : Expression} (h : e.Canonical) {lexemes : List Lexeme}
    (hl : lexemes.map Lexeme.token = e.tokens) :
    ∃ p : Phrase .primary, p.lexemes = lexemes ∧ p.tree = e ∧ p.levels = e.need ∧ p.spine = 0 := by
  induction h generalizing lexemes with
  | identifier h =>
    obtain ⟨lexeme, rfl, ht⟩ := List.map_eq_singleton_iff.mp hl
    refine ⟨.identifier lexeme (congrArg Token.kind ht), rfl, ?_, rfl, rfl⟩
    simp only [Phrase.tree, ht]
  | @integer value h =>
    obtain ⟨lexeme, rfl, ht⟩ := List.map_eq_singleton_iff.mp hl
    have hv : lexeme.token.literal.integer? = some value := by
      rw [ht]
      exact Numeral.read?_write value
    refine ⟨.integer lexeme value (congrArg Token.kind ht) hv, rfl, ?_, rfl, rfl⟩
    simp only [Phrase.tree, ht]
  | trueKeyword =>
    obtain ⟨lexeme, rfl, ht⟩ := List.map_eq_singleton_iff.mp hl
    refine ⟨.boolean lexeme true (congrArg Token.kind ht), rfl, ?_, rfl, rfl⟩
    simp only [Phrase.tree, ht]
  | falseKeyword =>
    obtain ⟨lexeme, rfl, ht⟩ := List.map_eq_singleton_iff.mp hl
    refine ⟨.boolean lexeme false (congrArg Token.kind ht), rfl, ?_, rfl, rfl⟩
    simp only [Phrase.tree, ht]
  | @unary kind operator right h hr ih =>
    obtain ⟨opening, rest, rfl, ho, hrest⟩ := List.map_eq_cons_iff.mp hl
    obtain ⟨sign, rest, rfl, hs, hrest⟩ := List.map_eq_cons_iff.mp hrest
    obtain ⟨inner, rest, rfl, hinner, hrest⟩ := List.map_eq_append_iff.mp hrest
    obtain ⟨closing, rfl, hc⟩ := List.map_eq_singleton_iff.mp hrest
    obtain ⟨p, rfl, rfl, hlevels, -⟩ := ih hinner
    have hkind : sign.kind = .bang ∨ sign.kind = .minus := by
      rw [Lexeme.kind, hs]
      exact kind_of_unaryOperator _ h
    obtain ⟨q, hq, htree, hdeep, hspine⟩ :=
      Phrase.exists_group (.unary sign hkind (.lone (by decide) p)) ho hc
    refine ⟨q, hq, ?_, ?_, hspine⟩
    · rw [htree, Phrase.tree, hs]
      rfl
    · have hdeep' : q.levels = 1 + (1 + p.levels) := hdeep
      rw [hdeep', hlevels, need]
      omega
  | @binary kind operator left right h _ _ ihl ihr =>
    obtain ⟨opening, rest, rfl, ho, hrest⟩ := List.map_eq_cons_iff.mp hl
    obtain ⟨first, rest, rfl, hfirst, hrest⟩ := List.map_eq_append_iff.mp hrest
    obtain ⟨sign, rest, rfl, hs, hrest⟩ := List.map_eq_cons_iff.mp hrest
    obtain ⟨second, rest, rfl, hsecond, hrest⟩ := List.map_eq_append_iff.mp hrest
    obtain ⟨closing, rfl, hc⟩ := List.map_eq_singleton_iff.mp hrest
    obtain ⟨p, rfl, rfl, hpl, hps⟩ := ihl hfirst
    obtain ⟨q, rfl, rfl, hql, -⟩ := ihr hsecond
    have hmem : sign.kind ∈ (Stratum.joining kind.precedence).operators := by
      rw [Lexeme.kind, hs]
      exact mem_operators_of_binaryOperator _ h
    generalize Stratum.joining kind.precedence = s at hmem
    obtain ⟨p', hp, hpt, hpl', hps'⟩ := p.exists_looser s.rank_le_primary
    obtain ⟨q', hq, hqt, hql', -⟩ := q.exists_looser s.tighter.rank_le_primary
    obtain ⟨r, hr, hrt, hrl, hrs⟩ := Phrase.exists_group (.binary p' sign hmem q') ho hc
    refine ⟨r, ?_, ?_, ?_, hrs⟩
    · rw [hr, Phrase.lexemes, hp, hq]
      simp
    · rw [hrt, Phrase.tree, hpt, hqt, hs]
      rfl
    · rw [hrl, need, Phrase.levels, hpl', hql', hps', hps, hpl, hql]
      omega

/-- A sentence that ends and goes as deep as its statement does when it is written. -/
structure Sentence.Faithful (sentence : Sentence) : Prop where
  terminator : sentence.terminator = none → sentence.tree.kind = .expressionStatement
  levels : sentence.value?.map Phrase.levels = sentence.tree.value?.map Expression.need

theorem Statement.exists_sentence {s : Statement} (h : s.Canonical) {lexemes : List Lexeme}
    (hl : lexemes.map Lexeme.token = s.tokens) :
    ∃ sentence : Sentence, sentence.lexemes = lexemes ∧ sentence.tree = s ∧
      sentence.Faithful := by
  cases h with
  | @letBinding word value h hv =>
    obtain ⟨keyword, rest, rfl, hk, hrest⟩ := List.map_eq_cons_iff.mp hl
    obtain ⟨name, rest, rfl, hn, hrest⟩ := List.map_eq_cons_iff.mp hrest
    obtain ⟨sign, rest, rfl, hs, hrest⟩ := List.map_eq_cons_iff.mp hrest
    obtain ⟨inner, rest, rfl, hinner, hrest⟩ := List.map_eq_append_iff.mp hrest
    obtain ⟨semicolon, rfl, hc⟩ := List.map_eq_singleton_iff.mp hrest
    obtain ⟨p, rfl, rfl, hlevels, -⟩ := Expression.exists_phrase hv hinner
    refine ⟨.letBinding keyword (congrArg Token.kind hk) name (congrArg Token.kind hn) sign
      (congrArg Token.kind hs) p.whole (some ⟨semicolon, congrArg Token.kind hc⟩), rfl, ?_,
      (fun hn => by cases hn), ?_⟩
    · simp only [Sentence.tree, hk, hn, Phrase.tree_whole]
    · simp only [Sentence.value?, Sentence.tree, value?, Option.map_some, Phrase.levels_whole,
        Phrase.tree_whole, hlevels]
  | returnNothing =>
    obtain ⟨keyword, rest, rfl, hk, hrest⟩ := List.map_eq_cons_iff.mp hl
    obtain ⟨semicolon, rfl, hc⟩ := List.map_eq_singleton_iff.mp hrest
    refine ⟨.returnValue keyword (congrArg Token.kind hk) none
      (some ⟨semicolon, congrArg Token.kind hc⟩), rfl, ?_, (fun hn => by cases hn), rfl⟩
    simp only [Sentence.tree, hk, Option.map_none]
  | @returnValue value hv =>
    obtain ⟨keyword, rest, rfl, hk, hrest⟩ := List.map_eq_cons_iff.mp hl
    obtain ⟨inner, rest, rfl, hinner, hrest⟩ := List.map_eq_append_iff.mp hrest
    obtain ⟨semicolon, rfl, hc⟩ := List.map_eq_singleton_iff.mp hrest
    obtain ⟨p, rfl, rfl, hlevels, -⟩ := Expression.exists_phrase hv hinner
    refine ⟨.returnValue keyword (congrArg Token.kind hk) (some p.whole)
      (some ⟨semicolon, congrArg Token.kind hc⟩), rfl, ?_, (fun hn => by cases hn), ?_⟩
    · simp only [Sentence.tree, hk, Option.map_some, Phrase.tree_whole]
    · simp only [Sentence.value?, Sentence.tree, value?, Option.map_some, Phrase.levels_whole,
        Phrase.tree_whole, hlevels]
  | @expression token value hv h =>
    obtain ⟨p, rfl, rfl, hlevels, -⟩ := Expression.exists_phrase hv hl
    have hfirst : p.first.token = token := by
      have hl' : p.lexemes.map Lexeme.token = p.tree.tokens := hl
      rw [← hl', ← p.cons_tail_lexemes] at h
      exact Option.some.inj h
    refine ⟨.expression p.whole none, List.append_nil _, ?_, fun _ => rfl, ?_⟩
    · exact congrArg (Statement.expression · (some p.tree)) hfirst
    · simp only [Sentence.value?, Sentence.tree, value?, Option.map_some, Phrase.levels_whole,
        Phrase.tree_whole, hlevels]

theorem Program.exists_sentences {statements : List Statement}
    (h : ∀ s ∈ statements, s.Canonical) {lexemes : List Lexeme}
    (hl : lexemes.map Lexeme.token = statements.flatMap Statement.tokens) :
    ∃ sentences : List Sentence, sentences.flatMap Sentence.lexemes = lexemes ∧
      sentences.map Sentence.tree = statements ∧ ∀ sentence ∈ sentences, sentence.Faithful := by
  induction statements generalizing lexemes with
  | nil => exact ⟨[], (List.map_eq_nil_iff.mp hl).symm, rfl, by simp⟩
  | cons s statements ih =>
    obtain ⟨first, rest, rfl, hfirst, hrest⟩ := List.map_eq_append_iff.mp hl
    obtain ⟨sentence, rfl, rfl, hf⟩ := Statement.exists_sentence (h s (by simp)) hfirst
    obtain ⟨sentences, rfl, rfl, hall⟩ := ih (fun r hr => h r (by simp [hr])) hrest
    exact ⟨sentence :: sentences, rfl, rfl, List.forall_mem_cons.mpr ⟨hf, hall⟩⟩

theorem Cursor.ofLexemes_finish (lexemes : List Lexeme) (location : Location) :
    ofLexemes (lexemes ++ [.finish location]) = ⟨lexemes ++ [.finish location], location⟩ := by
  simp [ofLexemes, Lexeme.finish]

theorem parse_of_tokenize {source : String} {lexemes : List Lexeme}
    (h : tokenize source = .ok lexemes) :
    parse source =
      match (Cursor.ofLexemes lexemes).segments.flatMap Segment.diagnostics with
      | [] => .ok ⟨(Cursor.ofLexemes lexemes).segments.filterMap Segment.statement⟩
      | diagnostics => .error diagnostics := by
  have hd : Event.diagnostics ([.tokenized source.utf8ByteSize lexemes.length] ++
      (Cursor.ofLexemes lexemes).segments.flatMap Segment.events) =
      (Cursor.ofLexemes lexemes).segments.flatMap Segment.diagnostics := by
    rw [Event.diagnostics_append]
    exact Parser.diagnostics_read lexemes
  simp only [parse, Reading.ofSource, Parser.ofSource, h, Except.map, Parser.read,
    Parser.diagnostics, hd]
  cases (Cursor.ofLexemes lexemes).segments.flatMap Segment.diagnostics <;> rfl

theorem Program.exists_tokenize {program : Program} (h : program.Canonical) :
    ∃ text lexemes location, program.render = .ok text ∧
      tokenize text = .ok (lexemes ++ [.finish location]) ∧
      lexemes.map Lexeme.token = program.statements.flatMap Statement.tokens := by
  obtain ⟨text, hwritten, hscans⟩ := Program.exists_prints h
  obtain ⟨lexemes, location, htokenize, htokens⟩ := tokenize_of_scans hscans
  refine ⟨text, lexemes, location, ?_, htokenize, htokens⟩
  rw [render, hwritten, String.empty_append]
  rfl

theorem Sentence.Faithful.levels_le {sentence : Sentence} (h : sentence.Faithful) {n : Nat}
    (hn : ∀ e ∈ sentence.tree.value?, e.need ≤ n) : ∀ p ∈ sentence.value?, p.levels ≤ n := by
  intro p hp
  have hlevels := h.levels
  rw [hp, Option.map_some] at hlevels
  obtain ⟨e, he, hneed⟩ := Option.map_eq_some_iff.mp hlevels.symm
  exact hneed ▸ hn e he

theorem Program.parse_written {program : Program} (h : program.Canonical)
    (hn : ∀ s ∈ program.statements, ∀ e ∈ s.value?, e.need ≤ 256) :
    ∃ text, program.render = .ok text ∧ parse text = .ok program := by
  obtain ⟨text, lexemes, location, hrender, htokenize, htokens⟩ := exists_tokenize h
  obtain ⟨sentences, rfl, htree, hfaithful⟩ := exists_sentences h.statements htokens
  have hterminated : ∀ sentence ∈ sentences.dropLast, sentence.terminator ≠ none := by
    intro sentence hm hnone
    have hlast : sentence.tree ∈ program.statements.dropLast := by
      rw [← htree, ← List.map_dropLast]
      exact List.mem_map_of_mem hm
    exact h.separated _ hlast ((hfaithful _ (List.dropLast_subset _ hm)).terminator hnone)
  have hlevels : ∀ sentence ∈ sentences, ∀ p ∈ sentence.value?, p.levels ≤ Cursor.levelLimit := by
    intro sentence hm
    apply (hfaithful sentence hm).levels_le
    exact hn sentence.tree (htree ▸ List.mem_map_of_mem hm)
  have hsegments : _ ∧ _ := Cursor.segments_of_sentences sentences [.finish location] location
    hterminated hlevels rfl
  refine ⟨text, hrender, ?_⟩
  rw [parse_of_tokenize htokenize, Cursor.ofLexemes_finish, hsegments.1, hsegments.2, htree]

theorem Statement.parse_written {s : Statement} {e : Expression} (h : s.Canonical)
    (he : s.value? = some e) (hn : 256 < e.need) :
    ∃ text location, s.render = .ok text ∧ parse text = .error [⟨location, .tooDeep⟩] := by
  have hprogram : (Program.mk [s]).Canonical := ⟨by simpa using h, by simp⟩
  obtain ⟨text, lexemes, location, hrender, htokenize, htokens⟩ := Program.exists_tokenize hprogram
  rw [List.flatMap_singleton] at htokens
  obtain ⟨sentence, rfl, rfl, hfaithful⟩ := exists_sentence h htokens
  have hlevels := hfaithful.levels
  rw [he] at hlevels
  obtain ⟨p, hp, hneed⟩ := Option.map_eq_some_iff.mp hlevels
  have hdeep : Cursor.levelLimit < p.levels := hneed ▸ hn
  obtain ⟨place, hdiagnostics⟩ := Cursor.segments_of_overflow hp hdeep location location
  refine ⟨text, place, hrender, ?_⟩
  rw [parse_of_tokenize htokenize, Cursor.ofLexemes_finish, hdiagnostics]

/-- Canonical trees are read back from their texts, as long as none takes more than 256 levels. A
statement that does draws a single diagnostic. -/
theorem parse_render :
    (∀ program : Program, program.Canonical →
      (∀ s ∈ program.statements, ∀ e ∈ s.value?, e.need ≤ 256) →
      ∃ text, program.render = .ok text ∧ parse text = .ok program) ∧
    ∀ (s : Statement) (e : Expression), s.Canonical → s.value? = some e → 256 < e.need →
      ∃ text d, s.render = .ok text ∧ parse text = .error [d] ∧
        d.reason.message = "expression nested too deeply" := by
  refine ⟨fun program h hn => program.parse_written h hn, fun s e h he hn => ?_⟩
  obtain ⟨text, location, hrender, hparse⟩ := s.parse_written h he hn
  exact ⟨text, ⟨location, .tooDeep⟩, hrender, hparse, rfl⟩

def Expression.negated : Nat → Expression
  | 0 => .identifier ⟨⟨.identifier, .text "a"⟩, .text "a"⟩
  | n + 1 => .unary ⟨.minus, .text "-"⟩ "-" (negated n)

theorem IsName.a : IsName "a" := ⟨⟨'a', [], rfl, by decide, by simp⟩, by decide⟩

theorem Expression.Canonical.negated (n : Nat) : (Expression.negated n).Canonical := by
  induction n with
  | zero => exact .identifier .a
  | succ n ih => exact .unary (by decide) ih

theorem Expression.need_negated (n : Nat) : (Expression.negated n).need = 2 * n + 1 := by
  induction n with
  | zero => rfl
  | succ n ih =>
    rw [negated, need, ih]
    omega

theorem parse_render_negated :
    let program : Program :=
      ⟨[.letBinding ⟨.letKeyword, .text "let"⟩ ⟨⟨.identifier, .text "a"⟩, .text "a"⟩
          (some (.negated 1)),
        .returnValue ⟨.returnKeyword, .text "return"⟩ none,
        .expression .opening (some (.negated 1))]⟩
    let deep : Statement := .returnValue ⟨.returnKeyword, .text "return"⟩ (some (.negated 128))
    program.Canonical ∧ parse "let a = (-a);return;(-a)" = .ok program ∧
      deep.Canonical ∧ ∃ text d, deep.render = .ok text ∧ parse text = .error [d] ∧
        d.reason.message = "expression nested too deeply" := by
  intro program deep
  have hprogram : program.Canonical := by
    refine ⟨?_, by decide⟩
    simp only [program, List.forall_mem_cons]
    exact ⟨.letBinding .a (.negated 1), .returnNothing, .expression (.negated 1) rfl, by simp⟩
  have hdeep : deep.Canonical := .returnValue (.negated 128)
  obtain ⟨text, hrender, hparse⟩ := parse_render.1 program hprogram (by decide)
  cases hrender
  refine ⟨hprogram, hparse, hdeep, parse_render.2 deep _ hdeep rfl ?_⟩
  rw [Expression.need_negated]
  omega

end MonkeyFrontend
