import MonkeyFrontend.Tree.Write
import MonkeyFrontend.Proofs.Lexeme.Spelling

namespace MonkeyFrontend

def unaryOperators : List (TokenKind × String) := [(.bang, "!"), (.minus, "-")]

def binaryOperators : List (TokenKind × String) :=
  [(.plus, "+"), (.minus, "-"), (.asterisk, "*"), (.slash, "/"), (.lt, "<"), (.gt, ">"),
    (.eq, "=="), (.notEq, "!=")]

def Token.opening : Token := ⟨.lparen, .text "("⟩

def Token.closing : Token := ⟨.rparen, .text ")"⟩

def Token.sign : Token := ⟨.assign, .text "="⟩

def Token.semicolon : Token := ⟨.semicolon, .text ";"⟩

namespace Expression

inductive Canonical : Expression → Prop where
  | identifier {word : String} (h : IsName word) :
      Canonical (.identifier ⟨⟨.identifier, .text word⟩, .text word⟩)
  | integer {value : Int64} (h : 0 ≤ value.toInt) :
      Canonical (.integer ⟨.integer, .text (Numeral.write value)⟩ (some value))
  | trueKeyword : Canonical (.boolean ⟨.trueKeyword, .text "true"⟩ true)
  | falseKeyword : Canonical (.boolean ⟨.falseKeyword, .text "false"⟩ false)
  | unary {kind : TokenKind} {operator : String} {right : Expression}
      (h : (kind, operator) ∈ unaryOperators) (hr : Canonical right) :
      Canonical (.unary ⟨kind, .text operator⟩ operator right)
  | binary {kind : TokenKind} {operator : String} {left right : Expression}
      (h : (kind, operator) ∈ binaryOperators) (hl : Canonical left) (hr : Canonical right) :
      Canonical (.binary ⟨kind, .text operator⟩ operator left right)

def tokens : Expression → List Token
  | identifier name => [name.token]
  | integer token _ => [token]
  | boolean token _ => [token]
  | unary token _ right => .opening :: token :: (right.tokens ++ [.closing])
  | unaryOpen _ _ => []
  | binary token _ left right =>
    .opening :: (left.tokens ++ token :: (right.tokens ++ [.closing]))
  | binaryOpen _ _ _ => []

/-- How many levels reading the written tree takes. -/
def need : Expression → Nat
  | identifier _ => 1
  | integer _ _ => 1
  | boolean _ _ => 1
  | unary _ _ right => 2 + right.need
  | unaryOpen _ _ => 1
  | binary _ _ left right => max (1 + left.need) (3 + right.need)
  | binaryOpen _ _ _ => 1

end Expression

/-- A writing that leaves a text which is cut into tokens again, if no word goes on after it. -/
structure Prints (write : String → Written) (tokens : List Token) (text : String) : Prop where
  written : ∀ buffer, write buffer = .full (buffer ++ text)
  start : ∃ c cs, text.toList = c :: cs ∧ c ≠ '='
  scans : ∀ rest, (∀ d ∈ rest.head?, ¬ IsWordPart d) → Scans text.toList tokens rest

theorem unaryOperators_subset : unaryOperators ⊆ fixedTokens := by decide

theorem binaryOperators_subset : binaryOperators ⊆ fixedTokens := by decide

theorem Spelling.of_nonneg {value : Int64} (h : 0 ≤ value.toInt) :
    Spelling .integer (Numeral.write value).toList := by
  rw [Numeral.toList_write_of_nonneg (by omega)]
  refine .number Nat.toDigits_ne_nil fun d hd => isDigit_iff.mp ?_
  exact Nat.isDigit_of_mem_toDigits (by omega) (by omega) hd

theorem Spelling.start_ne {kind : TokenKind} {c : Char} {cs : List Char}
    (h : Spelling kind (c :: cs)) (ha : kind ≠ .assign) (he : kind ≠ .eq) : c ≠ '=' := by
  rintro rfl
  cases h with
  | name h =>
    obtain ⟨c, cs, hcons, hc, -⟩ := h.exists_cons
    cases hcons
    exact absurd hc (by decide)
  | number hne h => exact absurd (h _ List.mem_cons_self) (by decide)
  | fixed h =>
    have hfixed : ∀ entry ∈ fixedTokens, entry.1 ≠ .assign → entry.1 ≠ .eq →
        entry.2.toList.head? ≠ some '=' := by decide
    apply hfixed _ h ha he
    rw [String.toList_ofList]
    rfl

theorem Prints.token {kind : TokenKind} (text : String) (h : Spelling kind text.toList)
    (ha : kind ≠ .assign) (he : kind ≠ .eq)
    (hk : ∀ d, ¬ IsWordPart d → kind.clings d = false) :
    Prints (fun buffer => .full (buffer ++ text)) [⟨kind, .text text⟩] text := by
  refine ⟨fun buffer => rfl, ?_, ?_⟩
  · cases ht : text.toList with
    | nil => exact absurd ht h.ne_nil
    | cons c cs =>
      rw [ht] at h
      exact ⟨c, cs, rfl, h.start_ne ha he⟩
  · intro rest hr
    exact Scans.token text h fun d hd => hk d (hr d hd)

theorem clings_of_unaryOperator {d : Char} (hd : d ≠ '=') :
    ∀ entry ∈ unaryOperators, entry.1.clings d = false := by
  simp only [unaryOperators, List.forall_mem_cons]
  refine ⟨?_, rfl, by simp⟩
  simpa [TokenKind.clings] using hd

theorem clings_of_binaryOperator (d : Char) :
    ∀ entry ∈ binaryOperators, entry.1.clings d = false := by
  simp only [binaryOperators, List.forall_mem_cons]
  exact ⟨rfl, rfl, rfl, rfl, rfl, rfl, rfl, rfl, by simp⟩

theorem Scans.opening (rest : List Char) : Scans "(".toList [.opening] rest :=
  Scans.token "(" (.of_fixed (by decide)) fun _ _ => rfl

theorem Scans.closing (rest : List Char) : Scans ")".toList [.closing] rest :=
  Scans.token ")" (.of_fixed (by decide)) fun _ _ => rfl

theorem Scans.space (rest : List Char) : Scans " ".toList [] rest :=
  Scans.blank (by decide) rest

theorem head?_of_cons {c : Char} (hc : ¬ IsWordPart c) (cs : List Char) :
    ∀ d ∈ (c :: cs).head?, ¬ IsWordPart d := by
  intro d hd
  cases hd
  exact hc

theorem Scans.word (kind : TokenKind) (text : String) (h : Spelling kind text.toList)
    (hk : kind.clings = fun c => decide (IsWordPart c)) {rest : List Char}
    (hr : ∀ d ∈ rest.head?, ¬ IsWordPart d) : Scans text.toList [⟨kind, .text text⟩] rest := by
  apply Scans.token text h
  rw [hk]
  exact fun d hd => decide_eq_false (hr d hd)

namespace Expression

theorem exists_prints {e : Expression} (h : e.Canonical) :
    ∃ text, Prints e.writeTo e.tokens text := by
  induction h with
  | @identifier word h =>
    exact ⟨word, Prints.token word (.of_isName h) (by decide) (by decide) fun _ hd =>
      decide_eq_false hd⟩
  | @integer value h =>
    exact ⟨Numeral.write value, Prints.token _ (.of_nonneg h) (by decide) (by decide) fun _ hd =>
      decide_eq_false fun hdigit => hd (.inr hdigit)⟩
  | trueKeyword =>
    exact ⟨"true", Prints.token "true" (.of_fixed (by decide)) (by decide) (by decide) fun _ hd =>
      decide_eq_false hd⟩
  | falseKeyword =>
    exact ⟨"false", Prints.token "false" (.of_fixed (by decide)) (by decide) (by decide) fun _ hd =>
      decide_eq_false hd⟩
  | @unary kind operator right h hr ih =>
    obtain ⟨text, hp⟩ := ih
    obtain ⟨c, cs, htext, hc⟩ := hp.start
    refine ⟨"(" ++ (operator ++ (text ++ ")")), ?_, ?_, ?_⟩
    · intro buffer
      rw [writeTo, hp.written]
      simp only [Written.full_andThen, String.append_assoc]
    · exact ⟨'(', (operator ++ (text ++ ")")).toList, String.toList_append, by decide⟩
    · intro rest hrest
      have hright := (hp.scans _ (head?_of_cons (by decide) _)).append (Scans.closing rest)
      have hoperator : Scans operator.toList [⟨kind, .text operator⟩]
          ((text.toList ++ ")".toList) ++ rest) := by
        apply Scans.token operator (.of_fixed (unaryOperators_subset h))
        rw [htext]
        rintro d ⟨⟩
        exact clings_of_unaryOperator hc _ h
      simp only [String.toList_append]
      exact (Scans.opening _).append (hoperator.append hright)
  | @binary kind operator left right h hl hr ihl ihr =>
    obtain ⟨textl, hpl⟩ := ihl
    obtain ⟨textr, hpr⟩ := ihr
    refine ⟨"(" ++ (textl ++ (" " ++ (operator ++ (" " ++ (textr ++ ")"))))), ?_, ?_, ?_⟩
    · intro buffer
      rw [writeTo, hpl.written, Written.full_andThen, hpr.written]
      simp only [Written.full_andThen, String.append_assoc]
    · exact ⟨'(', _, String.toList_append, by decide⟩
    · intro rest hrest
      have hright := (hpr.scans _ (head?_of_cons (by decide) _)).append (Scans.closing rest)
      have hoperator := (Scans.token operator (.of_fixed (binaryOperators_subset h))
        fun d _ => clings_of_binaryOperator d _ h).append ((Scans.space _).append hright)
      have hleft := (hpl.scans _ (head?_of_cons (by decide) _)).append
        ((Scans.space _).append hoperator)
      simp only [String.toList_append]
      exact (Scans.opening _).append hleft

end Expression

theorem Scans.semicolon (rest : List Char) : Scans ";".toList [.semicolon] rest :=
  Scans.token ";" (.of_fixed (by decide)) fun _ _ => rfl

theorem Scans.sign (rest : List Char) : Scans " = ".toList [.sign] rest := by
  have hspace := Scans.space rest
  have hsign : Scans "=".toList [.sign] (" ".toList ++ rest) := by
    apply Scans.token "=" (.of_fixed (by decide))
    rintro d ⟨⟩
    rfl
  exact (Scans.space _).append (hsign.append hspace)

namespace Statement

/-- A statement whose tokens are those that it is written with. An expression statement keeps the
first of them. -/
inductive Canonical : Statement → Prop where
  | letBinding {word : String} {value : Expression} (h : IsName word) (hv : value.Canonical) :
      Canonical (.letBinding ⟨.letKeyword, .text "let"⟩ ⟨⟨.identifier, .text word⟩, .text word⟩
        (some value))
  | returnNothing : Canonical (.returnValue ⟨.returnKeyword, .text "return"⟩ none)
  | returnValue {value : Expression} (hv : value.Canonical) :
      Canonical (.returnValue ⟨.returnKeyword, .text "return"⟩ (some value))
  | expression {token : Token} {value : Expression} (hv : value.Canonical)
      (h : value.tokens.head? = some token) : Canonical (.expression token (some value))

def tokens : Statement → List Token
  | letBinding token name value =>
    token :: name.token :: .sign :: ((value.map Expression.tokens).getD [] ++ [.semicolon])
  | returnValue token value => token :: ((value.map Expression.tokens).getD [] ++ [.semicolon])
  | expression _ value => (value.map Expression.tokens).getD []

theorem exists_prints {s : Statement} (h : s.Canonical) :
    ∃ text : String, (∀ buffer, s.writeTo buffer = .full (buffer ++ text)) ∧
      ∀ rest, (s.kind = .expressionStatement → ∀ d ∈ rest.head?, ¬ IsWordPart d) →
        Scans text.toList s.tokens rest := by
  cases h with
  | @letBinding word value h hv =>
    obtain ⟨text, hp⟩ := Expression.exists_prints hv
    refine ⟨"let" ++ (" " ++ (word ++ (" = " ++ (text ++ ";")))), ?_, ?_⟩
    · intro buffer
      rw [writeTo, hp.written]
      simp only [Written.full_andThen, String.append_assoc, Literal.render]
    · intro rest _
      have hvalue := (hp.scans _ (head?_of_cons (by decide) _)).append (Scans.semicolon rest)
      have hname := (Scans.word .identifier word (.of_isName h) rfl
        (head?_of_cons (by decide) _)).append ((Scans.sign _).append hvalue)
      simp only [String.toList_append]
      exact (Scans.word .letKeyword "let" (.of_fixed (by decide)) rfl
        (head?_of_cons (by decide) _)).append ((Scans.space _).append hname)
  | returnNothing =>
    refine ⟨"return" ++ ";", ?_, ?_⟩
    · intro buffer
      simp only [writeTo, String.append_assoc, Literal.render]
    · intro rest _
      rw [String.toList_append]
      exact (Scans.word .returnKeyword "return" (.of_fixed (by decide)) rfl
        (head?_of_cons (by decide) _)).append (Scans.semicolon rest)
  | @returnValue value hv =>
    obtain ⟨text, hp⟩ := Expression.exists_prints hv
    refine ⟨"return" ++ (" " ++ (text ++ ";")), ?_, ?_⟩
    · intro buffer
      rw [writeTo, hp.written]
      simp only [Written.full_andThen, String.append_assoc, Literal.render]
    · intro rest _
      have hvalue := (hp.scans _ (head?_of_cons (by decide) _)).append (Scans.semicolon rest)
      simp only [String.toList_append]
      exact (Scans.word .returnKeyword "return" (.of_fixed (by decide)) rfl
        (head?_of_cons (by decide) _)).append ((Scans.space _).append hvalue)
  | @expression token value hv h =>
    obtain ⟨text, hp⟩ := Expression.exists_prints hv
    exact ⟨text, hp.written, fun rest hr => hp.scans rest (hr rfl)⟩

end Statement

/-- A program of canonical statements. Nothing tells an expression statement from what follows, so
that it can only be the last. -/
structure Program.Canonical (program : Program) : Prop where
  statements : ∀ s ∈ program.statements, s.Canonical
  separated : ∀ s ∈ program.statements.dropLast, s.kind ≠ .expressionStatement

theorem Program.exists_prints {statements : List Statement}
    (h : (Program.mk statements).Canonical) :
    ∃ text : String, (∀ buffer, (Program.mk statements).writeTo buffer = .full (buffer ++ text)) ∧
      Scans text.toList (statements.flatMap Statement.tokens) [] := by
  induction statements with
  | nil => exact ⟨"", fun buffer => by simp [writeTo], .nil []⟩
  | cons s rest ih =>
    obtain ⟨text, hwritten, hscans⟩ := Statement.exists_prints (h.statements s (by simp))
    cases rest with
    | nil =>
      refine ⟨text, hwritten, ?_⟩
      rw [List.flatMap_singleton]
      exact hscans [] fun _ d hd => by cases hd
    | cons s' rest =>
      have hs : s.kind ≠ .expressionStatement := h.separated s (by simp)
      obtain ⟨text', hwritten', hscans'⟩ := ih ⟨fun r hr => h.statements r (by simp [hr]),
        fun r hr => h.separated r (by simp [hr])⟩
      refine ⟨text ++ text', ?_, ?_⟩
      · intro buffer
        have hfirst : (Program.mk (s :: s' :: rest)).writeTo buffer =
            (Program.mk (s' :: rest)).writeTo (buffer ++ text) := by
          rw [writeTo, List.foldl_cons, Written.full_andThen, hwritten, writeTo]
        rw [hfirst, hwritten', String.append_assoc]
      · rw [List.flatMap_cons, String.toList_append]
        exact (hscans _ fun hk => absurd hk hs).append hscans'

end MonkeyFrontend
