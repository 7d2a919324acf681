namespace MonkeyFrontend

/-- A place in a source text. Lines and columns are counted from one, columns in characters. -/
structure Location where
  line : Nat
  column : Nat
deriving DecidableEq, Repr

namespace Location

def start : Location := ⟨1, 1⟩

/-- The place of an end that follows no token at all. -/
def nowhere : Location := ⟨0, 0⟩

def step (l : Location) (c : Char) : Location :=
  if c = '\n' then ⟨l.line + 1, 1⟩ else ⟨l.line, l.column + 1⟩

def after (l : Location) (text : List Char) : Location :=
  text.foldl step l

@[simp]
theorem after_nil (l : Location) : l.after [] = l := rfl

@[simp]
theorem after_cons (l : Location) (c : Char) (cs : List Char) :
    l.after (c :: cs) = (l.step c).after cs := rfl

@[simp]
theorem after_append (l : Location) (cs ds : List Char) :
    l.after (cs ++ ds) = (l.after cs).after ds := by
  simp [after, List.foldl_append]

theorem after_of_no_newline (l : Location) (cs : List Char) (h : '\n' ∉ cs) :
    l.after cs = ⟨l.line, l.column + cs.length⟩ := by
  induction cs generalizing l with
  | nil => rfl
  | cons c cs ih =>
      have hc : c ≠ '\n' := fun he => h (by simp [he])
      have hcs : '\n' ∉ cs := fun hm => h (List.mem_cons_of_mem c hm)
      rw [after_cons, ih _ hcs]
      simp [step, hc]
      omega

end Location

end MonkeyFrontend
