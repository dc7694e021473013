import Sable.Proofs.Reader.Bodies

/-! Reading a source text: there is no error exactly where the grammar has a tree for the tokens, and the tree
that is read is one of these. -/
namespace Sable

open Grammar

namespace Reader

variable {s : State}

theorem run_program (s : State) : program s = match body s with
    | (some b, t) => if t.tokens = [] then (some b, t) else (some b, (report .trailing t).2)
    | (none, t) => (none, t) := by
  simp only [program, run_bind]
  match body s with
  | (none, t) => rfl
  | (some b, t) =>
      unfold State.tokens
      cases hrest : t.rest with
      | nil =>
          simp only [peek, hrest]
          rfl
      | cons first rest =>
          simp only [peek, hrest, List.map_cons, reduceCtorEq, if_false]
          rfl

/-- A program that is read without an error is a phrase of the grammar from its first token to its last. -/
theorem program_sound (h : (program s).2.errors.size = s.errors.size) :
    ∃ b, (program s).1 = some b ∧ BodyPhrase s.tokens b := by
  obtain ⟨⟨herrors, hfailed⟩, hread⟩ := reads_body s
  rw [run_program] at h ⊢
  match hbody : body s with
  | (none, t) =>
      rw [hbody] at h hfailed
      exact absurd h (Nat.ne_of_gt (hfailed rfl))
  | (some b, t) =>
      rw [hbody] at h herrors hread
      by_cases ht : t.tokens = []
      · simp only [ht, if_true] at h ⊢
        obtain ⟨xs, htokens, hb⟩ := hread b rfl h
        refine ⟨b, rfl, ?_⟩
        rw [htokens, ht, List.append_nil]
        exact hb
      · simp only [ht, if_false, report, Array.size_push] at h
        exact absurd h (Nat.ne_of_gt (Nat.lt_succ_of_le herrors))

/-- A phrase of the grammar is read without an error. -/
theorem program_complete {b : Body} (h : BodyPhrase s.tokens b) : (program s).2.errors = s.errors := by
  have hend : BodyEnd [] := .inl rfl
  obtain ⟨b', t, hbody, herrors, -, ht⟩ :=
    takes_body hend s s.tokens [] b (Nat.le_refl _) (List.append_nil _).symm h rfl
  rw [run_program, hbody]
  simp only [ht, if_true]
  exact herrors

end Reader

namespace Parse

variable {tokens : List (Spanned Token)}

theorem errors_ofTokens :
    (ofTokens tokens).errors = (Reader.program (.start tokens)).2.errors.toList := by
  unfold ofTokens
  split <;> simp [*]

theorem body_ofTokens {b : Body} (h : (Reader.program (.start tokens)).1 = some b) :
    (ofTokens tokens).tree.body = b := by
  unfold ofTokens
  split
  · rename_i hrun
    rw [hrun] at h
    exact Option.some.inj h
  · rename_i hrun
    rw [hrun] at h
    cases h

/-- Tokens are read without an error exactly if the grammar has a tree for them. -/
theorem errors_ofTokens_eq_nil_iff :
    (ofTokens tokens).errors = [] ↔ ∃ b, BodyPhrase (tokens.map (·.value)) b := by
  rw [errors_ofTokens, Array.toList_eq_nil_iff]
  constructor
  · intro h
    obtain ⟨b, -, hb⟩ := Reader.program_sound (congrArg Array.size h)
    exact ⟨b, hb⟩
  · rintro ⟨b, hb⟩
    exact Reader.program_complete (s := .start tokens) hb

/-- What is read without an error is a tree of the grammar for the tokens. -/
theorem bodyPhrase_ofTokens (h : (ofTokens tokens).errors = []) :
    BodyPhrase (tokens.map (·.value)) (ofTokens tokens).tree.body := by
  rw [errors_ofTokens, Array.toList_eq_nil_iff] at h
  obtain ⟨b, hread, hb⟩ := Reader.program_sound (congrArg Array.size h)
  rw [body_ofTokens hread]
  exact hb

end Parse

/-- A source text whose characters all belong to tokens is read without an error exactly if the grammar has a
tree for its tokens, and then the tree that is read is one of the grammar's. -/
theorem parse_eq_nil_iff_bodyPhrase {source : String} (h : (scan source).unexpected = []) :
    ((parse source).errors = [] ↔ ∃ b, BodyPhrase ((scan source).tokens.map (·.value)) b) ∧
      ((parse source).errors = [] →
        BodyPhrase ((scan source).tokens.map (·.value)) (parse source).tree.body) := by
  have herrors : (parse source).errors = (Parse.ofTokens (scan source).tokens).errors := by
    simp [parse, h]
  rw [herrors]
  exact ⟨Parse.errors_ofTokens_eq_nil_iff, Parse.bodyPhrase_ofTokens⟩

/-- A trailing comma, a function type before a question mark, and an expression with an operator behind it in
the place of an operand. -/
def fitSource : String :=
  "def fit[A](size: Number, next: (x: A) -> A?,) = if size < 3 then 1 else next(1, 2,).size + 1 < size\n" ++
  "return match fit { some f => f # kept is kept, none x => -x * 2 }"

theorem parse_eq_nil_iff_bodyPhrase_fit : (scan fitSource).unexpected = [] ∧
    ((parse fitSource).errors = [] ↔ ∃ b, BodyPhrase ((scan fitSource).tokens.map (·.value)) b) ∧
      (parse fitSource).errors = [] ∧
        BodyPhrase ((scan fitSource).tokens.map (·.value)) (parse fitSource).tree.body := by
  have hscan : (scan fitSource).unexpected = [] := by decide +kernel
  have hparse : (parse fitSource).errors = [] := by decide +kernel
  obtain ⟨hiff, htree⟩ := parse_eq_nil_iff_bodyPhrase hscan
  exact ⟨hscan, hiff, hparse, htree hparse⟩

end Sable
