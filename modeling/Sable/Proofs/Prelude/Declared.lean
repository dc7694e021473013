import Sable.Proofs.Prelude.Text
import Sable.Program.Validation

/-! The types that the prelude declares builtins with.

They are those that the builtins are expected to have, up to the names of parameters. -/
namespace Sable

/-- The type of a function without a body, by its name. -/
def Program.externalType? (p : Program) (name : String) : Option Ty :=
  match p.function? name with
  | some (.function _ _ s none) => s.result.map (.function s.typeVariables s.arguments)
  | _ => none

namespace Prelude

/-- The prelude as a program by itself. -/
def program? : Option Program := (Program.ofSource (prepend "return null")).toOption

/-- The type that the prelude declares a builtin with. -/
def declared? (b : Builtin) : Option Ty := program?.bind (·.externalType? b.name)

/-- The program declares the builtin with the type that is expected of it. -/
def declaresExpected (p : Program) (b : Builtin) : Bool :=
  match p.externalType? b.name, b.type? (typeVariables b) with
  | some type, some own => type.same own
  | _, _ => false

theorem declaresExpected_all : program?.map (Builtin.all.all <| declaresExpected ·) = some true := by
  unfold program?
  rw [Program.ofSource, parse, scan, prepend]
  unfold text
  repeat rw [String.toList_append]
  repeat rw [String.toList_ofList]
  decide +kernel

theorem exists_declared? (b : Builtin) : ∃ type own, declared? b = some type ∧
    b.type? (typeVariables b) = some own ∧ type.same own = true := by
  obtain ⟨p, hp, hall⟩ := Option.map_eq_some_iff.mp declaresExpected_all
  have hb : declaresExpected p b = true := List.all_eq_true.mp hall b (by cases b <;> decide)
  unfold declaresExpected at hb
  split at hb
  · rename_i type own htype hown
    exact ⟨type, own, by rw [declared?, hp, Option.bind_some, htype], hown, hb⟩
  · cases hb

end Prelude

end Sable
