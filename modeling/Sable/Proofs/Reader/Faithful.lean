import Sable.Proofs.Reader.Named

/-! The dumps of source texts: they tell the trees that are read, apart from where their parts stand and from three
pairs of forms that are dumped alike. -/
namespace Sable

/-- Source texts that are read without an error have one dump exactly if their trees have one outline, once a call
`tag(x, T)` is taken for `x # T`, a type `Nullable[T]` for `T?` and a number that is written like a name for the
name. -/
theorem dump_parse_eq_iff {source other : String} (h : (parse source).errors = []) (h' : (parse other).errors = []) :
    (parse source).tree.dump = (parse other).tree.dump ↔
      (parse source).tree.body.outline true = (parse other).tree.body.outline true :=
  Body.dump_eq_iff (spelled_parse h) (spelled_parse h')

theorem dump_parse_eq_iff_pairs :
    let source := "def f(x: Number?) = -x(y # kept)\nreturn f"
    let other := "; the same dump\ndef f(x: Nullable[Number],) = (-x(tag(y, kept)))\nreturn (f)"
    ((parse source).errors = [] ∧ (parse other).errors = []) ∧
      (parse source).tree.dump =
        "(def f ((x : (Nullable Number)))\n  (return (- (x (tag y kept))))\n)\n(return f)\n" ∧
      (parse source).tree.dump = (parse other).tree.dump ∧
      (parse source).tree.body.outline true = (parse other).tree.body.outline true := by
  intro source other
  have herrors : (parse source).errors = [] := by decide +kernel
  have herrors' : (parse other).errors = [] := by decide +kernel
  have hdump : (parse source).tree.dump = (parse other).tree.dump := by decide +kernel
  exact ⟨⟨herrors, herrors'⟩, by decide +kernel, hdump, (dump_parse_eq_iff herrors herrors').mp hdump⟩

def Expr.isCall : Expr → Bool
  | call .. => true
  | _ => false

/-- Trees that differ in more than places may have one dump. -/
theorem not_outline_eq_of_dump_eq : ¬ ∀ source other : String, (parse source).errors = [] → (parse other).errors = [] →
    (parse source).tree.dump = (parse other).tree.dump →
      (parse source).tree.body.outline false = (parse other).tree.body.outline false := by
  intro h
  have houtline := h "return x # y" "return tag(x, y)" (by decide +kernel) (by decide +kernel) (by decide +kernel)
  have hcall := congrArg (fun b => b.result.isCall) houtline
  exact absurd hcall (by decide +kernel)

end Sable
