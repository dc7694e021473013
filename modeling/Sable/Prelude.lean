/-! The prelude: declarations of the builtins, put in front of a program. -/
namespace Sable.Prelude

def text : String :=
  "; Sable prelude: builtins implemented natively by the interpreter.\n" ++
  "; Prepended to every program unless --no-prelude is given.\n\n" ++
  "; Sequences are lazy and can be consumed more than once.\n" ++
  "external def range(from: Number, to: Number): Sequence[Number]\n" ++
  "external def naturals(): Sequence[Number]\n" ++
  "external def filter[A](items: Sequence[A], keep: (item: A) -> Boolean): Sequence[A]\n" ++
  "external def map[A, B](items: Sequence[A], f: (item: A) -> B): Sequence[B]\n" ++
  "external def take[A](items: Sequence[A], count: Number): List[A]\n\n" ++
  "external def list[A](...items: A): List[A]\n" ++
  "external def sequence[A](items: List[A]): Sequence[A]\n" ++
  "external def length[A](items: List[A]): Number\n" ++
  "external def get[A](items: List[A], index: Number): A?\n\n" ++
  "external def sum(...values: Number): Number\n" ++
  "external def bigint(value: Number): BigInteger\n"

/-- Where the user's text begins in a text with the prelude. -/
def offset : Nat := text.utf8ByteSize + 1

/-- A source text with the prelude in front of it, on lines of its own. -/
def prepend (source : String) : String := text ++ "\n" ++ source

end Sable.Prelude
