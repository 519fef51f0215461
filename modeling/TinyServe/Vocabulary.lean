import Mathlib.Data.Rat.Defs

set_option autoImplicit false

namespace TinyServe

/-- A vocabulary index, as the tokenizer hands it out. -/
abbrev Token := ℤ
/-- A concurrency slot of the llama context; `-1` stands for none. -/
abbrev SeqId := ℤ
/-- A uuid4, of which only equality is used. -/
abbrev RequestId := ℕ
/-- A reading of `time.monotonic()`, or a difference of two. -/
abbrev Time := ℚ

/-- The exceptions the modelled code can raise. -/
inductive PyError where
  | keyError
  | indexError
  | valueError
  | zeroDivisionError
  | overflowError
  deriving DecidableEq

/-- Python's `xs[i:j]` for non-negative bounds. -/
def slice {α : Type} (xs : List α) (i j : ℕ) : List α := (xs.take j).drop i

end TinyServe
