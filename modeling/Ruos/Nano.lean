/-! The text of the `nano` editor (`nano/src/main.rs`). A file is its characters, which are encoded in UTF-8. -/
namespace Ruos.Nano

open List

structure Editor where
  lines : List (List Char)
  curLine : Nat
  curCol : Nat
  topLine : Nat
  modified : Bool

namespace Editor

def new (content : List Char) : Editor :=
  let lines := if content = [] then [[]] else content.splitOn '\n'
  ⟨if 1 < lines.length ∧ lines.getLast? = some [] then lines.dropLast else lines, 0, 0, 0, false⟩

end Editor

end Ruos.Nano
