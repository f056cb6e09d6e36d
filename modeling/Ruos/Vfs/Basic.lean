import Mathlib

/-! The error codes, open flags and metadata that every file system of the kernel shares (`vfs/error.rs`,
`vfs/file.rs`, `vfs/fs.rs`), and `path::split`. A Rust `str` is a sequence of Unicode scalar values, which is what
`List Char` is. -/
namespace Ruos.Vfs

inductive VfsError where
  | notFound
  | alreadyExists
  | notDirectory
  | isDirectory
  | badFd
  | notPermitted
  | invalidPath
  | invalid
  | closed
  | noSpace
  | ioError
  | unsupported
  | busy
  | other
  deriving DecidableEq, Repr

/-- The four bits of `OpenFlags`; a call passes any combination of them. -/
structure OpenFlags where
  read : Bool
  write : Bool
  create : Bool
  truncate : Bool
  deriving DecidableEq, Repr

inductive Whence where
  | set
  | cur
  | fromEnd
  deriving DecidableEq, Repr

inductive VfsKind where
  | dir
  | reg
  | device
  deriving DecidableEq, Repr

structure VfsStat where
  kind : VfsKind
  size : Nat
  deriving DecidableEq, Repr

/-- The largest size of a `Vec<u8>` or of a slice, `isize::MAX`. -/
def vecMax : Nat := 2 ^ 63 - 1

/-- A `Vec<u8>` or `&[u8]` that a caller can pass. -/
abbrev Buf := { l : List UInt8 // l.length ≤ vecMax }

def Buf.empty : Buf := ⟨[], by decide⟩

/-- A `u64` or `usize` reinterpreted as an `i64`. -/
def asI64 (n : Nat) : Int := if n < 2 ^ 63 then n else n - 2 ^ 64

theorem asI64_of_le {n : Nat} (h : n ≤ vecMax) : asI64 n = n := by
  have hlt : n < 2 ^ 63 := by unfold vecMax at h; omega
  rw [asI64, if_pos hlt]

abbrev Name := List Char

namespace Path

/-- The components that `split` refuses. -/
def isRefused (c : Name) : Bool :=
  c = [] || c = ['.'] || c = ['.', '.']

def split : List Char → Except VfsError (List Name)
  | '/' :: rest =>
    let trimmed := rest.rdropWhile (· = '/')
    if trimmed = [] then .ok []
    else
      let parts := trimmed.splitOn '/'
      if parts.any isRefused then .error .invalidPath else .ok parts
  | _ => .error .invalidPath

example : split "/dev/null/".toList = .ok ["dev".toList, "null".toList] := by decide

end Path

end Ruos.Vfs
