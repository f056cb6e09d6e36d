import Ruos.Lib.Bytes
import Ruos.Vfs.Basic
import Std.Data.ExtTreeMap

/-! The in-RAM file system (`vfs/tmpfs.rs`). An `Arc<Mutex<TmpInode>>` is a node number
into the heap of inodes; a call that holds the locks it needs is one transition. -/
namespace Ruos.Vfs

inductive TmpKind where
  | dir
  | reg
  | devConsole
  | devNull
  | devZero
  | ptySlave (idx : Nat)
  deriving DecidableEq, Repr

abbrev NodeId := Nat

/-- `BTreeMap<String, Arc<..>>`; the keys are ordered by code point, as UTF-8 bytes are. -/
abbrev Children := Std.ExtTreeMap Name NodeId compare

structure TmpInode where
  kind : TmpKind
  children : Children
  content : Buf

def TmpInode.newDir : TmpInode := ⟨.dir, ∅, .empty⟩

def TmpInode.newReg : TmpInode := ⟨.reg, ∅, .empty⟩

/-- The heap below `next` holds the inodes allocated so far. -/
structure Tmpfs where
  heap : NodeId → TmpInode
  next : NodeId
  root : NodeId

def Tmpfs.new : Tmpfs := ⟨fun _ => .newDir, 1, 0⟩

def Tmpfs.setChildren (t : Tmpfs) (i : NodeId) (ch : Children) : Tmpfs :=
  { t with heap := Function.update t.heap i { t.heap i with children := ch } }

def Tmpfs.setContent (t : Tmpfs) (i : NodeId) (content : Buf) : Tmpfs :=
  { t with heap := Function.update t.heap i { t.heap i with content := content } }

def Tmpfs.alloc (t : Tmpfs) (inode : TmpInode) : NodeId × Tmpfs :=
  (t.next, { t with heap := Function.update t.heap t.next inode, next := t.next + 1 })

def Tmpfs.walkFrom (t : Tmpfs) : NodeId → List Name → Except VfsError NodeId
  | cur, [] => .ok cur
  | cur, c :: cs =>
    if (t.heap cur).kind ≠ .dir then .error .notDirectory
    else
      match (t.heap cur).children[c]? with
      | none => .error .notFound
      | some next => t.walkFrom next cs

def Tmpfs.walk (t : Tmpfs) (components : List Name) : Except VfsError NodeId :=
  t.walkFrom t.root components

def Tmpfs.parentAndName (t : Tmpfs) (path : List Name) : Except VfsError (NodeId × Name) :=
  match path.getLast? with
  | none => .error .invalidPath
  | some last => (t.walk path.dropLast).map fun parent => (parent, last)

/-- What a call returns, with the state it leaves behind also on an error. -/
abbrev Tmpfs.Reply (α : Type) := Except VfsError α × Tmpfs

/-- The common body of `mkdir_sync`, `create_file_owned`, `insert_inode` and `create`. -/
def Tmpfs.insertNew (t : Tmpfs) (path : List Name) (inode : TmpInode) : Reply Unit :=
  match t.parentAndName path with
  | .error e => (.error e, t)
  | .ok (parent, name) =>
    if (t.heap parent).kind ≠ .dir then (.error .notDirectory, t)
    else if (t.heap parent).children.contains name then (.error .alreadyExists, t)
    else
      let (i, t') := t.alloc inode
      (.ok (), t'.setChildren parent ((t.heap parent).children.insert name i))

def Tmpfs.mkdirSync (t : Tmpfs) (path : List Name) : Reply Unit := t.insertNew path .newDir

def Tmpfs.createFileOwned (t : Tmpfs) (path : List Name) (content : Buf) : Reply Unit :=
  t.insertNew path ⟨.reg, ∅, content⟩

def Tmpfs.insertInode (t : Tmpfs) (path : List Name) (inode : TmpInode) : Reply Unit :=
  t.insertNew path inode

def Tmpfs.create (t : Tmpfs) (path : List Name) : Reply Unit := t.insertNew path .newReg

def Tmpfs.mkdir (t : Tmpfs) (path : List Name) : Reply Unit := t.mkdirSync path

structure TmpfsFile where
  node : NodeId
  pos : Nat
  deriving DecidableEq, Repr

/-- The part of `FileImpl` that `Tmpfs::open` can return. -/
inductive FileImpl where
  | tmp (file : TmpfsFile)
  | console
  | null
  | zero
  | ptySlave (idx : Nat)
  deriving DecidableEq, Repr

def openNode (node : NodeId) : TmpKind → Except VfsError FileImpl
  | .dir => .error .isDirectory
  | .reg => .ok (.tmp ⟨node, 0⟩)
  | .devConsole => .ok .console
  | .devNull => .ok .null
  | .devZero => .ok .zero
  | .ptySlave idx => .ok (.ptySlave idx)

/-- `open` is a keyword of Lean. -/
def Tmpfs.openFile (t : Tmpfs) (path : List Name) (flags : OpenFlags) : Reply FileImpl :=
  match t.walk path with
  | .ok node => (openNode node (t.heap node).kind, t)
  | .error _ =>
    if ¬ flags.create then (.error .notFound, t)
    else
      match t.parentAndName path with
      | .error e => (.error e, t)
      | .ok (parent, name) =>
        if (t.heap parent).kind ≠ .dir then (.error .notDirectory, t)
        else
          match (t.heap parent).children[name]? with
          | some existing => (openNode existing (t.heap existing).kind, t)
          | none =>
            let (i, t') := t.alloc .newReg
            (.ok (.tmp ⟨i, 0⟩), t'.setChildren parent ((t.heap parent).children.insert name i))

def Tmpfs.unlink (t : Tmpfs) (path : List Name) : Reply Unit :=
  match t.parentAndName path with
  | .error e => (.error e, t)
  | .ok (parent, name) =>
    match (t.heap parent).children[name]? with
    | none => (.error .notFound, t)
    | some child =>
      if (t.heap child).kind = .dir then (.error .isDirectory, t)
      else (.ok (), t.setChildren parent ((t.heap parent).children.erase name))

structure VfsDirent where
  name : Name
  kind : VfsKind
  deriving DecidableEq, Repr

def TmpKind.vfsKind : TmpKind → VfsKind
  | .dir => .dir
  | .reg => .reg
  | _ => .device

def Tmpfs.readdir (t : Tmpfs) (path : List Name) : Except VfsError (List VfsDirent) :=
  match t.walk path with
  | .error e => .error e
  | .ok node =>
    if (t.heap node).kind ≠ .dir then .error .notDirectory
    else .ok ((t.heap node).children.toList.map fun x => ⟨x.1, (t.heap x.2).kind.vfsKind⟩)

def TmpInode.stat (i : TmpInode) : VfsStat :=
  ⟨i.kind.vfsKind, if i.kind = .reg then i.content.1.length else 0⟩

def Tmpfs.stat (t : Tmpfs) (path : List Name) : Except VfsError VfsStat :=
  (t.walk path).map fun node => (t.heap node).stat

def Tmpfs.rmdir (t : Tmpfs) (path : List Name) : Reply Unit :=
  match t.parentAndName path with
  | .error e => (.error e, t)
  | .ok (parent, name) =>
    match (t.heap parent).children[name]? with
    | none => (.error .notFound, t)
    | some child =>
      if (t.heap child).kind ≠ .dir then (.error .notDirectory, t)
      else if ¬ (t.heap child).children.isEmpty then (.error .notPermitted, t)
      else (.ok (), t.setChildren parent ((t.heap parent).children.erase name))

/-- The same-parent half of `rename`: the entry is removed first and put back if the
target name is taken. -/
def Tmpfs.renameInPlace (t : Tmpfs) (parent : NodeId) (srcName dstName : Name) : Reply Unit :=
  let ch := (t.heap parent).children
  match ch[srcName]? with
  | none => (.error .notFound, t)
  | some node =>
    let removed := ch.erase srcName
    if removed.contains dstName then
      (.error .alreadyExists, t.setChildren parent (removed.insert srcName node))
    else (.ok (), t.setChildren parent (removed.insert dstName node))

def Tmpfs.rename (t : Tmpfs) (src dst : List Name) : Reply Unit :=
  if src = dst then (.ok (), t)
  else if src.length < dst.length ∧ dst.take src.length = src then (.error .invalid, t)
  else
    match t.parentAndName src with
    | .error e => (.error e, t)
    | .ok (srcParent, srcName) =>
      match t.parentAndName dst with
      | .error e => (.error e, t)
      | .ok (dstParent, dstName) =>
        if srcParent = dstParent then t.renameInPlace srcParent srcName dstName
        else if (t.heap dstParent).kind ≠ .dir then (.error .notDirectory, t)
        else if (t.heap dstParent).children.contains dstName then (.error .alreadyExists, t)
        else
          match (t.heap srcParent).children[srcName]? with
          | none => (.error .notFound, t)
          | some node =>
            let t' := t.setChildren srcParent ((t.heap srcParent).children.erase srcName)
            (.ok (), t'.setChildren dstParent ((t'.heap dstParent).children.insert dstName node))

def TmpfsFile.read (f : TmpfsFile) (t : Tmpfs) (len : Nat) : List UInt8 × TmpfsFile :=
  let content := (t.heap f.node).content.1
  if content.length ≤ f.pos then ([], f)
  else
    let n := min len (content.length - f.pos)
    ((content.drop f.pos).take n, { f with pos := f.pos + n })

/-- `resize(end, 0)` if the content is shorter, followed by `copy_from_slice` on `start..end`. -/
def overwrite (content : List UInt8) (start : Nat) (buf : List UInt8) : List UInt8 :=
  Lib.splice (content ++ List.replicate (start + buf.length - content.length) 0) start buf

/-- `none`: a `resize` past `isize::MAX` bytes does not return. -/
def TmpfsFile.write (f : TmpfsFile) (t : Tmpfs) (buf : Buf) :
    Option (Except VfsError Nat × TmpfsFile × Tmpfs) :=
  let e := f.pos + buf.1.length
  if 2 ^ 64 ≤ e then some (.error .noSpace, f, t)
  else
    let content := overwrite (t.heap f.node).content.1 f.pos buf.1
    if h : content.length ≤ vecMax then
      some (.ok buf.1.length, { f with pos := e }, t.setContent f.node ⟨content, h⟩)
    else none

def TmpfsFile.seek (f : TmpfsFile) (t : Tmpfs) (off : Int) (whence : Whence) :
    Except VfsError Nat × TmpfsFile :=
  let base : Int := match whence with
    | .set => 0
    | .cur => asI64 f.pos
    | .fromEnd => asI64 (t.heap f.node).content.1.length
  let new := base + off
  if new < - 2 ^ 63 ∨ 2 ^ 63 ≤ new then (.error .invalid, f)
  else if new < 0 then (.error .invalid, f)
  else (.ok new.toNat, { f with pos := new.toNat })

end Ruos.Vfs
