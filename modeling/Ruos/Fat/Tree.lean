import Ruos.Fat.Handle
import Ruos.Fat.Lookup
import Ruos.Lib.Run

/-! One handle on a file, against a plain array of bytes with a position; the tree of directories of a volume, and when
its clusters are in order. -/
namespace Ruos.Fat

open Lib Vfs Block ErrorFree List

inductive FileOp where
  | read (len : Nat)
  | write (buf : Buf)
  | seek (off : Int) (whence : Whence)

inductive FileReply where
  | data (bytes : List UInt8)
  | count (n : Nat)
  deriving DecidableEq, Repr

def FileOp.run {S : Type} [BlockDevice S] (b : Bpb) : FileOp → FileM S FileReply
  | .read len => .data <$> Fat32File.read b len
  | .write buf => .count <$> Fat32File.write b buf
  | .seek off whence => .count <$> Fat32File.seek off whence

/-- One call: its reply, and the handle and the file system behind it afterwards. -/
def fileStep {S : Type} [BlockDevice S] (b : Bpb) (o : Opened S) (op : FileOp) : Except Fault FileReply × Opened S :=
  reply (op.run b) o

structure ByteFile where
  bytes : List UInt8
  pos : Nat
  deriving DecidableEq, Repr

namespace ByteFile

/-- Data is stored at the position, which moves behind it; the positions in between that the file did not have are
zero. -/
def store (f : ByteFile) (data : List UInt8) : ByteFile where
  bytes := if data = [] then f.bytes else splice (f.bytes ++ List.replicate (f.pos - f.bytes.length) 0) f.pos data
  pos := f.pos + data.length

def base (f : ByteFile) : Whence → Nat
  | .set => 0
  | .cur => f.pos
  | .fromEnd => f.bytes.length

/-- What a call may reply, and the file afterwards. A read or write may be cut short, but not to nothing; a write may
find no room; positions stop at the largest `i64`. -/
def Allows (f : ByteFile) (op : FileOp) (r : Except Fault FileReply) (f' : ByteFile) : Prop :=
  match op with
  | .read len => ∃ data, r = .ok (.data data) ∧ data <+: f.bytes.drop f.pos ∧ data.length ≤ len ∧
      (data = [] ↔ f.bytes.length ≤ f.pos ∨ len = 0) ∧ f' = { f with pos := f.pos + data.length }
  | .write buf => (∃ n, r = .ok (.count n) ∧ n ≤ buf.val.length ∧ (n = 0 → buf.val = []) ∧
      f' = f.store (buf.val.take n)) ∨ (r = .error (.err .noSpace) ∧ f' = f)
  | .seek off whence => (f.base whence + off < 0 ∧ r = .error (.err .invalidPath) ∧ f' = f) ∨
      ∃ p : Nat, (p : Int) = min (2 ^ 63 - 1) (f.base whence + off) ∧ r = .ok (.count p) ∧ f' = { f with pos := p }

end ByteFile

def diskSize {S : Type} [BlockDevice S] [ErrorFree S] (o : Opened S) : Nat :=
  recSize ((mem o.fs).read (512 * o.file.entry.recSec + o.file.entry.recOff) 32)

/-- A call agrees with the reference; after a write, so does the size on disk. -/
def AgreesWith {S : Type} [BlockDevice S] [ErrorFree S] (f : ByteFile) (op : FileOp) (r : Except Fault FileReply)
    (f' : ByteFile) (o : Opened S) : Prop :=
  f.Allows op r f' ∧ ∀ buf n, op = .write buf → r = .ok (.count n) → diskSize o = f'.bytes.length

variable {b : Bpb} {v v' : Vol} {f : Fat32File} {cs ns : List Nat} {c d i : Nat}

def dataOf (v : Vol) (cs : List Nat) : List UInt8 := (cs.map v.clus).flatten

/-- The file behind the handle `f`, which works on the clusters `cs`, is sound: its record is number `i` of the
cluster `d`. -/
structure Sound (b : Bpb) (v : Vol) (f : Fat32File) (cs : List Nat) (d i : Nat) : Prop where
  record : f.entry.At b d i
  clusters : ∀ x ∈ cs, b.IsCluster x ∧ v.fat x ≠ 0
  nodup : cs.Nodup
  outside : d ∉ cs
  used : v.fat d ≠ 0
  known : Known b v f cs
  pending : f.truncate = true → Chained b v.fat f.entry.cluster cs
  size_le : f.entry.size ≤ cs.length * b.clusterBytes
  size_lt : f.entry.size < 2 ^ 32
  pos_lt : f.pos < 2 ^ 63

/-- The array of bytes that a handle stands for: with a truncation pending, it is empty. -/
def byteFile (v : Vol) (f : Fat32File) (cs : List Nat) : ByteFile where
  bytes := if f.truncate then [] else (dataOf v cs).take f.entry.size
  pos := f.pos

section

variable (hsized : Sized b v) (hcs : ∀ x ∈ cs, b.IsCluster x)
include hsized hcs

theorem length_of_mem_clusters {l : List UInt8} (hl : l ∈ cs.map v.clus) : l.length = b.clusterBytes := by
  obtain ⟨x, hx, rfl⟩ := mem_map.mp hl
  exact hsized x (hcs x hx)

theorem length_dataOf : (dataOf v cs).length = cs.length * b.clusterBytes := by
  rw [dataOf, length_flatten_of_length fun l hl => length_of_mem_clusters hsized hcs hl, length_map]

variable {pos n : Nat} (hc : cs[pos / b.clusterBytes]? = some c)
include hc

theorem slice_dataOf (hn : pos % b.clusterBytes + n ≤ b.clusterBytes) :
    slice (v.clus c) (pos % b.clusterBytes) n = slice (dataOf v cs) pos n := by
  have hget : (cs.map v.clus)[pos / b.clusterBytes]? = some (v.clus c) := by
    rw [getElem?_map, hc]
    rfl
  have hlt : pos / b.clusterBytes < (cs.map v.clus).length := (List.getElem?_eq_some_iff.mp hget).1
  have hpiece := (slice_flatten (fun l hl => length_of_mem_clusters hsized hcs hl) hlt).trans hget
  have hpos : pos / b.clusterBytes * b.clusterBytes + pos % b.clusterBytes = pos := Nat.div_add_mod' _ _
  rw [← Option.some.inj hpiece, slice_slice hn, hpos]
  rfl

theorem getElem?_dataOf (hcb : 0 < b.clusterBytes) : (dataOf v cs)[pos]? = (v.clus c)[pos % b.clusterBytes]? := by
  have hslice := slice_dataOf (n := 1) hsized hcs hc (Nat.mod_lt pos hcb)
  have hget := congrArg (fun l => l[0]?) hslice
  simp only [getElem?_slice, Nat.zero_lt_one, if_true, Nat.add_zero] at hget
  exact hget.symm

theorem dataOf_setClus {data : List UInt8} (hnodup : cs.Nodup)
    (hn : pos % b.clusterBytes + data.length ≤ b.clusterBytes) :
    dataOf (v.setClus c (splice (v.clus c) (pos % b.clusterBytes) data)) cs = splice (dataOf v cs) pos data := by
  obtain ⟨hlt, hget⟩ := List.getElem?_eq_some_iff.mp hc
  have hidx : cs.idxOf c = pos / b.clusterBytes := by
    rw [← hget, hnodup.idxOf_getElem]
  have hmap : (cs.map v.clus)[pos / b.clusterBytes]? = some (v.clus c) := by
    rw [getElem?_map, hc]
    rfl
  have hpos : pos / b.clusterBytes * b.clusterBytes + pos % b.clusterBytes = pos := Nat.div_add_mod' _ _
  rw [dataOf, Vol.setClus, hnodup.map_update, if_pos (mem_of_getElem? hc), hidx,
    flatten_set (fun l hl => length_of_mem_clusters hsized hcs hl) hmap hn, hpos]
  rfl

end

theorem Sized.setClus {data : List UInt8} (h : Sized b v) (hlen : data.length = b.clusterBytes) :
    Sized b (v.setClus c data) := by
  intro x hx
  by_cases hxc : x = c
  · rw [hxc, Vol.clus_setClus_self, hlen]
  · rw [Vol.clus_setClus_of_ne hxc, h x hx]

theorem Grown.sized (hg : Grown b v cs v' ns) (hsized : Sized b v) : Sized b v' := by
  intro x hx
  by_cases hmem : x ∈ ns
  · rw [hg.zeroed x hmem, length_zeroCluster]
  · rw [hg.clus x hmem, hsized x hx]

theorem dataOf_grown (hg : Grown b v cs v' ns) (hused : ∀ x ∈ cs, v.fat x ≠ 0) :
    dataOf v' (cs ++ ns) = dataOf v cs ++ replicate (ns.length * b.clusterBytes) 0 := by
  have hold : cs.map v'.clus = cs.map v.clus := by
    refine map_congr_left fun x hx => hg.clus x fun hmem => ?_
    exact hused x hx (hg.free x hmem)
  have hnew : ns.map v'.clus = replicate ns.length (zeroCluster b) := by
    refine eq_replicate_iff.mpr ⟨length_map _, fun l hl => ?_⟩
    obtain ⟨x, hx, rfl⟩ := mem_map.mp hl
    exact hg.zeroed x hx
  rw [dataOf, map_append, hold, hnew, flatten_append, zeroCluster, flatten_replicate_replicate]
  rfl

theorem clus_patch_of_ne {x cluster size : Nat} (hne : x ≠ d) : (v.patch d i cluster size).clus x = v.clus x :=
  Function.update_of_ne hne _ _

theorem slice_patch {cluster size : Nat} (hsized : Sized b v) (hd : b.IsCluster d) (hi : i < b.clusterBytes / 32) :
    slice ((v.patch d i cluster size).clus d) (i * 32) 32 = patched (slice (v.clus d) (i * 32) 32) cluster size := by
  have hlen : i * 32 + 32 ≤ (v.clus d).length := by
    rw [hsized d hd]
    omega
  have hclus : (v.patch d i cluster size).clus d =
      splice (v.clus d) (i * 32) (patched (slice (v.clus d) (i * 32) 32) cluster size) := Function.update_self _ _ _
  have hpatch : (patched (slice (v.clus d) (i * 32) 32) cluster size).length = 32 :=
    length_patched (length_slice hlen) _ _
  have hsame : slice ((v.patch d i cluster size).clus d) (i * 32)
      (patched (slice (v.clus d) (i * 32) 32) cluster size).length =
        patched (slice (v.clus d) (i * 32) 32) cluster size := by
    rw [hclus]
    exact slice_splice_same (Nat.le_of_add_right_le hlen)
  rwa [hpatch] at hsame

theorem diskSize_eq {S : Type} [BlockDevice S] [ErrorFree S] {s₀ : S} {o : Opened S} (ho : Opens b s₀ o (v, f))
    (hat : f.entry.At b d i) : diskSize o = recSize (slice (v.clus d) (i * 32) 32) := by
  obtain ⟨hsec, hoff⟩ := Prod.mk.inj hat.loc
  have hlt := hat.lt
  have hmod : 512 * (i * 32 / 512) + i * 32 % 512 = i * 32 := Nat.div_add_mod _ _
  have hfile : o.file = f := ho.2
  rw [diskSize, hfile, ho.1.2.clus d hat.isCluster, Mem.slice_read (by omega), hsec, hoff, Nat.mul_add, Nat.add_assoc,
    hmod]
  rfl

/-- The names of the two records every directory but the root starts with. -/
def isDot (name : Name) : Bool := name = ['.'] || name = ['.', '.']

section

variable [Unicode]

/-- The first clusters of the directories that can be reached from the root. -/
inductive IsDirectory (b : Bpb) (v : Vol) : Nat → Prop
  | root : IsDirectory b v b.rootClus
  | sub {P : Nat} {e : DirEntry} (h : IsDirectory b v P) (he : e ∈ dirEntries b v P) (hdot : isDot e.name = false)
      (hdir : e.isDir = true) : IsDirectory b v e.cluster

/-- The records of files and directories, other than `.` and `..`. -/
def IsRecord (b : Bpb) (v : Vol) (e : DirEntry) : Prop :=
  ∃ P, IsDirectory b v P ∧ e ∈ dirEntries b v P ∧ isDot e.name = false

/-- The first clusters of the root and of all files and directories. -/
def IsHead (b : Bpb) (v : Vol) (h : Nat) : Prop := h = b.rootClus ∨ ∃ e, IsRecord b v e ∧ e.cluster = h

/-- The chains of a volume are in order: they are finite and inside the volume, no two of them share a cluster, each is
long enough for its file, every cluster in use is on one of them, and the copies of the FAT agree. -/
structure Consistent (b : Bpb) (v : Vol) : Prop where
  root_chained : ∃ l, Chained b v.fat b.rootClus l
  chained : ∀ e, IsRecord b v e → ∃ l, Chained b v.fat e.cluster l ∧
    (e.size + b.clusterBytes - 1) / b.clusterBytes ≤ l.length
  root_apart : ∀ e, IsRecord b v e → (chainOf b v.fat b.rootClus).Disjoint (chainOf b v.fat e.cluster)
  apart : ∀ e e', IsRecord b v e → IsRecord b v e' → e ≠ e' →
    (chainOf b v.fat e.cluster).Disjoint (chainOf b v.fat e'.cluster)
  cover : ∀ n, 2 ≤ n → n < 128 * b.fatSz32 → v.fat n ≠ 0 →
    n ∈ chainOf b v.fat b.rootClus ∨ ∃ e, IsRecord b v e ∧ n ∈ chainOf b v.fat e.cluster
  mirrored : v.mirrored

/-- The records of a directory that only this driver has written to: those in use come first and are no LFN records,
the rest is zero. -/
def Tidy (S : List Located) : Prop :=
  ∃ A Z, S = A ++ Z ∧ (∀ r ∈ A, isFree r.2 = false ∧ recAttr r.2 ≠ 0x0F) ∧ ∀ r ∈ Z, r.2 = List.replicate 32 0

/-- The invariant behind `Consistent`, by first clusters. -/
structure Tree (b : Bpb) (v : Vol) : Prop where
  live : ∀ h, IsHead b v h → b.IsCluster h
  chained : ∀ h, IsHead b v h → Chained b v.fat h (chainOf b v.fat h)
  apart : ∀ h h', IsHead b v h → IsHead b v h' → h ≠ h' → (chainOf b v.fat h).Disjoint (chainOf b v.fat h')
  injective : ∀ e e', IsRecord b v e → IsRecord b v e' → e.cluster = e'.cluster → e = e'
  not_root : ∀ e, IsRecord b v e → e.cluster ≠ b.rootClus
  size_le : ∀ e, IsRecord b v e → e.size ≤ (chainOf b v.fat e.cluster).length * b.clusterBytes
  cover : ∀ n, 2 ≤ n → n < 128 * b.fatSz32 → v.fat n ≠ 0 → ∃ h, IsHead b v h ∧ n ∈ chainOf b v.fat h
  tidy : ∀ P, IsDirectory b v P → Tidy (dirSlots b v (chainOf b v.fat P))
  dots : ∀ P e, IsDirectory b v P → e ∈ dirEntries b v P → isDot e.name = true →
    e.isDir = true ∧ (e.cluster = 0 ∨ IsDirectory b v e.cluster)
  mirrored : v.mirrored

end

section

variable [Unicode] {S A : List Located}

def slotEntries (r : Located) : List DirEntry :=
  match readSlot none r.2 with
  | .entry name => [entryOf name r]
  | _ => []

theorem scan_plain (h : ∀ r ∈ A, isFree r.2 = false ∧ recAttr r.2 ≠ 0x0F) :
    scan none A = (A.flatMap slotEntries, some none) := by
  induction A with
  | nil => rfl
  | cons r A ih =>
    obtain ⟨⟨hused, hattr⟩, hrest⟩ := forall_mem_cons.mp h
    have hfirst := firstByte_ne_zero_of_used hused
    rw [flatMap_cons, scan, slotEntries, readSlot, if_neg hfirst]
    split_ifs <;> simp [ih hrest]

variable {r : Located}

theorem slotEntries_zero (h : r.2 = replicate 32 0) : slotEntries r = [] := by
  have hzero : readSlot none r.2 = .finish := by
    rw [h, readSlot, if_pos (by decide)]
  rw [slotEntries, hzero]

theorem flatMap_zeros {Z : List Located} (h : ∀ r ∈ Z, r.2 = replicate 32 0) : Z.flatMap slotEntries = [] :=
  flatMap_eq_nil_iff.mpr fun r hr => slotEntries_zero (h r hr)

theorem used_of_entry {rec : List UInt8} {name : Name} (h : readSlot none rec = .entry name) :
    isFree rec = false ∧ recAttr rec ≠ 0x0F := by
  unfold readSlot at h
  split_ifs at h with hzero he5 hlfn
  exact ⟨by simp [isFree, hzero, he5], hlfn⟩

theorem mem_slotEntries {e : DirEntry} (h : e ∈ slotEntries r) :
    slotEntries r = [e] ∧ r.1 = (e.recSec, e.recOff) ∧ ∃ name, readSlot none r.2 = .entry name ∧ e = entryOf name r := by
  unfold slotEntries at h ⊢
  cases hslot : readSlot none r.2 with
  | finish | skip =>
    rw [hslot] at h
    cases h
  | entry name =>
    rw [hslot] at h
    obtain rfl := mem_singleton.mp h
    exact ⟨rfl, rfl, name, rfl, rfl⟩

theorem Tidy.scan_eq (h : Tidy S) : (scan none S).1 = S.flatMap slotEntries := by
  obtain ⟨A, Z, rfl, hA, hZ⟩ := h
  rw [scan_append, scan_plain hA, Option.elim_some, scan_zeros hZ, flatMap_append, flatMap_zeros hZ]

omit [Unicode] in
theorem Tidy.zero_of_free (h : Tidy S) {A' B : List Located} (hS : S = A' ++ r :: B) (hfree : isFree r.2 = true) :
    ∀ x ∈ r :: B, x.2 = replicate 32 0 := by
  obtain ⟨A, Z, rfl, hA, hZ⟩ := h
  rcases append_eq_append_iff.mp hS with ⟨C, rfl, hC⟩ | ⟨C, rfl, hC⟩
  · intro x hx
    exact hZ x (by rw [hC]; exact mem_append_right C hx)
  · cases C with
    | nil =>
      intro x hx
      rw [nil_append] at hC
      exact hZ x (hC ▸ hx)
    | cons y C =>
      obtain ⟨rfl, -⟩ : r = y ∧ B = C ++ Z := by simpa using hC
      have hused := (hA r (by simp)).1
      rw [hfree] at hused
      cases hused

end

section

variable [Unicode] {b : Bpb} {v v' : Vol} {P h n : Nat} {e : DirEntry}

theorem IsDirectory.isHead (hP : IsDirectory b v P) : IsHead b v P := by
  cases hP with
  | root => exact .inl rfl
  | sub hP he hdot hdir => exact .inr ⟨_, ⟨_, hP, he, hdot⟩, rfl⟩

theorem IsRecord.isHead (he : IsRecord b v e) : IsHead b v e.cluster := .inr ⟨e, he, rfl⟩

/-- The directories list the same entries, each changed by `φ` in what the tree does not depend on. -/
structure MapsDirs (b : Bpb) (v v' : Vol) (φ : DirEntry → DirEntry) : Prop where
  listing : ∀ P, IsDirectory b v P → dirEntries b v' P = (dirEntries b v P).map φ
  name : ∀ e, (φ e).name = e.name
  cluster : ∀ e, (φ e).cluster = e.cluster
  isDir : ∀ e, (φ e).isDir = e.isDir

namespace MapsDirs

variable {φ : DirEntry → DirEntry} (hm : MapsDirs b v v' φ)
include hm

theorem isDirectory : IsDirectory b v' P ↔ IsDirectory b v P := by
  constructor
  · intro hP
    induction hP with
    | root => exact .root
    | sub _ he hdot hdir ih =>
      rw [hm.listing _ ih] at he
      obtain ⟨x, hx, rfl⟩ := mem_map.mp he
      rw [hm.name] at hdot
      rw [hm.isDir] at hdir
      rw [hm.cluster]
      exact .sub ih hx hdot hdir
  · intro hP
    induction hP with
    | root => exact .root
    | @sub P e hP he hdot hdir ih =>
      rw [← hm.cluster e]
      refine .sub ih ?_ ((congrArg isDot (hm.name e)).trans hdot) ((hm.isDir e).trans hdir)
      rw [hm.listing P hP]
      exact mem_map_of_mem he

theorem isRecord : IsRecord b v' e ↔ ∃ x, IsRecord b v x ∧ φ x = e := by
  constructor
  · rintro ⟨P, hP, he, hdot⟩
    have hP' := hm.isDirectory.mp hP
    rw [hm.listing P hP'] at he
    obtain ⟨x, hx, rfl⟩ := mem_map.mp he
    rw [hm.name] at hdot
    exact ⟨x, ⟨P, hP', hx, hdot⟩, rfl⟩
  · rintro ⟨x, ⟨P, hP, hx, hdot⟩, rfl⟩
    refine ⟨P, hm.isDirectory.mpr hP, ?_, (congrArg isDot (hm.name x)).trans hdot⟩
    rw [hm.listing P hP]
    exact mem_map_of_mem hx

theorem dots (hd : ∀ P e, IsDirectory b v P → e ∈ dirEntries b v P → isDot e.name = true →
      e.isDir = true ∧ (e.cluster = 0 ∨ IsDirectory b v e.cluster))
    (hP : IsDirectory b v' P) (he : e ∈ dirEntries b v' P) (hdot : isDot e.name = true) :
    e.isDir = true ∧ (e.cluster = 0 ∨ IsDirectory b v' e.cluster) := by
  have hP' := hm.isDirectory.mp hP
  rw [hm.listing P hP'] at he
  obtain ⟨x, hx, rfl⟩ := mem_map.mp he
  rw [hm.name] at hdot
  rw [hm.isDir, hm.cluster, hm.isDirectory]
  exact hd P x hP' hx hdot

theorem isHead : IsHead b v' h ↔ IsHead b v h := by
  simp only [IsHead, hm.isRecord]
  refine or_congr_right ⟨?_, ?_⟩
  · rintro ⟨e, ⟨x, hx, rfl⟩, hh⟩
    exact ⟨x, hx, (hm.cluster x).symm.trans hh⟩
  · rintro ⟨x, hx, hh⟩
    exact ⟨φ x, ⟨x, hx, rfl⟩, (hm.cluster x).trans hh⟩

end MapsDirs

def SameDirs (b : Bpb) (v v' : Vol) : Prop := ∀ P, IsDirectory b v P → dirEntries b v' P = dirEntries b v P

namespace SameDirs

variable (hs : SameDirs b v v')
include hs

theorem maps : MapsDirs b v v' id where
  listing := fun P hP => by rw [hs P hP, map_id]
  name := fun _ => rfl
  cluster := fun _ => rfl
  isDir := fun _ => rfl

theorem isDirectory : IsDirectory b v' P ↔ IsDirectory b v P := hs.maps.isDirectory

theorem isRecord : IsRecord b v' e ↔ IsRecord b v e := by
  rw [hs.maps.isRecord]
  simp

theorem isHead : IsHead b v' h ↔ IsHead b v h := hs.maps.isHead

end SameDirs

namespace Tree

variable (t : Tree b v)
include t

theorem mem_chainOf {blocks : Nat} (hw : b.WellSized blocks) (hh : IsHead b v h) : h ∈ chainOf b v.fat h :=
  (t.chained h hh).walk.head_mem (onChain_of_isCluster hw (t.live h hh))

theorem eq_of_mem {h' x : Nat} (hh : IsHead b v h) (hh' : IsHead b v h') (hx : x ∈ chainOf b v.fat h)
    (hx' : x ∈ chainOf b v.fat h') : h = h' := by
  by_contra hne
  exact t.apart h h' hh hh' hne hx hx'

theorem dirEntries_eq (hP : IsDirectory b v P) :
    dirEntries b v P = (dirSlots b v (chainOf b v.fat P)).flatMap slotEntries := by
  rw [Fat.dirEntries_eq (t.chained P hP.isHead), (t.tidy P hP).scan_eq]

theorem chainOf_of_same (hh : IsHead b v h) (hfat : ∀ x ∈ chainOf b v.fat h, v'.fat x = v.fat x) :
    Chained b v'.fat h (chainOf b v.fat h) ∧ chainOf b v'.fat h = chainOf b v.fat h := by
  have hc := (t.chained h hh).congr hfat
  exact ⟨hc, hc.chainOf_eq⟩

theorem sameDirs (hsame : ∀ P, IsDirectory b v P → ∀ x ∈ chainOf b v.fat P, v'.fat x = v.fat x ∧ v'.clus x = v.clus x) :
    SameDirs b v v' := by
  intro P hP
  obtain ⟨hc, -⟩ := t.chainOf_of_same hP.isHead fun x hx => (hsame P hP x hx).1
  rw [Fat.dirEntries_eq hc, Fat.dirEntries_eq (t.chained P hP.isHead), dirSlots_congr fun x hx => (hsame P hP x hx).2]

theorem tidy_of_same (hP : IsDirectory b v P)
    (hsame : ∀ x ∈ chainOf b v.fat P, v'.fat x = v.fat x ∧ v'.clus x = v.clus x) :
    Tidy (dirSlots b v' (chainOf b v'.fat P)) := by
  obtain ⟨-, heq⟩ := t.chainOf_of_same hP.isHead fun x hx => (hsame x hx).1
  rw [heq, dirSlots_congr fun x hx => (hsame x hx).2]
  exact t.tidy P hP

theorem consistent {blocks : Nat} (hw : b.WellSized blocks) : Consistent b v where
  root_chained := ⟨_, t.chained b.rootClus (.inl rfl)⟩
  chained := by
    intro e he
    have hle := t.size_le e he
    have hcb := clusterBytes_pos hw
    refine ⟨_, t.chained e.cluster he.isHead, Nat.lt_succ_iff.mp (Nat.div_lt_of_lt_mul ?_)⟩
    rw [Nat.mul_comm, Nat.succ_mul]
    omega
  root_apart := fun e he => t.apart _ _ (.inl rfl) he.isHead (t.not_root e he).symm
  apart := fun e e' he he' hne => t.apart _ _ he.isHead he'.isHead fun heq => hne (t.injective e e' he he' heq)
  cover := by
    intro n htwo hlt hused
    obtain ⟨h, rfl | ⟨e, he, rfl⟩, hmem⟩ := t.cover n htwo hlt hused
    · exact .inl hmem
    · exact .inr ⟨e, he, hmem⟩
  mirrored := t.mirrored

end Tree

end

end Ruos.Fat
