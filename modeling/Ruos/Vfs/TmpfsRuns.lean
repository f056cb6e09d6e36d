import Ruos.Lib.Run
import Ruos.Vfs.TmpfsRefinement

/-! Whole runs of tmpfs: calls on the file system and on the files it handed out, against
the same calls on the reference. -/
namespace Ruos.Vfs

open Lib List Option TmpfsFile

inductive TmpfsCall where
  | mkdir (path : List Name)
  | create (path : List Name)
  | createFileOwned (path : List Name) (content : Buf)
  | insertInode (path : List Name) (kind : TmpKind)
  | openFile (path : List Name) (flags : OpenFlags)
  | unlink (path : List Name)
  | rmdir (path : List Name)
  | rename (src dst : List Name)
  | readdir (path : List Name)
  | stat (path : List Name)
  | read (handle len : Nat)
  | write (handle : Nat) (buf : Buf)
  | seek (handle : Nat) (off : Int) (whence : Whence)

inductive TmpfsRet where
  | unit
  | file (f : FileImpl)
  | dirents (l : List VfsDirent)
  | stat (s : VfsStat)
  | bytes (l : List UInt8)
  | count (n : Nat)
  deriving DecidableEq, Repr

/-- A file system and the files it handed out, in the order of the `open` calls. -/
structure TmpfsSys (φ : Type) where
  fs : φ
  files : List TmpfsFile

abbrev TmpfsSys.Out (φ : Type) := Option (Except VfsError TmpfsRet × TmpfsSys φ)

namespace TmpfsSys

variable {φ : Type}

/-- A call that returns nothing but its status. -/
def update (s : TmpfsSys φ) (out : Except VfsError Unit × φ) : Out φ :=
  some (out.1.map fun _ => .unit, { s with fs := out.2 })

def handedOut : Except VfsError FileImpl → List TmpfsFile
  | .ok (.tmp f) => [f]
  | _ => []

def opened (s : TmpfsSys φ) (out : Except VfsError FileImpl × φ) : Out φ :=
  some (out.1.map .file, ⟨out.2, s.files ++ handedOut out.1⟩)

/-- A call on a handle that was not handed out is no call at all. -/
def onFile (s : TmpfsSys φ) (handle : Nat)
    (io : TmpfsFile → Option (Except VfsError TmpfsRet × TmpfsFile × φ)) : Out φ :=
  s.files[handle]?.bind fun f => (io f).map fun x => (x.1, ⟨x.2.2, s.files.set handle x.2.1⟩)

def step (s : TmpfsSys Tmpfs) : TmpfsCall → Out Tmpfs
  | .mkdir p => s.update (s.fs.mkdir p)
  | .create p => s.update (s.fs.create p)
  | .createFileOwned p content => s.update (s.fs.createFileOwned p content)
  | .insertInode p kind => s.update (s.fs.insertInode p ⟨kind, ∅, .empty⟩)
  | .openFile p flags => s.opened (s.fs.openFile p flags)
  | .unlink p => s.update (s.fs.unlink p)
  | .rmdir p => s.update (s.fs.rmdir p)
  | .rename src dst => s.update (s.fs.rename src dst)
  | .readdir p => some ((s.fs.readdir p).map .dirents, s)
  | .stat p => some ((s.fs.stat p).map .stat, s)
  | .read k len => s.onFile k fun f => some (.ok (.bytes (f.read s.fs len).1), (f.read s.fs len).2, s.fs)
  | .write k buf => s.onFile k fun f => (f.write s.fs buf).map fun x => (x.1.map .count, x.2)
  | .seek k off whence => s.onFile k fun f =>
      some ((f.seek s.fs off whence).1.map .count, (f.seek s.fs off whence).2, s.fs)

noncomputable def refStep (s : TmpfsSys TmpfsRef) : TmpfsCall → Out TmpfsRef
  | .mkdir p => s.update (s.fs.insertNew p .dir .empty)
  | .create p => s.update (s.fs.insertNew p .reg .empty)
  | .createFileOwned p content => s.update (s.fs.insertNew p .reg content)
  | .insertInode p kind => s.update (s.fs.insertNew p kind .empty)
  | .openFile p flags => s.opened (s.fs.openFile p flags)
  | .unlink p => s.update (s.fs.unlink p)
  | .rmdir p => s.update (s.fs.rmdir p)
  | .rename src dst => s.update (s.fs.rename src dst)
  | .readdir p => some ((s.fs.readdir p).map .dirents, s)
  | .stat p => some ((s.fs.stat p).map .stat, s)
  | .read k len => s.onFile k fun f => some (.ok (.bytes (s.fs.read f len).1), (s.fs.read f len).2, s.fs)
  | .write k buf => s.onFile k fun f => (s.fs.write f buf).map fun x => (x.1.map .count, x.2)
  | .seek k off whence => s.onFile k fun f =>
      some ((s.fs.seek f off whence).1.map .count, (s.fs.seek f off whence).2, s.fs)

def abs (s : TmpfsSys Tmpfs) : TmpfsSys TmpfsRef := ⟨s.fs.abs, s.files⟩

/-- Positions stay in the range of the `i64` that `seek` computes with. -/
structure Inv (s : TmpfsSys Tmpfs) : Prop where
  tree : s.fs.Tree
  pos : ∀ f ∈ s.files, f.pos ≤ vecMax

theorem overwrite_eq_stored (content : List UInt8) (start : Nat) (buf : List UInt8) :
    overwrite content start buf = TmpfsRef.stored content start buf := by
  have hpad : start + buf.length ≤
      (content ++ replicate (start + buf.length - content.length) 0).length := by
    simp only [length_append, length_replicate]
    omega
  apply ext_getElem?
  intro k
  rw [overwrite, getElem?_splice (by omega), TmpfsRef.stored]
  by_cases hin : start ≤ k ∧ k < start + buf.length
  · have hb : k - start < buf.length := by omega
    simp [hin, hb]
  · rw [if_neg hin]
    by_cases hc : k < content.length
    · rw [getElem?_append_left hc]
      simp [hin, hc]
    · rw [getElem?_append_right (by omega)]
      by_cases hk : k < start + buf.length
      · have hgap : k - content.length < start + buf.length - content.length := by omega
        have hk' : k < max content.length (start + buf.length) := by omega
        simp [hin, hgap, getElem?_range hk', hc]
      · have hout : ¬ k - content.length < start + buf.length - content.length := by omega
        have hk' : ¬ k < max content.length (start + buf.length) := by omega
        simp [hout, hk']

variable {t : Tmpfs} {f : TmpfsFile}

theorem read_abs (f : TmpfsFile) (t : Tmpfs) (len : Nat) : t.abs.read f len = f.read t len := by
  simp only [TmpfsRef.read, TmpfsFile.read, Tmpfs.abs]
  split_ifs with hend
  · simp [drop_eq_nil_of_le hend]
  · have htake : ((t.heap f.node).content.1.drop f.pos).take len =
        ((t.heap f.node).content.1.drop f.pos).take (min len ((t.heap f.node).content.1.length - f.pos)) := by
      rw [take_eq_take_min, length_drop]
    rw [htake]
    simp only [length_take, length_drop, Prod.mk.injEq, TmpfsFile.mk.injEq, true_and]
    omega

theorem abs_setContent (t : Tmpfs) (i : NodeId) (content : Buf) :
    (t.setContent i content).abs = { t.abs with content := Function.update t.abs.content i content } := by
  simp only [Tmpfs.abs, Tmpfs.at?_setContent, (Tmpfs.setContent_heap t i content _).1, TmpfsRef.mk.injEq,
    true_and]
  refine ⟨?_, rfl⟩
  funext j
  by_cases hj : j = i
  · subst hj
    simp [Tmpfs.setContent]
  · simp [Tmpfs.setContent, hj]

theorem write_abs (t : Tmpfs) (hpos : f.pos ≤ vecMax) (buf : Buf) :
    t.abs.write f buf = (f.write t buf).map fun x => (x.1, x.2.1, x.2.2.abs) := by
  have hlen := buf.2
  have hsum : ¬ 2 ^ 64 ≤ f.pos + buf.1.length := by
    unfold vecMax at hpos hlen
    omega
  simp only [TmpfsRef.write, write, if_neg hsum, overwrite_eq_stored]
  split_ifs with hmax hmax'
  · simp only [map_some, abs_setContent]
    rfl
  · exact absurd hmax hmax'
  · exact absurd ‹_› hmax
  · rfl

theorem write_eq_some {buf : Buf} {r : Except VfsError Nat} {f' : TmpfsFile} {t' : Tmpfs}
    (hpos : f.pos ≤ vecMax) (hw : f.write t buf = some (r, f', t')) :
    r = .ok buf.1.length ∧ f'.pos ≤ vecMax ∧ ∃ content, t' = t.setContent f.node content := by
  have hlen := buf.2
  have hsum : ¬ 2 ^ 64 ≤ f.pos + buf.1.length := by
    unfold vecMax at hpos hlen
    omega
  simp only [write, if_neg hsum, overwrite_eq_stored] at hw
  split_ifs at hw with hmax
  · obtain ⟨rfl, rfl, rfl⟩ := hw
    have hstored : f.pos + buf.1.length ≤ (TmpfsRef.stored (t.heap f.node).content.1 f.pos buf.1).length := by
      simp [TmpfsRef.stored]
    exact ⟨rfl, hstored.trans hmax, _, rfl⟩

theorem seek_abs (t : Tmpfs) (hpos : f.pos ≤ vecMax) (off : Int) (whence : Whence) :
    t.abs.seek f off whence = f.seek t off whence := by
  have hcontent := (t.heap f.node).content.2
  have hbase : ∀ b : Nat, (if 0 ≤ b + off ∧ b + off < 2 ^ 63
      then (Except.ok (b + off).toNat, { f with pos := (b + off).toNat })
      else (.error VfsError.invalid, f)) =
      if b + off < - 2 ^ 63 ∨ 2 ^ 63 ≤ b + off then (.error .invalid, f)
      else if b + off < 0 then (.error .invalid, f)
      else (.ok (b + off).toNat, { f with pos := (b + off).toNat }) := by
    intro b
    split_ifs <;> first | rfl | omega
  cases whence with
  | set => exact hbase 0
  | cur =>
    simp only [TmpfsRef.seek, seek, asI64_of_le hpos]
    exact hbase f.pos
  | fromEnd =>
    simp only [TmpfsRef.seek, seek, asI64_of_le hcontent]
    exact hbase _

theorem seek_pos (hpos : f.pos ≤ vecMax) (off : Int) (whence : Whence) : (f.seek t off whence).2.pos ≤ vecMax := by
  simp only [seek]
  split_ifs with hrange hneg
  · exact hpos
  · exact hpos
  · simp only [vecMax]
    omega

theorem read_pos (hpos : f.pos ≤ vecMax) (len : Nat) : (f.read t len).2.pos ≤ vecMax := by
  have hcontent := (t.heap f.node).content.2
  simp only [TmpfsFile.read]
  split_ifs
  · exact hpos
  · simp only
    omega

variable {s : TmpfsSys Tmpfs}

/-- The outcome of a call in `s` against the outcome of the reference call. -/
structure StepSimulates (s : TmpfsSys Tmpfs) (out : Out Tmpfs) (ref : Out TmpfsRef) : Prop where
  refines : ref = out.map fun x => (x.1, x.2.abs)
  keeps : ∀ r s', out = some (r, s') → s'.Inv ∧ ∀ e, r = .error e → s'.fs = s.fs

theorem update_simulates (h : s.Inv) {out : Tmpfs.Reply Unit} {ref : TmpfsRef.Reply Unit}
    (hsim : Tmpfs.Simulates s.fs out ref) : StepSimulates s (s.update out) (s.abs.update ref) := by
  obtain ⟨r, t⟩ := out
  refine ⟨by rw [← hsim.refines]; rfl, ?_⟩
  rintro - - ⟨⟩
  refine ⟨⟨hsim.tree, h.pos⟩, fun e he => ?_⟩
  cases r with
  | ok a => cases he
  | error e' => exact hsim.unchanged e' rfl

theorem opened_simulates (h : s.Inv) {out : Tmpfs.Reply FileImpl} {ref : TmpfsRef.Reply FileImpl}
    (hsim : Tmpfs.Simulates s.fs out ref) (hpos : ∀ f, out.1 = .ok (.tmp f) → f.pos ≤ vecMax) :
    StepSimulates s (s.opened out) (s.abs.opened ref) := by
  obtain ⟨r, t⟩ := out
  refine ⟨by rw [← hsim.refines]; rfl, ?_⟩
  rintro - - ⟨⟩
  refine ⟨⟨hsim.tree, fun f hf => ?_⟩, fun e he => ?_⟩
  · rcases mem_append.mp hf with hold | hnew
    · exact h.pos f hold
    · unfold handedOut at hnew
      split at hnew
      · obtain rfl := mem_singleton.mp hnew
        exact hpos f ‹_›
      · cases hnew
  · cases r with
    | ok a => cases he
    | error e' => exact hsim.unchanged e' rfl

theorem openFile_pos {p : List Name} {flags : OpenFlags} {f : TmpfsFile}
    (ho : (t.openFile p flags).1 = .ok (.tmp f)) : f.pos = 0 := by
  have hnode : ∀ i k, openNode i k = .ok (.tmp f) → f.pos = 0 := by
    intro i k hk
    cases k <;> simp [openNode] at hk
    exact hk ▸ rfl
  unfold Tmpfs.openFile at ho
  split at ho
  · exact hnode _ _ ho
  · by_cases hcreate : flags.create
    · rw [if_neg (not_not.mpr hcreate)] at ho
      cases hp : t.parentAndName p with
      | error e =>
        rw [hp] at ho
        cases ho
      | ok x =>
        simp only [hp] at ho
        by_cases hdir : (t.heap x.1).kind = .dir
        · rw [if_neg (not_not.mpr hdir)] at ho
          split at ho
          · exact hnode _ _ ho
          · cases ho
            rfl
        · rw [if_pos hdir] at ho
          cases ho
    · rw [if_pos hcreate] at ho
      cases ho

theorem look_simulates (h : s.Inv) (r : Except VfsError TmpfsRet) :
    StepSimulates s (some (r, s)) (some (r, s.abs)) := by
  refine ⟨rfl, fun r' s' hs => ?_⟩
  obtain ⟨rfl, rfl⟩ : r = r' ∧ s = s' := by simpa using hs
  exact ⟨h, fun _ _ => rfl⟩

/-- The one file a call works on is as the reference has it, and so is the file system after. -/
theorem onFile_simulates (h : s.Inv) (handle : Nat)
    {io : TmpfsFile → Option (Except VfsError TmpfsRet × TmpfsFile × Tmpfs)}
    {ref : TmpfsFile → Option (Except VfsError TmpfsRet × TmpfsFile × TmpfsRef)}
    (href : ∀ f, f.pos ≤ vecMax → ref f = (io f).map fun x => (x.1, x.2.1, x.2.2.abs))
    (hkeep : ∀ f r f' t', f.pos ≤ vecMax → io f = some (r, f', t') →
      f'.pos ≤ vecMax ∧ t'.Tree ∧ ∀ e, r = .error e → t' = s.fs) :
    StepSimulates s (s.onFile handle io) (s.abs.onFile handle ref) := by
  unfold onFile
  cases hf : s.files[handle]? with
  | none =>
    refine ⟨by simp [abs, hf], fun r s' hs => ?_⟩
    simp at hs
  | some f =>
    have hpos := h.pos f (mem_of_getElem? hf)
    have hf' : s.abs.files[handle]? = some f := hf
    refine ⟨?_, fun r s' hs => ?_⟩
    · simp only [hf', bind_some, href f hpos, Option.map_map]
      rfl
    · obtain ⟨⟨r', f', t'⟩, hio, heq⟩ := map_eq_some_iff.mp hs
      obtain ⟨rfl, rfl⟩ := Prod.mk.inj heq
      obtain ⟨hpos', htree, herr⟩ := hkeep f r' f' t' hpos hio
      refine ⟨⟨htree, fun g hg => ?_⟩, herr⟩
      rcases mem_or_eq_of_mem_set hg with hold | rfl
      · exact h.pos g hold
      · exact hpos'

theorem step_simulates (h : s.Inv) (c : TmpfsCall) : StepSimulates s (s.step c) (s.abs.refStep c) := by
  cases c with
  | mkdir p | create p | createFileOwned p content | insertInode p kind =>
    exact update_simulates h (h.tree.insertNew_simulates p rfl)
  | openFile p flags =>
    refine opened_simulates h (h.tree.openFile_simulates p flags) fun f hf => ?_
    rw [openFile_pos hf]
    exact Nat.zero_le _
  | unlink p => exact update_simulates h (h.tree.removals_simulate p).1
  | rmdir p => exact update_simulates h (h.tree.removals_simulate p).2
  | rename src dst => exact update_simulates h (h.tree.rename_simulates src dst)
  | readdir p | stat p =>
    simp only [step, refStep, h.tree.readdir_abs, h.tree.stat_abs]
    exact look_simulates h _
  | read k len =>
    refine onFile_simulates h k (fun f _ => ?_) ?_
    · rw [abs, read_abs]
      rfl
    · rintro f - - - hpos ⟨⟩
      exact ⟨read_pos hpos len, h.tree, fun _ _ => rfl⟩
  | write k buf =>
    refine onFile_simulates h k (fun f hpos => ?_) fun f r f' t' hpos hw => ?_
    · rw [abs, write_abs _ hpos, Option.map_map, Option.map_map]
      rfl
    · obtain ⟨⟨r', f'', t''⟩, hw, heq⟩ := map_eq_some_iff.mp hw
      obtain ⟨rfl, hpos', content, rfl⟩ := write_eq_some hpos hw
      obtain ⟨rfl, rfl, rfl⟩ : _ ∧ _ ∧ _ := by simpa using heq
      exact ⟨hpos', h.tree.setContent _ _, fun e he => by cases he⟩
  | seek k off whence =>
    refine onFile_simulates h k (fun f hpos => ?_) ?_
    · rw [abs, seek_abs _ hpos]
      rfl
    · rintro f - - - hpos ⟨⟩
      exact ⟨seek_pos hpos off whence, h.tree, fun _ _ => rfl⟩

def new : TmpfsSys Tmpfs := ⟨.new, []⟩

def refNew : TmpfsSys TmpfsRef := ⟨.new, []⟩

theorem inv_new : new.Inv := ⟨Tmpfs.tree_new, by simp [new]⟩

theorem abs_new : new.abs = refNew := by rw [abs, new, Tmpfs.abs_new]; rfl

/-- Any run of calls on a fresh tmpfs gives the replies of the reference map and ends in
the state that the map describes; the inodes form a finite tree, in which a call that
fails changes nothing. -/
theorem tmpfs_run_refines (calls : List TmpfsCall) :
    trace refStep refNew calls = (trace step new calls).map (fun x => (x.1, x.2.abs)) ∧
      ∀ replies s, trace step new calls = some (replies, s) →
        s.fs.FiniteTree ∧ ∀ c e s', s.step c = some (.error e, s') → s'.fs = s.fs := by
  have hstep : ∀ s c r s', Inv s → step s c = some (r, s') → Inv s' :=
    fun s c r s' h hs => ((step_simulates h c).keeps r s' hs).1
  refine ⟨?_, fun replies s hs => ?_⟩
  · rw [← abs_new]
    exact trace_simulates hstep (fun s c h => (step_simulates h c).refines) inv_new calls
  · have hinv := trace_invariant hstep inv_new hs
    exact ⟨hinv.tree.finiteTree, fun c e s' hc => ((step_simulates hinv c).keeps _ s' hc).2 e rfl⟩

theorem tmpfs_run_refines_move : ∃ replies s, trace step new
        [.mkdir [['a']], .openFile [['a'], ['f']] ⟨true, true, true, false⟩, .write 0 ⟨[7, 8], by decide⟩,
          .rename [['a']] [['b']], .stat [['b'], ['f']], .unlink [['a'], ['f']]] = some (replies, s) ∧
      replies.drop 4 = [.ok (.stat ⟨.reg, 2⟩), .error .notFound] ∧ s.fs.FiniteTree := by
  have hchecked : ∀ ops replies, ((trace step new ops).map fun x => x.1.drop 4) = some replies →
      ∃ rs s, trace step new ops = some (rs, s) ∧ rs.drop 4 = replies ∧ s.fs.FiniteTree := by
    intro ops replies hrun
    obtain ⟨⟨rs, s⟩, hs, hreplies⟩ := map_eq_some_iff.mp hrun
    exact ⟨rs, s, hs, hreplies, ((tmpfs_run_refines ops).2 rs s hs).1⟩
  exact hchecked _ _ (by decide +kernel)

end TmpfsSys
end Ruos.Vfs
