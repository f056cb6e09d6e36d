import Ruos.Fat.Driver

/-! The calls of the driver, on a volume whose chains are in order, and runs of them on a formatted volume, with any
number of files open on it. -/
namespace Ruos.Fat

open Lib Vfs Block ErrorFree BlockDevice List Meets Runs Make

section

variable [Unicode]

/-- A name that is not there may be made in the directory `P`: it is a valid short name; `P` is no `..` of a directory
in the root, whose cluster is 0; and the record finds a free slot, or a second cluster if the first is free. -/
structure Makeable (b : Bpb) (v : Vol) (P : Nat) (name : Name) : Prop where
  reads_back : ReadsBack none name
  not_dot : isDot (toAsciiLowercase name) = false
  not_zero : P ≠ 0
  room : (∃ r ∈ dirSlots b v (chainOf b v.fat P), isFree r.2 = true) ∨ NoFree b v ∨
    ∃ m n, m ≠ n ∧ (b.IsCluster m ∧ v.fat m = 0) ∧ b.IsCluster n ∧ v.fat n = 0

/-- The last name of a path may be made if the rest of the path leads to a directory that does not have it. -/
def MakeOk (b : Bpb) (v : Vol) (path : List Name) : Prop :=
  ∀ ps name P, path = ps ++ [name] → walkIn b v b.rootClus ps = .ok P → findName (dirEntries b v P) name = none →
    Makeable b v P name

omit [Unicode] in
/-- A write through a handle does not extend the file past clusters that the handle does not know of. -/
def WriteOk (b : Bpb) (v : Vol) (f : Fat32File) : FileOp → Prop
  | .write buf => buf.val ≠ [] → Extendable b v f.truncated buf.val.length
  | _ => True

def CallOk (b : Bpb) (v : Vol) (files : List Fat32File) : Call → Prop
  | .create path => MakeOk b v path
  | .mkdir path => MakeOk b v path
  | .openFile path flags => flags.create = true → MakeOk b v path
  | .file k op => ∀ f, files[k]? = some f → WriteOk b v f op

end

section

variable {S : Type} [BlockDevice S] [ErrorFree S] [Unicode] {s₀ : S} {b : Bpb} {v v' : Vol} {f : Fat32File} {P : Nat}
  {path ps : List Name} {name : Name} {isDir : Bool} {r : Except VfsError DirEntry} (t : Tree b v)
  (hw : b.WellSized (blocks s₀))
include t

structure Left (b : Bpb) (v v' : Vol) : Prop where
  tree : Tree b v'
  keeps : Keeps b v v'

/-- What a call leaves behind that makes an entry, or finds one. -/
def EntryLeft (b : Bpb) (v : Vol) (r : Except VfsError DirEntry) (v' : Vol) : Prop :=
  Left b v v' ∧ ∀ e, r = .ok e → ∃ Q, IsDirectory b v' Q ∧ e ∈ dirEntries b v' Q

theorem Tree.left : Left b v v := ⟨t, .refl b v⟩

section

variable (ha : Attached b v f)
include hw ha

theorem meets_fileRead (len : Nat) :
    Meets (Opens b s₀) (Fat32File.read b len) (v, f) fun _ a => Left b v a.1 ∧ Attached b a.1 a.2 := by
  by_cases hend : f.entry.size ≤ f.pos ∨ len = 0
  · exact of_runs (runs_read_end hend) ⟨t.left, ha⟩
  · have hsize := ha.size_le
    have hidx : f.pos / b.clusterBytes < (handleClusters b v f).length := by
      rw [Nat.div_lt_iff_lt_mul (clusterBytes_pos hw)]
      omega
    have hget := getElem?_eq_getElem hidx
    exact of_runs (runs_read hw (ha.known t) hend hget (ha.isCluster t (mem_of_getElem? hget)))
      ⟨t.left, ha.caching.move _⟩

omit hw in
theorem meets_fileSeek (off : Int) (whence : Whence) :
    Meets (Opens b s₀) (Fat32File.seek off whence) (v, f) fun _ a => Left b v a.1 ∧ Attached b a.1 a.2 := by
  by_cases hneg : seekTo f off whence < 0
  · exact of_runs (runs_seek_error hneg) ⟨t.left, ha⟩
  · exact of_runs (runs_seek hneg) ⟨t.left, ha.move _⟩

theorem meets_fileWrite (hsized : Sized b v) {buf : Buf} (hok : WriteOk b v f (.write buf)) :
    Meets (Opens b s₀) (Fat32File.write b buf) (v, f) fun _ a => Left b v a.1 ∧ Attached b a.1 a.2 := by
  by_cases hnil : buf.val = []
  · have hrun : Runs (Opens b s₀) (Fat32File.write b buf) (v, f) (.ok 0) (v, f) := by
      unfold Fat32File.write
      rw [if_pos hnil]
      exact pure 0 _
    exact of_runs hrun ⟨t.left, ha⟩
  · have ha' := ha.truncated t hw
    obtain ⟨d, i, hat⟩ := ha.exists_at t hsized
    refine (meets_write hw hnil (ha'.known t) (fun x hx => ha'.isCluster t hx) hat).mono fun r a hwrote => ?_
    obtain ⟨t', hk, ha''⟩ := ha'.wrote t hw hsized hat.truncated (hok hnil) hwrote
    exact ⟨⟨t', hk⟩, ha''⟩

theorem meets_file (hsized : Sized b v) {op : FileOp} (hok : WriteOk b v f op) :
    Meets (Opens b s₀) (op.run b) (v, f) fun _ a => Left b v a.1 ∧ Attached b a.1 a.2 := by
  cases op with
  | read len => exact (meets_fileRead t hw ha len).map.mono fun _ _ ⟨_, hleft, _⟩ => hleft
  | write buf => exact (meets_fileWrite t hw ha hsized hok).map.mono fun _ _ ⟨_, hleft, _⟩ => hleft
  | seek off whence => exact (meets_fileSeek t ha off whence).map.mono fun _ _ ⟨_, hleft, _⟩ => hleft

end

omit [Unicode] t in
theorem chained_zero (b : Bpb) (fat : Nat → Nat) : Chained b fat 0 [] :=
  ⟨show ¬ onChain 0 = true by decide, by simp⟩

omit t in
theorem dirEntries_zero (b : Bpb) (v : Vol) : dirEntries b v 0 = [] := by
  rw [dirEntries_eq (chained_zero b v.fat)]
  rfl

/-- The clusters of what a walk can reach: a directory, or 0 for the root by way of `..`. -/
def IsPlace (b : Bpb) (v : Vol) (c : Nat) : Prop := c = 0 ∨ IsDirectory b v c

theorem Tree.chained_place (hP : IsPlace b v P) : Chained b v.fat P (chainOf b v.fat P) := by
  rcases hP with rfl | hP
  · rw [(chained_zero b v.fat).chainOf_eq]
    exact chained_zero b v.fat
  · exact t.chained P hP.isHead

variable {e : DirEntry}

omit t in
theorem isDirectory_of_mem (hP : IsPlace b v P) (he : e ∈ dirEntries b v P) : IsDirectory b v P := by
  rcases hP with rfl | hP
  · rw [dirEntries_zero] at he
    cases he
  · exact hP

theorem Tree.place_of_mem (hP : IsDirectory b v P) (he : e ∈ dirEntries b v P) (hdir : e.isDir = true) :
    IsPlace b v e.cluster := by
  cases hdot : isDot e.name with
  | false => exact .inr (.sub hP he hdot hdir)
  | true => exact (t.dots P e hP he hdot).2

theorem Tree.walk_place {c : Nat} (hc : IsPlace b v c) (ps : List Name) :
    PathOk b v [] c ps ∧ ∀ P, walkIn b v c ps = .ok P → IsPlace b v P := by
  refine walk_invariant (fun c hc => ⟨_, t.chained_place hc⟩) (fun c p e hc he hdir => ?_) hc ps
  have hmem := (name_of_findName he).1
  exact t.place_of_mem (isDirectory_of_mem hc hmem) hmem hdir

include hw

theorem Tree.keeps_made {n : Nat} {loc : Nat × Nat} {l' : List Nat} (hP : IsDirectory b v P)
    (hmade : Made b v P (chainOf b v.fat P) name isDir n loc v' l') (hback : ReadsBack none name)
    (hdot : isDot (toAsciiLowercase name) = false) : Keeps b v v' := by
  refine ⟨fun e he => ⟨e, (t.isRecord_made hw hP hmade hback hdot).mpr (.inl he), rfl, rfl, rfl⟩, fun h hh => ?_⟩
  by_cases heq : h = P
  · obtain ⟨ns, hns, -⟩ := hmade.grown
    rw [heq, (t.chained_parent hw hP hmade).chainOf_eq, hns]
    exact prefix_append _ _
  · exact (t.chainOf_made hP hmade hh heq).2 ▸ prefix_refl _

/-- A call that creates a name, if it may be made, keeps the volume in order, and returns an entry of it. -/
theorem Tree.creates (hP : IsPlace b v P) (hok : findName (dirEntries b v P) name = none → Makeable b v P name)
    (hcreates : Creates b v P (chainOf b v.fat P) name isDir r v') : EntryLeft b v r v' := by
  rcases hcreates with ⟨e, hfind, hr, rfl⟩ | ⟨hnone, hmakes⟩
  · refine ⟨t.left, fun e' he' => ?_⟩
    have hmem := (name_of_findName hfind).1
    rcases hr with rfl | rfl
    · cases he'
      exact ⟨P, isDirectory_of_mem hP hmem, hmem⟩
    · cases he'
  · have hmk := hok hnone
    have hdir : IsDirectory b v P := hP.resolve_left hmk.not_zero
    cases hmakes with
    | made hmade =>
      refine ⟨⟨t.make hw hdir hmade hmk.reads_back hmk.not_dot, t.keeps_made hw hdir hmade hmk.reads_back hmk.not_dot⟩, ?_⟩
      intro e he
      cases he
      obtain ⟨Q, hQ, hmem, -⟩ := t.mem_new hw hdir hmade hmk.reads_back hmk.not_dot
      exact ⟨Q, hQ, hmem⟩
    | noSpace => exact ⟨t.left, fun e he => by cases he⟩
    | @lost n hn hfree hused hfull =>
      rcases hmk.room with ⟨x, hx, hslot⟩ | hnofree | ⟨m, m', hne, ⟨hm, hmfree⟩, hm', hmfree'⟩
      · rw [hused x hx] at hslot
        cases hslot
      · exact absurd hfree (hnofree n hn)
      · have hkept : ∀ k, k ≠ n → b.IsCluster k → v.fat k ≠ 0 := by
          intro k hk hkc hzero
          exact hfull k hkc (by rw [fat_prepared, fat_alloc_of_ne hk, hzero])
        by_cases hmn : m = n
        · exact absurd hmfree' (hkept m' (fun heq => hne (hmn.trans heq.symm)) hm')
        · exact absurd hmfree (hkept m hmn hm)
    | noDir hnil => exact absurd hnil (ne_nil_of_mem (t.mem_chainOf hw hdir.isHead))

omit hw in
theorem Tree.path_root (ps : List Name) :
    PathOk b v [] b.rootClus ps ∧ ∀ P, walkIn b v b.rootClus ps = .ok P → IsPlace b v P := t.walk_place (.inr .root) ps

theorem runs_lookup_path (path : List Name) :
    ∃ r, Runs (Holds b s₀) (lookup b path) v r v ∧ ∀ e, r = .ok e → ∃ Q, IsDirectory b v Q ∧ e ∈ dirEntries b v Q := by
  rcases eq_nil_or_concat path with rfl | ⟨ps, name, rfl⟩
  · exact ⟨.error .notFound, throw _ v, fun e he => by cases he⟩
  rw [concat_eq_append]
  obtain ⟨hpath, hplace⟩ := t.path_root ps
  cases hwalk : walkIn b v b.rootClus ps with
  | ok P =>
    refine ⟨_, runs_lookup hw hpath hwalk (t.chained_place (hplace P hwalk)) name, fun e he => ?_⟩
    cases hfind : findName (dirEntries b v P) name with
    | none =>
      rw [hfind] at he
      cases he
    | some e' =>
      rw [hfind] at he
      cases he
      have hmem := (name_of_findName hfind).1
      exact ⟨P, isDirectory_of_mem (hplace P hwalk) hmem, hmem⟩
  | error err =>
    have hdirs := runs_walkDirs hw hpath
    rw [hwalk] at hdirs
    rw [lookup, lookupFrom_eq]
    exact ⟨_, hdirs.bind_error, fun e he => by cases he⟩

omit [Unicode] t hw in
theorem runs_onNotFound_error {α : Type} {x y : FatM S α} {err : VfsError} (hx : Runs (Holds b s₀) x v (.error err) v')
    (hne : err ≠ .notFound) : Runs (Holds b s₀) (onNotFound x y) v (.error err) v' := by
  intro s hs
  obtain ⟨s', heq, hs'⟩ := hx s hs
  refine ⟨s', ?_, hs'⟩
  rw [onNotFound, heq]
  cases err <;> first | rfl | exact absurd rfl hne

omit hw in
theorem entryLeft_error (err : VfsError) : EntryLeft b v (.error err) v := ⟨t.left, fun e he => by cases he⟩

theorem meets_entry_of_no_parent {err : VfsError} (op : Make)
    (hparent : Runs (Holds b s₀) (lookupParentAndName b path) v (.error err) v) :
    Meets (Holds b s₀) (op.entry b path) v (EntryLeft b v) := by
  cases op with
  | create | mkdir => exact of_runs hparent.bind_error (entryLeft_error t err)
  | openCreate flags =>
    obtain ⟨r, hlookup, hlist⟩ := runs_lookup_path t hw path
    cases r with
    | ok e => exact of_runs (runs_onNotFound _ hlookup) ⟨t.left, hlist⟩
    | error err' =>
      by_cases hfound : err' = .notFound
      · subst hfound
        exact meets_onNotFound hlookup (of_runs hparent.bind_error (entryLeft_error t err))
      · exact of_runs (runs_onNotFound_error hlookup hfound) (entryLeft_error t err')

theorem meets_entry_path (op : Make) (hok : MakeOk b v path) :
    Meets (Holds b s₀) (op.entry b path) v (EntryLeft b v) := by
  rcases eq_nil_or_concat path with rfl | ⟨ps, name, rfl⟩
  · exact meets_entry_of_no_parent t hw op (throw VfsError.invalidPath v)
  rw [concat_eq_append] at hok ⊢
  obtain ⟨hpath, hplace⟩ := t.path_root ps
  cases hwalk : walkIn b v b.rootClus ps with
  | ok P =>
    have hP := hplace P hwalk
    exact (meets_entry hw (t.chained_place hP) hpath hwalk op).mono fun r v' hcreates =>
      t.creates hw hP (hok ps name P rfl hwalk) hcreates
  | error err =>
    have hdirs := runs_walkDirs hw hpath
    rw [hwalk] at hdirs
    refine meets_entry_of_no_parent t hw op (?_ : Runs (Holds b s₀) (lookupParentAndName b _) v (.error err) v)
    rw [lookupParentAndName, getLast?_concat, dropLast_concat]
    exact hdirs.bind_error

theorem meets_make (op : Make) (hop : op = .create ∨ op = .mkdir) (hok : MakeOk b v path) :
    Meets (Holds b s₀) (op.run b path) v fun _ v' => Left b v v' := by
  have hentry := meets_entry_path t hw op hok
  have hrun : (op.run b path : FatM S Unit) = op.entry b path >>= fun _ => pure () := by
    rcases hop with rfl | rfl
    · simp only [run, entry, Fat.create, bind_assoc]
    · simp only [run, entry, Fat.mkdir, bind_assoc]
  rw [hrun]
  exact hentry.bind (fun _ v' hleft => of_runs (pure () v') hleft.1) fun _ _ hleft => hleft.1

theorem meets_openEntry {flags : OpenFlags} (hok : flags.create = true → MakeOk b v path) :
    Meets (Holds b s₀) (openEntry b path flags) v (EntryLeft b v) := by
  by_cases hcreate : flags.create = true
  · have heq : creating flags = flags := by rw [creating, ← hcreate]
    have hentry := meets_entry_path t hw (.openCreate flags) (hok hcreate)
    rwa [entry, heq] at hentry
  · obtain ⟨r, hlookup, hlist⟩ := runs_lookup_path t hw path
    rw [openEntry, if_neg hcreate]
    exact of_runs hlookup ⟨t.left, hlist⟩

omit hw in
theorem attached_of_mem (hw' : b.WellSized (blocks s₀)) (hsized : Sized b v) (hP : IsDirectory b v P)
    (he : e ∈ dirEntries b v P) (hfile : e.isDir = false) (truncate : Bool) :
    Attached b v { entry := e, cached := none, pos := 0, truncate } := by
  have hdot : isDot e.name = false := by
    by_contra hne
    have hdir := (t.dots P e hP he (by simpa using hne)).1
    rw [hfile] at hdir
    cases hdir
  have hrec : IsRecord b v e := ⟨P, hP, he, hdot⟩
  obtain ⟨d, -, i, -, hsize⟩ := exists_record hsized (t.chained P hP.isHead) he
  refine ⟨⟨e, hrec, hfile, rfl, rfl⟩, prefix_refl _, ne_nil_of_mem (t.mem_chainOf hw' hrec.isHead),
    t.size_le e hrec, ?_⟩
  rw [← hsize]
  exact field_lt _ 28 4

theorem meets_openFile {flags : OpenFlags} (hok : flags.create = true → MakeOk b v path) :
    Meets (Holds b s₀) (openFile b path flags) v fun r v' => Left b v v' ∧ ∀ f, r = .ok f → Attached b v' f := by
  refine (meets_openEntry t hw hok).bind ?_ fun err v' hleft => ⟨hleft.1, fun f hf => by cases hf⟩
  rintro e v' ⟨hleft, hlist⟩
  obtain ⟨Q, hQ, hmem⟩ := hlist e rfl
  by_cases hdir : e.isDir = true
  · exact of_runs (failIf_true hdir _ v').bind_error ⟨hleft, fun f hf => by cases hf⟩
  · refine bind_runs (failIf_false hdir _ v') (of_sized fun hsized => ?_)
    refine of_runs (pure _ v') ⟨hleft, fun f hf => ?_⟩
    cases hf
    exact attached_of_mem hleft.tree hw hsized hQ hmem (by simpa using hdir) _
end

open Unicode

open Block.ErrorFree Block.BlockDevice

section

variable {S : Type} [BlockDevice S] [ErrorFree S] {s₀ s s₁ : S} {volId : List UInt8} {count : Nat} {b : Bpb}

theorem geometry_small (h : count ≤ 66600) : geometry count = .error (.err .ioError) := by
  have hnone : secPerClus (min count (2 ^ 32 - 1)) = none := if_pos (by omega)
  rw [geometry, hnone]

theorem fresh_of_mount (hin : blockCount s₀ ≤ blocks s₀) (hvol : volId.length = 4) (hrun : format volId s₀ = .ok () s)
    (hmount : mount s = .ok b s₁) : b.rootClus = 2 ∧ b.IsCluster 2 ∧ b.WellSized (blocks s₀) ∧
      ∃ v, Holds b s₀ s₁ v ∧ Fresh b v := by
  have hsize : 66600 < blockCount s₀ := by
    by_contra hsmall
    have herr : Runs (Stored s₀) (format volId) (mem s₀) (.error (.err .ioError)) (mem s₀) := by
      refine Runs.get_bind fun s hs => (Runs.failIf_false (by simp [blockSize_eq]) _ _).bind ?_
      rw [frame_count hs.1, geometry_small (Nat.le_of_not_lt hsmall)]
      exact Runs.throw _ _
    exact absurd (herr.of_ok (stored_self s₀) hrun).1 (by simp)
  obtain ⟨g, s', v, -, hg, hrun', hholds, hfresh⟩ := format_holds hsize hin hvol
  cases hrun.symm.trans hrun'
  obtain ⟨heq, hs₁⟩ := (runs_mount (by omega)).of_ok hholds hmount
  cases heq
  have hmin := hg.clusters_min
  have hmax := hg.maxCluster_eq
  exact ⟨rfl, ⟨Nat.le_refl 2, by omega⟩, hg.wellSized hin, v, hs₁, hfresh⟩

end

section

variable {S : Type} [BlockDevice S] [ErrorFree S] [Unicode] {s₀ : S} {b : Bpb} {s : Driver S} {c : Call}

/-- The chains of the volume are in order, and the open files are attached to it. -/
def InOrder (b : Bpb) (s₀ : S) (s : Driver S) : Prop :=
  ∃ v, Holds b s₀ s.fs v ∧ Tree b v ∧ ∀ f ∈ s.files, Attached b v f

def SafeCall (b : Bpb) (s : Driver S) (c : Call) : Prop := ∀ v, Mounted b (mem s.fs) v → CallOk b v s.files c

theorem inOrder_step (hw : b.WellSized (blocks s₀)) (hs : InOrder b s₀ s) (hok : SafeCall b s c) :
    InOrder b s₀ (s.step b c) := by
  obtain ⟨v, hv, t, hfiles⟩ := hs
  have hcall := hok v hv.2
  have hmake : ∀ {x : FatM S Unit}, Meets (Holds b s₀) x v (fun _ v' => Left b v v') →
      InOrder b s₀ { s with fs := (reply x s.fs).2 } := by
    intro x hx
    obtain ⟨r, fs, v', hrun, hfs, hleft⟩ := hx s.fs hv
    refine ⟨v', ?_, hleft.tree, fun f hf => (hfiles f hf).mono hleft.keeps⟩
    rw [reply_eq hrun]
    exact hfs
  cases c with
  | create path => exact hmake (meets_make t hw .create (.inl rfl) hcall)
  | mkdir path => exact hmake (meets_make t hw .mkdir (.inr rfl) hcall)
  | openFile path flags =>
    obtain ⟨r, fs, v', hrun, hfs, hleft, hnew⟩ := meets_openFile t hw hcall s.fs hv
    have hold : ∀ f ∈ s.files, Attached b v' f := fun f hf => (hfiles f hf).mono hleft.keeps
    unfold Driver.step
    simp only [hrun]
    cases r with
    | ok f =>
      refine ⟨v', hfs, hleft.tree, fun g hg => ?_⟩
      rcases mem_append.mp hg with hg | hg
      · exact hold g hg
      · rw [mem_singleton.mp hg]
        exact hnew f rfl
    | error err => exact ⟨v', hfs, hleft.tree, hold⟩
  | file k op =>
    unfold Driver.step
    dsimp only
    cases hget : s.files[k]? with
    | none => exact ⟨v, hv, t, hfiles⟩
    | some f =>
      have ha := hfiles f (mem_of_getElem? hget)
      obtain ⟨r, o, a, hrun, ho, hleft, ha'⟩ :=
        meets_file t hw ha hv.sized (hcall f hget) ⟨s.fs, f⟩ ⟨hv, rfl⟩
      have hstep : fileStep b ⟨s.fs, f⟩ op = (r, o) := reply_eq hrun
      simp only [hstep]
      refine ⟨a.1, ho.1, hleft.tree, fun g hg => ?_⟩
      rcases mem_or_eq_of_mem_set hg with hg | rfl
      · exact (hfiles g hg).mono hleft.keeps
      · exact ho.2 ▸ ha'

variable {d s₁ : S} {volId : List UInt8} {calls : List Call} {u : Driver S}

/-- The chains of a formatted volume stay in order in every run of calls that make valid names, with room for their
records, and that extend no file behind the back of a handle. -/
theorem calls_keep_consistent {m : S} (hin : blockCount d ≤ blocks d) (hvol : volId.length = 4)
    (hformat : format volId d = .ok () m) (hmount : mount m = .ok b s₁)
    (hsafe : Guarded (fun s c => some (Driver.step b s c)) (SafeCall b) ⟨s₁, []⟩ calls)
    (hrun : exec (fun s c => some (Driver.step b s c)) ⟨s₁, []⟩ calls = some u) :
    ∃ v, Mounted b (mem u.fs) v ∧ Consistent b v := by
  obtain ⟨hroot, htwo, hw, v, hs₁, hfresh⟩ := fresh_of_mount hin hvol hformat hmount
  have hstart : InOrder b d (⟨s₁, []⟩ : Driver S) := ⟨v, hs₁, hfresh.tree htwo hroot hw.spc_pos, by simp⟩
  have hinv : InOrder b d u := by
    refine exec_invariant (fun s c s' hs hok hstep => ?_) hstart hsafe hrun
    cases hstep
    exact inOrder_step hw hs hok
  obtain ⟨v', hv', t, -⟩ := hinv
  exact ⟨v', hv'.2, t.consistent hw⟩

end

theorem calls_keep_consistent_create : ∃ b m s₁ u, format [1, 2, 3, 4] smallDisk = .ok () m ∧ mount m = .ok b s₁ ∧
      exec (fun s c => some (@Driver.step _ _ Unicode.ascii b s c)) ⟨s₁, []⟩ [.create [['a']]] = some u ∧
      ∃ v, Mounted b (mem u.fs) v ∧ @Consistent Unicode.ascii b v := by
  let _ := ascii
  have hmake : ∀ v, Mounted smallGeometry.bpb freshBytes v → MakeOk smallGeometry.bpb v [['a']] := by
    intro v hm ps name P hpath hwalk _
    obtain ⟨rfl, rfl⟩ : ps = [] ∧ name = ['a'] := by simpa using append_eq_singleton_iff.mp hpath.symm
    obtain rfl : 2 = P := Except.ok.inj hwalk
    have hc : Chained smallGeometry.bpb v.fat 2 [2] :=
      .single (by decide) (by decide) ((hm.fat 2 (by decide)).trans (by decide +kernel))
    have hslots : dirSlots smallGeometry.bpb v [2] =
        clusterSlots smallGeometry.bpb 2 (freshBytes.read (smallGeometry.bpb.clusterAddr 2) 512) := by
      rw [dirSlots, flatMap_singleton, hm.clus 2 (by decide)]
      rfl
    refine ⟨⟨by decide, by decide, by decide, by decide⟩, by decide, by decide, .inl ?_⟩
    rw [hc.chainOf_eq, hslots]
    decide +kernel
  have hsafe : Guarded (fun s c => some (Driver.step smallGeometry.bpb s c)) (SafeCall smallGeometry.bpb)
      ⟨freshDisk, []⟩ [.create [['a']]] := ⟨hmake, fun _ _ => trivial⟩
  exact ⟨_, _, _, _, format_smallDisk, mount_freshDisk, rfl,
    calls_keep_consistent (Nat.le_refl _) rfl format_smallDisk mount_freshDisk hsafe rfl⟩

def longBuf : Buf := ⟨List.replicate 600 0, by rw [List.length_replicate]; decide⟩

def makeFlags : OpenFlags := ⟨true, true, true, false⟩

def plainFlags : OpenFlags := ⟨true, true, false, false⟩

def staleCalls : List Call := [
  .openFile [['a']] makeFlags,
  .openFile [['a']] plainFlags,
  .file 1 (.write oneByte),
  .file 0 (.write longBuf),
  .file 1 (.write longBuf)]

def staleEnd : Driver MemDisk := staleCalls.foldl (@Driver.step _ _ Unicode.ascii smallGeometry.bpb) ⟨freshDisk, []⟩

theorem staleEnd_fat : ∀ x ∈ [(2, 0xFFFFFFF), (3, 5), (4, 0xFFFFFFF), (5, 0xFFFFFFF)],
    leVal (staleEnd.fs.bytes.read (smallGeometry.bpb.fatAddr x.1) 4) % 2 ^ 28 = x.2 := by
  decide +kernel

theorem staleEnd_entries : ∀ e ∈ (@scan ascii none (clusterSlots smallGeometry.bpb 2
    (staleEnd.fs.bytes.read (smallGeometry.bpb.clusterAddr 2) smallGeometry.bpb.clusterBytes))).1,
    e.isDir = false ∧ e.cluster = 3 := by
  decide +kernel

theorem staleEnd_not_consistent {v : Vol} (hm : Mounted smallGeometry.bpb staleEnd.fs.bytes v) :
    ¬ @Consistent ascii smallGeometry.bpb v := by
  let _ := ascii
  intro hc
  have hfat : ∀ x ∈ [(2, 0xFFFFFFF), (3, 5), (4, 0xFFFFFFF), (5, 0xFFFFFFF)], v.fat x.1 = x.2 := by
    intro x hx
    have hsmall : x.1 < 128 * 517 := by revert x; decide
    exact (hm.fat x.1 hsmall).trans (staleEnd_fat x hx)
  simp only [mem_cons, not_mem_nil, or_false, forall_eq_or_imp, forall_eq] at hfat
  obtain ⟨h2, h3, h4, h5⟩ := hfat
  have hend : ¬ onChain 0xFFFFFFF = true := by decide
  have hroot : Chained smallGeometry.bpb v.fat 2 [2] := .single (by decide) (by decide) h2
  have hfile : Chained smallGeometry.bpb v.fat 3 [3, 5] := by
    refine ⟨⟨rfl, by decide, h3, h3 ▸ (by decide), ?_⟩, ?_⟩
    · rw [h3, h5]
      exact hend
    · simp only [mem_cons, not_mem_nil, or_false, forall_eq_or_imp, forall_eq, h3, h5]
      decide
  have hentries : ∀ e ∈ dirEntries smallGeometry.bpb v 2, e.isDir = false ∧ e.cluster = 3 := by
    rw [dirEntries_eq hroot, dirSlots, flatMap_singleton, hm.clus 2 (by decide)]
    exact staleEnd_entries
  have hdirs : ∀ P, IsDirectory smallGeometry.bpb v P → P = 2 := by
    intro P hP
    induction hP with
    | root => rfl
    | sub _ he _ hdir ih =>
      subst ih
      rw [(hentries _ he).1] at hdir
      cases hdir
  have hne : v.fat 4 ≠ 0 := by
    rw [h4]
    decide
  rcases hc.cover 4 (by decide) (by decide) hne with hmem | ⟨e, ⟨P, hP, he, -⟩, hmem⟩
  · change 4 ∈ chainOf smallGeometry.bpb v.fat 2 at hmem
    rw [hroot.chainOf_eq] at hmem
    revert hmem
    decide
  · rw [(hentries e (hdirs P hP ▸ he)).2, hfile.chainOf_eq] at hmem
    revert hmem
    decide

/-- Two handles on one file: the second one extends it without knowing that the first one did. -/
theorem stale_handle_orphans : ∃ b m s₁ u, format [1, 2, 3, 4] smallDisk = .ok () m ∧ mount m = .ok b s₁ ∧
      exec (fun s c => some (@Driver.step _ _ Unicode.ascii b s c)) ⟨s₁, []⟩ staleCalls = some u ∧
      ¬ ∃ v, Mounted b (mem u.fs) v ∧ @Consistent Unicode.ascii b v := by
  refine ⟨_, _, _, staleEnd, format_smallDisk, mount_freshDisk, exec_some _, ?_⟩
  rintro ⟨v, hm, hc⟩
  exact staleEnd_not_consistent hm hc

end Ruos.Fat
