import Ruos.Fat.FileRefinement

/-! Runs of calls on one handle. -/
namespace Ruos.Fat

open Lib Vfs Block List Fat32File Meets Unicode Nat
open Block.ErrorFree

variable {b : Bpb} {v v' : Vol} {f : Fat32File} {cs cs' ns : List Nat} {c d i : Nat}

noncomputable def handleClusters (b : Bpb) (v : Vol) (f : Fat32File) : List Nat := f.cached.getD (chainOf b v.fat f.entry.cluster)

/-- The chain of the file and the free clusters are enough for `len` bytes. -/
def HasRoom (b : Bpb) (v : Vol) (f : Fat32File) (len : Nat) : Prop :=
  ∃ free : List Nat, free.Nodup ∧ (∀ n ∈ free, b.IsCluster n ∧ v.fat n = 0) ∧
    Fat32File.neededClusters b len ≤ (chainOf b v.fat f.entry.cluster).length + free.length

/-- Calls that do not meet what the driver leaves undone: with a truncation pending, the file is empty or is written
at position 0 with room for the data; no write skips over old bytes, or ends beyond the largest size. -/
def Careful (b : Bpb) (v : Vol) (f : Fat32File) : FileOp → Prop
  | .read _ => f.truncate = true → f.entry.size = 0
  | .seek _ whence => f.truncate = true → whence = .fromEnd → f.entry.size = 0
  | .write buf =>
    if buf.val = [] then f.truncate = true → f.entry.size = 0
    else f.pos + writeLen b f.pos buf.val.length < 2 ^ 32 ∧
      (f.truncate = true → f.pos = 0 ∧ (f.entry.size = 0 ∨ HasRoom b v f buf.val.length)) ∧
      GapZero b v f (handleClusters b v f)

/-- A call keeps the file sound, its record up to date and its bytes those of the reference. -/
structure Advances (b : Bpb) (v : Vol) (f : Fat32File) (cs : List Nat) (d i : Nat) (op : FileOp)
    (r : Except Fault FileReply) (a : Vol × Fat32File) (cs' : List Nat) : Prop where
  sound : Sound b a.1 a.2 cs' d i
  on_disk : recSize (slice (a.1.clus d) (i * 32) 32) = a.2.entry.size
  allows : (byteFile v f cs).Allows op r (byteFile a.1 a.2 cs')
  settled : ∀ buf n, op = .write buf → r = .ok (.count n) → a.2.truncate = true → a.2.entry.size = 0

theorem Sound.handleClusters_eq (h : Sound b v f cs d i) : handleClusters b v f = cs := by
  rcases h.known with hcached | ⟨hnone, hc⟩
  · rw [handleClusters, hcached, Option.getD_some]
  · rw [handleClusters, hnone, Option.getD_none, hc.chainOf_eq]

theorem length_bytes (hle : f.entry.size ≤ (dataOf v cs).length) (hsettled : f.truncate = true → f.entry.size = 0) :
    (byteFile v f cs).bytes.length = f.entry.size := by
  unfold byteFile
  cases htrunc : f.truncate with
  | true => simp [hsettled htrunc]
  | false => simp [hle]

section

variable {S : Type} [BlockDevice S] [ErrorFree S] {s₀ : S} (hw : b.WellSized (blocks s₀)) (h : Sound b v f cs d i)
  (hrec : recSize (slice (v.clus d) (i * 32) 32) = f.entry.size)
include hw h hrec

theorem read_advances (len : Nat) (hsized : Sized b v) (hcare : Careful b v f (.read len)) :
    Meets (Opens b s₀) ((FileOp.read len).run b) (v, f) fun r a => ∃ cs', Advances b v f cs d i (.read len) r a cs' := by
  have hle := h.size_le_length hsized
  have hbytes := length_bytes hle hcare
  by_cases hend : f.entry.size ≤ f.pos ∨ len = 0
  · refine of_runs (runs_read_end hend).map ⟨cs, h, hrec, ⟨[], rfl, nil_prefix, zero_le len, ?_, rfl⟩, ?_⟩
    · rw [hbytes]
      exact iff_of_true rfl hend
    · intro buf n hop
      cases hop
  · have htrunc : f.truncate = false := by
      by_contra hne
      have hzero := hcare (by simpa using hne)
      exact hend (.inl (by omega))
    have hcb := clusterBytes_pos hw
    have hsize := h.size_le
    have hidx : f.pos / b.clusterBytes < cs.length := by
      rw [div_lt_iff_lt_mul hcb]
      omega
    have hget := getElem?_eq_getElem hidx
    have hmod := mod_lt f.pos hcb
    have hslice := slice_dataOf (n := readLen b f len) hsized h.isCluster hget (by unfold readLen; omega)
    have hlen : (slice (dataOf v cs) f.pos (readLen b f len)).length = readLen b f len :=
      length_slice (by unfold readLen; omega)
    have hrun := (runs_read hw h.known hend hget (h.isCluster _ (getElem_mem hidx))).map (g := FileReply.data)
    rw [hslice, hlen] at hrun
    refine of_runs hrun ⟨cs, h.handle rfl rfl (.inl rfl) ?_, hrec, ⟨_, rfl, ?_, ?_, ?_, ?_⟩, ?_⟩
    · have hlt := h.size_lt
      change f.pos + readLen b f len < 2 ^ 63
      unfold readLen
      omega
    · have hbytes' : (byteFile v f cs).bytes = (dataOf v cs).take f.entry.size := by simp [byteFile, htrunc]
      change slice (dataOf v cs) f.pos _ <+: (byteFile v f cs).bytes.drop f.pos
      rw [hbytes', drop_take]
      exact take_prefix_take_left (by unfold readLen; omega)
    · rw [hlen]
      unfold readLen
      omega
    · rw [hbytes]
      refine iff_of_false (fun hnil => ?_) hend
      rw [hnil] at hlen
      unfold readLen at hlen
      simp at hlen
      omega
    · rw [hlen]
      rfl
    · intro buf n hop
      cases hop

omit hw hrec in
theorem seekBase_eq {whence : Whence} (hsized : Sized b v)
    (hcare : f.truncate = true → whence = .fromEnd → f.entry.size = 0) :
    Fat32File.seekBase f whence = (byteFile v f cs).base whence := by
  cases whence with
  | set => rfl
  | cur =>
    have hpos := h.pos_lt
    exact if_pos hpos
  | fromEnd =>
    have hbytes := length_bytes (h.size_le_length hsized) fun ht => hcare ht rfl
    change f.entry.size = ((byteFile v f cs).bytes.length : Int)
    rw [hbytes]

omit hw in
theorem seek_advances (off : Int) (whence : Whence) (hsized : Sized b v) (hcare : Careful b v f (.seek off whence)) :
    Meets (Opens b s₀) ((FileOp.seek off whence).run b) (v, f)
      fun r a => ∃ cs', Advances b v f cs d i (.seek off whence) r a cs' := by
  have hbase := seekBase_eq h hsized hcare
  have hnew : seekTo f off whence = max (-2 ^ 63) (min (2 ^ 63 - 1) ((byteFile v f cs).base whence + off)) := by
    rw [seekTo, hbase]
    rfl
  by_cases hneg : seekTo f off whence < 0
  · refine of_runs (runs_seek_error hneg).map_error ⟨cs, h, hrec, .inl ⟨?_, rfl, rfl⟩, by simp⟩
    omega
  · refine of_runs (runs_seek hneg).map ⟨cs, h.handle rfl rfl h.known ?_, hrec, .inr ⟨_, ?_, rfl, rfl⟩, by simp⟩
    · change (seekTo f off whence).toNat < 2 ^ 63
      omega
    · omega

omit hw in
theorem write_empty_advances {buf : Buf} (hnil : buf.val = []) (hcare : f.truncate = true → f.entry.size = 0) :
    Meets (Opens b s₀) ((FileOp.write buf).run b) (v, f)
      fun r a => ∃ cs', Advances b v f cs d i (.write buf) r a cs' := by
  have hrun : Runs (Opens b s₀) (write b buf) (v, f) (.ok 0) (v, f) := by
    unfold write
    rw [if_pos hnil]
    exact Runs.pure 0 _
  refine of_runs hrun.map ⟨cs, h, hrec, .inl ⟨0, rfl, zero_le _, fun _ => hnil, ?_⟩, fun _ _ _ _ => hcare⟩
  simp [ByteFile.store]

omit h in
theorem wrote_advances {g : Fat32File} {buf : Buf} {r : Except Fault Nat} {a : Vol × Fat32File} (hsized : Sized b v)
    (hne : buf.val ≠ []) (hg : Sound b v g cs d i) (htrunc : g.truncate = false)
    (hsame : byteFile v g cs = byteFile v f cs) (hspc : b.secPerCluster < 256)
    (hend : g.pos + writeLen b g.pos buf.val.length < 2 ^ 32) (hgap : GapZero b v g cs)
    (hroom : g.entry.size = f.entry.size ∨ ∃ free : List Nat, free.Nodup ∧ (∀ n ∈ free, b.IsCluster n ∧ v.fat n = 0) ∧
      Fat32File.neededClusters b (g.pos + buf.val.length) ≤ cs.length + free.length)
    (hwrote : Wrote b v g cs d i buf.val r a) :
    ∃ cs', Advances b v f cs d i (.write buf) (r.map FileReply.count) a cs' := by
  have hcb := clusterBytes_pos hw
  have hpos := length_pos_of_ne_nil hne
  cases hwrote with
  | panic hpanic =>
    have hbuf := buf.property
    unfold vecMax at hbuf
    unfold Bpb.clusterBytes at hpanic
    omega
  | noSpace hext hlen hfull =>
    obtain ⟨ns, rfl, hgrown⟩ := hext.grown
    have hsize : g.entry.size = f.entry.size := by
      rcases hroom with heq | ⟨free, hnodup, hfree, hle⟩
      · exact heq
      · have hcount := hg.no_room hgrown hfull hnodup hfree
        rw [length_append] at hlen
        omega
    refine ⟨cs, hg.not_grown hgrown htrunc, ?_, .inr ⟨rfl, ?_⟩, ?_⟩
    · rw [hg.clus_record hgrown, hrec]
      exact hsize.symm
    · rw [← hsame, byteFile, hg.dataOf_grown_old hgrown]
      rfl
    · intro buf' n _ hr
      cases hr
  | @stored v' cs' first c hext hlen hfirst hc =>
    obtain ⟨ns, rfl, hgrown⟩ := hext.grown
    have hmod := mod_lt g.pos hcb
    have htake : (buf.val.take (writeLen b g.pos buf.val.length)).length = writeLen b g.pos buf.val.length := by
      rw [length_take]
      unfold writeLen
      omega
    have hdata : buf.val.take (writeLen b g.pos buf.val.length) ≠ [] := by
      refine ne_nil_of_length_pos ?_
      rw [htake]
      unfold writeLen
      omega
    have hfits : g.pos % b.clusterBytes + (buf.val.take (writeLen b g.pos buf.val.length)).length ≤ b.clusterBytes := by
      rw [htake]
      unfold writeLen
      omega
    have hend' : g.pos + (buf.val.take (writeLen b g.pos buf.val.length)).length < 2 ^ 32 := by
      rw [htake]
      exact hend
    have hold := hg.grown hgrown htrunc
    have hsized' := hgrown.sized hsized
    have hvol : (v'.setClus c (splice (v'.clus c) (g.pos % b.clusterBytes)
        (buf.val.take (writeLen b g.pos buf.val.length)))).patch d i first
          (advanced first (writeLen b g.pos buf.val.length) g).entry.size =
        storedVol b v' (g.caching (cs ++ ns)) c d i first (buf.val.take (writeLen b g.pos buf.val.length)) := by
      rw [storedVol, htake]
      rfl
    have hsound : Sound b (storedVol b v' (g.caching (cs ++ ns)) c d i first _)
        (advanced first _ (g.caching (cs ++ ns))) (cs ++ ns) d i := hold.stored hc hfits hend' htrunc
    have hbytes : byteFile (storedVol b v' (g.caching (cs ++ ns)) c d i first _)
        (advanced first _ (g.caching (cs ++ ns))) (cs ++ ns) = _ :=
      byteFile_stored hold hc hfits hend' hsized' hcb htrunc hdata (hg.gapZero_grown hgrown hcb hgap)
    rw [hg.byteFile_grown hsized hgrown, hsame, htake] at hbytes
    rw [htake] at hsound
    refine ⟨cs ++ ns, ?_, ?_, .inl ⟨_, rfl, min_le_left _ _, fun hzero => ?_, ?_⟩, fun _ _ _ _ hp => ?_⟩
    · rw [hvol]
      exact hsound
    · rw [hvol, recSize_stored hold hc hfits hend' hsized', htake]
    · unfold writeLen at hzero
      omega
    · rw [hvol]
      exact hbytes
    · change g.truncate = true at hp
      rw [htrunc] at hp
      cases hp

theorem write_advances (buf : Buf) (hsized : Sized b v) (hspc : b.secPerCluster < 256)
    (hcare : Careful b v f (.write buf)) : Meets (Opens b s₀) ((FileOp.write buf).run b) (v, f)
      fun r a => ∃ cs', Advances b v f cs d i (.write buf) r a cs' := by
  by_cases hnil : buf.val = []
  · exact write_empty_advances h hrec hnil (by simpa only [Careful, if_pos hnil] using hcare)
  · rw [Careful, if_neg hnil, h.handleClusters_eq] at hcare
    obtain ⟨hend, hpend, hgap⟩ := hcare
    have hpos : f.truncated.pos = f.pos := by
      unfold truncated
      split_ifs with htrunc
      · exact (hpend htrunc).1.symm
      · rfl
    have hgap' : GapZero b v f.truncated cs := by
      unfold truncated
      split_ifs with htrunc
      · intro k _ hk
        cases hk
      · exact hgap
    have hroom : f.truncated.entry.size = f.entry.size ∨ ∃ free : List Nat, free.Nodup ∧
        (∀ n ∈ free, b.IsCluster n ∧ v.fat n = 0) ∧
        neededClusters b (f.truncated.pos + buf.val.length) ≤ cs.length + free.length := by
      rw [hpos]
      unfold truncated
      split_ifs with htrunc
      · obtain ⟨hzero, hempty | ⟨free, hnodup, hfree, hle⟩⟩ := hpend htrunc
        · exact .inl hempty.symm
        · rw [(h.pending htrunc).chainOf_eq] at hle
          rw [hzero, zero_add]
          exact .inr ⟨free, hnodup, hfree, hle⟩
      · exact .inl rfl
    have hsame : byteFile v f.truncated cs = byteFile v f cs := byteFile_truncated fun htrunc => (hpend htrunc).1
    refine (meets_write hw hnil h.truncated.known h.isCluster h.record).map.mono ?_
    rintro r a ⟨r₀, hwrote, rfl⟩
    exact wrote_advances hw hrec hsized hnil h.truncated (truncate_truncated f) hsame hspc (by rw [hpos]; exact hend)
      hgap' hroom hwrote

theorem step_advances (op : FileOp) (hspc : b.secPerCluster < 256) (hcare : Careful b v f op) :
    Meets (Opens b s₀) (op.run b) (v, f) fun r a => ∃ cs', Advances b v f cs d i op r a cs' := by
  intro o ho
  have hsized := ho.1.sized
  cases op with
  | read len => exact read_advances hw h hrec len hsized hcare o ho
  | write buf => exact write_advances hw h hrec buf hsized hspc hcare o ho
  | seek off whence => exact seek_advances h hrec off whence hsized hcare o ho

end

section

variable {S : Type} [BlockDevice S] [ErrorFree S] {s₀ : S}

/-- The handle stands for the array of bytes `a`, and its record is up to date. -/
def Stands (b : Bpb) (s₀ : S) (o : Opened S) (a : ByteFile) : Prop :=
  ∃ v cs d i, Opens b s₀ o (v, o.file) ∧ Sound b v o.file cs d i ∧
    recSize (slice (v.clus d) (i * 32) 32) = o.file.entry.size ∧ a = byteFile v o.file cs

def CarefulCall (b : Bpb) (o : Opened S) (op : FileOp) : Prop := ∀ v, Mounted b (mem o.fs) v → Careful b v o.file op

theorem secPerCluster_lt {sec : List UInt8} (h : Bpb.parse sec = .ok b) : b.secPerCluster < 256 := by
  unfold Bpb.parse at h
  split_ifs at h
  cases h
  exact field_lt sec 0x0D 1

theorem stands_step {o : Opened S} {a : ByteFile} {op : FileOp} (hw : b.WellSized (blocks s₀)) (hs : Stands b s₀ o a)
    (hcare : CarefulCall b o op) :
    ∃ a', AgreesWith a op (fileStep b o op).1 a' (fileStep b o op).2 ∧ Stands b s₀ (fileStep b o op).2 a' := by
  obtain ⟨v, cs, d, i, ho, h, hrec, rfl⟩ := hs
  have hspc := secPerCluster_lt ho.1.2.boot
  obtain ⟨r, o', a, hrun, ho', cs', hadv⟩ := step_advances hw h hrec op hspc (hcare v ho.1.2) o ho
  obtain ⟨v', f'⟩ := a
  obtain rfl : o'.file = f' := ho'.2
  have hstep : fileStep b o op = (r, o') := reply_eq hrun
  rw [hstep]
  refine ⟨byteFile v' o'.file cs', ⟨hadv.allows, fun buf n hop hr => ?_⟩, v', cs', d, i, ho', hadv.sound, hadv.on_disk, rfl⟩
  rw [diskSize_eq ho' hadv.sound.record, hadv.on_disk,
    length_bytes (hadv.sound.size_le_length ho'.1.sized) (hadv.settled buf n hop hr)]

variable [Unicode] {P : Nat} {l lP : List Nat} {path : List Name} {flags : OpenFlags} {ops : List FileOp} {s s₁ : S}

omit [BlockDevice S] [ErrorFree S] in
theorem exists_record {e : DirEntry} (hsized : Sized b v) (hdir : Chained b v.fat P lP) (hmem : e ∈ dirEntries b v P) :
    ∃ d ∈ lP, ∃ i, e.At b d i ∧ recSize (slice (v.clus d) (i * 32) 32) = e.size := by
  rw [dirEntries_eq hdir] at hmem
  obtain ⟨r, hr, he⟩ := mem_scan hmem
  obtain ⟨d, hd, i, hi, rfl⟩ := mem_dirSlots hr
  rw [hsized d (hdir.isCluster hd)] at hi
  rw [he]
  exact ⟨d, hd, i, ⟨hdir.isCluster hd, hi, rfl⟩, rfl⟩

omit [ErrorFree S] in
theorem opened_eq {f : Fat32File} (h : openFile b path flags s = .ok f s₁) :
    f = { entry := f.entry, cached := none, pos := 0, truncate := flags.truncate } := by
  obtain ⟨e, t, -, hrest⟩ := bind_eq_ok h
  obtain ⟨u, t', -, hpure⟩ := bind_eq_ok hrest
  cases hpure
  rfl

/-- A file that was opened, is listed in a directory and has clusters for its size, apart from those of the directory,
agrees with an array of bytes in every run of careful calls. -/
theorem file_agrees_with_bytes (hw : b.WellSized (blocks s₁)) (hopen : openFile b path flags s = .ok f s₁)
    (hm : Mounted b (mem s₁) v) (hdir : Chained b v.fat P lP) (hmem : f.entry ∈ dirEntries b v P)
    (hfile : Chained b v.fat f.entry.cluster l) (hdisj : lP.Disjoint l) (hsize : f.entry.size ≤ l.length * b.clusterBytes)
    (hcare : Guarded (fun o op => some (fileStep b o op).2) (CarefulCall b) ⟨s₁, f⟩ ops) :
    Lib.Follows (fileStep b) AgreesWith ⟨s₁, f⟩
      ⟨if flags.truncate then [] else (dataOf v l).take f.entry.size, 0⟩ ops := by
  have hs : Holds b s₁ s₁ v := ⟨frame_refl s₁, hm⟩
  obtain ⟨d, hd, i, hat, hrec⟩ := exists_record hs.sized hdir hmem
  have heq := opened_eq hopen
  have hcached : f.cached = none := by rw [heq]
  have hpos : f.pos = 0 := by rw [heq]
  have htrunc : f.truncate = flags.truncate := by rw [heq]
  have hsound : Sound b v f l d i := {
    record := hat
    clusters := fun x hx => ⟨hfile.isCluster hx, (hfile.mem x hx).2⟩
    nodup := hfile.nodup
    outside := fun hin => hdisj hd hin
    used := (hdir.mem d hd).2
    known := .inr ⟨hcached, hfile⟩
    pending := fun _ => hfile
    size_le := hsize
    size_lt := hrec ▸ field_lt _ 28 4
    pos_lt := by
      rw [hpos]
      exact Nat.two_pow_pos 63 }
  have hstands : Stands b s₁ ⟨s₁, f⟩ (byteFile v f l) := ⟨v, l, d, i, ⟨hs, rfl⟩, hsound, hrec, rfl⟩
  have hfollows := follows_of_simulation (fun o a op => stands_step hw) hstands hcare
  rwa [byteFile, htrunc, hpos] at hfollows

end

def oneByte : Buf := ⟨[1], by decide⟩

def newFile : OpenFlags := ⟨true, true, true, true⟩

def opened (e : DirEntry) : Fat32File := { entry := e, cached := none, pos := 0, truncate := true }

theorem file_agrees_with_bytes_one_write :
    ∃ g s s₁ f, geometry 66601 = .ok g ∧ format [1, 2, 3, 4] smallDisk = .ok () s ∧
      @openFile _ _ g.bpb Unicode.ascii [['a']] newFile s = .ok f s₁ ∧
      Lib.Follows (fileStep g.bpb) AgreesWith ⟨s₁, f⟩ ⟨[], 0⟩ [.write oneByte] := by
  let _ := ascii
  have hreply : (reply (openFile smallGeometry.bpb [['a']] newFile) freshDisk).1 =
      .ok (opened (newEntry ['a'] false 3 (1066, 32))) := by decide +kernel
  have hopen := eq_outcome_reply (openFile smallGeometry.bpb [['a']] newFile) freshDisk
  rw [hreply] at hopen
  generalize hs : (reply (openFile smallGeometry.bpb [['a']] newFile) freshDisk).2 = s₁ at hopen
  have hm : Mounted smallGeometry.bpb (mem s₁) (volOf smallGeometry.bpb (mem s₁)) := by
    rw [← hs]
    exact mounted_volOf (by decide +kernel)
  have hfat : ∀ n ∈ [2, 3], (volOf smallGeometry.bpb (mem s₁)).fat n = 0x0FFFFFFF := by
    rw [← hs]
    decide +kernel
  have hdir : Chained smallGeometry.bpb (volOf smallGeometry.bpb (mem s₁)).fat 2 [2] :=
    .single (by decide) (by decide) (hfat 2 (by decide))
  have hmem : newEntry ['a'] false 3 (1066, 32) ∈ dirEntries smallGeometry.bpb (volOf smallGeometry.bpb (mem s₁)) 2 := by
    rw [dirEntries_eq hdir, ← hs]
    decide +kernel
  have hw : smallGeometry.bpb.WellSized (blocks s₁) := by
    have hcount : blocks s₁ = blocks freshDisk := by
      rw [← hs]
      decide +kernel
    rw [hcount]
    exact wellSized_small
  refine ⟨_, freshDisk, s₁, _, rfl, format_smallDisk, hopen, file_agrees_with_bytes hw hopen hm hdir hmem
    (.single (by decide) (by decide) (hfat 3 (by decide))) (disjoint_singleton.mpr (by decide)) (zero_le _) ⟨fun v' _ => ?_, fun _ _ => trivial⟩⟩
  have hend : 0 + writeLen smallGeometry.bpb 0 1 < 2 ^ 32 := by decide
  exact ⟨hend, fun _ => ⟨rfl, .inl rfl⟩, fun k _ hk => absurd hk (not_lt_zero k)⟩

theorem opened_after_seek : ∃ f s₁, @openFile _ _ smallGeometry.bpb ascii [['a']] newFile freshDisk = .ok f s₁ ∧
    let o := fileStep smallGeometry.bpb ⟨s₁, f⟩ (.seek 5 .set)
    let o' := fileStep smallGeometry.bpb o.2 (.write oneByte)
    decide (o'.1 = .ok (.count 1) ∧ diskSize o'.2 = 1) = true :=
  exists_ok (by decide +kernel)

/-- A write behind a seek, on a file opened with TRUNCATE, does not go where the seek went. -/
theorem truncate_forgets_seek : ∃ g s s₁ f, geometry 66601 = .ok g ∧ format [1, 2, 3, 4] smallDisk = .ok () s ∧
      @openFile _ _ g.bpb Unicode.ascii [['a']] newFile s = .ok f s₁ ∧
      ¬ Lib.Follows (fileStep g.bpb) AgreesWith ⟨s₁, f⟩ ⟨[], 0⟩ [.seek 5 .set, .write oneByte] := by
  obtain ⟨f, s₁, hopen, hruns⟩ := opened_after_seek
  obtain ⟨hr, hsize⟩ := of_decide_eq_true hruns
  refine ⟨smallGeometry, _, s₁, f, rfl, format_smallDisk, hopen, ?_⟩
  rintro ⟨a₁, ⟨hseek, -⟩, a₂, ⟨hwrite, hdisk⟩, -⟩
  have hlength : 1 = a₂.bytes.length := hsize.symm.trans (hdisk oneByte 1 rfl hr)
  rcases hseek with ⟨hneg, -⟩ | ⟨p, hp, -, rfl⟩
  · exact absurd hneg (by decide)
  · obtain rfl : p = 5 := by
      have hmin : (p : Int) = 5 := hp.trans (by decide)
      omega
    rcases hwrite with ⟨k, hk, -, -, rfl⟩ | ⟨herr, -⟩
    · obtain rfl : 1 = k := by simpa using hr.symm.trans hk
      exact absurd hlength (by decide)
    · cases hr.symm.trans herr

end Ruos.Fat
